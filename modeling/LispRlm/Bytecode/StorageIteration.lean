import LispRlm.Bytecode.Values
import LispRlm.Foundation.Cursor
import LispRlm.Foundation.WeightedMap
import Mathlib.Data.List.Sort
import Mathlib.Data.String.Basic

/-! `storage-iter-prefix` and `storage-iter-next` between writes and removals. -/

namespace LispRlm.Bytecode

open LispRlm.Foundation

namespace StorageIteration

/-- The part of `EvalState` that the operations use. -/
structure State where
  storage : FMap String LispVal := ∅
  iterPrefixes : FMap Int64 (List String) := ∅
  iterCursors : FMap Int64 Nat := ∅
  iterNextId : Int64 := 0

/-! ### The operations -/

def startsWith (key pre : String) : Bool := pre.toList.isPrefixOf key.toList

/-- The keys that an iterator goes through. -/
def snapshot (storage : FMap String LispVal) (pre : String) : List String :=
  (storage.keys.filter (startsWith · pre)).insertionSort (· ≤ ·)

/-- `storage-iter-prefix`. The program stops where the counter of iterators overflows. -/
def storageIterPrefix (pre : String) (s : State) : Option (Int64 × State) :=
  let id := s.iterNextId
  if id = Int64.maxValue then none
  else some (id, { s with
    iterNextId := id + 1
    iterPrefixes := s.iterPrefixes.insert id (snapshot s.storage pre)
    iterCursors := s.iterCursors.insert id 0 })

/-- The loop over the keys that were deleted. -/
def advance (storage : FMap String LispVal) (keys : List String) (cursor : Nat) :
    Option String × Nat :=
  if inside : cursor < keys.length then
    if keys[cursor] ∈ storage then (some keys[cursor], cursor + 1)
    else advance storage keys (cursor + 1)
  else (none, cursor)
termination_by keys.length - cursor

/-- `storage-iter-next`, where `none` is `nil`. -/
def storageIterNext (id : Int64) (s : State) : Option String × State :=
  match s.iterPrefixes.lookup id with
  | none => (none, s)
  | some keys =>
    let (found, cursor) := advance s.storage keys ((s.iterCursors.lookup id).getD 0)
    (found, { s with iterCursors := s.iterCursors.insert id cursor })

/-- The operations on storage keep their key and value as they are handed over here; the families
differ in how they take them from their arguments. -/
inductive Op
  | iterPrefix (pre : String)
  | iterNext (id : Int64)
  | write (key : String) (val : LispVal)
  | remove (key : String)

/-- The calls of one iterator in a run, each with what is stored at the time. -/
def callsOf (id : Int64) : State → List Op → List (Option String × (String → Bool))
  | _, [] => []
  | s, .iterPrefix pre :: ops =>
    match storageIterPrefix pre s with
    | none => []
    | some (_, s) => callsOf id s ops
  | s, .iterNext id' :: ops =>
    let (found, s') := storageIterNext id' s
    if id' = id then (found, fun k => k ∈ s.storage) :: callsOf id s' ops else callsOf id s' ops
  | s, .write key val :: ops => callsOf id { s with storage := s.storage.insert key val } ops
  | s, .remove key :: ops => callsOf id { s with storage := s.storage.erase key } ops

/-- The loop that removes what the iterator returns, for at most so many turns. -/
def clean (id : Int64) : Nat → State → State
  | 0, s => s
  | turns + 1, s =>
    match storageIterNext id s with
    | (some key, s) => clean id turns { s with storage := s.storage.erase key }
    | (none, s) => s

/-! ### An iterator is a cursor over its snapshot -/

theorem mem_snapshot {storage : FMap String LispVal} {pre k : String} :
    k ∈ snapshot storage pre ↔ k ∈ storage ∧ startsWith k pre = true := by
  rw [snapshot, List.mem_insertionSort, List.mem_filter, AList.mem_keys]

theorem snapshot_ascending (storage : FMap String LispVal) (pre : String) :
    (snapshot storage pre).Pairwise (· < ·) := by
  have sorted := List.pairwise_insertionSort (· ≤ ·) (storage.keys.filter (startsWith · pre))
  have nodup : (snapshot storage pre).Nodup :=
    (List.perm_insertionSort _ _).nodup_iff.mpr (storage.keys_nodup.filter _)
  exact sorted.imp₂ (fun _ _ le ne => lt_of_le_of_ne le ne) nodup

theorem advance_next {storage : FMap String LispVal} {keys : List String} {cursor cursor' : Nat}
    {found : Option String} (run : advance storage keys cursor = (found, cursor')) :
    Cursor.next (fun k => k ∈ storage) (keys.drop cursor) = (found, keys.drop cursor') := by
  induction cursor using advance.induct storage keys with
  | case1 cursor inside stored =>
    rw [advance, dif_pos inside, if_pos stored] at run
    cases run
    rw [List.drop_eq_getElem_cons inside, Cursor.next, if_pos (decide_eq_true stored)]
  | case2 cursor inside deleted ih =>
    rw [advance, dif_pos inside, if_neg deleted] at run
    rw [List.drop_eq_getElem_cons inside, Cursor.next,
      if_neg (Bool.eq_false_iff.mp (decide_eq_false deleted)), ih run]
  | case3 cursor outside =>
    rw [advance, dif_neg outside] at run
    cases run
    rw [List.drop_eq_nil_of_le (Nat.le_of_not_lt outside), Cursor.next]

/-- The iterator `id` has the keys `rest` in front of it, and its number is taken. -/
structure At (id : Int64) (rest : List String) (s : State) : Prop where
  place : ∃ keys, s.iterPrefixes.lookup id = some keys ∧
    keys.drop ((s.iterCursors.lookup id).getD 0) = rest
  taken : id.toInt < s.iterNextId.toInt

theorem toInt_succ {n : Int64} (room : n ≠ Int64.maxValue) : (n + 1).toInt = n.toInt + 1 := by
  have small : n.toInt ≠ 2 ^ 63 - 1 := fun same => room (Int64.toInt_inj.mp same)
  have low := n.le_toInt
  have high := n.toInt_lt
  have one : (1 : Int64).toInt = 1 := rfl
  rw [Int64.toInt_add, one, Int.bmod_eq_of_le] <;> omega

theorem at_created {pre : String} {s s' : State} {id : Int64}
    (created : storageIterPrefix pre s = some (id, s')) : At id (snapshot s.storage pre) s' := by
  rw [storageIterPrefix] at created
  split at created
  · cases created
  · rename_i room
    cases created
    refine ⟨⟨snapshot s.storage pre, AList.lookup_insert _, ?_⟩, ?_⟩
    · rw [AList.lookup_insert, Option.getD_some, List.drop_zero]
    · rw [toInt_succ room]
      omega

section Steps

variable {id : Int64} {rest : List String} {s : State}

theorem At.created (here : At id rest s) {pre : String} {id' : Int64} {s' : State}
    (created : storageIterPrefix pre s = some (id', s')) : At id rest s' := by
  have taken := here.taken
  rw [storageIterPrefix] at created
  split at created
  · cases created
  · rename_i room
    cases created
    have other : id ≠ s.iterNextId := by
      rintro rfl
      exact absurd taken (lt_irrefl _)
    rcases here.place with ⟨keys, listed, rfl⟩
    refine ⟨⟨keys, (AList.lookup_insert_ne other).trans listed, ?_⟩, ?_⟩
    · rw [AList.lookup_insert_ne other]
    · rw [toInt_succ room]
      omega

theorem At.stored (here : At id rest s) (storage : FMap String LispVal) :
    At id rest { s with storage } := ⟨here.place, here.taken⟩

/-- A call of the iterator is a step of the cursor. -/
theorem At.next (here : At id rest s) :
    (storageIterNext id s).1 = (Cursor.next (fun k => k ∈ s.storage) rest).1 ∧
      At id (Cursor.next (fun k => k ∈ s.storage) rest).2 (storageIterNext id s).2 ∧
      (storageIterNext id s).2.storage = s.storage := by
  rcases here.place with ⟨keys, listed, rfl⟩
  rcases run : advance s.storage keys ((s.iterCursors.lookup id).getD 0) with ⟨found, cursor⟩
  rw [advance_next run]
  simp only [storageIterNext, listed, run]
  refine ⟨trivial, ⟨⟨keys, listed, ?_⟩, here.taken⟩, trivial⟩
  rw [AList.lookup_insert, Option.getD_some]

theorem At.next_other (here : At id rest s) {id' : Int64} (other : id' ≠ id) :
    At id rest (storageIterNext id' s).2 := by
  rw [storageIterNext]
  split
  · exact here
  · rcases here.place with ⟨keys, listed, rfl⟩
    refine ⟨⟨keys, listed, ?_⟩, here.taken⟩
    rw [AList.lookup_insert_ne other.symm]

end Steps

/-- In a run of the operations, the calls of an iterator are those of a cursor. -/
theorem callsOf_eq {id : Int64} {rest : List String} {s : State} (here : At id rest s)
    (ops : List Op) :
    ∃ lives, callsOf id s ops = (Cursor.results rest lives).zip lives := by
  induction ops generalizing s rest with
  | nil => exact ⟨[], rfl⟩
  | cons op ops ih =>
    cases op with
    | iterPrefix pre =>
      rw [callsOf]
      cases created : storageIterPrefix pre s with
      | none => exact ⟨[], rfl⟩
      | some p => exact ih (here.created created)
    | iterNext id' =>
      rcases call : storageIterNext id' s with ⟨r, s'⟩
      simp only [callsOf, call]
      by_cases own : id' = id
      · subst own
        rcases here.next with ⟨found, later, -⟩
        rw [call] at found later
        rcases ih later with ⟨lives, calls⟩
        refine ⟨(fun k => k ∈ s.storage) :: lives, ?_⟩
        rw [if_pos rfl, Cursor.results, List.zip_cons_cons, ← found, calls]
      · have later := here.next_other own
        rw [call] at later
        rw [if_neg own]
        exact ih later
    | write key val => exact ih (here.stored _)
    | remove key => exact ih (here.stored _)

/-! ### The cleaner loop -/

/-- With a turn for each key in front of the iterator and one more, those keys are gone. -/
theorem clean_lookup {id : Int64} {turns : Nat} {rest : List String} {s : State}
    (here : At id rest s) (enough : rest.length < turns) (k : String) :
    (clean id turns s).storage.lookup k = if k ∈ rest then none else s.storage.lookup k := by
  induction turns generalizing rest s with
  | zero => cases enough
  | succ turns ih =>
    rcases here.next with ⟨found, later, kept⟩
    rcases call : storageIterNext id s with ⟨r, s'⟩
    rcases step : Cursor.next (fun k => k ∈ s.storage) rest with ⟨r', rest'⟩
    simp only [call, step] at found later kept
    subst found
    simp only [clean, call]
    have gone {x : String} (dead : decide (x ∈ s.storage) = false) : s.storage.lookup x = none :=
      AList.lookup_eq_none.mpr (of_decide_eq_false dead)
    cases r with
    | none =>
      dsimp only
      rw [kept]
      split
      · rename_i listed
        exact gone ((Cursor.next_none step).2 k listed)
      · rfl
    | some key =>
      dsimp only
      rcases Cursor.next_some step with ⟨-, passed, rfl, dead⟩
      simp only [List.length_append, List.length_cons] at enough
      rw [ih (later.stored _) (by omega)]
      by_cases inRest : k ∈ rest'
      · rw [if_pos inRest, if_pos (List.mem_append_right _ (List.mem_cons_of_mem _ inRest))]
      · rw [if_neg inRest]
        dsimp only
        by_cases removed : k = key
        · subst removed
          rw [AList.lookup_erase, if_pos (List.mem_append_right _ List.mem_cons_self)]
        · rw [AList.lookup_erase_ne removed, kept]
          split
          · rename_i listed
            rcases List.mem_append.mp listed with inPassed | inTail
            · exact gone (dead k inPassed)
            · rcases List.mem_cons.mp inTail with same | inRest'
              · exact absurd same removed
              · exact absurd inRest' inRest
          · rfl

/-- An iterator enumerates the keys that had its prefix when it was made, whatever is done between
its calls, and the cleaner loop removes these and no others. -/
theorem iteration_drains (s : State) (pre : String) (ops : List Op) :
    match storageIterPrefix pre s with
    | none => s.iterNextId = Int64.maxValue
    | some (id, s') =>
      (∀ k, k ∈ snapshot s.storage pre ↔ k ∈ s.storage ∧ startsWith k pre = true) ∧
        Cursor.Enumerates (snapshot s.storage pre) (callsOf id s' ops) ∧
        ∃ turns, ∀ more k, (clean id (turns + more) s').storage.lookup k =
          if startsWith k pre = true then none else s.storage.lookup k := by
  cases created : storageIterPrefix pre s with
  | none =>
    rw [storageIterPrefix] at created
    split at created
    · assumption
    · cases created
  | some p =>
    rcases p with ⟨id, s'⟩
    have here := at_created created
    have same : s'.storage = s.storage := by
      rw [storageIterPrefix] at created
      split at created
      · cases created
      · cases created
        rfl
    refine ⟨fun k => mem_snapshot, ?_, (snapshot s.storage pre).length + 1, fun more k => ?_⟩
    · rcases callsOf_eq here ops with ⟨lives, calls⟩
      rw [calls]
      exact Cursor.enumerates (snapshot_ascending s.storage pre) lives
    · rw [clean_lookup here (by omega), same]
      by_cases prefixed : startsWith k pre = true
      · rw [if_pos prefixed]
        split
        · rfl
        · rename_i unlisted
          exact AList.lookup_eq_none.mpr fun stored =>
            unlisted (mem_snapshot.mpr ⟨stored, prefixed⟩)
      · rw [if_neg prefixed, if_neg fun listed => prefixed (mem_snapshot.mp listed).2]

end StorageIteration

end LispRlm.Bytecode
