import LispRlm.Bytecode.Values
import Mathlib.Data.List.FinRange
import Mathlib.Data.String.Basic

/-! `sort`: what its comparison functions are to a sort that needs a total order. -/

namespace LispRlm.Bytecode

namespace Sorting

/-! ### Stable sorts -/

/-- A comparison is a total order of the places of a list. -/
structure TotalOn {α : Type} (cmp : α → α → Ordering) (l : List α) : Prop where
  swap : ∀ i j : Fin l.length, i ≠ j → cmp (l.get i) (l.get j) = (cmp (l.get j) (l.get i)).swap
  trans : ∀ (o : Ordering) (i j k : Fin l.length), i ≠ j → j ≠ k → i ≠ k →
    cmp (l.get i) (l.get j) = o → cmp (l.get j) (l.get k) = o → cmp (l.get i) (l.get k) = o

/-- The list's places in another order. -/
def Arranged {α : Type} (l r : List α) (before : Fin l.length → Fin l.length → Prop) : Prop :=
  ∃ places : List (Fin l.length),
    places.Perm (List.finRange l.length) ∧ r = places.map l.get ∧ places.Pairwise before

/-- The order of a stable sort. -/
def Stable {α : Type} (cmp : α → α → Ordering) (l : List α) (i j : Fin l.length) : Prop :=
  cmp (l.get i) (l.get j) = .lt ∨ cmp (l.get i) (l.get j) = .eq ∧ i < j

/-- `sort_by`, which is a correct stable sort when the comparison is a total order. -/
structure SortBy where
  run : (LispVal → LispVal → Ordering) → List LispVal → Option (List LispVal)
  correct : ∀ cmp l, TotalOn cmp l → ∃ r, run cmp l = some r ∧ Arranged l r (Stable cmp l)

section Total

variable {α : Type} {cmp : α → α → Ordering} {l : List α} {i j k : Fin l.length}

theorem stable_trans (total : TotalOn cmp l) (ij : i ≠ j) (jk : j ≠ k) (ik : i ≠ k)
    (first : Stable cmp l i j) (second : Stable cmp l j k) : Stable cmp l i k := by
  have kj := total.swap k j (Ne.symm jk)
  have ji := total.swap j i (Ne.symm ij)
  have ki := total.swap k i (Ne.symm ik)
  obtain less | ⟨same, before⟩ := first
  · obtain less' | ⟨same', -⟩ := second
    · exact .inl (total.trans .lt i j k ij jk ik less less')
    · left
      rw [same'] at kj
      cases middle : cmp (l.get i) (l.get k) with
      | lt => rfl
      | eq => cases (total.trans .eq i k j ik (Ne.symm jk) ij middle kj).symm.trans less
      | gt =>
        rw [middle] at ki
        cases (total.trans .lt k i j (Ne.symm ik) ij (Ne.symm jk) ki less).symm.trans kj
  · obtain less' | ⟨same', before'⟩ := second
    · left
      rw [same] at ji
      cases middle : cmp (l.get i) (l.get k) with
      | lt => rfl
      | eq => cases (total.trans .eq j i k (Ne.symm ij) ik jk ji middle).symm.trans less'
      | gt =>
        rw [middle] at ki
        cases (total.trans .lt j k i jk (Ne.symm ik) (Ne.symm ij) less' ki).symm.trans ji
    · exact .inr ⟨total.trans .eq i j k ij jk ik same same', Fin.lt_trans before before'⟩

theorem stable_total (total : TotalOn cmp l) (ij : i ≠ j) :
    Stable cmp l i j ∨ Stable cmp l j i := by
  have ji := total.swap j i (Ne.symm ij)
  cases first : cmp (l.get i) (l.get j) with
  | lt => exact .inl (.inl first)
  | gt =>
    rw [first] at ji
    exact .inr (.inl ji)
  | eq =>
    rw [first] at ji
    obtain before | before := Fin.lt_or_lt_of_ne ij
    · exact .inl (.inr ⟨first, before⟩)
    · exact .inr (.inr ⟨ji, before⟩)

/-- A total order of the places can be sorted. -/
theorem exists_arranged (total : TotalOn cmp l) : ∃ r, Arranged l r (Stable cmp l) := by
  classical
  let le : Fin l.length → Fin l.length → Bool := fun i j => decide (i = j ∨ Stable cmp l i j)
  have trans : ∀ i j k, le i j = true → le j k = true → le i k = true := by
    intro i j k first second
    simp only [le, decide_eq_true_eq] at first second ⊢
    by_cases ij : i = j
    · exact ij ▸ second
    by_cases jk : j = k
    · exact jk ▸ first
    by_cases ik : i = k
    · exact .inl ik
    · exact .inr (stable_trans total ij jk ik (first.resolve_left ij) (second.resolve_left jk))
  have all : ∀ i j, (le i j || le j i) = true := by
    intro i j
    simp only [le, Bool.or_eq_true, decide_eq_true_eq]
    by_cases ij : i = j
    · exact .inl (.inl ij)
    · exact (stable_total total ij).imp .inr .inr
  have sorted := List.pairwise_mergeSort trans all (List.finRange l.length)
  have perm := List.mergeSort_perm (List.finRange l.length) le
  refine ⟨_, _, perm, rfl, ?_⟩
  have nodup := perm.nodup_iff.mpr (List.nodup_finRange l.length)
  refine (sorted.and nodup).imp ?_
  rintro i j ⟨le, apart⟩
  exact (of_decide_eq_true le).resolve_left apart

end Total

/-! ### The two sorts -/

/-- What the VM makes of a comparator's result. -/
def vmOrdering : Except String LispVal → Ordering
  | .ok (.bool true) => .lt
  | .ok (.bool false) => .gt
  | _ => .eq

/-- What the dispatcher makes of a comparator's result. -/
def callOrdering : Except String LispVal → Ordering
  | .ok (.bool true) => .lt
  | .ok (.bool false) => .gt
  | .ok (.num n) => if n > 0 then .lt else if n < 0 then .gt else .eq
  | _ => .eq

/-- The magnitude of the nearest float, its exponent above its fraction. -/
def floatMagnitude (m : Nat) : Nat :=
  let e := m.log2
  if m = 0 then 0
  else if e ≤ 52 then (e + 1022) * 2 ^ 52 + m * 2 ^ (52 - e)
  else (e + 1022) * 2 ^ 52 + roundedDiv m (2 ^ (e - 52))

/-- A number's float as a whole number in the order of floats; a NaN has none. -/
def number : LispVal → Option Int
  | .num n =>
      let m : Int := floatMagnitude n.toInt.natAbs
      some (if n < 0 then -m else m)
  | .float bits =>
      let m : Nat := bits.toNat % 2 ^ 63
      if 0x7FF0000000000000 < m then none
      else some (if bits.toNat / 2 ^ 63 = 1 then -(m : Int) else m)
  | _ => none

/-- The natural order: strings among strings, numbers among numbers. -/
def naturalOrdering : LispVal → LispVal → Ordering
  | .str s, .str t => compare s t
  | a, b =>
      match number a, number b with
      | some x, some y => compare x y
      | _, _ => .eq

/-- `sort` of the VM, called with a comparator and a list. -/
def sortInline (sorter : SortBy) (call : LispVal → LispVal → Except String LispVal) :
    LispVal → Option LispVal
  | .list vals => .list <$> sorter.run (fun a b => vmOrdering (call a b)) vals
  | .nil => .list <$> sorter.run (fun a b => vmOrdering (call a b)) []
  | other => some other

/-- `sort` of the dispatcher, called with a list and perhaps a comparator. -/
def handleSort (sorter : SortBy) (arg : Option LispVal)
    (call : Option (LispVal → LispVal → Except String LispVal)) :
    Option (Except String LispVal) :=
  let sorted (vals : List LispVal) := (.ok ∘ .list) <$> match call with
    | some call => sorter.run (fun a b => callOrdering (call a b)) vals
    | none => sorter.run naturalOrdering vals
  match arg with
  | some (.list vals) => sorted vals
  | some .nil => sorted []
  | some other => some (.error ("sort: expected list, got " ++ display other))
  | none => some (.error "sort: need at least 1 argument")

/-! ### Comparators -/

/-- A comparator that computes a strict weak order of a list's elements. -/
structure Comparator (l : List LispVal) where
  call : LispVal → LispVal → Except String LispVal
  lt : LispVal → LispVal → Bool
  computes : ∀ a ∈ l, ∀ b ∈ l, call a b = .ok (.bool (lt a b))
  irrefl : ∀ a ∈ l, lt a a = false
  trans : ∀ a ∈ l, ∀ b ∈ l, ∀ c ∈ l, lt a b = true → lt b c = true → lt a c = true
  /-- What is less than one of two equal elements is less than the other. -/
  weak : ∀ a ∈ l, ∀ b ∈ l, ∀ c ∈ l, lt a c = true → lt a b = true ∨ lt b c = true

namespace Comparator

variable {l : List LispVal} (c : Comparator l)

/-- A permutation with no later element less than an earlier one, and equal ones in their order. -/
def Sorts (r : List LispVal) : Prop :=
  Arranged l r fun i j => c.lt (l.get j) (l.get i) = false ∧
    (c.lt (l.get i) (l.get j) = false → i < j)

/-- No two places have equal elements. -/
def NoTies : Prop :=
  ∀ i j : Fin l.length, i ≠ j → c.lt (l.get i) (l.get j) = true ∨ c.lt (l.get j) (l.get i) = true

/-- An ordering that says less where the comparator does, and greater everywhere else. -/
def Decisive (cmp : LispVal → LispVal → Ordering) : Prop :=
  ∀ a ∈ l, ∀ b ∈ l, cmp a b = if c.lt a b then .lt else .gt

variable {c} {cmp : LispVal → LispVal → Ordering}

theorem asymm {a b : LispVal} (ha : a ∈ l) (hb : b ∈ l) (less : c.lt a b = true) :
    c.lt b a = false := by
  by_contra more
  rw [Bool.not_eq_false] at more
  have here := c.trans a ha b hb a ha less more
  rw [c.irrefl a ha] at here
  cases here

theorem totalOn_iff (decisive : c.Decisive cmp) : TotalOn cmp l ↔ c.NoTies := by
  have cmp_eq (i j : Fin l.length) :
      cmp (l.get i) (l.get j) = if c.lt (l.get i) (l.get j) then .lt else .gt :=
    decisive _ (List.get_mem _ _) _ (List.get_mem _ _)
  constructor
  · intro total i j apart
    have swapped := total.swap i j apart
    rw [cmp_eq, cmp_eq] at swapped
    by_contra ties
    rw [not_or, Bool.not_eq_true, Bool.not_eq_true] at ties
    rw [ties.1, ties.2] at swapped
    cases swapped
  · intro noTies
    have greater {i j : Fin l.length} (apart : i ≠ j)
        (notLess : c.lt (l.get i) (l.get j) = false) : c.lt (l.get j) (l.get i) = true :=
      (noTies i j apart).resolve_left (by rw [notLess]; exact Bool.false_ne_true)
    refine ⟨fun i j apart => ?_, fun o i j k ij jk ik first second => ?_⟩
    · rw [cmp_eq, cmp_eq]
      cases less : c.lt (l.get i) (l.get j) with
      | true => rw [asymm (List.get_mem _ _) (List.get_mem _ _) less]; rfl
      | false => rw [greater apart less]; rfl
    · rw [cmp_eq] at first second ⊢
      cases less : c.lt (l.get i) (l.get j) with
      | true =>
        rw [less] at first
        cases first
        cases less' : c.lt (l.get j) (l.get k) with
        | true =>
          rw [c.trans _ (List.get_mem _ _) _ (List.get_mem _ _) _ (List.get_mem _ _) less less',
            if_pos rfl]
        | false =>
          rw [less'] at second
          cases second
      | false =>
        rw [less] at first
        cases first
        cases less' : c.lt (l.get j) (l.get k) with
        | true =>
          rw [less'] at second
          cases second
        | false =>
          have back := c.trans _ (List.get_mem _ _) _ (List.get_mem _ _) _ (List.get_mem _ _)
            (greater jk less') (greater ij less)
          rw [asymm (List.get_mem _ _) (List.get_mem _ _) back, if_neg Bool.false_ne_true]

/-- A sort that panics unless its comparison is a total order. -/
noncomputable def picky : SortBy where
  run cmp l :=
    open Classical in
    if total : TotalOn cmp l then some (exists_arranged total).choose else none
  correct cmp l total := by
    rw [dif_pos total]
    exact ⟨_, rfl, (exists_arranged total).choose_spec⟩

theorem sorts_iff (decisive : c.Decisive cmp) :
    (∀ sorter : SortBy, ∃ r, sorter.run cmp l = some r ∧ c.Sorts r) ↔ c.NoTies := by
  constructor
  · intro sorts
    by_contra ties
    obtain ⟨r, ran, -⟩ := sorts picky
    have partly : ¬TotalOn cmp l := fun total => ties ((totalOn_iff decisive).mp total)
    rw [picky] at ran
    simp only [dif_neg partly] at ran
    cases ran
  · intro noTies sorter
    obtain ⟨r, ran, places, perm, arranged, ordered⟩ :=
      sorter.correct cmp l ((totalOn_iff decisive).mpr noTies)
    refine ⟨r, ran, places, perm, arranged, ordered.imp ?_⟩
    intro i j stable
    unfold Stable at stable
    rw [decisive _ (List.get_mem _ _) _ (List.get_mem _ _)] at stable
    cases less : c.lt (l.get i) (l.get j) with
    | true => exact ⟨asymm (List.get_mem _ _) (List.get_mem _ _) less, nofun⟩
    | false =>
      rw [less] at stable
      obtain less | ⟨same, -⟩ := stable
      · cases less
      · cases same

theorem decisive_vm : c.Decisive fun a b => vmOrdering (c.call a b) := by
  intro a ha b hb
  dsimp only
  rw [c.computes a ha b hb]
  cases c.lt a b <;> rfl

theorem decisive_call : c.Decisive fun a b => callOrdering (c.call a b) := by
  intro a ha b hb
  dsimp only
  rw [c.computes a ha b hb]
  cases c.lt a b <;> rfl

end Comparator

/-! ### The natural order -/

def NaturalLe (a b : LispVal) : Prop := naturalOrdering a b ≠ .gt

theorem naturalLe_iff {a b : LispVal} : NaturalLe a b ↔
    (∀ s t, a = .str s → b = .str t → s ≤ t) ∧
      ∀ x y, number a = some x → number b = some y → x ≤ y := by
  unfold NaturalLe naturalOrdering
  split
  · rename_i s t
    rw [compare_le_iff_le]
    constructor
    · intro le
      refine ⟨?_, nofun⟩
      rintro _ _ ⟨⟩ ⟨⟩
      exact le
    · exact fun both => both.1 s t rfl rfl
  · rename_i noStr
    split
    · rename_i x y hx hy
      rw [Int.compare_ne_gt]
      constructor
      · intro le
        refine ⟨fun s t ha hb => (noStr s t ha hb).elim, fun x' y' hx' hy' => ?_⟩
        cases hx.symm.trans hx'
        cases hy.symm.trans hy'
        exact le
      · exact fun both => both.2 x y hx hy
    · rename_i apart
      refine iff_of_true nofun ⟨fun s t ha hb => (noStr s t ha hb).elim, fun x y hx hy => ?_⟩
      exact (apart x y hx hy).elim

theorem naturalLe_total (a b : LispVal) : NaturalLe a b ∨ NaturalLe b a := by
  by_contra neither
  rw [not_or, naturalLe_iff, naturalLe_iff] at neither
  obtain ⟨notAb, notBa⟩ := neither
  refine notBa ⟨?_, fun y x hy hx => ?_⟩
  · rintro t s rfl rfl
    obtain le | le := le_total s t
    · refine absurd ⟨?_, nofun⟩ notAb
      rintro _ _ ⟨⟩ ⟨⟩
      exact le
    · exact le
  · obtain le | le := Int.le_total x y
    · refine absurd ⟨?_, fun x' y' hx' hy' => ?_⟩ notAb
      · rintro s t rfl -
        cases hx
      · cases hx.symm.trans hx'
        cases hy.symm.trans hy'
        exact le
    · exact le

/-- The natural order is a total preorder of a list's elements. -/
structure NaturalPreorder (l : List LispVal) : Prop where
  total : ∀ a ∈ l, ∀ b ∈ l, NaturalLe a b ∨ NaturalLe b a
  trans : ∀ a ∈ l, ∀ b ∈ l, ∀ c ∈ l, NaturalLe a b → NaturalLe b c → NaturalLe a c

/-- There are two different strings only among strings, and two different numbers only among
numbers, of which none is a NaN. -/
structure Uniform (l : List LispVal) : Prop where
  strings : ∀ s t, .str s ∈ l → .str t ∈ l → s ≠ t → ∀ a ∈ l, ∃ u, a = .str u
  numbers : ∀ a ∈ l, ∀ b ∈ l, ∀ x y, number a = some x → number b = some y → x ≠ y →
    ∀ c ∈ l, ∃ z, number c = some z

theorem naturalPreorder_iff (l : List LispVal) : NaturalPreorder l ↔ Uniform l := by
  constructor
  · intro preorder
    refine ⟨fun s t hs ht apart a ha => ?_, fun a ha b hb x y hx hy apart c hc => ?_⟩
    · by_contra noStr
      have above (u : String) : NaturalLe (.str u) a :=
        naturalLe_iff.mpr ⟨fun _ t _ same => absurd ⟨t, same⟩ noStr, nofun⟩
      have below (u : String) : NaturalLe a (.str u) :=
        naturalLe_iff.mpr ⟨fun s _ same _ => absurd ⟨s, same⟩ noStr, nofun⟩
      have st := preorder.trans _ hs a ha _ ht (above s) (below t)
      have ts := preorder.trans _ ht a ha _ hs (above t) (below s)
      exact apart (le_antisymm ((naturalLe_iff.mp st).1 s t rfl rfl)
        ((naturalLe_iff.mp ts).1 t s rfl rfl))
    · by_contra noNumber
      have above {d : LispVal} {z : Int} (hz : number d = some z) : NaturalLe d c := by
        refine naturalLe_iff.mpr ⟨?_, fun _ w _ hw => absurd ⟨w, hw⟩ noNumber⟩
        rintro s t rfl -
        cases hz
      have below {d : LispVal} {z : Int} (hz : number d = some z) : NaturalLe c d := by
        refine naturalLe_iff.mpr ⟨?_, fun w _ hw _ => absurd ⟨w, hw⟩ noNumber⟩
        rintro s t - rfl
        cases hz
      have ab := preorder.trans a ha c hc b hb (above hx) (below hy)
      have ba := preorder.trans b hb c hc a ha (above hy) (below hx)
      exact apart (Int.le_antisymm ((naturalLe_iff.mp ab).2 x y hx hy)
        ((naturalLe_iff.mp ba).2 y x hy hx))
  · intro uniform
    constructor
    · exact fun a _ b _ => naturalLe_total a b
    · intro a ha b hb c hc ab bc
      obtain ⟨abStr, abNum⟩ := naturalLe_iff.mp ab
      obtain ⟨bcStr, bcNum⟩ := naturalLe_iff.mp bc
      refine naturalLe_iff.mpr ⟨?_, fun x y hx hy => ?_⟩
      · rintro s t rfl rfl
        by_cases same : s = t
        · exact le_of_eq same
        · obtain ⟨u, rfl⟩ := uniform.strings s t ha hc same b hb
          exact le_trans (abStr s u rfl rfl) (bcStr u t rfl rfl)
      · by_cases same : x = y
        · exact Int.le_of_eq same
        · obtain ⟨z, hz⟩ := uniform.numbers a ha c hc x y hx hy same b hb
          exact Int.le_trans (abNum x z hx hz) (bcNum z y hz hy)

/-! ### Both sorts -/

/-- Both sorts give an ordered permutation, whatever the correct stable sort that they use. -/
def SortsBoth {l : List LispVal} (c : Comparator l) : Prop :=
  ∀ sorter : SortBy,
    (∃ r, sortInline sorter c.call (.list l) = some (.list r) ∧ c.Sorts r) ∧
      ∃ r, handleSort sorter (some (.list l)) (some c.call) = some (.ok (.list r)) ∧ c.Sorts r

/-- Without a comparator there is an error, or the order is a total preorder of the elements. -/
def NaturallySorts (l : List LispVal) : Prop :=
  (∀ sorter, ∃ message, handleSort sorter (some (.list l)) none = some (.error message)) ∨
    NaturalPreorder l

theorem sortsBoth_iff {l : List LispVal} (c : Comparator l) : SortsBoth c ↔ c.NoTies := by
  constructor
  · intro sorts
    refine (Comparator.sorts_iff Comparator.decisive_vm).mp fun sorter => ?_
    obtain ⟨⟨r, ran, ordered⟩, -⟩ := sorts sorter
    refine ⟨r, ?_, ordered⟩
    obtain ⟨r', ran', same⟩ := Option.map_eq_some_iff.mp ran
    cases same
    exact ran'
  · intro noTies sorter
    obtain ⟨r, ran, ordered⟩ := (Comparator.sorts_iff Comparator.decisive_vm).mpr noTies sorter
    obtain ⟨r', ran', ordered'⟩ :=
      (Comparator.sorts_iff Comparator.decisive_call).mpr noTies sorter
    refine ⟨⟨r, ?_, ordered⟩, r', ?_, ordered'⟩
    · rw [sortInline, ran]
      rfl
    · simp only [handleSort]
      rw [ran']
      rfl

theorem naturallySorts_iff (l : List LispVal) : NaturallySorts l ↔ Uniform l := by
  rw [← naturalPreorder_iff]
  refine or_iff_right fun fails => ?_
  obtain ⟨message, failed⟩ := fails Comparator.picky
  simp only [handleSort] at failed
  obtain ⟨r, -, same⟩ := Option.map_eq_some_iff.mp failed
  cases same

/-- Sorting is right exactly where the comparator tells every two places apart and the natural order
has to tell no two elements apart across kinds. -/
theorem sort_iff (l : List LispVal) :
    (∀ c : Comparator l, SortsBoth c ↔ c.NoTies) ∧ (NaturallySorts l ↔ Uniform l) :=
  ⟨sortsBoth_iff, naturallySorts_iff l⟩

/-- `<` on two equal numbers. -/
def lessOfEqual : Comparator [.num 1, .num 1] where
  call
    | .num m, .num n => .ok (.bool (m < n))
    | _, _ => .error "not a number"
  lt
    | .num m, .num n => m < n
    | _, _ => false
  computes a ha b hb := by
    simp only [List.mem_cons, List.not_mem_nil, or_false, or_self] at ha hb
    subst ha hb
    rfl
  irrefl a ha := by
    simp only [List.mem_cons, List.not_mem_nil, or_false, or_self] at ha
    subst ha
    decide
  trans a ha b hb c hc less := by
    simp only [List.mem_cons, List.not_mem_nil, or_false, or_self] at ha hb
    subst ha hb
    simp at less
  weak a ha b hb c hc less := by
    simp only [List.mem_cons, List.not_mem_nil, or_false, or_self] at ha hc
    subst ha hc
    simp at less

/-- The comparisons of two equal numbers both say greater, and a sort may panic. -/
theorem sort_of_equal : ¬∀ (l : List LispVal) (c : Comparator l), SortsBoth c := by
  intro sorts
  have noTies := (sortsBoth_iff lessOfEqual).mp (sorts _ lessOfEqual)
  have tie := noTies 0 1 (by decide)
  revert tie
  decide

end Sorting

end LispRlm.Bytecode
