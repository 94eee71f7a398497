import LispRlm.WasmEmit.ParseCache

/-! The locals of memos are their own, as long as all of them were new. -/

namespace LispRlm.WasmEmit.ParseCache

namespace Emitter

theorem lookup_filter_other {locals : List (Local × Nat)} {k k' : Local} (other : k' ≠ k) :
    (locals.filter fun entry => !(entry.1 == k)).lookup k' = locals.lookup k' := by
  induction locals with
  | nil => rfl
  | cons entry locals ih =>
      obtain ⟨key, i⟩ := entry
      by_cases same : key = k
      · have apart : (k' == key) = false := beq_eq_false_iff_ne.mpr (same ▸ other)
        have dropped : (!(key == k)) = false := by rw [beq_iff_eq.mpr same]; rfl
        rw [List.filter_cons_of_neg (by simp [same]), List.lookup_cons, apart]
        exact ih
      · rw [List.filter_cons_of_pos (by simp [same]), List.lookup_cons, List.lookup_cons, ih]

theorem lookup_filter_self {locals : List (Local × Nat)} {k : Local} :
    (locals.filter fun entry => !(entry.1 == k)).lookup k = none := by
  rw [List.lookup_eq_none_iff]
  intro entry mem
  have kept := (List.mem_filter.mp mem).2
  apply bne_iff_ne.mpr
  intro same
  rw [← same, beq_self_eq_true] at kept
  cases kept

theorem slot_insert (σ : Emitter) (k k' : Local) (i : Nat) :
    (σ.insert k i).slot k' = if k' = k then some i else σ.slot k' := by
  unfold slot insert
  rw [List.lookup_cons]
  by_cases same : k' = k
  · simp [same]
  · rw [beq_eq_false_iff_ne.mpr same, if_neg same]
    exact lookup_filter_other same

theorem slot_remove (σ : Emitter) (k k' : Local) :
    (σ.remove k).slot k' = if k' = k then none else σ.slot k' := by
  unfold slot remove
  by_cases same : k' = k
  · rw [if_pos same, same]
    exact lookup_filter_self
  · rw [if_neg same]
    exact lookup_filter_other same

/-- What `local_idx` does with a name that has no local yet. -/
theorem localIdx_none {σ : Emitter} {k : Local} (fresh : σ.slot k = none) :
    ∃ i, (i ∈ σ.free ∧ (σ.localIdx k).next = σ.next ∨
          i = σ.next ∧ (σ.localIdx k).next = σ.next + 1) ∧
      (∀ j ∈ (σ.localIdx k).free, j ∈ σ.free) ∧
      (∀ k', (σ.localIdx k).slot k' = if k' = k then some i else σ.slot k') ∧
      (σ.localIdx k).allNew = σ.allNew := by
  have skipped : ∀ j ∈ (σ.free.takeWhile σ.unusable).reverse, j ∈ σ.free := fun j mem =>
    (List.takeWhile_sublist σ.unusable).subset (List.mem_reverse.mp mem)
  unfold localIdx
  rw [fresh]
  simp only [Option.isSome_none, Bool.false_eq_true, if_false]
  cases rest : σ.free.dropWhile σ.unusable with
  | nil => exact ⟨σ.next, .inr ⟨rfl, rfl⟩, skipped, fun k' => slot_insert σ k k' σ.next, rfl⟩
  | cons i free =>
      have suffix : ∀ j ∈ i :: free, j ∈ σ.free := fun j mem =>
        (List.dropWhile_sublist σ.unusable).subset (rest ▸ mem)
      refine ⟨i, .inl ⟨suffix i List.mem_cons_self, rfl⟩, ?_,
        fun k' => slot_insert σ k k' i, rfl⟩
      intro j mem
      cases List.mem_append.mp mem with
      | inl before => exact skipped j before
      | inr later => exact suffix j (List.mem_cons_of_mem _ later)

theorem localIdx_some {σ : Emitter} {k : Local} (found : (σ.slot k).isSome = true) :
    σ.localIdx k = σ := by
  unfold localIdx
  rw [if_pos found]

end Emitter

open Emitter

/-- A memo's locals are nobody else's. -/
structure Wf (σ : Emitter) : Prop where
  lt : ∀ k i, σ.slot k = some i → i < σ.next
  freeLt : ∀ i ∈ σ.free, i < σ.next
  apart : ∀ part x i, σ.slot (.memo part x) = some i →
    i ∉ σ.free ∧ ∀ k, σ.slot k = some i → k = .memo part x

/-- From one place of the emission to a later one. -/
structure Grows (σ σ' : Emitter) : Prop where
  allNew : σ'.allNew = true → σ.allNew = true
  wf : σ'.allNew = true → Wf σ → Wf σ'
  next : σ.next ≤ σ'.next
  keeps : ∀ part x i, σ.slot (.memo part x) = some i → σ'.slot (.memo part x) = some i
  news : σ'.allNew = true → ∀ part x i, σ'.slot (.memo part x) = some i →
    σ.slot (.memo part x) = some i ∨ σ.next ≤ i

namespace Grows

variable {σ σ' σ'' : Emitter}

theorem same : Grows σ σ :=
  ⟨id, fun _ wf => wf, Nat.le_refl _, fun _ _ _ found => found, fun _ _ _ _ found => .inl found⟩

theorem then_ (first : Grows σ σ') (second : Grows σ' σ'') : Grows σ σ'' where
  allNew := fun new => first.allNew (second.allNew new)
  wf := fun new wf => second.wf new (first.wf (second.allNew new) wf)
  next := Nat.le_trans first.next second.next
  keeps := fun part x i found => second.keeps part x i (first.keeps part x i found)
  news := by
    intro new part x i found
    cases second.news new part x i found with
    | inl before => exact first.news (second.allNew new) part x i before
    | inr late => exact .inr (Nat.le_trans first.next late)

end Grows

/-- The variables in scope keep their locals. -/
def Scopes (σ σ' : Emitter) : Prop :=
  ∀ x i, σ.slot (.var x) = some i → σ'.slot (.var x) = some i

theorem Scopes.same {σ : Emitter} : Scopes σ σ := fun _ _ found => found

theorem Scopes.then_ {σ σ' σ'' : Emitter} (first : Scopes σ σ') (second : Scopes σ' σ'') :
    Scopes σ σ'' := fun x i found => second x i (first x i found)

def Local.isMemo : Local → Bool
  | .memo _ _ => true
  | _ => false

/-- A name that is not a memo's, put at a slot that is no memo's. -/
theorem wf_placed {σ σ' : Emitter} {k : Local} {i : Nat} (wf : Wf σ) (notMemo : k.isMemo = false)
    (next : σ.next ≤ σ'.next) (below : i < σ'.next) (free : ∀ j ∈ σ'.free, j ∈ σ.free)
    (clear : ∀ part x, σ.slot (.memo part x) ≠ some i)
    (slots : ∀ k', σ'.slot k' = if k' = k then some i else σ.slot k') : Wf σ' where
  lt := by
    intro k' j found
    rw [slots] at found
    split at found
    · cases found
      exact below
    · exact Nat.lt_of_lt_of_le (wf.lt k' j found) next
  freeLt := fun j mem => Nat.lt_of_lt_of_le (wf.freeLt j (free j mem)) next
  apart := by
    intro part x j found
    have other : Local.memo part x ≠ k := by
      intro same
      rw [← same] at notMemo
      cases notMemo
    rw [slots, if_neg other] at found
    obtain ⟨notFree, only⟩ := wf.apart part x j found
    refine ⟨fun mem => notFree (free j mem), ?_⟩
    intro k' there
    rw [slots] at there
    split at there
    · cases there
      exact absurd found (clear part x)
    · exact only k' there

theorem localIdx_grows (σ : Emitter) {k : Local} (notMemo : k.isMemo = false) :
    Grows σ (σ.localIdx k) := by
  cases found : σ.slot k with
  | some i =>
      rw [localIdx_some (by rw [found]; rfl)]
      exact Grows.same
  | none =>
      obtain ⟨i, place, free, slots, allNew⟩ := localIdx_none found
      have memos : ∀ part x, (σ.localIdx k).slot (.memo part x) = σ.slot (.memo part x) := by
        intro part x
        rw [slots, if_neg]
        intro same
        rw [← same] at notMemo
        cases notMemo
      refine ⟨fun new => allNew ▸ new, ?_, ?_, ?_, ?_⟩
      · intro _ wf
        cases place with
        | inl reused =>
            apply wf_placed wf notMemo (Nat.le_of_eq reused.2.symm) _ free _ slots
            · rw [reused.2]
              exact wf.freeLt i reused.1
            · intro part x there
              exact (wf.apart part x i there).1 reused.1
        | inr new =>
            apply wf_placed wf notMemo _ _ free _ slots
            · omega
            · omega
            · intro part x there
              have lower := wf.lt _ i there
              omega
      · cases place with
        | inl reused => exact Nat.le_of_eq reused.2.symm
        | inr new => omega
      · intro part x j there
        rw [memos]
        exact there
      · intro _ part x j there
        rw [memos] at there
        exact .inl there

theorem localIdx_scopes (σ : Emitter) (k : Local) : Scopes σ (σ.localIdx k) := by
  intro x i found
  cases slot : σ.slot k with
  | some j =>
      rw [localIdx_some (by rw [slot]; rfl)]
      exact found
  | none =>
      obtain ⟨j, _, _, slots, _⟩ := localIdx_none slot
      rw [slots, if_neg]
      · exact found
      · intro same
        rw [same, slot] at found
        cases found

/-- `local_idx` for a memo, where it takes a slot that nothing had before. -/
theorem localIdx_new {σ : Emitter} {k : Local} (new : (σ.localIdx k).next = σ.next + 1) :
    (∀ j ∈ (σ.localIdx k).free, j ∈ σ.free) ∧
      (∀ k', (σ.localIdx k).slot k' = if k' = k then some σ.next else σ.slot k') ∧
      σ.slot k = none := by
  cases found : σ.slot k with
  | some i =>
      rw [localIdx_some (by rw [found]; rfl)] at new
      omega
  | none =>
      obtain ⟨i, place, free, slots, _⟩ := localIdx_none found
      cases place with
      | inl reused => omega
      | inr place => exact ⟨free, place.1 ▸ slots, rfl⟩

theorem localIdx_next_le (σ : Emitter) (k : Local) :
    σ.next ≤ (σ.localIdx k).next ∧ (σ.localIdx k).next ≤ σ.next + 1 := by
  cases found : σ.slot k with
  | some i =>
      rw [localIdx_some (by rw [found]; rfl)]
      omega
  | none =>
      obtain ⟨i, place, _, _, _⟩ := localIdx_none found
      omega

theorem wf_new {σ : Emitter} {k : Local} (wf : Wf σ)
    (new : (σ.localIdx k).next = σ.next + 1) : Wf (σ.localIdx k) := by
  obtain ⟨free, slots, absent⟩ := localIdx_new new
  refine ⟨?_, ?_, ?_⟩
  · intro k' j found
    rw [slots] at found
    split at found
    · cases found
      omega
    · have lower := wf.lt k' j found
      omega
  · intro j mem
    have lower := wf.freeLt j (free j mem)
    omega
  · intro part x j found
    rw [slots] at found
    split at found
    · rename_i same
      cases found
      constructor
      · intro mem
        have lower := wf.freeLt _ (free _ mem)
        omega
      · intro k' there
        rw [slots] at there
        split at there
        · rename_i same'
          exact same'.trans same.symm
        · have lower := wf.lt k' _ there
          omega
    · obtain ⟨notFree, only⟩ := wf.apart part x j found
      refine ⟨fun mem => notFree (free j mem), ?_⟩
      intro k' there
      rw [slots] at there
      split at there
      · cases there
        have lower := wf.lt _ _ found
        omega
      · exact only k' there

theorem grows_new (σ : Emitter) (part : Part) (x : String)
    (new : (σ.localIdx (.memo part x)).next = σ.next + 1) :
    Grows σ (σ.localIdx (.memo part x)) := by
  obtain ⟨free, slots, absent⟩ := localIdx_new new
  refine ⟨?_, fun _ wf => wf_new wf new, by omega, ?_, ?_⟩
  · obtain ⟨i, _, _, _, allNew⟩ := localIdx_none absent
    exact fun now => allNew ▸ now
  · intro part' y j found
    rw [slots, if_neg]
    · exact found
    · intro same
      rw [same, absent] at found
      cases found
  · intro _ part' y j found
    rw [slots] at found
    split at found
    · cases found
      exact .inr (Nat.le_refl _)
    · exact .inl found

theorem localIdx_keeps {σ : Emitter} {k k' : Local} {i : Nat} (found : σ.slot k' = some i) :
    (σ.localIdx k).slot k' = some i := by
  cases slot : σ.slot k with
  | some j =>
      rw [localIdx_some (by rw [slot]; rfl)]
      exact found
  | none =>
      obtain ⟨j, _, _, slots, _⟩ := localIdx_none slot
      rw [slots, if_neg]
      · exact found
      · intro same
        rw [same, slot] at found
        cases found

theorem localIdx_var {σ : Emitter} {k : Local} {x : String} (other : Local.var x ≠ k) :
    (σ.localIdx k).slot (.var x) = σ.slot (.var x) := by
  cases slot : σ.slot k with
  | some j => rw [localIdx_some (by rw [slot]; rfl)]
  | none =>
      obtain ⟨j, _, _, slots, _⟩ := localIdx_none slot
      rw [slots, if_neg other]

theorem localIdx_has (σ : Emitter) (k : Local) : ((σ.localIdx k).slot k).isSome = true := by
  cases slot : σ.slot k with
  | some j =>
      rw [localIdx_some (by rw [slot]; rfl), slot]
      rfl
  | none =>
      obtain ⟨j, _, _, slots, _⟩ := localIdx_none slot
      rw [slots, if_pos rfl]
      rfl

theorem localIdx_allNew (σ : Emitter) (k : Local) : (σ.localIdx k).allNew = σ.allNew := by
  cases slot : σ.slot k with
  | some j => rw [localIdx_some (by rw [slot]; rfl)]
  | none =>
      obtain ⟨j, _, _, _, allNew⟩ := localIdx_none slot
      exact allNew

/-- The locals with which a memo's three parts are made. -/
def made (σ : Emitter) (x : String) : Emitter :=
  ((σ.localIdx (.memo .flag x)).localIdx (.memo .lo x)).localIdx (.memo .hi x)

theorem memo_none {σ : Emitter} {x : String} (absent : (σ.slot (.memo .flag x)).isSome = false) :
    σ.memo x = { made σ x with allNew := σ.allNew && (made σ x).next == σ.next + 3 } := by
  unfold Emitter.memo
  rw [absent]
  rfl

theorem memo_grows (σ : Emitter) (x : String) : Grows σ (σ.memo x) := by
  cases present : (σ.slot (.memo .flag x)).isSome with
  | true =>
      unfold Emitter.memo
      rw [if_pos present]
      exact Grows.same
  | false =>
      rw [memo_none present]
      have first := localIdx_next_le σ (.memo .flag x)
      have second := localIdx_next_le (σ.localIdx (.memo .flag x)) (.memo .lo x)
      have third := localIdx_next_le
        ((σ.localIdx (.memo .flag x)).localIdx (.memo .lo x)) (.memo .hi x)
      -- three new locals are one for each part
      have allThree : (σ.allNew && (made σ x).next == σ.next + 3) = true →
          Grows σ (made σ x) := by
        intro new
        have next : (made σ x).next = σ.next + 3 := by
          rw [Bool.and_eq_true, beq_iff_eq] at new
          exact new.2
        unfold made at next
        have one := grows_new σ .flag x (by omega)
        have two := grows_new (σ.localIdx (.memo .flag x)) .lo x (by omega)
        have three := grows_new ((σ.localIdx (.memo .flag x)).localIdx (.memo .lo x)) .hi x
          (by omega)
        exact one.then_ (two.then_ three)
      have madeNew : (σ.allNew && (made σ x).next == σ.next + 3) = true →
          (made σ x).allNew = true := by
        intro new
        rw [Bool.and_eq_true] at new
        unfold made
        rw [localIdx_allNew, localIdx_allNew, localIdx_allNew]
        exact new.1
      refine ⟨?_, ?_, ?_, ?_, ?_⟩
      · intro new
        rw [Bool.and_eq_true] at new
        exact new.1
      · intro new wf
        have inner := (allThree new).wf (madeNew new) wf
        exact ⟨inner.lt, inner.freeLt, inner.apart⟩
      · show σ.next ≤ (made σ x).next
        unfold made
        omega
      · intro part y i found
        exact localIdx_keeps (localIdx_keeps (localIdx_keeps found))
      · intro new
        exact (allThree new).news (madeNew new)

theorem memo_var (σ : Emitter) (x y : String) :
    (σ.memo x).slot (.var y) = σ.slot (.var y) := by
  cases present : (σ.slot (.memo .flag x)).isSome with
  | true =>
      unfold Emitter.memo
      rw [if_pos present]
  | false =>
      rw [memo_none present]
      calc (made σ x).slot (.var y)
          = ((σ.localIdx (.memo .flag x)).localIdx (.memo .lo x)).slot (.var y) :=
            localIdx_var (fun same => nomatch same)
        _ = (σ.localIdx (.memo .flag x)).slot (.var y) :=
            localIdx_var (fun same => nomatch same)
        _ = σ.slot (.var y) := localIdx_var (fun same => nomatch same)

theorem memo_scopes (σ : Emitter) (x : String) : Scopes σ (σ.memo x) := by
  intro y i found
  rw [memo_var]
  exact found

theorem memo_has (σ : Emitter) (x : String) :
    ((σ.memo x).slot (.memo .flag x)).isSome = true := by
  cases present : (σ.slot (.memo .flag x)).isSome with
  | true =>
      unfold Emitter.memo
      rw [if_pos present]
      exact present
  | false =>
      rw [memo_none present]
      obtain ⟨i, found⟩ := Option.isSome_iff_exists.mp (localIdx_has σ (.memo .flag x))
      have kept : (made σ x).slot (.memo .flag x) = some i :=
        localIdx_keeps (localIdx_keeps found)
      show ((made σ x).slot (.memo .flag x)).isSome = true
      rw [kept]
      rfl

/-- One place of the emission and a later one at which its variables are still in scope. -/
def Goes (σ σ' : Emitter) : Prop := Grows σ σ' ∧ Scopes σ σ'

namespace Goes

variable {σ σ' σ'' : Emitter}

theorem same : Goes σ σ := ⟨Grows.same, Scopes.same⟩

theorem then_ (first : Goes σ σ') (second : Goes σ' σ'') : Goes σ σ'' :=
  ⟨first.1.then_ second.1, first.2.then_ second.2⟩

theorem localIdx (σ : Emitter) {k : Local} (notMemo : k.isMemo = false) :
    Goes σ (σ.localIdx k) := ⟨localIdx_grows σ notMemo, localIdx_scopes σ k⟩

theorem memo (σ : Emitter) (x : String) : Goes σ (σ.memo x) := ⟨memo_grows σ x, memo_scopes σ x⟩

theorem foldl {α : Type} {f : Emitter → α → Emitter} (each : ∀ σ a, Goes σ (f σ a)) (σ : Emitter)
    (as : List α) : Goes σ (as.foldl f σ) := by
  induction as generalizing σ with
  | nil => exact same
  | cons a as ih => exact (each σ a).then_ (ih (f σ a))

theorem memos (σ : Emitter) (names : List String) : Goes σ (σ.memos names) :=
  foldl memo σ names

theorem temps (σ : Emitter) (labels : List String) : Goes σ (σ.temps labels) :=
  foldl (fun σ _ => localIdx σ rfl) σ labels

theorem gen (σ : Emitter) (labels : List String) : Goes σ (σ.gen labels) := by
  have placed : Goes σ (labels.foldl (fun σ' label => σ'.localIdx (.temp label σ.gens)) σ) :=
    foldl (fun σ' _ => localIdx σ' rfl) σ labels
  obtain ⟨grows, scopes⟩ := placed
  refine ⟨⟨grows.allNew, ?_, grows.next, grows.keeps, grows.news⟩, scopes⟩
  intro new wf
  have inner := grows.wf new wf
  exact ⟨inner.lt, inner.freeLt, inner.apart⟩

end Goes

/-- A variable put at a slot that is no memo's. -/
theorem Grows.insert {σ σ' : Emitter} (grows : Grows σ σ') {x : String} {i : Nat}
    (clear : σ'.allNew = true → Wf σ →
      i < σ'.next ∧ ∀ part y, σ'.slot (.memo part y) ≠ some i) :
    Grows σ (σ'.insert (.var x) i) := by
  have memos : ∀ part y, (σ'.insert (.var x) i).slot (.memo part y) = σ'.slot (.memo part y) := by
    intro part y
    rw [slot_insert, if_neg fun same => nomatch same]
  refine ⟨grows.allNew, ?_, grows.next, ?_, ?_⟩
  · intro new wf
    obtain ⟨below, apart⟩ := clear new wf
    exact wf_placed (grows.wf new wf) rfl (Nat.le_refl _) below (fun _ mem => mem) apart
      (fun k' => slot_insert σ' (.var x) k' i)
  · intro part y j found
    rw [memos]
    exact grows.keeps part y j found
  · intro new part y j found
    rw [memos] at found
    exact grows.news new part y j found

theorem bind_slot (σ : Emitter) (x y : String) (other : y ≠ x) :
    (σ.bind x).slot (.var y) = σ.slot (.var y) := by
  have apart : Local.var y ≠ Local.var x := fun same => other (Local.var.inj same)
  unfold Emitter.bind
  cases σ.free with
  | nil => exact (slot_insert σ (.var x) (.var y) σ.next).trans (if_neg apart)
  | cons i free => exact (slot_insert σ (.var x) (.var y) i).trans (if_neg apart)

theorem bind_grows (σ : Emitter) (x : String) : Grows σ (σ.bind x) := by
  unfold Emitter.bind
  cases free : σ.free with
  | nil =>
      have slots := fun k' => slot_insert σ (.var x) k' σ.next
      have memos : ∀ part y, (σ.insert (.var x) σ.next).slot (.memo part y) =
          σ.slot (.memo part y) := by
        intro part y
        rw [slots, if_neg fun same => nomatch same]
      refine ⟨id, ?_, Nat.le_succ _, ?_, ?_⟩
      · intro _ wf
        show Wf { σ.insert (.var x) σ.next with next := σ.next + 1 }
        have apart : ∀ part y, σ.slot (.memo part y) ≠ some σ.next := by
          intro part y found
          have lower := wf.lt _ _ found
          omega
        exact wf_placed wf rfl (Nat.le_succ _) (Nat.lt_succ_self _) (fun _ mem => mem) apart slots
      · intro part y j found
        exact (memos part y).trans found
      · intro _ part y j found
        exact .inl ((memos part y).symm.trans found)
  | cons i rest =>
      have slots := fun k' => slot_insert σ (.var x) k' i
      have memos : ∀ part y, (σ.insert (.var x) i).slot (.memo part y) =
          σ.slot (.memo part y) := by
        intro part y
        rw [slots, if_neg fun same => nomatch same]
      have taken : i ∈ σ.free := free ▸ List.mem_cons_self
      refine ⟨id, ?_, Nat.le_refl _, ?_, ?_⟩
      · intro _ wf
        show Wf { σ.insert (.var x) i with free := rest }
        have fewer : ∀ j ∈ rest, j ∈ σ.free := by
          intro j mem
          rw [free]
          exact List.mem_cons_of_mem _ mem
        have apart : ∀ part y, σ.slot (.memo part y) ≠ some i := fun part y found =>
          (wf.apart part y i found).1 taken
        exact wf_placed wf rfl (Nat.le_refl _) (wf.freeLt i taken) fewer apart slots
      · intro part y j found
        exact (memos part y).trans found
      · intro _ part y j found
        exact .inl ((memos part y).symm.trans found)

/-- A name taken away, whose slot may be free again. -/
theorem Grows.remove {σ σ' τ : Emitter} (grows : Grows σ σ') {x : String}
    (locals : τ.locals = (σ'.remove (.var x)).locals) (next : τ.next = σ'.next)
    (allNew : τ.allNew = σ'.allNew)
    (free : ∀ i ∈ τ.free, i ∈ σ'.free ∨ σ'.slot (.var x) = some i) : Grows σ τ := by
  have slots : ∀ k', τ.slot k' = if k' = .var x then none else σ'.slot k' := by
    intro k'
    unfold slot
    rw [locals]
    exact slot_remove σ' (.var x) k'
  have memos : ∀ part y, τ.slot (.memo part y) = σ'.slot (.memo part y) := by
    intro part y
    rw [slots, if_neg fun same => nomatch same]
  have kept : ∀ k j, τ.slot k = some j → σ'.slot k = some j := by
    intro k j found
    rw [slots] at found
    split at found
    · cases found
    · exact found
  refine ⟨fun new => grows.allNew (allNew ▸ new), ?_, next ▸ grows.next, ?_, ?_⟩
  · intro new wf
    have wf' := grows.wf (allNew ▸ new) wf
    refine ⟨fun k j found => next ▸ wf'.lt k j (kept k j found), ?_, ?_⟩
    · intro j mem
      rw [next]
      cases free j mem with
      | inl before => exact wf'.freeLt j before
      | inr current => exact wf'.lt _ _ current
    · intro part y j found
      obtain ⟨notFree, only⟩ := wf'.apart part y j (kept _ j found)
      refine ⟨?_, fun k there => only k (kept k j there)⟩
      intro mem
      cases free j mem with
      | inl before => exact notFree before
      | inr current => exact nomatch only _ current
  · intro part y j found
    exact (memos part y).trans (grows.keeps part y j found)
  · intro new part y j found
    exact grows.news (allNew ▸ new) part y j ((memos part y).symm.trans found)

/-- The slot of a variable is no memo's at a later place either. -/
theorem Grows.slot_apart {σ σ' : Emitter} (grows : Grows σ σ') {x : String} {i : Nat}
    (found : σ.slot (.var x) = some i) (new : σ'.allNew = true) (wf : Wf σ) :
    i < σ'.next ∧ ∀ part y, σ'.slot (.memo part y) ≠ some i := by
  have below := wf.lt _ _ found
  refine ⟨Nat.lt_of_lt_of_le below grows.next, ?_⟩
  intro part y there
  cases grows.news new part y i there with
  | inl early => exact nomatch (wf.apart part y i early).2 _ found
  | inr late => omega

theorem unbind_grows {σ σ' : Emitter} {x : String} {old : Option Nat} (grows : Grows σ σ')
    (fine : ∀ i, old = some i → σ'.allNew = true → Wf σ →
      i < σ'.next ∧ ∀ part y, σ'.slot (.memo part y) ≠ some i) : Grows σ (σ'.unbind x old) := by
  unfold Emitter.unbind
  cases old with
  | some i => exact grows.insert (fine i rfl)
  | none =>
      cases current : σ'.slot (.var x) with
      | none => exact grows
      | some i =>
          show Grows σ { σ'.remove (.var x) with free := i :: σ'.free }
          refine grows.remove rfl rfl rfl ?_
          intro j mem
          cases mem with
          | head => exact .inr current
          | tail _ before => exact .inl before

theorem uncatch_grows {σ σ' : Emitter} {x : String} {old : Option Nat} (grows : Grows σ σ')
    (fine : ∀ i, old = some i → σ'.allNew = true → Wf σ →
      i < σ'.next ∧ ∀ part y, σ'.slot (.memo part y) ≠ some i) : Grows σ (σ'.uncatch x old) := by
  unfold Emitter.uncatch
  cases old with
  | some i => exact grows.insert (fine i rfl)
  | none => exact grows.remove rfl rfl rfl fun _ mem => .inl mem

theorem unbind_slot (σ : Emitter) (x y : String) (old : Option Nat) (other : y ≠ x) :
    (σ.unbind x old).slot (.var y) = σ.slot (.var y) := by
  have apart : Local.var y ≠ Local.var x := fun same => other (Local.var.inj same)
  unfold Emitter.unbind
  cases old with
  | some i => rw [slot_insert, if_neg apart]
  | none =>
      cases σ.slot (.var x) with
      | none => rfl
      | some i => exact (slot_remove σ (.var x) (.var y)).trans (if_neg apart)

theorem uncatch_slot (σ : Emitter) (x y : String) (old : Option Nat) (other : y ≠ x) :
    (σ.uncatch x old).slot (.var y) = σ.slot (.var y) := by
  have apart : Local.var y ≠ Local.var x := fun same => other (Local.var.inj same)
  unfold Emitter.uncatch
  cases old with
  | some i => rw [slot_insert, if_neg apart]
  | none => rw [slot_remove, if_neg apart]

theorem unbind_back (σ : Emitter) (x : String) (i : Nat) :
    (σ.unbind x (some i)).slot (.var x) = some i := by
  unfold Emitter.unbind
  rw [slot_insert, if_pos rfl]

/-- A variable is back at the slot that it had, or nowhere. -/
theorem scopes_back {σ τ : Emitter} {x : String}
    (others : ∀ y, y ≠ x → ∀ i, σ.slot (.var y) = some i → τ.slot (.var y) = some i)
    (back : ∀ i, σ.slot (.var x) = some i → τ.slot (.var x) = some i) : Scopes σ τ := by
  intro y i found
  by_cases same : y = x
  · rw [same] at found ⊢
    exact back i found
  · exact others y same i found

theorem unbind_goes {σ σ' : Emitter} {x : String} (grows : Grows σ σ')
    (scopes : ∀ y, y ≠ x → ∀ i, σ.slot (.var y) = some i → σ'.slot (.var y) = some i) :
    Goes σ (σ'.unbind x (σ.slot (.var x))) := by
  refine ⟨unbind_grows grows fun i found => grows.slot_apart found, ?_⟩
  apply scopes_back
  · intro y other i found
    rw [unbind_slot σ' x y _ other]
    exact scopes y other i found
  · intro i found
    rw [found]
    exact unbind_back σ' x i

/-- The variable of a `catch` within its handler, and back. -/
theorem catchVar_grows (σ : Emitter) (x : String) : Grows σ (σ.catchVar x) := by
  unfold Emitter.catchVar
  cases found : σ.slot (.catch_ x) with
  | none => exact Grows.same
  | some i =>
      apply Grows.same.insert
      intro _ wf
      refine ⟨wf.lt _ _ found, ?_⟩
      intro part y there
      exact nomatch (wf.apart part y i there).2 _ found

theorem catchVar_slot (σ : Emitter) (x y : String) (other : y ≠ x) :
    (σ.catchVar x).slot (.var y) = σ.slot (.var y) := by
  unfold Emitter.catchVar
  cases σ.slot (.catch_ x) with
  | none => rfl
  | some i => rw [slot_insert, if_neg fun same => other (Local.var.inj same)]

theorem uncatch_goes {σ σ' : Emitter} {x : String} (grows : Grows σ σ')
    (scopes : ∀ y, y ≠ x → ∀ i, σ.slot (.var y) = some i → σ'.slot (.var y) = some i) :
    Goes σ (σ'.uncatch x (σ.slot (.var x))) := by
  refine ⟨uncatch_grows grows fun i found => grows.slot_apart found, ?_⟩
  apply scopes_back
  · intro y other i found
    rw [uncatch_slot σ' x y _ other]
    exact scopes y other i found
  · intro i found
    rw [found]
    exact unbind_back σ' x i

/-! ### Forms -/

/-- A binding from its initial value to the end of its scope. -/
theorem closing_goes {made inside : Emitter} {x : String}
    (inner : Goes ((made.bind x).memo x) inside) :
    Goes made ((inside.memo x).unbind x (made.slot (.var x))) := by
  apply unbind_goes
  · exact (bind_grows _ x).then_ <| (memo_grows _ x).then_ <| inner.1.then_ (memo_grows _ x)
  · intro y other i found
    rw [memo_var]
    apply inner.2
    rw [memo_var, bind_slot _ x y other]
    exact found

/-- A handler and what is around it. -/
theorem catching_goes {tried handled : Emitter} {x : String}
    (inner : Goes (tried.catchVar x) handled) :
    Goes tried (handled.uncatch x (tried.slot (.var x))) := by
  apply uncatch_goes ((catchVar_grows _ x).then_ inner.1)
  intro y other i found
  apply inner.2
  rw [catchVar_slot _ x y other]
  exact found

mutual

theorem after_goes (σ : Emitter) : (e : Expr) → Goes σ (after σ e)
  | .word _ | .sym _ => Goes.same
  | .op _ temps args => (Goes.temps σ temps).then_ (afterAll_goes _ args)
  | .u128 _ args => (Goes.gen σ _).then_ (afterOperands_goes _ args)
  | .if_ c t e => (after_goes σ c).then_ ((after_goes _ t).then_ (after_goes _ e))
  | .begin_ forms => afterAll_goes σ forms
  | .let_ names inits body =>
      afterLet_goes _ (fun σ => afterAll_goes σ body) σ names inits
  | .set x e => (Goes.localIdx σ rfl).then_ ((after_goes _ e).then_ (Goes.memo _ x))
  | .while_ c body => (after_goes σ c).then_ ((afterAll_goes _ body).then_ (Goes.memos _ _))
  | .for_ x first last body =>
      (Goes.localIdx σ rfl).then_ <| (Goes.memo _ x).then_ <| (after_goes _ first).then_ <|
        (after_goes _ last).then_ <| (afterAll_goes _ body).then_ (Goes.memos _ _)
  | .each _ x list body =>
      (Goes.temps σ _).then_ <| (Goes.localIdx _ rfl).then_ <| (after_goes _ list).then_ <|
        (Goes.memo _ x).then_ (after_goes _ body)
  | .reduce acc x init list body =>
      (Goes.temps σ _).then_ <| (Goes.localIdx _ rfl).then_ <| (Goes.localIdx _ rfl).then_ <|
        (after_goes _ init).then_ <| (after_goes _ list).then_ <| (Goes.memo _ x).then_ <|
          (Goes.memo _ acc).then_ (after_goes _ body)
  | .try_ body x handler => by
      have tried : Goes σ (after ((σ.temps tryTemps).localIdx (.catch_ x)) body) :=
        (Goes.temps σ _).then_ ((Goes.localIdx _ rfl).then_ (after_goes _ body))
      exact tried.then_ (catching_goes (afterAll_goes _ handler))

theorem afterAll_goes (σ : Emitter) : (es : List Expr) → Goes σ (afterAll σ es)
  | [] => Goes.same
  | e :: rest => (after_goes σ e).then_ (afterAll_goes _ rest)

theorem afterOperands_goes (σ : Emitter) : (es : List Expr) → Goes σ (afterOperands σ es)
  | [] => Goes.same
  | e :: rest => by
      have read : Goes σ (match cached σ e with
          | some x => σ.memo x
          | none => after σ e) := by
        cases cached σ e with
        | some x => exact Goes.memo σ x
        | none => exact after_goes σ e
      exact read.then_ ((Goes.gen _ _).then_ (afterOperands_goes _ rest))

theorem afterLet_goes (body : Emitter → Emitter) (goes : ∀ σ, Goes σ (body σ)) (σ : Emitter) :
    (names : List String) → (inits : List Expr) → Goes σ (afterLet body σ names inits)
  | _ :: names, init :: inits =>
      (after_goes σ init).then_ (closing_goes (afterLet_goes body goes _ names inits))
  | [], [] => goes σ
  | [], _ :: _ => goes σ
  | _ :: _, [] => goes σ

end

end LispRlm.WasmEmit.ParseCache
