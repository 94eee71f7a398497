import LispRlm.NearMock.Receipts
import LispRlm.NearMock.ExecuteTx

/-! The drain loop visits every batch that is left over and does not wait for a yield.

Each round marks another batch as executed, so the rounds are no more than the batches. -/

namespace LispRlm.NearMock

open Foundation Eff

variable {chain : Chain} {fuel : Nat}

/-! ### Waiting joins -/

/-- The batch is a join, and one of its dependencies owns a yield. -/
def waits (t : Thread) (idx : Nat) (deps : List Nat) : Bool :=
  (decide (idx ∈ t.yieldJoins) || (t.storage.lookup (yieldJoinKey idx)).isSome) &&
    deps.any fun d => t.yieldOwner.entries.any fun e => e.2 = d

/-- What looking at a batch leaves as it is. -/
structure Looked (t t' : Thread) : Prop where
  dag : t'.dag = t.dag
  executed : t'.executed = t.executed
  waits : ∀ idx deps, NearMock.waits t' idx deps = NearMock.waits t idx deps

theorem Looked.refl (t : Thread) : Looked t t := ⟨rfl, rfl, fun _ _ => rfl⟩

theorem Looked.trans {a b c : Thread} (first : Looked a b) (second : Looked b c) : Looked a c where
  dag := second.dag.trans first.dag
  executed := second.executed.trans first.executed
  waits := fun idx deps => (second.waits idx deps).trans (first.waits idx deps)

/-- A mark is cached where the store has the marker. -/
theorem looked_cacheMark {t : Thread} {idx : Nat}
    (stored : (t.storage.lookup (yieldJoinKey idx)).isSome) :
    Looked t { t with yieldJoins := t.yieldJoins.insert idx } := by
  refine ⟨rfl, rfl, fun j deps => ?_⟩
  unfold waits
  by_cases same : j = idx
  · subst same
    simp [stored]
  · simp [List.mem_insert_iff, same]

theorem isMarked_run (idx : Nat) (t : Thread) :
    isMarked idx t =
      .ok (decide (idx ∈ t.yieldJoins)) { t with journal := t.journal ++ [.read (.mark idx)] } :=
  rfl

theorem storedMarker_run (key : Bytes) (t : Thread) :
    storedMarker key t =
      .ok (t.storage.lookup key) { t with journal := t.journal ++ [.read (.entry key)] } :=
  rfl

theorem depsOwnOpenYield_run (deps : List Nat) (t : Thread) :
    depsOwnOpenYield deps t =
      .ok (deps.any fun d => t.yieldOwner.entries.any fun e => e.2 = d)
        { t with journal := t.journal ++ [.readYieldsOf deps] } :=
  rfl

theorem isYieldJoin_looks (idx : Nat) (t : Thread) :
    ∃ t', isYieldJoin idx t =
        .ok (decide (idx ∈ t.yieldJoins) || (t.storage.lookup (yieldJoinKey idx)).isSome) t' ∧
      Looked t t' ∧ t'.yieldOwner = t.yieldOwner := by
  unfold isYieldJoin
  rw [bind_run, isMarked_run]
  dsimp only
  by_cases marked : idx ∈ t.yieldJoins
  · rw [if_pos (decide_eq_true marked), pure_run, decide_eq_true marked]
    exact ⟨_, rfl, ⟨rfl, rfl, fun _ _ => rfl⟩, rfl⟩
  · rw [if_neg (by simpa using marked), bind_run, storedMarker_run, decide_eq_false marked]
    dsimp only
    cases stored : t.storage.lookup (yieldJoinKey idx) with
    | none => exact ⟨_, rfl, ⟨rfl, rfl, fun _ _ => rfl⟩, rfl⟩
    | some value =>
        have cached : Looked t { t with yieldJoins := t.yieldJoins.insert idx } :=
          looked_cacheMark (by rw [stored]; rfl)
        exact ⟨_, rfl, ⟨rfl, rfl, cached.waits⟩, rfl⟩

theorem heldBack_looks (idx : Nat) (deps : List Nat) (t : Thread) :
    ∃ t', heldBack idx deps t = .ok (waits t idx deps) t' ∧ Looked t t' := by
  obtain ⟨t₁, joined, looked, owners⟩ := isYieldJoin_looks idx t
  unfold heldBack waits
  rw [bind_run, joined]
  dsimp only
  cases join : decide (idx ∈ t.yieldJoins) || (t.storage.lookup (yieldJoinKey idx)).isSome with
  | false => exact ⟨t₁, rfl, looked⟩
  | true =>
      refine ⟨{ t₁ with journal := t₁.journal ++ [.readYieldsOf deps] }, ?_, looked.dag,
        looked.executed, looked.waits⟩
      rw [if_pos rfl, depsOwnOpenYield_run, owners, Bool.true_and]

/-- What a search through `dag` has found. -/
def Sought (t : Thread) (dag : List (PromiseBatch × Nat)) : Option Nat → Prop
  | none => ∀ entry ∈ dag, entry.2 ∈ t.executed ∨ waits t entry.2 entry.1.deps = true
  | some idx => ∃ batch, (batch, idx) ∈ dag ∧ idx ∉ t.executed ∧ waits t idx batch.deps = false

theorem isOrphan_looks (idx : Nat) (batch : PromiseBatch) (t : Thread) :
    ∃ t', isOrphan idx batch t =
        .ok (decide (idx ∉ t.executed) && !waits t idx batch.deps) t' ∧ Looked t t' := by
  unfold isOrphan isExecuted
  rw [bind_run, get_bind_run, pure_run]
  dsimp only
  by_cases executed : idx ∈ t.executed
  · exact ⟨t, by simp [executed], .refl t⟩
  · obtain ⟨t₁, held, looked⟩ := heldBack_looks idx batch.deps t
    rw [if_neg (by simpa using executed), bind_run, held, decide_eq_true executed]
    exact ⟨t₁, rfl, looked⟩

theorem findOrphan_looks (dag : List (PromiseBatch × Nat)) (t : Thread) :
    ∃ found t', findOrphan dag t = .ok found t' ∧ Looked t t' ∧ Sought t dag found := by
  induction dag generalizing t with
  | nil => exact ⟨none, t, rfl, .refl t, by simp [Sought]⟩
  | cons entry rest ih =>
      rcases entry with ⟨batch, idx⟩
      obtain ⟨t₁, orphan, looked⟩ := isOrphan_looks idx batch t
      rw [findOrphan, bind_run, orphan]
      dsimp only
      cases here : decide (idx ∉ t.executed) && !waits t idx batch.deps with
      | true =>
          simp only [Bool.and_eq_true, decide_eq_true_eq, Bool.not_eq_true'] at here
          exact ⟨some idx, t₁, by simp, looked, batch, List.mem_cons_self .., here⟩
      | false =>
          obtain ⟨found, t₂, ran, looked₂, sought⟩ := ih t₁
          refine ⟨found, t₂, by simpa using ran, looked.trans looked₂, ?_⟩
          cases found with
          | some other =>
              obtain ⟨batch', member, fresh, ready⟩ := sought
              rw [looked.executed] at fresh
              rw [looked.waits] at ready
              exact ⟨batch', List.mem_cons_of_mem _ member, fresh, ready⟩
          | none =>
              intro other member
              rcases List.mem_cons.mp member with rfl | later
              · by_cases executed : idx ∈ t.executed
                · exact .inl executed
                · exact .inr (by simpa [executed] using here)
              · have known := sought other later
                rwa [looked.executed, looked.waits] at known

end LispRlm.NearMock
