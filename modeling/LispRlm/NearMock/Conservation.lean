import LispRlm.Foundation.StepLog
import LispRlm.NearMock.Frame

/-! Conservation of value while a promise DAG is executed.

The journal of a run replays every change of the store, so the run conserves value exactly when
each journalled step does. -/

namespace LispRlm.NearMock

open Foundation Eff

def Event.move? : Event → Option (ValueStep × Storage)
  | .moved step before => some (step, before)
  | _ => none

/-- The value steps of a journal, each with the store it started from. -/
def moves (journal : List Event) : List (ValueStep × Storage) := journal.filterMap Event.move?

/-- The steps journalled between `t` and `t'` are what changed the store. -/
def Logged (t t' : Thread) : Prop :=
  ∃ log, moves t'.journal = moves t.journal ++ log ∧
    Replays ValueStep.apply t.storage log t'.storage

namespace Logged

theorem refl (t : Thread) : Logged t t := ⟨[], by simp, Replays.refl _⟩

theorem trans {a b c : Thread} (first : Logged a b) (second : Logged b c) : Logged a c := by
  obtain ⟨log₁, journal₁, replays₁⟩ := first
  obtain ⟨log₂, journal₂, replays₂⟩ := second
  exact ⟨log₁ ++ log₂, by rw [journal₂, journal₁, List.append_assoc], replays₁.append replays₂⟩

theorem of_same {t t' : Thread} (storage : t'.storage = t.storage)
    (journal : moves t'.journal = moves t.journal) : Logged t t' :=
  ⟨[], by rw [journal, List.append_nil], storage⟩

theorem of_note (t : Thread) {e : Event} (h : e.move? = none) :
    Logged t { t with journal := t.journal ++ [e] } :=
  .of_same rfl (by simp [moves, h])

theorem of_hostStep {t t' : Thread} (h : HostStep t t') : Logged t t' := by
  cases h with
  | scratch => exact .of_same rfl rfl
  | read cell => exact of_note t rfl
  | wrote cell => exact of_note t rfl
  | moved step => exact ⟨[(step, t.storage)], by simp [moves, Event.move?], Replays.single step _⟩
  | pushed batch => exact .of_same rfl (by simp [moves, Event.move?])
  | extended idx action => exact .of_same rfl rfl

theorem of_hostSteps {t t' : Thread} (h : HostSteps t t') : Logged t t' := by
  induction h with
  | refl => exact refl t
  | tail _ step ih => exact ih.trans (of_hostStep step)

end Logged

/-- However a run stops. -/
def Logs (t : Thread) (_ : Option Stop) (t' : Thread) : Prop := Logged t t'

theorem logs_composes : Composes Logs := ⟨Logged.refl, fun first second => first.trans second⟩

theorem logs_framed : Framed Logs where
  composes := logs_composes
  host := fun run => .of_hostSteps run.1
  silent := fun {t t'} same => .of_same same.fields.1 (by rw [same.fields.2.1])
  minor := fun t e minor => .of_note t (by cases e <;> first | rfl | cases minor)
  failed := fun t _ => .of_note t rfl
  caught := id

theorem logs_lenient : Lenient Logs where
  toFramed := logs_framed
  noted := fun t e quiet => .of_note t (by cases e <;> first | rfl | cases quiet)
  marked := fun _ _ => .of_same rfl rfl
  memoized := fun _ _ _ => .of_same rfl (by simp [moves, Event.move?])
  stopped := fun t _ => Logged.refl t
  left := fun {t stop t' t''} step same =>
    step.trans (.of_same same.fields.1 (by rw [same.fields.2.1]))

theorem calls_log (chain : Chain) (fuel : Nat) : (calls chain fuel).Takes Logs :=
  logs_lenient.calls chain fuel

/-- The value steps one run of `execute_promise` takes, each with the store it starts from. -/
def valueSteps (chain : Chain) (fuel idx : Nat) (t : Thread) : List (ValueStep × Storage) :=
  moves (endState ((calls chain fuel).executePromise idx { t with journal := [] })).journal

/-- The store after that run. -/
def finalStorage (chain : Chain) (fuel idx : Nat) (t : Thread) : Storage :=
  (endState ((calls chain fuel).executePromise idx { t with journal := [] })).storage

/-- The stores the run goes through. -/
def reachedStorages (chain : Chain) (fuel idx : Nat) (t : Thread) : List Storage :=
  visited (valueSteps chain fuel idx t) (finalStorage chain fuel idx t)

theorem executePromise_replays (chain : Chain) (fuel idx : Nat) (t : Thread) :
    Replays ValueStep.apply t.storage (valueSteps chain fuel idx t)
      (finalStorage chain fuel idx t) := by
  obtain ⟨log, journal, replays⟩ :=
    (calls_log chain fuel).executePromise idx { t with journal := [] }
  have start : moves ({ t with journal := [] } : Thread).journal = [] := rfl
  rw [start, List.nil_append] at journal
  rw [valueSteps, journal]
  exact replays

/-- Executing the batch leaves the total what it is in every state it goes through, and every step
is exact. -/
def ConservesValue (chain : Chain) (fuel idx : Nat) (t : Thread) : Prop :=
  (∀ st ∈ reachedStorages chain fuel idx t, totalValue st = totalValue t.storage) ∧
    ∀ entry ∈ valueSteps chain fuel idx t, entry.1.Exact entry.2

theorem executePromise_conservesValue_iff (chain : Chain) (fuel idx : Nat) (t : Thread) :
    ConservesValue chain fuel idx t ↔
      ∀ entry ∈ valueSteps chain fuel idx t, entry.1.Conserving entry.2 := by
  have constant := (executePromise_replays chain fuel idx t).constant_iff totalValue
  constructor
  · rintro ⟨same, exact⟩ entry member
    exact (ValueStep.exact_iff _ _).mp ⟨constant.mp same entry member, exact entry member⟩
  · intro conserving
    have each := fun entry member => (ValueStep.exact_iff _ _).mpr (conserving entry member)
    exact ⟨constant.mpr fun entry member => (each entry member).1,
      fun entry member => (each entry member).2⟩

/-! ### A call that traps keeps its deposit -/

/-- A chain whose only contract, `bob`, exports `pay`, which traps. -/
def trappingChain : Chain where
  modules := fun account =>
    if account = ascii "bob" then
      some
        { instantiable := true
          start := none
          method := fun method =>
            if method = ascii "pay" then
              some fun halt => .trap (ascii "PANIC: no") halt
            else none }
    else none
  clock := 0
  staking := false
  trieWalkNodes := 16
  prepaid := 200000000000000
  sha256 := fun _ => []
  encodeJoin := fun _ => []
  decodeJoin := fun _ => none
  outputText := fun _ => none

/-- `alice` holds 100 and has sent `bob` a call with a deposit of 40. -/
def depositThread : Thread where
  storage := setBalance ∅ (balKey (ascii "alice")) 100
  dag :=
    [{ deps := [], account := ascii "bob", creator := ascii "alice",
       actions := [.fnCall (ascii "pay") [] 0 ⟨40, by decide⟩], isYield := false }]

/-- Before the call all accounts hold 100 together, after it 140. -/
theorem trappedDeposit_mints : ¬ ConservesValue trappingChain 1 0 depositThread := by
  intro conserves
  have same := conserves.1 (finalStorage trappingChain 1 0 depositThread)
    (by simp [reachedStorages, visited])
  have before : totalValue depositThread.storage = 100 := by decide
  have after : totalValue (finalStorage trappingChain 1 0 depositThread) = 140 := by decide +kernel
  omega

end LispRlm.NearMock
