import LispRlm.NearMock.Conservation
import LispRlm.NearMock.Draining

/-! When a failed transaction leaves the store as it found it.

The deposit is credited before the copy is taken, and each failing exit undoes something else: an
`Err` undoes nothing, a trap restores the copy without the deposit, and a failed receipt chain
restores the copy as it is and goes on draining. -/

namespace LispRlm.NearMock

open Foundation Eff

variable {chain : Chain} {fuel : Nat}

/-- The stores hold the same entries. -/
def SameStore (a b : Storage) : Prop := ∀ k, a.lookup k = b.lookup k

theorem SameStore.refl (a : Storage) : SameStore a a := fun _ => rfl

/-! ### No driver error escapes a guest -/

/-- Runs that stop early stop with a panic or without fuel. -/
def Uncaught (_ : Thread) (stop : Option Stop) (_ : Thread) : Prop := ∀ why, stop ≠ some (.err why)

theorem uncaught_calm : Calm Uncaught where
  composes := ⟨fun _ _ => by simp, fun _ second => second⟩
  host := by
    intro t stop t' run why
    rcases run.2 with none | panic
    · simp [none]
    · simp [panic]
  silent := fun _ _ => by simp
  minor := fun _ _ _ _ => by simp

theorem uncaught_modify (f : Thread → Thread) : Takes Uncaught (modify f : Run Unit) :=
  .of_modify fun _ _ => by simp

/-- What is attempted may fail: the failure is a value then. -/
theorem uncaught_attempt {α : Type} (m : Run α) : Takes Uncaught (attempt isErr m) := by
  intro t why
  unfold attempt
  cases m t with
  | ok a t' => simp [stopOf]
  | error stop t' => cases stop <;> simp [isErr, stopOf]

theorem uncaught_fireJoins (engine : Calls) (joins : List Nat) :
    Takes Uncaught (fireJoins engine joins) := by
  have hR := uncaught_calm
  induction joins with
  | nil => exact hR.takes_pure _
  | cons j rest ih =>
      have fire : Takes Uncaught (fireJoin engine j) :=
        hR.takes_bind (uncaught_modify _) fun _ =>
          hR.takes_bind (uncaught_attempt _) fun _ => hR.takes_pure _
      exact hR.takes_bind (hR.yieldJoinsTake j) fun _ => hR.takes_bind fire fun _ => ih

theorem uncaught_runCallback (engine : Calls) (account : AccountId) (method args : Bytes)
    (creator : AccountId) (result : Bytes) :
    Takes Uncaught (runCallback chain engine account method args creator result) := by
  have hR := uncaught_calm
  apply hR.takes_bind (hR.replaceResults _)
  intro saved
  exact hR.takes_bind (uncaught_attempt _) fun _ => hR.setResults saved

theorem uncaught_deliverJoins (engine : Calls) (idx : Nat) (payload : Bytes)
    (joins : List (Nat × JoinDetails)) :
    Takes Uncaught (deliverJoins chain engine idx payload joins) := by
  have hR := uncaught_calm
  induction joins with
  | nil => exact hR.takes_pure _
  | cons entry rest ih =>
      have each : Takes Uncaught (deliverJoin chain engine idx payload entry.1 entry.2) := by
        apply hR.takes_bind (uncaught_modify _)
        intro _
        apply hR.takes_bind (hR.takes_move _)
        intro _
        apply hR.takes_bind (hR.yieldJoinsTake _)
        intro _
        apply hR.takes_bind (hR.isExecuted _)
        intro fired
        apply Takes.ite
        · exact fun _ => uncaught_modify _
        · intro _
          exact hR.takes_bind (uncaught_modify _) fun _ => uncaught_runCallback _ _ _ _ _ _
      exact hR.takes_bind each fun _ => ih

theorem uncaught_yieldResume (engine : Calls) (dataId payload : Bytes) :
    Takes Uncaught (yieldResume chain engine dataId payload) := by
  have hR := uncaught_calm
  have pending : Takes Uncaught (pendingJoins chain) :=
    hR.takes_bind (uncaught_modify _) fun _ =>
      hR.takes_bind hR.takes_get fun _ => hR.takes_pure _
  have settle : ∀ idx, Takes Uncaught (settleJoins chain engine idx payload) := by
    intro idx
    apply hR.takes_bind (hR.joinsToFire _)
    intro joins
    apply hR.takes_bind (uncaught_modify _)
    intro _
    apply hR.takes_bind (uncaught_fireJoins engine joins)
    intro _
    exact hR.takes_bind pending fun _ =>
      hR.takes_bind (uncaught_modify _) fun _ => uncaught_deliverJoins _ _ _ _
  apply hR.takes_bind (hR.lookupYield dataId)
  intro found
  cases found with
  | none => exact hR.takes_pure _
  | some entry =>
      dsimp only
      cases callbackOf entry.2.1 with
      | none => exact hR.takes_pure _
      | some callback =>
          apply hR.takes_bind (uncaught_modify _)
          intro _
          apply hR.takes_bind (uncaught_runCallback _ _ _ _ _ _)
          intro _
          apply hR.takes_bind (hR.takes_move _)
          intro _
          exact hR.takes_bind (settle _) fun _ => hR.takes_pure _

theorem calls_uncaught (chain : Chain) (fuel : Nat) (dataId payload : Bytes) :
    Takes Uncaught ((calls chain fuel).yieldResume dataId payload) := by
  cases fuel with
  | zero => exact .of_throw fun _ _ => by simp
  | succ fuel => exact uncaught_yieldResume _ _ _

/-! ### What a failing exit undoes -/

theorem uncaught_drain (engine : Calls) (rounds failures : Nat) :
    Takes Uncaught (drain engine rounds failures) := by
  have hR := uncaught_calm
  have orphan : ∀ dag, Takes Uncaught (findOrphan dag) := by
    intro dag
    induction dag with
    | nil => exact hR.takes_pure _
    | cons entry rest ih =>
        have one : Takes Uncaught (isOrphan entry.2 entry.1) := by
          apply hR.takes_bind (hR.isExecuted _)
          intro executed
          apply Takes.ite
          · exact fun _ => hR.takes_pure _
          · exact fun _ => hR.takes_bind (hR.heldBack _ _) fun _ => hR.takes_pure _
        exact hR.takes_bind one fun _ => .ite (fun _ => hR.takes_pure _) fun _ => ih
  induction rounds generalizing failures with
  | zero => exact .of_throw fun _ _ => by simp
  | succ rounds ih =>
      apply hR.takes_bind hR.enumerateDag
      intro dag
      apply hR.takes_bind (orphan dag)
      intro found
      cases found with
      | none => exact hR.takes_pure _
      | some idx =>
          apply hR.takes_bind (uncaught_attempt _)
          intro ended
          cases ended with
          | ok _ => exact hR.takes_bind (hR.takes_move _) fun _ => ih _
          | error _ => exact ih _

/-- The returned promise fails with a driver error: the store goes back to the copy, and the drain
that follows ends in `settled`. -/
def RollsBack (engine : Calls) (rounds : Nat) (copy : Storage) (left settled : Thread) : Prop :=
  left.deferReceipts = false ∧
    ∃ idx why failed failures,
      left.pendingReturn = some idx ∧
        engine.executePromise idx { left with deferReceipts := false } =
          .error (.err why) failed ∧
        drain engine rounds 0
          { failed with storage := copy, journal := failed.journal ++ [.rolledBack copy] } =
            .ok failures settled

theorem drain_after {engine : Calls} {rounds : Nat} {resolution : Resolution} {t s : Thread}
    {out : Resolution × Nat}
    (ran : (do
      let orphanFailures ← drain engine rounds 0
      pure (resolution, orphanFailures) : Run (Resolution × Nat)) t = .ok out s) :
    out.1 = resolution ∧ drain engine rounds 0 t = .ok out.2 s := by
  rw [bind_run] at ran
  cases drained : drain engine rounds 0 t with
  | error stop s' => simp [drained] at ran
  | ok failures s' =>
      rw [drained] at ran
      cases ran
      exact ⟨rfl, rfl⟩

/-- A chain that failed with a driver error leaves no result at all; a failed final receipt is
itself one. -/
theorem resolveReturned_fails {engine : Calls} {copy : Storage} {idx : Nat} {t s : Thread}
    {resolution : Resolution}
    (ran : resolveReturned engine copy idx t = .ok resolution s) :
    resolution.ok = false ∧ resolution.receiptResults = [] ↔
      ∃ why failed, engine.executePromise idx t = .error (.err why) failed ∧
        s = { failed with storage := copy, journal := failed.journal ++ [.rolledBack copy] } := by
  rw [resolveReturned, bind_run, attempt] at ran
  cases resolved : engine.executePromise idx t with
  | error stop failed =>
      rw [resolved] at ran
      cases stop with
      | err why =>
          cases ran
          exact ⟨fun _ => ⟨why, failed, rfl, rfl⟩, fun _ => ⟨rfl, rfl⟩⟩
      | panic => cases ran
      | outOfFuel => cases ran
  | ok results t' =>
      rw [resolved] at ran
      have some_result : ∀ {rs : Results}, rs.getLast? = some none → rs ≠ [] := by
        rintro rs last rfl
        cases last
      by_cases last : results.getLast? = some none
      · simp only [lastTrap, last, if_true] at ran
        cases ran
        simpa using some_result last
      · simp only [lastTrap, last, if_false] at ran
        cases ran
        simp

theorem resolveReturned_err {engine : Calls} (copy : Storage) {idx : Nat} {why : Bytes}
    {t failed : Thread} (ran : engine.executePromise idx t = .error (.err why) failed) :
    resolveReturned engine copy idx t =
      .ok { ok := false, error := some (ascii "receipt chain failed: " ++ why) }
        { failed with storage := copy, journal := failed.journal ++ [.rolledBack copy] } := by
  rw [resolveReturned, bind_run, attempt, ran]
  rfl

theorem settleEntry_run (engine : Calls) (rounds : Nat) (copy : Storage) (left : Thread) :
    settleEntry engine rounds copy left =
      settleReceipts engine rounds copy left.pendingReturn
        (if left.pendingReturn = none then left.returnData else none) left.deferReceipts
        { left with deferReceipts := false } :=
  rfl

theorem settleReceipts_fails_iff (engine : Calls) (rounds : Nat) (copy : Storage) (idx : Nat)
    (data : Option Bytes) (t settled : Thread) :
    (∃ out, settleReceipts engine rounds copy (some idx) data false t = .ok out settled ∧
        out.1.ok = false ∧ out.1.receiptResults = []) ↔
      ∃ why failed failures, engine.executePromise idx t = .error (.err why) failed ∧
        drain engine rounds 0
          { failed with storage := copy, journal := failed.journal ++ [.rolledBack copy] } =
            .ok failures settled := by
  rw [settleReceipts, if_neg (by decide), bind_run, resolvePending]
  constructor
  · rintro ⟨out, ran, failed⟩
    cases resolved : resolveReturned engine copy idx t with
    | error stop t' =>
        rw [resolved] at ran
        cases ran
    | ok resolution t' =>
        rw [resolved] at ran
        obtain ⟨same, drained⟩ := drain_after ran
        rw [same] at failed
        obtain ⟨why, failed, threw, rfl⟩ := (resolveReturned_fails resolved).mp failed
        exact ⟨why, failed, out.2, threw, drained⟩
  · rintro ⟨why, failed, failures, threw, drained⟩
    rw [resolveReturned_err copy threw]
    dsimp only
    rw [bind_run, drained]
    exact ⟨_, rfl, rfl, rfl⟩

theorem settleEntry_fails_iff (engine : Calls) (rounds : Nat) (copy : Storage)
    (left settled : Thread) :
    (∃ out, settleEntry engine rounds copy left = .ok out settled ∧
        out.1.ok = false ∧ out.1.receiptResults = []) ↔
      RollsBack engine rounds copy left settled := by
  rw [settleEntry_run, RollsBack]
  cases left.deferReceipts with
  | true =>
      constructor
      · rintro ⟨out, ran, failed, -⟩
        cases ran
        cases failed
      · rintro ⟨off, -⟩
        cases off
  | false =>
      cases left.pendingReturn with
      | none =>
          constructor
          · rintro ⟨out, ran, failed, -⟩
            rw [settleReceipts, if_neg (by decide), bind_run] at ran
            have resolved := (drain_after ran).1
            rw [resolved] at failed
            cases failed
          · rintro ⟨-, idx, why, failed, failures, other, -⟩
            cases other
      | some idx =>
          rw [settleReceipts_fails_iff]
          constructor
          · rintro ⟨why, failed, failures, threw, drained⟩
            exact ⟨rfl, idx, why, failed, failures, rfl, threw, drained⟩
          · rintro ⟨-, idx', why, failed, failures, same, threw, drained⟩
            cases same
            exact ⟨why, failed, failures, threw, drained⟩

theorem uncaught_settleEntry (engine : Calls) (rounds : Nat) (copy : Storage) :
    Takes Uncaught (settleEntry engine rounds copy) := by
  have hR := uncaught_calm
  have resolved : ∀ idx, Takes Uncaught (resolveReturned engine copy idx) := by
    intro idx
    apply hR.takes_bind (uncaught_attempt _)
    intro ended
    cases ended with
    | error stop => exact hR.takes_bind (uncaught_modify _) fun _ => hR.takes_pure _
    | ok results =>
        have last : Takes Uncaught lastTrap :=
          hR.takes_bind hR.takes_get fun _ => hR.takes_pure _
        apply hR.takes_bind last
        intro why
        exact .ite (fun _ => hR.takes_pure _) fun _ => hR.takes_pure _
  have pending : ∀ data idx, Takes Uncaught (resolvePending engine copy data idx) := by
    intro data idx
    cases idx with
    | none => exact hR.takes_pure _
    | some idx => exact resolved idx
  have settled : ∀ idx data deferred,
      Takes Uncaught (settleReceipts engine rounds copy idx data deferred) := by
    intro idx data deferred
    apply Takes.ite
    · exact fun _ => hR.takes_bind (uncaught_modify _) fun _ => hR.takes_pure _
    · exact fun _ => hR.takes_bind (pending _ _) fun _ =>
        hR.takes_bind (uncaught_drain _ _ _) fun _ => hR.takes_pure _
  exact fun left => settled _ _ _ { left with deferReceipts := false }

/-! ### Transactions without a trace -/

/-- The entry trapped, the receipt chain failed with a driver error, or the call returns `Err`. -/
def ReportsFailure : EStateM.Result Stop Thread TxOutcome → Prop
  | .ok outcome _ =>
      outcome.entryTrapped = true ∨ outcome.ok = false ∧ outcome.receiptResults = []
  | .error (.err _) _ => True
  | .error _ _ => False

/-- If the transaction is reported as failed, the store is the one `before` it. -/
def Traceless (before : Storage) (result : EStateM.Result Stop Thread TxOutcome) : Prop :=
  ReportsFailure result → SameStore (endState result).storage before

/-- What a trap makes of the callee's entry in the copy. -/
def refunded (attach : Amount) : Option Bytes → Option Bytes
  | none => none
  | some v =>
      if attach.val = 0 then some v
      else if 0 < (parseU128 (trim v)).getD 0 - attach.val then
        some (decimal ((parseU128 (trim v)).getD 0 - attach.val))
      else none

/-- The copy has the entries of `before`, and the callee's balance with the deposit in it. -/
def HoldsDeposit (tx : Tx) (before copy : Storage) : Prop :=
  (∀ k, k ≠ balKey tx.contract → copy.lookup k = before.lookup k) ∧
    refunded tx.attach (copy.lookup (balKey tx.contract)) = before.lookup (balKey tx.contract)

theorem lookup_refundAttach (contract : AccountId) (attach : Amount) (copy : Storage) (k : Bytes) :
    (refundAttach contract attach copy).lookup k =
      if k = balKey contract then refunded attach (copy.lookup k) else copy.lookup k := by
  unfold refundAttach
  by_cases none : attach.val = 0
  · rw [if_pos none]
    cases copy.lookup k <;> simp [refunded, none]
  rw [if_neg none]
  cases held : copy.lookup (balKey contract) with
  | none =>
      by_cases same : k = balKey contract
      · subst same
        simp [held, refunded]
      · simp [same]
  | some v =>
      dsimp only
      by_cases same : k = balKey contract
      · subst same
        rw [if_pos rfl, held]
        by_cases left : 0 < (parseU128 (trim v)).getD 0 - attach.val
        · simp [refunded, none, left]
        · simp [refunded, none, left]
      · rw [if_neg same]
        split
        · rw [AList.lookup_insert_ne same]
        · rw [AList.lookup_erase_ne same]

theorem refundAttach_same_iff (tx : Tx) (before copy : Storage) :
    SameStore (refundAttach tx.contract tx.attach copy) before ↔ HoldsDeposit tx before copy := by
  constructor
  · intro same
    constructor
    · intro k other
      have here := same k
      rwa [lookup_refundAttach, if_neg other] at here
    · have here := same (balKey tx.contract)
      rwa [lookup_refundAttach, if_pos rfl] at here
  · rintro ⟨others, balance⟩ k
    rw [lookup_refundAttach]
    by_cases callee : k = balKey tx.contract
    · subst callee
      rw [if_pos rfl, balance]
    · rw [if_neg callee, others k callee]

theorem Uncaught.traceless {before : Storage} {t t' : Thread} {stop : Stop}
    (uncaught : Uncaught t (some stop) t') :
    Traceless before (.error stop t' : EStateM.Result Stop Thread TxOutcome) := by
  cases stop with
  | err why => exact absurd rfl (uncaught why)
  | panic => exact fun reported => reported.elim
  | outOfFuel => exact fun reported => reported.elim

theorem runEntry_traceless_iff (chain : Chain) (fuel : Nat) (tx : Tx) (body : Guest)
    (before : Storage) (found : Thread) :
    Traceless before (runEntry chain fuel tx body found) ↔
      (∀ why halt left, runGuest chain (calls chain fuel).yieldResume body found =
          .ok (.trapped why halt) left → HoldsDeposit tx before found.storage) ∧
        ∀ halt left settled, runGuest chain (calls chain fuel).yieldResume body found =
            .ok (.returned halt) left →
          RollsBack (calls chain fuel) fuel found.storage left settled →
            SameStore settled.storage before := by
  have guest : Takes Uncaught (runGuest chain (calls chain fuel).yieldResume body) :=
    uncaught_calm.runGuest (calls_uncaught chain fuel) body
  have stopped := guest found
  have copied : storeCopy found = .ok found.storage found := rfl
  rw [runEntry, bind_run, copied]
  dsimp only
  rw [bind_run]
  cases ran : runGuest chain (calls chain fuel).yieldResume body found with
  | error stop left =>
      rw [ran] at stopped
      exact ⟨fun _ => ⟨fun _ _ _ other => (by cases other), fun _ _ _ other => (by cases other)⟩,
        fun _ => stopped.traceless⟩
  | ok exit left =>
      cases exit with
      | trapped why halt =>
          rw [← refundAttach_same_iff]
          constructor
          · intro traceless
            exact ⟨fun _ _ _ _ => traceless (.inl rfl), fun _ _ _ other => (by cases other)⟩
          · rintro ⟨trapped, -⟩ -
            exact trapped why halt left rfl
      | returned halt =>
          dsimp only
          rw [bind_run]
          have settles := settleEntry_fails_iff (calls chain fuel) fuel found.storage left
          have uncaught := uncaught_settleEntry (calls chain fuel) fuel found.storage left
          cases settled : settleEntry (calls chain fuel) fuel found.storage left with
          | error stop t =>
              rw [settled] at uncaught
              refine ⟨fun _ => ⟨fun _ _ _ other => (by cases other), ?_⟩,
                fun _ => uncaught.traceless⟩
              intro halt' left' t' same rolled
              cases same
              obtain ⟨out, other, -⟩ := (settles t').mpr rolled
              rw [settled] at other
              cases other
          | ok out t =>
              rw [settled] at settles
              constructor
              · intro traceless
                refine ⟨fun _ _ _ other => (by cases other), ?_⟩
                intro halt' left' t' same rolled
                cases same
                obtain ⟨out', ended, failed⟩ := (settles t').mpr rolled
                cases ended
                exact traceless (.inr failed)
              · rintro ⟨-, returned⟩ reported
                rcases reported with trapped | failed
                · cases trapped
                · exact returned halt left t rfl ((settles t).mp ⟨out, rfl, failed⟩)

/-- The part of a transaction before its method is looked up. -/
def startTx (chain : Chain) (fuel : Nat) (tx : Tx) (module : Module) : Run Halt := do
  creditAttach tx.contract tx.attach
  startInstance chain (calls chain fuel).yieldResume module

/-- Each failing exit undoes what the transaction wrote before it. -/
structure Undone (chain : Chain) (fuel : Nat) (tx : Tx) (t : Thread) (module : Module) : Prop where
  /-- Nothing takes the deposit back. -/
  notInstantiated : module.instantiable = false → tx.attach.val = 0
  /-- Nor what the start function wrote. -/
  unknownMethod : ∀ halt found, module.instantiable = true →
    startTx chain fuel tx module (openTx tx t) = .ok halt found →
      module.method tx.method = none → SameStore found.storage t.storage
  /-- The copy is the first store again, once the deposit is taken from it. -/
  trapped : ∀ halt found body why halt' left, module.instantiable = true →
    startTx chain fuel tx module (openTx tx t) = .ok halt found →
      module.method tx.method = some body →
        runGuest chain (calls chain fuel).yieldResume (body halt) found =
          .ok (.trapped why halt') left → HoldsDeposit tx t.storage found.storage
  /-- The receipts that are drained from the copy lead back to the first store. -/
  rolledBack : ∀ halt found body halt' left settled, module.instantiable = true →
    startTx chain fuel tx module (openTx tx t) = .ok halt found →
      module.method tx.method = some body →
        runGuest chain (calls chain fuel).yieldResume (body halt) found =
          .ok (.returned halt') left →
            RollsBack (calls chain fuel) fuel found.storage left settled →
              SameStore settled.storage t.storage

/-- The store a deposit is credited in. -/
def credited (contract : AccountId) (attach : Amount) (st : Storage) : Storage :=
  if 0 < attach.val then ValueStep.credit st (balKey contract) attach.val else st

theorem creditAttach_run (contract : AccountId) (attach : Amount) (t : Thread) :
    ∃ t', creditAttach contract attach t = .ok ⟨⟩ t' ∧
      t'.storage = credited contract attach t.storage := by
  have opened : creditAttach contract attach t =
      moveIf (0 < attach.val) (.put (balKey contract)
        (some (decimal (addU128 (balanceAt t.storage (balKey contract)) attach.val)))) t := rfl
  by_cases positive : 0 < attach.val
  · rw [moveIf, if_pos positive] at opened
    refine ⟨_, opened, ?_⟩
    rw [credited, if_pos positive]
    rfl
  · rw [moveIf, if_neg positive] at opened
    refine ⟨t, opened, ?_⟩
    rw [credited, if_neg positive]

/-- A credit is never invisible: no balance is the sum it is replaced by. -/
theorem credited_same_iff (st : Storage) (contract : AccountId) (attach : Amount) :
    SameStore (credited contract attach st) st ↔ attach.val = 0 := by
  constructor
  · intro same
    by_contra positive
    have written := congrArg (fun v => (Option.bind v parseU128).getD 0) (same (balKey contract))
    rw [credited, if_pos (by omega)] at written
    have sum : addU128 (balanceAt st (balKey contract)) attach.val =
        balanceAt st (balKey contract) := by
      rw [← ValueStep.balanceAt_credit st (balKey contract) attach.val]
      exact written
    have small := balanceAt_lt st (balKey contract)
    have fits := attach.isLt
    by_cases h : balanceAt st (balKey contract) + attach.val < u128
    · rw [addU128_of_fits h] at sum
      omega
    · have wraps := addU128_of_wraps small fits (by omega)
      omega
  · intro none
    rw [credited, if_neg (by omega)]
    exact .refl st

theorem undone_notInstantiated {tx : Tx} {t : Thread} {module : Module}
    (stuck : module.instantiable = false) :
    Undone chain fuel tx t module ↔ tx.attach.val = 0 := by
  constructor
  · exact fun undone => undone.notInstantiated stuck
  · intro none
    constructor
    · exact fun _ => none
    · intro halt found instantiable
      rw [stuck] at instantiable
      cases instantiable
    · intro halt found body why halt' left instantiable
      rw [stuck] at instantiable
      cases instantiable
    · intro halt found body halt' left settled instantiable
      rw [stuck] at instantiable
      cases instantiable

theorem undone_stopped {tx : Tx} {t stopped : Thread} {module : Module} {stop : Stop}
    (instantiable : module.instantiable = true)
    (started : startTx chain fuel tx module (openTx tx t) = .error stop stopped) :
    Undone chain fuel tx t module := by
  constructor
  · intro stuck
    rw [instantiable] at stuck
    cases stuck
  · intro halt found _ other
    rw [started] at other
    cases other
  · intro halt found body why halt' left _ other
    rw [started] at other
    cases other
  · intro halt found body halt' left settled _ other
    rw [started] at other
    cases other

theorem undone_unknownMethod {tx : Tx} {t found : Thread} {module : Module} {halt : Halt}
    (instantiable : module.instantiable = true)
    (started : startTx chain fuel tx module (openTx tx t) = .ok halt found)
    (unknown : module.method tx.method = none) :
    Undone chain fuel tx t module ↔ SameStore found.storage t.storage := by
  constructor
  · exact fun undone => undone.unknownMethod halt found instantiable started unknown
  · intro same
    constructor
    · intro stuck
      rw [instantiable] at stuck
      cases stuck
    · intro halt' found' _ started' _
      rw [started] at started'
      cases started'
      exact same
    · intro halt' found' body why halt'' left _ _ known
      rw [unknown] at known
      cases known
    · intro halt' found' body halt'' left settled _ _ known
      rw [unknown] at known
      cases known

theorem undone_entered {tx : Tx} {t found : Thread} {module : Module} {halt : Halt}
    {body : Halt → Guest} (instantiable : module.instantiable = true)
    (started : startTx chain fuel tx module (openTx tx t) = .ok halt found)
    (known : module.method tx.method = some body) :
    Undone chain fuel tx t module ↔
      Traceless t.storage (runEntry chain fuel tx (body halt) found) := by
  rw [runEntry_traceless_iff]
  constructor
  · intro undone
    constructor
    · intro why halt' left ran
      exact undone.trapped halt found body why halt' left instantiable started known ran
    · intro halt' left settled ran
      exact undone.rolledBack halt found body halt' left settled instantiable started known ran
  · rintro ⟨trapped, rolledBack⟩
    constructor
    · intro stuck
      rw [instantiable] at stuck
      cases stuck
    · intro halt' found' _ _ unknown
      rw [known] at unknown
      cases unknown
    · intro halt' found' body' why halt'' left _ started' known' ran
      rw [started] at started'
      rw [known] at known'
      cases started'
      cases known'
      exact trapped why halt'' left ran
    · intro halt' found' body' halt'' left settled _ started' known' ran
      rw [started] at started'
      rw [known] at known'
      cases started'
      cases known'
      exact rolledBack halt'' left settled ran

/-- A contract that is known and can be instantiated runs its start function first. -/
theorem enterContract_run (chain : Chain) (fuel : Nat) (tx : Tx) {module : Module}
    (instantiable : module.instantiable = true) (t : Thread) :
    enterContract chain fuel tx module t =
      (startTx chain fuel tx module >>= fun halt =>
        match module.method tx.method with
        | none => throw (.err (ascii "Method '" ++ tx.method ++ ascii "' not found"))
        | some body => runEntry chain fuel tx (body halt)) t := by
  rw [enterContract, startTx, bind_assoc, instantiable]
  rfl

theorem enterContract_traceless_iff {tx : Tx} {t : Thread} {module : Module} :
    Traceless t.storage (enterContract chain fuel tx module (openTx tx t)) ↔
      Undone chain fuel tx t module := by
  obtain ⟨t₁, credit, storage⟩ := creditAttach_run tx.contract tx.attach (openTx tx t)
  cases instantiable : module.instantiable with
  | false =>
      have stuck : enterContract chain fuel tx module (openTx tx t) =
          .error (.err (ascii "unknown import"))
            { t₁ with journal := t₁.journal ++ [.engineFailed] } := by
        rw [enterContract, bind_run, credit, instantiable]
        rfl
      rw [undone_notInstantiated instantiable, stuck, ← credited_same_iff t.storage tx.contract]
      change True → SameStore t₁.storage t.storage ↔ _
      rw [storage, true_imp_iff]
      rfl
  | true =>
      rw [enterContract_run chain fuel tx instantiable, bind_run]
      cases started : startTx chain fuel tx module (openTx tx t) with
      | error stop stopped =>
          have hR := uncaught_calm
          have start : Takes Uncaught (startTx chain fuel tx module) :=
            hR.takes_bind (hR.takes_bind hR.takes_get fun _ => hR.takes_moveIf _) fun _ =>
              hR.startInstance (calls_uncaught chain fuel) module
          have uncaught := start (openTx tx t)
          rw [started] at uncaught
          have undone := undone_stopped instantiable started
          exact ⟨fun _ => undone, fun _ => uncaught.traceless⟩
      | ok halt found =>
          dsimp only
          cases method : module.method tx.method with
          | none =>
              rw [undone_unknownMethod instantiable started method]
              exact ⟨fun traceless => traceless trivial, fun same _ => same⟩
          | some body => rw [undone_entered instantiable started method]

/-- `alice` calls a method that `bob` does not have, with a deposit of 5. -/
def unknownMethodTx : Tx where
  contract := ascii "bob"
  method := ascii "nope"
  args := []
  signer := ascii "alice"
  attach := ⟨5, by decide⟩

end LispRlm.NearMock
