import LispRlm.NearMock.Hosts
import Mathlib.Logic.Relation

/-! What the hosts can do to the thread, said once.

Every invariant of the engine looks at host calls through `HostStep` only. -/

namespace LispRlm.NearMock

open Foundation Relation Eff

inductive HostStep : Thread → Thread → Prop
  /-- State that only this call's guest looks at, handles, and marks on batches. -/
  | scratch (t : Thread) (registers : FMap Nat Bytes) (returnData : Option Bytes)
      (touched : List Bytes) (consumed : List Nat) (pendingReturn : Option Nat)
      (logLines : List Bytes) (yieldJoins : List Nat) (yieldOwner : FMap Nat Nat) :
      HostStep t
        { t with registers, returnData, touched, consumed, pendingReturn, logLines, yieldJoins,
                 yieldOwner }
  | read (t : Thread) (cell : Cell) : HostStep t { t with journal := t.journal ++ [.read cell] }
  | wrote (t : Thread) (cell : Cell) : HostStep t { t with journal := t.journal ++ [.wrote cell] }
  | moved (t : Thread) (step : ValueStep) :
      HostStep t
        { t with storage := step.apply t.storage, journal := t.journal ++ [.moved step t.storage] }
  | pushed (t : Thread) (batch : PromiseBatch) :
      HostStep t
        { t with
          dag := t.dag ++ [batch]
          journal := t.journal ++ [.pushed t.dag.length batch.deps batch.isYield] }
  | extended (t : Thread) (idx : Nat) (action : PAction) :
      HostStep t { t with dag := pushAction idx action t.dag }

/-- Any number of host steps. -/
abbrev HostSteps : Thread → Thread → Prop := ReflTransGen HostStep

/-- A host takes host steps, and stops early only where it panics. -/
def HostRun (t : Thread) (stop : Option Stop) (t' : Thread) : Prop :=
  HostSteps t t' ∧ (stop = none ∨ stop = some .panic)

namespace HostRun

variable {α β : Type} {chain : Chain}

theorem composes : Composes HostRun :=
  ⟨fun _ => ⟨.refl, .inl rfl⟩, fun first second => ⟨first.1.trans second.1, second.2⟩⟩

theorem takes_pure (a : α) : Takes HostRun (pure a : Run α) := .of_pure composes a

theorem takes_get : Takes HostRun (get : Run Thread) := .of_get composes

theorem takes_panic : Takes HostRun (throw .panic : Run α) :=
  .of_throw fun _ => ⟨.refl, .inr rfl⟩

theorem takes_bind {m : Run α} {k : α → Run β} (hm : Takes HostRun m)
    (hk : ∀ a, Takes HostRun (k a)) : Takes HostRun (m >>= k) :=
  .bind composes hm hk

theorem takes_step {f : Thread → Thread} (h : ∀ t, HostStep t (f t)) :
    Takes HostRun (modify f : Run Unit) :=
  .of_modify fun t => ⟨.single (h t), .inl rfl⟩

theorem takes_scratch {f : Thread → Thread}
    (h : ∀ t, ∃ r d u c p l j o, f t = { t with
      registers := r, returnData := d, touched := u, consumed := c, pendingReturn := p,
      logLines := l, yieldJoins := j, yieldOwner := o }) :
    Takes HostRun (modify f : Run Unit) := by
  refine takes_step fun t => ?_
  obtain ⟨r, d, u, c, p, l, j, o, same⟩ := h t
  rw [same]
  exact .scratch t r d u c p l j o

/-- A scratch update that is journalled as a write. -/
theorem takes_written {f : Thread → Thread} {cell : Cell}
    (h : ∀ t, ∃ r d u c p l j o, f t = { t with
      registers := r, returnData := d, touched := u, consumed := c, pendingReturn := p,
      logLines := l, yieldJoins := j, yieldOwner := o
      journal := t.journal ++ [.wrote cell] }) :
    Takes HostRun (modify f : Run Unit) := by
  refine .of_modify fun t => ?_
  obtain ⟨r, d, u, c, p, l, j, o, same⟩ := h t
  rw [same]
  exact ⟨(ReflTransGen.single (.scratch t r d u c p l j o)).tail (.wrote _ cell), .inl rfl⟩

theorem takes_read (cell : Cell) : Takes HostRun (note (.read cell)) :=
  takes_step fun t => .read t cell

theorem takes_move (step : ValueStep) : Takes HostRun (move step) :=
  takes_step fun t => .moved t step

theorem takes_reply (value : Int) : Takes HostRun (reply value) := takes_pure _

theorem takes_hostError (why : Bytes) : Takes HostRun (hostError why) := takes_pure _

theorem takes_setRegister (rid : Nat) (data : Bytes) : Takes HostRun (setRegister rid data) :=
  takes_scratch fun _ => ⟨_, _, _, _, _, _, _, _, rfl⟩

theorem takes_checkedWrite (rid : Nat) (data : Bytes) (answer : HostReply) :
    Takes HostRun (checkedWrite rid data answer) := by
  refine takes_bind takes_get fun t => ?_
  cases writeRegChecked rid data t.registers with
  | error why => exact takes_pure _
  | ok registers =>
      exact takes_bind (takes_scratch fun _ => ⟨_, _, _, _, _, _, _, _, rfl⟩) fun _ =>
        takes_pure _

theorem takes_trieCharge (key : Bytes) : Takes HostRun (trieCharge chain key) :=
  takes_bind (takes_read _) fun _ => takes_bind takes_get fun _ =>
    takes_bind (takes_written fun _ => ⟨_, _, _, _, _, _, _, _, rfl⟩) fun _ => takes_pure _

theorem takes_trieChargeWrite (key : Bytes) : Takes HostRun (trieChargeWrite chain key) :=
  takes_bind (takes_written fun _ => ⟨_, _, _, _, _, _, _, _, rfl⟩) fun _ => takes_pure _

theorem takes_applyStakingDelta (acct : AccountId) (bytesDelta : Int) :
    Takes HostRun (applyStakingDelta chain acct bytesDelta) := by
  unfold applyStakingDelta
  split
  · exact takes_move _
  · exact takes_pure _

theorem takes_storageWrite (key value : Bytes) (rid : Nat) :
    Takes HostRun (storageWrite chain key value rid) := by
  refine takes_bind takes_get fun t => ?_
  split
  · exact takes_hostError _
  · refine takes_bind (takes_trieChargeWrite _) fun trieNodes => ?_
    refine takes_bind (takes_move _) fun _ => ?_
    refine takes_bind (takes_applyStakingDelta _ _) fun _ => ?_
    split
    · exact takes_pure _
    · split
      · exact takes_pure _
      · exact takes_checkedWrite _ _ _

theorem takes_storageRead (key : Bytes) (rid : Nat) :
    Takes HostRun (storageRead chain key rid) := by
  refine takes_bind takes_get fun t => ?_
  refine takes_bind (takes_trieCharge _) fun trieNodes => ?_
  split
  · exact takes_pure _
  · exact takes_checkedWrite _ _ _

theorem takes_storageRemove (key : Bytes) (rid : Nat) :
    Takes HostRun (storageRemove chain key rid) := by
  refine takes_bind takes_get fun t => ?_
  split
  · exact takes_hostError _
  · refine takes_bind (takes_move _) fun _ => ?_
    refine takes_bind (takes_trieChargeWrite _) fun trieNodes => ?_
    split
    · exact takes_pure _
    · refine takes_bind (takes_applyStakingDelta _ _) fun _ => ?_
      split
      · exact takes_pure _
      · exact takes_checkedWrite _ _ _

theorem takes_storageHasKey (key : Bytes) : Takes HostRun (storageHasKey chain key) :=
  takes_bind takes_get fun _ => takes_bind (takes_trieCharge _) fun _ => takes_pure _

theorem takes_consumePromise (idx : Nat) (op : String) :
    Takes HostRun (consumePromise idx op) := by
  refine takes_bind takes_get fun t => ?_
  split
  · exact takes_pure _
  · exact takes_bind (takes_scratch fun _ => ⟨_, _, _, _, _, _, _, _, rfl⟩) fun _ => takes_pure _

theorem takes_consumeAll (op : String) (idxs : List Nat) :
    Takes HostRun (consumeAll op idxs) := by
  induction idxs with
  | nil => exact takes_pure _
  | cons idx rest ih =>
      refine takes_bind (takes_consumePromise idx op) fun consumed => ?_
      cases consumed with
      | error why => exact takes_pure _
      | ok _ => exact ih

theorem takes_pushBatch (batch : PromiseBatch) : Takes HostRun (pushBatch batch) :=
  takes_bind takes_get fun _ =>
    takes_bind (takes_step fun t => .pushed t batch) fun _ => takes_pure _

theorem takes_dagPush (deps : List Nat) (account : AccountId) (actions : List PAction) :
    Takes HostRun (dagPush deps account actions) :=
  takes_bind takes_get fun _ => takes_pushBatch _

theorem takes_promiseCreate (call : CallSpec) : Takes HostRun (promiseCreate call) :=
  takes_bind (takes_dagPush _ _ _) fun _ => takes_reply _

theorem takes_yieldJoinsAdd (idx : Nat) : Takes HostRun (yieldJoinsAdd idx) :=
  takes_bind (takes_written fun _ => ⟨_, _, _, _, _, _, _, _, rfl⟩) fun _ => takes_move _

theorem takes_persistJoin (idx : Nat) (details : JoinDetails) :
    Takes HostRun (persistJoin chain idx details) :=
  takes_bind (takes_yieldJoinsAdd idx) fun _ => takes_move _

theorem takes_promiseThen (idx : Nat) (call : Option CallSpec) :
    Takes HostRun (promiseThen chain idx call) := by
  refine takes_bind (takes_consumePromise idx _) fun consumed => ?_
  cases consumed with
  | error why => exact takes_hostError _
  | ok _ =>
      cases call with
      | none => exact takes_hostError _
      | some call =>
          refine takes_bind (takes_dagPush _ _ _) fun newIdx => ?_
          refine takes_bind (takes_bind takes_get fun _ => takes_pure _) fun depCross => ?_
          split
          · exact takes_bind (takes_persistJoin _ _) fun _ => takes_reply _
          · exact takes_reply _

theorem takes_promiseAnd (idxs : List Nat) : Takes HostRun (promiseAnd idxs) := by
  refine takes_bind (takes_consumeAll _ idxs) fun consumed => ?_
  cases consumed with
  | error why => exact takes_hostError _
  | ok _ => exact takes_bind (takes_dagPush _ _ _) fun _ => takes_reply _

theorem takes_promiseResult (idx rid : Nat) : Takes HostRun (promiseResult idx rid) := by
  refine takes_bind takes_get fun t => ?_
  split
  · exact takes_bind (takes_setRegister _ _) fun _ => takes_reply _
  · split
    · exact takes_reply _
    · exact takes_bind (takes_scratch fun _ => ⟨_, _, _, _, _, _, _, _, rfl⟩) fun _ =>
        takes_reply _
  · exact takes_reply _
  · exact takes_reply _

theorem takes_promiseReturn (idx : Nat) : Takes HostRun (promiseReturn idx) := by
  refine takes_bind (takes_consumePromise idx _) fun consumed => ?_
  cases consumed with
  | error why => exact takes_hostError _
  | ok _ =>
      exact takes_bind (takes_scratch fun _ => ⟨_, _, _, _, _, _, _, _, rfl⟩) fun _ =>
        takes_reply _

theorem takes_promiseBatchThen (idx : Nat) (account : Option AccountId) :
    Takes HostRun (promiseBatchThen idx account) := by
  refine takes_bind (takes_consumePromise idx _) fun consumed => ?_
  cases consumed with
  | error why => exact takes_hostError _
  | ok _ =>
      cases account with
      | none => exact takes_hostError _
      | some account => exact takes_bind (takes_dagPush _ _ _) fun _ => takes_reply _

theorem takes_promiseBatchAction (idx : Nat) (action : PAction) :
    Takes HostRun (promiseBatchAction idx action) := by
  refine takes_bind takes_get fun t => ?_
  split
  · exact takes_bind (takes_step fun t => .extended t idx action) fun _ => takes_reply _
  · split
    · exact takes_reply _
    · exact takes_panic

theorem takes_yieldOwnerAdd (idx : Nat) : Takes HostRun (yieldOwnerAdd idx) := by
  refine takes_bind takes_get fun t => ?_
  split
  · exact takes_pure _
  · exact takes_written fun _ => ⟨_, _, _, _, _, _, _, _, rfl⟩

theorem takes_yieldOwnerOf (idx : Nat) : Takes HostRun (yieldOwnerOf idx) :=
  takes_bind (takes_read _) fun _ => takes_bind takes_get fun _ => takes_pure _

theorem takes_promiseYieldCreate (method args : Bytes) (gas rid : Nat) :
    Takes HostRun (promiseYieldCreate chain method args gas rid) := by
  refine takes_bind takes_get fun t => ?_
  refine takes_bind (takes_pushBatch _) fun idx => ?_
  refine takes_bind (takes_setRegister _ _) fun _ => ?_
  refine takes_bind (takes_move _) fun _ => takes_bind (takes_move _) fun _ => ?_
  refine takes_bind (takes_yieldOwnerAdd idx) fun _ => ?_
  refine takes_bind (takes_yieldOwnerOf idx) fun owner => ?_
  split
  · exact takes_reply _
  · exact takes_bind (takes_move _) fun _ => takes_reply _

end HostRun

/-- A host call other than a resume takes host steps only. -/
theorem runHost_takes {chain : Chain} {resume : Bytes → Bytes → Run HostResult}
    {host : HostCall} (other : ∀ dataId payload, host ≠ .promiseYieldResume dataId payload) :
    Takes HostRun (runHost chain resume host) := by
  open HostRun in
  cases host with
  | readRegister rid =>
      refine takes_bind takes_get fun t => ?_
      split
      · exact takes_pure _
      · exact takes_hostError _
  | registerLen rid => exact takes_bind takes_get fun _ => takes_reply _
  | writeRegister rid data => exact takes_checkedWrite _ _ _
  | input rid => exact takes_bind takes_get fun _ => takes_checkedWrite _ _ _
  | currentAccountId rid =>
      exact takes_bind takes_get fun _ => takes_bind (takes_setRegister _ _) fun _ => takes_pure _
  | signerAccountId rid =>
      exact takes_bind takes_get fun _ => takes_bind (takes_setRegister _ _) fun _ => takes_pure _
  | predecessorAccountId rid =>
      exact takes_bind takes_get fun _ => takes_bind (takes_setRegister _ _) fun _ => takes_pure _
  | storageWrite key value rid => exact takes_storageWrite _ _ _
  | storageRead key rid => exact takes_storageRead _ _
  | storageRemove key rid => exact takes_storageRemove _ _
  | storageHasKey key => exact takes_storageHasKey _
  | valueReturn data =>
      exact takes_bind (takes_scratch fun _ => ⟨_, _, _, _, _, _, _, _, rfl⟩) fun _ =>
        takes_reply _
  | logUtf8 message =>
      exact takes_bind (takes_scratch fun _ => ⟨_, _, _, _, _, _, _, _, rfl⟩) fun _ =>
        takes_reply _
  | blockTimestamp => exact takes_reply _
  | accountBalance => exact takes_bind takes_get fun _ => takes_reply _
  | accountLockedBalance => exact takes_bind takes_get fun _ => takes_reply _
  | attachedDeposit => exact takes_bind takes_get fun _ => takes_reply _
  | storageUsage => exact takes_bind takes_get fun _ => takes_reply _
  | promiseCreate call => exact takes_promiseCreate call
  | promiseThen idx call => exact takes_promiseThen idx call
  | promiseAnd idxs => exact takes_promiseAnd idxs
  | promiseResultsCount => exact takes_bind takes_get fun _ => takes_reply _
  | promiseResult idx rid => exact takes_promiseResult idx rid
  | promiseReturn idx => exact takes_promiseReturn idx
  | promiseBatchCreate account =>
      exact takes_bind (takes_dagPush _ _ _) fun _ => takes_reply _
  | promiseBatchThen idx account => exact takes_promiseBatchThen idx account
  | promiseBatchAction idx action => exact takes_promiseBatchAction idx action
  | promiseYieldCreate method args gas rid => exact takes_promiseYieldCreate method args gas rid
  | promiseYieldResume dataId payload => exact absurd rfl (other dataId payload)

end LispRlm.NearMock
