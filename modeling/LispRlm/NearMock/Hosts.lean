import LispRlm.NearMock.Engine

/-! The hosts that do not run receipts: registers, storage, context, and the promise hosts that
only build the DAG.

A host that errs hands its text back; the guest traps on it. -/

namespace LispRlm.NearMock

open Foundation

abbrev HostResult := Except Bytes HostReply

def reply (value : Int := 0) : Run HostResult := pure (.ok { value })

def hostError (why : Bytes) : Run HostResult := pure (.error why)

/-! ### Registers -/

def maxRegs : Nat := 100

def maxRegSize : Nat := 104857600

def registersMemoryLimit : Nat := 1073741824

def maxU64 : Nat := 2 ^ 64 - 1

def noRegister : Nat := maxU64

def writeRegChecked (rid : Nat) (data : Bytes) (registers : FMap Nat Bytes) :
    Except Bytes (FMap Nat Bytes) :=
  let freed := ((registers.lookup rid).map List.length).getD 0
  let newTotal := registers.weight (fun _ v => v.length) - freed + data.length
  if maxRegSize < data.length then
    .error (ascii "MemoryAccessViolation: register " ++ decimal rid ++ ascii " value " ++
      decimal data.length ++ ascii "b exceeds max " ++ decimal maxRegSize ++ ascii "b")
  else if rid ≠ noRegister ∧ registers.lookup rid = none ∧ maxRegs ≤ registers.entries.length then
    .error (ascii "MemoryAccessViolation: register limit " ++ decimal maxRegs ++
      ascii " exceeded")
  else if registersMemoryLimit < newTotal then
    .error (ascii "MemoryAccessViolation: registers memory limit " ++
      decimal registersMemoryLimit ++ ascii " exceeded")
  else .ok (registers.insert rid data)

def setRegister (rid : Nat) (data : Bytes) : Run Unit :=
  modify fun t => { t with registers := t.registers.insert rid data }

/-- Writes a register within the limits, or errs. -/
def checkedWrite (rid : Nat) (data : Bytes) (answer : HostReply) : Run HostResult := do
  let t ← get
  match writeRegChecked rid data t.registers with
  | .error why => pure (.error why)
  | .ok registers =>
      modify fun t => { t with registers := registers }
      pure (.ok answer)

/-! ### Storage -/

def trieCharge (chain : Chain) (key : Bytes) : Run Nat := do
  note (.read (.node key))
  let t ← get
  modify fun t => { t with
    touched := t.touched.insert key
    journal := t.journal ++ [.wrote (.node key)] }
  pure (if key ∈ t.touched then 1 else chain.trieWalkNodes)

def trieChargeWrite (chain : Chain) (key : Bytes) : Run Nat := do
  modify fun t => { t with
    touched := t.touched.insert key
    journal := t.journal ++ [.wrote (.node key)] }
  pure chain.trieWalkNodes

def applyStakingDelta (chain : Chain) (acct : AccountId) (bytesDelta : Int) : Run Unit :=
  if chain.staking then move (.storageStaking acct bytesDelta) else pure ()

/-- Bytes of an account's partition, without its balance, at the price of staking. -/
def lockedBalanceFor (chain : Chain) (st : Storage) (acct : AccountId) : Nat :=
  if chain.staking then
    let bytes := st.weight fun k v =>
      if (prefixedKey acct []).isPrefixOf k && !nearBal.isSuffixOf k then k.length + v.length else 0
    min (bytes * stakingCostPerByte) (u128 - 1)
  else 0

def storageWrite (chain : Chain) (rawKey value : Bytes) (rid : Nat) : Run HostResult := do
  let t ← get
  if execCtxView t then hostError (ascii "ProhibitedInView: storage_write")
  else
    let acct := (execCtxOrDefault t).contract
    let key := prefixedKey acct rawKey
    let old := t.storage.lookup key
    let trieNodes ← trieChargeWrite chain key
    move (.put key (some value))
    let oldRawLen : Nat := (old.map fun o => key.length - acct.length - 1 + o.length).getD 0
    applyStakingDelta chain acct ((key.length + value.length : Nat) - (oldRawLen : Int))
    match old with
    | none => pure (.ok { value := 0, trieNodes })
    | some o =>
        if rid = noRegister then pure (.ok { value := 1, size := o.length, trieNodes })
        else checkedWrite rid o { value := 1, size := o.length, trieNodes }

def storageRead (chain : Chain) (rawKey : Bytes) (rid : Nat) : Run HostResult := do
  let t ← get
  let key := prefixedKey (execCtxOrDefault t).contract rawKey
  let trieNodes ← trieCharge chain key
  match t.storage.lookup key with
  | none => pure (.ok { value := 0, trieNodes })
  | some v => checkedWrite rid v { value := 1, size := v.length, trieNodes }

def storageRemove (chain : Chain) (rawKey : Bytes) (rid : Nat) : Run HostResult := do
  let t ← get
  if execCtxView t then hostError (ascii "ProhibitedInView: storage_remove")
  else
    let acct := (execCtxOrDefault t).contract
    let key := prefixedKey acct rawKey
    let old := t.storage.lookup key
    move (.put key none)
    let trieNodes ← trieChargeWrite chain key
    match old with
    | none => pure (.ok { value := 0, trieNodes })
    | some v =>
        applyStakingDelta chain acct (-((rawKey.length + v.length : Nat) : Int))
        if rid = noRegister then pure (.ok { value := 1, size := v.length, trieNodes })
        else checkedWrite rid v { value := 1, size := v.length, trieNodes }

def storageHasKey (chain : Chain) (rawKey : Bytes) : Run HostResult := do
  let t ← get
  let key := prefixedKey (execCtxOrDefault t).contract rawKey
  let trieNodes ← trieCharge chain key
  pure (.ok { value := if (t.storage.lookup key).isSome then 1 else 0, trieNodes })

/-! ### Markers of the engine in the shared store -/

def yieldJoinPrefix : Bytes := 0x00 :: ascii "yjoin:"

def yieldJoinKey (idx : Nat) : Bytes := yieldJoinPrefix ++ decimal idx

def yieldKey (idx : Nat) : Bytes := 0x00 :: ascii "yield:" ++ decimal idx

def yieldOwnerKey (idx : Nat) : Bytes := 0x00 :: ascii "yowner:" ++ decimal idx

def hexDigit (n : Nat) : UInt8 := if n < 10 then digitByte n else (55 + n).toUInt8

def hex (bytes : Bytes) : Bytes :=
  bytes.flatMap fun b => [hexDigit (b.toNat / 16), hexDigit (b.toNat % 16)]

def yieldHashKey (hash : Bytes) : Bytes := 0x00 :: ascii "ydhash:" ++ hex hash

def parseUsize (text : Bytes) : Option Nat := parseUnsigned (2 ^ 64) text

/-! ### Promise hosts -/

def consumePromise (idx : Nat) (op : String) : Run (Except Bytes Unit) := do
  let t ← get
  if idx ∈ t.consumed then
    pure (.error (ascii "promise " ++ decimal idx ++ ascii " already consumed: " ++ ascii op ++
      ascii " on an already-consumed handle (promises are move-only, single-use)"))
  else
    modify fun t => { t with consumed := idx :: t.consumed }
    pure (.ok ())

def pushBatch (batch : PromiseBatch) : Run Nat := do
  let t ← get
  modify fun t => { t with
    dag := t.dag ++ [batch]
    journal := t.journal ++ [.pushed t.dag.length batch.deps batch.isYield] }
  pure t.dag.length

def dagPush (deps : List Nat) (account : AccountId) (actions : List PAction) : Run Nat := do
  let t ← get
  pushBatch
    { deps, account, creator := (execCtxOrDefault t).contract, actions, isYield := false }

def CallSpec.action (call : CallSpec) : PAction := .fnCall call.method call.args call.gas call.dep

def outOfBounds : Bytes :=
  ascii "MemoryAccessViolation: promise-host read out of bounds — nearcore traps here"

def promiseCreate (call : CallSpec) : Run HostResult := do
  let idx ← dagPush [] call.account [call.action]
  reply idx

def yieldJoinsAdd (idx : Nat) : Run Unit := do
  modify fun t => { t with
    yieldJoins := t.yieldJoins.insert idx
    journal := t.journal ++ [.wrote (.mark idx)] }
  move (.put (yieldJoinKey idx) (some (ascii "1")))

/-- The account of a batch differs from `account`; a bad handle counts as no difference. -/
def isCrossAccount (idx : Nat) (account : AccountId) : Run Bool := do
  let t ← get
  pure (((t.dag[idx]?).map fun b => decide (b.account ≠ account)).getD false)

def persistJoin (chain : Chain) (idx : Nat) (details : JoinDetails) : Run Unit := do
  yieldJoinsAdd idx
  move (.put (yieldJoinKey idx) (some (chain.encodeJoin details)))

/-- A callback on another account's receipt is marked as a join, in case that receipt yields. -/
def promiseThen (chain : Chain) (idx : Nat) (call : Option CallSpec) : Run HostResult := do
  match ← consumePromise idx "promise_then" with
  | .error why => hostError why
  | .ok () =>
      match call with
      | none => hostError outOfBounds
      | some call =>
          let newIdx ← dagPush [idx] call.account [call.action]
          let depCross ← isCrossAccount idx call.account
          if depCross then
            persistJoin chain newIdx
              { account := call.account, method := call.method, args := call.args, dep := idx }
            reply newIdx
          else reply newIdx

def consumeAll (op : String) : List Nat → Run (Except Bytes Unit)
  | [] => pure (.ok ())
  | idx :: rest => do
      match ← consumePromise idx op with
      | .error why => pure (.error why)
      | .ok () => consumeAll op rest

def promiseAnd (idxs : List Nat) : Run HostResult := do
  match ← consumeAll "promise_and" idxs with
  | .error why => hostError why
  | .ok () =>
      let idx ← dagPush idxs [] []
      reply idx

/-- Status of a dependency's result: `0` failed or absent, `1` successful. -/
def promiseResult (idx rid : Nat) : Run HostResult := do
  let t ← get
  match t.promiseResults[idx]? with
  | some (some []) =>
      setRegister rid []
      reply 1
  | some (some bytes) =>
      match writeRegChecked rid bytes t.registers with
      | .error _ => reply 1
      | .ok registers =>
          modify fun t => { t with registers := registers }
          reply 1
  | some none => reply 0
  | none => reply 0

def promiseReturn (idx : Nat) : Run HostResult := do
  match ← consumePromise idx "promise_return" with
  | .error why => hostError why
  | .ok () =>
      modify fun t => { t with pendingReturn := some idx }
      reply

def promiseBatchThen (idx : Nat) (account : Option AccountId) : Run HostResult := do
  match ← consumePromise idx "promise_batch_then" with
  | .error why => hostError why
  | .ok () =>
      match account with
      | none => hostError outOfBounds
      | some account =>
          let newIdx ← dagPush [idx] account []
          reply newIdx

/-- Only these two ignore a handle that is out of range; the others panic. -/
def toleratesBadIndex : PAction → Bool
  | .fnCall .. => true
  | .transfer _ => true
  | _ => false

def pushAction (idx : Nat) (action : PAction) (dag : List PromiseBatch) : List PromiseBatch :=
  dag.modify idx fun b => { b with actions := b.actions ++ [action] }

def promiseBatchAction (idx : Nat) (action : PAction) : Run HostResult := do
  let t ← get
  if idx < t.dag.length then
    modify fun t => { t with dag := pushAction idx action t.dag }
    reply
  else if toleratesBadIndex action then reply
  else throw .panic

def yieldOwnerAdd (idx : Nat) : Run Unit := do
  let t ← get
  match t.currentBatch with
  | none => pure ()
  | some owner =>
      modify fun t => { t with
        yieldOwner := t.yieldOwner.insert idx owner
        journal := t.journal ++ [.wrote (.owner idx)] }

def yieldOwnerOf (idx : Nat) : Run (Option Nat) := do
  note (.read (.owner idx))
  let t ← get
  pure (t.yieldOwner.lookup idx)

def promiseYieldCreate (chain : Chain) (method args : Bytes) (gas rid : Nat) :
    Run HostResult := do
  let t ← get
  let contract := (execCtxOrDefault t).contract
  let idx ← pushBatch
    { deps := [], account := contract, creator := contract,
      actions := [.fnCall method args gas ⟨0, u128_pos⟩], isYield := true }
  let hash := chain.sha256 (ascii "yd:" ++ decimal idx)
  setRegister rid hash
  move (.put (yieldKey idx) (some (contract ++ 0x1f :: method ++ 0x1f :: contract ++ 0x1f :: args)))
  move (.put (yieldHashKey hash) (some (decimal idx)))
  yieldOwnerAdd idx
  match ← yieldOwnerOf idx with
  | none => reply idx
  | some owner =>
      move (.put (yieldOwnerKey idx) (some (decimal owner)))
      reply idx

/-- One host call; `resume` is `promise_yield_resume`. -/
def runHost (chain : Chain) (resume : Bytes → Bytes → Run HostResult) : HostCall → Run HostResult
  | .readRegister rid => do
      let t ← get
      match t.registers.lookup rid with
      | some data => pure (.ok { data, size := data.length })
      | none => hostError (ascii "InvalidRegisterId \x7b register_id: " ++ decimal rid ++ ascii " \x7d")
  | .registerLen rid => do
      let t ← get
      reply (((t.registers.lookup rid).map fun d => (d.length : Int)).getD (-1))
  | .writeRegister rid data => checkedWrite rid data {}
  | .input rid => do
      let t ← get
      let input := (execCtxOrDefault t).input
      checkedWrite rid input { size := input.length }
  | .currentAccountId rid => do
      let t ← get
      let acct := (execCtxOrDefault t).contract
      let acct := if acct = [] then ascii "escrow.test.near" else acct
      setRegister rid acct
      pure (.ok { size := acct.length })
  | .signerAccountId rid => do
      let t ← get
      setRegister rid (execCtxOrDefault t).signer
      pure (.ok { size := (execCtxOrDefault t).signer.length })
  | .predecessorAccountId rid => do
      let t ← get
      setRegister rid (execCtxOrDefault t).predecessor
      pure (.ok { size := (execCtxOrDefault t).predecessor.length })
  | .storageWrite key value rid => storageWrite chain key value rid
  | .storageRead key rid => storageRead chain key rid
  | .storageRemove key rid => storageRemove chain key rid
  | .storageHasKey key => storageHasKey chain key
  | .valueReturn data => do
      modify fun t => { t with returnData := some data }
      reply
  | .logUtf8 message => do
      modify fun t => { t with logLines := t.logLines ++ [message] }
      reply
  | .blockTimestamp => reply chain.clock
  | .accountBalance => do
      let t ← get
      let acct := (execCtxOrDefault t).contract
      reply ((balanceAt t.storage (balKey acct) - lockedBalanceFor chain t.storage acct : Nat))
  | .accountLockedBalance => do
      let t ← get
      reply (lockedBalanceFor chain t.storage (execCtxOrDefault t).contract : Nat)
  | .attachedDeposit => do
      let t ← get
      reply ((t.currentDeposit.map Fin.val).getD 0 : Nat)
  | .storageUsage => do
      let t ← get
      reply (t.storage.weight fun k v =>
        if (prefixedKey (execCtxOrDefault t).contract []).isPrefixOf k then k.length + v.length
        else 0 : Nat)
  | .promiseCreate call => promiseCreate call
  | .promiseThen idx call => promiseThen chain idx call
  | .promiseAnd idxs => promiseAnd idxs
  | .promiseResultsCount => do
      let t ← get
      reply (t.promiseResults.length : Nat)
  | .promiseResult idx rid => promiseResult idx rid
  | .promiseReturn idx => promiseReturn idx
  | .promiseBatchCreate account => do
      let idx ← dagPush [] account []
      reply idx
  | .promiseBatchThen idx account => promiseBatchThen idx account
  | .promiseBatchAction idx action => promiseBatchAction idx action
  | .promiseYieldCreate method args gas rid => promiseYieldCreate chain method args gas rid
  | .promiseYieldResume dataId payload => resume dataId payload

end LispRlm.NearMock
