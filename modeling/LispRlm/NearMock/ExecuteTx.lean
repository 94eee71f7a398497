import LispRlm.NearMock.Promises

/-! One transaction, and histories of transactions on one thread. -/

namespace LispRlm.NearMock

open Foundation

structure Tx where
  contract : AccountId
  method : Bytes
  args : Bytes
  signer : AccountId
  attach : Amount := ⟨0, u128_pos⟩
  failReceipts : List Nat := []
  view : Bool := false
  /-- Fired by `fire_deferred`. -/
  deferred : Bool := false

structure TxOutcome where
  ok : Bool
  returnData : Option Bytes
  receiptResults : Results
  entryTrapped : Bool
  error : Option Bytes
  panic : Option Bytes
  receiptFailures : List Bytes
  orphanFailures : Nat
  entryGasBurned : Nat
  logs : List Bytes
  deriving DecidableEq

/-- A transaction starts without the promise state of the one before it. The journal is this
transaction's own. -/
def freshTxState (t : Thread) : Thread :=
  { t with
    returnData := none
    registers := ∅
    dag := []
    executed := []
    consumed := []
    promiseResults := []
    pendingReturn := none
    logLines := []
    receiptTraps := []
    outcomes := ∅
    journal := [] }

def creditAttach (contract : AccountId) (amount : Amount) : Run Unit := do
  let t ← get
  let balance := addU128 (balanceAt t.storage (balKey contract)) amount.val
  moveIf (0 < amount.val) (.put (balKey contract) (some (decimal balance)))

/-- The store a trapped entry is rolled back to: the copy, without the attached deposit. -/
def refundAttach (contract : AccountId) (attach : Amount) (snapshot : Storage) : Storage :=
  if attach.val = 0 then snapshot
  else match snapshot.lookup (balKey contract) with
    | none => snapshot
    | some v =>
        let preBal := (parseU128 (trim v)).getD 0 - attach.val
        if 0 < preBal then snapshot.insert (balKey contract) (decimal preBal)
        else snapshot.erase (balKey contract)

/-- Trap texts and the failure classes they stand for. -/
def wasmTraps : List (Bytes × Bytes) :=
  [(ascii "out of bounds memory access", ascii "WasmTrap: MemoryOutOfBounds"),
   (ascii "integer divide by zero", ascii "WasmTrap: IntegerDivisionByZero"),
   (ascii "integer overflow", ascii "WasmTrap: IntegerOverflow"),
   (ascii "indirect call to null", ascii "WasmTrap: IndirectCallToNull"),
   (ascii "signature mismatch", ascii "WasmTrap: IncorrectCallIndirectSignature"),
   (ascii "unreachable", ascii "WasmTrap: Unreachable"),
   (ascii "call stack exhausted", ascii "WasmTrap: StackOverflow")]

def contains (raw needle : Bytes) : Bool := (afterFirst needle raw).isSome

def extractPanic (raw : Bytes) : Option Bytes :=
  if contains raw (ascii "Exceeded the prepaid gas") then some (ascii "Exceeded the prepaid gas")
  else if contains raw (ascii "WasmTrap: StackOverflow") then
    some (ascii "WasmTrap: StackOverflow")
  else match wasmTraps.find? fun entry => contains raw entry.1 with
    | some entry => some entry.2
    | none => panicLine raw

/-- A batch that still has to run and is not held back by an open yield. -/
def isOrphan (idx : Nat) (batch : PromiseBatch) : Run Bool := do
  let executed ← isExecuted idx
  if executed then pure false
  else
    let held ← heldBack idx batch.deps
    pure (!held)

def findOrphan : List (PromiseBatch × Nat) → Run (Option Nat)
  | [] => pure none
  | (batch, i) :: rest => do
      let orphan ← isOrphan i batch
      if orphan then pure (some i) else findOrphan rest

/-- The orphan drain loop, for at most `rounds` rounds. Its result counts the failed receipts. -/
def drain (engine : Calls) : Nat → Nat → Run Nat
  | 0, _ => throw .outOfFuel
  | rounds + 1, failures => do
      let dag ← enumerateDag
      match ← findOrphan dag with
      | none => pure failures
      | some idx =>
          match ← Eff.attempt isErr (engine.executePromise idx) with
          | .ok _ =>
              yieldJoinsPersistTake idx
              drain engine rounds failures
          | .error _ => drain engine rounds (failures + 1)

def errText : Stop → Bytes
  | .err why => why
  | .panic => []
  | .outOfFuel => []

/-- What the outcome says about the promise the entry returned. -/
structure Resolution where
  ok : Bool := true
  error : Option Bytes := none
  panic : Option Bytes := none
  receiptResults : Results := []
  returnData : Option Bytes := none

def rollBack (snapshot : Storage) : Run Unit :=
  modify fun t => { t with storage := snapshot, journal := t.journal ++ [.rolledBack snapshot] }

def lastTrap : Run Bytes := do
  let t ← get
  pure (t.receiptTraps.getLast?.getD (ascii "final receipt failed"))

def firstResult (results : Results) : Option Bytes := results.reverse.findSome? id

/-- Resolves the promise the entry returned. A driver error rolls the transaction back. -/
def resolveReturned (engine : Calls) (snapshot : Storage) (idx : Nat) : Run Resolution := do
  match ← Eff.attempt isErr (engine.executePromise idx) with
  | .error stop =>
      rollBack snapshot
      pure { ok := false, error := some (ascii "receipt chain failed: " ++ errText stop) }
  | .ok results =>
      let why ← lastTrap
      if results.getLast? = some none then
        pure
          { ok := false
            error := some (ascii "receipt chain failed: final receipt: " ++ why)
            panic := some why
            receiptResults := results
            returnData := firstResult results }
      else pure { receiptResults := results, returnData := firstResult results }

def queueReceipts : Run Unit :=
  modify fun t => { t with
    receiptQueue := t.receiptQueue ++ t.dag, dag := [], pendingReturn := none }

/-- Takes the deferral request. -/
def takeDeferral : Run Bool := do
  let t ← get
  modify fun t => { t with deferReceipts := false }
  pure t.deferReceipts

def resolvePending (engine : Calls) (snapshot : Storage) (entryData : Option Bytes) :
    Option Nat → Run Resolution
  | none => pure { returnData := entryData }
  | some idx => resolveReturned engine snapshot idx

/-- The promise the entry returned, or else its own data. -/
def entryResult : Run (Option Nat × Option Bytes) := do
  let t ← get
  pure (t.pendingReturn, if t.pendingReturn = none then t.returnData else none)

/-- Receipts are queued, or resolved and drained. -/
def settleReceipts (engine : Calls) (rounds : Nat) (snapshot : Storage) (pending : Option Nat)
    (entryData : Option Bytes) (deferred : Bool) : Run (Resolution × Nat) :=
  if deferred then do
    queueReceipts
    pure ({ returnData := entryData }, 0)
  else do
    let resolution ← resolvePending engine snapshot entryData pending
    let orphanFailures ← drain engine rounds 0
    pure (resolution, orphanFailures)

/-- The rest of a transaction whose entry returned. -/
def settleEntry (engine : Calls) (rounds : Nat) (snapshot : Storage) :
    Run (Resolution × Nat) := do
  let (pending, entryData) ← entryResult
  let deferred ← takeDeferral
  settleReceipts engine rounds snapshot pending entryData deferred

def closeTx (prepaid : Nat) (halt : Halt) (entryTrapped : Bool) (resolution : Resolution)
    (orphanFailures : Nat) : Run TxOutcome := do
  let t ← get
  modify fun t => { t with logLines := [], receiptTraps := [], currentDeposit := none }
  pure
    { ok := resolution.ok
      returnData := resolution.returnData
      receiptResults := resolution.receiptResults
      entryTrapped
      error := resolution.error
      panic := if resolution.ok = false ∧ resolution.panic = none
        then resolution.error.bind extractPanic else resolution.panic
      receiptFailures := t.receiptTraps
      orphanFailures
      entryGasBurned := min prepaid halt.gas
      logs := t.logLines }

def storeCopy : Run Storage := do
  let t ← get
  pure t.storage

/-- Runs the entry method and everything that follows from it. -/
def runEntry (chain : Chain) (fuel : Nat) (tx : Tx) (body : Guest) : Run TxOutcome := do
  let engine := calls chain fuel
  let snapshot ← storeCopy
  match ← runGuest chain engine.yieldResume body with
  | .returned halt =>
      let (resolution, orphanFailures) ← settleEntry engine fuel snapshot
      closeTx chain.prepaid halt false resolution orphanFailures
  | .trapped why halt =>
      rollBack (refundAttach tx.contract tx.attach snapshot)
      closeTx chain.prepaid halt true
        { ok := false, error := some why, panic := extractPanic why } 0

/-- Instantiates the contract and looks its method up. -/
def enterContract (chain : Chain) (fuel : Nat) (tx : Tx) (module : Module) : Run TxOutcome := do
  creditAttach tx.contract tx.attach
  if module.instantiable then
    let halt ← startInstance chain (calls chain fuel).yieldResume module
    match module.method tx.method with
    | none => throw (.err (ascii "Method '" ++ tx.method ++ ascii "' not found"))
    | some body => runEntry chain fuel tx (body halt)
  else
    note .engineFailed
    throw (.err (ascii "unknown import"))

/-- The thread as a transaction finds it. -/
def openTx (tx : Tx) (t : Thread) : Thread :=
  { freshTxState { t with failReceipts := tx.failReceipts } with
    currentDeposit := some tx.attach
    execCtx := some
      { input := tx.args, signer := tx.signer, predecessor := tx.signer, contract := tx.contract,
        view := tx.view } }

def callContract (chain : Chain) (fuel : Nat) (tx : Tx) : Run TxOutcome :=
  match chain.modules tx.contract with
  | none =>
      throw (.err (ascii "contract account " ++ tx.contract ++ ascii " not in manifest"))
  | some module => enterContract chain fuel tx module

def executeTx (chain : Chain) (fuel : Nat) (tx : Tx) : Run TxOutcome := do
  modify (openTx tx)
  callContract chain fuel tx

def requested (tx : Tx) (t : Thread) : Thread :=
  { t with deferReceipts := tx.deferred || t.deferReceipts, view := tx.view }

/-- `fire` and `fire_deferred`: the view flag holds for the call only. -/
def fire (chain : Chain) (fuel : Nat) (tx : Tx) (t : Thread) :
    EStateM.Result Stop Thread TxOutcome :=
  Eff.leaving (executeTx chain fuel tx) (fun t' => { t' with view := t.view }) (requested tx t)

/-- A transaction of a history, the thread it started on, and how it ended. -/
structure Fired where
  tx : Tx
  before : Thread
  result : EStateM.Result Stop Thread TxOutcome

/-- Fires transactions one after the other on one thread. -/
def runHistory (chain : Chain) (fuel : Nat) : List Tx → Thread → List Fired
  | [], _ => []
  | tx :: rest, t =>
      let result := fire chain fuel tx t
      { tx, before := t, result } :: runHistory chain fuel rest (Eff.endState result)

end LispRlm.NearMock
