import LispRlm.Foundation.Listing
import LispRlm.NearMock.Hosts
import Mathlib.Order.Lex
import Mathlib.Data.List.Lex

/-! The promise engine: sub-executions, batches, and resumes.

`execute_promise` and `promise_yield_resume` call each other through the guests they run. `calls`
ties that knot with a depth bound, and stops with `outOfFuel` where the bound is reached. -/

namespace LispRlm.NearMock

open Foundation

/-! ### Texts -/

/-- What follows the first occurrence of `needle`. -/
def afterFirst (needle : Bytes) : Bytes → Option Bytes
  | [] => if needle = [] then some [] else none
  | c :: rest =>
      if needle.isPrefixOf (c :: rest) then some ((c :: rest).drop needle.length)
      else afterFirst needle rest

def isSpace (c : UInt8) : Bool := c = 0x20 || (0x09 ≤ c && c ≤ 0x0D)

def trimEnd (text : Bytes) : Bytes := (text.reverse.dropWhile isSpace).reverse

def trim (text : Bytes) : Bytes := trimEnd (text.dropWhile isSpace)

/-- The guest's message in a trap text: the line after `PANIC: `. -/
def panicLine (why : Bytes) : Option Bytes :=
  match afterFirst (ascii "PANIC: ") why with
  | none => none
  | some rest =>
      let line := trimEnd (rest.takeWhile (· ≠ 0x0A))
      if line = [] then none else some (ascii "Smart contract panicked: " ++ line)

def stripPrefix (start text : Bytes) : Option Bytes :=
  if start.isPrefixOf text then some (text.drop start.length) else none

def isContinuation (b : UInt8) : Bool := 0x80 ≤ b && b ≤ 0xBF

/-- `std::str::from_utf8` accepts the bytes. -/
def validUtf8 : Bytes → Bool
  | [] => true
  | a :: rest =>
      if a ≤ 0x7F then validUtf8 rest
      else match rest with
        | [] => false
        | b :: rest =>
            if 0xC2 ≤ a && a ≤ 0xDF then isContinuation b && validUtf8 rest
            else match rest with
              | [] => false
              | c :: rest =>
                  if a = 0xE0 then 0xA0 ≤ b && b ≤ 0xBF && isContinuation c && validUtf8 rest
                  else if a = 0xED then
                    0x80 ≤ b && b ≤ 0x9F && isContinuation c && validUtf8 rest
                  else if 0xE1 ≤ a && a ≤ 0xEF then
                    isContinuation b && isContinuation c && validUtf8 rest
                  else match rest with
                    | [] => false
                    | d :: rest =>
                        (if a = 0xF0 then 0x90 ≤ b && b ≤ 0xBF
                          else if a = 0xF4 then 0x80 ≤ b && b ≤ 0x8F
                          else 0xF1 ≤ a && a ≤ 0xF3 && isContinuation b) &&
                          isContinuation c && isContinuation d && validUtf8 rest

/-! ### Join markers and yield owners -/

def storedMarker (key : Bytes) : Run (Option Bytes) := do
  note (.read (.entry key))
  let t ← get
  pure (t.storage.lookup key)

def isMarked (idx : Nat) : Run Bool := do
  note (.read (.mark idx))
  let t ← get
  pure (decide (idx ∈ t.yieldJoins))

def isYieldJoin (idx : Nat) : Run Bool := do
  let marked ← isMarked idx
  if marked then pure true
  else
    match ← storedMarker (yieldJoinKey idx) with
    | none => pure false
    | some _ =>
        modify fun t => { t with yieldJoins := t.yieldJoins.insert idx }
        pure true

def yieldJoinsPersistTake (idx : Nat) : Run Unit := move (.put (yieldJoinKey idx) none)

def yieldJoinsTake (idx : Nat) : Run Unit := do
  modify fun t => { t with
    yieldJoins := t.yieldJoins.filter (· ≠ idx)
    journal := t.journal ++ [.wrote (.mark idx)] }
  yieldJoinsPersistTake idx

def depsOwnOpenYield (deps : List Nat) : Run Bool := do
  note (.readYieldsOf deps)
  let t ← get
  pure (deps.any fun d => t.yieldOwner.entries.any fun e => e.2 = d)

/-- A join whose dependency owns an open yield waits for the resume. -/
def heldBack (idx : Nat) (deps : List Nat) : Run Bool := do
  let join ← isYieldJoin idx
  if join then depsOwnOpenYield deps else pure false

/-- The index in a join marker's key. -/
def joinIndex (key : Bytes) : Option Nat := (stripPrefix yieldJoinPrefix key).bind parseUsize

def persistedJoins (t : Thread) : List Nat := t.storage.readAll fun key _ => joinIndex key

def depsOf (t : Thread) (idx : Nat) : List Nat := ((t.dag[idx]?).map PromiseBatch.deps).getD []

def joinsOnBatch (t : Thread) (owner : Nat) : List Nat :=
  (sortDedup (persistedJoins t ++ t.yieldJoins)).filter fun j => owner ∈ depsOf t j

def joinsForOwnerBatch (t : Thread) (owner : Nat) : List Nat :=
  t.yieldJoins.filter fun j => (depsOf t j).any fun d => t.yieldOwner.lookup d = some owner

def getBatch (idx : Nat) : Run (Option PromiseBatch) := do
  let t ← get
  pure t.dag[idx]?

def enumerateDag : Run (List (PromiseBatch × Nat)) := do
  let t ← get
  pure t.dag.zipIdx

/-- The joins on a batch that opened a yield, or on the yields it opened. -/
def ownerJoins (owner : Nat) : Run (List Nat) := do
  note (.listedJoins (some owner))
  let t ← get
  pure (joinsOnBatch t owner ++ joinsForOwnerBatch t owner)

/-- The batches of `dag` that wait on `idx` and are marked as joins. -/
def joinsWaitingOn (idx : Nat) : List (PromiseBatch × Nat) → Run (List Nat)
  | [] => pure []
  | (batch, j) :: rest => do
      if idx ∈ batch.deps then
        let join ← isYieldJoin j
        let others ← joinsWaitingOn idx rest
        pure (if join then j :: others else others)
      else joinsWaitingOn idx rest

/-- A join marker, as it is listed: index, key, details. -/
abbrev Listed := Nat × Bytes × JoinDetails

/-- The index decides the order. Keys differ, so they settle the order among equal indices, which
the iteration over the store leaves open. -/
def Listed.rank (l : Listed) : List Nat := l.1 :: l.2.1.map UInt8.toNat

def listedJoin (chain : Chain) (key value : Bytes) : Option Listed := do
  let idx ← joinIndex key
  let details ← chain.decodeJoin value
  pure (idx, key, details)

/-- The joins whose details are persisted, in the order of their indices. -/
def persistedDetails (chain : Chain) (st : Storage) : List (Nat × JoinDetails) :=
  ((st.readAll (listedJoin chain)).insertionSort (fun a b => a.rank ≤ b.rank)).map
    fun l => (l.1, l.2.2)

def pendingJoins (chain : Chain) : Run (List (Nat × JoinDetails)) := do
  note (.listedJoins none)
  let t ← get
  pure (persistedDetails chain t.storage)

/-! ### Sub-execution -/

def runGuest (chain : Chain) (resume : Bytes → Bytes → Run HostResult) : Guest → Run Exit
  | .done halt => pure (.returned halt)
  | .trap why halt => pure (.trapped why halt)
  | .call host failed next => do
      match ← runHost chain resume host with
      | .ok answer => runGuest chain resume (next answer)
      | .error why => pure (.trapped why failed)

/-- The exported start function runs first; its trap is ignored. -/
def startInstance (chain : Chain) (resume : Bytes → Bytes → Run HostResult) (module : Module) :
    Run Halt :=
  match module.start with
  | none => pure { gas := 0, memory := [] }
  | some guest => do
      let exit ← runGuest chain resume guest
      pure exit.halt

def pushTrap (why : Bytes) : Run Unit :=
  modify fun t => { t with receiptTraps := t.receiptTraps ++ [why] }

/-- Keeps the guest's message of a trapped receipt. -/
def recordPanic (why : Bytes) : Run Unit :=
  match panicLine why with
  | some line => pushTrap line
  | none => pure ()

def returnedData : Run Bytes := do
  let t ← get
  pure (t.returnData.getD [])

/-- Runs one method in a fresh instance: its return data, or `none` where it traps. -/
def runMethod (chain : Chain) (resume : Bytes → Bytes → Run HostResult) (module : Module)
    (method : Bytes) : Run (Option Bytes) := do
  let halt ← startInstance chain resume module
  match module.method method with
  | none => pure none
  | some body =>
      match ← runGuest chain resume (body halt) with
      | .returned _ =>
          let data ← returnedData
          pure (some data)
      | .trapped why _ =>
          recordPanic why
          pure none

/-- The part of the caller's state that a call hides. -/
structure CallerContext where
  currentDeposit : Option Amount
  execCtx : Option ExecCtx
  registers : FMap Nat Bytes
  returnData : Option Bytes

def saveContext : Run CallerContext := do
  let t ← get
  pure
    { currentDeposit := t.currentDeposit, execCtx := t.execCtx, registers := t.registers,
      returnData := t.returnData }

def restoreContext (caller : CallerContext) : Run Unit :=
  modify fun t => { t with
    currentDeposit := caller.currentDeposit
    execCtx := caller.execCtx
    registers := caller.registers
    returnData := caller.returnData }

/-- Opens the context of a call and moves its deposit. -/
def enterCall (account : AccountId) (args : Bytes) (predecessor : AccountId) (deposit : Amount) :
    Run Unit := do
  modify fun t => { t with
    registers := ∅
    returnData := none
    execCtx := some
      { input := args, signer := predecessor, predecessor, contract := account, view := false } }
  moveIf (0 < deposit.val) (.deposit account predecessor deposit)
  modify fun t => { t with currentDeposit := some deposit }

def takeSnapshot (account : AccountId) : Run (PartitionSnap account) := do
  let t ← get
  pure (snapshotPartition t.storage account)

def callModule (chain : Chain) (resume : Bytes → Bytes → Run HostResult) (module : Module)
    (account : AccountId) (method args : Bytes) (predecessor : AccountId) (deposit : Amount) :
    Run (Option Bytes) := do
  let caller ← saveContext
  enterCall account args predecessor deposit
  -- the copy of the partition holds the deposit already
  let partSnap ← takeSnapshot account
  if module.instantiable then
    let result ← runMethod chain resume module method
    moveIf (result = none) (.failedCall account partSnap predecessor deposit)
    restoreContext caller
    pure result
  else
    note .engineFailed
    throw (.err (ascii "unknown import"))

/-- Only the receipt of a call to an unknown account fails; no value moves. -/
def subExecute (chain : Chain) (resume : Bytes → Bytes → Run HostResult) (account : AccountId)
    (method args : Bytes) (predecessor : AccountId) (deposit : Amount) : Run (Option Bytes) :=
  match chain.modules account with
  | none => do
      pushTrap (ascii "AccountDoesNotExist: " ++ account)
      pure none
  | some module => callModule chain resume module account method args predecessor deposit

/-! ### Batches -/

/-- The engine's own recursive calls. -/
structure Calls where
  executePromise : Nat → Run Results
  yieldResume : Bytes → Bytes → Run HostResult

def collectDeps (exec : Nat → Run Results) : List Nat → Run Results
  | [] => pure []
  | dep :: rest => do
      let first ← exec dep
      let others ← collectDeps exec rest
      pure (first ++ others)

/-- Where an action leaves its batch: what is remembered for a revert, the action's results, and
whether the batch goes on. -/
structure ActionEnd where
  touched : Touched
  out : Results
  proceed : Bool

def succeeded (touched : Touched) : Run ActionEnd :=
  pure { touched, out := [some []], proceed := true }

def revertBatch (touched : Touched) : Run ActionEnd := do
  move (.revert touched)
  pure { touched, out := [none], proceed := false }

/-- Exchanges the promise the running call has returned. -/
def replacePendingReturn (new : Option Nat) : Run (Option Nat) := do
  let t ← get
  modify fun t => { t with pendingReturn := new }
  pure t.pendingReturn

/-- The call runs, then the promise it returned; the last result of that promise stands for it. -/
def runFnCall (chain : Chain) (calls : Calls) (batch : PromiseBatch) (touched : Touched)
    (method args : Bytes) (dep : Amount) : Run ActionEnd := do
  let outerRet ← replacePendingReturn none
  let r ← subExecute chain calls.yieldResume batch.account method args batch.creator dep
  let childRet ← replacePendingReturn outerRet
  match childRet with
  | none => pure { touched, out := [r], proceed := true }
  | some ridx =>
      let cres ← calls.executePromise ridx
      pure { touched, out := cres.getLast?.getD r :: cres, proceed := true }

def runTransfer (batch : PromiseBatch) (touched : Touched) (amount : Amount) : Run ActionEnd := do
  let t ← get
  let debitKey := balKey batch.creator
  let creditKey := balKey batch.account
  if balanceAt t.storage debitKey < amount.val then revertBatch touched
  else
    move (.transfer batch.creator batch.account amount)
    succeeded (touched ++ [(debitKey, t.storage.lookup debitKey),
      (creditKey, (ValueStep.debit t.storage debitKey amount.val).lookup creditKey)])

/-- Only the liquid balance is remembered for a revert. -/
def runStake (batch : PromiseBatch) (touched : Touched) (amount : Amount) : Run ActionEnd := do
  let t ← get
  let key := balKey batch.account
  if balanceAt t.storage key < amount.val then revertBatch touched
  else
    move (.stake batch.account amount)
    succeeded (touched ++ [(key, t.storage.lookup key)])

/-- The key is stored without the account's prefix. -/
def runAddKey (touched : Touched) (pk : Bytes) : Run ActionEnd := do
  let t ← get
  let full := 0x02 :: pk
  move (.put full (some (ascii "full")))
  if (t.storage.lookup full).isSome then succeeded touched
  else succeeded (touched ++ [(full, none)])

def runDeleteKey (batch : PromiseBatch) (touched : Touched) (pk : Bytes) : Run ActionEnd := do
  let t ← get
  let key := prefixedKey batch.account (0x02 :: pk)
  if (t.storage.lookup key).isSome then
    move (.put key none)
    succeeded (touched ++ [(key, none)])
  else revertBatch touched

def runAction (chain : Chain) (calls : Calls) (batch : PromiseBatch) (touched : Touched) :
    PAction → Run ActionEnd
  | .fnCall method args _ dep => runFnCall chain calls batch touched method args dep
  | .transfer amount => runTransfer batch touched amount
  | .transferToGasKey amount => runTransfer batch touched amount
  | .addGasKey _ => succeeded touched
  | .deployGlobalContract _ => succeeded touched
  | .useGlobalContract _ => succeeded touched
  | .stake amount => runStake batch touched amount
  | .addKey pk => runAddKey touched pk
  | .deleteKey pk => runDeleteKey batch touched pk
  | .deleteAccount beneficiary => do
      move (.deleteAccount batch.account beneficiary)
      succeeded touched

def runActions (chain : Chain) (calls : Calls) (batch : PromiseBatch) :
    Touched → List PAction → Run Results
  | _, [] => pure []
  | touched, action :: rest => do
      let ended ← runAction chain calls batch touched action
      if ended.proceed then
        let others ← runActions chain calls batch ended.touched rest
        pure (ended.out ++ others)
      else pure ended.out

/-- Publishes results for `promise_result` and hands back those that were published. -/
def replaceResults (results : Results) : Run Results := do
  let t ← get
  modify fun t => { t with promiseResults := results }
  pure t.promiseResults

def setResults (results : Results) : Run Unit :=
  modify fun t => { t with promiseResults := results }

def markExecuted (idx : Nat) : Run Unit :=
  modify fun t => { t with executed := t.executed.insert idx }

/-- A combinator has no actions and hands the results of its dependencies on. -/
def runOwnActions (chain : Chain) (calls : Calls) (batch : PromiseBatch) (depResults : Results) :
    Run Results :=
  if batch.account = [] then pure depResults
  else runActions chain calls batch [] batch.actions

/-- Resolves the dependencies, publishes their results, and runs the actions. A yield does nothing
here: its callback belongs to the resume. -/
def runBatch (chain : Chain) (calls : Calls) (idx : Nat) (batch : PromiseBatch) :
    Run Results := do
  let depResults ← collectDeps calls.executePromise batch.deps
  let saved ← replaceResults depResults
  if batch.isYield then
    note (.inert idx)
    markExecuted idx
    pure []
  else
    note (.ran idx depResults)
    let out ← runOwnActions chain calls batch depResults
    setResults saved
    pure out

/-- A forced receipt resolves its dependencies only. -/
def forceFailure (calls : Calls) (idx : Nat) (batch : PromiseBatch) : Run Results := do
  note (.forced idx)
  let _ ← collectDeps calls.executePromise batch.deps
  pure []

def isForced (idx : Nat) : Run Bool := do
  let t ← get
  pure (decide (idx ∈ t.failReceipts))

def executeBatch (chain : Chain) (calls : Calls) (idx : Nat) (batch : PromiseBatch) :
    Run Results := do
  let held ← heldBack idx batch.deps
  if held then
    note (.deferred idx)
    pure [none]
  else
    markExecuted idx
    let forced ← isForced idx
    if forced then forceFailure calls idx batch
    else runBatch chain calls idx batch

/-- Yields that open while the batch runs are its own. -/
def underCurrentBatch (idx : Nat) (run : Run Results) : Run Results :=
  Eff.leaving
    (do
      modify fun t => { t with currentBatch := some idx }
      run)
    fun t => { t with currentBatch := none }

def executePromiseUncached (chain : Chain) (calls : Calls) (idx : Nat) : Run Results := do
  note (.entered idx)
  match ← getBatch idx with
  | none => throw .panic
  | some batch => underCurrentBatch idx (executeBatch chain calls idx batch)

def memo (idx : Nat) : Run (Option Results) := do
  let t ← get
  pure (t.outcomes.lookup idx)

def memoize (idx : Nat) (out : Results) : Run Unit :=
  modify fun t => { t with
    outcomes := t.outcomes.insert idx out
    journal := t.journal ++ [.resolved idx out] }

/-- The first resolution is remembered and replayed on every later visit. -/
def executePromise (chain : Chain) (calls : Calls) (idx : Nat) : Run Results := do
  match ← memo idx with
  | some hit =>
      note (.replayed idx)
      markExecuted idx
      pure hit
  | none =>
      let out ← executePromiseUncached chain calls idx
      memoize idx out
      pure out

/-! ### Resumes -/

/-- The index a data id names: `yd:<index>`, or the hash handed out when the yield was made. -/
def resumeIndex (rawId : Bytes) : Run Nat :=
  if validUtf8 rawId then
    pure (((stripPrefix (ascii "yd:") rawId).bind parseUsize).getD maxU64)
  else if rawId.length = 32 then do
    let stored ← storedMarker (yieldHashKey rawId)
    pure ((stored.bind parseUsize).getD maxU64)
  else pure maxU64

def parseYield (spec : Bytes) : Option PromiseBatch :=
  match spec.splitOn 0x1f with
  | [account, method, creator, args] =>
      some { deps := [], account, creator, actions := [.fnCall method args 0 ⟨0, u128_pos⟩],
             isYield := true }
  | _ => none

/-- The yield as it was persisted by the transaction that made it. -/
def persistedYield (idx : Nat) : Run (Option PromiseBatch) := do
  let stored ← storedMarker (yieldKey idx)
  pure (stored.bind parseYield)

/-- The yield, and whether it is in the DAG. -/
def findYield (idx : Nat) : Run (Option (PromiseBatch × Bool)) := do
  match (← getBatch idx).filter PromiseBatch.isYield with
  | some batch => pure (some (batch, true))
  | none =>
      let stored ← persistedYield idx
      pure (stored.map fun batch => (batch, false))

def fireJoin (calls : Calls) (j : Nat) : Run Unit := do
  markExecuted j
  let _ ← Eff.attempt isErr (calls.executePromise j)

/-- Fires joins that wait in this transaction. -/
def fireJoins (calls : Calls) : List Nat → Run Unit
  | [] => pure ()
  | j :: rest => do
      yieldJoinsTake j
      fireJoin calls j
      fireJoins calls rest

/-- Runs a callback with one result published. -/
def runCallback (chain : Chain) (calls : Calls) (account : AccountId) (method args : Bytes)
    (creator : AccountId) (result : Bytes) : Run Unit := do
  let saved ← replaceResults [some result]
  let _ ← Eff.attempt isErr
    (subExecute chain calls.yieldResume account method args creator ⟨0, u128_pos⟩)
  setResults saved

def isExecuted (idx : Nat) : Run Bool := do
  let t ← get
  pure (decide (idx ∈ t.executed))

/-- What a join is told: the text of a result envelope, or the payload as it is. -/
def joinResult (chain : Chain) (payload : Bytes) : Bytes :=
  (chain.outputText payload).getD payload

/-- The join's callback runs, unless the join has run in this transaction. -/
def deliverJoin (chain : Chain) (calls : Calls) (idx : Nat) (payload : Bytes) (j : Nat)
    (details : JoinDetails) : Run Unit := do
  note (.turn idx j)
  yieldJoinsPersistTake j
  yieldJoinsTake j
  let fired ← isExecuted j
  if fired then note (.skipped idx j)
  else
    note (.delivered idx j payload (joinResult chain payload))
    runCallback chain calls details.account details.method details.args details.account
      (joinResult chain payload)

/-- Delivers the payload to the joins whose details are persisted. -/
def deliverJoins (chain : Chain) (calls : Calls) (idx : Nat) (payload : Bytes) :
    List (Nat × JoinDetails) → Run Unit
  | [] => pure ()
  | (j, details) :: rest => do
      deliverJoin chain calls idx payload j details
      deliverJoins chain calls idx payload rest

def ownerOf (idx : Nat) : Run (Option Nat) := do
  match ← yieldOwnerOf idx with
  | some owner => pure (some owner)
  | none =>
      let stored ← storedMarker (yieldOwnerKey idx)
      pure (stored.bind parseUsize)

def joinsToFire (idx : Nat) : Run (List Nat) := do
  let dag ← enumerateDag
  let waiting ← joinsWaitingOn idx dag
  match ← ownerOf idx with
  | none => pure (sortDedup waiting)
  | some owner =>
      let others ← ownerJoins owner
      pure (sortDedup (waiting ++ others))

/-- The yield a data id names. -/
def lookupYield (dataId : Bytes) : Run (Option (Nat × PromiseBatch × Bool)) := do
  let idx ← resumeIndex dataId
  let found ← findYield idx
  pure (found.map fun entry => (idx, entry))

/-- The joins of a resumed yield: those of this transaction fire, the others get the payload. -/
def settleJoins (chain : Chain) (calls : Calls) (idx : Nat) (payload : Bytes) : Run Unit := do
  let joins ← joinsToFire idx
  note (.firesJoins joins)
  fireJoins calls joins
  let pending ← pendingJoins chain
  note (.deliversJoins idx (pending.map Prod.fst))
  deliverJoins chain calls idx payload pending

/-- Runs the yield's callback, takes its entry away, and settles its joins. -/
def finishResume (chain : Chain) (calls : Calls) (idx : Nat) (batch : PromiseBatch)
    (method args payload : Bytes) : Run HostResult := do
  runCallback chain calls batch.account method args batch.creator payload
  move (.put (yieldKey idx) none)
  settleJoins chain calls idx payload
  reply 1

def resumeYield (chain : Chain) (calls : Calls) (idx : Nat) (batch : PromiseBatch) (own : Bool)
    (method args payload : Bytes) : Run HostResult := do
  note (.resumed idx own payload)
  finishResume chain calls idx batch method args payload

/-- Method and arguments of the callback a yield was made with. -/
def callbackOf (batch : PromiseBatch) : Option (Bytes × Bytes) :=
  match batch.actions.head? with
  | some (.fnCall method args _ _) => some (method, args)
  | _ => none

def yieldResume (chain : Chain) (calls : Calls) (dataId payload : Bytes) : Run HostResult := do
  match ← lookupYield dataId with
  | none => reply 0
  | some (idx, batch, own) =>
      match callbackOf batch with
      | none => reply 0
      | some (method, args) => resumeYield chain calls idx batch own method args payload

/-- The engine with its recursive calls bounded in depth. -/
def calls (chain : Chain) : Nat → Calls
  | 0 =>
      { executePromise := fun _ => throw .outOfFuel
        yieldResume := fun _ _ => throw .outOfFuel }
  | fuel + 1 =>
      { executePromise := executePromise chain (calls chain fuel)
        yieldResume := yieldResume chain (calls chain fuel) }

end LispRlm.NearMock
