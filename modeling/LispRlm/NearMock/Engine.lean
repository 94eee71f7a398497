import LispRlm.Foundation.Effect
import LispRlm.NearMock.Value

/-! The state of the promise engine and the guests it runs.

A guest is the tree of its host calls: a node names a host, and the subtree that follows depends
on what the host replied. Linear memory stays inside the tree, so a host call carries the bytes
it reads, and gas is the guest's own account of what the hosts charged it. -/

namespace LispRlm.NearMock

open Foundation

inductive PAction
  | fnCall (method args : Bytes) (gas : Nat) (dep : Amount)
  | transfer (amount : Amount)
  | stake (amount : Amount)
  | addKey (pk : Bytes)
  | deleteKey (pk : Bytes)
  | deleteAccount (beneficiary : AccountId)
  | transferToGasKey (amount : Amount)
  | addGasKey (pk : Bytes)
  | deployGlobalContract (code : Bytes)
  | useGlobalContract (accountId : AccountId)
  deriving DecidableEq

structure PromiseBatch where
  deps : List Nat
  account : AccountId
  creator : AccountId
  actions : List PAction
  isYield : Bool
  deriving DecidableEq

structure ExecCtx where
  input : Bytes
  signer : AccountId
  predecessor : AccountId
  contract : AccountId
  view : Bool
  deriving DecidableEq

/-- One result for each action that ran: `none` is a failed receipt. -/
abbrev Results := List (Option Bytes)

/-- The places of a thread that outlive a transaction, besides the contracts' entries. -/
inductive Cell
  /-- A marker of the engine in the store. -/
  | entry (key : Bytes)
  /-- A mark in `YIELD_JOINS`. -/
  | mark (idx : Nat)
  /-- The owner of a yield in `YIELD_OWNER`. -/
  | owner (idx : Nat)
  /-- A trie key that counts as cached. -/
  | node (key : Bytes)
  deriving DecidableEq

/-- What the run of a transaction leaves in its journal. The engine never reads it. -/
inductive Event
  /-- The store moves by `step`, from `before`. -/
  | moved (step : ValueStep) (before : Storage)
  | pushed (idx : Nat) (deps : List Nat) (isYield : Bool)
  /-- `execute_promise` has no memo for the batch. -/
  | entered (idx : Nat)
  | replayed (idx : Nat)
  | deferred (idx : Nat)
  | forced (idx : Nat)
  | inert (idx : Nat)
  /-- The batch's actions are about to run, with these results of its dependencies. -/
  | ran (idx : Nat) (results : Results)
  | resolved (idx : Nat) (out : Results)
  /-- A resume is about to run the yield's callback; `own` yields are found in the DAG. -/
  | resumed (idx : Nat) (own : Bool) (payload : Bytes)
  /-- The joins a resume fires, and those it delivers the payload to. -/
  | firesJoins (joins : List Nat)
  | deliversJoins (idx : Nat) (joins : List Nat)
  /-- The turn of the join `j` comes in the resume of `idx`. -/
  | turn (idx j : Nat)
  /-- The join's callback is about to run, with this result of its dependency. -/
  | delivered (idx j : Nat) (payload result : Bytes)
  | skipped (idx j : Nat)
  | read (cell : Cell)
  | wrote (cell : Cell)
  /-- The yields of these owners are read. -/
  | readYieldsOf (owners : List Nat)
  /-- All joins are read: those in the store, and with an owner the marks and its yields too. -/
  | listedJoins (owner : Option Nat)
  /-- The store goes back to a copy. -/
  | rolledBack (copy : Storage)
  /-- A module could not be instantiated. -/
  | engineFailed

structure Thread where
  -- the shared `MockState`
  storage : Storage
  registers : FMap Nat Bytes := ∅
  returnData : Option Bytes := none
  view : Bool := false
  touched : List Bytes := []
  -- thread-locals of the driver
  execCtx : Option ExecCtx := none
  currentDeposit : Option Amount := none
  dag : List PromiseBatch := []
  executed : List Nat := []
  consumed : List Nat := []
  promiseResults : Results := []
  pendingReturn : Option Nat := none
  logLines : List Bytes := []
  deferReceipts : Bool := false
  receiptQueue : List PromiseBatch := []
  -- thread-locals of the promise engine
  outcomes : FMap Nat Results := ∅
  receiptTraps : List Bytes := []
  failReceipts : List Nat := []
  yieldJoins : List Nat := []
  currentBatch : Option Nat := none
  yieldOwner : FMap Nat Nat := ∅
  journal : List Event := []

/-- Why a run of the engine stops before its end. -/
inductive Stop
  /-- A driver error, the `Err` of the engine's functions. -/
  | err (why : Bytes)
  | panic
  | outOfFuel
  deriving DecidableEq

abbrev Run := Eff Thread Stop

/-- Only driver errors are caught. -/
def isErr : Stop → Bool
  | .err _ => true
  | _ => false

/-! ### Guests -/

/-- A function call as a promise host receives it. -/
structure CallSpec where
  account : AccountId
  method : Bytes
  args : Bytes
  gas : Nat
  dep : Amount
  deriving DecidableEq

inductive HostCall
  | readRegister (rid : Nat)
  | registerLen (rid : Nat)
  | writeRegister (rid : Nat) (data : Bytes)
  | input (rid : Nat)
  | currentAccountId (rid : Nat)
  | signerAccountId (rid : Nat)
  | predecessorAccountId (rid : Nat)
  | storageWrite (key value : Bytes) (rid : Nat)
  | storageRead (key : Bytes) (rid : Nat)
  | storageRemove (key : Bytes) (rid : Nat)
  | storageHasKey (key : Bytes)
  | valueReturn (data : Bytes)
  | logUtf8 (message : Bytes)
  | blockTimestamp
  | accountBalance
  | accountLockedBalance
  | attachedDeposit
  | storageUsage
  | promiseCreate (call : CallSpec)
  /-- The handle is consumed before the rest is read: `none` where that read fails. -/
  | promiseThen (idx : Nat) (call : Option CallSpec)
  | promiseAnd (idxs : List Nat)
  | promiseResultsCount
  | promiseResult (idx rid : Nat)
  | promiseReturn (idx : Nat)
  | promiseBatchCreate (account : AccountId)
  | promiseBatchThen (idx : Nat) (account : Option AccountId)
  | promiseBatchAction (idx : Nat) (action : PAction)
  | promiseYieldCreate (method args : Bytes) (gas rid : Nat)
  | promiseYieldResume (dataId payload : Bytes)

/-- What a guest learns from a host call. -/
structure HostReply where
  /-- The result, or the amount a host writes to memory. -/
  value : Int := 0
  data : Bytes := []
  /-- Length of the entry that was charged for. -/
  size : Nat := 0
  /-- Trie nodes that were charged for. -/
  trieNodes : Nat := 0

/-- How an instance is left: gas it burned and its memory. -/
structure Halt where
  gas : Nat
  memory : Bytes

inductive Guest
  | done (halt : Halt)
  | trap (why : Bytes) (halt : Halt)
  /-- `failed` is how the instance is left when the host call errs, which traps it. -/
  | call (host : HostCall) (failed : Halt) (next : HostReply → Guest)

structure Module where
  /-- All imports resolve. -/
  instantiable : Bool
  start : Option Guest
  /-- The exported methods, given how the start function left the instance. -/
  method : Bytes → Option (Halt → Guest)

/-- Details of a join as they are persisted. -/
structure JoinDetails where
  account : AccountId
  method : Bytes
  args : Bytes
  dep : Nat
  deriving DecidableEq

/-- What stays fixed while transactions run: the contracts, the settings, and the libraries the
mock calls (SHA-256 and JSON). -/
structure Chain where
  modules : AccountId → Option Module
  clock : Int
  staking : Bool
  trieWalkNodes : Nat
  prepaid : Nat
  sha256 : Bytes → Bytes
  encodeJoin : JoinDetails → Bytes
  decodeJoin : Bytes → Option JoinDetails
  /-- `v["output"]["Text"]` of a JSON text. -/
  outputText : Bytes → Option Bytes

inductive Exit
  | returned (halt : Halt)
  | trapped (why : Bytes) (halt : Halt)

def Exit.halt : Exit → Halt
  | .returned halt => halt
  | .trapped _ halt => halt

/-! ### Steps every part of the engine uses -/

def note (e : Event) : Run Unit :=
  modify fun t => { t with journal := t.journal ++ [e] }

/-- The only way a receipt changes the store. -/
def move (step : ValueStep) : Run Unit :=
  modify fun t => { t with
    storage := step.apply t.storage
    journal := t.journal ++ [.moved step t.storage] }

def moveIf (c : Prop) [Decidable c] (step : ValueStep) : Run Unit :=
  if c then move step else pure ()

def execCtxOrDefault (t : Thread) : ExecCtx :=
  t.execCtx.getD
    { input := ascii "{}"
      signer := ascii "owner.test.near"
      predecessor := ascii "owner.test.near"
      contract := []
      view := false }

def execCtxView (t : Thread) : Bool :=
  (t.execCtx.map ExecCtx.view).getD t.view

end LispRlm.NearMock
