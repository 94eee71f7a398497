import LispRlm.Bytecode.Values
import LispRlm.Foundation.WeightedMap

/-! The call that `near/promise_then` makes into a registered contract. -/

namespace LispRlm.Bytecode

open LispRlm.Foundation

namespace CrossContract

structure NearContract where
  entry : LispVal
  storage : FMap String LispVal := ∅

/-- `EvalState`; what the operation does not touch itself is in `rest`. -/
structure State (ρ : Type) where
  storage : FMap String LispVal := ∅
  context : FMap String LispVal := ∅
  promises : List LispVal := []
  promiseIdx : Int64 := 0
  promiseResults : List String := []
  batchActions : List LispVal := []
  contracts : FMap String NearContract := ∅
  returnValue : Option LispVal := none
  rest : ρ

/-! ### The arguments -/

/-- `f as i64`: towards zero, kept between the bounds, and zero for what is not a number. -/
def floatToInt64 (bits : UInt64) : Int64 :=
  let exponent := bits.toNat / 2 ^ 52 % 2 ^ 11
  let fraction := bits.toNat % 2 ^ 52
  let mantissa := if exponent = 0 then fraction else fraction + 2 ^ 52
  let whole := mantissa * 2 ^ (max exponent 1) / 2 ^ 1075
  if exponent = 2047 ∧ fraction ≠ 0 then 0
  else if bits.toNat / 2 ^ 63 = 1 then Int64.ofInt (-(min whole (2 ^ 63) : Nat))
  else Int64.ofInt (min whole (2 ^ 63 - 1) : Nat)

def extractNum (args : List LispVal) (idx : Nat) : Except String Int64 :=
  match args[idx]? with
  | some (.num n) => .ok n
  | some (.float bits) => .ok (floatToInt64 bits)
  | some v => .error ("expected number at index " ++ toString idx ++ ", got " ++ display v)
  | none => .error ("expected number at index " ++ toString idx ++ ", got none")

def keyOf (args : List LispVal) (i : Nat) : String :=
  match args[i]? with
  | some (.str s) => s
  | some v => display v
  | none => ""

def depositOf (args : List LispVal) (i : Nat) : String :=
  match args[i]? with
  | some (.str s) => s
  | some (.num n) => toString n.toInt
  | _ => "0"

/-! ### The operation -/

section Call

variable {ρ : Type} (call : LispVal → State ρ → Except String LispVal × State ρ)
variable (args : List LispVal) (s : State ρ)

def baseIdx : Int64 := (extractNum args 0).toOption.getD 0

def target : String := keyOf args 1

/-- The entry of the log of promises. -/
def record : LispVal :=
  .map [("type", .str "then"), ("idx", .num s.promiseIdx), ("base", .num (baseIdx args)),
    ("target", .str (target args)), ("method", .str (keyOf args 2)),
    ("args", .str (keyOf args 3)),
    ("gas", .num ((extractNum args 5).toOption.getD 30000000000000)),
    ("deposit", .str (depositOf args 4))]

/-- `base_idx as usize` is past the end for a negative number. -/
def baseResult : String := (s.promiseResults[(baseIdx args).toUInt64.toNat]?).getD ""

/-- The state with the promise logged. -/
def booked : State ρ :=
  { s with promises := s.promises ++ [record args s], promiseIdx := s.promiseIdx + 1 }

/-- The state in which the entry of `contract` runs. -/
def entered (contract : NearContract) : State ρ :=
  let callerAcct := (s.context.lookup "current_account_id").getD (.str "unknown.near")
  { booked args s with
    contracts := s.contracts.insert (target args) { contract with storage := ∅ }
    storage := contract.storage
    context := ((s.context.insert "current_account_id" (.str (target args))).insert
      "predecessor_account_id" callerAcct).insert "input" (.str (baseResult args s))
    returnValue := none
    promises := []
    batchActions := [] }

/-- `near_promise_results[idx] = result`, after the list is filled up to there. -/
def putResult (results : List String) (idx : Nat) (result : String) : List String :=
  (results ++ List.replicate (idx + 1 - results.length) "").set idx result

def resultText : Except String LispVal → Option LispVal → String
  | _, some (.str s) => s
  | _, some v => display v
  | .ok v, none => display v
  | .error _, none => ""

/-- What is put back after the entry of the target returned `result` in the state `after`. -/
def left (result : Except String LispVal) (after : State ρ) : State ρ :=
  { after with
    contracts := match after.contracts.lookup (target args) with
      | some c => after.contracts.insert (target args) { c with storage := after.storage }
      | none => after.contracts
    storage := s.storage
    context := s.context
    promises := (booked args s).promises
    batchActions := s.batchActions
    promiseIdx := (booked args s).promiseIdx
    returnValue := none
    promiseResults := putResult after.promiseResults s.promiseIdx.toUInt64.toNat
      (resultText result after.returnValue) }

/-- `near/promise_then`, where `call` is `vm_call_lambda` without arguments. The program stops where
the counter of promises overflows. -/
def promiseThen : Option (LispVal × State ρ) :=
  if s.promiseIdx = Int64.maxValue then none
  else if baseResult args s = "" then some (.num s.promiseIdx, booked args s)
  else match s.contracts.lookup (target args) with
    | none => some (.num s.promiseIdx, booked args s)
    | some contract =>
      let (result, after) := call contract.entry (entered args s contract)
      some (.num s.promiseIdx, left args s result after)

/-! ### Isolation -/

def storageOf (account : String) (s : State ρ) : Option (FMap String LispVal) :=
  (s.contracts.lookup account).map (·.storage)

/-- The caller finds what it had, with the promise logged, and its target keeps what its entry
made of its storage, or the storage itself where the entry failed. -/
structure Isolated (s' : State ρ) : Prop where
  storage : s'.storage = s.storage
  context : s'.context = s.context
  promises : s'.promises = s.promises ++ [record args s]
  batchActions : s'.batchActions = s.batchActions
  promiseIdx : s'.promiseIdx = s.promiseIdx + 1
  returnValue : s'.returnValue = s.returnValue
  unentered : baseResult args s = "" → s'.contracts = s.contracts
  succeeded : ∀ contract v after, s.contracts.lookup (target args) = some contract →
    baseResult args s ≠ "" →
    call contract.entry (entered args s contract) = (.ok v, after) →
    storageOf (target args) s' = (storageOf (target args) after).map fun _ => after.storage
  failed : ∀ contract e after, s.contracts.lookup (target args) = some contract →
    baseResult args s ≠ "" →
    call contract.entry (entered args s contract) = (.error e, after) →
    storageOf (target args) s' = some contract.storage

/-- An entry that fails leaves its account registered and its storage as it found it. -/
def FailsClean (contract : NearContract) : Prop :=
  ∀ e after, call contract.entry (entered args s contract) = (.error e, after) →
    storageOf (target args) after ≠ none ∧ after.storage = contract.storage

theorem entered_storage (contract : NearContract) :
    (entered args s contract).storage = contract.storage := rfl

theorem storageOf_left (result : Except String LispVal) (after : State ρ) :
    storageOf (target args) (left args s result after) =
      (storageOf (target args) after).map fun _ => after.storage := by
  unfold storageOf left
  cases registered : after.contracts.lookup (target args) with
  | none => simp only [registered, Option.map_none]
  | some c => simp only [AList.lookup_insert, Option.map_some]

/-- A call is the only way in which more than the log changes. -/
theorem promiseThen_cases {val : LispVal} {s' : State ρ}
    (run : promiseThen call args s = some (val, s')) :
    (s' = booked args s ∧ (baseResult args s = "" ∨ s.contracts.lookup (target args) = none)) ∨
      ∃ contract result after, baseResult args s ≠ "" ∧
        s.contracts.lookup (target args) = some contract ∧
        call contract.entry (entered args s contract) = (result, after) ∧
        s' = left args s result after := by
  unfold promiseThen at run
  split at run
  · cases run
  · split at run
    · rename_i empty
      cases run
      exact .inl ⟨rfl, .inl empty⟩
    · rename_i full
      split at run
      · rename_i missing
        cases run
        exact .inl ⟨rfl, .inr missing⟩
      · rename_i contract registered
        cases run
        exact .inr ⟨contract, _, _, full, registered, rfl, rfl⟩

theorem promiseThen_call {contract : NearContract} (room : s.promiseIdx ≠ Int64.maxValue)
    (full : baseResult args s ≠ "")
    (registered : s.contracts.lookup (target args) = some contract) :
    promiseThen call args s = some (.num s.promiseIdx,
      left args s (call contract.entry (entered args s contract)).1
        (call contract.entry (entered args s contract)).2) := by
  rw [promiseThen, if_neg room, if_neg full, registered]

/-- Without a call there is nothing to keep apart. -/
theorem booked_isolated
    (idle : baseResult args s = "" ∨ s.contracts.lookup (target args) = none) :
    Isolated call args s (booked args s) where
  storage := rfl
  context := rfl
  promises := rfl
  batchActions := rfl
  promiseIdx := rfl
  returnValue := rfl
  unentered _ := rfl
  succeeded contract _ _ registered full _ := by
    rcases idle with empty | missing
    · exact absurd empty full
    · cases missing.symm.trans registered
  failed contract _ _ registered full _ := by
    rcases idle with empty | missing
    · exact absurd empty full
    · cases missing.symm.trans registered

theorem storageOf_left_eq_some {result : Except String LispVal} {after : State ρ}
    {storage : FMap String LispVal} :
    storageOf (target args) (left args s result after) = some storage ↔
      storageOf (target args) after ≠ none ∧ after.storage = storage := by
  rw [storageOf_left]
  cases storageOf (target args) after with
  | none => simp only [Option.map_none, reduceCtorEq, ne_eq, not_true_eq_false, false_and]
  | some _ =>
    simp only [Option.map_some, Option.some.injEq, ne_eq, reduceCtorEq, not_false_eq_true,
      true_and]

/-- The caller loses what it was about to return, and a failed entry what protects its storage. -/
theorem left_isolated_iff {contract : NearContract} {result : Except String LispVal}
    {after : State ρ} (full : baseResult args s ≠ "")
    (registered : s.contracts.lookup (target args) = some contract)
    (ran : call contract.entry (entered args s contract) = (result, after)) :
    Isolated call args s (left args s result after) ↔
      s.returnValue = none ∧ FailsClean call args s contract := by
  constructor
  · intro isolated
    refine ⟨isolated.returnValue.symm, fun e after' failing => ?_⟩
    have kept := isolated.failed contract e after' registered full failing
    cases ran.symm.trans failing
    exact (storageOf_left_eq_some args s).mp kept
  · rintro ⟨unreturned, clean⟩
    exact {
      storage := rfl
      context := rfl
      promises := rfl
      batchActions := rfl
      promiseIdx := rfl
      returnValue := unreturned.symm
      unentered := fun empty => absurd empty full
      succeeded := by
        intro other v after' registered' _ ran'
        cases registered.symm.trans registered'
        cases ran.symm.trans ran'
        exact storageOf_left args s _ _
      failed := by
        intro other e after' registered' _ failing
        cases registered.symm.trans registered'
        have kept := clean e after' failing
        cases ran.symm.trans failing
        exact (storageOf_left_eq_some args s).mpr kept }

/-- A call is isolated when the caller has set no value to return, and an entry that fails has
written nothing. -/
theorem isolated_iff {val : LispVal} {s' : State ρ}
    (run : promiseThen call args s = some (val, s')) :
    Isolated call args s s' ↔
      baseResult args s = "" ∨ s.contracts.lookup (target args) = none ∨
        ∃ contract, s.contracts.lookup (target args) = some contract ∧ s.returnValue = none ∧
          FailsClean call args s contract := by
  rcases promiseThen_cases call args s run with
    ⟨rfl, idle⟩ | ⟨contract, result, after, full, registered, ran, rfl⟩
  · have isolated := booked_isolated call args s idle
    constructor
    · intro _
      rcases idle with empty | missing
      · exact .inl empty
      · exact .inr (.inl missing)
    · exact fun _ => isolated
  · have both := left_isolated_iff call args s full registered ran
    constructor
    · intro isolated
      have ⟨unreturned, clean⟩ := both.mp isolated
      exact .inr (.inr ⟨contract, registered, unreturned, clean⟩)
    · rintro (empty | missing | ⟨other, registered', unreturned, clean⟩)
      · exact absurd empty full
      · cases missing.symm.trans registered
      · cases registered.symm.trans registered'
        exact both.mpr ⟨unreturned, clean⟩

end Call

/-! ### Two calls that are not isolated -/

def thenArgs : List LispVal :=
  [.num 0, .str "b.near", .str "run", .str "", .str "0", .num 1]

/-- A caller with a result for its base promise and a registered target. -/
def caller (entry : LispVal) (returnValue : Option LispVal) : State Unit where
  promiseResults := ["1"]
  promiseIdx := 1
  contracts := (∅ : FMap String NearContract).insert "b.near" { entry := entry }
  returnValue := returnValue
  rest := ()

/-- `(lambda () 1)` -/
def one : LispVal := .lambda [] none (.num 1) []

def runOne (_ : LispVal) (s : State Unit) : Except String LispVal × State Unit := (.ok (.num 1), s)

/-- `(lambda () (begin (near/store "k" 1) (error "stop")))` -/
def storeAndStop : LispVal :=
  .lambda [] none (.list [.sym "begin", .list [.sym "near/store", .str "k", .num 1],
    .list [.sym "error", .str "stop"]]) []

def runStoreAndStop (_ : LispVal) (s : State Unit) : Except String LispVal × State Unit :=
  (.error "stop", { s with storage := s.storage.insert "k" (.num 1) })

section Caller

variable (entry : LispVal) (returnValue : Option LispVal)

theorem caller_full : baseResult thenArgs (caller entry returnValue) ≠ "" := by
  have one : baseResult thenArgs (caller entry returnValue) = "1" := rfl
  rw [one]
  decide

theorem caller_registered :
    (caller entry returnValue).contracts.lookup (target thenArgs) = some { entry := entry } :=
  AList.lookup_insert _

end Caller

theorem isolated_of_quiet_caller :
    Isolated runOne thenArgs (caller one none)
      (left thenArgs (caller one none) (.ok (.num 1))
        (entered thenArgs (caller one none) { entry := one })) :=
  (isolated_iff runOne thenArgs (caller one none)
    (promiseThen_call runOne thenArgs (caller one none) (by decide) (caller_full one none)
      (caller_registered one none))).mpr
    (.inr (.inr ⟨_, caller_registered one none, rfl, fun _ _ failing => by cases failing⟩))

/-- The caller's value is lost, and what a failing entry wrote is kept. -/
theorem calls_interfere :
    ∃ s₁ s₂, promiseThen runOne thenArgs (caller one (some (.str "mine"))) = some (.num 1, s₁) ∧
      ¬ Isolated runOne thenArgs (caller one (some (.str "mine"))) s₁ ∧
      promiseThen runStoreAndStop thenArgs (caller storeAndStop none) = some (.num 1, s₂) ∧
      ¬ Isolated runStoreAndStop thenArgs (caller storeAndStop none) s₂ := by
  refine ⟨_, _, promiseThen_call runOne thenArgs _ (by decide) (caller_full _ _)
      (caller_registered _ _), ?_,
    promiseThen_call runStoreAndStop thenArgs _ (by decide) (caller_full _ _)
      (caller_registered _ _), ?_⟩
  · intro isolated
    cases isolated.returnValue
  · intro isolated
    have kept := isolated.failed _ "stop" _ (caller_registered storeAndStop none)
      (caller_full storeAndStop none) rfl
    have same := ((storageOf_left_eq_some thenArgs (caller storeAndStop none)).mp kept).2
    have found := congrArg (AList.lookup "k") same
    cases (AList.lookup_insert _).symm.trans found

end CrossContract
end LispRlm.Bytecode
