import LispRlm.Bytecode.Values
import LispRlm.Foundation.Labelling
import Mathlib.Data.List.Basic

/-! The verifier of compiled lambdas: what it accepts before a lambda is run. -/

namespace LispRlm.Bytecode.Verifier

/-! ### Compiled lambdas -/

inductive BinOp
  | add | sub | mul | div | mod | eq | lt | le | gt | ge

inductive Ty
  | i64 | f64 | u64

/-- The instructions of the machine; the bits of a float stand for it. -/
inductive Op
  | loadSlot (s : Nat)
  | pushI64 (n : Int64)
  | pushU64 (n : UInt64)
  | pushFloat (bits : UInt64)
  | pushBool (b : Bool)
  | pushStr (s : String)
  | pushNil
  | makeList (n : Nat)
  | dup
  | pop
  | storeSlot (s : Nat)
  | add | sub | mul | div | mod
  | eq | lt | le | gt | ge
  | not
  | jumpIfTrue (target : Nat)
  | jumpIfFalse (target : Nat)
  | jump (target : Nat)
  | ret
  | recur (n : Nat)
  | builtinCall (name : String) (nargs : Nat)
  | slotAddImm (s : Nat) (imm : Int64)
  | slotSubImm (s : Nat) (imm : Int64)
  | slotMulImm (s : Nat) (imm : Int64)
  | slotDivImm (s : Nat) (imm : Int64)
  | slotEqImm (s : Nat) (imm : Int64)
  | slotLtImm (s : Nat) (imm : Int64)
  | slotLeImm (s : Nat) (imm : Int64)
  | slotGtImm (s : Nat) (imm : Int64)
  | slotGeImm (s : Nat) (imm : Int64)
  | recurDirect (n : Nat)
  | jumpIfSlotLtImm (s : Nat) (imm : Int64) (target : Nat)
  | jumpIfSlotLeImm (s : Nat) (imm : Int64) (target : Nat)
  | jumpIfSlotGtImm (s : Nat) (imm : Int64) (target : Nat)
  | jumpIfSlotGeImm (s : Nat) (imm : Int64) (target : Nat)
  | jumpIfSlotEqImm (s : Nat) (imm : Int64) (target : Nat)
  | recurIncAccum (counter accum : Nat) (step limit : Int64) (exitAddr : Nat)
  | callCaptured (slot nargs : Nat)
  | loadCaptured (idx : Nat)
  | storeCaptured (idx : Nat)
  | loadGlobal (name : String)
  | storeGlobal (name : String)
  | callCapturedRef (idx nargs : Nat)
  | pushSelf
  | pushClosure (idx : Nat)
  | tracePush (name : String)
  | tracePop
  | dictGet
  | dictSet
  | dictMutSet (s : Nat)
  | callSelf (nargs : Nat)
  | callDynamic (nargs : Nat)
  | getDefaultSlot (map key default result : Nat)
  | storeAndLoadSlot (s : Nat)
  | returnSlot (s : Nat)
  | typedBinOp (op : BinOp) (ty : Ty)
  | pushBuiltin (name : String)
  | pushLiteral (v : LispVal)
  | constructTag (typeName : String) (variantId : UInt16) (nFields : UInt8)
  | tagTest (typeName : String) (variantId : UInt16)
  | getField (idx : UInt8)
  | mapOp (s : Nat)
  | filterOp (s : Nat)
  | reduceOp (s : Nat)
  | makeVec (n : Nat)
  | vecNth | vecAssoc | vecLen | vecConj | vecContains | vecSlice
  | u64MulHi | u64And | u64Or | u64Xor | u64Shr | u64Shl | u64Not

/-- The fields of a compiled lambda that the verifier reads. -/
inductive CompiledLambda
  | mk (code : List Op) (totalSlots : Nat) (closures : List CompiledLambda)

def CompiledLambda.code : CompiledLambda → List Op
  | .mk code _ _ => code

def CompiledLambda.totalSlots : CompiledLambda → Nat
  | .mk _ totalSlots _ => totalSlots

def CompiledLambda.closures : CompiledLambda → List CompiledLambda
  | .mk _ _ closures => closures

structure VerificationError where
  message : String
  offset : Option Nat
  pass : String

abbrev VResult := Except VerificationError Unit

/-- The first error of a pass that looks at each instruction. -/
def eachOp (check : Nat → Op → Option VerificationError) (code : List Op) : VResult :=
  match code.zipIdx.findSome? fun p => check p.2 p.1 with
  | some e => .error e
  | none => .ok ()

def refuseWhen (refused : Prop) [Decidable refused] (e : VerificationError) :
    Option VerificationError :=
  if refused then some e else none

/-! ### Hard limits -/

def maxCodeSize : Nat := 100000

def maxStackDepth : Nat := 10000

def maxSlots : Nat := 10000

def maxClosures : Nat := 1000

def maxClosureDepth : Nat := 64

def verifyLimits (cl : CompiledLambda) : VResult :=
  if maxCodeSize < cl.code.length then
    .error ⟨s!"code size {cl.code.length} exceeds limit {maxCodeSize}", none, "limits"⟩
  else if maxSlots < cl.totalSlots then
    .error ⟨s!"slot count {cl.totalSlots} exceeds limit {maxSlots}", none, "limits"⟩
  else if maxClosures < cl.closures.length then
    .error ⟨s!"closure count {cl.closures.length} exceeds limit {maxClosures}", none, "limits"⟩
  else .ok ()

/-! ### Control flow -/

def controlFlowCheck (len i : Nat) : Op → Option VerificationError
  | .jump target | .jumpIfTrue target | .jumpIfFalse target =>
      refuseWhen (len ≤ target)
        ⟨s!"branch target {target} out of bounds (code_len={len})", some i, "control_flow"⟩
  | .recurIncAccum _ _ _ _ exitAddr =>
      refuseWhen (len ≤ exitAddr)
        ⟨s!"RecurIncAccum exit target {exitAddr} out of bounds (code_len={len})", some i,
          "control_flow"⟩
  | .jumpIfSlotLtImm _ _ target | .jumpIfSlotLeImm _ _ target | .jumpIfSlotGtImm _ _ target
  | .jumpIfSlotGeImm _ _ target | .jumpIfSlotEqImm _ _ target =>
      refuseWhen (len ≤ target)
        ⟨s!"JumpIfSlot*Imm target {target} out of bounds (code_len={len})", some i,
          "control_flow"⟩
  | _ => none

def verifyControlFlow (code : List Op) : VResult :=
  eachOp (controlFlowCheck code.length) code

/-! ### Slot bounds -/

def slotError (i : Nat) (message : String) : VerificationError :=
  ⟨message, some i, "slot_bounds"⟩

def slotCheck (slotsLen i : Nat) : Op → Option VerificationError
  | .loadSlot s | .storeSlot s | .returnSlot s | .storeAndLoadSlot s | .dictMutSet s
  | .recurDirect s
  | .slotAddImm s _ | .slotSubImm s _ | .slotMulImm s _ | .slotDivImm s _ | .slotEqImm s _
  | .slotLtImm s _ | .slotLeImm s _ | .slotGtImm s _ | .slotGeImm s _
  | .jumpIfSlotLtImm s _ _ | .jumpIfSlotLeImm s _ _ | .jumpIfSlotGtImm s _ _
  | .jumpIfSlotGeImm s _ _ | .jumpIfSlotEqImm s _ _ =>
      refuseWhen (slotsLen ≤ s)
        (slotError i s!"slot index {s} out of bounds (slots_len={slotsLen})")
  | .recurIncAccum counter accum _ _ _ =>
      (refuseWhen (slotsLen ≤ counter) (slotError i
        s!"RecurIncAccum counter slot {counter} out of bounds (slots_len={slotsLen})")).or
      (refuseWhen (slotsLen ≤ accum) (slotError i
        s!"RecurIncAccum accum slot {accum} out of bounds (slots_len={slotsLen})"))
  | .getDefaultSlot a b c d =>
      [("map", a), ("key", b), ("default", c), ("result", d)].findSome? fun p =>
        refuseWhen (slotsLen ≤ p.2) (slotError i
          s!"GetDefaultSlot {p.1} slot {p.2} out of bounds (slots_len={slotsLen})")
  | .mapOp s | .filterOp s | .reduceOp s =>
      refuseWhen (slotsLen ≤ s)
        (slotError i s!"fused HOF slot {s} out of bounds (slots_len={slotsLen})")
  | .recur n =>
      refuseWhen (slotsLen < n)
        (slotError i s!"Recur({n}) requires {n} slots but only {slotsLen} available")
  | _ => none

def verifySlotIndices (code : List Op) (slotsLen : Nat) : VResult :=
  eachOp (slotCheck slotsLen) code

/-! ### Instruction consistency -/

def knownBuiltins : List String :=
  ["abs", "inc", "dec", "sqrt", "pow", "mod", "remainder", "car", "cdr", "cons", "list", "length",
    "len", "append", "reverse", "take", "drop", "last", "butlast", "range", "nth", "first",
    "rest", "to-string", "str", "str-concat", "str-length", "str-split", "str-contains",
    "string-append", "substring", "json-decode-bytes", "to-int", "to-float", "integer", "float",
    "boolean", "dict/get", "dict-ref", "dict/set", "dict-set", "not", "error", "apply", "eval",
    "doc", "now", "elapsed", "storage-write", "storage_write", "storage-read", "storage_read",
    "storage-remove", "storage_remove", "storage-has-key", "storage_has_key",
    "storage-iter-prefix", "storage_iter_prefix", "storage-iter-next", "storage_iter_next",
    "block-height", "block_height", "block-timestamp", "block_timestamp", "signer-account-id",
    "signer_account_id", "predecessor-account-id", "predecessor_account_id", "current-account-id",
    "current_account_id", "attached-deposit", "attached_deposit", "deposit-gte", "deposit_gte",
    "store-u128", "store_u128", "load-u128", "load_u128", "attached-deposit-u128",
    "attached_deposit_u128", "transfer", "account-balance", "account_balance", "log-utf8",
    "log_utf8", "log", "near-config", "near_config", "near-reset", "near_reset"]

def consistencyError (i : Nat) (message : String) : VerificationError :=
  ⟨message, some i, "instruction_consistency"⟩

def consistencyCheck (slotsLen closuresLen i : Nat) : Op → Option VerificationError
  | .pushBuiltin name =>
      refuseWhen (name ∉ knownBuiltins) (consistencyError i ("unknown builtin '" ++ name ++ "'"))
  | .pushClosure idx =>
      refuseWhen (closuresLen ≤ idx)
        (consistencyError i s!"PushClosure({idx}) out of bounds (closures_len={closuresLen})")
  | .callCaptured slot _ =>
      refuseWhen (slotsLen ≤ slot)
        (consistencyError i s!"CallCaptured slot {slot} out of bounds (slots_len={slotsLen})")
  | .callCapturedRef idx _ =>
      refuseWhen (10000 < idx)
        (consistencyError i s!"CallCapturedRef({idx}) suspiciously large capture index")
  | .callDynamic nargs =>
      refuseWhen (maxStackDepth < nargs)
        (consistencyError i s!"CallDynamic({nargs}) arg count exceeds limit")
  | .makeList n =>
      refuseWhen (maxStackDepth < n) (consistencyError i s!"MakeList({n}) count exceeds limit")
  | .constructTag _ _ nFields =>
      refuseWhen (maxStackDepth < nFields.toNat)
        (consistencyError i s!"ConstructTag fields={nFields.toNat} exceeds limit")
  | .loadCaptured idx =>
      refuseWhen (10000 < idx)
        (consistencyError i s!"LoadCaptured({idx}) suspiciously large capture index")
  | .storeCaptured idx =>
      refuseWhen (10000 < idx)
        (consistencyError i s!"StoreCaptured({idx}) suspiciously large capture index")
  | .getField idx =>
      refuseWhen (255 < idx.toNat)
        (consistencyError i s!"GetField({idx.toNat}) field index out of range")
  | .recurIncAccum _ _ step _ _ =>
      refuseWhen (step = 0) (consistencyError i "RecurIncAccum step_imm is 0 (infinite loop)")
  | _ => none

def verifyInstructionConsistency (code : List Op) (slotsLen closuresLen : Nat) : VResult :=
  eachOp (consistencyCheck slotsLen closuresLen) code

/-! ### Stack depth -/

/-- How many values an instruction pops, and how many it pushes then. -/
def stackEffect : Op → Nat × Nat
  | .pushI64 _ | .pushU64 _ | .pushFloat _ | .pushBool _ | .pushStr _ | .pushNil | .pushSelf
  | .loadSlot _ | .loadCaptured _ | .loadGlobal _ | .pushClosure _ | .pushBuiltin _
  | .pushLiteral _ | .tracePush _ => (0, 1)
  | .pop | .tracePop => (1, 0)
  | .dup => (0, 1)
  | .storeSlot _ => (1, 0)
  | .storeCaptured _ | .storeGlobal _ => (1, 1)
  | .add | .sub | .mul | .div | .mod | .eq | .lt | .le | .gt | .ge => (2, 1)
  | .not => (1, 1)
  | .jumpIfTrue _ | .jumpIfFalse _ => (1, 0)
  | .jump _ => (0, 0)
  | .ret => (1, 0)
  | .recur n => (n, 0)
  | .builtinCall _ nargs => (nargs, 1)
  | .slotAddImm _ _ | .slotSubImm _ _ | .slotMulImm _ _ | .slotDivImm _ _ | .slotEqImm _ _
  | .slotLtImm _ _ | .slotLeImm _ _ | .slotGtImm _ _ | .slotGeImm _ _ => (0, 1)
  | .jumpIfSlotLtImm _ _ _ | .jumpIfSlotLeImm _ _ _ | .jumpIfSlotGtImm _ _ _
  | .jumpIfSlotGeImm _ _ _ | .jumpIfSlotEqImm _ _ _ => (0, 0)
  | .recurIncAccum _ _ _ _ _ => (0, 0)
  | .recurDirect n => (n, 0)
  | .callCaptured _ nargs | .callCapturedRef _ nargs | .callSelf nargs => (nargs, 1)
  | .callDynamic nargs => (nargs + 1, 1)
  | .makeList n => (n, 1)
  | .dictGet => (2, 1)
  | .dictSet => (3, 1)
  | .dictMutSet _ => (2, 0)
  | .storeAndLoadSlot _ => (1, 1)
  | .returnSlot _ => (0, 0)
  | .typedBinOp _ _ => (2, 1)
  | .constructTag _ _ nFields => (nFields.toNat, 1)
  | .tagTest _ _ => (0, 1)
  | .getField _ => (1, 1)
  | .getDefaultSlot _ _ _ _ => (0, 0)
  | .mapOp _ | .filterOp _ => (1, 1)
  | .reduceOp _ => (2, 1)
  | .makeVec n => (n, 1)
  | .vecNth => (2, 1)
  | .vecAssoc => (3, 1)
  | .vecLen => (1, 1)
  | .vecConj => (2, 1)
  | .vecContains => (2, 1)
  | .vecSlice => (3, 1)
  | .u64MulHi | .u64And | .u64Or | .u64Xor | .u64Shr | .u64Shl => (2, 1)
  | .u64Not => (1, 1)

def branchOrNext (pc target : Nat) : List Nat :=
  if target ≠ pc + 1 then [pc + 1, target] else [pc + 1]

def successors (pc : Nat) (op : Op) (codeLen : Nat) : List Nat :=
  match op with
  | .ret | .returnSlot _ => []
  | .jump target => [target]
  | .jumpIfTrue target | .jumpIfFalse target => branchOrNext pc target
  | .recurIncAccum _ _ _ _ exitAddr => if exitAddr ≠ 0 then [exitAddr, 0] else [exitAddr]
  | .recur _ | .recurDirect _ => [0]
  | .jumpIfSlotLtImm _ _ target | .jumpIfSlotLeImm _ _ target | .jumpIfSlotGtImm _ _ target
  | .jumpIfSlotGeImm _ _ target | .jumpIfSlotEqImm _ _ target => branchOrNext pc target
  | _ => if pc + 1 < codeLen then [pc + 1] else []

/-- `as i32` -/
def asI32 (n : Nat) : Int := Int.bmod n (2 ^ 32)

/-- The end of the code from a few instructions before `pc`, each as `debug` prints it. -/
def dump (debug : Op → String) (code : List Op) (pc : Nat) : String :=
  "\n".intercalate ((code.zipIdx.drop (pc - 5)).map fun p =>
    "  [" ++ toString p.2 ++ "] " ++ debug p.1)

def stackError (pc : Nat) (message : String) : VerificationError :=
  ⟨message, some pc, "stack_depth"⟩

/-- The height after an instruction, which is refused where it pops too much or piles up too
much. -/
def heightAfter (debug : Op → String) (code : List Op) (pc : Nat) (height : Int) :
    Except VerificationError Int :=
  match code[pc]? with
  | none => .ok height
  | some op =>
      let effect := stackEffect op
      if height < asI32 effect.1 then
        .error (stackError pc ("stack underflow: need " ++ toString effect.1 ++
          " values but stack has " ++ toString height ++ "\n  bytecode around offset " ++
          toString pc ++ ":\n" ++ dump debug code pc))
      else
        let newHeight := height - asI32 effect.1 + asI32 effect.2
        if (maxStackDepth : Int) < newHeight then
          .error (stackError pc ("stack depth " ++ toString newHeight ++ " exceeds limit " ++
            toString maxStackDepth))
        else .ok newHeight

/-- The successors of an instruction that are inside of the code. -/
def nextInside (code : List Op) (pc : Nat) : List Nat :=
  match code[pc]? with
  | none => []
  | some op => (successors pc op code.length).filter (· < code.length)

def heightRules (debug : Op → String) (code : List Op) :
    Foundation.Labelling.Rules Nat Int VerificationError where
  next := nextInside code
  transfer := heightAfter debug code
  conflict succ existing newHeight := stackError succ
    ("stack height mismatch at join point: " ++ toString existing ++ " from one path, " ++
      toString newHeight ++ " from another")
  limit pc := stackError pc
    "verifier exceeded iteration limit (possible pathological control flow)"

/-- Whether the machine runs on past an instruction at the end of the code, but for one that
branches. -/
def fallsOff : Op → Bool
  | .ret | .returnSlot _ | .recur _ | .recurDirect _ | .recurIncAccum _ _ _ _ _ | .jump _
  | .jumpIfTrue _ | .jumpIfFalse _
  | .jumpIfSlotLtImm _ _ _ | .jumpIfSlotLeImm _ _ _ | .jumpIfSlotGtImm _ _ _
  | .jumpIfSlotGeImm _ _ _ | .jumpIfSlotEqImm _ _ _ => false
  | _ => true

def verifyEnd (code : List Op) (heights : Nat → Option Int) : VResult :=
  match code.getLast?, heights (code.length - 1) with
  | some op, some h =>
      if fallsOff op ∧ 1 < h then
        .error (stackError (code.length - 1) ("function falls off end with stack height " ++
          toString h ++ " (expected 0 or 1)"))
      else .ok ()
  | _, _ => .ok ()

/-- The pass with a limit of its own. -/
def verifyStackDepthWithin (debug : Op → String) (maxIterations : Nat) (code : List Op) :
    VResult :=
  if code.length = 0 then .ok ()
  else
    match Foundation.Labelling.search (heightRules debug code) maxIterations
        (Foundation.Labelling.start 0 0) with
    | .error e => .error e
    | .ok w => verifyEnd code w.label

def verifyStackDepth (debug : Op → String) (code : List Op) : VResult :=
  verifyStackDepthWithin debug (code.length * 10) code

/-! ### Lambdas and their closures -/

def failures : VResult → List VerificationError
  | .ok _ => []
  | .error e => [e]

/-- The errors of the passes over one lambda. -/
def passes (debug : Op → String) (cl : CompiledLambda) : List VerificationError :=
  failures (verifyLimits cl) ++ failures (verifyControlFlow cl.code) ++
    failures (verifySlotIndices cl.code cl.totalSlots) ++
    failures (verifyInstructionConsistency cl.code cl.totalSlots cl.closures.length) ++
    failures (verifyStackDepth debug cl.code)

def inClosure (i : Nat) (e : VerificationError) : VerificationError :=
  { e with message := "closure[" ++ toString i ++ "]: " ++ e.message }

def nestingError (depth : Nat) : VerificationError :=
  ⟨s!"closure nesting depth {depth} exceeds limit {maxClosureDepth}", none, "limits"⟩

mutual

/-- `verify_bytecode_inner`; no errors are its `Ok`. -/
def verifyInner (debug : Op → String) (depth : Nat) : CompiledLambda → List VerificationError
  | .mk code totalSlots closures =>
      if maxClosureDepth < depth then [nestingError depth]
      else
        passes debug (.mk code totalSlots closures) ++ verifyClosures debug (depth + 1) 0 closures

def verifyClosures (debug : Op → String) (depth i : Nat) :
    List CompiledLambda → List VerificationError
  | [] => []
  | closure :: closures =>
      (verifyInner debug depth closure).map (inClosure i) ++
        verifyClosures debug depth (i + 1) closures

end

def verifyBytecode (debug : Op → String) (cl : CompiledLambda) :
    Except (List VerificationError) Unit :=
  match verifyInner debug 0 cl with
  | [] => .ok ()
  | errors => .error errors

end LispRlm.Bytecode.Verifier
