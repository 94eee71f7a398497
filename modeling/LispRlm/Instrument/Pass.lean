import LispRlm.Foundation.Flow
import Mathlib.Algebra.Group.Nat.Defs

/-! The pass that makes a module charge gas and a stack budget for what it runs. -/

namespace LispRlm.Instrument

inductive ValType
  | i32
  | i64
  | f32
  | f64
  | v128
  | funcRef
  | externRef
  deriving DecidableEq

structure FuncType where
  params : List ValType
  results : List ValType
  deriving DecidableEq

inductive BlockType
  | empty
  | result (t : ValType)
  | functionType (idx : Nat)
  deriving DecidableEq

/-- The operators that the pass looks at, and those that it emits; `other` are all the rest, over
primitives `P`. -/
inductive Operator (P : Type)
  | block (t : BlockType)
  | loop (t : BlockType)
  | if_ (t : BlockType)
  | else_
  | end_
  | br (depth : Nat)
  | brIf (depth : Nat)
  | brTable (depths : List Nat) (default : Nat)
  | return_
  | unreachable
  | call (f : Nat)
  | callIndirect (type table : Nat)
  | returnCall (f : Nat)
  | returnCallIndirect (type table : Nat)
  | refFunc (f : Nat)
  | localGet (n : Nat)
  | localSet (n : Nat)
  | localTee (n : Nat)
  | globalGet (n : Nat)
  | globalSet (n : Nat)
  | i64Const (n : BitVec 64)
  | i64LtU
  | i64GtU
  | i64Add
  | i64Sub
  | i64Mul
  | i64ExtendI32U
  | other (op : P)

variable {P : Type}

/-! ### Fees -/

def regularOpCost : UInt64 := 822756

def linearOpBaseCost : UInt64 := 26328192

def linearOpUnitCost : UInt64 := 822756

def maxStackHeight : UInt64 := 262144

structure Fee where
  linear : UInt64
  constant : UInt64
  deriving DecidableEq

def Fee.zero : Fee := ⟨0, 0⟩

/-- The operations whose count is on top of the stack. -/
inductive Aggregate
  | tableInit
  | tableFill
  | tableCopy
  | memoryInit
  | memoryFill
  | memoryCopy
  | memoryGrow
  | tableGrow
  deriving DecidableEq

/-- `InstrumentationKind`; `other` are the kinds that the pass does not tell apart. -/
inductive InstrumentationKind
  | aggregate (a : Aggregate)
  | unreachable
  | other (n : Nat)
  deriving DecidableEq

/-- A place where a fee is due. -/
structure GasPoint where
  offset : Nat
  fee : Fee
  kind : InstrumentationKind

inductive InstrumentError
  | parse (text : String)
  | missingAnalysis (kind : String) (idx : Nat)
  | insufficientFunctionTypes
  | invalidTypeIndex
  | tooManyGlobals
  | tooManyLocals
  | gasInstrumentationMisconfigured

def checkedAdd (a b : UInt64) : Option UInt64 :=
  if a.toNat + b.toNat < 2 ^ 64 then some (a + b) else none

def checkedMul (a b : UInt64) : Option UInt64 :=
  if a.toNat * b.toNat < 2 ^ 64 then some (a * b) else none

/-- `checked_add` on the indices of locals, globals and functions -/
def checkedIndex (a b : Nat) : Option Nat := if a + b < 2 ^ 32 then some (a + b) else none

/-! ### Indices -/

def gasGlobal : Nat := 0

def stackGlobal : Nat := 1

def newGlobals : Nat := 2

def gasExhaustedFn : Nat := 0

def stackExhaustedFn : Nat := 1

def gasInstrumentationFn : Nat := 2

def newFunctions : Nat := 3

def functionIndex (f : Nat) : Except InstrumentError Nat :=
  match checkedIndex f newFunctions with
  | some idx => .ok idx
  | none => .error (.parse "function index remap overflow")

/-! ### Emitted code -/

def callUnstackInstrumentation (charge : UInt64) (globals : Nat) : List (Operator P) :=
  [.globalGet (globals + stackGlobal), .i64Const charge.toBitVec, .i64Add,
    .globalSet (globals + stackGlobal)]

def callGasInstrumentation (k : Option InstrumentationKind) (gas : Fee) (globals localIdx : Nat) :
    Except InstrumentError (List (Operator P)) :=
  if gas = Fee.zero then .ok []
  else if gas.linear = 0 then
    .ok [.globalGet (globals + gasGlobal), .i64Const gas.constant.toBitVec, .i64LtU, .if_ .empty,
      .i64Const gas.constant.toBitVec, .call gasInstrumentationFn, .unreachable, .else_,
      .globalGet (globals + gasGlobal), .i64Const gas.constant.toBitVec, .i64Sub,
      .globalSet (globals + gasGlobal), .end_]
  else
    match k with
    | some (.aggregate _) =>
        match checkedIndex localIdx 1 with
        | none => .error .tooManyLocals
        | some countIdx =>
            .ok [.localTee countIdx, .i64ExtendI32U, .i64Const gas.linear.toBitVec, .i64Mul,
              .i64Const gas.constant.toBitVec, .i64Add, .localTee localIdx,
              .globalGet (globals + gasGlobal), .i64GtU, .if_ .empty, .localGet localIdx,
              .call gasInstrumentationFn, .unreachable, .else_, .globalGet (globals + gasGlobal),
              .localGet localIdx, .i64Sub, .globalSet (globals + gasGlobal), .end_,
              .localGet countIdx]
    | _ => .error .gasInstrumentationMisconfigured

/-- The fees that are due at an operator. -/
def pointsCode (globals localIdx : Nat) : List GasPoint → Except InstrumentError (List (Operator P))
  | [] => .ok []
  | p :: points =>
      if p.kind = .unreachable then pointsCode globals localIdx points
      else
        match callGasInstrumentation (some p.kind) p.fee globals localIdx with
        | .error e => .error e
        | .ok code =>
            match pointsCode globals localIdx points with
            | .error e => .error e
            | .ok more => .ok (code ++ more)

/-- An operator of the function; `last` is the end of the function. -/
def operatorCode (charge : UInt64) (globals : Nat) (last : Bool) (op : Operator P) :
    Except InstrumentError (List (Operator P)) :=
  match op with
  | .refFunc f => (functionIndex f).map fun idx => [.refFunc idx]
  | .call f => (functionIndex f).map fun idx => [.call idx]
  | .returnCall f =>
      (functionIndex f).map fun idx =>
        callUnstackInstrumentation charge globals ++ [.returnCall idx]
  | .returnCallIndirect type table =>
      .ok (callUnstackInstrumentation charge globals ++ [.returnCallIndirect type table])
  | .return_ => .ok (callUnstackInstrumentation charge globals ++ [.return_])
  | .end_ =>
      .ok (if last then .end_ :: (callUnstackInstrumentation charge globals ++ [.end_])
        else [.end_])
  | op => .ok [op]

/-- The operators, each after the fees that are due at its offset. -/
def operatorsCode (charge : UInt64) (globals localIdx : Nat) :
    List GasPoint → List (Operator P × Nat) → Except InstrumentError (List (Operator P))
  | _, [] => .ok []
  | points, (op, offset) :: operators =>
      match pointsCode globals localIdx (points.takeWhile (·.offset = offset)) with
      | .error e => .error e
      | .ok fees =>
          match operatorCode charge globals operators.isEmpty op with
          | .error e => .error e
          | .ok code =>
              match operatorsCode charge globals localIdx
                  (points.dropWhile (·.offset = offset)) operators with
              | .error e => .error e
              | .ok more => .ok (fees ++ (code ++ more))

/-- What a call of the function takes from the stack budget. -/
def stackCharge (stackSize frameSize : UInt64) : UInt64 := (checkedAdd stackSize frameSize).getD 0

/-- The gas for the function's frame, one regular operation for every eight bytes. -/
def frameGas (frameSize : UInt64) : UInt64 :=
  ((checkedAdd frameSize 7).bind fun n => checkedMul (n / 8) regularOpCost).getD 0xffffffffffffffff

def prologue (t : BlockType) (charge gas : UInt64) (globals localIdx : Nat) :
    Except InstrumentError (List (Operator P)) :=
  if charge > 0 then
    (callGasInstrumentation none ⟨0, gas⟩ globals localIdx).map fun fees =>
      [.block t, .globalGet (globals + stackGlobal), .i64Const charge.toBitVec, .i64LtU,
        .if_ .empty, .call stackExhaustedFn, .unreachable, .else_,
        .globalGet (globals + stackGlobal), .i64Const charge.toBitVec, .i64Sub,
        .globalSet (globals + stackGlobal), .end_] ++ fees
  else .ok [.call stackExhaustedFn, .unreachable, .end_]

/-! ### Functions -/

/-- What the analysis finds out about the functions, each list by the function's number. -/
structure AnalysisOutcome where
  gasCosts : List (List Fee)
  gasKinds : List (List InstrumentationKind)
  gasOffsets : List (List Nat)
  functionOperandStackSizes : List UInt64
  functionFrameSizes : List UInt64

def points (offsets : List Nat) (costs : List Fee) (kinds : List InstrumentationKind) :
    List GasPoint :=
  ((offsets.zip costs).zip kinds).map fun ((offset, fee), kind) => ⟨offset, fee, kind⟩

structure FunctionBody (P : Type) where
  locals : List (Nat × ValType)
  operators : List (Operator P × Nat)

structure Function (P : Type) where
  locals : List (Nat × ValType)
  code : List (Operator P)

/-- The number of locals, the parameters among them. -/
def localCount : Nat → List (Nat × ValType) → Except InstrumentError Nat
  | count, [] => .ok count
  | count, (n, _) :: locals =>
      match checkedIndex count n with
      | some count => localCount count locals
      | none => .error .tooManyLocals

def getIdx {α : Type} (field : List α) (name : String) (idx : Nat) : Except InstrumentError α :=
  match field[idx]? with
  | some x => .ok x
  | none => .error (.missingAnalysis name idx)

/-- The type of the block around the body, and the type section with that type in it. -/
def blockType (funcType : FuncType) (idx : Nat) (typeSection : List FuncType) :
    BlockType × List FuncType :=
  match funcType.params, funcType.results with
  | _, [] => (.empty, typeSection)
  | _, [t] => (.result t, typeSection)
  | [], _ => (.functionType idx, typeSection)
  | _, results => (.functionType typeSection.length, typeSection ++ [⟨[], results⟩])

/-- `transform_code_section`, for the function with number `codeIdx`. -/
def transformCodeSection (analysis : AnalysisOutcome) (types typeSection : List FuncType)
    (globals codeIdx : Nat) (body : FunctionBody P) (typeIdx : Nat) :
    Except InstrumentError (Function P × List FuncType) := do
  let some funcType := types[typeIdx]? | .error .invalidTypeIndex
  let localIdx ← localCount funcType.params.length body.locals
  let costs ← getIdx analysis.gasCosts "gas_costs" codeIdx
  let kinds ← getIdx analysis.gasKinds "gas_kinds" codeIdx
  let offsets ← getIdx analysis.gasOffsets "gas_offsets" codeIdx
  let stackSize ← getIdx analysis.functionOperandStackSizes "operand_stack" codeIdx
  let frameSize ← getIdx analysis.functionFrameSizes "frame_sizes" codeIdx
  let (t, typeSection) := blockType funcType typeIdx typeSection
  let charge := stackCharge stackSize frameSize
  let entry ← prologue t charge (frameGas frameSize) globals localIdx
  let code ← operatorsCode charge globals localIdx (points offsets costs kinds) body.operators
  return (⟨body.locals ++ [(1, .i64), (1, .i32)], entry ++ code⟩, typeSection)

/-- The functions from number `idx` on. -/
def transformBodies (analysis : AnalysisOutcome) (types : List FuncType) (globals : Nat) :
    Nat → List FuncType → List Nat → List (FunctionBody P) →
      Except InstrumentError (List (Function P) × List FuncType)
  | _, typeSection, _, [] => .ok ([], typeSection)
  | _, _, [], _ :: _ => .error .insufficientFunctionTypes
  | idx, typeSection, type :: functionTypes, body :: bodies =>
      match transformCodeSection analysis types typeSection globals idx body type with
      | .error e => .error e
      | .ok (function, typeSection) =>
          match transformBodies analysis types globals (idx + 1) typeSection functionTypes
              bodies with
          | .error e => .error e
          | .ok (functions, typeSection) => .ok (function :: functions, typeSection)

/-! ### Modules -/

inductive ExternalKind
  | func
  | table
  | memory
  | global
  | tag
  deriving DecidableEq

/-- The parts of a module that the pass changes. A section that is missing is `none`. -/
structure Module (P : Type) where
  types : List FuncType
  imports : Option (List Nat)
  importedGlobals : Nat
  functions : List Nat
  globals : Option Nat
  exports : List (String × ExternalKind × Nat)
  start : Option Nat
  elements : List (List Nat)
  bodies : List (FunctionBody P)

structure Instrumented (P : Type) where
  types : List FuncType
  imports : List Nat
  functions : List Nat
  globals : Nat
  exports : List (String × ExternalKind × Nat)
  elements : List (List Nat)
  code : List (Function P)

def exportIndex : String × ExternalKind × Nat →
    Except InstrumentError (String × ExternalKind × Nat)
  | (name, .func, idx) => (functionIndex idx).map fun idx => (name, .func, idx)
  | other => .ok other

/-- The number of globals, imported ones among them. -/
def Module.countGlobals (m : Module P) : Except InstrumentError Nat :=
  match checkedIndex m.importedGlobals (m.globals.getD 0) with
  | none => .error .tooManyGlobals
  | some globals =>
      if m.globals.isSome ∧ (checkedIndex globals newGlobals).isNone then .error .tooManyGlobals
      else .ok globals

/-- Whether the hooks are imported. -/
def Module.hooked (m : Module P) : Bool := m.imports.isSome || !m.bodies.isEmpty

/-- `run`, over the sections in their order. -/
def instrument (analysis : AnalysisOutcome) (m : Module P) :
    Except InstrumentError (Instrumented P) := do
  let hookTypes : List FuncType := if m.hooked then [⟨[], []⟩, ⟨[.i64], []⟩] else []
  let hooks := if m.hooked then [m.types.length, m.types.length, m.types.length + 1] else []
  let globals ← m.countGlobals
  let remaining := [("remaining_gas", ExternalKind.global, globals + gasGlobal)]
  let exports ← m.exports.mapM exportIndex
  let start ← m.start.toList.mapM fun idx =>
    (functionIndex idx).map fun idx => ("start", ExternalKind.func, idx)
  let elements ← m.elements.mapM fun element => element.mapM functionIndex
  let (code, types) ← transformBodies analysis m.types globals 0 (m.types ++ hookTypes)
    m.functions m.bodies
  return {
    types := types
    imports := hooks ++ m.imports.getD []
    functions := m.functions
    globals := if m.globals.isSome || !m.bodies.isEmpty then globals + newGlobals else globals
    exports :=
      if m.globals.isSome then remaining ++ exports ++ start
      else if m.bodies.isEmpty then exports ++ start
      else exports ++ start ++ remaining
    elements := elements
    code := code }

end LispRlm.Instrument
