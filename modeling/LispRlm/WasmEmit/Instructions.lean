import LispRlm.Foundation.Liveness

/-! The wasm instructions that the emitter's arithmetic, array and iteration forms use. -/

namespace LispRlm.WasmEmit

open Foundation

abbrev I64 := BitVec 64

inductive ValType
  | i64
  | i32
  deriving DecidableEq

/-- A local of the emitted function: a parameter, one that `local_idx` or `local_idx_i32` finds by
its name, or one that `let` allocates. -/
inductive LocalVar
  | param (i : Nat)
  | named (name : String)
  | namedI32 (name : String)
  | fresh (n : Nat)
  deriving DecidableEq

def LocalVar.valType : LocalVar → ValType
  | .namedI32 _ => .i32
  | _ => .i64

structure LinearMemory where
  bytes : Nat → BitVec 8
  size : Nat

namespace LinearMemory

def loadI64 (m : LinearMemory) (address : Nat) : Option I64 :=
  if address + 8 ≤ m.size then
    some <| (List.range 8).foldr (fun i w => w <<< 8 ||| (m.bytes (address + i)).setWidth 64) 0
  else none

def storeI64 (m : LinearMemory) (address : Nat) (w : I64) : Option LinearMemory :=
  if address + 8 ≤ m.size then
    some { m with bytes := fun i =>
      if address ≤ i ∧ i < address + 8 then (w >>> (8 * (i - address))).setWidth 8
      else m.bytes i }
  else none

end LinearMemory

inductive BinOp
  | add | sub | mul | and | or | xor | shl | shrS | shrU | divS | remS
  deriving DecidableEq

def BinOp.eval : BinOp → I64 → I64 → Option I64
  | .add, a, b => some (a + b)
  | .sub, a, b => some (a - b)
  | .mul, a, b => some (a * b)
  | .and, a, b => some (a &&& b)
  | .or, a, b => some (a ||| b)
  | .xor, a, b => some (a ^^^ b)
  | .shl, a, b => some (a <<< (b.toNat % 64))
  | .shrS, a, b => some (a.sshiftRight (b.toNat % 64))
  | .shrU, a, b => some (a >>> (b.toNat % 64))
  | .divS, a, b =>
      if b = 0 ∨ a = BitVec.intMin 64 ∧ b = -1 then none else some (a.sdiv b)
  | .remS, a, b => if b = 0 then none else some (a.srem b)

inductive RelOp
  | eq | ne | ltS | gtS | leS | geS | ltU
  deriving DecidableEq

def RelOp.eval : RelOp → I64 → I64 → Bool
  | .eq, a, b => a == b
  | .ne, a, b => a != b
  | .ltS, a, b => a.slt b
  | .gtS, a, b => b.slt a
  | .leS, a, b => a.sle b
  | .geS, a, b => b.sle a
  | .ltU, a, b => a.ult b

inductive BinOp32
  | add | shl | or | ltU
  deriving DecidableEq

def BinOp32.eval : BinOp32 → BitVec 32 → BitVec 32 → BitVec 32
  | .add, a, b => a + b
  | .shl, a, b => a <<< (b.toNat % 32)
  | .or, a, b => a ||| b
  | .ltU, a, b => if a.ult b then 1 else 0

/-- The instructions without control flow and without locals. A 32-bit value is a word below
`2 ^ 32`. -/
inductive Op
  | i64Const (w : I64)
  | i32Const (w : BitVec 32)
  | i64 (op : BinOp)
  | i64Rel (op : RelOp)
  | i64Eqz
  | i32Eqz
  | i32 (op : BinOp32)
  | i32WrapI64
  | i64ExtendI32U
  | i64Load
  | i64Store
  | drop
  | call (function : String) (args : Nat)
  deriving DecidableEq

namespace Op

/-- The operands, the last one first. -/
def takes : Op → List ValType
  | .i64Const _ | .i32Const _ => []
  | .i64 _ | .i64Rel _ => [.i64, .i64]
  | .i64Eqz | .i32WrapI64 | .drop => [.i64]
  | .i32 _ => [.i32, .i32]
  | .i32Eqz | .i64ExtendI32U | .i64Load => [.i32]
  | .i64Store => [.i64, .i32]
  | .call _ args => List.replicate args .i64

def gives : Op → List ValType
  | .i64Const _ | .i64 _ | .i64ExtendI32U | .i64Load | .call _ _ => [.i64]
  | .i32Const _ | .i64Rel _ | .i64Eqz | .i32Eqz | .i32 _ | .i32WrapI64 => [.i32]
  | .i64Store | .drop => []

/-- Another function of the module or of the host: `none` when it traps. -/
abbrev Functions := String → List I64 → LinearMemory → Option (I64 × LinearMemory)

def ofBool (b : Bool) : I64 := if b then 1 else 0

abbrev Effect := List I64 → LinearMemory → Option (List I64 × LinearMemory)

/-- An instruction that makes one value of one. -/
def unary (f : I64 → LinearMemory → Option I64) : Effect
  | [a], m => (f a m).map fun w => ([w], m)
  | _, _ => none

/-- An instruction that makes one value of two. -/
def binary (f : I64 → I64 → Option I64) : Effect
  | [b, a], m => (f a b).map fun w => ([w], m)
  | _, _ => none

def store : Effect
  | [w, address], m => (m.storeI64 address.toNat w).map fun m' => ([], m')
  | _, _ => none

def act (functions : Functions) : Op → Effect
  | .i64Const w => fun _ m => some ([w], m)
  | .i32Const w => fun _ m => some ([w.setWidth 64], m)
  | .i64 op => binary op.eval
  | .i64Rel op => binary fun a b => some (ofBool (op.eval a b))
  | .i64Eqz => unary fun a _ => some (ofBool (a == 0))
  | .i32Eqz => unary fun a _ => some (ofBool (a == 0))
  | .i32 op => binary fun a b => some ((op.eval (a.setWidth 32) (b.setWidth 32)).setWidth 64)
  | .i32WrapI64 => unary fun a _ => some ((a.setWidth 32).setWidth 64)
  | .i64ExtendI32U => unary fun a _ => some a
  | .i64Load => unary fun address m => m.loadI64 address.toNat
  | .i64Store => store
  | .drop => fun _ m => some ([], m)
  | .call f _ => fun args m => (functions f args.reverse m).map fun (w, m') => ([w], m')

/-- An effect that leaves this many values unless it traps. -/
def Leaves (effect : Effect) (count : Nat) : Prop :=
  ∀ args m rs m', effect args m = some (rs, m') → rs.length = count

theorem unary_leaves (f : I64 → LinearMemory → Option I64) : Leaves (unary f) 1 := by
  intro args m rs m' acted
  unfold unary at acted
  split at acted
  · obtain ⟨w, _, made⟩ := Option.map_eq_some_iff.mp acted
    cases made
    rfl
  · cases acted

theorem binary_leaves (f : I64 → I64 → Option I64) : Leaves (binary f) 1 := by
  intro args m rs m' acted
  unfold binary at acted
  split at acted
  · obtain ⟨w, _, made⟩ := Option.map_eq_some_iff.mp acted
    cases made
    rfl
  · cases acted

theorem store_leaves : Leaves store 0 := by
  intro args m rs m' acted
  unfold store at acted
  split at acted
  · obtain ⟨w, _, made⟩ := Option.map_eq_some_iff.mp acted
    cases made
    rfl
  · cases acted

theorem act_leaves (functions : Functions) (op : Op) :
    Leaves (act functions op) op.gives.length := by
  cases op with
  | i64Const w | i32Const w | drop =>
      intro args m rs m' acted
      cases acted
      rfl
  | i64 op | i64Rel op | i32 op => exact binary_leaves _
  | i64Eqz | i32Eqz | i32WrapI64 | i64ExtendI32U | i64Load => exact unary_leaves _
  | i64Store => exact store_leaves
  | call f args =>
      intro given m rs m' acted
      obtain ⟨_, _, made⟩ := Option.map_eq_some_iff.mp acted
      cases made
      rfl

end Op

/-- The machine that runs emitted code, beside the module's other functions. -/
def wasm (functions : Op.Functions) : StackMachine LocalVar Op ValType I64 LinearMemory where
  word := .i64
  condition := .i32
  local_ := LocalVar.valType
  takes := Op.takes
  gives := Op.gives
  act := Op.act functions
  truth w := w != 0
  act_gives := Op.act_leaves functions

/-! ### Writing code -/

/-- Code of a form with operands `H`. -/
abbrev Instructions (H : Type) := List (Code LocalVar Op H ValType)

variable {H : Type}

namespace Instruction

def localGet (x : LocalVar) : Code LocalVar Op H ValType := .localGet x
def localSet (x : LocalVar) : Code LocalVar Op H ValType := .localSet x
def localTee (x : LocalVar) : Code LocalVar Op H ValType := .localTee x
def i64Const (w : I64) : Code LocalVar Op H ValType := .prim (.i64Const w)
def i32Const (w : BitVec 32) : Code LocalVar Op H ValType := .prim (.i32Const w)
def i64 (op : BinOp) : Code LocalVar Op H ValType := .prim (.i64 op)
def i64Rel (op : RelOp) : Code LocalVar Op H ValType := .prim (.i64Rel op)
def i64Eqz : Code LocalVar Op H ValType := .prim .i64Eqz
def i32Eqz : Code LocalVar Op H ValType := .prim .i32Eqz
def i32 (op : BinOp32) : Code LocalVar Op H ValType := .prim (.i32 op)
def i32WrapI64 : Code LocalVar Op H ValType := .prim .i32WrapI64
def i64ExtendI32U : Code LocalVar Op H ValType := .prim .i64ExtendI32U
def i64Load : Code LocalVar Op H ValType := .prim .i64Load
def i64Store : Code LocalVar Op H ValType := .prim .i64Store
def drop : Code LocalVar Op H ValType := .prim .drop
def unreachable : Code LocalVar Op H ValType := .unreachable
def br (depth : Nat) : Code LocalVar Op H ValType := .br depth
def brIf (depth : Nat) : Code LocalVar Op H ValType := .brIf depth

def block (body : Instructions H) : Code LocalVar Op H ValType := .block [] (.ofList body)
def blockI64 (body : Instructions H) : Code LocalVar Op H ValType := .block [.i64] (.ofList body)
def loop (body : Instructions H) : Code LocalVar Op H ValType := .loop [] (.ofList body)
def if_ (body : Instructions H) : Code LocalVar Op H ValType := .ifElse [] (.ofList body) .skip
def ifElse (thenBody elseBody : Instructions H) : Code LocalVar Op H ValType :=
  .ifElse [] (.ofList thenBody) (.ofList elseBody)
def ifElseI64 (thenBody elseBody : Instructions H) : Code LocalVar Op H ValType :=
  .ifElse [.i64] (.ofList thenBody) (.ofList elseBody)

end Instruction

/-! ### Running code -/

abbrev Locals := Store LocalVar I64 LinearMemory

section Running

variable {functions : Op.Functions} {fill : H → Locals → Answer LocalVar I64 LinearMemory}
  {fuel : Nat} {stack : List I64} {s : Locals}

@[simp] theorem run_nil (c : Config LocalVar I64 LinearMemory) :
    run (wasm functions) fill fuel (.ofList []) c = .next c := rfl

theorem run_cons {i : Code LocalVar Op H ValType} {rest : Instructions H}
    {c c' : Config LocalVar I64 LinearMemory} (ran : run (wasm functions) fill fuel i c = .next c') :
    run (wasm functions) fill fuel (.ofList (i :: rest)) c =
      run (wasm functions) fill fuel (.ofList rest) c' := by
  rw [Code.ofList, run, ran]

@[simp] theorem run_localGet (x : LocalVar) (rest : Instructions H) :
    run (wasm functions) fill fuel (.ofList (Instruction.localGet x :: rest)) ⟨stack, s⟩ =
      run (wasm functions) fill fuel (.ofList rest) ⟨s.locals x :: stack, s⟩ := rfl

@[simp] theorem run_localSet (x : LocalVar) (w : I64) (rest : Instructions H) :
    run (wasm functions) fill fuel (.ofList (Instruction.localSet x :: rest)) ⟨w :: stack, s⟩ =
      run (wasm functions) fill fuel (.ofList rest) ⟨stack, s.set x w⟩ := rfl

@[simp] theorem run_localTee (x : LocalVar) (w : I64) (rest : Instructions H) :
    run (wasm functions) fill fuel (.ofList (Instruction.localTee x :: rest)) ⟨w :: stack, s⟩ =
      run (wasm functions) fill fuel (.ofList rest) ⟨w :: stack, s.set x w⟩ := rfl

@[simp] theorem run_i64Const (w : I64) (rest : Instructions H) :
    run (wasm functions) fill fuel (.ofList (Instruction.i64Const w :: rest)) ⟨stack, s⟩ =
      run (wasm functions) fill fuel (.ofList rest) ⟨w :: stack, s⟩ := rfl

theorem run_i64 {op : BinOp} {a b w : I64} (computed : op.eval a b = some w)
    (rest : Instructions H) :
    run (wasm functions) fill fuel (.ofList (Instruction.i64 op :: rest)) ⟨b :: a :: stack, s⟩ =
      run (wasm functions) fill fuel (.ofList rest) ⟨w :: stack, s⟩ := by
  apply run_cons
  simp [Instruction.i64, run, wasm, Op.takes, Op.act, Op.binary, computed]

theorem run_i64_trap {op : BinOp} {a b : I64} (computed : op.eval a b = none)
    (rest : Instructions H) :
    run (wasm functions) fill fuel (.ofList (Instruction.i64 op :: rest)) ⟨b :: a :: stack, s⟩ =
      .trap := by
  simp [Code.ofList, Instruction.i64, run, wasm, Op.takes, Op.act, Op.binary, computed]

@[simp] theorem run_add (a b : I64) (rest : Instructions H) :
    run (wasm functions) fill fuel (.ofList (Instruction.i64 .add :: rest)) ⟨b :: a :: stack, s⟩ =
      run (wasm functions) fill fuel (.ofList rest) ⟨(a + b) :: stack, s⟩ := run_i64 rfl rest

@[simp] theorem run_sub (a b : I64) (rest : Instructions H) :
    run (wasm functions) fill fuel (.ofList (Instruction.i64 .sub :: rest)) ⟨b :: a :: stack, s⟩ =
      run (wasm functions) fill fuel (.ofList rest) ⟨(a - b) :: stack, s⟩ := run_i64 rfl rest

@[simp] theorem run_mul (a b : I64) (rest : Instructions H) :
    run (wasm functions) fill fuel (.ofList (Instruction.i64 .mul :: rest)) ⟨b :: a :: stack, s⟩ =
      run (wasm functions) fill fuel (.ofList rest) ⟨(a * b) :: stack, s⟩ := run_i64 rfl rest

@[simp] theorem run_and (a b : I64) (rest : Instructions H) :
    run (wasm functions) fill fuel (.ofList (Instruction.i64 .and :: rest)) ⟨b :: a :: stack, s⟩ =
      run (wasm functions) fill fuel (.ofList rest) ⟨(a &&& b) :: stack, s⟩ := run_i64 rfl rest

@[simp] theorem run_or (a b : I64) (rest : Instructions H) :
    run (wasm functions) fill fuel (.ofList (Instruction.i64 .or :: rest)) ⟨b :: a :: stack, s⟩ =
      run (wasm functions) fill fuel (.ofList rest) ⟨(a ||| b) :: stack, s⟩ := run_i64 rfl rest

@[simp] theorem run_xor (a b : I64) (rest : Instructions H) :
    run (wasm functions) fill fuel (.ofList (Instruction.i64 .xor :: rest)) ⟨b :: a :: stack, s⟩ =
      run (wasm functions) fill fuel (.ofList rest) ⟨(a ^^^ b) :: stack, s⟩ := run_i64 rfl rest

@[simp] theorem run_shl (a b : I64) (rest : Instructions H) :
    run (wasm functions) fill fuel (.ofList (Instruction.i64 .shl :: rest)) ⟨b :: a :: stack, s⟩ =
      run (wasm functions) fill fuel (.ofList rest) ⟨a <<< (b.toNat % 64) :: stack, s⟩ :=
  run_i64 rfl rest

@[simp] theorem run_shrS (a b : I64) (rest : Instructions H) :
    run (wasm functions) fill fuel (.ofList (Instruction.i64 .shrS :: rest)) ⟨b :: a :: stack, s⟩ =
      run (wasm functions) fill fuel (.ofList rest)
        ⟨a.sshiftRight (b.toNat % 64) :: stack, s⟩ := run_i64 rfl rest

@[simp] theorem run_shrU (a b : I64) (rest : Instructions H) :
    run (wasm functions) fill fuel (.ofList (Instruction.i64 .shrU :: rest)) ⟨b :: a :: stack, s⟩ =
      run (wasm functions) fill fuel (.ofList rest) ⟨a >>> (b.toNat % 64) :: stack, s⟩ :=
  run_i64 rfl rest

@[simp] theorem run_i64Rel (op : RelOp) (a b : I64) (rest : Instructions H) :
    run (wasm functions) fill fuel (.ofList (Instruction.i64Rel op :: rest))
        ⟨b :: a :: stack, s⟩ =
      run (wasm functions) fill fuel (.ofList rest) ⟨Op.ofBool (op.eval a b) :: stack, s⟩ := by
  apply run_cons
  simp [Instruction.i64Rel, run, wasm, Op.takes, Op.act, Op.binary]

@[simp] theorem run_i64Eqz (a : I64) (rest : Instructions H) :
    run (wasm functions) fill fuel (.ofList (Instruction.i64Eqz :: rest)) ⟨a :: stack, s⟩ =
      run (wasm functions) fill fuel (.ofList rest) ⟨Op.ofBool (a == 0) :: stack, s⟩ := by
  apply run_cons
  simp [Instruction.i64Eqz, run, wasm, Op.takes, Op.act, Op.unary]

@[simp] theorem run_i32Eqz (a : I64) (rest : Instructions H) :
    run (wasm functions) fill fuel (.ofList (Instruction.i32Eqz :: rest)) ⟨a :: stack, s⟩ =
      run (wasm functions) fill fuel (.ofList rest) ⟨Op.ofBool (a == 0) :: stack, s⟩ := by
  apply run_cons
  simp [Instruction.i32Eqz, run, wasm, Op.takes, Op.act, Op.unary]

@[simp] theorem run_i32Or (a b : Bool) (rest : Instructions H) :
    run (wasm functions) fill fuel (.ofList (Instruction.i32 .or :: rest))
        ⟨Op.ofBool b :: Op.ofBool a :: stack, s⟩ =
      run (wasm functions) fill fuel (.ofList rest) ⟨Op.ofBool (a || b) :: stack, s⟩ := by
  apply run_cons
  cases a <;> cases b <;> rfl

@[simp] theorem run_i64ExtendI32U (a : I64) (rest : Instructions H) :
    run (wasm functions) fill fuel (.ofList (Instruction.i64ExtendI32U :: rest))
        ⟨a :: stack, s⟩ =
      run (wasm functions) fill fuel (.ofList rest) ⟨a :: stack, s⟩ := by
  apply run_cons
  simp [Instruction.i64ExtendI32U, run, wasm, Op.takes, Op.act, Op.unary]

@[simp] theorem run_drop (a : I64) (rest : Instructions H) :
    run (wasm functions) fill fuel (.ofList (Instruction.drop :: rest)) ⟨a :: stack, s⟩ =
      run (wasm functions) fill fuel (.ofList rest) ⟨stack, s⟩ := by
  apply run_cons
  simp [Instruction.drop, run, wasm, Op.takes, Op.act]

@[simp] theorem run_i32WrapI64 (a : I64) (rest : Instructions H) :
    run (wasm functions) fill fuel (.ofList (Instruction.i32WrapI64 :: rest)) ⟨a :: stack, s⟩ =
      run (wasm functions) fill fuel (.ofList rest)
        ⟨(a.setWidth 32).setWidth 64 :: stack, s⟩ := by
  apply run_cons
  simp [Instruction.i32WrapI64, run, wasm, Op.takes, Op.act, Op.unary]

theorem run_ifElseI64 {b : Bool} {thenBody elseBody : Instructions H} {w : I64} {s' : Locals}
    (ran : run (wasm functions) fill fuel (.ofList (if b then thenBody else elseBody)) ⟨[], s⟩ =
      .next ⟨[w], s'⟩) (rest : Instructions H) :
    run (wasm functions) fill fuel (.ofList (Instruction.ifElseI64 thenBody elseBody :: rest))
        ⟨Op.ofBool b :: stack, s⟩ =
      run (wasm functions) fill fuel (.ofList rest) ⟨w :: stack, s'⟩ := by
  apply run_cons
  cases b with
  | true => exact congrArg (Outcome.leave 1 stack) ran
  | false => exact congrArg (Outcome.leave 1 stack) ran

@[simp] theorem run_if_false (body rest : Instructions H) :
    run (wasm functions) fill fuel (.ofList (Instruction.if_ body :: rest))
        ⟨Op.ofBool false :: stack, s⟩ =
      run (wasm functions) fill fuel (.ofList rest) ⟨stack, s⟩ := rfl

theorem run_if_true {body : Instructions H} {s' : Locals}
    (ran : run (wasm functions) fill fuel (.ofList body) ⟨[], s⟩ = .next ⟨[], s'⟩)
    (rest : Instructions H) :
    run (wasm functions) fill fuel (.ofList (Instruction.if_ body :: rest))
        ⟨Op.ofBool true :: stack, s⟩ =
      run (wasm functions) fill fuel (.ofList rest) ⟨stack, s'⟩ := by
  apply run_cons
  exact congrArg (Outcome.leave 0 stack) ran

@[simp] theorem run_br (depth : Nat) (rest : Instructions H) :
    run (wasm functions) fill fuel (.ofList (Instruction.br depth :: rest)) ⟨stack, s⟩ =
      .branch depth ⟨stack, s⟩ := rfl

@[simp] theorem run_brIf_true (depth : Nat) (rest : Instructions H) :
    run (wasm functions) fill fuel (.ofList (Instruction.brIf depth :: rest))
        ⟨Op.ofBool true :: stack, s⟩ = .branch depth ⟨stack, s⟩ := rfl

@[simp] theorem run_brIf_false (depth : Nat) (rest : Instructions H) :
    run (wasm functions) fill fuel (.ofList (Instruction.brIf depth :: rest))
        ⟨Op.ofBool false :: stack, s⟩ =
      run (wasm functions) fill fuel (.ofList rest) ⟨stack, s⟩ := rfl

@[simp] theorem run_if_trap (rest : Instructions H) :
    run (wasm functions) fill fuel
        (.ofList (Instruction.if_ [Instruction.unreachable] :: rest))
        ⟨Op.ofBool true :: stack, s⟩ = .trap := rfl

end Running

end LispRlm.WasmEmit
