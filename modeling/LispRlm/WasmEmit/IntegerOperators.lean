import LispRlm.WasmEmit.OperatorValues

/-! The integer operators in the three places that evaluate them: the emitter's folder of constants,
the code it emits, and the bytecode machine. -/

namespace LispRlm.WasmEmit

open Foundation Instruction

/-! ### Numbers -/

def inI64 (n : Int) : Bool := -2 ^ 63 ≤ n && n < 2 ^ 63

def inPayload (n : Int) : Bool := -2 ^ 60 ≤ n && n < 2 ^ 60

/-- The numbers that a tagged word holds. -/
abbrev Payload := { n : Int // inPayload n = true }

/-- The numbers of a machine word. -/
abbrev Wide := { n : Int // inI64 n = true }

theorem inI64_of_inPayload {n : Int} (fits : inPayload n = true) : inI64 n = true := by
  simp only [inPayload, inI64, Bool.and_eq_true, decide_eq_true_eq] at fits ⊢
  omega

def Payload.wide (v : Payload) : Wide := ⟨v.val, inI64_of_inPayload v.property⟩

def checkedI64 (n : Int) : Option Int := if inI64 n then some n else none

/-- The word of a number, tagged. -/
def tagWord (n : Int) : I64 := .ofInt 64 (n * 8)

inductive Literal
  | num (n : Int)
  | bool (b : Bool)
  deriving DecidableEq

namespace Literal

def word : Literal → I64
  | .num n => tagWord n
  | .bool b => if b then 9 else 1

/-- What a word can hold without losing bits. -/
def tags : Literal → Bool
  | .num n => inPayload n
  | .bool _ => true

end Literal

inductive Arith
  | add | sub | mul
  deriving DecidableEq

namespace Arith

def apply : Arith → Int → Int → Int
  | .add, a, b => a + b
  | .sub, a, b => a - b
  | .mul, a, b => a * b

/-- `try_fold` with the checked operation. -/
def foldChecked (op : Arith) (first : Int) (more : List Int) : Option Int :=
  more.foldlM (fun acc x => checkedI64 (op.apply acc x)) first

def identity : Arith → Int
  | .add => 0
  | .sub => -2 ^ 63
  | .mul => 1

end Arith

/-- The operators by their names in programs; `rem` is `%`. -/
inductive IntOp
  | arith (op : Arith)
  | div | mod | rem
  | abs | max | min
  | shl | shr | band | bor | bnot | bxor
  | lt | gt | le | ge | eq
  deriving DecidableEq

namespace IntOp

/-- The counts of operands in the table of operators. `max`, `min`, `%` and `bxor` are not in it. -/
def accepts : IntOp → Nat → Bool
  | .arith .add, _ | .arith .mul, _ => true
  | .arith .sub, n | .div, n | .max, n | .min, n => 1 ≤ n
  | .abs, n | .bnot, n => n == 1
  | .mod, n | .rem, n | .shl, n | .shr, n | .band, n | .bor, n | .bxor, n => n == 2
  | .lt, n | .gt, n | .le, n | .ge, n | .eq, n => 2 ≤ n

end IntOp

/-! ### The folder -/

/-- What `const_eval` does with a form on constants. -/
inductive Folded
  | declines
  | makes (v : Literal)
  | panics
  deriving DecidableEq

namespace Folded

def ofOption : Option Int → Folded
  | none => .declines
  | some n => .makes (.num n)

/-- Machine arithmetic without a check stops the compiler where it overflows. -/
def unchecked (n : Int) : Folded := if inI64 n then .makes (.num n) else .panics

end Folded

/-- The arms of `const_eval`. -/
def constArm (op : IntOp) (first : Int) (more : List Int) : Folded :=
  match op, more with
  | .arith .sub, [] => .ofOption (checkedI64 (-first))
  | .arith op, more => .ofOption (op.foldChecked first more)
  | .div, [b] => if b = 0 then .declines else .unchecked (first.tdiv b)
  | .mod, [b] =>
      if b = 0 then .declines
      else if first = -2 ^ 63 ∧ b = -1 then .panics
      else .makes (.num (first.tmod b))
  | .lt, [b] => .makes (.bool (first < b))
  | .gt, [b] => .makes (.bool (b < first))
  | .le, [b] => .makes (.bool (first ≤ b))
  | .ge, [b] => .makes (.bool (b ≤ first))
  | .eq, [b] => .makes (.bool (first == b))
  | .abs, [] => .unchecked |first|
  | .max, more => .makes (.num (more.foldl max first))
  | .min, more => .makes (.num (more.foldl min first))
  | _, _ => .declines

/-- Forms with fewer than two operands are not folded. -/
def constEval (op : IntOp) : List Int → Folded
  | first :: second :: more => constArm op first (second :: more)
  | _ => .declines

/-- `emit_tagged_const`: constants outside the payload's range are refused. -/
def emitTaggedConst (n : Int) : Option I64 := if inPayload n then some (tagWord n) else none

/-- `fold_binop` on constants: the word it emits, or the compiler's error. -/
def foldBinop (op : Arith) : List Int → Option I64
  | [] => emitTaggedConst op.identity
  | first :: more => (op.foldChecked first more).bind emitTaggedConst

/-- The forms that the emitter folds where all operands are constants. -/
def foldedForm : IntOp → List Int → Option (Option I64)
  | .arith .sub, [_] => none
  | .arith op, nums => some (foldBinop op nums)
  | _, _ => none

/-! ### Emitted code -/

section Emitted

variable {H : Type}

def tagBool : I64 := 1

def emitTagBool : Instructions H := [i64Const tagBits, i64 .shl, i64Const tagBool, i64 .or]

def emitCheckedAdd : Instructions H :=
  let a := localIdx "__ck_add_a"
  let b := localIdx "__ck_add_b"
  let r := localIdx "__ck_add_r"
  [localSet b, localSet a, localGet a, localGet b, i64 .add, localSet r, localGet a, localGet b,
    i64 .xor, i64Const 0, i64Rel .geS,
    if_ [localGet r, localGet a, i64 .xor, i64Const 0, i64Rel .ltS, if_ [unreachable]],
    localGet r]

def emitCheckedMul : Instructions H :=
  let a := localIdx "__ck_mul_a"
  let b := localIdx "__ck_mul_b"
  let r := localIdx "__ck_mul_r"
  [localSet b, localSet a, localGet a, i64Eqz,
    ifElseI64 [i64Const 0]
      [localGet b, i64Eqz,
        ifElseI64 [i64Const 0]
          [localGet a, localGet b, i64 .mul, localSet r, localGet b, i64Const (-1), i64Rel .eq,
            ifElse [localGet a, i64Const (BitVec.intMin 64), i64Rel .eq, if_ [unreachable]]
              [localGet r, localGet b, i64 .divS, localGet a, i64Rel .ne, if_ [unreachable]],
            localGet r]]]

def emitSafeDiv : Instructions H :=
  let a := localIdx "__div_a"
  let b := localIdx "__div_b"
  [localSet b, localSet a, localGet b, i64Eqz,
    ifElseI64 [unreachable] [localGet a, localGet b, i64 .divS]]

namespace Arith

def emitChecked : Arith → Instructions H
  | .add => emitCheckedAdd
  | .sub => emitCheckedSub
  | .mul => emitCheckedMul

def scratch : Arith → List LocalVar
  | .add => [localIdx "__ck_add_a", localIdx "__ck_add_b", localIdx "__ck_add_r"]
  | .sub => [localIdx "__ck_sub_a", localIdx "__ck_sub_b", localIdx "__ck_sub_r"]
  | .mul => [localIdx "__ck_mul_a", localIdx "__ck_mul_b", localIdx "__ck_mul_r"]

end Arith

/-- The run-time path of `fold_binop`: sums and differences stay tagged, a product is tagged again
at the end. -/
def emitArith (op : Arith) (first : H) (more : List H) : Instructions H :=
  if op = .mul then
    expr first ++ emitUntag ++ (more.flatMap fun x => expr x ++ emitUntag ++ op.emitChecked) ++
      emitCheckedRetag
  else expr first ++ more.flatMap fun x => expr x ++ op.emitChecked

def polyAcc (depth : Nat) : LocalVar := localIdx ("__pa" ++ Nat.repr depth ++ "_acc")
def polyCur (depth : Nat) : LocalVar := localIdx ("__pa" ++ Nat.repr depth ++ "_cur")

/-- One operand of `+` that may be a string: `concat` is the code that joins strings. -/
def polyRound (concat : Instructions H) (depth : Nat) (x : H) : Instructions H :=
  let acc := polyAcc depth
  let cur := polyCur depth
  expr x ++ [localSet cur, localGet acc, i64Const 7, i64 .and, i64Const tagStr, i64Rel .eq,
    localGet cur, i64Const 7, i64 .and, i64Const tagStr, i64Rel .eq, i32 .or,
    ifElse concat ([localGet acc, localGet cur] ++ emitCheckedAdd ++ [localSet acc])]

def emitPolyAdd (concat : Instructions H) (depth : Nat) (first : H) (more : List H) :
    Instructions H :=
  expr first ++ [localSet (polyAcc depth)] ++ more.flatMap (polyRound concat depth) ++
    [localGet (polyAcc depth)]

/-- `fold_binop_safe` for quotients. -/
def emitDiv (first : H) (more : List H) : Instructions H :=
  expr first ++ emitUntag ++ (more.flatMap fun x => expr x ++ emitUntag ++ emitSafeDiv) ++
    emitTagNum

def emitExtremum (a b : String) (cmp : RelOp) (first : H) (more : List H) : Instructions H :=
  if more = [] then expr first
  else
    expr first ++ emitUntag ++
      (more.flatMap fun x =>
        [localSet (localIdx a)] ++ expr x ++ emitUntag ++
          [localSet (localIdx b), localGet (localIdx a), localGet (localIdx b), i64Rel cmp,
            ifElseI64 [localGet (localIdx a)] [localGet (localIdx b)]]) ++
      emitTagNum

/-- Both operands untagged, one instruction, and its result tagged. -/
def emitBinary (op : BinOp) (retag : Instructions H) (x y : H) : Instructions H :=
  expr x ++ emitUntag ++ expr y ++ emitUntag ++ [i64 op] ++ retag

def emitCmp (op : RelOp) (x y : H) : Instructions H :=
  expr x ++ emitUntag ++ expr y ++ emitUntag ++ [i64Rel op, i64ExtendI32U] ++ emitTagBool

/-- Words of numbers are compared as they are; other operands go through the helper. -/
def emitEq (numeric : Bool) (x y : H) : Instructions H :=
  if numeric then expr x ++ expr y ++ [i64Rel .eq, i64ExtendI32U] ++ emitTagBool
  else expr x ++ expr y ++ [.prim (.call "__h_val_eq" 2)] ++ emitTagBool

/-- What the emitter knows about the operands' types, and where the form stands. -/
structure Emission (H : Type) where
  numeric : Bool
  depth : Nat
  concat : Instructions H

/-- The code of a form whose operands are not all constants; `none` is the compiler's error. -/
def emitted (e : Emission H) : IntOp → List H → Option (Instructions H)
  | .arith op, [] => (emitTaggedConst op.identity).map fun w => [i64Const w]
  | .arith .add, x :: more =>
      some (if e.numeric then emitArith .add x more else emitPolyAdd e.concat e.depth x more)
  | .arith .sub, [x] =>
      some ([i64Const 0] ++ expr x ++ emitUntag ++ emitCheckedSub ++ emitCheckedRetag)
  | .arith op, x :: more => some (emitArith op x more)
  | .div, x :: more => some (emitDiv x more)
  | .mod, x :: y :: _ =>
      some (expr x ++ emitUntag ++ expr y ++ emitUntag ++ emitSafeRem ++ emitTagNum)
  | .abs, x :: _ =>
      some (expr x ++ [i64Const 3, i64 .shrS, localTee (localIdx "__abs_tmp"), i64Const 0,
        i64Rel .ltS, ifElseI64 [i64Const 0, localGet (localIdx "__abs_tmp"), i64 .sub]
          [localGet (localIdx "__abs_tmp")]] ++ emitTagNum)
  | .max, x :: more => some (emitExtremum "__max_a" "__max_b" .geS x more)
  | .min, x :: more => some (emitExtremum "__min_a" "__min_b" .leS x more)
  | .shl, [x, y] => some (emitBinary .shl emitTagNumChecked x y)
  | .shr, [x, y] => some (emitBinary .shrU emitTagNum x y)
  | .band, [x, y] => some (emitBinary .and emitTagNum x y)
  | .bor, [x, y] => some (emitBinary .or emitTagNum x y)
  | .bnot, [x] => some (expr x ++ emitUntag ++ [i64Const (-1), i64 .xor] ++ emitTagNum)
  | .lt, x :: y :: _ => some (emitCmp .ltS x y)
  | .gt, x :: y :: _ => some (emitCmp .gtS x y)
  | .le, x :: y :: _ => some (emitCmp .leS x y)
  | .ge, x :: y :: _ => some (emitCmp .geS x y)
  | .eq, x :: y :: more => some (emitEq (e.numeric && more.isEmpty) x y)
  | _, _ => none

end Emitted

/-! ### The helper of `=` -/

/-- The parts of the helper for strings and arrays: each leaves the function by itself. -/
structure ValEq where
  texts : Instructions Empty
  elements : Instructions Empty

namespace ValEq

def code (h : ValEq) : Code LocalVar Op Empty ValType :=
  let tagA := localIdx "tag_a"
  let tagB := localIdx "tag_b"
  blockI64 ([localGet (.param 0), i64Const 7, i64 .and, localSet tagA, localGet (.param 1),
    i64Const 7, i64 .and, localSet tagB, localGet tagA, localGet tagB, i64Rel .ne,
    if_ [i64Const 0, br 1], localGet tagA, i64Const tagStr, i64Rel .eq, if_ h.texts,
    localGet tagA, i64Const tagArray, i64Rel .eq, if_ h.elements, localGet (.param 0),
    localGet (.param 1), i64Rel .eq, i64ExtendI32U])

def start (a b : I64) (m : LinearMemory) : Locals where
  locals x := if x = .param 0 then a else if x = .param 1 then b else 0
  memory := m

/-- A call of the helper, which may call itself and the others through `functions`. -/
def call (h : ValEq) (functions : Op.Functions) (fuel : Nat) :
    List I64 → LinearMemory → Option (I64 × LinearMemory)
  | [a, b], m =>
      match run (wasm functions) Empty.elim fuel h.code ⟨[], start a b m⟩ with
      | .next ⟨[w], t⟩ => some (w, t.memory)
      | _ => none
  | _, _ => none

/-- The module's functions with the helper among them. -/
def among (h : ValEq) (functions : Op.Functions) (fuel : Nat) : Op.Functions := fun name =>
  if name = "__h_val_eq" then h.call functions fuel else functions name

end ValEq

/-! ### The bytecode machine -/

inductive VmError
  | notCompiled
  | unknown (name : String)
  | overflow (op : String)
  | payloadRange (op : String)
  | byZero (op : String)
  | notNumbers (op : String) (a b : Literal)
  | shlRange
  deriving DecidableEq

namespace Vm

abbrev Result := Except VmError Literal

def checkNumRange (r : Int) (op : String) : Result :=
  if inPayload r then .ok (.num r) else .error (.payloadRange op)

def numArithChecked (op : String) (intOp : Int → Int → Option Int) : Literal → Literal → Result
  | .num x, .num y =>
      match intOp x y with
      | some r => checkNumRange r op
      | none => .error (.overflow op)
  | a, b => .error (.notNumbers op a b)

/-- `check_float_zero` before the operation; only numbers are checked. -/
def orByZero (what : String) (step : Literal → Literal → Result) : Literal → Literal → Result
  | a, .num n => if n = 0 then .error (.byZero what) else step a (.num n)
  | a, b => step a b

def checkedOp (f : Int → Int → Int) (x y : Int) : Option Int := checkedI64 (f x y)

def arithName : Arith → String
  | .add => "add"
  | .sub => "sub"
  | .mul => "mul"

def arithStep (op : Arith) : Literal → Literal → Result :=
  numArithChecked (arithName op) (checkedOp op.apply)

def divStep : Literal → Literal → Result :=
  orByZero "division" (numArithChecked "div" (checkedOp Int.tdiv))

def remStep : Literal → Literal → Result :=
  orByZero "modulo" (numArithChecked "mod" (checkedOp Int.tmod))

def numCmp (op : String) (intOp : Int → Int → Bool) : Literal → Literal → Result
  | .num x, .num y => .ok (.bool (intOp x y))
  | a, b => .error (.notNumbers op a b)

def lispEq : Literal → Literal → Result
  | .num x, .num y => .ok (.bool (x == y))
  | .bool x, .bool y => .ok (.bool (x == y))
  | _, _ => .ok (.bool false)

/-- Operators of two operands and more are compiled to one instruction for each after the
first. -/
def chain (step : Literal → Literal → Result) : List Int → Result
  | first :: second :: more => ((second :: more).map .num).foldlM step (.num first)
  | _ => .error .notCompiled

/-- The count of a shift. -/
def shiftCount (n : Int) : Nat := (BitVec.ofInt 64 n).toNat % 64

def signed (w : I64) : Result := .ok (.num w.toInt)

def eval : IntOp → List Int → Result
  | .arith .sub, [x] => arithStep .sub (.num 0) (.num x)
  | .arith op, xs => chain (arithStep op) xs
  | .div, xs => chain divStep xs
  | .rem, xs => chain remStep xs
  | .mod, [x, y] => if y = 0 then .error (.byZero "modulo") else .ok (.num (x.emod y))
  | .abs, [x] =>
      match checkedI64 |x| with
      | some n => .ok (.num n)
      | none => .error (.overflow "abs")
  | .max, first :: more => .ok (.num (more.foldl max first))
  | .min, first :: more => .ok (.num (more.foldl min first))
  | .shl, [x, s] =>
      let r := (BitVec.ofInt 64 x <<< shiftCount s).toInt
      if inPayload r then .ok (.num r) else .error .shlRange
  | .shr, [x, s] => signed (BitVec.ofInt 64 x >>> shiftCount s)
  | .band, [x, y] => signed (BitVec.ofInt 64 x &&& BitVec.ofInt 64 y)
  | .bor, [x, y] => signed (BitVec.ofInt 64 x ||| BitVec.ofInt 64 y)
  | .bnot, [x] => signed (~~~BitVec.ofInt 64 x)
  | .bxor, _ => .error (.unknown "bxor")
  | .lt, xs => chain (numCmp "<" (· < ·)) xs
  | .gt, xs => chain (numCmp ">" (· > ·)) xs
  | .le, xs => chain (numCmp "<=" (· ≤ ·)) xs
  | .ge, xs => chain (numCmp ">=" (· ≥ ·)) xs
  | .eq, xs => chain lispEq xs
  | _, _ => .error .notCompiled

end Vm

end LispRlm.WasmEmit
