import LispRlm.Foundation.Nesting
import LispRlm.WasmEmit.Instructions

/-! The forms of the emitter that keep operands in locals found by a fixed name. -/

namespace LispRlm.WasmEmit

open Foundation Instruction

variable {H : Type}

/-! ### Words -/

def tagBits : I64 := 3
def tagNil : I64 := 4
def tagStr : I64 := 5
def tagArray : I64 := 6

/-- The memory cell of the run-time heap pointer. -/
def runtimeHeapPtr : I64 := 56

def localIdx (name : String) : LocalVar := .named name
def localIdxI32 (name : String) : LocalVar := .namedI32 name

def expr (h : H) : Instructions H := [.hole h]

def emitUntag : Instructions H := [i64Const tagBits, i64 .shrS]

def emitTagNum : Instructions H := [i64Const tagBits, i64 .shl]

def emitTagNumChecked : Instructions H :=
  let tmp := localIdx "__tagck"
  [localSet tmp, localGet tmp, localGet tmp, i64Const tagBits, i64 .shl, i64Const tagBits,
    i64 .shrS, i64Rel .ne, if_ [unreachable], localGet tmp, i64Const tagBits, i64 .shl,
    i64Const 0, i64 .or]

def emitCheckedRetag : Instructions H :=
  let r := localIdx "__ck_retag_r"
  [localSet r, localGet r, i64Const (-(1 <<< 60)), i64Rel .ltS, if_ [unreachable], localGet r,
    i64Const ((1 <<< 60) - 1), i64Rel .gtS, if_ [unreachable], localGet r, i64Const tagBits,
    i64 .shl]

def emitCheckedSub : Instructions H :=
  let a := localIdx "__ck_sub_a"
  let b := localIdx "__ck_sub_b"
  let r := localIdx "__ck_sub_r"
  [localSet b, localSet a, localGet a, localGet b, i64 .sub, localSet r, localGet a, localGet b,
    i64 .xor, i64Const 0, i64Rel .ltS,
    if_ [localGet r, localGet a, i64 .xor, i64Const 0, i64Rel .ltS, if_ [unreachable]],
    localGet r]

def emitSafeRem : Instructions H :=
  let a := localIdx "__rem_a"
  let b := localIdx "__rem_b"
  let result := localIdx "__rem_result"
  [localSet b, localSet a, localGet b, i64Eqz,
    ifElse [unreachable]
      [localGet a, localGet b, i64 .remS, localSet result, localGet result, i64Const 0,
        i64Rel .ltS,
        if_ [localGet result, localGet b, i64Const 0, i64Rel .ltS,
          ifElseI64 [i64Const 0, localGet b, i64 .sub] [localGet b], i64 .add, localSet result]],
    localGet result]

def emitIsTruthy : Instructions H :=
  let tmp := localIdx "__truthy_tmp"
  [localSet tmp, localGet tmp, i64Const 1, i64Rel .eq, localGet tmp, i64Const tagNil, i64Rel .eq,
    i32 .or, localGet tmp, i64Const 0, i64Rel .eq, i32 .or, i32Eqz, i64ExtendI32U]

def emitCondBranch : Instructions H := emitIsTruthy ++ [i32WrapI64]

/-- Moves the heap pointer up by `nBytes`, below the end of memory, and leaves the old one. -/
def emitRuntimeAlloc (memoryPages : Nat) (nBytes : I64) : Instructions H :=
  let tmp := localIdx "__rha_tmp"
  let newPtr := localIdx "__rha_new"
  [i64Const runtimeHeapPtr, i32WrapI64, i64Load, localSet tmp, localGet tmp, i64Const nBytes,
    i64 .add, localSet newPtr, localGet newPtr, i64Const (.ofNat 64 (memoryPages * 65536)),
    i64Rel .ltU,
    ifElse [i64Const runtimeHeapPtr, i32WrapI64, localGet newPtr, i64Store] [unreachable],
    localGet tmp]

variable (functions : Op.Functions)

/-! ### Operators -/

abbrev Builtin := Operator (wasm functions)

namespace Builtin

def num (n : I64) : Builtin functions where
  arity := 0
  code := .ofList [i64Const (n <<< 3)]
  scratch := []
  valid := rfl

def sym (x : LocalVar) (isI64 : x.valType = .i64) : Builtin functions where
  arity := 0
  code := .ofList [localGet x]
  scratch := []
  valid := by
    apply validates_of_check
    have typed : (wasm functions).local_ x = .i64 := isI64
    simp only [Code.ofList, localGet, check, typed]
    rfl

def call (function : String) (args : Nat) : Builtin functions where
  arity := args
  code := .ofList ((List.finRange args).map .hole ++ [.prim (.call function args)])
  scratch := []
  valid := by
    apply validates_of_check
    rw [check_append, check_holes, List.length_finRange, Option.bind_some, Code.ofList, check,
      check]
    have popped := Typing.pop_push (List.replicate args ValType.i64) Typing.empty
    rw [show (wasm functions).takes (.call function args) = List.replicate args .i64 from rfl,
      show (wasm functions).word = .i64 from rfl, popped]
    rfl

/-- `max` and `min`: the best so far in one local and the next argument in the other. -/
def extremum (a b : String) (cmp : RelOp) (more : Nat) : Builtin functions where
  arity := more + 1
  code :=
    if more = 0 then .ofList (expr 0)
    else .ofList (expr 0 ++ emitUntag ++
      ((List.finRange more).flatMap fun i =>
        [localSet (localIdx a)] ++ expr i.succ ++ emitUntag ++
          [localSet (localIdx b), localGet (localIdx a), localGet (localIdx b), i64Rel cmp,
            ifElseI64 [localGet (localIdx a)] [localGet (localIdx b)]]) ++
      emitTagNum)
  scratch := [localIdx a, localIdx b]
  valid := by
    apply validates_of_check
    split
    · rfl
    · have start : check (wasm functions) [] (.ofList (expr (0 : Fin (more + 1)) ++ emitUntag))
          .empty = some ⟨[.i64], false⟩ := rfl
      rw [check_append, check_append, start, Option.bind_some, check_flatMap]
      · rfl
      · intro i
        rfl

def max (more : Nat) : Builtin functions := extremum functions "__max_a" "__max_b" .geS more

def min (more : Nat) : Builtin functions := extremum functions "__min_a" "__min_b" .leS more

/-- Square and multiply, while bits of the exponent are left. -/
def expt : Builtin functions :=
  let b := localIdx "__expt_b"
  let e := localIdx "__expt_e"
  let r := localIdx "__expt_r"
  { arity := 2
    code := .ofList (expr 0 ++ emitUntag ++ [localSet b] ++ expr 1 ++ emitUntag ++
      [localSet e, i64Const 1, localSet r,
        block [loop [localGet e, i64Eqz, brIf 1, localGet e, i64Const 1, i64 .and, i32WrapI64,
          if_ [localGet r, localGet b, i64 .mul, localSet r],
          localGet b, localGet b, i64 .mul, localSet b,
          localGet e, i64Const 1, i64 .shrU, localSet e, br 0]],
        localGet r] ++ emitTagNum)
    scratch := [b, e, r]
    valid := rfl }

/-- One turn of the loop of `expt`. -/
def exptTurn {n : Nat} : Instructions (Fin n) :=
  [localGet (localIdx "__expt_e"), i64Eqz, brIf 1, localGet (localIdx "__expt_e"), i64Const 1,
    i64 .and, i32WrapI64,
    if_ [localGet (localIdx "__expt_r"), localGet (localIdx "__expt_b"), i64 .mul,
      localSet (localIdx "__expt_r")],
    localGet (localIdx "__expt_b"), localGet (localIdx "__expt_b"), i64 .mul,
    localSet (localIdx "__expt_b"),
    localGet (localIdx "__expt_e"), i64Const 1, i64 .shrU, localSet (localIdx "__expt_e"), br 0]

/-- The code of `expt`. -/
def exptCode : Instructions (Fin 2) :=
  expr 0 ++ (emitUntag ++ localSet (localIdx "__expt_b") :: (expr 1 ++ (emitUntag ++
    localSet (localIdx "__expt_e") :: i64Const 1 :: localSet (localIdx "__expt_r") ::
      block [loop exptTurn] :: localGet (localIdx "__expt_r") :: emitTagNum)))

def shl : Builtin functions where
  arity := 2
  code := .ofList (expr 0 ++ emitUntag ++ expr 1 ++ emitUntag ++ [i64 .shl] ++ emitTagNumChecked)
  scratch := [localIdx "__tagck"]
  valid := rfl

def shr : Builtin functions where
  arity := 2
  code := .ofList (expr 0 ++ emitUntag ++ expr 1 ++ emitUntag ++ [i64 .shrU] ++ emitTagNum)
  scratch := []
  valid := rfl

def abs : Builtin functions where
  arity := 1
  code := .ofList (expr 0 ++ [i64Const 3, i64 .shrS, localTee (localIdx "__abs_tmp"), i64Const 0,
    i64Rel .ltS, ifElseI64 [i64Const 0, localGet (localIdx "__abs_tmp"), i64 .sub]
      [localGet (localIdx "__abs_tmp")]] ++ emitTagNum)
  scratch := [localIdx "__abs_tmp"]
  valid := rfl

def mod : Builtin functions where
  arity := 2
  code := .ofList (expr 0 ++ emitUntag ++ expr 1 ++ emitUntag ++ emitSafeRem ++ emitTagNum)
  scratch := [localIdx "__rem_a", localIdx "__rem_b", localIdx "__rem_result"]
  valid := rfl

def negate : Builtin functions where
  arity := 1
  code := .ofList ([i64Const 0] ++ expr 0 ++ emitUntag ++ emitCheckedSub ++ emitCheckedRetag)
  scratch := [localIdx "__ck_sub_a", localIdx "__ck_sub_b", localIdx "__ck_sub_r",
    localIdx "__ck_retag_r"]
  valid := rfl

/-- An array literal: the block's address is read again after each element. -/
def array (memoryPages count : Nat) : Builtin functions :=
  let ptr := localIdx "__arr_ptr"
  { arity := count
    code := .ofList (emitRuntimeAlloc memoryPages (.ofNat 64 ((1 + count) * 8)) ++
      [localSet ptr, localGet ptr, i32WrapI64, i64Const (.ofNat 64 count), i64Store] ++
      ((List.finRange count).flatMap fun i =>
        [localGet ptr, i64Const (.ofNat 64 ((i.val + 1) * 8)), i64 .add, i32WrapI64] ++ expr i ++
          [i64Store]) ++
      [localGet ptr, i64Const tagBits, i64 .shl, i64Const tagArray, i64 .or])
    scratch := [ptr, localIdx "__rha_tmp", localIdx "__rha_new"]
    valid := by
      apply validates_of_check
      have start : check (wasm functions) [] (.ofList
          (emitRuntimeAlloc (H := Fin count) memoryPages (.ofNat 64 ((1 + count) * 8)) ++
            [localSet ptr, localGet ptr, i32WrapI64, i64Const (.ofNat 64 count), i64Store]))
          .empty = some .empty := rfl
      rw [check_append, check_append, start, Option.bind_some, check_flatMap]
      · rfl
      · intro i
        rfl }

def vecLength : Builtin functions :=
  let val := localIdx "__vl_val"
  let arr := localIdx "__vl_arr"
  { arity := 1
    code := .ofList (expr 0 ++ [localSet val, localGet val, i64Const 7, i64 .and,
      i64Const tagStr, i64Rel .eq,
      ifElseI64 ([localGet val] ++ emitUntag ++ [i64Const 32, i64 .shrU])
        ([localGet val] ++ emitUntag ++ [localSet arr, localGet arr, i32WrapI64, i64Load])] ++
      emitTagNum)
    scratch := [val, arr]
    valid := rfl }

/-- The array and the index are in locals, and the index below the count, in this check. -/
def boundsCheck {n : Nat} (arr idx count : LocalVar) : Instructions (Fin n) :=
  [localGet arr, i64Load, i32WrapI64, localSet count, localGet idx, localGet count, i32 .ltU]

/-- The address of the element. -/
def elementAddress {n : Nat} (arr idx : LocalVar) : Instructions (Fin n) :=
  [localGet arr, i32Const 8, i32 .add, localGet idx, i32Const 3, i32 .shl, i32 .add]

def vecNth : Builtin functions :=
  let arr := localIdxI32 "__vn_arr"
  let idx := localIdxI32 "__vn_idx"
  let count := localIdxI32 "__vn_count"
  let result := localIdx "__vn_result"
  { arity := 2
    code := .ofList (expr 0 ++ emitUntag ++ [i32WrapI64, localSet arr] ++ expr 1 ++ emitUntag ++
      [i32WrapI64, localSet idx] ++ boundsCheck arr idx count ++
      [ifElse (elementAddress arr idx ++ [i64Load, localSet result])
          [i64Const tagNil, localSet result],
        localGet result])
    scratch := [arr, idx, count, result]
    valid := rfl }

def vecSet : Builtin functions :=
  let arr := localIdxI32 "__vs_arr"
  let idx := localIdxI32 "__vs_idx"
  let val := localIdx "__vs_val"
  let count := localIdxI32 "__vs_count"
  { arity := 3
    code := .ofList (expr 0 ++ emitUntag ++ [i32WrapI64, localSet arr] ++ expr 1 ++ emitUntag ++
      [i32WrapI64, localSet idx] ++ expr 2 ++ [localSet val] ++ boundsCheck arr idx count ++
      [if_ (elementAddress arr idx ++ [localGet val, i64Store]), i64Const tagNil])
    scratch := [arr, idx, val, count]
    valid := rfl }

def vecPush (memoryPages : Nat) : Builtin functions :=
  let oldArr := localIdx "__vp_old"
  let newArr := localIdx "__vp_new"
  let oldCount := localIdx "__vp_oc"
  let wordIdx := localIdx "__vp_wi"
  let val := localIdx "__vp_val"
  let rhaTmp := localIdx "__vp_rha"
  let rhaNew := localIdx "__vp_rhan"
  { arity := 2
    code := .ofList (expr 0 ++ emitUntag ++ [localSet oldArr] ++ expr 1 ++
      [localSet val, localGet oldArr, i32WrapI64, i64Load, localSet oldCount,
        localGet oldCount, i64Const 2, i64 .add, i64Const 8, i64 .mul, localSet rhaTmp,
        i64Const runtimeHeapPtr, i32WrapI64, i64Load, localSet newArr,
        localGet newArr, localGet rhaTmp, i64 .add, localSet rhaNew,
        localGet rhaNew, i64Const (.ofNat 64 (memoryPages * 65536)), i64Rel .ltU,
        ifElse [i64Const runtimeHeapPtr, i32WrapI64, localGet rhaNew, i64Store] [unreachable],
        i64Const 0, localSet wordIdx,
        block [loop [localGet wordIdx, localGet oldCount, i64Const 1, i64 .add, i64Rel .ltU,
          if_ [localGet newArr, localGet wordIdx, i64Const 8, i64 .mul, i64 .add, i32WrapI64,
            localGet oldArr, localGet wordIdx, i64Const 8, i64 .mul, i64 .add, i32WrapI64,
            i64Load, i64Store,
            localGet wordIdx, i64Const 1, i64 .add, localSet wordIdx, br 1]]],
        localGet newArr, i32WrapI64, localGet oldCount, i64Const 1, i64 .add, i64Store,
        localGet newArr, i64Const 8, i64 .add, localGet oldCount, i64Const 8, i64 .mul, i64 .add,
        i32WrapI64, localGet val, i64Store,
        localGet newArr, i64Const tagBits, i64 .shl, i64Const tagArray, i64 .or])
    scratch := [oldArr, newArr, oldCount, wordIdx, val, rhaTmp, rhaNew]
    valid := rfl }

/-- `(range-reduce init start end acc body)`. -/
def rangeReduce (accVar : String) : Builtin functions :=
  let acc := localIdx accVar
  let it := localIdx "__it"
  { arity := 4
    code := .ofList (expr 0 ++ [localSet acc] ++ expr 1 ++ [localSet it,
      blockI64 [loop ([localGet it] ++ emitUntag ++ expr 2 ++ emitUntag ++
        [i64Rel .geS, if_ [localGet acc, br 2]] ++
        expr 3 ++ emitUntag ++ emitTagNum ++ [localSet acc,
        localGet it, i64Const 8, i64 .add, localSet it, br 0]), i64Const tagNil]])
    scratch := [acc, it]
    valid := rfl }

/-- `(map-into offset start end body)`. -/
def mapInto : Builtin functions :=
  let it := localIdx "__it"
  let off := localIdx "__off"
  let count := localIdx "__count"
  { arity := 4
    code := .ofList (expr 0 ++ emitUntag ++ [localSet off] ++ expr 1 ++ emitUntag ++
      [localSet it, i64Const 0, localSet count,
        blockI64 [loop ([localGet it] ++ expr 2 ++ emitUntag ++
          [i64Rel .geS, if_ ([localGet count] ++ emitTagNum ++ [br 2]),
            localGet off, i32WrapI64] ++ expr 3 ++ emitUntag ++ [i64Store,
            localGet off, i64Const 8, i64 .add, localSet off,
            localGet it, i64Const 1, i64 .add, localSet it,
            localGet count, i64Const 1, i64 .add, localSet count, br 0]), i64Const tagNil]])
    scratch := [it, off, count]
    valid := rfl }

/-- `(filter-count start end pred)`. -/
def filterCount : Builtin functions :=
  let it := localIdx "__it"
  let count := localIdx "__count"
  { arity := 3
    code := .ofList (expr 0 ++ emitUntag ++ [localSet it, i64Const 0, localSet count,
      blockI64 [loop ([localGet it] ++ expr 1 ++ emitUntag ++
        [i64Rel .geS, if_ ([localGet count] ++ emitTagNum ++ [br 2])] ++
        expr 2 ++ emitCondBranch ++
        [if_ [localGet count, i64Const 1, i64 .add, localSet count],
          localGet it, i64Const 1, i64 .add, localSet it, br 0]), i64Const tagNil]])
    scratch := [it, count, localIdx "__truthy_tmp"]
    valid := rfl }

/-- `(hof/map (lambda (param) body) start end offset)`. -/
def hofMap (param : String) (outOffset : I64) : Builtin functions :=
  let x := localIdx param
  let it := localIdx "__hof_it"
  let count := localIdx "__hof_count"
  let tmp := localIdx "__hof_tmp"
  { arity := 3
    code := .ofList (expr 0 ++ emitUntag ++ [localSet it, i64Const 0, localSet count,
      blockI64 [loop ([localGet it] ++ expr 1 ++ emitUntag ++
        [i64Rel .geS, if_ ([localGet count] ++ emitTagNum ++ [br 2]),
          localGet it] ++ emitTagNum ++ [localSet x] ++ expr 2 ++ [localSet tmp,
          i64Const outOffset, localGet count, i64Const 8, i64 .mul, i64 .add, i32WrapI64,
          localGet tmp] ++ emitUntag ++ [i64Store,
          localGet count, i64Const 1, i64 .add, localSet count,
          localGet it, i64Const 1, i64 .add, localSet it, br 0]), i64Const tagNil]])
    scratch := [x, it, count, tmp]
    valid := rfl }

/-- `(hof/filter (lambda (param) pred) start end offset)`. -/
def hofFilter (param : String) (outOffset : I64) : Builtin functions :=
  let x := localIdx param
  let it := localIdx "__hof_it"
  let count := localIdx "__hof_count"
  { arity := 3
    code := .ofList (expr 0 ++ emitUntag ++ [localSet it, i64Const 0, localSet count,
      blockI64 [loop ([localGet it] ++ expr 1 ++ emitUntag ++
        [i64Rel .geS, if_ ([localGet count] ++ emitTagNum ++ [br 2]),
          localGet it] ++ emitTagNum ++ [localSet x] ++ expr 2 ++ emitCondBranch ++
        [if_ [i64Const outOffset, localGet count, i64Const 8, i64 .mul, i64 .add, i32WrapI64,
            localGet it, i64Store, localGet count, i64Const 1, i64 .add, localSet count],
          localGet it, i64Const 1, i64 .add, localSet it, br 0]), i64Const tagNil]])
    scratch := [x, it, count, localIdx "__truthy_tmp"]
    valid := rfl }

/-- `(hof/reduce (lambda (acc param) body) init start end)`. -/
def hofReduce (accParam param : String) : Builtin functions :=
  let acc := localIdx accParam
  let x := localIdx param
  let it := localIdx "__hof_it"
  { arity := 4
    code := .ofList (expr 0 ++ emitUntag ++ [localSet acc] ++ expr 1 ++ emitUntag ++ [localSet it,
      blockI64 [loop ([localGet it] ++ expr 2 ++ emitUntag ++
        [i64Rel .geS, if_ ([localGet acc] ++ emitTagNum ++ [br 2]),
          localGet it] ++ emitTagNum ++ [localSet x, localGet acc] ++ emitTagNum ++
        [localSet acc] ++ expr 3 ++ emitUntag ++ [localSet acc,
          localGet it, i64Const 1, i64 .add, localSet it, br 0]), i64Const tagNil]])
    scratch := [acc, x, it]
    valid := rfl }

/-- The forms of a body: all values but the last are dropped. -/
def bodyForms {n : Nat} : List (Fin n) → Instructions (Fin n)
  | [] => [i64Const tagNil]
  | [last] => expr last
  | first :: rest => expr first ++ [drop] ++ bodyForms rest

theorem check_bodyForms {n : Nat} (forms : List (Fin n)) :
    check (wasm functions) [] (.ofList (bodyForms forms)) .empty = some ⟨[.i64], false⟩ := by
  fun_induction bodyForms forms with
  | case1 => rfl
  | case2 last => rfl
  | case3 first rest more ih =>
      rw [check_append, check_append]
      exact ih

/-- `let`: every binding has a slot of its own, taken once its value is computed. -/
def let_ (slots : List Nat) (forms : Nat) : Builtin functions where
  arity := slots.length + forms
  code := .ofList (((List.finRange slots.length).flatMap fun i =>
      expr (i.castAdd forms) ++ [localSet (.fresh slots[i])]) ++
    bodyForms ((List.finRange forms).map (Fin.natAdd slots.length)))
  scratch := slots.map .fresh
  valid := by
    apply validates_of_check
    rw [check_append, check_flatMap]
    · exact check_bodyForms functions _
    · intro i
      rfl

end Builtin

/-! ### Nested forms -/

namespace Builtin

def noFunctions : Op.Functions := fun _ _ _ => none

/-- A variable that holds a number. -/
def variable_ (name : String) : Expr (wasm noFunctions) :=
  .node (sym noFunctions (localIdx name) rfl) Fin.elim0

def maxOf (a b : Expr (wasm noFunctions)) : Expr (wasm noFunctions) :=
  .node (max noFunctions 1) (fun i : Fin 2 => if i = 0 then a else b)

def sampleStore : Store LocalVar I64 LinearMemory where
  locals x :=
    if x = localIdx "a" then 5 <<< 3
    else if x = localIdx "b" then 1 <<< 3
    else if x = localIdx "c" then 2 <<< 3
    else 0
  memory := ⟨fun _ => 0, 65536⟩

end Builtin

end LispRlm.WasmEmit
