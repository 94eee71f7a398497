import LispRlm.Bytecode.Values
import LispRlm.Foundation.Effect

/-! `map`, `filter` and `reduce`: what their four implementations do with a function that has
effects and may fail. -/

namespace LispRlm.Bytecode

open LispRlm.Foundation

namespace Traversal

/-! ### Applying a function value -/

/-- The machine under a function value: pre-compiled bodies, builtins and the caches of memoized
functions. -/
structure Machine (σ κ : Type) where
  compiled : LispVal → Option κ
  runCompiledLambda : κ → List LispVal → Eff σ String LispVal
  evalBuiltin : String → List LispVal → Eff σ String LispVal
  cacheGet : LispVal → String → σ → Option LispVal
  cacheInsert : LispVal → String → LispVal → σ → σ

/-- The clause that takes `n` arguments: the first of that arity, else the last with a rest
parameter before it. -/
def matchedClause (n : Nat) : Option LispVal → List (Nat × Bool × LispVal) → Option LispVal
  | matched, [] => matched
  | matched, (nFixed, hasRest, lambda) :: clauses =>
    if hasRest then matchedClause n (some lambda) clauses
    else if nFixed = n then some lambda
    else matchedClause n matched clauses

theorem sizeOf_matchedClause {n : Nat} {clauses : List (Nat × Bool × LispVal)} :
    ∀ {matched lambda}, matchedClause n matched clauses = some lambda →
      matched = some lambda ∨ sizeOf lambda < sizeOf clauses := by
  induction clauses with
  | nil => exact fun found => .inl found
  | cons clause clauses ih =>
    intro matched lambda found
    obtain ⟨nFixed, hasRest, first⟩ := clause
    simp only [matchedClause] at found
    split at found
    · rcases ih found with same | smaller
      · cases same
        right
        simp +arith
      · right
        simp only [List.cons.sizeOf_spec]
        omega
    · split at found
      · cases found
        right
        simp +arith
      · rcases ih found with same | smaller
        · exact .inl same
        · right
          simp only [List.cons.sizeOf_spec]
          omega

section Calls

variable {σ κ : Type} (m : Machine σ κ)

def cannotCall (func : LispVal) : String :=
  "cannot call " ++ display func ++ " as a function (expected a lambda or builtin)"

def vmCallLambda (func : LispVal) (args : List LispVal) : Eff σ String LispVal :=
  match func with
  | .lambda params restParam body closedEnv =>
    match m.compiled (.lambda params restParam body closedEnv) with
    | some cl => m.runCompiledLambda cl args
    | none => throw (cannotCall (.lambda params restParam body closedEnv))
  | .builtinFn name => m.evalBuiltin name args
  | .caseLambda clauses =>
    match _ : matchedClause args.length none clauses with
    | some lambda => vmCallLambda lambda args
    | none => throw s!"case-lambda: no clause matches {args.length} arguments"
  | .memoized func cacheLen => do
    let key := toString (hashArgs args).toNat
    let state ← get
    match m.cacheGet (.memoized func cacheLen) key state with
    | some result => pure result
    | none =>
      let result ← vmCallLambda func args
      modify (m.cacheInsert (.memoized func cacheLen) key result)
      pure result
  | func => throw (cannotCall func)
termination_by sizeOf func
decreasing_by
  · rename_i found
    rcases sizeOf_matchedClause found with same | smaller
    · cases same
    · simp only [LispVal.caseLambda.sizeOf_spec]
      omega
  · simp +arith

end Calls

/-- The ways in which a traversal applies function values: any of them, and a lambda without a rest
parameter by its pre-compiled body. -/
structure Callee (σ : Type) where
  callVal : LispVal → List LispVal → Eff σ String LispVal
  fastPath : LispVal → Option (List LispVal → Eff σ String LispVal)

def Machine.callee {σ κ : Type} (m : Machine σ κ) : Callee σ where
  callVal := vmCallLambda m
  fastPath
    | .lambda params none body closedEnv =>
      (m.compiled (.lambda params none body closedEnv)).map m.runCompiledLambda
    | _ => none

/-- Both ways do the same. -/
def Callee.Uniform {σ : Type} (c : Callee σ) : Prop :=
  ∀ {func run}, c.fastPath func = some run → run = c.callVal func

theorem Machine.uniform {σ κ : Type} (m : Machine σ κ) : m.callee.Uniform := by
  intro func run fast
  simp only [Machine.callee] at fast ⊢
  split at fast
  · rcases Option.map_eq_some_iff.mp fast with ⟨cl, compiled, rfl⟩
    funext args
    rw [vmCallLambda]
    simp only [compiled]
  · cases fast

/-- Records what a function is applied to. -/
def recorded {σ : Type} (run : List LispVal → Eff σ String LispVal) (args : List LispVal) :
    Eff (σ × List (List LispVal)) String LispVal := fun s =>
  match run args s.1 with
  | .ok result s' => .ok result (s', s.2 ++ [args])
  | .error e s' => .error e (s', s.2 ++ [args])

def Callee.recorded {σ : Type} (c : Callee σ) : Callee (σ × List (List LispVal)) where
  callVal func := Traversal.recorded (c.callVal func)
  fastPath func := (c.fastPath func).map Traversal.recorded

theorem Callee.Uniform.recorded {σ : Type} {c : Callee σ} (uniform : c.Uniform) :
    c.recorded.Uniform := by
  intro func run fast
  rcases Option.map_eq_some_iff.mp fast with ⟨run', fast', rfl⟩
  rw [uniform fast']
  rfl

/-! ### The loops -/

section Loops

variable {σ : Type} (c : Callee σ)

/-- A list or a vector. -/
def seq (isVec : Bool) (vals : List LispVal) : LispVal := if isVec then .vec vals else .list vals

def mapLoop (call : List LispVal → Eff σ String LispVal) :
    List LispVal → Eff σ String (List LispVal)
  | [] => pure []
  | v :: vs => do
    let r ← call [v]
    let rs ← mapLoop call vs
    pure (r :: rs)

def filterLoop (keep : LispVal → Eff σ String Bool) : List LispVal → Eff σ String (List LispVal)
  | [] => pure []
  | v :: vs => do
    let kept ← keep v
    let rest ← filterLoop keep vs
    pure (if kept then v :: rest else rest)

def reduceLoop (step : LispVal → LispVal → Eff σ String LispVal) :
    LispVal → List LispVal → Eff σ String LispVal
  | acc, [] => pure acc
  | acc, v :: vs => do
    let acc ← step acc v
    reduceLoop step acc vs

/-- The virtual machine keeps an element for every result but `false`, and drops it for an
error. -/
def vmKeep (call : List LispVal → Eff σ String LispVal) (v : LispVal) :
    Eff σ String Bool := fun s =>
  match call [v] s with
  | .ok (.bool b) s' => .ok b s'
  | .ok _ s' => .ok true s'
  | .error _ s' => .ok false s'

/-- The virtual machine keeps the accumulator of a step that fails. -/
def vmStep (call : List LispVal → Eff σ String LispVal) (acc v : LispVal) :
    Eff σ String LispVal := fun s =>
  match call [acc, v] s with
  | .ok r s' => .ok r s'
  | .error _ s' => .ok acc s'

def callKeep (call : List LispVal → Eff σ String LispVal) (v : LispVal) : Eff σ String Bool :=
  LispVal.isTruthy <$> call [v]

def callStep (call : List LispVal → Eff σ String LispVal) (acc v : LispVal) :
    Eff σ String LispVal :=
  call [acc, v]

/-! ### The virtual machine -/

def vmMap (func list : LispVal) : Eff σ String LispVal :=
  match list with
  | .list l => seq false <$> mapLoop (c.callVal func) l
  | .vec v => seq true <$> mapLoop (c.callVal func) v
  | _ => pure .nil

def vmFilter (func list : LispVal) : Eff σ String LispVal :=
  match list with
  | .list l => seq false <$> filterLoop (vmKeep (c.callVal func)) l
  | .vec v => seq true <$> filterLoop (vmKeep (c.callVal func)) v
  | _ => pure .nil

def vmReduce (func init list : LispVal) : Eff σ String LispVal :=
  match list with
  | .list l => reduceLoop (vmStep (c.callVal func)) init l
  | .vec v => reduceLoop (vmStep (c.callVal func)) init v
  | _ => pure init

def outOfBounds (op : String) (slotIdx slots : Nat) : String :=
  s!"{op}: slot index {slotIdx} out of bounds (slots_len={slots})"

/-- What is popped off a stack, `nil` off an empty one, and the rest. -/
def pop : List LispVal → LispVal × List LispVal
  | [] => (.nil, [])
  | v :: stack => (v, stack)

/-- `MapOp` on a stack, its top first. -/
def mapOp (slots : List LispVal) (slotIdx : Nat) (stack : List LispVal) :
    Eff σ String (List LispVal) :=
  let (list, stack) := pop stack
  match slots[slotIdx]? with
  | none => throw (outOfBounds "MapOp" slotIdx slots.length)
  | some func => (· :: stack) <$> vmMap c func list

def filterOp (slots : List LispVal) (slotIdx : Nat) (stack : List LispVal) :
    Eff σ String (List LispVal) :=
  let (list, stack) := pop stack
  match slots[slotIdx]? with
  | none => throw (outOfBounds "FilterOp" slotIdx slots.length)
  | some func => (· :: stack) <$> vmFilter c func list

def reduceOp (slots : List LispVal) (slotIdx : Nat) (stack : List LispVal) :
    Eff σ String (List LispVal) :=
  let (list, stack) := pop stack
  let (init, stack) := pop stack
  match slots[slotIdx]? with
  | none => throw (outOfBounds "ReduceOp" slotIdx slots.length)
  | some func => (· :: stack) <$> vmReduce c func init list

/-- The arguments of a builtin, popped and reversed. -/
def popArgs : Nat → List LispVal → List LispVal × List LispVal
  | 0, stack => ([], stack)
  | n + 1, stack =>
    let (v, stack) := pop stack
    let (args, stack) := popArgs n stack
    (args ++ [v], stack)

/-- `BuiltinCall`; the other builtins are a parameter. -/
def builtinCall (otherwise : String → List LispVal → Eff σ String LispVal) (name : String)
    (nArgs : Nat) (stack : List LispVal) : Eff σ String (List LispVal) :=
  let (bargs, stack) := popArgs nArgs stack
  match name, bargs with
  | "map", [func, list] => (· :: stack) <$> vmMap c func list
  | "filter", [func, list] => (· :: stack) <$> vmFilter c func list
  | "reduce", [func, init, list] => (· :: stack) <$> vmReduce c func init list
  | name, bargs => (· :: stack) <$> otherwise name bargs

/-! ### The dispatcher -/

/-- Applies the pre-compiled body to the first element, goes on with it if that worked, and takes
the slow path if it did not. -/
def viaFastPath {α β : Type} (fast : Option (List LispVal → Eff σ String LispVal))
    (first : List LispVal) (go : (List LispVal → Eff σ String LispVal) → LispVal → Eff σ String α)
    (wrap : α → β) (slow : Eff σ String β) : Eff σ String β :=
  match fast with
  | none => slow
  | some run => fun s =>
    match run first s with
    | .ok firstResult s' => (wrap <$> go run firstResult) s'
    | .error _ s' => slow s'

def handleMapOver (func : LispVal) (lst : List LispVal) (isVec : Bool) : Eff σ String LispVal :=
  let slow := seq isVec <$> mapLoop (c.callVal func) lst
  match lst with
  | [] => slow
  | v :: vs =>
    viaFastPath (c.fastPath func) [v]
      (fun run firstResult => (firstResult :: ·) <$> mapLoop run vs) (seq isVec) slow

def handleFilterOver (func : LispVal) (lst : List LispVal) (isVec : Bool) :
    Eff σ String LispVal :=
  let slow := seq isVec <$> filterLoop (callKeep (c.callVal func)) lst
  match lst with
  | [] => slow
  | v :: vs =>
    viaFastPath (c.fastPath func) [v]
      (fun run firstResult => (fun rest => if firstResult.isTruthy then v :: rest else rest) <$>
        filterLoop (callKeep run) vs)
      (seq isVec) slow

def handleReduceOver (func init : LispVal) (lst : List LispVal) : Eff σ String LispVal :=
  let slow := reduceLoop (callStep (c.callVal func)) init lst
  match lst with
  | [] => slow
  | v :: vs =>
    viaFastPath (c.fastPath func) [init, v]
      (fun run firstResult => reduceLoop (callStep run) firstResult vs) id slow

def handleMap (args : List LispVal) : Eff σ String LispVal :=
  match args with
  | [] => throw "map: need (f list)"
  | func :: args =>
    match args.head? with
    | some (.list l) => handleMapOver c func l false
    | some (.vec v) => handleMapOver c func v true
    | some .nil => pure (.list [])
    | some other => throw ("map: expected list or vec, got " ++ display other)
    | none => throw "map: need (f list)"

def handleFilter (args : List LispVal) : Eff σ String LispVal :=
  match args with
  | [] => throw "filter: need (pred list)"
  | func :: args =>
    match args.head? with
    | some (.list l) => handleFilterOver c func l false
    | some (.vec v) => handleFilterOver c func v true
    | some .nil => pure (.list [])
    | some other => throw ("filter: expected list or vec, got " ++ display other)
    | none => throw "filter: need (pred list)"

def handleReduce (args : List LispVal) : Eff σ String LispVal :=
  match args with
  | [] => throw "reduce: need (f init list)"
  | [_] => throw "reduce: need (f init list)"
  | func :: init :: args =>
    match args.head? with
    | some (.list l) => handleReduceOver c func init l
    | some (.vec v) => handleReduceOver c func init v
    | some .nil => pure init
    | some other => throw ("reduce: expected list or vec, got " ++ display other)
    | none => throw "reduce: need (f init list)"

end Loops

/-! ### One meaning -/

/-- What is done with a list or a vector. -/
inductive Hof
  | map
  | filter
  | reduce (init : LispVal)

section Spec

variable {σ : Type} (call : List LispVal → Eff σ String LispVal)

/-- Each element once, in order, up to the first failure. -/
def applyAll (vals : List LispVal) : Eff σ String (List LispVal) := vals.mapM fun v => call [v]

/-- The elements with a truthy result. -/
def keepTruthy (vals results : List LispVal) : List LispVal :=
  ((vals.zip results).filter fun p => p.2.isTruthy).map Prod.fst

/-- What an operation means. -/
def Hof.spec (isVec : Bool) (vals : List LispVal) : Hof → Eff σ String LispVal
  | .map => seq isVec <$> applyAll call vals
  | .filter => (fun results => seq isVec (keepTruthy vals results)) <$> applyAll call vals
  | .reduce init => vals.foldlM (fun acc v => call [acc, v]) init

/-- Every application that is reached returns a value that is `ok`. -/
def Runs (ok : LispVal → Prop) : List LispVal → σ → Prop
  | [], _ => True
  | v :: vs, s => ∃ r s', call [v] s = .ok r s' ∧ ok r ∧ Runs ok vs s'

/-- No application that is reached fails. -/
def Folds : LispVal → List LispVal → σ → Prop
  | _, [], _ => True
  | acc, v :: vs, s => ∃ r s', call [acc, v] s = .ok r s' ∧ Folds r vs s'

theorem applyAll_cons (v : LispVal) (vs : List LispVal) :
    applyAll call (v :: vs) =
      call [v] >>= fun r => applyAll call vs >>= fun rs => pure (r :: rs) :=
  List.mapM_cons

theorem mapLoop_eq (vals : List LispVal) : mapLoop call vals = applyAll call vals := by
  induction vals with
  | nil => rfl
  | cons v vs ih => rw [mapLoop, ih, applyAll_cons]

theorem reduceLoop_eq (acc : LispVal) (vals : List LispVal) :
    reduceLoop (callStep call) acc vals = vals.foldlM (fun acc v => call [acc, v]) acc := by
  induction vals generalizing acc with
  | nil => rfl
  | cons v vs ih =>
    rw [reduceLoop, List.foldlM_cons]
    simp only [ih]
    rfl

theorem filterLoop_eq (vals : List LispVal) :
    filterLoop (callKeep call) vals = keepTruthy vals <$> applyAll call vals := by
  induction vals with
  | nil => rfl
  | cons v vs ih =>
    rw [filterLoop, ih, applyAll_cons, callKeep]
    simp only [map_eq_pure_bind, bind_assoc, pure_bind]
    congr 1
    funext r
    congr 1
    funext rs
    unfold keepTruthy
    rw [List.zip_cons_cons, List.filter_cons]
    split <;> rfl

end Spec

end Traversal

end LispRlm.Bytecode
