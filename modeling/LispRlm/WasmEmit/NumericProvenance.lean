import LispRlm.Foundation.StepLog

/-! The names that the emitter takes for numbers while it compiles a function, and the runs of the
code that relies on them. -/

namespace LispRlm.WasmEmit.Provenance

inductive Value
  | num (n : Int)
  | bool (b : Bool)
  | nil
  | str (s : String)
  | ref (address : Nat)
  deriving DecidableEq

namespace Value

def isNum : Value → Bool
  | .num _ => true
  | _ => false

/-- What the code without tag checks treats as it treats numbers. -/
def plain : Value → Bool
  | .num _ | .bool _ | .nil => true
  | .str _ | .ref _ => false

def truthy : Value → Bool
  | .nil | .bool false | .num 0 => false
  | _ => true

end Value

/-- The forms of a function's body. A binding and an assignment carry whether the variable is held
as a pair of limbs. -/
inductive Expr
  | num (n : Int)
  | lit (v : Value)
  | sym (x : String)
  | app (head : String) (args : List Expr)
  | if_ (cond thenArm elseArm : Expr)
  | begin_ (forms : List Expr)
  | let_ (names : List (String × Bool)) (inits body : List Expr)
  | set (x : String) (limb : Bool) (e : Expr)
  | while_ (cond : Expr) (body : List Expr)
  | loop (names : List String) (inits body : List Expr)

/-! ### What the emitter takes for numeric -/

def arithmetic : List String := ["+", "-", "*", "/", "mod"]

def numericResults : List String :=
  ["str->num", "str-to-num", "u128/to-i64", "u128/from-i64", "vec-length", "length", "len",
    "str-length", "str-index-of", "abs", "max", "min", "expt", "floor", "ceiling", "round",
    "near/json_get_int", "near/block_index", "near/block_timestamp", "near/epoch_height",
    "near/storage_usage", "near/prepaid_gas", "near/used_gas"]

mutual

/-- `expr_is_numeric` -/
def exprIsNumeric (numeric : List String) : Expr → Bool
  | .num _ => true
  | .sym x => x ∈ numeric
  | .app head args =>
      if head ∈ arithmetic then 2 ≤ args.length && allNumeric numeric args
      else head ∈ numericResults
  | _ => false

def allNumeric (numeric : List String) : List Expr → Bool
  | [] => true
  | e :: rest => exprIsNumeric numeric e && allNumeric numeric rest

end

def flag (numeric : List String) (x : String) (isNum : Bool) : List String :=
  if isNum then x :: numeric else numeric.filter (· ≠ x)

/-- The bindings of a `let`: the names after their initial values, and what is saved of them. Names
held as limbs are not in `saved`, but they are in `savedNum`. -/
structure Bound where
  numeric : List String
  saved : List String
  savedNum : List Bool

/-- Restores the flags in reverse, paired as the two lists pair them. -/
def Bound.restore (b : Bound) (numeric : List String) : List String :=
  (b.saved.reverse.zip b.savedNum.reverse).foldl (fun σ (x, was) => flag σ x was) numeric

/-- The function that is being compiled, or the lifted function of a loop, which calls itself
`recur`. -/
structure Fn where
  name : String
  params : List String
  body : Expr
  captures : Bool

def isSelf (name : String) (arity : Nat) : Expr → Bool
  | .app head args => head == name && args.length == arity
  | _ => false

mutual

def hasTc (name : String) (arity : Nat) : Expr → Bool
  | .app head args => head == name && args.length == arity
  | .if_ _ t e => hasTc name arity t || hasTc name arity e
  | .begin_ forms => hasTcLast name arity forms
  | .let_ _ _ body => hasTcAny name arity body
  | _ => false

def hasTcLast (name : String) (arity : Nat) : List Expr → Bool
  | [] => false
  | [e] => hasTc name arity e
  | _ :: rest => hasTcLast name arity rest

def hasTcAny (name : String) (arity : Nat) : List Expr → Bool
  | [] => false
  | e :: rest => hasTc name arity e || hasTcAny name arity rest

end

/-- How a form is compiled: by `expr`, or by `tc` in the function of this name. -/
inductive Mode
  | plain
  | tail (name : String) (arity : Nat)
  deriving DecidableEq

namespace Mode

def isSelf : Mode → Expr → Bool
  | .plain, _ => false
  | .tail name arity, e => Provenance.isSelf name arity e

/-- A self call in the first arm only is compiled after the other arm. -/
def elseFirst (mode : Mode) (t e : Expr) : Bool := mode.isSelf t && !mode.isSelf e

/-- How the body of a function is compiled. -/
def ofBody (name : String) (arity : Nat) (body : Expr) : Mode :=
  if hasTc name arity body then .tail name arity else .plain

/-- Several forms are put into a `begin`, whose forms `tc` leaves to `expr`. -/
def ofForms (name : String) (arity : Nat) : List Expr → Mode
  | [e] => ofBody name arity e
  | _ => .plain

end Mode

mutual

/-- The names taken for numeric after the emitter has compiled a form. -/
def after (mode : Mode) (numeric : List String) : Expr → List String
  | .num _ | .lit _ | .sym _ => numeric
  | .app _ args => afterAll .plain numeric args
  | .if_ c t e =>
      let tested := after .plain numeric c
      if mode.elseFirst t e then after .plain (after .plain tested e) t
      else after .plain (after .plain tested t) e
  | .begin_ forms => afterAll .plain numeric forms
  | .let_ names inits body =>
      match mode with
      | .plain =>
          let b := afterBindings numeric names inits
          b.restore (afterAll .plain b.numeric body)
      | .tail name arity => afterAll (.tail name arity) (afterAll .plain numeric inits) body
  | .set x limb e =>
      let isNum := exprIsNumeric numeric e
      if limb then after .plain numeric e else flag (after .plain numeric e) x isNum
  | .while_ c body => afterAll .plain (after .plain numeric c) body
  | .loop names inits body =>
      -- `emit_define` begins with no names, and nothing brings the others back
      let lifted := afterAll (.ofForms "recur" names.length body) [] body
      afterAll .plain lifted inits

/-- One form after the other; the mode is that of the last one. -/
def afterAll (mode : Mode) (numeric : List String) : List Expr → List String
  | [] => numeric
  | [e] => after mode numeric e
  | e :: rest => afterAll mode (after .plain numeric e) rest

def afterBindings (numeric : List String) : List (String × Bool) → List Expr → Bound
  | (x, true) :: names, init :: inits =>
      let made := after .plain (flag numeric x false) init
      let b := afterBindings made names inits
      { b with savedNum := decide (x ∈ made) :: b.savedNum }
  | (x, false) :: names, init :: inits =>
      let isNum := exprIsNumeric numeric init
      let b := afterBindings (after .plain (flag numeric x isNum) init) names inits
      { b with saved := x :: b.saved, savedNum := decide (x ∈ numeric) :: b.savedNum }
  | _, _ => ⟨numeric, [], []⟩

end

/-! ### Runs -/

/-- A variable's value, and whether the emitter took its last write for numeric. -/
structure Slot where
  value : Value
  judged : Bool

abbrev Env := String → Option Slot

/-- A value that the code relies on to be a number: what stands for it before it is used. -/
structure Use where
  value : Value
  judged : Bool
  deriving DecidableEq

inductive End (α : Type)
  | done (a : α) (env : Env)
  | recurs (args : List Value) (env : Env)
  | stops
  | outOfFuel

structure Ran (α : Type) where
  log : List Use
  ending : End α

/-- A piece of compiled code. -/
abbrev Run (α : Type) := Env → Ran α

namespace Run

variable {α β : Type}

def pure (a : α) : Run α := fun env => ⟨[], .done a env⟩

def bind (m : Run α) (f : α → Run β) : Run β := fun env =>
  let first := m env
  match first.ending with
  | .done a env' =>
      let second := f a env'
      ⟨first.log ++ second.log, second.ending⟩
  | .recurs args env' => ⟨first.log, .recurs args env'⟩
  | .stops => ⟨first.log, .stops⟩
  | .outOfFuel => ⟨first.log, .outOfFuel⟩

instance : Monad Run where
  pure := Run.pure
  bind := Run.bind

def stop : Run α := fun _ => ⟨[], .stops⟩

def spent : Run α := fun _ => ⟨[], .outOfFuel⟩

def recur (args : List Value) : Run α := fun env => ⟨[], .recurs args env⟩

def use (value : Value) (judged : Bool) : Run Unit := fun env => ⟨[⟨value, judged⟩], .done () env⟩

def slot (x : String) : Run (Option Slot) := fun env => ⟨[], .done (env x) env⟩

def put (x : String) (s : Option Slot) : Run Unit := fun env =>
  ⟨[], .done () fun y => if y = x then s else env y⟩

/-- Reads a variable; the code may rely on the value. -/
def read (x : String) (relies : Bool) : Run Value := do
  match ← slot x with
  | none => stop
  | some s =>
      if relies then use s.value s.judged
      return s.value

/-- Each form, at the names that hold where the emitter compiles it. -/
def each (one : List String → Expr → Run Value) (numeric : List String) :
    List Expr → Run (List Value)
  | [] => pure []
  | e :: rest => do
      let v ← one numeric e
      let vs ← each one (after .plain numeric e) rest
      return v :: vs

/-- The value of the last form, which alone is compiled in the mode. -/
def forms (one : Mode → List String → Expr → Run Value) (mode : Mode) (numeric : List String) :
    List Expr → Run Value
  | [] => pure .nil
  | [e] => one mode numeric e
  | e :: rest => do
      let _ ← one .plain numeric e
      forms one mode (after .plain numeric e) rest

/-- The bindings of a `let` around its body. -/
def bindings (one : Bool → List String → Expr → Run Value) (body : List String → Run Value)
    (numeric : List String) : List (String × Bool) → List Expr → Run Value
  | (x, limb) :: names, init :: inits => do
      let isNum := !limb && exprIsNumeric numeric init
      let inside := flag numeric x isNum
      let v ← one isNum inside init
      let old ← slot x
      put x (some ⟨v, isNum⟩)
      let r ← bindings one body (after .plain inside init) names inits
      put x old
      return r
  | _, _ => body numeric

/-- The bindings of a `let` that `tc` compiles: the locals of the names, and no flags. -/
def tcBindings (one : List String → Expr → Run Value) (body : List String → Run Value)
    (numeric : List String) : List (String × Bool) → List Expr → Run Value
  | (x, _) :: names, init :: inits => do
      let v ← one numeric init
      put x (some ⟨v, false⟩)
      tcBindings one body (after .plain numeric init) names inits
  | _, _ => body numeric

/-- The frame of a called function: parameters are never taken for numbers. -/
def enter (params : List String) (args : List Value) (captured : Env) : Env := fun x =>
  match (params.zip args).find? (·.1 = x) with
  | some (_, v) => some ⟨v, false⟩
  | none => (captured x).map fun s => ⟨s.value, false⟩

/-- Self calls of a function with tail calls write its parameters and begin again. -/
def turns (f : Fn) (body : Run Value) : Nat → Run Value
  | 0 => spent
  | fuel + 1 => fun env =>
      let turn := body env
      match turn.ending with
      | .recurs args env' =>
          let more := turns f body fuel (enter f.params args env')
          ⟨turn.log ++ more.log, more.ending⟩
      | _ => turn

/-- A call: the caller's variables are as they were. -/
def call (inside : Run Value) (start : Env → Env) : Run Value := fun env =>
  let inner := inside (start env)
  ⟨inner.log, match inner.ending with
    | .done v _ => .done v env
    | .recurs _ _ | .stops => .stops
    | .outOfFuel => .outOfFuel⟩

end Run

/-! ### Programs -/

/-- The builtins. Arithmetic tags a number, as does the code of the others that the emitter takes for
numeric, which may also answer `nil` or `false`; `u128/from-i64`, `max` and `min` are not left to
`measure` where they do not. -/
structure Builtins where
  arith : String → List Value → Option Int
  measure : String → List Value → Option { v : Value // v.plain = true }
  other : String → List Value → Option Value

structure Program where
  functions : String → Option Fn
  builtins : Builtins

namespace Builtins

def apply (b : Builtins) (head : String) (args : List Value) : Option Value :=
  if head ∈ arithmetic then
    if args.all Value.plain then (b.arith head args).map .num else b.other head args
  else if head = "u128/from-i64" then
    match args with
    | [.num n] => some (.str (toString n))
    | _ => none
  else if head ∈ ["max", "min"] ∧ args.length = 1 then args.head?
  else if head ∈ numericResults then (b.measure head args).map (·.val)
  else b.other head args

end Builtins

/-- Where the emitter leaves tag checks out if all operands are numeric. -/
def trusts (head : String) (arity : Nat) : Bool :=
  head == "+" || (head ∈ ["=", "!="] && arity == 2)

/-- Whether the code relies on the operands, given whether it relies on the form. -/
def reliesOn (numeric : List String) (relies : Bool) (head : String) (args : List Expr) : Bool :=
  (trusts head args.length && allNumeric numeric args) || (relies && head ∈ arithmetic)

/-- The builtins whose result is a number whenever that of their operands is relied on. -/
def assured (head : String) (arity : Nat) : Bool :=
  head ∈ arithmetic || (head ∈ numericResults && head != "u128/from-i64" &&
    !(head ∈ ["max", "min"] && arity == 1))

namespace Program

/-- The run of a form that the emitter compiles in this mode with these names; `relies` says that
the code around it takes the value for a number. -/
def run (p : Program) : Nat → Fn → Mode → List String → Bool → Expr → Run Value
  | 0, _, _, _, _, _ => .spent
  | fuel + 1, f, mode, numeric, relies, e =>
      let plainly := fun numeric e => run p fuel f .plain numeric false e
      let invoke := fun (g : Fn) args =>
        let tail := Mode.ofBody g.name g.params.length g.body
        Run.call (Run.turns g (run p fuel g tail [] false g.body) fuel) fun env =>
          Run.enter g.params args (if g.captures then env else fun _ => none)
      match e with
      | .num n => return .num n
      | .lit v => return v
      | .sym x => Run.read x relies
      | .app head args => do
          let operands := reliesOn numeric relies head args
          let vs ← Run.each (fun numeric e => run p fuel f .plain numeric operands e) numeric args
          if mode.isSelf e then Run.recur vs
          else if head = f.name then do
            let v ← invoke f vs
            if relies then Run.use v false
            return v
          else
            match p.functions head with
            | some g => do
                let v ← invoke g vs
                if relies then Run.use v false
                return v
            | none =>
                match p.builtins.apply head vs with
                | none => Run.stop
                | some v => do
                    if relies then Run.use v (assured head vs.length)
                    return v
      | .if_ c t e => do
          let v ← plainly numeric c
          let tested := after .plain numeric c
          let late := mode.elseFirst t e
          let arm := fun numeric arm =>
            run p fuel f (if mode.isSelf arm then mode else .plain) numeric false arm
          if v.truthy then arm (if late then after .plain tested e else tested) t
          else arm (if late then tested else after .plain tested t) e
      | .begin_ forms =>
          Run.forms (fun mode numeric e => run p fuel f mode numeric false e) .plain numeric forms
      | .let_ names inits body =>
          let inner := fun numeric =>
            Run.forms (fun mode numeric e => run p fuel f mode numeric false e) mode numeric body
          match mode with
          | .plain =>
              Run.bindings (fun relies numeric e => run p fuel f .plain numeric relies e) inner
                numeric names inits
          | .tail _ _ => Run.tcBindings plainly inner numeric names inits
      | .set x limb e => do
          let isNum := !limb && exprIsNumeric numeric e
          let v ← run p fuel f .plain numeric isNum e
          Run.put x (some ⟨v, isNum⟩)
          return .nil
      | .while_ c body => do
          let v ← plainly numeric c
          if v.truthy then do
            let _ ← Run.forms (fun mode numeric e => run p fuel f mode numeric false e) .plain
              (after .plain numeric c) body
            run p fuel f .plain numeric false (.while_ c body)
          else return .nil
      | .loop names inits body => do
          let lifted := afterAll (.ofForms "recur" names.length body) [] body
          let vs ← Run.each plainly lifted inits
          invoke ⟨"recur", names, match body with | [e] => e | forms => .begin_ forms, true⟩ vs

/-- The run of a call of a function. -/
def runFn (p : Program) (fuel : Nat) (f : Fn) (args : List Value) : Ran Value :=
  Run.turns f (p.run fuel f (.ofBody f.name f.params.length f.body) [] false f.body) fuel
    (Run.enter f.params args fun _ => none)

end Program

end LispRlm.WasmEmit.Provenance
