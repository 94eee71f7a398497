import Mathlib.Data.List.Dedup

/-! The loops of a function's body, evaluated in place and as the functions that the emitter lifts
them to. -/

namespace LispRlm.WasmEmit.Lifting

/-- The forms of a function's body, over the values `V`. -/
inductive Expr (V : Type)
  | lit (v : V)
  | sym (x : String)
  | op (head : String) (args : List (Expr V))
  | if_ (cond thenArm elseArm : Expr V)
  | begin_ (forms : List (Expr V))
  | let_ (names : List String) (inits body : List (Expr V))
  | set (x : String) (e : Expr V)
  | while_ (cond : Expr V) (body : List (Expr V))
  | loop (names : List String) (inits body : List (Expr V))
  | recur (args : List (Expr V))

section

variable {V : Type}

mutual

/-- `collect_free`, before it asks which names are locals. -/
def collectFree : Expr V → List String
  | .lit _ => []
  | .sym x => [x]
  | .op head args => head :: collectFreeAll args
  | .if_ c t e => collectFree c ++ collectFree t ++ collectFree e
  | .begin_ forms => collectFreeAll forms
  | .let_ names inits body =>
      collectFreeAll inits ++ (collectFreeAll body).filter (· ∉ names)
  | .set x e => x :: collectFree e
  | .while_ c body => collectFree c ++ collectFreeAll body
  | .loop names inits body =>
      collectFreeAll inits ++ (collectFreeAll body).filter (· ∉ names)
  | .recur args => collectFreeAll args

def collectFreeAll : List (Expr V) → List String
  | [] => []
  | e :: rest => collectFree e ++ collectFreeAll rest

end

end

/-! ### Runs -/

/-- A variable's value, and how many loops of the function are around its binding. -/
structure Slot (V : Type) where
  value : V
  level : Nat

abbrev Env (V : Type) := String → Option (Slot V)

inductive End (V W α : Type)
  | done (a : α) (env : Env V) (world : W)
  | recurs (args : List V) (env : Env V) (world : W)
  | stops (world : W)
  | outOfFuel

namespace End

variable {V W α : Type}

def value : End V W α → Option α
  | .done a _ _ => some a
  | _ => none

def vars : End V W α → String → Option V
  | .done _ env _, x => (env x).map Slot.value
  | _, _ => none

def world : End V W α → Option W
  | .done _ _ w | .recurs _ _ w | .stops w => some w
  | .outOfFuel => none

end End

/-- A run and its checks, of the steps at which a lifted loop may part from one in place. -/
structure Ran (V W α : Type) where
  log : List Bool
  ending : End V W α

abbrev Run (V W α : Type) := Env V → W → Ran V W α

/-- A loop around a form: its variables, and those that its function is given besides. -/
structure Frame where
  names : List String
  free : List String

inductive How
  | inPlace
  | lifted
  deriving DecidableEq

/-- A variable of the innermost loop; without a loop around it, `set!` may also make one. -/
def mine {V : Type} (depth : Nat) (env : Env V) (x : String) : Bool :=
  match env x with
  | some s => s.level == depth
  | none => depth == 0

/-- A variable from outside of the innermost loop. -/
def isOuter {V : Type} (depth : Nat) (env : Env V) (x : String) : Bool :=
  match env x with
  | some s => s.level < depth
  | none => false

def valuesOf {V : Type} (env : Env V) (names : List String) : List V :=
  names.filterMap fun x => (env x).map Slot.value

def bindAll {V : Type} (names : List String) (vs : List V) (depth : Nat) (outer : Env V) : Env V :=
  fun x => match (names.zip vs).lookup x with
    | some v => some ⟨v, depth⟩
    | none => outer x

namespace Run

variable {V W α β : Type}

def pure (a : α) : Run V W α := fun env w => ⟨[], .done a env w⟩

def bind (m : Run V W α) (f : α → Run V W β) : Run V W β := fun env w =>
  let first := m env w
  match first.ending with
  | .done a env' w' =>
      let second := f a env' w'
      ⟨first.log ++ second.log, second.ending⟩
  | .recurs args env' w' => ⟨first.log, .recurs args env' w'⟩
  | .stops w' => ⟨first.log, .stops w'⟩
  | .outOfFuel => ⟨first.log, .outOfFuel⟩

instance : Monad (Run V W) where
  pure := Run.pure
  bind := Run.bind

def stop : Run V W α := fun _ w => ⟨[], .stops w⟩

def spent : Run V W α := fun _ _ => ⟨[], .outOfFuel⟩

def check (holds : Env V → Bool) : Run V W Unit := fun env w => ⟨[holds env], .done () env w⟩

/-- A lifted loop calls itself with its free variables besides (`patch_recur_with_free_vars`). -/
def recur (how : How) (free : List String) (args : List V) : Run V W α := fun env w =>
  let passed := match how with
    | .inPlace => []
    | .lifted => valuesOf env free
  ⟨[], .recurs (args ++ passed) env w⟩

def put (x : String) (s : Slot V) : Run V W Unit := fun env w =>
  ⟨[], .done () (fun y => if y = x then some s else env y) w⟩

/-- Binds a variable for a run. -/
def binding (x : String) (s : Slot V) (m : Run V W α) : Run V W α := fun env w =>
  let inner := m (fun y => if y = x then some s else env y) w
  let leave := fun env' : Env V => fun y => if y = x then env y else env' y
  ⟨inner.log, match inner.ending with
    | .done a env' w' => .done a (leave env') w'
    | .recurs args env' w' => .recurs args (leave env') w'
    | .stops w' => .stops w'
    | .outOfFuel => .outOfFuel⟩

def each (one : Expr V → Run V W V) : List (Expr V) → Run V W (List V)
  | [] => pure []
  | e :: rest => do
      let v ← one e
      let vs ← each one rest
      return v :: vs

/-- Only the last form is in tail position. -/
def forms (nil : V) (one : Option Frame → Expr V → Run V W V) (loop : Option Frame) :
    List (Expr V) → Run V W V
  | [] => pure nil
  | [e] => one loop e
  | e :: rest => do
      let _ ← one none e
      forms nil one loop rest

/-- The bindings of a `let` around its body; each name has an initial value. -/
def bindings (depth : Nat) (one : Expr V → Run V W V) (body : Run V W V) :
    List String → List (Expr V) → Run V W V
  | x :: names, init :: inits => do
      let v ← one init
      binding x ⟨v, depth⟩ (bindings depth one body names inits)
  | [], [] => body
  | _, _ => stop

/-- The turns of a loop: `recur` begins the next one. -/
def turns (restart : List V → Env V → Env V) (body : Run V W V) : Nat → Run V W V
  | 0 => spent
  | fuel + 1 => fun env w =>
      let turn := body env w
      match turn.ending with
      | .recurs args env' w' =>
          let more := turns restart body fuel (restart args env') w'
          ⟨turn.log ++ more.log, more.ending⟩
      | _ => turn

/-- A run among variables of its own, and the variables after it. -/
def among (start : Env V → Env V) (leave : Env V → Env V → Env V) (m : Run V W V) :
    Run V W V := fun env w =>
  let inner := m (start env) w
  ⟨inner.log, match inner.ending with
    | .done v env' w' => .done v (leave env env') w'
    | .recurs _ _ w' | .stops w' => .stops w'
    | .outOfFuel => .outOfFuel⟩

end Run

/-! ### Programs -/

/-- What the forms mean besides: the functions of the module, and the operators and calls, which
take the value of a variable that has the name of the head. -/
structure Program (V W : Type) where
  truthy : V → Bool
  nil : V
  functions : List String
  global : String → Option V
  apply : String → Option V → List V → W → Option V × W

namespace Program

variable {V W : Type}

/-- The free variables that a loop's function is given: locals that are not called as functions
of the module. -/
def captured (p : Program V W) (names : List String) (body : List (Expr V)) (env : Env V) :
    List String :=
  ((collectFreeAll body).filter fun x =>
    x ∉ names && (env x).isSome && x ∉ p.functions).dedup

/-- No variable that the body of a loop reads has the name of a function. -/
def unshadowed (p : Program V W) (names : List String) (body : List (Expr V)) (env : Env V) :
    Bool :=
  (collectFreeAll body).all fun x => x ∈ names || (env x).isNone || x ∉ p.functions

def read (p : Program V W) (x : String) : Run V W V := fun env w =>
  match env x with
  | some s => ⟨[], .done s.value env w⟩
  | none => match p.global x with
    | some v => ⟨[], .done v env w⟩
    | none => ⟨[], .stops w⟩

def call (p : Program V W) (head : String) (args : List V) : Run V W V := fun env w =>
  match p.apply head ((env head).map Slot.value) args w with
  | (some v, w') => ⟨[], .done v env w'⟩
  | (none, w') => ⟨[], .stops w'⟩

/-- The variables at the start of a turn. In place these are the function's own; a lifted loop
has its parameters. -/
def restart (how : How) (frame : Frame) (depth : Nat) (args : List V) (env : Env V) : Env V :=
  match how with
  | .inPlace => bindAll frame.names args depth env
  | .lifted => bindAll (frame.names ++ frame.free) args depth fun _ => none

/-- The first turn: the emitted call passes the initial values and the free variables. -/
def start (how : How) (frame : Frame) (depth : Nat) (args : List V) (env : Env V) : Env V :=
  match how with
  | .inPlace => restart .inPlace frame depth args env
  | .lifted => restart .lifted frame depth (args ++ valuesOf env frame.free) env

def leave (how : How) (frame : Frame) (env env' : Env V) : Env V :=
  match how with
  | .inPlace => fun x => if x ∈ frame.names then env x else env' x
  | .lifted => env

/-- The run of a form with `depth` loops around it. -/
def run (p : Program V W) (how : How) : Nat → Nat → Option Frame → Expr V → Run V W V
  | 0, _, _, _ => .spent
  | fuel + 1, depth, loop, e =>
      let one := fun loop e => p.run how fuel depth loop e
      match e with
      | .lit v => return v
      | .sym x => p.read x
      | .op head args => do
          let vs ← Run.each (one none) args
          p.call head vs
      | .if_ c t e => do
          let v ← one none c
          if p.truthy v then one loop t else one loop e
      | .begin_ forms => Run.forms p.nil one loop forms
      | .let_ names inits body =>
          Run.bindings depth (one none) (Run.forms p.nil one loop body) names inits
      | .set x e => do
          let v ← one none e
          Run.check fun env => mine depth env x
          Run.put x ⟨v, depth⟩
          return p.nil
      | .while_ c body => do
          let v ← one none c
          if p.truthy v then do
            let _ ← Run.forms p.nil one none body
            one none (.while_ c body)
          else return p.nil
      | .loop names inits body => do
          let vs ← Run.each (one none) inits
          if vs.length = names.length then do
            Run.check fun env => p.unshadowed names body env
            fun env =>
              let frame : Frame := ⟨names, p.captured names body env⟩
              let inside := Run.forms p.nil (fun loop e => p.run how fuel (depth + 1) loop e)
                (some frame) body
              Run.among (start how frame (depth + 1) vs) (leave how frame)
                (Run.turns (restart how frame (depth + 1)) inside fuel) env
          else Run.stop
      | .recur args =>
          match loop with
          | none => Run.stop
          | some frame => do
              let vs ← Run.each (one none) args
              if vs.length = frame.names.length then do
                Run.check fun env => frame.free.all (isOuter depth env)
                Run.recur how frame.free vs
              else Run.stop

/-- The run of a function's body from its arguments. -/
def runBody (p : Program V W) (how : How) (fuel : Nat) (params : List String) (args : List V)
    (body : Expr V) (w : W) : Ran V W V :=
  p.run how fuel 0 none body (bindAll params args 0 fun _ => none) w

end Program

/-! ### The emitter's tables -/

/-- The tables of the emitter for the function that it compiles. -/
structure Tables where
  locals : List (String × Nat)
  numericLocals : List String
  limbSlots : List (String × Nat × Nat)
  limbEligible : List String
  memoizeNext : Bool

namespace Tables

/-- The tables in which `emit_define` begins with a body, whose limb variables are `eligible`. -/
def cleared (t : Tables) (params eligible : List String) : Tables :=
  { t with locals := params.zipIdx, numericLocals := [], limbSlots := [], limbEligible := eligible }

/-- `emit_define`, given what the emission of the body does to the tables. A pending memo goes to
the first function that is emitted. -/
def emitDefine (t : Tables) (params eligible : List String) (emitBody : Tables → Tables) : Tables :=
  { emitBody (t.cleared params eligible) with memoizeNext := false }

/-- Of these tables only the locals are saved around a lifted loop. -/
def emitLifted (t : Tables) (params eligible : List String) (emitBody : Tables → Tables) : Tables :=
  { t.emitDefine params eligible emitBody with locals := t.locals }

/-- The body happens to leave the names of the enclosing function, and no memo is pending. -/
def LeftAs (t : Tables) (params eligible : List String) (emitBody : Tables → Tables) : Prop :=
  let left := emitBody (t.cleared params eligible)
  left.numericLocals = t.numericLocals ∧ left.limbSlots = t.limbSlots ∧
    left.limbEligible = t.limbEligible ∧ t.memoizeNext = false

end Tables

end LispRlm.WasmEmit.Lifting
