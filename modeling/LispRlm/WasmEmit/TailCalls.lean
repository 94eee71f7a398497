import LispRlm.WasmEmit.Operators

/-! Functions that call themselves in tail position, and the loop that `tc_body` makes of them. -/

namespace LispRlm.WasmEmit

open Foundation Instruction

inductive LispVal
  | nil
  | bool (b : Bool)
  | num (n : Int)
  | str (s : String)
  | sym (s : String)
  | list (items : List LispVal)

/-- The function that is emitted: `current_func`, `current_param_names` and its body. -/
structure FnDef where
  name : String
  params : List String
  body : LispVal

namespace FnDef

variable (f : FnDef)

/-! ### Which functions -/

/-- A call of the function itself, with the right number of arguments, and at least one. -/
def isSelf : LispVal → Bool
  | .list (.sym op :: a) => !a.isEmpty && op == f.name && a.length == f.params.length
  | _ => false

mutual

def hasTc : LispVal → Bool
  | .list items => hasTcList items
  | _ => false

def hasTcList : List LispVal → Bool
  | .sym op :: a =>
      if op = f.name ∧ a.length = f.params.length then true
      else if op = "if" then hasTcBranches a
      else if op = "begin" then hasTcLast a
      else if op = "let" then hasTcForms a
      else false
  | _ => false

def hasTcBranches : List LispVal → Bool
  | [_, t] => hasTc t
  | _ :: t :: e :: _ => hasTc t || hasTc e
  | _ => false

def hasTcLast : List LispVal → Bool
  | [] => false
  | [x] => hasTc x
  | _ :: rest => hasTcLast rest

def hasTcForms : List LispVal → Bool
  | [] => false
  | _ :: forms => hasTcAny forms

def hasTcAny : List LispVal → Bool
  | [] => false
  | x :: rest => hasTc x || hasTcAny rest

end

/-! ### Emission -/

/-- An expression, with the names that `let` has bound to locals where it is compiled. -/
structure Place where
  scope : List String
  e : LispVal

/-- The parameter that a name stands for: the last one of that name. -/
def paramIdx (n : String) : Option Nat := f.params.zipIdx.reverse.lookup n

/-- `local_idx`. -/
def local_ (n : String) : LocalVar :=
  match f.paramIdx n with
  | some i => .param i
  | none => .named n

def tcArgName (i : Nat) : String := "__tcarg" ++ Nat.repr i

def tcArg (i : Nat) : LocalVar := f.local_ (tcArgName i)

/-- All arguments into temporaries, and from there into the parameters. -/
def setParams (scope : List String) (a : List LispVal) : Instructions Place :=
  (a.zipIdx.flatMap fun (x, i) => expr ⟨scope, x⟩ ++ [localSet (f.tcArg i)]) ++
    (List.range a.length).flatMap fun i => [localGet (f.tcArg i), localSet (.param i)]

def selfSets (scope : List String) : LispVal → Instructions Place
  | .list items => f.setParams scope (items.tail.take f.params.length)
  | _ => []

def tcIf (scope : List String) : List LispVal → Option (Instructions Place)
  | c :: t :: rest =>
      let e := rest.headD (.num 0)
      some <| expr ⟨scope, c⟩ ++ emitCondBranch ++
        match f.isSelf t, f.isSelf e with
        | true, true =>
            [ifElse (f.selfSets scope t ++ [br 0]) (f.selfSets scope e ++ [br 0])]
        | true, false =>
            [i32Eqz, if_ (expr ⟨scope, e⟩ ++ [br 2])] ++ f.selfSets scope t ++ [br 0]
        | false, true => [if_ (expr ⟨scope, t⟩ ++ [br 2])] ++ f.selfSets scope e ++ [br 0]
        | false, false => [ifElse (expr ⟨scope, t⟩ ++ [br 2]) (expr ⟨scope, e⟩ ++ [br 2])]
  | _ => none

/-- Forms whose values are dropped, but for the last one's. -/
def tcBegin (scope : List String) : List LispVal → Instructions Place
  | [] => []
  | [x] => expr ⟨scope, x⟩
  | x :: rest => expr ⟨scope, x⟩ ++ [drop] ++ tcBegin scope rest

/-- The bindings of a `let`: a name is bound to its local before its initial value is compiled. -/
def tcBindings (scope : List String) : List LispVal → Instructions Place × List String
  | [] => ([], scope)
  | .list [.sym n, init] :: rest =>
      let (code, last) := tcBindings (n :: scope) rest
      (expr ⟨n :: scope, init⟩ ++ [localSet (f.local_ n)] ++ code, last)
  | _ :: rest => tcBindings scope rest

mutual

/-- `tc`, where `none` is an index out of bounds. -/
def tc (scope : List String) : LispVal → Option (Instructions Place)
  | .list items => tcList scope items
  | e => some (expr ⟨scope, e⟩)

def tcList (scope : List String) : List LispVal → Option (Instructions Place)
  | .sym op :: a =>
      if op = "if" then f.tcIf scope a
      else if op = "begin" ∨ op = "progn" then some (tcBegin scope a ++ [br 1])
      else if op = "let" then tcLet scope a
      else if op = "loop" then some (expr ⟨scope, .list (.sym op :: a)⟩)
      else if op = f.name ∧ a.length = f.params.length then some (f.setParams scope a ++ [br 0])
      else some (expr ⟨scope, .list (.sym op :: a)⟩ ++ [br 1])
  | items => some (expr ⟨scope, .list items⟩)

def tcLet (scope : List String) : List LispVal → Option (Instructions Place)
  | [] => none
  | .list bs :: forms =>
      (tcForms (f.tcBindings scope bs).2 forms).map ((f.tcBindings scope bs).1 ++ ·)
  | _ :: forms => tcForms scope forms

def tcForms (scope : List String) : List LispVal → Option (Instructions Place)
  | [] => some []
  | [x] => tc scope x
  | x :: rest => (tcForms scope rest).map (expr ⟨scope, x⟩ ++ [drop] ++ ·)

end

def tcBody : Option (Code LocalVar Op Place ValType) :=
  (f.tc [] f.body).map fun inner => blockI64 [loop inner, unreachable]

/-! ### Plain evaluation -/

abbrev Env := String → Option I64

/-- Why there is no value. -/
inductive Stop
  | trap
  | outOfFuel

abbrev Reply := Except Stop (I64 × LinearMemory)

/-- What a tail position comes to: an answer, or a call of the function itself. -/
inductive Turn
  | done (r : Reply)
  | again (args : List I64) (m : LinearMemory)

/-- Calling the function. -/
abbrev Caller := List I64 → LinearMemory → Reply

def Turn.finish (call : Caller) : Turn → Reply
  | .done r => r
  | .again args m => call args m

mutual

def mentions (n : String) : LispVal → Bool
  | .sym s => s == n
  | .list items => mentionsAny n items
  | _ => false

def mentionsAny (n : String) : List LispVal → Bool
  | [] => false
  | x :: rest => mentions n x || mentionsAny n rest

end

/-- The variables that an expression mentions. -/
def restrict (ρ : Env) (e : LispVal) : Env := fun n => if mentions n e then ρ n else none

/-- What compiled expressions do that are no `if`, `begin`, `let` or call of the function itself. -/
abbrev Expressions := Env → LispVal → LinearMemory → Reply

def truthy (w : I64) : Bool := !(w == 1 || w == 4 || w == 0)

def Env.bind (ρ : Env) (n : String) (w : I64) : Env := fun n' => if n' = n then some w else ρ n'

section Evaluation

variable (plain : Expressions) (call : Caller)

mutual

/-- Evaluation, up to a call of the function itself in tail position. -/
def turn (ρ : Env) : LispVal → LinearMemory → Turn
  | .list items, m => turnList ρ items m
  | e, m => .done (plain (restrict ρ e) e m)

def turnList (ρ : Env) : List LispVal → LinearMemory → Turn
  | .sym op :: a, m =>
      if op = "if" then turnIf ρ a m
      else if op = "begin" ∨ op = "progn" then turnForms ρ a m
      else if op = "let" then turnLet ρ a m
      else if op = f.name ∧ a.length = f.params.length then
        match evalArgs ρ a m with
        | .ok (args, m) => .again args m
        | .error r => .done (.error r)
      else .done (plain (restrict ρ (.list (.sym op :: a))) (.list (.sym op :: a)) m)
  | items, m => .done (plain (restrict ρ (.list items)) (.list items) m)

/-- `if` without an alternative is nil, and with more forms it is not compiled. -/
def turnIf (ρ : Env) : List LispVal → LinearMemory → Turn
  | [c, t], m =>
      match (turn ρ c m).finish call with
      | .ok (w, m) => if truthy w then turn ρ t m else .done (.ok (4, m))
      | .error r => .done (.error r)
  | [c, t, e], m =>
      match (turn ρ c m).finish call with
      | .ok (w, m) => if truthy w then turn ρ t m else turn ρ e m
      | .error r => .done (.error r)
  | _, _ => .done (.error .trap)

def turnForms (ρ : Env) : List LispVal → LinearMemory → Turn
  | [], m => .done (.ok (4, m))
  | [x], m => turn ρ x m
  | x :: rest, m =>
      match (turn ρ x m).finish call with
      | .ok (_, m) => turnForms ρ rest m
      | .error r => .done (.error r)

def turnLet (ρ : Env) : List LispVal → LinearMemory → Turn
  | [], _ => .done (.error .trap)
  | .list bs :: forms, m =>
      match bindAll ρ bs m with
      | .ok (ρ', m) => turnForms ρ' forms m
      | .error r => .done (.error r)
  | _ :: forms, m => turnForms ρ forms m

/-- One binding after the other, each in the scope of those before it. -/
def bindAll (ρ : Env) : List LispVal → LinearMemory → Except Stop (Env × LinearMemory)
  | [], m => .ok (ρ, m)
  | .list [.sym n, init] :: rest, m =>
      match (turn ρ init m).finish call with
      | .ok (w, m) => bindAll (ρ.bind n w) rest m
      | .error r => .error r
  | _ :: rest, m => bindAll ρ rest m

def evalArgs (ρ : Env) : List LispVal → LinearMemory → Except Stop (List I64 × LinearMemory)
  | [], m => .ok ([], m)
  | x :: rest, m =>
      match (turn ρ x m).finish call with
      | .ok (w, m) =>
          match evalArgs ρ rest m with
          | .ok (args, m) => .ok (w :: args, m)
          | .error r => .error r
      | .error r => .error r

end

def eval (ρ : Env) (e : LispVal) (m : LinearMemory) : Reply := (f.turn plain call ρ e m).finish call

end Evaluation

/-- The parameters, bound to arguments. -/
def bindParams (args : List I64) : Env := fun n => (f.paramIdx n).bind (args[·]?)

/-- Plain recursion, `depth` calls deep. -/
def selfCall (plain : Expressions) : Nat → Caller
  | 0 => fun _ _ => .error .outOfFuel
  | depth + 1 => fun args m => f.eval plain (selfCall plain depth) (f.bindParams args) f.body m

/-! ### Running the emitted loop -/

/-- The variables in scope, as the locals hold them. -/
def envOf (scope : List String) (s : Locals) : Env := fun n =>
  match f.paramIdx n with
  | some i => some (s.locals (.param i))
  | none => if n ∈ scope then some (s.locals (.named n)) else none

def answerOf (s : Locals) : Reply → Answer LocalVar I64 LinearMemory
  | .ok (w, m) => .value w { s with memory := m }
  | .error .trap => .trap
  | .error .outOfFuel => .outOfFuel

/-- The compiled expression of a place. -/
def operand (plain : Expressions) (call : Caller) (p : Place) (s : Locals) :
    Answer LocalVar I64 LinearMemory :=
  answerOf s (f.eval plain call (f.envOf p.scope s) p.e s.memory)

abbrev wasmOnly : StackMachine LocalVar Op ValType I64 LinearMemory := wasm fun _ _ _ => none

def entry (args : List I64) (m : LinearMemory) : Locals where
  locals
    | .param i => args.getD i 0
    | _ => 0
  memory := m

/-- Calling the compiled function: its expressions call it plainly, `fuel` calls deep, and the loop
has `fuel` turns. -/
def compiledCall (plain : Expressions) (code : Code LocalVar Op Place ValType) (fuel : Nat)
    (args : List I64) (m : LinearMemory) : Reply :=
  match (run wasmOnly (f.operand plain (f.selfCall plain fuel)) fuel code
      ⟨[], entry args m⟩).answer with
  | .value w s => .ok (w, s.memory)
  | .trap | .stuck => .error .trap
  | .outOfFuel => .error .outOfFuel

end FnDef

end LispRlm.WasmEmit
