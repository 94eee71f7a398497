import LispRlm.Instrument.Pass

/-! Runs of instrumented functions, and runs of the functions that they were made from under a
meter. -/

namespace LispRlm.Instrument

open Foundation (Flow)
open Foundation.Flow (Config Result split)

/-! ### Operators -/

/-- Functions by what they are, wherever a module's indices put them: the hooks of the
instrumentation, and the functions of the module that was instrumented. -/
inductive Callee
  | hook (n : Nat)
  | fn (id : Nat)
  deriving DecidableEq

inductive Value
  | i32 (w : BitVec 32)
  | i64 (w : BitVec 64)
  | f32 (w : BitVec 32)
  | f64 (w : BitVec 64)
  | v128 (w : BitVec 128)
  | func (callee : Option Callee)
  | extern_ (ref : Option Nat)
  deriving DecidableEq

def ValType.default : ValType → Value
  | i32 => .i32 0
  | i64 => .i64 0
  | f32 => .f32 0
  | f64 => .f64 0
  | v128 => .v128 0
  | funcRef => .func none
  | externRef => .extern_ none

inductive Failure
  | trap
  | message (text : String)
  deriving DecidableEq

/-- What the calls of a run share: the globals of the module, and the world. -/
structure Shared (W : Type) where
  globals : List Value
  world : W

structure Frame (W : Type) where
  locals : List Value
  shared : Shared W

inductive Effect (W : Type)
  | done (stack : List Value) (world : W)
  | trap
  | invalid

/-- What a call comes to. `invalid` is a call in a module that does not validate. -/
inductive Answer (W : Type)
  | returned (values : List Value) (shared : Shared W)
  | fail (e : Failure)
  | invalid
  | outOfFuel

/-- What operators need to know of the module they run in. -/
structure Instance (P W : Type) where
  types : List FuncType
  act : P → List Value → W → Effect W
  table : W → Nat → BitVec 32 → Option Value
  resolve : Nat → Option Callee
  typeOf : Callee → Option FuncType

variable {P W : Type}

abbrev Outcome (W : Type) := Result Callee Value (Frame W) Failure

abbrev Invoke (W : Type) := Callee → List Value → Shared W → Answer W

def binary (f : BitVec 64 → BitVec 64 → Value) (c : Config Value (Frame W)) : Outcome W :=
  match c.stack with
  | .i64 b :: .i64 a :: rest => .ok { c with stack := f a b :: rest }
  | _ => .error .invalid

def ofBool (b : Bool) : Value := .i32 (if b then 1 else 0)

/-- A call with the arguments on top of the stack. -/
def applyCall (i : Instance P W) (invoke : Invoke W) (callee : Callee)
    (c : Config Value (Frame W)) : Outcome W :=
  match i.typeOf callee with
  | none => .error .invalid
  | some type =>
      match split type.params.length c.stack with
      | none => .error .invalid
      | some (args, rest) =>
          match invoke callee args c.state.shared with
          | .returned values shared => .ok ⟨values ++ rest, { c.state with shared := shared }⟩
          | .fail e => .error (.fail e)
          | .invalid => .error .invalid
          | .outOfFuel => .error .outOfFuel

/-- The function that an indirect call finds under the index on top of the stack. -/
def indirect (i : Instance P W) (type table : Nat) (c : Config Value (Frame W))
    (next : Callee → Config Value (Frame W) → Outcome W) : Outcome W :=
  match c.stack, i.types[type]? with
  | .i32 n :: rest, some expected =>
      match i.table c.state.shared.world table n with
      | some (.func (some callee)) =>
          match i.typeOf callee with
          | some type =>
              if type = expected then next callee { c with stack := rest }
              else .error (.fail .trap)
          | none => .error .invalid
      | _ => .error (.fail .trap)
  | _, _ => .error .invalid

def Frame.setGlobal (s : Frame W) (n : Nat) (v : Value) : Frame W :=
  { s with shared := { s.shared with globals := s.shared.globals.set n v } }

def exec (i : Instance P W) (invoke : Invoke W) (op : Operator P) (c : Config Value (Frame W)) :
    Outcome W :=
  match op with
  | .block _ | .loop _ | .if_ _ | .else_ | .end_ => .error .invalid
  | .br depth => .error (.branch depth c)
  | .brIf depth =>
      match c.stack with
      | .i32 w :: rest =>
          if w = 0 then .ok { c with stack := rest }
          else .error (.branch depth { c with stack := rest })
      | _ => .error .invalid
  | .brTable depths default =>
      match c.stack with
      | .i32 w :: rest => .error (.branch (depths.getD w.toNat default) { c with stack := rest })
      | _ => .error .invalid
  | .return_ => .error (.return_ c)
  | .unreachable => .error (.fail .trap)
  | .call f =>
      match i.resolve f with
      | some callee => applyCall i invoke callee c
      | none => .error .invalid
  | .callIndirect type table => indirect i type table c (applyCall i invoke)
  | .returnCall f =>
      match i.resolve f with
      | some callee => .error (.tail callee c)
      | none => .error .invalid
  | .returnCallIndirect type table =>
      indirect i type table c fun callee c => .error (.tail callee c)
  | .refFunc f =>
      match i.resolve f with
      | some callee => .ok { c with stack := .func (some callee) :: c.stack }
      | none => .error .invalid
  | .localGet n =>
      match c.state.locals[n]? with
      | some v => .ok { c with stack := v :: c.stack }
      | none => .error .invalid
  | .localSet n =>
      match c.stack with
      | v :: rest =>
          if n < c.state.locals.length then
            .ok ⟨rest, { c.state with locals := c.state.locals.set n v }⟩
          else .error .invalid
      | [] => .error .invalid
  | .localTee n =>
      match c.stack with
      | v :: rest =>
          if n < c.state.locals.length then
            .ok ⟨v :: rest, { c.state with locals := c.state.locals.set n v }⟩
          else .error .invalid
      | [] => .error .invalid
  | .globalGet n =>
      match c.state.shared.globals[n]? with
      | some v => .ok { c with stack := v :: c.stack }
      | none => .error .invalid
  | .globalSet n =>
      match c.stack with
      | v :: rest =>
          if n < c.state.shared.globals.length then
            .ok ⟨rest, c.state.setGlobal n v⟩
          else .error .invalid
      | [] => .error .invalid
  | .i64Const n => .ok { c with stack := .i64 n :: c.stack }
  | .i64LtU => binary (fun a b => ofBool (a < b)) c
  | .i64GtU => binary (fun a b => ofBool (b < a)) c
  | .i64Add => binary (fun a b => .i64 (a + b)) c
  | .i64Sub => binary (fun a b => .i64 (a - b)) c
  | .i64Mul => binary (fun a b => .i64 (a * b)) c
  | .i64ExtendI32U =>
      match c.stack with
      | .i32 w :: rest => .ok { c with stack := .i64 (w.setWidth 64) :: rest }
      | _ => .error .invalid
  | .other op =>
      match i.act op c.stack c.state.shared.world with
      | .done stack world =>
          .ok ⟨stack, { c.state with shared := { c.state.shared with world := world } }⟩
      | .trap => .error (.fail .trap)
      | .invalid => .error .invalid

def arity (types : List FuncType) : BlockType → Option (Nat × Nat)
  | .empty => some (0, 0)
  | .result _ => some (0, 1)
  | .functionType idx => types[idx]?.map fun t => (t.params.length, t.results.length)

def truth : Value → Option Bool
  | .i32 w => some (w != 0)
  | _ => none

/-- The results on the stack go to the caller. -/
def giveBack (results : Nat) (stack : List Value) (s : Shared W) : Answer W :=
  match split results stack with
  | some (values, _) => .returned values s
  | none => .invalid

/-- The end of a function: its results, or the call that takes its place. -/
def finish (i : Instance P W) (results : Nat) (again : Invoke W) : Outcome W → Answer W
  | .ok c | .error (.branch 0 c) | .error (.return_ c) => giveBack results c.stack c.state.shared
  | .error (.branch (_ + 1) _) => .invalid
  | .error (.tail callee c) =>
      match i.typeOf callee with
      | none => .invalid
      | some type =>
          match split type.params.length c.stack with
          | some (args, _) => again callee args c.state.shared
          | none => .invalid
  | .error (.fail e) => .fail e
  | .error .invalid => .invalid
  | .error .outOfFuel => .outOfFuel

/-! ### Hosts -/

inductive HostAnswer (W : Type)
  | done (values : List Value) (gas : BitVec 64) (world : W)
  | fail (e : Failure)

/-- A host function reads and writes the gas that remains. -/
abbrev Host (W : Type) := List Value → BitVec 64 → W → HostAnswer W

def hostCallBaseGas : UInt64 := 264768111

def exceeded : Failure := .message "Exceeded the prepaid gas"

/-- `charge_gas`; a word with the highest bit set counts as nothing. -/
def chargeGas (gas : BitVec 64) (amount : UInt64) : Except Failure (BitVec 64) :=
  let cur := if gas.toInt < 0 then 0 else gas.toNat
  if cur < amount.toNat then .error exceeded else .ok (BitVec.ofNat 64 (cur - amount.toNat))

/-- `host_fn` -/
def hostFn (f : Host W) : Host W := fun args gas world =>
  match chargeGas gas hostCallBaseGas with
  | .error e => .fail e
  | .ok gas => f args gas world

/-- The three hooks of the instrumentation. -/
def hook (n : Nat) : Option (FuncType × Host W) :=
  match n with
  | 0 => some (⟨[], []⟩, hostFn fun _ _ _ => .fail exceeded)
  | 1 => some (⟨[], []⟩, hostFn fun _ _ _ => .fail (.message "WasmTrap: StackOverflow"))
  | 2 => some (⟨[.i64], []⟩, hostFn fun _ _ _ => .fail exceeded)
  | _ => none

/-- What a run ends with when the stack budget is exhausted. -/
def stackExhausted (gas : BitVec 64) : Failure :=
  match chargeGas gas hostCallBaseGas with
  | .error e => e
  | .ok _ => .message "WasmTrap: StackOverflow"

/-! ### The meter -/

/-- The world with the gas that remains. -/
structure Metered (W : Type) where
  gas : BitVec 64
  world : W

def Effect.metered (m : Metered W) : Effect W → Effect (Metered W)
  | .done stack world => .done stack { m with world := world }
  | .trap => .trap
  | .invalid => .invalid

/-- The operators of a function, and the places between them where fees are due. -/
inductive Marked (P : Type)
  | point (p : GasPoint)
  | op (op : Operator P)

/-- A function of the module that is instrumented: its code, what a call takes from the stack
budget, and the gas for its frame. -/
structure MeteredFunction (P : Type) where
  type : FuncType
  locals : List ValType
  body : Flow (Marked P) BlockType
  charge : UInt64
  gas : UInt64

/-- A module whose runs are metered. -/
structure Program (P W : Type) where
  types : List FuncType
  hosts : List (FuncType × Host W)
  functions : List (MeteredFunction P)
  act : P → List Value → W → Effect W
  table : W → Nat → BitVec 32 → Option Value

namespace Program

variable (p : Program P W)

def functionType (id : Nat) : Option FuncType :=
  match p.hosts[id]? with
  | some (type, _) => some type
  | none => (p.functions[id - p.hosts.length]?).map (·.type)

def metered : Instance P (Metered W) where
  types := p.types
  act op stack m := (p.act op stack m.world).metered m
  table m := p.table m.world
  resolve f := (p.functionType f).map fun _ => .fn f
  typeOf
    | .hook _ => none
    | .fn id => p.functionType id

end Program

def Frame.gas (s : Frame (Metered W)) : BitVec 64 := s.shared.world.gas

def Frame.setGas (s : Frame (Metered W)) (gas : BitVec 64) : Frame (Metered W) :=
  { s with shared := { s.shared with world := { s.shared.world with gas := gas } } }

def spend (fee : Nat) (s : Frame (Metered W)) : Except Failure (Frame (Metered W)) :=
  if s.gas.toNat < fee then .error exceeded else .ok (s.setGas (s.gas - BitVec.ofNat 64 fee))

/-- What is due for the operand on top of the stack. -/
def linearDue (p : GasPoint) (stack : List Value) : Option Nat :=
  match p.kind, stack with
  | .aggregate _, .i32 n :: _ => some (n.toNat * p.fee.linear.toNat + p.fee.constant.toNat)
  | _, _ => none

/-- What is due at a point, over the stack. `none` is a point that the pass refuses. -/
def due (p : GasPoint) (stack : List Value) : Option Nat :=
  if p.kind = .unreachable ∨ p.fee = Fee.zero then some 0
  else if p.fee.linear = 0 then some p.fee.constant.toNat
  else linearDue p stack

/-- Going on after a fee, over the same stack. -/
def charged (stack : List Value) : Except Failure (Frame (Metered W)) → Outcome (Metered W)
  | .ok s => .ok ⟨stack, s⟩
  | .error e => .error (.fail e)

def execMarked (i : Instance P (Metered W)) (invoke : Invoke (Metered W)) (mark : Marked P)
    (c : Config Value (Frame (Metered W))) : Outcome (Metered W) :=
  match mark with
  | .op op => exec i invoke op c
  | .point p =>
      match due p c.stack with
      | none => .error .invalid
      | some fee => charged c.stack (spend fee c.state)

/-- A host function under the meter. -/
def runHost (host : Host W) (args : List Value) (s : Shared (Metered W)) : Answer (Metered W) :=
  match host args s.world.gas s.world.world with
  | .done values gas world => .returned values { s with world := ⟨gas, world⟩ }
  | .fail e => .fail e

def machine (i : Instance P W) {J : Type} (exec : J → Config Value (Frame W) → Outcome W) :
    Flow.Machine J Callee BlockType Value (Frame W) Failure where
  exec := exec
  arity := arity i.types
  truth := truth

namespace Program

variable (p : Program P W)

/-- A call of a host function, or of a function of the module. -/
def call (inside : MeteredFunction P → List Value → Shared (Metered W) → Answer (Metered W)) :
    Invoke (Metered W)
  | .hook _, _, _ => .invalid
  | .fn id, args, s =>
      match p.hosts[id]? with
      | some (_, host) => runHost host args s
      | none =>
          match p.functions[id - p.hosts.length]? with
          | some f => if args.length = f.type.params.length then inside f args s else .invalid
          | none => .invalid

/-- A call of a function of the module, given what the calls inside of it come to, and the call in
tail position. -/
def enter (fuel : Nat) (budget : BitVec 64) (inner again : Invoke (Metered W))
    (f : MeteredFunction P) (args : List Value) (s : Shared (Metered W)) : Answer (Metered W) :=
  if budget < f.charge.toBitVec then .fail (stackExhausted s.world.gas)
  else
    finish p.metered f.type.results.length again
      ((charged [] (spend f.gas.toNat ⟨args.reverse ++ f.locals.map ValType.default, s⟩)).bind
        (Flow.run (machine p.metered (execMarked p.metered inner)) fuel f.body))

/-- A call under the meter. The stack budget is what is left where the function is called: every
call leaves less of it to the calls inside of it, and a call in tail position leaves as much. -/
def invoke : Nat → BitVec 64 → Invoke (Metered W)
  | 0, _ => p.call fun _ _ _ => .outOfFuel
  | fuel + 1, budget =>
      p.call fun f => p.enter fuel budget (invoke fuel (budget - f.charge.toBitVec))
        (invoke fuel budget) f

end Program

/-! ### Instrumented functions -/

/-- A function of an instrumented module. -/
structure PreparedFunction (P : Type) where
  type : FuncType
  locals : List ValType
  body : Flow (Operator P) BlockType

/-- An instrumented module; `globals` is the number of globals that it had before. -/
structure Prepared (P W : Type) where
  types : List FuncType
  globals : Nat
  hosts : List (FuncType × Host W)
  functions : List (PreparedFunction P)
  act : P → List Value → W → Effect W
  table : W → Nat → BitVec 32 → Option Value

def storeGas (globals : Nat) (s : Shared W) : HostAnswer W → Answer W
  | .done values gas world =>
      .returned values ⟨s.globals.set (globals + gasGlobal) (.i64 gas), world⟩
  | .fail e => .fail e

/-- A host function of an instrumented module. -/
def callHost (globals : Nat) (host : Host W) (args : List Value) (s : Shared W) : Answer W :=
  match s.globals[globals + gasGlobal]? with
  | some (.i64 gas) => storeGas globals s (host args gas s.world)
  | _ => .fail (.message "gas global missing (module not instrumented)")

namespace Prepared

variable (q : Prepared P W)

def functionType (id : Nat) : Option FuncType :=
  match q.hosts[id]? with
  | some (type, _) => some type
  | none => (q.functions[id - q.hosts.length]?).map (·.type)

def hooked : Instance P W where
  types := q.types
  act := q.act
  table := q.table
  resolve f :=
    if f < newFunctions then some (.hook f)
    else (q.functionType (f - newFunctions)).map fun _ => .fn (f - newFunctions)
  typeOf
    | .hook n => (hook (W := W) n).map (·.1)
    | .fn id => q.functionType id

def call (inside : PreparedFunction P → List Value → Shared W → Answer W) : Invoke W
  | .hook n, args, s =>
      match hook n with
      | some (_, host) => callHost q.globals host args s
      | none => .invalid
  | .fn id, args, s =>
      match q.hosts[id]? with
      | some (_, host) => callHost q.globals host args s
      | none =>
          match q.functions[id - q.hosts.length]? with
          | some f => if args.length = f.type.params.length then inside f args s else .invalid
          | none => .invalid

def enter (fuel : Nat) (invoke : Invoke W) (f : PreparedFunction P) (args : List Value)
    (s : Shared W) : Answer W :=
  finish q.hooked f.type.results.length invoke
    (Flow.run (machine q.hooked (exec q.hooked invoke)) fuel f.body
      ⟨[], ⟨args.reverse ++ f.locals.map ValType.default, s⟩⟩)

def invoke : Nat → Invoke W
  | 0 => q.call fun _ _ _ => .outOfFuel
  | fuel + 1 => q.call (q.enter fuel (invoke fuel))

end Prepared

end LispRlm.Instrument
