import Mathlib.Data.List.Dedup

/-! The locals of a compiled function, the memos of parsed `u128` strings among them, and the
runs of the code that reads these memos. -/

namespace LispRlm.WasmEmit.ParseCache

/-- The three locals of a memo. -/
inductive Part
  | flag
  | lo
  | hi
  deriving DecidableEq

/-- The names that locals have: variables, memos, the variable of a `catch`, and temporaries. -/
inductive Local
  | var (x : String)
  | memo (part : Part) (x : String)
  | catch_ (x : String)
  | temp (label : String) (gen : Nat)
  deriving DecidableEq

/-- The forms of a function's body; an operator or call has the temporaries of its code. -/
inductive Expr
  | word (w : Int)
  | sym (x : String)
  | op (head : String) (temps : List String) (args : List Expr)
  | u128 (head : String) (args : List Expr)
  | if_ (cond thenArm elseArm : Expr)
  | begin_ (forms : List Expr)
  | let_ (names : List String) (inits body : List Expr)
  | set (x : String) (e : Expr)
  | while_ (cond : Expr) (body : List Expr)
  | for_ (x : String) (first last : Expr) (body : List Expr)
  | each (head x : String) (list body : Expr)
  | reduce (acc x : String) (init list body : Expr)
  | try_ (body : Expr) (x : String) (handler : List Expr)

/-- What stands in the tail of a function with tail calls, as `tc_if` takes it. -/
inductive Arm
  | value (e : Expr)
  | self (args : List Expr)

/-- A function's body as `tc` takes it apart. -/
inductive Tail
  | arm (a : Arm)
  | if_ (cond : Expr) (thenArm elseArm : Arm)
  | let_ (names : List String) (inits forms : List Expr) (last : Tail)

mutual

/-- `collect_set_targets` -/
def setTargets : Expr → List String
  | .word _ | .sym _ => []
  | .op _ _ args | .u128 _ args => setTargetsAll args
  | .if_ c t e => setTargets c ++ setTargets t ++ setTargets e
  | .begin_ forms => setTargetsAll forms
  | .let_ names inits body => names ++ setTargetsAll inits ++ setTargetsAll body
  | .set x e => x :: setTargets e
  | .while_ c body => setTargets c ++ setTargetsAll body
  | .for_ _ first last body => setTargets first ++ setTargets last ++ setTargetsAll body
  | .each _ _ list body => setTargets body ++ setTargets list
  | .reduce _ _ init list body => setTargets body ++ setTargets init ++ setTargets list
  | .try_ body _ handler => setTargets body ++ setTargetsAll handler

def setTargetsAll : List Expr → List String
  | [] => []
  | e :: rest => setTargets e ++ setTargetsAll rest

end

/-! ### Emission -/

/-- The emitter's locals. A memo has an entry in `parse_cache` when its locals are here; `allNew`
says that every memo so far was given locals that nothing had before. -/
structure Emitter where
  locals : List (Local × Nat)
  free : List Nat
  next : Nat
  gens : Nat
  allNew : Bool

namespace Emitter

def slot (σ : Emitter) (k : Local) : Option Nat := σ.locals.lookup k

def insert (σ : Emitter) (k : Local) (i : Nat) : Emitter :=
  { σ with locals := (k, i) :: σ.locals.filter fun entry => !(entry.1 == k) }

def remove (σ : Emitter) (k : Local) : Emitter :=
  { σ with locals := σ.locals.filter fun entry => !(entry.1 == k) }

/-- A slot of the free list that is not to be used. -/
def unusable (σ : Emitter) (i : Nat) : Bool :=
  σ.locals.any (fun entry => entry.2 == i) || decide (σ.next ≤ i)

/-- `local_idx` -/
def localIdx (σ : Emitter) (k : Local) : Emitter :=
  if (σ.slot k).isSome then σ
  else
    let skipped := (σ.free.takeWhile σ.unusable).reverse
    match σ.free.dropWhile σ.unusable with
    | i :: free => { σ.insert k i with free := skipped ++ free }
    | [] => { σ.insert k σ.next with free := skipped, next := σ.next + 1 }

/-- The local of a `let` binding, which is taken as it comes. -/
def bind (σ : Emitter) (x : String) : Emitter :=
  match σ.free with
  | i :: free => { σ.insert (.var x) i with free := free }
  | [] => { σ.insert (.var x) σ.next with next := σ.next + 1 }

/-- The end of a `let` binding. -/
def unbind (σ : Emitter) (x : String) (old : Option Nat) : Emitter :=
  match old with
  | some i => σ.insert (.var x) i
  | none => match σ.slot (.var x) with
    | some i => { σ.remove (.var x) with free := i :: σ.free }
    | none => σ

/-- `parse_cache_alloc` -/
def memo (σ : Emitter) (x : String) : Emitter :=
  if (σ.slot (.memo .flag x)).isSome then σ
  else
    let made := ((σ.localIdx (.memo .flag x)).localIdx (.memo .lo x)).localIdx (.memo .hi x)
    { made with allNew := σ.allNew && made.next == σ.next + 3 }

def memos (σ : Emitter) (names : List String) : Emitter := names.foldl memo σ

def temps (σ : Emitter) (labels : List String) : Emitter :=
  labels.foldl (fun σ label => σ.localIdx (.temp label 0)) σ

/-- Temporaries of their own, as `limb_call_count` numbers them. -/
def gen (σ : Emitter) (labels : List String) : Emitter :=
  { labels.foldl (fun σ' label => σ'.localIdx (.temp label σ.gens)) σ with gens := σ.gens + 1 }

/-- The variable of a `catch` stands for its local within the handler. -/
def catchVar (σ : Emitter) (x : String) : Emitter :=
  match σ.slot (.catch_ x) with
  | some i => σ.insert (.var x) i
  | none => σ

def uncatch (σ : Emitter) (x : String) (old : Option Nat) : Emitter :=
  match old with
  | some i => σ.insert (.var x) i
  | none => σ.remove (.var x)

end Emitter

def eachTemps : List String := ["arr", "n", "i", "new", "res", "bytes"]

def reduceTemps : List String := ["red_arr", "red_n", "red_i"]

def tryTemps : List String := ["try_flag", "try_res", "try_e"]

/-- A pair of limbs for each operand. -/
def limbTemps (args : List Expr) : List String :=
  ["la", "ha", "lb", "hb", "lc", "hc"].take (2 * args.length)

/-- The operand of a `u128` operator reads the memo of a variable. -/
def cached (σ : Emitter) : Expr → Option String
  | .sym x => if (σ.slot (.var x)).isSome then some x else none
  | _ => none

/-- The names whose memos are cleared where a loop goes back. -/
def loopBack (body : List Expr) : List String := (setTargetsAll body).dedup

mutual

/-- The emitter's locals after a form. -/
def after (σ : Emitter) : Expr → Emitter
  | .word _ | .sym _ => σ
  | .op _ temps args => afterAll (σ.temps temps) args
  | .u128 _ args => afterOperands (σ.gen (limbTemps args)) args
  | .if_ c t e => after (after (after σ c) t) e
  | .begin_ forms => afterAll σ forms
  | .let_ names inits body => afterLet (fun σ => afterAll σ body) σ names inits
  | .set x e => (after (σ.localIdx (.var x)) e).memo x
  | .while_ c body => (afterAll (after σ c) body).memos (loopBack body)
  | .for_ x first last body =>
      (afterAll (after (after ((σ.localIdx (.var x)).memo x) first) last) body).memos
        (loopBack body)
  | .each _ x list body =>
      after ((after ((σ.temps eachTemps).localIdx (.var x)) list).memo x) body
  | .reduce acc x init list body =>
      let named := ((σ.temps reduceTemps).localIdx (.var acc)).localIdx (.var x)
      after (((after (after named init) list).memo x).memo acc) body
  | .try_ body x handler =>
      let tried := after ((σ.temps tryTemps).localIdx (.catch_ x)) body
      (afterAll (tried.catchVar x) handler).uncatch x (tried.slot (.var x))

def afterAll (σ : Emitter) : List Expr → Emitter
  | [] => σ
  | e :: rest => afterAll (after σ e) rest

/-- `emit_u128_operand` for each operand. -/
def afterOperands (σ : Emitter) : List Expr → Emitter
  | [] => σ
  | e :: rest =>
      let read := match cached σ e with
        | some x => σ.memo x
        | none => after σ e
      afterOperands (read.gen ["t"]) rest

def afterLet (body : Emitter → Emitter) (σ : Emitter) : List String → List Expr → Emitter
  | x :: names, init :: inits =>
      let made := after σ init
      let inside := afterLet body ((made.bind x).memo x) names inits
      (inside.memo x).unbind x (made.slot (.var x))
  | _, _ => body σ

end

/-! ### Runs -/

/-- The wasm locals, the world, and the variables that have got a value or a place since their memo
was last cleared or filled, by code that does not clear it. -/
structure State (W : Type) where
  frame : Nat → Int
  stale : String → Bool
  world : W

/-- A read of a memo whose flag is set: whether it has the parse of the variable's value. -/
structure Use where
  stale : Bool
  agrees : Bool
  deriving DecidableEq

inductive End (W α : Type)
  | done (a : α) (s : State W)
  | throws (message : Int) (s : State W)
  | recurs (s : State W)
  | traps
  | outOfFuel

structure Ran (W α : Type) where
  log : List Use
  ending : End W α

abbrev Run (W α : Type) := State W → Ran W α

inductive Outcome (W : Type)
  | value (w : Int) (scratch : String → Int) (world : W)
  | throws (message : Int) (world : W)
  | traps

/-- What the code around the memos does: the parse of a tagged string, operators and calls, and the
elements of lists. -/
structure Program (W : Type) where
  nil : Int
  truthy : Int → Bool
  untag : Int → Int
  parse : Int → Option (Int × Int)
  apply : String → List Int → W → Outcome W
  arith : String → List (Int × Int) → W → Outcome W
  count : Int → W → Nat
  element : Int → Nat → W → Int
  collect : String → List Int → W → Outcome W

namespace Run

variable {W α β : Type}

def pure (a : α) : Run W α := fun s => ⟨[], .done a s⟩

def bind (m : Run W α) (f : α → Run W β) : Run W β := fun s =>
  let first := m s
  match first.ending with
  | .done a s' =>
      let second := f a s'
      ⟨first.log ++ second.log, second.ending⟩
  | .throws message s' => ⟨first.log, .throws message s'⟩
  | .recurs s' => ⟨first.log, .recurs s'⟩
  | .traps => ⟨first.log, .traps⟩
  | .outOfFuel => ⟨first.log, .outOfFuel⟩

instance : Monad (Run W) where
  pure := Run.pure
  bind := Run.bind

def trap : Run W α := fun _ => ⟨[], .traps⟩

def spent : Run W α := fun _ => ⟨[], .outOfFuel⟩

def recur : Run W α := fun s => ⟨[], .recurs s⟩

def world : Run W W := fun s => ⟨[], .done s.world s⟩

def get (σ : Emitter) (x : String) : Run W Int := fun s =>
  match σ.slot (.var x) with
  | some i => ⟨[], .done (s.frame i) s⟩
  | none => ⟨[], .traps⟩

/-- `local.set`. Another variable in the same local is stale from then on. -/
def set (σ : Emitter) (k : Local) (v : Int) : Run W Unit := fun s =>
  match σ.slot k with
  | some i => ⟨[], .done () { s with
      frame := fun j => if j = i then v else s.frame j
      stale := fun y => s.stale y || (decide (Local.var y ≠ k) && σ.slot (.var y) == some i) }⟩
  | none => ⟨[], .done () s⟩

/-- `emit_parse_cache_invalidate` -/
def clear (σ : Emitter) (x : String) : Run W Unit := fun s =>
  match σ.slot (.memo .flag x) with
  | some f => ⟨[], .done () { s with
      frame := fun j => if j = f then 0 else s.frame j
      stale := fun y => if y = x then false else s.stale y }⟩
  | none => ⟨[], .done () s⟩

def clearAll (σ : Emitter) : List String → Run W Unit
  | [] => pure ()
  | x :: names => do
      clear σ x
      clearAll σ names

/-- No code clears the memo here. -/
def leave (x : String) : Run W Unit := fun s =>
  ⟨[], .done () { s with stale := fun y => decide (y = x) || s.stale y }⟩

/-- Variables that code which did not run may have brought in. -/
def enter (σ : Emitter) : Run W Unit := fun s =>
  ⟨[], .done () { s with stale := fun y => s.stale y || (σ.slot (.var y)).isNone }⟩

def scratch (σ : Emitter) (labels : List String) (words : String → Int) : Run W Unit :=
  match labels with
  | [] => pure ()
  | label :: rest => do
      set σ (.temp label 0) (words label)
      scratch σ rest words

/-- A call of code outside of the function. -/
def outside (σ : Emitter) (labels : List String) (outcome : W → Outcome W) : Run W Int := fun s =>
  match outcome s.world with
  | .value v words w => Run.bind (scratch σ labels words) (fun _ => pure v) { s with world := w }
  | .throws message w => ⟨[], .throws message { s with world := w }⟩
  | .traps => ⟨[], .traps⟩

/-- A memo that is set is copied; otherwise the value is parsed and the memo filled. -/
def readMemo (parse : Int → Option (Int × Int)) (σ : Emitter) (x : String) :
    Run W (Int × Int) := fun s =>
  match σ.slot (.var x), σ.slot (.memo .flag x), σ.slot (.memo .lo x), σ.slot (.memo .hi x) with
  | some i, some f, some l, some h =>
      if s.frame f ≠ 0 then
        let limbs := (s.frame l, s.frame h)
        ⟨[⟨s.stale x, decide (parse (s.frame i) = some limbs)⟩], .done limbs s⟩
      else match parse (s.frame i) with
        | some (a, b) => ⟨[], .done (a, b) { s with
            frame := fun j =>
              if j = f then 1 else if j = h then b else if j = l then a else s.frame j
            stale := fun y => if y = x then false else s.stale y }⟩
        | none => ⟨[], .traps⟩
  | _, _, _, _ => ⟨[], .traps⟩

/-- A loop whose turn says whether there is another one. -/
def again (turn : Run W Bool) : Nat → Run W Unit
  | 0 => spent
  | fuel + 1 => do
      let more ← turn
      if more then again turn fuel else return ()

def forAll (turn : Nat → Run W α) : List Nat → Run W (List α)
  | [] => pure []
  | k :: rest => do
      let v ← turn k
      let vs ← forAll turn rest
      return v :: vs

def all (one : Emitter → Expr → Run W Int) (σ : Emitter) : List Expr → Run W (List Int)
  | [] => pure []
  | e :: rest => do
      let v ← one σ e
      let vs ← all one (after σ e) rest
      return v :: vs

def forms (nil : Int) (one : Emitter → Expr → Run W Int) (σ : Emitter) : List Expr → Run W Int
  | [] => pure nil
  | [e] => one σ e
  | e :: rest => do
      let _ ← one σ e
      forms nil one (after σ e) rest

def operands (parse : Int → Option (Int × Int)) (one : Emitter → Expr → Run W Int) (σ : Emitter) :
    List Expr → Run W (List (Int × Int))
  | [] => pure []
  | e :: rest => do
      match cached σ e with
      | some x => do
          let limbs ← readMemo parse (σ.memo x) x
          let others ← operands parse one ((σ.memo x).gen ["t"]) rest
          return limbs :: others
      | none => do
          let v ← one σ e
          match parse v with
          | some limbs => do
              let others ← operands parse one ((after σ e).gen ["t"]) rest
              return limbs :: others
          | none => trap

/-- An end that jumps out of a binding does not clear its memo. -/
def orLeave (x : String) (m : Run W α) : Run W α := fun s =>
  let inner := m s
  ⟨inner.log, match inner.ending with
    | .throws message s' => .throws message { s' with stale := fun y => decide (y = x) || s'.stale y }
    | other => other⟩

def bindings (one : Emitter → Expr → Run W Int) (inner : Emitter → Run W Int)
    (body : Emitter → Emitter) (σ : Emitter) : List String → List Expr → Run W Int
  | x :: names, init :: inits => do
      let v ← one σ init
      let inside := ((after σ init).bind x).memo x
      set inside (.var x) v
      clear inside x
      orLeave x do
        let r ← bindings one inner body inside names inits
        clear ((afterLet body inside names inits).memo x) x
        return r
  | _, _ => inner σ

/-- The body of a `try` and, where it throws, the handler. -/
def attempt (body : Run W Int) (handler : Int → Run W Int) : Run W Int := fun s =>
  let inner := body s
  match inner.ending with
  | .throws message s' =>
      let handled := handler message s'
      ⟨inner.log ++ handled.log, handled.ending⟩
  | _ => inner

end Run

namespace Program

variable {W : Type}

/-- The run of the code that the emitter makes of a form with these locals. -/
def run (p : Program W) : Nat → Emitter → Expr → Run W Int
  | 0, _, _ => .spent
  | fuel + 1, σ, e =>
      let one := fun σ e => p.run fuel σ e
      match e with
      | .word w => return w
      | .sym x => Run.get σ x
      | .op head labels args => do
          let vs ← Run.all one (σ.temps labels) args
          Run.outside (afterAll (σ.temps labels) args) labels (p.apply head vs)
      | .u128 head args => do
          let limbs ← Run.operands p.parse one (σ.gen (limbTemps args)) args
          Run.outside (afterOperands (σ.gen (limbTemps args)) args) [] (p.arith head limbs)
      | .if_ c t e => do
          let v ← one σ c
          if p.truthy v then do
            let r ← one (after σ c) t
            Run.enter (after (after σ c) t)
            return r
          else do
            Run.enter (after σ c)
            one (after (after σ c) t) e
      | .begin_ forms => Run.forms p.nil one σ forms
      | .let_ names inits body =>
          Run.bindings one (fun σ => Run.forms p.nil one σ body) (fun σ => afterAll σ body) σ names
            inits
      | .set x e => do
          let named := σ.localIdx (.var x)
          Run.enter σ
          let v ← one named e
          let done := (after named e).memo x
          Run.set done (.var x) v
          Run.clear done x
          return p.nil
      | .while_ c body => do
          Run.again (do
            let v ← one σ c
            if p.truthy v then do
              let _ ← Run.forms p.nil one (after σ c) body
              Run.clearAll (after σ (.while_ c body)) (loopBack body)
              return true
            else return false) fuel
          Run.enter σ
          return p.nil
      | .for_ x first last body => do
          let named := (σ.localIdx (.var x)).memo x
          Run.enter σ
          Run.clear named x
          let v ← one named first
          let begun := after named first
          Run.set begun (.var x) (p.untag v)
          Run.leave x
          Run.again (do
            let stop ← one begun last
            let counted ← Run.get (after begun last) x
            if p.untag stop ≤ counted then return false
            else do
              let _ ← Run.forms p.nil one (after begun last) body
              let ended := after σ (.for_ x first last body)
              let counted ← Run.get ended x
              Run.set ended (.var x) (counted + 1)
              Run.leave x
              Run.clearAll ended (loopBack body)
              return true) fuel
          Run.enter begun
          return p.nil
      | .each head x list body => do
          let named := (σ.temps eachTemps).localIdx (.var x)
          Run.enter σ
          let vs ← one named list
          let listed := (after named list).memo x
          let w ← Run.world
          let results ← Run.forAll (fun k => do
            let w ← Run.world
            Run.set listed (.var x) (p.element vs k w)
            Run.clear listed x
            one listed body) (List.range (p.count vs w))
          Run.enter listed
          Run.outside (after listed body) eachTemps (p.collect head results)
      | .reduce acc x init list body => do
          let named := ((σ.temps reduceTemps).localIdx (.var acc)).localIdx (.var x)
          Run.enter σ
          let first ← one named init
          Run.set (after named init) (.var acc) first
          Run.leave acc
          let vs ← one (after named init) list
          let listed := ((after (after named init) list).memo x).memo acc
          let w ← Run.world
          let _ ← Run.forAll (fun k => do
            let w ← Run.world
            Run.set listed (.var x) (p.element vs k w)
            Run.clear listed x
            Run.clear listed acc
            let v ← one listed body
            Run.set (after listed body) (.var acc) v
            Run.leave acc) (List.range (p.count vs w))
          Run.enter listed
          Run.get (after listed body) acc
      | .try_ body x handler => do
          let placed := (σ.temps tryTemps).localIdx (.catch_ x)
          let tried := after placed body
          let caught := tried.catchVar x
          let r ← Run.attempt (do
              let r ← one placed body
              Run.enter tried
              return r) fun message => do
            Run.enter placed
            Run.set caught (.catch_ x) message
            Run.leave x
            Run.orLeave x (Run.forms p.nil one caught handler)
          Run.leave x
          return r

end Program

/-! ### Functions -/

def argTemps (args : List Expr) : List String := (List.range args.length).map toString

def afterArm (params : List String) (σ : Emitter) : Arm → Emitter
  | .value e => after σ e
  | .self args => (afterAll (σ.temps (argTemps args)) args).memos params

def Arm.isSelf : Arm → Bool
  | .self _ => true
  | .value _ => false

def afterTcBindings (σ : Emitter) : List String → List Expr → Emitter
  | x :: names, init :: inits => afterTcBindings (after (σ.localIdx (.var x)) init) names inits
  | _, _ => σ

/-- The emitter's locals after the code of `tc`. -/
def afterTail (params : List String) (σ : Emitter) : Tail → Emitter
  | .arm a => afterArm params σ a
  | .if_ c t e =>
      if t.isSelf && !e.isSelf then afterArm params (afterArm params (after σ c) e) t
      else afterArm params (afterArm params (after σ c) t) e
  | .let_ names inits forms last =>
      afterTail params (afterAll ((afterTcBindings σ names inits).memos names) forms) last

namespace Run

variable {W : Type}

def store (σ : Emitter) : List String → List Int → Run W Unit
  | x :: names, v :: vs => do
      set σ (.var x) v
      store σ names vs
  | _, _ => pure ()

/-- The bindings of `tc_let`, whose memos are cleared after all of them. -/
def tcBindings (one : Emitter → Expr → Run W Int) (σ : Emitter) :
    List String → List Expr → Run W Unit
  | x :: names, init :: inits => do
      let named := σ.localIdx (.var x)
      enter σ
      let v ← one named init
      set (after named init) (.var x) v
      leave x
      tcBindings one (after named init) names inits
  | _, _ => pure ()

/-- A self call begins the body again, with the same locals. -/
def turns (body : Run W Int) : Nat → Run W Int
  | 0 => spent
  | fuel + 1 => fun s =>
      let turn := body s
      match turn.ending with
      | .recurs s' =>
          let more := turns body fuel s'
          ⟨turn.log ++ more.log, more.ending⟩
      | _ => turn

end Run

namespace Program

variable {W : Type}

/-- An arm; a self call takes all arguments, then writes the parameters and clears their memos. -/
def runArm (p : Program W) (fuel : Nat) (params : List String) (σ : Emitter) : Arm → Run W Int
  | .value e => p.run fuel σ e
  | .self args => do
      let placed := σ.temps (argTemps args)
      let vs ← Run.all (fun σ e => p.run fuel σ e) placed args
      let done := (afterAll placed args).memos params
      Run.store done params vs
      Run.clearAll done params
      Run.recur

def runTail (p : Program W) (fuel : Nat) (params : List String) (σ : Emitter) : Tail → Run W Int
  | .arm a => p.runArm fuel params σ a
  | .if_ c t e => do
      let v ← p.run fuel σ c
      let tested := after σ c
      Run.enter tested
      let late := t.isSelf && !e.isSelf
      if p.truthy v then p.runArm fuel params (if late then afterArm params tested e else tested) t
      else p.runArm fuel params (if late then tested else afterArm params tested t) e
  | .let_ names inits forms last => do
      let bound := (afterTcBindings σ names inits).memos names
      Run.tcBindings (fun σ e => p.run fuel σ e) σ names inits
      Run.clearAll bound names
      let _ ← Run.all (fun σ e => p.run fuel σ e) bound forms
      p.runTail fuel params (afterAll bound forms) last

end Program

/-- The emitter's locals where a function's body begins: its parameters and `__ret`. -/
def begin_ (params : List String) : Emitter :=
  let named := params.foldl (fun (σ : Emitter) x => σ.localIdx (.var x)) ⟨[], [], 0, 0, true⟩
  named.localIdx (.temp "ret" 0)

/-- The locals of wasm begin with the arguments, and else with zero. -/
def enterFn {W : Type} (args : List Int) (w : W) : State W where
  frame := fun i => args.getD i 0
  stale := fun _ => false
  world := w

/-- The run of a call of a function. -/
def Program.runFn {W : Type} (p : Program W) (fuel : Nat) (params : List String) (body : Tail)
    (args : List Int) (w : W) : Ran W Int :=
  Run.turns (p.runTail fuel params (begin_ params) body) fuel (enterFn args w)

end LispRlm.WasmEmit.ParseCache
