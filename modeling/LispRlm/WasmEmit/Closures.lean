import LispRlm.Foundation.Simulation
import Mathlib.Logic.Function.Basic

/-! Function values: the cells and numbers of lambdas, and the dispatch chains that find them
again. -/

namespace LispRlm.WasmEmit

open Foundation

/-- A tagged word, read as unsigned. -/
abbrev Word := Nat

abbrev Memory := Nat → Word

/-! ### Emission -/

/-- A lambda expression, as `lambda_info` and the code that creates its closure know it. -/
structure Lambda where
  /-- The index of its hidden function. -/
  func : Nat
  captured : Nat
  /-- The number stored in its closures, from `lambda_counter`. -/
  number : Nat
  /-- The static cells of its closures. -/
  ptr : Nat
  deriving DecidableEq

/-- How a call site finds the function it calls. -/
inductive Dispatch
  /-- An if-chain over the lambdas known where it was emitted. An arm `returns` from the enclosing
  function. -/
  | chain (arms : List Nat) (returns : Bool)
  /-- A plain call, whatever the callee's value. -/
  | direct (func : Nat)
  deriving DecidableEq

structure Emitter where
  lambdaCounter : Nat
  funcs : Nat
  nextDataOffset : Nat
  lambdaInfo : List Lambda
  dispatches : List Dispatch

/-- What emitting a module comes across, in the order of emission. -/
inductive Form
  | lambda (captured : Nat) (body : List Form)
  /-- A loop is lifted to a function, named by the next lambda number. -/
  | loop (body : List Form)
  | define (body : List Form)
  /-- A call of an expression, or of a local that is no function's name. -/
  | callDynamic
  /-- A call, with arguments, of a top-level value. -/
  | callValue
  /-- A call of a local whose first argument is that local. -/
  | selfPassing
  /-- A call of a local that has the name of a function. -/
  | callShadowed (func : Nat)
  | allocData (bytes : Nat)

namespace Emitter

/-- `heap_bump` for a closure: its number and the captured values. -/
def closureSize (captured : Nat) : Nat := (1 + captured) * 8

/-- The end of `emit_lambda`: the body is emitted already. -/
def recordLambda (em : Emitter) (func captured number : Nat) : Emitter :=
  { em with
    nextDataOffset := em.nextDataOffset + if captured = 0 then 0 else closureSize captured
    lambdaInfo := em.lambdaInfo ++ [{ func, captured, number, ptr := em.nextDataOffset }] }

def recordDispatch (em : Emitter) (d : Dispatch) : Emitter :=
  { em with dispatches := em.dispatches ++ [d] }

def arms (em : Emitter) : List Nat := em.lambdaInfo.map Lambda.func

mutual

def emitForm (current : Nat) : Form → Emitter → Emitter
  | .lambda captured body, em =>
      let inner := emitForms em.funcs body
        { em with lambdaCounter := em.lambdaCounter + 1, funcs := em.funcs + 1 }
      inner.recordLambda em.funcs captured em.lambdaCounter
  | .loop body, em =>
      emitForms em.funcs body
        { em with lambdaCounter := em.lambdaCounter + 1, funcs := em.funcs + 1 }
  | .define body, em => emitForms em.funcs body { em with funcs := em.funcs + 1 }
  | .callDynamic, em => em.recordDispatch (.chain em.arms false)
  | .callValue, em => em.recordDispatch (.chain em.arms true)
  | .selfPassing, em => em.recordDispatch (.direct current)
  | .callShadowed func, em => em.recordDispatch (.direct func)
  | .allocData bytes, em => { em with nextDataOffset := em.nextDataOffset + bytes }

def emitForms (current : Nat) : List Form → Emitter → Emitter
  | [], em => em
  | form :: rest, em => emitForms current rest (emitForm current form em)

end

/-- The emitter of a module with `funcs` functions registered ahead. -/
def fresh (funcs heap : Nat) : Emitter where
  lambdaCounter := 0
  funcs
  nextDataOffset := heap
  lambdaInfo := []
  dispatches := []

end Emitter

/-! ### Runs -/

def tagFnref : Nat := 2

def tagClosure : Nat := 3

/-- The value of a lambda expression or a function's name. -/
def fnref (number : Nat) : Word := number * 8 + tagFnref

def closureRef (ptr : Nat) : Word := ptr * 8 + tagClosure

/-- One step of a run, as far as function values go. -/
inductive RunEvent
  /-- A lambda expression is evaluated where its free variables have these values. -/
  | create (lambda : Nat) (values : List Word)
  | name (func : Nat)
  /-- The function value made by the `value`-th creation or naming is called at a call site. -/
  | call (site value : Nat) (tail : Bool)
  /-- The body that the `frame`-th call runs reads its `i`-th free variable. -/
  | capture (frame i : Nat)

inductive Observed
  | nothing
  /-- The function that runs, and whether its result reaches the expression around the call. -/
  | called (func : Option Nat) (delivered : Bool)
  | value (w : Word)
  deriving DecidableEq

/-- The values of a lambda's free variables. -/
def fit (captured : Nat) (values : List Word) : List Word :=
  (List.range captured).map fun i => values.getD i 0

/-- Stores into consecutive cells of eight bytes. -/
def storeCells (ptr : Nat) : List Word → Memory → Memory
  | [], memory => memory
  | cell :: rest, memory => storeCells (ptr + 8) rest (Function.update memory ptr cell)

structure Machine where
  memory : Memory
  /-- The function values made so far. -/
  words : List Word
  /-- The closure pointer each call so far passed on. -/
  frames : List Nat

namespace Machine

/-- The number and the closure pointer a dispatch works with. -/
def decode (memory : Memory) (w : Word) : Nat × Nat :=
  if w % 4 = tagFnref then (w / 8, 0) else (memory (w / 8), w / 8)

theorem decode_fnref (memory : Memory) (number : Nat) :
    decode memory (fnref number) = (number, 0) := by
  have tag : (number * 8 + 2) % 4 = 2 := by omega
  have payload : (number * 8 + 2) / 8 = number := by omega
  exact (if_pos tag).trans (congrArg (·, 0) payload)

theorem decode_closureRef (memory : Memory) (ptr : Nat) :
    decode memory (closureRef ptr) = (memory ptr, ptr) := by
  have tag : ¬ (ptr * 8 + 3) % 4 = 2 := by omega
  have payload : (ptr * 8 + 3) / 8 = ptr := by omega
  exact (if_neg tag).trans (congrArg (fun p => (memory p, p)) payload)

def create (m : Machine) (l : Lambda) (values : List Word) : Machine :=
  if l.captured = 0 then { m with words := m.words ++ [fnref l.number] }
  else
    { m with
      memory := storeCells l.ptr (l.number :: fit l.captured values) m.memory
      words := m.words ++ [closureRef l.ptr] }

def dispatch (m : Machine) (d : Dispatch) (w : Word) (tail : Bool) : Observed × Machine :=
  match d with
  | .direct func => (.called (some func) true, { m with frames := m.frames ++ [0] })
  | .chain arms returns =>
      let (number, ptr) := decode m.memory w
      match arms[number]? with
      | some func =>
          (.called (some func) (!returns || tail), { m with frames := m.frames ++ [ptr] })
      | none => (.called none true, { m with frames := m.frames ++ [0] })

def step (em : Emitter) : RunEvent → Machine → Observed × Machine
  | .create lambda values, m =>
      match em.lambdaInfo[lambda]? with
      | none => (.nothing, m)
      | some l => (.nothing, m.create l values)
  | .name func, m => (.nothing, { m with words := m.words ++ [fnref func] })
  | .call site value tail, m =>
      match em.dispatches[site]?, m.words[value]? with
      | some d, some w => m.dispatch d w tail
      | _, _ => (.nothing, m)
  | .capture frame i, m =>
      match m.frames[frame]? with
      | none => (.nothing, m)
      | some ptr => (.value (m.memory (ptr + (i + 1) * 8)), m)

def start (memory : Memory) : Machine where
  memory
  words := []
  frames := []

end Machine

/-- What a function value stands for. -/
inductive FunValue
  | closure (lambda : Nat) (env : List Word)
  | named (func : Nat)
  deriving DecidableEq

structure Meaning where
  values : List FunValue
  frames : List FunValue

namespace Meaning

def create (s : Meaning) (lambda : Nat) (l : Lambda) (values : List Word) : Meaning :=
  { s with values := s.values ++ [.closure lambda (fit l.captured values)] }

def funcOf (em : Emitter) : FunValue → Option Nat
  | .closure lambda _ => (em.lambdaInfo[lambda]?).map Lambda.func
  | .named func => some func

def step (em : Emitter) : RunEvent → Meaning → Observed × Meaning
  | .create lambda values, s =>
      match em.lambdaInfo[lambda]? with
      | none => (.nothing, s)
      | some l => (.nothing, s.create lambda l values)
  | .name func, s => (.nothing, { s with values := s.values ++ [.named func] })
  | .call site value _, s =>
      match em.dispatches[site]?, s.values[value]? with
      | some _, some v => (.called (funcOf em v) true, { s with frames := s.frames ++ [v] })
      | _, _ => (.nothing, s)
  | .capture frame i, s =>
      match s.frames[frame]? with
      | some (.closure _ env) => (.value (env.getD i 0), s)
      | _ => (.nothing, s)

def start : Meaning where
  values := []
  frames := []

end Meaning

/-! ### Cells of different lambdas -/

/-- Closures of `a` lie below the closures of `b`. -/
def Lambda.Below (a b : Lambda) : Prop :=
  0 < a.captured → 0 < b.captured → a.ptr + Emitter.closureSize a.captured ≤ b.ptr

namespace Emitter

/-- The cells of each lambda are its own. -/
structure Laid (em : Emitter) : Prop where
  allocated : ∀ l ∈ em.lambdaInfo, 0 < l.captured →
    l.ptr + closureSize l.captured ≤ em.nextDataOffset
  apart : em.lambdaInfo.Pairwise Lambda.Below

theorem Laid.of_same {em em' : Emitter} (laid : em.Laid) (info : em'.lambdaInfo = em.lambdaInfo)
    (grows : em.nextDataOffset ≤ em'.nextDataOffset) : em'.Laid := by
  constructor
  · intro l member captures
    rw [info] at member
    exact Nat.le_trans (laid.allocated l member captures) grows
  · rw [info]
    exact laid.apart

theorem Laid.recordLambda {em : Emitter} (laid : em.Laid) (func captured number : Nat) :
    (em.recordLambda func captured number).Laid := by
  have grows : em.nextDataOffset ≤
      em.nextDataOffset + if captured = 0 then 0 else closureSize captured := by omega
  constructor
  · intro l member captures
    rcases List.mem_append.mp member with old | new
    · exact Nat.le_trans (laid.allocated l old captures) grows
    · rw [List.mem_singleton] at new
      subst new
      have positive : captured ≠ 0 := Nat.pos_iff_ne_zero.mp captures
      simp [Emitter.recordLambda, positive]
  · apply List.pairwise_append.mpr
    refine ⟨laid.apart, List.pairwise_singleton _ _, ?_⟩
    intro l old l' new captures _
    rw [List.mem_singleton] at new
    subst new
    exact laid.allocated l old captures

mutual

theorem Laid.emitForm {em : Emitter} (laid : em.Laid) (current : Nat) :
    (form : Form) → (Emitter.emitForm current form em).Laid
  | .lambda captured body => by
      have opened : Laid
          { em with lambdaCounter := em.lambdaCounter + 1, funcs := em.funcs + 1 } :=
        laid.of_same rfl (Nat.le_refl _)
      rw [Emitter.emitForm]
      exact (Laid.emitForms opened em.funcs body).recordLambda _ _ _
  | .loop body => by
      have opened : Laid
          { em with lambdaCounter := em.lambdaCounter + 1, funcs := em.funcs + 1 } :=
        laid.of_same rfl (Nat.le_refl _)
      rw [Emitter.emitForm]
      exact Laid.emitForms opened em.funcs body
  | .define body => by
      have opened : Laid { em with funcs := em.funcs + 1 } := laid.of_same rfl (Nat.le_refl _)
      rw [Emitter.emitForm]
      exact Laid.emitForms opened em.funcs body
  | .callDynamic => laid.of_same rfl (Nat.le_refl _)
  | .callValue => laid.of_same rfl (Nat.le_refl _)
  | .selfPassing => laid.of_same rfl (Nat.le_refl _)
  | .callShadowed _ => laid.of_same rfl (Nat.le_refl _)
  | .allocData bytes => laid.of_same rfl (Nat.le_add_right _ _)

theorem Laid.emitForms {em : Emitter} (laid : em.Laid) (current : Nat) :
    (forms : List Form) → (Emitter.emitForms current forms em).Laid
  | [] => laid
  | form :: rest => Laid.emitForms (Laid.emitForm laid current form) current rest

end

theorem fresh_laid (funcs heap : Nat) : (fresh funcs heap).Laid := by
  constructor
  · intro l member
    cases member
  · exact List.Pairwise.nil

end Emitter

/-! ### Stored closures -/

theorem storeCells_out {ptr a : Nat} {cells : List Word} (memory : Memory)
    (outside : a < ptr ∨ ptr + cells.length * 8 ≤ a) :
    storeCells ptr cells memory a = memory a := by
  induction cells generalizing ptr memory with
  | nil => rfl
  | cons cell rest ih =>
      rw [List.length_cons] at outside
      have later : a < ptr + 8 ∨ ptr + 8 + rest.length * 8 ≤ a := by omega
      have here : a ≠ ptr := by omega
      rw [storeCells, ih _ later]
      exact Function.update_of_ne here _ _

theorem storeCells_at {ptr i : Nat} {cells : List Word} {cell : Word} (memory : Memory)
    (held : cells[i]? = some cell) : storeCells ptr cells memory (ptr + i * 8) = cell := by
  induction cells generalizing ptr i memory with
  | nil => cases held
  | cons first rest ih =>
      rw [storeCells]
      cases i with
      | zero =>
          simp only [List.getElem?_cons_zero, Option.some.injEq] at held
          rw [storeCells_out _ (.inl (by omega)), held]
          exact Function.update_self _ _ _
      | succ i =>
          rw [List.getElem?_cons_succ] at held
          have next : storeCells (ptr + 8) rest (Function.update memory ptr first)
              (ptr + 8 + i * 8) = cell := ih _ held
          rw [show ptr + (i + 1) * 8 = ptr + 8 + i * 8 by omega]
          exact next

/-- The cells of a lambda hold a closure with these captured values. -/
def Holds (memory : Memory) (l : Lambda) (env : List Word) : Prop :=
  memory l.ptr = l.number ∧ ∀ i < l.captured, memory (l.ptr + (i + 1) * 8) = env.getD i 0

theorem length_fit (captured : Nat) (values : List Word) :
    (fit captured values).length = captured := by
  simp [fit]

theorem holds_stored (l : Lambda) (values : List Word) (memory : Memory) :
    Holds (storeCells l.ptr (l.number :: fit l.captured values) memory) l
      (fit l.captured values) := by
  constructor
  · exact storeCells_at (i := 0) memory rfl
  · intro i inside
    have held : (l.number :: fit l.captured values)[i + 1]? =
        some ((fit l.captured values).getD i 0) := by
      simp [fit, inside]
    exact storeCells_at memory held

/-- Storing another lambda's closure leaves the cells alone. -/
theorem Holds.stored_apart {memory : Memory} {l other : Lambda} {env : List Word}
    (holds : Holds memory l env) (apart : l.Below other ∨ other.Below l) (captures : 0 < l.captured)
    (captures' : 0 < other.captured) (values : List Word) :
    Holds (storeCells other.ptr (other.number :: fit other.captured values) memory) l env := by
  have size : (other.number :: fit other.captured values).length * 8 =
      Emitter.closureSize other.captured := by
    rw [List.length_cons, length_fit, Emitter.closureSize]
    omega
  have kept : ∀ a, l.ptr ≤ a → a < l.ptr + Emitter.closureSize l.captured →
      storeCells other.ptr (other.number :: fit other.captured values) memory a = memory a := by
    intro a low high
    apply storeCells_out
    rw [size]
    rcases apart with before | after
    · have := before captures captures'
      omega
    · have := after captures' captures
      omega
  constructor
  · rw [kept l.ptr (Nat.le_refl _) (by unfold Emitter.closureSize; omega)]
    exact holds.1
  · intro i inside
    rw [kept _ (by omega) (by unfold Emitter.closureSize; omega)]
    exact holds.2 i inside

/-! ### What a run's function values are -/

def FunValue.envOf (lambda : Nat) : FunValue → Option (List Word)
  | .closure l env => if l = lambda then some env else none
  | .named _ => none

/-- What the latest evaluation of a lambda expression captured. -/
def latest (lambda : Nat) (values : List FunValue) : Option (List Word) :=
  values.reverse.findSome? (FunValue.envOf lambda)

theorem latest_append (lambda : Nat) (values : List FunValue) (v : FunValue) :
    latest lambda (values ++ [v]) = (v.envOf lambda).or (latest lambda values) := by
  unfold latest
  rw [List.reverse_append, List.reverse_singleton, List.singleton_append, List.findSome?_cons]
  cases v.envOf lambda <;> rfl

theorem latest_of_mem {lambda : Nat} {env : List Word} {values : List FunValue}
    (member : .closure lambda env ∈ values) : ∃ env', latest lambda values = some env' := by
  apply Option.isSome_iff_exists.mp
  unfold latest
  rw [List.findSome?_isSome_iff]
  exact ⟨_, List.mem_reverse.mpr member, by simp [FunValue.envOf]⟩

namespace FunValue

variable (em : Emitter)

/-- The word of a function value, its closure pointer, and the number a dispatch finds for it. -/
def word : FunValue → Word
  | .closure lambda _ =>
      match em.lambdaInfo[lambda]? with
      | some l => if l.captured = 0 then fnref l.number else closureRef l.ptr
      | none => 0
  | .named func => fnref func

def ptr : FunValue → Nat
  | .closure lambda _ =>
      match em.lambdaInfo[lambda]? with
      | some l => if l.captured = 0 then 0 else l.ptr
      | none => 0
  | .named _ => 0

def number : FunValue → Nat
  | .closure lambda _ =>
      match em.lambdaInfo[lambda]? with
      | some l => l.number
      | none => 0
  | .named func => func

/-- The lambda expression is in the module. -/
def Known : FunValue → Prop
  | .closure lambda env => ∃ l, em.lambdaInfo[lambda]? = some l ∧ env.length = l.captured
  | .named _ => True

end FunValue

/-- A step at which a function value is taken for what it is. -/
def Denotes (em : Emitter) : RunEvent → Machine × Meaning → Prop
  | .call site value tail, p =>
      match em.dispatches[site]?, p.2.values[value]? with
      | some (.direct func), some v => v = .named func
      | some (.chain arms returns), some v =>
          arms[v.number em]? = Meaning.funcOf em v ∧ (returns = true → tail = true)
      | _, _ => True
  | .capture frame i, p =>
      match p.2.frames[frame]? with
      | some (.closure lambda env) =>
          i < env.length ∧
            (latest lambda p.2.values).map (fun now => now.getD i 0) = some (env.getD i 0)
      | some (.named _) => False
      | none => True
  | _, _ => True

instance (em : Emitter) (event : RunEvent) (p : Machine × Meaning) :
    Decidable (Denotes em event p) := by
  cases event <;> unfold Denotes <;> dsimp only <;> (try split) <;> infer_instance

/-- Words, closure pointers and cells are those of the function values. -/
structure Represents (em : Emitter) (m : Machine) (s : Meaning) : Prop where
  words : m.words = s.values.map (FunValue.word em)
  frames : m.frames = s.frames.map (FunValue.ptr em)
  holds : ∀ lambda l env, em.lambdaInfo[lambda]? = some l → latest lambda s.values = some env →
    0 < l.captured → Holds m.memory l env
  known : ∀ v ∈ s.values, v.Known em
  called : ∀ v ∈ s.frames, v ∈ s.values

namespace Represents

variable {em : Emitter} {m : Machine} {s : Meaning}

theorem decode (represents : Represents em m s) {v : FunValue} (member : v ∈ s.values) :
    Machine.decode m.memory (v.word em) = (v.number em, v.ptr em) := by
  cases v with
  | named func => exact Machine.decode_fnref m.memory func
  | closure lambda env =>
      obtain ⟨l, listed, -⟩ := represents.known _ member
      simp only [FunValue.word, FunValue.number, FunValue.ptr, listed]
      by_cases none : l.captured = 0
      · rw [if_pos none, if_pos none]
        exact Machine.decode_fnref m.memory l.number
      · obtain ⟨env', last⟩ := latest_of_mem member
        have captures : 0 < l.captured := Nat.pos_of_ne_zero none
        have stored := (represents.holds lambda l env' listed last captures).1
        rw [if_neg none, if_neg none, Machine.decode_closureRef, stored]

theorem start (memory : Memory) : Represents em (Machine.start memory) Meaning.start := by
  constructor
  · rfl
  · rfl
  · intro lambda l env _ last
    cases last
  · intro v member
    cases member
  · intro v member
    cases member

theorem create (represents : Represents em m s) (laid : em.Laid) {lambda : Nat} {l : Lambda}
    (listed : em.lambdaInfo[lambda]? = some l) (values : List Word) :
    Represents em (m.create l values) (s.create lambda l values) := by
  have word : (FunValue.closure lambda (fit l.captured values)).word em =
      if l.captured = 0 then fnref l.number else closureRef l.ptr := by
    simp [FunValue.word, listed]
  have words : (m.create l values).words = (s.create lambda l values).values.map
      (FunValue.word em) := by
    rw [Meaning.create, List.map_append, List.map_singleton, word, ← represents.words,
      Machine.create]
    split <;> rfl
  have frames : (m.create l values).frames = m.frames := by
    rw [Machine.create]
    split <;> rfl
  constructor
  · exact words
  · rw [frames]
    exact represents.frames
  · intro lambda' l' env listed' last captures
    rw [Meaning.create, latest_append, FunValue.envOf] at last
    by_cases same : lambda = lambda'
    · subst same
      rw [listed] at listed'
      cases listed'
      rw [if_pos rfl] at last
      cases last
      rw [Machine.create, if_neg (by omega)]
      exact holds_stored l values m.memory
    · rw [if_neg same, Option.none_or] at last
      have before := represents.holds lambda' l' env listed' last captures
      rw [Machine.create]
      by_cases none : l.captured = 0
      · rw [if_pos none]
        exact before
      · rw [if_neg none]
        have apart : l'.Below l ∨ l.Below l' := by
          obtain ⟨in_l, rfl⟩ := List.getElem?_eq_some_iff.mp listed
          obtain ⟨in_l', rfl⟩ := List.getElem?_eq_some_iff.mp listed'
          have pairs := List.pairwise_iff_getElem.mp laid.apart
          rcases Nat.lt_or_ge lambda' lambda with low | high
          · exact .inl (pairs _ _ in_l' in_l low)
          · exact .inr (pairs _ _ in_l in_l' (by omega))
        exact before.stored_apart apart captures (Nat.pos_of_ne_zero none) values
  · intro v member
    rcases List.mem_append.mp member with old | new
    · exact represents.known v old
    · rw [List.mem_singleton] at new
      subst new
      exact ⟨l, listed, length_fit _ _⟩
  · intro v member
    exact List.mem_append_left _ (represents.called v member)

theorem name (represents : Represents em m s) (func : Nat) :
    Represents em { m with words := m.words ++ [fnref func] }
      { s with values := s.values ++ [.named func] } := by
  constructor
  · simp [represents.words, FunValue.word]
  · exact represents.frames
  · intro lambda l env listed last
    rw [latest_append] at last
    exact represents.holds lambda l env listed last
  · intro v member
    rcases List.mem_append.mp member with old | new
    · exact represents.known v old
    · rw [List.mem_singleton] at new
      subst new
      trivial
  · intro v member
    exact List.mem_append_left _ (represents.called v member)

theorem enter (represents : Represents em m s) {v : FunValue} (member : v ∈ s.values) :
    Represents em { m with frames := m.frames ++ [v.ptr em] }
      { s with frames := s.frames ++ [v] } := by
  constructor
  · exact represents.words
  · simp [represents.frames]
  · exact represents.holds
  · exact represents.known
  · intro w inside
    rcases List.mem_append.mp inside with old | new
    · exact represents.called w old
    · rw [List.mem_singleton] at new
      exact new ▸ member

/-- The dispatch runs the function value's own function and delivers its result. -/
theorem dispatch (represents : Represents em m s) {v : FunValue} (member : v ∈ s.values)
    {d : Dispatch} {tail : Bool}
    (denotes : match d with
      | .direct func => v = .named func
      | .chain arms returns =>
          arms[v.number em]? = Meaning.funcOf em v ∧ (returns = true → tail = true)) :
    (m.dispatch d (v.word em) tail).1 = .called (Meaning.funcOf em v) true ∧
      Represents em (m.dispatch d (v.word em) tail).2 { s with frames := s.frames ++ [v] } := by
  have entered := represents.enter member
  cases d with
  | direct func =>
      dsimp only at denotes
      subst denotes
      exact ⟨rfl, entered⟩
  | chain arms returns =>
      obtain ⟨arm, delivered⟩ := denotes
      have some_func : ∃ func, Meaning.funcOf em v = some func := by
        cases v with
        | named func => exact ⟨func, rfl⟩
        | closure lambda env =>
            obtain ⟨l, listed, -⟩ := represents.known _ member
            exact ⟨l.func, by simp [Meaning.funcOf, listed]⟩
      obtain ⟨func, func_eq⟩ := some_func
      rw [func_eq] at arm ⊢
      have ran : m.dispatch (.chain arms returns) (v.word em) tail =
          (.called (some func) (!returns || tail), { m with frames := m.frames ++ [v.ptr em] }) := by
        simp only [Machine.dispatch, represents.decode member, arm]
      rw [ran]
      refine ⟨?_, entered⟩
      cases returns with
      | false => rfl
      | true => rw [delivered rfl]; rfl

/-- One step, where the function values it uses are taken for what they are. -/
theorem step (represents : Represents em m s) (laid : em.Laid) {event : RunEvent}
    (denotes : Denotes em event (m, s)) :
    (Machine.step em event m).1 = (Meaning.step em event s).1 ∧
      Represents em (Machine.step em event m).2 (Meaning.step em event s).2 := by
  cases event with
  | create lambda values =>
      simp only [Machine.step, Meaning.step]
      cases listed : em.lambdaInfo[lambda]? with
      | none => exact ⟨rfl, represents⟩
      | some l => exact ⟨rfl, represents.create laid listed values⟩
  | name func => exact ⟨rfl, represents.name func⟩
  | call site value tail =>
      simp only [Denotes] at denotes
      simp only [Machine.step, Meaning.step, represents.words, List.getElem?_map]
      cases at_site : em.dispatches[site]? with
      | none => exact ⟨rfl, represents⟩
      | some d =>
          cases at_value : s.values[value]? with
          | none => exact ⟨rfl, represents⟩
          | some v =>
              rw [at_site, at_value] at denotes
              have member := List.mem_of_getElem? at_value
              apply represents.dispatch member
              cases d <;> exact denotes
  | capture frame i =>
      simp only [Denotes] at denotes
      simp only [Machine.step, Meaning.step, represents.frames, List.getElem?_map]
      cases at_frame : s.frames[frame]? with
      | none => exact ⟨rfl, represents⟩
      | some v =>
          rw [at_frame] at denotes
          cases v with
          | named func => exact denotes.elim
          | closure lambda env =>
              have member := represents.called _ (List.mem_of_getElem? at_frame)
              obtain ⟨l, listed, length⟩ := represents.known _ member
              obtain ⟨now, last⟩ := latest_of_mem member
              dsimp only at denotes
              obtain ⟨inside, current⟩ := denotes
              rw [last, Option.map_some, Option.some.injEq] at current
              have captures : 0 < l.captured := by omega
              have held := (represents.holds lambda l now listed last captures).2 i (by omega)
              refine ⟨?_, represents⟩
              have pointer : (FunValue.closure lambda env).ptr em = l.ptr := by
                have some_captured : l.captured ≠ 0 := by omega
                simp [FunValue.ptr, listed, some_captured]
              simp only [Option.map_some, pointer, held, current]

end Represents

/-! ### Whole runs -/

/-- What a run of a module observes of its function values. -/
def observed (em : Emitter) (events : List RunEvent) (memory : Memory) : List Observed :=
  (runAll (Machine.step em) events (Machine.start memory)).1

/-- What it should observe. -/
def expected (em : Emitter) (events : List RunEvent) : List Observed :=
  (runAll (Meaning.step em) events Meaning.start).1

/-- A function that makes closures of one captured variable and calls them. -/
def counterModule : List Form := [.define [.lambda 1 [], .callDynamic]]

def blankMemory : Memory := fun _ => 0

/-- The outer of two nested lambdas gets number 0 and the second place in the chain, so that calling
it runs the inner one. -/
example :
    observed (Emitter.emitForms 0 [.lambda 0 [.lambda 0 []], .callDynamic] (Emitter.fresh 1 4096))
        [.create 1 [], .call 0 0 false] blankMemory =
      [.nothing, .called (some 2) true] := by decide

end LispRlm.WasmEmit
