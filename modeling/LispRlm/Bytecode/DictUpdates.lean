import LispRlm.Foundation.TwoRuns
import LispRlm.Bytecode.Values

/-! `dict/set` on a variable of the innermost loop, which updates the variable's map in place. -/

namespace LispRlm.Bytecode

open Foundation Foundation.Eff

/-- The forms of a lambda's body, with its variables as slots. A `let` is one `bind` after another,
and `P` are the builtins, the calls and the closures. -/
inductive Form (P : Type)
  | lit (v : LispVal)
  | var (slot : Nat)
  | setBang (slot : Nat) (e : Form P)
  | bind (slot : Nat) (init body : Form P)
  | begin (first rest : Form P)
  | ite (test then_ else_ : Form P)
  | and (first rest : Form P)
  | or (first rest : Form P)
  | while (test body : Form P)
  | loop (varSlots : List Nat) (inits : List (Nat × Form P)) (body : Form P)
  | recur (args : List (Form P))
  | dictSet (map key val : Form P)
  | call (p : P) (args : List (Form P))

/-- What a run does to a variable. An update of a map in a variable keeps what the variable was read
as, what it holds when the map is updated, and the updated map. -/
inductive Access
  | read (slot : Nat)
  | bind (slot : Nat)
  | dictSet (slot : Nat) (old now new : LispVal)
  | refused (slot : Nat)

/-- The last access is the head of `trace`, which no form reads. -/
structure Locals (W : Type) where
  slots : Nat → LispVal
  world : W
  trace : List Access

inductive Exit
  | error (message : String)
  | recur
  | outOfFuel

section Evaluation

variable {P W : Type} (apply : P → List LispVal → W → Except String LispVal × W)
  (update : List (String × LispVal) → String → LispVal → List (String × LispVal))

def readSlot (slot : Nat) : Eff (Locals W) Exit LispVal := fun s =>
  .ok (s.slots slot) { s with trace := .read slot :: s.trace }

def storeSlot (slot : Nat) (v : LispVal) : Eff (Locals W) Exit PUnit :=
  modify fun s =>
    { s with slots := Function.update s.slots slot v, trace := .bind slot :: s.trace }

def invoke (p : P) (args : List LispVal) : Eff (Locals W) Exit LispVal := fun s =>
  match apply p args s.world with
  | (.ok v, w) => .ok v { s with world := w }
  | (.error message, w) => .error (.error message) { s with world := w }

/-- `Op::DictSet` -/
def opDictSet (map key val : LispVal) : Except String LispVal :=
  match map, key with
  | .map m, .str k => .ok (.map (update m k val))
  | _, _ => .error "dict/set: need (map key value)"

/-- `Op::DictMutSet` -/
def opDictMutSet (slot : Nat) (key val : LispVal) : Eff (Locals W) Exit LispVal := fun s =>
  match s.slots slot, key with
  | .map m, .str k =>
      let new := .map (update m k val)
      .ok new { s with slots := Function.update s.slots slot new }
  | .map _, _ => .error (.error "dict-mut-set: key must be string") s
  | _, _ => .error (.error "dict-mut-set: slot is not a map") s

/-- `Op::DictSet` on what variable `slot` was read as. -/
def opDictSetOf (slot : Nat) (old key val : LispVal) : Eff (Locals W) Exit LispVal := fun s =>
  match opDictSet update old key val with
  | .ok new => .ok new { s with trace := .dictSet slot old (s.slots slot) new :: s.trace }
  | .error message => .error (.error message) { s with trace := .refused slot :: s.trace }

/-- The variable of the innermost loop that a `dict/set` is given, if any. -/
def dictMutSlot (varSlots : List Nat) : Form P → Option Nat
  | .var slot => if slot ∈ varSlots then some slot else none
  | _ => none

def isRecur : Exit → Bool
  | .recur => true
  | _ => false

/-- Runs a form inside a loop over `varSlots`, with `DictMutSet` where the compiler chooses it if
`inPlace`, and otherwise with `DictSet` everywhere. -/
def eval (inPlace : Bool) : Nat → List Nat → Form P → Eff (Locals W) Exit LispVal
  | 0, _, _ => throw .outOfFuel
  | fuel + 1, varSlots, form =>
      match form with
      | .lit v => pure v
      | .var slot => readSlot slot
      | .setBang slot e => do
          storeSlot slot (← eval inPlace fuel varSlots e)
          readSlot slot
      | .bind slot init body => do
          storeSlot slot (← eval inPlace fuel varSlots init)
          eval inPlace fuel varSlots body
      | .begin first rest => do
          let _ ← eval inPlace fuel varSlots first
          eval inPlace fuel varSlots rest
      | .ite test then_ else_ => do
          let t ← eval inPlace fuel varSlots test
          if t.isTruthy then eval inPlace fuel varSlots then_
          else eval inPlace fuel varSlots else_
      | .and first rest => do
          let v ← eval inPlace fuel varSlots first
          if v.isTruthy then eval inPlace fuel varSlots rest else pure v
      | .or first rest => do
          let v ← eval inPlace fuel varSlots first
          if v.isTruthy then pure v else eval inPlace fuel varSlots rest
      | .while test body => do
          let t ← eval inPlace fuel varSlots test
          if t.isTruthy then
            let _ ← eval inPlace fuel varSlots body
            eval inPlace fuel varSlots (.while test body)
          else pure .nil
      | .loop slots inits body => do
          inits.forM fun (slot, init) => do storeSlot slot (← eval inPlace fuel varSlots init)
          match ← attempt isRecur (eval inPlace fuel slots body) with
          | .ok v => pure v
          | .error _ => eval inPlace fuel varSlots (.loop slots [] body)
      | .recur args => do
          let vals ← args.mapM (eval inPlace fuel varSlots)
          (varSlots.zip vals).reverse.forM fun (slot, v) => storeSlot slot v
          throw .recur
      | .dictSet map key val =>
          match dictMutSlot varSlots map with
          | some slot =>
              if inPlace then do
                let k ← eval inPlace fuel varSlots key
                let v ← eval inPlace fuel varSlots val
                opDictMutSet update slot k v
              else do
                let old ← readSlot slot
                let k ← eval inPlace fuel varSlots key
                let v ← eval inPlace fuel varSlots val
                opDictSetOf update slot old k v
          | none => do
              let m ← eval inPlace fuel varSlots map
              let k ← eval inPlace fuel varSlots key
              let v ← eval inPlace fuel varSlots val
              match opDictSet update m k v with
              | .ok new => pure new
              | .error message => throw (.error message)
      | .call p args => do
          let vals ← args.mapM (eval inPlace fuel varSlots)
          invoke apply p vals

/-! ### Runs that no update in place disturbs -/

/-- The variable holds another value than without updates in place: an update has changed it, and
nothing has been stored in it since. -/
def Changed (slot : Nat) : List Access → Prop
  | [] => False
  | .read _ :: before => Changed slot before
  | .bind s :: before => s ≠ slot ∧ Changed slot before
  | .dictSet s old _ new :: before => s = slot ∧ new ≠ old ∨ Changed slot before
  | .refused _ :: before => Changed slot before

/-- No changed variable is read before something is stored in it, and every update is of a map, by a
string, in a variable that the key and the value have left as it was read. -/
def Undisturbed : List Access → Prop
  | [] => True
  | .read slot :: before => ¬ Changed slot before ∧ Undisturbed before
  | .bind _ :: before => Undisturbed before
  | .dictSet slot old now _ :: before =>
      (now = old ∧ ¬ Changed slot before) ∧ Undisturbed before
  | .refused _ :: _ => False

theorem Undisturbed.before {later before : List Access} (h : Undisturbed (later ++ before)) :
    Undisturbed before := by
  induction later with
  | nil => exact h
  | cons access later ih =>
      cases access with
      | read slot => exact ih h.2
      | bind slot => exact ih h
      | dictSet slot old now new => exact ih h.2
      | refused slot => exact h.elim

/-- Two states between which only updates in place differ. -/
structure Locals.Alike (s t : Locals W) : Prop where
  world : t.world = s.world
  slots : ∀ slot, ¬ Changed slot s.trace → t.slots slot = s.slots slot

/-- A run with `DictSet` is observed, until it is disturbed. -/
def undisturbed : Observer (Locals W) where
  related := Locals.Alike
  related_refl := fun _ => ⟨rfl, fun _ _ => rfl⟩
  bad := fun s => ¬ Undisturbed s.trace
  grows := fun s s' => ∃ later, s'.trace = later ++ s.trace
  grows_refl := fun _ => ⟨[], rfl⟩
  grows_trans := by
    rintro a b c ⟨first, hb⟩ ⟨second, hc⟩
    exact ⟨second ++ first, by rw [hc, hb, List.append_assoc]⟩
  bad_grows := by
    rintro s s' ⟨later, h⟩ bad calm
    rw [h] at calm
    exact bad calm.before

theorem readSlot_matches (slot : Nat) :
    Matches undisturbed Eq (readSlot slot : Eff (Locals W) Exit LispVal) (readSlot slot) where
  keeps := fun s => ⟨[.read slot], rfl⟩
  ends := by
    intro s t alike
    by_cases changed : Changed slot s.trace
    · exact .inl fun calm => calm.1 changed
    · exact .inr (.ok (alike.slots slot changed).symm ⟨alike.world, alike.slots⟩)

theorem storeSlot_matches (slot : Nat) (v : LispVal) :
    Matches undisturbed Eq (storeSlot slot v : Eff (Locals W) Exit PUnit) (storeSlot slot v) where
  keeps := fun s => ⟨[.bind slot], rfl⟩
  ends := by
    intro s t alike
    refine .inr (.ok rfl ⟨alike.world, fun other calm => ?_⟩)
    by_cases same : other = slot
    · subst same
      have stored : ∀ f : Nat → LispVal, Function.update f other v other = v :=
        fun f => Function.update_self ..
      exact (stored t.slots).trans (stored s.slots).symm
    · have unchanged : ¬ Changed other s.trace := fun changed => calm ⟨Ne.symm same, changed⟩
      have kept : ∀ f : Nat → LispVal, Function.update f slot v other = f other :=
        fun f => Function.update_of_ne same ..
      exact (kept t.slots).trans ((alike.slots other unchanged).trans (kept s.slots).symm)

theorem invoke_matches (p : P) (args : List LispVal) :
    Matches undisturbed Eq (invoke apply p args : Eff (Locals W) Exit LispVal)
      (invoke apply p args) where
  keeps := by
    intro s
    unfold invoke
    rcases apply p args s.world with ⟨_ | _, w⟩
    · exact ⟨[], rfl⟩
    · exact ⟨[], rfl⟩
  ends := by
    intro s t alike
    unfold invoke
    rw [alike.world]
    rcases apply p args s.world with ⟨_ | _, w⟩
    · exact .inr (.error ⟨rfl, alike.slots⟩)
    · exact .inr (.ok rfl ⟨rfl, alike.slots⟩)

theorem opDictSet_ok {map key val new : LispVal} (ok : opDictSet update map key val = .ok new) :
    ∃ m k, map = .map m ∧ key = .str k ∧ new = .map (update m k val) := by
  unfold opDictSet at ok
  split at ok
  · exact ⟨_, _, rfl, rfl, (Except.ok.inj ok).symm⟩
  · cases ok

/-- An update in place gives what `DictSet` gives on what the variable was read as. -/
theorem opDictSetOf_matches (slot : Nat) (old key val : LispVal) :
    Matches undisturbed Eq (opDictSetOf update slot old key val : Eff (Locals W) Exit LispVal)
      (opDictMutSet update slot key val) where
  keeps := by
    intro s
    unfold opDictSetOf
    cases opDictSet update old key val with
    | ok new => exact ⟨[.dictSet slot old (s.slots slot) new], rfl⟩
    | error message => exact ⟨[.refused slot], rfl⟩
  ends := by
    intro s t alike
    unfold opDictSetOf
    cases result : opDictSet update old key val with
    | error message => exact .inl id
    | ok new =>
        by_cases calm : s.slots slot = old ∧ ¬ Changed slot s.trace
        · obtain ⟨m, k, rfl, rfl, rfl⟩ := opDictSet_ok update result
          have holds : t.slots slot = .map m := (alike.slots slot calm.2).trans calm.1
          right
          unfold opDictMutSet
          rw [holds]
          refine .ok rfl ⟨alike.world, fun other unchanged => ?_⟩
          by_cases same : other = slot
          · subst same
            have noChange : LispVal.map (update m k val) = .map m := by
              by_contra differs
              exact unchanged (.inl ⟨rfl, differs⟩)
            exact (Function.update_self ..).trans (noChange.trans calm.1.symm)
          · have before : ¬ Changed other s.trace := fun changed => unchanged (.inr changed)
            exact (Function.update_of_ne same ..).trans (alike.slots other before)
        · exact .inl fun undisturbed => calm undisturbed.1

/-- Only the run with `DictSet` reads the variable before the key and the value are evaluated. -/
theorem readSlot_bind_matches (slot : Nat) {k : LispVal → Eff (Locals W) Exit LispVal}
    {l : Eff (Locals W) Exit LispVal} (rest : ∀ old, Matches undisturbed Eq (k old) l) :
    Matches undisturbed Eq (readSlot slot >>= k) l where
  keeps := by
    refine .bind undisturbed.grows_trans (readSlot_matches slot).keeps fun old => (rest old).keeps
  ends := fun s t alike => (rest (s.slots slot)).ends { s with trace := .read slot :: s.trace } t
    ⟨alike.world, alike.slots⟩

theorem eval_matches (fuel : Nat) (varSlots : List Nat) (form : Form P) :
    Matches undisturbed Eq (eval apply update false fuel varSlots form)
      (eval apply update true fuel varSlots form) := by
  induction fuel generalizing varSlots form with
  | zero => exact .of_throw _
  | succ fuel ih =>
      unfold eval
      cases form with
      | lit v => exact .of_pure rfl
      | var slot => exact readSlot_matches slot
      | setBang slot e =>
          refine .bind_eq (ih varSlots e) fun v => ?_
          exact .bind_eq (storeSlot_matches slot v) fun _ => readSlot_matches slot
      | bind slot init body =>
          refine .bind_eq (ih varSlots init) fun v => ?_
          exact .bind_eq (storeSlot_matches slot v) fun _ => ih varSlots body
      | begin first rest => exact .bind_eq (ih varSlots first) fun _ => ih varSlots rest
      | ite test then_ else_ =>
          refine .bind_eq (ih varSlots test) fun t => ?_
          exact .ite (fun _ => ih varSlots then_) fun _ => ih varSlots else_
      | and first rest =>
          refine .bind_eq (ih varSlots first) fun v => ?_
          exact .ite (fun _ => ih varSlots rest) fun _ => .of_pure rfl
      | or first rest =>
          refine .bind_eq (ih varSlots first) fun v => ?_
          exact .ite (fun _ => .of_pure rfl) fun _ => ih varSlots rest
      | «while» test body =>
          refine .bind_eq (ih varSlots test) fun t => ?_
          refine .ite (fun _ => ?_) fun _ => .of_pure rfl
          exact .bind_eq (ih varSlots body) fun _ => ih varSlots (.while test body)
      | loop slots inits body =>
          refine .bind_eq (.forM inits fun init _ => ?_) fun _ => ?_
          · exact .bind_eq (ih varSlots init.2) fun v => storeSlot_matches init.1 v
          · refine .bind_eq (.attempt (ih slots body)) fun turn => ?_
            cases turn with
            | ok v => exact .of_pure rfl
            | error _ => exact ih varSlots (.loop slots [] body)
      | recur args =>
          refine .bind_eq (.mapM args fun arg _ => ih varSlots arg) fun vals => ?_
          refine .bind_eq (.forM _ fun p _ => storeSlot_matches p.1 p.2) fun _ => ?_
          exact .of_throw _
      | dictSet map key val =>
          dsimp only
          cases dictMutSlot varSlots map with
          | some slot =>
              refine readSlot_bind_matches slot fun old => ?_
              refine .bind_eq (ih varSlots key) fun k => .bind_eq (ih varSlots val) fun v => ?_
              exact opDictSetOf_matches update slot old k v
          | none =>
              refine .bind_eq (ih varSlots map) fun m => .bind_eq (ih varSlots key) fun k => ?_
              refine .bind_eq (ih varSlots val) fun v => ?_
              cases opDictSet update m k v with
              | ok new => exact .of_pure rfl
              | error message => exact .of_throw _
      | call p args =>
          refine .bind_eq (.mapM args fun arg _ => ih varSlots arg) fun vals => ?_
          exact invoke_matches apply p vals

/-- `DictMutSet` leaves the variables as they are exactly if the map already has the entry. -/
theorem opDictMutSet_unchanged_iff (slot : Nat) (key val : LispVal) (s : Locals W) :
    (∃ new, opDictSet update (s.slots slot) key val = .ok new ∧
        opDictMutSet update slot key val s = .ok new s) ↔
      ∃ m k, s.slots slot = .map m ∧ key = .str k ∧ update m k val = m := by
  constructor
  · rintro ⟨new, result, runs⟩
    obtain ⟨m, k, holds, rfl, rfl⟩ := opDictSet_ok update result
    refine ⟨m, k, holds, rfl, ?_⟩
    unfold opDictMutSet at runs
    rw [holds] at runs
    have state := congrArg (fun r => (endState r).slots slot) runs
    have same : LispVal.map (update m k val) = .map m :=
      (Function.update_self ..).symm.trans (state.trans holds)
    exact LispVal.map.inj same
  · rintro ⟨m, k, holds, rfl, same⟩
    refine ⟨.map m, ?_, ?_⟩
    · rw [holds, opDictSet, same]
    · unfold opDictMutSet
      rw [holds]
      have kept : Function.update s.slots slot (.map m) = s.slots := by
        rw [← holds]
        exact Function.update_eq_self slot s.slots
      simp only [same, kept]

end Evaluation

def noBuiltins (p : Empty) : List LispVal → Unit → Except String LispVal × Unit := p.elim

/-- A map that lists its newest entry first. -/
def putFirst (m : List (String × LispVal)) (k : String) (v : LispVal) : List (String × LispVal) :=
  (k, v) :: m.filter (·.1 ≠ k)

def noLocals : Locals Unit := ⟨fun _ => .nil, (), []⟩

/-- `(loop ((m (dict)) (more true)) (if more (recur (dict/set m "k" 1) false) m))` -/
def rebinding : Form Empty :=
  .loop [0, 1] [(0, .lit (.map [])), (1, .lit (.bool true))]
    (.ite (.var 1)
      (.recur [.dictSet (.var 0) (.lit (.str "k")) (.lit (.num 1)), .lit (.bool false)])
      (.var 0))

/-- `(loop ((m (dict))) (begin (dict/set m "k" 1) m))` -/
def updating : Form Empty :=
  .loop [0] [(0, .lit (.map []))]
    (.begin (.dictSet (.var 0) (.lit (.str "k")) (.lit (.num 1))) (.var 0))

end LispRlm.Bytecode
