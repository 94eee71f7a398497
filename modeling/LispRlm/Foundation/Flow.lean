import Mathlib.Data.List.Basic

/-! Structured control flow over a stack, and the runs of code whose instructions have been replaced
by longer code. -/

namespace LispRlm.Foundation

/-- Structured code over the instructions `I`; `T` types the constructs. -/
inductive Flow (I T : Type) where
  | done
  | step (i : I) (rest : Flow I T)
  | block (t : T) (body rest : Flow I T)
  | loop (t : T) (body rest : Flow I T)
  | ifThen (t : T) (yes rest : Flow I T)
  | ifElse (t : T) (yes no rest : Flow I T)

namespace Flow

/-- The operand stack, its top first, and everything else. -/
structure Config (V S : Type) where
  stack : List V
  state : S

/-- How code ends other than by reaching its end. Only `tail` needs what the code is part of. -/
inductive Exit (K V S E : Type) where
  | branch (depth : Nat) (c : Config V S)
  | return_ (c : Config V S)
  | tail (callee : K) (c : Config V S)
  | fail (e : E)
  | invalid
  | outOfFuel

variable {I I' K T V S S' E : Type}

abbrev Result (K V S E : Type) := Except (Exit K V S E) (Config V S)

/-- A machine that runs structured code: what an instruction does, how many values a construct takes
and leaves, and when a condition holds. -/
structure Machine (I K T V S E : Type) where
  exec : I → Config V S → Result K V S E
  arity : T → Option (Nat × Nat)
  truth : V → Option Bool

/-- The values on top of the stack, as a stack of their own, and the values below them. -/
def split (n : Nat) (stack : List V) : Option (List V × List V) :=
  if n ≤ stack.length then some (stack.take n, stack.drop n) else none

/-- Leaving a construct with `results` values, entered over the stack `outer`. -/
def leave (results : Nat) (outer : List V) : Result K V S E → Result K V S E
  | .ok c | .error (.branch 0 c) =>
      match split results c.stack with
      | some (top, _) => .ok { c with stack := top ++ outer }
      | none => .error .invalid
  | .error (.branch (depth + 1) c) => .error (.branch depth c)
  | .error e => .error e

/-- Going on with the `params` values on top of the stack. -/
def reenter (params : Nat) (next : Config V S → Result K V S E) (c : Config V S) :
    Result K V S E :=
  match split params c.stack with
  | some (top, _) => next { c with stack := top }
  | none => .error .invalid

/-- The body of a loop, again whenever it branches to the loop. -/
def turns (params : Nat) (body : Config V S → Result K V S E) :
    Nat → Config V S → Result K V S E
  | 0, _ => .error .outOfFuel
  | n + 1, c =>
      match body c with
      | .error (.branch 0 c') => reenter params (turns params body n) c'
      | o => o

/-- A construct is run over a stack of its own. -/
def construct (m : Machine I K T V S E) (t : T) (c : Config V S)
    (body : Nat → Config V S → Result K V S E) : Result K V S E :=
  match m.arity t with
  | none => .error .invalid
  | some (params, results) =>
      match split params c.stack with
      | none => .error .invalid
      | some (top, outer) => leave results outer (body params { c with stack := top })

/-- The condition of an `if`. -/
def test (m : Machine I K T V S E) (c : Config V S)
    (next : Bool → Config V S → Result K V S E) : Result K V S E :=
  match c.stack with
  | [] => .error .invalid
  | v :: rest =>
      match m.truth v with
      | some b => next b { c with stack := rest }
      | none => .error .invalid

/-- Running code. Each loop may be repeated `fuel` times. -/
def run (m : Machine I K T V S E) (fuel : Nat) : Flow I T → Config V S → Result K V S E
  | done, c => .ok c
  | step i rest, c => (m.exec i c).bind (run m fuel rest)
  | block t body rest, c =>
      (construct m t c fun _ c => run m fuel body c).bind (run m fuel rest)
  | loop t body rest, c =>
      (construct m t c fun params c => turns params (run m fuel body) fuel c).bind
        (run m fuel rest)
  | ifThen t yes rest, c =>
      (test m c fun b c => construct m t c fun _ c =>
        if b then run m fuel yes c else .ok c).bind (run m fuel rest)
  | ifElse t yes no rest, c =>
      (test m c fun b c => construct m t c fun _ c =>
        if b then run m fuel yes c else run m fuel no c).bind (run m fuel rest)

theorem split_zero (stack : List V) : split 0 stack = some ([], stack) :=
  if_pos (Nat.zero_le _)

theorem split_length {n : Nat} {stack top rest : List V}
    (taken : split n stack = some (top, rest)) :
    top.length = n := by
  rw [split] at taken
  split at taken
  · rename_i enough
    rcases Prod.mk.inj (Option.some.inj taken) with ⟨same, _⟩
    rw [← same, List.length_take, Nat.min_eq_left enough]
  · cases taken

theorem split_all (stack : List V) : split stack.length stack = some (stack, []) := by
  rw [split, if_pos (Nat.le_refl _), List.take_length, List.drop_length]

/-- A branch that takes nothing and leaves nothing. -/
theorem run_ifElse_plain {m : Machine I K T V S E} {t : T} (arity : m.arity t = some (0, 0))
    {v : V} {b : Bool} (truth : m.truth v = some b) (fuel : Nat) (yes no rest : Flow I T)
    (stack : List V) (s : S) :
    run m fuel (ifElse t yes no rest) ⟨v :: stack, s⟩ =
      (leave 0 stack (run m fuel (if b then yes else no) ⟨[], s⟩)).bind (run m fuel rest) := by
  rw [run, test]
  dsimp only
  rw [truth]
  dsimp only
  rw [construct, arity]
  dsimp only
  rw [split_zero]
  cases b with
  | false => rfl
  | true => rfl

/-! ### Replaced instructions -/

/-- Every instruction replaced by code that stands before the rest. -/
def expand (f : I → Flow I' T → Flow I' T) : Flow I T → Flow I' T
  | done => done
  | step i rest => f i (expand f rest)
  | block t body rest => block t (expand f body) (expand f rest)
  | loop t body rest => loop t (expand f body) (expand f rest)
  | ifThen t yes rest => ifThen t (expand f yes) (expand f rest)
  | ifElse t yes no rest => ifElse t (expand f yes) (expand f no) (expand f rest)

/-- What holds of every instruction. -/
def All (pred : I → Prop) : Flow I T → Prop
  | done => True
  | step i rest => pred i ∧ All pred rest
  | block _ body rest | loop _ body rest => All pred body ∧ All pred rest
  | ifThen _ yes rest => All pred yes ∧ All pred rest
  | ifElse _ yes no rest => All pred yes ∧ All pred no ∧ All pred rest

theorem All.of_forall {pred : I → Prop} (each : ∀ i, pred i) (code : Flow I T) : code.All pred := by
  induction code with
  | done => exact trivial
  | step i rest ih => exact ⟨each i, ih⟩
  | block _ _ _ ihBody ihRest | loop _ _ _ ihBody ihRest | ifThen _ _ _ ihBody ihRest =>
      exact ⟨ihBody, ihRest⟩
  | ifElse _ _ _ _ ihYes ihNo ihRest => exact ⟨ihYes, ihNo, ihRest⟩

/-- The second result is the first one's, over related states; `out` relates states that the code
is left in for good. Nothing is said where the first fails for a reason that is let go. -/
inductive Follows (rel out : S → S' → Prop) (letGo : E → Prop) :
    Result K V S E → Result K V S' E → Prop
  | ok {stack : List V} {s : S} {s' : S'} : rel s s' →
      Follows rel out letGo (.ok ⟨stack, s⟩) (.ok ⟨stack, s'⟩)
  | branch (depth : Nat) {stack : List V} {s : S} {s' : S'} : rel s s' →
      Follows rel out letGo (.error (.branch depth ⟨stack, s⟩)) (.error (.branch depth ⟨stack, s'⟩))
  | return_ {stack : List V} {s : S} {s' : S'} : out s s' →
      Follows rel out letGo (.error (.return_ ⟨stack, s⟩)) (.error (.return_ ⟨stack, s'⟩))
  | tail (callee : K) {stack : List V} {s : S} {s' : S'} : out s s' →
      Follows rel out letGo (.error (.tail callee ⟨stack, s⟩))
        (.error (.tail callee ⟨stack, s'⟩))
  | fail (e : E) : Follows rel out letGo (.error (.fail e)) (.error (.fail e))
  | letGo {e : E} (r : Result K V S' E) : letGo e → Follows rel out letGo (.error (.fail e)) r
  | invalid (r : Result K V S' E) : Follows rel out letGo (.error .invalid) r
  | outOfFuel : Follows rel out letGo (.error .outOfFuel) (.error .outOfFuel)

variable {rel out : S → S' → Prop} {letGo : E → Prop}

/-- Results after which nothing is said. -/
def Silent (letGo : E → Prop) : Result K V S E → Prop
  | .error (.fail e) => letGo e
  | .error .invalid => True
  | _ => False

theorem Silent.follows {x : Result K V S E} (silent : Silent letGo x)
    (f : Config V S → Result K V S E) (r : Result K V S' E) :
    Follows rel out letGo (x.bind f) r := by
  cases x with
  | ok c => exact silent.elim
  | error e =>
      cases e with
      | branch | return_ | tail | outOfFuel => exact silent.elim
      | fail e => exact .letGo r silent
      | invalid => exact .invalid r

theorem Follows.bind {x : Result K V S E} {y : Result K V S' E}
    {f : Config V S → Result K V S E} {g : Config V S' → Result K V S' E}
    (first : Follows rel out letGo x y)
    (later : ∀ stack s s', rel s s' → Follows rel out letGo (f ⟨stack, s⟩) (g ⟨stack, s'⟩)) :
    Follows rel out letGo (x.bind f) (y.bind g) := by
  cases first with
  | ok related => exact later _ _ _ related
  | branch depth related => exact .branch depth related
  | return_ related => exact .return_ related
  | tail callee related => exact .tail callee related
  | fail e => exact .fail e
  | letGo r known => exact .letGo _ known
  | invalid r => exact .invalid _
  | outOfFuel => exact .outOfFuel

theorem Follows.leave {x : Result K V S E} {y : Result K V S' E}
    (same : Follows rel out letGo x y) (results : Nat) (outer : List V) :
    Follows rel out letGo (leave results outer x) (leave results outer y) := by
  have closed {stack : List V} {s : S} {s' : S'} (related : rel s s') :
      Follows (K := K) rel out letGo (Flow.leave results outer (.ok ⟨stack, s⟩))
        (Flow.leave results outer (.ok ⟨stack, s'⟩)) := by
    rw [Flow.leave, Flow.leave]
    dsimp only
    cases split results stack with
    | none => exact .invalid _
    | some parts => exact .ok related
  cases same with
  | ok related => exact closed related
  | branch depth related =>
      cases depth with
      | zero => exact closed related
      | succ depth => exact .branch depth related
  | return_ related => exact .return_ related
  | tail callee related => exact .tail callee related
  | fail e => exact .fail e
  | letGo r known => exact .letGo _ known
  | invalid r => exact .invalid _
  | outOfFuel => exact .outOfFuel

theorem Follows.reenter {next : Config V S → Result K V S E}
    {next' : Config V S' → Result K V S' E}
    (same : ∀ stack s s', rel s s' → Follows rel out letGo (next ⟨stack, s⟩) (next' ⟨stack, s'⟩))
    (params : Nat) {stack : List V} {s : S} {s' : S'} (related : rel s s') :
    Follows rel out letGo (reenter params next ⟨stack, s⟩) (reenter params next' ⟨stack, s'⟩) := by
  rw [Flow.reenter, Flow.reenter]
  dsimp only
  cases split params stack with
  | none => exact .invalid _
  | some parts => exact same _ _ _ related

theorem Follows.turns {body : Config V S → Result K V S E}
    {body' : Config V S' → Result K V S' E}
    (same : ∀ stack s s', rel s s' → Follows rel out letGo (body ⟨stack, s⟩) (body' ⟨stack, s'⟩))
    (params n : Nat) {stack : List V} {s : S} {s' : S'} (related : rel s s') :
    Follows rel out letGo (turns params body n ⟨stack, s⟩) (turns params body' n ⟨stack, s'⟩) := by
  induction n generalizing stack s s' with
  | zero => exact .outOfFuel
  | succ n ih =>
      have turn := same stack s s' related
      rw [Flow.turns, Flow.turns]
      generalize body ⟨stack, s⟩ = o at turn
      generalize body' ⟨stack, s'⟩ = o' at turn
      cases turn with
      | ok related => exact .ok related
      | branch depth related =>
          cases depth with
          | zero => exact Follows.reenter (fun _ _ _ related => ih related) params related
          | succ depth => exact .branch (depth + 1) related
      | return_ related => exact .return_ related
      | tail callee related => exact .tail callee related
      | fail e => exact .fail e
      | letGo r known => exact .letGo _ known
      | invalid r => exact .invalid _
      | outOfFuel => exact .outOfFuel

section Expanding

variable {m : Machine I K T V S E} {m' : Machine I' K T V S' E}

theorem Follows.construct (arities : ∀ t a, m.arity t = some a → m'.arity t = some a)
    {body : Nat → Config V S → Result K V S E} {body' : Nat → Config V S' → Result K V S' E}
    (same : ∀ params stack s s', rel s s' →
      Follows rel out letGo (body params ⟨stack, s⟩) (body' params ⟨stack, s'⟩))
    (t : T) {stack : List V} {s : S} {s' : S'} (related : rel s s') :
    Follows rel out letGo (construct m t ⟨stack, s⟩ body) (construct m' t ⟨stack, s'⟩ body') := by
  rw [Flow.construct, Flow.construct]
  cases known : m.arity t with
  | none => exact .invalid _
  | some a =>
      rw [arities t a known]
      dsimp only
      split
      · exact .invalid _
      · exact (same _ _ _ _ related).leave _ _

theorem Follows.test (truths : ∀ v b, m.truth v = some b → m'.truth v = some b)
    {next : Bool → Config V S → Result K V S E} {next' : Bool → Config V S' → Result K V S' E}
    (same : ∀ b stack s s', rel s s' →
      Follows rel out letGo (next b ⟨stack, s⟩) (next' b ⟨stack, s'⟩))
    {stack : List V} {s : S} {s' : S'} (related : rel s s') :
    Follows rel out letGo (test m ⟨stack, s⟩ next) (test m' ⟨stack, s'⟩ next') := by
  cases stack with
  | nil => exact .invalid _
  | cons v rest =>
      rw [Flow.test, Flow.test]
      dsimp only
      cases known : m.truth v with
      | none => exact .invalid _
      | some b =>
          rw [truths v b known]
          exact same b _ _ _ related

/-- If the code that replaces an instruction does what the instruction does, where anything is said
about it, the code that is made from other code follows it. -/
theorem run_expand {f : I → Flow I' T → Flow I' T} {fuel : Nat} {pred : I → Prop}
    (arities : ∀ t a, m.arity t = some a → m'.arity t = some a)
    (truths : ∀ v b, m.truth v = some b → m'.truth v = some b)
    (each : ∀ i stack s s', pred i → rel s s' → Silent letGo (m.exec i ⟨stack, s⟩) ∨
      ∃ r, Follows rel out letGo (m.exec i ⟨stack, s⟩) r ∧
        ∀ rest, run m' fuel (f i rest) ⟨stack, s'⟩ = r.bind (run m' fuel rest))
    {code : Flow I T} (all : code.All pred) {stack : List V} {s : S} {s' : S'}
    (related : rel s s') : Follows rel out letGo (run m fuel code ⟨stack, s⟩)
      (run m' fuel (expand f code) ⟨stack, s'⟩) := by
  induction code generalizing stack s s' with
  | done => exact .ok related
  | step i rest ih =>
      rcases each i stack s s' all.1 related with silent | ⟨r, follows, runs⟩
      · rw [run]
        exact silent.follows _ _
      · rw [run, expand, runs]
        exact follows.bind fun _ _ _ related => ih all.2 related
  | block t body rest ihBody ihRest =>
      rw [run, expand, run]
      exact (Follows.construct arities (fun _ _ _ _ related => ihBody all.1 related) t related).bind
        fun _ _ _ related => ihRest all.2 related
  | loop t body rest ihBody ihRest =>
      rw [run, expand, run]
      exact (Follows.construct arities (fun params _ _ _ related =>
        Follows.turns (fun _ _ _ related => ihBody all.1 related) params fuel related) t
          related).bind fun _ _ _ related => ihRest all.2 related
  | ifThen t yes rest ihYes ihRest =>
      rw [run, expand, run]
      refine (Follows.test truths (fun b _ _ _ related =>
        Follows.construct arities (fun _ stack s s' related => ?_) t related) related).bind
        fun _ _ _ related => ihRest all.2 related
      cases b with
      | true => exact ihYes all.1 related
      | false => exact .ok related
  | ifElse t yes no rest ihYes ihNo ihRest =>
      rw [run, expand, run]
      refine (Follows.test truths (fun b _ _ _ related =>
        Follows.construct arities (fun _ stack s s' related => ?_) t related) related).bind
        fun _ _ _ related => ihRest all.2.2 related
      cases b with
      | true => exact ihYes all.1 related
      | false => exact ihNo all.2.1 related

end Expanding

end Flow

end LispRlm.Foundation
