import LispRlm.Foundation.Liveness

/-! Operators whose operands are computed by other operators: with one set of locals for all of
them, and with scratch locals of each one's own. -/

namespace LispRlm.Foundation

variable {ι P T W M : Type} [DecidableEq ι] [DecidableEq T]

/-- An operator: its code, with holes for its operands, and the locals that it uses as scratch. -/
structure Operator (machine : StackMachine ι P T W M) where
  arity : Nat
  code : Code ι P (Fin arity) T
  scratch : List ι
  valid : validates machine [] code [machine.word] = true

inductive Expr (machine : StackMachine ι P T W M) where
  | node (op : Operator machine) (operands : Fin op.arity → Expr machine)

/-- The answer, with these locals as they were in a store. -/
def Answer.restore (xs : List ι) (entry : Store ι W M) : Answer ι W M → Answer ι W M
  | .value w s =>
      .value w { s with locals := fun x => if x ∈ xs then entry.locals x else s.locals x }
  | .trap => .trap
  | .stuck => .stuck
  | .outOfFuel => .outOfFuel

theorem Answer.NotStuck.restore {xs : List ι} {entry : Store ι W M} {a : Answer ι W M}
    (free : a.NotStuck) : (a.restore xs entry).NotStuck := by
  cases a with
  | value w s => trivial
  | trap => trivial
  | stuck => exact free
  | outOfFuel => trivial

/-- Locals that are not live may be restored on one side. -/
theorem Answer.Same.restore {xs after : List ι} {entry : Store ι W M} {a b : Answer ι W M}
    (same : Answer.Same after a b) (apart : ∀ x ∈ xs, x ∉ after) :
    Answer.Same after a (b.restore xs entry) := by
  match a, b, same with
  | .value v s, .value _ t, ⟨rfl, stores⟩ =>
      refine ⟨rfl, stores.memory, ?_⟩
      intro x mem
      have outside : x ∉ xs := fun inside => apart x inside mem
      simp only [if_neg outside]
      exact stores.locals x mem
  | .trap, .trap, _ => trivial
  | .stuck, .stuck, _ => trivial
  | .outOfFuel, .outOfFuel, _ => trivial

namespace Expr

variable {machine : StackMachine ι P T W M}

/-- Straight code: every operand's code in its place. -/
def emit : Expr machine → Code ι P Empty T
  | node op operands => op.code.splice fun i => (operands i).emit

/-- The answer of the emitted code. -/
def compiled (fuel : Nat) (e : Expr machine) (s : Store ι W M) : Answer ι W M :=
  (run machine (fun (h : Empty) _ => h.elim) fuel e.emit ⟨[], s⟩).answer

/-- All operators use the same scratch locals. -/
def shared (fuel : Nat) : Expr machine → Store ι W M → Answer ι W M
  | node op operands, s =>
      (run machine (fun i => (operands i).shared fuel) fuel op.code ⟨[], s⟩).answer

/-- Inside out: every use of an operator has scratch locals of its own, which are gone when it has
computed its value. -/
def insideOut (fuel : Nat) : Expr machine → Store ι W M → Answer ι W M
  | node op operands, s =>
      (run machine (fun i => (operands i).insideOut fuel) fuel op.code ⟨[], s⟩).answer.restore
        op.scratch s

/-- The locals that the expression may read before it has written them. -/
def needs : Expr machine → List ι
  | node op operands => live (fun i => (operands i).needs) [] op.code []

/-- No operand is evaluated where one of its operators' scratch locals holds what an enclosing
operator reads later; `after` are the locals read after the expression. -/
def tidy : Expr machine → List ι → Bool
  | node op operands, after =>
      op.scratch.all (fun x => decide (x ∉ after)) &&
        fits (fun i => (operands i).needs) (fun i => (operands i).tidy) [] op.code after

theorem shared_run (fuel : Nat) (e : Expr machine) :
    (∀ s, (e.shared fuel s).NotStuck) ∧
      ∀ s, run machine (fun (h : Empty) _ => h.elim) fuel e.emit ⟨[], s⟩ =
        (e.shared fuel s).push [] := by
  induction e with
  | node op operands ih =>
      have free := fun i => (ih i).1
      have leaves := fun i => (ih i).2
      constructor
      · intro s
        exact (validates_answers free fuel op.valid s).1
      · intro s
        rw [emit, run_splice free leaves]
        exact (validates_answers free fuel op.valid s).2

theorem compiled_eq_shared (fuel : Nat) (e : Expr machine) (s : Store ι W M) :
    e.compiled fuel s = e.shared fuel s := by
  obtain ⟨free, leaves⟩ := shared_run fuel e
  have alive := free s
  rw [compiled, leaves]
  revert alive
  cases e.shared fuel s with
  | value w t => exact fun _ => rfl
  | trap => exact fun _ => rfl
  | stuck => exact fun alive => alive.elim
  | outOfFuel => exact fun _ => rfl

/-- In tidy expressions, shared scratch locals make no difference to what is live. -/
theorem shared_same (fuel : Nat) {e : Expr machine} {after : List ι}
    (tidied : e.tidy after = true) {s t : Store ι W M} (same : SameOn (e.needs ++ after) s t) :
    Answer.Same after (e.shared fuel s) (e.insideOut fuel t) := by
  induction e generalizing after s t with
  | node op operands ih =>
      obtain ⟨apart, fitting⟩ := (Bool.and_eq_true _ _).mp tidied
      have start : SameOn (live (fun i => (operands i).needs) [] op.code after) s t := by
        apply same.mono
        intro x mem
        rcases mem_live_after x mem with mem | mem
        · exact List.mem_append_left _ mem
        · exact List.mem_append_right _ mem
      have ran := run_same machine (fun i after fitting _ _ same => ih i fitting same) fuel
        fitting [] start
      have answered : Answer.Same after (shared fuel (node op operands) s)
          (run machine (fun i => (operands i).insideOut fuel) fuel op.code ⟨[], t⟩).answer :=
        ran.answer
      apply answered.restore
      intro x inside
      simpa using List.all_eq_true.mp apart x inside

end Expr

end LispRlm.Foundation
