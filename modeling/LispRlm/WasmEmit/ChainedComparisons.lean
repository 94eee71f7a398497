import LispRlm.WasmEmit.OperatorsAgree

/-! Comparisons of more than two operands, by the bytecode machine and in emitted code. -/

namespace LispRlm.WasmEmit

/-- The comparisons that the operator table declares for two operands and more. -/
inductive Comparison
  | eq | lt | le | gt | ge
  deriving DecidableEq

namespace Comparison

def op : Comparison → IntOp
  | .eq => .eq
  | .lt => .lt
  | .le => .le
  | .gt => .gt
  | .ge => .ge

def holds : Comparison → Int → Int → Bool
  | .eq, x, y => x == y
  | .lt, x, y => decide (x < y)
  | .le, x, y => decide (x ≤ y)
  | .gt, x, y => decide (y < x)
  | .ge, x, y => decide (y ≤ x)

/-- Every operand compares with the one after it. -/
def chained (c : Comparison) : List Int → Bool
  | x :: y :: more => c.holds x y && chained c (y :: more)
  | _ => true

/-- Both evaluators come to the chained comparison. -/
structure MeansChained (σ : Surroundings) (c : Comparison) (operands : List Payload) : Prop where
  machine : Vm.eval c.op (nums operands) = .ok (.bool (c.chained (nums operands)))
  emitted : σ.Emits c.op operands (some (Literal.bool (c.chained (nums operands))).word)

theorem eval_pair (c : Comparison) (x y : Int) :
    Vm.eval c.op [x, y] = .ok (.bool (c.holds x y)) := by
  cases c with
  | eq | lt | le | gt | ge => rfl

/-- The code of a comparison looks at two operands. -/
theorem emits_first (σ : Surroundings) (c : Comparison) (x y : Payload) (more : List Payload) :
    σ.Emits c.op (x :: y :: more) (some (Literal.bool (c.holds x.val y.val)).word) := by
  obtain ⟨lt, gt, le, ge⟩ := relOp_eval x y
  cases c with
  | eq => exact eq_emits σ x y more
  | lt =>
      have emits := cmp_emits σ x y more .lt .ltS rfl
      rw [lt] at emits
      exact emits
  | le =>
      have emits := cmp_emits σ x y more .le .leS rfl
      rw [le] at emits
      exact emits
  | gt =>
      have emits := cmp_emits σ x y more .gt .gtS rfl
      rw [gt] at emits
      exact emits
  | ge =>
      have emits := cmp_emits σ x y more .ge .geS rfl
      rw [ge] at emits
      exact emits

/-- From the third operand on, the machine compares a truth value: an order refuses it, and equality
finds it different. -/
theorem eval_third (c : Comparison) (x y z : Int) (more : List Int) :
    if c = .eq then Vm.eval c.op (x :: y :: z :: more) = .ok (.bool false)
    else ∃ e, Vm.eval c.op (x :: y :: z :: more) = .error e := by
  cases c with
  | eq => exact lispEq_chain more
  | lt | le | gt | ge => exact ⟨_, rfl⟩

theorem chained_false {c : Comparison} {x y : Int} {more : List Int}
    (differ : c.holds x y = false) : c.chained (x :: y :: more) = false := by
  rw [chained, differ, Bool.false_and]

theorem word_bool_inj {b b' : Bool} (same : (Literal.bool b).word = (Literal.bool b').word) :
    b = b' := by
  cases b with
  | false =>
      cases b' with
      | false => rfl
      | true => exact absurd same (by decide)
  | true =>
      cases b' with
      | false => exact absurd same (by decide)
      | true => rfl

end Comparison

end LispRlm.WasmEmit
