import Mathlib.Algebra.BigOperators.Group.List.Basic
import Mathlib.Algebra.Order.BigOperators.Group.List
import Mathlib.Data.List.Induction
import Mathlib.Data.List.TakeWhile
import Mathlib.Data.Prod.Lex
import Mathlib.Algebra.GroupWithZero.Nat

/-! Lines and columns of a text, and a walk to a place that is given in other units. -/

namespace LispRlm.Foundation.TextPositions

/-! ### Lines and columns -/

/-- The line and the column, counted from one, of what follows a text. -/
def lineCol (before : List Char) : Nat × Nat :=
  (before.count '\n' + 1, (before.reverse.takeWhile (· ≠ '\n')).length + 1)

def advance (place : Nat × Nat) (c : Char) : Nat × Nat :=
  if c = '\n' then (place.1 + 1, 1) else (place.1, place.2 + 1)

theorem lineCol_concat (before : List Char) (c : Char) :
    lineCol (before ++ [c]) = advance (lineCol before) c := by
  by_cases newline : c = '\n'
  · simp [lineCol, advance, newline]
  · simp [lineCol, advance, newline]

theorem advance_lt (place : Nat × Nat) (c : Char) : toLex place < toLex (advance place c) := by
  rw [Prod.Lex.toLex_lt_toLex, advance]
  split
  · exact Or.inl (Nat.lt_succ_self _)
  · exact Or.inr ⟨rfl, Nat.lt_succ_self _⟩

theorem lineCol_lt (before : List Char) {more : List Char} (some : more ≠ []) :
    toLex (lineCol before) < toLex (lineCol (before ++ more)) := by
  induction more using List.reverseRecOn with
  | nil => exact absurd rfl some
  | append_singleton more c ih =>
    rw [← List.append_assoc, lineCol_concat]
    by_cases none : more = []
    · rw [none, List.append_nil]
      exact advance_lt _ _
    · exact (ih none).trans (advance_lt _ _)

/-- No two places of a text have one line and column. -/
theorem lineCol_take_inj {text : List Char} {m n : Nat} (left : m ≤ text.length)
    (right : n ≤ text.length) (same : lineCol (text.take m) = lineCol (text.take n)) : m = n := by
  have before : ∀ {m n : Nat}, n ≤ text.length → m < n →
      lineCol (text.take m) ≠ lineCol (text.take n) := by
    intro m n within less same
    have split : text.take n = text.take m ++ (text.drop m).take (n - m) := by
      rw [← List.take_add]
      congr 1
      omega
    have some : (text.drop m).take (n - m) ≠ [] := by
      intro none
      have := congrArg List.length none
      simp only [List.length_take, List.length_drop, List.length_nil] at this
      omega
    have less := lineCol_lt (text.take m) some
    rw [← split, same] at less
    exact lt_irrefl _ less
  rcases Nat.lt_trichotomy m n with less | rfl | more
  · exact absurd same (before right less)
  · rfl
  · exact absurd same.symm (before left more)

/-! ### Walks -/

variable {size : Char → Nat}

def width (size : Char → Nat) (text : List Char) : Nat := (text.map size).sum

/-- How many characters begin before `limit`, where the first begins at `i`. -/
def reach (size : Char → Nat) (limit : Nat) : Nat → List Char → Nat
  | _, [] => 0
  | i, c :: rest => if limit ≤ i then 0 else reach size limit (i + size c) rest + 1

@[simp] theorem width_nil : width size [] = 0 := rfl

@[simp] theorem width_cons (c : Char) (text : List Char) :
    width size (c :: text) = size c + width size text := by
  simp [width]

theorem width_append (text more : List Char) :
    width size (text ++ more) = width size text + width size more := by
  simp [width]

theorem width_take_le (size : Char → Nat) (text : List Char) {m n : Nat} (le : m ≤ n) :
    width size (text.take m) ≤ width size (text.take n) := by
  have split : text.take n = text.take m ++ (text.drop m).take (n - m) := by
    rw [← List.take_add]
    congr 1
    omega
  rw [split, width_append]
  exact Nat.le_add_right _ _

theorem length_le_width (positive : ∀ c, 1 ≤ size c) (text : List Char) :
    text.length ≤ width size text := by
  induction text with
  | nil => exact Nat.le_refl 0
  | cons c text ih =>
    rw [List.length_cons, width_cons]
    have := positive c
    omega

theorem width_eq_length_iff (positive : ∀ c, 1 ≤ size c) (text : List Char) :
    width size text = text.length ↔ ∀ c ∈ text, size c = 1 := by
  induction text with
  | nil => simp
  | cons c text ih =>
    have low := positive c
    have rest := length_le_width positive text
    rw [width_cons, List.length_cons, List.forall_mem_cons, ← ih]
    omega

theorem reach_le (limit i : Nat) (text : List Char) : reach size limit i text ≤ text.length := by
  induction text generalizing i with
  | nil => exact Nat.le_refl 0
  | cons c text ih =>
    rw [reach]
    split
    · exact Nat.zero_le _
    · exact Nat.succ_le_succ (ih _)

/-- The walk passes the characters that begin below the limit. -/
theorem reach_eq {limit i k : Nat} {text : List Char} (within : k ≤ text.length)
    (below : ∀ j < k, i + width size (text.take j) < limit)
    (stops : k = text.length ∨ limit ≤ i + width size (text.take k)) :
    reach size limit i text = k := by
  induction text generalizing i k with
  | nil => exact (Nat.le_zero.mp within).symm
  | cons c text ih =>
    cases k with
    | zero =>
      have reached : limit ≤ i := by simpa using stops
      rw [reach, if_pos reached]
    | succ k =>
      have first := below 0 (Nat.succ_pos k)
      rw [List.take_zero, width_nil] at first
      rw [reach, if_neg (by omega)]
      congr 1
      apply ih (Nat.le_of_succ_le_succ within)
      · intro j less
        have := below (j + 1) (Nat.succ_lt_succ less)
        rw [List.take_succ_cons, width_cons] at this
        omega
      · rw [List.take_succ_cons, width_cons] at stops
        rw [List.length_cons] at stops
        omega

theorem reach_below {limit i : Nat} {text : List Char} {j : Nat}
    (less : j < reach size limit i text) : i + width size (text.take j) < limit := by
  induction text generalizing i j with
  | nil => exact absurd less (Nat.not_lt_zero j)
  | cons c text ih =>
    rw [reach] at less
    split at less
    · exact absurd less (Nat.not_lt_zero j)
    · rename_i begins
      cases j with
      | zero => simpa using begins
      | succ j =>
        have := ih (Nat.lt_of_succ_lt_succ less)
        rw [List.take_succ_cons, width_cons]
        omega

/-- A walk by a limit in the text's own units ends at it. -/
theorem reach_width (positive : ∀ c, 1 ≤ size c) (before after : List Char) :
    reach size (width size before) 0 (before ++ after) = before.length := by
  apply reach_eq (by simp)
  · intro j less
    rw [List.take_append_of_le_length (by omega)]
    have split : width size before = width size (before.take j) + width size (before.drop j) := by
      rw [← width_append, List.take_append_drop]
    have rest := length_le_width positive (before.drop j)
    rw [List.length_drop] at rest
    omega
  · exact Or.inr (by simp)

/-- A walk by a number of characters ends at it where those before the last one have size one. -/
theorem reach_count_iff (positive : ∀ c, 1 ≤ size c) {k : Nat} {text : List Char}
    (within : k ≤ text.length) :
    reach size k 0 text = k ↔ ∀ c ∈ text.take (k - 1), size c = 1 := by
  have length : (text.take (k - 1)).length = k - 1 := by
    rw [List.length_take]
    omega
  rw [← width_eq_length_iff positive, length]
  have low := length_le_width positive (text.take (k - 1))
  rw [length] at low
  constructor
  · intro same
    rcases Nat.eq_zero_or_pos k with rfl | some
    · rfl
    · have last : k - 1 < reach size k 0 text := by omega
      have := reach_below last
      omega
  · intro narrow
    apply reach_eq within
    · intro j less
      have le : j ≤ k - 1 := by omega
      have := width_take_le size text le
      omega
    · have := length_le_width positive (text.take k)
      rw [List.length_take] at this
      omega

end LispRlm.Foundation.TextPositions
