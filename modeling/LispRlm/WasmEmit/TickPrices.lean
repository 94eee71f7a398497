import LispRlm.WasmEmit.FixedPointWords
import Mathlib.Algebra.Order.Field.Basic
import Mathlib.Algebra.Order.Field.Rat
import Mathlib.Algebra.Order.Ring.Pow
import Mathlib.Tactic.FieldSimp
import Mathlib.Tactic.Linarith
import Mathlib.Tactic.Positivity

/-! Prices of ticks, powers of 1.0001, by binary exponentiation. The exponent is the tick's tagged
word. -/

namespace LispRlm.WasmEmit

open LinearMemory

namespace FixedPoint

/-- The powers of the base for the bits of the exponent, from the lowest on. -/
def tickLoop : Nat → I64 → I64 → I64 → Option I64
  | 0, _, _, _ => none
  | fuel + 1, t, r, b =>
      if t = 0 then some r
      else
        let r := if t &&& 1 ≠ 0 then mulWord r b else r
        tickLoop fuel (t >>> 1) r (mulWord b b)

/-- 1.0001, rounded down. -/
def tickBase : I64 := 0x100068DB8

/-- The exponent of a tick's word, without its sign. -/
def magnitude (t : I64) : I64 := if t.slt 0 then t * -1 else t

/-- The price for a tick's word. -/
def priceWord (t : I64) : Option I64 := do
  let r ← tickLoop 65 (magnitude t) ((1 : I64) <<< 32) tickBase
  if t.slt 0 then
    if r = 0 then none else some (((1 : I64) <<< 48).udiv r >>> 16)
  else some r

/-- `tick_to_price` -/
def tickToPrice (tick : Code) : Code := fun s => do
  let (t, s) ← tick s
  let r ← priceWord t
  some (r, s)

/-- `tick_to_price64` -/
def tickToPrice64 (addr tick : Code) : Code := fun s => do
  let (p, s) ← addr s
  let s := s.set (.own "__tp64" "a") p
  let (t, s) ← tick s
  let r ← priceWord t
  let p := s.locals (.own "__tp64" "a")
  let m ← s.memory.storeI64 (p.setWidth 32).toNat (r <<< 32)
  let m ← m.storeI64 (p.setWidth 32 + 8).toNat (r >>> 32)
  some (4, { s with memory := m })

/-! ### The claim for one tick -/

/-- The exact price. -/
def exactPrice (t : Int) : ℚ := (10001 / 10000) ^ t

/-- The price of the tick's absolute value fits. -/
def Representable (t : Int) : Prop := exactPrice t.natAbs < 2 ^ 32

/-- At most `2 ^ -16` between a word and a number, in proportion to the number. -/
def Close (w : I64) (x : ℚ) : Prop := |(w.toNat : ℚ) - x| ≤ x / 2 ^ 16

/-- The largest word, or zero for a negative tick. -/
def Saturated (t : Int) (w : I64) : Prop := w = if 0 < t then -1 else 0

structure Right (t : Int) : Prop where
  ends : ∀ r b, ∃ v, tickLoop 65 (magnitude (tagWord t)) r b = some v
  accurate : Representable t →
    ∃ w, priceWord (tagWord t) = some w ∧ Close w (exactPrice t * 2 ^ 32)
  increasing : Representable t → 0 ≤ t →
    ∃ w w', priceWord (tagWord t) = some w ∧ priceWord (tagWord (t + 1)) = some w' ∧
      w.toNat < w'.toNat
  reciprocal : Representable t →
    ∃ w v, priceWord (tagWord t) = some w ∧ priceWord (tagWord (-t)) = some v ∧ v ≠ 0 ∧
      Close v (2 ^ 64 / w.toNat)
  scaled : ∀ w, priceWord (tagWord t) = some w → ∀ (s : State) (p : I64), Placed s.memory p 16 →
    ∃ u, tickToPrice64 (constant p) (constant (tagWord t)) s = some (4, u) ∧
      u.memory = s.memory.put p.toNat 16 (w.toNat * 2 ^ 32)
  outside : ¬ Representable t → ∀ w, priceWord (tagWord t) = some w → Saturated t w

/-! ### The loop -/

theorem tickLoop_ends (fuel : Nat) (t r b : I64) (enough : t.toNat < 2 ^ fuel) :
    ∃ v, tickLoop (fuel + 1) t r b = some v := by
  induction fuel generalizing t r b with
  | zero =>
      have zero : t = 0 := by
        rw [← BitVec.toNat_inj]
        exact Nat.lt_one_iff.mp enough
      exact ⟨r, by rw [tickLoop, if_pos zero]⟩
  | succ fuel ih =>
      rw [tickLoop]
      by_cases zero : t = 0
      · exact ⟨r, if_pos zero⟩
      · have half : (t >>> 1).toNat < 2 ^ fuel := by
          rw [shift_right, Nat.pow_one]
          rw [Nat.pow_succ] at enough
          omega
        obtain ⟨v, ends⟩ := ih (t >>> 1) (if t &&& 1 ≠ 0 then mulWord r b else r) (mulWord b b) half
        exact ⟨v, by rw [if_neg zero]; exact ends⟩

theorem tickLoop_total (t r b : I64) : ∃ v, tickLoop 65 t r b = some v :=
  tickLoop_ends 64 t r b t.isLt

/-! ### Signs -/

theorem slt_tagWord (t : Payload) : (tagWord t.val).slt 0 = decide (t.val < 0) := by
  have value : (tagWord t.val).toInt = t.val * 8 := by
    rw [tagWord, toInt_ofInt_inI64 (by rw [inI64_shifted]; exact t.property)]
  have same := slt_zero (tagWord t.val)
  rw [value] at same
  exact same.trans (decide_eq_decide.mpr (by omega))

theorem tagWord_neg (n : Int) : tagWord n * -1 = tagWord (-n) := by
  rw [tagWord, tagWord, Int.neg_mul, BitVec.ofInt_neg]
  exact mul_neg_one _

/-- A tick and its negative have one loop between them, and one of them its inverse. -/
theorem priceWord_pair {t : Payload} (positive : 0 < t.val) :
    ∃ r, priceWord (tagWord t.val) = some r ∧
      priceWord (tagWord (-t.val)) =
        if r = 0 then none else some (((1 : I64) <<< 48).udiv r >>> 16) := by
  have fits := t.property
  simp only [inPayload, Bool.and_eq_true, decide_eq_true_eq] at fits
  have negated : inPayload (-t.val) = true := by
    simp only [inPayload, Bool.and_eq_true, decide_eq_true_eq]
    omega
  have above : (tagWord t.val).slt 0 = false := by
    rw [slt_tagWord]
    exact decide_eq_false (by omega)
  have below : (tagWord (-t.val)).slt 0 = true := by
    rw [slt_tagWord ⟨-t.val, negated⟩]
    exact decide_eq_true (show -t.val < 0 by omega)
  have same : magnitude (tagWord (-t.val)) = magnitude (tagWord t.val) := by
    rw [magnitude, magnitude, below, above, if_pos rfl, if_neg Bool.false_ne_true, tagWord_neg,
      Int.neg_neg]
  obtain ⟨r, loop⟩ := tickLoop_total (magnitude (tagWord t.val)) ((1 : I64) <<< 32) tickBase
  refine ⟨r, ?_, ?_⟩
  · rw [priceWord, loop, Option.bind_eq_bind, Option.bind_some, above, if_neg Bool.false_ne_true]
  · rw [priceWord, same, loop, Option.bind_eq_bind, Option.bind_some, below, if_pos rfl]

/-- The inverse is two words' halves too small. -/
theorem inverse_mul_le (r : I64) :
    (((1 : I64) <<< 48).udiv r >>> 16).toNat * r.toNat ≤ 2 ^ 32 := by
  have quotient : (((1 : I64) <<< 48).udiv r).toNat = 2 ^ 48 / r.toNat := by
    rw [BitVec.udiv_eq, BitVec.toNat_udiv]
    rfl
  have floor := Nat.div_mul_le_self (2 ^ 48) (r.toNat * 2 ^ 16)
  rw [shift_right, quotient, Nat.div_div_eq_div_mul]
  rw [← Nat.mul_assoc] at floor
  omega

theorem not_close {v w : I64} (product : v.toNat * w.toNat ≤ 2 ^ 32) (nonzero : v ≠ 0) :
    ¬ Close v (2 ^ 64 / w.toNat) := by
  intro close
  have small : (v.toNat : ℚ) * w.toNat ≤ 2 ^ 32 := by exact_mod_cast product
  unfold Close at close
  rcases Nat.eq_zero_or_pos w.toNat with zero | positive
  · rw [zero, Nat.cast_zero, div_zero, sub_zero, zero_div, abs_nonpos_iff,
      Nat.cast_eq_zero] at close
    exact nonzero (BitVec.eq_of_toNat_eq close)
  · have positive' : (0 : ℚ) < w.toNat := by exact_mod_cast positive
    have whole : 2 ^ 64 / (w.toNat : ℚ) * w.toNat = 2 ^ 64 := div_mul_cancel₀ _ positive'.ne'
    have less := (abs_le.mp close).1
    have scaled := mul_le_mul_of_nonneg_right less positive'.le
    rw [sub_mul, whole, neg_mul, div_mul_eq_mul_div, whole] at scaled
    linarith

theorem not_reciprocal {t : Payload} (nonzero : t.val ≠ 0) (inner : -2 ^ 60 < t.val) :
    ¬ ∃ w v, priceWord (tagWord t.val) = some w ∧ priceWord (tagWord (-t.val)) = some v ∧ v ≠ 0 ∧
      Close v (2 ^ 64 / w.toNat) := by
  rintro ⟨w, v, price, inverse, vNonzero, close⟩
  rcases Int.lt_or_lt_of_ne nonzero with negative | positive
  · have fits := t.property
    simp only [inPayload, Bool.and_eq_true, decide_eq_true_eq] at fits
    have negated : inPayload (-t.val) = true := by
      simp only [inPayload, Bool.and_eq_true, decide_eq_true_eq]
      omega
    obtain ⟨r, first, second⟩ := priceWord_pair (t := ⟨-t.val, negated⟩) (by simpa using negative)
    rw [inverse] at first
    rw [Int.neg_neg, price] at second
    obtain rfl := Option.some.inj first
    rw [if_neg vNonzero] at second
    have product := inverse_mul_le v
    rw [← Option.some.inj second, Nat.mul_comm] at product
    exact not_close product vNonzero close
  · obtain ⟨r, first, second⟩ := priceWord_pair positive
    rw [price] at first
    rw [inverse] at second
    obtain rfl := Option.some.inj first
    split_ifs at second
    have product := inverse_mul_le w
    rw [← Option.some.inj second] at product
    exact not_close product vNonzero close

/-- A representable tick is far from the ends of the numbers. -/
theorem Representable.small {t : Int} (representable : Representable t) : t.natAbs < 2 ^ 46 := by
  by_contra large
  have bernoulli := one_add_mul_le_pow (a := (1 / 10000 : ℚ)) (by norm_num) t.natAbs
  have many : (2 : ℚ) ^ 46 ≤ t.natAbs := by exact_mod_cast Nat.le_of_not_lt large
  unfold Representable exactPrice at representable
  rw [zpow_natCast, show (10001 / 10000 : ℚ) = 1 + 1 / 10000 by norm_num] at representable
  linarith

/-! ### The other price's cells -/

theorem tickToPrice64_put {t w : I64} (price : priceWord t = some w) (s : State) (p : I64)
    (placed : Placed s.memory p 16) :
    ∃ u, tickToPrice64 (constant p) (constant t) s = some (4, u) ∧
      u.memory = s.memory.put p.toNat 16 (w.toNat * 2 ^ 32) := by
  have inside := placed.inside
  have small := placed.small
  have low : (p.setWidth 32).toNat = p.toNat := by
    rw [BitVec.toNat_setWidth]
    exact Nat.mod_eq_of_lt (by omega)
  have high : (p.setWidth 32 + 8).toNat = p.toNat + 8 := by
    rw [BitVec.toNat_add, low, show (8 : BitVec 32).toNat = 8 from rfl]
    omega
  have whole : (w <<< 32).toNat + 256 ^ 8 * (w >>> 32).toNat = w.toNat * 2 ^ 32 := by
    have bound := w.isLt
    rw [shift_left, shift_right]
    omega
  have fits : (w <<< 32).toNat < 256 ^ 8 := (w <<< 32).isLt
  refine ⟨{ s.set (.own "__tp64" "a") p with
    memory := s.memory.put p.toNat 16 (w.toNat * 2 ^ 32) }, ?_, rfl⟩
  unfold tickToPrice64 constant
  simp only [Option.bind_eq_bind, Option.bind_some]
  rw [price, Option.bind_some, State.set_locals, if_pos rfl, State.set_memory, low, high,
    storeI64_put (by omega), Option.bind_some,
    storeI64_put (by rw [put_size]; omega), Option.bind_some, put_put fits, whole]

/-- Zero is the one representable tick whose price is right. -/
theorem tick_right (t : Payload) :
    (t.val = 0 → Right t.val) ∧ (Representable t.val → Right t.val → t.val = 0) := by
  constructor
  · intro zero
    rw [zero]
    have one : Representable 0 := by
      unfold Representable exactPrice
      norm_num
    have price : priceWord (tagWord 0) = some ((1 : I64) <<< 32) := rfl
    have next : priceWord (tagWord 1) = some 4298404460 := by decide
    have word : ((1 : I64) <<< 32).toNat = 2 ^ 32 := rfl
    refine ⟨fun r b => tickLoop_total _ r b, fun _ => ⟨_, price, ?_⟩, fun _ _ => ⟨_, _, price, next,
      by decide⟩, fun _ => ⟨_, _, price, price, by decide, ?_⟩,
      fun w found s p placed => tickToPrice64_put found s p placed, fun outside => absurd one outside⟩
    · unfold Close exactPrice
      rw [word]
      norm_num
    · unfold Close
      rw [word]
      norm_num
  · intro representable right
    by_contra nonzero
    have small := representable.small
    exact not_reciprocal nonzero (by omega) (right.reciprocal representable)

/-- The price of tick 1 is that of eight steps, and the price of tick -1 is zero. -/
theorem tick_wrong : ¬ Right 1 := by
  intro right
  have one : Representable 1 := by
    unfold Representable exactPrice
    norm_num
  exact not_reciprocal (t := ⟨1, by decide⟩) (by decide) (by decide) (right.reciprocal one)

end FixedPoint

end LispRlm.WasmEmit
