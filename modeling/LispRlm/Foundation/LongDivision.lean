import Mathlib.Data.Nat.Bits
import Mathlib.Tactic.Ring

/-! Binary long division: the quotient and the remainder of a number's leading bits. -/

namespace LispRlm.Foundation

namespace LongDivision

/-- A further bit of the dividend. -/
theorem div_pow_succ (n i : Nat) : n / 2 ^ i = 2 * (n / 2 ^ (i + 1)) + (n.testBit i).toNat := by
  rw [Nat.toNat_testBit, Nat.pow_succ, ← Nat.div_div_eq_div_mul]
  exact (Nat.div_add_mod _ 2).symm

/-- A further bit of the lower part. -/
theorem mod_pow_succ (n i : Nat) :
    n % 2 ^ (i + 1) = n % 2 ^ i + (n.testBit i).toNat * 2 ^ i := by
  rw [Nat.pow_succ, Nat.mod_mul, Nat.toNat_testBit, Nat.mul_comm (2 ^ i)]

/-- The remainder doubles, and takes in the bit. -/
def shifted (n d i : Nat) : Nat := 2 * (n / 2 ^ (i + 1) % d) + (n.testBit i).toNat

variable {n d : Nat}

theorem shifted_lt (i : Nat) (positive : 0 < d) : shifted n d i < 2 * d := by
  have bit := Bool.toNat_le (n.testBit i)
  have small : n / 2 ^ (i + 1) % d < d := Nat.mod_lt _ positive
  unfold shifted
  omega

theorem div_eq_shifted (i : Nat) :
    n / 2 ^ i = d * (2 * (n / 2 ^ (i + 1) / d)) + shifted n d i := by
  rw [div_pow_succ n i, shifted]
  conv_lhs => rw [← Nat.div_add_mod (n / 2 ^ (i + 1)) d]
  ring

/-- The divisor is subtracted where it fits. -/
theorem mod_step (i : Nat) (positive : 0 < d) :
    n / 2 ^ i % d = if d ≤ shifted n d i then shifted n d i - d else shifted n d i := by
  have bound := shifted_lt (n := n) i positive
  rw [div_eq_shifted (d := d) i, Nat.mul_add_mod]
  split_ifs with fits
  · rw [Nat.mod_eq_sub_mod fits, Nat.mod_eq_of_lt (by omega)]
  · exact Nat.mod_eq_of_lt (Nat.lt_of_not_le fits)

/-- The quotient's next bit tells whether it fitted. -/
theorem div_step (i : Nat) (positive : 0 < d) :
    n / 2 ^ i / d = 2 * (n / 2 ^ (i + 1) / d) + (decide (d ≤ shifted n d i)).toNat := by
  have bound := shifted_lt (n := n) i positive
  conv_lhs => rw [div_eq_shifted (d := d) i, Nat.mul_add_div positive]
  congr 1
  by_cases fits : d ≤ shifted n d i
  · rw [decide_eq_true fits, Nat.div_eq_sub_div positive fits,
      Nat.div_eq_of_lt (show shifted n d i - d < d by omega)]
    rfl
  · rw [decide_eq_false fits, Nat.div_eq_of_lt (Nat.lt_of_not_le fits)]
    rfl

end LongDivision

end LispRlm.Foundation
