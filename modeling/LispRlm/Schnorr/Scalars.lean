import Mathlib.Data.Nat.ModEq
import Mathlib.Data.Nat.Bits

/-! Scalars modulo the order of the curve's group. Four limbs, or thirty-two bytes, are one word. -/

namespace LispRlm.Schnorr

abbrev U256 : Type := BitVec 256

/-- The order of the group. -/
def N : U256 := 0xFFFFFFFFFFFFFFFFFFFFFFFFFFFFFFFEBAAEDCE6AF48A03BBFD25E8CD0364141

def scGeqN (a : U256) : Bool := N ≤ a

/-- `n - a`; the borrow from the highest limb is dropped. -/
def scSubN (a : U256) : U256 := N - a

def scSubNInPlace (r : U256) : U256 := r - N

/-- A round of the reduction: the remainder takes in the product's next bit. -/
def shiftIn (bit : Bool) (r : U256) : U256 :=
  let shifted := r.shiftConcat bit
  if r.msb || scGeqN shifted then scSubNInPlace shifted else shifted

/-- The reduction of a product, from its highest bit on. -/
def reduceModN (t : BitVec 512) : U256 :=
  (List.range 512).reverse.foldl (fun r bit => shiftIn (t.getLsbD bit) r) 0

def scMulModN (a b : U256) : U256 := reduceModN (a.setWidth 512 * b.setWidth 512)

def scAddModN (a b : U256) : U256 :=
  let r := a + b
  if 2 ^ 256 ≤ a.toNat + b.toNat ∨ scGeqN r then scSubNInPlace r else r

/-- `fe_mod_n` -/
def feModN (a : U256) : U256 := if N ≤ a then a - N else a

theorem N_toNat : N.toNat =
    0xFFFFFFFFFFFFFFFFFFFFFFFFFFFFFFFEBAAEDCE6AF48A03BBFD25E8CD0364141 := rfl

theorem scGeqN_iff (a : U256) : scGeqN a = true ↔ N.toNat ≤ a.toNat := by
  rw [scGeqN, decide_eq_true_iff, BitVec.le_def]

/-- One subtraction reduces what is below `2 n`. -/
theorem sub_N_toNat {r : U256} {v : Nat} (wraps : r.toNat = v % 2 ^ 256) (low : N.toNat ≤ v)
    (high : v < 2 * N.toNat) : (scSubNInPlace r).toNat = v % N.toNat := by
  have reduced : v % N.toNat = v - N.toNat := by
    rw [Nat.mod_eq_sub_mod low]
    exact Nat.mod_eq_of_lt (by omega)
  rw [reduced, scSubNInPlace, BitVec.toNat_sub, wraps]
  rw [N_toNat] at *
  omega

/-- A value below `2 n`, given by its low 256 bits, is reduced by the subtraction or is reduced. -/
theorem reduce_toNat {r : U256} {v : Nat} (wraps : r.toNat = v % 2 ^ 256) (high : v < 2 * N.toNat) :
    (if 2 ^ 256 ≤ v ∨ N.toNat ≤ r.toNat then scSubNInPlace r else r).toNat = v % N.toNat := by
  have order : N.toNat < 2 ^ 256 := N.isLt
  by_cases low : v < N.toNat
  · have same : r.toNat = v := wraps.trans (Nat.mod_eq_of_lt (Nat.lt_trans low order))
    have reduced : ¬ (2 ^ 256 ≤ v ∨ N.toNat ≤ r.toNat) := by
      rintro (big | big)
      · exact absurd (Nat.lt_trans low order) (Nat.not_lt.mpr big)
      · exact absurd (same ▸ big) (Nat.not_le.mpr low)
    rw [if_neg reduced, Nat.mod_eq_of_lt low]
    exact same
  · have subtracts : 2 ^ 256 ≤ v ∨ N.toNat ≤ r.toNat := by
      by_cases carry : 2 ^ 256 ≤ v
      · exact .inl carry
      · rw [wraps, Nat.mod_eq_of_lt (Nat.lt_of_not_le carry)]
        exact .inr (Nat.le_of_not_lt low)
    rw [if_pos subtracts]
    exact sub_N_toNat wraps (Nat.le_of_not_lt low) high

theorem feModN_toNat (a : U256) : (feModN a).toNat = a.toNat % N.toNat := by
  have small : a.toNat < 2 * N.toNat := Nat.lt_trans a.isLt (by decide)
  have reduced := reduce_toNat (Nat.mod_eq_of_lt a.isLt).symm small
  rw [← reduced, feModN]
  by_cases low : N.toNat ≤ a.toNat
  · rw [if_pos (BitVec.le_def.mpr low), if_pos (.inr low)]
    rfl
  · rw [if_neg fun h => low (BitVec.le_def.mp h), if_neg]
    exact not_or.mpr ⟨Nat.not_le.mpr a.isLt, low⟩

theorem shiftIn_toNat {r : U256} (bit : Bool) (reduced : r.toNat < N.toNat) :
    (shiftIn bit r).toNat = (2 * r.toNat + bit.toNat) % N.toNat := by
  have shifted : (r.shiftConcat bit).toNat = (2 * r.toNat + bit.toNat) % 2 ^ 256 := by
    rw [BitVec.toNat_shiftConcat, Nat.shiftLeft_eq, Nat.pow_one, Nat.mul_comm]
  have bitBound := Bool.toNat_le bit
  have top : (r.msb || scGeqN (r.shiftConcat bit)) = true ↔
      2 ^ 256 ≤ 2 * r.toNat + bit.toNat ∨ N.toNat ≤ (r.shiftConcat bit).toNat := by
    rw [Bool.or_eq_true, scGeqN_iff, BitVec.msb_eq_decide, decide_eq_true_iff]
    refine or_congr ?_ Iff.rfl
    omega
  rw [← reduce_toNat shifted (by omega)]
  unfold shiftIn
  simp only [top]

/-- The rounds still to come, from bit `k` down: the remainder so far is that of the bits above. -/
theorem rounds_toNat (t : BitVec 512) (k : Nat) (r : U256)
    (sofar : r.toNat = t.toNat / 2 ^ k % N.toNat) :
    ((List.range k).foldr (fun bit r => shiftIn (t.getLsbD bit) r) r).toNat =
      t.toNat % N.toNat := by
  induction k generalizing r with
  | zero => simpa using sofar
  | succ k ih =>
      rw [List.range_succ, List.foldr_append, List.foldr_cons, List.foldr_nil]
      apply ih
      have reduced : r.toNat < N.toNat := sofar ▸ Nat.mod_lt _ (by decide)
      have split : t.toNat / 2 ^ k = 2 * (t.toNat / 2 ^ (k + 1)) + (t.getLsbD k).toNat := by
        rw [BitVec.getLsbD, Nat.testBit_eq_decide_div_mod_eq, Nat.pow_succ,
          ← Nat.div_div_eq_div_mul]
        rcases Nat.mod_two_eq_zero_or_one (t.toNat / 2 ^ k) with even | odd
        · simp only [even]
          simp
          omega
        · simp only [odd]
          simp
          omega
      calc (shiftIn (t.getLsbD k) r).toNat
          = (2 * (t.toNat / 2 ^ (k + 1) % N.toNat) + (t.getLsbD k).toNat) % N.toNat := by
            rw [shiftIn_toNat _ reduced, sofar]
        _ = (2 * (t.toNat / 2 ^ (k + 1)) + (t.getLsbD k).toNat) % N.toNat := by
            rw [Nat.add_mod, Nat.mul_mod_mod, ← Nat.add_mod]
        _ = t.toNat / 2 ^ k % N.toNat := by rw [split]

theorem reduceModN_toNat (t : BitVec 512) : (reduceModN t).toNat = t.toNat % N.toNat := by
  have start : (0 : U256).toNat = t.toNat / 2 ^ 512 % N.toNat := by
    rw [Nat.div_eq_of_lt t.isLt, Nat.zero_mod]
    rfl
  rw [reduceModN, List.foldl_reverse]
  exact rounds_toNat t 512 0 start

theorem product_lt {w v : Nat} (wide : w + w = v) (a b : BitVec w) :
    a.toNat * b.toNat < 2 ^ v := by
  rw [← wide, Nat.pow_add]
  exact Nat.mul_lt_mul'' a.isLt b.isLt

theorem product_toNat {w v : Nat} (wide : w + w = v) (a b : BitVec w) :
    (a.setWidth v * b.setWidth v).toNat = a.toNat * b.toNat := by
  have wider : w ≤ v := wide ▸ Nat.le_add_left w w
  rw [BitVec.toNat_mul, BitVec.toNat_setWidth_of_le wider, BitVec.toNat_setWidth_of_le wider]
  exact Nat.mod_eq_of_lt (product_lt wide a b)

theorem scMulModN_toNat (a b : U256) : (scMulModN a b).toNat = a.toNat * b.toNat % N.toNat := by
  rw [← product_toNat (show 256 + 256 = 512 from rfl) a b]
  exact reduceModN_toNat _

theorem scAddModN_toNat {a b : U256} (sum : a.toNat + b.toNat < 2 * N.toNat) :
    (scAddModN a b).toNat = (a.toNat + b.toNat) % N.toNat := by
  rw [← reduce_toNat (BitVec.toNat_add a b) sum]
  unfold scAddModN
  simp only [scGeqN_iff]

/-! ### Normalisation -/

/-- What the functions do with a scalar that may be out of range. -/
def normalise (d : U256) : U256 := if scGeqN d then scSubN d else d

theorem scSubN_toNat {a : U256} (inRange : a.toNat ≤ N.toNat) :
    (scSubN a).toNat = N.toNat - a.toNat :=
  BitVec.toNat_sub_of_le (BitVec.le_def.mpr inRange)

/-- Above the order the borrow is lost. -/
theorem scSubN_wraps {a : U256} (above : N.toNat < a.toNat) :
    (scSubN a).toNat = 2 ^ 256 - (a.toNat - N.toNat) := by
  have bound := a.isLt
  have sub : (scSubN a).toNat = (2 ^ 256 - a.toNat + N.toNat) % 2 ^ 256 := BitVec.toNat_sub N a
  have rearranged : 2 ^ 256 - a.toNat + N.toNat = 2 ^ 256 - (a.toNat - N.toNat) := by omega
  rw [sub, rearranged]
  exact Nat.mod_eq_of_lt (by omega)

/-- A scalar above the order is subtracted the wrong way round. -/
theorem normalise_toNat_iff (d : U256) :
    (normalise d).toNat = d.toNat % N.toNat ↔ d.toNat ≤ N.toNat := by
  have bound := d.isLt
  unfold normalise
  by_cases low : d.toNat < N.toNat
  · rw [if_neg (fun high => absurd ((scGeqN_iff d).mp high) (Nat.not_le.mpr low))]
    exact iff_of_true (Nat.mod_eq_of_lt low).symm (Nat.le_of_lt low)
  · have high := Nat.le_of_not_lt low
    rw [if_pos ((scGeqN_iff d).mpr high)]
    by_cases same : d.toNat = N.toNat
    · rw [scSubN_toNat (Nat.le_of_eq same), same, Nat.sub_self, Nat.mod_self]
      exact iff_of_true rfl (Nat.le_refl _)
    · have above : N.toNat < d.toNat := Nat.lt_of_le_of_ne high (Ne.symm same)
      have reduced := Nat.mod_lt d.toNat (show N.toNat > 0 by decide)
      have half : 2 ^ 255 < N.toNat := by decide
      rw [scSubN_wraps above]
      refine iff_of_false ?_ (Nat.not_le.mpr above)
      omega

theorem normalise_lt {d : U256} (inRange : d.toNat ≤ N.toNat) : (normalise d).toNat < N.toNat := by
  rw [(normalise_toNat_iff d).mpr inRange]
  exact Nat.mod_lt _ (by decide)

end LispRlm.Schnorr
