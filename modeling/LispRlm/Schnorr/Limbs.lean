import LispRlm.Foundation.Limbs
import LispRlm.Schnorr.Scalars

/-! The scalar functions over four limbs of 64 bits: on the words they are those of `Scalars`. The
running totals of the loops fit 128 bits, and are integers here. -/

namespace LispRlm.Schnorr

open Foundation.Limbs

/-- `[u64; n]` -/
abbrev Limbs (n : Nat) : Type := { limbs : List (BitVec 64) // limbs.length = n }

namespace Limbs

def word (a : Limbs 4) : U256 := BitVec.ofNat 256 (value a.val)

theorem word_toNat (a : Limbs 4) : (word a).toNat = value a.val := by
  have bound := value_lt a.val
  rw [a.property] at bound
  exact Nat.mod_eq_of_lt bound

/-- `N` -/
def order : Limbs 4 :=
  ⟨[0xBFD25E8CD0364141, 0xBAAEDCE6AF48A03B, 0xFFFFFFFFFFFFFFFE, 0xFFFFFFFFFFFFFFFF], rfl⟩

def scGeqN (a : Limbs 4) : Bool := geqDown a.val.reverse order.val.reverse

/-- The low limbs of a running total of four terms. -/
def running (terms : List Int) (four : terms.length = 4) : Limbs 4 :=
  ⟨(carried 0 terms).1, (carried_length 0 terms).trans four⟩

theorem zipWith_four {f : BitVec 64 → BitVec 64 → Int} (a b : Limbs 4) :
    (List.zipWith f a.val b.val).length = 4 := by
  rw [List.length_zipWith, a.property, b.property, Nat.min_self]

/-- The loop of both subtractions: the borrow is the running total's sign. -/
def borrowing (a b : Limbs 4) : Limbs 4 :=
  running (List.zipWith (fun x y => (x.toNat : Int) - y.toNat) a.val b.val) (zipWith_four a b)

def scSubN (a : Limbs 4) : Limbs 4 := borrowing order a

def scSubNInPlace (r : Limbs 4) : Limbs 4 := borrowing r order

/-- What the functions do with a scalar that may be out of range. -/
def normalise (d : Limbs 4) : Limbs 4 := if scGeqN d then scSubN d else d

/-- A round of the reduction: the limbs move up by a bit. -/
def shiftIn (bit : Bool) (r : Limbs 4) : Limbs 4 :=
  let shifted : Limbs 4 := ⟨(shiftUp bit r.val).1, (shiftUp_length bit r.val).trans r.property⟩
  if (shiftUp bit r.val).2 || scGeqN shifted then scSubNInPlace shifted else shifted

def scMulModN (a b : Limbs 4) : Limbs 4 :=
  let t := mulInto a.val b.val (List.replicate 8 0)
  (List.range 512).reverse.foldl
    (fun r bit => shiftIn ((t.getD (bit / 64) 0).getLsbD (bit % 64)) r) ⟨[0, 0, 0, 0], rfl⟩

def scAddModN (a b : Limbs 4) : Limbs 4 :=
  let terms := List.zipWith (fun x y => (x.toNat : Int) + y.toNat) a.val b.val
  let r := running terms (zipWith_four a b)
  if 0 < (carried (w := 64) 0 terms).2 ∨ scGeqN r then scSubNInPlace r else r

/-- `sub256`, from a borrow on. -/
def sub256 (borrow : BitVec 64) :
    List (BitVec 64) → List (BitVec 64) → List (BitVec 64) × BitVec 64
  | a :: as, b :: bs =>
      let bi := b + borrow
      let next : BitVec 64 := if bi < borrow then 1 else if a < bi then 1 else 0
      let (rest, out) := sub256 next as bs
      ((a - bi) :: rest, out)
  | _, _ => ([], borrow)

theorem sub256_length {as bs : List (BitVec 64)} (same : as.length = bs.length)
    (borrow : BitVec 64) : (sub256 borrow as bs).1.length = as.length := by
  induction as generalizing bs borrow with
  | nil =>
      cases bs with
      | nil => rfl
      | cons b bs => simp at same
  | cons a as ih =>
      cases bs with
      | nil => simp at same
      | cons b bs => exact congrArg (· + 1) (ih (Nat.succ.inj same) _)

def feModN (a : Limbs 4) : Limbs 4 :=
  let r : Limbs 4 := ⟨(sub256 0 a.val order.val).1,
    (sub256_length (a.property.trans order.property.symm) 0).trans a.property⟩
  if (sub256 0 a.val order.val).2 = 0 then r else a

/-! ### The words -/

theorem word_order : word order = N := by decide

theorem order_value : value order.val = N.toNat := by rw [← word_toNat, word_order]

theorem scGeqN_word (a : Limbs 4) : scGeqN a = Schnorr.scGeqN (word a) := by
  have lengths : a.val.reverse.length = order.val.reverse.length := by
    rw [List.length_reverse, List.length_reverse, a.property, order.property]
  rw [Bool.eq_iff_iff, scGeqN, geqDown_iff lengths, List.reverse_reverse, List.reverse_reverse,
    order_value, Schnorr.scGeqN_iff, word_toNat]

theorem running_value (terms : List Int) (four : terms.length = 4) :
    ((word (running terms four)).toNat : Int) + 2 ^ 256 * (carried (w := 64) 0 terms).2 =
      weighted 64 terms := by
  have total := carried_value (w := 64) 0 terms
  rw [four, Int.zero_add] at total
  rw [word_toNat]
  exact total

/-- The borrow out of the highest limb is dropped. -/
theorem borrowing_word (a b : Limbs 4) : word (borrowing a b) = word a - word b := by
  have terms := weighted_zipWith (f := fun x y => (x.toNat : Int) - y.toNat) (p := 1) (q := -1)
    (fun x y => by ring) (a.property.trans b.property.symm)
  have total := running_value _ (zipWith_four (f := fun x y => (x.toNat : Int) - y.toNat) a b)
  rw [terms, ← word_toNat a, ← word_toNat b] at total
  have bound := (word (borrowing a b)).isLt
  have low := (word b).isLt
  apply BitVec.eq_of_toNat_eq
  rw [BitVec.toNat_sub]
  rw [borrowing] at bound ⊢
  omega

theorem scSubN_word (a : Limbs 4) : word (scSubN a) = Schnorr.scSubN (word a) := by
  rw [scSubN, borrowing_word, word_order]
  rfl

theorem scSubNInPlace_word (r : Limbs 4) :
    word (scSubNInPlace r) = Schnorr.scSubNInPlace (word r) := by
  rw [scSubNInPlace, borrowing_word, word_order]
  rfl

theorem scAddModN_word (a b : Limbs 4) :
    word (scAddModN a b) = Schnorr.scAddModN (word a) (word b) := by
  unfold scAddModN
  extract_lets sums r
  have terms : weighted 64 sums = 1 * value a.val + 1 * value b.val :=
    weighted_zipWith (fun x y => by ring) (a.property.trans b.property.symm)
  have total : ((word r).toNat : Int) + 2 ^ 256 * (carried (w := 64) 0 sums).2 =
      weighted 64 sums := running_value sums _
  rw [terms, ← word_toNat a, ← word_toNat b] at total
  have bound := (word r).isLt
  have sum : word r = word a + word b := by
    apply BitVec.eq_of_toNat_eq
    rw [BitVec.toNat_add]
    omega
  have carries : 0 < (carried (w := 64) 0 sums).2 ↔ 2 ^ 256 ≤ (word a).toNat + (word b).toNat := by
    omega
  rw [Schnorr.scAddModN, ← sum, ← scSubNInPlace_word, ← scGeqN_word]
  simp only [carries]
  exact apply_ite word _ _ _

theorem shiftIn_word (bit : Bool) (r : Limbs 4) :
    word (shiftIn bit r) = Schnorr.shiftIn bit (word r) := by
  have total := shiftUp_value (w := 64) (by decide) bit r.val
  rw [r.property, ← word_toNat r] at total
  unfold shiftIn
  extract_lets shifted
  have result : (word shifted).toNat = value (shiftUp bit r.val).1 := word_toNat shifted
  have bound := (word shifted).isLt
  have bitBound := Bool.toNat_le bit
  rw [← result] at total
  have moved : word shifted = (word r).shiftConcat bit := by
    apply BitVec.eq_of_toNat_eq
    rw [BitVec.toNat_shiftConcat, Nat.shiftLeft_eq]
    omega
  have top : (shiftUp bit r.val).2 = (word r).msb := by
    rw [BitVec.msb_eq_decide]
    cases out : (shiftUp bit r.val).2
    · rw [out] at total
      simp at total
      simp
      omega
    · rw [out] at total
      simp at total
      simp
      omega
  rw [Schnorr.shiftIn, ← moved, top, ← scGeqN_word, ← scSubNInPlace_word]
  exact apply_ite word _ _ _

/-- The product fits eight limbs. -/
theorem product_value (a b : Limbs 4) :
    value (mulInto a.val b.val (List.replicate 8 0)) =
      ((word a).setWidth 512 * (word b).setWidth 512).toNat := by
  have room : a.val.length + b.val.length ≤ (List.replicate 8 (0 : BitVec 64)).length := by
    rw [a.property, b.property, List.length_replicate]
  have start : value (List.replicate 8 (0 : BitVec 64)) = 0 := by decide
  have wide : 256 + 256 = 512 := rfl
  have fits := product_lt wide (word a) (word b)
  rw [word_toNat, word_toNat] at fits
  rw [product_toNat wide, word_toNat, word_toNat, mulInto_value room, start, Nat.zero_add]
  have width : 64 * 8 = 512 := rfl
  rw [start, Nat.zero_add, List.length_replicate, width]
  exact fits

theorem scMulModN_word (a b : Limbs 4) :
    word (scMulModN a b) = Schnorr.scMulModN (word a) (word b) := by
  have bits (i : Nat) :
      ((mulInto a.val b.val (List.replicate 8 0)).getD (i / 64) 0).getLsbD (i % 64) =
        ((word a).setWidth 512 * (word b).setWidth 512).getLsbD i := by
    rw [← testBit_value (by decide), product_value]
    rfl
  unfold scMulModN Schnorr.scMulModN reduceModN
  simp only [bits]
  have zero : (0 : U256) = word ⟨[0, 0, 0, 0], rfl⟩ := by decide
  rw [zero]
  exact (List.foldl_hom word fun r bit => (shiftIn_word _ r).symm).symm


theorem borrow_step (a b : BitVec 64) {borrow : BitVec 64} (bit : borrow.toNat ≤ 1) :
    let next : BitVec 64 := if b + borrow < borrow then 1 else if a < b + borrow then 1 else 0
    (a - (b + borrow)).toNat + b.toNat + borrow.toNat = a.toNat + 2 ^ 64 * next.toNat ∧
      next.toNat ≤ 1 := by
  have boundA := a.isLt
  have boundB := b.isLt
  simp only [BitVec.lt_def, BitVec.toNat_sub, BitVec.toNat_add]
  split_ifs
  · exact ⟨by simp; omega, by decide⟩
  · exact ⟨by simp; omega, by decide⟩
  · exact ⟨by simp; omega, by decide⟩

theorem sub256_value {as bs : List (BitVec 64)} (same : as.length = bs.length)
    {borrow : BitVec 64} (bit : borrow.toNat ≤ 1) :
    value (sub256 borrow as bs).1 + value bs + borrow.toNat =
        value as + 2 ^ (64 * as.length) * (sub256 borrow as bs).2.toNat ∧
      (sub256 borrow as bs).2.toNat ≤ 1 := by
  induction as generalizing bs borrow with
  | nil =>
      cases bs with
      | nil => exact ⟨by simp [sub256], bit⟩
      | cons b bs => simp at same
  | cons a as ih =>
      cases bs with
      | nil => simp at same
      | cons b bs =>
          obtain ⟨here, next⟩ := borrow_step a b bit
          obtain ⟨rest, last⟩ := ih (Nat.succ.inj same) next
          refine ⟨?_, last⟩
          rw [sub256, value_cons, value_cons, value_cons, List.length_cons, Nat.mul_succ,
            Nat.pow_add 2 (64 * as.length) 64]
          linear_combination here + 2 ^ 64 * rest

theorem feModN_word (a : Limbs 4) : word (feModN a) = Schnorr.feModN (word a) := by
  unfold feModN
  extract_lets r
  obtain ⟨total, bit⟩ := sub256_value (a.property.trans order.property.symm)
    (show (0 : BitVec 64).toNat ≤ 1 by decide)
  have result : (word r).toNat = value (sub256 0 a.val order.val).1 := word_toNat r
  rw [a.property, ← result, order_value, ← word_toNat a] at total
  have bound := (word r).isLt
  have small := (word a).isLt
  have known := N_toNat
  have borrows : (sub256 0 a.val order.val).2 = 0 ↔ N ≤ word a := by
    rw [BitVec.le_def, ← BitVec.toNat_inj]
    simp at total ⊢
    omega
  rw [Schnorr.feModN]
  simp only [borrows]
  split_ifs with above
  · apply BitVec.eq_of_toNat_eq
    rw [BitVec.toNat_sub_of_le above]
    rw [borrows.mpr above] at total
    simp at total
    omega
  · rfl

theorem normalise_word (d : Limbs 4) : word (normalise d) = Schnorr.normalise (word d) := by
  rw [normalise, Schnorr.normalise, ← scGeqN_word, ← scSubN_word]
  exact apply_ite word _ _ _

end Limbs

end LispRlm.Schnorr
