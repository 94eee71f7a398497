import LispRlm.WasmEmit.U256Helpers

/-! The square root helper of the emitted code: digit by digit, with a compare, a borrow chain and
shifts over four words. -/

namespace LispRlm.WasmEmit

open Foundation LinearMemory

namespace U256

/-! ### `h_u256_isqrt` -/

/-- The place of the highest bit, from the highest word that is not zero. -/
def highestBit (xs : List I64) : I64 :=
  let base : I64 :=
    if xs.getD 3 0 ≠ 0 then 192 else if xs.getD 2 0 ≠ 0 then 128
    else if xs.getD 1 0 ≠ 0 then 64 else 0
  let limb :=
    if base = 192 then xs.getD 3 0 else if base = 128 then xs.getD 2 0
    else if base = 64 then xs.getD 1 0 else xs.getD 0 0
  base + (limb.clz ^^^ 63)

/-- The highest power of four, in its word. -/
def startPower (xs : List I64) : List I64 :=
  let pos := highestBit xs &&& -2
  let sel := pos >>> 6
  let bit : I64 := (1 : I64) <<< (pos &&& 63).toNat
  (List.replicate 4 0).set
    (if sel = 0 then 0 else if sel = 1 then 1 else if sel = 2 then 2 else 3) bit

/-- The differences; a difference above its word has borrowed. -/
def subtractWords (borrow : I64) : List I64 → List I64 → List I64
  | x :: xs, b :: bs =>
      let d := x - b - borrow
      d :: subtractWords (Op.ofBool (x.ult d)) xs bs
  | _, _ => []

structure RootState where
  x : List I64
  y : List I64
  m : List I64

namespace RootState

def trial (s : RootState) : List I64 := List.zipWith (· ||| ·) s.y s.m

/-- The compare. Of the seven values on the stack its four operators take five: the compare of the
highest words is left there. -/
def takes (s : RootState) : Bool :=
  Halves.geqWindows (s.x.take 3).reverse (s.trial.take 3).reverse

def round (s : RootState) : RootState :=
  let y := bitsDown 1 s.y
  if s.takes then
    ⟨subtractWords 0 s.x s.trial, List.zipWith (· ||| ·) y s.m, bitsDown 2 s.m⟩
  else ⟨s.x, y, bitsDown 2 s.m⟩

/-- The rounds, until `m` is zero. -/
def rounds : Nat → RootState → Option (List I64)
  | 0, _ => none
  | fuel + 1, s =>
      if s.round.m.foldl (· ||| ·) 0 = 0 then some s.round.y else rounds fuel s.round

/-- Every difference that is taken is the true one. -/
def Differences : Nat → RootState → Prop
  | 0, _ => True
  | fuel + 1, s =>
      (s.takes → Foundation.Limbs.value s.round.x + Foundation.Limbs.value s.trial =
        Foundation.Limbs.value s.x) ∧
        (s.round.m.foldl (· ||| ·) 0 ≠ 0 → Differences fuel s.round)

end RootState

def rootStart (xs : List I64) : RootState := ⟨xs, List.replicate 4 0, startPower xs⟩

/-- As many rounds as there can be. -/
def rootRounds : Nat := 128

def hIsqrt (m : LinearMemory) (n dst : I64) : Option LinearMemory := do
  let xs ← m.loadWords n 0 4
  let y ← (rootStart xs).rounds rootRounds
  storeWords dst m 0 (y.take 2)

/-! ### The numbers of the rounds -/

def root (n k : Nat) : Nat := Nat.sqrt (n / 4 ^ k)

def rest (n k : Nat) : Nat := n - root n k ^ 2 * 4 ^ k

/-- What is subtracted at the power `4 ^ k`, if it fits. -/
def trialAt (n k : Nat) : Nat := (4 * root n (k + 1) + 1) * 4 ^ k

/-- The power of the first round. -/
def firstPower (n : Nat) : Nat := if n = 0 then 63 else Nat.log2 n / 2

/-- The code goes right at the power `4 ^ k`: the compare does not need the highest words, and no
middle word of what is subtracted is all ones where a borrow comes in. -/
def Sound (n k : Nat) : Prop :=
  (trialAt n k % 2 ^ (64 * 3) ≤ rest n (k + 1) % 2 ^ (64 * 3) ↔ trialAt n k ≤ rest n (k + 1)) ∧
    (trialAt n k ≤ rest n (k + 1) → ∀ j, j = 1 ∨ j = 2 →
      ¬(trialAt n k / 2 ^ (64 * j) % 2 ^ 64 = 2 ^ 64 - 1 ∧
        rest n (k + 1) % 2 ^ (64 * j) < trialAt n k % 2 ^ (64 * j)))

theorem root_mul_le (n k : Nat) : root n k ^ 2 * 4 ^ k ≤ n := by
  have square := Nat.sqrt_le' (n / 4 ^ k)
  exact (Nat.mul_le_mul_right _ square).trans (Nat.div_mul_le_self n _)

/-- What is tried fits exactly if the root's next bit is set. -/
theorem trialAt_le_iff (n k : Nat) :
    trialAt n k ≤ rest n (k + 1) ↔ (2 * root n (k + 1) + 1) ^ 2 ≤ n / 4 ^ k := by
  have below := root_mul_le n (k + 1)
  rw [Nat.le_div_iff_mul_le (Nat.pow_pos (by decide))]
  unfold trialAt rest
  rw [Nat.le_sub_iff_add_le below]
  have square : (4 * root n (k + 1) + 1) * 4 ^ k + root n (k + 1) ^ 2 * 4 ^ (k + 1) =
      (2 * root n (k + 1) + 1) ^ 2 * 4 ^ k := by ring
  rw [square]

theorem root_step (n k : Nat) :
    root n k = 2 * root n (k + 1) + (decide (trialAt n k ≤ rest n (k + 1))).toNat := by
  have quarter : n / 4 ^ (k + 1) = n / 4 ^ k / 4 := by
    rw [Nat.pow_succ, Nat.div_div_eq_div_mul]
  have low := Nat.sqrt_le' (n / 4 ^ k / 4)
  have high := Nat.lt_succ_sqrt' (n / 4 ^ k / 4)
  rw [← quarter] at low high
  have lower : root n (k + 1) ^ 2 ≤ n / 4 ^ (k + 1) := low
  have upper : n / 4 ^ (k + 1) < (root n (k + 1) + 1) ^ 2 := high
  rw [quarter] at lower upper
  have fits := trialAt_le_iff n k
  have fourLow : (2 * root n (k + 1)) ^ 2 ≤ n / 4 ^ k := by
    have := Nat.div_mul_le_self (n / 4 ^ k) 4
    calc (2 * root n (k + 1)) ^ 2 = root n (k + 1) ^ 2 * 4 := by ring
      _ ≤ n / 4 ^ k / 4 * 4 := Nat.mul_le_mul_right 4 lower
      _ ≤ n / 4 ^ k := this
  have fourHigh : n / 4 ^ k < (2 * root n (k + 1) + 2) ^ 2 := by
    have whole : n / 4 ^ k < (n / 4 ^ k / 4 + 1) * 4 := by omega
    calc n / 4 ^ k < (n / 4 ^ k / 4 + 1) * 4 := whole
      _ ≤ (root n (k + 1) + 1) ^ 2 * 4 := Nat.mul_le_mul_right 4 upper
      _ = (2 * root n (k + 1) + 2) ^ 2 := by ring
  rw [root]
  symm
  by_cases taken : trialAt n k ≤ rest n (k + 1)
  · rw [decide_eq_true taken, Bool.toNat_true]
    exact Nat.eq_sqrt'.mpr ⟨fits.mp taken, fourHigh⟩
  · rw [decide_eq_false taken, Bool.toNat_false]
    exact Nat.eq_sqrt'.mpr ⟨fourLow, Nat.lt_of_not_le (mt fits.mpr taken)⟩

theorem rest_step (n k : Nat) :
    rest n k = if trialAt n k ≤ rest n (k + 1) then rest n (k + 1) - trialAt n k
      else rest n (k + 1) := by
  have step := root_step n k
  split_ifs with taken
  · rw [decide_eq_true taken, Bool.toNat_true] at step
    unfold rest trialAt at taken ⊢
    rw [step, Nat.sub_sub]
    congr 1
    ring
  · rw [decide_eq_false taken, Bool.toNat_false, Nat.add_zero] at step
    unfold rest
    rw [step]
    congr 1
    ring

/-! ### Words -/

theorem or_split (a b c d : Nat) (smallA : a < 2 ^ 64) (smallB : b < 2 ^ 64) :
    (a + 2 ^ 64 * c) ||| (b + 2 ^ 64 * d) = (a ||| b) + 2 ^ 64 * (c ||| d) := by
  have small : a ||| b < 2 ^ 64 := Nat.or_lt_two_pow smallA smallB
  apply Nat.eq_of_testBit_eq
  intro i
  rw [Nat.testBit_or, Nat.add_comm a, Nat.add_comm b, Nat.add_comm (a ||| b),
    Nat.testBit_two_pow_mul_add _ smallA, Nat.testBit_two_pow_mul_add _ smallB,
    Nat.testBit_two_pow_mul_add _ small, Nat.testBit_or, Nat.testBit_or]
  split_ifs <;> rfl

theorem value_or {as bs : List I64} (same : as.length = bs.length) :
    Foundation.Limbs.value (List.zipWith (· ||| ·) as bs) =
      Foundation.Limbs.value as ||| Foundation.Limbs.value bs := by
  induction as generalizing bs with
  | nil => cases bs with
    | nil => rfl
    | cons b bs => simp at same
  | cons a as ih =>
      cases bs with
      | nil => simp at same
      | cons b bs =>
          rw [List.zipWith_cons_cons, Foundation.Limbs.value_cons, ih (Nat.succ.inj same),
            Foundation.Limbs.value_cons,
            Foundation.Limbs.value_cons, or_split _ _ _ _ a.isLt b.isLt, BitVec.toNat_or]

/-- A bit below the others. -/
theorem or_low (a k b : Nat) (small : b < 2 ^ k) : a * 2 ^ k ||| b = a * 2 ^ k + b := by
  rw [← Nat.shiftLeft_eq, Nat.shiftLeft_add_eq_or_of_lt small]

theorem four_pow (k : Nat) : 4 ^ k = 2 ^ (2 * k) := by
  rw [Nat.pow_mul]

theorem value_take {ws : List I64} {n : Nat} (room : n ≤ ws.length) :
    Foundation.Limbs.value (ws.take n) = Foundation.Limbs.value ws % 2 ^ (64 * n) := by
  have below := Foundation.Limbs.value_lt (ws.take n)
  have split : Foundation.Limbs.value ws =
      Foundation.Limbs.value (ws.take n) + 2 ^ (64 * n) * Foundation.Limbs.value (ws.drop n) := by
    conv_lhs => rw [← List.take_append_drop n ws, Foundation.Limbs.value_append, List.length_take,
      Nat.min_eq_left room]
  rw [List.length_take, Nat.min_eq_left room] at below
  rw [split, Nat.add_mul_mod_self_left, Nat.mod_eq_of_lt below]

theorem takes_iff {s : RootState} (lengthX : s.x.length = 4) (lengthT : s.trial.length = 4) :
    s.takes = true ↔
      Foundation.Limbs.value s.trial % 2 ^ (64 * 3) ≤
        Foundation.Limbs.value s.x % 2 ^ (64 * 3) := by
  have same : (s.x.take 3).reverse.length = (s.trial.take 3).reverse.length := by
    rw [List.length_reverse, List.length_reverse, List.length_take, List.length_take, lengthX,
      lengthT]
  rw [RootState.takes, Halves.geqWindows_eq same, Foundation.Limbs.geqDown_iff same,
    List.reverse_reverse,
    List.reverse_reverse, value_take (by omega), value_take (by omega)]

/-! ### The borrow chain -/

/-- A word of ones is to be subtracted and a borrow comes in. -/
def Lost (borrow : I64) : List I64 → List I64 → Prop
  | x :: x' :: xs, b :: b' :: bs =>
      (b = -1 ∧ borrow = 1) ∨ Lost (Op.ofBool (x.ult (x - b - borrow))) (x' :: xs) (b' :: bs)
  | _, _ => False

theorem subtractWords_step {x b borrow : I64} (bit : borrow.toNat ≤ 1)
    (kept : ¬(b = -1 ∧ borrow = 1)) :
    (x - b - borrow).toNat + b.toNat + borrow.toNat =
      x.toNat + 2 ^ 64 * (Op.ofBool (x.ult (x - b - borrow))).toNat := by
  have boundX := x.isLt
  have boundB := b.isLt
  have full : b.toNat + borrow.toNat < 2 ^ 64 := by
    by_contra exceeds
    refine kept ⟨BitVec.eq_of_toNat_eq ?_, BitVec.eq_of_toNat_eq ?_⟩
    · rw [show (-1 : I64).toNat = 2 ^ 64 - 1 from rfl]
      omega
    · rw [show (1 : I64).toNat = 1 from rfl]
      omega
  have value : (x - b - borrow).toNat =
      (2 ^ 64 - borrow.toNat + (2 ^ 64 - b.toNat + x.toNat) % 2 ^ 64) % 2 ^ 64 := by
    rw [BitVec.toNat_sub, BitVec.toNat_sub]
  rw [U128.ofBool_toNat, U128.ult_eq, value]
  by_cases borrows : x.toNat < b.toNat + borrow.toNat
  · rw [decide_eq_true (by omega), Bool.toNat_true]
    omega
  · rw [decide_eq_false (by omega), Bool.toNat_false]
    omega

theorem subtractWords_length {borrow : I64} {xs bs : List I64} (same : xs.length = bs.length) :
    (subtractWords borrow xs bs).length = xs.length := by
  induction xs generalizing bs borrow with
  | nil => rfl
  | cons x xs ih =>
      cases bs with
      | nil => simp at same
      | cons b bs => exact congrArg (· + 1) (ih (Nat.succ.inj same))

/-- The lowest word of the differences is right in any case. -/
theorem subtractWords_low {borrow x b : I64} {xs bs : List I64} :
    Foundation.Limbs.value (subtractWords borrow (x :: xs) (b :: bs)) +
        Foundation.Limbs.value (b :: bs) + borrow.toNat ≡
      Foundation.Limbs.value (x :: xs) [MOD 2 ^ 64] := by
  have boundX := x.isLt
  have boundB := b.isLt
  have boundC := borrow.isLt
  have value : (x - b - borrow).toNat =
      (2 ^ 64 - borrow.toNat + (2 ^ 64 - b.toNat + x.toNat) % 2 ^ 64) % 2 ^ 64 := by
    rw [BitVec.toNat_sub, BitVec.toNat_sub]
  rw [subtractWords, Foundation.Limbs.value_cons, Foundation.Limbs.value_cons,
    Foundation.Limbs.value_cons, value, Nat.ModEq]
  omega

theorem shifted_modEq {x a b n : Nat} :
    x + 2 ^ 64 * a ≡ x + 2 ^ 64 * b [MOD 2 ^ 64 * 2 ^ n] ↔ a ≡ b [MOD 2 ^ n] :=
  ⟨fun same => Nat.ModEq.mul_left_cancel' (Nat.two_pow_pos 64).ne' (same.add_left_cancel' x),
    fun same => (same.mul_left' (2 ^ 64)).add_left x⟩

/-- The differences are those of the numbers exactly if no borrow is lost. -/
theorem subtractWords_iff {borrow : I64} {xs bs : List I64} (same : xs.length = bs.length)
    (bit : borrow.toNat ≤ 1) :
    Foundation.Limbs.value (subtractWords borrow xs bs) + Foundation.Limbs.value bs +
        borrow.toNat ≡ Foundation.Limbs.value xs
        [MOD 2 ^ (64 * xs.length)] ↔ ¬Lost borrow xs bs := by
  induction xs generalizing bs borrow with
  | nil =>
      obtain rfl : bs = [] := List.eq_nil_of_length_eq_zero same.symm
      exact iff_of_true (by simp [Nat.ModEq, Nat.mod_one]) (by simp [Lost])
  | cons x xs ih =>
      cases bs with
      | nil => simp at same
      | cons b bs =>
          cases xs with
          | nil =>
              obtain rfl : bs = [] := List.eq_nil_of_length_eq_zero (Nat.succ.inj same).symm
              exact iff_of_true subtractWords_low (by simp [Lost])
          | cons x' xs =>
              cases bs with
              | nil => simp at same
              | cons b' bs =>
                  have next : (Op.ofBool (x.ult (x - b - borrow))).toNat ≤ 1 := by
                    rw [U128.ofBool_toNat]
                    exact Bool.toNat_le _
                  have inner := ih (Nat.succ.inj same) next
                  have low := @subtractWords_low (Op.ofBool (x.ult (x - b - borrow)))
                    x' b' xs bs
                  rw [Lost, not_or, List.length_cons, power_succ, subtractWords,
                    Foundation.Limbs.value_cons,
                    Foundation.Limbs.value_cons b, Foundation.Limbs.value_cons x]
                  generalize Foundation.Limbs.value (b' :: bs) = above at *
                  generalize Foundation.Limbs.value (x' :: xs) = whole at *
                  by_cases lost : b = -1 ∧ borrow = 1
                  · refine iff_of_false ?_ (fun kept => kept.1 lost)
                    obtain ⟨rfl, rfl⟩ := lost
                    have same : x - -1 - 1 = x := by
                      rw [BitVec.sub_sub]
                      exact BitVec.sub_zero x
                    have none : Op.ofBool (x.ult x) = 0 := by
                      rw [U128.ult_eq, decide_eq_false (Nat.lt_irrefl _)]
                      rfl
                    rw [same, none] at low ⊢
                    generalize Foundation.Limbs.value (subtractWords 0 (x' :: xs) (b' :: bs)) =
                      differences at *
                    have sum : x.toNat + 2 ^ 64 * differences +
                        ((-1 : I64).toNat + 2 ^ 64 * above) + (1 : I64).toNat =
                        x.toNat + 2 ^ 64 * (differences + above + 1) := by
                      rw [show (-1 : I64).toNat = 2 ^ 64 - 1 from rfl,
                        show (1 : I64).toNat = 1 from rfl]
                      omega
                    rw [sum, shifted_modEq]
                    intro congruent
                    have short := congruent.of_dvd (Nat.pow_dvd_pow 2
                      (show 64 ≤ 64 * (x' :: xs).length by rw [List.length_cons]; omega))
                    have zero : (0 : I64).toNat = 0 := rfl
                    rw [zero, Nat.add_zero] at low
                    rw [Nat.ModEq] at low short
                    omega
                  · have here := subtractWords_step (x := x) bit lost
                    generalize Foundation.Limbs.value
                      (subtractWords (Op.ofBool (x.ult (x - b - borrow)))
                      (x' :: xs) (b' :: bs)) = differences at *
                    have sum : (x - b - borrow).toNat + 2 ^ 64 * differences +
                        (b.toNat + 2 ^ 64 * above) + borrow.toNat =
                        x.toNat + 2 ^ 64 * (differences + above +
                          (Op.ofBool (x.ult (x - b - borrow))).toNat) := by
                      linear_combination here
                    rw [sum, shifted_modEq, inner]
                    exact (and_iff_right lost).symm

theorem borrow_one {x b borrow : I64} (bit : borrow.toNat ≤ 1) (kept : ¬(b = -1 ∧ borrow = 1)) :
    Op.ofBool (x.ult (x - b - borrow)) = 1 ↔ x.toNat < b.toNat + borrow.toNat := by
  have step := subtractWords_step (x := x) bit kept
  have boundX := x.isLt
  have boundD := (x - b - borrow).isLt
  rw [← BitVec.toNat_inj, show (1 : I64).toNat = 1 from rfl]
  rw [U128.ofBool_toNat] at step ⊢
  generalize x.ult (x - b - borrow) = out at *
  cases out
  · rw [Bool.toNat_false] at *
    omega
  · rw [Bool.toNat_true] at *
    omega

theorem ones (b : I64) : b = -1 ↔ b.toNat = 2 ^ 64 - 1 := by
  rw [← BitVec.toNat_inj]
  rfl

theorem lost_iff {xs bs : List I64} (lengthX : xs.length = 4) (lengthB : bs.length = 4) :
    Lost 0 xs bs ↔ ∃ j, (j = 1 ∨ j = 2) ∧
      (Foundation.Limbs.value bs / 2 ^ (64 * j) % 2 ^ 64 = 2 ^ 64 - 1 ∧
        Foundation.Limbs.value xs % 2 ^ (64 * j) < Foundation.Limbs.value bs % 2 ^ (64 * j)) := by
  obtain ⟨x0, x1, x2, x3, rfl⟩ := List.length_eq_four.mp lengthX
  obtain ⟨b0, b1, b2, b3, rfl⟩ := List.length_eq_four.mp lengthB
  have zero : (0 : I64).toNat = 0 := rfl
  have first : ¬(b0 = -1 ∧ (0 : I64) = 1) := fun both => by cases both.2
  have carry := borrow_one (x := x0) (b := b0)
    (show (0 : I64).toNat ≤ 1 by decide) first
  rw [zero, Nat.add_zero] at carry
  have bit : (Op.ofBool (x0.ult (x0 - b0 - 0))).toNat ≤ 1 := by
    rw [U128.ofBool_toNat]
    exact Bool.toNat_le _
  have carried : (Op.ofBool (x0.ult (x0 - b0 - 0))).toNat =
      if x0.toNat < b0.toNat then 1 else 0 := by
    split_ifs with less
    · rw [carry.mpr less]
      rfl
    · have other := mt carry.mp less
      rw [← BitVec.toNat_inj, show (1 : I64).toNat = 1 from rfl] at other
      omega
  have w0 := x0.isLt
  have w1 := x1.isLt
  have v0 := b0.isLt
  have v1 := b1.isLt
  have v2 := b2.isLt
  have lowX : Foundation.Limbs.value [x0, x1, x2, x3] % 2 ^ (64 * 1) = x0.toNat := by
    simp only [Foundation.Limbs.value_cons, Foundation.Limbs.value_nil]
    omega
  have lowB : Foundation.Limbs.value [b0, b1, b2, b3] % 2 ^ (64 * 1) = b0.toNat := by
    simp only [Foundation.Limbs.value_cons, Foundation.Limbs.value_nil]
    omega
  have pairX : Foundation.Limbs.value [x0, x1, x2, x3] % 2 ^ (64 * 2) =
      x0.toNat + 2 ^ 64 * x1.toNat := by
    simp only [Foundation.Limbs.value_cons, Foundation.Limbs.value_nil]
    omega
  have pairB : Foundation.Limbs.value [b0, b1, b2, b3] % 2 ^ (64 * 2) =
      b0.toNat + 2 ^ 64 * b1.toNat := by
    simp only [Foundation.Limbs.value_cons, Foundation.Limbs.value_nil]
    omega
  have second : Foundation.Limbs.value [b0, b1, b2, b3] / 2 ^ (64 * 1) % 2 ^ 64 = b1.toNat := by
    simp only [Foundation.Limbs.value_cons, Foundation.Limbs.value_nil]
    omega
  have third : Foundation.Limbs.value [b0, b1, b2, b3] / 2 ^ (64 * 2) % 2 ^ 64 = b2.toNat := by
    simp only [Foundation.Limbs.value_cons, Foundation.Limbs.value_nil]
    omega
  have split : Lost 0 [x0, x1, x2, x3] [b0, b1, b2, b3] ↔
      (b1 = -1 ∧ Op.ofBool (x0.ult (x0 - b0 - 0)) = 1) ∨
        (b2 = -1 ∧ Op.ofBool (x1.ult (x1 - b1 - Op.ofBool (x0.ult (x0 - b0 - 0)))) = 1) := by
    simp only [Lost, first, false_or, or_false]
  rw [split]
  constructor
  · rintro (⟨full, borrows⟩ | ⟨full, borrows⟩)
    · refine ⟨1, .inl rfl, ?_, ?_⟩
      · rw [second]
        exact (ones b1).mp full
      · rw [lowX, lowB]
        exact carry.mp borrows
    · by_cases lost : b1 = -1 ∧ Op.ofBool (x0.ult (x0 - b0 - 0)) = 1
      · refine ⟨1, .inl rfl, ?_, ?_⟩
        · rw [second]
          exact (ones b1).mp lost.1
        · rw [lowX, lowB]
          exact carry.mp lost.2
      · have less := (borrow_one bit lost).mp borrows
        refine ⟨2, .inr rfl, ?_, ?_⟩
        · rw [third]
          exact (ones b2).mp full
        · rw [pairX, pairB]
          rw [carried] at less
          split_ifs at less <;> omega
  · rintro ⟨j, rfl | rfl, full, less⟩
    · rw [second] at full
      rw [lowX, lowB] at less
      exact .inl ⟨(ones b1).mpr full, carry.mpr less⟩
    · rw [third] at full
      rw [pairX, pairB] at less
      by_cases lost : b1 = -1 ∧ Op.ofBool (x0.ult (x0 - b0 - 0)) = 1
      · exact .inl lost
      · refine .inr ⟨(ones b2).mpr full, (borrow_one bit lost).mpr ?_⟩
        rw [carried]
        split_ifs <;> omega

/-! ### The first power -/

theorem clz_xor {w : I64} (some : w ≠ 0) :
    (w.clz ^^^ 63).toNat < 64 ∧ 2 ^ (w.clz ^^^ 63).toNat ≤ w.toNat ∧
      w.toNat < 2 ^ ((w.clz ^^^ 63).toNat + 1) := by
  have turned : ∀ c < 64, c ^^^ 63 = 63 - c := by decide
  have few : w.clz.toNat < 64 := BitVec.clz_lt_iff_ne_zero.mpr some
  have low := BitVec.two_pow_sub_clz_le_toNat_of_ne_zero (by decide) some
  have high := BitVec.toNat_lt_two_pow_sub_clz (x := w)
  have value : (w.clz ^^^ 63).toNat = 63 - w.clz.toNat := by
    rw [BitVec.toNat_xor]
    exact turned _ few
  rw [value]
  refine ⟨by omega, low, ?_⟩
  rwa [show 63 - w.clz.toNat + 1 = 64 - w.clz.toNat by omega]

theorem highestBit_toNat {xs : List I64} (length : xs.length = 4) :
    (highestBit xs).toNat =
      if Foundation.Limbs.value xs = 0 then 127 else Nat.log2 (Foundation.Limbs.value xs) := by
  obtain ⟨x0, x1, x2, x3, rfl⟩ := List.length_eq_four.mp length
  have w0 := x0.isLt
  have w1 := x1.isLt
  have w2 := x2.isLt
  have words : Foundation.Limbs.value [x0, x1, x2, x3] =
      x0.toNat + 2 ^ 64 * x1.toNat + 2 ^ 128 * x2.toNat + 2 ^ 192 * x3.toNat := by
    simp only [Foundation.Limbs.value_cons, Foundation.Limbs.value_nil]
    ring
  have zero : ∀ w : I64, w = 0 ↔ w.toNat = 0 := fun w => by
    rw [← BitVec.toNat_inj]
    rfl
  -- the word found is the highest that is not zero: `low` is what the words under it make
  have found (base low : Nat) (w : I64) (some : w ≠ 0) (small : low < 2 ^ base) (room : base ≤ 192)
      (whole : Foundation.Limbs.value [x0, x1, x2, x3] = low + 2 ^ base * w.toNat) :
      (BitVec.ofNat 64 base + (w.clz ^^^ 63)).toNat =
        if Foundation.Limbs.value [x0, x1, x2, x3] = 0 then 127
        else Nat.log2 (Foundation.Limbs.value [x0, x1, x2, x3]) := by
    obtain ⟨bound, least, most⟩ := clz_xor some
    have sum : (BitVec.ofNat 64 base + (w.clz ^^^ 63)).toNat = base + (w.clz ^^^ 63).toNat := by
      rw [BitVec.toNat_add, BitVec.toNat_ofNat]
      omega
    generalize (w.clz ^^^ 63).toNat = place at *
    have lower : 2 ^ (base + place) ≤ Foundation.Limbs.value [x0, x1, x2, x3] := by
      rw [whole, Nat.pow_add]
      exact (Nat.mul_le_mul_left _ least).trans (Nat.le_add_left _ _)
    have upper : Foundation.Limbs.value [x0, x1, x2, x3] < 2 ^ (base + place + 1) := by
      rw [whole, Nat.add_assoc, Nat.pow_add]
      calc low + 2 ^ base * w.toNat < 2 ^ base * (w.toNat + 1) := by
            rw [Nat.mul_succ]
            omega
        _ ≤ 2 ^ base * 2 ^ (place + 1) := Nat.mul_le_mul_left _ most
    have positive : Foundation.Limbs.value [x0, x1, x2, x3] ≠ 0 := by
      have power := Nat.two_pow_pos (base + place)
      omega
    rw [if_neg positive, sum]
    exact ((Nat.log2_eq_iff positive).mpr ⟨lower, upper⟩).symm
  simp only [highestBit, List.getD_cons_zero, List.getD_cons_succ]
  by_cases top : x3 = 0
  · by_cases third : x2 = 0
    · by_cases second : x1 = 0
      · by_cases first : x0 = 0
        · subst top third second first
          decide
        · subst top third second
          simp only [ne_eq, not_true_eq_false, if_false]
          exact found 0 0 x0 first (by decide) (by decide) (by rw [words]; simp)
      · subst top third
        simp only [ne_eq, not_true_eq_false, if_false, second, not_false_eq_true, if_true]
        exact found 64 x0.toNat x1 second w0 (by decide) (by rw [words]; simp)
    · subst top
      simp only [ne_eq, not_true_eq_false, if_false, third, not_false_eq_true, if_true]
      exact found 128 (x0.toNat + 2 ^ 64 * x1.toNat) x2 third (by omega) (by decide)
        (by rw [words]; simp)
  · simp only [ne_eq, top, not_false_eq_true, if_true]
    exact found 192 (x0.toNat + 2 ^ 64 * x1.toNat + 2 ^ 128 * x2.toNat) x3 top (by omega)
      (by decide) words

theorem firstPower_eq {xs : List I64} (length : xs.length = 4) :
    (highestBit xs).toNat / 2 = firstPower (Foundation.Limbs.value xs) := by
  rw [highestBit_toNat length, firstPower]
  split_ifs <;> rfl

theorem firstPower_le {n : Nat} (small : n < 2 ^ 256) : firstPower n ≤ 127 := by
  unfold firstPower
  split_ifs with zero
  · decide
  · have place := (Nat.log2_lt zero).mpr small
    omega

/-- Before the first round the root is zero. -/
theorem root_first {n : Nat} : root n (firstPower n + 1) = 0 := by
  have small : n < 4 ^ (firstPower n + 1) := by
    unfold firstPower
    split_ifs with zero
    · rw [zero]
      decide
    · rw [four_pow]
      exact (Nat.log2_lt zero).mp (by omega)
  rw [root, Nat.div_eq_of_lt small]
  rfl

theorem value_unit (w : I64) {i : Nat} (low : i < 4) :
    Foundation.Limbs.value ((List.replicate 4 (0 : I64)).set i w) = w.toNat * 2 ^ (64 * i) := by
  have placed := Foundation.Limbs.value_set
    (show i < (List.replicate 4 (0 : I64)).length by rw [List.length_replicate]; exact low) w
  have zero : (List.replicate 4 (0 : I64)).getD i 0 = 0 := by
    rw [List.getD_eq_getElem?_getD, List.getElem?_replicate_of_lt low]
    rfl
  rw [zero, value_zeros, show (0 : I64).toNat = 0 from rfl, Nat.mul_zero, Nat.add_zero,
    Nat.zero_add] at placed
  rw [placed, Nat.mul_comm]

theorem startPower_spec {xs : List I64} (length : xs.length = 4) :
    (startPower xs).length = 4 ∧
      Foundation.Limbs.value (startPower xs) = 4 ^ firstPower (Foundation.Limbs.value xs) := by
  refine ⟨by rw [startPower, List.length_set, List.length_replicate], ?_⟩
  have small : (highestBit xs).toNat < 256 := by
    rw [highestBit_toNat length]
    split_ifs with zero
    · decide
    · have bound := Foundation.Limbs.value_lt xs
      rw [length] at bound
      exact (Nat.log2_lt zero).mpr bound
  have even : (highestBit xs &&& -2).toNat = 2 * ((highestBit xs).toNat / 2) := by
    have cleared : ∀ h < 256, h &&& (2 ^ 64 - 2) = 2 * (h / 2) := by decide +kernel
    rw [BitVec.toNat_and]
    exact cleared _ small
  have sel : ((highestBit xs &&& -2) >>> 6).toNat = 2 * ((highestBit xs).toNat / 2) / 64 := by
    rw [BitVec.toNat_ushiftRight, Nat.shiftRight_eq_div_pow, even]
  have offset : ((highestBit xs &&& -2) &&& 63).toNat = 2 * ((highestBit xs).toNat / 2) % 64 := by
    rw [low_bits, even]
  have index : (if (highestBit xs &&& -2) >>> 6 = 0 then 0 else if (highestBit xs &&& -2) >>> 6 = 1
      then 1 else if (highestBit xs &&& -2) >>> 6 = 2 then 2 else 3) =
      2 * ((highestBit xs).toNat / 2) / 64 := by
    simp only [← BitVec.toNat_inj, sel, show (0 : I64).toNat = 0 from rfl,
      show (1 : I64).toNat = 1 from rfl, show (2 : I64).toNat = 2 from rfl]
    split_ifs <;> omega
  have bit : ((1 : I64) <<< (2 * ((highestBit xs).toNat / 2) % 64)).toNat =
      2 ^ (2 * ((highestBit xs).toNat / 2) % 64) := by
    have power : 2 ^ (2 * ((highestBit xs).toNat / 2) % 64) < 2 ^ 64 :=
      Nat.pow_lt_pow_right (by decide) (Nat.mod_lt _ (by decide))
    rw [BitVec.toNat_shiftLeft, Nat.shiftLeft_eq, show (1 : I64).toNat = 1 from rfl, Nat.one_mul]
    exact Nat.mod_eq_of_lt power
  rw [startPower, index, offset, value_unit _ (by omega), bit, ← Nat.pow_add, ← firstPower_eq length,
    four_pow]
  congr 1
  omega

/-! ### Rounds -/

/-- The words before the round at `4 ^ k` are numbers of this kind, whatever went before. -/
structure At (k : Nat) (ρ : Nat) (s : RootState) : Prop where
  lengthX : s.x.length = 4
  lengthY : s.y.length = 4
  lengthM : s.m.length = 4
  digits : Foundation.Limbs.value s.y = ρ * 4 ^ (k + 1)
  power : Foundation.Limbs.value s.m = 4 ^ k

theorem At.trial_length {k ρ : Nat} {s : RootState} (at' : At k ρ s) : s.trial.length = 4 := by
  rw [RootState.trial, List.length_zipWith, at'.lengthY, at'.lengthM]
  rfl

theorem At.trial_value {k ρ : Nat} {s : RootState} (at' : At k ρ s) :
    Foundation.Limbs.value s.trial = (4 * ρ + 1) * 4 ^ k := by
  have small : 4 ^ k < 2 ^ (2 * (k + 1)) := by
    rw [four_pow]
    exact Nat.pow_lt_pow_right (by decide) (by omega)
  rw [RootState.trial, value_or (at'.lengthY.trans at'.lengthM.symm), at'.digits, at'.power,
    four_pow (k + 1), or_low _ _ _ small, ← four_pow, Nat.pow_succ]
  ring

/-- After a round there is a bit more of the root. -/
theorem At.round_y {k ρ : Nat} {s : RootState} (at' : At k ρ s) :
    s.round.y.length = 4 ∧ Foundation.Limbs.value s.round.y = (2 * ρ + s.takes.toNat) * 4 ^ k := by
  obtain ⟨length, half⟩ := bitsDown_spec (show 1 < 64 by decide) s.y
  have halved : Foundation.Limbs.value (bitsDown 1 s.y) = 2 * ρ * 4 ^ k := by
    rw [half, at'.digits, Nat.pow_succ, Nat.pow_one]
    refine Nat.div_eq_of_eq_mul_left (by decide) ?_
    ring
  unfold RootState.round
  cases s.takes
  · exact ⟨length.trans at'.lengthY, halved⟩
  · have same : (bitsDown 1 s.y).length = s.m.length :=
      length.trans (at'.lengthY.trans at'.lengthM.symm)
    refine ⟨?_, ?_⟩
    · simp only [if_true, List.length_zipWith, length, at'.lengthY, at'.lengthM]
      rfl
    · have small : 4 ^ k < 2 ^ (2 * k + 1) := by
        rw [four_pow]
        exact Nat.pow_lt_pow_right (by decide) (by omega)
      have shifted : 2 * ρ * 4 ^ k = ρ * 2 ^ (2 * k + 1) := by
        rw [four_pow, Nat.pow_succ]
        ring
      simp only [if_true]
      rw [value_or same, halved, at'.power, shifted, or_low _ _ _ small, ← shifted, Bool.toNat_true]
      ring

theorem At.round_m {k ρ : Nat} {s : RootState} (at' : At k ρ s) :
    s.round.m.length = 4 ∧ Foundation.Limbs.value s.round.m = 4 ^ k / 4 := by
  obtain ⟨length, quarter⟩ := bitsDown_spec (show 2 < 64 by decide) s.m
  rw [at'.power] at quarter
  unfold RootState.round
  cases s.takes
  · exact ⟨length.trans at'.lengthM, quarter⟩
  · exact ⟨length.trans at'.lengthM, quarter⟩

theorem At.round_x {k ρ : Nat} {s : RootState} (at' : At k ρ s) : s.round.x.length = 4 := by
  unfold RootState.round
  cases s.takes
  · exact at'.lengthX
  · exact (subtractWords_length (at'.lengthX.trans at'.trial_length.symm)).trans at'.lengthX

theorem At.done_iff {k ρ : Nat} {s : RootState} (at' : At k ρ s) :
    s.round.m.foldl (· ||| ·) 0 = 0 ↔ k = 0 := by
  rw [words_zero, at'.round_m.2]
  cases k with
  | zero => exact iff_of_true rfl rfl
  | succ k =>
      have power : 0 < 4 ^ k := Nat.pow_pos (by decide)
      rw [Nat.pow_succ, Nat.mul_div_cancel _ (by decide)]
      omega

theorem At.next {k ρ : Nat} {s : RootState} (at' : At (k + 1) ρ s) :
    At k (2 * ρ + s.takes.toNat) s.round := by
  refine ⟨at'.round_x, at'.round_y.1, at'.round_m.1, at'.round_y.2, ?_⟩
  rw [at'.round_m.2, Nat.pow_succ, Nat.mul_div_cancel _ (by decide)]

/-- The rounds come to an end, with the bits found so far in front. -/
theorem At.rounds {k ρ fuel : Nat} {s : RootState} (at' : At k ρ s) (enough : k < fuel) :
    ∃ y, s.rounds fuel = some y ∧ y.length = 4 ∧
      ρ * 2 ^ (k + 1) ≤ Foundation.Limbs.value y ∧
        Foundation.Limbs.value y < (ρ + 1) * 2 ^ (k + 1) := by
  have bit := Bool.toNat_le s.takes
  induction k generalizing ρ s fuel with
  | zero =>
      obtain ⟨more, rfl⟩ : ∃ more, fuel = more + 1 := ⟨fuel - 1, by omega⟩
      have value := at'.round_y.2
      rw [Nat.pow_zero, Nat.mul_one] at value
      refine ⟨s.round.y, ?_, at'.round_y.1, ?_, ?_⟩
      · rw [RootState.rounds, if_pos (at'.done_iff.mpr rfl)]
      · rw [value]
        omega
      · rw [value]
        omega
  | succ k ih =>
      obtain ⟨more, rfl⟩ : ∃ more, fuel = more + 1 := ⟨fuel - 1, by omega⟩
      obtain ⟨y, run, length, least, most⟩ :=
        ih at'.next (show k < more by omega) (Bool.toNat_le _)
      refine ⟨y, ?_, length, ?_, ?_⟩
      · rw [RootState.rounds, if_neg (mt at'.done_iff.mp (Nat.succ_ne_zero k)), run]
      · refine Nat.le_trans ?_ least
        calc ρ * 2 ^ (k + 1 + 1) = 2 * ρ * 2 ^ (k + 1) := by ring
          _ ≤ (2 * ρ + s.takes.toNat) * 2 ^ (k + 1) :=
            Nat.mul_le_mul_right _ (Nat.le_add_right _ _)
      · refine Nat.lt_of_lt_of_le most ?_
        calc (2 * ρ + s.takes.toNat + 1) * 2 ^ (k + 1)
            ≤ (2 * ρ + 2) * 2 ^ (k + 1) := Nat.mul_le_mul_right _ (by omega)
          _ = (ρ + 1) * 2 ^ (k + 1 + 1) := by ring

/-- The state before the round at `4 ^ k`, if nothing has gone wrong. -/
structure Ideal (n k : Nat) (s : RootState) : Prop extends At k (root n (k + 1)) s where
  remaining : Foundation.Limbs.value s.x = rest n (k + 1)

variable {n k : Nat} {s : RootState}

theorem Ideal.trial_eq (ideal : Ideal n k s) : Foundation.Limbs.value s.trial = trialAt n k :=
  ideal.toAt.trial_value

theorem Ideal.takes_iff (ideal : Ideal n k s) :
    s.takes = true ↔ trialAt n k % 2 ^ (64 * 3) ≤ rest n (k + 1) % 2 ^ (64 * 3) := by
  rw [U256.takes_iff ideal.lengthX ideal.toAt.trial_length, ideal.trial_eq, ideal.remaining]

/-- Where what is tried fits, its difference is true exactly if no borrow is lost. -/
theorem Ideal.difference_iff (ideal : Ideal n k s) (fits : trialAt n k ≤ rest n (k + 1))
    (takes : s.takes = true) :
    Foundation.Limbs.value s.round.x + Foundation.Limbs.value s.trial = Foundation.Limbs.value s.x ↔
      ¬∃ j, (j = 1 ∨ j = 2) ∧ (trialAt n k / 2 ^ (64 * j) % 2 ^ 64 = 2 ^ 64 - 1 ∧
        rest n (k + 1) % 2 ^ (64 * j) < trialAt n k % 2 ^ (64 * j)) := by
  have same : s.x.length = s.trial.length := ideal.lengthX.trans ideal.toAt.trial_length.symm
  have chain := subtractWords_iff same (show (0 : I64).toNat ≤ 1 by decide)
  rw [lost_iff ideal.lengthX ideal.toAt.trial_length, ideal.trial_eq, ideal.remaining,
    show (0 : I64).toNat = 0 from rfl, Nat.add_zero, ideal.lengthX] at chain
  have made : s.round.x = subtractWords 0 s.x s.trial := by
    unfold RootState.round
    rw [if_pos takes]
  rw [made, ideal.trial_eq, ideal.remaining, ← chain]
  have small := Foundation.Limbs.value_lt s.x
  have small' := Foundation.Limbs.value_lt (subtractWords 0 s.x s.trial)
  rw [subtractWords_length same, ideal.lengthX] at small'
  rw [ideal.remaining, ideal.lengthX] at small
  constructor
  · intro exact
    rw [exact]
  · intro congruent
    have back : Foundation.Limbs.value (subtractWords 0 s.x s.trial) ≡ rest n (k + 1) - trialAt n k
        [MOD 2 ^ (64 * 4)] := by
      refine Nat.ModEq.add_right_cancel' (trialAt n k) ?_
      rwa [Nat.sub_add_cancel fits]
    rw [back.eq_of_lt_of_lt small' (Nat.lt_of_le_of_lt (Nat.sub_le _ _) small)]
    exact Nat.sub_add_cancel fits

/-- A round takes the true difference, and takes it wherever it is to be taken, exactly if the code
is sound there. -/
theorem Ideal.sound_iff (ideal : Ideal n k s) :
    ((s.takes = true → Foundation.Limbs.value s.round.x + Foundation.Limbs.value s.trial =
      Foundation.Limbs.value s.x) ∧
        (trialAt n k ≤ rest n (k + 1) → s.takes = true)) ↔ Sound n k := by
  unfold Sound
  rw [← ideal.takes_iff]
  by_cases fits : trialAt n k ≤ rest n (k + 1)
  · cases taken : s.takes with
    | false =>
        refine iff_of_false (fun both => Bool.false_ne_true (both.2 fits)) (fun both => ?_)
        exact Bool.false_ne_true (both.1.mpr fits)
    | true =>
        have difference := ideal.difference_iff fits taken
        simp only [fits, true_implies, implies_true, and_true, true_and]
        rw [difference]
        simp only [not_exists, not_and]
  · cases taken : s.takes with
    | false =>
        exact iff_of_true ⟨fun absurd => (Bool.false_ne_true absurd).elim,
          fun yes => (fits yes).elim⟩
          ⟨iff_of_false Bool.false_ne_true fits, fun yes => (fits yes).elim⟩
    | true =>
        refine iff_of_false (fun both => fits ?_) (fun both => fits (both.1.mp rfl))
        have sum := both.1 rfl
        rw [ideal.trial_eq, ideal.remaining] at sum
        omega

/-- Where the code is sound, it finds the root's next bit. -/
theorem Ideal.takes_eq (ideal : Ideal n k s) (sound : Sound n k) :
    2 * root n (k + 1) + s.takes.toNat = root n k := by
  have taken : s.takes = decide (trialAt n k ≤ rest n (k + 1)) := by
    rw [Bool.eq_iff_iff, decide_eq_true_iff, ideal.takes_iff]
    exact sound.1
  rw [root_step n k, taken]

theorem Ideal.next (ideal : Ideal n (k + 1) s) (sound : Sound n (k + 1)) : Ideal n k s.round := by
  obtain ⟨exact, -⟩ := ideal.sound_iff.mpr sound
  refine ⟨ideal.takes_eq sound ▸ ideal.toAt.next, ?_⟩
  have step := rest_step n (k + 1)
  by_cases fits : trialAt n (k + 1) ≤ rest n (k + 1 + 1)
  · have taken := (ideal.sound_iff.mpr sound).2 fits
    have sum := exact taken
    rw [ideal.trial_eq, ideal.remaining] at sum
    rw [if_pos fits] at step
    omega
  · have left : s.takes = false :=
      Bool.eq_false_iff.mpr fun taken => fits (sound.1.mp (ideal.takes_iff.mp taken))
    have kept : s.round.x = s.x := by
      unfold RootState.round
      rw [left]
      rfl
    rw [if_neg fits] at step
    rw [kept, ideal.remaining, step]

theorem root_le (n k : Nat) : root n k * 2 ^ k ≤ Nat.sqrt n := by
  rw [Nat.le_sqrt']
  calc (root n k * 2 ^ k) ^ 2 = root n k ^ 2 * 4 ^ k := by
        rw [Nat.mul_pow, ← Nat.pow_mul, Nat.mul_comm k, Nat.pow_mul]
    _ ≤ n := root_mul_le n k

/-- A bit of the root that the compare misses is missing for good. -/
theorem Ideal.missed {fuel : Nat} {y : List I64} (ideal : Ideal n k s) (enough : k < fuel)
    (fits : trialAt n k ≤ rest n (k + 1)) (left : s.takes = false) (run : s.rounds fuel = some y) :
    Foundation.Limbs.value y < Nat.sqrt n := by
  have bits := root_step n k
  rw [decide_eq_true fits, Bool.toNat_true] at bits
  have least := root_le n k
  rw [bits] at least
  refine Nat.lt_of_lt_of_le ?_ least
  obtain ⟨more, rfl⟩ : ∃ more, fuel = more + 1 := ⟨fuel - 1, by omega⟩
  rw [RootState.rounds] at run
  cases k with
  | zero =>
      have value := ideal.toAt.round_y.2
      rw [left, Bool.toNat_false, Nat.add_zero, Nat.pow_zero, Nat.mul_one] at value
      rw [if_pos (ideal.toAt.done_iff.mpr rfl)] at run
      obtain rfl := Option.some.inj run
      rw [value]
      omega
  | succ k =>
      rw [if_neg (mt ideal.toAt.done_iff.mp (Nat.succ_ne_zero k))] at run
      obtain ⟨y', run', -, -, most⟩ := ideal.toAt.next.rounds (show k < more by omega)
      obtain rfl := Option.some.inj (run'.symm.trans run)
      rw [left, Bool.toNat_false, Nat.add_zero] at most
      exact most

/-- A run is exact exactly if the code is sound at every power it comes to. -/
theorem Ideal.run_iff {fuel : Nat} (ideal : Ideal n k s) (enough : k < fuel) :
    ((∃ y, s.rounds fuel = some y ∧ Foundation.Limbs.value y = Nat.sqrt n) ∧ s.Differences fuel) ↔
      ∀ j ≤ k, Sound n j := by
  have caught (runs : ∃ y, s.rounds fuel = some y ∧ Foundation.Limbs.value y = Nat.sqrt n) :
      trialAt n k ≤ rest n (k + 1) → s.takes = true := by
    intro fits
    by_contra left
    obtain ⟨y, run, value⟩ := runs
    exact Nat.lt_irrefl _ (value ▸ ideal.missed enough fits (Bool.eq_false_iff.mpr left) run)
  obtain ⟨more, rfl⟩ : ∃ more, fuel = more + 1 := ⟨fuel - 1, by omega⟩
  induction k generalizing s more with
  | zero =>
      have done := ideal.toAt.done_iff.mpr rfl
      have ends : s.rounds (more + 1) = some s.round.y := by rw [RootState.rounds, if_pos done]
      have value := ideal.toAt.round_y.2
      rw [Nat.pow_zero, Nat.mul_one] at value
      constructor
      · rintro ⟨runs, differences⟩ j low
        obtain rfl : j = 0 := by omega
        exact ideal.sound_iff.mp ⟨differences.1, caught runs⟩
      · intro sound
        have here := sound 0 (Nat.le_refl 0)
        refine ⟨⟨s.round.y, ends, ?_⟩, (ideal.sound_iff.mpr here).1,
          fun onward => (onward done).elim⟩
        rw [value, ideal.takes_eq here, root, Nat.pow_zero, Nat.div_one]
  | succ k ih =>
      have onward := mt ideal.toAt.done_iff.mp (Nat.succ_ne_zero k)
      have goes : s.rounds (more + 1) = s.round.rounds more := by
        rw [RootState.rounds, if_neg onward]
      rw [goes] at caught ⊢
      have further (next : Ideal n k s.round) :
          ((∃ y, s.round.rounds more = some y ∧ Foundation.Limbs.value y = Nat.sqrt n) ∧
            s.round.Differences more) ↔ ∀ j ≤ k, Sound n j := by
        obtain ⟨fuel, rfl⟩ : ∃ fuel, more = fuel + 1 := ⟨more - 1, by omega⟩
        refine ih next fuel (by omega) ?_
        rintro ⟨y, run, value⟩ fits
        by_contra left
        exact Nat.lt_irrefl _
          (value ▸ next.missed (by omega) fits (Bool.eq_false_iff.mpr left) run)
      constructor
      · rintro ⟨runs, differences⟩ j low
        have here := ideal.sound_iff.mp ⟨differences.1, caught runs⟩
        rcases Nat.lt_or_ge k j with last | earlier
        · obtain rfl : j = k + 1 := by omega
          exact here
        · exact (further (ideal.next here)).mp ⟨runs, differences.2 onward⟩ j earlier
      · intro sound
        have here := sound (k + 1) (Nat.le_refl _)
        have rest := (further (ideal.next here)).mpr fun j low => sound j (Nat.le_succ_of_le low)
        exact ⟨rest.1, (ideal.sound_iff.mpr here).1, fun _ => rest.2⟩

/-! ### Exactness -/

/-- The root is stored, and every difference on the way is the true one. -/
structure RootExact (m : LinearMemory) (n dst : I64) : Prop where
  stored : hIsqrt m n dst = some (m.put dst.toNat 16 (Nat.sqrt (m.number n.toNat 32)))
  differences : ∀ xs, m.loadWords n 0 4 = some xs → (rootStart xs).Differences rootRounds

theorem rootStart_ideal {xs : List I64} (length : xs.length = 4) :
    Ideal (Foundation.Limbs.value xs) (firstPower (Foundation.Limbs.value xs)) (rootStart xs) := by
  obtain ⟨lengthM, power⟩ := startPower_spec length
  refine ⟨⟨length, rfl, lengthM, ?_, power⟩, ?_⟩
  · rw [root_first, Nat.zero_mul]
    exact value_zeros 4
  · rw [rest, root_first, Nat.zero_pow (by decide), Nat.zero_mul, Nat.sub_zero]
    rfl

theorem isqrt_exact_iff {m : LinearMemory} {n dst : I64} (placedN : Placed m n 32)
    (placedQ : Placed m dst 16) :
    RootExact m n dst ↔
      ∀ k ≤ firstPower (m.number n.toNat 32), Sound (m.number n.toNat 32) k := by
  obtain ⟨xs, loaded, length, value⟩ := loadCell placedN
  have bound := Foundation.Limbs.value_lt xs
  rw [length] at bound
  have ideal := rootStart_ideal length
  have few : firstPower (Foundation.Limbs.value xs) < rootRounds :=
      Nat.lt_succ_of_le (firstPower_le bound)
  obtain ⟨y, run, lengthY, -, most⟩ := ideal.toAt.rounds few
  have low : Foundation.Limbs.value y < 2 ^ 128 := by
    refine Nat.lt_of_lt_of_le most ?_
    rw [root_first, Nat.zero_add, Nat.one_mul]
    exact Nat.pow_le_pow_right (by decide) few
  have halves : Foundation.Limbs.value (y.take 2) = Foundation.Limbs.value y := by
    rw [U256.value_take (by omega)]
    exact Nat.mod_eq_of_lt low
  have code : hIsqrt m n dst = some (m.put dst.toNat 16 (Foundation.Limbs.value y)) := by
    have two : (y.take 2).length = 2 := by rw [List.length_take, lengthY]; rfl
    have stored := placedQ.storeWords (y.take 2)
      (show 0 + 8 * (y.take 2).length ≤ 16 by rw [two])
    rw [two, halves] at stored
    simp only [hIsqrt, loaded, Option.bind_eq_bind, Option.bind_some, run]
    exact stored
  have small : Nat.sqrt (m.number n.toNat 32) < 2 ^ 128 := by
    rw [Nat.sqrt_lt', ← Nat.pow_mul, ← value]
    exact bound
  have same : m.put dst.toNat 16 (Foundation.Limbs.value y) =
      m.put dst.toNat 16 (Nat.sqrt (m.number n.toNat 32)) ↔
      Foundation.Limbs.value y = Nat.sqrt (m.number n.toNat 32) := by
    refine ⟨fun equal => ?_, congrArg _⟩
    have numbers := congrArg (fun m : LinearMemory => m.number dst.toNat 16) equal
    simp only [number_put] at numbers
    rwa [Nat.mod_eq_of_lt (show Foundation.Limbs.value y < 256 ^ 16 from low),
      Nat.mod_eq_of_lt (show Nat.sqrt (m.number n.toNat 32) < 256 ^ 16 from small)] at numbers
  have runs := ideal.run_iff few
  rw [← value, ← runs]
  constructor
  · rintro ⟨stored, differences⟩
    rw [code, Option.some.injEq, same, ← value] at stored
    exact ⟨⟨y, run, stored⟩, differences xs loaded⟩
  · rintro ⟨⟨y', run', root⟩, differences⟩
    obtain rfl := Option.some.inj (run.symm.trans run')
    refine ⟨?_, ?_⟩
    · rw [code, Option.some.injEq, same, ← value]
      exact root
    · intro xs' loaded'
      obtain rfl := Option.some.inj (loaded.symm.trans loaded')
      exact differences

/-- The root of `2 ^ 254`: in the second round the highest words, not compared, are all there is to
tell the two numbers apart. -/
theorem isqrt_exact_highWord : ¬ RootExact (cells (2 ^ 254) 0) 64 128 := by
  intro exact
  have loaded : (cells (2 ^ 254) 0).loadWords 64 0 4 = some [0, 0, 0, 2 ^ 62] := by decide +kernel
  have first := exact.differences _ loaded
  have second := (first.2 (by decide +kernel)).1 (by decide +kernel)
  revert second
  decide +kernel

theorem isqrt_exact_iff_one : RootExact (cells 1 0) 64 128 := by
  have placedQ : Placed (cells 1 0) 128 16 := ⟨by decide, by decide⟩
  refine (isqrt_exact_iff (cells_placed 1 0 (p := 64) (by decide)) placedQ).mpr ?_
  rw [show (64 : I64).toNat = 64 from rfl, cells_first (a := 1) 0 (by decide)]
  intro k low
  obtain rfl : k = 0 := Nat.le_zero.mp low
  have none : root 1 1 = 0 := by decide
  have trial : trialAt 1 0 = 1 := by rw [trialAt, none]; rfl
  have left : rest 1 1 = 1 := by rw [rest, none]; rfl
  rw [Sound, trial, left]
  refine ⟨by decide, ?_⟩
  rintro - j (rfl | rfl)
  · decide
  · decide

end U256

end LispRlm.WasmEmit
