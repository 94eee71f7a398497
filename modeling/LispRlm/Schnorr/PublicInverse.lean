import LispRlm.Schnorr.FieldLimbs

/-! The inverse of public values by the binary extended Euclid loop. -/

namespace LispRlm.Schnorr

open Foundation.Limbs

namespace Limbs

/-! ### The operations -/

def feIsZero (a : Limbs 4) : Bool := a.val.all (· == 0)

def isEven (a : Limbs 4) : Bool := (a.val.getD 0 0) &&& 1 == 0

/-- Each limb takes the lowest bit of the next one as its highest, the last one that of `top`. -/
def shiftDown (top : BitVec 64) : List (BitVec 64) → List (BitVec 64)
  | [] => []
  | [x] => [(x >>> 1) ||| (top <<< 63)]
  | x :: y :: rest => ((x >>> 1) ||| ((y &&& 1) <<< 63)) :: shiftDown top (y :: rest)

theorem shiftDown_length (top : BitVec 64) (limbs : List (BitVec 64)) :
    (shiftDown top limbs).length = limbs.length := by
  induction limbs with
  | nil => rfl
  | cons x limbs ih =>
    cases limbs with
    | nil => rfl
    | cons y rest => exact congrArg (· + 1) ih

def feShr1 (a : Limbs 4) : Limbs 4 :=
  ⟨shiftDown 0 a.val, (shiftDown_length 0 a.val).trans a.property⟩

/-- `(y + p) / 2`; the carry of the sum is the highest bit of the half. -/
def feHalfAddP (y : Limbs 4) : Limbs 4 :=
  let c := BitVec.ofInt 64 (outOf (addTerms y prime))
  ⟨shiftDown c (adding y prime).val, (shiftDown_length c _).trans (adding y prime).property⟩

def feAddRaw (a b : Limbs 4) : Limbs 4 :=
  let r := adding a b
  if 0 < outOf (addTerms a b) then addInto RED r else r

/-- The loop of `fe_lt`, from the highest limb down. -/
def ltDown : List (BitVec 64) → List (BitVec 64) → Bool
  | x :: xs, y :: ys => if x ≠ y then x < y else ltDown xs ys
  | _, _ => false

def feLt (a b : Limbs 4) : Bool := ltDown a.val.reverse b.val.reverse

def feSubModP (a b : Limbs 4) : Limbs 4 :=
  if feLt a b then feAddRaw a (feSub prime b) else feReduce (feSub a b)

/-! ### The loop -/

/-- The variables of the loop. -/
structure Euclid where
  u : Limbs 4
  v : Limbs 4
  x : Limbs 4
  y : Limbs 4

theorem zeros_four : ([0, 0, 0, 0] : List (BitVec 64)).length = 4 := rfl

def feZero : Limbs 4 := ⟨[0, 0, 0, 0], zeros_four⟩

def start (a : Limbs 4) : Euclid := ⟨prime, a, feZero, feOne⟩

def half (y : Limbs 4) : Limbs 4 := if isEven y then feShr1 y else feHalfAddP y

/-- The loop goes on. -/
def Euclid.goes (s : Euclid) : Bool := !feIsZero s.v && !feIsZero s.u

/-- The body comes to its end, or it breaks. -/
inductive Turn
  | next (s : Euclid)
  | stop (s : Euclid)

def Euclid.turn (s : Euclid) : Turn :=
  if isEven s.v then .next { s with v := feShr1 s.v, y := half s.y }
  else if isEven s.u then .next { s with u := feShr1 s.u, x := half s.x }
  else if !feLt s.u s.v then
    let u := feSubModP s.u s.v
    if feIsZero u then .stop { s with u := u }
    else .next { s with u := feShr1 u, x := half (feSubModP s.x s.y) }
  else
    let v := feSubModP s.v s.u
    if feIsZero v then .stop { s with v := v }
    else .next { s with v := feShr1 v, y := half (feSubModP s.y s.x) }

/-- The loop for as many turns as there is fuel. -/
def Euclid.run (fuel : Nat) (s : Euclid) : Option Euclid :=
  if s.goes then
    match fuel with
    | 0 => none
    | fuel + 1 =>
        match s.turn with
        | .next s => Euclid.run fuel s
        | .stop s => some s
  else some s

def Euclid.answer (s : Euclid) : Limbs 4 := if feIsZero s.u then s.y else s.x

def feInvPub (fuel : Nat) (a : Limbs 4) : Option (Limbs 4) := ((start a).run fuel).map Euclid.answer

/-! ### What the operations compute -/

theorem feIsZero_iff (a : Limbs 4) : feIsZero a = true ↔ num a = 0 := by
  rcases a with ⟨limbs, four⟩
  have zero (limbs : List (BitVec 64)) : limbs.all (· == 0) = true ↔ value limbs = 0 := by
    induction limbs with
    | nil => exact iff_of_true rfl rfl
    | cons x limbs ih =>
      rw [List.all_cons, Bool.and_eq_true, ih, value_cons, beq_iff_eq, ← BitVec.toNat_inj]
      simp
  exact zero limbs

theorem low_bit (x : BitVec 64) : x &&& 1 = 0 ↔ x.toNat % 2 = 0 := by
  rw [← BitVec.toNat_inj, BitVec.toNat_and]
  exact iff_of_eq (congrArg (· = 0) (Nat.and_two_pow_sub_one_eq_mod x.toNat 1))

theorem isEven_iff (a : Limbs 4) : isEven a = true ↔ num a % 2 = 0 := by
  rcases a with ⟨limbs, four⟩
  cases limbs with
  | nil => cases four
  | cons x limbs =>
    have whole : num ⟨x :: limbs, four⟩ = x.toNat + 2 ^ 64 * value limbs := value_cons x limbs
    rw [isEven, beq_iff_eq, List.getD_cons_zero, low_bit, whole]
    omega

theorem toNat_shifted (x y : BitVec 64) :
    ((x >>> 1) ||| ((y &&& 1) <<< 63)).toNat = x.toNat / 2 + 2 ^ 63 * (y.toNat % 2) := by
  have low : x.toNat / 2 < 2 ^ 63 := by
    have := x.isLt
    omega
  have bit : (y &&& 1).toNat = y.toNat % 2 := by
    rw [BitVec.toNat_and]
    exact Nat.and_two_pow_sub_one_eq_mod y.toNat 1
  have high : y.toNat % 2 * 2 ^ 63 % 2 ^ 64 = 2 ^ 63 * (y.toNat % 2) := by
    have := Nat.mod_lt y.toNat (show 0 < 2 by decide)
    omega
  rw [BitVec.toNat_or, BitVec.toNat_shiftLeft, BitVec.toNat_ushiftRight, bit, Nat.shiftLeft_eq,
    Nat.shiftRight_eq_div_pow, Nat.pow_one, high, Nat.or_comm, ← Nat.two_pow_add_eq_or_of_lt low,
    Nat.add_comm]

theorem shiftLeft_bit (top : BitVec 64) : top <<< 63 = (top &&& 1) <<< 63 := by
  apply BitVec.eq_of_toNat_eq
  rw [BitVec.toNat_shiftLeft, BitVec.toNat_shiftLeft, BitVec.toNat_and, Nat.shiftLeft_eq,
    Nat.shiftLeft_eq]
  have bit : top.toNat &&& (1 : BitVec 64).toNat = top.toNat % 2 :=
    Nat.and_two_pow_sub_one_eq_mod top.toNat 1
  rw [bit]
  omega

/-- The limbs and the bit above them are halved, by induction on the limbs. -/
theorem shiftDown_value (top : BitVec 64) {limbs : List (BitVec 64)} (some : limbs ≠ []) :
    value (shiftDown top limbs) =
      (value limbs + 2 ^ (64 * limbs.length) * (top.toNat % 2)) / 2 := by
  induction limbs with
  | nil => exact absurd rfl some
  | cons x limbs ih =>
    cases limbs with
    | nil =>
      rw [shiftDown, shiftLeft_bit, value_cons, toNat_shifted, value_cons, value_nil]
      have := x.isLt
      have := Nat.mod_lt top.toNat (show 0 < 2 by decide)
      simp only [List.length_singleton]
      omega
    | cons y rest =>
      have later := ih (List.cons_ne_nil y rest)
      have even : value (y :: rest) % 2 = y.toNat % 2 := by
        rw [value_cons]
        omega
      have power : 2 ^ (64 * (x :: y :: rest).length) = 2 ^ 64 * 2 ^ (64 * (y :: rest).length) := by
        rw [List.length_cons, Nat.mul_add, Nat.mul_one, Nat.pow_add, Nat.mul_comm]
      have halves : 2 ^ (64 * (y :: rest).length) % 2 = 0 := by
        rw [List.length_cons, Nat.mul_add, Nat.mul_one, Nat.pow_add]
        omega
      rw [shiftDown, value_cons, later, toNat_shifted, value_cons x, power, Nat.mul_assoc]
      have carry : 2 ^ (64 * (y :: rest).length) * (top.toNat % 2) % 2 = 0 := by
        rw [Nat.mul_mod, halves, Nat.zero_mul]
      generalize 2 ^ (64 * (y :: rest).length) * (top.toNat % 2) = c at carry ⊢
      omega

theorem feShr1_num (a : Limbs 4) : num (feShr1 a) = num a / 2 := by
  have some : a.val ≠ [] := by
    intro none
    have four := a.property
    rw [none] at four
    cases four
  have halved := shiftDown_value 0 some
  rw [show (0 : BitVec 64).toNat = 0 from rfl, Nat.zero_mod, Nat.mul_zero, Nat.add_zero] at halved
  exact halved

/-- The half of the sum, with its carry. -/
theorem feHalfAddP_num (y : Limbs 4) : num (feHalfAddP y) = (num y + fieldPrime) / 2 := by
  have some : (adding y prime).val ≠ [] := by
    intro none
    have four := (adding y prime).property
    rw [none] at four
    cases four
  have halved := shiftDown_value (BitVec.ofInt 64 (outOf (addTerms y prime))) some
  rw [(adding y prime).property] at halved
  have sum := adding_num y prime
  have bound := num_lt y
  have bound' := num_lt (adding y prime)
  have known : fieldPrime = 2 ^ 256 - 2 ^ 32 - 977 := rfl
  have whole : num (feHalfAddP y) = (num (adding y prime) +
    2 ^ 256 * ((BitVec.ofInt 64 (outOf (addTerms y prime))).toNat % 2)) / 2 := halved
  rw [num_prime] at sum
  rw [whole, BitVec.toNat_ofInt]
  omega

theorem ltDown_eq {as bs : List (BitVec 64)} (same : as.length = bs.length) :
    ltDown as bs = !geqDown as bs := by
  induction as generalizing bs with
  | nil =>
    cases bs with
    | nil => rfl
    | cons b bs => cases same
  | cons a as ih =>
    cases bs with
    | nil => cases same
    | cons b bs =>
      rw [ltDown, geqDown, ih (Nat.succ.inj same)]
      by_cases above : b < a
      · have other : a ≠ b := fun equal => absurd (equal ▸ above) (BitVec.lt_irrefl _)
        rw [if_pos other, if_pos above]
        simpa using BitVec.le_of_lt above
      · rw [if_neg above]
        by_cases below : a < b
        · have other : a ≠ b := fun equal => absurd (equal ▸ below) (BitVec.lt_irrefl _)
          rw [if_pos other, if_pos below]
          simpa using below
        · have equal : a = b := by
            apply BitVec.le_antisymm
            · exact BitVec.not_lt.mp above
            · exact BitVec.not_lt.mp below
          rw [if_neg (not_not.mpr equal), if_neg below]

theorem feLt_iff (a b : Limbs 4) : feLt a b = true ↔ num a < num b := by
  have lengths : a.val.reverse.length = b.val.reverse.length := by
    rw [List.length_reverse, List.length_reverse, a.property, b.property]
  have compared := geqDown_iff lengths
  rw [List.reverse_reverse, List.reverse_reverse] at compared
  rw [feLt, ltDown_eq lengths, Bool.not_eq_true', ← Bool.not_eq_true, compared, Nat.not_le]
  rfl

/-- Where it does not wrap, the difference is exact. -/
theorem feSubModP_num {a b : Limbs 4} (smallA : num a ≤ fieldPrime) (smallB : num b ≤ fieldPrime) :
    num (feSubModP a b) =
      if num a < num b then num a + fieldPrime - num b else (num a - num b) % fieldPrime := by
  have known : fieldPrime = 2 ^ 256 - 2 ^ 32 - 977 := rfl
  rw [feSubModP]
  by_cases less : num a < num b
  · have difference := feSub_num (a := prime) (b := b) (Nat.le_of_eq num_prime) smallB
    rw [num_prime, show fieldPrime + fieldPrime - num b = fieldPrime - num b + fieldPrime by omega,
      Nat.add_mod_right, Nat.mod_eq_of_lt (by omega)] at difference
    have sum := adding_num a (feSub prime b)
    have bound := num_lt (adding a (feSub prime b))
    have none : ¬ 0 < outOf (addTerms a (feSub prime b)) := by omega
    rw [if_pos ((feLt_iff a b).mpr less), if_pos less, feAddRaw]
    simp only [if_neg none]
    omega
  · have difference := feSub_num smallA smallB
    rw [show num a + fieldPrime - num b = num a - num b + fieldPrime by omega,
      Nat.add_mod_right] at difference
    rw [if_neg (fun lt => less ((feLt_iff a b).mp lt)), if_neg less, feReduce_num, difference,
      Nat.mod_mod]

theorem half_num {y : Limbs 4} (small : num y < fieldPrime) :
    num (half y) < fieldPrime ∧
      (2 * num (half y) = num y ∨ 2 * num (half y) = num y + fieldPrime) := by
  have known : fieldPrime = 2 ^ 256 - 2 ^ 32 - 977 := rfl
  have even := isEven_iff y
  rw [half]
  by_cases zero : num y % 2 = 0
  · rw [if_pos (even.mpr zero), feShr1_num]
    omega
  · rw [if_neg (fun e => zero (even.mp e)), feHalfAddP_num]
    omega

theorem toField_half {y : Limbs 4} (small : num y < fieldPrime) :
    toField (half y) * 2 = toField y := by
  have doubled : ((2 * num (half y) : Nat) : ZMod fieldPrime) = (num y : Nat) := by
    rcases (half_num small).2 with same | same
    · rw [same]
    · rw [same, Nat.cast_add, ZMod.natCast_self, add_zero]
  rw [Nat.cast_mul, Nat.cast_ofNat, mul_comm] at doubled
  exact doubled

theorem two_ne_zero' : (2 : ZMod fieldPrime) ≠ 0 := by
  have two : ((2 : Nat) : ZMod fieldPrime) ≠ 0 := by
    rw [Ne, ZMod.natCast_eq_zero_iff]
    exact fun divides => absurd (Nat.le_of_dvd (by decide) divides) (by decide)
  exact_mod_cast two

theorem toField_feSubModP {a b : Limbs 4} (smallA : num a < fieldPrime)
    (smallB : num b < fieldPrime) :
    num (feSubModP a b) < fieldPrime ∧ toField (feSubModP a b) = toField a - toField b := by
  have difference := feSubModP_num (Nat.le_of_lt smallA) (Nat.le_of_lt smallB)
  by_cases less : num a < num b
  · rw [if_pos less] at difference
    refine ⟨by omega, ?_⟩
    rw [toField, difference, Nat.cast_sub (by omega), Nat.cast_add, ZMod.natCast_self, add_zero]
    rfl
  · rw [if_neg less] at difference
    refine ⟨difference ▸ Nat.mod_lt _ (by omega), ?_⟩
    rw [toField, difference, ZMod.natCast_mod, Nat.cast_sub (by omega)]
    rfl

/-- Halving both sides of an equation of the loop. -/
theorem half_mul {A : ZMod fieldPrime} {y v : Limbs 4} (small : num y < fieldPrime)
    (even : num v % 2 = 0) (equation : toField y * A = toField v) :
    toField (half y) * A = toField (feShr1 v) := by
  have halved : toField (feShr1 v) * 2 = toField v := by
    have doubled : num (feShr1 v) * 2 = num v := by
      rw [feShr1_num]
      omega
    have cast := congrArg (Nat.cast : Nat → ZMod fieldPrime) doubled
    rw [Nat.cast_mul, Nat.cast_ofNat] at cast
    exact cast
  apply mul_right_cancel₀ two_ne_zero'
  calc
    toField (half y) * A * 2 = toField (half y) * 2 * A := by ring
    _ = toField (feShr1 v) * 2 := by rw [toField_half small, equation, halved]

/-! ### The invariant -/

/-- What holds whenever the loop looks at its condition. -/
structure Invariant (a : Limbs 4) (s : Euclid) : Prop where
  u_le : num s.u ≤ fieldPrime
  v_lt : num s.v < fieldPrime
  x_lt : num s.x < fieldPrime
  y_lt : num s.y < fieldPrime
  x_mul : toField s.x * toField a = toField s.u
  y_mul : toField s.y * toField a = toField s.v
  coprime : Nat.Coprime (num s.u) (num s.v)

theorem num_feZero : num feZero = 0 := by decide

theorem num_feOne : num feOne = 1 := by decide

theorem start_invariant {a : Limbs 4} (small : num a < fieldPrime) (positive : num a ≠ 0) :
    Invariant a (start a) where
  u_le := Nat.le_of_eq num_prime
  v_lt := small
  x_lt := num_feZero ▸ (by decide : 0 < fieldPrime)
  y_lt := num_feOne ▸ (by decide : 1 < fieldPrime)
  x_mul := by
    have zero : num (start a).x = 0 := num_feZero
    have prime_ : num (start a).u = fieldPrime := num_prime
    rw [toField, zero, Nat.cast_zero, zero_mul, toField, prime_, ZMod.natCast_self]
  y_mul := by
    have one : toField (start a).y = 1 := toField_feOne
    rw [one, one_mul]
    rfl
  coprime := by
    have prime_ : num (start a).u = fieldPrime := num_prime
    rw [prime_]
    exact (Nat.Prime.coprime_iff_not_dvd fieldPrime_prime).mpr fun divides =>
      positive (Nat.eq_zero_of_dvd_of_lt divides small)

/-- The answer inverts `a`. -/
def Inverts (a : Limbs 4) (s : Euclid) : Prop :=
  num s.answer < fieldPrime ∧ toField s.answer * toField a = 1

theorem inverts_of_zero {a : Limbs 4} {s : Euclid} (zero : num s.u = 0) (one : num s.v = 1)
    (small : num s.y < fieldPrime) (equation : toField s.y * toField a = toField s.v) :
    Inverts a s := by
  have answer : s.answer = s.y := if_pos ((feIsZero_iff s.u).mpr zero)
  rw [Inverts, answer, equation, toField, one, Nat.cast_one]
  exact ⟨small, rfl⟩

theorem inverts_of_one {a : Limbs 4} {s : Euclid} (one : num s.u = 1)
    (small : num s.x < fieldPrime) (equation : toField s.x * toField a = toField s.u) :
    Inverts a s := by
  have answer : s.answer = s.x := if_neg fun zero => by
    rw [feIsZero_iff, one] at zero
    cases zero
  rw [Inverts, answer, equation, toField, one, Nat.cast_one]
  exact ⟨small, rfl⟩

theorem goes_iff (s : Euclid) : s.goes = true ↔ num s.u ≠ 0 ∧ num s.v ≠ 0 := by
  have u := feIsZero_iff s.u
  have v := feIsZero_iff s.v
  rw [Euclid.goes, Bool.and_eq_true, Bool.not_eq_true', Bool.not_eq_true', ← Bool.not_eq_true,
    ← Bool.not_eq_true, u, v, and_comm]

/-- Where the loop does not go on. -/
theorem Invariant.inverts {a : Limbs 4} {s : Euclid} (holds : Invariant a s)
    (ends : ¬ s.goes = true) : Inverts a s := by
  rw [goes_iff, not_and_or, not_not, not_not] at ends
  have coprime := holds.coprime
  by_cases zero : num s.u = 0
  · rw [zero, Nat.coprime_zero_left] at coprime
    exact inverts_of_zero zero coprime holds.y_lt holds.y_mul
  · rw [ends.resolve_left zero, Nat.coprime_zero_right] at coprime
    exact inverts_of_one coprime holds.x_lt holds.x_mul

/-- What a turn leads to: a state where the invariant holds and the product of the numbers is at
most the half, or the answer. -/
def Leads (a : Limbs 4) (s : Euclid) : Turn → Prop
  | .next t => Invariant a t ∧ 2 * (num t.u * num t.v) ≤ num s.u * num s.v
  | .stop t => Inverts a t

theorem half_product {m n k : Nat} (le : 2 * m ≤ n) : 2 * (m * k) ≤ n * k := by
  rw [← Nat.mul_assoc]
  exact Nat.mul_le_mul_right k le

theorem half_product' {m n k : Nat} (le : 2 * m ≤ n) : 2 * (k * m) ≤ k * n := by
  rw [Nat.mul_left_comm]
  exact Nat.mul_le_mul_left k le

/-- The larger of two numbers less the smaller one, and what their coefficients make of it. -/
theorem difference_mul {A : ZMod fieldPrime} {c d x y : Limbs 4} (leC : num c ≤ fieldPrime)
    (positive : num d ≠ 0) (le : num d ≤ num c) (smallX : num x < fieldPrime)
    (smallY : num y < fieldPrime) (left : toField x * A = toField c)
    (right : toField y * A = toField d) :
    num (feSubModP c d) = num c - num d ∧ num (feSubModP x y) < fieldPrime ∧
      toField (feSubModP x y) * A = toField (feSubModP c d) := by
  have exact_ : num (feSubModP c d) = num c - num d := by
    rw [feSubModP_num leC (by omega), if_neg (by omega), Nat.mod_eq_of_lt (by omega)]
  have coefficient := toField_feSubModP smallX smallY
  refine ⟨exact_, coefficient.1, ?_⟩
  rw [coefficient.2, sub_mul, left, right, toField, toField, toField, exact_, Nat.cast_sub le]

/-- One turn, by its branches. -/
theorem turn_leads {a : Limbs 4} {s : Euclid} (holds : Invariant a s) (goes : s.goes = true) :
    Leads a s s.turn := by
  rcases (goes_iff s).mp goes with ⟨someU, someV⟩
  have leU := holds.u_le
  have ltV := holds.v_lt
  have evenU := isEven_iff s.u
  have evenV := isEven_iff s.v
  rw [Euclid.turn]
  by_cases v2 : num s.v % 2 = 0
  · rw [if_pos (evenV.mpr v2)]
    have shift := feShr1_num s.v
    refine ⟨⟨leU, ?_, holds.x_lt, (half_num holds.y_lt).1, holds.x_mul,
      half_mul holds.y_lt v2 holds.y_mul, ?_⟩, half_product' ?_⟩
    · dsimp only
      omega
    · dsimp only
      rw [shift]
      exact holds.coprime.coprime_dvd_right (Nat.div_dvd_of_dvd (Nat.dvd_of_mod_eq_zero v2))
    · dsimp only
      omega
  rw [if_neg fun e => v2 (evenV.mp e)]
  by_cases u2 : num s.u % 2 = 0
  · rw [if_pos (evenU.mpr u2)]
    have shift := feShr1_num s.u
    refine ⟨⟨?_, ltV, (half_num holds.x_lt).1, holds.y_lt,
      half_mul holds.x_lt u2 holds.x_mul, holds.y_mul, ?_⟩, half_product ?_⟩
    · dsimp only
      omega
    · dsimp only
      rw [shift]
      exact holds.coprime.coprime_dvd_left (Nat.div_dvd_of_dvd (Nat.dvd_of_mod_eq_zero u2))
    · dsimp only
      omega
  rw [if_neg fun e => u2 (evenU.mp e)]
  by_cases less : num s.u < num s.v
  · have compared : ¬ (!feLt s.u s.v) = true := by
      rw [(feLt_iff s.u s.v).mpr less]
      exact Bool.false_ne_true
    rcases difference_mul (Nat.le_of_lt ltV) someU (Nat.le_of_lt less) holds.y_lt holds.x_lt
      holds.y_mul holds.x_mul with ⟨difference, small, equation⟩
    have apart : Nat.Coprime (num s.u) (num s.v - num s.u) :=
      (Nat.coprime_sub_self_right (Nat.le_of_lt less)).mpr holds.coprime
    have some : ¬ feIsZero (feSubModP s.v s.u) = true := by
      rw [feIsZero_iff]
      omega
    rw [if_neg compared]
    dsimp only
    rw [if_neg some]
    have shift := feShr1_num (feSubModP s.v s.u)
    have even : num (feSubModP s.v s.u) % 2 = 0 := by omega
    refine ⟨⟨leU, ?_, holds.x_lt, (half_num small).1, holds.x_mul, half_mul small even equation,
      ?_⟩, half_product' ?_⟩
    · dsimp only
      omega
    · dsimp only
      rw [shift]
      rw [← difference] at apart
      exact apart.coprime_dvd_right (Nat.div_dvd_of_dvd (Nat.dvd_of_mod_eq_zero even))
    · dsimp only
      omega
  · have compared : (!feLt s.u s.v) = true := by
      rw [Bool.not_eq_true', ← Bool.not_eq_true, feLt_iff]
      exact less
    have le := Nat.not_lt.mp less
    rcases difference_mul leU someV le holds.x_lt holds.y_lt holds.x_mul holds.y_mul
      with ⟨difference, small, equation⟩
    have apart : Nat.Coprime (num s.u - num s.v) (num s.v) :=
      (Nat.coprime_sub_self_left le).mpr holds.coprime
    rw [if_pos compared]
    dsimp only
    by_cases same : num s.u = num s.v
    · have zero : num (feSubModP s.u s.v) = 0 := by omega
      rw [if_pos ((feIsZero_iff _).mpr zero)]
      rw [same, Nat.sub_self, Nat.coprime_zero_left] at apart
      exact inverts_of_zero zero apart holds.y_lt holds.y_mul
    · have some : ¬ feIsZero (feSubModP s.u s.v) = true := by
        rw [feIsZero_iff]
        omega
      rw [if_neg some]
      have shift := feShr1_num (feSubModP s.u s.v)
      have even : num (feSubModP s.u s.v) % 2 = 0 := by omega
      refine ⟨⟨?_, ltV, (half_num small).1, holds.y_lt, half_mul small even equation, holds.y_mul,
        ?_⟩, half_product ?_⟩
      · dsimp only
        omega
      · dsimp only
        rw [shift]
        rw [← difference] at apart
        exact apart.coprime_dvd_left (Nat.div_dvd_of_dvd (Nat.dvd_of_mod_eq_zero even))
      · dsimp only
        omega

/-! ### Runs -/

/-- The states in which the loop looks at its condition. -/
inductive Heads (a : Limbs 4) : Euclid → Prop
  | start : Heads a (start a)
  | turn {s t : Euclid} (before : Heads a s) (goes : s.goes = true) (turn : s.turn = .next t) :
      Heads a t

theorem heads_invariant {a : Limbs 4} (small : num a < fieldPrime) (positive : num a ≠ 0)
    {s : Euclid} (heads : Heads a s) : Invariant a s := by
  induction heads with
  | start => exact start_invariant small positive
  | turn before goes turn ih =>
    have leads := turn_leads ih goes
    rw [turn] at leads
    exact leads.1

/-- As many turns as the product of the numbers has bits are enough. -/
theorem run_inverts {a : Limbs 4} {n fuel : Nat} {s : Euclid} (holds : Invariant a s)
    (bits : num s.u * num s.v < 2 ^ n) (enough : n ≤ fuel) :
    ∃ t, s.run fuel = some t ∧ Inverts a t := by
  induction n generalizing s fuel with
  | zero =>
    have ends : ¬ s.goes = true := by
      rw [goes_iff]
      rintro ⟨someU, someV⟩
      have := Nat.mul_ne_zero someU someV
      omega
    refine ⟨s, ?_, holds.inverts ends⟩
    rw [Euclid.run.eq_def, if_neg ends]
  | succ n ih =>
    by_cases goes : s.goes = true
    · obtain ⟨more, rfl⟩ : ∃ more, fuel = more + 1 := ⟨fuel - 1, by omega⟩
      have leads := turn_leads holds goes
      rw [Euclid.run.eq_def, if_pos goes]
      dsimp only
      cases turned : s.turn with
      | stop t =>
        rw [turned] at leads
        exact ⟨t, rfl, leads⟩
      | next t =>
        rw [turned] at leads
        exact ih leads.1 (by have := leads.2; omega) (Nat.le_of_succ_le_succ enough)
    · refine ⟨s, ?_, holds.inverts goes⟩
      rw [Euclid.run.eq_def, if_neg goes]

/-- The loop ends within 512 turns with the inverse that the power gives, its invariants hold
whenever it looks at its condition, and a half keeps the carry of its sum. -/
theorem feInvPub_eq (a : Limbs 4) (positive : 0 < num a) (small : num a < fieldPrime) :
    (∀ fuel, 512 ≤ fuel → feInvPub fuel a = some (feInv a)) ∧
    num (feInv a) < fieldPrime ∧ num (feInv a) = num a ^ (fieldPrime - 2) % fieldPrime ∧
    (∀ s, Heads a s →
      num s.x * num a % fieldPrime = num s.u % fieldPrime ∧
      num s.y * num a % fieldPrime = num s.v % fieldPrime ∧
      num s.x < fieldPrime ∧ num s.y < fieldPrime) ∧
    ∀ y : Limbs 4, num (feHalfAddP y) = (num y + fieldPrime) / 2 := by
  have some := Nat.ne_of_gt positive
  have canonical : num (feInv a) < fieldPrime := fePow_lt _ _
  refine ⟨?_, canonical, ?_, ?_, feHalfAddP_num⟩
  · intro fuel enough
    have bits : num (start a).u * num (start a).v < 2 ^ 512 := by
      have left : num (start a).u < 2 ^ 256 := num_lt _
      have right : num (start a).v < 2 ^ 256 := num_lt _
      calc
        num (start a).u * num (start a).v < 2 ^ 256 * 2 ^ 256 :=
          Nat.mul_lt_mul'' left right
        _ = 2 ^ 512 := (Nat.pow_add 2 256 256).symm
    rcases run_inverts (start_invariant small some) bits enough with ⟨t, ran, low, inverts⟩
    have same : t.answer = feInv a := by
      apply toField_inj low canonical
      have unit : toField a ≠ 0 := fun zero => some ((toField_eq_zero_iff small).mp zero)
      apply mul_right_cancel₀ unit
      rw [inverts, feInv_mul some small]
    rw [feInvPub, ran, Option.map_some, same]
  · have power := toField_feInv a
    rw [toField, toField, ← Nat.cast_pow, ZMod.natCast_eq_natCast_iff'] at power
    rw [← power, Nat.mod_eq_of_lt canonical]
  · intro s heads
    have holds := heads_invariant small some heads
    have left := holds.x_mul
    have right := holds.y_mul
    rw [toField, toField, toField, ← Nat.cast_mul, ZMod.natCast_eq_natCast_iff'] at left right
    exact ⟨left, right, holds.x_lt, holds.y_lt⟩

/-- The inverse of one. -/
theorem feInvPub_eq_one : feInvPub 512 feOne = some (feInv feOne) :=
  (feInvPub_eq feOne (by decide) (by decide)).1 512 (Nat.le_refl 512)

end Limbs
end LispRlm.Schnorr
