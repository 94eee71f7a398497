import LispRlm.Schnorr.FieldLimbs

/-! The field operations of the interpreter's builtins: other loops for the same field. -/

namespace LispRlm.Schnorr

open Foundation.Limbs Limbs

namespace Builtin

def DELTA : BitVec 64 := 0x1000003D1

def delta : Limbs 4 := ⟨[DELTA, 0, 0, 0], rfl⟩

/-! ### The operations -/

/-- The flag of `overflowing_add`. -/
def overflow (x y : BitVec 64) : BitVec 64 := if 2 ^ 64 ≤ x.toNat + y.toNat then 1 else 0

/-- `add256`, from a carry on. -/
def addLoop (c : BitVec 64) : List (BitVec 64) → List (BitVec 64) → List (BitVec 64) × BitVec 64
  | a :: as, b :: bs =>
      let (rest, out) := addLoop (overflow a b + overflow (a + b) c) as bs
      ((a + b + c) :: rest, out)
  | _, _ => ([], c)

theorem addLoop_length {as bs : List (BitVec 64)} (same : as.length = bs.length) (c : BitVec 64) :
    (addLoop c as bs).1.length = as.length := by
  induction as generalizing bs c with
  | nil => simp [addLoop]
  | cons a as ih =>
    cases bs with
    | nil => cases same
    | cons b bs => exact congrArg (· + 1) (ih (Nat.succ.inj same) _)

def add256 (a b : Limbs 4) : Limbs 4 × BitVec 64 :=
  (⟨(addLoop 0 a.val b.val).1,
    (addLoop_length (a.property.trans b.property.symm) 0).trans a.property⟩,
    (addLoop 0 a.val b.val).2)

def sub256 (a b : Limbs 4) : Limbs 4 × BitVec 64 :=
  (⟨(Limbs.sub256 0 a.val b.val).1,
    (sub256_length (a.property.trans b.property.symm) 0).trans a.property⟩,
    (Limbs.sub256 0 a.val b.val).2)

def condSubP (a : Limbs 4) : Limbs 4 :=
  let (r, b) := sub256 a prime
  if b = 0 then r else a

/-- What is done with a sum and its carry. -/
def finish (s : Limbs 4 × BitVec 64) : Limbs 4 :=
  if 0 < s.2 then condSubP (add256 s.1 delta).1 else condSubP s.1

def feAdd (a b : Limbs 4) : Limbs 4 := finish (add256 a b)

def feSub (a b : Limbs 4) : Limbs 4 :=
  let (d, b) := sub256 a b
  if 0 < b then
    let (s, b2) := sub256 d delta
    condSubP (if 0 < b2 then (add256 s prime).1 else s)
  else d

def nat (limbs : List (BitVec 64)) : List Int := limbs.map fun x => (x.toNat : Int)

/-- The terms of a row of the product, on wide words. -/
def wideTerms (a : BitVec 64) (bs : List (BitVec 64)) (rs : List Int) : List Int :=
  List.zipWith (fun r b => r + a.toNat * b.toNat) (rs.take bs.length) bs

/-- A row masks its words, and adds its carry to the next one. -/
def wideRow (a : BitVec 64) (bs : List (BitVec 64)) (rs : List Int) : List Int :=
  nat (carried 0 (wideTerms a bs rs)).1 ++
    (rs.drop bs.length).modifyHead (· + (carried (w := 64) 0 (wideTerms a bs rs)).2)

def wideRows : List (BitVec 64) → List (BitVec 64) → List Int → List Int
  | [], _, rs => rs
  | a :: as, bs, rs => (wideRow a bs rs).take 1 ++ wideRows as bs ((wideRow a bs rs).drop 1)

/-- The loop that moves what is above 64 bits on, up to the last word. -/
def normalised (rs : List Int) : List Int :=
  nat (carried 0 (rs.take 7)).1 ++
    (rs.drop 7).modifyHead (· + (carried (w := 64) 0 (rs.take 7)).2)

def product (a b : Limbs 4) : List Int := normalised (wideRows a.val b.val (List.replicate 8 0))

theorem wideTerms_nat (a : BitVec 64) (bs ts : List (BitVec 64)) :
    wideTerms a bs (nat ts) = rowTerms a bs ts := by
  rw [wideTerms, rowTerms, nat, ← List.map_take, List.zipWith_map_left]

/-- On words below 2^64 a row is one of limbs, if there is nothing where it puts its carry. -/
theorem wideRow_nat (a : BitVec 64) {bs ts : List (BitVec 64)} (room : bs.length < ts.length)
    (zeros : ∀ t ∈ ts.drop bs.length, t = 0) : wideRow a bs (nat ts) = nat (putRow a bs ts) := by
  have carry := row_carry a bs ts
  rw [wideRow, putRow, wideTerms_nat, nat, nat, nat, ← List.map_drop, List.map_append]
  congr 1
  cases rest : ts.drop bs.length with
  | nil =>
    have := congrArg List.length rest
    rw [List.length_drop, List.length_nil] at this
    omega
  | cons t more =>
    have zero : t = 0 := zeros t (rest ▸ List.mem_cons_self)
    rw [List.set_cons_zero, List.map_cons, List.map_cons, List.modifyHead_cons, carry, zero]
    congr 1
    exact Int.zero_add _

theorem wideRows_nat {as bs ts : List (BitVec 64)} (room : as.length + bs.length ≤ ts.length)
    (zeros : ∀ t ∈ ts.drop bs.length, t = 0) :
    wideRows as bs (nat ts) = nat (putRows as bs ts) := by
  induction as generalizing ts with
  | nil => rfl
  | cons a as ih =>
    rw [List.length_cons] at room
    have inside : bs.length < ts.length := by omega
    have zeros' : ∀ t ∈ ((putRow a bs ts).drop 1).drop bs.length, t = 0 := by
      rw [putRow_drop a inside, List.drop_drop, Nat.add_comm, ← List.drop_drop]
      exact fun t mem => zeros t (List.mem_of_mem_drop mem)
    have room' : as.length + bs.length ≤ ((putRow a bs ts).drop 1).length := by
      rw [List.length_drop, putRow_length a (Nat.le_of_lt inside)]
      omega
    have rest := ih room' zeros'
    rw [wideRows, putRows, wideRow_nat a inside zeros]
    rw [nat, ← List.map_take, ← List.map_drop]
    rw [nat, nat] at rest
    rw [rest, nat, List.map_append]

theorem normalised_nat {ts : List (BitVec 64)} (eight : ts.length = 8) :
    normalised (nat ts) = nat ts := by
  have last : (ts.drop 7).length = 1 := by rw [List.length_drop, eight]
  rcases List.length_eq_one_iff.mp last with ⟨t, rest⟩
  rw [normalised, nat, nat, ← List.map_take, ← List.map_drop, carried_map, rest]
  conv_rhs => rw [← List.take_append_drop 7 ts, rest, List.map_append]
  rw [List.map_singleton, List.modifyHead_cons, Int.add_zero]

/-- The words of the product are the limbs of the library. -/
theorem product_eq (a b : Limbs 4) : product a b = nat (wide a b) := by
  have room : a.val.length + b.val.length ≤ (List.replicate 8 (0 : BitVec 64)).length := by
    rw [a.property, b.property, List.length_replicate]
  have start : List.replicate 8 (0 : Int) = nat (List.replicate 8 0) := by decide
  rw [product, start, wideRows_nat room fun t mem =>
    List.eq_of_mem_replicate (List.mem_of_mem_drop mem)]
  exact normalised_nat (wide_length a b)

/-- `r[i + 4] * DELTA + low[i]` -/
def lowTerms (rs : List Int) : List Int :=
  List.zipWith (fun h l => h * DELTA.toNat + ((BitVec.ofInt 64 l).toNat : Int)) (rs.drop 4)
    (rs.take 4)

theorem lowTerms_nat (ts : List (BitVec 64)) : lowTerms (nat ts) = foldTerms ts := by
  have same : DELTA.toNat = RED := by decide
  rw [lowTerms, foldTerms, nat, ← List.map_take, ← List.map_drop, List.zipWith_map, same]
  rw [List.zipWith_comm]
  congr 1
  funext l h
  rw [BitVec.ofInt_natCast, BitVec.ofNat_toNat, BitVec.setWidth_eq, Int.mul_comm, Int.add_comm]

theorem lowTerms_product (a b : Limbs 4) : lowTerms (product a b) = foldTerms (wide a b) := by
  rw [product_eq, lowTerms_nat]

theorem lowTerms_four (a b : Limbs 4) : (lowTerms (product a b)).length = 4 := by
  rw [lowTerms_product]
  exact foldTerms_four (wide_length a b)

/-- `lo_cd` and `hi_cd` -/
def left (cd : Int) : Limbs 4 :=
  ⟨[BitVec.ofInt 64 cd, BitVec.ofInt 64 (cd >>> (64 : Nat)), 0, 0], rfl⟩

def feMul (a b : Limbs 4) : Limbs 4 :=
  let terms := lowTerms (product a b)
  let cd := outOf terms * DELTA.toNat
  finish (add256 (running terms (lowTerms_four a b)) (left cd))

def feSqr (a : Limbs 4) : Limbs 4 := feMul a a

/-- The rounds over a word of the exponent, its highest bit first. -/
def powRounds (a : Limbs 4) : Nat → BitVec 64 → Limbs 4 → Limbs 4
  | 0, _, r => r
  | n + 1, bits, r =>
      let r := feSqr r
      powRounds a n (bits <<< 1) (if bits >>> 63 ≠ 0 then feMul r a else r)

def power (a : Limbs 4) (exp : Limbs 4) : Limbs 4 :=
  exp.val.reverse.foldl (fun r bits => powRounds a 64 bits r) feOne

theorem inverseExponent_four : ([0xFFFFFFFEFFFFFC2D, 0xFFFFFFFFFFFFFFFF, 0xFFFFFFFFFFFFFFFF,
    0xFFFFFFFFFFFFFFFF] : List (BitVec 64)).length = 4 := rfl

def feInv (a : Limbs 4) : Limbs 4 :=
  power a ⟨[0xFFFFFFFEFFFFFC2D, 0xFFFFFFFFFFFFFFFF, 0xFFFFFFFFFFFFFFFF, 0xFFFFFFFFFFFFFFFF],
    inverseExponent_four⟩

def feSqrt (a : Limbs 4) : Limbs 4 :=
  power a ⟨[0xFFFFFFFFBFFFFF0C, 0xFFFFFFFFFFFFFFFF, 0xFFFFFFFFFFFFFFFF, 0x3FFFFFFFFFFFFFFF], rfl⟩

/-! ### Their values -/

theorem overflow_step (a b : BitVec 64) {c : BitVec 64} (bit : c.toNat ≤ 1) :
    (a + b + c).toNat + 2 ^ 64 * (overflow a b + overflow (a + b) c).toNat =
        a.toNat + b.toNat + c.toNat ∧ (overflow a b + overflow (a + b) c).toNat ≤ 1 := by
  have boundA := a.isLt
  have boundB := b.isLt
  have zero : (0 : BitVec 64).toNat = 0 := rfl
  have one : (1 : BitVec 64).toNat = 1 := rfl
  unfold overflow
  simp only [BitVec.toNat_add]
  split_ifs
  · omega
  · rw [one, zero]
    omega
  · rw [one, zero]
    omega
  · rw [zero]
    omega

theorem addLoop_value {as bs : List (BitVec 64)} (same : as.length = bs.length)
    {c : BitVec 64} (bit : c.toNat ≤ 1) :
    value (addLoop c as bs).1 + 2 ^ (64 * as.length) * (addLoop c as bs).2.toNat =
        value as + value bs + c.toNat ∧ (addLoop c as bs).2.toNat ≤ 1 := by
  induction as generalizing bs c with
  | nil =>
    cases bs with
    | nil => exact ⟨by simp [addLoop], bit⟩
    | cons b bs => cases same
  | cons a as ih =>
    cases bs with
    | nil => cases same
    | cons b bs =>
      rcases overflow_step a b bit with ⟨here, next⟩
      rcases ih (Nat.succ.inj same) next with ⟨rest, last⟩
      refine ⟨?_, last⟩
      rw [addLoop, value_cons, value_cons, value_cons, List.length_cons, Nat.mul_succ,
        Nat.pow_add 2 (64 * as.length) 64]
      linear_combination here + 2 ^ 64 * rest

theorem add256_num (a b : Limbs 4) :
    num (add256 a b).1 + 2 ^ 256 * (add256 a b).2.toNat = num a + num b ∧
      (add256 a b).2.toNat ≤ 1 := by
  rcases addLoop_value (a.property.trans b.property.symm)
    (show (0 : BitVec 64).toNat ≤ 1 by decide) with ⟨total, bit⟩
  rw [a.property] at total
  exact ⟨total, bit⟩

theorem sub256_num (a b : Limbs 4) :
    num (sub256 a b).1 + num b = num a + 2 ^ 256 * (sub256 a b).2.toNat ∧
      (sub256 a b).2.toNat ≤ 1 := by
  rcases sub256_value (a.property.trans b.property.symm)
    (show (0 : BitVec 64).toNat ≤ 1 by decide) with ⟨total, bit⟩
  rw [a.property] at total
  exact ⟨total, bit⟩

theorem pos_iff (c : BitVec 64) : 0 < c ↔ 0 < c.toNat := BitVec.lt_def

theorem condSubP_num (a : Limbs 4) : num (condSubP a) = num a % fieldPrime := by
  have known : fieldPrime = 2 ^ 256 - 2 ^ 32 - 977 := rfl
  rcases sub256_num a prime with ⟨total, bit⟩
  have bound := num_lt a
  have bound' := num_lt (sub256 a prime).1
  rw [num_prime] at total
  unfold condSubP
  by_cases none : (sub256 a prime).2 = 0
  · have zero : (sub256 a prime).2.toNat = 0 := by rw [none]; rfl
    have above : fieldPrime ≤ num a := by omega
    have less : num (sub256 a prime).1 = num a - fieldPrime := by omega
    simp only [if_pos none]
    rw [less, Nat.mod_eq_sub_mod above, Nat.mod_eq_of_lt (by omega)]
  · have one : (sub256 a prime).2.toNat ≠ 0 := fun zero =>
      none (BitVec.eq_of_toNat_eq zero)
    simp only [if_neg none]
    exact (Nat.mod_eq_of_lt (by omega)).symm

theorem num_delta : num delta = RED := by decide

/-- A carry is folded into the sum, and there is room for it. -/
theorem finish_num {a b : Limbs 4} (room : num a + num b + RED < 2 ^ 257) :
    num (finish (add256 a b)) = (num a + num b) % fieldPrime := by
  have known : fieldPrime = 2 ^ 256 - 2 ^ 32 - 977 := rfl
  have red : RED = 2 ^ 32 + 977 := rfl
  rcases add256_num a b with ⟨sum, bit⟩
  rcases add256_num (add256 a b).1 delta with ⟨again, bit'⟩
  have bound := num_lt (add256 a b).1
  have bound' := num_lt (add256 (add256 a b).1 delta).1
  rw [num_delta] at again
  rw [finish]
  by_cases carry : 0 < (add256 a b).2
  · have one := (pos_iff _).mp carry
    have less : num a + num b = num (add256 (add256 a b).1 delta).1 + fieldPrime := by omega
    rw [if_pos carry, condSubP_num, less, Nat.add_mod_right]
  · have zero : ¬ 0 < (add256 a b).2.toNat := fun pos => carry ((pos_iff _).mpr pos)
    have same : num (add256 a b).1 = num a + num b := by omega
    rw [if_neg carry, condSubP_num, same]

theorem feAdd_num {a b : Limbs 4} (smallA : num a < fieldPrime) (smallB : num b < fieldPrime) :
    num (feAdd a b) = (num a + num b) % fieldPrime := by
  have known : fieldPrime = 2 ^ 256 - 2 ^ 32 - 977 := rfl
  have red : RED = 2 ^ 32 + 977 := rfl
  exact finish_num (by omega)

theorem feSub_num {a b : Limbs 4} (smallA : num a < fieldPrime) (smallB : num b < fieldPrime) :
    num (feSub a b) = (num a + fieldPrime - num b) % fieldPrime := by
  have known : fieldPrime = 2 ^ 256 - 2 ^ 32 - 977 := rfl
  have red : RED = 2 ^ 32 + 977 := rfl
  rcases sub256_num a b with ⟨difference, bit⟩
  rcases sub256_num (sub256 a b).1 delta with ⟨again, bit'⟩
  have bound := num_lt (sub256 a b).1
  have bound' := num_lt (sub256 (sub256 a b).1 delta).1
  rw [num_delta] at again
  unfold feSub
  by_cases borrow : 0 < (sub256 a b).2
  · have one := (pos_iff _).mp borrow
    have none : ¬ 0 < (sub256 (sub256 a b).1 delta).2 := fun pos => by
      have := (pos_iff _).mp pos
      omega
    have same : num (sub256 (sub256 a b).1 delta).1 = num a + fieldPrime - num b := by omega
    simp only [if_pos borrow, if_neg none, condSubP_num]
    rw [same]
  · have zero : ¬ 0 < (sub256 a b).2.toNat := fun pos => borrow ((pos_iff _).mpr pos)
    have same : num a + fieldPrime - num b = num (sub256 a b).1 + fieldPrime := by omega
    simp only [if_neg borrow]
    rw [same, Nat.add_mod_right]
    exact (Nat.mod_eq_of_lt (by omega)).symm

theorem left_num {cd : Int} (positive : 0 ≤ cd) (small : cd < 2 ^ 128) :
    (num (left cd) : Int) = cd := by
  have high : cd >>> (64 : Nat) = cd / 2 ^ 64 := by
    rw [Int.shiftRight_eq_div_pow]
    rfl
  have zero : (0 : BitVec 64).toNat = 0 := rfl
  simp only [num, left, value_cons, value_nil, BitVec.toNat_ofInt, high, zero]
  omega

/-- The product is folded twice. -/
theorem feMul_num (a b : Limbs 4) : num (feMul a b) = num a * num b % fieldPrime := by
  have known : (fieldPrime : Int) = 2 ^ 256 - 4294968273 := by decide
  have red : RED = 4294968273 := rfl
  have same : (DELTA.toNat : Int) = 4294968273 := rfl
  have eight := wide_length a b
  have four : (List.take 4 (wide a b)).length = 4 := List.length_take_of_le (by omega)
  have split := value_append ((wide a b).take 4) ((wide a b).drop 4)
  rw [List.take_append_drop, wide_value, four] at split
  have total := running_num (lowTerms (product a b)) (lowTerms_four a b)
  have terms := foldTerms_weighted eight
  have bound := fold_out (wide a b)
  rw [← lowTerms_product] at bound terms
  rw [terms] at total
  rw [red] at bound total
  have cd : 0 ≤ outOf (lowTerms (product a b)) * DELTA.toNat ∧
      outOf (lowTerms (product a b)) * DELTA.toNat < 2 ^ 68 := by
    rw [same]
    omega
  have folded := left_num cd.1 (by omega)
  have low := num_lt (running (lowTerms (product a b)) (lowTerms_four a b))
  rw [feMul, finish_num (by omega)]
  refine Int.natCast_modEq_iff.mp (Int.modEq_iff_dvd.mpr
    ⟨outOf (lowTerms (product a b)) + value ((wide a b).drop 4), ?_⟩)
  rw [split, known]
  push_cast
  rw [folded, same]
  push_cast at total
  omega

/-! ### Powers and roots -/

/-- On a product the two implementations agree. -/
theorem feMul_eq (a b : Limbs 4) : feMul a b = Limbs.feMul a b :=
  num_inj ((feMul_num a b).trans (Limbs.feMul_num a b).symm)

theorem toField_feMul (a b : Limbs 4) : toField (feMul a b) = toField a * toField b := by
  rw [feMul_eq, Limbs.toField_feMul]

/-- The rounds shift the exponent out of its word. -/
theorem powRounds_toField (a : Limbs 4) {n : Nat} (fits : n ≤ 64) (bits : BitVec 64)
    (r : Limbs 4) : toField (powRounds a n bits r) =
      toField r ^ 2 ^ n * toField a ^ (bits.toNat / 2 ^ (64 - n)) := by
  induction n generalizing bits r with
  | zero =>
    have none : bits.toNat / 2 ^ 64 = 0 := Nat.div_eq_of_lt bits.isLt
    rw [powRounds, Nat.pow_zero, pow_one, none, pow_zero, mul_one]
  | succ n ih =>
    have bound := bits.isLt
    have top : bits >>> 63 ≠ 0 ↔ 2 ^ 63 ≤ bits.toNat := by
      rw [ne_eq, ← BitVec.toNat_inj, BitVec.toNat_ushiftRight, Nat.shiftRight_eq_div_pow]
      have zero : (0 : BitVec 64).toNat = 0 := rfl
      rw [zero]
      omega
    have split : bits.toNat / 2 ^ (64 - (n + 1)) =
        (if 2 ^ 63 ≤ bits.toNat then 2 ^ n else 0) + (bits <<< 1).toNat / 2 ^ (64 - n) := by
      have power : 2 ^ (64 - n) = 2 * 2 ^ (64 - (n + 1)) := by
        rw [← Nat.pow_succ']
        congr 1
        omega
      have whole : 2 ^ 63 = 2 ^ n * 2 ^ (64 - (n + 1)) := by
        rw [← Nat.pow_add]
        congr 1
        omega
      have shifted : (bits <<< 1).toNat =
          2 * (bits.toNat - if 2 ^ 63 ≤ bits.toNat then 2 ^ 63 else 0) := by
        rw [BitVec.toNat_shiftLeft, Nat.shiftLeft_eq]
        split
        · omega
        · omega
      rw [shifted, power, Nat.mul_div_mul_left _ _ Nat.two_pos]
      split
      · rename_i above
        have parts : bits.toNat = (bits.toNat - 2 ^ 63) + 2 ^ n * 2 ^ (64 - (n + 1)) := by omega
        conv_lhs => rw [parts]
        rw [Nat.add_mul_div_right _ _ (Nat.two_pow_pos _), Nat.add_comm]
      · rw [Nat.sub_zero, Nat.zero_add]
    rw [powRounds, ih (Nat.le_of_succ_le fits), split]
    by_cases above : 2 ^ 63 ≤ bits.toNat
    · rw [if_pos (top.mpr above), if_pos above, toField_feMul, feSqr, toField_feMul, pow_add,
        Nat.pow_succ]
      ring
    · rw [if_neg fun set => above (top.mp set), if_neg above, feSqr, toField_feMul,
        Nat.zero_add, Nat.pow_succ]
      ring

/-- The exponent that the words are, the highest one first. -/
theorem words_toField (a : Limbs 4) (words : List (BitVec 64)) {r : Limbs 4} {e : Nat}
    (start : toField r = toField a ^ e) :
    toField (words.foldl (fun r bits => powRounds a 64 bits r) r) =
      toField a ^ words.foldl (fun e bits => e * 2 ^ 64 + bits.toNat) e := by
  induction words generalizing r e with
  | nil => exact start
  | cons bits words ih =>
    rw [List.foldl_cons, List.foldl_cons]
    refine ih ?_
    rw [powRounds_toField a (Nat.le_refl 64), start, Nat.sub_self, Nat.pow_zero, Nat.div_one,
      ← pow_mul, ← pow_add]

theorem toField_power (a exp : Limbs 4) : toField (power a exp) =
    toField a ^ exp.val.reverse.foldl (fun e bits => e * 2 ^ 64 + bits.toNat) 0 :=
  words_toField a exp.val.reverse (toField_feOne.trans (pow_zero _).symm)

theorem toField_feInv (a : Limbs 4) : toField (feInv a) = toField a ^ (fieldPrime - 2) := by
  rw [feInv, toField_power]
  congr 1

theorem toField_feSqrt (a : Limbs 4) :
    toField (feSqrt a) = toField a ^ ((fieldPrime + 1) / 4) := by
  rw [feSqrt, toField_power]
  congr 1

/-- The power is a root of every square. -/
theorem feSqrt_sq {a : Limbs 4} {root : ZMod fieldPrime} (square : root * root = toField a) :
    toField (feSqrt a) * toField (feSqrt a) = toField a := by
  have exponent : (fieldPrime + 1) / 4 + (fieldPrime + 1) / 4 = (fieldPrime - 1) / 2 + 1 := by
    decide
  have doubled : 2 * ((fieldPrime - 1) / 2 + 1) = fieldPrime + 1 := by decide
  rw [toField_feSqrt, ← pow_add, exponent, ← square, ← pow_two, ← pow_mul, doubled, pow_succ,
    ZMod.pow_card, pow_two]

end Builtin
end LispRlm.Schnorr
