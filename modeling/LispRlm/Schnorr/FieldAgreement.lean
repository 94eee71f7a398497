import LispRlm.Schnorr.BuiltinFields

/-! The two implementations of the field agree and are exact; their accumulators fit 128 bits. -/

namespace LispRlm.Schnorr

open Foundation.Limbs Limbs

/-! ### The accumulators -/

/-- What fits `u128`. -/
def Narrow (totals : List Int) : Prop := ∀ total ∈ totals, 0 ≤ total ∧ total < 2 ^ 128

theorem Narrow.append {xs ys : List Int} (first : Narrow xs) (second : Narrow ys) :
    Narrow (xs ++ ys) := by
  intro total mem
  rcases List.mem_append.mp mem with here | there
  · exact first total here
  · exact second total there

namespace Limbs

/-- The loops of `fe_add`, run or not. -/
def feAddTotals (a b : Limbs 4) : List Int :=
  totals 64 0 (addTerms a b) ++ (totals 64 RED (ints (adding a b)) ++
    totals 64 RED (ints (addInto RED (adding a b))))

/-- The loop of `fe_sub` on unsigned words. -/
def feSubTotals (a b : Limbs 4) : List Int := totals 64 0 (addTerms prime (borrowing a b))

def roundTotals : Nat → Int → Limbs 4 → List Int
  | 0, _, _ => []
  | n + 1, fold, r =>
      if fold = 0 then []
      else [fold * RED] ++ (totals 64 (fold * RED) (ints r) ++
        roundTotals n (addIntoOut (fold * RED) r) (addInto (fold * RED) r))

theorem foldTerms_wide (a b : Limbs 4) : (foldTerms (wide a b)).length = 4 :=
  foldTerms_four (wide_length a b)

def feMulTotals (a b : Limbs 4) : List Int :=
  rowsTotals a.val b.val (List.replicate 8 0) ++ (totals 64 0 (foldTerms (wide a b)) ++
    roundTotals 3 (BitVec.ofInt 64 (outOf (foldTerms (wide a b)))).toNat
      (running (foldTerms (wide a b)) (foldTerms_wide a b)))

/-- The totals of `fe_sub_p` before they wrap. -/
def subPTotals : BitVec 128 → List (BitVec 64) → List (BitVec 64) → List Int
  | b, r :: rs, p :: ps =>
      ((r.toNat + (-(p.setWidth 128)).toNat + b.toNat : Nat) : Int) ::
        subPTotals (((r.setWidth 128 + -(p.setWidth 128) + b) >>> 127) &&& 1) rs ps
  | _, _, _ => []

/-- Those of the reduction's first subtraction. -/
def reduceTotals (r : Limbs 4) : List Int :=
  if geP r then subPTotals 0 r.val prime.val else []

def carryUpTotals : Int → List (BitVec 64) → List Int
  | _, [] => []
  | c, limb :: limbs =>
      if 0 < c then (limb.toNat + c) :: carryUpTotals ((limb.toNat + c) >>> (64 : Nat)) limbs
      else []

/-- The rows of the scalar product. -/
def mulIntoTotals : List (BitVec 64) → List (BitVec 64) → List (BitVec 64) → List Int
  | [], _, _ => []
  | a :: as, bs, ts =>
      totals 64 0 (rowTerms a bs ts) ++
        (carryUpTotals (carried (w := 64) 0 (rowTerms a bs ts)).2 (ts.drop bs.length) ++
          mulIntoTotals as bs ((mulRow a bs ts).drop 1))

def scMulTotals (a b : Limbs 4) : List Int := mulIntoTotals a.val b.val (List.replicate 8 0)

def scAddTotals (a b : Limbs 4) : List Int := totals 64 0 (addTerms a b)

theorem totals_narrow {c C T : Int} (carry : 0 ≤ c ∧ c ≤ C) {terms : List Int}
    (all : ∀ t ∈ terms, 0 ≤ t ∧ t ≤ T) (closed : C + T < 2 ^ 64 * (C + 1))
    (fits : C + T < 2 ^ 128) : Narrow (totals 64 c terms) := by
  intro total mem
  have bound := totals_le carry all closed total mem
  exact ⟨bound.1, Int.lt_of_le_of_lt bound.2 fits⟩

theorem addTerms_le (a b : Limbs 4) : ∀ t ∈ addTerms a b, 0 ≤ t ∧ t ≤ 2 ^ 65 := by
  refine forall_mem_zipWith (fun x y => ?_) _ _
  have boundX := x.isLt
  have boundY := y.isLt
  omega

theorem ints_le (r : Limbs 4) : ∀ t ∈ ints r, 0 ≤ t ∧ t ≤ 2 ^ 64 := by
  intro t mem
  rcases List.mem_map.mp mem with ⟨x, -, rfl⟩
  have bound := x.isLt
  omega

theorem addTotals_narrow (a b : Limbs 4) : Narrow (totals 64 0 (addTerms a b)) :=
  totals_narrow (C := 2) ⟨Int.le_refl 0, by decide⟩ (addTerms_le a b) (by decide) (by decide)

theorem ints_narrow {c : Int} (r : Limbs 4) (carry : 0 ≤ c ∧ c ≤ 2 ^ 68) :
    Narrow (totals 64 c (ints r)) :=
  totals_narrow carry (ints_le r) (by decide) (by decide)

theorem addIntoOut_le {c : Int} (r : Limbs 4) (carry : 0 ≤ c ∧ c ≤ 2 ^ 68) :
    0 ≤ addIntoOut c r ∧ addIntoOut c r ≤ 1 := by
  have total := addInto_num c r
  have bound := num_lt r
  have bound' := num_lt (addInto c r)
  omega

theorem roundTotals_narrow {n : Nat} {fold : Int} (r : Limbs 4)
    (small : 0 ≤ fold ∧ fold ≤ RED + 1) : Narrow (roundTotals n fold r) := by
  have red : (RED : Int) = 4294968273 := rfl
  induction n generalizing fold r with
  | zero => exact fun _ mem => by cases mem
  | succ n ih =>
    rw [roundTotals]
    split
    · exact fun _ mem => by cases mem
    · rw [red] at small
      have product : 0 ≤ fold * RED ∧ fold * RED ≤ 2 ^ 68 := by
        rw [red]
        omega
      have next := addIntoOut_le r product
      refine .append (List.forall_mem_singleton.mpr (by omega)) (.append (ints_narrow r product)
        (ih _ ⟨next.1, ?_⟩))
      omega

theorem feAdd_narrow (a b : Limbs 4) : Narrow (feAddTotals a b) :=
  .append (addTotals_narrow a b) (.append (ints_narrow _ (by decide)) (ints_narrow _ (by decide)))

theorem rows_narrow (a b : Limbs 4) (ts : List (BitVec 64)) :
    Narrow (rowsTotals a.val b.val ts) := rowsTotals_le

theorem foldTotals_narrow (t : List (BitVec 64)) : Narrow (totals 64 0 (foldTerms t)) :=
  totals_narrow ⟨Int.le_refl 0, by decide⟩ (foldTerms_le t) fold_closed (by decide)

theorem feMul_narrow (a b : Limbs 4) : Narrow (feMulTotals a b) :=
  .append (rows_narrow a b _) (.append (foldTotals_narrow _)
    (roundTotals_narrow _ (by rw [ofInt_outOf]; exact fold_out (wide a b))))

theorem carryUp_narrow {c : Int} (carry : c ≤ 2 ^ 64) (limbs : List (BitVec 64)) :
    Narrow (carryUpTotals c limbs) := by
  induction limbs generalizing c with
  | nil => exact fun _ mem => by cases mem
  | cons limb limbs ih =>
    have bound := limb.isLt
    rw [carryUpTotals]
    split
    · have next : ((limb.toNat : Int) + c) >>> (64 : Nat) ≤ 2 ^ 64 := by
        rw [Int.shiftRight_eq_div_pow]
        push_cast
        omega
      exact List.forall_mem_cons.mpr ⟨by omega, ih next⟩
    · exact fun _ mem => by cases mem

theorem mulInto_narrow (as bs ts : List (BitVec 64)) : Narrow (mulIntoTotals as bs ts) := by
  induction as generalizing ts with
  | nil => exact fun _ mem => by cases mem
  | cons a as ih =>
    have carry := carried_le (w := 64) ⟨Int.le_refl 0, zero_le_ones 64⟩ (rowTerms_le a bs ts)
      (row_closed 64)
    exact .append (totals_narrow ⟨Int.le_refl 0, zero_le_ones 64⟩ (rowTerms_le a bs ts)
      (row_closed 64) (by decide)) (.append (carryUp_narrow (by omega) _) (ih _))

end Limbs

namespace Builtin

/-- The rows of the product with the words that they leave. -/
def wideTotals : List (BitVec 64) → List (BitVec 64) → List Int → List Int
  | [], _, _ => []
  | a :: as, bs, rs =>
      totals 64 0 (wideTerms a bs rs) ++ (wideRow a bs rs ++
        wideTotals as bs ((wideRow a bs rs).drop 1))

def feMulTotals (a b : Limbs 4) : List Int :=
  wideTotals a.val b.val (List.replicate 8 0) ++
    (totals 64 0 (wideRows a.val b.val (List.replicate 8 0)) ++
      (totals 64 0 (lowTerms (product a b)) ++ [outOf (lowTerms (product a b)) * DELTA.toNat]))

theorem nat_narrow (limbs : List (BitVec 64)) : Narrow (nat limbs) := by
  intro t mem
  rcases List.mem_map.mp mem with ⟨x, -, rfl⟩
  have bound := x.isLt
  omega

theorem wideTotals_narrow {as bs ts : List (BitVec 64)}
    (room : as.length + bs.length ≤ ts.length) (zeros : ∀ t ∈ ts.drop bs.length, t = 0) :
    Narrow (wideTotals as bs (nat ts)) := by
  induction as generalizing ts with
  | nil => exact fun _ mem => by cases mem
  | cons a as ih =>
    rw [List.length_cons] at room
    have inside : bs.length < ts.length := by omega
    have zeros' : ∀ t ∈ ((putRow a bs ts).drop 1).drop bs.length, t = 0 := by
      rw [putRow_drop a inside, List.drop_drop, Nat.add_comm, ← List.drop_drop]
      exact fun t mem => zeros t (List.mem_of_mem_drop mem)
    have room' : as.length + bs.length ≤ ((putRow a bs ts).drop 1).length := by
      rw [List.length_drop, putRow_length a (Nat.le_of_lt inside)]
      omega
    have rest := ih room' zeros'
    rw [nat, List.map_drop] at rest
    rw [wideTotals, wideRow_nat a inside zeros, wideTerms_nat]
    exact .append (totals_narrow ⟨Int.le_refl 0, zero_le_ones 64⟩ (rowTerms_le a bs ts)
      (row_closed 64) (by decide)) (.append (nat_narrow _) rest)

theorem feMul_narrow (a b : Limbs 4) : Narrow (feMulTotals a b) := by
  have room : a.val.length + b.val.length ≤ (List.replicate 8 (0 : BitVec 64)).length := by
    rw [a.property, b.property, List.length_replicate]
  have zeros : ∀ t ∈ (List.replicate 8 (0 : BitVec 64)).drop b.val.length, t = 0 := fun t mem =>
    List.eq_of_mem_replicate (List.mem_of_mem_drop mem)
  have start : List.replicate 8 (0 : Int) = nat (List.replicate 8 0) := by decide
  have bound := fold_out (wide a b)
  have same : (DELTA.toNat : Int) = 4294968273 := rfl
  have red : (RED : Int) = 4294968273 := rfl
  rw [feMulTotals, lowTerms_product, start, wideRows_nat room zeros]
  refine .append (wideTotals_narrow room zeros) (.append ?_ (.append (foldTotals_narrow _) ?_))
  · refine totals_narrow (C := 1) (T := 2 ^ 64) ⟨Int.le_refl 0, by decide⟩ (fun t mem => ?_)
      (by decide) (by decide)
    rcases List.mem_map.mp mem with ⟨x, -, rfl⟩
    have small := x.isLt
    omega
  · refine List.forall_mem_singleton.mpr ?_
    rw [same]
    rw [red] at bound
    omega

theorem powRounds_lt (a : Limbs 4) {r : Limbs 4} (small : num r < fieldPrime) (n : Nat)
    (bits : BitVec 64) : num (powRounds a n bits r) < fieldPrime := by
  induction n generalizing r bits with
  | zero => exact small
  | succ n ih =>
    refine ih ?_ _
    split
    · rw [feMul_eq]
      exact Limbs.feMul_lt _ _
    · rw [feSqr, feMul_eq]
      exact Limbs.feMul_lt r r

theorem power_lt (a exp : Limbs 4) : num (power a exp) < fieldPrime := by
  have one : num feOne < fieldPrime := by decide
  rw [power]
  generalize feOne = r at one
  induction exp.val.reverse generalizing r with
  | nil => exact one
  | cons bits words ih => exact ih _ (powRounds_lt a one 64 bits)

theorem feInv_eq (a : Limbs 4) : feInv a = Limbs.feInv a :=
  toField_inj (power_lt a _) (fePow_lt a _)
    ((toField_feInv a).trans (Limbs.toField_feInv a).symm)

end Builtin

/-! ### The arithmetic -/

theorem sub_emod {a b : Nat} (small : b < fieldPrime) :
    (((a + fieldPrime - b) % fieldPrime : Nat) : Int) = ((a : Int) - b) % fieldPrime := by
  have rearranged : ((a + fieldPrime - b : Nat) : Int) = (a : Int) - b + fieldPrime := by omega
  rw [Int.natCast_mod, rearranged, Int.add_emod_right]

theorem scMulModN_num (a b : Limbs 4) : num (Limbs.scMulModN a b) = num a * num b % N.toNat := by
  have product := scMulModN_toNat (word a) (word b)
  rw [← Limbs.scMulModN_word, word_toNat, word_toNat, word_toNat] at product
  exact product

theorem scAddModN_num {a b : Limbs 4} (smallA : num a < N.toNat) (smallB : num b < N.toNat) :
    num (Limbs.scAddModN a b) = (num a + num b) % N.toNat := by
  have sum : (word a).toNat + (word b).toNat < 2 * N.toNat := by
    rw [word_toNat, word_toNat]
    exact (Nat.two_mul N.toNat).symm ▸ Nat.add_lt_add smallA smallB
  have total := scAddModN_toNat sum
  rw [← Limbs.scAddModN_word, word_toNat, word_toNat, word_toNat] at total
  exact total

theorem feInv_num {a : Limbs 4} (positive : num a ≠ 0) (small : num a < fieldPrime) :
    num (feMul (feInv a) a) = 1 := by
  have one : num feOne = 1 := by decide
  have same : feMul (feInv a) a = feOne := by
    refine toField_inj (feMul_lt _ _) (by decide) ?_
    rw [toField_feMul, toField_feOne, feInv_mul positive small]
  rw [same, one]

theorem feSqrt_mul {a root : Limbs 4} (small : num a < fieldPrime)
    (square : feMul root root = a) :
    feMul (Builtin.feSqrt a) (Builtin.feSqrt a) = a := by
  have squared : toField root * toField root = toField a := by rw [← toField_feMul, square]
  apply toField_inj (feMul_lt _ _) small
  rw [toField_feMul, Builtin.feSqrt_sq squared]

/-- Sums, differences and products are those of the field, in both implementations; the inverse is
one, the root is one where there is one; scalars are reduced by the order. -/
theorem arithmetic_exact :
    (∀ a b : Limbs 4, num a < fieldPrime → num b < fieldPrime →
      num (feAdd a b) = (num a + num b) % fieldPrime ∧
      (num (feSub a b) : Int) = ((num a : Int) - num b) % fieldPrime ∧
      num (feMul a b) = num a * num b % fieldPrime ∧
      Builtin.feAdd a b = feAdd a b ∧ Builtin.feSub a b = feSub a b ∧
      Builtin.feMul a b = feMul a b) ∧
    (∀ a b : Limbs 4, Narrow (feAddTotals a b) ∧ Narrow (feSubTotals a b) ∧
      Narrow (feMulTotals a b) ∧ Narrow (Builtin.feMulTotals a b) ∧ Narrow (scMulTotals a b) ∧
      Narrow (scAddTotals a b)) ∧
    (∀ a : Limbs 4, num a ≠ 0 → num a < fieldPrime →
      num (feMul (feInv a) a) = 1 ∧ Builtin.feInv a = feInv a) ∧
    (∀ a root : Limbs 4, num a < fieldPrime → feMul root root = a →
      feMul (Builtin.feSqrt a) (Builtin.feSqrt a) = a) ∧
    (∀ a b : Limbs 4, num (Limbs.scMulModN a b) = num a * num b % N.toNat) ∧
    (∀ a b : Limbs 4, num a < N.toNat → num b < N.toNat →
      num (Limbs.scAddModN a b) = (num a + num b) % N.toNat) := by
  refine ⟨fun a b smallA smallB => ?_, fun a b => ?_, fun a positive small => ?_,
    fun a root small square => feSqrt_mul small square, scMulModN_num,
    fun a b smallA smallB => scAddModN_num smallA smallB⟩
  · have sum := feAdd_num smallA smallB
    have difference := feSub_num (Nat.le_of_lt smallA) (Nat.le_of_lt smallB)
    refine ⟨sum, ?_, feMul_num a b, num_inj ?_, num_inj ?_, Builtin.feMul_eq a b⟩
    · rw [difference]
      exact sub_emod smallB
    · exact (Builtin.feAdd_num smallA smallB).trans sum.symm
    · exact (Builtin.feSub_num smallA smallB).trans difference.symm
  · exact ⟨feAdd_narrow a b, addTotals_narrow prime (borrowing a b), feMul_narrow a b,
      Builtin.feMul_narrow a b, mulInto_narrow a.val b.val _, addTotals_narrow a b⟩
  · exact ⟨feInv_num positive small, Builtin.feInv_eq a⟩

/-- The greatest element of the field. -/
def minusOne : Limbs 4 :=
  ⟨[0xFFFFFFFEFFFFFC2E, 0xFFFFFFFFFFFFFFFF, 0xFFFFFFFFFFFFFFFF, 0xFFFFFFFFFFFFFFFF], rfl⟩

/-- The total of `fe_sub_p` leaves 128 bits by design: it adds the two's complement. -/
theorem subtraction_wraps :
    ¬ ∀ a b : Limbs 4, num a < fieldPrime → num b < fieldPrime →
      Narrow (feAddTotals a b) ∧ Narrow (reduceTotals (adding a b)) := by
  intro always
  have narrow := (always minusOne feOne (by decide) (by decide)).2
  have first : (2 : Int) ^ 128 ∈ reduceTotals (adding minusOne feOne) := by decide
  exact absurd (narrow _ first).2 (Int.lt_irrefl _)

end LispRlm.Schnorr
