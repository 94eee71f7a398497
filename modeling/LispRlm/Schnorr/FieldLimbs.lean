import LispRlm.Foundation.WideProducts
import LispRlm.Schnorr.FieldPrime
import LispRlm.Schnorr.Limbs
import Mathlib.FieldTheory.Finite.Basic

/-! The field operations of the schnorr library over four limbs. The running totals of their loops
are integers: they fit 128 bits. -/

namespace LispRlm.Schnorr

open Foundation.Limbs

namespace Limbs

/-- `P` -/
def prime : Limbs 4 :=
  ⟨[0xFFFFFFFEFFFFFC2F, 0xFFFFFFFFFFFFFFFF, 0xFFFFFFFFFFFFFFFF, 0xFFFFFFFFFFFFFFFF], rfl⟩

def RED : Nat := 0x1000003D1

def feOne : Limbs 4 := ⟨[1, 0, 0, 0], rfl⟩

def num (a : Limbs 4) : Nat := value a.val

theorem num_lt (a : Limbs 4) : num a < 2 ^ 256 := by
  have bound := value_lt a.val
  rw [a.property] at bound
  exact bound

theorem num_inj {a b : Limbs 4} (equal : num a = num b) : a = b :=
  Subtype.ext (value_inj (a.property.trans b.property.symm) equal)

theorem num_prime : num prime = fieldPrime := by decide

theorem fieldPrime_eq : fieldPrime + RED = 2 ^ 256 := by decide

/-! ### The operations -/

def geP (a : Limbs 4) : Bool := geqDown a.val.reverse prime.val.reverse

/-- The loop of `fe_sub_p`: the top bit of the wrapped total is added to the next one. -/
def subP : BitVec 128 → List (BitVec 64) → List (BitVec 64) → List (BitVec 64)
  | b, r :: rs, p :: ps =>
      let b := r.setWidth 128 + -(p.setWidth 128) + b
      b.setWidth 64 :: subP ((b >>> 127) &&& 1) rs ps
  | _, _, _ => []

theorem subP_length (b : BitVec 128) {rs ps : List (BitVec 64)} (same : rs.length = ps.length) :
    (subP b rs ps).length = rs.length := by
  induction rs generalizing b ps with
  | nil => simp [subP]
  | cons r rs ih =>
    cases ps with
    | nil => cases same
    | cons p ps => exact congrArg (· + 1) (ih _ (Nat.succ.inj same))

def feSubP (r : Limbs 4) : Limbs 4 :=
  ⟨subP 0 r.val prime.val,
    (subP_length 0 (r.property.trans prime.property.symm)).trans r.property⟩

def feReduce (r : Limbs 4) : Limbs 4 :=
  let r := if geP r then feSubP r else r
  if geP r then feSubP r else r

def ints (r : Limbs 4) : List Int := r.val.map fun x => (x.toNat : Int)

/-- The loop that adds `c` to the lowest limb. -/
def addInto (c : Int) (r : Limbs 4) : Limbs 4 :=
  ⟨(carried c (ints r)).1, (carried_length c _).trans ((List.length_map _).trans r.property)⟩

def addIntoOut (c : Int) (r : Limbs 4) : Int := (carried (w := 64) c (ints r)).2

def addTerms (a b : Limbs 4) : List Int :=
  List.zipWith (fun x y => (x.toNat : Int) + y.toNat) a.val b.val

def subTerms (a b : Limbs 4) : List Int :=
  List.zipWith (fun x y => (x.toNat : Int) - y.toNat) a.val b.val

def outOf (terms : List Int) : Int := (carried (w := 64) 0 terms).2

/-- The low limbs of a sum. -/
theorem addTerms_four (a b : Limbs 4) : (addTerms a b).length = 4 := zipWith_four a b

def adding (a b : Limbs 4) : Limbs 4 := running (addTerms a b) (addTerms_four a b)

def feAdd (a b : Limbs 4) : Limbs 4 :=
  let r := adding a b
  let r :=
    if 0 < outOf (addTerms a b) then
      let r' := addInto RED r
      if 0 < addIntoOut RED r then addInto RED r' else r'
    else r
  feReduce r

def feSub (a b : Limbs 4) : Limbs 4 :=
  let r := borrowing a b
  let r := if outOf (subTerms a b) < 0 then adding prime r else r
  feReduce r

/-- The eight limbs of the product. -/
def wide (a b : Limbs 4) : List (BitVec 64) := putRows a.val b.val (List.replicate 8 0)

/-- `t[i] + t[i + 4] * RED` -/
def foldTerms (t : List (BitVec 64)) : List Int :=
  List.zipWith (fun l h => (l.toNat : Int) + RED * h.toNat) (t.take 4) (t.drop 4)

/-- The rounds that fold what is above the highest limb, until there is nothing. -/
def foldRounds : Nat → Int → Limbs 4 → Limbs 4
  | 0, _, r => r
  | n + 1, fold, r =>
      if fold = 0 then r
      else foldRounds n (addIntoOut (fold * RED) r) (addInto (fold * RED) r)

theorem wide_length (a b : Limbs 4) : (wide a b).length = 8 := by
  have room : a.val.length + b.val.length ≤ (List.replicate 8 (0 : BitVec 64)).length := by
    rw [a.property, b.property, List.length_replicate]
  exact (putRows_spec room fun t mem =>
    List.eq_of_mem_replicate (List.mem_of_mem_drop mem)).1

theorem foldTerms_four {t : List (BitVec 64)} (eight : t.length = 8) :
    (foldTerms t).length = 4 := by
  rw [foldTerms, List.length_zipWith, List.length_take, List.length_drop, eight]
  rfl

def feMul (a b : Limbs 4) : Limbs 4 :=
  let terms := foldTerms (wide a b)
  let r := running terms (foldTerms_four (wide_length a b))
  feReduce (foldRounds 3 (BitVec.ofInt 64 (outOf terms)).toNat r)

/-- `(exp[i / 64] >> (i % 64)) & 1` -/
def bit (exp : Limbs 4) (i : Nat) : Bool := (exp.val.getD (i / 64) 0).getLsbD (i % 64)

def fePow (base exp : Limbs 4) : Limbs 4 :=
  ((List.range 256).foldl (fun (result, base) i =>
    (if bit exp i then feMul result base else result, feMul base base)) (feOne, base)).1

def feInv (a : Limbs 4) : Limbs 4 :=
  fePow a ⟨[0xFFFFFFFEFFFFFC2D, 0xFFFFFFFFFFFFFFFF, 0xFFFFFFFFFFFFFFFF, 0xFFFFFFFFFFFFFFFF], rfl⟩

/-! ### The reduction -/

theorem geP_iff (a : Limbs 4) : geP a = true ↔ fieldPrime ≤ num a := by
  have lengths : a.val.reverse.length = prime.val.reverse.length := by
    rw [List.length_reverse, List.length_reverse, a.property, prime.property]
  rw [geP, geqDown_iff lengths, List.reverse_reverse, List.reverse_reverse]
  exact num_prime ▸ Iff.rfl

/-- A limb that is not below that of the prime leaves no borrow. -/
theorem subP_step {r p : BitVec 64} (above : p.toNat ≤ r.toNat) (rs ps : List (BitVec 64)) :
    subP 0 (r :: rs) (p :: ps) = (r - p) :: subP 0 rs ps := by
  have bound := r.isLt
  have total : (r.setWidth 128 + -(p.setWidth 128) + 0).toNat = r.toNat - p.toNat := by
    rw [BitVec.ofNat_eq_ofNat, BitVec.add_zero, BitVec.toNat_add, BitVec.toNat_neg,
      BitVec.toNat_setWidth, BitVec.toNat_setWidth]
    omega
  have low : (r.setWidth 128 + -(p.setWidth 128) + 0).setWidth 64 = r - p := by
    apply BitVec.eq_of_toNat_eq
    rw [BitVec.toNat_setWidth, total, BitVec.toNat_sub]
    omega
  have top : ((r.setWidth 128 + -(p.setWidth 128) + 0) >>> 127) &&& 1 = 0 := by
    have none : (r.setWidth 128 + -(p.setWidth 128) + 0) >>> 127 = 0 := by
      apply BitVec.eq_of_toNat_eq
      rw [BitVec.toNat_ushiftRight, total, Nat.shiftRight_eq_div_pow]
      exact Nat.div_eq_of_lt (by omega)
    rw [none]
    rfl
  rw [subP, low, top]

/-- Four limbs that are not below the prime are above it in the lowest limb only. -/
theorem feSubP_num {r : Limbs 4} (above : fieldPrime ≤ num r) :
    num (feSubP r) = num r - fieldPrime := by
  rcases r with ⟨limbs, four⟩
  match limbs, four with
  | [r₀, r₁, r₂, r₃], _ =>
    have b₀ := r₀.isLt
    have b₁ := r₁.isLt
    have b₂ := r₂.isLt
    have b₃ := r₃.isLt
    have known : fieldPrime = 2 ^ 256 - 2 ^ 32 - 977 := rfl
    simp only [num, value_cons, value_nil] at above
    have f₃ : (0xFFFFFFFFFFFFFFFF : BitVec 64).toNat ≤ r₃.toNat := by
      simp only [BitVec.reduceToNat]
      omega
    have f₂ : (0xFFFFFFFFFFFFFFFF : BitVec 64).toNat ≤ r₂.toNat := by
      simp only [BitVec.reduceToNat] at f₃ ⊢
      omega
    have f₁ : (0xFFFFFFFFFFFFFFFF : BitVec 64).toNat ≤ r₁.toNat := by
      simp only [BitVec.reduceToNat] at f₂ f₃ ⊢
      omega
    have f₀ : (0xFFFFFFFEFFFFFC2F : BitVec 64).toNat ≤ r₀.toNat := by
      simp only [BitVec.reduceToNat] at f₁ f₂ f₃ ⊢
      omega
    have steps : subP 0 [r₀, r₁, r₂, r₃] prime.val =
        [r₀ - 0xFFFFFFFEFFFFFC2F, r₁ - 0xFFFFFFFFFFFFFFFF, r₂ - 0xFFFFFFFFFFFFFFFF,
          r₃ - 0xFFFFFFFFFFFFFFFF] := by
      rw [prime, subP_step f₀, subP_step f₁, subP_step f₂, subP_step f₃]
      simp [subP]
    simp only [num, feSubP, steps, value_cons, value_nil, BitVec.toNat_sub_of_le
      (BitVec.le_def.mpr f₀), BitVec.toNat_sub_of_le (BitVec.le_def.mpr f₁),
      BitVec.toNat_sub_of_le (BitVec.le_def.mpr f₂), BitVec.toNat_sub_of_le
      (BitVec.le_def.mpr f₃)]
    simp only [BitVec.reduceToNat] at f₀ f₁ f₂ f₃ ⊢
    omega

theorem feReduce_num (r : Limbs 4) : num (feReduce r) = num r % fieldPrime := by
  have bound := num_lt r
  have known : fieldPrime = 2 ^ 256 - 2 ^ 32 - 977 := rfl
  unfold feReduce
  by_cases above : fieldPrime ≤ num r
  · have less := feSubP_num above
    have done : ¬ geP (feSubP r) = true := fun again => by
      have := (geP_iff _).mp again
      omega
    rw [if_pos ((geP_iff r).mpr above)]
    simp only [if_neg done]
    rw [less, Nat.mod_eq_sub_mod above, Nat.mod_eq_of_lt (by omega)]
  · have done : ¬ geP r = true := fun again => above ((geP_iff r).mp again)
    rw [if_neg done]
    simp only [if_neg done]
    exact (Nat.mod_eq_of_lt (Nat.lt_of_not_le above)).symm

/-! ### Sums and differences -/

theorem running_num (terms : List Int) (four : terms.length = 4) :
    (num (running terms four) : Int) + 2 ^ 256 * outOf terms = weighted 64 terms := by
  have total := running_value terms four
  rw [word_toNat] at total
  exact total

theorem addInto_num (c : Int) (r : Limbs 4) :
    (num (addInto c r) : Int) + 2 ^ 256 * addIntoOut c r = c + num r := by
  have total := carried_value (w := 64) c (ints r)
  rw [ints, weighted_map, List.length_map, r.property] at total
  exact total

theorem addTerms_weighted (a b : Limbs 4) : weighted 64 (addTerms a b) = num a + num b := by
  have terms := weighted_zipWith (f := fun x y => (x.toNat : Int) + y.toNat) (p := 1) (q := 1)
    (fun x y => by ring) (a.property.trans b.property.symm)
  rw [Int.one_mul, Int.one_mul] at terms
  exact terms

theorem subTerms_weighted (a b : Limbs 4) : weighted 64 (subTerms a b) = num a - num b := by
  have terms := weighted_zipWith (f := fun x y => (x.toNat : Int) - y.toNat) (p := 1) (q := -1)
    (fun x y => by ring) (a.property.trans b.property.symm)
  rw [Int.one_mul, Int.neg_one_mul] at terms
  exact terms

theorem adding_num (a b : Limbs 4) :
    (num (adding a b) : Int) + 2 ^ 256 * outOf (addTerms a b) = num a + num b := by
  rw [← addTerms_weighted]
  exact running_num (addTerms a b) (zipWith_four a b)

theorem borrowing_num (a b : Limbs 4) :
    (num (borrowing a b) : Int) + 2 ^ 256 * outOf (subTerms a b) = num a - num b := by
  rw [← subTerms_weighted]
  exact running_num (subTerms a b) (zipWith_four a b)

theorem feAdd_num {a b : Limbs 4} (smallA : num a < fieldPrime) (smallB : num b < fieldPrime) :
    num (feAdd a b) = (num a + num b) % fieldPrime := by
  have known : fieldPrime = 2 ^ 256 - 2 ^ 32 - 977 := rfl
  have red : RED = 2 ^ 32 + 977 := rfl
  have sum := adding_num a b
  rw [feAdd, feReduce_num]
  generalize adding a b = r at sum
  have bound := num_lt r
  have again := addInto_num RED r
  have bound' := num_lt (addInto RED r)
  by_cases carry : 0 < outOf (addTerms a b)
  · have one : outOf (addTerms a b) = 1 := by omega
    have none : ¬ 0 < addIntoOut RED r := by omega
    simp only [if_pos carry, if_neg none]
    have less : num a + num b = num (addInto RED r) + fieldPrime := by omega
    rw [less, Nat.add_mod_right]
  · have zero : outOf (addTerms a b) = 0 := by omega
    simp only [if_neg carry]
    have same : num r = num a + num b := by omega
    rw [same]

theorem feSub_num {a b : Limbs 4} (smallA : num a ≤ fieldPrime) (smallB : num b ≤ fieldPrime) :
    num (feSub a b) = (num a + fieldPrime - num b) % fieldPrime := by
  have known : fieldPrime = 2 ^ 256 - 2 ^ 32 - 977 := rfl
  have difference := borrowing_num a b
  rw [feSub, feReduce_num]
  generalize borrowing a b = r at difference
  have bound := num_lt r
  have sum := adding_num prime r
  rw [num_prime] at sum
  have bound' := num_lt (adding prime r)
  by_cases borrow : outOf (subTerms a b) < 0
  · have one : outOf (subTerms a b) = -1 := by omega
    rw [if_pos borrow]
    have same : num (adding prime r) = num a + fieldPrime - num b := by omega
    rw [same]
  · have zero : outOf (subTerms a b) = 0 := by omega
    rw [if_neg borrow]
    have same : num a + fieldPrime - num b = num r + fieldPrime := by omega
    rw [same, Nat.add_mod_right]

/-! ### Products -/

theorem wide_value (a b : Limbs 4) : value (wide a b) = num a * num b := by
  have room : a.val.length + b.val.length ≤ (List.replicate 8 (0 : BitVec 64)).length := by
    rw [a.property, b.property, List.length_replicate]
  have start : value (List.replicate 8 (0 : BitVec 64)) = 0 :=
    value_zeros fun t mem => List.eq_of_mem_replicate mem
  have product := (putRows_spec room fun t mem =>
    List.eq_of_mem_replicate (List.mem_of_mem_drop mem)).2
  rw [start, Nat.zero_add] at product
  exact product

theorem foldTerms_weighted {t : List (BitVec 64)} (eight : t.length = 8) :
    weighted 64 (foldTerms t) = value (t.take 4) + RED * value (t.drop 4) := by
  have same : (t.take 4).length = (t.drop 4).length := by
    rw [List.length_take, List.length_drop, eight]
    rfl
  have terms := weighted_zipWith (f := fun l h => (l.toNat : Int) + RED * h.toNat) (p := 1)
    (q := RED) (fun x y => by ring) same
  rw [Int.one_mul] at terms
  exact terms

theorem foldTerms_le (t : List (BitVec 64)) :
    ∀ term ∈ foldTerms t, 0 ≤ term ∧ term ≤ (2 ^ 64 - 1) * (RED + 1) := by
  refine forall_mem_zipWith (fun l h => ?_) _ _
  have boundL := l.isLt
  have boundH := h.isLt
  have red : RED = 4294968273 := rfl
  rw [red]
  omega

theorem fold_closed : ((RED : Int) + 1) + (2 ^ 64 - 1) * (RED + 1) < 2 ^ 64 * (RED + 1 + 1) := by
  decide

/-- What is above the four limbs after the first fold. -/
theorem fold_out (t : List (BitVec 64)) :
    0 ≤ outOf (foldTerms t) ∧ outOf (foldTerms t) ≤ RED + 1 :=
  carried_le ⟨Int.le_refl 0, by decide⟩ (foldTerms_le t) fold_closed

theorem ofInt_outOf (t : List (BitVec 64)) :
    ((BitVec.ofInt 64 (outOf (foldTerms t))).toNat : Int) = outOf (foldTerms t) := by
  have bound := fold_out t
  have red : RED = 4294968273 := rfl
  rw [red] at bound
  rw [BitVec.toNat_ofInt]
  omega

/-- The first round leaves at most one, the second one nothing. -/
theorem foldRounds_num {fold : Int} (r : Limbs 4) (positive : 0 ≤ fold) (small : fold ≤ RED + 1) :
    (num (foldRounds 3 fold r) : Int) ≡ num r + 2 ^ 256 * fold [ZMOD fieldPrime] := by
  have known : (fieldPrime : Int) = 2 ^ 256 - 4294968273 := by decide
  have red : (RED : Int) = 4294968273 := rfl
  have bound := num_lt r
  have first := addInto_num (fold * RED) r
  have bound₁ := num_lt (addInto (fold * RED) r)
  have second := addInto_num (1 * RED) (addInto (fold * RED) r)
  have bound₂ := num_lt (addInto (1 * RED) (addInto (fold * RED) r))
  rw [foldRounds]
  by_cases none : fold = 0
  · rw [if_pos none, none, Int.mul_zero, Int.add_zero]
  rw [if_neg none]
  generalize addIntoOut (fold * RED) r = up, addInto (fold * RED) r = r₁ at *
  rw [foldRounds]
  by_cases done : up = 0
  · rw [if_pos done]
    refine Int.modEq_iff_dvd.mpr ⟨fold, ?_⟩
    rw [known]
    rw [red, done] at first
    omega
  have one : up = 1 := by
    rw [red] at first small
    omega
  rw [if_neg done, one]
  generalize addIntoOut (1 * RED) r₁ = up', addInto (1 * RED) r₁ = r₂ at *
  have zero : up' = 0 := by
    rw [red] at first second small
    omega
  rw [zero, foldRounds, if_pos rfl]
  refine Int.modEq_iff_dvd.mpr ⟨fold + 1, ?_⟩
  rw [known]
  rw [red] at first second
  omega

theorem feMul_num (a b : Limbs 4) : num (feMul a b) = num a * num b % fieldPrime := by
  have known : (fieldPrime : Int) = 2 ^ 256 - RED := by decide
  have eight := wide_length a b
  have four : (List.take 4 (wide a b)).length = 4 := List.length_take_of_le (by omega)
  have split := value_append ((wide a b).take 4) ((wide a b).drop 4)
  rw [List.take_append_drop, wide_value, four] at split
  have total := running_num (foldTerms (wide a b)) (foldTerms_four eight)
  rw [foldTerms_weighted eight] at total
  have bound := fold_out (wide a b)
  have rounds := foldRounds_num (running (foldTerms (wide a b)) (foldTerms_four eight)) bound.1
    bound.2
  have whole : (num (foldRounds 3 (outOf (foldTerms (wide a b)))
      (running (foldTerms (wide a b)) (foldTerms_four eight))) : Int) ≡
      (num a * num b : Nat) [ZMOD fieldPrime] := by
    calc _ ≡ num (running (foldTerms (wide a b)) (foldTerms_four eight)) +
          2 ^ 256 * outOf (foldTerms (wide a b)) [ZMOD fieldPrime] := rounds
      _ = value ((wide a b).take 4) + RED * value ((wide a b).drop 4) := total
      _ ≡ (num a * num b : Nat) [ZMOD fieldPrime] := by
        refine Int.modEq_iff_dvd.mpr ⟨value ((wide a b).drop 4), ?_⟩
        rw [known, split]
        push_cast
        ring
  rw [feMul, feReduce_num, ofInt_outOf]
  exact Int.natCast_modEq_iff.mp whole

theorem feMul_lt (a b : Limbs 4) : num (feMul a b) < fieldPrime := by
  rw [feMul_num]
  exact Nat.mod_lt _ (by decide)

/-! ### The field -/

/-- The element that four limbs denote. -/
def toField (a : Limbs 4) : ZMod fieldPrime := num a

theorem toField_inj {a b : Limbs 4} (smallA : num a < fieldPrime) (smallB : num b < fieldPrime)
    (equal : toField a = toField b) : a = b := by
  have same := (ZMod.natCast_eq_natCast_iff' _ _ _).mp equal
  rw [Nat.mod_eq_of_lt smallA, Nat.mod_eq_of_lt smallB] at same
  exact num_inj same

theorem toField_eq_zero_iff {a : Limbs 4} (small : num a < fieldPrime) :
    toField a = 0 ↔ num a = 0 := by
  rw [toField, ZMod.natCast_eq_zero_iff]
  constructor
  · exact fun divides => Nat.eq_zero_of_dvd_of_lt divides small
  · exact fun zero => zero ▸ Nat.dvd_zero _

@[simp] theorem toField_feMul (a b : Limbs 4) : toField (feMul a b) = toField a * toField b := by
  rw [toField, feMul_num, ZMod.natCast_mod, Nat.cast_mul]
  rfl

@[simp] theorem toField_feOne : toField feOne = 1 := by
  have one : num feOne = 1 := by decide
  rw [toField, one, Nat.cast_one]

theorem toField_feAdd {a b : Limbs 4} (smallA : num a < fieldPrime) (smallB : num b < fieldPrime) :
    toField (feAdd a b) = toField a + toField b := by
  rw [toField, feAdd_num smallA smallB, ZMod.natCast_mod, Nat.cast_add]
  rfl

theorem toField_feSub {a b : Limbs 4} (smallA : num a < fieldPrime) (smallB : num b < fieldPrime) :
    toField (feSub a b) = toField a - toField b := by
  rw [toField, feSub_num (Nat.le_of_lt smallA) (Nat.le_of_lt smallB), ZMod.natCast_mod,
    Nat.cast_sub (by omega), Nat.cast_add, ZMod.natCast_self, add_zero]
  rfl

/-! ### Powers -/

theorem bit_eq (exp : Limbs 4) (i : Nat) : bit exp i = (num exp).testBit i :=
  (testBit_value (by decide) exp.val i).symm

/-- After `n` rounds the exponent is its lowest `n` bits. -/
theorem fePow_rounds (base exp : Limbs 4) (n : Nat) :
    let s := (List.range n).foldl (fun (result, base) i =>
      (if bit exp i then feMul result base else result, feMul base base)) (feOne, base)
    toField s.1 = toField base ^ (num exp % 2 ^ n) ∧ toField s.2 = toField base ^ 2 ^ n ∧
      num s.1 < fieldPrime := by
  induction n with
  | zero =>
    have small : num feOne < fieldPrime := by decide
    refine ⟨?_, ?_, small⟩
    · rw [Nat.pow_zero, Nat.mod_one, pow_zero]
      exact toField_feOne
    · rw [Nat.pow_zero, pow_one]
      rfl
  | succ n ih =>
    rcases ih with ⟨result, square, small⟩
    rw [List.range_succ, List.foldl_append, List.foldl_cons, List.foldl_nil]
    refine ⟨?_, ?_, ?_⟩
    · rw [Nat.mod_pow_succ, ← Nat.toNat_testBit, ← bit_eq]
      cases bit exp n with
      | false => simpa using result
      | true => simp [result, square, pow_add]
    · rw [toField_feMul, square, ← pow_add, Nat.pow_succ, Nat.mul_two]
    · dsimp only
      split
      · exact feMul_lt _ _
      · exact small

theorem toField_fePow (base exp : Limbs 4) :
    toField (fePow base exp) = toField base ^ num exp := by
  have rounds := (fePow_rounds base exp 256).1
  rw [Nat.mod_eq_of_lt (num_lt exp)] at rounds
  exact rounds

theorem fePow_lt (base exp : Limbs 4) : num (fePow base exp) < fieldPrime :=
  (fePow_rounds base exp 256).2.2

theorem toField_feInv (a : Limbs 4) : toField (feInv a) = toField a ^ (fieldPrime - 2) := by
  rw [feInv, toField_fePow]
  congr 1

theorem feInv_mul {a : Limbs 4} (positive : num a ≠ 0) (small : num a < fieldPrime) :
    toField (feInv a) * toField a = 1 := by
  have unit : toField a ≠ 0 := fun zero => positive ((toField_eq_zero_iff small).mp zero)
  have next : fieldPrime - 2 + 1 = fieldPrime - 1 := by decide
  rw [toField_feInv, ← pow_succ, next]
  exact ZMod.pow_card_sub_one_eq_one unit

end Limbs
end LispRlm.Schnorr
