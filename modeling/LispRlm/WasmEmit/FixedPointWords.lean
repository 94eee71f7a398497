import LispRlm.WasmEmit.CheckedWords
import LispRlm.WasmEmit.FixedPoint
import Mathlib.Tactic.Linarith

/-! Fixed-point numbers of 32 and 32 bits in words: `fp/mul`, `fp/div`, `fp/to_int`, `fp/from_int`.
They take the words of numbers with the tag bits, and leave words as they are. -/

namespace LispRlm.WasmEmit

namespace FixedPoint

/-- The product's halves of 16 bits; that of the low halves is left out. -/
def mulWord (a b : I64) : I64 :=
  (a >>> 16) * (b >>> 16) + ((a >>> 16) * (b &&& (0xFFFF : I64))) >>> 16 +
    ((a &&& (0xFFFF : I64)) * (b >>> 16)) >>> 16

def divWord (a b : I64) : Option I64 :=
  if b = 0 then none
  else some ((a <<< 16).udiv b <<< 16 + ((a &&& (0xFFFF : I64)) <<< 16).udiv b)

/-- The first operand waits in a local while the second is evaluated. -/
def fpBinary (family : String) (combine : I64 → I64 → Option I64) (ea eb : Code) : Code :=
  fun s => do
    let (a, s) ← ea s
    let s := s.set (.own family "a") a
    let (b, s) ← eb s
    let s := s.set (.own family "b") b
    let w ← combine (s.locals (.own family "a")) (s.locals (.own family "b"))
    some (w, s)

/-- `fp/mul` -/
def fpMul : Code → Code → Code := fpBinary "__fpm" fun a b => some (mulWord a b)

/-- `fp/div` -/
def fpDiv : Code → Code → Code := fpBinary "__fpd" divWord

/-- `fp/to_int` -/
def fpToInt (e : Code) : Code := fun s => do
  let (w, s) ← e s
  some (w >>> 32, s)

/-- `fp/from_int` -/
def fpFromInt (e : Code) : Code := fun s => do
  let (w, s) ← e s
  some (w <<< 32, s)

/-! ### Words -/

theorem and_low (w : I64) : (w &&& (0xFFFF : I64)).toNat = w.toNat % 2 ^ 16 := by
  rw [BitVec.toNat_and]
  exact Nat.and_two_pow_sub_one_eq_mod w.toNat 16

theorem shift_right (w : I64) (k : Nat) : (w >>> k).toNat = w.toNat / 2 ^ k := by
  rw [BitVec.toNat_ushiftRight, Nat.shiftRight_eq_div_pow]

theorem shift_left (w : I64) (k : Nat) : (w <<< k).toNat = w.toNat * 2 ^ k % 2 ^ 64 := by
  rw [BitVec.toNat_shiftLeft, Nat.shiftLeft_eq]

/-- The units that the product drops: the fractions of the two middle products and the low one. -/
def dropped (x y : Nat) : Nat :=
  (x / 2 ^ 16 * (y % 2 ^ 16) % 2 ^ 16 + x % 2 ^ 16 * (y / 2 ^ 16) % 2 ^ 16) * 2 ^ 16 +
    x % 2 ^ 16 * (y % 2 ^ 16)

theorem dropped_lt (x y : Nat) : dropped x y < 3 * 2 ^ 32 := by
  have first : x / 2 ^ 16 * (y % 2 ^ 16) % 2 ^ 16 < 2 ^ 16 := Nat.mod_lt _ (by decide)
  have second : x % 2 ^ 16 * (y / 2 ^ 16) % 2 ^ 16 < 2 ^ 16 := Nat.mod_lt _ (by decide)
  have low : x % 2 ^ 16 * (y % 2 ^ 16) ≤ (2 ^ 16 - 1) * (2 ^ 16 - 1) :=
    Nat.mul_le_mul (Nat.le_pred_of_lt (Nat.mod_lt _ (by decide)))
      (Nat.le_pred_of_lt (Nat.mod_lt _ (by decide)))
  unfold dropped
  omega

/-- What the product is without its overflows. -/
def mulParts (x y : Nat) : Nat :=
  x / 2 ^ 16 * (y / 2 ^ 16) + x / 2 ^ 16 * (y % 2 ^ 16) / 2 ^ 16 +
    x % 2 ^ 16 * (y / 2 ^ 16) / 2 ^ 16

theorem mulParts_dropped (x y : Nat) : mulParts x y * 2 ^ 32 + dropped x y = x * y := by
  have split : x * y = x / 2 ^ 16 * (y / 2 ^ 16) * 2 ^ 32 +
      (x / 2 ^ 16 * (y % 2 ^ 16) + x % 2 ^ 16 * (y / 2 ^ 16)) * 2 ^ 16 +
        x % 2 ^ 16 * (y % 2 ^ 16) := by
    have whole := Nat.div_add_mod x (2 ^ 16)
    have whole' := Nat.div_add_mod y (2 ^ 16)
    generalize x / 2 ^ 16 = xh at *
    generalize x % 2 ^ 16 = xl at *
    generalize y / 2 ^ 16 = yh at *
    generalize y % 2 ^ 16 = yl at *
    rw [← whole, ← whole']
    ring
  unfold mulParts dropped
  generalize x / 2 ^ 16 * (y % 2 ^ 16) = first at *
  generalize x % 2 ^ 16 * (y / 2 ^ 16) = second at *
  omega

theorem mulWord_toNat {a b : I64} (fits : a.toNat * b.toNat < 2 ^ 96) :
    (mulWord a b).toNat = mulParts a.toNat b.toNat := by
  have whole := mulParts_dropped a.toNat b.toNat
  have below : mulParts a.toNat b.toNat < 2 ^ 64 := by omega
  have left := a.isLt
  have right := b.isLt
  have first : a.toNat / 2 ^ 16 * (b.toNat % 2 ^ 16) < 2 ^ 64 := by
    have bound : a.toNat / 2 ^ 16 * (b.toNat % 2 ^ 16) ≤ (2 ^ 48 - 1) * (2 ^ 16 - 1) :=
      Nat.mul_le_mul (by omega) (by omega)
    omega
  have second : a.toNat % 2 ^ 16 * (b.toNat / 2 ^ 16) < 2 ^ 64 := by
    have bound : a.toNat % 2 ^ 16 * (b.toNat / 2 ^ 16) ≤ (2 ^ 16 - 1) * (2 ^ 48 - 1) :=
      Nat.mul_le_mul (by omega) (by omega)
    omega
  unfold mulParts at below ⊢
  simp only [mulWord, BitVec.toNat_add, BitVec.toNat_mul, shift_right, and_low,
    Nat.mod_eq_of_lt first, Nat.mod_eq_of_lt second]
  omega

/-- Never too large, and three units too small at most. -/
theorem mulWord_floor {a b : I64} (fits : a.toNat * b.toNat < 2 ^ 96) :
    (mulWord a b).toNat ≤ a.toNat * b.toNat / 2 ^ 32 ∧
      a.toNat * b.toNat / 2 ^ 32 ≤ (mulWord a b).toNat + 2 := by
  have whole := mulParts_dropped a.toNat b.toNat
  have few := dropped_lt a.toNat b.toNat
  rw [mulWord_toNat fits]
  omega

/-- The product of words without low halves wraps. -/
theorem mulWord_whole {a b : I64} {x y : Nat} (left : a.toNat = x * 2 ^ 32)
    (right : b.toNat = y * 2 ^ 32) : (mulWord a b).toNat / 2 ^ 32 = x * y % 2 ^ 32 := by
  have split (x : Nat) : x * 2 ^ 32 = 2 ^ 16 * (x * 2 ^ 16) := by ring
  have low (x : Nat) : x * 2 ^ 32 % 2 ^ 16 = 0 := by rw [split, Nat.mul_mod_right]
  have high (x : Nat) : x * 2 ^ 32 / 2 ^ 16 = x * 2 ^ 16 := by
    rw [split, Nat.mul_div_cancel_left _ (by decide)]
  have product : x * 2 ^ 16 * (y * 2 ^ 16) = x * y * 2 ^ 32 := by ring
  simp only [mulWord, BitVec.toNat_add, BitVec.toNat_mul, shift_right, and_low, left, right, low,
    high, product, Nat.mul_zero, Nat.zero_mul]
  omega

/-- The quotient of words without low halves: of the dividend only the lowest 16 bits are left. -/
theorem divWord_whole {a b : I64} {x y : Nat} (left : a.toNat = x * 2 ^ 32)
    (right : b.toNat = y * 2 ^ 32) (positive : y ≠ 0) :
    ∃ w, divWord a b = some w ∧ w.toNat / 2 ^ 32 = x % 2 ^ 16 / y := by
  have nonzero : b ≠ 0 := by
    rw [ne_eq, ← BitVec.toNat_inj, right]
    change ¬y * 2 ^ 32 = 0
    omega
  have moved : (a <<< 16).toNat = x % 2 ^ 16 * 2 ^ 16 * 2 ^ 32 := by
    rw [shift_left, left]
    omega
  have low : ((a &&& (0xFFFF : I64)) <<< 16).toNat = 0 := by
    rw [shift_left, and_low, left]
    omega
  have quotient : ((a <<< 16).udiv b).toNat = x % 2 ^ 16 * 2 ^ 16 / y := by
    rw [BitVec.udiv_eq, BitVec.toNat_udiv, moved, right, Nat.mul_div_mul_right _ _ (by decide)]
  have none : (((a &&& (0xFFFF : I64)) <<< 16).udiv b).toNat = 0 := by
    rw [BitVec.udiv_eq, BitVec.toNat_udiv, low, Nat.zero_div]
  have bound : x % 2 ^ 16 * 2 ^ 16 / y ≤ x % 2 ^ 16 * 2 ^ 16 := Nat.div_le_self _ _
  have small : x % 2 ^ 16 < 2 ^ 16 := Nat.mod_lt _ (by decide)
  have floor : x % 2 ^ 16 * 2 ^ 16 / y / 2 ^ 16 = x % 2 ^ 16 / y := by
    rw [Nat.div_div_eq_div_mul, Nat.mul_div_mul_right _ _ (by decide)]
  refine ⟨_, by rw [divWord, if_neg nonzero], ?_⟩
  rw [BitVec.toNat_add, shift_left, quotient, none, ← floor]
  omega

theorem divWord_zero (a : I64) : divWord a 0 = none := rfl

/-- The word of a number, moved into the upper half. -/
theorem fromInt_word (n : Payload) :
    (tagWord n.val <<< 32).toNat = (8 * n.val % 2 ^ 32).toNat * 2 ^ 32 := by
  have word := BitVec.toNat_ofInt (n := 64) (n.val * 8)
  rw [shift_left, tagWord]
  omega

/-! ### Uses -/

/-- An operand's code, which leaves the operators' own locals alone. -/
def Operand (e : Code) (w : I64) : Prop :=
  ∀ s : State, ∃ t, e s = some (w, t) ∧
    ∀ family, t.locals (.own family "a") = s.locals (.own family "a")

theorem Operand.fromInt {e : Code} {w : I64} (operand : Operand e w) :
    Operand (fpFromInt e) (w <<< 32) := by
  intro s
  obtain ⟨t, evaluated, kept⟩ := operand s
  exact ⟨t, by rw [fpFromInt, evaluated]; rfl, kept⟩

theorem fpBinary_eq (family : String) (combine : I64 → I64 → Option I64) {ea eb : Code}
    {a b : I64} (left : Operand ea a) (right : Operand eb b) (s : State) :
    ∃ t, fpBinary family combine ea eb s = (combine a b).map fun w => (w, t) := by
  obtain ⟨s₁, first, -⟩ := left s
  obtain ⟨s₂, second, kept⟩ := right (s₁.set (.own family "a") a)
  have waits : (s₂.set (.own family "b") b).locals (.own family "a") = a := by
    rw [State.set_locals, if_neg (by simp), kept, State.set_locals, if_pos rfl]
  have last : (s₂.set (.own family "b") b).locals (.own family "b") = b := by
    rw [State.set_locals, if_pos rfl]
  refine ⟨s₂.set (.own family "b") b, ?_⟩
  unfold fpBinary
  simp only [first, second, waits, last, Option.bind_eq_bind, Option.bind_some]
  cases combine a b <;> rfl

/-- A use of the operators: on integers, or a product of any two fixed-point numbers. -/
inductive Use
  | roundTrip (n : Payload)
  | product (m n : Payload)
  | quotient (m n : Payload)
  | accuracy (x y : I64)

namespace Use

/-- The words of the operands. -/
def words : Use → I64 × I64
  | roundTrip n => (tagWord n.val, tagWord n.val)
  | product m n | quotient m n => (tagWord m.val, tagWord n.val)
  | accuracy x y => (x, y)

/-- The result is a number that fits. -/
def InRange : Use → Prop
  | roundTrip _ => True
  | product m n => inPayload (m.val * n.val) = true
  | quotient m n => n.val ≠ 0 ∧ inPayload (m.val.fdiv n.val) = true
  | accuracy x y => x.toNat * y.toNat < 2 ^ 96

/-- The integer's operation, or at most two units between the product and the exact one. -/
def Exact (u : Use) (ea eb : Code) (s : State) : Prop :=
  match u with
  | roundTrip n => ∃ t, fpToInt (fpFromInt ea) s = some (tagWord n.val, t)
  | product m n =>
      ∃ t, fpToInt (fpMul (fpFromInt ea) (fpFromInt eb)) s = some (tagWord (m.val * n.val), t)
  | quotient m n =>
      ∃ t, fpToInt (fpDiv (fpFromInt ea) (fpFromInt eb)) s =
        some (tagWord (m.val.fdiv n.val), t)
  | accuracy x y =>
      ∃ w t, fpMul ea eb s = some (w, t) ∧
        ((w.toNat : Int) * 2 ^ 32 - x.toNat * y.toNat).natAbs ≤ 2 * 2 ^ 32

def Meets : Use → Prop
  | roundTrip n => 0 ≤ n.val ∧ n.val < 2 ^ 29
  | product m n => m.val * n.val = 0
  | quotient m n =>
      n.val % 2 ^ 29 ≠ 0 ∧ m.val % 2 ^ 13 / (n.val % 2 ^ 29) = 8 * m.val.fdiv n.val
  | accuracy x y => dropped x.toNat y.toNat ≤ 2 * 2 ^ 32

end Use

theorem eq_tagWord_iff {w : I64} {n : Int} : w = tagWord n ↔ w.toNat = (8 * n % 2 ^ 64).toNat := by
  have word := BitVec.toNat_ofInt (n := 64) (n * 8)
  rw [← BitVec.toNat_inj, tagWord]
  omega

/-- What an integer's result is, from the word before the last shift. -/
theorem toInt_iff {e : Code} {s t : State} {w : I64} {n : Int} (run : e s = some (w, t)) :
    (∃ t, fpToInt e s = some (tagWord n, t)) ↔ w.toNat / 2 ^ 32 = (8 * n % 2 ^ 64).toNat := by
  have result : fpToInt e s = some (w >>> 32, t) := by
    rw [fpToInt, run]
    rfl
  rw [result, ← shift_right, ← eq_tagWord_iff]
  constructor
  · rintro ⟨t', same⟩
    exact congrArg Prod.fst (Option.some.inj same)
  · intro same
    exact ⟨t, by rw [same]⟩

theorem roundTrip_iff (n : Payload) {ea eb : Code} (s : State)
    (left : Operand ea (tagWord n.val)) :
    (Use.roundTrip n).Exact ea eb s ↔ 0 ≤ n.val ∧ n.val < 2 ^ 29 := by
  have fits := n.property
  simp only [inPayload, Bool.and_eq_true, decide_eq_true_eq] at fits
  obtain ⟨t, run, -⟩ := left.fromInt s
  refine (toInt_iff run).trans ?_
  rw [fromInt_word]
  omega

theorem wrapped_iff {words : Nat} {p : Int}
    (wrapped : ((words % 2 ^ 32 : Nat) : Int) = 64 * p % 2 ^ 32)
    (fits : -2 ^ 60 ≤ p ∧ p < 2 ^ 60) : words % 2 ^ 32 = (8 * p % 2 ^ 64).toNat ↔ p = 0 := by
  have below : 64 * p % 2 ^ 32 < 2 ^ 32 := Int.emod_lt_of_pos _ (by decide)
  rw [← Int.natCast_inj, Int.toNat_of_nonneg (Int.emod_nonneg _ (by decide)), wrapped]
  by_cases negative : p < 0
  · have tagged : 8 * p % 2 ^ 64 = 8 * p + 2 ^ 64 := by
      rw [← Int.add_emod_right, Int.emod_eq_of_lt (by omega) (by omega)]
    rw [tagged]
    exact iff_of_false (by linarith) (by linarith)
  · have tagged : 8 * p % 2 ^ 64 = 8 * p := Int.emod_eq_of_lt (by linarith) (by linarith)
    rw [tagged]
    constructor
    · intro same
      have turns : 64 * p % 2 ^ 32 + 2 ^ 32 * (64 * p / 2 ^ 32) = 64 * p :=
        Int.emod_add_mul_ediv _ _
      have divides : (2 ^ 29 : Int) ∣ 7 * p := ⟨64 * p / 2 ^ 32, by linarith⟩
      exact Int.eq_zero_of_dvd_of_nonneg_of_lt (by linarith) (by linarith)
        (Int.dvd_of_dvd_mul_right_of_gcd_one divides (by decide))
    · rintro rfl
      rfl

theorem product_iff (m n : Payload) {ea eb : Code} (s : State)
    (fits : inPayload (m.val * n.val) = true) (left : Operand ea (tagWord m.val))
    (right : Operand eb (tagWord n.val)) :
    (Use.product m n).Exact ea eb s ↔ m.val * n.val = 0 := by
  simp only [inPayload, Bool.and_eq_true, decide_eq_true_eq] at fits
  obtain ⟨t, run⟩ := fpBinary_eq "__fpm" (fun a b => some (mulWord a b))
    left.fromInt right.fromInt s
  have wrapped : (((8 * m.val % 2 ^ 32).toNat * (8 * n.val % 2 ^ 32).toNat % 2 ^ 32 : Nat) : Int) =
      64 * (m.val * n.val) % 2 ^ 32 := by
    have first : 0 ≤ 8 * m.val % 2 ^ 32 := Int.emod_nonneg _ (by decide)
    have second : 0 ≤ 8 * n.val % 2 ^ 32 := Int.emod_nonneg _ (by decide)
    have product : 64 * (m.val * n.val) = 8 * m.val * (8 * n.val) := by ring
    rw [Int.natCast_emod, Int.natCast_mul, Int.toNat_of_nonneg first, Int.toNat_of_nonneg second,
      product, show ((2 ^ 32 : Nat) : Int) = 2 ^ 32 from rfl, ← Int.mul_emod]
  refine (toInt_iff run).trans ?_
  rw [mulWord_whole (fromInt_word m) (fromInt_word n)]
  exact wrapped_iff wrapped fits

theorem quotient_iff (m n : Payload) {ea eb : Code} (s : State)
    (range : (Use.quotient m n).InRange) (left : Operand ea (tagWord m.val))
    (right : Operand eb (tagWord n.val)) :
    (Use.quotient m n).Exact ea eb s ↔ (Use.quotient m n).Meets := by
  obtain ⟨-, fits⟩ := range
  simp only [inPayload, Bool.and_eq_true, decide_eq_true_eq] at fits
  obtain ⟨t, run⟩ := fpBinary_eq "__fpd" divWord left.fromInt
    right.fromInt s
  have divisor : 8 * n.val % 2 ^ 32 = 8 * (n.val % 2 ^ 29) := by omega
  have dividend : ((8 * m.val % 2 ^ 32).toNat % 2 ^ 16 : Nat) = 8 * (m.val % 2 ^ 13) := by omega
  change _ ↔ n.val % 2 ^ 29 ≠ 0 ∧ m.val % 2 ^ 13 / (n.val % 2 ^ 29) = 8 * m.val.fdiv n.val
  by_cases zero : n.val % 2 ^ 29 = 0
  · have none : tagWord n.val <<< 32 = (0 : I64) := by
      rw [← BitVec.toNat_inj, fromInt_word, divisor, zero]
      rfl
    rw [none, divWord_zero, Option.map_none] at run
    refine iff_of_false ?_ fun meets => meets.1 zero
    rintro ⟨t, same⟩
    rw [fpToInt, fpDiv, run] at same
    exact absurd same (by simp)
  · have positive : (8 * n.val % 2 ^ 32).toNat ≠ 0 := by omega
    obtain ⟨w, made, value⟩ := divWord_whole (fromInt_word m) (fromInt_word n) positive
    rw [made, Option.map_some] at run
    refine (toInt_iff run).trans ?_
    have quotient : (((8 * m.val % 2 ^ 32).toNat % 2 ^ 16 / (8 * n.val % 2 ^ 32).toNat : Nat) :
        Int) = m.val % 2 ^ 13 / (n.val % 2 ^ 29) := by
      rw [Int.natCast_ediv, dividend, divisor, Int.toNat_of_nonneg (by omega),
        Int.mul_ediv_mul_of_pos _ _ (by decide)]
    have below : m.val % 2 ^ 13 / (n.val % 2 ^ 29) ≤ m.val % 2 ^ 13 :=
      Int.ediv_le_self _ (by omega)
    have above : 0 ≤ m.val % 2 ^ 13 / (n.val % 2 ^ 29) := Int.ediv_nonneg (by omega) (by omega)
    have small : m.val % 2 ^ 13 < 2 ^ 13 := Int.emod_lt_of_pos _ (by decide)
    rw [value, and_iff_right zero]
    generalize (8 * m.val % 2 ^ 32).toNat % 2 ^ 16 / (8 * n.val % 2 ^ 32).toNat = words at *
    generalize m.val % 2 ^ 13 / (n.val % 2 ^ 29) = q at *
    generalize m.val.fdiv n.val = f at *
    omega

theorem accuracy_iff {x y : I64} {ea eb : Code} (s : State)
    (range : x.toNat * y.toNat < 2 ^ 96) (left : Operand ea x) (right : Operand eb y) :
    (Use.accuracy x y).Exact ea eb s ↔ dropped x.toNat y.toNat ≤ 2 * 2 ^ 32 := by
  obtain ⟨t, run⟩ := fpBinary_eq "__fpm" (fun a b => some (mulWord a b))
    left right s
  have whole := mulParts_dropped x.toNat y.toNat
  have word := mulWord_toNat range
  have distance : (((mulWord x y).toNat : Int) * 2 ^ 32 - x.toNat * y.toNat).natAbs =
      dropped x.toNat y.toNat := by
    rw [word, ← Int.natCast_mul, ← whole]
    omega
  constructor
  · rintro ⟨w, t', evaluated, near⟩
    rw [fpMul, run] at evaluated
    obtain rfl : mulWord x y = w := congrArg Prod.fst (Option.some.inj evaluated)
    rwa [distance] at near
  · intro near
    exact ⟨mulWord x y, t, run, by rwa [distance]⟩

/-- Where both numbers fit the upper half, only a quotient of zero comes out. -/
theorem quotient_meets_iff_lt {m n : Payload} (dividend : 0 ≤ m.val) (divisor : 0 < n.val)
    (small : n.val < 2 ^ 29) : (Use.quotient m n).Meets ↔ m.val < n.val := by
  change n.val % 2 ^ 29 ≠ 0 ∧ m.val % 2 ^ 13 / (n.val % 2 ^ 29) = 8 * m.val.fdiv n.val ↔ _
  have same : n.val % 2 ^ 29 = n.val := Int.emod_eq_of_lt (Int.le_of_lt divisor) small
  have less : m.val % 2 ^ 13 / n.val ≤ m.val / n.val :=
    Int.ediv_le_ediv divisor (by omega)
  have floor : m.val.fdiv n.val = m.val / n.val :=
    Int.fdiv_eq_ediv_of_nonneg _ (Int.le_of_lt divisor)
  have above : 0 ≤ m.val % 2 ^ 13 / n.val := Int.ediv_nonneg (by omega) (Int.le_of_lt divisor)
  have zero : m.val / n.val ≤ 0 ↔ m.val < n.val := by
    rw [← Int.lt_add_one_iff, Int.zero_add, Int.ediv_lt_iff_lt_mul divisor, Int.one_mul]
  rw [same, floor, ← zero]
  omega

/-- The tag bits are in every word: a number times a number comes out eight times too large, and
the units that a product drops are up to three. -/
theorem fp_exact_iff (u : Use) (ea eb : Code) (s : State) (range : u.InRange)
    (left : Operand ea u.words.1) (right : Operand eb u.words.2) :
    u.Exact ea eb s ↔ u.Meets := by
  cases u with
  | roundTrip n => exact roundTrip_iff n s left
  | product m n => exact product_iff m n s range left right
  | quotient m n => exact quotient_iff m n s range left right
  | accuracy x y => exact accuracy_iff s range left right

/-- A literal. -/
def constant (w : I64) : Code := fun s => some (w, s)

theorem constant_operand (w : I64) : Operand (constant w) w := fun s => ⟨s, rfl, fun _ => rfl⟩

theorem fp_exact_iff_small :
    (Use.roundTrip ⟨7, by decide⟩).Exact (constant (tagWord 7)) (constant (tagWord 7)) (page 0 0) :=
  (fp_exact_iff (.roundTrip ⟨7, by decide⟩) _ _ (page 0 0) trivial (constant_operand _)
    (constant_operand _)).mpr ⟨by decide, by decide⟩

/-- Two times three is 48, not 6; six divided by two is 3 without its tag; the largest number has no
round trip; and of `131071 * 131071`, just below four units, one is left. -/
theorem fp_exact_wrong :
    ¬ (Use.product ⟨2, by decide⟩ ⟨3, by decide⟩).Exact (constant (tagWord 2))
        (constant (tagWord 3)) (page 0 0) ∧
      ¬ (Use.quotient ⟨6, by decide⟩ ⟨2, by decide⟩).Exact (constant (tagWord 6))
        (constant (tagWord 2)) (page 0 0) ∧
      ¬ (Use.accuracy 131071 131071).Exact (constant 131071) (constant 131071) (page 0 0) := by
  refine ⟨fun exact => ?_, fun exact => ?_, fun exact => ?_⟩
  · exact absurd
      ((product_iff _ _ _ (by decide) (constant_operand _) (constant_operand _)).mp exact)
      (by decide)
  · exact absurd ((quotient_iff _ _ _ ⟨by decide, by decide⟩ (constant_operand _)
      (constant_operand _)).mp exact) (by unfold Use.Meets; decide)
  · exact absurd ((accuracy_iff _ (by decide) (constant_operand _) (constant_operand _)).mp exact)
      (by decide)

end FixedPoint

end LispRlm.WasmEmit
