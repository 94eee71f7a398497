import Mathlib.Data.Nat.Digits.Defs
import Mathlib.Data.Int.ModEq
import Mathlib.Tactic.LinearCombination

/-! Numbers as lists of limbs, the lowest limb first. -/

namespace LispRlm.Foundation

namespace Limbs

variable {w : Nat}

/-- The number that the limbs denote. -/
def value (limbs : List (BitVec w)) : Nat := Nat.ofDigits (2 ^ w) (limbs.map BitVec.toNat)

@[simp] theorem value_nil : value ([] : List (BitVec w)) = 0 := rfl

@[simp] theorem value_cons (limb : BitVec w) (limbs : List (BitVec w)) :
    value (limb :: limbs) = limb.toNat + 2 ^ w * value limbs := by
  simp [value, Nat.ofDigits_cons]

theorem value_append (low high : List (BitVec w)) :
    value (low ++ high) = value low + 2 ^ (w * low.length) * value high := by
  rw [value, List.map_append, Nat.ofDigits_append, List.length_map, ← Nat.pow_mul]
  rfl

theorem value_lt (limbs : List (BitVec w)) : value limbs < 2 ^ (w * limbs.length) := by
  induction limbs with
  | nil => simp
  | cons limb limbs ih =>
      rw [value_cons, List.length_cons, Nat.mul_succ, Nat.add_comm (w * _), Nat.pow_add]
      have bound := limb.isLt
      calc limb.toNat + 2 ^ w * value limbs
          < 2 ^ w * (value limbs + 1) := by rw [Nat.mul_add]; omega
        _ ≤ 2 ^ w * 2 ^ (w * limbs.length) := Nat.mul_le_mul_left _ ih

/-! ### Carries and borrows -/

/-- Each term is added to what is carried; its limb is the low part, the high part goes on. -/
def carried : Int → List Int → List (BitVec w) × Int
  | c, [] => ([], c)
  | c, term :: terms =>
      let c := c + term
      let (limbs, out) := carried (c >>> w) terms
      (BitVec.ofInt w c :: limbs, out)

theorem carried_length (c : Int) (terms : List Int) :
    (carried (w := w) c terms).1.length = terms.length := by
  induction terms generalizing c with
  | nil => rfl
  | cons term terms ih => exact congrArg (· + 1) (ih _)

/-- The terms, weighted by their positions. -/
def weighted (w : Nat) : List Int → Int
  | [] => 0
  | term :: terms => term + 2 ^ w * weighted w terms

theorem ofInt_add_shiftRight (c : Int) :
    ((BitVec.ofInt w c).toNat : Int) + 2 ^ w * (c >>> w) = c := by
  have positive : (0 : Int) < 2 ^ w := Int.pow_pos (by decide)
  rw [BitVec.toNat_ofInt, Int.shiftRight_eq_div_pow]
  push_cast
  rw [Int.toNat_of_nonneg (Int.emod_nonneg _ (Int.ne_of_gt positive))]
  exact Int.emod_add_mul_ediv c (2 ^ w)

/-- The limbs, and what is carried out, are worth the terms and what was carried in. -/
theorem carried_value (c : Int) (terms : List Int) :
    ((value (carried (w := w) c terms).1 : Nat) : Int) +
        2 ^ (w * terms.length) * (carried (w := w) c terms).2 = c + weighted w terms := by
  induction terms generalizing c with
  | nil => simp [carried, weighted]
  | cons term terms ih =>
      have rest := ih ((c + term) >>> w)
      have here := ofInt_add_shiftRight (w := w) (c + term)
      simp only [carried, weighted, value_cons, List.length_cons, Nat.mul_succ, pow_add]
      push_cast
      linear_combination here + 2 ^ w * rest

/-- Terms that are linear in two numbers' limbs are worth the same of the numbers. -/
theorem weighted_zipWith {f : BitVec w → BitVec w → Int} {p q : Int}
    (linear : ∀ x y, f x y = p * x.toNat + q * y.toNat) {xs ys : List (BitVec w)}
    (same : xs.length = ys.length) :
    weighted w (List.zipWith f xs ys) = p * value xs + q * value ys := by
  induction xs generalizing ys with
  | nil =>
      cases ys with
      | nil => simp [weighted]
      | cons y ys => simp at same
  | cons x xs ih =>
      cases ys with
      | nil => simp at same
      | cons y ys =>
          rw [List.zipWith_cons_cons, weighted, ih (Nat.succ.inj same), linear, value_cons,
            value_cons]
          push_cast
          ring

theorem carried_nonneg {c : Int} (nonneg : 0 ≤ c) {terms : List Int} (all : ∀ t ∈ terms, 0 ≤ t) :
    0 ≤ (carried (w := w) c terms).2 := by
  induction terms generalizing c with
  | nil => exact nonneg
  | cons term terms ih =>
      refine ih ?_ (fun t mem => all t (List.mem_cons_of_mem _ mem))
      have here := all term List.mem_cons_self
      rw [Int.shiftRight_eq_div_pow]
      exact Int.ediv_nonneg (by omega) (Int.natCast_nonneg _)

/-- A carry goes up while there is one; past the highest limb it is lost. -/
def carryUp : Int → List (BitVec w) → List (BitVec w)
  | _, [] => []
  | c, limb :: limbs =>
      if 0 < c then
        let c := limb.toNat + c
        BitVec.ofInt w c :: carryUp (c >>> w) limbs
      else limb :: limbs

theorem carryUp_length (c : Int) (limbs : List (BitVec w)) :
    (carryUp c limbs).length = limbs.length := by
  induction limbs generalizing c with
  | nil => rfl
  | cons limb limbs ih =>
      unfold carryUp
      split
      · exact congrArg (· + 1) (ih _)
      · rfl

theorem carryUp_value {c : Int} (nonneg : 0 ≤ c) (limbs : List (BitVec w)) :
    (value (carryUp c limbs) : Int) ≡ value limbs + c [ZMOD 2 ^ (w * limbs.length)] := by
  induction limbs generalizing c with
  | nil => simpa [carryUp] using Int.modEq_one
  | cons limb limbs ih =>
      unfold carryUp
      split
      · have onward : 0 ≤ (limb.toNat + c) >>> w := by
          rw [Int.shiftRight_eq_div_pow]
          exact Int.ediv_nonneg (by omega) (Int.natCast_nonneg _)
        have here := ofInt_add_shiftRight (w := w) (limb.toNat + c)
        have above := (ih onward).mul_left' (c := 2 ^ w)
        simp only [value_cons, List.length_cons, Nat.mul_succ, Nat.add_comm (w * _), pow_add]
        push_cast
        calc ((BitVec.ofInt w (limb.toNat + c)).toNat : Int) +
              2 ^ w * value (carryUp ((limb.toNat + c) >>> w) limbs)
            ≡ (BitVec.ofInt w (limb.toNat + c)).toNat +
              2 ^ w * (value limbs + (limb.toNat + c) >>> w)
              [ZMOD 2 ^ w * 2 ^ (w * limbs.length)] := above.add_left _
          _ = limb.toNat + 2 ^ w * value limbs + c := by linear_combination here
      · have zero : c = 0 := by omega
        rw [zero, Int.add_zero]

/-! ### Products -/

/-- A row of the schoolbook product: `a` times a number is added to the lowest limbs. -/
def mulRow (a : BitVec w) (bs ts : List (BitVec w)) : List (BitVec w) :=
  let (low, c) := carried 0
    (List.zipWith (fun t b => (t.toNat : Int) + a.toNat * b.toNat) (ts.take bs.length) bs)
  low ++ carryUp c (ts.drop bs.length)

theorem mulRow_length (a : BitVec w) {bs ts : List (BitVec w)} (room : bs.length ≤ ts.length) :
    (mulRow a bs ts).length = ts.length := by
  rw [mulRow, List.length_append, carried_length, carryUp_length, List.length_zipWith,
    List.length_take, List.length_drop]
  omega

theorem mulRow_value (a : BitVec w) {bs ts : List (BitVec w)} (room : bs.length ≤ ts.length) :
    (value (mulRow a bs ts) : Int) ≡ value ts + a.toNat * value bs
      [ZMOD 2 ^ (w * ts.length)] := by
  have taken : (ts.take bs.length).length = bs.length := List.length_take_of_le room
  have terms := weighted_zipWith
    (f := fun t b => (t.toNat : Int) + a.toNat * b.toNat) (p := 1) (q := a.toNat)
    (fun x y => by ring) taken
  have nonneg : ∀ t ∈ List.zipWith (fun t b => (t.toNat : Int) + a.toNat * b.toNat)
      (ts.take bs.length) bs, 0 ≤ t := by
    intro t mem
    rw [← List.map_uncurry_zip_eq_zipWith] at mem
    obtain ⟨⟨x, y⟩, -, rfl⟩ := List.mem_map.mp mem
    exact Int.add_nonneg (Int.natCast_nonneg _) (Int.natCast_nonneg (a.toNat * y.toNat))
  have low := carried_value (w := w) 0
    (List.zipWith (fun t b => (t.toNat : Int) + a.toNat * b.toNat) (ts.take bs.length) bs)
  have high := (carryUp_value (carried_nonneg (w := w) (Int.le_refl 0) nonneg)
    (ts.drop bs.length)).mul_left' (c := 2 ^ (w * bs.length))
  have split := value_append (ts.take bs.length) (ts.drop bs.length)
  rw [List.take_append_drop, taken] at split
  rw [terms, List.length_zipWith, taken, Nat.min_self] at low
  rw [← pow_add, ← Nat.mul_add, List.length_drop, Nat.add_sub_cancel' room] at high
  rw [mulRow, value_append, carried_length, List.length_zipWith, taken, Nat.min_self, split]
  push_cast
  calc _ ≡ _ [ZMOD 2 ^ (w * ts.length)] := high.add_left _
    _ = _ := by linear_combination low

/-- The schoolbook product, a row for every limb, each a limb higher than the one before. -/
def mulInto : List (BitVec w) → List (BitVec w) → List (BitVec w) → List (BitVec w)
  | [], _, ts => ts
  | a :: as, bs, ts =>
      let row := mulRow a bs ts
      row.take 1 ++ mulInto as bs (row.drop 1)

theorem mulInto_spec {as bs ts : List (BitVec w)} (room : as.length + bs.length ≤ ts.length) :
    (mulInto as bs ts).length = ts.length ∧
      (value (mulInto as bs ts) : Int) ≡ value ts + value as * value bs
        [ZMOD 2 ^ (w * ts.length)] := by
  induction as generalizing ts with
  | nil => simp [mulInto]
  | cons a as ih =>
      rw [List.length_cons] at room
      have fits : bs.length ≤ ts.length := by omega
      have long := mulRow_length a fits
      have row := mulRow_value a fits
      have dropped : ((mulRow a bs ts).drop 1).length = ts.length - 1 := by
        rw [List.length_drop, long]
      have taken : ((mulRow a bs ts).take 1).length = 1 :=
        List.length_take_of_le (by omega)
      have split := value_append ((mulRow a bs ts).take 1) ((mulRow a bs ts).drop 1)
      rw [List.take_append_drop, taken, Nat.mul_one] at split
      have left : as.length + bs.length ≤ ((mulRow a bs ts).drop 1).length := by omega
      obtain ⟨length, above⟩ := ih left
      constructor
      · rw [mulInto, List.length_append, length, taken, dropped]
        omega
      · have above := above.mul_left' (c := 2 ^ w)
        have height : w + w * (ts.length - 1) = w * ts.length := by
          rw [Nat.add_comm, ← Nat.mul_succ]
          rw [Nat.succ_eq_add_one, Nat.sub_add_cancel (by omega)]
        rw [dropped, ← pow_add, height] at above
        rw [mulInto, value_append, taken, Nat.mul_one, value_cons]
        rw [split] at row
        push_cast at row ⊢
        calc (value ((mulRow a bs ts).take 1) : Int) +
              2 ^ w * value (mulInto as bs ((mulRow a bs ts).drop 1))
            ≡ value ((mulRow a bs ts).take 1) +
              2 ^ w * (value ((mulRow a bs ts).drop 1) + value as * value bs)
              [ZMOD 2 ^ (w * ts.length)] := above.add_left _
          _ = value ((mulRow a bs ts).take 1) + 2 ^ w * value ((mulRow a bs ts).drop 1) +
              2 ^ w * (value as * value bs) := by ring
          _ ≡ value ts + a.toNat * value bs + 2 ^ w * (value as * value bs)
              [ZMOD 2 ^ (w * ts.length)] := row.add_right _
          _ = value ts + (a.toNat + 2 ^ w * value as) * value bs := by ring

/-- A product that fits is not cut off. -/
theorem mulInto_value {as bs ts : List (BitVec w)} (room : as.length + bs.length ≤ ts.length)
    (fits : value ts + value as * value bs < 2 ^ (w * ts.length)) :
    value (mulInto as bs ts) = value ts + value as * value bs := by
  obtain ⟨length, product⟩ := mulInto_spec room
  have natural : value (mulInto as bs ts) ≡ value ts + value as * value bs
      [MOD 2 ^ (w * ts.length)] := by
    exact_mod_cast product
  exact natural.eq_of_lt_of_lt (length ▸ value_lt _) fits

/-! ### Comparison -/

/-- Whether the first number is at least the second, their highest limbs first. -/
def geqDown : List (BitVec w) → List (BitVec w) → Bool
  | a :: as, b :: bs => if b < a then true else if a < b then false else geqDown as bs
  | _, _ => true

theorem geqDown_iff {as bs : List (BitVec w)} (same : as.length = bs.length) :
    geqDown as bs = true ↔ value bs.reverse ≤ value as.reverse := by
  induction as generalizing bs with
  | nil =>
      cases bs with
      | nil => simp [geqDown]
      | cons b bs => simp at same
  | cons a as ih =>
      cases bs with
      | nil => simp at same
      | cons b bs =>
          have tail : as.length = bs.length := Nat.succ.inj same
          have lowA := value_lt as.reverse
          have lowB := value_lt bs.reverse
          rw [List.length_reverse] at lowA lowB
          rw [tail] at lowA
          simp only [geqDown, List.reverse_cons, value_append, List.length_reverse, value_cons,
            value_nil, Nat.mul_zero, Nat.add_zero, tail, BitVec.lt_def]
          split_ifs with above below
          · have step := Nat.mul_le_mul_left (2 ^ (w * bs.length)) above
            rw [Nat.mul_succ] at step
            exact iff_of_true rfl (by omega)
          · have step := Nat.mul_le_mul_left (2 ^ (w * bs.length)) below
            rw [Nat.mul_succ] at step
            exact iff_of_false id (by omega)
          · have equal : a.toNat = b.toNat := by omega
            rw [ih tail, equal]
            omega

/-! ### Shifts -/

/-- The limbs moved up by a bit: a limb's top bit is the next one's lowest. -/
def shiftUp : Bool → List (BitVec w) → List (BitVec w) × Bool
  | c, [] => ([], c)
  | c, limb :: limbs =>
      let (rest, out) := shiftUp limb.msb limbs
      (limb.shiftConcat c :: rest, out)

theorem shiftUp_length (c : Bool) (limbs : List (BitVec w)) :
    (shiftUp c limbs).1.length = limbs.length := by
  induction limbs generalizing c with
  | nil => rfl
  | cons limb limbs ih => exact congrArg (· + 1) (ih _)

theorem shiftConcat_add_msb (positive : 0 < w) (limb : BitVec w) (c : Bool) :
    (limb.shiftConcat c).toNat + 2 ^ w * limb.msb.toNat = 2 * limb.toNat + c.toNat := by
  obtain ⟨v, rfl⟩ := Nat.exists_eq_add_of_le' positive
  have bound := limb.isLt
  have bit := Bool.toNat_le c
  rw [BitVec.toNat_shiftConcat, Nat.shiftLeft_eq, Nat.pow_one, BitVec.msb_eq_decide,
    Nat.add_sub_cancel]
  rw [Nat.pow_succ] at *
  by_cases top : 2 ^ v ≤ limb.toNat
  · rw [decide_eq_true top, Nat.mod_eq_sub_mod (by omega), Nat.mod_eq_of_lt (by omega)]
    simp
    omega
  · rw [decide_eq_false top, Nat.mod_eq_of_lt (by omega)]
    simp
    omega

theorem shiftUp_value (positive : 0 < w) (c : Bool) (limbs : List (BitVec w)) :
    value (shiftUp c limbs).1 + 2 ^ (w * limbs.length) * (shiftUp c limbs).2.toNat =
      2 * value limbs + c.toNat := by
  induction limbs generalizing c with
  | nil => simp [shiftUp]
  | cons limb limbs ih =>
      have here := shiftConcat_add_msb positive limb c
      have rest := ih limb.msb
      simp only [shiftUp, value_cons, List.length_cons, Nat.mul_succ, Nat.pow_add]
      linear_combination here + 2 ^ w * rest

/-- A limb is put in another's place. -/
theorem value_set {limbs : List (BitVec w)} {k : Nat} (within : k < limbs.length) (limb : BitVec w) :
    value (limbs.set k limb) + 2 ^ (w * k) * (limbs.getD k 0).toNat =
      value limbs + 2 ^ (w * k) * limb.toNat := by
  induction limbs generalizing k with
  | nil => exact absurd within (Nat.not_lt_zero k)
  | cons low limbs ih =>
      cases k with
      | zero =>
          rw [List.set_cons_zero, value_cons, value_cons, List.getD_cons_zero, Nat.mul_zero,
            Nat.pow_zero]
          omega
      | succ k =>
          have rest := ih (Nat.lt_of_succ_lt_succ within)
          rw [List.set_cons_succ, value_cons, value_cons, List.getD_cons_succ, Nat.mul_succ,
            Nat.add_comm (w * k), Nat.pow_add]
          linear_combination 2 ^ w * rest

/-- A bit of the number is in the limb of its index. -/
theorem testBit_value (positive : 0 < w) (limbs : List (BitVec w)) (i : Nat) :
    (value limbs).testBit i = (limbs.getD (i / w) 0).getLsbD (i % w) := by
  induction limbs generalizing i with
  | nil => simp
  | cons limb limbs ih =>
      rw [value_cons, Nat.add_comm, Nat.testBit_two_pow_mul_add _ limb.isLt]
      by_cases low : i < w
      · rw [if_pos low, Nat.div_eq_of_lt low, Nat.mod_eq_of_lt low]
        rfl
      · have onward : w ≤ i := Nat.le_of_not_lt low
        rw [if_neg low, ih, Nat.div_eq_sub_div positive onward, Nat.mod_eq_sub_mod onward]
        rfl

end Limbs

end LispRlm.Foundation
