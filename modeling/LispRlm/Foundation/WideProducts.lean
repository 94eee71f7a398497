import LispRlm.Foundation.Limbs

/-! Sums and products of limbs by loops with a running total, and what the total is on the way. -/

namespace LispRlm.Foundation

namespace Limbs

variable {w : Nat}

theorem value_zeros {limbs : List (BitVec w)} (zeros : ∀ limb ∈ limbs, limb = 0) :
    value limbs = 0 := by
  induction limbs with
  | nil => rfl
  | cons limb limbs ih =>
    rcases List.forall_mem_cons.mp zeros with ⟨here, rest⟩
    rw [value_cons, here, ih rest]
    rfl

/-- So many limbs denote different numbers unless they are the same. -/
theorem value_inj {as bs : List (BitVec w)} (same : as.length = bs.length)
    (equal : value as = value bs) : as = bs := by
  induction as generalizing bs with
  | nil => exact (List.length_eq_zero_iff.mp same.symm).symm
  | cons a as ih =>
    cases bs with
    | nil => cases same
    | cons b bs =>
      have lowA : (value (a :: as)) % 2 ^ w = a.toNat := by
        rw [value_cons, Nat.add_mul_mod_self_left, Nat.mod_eq_of_lt a.isLt]
      have lowB : (value (b :: bs)) % 2 ^ w = b.toNat := by
        rw [value_cons, Nat.add_mul_mod_self_left, Nat.mod_eq_of_lt b.isLt]
      have low : a.toNat = b.toNat := by rw [← lowA, ← lowB, equal]
      rw [value_cons, value_cons, low] at equal
      have high := Nat.eq_of_mul_eq_mul_left (Nat.two_pow_pos w) (Nat.add_left_cancel equal)
      rw [BitVec.eq_of_toNat_eq low, ih (Nat.succ.inj same) high]

theorem weighted_map (limbs : List (BitVec w)) :
    weighted w (limbs.map fun x => (x.toNat : Int)) = value limbs := by
  induction limbs with
  | nil => rfl
  | cons limb limbs ih =>
    rw [List.map_cons, weighted, ih, value_cons]
    push_cast
    rfl

/-- Limbs that are added up alone stay as they are. -/
theorem carried_map (limbs : List (BitVec w)) :
    carried 0 (limbs.map fun x => (x.toNat : Int)) = (limbs, 0) := by
  induction limbs with
  | nil => rfl
  | cons limb limbs ih =>
    have none : ((0 : Int) + limb.toNat) >>> w = 0 := by
      rw [Int.zero_add, Int.shiftRight_eq_div_pow]
      exact_mod_cast Nat.div_eq_of_lt limb.isLt
    rw [List.map_cons, carried, none, ih, Int.zero_add, BitVec.ofInt_natCast,
      BitVec.ofNat_toNat, BitVec.setWidth_eq]

/-! ### Running totals -/

/-- What the running total of `carried` is at each term. -/
def totals (w : Nat) : Int → List Int → List Int
  | _, [] => []
  | c, term :: terms => (c + term) :: totals w ((c + term) >>> w) terms

theorem shiftRight_mem {c t C T : Int} (carry : 0 ≤ c ∧ c ≤ C) (term : 0 ≤ t ∧ t ≤ T)
    (closed : C + T < 2 ^ w * (C + 1)) : 0 ≤ (c + t) >>> w ∧ (c + t) >>> w ≤ C := by
  have positive : (0 : Int) < 2 ^ w := Int.pow_pos (by decide)
  rw [Int.shiftRight_eq_div_pow]
  push_cast
  refine ⟨Int.ediv_nonneg (by omega) (Int.le_of_lt positive), ?_⟩
  refine Int.lt_add_one_iff.mp (Int.ediv_lt_of_lt_mul positive ?_)
  rw [Int.mul_comm]
  omega

/-- The carry out stays below a bound that one more term does not break. -/
theorem carried_le {c C T : Int} (carry : 0 ≤ c ∧ c ≤ C) {terms : List Int}
    (all : ∀ t ∈ terms, 0 ≤ t ∧ t ≤ T) (closed : C + T < 2 ^ w * (C + 1)) :
    0 ≤ (carried (w := w) c terms).2 ∧ (carried (w := w) c terms).2 ≤ C := by
  induction terms generalizing c with
  | nil => exact carry
  | cons term terms ih =>
    exact ih (shiftRight_mem carry (all term List.mem_cons_self) closed)
      (fun t mem => all t (List.mem_cons_of_mem _ mem))

theorem totals_le {c C T : Int} (carry : 0 ≤ c ∧ c ≤ C) {terms : List Int}
    (all : ∀ t ∈ terms, 0 ≤ t ∧ t ≤ T) (closed : C + T < 2 ^ w * (C + 1)) :
    ∀ total ∈ totals w c terms, 0 ≤ total ∧ total ≤ C + T := by
  induction terms generalizing c with
  | nil => exact fun _ mem => by cases mem
  | cons term terms ih =>
    have here := all term List.mem_cons_self
    refine List.forall_mem_cons.mpr ⟨by omega, ?_⟩
    exact ih (shiftRight_mem carry here closed) (fun t mem => all t (List.mem_cons_of_mem _ mem))

/-- A bound on the terms of two lists of limbs. -/
theorem forall_mem_zipWith {f : BitVec w → BitVec w → Int} {T : Int}
    (each : ∀ x y, 0 ≤ f x y ∧ f x y ≤ T) (xs ys : List (BitVec w)) :
    ∀ t ∈ List.zipWith f xs ys, 0 ≤ t ∧ t ≤ T := by
  intro t mem
  rw [← List.map_uncurry_zip_eq_zipWith] at mem
  rcases List.mem_map.mp mem with ⟨⟨x, y⟩, -, rfl⟩
  exact each x y

/-! ### Products whose rows put their carry into the next limb -/

def rowTerms (a : BitVec w) (bs ts : List (BitVec w)) : List Int :=
  List.zipWith (fun t b => (t.toNat : Int) + a.toNat * b.toNat) (ts.take bs.length) bs

def putRow (a : BitVec w) (bs ts : List (BitVec w)) : List (BitVec w) :=
  (carried 0 (rowTerms a bs ts)).1 ++
    (ts.drop bs.length).set 0 (BitVec.ofInt w (carried (w := w) 0 (rowTerms a bs ts)).2)

/-- A row for every limb, each a limb higher than the one before. -/
def putRows : List (BitVec w) → List (BitVec w) → List (BitVec w) → List (BitVec w)
  | [], _, ts => ts
  | a :: as, bs, ts => (putRow a bs ts).take 1 ++ putRows as bs ((putRow a bs ts).drop 1)

/-- The running totals of all rows. -/
def rowsTotals : List (BitVec w) → List (BitVec w) → List (BitVec w) → List Int
  | [], _, _ => []
  | a :: as, bs, ts =>
      totals w 0 (rowTerms a bs ts) ++ rowsTotals as bs ((putRow a bs ts).drop 1)

theorem product_le (a b : BitVec w) :
    (a.toNat : Int) * b.toNat ≤ (2 ^ w - 1) * (2 ^ w - 1) := by
  have boundA : (a.toNat : Int) ≤ 2 ^ w - 1 := by
    have := a.isLt
    have : (a.toNat : Int) < 2 ^ w := by exact_mod_cast this
    omega
  have boundB : (b.toNat : Int) ≤ 2 ^ w - 1 := by
    have := b.isLt
    have : (b.toNat : Int) < 2 ^ w := by exact_mod_cast this
    omega
  exact Int.mul_le_mul boundA boundB (Int.natCast_nonneg _)
    (Int.le_trans (Int.natCast_nonneg _) boundA)

/-- The most that a term of a row is. -/
theorem rowTerms_le (a : BitVec w) (bs ts : List (BitVec w)) :
    ∀ t ∈ rowTerms a bs ts, 0 ≤ t ∧ t ≤ (2 ^ w - 1) + (2 ^ w - 1) * (2 ^ w - 1) := by
  refine forall_mem_zipWith (fun t b => ⟨?_, ?_⟩) _ _
  · exact Int.add_nonneg (Int.natCast_nonneg _) (Int.natCast_nonneg (a.toNat * b.toNat))
  · have bound : (t.toNat : Int) < 2 ^ w := by exact_mod_cast t.isLt
    have := product_le a b
    omega

theorem row_closed (w : Nat) :
    ((2 : Int) ^ w - 1) + ((2 ^ w - 1) + (2 ^ w - 1) * (2 ^ w - 1)) < 2 ^ w * (2 ^ w - 1 + 1) := by
  have same : ((2 : Int) ^ w - 1) + ((2 ^ w - 1) + (2 ^ w - 1) * (2 ^ w - 1)) + 1 =
      2 ^ w * (2 ^ w - 1 + 1) := by ring
  omega

theorem zero_le_ones (w : Nat) : (0 : Int) ≤ 2 ^ w - 1 := by
  have : (0 : Int) < 2 ^ w := Int.pow_pos (by decide)
  omega

/-- What a row carries out is a limb. -/
theorem row_carry (a : BitVec w) (bs ts : List (BitVec w)) :
    ((BitVec.ofInt w (carried (w := w) 0 (rowTerms a bs ts)).2).toNat : Int) =
      (carried (w := w) 0 (rowTerms a bs ts)).2 := by
  have bound := carried_le (w := w) ⟨Int.le_refl 0, zero_le_ones w⟩ (rowTerms_le a bs ts)
    (row_closed w)
  rw [BitVec.toNat_ofInt]
  push_cast
  rw [Int.toNat_of_nonneg (Int.emod_nonneg _ (by have : (0 : Int) < 2 ^ w := Int.pow_pos (by decide)
                                                 omega))]
  exact Int.emod_eq_of_lt bound.1 (by omega)

theorem putRow_length (a : BitVec w) {bs ts : List (BitVec w)} (room : bs.length ≤ ts.length) :
    (putRow a bs ts).length = ts.length := by
  rw [putRow, List.length_append, carried_length, rowTerms, List.length_zipWith,
    List.length_take, List.length_set, List.length_drop]
  omega

theorem putRow_value (a : BitVec w) {bs ts : List (BitVec w)} (room : bs.length < ts.length)
    (zeros : ∀ t ∈ ts.drop bs.length, t = 0) :
    value (putRow a bs ts) = value ts + a.toNat * value bs := by
  have taken : (ts.take bs.length).length = bs.length :=
    List.length_take_of_le (Nat.le_of_lt room)
  have terms : weighted w (rowTerms a bs ts) =
      1 * value (ts.take bs.length) + a.toNat * value bs :=
    weighted_zipWith (fun x y => by ring) taken
  have low := carried_value (w := w) 0 (rowTerms a bs ts)
  have long : (rowTerms a bs ts).length = bs.length := by
    rw [rowTerms, List.length_zipWith, taken, Nat.min_self]
  have inside : 0 < (ts.drop bs.length).length := by rw [List.length_drop]; omega
  have put := value_set inside
    (BitVec.ofInt w (carried (w := w) 0 (rowTerms a bs ts)).2)
  have zero : (ts.drop bs.length).getD 0 0 = 0 := by
    cases rest : ts.drop bs.length with
    | nil => rfl
    | cons t _ => exact zeros t (rest ▸ List.mem_cons_self)
  have split := value_append (ts.take bs.length) (ts.drop bs.length)
  rw [List.take_append_drop, taken, value_zeros zeros] at split
  rw [zero, value_zeros zeros, Nat.mul_zero, Nat.pow_zero, Nat.one_mul] at put
  have carry := row_carry a bs ts
  rw [putRow, value_append, carried_length, long, split]
  rw [long, terms] at low
  have put' : (value ((ts.drop bs.length).set 0
      (BitVec.ofInt w (carried (w := w) 0 (rowTerms a bs ts)).2)) : Int) =
      (carried (w := w) 0 (rowTerms a bs ts)).2 := by
    have none : (0 : BitVec w).toNat = 0 := rfl
    exact Eq.trans (by omega) carry
  zify
  rw [put']
  linear_combination low

theorem putRow_drop (a : BitVec w) {bs ts : List (BitVec w)} (room : bs.length < ts.length) :
    ((putRow a bs ts).drop 1).drop bs.length = (ts.drop 1).drop bs.length := by
  have long : (carried (w := w) 0 (rowTerms a bs ts)).1.length = bs.length := by
    rw [carried_length, rowTerms, List.length_zipWith, List.length_take]
    omega
  rw [List.drop_drop, List.drop_drop, putRow, List.drop_append, long, Nat.add_comm,
    Nat.add_sub_cancel_left, List.drop_eq_nil_of_le (by omega), List.nil_append]
  cases rest : ts.drop bs.length with
  | nil =>
    have := congrArg List.length rest
    rw [List.length_drop, List.length_nil] at this
    omega
  | cons t more =>
    rw [List.set_cons_zero, List.drop_one, List.tail_cons, ← List.drop_drop, rest, List.drop_one,
      List.tail_cons]

/-- The product, if there is nothing yet where the rows put their carries. -/
theorem putRows_spec {as bs ts : List (BitVec w)} (room : as.length + bs.length ≤ ts.length)
    (zeros : ∀ t ∈ ts.drop bs.length, t = 0) :
    (putRows as bs ts).length = ts.length ∧
      value (putRows as bs ts) = value ts + value as * value bs := by
  induction as generalizing ts with
  | nil => simp [putRows]
  | cons a as ih =>
    rw [List.length_cons] at room
    have inside : bs.length < ts.length := by omega
    have long := putRow_length a (Nat.le_of_lt inside)
    have row := putRow_value a inside zeros
    have dropped : ((putRow a bs ts).drop 1).length = ts.length - 1 := by
      rw [List.length_drop, long]
    have taken : ((putRow a bs ts).take 1).length = 1 := List.length_take_of_le (by omega)
    have zeros' : ∀ t ∈ ((putRow a bs ts).drop 1).drop bs.length, t = 0 := by
      rw [putRow_drop a inside, List.drop_drop, Nat.add_comm, ← List.drop_drop]
      exact fun t mem => zeros t (List.mem_of_mem_drop mem)
    rcases ih (by omega) zeros' with ⟨length, above⟩
    have split := value_append ((putRow a bs ts).take 1) ((putRow a bs ts).drop 1)
    rw [List.take_append_drop, taken, Nat.mul_one, row] at split
    constructor
    · rw [putRows, List.length_append, length, taken, dropped]
      omega
    · rw [putRows, value_append, taken, Nat.mul_one, above, value_cons]
      calc _ = value ((putRow a bs ts).take 1) + 2 ^ w * value ((putRow a bs ts).drop 1) +
            2 ^ w * (value as * value bs) := by ring
        _ = _ := by rw [← split]; ring

theorem rowsTotals_le {as bs ts : List (BitVec w)} :
    ∀ total ∈ rowsTotals as bs ts, 0 ≤ total ∧ total < 2 ^ (2 * w) := by
  induction as generalizing ts with
  | nil => exact fun _ mem => by cases mem
  | cons a as ih =>
    intro total mem
    rcases List.mem_append.mp mem with here | later
    · have bound := totals_le ⟨Int.le_refl 0, zero_le_ones w⟩ (rowTerms_le a bs ts)
        (row_closed w) total here
      have top : ((2 : Int) ^ w - 1) + ((2 ^ w - 1) + (2 ^ w - 1) * (2 ^ w - 1)) + 1 =
          2 ^ (2 * w) := by ring
      exact ⟨bound.1, by omega⟩
    · exact ih total later

end Limbs
end LispRlm.Foundation
