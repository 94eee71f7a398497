import LispRlm.WasmEmit.HalfLimbs

/-! The schoolbook product into as few limbs as a factor has, with the checks that are to refuse
what does not fit. -/

namespace LispRlm.WasmEmit

open Foundation

namespace Halves

/-- The low half of each word, then its high half. -/
def split : List I64 → List I64
  | [] => []
  | w :: ws => lowHalf w :: highHalf w :: split ws

/-- A row of the product. A limb product above the last place and a carry out of it are refused, by
their low 32 bits. -/
def mulRowChecked (a : I64) : List I64 → List I64 → Option (List I64)
  | [], ps => some ps
  | b :: bs, [] =>
      if (a * b).setWidth 32 ≠ (0 : BitVec 32) then none else mulRowChecked a bs []
  | b :: bs, p :: ps =>
      let (sums, carry) := addWord (a * b) (p :: ps)
      if carry.setWidth 32 ≠ (0 : BitVec 32) then none
      else
        match sums with
        | [] => none
        | q :: rest => (mulRowChecked a bs rest).map (q :: ·)

def schoolbookChecked : List I64 → List I64 → List I64 → Option (List I64)
  | [], _, ps => some ps
  | a :: as, bs, ps =>
      match mulRowChecked a bs ps with
      | some (p :: rest) => (schoolbookChecked as bs rest).map (p :: ·)
      | _ => none

/-! ### The two parts of a product -/

/-- The number's limbs of 32 bits. -/
def limbs (n : Nat) : Nat → List Nat
  | 0 => []
  | k + 1 => n % 2 ^ 32 :: limbs (n / 2 ^ 32) k

/-- The limb products at the first `n` places, summed. -/
def kept : List Nat → List Nat → Nat → Nat
  | [], _, _ => 0
  | a :: as, bs, n => a * Nat.ofDigits (2 ^ 32) (bs.take n) + 2 ^ 32 * kept as bs (n - 1)

/-- The limb products above them. -/
def dropped : List Nat → List Nat → Nat → List Nat
  | [], _, _ => []
  | a :: as, bs, n => (bs.drop n).map (a * ·) ++ dropped as bs (n - 1)

/-- What the limb products above the first `n` places add up to there. -/
def above : List Nat → List Nat → Nat → Nat
  | [], _, _ => 0
  | a :: as, bs, n => a * Nat.ofDigits (2 ^ 32) (bs.drop n) + above as bs (n - 1)

theorem ofDigits_take_drop (bs : List Nat) (n : Nat) (room : n ≤ bs.length) :
    Nat.ofDigits (2 ^ 32) bs =
      Nat.ofDigits (2 ^ 32) (bs.take n) + 2 ^ (32 * n) * Nat.ofDigits (2 ^ 32) (bs.drop n) := by
  conv_lhs => rw [← List.take_append_drop n bs, Nat.ofDigits_append]
  rw [List.length_take, Nat.min_eq_left room, Nat.pow_mul]

theorem kept_add_above (as : List Nat) {bs : List Nat} {n : Nat} (few : as.length ≤ n)
    (room : n ≤ bs.length) :
    Nat.ofDigits (2 ^ 32) as * Nat.ofDigits (2 ^ 32) bs =
      kept as bs n + 2 ^ (32 * n) * above as bs n := by
  induction as generalizing n with
  | nil => simp [kept, above]
  | cons a as ih =>
      obtain ⟨k, rfl⟩ : ∃ k, n = k + 1 := ⟨n - 1, by rw [List.length_cons] at few; omega⟩
      have rest := ih (n := k) (Nat.le_of_succ_le_succ few) (by omega)
      have row := ofDigits_take_drop bs (k + 1) room
      rw [Nat.ofDigits_cons, kept, above, Nat.add_sub_cancel]
      rw [base_pow] at row ⊢
      push_cast
      linear_combination a * row + 2 ^ 32 * rest

theorem dropped_zero {as bs : List Nat} {n : Nat} (none : above as bs n = 0) :
    ∀ p ∈ dropped as bs n, p = 0 := by
  induction as generalizing n with
  | nil => exact nofun
  | cons a as ih =>
      obtain ⟨row, rest⟩ := Nat.add_eq_zero_iff.mp none
      intro p mem
      rcases List.mem_append.mp mem with here | later
      · obtain ⟨b, high, rfl⟩ := List.mem_map.mp here
        rcases Nat.mul_eq_zero.mp row with zero | zeros
        · rw [zero, Nat.zero_mul]
        · have zero : b = 0 := by
            have digits : ∀ ds : List Nat, Nat.ofDigits (2 ^ 32) ds = 0 → ∀ d ∈ ds, d = 0 := by
              intro ds
              induction ds with
              | nil => exact fun _ => nofun
              | cons d ds ihd =>
                  intro sum e mem
                  rw [Nat.ofDigits_cons, Nat.add_eq_zero_iff] at sum
                  rcases List.mem_cons.mp mem with rfl | mem
                  · exact sum.1
                  · exact ihd ((Nat.mul_eq_zero.mp sum.2).resolve_left (by decide)) e mem
            exact digits _ zeros b high
          rw [zero, Nat.mul_zero]
      · exact ih rest p later

theorem map_limbs {ws : List I64} (valid : Valid ws) :
    ws.map BitVec.toNat = limbs (value ws) ws.length := by
  induction ws with
  | nil => rfl
  | cons w ws ih =>
      have low := valid.head
      rw [List.map_cons, ih valid.tail, List.length_cons, limbs, value_cons,
        Nat.add_mul_mod_self_left, Nat.mod_eq_of_lt low, Nat.add_mul_div_left _ _ (by decide),
        Nat.div_eq_of_lt low, Nat.zero_add]

theorem split_value (ws : List I64) : value (split ws) = Foundation.Limbs.value ws := by
  induction ws with
  | nil => rfl
  | cons w ws ih =>
      have whole := low_add_high w
      rw [split, value_cons, value_cons, ih, Foundation.Limbs.value_cons]
      omega

theorem split_valid (ws : List I64) : Valid (split ws) := by
  induction ws with
  | nil => exact .nil
  | cons w ws ih =>
      have high : (highHalf w).toNat < 2 ^ 32 := by
        have word := w.isLt
        rw [highHalf_toNat]
        omega
      exact .cons (lowHalf_lt w) (.cons high ih)

theorem split_length (ws : List I64) : (split ws).length = 2 * ws.length := by
  induction ws with
  | nil => rfl
  | cons w ws ih =>
      rw [split, List.length_cons, List.length_cons, ih, List.length_cons]
      omega

/-! ### The checks -/

theorem propagate_carry {t : I64} {rs : List I64} (small : t.toNat < 2 ^ 32) (valid : Valid rs) :
    (propagate t rs).2.toNat < 2 ^ 32 := by
  induction rs generalizing t with
  | nil => exact small
  | cons r rs ih =>
      have head := valid.head
      refine ih ?_ valid.tail
      rw [highHalf_toNat, BitVec.toNat_add]
      omega

/-- The carry of a limb product fits a limb. -/
theorem addWord_carry {t : I64} {rs : List I64} (product : t.toNat ≤ (2 ^ 32 - 1) * (2 ^ 32 - 1))
    (room : rs ≠ []) (valid : Valid rs) : (addWord t rs).2.toNat < 2 ^ 32 := by
  cases rs with
  | nil => exact (room rfl).elim
  | cons r rs =>
      have head := valid.head
      have low := lowHalf_lt t
      refine propagate_carry ?_ valid.tail
      rw [BitVec.toNat_add, highHalf_toNat, highHalf_toNat, BitVec.toNat_add]
      omega

theorem low_zero {w : I64} (small : w.toNat < 2 ^ 32) :
    w.setWidth 32 ≠ (0 : BitVec 32) ↔ w.toNat ≠ 0 := by
  rw [ne_eq, ← BitVec.toNat_inj, BitVec.toNat_setWidth, Nat.mod_eq_of_lt small]
  rfl

theorem mul_le_limbs {a b : Nat} (left : a < 2 ^ 32) (right : b < 2 ^ 32) :
    a * b ≤ (2 ^ 32 - 1) * (2 ^ 32 - 1) :=
  Nat.mul_le_mul (Nat.le_sub_one_of_lt left) (Nat.le_sub_one_of_lt right)

/-- A carry's step: what comes after the first place fits exactly if the whole does. -/
theorem fits_rest {r rest base total : Nat} (limb : r < 2 ^ 32) (sum : r + 2 ^ 32 * rest = total) :
    total < 2 ^ 32 * base ↔ rest < base := by
  omega

/-- A row goes through exactly if what it keeps fits, and what it drops looks like zero. -/
theorem mulRowChecked_spec {a : I64} {bs ps : List I64} (limb : a.toNat < 2 ^ 32)
    (factor : Valid bs) (valid : Valid ps) :
    (∀ rs, mulRowChecked a bs ps = some rs →
      rs.length = ps.length ∧ Valid rs ∧
        value rs = value ps + a.toNat *
          Nat.ofDigits (2 ^ 32) ((bs.map BitVec.toNat).take ps.length)) ∧
    ((mulRowChecked a bs ps).isSome ↔
      value ps + a.toNat * Nat.ofDigits (2 ^ 32) ((bs.map BitVec.toNat).take ps.length) <
          2 ^ (32 * ps.length) ∧
        ∀ p ∈ ((bs.map BitVec.toNat).drop ps.length).map (a.toNat * ·), p % 2 ^ 32 = 0) := by
  induction bs generalizing ps with
  | nil =>
      have small := value_lt valid
      refine ⟨?_, ?_⟩
      · rintro rs ⟨⟩
        exact ⟨rfl, valid, by simp⟩
      · simpa [mulRowChecked] using small
  | cons b bs ih =>
      have product := mul_toNat limb factor.head
      cases ps with
      | nil =>
          obtain ⟨made, goes⟩ := ih factor.tail valid
          have zero : (a * b).setWidth 32 = (0 : BitVec 32) ↔ a.toNat * b.toNat % 2 ^ 32 = 0 := by
            rw [← BitVec.toNat_inj, BitVec.toNat_setWidth, product]
            rfl
          simp only [mulRowChecked, ne_eq, zero, ite_not]
          split_ifs with low
          · refine ⟨made, goes.trans (and_congr Iff.rfl ?_)⟩
            rw [List.length_nil, List.drop_zero, List.drop_zero, List.map_cons, List.map_cons,
              List.forall_mem_cons]
            exact (and_iff_right low).symm
          · refine ⟨nofun, iff_of_false Bool.false_ne_true fun refused => low ?_⟩
            exact refused.2 _ List.mem_cons_self
      | cons p0 ps =>
          obtain ⟨length, made, -, total⟩ := addWord_spec (t := a * b)
            (List.cons_ne_nil p0 ps) valid
          have carry := addWord_carry (t := a * b)
            (product.trans_le (mul_le_limbs limb factor.head)) (List.cons_ne_nil p0 ps) valid
          rw [product] at total
          rw [mulRowChecked]
          generalize addWord (a * b) (p0 :: ps) = added at *
          obtain ⟨sums, out⟩ := added
          dsimp only at *
          simp only [low_zero carry, ite_not]
          rw [List.length_cons, base_pow, value_cons] at *
          have digits : Nat.ofDigits (2 ^ 32)
              (((b :: bs).map BitVec.toNat).take (ps.length + 1)) =
              b.toNat + 2 ^ 32 * Nat.ofDigits (2 ^ 32) ((bs.map BitVec.toNat).take ps.length) := by
            rw [List.map_cons, List.take_succ_cons, Nat.ofDigits_cons]
          rw [digits, List.map_cons, List.drop_succ_cons]
          cases sums with
          | nil => simp at length
          | cons q rest =>
              have same : rest.length = ps.length := Nat.succ.inj length
              rw [value_cons] at total
              split_ifs with none
              · obtain ⟨more, goes⟩ := ih factor.tail made.tail
                rw [none, Nat.mul_zero, Nat.add_zero] at total
                rw [same] at more goes
                have sum : q.toNat + 2 ^ 32 * (value rest + a.toNat *
                    Nat.ofDigits (2 ^ 32) ((bs.map BitVec.toNat).take ps.length)) =
                    p0.toNat + 2 ^ 32 * value ps + a.toNat * (b.toNat + 2 ^ 32 *
                      Nat.ofDigits (2 ^ 32) ((bs.map BitVec.toNat).take ps.length)) := by
                  linear_combination total
                refine ⟨?_, ?_⟩
                · intro rs found
                  obtain ⟨rs', inner, rfl⟩ := Option.map_eq_some_iff.mp found
                  obtain ⟨long, validR, valueR⟩ := more rs' inner
                  refine ⟨congrArg (· + 1) long, .cons made.head validR, ?_⟩
                  rw [value_cons, valueR]
                  exact sum
                · rw [Option.isSome_map, goes, fits_rest made.head sum]
              · refine ⟨nofun, iff_of_false Bool.false_ne_true ?_⟩
                rintro ⟨fits, -⟩
                have exceeds : 2 ^ 32 * 2 ^ (32 * ps.length) ≤
                    2 ^ 32 * 2 ^ (32 * ps.length) * out.toNat :=
                  Nat.le_mul_of_pos_right _ (Nat.pos_of_ne_zero none)
                have spread : a.toNat * (b.toNat + 2 ^ 32 *
                    Nat.ofDigits (2 ^ 32) ((bs.map BitVec.toNat).take ps.length)) =
                    a.toNat * b.toNat + a.toNat * (2 ^ 32 *
                    Nat.ofDigits (2 ^ 32) ((bs.map BitVec.toNat).take ps.length)) :=
                      Nat.mul_add _ _ _
                omega

theorem schoolbookChecked_spec {as bs ps : List I64} (left : Valid as) (right : Valid bs)
    (valid : Valid ps) (room : as.length ≤ ps.length) :
    (∀ rs, schoolbookChecked as bs ps = some rs →
      rs.length = ps.length ∧ Valid rs ∧
        value rs = value ps + kept (as.map BitVec.toNat) (bs.map BitVec.toNat) ps.length) ∧
    ((schoolbookChecked as bs ps).isSome ↔
      value ps + kept (as.map BitVec.toNat) (bs.map BitVec.toNat) ps.length <
          2 ^ (32 * ps.length) ∧
        ∀ p ∈ dropped (as.map BitVec.toNat) (bs.map BitVec.toNat) ps.length, p % 2 ^ 32 = 0) := by
  induction as generalizing ps with
  | nil =>
      have small := value_lt valid
      refine ⟨?_, ?_⟩
      · rintro rs ⟨⟩
        exact ⟨rfl, valid, by simp [kept]⟩
      · simpa [schoolbookChecked, kept, dropped] using small
  | cons a as ih =>
      obtain ⟨made, goes⟩ := mulRowChecked_spec left.head right valid
      rw [List.length_cons] at room
      obtain ⟨k, count⟩ : ∃ k, ps.length = k + 1 := ⟨ps.length - 1, by omega⟩
      rw [schoolbookChecked]
      rw [count] at made goes ⊢
      simp only [List.map_cons, kept, dropped, List.forall_mem_append, Nat.add_sub_cancel]
      rw [base_pow] at goes ⊢
      cases row : mulRowChecked a bs ps with
      | none =>
          refine ⟨nofun, iff_of_false Bool.false_ne_true ?_⟩
          rintro ⟨fits, zeros, -⟩
          rw [row] at goes
          exact Bool.false_ne_true (goes.mpr ⟨by omega, zeros⟩)
      | some sums =>
          obtain ⟨length, validS, valueS⟩ := made sums row
          rw [row] at goes
          obtain ⟨-, zeros⟩ := goes.mp rfl
          cases sums with
          | nil => simp at length
          | cons r rest =>
              have same : rest.length = k := Nat.succ.inj length
              obtain ⟨more, further⟩ := ih left.tail validS.tail (by omega)
              rw [same] at more further
              rw [value_cons] at valueS
              have sum : r.toNat + 2 ^ 32 * (value rest +
                  kept (as.map BitVec.toNat) (bs.map BitVec.toNat) k) =
                  value ps + (a.toNat * Nat.ofDigits (2 ^ 32) ((bs.map BitVec.toNat).take (k + 1)) +
                    2 ^ 32 * kept (as.map BitVec.toNat) (bs.map BitVec.toNat) k) := by
                linear_combination valueS
              dsimp only
              refine ⟨?_, ?_⟩
              · intro rs found
                obtain ⟨rs', inner, rfl⟩ := Option.map_eq_some_iff.mp found
                obtain ⟨long, validR, valueR⟩ := more rs' inner
                refine ⟨congrArg (· + 1) long, .cons validS.head validR, ?_⟩
                rw [value_cons, valueR]
                exact sum
              · rw [Option.isSome_map, further, fits_rest validS.head sum]
                exact and_congr_right fun _ => (and_iff_right zeros).symm

end Halves

end LispRlm.WasmEmit
