import LispRlm.WasmEmit.HalfLimbs

/-! The restoring long division over limbs of 32 bits. -/

namespace LispRlm.WasmEmit

open Foundation

namespace Halves

/-- The limbs move up by a bit; the bit that falls off comes last. -/
def shiftUp : I64 → List I64 → List I64 × I64
  | c, [] => ([], c)
  | c, w :: ws =>
      let (rest, out) := shiftUp (w >>> 31) ws
      ((lowHalf (w <<< 1) ||| c) :: rest, out)

/-- A bit goes in at the lowest limb. -/
def orLow (bit : I64) : List I64 → List I64
  | [] => []
  | w :: ws => (w ||| bit) :: ws

/-- The differences of the limbs; a difference above its limb has borrowed. -/
def subtract (borrow : I64) : List I64 → List I64 → List I64
  | r :: rs, d :: ds =>
      let u := r - d - borrow
      lowHalf u :: subtract (Op.ofBool (r.ult u)) rs ds
  | _, _ => []

/-- Two limbs to a word. -/
def windows : List I64 → List I64
  | l :: h :: ws => joinHalves h l :: windows ws
  | _ => []

/-- Whether the first number is at least the second, their highest words first. -/
def geqWindows : List I64 → List I64 → Bool
  | [a], [b] => !a.ult b
  | a :: as, b :: bs => b.ult a || (a == b && geqWindows as bs)
  | _, _ => true

/-- The remainder and the quotient, after a bit of the dividend. -/
def divideRound (ps ds : List I64) (bit : Nat) (state : List I64 × List I64) :
    List I64 × List I64 :=
  let (rs, qs) := state
  let (rs, carry) := shiftUp 0 rs
  let rs := orLow (ps.getD (bit / 32) 0 >>> (bit % 32) &&& 1) rs
  let qs := (shiftUp 0 qs).1
  if carry != 0 || geqWindows (windows rs).reverse (windows ds).reverse then
    (subtract 0 rs ds, orLow 1 qs)
  else (rs, qs)

def divide (ps ds : List I64) (bits : Nat) : List I64 × List I64 :=
  (List.range bits).reverse.foldl (fun state bit => divideRound ps ds bit state)
    (List.replicate ds.length 0, List.replicate ps.length 0)

/-! ### Shifts -/

theorem shiftUp_spec {c : I64} {ws : List I64} (bit : c.toNat ≤ 1) (valid : Valid ws) :
    (shiftUp c ws).1.length = ws.length ∧ Valid (shiftUp c ws).1 ∧
      (shiftUp c ws).2.toNat ≤ 1 ∧
      value (shiftUp c ws).1 + 2 ^ (32 * ws.length) * (shiftUp c ws).2.toNat =
        2 * value ws + c.toNat := by
  induction ws generalizing c with
  | nil => exact ⟨rfl, .nil, bit, by simp [shiftUp]⟩
  | cons w ws ih =>
      have head := valid.head
      have top : (w >>> 31).toNat = w.toNat / 2 ^ 31 := by
        rw [BitVec.toNat_ushiftRight, Nat.shiftRight_eq_div_pow]
      obtain ⟨length, rest, out, total⟩ := ih (c := w >>> 31) (by rw [top]; omega) valid.tail
      have even : (lowHalf (w <<< 1)).toNat = 2 * (w.toNat % 2 ^ 31) := by
        rw [lowHalf_toNat, BitVec.toNat_shiftLeft, Nat.shiftLeft_eq]
        omega
      have low : (lowHalf (w <<< 1) ||| c).toNat = 2 * (w.toNat % 2 ^ 31) + c.toNat := by
        rw [BitVec.toNat_or, even, Nat.mul_comm, ← Nat.pow_one 2, ← Nat.shiftLeft_eq,
          ← Nat.shiftLeft_add_eq_or_of_lt (by omega)]
      refine ⟨congrArg (· + 1) length, .cons ?_ rest, out, ?_⟩
      · rw [low]
        omega
      · simp only [shiftUp, value_cons, List.length_cons, base_pow]
        rw [top] at total
        rw [low]
        have split : w.toNat = w.toNat % 2 ^ 31 + 2 ^ 31 * (w.toNat / 2 ^ 31) :=
          (Nat.mod_add_div _ _).symm
        linear_combination 2 ^ 32 * total - 2 * split

theorem shiftUp_out (c : I64) {ws : List I64} (room : ws ≠ []) :
    (shiftUp 0 ws).2 = (shiftUp c ws).2 := by
  cases ws with
  | nil => exact (room rfl).elim
  | cons w ws => rfl

theorem orLow_zero (bit : I64) (ws : List I64) :
    orLow bit (shiftUp 0 ws).1 = (shiftUp bit ws).1 := by
  cases ws with
  | nil => rfl
  | cons w ws => simp [shiftUp, orLow]

/-! ### Comparison -/

theorem windows_length {ws : List I64} {n : Nat} (even : ws.length = 2 * n) :
    (windows ws).length = n := by
  induction n generalizing ws with
  | zero =>
      rw [List.eq_nil_of_length_eq_zero even]
      rfl
  | succ n ih =>
      match ws, even with
      | l :: h :: ws, even =>
          have rest : ws.length = 2 * n := by
            simp only [List.length_cons] at even
            omega
          exact congrArg (· + 1) (ih rest)
      | [_], even =>
          simp only [List.length_singleton] at even
          omega

theorem windows_value {ws : List I64} {n : Nat} (even : ws.length = 2 * n) (valid : Valid ws) :
    Foundation.Limbs.value (windows ws) = value ws := by
  induction n generalizing ws with
  | zero =>
      rw [List.eq_nil_of_length_eq_zero even]
      rfl
  | succ n ih =>
      match ws, even with
      | l :: h :: ws, even =>
          have rest : ws.length = 2 * n := by
            simp only [List.length_cons] at even
            omega
          rw [windows, Foundation.Limbs.value_cons, ih rest valid.tail.tail, value_cons, value_cons,
            joinHalves_toNat valid.tail.head valid.head]
          ring
      | [_], even =>
          simp only [List.length_singleton] at even
          omega

theorem geqWindows_eq {as bs : List I64} (same : as.length = bs.length) :
    geqWindows as bs = Foundation.Limbs.geqDown as bs := by
  induction as generalizing bs with
  | nil =>
      cases bs with
      | nil => rfl
      | cons b bs => simp at same
  | cons a as ih =>
      cases bs with
      | nil => simp at same
      | cons b bs =>
          have step : geqWindows (a :: as) (b :: bs) =
              (b.ult a || (a == b && geqWindows as bs)) := by
            cases as with
            | nil =>
                cases bs with
                | nil =>
                    simp only [geqWindows, Bool.and_true, BitVec.ult]
                    rw [Bool.eq_iff_iff]
                    simp
                    rw [← BitVec.toNat_inj]
                    omega
                | cons b' bs => simp at same
            | cons a' as => rfl
          rw [step, ih (Nat.succ.inj same), Foundation.Limbs.geqDown]
          split_ifs with above below
          · have : b.ult a = true := by simpa [BitVec.ult, BitVec.lt_def] using above
            rw [this, Bool.true_or]
          · have notAbove : b.ult a = false := by
              simp [BitVec.ult, BitVec.lt_def] at *
              omega
            have other : (a == b) = false := by
              rw [beq_eq_false_iff_ne]
              rintro rfl
              exact above below
            rw [notAbove, other]
            rfl
          · have equal : a = b := by
              rw [← BitVec.toNat_inj]
              simp [BitVec.lt_def] at *
              omega
            subst equal
            simp [BitVec.ult]

theorem geq_iff {rs ds : List I64} {n : Nat} (left : rs.length = 2 * n) (right : ds.length = 2 * n)
    (validR : Valid rs) (validD : Valid ds) :
    geqWindows (windows rs).reverse (windows ds).reverse = true ↔ value ds ≤ value rs := by
  have same : (windows rs).reverse.length = (windows ds).reverse.length := by
    rw [List.length_reverse, List.length_reverse, windows_length left, windows_length right]
  rw [geqWindows_eq same, Foundation.Limbs.geqDown_iff same, List.reverse_reverse,
    List.reverse_reverse,
    windows_value left validR, windows_value right validD]

/-! ### Differences -/

theorem subtract_step {r d borrow : I64} (limbR : r.toNat < 2 ^ 32) (limbD : d.toNat < 2 ^ 32)
    (bit : borrow.toNat ≤ 1) :
    (lowHalf (r - d - borrow)).toNat + d.toNat + borrow.toNat =
      r.toNat + 2 ^ 32 * (Op.ofBool (r.ult (r - d - borrow))).toNat := by
  have value : (r - d - borrow).toNat =
      (2 ^ 64 - borrow.toNat + (2 ^ 64 - d.toNat + r.toNat) % 2 ^ 64) % 2 ^ 64 := by
    rw [BitVec.toNat_sub, BitVec.toNat_sub]
  rw [lowHalf_toNat]
  have ordered : r.ult (r - d - borrow) = decide (r.toNat < (r - d - borrow).toNat) := rfl
  rw [ordered, value]
  by_cases borrows : r.toNat < d.toNat + borrow.toNat
  · rw [decide_eq_true (by omega), show (Op.ofBool true).toNat = 1 from rfl]
    omega
  · rw [decide_eq_false (by omega), show (Op.ofBool false).toNat = 0 from rfl]
    omega

theorem subtract_spec {borrow : I64} {rs ds : List I64} (same : rs.length = ds.length)
    (validR : Valid rs) (validD : Valid ds) (bit : borrow.toNat ≤ 1) :
    (subtract borrow rs ds).length = rs.length ∧ Valid (subtract borrow rs ds) ∧
      ∃ out, value (subtract borrow rs ds) + value ds + borrow.toNat =
        value rs + 2 ^ (32 * rs.length) * out := by
  induction rs generalizing ds borrow with
  | nil =>
      cases ds with
      | nil => exact ⟨rfl, .nil, borrow.toNat, by simp [subtract]⟩
      | cons d ds => simp at same
  | cons r rs ih =>
      cases ds with
      | nil => simp at same
      | cons d ds =>
          have here := subtract_step validR.head validD.head bit
          have next : (Op.ofBool (r.ult (r - d - borrow))).toNat ≤ 1 := by
            cases r.ult (r - d - borrow) <;> decide
          obtain ⟨length, rest, out, total⟩ := ih (Nat.succ.inj same) validR.tail validD.tail next
          refine ⟨congrArg (· + 1) length, .cons (lowHalf_lt _) rest, out, ?_⟩
          simp only [subtract, value_cons, List.length_cons, base_pow]
          linear_combination here + 2 ^ 32 * total

/-! ### The division -/

theorem bit_toNat {ps : List I64} (valid : Valid ps) (i : Nat) :
    (ps.getD (i / 32) 0 >>> (i % 32) &&& 1).toNat = ((value ps).testBit i).toNat := by
  induction ps generalizing i with
  | nil => simp
  | cons p ps ih =>
      rw [value_cons, Nat.add_comm, Nat.testBit_two_pow_mul_add _ valid.head]
      by_cases low : i < 32
      · rw [if_pos low, Nat.div_eq_of_lt low, Nat.mod_eq_of_lt low]
        exact bit_word p i
      · have onward : 32 ≤ i := Nat.le_of_not_lt low
        rw [if_neg low, ← ih valid.tail, Nat.div_eq_sub_div (by decide) onward,
          Nat.mod_eq_sub_mod onward]
        rfl

/-- The quotient and the remainder of the bits from the `k`th on. -/
structure Divided (ps ds : List I64) (k : Nat) (state : List I64 × List I64) : Prop where
  remainderLength : state.1.length = ds.length
  remainderValid : Valid state.1
  remainder : value state.1 = value ps / 2 ^ k % value ds
  quotientLength : state.2.length = ps.length
  quotientValid : Valid state.2
  quotient : value state.2 = value ps / 2 ^ k / value ds

theorem divideRound_eq {ps ds rs qs : List I64} {k : Nat} (room : rs ≠ []) :
    divideRound ps ds k (rs, qs) =
      let made := shiftUp (ps.getD (k / 32) 0 >>> (k % 32) &&& 1) rs
      if made.2 != 0 || geqWindows (windows made.1).reverse (windows ds).reverse then
        (subtract 0 made.1 ds, (shiftUp 1 qs).1)
      else (made.1, (shiftUp 0 qs).1) := by
  unfold divideRound
  simp only [orLow_zero, shiftUp_out (ps.getD (k / 32) 0 >>> (k % 32) &&& 1) room]

theorem divideRound_divided {ps ds : List I64} {n k : Nat} {state : List I64 × List I64}
    (divided : Divided ps ds (k + 1) state) (dividend : Valid ps) (divisor : Valid ds)
    (even : ds.length = 2 * n) (positive : 0 < value ds) :
    Divided ps ds k (divideRound ps ds k state) := by
  obtain ⟨rs, qs⟩ := state
  obtain ⟨lengthR, validR, remainder, lengthQ, validQ, quotient⟩ := divided
  dsimp only at *
  have room : rs ≠ [] := by
    rintro rfl
    rw [List.eq_nil_of_length_eq_zero lengthR.symm] at positive
    cases positive
  have bit := bit_toNat dividend k
  have oneBit := Bool.toNat_le ((value ps).testBit k)
  obtain ⟨long, made, out, shifted⟩ :=
    shiftUp_spec (c := ps.getD (k / 32) 0 >>> (k % 32) &&& 1) (by omega) validR
  rw [remainder, bit] at shifted
  rw [divideRound_eq room]
  dsimp only
  generalize shiftUp (ps.getD (k / 32) 0 >>> (k % 32) &&& 1) rs = next at *
  have sum : value next.1 + 2 ^ (32 * rs.length) * next.2.toNat =
      LongDivision.shifted (value ps) (value ds) k := shifted
  have below := value_lt divisor
  have bound := value_lt made
  have twice := LongDivision.shifted_lt (n := value ps) k positive
  rw [long] at bound
  rw [← lengthR] at below
  have evenR : next.1.length = 2 * n := long.trans (lengthR.trans even)
  have fits : (next.2 != 0 || geqWindows (windows next.1).reverse (windows ds).reverse) = true ↔
      value ds ≤ LongDivision.shifted (value ps) (value ds) k := by
    rw [Bool.or_eq_true, geq_iff evenR even made divisor, bne_iff_ne, ne_eq, ← BitVec.toNat_inj]
    rcases Nat.le_one_iff_eq_zero_or_eq_one.mp out with none | carried
    · rw [none, Nat.mul_zero, Nat.add_zero] at sum
      rw [none, sum]
      exact or_iff_right fun absurd => absurd rfl
    · rw [carried, Nat.mul_one] at sum
      rw [carried]
      exact iff_of_true (.inl (by decide)) (by omega)
  have top : value ps / 2 ^ k / value ds < 2 ^ (32 * ps.length) :=
    Nat.lt_of_le_of_lt ((Nat.div_le_self _ _).trans (Nat.div_le_self _ _)) (value_lt dividend)
  have quotients := LongDivision.div_step (n := value ps) k positive
  have remainders := LongDivision.mod_step (n := value ps) k positive
  have bitQ (c : I64) (one : c.toNat ≤ 1)
      (digit : value ps / 2 ^ k / value ds = 2 * value qs + c.toNat) :
      (shiftUp c qs).1.length = ps.length ∧ Valid (shiftUp c qs).1 ∧
        value (shiftUp c qs).1 = value ps / 2 ^ k / value ds := by
    obtain ⟨longQ, madeQ, outQ, doubled⟩ := shiftUp_spec one validQ
    refine ⟨longQ.trans lengthQ, madeQ, ?_⟩
    rw [← digit, lengthQ] at doubled
    rcases Nat.le_one_iff_eq_zero_or_eq_one.mp outQ with none | carried
    · rw [none, Nat.mul_zero, Nat.add_zero] at doubled
      exact doubled
    · rw [carried] at doubled
      omega
  by_cases subtracts : value ds ≤ LongDivision.shifted (value ps) (value ds) k
  · rw [if_pos (fits.mpr subtracts)]
    rw [if_pos subtracts] at remainders
    rw [decide_eq_true subtracts] at quotients
    obtain ⟨longQ, madeQ, valueQ⟩ := bitQ 1 (by decide) (quotients.trans (by rw [quotient]; rfl))
    obtain ⟨longS, madeS, borrowed, total⟩ :=
      subtract_spec (long.trans lengthR) made divisor (show (0 : I64).toNat ≤ 1 by decide)
    refine ⟨longS.trans (long.trans lengthR), madeS, ?_, longQ, madeQ, valueQ⟩
    have boundS := value_lt madeS
    rw [longS, long] at boundS
    rw [long] at total
    rw [remainders]
    have balance : value (subtract 0 next.1 ds) + 2 ^ (32 * rs.length) * next.2.toNat =
        LongDivision.shifted (value ps) (value ds) k - value ds +
          2 ^ (32 * rs.length) * borrowed := by
      have zero : (0 : I64).toNat = 0 := rfl
      omega
    have congruent : value (subtract 0 next.1 ds) ≡
        LongDivision.shifted (value ps) (value ds) k - value ds [MOD 2 ^ (32 * rs.length)] := by
      have modded := congrArg (· % 2 ^ (32 * rs.length)) balance
      simp only [Nat.add_mul_mod_self_left] at modded
      exact modded
    exact congruent.eq_of_lt_of_lt boundS (by omega)
  · have refused := Bool.eq_false_iff.mpr (fun holds => subtracts (fits.mp holds))
    rw [refused, if_neg Bool.false_ne_true]
    rw [if_neg subtracts] at remainders
    rw [decide_eq_false subtracts] at quotients
    obtain ⟨longQ, madeQ, valueQ⟩ := bitQ 0 (by decide) (quotients.trans (by rw [quotient]; rfl))
    refine ⟨long.trans lengthR, made, ?_, longQ, madeQ, valueQ⟩
    have none : next.2.toNat = 0 := by
      rcases Nat.le_one_iff_eq_zero_or_eq_one.mp out with none | carried
      · exact none
      · rw [carried] at sum
        omega
    rw [none, Nat.mul_zero, Nat.add_zero] at sum
    exact sum.trans remainders.symm

/-- As many rounds as the dividend has bits. -/
theorem divide_divided {ps ds : List I64} {n : Nat} (dividend : Valid ps) (divisor : Valid ds)
    (even : ds.length = 2 * n) (positive : 0 < value ds) :
    Divided ps ds 0 (divide ps ds (32 * ps.length)) := by
  have bound := value_lt dividend
  have start : Divided ps ds (32 * ps.length)
      (List.replicate ds.length 0, List.replicate ps.length 0) := by
    refine ⟨List.length_replicate, valid_zeros _, ?_, List.length_replicate, valid_zeros _, ?_⟩
    · rw [Nat.div_eq_of_lt bound, Nat.zero_mod]
      exact value_zeros _
    · rw [Nat.div_eq_of_lt bound, Nat.zero_div]
      exact value_zeros _
  rw [divide, List.foldl_reverse]
  generalize (List.replicate ds.length (0 : I64), List.replicate ps.length (0 : I64)) = state at *
  generalize 32 * ps.length = bits at start
  induction bits generalizing state with
  | zero => exact start
  | succ bits ih =>
      rw [List.range_succ, List.foldr_append]
      exact ih _ (divideRound_divided start dividend divisor even positive)

end Halves

end LispRlm.WasmEmit
