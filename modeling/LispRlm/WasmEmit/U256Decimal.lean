import LispRlm.Foundation.LongDivision
import LispRlm.WasmEmit.DecimalLimbs
import LispRlm.WasmEmit.U256Text
import Mathlib.Data.Nat.Digits.Lemmas

/-! The decimal text of `u256` values: chunks of 18 digits, from the right to the left. -/

namespace LispRlm.WasmEmit

open Foundation LinearMemory

namespace U256

/-! ### The division in place -/

theorem and_shift (w : I64) {i : Nat} (small : i < 64) :
    (w &&& (1 : I64) <<< i).toNat = (w.toNat.testBit i).toNat * 2 ^ i := by
  rw [BitVec.toNat_and, one_shift small, Nat.and_two_pow]

/-- A word without the bits of a mask, and those bits. -/
theorem cleared_add (w mask : I64) :
    (w &&& (mask ^^^ -1)).toNat + (w &&& mask).toNat = w.toNat := by
  have flip : mask ^^^ -1 = ~~~mask := BitVec.xor_allOnes
  have apart : w &&& ~~~mask &&& (w &&& mask) = 0#64 := by
    ext j
    simp only [BitVec.getElem_and, BitVec.getElem_not, BitVec.getElem_zero]
    cases mask[j] <;> simp
  have whole : w &&& ~~~mask ||| w &&& mask = w := by
    ext j
    simp only [BitVec.getElem_or, BitVec.getElem_and, BitVec.getElem_not]
    cases mask[j] <;> simp
  rw [flip, ← BitVec.toNat_add_of_and_eq_zero apart, BitVec.add_eq_or_of_and_eq_zero _ _ apart,
    whole]

theorem cleared_or (w mask : I64) :
    (w &&& (mask ^^^ -1) ||| mask).toNat = (w &&& (mask ^^^ -1)).toNat + mask.toNat := by
  have flip : mask ^^^ -1 = ~~~mask := BitVec.xor_allOnes
  have apart : w &&& ~~~mask &&& mask = 0#64 := by
    ext j
    simp only [BitVec.getElem_and, BitVec.getElem_not, BitVec.getElem_zero]
    cases mask[j] <;> simp
  rw [flip, ← BitVec.add_eq_or_of_and_eq_zero _ _ apart, BitVec.toNat_add_of_and_eq_zero apart]

/-- The bits from the `k`th on are the quotient's, the ones below still the dividend's. -/
structure Divides (n k : Nat) (state : List I64 × I64) : Prop where
  length : state.1.length = 4
  value : Foundation.Limbs.value state.1 = n / 2 ^ k / 10 ^ 18 * 2 ^ k + n % 2 ^ k
  remainder : state.2.toNat = n / 2 ^ k % 10 ^ 18

theorem chunkRound_divides {n k : Nat} {state : List I64 × I64} (last : k < 256)
    (divides : Divides n (k + 1) state) : Divides n k (chunkRound k state) := by
  obtain ⟨vs, r⟩ := state
  obtain ⟨length, value, remainder⟩ := divides
  dsimp only at length value remainder
  have sel : k / 64 < vs.length := by omega
  have sh : k % 64 < 64 := Nat.mod_lt k (by decide)
  have power : (2 : Nat) ^ (64 * (k / 64)) * 2 ^ (k % 64) = 2 ^ k := by
    rw [← Nat.pow_add, Nat.div_add_mod]
  have same : (Foundation.Limbs.value vs).testBit k = n.testBit k := by
    rw [value, Nat.mul_comm, Nat.testBit_two_pow_mul_add _ (Nat.mod_lt n (Nat.two_pow_pos (k + 1))),
      if_pos k.lt_succ_self, Nat.testBit_mod_two_pow, decide_eq_true k.lt_succ_self, Bool.true_and]
  have bit : ((vs.getD (k / 64) 0).toNat.testBit (k % 64)) = n.testBit k := by
    rw [← same, Foundation.Limbs.testBit_value (by decide), BitVec.testBit_toNat]
  have next : (vs.getD (k / 64) 0 >>> (k % 64) &&& 1).toNat = (n.testBit k).toNat := by
    rw [bit_word, bit]
  have one := Bool.toNat_le (n.testBit k)
  have bound : n / 2 ^ (k + 1) % 10 ^ 18 < 10 ^ 18 := Nat.mod_lt _ (by decide)
  have twice := LongDivision.shifted_lt (n := n) (d := 10 ^ 18) k (by decide)
  have moved : (r <<< 1 ||| (vs.getD (k / 64) 0 >>> (k % 64) &&& 1)).toNat =
      LongDivision.shifted n (10 ^ 18) k := by
    have shifted : (r <<< 1).toNat = r.toNat <<< 1 := by
      rw [BitVec.toNat_shiftLeft, Nat.shiftLeft_eq]
      omega
    rw [BitVec.toNat_or, shifted, next, ← Nat.shiftLeft_add_eq_or_of_lt (by omega),
      Nat.shiftLeft_eq, remainder, LongDivision.shifted]
    omega
  have quotients := LongDivision.div_step (n := n) (d := 10 ^ 18) k (by decide)
  have remainders := LongDivision.mod_step (n := n) (d := 10 ^ 18) k (by decide)
  have low := LongDivision.mod_pow_succ n k
  have cleared := cleared_add (vs.getD (k / 64) 0) ((1 : I64) <<< (k % 64))
  have set := cleared_or (vs.getD (k / 64) 0) ((1 : I64) <<< (k % 64))
  rw [and_shift _ sh, bit] at cleared
  rw [one_shift sh] at set
  unfold chunkRound
  dsimp only
  generalize r <<< 1 ||| (vs.getD (k / 64) 0 >>> (k % 64) &&& 1) = t at *
  have base : chunkBase.toNat = 10 ^ 18 := rfl
  have word : 2 ^ (64 * (k / 64)) * (vs.getD (k / 64) 0).toNat =
      2 ^ (64 * (k / 64)) * (vs.getD (k / 64) 0 &&& ((1 : I64) <<< (k % 64) ^^^ -1)).toNat +
        (n.testBit k).toNat * 2 ^ k := by
    rw [← cleared, Nat.mul_add, Nat.mul_left_comm, power]
  have before : Foundation.Limbs.value vs =
      2 * (n / 2 ^ (k + 1) / 10 ^ 18 * 2 ^ k) + (n % 2 ^ k + (n.testBit k).toNat * 2 ^ k) := by
    rw [value, low, Nat.pow_succ 2 k]
    ring
  have valueCleared := Foundation.Limbs.value_set sel (vs.getD (k / 64) 0 &&& ((1 : I64) <<< (k % 64) ^^^ -1))
  have here : (vs.set (k / 64) (vs.getD (k / 64) 0 &&& ((1 : I64) <<< (k % 64) ^^^ -1))).getD
      (k / 64) 0 = vs.getD (k / 64) 0 &&& ((1 : I64) <<< (k % 64) ^^^ -1) := by
    rw [List.getD_eq_getElem?_getD, List.getElem?_set_self sel]
    rfl
  have fits : (!t.ult chunkBase) = decide (10 ^ 18 ≤ LongDivision.shifted n (10 ^ 18) k) := by
    rw [U128.ult_eq, base, moved, ← decide_not]
    exact decide_eq_decide.mpr Nat.not_lt
  rw [fits]
  by_cases subtracts : 10 ^ 18 ≤ LongDivision.shifted n (10 ^ 18) k
  · rw [if_pos subtracts] at remainders
    rw [decide_eq_true subtracts, Bool.toNat_true] at quotients
    rw [decide_eq_true subtracts, if_pos rfl, if_pos rfl, here, List.set_set]
    have valueSet := Foundation.Limbs.value_set sel
      (vs.getD (k / 64) 0 &&& ((1 : I64) <<< (k % 64) ^^^ -1) ||| (1 : I64) <<< (k % 64))
    rw [set] at valueSet
    refine ⟨by rw [List.length_set]; exact length, ?_, ?_⟩
    · dsimp only
      rw [Nat.mul_add, power, before, word] at valueSet
      rw [quotients, Nat.add_mul, Nat.one_mul, Nat.mul_assoc]
      omega
    · dsimp only
      rw [BitVec.toNat_sub, base, remainders, moved]
      omega
  · rw [if_neg subtracts] at remainders
    rw [decide_eq_false subtracts, Bool.toNat_false] at quotients
    rw [decide_eq_false subtracts, if_neg Bool.false_ne_true, if_neg Bool.false_ne_true]
    refine ⟨by rw [List.length_set]; exact length, ?_, ?_⟩
    · dsimp only
      rw [before, word] at valueCleared
      rw [quotients, Nat.add_zero, Nat.mul_assoc]
      omega
    · dsimp only
      rw [moved, remainders]

/-- A chunk's division: the quotient takes the place of the number. -/
theorem chunkDivide_spec {vs : List I64} (length : vs.length = 4) :
    (chunkDivide vs).1.length = 4 ∧
      Foundation.Limbs.value (chunkDivide vs).1 = Foundation.Limbs.value vs / 10 ^ 18 ∧
      (chunkDivide vs).2.toNat = Foundation.Limbs.value vs % 10 ^ 18 := by
  have bound := Foundation.Limbs.value_lt vs
  rw [length] at bound
  generalize whole : Foundation.Limbs.value vs = n at *
  have run (k : Nat) (state : List I64 × I64) (few : k ≤ 256) (divides : Divides n k state) :
      Divides n 0 ((List.range k).reverse.foldl (fun state bit => chunkRound bit state) state) := by
    induction k generalizing state with
    | zero => exact divides
    | succ k ih =>
        rw [List.range_succ, List.reverse_append, List.reverse_singleton, List.singleton_append,
          List.foldl_cons]
        exact ih _ (by omega) (chunkRound_divides (by omega) divides)
  have start : Divides n 256 (vs, 0) := by
    have none : n / 2 ^ 256 = 0 := Nat.div_eq_of_lt bound
    refine ⟨length, ?_, by rw [none]; rfl⟩
    rw [none, Nat.zero_div, Nat.zero_mul, Nat.zero_add, Nat.mod_eq_of_lt bound]
    exact whole
  obtain ⟨length', value, remainder⟩ := run 256 (vs, 0) (Nat.le_refl 256) start
  rw [Nat.pow_zero, Nat.div_one, Nat.mul_one, Nat.mod_one, Nat.add_zero] at value
  rw [Nat.pow_zero, Nat.div_one] at remainder
  exact ⟨length', value, remainder⟩

/-! ### The digits in the memory -/

end U256

namespace LinearMemory

def setByte (m : LinearMemory) (a : Nat) (b : BitVec 8) : LinearMemory :=
  { m with bytes := fun i => if i = a then b else m.bytes i }

/-- The memory with the last `k` digits of a number in the bytes before an address. -/
def digits (m : LinearMemory) (a k n : Nat) : LinearMemory :=
  { m with bytes := fun i =>
      if a ≤ i + k ∧ i < a then BitVec.ofNat 8 (48 + n / 10 ^ (a - 1 - i) % 10) else m.bytes i }

variable {m : LinearMemory}

theorem setByte_bytes (a : Nat) (b : BitVec 8) (i : Nat) :
    (m.setByte a b).bytes i = if i = a then b else m.bytes i := rfl

@[simp] theorem setByte_size (a : Nat) (b : BitVec 8) : (m.setByte a b).size = m.size := rfl

theorem digits_bytes (a k n i : Nat) :
    (m.digits a k n).bytes i =
      if a ≤ i + k ∧ i < a then BitVec.ofNat 8 (48 + n / 10 ^ (a - 1 - i) % 10) else m.bytes i :=
  rfl

@[simp] theorem digits_size (a k n : Nat) : (m.digits a k n).size = m.size := rfl

theorem digits_none (a n : Nat) : m.digits a 0 n = m := by
  refine eq_of_bytes (fun i => ?_) rfl
  rw [digits_bytes, if_neg (by omega)]

/-- One digit is a byte. -/
theorem setByte_digit {a : Nat} (room : 0 < a) (n : Nat) :
    m.setByte (a - 1) (BitVec.ofNat 8 (48 + n % 10)) = m.digits a 1 n := by
  refine eq_of_bytes (fun i => ?_) rfl
  rw [setByte_bytes, digits_bytes]
  by_cases here : i = a - 1
  · subst here
    rw [if_pos rfl, if_pos (by omega), Nat.sub_self, Nat.pow_zero, Nat.div_one]
  · rw [if_neg here, if_neg (by omega)]

theorem digits_digits {a j k n : Nat} (within : j ≤ a) :
    (m.digits a j n).digits (a - j) k (n / 10 ^ j) = m.digits a (j + k) n := by
  refine eq_of_bytes (fun i => ?_) rfl
  rw [digits_bytes, digits_bytes, digits_bytes]
  by_cases right : a ≤ i + j ∧ i < a
  · rw [if_neg (by omega), if_pos right, if_pos (by omega)]
  · by_cases left : a - j ≤ i + k ∧ i < a - j
    · have place : a - 1 - i = j + (a - j - 1 - i) := by omega
      rw [if_pos left, if_pos (by omega), Nat.div_div_eq_div_mul, ← Nat.pow_add, place]
    · rw [if_neg left, if_neg right, if_neg (by omega)]

theorem digits_mod (a k n : Nat) : m.digits a k (n % 10 ^ k) = m.digits a k n := by
  refine eq_of_bytes (fun i => ?_) rfl
  rw [digits_bytes, digits_bytes]
  split_ifs with inside
  · obtain ⟨more, split⟩ : ∃ more, k = a - 1 - i + 1 + more := ⟨k - (a - 1 - i) - 1, by omega⟩
    rw [split, Nat.add_assoc, Nat.pow_add, Nat.mod_mul_right_div_self, Nat.pow_add, Nat.pow_one,
      Nat.mod_mul_right_mod]
  · rfl

end LinearMemory

namespace U256

/-- A wrapped address below the memory's end. -/
theorem storeByte_eq {m : LinearMemory} {p w : I64} (inside : p.toNat < m.size)
    (small : m.size ≤ 2 ^ 32) : m.storeByte p w = some (m.setByte p.toNat (w.setWidth 8)) := by
  have address : (p.setWidth 32).toNat = p.toNat := by
    rw [BitVec.toNat_setWidth]
    exact Nat.mod_eq_of_lt (by omega)
  rw [storeByte, address, if_pos inside]
  rfl

theorem before_toNat {p : I64} (room : 0 < p.toNat) : (p - 1).toNat = p.toNat - 1 := by
  rw [BitVec.toNat_sub, show (1 : I64).toNat = 1 from rfl]
  omega

/-- The last digit of a number, into the byte before an address. -/
theorem storeDigit {m : LinearMemory} {p r : I64} (room : 0 < p.toNat)
    (inside : p.toNat ≤ m.size) (small : m.size ≤ 2 ^ 32) :
    m.storeByte (p - 1) (r.umod 10 + 48) = some (m.digits p.toNat 1 r.toNat) := by
  have before := before_toNat room
  have digit : ((r.umod 10 + 48).setWidth 8 : BitVec 8) = BitVec.ofNat 8 (48 + r.toNat % 10) := by
    apply BitVec.eq_of_toNat_eq
    have remainder : (r.umod 10).toNat = r.toNat % 10 := BitVec.toNat_umod
    rw [BitVec.toNat_setWidth, BitVec.toNat_add, remainder, BitVec.toNat_ofNat,
      show (48 : I64).toNat = 48 from rfl]
    omega
  rw [storeByte_eq (by omega) small, before, digit, setByte_digit room]

theorem emitDigits_eq (m : LinearMemory) (pos r : I64) (k : Nat) (room : k ≤ pos.toNat)
    (inside : pos.toNat ≤ m.size) (small : m.size ≤ 2 ^ 32) :
    ∃ pos', emitDigits k m pos r = some (m.digits pos.toNat k r.toNat, pos') ∧
      pos'.toNat = pos.toNat - k := by
  induction k generalizing m pos r with
  | zero => exact ⟨pos, by rw [emitDigits, digits_none], rfl⟩
  | succ k ih =>
      have before := before_toNat (p := pos) (by omega)
      have quotient : (r.udiv 10).toNat = r.toNat / 10 ^ 1 := BitVec.toNat_udiv
      obtain ⟨pos', rest, position⟩ := ih (m.digits pos.toNat 1 r.toNat) (pos - 1)
        (r.udiv 10) (by omega) (by rw [digits_size]; omega) small
      refine ⟨pos', ?_, by omega⟩
      rw [emitDigits, storeDigit (by omega) inside small, Option.bind_eq_bind, Option.bind_some, rest,
        before, quotient,
        digits_digits (by omega), Nat.add_comm]

/-! ### The chunks -/

/-- How many digits a number has. -/
def count (n : Nat) : Nat := (Nat.digits 10 n).length

theorem count_le_iff (n k : Nat) : count n ≤ k ↔ n < 10 ^ k :=
    Nat.digits_length_le_iff (by decide) n

theorem count_pos {n : Nat} (positive : n ≠ 0) : 1 ≤ count n := by
  by_contra none
  have zero := (count_le_iff n 0).mp (by omega)
  rw [Nat.pow_zero] at zero
  omega

theorem count_step {n : Nat} (positive : n ≠ 0) : count n = count (n / 10) + 1 := by
  unfold count
  rw [Nat.digits_def' (by decide) (Nat.pos_of_ne_zero positive), List.length_cons]

theorem count_chunk {n : Nat} (more : n / 10 ^ 18 ≠ 0) : count n = count (n / 10 ^ 18) + 18 := by
  have shift (k : Nat) : count n ≤ k + 18 ↔ count (n / 10 ^ 18) ≤ k := by
    rw [count_le_iff, count_le_iff, Nat.pow_add, Nat.div_lt_iff_lt_mul (by decide)]
  have long : 18 < count n := by
    by_contra short
    have small := (count_le_iff n 18).mp (by omega)
    exact more (Nat.div_eq_of_lt small)
  have below := (shift (count n - 18)).mp (by omega)
  have above := (shift (count (n / 10 ^ 18))).mpr (Nat.le_refl _)
  omega

/-- How many chunks of 18 digits. -/
def chunks (n : Nat) : Nat := (count n + 17) / 18

theorem trim_eq (m : LinearMemory) (last pos : I64) (v k fuel : Nat) (small : m.size ≤ 2 ^ 32)
    (inside : last.toNat < m.size) (positive : v ≠ 0) (enough : k ≤ fuel) (one : 1 ≤ k)
    (room : k ≤ last.toNat + 1) (digits : count v ≤ k) (place : pos.toNat = last.toNat + 1 - k)
    (written : ∀ j, j < k → m.bytes (last.toNat - j) = BitVec.ofNat 8 (48 + v / 10 ^ j % 10)) :
    ∃ pos', trim m last fuel pos = some pos' ∧ pos'.toNat = last.toNat + 1 - count v := by
  have some_digit := count_pos positive
  induction fuel generalizing pos k with
  | zero => omega
  | succ fuel ih =>
      rw [trim, U128.ult_eq]
      by_cases final : k = 1
      · have stop : ¬pos.toNat < last.toNat := by omega
        rw [decide_eq_false stop, Bool.not_false, if_pos rfl]
        exact ⟨pos, rfl, by omega⟩
      · have onward : pos.toNat < last.toNat := by omega
        have address : (pos.setWidth 32).toNat = pos.toNat := by
          rw [BitVec.toNat_setWidth]
          exact Nat.mod_eq_of_lt (by omega)
        have index : last.toNat - (k - 1) = pos.toNat := by omega
        have byte := written (k - 1) (by omega)
        rw [index] at byte
        have loaded : m.loadByte pos = some (BitVec.ofNat 8 (48 + v / 10 ^ (k - 1) % 10)) := by
          rw [loadByte, address, if_pos (by omega), byte]
        have zero : (BitVec.ofNat 8 (48 + v / 10 ^ (k - 1) % 10)).setWidth 64 ≠ (48 : I64) ↔
            v / 10 ^ (k - 1) % 10 ≠ 0 := by
          rw [ne_eq, ← BitVec.toNat_inj, BitVec.toNat_setWidth, BitVec.toNat_ofNat,
            show (48 : I64).toNat = 48 from rfl]
          omega
        rw [decide_eq_true onward, Bool.not_true, if_neg Bool.false_ne_true, loaded,
          Option.bind_eq_bind, Option.bind_some]
        by_cases long : count v = k
        · -- the first digit is not zero
          have top : v / 10 ^ (k - 1) < 10 := by
            have bound := (count_le_iff v k).mp digits
            rw [Nat.div_lt_iff_lt_mul (Nat.pow_pos (by decide)), Nat.mul_comm, ← Nat.pow_succ]
            rwa [Nat.succ_eq_add_one, Nat.sub_add_cancel one]
          have first : v / 10 ^ (k - 1) ≠ 0 := by
            intro none
            have less := (Nat.div_eq_zero_iff_lt (Nat.pow_pos (by decide))).mp none
            have short := (count_le_iff v (k - 1)).mpr less
            omega
          rw [if_pos (zero.mpr (by rw [Nat.mod_eq_of_lt top]; exact first))]
          exact ⟨pos, rfl, by omega⟩
        · have less := (count_le_iff v (k - 1)).mp (by omega)
          have next : (pos + 1).toNat = last.toNat + 1 - (k - 1) := by
            rw [BitVec.toNat_add, show (1 : I64).toNat = 1 from rfl]
            omega
          rw [if_neg (mt zero.mp (not_not.mpr (by rw [Nat.div_eq_of_lt less])))]
          exact ih (pos + 1) (k - 1) (by omega) (by omega) (by omega) (by omega) next
            fun j below => written j (by omega)

theorem emitChunks_eq (m : LinearMemory) (vs : List I64) (pos : I64) {v : Nat} (fuel : Nat)
    (length : vs.length = 4) (value : Foundation.Limbs.value vs = v) (positive : v ≠ 0)
    (enough : chunks v < fuel) (room : 18 * chunks v ≤ pos.toNat) (inside : pos.toNat ≤ m.size)
    (small : m.size ≤ 2 ^ 32) :
    ∃ pos', emitChunks fuel m vs pos = some (m.digits pos.toNat (18 * chunks v) v, pos') ∧
      pos'.toNat = pos.toNat - count v := by
  induction fuel generalizing m vs pos v with
  | zero => omega
  | succ fuel ih =>
      have left : vs.foldl (· ||| ·) 0 ≠ 0 := by
        rw [ne_eq, words_zero, value]
        exact positive
      obtain ⟨length', value', remainder⟩ := chunkDivide_spec length
      have some_digit := count_pos positive
      rw [value] at value' remainder
      rw [emitChunks, if_neg left]
      generalize chunkDivide vs = divided at *
      obtain ⟨vs', r⟩ := divided
      dsimp only at length' value' remainder ⊢
      obtain ⟨pos', emitted, position⟩ := emitDigits_eq m pos r 18
        (by unfold chunks at room; omega) inside small
      rw [remainder, digits_mod] at emitted
      rw [emitted, Option.bind_eq_bind, Option.bind_some]
      dsimp only
      by_cases final : v / 10 ^ 18 = 0
      · have few : count v ≤ 18 := by
          rw [count_le_iff]
          exact (Nat.div_eq_zero_iff_lt (by decide)).mp final
        have single : chunks v = 1 := by
          unfold chunks
          omega
        have done : vs'.foldl (· ||| ·) 0 = 0 := words_zero.mpr (value'.trans final)
        have last : (pos - 1).toNat = pos.toNat - 1 := by
          rw [BitVec.toNat_sub, show (1 : I64).toNat = 1 from rfl]
          omega
        obtain ⟨pos'', trimmed, position'⟩ := trim_eq (m.digits pos.toNat 18 v)
          (pos - 1) pos' v 18 18 small
          (by rw [digits_size, last]; omega) positive (by decide) (by decide) (by omega) few
          (by omega) (fun j below => by
            have index : pos.toNat - 1 - (pos.toNat - 1 - j) = j := by omega
            rw [digits_bytes, last, if_pos (by omega), index])
        obtain ⟨fuel, rfl⟩ : ∃ more, fuel = more + 1 := ⟨fuel - 1, by omega⟩
        rw [if_pos done, trimmed, Option.bind_eq_bind, Option.bind_some, emitChunks, if_pos done,
          single]
        exact ⟨pos'', rfl, by omega⟩
      · have longer := count_chunk final
        have chunked : chunks v = chunks (v / 10 ^ 18) + 1 := by
          unfold chunks
          omega
        have more : vs'.foldl (· ||| ·) 0 ≠ 0 := by
          rw [ne_eq, words_zero, value']
          exact final
        obtain ⟨pos'', rest, position'⟩ := ih (m.digits pos.toNat 18 v) vs' pos' length'
          value' final (by omega) (by omega) (by rw [digits_size]; omega) small
        rw [if_neg more, Option.bind_eq_bind, Option.bind_some, rest, position,
          digits_digits (by omega), chunked,
          Nat.mul_succ, Nat.add_comm]
        exact ⟨pos'', rfl, by omega⟩

/-! ### The string -/

open NearMock (decimal digitByte)

theorem decimal_length {n : Nat} (positive : n ≠ 0) : (decimal n).length = count n := by
  obtain ⟨k, rfl⟩ := Nat.exists_eq_succ_of_ne_zero positive
  rw [decimal, List.length_map, List.length_reverse]
  rfl

/-- The digits of the canonical text, by their places. -/
theorem decimal_bytes (n : Nat) :
    (decimal n).map UInt8.toBitVec =
      (List.range (decimal n).length).map fun i =>
        BitVec.ofNat 8 (48 + n / 10 ^ ((decimal n).length - 1 - i) % 10) := by
  cases n with
  | zero => rfl
  | succ k =>
      have length := decimal_length (Nat.succ_ne_zero k)
      apply List.ext_getElem
      · rw [List.length_map, List.length_map, List.length_range]
      · intro i before after
        rw [List.length_map] at before
        have place : i < (Nat.digits 10 (k + 1)).length := Nat.lt_of_lt_of_eq before length
        have digit := Nat.getD_digits (k + 1) ((Nat.digits 10 (k + 1)).length - 1 - i)
          (show 2 ≤ 10 by decide)
        rw [List.getD_eq_getElem _ _ (by omega)] at digit
        rw [List.getElem_map, List.getElem_map, List.getElem_range]
        simp only [decimal, List.getElem_map, List.getElem_reverse, List.length_map,
          List.length_reverse, digit]
        rfl

theorem string_word {p l : I64} (address : p.toNat < 2 ^ 32) (short : l.toNat < 2 ^ 29) :
    strPtr ((p ||| l <<< 32) <<< 3 ||| 5) = p ∧ strLen ((p ||| l <<< 32) <<< 3 ||| 5) = l ∧
      ((p ||| l <<< 32) <<< 3 ||| 5) &&& 7 = 5 := by
  have above : (l <<< 32).toNat = l.toNat <<< 32 := by
    rw [BitVec.toNat_shiftLeft]
    exact Nat.mod_eq_of_lt (by rw [Nat.shiftLeft_eq]; omega)
  have payload : (p ||| l <<< 32).toNat = l.toNat * 2 ^ 32 + p.toNat := by
    rw [BitVec.toNat_or, above, Nat.or_comm, ← Nat.shiftLeft_add_eq_or_of_lt address,
      Nat.shiftLeft_eq]
  have moved : ((p ||| l <<< 32) <<< 3).toNat = (l.toNat * 2 ^ 32 + p.toNat) <<< 3 := by
    rw [BitVec.toNat_shiftLeft, payload]
    exact Nat.mod_eq_of_lt (by rw [Nat.shiftLeft_eq]; omega)
  have word : ((p ||| l <<< 32) <<< 3 ||| 5).toNat = (l.toNat * 2 ^ 32 + p.toNat) * 8 + 5 := by
    rw [BitVec.toNat_or, moved, show (5 : I64).toNat = 5 from rfl,
      ← Nat.shiftLeft_add_eq_or_of_lt (by decide), Nat.shiftLeft_eq]
  generalize (p ||| l <<< 32) <<< 3 ||| 5 = w at *
  have low : (w &&& 7).toNat = w.toNat % 8 := by
    rw [BitVec.toNat_and]
    exact Nat.and_two_pow_sub_one_eq_mod w.toNat 3
  have ptr : (w >>> 3 &&& 0xFFFFFFFF).toNat = w.toNat / 8 % 2 ^ 32 := by
    rw [BitVec.toNat_and, BitVec.toNat_ushiftRight, Nat.shiftRight_eq_div_pow]
    exact Nat.and_two_pow_sub_one_eq_mod _ 32
  have len : (w >>> 3 >>> 32).toNat = w.toNat / 8 / 2 ^ 32 := by
    rw [BitVec.toNat_ushiftRight, BitVec.toNat_ushiftRight, Nat.shiftRight_eq_div_pow,
      Nat.shiftRight_eq_div_pow]
  refine ⟨BitVec.eq_of_toNat_eq ?_, BitVec.eq_of_toNat_eq ?_, BitVec.eq_of_toNat_eq ?_⟩
  · rw [strPtr, ptr, word]
    omega
  · rw [strLen, len, word]
    omega
  · rw [low, word, show (5 : I64).toNat = 5 from rfl]
    omega

/-- The renderer's block fits below the limit, and lies above the cells of the emitted code. -/
structure Heap (m : LinearMemory) (limit : I64) : Prop where
  above : 74 ≤ m.number 56 8
  room : m.number 56 8 + 80 < limit.toNat
  within : limit.toNat ≤ m.size
  small : m.size ≤ 2 ^ 32

/-- How many bytes the renderer writes. -/
def width (n : Nat) : Nat := if n = 0 then 1 else 18 * chunks n

theorem decimal_le_width (n : Nat) : (decimal n).length ≤ width n := by
  unfold width chunks
  split_ifs with zero
  · rw [zero]
    exact Nat.le_refl 1
  · rw [decimal_length zero]
    omega

theorem width_le {n : Nat} (small : n < 2 ^ 256) : width n ≤ 90 := by
  have digits := (count_le_iff n 78).mpr (small.trans (by decide))
  unfold width chunks
  split_ifs
  · decide
  · omega

theorem width_le_block_iff {n : Nat} : width n ≤ 80 ↔ n < 10 ^ 72 := by
  rw [← count_le_iff]
  unfold width chunks
  split_ifs with zero
  · rw [zero]
    decide
  · omega

variable {m : LinearMemory} {limit addr : I64}

theorem hToStr_eq (heap : Heap m limit) (placed : Placed m addr 32) :
    ∃ s, hToStr limit m addr = some (s, (m.put 56 8 (m.number 56 8 + 80)).digits
        (m.number 56 8 + 80) (width (m.number addr.toNat 32)) (m.number addr.toNat 32)) ∧
      (strPtr s).toNat = m.number 56 8 + 80 - (decimal (m.number addr.toNat 32)).length ∧
      (strLen s).toNat = (decimal (m.number addr.toNat 32)).length ∧ s &&& 7 = 5 := by
  obtain ⟨above, room, within, small⟩ := heap
  obtain ⟨vs, loaded, length, value⟩ := placed.loadWords (show 0 + 8 * 4 ≤ 32 by decide)
  obtain ⟨dst, pointer, address⟩ := loadI64_number (m := m) (p := 56) (by omega)
  have bound := number_lt (m := m) addr.toNat 32
  have written := width_le (n := m.number addr.toNat 32) (by
    rw [show (256 : Nat) ^ 32 = 2 ^ 256 by decide] at bound
    exact bound)
  rw [Nat.add_zero] at value
  change Foundation.Limbs.value vs = m.number addr.toNat 32 at value
  rw [← address] at above room ⊢
  generalize m.number addr.toNat 32 = n at *
  have top : (dst + 80).toNat = dst.toNat + 80 := by
    rw [BitVec.toNat_add, show (80 : I64).toNat = 80 from rfl]
    omega
  have fits : (!(dst + 80).ult limit) = false := by
    rw [U128.ult_eq, top, decide_eq_true room]
    rfl
  have stored := storeI64_put (m := m) (p := 56) (by omega) (dst + 80)
  rw [top] at stored
  unfold hToStr
  simp only [loaded, pointer, Option.bind_eq_bind, Option.bind_some, fits,
    if_neg Bool.false_ne_true,
    stored]
  by_cases zero : n = 0
  · have before := before_toNat (p := dst + 80) (by omega)
    have byte := storeDigit (m := m.put 56 8 (dst.toNat + 80)) (p := dst + 80) (r := 0)
      (by omega) (by rw [put_size]; omega) small
    rw [top] at byte
    change storeByte _ _ 48 = some (digits _ _ (width 0) 0) at byte
    obtain ⟨ptr, len, tag⟩ := string_word (p := dst + 80 - 1) (l := 1) (by omega) (by decide)
    rw [if_pos (words_zero.mpr (value.trans zero)), byte, Option.bind_some, zero]
    refine ⟨_, rfl, ?_, ?_, tag⟩
    · rw [ptr, before, top]
      rfl
    · rw [len]
      rfl
  · have few : chunks n ≤ 5 := by
      unfold width at written
      rw [if_neg zero] at written
      omega
    obtain ⟨pos, emitted, position⟩ := emitChunks_eq (m.put 56 8 (dst.toNat + 80)) vs
      (dst + 80) 6 length value zero (by omega)
      (by unfold width at written; rw [if_neg zero] at written; omega)
        (by rw [put_size]; omega) small
    have digits := decimal_le_width n
    rw [decimal_length zero] at digits ⊢
    have length : (dst + 80 - pos).toNat = count n := by
      rw [BitVec.toNat_sub, top, position, top]
      omega
    obtain ⟨ptr, len, tag⟩ := string_word (p := pos) (l := dst + 80 - pos) (by omega) (by omega)
    rw [if_neg (mt words_zero.mp (by rw [value]; exact zero)), emitted, Option.bind_some, top,
      width,
      if_neg zero]
    refine ⟨_, rfl, ?_, ?_, tag⟩
    · rw [ptr, position, top]
    · rw [len, length]

/-! ### Reading the text again -/

theorem decimalStep_digit {v d : Nat} (small : d < 10) :
    decimalStep v (digitByte d).toBitVec = some (10 * v + d) := by
  have byte : (digitByte d).toBitVec.toNat = 48 + d := toNat_digitByte small
  rw [decimalStep, byte, if_pos (by omega), Nat.add_sub_cancel_left]

theorem foldlM_decimalStep (n : Nat) :
    ((decimal n).map UInt8.toBitVec).foldlM decimalStep 0 = some n := by
  induction n using Nat.strong_induction_on with
  | h n ih =>
      rcases Nat.lt_or_ge n 10 with small | large
      · rw [decimal_small small, List.map_singleton, List.foldlM_cons, decimalStep_digit small,
          Nat.mul_zero, Nat.zero_add]
        rfl
      · rw [decimal_step large, List.map_append, List.foldlM_append, ih (n / 10) (by omega),
          List.map_singleton, Option.bind_eq_bind, Option.bind_some, List.foldlM_cons,
          decimalStep_digit (Nat.mod_lt n (by decide)), Nat.div_add_mod]
        rfl

theorem parsed_decimal {n : Nat} (small : n < 2 ^ 256) :
    parsed ((decimal n).map UInt8.toBitVec) = some n := by
  rw [parsed, if_neg (by rw [List.map_eq_nil_iff]; exact decimal_ne_nil n), foldlM_decimalStep,
    Option.filter_some, if_pos (decide_eq_true small)]

def isDigit (byte : BitVec 8) : Bool := 48 ≤ byte.toNat && byte.toNat ≤ 57

/-- The number of a text of digits, the first one the highest. -/
def textValue (text : List (BitVec 8)) : Nat :=
  Nat.ofDigits 10 ((text.map fun byte => byte.toNat - 48).reverse)

theorem foldlM_decimalStep_eq (text : List (BitVec 8)) (v : Nat) :
    text.foldlM decimalStep v =
      if text.all isDigit then some (v * 10 ^ text.length + textValue text) else none := by
  induction text generalizing v with
  | nil => simp [textValue]
  | cons byte text ih =>
      have value : textValue (byte :: text) =
          textValue text + 10 ^ text.length * (byte.toNat - 48) := by
        rw [textValue, List.map_cons, List.reverse_cons, Nat.ofDigits_append, List.length_reverse,
          List.length_map, Nat.ofDigits_singleton]
        rfl
      rw [List.foldlM_cons, List.all_cons, decimalStep]
      by_cases digit : 48 ≤ byte.toNat ∧ byte.toNat ≤ 57
      · have ok : isDigit byte = true := by
          rw [isDigit, Bool.and_eq_true, decide_eq_true_iff, decide_eq_true_iff]
          exact digit
        rw [if_pos digit, ok, Bool.true_and, Option.bind_eq_bind, Option.bind_some, ih, value,
          List.length_cons]
        congr 2
        ring
      · have bad : isDigit byte = false := by
          rw [← Bool.not_eq_true, isDigit, Bool.and_eq_true, decide_eq_true_iff, decide_eq_true_iff]
          exact digit
        rw [if_neg digit, bad, Bool.false_and]
        rfl

/-- A text of digits, one at least, for a number below a bound. -/
theorem filtered_isSome (text : List (BitVec 8)) (bound : Nat) :
    (if text = [] then none
      else (text.foldlM decimalStep 0).filter (· < bound)).isSome = true ↔
      text ≠ [] ∧ text.all isDigit = true ∧ textValue text < bound := by
  rw [foldlM_decimalStep_eq, Nat.zero_mul, Nat.zero_add]
  by_cases empty : text = []
  · rw [if_pos empty]
    exact iff_of_false Bool.false_ne_true fun readable => readable.1 empty
  · rw [if_neg empty]
    cases digits : text.all isDigit
    · exact iff_of_false Bool.false_ne_true fun readable => Bool.false_ne_true readable.2.1
    · rw [if_pos rfl, Option.filter_some]
      by_cases small : textValue text < bound
      · rw [if_pos (decide_eq_true small)]
        exact iff_of_true rfl ⟨empty, rfl, small⟩
      · rw [if_neg (by rwa [decide_eq_true_iff])]
        exact iff_of_false Bool.false_ne_true fun readable => small readable.2.2

/-- A string of ASCII digits, one at least, that stand for a number of 256 bits. -/
def Readable (text : List (BitVec 8)) : Prop :=
  text ≠ [] ∧ text.all isDigit = true ∧ textValue text < 2 ^ 256

theorem parsed_isSome (text : List (BitVec 8)) : (parsed text).isSome = true ↔ Readable text :=
  filtered_isSome text (2 ^ 256)

/-! ### The codec -/

/-- What the renderer is to do with the number in a cell. -/
def Renders (m : LinearMemory) (limit addr : I64) : Prop :=
  let n := m.number addr.toNat 32
  let dst := m.number 56 8
  ∃ s m', hToStr limit m addr = some (s, m') ∧ m'.text s = (decimal n).map UInt8.toBitVec ∧
    (∀ i, ¬(dst ≤ i ∧ i < dst + 80) → ¬(56 ≤ i ∧ i < 64) → m'.bytes i = m.bytes i) ∧
    ∀ cell, Placed m' cell 32 → hParse m' s cell = some (m'.put cell.toNat 32 n)

def ReadsExactly : Prop :=
  ∀ (m : LinearMemory) (s cell : I64), m.Holds s → Placed m cell 32 → s &&& 7 = 5 →
    ((hParse m s cell).isSome = true ↔ Readable (m.text s))

theorem readsExactly : ReadsExactly := by
  intro m s cell held placed tagged
  rw [hParse_eq held placed tagged, Option.isSome_map, parsed_isSome]

/-- The last digits that were written are the text. -/
theorem digits_text {m : LinearMemory} {a k n : Nat} (fits : (decimal n).length ≤ k)
    (room : k ≤ a) :
    ((List.range (decimal n).length).map fun i =>
      (m.digits a k n).bytes (a - (decimal n).length + i)) =
        (decimal n).map UInt8.toBitVec := by
  rw [decimal_bytes]
  apply List.map_congr_left
  intro i mem
  have place := List.mem_range.mp mem
  have index : a - 1 - (a - (decimal n).length + i) = (decimal n).length - 1 - i := by omega
  rw [digits_bytes, if_pos (by omega), index]

theorem text_digits {s : I64} {a k n : Nat} (len : (strLen s).toNat = (decimal n).length)
    (ptr : (strPtr s).toNat = a - (decimal n).length) (fits : (decimal n).length ≤ k)
    (room : k ≤ a) : (m.digits a k n).text s = (decimal n).map UInt8.toBitVec := by
  rw [LinearMemory.text, len, ptr]
  exact digits_text fits room

/-- No number of 256 bits has a digit in the 79th place. -/
theorem digit_above {n e : Nat} (small : n < 2 ^ 256) (high : 78 ≤ e) :
    BitVec.ofNat 8 (48 + n / 10 ^ e % 10) = 48 := by
  have power : (10 : Nat) ^ 78 ≤ 10 ^ e := Nat.pow_le_pow_right (by decide) high
  have less : n < 10 ^ e := Nat.lt_of_lt_of_le small (Nat.le_trans (by decide) power)
  rw [Nat.div_eq_of_lt less]
  rfl

theorem width_above {n : Nat} (small : n < 2 ^ 256) (long : ¬n < 10 ^ 72) : width n = 90 := by
  have written := width_le small
  have exceeds := mt width_le_block_iff.mp long
  unfold width at written exceeds ⊢
  split_ifs at written exceeds ⊢
  · omega
  · omega

/-- From 73 digits on, a fifth chunk of 18 digits begins ten bytes before the block, with zeros. -/
theorem renders_iff (heap : Heap m limit) (placed : Placed m addr 32) :
    Renders m limit addr ↔
      m.number addr.toNat 32 < 10 ^ 72 ∨
        ∀ i, m.number 56 8 ≤ i + 10 → i < m.number 56 8 → m.bytes i = 48 := by
  obtain ⟨s, run, ptr, len, tagged⟩ := hToStr_eq heap placed
  obtain ⟨above, room, within, small⟩ := heap
  have bound : m.number addr.toNat 32 < 2 ^ 256 := by
    have below := number_lt (m := m) addr.toNat 32
    rwa [show (256 : Nat) ^ 32 = 2 ^ 256 by decide] at below
  unfold Renders
  dsimp only
  rw [run]
  generalize m.number addr.toNat 32 = n at *
  generalize m.number 56 8 = dst at *
  have written := width_le bound
  have fits := decimal_le_width n
  have text := text_digits (m := m.put 56 8 (dst + 80)) len ptr fits (by omega)
  constructor
  · rintro ⟨s', m', equal, -, frame, -⟩
    obtain ⟨rfl, rfl⟩ : s = s' ∧ _ = m' := by simpa using equal
    refine or_iff_not_imp_left.mpr fun long i left right => ?_
    have wide := width_above bound long
    rw [← frame i (by omega) (by omega), digits_bytes, wide, if_pos (by omega)]
    exact digit_above bound (by omega)
  · intro condition
    refine ⟨s, _, rfl, text, fun i outside apart => ?_, fun cell placed => ?_⟩
    · have before : (m.put 56 8 (dst + 80)).bytes i = m.bytes i := by
        rw [put_bytes, if_neg (by omega)]
      rw [digits_bytes, before]
      split_ifs with inside
      · have long : ¬n < 10 ^ 72 := by
          rw [← width_le_block_iff]
          omega
        rw [digit_above bound (by omega)]
        exact ((condition.resolve_left long) i (by omega) (by omega)).symm
      · rfl
    · have held : ((m.put 56 8 (dst + 80)).digits (dst + 80) (width n) n).Holds s :=
        ⟨by rw [ptr, len, digits_size, put_size]; omega, small⟩
      rw [hParse_eq held placed tagged, text, parsed_decimal bound]
      rfl

/-- Every number is rendered as its canonical text, which reads as the number again, and texts of
other kinds are refused. The block is kept up to 72 digits, or where zeros stand before it. -/
theorem codec_exact_iff (m : LinearMemory) (limit addr : I64) (heap : Heap m limit)
    (placed : Placed m addr 32) :
    Renders m limit addr ∧ ReadsExactly ↔
      m.number addr.toNat 32 < 10 ^ 72 ∨
        ∀ i, m.number 56 8 ≤ i + 10 → i < m.number 56 8 → m.bytes i = 48 := by
  rw [renders_iff heap placed]
  exact and_iff_left readsExactly

/-- A page with the heap at 4096 and a number at 128. -/
def page (n : Nat) : LinearMemory :=
  ((⟨fun _ => 0, 65536⟩ : LinearMemory).put 56 8 4096).put 128 32 n

theorem page_number {n : Nat} (small : n < 2 ^ 256) : (page n).number (128 : I64).toNat 32 = n := by
  rw [page, show (128 : I64).toNat = 128 from rfl, number_put]
  exact Nat.mod_eq_of_lt (Nat.lt_of_lt_of_le small (by decide))

theorem page_heap (n : Nat) : (page n).number 56 8 = 4096 := by
  rw [page, number_put_apart (.inl (by decide)), number_put]
  rfl

theorem page_room (n : Nat) : Heap (page n) 65536 :=
  ⟨by rw [page_heap]; decide, by rw [page_heap]; decide, Nat.le_refl 65536,
    show 65536 ≤ 2 ^ 32 by decide⟩

theorem codec_exact_iff_largest72 : Renders (page (10 ^ 72 - 1)) 65536 128 ∧ ReadsExactly :=
  (codec_exact_iff (page (10 ^ 72 - 1)) 65536 128 (page_room _) ⟨by decide, by decide⟩).mpr
    (.inl (by rw [page_number (by decide)]; decide))

/-- `10 ^ 72` has 73 digits. -/
theorem renders_above : ¬(Renders (page (10 ^ 72)) 65536 128 ∧ ReadsExactly) := by
  rintro ⟨renders, -⟩
  rcases (renders_iff (page_room _) ⟨by decide, by decide⟩).mp renders with small | zeros
  · rw [page_number (by decide)] at small
    exact absurd small (by decide)
  · rw [page_heap] at zeros
    have byte := zeros 4086 (by decide) (by decide)
    rw [page, put_bytes, if_neg (by decide), put_bytes, if_neg (by decide)] at byte
    exact absurd byte (by decide)

end U256

end LispRlm.WasmEmit
