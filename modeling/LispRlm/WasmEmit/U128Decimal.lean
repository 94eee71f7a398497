import LispRlm.WasmEmit.U256Decimal

/-! Decimal text into the cells of `u128` values, and back: the leading chunk of digits is written
bare, the chunks after it with 18 digits each. -/

namespace LispRlm.WasmEmit

open Foundation LinearMemory

namespace U128

/-! ### `h_parse` -/

def hParse (m : LinearMemory) (s dst : I64) : Option LinearMemory :=
  if s &&& 7 ≠ 5 then none
  else if strLen s = 0 then none
  else do
    let limbs ← (List.range (strLen s).toNat).foldlM (fun limbs i => do
      let byte ← m.loadByte (strPtr s + BitVec.ofNat 64 i)
      U256.parseDigit limbs byte) (List.replicate 4 0)
    storeWords dst m 0 (Halves.windows limbs)

/-- The number that a text of one digit and more stands for, below `2 ^ 128`. -/
def parsed (text : List (BitVec 8)) : Option Nat :=
  if text = [] then none else (text.foldlM U256.decimalStep 0).filter (· < 2 ^ 128)

theorem hParse_eq {m : LinearMemory} {s dst : I64} (held : m.Holds s) (placed : Placed m dst 16)
    (tagged : s &&& 7 = 5) :
    hParse m s dst = (parsed (m.text s)).map (m.put dst.toNat 16) := by
  rw [hParse, if_neg (not_not.mpr tagged), parsed]
  by_cases empty : strLen s = 0
  · rw [if_pos empty, if_pos ((U256.text_eq_nil m s).mpr empty)]
    rfl
  · have run := U256.foldlM_parseDigit (n := 4) (m.text s) (Halves.valid_zeros 4) rfl
    rw [Halves.value_zeros, show 32 * 4 = 128 from rfl] at run
    rw [if_neg empty, if_neg (mt (U256.text_eq_nil m s).mp empty), U256.foldlM_bytes held]
    cases read : ((m.text s).foldlM U256.decimalStep 0).filter (· < 2 ^ 128) with
    | none =>
        rw [read] at run
        dsimp only at run
        rw [run]
        rfl
    | some v =>
        rw [read] at run
        obtain ⟨limbs, made, valid, length, rfl⟩ := run
        rw [made, Option.bind_eq_bind, Option.bind_some, storeHalves placed length valid]
        rfl

/-! ### `h_to_str` -/

/-- A bit of the division of `lo` and `hi`. -/
def toStrRound (lo hi : I64) (bit : Nat) (state : I64 × I64 × I64) : I64 × I64 × I64 :=
  let (qlo, qhi, rem) := state
  let next := if bit < 64 then lo >>> bit &&& 1 else hi >>> (bit - 64) &&& 1
  let rem := rem <<< 1 ||| next
  if !rem.ult U256.chunkBase then
    if bit < 64 then (qlo ||| (1 : I64) <<< bit, qhi, rem - U256.chunkBase)
    else (qlo, qhi ||| (1 : I64) <<< (bit - 64), rem - U256.chunkBase)
  else (qlo, qhi, rem)

def toStrDivide (lo hi : I64) : I64 × I64 × I64 :=
  (List.range 128).reverse.foldl (fun state bit => toStrRound lo hi bit state) (0, 0, 0)

/-- The digits of a chunk from the right to the left, one at least, and how many. -/
def bareDigits : Nat → LinearMemory → I64 → I64 → Nat → Option (LinearMemory × I64 × Nat)
  | 0, _, _, _, _ => none
  | fuel + 1, m, pos, chunk, ndig => do
      let pos := pos - 1
      let m ← m.storeByte pos (chunk.umod 10 + 48)
      let chunk := chunk.sdiv 10
      if chunk ≠ 0 then bareDigits fuel m pos chunk (ndig + 1) else some (m, pos, ndig + 1)

/-- Zeros, up to 18 digits. -/
def padDigits : Nat → LinearMemory → I64 → Nat → Option (LinearMemory × I64)
  | 0, _, _, _ => none
  | fuel + 1, m, pos, ndig =>
      if 18 ≤ ndig then some (m, pos)
      else do
        let pos := pos - 1
        let m ← m.storeByte pos 48
        padDigits fuel m pos (ndig + 1)

/-- The chunks, from the last one on, while something is left. -/
def toStrChunks : Nat → LinearMemory → I64 → I64 → I64 → Option (LinearMemory × I64)
  | 0, _, _, _, _ => none
  | fuel + 1, m, lo, hi, pos =>
      if lo ||| hi = 0 then some (m, pos)
      else do
        let (qlo, qhi, chunk) := toStrDivide lo hi
        let (m, pos, ndig) ← bareDigits 18 m pos chunk 0
        let (m, pos) ← if qlo ||| qhi = 0 then some (m, pos) else padDigits 19 m pos ndig
        toStrChunks fuel m qlo qhi pos

def hToStr (limit : I64) (m : LinearMemory) (addr : I64) : Option (I64 × LinearMemory) := do
  let lo ← m.loadWord addr 0
  let hi ← m.loadWord addr 8
  let dst ← m.loadI64 56
  let top := dst + 48
  if !top.ult limit then none
  else do
    let m ← m.storeI64 56 top
    let pos := dst + 48
    if lo ||| hi = 0 then do
      let pos := pos - 1
      let m ← m.storeByte pos 48
      some ((pos ||| (1 : I64) <<< 32) <<< 3 ||| 5, m)
    else do
      let (m, pos) ← toStrChunks 4 m lo hi pos
      some (((dst + 48 - pos) <<< 32 ||| pos) <<< 3 ||| 5, m)

/-! ### The division -/

theorem toStrRound_divides {lo hi qlo qhi rem : I64} {k : Nat} (last : k < 128)
    (remainder : rem.toNat = pair lo hi / 2 ^ (k + 1) % 10 ^ 18)
    (quotient : pair qlo qhi = pair lo hi / 2 ^ (k + 1) / 10 ^ 18 * 2 ^ (k + 1)) :
    (toStrRound lo hi k (qlo, qhi, rem)).2.2.toNat = pair lo hi / 2 ^ k % 10 ^ 18 ∧
      pair (toStrRound lo hi k (qlo, qhi, rem)).1 (toStrRound lo hi k (qlo, qhi, rem)).2.1 =
        pair lo hi / 2 ^ k / 10 ^ 18 * 2 ^ k := by
  have bit : (if k < 64 then lo >>> k &&& 1 else hi >>> (k - 64) &&& 1 : I64).toNat =
      ((pair lo hi).testBit k).toNat := by
    rw [testBit_pair]
    split_ifs with low
    · exact bit_word lo k
    · exact bit_word hi (k - 64)
  have one := Bool.toNat_le ((pair lo hi).testBit k)
  have bound : pair lo hi / 2 ^ (k + 1) % 10 ^ 18 < 10 ^ 18 := Nat.mod_lt _ (by decide)
  have twice := LongDivision.shifted_lt (n := pair lo hi) (d := 10 ^ 18) k (by decide)
  have quotients := LongDivision.div_step (n := pair lo hi) (d := 10 ^ 18) k (by decide)
  have remainders := LongDivision.mod_step (n := pair lo hi) (d := 10 ^ 18) k (by decide)
  have base : U256.chunkBase.toNat = 10 ^ 18 := rfl
  have moved : (rem <<< 1 ||| (if k < 64 then lo >>> k &&& 1 else hi >>> (k - 64) &&& 1)).toNat =
      LongDivision.shifted (pair lo hi) (10 ^ 18) k := by
    have shifted : (rem <<< 1).toNat = rem.toNat <<< 1 := by
      rw [BitVec.toNat_shiftLeft, Nat.shiftLeft_eq]
      omega
    rw [BitVec.toNat_or, shifted, bit, ← Nat.shiftLeft_add_eq_or_of_lt (by omega),
      Nat.shiftLeft_eq, remainder, LongDivision.shifted]
    omega
  unfold toStrRound
  dsimp only
  generalize rem <<< 1 ||| (if k < 64 then lo >>> k &&& 1 else hi >>> (k - 64) &&& 1) = t at *
  have fits : (!t.ult U256.chunkBase) =
      decide (10 ^ 18 ≤ LongDivision.shifted (pair lo hi) (10 ^ 18) k) := by
    rw [ult_eq, base, moved, ← decide_not]
    exact decide_eq_decide.mpr Nat.not_lt
  rw [fits]
  by_cases subtracts : 10 ^ 18 ≤ LongDivision.shifted (pair lo hi) (10 ^ 18) k
  · rw [if_pos subtracts] at remainders
    rw [decide_eq_true subtracts, Bool.toNat_true] at quotients
    rw [decide_eq_true subtracts, if_pos rfl]
    have set := pair_set last quotient
    rw [← quotients] at set
    have rest : (t - U256.chunkBase).toNat = pair lo hi / 2 ^ k % 10 ^ 18 := by
      rw [BitVec.toNat_sub, base, remainders, moved]
      omega
    split_ifs at set ⊢ with low
    · exact ⟨rest, set⟩
    · exact ⟨rest, set⟩
  · rw [if_neg subtracts] at remainders
    rw [decide_eq_false subtracts, Bool.toNat_false] at quotients
    rw [decide_eq_false subtracts, if_neg Bool.false_ne_true]
    refine ⟨moved.trans remainders.symm, ?_⟩
    rw [quotient, quotients, Nat.pow_succ]
    ring

theorem toStrDivide_spec (lo hi : I64) :
    pair (toStrDivide lo hi).1 (toStrDivide lo hi).2.1 = pair lo hi / 10 ^ 18 ∧
      (toStrDivide lo hi).2.2.toNat = pair lo hi % 10 ^ 18 := by
  have run (k : Nat) (state : I64 × I64 × I64) (few : k ≤ 128)
      (remainder : state.2.2.toNat = pair lo hi / 2 ^ k % 10 ^ 18)
      (quotient : pair state.1 state.2.1 = pair lo hi / 2 ^ k / 10 ^ 18 * 2 ^ k) :
      pair ((List.range k).reverse.foldl (fun state bit => toStrRound lo hi bit state) state).1
          ((List.range k).reverse.foldl (fun state bit => toStrRound lo hi bit state) state).2.1 =
          pair lo hi / 10 ^ 18 ∧
        ((List.range k).reverse.foldl (fun state bit => toStrRound lo hi bit state)
          state).2.2.toNat = pair lo hi % 10 ^ 18 := by
    induction k generalizing state with
    | zero =>
        rw [Nat.pow_zero, Nat.div_one] at remainder quotient
        exact ⟨quotient.trans (Nat.mul_one _), remainder⟩
    | succ k ih =>
        obtain ⟨rest, set⟩ := toStrRound_divides (Nat.lt_of_succ_le few) remainder quotient
        rw [List.range_succ, List.reverse_append, List.reverse_singleton, List.singleton_append,
          List.foldl_cons]
        exact ih _ (by omega) rest set
  have none : pair lo hi / 2 ^ 128 = 0 := Nat.div_eq_of_lt (pair_lt lo hi)
  have start := run 128 (0, 0, 0) (Nat.le_refl 128) (by rw [none]; rfl) (by rw [none]; rfl)
  unfold toStrDivide
  exact start

/-! ### The digits -/

/-- How many digits a chunk has when it is written bare. -/
def bare (n : Nat) : Nat := max 1 (U256.count n)

theorem bare_small {n : Nat} (small : n / 10 = 0) : bare n = 1 := by
  have few := (U256.count_le_iff n 1).mpr (by omega)
  unfold bare
  omega

theorem bare_step {n : Nat} (more : n / 10 ≠ 0) : bare n = bare (n / 10) + 1 := by
  have positive := U256.count_pos more
  have digits := U256.count_step (n := n) (by omega)
  unfold bare
  omega

theorem bareDigits_eq (fuel : Nat) (m : LinearMemory) (pos chunk : I64) (ndig : Nat)
    (enough : bare chunk.toNat ≤ fuel) (room : bare chunk.toNat ≤ pos.toNat)
    (inside : pos.toNat ≤ m.size) (small : m.size ≤ 2 ^ 32) (positive : chunk.toNat < 2 ^ 63) :
    ∃ pos', bareDigits fuel m pos chunk ndig =
        some (m.digits pos.toNat (bare chunk.toNat) chunk.toNat, pos', ndig + bare chunk.toNat) ∧
      pos'.toNat = pos.toNat - bare chunk.toNat := by
  induction fuel generalizing m pos chunk ndig with
  | zero => exact absurd (Nat.le_trans (Nat.le_max_left 1 _) enough) (by decide)
  | succ fuel ih =>
      have one : 1 ≤ bare chunk.toNat := Nat.le_max_left 1 _
      have before := U256.before_toNat (p := pos) (by omega)
      have quotient : (chunk.sdiv 10).toNat = chunk.toNat / 10 := by
        have sign : chunk.msb = false := BitVec.msb_eq_false_iff_two_mul_lt.mpr (by omega)
        rw [BitVec.sdiv_eq, sign, show (10 : I64).msb = false from rfl]
        exact BitVec.toNat_udiv
      have zero : chunk.sdiv 10 = 0 ↔ chunk.toNat / 10 = 0 := by
        rw [← BitVec.toNat_inj, quotient]
        rfl
      rw [bareDigits, U256.storeDigit (by omega) inside small, Option.bind_eq_bind, Option.bind_some]
      by_cases last : chunk.toNat / 10 = 0
      · rw [if_neg (not_not.mpr (zero.mpr last)), bare_small last]
        exact ⟨pos - 1, rfl, before⟩
      · have step := bare_step last
        obtain ⟨pos', rest, position⟩ := ih (m.digits pos.toNat 1 chunk.toNat) (pos - 1)
          (chunk.sdiv 10) (ndig + 1) (by rw [quotient]; omega) (by rw [quotient]; omega)
          (by rw [digits_size]; omega) small (by rw [quotient]; omega)
        rw [quotient] at rest position
        refine ⟨pos', ?_, by omega⟩
        have tail : chunk.toNat / 10 = chunk.toNat / 10 ^ 1 := by rw [Nat.pow_one]
        rw [if_pos (mt zero.mp last), rest, before, step, Nat.add_comm (bare _), tail,
          digits_digits (by omega), ← tail, Nat.add_assoc]

/-- Where a number has no digits left, zeros are its digits. -/
theorem padDigits_eq (fuel : Nat) (m : LinearMemory) (pos : I64) (a ndig n : Nat)
    (enough : 18 < fuel + ndig) (few : ndig ≤ 18) (none : n < 10 ^ ndig)
    (place : pos.toNat = a - ndig) (room : 18 ≤ a) (inside : a ≤ m.size)
    (small : m.size ≤ 2 ^ 32) :
    ∃ pos', padDigits fuel (m.digits a ndig n) pos ndig = some (m.digits a 18 n, pos') ∧
      pos'.toNat = a - 18 := by
  induction fuel generalizing pos ndig with
  | zero => omega
  | succ fuel ih =>
      rw [padDigits]
      by_cases done : 18 ≤ ndig
      · obtain rfl : ndig = 18 := by omega
        rw [if_pos (Nat.le_refl 18)]
        exact ⟨pos, rfl, place⟩
      · have before : (pos - 1).toNat = a - (ndig + 1) := by
          rw [BitVec.toNat_sub, show (1 : I64).toNat = 1 from rfl]
          omega
        have stored : (m.digits a ndig n).storeByte (pos - 1) 48 =
            some (m.digits a (ndig + 1) n) := by
          have zero := U256.storeDigit (m := m.digits a ndig n) (p := pos) (r := 0) (by omega)
            (by rw [digits_size]; omega) small
          have left : n / 10 ^ ndig = 0 := Nat.div_eq_of_lt none
          rw [place, show (0 : I64).toNat = n / 10 ^ ndig from left.symm,
            digits_digits (by omega)] at zero
          exact zero
        have less : n < 10 ^ (ndig + 1) :=
          Nat.lt_of_lt_of_le none (Nat.pow_le_pow_right (by decide) (Nat.le_succ ndig))
        rw [if_neg done]
        dsimp only
        rw [stored, Option.bind_eq_bind, Option.bind_some]
        exact ih (pos - 1) (ndig + 1) (by omega) (by omega) less before

theorem words_pair (lo hi : I64) : lo ||| hi = 0 ↔ pair lo hi = 0 := by
  have zeros : lo ||| hi = 0#64 ↔ lo = 0#64 ∧ hi = 0#64 := BitVec.or_eq_zero_iff
  rw [← BitVec.toNat_inj (x := lo), ← BitVec.toNat_inj (x := hi), BitVec.toNat_zero] at zeros
  rw [pair]
  refine zeros.trans ?_
  omega

theorem bare_positive {n : Nat} (positive : n ≠ 0) : bare n = U256.count n :=
  Nat.max_eq_right (U256.count_pos positive)

theorem bare_le {n : Nat} (small : n < 10 ^ 18) : bare n ≤ 18 :=
  Nat.max_le.mpr ⟨by decide, (U256.count_le_iff n 18).mpr small⟩

/-- What is left of a number is written before its last chunk. -/
theorem toStrChunks_eq (fuel : Nat) (m : LinearMemory) (lo hi pos : I64) {n : Nat}
    (value : pair lo hi = n) (enough : U256.chunks n < fuel) (room : U256.count n ≤ pos.toNat)
    (inside : pos.toNat ≤ m.size) (small : m.size ≤ 2 ^ 32) :
    ∃ pos', toStrChunks fuel m lo hi pos =
        some (m.digits pos.toNat (U256.count n) n, pos') ∧
      pos'.toNat = pos.toNat - U256.count n := by
  induction fuel generalizing m lo hi pos n with
  | zero => omega
  | succ fuel ih =>
      rw [toStrChunks]
      by_cases done : n = 0
      · have stop : lo ||| hi = 0 := (words_pair lo hi).mpr (value.trans done)
        rw [if_pos stop, done]
        exact ⟨pos, by rw [show U256.count 0 = 0 from rfl, digits_none], rfl⟩
      · have onward : lo ||| hi ≠ 0 := mt (words_pair lo hi).mp (by rwa [value])
        obtain ⟨quotient, remainder⟩ := toStrDivide_spec lo hi
        rw [value] at quotient remainder
        rw [if_neg onward]
        generalize toStrDivide lo hi = divided at *
        obtain ⟨qlo, qhi, chunk⟩ := divided
        dsimp only at quotient remainder ⊢
        have below : n % 10 ^ 18 < 10 ^ 18 := Nat.mod_lt n (by decide)
        have short := bare_le below
        have width : bare (n % 10 ^ 18) ≤ pos.toNat := by
          by_cases last : n / 10 ^ 18 = 0
          · have few := (Nat.div_eq_zero_iff_lt (by decide)).mp last
            rwa [Nat.mod_eq_of_lt few, bare_positive done]
          · have longer := U256.count_chunk last
            omega
        obtain ⟨pos', written, position⟩ := bareDigits_eq 18 m pos chunk 0
          (by rwa [remainder]) (by rwa [remainder]) inside small (by omega)
        rw [remainder, Nat.zero_add] at written
        rw [remainder] at position
        rw [written, Option.bind_eq_bind, Option.bind_some]
        dsimp only
        by_cases last : n / 10 ^ 18 = 0
        · have few := (Nat.div_eq_zero_iff_lt (by decide)).mp last
          have stop : qlo ||| qhi = 0 := (words_pair qlo qhi).mpr (quotient.trans last)
          rw [Nat.mod_eq_of_lt few, bare_positive done] at position ⊢
          obtain ⟨fuel, rfl⟩ : ∃ more, fuel = more + 1 := ⟨fuel - 1, by
            have one := U256.count_pos done
            unfold U256.chunks at enough
            omega⟩
          rw [if_pos stop, Option.bind_eq_bind, Option.bind_some]
          dsimp only
          rw [toStrChunks, if_pos stop]
          exact ⟨pos', rfl, position⟩
        · have longer := U256.count_chunk last
          have chunked : U256.chunks n = U256.chunks (n / 10 ^ 18) + 1 := by
            unfold U256.chunks
            omega
          have more : qlo ||| qhi ≠ 0 := mt (words_pair qlo qhi).mp (by rwa [quotient])
          have none : n % 10 ^ 18 < 10 ^ bare (n % 10 ^ 18) :=
            (U256.count_le_iff _ _).mp (Nat.le_max_right 1 _)
          obtain ⟨pos'', padded, position'⟩ := padDigits_eq 19 m pos' pos.toNat
            (bare (n % 10 ^ 18)) (n % 10 ^ 18) (by omega) short none position (by omega) inside
            small
          obtain ⟨left', rest, position''⟩ := ih (m.digits pos.toNat 18 n) qlo qhi pos''
            quotient (by omega) (by omega) (by rw [digits_size]; omega) small
          rw [if_neg more, padded, digits_mod, Option.bind_eq_bind, Option.bind_some]
          dsimp only
          rw [rest, position', digits_digits (by omega), longer, Nat.add_comm 18]
          exact ⟨left', rfl, by omega⟩

/-! ### The codec -/

open NearMock (decimal)

/-- The renderer's block fits below the limit, and lies above the heap's own cell. -/
structure Heap (m : LinearMemory) (limit : I64) : Prop where
  above : 64 ≤ m.number 56 8
  room : m.number 56 8 + 48 < limit.toNat
  within : limit.toNat ≤ m.size
  small : m.size ≤ 2 ^ 32

theorem decimal_length_le {n : Nat} (small : n < 2 ^ 128) : (decimal n).length ≤ 39 := by
  by_cases zero : n = 0
  · rw [zero]
    decide
  · rw [U256.decimal_length zero, U256.count_le_iff]
    exact small.trans (by decide)

variable {m : LinearMemory} {limit addr : I64}

theorem hToStr_eq (heap : Heap m limit) (placed : Placed m addr 16) :
    ∃ s, hToStr limit m addr = some (s, (m.put 56 8 (m.number 56 8 + 48)).digits
        (m.number 56 8 + 48) (decimal (m.number addr.toNat 16)).length
        (m.number addr.toNat 16)) ∧
      (strPtr s).toNat = m.number 56 8 + 48 - (decimal (m.number addr.toNat 16)).length ∧
      (strLen s).toNat = (decimal (m.number addr.toNat 16)).length ∧ s &&& 7 = 5 := by
  obtain ⟨above, room, within, small⟩ := heap
  obtain ⟨lo, hi, loadedLo, loadedHi, value⟩ := placed.pair
  obtain ⟨dst, pointer, address⟩ := loadI64_number (m := m) (p := 56) (by omega)
  change m.number addr.toNat 16 = pair lo hi at value
  have bound := pair_lt lo hi
  rw [← value] at bound
  rw [← address] at above room ⊢
  generalize m.number addr.toNat 16 = n at *
  have written := decimal_length_le bound
  have top : (dst + 48).toNat = dst.toNat + 48 := by
    rw [BitVec.toNat_add, show (48 : I64).toNat = 48 from rfl]
    omega
  have fits : (!(dst + 48).ult limit) = false := by
    rw [ult_eq, top, decide_eq_true room]
    rfl
  have stored := storeI64_put (m := m) (p := 56) (by omega) (dst + 48)
  rw [top] at stored
  unfold hToStr
  simp only [loadedLo, loadedHi, pointer, Option.bind_eq_bind, Option.bind_some, fits,
    if_neg Bool.false_ne_true, stored]
  by_cases zero : n = 0
  · have before := U256.before_toNat (p := dst + 48) (by omega)
    have byte := U256.storeDigit (m := m.put 56 8 (dst.toNat + 48)) (p := dst + 48) (r := 0)
      (by omega) (by rw [put_size]; omega) small
    obtain ⟨ptr, len, tag⟩ := U256.string_word (p := dst + 48 - 1) (l := 1) (by omega) (by decide)
    rw [if_pos ((words_pair lo hi).mpr (value.symm.trans zero)), zero]
    rw [top] at byte
    change storeByte _ _ 48 = _ at byte
    rw [byte, Option.bind_some]
    refine ⟨_, rfl, ?_, ?_, tag⟩
    · rw [ptr, before, top]
      rfl
    · rw [len]
      rfl
  · have length := U256.decimal_length zero
    have few : U256.chunks n ≤ 3 := by
      unfold U256.chunks
      omega
    obtain ⟨pos, emitted, position⟩ := toStrChunks_eq 4 (m.put 56 8 (dst.toNat + 48)) lo hi
      (dst + 48) value.symm (by omega) (by omega) (by rw [put_size]; omega) small
    have span : (dst + 48 - pos).toNat = U256.count n := by
      rw [BitVec.toNat_sub, top, position, top]
      omega
    obtain ⟨ptr, len, tag⟩ := U256.string_word (p := pos) (l := dst + 48 - pos) (by omega)
      (by omega)
    rw [if_neg (mt (words_pair lo hi).mp (by rwa [← value])), emitted, Option.bind_some, top,
      length, BitVec.or_comm _ pos]
    refine ⟨_, rfl, ?_, ?_, tag⟩
    · rw [ptr, position, top]
    · rw [len, span]

theorem parsed_decimal {n : Nat} (small : n < 2 ^ 128) :
    parsed ((decimal n).map UInt8.toBitVec) = some n := by
  rw [parsed, if_neg (by rw [List.map_eq_nil_iff]; exact decimal_ne_nil n),
    U256.foldlM_decimalStep, Option.filter_some, if_pos (decide_eq_true small)]

/-- The canonical text of the number in a cell, in the renderer's block, and the number again. -/
def Renders (m : LinearMemory) (limit addr : I64) : Prop :=
  let n := m.number addr.toNat 16
  let dst := m.number 56 8
  ∃ s m', hToStr limit m addr = some (s, m') ∧ m'.text s = (decimal n).map UInt8.toBitVec ∧
    (m'.text s).length ≤ 39 ∧
    (∀ i, ¬(dst ≤ i ∧ i < dst + 48) → ¬(56 ≤ i ∧ i < 64) → m'.bytes i = m.bytes i) ∧
    ∀ cell, Placed m' cell 16 → hParse m' s cell = some (m'.put cell.toNat 16 n)

/-- A text is read exactly when it is digits, one at least, for a number of 128 bits. -/
def ReadsExactly : Prop :=
  ∀ (m : LinearMemory) (s cell : I64), m.Holds s → Placed m cell 16 → s &&& 7 = 5 →
    ((hParse m s cell).isSome = true ↔
      m.text s ≠ [] ∧ (m.text s).all U256.isDigit = true ∧ U256.textValue (m.text s) < 2 ^ 128) ∧
    ∀ m', hParse m s cell = some m' →
      m' = m.put cell.toNat 16 (U256.textValue (m.text s))

theorem readsExactly : ReadsExactly := by
  intro m s cell held placed tagged
  have readable := U256.filtered_isSome (m.text s) (2 ^ 128)
  rw [hParse_eq held placed tagged, Option.isSome_map]
  refine ⟨readable, fun m' read => ?_⟩
  obtain ⟨n, made, rfl⟩ := Option.map_eq_some_iff.mp read
  obtain ⟨-, digits, -⟩ := readable.mp (by rw [← parsed, made]; rfl)
  rw [parsed, U256.foldlM_decimalStep_eq, digits, if_pos rfl, Nat.zero_mul, Nat.zero_add] at made
  split_ifs at made
  obtain ⟨equal, -⟩ := Option.filter_eq_some_iff.mp made
  rw [Option.some.inj equal]

theorem renders (heap : Heap m limit) (placed : Placed m addr 16) : Renders m limit addr := by
  obtain ⟨s, run, ptr, len, tagged⟩ := hToStr_eq heap placed
  obtain ⟨above, room, within, small⟩ := heap
  obtain ⟨lo, hi, -, -, value⟩ := placed.pair
  have bound := pair_lt lo hi
  change m.number addr.toNat 16 = pair lo hi at value
  rw [← value] at bound
  unfold Renders
  dsimp only
  rw [run]
  generalize m.number addr.toNat 16 = n at *
  generalize m.number 56 8 = dst at *
  have written := decimal_length_le bound
  have text := U256.text_digits (m := m.put 56 8 (dst + 48)) len ptr (Nat.le_refl _) (by omega)
  refine ⟨s, _, rfl, text, ?_, fun i outside apart => ?_, fun cell placed => ?_⟩
  · rwa [text, List.length_map]
  · rw [digits_bytes, if_neg (by omega), put_bytes, if_neg (by omega)]
  · have held : ((m.put 56 8 (dst + 48)).digits (dst + 48) (decimal n).length n).Holds s :=
      ⟨by rw [ptr, len, digits_size, put_size]; omega, small⟩
    rw [hParse_eq held placed tagged, text, parsed_decimal bound]
    rfl

/-- Every number of 128 bits is rendered as its canonical text, which reads as the number again,
and no other text is read. -/
theorem decimalCodec (heap : Heap m limit) (placed : Placed m addr 16) :
    Renders m limit addr ∧ ReadsExactly :=
  ⟨renders heap placed, readsExactly⟩

theorem decimalCodec_largest :
    Renders (((⟨fun _ => 0, 65536⟩ : LinearMemory).put 56 8 4096).put 128 16 (2 ^ 128 - 1))
      65536 128 ∧ ReadsExactly := by
  have heap : (((⟨fun _ => 0, 65536⟩ : LinearMemory).put 56 8 4096).put 128 16
      (2 ^ 128 - 1)).number 56 8 = 4096 := by
    rw [number_put_apart (.inl (by decide)), number_put]
    rfl
  exact decimalCodec ⟨by rw [heap]; decide, by rw [heap]; decide, Nat.le_refl 65536,
    show 65536 ≤ 2 ^ 32 by decide⟩ ⟨by decide, by decide⟩

end U128

end LispRlm.WasmEmit
