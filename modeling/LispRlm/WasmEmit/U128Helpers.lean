import LispRlm.WasmEmit.HalfLimbDivision
import LispRlm.WasmEmit.HalfLimbOverflow
import LispRlm.WasmEmit.WideCells

/-! The helpers of the emitted code for `u128` arithmetic: each reads cells of 16 bytes and writes
one, or traps. The values that an instruction sequence leaves on the stack stand as expressions, and
locals as bindings. -/

namespace LispRlm.WasmEmit

open Foundation LinearMemory

namespace U128

/-- `__u128_add` -/
def hAdd (m : LinearMemory) (dst src : I64) : Option LinearMemory := do
  let alo ← m.loadWord dst 0
  let ahi ← m.loadWord dst 8
  let blo ← m.loadWord src 0
  let bhi ← m.loadWord src 8
  let rlo := alo + blo
  let c := Op.ofBool (rlo.ult blo)
  let t := ahi + bhi
  let c1 := Op.ofBool (t.ult bhi)
  let c1 := Op.ofBool (t == -1) &&& (c &&& 1) ||| c1
  let t := t + (c &&& 1)
  if c1.setWidth 32 ≠ (0 : BitVec 32) then none
  else do
    let m ← m.storeWord dst 0 rlo
    m.storeWord dst 8 t

/-- `__u128_sub` -/
def hSub (m : LinearMemory) (dst src : I64) : Option LinearMemory := do
  let alo ← m.loadWord dst 0
  let ahi ← m.loadWord dst 8
  let blo ← m.loadWord src 0
  let bhi ← m.loadWord src 8
  let rlo := alo - blo
  let b := Op.ofBool (alo.ult rlo)
  let t := ahi - bhi
  let b2 := Op.ofBool (ahi.ult t)
  let b2 := Op.ofBool (t == 0) &&& (b &&& 1) ||| b2
  let t := t - (b &&& 1)
  if b2.setWidth 32 ≠ (0 : BitVec 32) then none
  else do
    let m ← m.storeWord dst 0 rlo
    m.storeWord dst 8 t

/-- A bit of the dividend, which every round reads from the memory again. -/
def dividendBit (m : LinearMemory) (dst : I64) (bit : Nat) : Option I64 :=
  if bit < 64 then (m.loadWord dst 0).map fun w : I64 => w >>> bit &&& 1
  else (m.loadWord dst 8).map fun w : I64 => w >>> (bit - 64) &&& 1

def divmodRound (m : LinearMemory) (dst dvlo dvhi : I64) (bit : Nat) :
    I64 × I64 × I64 × I64 → Option (I64 × I64 × I64 × I64)
  | (rlo, rhi, qlo, qhi) => do
      let ov := rhi >>> 63
      let rhi := rhi <<< 1 ||| rlo >>> 63
      let next ← dividendBit m dst bit
      let rlo := rlo <<< 1 ||| next
      let cond := Op.ofBool (dvhi.ult rhi) |||
        Op.ofBool (rhi == dvhi) &&& Op.ofBool (!rlo.ult dvlo) ||| ov
      if cond.setWidth 32 ≠ (0 : BitVec 32) then
        let t := rlo - dvlo
        let borrow := Op.ofBool (rlo.ult t)
        let rhi := rhi - dvhi - borrow
        if bit < 64 then some (t, rhi, qlo ||| (1 : I64) <<< bit, qhi)
        else some (t, rhi, qlo, qhi ||| (1 : I64) <<< (bit - 64))
      else some (rlo, rhi, qlo, qhi)

/-- `__u128_divmod` -/
def hDivmod (m : LinearMemory) (dst src rem : I64) : Option LinearMemory := do
  let dvlo ← m.loadWord src 0
  let dvhi ← m.loadWord src 8
  if dvlo ||| dvhi = 0 then none
  else do
    let (rlo, rhi, qlo, qhi) ← (List.range 128).reverse.foldlM
      (fun state bit => divmodRound m dst dvlo dvhi bit state) (0, 0, 0, 0)
    let m ← m.storeWord dst 0 qlo
    let m ← m.storeWord dst 8 qhi
    let m ← m.storeWord rem 0 rlo
    m.storeWord rem 8 rhi

/-- A cell's limbs of 32 bits. -/
def loadHalves (m : LinearMemory) (p : I64) : Option (List I64) :=
  (m.loadWords p 0 2).map Halves.split

/-- `__u128_mul` -/
def hMul (m : LinearMemory) (dst src : I64) : Option LinearMemory := do
  let as ← loadHalves m dst
  let bs ← loadHalves m src
  let rs ← Halves.schoolbookChecked as bs (List.replicate 4 0)
  storeWords dst m 0 (Halves.windows rs)

/-- `__h_u128_muldiv` -/
def hMuldiv (m : LinearMemory) (a b d q rem : I64) : Option LinearMemory := do
  let as ← loadHalves m a
  let bs ← loadHalves m b
  let ds ← loadHalves m d
  if ds.foldl (· ||| ·) 0 = 0 then none
  else do
    let ps := Halves.schoolbook as bs (List.replicate 8 0)
    let (rs, qs) := Halves.divide ps ds 256
    if (qs.drop 4).foldl (· ||| ·) 0 ≠ 0 then none
    else do
      let m ← storeWords q m 0 (Halves.windows (qs.take 4))
      -- `Eqz` before the `If`: the remainder is stored at the pointer that means there is none
      if rem = 0 then storeWords rem m 0 (Halves.windows (rs.take 2)) else some m

/-! ### Cells -/

/-- Two cells of a page. -/
def cells (a b : Nat) : LinearMemory :=
  (LinearMemory.put ⟨fun _ => 0, 65536⟩ 64 16 a).put 80 16 b

theorem cells_placed (a b : Nat) {p : I64} (inside : p.toNat + 16 ≤ 65536) :
    Placed (cells a b) p 16 := ⟨inside, by rw [cells, put_size, put_size]; decide⟩

theorem cells_first {a : Nat} (b : Nat) (small : a < 2 ^ 128) : (cells a b).number 64 16 = a := by
  rw [cells, number_put_apart (.inl (by decide)), number_put]
  exact Nat.mod_eq_of_lt small

theorem cells_second (a : Nat) {b : Nat} (small : b < 2 ^ 128) : (cells a b).number 80 16 = b := by
  rw [cells, number_put]
  exact Nat.mod_eq_of_lt small

/-! ### Sums and differences -/

theorem ofBool_toNat (b : Bool) : (Op.ofBool b).toNat = b.toNat := by
  cases b <;> rfl

theorem ofBool_and_one (b : Bool) : Op.ofBool b &&& 1 = Op.ofBool b := by
  cases b <;> rfl

theorem combined (x y z : Bool) :
    Op.ofBool x &&& (Op.ofBool y &&& 1) ||| Op.ofBool z = Op.ofBool (x && y || z) := by
  revert x y z
  decide

theorem ofBool_branch (b : Bool) : (Op.ofBool b).setWidth 32 ≠ (0 : BitVec 32) ↔ b = true := by
  cases b <;> decide

theorem ult_eq (x y : I64) : x.ult y = decide (x.toNat < y.toNat) := rfl

/-- The value of two words. -/
def pair (lo hi : I64) : Nat := lo.toNat + 2 ^ 64 * hi.toNat

/-- The sum of two pairs of words, with the carry out of the higher one. -/
theorem add_pair (alo ahi blo bhi : I64) :
    let c := Op.ofBool ((alo + blo).ult blo)
    let t := ahi + bhi
    let exceeds := t == -1 && (alo + blo).ult blo || t.ult bhi
    pair (alo + blo) (t + (c &&& 1)) + 2 ^ 128 * exceeds.toNat = pair alo ahi + pair blo bhi := by
  have boundA := alo.isLt
  have boundB := blo.isLt
  have boundC := ahi.isLt
  have boundD := bhi.isLt
  have full : (ahi + bhi == -1) = decide ((ahi.toNat + bhi.toNat) % 2 ^ 64 = 2 ^ 64 - 1) := by
    rw [Bool.eq_iff_iff, beq_iff_eq, decide_eq_true_iff, ← BitVec.toNat_inj, BitVec.toNat_add]
    rfl
  have low : (alo + blo).toNat + 2 ^ 64 * ((alo + blo).ult blo).toNat = alo.toNat + blo.toNat := by
    rw [ult_eq, BitVec.toNat_add]
    by_cases carries : alo.toNat + blo.toNat < 2 ^ 64
    · rw [decide_eq_false (by omega), Bool.toNat_false]
      omega
    · rw [decide_eq_true (by omega), Bool.toNat_true]
      omega
  generalize (alo + blo).ult blo = c at low
  dsimp only
  rw [ofBool_and_one, pair, full, ult_eq, BitVec.toNat_add (ahi + bhi), BitVec.toNat_add ahi,
    ofBool_toNat]
  have high : (ahi.toNat + bhi.toNat) % 2 ^ 64 = ahi.toNat + bhi.toNat ∧
        ahi.toNat + bhi.toNat < 2 ^ 64 ∨
      (ahi.toNat + bhi.toNat) % 2 ^ 64 + 2 ^ 64 = ahi.toNat + bhi.toNat ∧
        (ahi.toNat + bhi.toNat) % 2 ^ 64 < bhi.toNat ∧
        (ahi.toNat + bhi.toNat) % 2 ^ 64 < 2 ^ 64 - 1 := by omega
  generalize (ahi.toNat + bhi.toNat) % 2 ^ 64 = t at high ⊢
  unfold pair
  rcases high with ⟨same, small⟩ | ⟨wrapped, less, notFull⟩
  · rw [decide_eq_false (show ¬t < bhi.toNat by omega), Bool.or_false]
    cases c
    · rw [Bool.and_false, Bool.toNat_false] at *
      omega
    · rw [Bool.and_true, Bool.toNat_true] at *
      by_cases last : t = 2 ^ 64 - 1
      · rw [decide_eq_true last, Bool.toNat_true]
        omega
      · rw [decide_eq_false last, Bool.toNat_false]
        omega
  · rw [decide_eq_true less, Bool.or_true, Bool.toNat_true]
    cases c
    · rw [Bool.toNat_false] at *
      omega
    · rw [Bool.toNat_true] at *
      omega

/-- The difference of two pairs of words, with the borrow out of the higher one. -/
theorem sub_pair (alo ahi blo bhi : I64) :
    let b := Op.ofBool (alo.ult (alo - blo))
    let t := ahi - bhi
    let under := t == 0 && alo.ult (alo - blo) || ahi.ult t
    pair (alo - blo) (t - (b &&& 1)) + pair blo bhi = pair alo ahi + 2 ^ 128 * under.toNat := by
  have boundA := alo.isLt
  have boundB := blo.isLt
  have boundC := ahi.isLt
  have boundD := bhi.isLt
  have empty : (ahi - bhi == 0) = decide ((2 ^ 64 - bhi.toNat + ahi.toNat) % 2 ^ 64 = 0) := by
    rw [Bool.eq_iff_iff, beq_iff_eq, decide_eq_true_iff, ← BitVec.toNat_inj, BitVec.toNat_sub]
    rfl
  have low : (alo - blo).toNat + blo.toNat = alo.toNat + 2 ^ 64 * (alo.ult (alo - blo)).toNat := by
    rw [ult_eq, BitVec.toNat_sub]
    by_cases borrows : alo.toNat < blo.toNat
    · rw [decide_eq_true (by omega), Bool.toNat_true]
      omega
    · rw [decide_eq_false (by omega), Bool.toNat_false]
      omega
  generalize alo.ult (alo - blo) = b at low
  dsimp only
  rw [ofBool_and_one, pair, empty, ult_eq, BitVec.toNat_sub (ahi - bhi), BitVec.toNat_sub ahi,
    ofBool_toNat]
  have high : (2 ^ 64 - bhi.toNat + ahi.toNat) % 2 ^ 64 + bhi.toNat = ahi.toNat ∧
        (2 ^ 64 - bhi.toNat + ahi.toNat) % 2 ^ 64 ≤ ahi.toNat ∨
      (2 ^ 64 - bhi.toNat + ahi.toNat) % 2 ^ 64 + bhi.toNat = ahi.toNat + 2 ^ 64 ∧
        ahi.toNat < (2 ^ 64 - bhi.toNat + ahi.toNat) % 2 ^ 64 := by omega
  have wordT : (2 ^ 64 - bhi.toNat + ahi.toNat) % 2 ^ 64 < 2 ^ 64 := Nat.mod_lt _ (by decide)
  generalize (2 ^ 64 - bhi.toNat + ahi.toNat) % 2 ^ 64 = t at high wordT ⊢
  unfold pair
  rcases high with ⟨same, small⟩ | ⟨wrapped, more⟩
  · rw [decide_eq_false (show ¬ahi.toNat < t by omega), Bool.or_false]
    cases b
    · rw [Bool.and_false, Bool.toNat_false] at *
      omega
    · rw [Bool.and_true, Bool.toNat_true] at *
      by_cases zero : t = 0
      · rw [decide_eq_true zero, Bool.toNat_true]
        omega
      · rw [decide_eq_false zero, Bool.toNat_false]
        omega
  · rw [decide_eq_true more, Bool.or_true, Bool.toNat_true]
    cases b
    · rw [Bool.toNat_false] at *
      omega
    · rw [Bool.toNat_true] at *
      omega

theorem pair_lt (lo hi : I64) : pair lo hi < 2 ^ 128 := by
  have low := lo.isLt
  have high := hi.isLt
  unfold pair
  omega

variable {m : LinearMemory} {dst src rem : I64}

theorem hAdd_eq (placedA : Placed m dst 16) (placedB : Placed m src 16) :
    hAdd m dst src =
      if m.number dst.toNat 16 + m.number src.toNat 16 < 2 ^ 128 then
        some (m.put dst.toNat 16 (m.number dst.toNat 16 + m.number src.toNat 16))
      else none := by
  obtain ⟨alo, ahi, loadALo, loadAHi, valueA⟩ := placedA.pair
  obtain ⟨blo, bhi, loadBLo, loadBHi, valueB⟩ := placedB.pair
  have sum := add_pair alo ahi blo bhi
  have bound := pair_lt (alo + blo) (ahi + bhi + (Op.ofBool ((alo + blo).ult blo) &&& 1))
  simp only [hAdd, loadALo, loadAHi, loadBLo, loadBHi, Option.bind_eq_bind, Option.bind_some,
    combined, ofBool_branch]
  rw [valueA, valueB, show alo.toNat + 2 ^ 64 * ahi.toNat = pair alo ahi from rfl,
    show blo.toNat + 2 ^ 64 * bhi.toNat = pair blo bhi from rfl]
  dsimp only at sum
  generalize (ahi + bhi == -1 && (alo + blo).ult blo || (ahi + bhi).ult bhi) = exceeds at sum ⊢
  cases exceeds
  · rw [Bool.toNat_false, Nat.mul_zero, Nat.add_zero] at sum
    rw [if_neg Bool.false_ne_true, ← sum, if_pos bound]
    exact placedA.storePair _ _
  · rw [Bool.toNat_true] at sum
    rw [if_pos rfl, if_neg (by omega)]

theorem hSub_eq (placedA : Placed m dst 16) (placedB : Placed m src 16) :
    hSub m dst src =
      if m.number src.toNat 16 ≤ m.number dst.toNat 16 then
        some (m.put dst.toNat 16 (m.number dst.toNat 16 - m.number src.toNat 16))
      else none := by
  obtain ⟨alo, ahi, loadALo, loadAHi, valueA⟩ := placedA.pair
  obtain ⟨blo, bhi, loadBLo, loadBHi, valueB⟩ := placedB.pair
  have difference := sub_pair alo ahi blo bhi
  have bound := pair_lt (alo - blo) (ahi - bhi - (Op.ofBool (alo.ult (alo - blo)) &&& 1))
  simp only [hSub, loadALo, loadAHi, loadBLo, loadBHi, Option.bind_eq_bind, Option.bind_some,
    combined, ofBool_branch]
  rw [valueA, valueB, show alo.toNat + 2 ^ 64 * ahi.toNat = pair alo ahi from rfl,
    show blo.toNat + 2 ^ 64 * bhi.toNat = pair blo bhi from rfl]
  dsimp only at difference
  generalize (ahi - bhi == 0 && alo.ult (alo - blo) || ahi.ult (ahi - bhi)) = under at difference ⊢
  cases under
  · rw [Bool.toNat_false, Nat.mul_zero, Nat.add_zero] at difference
    rw [if_neg Bool.false_ne_true, if_pos (by omega), ← Nat.eq_sub_of_add_eq difference]
    exact placedA.storePair _ _
  · rw [Bool.toNat_true] at difference
    rw [if_pos rfl, if_neg (by omega)]

/-! ### Division -/

/-- The remainder and the quotient of the dividend's bits from the `k`th on, the quotient's bits in
their final places. -/
structure Divides (n d k : Nat) (rlo rhi qlo qhi : I64) : Prop where
  remainder : pair rlo rhi = n / 2 ^ k % d
  quotient : pair qlo qhi = n / 2 ^ k / d * 2 ^ k

/-- A pair moves up by a bit. -/
theorem shift_pair (lo hi bit : I64) (one : bit.toNat ≤ 1) :
    pair (lo <<< 1 ||| bit) (hi <<< 1 ||| lo >>> 63) + 2 ^ 128 * (hi >>> 63).toNat =
      2 * pair lo hi + bit.toNat := by
  have low := lo.isLt
  have high := hi.isLt
  have double (w c : I64) (small : c.toNat ≤ 1) :
      (w <<< 1 ||| c).toNat = 2 * (w.toNat % 2 ^ 63) + c.toNat := by
    have even : (w <<< 1).toNat = w.toNat % 2 ^ 63 * 2 ^ 1 := by
      rw [BitVec.toNat_shiftLeft, Nat.shiftLeft_eq]
      omega
    rw [BitVec.toNat_or, even, ← Nat.shiftLeft_eq, ← Nat.shiftLeft_add_eq_or_of_lt (by omega),
      Nat.shiftLeft_eq]
    omega
  have top (w : I64) : (w >>> 63).toNat = w.toNat / 2 ^ 63 := by
    rw [BitVec.toNat_ushiftRight, Nat.shiftRight_eq_div_pow]
  rw [pair, double lo bit one, double hi (lo >>> 63) (by rw [top]; omega), top, top, pair]
  omega

theorem set_bit {w : I64} {k : Nat} (small : k < 64) (clear : 2 ^ (k + 1) ∣ w.toNat) :
    (w ||| (1 : I64) <<< k).toNat = w.toNat + 2 ^ k := by
  obtain ⟨c, above⟩ := clear
  rw [BitVec.toNat_or, one_shift small, above, Nat.mul_comm, ← Nat.shiftLeft_eq,
    ← Nat.shiftLeft_add_eq_or_of_lt (Nat.pow_lt_pow_right (by decide) k.lt_succ_self)]

/-- The divisor fits the remainder, which has a bit more than two words. -/
theorem fits_pair (rlo rhi dlo dhi ov : I64) (one : ov.toNat ≤ 1) :
    (Op.ofBool (dhi.ult rhi) ||| Op.ofBool (rhi == dhi) &&& Op.ofBool (!rlo.ult dlo) |||
        ov).setWidth 32 ≠ (0 : BitVec 32) ↔
      pair dlo dhi ≤ pair rlo rhi + 2 ^ 128 * ov.toNat := by
  have boundA := rlo.isLt
  have boundB := rhi.isLt
  have boundC := dlo.isLt
  have boundD := dhi.isLt
  have equal : (rhi == dhi) = decide (rhi.toNat = dhi.toNat) := by
    rw [Bool.eq_iff_iff, beq_iff_eq, decide_eq_true_iff, BitVec.toNat_inj]
  obtain ⟨b, rfl⟩ : ∃ b : Bool, ov = Op.ofBool b := by
    rcases Nat.le_one_iff_eq_zero_or_eq_one.mp one with zero | carried
    · exact ⟨false, BitVec.eq_of_toNat_eq zero⟩
    · exact ⟨true, BitVec.eq_of_toNat_eq carried⟩
  have joined : ∀ x y z c : Bool, Op.ofBool x ||| Op.ofBool y &&& Op.ofBool z ||| Op.ofBool c =
      Op.ofBool (x || y && z || c) := by decide
  rw [ofBool_toNat, joined, ofBool_branch, ult_eq, ult_eq, equal, Bool.or_eq_true,
    Bool.or_eq_true, Bool.and_eq_true, Bool.not_eq_true', decide_eq_true_iff, decide_eq_true_iff,
    decide_eq_false_iff_not]
  unfold pair
  cases b
  · rw [Bool.toNat_false]
    simp only [Bool.false_eq_true, or_false]
    omega
  · rw [Bool.toNat_true]
    simp only [or_true, true_iff]
    omega

theorem testBit_pair (lo hi : I64) (k : Nat) :
    (pair lo hi).testBit k = if k < 64 then lo.toNat.testBit k else hi.toNat.testBit (k - 64) := by
  rw [pair, Nat.add_comm]
  exact Nat.testBit_two_pow_mul_add _ lo.isLt k

/-- A bit of the quotient. -/
theorem pair_set {lo hi : I64} {q k : Nat} (last : k < 128) (clear : pair lo hi = q * 2 ^ (k + 1)) :
    (if k < 64 then pair (lo ||| (1 : I64) <<< k) hi
      else pair lo (hi ||| (1 : I64) <<< (k - 64))) = (2 * q + 1) * 2 ^ k := by
  have doubled : (2 * q + 1) * 2 ^ k = q * 2 ^ (k + 1) + 2 ^ k := by
    rw [Nat.pow_succ]
    ring
  rw [doubled, ← clear]
  split_ifs with low
  · have power : 2 ^ (k + 1) ∣ 2 ^ 64 * hi.toNat := (Nat.pow_dvd_pow 2 low).mul_right _
    have whole : 2 ^ (k + 1) ∣ lo.toNat + 2 ^ 64 * hi.toNat := ⟨q, clear.trans (Nat.mul_comm _ _)⟩
    rw [pair, set_bit low ((Nat.dvd_add_left power).mp whole), pair]
    omega
  · obtain ⟨j, rfl⟩ := Nat.exists_eq_add_of_le (Nat.le_of_not_lt low)
    have split : q * 2 ^ (64 + j + 1) = 2 ^ 64 * (q * 2 ^ (j + 1)) := by
      rw [Nat.add_assoc, Nat.pow_add]
      ring
    have word := lo.isLt
    have power : 2 ^ (64 + j) = 2 ^ 64 * 2 ^ j := Nat.pow_add 2 64 j
    rw [split, pair] at clear
    have high : hi.toNat = q * 2 ^ (j + 1) := by omega
    rw [Nat.add_sub_cancel_left, pair, set_bit (by omega) ⟨q, high.trans (Nat.mul_comm _ _)⟩, pair,
      power]
    omega

theorem divmodRound_divides {dlo dhi dvlo dvhi rlo rhi qlo qhi : I64} {k : Nat} (last : k < 128)
    (loadLo : m.loadWord dst 0 = some dlo) (loadHi : m.loadWord dst 8 = some dhi)
    (positive : 0 < pair dvlo dvhi)
    (divides : Divides (pair dlo dhi) (pair dvlo dvhi) (k + 1) rlo rhi qlo qhi) :
    ∃ rlo' rhi' qlo' qhi',
      divmodRound m dst dvlo dvhi k (rlo, rhi, qlo, qhi) = some (rlo', rhi', qlo', qhi') ∧
        Divides (pair dlo dhi) (pair dvlo dvhi) k rlo' rhi' qlo' qhi' := by
  obtain ⟨remainder, quotient⟩ := divides
  obtain ⟨next, read, bit⟩ : ∃ next : I64, dividendBit m dst k = some next ∧
      next.toNat = ((pair dlo dhi).testBit k).toNat := by
    rw [dividendBit, testBit_pair]
    split_ifs with low
    · exact ⟨_, by rw [loadLo]; rfl, bit_word dlo k⟩
    · exact ⟨_, by rw [loadHi]; rfl, bit_word dhi (k - 64)⟩
  have one : next.toNat ≤ 1 := bit ▸ Bool.toNat_le _
  have top : (rhi >>> 63).toNat ≤ 1 := by
    have word := rhi.isLt
    rw [BitVec.toNat_ushiftRight, Nat.shiftRight_eq_div_pow]
    omega
  have moved := shift_pair rlo rhi next one
  have fits := fits_pair (rlo <<< 1 ||| next) (rhi <<< 1 ||| rlo >>> 63) dvlo dvhi (rhi >>> 63) top
  rw [remainder, bit] at moved
  have sum : _ = LongDivision.shifted (pair dlo dhi) (pair dvlo dvhi) k := moved
  rw [sum] at fits
  have quotients := LongDivision.div_step (n := pair dlo dhi) k positive
  have remainders := LongDivision.mod_step (n := pair dlo dhi) k positive
  have twice := LongDivision.shifted_lt (n := pair dlo dhi) k positive
  have divisor := pair_lt dvlo dvhi
  simp only [divmodRound, read, Option.bind_eq_bind, Option.bind_some]
  by_cases subtracts : pair dvlo dvhi ≤ LongDivision.shifted (pair dlo dhi) (pair dvlo dvhi) k
  · rw [if_pos (fits.mpr subtracts)]
    rw [if_pos subtracts] at remainders
    rw [decide_eq_true subtracts, Bool.toNat_true] at quotients
    have difference := sub_pair (rlo <<< 1 ||| next) (rhi <<< 1 ||| rlo >>> 63) dvlo dvhi
    have under := Bool.toNat_le ((rhi <<< 1 ||| rlo >>> 63) - dvhi == 0 &&
      (rlo <<< 1 ||| next).ult ((rlo <<< 1 ||| next) - dvlo) ||
      (rhi <<< 1 ||| rlo >>> 63).ult ((rhi <<< 1 ||| rlo >>> 63) - dvhi))
    have set := pair_set last quotient
    dsimp only at difference
    rw [ofBool_and_one] at difference
    have bound := pair_lt ((rlo <<< 1 ||| next) - dvlo) ((rhi <<< 1 ||| rlo >>> 63) - dvhi -
      Op.ofBool ((rlo <<< 1 ||| next).ult ((rlo <<< 1 ||| next) - dvlo)))
    have rest : pair ((rlo <<< 1 ||| next) - dvlo) ((rhi <<< 1 ||| rlo >>> 63) - dvhi -
        Op.ofBool ((rlo <<< 1 ||| next).ult ((rlo <<< 1 ||| next) - dvlo))) =
        pair dlo dhi / 2 ^ k % pair dvlo dvhi := by omega
    rw [← quotients] at set
    split_ifs at set ⊢ with low
    · exact ⟨_, _, _, _, rfl, rest, set⟩
    · exact ⟨_, _, _, _, rfl, rest, set⟩
  · rw [if_neg (mt fits.mp subtracts)]
    rw [if_neg subtracts] at remainders
    rw [decide_eq_false subtracts, Bool.toNat_false] at quotients
    refine ⟨_, _, _, _, rfl, ?_, ?_⟩
    · omega
    · rw [quotient, quotients, Nat.pow_succ]
      ring

theorem divmodRounds_divides {dlo dhi dvlo dvhi : I64}
    (loadLo : m.loadWord dst 0 = some dlo) (loadHi : m.loadWord dst 8 = some dhi)
    (positive : 0 < pair dvlo dvhi) (bits : Nat) (last : bits ≤ 128) (state : I64 × I64 × I64 × I64)
    (divides : Divides (pair dlo dhi) (pair dvlo dvhi) bits
      state.1 state.2.1 state.2.2.1 state.2.2.2) :
    ∃ state', (List.range bits).reverse.foldlM
        (fun state bit => divmodRound m dst dvlo dvhi bit state) state = some state' ∧
      Divides (pair dlo dhi) (pair dvlo dvhi) 0 state'.1 state'.2.1 state'.2.2.1 state'.2.2.2 := by
  induction bits generalizing state with
  | zero => exact ⟨state, rfl, divides⟩
  | succ bits ih =>
      obtain ⟨rlo, rhi, qlo, qhi⟩ := state
      obtain ⟨rlo', rhi', qlo', qhi', round, divides'⟩ :=
        divmodRound_divides last loadLo loadHi positive divides
      obtain ⟨state', rounds, final⟩ := ih (Nat.le_of_succ_le last)
          (rlo', rhi', qlo', qhi') divides'
      refine ⟨state', ?_, final⟩
      rw [List.range_succ, List.reverse_append, List.reverse_singleton, List.singleton_append,
        List.foldlM_cons, round]
      exact rounds

theorem hDivmod_eq (placedA : Placed m dst 16) (placedB : Placed m src 16)
    (placedR : Placed m rem 16) :
    hDivmod m dst src rem =
      if m.number src.toNat 16 = 0 then none
      else some ((m.put dst.toNat 16
        (m.number dst.toNat 16 / m.number src.toNat 16)).put rem.toNat 16
        (m.number dst.toNat 16 % m.number src.toNat 16)) := by
  obtain ⟨dlo, dhi, loadLo, loadHi, valueA⟩ := placedA.pair
  obtain ⟨dvlo, dvhi, loadDvLo, loadDvHi, valueB⟩ := placedB.pair
  have zero : dvlo ||| dvhi = 0 ↔ pair dvlo dvhi = 0 := by
    rw [← BitVec.toNat_inj, BitVec.toNat_or, show (0 : I64).toNat = 0 from rfl, Nat.or_eq_zero_iff,
      pair]
    omega
  simp only [hDivmod, loadDvLo, loadDvHi, Option.bind_eq_bind, Option.bind_some, zero]
  rw [valueA, valueB, show dlo.toNat + 2 ^ 64 * dhi.toNat = pair dlo dhi from rfl,
    show dvlo.toNat + 2 ^ 64 * dvhi.toNat = pair dvlo dvhi from rfl]
  split_ifs with none
  · rfl
  · have bound := pair_lt dlo dhi
    have start : Divides (pair dlo dhi) (pair dvlo dvhi) 128 0 0 0 0 := by
      constructor
      · rw [Nat.div_eq_of_lt bound, Nat.zero_mod]
        rfl
      · rw [Nat.div_eq_of_lt bound, Nat.zero_div, Nat.zero_mul]
        rfl
    obtain ⟨⟨rlo, rhi, qlo, qhi⟩, rounds, remainder, quotient⟩ :=
      divmodRounds_divides loadLo loadHi (Nat.pos_of_ne_zero none) 128 (Nat.le_refl _)
        (0, 0, 0, 0) start
    rw [Nat.pow_zero, Nat.div_one] at remainder
    rw [Nat.pow_zero, Nat.div_one, Nat.mul_one] at quotient
    dsimp only at remainder quotient
    rw [rounds, Option.bind_some, ← remainder, ← quotient]
    have storeQ := placedA.storePair qlo qhi
    have storeR := (placedR.put (q := dst.toNat) (k := 16) (a := pair qlo qhi)).storePair rlo rhi
    rw [Option.bind_eq_bind] at storeQ storeR
    rw [← Option.bind_assoc, storeQ, Option.bind_some]
    exact storeR

/-- Sum, difference, quotient and remainder are exact, or there is a trap. -/
theorem addSubDivmod_exact (placedA : Placed m dst 16) (placedB : Placed m src 16)
    (placedR : Placed m rem 16) :
    let a := m.number dst.toNat 16
    let b := m.number src.toNat 16
    hAdd m dst src = (if a + b < 2 ^ 128 then some (m.put dst.toNat 16 (a + b)) else none) ∧
      hSub m dst src = (if b ≤ a then some (m.put dst.toNat 16 (a - b)) else none) ∧
      (b = 0 → hDivmod m dst src rem = none) ∧
      (b ≠ 0 → ∃ q r, a = q * b + r ∧ r < b ∧
        hDivmod m dst src rem = some ((m.put dst.toNat 16 q).put rem.toNat 16 r)) := by
  intro a b
  have divmod : hDivmod m dst src rem =
      if b = 0 then none else some ((m.put dst.toNat 16 (a / b)).put rem.toNat 16 (a % b)) :=
    hDivmod_eq placedA placedB placedR
  refine ⟨hAdd_eq placedA placedB, hSub_eq placedA placedB, fun zero => ?_, fun positive => ?_⟩
  · rw [divmod, if_pos zero]
  · refine ⟨a / b, a % b, ?_, Nat.mod_lt _ (Nat.pos_of_ne_zero positive), ?_⟩
    · rw [Nat.mul_comm, Nat.div_add_mod]
    · rw [divmod, if_neg positive]

theorem addSubDivmod_exact_largest :
    hAdd (cells (2 ^ 128 - 1) 2) 64 80 = none ∧
      hSub (cells (2 ^ 128 - 1) 2) 64 80 =
        some ((cells (2 ^ 128 - 1) 2).put 64 16 (2 ^ 128 - 3)) := by
  obtain ⟨sum, difference, -⟩ := addSubDivmod_exact
      (cells_placed (2 ^ 128 - 1) 2 (p := 64) (by decide))
    (cells_placed (2 ^ 128 - 1) 2 (p := 80) (by decide))
    (cells_placed (2 ^ 128 - 1) 2 (p := 96) (by decide))
  have first := cells_first (a := 2 ^ 128 - 1) 2 (by decide)
  have second := cells_second (2 ^ 128 - 1) (b := 2) (by decide)
  have place : (64 : I64).toNat = 64 := rfl
  have place' : (80 : I64).toNat = 80 := rfl
  rw [place, place', first, second] at sum difference
  exact ⟨sum, difference⟩

/-! ### Products -/

theorem loadHalves_eq {p : I64} (placed : Placed m p 16) :
    ∃ ws, loadHalves m p = some ws ∧ ws.length = 4 ∧ Halves.Valid ws ∧
      Halves.value ws = m.number p.toNat 16 := by
  obtain ⟨ws, loaded, length, value⟩ := placed.loadWords (show 0 + 8 * 2 ≤ 16 by decide)
  refine ⟨Halves.split ws, by rw [loadHalves, loaded]; rfl, ?_, Halves.split_valid ws, ?_⟩
  · rw [Halves.split_length, length]
  · rw [Halves.split_value]
    exact value

theorem storeHalves {p : I64} (placed : Placed m p 16) {rs : List I64} (length : rs.length = 4)
    (valid : Halves.Valid rs) :
    storeWords p m 0 (Halves.windows rs) = some (m.put p.toNat 16 (Halves.value rs)) := by
  have two := Halves.windows_length (n := 2) length
  have stored := placed.storeWords (Halves.windows rs)
    (show 0 + 8 * (Halves.windows rs).length ≤ 16 by rw [two])
  rw [stored, two, Halves.windows_value (n := 2) length valid]
  rfl

/-- What the product helper comes to: the limb products that are kept, summed, where they fit and
those that are dropped look like zero. -/
theorem hMul_eq (placedA : Placed m dst 16) (placedB : Placed m src 16) :
    let as := Halves.limbs (m.number dst.toNat 16) 4
    let bs := Halves.limbs (m.number src.toNat 16) 4
    hMul m dst src =
      if Halves.kept as bs 4 < 2 ^ 128 ∧ ∀ p ∈ Halves.dropped as bs 4, p % 2 ^ 32 = 0 then
        some (m.put dst.toNat 16 (Halves.kept as bs 4))
      else none := by
  obtain ⟨as, loadA, lengthA, validA, valueA⟩ := loadHalves_eq placedA
  obtain ⟨bs, loadB, lengthB, validB, valueB⟩ := loadHalves_eq placedB
  obtain ⟨made, goes⟩ := Halves.schoolbookChecked_spec validA validB (Halves.valid_zeros 4)
    (by rw [lengthA]; decide)
  rw [← valueA, ← valueB, ← lengthA, ← Halves.map_limbs validA, lengthA, ← lengthB,
    ← Halves.map_limbs validB, lengthB]
  rw [Halves.value_zeros, Nat.zero_add, List.length_replicate] at goes
  simp only [Halves.value_zeros, Nat.zero_add, List.length_replicate] at made
  intro as' bs'
  simp only [hMul, loadA, loadB, Option.bind_eq_bind, Option.bind_some]
  cases product : Halves.schoolbookChecked as bs (List.replicate 4 0) with
  | none =>
      rw [product] at goes
      rw [if_neg (fun holds => Bool.false_ne_true (goes.mpr holds))]
      rfl
  | some rs =>
      rw [product] at goes
      obtain ⟨length, valid, value⟩ := made rs product
      rw [if_pos (goes.mp rfl), Option.bind_some, storeHalves placedA length valid, value]

/-- The product comes out where it fits, and nothing does where it does not. -/
def MulExact (m : LinearMemory) (dst src : I64) : Prop :=
  hMul m dst src =
    if m.number dst.toNat 16 * m.number src.toNat 16 < 2 ^ 128 then
      some (m.put dst.toNat 16 (m.number dst.toNat 16 * m.number src.toNat 16))
    else none

theorem ofDigits_limbs (k : Nat) {n : Nat} (small : n < 2 ^ (32 * k)) :
    Nat.ofDigits (2 ^ 32) (Halves.limbs n k) = n := by
  induction k generalizing n with
  | zero =>
      obtain rfl : n = 0 := by omega
      rfl
  | succ k ih =>
      rw [Halves.base_pow] at small
      rw [Halves.limbs, Nat.ofDigits_cons, ih (Nat.div_lt_of_lt_mul small)]
      exact Nat.mod_add_div n (2 ^ 32)

theorem limbs_length (n k : Nat) : (Halves.limbs n k).length = k := by
  induction k generalizing n with
  | zero => rfl
  | succ k ih => exact congrArg (· + 1) (ih _)

theorem mulExact_iff (placedA : Placed m dst 16) (placedB : Placed m src 16) :
    let a := m.number dst.toNat 16
    let b := m.number src.toNat 16
    MulExact m dst src ↔
      a * b < 2 ^ 128 ∨ 2 ^ 128 ≤ Halves.kept (Halves.limbs a 4) (Halves.limbs b 4) 4 ∨
        ∃ p ∈ Halves.dropped (Halves.limbs a 4) (Halves.limbs b 4) 4, p % 2 ^ 32 ≠ 0 := by
  intro a b
  have smallA : a < 2 ^ (32 * 4) := number_lt dst.toNat 16
  have smallB : b < 2 ^ (32 * 4) := number_lt src.toNat 16
  have total := Halves.kept_add_above (Halves.limbs a 4)
    (limbs_length a 4).le (limbs_length b 4).ge
  rw [ofDigits_limbs 4 smallA, ofDigits_limbs 4 smallB] at total
  rw [MulExact, hMul_eq placedA placedB]
  change (if Halves.kept (Halves.limbs a 4) (Halves.limbs b 4) 4 < 2 ^ 128 ∧
      ∀ p ∈ Halves.dropped (Halves.limbs a 4) (Halves.limbs b 4) 4, p % 2 ^ 32 = 0 then
    some (m.put dst.toNat 16 (Halves.kept (Halves.limbs a 4) (Halves.limbs b 4) 4)) else none) =
    (if a * b < 2 ^ 128 then some (m.put dst.toNat 16 (a * b)) else none) ↔ _
  by_cases fits : a * b < 2 ^ 128
  · have empty : Halves.above (Halves.limbs a 4) (Halves.limbs b 4) 4 = 0 := by omega
    have same : Halves.kept (Halves.limbs a 4) (Halves.limbs b 4) 4 = a * b := by omega
    have zeros : ∀ p ∈ Halves.dropped (Halves.limbs a 4) (Halves.limbs b 4) 4, p % 2 ^ 32 = 0 := by
      intro p mem
      rw [Halves.dropped_zero empty p mem, Nat.zero_mod]
    rw [if_pos ⟨same.trans_lt fits, zeros⟩, if_pos fits, same]
    exact iff_of_true rfl (.inl fits)
  · rw [if_neg fits]
    have refuses : Halves.kept (Halves.limbs a 4) (Halves.limbs b 4) 4 < 2 ^ 128 ∧
        (∀ p ∈ Halves.dropped (Halves.limbs a 4) (Halves.limbs b 4) 4, p % 2 ^ 32 = 0) ↔
        ¬(2 ^ 128 ≤ Halves.kept (Halves.limbs a 4) (Halves.limbs b 4) 4 ∨
          ∃ p ∈ Halves.dropped (Halves.limbs a 4) (Halves.limbs b 4) 4, p % 2 ^ 32 ≠ 0) := by
      simp only [not_or, not_le, not_exists, not_and, not_not]
    rw [or_iff_right fits]
    by_cases refused : 2 ^ 128 ≤ Halves.kept (Halves.limbs a 4) (Halves.limbs b 4) 4 ∨
        ∃ p ∈ Halves.dropped (Halves.limbs a 4) (Halves.limbs b 4) 4, p % 2 ^ 32 ≠ 0
    · rw [if_neg (fun holds => refuses.mp holds refused)]
      exact iff_of_true rfl refused
    · rw [if_pos (refuses.mpr refused)]
      exact iff_of_false (Option.some_ne_none _) refused

/-- `2 ^ 112 * 2 ^ 112`: the product of the highest limbs is `2 ^ 32`. -/
theorem mulExact_highest : ¬ MulExact (cells (2 ^ 112) (2 ^ 112)) 64 80 := by
  intro exact
  have code := hMul_eq (cells_placed (2 ^ 112) (2 ^ 112) (p := 64) (by decide))
    (cells_placed (2 ^ 112) (2 ^ 112) (p := 80) (by decide))
  have first := cells_first (a := 2 ^ 112) (2 ^ 112) (by decide)
  have second := cells_second (2 ^ 112) (b := 2 ^ 112) (by decide)
  have place : (64 : I64).toNat = 64 := rfl
  have place' : (80 : I64).toNat = 80 := rfl
  unfold MulExact at exact
  rw [place, place', first, second] at exact code
  dsimp only at code
  rw [exact, if_neg (by decide)] at code
  rw [if_pos (by decide)] at code
  cases code

theorem mulExact_iff_small : MulExact (cells (2 ^ 100) (2 ^ 20)) 64 80 := by
  have place : (64 : I64).toNat = 64 := rfl
  have place' : (80 : I64).toNat = 80 := rfl
  refine (mulExact_iff (cells_placed (2 ^ 100) (2 ^ 20) (p := 64) (by decide))
    (cells_placed (2 ^ 100) (2 ^ 20) (p := 80) (by decide))).mpr (.inl ?_)
  rw [place, place', cells_first (a := 2 ^ 100) _ (by decide),
    cells_second _ (b := 2 ^ 20) (by decide)]
  decide

/-! ### Products divided -/

theorem foldl_or_zero (ws : List I64) (w : I64) :
    ws.foldl (· ||| ·) w = 0 ↔ w = 0 ∧ Halves.value ws = 0 := by
  induction ws generalizing w with
  | nil => simp
  | cons x ws ih =>
      have both : w ||| x = 0 ↔ w = 0 ∧ x.toNat = 0 := by
        rw [← BitVec.toNat_inj, BitVec.toNat_or, show (0 : I64).toNat = 0 from rfl,
          Nat.or_eq_zero_iff, ← BitVec.toNat_inj, show (0 : I64).toNat = 0 from rfl]
      rw [List.foldl_cons, ih, both, and_assoc, Halves.value_cons]
      refine and_congr_right fun _ => ?_
      omega

theorem value_take_drop (ws : List I64) (n : Nat) (room : n ≤ ws.length) :
    Halves.value ws = Halves.value (ws.take n) + 2 ^ (32 * n) * Halves.value (ws.drop n) := by
  have digits := Halves.ofDigits_take_drop (ws.map BitVec.toNat) n (by rwa [List.length_map])
  rw [← List.map_take, ← List.map_drop] at digits
  exact digits

theorem valid_take {ws : List I64} (valid : Halves.Valid ws) (n : Nat) :
    Halves.Valid (ws.take n) := fun w mem => valid w (List.mem_of_mem_take mem)

/-- A number's low half is what its low limbs make. -/
theorem value_take {ws : List I64} (valid : Halves.Valid ws) {n : Nat} (room : n ≤ ws.length) :
    Halves.value (ws.take n) = Halves.value ws % 2 ^ (32 * n) := by
  have below := Halves.value_lt (valid_take valid n)
  rw [List.length_take, Nat.min_eq_left room] at below
  rw [value_take_drop ws n room, Nat.add_mul_mod_self_left, Nat.mod_eq_of_lt below]

variable {a b d q : I64}

theorem hMuldiv_eq (placedA : Placed m a 16) (placedB : Placed m b 16) (placedD : Placed m d 16)
    (placedQ : Placed m q 16) :
    let product := m.number a.toNat 16 * m.number b.toNat 16
    let divisor := m.number d.toNat 16
    let stored := m.put q.toNat 16 (product / divisor)
    hMuldiv m a b d q rem =
      if divisor = 0 ∨ 2 ^ 128 ≤ product / divisor then none
      else if rem = 0 then some (stored.put 0 8 (product % divisor % 2 ^ 64))
      else some stored := by
  obtain ⟨as, loadA, lengthA, validA, valueA⟩ := loadHalves_eq placedA
  obtain ⟨bs, loadB, lengthB, validB, valueB⟩ := loadHalves_eq placedB
  obtain ⟨ds, loadD, lengthD, validD, valueD⟩ := loadHalves_eq placedD
  have room : as.length + bs.length = 8 := by rw [lengthA, lengthB]
  have whole := Halves.schoolbook_value validA validB
  obtain ⟨lengthP, validP, -⟩ := Halves.schoolbook_spec validA validB
    (Halves.valid_zeros 8) (by rw [room]; decide)
  rw [room] at whole
  rw [List.length_replicate] at lengthP
  intro product divisor stored
  have zero : ds.foldl (· ||| ·) 0 = 0 ↔ divisor = 0 := by
    rw [foldl_or_zero, valueD]
    exact and_iff_right rfl
  simp only [hMuldiv, loadA, loadB, loadD, Option.bind_eq_bind, Option.bind_some, zero]
  by_cases none : divisor = 0
  · rw [if_pos none, if_pos (.inl none)]
  · have positive : 0 < Halves.value ds := by
      rw [valueD]
      exact Nat.pos_of_ne_zero none
    have divided := Halves.divide_divided (n := 2) validP validD lengthD positive
    rw [lengthP] at divided
    obtain ⟨lengthR, validR, remainder, lengthQ, validQ, quotient⟩ := divided
    rw [Nat.pow_zero, Nat.div_one, whole, valueA, valueB, valueD] at remainder quotient
    rw [lengthP] at lengthQ
    rw [lengthD] at lengthR
    rw [if_neg none]
    generalize Halves.divide (Halves.schoolbook as bs (List.replicate 8 0)) ds 256 = result at *
    obtain ⟨rs, qs⟩ := result
    dsimp only at *
    have upper := value_take_drop qs 4 (by omega)
    have lower := Halves.value_lt (valid_take validQ 4)
    rw [List.length_take, lengthQ, show min 4 8 = 4 from rfl] at lower
    have large : (qs.drop 4).foldl (· ||| ·) 0 ≠ 0 ↔ 2 ^ 128 ≤ product / divisor := by
      rw [ne_eq, foldl_or_zero, ← show Halves.value qs = product / divisor from quotient]
      simp only [true_and]
      omega
    by_cases exceeds : 2 ^ 128 ≤ product / divisor
    · rw [if_pos (large.mpr exceeds), if_pos (.inr exceeds)]
    · have low : Halves.value (qs.take 4) = product / divisor := by
        rw [value_take validQ (by omega), quotient]
        exact Nat.mod_eq_of_lt (Nat.lt_of_not_le exceeds)
      have storedQ := storeHalves placedQ
        (show (qs.take 4).length = 4 by rw [List.length_take, lengthQ]; rfl)
        (valid_take validQ 4)
      rw [if_neg (mt large.mp exceeds), if_neg (not_or.mpr ⟨none, exceeds⟩), storedQ, low,
        Option.bind_some]
      split_ifs with pointer
      · subst pointer
        have placedR : Placed (m.put q.toNat 16 (product / divisor)) 0 8 :=
          ⟨by
              have inside := placedQ.inside
              rw [show (0 : I64).toNat = 0 from rfl, put_size]
              omega,
            placedQ.small⟩
        have one := Halves.windows_length (n := 1)
          (show (rs.take 2).length = 2 * 1 by rw [List.length_take, lengthR]; rfl)
        have storedR := placedR.storeWords (Halves.windows (rs.take 2))
          (show 0 + 8 * (Halves.windows (rs.take 2)).length ≤ 8 by rw [one])
        rw [storedR, one, Halves.windows_value (n := 1) (by rw [List.length_take, lengthR]; rfl)
          (valid_take validR 2), value_take validR (by omega), remainder]
        rfl
      · rfl

/-- The quotient and, where there is a pointer for it, the remainder come out if there is a quotient
that fits, and nothing does if there is none. -/
def MuldivExact (m : LinearMemory) (a b d q rem : I64) : Prop :=
  let product := m.number a.toNat 16 * m.number b.toNat 16
  let divisor := m.number d.toNat 16
  let stored := m.put q.toNat 16 (product / divisor)
  hMuldiv m a b d q rem =
    if divisor = 0 ∨ 2 ^ 128 ≤ product / divisor then none
    else if rem = 0 then some stored
    else some (stored.put rem.toNat 16 (product % divisor))

theorem muldivExact_iff (placedA : Placed m a 16) (placedB : Placed m b 16)
    (placedD : Placed m d 16) (placedQ : Placed m q 16) :
    let product := m.number a.toNat 16 * m.number b.toNat 16
    let divisor := m.number d.toNat 16
    let stored := m.put q.toNat 16 (product / divisor)
    MuldivExact m a b d q rem ↔
      divisor = 0 ∨ 2 ^ 128 ≤ product / divisor ∨
        if rem = 0 then stored.number 0 8 = product % divisor % 2 ^ 64
        else stored.number rem.toNat 16 = product % divisor := by
  intro product divisor stored
  have small : divisor ≠ 0 → product % divisor < 256 ^ 16 := fun some =>
    (Nat.mod_lt _ (Nat.pos_of_ne_zero some)).trans (number_lt d.toNat 16)
  have word : product % divisor % 2 ^ 64 < 256 ^ 8 := Nat.mod_lt _ (by decide)
  have code := @hMuldiv_eq m rem a b d q placedA placedB placedD placedQ
  dsimp only at code
  rw [MuldivExact, code, ← or_assoc]
  by_cases refused : divisor = 0 ∨ 2 ^ 128 ≤ product / divisor
  · rw [if_pos refused, if_pos refused]
    exact iff_of_true rfl (.inl refused)
  · rw [if_neg refused, if_neg refused, or_iff_right refused]
    split_ifs with pointer
    · rw [← put_eq_self_iff word]
      exact ⟨Option.some.inj, congrArg some⟩
    · rw [← put_eq_self_iff (small (not_or.mp refused).1)]
      exact ⟨fun same => (Option.some.inj same).symm, fun same => congrArg some same.symm⟩

/-- `3 * 3 / 5`: the remainder is not stored where the pointer says. -/
theorem muldivExact_remainder : ¬ MuldivExact (cells 3 5) 64 64 80 96 112 := by
  intro exact
  have code := @hMuldiv_eq (cells 3 5) 112 64 64 80 96 (cells_placed 3 5 (by decide))
    (cells_placed 3 5 (by decide)) (cells_placed 3 5 (by decide)) (cells_placed 3 5 (by decide))
  have place : (64 : I64).toNat = 64 := rfl
  have place' : (80 : I64).toNat = 80 := rfl
  unfold MuldivExact at exact
  dsimp only at exact code
  rw [place, place', cells_first (a := 3) _ (by decide), cells_second _ (b := 5) (by decide)]
    at exact code
  rw [exact, if_neg (by decide), if_neg (by decide), if_neg (by decide), if_neg (by decide)] at code
  have same := (put_eq_self_iff (by decide)).mp (Option.some.inj code)
  have zero : ((cells 3 5).put 96 16 (3 * 3 / 5)).number 112 16 = 0 := by
    rw [number_put_apart (.inr (by decide)), cells, number_put_apart (.inr (by decide)),
      number_put_apart (.inr (by decide))]
    decide
  have placeR : (112 : I64).toNat = 112 := rfl
  have placeQ : (96 : I64).toNat = 96 := rfl
  rw [placeR, placeQ, zero] at same
  revert same
  decide

theorem muldivExact_iff_divided : MuldivExact (cells 3 0) 64 64 80 96 112 := by
  refine (muldivExact_iff (cells_placed 3 0 (p := 64) (by decide))
    (cells_placed 3 0 (p := 64) (by decide)) (cells_placed 3 0 (p := 80) (by decide))
    (cells_placed 3 0 (p := 96) (by decide))).mpr (.inl ?_)
  exact cells_second 3 (by decide)

end U128

end LispRlm.WasmEmit
