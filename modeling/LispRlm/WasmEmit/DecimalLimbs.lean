import LispRlm.NearMock.State

/-! The emitted helpers that read a `u128` from decimal text and render one as text. -/

namespace LispRlm.WasmEmit

open NearMock

/-! ### Decimal text -/

theorem decimal_small {n : Nat} (small : n < 10) : decimal n = [digitByte n] := by
  cases n with
  | zero => rfl
  | succ n =>
      rw [decimal, Nat.digits_of_lt 10 (n + 1) (Nat.succ_ne_zero n) small]
      rfl

theorem decimal_step {n : Nat} (large : 10 ≤ n) :
    decimal n = decimal (n / 10) ++ [digitByte (n % 10)] := by
  obtain ⟨k, rfl⟩ : ∃ k, n = k + 1 := ⟨n - 1, by omega⟩
  obtain ⟨j, quotient⟩ : ∃ j, (k + 1) / 10 = j + 1 := ⟨(k + 1) / 10 - 1, by omega⟩
  rw [decimal, Nat.digits_def' (by decide) (Nat.succ_pos k), List.reverse_cons, List.map_append,
    quotient, decimal]
  rfl

theorem decimal_ne_nil (n : Nat) : decimal n ≠ [] := by
  cases n with
  | zero => exact List.cons_ne_nil _ _
  | succ n => simp [decimal]

theorem toNat_digitByte {d : Nat} (small : d < 10) : (digitByte d).toNat = 48 + d := by
  simp only [digitByte, Nat.toUInt8, UInt8.toNat_ofNat']
  omega

/-- The last `k` digits, with the zeros in front of them. -/
def padded : Nat → Nat → Bytes
  | 0, _ => []
  | k + 1, r => padded k (r / 10) ++ [digitByte (r % 10)]

theorem decimal_append {q : Nat} (positive : 0 < q) (k r : Nat) (small : r < 10 ^ k) :
    decimal (q * 10 ^ k + r) = decimal q ++ padded k r := by
  induction k generalizing r with
  | zero =>
      obtain rfl : r = 0 := by omega
      simp [padded]
  | succ k ih =>
      rw [Nat.pow_succ] at small ⊢
      have power : 1 ≤ 10 ^ k := Nat.one_le_two_pow.trans (Nat.pow_le_pow_left (by decide) k)
      have quotient : (q * (10 ^ k * 10) + r) / 10 = q * 10 ^ k + r / 10 := by
        rw [← Nat.mul_assoc]
        omega
      have digit : (q * (10 ^ k * 10) + r) % 10 = r % 10 := by
        rw [← Nat.mul_assoc]
        omega
      have large : 10 ≤ q * (10 ^ k * 10) + r := by
        have product : 1 ≤ q * 10 ^ k := Nat.mul_pos positive power
        rw [← Nat.mul_assoc]
        omega
      rw [decimal_step large, quotient, digit, ih (r / 10) (by omega), padded, List.append_assoc]

theorem padded_zero (k : Nat) : padded k 0 = List.replicate k (digitByte 0) := by
  induction k with
  | zero => rfl
  | succ k ih => rw [padded, Nat.zero_div, ih, Nat.zero_mod, List.replicate_succ']

theorem padded_eq {k r : Nat} (small : r < 10 ^ (k + 1)) :
    padded (k + 1) r =
      List.replicate (k + 1 - (decimal r).length) (digitByte 0) ++ decimal r := by
  induction k generalizing r with
  | zero =>
      have small' : r < 10 := small
      rw [decimal_small small', padded, padded, Nat.mod_eq_of_lt small']
      rfl
  | succ k ih =>
      rw [padded]
      rcases Nat.lt_or_ge r 10 with one | more
      · rw [decimal_small one, Nat.div_eq_of_lt one, padded_zero, Nat.mod_eq_of_lt one]
        rfl
      · have quotient : r / 10 < 10 ^ (k + 1) := by
          rw [Nat.pow_succ] at small
          exact Nat.div_lt_of_lt_mul (by omega)
        rw [ih quotient, decimal_step more, List.length_append, List.length_singleton,
          List.append_assoc, Nat.add_sub_add_right]

/-! ### `__h_u128_parse` -/

/-- Four 32-bit limbs, the least one first. -/
structure Limbs where
  l0 : Nat
  l1 : Nat
  l2 : Nat
  l3 : Nat

namespace Limbs

def value (l : Limbs) : Nat := l.l0 + l.l1 * 2 ^ 32 + l.l2 * 2 ^ 64 + l.l3 * 2 ^ 96

def Valid (l : Limbs) : Prop := l.l0 < 2 ^ 32 ∧ l.l1 < 2 ^ 32 ∧ l.l2 < 2 ^ 32 ∧ l.l3 < 2 ^ 32

theorem value_lt {l : Limbs} (valid : l.Valid) : l.value < u128 := by
  obtain ⟨h0, h1, h2, h3⟩ := valid
  unfold value u128
  omega

end Limbs

/-- A limb times ten, and the carry of the limb before it. -/
def mulAdd (limb carry : Nat) : Nat × Nat :=
  let t := limb * 10 + carry
  (t % 2 ^ 32, t / 2 ^ 32)

/-- One digit more. No digit and a carry out of the last limb trap. -/
def parseStep (l : Limbs) (ch : UInt8) : Option Limbs :=
  if ch.toNat < 48 ∨ 57 < ch.toNat then none
  else
    let t0 := mulAdd l.l0 (ch.toNat - 48)
    let t1 := mulAdd l.l1 t0.2
    let t2 := mulAdd l.l2 t1.2
    let t3 := mulAdd l.l3 t2.2
    if t3.2 = 0 then some ⟨t0.1, t1.1, t2.1, t3.1⟩ else none

def hParse (text : Bytes) : Option Nat :=
  if text = [] then none else (text.foldlM parseStep ⟨0, 0, 0, 0⟩).map Limbs.value

theorem parseStep_valid {l l' : Limbs} {ch : UInt8} (stepped : parseStep l ch = some l') :
    l'.Valid := by
  unfold parseStep at stepped
  split at stepped
  · cases stepped
  · dsimp only at stepped
    split at stepped
    · cases stepped
      exact ⟨Nat.mod_lt _ (by decide), Nat.mod_lt _ (by decide), Nat.mod_lt _ (by decide),
        Nat.mod_lt _ (by decide)⟩
    · cases stepped

theorem parseStep_digit {l : Limbs} {d : Nat} (small : d < 10)
    (fits : l.value * 10 + d < u128) :
    ∃ l', parseStep l (digitByte d) = some l' ∧ l'.value = l.value * 10 + d := by
  have digit := toNat_digitByte small
  have isDigit : ¬((digitByte d).toNat < 48 ∨ 57 < (digitByte d).toNat) := by omega
  unfold parseStep
  rw [if_neg isDigit]
  unfold Limbs.value u128 at fits
  have noCarry : (mulAdd l.l3 (mulAdd l.l2 (mulAdd l.l1
      (mulAdd l.l0 ((digitByte d).toNat - 48)).2).2).2).2 = 0 := by
    simp only [mulAdd]
    omega
  dsimp only
  rw [if_pos noCarry]
  refine ⟨_, rfl, ?_⟩
  simp only [Limbs.value, mulAdd]
  omega

theorem foldlM_valid {text : Bytes} {l l' : Limbs} (valid : l.Valid)
    (parsed : text.foldlM parseStep l = some l') : l'.Valid := by
  induction text generalizing l with
  | nil =>
      cases parsed
      exact valid
  | cons ch rest ih =>
      rw [List.foldlM_cons] at parsed
      obtain ⟨next, stepped, rest⟩ := Option.bind_eq_some_iff.mp parsed
      exact ih (parseStep_valid stepped) rest

/-- Only numbers below 2^128 are read. -/
theorem hParse_lt {text : Bytes} {n : Nat} (parsed : hParse text = some n) : n < u128 := by
  unfold hParse at parsed
  split at parsed
  · cases parsed
  · obtain ⟨l, folded, rfl⟩ := Option.map_eq_some_iff.mp parsed
    have start : Limbs.Valid ⟨0, 0, 0, 0⟩ := ⟨by decide, by decide, by decide, by decide⟩
    exact Limbs.value_lt (foldlM_valid start folded)

theorem foldlM_decimal (n : Nat) (fits : n < u128) :
    ∃ l, (decimal n).foldlM parseStep ⟨0, 0, 0, 0⟩ = some l ∧ l.value = n := by
  induction n using Nat.strong_induction_on with
  | h n ih =>
      rcases Nat.lt_or_ge n 10 with small | large
      · obtain ⟨l, stepped, value⟩ :=
          @parseStep_digit ⟨0, 0, 0, 0⟩ n small (by simpa [Limbs.value] using fits)
        refine ⟨l, ?_, by simpa [Limbs.value] using value⟩
        rw [decimal_small small, List.foldlM_cons, stepped]
        rfl
      · obtain ⟨front, folded, value⟩ := ih (n / 10) (by omega) (by omega)
        obtain ⟨l, stepped, total⟩ :=
          @parseStep_digit front (n % 10) (Nat.mod_lt n (by decide)) (by rw [value]; omega)
        refine ⟨l, ?_, by rw [total, value]; omega⟩
        rw [decimal_step large, List.foldlM_append, folded]
        simp only [Option.bind_eq_bind, Option.bind_some, List.foldlM_cons, stepped,
          List.foldlM_nil]
        rfl

theorem hParse_decimal {n : Nat} (fits : n < u128) : hParse (decimal n) = some n := by
  obtain ⟨l, folded, rfl⟩ := foldlM_decimal n fits
  rw [hParse, if_neg (decimal_ne_nil _), folded]
  rfl

/-! ### `__h_u128_to_str` -/

def chunkBase : Nat := 1000000000000000000

/-- The binary long division of `n`, `i` bits before its end: the quotient so far and the
remainder. -/
def divideBits (n : Nat) : Nat → Nat → Nat → Nat × Nat
  | 0, q, r => (q, r)
  | i + 1, q, r =>
      let r := 2 * r + n / 2 ^ i % 2
      if chunkBase ≤ r then divideBits n i (q + 2 ^ i) (r - chunkBase) else divideBits n i q r

/-- The digits of a chunk, written from the last one on. -/
def chunkDigits (chunk : Nat) (text : Bytes) : Bytes :=
  if chunk / 10 = 0 then digitByte (chunk % 10) :: text
  else chunkDigits (chunk / 10) (digitByte (chunk % 10) :: text)

/-- A chunk before which others come has 18 digits. -/
def padChunk (digits : Bytes) : Bytes := List.replicate (18 - digits.length) 48 ++ digits

theorem divideBits_eq (n i q r : Nat) (small : r < chunkBase) :
    divideBits n i q r =
      (q + (r * 2 ^ i + n % 2 ^ i) / chunkBase, (r * 2 ^ i + n % 2 ^ i) % chunkBase) := by
  induction i generalizing q r with
  | zero =>
      rw [divideBits, Nat.pow_zero, Nat.mod_one, Nat.mul_one, Nat.add_zero,
        Nat.div_eq_of_lt small, Nat.mod_eq_of_lt small, Nat.add_zero]
  | succ i ih =>
      have bits : n % 2 ^ (i + 1) = n % 2 ^ i + 2 ^ i * (n / 2 ^ i % 2) := by
        rw [Nat.pow_succ, Nat.mod_mul]
      have whole : r * 2 ^ (i + 1) + n % 2 ^ (i + 1) =
          (2 * r + n / 2 ^ i % 2) * 2 ^ i + n % 2 ^ i := by
        rw [bits, Nat.pow_succ]
        ring
      rw [divideBits, whole]
      have bit : n / 2 ^ i % 2 < 2 := Nat.mod_lt _ (by decide)
      have bound : 2 * r + n / 2 ^ i % 2 < 2 * chunkBase := by omega
      generalize 2 * r + n / 2 ^ i % 2 = next at *
      by_cases subtract : chunkBase ≤ next
      · simp only [if_pos subtract]
        rw [ih _ _ (by omega)]
        have back : next * 2 ^ i + n % 2 ^ i =
            ((next - chunkBase) * 2 ^ i + n % 2 ^ i) + chunkBase * 2 ^ i := by
          obtain ⟨k, rfl⟩ := Nat.exists_eq_add_of_le subtract
          rw [Nat.add_sub_cancel_left]
          ring
        rw [back, Nat.add_mul_div_left _ _ (by decide), Nat.add_mul_mod_self_left]
        congr 1
        omega
      · simp only [if_neg subtract]
        rw [ih _ _ (by omega)]

theorem divideBits_128 {n : Nat} (fits : n < u128) :
    divideBits n 128 0 0 = (n / chunkBase, n % chunkBase) := by
  have whole : n % 2 ^ 128 = n := Nat.mod_eq_of_lt fits
  rw [divideBits_eq n 128 0 0 (by decide), whole, Nat.zero_mul, Nat.zero_add,
    Nat.zero_add]

theorem divideBits_lt {n : Nat} (fits : n < u128) (positive : n ≠ 0) :
    (divideBits n 128 0 0).1 < n := by
  rw [divideBits_128 fits]
  exact Nat.div_lt_self (Nat.pos_of_ne_zero positive) (by decide)

/-- The chunks, from the last one on, while something is left. -/
def toStrLoop (n : Nat) (fits : n < u128) (text : Bytes) : Bytes :=
  if positive : n ≠ 0 then
    have less := divideBits_lt fits positive
    let q := (divideBits n 128 0 0).1
    let digits := chunkDigits (divideBits n 128 0 0).2 []
    toStrLoop q (less.trans fits) ((if q ≠ 0 then padChunk digits else digits) ++ text)
  else text
termination_by n

def hToStr (n : Nat) (fits : n < u128) : Bytes :=
  if n = 0 then [48] else toStrLoop n fits []

theorem chunkDigits_eq (chunk : Nat) (text : Bytes) :
    chunkDigits chunk text = decimal chunk ++ text := by
  induction chunk using Nat.strong_induction_on generalizing text with
  | h chunk ih =>
      unfold chunkDigits
      rcases Nat.lt_or_ge chunk 10 with small | large
      · rw [if_pos (Nat.div_eq_of_lt small), decimal_small small, Nat.mod_eq_of_lt small]
        rfl
      · rw [if_neg (by omega), ih (chunk / 10) (by omega), decimal_step large, List.append_assoc]
        rfl

theorem toStrLoop_eq (n : Nat) (fits : n < u128) (positive : n ≠ 0) (text : Bytes) :
    toStrLoop n fits text = decimal n ++ text := by
  induction n using Nat.strong_induction_on generalizing text with
  | h n ih =>
      unfold toStrLoop
      rw [dif_pos positive]
      have divided := divideBits_128 fits
      simp only [divided, chunkDigits_eq, List.append_nil]
      have small : n % chunkBase < 10 ^ (17 + 1) := Nat.mod_lt n (by decide)
      by_cases last : n / chunkBase = 0
      · have whole : n % chunkBase = n := by
          have := Nat.div_add_mod n chunkBase
          rw [last] at this
          omega
        rw [toStrLoop, dif_neg (not_not.mpr last), if_neg (not_not.mpr last), whole]
      · have less : n / chunkBase < n := by
          have := divideBits_lt fits positive
          rw [divided] at this
          exact this
        rw [if_pos last]
        have rest := ih (n / chunkBase) less (less.trans fits) last
          (padChunk (decimal (n % chunkBase)) ++ text)
        rw [rest, ← List.append_assoc]
        congr 1
        have joined := decimal_append (Nat.pos_of_ne_zero last) 18 _ small
        have recombined : n / chunkBase * 10 ^ 18 + n % chunkBase = n := by
          rw [Nat.mul_comm]
          exact Nat.div_add_mod n chunkBase
        rw [recombined, padded_eq small] at joined
        exact joined.symm

/-- What is rendered is the canonical decimal text. -/
theorem hToStr_eq {n : Nat} (fits : n < u128) : hToStr n fits = decimal n := by
  unfold hToStr
  by_cases zero : n = 0
  · subst zero
    rfl
  · rw [if_neg zero, toStrLoop_eq n fits zero, List.append_nil]

end LispRlm.WasmEmit
