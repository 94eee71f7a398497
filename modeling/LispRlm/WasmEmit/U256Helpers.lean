import LispRlm.WasmEmit.U128Helpers
import Mathlib.Data.Nat.Bitwise

/-! The helpers of the emitted code for `u256` arithmetic: cells of 32 bytes. -/

namespace LispRlm.WasmEmit

open Foundation LinearMemory

namespace U256

/-- The words of two limbs each, for the first words of a cell. -/
def loadHalves (m : LinearMemory) (p : I64) (words : Nat) : Option (List I64) :=
  (m.loadWords p 0 words).map Halves.split

/-- `h_u256_mul`: of each factor the two lowest words. -/
def hMul (m : LinearMemory) (a b dst : I64) : Option LinearMemory := do
  let as ← loadHalves m a 2
  let bs ← loadHalves m b 2
  storeWords dst m 0 (Halves.windows (Halves.schoolbook as bs (List.replicate 8 0)))

/-- `h_u256_div` -/
def hDiv (m : LinearMemory) (n d dst : I64) : Option LinearMemory := do
  let ns ← loadHalves m n 4
  let ds ← loadHalves m d 4
  if ds.foldl (· ||| ·) 0 = 0 then none
  else storeWords dst m 0 (Halves.windows (Halves.divide ns ds 256).2)

def rippleAdd (carry : I64) : List I64 → List I64 → List I64
  | v :: vs, w :: ws =>
      let s1 := v + carry
      let carry := Op.ofBool (carry != 0 && v == -1)
      let s := s1 + w
      let carry := Op.ofBool (s.ult w) ||| carry
      s :: rippleAdd carry vs ws
  | _, _ => []

/-- `h_u256_add`: the last carry goes nowhere. -/
def hAdd (m : LinearMemory) (a b dst : I64) : Option LinearMemory := do
  let vs ← m.loadWords a 0 4
  let ws ← m.loadWords b 0 4
  storeWords dst m 0 (rippleAdd 0 vs ws)

/-- `If` on the wrapped word -/
def branches (w : I64) : Bool := w.setWidth 32 != (0 : BitVec 32)

def limbsDown (s : Nat) (vs : List I64) : List I64 := vs.drop s ++ List.replicate s 0

def limbsUp (s : Nat) (vs : List I64) : List I64 :=
  List.replicate s 0 ++ vs.take (vs.length - s)

/-- Whole limbs, by the two lowest bits of their number. -/
def wholeLimbs (move : Nat → List I64 → List I64) (whole : I64) (vs : List I64) : List I64 :=
  let vs := if branches (whole &&& 2) then move 2 vs else vs
  if branches (whole &&& 1) then move 1 vs else vs

def bitsDown (bits : Nat) : List I64 → List I64
  | v :: u :: vs =>
      (if bits ≠ 0 then v >>> bits ||| u <<< (64 - bits) else v >>> bits) :: bitsDown bits (u :: vs)
  | [v] => [v >>> bits]
  | [] => []

def bitsUp (bits : Nat) (below : I64) : List I64 → List I64
  | v :: vs =>
      (if bits ≠ 0 then v <<< bits ||| below >>> (64 - bits) else v <<< bits) :: bitsUp bits v vs
  | [] => []

/-- `h_u256_shr` -/
def hShr (m : LinearMemory) (n k dst : I64) : Option LinearMemory := do
  let vs ← m.loadWords n 0 4
  storeWords dst m 0 (bitsDown (k &&& 63).toNat (wholeLimbs limbsDown (k >>> 6) vs))

/-- `h_u256_shl` -/
def hShl (m : LinearMemory) (n k dst : I64) : Option LinearMemory := do
  let vs ← m.loadWords n 0 4
  storeWords dst m 0 (bitsUp (k &&& 63).toNat 0 (wholeLimbs limbsUp (k >>> 6) vs))

/-- The cascade over the words, the highest first. -/
def greater : List I64 → List I64 → Bool
  | [x], [y] => y.ult x
  | x :: xs, y :: ys => y.ult x || (x == y && greater xs ys)
  | _, _ => false

def equal : List I64 → List I64 → Bool
  | x :: xs, y :: ys => x == y && equal xs ys
  | _, _ => true

def hGt (m : LinearMemory) (a b : I64) : Option Bool := do
  let av ← m.loadWords a 0 4
  let bv ← m.loadWords b 0 4
  some (greater av.reverse bv.reverse)

def hLt (m : LinearMemory) (a b : I64) : Option Bool := do
  let av ← m.loadWords a 0 4
  let bv ← m.loadWords b 0 4
  some (greater bv.reverse av.reverse)

def hEq (m : LinearMemory) (a b : I64) : Option Bool := do
  let av ← m.loadWords a 0 4
  let bv ← m.loadWords b 0 4
  some (equal av bv)

variable {m : LinearMemory} {a b n d k dst : I64}

/-! ### Loads and stores -/

theorem words_zero {ws : List I64} : ws.foldl (· ||| ·) 0 = 0 ↔ Foundation.Limbs.value ws = 0 := by
  have general : ∀ w : I64, ws.foldl (· ||| ·) w = 0 ↔ w = 0 ∧ Foundation.Limbs.value ws = 0 := by
    induction ws with
    | nil => simp
    | cons x ws ih =>
        intro w
        have both : w ||| x = 0 ↔ w = 0 ∧ x.toNat = 0 := by
          rw [← BitVec.toNat_inj, BitVec.toNat_or, show (0 : I64).toNat = 0 from rfl,
            Nat.or_eq_zero_iff, ← BitVec.toNat_inj, show (0 : I64).toNat = 0 from rfl]
        rw [List.foldl_cons, ih, both, and_assoc, Foundation.Limbs.value_cons]
        refine and_congr_right fun _ => ?_
        omega
  rw [general]
  exact and_iff_right rfl

theorem loadHalves_eq {p : I64} (words : Nat) (placed : Placed m p 32) (within : words ≤ 4) :
    ∃ ws, loadHalves m p words = some ws ∧ ws.length = 2 * words ∧ Halves.Valid ws ∧
      Halves.value ws = m.number p.toNat (8 * words) := by
  obtain ⟨ws, loaded, length, value⟩ := placed.loadWords (show 0 + 8 * words ≤ 32 by omega)
  refine ⟨Halves.split ws, by rw [loadHalves, loaded]; rfl, ?_, Halves.split_valid ws, ?_⟩
  · rw [Halves.split_length, length]
  · rw [Halves.split_value]
    exact value

theorem storeHalves {p : I64} (placed : Placed m p 32) {rs : List I64} (length : rs.length = 8)
    (valid : Halves.Valid rs) :
    storeWords p m 0 (Halves.windows rs) = some (m.put p.toNat 32 (Halves.value rs)) := by
  have four := Halves.windows_length (n := 4) length
  have stored := placed.storeWords (Halves.windows rs)
    (show 0 + 8 * (Halves.windows rs).length ≤ 32 by rw [four])
  rw [stored, four, Halves.windows_value (n := 4) length valid]
  rfl

theorem loadCell {p : I64} (placed : Placed m p 32) :
    ∃ ws, m.loadWords p 0 4 = some ws ∧ ws.length = 4 ∧
      Foundation.Limbs.value ws = m.number p.toNat 32 :=
  placed.loadWords (show 0 + 8 * 4 ≤ 32 by decide)

theorem storeCell {p : I64} (placed : Placed m p 32) {ws : List I64} (length : ws.length = 4) :
    storeWords p m 0 ws = some (m.put p.toNat 32 (Foundation.Limbs.value ws)) := by
  rw [placed.storeWords ws (show 0 + 8 * ws.length ≤ 32 by rw [length]), length]
  rfl

theorem number_low {p : Nat} : m.number p 16 = m.number p 32 % 2 ^ 128 := by
  have below := number_lt (m := m) p 16
  rw [number_add p 16 16, show 256 ^ 16 = 2 ^ 128 from rfl, Nat.add_mul_mod_self_left]
  exact (Nat.mod_eq_of_lt below).symm

/-! ### Products and quotients -/

theorem hMul_eq (placedA : Placed m a 32) (placedB : Placed m b 32) (placedQ : Placed m dst 32) :
    hMul m a b dst = some (m.put dst.toNat 32
      (m.number a.toNat 32 % 2 ^ 128 * (m.number b.toNat 32 % 2 ^ 128))) := by
  obtain ⟨as, loadA, lengthA, validA, valueA⟩ := loadHalves_eq 2 placedA (by decide)
  obtain ⟨bs, loadB, lengthB, validB, valueB⟩ := loadHalves_eq 2 placedB (by decide)
  have room : as.length + bs.length = 8 := by rw [lengthA, lengthB]
  have whole := Halves.schoolbook_value validA validB
  obtain ⟨lengthP, validP, -⟩ := Halves.schoolbook_spec validA validB
    (Halves.valid_zeros 8) (by rw [room]; decide)
  rw [room, valueA, valueB, number_low, number_low] at whole
  rw [List.length_replicate] at lengthP
  simp only [hMul, loadA, loadB, Option.bind_eq_bind, Option.bind_some]
  rw [storeHalves placedQ lengthP validP, whole]

theorem hDiv_eq (placedN : Placed m n 32) (placedD : Placed m d 32) (placedQ : Placed m dst 32) :
    hDiv m n d dst =
      if m.number d.toNat 32 = 0 then none
      else some (m.put dst.toNat 32 (m.number n.toNat 32 / m.number d.toNat 32)) := by
  obtain ⟨ns, loadN, lengthN, validN, valueN⟩ := loadHalves_eq 4 placedN (by decide)
  obtain ⟨ds, loadD, lengthD, validD, valueD⟩ := loadHalves_eq 4 placedD (by decide)
  have zero : ds.foldl (· ||| ·) 0 = 0 ↔ m.number d.toNat 32 = 0 := by
    rw [U128.foldl_or_zero, valueD]
    exact and_iff_right rfl
  simp only [hDiv, loadN, loadD, Option.bind_eq_bind, Option.bind_some, zero]
  split_ifs with none
  · rfl
  · have positive : 0 < Halves.value ds := by
      rw [valueD]
      exact Nat.pos_of_ne_zero none
    have divided := Halves.divide_divided (n := 4) validN validD lengthD positive
    rw [lengthN] at divided
    have quotient := divided.quotient
    rw [Nat.pow_zero, Nat.div_one, valueN, valueD] at quotient
    rw [storeHalves placedQ (divided.quotientLength.trans lengthN) divided.quotientValid, quotient]

/-! ### Sums -/

theorem rippleAdd_step {v w carry : I64} (bit : carry.toNat ≤ 1) :
    ∃ out : I64, Op.ofBool ((v + carry + w).ult w) ||| Op.ofBool (carry != 0 && v == -1) = out ∧
      out.toNat ≤ 1 ∧
      (v + carry + w).toNat + 2 ^ 64 * out.toNat = v.toNat + w.toNat + carry.toNat := by
  have boundV := v.isLt
  have boundW := w.isLt
  obtain ⟨c, rfl⟩ : ∃ c : Bool, carry = Op.ofBool c := by
    rcases Nat.le_one_iff_eq_zero_or_eq_one.mp bit with zero | one
    · exact ⟨false, BitVec.eq_of_toNat_eq zero⟩
    · exact ⟨true, BitVec.eq_of_toNat_eq one⟩
  have joined : ∀ x y : Bool, Op.ofBool x ||| Op.ofBool y = Op.ofBool (x || y) := by decide
  have set : (Op.ofBool c != 0) = c := by cases c <;> rfl
  have full : (v == -1) = decide (v.toNat = 2 ^ 64 - 1) := by
    rw [Bool.eq_iff_iff, beq_iff_eq, decide_eq_true_iff, ← BitVec.toNat_inj]
    rfl
  refine ⟨_, joined _ _, ?_, ?_⟩
  · rw [U128.ofBool_toNat]
    exact Bool.toNat_le _
  · rw [U128.ofBool_toNat, U128.ofBool_toNat, set, full, U128.ult_eq, BitVec.toNat_add (v + _),
      BitVec.toNat_add v, U128.ofBool_toNat]
    cases c
    · rw [Bool.toNat_false, Bool.false_and, Bool.or_false]
      by_cases carries : v.toNat + w.toNat < 2 ^ 64
      · rw [decide_eq_false (by omega), Bool.toNat_false]
        omega
      · rw [decide_eq_true (by omega), Bool.toNat_true]
        omega
    · rw [Bool.toNat_true, Bool.true_and]
      by_cases last : v.toNat = 2 ^ 64 - 1
      · rw [decide_eq_true last, Bool.or_true, Bool.toNat_true]
        omega
      · rw [decide_eq_false last, Bool.or_false]
        by_cases carries : v.toNat + 1 + w.toNat < 2 ^ 64
        · rw [decide_eq_false (by omega), Bool.toNat_false]
          omega
        · rw [decide_eq_true (by omega), Bool.toNat_true]
          omega

theorem rippleAdd_spec {carry : I64} {vs ws : List I64} (bit : carry.toNat ≤ 1)
    (same : vs.length = ws.length) :
    (rippleAdd carry vs ws).length = vs.length ∧
      Foundation.Limbs.value (rippleAdd carry vs ws) ≡
        Foundation.Limbs.value vs + Foundation.Limbs.value ws + carry.toNat
        [MOD 2 ^ (64 * vs.length)] := by
  induction vs generalizing ws carry with
  | nil => exact ⟨rfl, by simp [Nat.ModEq, Nat.mod_one]⟩
  | cons v vs ih =>
      cases ws with
      | nil => simp at same
      | cons w ws =>
          obtain ⟨out, found, next, sum⟩ := rippleAdd_step (v := v) (w := w) bit
          obtain ⟨length, rest⟩ := ih next (Nat.succ.inj same)
          have scaled := rest.mul_left' (2 ^ 64)
          have power : 2 ^ (64 * (vs.length + 1)) = 2 ^ 64 * 2 ^ (64 * vs.length) := by
            rw [Nat.mul_succ, Nat.add_comm, Nat.pow_add]
          rw [rippleAdd, found]
          refine ⟨congrArg (· + 1) length, ?_⟩
          rw [List.length_cons, power]
          rw [Foundation.Limbs.value_cons, Foundation.Limbs.value_cons, Foundation.Limbs.value_cons]
          calc (v + carry + w).toNat + 2 ^ 64 * Foundation.Limbs.value (rippleAdd out vs ws)
              ≡ (v + carry + w).toNat +
                  2 ^ 64 * (Foundation.Limbs.value vs + Foundation.Limbs.value ws + out.toNat)
                [MOD 2 ^ 64 * 2 ^ (64 * vs.length)] := scaled.add_left _
            _ = v.toNat + 2 ^ 64 * Foundation.Limbs.value vs +
              (w.toNat + 2 ^ 64 * Foundation.Limbs.value ws) +
                  carry.toNat := by linear_combination sum

theorem hAdd_eq (placedA : Placed m a 32) (placedB : Placed m b 32) (placedQ : Placed m dst 32) :
    hAdd m a b dst = some (m.put dst.toNat 32
      ((m.number a.toNat 32 + m.number b.toNat 32) % 2 ^ 256)) := by
  obtain ⟨vs, loadA, lengthA, valueA⟩ := loadCell placedA
  obtain ⟨ws, loadB, lengthB, valueB⟩ := loadCell placedB
  obtain ⟨length, sum⟩ := rippleAdd_spec (show (0 : I64).toNat ≤ 1 by decide)
    (lengthA.trans lengthB.symm)
  have small := Foundation.Limbs.value_lt (rippleAdd 0 vs ws)
  have zero : (0 : I64).toNat = 0 := rfl
  have width : 64 * 4 = 256 := rfl
  rw [length, lengthA, width] at small
  rw [lengthA, valueA, valueB, zero, Nat.add_zero, width] at sum
  have exact : Foundation.Limbs.value (rippleAdd 0 vs ws) =
      (m.number a.toNat 32 + m.number b.toNat 32) % 2 ^ 256 := by
    rw [← sum]
    exact (Nat.mod_eq_of_lt small).symm
  simp only [hAdd, loadA, loadB, Option.bind_eq_bind, Option.bind_some]
  rw [storeCell placedQ (length.trans lengthA), exact]

/-! ### Shifts -/

theorem branches_bit {w mask : I64} {i : Nat} (low : i < 32) (power : mask.toNat = 2 ^ i) :
    branches (w &&& mask) = w.toNat.testBit i := by
  have masked : (w &&& mask).toNat = (w.toNat.testBit i).toNat * 2 ^ i := by
    rw [BitVec.toNat_and, power, Nat.and_two_pow]
  have small : 2 ^ i < 2 ^ 32 := Nat.pow_lt_pow_right (by decide) low
  rw [branches, Bool.eq_iff_iff, bne_iff_ne, ne_eq, ← BitVec.toNat_inj, BitVec.toNat_setWidth,
    masked]
  cases w.toNat.testBit i
  · simp
  · rw [Bool.toNat_true, Nat.one_mul, Nat.mod_eq_of_lt small]
    simp

theorem power_succ (n : Nat) : 2 ^ (64 * (n + 1)) = 2 ^ 64 * 2 ^ (64 * n) := by
  rw [Nat.mul_succ, Nat.add_comm, Nat.pow_add]

theorem value_zeros (s : Nat) : Foundation.Limbs.value (List.replicate s (0 : I64)) = 0 := by
  induction s with
  | zero => rfl
  | succ s ih => rw [List.replicate_succ, Foundation.Limbs.value_cons, ih]; rfl

theorem limbsDown_spec {s : Nat} {vs : List I64} (room : s ≤ vs.length) :
    (limbsDown s vs).length = vs.length ∧
      Foundation.Limbs.value (limbsDown s vs) = Foundation.Limbs.value vs / 2 ^ (64 * s) := by
  have low := Foundation.Limbs.value_lt (vs.take s)
  rw [List.length_take, Nat.min_eq_left room] at low
  constructor
  · rw [limbsDown, List.length_append, List.length_drop, List.length_replicate]
    omega
  · conv_rhs => rw [← List.take_append_drop s vs, Foundation.Limbs.value_append, List.length_take,
      Nat.min_eq_left room, Nat.add_mul_div_left _ _ (Nat.two_pow_pos _), Nat.div_eq_of_lt low,
      Nat.zero_add]
    rw [limbsDown, Foundation.Limbs.value_append, value_zeros, Nat.mul_zero, Nat.add_zero]

theorem limbsUp_spec {s : Nat} {vs : List I64} (room : s ≤ vs.length) :
    (limbsUp s vs).length = vs.length ∧
      Foundation.Limbs.value (limbsUp s vs) ≡
        Foundation.Limbs.value vs * 2 ^ (64 * s) [MOD 2 ^ (64 * vs.length)] := by
  constructor
  · rw [limbsUp, List.length_append, List.length_take, List.length_replicate]
    omega
  · have split : Foundation.Limbs.value vs = Foundation.Limbs.value (vs.take (vs.length - s)) +
        2 ^ (64 * (vs.length - s)) * Foundation.Limbs.value (vs.drop (vs.length - s)) := by
      conv_lhs => rw [← List.take_append_drop (vs.length - s) vs, Foundation.Limbs.value_append,
        List.length_take, Nat.min_eq_left (Nat.sub_le _ _)]
    have power : 2 ^ (64 * (vs.length - s)) * 2 ^ (64 * s) = 2 ^ (64 * vs.length) := by
      rw [← Nat.pow_add]
      congr 1
      omega
    have moved : Foundation.Limbs.value vs * 2 ^ (64 * s) =
        2 ^ (64 * s) * Foundation.Limbs.value (vs.take (vs.length - s)) +
          2 ^ (64 * vs.length) * Foundation.Limbs.value (vs.drop (vs.length - s)) := by
      rw [← power]
      linear_combination 2 ^ (64 * s) * split
    rw [limbsUp, Foundation.Limbs.value_append, value_zeros, List.length_replicate, Nat.zero_add,
      moved,
      Nat.ModEq, Nat.add_mul_mod_self_left]

/-- A word's bits and those it gets from its neighbour. -/
theorem word_down {v u : I64} {bits : Nat} (low : bits < 64) :
    (v >>> bits ||| u <<< (64 - bits)).toNat =
      v.toNat / 2 ^ bits + 2 ^ (64 - bits) * (u.toNat % 2 ^ bits) := by
  have power : 2 ^ (64 - bits) * 2 ^ bits = 2 ^ 64 := by
    rw [← Nat.pow_add, Nat.sub_add_cancel low.le]
  have word := v.isLt
  have small : v.toNat / 2 ^ bits < 2 ^ (64 - bits) :=
    Nat.div_lt_of_lt_mul (by rw [Nat.mul_comm, power]; exact word)
  have high : (u <<< (64 - bits)).toNat = u.toNat % 2 ^ bits * 2 ^ (64 - bits) := by
    rw [BitVec.toNat_shiftLeft, Nat.shiftLeft_eq, ← power, Nat.mul_comm (2 ^ (64 - bits)),
      Nat.mul_mod_mul_right]
  rw [BitVec.toNat_or, high, BitVec.toNat_ushiftRight, Nat.shiftRight_eq_div_pow, Nat.or_comm,
    ← Nat.shiftLeft_eq, ← Nat.shiftLeft_add_eq_or_of_lt small, Nat.shiftLeft_eq]
  ring

theorem word_up {v u : I64} {bits : Nat} (positive : bits ≠ 0) (low : bits < 64) :
    (v <<< bits ||| u >>> (64 - bits)).toNat =
      2 ^ bits * (v.toNat % 2 ^ (64 - bits)) + u.toNat / 2 ^ (64 - bits) := by
  have turned := word_down (v := u) (u := v) (show 64 - bits < 64 by omega)
  rw [Nat.sub_sub_self low.le] at turned
  rw [BitVec.or_comm, turned, Nat.add_comm]

theorem bitsDown_spec {bits : Nat} (low : bits < 64) (vs : List I64) :
    (bitsDown bits vs).length = vs.length ∧
      Foundation.Limbs.value (bitsDown bits vs) = Foundation.Limbs.value vs / 2 ^ bits := by
  have power : 2 ^ (64 - bits) * 2 ^ bits = 2 ^ 64 := by
    rw [← Nat.pow_add, Nat.sub_add_cancel low.le]
  induction vs with
  | nil => simp [bitsDown]
  | cons v vs ih =>
      cases vs with
      | nil => simp [bitsDown, Nat.shiftRight_eq_div_pow]
      | cons u vs =>
          obtain ⟨length, rest⟩ := ih
          refine ⟨congrArg (· + 1) length, ?_⟩
          rw [bitsDown, Foundation.Limbs.value_cons, rest, Foundation.Limbs.value_cons v, ← power]
          have above : Foundation.Limbs.value (u :: vs) % 2 ^ bits = u.toNat % 2 ^ bits := by
            rw [Foundation.Limbs.value_cons, ← power, Nat.mul_comm (2 ^ (64 - bits)), Nat.mul_assoc,
              Nat.add_mul_mod_self_left]
          have whole := Nat.mod_add_div (Foundation.Limbs.value (u :: vs)) (2 ^ bits)
          rw [above] at whole
          rw [Nat.mul_comm (2 ^ (64 - bits)) (2 ^ bits),
            Nat.mul_assoc (2 ^ bits) _ (Foundation.Limbs.value _),
            Nat.add_mul_div_left _ _ (Nat.two_pow_pos bits)]
          split_ifs with positive
          · rw [word_down low]
            linear_combination 2 ^ (64 - bits) * whole
          · obtain rfl : bits = 0 := by omega
            simp

theorem bitsUp_spec {bits : Nat} (low : bits < 64) (below : I64) (vs : List I64) :
    (bitsUp bits below vs).length = vs.length ∧
      Foundation.Limbs.value (bitsUp bits below vs) ≡
        Foundation.Limbs.value vs * 2 ^ bits +
          (if bits ≠ 0 then below.toNat / 2 ^ (64 - bits) else 0)
        [MOD 2 ^ (64 * vs.length)] := by
  have power : 2 ^ (64 - bits) * 2 ^ bits = 2 ^ 64 := by
    rw [← Nat.pow_add, Nat.sub_add_cancel low.le]
  induction vs generalizing below with
  | nil => exact ⟨rfl, by simp [Nat.ModEq, Nat.mod_one]⟩
  | cons v vs ih =>
      obtain ⟨length, rest⟩ := ih v
      have scaled := rest.mul_left' (2 ^ 64)
      refine ⟨congrArg (· + 1) length, ?_⟩
      rw [List.length_cons, power_succ, bitsUp, Foundation.Limbs.value_cons,
        Foundation.Limbs.value_cons]
      refine (scaled.add_left _).trans ?_
      split_ifs with positive
      · have whole := Nat.mod_add_div v.toNat (2 ^ (64 - bits))
        rw [word_up positive low]
        refine congrArg (· % _) ?_
        linear_combination 2 ^ bits * whole - v.toNat / 2 ^ (64 - bits) * power
      · obtain rfl : bits = 0 := by omega
        refine congrArg (· % _) ?_
        simp

/-- Two limbs and one limb, by the two bits, are as many limbs as the bits say. -/
theorem wholeLimbs_eq (move : Nat → List I64 → List I64) (k : I64) (vs : List I64) :
    wholeLimbs move (k >>> 6) vs =
      (if k.toNat / 64 % 2 = 1 then move 1 else id)
        ((if k.toNat / 64 / 2 % 2 = 1 then move 2 else id) vs) := by
  have word : (k >>> 6).toNat = k.toNat / 64 := by
    rw [BitVec.toNat_ushiftRight, Nat.shiftRight_eq_div_pow]
  unfold wholeLimbs
  rw [branches_bit (i := 1) (by decide) rfl, branches_bit (i := 0) (by decide) rfl, word,
    Nat.testBit_eq_decide_div_mod_eq, Nat.testBit_eq_decide_div_mod_eq, Nat.pow_one, Nat.pow_zero,
    Nat.div_one]
  simp only [decide_eq_true_eq]
  split_ifs <;> rfl

theorem shift_split (k : Nat) :
    2 ^ (k % 256) = 2 ^ (if k / 64 / 2 % 2 = 1 then 64 * 2 else 0) *
      2 ^ (if k / 64 % 2 = 1 then 64 * 1 else 0) * 2 ^ (k % 64) := by
  rw [← Nat.pow_add, ← Nat.pow_add]
  congr 1
  split_ifs <;> omega

theorem low_bits (k : I64) : (k &&& 63).toNat = k.toNat % 64 := by
  rw [BitVec.toNat_and]
  exact Nat.and_two_pow_sub_one_eq_mod k.toNat 6

theorem move_down {s : Nat} {vs : List I64} (room : s ≤ 4) (length : vs.length = 4) (c : Prop)
    [Decidable c] :
    ((if c then limbsDown s else id) vs).length = 4 ∧
      Foundation.Limbs.value ((if c then limbsDown s else id) vs) =
        Foundation.Limbs.value vs / 2 ^ (if c then 64 * s else 0) := by
  split_ifs
  · rw [← length] at room
    obtain ⟨same, value⟩ := limbsDown_spec room
    exact ⟨same.trans length, value⟩
  · exact ⟨length, by simp⟩

theorem move_up {s : Nat} {vs : List I64} (room : s ≤ 4) (length : vs.length = 4) (c : Prop)
    [Decidable c] :
    ((if c then limbsUp s else id) vs).length = 4 ∧
      Foundation.Limbs.value ((if c then limbsUp s else id) vs) ≡
        Foundation.Limbs.value vs * 2 ^ (if c then 64 * s else 0) [MOD 2 ^ 256] := by
  split_ifs
  · rw [← length] at room
    obtain ⟨same, value⟩ := limbsUp_spec room
    rw [length] at value
    exact ⟨same.trans length, value⟩
  · exact ⟨length, by simp [Nat.ModEq]⟩

theorem hShr_eq (placedN : Placed m n 32) (placedQ : Placed m dst 32) :
    hShr m n k dst = some (m.put dst.toNat 32 (m.number n.toNat 32 / 2 ^ (k.toNat % 256))) := by
  obtain ⟨vs, loadN, lengthN, valueN⟩ := loadCell placedN
  obtain ⟨length2, value2⟩ := move_down (s := 2) (by decide) lengthN (k.toNat / 64 / 2 % 2 = 1)
  obtain ⟨length1, value1⟩ := move_down (s := 1) (by decide) length2 (k.toNat / 64 % 2 = 1)
  rw [← wholeLimbs_eq] at length1 value1
  have small : (k &&& 63).toNat < 64 := by
    rw [low_bits]
    exact Nat.mod_lt _ (by decide)
  obtain ⟨length, value⟩ := bitsDown_spec small (wholeLimbs limbsDown (k >>> 6) vs)
  have exact : Foundation.Limbs.value
      (bitsDown (k &&& 63).toNat (wholeLimbs limbsDown (k >>> 6) vs)) =
      m.number n.toNat 32 / 2 ^ (k.toNat % 256) := by
    rw [value, value1, value2, valueN, low_bits, Nat.div_div_eq_div_mul, Nat.div_div_eq_div_mul,
      shift_split, Nat.mul_assoc]
  simp only [hShr, loadN, Option.bind_eq_bind, Option.bind_some]
  rw [storeCell placedQ (length.trans length1), exact]

theorem hShl_eq (placedN : Placed m n 32) (placedQ : Placed m dst 32) :
    hShl m n k dst =
      some (m.put dst.toNat 32 (m.number n.toNat 32 * 2 ^ (k.toNat % 256) % 2 ^ 256)) := by
  obtain ⟨vs, loadN, lengthN, valueN⟩ := loadCell placedN
  obtain ⟨length2, value2⟩ := move_up (s := 2) (by decide) lengthN (k.toNat / 64 / 2 % 2 = 1)
  obtain ⟨length1, value1⟩ := move_up (s := 1) (by decide) length2 (k.toNat / 64 % 2 = 1)
  rw [← wholeLimbs_eq] at length1 value1
  have small : (k &&& 63).toNat < 64 := by
    rw [low_bits]
    exact Nat.mod_lt _ (by decide)
  obtain ⟨length, value⟩ := bitsUp_spec small 0 (wholeLimbs limbsUp (k >>> 6) vs)
  have width : 64 * 4 = 256 := rfl
  have nothing : (if (k &&& 63).toNat ≠ 0 then
      (0 : I64).toNat / 2 ^ (64 - (k &&& 63).toNat) else 0) = 0 := by
    rw [show (0 : I64).toNat = 0 from rfl, Nat.zero_div, ite_self]
  rw [length1, width, nothing, Nat.add_zero] at value
  have bound := Foundation.Limbs.value_lt
      (bitsUp (k &&& 63).toNat 0 (wholeLimbs limbsUp (k >>> 6) vs))
  rw [length, length1, width] at bound
  have exact : Foundation.Limbs.value
      (bitsUp (k &&& 63).toNat 0 (wholeLimbs limbsUp (k >>> 6) vs)) =
      m.number n.toNat 32 * 2 ^ (k.toNat % 256) % 2 ^ 256 := by
    rw [← Nat.mod_eq_of_lt bound, shift_split, ← valueN, ← low_bits, ← Nat.mul_assoc,
      ← Nat.mul_assoc]
    exact value.trans ((value1.trans (value2.mul_right _)).mul_right _)
  simp only [hShl, loadN, Option.bind_eq_bind, Option.bind_some]
  rw [storeCell placedQ (length.trans length1), exact]

/-! ### Comparison -/

theorem greater_eq {xs ys : List I64} (same : xs.length = ys.length) (nonempty : xs ≠ []) :
    greater xs ys = !Foundation.Limbs.geqDown ys xs := by
  induction xs generalizing ys with
  | nil => exact (nonempty rfl).elim
  | cons x xs ih =>
      cases ys with
      | nil => simp at same
      | cons y ys =>
          rw [Foundation.Limbs.geqDown]
          cases xs with
          | nil =>
              obtain rfl : ys = [] := List.eq_nil_of_length_eq_zero (Nat.succ.inj same).symm
              rw [greater, U128.ult_eq]
              simp only [BitVec.lt_def, Foundation.Limbs.geqDown]
              split_ifs with below above
              · exact decide_eq_false (by omega)
              · exact decide_eq_true above
              · exact decide_eq_false above
          | cons x' xs =>
              have rest := ih (Nat.succ.inj same) (List.cons_ne_nil x' xs)
              rw [greater.eq_2 _ _ _ _ (by simp), rest, U128.ult_eq]
              simp only [BitVec.lt_def]
              split_ifs with below above
              · have different : (x == y) = false := by
                  rw [beq_eq_false_iff_ne]
                  rintro rfl
                  exact Nat.lt_irrefl _ below
                rw [decide_eq_false (by omega), different]
                rfl
              · rw [decide_eq_true above, Bool.true_or]
                rfl
              · have equal : (x == y) = true := by
                  rw [beq_iff_eq, ← BitVec.toNat_inj]
                  omega
                rw [decide_eq_false above, equal, Bool.false_or, Bool.true_and]

theorem greater_iff {xs ys : List I64} (same : xs.length = ys.length) (nonempty : xs ≠ []) :
    greater xs.reverse ys.reverse =
      decide (Foundation.Limbs.value ys < Foundation.Limbs.value xs) := by
  have lengths : ys.reverse.length = xs.reverse.length := by
    rw [List.length_reverse, List.length_reverse, same]
  have least := Foundation.Limbs.geqDown_iff lengths
  rw [List.reverse_reverse, List.reverse_reverse] at least
  rw [greater_eq lengths.symm (by rwa [ne_eq, List.reverse_eq_nil_iff]), Bool.eq_iff_iff,
    Bool.not_eq_true', decide_eq_true_iff, ← Bool.not_eq_true, least, Nat.not_le]

theorem equal_iff {xs ys : List I64} (same : xs.length = ys.length) :
    equal xs ys = decide (Foundation.Limbs.value xs = Foundation.Limbs.value ys) := by
  induction xs generalizing ys with
  | nil =>
      obtain rfl : ys = [] := List.eq_nil_of_length_eq_zero same.symm
      rfl
  | cons x xs ih =>
      cases ys with
      | nil => simp at same
      | cons y ys =>
          have wordX := x.isLt
          have wordY := y.isLt
          rw [equal, ih (Nat.succ.inj same), Bool.eq_iff_iff, Bool.and_eq_true, beq_iff_eq,
            decide_eq_true_iff, decide_eq_true_iff, ← BitVec.toNat_inj, Foundation.Limbs.value_cons,
            Foundation.Limbs.value_cons]
          omega

theorem compare_eq (placedA : Placed m a 32) (placedB : Placed m b 32) :
    hLt m a b = some (decide (m.number a.toNat 32 < m.number b.toNat 32)) ∧
      hGt m a b = some (decide (m.number b.toNat 32 < m.number a.toNat 32)) ∧
      hEq m a b = some (decide (m.number a.toNat 32 = m.number b.toNat 32)) := by
  obtain ⟨as, loadA, lengthA, valueA⟩ := loadCell placedA
  obtain ⟨bs, loadB, lengthB, valueB⟩ := loadCell placedB
  have same : as.length = bs.length := lengthA.trans lengthB.symm
  have someA : as ≠ [] := by
    rintro rfl
    cases lengthA
  have someB : bs ≠ [] := by
    rintro rfl
    cases lengthB
  simp only [hLt, hGt, hEq, loadA, loadB, Option.bind_eq_bind, Option.bind_some]
  rw [greater_iff same.symm someB, greater_iff same someA, equal_iff same, valueA, valueB]
  exact ⟨rfl, rfl, rfl⟩

/-! ### Exactness -/

inductive Operator
  | mul | div | add | shl | shr | lt | gt | eq
  deriving DecidableEq

/-- What an operation leaves: the memory with a result, or the memory and a boolean. -/
inductive Answer
  | stored (m : LinearMemory)
  | truth (m : LinearMemory) (holds : Bool)

namespace Operator

/-- The operators whose second operand is a count and not a cell. -/
def counts : Operator → Bool
  | .shl | .shr => true
  | _ => false

/-- The code of an operator on its parsed operands. -/
def run (m : LinearMemory) (a b dst : I64) : Operator → Option Answer
  | .mul => (hMul m a b dst).map .stored
  | .div => (hDiv m a b dst).map .stored
  | .add => (hAdd m a b dst).map .stored
  | .shl => (hShl m a b dst).map .stored
  | .shr => (hShr m a b dst).map .stored
  | .lt => (hLt m a b).map (.truth m)
  | .gt => (hGt m a b).map (.truth m)
  | .eq => (hEq m a b).map (.truth m)

def second (op : Operator) (m : LinearMemory) (b : I64) : Nat :=
  if op.counts then b.toNat else m.number b.toNat 32

/-- What an operator means: a number or a boolean, or a trap. -/
def means (x y : Nat) : Operator → Option (Nat ⊕ Bool)
  | .mul => if x * y < 2 ^ 256 then some (.inl (x * y)) else none
  | .div => if y = 0 then none else some (.inl (x / y))
  | .add => if x + y < 2 ^ 256 then some (.inl (x + y)) else none
  | .shl => some (.inl (x * 2 ^ y % 2 ^ 256))
  | .shr => some (.inl (x / 2 ^ y))
  | .lt => some (.inr (decide (x < y)))
  | .gt => some (.inr (decide (y < x)))
  | .eq => some (.inr (decide (x = y)))

def leaves (m : LinearMemory) (dst : I64) : Nat ⊕ Bool → Answer
  | .inl n => .stored (m.put dst.toNat 32 n)
  | .inr holds => .truth m holds

def Exact (op : Operator) (m : LinearMemory) (a b dst : I64) : Prop :=
  op.run m a b dst = (op.means (m.number a.toNat 32) (op.second m b)).map (leaves m dst)

/-- Where the code of an operator keeps to what the operator means. -/
def Kept (x y : Nat) : Operator → Prop
  | .mul => x = 0 ∨ y = 0 ∨ x < 2 ^ 128 ∧ y < 2 ^ 128
  | .add => x + y < 2 ^ 256
  | .shl => y < 256 ∨ 2 ^ 256 ∣ x * 2 ^ (y % 256)
  | .shr => y < 256 ∨ x < 2 ^ (y % 256)
  | .div | .lt | .gt | .eq => True

end Operator

theorem put_inj {p x y : Nat} (smallX : x < 2 ^ 256) (smallY : y < 2 ^ 256) :
    m.put p 32 x = m.put p 32 y ↔ x = y := by
  refine ⟨fun same => ?_, congrArg _⟩
  have numbers := congrArg (fun m : LinearMemory => m.number p 32) same
  rw [number_put, number_put] at numbers
  rwa [Nat.mod_eq_of_lt (show x < 256 ^ 32 from smallX),
    Nat.mod_eq_of_lt (show y < 256 ^ 32 from smallY)] at numbers

theorem mul_low_iff {x y : Nat} :
    x % 2 ^ 128 * (y % 2 ^ 128) = x * y ↔ x = 0 ∨ y = 0 ∨ x < 2 ^ 128 ∧ y < 2 ^ 128 := by
  have lowX := Nat.mod_lt x (Nat.two_pow_pos 128)
  have lowY := Nat.mod_lt y (Nat.two_pow_pos 128)
  have leX := Nat.mod_le x (2 ^ 128)
  have leY := Nat.mod_le y (2 ^ 128)
  constructor
  · intro same
    by_contra other
    obtain ⟨someX, someY, large⟩ := by simpa only [not_or] using other
    by_cases smallX : x < 2 ^ 128
    · have lessY : y % 2 ^ 128 < y := by
        have := fun smallY => large ⟨smallX, smallY⟩
        omega
      have product := Nat.mul_lt_mul_of_le_of_lt leX lessY (Nat.pos_of_ne_zero someX)
      omega
    · have product := Nat.mul_lt_mul_of_lt_of_le (show x % 2 ^ 128 < x by omega) leY
        (Nat.pos_of_ne_zero someY)
      omega
  · rintro (rfl | rfl | ⟨smallX, smallY⟩)
    · rw [Nat.zero_mod, Nat.zero_mul, Nat.zero_mul]
    · rw [Nat.zero_mod, Nat.mul_zero, Nat.mul_zero]
    · rw [Nat.mod_eq_of_lt smallX, Nat.mod_eq_of_lt smallY]

theorem stored_iff {p x y : Nat} (smallX : x < 2 ^ 256) (smallY : y < 2 ^ 256) :
    some (Answer.stored (m.put p 32 x)) = some (Answer.stored (m.put p 32 y)) ↔ x = y := by
  rw [Option.some.injEq, Answer.stored.injEq, put_inj smallX smallY]

theorem mul_exact_iff (placedA : Placed m a 32) (placedB : Placed m b 32)
    (placedQ : Placed m dst 32) :
    Operator.mul.Exact m a b dst ↔
      Operator.mul.Kept (m.number a.toNat 32) (m.number b.toNat 32) := by
  have code := hMul_eq placedA placedB placedQ
  have low : m.number a.toNat 32 % 2 ^ 128 * (m.number b.toNat 32 % 2 ^ 128) < 2 ^ 256 := by
    have product := Nat.mul_lt_mul'' (Nat.mod_lt (m.number a.toNat 32) (Nat.two_pow_pos 128))
      (Nat.mod_lt (m.number b.toNat 32) (Nat.two_pow_pos 128))
    rwa [← Nat.pow_add] at product
  simp only [Operator.Exact, Operator.run, code, Operator.means, Operator.second,
    Operator.counts, Bool.false_eq_true, if_false, Operator.Kept]
  rw [← mul_low_iff]
  split_ifs with fits
  · exact stored_iff low fits
  · exact iff_of_false (Option.some_ne_none _) (by omega)

theorem add_exact_iff (placedA : Placed m a 32) (placedB : Placed m b 32)
    (placedQ : Placed m dst 32) :
    Operator.add.Exact m a b dst ↔
      Operator.add.Kept (m.number a.toNat 32) (m.number b.toNat 32) := by
  have code := hAdd_eq placedA placedB placedQ
  simp only [Operator.Exact, Operator.run, code, Operator.means, Operator.second,
    Operator.counts, Bool.false_eq_true, if_false, Operator.Kept]
  split_ifs with fits
  · rw [Nat.mod_eq_of_lt fits]
    exact iff_of_true rfl fits
  · exact iff_of_false (Option.some_ne_none _) fits

theorem shr_exact_iff (placedA : Placed m a 32) (placedQ : Placed m dst 32) :
    Operator.shr.Exact m a k dst ↔ Operator.shr.Kept (m.number a.toNat 32) k.toNat := by
  have code := hShr_eq (k := k) placedA placedQ
  have cell : m.number a.toNat 32 < 2 ^ 256 := number_lt a.toNat 32
  simp only [Operator.Exact, Operator.run, code, Operator.means, Operator.second,
    Operator.counts, if_true, Operator.Kept]
  refine (stored_iff (Nat.lt_of_le_of_lt (Nat.div_le_self _ _) cell)
    (Nat.lt_of_le_of_lt (Nat.div_le_self _ _) cell)).trans ?_
  by_cases small : k.toNat < 256
  · rw [Nat.mod_eq_of_lt small]
    exact iff_of_true rfl (.inl small)
  · have none : m.number a.toNat 32 / 2 ^ k.toNat = 0 :=
      Nat.div_eq_of_lt (Nat.lt_of_lt_of_le cell
        (Nat.pow_le_pow_right (by decide) (Nat.le_of_not_lt small)))
    rw [none, or_iff_right small, Nat.div_eq_zero_iff]
    exact or_iff_right (Nat.two_pow_pos _).ne'

theorem shl_exact_iff (placedA : Placed m a 32) (placedQ : Placed m dst 32) :
    Operator.shl.Exact m a k dst ↔ Operator.shl.Kept (m.number a.toNat 32) k.toNat := by
  have code := hShl_eq (k := k) placedA placedQ
  simp only [Operator.Exact, Operator.run, code, Operator.means, Operator.second,
    Operator.counts, if_true, Operator.Kept]
  refine (stored_iff (Nat.mod_lt _ (Nat.two_pow_pos 256))
    (Nat.mod_lt _ (Nat.two_pow_pos 256))).trans ?_
  by_cases small : k.toNat < 256
  · rw [Nat.mod_eq_of_lt small]
    exact iff_of_true rfl (.inl small)
  · have none : m.number a.toNat 32 * 2 ^ k.toNat % 2 ^ 256 = 0 :=
      Nat.mod_eq_zero_of_dvd ((Nat.pow_dvd_pow 2 (Nat.le_of_not_lt small)).mul_left _)
    rw [none, or_iff_right small, Nat.dvd_iff_mod_eq_zero]

theorem operator_exact_iff (op : Operator) (placedA : Placed m a 32)
    (placedB : op.counts = false → Placed m b 32) (placedQ : Placed m dst 32) :
    op.Exact m a b dst ↔ op.Kept (m.number a.toNat 32) (op.second m b) := by
  cases op with
  | mul => exact mul_exact_iff placedA (placedB rfl) placedQ
  | add => exact add_exact_iff placedA (placedB rfl) placedQ
  | shl => exact shl_exact_iff placedA placedQ
  | shr => exact shr_exact_iff placedA placedQ
  | div =>
      have code := hDiv_eq placedA (placedB rfl) placedQ
      refine iff_of_true ?_ trivial
      simp only [Operator.Exact, Operator.run, code, Operator.means, Operator.second,
        Operator.counts, Bool.false_eq_true, if_false]
      split_ifs <;> rfl
  | lt =>
      refine iff_of_true ?_ trivial
      unfold Operator.Exact Operator.run
      rw [(compare_eq placedA (placedB rfl)).1]
      rfl
  | gt =>
      refine iff_of_true ?_ trivial
      unfold Operator.Exact Operator.run
      rw [(compare_eq placedA (placedB rfl)).2.1]
      rfl
  | eq =>
      refine iff_of_true ?_ trivial
      unfold Operator.Exact Operator.run
      rw [(compare_eq placedA (placedB rfl)).2.2]
      rfl

/-- Two cells of a page. -/
def cells (a b : Nat) : LinearMemory :=
  (LinearMemory.put ⟨fun _ => 0, 65536⟩ 64 32 a).put 96 32 b

theorem cells_placed (a b : Nat) {p : I64} (inside : p.toNat + 32 ≤ 65536) :
    Placed (cells a b) p 32 := ⟨inside, by rw [cells, put_size, put_size]; decide⟩

theorem cells_first {a : Nat} (b : Nat) (small : a < 2 ^ 256) : (cells a b).number 64 32 = a := by
  rw [cells, number_put_apart (.inl (by decide)), number_put]
  exact Nat.mod_eq_of_lt small

theorem cells_second (a : Nat) {b : Nat} (small : b < 2 ^ 256) : (cells a b).number 96 32 = b := by
  rw [cells, number_put]
  exact Nat.mod_eq_of_lt small

/-- `2 ^ 128 * 1` -/
theorem exact_highWord : ¬ Operator.mul.Exact (cells (2 ^ 128) 1) 64 96 128 := by
  rw [mul_exact_iff (cells_placed (2 ^ 128) 1 (by decide)) (cells_placed (2 ^ 128) 1 (by decide))
    (cells_placed (2 ^ 128) 1 (by decide)), show (64 : I64).toNat = 64 from rfl,
    show (96 : I64).toNat = 96 from rfl, cells_first (a := 2 ^ 128) 1 (by decide),
    cells_second (2 ^ 128) (b := 1) (by decide)]
  unfold Operator.Kept
  decide

theorem operator_exact_iff_sum : Operator.add.Exact (cells (2 ^ 255) 7) 64 96 128 := by
  refine (operator_exact_iff .add (cells_placed (2 ^ 255) 7 (by decide))
    (fun _ => cells_placed (2 ^ 255) 7 (by decide)) (cells_placed (2 ^ 255) 7 (by decide))).mpr ?_
  have first : (cells (2 ^ 255) 7).number (64 : I64).toNat 32 = 2 ^ 255 := cells_first 7 (by decide)
  have second : Operator.add.second (cells (2 ^ 255) 7) 96 = 7 := cells_second (2 ^ 255) (by decide)
  rw [first, second]
  unfold Operator.Kept
  decide

end U256

end LispRlm.WasmEmit
