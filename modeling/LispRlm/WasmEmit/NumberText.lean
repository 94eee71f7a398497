import LispRlm.WasmEmit.CheckedWords
import LispRlm.WasmEmit.U256Decimal

/-! Numbers as text: the three routines that write a signed number in the decimal system. -/

namespace LispRlm.WasmEmit

open Foundation LinearMemory

namespace LinearMemory

/-- A byte into the word that holds it. -/
def safeStore8 (m : LinearMemory) (addr : I64) (byte : BitVec 32) : Option LinearMemory := do
  let base := ((addr &&& ~~~7).setWidth 32).toNat
  let word ← m.loadI64 base
  let shift := ((addr &&& 7) <<< 3).toNat
  m.storeI64 base (word &&& (-1 ^^^ (0xFF : I64) <<< shift) ||| byte.setWidth 64 <<< shift)

def storeBytes (m : LinearMemory) (p : I64) : List (BitVec 8) → Option LinearMemory
  | [] => some m
  | b :: bs => do
      let m ← m.storeByte p (b.setWidth 64)
      storeBytes m (p + 1) bs

def bytesAt (m : LinearMemory) (a k : Nat) : List (BitVec 8) :=
  (List.range k).map fun i => m.bytes (a + i)

end LinearMemory

namespace NumberText

/-- Bytes at the heap's end, as a string. -/
def bumpText (m : LinearMemory) (bytes : List (BitVec 8)) : Option (I64 × LinearMemory) := do
  let buf ← m.loadI64 56
  let m ← m.storeI64 56 (buf + BitVec.ofNat 64 bytes.length)
  let m ← m.storeBytes buf bytes
  some ((BitVec.ofNat 64 bytes.length <<< 32 ||| buf) <<< 3 ||| 5, m)

def countDigits : Nat → I64 → I64 → Option I64
  | 0, _, _ => none
  | fuel + 1, digits, val =>
      if val = 0 then some digits else countDigits fuel (digits + 1) (val.udiv 10)

/-- From the right to the left, down to an address. -/
def writeDigits : Nat → LinearMemory → I64 → I64 → I64 → Option LinearMemory
  | 0, _, _, _, _ => none
  | fuel + 1, m, widx, start, raw =>
      if widx.slt start then some m
      else do
        let m ← m.storeByte widx (raw.umod 10 + 48)
        writeDigits fuel m (widx - 1) start (raw.udiv 10)

/-- What `__to_string` does. -/
def toStringFunc (m : LinearMemory) (tagged : I64) : Option (I64 × LinearMemory) :=
  let tag := tagged &&& 7
  let raw := tagged >>> 3
  if tag = 5 then some (tagged, m)
  else if tag = 4 then bumpText m [110, 105, 108]
  else if tag = 1 then
    if raw = 1 then bumpText m [116, 114, 117, 101] else bumpText m [102, 97, 108, 115, 101]
  else do
    let buf ← m.loadI64 56
    let m ← m.storeI64 56 (buf + 21)
    let (m, val, offset) ←
      if raw.slt 0 then do
        let m ← m.storeByte buf 45
        some (m, 0 - raw, (1 : I64))
      else some (m, raw, 0)
    if val = 0 then do
      let m ← m.storeByte (buf + offset) 48
      some (((offset + 1) <<< 32 ||| buf) <<< 3 ||| 5, m)
    else do
      let len ← countDigits 21 offset val
      let m ← writeDigits 22 m (buf + len - 1) (buf + offset) val
      some ((len <<< 32 ||| buf) <<< 3 ||| 5, m)

/-- The digits of a number from an address downwards. -/
def putDigits : Nat → LinearMemory → I64 → I64 → Option (LinearMemory × I64)
  | 0, _, _, _ => none
  | fuel + 1, m, pos, u =>
      if u = 0 then some (m, pos)
      else do
        let pos := pos - 1
        let m ← m.storeByte pos (u.umod 10 + 48)
        putDigits fuel m pos (u.udiv 10)

def hI64ToStr (limit : I64) (m : LinearMemory) (n : I64) : Option (I64 × LinearMemory) := do
  let neg := n.slt 0
  let u := if neg then 0 - n else n
  let dst ← m.loadI64 56
  let top := dst + 24
  if !top.ult limit then none
  else do
    let m ← m.storeI64 56 top
    if u = 0 then do
      let m ← m.storeByte dst 48
      some ((dst ||| (1 : I64) <<< 32) <<< 3 ||| 5, m)
    else do
      let (m, pos) ← putDigits 21 m (dst + 24) u
      let (m, pos) ←
        if neg then do
          let pos := pos - 1
          let m ← m.storeByte pos 45
          some (m, pos)
        else some (m, pos)
      some (((dst + 24 - pos) <<< 32 ||| pos) <<< 3 ||| 5, m)

def keyDigits : Nat → LinearMemory → I64 → I64 → I64 → Option (LinearMemory × I64 × I64)
  | 0, _, _, _, _ => none
  | fuel + 1, m, ptr, len, v =>
      if v = 0 then some (m, ptr, len)
      else do
        let d := v.srem 10
        let ptr := ptr - 1
        let m ← m.safeStore8 ptr ((d + 48).setWidth 32)
        keyDigits fuel m ptr (len + 1) (v.sdiv 10)

/-- The key of a number, below 4184: where it starts and how long it is. -/
def emitNumKeyDecimal (m : LinearMemory) (src : I64) : Option (I64 × I64 × LinearMemory) := do
  let neg := src.slt 0
  let v := if neg then 0 - src else src
  let (m, ptr, len) ← keyDigits 21 m 4184 0 v
  let (m, ptr, len) ←
    if len = 0 then do
      let m ← m.safeStore8 4183 48
      some (m, (4183 : I64), (1 : I64))
    else some (m, ptr, len)
  if neg then do
    let ptr := ptr - 1
    let m ← m.safeStore8 ptr 45
    some (ptr, len + 1, m)
  else some (ptr, len, m)

end NumberText

/-! ### Bytes in words -/

namespace LinearMemory

/-- A word's bytes after one of them is replaced. -/
theorem merged_byte (word : I64) (b : BitVec 32) {a j : Nat} (here : j < 8) (there : a < 8)
    (byte : b.toNat < 2 ^ 8) :
    ((word &&& (-1 ^^^ (0xFF : I64) <<< (8 * a)) ||| b.setWidth 64 <<< (8 * a)) >>>
        (8 * j)).setWidth 8 =
      if j = a then b.setWidth 8 else ((word >>> (8 * j)).setWidth 8 : BitVec 8) := by
  have mask (k : Nat) : (0xFF : I64).getLsbD k = decide (k < 8) := by
    change Nat.testBit (2 ^ 8 - 1) k = _
    exact Nat.testBit_two_pow_sub_one 8 k
  have flip (w : I64) : -1 ^^^ w = ~~~w := BitVec.allOnes_xor
  have high (k : Nat) (above : 8 ≤ k) : b.getLsbD k = false :=
    Nat.testBit_lt_two_pow (Nat.lt_of_lt_of_le byte (Nat.pow_le_pow_right (by decide) above))
  rw [flip]
  generalize (0xFF : I64) = ff at *
  apply BitVec.eq_of_getLsbD_eq
  intro i inside
  have index : 8 * j + i < 64 := by omega
  rcases Nat.lt_trichotomy j a with below | rfl | above
  · have under : 8 * j + i < 8 * a := by omega
    rw [if_neg (Nat.ne_of_lt below)]
    simp [inside, index, under]
  · have bit := mask i
    rw [BitVec.getLsbD_eq_getElem (by omega), decide_eq_true inside] at bit
    simp [inside, index, bit]
  · have past : ¬8 * j + i < 8 * a := by omega
    have far : 8 ≤ 8 * j + i - 8 * a := by omega
    have bit := mask (8 * j + i - 8 * a)
    rw [BitVec.getLsbD_eq_getElem (by omega), decide_eq_false (Nat.not_lt.mpr far)] at bit
    rw [if_neg (Nat.ne_of_gt above)]
    simp [inside, index, past, bit, high _ far]

theorem safeStore8_eq {m : LinearMemory} {p : I64} {b : BitVec 32} (address : p.toNat < 2 ^ 32)
    (room : p.toNat / 8 * 8 + 8 ≤ m.size) (byte : b.toNat < 2 ^ 8) :
    m.safeStore8 p b = some (m.setByte p.toNat (b.setWidth 8)) := by
  have low : (p &&& 7).toNat = p.toNat % 8 := by
    rw [BitVec.toNat_and]
    exact Nat.and_two_pow_sub_one_eq_mod p.toNat 3
  have shift : ((p &&& 7) <<< 3).toNat = 8 * (p.toNat % 8) := by
    rw [BitVec.toNat_shiftLeft, low, Nat.shiftLeft_eq]
    omega
  have base : ((p &&& ~~~7).setWidth 32).toNat = p.toNat / 8 * 8 := by
    have cleared := U256.cleared_add p 7
    rw [show (7 : I64) ^^^ -1 = ~~~7 from rfl, low] at cleared
    rw [BitVec.toNat_setWidth]
    omega
  obtain ⟨word, loaded, value⟩ := loadI64_number room
  rw [safeStore8, base, shift, loaded, Option.bind_eq_bind, Option.bind_some, storeI64,
    if_pos room]
  refine congrArg some (eq_of_bytes (fun i => ?_) rfl)
  change (if _ then _ else _) = if i = p.toNat then b.setWidth 8 else m.bytes i
  split_ifs with inside here here
  · subst here
    have place : p.toNat - p.toNat / 8 * 8 = p.toNat % 8 := by omega
    rw [place, merged_byte _ _ (by omega) (by omega) byte, if_pos rfl]
  · have old := byte_number (m := m) (p := p.toNat / 8 * 8) (i := i - p.toNat / 8 * 8) (k := 8)
      (by omega)
    rw [merged_byte _ _ (by omega) (by omega) byte, if_neg (by omega)]
    apply BitVec.eq_of_toNat_eq
    rw [Nat.add_sub_cancel' inside.1, ← value] at old
    rw [BitVec.toNat_setWidth, BitVec.toNat_ushiftRight, Nat.shiftRight_eq_div_pow, old,
      Nat.pow_mul]
  · omega
  · rfl

end LinearMemory

/-! ### Signed text -/

open NearMock (decimal)

namespace NumberText

/-- The canonical text of a number. -/
def signedText (n : Int) : List (BitVec 8) :=
  if n < 0 then 45 :: (decimal n.natAbs).map UInt8.toBitVec
  else (decimal n.natAbs).map UInt8.toBitVec

theorem digits_readable (n : Nat) :
    ((decimal n).map UInt8.toBitVec).all U256.isDigit = true ∧
      U256.textValue ((decimal n).map UInt8.toBitVec) = n := by
  have read := U256.foldlM_decimalStep n
  rw [U256.foldlM_decimalStep_eq, Nat.zero_mul, Nat.zero_add] at read
  split_ifs at read with digits
  exact ⟨digits, Option.some.inj read⟩

theorem minus_ne_digits (bytes : List (BitVec 8)) (n : Nat) :
    45 :: bytes ≠ (decimal n).map UInt8.toBitVec := by
  intro same
  have digits := (digits_readable n).1
  rw [← same, List.all_cons] at digits
  exact Bool.false_ne_true digits

theorem digits_injective {a b : Nat}
    (same : (decimal a).map UInt8.toBitVec = (decimal b).map UInt8.toBitVec) : a = b := by
  rw [← (digits_readable a).2, same, (digits_readable b).2]

/-- Different numbers have different texts. -/
theorem signedText_injective : Function.Injective signedText := by
  intro a b same
  unfold signedText at same
  split_ifs at same with left right right
  · have equal := digits_injective (List.tail_eq_of_cons_eq same)
    omega
  · exact absurd same (minus_ne_digits _ _)
  · exact absurd same.symm (minus_ne_digits _ _)
  · have equal := digits_injective same
    omega

theorem signedText_length_le {n : Int} (small : n.natAbs < 10 ^ 19) :
    (signedText n).length ≤ 20 := by
  have few : (decimal n.natAbs).length ≤ 19 := by
    by_cases zero : n.natAbs = 0
    · rw [zero]
      decide
    · rwa [U256.decimal_length zero, U256.count_le_iff]
  unfold signedText
  split_ifs
  · rw [List.length_cons, List.length_map]
    omega
  · rw [List.length_map]
    omega

end NumberText

namespace LinearMemory

open NumberText

/-- The memory with a number's text before an address. -/
def signed (m : LinearMemory) (a : Nat) (n : Int) : LinearMemory :=
  if n < 0 then
    (m.digits a (decimal n.natAbs).length n.natAbs).setByte (a - (decimal n.natAbs).length - 1) 45
  else m.digits a (decimal n.natAbs).length n.natAbs

variable {m : LinearMemory} {a : Nat} {n : Int}

theorem bytesAt_signed (room : (signedText n).length ≤ a) :
    (m.signed a n).bytesAt (a - (signedText n).length) (signedText n).length = signedText n := by
  unfold signedText signed bytesAt at *
  split_ifs at room ⊢ with negative
  · rw [List.length_cons, List.length_map] at room ⊢
    have digits := U256.digits_text (m := m) (a := a) (n := n.natAbs) (Nat.le_refl _) (by omega)
    rw [List.range_succ_eq_map, List.map_cons, List.map_map, ← digits]
    congr 1
    · rw [setByte_bytes, if_pos (by omega)]
    · apply List.map_congr_left
      intro i mem
      have place := List.mem_range.mp mem
      have index : a - ((decimal n.natAbs).length + 1) + (i + 1) =
          a - (decimal n.natAbs).length + i := by omega
      rw [Function.comp_apply, setByte_bytes, if_neg (by omega), Nat.succ_eq_add_one, index]
  · rw [List.length_map] at room ⊢
    exact U256.digits_text (Nat.le_refl _) room

theorem signed_frame {i : Nat} (room : (signedText n).length ≤ a)
    (outside : ¬(a ≤ i + (signedText n).length ∧ i < a)) :
    (m.signed a n).bytes i = m.bytes i := by
  unfold signedText at room outside
  unfold signed
  split_ifs at room outside ⊢
  · rw [List.length_cons, List.length_map] at room outside
    rw [setByte_bytes, if_neg (by omega), digits_bytes, if_neg (by omega)]
  · rw [List.length_map] at room outside
    rw [digits_bytes, if_neg (by omega)]

@[simp] theorem signed_size : (m.signed a n).size = m.size := by
  unfold signed
  split_ifs
  · rfl
  · rfl

end LinearMemory

/-! ### The loops -/

namespace NumberText

theorem slt_small {x y : I64} (left : x.toNat < 2 ^ 63) (right : y.toNat < 2 ^ 63) :
    x.slt y = decide (x.toNat < y.toNat) := by
  have left' : x.msb = false := BitVec.msb_eq_false_iff_two_mul_lt.mpr (by omega)
  have right' : y.msb = false := BitVec.msb_eq_false_iff_two_mul_lt.mpr (by omega)
  exact BitVec.slt_eq_ult_of_msb_eq (left'.trans right'.symm)

theorem eq_zero_iff (w : I64) : w = 0 ↔ w.toNat = 0 := by
  rw [← BitVec.toNat_inj]
  rfl

theorem countDigits_eq (fuel : Nat) (digits val : I64) (enough : U256.count val.toNat < fuel) :
    countDigits fuel digits val = some (digits + BitVec.ofNat 64 (U256.count val.toNat)) := by
  induction fuel generalizing digits val with
  | zero => omega
  | succ fuel ih =>
      rw [countDigits]
      by_cases zero : val = 0
      · rw [if_pos zero, zero]
        exact congrArg some (BitVec.add_zero digits).symm
      · have positive := mt (eq_zero_iff val).mpr zero
        have step := U256.count_step positive
        have quotient : (val.udiv 10).toNat = val.toNat / 10 := BitVec.toNat_udiv
        rw [if_neg zero, ih _ _ (by rw [quotient]; omega), quotient, step, BitVec.add_assoc,
          Nat.add_comm (U256.count _), BitVec.ofNat_add]
        rfl

theorem writeDigits_eq (fuel : Nat) (m : LinearMemory) (widx start raw : I64) (k : Nat)
    (enough : k < fuel) (place : widx.toNat + 1 = start.toNat + k) (low : 0 < start.toNat)
    (inside : start.toNat + k ≤ m.size) (small : m.size ≤ 2 ^ 32) :
    writeDigits fuel m widx start raw = some (m.digits (start.toNat + k) k raw.toNat) := by
  induction fuel generalizing m widx raw k with
  | zero => omega
  | succ fuel ih =>
      rw [writeDigits, slt_small (by omega) (by omega)]
      cases k with
      | zero => rw [decide_eq_true (by omega), if_pos rfl, digits_none]
      | succ k =>
          have next : (widx + 1).toNat = start.toNat + (k + 1) := by
            rw [BitVec.toNat_add, show (1 : I64).toNat = 1 from rfl]
            omega
          have stored := U256.storeDigit (m := m) (p := widx + 1) (r := raw) (by omega)
            (by omega) small
          have quotient : (raw.udiv 10).toNat = raw.toNat / 10 ^ 1 := BitVec.toNat_udiv
          have before := U256.before_toNat (p := widx) (by omega)
          rw [BitVec.add_sub_cancel, next] at stored
          have rest := ih (m.digits (start.toNat + (k + 1)) 1 raw.toNat) (widx - 1)
            (raw.udiv 10) k (by omega) (by omega) (by rw [digits_size]; omega) small
          have left : start.toNat + k = start.toNat + (1 + k) - 1 := by omega
          rw [quotient, Nat.add_comm k 1, left, digits_digits (by omega)] at rest
          rw [decide_eq_false (by omega), if_neg Bool.false_ne_true, stored, Option.bind_eq_bind,
            Option.bind_some, Nat.add_comm k 1, rest]

theorem putDigits_eq (fuel : Nat) (m : LinearMemory) (pos u : I64)
    (enough : U256.count u.toNat < fuel) (room : U256.count u.toNat ≤ pos.toNat)
    (inside : pos.toNat ≤ m.size) (small : m.size ≤ 2 ^ 32) :
    ∃ pos', putDigits fuel m pos u =
        some (m.digits pos.toNat (U256.count u.toNat) u.toNat, pos') ∧
      pos'.toNat = pos.toNat - U256.count u.toNat := by
  induction fuel generalizing m pos u with
  | zero => omega
  | succ fuel ih =>
      rw [putDigits]
      by_cases zero : u = 0
      · rw [if_pos zero, zero]
        exact ⟨pos, congrArg (fun m => some (m, pos)) (digits_none _ _).symm, rfl⟩
      · have positive := mt (eq_zero_iff u).mpr zero
        have step := U256.count_step positive
        have quotient : (u.udiv 10).toNat = u.toNat / 10 ^ 1 := BitVec.toNat_udiv
        have before := U256.before_toNat (p := pos) (by omega)
        obtain ⟨pos', rest, position⟩ := ih (m.digits pos.toNat 1 u.toNat) (pos - 1) (u.udiv 10)
          (by rw [quotient, Nat.pow_one]; omega) (by rw [quotient, Nat.pow_one]; omega)
          (by rw [digits_size]; omega) small
        rw [quotient, before] at rest position
        rw [if_neg zero]
        dsimp only
        rw [U256.storeDigit (by omega) inside small, Option.bind_eq_bind, Option.bind_some, rest,
          digits_digits (by omega), Nat.pow_one, step, Nat.add_comm]
        rw [Nat.pow_one] at position
        exact ⟨pos', rfl, by omega⟩

/-- The signed operations of a number that is not negative. -/
theorem signed_digit {v : I64} (positive : v.toNat < 2 ^ 63) :
    ((v.srem 10 + 48).setWidth 32).toNat = 48 + v.toNat % 10 ∧
      (v.sdiv 10).toNat = v.toNat / 10 := by
  have sign : v.msb = false := BitVec.msb_eq_false_iff_two_mul_lt.mpr (by omega)
  have remainder : (v.srem 10).toNat = v.toNat % 10 := by
    rw [BitVec.srem_eq, sign, show (10 : I64).msb = false from rfl]
    exact BitVec.toNat_umod
  refine ⟨?_, ?_⟩
  · rw [BitVec.toNat_setWidth, BitVec.toNat_add, remainder, show (48 : I64).toNat = 48 from rfl]
    omega
  · rw [BitVec.sdiv_eq, sign, show (10 : I64).msb = false from rfl]
    exact BitVec.toNat_udiv

/-- The scratch bytes of the key end at 4184. -/
theorem storeKeyByte {m : LinearMemory} {p : I64} {b : BitVec 32} (below : p.toNat < 4184)
    (inside : 4184 ≤ m.size) (byte : b.toNat < 2 ^ 8) :
    m.safeStore8 p b = some (m.setByte p.toNat (b.setWidth 8)) :=
  safeStore8_eq (by omega) (by omega) byte

theorem keyDigits_eq (fuel : Nat) (m : LinearMemory) (ptr len v : I64)
    (enough : U256.count v.toNat < fuel) (room : U256.count v.toNat ≤ ptr.toNat)
    (below : ptr.toNat ≤ 4184) (inside : 4184 ≤ m.size) (positive : v.toNat < 2 ^ 63) :
    ∃ ptr', keyDigits fuel m ptr len v =
        some (m.digits ptr.toNat (U256.count v.toNat) v.toNat, ptr',
          len + BitVec.ofNat 64 (U256.count v.toNat)) ∧
      ptr'.toNat = ptr.toNat - U256.count v.toNat := by
  induction fuel generalizing m ptr len v with
  | zero => omega
  | succ fuel ih =>
      rw [keyDigits]
      by_cases zero : v = 0
      · rw [if_pos zero, zero]
        exact ⟨ptr, congrArg₂ (fun m len => some (m, ptr, len)) (digits_none _ _).symm
          (BitVec.add_zero len).symm, rfl⟩
      · have nonzero := mt (eq_zero_iff v).mpr zero
        have step := U256.count_step nonzero
        have before := U256.before_toNat (p := ptr) (by omega)
        obtain ⟨digit, quotient⟩ := signed_digit positive
        have stored : m.safeStore8 (ptr - 1) ((v.srem 10 + 48).setWidth 32) =
            some (m.digits ptr.toNat 1 v.toNat) := by
          rw [storeKeyByte (by omega) inside (by omega), before,
            ← setByte_digit (by omega) v.toNat]
          congr 2
          apply BitVec.eq_of_toNat_eq
          rw [BitVec.toNat_setWidth, digit, BitVec.toNat_ofNat]
        obtain ⟨ptr', rest, position⟩ := ih (m.digits ptr.toNat 1 v.toNat) (ptr - 1) (len + 1)
          (v.sdiv 10) (by rw [quotient]; omega) (by rw [quotient]; omega) (by omega) inside
          (by rw [quotient]; omega)
        have power : v.toNat / 10 = v.toNat / 10 ^ 1 := by rw [Nat.pow_one]
        rw [quotient, before] at rest position
        rw [if_neg zero]
        dsimp only
        rw [stored, Option.bind_eq_bind, Option.bind_some, rest, step, BitVec.add_assoc,
          Nat.add_comm (U256.count _), BitVec.ofNat_add]
        refine ⟨ptr', ?_, by omega⟩
        rw [power, digits_digits (by omega)]
        rfl

/-! ### The routines -/

/-- The blocks fit at the heap's end, below the limit, and the scratch bytes are in the memory. -/
structure Room (m : LinearMemory) (limit : I64) : Prop where
  above : 64 ≤ m.number 56 8
  room : m.number 56 8 + 24 < limit.toNat
  within : limit.toNat ≤ m.size
  small : m.size ≤ 2 ^ 32
  scratch : 4184 ≤ m.size

variable {m : LinearMemory} {limit : I64}

theorem count_payload {n : Nat} (small : n < 10 ^ 19) : U256.count n ≤ 19 :=
  (U256.count_le_iff n 19).mpr small

theorem string_word_comm {p l : I64} (address : p.toNat < 2 ^ 32) (short : l.toNat < 2 ^ 29) :
    strPtr ((l <<< 32 ||| p) <<< 3 ||| 5) = p ∧ strLen ((l <<< 32 ||| p) <<< 3 ||| 5) = l := by
  obtain ⟨ptr, len, -⟩ := U256.string_word address short
  rw [BitVec.or_comm p] at ptr len
  exact ⟨ptr, len⟩

/-- The helper reads its word as a number without a sign. -/
theorem toStringFunc_eq (room : Room m limit) {w : I64} (tag : w &&& 7 = 0) :
    ∃ s, toStringFunc m w = some (s, (m.put 56 8 (m.number 56 8 + 21)).digits
        (m.number 56 8 + (decimal (w.toNat / 8)).length) (decimal (w.toNat / 8)).length
        (w.toNat / 8)) ∧
      (strPtr s).toNat = m.number 56 8 ∧
      (strLen s).toNat = (decimal (w.toNat / 8)).length := by
  obtain ⟨above, room, within, small, -⟩ := room
  obtain ⟨buf, pointer, address⟩ := loadI64_number (m := m) (p := 56) (by omega)
  have raw : (w >>> 3).toNat = w.toNat / 8 := by
    rw [BitVec.toNat_ushiftRight, Nat.shiftRight_eq_div_pow]
  have below := w.isLt
  have few := count_payload (n := w.toNat / 8) (by omega)
  have positive : (w >>> 3).slt 0 = false := by
    rw [slt_small (by omega) (by decide)]
    exact decide_eq_false (Nat.not_lt_zero _)
  have top : (buf + 21).toNat = buf.toNat + 21 := by
    rw [BitVec.toNat_add, show (21 : I64).toNat = 21 from rfl]
    omega
  have stored := storeI64_put (m := m) (p := 56) (by omega) (buf + 21)
  rw [top] at stored
  rw [← address] at above room ⊢
  rw [← raw] at few ⊢
  unfold toStringFunc
  simp only [tag, pointer, stored, positive, Option.bind_eq_bind, Option.bind_some,
    if_neg (show ¬(0 : I64) = 5 by decide), if_neg (show ¬(0 : I64) = 4 by decide),
    if_neg (show ¬(0 : I64) = 1 by decide), add_zero]
  generalize w >>> 3 = r at *
  by_cases zero : r = 0
  · have next : (buf + 1).toNat = buf.toNat + 1 := by
      rw [BitVec.toNat_add, show (1 : I64).toNat = 1 from rfl]
      omega
    have byte := U256.storeDigit (m := m.put 56 8 (buf.toNat + 21)) (p := buf + 1) (r := 0)
      (by omega) (by rw [put_size]; omega) small
    obtain ⟨ptr, len⟩ := string_word_comm (p := buf) (l := 1) (by omega) (by decide)
    rw [BitVec.add_sub_cancel, next] at byte
    change storeByte _ _ 48 = _ at byte
    rw [if_pos zero, byte, Option.bind_some, zero, zero_add]
    exact ⟨_, rfl, congrArg BitVec.toNat ptr, congrArg BitVec.toNat len⟩
  · have length := U256.decimal_length (mt (eq_zero_iff r).mpr zero)
    have one := U256.count_pos (mt (eq_zero_iff r).mpr zero)
    have word : (BitVec.ofNat 64 (U256.count r.toNat)).toNat = U256.count r.toNat := by
      rw [BitVec.toNat_ofNat]
      omega
    have counted := countDigits_eq 21 0 r (by omega)
    rw [zero_add] at counted
    have last : (buf + BitVec.ofNat 64 (U256.count r.toNat) - 1).toNat + 1 =
        buf.toNat + U256.count r.toNat := by
      rw [U256.before_toNat (by rw [BitVec.toNat_add]; omega), BitVec.toNat_add]
      omega
    have written := writeDigits_eq 22 (m.put 56 8 (buf.toNat + 21))
      (buf + BitVec.ofNat 64 (U256.count r.toNat) - 1) buf r (U256.count r.toNat) (by omega) last
      (by omega) (by rw [put_size]; omega) small
    obtain ⟨ptr, len⟩ := string_word_comm (p := buf)
      (l := BitVec.ofNat 64 (U256.count r.toNat)) (by omega) (by omega)
    rw [if_neg zero, counted, Option.bind_some, written, Option.bind_some, length]
    exact ⟨_, rfl, congrArg BitVec.toNat ptr, (congrArg BitVec.toNat len).trans word⟩

/-- The sign and the absolute value of a word. -/
theorem absolute {n : Int} (fits : inI64 n = true) :
    (BitVec.ofInt 64 n).slt 0 = decide (n < 0) ∧
      (if (BitVec.ofInt 64 n).slt 0 then 0 - BitVec.ofInt 64 n else BitVec.ofInt 64 n).toNat =
        n.natAbs := by
  have value := toInt_ofInt_inI64 fits
  have sign : (BitVec.ofInt 64 n).slt 0 = decide (n < 0) := by
    have same := slt_zero (BitVec.ofInt 64 n)
    rwa [value] at same
  refine ⟨sign, ?_⟩
  simp only [inI64, Bool.and_eq_true, decide_eq_true_eq] at fits
  have word := BitVec.toNat_ofInt (n := 64) n
  have zero : (0 : I64).toNat = 0 := rfl
  rw [sign]
  by_cases negative : n < 0
  · rw [decide_eq_true negative, if_pos rfl, BitVec.toNat_sub, zero]
    omega
  · rw [decide_eq_false negative, if_neg Bool.false_ne_true]
    omega

/-- A minus before the digits of a negative number. -/
theorem signed_negative {a : Nat} {n : Int} (negative : n < 0) :
    m.signed a n = (m.digits a (decimal n.natAbs).length n.natAbs).setByte
      (a - (decimal n.natAbs).length - 1) 45 := if_pos negative

theorem signed_positive {a : Nat} {n : Int} (positive : ¬n < 0) :
    m.signed a n = m.digits a (decimal n.natAbs).length n.natAbs := if_neg positive

theorem hI64ToStr_eq (room : Room m limit) {n : Int} (fits : inI64 n = true)
    (short : n.natAbs < 10 ^ 19) :
    ∃ s a, hI64ToStr limit m (.ofInt 64 n) =
        some (s, (m.put 56 8 (m.number 56 8 + 24)).signed a n) ∧
      (strPtr s).toNat = a - (signedText n).length ∧
      (strLen s).toNat = (signedText n).length ∧
      m.number 56 8 + (signedText n).length ≤ a ∧ a ≤ m.number 56 8 + 24 := by
  obtain ⟨above, room, within, small, -⟩ := room
  obtain ⟨dst, pointer, address⟩ := loadI64_number (m := m) (p := 56) (by omega)
  obtain ⟨sign, value⟩ := absolute fits
  have few := count_payload short
  have top : (dst + 24).toNat = dst.toNat + 24 := by
    rw [BitVec.toNat_add, show (24 : I64).toNat = 24 from rfl]
    omega
  have block : (!(dst + 24).ult limit) = false := by
    rw [U128.ult_eq, top, decide_eq_true (by omega)]
    rfl
  have stored := storeI64_put (m := m) (p := 56) (by omega) (dst + 24)
  rw [top] at stored
  rw [← address] at above room ⊢
  unfold hI64ToStr
  simp only [pointer, stored, block, Option.bind_eq_bind, Option.bind_some,
    if_neg Bool.false_ne_true]
  generalize (if (BitVec.ofInt 64 n).slt 0 then 0 - BitVec.ofInt 64 n else BitVec.ofInt 64 n) = u
    at *
  by_cases zero : u = 0
  · obtain rfl : n = 0 := by
      rw [eq_zero_iff, value] at zero
      exact Int.natAbs_eq_zero.mp zero
    have next : (dst + 1).toNat = dst.toNat + 1 := by
      rw [BitVec.toNat_add, show (1 : I64).toNat = 1 from rfl]
      omega
    have byte := U256.storeDigit (m := m.put 56 8 (dst.toNat + 24)) (p := dst + 1) (r := 0)
      (by omega) (by rw [put_size]; omega) small
    obtain ⟨ptr, len, -⟩ := U256.string_word (p := dst) (l := 1) (by omega) (by decide)
    rw [BitVec.add_sub_cancel, next] at byte
    change storeByte _ _ 48 = _ at byte
    rw [if_pos zero, byte, Option.bind_some]
    exact ⟨_, dst.toNat + 1, rfl, congrArg BitVec.toNat ptr, congrArg BitVec.toNat len,
      Nat.le_refl _, by omega⟩
  · have positive := mt (eq_zero_iff u).mpr zero
    have length := U256.decimal_length (n := n.natAbs) (by rwa [← value])
    obtain ⟨pos, emitted, position⟩ := putDigits_eq 21 (m.put 56 8 (dst.toNat + 24)) (dst + 24) u
      (by rw [value]; omega) (by rw [value]; omega) (by rw [put_size]; omega) small
    rw [value, top, ← length] at emitted position
    rw [← length] at few
    rw [if_neg zero, emitted, Option.bind_some, sign]
    by_cases negative : n < 0
    · have before := U256.before_toNat (p := pos) (by omega)
      have minus := U256.storeByte_eq (m := (m.put 56 8 (dst.toNat + 24)).digits (dst.toNat + 24)
        (decimal n.natAbs).length n.natAbs) (p := pos - 1) (w := 45)
        (by rw [digits_size, put_size]; omega) small
      have text : (signedText n).length = (decimal n.natAbs).length + 1 := by
        rw [signedText, if_pos negative, List.length_cons, List.length_map]
      have span : (dst + 24 - (pos - 1)).toNat = (signedText n).length := by
        rw [BitVec.toNat_sub, top, before]
        omega
      obtain ⟨ptr, len⟩ := string_word_comm (p := pos - 1) (l := dst + 24 - (pos - 1))
        (by omega) (by omega)
      rw [before, position] at minus
      rw [decide_eq_true negative, if_pos rfl, minus, Option.bind_some]
      refine ⟨_, dst.toNat + 24, congrArg (fun m => some (_, m)) (signed_negative negative).symm, ?_,
        (congrArg BitVec.toNat len).trans span, by omega,
        Nat.le_refl _⟩
      rw [ptr, before]
      omega
    · have text : (signedText n).length = (decimal n.natAbs).length := by
        rw [signedText, if_neg negative, List.length_map]
      have span : (dst + 24 - pos).toNat = (signedText n).length := by
        rw [BitVec.toNat_sub, top]
        omega
      obtain ⟨ptr, len⟩ := string_word_comm (p := pos) (l := dst + 24 - pos)
        (by omega) (by omega)
      rw [decide_eq_false negative, if_neg Bool.false_ne_true]
      refine ⟨_, dst.toNat + 24, congrArg (fun m => some (_, m)) (signed_positive negative).symm, ?_,
        (congrArg BitVec.toNat len).trans span, by omega,
        Nat.le_refl _⟩
      rw [ptr]
      omega

theorem emitNumKeyDecimal_eq (inside : 4184 ≤ m.size) {n : Int} (fits : inI64 n = true)
    (short : n.natAbs < 10 ^ 18 * 9) :
    ∃ ptr len, emitNumKeyDecimal m (.ofInt 64 n) = some (ptr, len, m.signed 4184 n) ∧
      ptr.toNat = 4184 - (signedText n).length ∧ len.toNat = (signedText n).length := by
  obtain ⟨sign, value⟩ := absolute fits
  have few := count_payload (n := n.natAbs) (by omega)
  unfold emitNumKeyDecimal
  simp only
  generalize (if (BitVec.ofInt 64 n).slt 0 then 0 - BitVec.ofInt 64 n else BitVec.ofInt 64 n) = u
    at *
  obtain ⟨ptr, emitted, position⟩ := keyDigits_eq 21 m 4184 0 u (by rw [value]; omega)
    (by rw [value]; exact Nat.le_trans few (by decide)) (Nat.le_refl _) inside
    (by rw [value]; omega)
  rw [value, show (4184 : I64).toNat = 4184 from rfl] at emitted position
  rw [zero_add] at emitted
  have word : (BitVec.ofNat 64 (U256.count n.natAbs)).toNat = U256.count n.natAbs := by
    rw [BitVec.toNat_ofNat]
    omega
  rw [emitted, sign, Option.bind_eq_bind, Option.bind_some]
  by_cases zero : n = 0
  · subst zero
    have byte := storeKeyByte (m := m) (p := 4183) (b := 48) (by decide) inside (by decide)
    rw [if_pos (show BitVec.ofNat 64 (U256.count (Int.natAbs 0)) = 0 from rfl),
      show U256.count (Int.natAbs 0) = 0 from rfl, digits_none, byte, Option.bind_eq_bind,
      Option.bind_some]
    refine ⟨4183, 1, congrArg (fun m => some ((4183 : I64), (1 : I64), m)) ?_, rfl, rfl⟩
    rw [signed_positive (by decide)]
    exact setByte_digit (a := 4184) (by decide) 0
  · have positive : n.natAbs ≠ 0 := mt Int.natAbs_eq_zero.mp zero
    have length := U256.decimal_length positive
    have one := U256.count_pos positive
    have counted : BitVec.ofNat 64 (U256.count n.natAbs) ≠ 0 := by
      rw [ne_eq, eq_zero_iff, word]
      omega
    rw [if_neg counted, Option.bind_some]
    by_cases negative : n < 0
    · have before := U256.before_toNat (p := ptr) (by omega)
      have minus := storeKeyByte (m := m.digits 4184 (U256.count n.natAbs) n.natAbs)
        (p := ptr - 1) (b := 45) (by omega) inside (by decide)
      have text : (signedText n).length = U256.count n.natAbs + 1 := by
        rw [signedText, if_pos negative, List.length_cons, List.length_map, length]
      have longer : (BitVec.ofNat 64 (U256.count n.natAbs) + 1).toNat = (signedText n).length := by
        rw [BitVec.toNat_add, word, show (1 : I64).toNat = 1 from rfl]
        omega
      rw [before, position] at minus
      rw [decide_eq_true negative, if_pos rfl]
      dsimp only
      rw [minus, Option.bind_eq_bind, Option.bind_some, signed_negative negative, length]
      exact ⟨_, _, rfl, by omega, longer⟩
    · have text : (signedText n).length = U256.count n.natAbs := by
        rw [signedText, if_neg negative, List.length_map, length]
      rw [decide_eq_false negative, if_neg Bool.false_ne_true, signed_positive negative, length]
      exact ⟨ptr, _, rfl, by omega, word.trans text.symm⟩

/-! ### The three together -/

/-- Only the bytes of a block and the heap's cell differ. -/
def KeptOutside (m m' : LinearMemory) (lo hi : Nat) : Prop :=
  ∀ i, ¬(lo ≤ i ∧ i < hi) → ¬(56 ≤ i ∧ i < 64) → m'.bytes i = m.bytes i

/-- Each routine writes the canonical text of a number, in its own block. -/
structure Renders (m : LinearMemory) (limit : I64) (n : Payload) : Prop where
  toString : ∃ s m', toStringFunc m (tagWord n.val) = some (s, m') ∧ m'.text s = signedText n.val ∧
    KeptOutside m m' (m.number 56 8) (m.number 56 8 + 21)
  i64ToStr : ∃ s m', hI64ToStr limit m (Builtin.untag (tagWord n.val)) = some (s, m') ∧
    m'.text s = signedText n.val ∧ KeptOutside m m' (m.number 56 8) (m.number 56 8 + 24)
  key : ∃ ptr len m', emitNumKeyDecimal m (Builtin.untag (tagWord n.val)) = some (ptr, len, m') ∧
    m'.bytesAt ptr.toNat len.toNat = signedText n.val ∧
    ∀ i, ¬(4164 ≤ i ∧ i < 4184) → m'.bytes i = m.bytes i

/-- The bytes of a number's storage key. -/
def keyOf (m : LinearMemory) (n : Payload) : Option (List (BitVec 8)) := do
  let (ptr, len, m) ← emitNumKeyDecimal m (Builtin.untag (tagWord n.val))
  some (m.bytesAt ptr.toNat len.toNat)

def KeysApart : Prop :=
  ∀ m m' : LinearMemory, 4184 ≤ m.size → 4184 ≤ m'.size →
    ∀ a b : Payload, keyOf m a = keyOf m' b ↔ a = b

theorem payload_short (n : Payload) : n.val.natAbs < 10 ^ 18 * 9 := by
  have fits := n.property
  simp only [inPayload, Bool.and_eq_true, decide_eq_true_eq] at fits
  omega

theorem key_renders (inside : 4184 ≤ m.size) (n : Payload) :
    ∃ ptr len, emitNumKeyDecimal m (Builtin.untag (tagWord n.val)) =
        some (ptr, len, m.signed 4184 n.val) ∧
      (m.signed 4184 n.val).bytesAt ptr.toNat len.toNat = signedText n.val := by
  have short := payload_short n
  have few := signedText_length_le (n := n.val) (by omega)
  obtain ⟨ptr, len, run, start, length⟩ :=
    emitNumKeyDecimal_eq inside (inI64_of_inPayload n.property) short
  refine ⟨ptr, len, by rw [untag_tagWord, run], ?_⟩
  rw [start, length]
  exact bytesAt_signed (by omega)

theorem keysApart : KeysApart := by
  intro m m' inside inside' a b
  obtain ⟨ptr, len, run, text⟩ := key_renders inside a
  obtain ⟨ptr', len', run', text'⟩ := key_renders inside' b
  rw [keyOf, keyOf, run, run', Option.bind_eq_bind, Option.bind_some, Option.bind_some,
    Option.some.injEq, text, text']
  exact ⟨fun same => Subtype.ext (signedText_injective same), fun same => by rw [same]⟩

theorem i64ToStr_renders (room : Room m limit) (n : Payload) :
    ∃ s m', hI64ToStr limit m (Builtin.untag (tagWord n.val)) = some (s, m') ∧
      m'.text s = signedText n.val ∧ KeptOutside m m' (m.number 56 8) (m.number 56 8 + 24) := by
  have short := payload_short n
  obtain ⟨s, a, run, ptr, len, low, high⟩ :=
    hI64ToStr_eq room (inI64_of_inPayload n.property) (by omega)
  refine ⟨s, _, by rw [untag_tagWord, run], ?_, fun i outside apart => ?_⟩
  · change bytesAt _ _ _ = _
    rw [ptr, len]
    exact bytesAt_signed (by omega)
  · rw [signed_frame (by omega) (by omega), put_bytes, if_neg (by omega)]

/-- The word of a number without its tag bits, when no sign is kept. -/
theorem tagWord_div (n : Payload) :
    (tagWord n.val).toNat / 8 = if 0 ≤ n.val then n.val.natAbs else 2 ^ 61 - n.val.natAbs := by
  have fits := n.property
  simp only [inPayload, Bool.and_eq_true, decide_eq_true_eq] at fits
  have word := BitVec.toNat_ofInt (n := 64) (n.val * 8)
  rw [tagWord]
  split_ifs
  · omega
  · omega

theorem tagWord_tag (n : Payload) : tagWord n.val &&& 7 = 0 := by
  have low : (tagWord n.val &&& 7).toNat = (tagWord n.val).toNat % 8 := by
    rw [BitVec.toNat_and]
    exact Nat.and_two_pow_sub_one_eq_mod _ 3
  have word := BitVec.toNat_ofInt (n := 64) (n.val * 8)
  rw [eq_zero_iff, low, tagWord]
  omega

theorem toString_renders_iff (room : Room m limit) (n : Payload) :
    (∃ s m', toStringFunc m (tagWord n.val) = some (s, m') ∧ m'.text s = signedText n.val ∧
      KeptOutside m m' (m.number 56 8) (m.number 56 8 + 21)) ↔ 0 ≤ n.val := by
  obtain ⟨s, run, ptr, len⟩ := toStringFunc_eq room (tagWord_tag n)
  have short := payload_short n
  have few : (decimal ((tagWord n.val).toNat / 8)).length ≤ 20 := by
    have below := (tagWord n.val).isLt
    have count := count_payload (n := (tagWord n.val).toNat / 8) (by omega)
    by_cases zero : (tagWord n.val).toNat / 8 = 0
    · rw [zero]
      decide
    · rw [U256.decimal_length zero]
      omega
  have text := U256.digits_text (m := m.put 56 8 (m.number 56 8 + 21))
    (a := m.number 56 8 + (decimal ((tagWord n.val).toNat / 8)).length)
    (n := (tagWord n.val).toNat / 8) (Nat.le_refl _) (Nat.le_add_left _ _)
  rw [Nat.add_sub_cancel, ← len, ← ptr] at text
  constructor
  · rintro ⟨s', m', equal, written, -⟩
    obtain ⟨rfl, rfl⟩ : s = s' ∧ _ = m' := by
      rw [run] at equal
      exact Prod.mk.inj (Option.some.inj equal)
    by_contra negative
    rw [len, ptr] at text
    rw [LinearMemory.text, len, ptr, text, signedText, if_pos (by omega)] at written
    exact minus_ne_digits _ _ written.symm
  · intro positive
    refine ⟨s, _, run, ?_, fun i outside apart => ?_⟩
    · rw [len, ptr] at text
      rw [LinearMemory.text, len, ptr, text, tagWord_div, if_pos positive, signedText,
        if_neg (by omega)]
    · rw [digits_bytes, if_neg (by omega), put_bytes, if_neg (by omega)]

/-- The helper shifts its word as one without a sign; the other two routines keep the sign. -/
theorem numbersRender_iff (room : Room m limit) (n : Payload) :
    Renders m limit n ∧ KeysApart ↔ 0 ≤ n.val := by
  refine ⟨fun both => (toString_renders_iff room n).mp both.1.toString, fun positive => ?_⟩
  have scratch := room.scratch
  have few := signedText_length_le (n := n.val) (Nat.lt_trans (payload_short n) (by decide))
  obtain ⟨ptr, len, run, text⟩ := key_renders scratch n
  exact ⟨⟨(toString_renders_iff room n).mpr positive, i64ToStr_renders room n, ptr, len, _, run,
    text, fun i outside => signed_frame (by omega) (by omega)⟩, keysApart⟩

/-- A page with the heap at 8192. -/
def page : LinearMemory := (⟨fun _ => 0, 65536⟩ : LinearMemory).put 56 8 8192

theorem page_heap : page.number 56 8 = 8192 := by
  rw [page, number_put]
  rfl

theorem page_room : Room page 65536 :=
  ⟨by rw [page_heap]; decide, by rw [page_heap]; decide, Nat.le_refl 65536,
    show 65536 ≤ 2 ^ 32 by decide, show 4184 ≤ 65536 by decide⟩

theorem numbersRender_seven : Renders page 65536 ⟨7, by decide⟩ ∧ KeysApart :=
  (numbersRender_iff page_room ⟨7, by decide⟩).mpr (by decide)

/-- `-1` becomes `2305843009213693951`. -/
theorem numbersRender_minus : ¬(Renders page 65536 ⟨-1, by decide⟩ ∧ KeysApart) := fun both =>
  absurd ((toString_renders_iff page_room ⟨-1, by decide⟩).mp both.1.toString) (by decide)

end NumberText

end LispRlm.WasmEmit
