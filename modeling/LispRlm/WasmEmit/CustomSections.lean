import Mathlib.Data.List.Basic
import Mathlib.Data.Nat.Bitwise
import Mathlib.Tactic.Ring

/-! The custom sections of a module: the keys of its parameters and the names of its functions. -/

namespace LispRlm.WasmEmit.CustomSections

/-! ### Numbers -/

/-- `leb_u32` -/
def leb (v : Nat) : List UInt8 :=
  if v >>> 7 = 0 then [UInt8.ofNat (v &&& 0x7f)]
  else (UInt8.ofNat (v &&& 0x7f) ||| 0x80) :: leb (v >>> 7)
termination_by v
decreasing_by
  rename_i more
  rw [Nat.shiftRight_eq_div_pow] at more ⊢
  omega

/-- A shift by the width of the word or more, and a place beyond the last one. -/
inductive Fault
  | shift
  | overflow

/-- Why a decoder ends before its result: it returns `None`, or it does what must not happen. -/
inductive Stop
  | none
  | fault (f : Fault)

/-- A loop over the bytes of a number, which ends early or not where a number has many of them. -/
def readLeb (bounded : Bool) (shift acc : Nat) : List UInt8 → Except Stop (Nat × List UInt8)
  | [] => .error .none
  | b :: rest =>
      if 64 ≤ shift then .error (.fault .shift)
      else
        let acc := acc ||| ((b &&& 0x7f).toNat <<< shift) % 2 ^ 64
        if b &&& 0x80 = 0 then .ok (acc, rest)
        else if bounded ∧ 35 < shift + 7 then .error .none
        else readLeb bounded (shift + 7) acc rest

/-- The size of a section in `decode_params_section`. -/
def readSize (bytes : List UInt8) : Except Stop (Nat × List UInt8) := readLeb true 0 0 bytes

/-- The other numbers of `decode_params_section`. -/
def readNumber (bytes : List UInt8) : Except Stop (Nat × List UInt8) := readLeb false 0 0 bytes

def readLebU32 (bytes : List UInt8) : Except Stop (Nat × List UInt8) :=
  (readLeb true 0 0 bytes).map fun (v, rest) => (v % 2 ^ 32, rest)

theorem and_low (b : UInt8) : (b &&& 0x7f).toNat = b.toNat % 128 := by
  rw [UInt8.toNat_and]
  exact Nat.and_two_pow_sub_one_eq_mod b.toNat 7

theorem and_high (b : UInt8) : b &&& 0x80 = 0 ↔ b.toNat < 128 := by
  have bound := b.toNat_lt
  rw [← UInt8.toNat_inj, UInt8.toNat_and]
  change b.toNat &&& 2 ^ 7 = 0 ↔ _
  rw [Nat.and_two_pow, Nat.testBit_eq_decide_div_mod_eq]
  by_cases high : b.toNat / 2 ^ 7 % 2 = 1
  · simp only [high, decide_true, Bool.toNat_true]
    omega
  · simp only [high, decide_false, Bool.toNat_false]
    omega

/-- What stays to be read is shorter. -/
theorem readLeb_shorter {bounded : Bool} {shift acc v : Nat} {bytes rest : List UInt8}
    (read : readLeb bounded shift acc bytes = .ok (v, rest)) : rest.length < bytes.length := by
  induction bytes generalizing shift acc with
  | nil => cases read
  | cons b bytes ih =>
    rw [readLeb] at read
    split at read
    · cases read
    dsimp only at read
    split at read
    · cases read
      exact Nat.lt_succ_self _
    split at read
    · cases read
    · exact Nat.lt_succ_of_lt (ih read)

theorem readLebU32_shorter {v : Nat} {bytes rest : List UInt8}
    (read : readLebU32 bytes = .ok (v, rest)) : rest.length < bytes.length := by
  rw [readLebU32] at read
  cases inner : readLeb true 0 0 bytes with
  | error e =>
    rw [inner] at read
    cases read
  | ok found =>
    rw [inner] at read
    cases read
    exact readLeb_shorter inner

theorem toNat_last (v : Nat) (small : v >>> 7 = 0) : (UInt8.ofNat (v &&& 0x7f)).toNat = v := by
  rw [Nat.shiftRight_eq_div_pow] at small
  rw [UInt8.toNat_ofNat', Nat.and_two_pow_sub_one_eq_mod v 7]
  omega

theorem toNat_more (v : Nat) : (UInt8.ofNat (v &&& 0x7f) ||| 0x80).toNat = v % 128 + 128 := by
  have low : v % 128 < 2 ^ 7 := Nat.mod_lt _ (by decide)
  have byte : v % 128 % 2 ^ 8 = v % 128 := Nat.mod_eq_of_lt (by omega)
  rw [UInt8.toNat_or, UInt8.toNat_ofNat', Nat.and_two_pow_sub_one_eq_mod v 7, byte]
  change v % 128 ||| 2 ^ 7 * 1 = _
  rw [Nat.or_comm, ← Nat.two_pow_add_eq_or_of_lt low]
  omega

/-- The bits of one byte are above those that were read. -/
theorem or_byte {acc shift x : Nat} (low : acc < 2 ^ shift) (byte : x < 128) (short : shift ≤ 35) :
    acc ||| (x <<< shift) % 2 ^ 64 = acc + x * 2 ^ shift := by
  have narrow : x <<< shift < 2 ^ 64 := by
    have power := Nat.pow_le_pow_right (n := 2) (by decide) short
    have product := Nat.mul_le_mul (Nat.le_of_lt_succ byte) power
    rw [Nat.shiftLeft_eq]
    omega
  rw [Nat.mod_eq_of_lt narrow, Nat.shiftLeft_eq, Nat.or_comm, Nat.mul_comm x,
    ← Nat.two_pow_add_eq_or_of_lt low, Nat.add_comm]

/-- Every loop reads what was written, by induction on the bytes that are written. -/
theorem readLeb_leb (bounded : Bool) (rest : List UInt8) {v shift acc : Nat} (low : acc < 2 ^ shift)
    (short : shift ≤ 35) (fits : v * 2 ^ shift < 2 ^ 36) :
    readLeb bounded shift acc (leb v ++ rest) = .ok (acc + v * 2 ^ shift, rest) := by
  induction v using leb.induct generalizing shift acc with
  | case1 v last =>
    have small : v < 128 := by
      rw [Nat.shiftRight_eq_div_pow] at last
      omega
    have ends : UInt8.ofNat (v &&& 0x7f) &&& 0x80 = 0 := by
      rw [and_high, toNat_last v last]
      exact small
    rw [leb, if_pos last, List.cons_append, List.nil_append, readLeb, if_neg (by omega), and_low,
      toNat_last v last, Nat.mod_eq_of_lt small, or_byte low small short]
    exact if_pos ends
  | case2 v more ih =>
    rw [Nat.shiftRight_eq_div_pow] at more
    have some : 1 ≤ v / 2 ^ 7 := Nat.one_le_iff_ne_zero.mpr more
    have split : v = v % 128 + v / 2 ^ 7 * 128 := by omega
    have power : 2 ^ (shift + 7) = 2 ^ shift * 128 := Nat.pow_add 2 shift 7
    have digit : v % 128 < 128 := Nat.mod_lt _ (by decide)
    have high : v / 2 ^ 7 * 2 ^ (shift + 7) ≤ v * 2 ^ shift := by
      calc
        v / 2 ^ 7 * 2 ^ (shift + 7) = v / 2 ^ 7 * 128 * 2 ^ shift := by rw [power]; ring
        _ ≤ v * 2 ^ shift := Nat.mul_le_mul_right _ (Nat.div_mul_le_self v 128)
    have next : shift + 7 ≤ 35 := by
      by_contra far
      have wide := Nat.pow_le_pow_right (n := 2) (by decide) (show 36 ≤ shift + 7 by omega)
      have product := Nat.mul_le_mul some (Nat.le_refl (2 ^ (shift + 7)))
      omega
    have goes : ¬ (UInt8.ofNat (v &&& 0x7f) ||| 0x80) &&& 0x80 = 0 := by
      rw [and_high, toNat_more]
      omega
    have bits : (v % 128 + 128) % 128 = v % 128 := by omega
    have within : acc + v % 128 * 2 ^ shift < 2 ^ (shift + 7) := by
      have product := Nat.mul_le_mul_right (2 ^ shift) (Nat.le_of_lt_succ digit)
      omega
    have later := ih within next (Nat.lt_of_le_of_lt (by
      rw [Nat.shiftRight_eq_div_pow]
      exact high) fits)
    rw [Nat.shiftRight_eq_div_pow] at later
    rw [leb, if_neg (by rw [Nat.shiftRight_eq_div_pow]; exact more), List.cons_append, readLeb,
      if_neg (by omega), and_low, toNat_more, bits, or_byte low digit short]
    dsimp only
    rw [if_neg goes, if_neg (by omega), Nat.shiftRight_eq_div_pow, later]
    congr 2
    calc
      acc + v % 128 * 2 ^ shift + v / 2 ^ 7 * 2 ^ (shift + 7) =
          acc + (v % 128 + v / 2 ^ 7 * 128) * 2 ^ shift := by rw [power]; ring
      _ = acc + v * 2 ^ shift := by rw [← split]

/-! ### The encoders -/

def bytesOf (s : String) : List UInt8 := s.toByteArray.data.toList

def paramsName : List UInt8 := bytesOf "near:params"

def encodeKey (key : String) : List UInt8 := leb ((bytesOf key).length % 2 ^ 32) ++ bytesOf key

def paramsPayload (keys : List String) : List UInt8 :=
  leb (paramsName.length % 2 ^ 32) ++ paramsName ++ leb (keys.length % 2 ^ 32) ++
    keys.flatMap encodeKey

def encodeParamsSection (keys : List String) : List UInt8 :=
  0 :: leb ((paramsPayload keys).length % 2 ^ 32) ++ paramsPayload keys

def magic : List UInt8 := [0x00, 0x61, 0x73, 0x6d]

def appendParamsSection (wasm : List UInt8) (keys : List String) : List UInt8 :=
  if keys.isEmpty ∨ wasm.length < 8 ∨ wasm.take 4 ≠ magic then wasm
  else wasm.take 8 ++ encodeParamsSection keys ++ wasm.drop 8

/-! ### The decoders -/

/-- `String::from_utf8_lossy`; `replaced` is what it gives for bytes that are not UTF-8. -/
def fromUtf8Lossy (replaced : List UInt8 → String) (bytes : List UInt8) : String :=
  if valid : (ByteArray.mk bytes.toArray).IsValidUTF8 then String.ofByteArray ⟨bytes.toArray⟩ valid
  else replaced bytes

/-- The first `n` of the bytes that are left of `len`, and those after them. -/
def slice (len n : Nat) (rest : List UInt8) : Except Stop (List UInt8 × List UInt8) :=
  if 2 ^ 64 ≤ len - rest.length + n then .error (.fault .overflow)
  else if rest.length < n then .error .none
  else .ok (rest.take n, rest.drop n)

/-- A count that was read of a payload of `len` bytes, for which room is reserved. -/
structure Counted where
  count : Nat
  len : Nat
  rest : List UInt8

/-- The number of keys, if the section has the name of that of the parameters. -/
def paramsCount (payload : List UInt8) : Except Stop (Option Counted) :=
  match readNumber payload with
  | .error e => .error e
  | .ok (nlen, rest) =>
      match slice payload.length nlen rest with
      | .error e => .error e
      | .ok (name, rest) =>
          if name = paramsName then
            match readNumber rest with
            | .error e => .error e
            | .ok (count, rest) => .ok (some ⟨count, payload.length, rest⟩)
          else .ok none

/-- What `decode_params_section` does of a module of `len` bytes before it reserves room. -/
def paramsHeader (len : Nat) : List UInt8 → Except Stop Counted
  | [] => .error .none
  | id :: rest =>
      match _read : readSize rest with
      | .error e => .error e
      | .ok (size, rest) =>
          if 2 ^ 64 ≤ len - rest.length + size then .error (.fault .overflow)
          else if id = 0 then
            match paramsCount (rest.take size) with
            | .error e => .error e
            | .ok (some counted) => .ok counted
            | .ok none => paramsHeader len (rest.drop size)
          else paramsHeader len (rest.drop size)
termination_by bytes => bytes.length
decreasing_by
  all_goals
    have := readLeb_shorter _read
    simp only [List.length_drop, List.length_cons]
    omega

def decodeKeys (replaced : List UInt8 → String) (len : Nat) :
    Nat → List UInt8 → Except Stop (List String)
  | 0, _ => .ok []
  | count + 1, rest =>
      match readNumber rest with
      | .error e => .error e
      | .ok (klen, rest) =>
          match slice len klen rest with
          | .error e => .error e
          | .ok (key, rest) =>
              match decodeKeys replaced len count rest with
              | .error e => .error e
              | .ok keys => .ok (fromUtf8Lossy replaced key :: keys)

def decodeParamsSection (replaced : List UInt8 → String) (wasm : List UInt8) :
    Except Stop (List String) :=
  match paramsHeader wasm.length (wasm.drop 8) with
  | .error e => .error e
  | .ok counted => decodeKeys replaced counted.len counted.count counted.rest

/-- The sections of a module of `len` bytes, up to one whose size cannot be read. -/
def sections (len : Nat) : List UInt8 → Except Stop (List (UInt8 × List UInt8))
  | [] => .ok []
  | id :: rest =>
      match _read : readLebU32 rest with
      | .error _ => .ok []
      | .ok (size, rest) =>
          if 2 ^ 64 ≤ len - rest.length + size then .error (.fault .overflow)
          else
            match sections len (rest.drop size) with
            | .error e => .error e
            | .ok more => .ok ((id, rest.take size) :: more)
termination_by bytes => bytes.length
decreasing_by
  have := readLebU32_shorter _read
  simp only [List.length_drop, List.length_cons]
  omega

def sectionName : List UInt8 := bytesOf "name"

/-- The number of names in the first subsection of functions. -/
def subsections (len : Nat) : List UInt8 → Except Stop (Option Counted)
  | [] => .ok none
  | sub :: rest =>
      match _read : readLebU32 rest with
      | .error e => .error e
      | .ok (size, rest) =>
          if 2 ^ 64 ≤ len - rest.length + size then .error (.fault .overflow)
          else if sub = 1 then
            match readLebU32 rest with
            | .error e => .error e
            | .ok (count, rest) => .ok (some ⟨count, len, rest⟩)
          else subsections len (rest.drop size)
termination_by bytes => bytes.length
decreasing_by
  have := readLebU32_shorter _read
  simp only [List.length_drop, List.length_cons]
  omega

def namesCount (payload : List UInt8) : Except Stop (Option Counted) :=
  match readLebU32 payload with
  | .error e => .error e
  | .ok (nlen, rest) =>
      match slice payload.length nlen rest with
      | .error e => .error e
      | .ok (name, rest) =>
          if name = sectionName then subsections payload.length rest else .ok none

/-- What `decode_function_names` does of the sections before it reserves room. -/
def namesHeader : List (UInt8 × List UInt8) → Except Stop Counted
  | [] => .error .none
  | (id, payload) :: more =>
      if id ≠ 0 then namesHeader more
      else
        match namesCount payload with
        | .error e => .error e
        | .ok (some counted) => .ok counted
        | .ok none => namesHeader more

def decodeNames (replaced : List UInt8 → String) (len : Nat) :
    Nat → List UInt8 → Except Stop (List (Nat × String))
  | 0, _ => .ok []
  | count + 1, rest =>
      match readLebU32 rest with
      | .error e => .error e
      | .ok (idx, rest) =>
          match readLebU32 rest with
          | .error e => .error e
          | .ok (nlen, rest) =>
              match slice len nlen rest with
              | .error e => .error e
              | .ok (name, rest) =>
                  match decodeNames replaced len count rest with
                  | .error e => .error e
                  | .ok names => .ok ((idx, fromUtf8Lossy replaced name) :: names)

def namesRoom (wasm : List UInt8) : Except Stop Counted :=
  match sections wasm.length (wasm.drop 8) with
  | .error e => .error e
  | .ok found => namesHeader found

def decodeFunctionNames (replaced : List UInt8 → String) (wasm : List UInt8) :
    Except Stop (List (Nat × String)) :=
  match namesRoom wasm with
  | .error e => .error e
  | .ok counted => decodeNames replaced counted.len counted.count counted.rest

end LispRlm.WasmEmit.CustomSections
