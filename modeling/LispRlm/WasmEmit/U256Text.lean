import LispRlm.WasmEmit.U256Helpers

/-! Decimal text into the cells of `u256` values. -/

namespace LispRlm.WasmEmit

open Foundation LinearMemory

/-! ### Strings -/

/-- The address in a string's word. -/
def strPtr (s : I64) : I64 := s >>> 3 &&& 0xFFFFFFFF

def strLen (s : I64) : I64 := s >>> 3 >>> 32

namespace LinearMemory

def loadByte (m : LinearMemory) (p : I64) : Option (BitVec 8) :=
  if (p.setWidth 32).toNat < m.size then some (m.bytes (p.setWidth 32).toNat) else none

def storeByte (m : LinearMemory) (p w : I64) : Option LinearMemory :=
  if (p.setWidth 32).toNat < m.size then
    some { m with bytes := fun i => if i = (p.setWidth 32).toNat then w.setWidth 8 else m.bytes i }
  else none

/-- The bytes of a string. -/
def text (m : LinearMemory) (s : I64) : List (BitVec 8) :=
  (List.range (strLen s).toNat).map fun i => m.bytes ((strPtr s).toNat + i)

/-- A string's bytes are in the memory. -/
structure Holds (m : LinearMemory) (s : I64) : Prop where
  inside : (strPtr s).toNat + (strLen s).toNat ≤ m.size
  small : m.size ≤ 2 ^ 32

theorem Holds.loadByte {m : LinearMemory} {s : I64} (held : m.Holds s) {i : Nat}
    (within : i < (strLen s).toNat) :
    m.loadByte (strPtr s + BitVec.ofNat 64 i) = some (m.bytes ((strPtr s).toNat + i)) := by
  have inside := held.inside
  have small := held.small
  have address : ((strPtr s + BitVec.ofNat 64 i).setWidth 32).toNat = (strPtr s).toNat + i := by
    rw [BitVec.toNat_setWidth, BitVec.toNat_add, BitVec.toNat_ofNat]
    omega
  rw [LinearMemory.loadByte, address, if_pos (by omega)]

end LinearMemory

namespace U256

/-! ### `h_u256_parse` -/

/-- The limbs times ten, and the carry. -/
def mulTen : I64 → List I64 → List I64 × I64
  | carry, [] => ([], carry)
  | carry, l :: ls =>
      let t := l * 10 + carry
      let (rest, out) := mulTen (highHalf t) ls
      (lowHalf t :: rest, out)

/-- One digit more. No digit and a carry out of the last limb trap. -/
def parseDigit (limbs : List I64) (byte : BitVec 8) : Option (List I64) :=
  let ch : I64 := byte.setWidth 64
  if ch.ult 48 || (57 : I64).ult ch then none
  else
    let (limbs, carry) := mulTen (ch - 48) limbs
    if carry.setWidth 32 ≠ (0 : BitVec 32) then none else some limbs

def hParse (m : LinearMemory) (s dst : I64) : Option LinearMemory :=
  if s &&& 7 ≠ 5 then none
  else if strLen s = 0 then none
  else do
    let limbs ← (List.range (strLen s).toNat).foldlM (fun limbs i => do
      let byte ← m.loadByte (strPtr s + BitVec.ofNat 64 i)
      parseDigit limbs byte) (List.replicate 8 0)
    storeWords dst m 0 (Halves.windows limbs)

/-! ### What it reads -/

/-- A digit after the number so far. -/
def decimalStep (v : Nat) (byte : BitVec 8) : Option Nat :=
  if 48 ≤ byte.toNat ∧ byte.toNat ≤ 57 then some (10 * v + (byte.toNat - 48)) else none

/-- The number that a text of one digit and more stands for, below `2 ^ 256`. -/
def parsed (text : List (BitVec 8)) : Option Nat :=
  if text = [] then none else (text.foldlM decimalStep 0).filter (· < 2 ^ 256)

theorem mulTen_spec {carry : I64} {ls : List I64} (small : carry.toNat < 10)
    (valid : Halves.Valid ls) :
    (mulTen carry ls).1.length = ls.length ∧ Halves.Valid (mulTen carry ls).1 ∧
      (mulTen carry ls).2.toNat < 10 ∧
      Halves.value (mulTen carry ls).1 + 2 ^ (32 * ls.length) * (mulTen carry ls).2.toNat =
        10 * Halves.value ls + carry.toNat := by
  induction ls generalizing carry with
  | nil => exact ⟨rfl, .nil, small, by simp [mulTen]⟩
  | cons l ls ih =>
      have head := valid.head
      have product : (l * 10 + carry).toNat = 10 * l.toNat + carry.toNat := by
        rw [BitVec.toNat_add, BitVec.toNat_mul, show (10 : I64).toNat = 10 from rfl]
        omega
      have next : (highHalf (l * 10 + carry)).toNat < 10 := by
        rw [highHalf_toNat, product]
        omega
      obtain ⟨length, rest, out, total⟩ := ih next valid.tail
      have here := Halves.low_add_high (l * 10 + carry)
      refine ⟨congrArg (· + 1) length, .cons (Halves.lowHalf_lt _) rest, out, ?_⟩
      simp only [mulTen, Halves.value_cons, List.length_cons, Halves.base_pow]
      rw [product] at here
      linear_combination here + 2 ^ 32 * total

theorem parseDigit_spec {ls : List I64} (byte : BitVec 8) (valid : Halves.Valid ls) :
    match decimalStep (Halves.value ls) byte with
    | none => parseDigit ls byte = none
    | some v =>
        if v < 2 ^ (32 * ls.length) then
          ∃ ls', parseDigit ls byte = some ls' ∧ Halves.Valid ls' ∧ ls'.length = ls.length ∧
            Halves.value ls' = v
        else parseDigit ls byte = none := by
  have wide : (byte.setWidth 64).toNat = byte.toNat := by
    have small := byte.isLt
    rw [BitVec.toNat_setWidth]
    omega
  have refused : ((byte.setWidth 64).ult 48 || (57 : I64).ult (byte.setWidth 64)) = true ↔
      ¬(48 ≤ byte.toNat ∧ byte.toNat ≤ 57) := by
    rw [Bool.or_eq_true, U128.ult_eq, U128.ult_eq, decide_eq_true_iff, decide_eq_true_iff, wide,
      show (48 : I64).toNat = 48 from rfl, show (57 : I64).toNat = 57 from rfl]
    omega
  unfold decimalStep parseDigit
  by_cases digit : 48 ≤ byte.toNat ∧ byte.toNat ≤ 57
  · have value : (byte.setWidth 64 - 48 : I64).toNat = byte.toNat - 48 := by
      rw [BitVec.toNat_sub, wide, show (48 : I64).toNat = 48 from rfl]
      omega
    obtain ⟨length, made, out, total⟩ :=
      mulTen_spec (show (byte.setWidth 64 - 48 : I64).toNat < 10 by rw [value]; omega) valid
    have small := Halves.value_lt made
    rw [length] at small
    rw [value] at total
    dsimp only
    rw [if_pos digit, if_neg (mt refused.mp (not_not.mpr digit))]
    dsimp only
    generalize mulTen (byte.setWidth 64 - 48) ls = next at *
    obtain ⟨ls', carry⟩ := next
    dsimp only at *
    simp only [Halves.low_zero (Nat.lt_of_lt_of_le out (by decide)), ne_eq, ite_not]
    split_ifs with fits zero zero
    · rw [zero, Nat.mul_zero, Nat.add_zero] at total
      exact ⟨ls', rfl, made, length, total⟩
    · have exceeds := Nat.le_mul_of_pos_right (2 ^ (32 * ls.length)) (Nat.pos_of_ne_zero zero)
      omega
    · rw [zero, Nat.mul_zero, Nat.add_zero] at total
      omega
    · rfl
  · dsimp only
    rw [if_neg digit, if_pos (refused.mpr digit)]

theorem decimal_le {v v' : Nat} {text : List (BitVec 8)}
    (read : text.foldlM decimalStep v = some v') : v ≤ v' := by
  induction text generalizing v with
  | nil =>
      cases read
      exact Nat.le_refl _
  | cons byte text ih =>
      rw [List.foldlM_cons] at read
      obtain ⟨next, step, rest⟩ := Option.bind_eq_some_iff.mp read
      have more := ih rest
      unfold decimalStep at step
      split_ifs at step
      cases step
      omega

/-- The limbs go along with the number, up to the step that leaves them no room. -/
theorem foldlM_parseDigit {ls : List I64} {n : Nat} (text : List (BitVec 8))
    (valid : Halves.Valid ls) (length : ls.length = n) :
    match (text.foldlM decimalStep (Halves.value ls)).filter (· < 2 ^ (32 * n)) with
    | none => text.foldlM parseDigit ls = none
    | some v => ∃ ls', text.foldlM parseDigit ls = some ls' ∧ Halves.Valid ls' ∧
        ls'.length = n ∧ Halves.value ls' = v := by
  induction text generalizing ls with
  | nil =>
      have small := Halves.value_lt valid
      rw [length] at small
      rw [List.foldlM_nil, Option.pure_def, Option.filter_some, if_pos (decide_eq_true small)]
      exact ⟨ls, rfl, valid, length, rfl⟩
  | cons byte text ih =>
      have step := parseDigit_spec byte valid
      rw [length] at step
      rw [List.foldlM_cons, List.foldlM_cons]
      cases next : decimalStep (Halves.value ls) byte with
      | none =>
          rw [next] at step
          dsimp only at step
          rw [step]
          rfl
      | some v =>
          rw [next] at step
          dsimp only at step
          rw [Option.bind_eq_bind, Option.bind_some]
          by_cases fits : v < 2 ^ (32 * n)
          · rw [if_pos fits] at step
            obtain ⟨ls', made, valid', length', rfl⟩ := step
            rw [made]
            exact ih valid' length'
          · rw [if_neg fits] at step
            rw [step]
            have none : (text.foldlM decimalStep v).filter (· < 2 ^ (32 * n)) = none := by
              rw [Option.filter_eq_none_iff]
              intro v' read small
              have more := decimal_le read
              exact fits (Nat.lt_of_le_of_lt more (of_decide_eq_true small))
            rw [none]
            rfl

theorem foldlM_congr {l : List Nat} {f g : List I64 → Nat → Option (List I64)}
    (same : ∀ i ∈ l, ∀ ls, f ls i = g ls i) (ls : List I64) : l.foldlM f ls = l.foldlM g ls := by
  induction l generalizing ls with
  | nil => rfl
  | cons i l ih =>
      rw [List.foldlM_cons, List.foldlM_cons, same i List.mem_cons_self]
      congr 1
      funext next
      exact ih (fun j mem => same j (List.mem_cons_of_mem i mem)) next

theorem foldlM_bytes {m : LinearMemory} {s : I64} (held : m.Holds s) (ls : List I64) :
    (List.range (strLen s).toNat).foldlM (fun limbs i => do
        let byte ← m.loadByte (strPtr s + BitVec.ofNat 64 i)
        parseDigit limbs byte) ls =
      (m.text s).foldlM parseDigit ls := by
  rw [text, List.foldlM_map]
  apply foldlM_congr
  intro i mem limbs
  rw [held.loadByte (List.mem_range.mp mem)]
  rfl

theorem text_eq_nil (m : LinearMemory) (s : I64) : m.text s = [] ↔ strLen s = 0 := by
  rw [text, List.map_eq_nil_iff, List.range_eq_nil, ← BitVec.toNat_inj]
  rfl

/-- A string of digits, one at least, whose number fits is read; anything else traps. -/
theorem hParse_eq {m : LinearMemory} {s dst : I64} (held : m.Holds s) (placed : Placed m dst 32)
    (tagged : s &&& 7 = 5) :
    hParse m s dst = (parsed (m.text s)).map (m.put dst.toNat 32) := by
  rw [hParse, if_neg (not_not.mpr tagged), parsed]
  by_cases empty : strLen s = 0
  · rw [if_pos empty, if_pos ((text_eq_nil m s).mpr empty)]
    rfl
  · have run := foldlM_parseDigit (n := 8) (m.text s) (Halves.valid_zeros 8) rfl
    rw [Halves.value_zeros, show 32 * 8 = 256 from rfl] at run
    rw [if_neg empty, if_neg (mt (text_eq_nil m s).mp empty), foldlM_bytes held]
    cases read : ((m.text s).foldlM decimalStep 0).filter (· < 2 ^ 256) with
    | none =>
        rw [read] at run
        dsimp only at run
        rw [run]
        rfl
    | some v =>
        rw [read] at run
        obtain ⟨limbs, made, valid, length, rfl⟩ := run
        rw [made, Option.bind_eq_bind, Option.bind_some, storeHalves placed length valid]
        rfl

/-! ### `h_u256_to_str` -/

/-- `10 ^ 18` -/
def chunkBase : I64 := 1000000000000000000

/-- A bit of the division, in place: the dividend's bit gives way to the quotient's. -/
def chunkRound (bit : Nat) (state : List I64 × I64) : List I64 × I64 :=
  let (vs, r) := state
  let sel := bit / 64
  let sh := bit % 64
  let mask : I64 := (1 : I64) <<< sh
  let r := r <<< 1 ||| (vs.getD sel 0 >>> sh &&& 1)
  let cnd := !r.ult chunkBase
  let r := if cnd then r - chunkBase else r
  let vs := vs.set sel (vs.getD sel 0 &&& (mask ^^^ -1))
  let vs := if cnd then vs.set sel (vs.getD sel 0 ||| mask) else vs
  (vs, r)

def chunkDivide (vs : List I64) : List I64 × I64 :=
  (List.range 256).reverse.foldl (fun state bit => chunkRound bit state) (vs, 0)

/-- Digits from the right to the left. -/
def emitDigits : Nat → LinearMemory → I64 → I64 → Option (LinearMemory × I64)
  | 0, m, pos, _ => some (m, pos)
  | n + 1, m, pos, r => do
      let pos := pos - 1
      let m ← m.storeByte pos (r.umod 10 + 48)
      emitDigits n m pos (r.udiv 10)

/-- Zeros are skipped as long as a digit follows. -/
def trim (m : LinearMemory) (last : I64) : Nat → I64 → Option I64
  | 0, _ => none
  | fuel + 1, pos =>
      if !pos.ult last then some pos
      else do
        let byte ← m.loadByte pos
        if byte.setWidth 64 ≠ (48 : I64) then some pos else trim m last fuel (pos + 1)

/-- The chunks, from the last one on, while something is left. -/
def emitChunks : Nat → LinearMemory → List I64 → I64 → Option (LinearMemory × I64)
  | 0, _, _, _ => none
  | fuel + 1, m, vs, pos =>
      if vs.foldl (· ||| ·) 0 = 0 then some (m, pos)
      else do
        let (vs, r) := chunkDivide vs
        let chunkend := pos
        let (m, pos) ← emitDigits 18 m pos r
        let pos ← if vs.foldl (· ||| ·) 0 = 0 then trim m (chunkend - 1) 18 pos else some pos
        emitChunks fuel m vs pos

def hToStr (limit : I64) (m : LinearMemory) (addr : I64) : Option (I64 × LinearMemory) := do
  let vs ← m.loadWords addr 0 4
  let dst ← m.loadI64 56
  let top := dst + 80
  if !top.ult limit then none
  else do
    let m ← m.storeI64 56 top
    let pos := dst + 80
    if vs.foldl (· ||| ·) 0 = 0 then do
      let pos := pos - 1
      let m ← m.storeByte pos 48
      some ((pos ||| (1 : I64) <<< 32) <<< 3 ||| 5, m)
    else do
      let (m, pos) ← emitChunks 6 m vs pos
      some ((pos ||| (dst + 80 - pos) <<< 32) <<< 3 ||| 5, m)

end U256

end LispRlm.WasmEmit
