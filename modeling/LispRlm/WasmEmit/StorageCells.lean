import LispRlm.WasmEmit.DecimalLimbs

/-! The cells of contract storage: text, and `u128`s as decimal text or as marked binary cells, with
the code that writes and reads them. -/

namespace LispRlm.WasmEmit.StorageCells

open NearMock

/-! ### Bytes -/

/-- The bytes of a word, the least one first. -/
def leBytes : Nat → Nat → Bytes
  | 0, _ => []
  | k + 1, n => (n % 256).toUInt8 :: leBytes k (n / 256)

def leValue : Bytes → Nat
  | [] => 0
  | b :: rest => b.toNat + 256 * leValue rest

theorem length_leBytes (k n : Nat) : (leBytes k n).length = k := by
  induction k generalizing n with
  | zero => rfl
  | succ k ih => rw [leBytes, List.length_cons, ih]

theorem leValue_leBytes (k n : Nat) : leValue (leBytes k n) = n % 256 ^ k := by
  induction k generalizing n with
  | zero => rw [leBytes, leValue, Nat.pow_zero, Nat.mod_one]
  | succ k ih =>
      have byte : (n % 256).toUInt8.toNat = n % 256 := by
        rw [Nat.toUInt8, UInt8.toNat_ofNat']
        omega
      rw [leBytes, leValue, ih, byte, Nat.pow_succ, Nat.mul_comm (256 ^ k), Nat.mod_mul]

theorem leValue_lt {bytes : Bytes} : leValue bytes < 256 ^ bytes.length := by
  induction bytes with
  | nil => exact Nat.one_pos
  | cons b rest ih =>
      have byte := b.toNat_lt
      rw [leValue, List.length_cons, Nat.pow_succ]
      omega

/-! ### The memory of the reading contract -/

/-- The memory, its bump pointer, and the bound that allocations stay below. -/
structure Heap where
  bytes : Nat → UInt8
  size : Nat
  top : Nat
  limit : Nat

namespace Heap

def slice (h : Heap) (a len : Nat) : Bytes := (List.range len).map fun i => h.bytes (a + i)

def load8 (h : Heap) (a : Nat) : Option UInt8 :=
  if a % 2 ^ 32 < h.size then some (h.bytes (a % 2 ^ 32)) else none

def loadI64 (h : Heap) (a : Nat) : Option Nat :=
  if a % 2 ^ 32 + 8 ≤ h.size then some (leValue (h.slice (a % 2 ^ 32) 8)) else none

/-- These bytes are at this address. -/
structure Holds (h : Heap) (ptr : Nat) (cell : Bytes) : Prop where
  slice : h.slice ptr cell.length = cell
  fits : ptr + cell.length ≤ h.size
  inMemory : ptr < h.size
  small : h.size ≤ 2 ^ 32

end Heap

/-- The two limbs at an address, the low one first. -/
def limbs (h : Heap) (a : Nat) : Option Nat := do
  let lo ← h.loadI64 a
  let hi ← h.loadI64 (a + 8)
  some (lo + hi * 2 ^ 64)

theorem loadI64_lt {h : Heap} {a n : Nat} (loaded : h.loadI64 a = some n) : n < 2 ^ 64 := by
  unfold Heap.loadI64 at loaded
  split at loaded
  · cases loaded
    have bound := @leValue_lt (h.slice (a % 2 ^ 32) 8)
    have length : (h.slice (a % 2 ^ 32) 8).length = 8 := by simp [Heap.slice]
    rw [length] at bound
    exact bound
  · cases loaded

theorem limbs_lt {h : Heap} {a n : Nat} (loaded : limbs h a = some n) : n < u128 := by
  unfold limbs at loaded
  obtain ⟨lo, low, rest⟩ := Option.bind_eq_some_iff.mp loaded
  obtain ⟨hi, high, same⟩ := Option.bind_eq_some_iff.mp rest
  cases same
  have := loadI64_lt low
  have := loadI64_lt high
  unfold u128
  omega

/-! ### Writing -/

/-- What is written: a string, or a `u128` in one of its two codecs. -/
inductive Value
  | str (s : Bytes)
  | decimal (n : Fin u128)
  | binary (n : Fin u128)

/-- `0x00`, the low limb and the high limb. -/
def binaryCell (n : Nat) : Bytes := 0 :: (leBytes 8 (n % 2 ^ 64) ++ leBytes 8 (n / 2 ^ 64))

def Value.cell : Value → Bytes
  | .str s => s
  | .decimal n => hToStr n.val n.isLt
  | .binary n => binaryCell n.val

/-- What reading it back should give, as text. -/
def Value.text : Value → Bytes
  | .str s => s
  | .decimal n | .binary n => NearMock.decimal n.val

/-! ### Reading -/

/-- The ways to read a cell: as a string, into limbs by its first byte, into limbs from the string
that was read, and as the word of `near/load_num`. -/
inductive Reader
  | storageGet
  | cellRead
  | parsed
  | loadNum

inductive Read
  | text (s : Bytes)
  | u128 (n : Nat)
  | num (n : Nat)
  | trap

/-- `__h_u128_to_str`, which allocates 48 bytes. -/
def toStr (h : Heap) (a : Nat) : Read :=
  match loaded : limbs h a with
  | some n => if h.top + 48 < h.limit then .text (hToStr n (limbs_lt loaded)) else .trap
  | none => .trap

/-- `near/storage_get` on a hit. In a program that reads cells by their first byte (`hot`), it
renders what begins with a zero byte. -/
def storageGet (hot : Bool) (h : Heap) (ptr len : Nat) : Read :=
  if hot then
    match h.load8 ptr with
    | none => .trap
    | some first =>
        if first = 0 then if len = 0 then .text (h.slice ptr len) else toStr h (ptr + 1)
        else .text (h.slice ptr len)
  else .text (h.slice ptr len)

/-- `emit_hot_cell_hydrate` -/
def cellRead (h : Heap) (ptr len : Nat) : Read :=
  if len = 0 then .trap
  else
    match h.load8 ptr with
    | none => .trap
    | some first =>
        if first = 0 then
          match limbs h (ptr + 1) with
          | some n => .u128 n
          | none => .trap
        else
          match hParse (h.slice ptr len) with
          | some n => .u128 n
          | none => .trap

def parsed (hot : Bool) (h : Heap) (ptr len : Nat) : Read :=
  match storageGet hot h ptr len with
  | .text s =>
      match hParse s with
      | some n => .u128 n
      | none => .trap
  | other => other

/-- The register is copied over the word at the storage buffer, which is then loaded. -/
def loadNum (h : Heap) (ptr len : Nat) (buffer : Bytes) : Read :=
  .num (leValue ((h.slice ptr len ++ buffer.drop len).take 8))

def read (hot : Bool) (buffer : Bytes) (h : Heap) (ptr len : Nat) : Reader → Read
  | .storageGet => storageGet hot h ptr len
  | .cellRead => cellRead h ptr len
  | .parsed => parsed hot h ptr len
  | .loadNum => loadNum h ptr len buffer

/-- What was read, as text: a string itself, and a `u128` in decimal. A word is neither. -/
def Read.asText : Read → Option Bytes
  | .text s => some s
  | .u128 n => some (NearMock.decimal n)
  | .num _ | .trap => none

/-! ### What is read back -/

theorem decimal_digits (n : Nat) : ∀ b ∈ NearMock.decimal n, 48 ≤ b.toNat := by
  induction n using Nat.strong_induction_on with
  | h n ih =>
      intro b mem
      rcases Nat.lt_or_ge n 10 with small | large
      · rw [decimal_small small] at mem
        rw [List.mem_singleton.mp mem, toNat_digitByte small]
        omega
      · rw [decimal_step large] at mem
        rcases List.mem_append.mp mem with front | last
        · exact ih (n / 10) (by omega) b front
        · rw [List.mem_singleton.mp last, toNat_digitByte (Nat.mod_lt n (by decide))]
          omega

/-- No decimal text begins with a zero byte. -/
theorem decimal_ne_marked (n : Nat) (rest : Bytes) : NearMock.decimal n ≠ 0 :: rest := by
  intro same
  have digit := decimal_digits n 0 (same ▸ List.mem_cons_self)
  exact absurd digit (by decide)

section Held

variable {h : Heap} {ptr : Nat} {cell : Bytes}

theorem Heap.Holds.load8 (held : h.Holds ptr cell) : h.load8 ptr = some (h.bytes ptr) := by
  have whole : ptr % 2 ^ 32 = ptr := Nat.mod_eq_of_lt (held.inMemory.trans_le held.small)
  unfold Heap.load8
  rw [whole, if_pos held.inMemory]

theorem Heap.Holds.first {b : UInt8} {rest : Bytes} (held : h.Holds ptr (b :: rest)) :
    h.bytes ptr = b := by
  have same := congrArg List.head? held.slice
  simpa [Heap.slice, List.range_succ_eq_map] using same

theorem Heap.Holds.loadI64 (held : h.Holds ptr cell) {i : Nat} (inside : i + 8 ≤ cell.length) :
    h.loadI64 (ptr + i) = some (leValue ((cell.drop i).take 8)) := by
  have fits := held.fits
  have small := held.small
  have whole : (ptr + i) % 2 ^ 32 = ptr + i := Nat.mod_eq_of_lt (by omega)
  have bytes : h.slice (ptr + i) 8 = (cell.drop i).take 8 := by
    apply List.ext_getElem
    · simp only [Heap.slice, List.length_map, List.length_range, List.length_take, List.length_drop]
      omega
    · intro j first second
      have lt : j < 8 := by simpa [Heap.slice] using first
      have here := congrArg (·[i + j]?) held.slice
      simp only [Heap.slice, List.getElem?_map] at here
      rw [List.getElem?_range (by omega), List.getElem?_eq_getElem (by omega)] at here
      simp only [Heap.slice, List.getElem_map, List.getElem_range, List.getElem_take,
        List.getElem_drop]
      rw [Nat.add_assoc]
      exact Option.some.inj here
  unfold Heap.loadI64
  rw [whole, if_pos (by omega), bytes]

end Held

theorem limbs_binary {h : Heap} {ptr : Nat} {n : Nat} (fits : n < u128)
    (held : h.Holds ptr (binaryCell n)) : limbs h (ptr + 1) = some n := by
  have length : (binaryCell n).length = 17 := by
    simp only [binaryCell, List.length_cons, List.length_append, length_leBytes]
  have low := held.loadI64 (show 1 + 8 ≤ (binaryCell n).length by omega)
  have high := held.loadI64 (show 9 + 8 ≤ (binaryCell n).length by omega)
  have lowBytes : ((binaryCell n).drop 1).take 8 = leBytes 8 (n % 2 ^ 64) := by
    simp only [binaryCell, List.drop_succ_cons, List.drop_zero]
    rw [List.take_append_of_le_length (by rw [length_leBytes]), List.take_of_length_le]
    rw [length_leBytes]
  have highBytes : ((binaryCell n).drop 9).take 8 = leBytes 8 (n / 2 ^ 64) := by
    simp only [binaryCell, List.drop_succ_cons]
    rw [List.drop_left' (length_leBytes 8 _), List.take_of_length_le]
    rw [length_leBytes]
  rw [lowBytes, leValue_leBytes] at low
  rw [highBytes, leValue_leBytes] at high
  unfold limbs
  rw [low, Option.bind_eq_bind, Option.bind_some, Nat.add_assoc ptr 1 8, high, Option.bind_some]
  congr 1
  unfold u128 at fits
  have lowFits : n % 2 ^ 64 % 256 ^ 8 = n % 2 ^ 64 := Nat.mod_eq_of_lt (by omega)
  have highFits : n / 2 ^ 64 % 256 ^ 8 = n / 2 ^ 64 := Nat.mod_eq_of_lt (by omega)
  rw [lowFits, highFits]
  omega

/-- The heap has room to render a binary cell. -/
def Heap.Room (h : Heap) : Prop := h.top + 48 < h.limit

/-- When a value is read back as it was written. -/
def Faithful (hot : Bool) (h : Heap) : Reader → Value → Prop
  | .storageGet, .str s => hot = true → s.head? ≠ some 0
  | .storageGet, .decimal _ => True
  | .storageGet, .binary _ => hot = true ∧ h.Room
  | .cellRead, .str s => ∃ n < u128, s = NearMock.decimal n
  | .cellRead, .decimal _ => True
  | .cellRead, .binary _ => True
  | .parsed, .str s => ∃ n < u128, s = NearMock.decimal n
  | .parsed, .decimal _ => True
  | .parsed, .binary _ => hot = true ∧ h.Room
  | .loadNum, _ => False

section Held

variable {h : Heap} {ptr : Nat} {cell : Bytes}

/-- Only what begins with a zero byte is rendered. -/
theorem storageGet_eq (hot : Bool) (held : h.Holds ptr cell) :
    storageGet hot h ptr cell.length =
      if hot = true ∧ cell.head? = some 0 then toStr h (ptr + 1) else .text cell := by
  unfold storageGet
  rw [held.slice]
  cases hot with
  | false => rfl
  | true =>
      rw [if_pos rfl, held.load8]
      cases cell with
      | nil => simp
      | cons b rest =>
          simp only [held.first, List.length_cons, Nat.succ_ne_zero, if_false, List.head?_cons,
            Option.some.injEq, true_and]

theorem cellRead_eq (held : h.Holds ptr cell) :
    cellRead h ptr cell.length =
      if cell.head? = some 0 then
        match limbs h (ptr + 1) with
        | some n => .u128 n
        | none => .trap
      else
        match hParse cell with
        | some n => .u128 n
        | none => .trap := by
  unfold cellRead
  cases cell with
  | nil => rfl
  | cons b rest =>
      rw [if_neg (by simp), held.load8, held.slice]
      simp only [held.first, List.head?_cons, Option.some.injEq]

/-- What a limb read of a marked cell comes to is no text with a zero byte in front. -/
theorem toStr_asText {s rest : Bytes} (marked : s = 0 :: rest) (a : Nat) :
    (toStr h a).asText ≠ some s := by
  unfold toStr
  split
  · next n loaded =>
      split
      · intro same
        rw [Read.asText, Option.some.injEq, hToStr_eq, marked] at same
        exact decimal_ne_marked n rest same
      · exact fun never => nomatch never
  · exact fun never => nomatch never

theorem parse_asText_iff (s : Bytes) :
    (match hParse s with
      | some n => Read.u128 n
      | none => .trap).asText = some s ↔ ∃ n < u128, s = NearMock.decimal n := by
  constructor
  · intro same
    cases read : hParse s with
    | none =>
        rw [read] at same
        cases same
    | some n =>
        rw [read] at same
        exact ⟨n, hParse_lt read, (Option.some.inj same).symm⟩
  · rintro ⟨n, fits, rfl⟩
    rw [hParse_decimal fits]
    rfl

theorem head_decimal (n : Nat) : (NearMock.decimal n).head? ≠ some 0 := by
  intro first
  obtain ⟨rest, same⟩ := List.head?_eq_some_iff.mp first
  exact decimal_ne_marked n rest same

theorem not_decimal {s : Bytes} (marked : s.head? = some 0) :
    ¬ ∃ n < u128, s = NearMock.decimal n := by
  rintro ⟨n, _, rfl⟩
  exact head_decimal n marked

theorem storageGet_str (hot : Bool) (held : h.Holds ptr cell) :
    (storageGet hot h ptr cell.length).asText = some cell ↔
      (hot = true → cell.head? ≠ some 0) := by
  rw [storageGet_eq hot held]
  by_cases rendered : hot = true ∧ cell.head? = some 0
  · rw [if_pos rendered]
    obtain ⟨rest, marked⟩ := List.head?_eq_some_iff.mp rendered.2
    exact ⟨fun same => absurd same (toStr_asText marked _),
      fun clear => absurd rendered.2 (clear rendered.1)⟩
  · rw [if_neg rendered]
    exact ⟨fun _ isHot marked => rendered ⟨isHot, marked⟩, fun _ => rfl⟩

theorem cellRead_str (held : h.Holds ptr cell) :
    (cellRead h ptr cell.length).asText = some cell ↔ ∃ n < u128, cell = NearMock.decimal n := by
  rw [cellRead_eq held]
  by_cases marked : cell.head? = some 0
  · rw [if_pos marked]
    refine ⟨fun same => ?_, fun canonical => absurd canonical (not_decimal marked)⟩
    obtain ⟨rest, split⟩ := List.head?_eq_some_iff.mp marked
    cases loaded : limbs h (ptr + 1) with
    | none =>
        rw [loaded] at same
        cases same
    | some n =>
        rw [loaded, split] at same
        exact absurd (Option.some.inj same) (decimal_ne_marked n rest)
  · rw [if_neg marked]
    exact parse_asText_iff cell

theorem parsed_str (hot : Bool) (held : h.Holds ptr cell) :
    (parsed hot h ptr cell.length).asText = some cell ↔ ∃ n < u128, cell = NearMock.decimal n := by
  unfold parsed
  rw [storageGet_eq hot held]
  by_cases rendered : hot = true ∧ cell.head? = some 0
  · rw [if_pos rendered]
    refine ⟨fun same => ?_, fun canonical => absurd canonical (not_decimal rendered.2)⟩
    obtain ⟨rest, marked⟩ := List.head?_eq_some_iff.mp rendered.2
    unfold toStr at same
    split at same
    · next s text =>
        split at text
        · next n loaded =>
            split at text
            · cases text
              rw [hToStr_eq, hParse_decimal (limbs_lt loaded), marked] at same
              exact absurd (Option.some.inj same) (decimal_ne_marked n rest)
            · cases text
        · cases text
    · next other notText =>
        exact absurd same (toStr_asText marked (ptr + 1))
  · rw [if_neg rendered]
    exact parse_asText_iff cell

theorem toStr_binary {n : Nat} (fits : n < u128) (held : h.Holds ptr (binaryCell n)) :
    toStr h (ptr + 1) =
      if h.top + 48 < h.limit then .text (NearMock.decimal n) else .trap := by
  have loaded := limbs_binary fits held
  unfold toStr
  split
  · next m found =>
      rw [loaded] at found
      cases found
      rw [hToStr_eq]
  · next missing =>
      rw [loaded] at missing
      cases missing

theorem storageGet_binary {n : Nat} (fits : n < u128) (hot : Bool)
    (held : h.Holds ptr (binaryCell n)) :
    storageGet hot h ptr (binaryCell n).length =
      if hot = true then
        if h.top + 48 < h.limit then .text (NearMock.decimal n) else .trap
      else .text (binaryCell n) := by
  rw [storageGet_eq hot held, toStr_binary fits held]
  refine if_congr ?_ rfl rfl
  exact and_iff_left rfl

/-- A limb read of a binary cell needs room for its text. -/
theorem storageGet_binary_iff {n : Nat} (fits : n < u128) (hot : Bool)
    (held : h.Holds ptr (binaryCell n)) :
    (storageGet hot h ptr (binaryCell n).length).asText = some (NearMock.decimal n) ↔
      hot = true ∧ h.Room := by
  rw [storageGet_binary fits hot held]
  by_cases isHot : hot = true
  · rw [if_pos isHot]
    by_cases room : h.top + 48 < h.limit
    · rw [if_pos room]
      exact ⟨fun _ => ⟨isHot, room⟩, fun _ => rfl⟩
    · rw [if_neg room]
      exact ⟨nofun, fun has => absurd has.2 room⟩
  · rw [if_neg isHot]
    refine ⟨fun same => ?_, fun has => absurd has.1 isHot⟩
    exact absurd (Option.some.inj same).symm (decimal_ne_marked n _)

theorem cellRead_binary {n : Nat} (fits : n < u128) (held : h.Holds ptr (binaryCell n)) :
    (cellRead h ptr (binaryCell n).length).asText = some (NearMock.decimal n) := by
  have marked : (binaryCell n).head? = some 0 := rfl
  rw [cellRead_eq held, if_pos marked, limbs_binary fits held]
  rfl

theorem parsed_binary_iff {n : Nat} (fits : n < u128) (hot : Bool)
    (held : h.Holds ptr (binaryCell n)) :
    (parsed hot h ptr (binaryCell n).length).asText = some (NearMock.decimal n) ↔
      hot = true ∧ h.Room := by
  unfold parsed
  rw [storageGet_binary fits hot held]
  by_cases isHot : hot = true
  · rw [if_pos isHot]
    by_cases room : h.top + 48 < h.limit
    · rw [if_pos room]
      simp only [hParse_decimal fits]
      exact ⟨fun _ => ⟨isHot, room⟩, fun _ => rfl⟩
    · rw [if_neg room]
      exact ⟨nofun, fun has => absurd has.2 room⟩
  · rw [if_neg isHot]
    refine ⟨fun same => ?_, fun has => absurd has.1 isHot⟩
    have untext : hParse (binaryCell n) = none := rfl
    simp only [untext] at same
    cases same

end Held

/-- A zero byte at the start of an otherwise empty heap. -/
def zeroHeap : Heap := ⟨fun _ => 0, 65536, 200000, 300000⟩

theorem holds_zeroByte : zeroHeap.Holds 0 (Value.str [0]).cell :=
  ⟨rfl, by decide, by decide, by decide⟩

end LispRlm.WasmEmit.StorageCells
