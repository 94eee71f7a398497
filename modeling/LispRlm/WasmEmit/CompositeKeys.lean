import LispRlm.WasmEmit.Instructions
import Mathlib.Data.List.Forall2
import Mathlib.Algebra.Group.Nat.Defs

/-! The composite keys of `near/kv` and `near/kv-get`, as the emitted code builds them in its memory
and as the interpreter joins them. -/

namespace LispRlm.WasmEmit.CompositeKeys

abbrev Byte := BitVec 8

abbrev Bytes := List Byte

def storageBuf : Nat := 8192

def keyBuf : Nat := 8224

def keyBufMax : Nat := 256

/-- A string value: its length over its address, under the tag of strings. -/
def tagStr (ptr len : Nat) : I64 := (BitVec.ofNat 64 len <<< 32 ||| BitVec.ofNat 64 ptr) <<< 3 ||| 5

def load8U (m : LinearMemory) (address : Nat) : Option Byte :=
  if address < m.size then some (m.bytes address) else none

/-- The copy loop of one part, in which each turn stores eight bytes for one. `left` turns remain of
those up to the length, and `ci` are done. -/
def copyBytes (off ptr : Nat) : (left ci : Nat) → LinearMemory → Option LinearMemory
  | 0, _, m => some m
  | left + 1, ci, m => do
      let byte ← load8U m ((ptr + ci) % 2 ^ 32)
      let m ← m.storeI64 ((keyBuf + off + ci) % 2 ^ 32) (byte.setWidth 64)
      copyBytes off ptr left (ci + 1) m

/-- The parts, one after the other, into the key buffer; the key's length is left. -/
def buildKey : List I64 → Nat → LinearMemory → Option (LinearMemory × Nat)
  | [], off, m => some (m, off)
  | part :: rest, off, m => do
      let raw := part.sshiftRight 3
      let plen := (raw >>> 32).toNat
      let pptr := (raw.setWidth 32).toNat
      let m ← copyBytes off pptr plen 0 m
      buildKey rest ((off + plen) % 2 ^ 64) m

/-- What the host reads in the memory. -/
def readBytes (m : LinearMemory) (address len : Nat) : Bytes :=
  (List.range len).map fun i => m.bytes (address + i)

abbrev Storage := Bytes → Option Bytes

/-- `near/kv`: the key's parts and, last, the value. -/
def nearKv (parts : List I64) (value : I64) (m : LinearMemory) (storage : Storage) :
    Option (LinearMemory × Storage) := do
  let (m, off) ← buildKey parts 0 m
  let m ← m.storeI64 storageBuf value
  let key := readBytes m keyBuf off
  some (m, fun k => if k = key then some (readBytes m storageBuf 8) else storage k)

/-! ### The interpreter's keys -/

def slash : Byte := 47

/-- `parts.join("/")` -/
def vmKey (parts : List Bytes) : Bytes := [slash].intercalate parts

/-- `near/kv` of the interpreter: the value first, then the key's parts. -/
def vmKv {V : Type} (value : V) (parts : List Bytes) (storage : Bytes → Option V) :
    Bytes → Option V :=
  fun k => if k = vmKey parts then some value else storage k

/-! ### What building a key leaves -/

/-- The memory once this much of a key is built: the key, and after it seven zeros that its last
byte was stored with. -/
def written (m : LinearMemory) (key : Bytes) : LinearMemory :=
  { m with bytes := fun a =>
    if a < keyBuf then m.bytes a
    else match key[a - keyBuf]? with
      | some b => b
      | none => if key ≠ [] ∧ a < keyBuf + key.length + 7 then 0 else m.bytes a }

theorem written_nil (m : LinearMemory) : written m [] = m := by
  unfold written
  simp

theorem written_apart {m : LinearMemory} {key : Bytes} {a : Nat}
    (apart : a < keyBuf ∨ keyBuf + key.length + 7 ≤ a) : (written m key).bytes a = m.bytes a := by
  simp only [written]
  rcases apart with below | above
  · rw [if_pos below]
  · have past : key[a - keyBuf]? = none := List.getElem?_eq_none (by omega)
    rw [if_neg (by omega), past]
    exact if_neg fun inside => absurd inside.2 (by omega)

theorem written_key {m : LinearMemory} {key : Bytes} {i : Nat} (lt : i < key.length) :
    (written m key).bytes (keyBuf + i) = key[i] := by
  simp only [written]
  rw [if_neg (by omega), Nat.add_sub_cancel_left, List.getElem?_eq_getElem lt]

theorem written_zeros {m : LinearMemory} {key : Bytes} {i : Nat} (nonempty : key ≠ [])
    (ge : key.length ≤ i) (lt : i < key.length + 7) : (written m key).bytes (keyBuf + i) = 0 := by
  simp only [written]
  rw [if_neg (by omega), Nat.add_sub_cancel_left, List.getElem?_eq_none ge]
  exact if_pos ⟨nonempty, by omega⟩

theorem readBytes_written (m : LinearMemory) (key : Bytes) :
    readBytes (written m key) keyBuf key.length = key := by
  apply List.ext_getElem
  · simp [readBytes]
  · intro i _ lt
    simp only [readBytes, List.getElem_map, List.getElem_range]
    exact written_key lt

/-- A byte more, stored as a word of eight. -/
theorem storeI64_written {m : LinearMemory} {key : Bytes} (b : Byte)
    (fits : keyBuf + key.length + 8 ≤ m.size) :
    (written m key).storeI64 (keyBuf + key.length) (b.setWidth 64) =
      some (written m (key ++ [b])) := by
  have fits' : keyBuf + key.length + 8 ≤ (written m key).size := fits
  unfold LinearMemory.storeI64
  rw [if_pos fits']
  unfold written
  congr 2
  funext a
  by_cases below : a < keyBuf
  · have outside : ¬(keyBuf + key.length ≤ a ∧ a < keyBuf + key.length + 8) := by omega
    simp only [if_pos below, if_neg outside]
  · simp only [if_neg below]
    obtain ⟨i, rfl⟩ : ∃ i, a = keyBuf + i := ⟨a - keyBuf, by omega⟩
    simp only [Nat.add_sub_cancel_left, List.length_append, List.length_singleton]
    rcases Nat.lt_trichotomy i key.length with before | at_ | after
    · have outside :
          ¬(keyBuf + key.length ≤ keyBuf + i ∧ keyBuf + i < keyBuf + key.length + 8) := by
        omega
      rw [if_neg outside, List.getElem?_append_left before]
      rw [List.getElem?_eq_getElem before]
    · subst at_
      have inside : keyBuf + key.length ≤ keyBuf + key.length ∧
          keyBuf + key.length < keyBuf + key.length + 8 := by omega
      rw [if_pos inside, List.getElem?_append_right (Nat.le_refl _)]
      simp
    · have past : (key ++ [b])[i]? = none := by
        apply List.getElem?_eq_none
        simp only [List.length_append, List.length_singleton]
        omega
      rw [past]
      by_cases inside : i < key.length + 8
      · rw [if_pos (by omega), if_pos ⟨by simp, by omega⟩]
        -- the upper bytes of the stored word
        have zero : ((b.setWidth 64 : I64) >>> (8 * (keyBuf + i - (keyBuf + key.length)))) = 0 := by
          have shift : 8 ≤ 8 * (keyBuf + i - (keyBuf + key.length)) := by omega
          apply BitVec.eq_of_toNat_eq
          rw [BitVec.toNat_ushiftRight, BitVec.toNat_setWidth, Nat.shiftRight_eq_div_pow]
          have small : b.toNat % 2 ^ 64 < 2 ^ 8 :=
            Nat.lt_of_le_of_lt (Nat.mod_le _ _) b.isLt
          have pow : 2 ^ 8 ≤ 2 ^ (8 * (keyBuf + i - (keyBuf + key.length))) :=
            Nat.pow_le_pow_right (by decide) shift
          exact Nat.div_eq_of_lt (Nat.lt_of_lt_of_le small pow)
        rw [zero]
        rfl
      · have outside : ¬(keyBuf + key.length ≤ keyBuf + i ∧
            keyBuf + i < keyBuf + key.length + 8) := by omega
        rw [if_neg outside, List.getElem?_eq_none (by omega)]
        rw [if_neg (fun h => absurd h.2 (by omega)), if_neg (fun h => absurd h.2 (by omega))]

/-! ### Building a key -/

theorem toNat_tagStr {ptr len : Nat} (ptrLt : ptr < 2 ^ 32) (lenLt : len < 2 ^ 29) :
    (tagStr ptr len).toNat = (len * 2 ^ 32 + ptr) * 2 ^ 3 + 5 := by
  have packed : len <<< 32 ||| ptr = len * 2 ^ 32 + ptr := by
    rw [← Nat.shiftLeft_add_eq_or_of_lt ptrLt, Nat.shiftLeft_eq]
  have tagged : (len * 2 ^ 32 + ptr) <<< 3 ||| 5 = (len * 2 ^ 32 + ptr) * 2 ^ 3 + 5 := by
    rw [← Nat.shiftLeft_add_eq_or_of_lt (by decide : 5 < 2 ^ 3), Nat.shiftLeft_eq]
  have lenMod : len % 2 ^ 64 = len := Nat.mod_eq_of_lt (by omega)
  have ptrMod : ptr % 2 ^ 64 = ptr := Nat.mod_eq_of_lt (by omega)
  have shifted : len <<< 32 % 2 ^ 64 = len <<< 32 := by
    rw [Nat.shiftLeft_eq]
    exact Nat.mod_eq_of_lt (by omega)
  have again : (len * 2 ^ 32 + ptr) <<< 3 % 2 ^ 64 = (len * 2 ^ 32 + ptr) <<< 3 := by
    rw [Nat.shiftLeft_eq]
    exact Nat.mod_eq_of_lt (by omega)
  unfold tagStr
  rw [BitVec.toNat_or, BitVec.toNat_shiftLeft, BitVec.toNat_or, BitVec.toNat_shiftLeft,
    BitVec.toNat_ofNat, BitVec.toNat_ofNat, lenMod, ptrMod, shifted, packed, again]
  exact tagged

theorem untag_tagStr {ptr len : Nat} (ptrLt : ptr < 2 ^ 32) (lenLt : len < 2 ^ 28) :
    ((tagStr ptr len).sshiftRight 3).toNat = len * 2 ^ 32 + ptr := by
  have value : (tagStr ptr len).toNat = _ := toNat_tagStr ptrLt (by omega)
  have positive : (tagStr ptr len).msb = false := by
    rw [BitVec.msb_eq_false_iff_two_mul_lt, value]
    omega
  rw [BitVec.sshiftRight_eq_of_msb_false positive, BitVec.toNat_ushiftRight, value,
    Nat.shiftRight_eq_div_pow]
  omega

theorem len_tagStr {ptr len : Nat} (ptrLt : ptr < 2 ^ 32) (lenLt : len < 2 ^ 28) :
    ((tagStr ptr len).sshiftRight 3 >>> 32).toNat = len := by
  rw [BitVec.toNat_ushiftRight, untag_tagStr ptrLt lenLt, Nat.shiftRight_eq_div_pow]
  omega

theorem ptr_tagStr {ptr len : Nat} (ptrLt : ptr < 2 ^ 32) (lenLt : len < 2 ^ 28) :
    (((tagStr ptr len).sshiftRight 3).setWidth 32).toNat = ptr := by
  rw [BitVec.toNat_setWidth, untag_tagStr ptrLt lenLt]
  omega

/-- A part is in the memory, apart from what building a key of this length writes. -/
def Placed (m : LinearMemory) (total : Nat) (word : I64) (part : Bytes) : Prop :=
  part.length < 2 ^ 28 ∧ ∃ ptr, word = tagStr ptr part.length ∧ ptr < 2 ^ 32 ∧
    ptr + part.length ≤ m.size ∧ readBytes m ptr part.length = part ∧
    (ptr + part.length ≤ keyBuf ∨ keyBuf + total + 7 ≤ ptr)

/-- A memory of at most four GiB in which a key of this length can be built. -/
def Roomy (m : LinearMemory) (total : Nat) : Prop := keyBuf + total + 7 ≤ m.size ∧ m.size ≤ 2 ^ 32

/-- Each turn of the loop adds the part's next byte to the key. -/
theorem copyBytes_written {m : LinearMemory} {total ptr : Nat} {part : Bytes}
    (room : Roomy m total) (held : readBytes m ptr part.length = part)
    (inMemory : ptr + part.length ≤ m.size)
    (apart : ptr + part.length ≤ keyBuf ∨ keyBuf + total + 7 ≤ ptr) (before copied rest : Bytes)
    (split : part = copied ++ rest) (within : before.length + part.length ≤ total) :
    copyBytes before.length ptr rest.length copied.length (written m (before ++ copied)) =
      some (written m (before ++ part)) := by
  induction rest generalizing copied with
  | nil =>
      rw [List.append_nil] at split
      rw [split]
      rfl
  | cons b rest ih =>
      have length : part.length = copied.length + (rest.length + 1) := by
        rw [split, List.length_append, List.length_cons]
      obtain ⟨enough, small⟩ := room
      have source : (written m (before ++ copied)).bytes (ptr + copied.length) = b := by
        rw [written_apart (by rw [List.length_append]; omega)]
        have byte := congrArg (·[copied.length]?) held
        simp only [readBytes, List.getElem?_map] at byte
        rw [List.getElem?_range (by omega), split, List.getElem?_append_right (Nat.le_refl _),
          Nat.sub_self] at byte
        exact Option.some.inj byte
      have loads : load8U (written m (before ++ copied)) ((ptr + copied.length) % 2 ^ 32) =
          some b := by
        rw [Nat.mod_eq_of_lt (by omega)]
        unfold load8U
        have inside : ptr + copied.length < (written m (before ++ copied)).size :=
          show ptr + copied.length < m.size by omega
        rw [if_pos inside, source]
      have stores : (written m (before ++ copied)).storeI64
          ((keyBuf + before.length + copied.length) % 2 ^ 32) (b.setWidth 64) =
            some (written m (before ++ (copied ++ [b]))) := by
        have address : (keyBuf + before.length + copied.length) % 2 ^ 32 =
            keyBuf + (before ++ copied).length := by
          rw [List.length_append, ← Nat.add_assoc]
          exact Nat.mod_eq_of_lt (by omega)
        rw [address, storeI64_written b (by rw [List.length_append]; omega), List.append_assoc]
      have next := ih (copied ++ [b]) (by rw [split, List.append_assoc]; rfl)
      rw [List.length_append, List.length_singleton] at next
      rw [List.length_cons, copyBytes, loads]
      simp only [Option.bind_eq_bind, Option.bind_some]
      rw [stores, Option.bind_some, next]

theorem buildKey_from {m : LinearMemory} {total : Nat} {words : List I64} {parts : List Bytes}
    (room : Roomy m total) (placed : List.Forall₂ (Placed m total) words parts) (before : Bytes)
    (within : before.length + parts.flatten.length ≤ total) :
    buildKey words before.length (written m before) =
      some (written m (before ++ parts.flatten), (before ++ parts.flatten).length) := by
  induction placed generalizing before with
  | nil => simp [buildKey]
  | @cons word part words parts first _ ih =>
      obtain ⟨short, ptr, rfl, ptrLt, inMemory, held, apart⟩ := first
      rw [List.flatten_cons, List.length_append] at within
      have copied := copyBytes_written room held inMemory apart before [] part rfl (by omega)
      rw [List.append_nil, List.length_nil] at copied
      have next := ih (before ++ part) (by rw [List.length_append]; omega)
      have off : (before.length + part.length) % 2 ^ 64 = (before ++ part).length := by
        rw [List.length_append]
        exact Nat.mod_eq_of_lt (by have := room.1; have := room.2; omega)
      simp only [buildKey, len_tagStr ptrLt short, ptr_tagStr ptrLt short, copied, off,
        Option.bind_eq_bind, Option.bind_some, next, List.flatten_cons, List.append_assoc]

/-- The emitted code builds the parts without anything between them. -/
theorem buildKey_placed {m : LinearMemory} {words : List I64} {parts : List Bytes}
    (room : Roomy m parts.flatten.length)
    (placed : List.Forall₂ (Placed m parts.flatten.length) words parts) :
    buildKey words 0 m = some (written m parts.flatten, parts.flatten.length) := by
  have built := buildKey_from room placed [] (by simp)
  rw [written_nil] at built
  exact built

/-! ### The interpreter's keys -/

theorem length_vmKey {parts : List Bytes} (nonempty : parts ≠ []) :
    (vmKey parts).length + 1 = parts.flatten.length + parts.length := by
  induction parts with
  | nil => exact absurd rfl nonempty
  | cons part rest ih =>
      cases rest with
      | nil => simp [vmKey]
      | cons next rest =>
          have inner := ih (List.cons_ne_nil next rest)
          simp only [vmKey, List.intercalate_cons_cons, List.length_append, List.flatten_cons,
            List.length_cons, List.length_nil] at inner ⊢
          omega

theorem mem_vmKey {parts : List Bytes} {part : Bytes} (mem : part ∈ parts) {b : Byte}
    (inPart : b ∈ part) : b ∈ vmKey parts := by
  induction parts with
  | nil => cases mem
  | cons first rest ih =>
      cases rest with
      | nil =>
          obtain rfl := List.mem_singleton.mp mem
          simpa [vmKey] using inPart
      | cons next rest =>
          simp only [vmKey, List.intercalate_cons_cons, List.mem_append] at ih ⊢
          cases mem with
          | head => exact .inl (.inl inPart)
          | tail _ later => exact .inr (ih later)

theorem vmKey_singleton (part : Bytes) : vmKey [part] = part := List.intercalate_singleton

/-- No other list of parts has the same key in the interpreter if and only if the list is one part
without a slash. -/
theorem vmKey_unique_iff {parts : List Bytes} (nonempty : parts ≠ []) :
    (∀ other : List Bytes, other ≠ [] → vmKey other = vmKey parts → other = parts) ↔
      ∃ part, parts = [part] ∧ slash ∉ part := by
  constructor
  · intro unique
    have single : [vmKey parts] = parts := unique _ (List.cons_ne_nil _ _) (vmKey_singleton _)
    refine ⟨vmKey parts, single.symm, ?_⟩
    intro mem
    obtain ⟨before, after, split⟩ := List.append_of_mem mem
    have same : vmKey [before, after] = vmKey parts := by
      rw [split]
      simp [vmKey]
    have two := unique [before, after] (List.cons_ne_nil _ _) same
    rw [← single] at two
    cases two
  · rintro ⟨part, rfl, clear⟩ other otherNonempty same
    rw [vmKey_singleton] at same
    have pieces : ∀ piece ∈ other, slash ∉ piece := by
      intro piece mem inPiece
      apply clear
      rw [← same]
      exact mem_vmKey mem inPiece
    calc
      other = (vmKey other).splitOn slash :=
        (List.splitOn_intercalate slash pieces otherNonempty).symm
      _ = part.splitOn slash := by rw [same]
      _ = [part] := List.splitOn_eq_singleton clear

/-! ### Both keys -/

/-- The parts are in the memory, as the operands' words give them, and a key of all of them fits. -/
structure Given (m : LinearMemory) (words : List I64) (parts : List Bytes) : Prop where
  room : Roomy m parts.flatten.length
  placed : List.Forall₂ (Placed m parts.flatten.length) words parts

/-- The key that the emitted code reads and writes storage under. -/
def wasmKey (m : LinearMemory) (words : List I64) : Option Bytes :=
  (buildKey words 0 m).map fun (m', len) => readBytes m' keyBuf len

theorem wasmKey_given {m : LinearMemory} {words : List I64} {parts : List Bytes}
    (given : Given m words parts) : wasmKey m words = some parts.flatten := by
  unfold wasmKey
  rw [buildKey_placed given.room given.placed, Option.map_some]
  exact congrArg some (readBytes_written m parts.flatten)

/-- No other list of parts in this memory has the same key in the emitted code. -/
def WasmUnique (m : LinearMemory) (words : List I64) (parts : List Bytes) : Prop :=
  ∀ words' other, other ≠ [] → Given m words' other → wasmKey m words' = wasmKey m words →
    other = parts

def VmUnique (parts : List Bytes) : Prop :=
  ∀ other, other ≠ [] → vmKey other = vmKey parts → other = parts

/-- Building the key leaves everything outside the key buffer as it was. -/
def InBuffer (m : LinearMemory) (words : List I64) : Prop :=
  ∀ r, buildKey words 0 m = some r →
    ∀ a, a < keyBuf ∨ keyBuf + keyBufMax ≤ a → r.1.bytes a = m.bytes a

/-- What is expected of the key of these parts. -/
structure KeyContract (m : LinearMemory) (words : List I64) (parts : List Bytes) : Prop where
  agree : wasmKey m words = some (vmKey parts)
  wasmUnique : WasmUnique m words parts
  vmUnique : VmUnique parts
  inBuffer : InBuffer m words

theorem agree_iff {m : LinearMemory} {words : List I64} {parts : List Bytes}
    (given : Given m words parts) (nonempty : parts ≠ []) :
    wasmKey m words = some (vmKey parts) ↔ parts.length = 1 := by
  rw [wasmKey_given given, Option.some.injEq]
  constructor
  · intro same
    have lengths := length_vmKey nonempty
    rw [← same] at lengths
    omega
  · intro one
    obtain ⟨part, rfl⟩ := List.length_eq_one_iff.mp one
    rw [vmKey_singleton, List.flatten_cons, List.flatten_nil, List.append_nil]

/-- An empty part at the end leaves the key as it is. -/
theorem given_emptyPart {m : LinearMemory} {words : List I64} {parts : List Bytes}
    (given : Given m words parts) : Given m (words ++ [tagStr 0 0]) (parts ++ [[]]) := by
  have same : (parts ++ [[]]).flatten = parts.flatten := by simp
  refine ⟨same ▸ given.room, ?_⟩
  rw [same]
  have empty : Placed m parts.flatten.length (tagStr 0 0) [] :=
    ⟨by decide, 0, rfl, by decide, Nat.zero_le _, rfl, .inl (by decide)⟩
  exact List.rel_append given.placed (.cons empty .nil)

theorem not_wasmUnique {m : LinearMemory} {words : List I64} {parts : List Bytes}
    (given : Given m words parts) : ¬ WasmUnique m words parts := by
  intro unique
  have longer := given_emptyPart given
  have same : wasmKey m (words ++ [tagStr 0 0]) = wasmKey m words := by
    rw [wasmKey_given longer, wasmKey_given given]
    simp
  have equal := unique _ _ (by simp) longer same
  have lengths := congrArg List.length equal
  rw [List.length_append, List.length_singleton] at lengths
  omega

theorem inBuffer_iff {m : LinearMemory} {words : List I64} {parts : List Bytes}
    (given : Given m words parts) :
    InBuffer m words ↔ parts.flatten = [] ∨ ∀ i, keyBufMax ≤ i → i < parts.flatten.length + 7 →
      m.bytes (keyBuf + i) = parts.flatten.getD i 0 := by
  have built := buildKey_placed given.room given.placed
  generalize parts.flatten = key at built
  constructor
  · intro inside
    by_cases empty : key = []
    · exact .inl empty
    · refine .inr fun i ge lt => ?_
      rw [← inside _ built (keyBuf + i) (.inr (by omega))]
      by_cases inKey : i < key.length
      · rw [written_key inKey, List.getD_eq_getElem?_getD, List.getElem?_eq_getElem inKey]
        rfl
      · rw [written_zeros empty (by omega) lt, List.getD_eq_getElem?_getD,
          List.getElem?_eq_none (by omega)]
        rfl
  · intro fits r ran a outside
    rw [built] at ran
    cases ran
    rcases fits with rfl | already
    · rw [written_nil]
    · by_cases apart : a < keyBuf ∨ keyBuf + key.length + 7 ≤ a
      · exact written_apart apart
      · obtain ⟨i, rfl⟩ : ∃ i, a = keyBuf + i := ⟨a - keyBuf, by omega⟩
        rw [already i (by omega) (by omega)]
        by_cases inKey : i < key.length
        · rw [written_key inKey, List.getD_eq_getElem?_getD, List.getElem?_eq_getElem inKey]
          rfl
        · by_cases empty : key = []
          · subst empty
            rw [written_nil]
            exact already i (by omega) (by omega)
          · rw [written_zeros empty (by omega) (by omega), List.getD_eq_getElem?_getD,
              List.getElem?_eq_none (by omega)]
            rfl

/-- Two pages, `"ab"` at the start of the second. -/
def twoPages : LinearMemory where
  bytes a := if a = 65536 then 97 else if a = 65537 then 98 else 0
  size := 131072

theorem given_twoParts : Given twoPages [tagStr 65536 1, tagStr 65537 1] [[97], [98]] where
  room := ⟨by decide, by decide⟩
  placed := .cons ⟨by decide, 65536, rfl, by decide, by decide, by decide, .inr (by decide)⟩
    (.cons ⟨by decide, 65537, rfl, by decide, by decide, by decide, .inr (by decide)⟩ .nil)

end LispRlm.WasmEmit.CompositeKeys
