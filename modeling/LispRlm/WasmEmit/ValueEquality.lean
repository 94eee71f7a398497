import LispRlm.WasmEmit.CompositeKeys
import LispRlm.WasmEmit.WideCells

/-! `=` and `!=` on values in memory, against the interpreter's `lisp_eq`, and the comparison of
strings by words. -/

namespace LispRlm.WasmEmit

open LinearMemory CompositeKeys

namespace ValueEquality

/-! ### The interpreter -/

/-- Values; a dict has its keys and their values in the order in which they were given. There are no
floats in compiled code. -/
inductive Value
  | nil
  | bool (b : Bool)
  | num (n : Int)
  | str (s : Bytes)
  | list (vs : List Value)
  | dict (keys : List Bytes) (vs : List Value)

/-- `im::HashMap::get` -/
def get : List Bytes → List Value → Bytes → Option Value
  | key :: keys, v :: vs, k => if key = k then some v else get keys vs k
  | _, _, _ => none

mutual

/-- `PartialEq` of `LispVal` -/
def partialEq : Value → Value → Bool
  | .nil, .nil => true
  | .bool a, .bool b => a == b
  | .num a, .num b => a == b
  | .str a, .str b => a == b
  | .list a, .list b => partialEqs a b
  | .dict ks vs, .dict ks' vs' => ks.length == ks'.length && partialEqEntries ks vs ks' vs'
  | _, _ => false

def partialEqs : List Value → List Value → Bool
  | [], [] => true
  | a :: as, b :: bs => partialEq a b && partialEqs as bs
  | _, _ => false

/-- Every entry of the one map is an entry of the other. -/
def partialEqEntries : List Bytes → List Value → List Bytes → List Value → Bool
  | k :: ks, v :: vs, ks', vs' =>
      (match get ks' vs' k with
        | some v' => partialEq v v'
        | none => false) && partialEqEntries ks vs ks' vs'
  | _, _, _, _ => true

end

def lispEq : Value → Value → Bool
  | .num a, .num b => a == b
  | .bool a, .bool b => a == b
  | .str a, .str b => a == b
  | .nil, .nil => true
  | .list a, .list b => partialEqs a b
  | _, _ => false

/-! ### The emitted code -/

def word32 (w : I64) : Nat := (w.setWidth 32).toNat

/-- The byte loop of `__h_val_eq`: what it reads, as offsets into the strings, and what it finds. -/
def byteLoop (m : LinearMemory) (a b : I64) : (left : Nat) → I64 → List Nat × Option Bool
  | 0, _ => ([], some true)
  | left + 1, i =>
      match load8U m (word32 ((a >>> 3 &&& 0xFFFFFFFF) + i)),
        load8U m (word32 ((b >>> 3 &&& 0xFFFFFFFF) + i)) with
      | some x, some y =>
          if x ≠ y then ([i.toNat], some false)
          else
            let (reads, r) := byteLoop m a b left (i + 1)
            (i.toNat :: reads, r)
      | _, _ => ([i.toNat], none)

def strLength (w : I64) : I64 := w >>> 3 >>> 32

/-- The loop over the words of two arrays, with the comparison that it calls. -/
def elementLoop (m : LinearMemory) (eq : I64 → I64 → Option Bool) (a b : I64) :
    (left : Nat) → I64 → Option Bool
  | 0, _ => some true
  | left + 1, i => do
      let x ← m.loadI64 (word32 (a >>> 3 + (i + 1) * 8))
      let y ← m.loadI64 (word32 (b >>> 3 + (i + 1) * 8))
      let same ← eq x y
      if same then elementLoop m eq a b left (i + 1) else some false

/-- `__h_val_eq`, with calls nested at most `fuel` deep. `none` is a trap, or more calls. -/
def valEq : Nat → LinearMemory → I64 → I64 → Option Bool
  | 0, _, _, _ => none
  | fuel + 1, m, a, b =>
      if a &&& 7 ≠ b &&& 7 then some false
      else if a &&& 7 = 5 then
        if strLength a ≠ strLength b then some false
        else (byteLoop m a b (strLength a).toNat 0).2
      else if a &&& 7 = 6 then do
        let na ← m.loadI64 (word32 (a >>> 3))
        let nb ← m.loadI64 (word32 (b >>> 3))
        if na ≠ nb then some false else elementLoop m (valEq fuel m) a b na.toNat 0
      else some (a == b)

def emitTagBool (b : Bool) : I64 := (if b then 1 else 0) <<< 3 ||| 1

/-- `=` on the words of its operands; `numeric` where both are known to be numbers. -/
def eq (numeric : Bool) (fuel : Nat) (m : LinearMemory) (a b : I64) : Option I64 :=
  if numeric then some (emitTagBool (a == b)) else (valEq fuel m a b).map emitTagBool

def neq (numeric : Bool) (fuel : Nat) (m : LinearMemory) (a b : I64) : Option I64 :=
  if numeric then some (emitTagBool (a != b)) else (valEq fuel m a b).map fun r => emitTagBool !r

/-! ### Strings by words -/

/-- The offsets of a word's bytes. -/
def wordAt (i : I64) : List Nat := (List.range 8).map ((i * 8).toNat + ·)

/-- The word loop of `emit_str_eq`: what it reads, as offsets, and whether all words agree. -/
def wordLoop (m : LinearMemory) (aPtr bPtr : I64) : (left : Nat) → I64 → List Nat × Option Bool
  | 0, _ => ([], some true)
  | left + 1, i =>
      match m.loadI64 (word32 (aPtr + i * 8)), m.loadI64 (word32 (bPtr + i * 8)) with
      | some wa, some wb =>
          if wa ≠ wb then (wordAt i, some false)
          else
            let (reads, r) := wordLoop m aPtr bPtr left (i + 1)
            (wordAt i ++ reads, r)
      | _, _ => (wordAt i, none)

/-- `emit_str_eq`, on two tagged strings: what it reads, as offsets, and its word. -/
def strEq (m : LinearMemory) (a b : I64) : List Nat × Option I64 :=
  let aRaw := b >>> 3
  let bRaw := a >>> 3
  if aRaw = bRaw then ([], some 8)
  else if aRaw >>> 32 ≠ bRaw >>> 32 then ([], some 1)
  else
    let aPtr := aRaw &&& 0xFFFFFFFF
    let bPtr := bRaw &&& 0xFFFFFFFF
    let nWords := aRaw >>> 32 >>> 3
    let tailLen := aRaw >>> 32 &&& 7
    match wordLoop m aPtr bPtr nWords.toNat 0 with
    | (reads, some true) =>
        if tailLen = 0 then (reads, some 8)
        else
          match m.loadI64 (word32 (aPtr + nWords * 8)), m.loadI64 (word32 (bPtr + nWords * 8)) with
          | some wa, some wb =>
              let mask := (1 : I64) <<< (tailLen * 8).toNat - 1
              (reads ++ wordAt nWords, some (if wa &&& mask = wb &&& mask then 8 else 1))
          | _, _ => (reads ++ wordAt nWords, none)
    | (reads, some false) => (reads, some 1)
    | (reads, none) => (reads, none)

/-! ### Values in memory -/

/-- The keys of a dict, each with its value. -/
def entries : List Bytes → List Value → List Value
  | k :: ks, v :: vs => .str k :: v :: entries ks vs
  | _, _ => []

/-- A count and words after it. -/
structure StoredAt (m : LinearMemory) (ptr count : Nat) (ws : List I64) : Prop where
  room : ptr + 8 * (ws.length + 1) ≤ 2 ^ 32
  count : m.loadI64 ptr = some (.ofNat 64 count)
  words : ∀ i w, ws[i]? = some w → m.loadI64 (ptr + 8 * (i + 1)) = some w

def tagArray (ptr : Nat) : I64 := .ofNat 64 (8 * ptr + 6)

inductive Represents (m : LinearMemory) : Value → I64 → Prop
  | nil : Represents m .nil 4
  | bool (b : Bool) : Represents m (.bool b) (emitTagBool b)
  | num (n : Int) (low : -2 ^ 60 ≤ n) (high : n < 2 ^ 60) :
      Represents m (.num n) (.ofInt 64 (8 * n))
  | str (s : Bytes) (ptr : Nat) (below : ptr + s.length ≤ 2 ^ 32) (room : ptr + s.length ≤ m.size)
      (start : ptr < 2 ^ 32) (short : s.length < 2 ^ 29)
      (bytes : ∀ i (h : i < s.length), m.bytes (ptr + i) = s[i]) :
      Represents m (.str s) (CompositeKeys.tagStr ptr s.length)
  | list (vs : List Value) (ws : List I64) (ptr : Nat) (stored : StoredAt m ptr vs.length ws)
      (length : ws.length = vs.length)
      (elements : ∀ (i : Nat) v w, vs[i]? = some v → ws[i]? = some w → Represents m v w) :
      Represents m (.list vs) (tagArray ptr)
  | dict (keys : List Bytes) (vs : List Value) (ws : List I64) (ptr : Nat)
      (stored : StoredAt m ptr keys.length ws) (each : vs.length = keys.length)
      (distinct : keys.Nodup) (length : ws.length = (entries keys vs).length)
      (elements : ∀ (i : Nat) v w,
        (entries keys vs)[i]? = some v → ws[i]? = some w → Represents m v w) :
      Represents m (.dict keys vs) (tagArray ptr)

mutual

/-- What `__h_val_eq` looks at: of a dict with `n` entries, the first `n` words after the count. -/
def lookedAt : Value → Value
  | .list vs => .list (lookedAts vs)
  | .dict keys vs => .list ((lookedAtEntries keys vs).take keys.length)
  | v => v

def lookedAts : List Value → List Value
  | [] => []
  | v :: vs => lookedAt v :: lookedAts vs

def lookedAtEntries : List Bytes → List Value → List Value
  | k :: ks, v :: vs => .str k :: lookedAt v :: lookedAtEntries ks vs
  | _, _ => []

end

/-! ### Words -/

def Value.tag : Value → I64
  | .nil => 4
  | .bool _ => 1
  | .num _ => 0
  | .str _ => 5
  | .list _ | .dict _ _ => 6

theorem toNat_and_seven (w : I64) : (w &&& 7).toNat = w.toNat % 8 := by
  rw [BitVec.toNat_and]
  exact Nat.and_two_pow_sub_one_eq_mod w.toNat 3

theorem toNat_ushiftRight_three (w : I64) : (w >>> 3).toNat = w.toNat / 8 := by
  rw [BitVec.toNat_ushiftRight, Nat.shiftRight_eq_div_pow]

section StringWord

variable {ptr len : Nat} (start : ptr < 2 ^ 32) (short : len < 2 ^ 29)

include start short

theorem tagStr_tag : CompositeKeys.tagStr ptr len &&& 7 = 5 := by
  apply BitVec.eq_of_toNat_eq
  rw [toNat_and_seven, toNat_tagStr start short]
  change _ = 5
  omega

theorem tagStr_raw : (CompositeKeys.tagStr ptr len >>> 3).toNat = ptr + 2 ^ 32 * len := by
  rw [toNat_ushiftRight_three, toNat_tagStr start short]
  omega

theorem tagStr_length : strLength (CompositeKeys.tagStr ptr len) = .ofNat 64 len := by
  apply BitVec.eq_of_toNat_eq
  rw [strLength, BitVec.toNat_ushiftRight, tagStr_raw start short, Nat.shiftRight_eq_div_pow,
    BitVec.toNat_ofNat]
  omega

theorem tagStr_ptr : CompositeKeys.tagStr ptr len >>> 3 &&& 0xFFFFFFFF = .ofNat 64 ptr := by
  apply BitVec.eq_of_toNat_eq
  have low := Nat.and_two_pow_sub_one_eq_mod (ptr + 2 ^ 32 * len) 32
  rw [BitVec.toNat_and, tagStr_raw start short, BitVec.toNat_ofNat]
  refine low.trans ?_
  omega

end StringWord

theorem toNat_tagArray {ptr : Nat} (below : ptr < 2 ^ 32) :
    (tagArray ptr).toNat = 8 * ptr + 6 := by
  rw [tagArray, BitVec.toNat_ofNat]
  omega

theorem tagArray_tag {ptr : Nat} (below : ptr < 2 ^ 32) : tagArray ptr &&& 7 = 6 := by
  apply BitVec.eq_of_toNat_eq
  rw [toNat_and_seven, toNat_tagArray below]
  change _ = 6
  omega

theorem tagArray_ptr {ptr : Nat} (below : ptr < 2 ^ 32) : tagArray ptr >>> 3 = .ofNat 64 ptr := by
  apply BitVec.eq_of_toNat_eq
  rw [toNat_ushiftRight_three, toNat_tagArray below, BitVec.toNat_ofNat]
  omega

theorem word32_ofNat {p : Nat} (below : p < 2 ^ 32) : word32 (.ofNat 64 p) = p := by
  rw [word32, BitVec.toNat_setWidth, BitVec.toNat_ofNat]
  omega

theorem toNat_ofInt_num {n : Int} (low : -2 ^ 60 ≤ n) (high : n < 2 ^ 60) :
    ((BitVec.ofInt 64 (8 * n)).toNat : Int) = if n < 0 then 8 * n + 2 ^ 64 else 8 * n := by
  rw [BitVec.toNat_ofInt]
  split <;> omega

/-- A value's word shows its tag. -/
theorem Represents.tag {m : LinearMemory} {v : Value} {w : I64} (h : Represents m v w) :
    w &&& 7 = v.tag := by
  cases h with
  | nil => rfl
  | bool b => cases b <;> rfl
  | num n low high =>
    apply BitVec.eq_of_toNat_eq
    have word := toNat_ofInt_num low high
    rw [toNat_and_seven]
    change _ = 0
    split at word <;> omega
  | str s ptr below room start short bytes => exact tagStr_tag start short
  | list vs ws ptr stored length elements =>
    have room := stored.room
    exact tagArray_tag (by omega)
  | dict keys vs ws ptr stored each distinct length elements =>
    have room := stored.room
    exact tagArray_tag (by omega)

@[simp] theorem lookedAt_tag (v : Value) : (lookedAt v).tag = v.tag := by
  cases v <;> rfl

/-- Values that their words are. -/
def Value.Immediate : Value → Prop
  | .nil | .bool _ | .num _ => True
  | _ => False

/-- Of two immediate values, the words are the same just when the values are. -/
theorem word_eq_iff {m : LinearMemory} {a b : Value} {wa wb : I64} (ha : Represents m a wa)
    (hb : Represents m b wb) (ia : a.Immediate) (ib : b.Immediate) : wa = wb ↔ a = b := by
  constructor
  · intro same
    have tags : a.tag = b.tag := by rw [← ha.tag, ← hb.tag, same]
    cases a with
    | nil => cases b <;> first | rfl | exact ib.elim | simp [Value.tag] at tags
    | bool x =>
      cases b with
      | bool y =>
        cases ha
        cases hb
        cases x <;> cases y <;> first | rfl | exact absurd same (by decide)
      | _ => first | exact ib.elim | simp [Value.tag] at tags
    | num n =>
      cases b with
      | num k =>
        cases ha with
        | num n low high =>
          cases hb with
          | num k low' high' =>
            have first := toNat_ofInt_num low high
            have second := toNat_ofInt_num low' high'
            rw [same] at first
            congr
            split at first <;> split at second <;> omega
      | _ => first | exact ib.elim | simp [Value.tag] at tags
    | _ => exact ia.elim
  · rintro rfl
    cases ha <;> cases hb <;> first | rfl | exact ia.elim

/-! ### Strings -/

theorem load8U_of_lt {m : LinearMemory} {p : Nat} (h : p < m.size) :
    load8U m p = some (m.bytes p) := if_pos h

/-- A string's bytes in the memory. -/
structure Holds (m : LinearMemory) (ptr : Nat) (s : Bytes) : Prop where
  start : ptr < 2 ^ 32
  below : ptr + s.length ≤ 2 ^ 32
  room : ptr + s.length ≤ m.size
  bytes : ∀ i (h : i < s.length), m.bytes (ptr + i) = s[i]

theorem Holds.load {m : LinearMemory} {ptr : Nat} {s : Bytes} (held : Holds m ptr s) {i : Nat}
    (h : i < s.length) :
    load8U m (word32 (.ofNat 64 ptr + .ofNat 64 i)) = some s[i] := by
  have below := held.below
  have room := held.room
  rw [← BitVec.ofNat_add, word32_ofNat (by omega), load8U_of_lt (by omega), held.bytes i h]

/-- The byte loop reads within the strings, and compares them. -/
theorem byteLoop_eq {m : LinearMemory} {p q : Nat} {s t : Bytes} (hs : Holds m p s)
    (ht : Holds m q t) (same : s.length = t.length) {a b : I64}
    (ha : a >>> 3 &&& 0xFFFFFFFF = .ofNat 64 p) (hb : b >>> 3 &&& 0xFFFFFFFF = .ofNat 64 q)
    (left i : Nat) (turns : i + left = s.length) :
    (∀ j ∈ (byteLoop m a b left (.ofNat 64 i)).1, j < s.length) ∧
      (byteLoop m a b left (.ofNat 64 i)).2 = some (decide (s.drop i = t.drop i)) := by
  induction left generalizing i with
  | zero =>
    refine ⟨fun j mem => absurd mem List.not_mem_nil, ?_⟩
    rw [List.drop_of_length_le (by omega), List.drop_of_length_le (by omega), byteLoop]
    rfl
  | succ left ih =>
    have inS : i < s.length := by omega
    have inT : i < t.length := by omega
    have below := hs.below
    have index : (BitVec.ofNat 64 i).toNat = i := by rw [BitVec.toNat_ofNat]; omega
    have next : BitVec.ofNat 64 i + 1 = BitVec.ofNat 64 (i + 1) := (BitVec.ofNat_add i 1).symm
    obtain ⟨within, rest⟩ := ih (i + 1) (by omega)
    rw [byteLoop, ha, hb, hs.load inS, ht.load inT, next, index, List.drop_eq_getElem_cons inS,
      List.drop_eq_getElem_cons inT]
    by_cases head : s[i] = t[i]
    · simp only [head, ne_eq, not_true_eq_false, if_false, rest, List.cons.injEq, true_and]
      refine ⟨fun j mem => ?_, trivial⟩
      obtain rfl | mem := List.mem_cons.mp mem
      · exact inS
      · exact within j mem
    · simp only [head, ne_eq, not_false_eq_true, if_true, List.cons.injEq, false_and, decide_false,
        and_true]
      intro j mem
      obtain rfl := List.mem_singleton.mp mem
      exact inS

/-! ### Lists and dicts -/

theorem lookedAts_eq (vs : List Value) : lookedAts vs = vs.map lookedAt := by
  induction vs with
  | nil => rfl
  | cons v vs ih => rw [lookedAts, ih, List.map_cons]

theorem lookedAtEntries_eq (keys : List Bytes) (vs : List Value) :
    lookedAtEntries keys vs = (entries keys vs).map lookedAt := by
  induction keys generalizing vs with
  | nil => simp [lookedAtEntries, entries]
  | cons k keys ih =>
    cases vs with
    | nil => rfl
    | cons v vs =>
      simp only [lookedAtEntries, entries, ih, List.map_cons]
      rfl

theorem length_entries {keys : List Bytes} {vs : List Value} (each : vs.length = keys.length) :
    (entries keys vs).length = 2 * keys.length := by
  induction keys generalizing vs with
  | nil => rfl
  | cons k keys ih =>
    cases vs with
    | nil => cases each
    | cons v vs =>
      simp only [entries, List.length_cons, ih (Nat.succ.inj each)]
      omega

theorem sizeOf_entries {keys : List Bytes} {vs : List Value} {v : Value}
    (mem : v ∈ entries keys vs) : sizeOf v < sizeOf (Value.dict keys vs) := by
  induction keys generalizing vs with
  | nil => cases mem
  | cons k keys ih =>
    cases vs with
    | nil => cases mem
    | cons u vs =>
      simp only [entries, List.mem_cons] at mem
      obtain rfl | rfl | mem := mem
      · simp
        omega
      · simp
        omega
      · have smaller := ih mem
        simp only [Value.dict.sizeOf_spec, List.cons.sizeOf_spec] at smaller ⊢
        omega

/-- An array as `__h_val_eq` sees it: its word, and the values that it compares. -/
structure Elements (m : LinearMemory) (v : Value) (w : I64) (es : List Value) : Prop where
  looked : lookedAt v = .list (es.map lookedAt)
  smaller : ∀ e ∈ es, sizeOf e < sizeOf v
  stored : ∃ ptr, w = tagArray ptr ∧ ptr + 8 * (es.length + 1) ≤ 2 ^ 32 ∧
    m.loadI64 ptr = some (.ofNat 64 es.length) ∧
    ∀ (i : Nat) e, es[i]? = some e → ∃ x, m.loadI64 (ptr + 8 * (i + 1)) = some x ∧ Represents m e x

theorem Represents.elements {m : LinearMemory} {v : Value} {w : I64} (h : Represents m v w)
    (array : v.tag = 6) : ∃ es, Elements m v w es := by
  cases h with
  | list vs ws ptr stored length elements =>
    refine ⟨vs, ?_, fun e mem => ?_, ptr, rfl, length ▸ stored.room, stored.count, ?_⟩
    · rw [lookedAt, lookedAts_eq]
    · have smaller := List.sizeOf_lt_of_mem mem
      simp only [Value.list.sizeOf_spec]
      omega
    · intro i e he
      have within : i < ws.length := length ▸ (List.getElem?_eq_some_iff.mp he).1
      have word := List.getElem?_eq_getElem within
      exact ⟨ws[i], stored.words i _ word, elements i e _ he word⟩
  | dict keys vs ws ptr stored each distinct length elements =>
    have twice := length_entries each
    have count : ((entries keys vs).take keys.length).length = keys.length := by
      rw [List.length_take]
      omega
    refine ⟨(entries keys vs).take keys.length, ?_, fun e mem => ?_, ptr, rfl, ?_, ?_, ?_⟩
    · rw [lookedAt, lookedAtEntries_eq, List.map_take]
    · exact sizeOf_entries (List.mem_of_mem_take mem)
    · have room := stored.room
      omega
    · rw [count]
      exact stored.count
    · intro i e he
      have he : (entries keys vs)[i]? = some e := by
        rw [List.getElem?_take] at he
        split at he
        · exact he
        · cases he
      have within : i < ws.length := length ▸ (List.getElem?_eq_some_iff.mp he).1
      have word := List.getElem?_eq_getElem within
      exact ⟨ws[i], stored.words i _ word, elements i e _ he word⟩
  | _ => exact absurd array (by simp [Value.tag])

/-- The loop compares the elements from the `i`th on, given what it finds of each pair. -/
theorem elementLoop_eq {m : LinearMemory} {eq : I64 → I64 → Option Bool} {p q : Nat}
    {es fs : List Value} (same : es.length = fs.length) (room : p + 8 * (es.length + 1) ≤ 2 ^ 32)
    (room' : q + 8 * (es.length + 1) ≤ 2 ^ 32)
    (pair : ∀ i e f, es[i]? = some e → fs[i]? = some f → ∃ x y r,
      m.loadI64 (p + 8 * (i + 1)) = some x ∧ m.loadI64 (q + 8 * (i + 1)) = some y ∧
        eq x y = some r ∧ (r = true ↔ lookedAt e = lookedAt f))
    (left i : Nat) (turns : i + left = es.length) :
    ∃ r, elementLoop m eq (tagArray p) (tagArray q) left (.ofNat 64 i) = some r ∧
      (r = true ↔ (es.drop i).map lookedAt = (fs.drop i).map lookedAt) := by
  induction left generalizing i with
  | zero =>
    refine ⟨true, rfl, ?_⟩
    rw [List.drop_of_length_le (by omega), List.drop_of_length_le (by omega)]
    simp
  | succ left ih =>
    have inEs : i < es.length := by omega
    have inFs : i < fs.length := by omega
    obtain ⟨x, y, r, loadX, loadY, ran, found⟩ :=
      pair i es[i] fs[i] (List.getElem?_eq_getElem inEs) (List.getElem?_eq_getElem inFs)
    obtain ⟨rest, ranRest, foundRest⟩ := ih (i + 1) (by omega)
    have next : BitVec.ofNat 64 i + 1 = BitVec.ofNat 64 (i + 1) := (BitVec.ofNat_add i 1).symm
    have address (ptr : Nat) (fits : ptr + 8 * (es.length + 1) ≤ 2 ^ 32) :
        word32 (tagArray ptr >>> 3 + BitVec.ofNat 64 (i + 1) * 8) = ptr + 8 * (i + 1) := by
      rw [tagArray_ptr (by omega), show (8 : I64) = .ofNat 64 8 from rfl, ← BitVec.ofNat_mul,
        ← BitVec.ofNat_add, word32_ofNat (by omega), Nat.mul_comm]
    rw [elementLoop, next, address p room, address q room', loadX, loadY,
      List.drop_eq_getElem_cons inEs, List.drop_eq_getElem_cons inFs]
    simp only [Option.bind_eq_bind, Option.bind_some, ran, List.map_cons, List.cons.injEq, ← found]
    cases r with
    | false => exact ⟨false, rfl, by simp⟩
    | true => exact ⟨rest, ranRest, by simp [foundRest]⟩

/-! ### The comparison -/

theorem Represents.holds {m : LinearMemory} {s : Bytes} {w : I64} (h : Represents m (.str s) w) :
    s.length < 2 ^ 29 ∧ ∃ ptr, w = CompositeKeys.tagStr ptr s.length ∧ Holds m ptr s := by
  cases h with
  | str s ptr below room start short bytes => exact ⟨short, ptr, rfl, start, below, room, bytes⟩

/-- Two strings: the length, then the bytes. -/
theorem compare_strings {m : LinearMemory} {s t : Bytes} {wa wb : I64}
    (ha : Represents m (.str s) wa) (hb : Represents m (.str t) wb) :
    ((if strLength wa ≠ strLength wb then some false
      else (byteLoop m wa wb (strLength wa).toNat 0).2) = some (decide (s = t))) ∧
      (strLength wa = strLength wb →
        ∀ j ∈ (byteLoop m wa wb (strLength wa).toNat 0).1, j < s.length ∧ j < t.length) := by
  obtain ⟨short, p, rfl, hs⟩ := ha.holds
  obtain ⟨short', q, rfl, ht⟩ := hb.holds
  rw [tagStr_length hs.start short, tagStr_length ht.start short']
  have lengths : (BitVec.ofNat 64 s.length = BitVec.ofNat 64 t.length) ↔ s.length = t.length := by
    constructor
    · intro e
      have e := congrArg BitVec.toNat e
      rw [BitVec.toNat_ofNat, BitVec.toNat_ofNat] at e
      omega
    · exact congrArg (BitVec.ofNat 64)
  have turns : (BitVec.ofNat 64 s.length).toNat = s.length := by
    rw [BitVec.toNat_ofNat]
    omega
  rw [turns]
  by_cases same : s.length = t.length
  · obtain ⟨within, found⟩ := byteLoop_eq hs ht same (tagStr_ptr hs.start short)
      (tagStr_ptr ht.start short') s.length 0 (Nat.zero_add _)
    refine ⟨?_, fun _ j mem => ⟨within j mem, same ▸ within j mem⟩⟩
    rw [if_neg (not_not.mpr (lengths.mpr same)), show (0 : I64) = .ofNat 64 0 from rfl, found,
      List.drop_zero, List.drop_zero]
  · refine ⟨?_, fun e => absurd (lengths.mp e) same⟩
    rw [if_pos (mt lengths.mp same)]
    have differ : s ≠ t := fun e => same (congrArg List.length e)
    simp [differ]

theorem compare_arrays {m : LinearMemory} {eq : I64 → I64 → Option Bool} {a b : Value}
    {wa wb : I64} {es fs : List Value} (ha : Elements m a wa es) (hb : Elements m b wb fs)
    (pair : ∀ e ∈ es, ∀ f ∈ fs, ∀ x y, Represents m e x → Represents m f y →
      ∃ r, eq x y = some r ∧ (r = true ↔ lookedAt e = lookedAt f)) :
    ∃ r, (do
        let na ← m.loadI64 (word32 (wa >>> 3))
        let nb ← m.loadI64 (word32 (wb >>> 3))
        if na ≠ nb then some false else elementLoop m eq wa wb na.toNat 0) = some r ∧
      (r = true ↔ lookedAt a = lookedAt b) := by
  obtain ⟨p, rfl, room, count, words⟩ := ha.stored
  obtain ⟨q, rfl, room', count', words'⟩ := hb.stored
  rw [tagArray_ptr (by omega), tagArray_ptr (by omega), word32_ofNat (by omega),
    word32_ofNat (by omega), count, count', ha.looked, hb.looked]
  simp only [Option.bind_eq_bind, Option.bind_some, Value.list.injEq]
  by_cases same : es.length = fs.length
  · have turns : (BitVec.ofNat 64 es.length).toNat = es.length := by
      rw [BitVec.toNat_ofNat]
      omega
    rw [if_neg (not_not.mpr (congrArg (BitVec.ofNat 64) same)), turns]
    refine elementLoop_eq same room (by omega) (fun i e f he hf => ?_) es.length 0 (Nat.zero_add _)
    obtain ⟨x, loadX, hx⟩ := words i e he
    obtain ⟨y, loadY, hy⟩ := words' i f hf
    obtain ⟨r, ran, found⟩ :=
      pair e (List.mem_of_getElem? he) f (List.mem_of_getElem? hf) x y hx hy
    exact ⟨x, y, r, loadX, loadY, ran, found⟩
  · have counts : BitVec.ofNat 64 es.length ≠ BitVec.ofNat 64 fs.length := by
      intro e
      have e := congrArg BitVec.toNat e
      rw [BitVec.toNat_ofNat, BitVec.toNat_ofNat] at e
      omega
    rw [if_pos counts]
    have differ : es.map lookedAt ≠ fs.map lookedAt := fun e => same (by
      simpa using congrArg List.length e)
    exact ⟨false, rfl, by simp [differ]⟩

theorem eq_str_of_tag {v : Value} (h : v.tag = 5) : ∃ s, v = .str s := by
  cases v with
  | str s => exact ⟨s, rfl⟩
  | _ => simp [Value.tag] at h

theorem immediate_of_tag {v : Value} (string : v.tag ≠ 5) (array : v.tag ≠ 6) :
    v.Immediate ∧ lookedAt v = v := by
  cases v <;> first | exact ⟨trivial, rfl⟩ | exact absurd rfl string | exact absurd rfl array

/-- `__h_val_eq` comes back, and compares what it looks at. -/
theorem valEq_eq {m : LinearMemory} (fuel : Nat) {a b : Value} {wa wb : I64}
    (ha : Represents m a wa) (hb : Represents m b wb) (deep : sizeOf a < fuel) :
    ∃ r, valEq fuel m wa wb = some r ∧ (r = true ↔ lookedAt a = lookedAt b) := by
  induction fuel generalizing a b wa wb with
  | zero => exact absurd deep (Nat.not_lt_zero _)
  | succ fuel ih =>
    rw [valEq, ha.tag, hb.tag]
    by_cases tags : a.tag = b.tag
    · rw [if_neg (not_not.mpr tags)]
      by_cases string : a.tag = 5
      · obtain ⟨s, rfl⟩ := eq_str_of_tag string
        obtain ⟨t, rfl⟩ := eq_str_of_tag (tags ▸ string)
        rw [if_pos string, (compare_strings ha hb).1]
        exact ⟨_, rfl, by simp [lookedAt]⟩
      · rw [if_neg string]
        by_cases array : a.tag = 6
        · rw [if_pos array]
          obtain ⟨es, elements⟩ := ha.elements array
          obtain ⟨fs, elements'⟩ := hb.elements (tags ▸ array)
          refine compare_arrays elements elements' fun e he f _ x y hx hy => ?_
          exact ih hx hy (by have smaller := elements.smaller e he; omega)
        · rw [if_neg array]
          obtain ⟨ia, sameA⟩ := immediate_of_tag string array
          obtain ⟨ib, sameB⟩ := immediate_of_tag (tags ▸ string) (tags ▸ array)
          refine ⟨_, rfl, ?_⟩
          rw [sameA, sameB, beq_iff_eq]
          exact word_eq_iff ha hb ia ib
    · have differ : lookedAt a ≠ lookedAt b := fun e => tags (by
        rw [← lookedAt_tag a, e, lookedAt_tag])
      rw [if_pos tags]
      exact ⟨false, rfl, by simp [differ]⟩

/-! ### Words of strings -/

theorem number_eq_iff {m : LinearMemory} (p q k : Nat) :
    m.number p k = m.number q k ↔ ∀ i < k, m.bytes (p + i) = m.bytes (q + i) := by
  constructor
  · intro same i h
    apply BitVec.eq_of_toNat_eq
    rw [byte_number h, byte_number h, same]
  · intro same
    unfold number
    congr 1
    exact List.map_congr_left fun i mem => by rw [same i (List.mem_range.mp mem)]

/-- The offsets from `i` on, up to the last of `n` words. -/
def AgreeFrom (s t : Bytes) (i n : Nat) : Prop := ∀ k, 8 * i ≤ k → k < 8 * n → s[k]? = t[k]?

theorem agreeFrom_succ {s t : Bytes} {i n : Nat} (h : i < n) :
    AgreeFrom s t i n ↔ (∀ o < 8, s[8 * i + o]? = t[8 * i + o]?) ∧ AgreeFrom s t (i + 1) n := by
  constructor
  · exact fun agree => ⟨fun o ho => agree _ (by omega) (by omega), fun k hk => agree k (by omega)⟩
  · rintro ⟨word, rest⟩ k from_i below
    by_cases inWord : k < 8 * (i + 1)
    · have at_k := word (k - 8 * i) (by omega)
      rwa [Nat.add_sub_cancel' from_i] at at_k
    · exact rest k (by omega) below

theorem Holds.loadI64 {m : LinearMemory} {ptr : Nat} {s : Bytes} (held : Holds m ptr s) {i : Nat}
    (h : 8 * (i + 1) ≤ s.length) :
    ∃ w : I64, m.loadI64 (word32 (.ofNat 64 ptr + .ofNat 64 i * 8)) = some w ∧
      w.toNat = m.number (ptr + 8 * i) 8 := by
  have below := held.below
  have room := held.room
  rw [show (8 : I64) = .ofNat 64 8 from rfl, ← BitVec.ofNat_mul, ← BitVec.ofNat_add,
    word32_ofNat (by omega), Nat.mul_comm i 8]
  exact loadI64_number (by omega)

theorem Holds.getElem? {m : LinearMemory} {ptr : Nat} {s : Bytes} (held : Holds m ptr s) {k : Nat}
    (h : k < s.length) : s[k]? = some (m.bytes (ptr + k)) := by
  rw [List.getElem?_eq_getElem h, held.bytes k h]

theorem mem_wordAt {i j : Nat} (small : 8 * i < 2 ^ 64) :
    j ∈ wordAt (.ofNat 64 i) ↔ 8 * i ≤ j ∧ j < 8 * i + 8 := by
  have start : (BitVec.ofNat 64 i * 8).toNat = 8 * i := by
    rw [show (8 : I64) = .ofNat 64 8 from rfl, ← BitVec.ofNat_mul, BitVec.toNat_ofNat]
    omega
  simp only [wordAt, start, List.mem_map, List.mem_range]
  constructor
  · rintro ⟨o, ho, rfl⟩
    omega
  · exact fun h => ⟨j - 8 * i, by omega, by omega⟩

/-- The word loop reads whole words within the strings, and compares them. -/
theorem wordLoop_eq {m : LinearMemory} {p q : Nat} {s t : Bytes} (hs : Holds m p s)
    (ht : Holds m q t) (same : s.length = t.length) {n : Nat} (words : 8 * n ≤ s.length)
    (left i : Nat) (turns : i + left = n) :
    ∃ r, (wordLoop m (.ofNat 64 p) (.ofNat 64 q) left (.ofNat 64 i)).2 = some r ∧
      (r = true ↔ AgreeFrom s t i n) ∧
      ∀ j ∈ (wordLoop m (.ofNat 64 p) (.ofNat 64 q) left (.ofNat 64 i)).1, j < 8 * n := by
  induction left generalizing i with
  | zero =>
    refine ⟨true, rfl, ?_, fun j mem => absurd mem List.not_mem_nil⟩
    exact iff_of_true rfl fun k from_i below => by omega
  | succ left ih =>
    have inside : i < n := by omega
    have below := hs.below
    obtain ⟨wa, loadA, valueA⟩ := hs.loadI64 (i := i) (by omega)
    obtain ⟨wb, loadB, valueB⟩ := ht.loadI64 (i := i) (by omega)
    obtain ⟨r, ran, found, within⟩ := ih (i + 1) (by omega)
    have next : BitVec.ofNat 64 i + 1 = BitVec.ofNat 64 (i + 1) := (BitVec.ofNat_add i 1).symm
    have word : wa = wb ↔ ∀ o < 8, s[8 * i + o]? = t[8 * i + o]? := by
      rw [← BitVec.toNat_inj, valueA, valueB, number_eq_iff]
      refine forall₂_congr fun o ho => ?_
      rw [hs.getElem? (by omega), ht.getElem? (by omega), Option.some_inj, Nat.add_assoc,
        Nat.add_assoc]
    rw [wordLoop, loadA, loadB, next, agreeFrom_succ inside, ← word]
    by_cases equal : wa = wb
    · simp only [equal, ne_eq, not_true_eq_false, if_false, true_and]
      refine ⟨r, ran, found, fun j mem => ?_⟩
      obtain mem | mem := List.mem_append.mp mem
      · have bounds := (mem_wordAt (by omega)).mp mem
        omega
      · exact within j mem
    · simp only [ne_eq, equal, not_false_eq_true, if_true, false_and]
      refine ⟨false, rfl, by simp, fun j mem => ?_⟩
      have bounds := (mem_wordAt (by omega)).mp mem
      omega

/-- Reading within both strings. -/
def ReadsWithin (s t : Bytes) (reads : List Nat) : Prop := ∀ j ∈ reads, j < s.length ∧ j < t.length

/-- When the last bytes are not read as part of a word that goes beyond them. -/
def NoTail (s t : Bytes) (wa wb : I64) : Prop :=
  wa = wb ∨ s.length ≠ t.length ∨ s.length % 8 = 0 ∨ ¬ AgreeFrom s t 0 (s.length / 8)

theorem raw_eq_iff {p q k n : Nat} (hp : p < 2 ^ 32) (hq : q < 2 ^ 32) (hk : k < 2 ^ 29)
    (hn : n < 2 ^ 29) :
    CompositeKeys.tagStr q n >>> 3 = CompositeKeys.tagStr p k >>> 3 ↔
      CompositeKeys.tagStr p k = CompositeKeys.tagStr q n := by
  rw [← BitVec.toNat_inj, ← BitVec.toNat_inj, tagStr_raw hq hn, tagStr_raw hp hk,
    toNat_tagStr hp hk, toNat_tagStr hq hn]
  omega

theorem ofNat_eq_iff {k n : Nat} (hk : k < 2 ^ 64) (hn : n < 2 ^ 64) :
    BitVec.ofNat 64 k = BitVec.ofNat 64 n ↔ k = n := by
  rw [← BitVec.toNat_inj, BitVec.toNat_ofNat, BitVec.toNat_ofNat]
  omega

theorem strEq_reads {m : LinearMemory} {s t : Bytes} {wa wb : I64}
    (ha : Represents m (.str s) wa) (hb : Represents m (.str t) wb) :
    ReadsWithin s t (strEq m wa wb).1 ↔ NoTail s t wa wb := by
  obtain ⟨short, p, rfl, hs⟩ := ha.holds
  obtain ⟨short', q, rfl, ht⟩ := hb.holds
  have raws := raw_eq_iff hs.start ht.start short short'
  have lengths : CompositeKeys.tagStr q t.length >>> 3 >>> 32 = .ofNat 64 t.length :=
    tagStr_length ht.start short'
  have lengths' : CompositeKeys.tagStr p s.length >>> 3 >>> 32 = .ofNat 64 s.length :=
    tagStr_length hs.start short
  have none : ReadsWithin s t [] := fun j mem => absurd mem List.not_mem_nil
  simp only [strEq, lengths, lengths', tagStr_ptr hs.start short, tagStr_ptr ht.start short', raws,
    NoTail]
  by_cases words : CompositeKeys.tagStr p s.length = CompositeKeys.tagStr q t.length
  · rw [if_pos words]
    exact iff_of_true none (.inl words)
  rw [if_neg words]
  by_cases same : s.length = t.length
  case neg =>
    have differ : BitVec.ofNat 64 t.length ≠ BitVec.ofNat 64 s.length := fun e =>
      same ((ofNat_eq_iff (by omega) (by omega)).mp e).symm
    rw [if_pos differ]
    exact iff_of_true none (.inr (.inl same))
  have whole : (BitVec.ofNat 64 t.length >>> 3).toNat = s.length / 8 := by
    rw [toNat_ushiftRight_three, BitVec.toNat_ofNat, same]
    omega
  have count : BitVec.ofNat 64 t.length >>> 3 = .ofNat 64 (s.length / 8) := by
    apply BitVec.eq_of_toNat_eq
    rw [whole, BitVec.toNat_ofNat]
    omega
  have tail : BitVec.ofNat 64 t.length &&& 7 = 0 ↔ s.length % 8 = 0 := by
    rw [← BitVec.toNat_inj, toNat_and_seven, BitVec.toNat_ofNat, same]
    change _ = 0 ↔ _
    omega
  obtain ⟨r, ran, found, within⟩ := wordLoop_eq ht hs same.symm (n := s.length / 8) (by omega)
    (s.length / 8) 0 (Nat.zero_add _)
  have agree : AgreeFrom t s 0 (s.length / 8) ↔ AgreeFrom s t 0 (s.length / 8) :=
    ⟨fun h k lo hi => (h k lo hi).symm, fun h k lo hi => (h k lo hi).symm⟩
  have inside : ReadsWithin s t (wordLoop m (.ofNat 64 q) (.ofNat 64 p) (s.length / 8) 0).1 :=
    fun j mem => by have below := within j mem; omega
  rw [if_neg (not_not.mpr (congrArg (BitVec.ofNat 64) same.symm)), whole, count]
  rw [or_iff_right words, or_iff_right (not_not.mpr same)]
  rcases loop : wordLoop m (.ofNat 64 q) (.ofNat 64 p) (s.length / 8) 0 with ⟨reads, res⟩
  rw [show BitVec.ofNat 64 0 = (0 : I64) from rfl, loop] at ran
  rw [loop] at inside
  obtain rfl : res = some r := ran
  cases r with
  | false =>
    exact iff_of_true inside (.inr fun all => Bool.false_ne_true (found.mpr (agree.mpr all)))
  | true =>
    dsimp only
    by_cases multiple : s.length % 8 = 0
    · rw [if_pos (tail.mpr multiple)]
      exact iff_of_true inside (.inl multiple)
    · rw [if_neg (mt tail.mp multiple)]
      have all : AgreeFrom s t 0 (s.length / 8) := agree.mp (found.mp rfl)
      refine iff_of_false (fun reads => ?_) (not_or.mpr ⟨multiple, not_not.mpr all⟩)
      have last : 8 * (s.length / 8) + 7 ∈ wordAt (.ofNat 64 (s.length / 8)) :=
        (mem_wordAt (by omega)).mpr ⟨by omega, by omega⟩
      have below : 8 * (s.length / 8) + 7 < s.length := by
        split at reads <;> exact (reads _ (List.mem_append_right _ last)).1
      omega

/-! ### Equality as the code computes it -/

/-- `=` and `!=` on the words of two values, with calls nested deep enough. -/
def EqAgrees (numeric : Bool) (m : LinearMemory) (a b : Value) (wa wb : I64) : Prop :=
  ∃ enough, ∀ fuel ≥ enough, eq numeric fuel m wa wb = some (emitTagBool (lispEq a b)) ∧
    neq numeric fuel m wa wb = some (emitTagBool !lispEq a b)

/-- The words that `__h_val_eq` takes for equal. -/
def Equal (m : LinearMemory) (wa wb : I64) : Prop :=
  ∃ enough, ∀ fuel ≥ enough, valEq fuel m wa wb = some true

/-- A value and its word in a memory. -/
def Stored (m : LinearMemory) : Type := { p : Value × I64 // Represents m p.1 p.2 }

theorem equal_iff {m : LinearMemory} {a b : Value} {wa wb : I64} (ha : Represents m a wa)
    (hb : Represents m b wb) : Equal m wa wb ↔ lookedAt a = lookedAt b := by
  constructor
  · rintro ⟨enough, equal⟩
    obtain ⟨r, ran, found⟩ := valEq_eq (max enough (sizeOf a + 1)) ha hb (by omega)
    rw [equal _ (Nat.le_max_left _ _)] at ran
    exact found.mp (Option.some_inj.mp ran).symm
  · intro same
    refine ⟨sizeOf a + 1, fun fuel deep => ?_⟩
    obtain ⟨r, ran, found⟩ := valEq_eq fuel ha hb deep
    rw [ran, found.mpr same]

theorem equal_equivalence (m : LinearMemory) :
    Equivalence fun x y : Stored m => Equal m x.1.2 y.1.2 where
  refl x := (equal_iff x.2 x.2).mpr rfl
  symm {x y} h := (equal_iff y.2 x.2).mpr ((equal_iff x.2 y.2).mp h).symm
  trans {x y z} h h' := (equal_iff x.2 z.2).mpr
    (((equal_iff x.2 y.2).mp h).trans ((equal_iff y.2 z.2).mp h'))

theorem emitTagBool_injective {a b : Bool} (h : emitTagBool a = emitTagBool b) : a = b := by
  revert h
  cases a <;> cases b <;> decide

/-- What `=` looks at: the word alone where both operands are known to be numbers. -/
def SameSeen (numeric : Bool) (a b : Value) (wa wb : I64) : Prop :=
  if numeric then wa = wb else lookedAt a = lookedAt b

theorem eqAgrees_iff {m : LinearMemory} (numeric : Bool) {a b : Value} {wa wb : I64}
    (ha : Represents m a wa) (hb : Represents m b wb) :
    EqAgrees numeric m a b wa wb ↔ (SameSeen numeric a b wa wb ↔ lispEq a b = true) := by
  have decides : ∀ fuel ≥ sizeOf a + 1, ∃ r, eq numeric fuel m wa wb = some (emitTagBool r) ∧
      neq numeric fuel m wa wb = some (emitTagBool !r) ∧
        (r = true ↔ SameSeen numeric a b wa wb) := by
    intro fuel deep
    cases numeric with
    | true => exact ⟨wa == wb, rfl, rfl, by simp [SameSeen]⟩
    | false =>
      obtain ⟨r, ran, found⟩ := valEq_eq fuel ha hb deep
      exact ⟨r, by simp [eq, ran], by simp [neq, ran], by simpa [SameSeen] using found⟩
  constructor
  · rintro ⟨enough, agrees⟩
    obtain ⟨r, ran, -, found⟩ := decides (max enough (sizeOf a + 1)) (Nat.le_max_right _ _)
    rw [(agrees _ (Nat.le_max_left _ _)).1, Option.some_inj] at ran
    rw [← found, emitTagBool_injective ran]
  · intro same
    refine ⟨sizeOf a + 1, fun fuel deep => ?_⟩
    obtain ⟨r, ran, ran', found⟩ := decides fuel deep
    have result : r = lispEq a b := Bool.eq_iff_iff.mpr (found.trans same)
    rw [ran, ran', result]
    exact ⟨rfl, rfl⟩

/-! ### The comparison of values -/

/-- The comparisons of two strings read within them: the bytes of `=`, the words of `str=`. -/
def StringsWithin (m : LinearMemory) (a b : Value) (wa wb : I64) : Prop :=
  ∀ s t, a = .str s → b = .str t →
    (strLength wa = strLength wb →
      ReadsWithin s t (byteLoop m wa wb (strLength wa).toNat 0).1) ∧
    ReadsWithin s t (strEq m wa wb).1

/-- On two values `=` and `!=` are the interpreter's just when what they look at tells the values
apart as the interpreter does, they are an equivalence, and no byte beyond a string is read just
when no tail of one is compared. -/
theorem equality_iff {m : LinearMemory} (numeric : Bool) {a b : Value} {wa wb : I64}
    (ha : Represents m a wa) (hb : Represents m b wb) :
    (EqAgrees numeric m a b wa wb ∧
      (Equivalence fun x y : Stored m => Equal m x.1.2 y.1.2) ∧ StringsWithin m a b wa wb) ↔
    (SameSeen numeric a b wa wb ↔ lispEq a b = true) ∧
      ∀ s t, a = .str s → b = .str t → NoTail s t wa wb := by
  constructor
  · rintro ⟨agrees, -, within⟩
    refine ⟨(eqAgrees_iff numeric ha hb).mp agrees, ?_⟩
    rintro s t rfl rfl
    exact (strEq_reads ha hb).mp (within s t rfl rfl).2
  · rintro ⟨seen, tails⟩
    refine ⟨(eqAgrees_iff numeric ha hb).mpr seen, equal_equivalence m, ?_⟩
    rintro s t rfl rfl
    exact ⟨(compare_strings ha hb).2, (strEq_reads ha hb).mpr (tails s t rfl rfl)⟩

mutual

/-- Without dicts. -/
def Value.Plain : Value → Prop
  | .list vs => Plains vs
  | .dict _ _ => False
  | _ => True

def Plains : List Value → Prop
  | [] => True
  | v :: vs => v.Plain ∧ Plains vs

end

mutual

theorem lookedAt_plain {a b : Value} (ha : a.Plain) (hb : b.Plain) :
    lookedAt a = lookedAt b ↔ partialEq a b = true := by
  match a, b with
  | .list as, .list bs =>
    simp only [lookedAt, partialEq, Value.list.injEq]
    exact lookedAts_plain ha hb
  | .dict _ _, _ => exact ha.elim
  | _, .dict _ _ => exact hb.elim
  | .nil, b => cases b <;> simp_all [lookedAt, partialEq]
  | .bool _, b => cases b <;> simp_all [lookedAt, partialEq]
  | .num _, b => cases b <;> simp_all [lookedAt, partialEq]
  | .str _, b => cases b <;> simp_all [lookedAt, partialEq]
  | .list _, .nil | .list _, .bool _ | .list _, .num _ | .list _, .str _ =>
    simp [lookedAt, partialEq]

theorem lookedAts_plain {as bs : List Value} (ha : Plains as) (hb : Plains bs) :
    lookedAts as = lookedAts bs ↔ partialEqs as bs = true := by
  match as, bs with
  | [], [] => simp [partialEqs]
  | [], _ :: _ => simp [lookedAts, partialEqs]
  | _ :: _, [] => simp [lookedAts, partialEqs]
  | a :: as, b :: bs =>
    simp only [lookedAts, partialEqs, List.cons.injEq, Bool.and_eq_true]
    exact and_congr (lookedAt_plain ha.1 hb.1) (lookedAts_plain ha.2 hb.2)

end

/-- Values without dicts are told apart. -/
theorem sameSeen_plain {a b : Value} (ha : a.Plain) (hb : b.Plain) (wa wb : I64) :
    SameSeen false a b wa wb ↔ lispEq a b = true := by
  refine (lookedAt_plain ha hb).trans (Bool.eq_iff_iff.mp ?_)
  cases a <;> cases b <;> first | rfl | exact ha.elim

/-- `(dict "a" 1)` and `(dict "a" 2)` at 8 and 32, and the string `"a"` at 64 and at 72. -/
def sample : LinearMemory where
  bytes i :=
    if i = 8 ∨ i = 32 then 1 else if i = 16 ∨ i = 40 then 5 else if i = 17 ∨ i = 41 then 2
    else if i = 20 ∨ i = 44 ∨ i = 24 then 8 else if i = 48 then 16
    else if i = 64 ∨ i = 72 then 97 else 0
  size := 4096

theorem sample_string {p : Nat} (h : p = 64 ∨ p = 72) :
    Represents sample (.str [97]) (CompositeKeys.tagStr p 1) := by
  refine .str [97] p ?_ ?_ ?_ (by decide) fun i within => ?_
  · obtain rfl | rfl := h <;> decide
  · obtain rfl | rfl := h <;> decide
  · obtain rfl | rfl := h <;> decide
  · obtain rfl : i = 0 := Nat.lt_one_iff.mp within
    obtain rfl | rfl := h <;> rfl

theorem sample_dict {p : Nat} {n : Int} (h : p = 8 ∧ n = 1 ∨ p = 32 ∧ n = 2) :
    Represents sample (.dict [[97]] [.num n]) (tagArray p) := by
  refine .dict [[97]] [.num n] [CompositeKeys.tagStr 64 1, .ofInt 64 (8 * n)] p
    ⟨?_, ?_, fun i w hw => ?_⟩ rfl (by decide) rfl fun i v w hv hw => ?_
  · obtain ⟨rfl, -⟩ | ⟨rfl, -⟩ := h <;> simp
  · obtain ⟨rfl, -⟩ | ⟨rfl, -⟩ := h <;> decide
  · match i with
    | 0 =>
      cases hw
      obtain ⟨rfl, -⟩ | ⟨rfl, -⟩ := h <;> decide
    | 1 =>
      cases hw
      obtain ⟨rfl, rfl⟩ | ⟨rfl, rfl⟩ := h <;> decide
    | _ + 2 => cases hw
  · match i with
    | 0 =>
      cases hv
      cases hw
      exact sample_string (.inl rfl)
    | 1 =>
      cases hv
      cases hw
      exact .num n (by omega) (by omega)
    | _ + 2 => cases hv

/-- Two dicts of one entry are equal to `=` when their keys are; `str=` reads on after `"a"`. -/
theorem equality_wrong :
    ¬ EqAgrees false sample (.dict [[97]] [.num 1]) (.dict [[97]] [.num 2]) (tagArray 8)
        (tagArray 32) ∧
      ¬ StringsWithin sample (.str [97]) (.str [97]) (CompositeKeys.tagStr 64 1)
        (CompositeKeys.tagStr 72 1) := by
  constructor
  · intro agrees
    have seen := (eqAgrees_iff false (sample_dict (.inl ⟨rfl, rfl⟩))
      (sample_dict (.inr ⟨rfl, rfl⟩))).mp agrees
    have equal : SameSeen false (.dict [[97]] [.num 1]) (.dict [[97]] [.num 2]) (tagArray 8)
        (tagArray 32) := by
      simp [SameSeen, lookedAt, lookedAtEntries]
    exact absurd (seen.mp equal) (by simp [lispEq])
  · intro within
    have beyond := (within [97] [97] rfl rfl).2 7 (by decide)
    exact absurd beyond.1 (by decide)

theorem equality_iff_string :
    (EqAgrees false sample (.str [97]) (.str [97]) (CompositeKeys.tagStr 64 1)
        (CompositeKeys.tagStr 64 1) ∧
      (Equivalence fun x y : Stored sample => Equal sample x.1.2 y.1.2) ∧
        StringsWithin sample (.str [97]) (.str [97]) (CompositeKeys.tagStr 64 1)
          (CompositeKeys.tagStr 64 1)) ↔
    (SameSeen false (.str [97]) (.str [97]) (CompositeKeys.tagStr 64 1)
        (CompositeKeys.tagStr 64 1) ↔
      lispEq (.str [97]) (.str [97]) = true) ∧
      ∀ s t, Value.str [97] = .str s → Value.str [97] = .str t →
        NoTail s t (CompositeKeys.tagStr 64 1) (CompositeKeys.tagStr 64 1) :=
  equality_iff false (sample_string (.inl rfl)) (sample_string (.inl rfl))

end ValueEquality

end LispRlm.WasmEmit
