import LispRlm.Foundation.Simulation
import Mathlib.Logic.Function.Basic
import Mathlib.Data.List.Nodup

/-! Storage writes that are held back in the memo table until the export boundary.

The table shadows the host: a read that hits sees the table, and the flush replays the dirty
slots. -/

namespace LispRlm.WasmEmit

open Foundation

abbrev Bytes := List UInt8

/-- The host's key-value storage. -/
abbrev Host := Bytes → Option Bytes

def Host.put (host : Host) (key : Bytes) (value : Option Bytes) : Host :=
  Function.update host key value

/-- Longest key a slot has room for. -/
def cacheKeyCap : Nat := 64

def cacheSlots : Nat := 64

/-- A slot's key copy and value; `none` is the cached miss, `nil`. -/
structure Slot where
  key : Bytes
  value : Option Bytes
  deriving DecidableEq

structure Memo where
  host : Host
  /-- The slots below the count. -/
  slots : List Slot
  /-- The dirty bytes, also of slots at or above the count. -/
  dirty : Nat → Bool
  /-- The scratch local `__wt_found` of each function activation. -/
  found : Nat → Bool
  /-- `STORAGE_BUF`. -/
  buffer : Bytes

/-- A storage operation of an exported call, in the order in which the emitted code runs. -/
inductive StorageOp
  | storageSet (activation : Nat) (key value : Bytes)
  | storageGet (key : Bytes)
  | storageHas (key : Bytes)
  /-- The replay emitted ahead of a removal's or a tagged store's operands. -/
  | replays
  | storageRemove (key : Bytes)
  | store (key word : Bytes)
  | load (key : Bytes)

/-- What an operation tells the program. -/
inductive Reading
  | done
  | value (v : Option Bytes)
  | present (found : Bool)
  /-- The word `near/load` finds in `STORAGE_BUF`; `none` is the number 0. -/
  | word (w : Option Bytes)
  deriving DecidableEq

/-- `read_register` overwrites the front of the buffer. -/
def overlay (value buffer : Bytes) : Bytes := value ++ buffer.drop value.length

namespace Memo

/-- The slot a scan for `key` stops at, with its index. -/
def findSlot (m : Memo) (key : Bytes) : Option (Slot × Nat) :=
  m.slots.zipIdx.find? fun entry => entry.1.key = key

def setFound (m : Memo) (activation : Nat) (flag : Bool) : Memo :=
  { m with found := Function.update m.found activation flag }

/-- `emit_wt_upsert`: a long key leaves the flag as it is. -/
def upsert (m : Memo) (activation : Nat) (key value : Bytes) : Memo :=
  if cacheKeyCap < key.length then m
  else if cacheSlots ≤ m.slots.length then m.setFound activation false
  else match m.findSlot key with
    | some (_, i) =>
        { m with
          slots := m.slots.set i { key, value := some value }
          dirty := Function.update m.dirty i true
          found := Function.update m.found activation true }
    | none =>
        { m with
          slots := m.slots ++ [{ key, value := some value }]
          dirty := Function.update m.dirty m.slots.length true
          found := Function.update m.found activation true }

/-- The host is written at once where the table did not take the write. -/
def storageSet (m : Memo) (activation : Nat) (key value : Bytes) : Memo :=
  let m := m.upsert activation key value
  if m.found activation then m else { m with host := m.host.put key (some value) }

/-- `emit_storage_cache_insert`. -/
def cacheInsert (m : Memo) (key : Bytes) (value : Option Bytes) : Memo :=
  if key.length ≤ cacheKeyCap ∧ m.slots.length < cacheSlots then
    { m with slots := m.slots ++ [{ key, value }] }
  else m

def storageGet (m : Memo) (key : Bytes) : Option Bytes × Memo :=
  match m.findSlot key with
  | some (slot, _) => (slot.value, m)
  | none => (m.host key, m.cacheInsert key (m.host key))

/-- Writes the dirty slots to the host; the payload of `nil` is the empty string. -/
def replay (dirty : Nat → Bool) : List (Slot × Nat) → Host → Host
  | [], host => host
  | (slot, i) :: rest, host =>
      replay dirty rest
        (if dirty i then host.put slot.key (some (slot.value.getD [])) else host)

/-- `h_wt_flush`. -/
def flush (m : Memo) : Memo :=
  { m with
    host := replay m.dirty m.slots.zipIdx m.host
    dirty := fun i => m.dirty i && decide (m.slots.length ≤ i) }

/-- `emit_storage_cache_flush`: the count goes to 0. -/
def reset (m : Memo) : Memo := { m with slots := [] }

def storageRemove (m : Memo) (key : Bytes) : Memo :=
  let m := m.flush
  { m with host := m.host.put key none }.reset

def store (m : Memo) (key word : Bytes) : Memo :=
  { m with host := m.host.put key (some word), buffer := word }.reset

def load (m : Memo) (key : Bytes) : Option Bytes × Memo :=
  match m.host key with
  | none => (none, m)
  | some v =>
      let buffer := overlay v m.buffer
      (some (buffer.take 8), { m with buffer })

def step : StorageOp → Memo → Reading × Memo
  | .storageSet activation key value, m => (.done, m.storageSet activation key value)
  | .storageGet key, m =>
      let (v, m) := m.storageGet key
      (.value v, m)
  | .storageHas key, m => (.present (m.host key).isSome, m)
  | .replays, m => (.done, m.flush)
  | .storageRemove key, m => (.done, m.storageRemove key)
  | .store key word, m => (.done, m.store key word)
  | .load key, m =>
      let (w, m) := m.load key
      (.word w, m)

/-- Fresh linear memory over the host's storage. -/
def start (host : Host) (buffer : Bytes) : Memo where
  host
  slots := []
  dirty := fun _ => false
  found := fun _ => false
  buffer

end Memo

/-- Every operation sent to the host at once. -/
structure Direct where
  host : Host
  buffer : Bytes

namespace Direct

def load (d : Direct) (key : Bytes) : Option Bytes × Direct :=
  match d.host key with
  | none => (none, d)
  | some v =>
      let buffer := overlay v d.buffer
      (some (buffer.take 8), { d with buffer })

def step : StorageOp → Direct → Reading × Direct
  | .storageSet _ key value, d => (.done, { d with host := d.host.put key (some value) })
  | .storageGet key, d => (.value (d.host key), d)
  | .storageHas key, d => (.present (d.host key).isSome, d)
  | .replays, d => (.done, d)
  | .storageRemove key, d => (.done, { d with host := d.host.put key none })
  | .store key word, d => (.done, { d with host := d.host.put key (some word), buffer := word })
  | .load key, d =>
      let (w, d) := d.load key
      (.word w, d)

end Direct

/-! ### What the program should see -/

namespace Memo

variable {m : Memo} {key : Bytes}

/-- The table's value for a key it holds, and else the host's. -/
def view (m : Memo) (key : Bytes) : Option Bytes :=
  match m.findSlot key with
  | some (slot, _) => slot.value
  | none => m.host key

theorem findSlot_some {slot : Slot} {i : Nat} (found : m.findSlot key = some (slot, i)) :
    m.slots[i]? = some slot ∧ slot.key = key := by
  have member := List.mem_of_find?_eq_some found
  have same := List.find?_some found
  exact ⟨List.mem_zipIdx_iff_getElem?.mp member, of_decide_eq_true same⟩

theorem findSlot_none : m.findSlot key = none ↔ ∀ slot ∈ m.slots, slot.key ≠ key := by
  unfold findSlot
  rw [List.find?_eq_none]
  constructor
  · intro absent slot member same
    obtain ⟨i, at_i⟩ := List.getElem?_of_mem member
    exact absent (slot, i) (List.mem_zipIdx_iff_getElem?.mpr at_i) (by simpa using same)
  · intro absent entry member same
    have inside := List.mem_of_getElem? (List.mem_zipIdx_iff_getElem?.mp member)
    exact absent entry.1 inside (by simpa using same)

theorem view_of_absent (absent : ∀ slot ∈ m.slots, slot.key ≠ key) : m.view key = m.host key := by
  rw [view, findSlot_none.mpr absent]

/-- Keys are held once. -/
def Distinct (m : Memo) : Prop := (m.slots.map Slot.key).Nodup

theorem Distinct.index {slot other : Slot} {i j : Nat} (distinct : m.Distinct)
    (at_i : m.slots[i]? = some slot) (at_j : m.slots[j]? = some other)
    (same : slot.key = other.key) : i = j := by
  have key_i : (m.slots.map Slot.key)[i]? = some slot.key := by simp [at_i]
  have key_j : (m.slots.map Slot.key)[j]? = some slot.key := by simp [at_j, same]
  have inside : i < (m.slots.map Slot.key).length := (List.getElem?_eq_some_iff.mp key_i).1
  exact (List.getElem?_inj inside distinct).mp (key_i.trans key_j.symm)

theorem Distinct.findSlot {slot : Slot} {i : Nat} (distinct : m.Distinct)
    (at_i : m.slots[i]? = some slot) : m.findSlot slot.key = some (slot, i) := by
  cases found : m.findSlot slot.key with
  | none =>
      have absent := findSlot_none.mp found slot (List.mem_of_getElem? at_i)
      exact absurd rfl absent
  | some entry =>
      obtain ⟨at_j, same⟩ := findSlot_some found
      have equal := distinct.index at_i at_j same.symm
      subst equal
      rw [at_i] at at_j
      cases at_j
      rfl

theorem Distinct.view {slot : Slot} (distinct : m.Distinct) (member : slot ∈ m.slots) :
    m.view slot.key = slot.value := by
  obtain ⟨i, at_i⟩ := List.getElem?_of_mem member
  rw [Memo.view, distinct.findSlot at_i]

/-- The view of a key depends on the slots for it and the host's entry only. -/
theorem view_congr {m' : Memo} (distinct : m.Distinct) (distinct' : m'.Distinct)
    (slots : ∀ slot : Slot, slot.key = key → (slot ∈ m.slots ↔ slot ∈ m'.slots))
    (host : m'.host key = m.host key) : m'.view key = m.view key := by
  by_cases held : ∃ slot ∈ m.slots, slot.key = key
  · obtain ⟨slot, member, same⟩ := held
    have member' := (slots slot same).mp member
    rw [← same, distinct.view member, distinct'.view member']
  · have absent : ∀ slot ∈ m.slots, slot.key ≠ key := fun slot member same =>
      held ⟨slot, member, same⟩
    have absent' : ∀ slot ∈ m'.slots, slot.key ≠ key := fun slot member same =>
      absent slot ((slots slot same).mpr member) same
    rw [view_of_absent absent, view_of_absent absent', host]

end Memo

/-! ### The table and the host together -/

/-- The table over its host shows the program the storage it would see directly. -/
structure Coherent (m : Memo) (d : Direct) : Prop where
  host : ∀ key, d.host key = m.view key
  buffer : d.buffer = m.buffer
  distinct : m.Distinct
  short : ∀ slot ∈ m.slots, slot.key.length ≤ cacheKeyCap
  below : ∀ i, m.dirty i = true → i < m.slots.length
  clean : ∀ (i : Nat) (slot : Slot), m.slots[i]? = some slot → m.dirty i = false →
    slot.value = m.host slot.key
  written : ∀ (i : Nat) (slot : Slot), m.slots[i]? = some slot → m.dirty i = true →
    slot.value.isSome = true

/-- No slot holds a write that the host has not seen. -/
def Memo.Settled (m : Memo) : Prop := ∀ i < m.slots.length, m.dirty i = false

instance (m : Memo) : Decidable m.Settled := inferInstanceAs (Decidable (∀ i < _, _))

/-- A step whose shortcut is safe. -/
def Safe : StorageOp → Memo → Prop
  | .storageSet activation key _, m =>
      if cacheKeyCap < key.length then m.found activation = false
      else m.slots.length < cacheSlots ∨ (m.findSlot key).isNone = true
  | .storageHas key, m => (m.host key).isSome = (m.view key).isSome
  | .store _ _, m => m.Settled
  | .load key, m => m.host key = m.view key
  | _, _ => True

instance (op : StorageOp) (m : Memo) : Decidable (Safe op m) := by
  cases op <;> unfold Safe <;> infer_instance

namespace Coherent

variable {m : Memo} {d : Direct}

theorem start (host : Host) (buffer : Bytes) :
    Coherent (Memo.start host buffer) { host, buffer } := by
  constructor
  · intro key
    rfl
  · rfl
  · exact List.nodup_nil
  · intro slot member
    cases member
  · intro i dirty
    cases dirty
  · intro i slot at_i
    cases at_i
  · intro i slot at_i
    cases at_i

/-- The table is empty: the host is what the program sees. -/
theorem of_empty (empty : m.slots = []) (clean : ∀ i, m.dirty i = false)
    (host : d.host = m.host) (buffer : d.buffer = m.buffer) : Coherent m d := by
  have absent : ∀ key, ∀ slot ∈ m.slots, slot.key ≠ key := by simp [empty]
  constructor
  · intro key
    rw [Memo.view_of_absent (absent key), host]
  · exact buffer
  · simp [Memo.Distinct, empty]
  · simp [empty]
  · intro i dirty
    rw [clean i] at dirty
    cases dirty
  · intro i slot at_i
    simp [empty] at at_i
  · intro i slot at_i
    simp [empty] at at_i

end Coherent

theorem Memo.replay_apart {dirty : Nat → Bool} {entries : List (Slot × Nat)} {key : Bytes}
    (absent : ∀ entry ∈ entries, entry.1.key ≠ key) (host : Host) :
    replay dirty entries host key = host key := by
  induction entries generalizing host with
  | nil => rfl
  | cons entry rest ih =>
      have later := ih fun e member => absent e (List.mem_cons_of_mem _ member)
      have here := absent entry List.mem_cons_self
      rw [replay, later]
      split
      · exact Function.update_of_ne (Ne.symm here) _ _
      · rfl

/-- The replay writes each dirty slot's value under its key. -/
theorem Memo.replay_at {dirty : Nat → Bool} {entries : List (Slot × Nat)} {slot : Slot} {i : Nat}
    (distinct : (entries.map fun entry => entry.1.key).Nodup) (member : (slot, i) ∈ entries)
    (host : Host) :
    replay dirty entries host slot.key =
      if dirty i then some (slot.value.getD []) else host slot.key := by
  induction entries generalizing host with
  | nil => cases member
  | cons entry rest ih =>
      simp only [List.map_cons, List.nodup_cons, List.mem_map, not_exists, not_and] at distinct
      obtain ⟨fresh, distinct⟩ := distinct
      rcases List.mem_cons.mp member with rfl | later
      · have absent : ∀ e ∈ rest, e.1.key ≠ slot.key := fun e inside => fresh e inside
        rw [replay, replay_apart absent]
        split
        · exact Function.update_self _ _ _
        · rfl
      · have other : slot.key ≠ entry.1.key := fun same => fresh (slot, i) later same
        rw [replay, ih distinct later]
        split
        · rfl
        · split
          · exact Function.update_of_ne other _ _
          · rfl

theorem Coherent.flush_host {m : Memo} {d : Direct} (coherent : Coherent m d) :
    m.flush.host = d.host := by
  funext key
  rw [coherent.host key]
  have keys : (m.slots.zipIdx.map fun entry => entry.1.key) = m.slots.map Slot.key := by
    change m.slots.zipIdx.map (Slot.key ∘ Prod.fst) = _
    rw [← List.map_map]
    simp
  by_cases held : ∃ slot ∈ m.slots, slot.key = key
  · obtain ⟨slot, member, rfl⟩ := held
    obtain ⟨i, at_i⟩ := List.getElem?_of_mem member
    have distinct : (m.slots.zipIdx.map fun entry => entry.1.key).Nodup := by
      rw [keys]
      exact coherent.distinct
    have replayed : m.flush.host slot.key =
        if m.dirty i then some (slot.value.getD []) else m.host slot.key :=
      Memo.replay_at distinct (List.mem_zipIdx_iff_getElem?.mpr at_i) m.host
    rw [coherent.distinct.view member, replayed]
    cases dirty : m.dirty i with
    | true =>
        obtain ⟨v, same⟩ := Option.isSome_iff_exists.mp (coherent.written i slot at_i dirty)
        simp [same]
    | false => simp [coherent.clean i slot at_i dirty]
  · have absent : ∀ slot ∈ m.slots, slot.key ≠ key := fun slot member same =>
      held ⟨slot, member, same⟩
    rw [Memo.view_of_absent absent]
    apply Memo.replay_apart
    intro entry member
    exact absent entry.1 (List.mem_of_getElem? (List.mem_zipIdx_iff_getElem?.mp member))

/-! ### What each operation keeps -/

namespace Coherent

variable {m : Memo} {d : Direct}

theorem flush_dirty (coherent : Coherent m d) (i : Nat) : m.flush.dirty i = false := by
  cases dirty : m.dirty i with
  | false => simp [Memo.flush, dirty]
  | true =>
      have below := coherent.below i dirty
      simp [Memo.flush, below]

theorem flush (coherent : Coherent m d) : Coherent m.flush d := by
  have host := coherent.flush_host
  constructor
  · intro key
    have kept : m.flush.view key = m.view key := by
      by_cases held : ∃ slot ∈ m.slots, slot.key = key
      · obtain ⟨slot, member, rfl⟩ := held
        have distinct : m.flush.Distinct := coherent.distinct
        rw [distinct.view member, coherent.distinct.view member]
      · have absent : ∀ slot ∈ m.slots, slot.key ≠ key := fun slot member same =>
          held ⟨slot, member, same⟩
        rw [Memo.view_of_absent (m := m.flush) absent, host, coherent.host]
    rw [kept, coherent.host]
  · exact coherent.buffer
  · exact coherent.distinct
  · exact coherent.short
  · intro i dirty
    rw [coherent.flush_dirty i] at dirty
    cases dirty
  · intro i slot at_i _
    have shown := coherent.distinct.view (List.mem_of_getElem? at_i)
    rw [host, coherent.host, shown]
  · intro i slot at_i dirty
    rw [coherent.flush_dirty i] at dirty
    cases dirty

/-- Once the table has nothing pending, the host alone is what the program sees. -/
theorem settled_host (coherent : Coherent m d) (settled : m.Settled) : m.host = d.host := by
  funext key
  rw [coherent.host key]
  by_cases held : ∃ slot ∈ m.slots, slot.key = key
  · obtain ⟨slot, member, rfl⟩ := held
    obtain ⟨i, at_i⟩ := List.getElem?_of_mem member
    have inside := (List.getElem?_eq_some_iff.mp at_i).1
    rw [coherent.distinct.view member, coherent.clean i slot at_i (settled i inside)]
  · rw [Memo.view_of_absent fun slot member same => held ⟨slot, member, same⟩]

theorem settled_dirty (coherent : Coherent m d) (settled : m.Settled) (i : Nat) :
    m.dirty i = false := by
  cases dirty : m.dirty i with
  | false => rfl
  | true =>
      have clean := settled i (coherent.below i dirty)
      rw [dirty] at clean
      cases clean

theorem storageRemove (coherent : Coherent m d) (key : Bytes) :
    Coherent (m.storageRemove key) { d with host := d.host.put key none } := by
  apply of_empty
  · rfl
  · exact coherent.flush_dirty
  · change d.host.put key none = m.flush.host.put key none
    rw [coherent.flush_host]
  · exact coherent.buffer

theorem store (coherent : Coherent m d) (settled : m.Settled) (key word : Bytes) :
    Coherent (m.store key word) { d with host := d.host.put key (some word), buffer := word } := by
  apply of_empty
  · rfl
  · exact coherent.settled_dirty settled
  · change d.host.put key (some word) = m.host.put key (some word)
    rw [coherent.settled_host settled]
  · rfl

/-- The host is written at once, and the table has no slot for the key. -/
theorem hostWrite (coherent : Coherent m d) {key : Bytes} (absent : m.findSlot key = none)
    (value : Bytes) :
    Coherent { m with host := m.host.put key (some value) }
      { d with host := d.host.put key (some value) } := by
  have apart := Memo.findSlot_none.mp absent
  constructor
  · intro other
    by_cases same : other = key
    · subst same
      have shown : Memo.view { m with host := m.host.put other (some value) } other =
          m.host.put other (some value) other := Memo.view_of_absent apart
      rw [shown]
      simp [Host.put]
    · have kept : Memo.view { m with host := m.host.put key (some value) } other = m.view other :=
        Memo.view_congr coherent.distinct coherent.distinct (fun _ _ => Iff.rfl)
          (Function.update_of_ne same _ _)
      rw [kept, ← coherent.host other]
      exact Function.update_of_ne same _ _
  · exact coherent.buffer
  · exact coherent.distinct
  · exact coherent.short
  · exact coherent.below
  · intro i slot at_i clean
    have other := apart slot (List.mem_of_getElem? at_i)
    have kept : (m.host.put key (some value)) slot.key = m.host slot.key :=
      Function.update_of_ne other _ _
    exact (coherent.clean i slot at_i clean).trans kept.symm
  · exact coherent.written

/-- A slot is appended for a key that has none. -/
theorem append (coherent : Coherent m d) {key : Bytes} (short : key.length ≤ cacheKeyCap)
    (absent : m.findSlot key = none) {value : Option Bytes} {pending : Bool}
    (clean : pending = false → value = m.host key)
    (written : pending = true → value.isSome = true) {dirty : Nat → Bool}
    (last : dirty m.slots.length = pending)
    (others : ∀ i, i ≠ m.slots.length → dirty i = m.dirty i) (found : Nat → Bool) :
    Coherent { m with slots := m.slots ++ [{ key, value }], dirty, found }
      { d with host := Function.update d.host key value } := by
  have apart := Memo.findSlot_none.mp absent
  have distinct : Memo.Distinct { m with slots := m.slots ++ [{ key, value }], dirty, found } := by
    have old := coherent.distinct
    unfold Memo.Distinct at old ⊢
    simp only [List.map_append, List.map_cons, List.map_nil]
    rw [List.nodup_append]
    refine ⟨old, List.nodup_singleton _, ?_⟩
    intro k inside k' only same
    obtain ⟨slot, member, rfl⟩ := List.mem_map.mp inside
    rw [List.mem_singleton] at only
    exact apart slot member (same.trans only)
  have slot_at : ∀ {i : Nat} {slot : Slot}, (m.slots ++ [⟨key, value⟩])[i]? = some slot →
      (m.slots[i]? = some slot ∧ i ≠ m.slots.length) ∨
        (i = m.slots.length ∧ slot = ⟨key, value⟩) := by
    intro i slot at_i
    rcases Nat.lt_or_ge i m.slots.length with low | high
    · rw [List.getElem?_append_left low] at at_i
      exact .inl ⟨at_i, by omega⟩
    · rw [List.getElem?_append_right high] at at_i
      have inside := (List.getElem?_eq_some_iff.mp at_i).1
      simp only [List.length_singleton] at inside
      have equal : i = m.slots.length := by omega
      subst equal
      simp only [Nat.sub_self, List.getElem?_cons_zero, Option.some.injEq] at at_i
      exact .inr ⟨rfl, at_i.symm⟩
  constructor
  · intro other
    by_cases same : other = key
    · subst same
      have member : (⟨other, value⟩ : Slot) ∈ m.slots ++ [⟨other, value⟩] := by simp
      exact (Function.update_self _ _ _).trans (distinct.view member).symm
    · have slots : ∀ slot : Slot, slot.key = other →
          (slot ∈ m.slots ↔ slot ∈ m.slots ++ [⟨key, value⟩]) := by
        intro slot at_other
        have different : slot ≠ ⟨key, value⟩ := by
          rintro rfl
          exact same at_other.symm
        simp [different]
      rw [Memo.view_congr coherent.distinct distinct slots rfl, ← coherent.host other]
      exact Function.update_of_ne same _ _
  · exact coherent.buffer
  · exact distinct
  · intro slot member
    rcases List.mem_append.mp member with old | new
    · exact coherent.short slot old
    · rw [List.mem_singleton] at new
      subst new
      exact short
  · intro i is_dirty
    rw [List.length_append, List.length_singleton]
    by_cases end_ : i = m.slots.length
    · omega
    · have below := coherent.below i ((others i end_).symm.trans is_dirty)
      omega
  · intro i slot at_i is_clean
    rcases slot_at at_i with ⟨old, not_last⟩ | ⟨rfl, rfl⟩
    · exact coherent.clean i slot old ((others i not_last).symm.trans is_clean)
    · exact clean (last.symm.trans is_clean)
  · intro i slot at_i is_dirty
    rcases slot_at at_i with ⟨old, not_last⟩ | ⟨rfl, rfl⟩
    · exact coherent.written i slot old ((others i not_last).symm.trans is_dirty)
    · exact written (last.symm.trans is_dirty)

/-- The slot of a key takes a new value, pending. -/
theorem overwrite (coherent : Coherent m d) {key : Bytes} {slot : Slot} {i : Nat}
    (held : m.findSlot key = some (slot, i)) (value : Bytes) (found : Nat → Bool) :
    Coherent
      { m with
        slots := m.slots.set i ⟨key, some value⟩
        dirty := Function.update m.dirty i true
        found }
      { d with host := d.host.put key (some value) } := by
  obtain ⟨at_i, same⟩ := Memo.findSlot_some held
  have inside := (List.getElem?_eq_some_iff.mp at_i).1
  have keys : (m.slots.set i ⟨key, some value⟩).map Slot.key = m.slots.map Slot.key := by
    rw [List.map_set]
    apply List.ext_getElem?
    intro j
    rw [List.getElem?_set]
    by_cases here : i = j
    · subst here
      rw [if_pos rfl, List.length_map, if_pos inside, List.getElem?_map, at_i, ← same]
      rfl
    · rw [if_neg here]
  have distinct : Memo.Distinct
      { m with
        slots := m.slots.set i ⟨key, some value⟩
        dirty := Function.update m.dirty i true
        found } := by
    unfold Memo.Distinct
    rw [keys]
    exact coherent.distinct
  have slot_at : ∀ {j : Nat} {other : Slot},
      (m.slots.set i ⟨key, some value⟩)[j]? = some other →
        (j = i ∧ other = ⟨key, some value⟩) ∨ (j ≠ i ∧ m.slots[j]? = some other) := by
    intro j other at_j
    rw [List.getElem?_set] at at_j
    by_cases here : i = j
    · rw [if_pos here, if_pos inside] at at_j
      cases at_j
      exact .inl ⟨here.symm, rfl⟩
    · rw [if_neg here] at at_j
      exact .inr ⟨fun equal => here equal.symm, at_j⟩
  constructor
  · intro other
    by_cases here : other = key
    · subst here
      have member : (⟨other, some value⟩ : Slot) ∈ m.slots.set i ⟨other, some value⟩ :=
        List.mem_set inside _
      exact (Function.update_self _ _ _).trans (distinct.view member).symm
    · have slots : ∀ found : Slot, found.key = other →
          (found ∈ m.slots ↔ found ∈ m.slots.set i ⟨key, some value⟩) := by
        intro found at_other
        constructor
        · intro member
          obtain ⟨j, at_j⟩ := List.getElem?_of_mem member
          have apart : i ≠ j := by
            rintro rfl
            rw [at_i] at at_j
            cases at_j
            exact here (at_other.symm.trans same)
          exact List.mem_of_getElem? ((List.getElem?_set_ne apart).trans at_j)
        · intro member
          obtain ⟨j, at_j⟩ := List.getElem?_of_mem member
          rcases slot_at at_j with ⟨-, rfl⟩ | ⟨-, old⟩
          · exact absurd at_other.symm here
          · exact List.mem_of_getElem? old
      rw [Memo.view_congr coherent.distinct distinct slots rfl, ← coherent.host other]
      exact Function.update_of_ne here _ _
  · exact coherent.buffer
  · exact distinct
  · intro other member
    rcases List.mem_or_eq_of_mem_set member with old | rfl
    · exact coherent.short other old
    · exact same ▸ coherent.short slot (List.mem_of_getElem? at_i)
  · intro j is_dirty
    rw [List.length_set]
    by_cases here : j = i
    · exact here ▸ inside
    · exact coherent.below j ((Function.update_of_ne here _ _).symm.trans is_dirty)
  · intro j other at_j is_clean
    rcases slot_at at_j with ⟨rfl, rfl⟩ | ⟨here, old⟩
    · exact absurd ((Function.update_self _ _ _).symm.trans is_clean) (by decide)
    · exact coherent.clean j other old ((Function.update_of_ne here _ _).symm.trans is_clean)
  · intro j other at_j is_dirty
    rcases slot_at at_j with ⟨rfl, rfl⟩ | ⟨here, old⟩
    · rfl
    · exact coherent.written j other old ((Function.update_of_ne here _ _).symm.trans is_dirty)

theorem findSlot_long (coherent : Coherent m d) {key : Bytes} (long : cacheKeyCap < key.length) :
    m.findSlot key = none := by
  apply Memo.findSlot_none.mpr
  rintro slot member rfl
  have short := coherent.short slot member
  omega

theorem setFound (coherent : Coherent m d) (activation : Nat) (flag : Bool) :
    Coherent (m.setFound activation flag) d :=
  ⟨coherent.host, coherent.buffer, coherent.distinct, coherent.short, coherent.below,
    coherent.clean, coherent.written⟩

theorem storageSet (coherent : Coherent m d) {activation : Nat} {key value : Bytes}
    (safe : Safe (.storageSet activation key value) m) :
    Coherent (m.storageSet activation key value)
      { d with host := d.host.put key (some value) } := by
  dsimp only [Safe] at safe
  by_cases long : cacheKeyCap < key.length
  · rw [if_pos long] at safe
    have missed : m.storageSet activation key value =
        { m with host := m.host.put key (some value) } := by
      rw [Memo.storageSet, Memo.upsert, if_pos long, if_neg (by simp [safe])]
    rw [missed]
    exact coherent.hostWrite (coherent.findSlot_long long) value
  rw [if_neg long] at safe
  by_cases full : cacheSlots ≤ m.slots.length
  · have absent : m.findSlot key = none := by
      rcases safe with room | absent
      · omega
      · exact Option.isNone_iff_eq_none.mp absent
    have missed : m.storageSet activation key value =
        { m.setFound activation false with host := m.host.put key (some value) } := by
      rw [Memo.storageSet, Memo.upsert, if_neg long, if_pos full, if_neg (by simp [Memo.setFound])]
      rfl
    rw [missed]
    exact (coherent.setFound activation false).hostWrite absent value
  have taken : m.storageSet activation key value = m.upsert activation key value := by
    apply if_pos
    rw [Memo.upsert, if_neg long, if_neg full]
    split <;> exact Function.update_self _ _ _
  rw [taken, Memo.upsert, if_neg long, if_neg full]
  cases held : m.findSlot key with
  | some entry => exact coherent.overwrite held value _
  | none =>
      have last : Function.update m.dirty m.slots.length true m.slots.length = true :=
        Function.update_self _ _ _
      have others : ∀ i, i ≠ m.slots.length →
          Function.update m.dirty m.slots.length true i = m.dirty i :=
        fun i other => Function.update_of_ne other _ _
      have room : key.length ≤ cacheKeyCap := by omega
      apply coherent.append room held _ _ last others
      · intro clean
        cases clean
      · intro _
        rfl

theorem cacheInsert (coherent : Coherent m d) {key : Bytes} (absent : m.findSlot key = none) :
    Coherent (m.cacheInsert key (m.host key)) d := by
  unfold Memo.cacheInsert
  by_cases room : key.length ≤ cacheKeyCap ∧ m.slots.length < cacheSlots
  · have fresh : m.dirty m.slots.length = false := by
      cases dirty : m.dirty m.slots.length with
      | false => rfl
      | true => exact absurd (coherent.below _ dirty) (by omega)
    have shown : d.host key = m.host key := by
      rw [coherent.host key, Memo.view, absent]
    have appended : Coherent
        { m with slots := m.slots ++ [⟨key, m.host key⟩] }
        { d with host := Function.update d.host key (m.host key) } := by
      apply coherent.append room.1 absent _ _ fresh (fun _ _ => rfl)
      · exact fun _ => rfl
      · intro dirty
        cases dirty
    rw [← shown, Function.update_eq_self] at appended
    rw [if_pos room, ← shown]
    exact appended
  · rw [if_neg room]
    exact coherent

theorem storageGet (coherent : Coherent m d) (key : Bytes) :
    (m.storageGet key).1 = d.host key ∧ Coherent (m.storageGet key).2 d := by
  rw [coherent.host key]
  unfold Memo.storageGet Memo.view
  cases held : m.findSlot key with
  | some entry => exact ⟨rfl, coherent⟩
  | none => exact ⟨rfl, coherent.cacheInsert held⟩

theorem load (coherent : Coherent m d) {key : Bytes} (shown : d.host key = m.host key) :
    (m.load key).1 = (d.load key).1 ∧ Coherent (m.load key).2 (d.load key).2 := by
  unfold Memo.load Direct.load
  rw [shown, coherent.buffer]
  cases m.host key with
  | none => exact ⟨rfl, coherent⟩
  | some v =>
      exact ⟨rfl, coherent.host, rfl, coherent.distinct, coherent.short, coherent.below,
        coherent.clean, coherent.written⟩

/-- One operation, where its shortcut is safe. -/
theorem step (coherent : Coherent m d) {op : StorageOp} (safe : Safe op m) :
    (Memo.step op m).1 = (Direct.step op d).1 ∧
      Coherent (Memo.step op m).2 (Direct.step op d).2 := by
  cases op with
  | storageSet activation key value => exact ⟨rfl, coherent.storageSet safe⟩
  | storageGet key =>
      obtain ⟨value, after⟩ := coherent.storageGet key
      exact ⟨congrArg Reading.value value, after⟩
  | storageHas key =>
      have present : (m.host key).isSome = (d.host key).isSome := by
        rw [coherent.host key]
        exact safe
      exact ⟨congrArg Reading.present present, coherent⟩
  | replays => exact ⟨rfl, coherent.flush⟩
  | storageRemove key => exact ⟨rfl, coherent.storageRemove key⟩
  | store key word => exact ⟨rfl, coherent.store safe key word⟩
  | load key =>
      have shown : d.host key = m.host key := by
        rw [coherent.host key]
        exact safe.symm
      have loaded := coherent.load shown
      exact ⟨congrArg Reading.word loaded.1, loaded.2⟩

end Coherent

/-! ### Whole calls -/

/-- What an exported call reads, and the storage its boundary flush leaves. -/
def coalesced (ops : List StorageOp) (host : Host) (buffer : Bytes) : List Reading × Host :=
  let (readings, m) := runAll Memo.step ops (Memo.start host buffer)
  (readings, m.flush.host)

/-- The same with every operation sent to the host at once. -/
def immediate (ops : List StorageOp) (host : Host) (buffer : Bytes) : List Reading × Host :=
  let (readings, d) := runAll Direct.step ops { host, buffer }
  (readings, d.host)

def emptyHost : Host := fun _ => none

/-- A cell is written twice, read and removed, and another one is written. -/
def settledCall : List StorageOp :=
  [.storageSet 0 [1] [10], .storageSet 0 [1] [11], .storageGet [1], .replays, .storageRemove [1],
    .storageSet 0 [2] [12], .storageHas [1]]

/-- A long key is lost where an earlier write of the activation went into the table. -/
example :
    (coalesced [.storageSet 0 [1] [10], .storageSet 0 (List.replicate 65 7) [11]] emptyHost []).2
      (List.replicate 65 7) = none := by decide

end LispRlm.WasmEmit
