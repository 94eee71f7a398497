import LispRlm.Foundation.TwoRuns
import LispRlm.NearMock.Frame

/-! One promise execution on two threads.

The threads agree on everything but what earlier transactions left behind in the first one: markers
of the engine in the store, marks of joins, owners of yields, and cached trie keys. What this
transaction has written itself is no leftover any more. -/

namespace LispRlm.NearMock

open Foundation Eff

/-! ### The contracts' part of the store -/

def markerPrefixes : List Bytes :=
  [yieldJoinPrefix, 0x00 :: ascii "yield:", 0x00 :: ascii "ydhash:", 0x00 :: ascii "yowner:"]

/-- The entries the engine keeps for yields and joins. An account's entry has a separator. -/
def isMarker (k : Bytes) : Bool :=
  decide (0x01 ∉ k) && markerPrefixes.any fun start => start.isPrefixOf k

theorem isMarker_of_separator {k : Bytes} (h : 0x01 ∈ k) : isMarker k = false := by
  simp [isMarker, h]

theorem isMarker_prefixedKey (acct : AccountId) (key : Bytes) :
    isMarker (prefixedKey acct key) = false :=
  isMarker_of_separator (by simp [prefixedKey])

theorem isMarker_balKey (acct : AccountId) : isMarker (balKey acct) = false :=
  isMarker_prefixedKey acct nearBal

theorem isMarker_accessKey (pk : Bytes) : isMarker (0x02 :: pk) = false := by
  simp [isMarker, markerPrefixes, yieldJoinPrefix, List.isPrefixOf]

theorem isMarker_of_inAccount {acct : AccountId} {k : Bytes}
    (h : (prefixedKey acct []).isPrefixOf k = true) : isMarker k = false := by
  obtain ⟨rest, rfl⟩ := List.isPrefixOf_iff_prefix.mp h
  exact isMarker_of_separator (by simp [prefixedKey])

theorem isMarker_of_inPartition {acct : AccountId} {k : Bytes} (h : inPartition acct k = true) :
    isMarker k = false := by
  simp only [inPartition, Bool.and_eq_true] at h
  exact isMarker_of_inAccount h.1

/-- The stores hold the same but for keys `left`. -/
def SameOutside (left : Bytes → Prop) (a i : Storage) : Prop :=
  ∀ k, ¬left k → a.lookup k = i.lookup k

/-- Only markers are excepted. -/
def OnlyMarkers (left : Bytes → Prop) : Prop := ∀ k, left k → isMarker k = true

namespace SameOutside

variable {left : Bytes → Prop} {a i : Storage}

theorem refl (left : Bytes → Prop) (a : Storage) : SameOutside left a a := fun _ _ => rfl

theorem mono {left' : Bytes → Prop} (h : SameOutside left a i) (sub : ∀ k, left k → left' k) :
    SameOutside left' a i :=
  fun k hk => h k fun l => hk (sub k l)

theorem put (h : SameOutside left a i) (key : Bytes) (value : Option Bytes) :
    SameOutside (fun k => left k ∧ k ≠ key) (a.put key value) (i.put key value) := by
  intro k hk
  rw [FMap.lookup_put, FMap.lookup_put]
  split
  · rfl
  · next other => exact h k fun l => hk ⟨l, other⟩

theorem put' (h : SameOutside left a i) (key : Bytes) (value : Option Bytes) :
    SameOutside left (a.put key value) (i.put key value) :=
  (h.put key value).mono fun _ hk => hk.1

theorem putAll (h : SameOutside left a i) (entries : Touched) :
    SameOutside left (FMap.putAll entries a) (FMap.putAll entries i) := by
  intro k hk
  rw [FMap.lookup_putAll, FMap.lookup_putAll, h k hk]

theorem setBalance (h : SameOutside left a i) (key : Bytes) (amount : Nat) :
    SameOutside left (NearMock.setBalance a key amount) (NearMock.setBalance i key amount) :=
  h.put' key (some (decimal amount))

theorem withoutPartition (h : SameOutside left a i) (acct : AccountId) :
    SameOutside left (NearMock.withoutPartition a acct) (NearMock.withoutPartition i acct) := by
  intro k hk
  simp only [NearMock.withoutPartition, FMap.lookup_filterKeys, h k hk]

/-- Two copies of a partition hold the same. -/
def SameSnap {acct : AccountId} (snap snap' : PartitionSnap acct) : Prop :=
  ∀ k, snap.entries.lookup k = snap'.entries.lookup k

theorem restorePartition (h : SameOutside left a i) {acct : AccountId}
    {snap snap' : PartitionSnap acct} (hs : SameSnap snap snap') :
    SameOutside left (NearMock.restorePartition a snap) (NearMock.restorePartition i snap') := by
  intro k hk
  simp only [NearMock.restorePartition, FMap.lookup_union, hs k, h.withoutPartition acct k hk]

section Contracts

variable (marks : OnlyMarkers left)

include marks

theorem lookup (h : SameOutside left a i) {key : Bytes} (hk : isMarker key = false) :
    a.lookup key = i.lookup key :=
  h key fun l => by simp [marks key l] at hk

theorem balanceAt (h : SameOutside left a i) {key : Bytes} (hk : isMarker key = false) :
    NearMock.balanceAt a key = NearMock.balanceAt i key := by
  simp only [NearMock.balanceAt, h.lookup marks hk]

theorem credit (h : SameOutside left a i) {key : Bytes} (hk : isMarker key = false)
    (amount : Nat) :
    SameOutside left (ValueStep.credit a key amount) (ValueStep.credit i key amount) := by
  rw [ValueStep.credit, h.balanceAt marks hk]
  exact h.setBalance key _

theorem debit (h : SameOutside left a i) {key : Bytes} (hk : isMarker key = false)
    (amount : Nat) :
    SameOutside left (ValueStep.debit a key amount) (ValueStep.debit i key amount) := by
  rw [ValueStep.debit, h.balanceAt marks hk]
  exact h.setBalance key _

theorem snapshotPartition (h : SameOutside left a i) (acct : AccountId) :
    SameSnap (NearMock.snapshotPartition a acct) (NearMock.snapshotPartition i acct) := by
  intro k
  simp only [NearMock.snapshotPartition, FMap.lookup_filterKeys]
  split
  · next inside => exact h.lookup marks (isMarker_of_inPartition inside)
  · rfl

/-- A sum over contract entries is the same in both stores. -/
theorem weight (h : SameOutside left a i) {w : Bytes → Bytes → Nat}
    (hw : ∀ k v, isMarker k = true → w k v = 0) : a.weight w = i.weight w := by
  have contracts : ∀ st : Storage, st.weight w = (st.filterKeys fun k => !isMarker k).weight w := by
    intro st
    rw [FMap.weight_filterKeys_eq]
    congr 1
    funext k v
    by_cases hk : isMarker k = true
    · simp [hk, hw k v hk]
    · simp [hk]
  rw [contracts a, contracts i]
  apply FMap.weight_congr
  intro k
  rw [FMap.lookup_filterKeys, FMap.lookup_filterKeys]
  by_cases hk : isMarker k = true
  · simp [hk]
  · simp [hk, h.lookup marks (by simpa using hk)]

theorem failedCall (h : SameOutside left a i) {acct : AccountId} {snap snap' : PartitionSnap acct}
    (hs : SameSnap snap snap') (sender : AccountId) (amount : Amount) :
    SameOutside left ((ValueStep.failedCall acct snap sender amount).apply a)
      ((ValueStep.failedCall acct snap' sender amount).apply i) := by
  have restored := h.restorePartition hs
  simp only [ValueStep.apply]
  split
  · exact restored.credit marks (isMarker_prefixedKey _ _) _
  · exact restored

theorem apply (h : SameOutside left a i) (step : ValueStep) :
    SameOutside left (step.apply a) (step.apply i) := by
  have key := fun acct => isMarker_prefixedKey acct nearBal
  cases step with
  | deposit account sender amount =>
      exact (h.credit marks (key _) _).debit marks (key _) _
  | failedCall account snap sender amount =>
      exact h.failedCall marks (fun _ => rfl) sender amount
  | transfer creator account amount =>
      exact (h.debit marks (key _) _).credit marks (key _) _
  | stake account amount =>
      exact (h.debit marks (key _) _).credit marks (isMarker_prefixedKey _ nearLocked) _
  | revert touched => exact h.putAll touched
  | deleteAccount account beneficiary =>
      have ben := h.balanceAt marks (key beneficiary)
      have bal := h.balanceAt marks (key account)
      simp only [ValueStep.apply, balKey, ben, bal]
      exact (h.setBalance _ _).withoutPartition account
  | put key value => exact h.put' key value
  | storageStaking account bytesDelta =>
      have bal := h.balanceAt marks (key account)
      simp only [ValueStep.apply, balKey, bal]
      split
      · exact h
      · exact h.setBalance _ _

end Contracts

end SameOutside

/-! ### Leftovers -/

/-- The event rewrites the cell. -/
def Event.Writes : Event → Cell → Prop
  | .moved (.put key _) _, .entry k => k = key
  | .wrote cell, c => c = cell
  | _, _ => False

/-- The event may bring back what the cell held when the transaction started. -/
def Event.Undoes : Event → Cell → Prop
  | .rolledBack _, .entry _ => True
  | _, _ => False

/-- The cell holds something when the transaction starts. -/
def Holds (start : Thread) : Cell → Prop
  | .entry key => isMarker key = true ∧ (start.storage.lookup key).isSome
  | .mark idx => idx ∈ start.yieldJoins
  | .owner idx => (start.yieldOwner.lookup idx).isSome
  | .node key => key ∈ start.touched

/-- After this journal the cell may still hold what an earlier transaction has left in it. -/
def Stale (start : Thread) (journal : List Event) (c : Cell) : Prop :=
  journal.foldl (fun stale e => (stale ∨ e.Undoes c ∧ Holds start c) ∧ ¬e.Writes c) (Holds start c)

/-- What the cell holds decides how the transaction goes on. -/
def Event.Reads (start : Thread) : Event → Cell → Prop
  | .read cell, c => c = cell
  | .readYieldsOf owners, .owner idx => ∃ d ∈ owners, start.yieldOwner.lookup idx = some d
  | .listedJoins (some _), .mark _ => True
  | .listedJoins (some owner), .owner idx => start.yieldOwner.lookup idx = some owner
  | .listedJoins _, .entry key => (joinIndex key).isSome
  | _, _ => False

/-- The transaction reads a leftover. -/
def Leaks (start : Thread) (journal : List Event) : Prop :=
  ∃ before e after c, journal = before ++ e :: after ∧ e.Reads start c ∧ Stale start before c

variable {start : Thread} {journal : List Event} {c : Cell}

@[simp] theorem stale_nil : Stale start [] c ↔ Holds start c := Iff.rfl

@[simp] theorem stale_snoc {e : Event} :
    Stale start (journal ++ [e]) c ↔
      (Stale start journal c ∨ e.Undoes c ∧ Holds start c) ∧ ¬e.Writes c := by
  simp [Stale, List.foldl_append]

theorem Stale.holds (h : Stale start journal c) : Holds start c := by
  induction journal using List.reverseRecOn with
  | nil => exact h
  | append_singleton rest e ih =>
      rcases (stale_snoc.mp h).1 with earlier | undone
      · exact ih earlier
      · exact undone.2

theorem onlyMarkers_stale (start : Thread) (journal : List Event) :
    OnlyMarkers fun k => Stale start journal (.entry k) :=
  fun _ stale => stale.holds.1

theorem Leaks.extend {new : List Event} (h : Leaks start journal) :
    Leaks start (journal ++ new) := by
  obtain ⟨before, e, after, c, split, reads, stale⟩ := h
  refine ⟨before, e, after ++ new, c, ?_, reads, stale⟩
  rw [split, List.append_assoc, List.cons_append]

theorem leaks_snoc {e : Event} (reads : e.Reads start c) (stale : Stale start journal c) :
    Leaks start (journal ++ [e]) :=
  ⟨journal, e, [], c, rfl, reads, stale⟩

/-! ### Agreeing threads -/

/-- The part of a thread that a transaction starts afresh, or that only it looks at. -/
def Thread.own (t : Thread) : Thread :=
  { t with
    storage := ∅, touched := [], yieldJoins := [], yieldOwner := ∅, receiptQueue := [],
    journal := [] }

/-- What holds between `a`, a thread whose transaction started in `start`, and `i`, a thread without
a past. -/
structure Agree (start a i : Thread) : Prop where
  storage : SameOutside (fun k => Stale start a.journal (.entry k)) a.storage i.storage
  joins : ∀ idx, ¬Stale start a.journal (.mark idx) → (idx ∈ a.yieldJoins ↔ idx ∈ i.yieldJoins)
  owners : ∀ idx, a.yieldOwner.lookup idx = i.yieldOwner.lookup idx ∨
    Stale start a.journal (.owner idx) ∧
      a.yieldOwner.lookup idx = start.yieldOwner.lookup idx ∧ i.yieldOwner.lookup idx = none
  nodes : ∀ key, ¬Stale start a.journal (.node key) → (key ∈ a.touched ↔ key ∈ i.touched)
  own : a.own = i.own

/-- What is kept to the end of a transaction. -/
structure Grows (t t' : Thread) : Prop where
  journal : t.journal <+: t'.journal
  idle : t.currentBatch = none → t'.currentBatch = none
  settled : t.deferReceipts = false → t'.deferReceipts = false

namespace Grows

theorem refl (t : Thread) : Grows t t := ⟨List.prefix_rfl, id, id⟩

theorem trans {a b c : Thread} (first : Grows a b) (second : Grows b c) : Grows a c :=
  ⟨first.journal.trans second.journal, second.idle ∘ first.idle, second.settled ∘ first.settled⟩

end Grows

theorem Agree.refl (start a : Thread) : Agree start a a where
  storage := .refl _ _
  joins := fun _ _ => Iff.rfl
  owners := fun _ => .inl rfl
  nodes := fun _ _ => Iff.rfl
  own := rfl

/-- A transaction that started in `start` is observed through `Agree`, until it reads a leftover. -/
def observer (start : Thread) : Observer Thread where
  related := Agree start
  related_refl := Agree.refl start
  bad := fun a => Leaks start a.journal
  grows := Grows
  grows_refl := Grows.refl
  grows_trans := fun _ _ _ => .trans
  bad_grows := by
    intro s s' grows leaks
    obtain ⟨new, extended⟩ := grows.journal
    exact extended ▸ leaks.extend

end LispRlm.NearMock
