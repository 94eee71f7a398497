import LispRlm.Foundation.WeightedMap
import Mathlib.Data.Nat.Digits.Defs
import Mathlib.Data.Nat.Digits.Lemmas

/-! The shared store of the mock chain: prefixed keys, account partitions, and the decimal
balances it holds. -/

namespace LispRlm.NearMock

open Foundation

abbrev Bytes := List UInt8

abbrev AccountId := Bytes

abbrev Storage := FMap Bytes Bytes

def ascii (s : String) : Bytes := s.toList.map (fun c => c.toNat.toUInt8)

/-- The key of an account's entry: account, separator `0x01`, key. -/
def prefixedKey (acct : AccountId) (key : Bytes) : Bytes := acct ++ 0x01 :: key

def nearBal : Bytes := 0x00 :: ascii "near-bal"

def nearLocked : Bytes := 0x00 :: ascii "near-locked"

def balKey (acct : AccountId) : Bytes := prefixedKey acct nearBal

def lockedKey (acct : AccountId) : Bytes := prefixedKey acct nearLocked

/-! ### Amounts -/

def u128 : Nat := 2 ^ 128

/-- Unsigned addition as the release build does it. -/
def addU128 (a b : Nat) : Nat := (a + b) % u128

def digitByte (d : Nat) : UInt8 := (48 + d).toUInt8

def byteDigit (b : UInt8) : Option Nat :=
  if 48 ≤ b.toNat ∧ b.toNat ≤ 57 then some (b.toNat - 48) else none

/-- `to_string` of an unsigned integer. -/
def decimal : Nat → Bytes
  | 0 => [digitByte 0]
  | n + 1 => ((Nat.digits 10 (n + 1)).reverse).map digitByte

def parseDigits (digits : Bytes) : Option Nat :=
  if digits = [] then none
  else (digits.mapM byteDigit).map (fun ds => Nat.ofDigits 10 ds.reverse)

def dropPlus : Bytes → Bytes
  | 0x2B :: rest => rest
  | text => text

/-- `parse` of an unsigned type: an optional `+`, at least one digit, no overflow. -/
def parseUnsigned (bound : Nat) (text : Bytes) : Option Nat :=
  (parseDigits (dropPlus text)).filter (fun n => n < bound)

def parseU128 (text : Bytes) : Option Nat := parseUnsigned u128 text

theorem byteDigit_digitByte {d : Nat} (h : d < 10) : byteDigit (digitByte d) = some d := by
  have value : (digitByte d).toNat = 48 + d := by
    simp [digitByte, Nat.toUInt8]
    omega
  simp only [byteDigit, value]
  rw [if_pos (by omega)]
  simp

theorem mapM_digitByte {ds : List Nat} (h : ∀ d ∈ ds, d < 10) :
    (ds.map digitByte).mapM byteDigit = some ds := by
  induction ds with
  | nil => rfl
  | cons d rest ih =>
      have head := byteDigit_digitByte (h d (by simp))
      have tail := ih (fun x hx => h x (by simp [hx]))
      simp [List.mapM_cons, head, tail]

theorem parseDigits_decimal (n : Nat) : parseDigits (decimal n) = some n := by
  match n with
  | 0 => decide
  | n + 1 =>
      have small : ∀ d ∈ (Nat.digits 10 (n + 1)).reverse, d < 10 := by
        intro d hd
        exact Nat.digits_lt_base (by omega) (List.mem_reverse.mp hd)
      have nonempty : decimal (n + 1) ≠ [] := by
        simp [decimal]
      rw [parseDigits, if_neg nonempty]
      simp only [decimal, mapM_digitByte small, Option.map_some, List.reverse_reverse]
      rw [Nat.ofDigits_digits]

theorem dropPlus_decimal (n : Nat) : dropPlus (decimal n) = decimal n := by
  unfold dropPlus
  split
  · next rest equal =>
      have parsed := parseDigits_decimal n
      have plus : byteDigit 0x2B = none := by decide
      simp [equal, parseDigits, List.mapM_cons, plus] at parsed
  · rfl

theorem parseU128_lt {text : Bytes} {n : Nat} (h : parseU128 text = some n) : n < u128 := by
  rw [parseU128, parseUnsigned, Option.filter_eq_some_iff] at h
  exact of_decide_eq_true h.2

/-- What is written as a balance is read back. -/
theorem parseU128_decimal {n : Nat} (h : n < u128) : parseU128 (decimal n) = some n := by
  simp [parseU128, parseUnsigned, dropPlus_decimal, parseDigits_decimal, Option.filter, h]

/-! ### Partitions -/

/-- The keys `snapshot_partition` and `restore_partition` select. -/
def inPartition (acct : AccountId) (k : Bytes) : Bool :=
  (prefixedKey acct []).isPrefixOf k && decide ((prefixedKey acct []).length < k.length)

/-- A copy of one account's entries. -/
structure PartitionSnap (acct : AccountId) where
  entries : Storage
  within : ∀ k ∈ entries, inPartition acct k = true

def snapshotPartition (st : Storage) (acct : AccountId) : PartitionSnap acct where
  entries := st.filterKeys (inPartition acct)
  within := by
    intro k member
    have some := AList.lookup_isSome.mpr member
    rw [FMap.lookup_filterKeys] at some
    by_contra outside
    simp [outside] at some

def withoutPartition (st : Storage) (acct : AccountId) : Storage :=
  st.filterKeys (fun k => !inPartition acct k)

def restorePartition (st : Storage) {acct : AccountId} (snap : PartitionSnap acct) : Storage :=
  snap.entries ∪ withoutPartition st acct

/-! ### Balances -/

/-- A stored amount, `0` where nothing readable is stored. -/
def balanceAt (st : Storage) (key : Bytes) : Nat :=
  ((st.lookup key).bind parseU128).getD 0

def setBalance (st : Storage) (key : Bytes) (amount : Nat) : Storage :=
  st.insert key (decimal amount)

/-- The keys that hold some account's liquid or staked balance. -/
def isBalanceKey (k : Bytes) : Bool :=
  (0x01 :: nearBal).isSuffixOf k || (0x01 :: nearLocked).isSuffixOf k

theorem isBalanceKey_iff (k : Bytes) :
    isBalanceKey k = true ↔ ∃ acct, k = balKey acct ∨ k = lockedKey acct := by
  simp only [isBalanceKey, Bool.or_eq_true, List.isSuffixOf_iff_suffix, balKey, lockedKey,
    prefixedKey]
  constructor
  · rintro (⟨acct, rfl⟩ | ⟨acct, rfl⟩)
    · exact ⟨acct, .inl rfl⟩
    · exact ⟨acct, .inr rfl⟩
  · rintro ⟨acct, rfl | rfl⟩
    · exact .inl ⟨acct, rfl⟩
    · exact .inr ⟨acct, rfl⟩

@[simp] theorem isBalanceKey_balKey (acct : AccountId) : isBalanceKey (balKey acct) = true :=
  (isBalanceKey_iff _).mpr ⟨acct, .inl rfl⟩

@[simp] theorem isBalanceKey_lockedKey (acct : AccountId) :
    isBalanceKey (lockedKey acct) = true :=
  (isBalanceKey_iff _).mpr ⟨acct, .inr rfl⟩

def balanceWeight (k v : Bytes) : Nat :=
  if isBalanceKey k then (parseU128 v).getD 0 else 0

/-- Liquid plus staked balance of all accounts. -/
def totalValue (st : Storage) : Nat := st.weight balanceWeight

/-- The balances kept in one account's partition. -/
def partitionValue (acct : AccountId) (st : Storage) : Nat :=
  (st.filterKeys (inPartition acct)).weight balanceWeight

theorem weightOf_balanceKey {k : Bytes} (h : isBalanceKey k = true) (st : Storage) :
    FMap.weightOf balanceWeight k (st.lookup k) = balanceAt st k := by
  unfold balanceAt
  cases st.lookup k with
  | none => rfl
  | some v => simp [balanceWeight, h]

theorem balanceAt_setBalance (st : Storage) (k : Bytes) {n : Nat} (h : n < u128) :
    balanceAt (setBalance st k n) k = n := by
  simp [balanceAt, setBalance, parseU128_decimal h]

theorem balanceAt_setBalance_ne (st : Storage) {k k' : Bytes} (h : k' ≠ k) (n : Nat) :
    balanceAt (setBalance st k n) k' = balanceAt st k' := by
  simp [balanceAt, setBalance, AList.lookup_insert_ne h]

/-- Overwriting a balance moves the total by the difference. -/
theorem totalValue_setBalance (st : Storage) {k : Bytes} (hk : isBalanceKey k = true) {n : Nat}
    (hn : n < u128) : totalValue (setBalance st k n) + balanceAt st k = totalValue st + n := by
  have moved := FMap.weight_insert balanceWeight st k (decimal n)
  rw [weightOf_balanceKey hk] at moved
  simpa [totalValue, setBalance, balanceWeight, hk, parseU128_decimal hn] using moved

theorem balanceAt_lt (st : Storage) (k : Bytes) : balanceAt st k < u128 := by
  unfold balanceAt
  cases read : (st.lookup k).bind parseU128 with
  | none => decide
  | some n =>
      obtain ⟨v, -, parsed⟩ := Option.bind_eq_some_iff.mp read
      exact parseU128_lt parsed

theorem partitionValue_add_without (acct : AccountId) (st : Storage) :
    partitionValue acct st + totalValue (withoutPartition st acct) = totalValue st :=
  FMap.weight_filterKeys balanceWeight (inPartition acct) st

/-- Restoring a partition swaps what it holds for what the copy holds. -/
theorem totalValue_restorePartition (st : Storage) {acct : AccountId}
    (snap : PartitionSnap acct) :
    totalValue (restorePartition st snap) + partitionValue acct st =
      totalValue st + totalValue snap.entries := by
  have apart : ∀ k ∈ snap.entries, k ∉ withoutPartition st acct := by
    intro k member outside
    have some := AList.lookup_isSome.mpr outside
    rw [withoutPartition, FMap.lookup_filterKeys] at some
    simp [snap.within k member] at some
  have union := FMap.weight_union balanceWeight apart
  have split := partitionValue_add_without acct st
  simp only [totalValue, restorePartition] at union split ⊢
  omega

end LispRlm.NearMock
