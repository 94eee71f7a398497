import LispRlm.NearMock.State

/-! The ways the engine moves value in the shared store.

Every write the engine makes while receipts run is one of these steps. `Conserving` says, on the
state a step starts from, when it neither makes nor destroys value. -/

namespace LispRlm.NearMock

open Foundation

abbrev Amount := Fin u128

theorem u128_pos : 0 < u128 := Nat.two_pow_pos 128

/-- Yocto locked for each byte of storage. -/
def stakingCostPerByte : Nat := 100000000000000000000

/-- What a batch remembers to put back: a key and what it held. -/
abbrev Touched := List (Bytes × Option Bytes)

inductive ValueStep
  /-- A call's deposit: credit the callee, then debit the sender. -/
  | deposit (account sender : AccountId) (amount : Amount)
  /-- A trapped call: restore the callee's partition, then refund the sender. -/
  | failedCall (account : AccountId) (snap : PartitionSnap account) (sender : AccountId)
      (deposit : Amount)
  | transfer (creator account : AccountId) (amount : Amount)
  | stake (account : AccountId) (amount : Amount)
  /-- An action that cannot go through: put back what the batch touched. -/
  | revert (touched : Touched)
  | deleteAccount (account beneficiary : AccountId)
  /-- A write to the store that is no transfer: a guest's entry, a marker, an access key. -/
  | put (key : Bytes) (value : Option Bytes)
  | storageStaking (account : AccountId) (bytesDelta : Int)

namespace ValueStep

def credit (st : Storage) (key : Bytes) (amount : Nat) : Storage :=
  setBalance st key (addU128 (balanceAt st key) amount)

def debit (st : Storage) (key : Bytes) (amount : Nat) : Storage :=
  setBalance st key (balanceAt st key - amount)

/-- The liquid balance after `bytesDelta` bytes were added to the account's partition. -/
def stakedBalance (bytesDelta : Int) (balance : Nat) : Nat :=
  let lockedDelta := min (bytesDelta.natAbs * stakingCostPerByte) (u128 - 1)
  if 0 < bytesDelta then balance - lockedDelta else addU128 balance lockedDelta

def apply : ValueStep → Storage → Storage
  | .deposit account sender amount, st =>
      debit (credit st (balKey account) amount) (balKey sender) amount
  | .failedCall _ snap sender amount, st =>
      let restored := restorePartition st snap
      if 0 < amount.val then credit restored (balKey sender) amount else restored
  | .transfer creator account amount, st =>
      credit (debit st (balKey creator) amount) (balKey account) amount
  | .stake account amount, st =>
      credit (debit st (balKey account) amount) (lockedKey account) amount
  | .revert touched, st => FMap.putAll touched st
  | .deleteAccount account beneficiary, st =>
      withoutPartition
        (setBalance st (balKey beneficiary)
          (addU128 (balanceAt st (balKey beneficiary)) (balanceAt st (balKey account))))
        account
  | .put key value, st => st.put key value
  | .storageStaking account bytesDelta, st =>
      if bytesDelta = 0 then st
      else setBalance st (balKey account) (stakedBalance bytesDelta (balanceAt st (balKey account)))

/-- Nobody is debited below zero or by less than is credited, and a failed receipt gives its sender
back what its receiver no longer has. -/
def Exact : ValueStep → Storage → Prop
  | .deposit account sender amount, st =>
      amount.val ≤ balanceAt (credit st (balKey account) amount) (balKey sender)
  | .failedCall account snap sender amount, st =>
      balanceAt (restorePartition st snap) (balKey sender) + amount.val =
          balanceAt (apply (.failedCall account snap sender amount) st) (balKey sender) ∧
        totalValue snap.entries + amount.val = partitionValue account st
  | .transfer creator _ amount, st => amount.val ≤ balanceAt st (balKey creator)
  | .stake account amount, st => amount.val ≤ balanceAt st (balKey account)
  | _, _ => True

/-- The condition on the state before a step under which it is exact and keeps the total. -/
def Conserving : ValueStep → Storage → Prop
  | .deposit account sender amount, st =>
      balanceAt st (balKey account) + amount.val < u128 ∧
        (sender = account ∨ amount.val ≤ balanceAt st (balKey sender))
  | .failedCall account snap sender amount, st =>
      balanceAt (restorePartition st snap) (balKey sender) + amount.val < u128 ∧
        totalValue snap.entries + amount.val = partitionValue account st
  | .transfer creator account amount, st =>
      amount.val ≤ balanceAt st (balKey creator) ∧
        (creator = account ∨ balanceAt st (balKey account) + amount.val < u128)
  | .stake account amount, st =>
      amount.val ≤ balanceAt st (balKey account) ∧
        balanceAt st (lockedKey account) + amount.val < u128
  | .revert touched, st =>
      (FMap.lastPut touched).weight (FMap.weightOf balanceWeight) =
        (FMap.lastPut touched).weight (fun k _ => FMap.weightOf balanceWeight k (st.lookup k))
  | .deleteAccount account beneficiary, st =>
      if inPartition account (balKey beneficiary) then partitionValue account st = 0
      else partitionValue account st = balanceAt st (balKey account) ∧
        balanceAt st (balKey beneficiary) + balanceAt st (balKey account) < u128
  | .put key value, st =>
      FMap.weightOf balanceWeight key value = FMap.weightOf balanceWeight key (st.lookup key)
  | .storageStaking account bytesDelta, st =>
      bytesDelta = 0 ∨
        stakedBalance bytesDelta (balanceAt st (balKey account)) = balanceAt st (balKey account)

end ValueStep

theorem balKey_injective {a b : AccountId} : balKey a = balKey b ↔ a = b := by
  simp [balKey, prefixedKey]

theorem balKey_ne_lockedKey (a b : AccountId) : balKey a ≠ lockedKey b := by
  intro equal
  have ends := congrArg List.getLast? equal
  simp [balKey, lockedKey, prefixedKey, nearBal, nearLocked, ascii] at ends

theorem addU128_lt (a b : Nat) : addU128 a b < u128 := Nat.mod_lt _ (by decide)

theorem addU128_of_fits {a b : Nat} (h : a + b < u128) : addU128 a b = a + b := Nat.mod_eq_of_lt h

/-- A sum that does not fit loses the whole modulus, once. -/
theorem addU128_of_wraps {a b : Nat} (ha : a < u128) (hb : b < u128) (h : u128 ≤ a + b) :
    addU128 a b + u128 = a + b := by
  have less : a + b - u128 < u128 := by omega
  have wrapped : addU128 a b = a + b - u128 := by
    rw [addU128, Nat.mod_eq_sub_mod h, Nat.mod_eq_of_lt less]
  omega

namespace ValueStep

variable (st : Storage)

theorem totalValue_credit {k : Bytes} (hk : isBalanceKey k = true) (amount : Nat) :
    totalValue (credit st k amount) + balanceAt st k =
      totalValue st + addU128 (balanceAt st k) amount :=
  totalValue_setBalance st hk (addU128_lt _ _)

theorem totalValue_debit {k : Bytes} (hk : isBalanceKey k = true) (amount : Nat) :
    totalValue (debit st k amount) + balanceAt st k = totalValue st + (balanceAt st k - amount) :=
  totalValue_setBalance st hk (by have := balanceAt_lt st k; omega)

theorem balanceAt_credit (k : Bytes) (amount : Nat) :
    balanceAt (credit st k amount) k = addU128 (balanceAt st k) amount :=
  balanceAt_setBalance st k (addU128_lt _ _)

theorem balanceAt_debit (k : Bytes) (amount : Nat) :
    balanceAt (debit st k amount) k = balanceAt st k - amount :=
  balanceAt_setBalance st k (by have := balanceAt_lt st k; omega)

theorem balanceAt_credit_ne {k k' : Bytes} (h : k' ≠ k) (amount : Nat) :
    balanceAt (credit st k amount) k' = balanceAt st k' :=
  balanceAt_setBalance_ne st h _

theorem balanceAt_debit_ne {k k' : Bytes} (h : k' ≠ k) (amount : Nat) :
    balanceAt (debit st k amount) k' = balanceAt st k' :=
  balanceAt_setBalance_ne st h _

/-- A deposit is exact when the sum fits and the payer has the money. -/
theorem deposit_exact_iff (account sender : AccountId) (amount : Amount) :
    (totalValue (apply (deposit account sender amount) st) = totalValue st ∧
        Exact (deposit account sender amount) st) ↔
      Conserving (deposit account sender amount) st := by
  have fits := amount.isLt
  have small := balanceAt_lt st (balKey account)
  have credited := totalValue_credit st (isBalanceKey_balKey account) amount.val
  have debited := totalValue_debit (credit st (balKey account) amount.val)
    (isBalanceKey_balKey sender) amount.val
  delta apply Exact Conserving
  dsimp only
  by_cases same : sender = account
  · subst same
    rw [balanceAt_credit] at debited ⊢
    by_cases h : balanceAt st (balKey sender) + amount.val < u128
    · rw [addU128_of_fits h] at credited debited ⊢
      simp only [h, true_or, and_self, iff_true]
      omega
    · have wraps := addU128_of_wraps small fits (by omega)
      simp only [h, false_and, iff_false]
      omega
  · have apart : balKey sender ≠ balKey account := fun h => same (balKey_injective.mp h)
    rw [balanceAt_credit_ne st apart] at debited ⊢
    by_cases h : balanceAt st (balKey account) + amount.val < u128
    · rw [addU128_of_fits h] at credited
      simp only [h, same, false_or, true_and]
      omega
    · have wraps := addU128_of_wraps small fits (by omega)
      simp only [h, false_and, iff_false]
      omega

theorem transfer_exact_iff (creator account : AccountId) (amount : Amount) :
    (totalValue (apply (transfer creator account amount) st) = totalValue st ∧
        Exact (transfer creator account amount) st) ↔
      Conserving (transfer creator account amount) st := by
  have fits := amount.isLt
  have small := balanceAt_lt st (balKey account)
  have debited := totalValue_debit st (isBalanceKey_balKey creator) amount.val
  have credited := totalValue_credit (debit st (balKey creator) amount.val)
    (isBalanceKey_balKey account) amount.val
  delta apply Exact Conserving
  dsimp only
  by_cases same : creator = account
  · subst same
    rw [balanceAt_debit] at credited
    have here : balanceAt st (balKey creator) - amount.val + amount.val < u128 := by omega
    rw [addU128_of_fits here] at credited
    simp only [true_or, and_true]
    omega
  · have apart : balKey account ≠ balKey creator := fun h => same (balKey_injective.mp h).symm
    rw [balanceAt_debit_ne st apart] at credited
    by_cases h : balanceAt st (balKey account) + amount.val < u128
    · rw [addU128_of_fits h] at credited
      simp only [h, or_true, and_true]
      omega
    · have wraps := addU128_of_wraps small fits (by omega)
      simp only [h, same, or_self, and_false, iff_false]
      omega

theorem stake_exact_iff (account : AccountId) (amount : Amount) :
    (totalValue (apply (stake account amount) st) = totalValue st ∧
        Exact (stake account amount) st) ↔
      Conserving (stake account amount) st := by
  have fits := amount.isLt
  have small := balanceAt_lt st (lockedKey account)
  have debited := totalValue_debit st (isBalanceKey_balKey account) amount.val
  have credited := totalValue_credit (debit st (balKey account) amount.val)
    (isBalanceKey_lockedKey account) amount.val
  have apart : lockedKey account ≠ balKey account := (balKey_ne_lockedKey _ _).symm
  rw [balanceAt_debit_ne st apart] at credited
  delta apply Exact Conserving
  dsimp only
  by_cases h : balanceAt st (lockedKey account) + amount.val < u128
  · rw [addU128_of_fits h] at credited
    simp only [h, and_true]
    omega
  · have wraps := addU128_of_wraps small fits (by omega)
    simp only [h, and_false, iff_false]
    omega

/-- The copy was taken with the deposit in it, so restoring it and refunding the sender is exact
only where the callee came to hold that much again. -/
theorem failedCall_exact_iff (account : AccountId) (snap : PartitionSnap account)
    (sender : AccountId) (amount : Amount) :
    (totalValue (apply (failedCall account snap sender amount) st) = totalValue st ∧
        Exact (failedCall account snap sender amount) st) ↔
      Conserving (failedCall account snap sender amount) st := by
  have fits := amount.isLt
  have small := balanceAt_lt (restorePartition st snap) (balKey sender)
  have restored := totalValue_restorePartition st snap
  have refunded := totalValue_credit (restorePartition st snap) (isBalanceKey_balKey sender)
    amount.val
  have received := balanceAt_credit (restorePartition st snap) (balKey sender) amount.val
  delta apply Exact Conserving
  dsimp only
  split
  · rw [received]
    by_cases h : balanceAt (restorePartition st snap) (balKey sender) + amount.val < u128
    · rw [addU128_of_fits h] at refunded ⊢
      simp only [h, true_and]
      omega
    · have wraps := addU128_of_wraps small fits (by omega)
      simp only [h, false_and, iff_false]
      omega
  · omega

theorem put_conserves_iff (key : Bytes) (value : Option Bytes) :
    totalValue (apply (put key value) st) = totalValue st ↔ Conserving (put key value) st := by
  have moved := FMap.weight_put balanceWeight st key value
  delta apply Conserving totalValue
  dsimp only
  omega

theorem storageStaking_conserves_iff (account : AccountId) (bytesDelta : Int) :
    totalValue (apply (storageStaking account bytesDelta) st) = totalValue st ↔
      Conserving (storageStaking account bytesDelta) st := by
  delta apply Conserving
  dsimp only
  split
  · next none => simp [none]
  · next moved =>
      have fits : stakedBalance bytesDelta (balanceAt st (balKey account)) < u128 := by
        have := balanceAt_lt st (balKey account)
        unfold stakedBalance
        dsimp only
        split
        · omega
        · exact addU128_lt _ _
      have total := totalValue_setBalance st (isBalanceKey_balKey account) fits
      simp only [moved, false_or]
      omega

theorem revert_conserves_iff (touched : Touched) :
    totalValue (apply (revert touched) st) = totalValue st ↔ Conserving (revert touched) st := by
  have swapped := FMap.weight_putAll balanceWeight touched st
  delta apply Conserving totalValue
  dsimp only
  omega

theorem partitionValue_setBalance (account : AccountId) {k : Bytes} (hk : isBalanceKey k = true)
    {n : Nat} (hn : n < u128) :
    if inPartition account k then
      partitionValue account (setBalance st k n) + balanceAt st k = partitionValue account st + n
    else partitionValue account (setBalance st k n) = partitionValue account st := by
  have moved := FMap.weight_insert
    (fun k v => if inPartition account k then balanceWeight k v else 0) st k (decimal n)
  have held := weightOf_balanceKey hk st
  simp only [partitionValue, FMap.weight_filterKeys_eq, setBalance]
  split
  · next inside =>
      have written : balanceWeight k (decimal n) = n := by
        simp [balanceWeight, hk, parseU128_decimal hn]
      simp only [inside, if_true, written] at moved
      rw [← moved]
      congr 1
      rw [← held]
      cases st.lookup k <;> simp [inside]
  · next outside =>
      simp only [outside] at moved
      cases h : st.lookup k <;> simpa [h, outside] using moved

theorem balanceAt_le_partitionValue (account : AccountId) :
    balanceAt st (balKey account) ≤ partitionValue account st := by
  have inside : inPartition account (balKey account) = true := by
    simp [inPartition, balKey, prefixedKey, nearBal]
  have zeroed := partitionValue_setBalance st account (isBalanceKey_balKey account)
    (show 0 < u128 by decide)
  simp only [inside, if_true] at zeroed
  omega

/-- Wiping a partition destroys what it holds; the beneficiary gets the liquid part. -/
theorem deleteAccount_conserves_iff (account beneficiary : AccountId) :
    totalValue (apply (deleteAccount account beneficiary) st) = totalValue st ↔
      Conserving (deleteAccount account beneficiary) st := by
  have fits := addU128_lt (balanceAt st (balKey beneficiary)) (balanceAt st (balKey account))
  have credited := totalValue_setBalance st (isBalanceKey_balKey beneficiary) fits
  have inside := partitionValue_setBalance st account (isBalanceKey_balKey beneficiary) fits
  have wiped := partitionValue_add_without account
    (setBalance st (balKey beneficiary)
      (addU128 (balanceAt st (balKey beneficiary)) (balanceAt st (balKey account))))
  have liquid := balanceAt_le_partitionValue st account
  have small := balanceAt_lt st (balKey beneficiary)
  have small' := balanceAt_lt st (balKey account)
  delta apply Conserving
  dsimp only
  split at inside
  · next within =>
      rw [if_pos within]
      omega
  · next outside =>
    rw [if_neg outside]
    by_cases h : balanceAt st (balKey beneficiary) + balanceAt st (balKey account) < u128
    · rw [addU128_of_fits h] at credited inside wiped ⊢
      simp only [h, and_true]
      omega
    · have wraps := addU128_of_wraps small small' (by omega)
      simp only [h, and_false, iff_false]
      omega

/-- A step is exact and keeps the total just when it meets its condition. -/
theorem exact_iff (step : ValueStep) (st : Storage) :
    (totalValue (step.apply st) = totalValue st ∧ step.Exact st) ↔ step.Conserving st := by
  cases step with
  | deposit account sender amount => exact deposit_exact_iff st account sender amount
  | failedCall account snap sender amount =>
      exact failedCall_exact_iff st account snap sender amount
  | transfer creator account amount => exact transfer_exact_iff st creator account amount
  | stake account amount => exact stake_exact_iff st account amount
  | revert touched => simpa [Exact] using revert_conserves_iff st touched
  | deleteAccount account beneficiary =>
      simpa [Exact] using deleteAccount_conserves_iff st account beneficiary
  | put key value => simpa [Exact] using put_conserves_iff st key value
  | storageStaking account bytesDelta =>
      simpa [Exact] using storageStaking_conserves_iff st account bytesDelta

end ValueStep

end LispRlm.NearMock
