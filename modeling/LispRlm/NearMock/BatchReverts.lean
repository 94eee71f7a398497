import LispRlm.NearMock.Atomicity

/-! When a batch whose action fails leaves the store as it found it.

The log is replayed from its beginning, so the last value that it has for an entry is the one that
stays. -/

namespace LispRlm.NearMock

open Foundation Eff

namespace BatchReverts

/-! ### What the actions write -/

def isCall : PAction → Bool
  | .fnCall .. => true
  | _ => false

section Batch

variable (batch : PromiseBatch)

/-- The condition under which an action goes through. -/
def goesThrough (st : Storage) : PAction → Bool
  | .transfer amount | .transferToGasKey amount =>
      amount.val ≤ balanceAt st (balKey batch.creator)
  | .stake amount => amount.val ≤ balanceAt st (balKey batch.account)
  | .deleteKey pk => (st.lookup (prefixedKey batch.account (0x02 :: pk))).isSome
  | _ => true

/-- What it makes of the store then. -/
def written (st : Storage) : PAction → Storage
  | .transfer amount | .transferToGasKey amount =>
      ValueStep.apply (.transfer batch.creator batch.account amount) st
  | .stake amount => ValueStep.apply (.stake batch.account amount) st
  | .addKey pk => ValueStep.apply (.put (0x02 :: pk) (some (ascii "full"))) st
  | .deleteKey pk => ValueStep.apply (.put (prefixedKey batch.account (0x02 :: pk)) none) st
  | .deleteAccount beneficiary => ValueStep.apply (.deleteAccount batch.account beneficiary) st
  | _ => st

/-- What it logs. -/
def logged (st : Storage) : PAction → Touched
  | .transfer amount | .transferToGasKey amount =>
      [(balKey batch.creator, st.lookup (balKey batch.creator)),
        (balKey batch.account,
          (ValueStep.debit st (balKey batch.creator) amount.val).lookup (balKey batch.account))]
  | .stake _ => [(balKey batch.account, st.lookup (balKey batch.account))]
  | .addKey pk => if (st.lookup (0x02 :: pk)).isSome then [] else [(0x02 :: pk, none)]
  | .deleteKey pk => [(prefixedKey batch.account (0x02 :: pk), none)]
  | _ => []

/-- The store and the log in front of the first action that does not go through. -/
def atFailure : Storage → List PAction → Option (Storage × Touched)
  | _, [] => none
  | st, action :: rest =>
      if goesThrough batch st action then
        (atFailure (written batch st action) rest).map fun p => (p.1, logged batch st action ++ p.2)
      else some (st, [])

/-- Of what the actions wrote, the log's last word is what the store held in the beginning, and what
is not in the log is as it was. -/
def Undoable (st : Storage) : Prop :=
  ∀ left log, atFailure batch st batch.actions = some (left, log) → ∀ k,
    ((FMap.lastPut log).lookup k).getD (left.lookup k) = st.lookup k

end Batch

/-! ### Runs -/

section Runs

variable {chain : Chain} {calls : Calls} {batch : PromiseBatch}

theorem move_run (step : ValueStep) (t : Thread) :
    ∃ t', move step t = .ok () t' ∧ t'.storage = step.apply t.storage := ⟨_, rfl, rfl⟩

theorem revertBatch_run (touched : Touched) (t : Thread) :
    ∃ t', revertBatch touched t = .ok ⟨touched, [none], false⟩ t' ∧
      t'.storage = FMap.putAll touched t.storage := ⟨_, rfl, rfl⟩

theorem moved_run (step : ValueStep) (touched : Touched) (t : Thread) :
    ∃ t', (do move step; succeeded touched : Run ActionEnd) t = .ok ⟨touched, [some []], true⟩ t' ∧
      t'.storage = step.apply t.storage := ⟨_, rfl, rfl⟩

theorem runTransfer_run (batch : PromiseBatch) (touched : Touched) (amount : Amount) (t : Thread) :
    ∃ t', (if amount.val ≤ balanceAt t.storage (balKey batch.creator) then
        runTransfer batch touched amount t = .ok
          ⟨touched ++ logged batch t.storage (.transfer amount), [some []], true⟩ t' ∧
        t'.storage = written batch t.storage (.transfer amount)
      else runTransfer batch touched amount t = .ok ⟨touched, [none], false⟩ t' ∧
        t'.storage = FMap.putAll touched t.storage) := by
  rw [runTransfer, get_bind_run]
  by_cases covered : amount.val ≤ balanceAt t.storage (balKey batch.creator)
  · simp only [if_pos covered, if_neg (Nat.not_lt_of_le covered)]
    exact moved_run _ _ t
  · simp only [if_neg covered, if_pos (Nat.lt_of_not_le covered)]
    exact revertBatch_run touched t

variable (chain calls batch)

/-- An action that is no call goes through and is logged, or reverts what was logged. -/
theorem runAction_run {action : PAction} (noCall : isCall action = false) (touched : Touched)
    (t : Thread) :
    ∃ t', if goesThrough batch t.storage action then
        runAction chain calls batch touched action t =
            .ok ⟨touched ++ logged batch t.storage action, [some []], true⟩ t' ∧
          t'.storage = written batch t.storage action
      else runAction chain calls batch touched action t = .ok ⟨touched, [none], false⟩ t' ∧
        t'.storage = FMap.putAll touched t.storage := by
  cases action with
  | fnCall => cases noCall
  | transfer amount =>
    rcases runTransfer_run batch touched amount t with ⟨t', run⟩
    refine ⟨t', ?_⟩
    simp only [runAction, goesThrough, decide_eq_true_eq]
    exact run
  | transferToGasKey amount =>
    rcases runTransfer_run batch touched amount t with ⟨t', run⟩
    refine ⟨t', ?_⟩
    simp only [runAction, goesThrough, decide_eq_true_eq]
    exact run
  | stake amount =>
    simp only [runAction, runStake, get_bind_run, goesThrough, decide_eq_true_eq]
    by_cases covered : amount.val ≤ balanceAt t.storage (balKey batch.account)
    · simp only [if_pos covered, if_neg (Nat.not_lt_of_le covered)]
      exact moved_run _ _ t
    · simp only [if_neg covered, if_pos (Nat.lt_of_not_le covered)]
      exact revertBatch_run touched t
  | addKey pk =>
    simp only [runAction, runAddKey, get_bind_run, goesThrough, if_true, logged]
    split
    · rw [List.append_nil]
      exact moved_run _ _ t
    · exact moved_run _ _ t
  | deleteKey pk =>
    simp only [runAction, runDeleteKey, get_bind_run, goesThrough]
    split
    · exact moved_run _ _ t
    · exact revertBatch_run touched t
  | deleteAccount beneficiary =>
    simp only [runAction, goesThrough, if_true, logged, List.append_nil]
    exact moved_run _ _ t
  | addGasKey | deployGlobalContract | useGlobalContract =>
    simp only [runAction, goesThrough, if_true, logged, List.append_nil, written]
    exact ⟨t, rfl, rfl⟩

/-- The actions end without a failure, or the log is replayed over the store at the failure. -/
theorem runActions_run {actions : List PAction} (noCalls : ∀ a ∈ actions, isCall a = false)
    (touched : Touched) (t : Thread) :
    ∃ out t', runActions chain calls batch touched actions t = .ok out t' ∧
      match atFailure batch t.storage actions with
      | some (left, log) => none ∈ out ∧ t'.storage = FMap.putAll (touched ++ log) left
      | none => none ∉ out ∧ t'.storage = actions.foldl (written batch) t.storage := by
  induction actions generalizing touched t with
  | nil => exact ⟨[], t, rfl, List.not_mem_nil, rfl⟩
  | cons action rest ih =>
    rcases runAction_run chain calls batch (noCalls action List.mem_cons_self) touched t
      with ⟨t₁, run⟩
    rw [runActions, bind_run]
    simp only [atFailure]
    by_cases through : goesThrough batch t.storage action = true
    · rw [if_pos through] at run
      rcases ih (fun a mem => noCalls a (List.mem_cons_of_mem _ mem))
        (touched ++ logged batch t.storage action) t₁ with ⟨out, t', later, ended⟩
      refine ⟨[some []] ++ out, t', ?_, ?_⟩
      · simp only [run.1, if_true, bind_run, later, pure_run]
      · rw [run.2] at ended
        rw [if_pos through]
        cases failure : atFailure batch (written batch t.storage action) rest with
        | none => simpa [failure] using ended
        | some p => simpa [failure, List.append_assoc] using ended
    · rw [if_neg through] at run ⊢
      refine ⟨[none], t₁, ?_, List.mem_cons_self, ?_⟩
      · simp only [run.1, Bool.false_eq_true, if_false, pure_run]
      · rw [List.append_nil]
        exact run.2

/-- A batch without function calls. -/
abbrev PlainBatch : Type := { batch : PromiseBatch // ∀ a ∈ batch.actions, isCall a = false }

/-- A batch whose action fails leaves no trace, and a later batch of the account can delete the keys
that it added. -/
structure Reverts (batch : PlainBatch) (t : Thread) : Prop where
  restored : ∀ out t', runActions chain calls batch.val [] batch.val.actions t = .ok out t' →
    none ∈ out → SameStore t'.storage t.storage
  deletable : ∀ out t', runActions chain calls batch.val [] batch.val.actions t = .ok out t' →
    none ∉ out → ∀ pk, .addKey pk ∈ batch.val.actions → ∀ later : PromiseBatch,
      later.account = batch.val.account →
        ∃ t'', runActions chain calls later [] [.deleteKey pk] t' = .ok [some []] t''

/-- After a batch whose actions go through, the keys that it added stand under the account's
prefix, where `AddKey` does not put them. -/
def Prefixed (batch : PromiseBatch) (st : Storage) : Prop :=
  atFailure batch st batch.actions = none → ∀ pk, .addKey pk ∈ batch.actions →
    ((batch.actions.foldl (written batch) st).lookup
      (prefixedKey batch.account (0x02 :: pk))).isSome

variable {chain calls}

theorem restored_iff (batch : PlainBatch) (t : Thread) :
    (∀ out t', runActions chain calls batch.val [] batch.val.actions t = .ok out t' →
        none ∈ out → SameStore t'.storage t.storage) ↔ Undoable batch.val t.storage := by
  rcases runActions_run chain calls batch.val batch.property [] t with
    ⟨out, t', run, ended⟩
  simp only [Undoable]
  cases failure : atFailure batch.val t.storage batch.val.actions with
  | none =>
    simp only [failure] at ended
    constructor
    · rintro - left log ⟨⟩
    · intro _ out' t₁ run' failed
      cases run.symm.trans run'
      exact absurd failed ended.1
  | some p =>
    rcases p with ⟨left, log⟩
    simp only [failure, List.nil_append] at ended
    constructor
    · rintro restored left' log' ⟨⟩ k
      have same := restored out t' run ended.1 k
      rw [ended.2, FMap.lookup_putAll] at same
      exact same
    · intro undoable out' t₁ run' _ k
      cases run.symm.trans run'
      rw [ended.2, FMap.lookup_putAll]
      exact undoable left log rfl k

theorem deleteKey_run (later : PromiseBatch) (pk : Bytes) (t : Thread) :
    (∃ t', runActions chain calls later [] [.deleteKey pk] t = .ok [some []] t') ↔
      (t.storage.lookup (prefixedKey later.account (0x02 :: pk))).isSome := by
  rcases runAction_run chain calls later (rfl : isCall (.deleteKey pk) = false) [] t with
    ⟨t₁, run⟩
  by_cases through : goesThrough later t.storage (.deleteKey pk) = true
  · rw [if_pos through] at run
    refine iff_of_true ⟨t₁, ?_⟩ through
    simp only [runActions, bind_run, run.1, if_true, pure_run, List.append_nil]
  · rw [if_neg through] at run
    refine iff_of_false ?_ through
    rintro ⟨t', run'⟩
    simp only [runActions, bind_run, run.1, Bool.false_eq_true, if_false, pure_run] at run'
    cases run'

theorem deletable_iff (batch : PlainBatch) (t : Thread) :
    (∀ out t', runActions chain calls batch.val [] batch.val.actions t = .ok out t' →
        none ∉ out → ∀ pk, .addKey pk ∈ batch.val.actions → ∀ later : PromiseBatch,
          later.account = batch.val.account →
            ∃ t'', runActions chain calls later [] [.deleteKey pk] t' = .ok [some []] t'') ↔
      Prefixed batch.val t.storage := by
  rcases runActions_run chain calls batch.val batch.property [] t with
    ⟨out, t', run, ended⟩
  simp only [Prefixed]
  cases failure : atFailure batch.val t.storage batch.val.actions with
  | some p =>
    simp only [failure] at ended
    constructor
    · rintro - ⟨⟩
    · intro _ out' t₁ run' through
      cases run.symm.trans run'
      exact absurd ended.1 through
  | none =>
    simp only [failure] at ended
    constructor
    · intro deletable _ pk added
      have found := (deleteKey_run batch.val pk t').mp
        (deletable out t' run ended.1 pk added batch.val rfl)
      rwa [ended.2] at found
    · intro prefixed out' t₁ run' _ pk added later same
      cases run.symm.trans run'
      rw [deleteKey_run, same, ended.2]
      exact prefixed rfl pk added

/-- The key is deleted, the transfer fails, and the key stays deleted. -/
def deletingBatch : PlainBatch :=
  ⟨{ deps := [], account := ascii "bob", creator := ascii "alice",
     actions := [.deleteKey [0x01], .transfer ⟨1, by decide⟩], isYield := false }, by simp [isCall]⟩

end Runs

end BatchReverts

end LispRlm.NearMock
