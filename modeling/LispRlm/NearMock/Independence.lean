import LispRlm.NearMock.EngineMatches
import LispRlm.NearMock.Conservation
import LispRlm.NearMock.ExecuteTx

/-! Transactions on one thread do not depend on the transactions before them.

A transaction that reads no leftover goes as on a thread without a past. What it leaves behind for
the driver is settled unless it asked for a deferral that its entry never took. -/

namespace LispRlm.NearMock

open Foundation Eff

variable {start a i : Thread} {chain : Chain} {engine : Calls}

/-! ### Copies of the store -/

/-- Copies that differ in leftovers only. -/
def SameCopy (start : Thread) : Storage → Storage → Prop :=
  SameOutside fun k => Holds start (.entry k)

theorem onlyMarkers_holds (start : Thread) : OnlyMarkers fun k => Holds start (.entry k) :=
  fun _ held => held.1

theorem matches_storeCopy : Matches (observer start) (SameCopy start) storeCopy storeCopy :=
  .get_bind fun _ _ rel => .of_pure (rel.storage.mono fun _ => Stale.holds)

theorem stale_rolledBack {journal : List Event} {copy : Storage} {c : Cell} :
    Stale start (journal ++ [.rolledBack copy]) c ↔
      Stale start journal c ∨ (Event.rolledBack copy).Undoes c ∧ Holds start c := by
  simp [Event.Writes]

theorem Agree.rolledBack (h : Agree start a i) {copy copy' : Storage}
    (same : SameCopy start copy copy') :
    Agree start { a with storage := copy, journal := a.journal ++ [.rolledBack copy] }
      { i with storage := copy', journal := i.journal ++ [.rolledBack copy'] } where
  storage := same.mono fun _ held => stale_rolledBack.mpr (.inr ⟨trivial, held⟩)
  joins := fun idx fresh => h.joins idx fun stale => fresh (stale_rolledBack.mpr (.inl stale))
  owners := fun idx =>
    (h.owners idx).imp id fun stale => ⟨stale_rolledBack.mpr (.inl stale.1), stale.2⟩
  nodes := fun key fresh => h.nodes key fun stale => fresh (stale_rolledBack.mpr (.inl stale))
  own := h.own

theorem matches_rollBack {copy copy' : Storage} (same : SameCopy start copy copy') :
    Matches (observer start) (fun _ _ => True) (rollBack copy) (rollBack copy') :=
  .of_modify (fun _ => ⟨List.prefix_append _ _, id, id⟩) fun _ _ rel => .inr (rel.rolledBack same)

theorem SameCopy.refundAttach {copy copy' : Storage} (same : SameCopy start copy copy')
    (contract : AccountId) (attach : Amount) :
    SameCopy start (refundAttach contract attach copy) (refundAttach contract attach copy') := by
  have stored := SameOutside.lookup (onlyMarkers_holds start) same (isMarker_balKey contract)
  unfold NearMock.refundAttach
  rw [stored]
  split
  · exact same
  · split
    · exact same
    · dsimp only
      split
      · exact SameOutside.put' same _ (some _)
      · exact SameOutside.put' same _ none

theorem matches_creditAttach (contract : AccountId) (amount : Amount) :
    Matches (observer start) (fun _ _ => True) (creditAttach contract amount)
      (creditAttach contract amount) := by
  apply Matches.get_bind
  intro a i rel
  have same := rel.storage.balanceAt (onlyMarkers_stale _ _) (isMarker_balKey contract)
  rw [same]
  exact matches_moveIf _

/-! ### One transaction -/

theorem alike_findOrphan (dag : List (PromiseBatch × Nat)) : Alike start (findOrphan dag) := by
  induction dag with
  | nil => exact .of_pure rfl
  | cons entry rest ih =>
      rcases entry with ⟨batch, j⟩
      have orphan : Alike start (isOrphan j batch) :=
        .bind_eq (alike_isExecuted j) fun _ => .ite (fun _ => .of_pure rfl) fun _ =>
          .bind_eq (alike_heldBack j _) fun _ => .of_pure rfl
      exact .bind_eq orphan fun _ => .ite (fun _ => .of_pure rfl) fun _ => ih

theorem alike_drain (he : engine.Alike start) (rounds failures : Nat) :
    Alike start (drain engine rounds failures) := by
  induction rounds generalizing failures with
  | zero => exact .of_throw _
  | succ rounds ih =>
      refine .bind_eq alike_enumerateDag fun dag => ?_
      refine .bind_eq (alike_findOrphan dag) fun orphan => ?_
      cases orphan with
      | none => exact .of_pure rfl
      | some idx =>
          refine .bind_eq (.attempt (he.executePromise idx)) fun result => ?_
          cases result with
          | ok _ => exact .bind_unit (matches_move _) (ih _)
          | error _ => exact ih _

theorem alike_resolveReturned (he : engine.Alike start) {copy copy' : Storage}
    (same : SameCopy start copy copy') (idx : Nat) :
    Matches (observer start) Eq (resolveReturned engine copy idx)
      (resolveReturned engine copy' idx) := by
  refine .bind_eq (.attempt (he.executePromise idx)) fun result => ?_
  cases result with
  | error stop => exact .bind_unit (matches_rollBack same) (.of_pure rfl)
  | ok results =>
      refine .bind_eq (alike_get fun _ => rfl) fun why => ?_
      exact .ite (fun _ => .of_pure rfl) fun _ => .of_pure rfl

theorem matches_queueReceipts :
    Matches (observer start) (fun _ _ => True) queueReceipts queueReceipts :=
  matches_modify (fun _ => ⟨rfl, rfl⟩) fun _ => rfl

theorem alike_takeDeferral : Alike start takeDeferral := by
  have taken : OwnUpdate fun t : Thread => { t with deferReceipts := false } :=
    fun _ => ⟨rfl, rfl⟩
  refine .get_bind fun a i rel => ?_
  rw [rel.sees (g := Thread.deferReceipts) fun _ => rfl]
  refine .bind_unit (.of_modify (fun _ => ⟨List.prefix_rfl, id, fun _ => rfl⟩) fun a i rel => ?_)
    (.of_pure rfl)
  exact .inr (taken.agree rel)

theorem alike_resolvePending (he : engine.Alike start) {copy copy' : Storage}
    (same : SameCopy start copy copy') (entryData : Option Bytes) (pending : Option Nat) :
    Matches (observer start) Eq (resolvePending engine copy entryData pending)
      (resolvePending engine copy' entryData pending) := by
  cases pending with
  | none => exact .of_pure rfl
  | some idx => exact alike_resolveReturned he same idx

theorem alike_settleReceipts (he : engine.Alike start) {copy copy' : Storage}
    (same : SameCopy start copy copy') (rounds : Nat) (pending : Option Nat)
    (entryData : Option Bytes) (deferred : Bool) :
    Matches (observer start) Eq (settleReceipts engine rounds copy pending entryData deferred)
      (settleReceipts engine rounds copy' pending entryData deferred) := by
  refine .ite (fun _ => .bind_unit matches_queueReceipts (.of_pure rfl)) fun _ => ?_
  refine .bind_eq (alike_resolvePending he same _ _) fun resolution => ?_
  exact .bind_eq (alike_drain he rounds 0) fun _ => .of_pure rfl

theorem alike_settleEntry (he : engine.Alike start) {copy copy' : Storage}
    (same : SameCopy start copy copy') (rounds : Nat) :
    Matches (observer start) Eq (settleEntry engine rounds copy)
      (settleEntry engine rounds copy') :=
  .bind_eq (alike_get fun _ => rfl) fun _ =>
    .bind_eq alike_takeDeferral fun _ => alike_settleReceipts he same _ _ _ _

theorem alike_closeTx (prepaid : Nat) (halt : Halt) (entryTrapped : Bool) (resolution : Resolution)
    (orphanFailures : Nat) :
    Alike start (closeTx prepaid halt entryTrapped resolution orphanFailures) := by
  refine .get_bind fun a i rel => ?_
  rw [rel.sees (g := Thread.receiptTraps) fun _ => rfl,
    rel.sees (g := Thread.logLines) fun _ => rfl]
  exact .bind_unit (matches_modify (fun _ => ⟨rfl, rfl⟩) fun _ => rfl) (.of_pure rfl)

theorem alike_runEntry (fuel : Nat) (tx : Tx) (body : Guest) :
    Alike start (runEntry chain fuel tx body) := by
  have he := calls_alike start chain fuel
  refine .bind (SameOutside.refl _) matches_storeCopy fun copy copy' same => ?_
  refine .bind_eq (alike_runGuest he.yieldResume body) fun exit => ?_
  cases exit with
  | returned halt =>
      exact .bind_eq (alike_settleEntry he same fuel) fun settled => alike_closeTx _ _ _ _ _
  | trapped why halt =>
      exact .bind_unit (matches_rollBack (SameCopy.refundAttach same _ _)) (alike_closeTx _ _ _ _ _)

theorem alike_enterContract (fuel : Nat) (tx : Tx) (module : Module) :
    Alike start (enterContract chain fuel tx module) := by
  refine .bind_unit (matches_creditAttach _ _) (.ite (fun _ => ?_) fun _ => ?_)
  · have resumes := (calls_alike start chain fuel).yieldResume
    refine .bind_eq (alike_startInstance resumes _) fun halt => ?_
    split
    · exact .of_throw _
    · exact alike_runEntry fuel tx _
  · exact .bind_unit (matches_note fun _ => ⟨id, id⟩) (.of_throw _)

theorem alike_callContract (fuel : Nat) (tx : Tx) : Alike start (callContract chain fuel tx) := by
  unfold callContract
  split
  · exact .of_throw _
  · exact alike_enterContract fuel tx _

/-! ### Histories -/

/-- The thread as the contract finds it. -/
def opened (tx : Tx) (t : Thread) : Thread := openTx tx (requested tx t)

/-- The store without the markers of the engine. -/
def contractStorage (st : Storage) : Storage := st.filterKeys fun k => !isMarker k

/-- The transaction, fired on a thread without a past. -/
def fireAlone (chain : Chain) (fuel : Nat) (tx : Tx) (st : Storage) :
    EStateM.Result Stop Thread TxOutcome :=
  fire chain fuel tx { storage := contractStorage st }

/-- The outcome depends on nothing but the contracts' entries, the store differs in markers that
earlier transactions have left, and no request is left for the next transaction. -/
structure Independent (chain : Chain) (fuel : Nat) (f : Fired) : Prop where
  outcome : outcome f.result = outcome (fireAlone chain fuel f.tx f.before.storage)
  storage : SameOutside (fun k => Holds f.before (.entry k)) (endState f.result).storage
    (endState (fireAlone chain fuel f.tx f.before.storage)).storage
  settled : (endState f.result).deferReceipts = false

/-- The entry method returned to the driver. -/
def EntryReturned : EStateM.Result Stop Thread TxOutcome → Prop
  | .ok outcome _ => outcome.entryTrapped = false
  | .error _ _ => False

/-- The transaction reads no leftover, and if it asked for a deferral, its entry returned. -/
def Clean (f : Fired) : Prop :=
  ¬Leaks f.before (endState f.result).journal ∧ (f.tx.deferred = true → EntryReturned f.result)

/-- A thread between two transactions. -/
structure Between (t : Thread) : Prop where
  idle : t.currentBatch = none
  settled : t.deferReceipts = false

theorem Between.agree {t : Thread} (h : Between t) (tx : Tx) :
    Agree t (opened tx t) (opened tx { storage := contractStorage t.storage }) where
  storage := by
    intro k fresh
    change t.storage.lookup k = (contractStorage t.storage).lookup k
    rw [contractStorage, FMap.lookup_filterKeys]
    split
    · rfl
    · next marker =>
        have marker : isMarker k = true := by simpa using marker
        have absent : ¬(t.storage.lookup k).isSome := fun found => fresh ⟨marker, found⟩
        simpa using absent
  joins := by
    intro idx fresh
    have absent : idx ∉ t.yieldJoins := fresh
    simpa [opened, requested, openTx, freshTxState] using absent
  owners := by
    intro idx
    cases found : t.yieldOwner.lookup idx with
    | none => exact .inl found
    | some owner => exact .inr ⟨Option.isSome_of_eq_some found, found, rfl⟩
  nodes := by
    intro key fresh
    have absent : key ∉ t.touched := fresh
    simpa [opened, requested, openTx, freshTxState] using absent
  own := by
    simp only [opened, requested, openTx, freshTxState, Thread.own, h.idle, h.settled]

theorem outcome_leaving {α : Type} (m : Run α) (f : Thread → Thread) (t : Thread) :
    outcome (leaving m f t) = outcome (m t) := by
  unfold leaving
  cases m t <;> rfl

theorem endState_leaving {α : Type} (m : Run α) (f : Thread → Thread) (t : Thread) :
    endState (leaving m f t) = f (endState (m t)) := by
  unfold leaving
  cases m t <;> rfl

theorem outcome_fire (chain : Chain) (fuel : Nat) (tx : Tx) (t : Thread) :
    outcome (fire chain fuel tx t) = outcome (callContract chain fuel tx (opened tx t)) :=
  outcome_leaving _ _ _

theorem endState_fire (chain : Chain) (fuel : Nat) (tx : Tx) (t : Thread) :
    endState (fire chain fuel tx t) =
      { endState (callContract chain fuel tx (opened tx t)) with view := t.view } :=
  endState_leaving _ _ _

/-- One transaction, and the same transaction alone. -/
theorem Between.fire_alike {t : Thread} (between : Between t) (chain : Chain) (fuel : Nat)
    (tx : Tx) (clean : ¬Leaks t (endState (fire chain fuel tx t)).journal) :
    outcome (fire chain fuel tx t) = outcome (fireAlone chain fuel tx t.storage) ∧
      SameCopy t (endState (fire chain fuel tx t)).storage
        (endState (fireAlone chain fuel tx t.storage)).storage := by
  have alike : Alike t (callContract chain fuel tx) := alike_callContract fuel tx
  have ends := alike.ends _ _ (between.agree tx)
  simp only [fireAlone, outcome_fire, endState_fire] at clean ⊢
  generalize callContract chain fuel tx (opened tx t) = first at ends clean ⊢
  generalize callContract chain fuel tx _ = second at ends ⊢
  cases ends.resolve_left clean with
  | ok value state => exact ⟨by rw [value]; rfl, state.storage.mono fun _ => Stale.holds⟩
  | error state => exact ⟨rfl, state.storage.mono fun _ => Stale.holds⟩

theorem Between.idle_fire {t : Thread} (between : Between t) (chain : Chain) (fuel : Nat)
    (tx : Tx) :
    (endState (fire chain fuel tx t)).currentBatch = none := by
  have alike : Alike t (callContract chain fuel tx) := alike_callContract fuel tx
  rw [endState_fire]
  exact (alike.keeps _).idle between.idle

/-- Once the entry has returned, the request is used up. -/
theorem settleEntry_settles (chain : Chain) (fuel rounds : Nat) (copy : Storage) :
    Returns (fun _ t => t.deferReceipts = false) (settleEntry (calls chain fuel) rounds copy) := by
  have taken : Returns (fun _ t => t.deferReceipts = false) takeDeferral := by
    intro t asked t' returned
    cases returned
    rfl
  refine .after fun entry => .of_keeps (R := Grows) taken (fun deferred => ?_) Grows.settled
  have alike : Alike { storage := ∅ }
      (settleReceipts (calls chain fuel) rounds copy entry.1 entry.2 deferred) :=
    alike_settleReceipts (calls_alike _ chain fuel) (SameOutside.refl _ copy) _ _ _ _
  exact alike.keeps

theorem callContract_settles (chain : Chain) (fuel : Nat) (tx : Tx) :
    Returns (fun outcome t => outcome.entryTrapped = false → t.deferReceipts = false)
      (callContract chain fuel tx) := by
  unfold callContract
  split
  · exact .of_throw _
  · refine .after fun _ => ?_
    split
    · refine .after fun halt => ?_
      split
      · exact .of_throw _
      · refine .after fun copy => .after fun exit => ?_
        cases exit with
        | returned halt =>
            refine .bind (settleEntry_settles chain fuel fuel copy) fun ended t settled => ?_
            rintro outcome t' closed -
            cases closed
            exact settled
        | trapped why halt =>
            refine .after fun _ => ?_
            rintro t outcome t' closed kept
            cases closed
            cases kept
    · exact .after fun _ => .of_throw _

/-- Nothing of a clean transaction's requests is left. -/
theorem Between.settled_fire {t : Thread} (between : Between t) (chain : Chain) (fuel : Nat)
    (tx : Tx) (clean : tx.deferred = true → EntryReturned (fire chain fuel tx t)) :
    (endState (fire chain fuel tx t)).deferReceipts = false := by
  cases asked : tx.deferred with
  | false =>
      have unasked : (opened tx t).deferReceipts = false := by
        change (tx.deferred || t.deferReceipts) = false
        rw [asked, between.settled]
        rfl
      rw [endState_fire]
      have alike : Alike t (callContract chain fuel tx) := alike_callContract fuel tx
      exact (alike.keeps _).settled unasked
  | true =>
      have returned := clean asked
      have settles := callContract_settles chain fuel tx (opened tx t)
      rw [endState_fire]
      have same := outcome_fire chain fuel tx t
      generalize fire chain fuel tx t = fired at returned same
      generalize callContract chain fuel tx (opened tx t) = ran at settles same ⊢
      cases fired with
      | error stop t' => exact returned.elim
      | ok outcome t' =>
          cases ran with
          | error stop t'' => cases same
          | ok outcome' t'' =>
              cases same
              exact settles outcome t'' rfl returned

theorem independent_of_clean {f : Fired} {chain : Chain} {fuel : Nat} (between : Between f.before)
    (fired : f.result = fire chain fuel f.tx f.before) (clean : Clean f) :
    Independent chain fuel f := by
  obtain ⟨noLeak, returned⟩ := clean
  rw [fired] at noLeak returned
  obtain ⟨same, storage⟩ := between.fire_alike chain fuel f.tx noLeak
  exact ⟨by rw [fired]; exact same, by rw [fired]; exact storage,
    by rw [fired]; exact between.settled_fire chain fuel f.tx returned⟩

theorem runHistory_independent_from (chain : Chain) (fuel : Nat) (txs : List Tx) {t : Thread}
    (between : Between t) (clean : ∀ f ∈ runHistory chain fuel txs t, Clean f) :
    ∀ f ∈ runHistory chain fuel txs t, Independent chain fuel f := by
  induction txs generalizing t with
  | nil => simp [runHistory]
  | cons tx rest ih =>
      rw [runHistory] at clean ⊢
      have first := clean _ (List.mem_cons_self ..)
      have independent := independent_of_clean between rfl first
      intro f member
      rcases List.mem_cons.mp member with rfl | later
      · exact independent
      · exact ih ⟨between.idle_fire chain fuel tx, independent.settled⟩
          (fun f later => clean f (List.mem_cons_of_mem _ later)) f later

instance (start : Thread) : DecidablePred (Holds start)
  | .entry key =>
      inferInstanceAs (Decidable (isMarker key = true ∧ (start.storage.lookup key).isSome = true))
  | .mark idx => inferInstanceAs (Decidable (idx ∈ start.yieldJoins))
  | .owner idx => inferInstanceAs (Decidable ((start.yieldOwner.lookup idx).isSome = true))
  | .node key => inferInstanceAs (Decidable (key ∈ start.touched))

/-- The event reads nothing that was there when the transaction started. -/
def Event.readsNothing (start : Thread) : Event → Bool
  | .read c => !decide (Holds start c)
  | .readYieldsOf owners => !start.yieldOwner.entries.any fun e => owners.contains e.2
  | .listedJoins _ => false
  | _ => true

theorem not_leaks {journal : List Event} (h : journal.all (Event.readsNothing start)) :
    ¬Leaks start journal := by
  rintro ⟨before, e, after, c, rfl, reads, stale⟩
  have nothing : e.readsNothing start = true := List.all_eq_true.mp h e (by simp)
  cases e with
  | read cell =>
      have held : Holds start cell := (show c = cell from reads) ▸ stale.holds
      simp [Event.readsNothing, held] at nothing
  | readYieldsOf owners =>
      cases c with
      | owner idx =>
          obtain ⟨d, member, left⟩ := reads
          have listed : (⟨idx, d⟩ : (_ : Nat) × Nat) ∈ start.yieldOwner.entries :=
            AList.mem_lookup_iff.mp left
          simp only [Event.readsNothing, Bool.not_eq_true', List.any_eq_false] at nothing
          exact nothing _ listed (by simpa using member)
      | entry | mark | node => exact reads
  | listedJoins owner => simp [Event.readsNothing] at nothing
  | moved | pushed | entered | replayed | deferred | forced | inert | ran | resolved | resumed
  | firesJoins | deliversJoins | turn | delivered | skipped | wrote | rolledBack
  | engineFailed => exact reads

def courierHalt : Halt := { gas := 0, memory := [] }

/-- `send` hands a call of `store` on as its result; `boom` traps. -/
def courierMethod (method : Bytes) : Option (Halt → Guest) :=
  if method = ascii "send" then
    some fun halt =>
      .call (.promiseCreate ⟨ascii "courier", ascii "store", [], 0, ⟨0, u128_pos⟩⟩) halt
        fun handle => .call (.promiseReturn handle.value.toNat) halt fun _ => .done halt
  else if method = ascii "store" then
    some fun halt =>
      .call (.storageWrite (ascii "seen") (ascii "1") 0) halt
        fun _ => .call (.valueReturn (ascii "stored")) halt fun _ => .done halt
  else if method = ascii "boom" then some fun halt => .trap (ascii "PANIC: no") halt
  else none

def courierChain : Chain :=
  { trappingChain with
    modules := fun account =>
      if account = ascii "courier" then
        some { instantiable := true, start := none, method := courierMethod }
      else none }

def courierTx (method : String) (deferred : Bool) : Tx where
  contract := ascii "courier"
  method := ascii method
  args := []
  signer := ascii "alice"
  deferred

end LispRlm.NearMock
