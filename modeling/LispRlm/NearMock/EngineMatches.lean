import LispRlm.NearMock.HostMatches

/-! The promise engine goes the same way on two threads that agree, unless it reads a leftover. -/

namespace LispRlm.NearMock

open Foundation Eff

variable {start a i : Thread} {chain : Chain} {engine : Calls}

/-! ### Sub-execution -/

section Resume

variable {resume : Bytes → Bytes → Run HostResult}
  (hr : ∀ dataId payload, Alike start (resume dataId payload))

include hr

theorem alike_runGuest (guest : Guest) : Alike start (runGuest chain resume guest) := by
  induction guest with
  | done halt => exact .of_pure rfl
  | trap why halt => exact .of_pure rfl
  | call host failed next ih =>
      rw [runGuest]
      refine .bind_eq (alike_runHost chain hr host) fun answer => ?_
      cases answer with
      | ok answer => exact ih answer
      | error why => exact .of_pure rfl

theorem alike_startInstance (module : Module) :
    Alike start (startInstance chain resume module) := by
  unfold startInstance
  split
  · exact .of_pure rfl
  · exact .bind_eq (alike_runGuest hr _) fun _ => .of_pure rfl

end Resume

theorem matches_pushTrap (why : Bytes) :
    Matches (observer start) (fun _ _ => True) (pushTrap why) (pushTrap why) :=
  matches_modify (fun _ => ⟨rfl, rfl⟩) fun _ => rfl

theorem matches_recordPanic (why : Bytes) :
    Matches (observer start) (fun _ _ => True) (recordPanic why) (recordPanic why) := by
  unfold recordPanic
  split
  · exact matches_pushTrap _
  · exact .of_pure trivial

theorem alike_returnedData : Alike start returnedData := alike_get fun _ => rfl

theorem alike_saveContext : Alike start saveContext := alike_get fun _ => rfl

theorem matches_restoreContext (caller : CallerContext) :
    Matches (observer start) (fun _ _ => True) (restoreContext caller) (restoreContext caller) :=
  matches_modify (fun _ => ⟨rfl, rfl⟩) fun _ => rfl

theorem matches_enterCall (account : AccountId) (args : Bytes) (predecessor : AccountId)
    (deposit : Amount) :
    Matches (observer start) (fun _ _ => True) (enterCall account args predecessor deposit)
      (enterCall account args predecessor deposit) :=
  .bind_unit (matches_modify (fun _ => ⟨rfl, rfl⟩) fun _ => rfl)
    (.bind_unit (matches_moveIf _) (matches_modify (fun _ => ⟨rfl, rfl⟩) fun _ => rfl))

theorem matches_takeSnapshot (account : AccountId) :
    Matches (observer start) SameOutside.SameSnap (takeSnapshot account)
      (takeSnapshot account) :=
  .get_bind fun _ _ rel =>
    .of_pure (rel.storage.snapshotPartition (onlyMarkers_stale _ _) account)

theorem matches_failedCall {account : AccountId} {snap snap' : PartitionSnap account}
    (same : SameOutside.SameSnap snap snap') (result : Option Bytes) (sender : AccountId)
    (deposit : Amount) :
    Matches (observer start) (fun _ _ => True)
      (moveIf (result = none) (.failedCall account snap sender deposit))
      (moveIf (result = none) (.failedCall account snap' sender deposit)) := by
  refine .ite (fun _ => ?_) fun _ => .of_pure trivial
  refine .of_modify (fun _ => ⟨List.prefix_append _ _, id, id⟩) fun a i rel => .inr (rel.moved ?_)
  refine (rel.storage.failedCall (onlyMarkers_stale _ _) same sender deposit).mono fun k stale => ?_
  exact stale_moved.mpr ⟨stale, id⟩

section Resume

variable {resume : Bytes → Bytes → Run HostResult}
  (hr : ∀ dataId payload, Alike start (resume dataId payload))

include hr

theorem alike_runMethod (module : Module) (method : Bytes) :
    Alike start (runMethod chain resume module method) := by
  refine .bind_eq (alike_startInstance hr module) fun halt => ?_
  split
  · exact .of_pure rfl
  · refine .bind_eq (alike_runGuest hr _) fun exit => ?_
    cases exit with
    | returned halt => exact .bind_eq alike_returnedData fun _ => .of_pure rfl
    | trapped why halt => exact .bind_unit (matches_recordPanic why) (.of_pure rfl)

theorem alike_subExecute (account : AccountId) (method args : Bytes) (predecessor : AccountId)
    (deposit : Amount) :
    Alike start (subExecute chain resume account method args predecessor deposit) := by
  unfold subExecute
  split
  · exact .bind_unit (matches_pushTrap _) (.of_pure rfl)
  · refine .bind_eq alike_saveContext fun caller => .bind_unit (matches_enterCall _ _ _ _) ?_
    refine .bind (fun _ _ => rfl) (matches_takeSnapshot account) fun snap snap' same => ?_
    refine .ite (fun _ => ?_) fun _ => ?_
    · refine .bind_eq (alike_runMethod hr _ _) fun result => ?_
      refine .bind_unit (matches_failedCall same result _ _) ?_
      exact .bind_unit (matches_restoreContext caller) (.of_pure rfl)
    · exact .bind_unit (matches_note fun _ => ⟨id, id⟩) (.of_throw _)

end Resume

/-! ### Batches -/

/-- The engine's recursive calls go the same way. -/
structure Calls.Alike (start : Thread) (engine : Calls) : Prop where
  executePromise : ∀ idx, NearMock.Alike start (engine.executePromise idx)
  yieldResume : ∀ dataId payload, NearMock.Alike start (engine.yieldResume dataId payload)

theorem alike_revertBatch (touched : Touched) : Alike start (revertBatch touched) :=
  .bind_unit (matches_move _) (.of_pure rfl)

theorem alike_replacePendingReturn (new : Option Nat) :
    Alike start (replacePendingReturn new) := by
  refine .get_bind fun a i rel => ?_
  rw [rel.sees (g := Thread.pendingReturn) fun _ => rfl]
  exact .bind_unit (matches_modify (fun _ => ⟨rfl, rfl⟩) fun _ => rfl) (.of_pure rfl)

theorem alike_runTransfer (batch : PromiseBatch) (touched : Touched) (amount : Amount) :
    Alike start (runTransfer batch touched amount) := by
  refine .get_bind fun a i rel => ?_
  have debited := rel.storage.debit (onlyMarkers_stale _ _) (isMarker_balKey batch.creator) amount
  dsimp only
  rw [rel.balanceAt (isMarker_balKey _), rel.lookup (isMarker_balKey _),
    debited.lookup (onlyMarkers_stale _ _) (isMarker_balKey _)]
  refine .ite (fun _ => alike_revertBatch _) fun _ => ?_
  exact .bind_unit (matches_move _) (.of_pure rfl)

theorem alike_runStake (batch : PromiseBatch) (touched : Touched) (amount : Amount) :
    Alike start (runStake batch touched amount) := by
  refine .get_bind fun a i rel => ?_
  dsimp only
  rw [rel.balanceAt (isMarker_balKey _), rel.lookup (isMarker_balKey _)]
  refine .ite (fun _ => alike_revertBatch _) fun _ => ?_
  exact .bind_unit (matches_move _) (.of_pure rfl)

theorem alike_runAddKey (touched : Touched) (pk : Bytes) : Alike start (runAddKey touched pk) := by
  refine .get_bind fun a i rel => ?_
  dsimp only
  rw [rel.lookup (isMarker_accessKey _)]
  refine .bind_unit (matches_move _) ?_
  exact .ite (fun _ => .of_pure rfl) fun _ => .of_pure rfl

theorem alike_runDeleteKey (batch : PromiseBatch) (touched : Touched) (pk : Bytes) :
    Alike start (runDeleteKey batch touched pk) := by
  refine .get_bind fun a i rel => ?_
  dsimp only
  rw [rel.lookup (isMarker_prefixedKey _ _)]
  refine .ite (fun _ => ?_) fun _ => alike_revertBatch _
  exact .bind_unit (matches_move _) (.of_pure rfl)

theorem alike_replaceResults (results : Results) : Alike start (replaceResults results) := by
  refine .get_bind fun a i rel => ?_
  rw [rel.sees (g := Thread.promiseResults) fun _ => rfl]
  exact .bind_unit (matches_modify (fun _ => ⟨rfl, rfl⟩) fun _ => rfl) (.of_pure rfl)

theorem matches_setResults (results : Results) :
    Matches (observer start) (fun _ _ => True) (setResults results) (setResults results) :=
  matches_modify (fun _ => ⟨rfl, rfl⟩) fun _ => rfl

theorem matches_markExecuted (idx : Nat) :
    Matches (observer start) (fun _ _ => True) (markExecuted idx) (markExecuted idx) :=
  matches_modify (fun _ => ⟨rfl, rfl⟩) fun _ => rfl

theorem alike_isForced (idx : Nat) : Alike start (isForced idx) := alike_get fun _ => rfl

theorem alike_getBatch (idx : Nat) : Alike start (getBatch idx) := alike_get fun _ => rfl

theorem alike_memo (idx : Nat) : Alike start (memo idx) := alike_get fun _ => rfl

theorem alike_isExecuted (idx : Nat) : Alike start (isExecuted idx) := alike_get fun _ => rfl

theorem alike_enumerateDag : Alike start enumerateDag := alike_get fun _ => rfl

theorem matches_memoize (idx : Nat) (out : Results) :
    Matches (observer start) (fun _ _ => True) (memoize idx out) (memoize idx out) := by
  refine .of_modify (fun _ => ⟨List.prefix_append _ _, id, id⟩) fun a i rel => .inr ?_
  have remembered : OwnUpdate fun t : Thread => { t with outcomes := t.outcomes.insert idx out } :=
    fun _ => ⟨rfl, rfl⟩
  exact (remembered.agree rel).noted fun _ => ⟨id, id⟩

/-! ### Joins and yields -/

theorem alike_storedMarker (key : Bytes) : Alike start (storedMarker key) :=
  matches_read (fun _ => ⟨id, id⟩) fun _ _ rel fresh => rel.storage key (fresh _ rfl)

theorem alike_isMarked (idx : Nat) : Alike start (isMarked idx) :=
  matches_read (fun _ => ⟨id, id⟩) fun _ _ rel fresh =>
    decide_eq_decide.mpr (rel.joins idx (fresh _ rfl))

theorem matches_cacheMark (idx : Nat) :
    Matches (observer start) (fun _ _ => True)
      (modify fun t : Thread => { t with yieldJoins := t.yieldJoins.insert idx } : Run Unit)
      (modify fun t : Thread => { t with yieldJoins := t.yieldJoins.insert idx }) := by
  refine .of_modify (fun _ => ⟨List.prefix_rfl, id, id⟩) fun a i rel => .inr ?_
  exact ⟨rel.storage, fun j fresh => by simp [rel.joins j fresh], rel.owners, rel.nodes, rel.own⟩

theorem alike_isYieldJoin (idx : Nat) : Alike start (isYieldJoin idx) := by
  refine .bind_eq (alike_isMarked idx) fun marked => .ite (fun _ => .of_pure rfl) fun _ => ?_
  refine .bind_eq (alike_storedMarker _) fun stored => ?_
  cases stored with
  | none => exact .of_pure rfl
  | some _ => exact .bind_unit (matches_cacheMark idx) (.of_pure rfl)

theorem mem_owners {m : FMap Nat Nat} {d : Nat} :
    (∃ e ∈ m.entries, e.2 = d) ↔ ∃ idx, m.lookup idx = some d := by
  constructor
  · rintro ⟨⟨idx, owner⟩, entry, rfl⟩
    exact ⟨idx, AList.mem_lookup_iff.mpr entry⟩
  · rintro ⟨idx, found⟩
    exact ⟨⟨idx, d⟩, AList.mem_lookup_iff.mp found, rfl⟩

/-- A yield of `d` is on record, and not as a leftover. -/
theorem Agree.yieldsOf (h : Agree start a i) {d : Nat}
    (fresh : ∀ idx, start.yieldOwner.lookup idx = some d → ¬Stale start a.journal (.owner idx))
    (idx : Nat) : a.yieldOwner.lookup idx = some d ↔ i.yieldOwner.lookup idx = some d := by
  rcases h.owners idx with same | ⟨stale, left, absent⟩
  · rw [same]
  · constructor
    · intro found
      exact absurd stale (fresh idx (left ▸ found))
    · intro found
      simp [absent] at found

theorem alike_depsOwnOpenYield (deps : List Nat) : Alike start (depsOwnOpenYield deps) := by
  refine matches_read (fun _ => ⟨id, id⟩) fun a i rel fresh => ?_
  rw [Bool.eq_iff_iff]
  simp only [List.any_eq_true, decide_eq_true_eq, mem_owners]
  refine exists_congr fun d => and_congr_right fun member => exists_congr fun idx => ?_
  exact rel.yieldsOf (fun idx left => fresh _ ⟨d, member, left⟩) idx

theorem alike_heldBack (idx : Nat) (deps : List Nat) : Alike start (heldBack idx deps) :=
  .bind_eq (alike_isYieldJoin idx) fun _ =>
    .ite (fun _ => alike_depsOwnOpenYield deps) fun _ => .of_pure rfl

/-! ### Running a batch -/

theorem alike_runFnCall (he : engine.Alike start) (batch : PromiseBatch) (touched : Touched)
    (method args : Bytes) (dep : Amount) :
    Alike start (runFnCall chain engine batch touched method args dep) := by
  refine .bind_eq (alike_replacePendingReturn _) fun outerRet => ?_
  refine .bind_eq (alike_subExecute he.yieldResume _ _ _ _ _) fun r => ?_
  refine .bind_eq (alike_replacePendingReturn _) fun childRet => ?_
  cases childRet with
  | none => exact .of_pure rfl
  | some ridx => exact .bind_eq (he.executePromise ridx) fun _ => .of_pure rfl

theorem alike_runAction (he : engine.Alike start) (batch : PromiseBatch) (touched : Touched)
    (action : PAction) : Alike start (runAction chain engine batch touched action) := by
  cases action with
  | fnCall method args gas dep => exact alike_runFnCall he batch touched method args dep
  | transfer amount => exact alike_runTransfer batch touched amount
  | transferToGasKey amount => exact alike_runTransfer batch touched amount
  | addGasKey pk => exact .of_pure rfl
  | deployGlobalContract code => exact .of_pure rfl
  | useGlobalContract accountId => exact .of_pure rfl
  | stake amount => exact alike_runStake batch touched amount
  | addKey pk => exact alike_runAddKey touched pk
  | deleteKey pk => exact alike_runDeleteKey batch touched pk
  | deleteAccount beneficiary => exact .bind_unit (matches_move _) (.of_pure rfl)

theorem alike_runActions (he : engine.Alike start) (batch : PromiseBatch) (touched : Touched)
    (actions : List PAction) : Alike start (runActions chain engine batch touched actions) := by
  induction actions generalizing touched with
  | nil => exact .of_pure rfl
  | cons action rest ih =>
      refine .bind_eq (alike_runAction he batch touched action) fun ended => ?_
      exact .ite (fun _ => .bind_eq (ih _) fun _ => .of_pure rfl) fun _ => .of_pure rfl

theorem alike_collectDeps (he : engine.Alike start) (deps : List Nat) :
    Alike start (collectDeps engine.executePromise deps) := by
  induction deps with
  | nil => exact .of_pure rfl
  | cons dep rest ih =>
      exact .bind_eq (he.executePromise dep) fun _ => .bind_eq ih fun _ => .of_pure rfl

theorem alike_runBatch (he : engine.Alike start) (idx : Nat) (batch : PromiseBatch) :
    Alike start (runBatch chain engine idx batch) := by
  have own : ∀ depResults, Alike start (runOwnActions chain engine batch depResults) := fun _ =>
    .ite (fun _ => .of_pure rfl) fun _ => alike_runActions he _ _ _
  refine .bind_eq (alike_collectDeps he _) fun depResults => ?_
  refine .bind_eq (alike_replaceResults _) fun saved => .ite (fun _ => ?_) fun _ => ?_
  · exact .bind_unit (matches_note fun _ => ⟨id, id⟩)
      (.bind_unit (matches_markExecuted idx) (.of_pure rfl))
  · refine .bind_unit (matches_note fun _ => ⟨id, id⟩) (.bind_eq (own depResults) fun out => ?_)
    exact .bind_unit (matches_setResults saved) (.of_pure rfl)

theorem alike_executeBatch (he : engine.Alike start) (idx : Nat) (batch : PromiseBatch) :
    Alike start (executeBatch chain engine idx batch) := by
  refine .bind_eq (alike_heldBack idx _) fun held => .ite (fun _ => ?_) fun _ => ?_
  · exact .bind_unit (matches_note fun _ => ⟨id, id⟩) (.of_pure rfl)
  · refine .bind_unit (matches_markExecuted idx) (.bind_eq (alike_isForced idx) fun forced => ?_)
    refine .ite (fun _ => ?_) fun _ => alike_runBatch he idx batch
    exact .bind_unit (matches_note fun _ => ⟨id, id⟩)
      (.bind_eq (alike_collectDeps he _) fun _ => .of_pure rfl)

theorem alike_underCurrentBatch (idx : Nat) {run : Run Results} (h : Alike start run) :
    Alike start (underCurrentBatch idx run) := by
  have entered : OwnUpdate fun t : Thread => { t with currentBatch := some idx } :=
    fun _ => ⟨rfl, rfl⟩
  have left : OwnUpdate fun t : Thread => { t with currentBatch := none } :=
    fun _ => ⟨rfl, rfl⟩
  refine .bracket h (fun t t' inside => ?_) (fun _ _ rel => entered.agree rel)
    (fun _ _ rel => left.agree rel) fun _ leaks => leaks
  exact ⟨inside.journal, fun _ => rfl, inside.settled⟩

theorem alike_executePromiseUncached (he : engine.Alike start) (idx : Nat) :
    Alike start (executePromiseUncached chain engine idx) := by
  refine .bind_unit (matches_note fun _ => ⟨id, id⟩) (.bind_eq (alike_getBatch idx) fun batch => ?_)
  cases batch with
  | none => exact .of_throw _
  | some batch => exact alike_underCurrentBatch idx (alike_executeBatch he idx batch)

theorem alike_executePromise (he : engine.Alike start) (idx : Nat) :
    Alike start (executePromise chain engine idx) := by
  refine .bind_eq (alike_memo idx) fun hit => ?_
  cases hit with
  | some hit =>
      exact .bind_unit (matches_note fun _ => ⟨id, id⟩)
        (.bind_unit (matches_markExecuted idx) (.of_pure rfl))
  | none =>
      refine .bind_eq (alike_executePromiseUncached he idx) fun out => ?_
      exact .bind_unit (matches_memoize idx out) (.of_pure rfl)

/-! ### Resumes -/

theorem alike_resumeIndex (rawId : Bytes) : Alike start (resumeIndex rawId) :=
  .ite (fun _ => .of_pure rfl) fun _ =>
    .ite (fun _ => .bind_eq (alike_storedMarker _) fun _ => .of_pure rfl) fun _ => .of_pure rfl

theorem alike_findYield (idx : Nat) : Alike start (findYield idx) := by
  have persisted : Alike start (persistedYield idx) :=
    .bind_eq (alike_storedMarker _) fun _ => .of_pure rfl
  refine .bind_eq (alike_getBatch idx) fun batch => ?_
  split
  · exact .of_pure rfl
  · exact .bind_eq persisted fun _ => .of_pure rfl

theorem alike_lookupYield (dataId : Bytes) : Alike start (lookupYield dataId) :=
  .bind_eq (alike_resumeIndex dataId) fun idx =>
    .bind_eq (alike_findYield idx) fun _ => .of_pure rfl

theorem matches_yieldJoinsTake (idx : Nat) :
    Matches (observer start) (fun _ _ => True) (yieldJoinsTake idx) (yieldJoinsTake idx) := by
  refine .bind_unit (matches_wrote (fun _ => rfl) (fun _ => rfl) (fun _ => rfl) fun a i rel => ?_)
    (matches_move _)
  exact rel.markWritten idx (by simp) fun j other => by simp [other]

theorem alike_joinsWaitingOn (idx : Nat) (dag : List (PromiseBatch × Nat)) :
    Alike start (joinsWaitingOn idx dag) := by
  induction dag with
  | nil => exact .of_pure rfl
  | cons entry rest ih =>
      rcases entry with ⟨batch, j⟩
      rw [joinsWaitingOn]
      refine .ite (fun _ => ?_) fun _ => ih
      exact .bind_eq (alike_isYieldJoin j) fun _ => .bind_eq ih fun _ => .of_pure rfl

theorem alike_ownerOf (idx : Nat) : Alike start (ownerOf idx) := by
  refine .bind_eq (alike_yieldOwnerOf idx) fun owner => ?_
  cases owner with
  | some owner => exact .of_pure rfl
  | none => exact .bind_eq (alike_storedMarker _) fun _ => .of_pure rfl

/-- The lists of joins have the same elements. -/
theorem matches_ownerJoins (owner : Nat) :
    Matches (observer start) (fun l l' => ∀ j, j ∈ l ↔ j ∈ l') (ownerJoins owner)
      (ownerJoins owner) := by
  refine matches_read (fun _ => ⟨id, id⟩) fun a i rel fresh j => ?_
  have marks : ∀ j, j ∈ a.yieldJoins ↔ j ∈ i.yieldJoins := fun j => rel.joins j (fresh _ trivial)
  have deps : ∀ j, depsOf a j = depsOf i j := fun j => by rw [depsOf, depsOf, rel.dag]
  have persisted : ∀ j, j ∈ persistedJoins a ↔ j ∈ persistedJoins i :=
    FMap.mem_readAll_congr fun k _ _ found => rel.storage k
      (fresh (.entry k) (Option.isSome_of_eq_some found))
  have yields := fun d => rel.yieldsOf (d := owner) (fun idx left => fresh (.owner idx) left) d
  have listed : joinsOnBatch a owner = joinsOnBatch i owner := by
    have all : sortDedup (persistedJoins a ++ a.yieldJoins) =
        sortDedup (persistedJoins i ++ i.yieldJoins) :=
      sortDedup_congr fun j => by simp only [List.mem_append, persisted, marks]
    simp only [joinsOnBatch, deps, all]
  simp [listed, joinsForOwnerBatch, deps, marks, yields]

theorem alike_joinsToFire (idx : Nat) : Alike start (joinsToFire idx) := by
  refine .bind_eq alike_enumerateDag fun dag => ?_
  refine .bind_eq (alike_joinsWaitingOn _ _) fun waiting => ?_
  refine .bind_eq (alike_ownerOf idx) fun owner => ?_
  cases owner with
  | none => exact .of_pure rfl
  | some owner =>
      refine .bind (fun _ _ => Iff.rfl) (matches_ownerJoins owner) fun others others' same => ?_
      exact .of_pure (sortDedup_congr fun j => by simp only [List.mem_append, same])

theorem alike_pendingJoins : Alike start (pendingJoins chain) := by
  refine matches_read (fun _ => ⟨id, id⟩) fun a i rel fresh => ?_
  have sound : ∀ k v l, listedJoin chain k v = some l → joinIndex k = some l.1 ∧ l.2.1 = k := by
    intro k v l found
    simp only [listedJoin, Option.bind_eq_bind, Option.bind_eq_some_iff, Option.pure_def,
      Option.some.injEq] at found
    obtain ⟨idx, index, details, -, rfl⟩ := found
    exact ⟨index, rfl⟩
  have same : ∀ k v l, listedJoin chain k v = some l →
      a.storage.lookup k = i.storage.lookup k := fun k v l found =>
    rel.storage k (fresh (.entry k) (Option.isSome_of_eq_some (sound k v l found).1))
  unfold persistedDetails
  have keyed : ∀ k v (l : Listed), listedJoin chain k v = some l → l.2.1 = k :=
    fun k v l found => (sound k v l found).2
  rw [FMap.insertionSort_readAll same keyed]
  intro l l' ranks
  have keys := (List.cons.inj ranks).2
  exact List.map_injective_iff.mpr (fun _ _ => UInt8.toNat_inj.mp) keys

theorem matches_fireJoins (he : engine.Alike start) (joins : List Nat) :
    Matches (observer start) (fun _ _ => True) (fireJoins engine joins)
      (fireJoins engine joins) := by
  induction joins with
  | nil => exact .of_pure trivial
  | cons j rest ih =>
      refine .bind_unit (matches_yieldJoinsTake j) (.bind_unit ?_ ih)
      refine .bind_unit (matches_markExecuted j) ?_
      exact .bind_eq (.attempt (he.executePromise j)) fun _ => .of_pure trivial

theorem matches_runCallback (he : engine.Alike start) (account : AccountId) (method args : Bytes)
    (creator : AccountId) (result : Bytes) :
    Matches (observer start) (fun _ _ => True)
      (runCallback chain engine account method args creator result)
      (runCallback chain engine account method args creator result) := by
  refine .bind_eq (alike_replaceResults _) fun saved => ?_
  refine .bind_eq (.attempt (alike_subExecute he.yieldResume _ _ _ _ _)) fun _ => ?_
  exact matches_setResults saved

theorem matches_deliverJoin (he : engine.Alike start) (idx : Nat) (payload : Bytes) (j : Nat)
    (details : JoinDetails) :
    Matches (observer start) (fun _ _ => True) (deliverJoin chain engine idx payload j details)
      (deliverJoin chain engine idx payload j details) := by
  refine .bind_unit (matches_note fun _ => ⟨id, id⟩) (.bind_unit (matches_move _) ?_)
  refine .bind_unit (matches_yieldJoinsTake j) (.bind_eq (alike_isExecuted j) fun fired => ?_)
  refine .ite (fun _ => matches_note fun _ => ⟨id, id⟩) fun _ => ?_
  exact .bind_unit (matches_note fun _ => ⟨id, id⟩) (matches_runCallback he _ _ _ _ _)

theorem matches_deliverJoins (he : engine.Alike start) (idx : Nat) (payload : Bytes)
    (joins : List (Nat × JoinDetails)) :
    Matches (observer start) (fun _ _ => True) (deliverJoins chain engine idx payload joins)
      (deliverJoins chain engine idx payload joins) := by
  induction joins with
  | nil => exact .of_pure trivial
  | cons entry rest ih => exact .bind_unit (matches_deliverJoin he idx payload _ _) ih

theorem matches_settleJoins (he : engine.Alike start) (idx : Nat) (payload : Bytes) :
    Matches (observer start) (fun _ _ => True) (settleJoins chain engine idx payload)
      (settleJoins chain engine idx payload) := by
  refine .bind_eq (alike_joinsToFire idx) fun joins => ?_
  refine .bind_unit (matches_note fun _ => ⟨id, id⟩) (.bind_unit (matches_fireJoins he joins) ?_)
  refine .bind_eq alike_pendingJoins fun pending => ?_
  exact .bind_unit (matches_note fun _ => ⟨id, id⟩) (matches_deliverJoins he idx payload pending)

theorem alike_yieldResume (he : engine.Alike start) (dataId payload : Bytes) :
    Alike start (yieldResume chain engine dataId payload) := by
  refine .bind_eq (alike_lookupYield dataId) fun found => ?_
  cases found with
  | none => exact .of_pure rfl
  | some entry =>
      dsimp only
      cases callbackOf entry.2.1 with
      | none => exact .of_pure rfl
      | some callback =>
          refine .bind_unit (matches_note fun _ => ⟨id, id⟩) ?_
          refine .bind_unit (matches_runCallback he _ _ _ _ _) (.bind_unit (matches_move _) ?_)
          exact .bind_unit (matches_settleJoins he _ _) (.of_pure rfl)

theorem calls_alike (start : Thread) (chain : Chain) (fuel : Nat) :
    (calls chain fuel).Alike start := by
  induction fuel with
  | zero => exact ⟨fun _ => .of_throw _, fun _ _ => .of_throw _⟩
  | succ fuel ih =>
      exact ⟨fun idx => alike_executePromise ih idx, fun d p => alike_yieldResume ih d p⟩

end LispRlm.NearMock
