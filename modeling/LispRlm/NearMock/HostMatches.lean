import LispRlm.NearMock.Leftovers

/-! The hosts go the same way on two threads that agree, unless they read a leftover. -/

namespace LispRlm.NearMock

open Foundation Eff

variable {start a i : Thread} {α β : Type} {V : α → α → Prop} {W : β → β → Prop}

/-- The computation goes the same way, or reads a leftover. -/
abbrev Alike (start : Thread) (m : Run α) : Prop := Matches (observer start) Eq m m

/-! ### Agreeing threads -/

/-- A reading of what the transaction starts afresh. -/
theorem Agree.sees (h : Agree start a i) {g : Thread → α} (own : ∀ t, g t = g t.own) :
    g a = g i := by
  rw [own a, own i, h.own]

theorem Agree.lookup (h : Agree start a i) {key : Bytes} (hk : isMarker key = false) :
    a.storage.lookup key = i.storage.lookup key :=
  h.storage.lookup (onlyMarkers_stale _ _) hk

theorem Agree.balanceAt (h : Agree start a i) {key : Bytes} (hk : isMarker key = false) :
    NearMock.balanceAt a.storage key = NearMock.balanceAt i.storage key :=
  h.storage.balanceAt (onlyMarkers_stale _ _) hk

theorem Agree.weight (h : Agree start a i) {w : Bytes → Bytes → Nat}
    (hw : ∀ k v, isMarker k = true → w k v = 0) : a.storage.weight w = i.storage.weight w :=
  h.storage.weight (onlyMarkers_stale _ _) hw

/-- The event neither writes nor rolls back. -/
def Event.Quiet (e : Event) : Prop := ∀ c, ¬e.Writes c ∧ ¬e.Undoes c

theorem stale_quiet {e : Event} (quiet : e.Quiet) {journal : List Event} {c : Cell} :
    Stale start (journal ++ [e]) c ↔ Stale start journal c := by
  simp [(quiet c).1, (quiet c).2]

theorem Agree.noted (h : Agree start a i) {e e' : Event} (quiet : e.Quiet) :
    Agree start { a with journal := a.journal ++ [e] }
      { i with journal := i.journal ++ [e'] } where
  storage := h.storage.mono fun _ => (stale_quiet quiet).mpr
  joins := fun idx fresh => h.joins idx fun stale => fresh ((stale_quiet quiet).mpr stale)
  owners := fun idx =>
    (h.owners idx).imp id fun stale => ⟨(stale_quiet quiet).mpr stale.1, stale.2⟩
  nodes := fun key fresh => h.nodes key fun stale => fresh ((stale_quiet quiet).mpr stale)
  own := h.own

/-! ### Updates and readings -/

/-- What of a thread may be left behind by an earlier transaction. -/
def Thread.shared (t : Thread) :
    Storage × List Event × List Nat × FMap Nat Nat × List Bytes :=
  (t.storage, t.journal, t.yieldJoins, t.yieldOwner, t.touched)

/-- The update concerns what the transaction starts afresh. -/
def OwnUpdate (f : Thread → Thread) : Prop :=
  ∀ t, (f t).shared = t.shared ∧ (f t).own = (f t.own).own

theorem OwnUpdate.agree {f : Thread → Thread} (hf : OwnUpdate f) (h : Agree start a i) :
    Agree start (f a) (f i) := by
  obtain ⟨shared, own⟩ := hf a
  obtain ⟨shared', own'⟩ := hf i
  simp only [Thread.shared, Prod.mk.injEq] at shared shared'
  obtain ⟨storage, journal, yieldJoins, yieldOwner, touched⟩ := shared
  obtain ⟨storage', -, yieldJoins', yieldOwner', touched'⟩ := shared'
  constructor
  · rw [storage, storage', journal]
    exact h.storage
  · rw [yieldJoins, yieldJoins', journal]
    exact h.joins
  · rw [yieldOwner, yieldOwner', journal]
    exact h.owners
  · rw [touched, touched', journal]
    exact h.nodes
  · rw [own, own', h.own]

/-- What `Grows` looks at besides the journal. -/
def Thread.pace (t : Thread) : Option Nat × Bool := (t.currentBatch, t.deferReceipts)

theorem matches_modify {f : Thread → Thread} (hf : OwnUpdate f)
    (pace : ∀ t, (f t).pace = t.pace) :
    Matches (observer start) (fun _ _ => True) (modify f : Run Unit) (modify f) := by
  apply Matches.of_modify
  · intro t
    have journal := congrArg (fun s => s.2.1) (hf t).1
    have kept := pace t
    simp only [Thread.pace, Prod.mk.injEq] at kept
    exact ⟨by simp only [Thread.shared] at journal; rw [journal], kept.1.trans, kept.2.trans⟩
  · intro a i rel
    exact .inr (hf.agree rel)

theorem matches_note {e : Event} (quiet : e.Quiet) :
    Matches (observer start) (fun _ _ => True) (note e) (note e) :=
  .of_modify (fun _ => ⟨List.prefix_append _ _, id, id⟩) fun _ _ rel => .inr (rel.noted quiet)

theorem grows_note (e : Event) : Keeps Grows (note e) :=
  .of_modify fun _ => ⟨List.prefix_append _ _, id, id⟩

/-- A reading of cells: a leftover among them is a leak. -/
theorem matches_consult {e : Event} (quiet : e.Quiet) {k l : Thread → Run β}
    (keeps : ∀ t, Keeps Grows (k t))
    (h : ∀ a i, Agree start a i → (∀ c, e.Reads start c → ¬Stale start a.journal c) →
      Matches (observer start) W (k a) (l i)) :
    Matches (observer start) W (note e >>= fun _ => get >>= k)
      (note e >>= fun _ => get >>= l) where
  keeps := by
    have rest : Keeps Grows (get >>= k) := .get_bind fun t => keeps t t
    exact .bind (fun _ _ _ first second => first.trans second) (grows_note e) fun _ => rest
  ends := by
    intro s t rel
    set s' : Thread := { s with journal := s.journal ++ [e] }
    by_cases leak : ∃ c, e.Reads start c ∧ Stale start s.journal c
    · obtain ⟨c, reads, stale⟩ := leak
      left
      exact (observer start).bad_grows (keeps s' s') (leaks_snoc reads stale)
    · refine (h s' _ (rel.noted quiet) fun c reads stale => leak ⟨c, reads, ?_⟩).ends _ _
        (rel.noted quiet)
      exact (stale_quiet quiet).mp stale

theorem matches_read {e : Event} (quiet : e.Quiet) {g : Thread → α}
    (h : ∀ a i, Agree start a i → (∀ c, e.Reads start c → ¬Stale start a.journal c) →
      V (g a) (g i)) :
    Matches (observer start) V (do note e; let t ← get; pure (g t))
      (do note e; let t ← get; pure (g t)) :=
  matches_consult quiet (fun _ => .of_pure Grows.refl _) fun a i rel fresh =>
    .of_pure (h a i rel fresh)

/-- A reading of what the transaction starts afresh. -/
theorem alike_get {g : Thread → α} (own : ∀ t, g t = g t.own) :
    Alike start (do let t ← get; pure (g t)) :=
  .get_bind fun _ _ rel => .of_pure (rel.sees own)

/-- A write to a cell that both threads agree on afterwards. -/
theorem matches_wrote {f : Thread → Thread} {cell : Cell}
    (journal : ∀ t, (f t).journal = t.journal ++ [.wrote cell])
    (idle : ∀ t, (f t).currentBatch = t.currentBatch)
    (settled : ∀ t, (f t).deferReceipts = t.deferReceipts)
    (agree : ∀ a i, Agree start a i → Agree start (f a) (f i)) :
    Matches (observer start) (fun _ _ => True) (modify f : Run Unit) (modify f) :=
  .of_modify (fun t => ⟨by rw [journal]; exact List.prefix_append _ _, (idle t).trans,
    (settled t).trans⟩) fun a i rel => .inr (agree a i rel)

/-! ### Moves -/

theorem stale_moved {journal : List Event} {step : ValueStep} {st : Storage} {c : Cell} :
    Stale start (journal ++ [.moved step st]) c ↔
      Stale start journal c ∧ ¬(Event.moved step st).Writes c := by
  have noUndo : ¬(Event.moved step st).Undoes c := id
  rw [stale_snoc]
  simp only [noUndo, false_and, or_false]

theorem Agree.moved (h : Agree start a i) {step step' : ValueStep}
    (storage : SameOutside (fun k => Stale start (a.journal ++ [.moved step a.storage]) (.entry k))
      (step.apply a.storage) (step'.apply i.storage)) :
    Agree start
      { a with storage := step.apply a.storage, journal := a.journal ++ [.moved step a.storage] }
      { i with storage := step'.apply i.storage,
               journal := i.journal ++ [.moved step' i.storage] } := by
  have kept : ∀ c, (∀ k, c ≠ .entry k) →
      (Stale start (a.journal ++ [.moved step a.storage]) c ↔ Stale start a.journal c) := by
    intro c other
    have quiet : ¬(Event.moved step a.storage).Writes c := by
      cases c with
      | entry k => exact absurd rfl (other k)
      | mark idx => cases step <;> exact id
      | owner idx => cases step <;> exact id
      | node key => cases step <;> exact id
    rw [stale_moved]
    exact and_iff_left quiet
  exact
    { storage
      joins := fun idx fresh => h.joins idx fun stale => fresh ((kept _ (by simp)).mpr stale)
      owners := fun idx =>
        (h.owners idx).imp id fun stale => ⟨(kept _ (by simp)).mpr stale.1, stale.2⟩
      nodes := fun key fresh => h.nodes key fun stale => fresh ((kept _ (by simp)).mpr stale)
      own := h.own }

theorem sameOutside_moved (h : Agree start a i) (step : ValueStep) :
    SameOutside (fun k => Stale start (a.journal ++ [.moved step a.storage]) (.entry k))
      (step.apply a.storage) (step.apply i.storage) := by
  have applied := h.storage.apply (onlyMarkers_stale _ _) step
  cases step with
  | put key value =>
      refine (h.storage.put key value).mono fun k stale => stale_moved.mpr ⟨stale.1, stale.2⟩
  | deposit | failedCall | transfer | stake | revert | deleteAccount | storageStaking =>
      exact applied.mono fun k stale => stale_moved.mpr ⟨stale, id⟩

theorem matches_move (step : ValueStep) :
    Matches (observer start) (fun _ _ => True) (move step) (move step) :=
  .of_modify (fun _ => ⟨List.prefix_append _ _, id, id⟩) fun _ _ rel =>
    .inr (rel.moved (sameOutside_moved rel step))

theorem matches_moveIf {c : Prop} [Decidable c] (step : ValueStep) :
    Matches (observer start) (fun _ _ => True) (moveIf c step) (moveIf c step) :=
  .ite (fun _ => matches_move step) fun _ => .of_pure trivial

/-! ### Hosts -/

theorem alike_reply (value : Int) : Alike start (reply value) := .of_pure rfl

theorem alike_hostError (why : Bytes) : Alike start (hostError why) := .of_pure rfl

theorem matches_setRegister (rid : Nat) (data : Bytes) :
    Matches (observer start) (fun _ _ => True) (setRegister rid data) (setRegister rid data) :=
  matches_modify (fun _ => ⟨rfl, rfl⟩) fun _ => rfl

theorem alike_checkedWrite (rid : Nat) (data : Bytes) (answer : HostReply) :
    Alike start (checkedWrite rid data answer) := by
  refine .get_bind fun a i rel => ?_
  rw [rel.sees (g := Thread.registers) fun _ => rfl]
  split
  · exact .of_pure rfl
  · exact .bind_unit (matches_modify (fun _ => ⟨rfl, rfl⟩) fun _ => rfl) (.of_pure rfl)

/-- A write of a cell leaves stale what was stale, but for the cell. -/
theorem stale_wrote {cell c : Cell} : Stale start (a.journal ++ [.wrote cell]) c ↔
    Stale start a.journal c ∧ c ≠ cell := by
  simp [Event.Writes, Event.Undoes]

/-- Marks a trie key as cached on both threads. -/
theorem Agree.nodeWritten (h : Agree start a i) (key : Bytes) :
    Agree start
      { a with touched := a.touched.insert key, journal := a.journal ++ [.wrote (.node key)] }
      { i with touched := i.touched.insert key, journal := i.journal ++ [.wrote (.node key)] } := by
  refine ⟨h.storage.mono fun k stale => stale_wrote.mpr ⟨stale, by simp⟩, fun idx fresh => ?_,
    fun idx => ?_, fun k fresh => ?_, h.own⟩
  · exact h.joins idx fun stale => fresh (stale_wrote.mpr ⟨stale, by simp⟩)
  · exact (h.owners idx).imp id fun stale => ⟨stale_wrote.mpr ⟨stale.1, by simp⟩, stale.2⟩
  · by_cases same : k = key
    · simp [same]
    · have earlier := h.nodes k fun stale => fresh (stale_wrote.mpr ⟨stale, by simpa using same⟩)
      simp [same, earlier]

theorem alike_trieCharge (chain : Chain) (key : Bytes) : Alike start (trieCharge chain key) := by
  have wrote : Matches (observer start) (fun _ _ => True)
      (modify fun t : Thread => { t with
        touched := t.touched.insert key, journal := t.journal ++ [.wrote (.node key)] } : Run Unit)
      (modify _) :=
    matches_wrote (fun _ => rfl) (fun _ => rfl) (fun _ => rfl) fun _ _ rel => rel.nodeWritten key
  refine matches_consult (fun _ => ⟨id, id⟩) (fun t => ?_) fun a i rel fresh => ?_
  · exact (wrote.bind_unit (.of_pure (V := Eq) rfl)).keeps
  · have same : key ∈ a.touched ↔ key ∈ i.touched := rel.nodes key (fresh _ rfl)
    simp only [same]
    exact wrote.bind_unit (.of_pure rfl)

theorem alike_trieChargeWrite (chain : Chain) (key : Bytes) :
    Alike start (trieChargeWrite chain key) :=
  .bind_unit
    (matches_wrote (fun _ => rfl) (fun _ => rfl) (fun _ => rfl) fun _ _ rel => rel.nodeWritten key)
    (.of_pure rfl)

theorem matches_applyStakingDelta (chain : Chain) (acct : AccountId) (bytesDelta : Int) :
    Matches (observer start) (fun _ _ => True) (applyStakingDelta chain acct bytesDelta)
      (applyStakingDelta chain acct bytesDelta) :=
  .ite (fun _ => matches_move _) fun _ => .of_pure trivial

theorem Agree.execCtxOrDefault (h : Agree start a i) :
    NearMock.execCtxOrDefault a = NearMock.execCtxOrDefault i :=
  h.sees fun _ => rfl

theorem Agree.execCtxView (h : Agree start a i) :
    NearMock.execCtxView a = NearMock.execCtxView i :=
  h.sees fun _ => rfl

theorem alike_storageWrite (chain : Chain) (rawKey value : Bytes) (rid : Nat) :
    Alike start (storageWrite chain rawKey value rid) := by
  refine .get_bind fun a i rel => ?_
  dsimp only
  rw [rel.execCtxView, rel.execCtxOrDefault, rel.lookup (isMarker_prefixedKey _ _)]
  refine .ite (fun _ => alike_hostError _) fun _ => ?_
  refine .bind_eq (alike_trieChargeWrite chain _) fun trieNodes => ?_
  refine .bind_unit (matches_move _) (.bind_unit (matches_applyStakingDelta _ _ _) ?_)
  split
  · exact .of_pure rfl
  · exact .ite (fun _ => .of_pure rfl) fun _ => alike_checkedWrite _ _ _

theorem alike_storageRead (chain : Chain) (rawKey : Bytes) (rid : Nat) :
    Alike start (storageRead chain rawKey rid) := by
  refine .get_bind fun a i rel => ?_
  dsimp only
  rw [rel.execCtxOrDefault, rel.lookup (isMarker_prefixedKey _ _)]
  refine .bind_eq (alike_trieCharge chain _) fun trieNodes => ?_
  split
  · exact .of_pure rfl
  · exact alike_checkedWrite _ _ _

theorem alike_storageRemove (chain : Chain) (rawKey : Bytes) (rid : Nat) :
    Alike start (storageRemove chain rawKey rid) := by
  refine .get_bind fun a i rel => ?_
  dsimp only
  rw [rel.execCtxView, rel.execCtxOrDefault, rel.lookup (isMarker_prefixedKey _ _)]
  refine .ite (fun _ => alike_hostError _) fun _ => ?_
  refine .bind_unit (matches_move _) (.bind_eq (alike_trieChargeWrite chain _) fun trieNodes => ?_)
  split
  · exact .of_pure rfl
  · refine .bind_unit (matches_applyStakingDelta _ _ _) ?_
    exact .ite (fun _ => .of_pure rfl) fun _ => alike_checkedWrite _ _ _

theorem alike_storageHasKey (chain : Chain) (rawKey : Bytes) :
    Alike start (storageHasKey chain rawKey) := by
  refine .get_bind fun a i rel => ?_
  dsimp only
  rw [rel.execCtxOrDefault, rel.lookup (isMarker_prefixedKey _ _)]
  exact .bind_eq (alike_trieCharge chain _) fun _ => .of_pure rfl

/-! ### Promise hosts -/

theorem alike_consumePromise (idx : Nat) (op : String) : Alike start (consumePromise idx op) := by
  refine .get_bind fun a i rel => ?_
  rw [rel.sees (g := Thread.consumed) fun _ => rfl]
  refine .ite (fun _ => .of_pure rfl) fun _ => ?_
  exact .bind_unit (matches_modify (fun _ => ⟨rfl, rfl⟩) fun _ => rfl) (.of_pure rfl)

theorem alike_consumeAll (op : String) (idxs : List Nat) : Alike start (consumeAll op idxs) := by
  induction idxs with
  | nil => exact .of_pure rfl
  | cons idx rest ih =>
      refine .bind_eq (alike_consumePromise idx op) fun consumed => ?_
      cases consumed with
      | error why => exact .of_pure rfl
      | ok _ => exact ih

theorem Agree.dag (h : Agree start a i) : a.dag = i.dag := h.sees (g := Thread.dag) fun _ => rfl

theorem alike_pushBatch (batch : PromiseBatch) : Alike start (pushBatch batch) := by
  refine .get_bind fun a i rel => ?_
  rw [rel.dag]
  refine .bind_unit (.of_modify (fun _ => ⟨List.prefix_append _ _, id, id⟩) fun a i rel => .inr ?_)
    (.of_pure rfl)
  have pushed : OwnUpdate fun t : Thread => { t with dag := t.dag ++ [batch] } :=
    fun _ => ⟨rfl, rfl⟩
  exact (pushed.agree rel).noted fun _ => ⟨id, id⟩

theorem alike_dagPush (deps : List Nat) (account : AccountId) (actions : List PAction) :
    Alike start (dagPush deps account actions) := by
  refine .get_bind fun a i rel => ?_
  rw [rel.execCtxOrDefault]
  exact alike_pushBatch _

theorem alike_promiseCreate (call : CallSpec) : Alike start (promiseCreate call) :=
  .bind_eq (alike_dagPush _ _ _) fun _ => alike_reply _

/-- Adds a mark or takes it off, on both threads. -/
theorem Agree.markWritten (h : Agree start a i) (idx : Nat) {marks marks' : List Nat}
    (this : idx ∈ marks ↔ idx ∈ marks')
    (others : ∀ j, j ≠ idx → (j ∈ marks ↔ j ∈ a.yieldJoins) ∧ (j ∈ marks' ↔ j ∈ i.yieldJoins)) :
    Agree start { a with yieldJoins := marks, journal := a.journal ++ [.wrote (.mark idx)] }
      { i with yieldJoins := marks', journal := i.journal ++ [.wrote (.mark idx)] } := by
  refine ⟨h.storage.mono fun k stale => stale_wrote.mpr ⟨stale, by simp⟩, fun j fresh => ?_,
    fun j => ?_, fun k fresh => ?_, h.own⟩
  · by_cases same : j = idx
    · exact same ▸ this
    · have earlier := h.joins j fun stale => fresh (stale_wrote.mpr ⟨stale, by simpa using same⟩)
      exact (others j same).1.trans (earlier.trans (others j same).2.symm)
  · exact (h.owners j).imp id fun stale => ⟨stale_wrote.mpr ⟨stale.1, by simp⟩, stale.2⟩
  · exact h.nodes k fun stale => fresh (stale_wrote.mpr ⟨stale, by simp⟩)

theorem matches_yieldJoinsAdd (idx : Nat) :
    Matches (observer start) (fun _ _ => True) (yieldJoinsAdd idx) (yieldJoinsAdd idx) := by
  refine .bind_unit (matches_wrote (fun _ => rfl) (fun _ => rfl) (fun _ => rfl) fun a i rel => ?_)
    (matches_move _)
  exact rel.markWritten idx (by simp) fun j other => by simp [other]

theorem matches_persistJoin (chain : Chain) (idx : Nat) (details : JoinDetails) :
    Matches (observer start) (fun _ _ => True) (persistJoin chain idx details)
      (persistJoin chain idx details) :=
  .bind_unit (matches_yieldJoinsAdd idx) (matches_move _)

theorem alike_isCrossAccount (idx : Nat) (account : AccountId) :
    Alike start (isCrossAccount idx account) := by
  refine .get_bind fun a i rel => ?_
  rw [rel.dag]
  exact .of_pure rfl

theorem alike_promiseThen (chain : Chain) (idx : Nat) (call : Option CallSpec) :
    Alike start (promiseThen chain idx call) := by
  refine .bind_eq (alike_consumePromise idx _) fun consumed => ?_
  cases consumed with
  | error why => exact alike_hostError _
  | ok _ =>
      cases call with
      | none => exact alike_hostError _
      | some call =>
          refine .bind_eq (alike_dagPush _ _ _) fun newIdx => ?_
          refine .bind_eq (alike_isCrossAccount _ _) fun depCross => ?_
          refine .ite (fun _ => ?_) fun _ => alike_reply _
          exact .bind_unit (matches_persistJoin chain newIdx _) (alike_reply _)

theorem alike_promiseAnd (idxs : List Nat) : Alike start (promiseAnd idxs) := by
  refine .bind_eq (alike_consumeAll _ idxs) fun consumed => ?_
  cases consumed with
  | error why => exact alike_hostError _
  | ok _ => exact .bind_eq (alike_dagPush _ _ _) fun _ => alike_reply _

theorem alike_promiseResult (idx rid : Nat) : Alike start (promiseResult idx rid) := by
  refine .get_bind fun a i rel => ?_
  rw [rel.sees (g := Thread.promiseResults) fun _ => rfl,
    rel.sees (g := Thread.registers) fun _ => rfl]
  split
  · exact .bind_unit (matches_setRegister _ _) (alike_reply _)
  · split
    · exact alike_reply _
    · exact .bind_unit (matches_modify (fun _ => ⟨rfl, rfl⟩) fun _ => rfl) (alike_reply _)
  · exact alike_reply _
  · exact alike_reply _

theorem alike_promiseReturn (idx : Nat) : Alike start (promiseReturn idx) := by
  refine .bind_eq (alike_consumePromise idx _) fun consumed => ?_
  cases consumed with
  | error why => exact alike_hostError _
  | ok _ =>
      exact .bind_unit (matches_modify (fun _ => ⟨rfl, rfl⟩) fun _ => rfl) (alike_reply _)

theorem alike_promiseBatchThen (idx : Nat) (account : Option AccountId) :
    Alike start (promiseBatchThen idx account) := by
  refine .bind_eq (alike_consumePromise idx _) fun consumed => ?_
  cases consumed with
  | error why => exact alike_hostError _
  | ok _ =>
      cases account with
      | none => exact alike_hostError _
      | some account => exact .bind_eq (alike_dagPush _ _ _) fun _ => alike_reply _

theorem alike_promiseBatchAction (idx : Nat) (action : PAction) :
    Alike start (promiseBatchAction idx action) := by
  refine .get_bind fun a i rel => ?_
  rw [rel.dag]
  refine .ite (fun _ => ?_) fun _ => .ite (fun _ => alike_reply _) fun _ => .of_throw _
  exact .bind_unit (matches_modify (fun _ => ⟨rfl, rfl⟩) fun _ => rfl) (alike_reply _)

theorem Agree.ownerWritten (h : Agree start a i) (idx owner : Nat) :
    Agree start
      { a with yieldOwner := a.yieldOwner.insert idx owner
               journal := a.journal ++ [.wrote (.owner idx)] }
      { i with yieldOwner := i.yieldOwner.insert idx owner
               journal := i.journal ++ [.wrote (.owner idx)] } := by
  refine ⟨h.storage.mono fun k stale => stale_wrote.mpr ⟨stale, by simp⟩, fun j fresh => ?_,
    fun j => ?_, fun k fresh => ?_, h.own⟩
  · exact h.joins j fun stale => fresh (stale_wrote.mpr ⟨stale, by simp⟩)
  · by_cases same : j = idx
    · exact .inl (by rw [same, AList.lookup_insert, AList.lookup_insert])
    · have other : ∀ m : FMap Nat Nat, (m.insert idx owner).lookup j = m.lookup j := fun m =>
        AList.lookup_insert_ne same
      dsimp only
      rw [other, other]
      exact (h.owners j).imp id fun stale => ⟨stale_wrote.mpr ⟨stale.1, by simpa using same⟩, stale.2⟩
  · exact h.nodes k fun stale => fresh (stale_wrote.mpr ⟨stale, by simp⟩)

theorem matches_yieldOwnerAdd (idx : Nat) :
    Matches (observer start) (fun _ _ => True) (yieldOwnerAdd idx) (yieldOwnerAdd idx) := by
  refine .get_bind fun a i rel => ?_
  rw [rel.sees (g := Thread.currentBatch) fun _ => rfl]
  split
  · exact .of_pure trivial
  · exact matches_wrote (fun _ => rfl) (fun _ => rfl) (fun _ => rfl) fun _ _ rel =>
      rel.ownerWritten idx _

theorem alike_yieldOwnerOf (idx : Nat) : Alike start (yieldOwnerOf idx) :=
  matches_read (fun _ => ⟨id, id⟩) fun _ _ rel fresh =>
    (rel.owners idx).resolve_right fun stale => fresh _ rfl stale.1

theorem alike_promiseYieldCreate (chain : Chain) (method args : Bytes) (gas rid : Nat) :
    Alike start (promiseYieldCreate chain method args gas rid) := by
  refine .get_bind fun a i rel => ?_
  dsimp only
  rw [rel.execCtxOrDefault]
  refine .bind_eq (alike_pushBatch _) fun idx => .bind_unit (matches_setRegister _ _) ?_
  refine .bind_unit (matches_move _) (.bind_unit (matches_move _) ?_)
  refine .bind_unit (matches_yieldOwnerAdd idx) (.bind_eq (alike_yieldOwnerOf idx) fun owner => ?_)
  cases owner with
  | none => exact alike_reply _
  | some owner => exact .bind_unit (matches_move _) (alike_reply _)

/-- Only entries of the partition count as storage. -/
theorem lockedBalanceFor_congr (h : Agree start a i) (chain : Chain) (acct : AccountId) :
    lockedBalanceFor chain a.storage acct = lockedBalanceFor chain i.storage acct := by
  unfold lockedBalanceFor
  rw [h.weight]
  intro k v marker
  have outside : (prefixedKey acct []).isPrefixOf k = false := by
    by_contra inside
    rw [Bool.not_eq_false] at inside
    simp [isMarker_of_inAccount inside] at marker
  simp [outside]

theorem alike_runHost (chain : Chain) {resume : Bytes → Bytes → Run HostResult}
    (hr : ∀ dataId payload, Alike start (resume dataId payload)) (host : HostCall) :
    Alike start (runHost chain resume host) := by
  cases host with
  | readRegister rid =>
      refine .get_bind fun a i rel => ?_
      rw [rel.sees (g := Thread.registers) fun _ => rfl]
      split
      · exact .of_pure rfl
      · exact alike_hostError _
  | registerLen rid =>
      refine .get_bind fun a i rel => ?_
      rw [rel.sees (g := Thread.registers) fun _ => rfl]
      exact alike_reply _
  | writeRegister rid data => exact alike_checkedWrite _ _ _
  | input rid =>
      refine .get_bind fun a i rel => ?_
      dsimp only
      rw [rel.execCtxOrDefault]
      exact alike_checkedWrite _ _ _
  | currentAccountId rid =>
      refine .get_bind fun a i rel => ?_
      dsimp only
      rw [rel.execCtxOrDefault]
      exact .bind_unit (matches_setRegister _ _) (.of_pure rfl)
  | signerAccountId rid =>
      refine .get_bind fun a i rel => ?_
      rw [rel.execCtxOrDefault]
      exact .bind_unit (matches_setRegister _ _) (.of_pure rfl)
  | predecessorAccountId rid =>
      refine .get_bind fun a i rel => ?_
      rw [rel.execCtxOrDefault]
      exact .bind_unit (matches_setRegister _ _) (.of_pure rfl)
  | storageWrite key value rid => exact alike_storageWrite _ _ _ _
  | storageRead key rid => exact alike_storageRead _ _ _
  | storageRemove key rid => exact alike_storageRemove _ _ _
  | storageHasKey key => exact alike_storageHasKey _ _
  | valueReturn data =>
      exact .bind_unit (matches_modify (fun _ => ⟨rfl, rfl⟩) fun _ => rfl) (alike_reply _)
  | logUtf8 message =>
      exact .bind_unit (matches_modify (fun _ => ⟨rfl, rfl⟩) fun _ => rfl) (alike_reply _)
  | blockTimestamp => exact alike_reply _
  | accountBalance =>
      refine .get_bind fun a i rel => ?_
      dsimp only
      rw [rel.execCtxOrDefault, lockedBalanceFor_congr rel, rel.balanceAt (isMarker_balKey _)]
      exact alike_reply _
  | accountLockedBalance =>
      refine .get_bind fun a i rel => ?_
      rw [rel.execCtxOrDefault, lockedBalanceFor_congr rel]
      exact alike_reply _
  | attachedDeposit =>
      refine .get_bind fun a i rel => ?_
      rw [rel.sees (g := Thread.currentDeposit) fun _ => rfl]
      exact alike_reply _
  | storageUsage =>
      refine .get_bind fun a i rel => ?_
      rw [rel.execCtxOrDefault, rel.weight]
      · exact alike_reply _
      · intro k v marker
        split
        · next inside => simp [isMarker_of_inAccount inside] at marker
        · rfl
  | promiseCreate call => exact alike_promiseCreate call
  | promiseThen idx call => exact alike_promiseThen chain idx call
  | promiseAnd idxs => exact alike_promiseAnd idxs
  | promiseResultsCount =>
      refine .get_bind fun a i rel => ?_
      rw [rel.sees (g := Thread.promiseResults) fun _ => rfl]
      exact alike_reply _
  | promiseResult idx rid => exact alike_promiseResult idx rid
  | promiseReturn idx => exact alike_promiseReturn idx
  | promiseBatchCreate account => exact .bind_eq (alike_dagPush _ _ _) fun _ => alike_reply _
  | promiseBatchThen idx account => exact alike_promiseBatchThen idx account
  | promiseBatchAction idx action => exact alike_promiseBatchAction idx action
  | promiseYieldCreate method args gas rid =>
      exact alike_promiseYieldCreate chain method args gas rid
  | promiseYieldResume dataId payload => exact hr dataId payload

end LispRlm.NearMock
