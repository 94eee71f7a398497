import LispRlm.NearMock.Visits

/-! `execute_promise` visits batches in order: it opens a visit where nothing is remembered, lets it
go on once, and remembers its results. -/

namespace LispRlm.NearMock

open Foundation Eff

variable {chain : Chain} {engine : Calls} {fuel : Nat}

/-- The recursive calls keep what the engine keeps, and record what they return. -/
structure Calls.Visits (fuel : Nat) (engine : Calls) : Prop
    extends Calls.Takes (Tracks fuel) engine where
  resolves : ∀ idx t out t', engine.executePromise idx t = .ok out t' → Recorded t →
    .resolved idx out ∈ t'.journal

/-- What a visit to a batch relies on. -/
def Entered (idx : Nat) (batch : PromiseBatch) (journal : List Event) : Prop :=
  .entered idx ∈ journal ∧ .pushed idx batch.deps batch.isYield ∈ journal

/-- `results` are those of `deps`, in order. -/
def Collected (deps : List Nat) (results : Results) (journal : List Event) : Prop :=
  ∃ outs, List.Forall₂ (fun d out => Event.resolved d out ∈ journal) deps outs ∧
    results = outs.flatten

theorem lasting_entered (idx : Nat) (batch : PromiseBatch) : Lasting (Entered idx batch) :=
  (lasting_mem _).and (lasting_mem _)

theorem lasting_settled (idx : Nat) : Lasting (Settled idx) :=
  fun _ _ ⟨e, member, settles⟩ => ⟨e, List.mem_append_left _ member, settles⟩

theorem lasting_collected (deps : List Nat) (results : Results) :
    Lasting (Collected deps results) := by
  rintro journal new ⟨outs, each, same⟩
  exact ⟨outs, each.imp fun _ _ member => List.mem_append_left _ member, same⟩

theorem nonneg_single (idx : Nat) : ∀ j, (0 : Int) ≤ (Pi.single idx 1 : Nat → Int) j := by
  intro j
  rw [Pi.single_apply]
  split <;> decide

/-! ### Small steps of a visit -/

/-- Entering opens a visit, one call deeper. -/
theorem track_entered {n : Nat} {t : Thread} {idx : Nat} (recorded : Recorded t)
    (fresh : ∀ out, .resolved idx out ∉ t.journal) :
    Track n (-Pi.single idx 1) t none { t with journal := t.journal ++ [.entered idx] } := by
  refine .of_note recorded (fun j => ?_) (by simp) fresh
  rw [openVisits_snoc, Pi.neg_apply, Pi.single_apply]
  by_cases same : idx = j
  · simp [Event.enters, Event.settles, same]
  · simp [Event.enters, Event.settles, same, Ne.symm same]

theorem memoize_track {idx : Nat} {out : Results} {t : Thread} (recorded : Recorded t)
    (settled : Settled idx t.journal) :
    Track fuel 0 t none
      { t with outcomes := t.outcomes.insert idx out
               journal := t.journal ++ [.resolved idx out] } := by
  refine ⟨⟨fun j out' found => ?_, fun j out' member => ?_, fun j batch found => ?_, ?_, ?_⟩,
    List.prefix_append _ _, fun j => ?_, fun _ => .inr fun j => ?_, by simp,
    fun _ _ => .inl, by simp⟩
  · by_cases same : j = idx
    · subst same
      rw [AList.lookup_insert] at found
      cases found
      exact List.mem_append_right _ (List.mem_singleton.mpr rfl)
    · rw [AList.lookup_insert_ne same] at found
      exact List.mem_append_left _ (recorded.memo j out' found)
  · by_cases same : j = idx
    · subst same
      simp [AList.lookup_insert]
    · have before : .resolved j out' ∈ t.journal := by simpa [same] using member
      change ((t.outcomes.insert idx out).lookup j).isSome
      rw [AList.lookup_insert_ne same]
      exact recorded.resolved j out' before
  · exact List.mem_append_left _ (recorded.pushed j batch found)
  · have before := recorded.pushes
    simp only [List.countP_append]
    omega
  · exact recorded.wellFounded.snoc settled
  · simp [openVisits_snoc, Event.enters, Event.settles]
  · simp [openVisits_snoc, Event.enters, Event.settles]

theorem markExecuted_track {idx : Nat} {t : Thread} (recorded : Recorded t)
    (visited : Visited idx t.journal) :
    Track fuel 0 t none { t with executed := t.executed.insert idx } :=
  (Under.markExecuted (fun _ => id) t recorded visited).1

/-! ### Visits -/

section Visit

variable (he : engine.Visits fuel)

include he

theorem collectDeps_results {deps : List Nat} {t t' : Thread} {results : Results}
    (recorded : Recorded t) (ran : collectDeps engine.executePromise deps t = .ok results t') :
    Collected deps results t'.journal := by
  induction deps generalizing t results with
  | nil =>
      cases ran
      exact ⟨[], .nil, rfl⟩
  | cons dep rest ih =>
      rw [collectDeps, bind_run] at ran
      cases first : engine.executePromise dep t with
      | error stop t₁ =>
          rw [first] at ran
          cases ran
      | ok out t₁ =>
          have step := he.executePromise dep t recorded
          have resolved := he.resolves dep t out t₁ first recorded
          rw [first] at ran step
          have recorded₁ : Recorded t₁ := step.recorded
          dsimp only at ran
          rw [bind_run] at ran
          cases second : collectDeps engine.executePromise rest t₁ with
          | error stop t₂ =>
              rw [second] at ran
              cases ran
          | ok others t₂ =>
              have grows := ((Tracks.framed fuel).collectDeps he.toTakes rest t₁ recorded₁).grows
              rw [second] at ran grows
              cases ran
              obtain ⟨outs, each, same⟩ := ih recorded₁ second
              exact ⟨out :: outs, .cons (grows.subset resolved) each, by simp [same]⟩

theorem runBatch_under (idx : Nat) (batch : PromiseBatch) :
    Takes (Under fuel (Pi.single idx 1) (Entered idx batch) (Settled idx))
      (runBatch chain engine idx batch) := by
  have hR := Tracks.framed fuel
  refine Under.first_value (G := fun depResults journal =>
      Entered idx batch journal ∧ Collected batch.deps depResults journal)
    (fun t recorded entered => ?_) (fun depResults => ?_) (nonneg_single idx)
  · have step := hR.collectDeps he.toTakes batch.deps t recorded
    refine ⟨step, fun results t' ran => ⟨?_, collectDeps_results he recorded ran⟩⟩
    rw [ran] at step
    exact (lasting_entered idx batch).mono step.grows entered
  · have lasting := (lasting_entered idx batch).and (lasting_collected batch.deps depResults)
    refine Under.first (Under.of_tracks (hR.replaceResults depResults) lasting)
      (fun saved => Under.ite (fun isYield => ?_) fun notYield => ?_) (nonneg_single idx)
    · have inert : Takes (Under fuel (Pi.single idx 1) _ _) (note (.inert idx)) :=
        Under.note_settles (fun _ => rfl) (fun _ => rfl) (by simp)
          (fun _ known => ⟨batch.deps, isYield ▸ known.1.2⟩) lasting
      refine Under.last inert fun _ => Under.first (Under.markExecuted fun _ known => ?_)
        (fun _ => Under.of_pure _ fun _ known => known.2) (by simp)
      exact .inl known.1.1.1
    · have plain : batch.isYield = false := by simpa using notYield
      have ran : Takes (Under fuel (Pi.single idx 1) _ _) (note (.ran idx depResults)) :=
        Under.note_settles (fun _ => rfl) (fun _ => rfl) (by simp)
          (fun _ ⟨known, outs, each, same⟩ => ⟨batch.deps, outs, plain ▸ known.2, each, same⟩)
          lasting
      refine Under.last ran fun _ => Under.rest ?_ (lasting_settled idx) fun _ known => known.2
      refine hR.takes_bind (hR.runOwnActions he.toTakes batch depResults) fun out => ?_
      exact hR.takes_bind (hR.setResults saved) fun _ => hR.takes_pure _

theorem executeBatch_under (idx : Nat) (batch : PromiseBatch) :
    Takes (Under fuel (Pi.single idx 1) (Entered idx batch) (Settled idx))
      (executeBatch chain engine idx batch) := by
  have hR := Tracks.framed fuel
  have lasting := lasting_entered idx batch
  refine Under.first (Under.of_tracks (hR.heldBack idx _) lasting)
    (fun held => Under.ite (fun _ => ?_) fun _ => ?_) (nonneg_single idx)
  · have deferred : Takes (Under fuel (Pi.single idx 1) _ _) (note (.deferred idx)) :=
      Under.note_settles (fun _ => rfl) (fun _ => rfl) (by simp) (fun _ _ => trivial) lasting
    exact Under.last deferred fun _ => Under.of_pure _ fun _ known => known.2
  · refine Under.first (Under.markExecuted fun _ known => .inl known.1) (fun _ => ?_)
      (nonneg_single idx)
    refine Under.first (Under.of_tracks (hR.isForced idx) lasting)
      (fun forced => Under.ite (fun _ => ?_) fun _ => runBatch_under he idx batch)
      (nonneg_single idx)
    have forced : Takes (Under fuel (Pi.single idx 1) _ _) (note (.forced idx)) :=
      Under.note_settles (fun _ => rfl) (fun _ => rfl) (by simp) (fun _ _ => trivial) lasting
    refine Under.last forced fun _ => Under.rest ?_ (lasting_settled idx) fun _ known => known.2
    exact hR.takes_bind (hR.collectDeps he.toTakes _) fun _ => hR.takes_pure _

omit he in
theorem underCurrentBatch_under {credit : Nat → Int} {F G : List Event → Prop} (idx : Nat)
    {run : Run Results} (h : Takes (Under fuel credit F G) run) :
    Takes (Under fuel credit F G) (underCurrentBatch idx run) := by
  refine .bracket h fun t stop t' inside recorded holds => ?_
  obtain ⟨step, ends⟩ := inside (recorded.of_same rfl rfl rfl) holds
  exact ⟨⟨step.recorded.of_same rfl rfl rfl, step.grows, step.opened,
    step.closed, step.failed, step.known, step.deep⟩, ends⟩

theorem executePromiseUncached_track {idx : Nat} {t : Thread} (recorded : Recorded t)
    (fresh : ∀ out, .resolved idx out ∉ t.journal) :
    Track (fuel + 1) 0 t (stopOf (executePromiseUncached chain engine idx t))
        (endState (executePromiseUncached chain engine idx t)) ∧
      .entered idx ∈ (endState (executePromiseUncached chain engine idx t)).journal ∧
      (stopOf (executePromiseUncached chain engine idx t) = none →
        Settled idx (endState (executePromiseUncached chain engine idx t)).journal) := by
  have opened : Track fuel _ t none _ := track_entered recorded fresh
  have gain : depth t + 1 ≤ depth { t with journal := t.journal ++ [.entered idx] } := by
    simp [depth, Event.deepens]
  set t₁ : Thread := { t with journal := t.journal ++ [.entered idx] }
  have entered : .entered idx ∈ t₁.journal := List.mem_append_right _ (List.mem_singleton.mpr rfl)
  have noted : note (.entered idx) t = .ok () t₁ := rfl
  cases found : t₁.dag[idx]? with
  | none =>
      have got : getBatch idx t₁ = .ok none t₁ := by
        rw [← found]
        rfl
      have run : executePromiseUncached chain engine idx t = .error .panic t₁ := by
        rw [executePromiseUncached, bind_run, noted]
        dsimp only
        rw [bind_run, got]
        rfl
      rw [run]
      refine ⟨⟨opened.recorded, opened.grows, fun j => ?_,
        by simp [stopOf], by simp [stopOf], fun _ => opened.known (by simp), by simp [stopOf]⟩,
        entered, by simp [stopOf]⟩
      have before := opened.opened j
      have one := nonneg_single idx j
      simp only [Pi.neg_apply, Pi.zero_apply] at before ⊢
      change openVisits t.journal j ≤ openVisits t₁.journal j + 0
      omega
  | some batch =>
      have got : getBatch idx t₁ = .ok (some batch) t₁ := by
        rw [← found]
        rfl
      have run : executePromiseUncached chain engine idx t =
          underCurrentBatch idx (executeBatch chain engine idx batch) t₁ := by
        rw [executePromiseUncached, bind_run, noted]
        dsimp only
        rw [bind_run, got]
      rw [run]
      obtain ⟨visit, settled⟩ := underCurrentBatch_under idx (executeBatch_under he idx batch) t₁
        opened.recorded ⟨entered, opened.recorded.pushed idx batch found⟩
      exact ⟨by simpa using opened.deeper gain visit, visit.grows.subset entered, settled⟩

/-- A visit to a batch that is remembered, or not yet. -/
theorem executePromise_track (idx : Nat) {t : Thread} (recorded : Recorded t) :
    Track (fuel + 1) 0 t (stopOf (executePromise chain engine idx t))
        (endState (executePromise chain engine idx t)) ∧
      Visited idx (endState (executePromise chain engine idx t)).journal ∧
      ∀ out t', executePromise chain engine idx t = .ok out t' →
        .resolved idx out ∈ t'.journal := by
  cases found : t.outcomes.lookup idx with
  | some hit =>
      have got : memo idx t = .ok (some hit) t := by
        rw [← found]
        rfl
      have run : executePromise chain engine idx t =
          (do note (.replayed idx); markExecuted idx; pure hit : Run Results) t := by
        rw [executePromise, bind_run, got]
      rw [run]
      have resolved := recorded.memo idx hit found
      have plain : (Event.replayed idx).Plain := ⟨fun _ => ⟨rfl, rfl, by simp⟩, fun _ => trivial⟩
      have noted : Track (fuel + 1) 0 t none _ := .of_plain recorded plain
      have again : Visited idx (t.journal ++ [.replayed idx]) :=
        .inr ⟨hit, List.mem_append_left _ resolved⟩
      refine ⟨noted.andThen (markExecuted_track noted.recorded again),
        .inr ⟨hit, List.mem_append_left _ resolved⟩, fun out t' ran => ?_⟩
      cases ran
      exact List.mem_append_left _ resolved
  | none =>
      have fresh : ∀ out, .resolved idx out ∉ t.journal := fun out member => by
        have some := recorded.resolved idx out member
        simp [found] at some
      obtain ⟨visit, entered, settled⟩ :
          Track (fuel + 1) 0 t (stopOf (executePromiseUncached chain engine idx t)) _ ∧ _ :=
        executePromiseUncached_track he recorded fresh
      have got : memo idx t = .ok none t := by
        rw [← found]
        rfl
      have run : executePromise chain engine idx t =
          (do
            let out ← executePromiseUncached chain engine idx
            memoize idx out
            pure out : Run Results) t := by
        rw [executePromise, bind_run, got]
      rw [run, bind_run]
      cases ran : executePromiseUncached chain engine idx t with
      | error stop t₁ =>
          rw [ran] at visit entered
          exact ⟨visit, .inl entered, fun _ _ returned => by cases returned⟩
      | ok out t₁ =>
          rw [ran] at visit entered settled
          refine ⟨visit.andThen (memoize_track visit.recorded (settled rfl)),
            .inl (List.mem_append_left _ entered), ?_⟩
          rintro out' t' returned
          cases returned
          exact List.mem_append_right _ (List.mem_singleton.mpr rfl)

end Visit

/-! ### The engine -/

/-- Firing a join marks it before the visit. -/
theorem fireJoin_tracks {j : Nat} (he : Takes (Tracks fuel) (engine.executePromise j))
    (visits : ∀ t, Recorded t → stopOf (engine.executePromise j t) ≠ some .outOfFuel →
      Visited j (endState (engine.executePromise j t)).journal) :
    Takes (Tracks fuel) (fireJoin engine j) := by
  intro t recorded
  set t₁ : Thread := { t with executed := t.executed.insert j }
  have recorded₁ : Recorded t₁ := recorded.of_same rfl rfl rfl
  have attempted := (Tracks.framed fuel).takes_attempt he t₁ recorded₁
  have ends : endState (fireJoin engine j t) =
      endState (attempt isErr (engine.executePromise j) t₁) := by
    change endState ((attempt isErr (engine.executePromise j) >>= fun _ => pure ()) t₁) = _
    rw [bind_run]
    cases attempt isErr (engine.executePromise j) t₁ <;> rfl
  have stops : stopOf (fireJoin engine j t) =
      stopOf (attempt isErr (engine.executePromise j) t₁) := by
    change stopOf ((attempt isErr (engine.executePromise j) >>= fun _ => pure ()) t₁) = _
    rw [bind_run]
    cases attempt isErr (engine.executePromise j) t₁ <;> rfl
  rw [ends, stops]
  refine ⟨attempted.recorded, attempted.grows, attempted.opened, attempted.closed,
    attempted.failed, fun fits k member => ?_, attempted.deep⟩
  rcases attempted.known fits k member with before | visited
  · rcases List.mem_insert_iff.mp before with rfl | earlier
    · right
      have visited := visits t₁ recorded₁
      unfold attempt at fits ⊢
      cases ran : engine.executePromise k t₁ with
      | ok out t₂ =>
          rw [ran] at visited
          exact visited (by simp [stopOf])
      | error stop t₂ =>
          rw [ran] at visited fits
          cases stop with
          | err why => exact visited (by simp [stopOf])
          | panic => exact visited (by simp [stopOf])
          | outOfFuel => simp [stopOf, isErr] at fits
    · exact .inl earlier
  · exact .inr visited

/-- What a resume relies on from where it is noted. -/
def Resumed (idx : Nat) (payload : Bytes) (journal : List Event) : Prop :=
  ∃ own, .resumed idx own payload ∈ journal

theorem lasting_resumed (idx : Nat) (payload : Bytes) : Lasting (Resumed idx payload) := by
  rintro journal new ⟨own, member⟩
  exact ⟨own, List.mem_append_left _ member⟩

theorem resumeYield_tracks (he : engine.Visits fuel) (idx : Nat) (batch : PromiseBatch)
    (own : Bool) (method args payload : Bytes) {t : Thread} (found : Found t idx batch own) :
    Tracks (fuel + 1) t
      (stopOf (resumeYield chain engine idx batch own method args payload t))
      (endState (resumeYield chain engine idx batch own method args payload t)) := by
  intro recorded
  have justified : Justified t.journal (.resumed idx own payload) := by
    cases own with
    | false => trivial
    | true =>
        obtain ⟨at', isYield⟩ := found
        exact ⟨batch.deps, isYield ▸ recorded.pushed idx batch at'⟩
  have noted : Track fuel 0 t none _ :=
    .of_note recorded (fun j => by simp [openVisits_snoc, Event.enters, Event.settles]) (by simp)
      justified
  have gain :
      depth t + 1 ≤ depth { t with journal := t.journal ++ [.resumed idx own payload] } := by
    simp [depth, Event.deepens]
  have lasting := lasting_resumed idx payload
  have hU := Under.framed fuel lasting
  have calls : engine.Takes (Under fuel 0 (Resumed idx payload) (Resumed idx payload)) :=
    ⟨fun j => Under.of_tracks (he.executePromise j) lasting,
      fun j => Under.of_tracks (he.fireJoin j) lasting,
      fun d p => Under.of_tracks (he.yieldResume d p) lasting⟩
  have silent : ∀ {e : Event}, (∀ j, e.enters j = false) → (∀ j, e.settles j = false) →
      (∀ j out, e ≠ .resolved j out) →
      (∀ journal, Resumed idx payload journal → Justified journal e) →
      Takes (Under fuel 0 (Resumed idx payload) (Resumed idx payload)) (note e) := by
    intro e enters settles fresh known t₁ recorded₁ holds
    exact ⟨.of_note recorded₁ (fun j => by simp [openVisits_snoc, enters, settles]) fresh
      (known _ holds), fun _ => lasting _ [e] holds⟩
  have each : ∀ j details, Takes (Under fuel 0 (Resumed idx payload) (Resumed idx payload))
      (deliverJoin chain engine idx payload j details) := fun j details =>
    hU.deliverJoin calls (fun result => silent (fun _ => rfl) (fun _ => rfl) (by simp)
      fun _ holds => holds) details
  have rest : Takes (Under fuel 0 (Resumed idx payload) (Resumed idx payload))
      (finishResume chain engine idx batch method args payload) := by
    refine hU.finishResume calls (fun joins => ?_) batch method args
    refine hU.takes_bind ?_ fun _ => hU.deliverJoins each joins
    exact silent (fun _ => rfl) (fun _ => rfl) (by simp) fun _ _ => trivial
  have holds : Resumed idx payload (t.journal ++ [.resumed idx own payload]) :=
    ⟨own, List.mem_append_right _ (List.mem_singleton.mpr rfl)⟩
  have whole := noted.deeper gain (rest _ noted.recorded holds).1
  rw [zero_add] at whole
  exact whole

theorem calls_visit (chain : Chain) (fuel : Nat) : (calls chain fuel).Visits fuel := by
  induction fuel with
  | zero =>
      have stuck : ∀ {α : Type}, Takes (Tracks 0) (throw .outOfFuel : Run α) :=
        .of_throw fun t recorded => ⟨recorded, List.prefix_rfl, by simp,
          by simp, by simp, by simp, fun _ => le_rfl⟩
      exact ⟨⟨fun _ => stuck, fun _ => fireJoin_tracks stuck fun t _ deep => absurd rfl deep,
        fun _ _ => stuck⟩, fun _ _ _ _ ran => by cases ran⟩
  | succ fuel ih =>
      have visits :
          ∀ idx, Takes (Tracks (fuel + 1)) ((calls chain (fuel + 1)).executePromise idx) :=
        fun idx t recorded => (executePromise_track ih idx recorded).1
      refine ⟨⟨visits, fun j => fireJoin_tracks (visits j) fun t recorded _ =>
        (executePromise_track ih j recorded).2.1, (Tracks.framed _).yieldResume ?_⟩,
        fun idx t out t' ran recorded => (executePromise_track ih idx recorded).2.2 out t' ran⟩
      intro t idx batch own method args payload found
      exact resumeYield_tracks ih idx batch own method args payload found

end LispRlm.NearMock
