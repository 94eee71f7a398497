import LispRlm.NearMock.HostSteps
import LispRlm.NearMock.Promises

/-! What the parts of the engine do around the batches, said once for every relation between the
start and the end of a run that composes and holds of the engine's own small steps. -/

namespace LispRlm.NearMock

open Foundation Eff

/-- What a run of the engine is about. -/
def Thread.engine (t : Thread) :
    Storage × List Event × List PromiseBatch × List Nat × FMap Nat Results :=
  (t.storage, t.journal, t.dag, t.executed, t.outcomes)

/-- An update of the promise state that neither runs nor remembers a batch. -/
def Silent (t t' : Thread) : Prop := t'.engine = t.engine

theorem Silent.fields {t t' : Thread} (h : Silent t t') :
    t'.storage = t.storage ∧ t'.journal = t.journal ∧ t'.dag = t.dag ∧ t'.executed = t.executed ∧
      t'.outcomes = t.outcomes := by
  simpa only [Silent, Thread.engine, Prod.mk.injEq] using h

/-- Events that only say what is read or listed. -/
def Event.Minor : Event → Prop
  | .readYieldsOf _ => True
  | .listedJoins _ => True
  | .firesJoins _ => True
  | .turn .. => True
  | .skipped .. => True
  | _ => False

/-- The relation holds of the steps that do not fail. -/
structure Calm (R : Thread → Option Stop → Thread → Prop) : Prop where
  composes : Composes R
  host : ∀ {t stop t'}, HostRun t stop t' → R t stop t'
  silent : ∀ {t t'}, Silent t t' → R t none t'
  minor : ∀ t {e : Event}, e.Minor → R t none { t with journal := t.journal ++ [e] }

structure Framed (R : Thread → Option Stop → Thread → Prop) : Prop extends Calm R where
  failed : ∀ t why, R t (some (.err why)) { t with journal := t.journal ++ [.engineFailed] }
  caught : ∀ {t why t'}, R t (some (.err why)) t' → R t none t'

/-- The engine's recursive calls are related by `R`. -/
structure Calls.Takes (R : Thread → Option Stop → Thread → Prop) (engine : Calls) : Prop where
  executePromise : ∀ idx, Eff.Takes R (engine.executePromise idx)
  fireJoin : ∀ j, Eff.Takes R (NearMock.fireJoin engine j)
  yieldResume : ∀ dataId payload, Eff.Takes R (engine.yieldResume dataId payload)

/-! ### What a resume finds -/

/-- The yield is in the DAG, or else the store has an entry for it. -/
def Found (t : Thread) (idx : Nat) (batch : PromiseBatch) (own : Bool) : Prop :=
  if own then t.dag[idx]? = some batch ∧ batch.isYield = true
  else (t.storage.lookup (yieldKey idx)).isSome

theorem findYield_found (idx : Nat) :
    Returns (fun found t => ∀ batch own, found = some (batch, own) → Found t idx batch own)
      (findYield idx) := by
  have known : Returns (fun batch t => batch = t.dag[idx]?) (getBatch idx) := by
    intro t batch t' returned
    cases returned
    rfl
  have stored : Returns (fun found t => found.isSome → (t.storage.lookup (yieldKey idx)).isSome)
      (persistedYield idx) := by
    intro t found t' returned some
    cases returned
    cases entry : t.storage.lookup (yieldKey idx) with
    | none => simp [entry] at some
    | some _ => rfl
  refine known.bind fun batch t same => ?_
  subst same
  intro found t' returned batch own equal
  cases yields : Option.filter PromiseBatch.isYield t.dag[idx]? with
  | some yield =>
      rw [yields] at returned
      cases returned
      cases equal
      exact Option.filter_eq_some_iff.mp yields
  | none =>
      rw [yields] at returned
      dsimp only at returned
      rw [bind_run] at returned
      cases ran : persistedYield idx t with
      | error stop t₁ => simp [ran] at returned
      | ok persisted t₁ =>
          rw [ran] at returned
          cases returned
          cases persisted with
          | none => cases equal
          | some _ =>
              cases equal
              exact stored t _ _ ran rfl

theorem lookupYield_found (dataId : Bytes) :
    Returns (fun found t => ∀ idx batch own, found = some (idx, batch, own) → Found t idx batch own)
      (lookupYield dataId) := by
  refine .after fun idx => (findYield_found idx).bind ?_
  intro found t holds named t' returned idx' batch own equal
  cases returned
  cases found with
  | none => cases equal
  | some entry =>
      cases equal
      exact holds _ _ rfl

namespace Calm

variable {R : Thread → Option Stop → Thread → Prop} (hR : Calm R)

include hR

theorem takes_pure {α : Type} (a : α) : Takes R (pure a : Run α) := .of_pure hR.composes a

theorem takes_get : Takes R (get : Run Thread) := .of_get hR.composes

theorem takes_bind {α β : Type} {m : Run α} {k : α → Run β} (hm : Takes R m)
    (hk : ∀ a, Takes R (k a)) : Takes R (m >>= k) :=
  .bind hR.composes hm hk

theorem takes_silent {f : Thread → Thread} (silent : ∀ t, Silent t (f t)) :
    Takes R (modify f : Run Unit) :=
  .of_modify fun t => hR.silent (silent t)

theorem takes_minor {e : Event} (minor : e.Minor) : Takes R (note e) :=
  .of_modify fun t => hR.minor t minor

theorem takes_host {α : Type} {m : Run α} (hm : Takes HostRun m) : Takes R m := hm.mono hR.host

theorem takes_read (cell : Cell) : Takes R (note (.read cell)) :=
  hR.takes_host (HostRun.takes_read cell)

theorem takes_move (step : ValueStep) : Takes R (move step) :=
  hR.takes_host (HostRun.takes_move step)

theorem takes_moveIf {c : Prop} [Decidable c] (step : ValueStep) : Takes R (moveIf c step) :=
  .ite (fun _ => hR.takes_move step) fun _ => hR.takes_pure _

/-! ### Joins and yields -/

theorem storedMarker (key : Bytes) : Takes R (storedMarker key) :=
  hR.takes_bind (hR.takes_read _) fun _ => hR.takes_bind hR.takes_get fun _ => hR.takes_pure _

theorem isYieldJoin (idx : Nat) : Takes R (isYieldJoin idx) := by
  have marked : Takes R (isMarked idx) :=
    hR.takes_bind (hR.takes_read _) fun _ => hR.takes_bind hR.takes_get fun _ => hR.takes_pure _
  refine hR.takes_bind marked fun marked => .ite (fun _ => hR.takes_pure _) fun _ => ?_
  refine hR.takes_bind (hR.storedMarker _) fun stored => ?_
  cases stored with
  | none => exact hR.takes_pure _
  | some _ =>
      exact hR.takes_bind (hR.takes_silent fun _ => rfl) fun _ =>
        hR.takes_pure _

theorem heldBack (idx : Nat) (deps : List Nat) : Takes R (heldBack idx deps) := by
  have own : Takes R (depsOwnOpenYield deps) :=
    hR.takes_bind (hR.takes_minor trivial) fun _ =>
      hR.takes_bind hR.takes_get fun _ => hR.takes_pure _
  refine hR.takes_bind (hR.isYieldJoin idx) fun join => ?_
  exact .ite (fun _ => own) fun _ => hR.takes_pure _

theorem isForced (idx : Nat) : Takes R (isForced idx) :=
  hR.takes_bind hR.takes_get fun _ => hR.takes_pure _

theorem getBatch (idx : Nat) : Takes R (getBatch idx) :=
  hR.takes_bind hR.takes_get fun _ => hR.takes_pure _

theorem isExecuted (idx : Nat) : Takes R (isExecuted idx) :=
  hR.takes_bind hR.takes_get fun _ => hR.takes_pure _

theorem enumerateDag : Takes R enumerateDag :=
  hR.takes_bind hR.takes_get fun _ => hR.takes_pure _

theorem yieldJoinsTake (idx : Nat) : Takes R (yieldJoinsTake idx) :=
  hR.takes_bind (hR.takes_host (HostRun.takes_written fun _ => ⟨_, _, _, _, _, _, _, _, rfl⟩))
    fun _ => hR.takes_move _

theorem joinsWaitingOn (idx : Nat) (dag : List (PromiseBatch × Nat)) :
    Takes R (joinsWaitingOn idx dag) := by
  induction dag with
  | nil => exact hR.takes_pure _
  | cons entry rest ih =>
      rcases entry with ⟨batch, j⟩
      rw [NearMock.joinsWaitingOn]
      refine .ite (fun _ => ?_) fun _ => ih
      exact hR.takes_bind (hR.isYieldJoin j) fun _ => hR.takes_bind ih fun _ => hR.takes_pure _

theorem ownerOf (idx : Nat) : Takes R (ownerOf idx) := by
  refine hR.takes_bind (hR.takes_host (HostRun.takes_yieldOwnerOf idx)) fun owner => ?_
  cases owner with
  | some owner => exact hR.takes_pure _
  | none => exact hR.takes_bind (hR.storedMarker _) fun _ => hR.takes_pure _

theorem joinsToFire (idx : Nat) : Takes R (joinsToFire idx) := by
  have others : ∀ owner, Takes R (ownerJoins owner) := fun _ =>
    hR.takes_bind (hR.takes_minor trivial) fun _ =>
      hR.takes_bind hR.takes_get fun _ => hR.takes_pure _
  refine hR.takes_bind hR.enumerateDag fun dag => ?_
  refine hR.takes_bind (hR.joinsWaitingOn _ _) fun waiting => ?_
  refine hR.takes_bind (hR.ownerOf idx) fun owner => ?_
  cases owner with
  | none => exact hR.takes_pure _
  | some owner => exact hR.takes_bind (others owner) fun _ => hR.takes_pure _

theorem lookupYield (dataId : Bytes) : Takes R (lookupYield dataId) := by
  have index : Takes R (resumeIndex dataId) := by
    refine .ite (fun _ => hR.takes_pure _) fun _ => .ite (fun _ => ?_) fun _ => hR.takes_pure _
    exact hR.takes_bind (hR.storedMarker _) fun _ => hR.takes_pure _
  refine hR.takes_bind index fun idx => hR.takes_bind ?_ fun _ => hR.takes_pure _
  refine hR.takes_bind (hR.getBatch idx) fun batch => ?_
  split
  · exact hR.takes_pure _
  · exact hR.takes_bind (hR.storedMarker _) fun _ => hR.takes_pure _

/-! ### Sub-execution -/

section Resume

variable {chain : Chain} {resume : Bytes → Bytes → Run HostResult}
  (hr : ∀ dataId payload, Takes R (resume dataId payload))

include hr

theorem runHost (host : HostCall) : Takes R (runHost chain resume host) := by
  by_cases isResume : ∃ dataId payload, host = .promiseYieldResume dataId payload
  · obtain ⟨dataId, payload, rfl⟩ := isResume
    exact hr dataId payload
  · exact hR.takes_host (runHost_takes fun d p equal => isResume ⟨d, p, equal⟩)

theorem runGuest (guest : Guest) : Takes R (runGuest chain resume guest) := by
  induction guest with
  | done halt => exact hR.takes_pure _
  | trap why halt => exact hR.takes_pure _
  | call host failed next ih =>
      rw [NearMock.runGuest]
      refine hR.takes_bind (hR.runHost hr host) fun answer => ?_
      cases answer with
      | ok answer => exact ih answer
      | error why => exact hR.takes_pure _

theorem startInstance (module : Module) : Takes R (startInstance chain resume module) := by
  unfold NearMock.startInstance
  split
  · exact hR.takes_pure _
  · exact hR.takes_bind (hR.runGuest hr _) fun _ => hR.takes_pure _

omit hr in
theorem pushTrap (why : Bytes) : Takes R (pushTrap why) :=
  hR.takes_silent fun _ => rfl

omit hr in
theorem recordPanic (why : Bytes) : Takes R (recordPanic why) := by
  unfold NearMock.recordPanic
  split
  · exact hR.pushTrap _
  · exact hR.takes_pure _

theorem runMethod (module : Module) (method : Bytes) :
    Takes R (runMethod chain resume module method) := by
  have data : Takes R returnedData := hR.takes_bind hR.takes_get fun _ => hR.takes_pure _
  refine hR.takes_bind (hR.startInstance hr module) fun halt => ?_
  split
  · exact hR.takes_pure _
  · refine hR.takes_bind (hR.runGuest hr _) fun exit => ?_
    cases exit with
    | returned halt => exact hR.takes_bind data fun _ => hR.takes_pure _
    | trapped why halt => exact hR.takes_bind (hR.recordPanic why) fun _ => hR.takes_pure _

omit hr in
theorem enterCall (account : AccountId) (args : Bytes) (predecessor : AccountId)
    (deposit : Amount) : Takes R (enterCall account args predecessor deposit) :=
  hR.takes_bind (hR.takes_silent fun _ => rfl) fun _ =>
    hR.takes_bind (hR.takes_moveIf _) fun _ =>
      hR.takes_silent fun _ => rfl

end Resume

theorem replaceResults (results : Results) : Takes R (replaceResults results) :=
  hR.takes_bind hR.takes_get fun _ =>
    hR.takes_bind (hR.takes_silent fun _ => rfl) fun _ => hR.takes_pure _

theorem setResults (results : Results) : Takes R (setResults results) :=
  hR.takes_silent fun _ => rfl

end Calm

namespace Framed

variable {R : Thread → Option Stop → Thread → Prop} (hR : Framed R)

include hR

theorem takes_fail {α : Type} (why : Bytes) :
    Takes R (do note .engineFailed; throw (.err why) : Run α) :=
  fun t => hR.failed t why

theorem takes_attempt {α : Type} {m : Run α} (hm : Takes R m) :
    Takes R (attempt isErr m) := by
  refine .attempt hm fun {t stop t'} catching run => ?_
  cases stop with
  | err why => exact hR.caught run
  | panic => cases catching
  | outOfFuel => cases catching

theorem subExecute {chain : Chain} {resume : Bytes → Bytes → Run HostResult}
    (hr : ∀ dataId payload, Takes R (resume dataId payload)) (account : AccountId)
    (method args : Bytes) (predecessor : AccountId) (deposit : Amount) :
    Takes R (subExecute chain resume account method args predecessor deposit) := by
  unfold NearMock.subExecute
  split
  · exact hR.takes_bind (hR.pushTrap _) fun _ => hR.takes_pure _
  · have save : Takes R saveContext := hR.takes_bind hR.takes_get fun _ => hR.takes_pure _
    have snapshot : Takes R (takeSnapshot account) :=
      hR.takes_bind hR.takes_get fun _ => hR.takes_pure _
    refine hR.takes_bind save fun caller => hR.takes_bind (hR.enterCall _ _ _ _) fun _ => ?_
    refine hR.takes_bind snapshot fun partSnap => .ite (fun _ => ?_) fun _ => hR.takes_fail _
    refine hR.takes_bind (hR.runMethod hr _ _) fun result => ?_
    refine hR.takes_bind (hR.takes_moveIf _) fun _ => ?_
    exact hR.takes_bind (hR.takes_silent fun _ => rfl) fun _ =>
      hR.takes_pure _

/-! ### Actions -/

variable {chain : Chain} {engine : Calls}

theorem revertBatch (touched : Touched) : Takes R (revertBatch touched) :=
  hR.takes_bind (hR.takes_move _) fun _ => hR.takes_pure _

theorem replacePendingReturn (new : Option Nat) : Takes R (replacePendingReturn new) :=
  hR.takes_bind hR.takes_get fun _ =>
    hR.takes_bind (hR.takes_silent fun _ => rfl) fun _ => hR.takes_pure _

theorem runTransfer (batch : PromiseBatch) (touched : Touched) (amount : Amount) :
    Takes R (runTransfer batch touched amount) := by
  refine hR.takes_bind hR.takes_get fun t => .ite (fun _ => hR.revertBatch _) fun _ => ?_
  exact hR.takes_bind (hR.takes_move _) fun _ => hR.takes_pure _

section Engine

variable (he : engine.Takes R)

include he

theorem runFnCall (batch : PromiseBatch) (touched : Touched) (method args : Bytes)
    (dep : Amount) : Takes R (runFnCall chain engine batch touched method args dep) := by
  refine hR.takes_bind (hR.replacePendingReturn _) fun outerRet => ?_
  refine hR.takes_bind (hR.subExecute he.yieldResume _ _ _ _ _) fun r => ?_
  refine hR.takes_bind (hR.replacePendingReturn _) fun childRet => ?_
  split
  · exact hR.takes_pure _
  · exact hR.takes_bind (he.executePromise _) fun _ => hR.takes_pure _

theorem runAction (batch : PromiseBatch) (touched : Touched) (action : PAction) :
    Takes R (runAction chain engine batch touched action) := by
  cases action with
  | fnCall method args gas dep => exact hR.runFnCall he batch touched method args dep
  | transfer amount => exact hR.runTransfer batch touched amount
  | transferToGasKey amount => exact hR.runTransfer batch touched amount
  | addGasKey pk => exact hR.takes_pure _
  | deployGlobalContract code => exact hR.takes_pure _
  | useGlobalContract accountId => exact hR.takes_pure _
  | stake amount =>
      refine hR.takes_bind hR.takes_get fun t => .ite (fun _ => hR.revertBatch _) fun _ => ?_
      exact hR.takes_bind (hR.takes_move _) fun _ => hR.takes_pure _
  | addKey pk =>
      refine hR.takes_bind hR.takes_get fun t => hR.takes_bind (hR.takes_move _) fun _ => ?_
      exact .ite (fun _ => hR.takes_pure _) fun _ => hR.takes_pure _
  | deleteKey pk =>
      refine hR.takes_bind hR.takes_get fun t => .ite (fun _ => ?_) fun _ => hR.revertBatch _
      exact hR.takes_bind (hR.takes_move _) fun _ => hR.takes_pure _
  | deleteAccount beneficiary =>
      exact hR.takes_bind (hR.takes_move _) fun _ => hR.takes_pure _

theorem runActions (batch : PromiseBatch) (touched : Touched) (actions : List PAction) :
    Takes R (runActions chain engine batch touched actions) := by
  induction actions generalizing touched with
  | nil => exact hR.takes_pure _
  | cons action rest ih =>
      refine hR.takes_bind (hR.runAction he batch touched action) fun ended => ?_
      exact .ite (fun _ => hR.takes_bind (ih _) fun _ => hR.takes_pure _) fun _ =>
        hR.takes_pure _

theorem runOwnActions (batch : PromiseBatch) (depResults : Results) :
    Takes R (runOwnActions chain engine batch depResults) :=
  .ite (fun _ => hR.takes_pure _) fun _ => hR.runActions he _ _ _

theorem collectDeps (deps : List Nat) : Takes R (collectDeps engine.executePromise deps) := by
  induction deps with
  | nil => exact hR.takes_pure _
  | cons dep rest ih =>
      exact hR.takes_bind (he.executePromise dep) fun _ =>
        hR.takes_bind ih fun _ => hR.takes_pure _

end Engine

section Engine

variable (he : engine.Takes R)

include he

theorem fireJoins (joins : List Nat) : Takes R (fireJoins engine joins) := by
  induction joins with
  | nil => exact hR.takes_pure _
  | cons j rest ih =>
      exact hR.takes_bind (hR.yieldJoinsTake j) fun _ =>
        hR.takes_bind (he.fireJoin j) fun _ => ih

theorem runCallback (account : AccountId) (method args : Bytes) (creator : AccountId)
    (result : Bytes) : Takes R (runCallback chain engine account method args creator result) := by
  refine hR.takes_bind (hR.replaceResults _) fun saved => ?_
  refine hR.takes_bind (hR.takes_attempt (hR.subExecute he.yieldResume _ _ _ _ _)) fun _ => ?_
  exact hR.setResults saved

theorem deliverJoin {idx j : Nat} {payload : Bytes}
    (noted : ∀ result, Takes R (note (.delivered idx j payload result))) (details : JoinDetails) :
    Takes R (deliverJoin chain engine idx payload j details) := by
  refine hR.takes_bind (hR.takes_minor trivial) fun _ => hR.takes_bind (hR.takes_move _) fun _ => ?_
  refine hR.takes_bind (hR.yieldJoinsTake j) fun _ =>
    hR.takes_bind (hR.isExecuted j) fun fired => ?_
  refine .ite (fun _ => hR.takes_minor trivial) fun _ => hR.takes_bind (noted _) fun _ => ?_
  exact hR.runCallback he _ _ _ _ _

omit he in
theorem deliverJoins {idx : Nat} {payload : Bytes}
    (each : ∀ j details, Takes R (NearMock.deliverJoin chain engine idx payload j details))
    (joins : List (Nat × JoinDetails)) :
    Takes R (deliverJoins chain engine idx payload joins) := by
  induction joins with
  | nil => exact hR.takes_pure _
  | cons entry rest ih => exact hR.takes_bind (each entry.1 entry.2) fun _ => ih

/-- The rest of a resume, where delivering the payload is related by `R`. -/
theorem finishResume {idx : Nat} {payload : Bytes}
    (delivers : ∀ joins : List (Nat × JoinDetails),
      Takes R (do
        note (.deliversJoins idx (joins.map Prod.fst))
        NearMock.deliverJoins chain engine idx payload joins : Run Unit))
    (batch : PromiseBatch) (method args : Bytes) :
    Takes R (finishResume chain engine idx batch method args payload) := by
  have pending : Takes R (pendingJoins chain) :=
    hR.takes_bind (hR.takes_minor trivial) fun _ =>
      hR.takes_bind hR.takes_get fun _ => hR.takes_pure _
  refine hR.takes_bind (hR.runCallback he _ _ _ _ _) fun _ => ?_
  refine hR.takes_bind (hR.takes_move _) fun _ => hR.takes_bind ?_ fun _ => hR.takes_pure _
  refine hR.takes_bind (hR.joinsToFire _) fun joins => hR.takes_bind (hR.takes_minor trivial) ?_
  exact fun _ => hR.takes_bind (hR.fireJoins he joins) fun _ => hR.takes_bind pending delivers

end Engine

/-- A resume, where noting it and going on is related by `R` once the yield is found. -/
theorem yieldResume
    (resumed : ∀ t idx batch own method args payload, Found t idx batch own →
      R t (stopOf (resumeYield chain engine idx batch own method args payload t))
        (endState (resumeYield chain engine idx batch own method args payload t)))
    (dataId payload : Bytes) : Takes R (yieldResume chain engine dataId payload) := by
  intro t
  have looked := hR.lookupYield dataId t
  rw [NearMock.yieldResume, bind_run]
  cases ran : NearMock.lookupYield dataId t with
  | error stop t₁ =>
      rw [ran] at looked
      exact looked
  | ok found t₁ =>
      rw [ran] at looked
      apply hR.composes.trans looked
      cases found with
      | none => exact hR.takes_pure _ t₁
      | some entry =>
          have here := lookupYield_found dataId t _ t₁ ran entry.1 entry.2.1 entry.2.2 rfl
          dsimp only
          cases callbackOf entry.2.1 with
          | none => exact hR.takes_pure _ t₁
          | some callback => exact resumed t₁ _ _ _ _ _ _ here

end Framed

/-! ### The engine as a whole -/

/-- Events that say how a visit or a resume goes. -/
def Event.Visiting : Event → Prop
  | .entered _ => True
  | .replayed _ => True
  | .deferred _ => True
  | .forced _ => True
  | .inert _ => True
  | .ran .. => True
  | .resumed .. => True
  | .deliversJoins .. => True
  | .delivered .. => True
  | _ => False

/-- The relation holds of the steps of a visit too. -/
structure Lenient (R : Thread → Option Stop → Thread → Prop) : Prop extends Framed R where
  noted : ∀ t {e : Event}, e.Visiting → R t none { t with journal := t.journal ++ [e] }
  marked : ∀ t idx, R t none { t with executed := t.executed.insert idx }
  memoized : ∀ t idx out, R t none
    { t with outcomes := t.outcomes.insert idx out, journal := t.journal ++ [.resolved idx out] }
  stopped : ∀ t stop, R t (some stop) t
  left : ∀ {t stop t' t''}, R t (some stop) t' → Silent t' t'' → R t (some stop) t''

namespace Lenient

variable {R : Thread → Option Stop → Thread → Prop} {chain : Chain} {engine : Calls}
  (hR : Lenient R)

include hR

theorem takes_note {e : Event} (visiting : e.Visiting) : Takes R (note e) :=
  .of_modify fun t => hR.noted t visiting

theorem markExecuted (idx : Nat) : Takes R (markExecuted idx) :=
  .of_modify fun t => hR.marked t idx

/-- A batch's index is set while it runs. -/
theorem underCurrentBatch (idx : Nat) {run : Run Results} (inside : Takes R run) :
    Takes R (underCurrentBatch idx run) := by
  intro t
  have entered : Takes R (do
      modify fun t => { t with currentBatch := some idx }
      run : Run Results) :=
    hR.takes_bind (hR.takes_silent fun _ => rfl) fun _ => inside
  have run := entered t
  unfold NearMock.underCurrentBatch Eff.leaving
  split
  · next out t' ended =>
      rw [ended] at run
      exact hR.composes.trans run (hR.silent rfl)
  · next stop t' ended =>
      rw [ended] at run
      exact hR.left run rfl

section Engine

variable (he : engine.Takes R)

include he

theorem runBatch (idx : Nat) (batch : PromiseBatch) :
    Takes R (runBatch chain engine idx batch) := by
  apply hR.takes_bind (hR.collectDeps he _)
  intro depResults
  apply hR.takes_bind (hR.replaceResults _)
  intro saved
  split
  · exact hR.takes_bind (hR.takes_note trivial) fun _ =>
      hR.takes_bind (hR.markExecuted idx) fun _ => hR.takes_pure _
  · exact hR.takes_bind (hR.takes_note trivial) fun _ =>
      hR.takes_bind (hR.runOwnActions he batch depResults) fun _ =>
        hR.takes_bind (hR.setResults saved) fun _ => hR.takes_pure _

theorem executeBatch (idx : Nat) (batch : PromiseBatch) :
    Takes R (executeBatch chain engine idx batch) := by
  apply hR.takes_bind (hR.heldBack idx _)
  intro held
  split
  · exact hR.takes_bind (hR.takes_note trivial) fun _ => hR.takes_pure _
  · apply hR.takes_bind (hR.markExecuted idx)
    intro _
    apply hR.takes_bind (hR.isForced idx)
    intro forced
    split
    · exact hR.takes_bind (hR.takes_note trivial) fun _ =>
        hR.takes_bind (hR.collectDeps he _) fun _ => hR.takes_pure _
    · exact hR.runBatch he idx batch

theorem executePromise (idx : Nat) : Takes R (executePromise chain engine idx) := by
  have memo : Takes R (memo idx) := hR.takes_bind hR.takes_get fun _ => hR.takes_pure _
  apply hR.takes_bind memo
  intro hit
  cases hit with
  | some hit =>
      exact hR.takes_bind (hR.takes_note trivial) fun _ =>
        hR.takes_bind (hR.markExecuted idx) fun _ => hR.takes_pure _
  | none =>
      have uncached : Takes R (executePromiseUncached chain engine idx) := by
        apply hR.takes_bind (m := note (.entered idx)) (hR.takes_note trivial)
        intro _
        apply hR.takes_bind (hR.getBatch idx)
        intro batch
        cases batch with
        | none => exact .of_throw fun t => hR.stopped t _
        | some batch => exact hR.underCurrentBatch idx (hR.executeBatch he idx batch)
      have memoize : ∀ out, Takes R (memoize idx out) := fun out =>
        .of_modify fun t => hR.memoized t idx out
      exact hR.takes_bind uncached fun out =>
        hR.takes_bind (memoize out) fun _ => hR.takes_pure _

theorem resumeYield (idx : Nat) (batch : PromiseBatch) (own : Bool) (method args payload : Bytes) :
    Takes R (resumeYield chain engine idx batch own method args payload) := by
  have each : ∀ j details, Takes R (deliverJoin chain engine idx payload j details) :=
    fun j details => hR.deliverJoin he (fun _ => hR.takes_note trivial) details
  apply hR.takes_bind (m := note (.resumed idx own payload)) (hR.takes_note trivial)
  intro _
  apply hR.finishResume he
  intro joins
  exact hR.takes_bind (hR.takes_note trivial) fun _ => hR.deliverJoins each joins

end Engine

theorem fireJoin {j : Nat} (h : Takes R (engine.executePromise j)) : Takes R (fireJoin engine j) :=
  hR.takes_bind (hR.markExecuted j) fun _ =>
    hR.takes_bind (hR.takes_attempt h) fun _ => hR.takes_pure _

theorem calls (chain : Chain) (fuel : Nat) : (calls chain fuel).Takes R := by
  induction fuel with
  | zero =>
      have stuck : ∀ {α : Type}, Takes R (throw .outOfFuel : Run α) :=
        .of_throw fun t => hR.stopped t _
      exact ⟨fun _ => stuck, fun _ => hR.fireJoin stuck, fun _ _ => stuck⟩
  | succ fuel ih =>
      refine ⟨hR.executePromise ih, fun j => hR.fireJoin (hR.executePromise ih j), ?_⟩
      apply hR.yieldResume
      intro t idx batch own method args payload _
      exact hR.resumeYield ih idx batch own method args payload t

end Lenient

end LispRlm.NearMock
