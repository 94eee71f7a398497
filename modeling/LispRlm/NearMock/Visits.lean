import LispRlm.NearMock.Frame

/-! The visits `execute_promise` pays to the batches of a transaction, read off its journal. -/

namespace LispRlm.NearMock

open Foundation Eff

/-! ### Journals -/

def Event.enters (j : Nat) : Event → Bool
  | .entered i => i == j
  | _ => false

/-- How a visit goes on: the batch waits, fails by request, is a yield, or runs. -/
def Event.settles (j : Nat) : Event → Bool
  | .deferred i => i == j
  | .forced i => i == j
  | .inert i => i == j
  | .ran i _ => i == j
  | _ => false

/-- The engine goes one call deeper. -/
def Event.deepens : Event → Bool
  | .entered _ => true
  | .resumed .. => true
  | _ => false

def Event.pushes : Event → Bool
  | .pushed .. => true
  | _ => false

/-- Visits to `j` that have not gone on yet. -/
def openVisits (journal : List Event) (j : Nat) : Int :=
  (journal.countP (Event.enters j) : Int) - (journal.countP (Event.settles j) : Int)

/-- What an event relies on. -/
def Justified (before : List Event) : Event → Prop
  | .entered j => ∀ out, .resolved j out ∉ before
  | .inert j => ∃ deps, .pushed j deps true ∈ before
  | .ran j results => ∃ deps outs, .pushed j deps false ∈ before ∧
      List.Forall₂ (fun d out => Event.resolved d out ∈ before) deps outs ∧ results = outs.flatten
  | .resolved j _ => ∃ e ∈ before, e.settles j = true
  | .resumed idx true _ => ∃ deps, .pushed idx deps true ∈ before
  | .delivered idx _ payload _ => ∃ own, .resumed idx own payload ∈ before
  | _ => True

/-- Every event of the journal had what it relies on. -/
def WellFounded (journal : List Event) : Prop :=
  ∀ before e after, journal = before ++ e :: after → Justified before e

def HasFailed (t : Thread) : Prop := .engineFailed ∈ t.journal

/-- Calls that went deeper. -/
def depth (t : Thread) : Nat := t.journal.countP Event.deepens

theorem openVisits_snoc (journal : List Event) (e : Event) (j : Nat) :
    openVisits (journal ++ [e]) j =
      openVisits journal j + (if e.enters j then 1 else 0) - (if e.settles j then 1 else 0) := by
  simp only [openVisits, List.countP_append, List.countP_singleton]
  split <;> split <;> push_cast <;> omega

theorem WellFounded.snoc {journal : List Event} {e : Event} (h : WellFounded journal)
    (justified : Justified journal e) : WellFounded (journal ++ [e]) := by
  intro before e' after split
  rcases List.eq_nil_or_concat after with rfl | ⟨rest, last, rfl⟩
  · obtain ⟨rfl, same⟩ := List.append_inj' split rfl
    cases same
    exact justified
  · rw [List.concat_eq_append, ← List.cons_append, ← List.append_assoc] at split
    exact h before e' rest (List.append_inj' split rfl).1

/-! ### Threads -/

/-- The promise state and the journal tell the same story. -/
structure Recorded (t : Thread) : Prop where
  memo : ∀ j out, t.outcomes.lookup j = some out → .resolved j out ∈ t.journal
  resolved : ∀ j out, .resolved j out ∈ t.journal → (t.outcomes.lookup j).isSome
  pushed : ∀ j batch, t.dag[j]? = some batch → .pushed j batch.deps batch.isYield ∈ t.journal
  pushes : t.dag.length ≤ t.journal.countP Event.pushes
  wellFounded : WellFounded t.journal

def Visited (j : Nat) (journal : List Event) : Prop :=
  .entered j ∈ journal ∨ ∃ out, .resolved j out ∈ journal

/-- What every part of the engine keeps, if calls may go `fuel` deep. `credit` are the visits it
lets go on that were open before. -/
structure Track (fuel : Nat) (credit : Nat → Int) (t : Thread) (stop : Option Stop) (t' : Thread) :
    Prop where
  recorded : Recorded t'
  grows : t.journal <+: t'.journal
  opened : ∀ j, openVisits t.journal j ≤ openVisits t'.journal j + credit j
  closed : stop = none → HasFailed t' ∨
    ∀ j, openVisits t.journal j = openVisits t'.journal j + credit j
  failed : ∀ why, stop = some (.err why) → HasFailed t'
  known : stop ≠ some .outOfFuel → ∀ j ∈ t'.executed, j ∈ t.executed ∨ Visited j t'.journal
  deep : stop = some .outOfFuel → depth t + fuel ≤ depth t'

/-- From a thread that tells one story, with no visit open before. -/
def Tracks (fuel : Nat) (t : Thread) (stop : Option Stop) (t' : Thread) : Prop :=
  Recorded t → Track fuel 0 t stop t'

theorem HasFailed.mono {t t' : Thread} (grows : t.journal <+: t'.journal) (h : HasFailed t) :
    HasFailed t' :=
  grows.subset h

theorem Visited.mono {j : Nat} {journal journal' : List Event} (grows : journal <+: journal')
    (h : Visited j journal) : Visited j journal' :=
  h.imp (fun e => grows.subset e) fun ⟨out, e⟩ => ⟨out, grows.subset e⟩

theorem depth_mono {t t' : Thread} (grows : t.journal <+: t'.journal) : depth t ≤ depth t' :=
  grows.sublist.countP_le

theorem Track.trans {fuel : Nat} {credit₁ credit₂ : Nat → Int} {a b c : Thread}
    {stop : Option Stop} (first : Track fuel credit₁ a none b)
    (second : Track fuel credit₂ b stop c) : Track fuel (credit₁ + credit₂) a stop c where
  recorded := second.recorded
  grows := first.grows.trans second.grows
  opened := by
    intro j
    have one := first.opened j
    have two := second.opened j
    simp only [Pi.add_apply]
    omega
  closed := by
    intro ok
    rcases first.closed rfl with failed | one
    · exact .inl (failed.mono second.grows)
    · rcases second.closed ok with failed | two
      · exact .inl failed
      · right
        intro j
        have one := one j
        have two := two j
        simp only [Pi.add_apply]
        omega
  failed := second.failed
  known := by
    intro out j member
    rcases second.known out j member with before | visited
    · exact (first.known (by simp) j before).imp id (Visited.mono second.grows)
    · exact .inr visited
  deep := fun out => (Nat.add_le_add_right (depth_mono first.grows) fuel).trans (second.deep out)

/-- What follows lets no visit go on from outside. -/
theorem Track.andThen {fuel : Nat} {credit : Nat → Int} {a b c : Thread} {stop : Option Stop}
    (first : Track fuel credit a none b) (second : Track fuel 0 b stop c) :
    Track fuel credit a stop c := by
  simpa using first.trans second

section Small

variable {fuel : Nat} {credit : Nat → Int} {t t' : Thread} {e : Event}

theorem Track.refl (recorded : Recorded t) : Track fuel 0 t none t :=
  ⟨recorded, List.prefix_rfl, by simp, fun _ => .inr (by simp), by simp,
    fun _ _ => .inl, by simp⟩

theorem Recorded.of_same (h : Recorded t) (journal : t'.journal = t.journal)
    (dag : t'.dag = t.dag) (outcomes : t'.outcomes = t.outcomes) : Recorded t' := by
  constructor <;> rw [journal]
  · rw [outcomes]; exact h.memo
  · rw [outcomes]; exact h.resolved
  · rw [dag]; exact h.pushed
  · rw [dag]; exact h.pushes
  · exact h.wellFounded

/-- An update that concerns none of this. -/
theorem Track.of_same (recorded : Recorded t) (journal : t'.journal = t.journal)
    (dag : t'.dag = t.dag) (executed : t'.executed = t.executed)
    (outcomes : t'.outcomes = t.outcomes) : Track fuel 0 t none t' where
  recorded := recorded.of_same journal dag outcomes
  grows := by rw [journal]
  opened := by simp [journal]
  closed := fun _ => .inr (by simp [journal])
  failed := by simp
  known := fun _ j member => .inl (executed ▸ member)
  deep := by simp

theorem Recorded.note (h : Recorded t) (fresh : ∀ j out, e ≠ .resolved j out)
    (justified : Justified t.journal e) : Recorded { t with journal := t.journal ++ [e] } where
  memo := fun j out found => List.mem_append_left _ (h.memo j out found)
  resolved := by
    intro j out member
    rcases List.mem_append.mp member with member | member
    · exact h.resolved j out member
    · exact absurd (List.mem_singleton.mp member).symm (fresh j out)
  pushed := fun j batch found => List.mem_append_left _ (h.pushed j batch found)
  pushes := by
    have before := h.pushes
    simp only [List.countP_append]
    omega
  wellFounded := h.wellFounded.snoc justified

/-- A note, given the visits it opens or lets go on. -/
theorem Track.of_note (recorded : Recorded t)
    (shift : ∀ j, openVisits t.journal j = openVisits (t.journal ++ [e]) j + credit j)
    (fresh : ∀ j out, e ≠ .resolved j out) (justified : Justified t.journal e) :
    Track fuel credit t none { t with journal := t.journal ++ [e] } where
  recorded := recorded.note fresh justified
  grows := List.prefix_append _ _
  opened := fun j => (shift j).le
  closed := fun _ => .inr shift
  failed := by simp
  known := fun _ _ => .inl
  deep := by simp

/-- Events that say nothing of a batch's visits. -/
def Event.Plain (e : Event) : Prop :=
  (∀ j, e.enters j = false ∧ e.settles j = false ∧ ∀ out, e ≠ .resolved j out) ∧
    ∀ before, Justified before e

theorem Track.of_plain (recorded : Recorded t) (plain : e.Plain) :
    Track fuel 0 t none { t with journal := t.journal ++ [e] } :=
  .of_note recorded (fun j => by simp [openVisits_snoc, plain.1 j])
    (fun j => (plain.1 j).2.2) (plain.2 _)

theorem Recorded.push (h : Recorded t) (batch : PromiseBatch) :
    Recorded { t with
      dag := t.dag ++ [batch]
      journal := t.journal ++ [.pushed t.dag.length batch.deps batch.isYield] } := by
  have noted := h.note (e := .pushed t.dag.length batch.deps batch.isYield) (by simp) trivial
  refine ⟨noted.memo, noted.resolved, fun j found at' => ?_, ?_, noted.wellFounded⟩
  · rcases Nat.lt_or_ge j t.dag.length with old | new
    · exact noted.pushed j found (by simpa [List.getElem?_append_left old] using at')
    · rw [List.getElem?_append_right new] at at'
      have last : j = t.dag.length := by
        have bound := (List.getElem?_eq_some_iff.mp at').1
        simp at bound
        omega
      subst last
      have same : batch = found := by simpa using at'
      simp [same]
  · have before := h.pushes
    simp only [List.length_append, List.length_singleton, List.countP_append,
      List.countP_singleton, Event.pushes, if_true]
    omega

theorem Recorded.extend (h : Recorded t) (idx : Nat) (action : PAction) :
    Recorded { t with dag := pushAction idx action t.dag } := by
  refine ⟨h.memo, h.resolved, fun j found at' => ?_, by simpa [pushAction] using h.pushes,
    h.wellFounded⟩
  rw [pushAction, List.getElem?_modify] at at'
  obtain ⟨batch, before, rfl⟩ := Option.map_eq_some_iff.mp at'
  have recorded := h.pushed j batch before
  split <;> exact recorded

end Small

namespace Tracks

variable {fuel : Nat} {t t' : Thread} {stop : Option Stop}

theorem composes (fuel : Nat) : Composes (Tracks fuel) where
  refl := fun _ recorded => .refl recorded
  trans := by
    intro a b c stop first second recorded
    have step := first recorded
    simpa using step.trans (second step.recorded)

theorem of_hostStep (h : HostStep t t') : Tracks fuel t none t' := by
  intro recorded
  cases h with
  | scratch => exact .of_same recorded rfl rfl rfl rfl
  | read cell => exact .of_plain recorded ⟨fun _ => ⟨rfl, rfl, by simp⟩, fun _ => trivial⟩
  | wrote cell => exact .of_plain recorded ⟨fun _ => ⟨rfl, rfl, by simp⟩, fun _ => trivial⟩
  | moved step =>
      have noted : (Event.moved step t.storage).Plain :=
        ⟨fun _ => ⟨rfl, rfl, by simp⟩, fun _ => trivial⟩
      have first : Track fuel 0 t none _ := .of_plain recorded noted
      have second : Track fuel 0 _ none
          { t with storage := step.apply t.storage, journal := t.journal ++ [.moved step t.storage] } :=
        .of_same first.recorded rfl rfl rfl rfl
      exact first.andThen second
  | pushed batch =>
      refine ⟨recorded.push batch, List.prefix_append _ _, fun j => ?_, fun _ => .inr fun j => ?_,
        by simp, fun _ _ => .inl, by simp⟩
      · simp [openVisits_snoc, Event.enters, Event.settles]
      · simp [openVisits_snoc, Event.enters, Event.settles]
  | extended idx action =>
      exact ⟨recorded.extend idx action, List.prefix_rfl, by simp, fun _ => .inr (by simp), by simp,
        fun _ _ => .inl, by simp⟩

theorem of_hostSteps (h : HostSteps t t') : Tracks fuel t none t' := by
  induction h with
  | refl => exact (composes fuel).refl t
  | tail _ step ih => exact (composes fuel).trans ih (of_hostStep step)

/-- A run that is tracked up to its end is tracked if it panics there. -/
theorem panics (h : Tracks fuel t none t') : Tracks fuel t (some .panic) t' := by
  intro recorded
  have step := h recorded
  exact ⟨step.recorded, step.grows, step.opened, by simp, by simp,
    fun _ => step.known (by simp), by simp⟩

theorem framed (fuel : Nat) : Framed (Tracks fuel) where
  composes := composes fuel
  host := by
    rintro t stop t' ⟨steps, rfl | rfl⟩
    · exact of_hostSteps steps
    · exact (of_hostSteps steps).panics
  silent := by
    intro t t' same recorded
    obtain ⟨-, journal, dag, executed, outcomes⟩ := same.fields
    exact .of_same recorded journal dag executed outcomes
  minor := by
    intro t e minor recorded
    refine .of_plain recorded ?_
    cases e with
    | readYieldsOf | listedJoins | firesJoins | turn | skipped =>
        exact ⟨fun _ => ⟨rfl, rfl, by simp⟩, fun _ => trivial⟩
    | _ => cases minor
  failed := by
    intro t why recorded
    have noted : Event.engineFailed.Plain := ⟨fun _ => ⟨rfl, rfl, by simp⟩, fun _ => trivial⟩
    have step : Track fuel 0 t none _ := .of_plain recorded noted
    exact ⟨step.recorded, step.grows, step.opened, by simp,
      fun _ _ => by simp [HasFailed], fun _ => step.known (by simp), by simp⟩
  caught := by
    intro t why t' run recorded
    have step := run recorded
    exact ⟨step.recorded, step.grows, step.opened,
      fun _ => .inl (step.failed why rfl), by simp, fun _ => step.known (by simp), by simp⟩

end Tracks

/-! ### Computations that rely on what the journal holds -/

/-- From a journal with `F`, a run that returns leaves a journal with `G`. -/
def Under (fuel : Nat) (credit : Nat → Int) (F G : List Event → Prop) (t : Thread)
    (stop : Option Stop) (t' : Thread) : Prop :=
  Recorded t → F t.journal → Track fuel credit t stop t' ∧ (stop = none → G t'.journal)

/-- What a journal holds, a longer one holds too. -/
def Lasting (F : List Event → Prop) : Prop := ∀ journal new, F journal → F (journal ++ new)

theorem Lasting.mono {F : List Event → Prop} (h : Lasting F) {t t' : Thread}
    (grows : t.journal <+: t'.journal) (holds : F t.journal) : F t'.journal := by
  obtain ⟨new, extended⟩ := grows
  exact extended ▸ h _ new holds

theorem lasting_mem (e : Event) : Lasting fun journal => e ∈ journal :=
  fun _ _ member => List.mem_append_left _ member

theorem Lasting.and {F G : List Event → Prop} (hF : Lasting F) (hG : Lasting G) :
    Lasting fun journal => F journal ∧ G journal :=
  fun journal new h => ⟨hF journal new h.1, hG journal new h.2⟩

theorem Track.weaken {fuel : Nat} {credit more : Nat → Int} {t t' : Thread} {stop : Stop}
    (h : Track fuel credit t (some stop) t') (nonneg : ∀ j, 0 ≤ more j) :
    Track fuel (credit + more) t (some stop) t' where
  recorded := h.recorded
  grows := h.grows
  opened := by
    intro j
    have before := h.opened j
    have more := nonneg j
    simp only [Pi.add_apply]
    omega
  closed := by simp
  failed := h.failed
  known := h.known
  deep := h.deep

/-- The call went one deeper on the way. -/
theorem Track.deeper {fuel n : Nat} {credit₁ credit₂ : Nat → Int} {a b c : Thread}
    {stop : Option Stop} (first : Track n credit₁ a none b) (gain : depth a + 1 ≤ depth b)
    (second : Track fuel credit₂ b stop c) : Track (fuel + 1) (credit₁ + credit₂) a stop c := by
  have whole := Track.trans
    ⟨first.recorded, first.grows, first.opened, first.closed, first.failed,
      first.known, by simp⟩ second
  refine ⟨whole.recorded, whole.grows, whole.opened, whole.closed,
    whole.failed, whole.known, fun out => ?_⟩
  have rest := second.deep out
  omega

/-- A visit to the batch has gone on. -/
def Settled (idx : Nat) (journal : List Event) : Prop := ∃ e ∈ journal, e.settles idx = true

namespace Under

variable {α β : Type} {fuel : Nat} {credit₁ credit₂ : Nat → Int} {F G H : List Event → Prop}

theorem of_tracks {m : Run α} (hm : Takes (Tracks fuel) m) (lasting : Lasting F) :
    Takes (Under fuel 0 F F) m := by
  intro t recorded holds
  have step := hm t recorded
  exact ⟨step, fun _ => lasting.mono step.grows holds⟩

/-- What is learned from the value of the first part goes into the second. -/
theorem bind_value {m : Run α} {k : α → Run β} {G : α → List Event → Prop}
    (hm : ∀ t, Recorded t → F t.journal →
      Track fuel credit₁ t (stopOf (m t)) (endState (m t)) ∧
        ∀ a t', m t = .ok a t' → G a t'.journal)
    (hk : ∀ a, Takes (Under fuel credit₂ (G a) H) (k a)) (nonneg : ∀ j, 0 ≤ credit₂ j) :
    Takes (Under fuel (credit₁ + credit₂) F H) (m >>= k) := by
  intro t recorded holds
  obtain ⟨step, learned⟩ := hm t recorded holds
  rw [bind_run]
  cases ran : m t with
  | ok a t' =>
      rw [ran] at step
      obtain ⟨rest, ends⟩ := hk a t' step.recorded (learned a t' ran)
      exact ⟨step.trans rest, ends⟩
  | error e t' =>
      rw [ran] at step
      exact ⟨step.weaken nonneg, by simp [stopOf]⟩

theorem bind {m : Run α} {k : α → Run β} (hm : Takes (Under fuel credit₁ F G) m)
    (hk : ∀ a, Takes (Under fuel credit₂ G H) (k a)) (nonneg : ∀ j, 0 ≤ credit₂ j) :
    Takes (Under fuel (credit₁ + credit₂) F H) (m >>= k) := by
  refine bind_value (G := fun _ => G) (fun t recorded holds => ?_) hk nonneg
  obtain ⟨step, ends⟩ := hm t recorded holds
  refine ⟨step, fun a t' ran => ?_⟩
  rw [ran] at ends
  exact ends rfl

/-- A first part that lets no visit go on. -/
theorem first {m : Run α} {k : α → Run β} (hm : Takes (Under fuel 0 F G) m)
    (hk : ∀ a, Takes (Under fuel credit₂ G H) (k a)) (nonneg : ∀ j, 0 ≤ credit₂ j) :
    Takes (Under fuel credit₂ F H) (m >>= k) := by
  simpa using bind hm hk nonneg

theorem first_value {m : Run α} {k : α → Run β} {G : α → List Event → Prop}
    (hm : ∀ t, Recorded t → F t.journal → Track fuel 0 t (stopOf (m t)) (endState (m t)) ∧
      ∀ a t', m t = .ok a t' → G a t'.journal)
    (hk : ∀ a, Takes (Under fuel credit₂ (G a) H) (k a)) (nonneg : ∀ j, 0 ≤ credit₂ j) :
    Takes (Under fuel credit₂ F H) (m >>= k) := by
  simpa using bind_value hm hk nonneg

/-- A last part that lets no visit go on. -/
theorem last {m : Run α} {k : α → Run β} (hm : Takes (Under fuel credit₁ F G) m)
    (hk : ∀ a, Takes (Under fuel 0 G H) (k a)) : Takes (Under fuel credit₁ F H) (m >>= k) := by
  simpa using bind hm hk (by simp)

theorem note_settles {idx : Nat} {e : Event} (settles : ∀ j, e.settles j = (idx == j))
    (enters : ∀ j, e.enters j = false) (fresh : ∀ j out, e ≠ .resolved j out)
    (justified : ∀ journal, F journal → Justified journal e) (lasting : Lasting F) :
    Takes (Under fuel (Pi.single idx 1) F fun journal => F journal ∧ Settled idx journal)
      (note e) := by
  intro t recorded holds
  refine ⟨.of_note recorded (fun j => ?_) fresh (justified _ holds), fun _ => ⟨?_, e, ?_, ?_⟩⟩
  · rw [openVisits_snoc, enters, settles, Pi.single_apply]
    by_cases same : idx = j
    · simp [same]
    · simp [same, Ne.symm same]
  · exact lasting _ [e] holds
  · exact List.mem_append_right _ (List.mem_singleton.mpr rfl)
  · simp [settles]

/-- A batch that has been visited is marked as executed. -/
theorem markExecuted {idx : Nat} (visited : ∀ journal, F journal → Visited idx journal) :
    Takes (Under fuel 0 F F) (markExecuted idx) := by
  intro t recorded holds
  refine ⟨?_, fun _ => holds⟩
  change Track fuel 0 t none { t with executed := t.executed.insert idx }
  refine ⟨recorded.of_same rfl rfl rfl, List.prefix_rfl, by simp, fun _ => .inr (by simp),
    by simp, fun _ j member => ?_, by simp⟩
  rcases List.mem_insert_iff.mp member with rfl | before
  · exact .inr (visited _ holds)
  · exact .inl before

theorem ite {c : Prop} [Decidable c] {credit : Nat → Int} {m n : Run α}
    (hm : c → Takes (Under fuel credit F G) m) (hn : ¬c → Takes (Under fuel credit F G) n) :
    Takes (Under fuel credit F G) (if c then m else n) :=
  .ite hm hn

theorem of_pure (a : α) (ends : ∀ journal, F journal → G journal) :
    Takes (Under fuel 0 F G) (pure a : Run α) :=
  fun _ recorded holds => ⟨.refl recorded, fun _ => ends _ holds⟩

/-- What a journal holds throughout, the parts of the engine rely on. -/
theorem framed (fuel : Nat) (lasting : Lasting F) : Framed (Under fuel 0 F F) := by
  have hR := Tracks.framed fuel
  have kept : ∀ {t stop t'}, Tracks fuel t stop t' → Under fuel 0 F F t stop t' :=
    fun step recorded holds => ⟨step recorded, fun _ => lasting.mono (step recorded).grows holds⟩
  have composes : Composes (Under fuel 0 F F) := by
    constructor
    · exact fun t => kept (hR.composes.refl t)
    · intro a b c stop first second recorded holds
      obtain ⟨step, between⟩ := first recorded holds
      obtain ⟨rest, ends⟩ := second step.recorded (between rfl)
      exact ⟨step.andThen rest, ends⟩
  have calm : Calm (Under fuel 0 F F) := by
    constructor
    · exact composes
    · exact fun run => kept (hR.host run)
    · exact fun same => kept (hR.silent same)
    · exact fun t _ minor => kept (hR.minor t minor)
  refine ⟨calm, fun t why => kept (hR.failed t why), ?_⟩
  intro t why t' run recorded holds
  obtain ⟨step, -⟩ := run recorded holds
  have caught := hR.caught (fun _ => step) recorded
  exact ⟨caught, fun _ => lasting.mono step.grows holds⟩

/-- What is left to do, once `G` is settled. -/
theorem rest {m : Run α} (hm : Takes (Tracks fuel) m) (lasting : Lasting G)
    (settled : ∀ journal, F journal → G journal) : Takes (Under fuel 0 F G) m := by
  intro t recorded holds
  have step := hm t recorded
  exact ⟨step, fun _ => lasting.mono step.grows (settled _ holds)⟩

end Under

end LispRlm.NearMock
