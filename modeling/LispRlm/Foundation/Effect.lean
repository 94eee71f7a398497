import Mathlib.Logic.Basic
import Mathlib.Data.List.Basic

/-! Computations with a state and an exception that keeps the state.

The rules say what a whole computation keeps, given what its parts keep, and when two
computations agree from related states. -/

namespace LispRlm.Foundation

/-- A run ends in a state with a value or an exception. -/
abbrev Eff (σ ε α : Type) : Type := EStateM ε σ α

namespace Eff

variable {σ ε α β : Type}

/-- The state a run ends in. -/
def endState : EStateM.Result ε σ α → σ
  | .ok _ s => s
  | .error _ s => s

@[simp] theorem endState_ok (a : α) (s : σ) :
    endState (.ok a s : EStateM.Result ε σ α) = s := rfl

@[simp] theorem endState_error (e : ε) (s : σ) :
    endState (.error e s : EStateM.Result ε σ α) = s := rfl

/-- The value or the exception of a run. -/
def outcome : EStateM.Result ε σ α → Except ε α
  | .ok a _ => .ok a
  | .error e _ => .error e

@[simp] theorem outcome_ok (a : α) (s : σ) :
    outcome (.ok a s : EStateM.Result ε σ α) = .ok a := rfl

@[simp] theorem outcome_error (e : ε) (s : σ) :
    outcome (.error e s : EStateM.Result ε σ α) = .error e := rfl

/-- Turns the exceptions of `m` that pass `catches` into values. -/
def attempt (catches : ε → Bool) (m : Eff σ ε α) : Eff σ ε (Except ε α) := fun s =>
  match m s with
  | .ok a s' => .ok (.ok a) s'
  | .error e s' => if catches e then .ok (.error e) s' else .error e s'

/-- Runs `after` on the end state of `m`, also when `m` throws. -/
def leaving (m : Eff σ ε α) (after : σ → σ) : Eff σ ε α := fun s =>
  match m s with
  | .ok a s' => .ok a (after s')
  | .error e s' => .error e (after s')

@[simp] theorem pure_run (a : α) (s : σ) : (pure a : Eff σ ε α) s = .ok a s := rfl

@[simp] theorem get_run (s : σ) : (get : Eff σ ε σ) s = .ok s s := rfl

@[simp] theorem modify_run (f : σ → σ) (s : σ) :
    (modify f : Eff σ ε PUnit) s = .ok ⟨⟩ (f s) := rfl

@[simp] theorem throw_run (e : ε) (s : σ) : (throw e : Eff σ ε α) s = .error e s := rfl

theorem bind_run (m : Eff σ ε α) (k : α → Eff σ ε β) (s : σ) :
    (m >>= k) s = match m s with
      | .ok a s' => k a s'
      | .error e s' => .error e s' := by
  change EStateM.bind m k s = _
  unfold EStateM.bind
  cases m s <;> rfl

theorem bind_congr_run {m m' : Eff σ ε α} {k k' : α → Eff σ ε β} {s : σ}
    (first : m s = m' s) (later : ∀ a s', m' s = .ok a s' → k a s' = k' a s') :
    (m >>= k) s = (m' >>= k') s := by
  rw [bind_run, bind_run, first]
  cases run : m' s with
  | ok a s' => exact later a s' run
  | error e s' => rfl

theorem map_congr_run (f : α → β) {m m' : Eff σ ε α} {s : σ} (same : m s = m' s) :
    (f <$> m) s = (f <$> m') s := by
  rw [map_eq_pure_bind, map_eq_pure_bind]
  exact bind_congr_run same fun _ _ _ => rfl

theorem map_run (f : α → β) (m : Eff σ ε α) (s : σ) :
    (f <$> m) s = match m s with
      | .ok a s' => .ok (f a) s'
      | .error e s' => .error e s' := by
  rw [map_eq_pure_bind, bind_run]
  cases m s <;> rfl

theorem map_run_inj {f : α → β} (injective : ∀ {a b}, f a = f b → a = b)
    {m n : Eff σ ε α} {s : σ} : (f <$> m) s = (f <$> n) s ↔ m s = n s := by
  refine ⟨fun same => ?_, map_congr_run f⟩
  rw [map_run, map_run] at same
  cases hm : m s with
  | ok a s₁ =>
    cases hn : n s with
    | ok b s₂ =>
      rw [hm, hn] at same
      injection same with values states
      rw [injective values, states]
    | error e s₂ =>
      rw [hm, hn] at same
      cases same
  | error e s₁ =>
    cases hn : n s with
    | ok b s₂ =>
      rw [hm, hn] at same
      cases same
    | error e' s₂ =>
      rw [hm, hn] at same
      injection same with errors states
      rw [errors, states]

@[simp] theorem get_bind_run (k : σ → Eff σ ε β) (s : σ) : (get >>= k) s = k s s := rfl

@[simp] theorem modify_bind_run (f : σ → σ) (k : PUnit → Eff σ ε β) (s : σ) :
    (modify f >>= k) s = k ⟨⟩ (f s) := rfl

@[simp] theorem pure_bind_run (a : α) (k : α → Eff σ ε β) (s : σ) : (pure a >>= k) s = k a s := rfl

@[simp] theorem throw_bind_run (e : ε) (k : α → Eff σ ε β) (s : σ) :
    ((throw e : Eff σ ε α) >>= k) s = .error e s := rfl

/-- Every run of `m` ends in a state related by `R` to its start. -/
def Keeps (R : σ → σ → Prop) (m : Eff σ ε α) : Prop :=
  ∀ s, R s (endState (m s))

section Keeps

variable {R : σ → σ → Prop}

theorem Keeps.of_pure (refl : ∀ s, R s s) (a : α) : Keeps R (pure a : Eff σ ε α) :=
  fun s => refl s

theorem Keeps.of_get (refl : ∀ s, R s s) : Keeps R (get : Eff σ ε σ) :=
  fun s => refl s

theorem Keeps.of_throw (refl : ∀ s, R s s) (e : ε) : Keeps R (throw e : Eff σ ε α) :=
  fun s => refl s

theorem Keeps.of_modify {f : σ → σ} (step : ∀ s, R s (f s)) :
    Keeps R (modify f : Eff σ ε PUnit) :=
  fun s => step s

theorem Keeps.bind (trans : ∀ a b c, R a b → R b c → R a c) {m : Eff σ ε α}
    {k : α → Eff σ ε β} (hm : Keeps R m) (hk : ∀ a, Keeps R (k a)) : Keeps R (m >>= k) := by
  intro s
  have first := hm s
  rw [bind_run]
  cases hs : m s with
  | ok a s' =>
      rw [hs] at first
      exact trans _ _ _ first (hk a s')
  | error e s' =>
      rw [hs] at first
      exact first

/-- A read followed by a continuation that may use what was read. -/
theorem Keeps.get_bind {k : σ → Eff σ ε β} (hk : ∀ s, R s (endState (k s s))) :
    Keeps R (get >>= k) :=
  fun s => hk s

theorem Keeps.attempt {catches : ε → Bool} {m : Eff σ ε α} (hm : Keeps R m) :
    Keeps R (attempt catches m) := by
  intro s
  have inner := hm s
  unfold Eff.attempt
  cases hs : m s with
  | ok a s' =>
      rw [hs] at inner
      exact inner
  | error e s' =>
      rw [hs] at inner
      dsimp only
      split <;> exact inner

theorem Keeps.leaving (trans : ∀ a b c, R a b → R b c → R a c) {m : Eff σ ε α} {f : σ → σ}
    (hm : Keeps R m) (step : ∀ s, R s (f s)) : Keeps R (leaving m f) := by
  intro s
  have inner := hm s
  unfold Eff.leaving
  cases hs : m s <;> rw [hs] at inner <;> exact trans _ _ _ inner (step _)

/-- A computation between an update of the state and one on every way out. -/
theorem Keeps.bracket {m : Eff σ ε α} {f g : σ → σ} (hm : Keeps R m)
    (inside : ∀ s s', R (f s) s' → R s (g s')) :
    Keeps R (Eff.leaving (modify f >>= fun _ => m) g) := by
  intro s
  have inner := inside s _ (hm (f s))
  unfold Eff.leaving
  rw [modify_bind_run]
  cases hs : m (f s) <;> rw [hs] at inner <;> exact inner

theorem Keeps.mono {R' : σ → σ → Prop} (sub : ∀ {a b}, R a b → R' a b) {m : Eff σ ε α}
    (hm : Keeps R m) : Keeps R' m :=
  fun s => sub (hm s)

theorem Keeps.ite {c : Prop} [Decidable c] {m n : Eff σ ε α} (hm : c → Keeps R m)
    (hn : ¬c → Keeps R n) : Keeps R (if c then m else n) := by
  split
  · exact hm ‹c›
  · exact hn ‹¬c›

end Keeps

/-- The exception a run ends with, if any. -/
def stopOf : EStateM.Result ε σ α → Option ε
  | .ok _ _ => none
  | .error e _ => some e

/-- Relations between the state a run starts in, the way it stops, and the state it ends in, that
hold of a run in two parts if they hold of its parts. -/
structure Composes (R : σ → Option ε → σ → Prop) : Prop where
  refl : ∀ s, R s none s
  trans : ∀ {a b c e}, R a none b → R b e c → R a e c

/-- Every run of `m` is related by `R`. -/
def Takes (R : σ → Option ε → σ → Prop) (m : Eff σ ε α) : Prop :=
  ∀ s, R s (stopOf (m s)) (endState (m s))

namespace Takes

variable {R : σ → Option ε → σ → Prop}

theorem of_pure (hR : Composes R) (a : α) : Takes R (pure a : Eff σ ε α) := fun s => hR.refl s

theorem of_get (hR : Composes R) : Takes R (get : Eff σ ε σ) := fun s => hR.refl s

theorem of_throw {e : ε} (stops : ∀ s, R s (some e) s) : Takes R (throw e : Eff σ ε α) :=
  fun s => stops s

theorem of_modify {f : σ → σ} (step : ∀ s, R s none (f s)) :
    Takes R (modify f : Eff σ ε PUnit) :=
  fun s => step s

theorem bind (hR : Composes R) {m : Eff σ ε α} {k : α → Eff σ ε β} (hm : Takes R m)
    (hk : ∀ a, Takes R (k a)) : Takes R (m >>= k) := by
  intro s
  have first := hm s
  rw [bind_run]
  cases hs : m s with
  | ok a s' =>
      rw [hs] at first
      exact hR.trans first (hk a s')
  | error e s' =>
      rw [hs] at first
      exact first

/-- A read followed by a continuation that may use what was read. -/
theorem get_bind {k : σ → Eff σ ε β} (hk : ∀ s, R s (stopOf (k s s)) (endState (k s s))) :
    Takes R (get >>= k) :=
  fun s => hk s

theorem attempt {catches : ε → Bool} {m : Eff σ ε α} (hm : Takes R m)
    (caught : ∀ {s e s'}, catches e = true → R s (some e) s' → R s none s') :
    Takes R (attempt catches m) := by
  intro s
  have inner := hm s
  unfold Eff.attempt
  cases hs : m s with
  | ok a s' =>
      rw [hs] at inner
      exact inner
  | error e s' =>
      rw [hs] at inner
      dsimp only
      by_cases catching : catches e = true
      · rw [if_pos catching]
        exact caught catching inner
      · rw [if_neg catching]
        exact inner

/-- A computation between an update of the state and one on every way out. -/
theorem bracket {m : Eff σ ε α} {f g : σ → σ} (hm : Takes R m)
    (inside : ∀ s e s', R (f s) e s' → R s e (g s')) :
    Takes R (Eff.leaving (modify f >>= fun _ => m) g) := by
  intro s
  have inner := inside s _ _ (hm (f s))
  unfold Eff.leaving
  rw [modify_bind_run]
  cases hs : m (f s) <;> rw [hs] at inner <;> exact inner

theorem mono {R' : σ → Option ε → σ → Prop} (sub : ∀ {a e b}, R a e b → R' a e b)
    {m : Eff σ ε α} (hm : Takes R m) : Takes R' m :=
  fun s => sub (hm s)

theorem ite {c : Prop} [Decidable c] {m n : Eff σ ε α} (hm : c → Takes R m)
    (hn : ¬c → Takes R n) : Takes R (if c then m else n) := by
  split
  · exact hm ‹c›
  · exact hn ‹¬c›

end Takes

/-- Whenever `m` returns, its value and its end state satisfy `P`. -/
def Returns (P : α → σ → Prop) (m : Eff σ ε α) : Prop :=
  ∀ s a s', m s = .ok a s' → P a s'

section Returns

variable {P : β → σ → Prop}

theorem Returns.of_throw (e : ε) : Returns P (throw e : Eff σ ε β) := by
  intro s a s' returned
  cases returned

theorem Returns.bind {Q : α → σ → Prop} {m : Eff σ ε α} {k : α → Eff σ ε β} (hm : Returns Q m)
    (hk : ∀ a s, Q a s → ∀ b s', k a s = .ok b s' → P b s') : Returns P (m >>= k) := by
  intro s b s'' returned
  rw [bind_run] at returned
  cases hs : m s with
  | ok a s' =>
      rw [hs] at returned
      exact hk a s' (hm s a s' hs) b s'' returned
  | error e s' =>
      rw [hs] at returned
      cases returned

/-- Only the last part matters. -/
theorem Returns.after {m : Eff σ ε α} {k : α → Eff σ ε β} (hk : ∀ a, Returns P (k a)) :
    Returns P (m >>= k) :=
  .bind (Q := fun _ _ => True) (fun _ _ _ _ => trivial) fun a s _ b s' returned =>
    hk a s b s' returned

theorem Returns.of_keeps {R : σ → σ → Prop} {Q : σ → Prop} {m : Eff σ ε α} {k : α → Eff σ ε β}
    (hm : Returns (fun _ => Q) m) (hk : ∀ a, Keeps R (k a))
    (kept : ∀ {s s'}, R s s' → Q s → Q s') : Returns (fun _ => Q) (m >>= k) := by
  refine .bind hm fun a s before b s' returned => ?_
  have step := hk a s
  rw [returned] at step
  exact kept step before

end Returns

end Eff

end LispRlm.Foundation
