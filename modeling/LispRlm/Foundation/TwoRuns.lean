import LispRlm.Foundation.Effect

/-! Two runs of one computation from related states.

The runs end alike unless the first goes through a bad state. What a state must not lose on the
way, so that a bad state stays visible at the end, is `grows`. -/

namespace LispRlm.Foundation

/-- What is compared between two runs. -/
structure Observer (σ : Type) where
  related : σ → σ → Prop
  related_refl : ∀ s, related s s
  bad : σ → Prop
  grows : σ → σ → Prop
  grows_refl : ∀ s, grows s s
  grows_trans : ∀ a b c, grows a b → grows b c → grows a c
  bad_grows : ∀ {s s'}, grows s s' → bad s → bad s'

namespace Eff

variable {σ ε α β : Type}

inductive EndsAlike (related : σ → σ → Prop) (V : α → α → Prop) :
    EStateM.Result ε σ α → EStateM.Result ε σ α → Prop
  | ok {a b : α} {s t : σ} (value : V a b) (state : related s t) :
      EndsAlike related V (.ok a s) (.ok b t)
  | error {e : ε} {s t : σ} (state : related s t) : EndsAlike related V (.error e s) (.error e t)

structure Matches (o : Observer σ) (V : α → α → Prop) (m n : Eff σ ε α) : Prop where
  keeps : Keeps o.grows m
  ends : ∀ s t, o.related s t → o.bad (endState (m s)) ∨ EndsAlike o.related V (m s) (n t)

namespace Matches

variable {o : Observer σ} {V : α → α → Prop} {W : β → β → Prop}

theorem of_pure {a b : α} (h : V a b) : Matches o V (pure a : Eff σ ε α) (pure b) :=
  ⟨.of_pure o.grows_refl a, fun _ _ rel => .inr (.ok h rel)⟩

theorem of_throw (e : ε) : Matches o V (throw e : Eff σ ε α) (throw e) :=
  ⟨.of_throw o.grows_refl e, fun _ _ rel => .inr (.error rel)⟩

theorem of_modify {f g : σ → σ} (grows : ∀ s, o.grows s (f s))
    (step : ∀ s t, o.related s t → o.bad (f s) ∨ o.related (f s) (g t)) :
    Matches o (fun _ _ => True) (modify f : Eff σ ε PUnit) (modify g) where
  keeps := .of_modify grows
  ends := fun s t rel => (step s t rel).imp id fun rel' => .ok trivial rel'

/-- The values the first part may end with are related to themselves, so that what follows keeps
growing whatever the second run does. -/
theorem bind {m n : Eff σ ε α} {k l : α → Eff σ ε β} (refl : ∀ a, V a a) (hm : Matches o V m n)
    (hk : ∀ a b, V a b → Matches o W (k a) (l b)) : Matches o W (m >>= k) (n >>= l) where
  keeps := .bind o.grows_trans hm.keeps fun a => (hk a a (refl a)).keeps
  ends := by
    intro s t rel
    rw [bind_run, bind_run]
    rcases hm.ends s t rel with bad | alike
    · left
      cases hs : m s with
      | ok a s' =>
          rw [hs] at bad
          exact o.bad_grows ((hk a a (refl a)).keeps s') bad
      | error e s' =>
          rw [hs] at bad
          exact bad
    · generalize m s = first at alike ⊢
      generalize n t = second at alike ⊢
      cases alike with
      | ok value state => exact (hk _ _ value).ends _ _ state
      | error state => exact .inr (.error state)

theorem bind_eq {m n : Eff σ ε α} {k l : α → Eff σ ε β} (hm : Matches o Eq m n)
    (hk : ∀ a, Matches o W (k a) (l a)) : Matches o W (m >>= k) (n >>= l) :=
  bind (fun _ => rfl) hm fun a _ same => same ▸ hk a

theorem bind_unit {m n : Eff σ ε PUnit} {k l : PUnit → Eff σ ε β}
    (hm : Matches o (fun _ _ => True) m n) (hk : Matches o W (k ⟨⟩) (l ⟨⟩)) :
    Matches o W (m >>= k) (n >>= l) :=
  bind (fun _ => trivial) hm fun _ _ _ => hk

/-- A computation that starts by reading the state. -/
theorem get_bind {k l : σ → Eff σ ε β}
    (h : ∀ s t, o.related s t → Matches o W (k s) (l t)) :
    Matches o W (get >>= k) (get >>= l) where
  keeps := .get_bind fun s => (h s s (o.related_refl s)).keeps s
  ends := fun s t rel => (h s t rel).ends s t rel

theorem attempt {catches : ε → Bool} {m n : Eff σ ε α} (hm : Matches o Eq m n) :
    Matches o Eq (attempt catches m) (attempt catches n) where
  keeps := hm.keeps.attempt
  ends := by
    intro s t rel
    rcases hm.ends s t rel with bad | alike
    · left
      unfold Eff.attempt
      cases hs : m s with
      | ok a s' => rwa [hs] at bad
      | error e s' =>
          rw [hs] at bad
          dsimp only
          split <;> exact bad
    · right
      unfold Eff.attempt
      generalize m s = first at alike ⊢
      generalize n t = second at alike ⊢
      cases alike with
      | ok value state => exact .ok (congrArg _ value) state
      | error state =>
          dsimp only
          split
          · exact .ok rfl state
          · exact .error state

/-- A computation between an update of the state and one on every way out. -/
theorem bracket {m n : Eff σ ε α} {f g : σ → σ} (hm : Matches o V m n)
    (inside : ∀ s s', o.grows (f s) s' → o.grows s (g s'))
    (enter : ∀ s t, o.related s t → o.related (f s) (f t))
    (leave : ∀ s t, o.related s t → o.related (g s) (g t))
    (badly : ∀ s, o.bad s → o.bad (g s)) :
    Matches o V (Eff.leaving (modify f >>= fun _ => m) g)
      (Eff.leaving (modify f >>= fun _ => n) g) where
  keeps := .bracket hm.keeps inside
  ends := by
    intro s t rel
    unfold Eff.leaving
    rw [modify_bind_run, modify_bind_run]
    rcases hm.ends _ _ (enter s t rel) with bad | alike
    · left
      cases hs : m (f s) <;> rw [hs] at bad <;> exact badly _ bad
    · right
      generalize m (f s) = first at alike ⊢
      generalize n (f t) = second at alike ⊢
      cases alike with
      | ok value state => exact .ok value (leave _ _ state)
      | error state => exact .error (leave _ _ state)

theorem ite {c : Prop} [Decidable c] {m n m' n' : Eff σ ε α} (hm : c → Matches o V m m')
    (hn : ¬c → Matches o V n n') :
    Matches o V (if c then m else n) (if c then m' else n') := by
  split
  · exact hm ‹c›
  · exact hn ‹¬c›

theorem mono {V' : α → α → Prop} {m n : Eff σ ε α} (hm : Matches o V m n)
    (sub : ∀ a b, V a b → V' a b) : Matches o V' m n where
  keeps := hm.keeps
  ends := by
    intro s t rel
    refine (hm.ends s t rel).imp id fun alike => ?_
    generalize m s = first at alike ⊢
    generalize n t = second at alike ⊢
    cases alike with
    | ok value state => exact .ok (sub _ _ value) state
    | error state => exact .error state

/-- A computation done for each element of a list, in order. -/
theorem mapM {ι : Type} {f g : ι → Eff σ ε α} (xs : List ι)
    (each : ∀ x ∈ xs, Matches o Eq (f x) (g x)) : Matches o Eq (xs.mapM f) (xs.mapM g) := by
  induction xs with
  | nil => exact of_pure rfl
  | cons x xs ih =>
      rw [List.mapM_cons, List.mapM_cons]
      refine bind_eq (each x (List.mem_cons_self ..)) fun a => ?_
      refine bind_eq (ih fun y hy => each y (List.mem_cons_of_mem x hy)) fun as => ?_
      exact of_pure rfl

theorem forM {ι : Type} {f g : ι → Eff σ ε PUnit} (xs : List ι)
    (each : ∀ x ∈ xs, Matches o Eq (f x) (g x)) : Matches o Eq (xs.forM f) (xs.forM g) := by
  induction xs with
  | nil => exact of_pure rfl
  | cons x xs ih =>
      unfold List.forM
      refine bind_eq (each x (List.mem_cons_self ..)) fun _ => ?_
      exact ih fun y hy => each y (List.mem_cons_of_mem x hy)

end Matches

end Eff

end LispRlm.Foundation
