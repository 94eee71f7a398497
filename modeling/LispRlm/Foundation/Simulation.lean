import Mathlib.Data.List.Basic

/-! Two machines that take the same inputs, compared step by step. -/

namespace LispRlm.Foundation

variable {σ τ ι ω : Type}

/-- The outputs of a run and the state it ends in. -/
def runAll (step : ι → σ → ω × σ) : List ι → σ → List ω × σ
  | [], s => ([], s)
  | i :: rest, s =>
      let (out, next) := step i s
      let (outs, last) := runAll step rest next
      (out :: outs, last)

/-- Every step of the run meets a condition on the state it starts from. -/
def AllSteps (step : ι → σ → ω × σ) (good : ι → σ → Prop) : List ι → σ → Prop
  | [], _ => True
  | i :: rest, s => good i s ∧ AllSteps step good rest (step i s).2

instance decidableAllSteps (step : ι → σ → ω × σ) (good : ι → σ → Prop)
    [each : ∀ i s, Decidable (good i s)] :
    (inputs : List ι) → (s : σ) → Decidable (AllSteps step good inputs s)
  | [], _ => .isTrue trivial
  | i :: rest, s =>
      @instDecidableAnd _ _ (each i s) (decidableAllSteps step good rest (step i s).2)

/-- Both machines at once. -/
def both (first : ι → σ → ω × σ) (second : ι → τ → ω × τ) (i : ι) (p : σ × τ) :
    (ω × ω) × (σ × τ) :=
  (((first i p.1).1, (second i p.2).1), ((first i p.1).2, (second i p.2).2))

/-- Machines whose steps agree from related states, where a condition on both states holds, agree
on every run whose steps meet it. -/
theorem runAll_agree {first : ι → σ → ω × σ} {second : ι → τ → ω × τ} {R : σ → τ → Prop}
    {good : ι → σ × τ → Prop}
    (agree : ∀ i s t, R s t → good i (s, t) →
      (first i s).1 = (second i t).1 ∧ R (first i s).2 (second i t).2)
    (inputs : List ι) (s : σ) (t : τ) (related : R s t)
    (all : AllSteps (both first second) good inputs (s, t)) :
    (runAll first inputs s).1 = (runAll second inputs t).1 ∧
      R (runAll first inputs s).2 (runAll second inputs t).2 := by
  induction inputs generalizing s t with
  | nil => exact ⟨rfl, related⟩
  | cons i rest ih =>
      obtain ⟨here, later⟩ := all
      obtain ⟨out, next⟩ := agree i s t related here
      obtain ⟨outs, last⟩ := ih _ _ next later
      exact ⟨congrArg₂ List.cons out outs, last⟩

/-- The condition looks at the first machine only. -/
theorem runAll_simulates {first : ι → σ → ω × σ} {second : ι → τ → ω × τ} {R : σ → τ → Prop}
    {good : ι → σ → Prop}
    (agree : ∀ i s t, R s t → good i s →
      (first i s).1 = (second i t).1 ∧ R (first i s).2 (second i t).2)
    (inputs : List ι) (s : σ) (t : τ) (related : R s t) (all : AllSteps first good inputs s) :
    (runAll first inputs s).1 = (runAll second inputs t).1 ∧
      R (runAll first inputs s).2 (runAll second inputs t).2 := by
  have paired : AllSteps (both first second) (fun i p => good i p.1) inputs (s, t) := by
    clear related
    induction inputs generalizing s t with
    | nil => trivial
    | cons i rest ih => exact ⟨all.1, ih _ _ all.2⟩
  exact runAll_agree agree inputs s t related paired

end LispRlm.Foundation
