import Mathlib.Data.List.Basic

/-! Logs of the steps a system took, each with the state it was taken in. -/

namespace LispRlm.Foundation

variable {ι σ μ : Type} (apply : ι → σ → σ)

/-- `log` leads from `s` to `s'`: each step starts where the one before it ended. -/
def Replays (s : σ) : List (ι × σ) → σ → Prop
  | [], s' => s' = s
  | (step, before) :: rest, s' => before = s ∧ Replays (apply step s) rest s'

/-- The states a run with this log went through. -/
def visited (log : List (ι × σ)) (s' : σ) : List σ :=
  log.map Prod.snd ++ [s']

namespace Replays

variable {apply}

theorem refl (s : σ) : Replays apply s [] s := rfl

theorem single (step : ι) (s : σ) : Replays apply s [(step, s)] (apply step s) :=
  ⟨rfl, rfl⟩

theorem append {s₁ s₂ s₃ : σ} {first second : List (ι × σ)} (h₁ : Replays apply s₁ first s₂)
    (h₂ : Replays apply s₂ second s₃) : Replays apply s₁ (first ++ second) s₃ := by
  induction first generalizing s₁ with
  | nil =>
      cases h₁
      exact h₂
  | cons entry rest ih =>
      rcases entry with ⟨step, before⟩
      exact ⟨h₁.1, ih h₁.2⟩

/-- A quantity is the same in every visited state exactly when every logged step keeps it. -/
theorem constant_iff {s s' : σ} {log : List (ι × σ)} (h : Replays apply s log s') (f : σ → μ) :
    (∀ t ∈ visited log s', f t = f s) ↔
      ∀ entry ∈ log, f (apply entry.1 entry.2) = f entry.2 := by
  induction log generalizing s with
  | nil =>
      cases h
      simp [visited]
  | cons entry rest ih =>
      rcases entry with ⟨step, before⟩
      obtain ⟨rfl, tail⟩ := h
      have later := ih tail
      constructor
      · intro all
        have next : f (apply step before) = f before := by
          cases rest with
          | nil =>
              cases tail
              exact all _ (by simp [visited])
          | cons entry' rest' =>
              obtain ⟨here, -⟩ := tail
              rw [← here]
              exact all _ (by simp [visited])
        intro entry member
        rcases List.mem_cons.mp member with rfl | member
        · exact next
        · refine later.mp (fun t visit => ?_) entry member
          rw [next]
          refine all t ?_
          simp only [visited, List.map_cons, List.cons_append, List.mem_cons]
          exact .inr visit
      · intro each t visit
        simp only [visited, List.map_cons, List.cons_append, List.mem_cons] at visit
        rcases visit with rfl | visit
        · rfl
        · have next : f (apply step before) = f before := each (step, before) (by simp)
          rw [← next]
          exact later.mpr (fun entry member => each entry (by simp [member])) t visit

end Replays

end LispRlm.Foundation
