import Mathlib.Data.List.Basic
import Mathlib.Order.Defs.LinearOrder
import Mathlib.Order.Lattice

/-! Cursors over a fixed listing, where what is listed may live or not at each call. -/

namespace LispRlm.Foundation

universe u

namespace Cursor

variable {α : Type u}

/-- What a call finds in the rest of a listing, and the rest after it. -/
def next (live : α → Bool) : List α → Option α × List α
  | [] => (none, [])
  | k :: rest => if live k then (some k, rest) else next live rest

/-- The results of the calls, one for each state of liveness. -/
def results : List α → List (α → Bool) → List (Option α)
  | _, [] => []
  | rest, live :: lives => (next live rest).1 :: results (next live rest).2 lives

/-- What was passed over does not live. -/
theorem next_some {live : α → Bool} {listing rest : List α} {k : α}
    (found : next live listing = (some k, rest)) :
    live k = true ∧ ∃ passed, listing = passed ++ k :: rest ∧ ∀ x ∈ passed, live x = false := by
  induction listing with
  | nil => cases found
  | cons y listing ih =>
    rw [next] at found
    split at found
    · rename_i alive
      cases found
      exact ⟨alive, [], rfl, fun _ mem => absurd mem List.not_mem_nil⟩
    · rename_i dead
      rcases ih found with ⟨alive, passed, rfl, deadPassed⟩
      refine ⟨alive, y :: passed, rfl, ?_⟩
      intro x mem
      rcases List.mem_cons.mp mem with rfl | mem
      · exact Bool.eq_false_iff.mpr dead
      · exact deadPassed x mem

theorem next_none {live : α → Bool} {listing rest : List α}
    (found : next live listing = (none, rest)) : rest = [] ∧ ∀ x ∈ listing, live x = false := by
  induction listing with
  | nil =>
    cases found
    exact ⟨rfl, fun _ mem => absurd mem List.not_mem_nil⟩
  | cons y listing ih =>
    rw [next] at found
    split at found
    · cases found
    · rename_i dead
      rcases ih found with ⟨rfl, deadListing⟩
      refine ⟨rfl, fun x mem => ?_⟩
      rcases List.mem_cons.mp mem with rfl | mem
      · exact Bool.eq_false_iff.mpr dead
      · exact deadListing x mem

theorem results_nil (lives : List (α → Bool)) : ∀ r ∈ results [] lives, r = none := by
  induction lives with
  | nil => exact fun _ mem => absurd mem List.not_mem_nil
  | cons live lives ih =>
    intro r mem
    rcases List.mem_cons.mp mem with rfl | mem
    · rfl
    · exact ih r mem

/-! ### What a whole run of calls returns -/

/-- Each call with its liveness: the results are live and of the listing, ascend, leave out nothing
that lives, and end for good. -/
structure Enumerates [LinearOrder α] (listing : List α) (calls : List (Option α × (α → Bool))) :
    Prop where
  sound : ∀ k live, (some k, live) ∈ calls → k ∈ listing ∧ live k = true
  ascending : (calls.filterMap Prod.fst).Pairwise (· < ·)
  complete : ∀ before r live after, calls = before ++ (r, live) :: after →
    (∀ c ∈ before, c.1 ≠ none) → ∀ x ∈ listing, (∀ k ∈ before.filterMap Prod.fst, k < x) →
      (∀ k, r = some k → x < k) → live x = false
  ended : ∀ before live after, calls = before ++ (none, live) :: after → ∀ c ∈ after, c.1 = none

theorem mem_zip_results {listing : List α} {lives : List (α → Bool)} {k : α} {live : α → Bool}
    (mem : (some k, live) ∈ (results listing lives).zip lives) : k ∈ listing ∧ live k = true := by
  induction lives generalizing listing with
  | nil => cases mem
  | cons first lives ih =>
    rcases found : next first listing with ⟨r, rest⟩
    rw [results, found, List.zip_cons_cons] at mem
    have later (mem : (some k, live) ∈ (results rest lives).zip lives) : k ∈ rest ∧ live k = true :=
      ih mem
    cases r with
    | none =>
      rcases List.mem_cons.mp mem with same | mem
      · cases same
      · cases (next_none found).1
        exact absurd (later mem).1 List.not_mem_nil
    | some k' =>
      rcases next_some found with ⟨alive, passed, rfl, -⟩
      rcases List.mem_cons.mp mem with same | mem
      · cases same
        exact ⟨List.mem_append_right _ List.mem_cons_self, alive⟩
      · rcases later mem with ⟨inRest, alive'⟩
        exact ⟨List.mem_append_right _ (List.mem_cons_of_mem _ inRest), alive'⟩

theorem filterMap_zip_mem {listing : List α} {lives : List (α → Bool)} {k : α}
    (mem : k ∈ ((results listing lives).zip lives).filterMap Prod.fst) : k ∈ listing := by
  rcases List.mem_filterMap.mp mem with ⟨⟨r, live⟩, call, same⟩
  cases same
  exact (mem_zip_results call).1

theorem results_ended {listing : List α} {lives : List (α → Bool)}
    {before after : List (Option α × (α → Bool))} {live : α → Bool}
    (split : (results listing lives).zip lives = before ++ (none, live) :: after) :
    ∀ c ∈ after, c.1 = none := by
  induction lives generalizing listing before with
  | nil => cases before <;> cases split
  | cons first lives ih =>
    rcases found : next first listing with ⟨r', rest⟩
    rw [results, found, List.zip_cons_cons] at split
    cases before with
    | nil =>
      cases split
      cases (next_none found).1
      exact fun c mem => results_nil lives _ (List.of_mem_zip mem).1
    | cons c before => exact ih (List.cons.inj split).2

variable [LinearOrder α]

theorem results_ascending {listing : List α} (sorted : listing.Pairwise (· < ·))
    (lives : List (α → Bool)) :
    (((results listing lives).zip lives).filterMap Prod.fst).Pairwise (· < ·) := by
  induction lives generalizing listing with
  | nil => exact List.Pairwise.nil
  | cons first lives ih =>
    rcases found : next first listing with ⟨r, rest⟩
    rw [results, found, List.zip_cons_cons]
    cases r with
    | none =>
      cases (next_none found).1
      exact ih List.Pairwise.nil
    | some k =>
      rcases next_some found with ⟨-, passed, rfl, -⟩
      have tail := (List.pairwise_append.mp sorted).2.1
      rw [List.pairwise_cons] at tail
      simp only [List.filterMap_cons, List.pairwise_cons]
      exact ⟨fun x mem => tail.1 x (filterMap_zip_mem mem), ih tail.2⟩

theorem results_complete {listing : List α} (sorted : listing.Pairwise (· < ·))
    {lives : List (α → Bool)} {before after : List (Option α × (α → Bool))} {r : Option α}
    {live : α → Bool} (split : (results listing lives).zip lives = before ++ (r, live) :: after)
    (goes : ∀ c ∈ before, c.1 ≠ none) {x : α} (listed : x ∈ listing)
    (above : ∀ k ∈ before.filterMap Prod.fst, k < x) (below : ∀ k, r = some k → x < k) :
    live x = false := by
  induction lives generalizing listing before with
  | nil =>
    cases before <;> cases split
  | cons first lives ih =>
    rcases found : next first listing with ⟨r', rest⟩
    rw [results, found, List.zip_cons_cons] at split
    cases before with
    | nil =>
      cases split
      cases r' with
      | none => exact (next_none found).2 x listed
      | some k =>
        rcases next_some found with ⟨-, passed, rfl, dead⟩
        have tail := (List.pairwise_append.mp sorted).2.1
        rw [List.pairwise_cons] at tail
        have less : x < k := below k rfl
        rcases List.mem_append.mp listed with inPassed | inTail
        · exact dead x inPassed
        · rcases List.mem_cons.mp inTail with rfl | inRest
          · exact absurd less (lt_irrefl x)
          · exact absurd (tail.1 x inRest) (lt_asymm less)
    | cons c before =>
      rw [List.cons_append, List.cons.injEq] at split
      rcases split with ⟨rfl, split⟩
      cases r' with
      | none => exact absurd rfl (goes _ List.mem_cons_self)
      | some k =>
        simp only [List.filterMap_cons] at above
        rcases next_some found with ⟨-, passed, rfl, -⟩
        have parts := List.pairwise_append.mp sorted
        have less : k < x := above k List.mem_cons_self
        have inRest : x ∈ rest := by
          rcases List.mem_append.mp listed with inPassed | inTail
          · exact absurd (parts.2.2 x inPassed k List.mem_cons_self) (lt_asymm less)
          · rcases List.mem_cons.mp inTail with rfl | inRest
            · exact absurd less (lt_irrefl x)
            · exact inRest
        exact ih (List.pairwise_cons.mp parts.2.1).2 split
          (fun c mem => goes c (List.mem_cons_of_mem _ mem)) inRest
          fun k mem => above k (List.mem_cons_of_mem _ mem)

/-- A cursor over an ascending listing enumerates it. -/
theorem enumerates {listing : List α} (sorted : listing.Pairwise (· < ·))
    (lives : List (α → Bool)) : Enumerates listing ((results listing lives).zip lives) where
  sound _ _ mem := mem_zip_results mem
  ascending := results_ascending sorted lives
  complete _ _ _ _ split goes _ listed above below :=
    results_complete sorted split goes listed above below
  ended _ _ _ split := results_ended split

end Cursor

end LispRlm.Foundation
