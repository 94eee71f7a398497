import Mathlib.Data.List.Basic

/-! Rewriting the windows of an instruction stream, from left to right, and what a run sees
of it. -/

namespace LispRlm.Foundation

/-- A rule for windows of one width. -/
structure WindowRule (I : Type) where
  width : Nat
  rewrite : List I → Option (List I)

variable {I S E : Type}

/-- What the rule makes of the window that the code starts with, and how wide that is. -/
def WindowRule.fire (r : WindowRule I) (code : List I) : Option (List I × Nat) :=
  if r.width ≤ code.length then (r.rewrite (code.take r.width)).map (·, r.width) else none

/-- The first rule that fires. -/
def firstFired (rules : List (WindowRule I)) (code : List I) : Option (List I × Nat) :=
  rules.findSome? (·.fire code)

/-- Every window that a rule fires on, after `skip` instructions. -/
def sweep (rules : List (WindowRule I)) : Nat → List I → List I
  | _, [] => []
  | skip + 1, _ :: rest => sweep rules skip rest
  | 0, i :: rest =>
      match firstFired rules (i :: rest) with
      | some (out, width) => out ++ sweep rules (width - 1) rest
      | none => i :: sweep rules 0 rest

section Fired

variable {rules : List (WindowRule I)}

theorem firstFired_rule {code out : List I} {width : Nat}
    (fired : firstFired rules code = some (out, width)) :
    ∃ r ∈ rules, r.width = width ∧ width ≤ code.length ∧
      r.rewrite (code.take width) = some out := by
  obtain ⟨r, mem, fire⟩ := List.exists_of_findSome?_eq_some fired
  unfold WindowRule.fire at fire
  split at fire
  · rename_i wide
    obtain ⟨out', made, same⟩ := Option.map_eq_some_iff.mp fire
    cases same
    exact ⟨r, mem, rfl, wide, made⟩
  · cases fire

/-- No rule fires on a window with a barrier in it. -/
def StopsAt (rules : List (WindowRule I)) (barrier : I) : Prop :=
  ∀ r ∈ rules, 0 < r.width ∧ ∀ w, barrier ∈ w → r.rewrite w = none

theorem fire_append {r : WindowRule I} {barrier : I}
    (stops : ∀ w, barrier ∈ w → r.rewrite w = none) (code rest : List I) :
    r.fire (code ++ barrier :: rest) = r.fire code := by
  unfold WindowRule.fire
  by_cases wide : r.width ≤ code.length
  · have longer : r.width ≤ (code ++ barrier :: rest).length := by
      rw [List.length_append]
      omega
    rw [if_pos wide, if_pos longer, List.take_append_of_le_length wide]
  · rw [if_neg wide]
    split
    · have inside : barrier ∈ (code ++ barrier :: rest).take r.width := by
        rw [List.take_append, List.mem_append]
        right
        obtain ⟨k, more⟩ : ∃ k, r.width - code.length = k + 1 :=
          ⟨r.width - code.length - 1, by omega⟩
        rw [more, List.take_succ_cons]
        exact List.mem_cons_self
      rw [stops _ inside]
      rfl
    · rfl

/-- Before a barrier, windows are those of the code before it. -/
theorem firstFired_append {barrier : I} (stops : StopsAt rules barrier) (code rest : List I) :
    firstFired rules (code ++ barrier :: rest) = firstFired rules code := by
  unfold firstFired
  induction rules with
  | nil => rfl
  | cons r rules ih =>
      have later : StopsAt rules barrier := fun r' mem => stops r' (List.mem_cons_of_mem r mem)
      rw [List.findSome?_cons, List.findSome?_cons, fire_append (stops r List.mem_cons_self).2,
        ih later]

/-- A rewriting never reaches beyond a barrier. -/
theorem sweep_append {barrier : I} (stops : StopsAt rules barrier) (code rest : List I)
    (skip : Nat) (inside : skip ≤ code.length) :
    sweep rules skip (code ++ barrier :: rest) =
      sweep rules skip code ++ barrier :: sweep rules 0 rest := by
  induction code generalizing skip with
  | nil =>
      obtain rfl : skip = 0 := Nat.le_zero.mp inside
      have none_ : firstFired rules [] = none := by
        apply List.findSome?_eq_none_iff.mpr
        intro r mem
        have wide := (stops r mem).1
        unfold WindowRule.fire
        rw [if_neg (by simp; omega)]
      have nothing := firstFired_append stops [] rest
      rw [List.nil_append] at nothing ⊢
      simp only [sweep, nothing, none_, List.nil_append]
  | cons i code ih =>
      cases skip with
      | succ skip => exact ih skip (Nat.le_of_succ_le_succ inside)
      | zero =>
          have same := firstFired_append stops (i :: code) rest
          rw [List.cons_append] at same ⊢
          rw [sweep, sweep, same]
          cases fired : firstFired rules (i :: code) with
          | none =>
              show i :: sweep rules 0 _ = _
              rw [ih 0 (Nat.zero_le _)]
              rfl
          | some result =>
              obtain ⟨out, width⟩ := result
              obtain ⟨r, mem, rfl, wide, _⟩ := firstFired_rule fired
              rw [List.length_cons] at wide
              show out ++ sweep rules _ _ = out ++ sweep rules _ _ ++ _
              rw [ih _ (by omega), List.append_assoc]

end Fired

/-! ### Runs -/

section Runs

variable (step : I → S → Except E S)

/-- Straight code. -/
def runStraight : List I → S → Except E S
  | [], s => .ok s
  | i :: rest, s => (step i s).bind (runStraight rest)

variable (rules : List (WindowRule I)) (safe : List I → S → Bool) (caught : E)

/-- Running the code as it is, with a check before every window that is rewritten. -/
def watch : Nat → List I → S → Except E S
  | _, [], s => .ok s
  | skip + 1, i :: rest, s => (step i s).bind (watch skip rest)
  | 0, i :: rest, s =>
      match firstFired rules (i :: rest) with
      | some (_, width) =>
          if safe ((i :: rest).take width) s then (step i s).bind (watch (width - 1) rest)
          else .error caught
      | none => (step i s).bind (watch 0 rest)

end Runs

/-- The second run is the first one, unless that ends badly. -/
def Upto (bad : E → Prop) (x y : Except E S) : Prop := (∃ e, bad e ∧ x = .error e) ∨ y = x

namespace Upto

variable {bad : E → Prop}

theorem refl (x : Except E S) : Upto bad x x := .inr rfl

theorem trans {x y z : Except E S} (first : Upto bad x y) (second : Upto bad y z) :
    Upto bad x z := by
  rcases first with failed | rfl
  · exact .inl failed
  · exact second

theorem bind {T : Type} {x y : Except E S} {f g : S → Except E T} (first : Upto bad x y)
    (later : ∀ s, x = .ok s → Upto bad (f s) (g s)) : Upto bad (x.bind f) (y.bind g) := by
  rcases first with ⟨e, is, rfl⟩ | rfl
  · exact .inl ⟨e, is, rfl⟩
  · cases y with
    | error e => exact .inr rfl
    | ok s => exact later s rfl

end Upto

section Soundness

variable {step : I → S → Except E S} {rules : List (WindowRule I)} {safe : List I → S → Bool}
  {caught : E} {bad : E → Prop}

theorem runStraight_append (first second : List I) (s : S) :
    runStraight step (first ++ second) s =
      (runStraight step first s).bind (runStraight step second) := by
  induction first generalizing s with
  | nil => rfl
  | cons i first ih =>
      rw [List.cons_append, runStraight, runStraight]
      cases step i s with
      | error e => rfl
      | ok t => exact ih t

/-- Watching changes nothing but to stop. -/
theorem watch_runStraight (isBad : bad caught) (skip : Nat) (code : List I) (s : S) :
    Upto bad (watch step rules safe caught skip code s) (runStraight step code s) := by
  induction code generalizing skip s with
  | nil => exact .inr (by rw [watch, runStraight])
  | cons i rest ih =>
      cases skip with
      | succ skip => exact (Upto.refl _).bind fun t _ => ih skip t
      | zero =>
          rw [watch]
          cases firstFired rules (i :: rest) with
          | none => exact (Upto.refl _).bind fun t _ => ih 0 t
          | some result =>
              dsimp only
              split
              · exact (Upto.refl _).bind fun t _ => ih _ t
              · exact .inl ⟨caught, isBad, rfl⟩

/-- Windows that are safe where they are met may be rewritten. -/
theorem watch_sweep (isBad : bad caught)
    (sound : ∀ r ∈ rules, ∀ w out, w.length = r.width → r.rewrite w = some out → ∀ s,
      safe w s = true → Upto bad (runStraight step w s) (runStraight step out s))
    (wide : ∀ r ∈ rules, 0 < r.width) (skip : Nat) (code : List I) (s : S) :
    Upto bad (watch step rules safe caught skip code s)
      ((runStraight step (code.take skip) s).bind (runStraight step (sweep rules skip code))) := by
  induction code generalizing skip s with
  | nil => exact .inr (by rw [watch, List.take_nil]; cases skip <;> rfl)
  | cons i rest ih =>
      cases skip with
      | succ skip =>
          have start : Upto bad (step i s) (step i s) := Upto.refl _
          have later := start.bind fun t _ => ih skip t
          apply later.trans
          right
          rw [List.take_succ_cons, runStraight, sweep]
          cases step i s with
          | error e => rfl
          | ok t => rfl
      | zero =>
          rw [watch, List.take_zero, sweep]
          show Upto bad _ (runStraight step _ s)
          cases fired : firstFired rules (i :: rest) with
          | none =>
              apply (Upto.refl _).bind
              intro t _
              exact ih 0 t
          | some result =>
              obtain ⟨out, width⟩ := result
              obtain ⟨r, mem, rfl, enough, made⟩ := firstFired_rule fired
              dsimp only
              split
              · rename_i fine
                have positive := wide r mem
                have start : Upto bad (step i s) (step i s) := Upto.refl _
                have later := start.bind fun t _ => ih (r.width - 1) t
                apply later.trans
                have whole : (i :: rest).take r.width = i :: rest.take (r.width - 1) := by
                  obtain ⟨k, is⟩ : ∃ k, r.width = k + 1 := ⟨r.width - 1, by omega⟩
                  rw [is, List.take_succ_cons]
                  rfl
                have window : (step i s).bind (fun t =>
                    (runStraight step (rest.take (r.width - 1)) t).bind
                    (runStraight step (sweep rules (r.width - 1) rest))) =
                    (runStraight step ((i :: rest).take r.width) s).bind
                      (runStraight step (sweep rules (r.width - 1) rest)) := by
                  rw [whole, runStraight]
                  cases step i s with
                  | error e => rfl
                  | ok t => rfl
                rw [window, runStraight_append]
                have length : ((i :: rest).take r.width).length = r.width := by
                  rw [List.length_take]
                  omega
                exact (sound r mem _ _ length made s fine).bind fun t _ => Upto.refl _
              · exact .inl ⟨caught, isBad, rfl⟩

end Soundness

end LispRlm.Foundation
