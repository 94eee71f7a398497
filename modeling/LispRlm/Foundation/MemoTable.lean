import Mathlib.Data.List.Basic

/-! A table of results under keys, filled by the calls of a function that may fail. -/

namespace LispRlm.Foundation.MemoTable

variable {A K E R : Type}

abbrev Table (K R : Type) := K → Option R

section Calls

variable [DecidableEq K]

def Table.insert (t : Table K R) (k : K) (r : R) : Table K R :=
  fun k' => if k' = k then some r else t k'

/-- One call: the stored result of the key, or that of the function, which is stored. -/
def call (key : A → K) (f : A → Except E R) (t : Table K R) (a : A) : Except E R × Table K R :=
  match t (key a) with
  | some r => (.ok r, t)
  | none =>
      match f a with
      | .ok r => (.ok r, t.insert (key a) r)
      | .error e => (.error e, t)

def calls (key : A → K) (f : A → Except E R) : Table K R → List A → List (Except E R)
  | _, [] => []
  | t, a :: rest => (call key f t a).1 :: calls key f (call key f t a).2 rest

end Calls

/-- What is stored is right for the arguments still to come. -/
def RightFor (key : A → K) (f : A → Except E R) (t : Table K R) (history : List A) : Prop :=
  ∀ a ∈ history, ∀ r, t (key a) = some r → f a = .ok r

/-- The results of the first arguments are those of the second, if they share a key. -/
def Shares (key : A → K) (f : A → Except E R) (a b : A) : Prop :=
  key a = key b → ∀ r, f a = .ok r → f b = .ok r

variable {key : A → K} {f : A → Except E R} {t : Table K R}

theorem rightFor_cons {a : A} {rest : List A} :
    RightFor key f t (a :: rest) ↔
      (∀ r, t (key a) = some r → f a = .ok r) ∧ RightFor key f t rest :=
  List.forall_mem_cons

variable [DecidableEq K]

/-- A call answers as the function does, and leaves a table that is right for the arguments to come,
if and only if the table was right and the call shares with each of them. -/
theorem call_right_iff (a : A) (rest : List A) :
    ((call key f t a).1 = f a ∧ RightFor key f (call key f t a).2 rest) ↔
      RightFor key f t (a :: rest) ∧ ∀ b ∈ rest, Shares key f a b := by
  rw [rightFor_cons]
  unfold call
  cases stored : t (key a) with
  | some r =>
      constructor
      · rintro ⟨answer, right⟩
        refine ⟨⟨fun r' same => (Option.some.inj same) ▸ answer.symm, right⟩, ?_⟩
        intro b mem same r' result
        have stored' : t (key b) = some r := same ▸ stored
        rw [right b mem r stored', ← result, ← answer]
      · rintro ⟨⟨own, right⟩, _⟩
        exact ⟨(own r rfl).symm, right⟩
  | none =>
      cases result : f a with
      | error e =>
          constructor
          · rintro ⟨_, right⟩
            refine ⟨⟨fun r never => (nomatch never), right⟩, ?_⟩
            intro b mem same r' other
            rw [result] at other
            cases other
          · rintro ⟨⟨_, right⟩, _⟩
            exact ⟨rfl, right⟩
      | ok r =>
          constructor
          · rintro ⟨_, right⟩
            refine ⟨⟨fun r' never => (nomatch never), ?_⟩, ?_⟩
            · intro b mem r' stored'
              apply right b mem r'
              by_cases same : key b = key a
              · rw [same, stored] at stored'
                cases stored'
              · exact (if_neg same).trans stored'
            · intro b mem same r' other
              rw [result] at other
              cases other
              exact right b mem r (if_pos same.symm)
          · rintro ⟨⟨_, right⟩, shares⟩
            refine ⟨rfl, ?_⟩
            intro b mem r' stored'
            by_cases same : key b = key a
            · have given : some r = some r' := (if_pos same).symm.trans stored'
              cases given
              exact shares b mem same.symm r result
            · exact right b mem r' ((if_neg same).symm.trans stored')

/-- A run of calls answers as the function does if and only if what is stored is right for it, and
no two of its arguments share a key where the function tells them apart. -/
theorem calls_eq_iff (history : List A) :
    calls key f t history = history.map f ↔
      RightFor key f t history ∧ history.Pairwise (Shares key f) := by
  induction history generalizing t with
  | nil => exact ⟨fun _ => ⟨fun _ never => (nomatch never), .nil⟩, fun _ => rfl⟩
  | cons a rest ih =>
      rw [calls, List.map_cons, List.cons.injEq, ih, List.pairwise_cons, ← and_assoc,
        call_right_iff, and_assoc]

end LispRlm.Foundation.MemoTable
