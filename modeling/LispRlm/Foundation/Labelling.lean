import Mathlib.Logic.Relation
import Mathlib.Logic.Function.Basic
import Mathlib.Data.List.Basic

/-! A search that labels the nodes it reaches and fails where two ways give a node different
labels. -/

namespace LispRlm.Foundation

variable {α β ε : Type} [DecidableEq α] [DecidableEq β]

/-- The labels so far, and the nodes whose successors are not labelled yet. -/
structure Labelling (α β : Type) where
  label : α → Option β
  stack : List α

namespace Labelling

/-- A node's label is turned into that of its successors, or refused. -/
structure Rules (α β ε : Type) where
  next : α → List α
  transfer : α → β → Except ε β
  conflict : α → β → β → ε
  limit : α → ε

variable (rules : Rules α β ε)

def put (w : Labelling α β) (a : α) (l : β) : Labelling α β :=
  ⟨fun b => if b = a then some l else w.label b, a :: w.stack⟩

def start (a : α) (l : β) : Labelling α β := put ⟨fun _ => none, []⟩ a l

def spread (l : β) : List α → Labelling α β → Except ε (Labelling α β)
  | [], w => .ok w
  | b :: bs, w =>
      match w.label b with
      | none => spread l bs (w.put b l)
      | some old => if old = l then spread l bs w else .error (rules.conflict b old l)

def turn (w : Labelling α β) (a : α) (stack : List α) : Except ε (Labelling α β) :=
  match w.label a with
  | none => .ok { w with stack }
  | some l =>
      match rules.transfer a l with
      | .error e => .error e
      | .ok l' => spread rules l' (rules.next a) { w with stack }

/-- So many nodes are taken from the stack at most. -/
def search : Nat → Labelling α β → Except ε (Labelling α β)
  | 0, w =>
      match w.stack with
      | [] => .ok w
      | a :: _ => .error (rules.limit a)
  | turns + 1, w =>
      match w.stack with
      | [] => .ok w
      | a :: stack =>
          match turn rules w a stack with
          | .error e => .error e
          | .ok w => search turns w

/-! ### Labels that fit -/

def Reaches (next : α → List α) : α → α → Prop := Relation.ReflTransGen fun a b => b ∈ next a

/-- Every node that is reached has a label that its own turns into the labels of its successors. -/
structure Fits (a : α) (l : β) (h : α → β) : Prop where
  first : h a = l
  each : ∀ b, Reaches rules.next a b →
    ∃ l', rules.transfer b (h b) = .ok l' ∧ ∀ c ∈ rules.next b, h c = l'

variable {rules}

/-- What holds between two nodes taken from the stack. -/
structure Inv (rules : Rules α β ε) (a : α) (w : Labelling α β) : Prop where
  labelled : ∀ b ∈ w.stack, ∃ l, w.label b = some l
  distinct : w.stack.Nodup
  reached : ∀ b l, w.label b = some l → Reaches rules.next a b
  closed : ∀ b l, w.label b = some l → b ∈ w.stack ∨
    ∃ l', rules.transfer b l = .ok l' ∧ ∀ c ∈ rules.next b, w.label c = some l'

omit [DecidableEq β] in
theorem put_label_self (w : Labelling α β) (a : α) (l : β) : (w.put a l).label a = some l :=
  if_pos rfl

omit [DecidableEq β] in
theorem put_label_of_ne (w : Labelling α β) {a b : α} (apart : b ≠ a) (l : β) :
    (w.put a l).label b = w.label b :=
  if_neg apart

omit [DecidableEq β] in
theorem Inv.start (a : α) (l : β) : Inv rules a (Labelling.start a l) where
  labelled b mem := by
    rw [List.mem_singleton.mp mem]
    exact ⟨l, put_label_self _ a l⟩
  distinct := List.pairwise_singleton _ a
  reached b l' found := by
    by_cases same : b = a
    · rw [same]
      exact .refl
    · rw [Labelling.start, put_label_of_ne _ same] at found
      cases found
  closed b l' found := by
    by_cases same : b = a
    · rw [same]
      exact .inl List.mem_cons_self
    · rw [Labelling.start, put_label_of_ne _ same] at found
      cases found

/-- What labelling successors with `l` does: old labels stay, the new ones are `l` and stand on the
stack. -/
structure Spreads (l : β) (bs : List α) (w w' : Labelling α β) : Prop where
  kept : ∀ b old, w.label b = some old → w'.label b = some old
  fresh : ∀ b new, w'.label b = some new → w.label b = none → new = l ∧ b ∈ bs ∧ b ∈ w'.stack
  all : ∀ b ∈ bs, w'.label b = some l
  stack : ∀ b, b ∈ w'.stack → b ∈ w.stack ∨ w.label b = none ∧ w'.label b = some l
  stays : ∀ b ∈ w.stack, b ∈ w'.stack
  distinct : (∀ b ∈ w.stack, ∃ old, w.label b = some old) → w.stack.Nodup → w'.stack.Nodup

theorem spread_ok {l : β} {bs : List α} {w w' : Labelling α β}
    (done : spread rules l bs w = .ok w') : Spreads l bs w w' := by
  induction bs generalizing w with
  | nil =>
    cases done
    exact {
      kept := fun _ _ found => found
      fresh := fun b new found none_ => by
        rw [none_] at found
        cases found
      all := fun b mem => by cases mem
      stack := fun _ mem => .inl mem
      stays := fun _ mem => mem
      distinct := fun _ nodup => nodup }
  | cons b bs ih =>
    rw [spread] at done
    cases here : w.label b with
    | some old =>
      rw [here] at done
      dsimp only at done
      split at done
      · rename_i same
        have rest := ih done
        exact {
          kept := rest.kept
          fresh := fun c new found none_ => by
            rcases rest.fresh c new found none_ with ⟨eq, mem, on⟩
            exact ⟨eq, List.mem_cons_of_mem b mem, on⟩
          all := fun c mem => by
            rcases List.mem_cons.mp mem with first | later
            · rw [first, ← same]
              exact rest.kept b old here
            · exact rest.all c later
          stack := rest.stack
          stays := rest.stays
          distinct := rest.distinct }
      · cases done
    | none =>
      rw [here] at done
      have rest := ih done
      have first : w'.label b = some l := rest.kept b l (put_label_self w b l)
      exact {
        kept := fun c old found => by
          have apart : c ≠ b := by
            intro same
            rw [same, here] at found
            cases found
          apply rest.kept
          rw [put_label_of_ne w apart]
          exact found
        fresh := fun c new found none_ => by
          by_cases same : c = b
          · rw [same] at found ⊢
            rw [first] at found
            exact ⟨(Option.some.inj found).symm, List.mem_cons_self,
              rest.stays b List.mem_cons_self⟩
          · rcases rest.fresh c new found ((put_label_of_ne w same l).trans none_) with
              ⟨eq, mem, on⟩
            exact ⟨eq, List.mem_cons_of_mem b mem, on⟩
        all := fun c mem => by
          rcases List.mem_cons.mp mem with same | later
          · rw [same]
            exact first
          · exact rest.all c later
        stack := fun c mem => by
          by_cases same : c = b
          · rw [same]
            exact .inr ⟨here, first⟩
          · rcases rest.stack c mem with before | ⟨none_, new⟩
            · exact .inl ((List.mem_cons.mp before).resolve_left same)
            · rw [put_label_of_ne w same] at none_
              exact .inr ⟨none_, new⟩
        stays := fun c mem => rest.stays c (List.mem_cons_of_mem b mem)
        distinct := fun labelled nodup => by
          have off : b ∉ w.stack := by
            intro mem
            rcases labelled b mem with ⟨old, found⟩
            rw [here] at found
            cases found
          apply rest.distinct
          · intro c mem
            by_cases same : c = b
            · rw [same]
              exact ⟨l, put_label_self w b l⟩
            · rw [put_label_of_ne w same]
              exact labelled c ((List.mem_cons.mp mem).resolve_left same)
          · exact List.nodup_cons.mpr ⟨off, nodup⟩ }

omit [DecidableEq α] [DecidableEq β] in
/-- A node is taken from the stack. -/
theorem Inv.step {a b : α} {l l' : β} {stack : List α} {w w' : Labelling α β} (inv : Inv rules a w)
    (taken : w.stack = b :: stack) (here : w.label b = some l)
    (transfer : rules.transfer b l = .ok l')
    (spreads : Spreads l' (rules.next b) { w with stack } w') : Inv rules a w' where
  labelled c mem := by
    rcases spreads.stack c mem with before | ⟨_, new⟩
    · rcases inv.labelled c (taken ▸ List.mem_cons_of_mem b before) with ⟨old, found⟩
      exact ⟨old, spreads.kept c old found⟩
    · exact ⟨l', new⟩
  distinct := by
    have nodup := inv.distinct
    rw [taken] at nodup
    apply spreads.distinct
    · intro c mem
      exact inv.labelled c (taken ▸ List.mem_cons_of_mem b mem)
    · exact (List.nodup_cons.mp nodup).2
  reached c new found := by
    cases before : w.label c with
    | some old => exact inv.reached c old before
    | none =>
      rcases spreads.fresh c new found before with ⟨_, mem, _⟩
      exact (inv.reached b l here).tail mem
  closed c new found := by
    cases before : w.label c with
    | none => exact .inl (spreads.fresh c new found before).2.2
    | some old =>
      have same := spreads.kept c old before
      rw [found] at same
      cases same
      rcases inv.closed c _ before with on | ⟨l'', ok, labels⟩
      · rw [taken] at on
        rcases List.mem_cons.mp on with first | later
        · rw [first] at before ⊢
          rw [here] at before
          cases before
          exact .inr ⟨l', transfer, spreads.all⟩
        · exact .inl (spreads.stays c later)
      · exact .inr ⟨l'', ok, fun d mem => spreads.kept d l'' (labels d mem)⟩

theorem turn_ok {a b : α} {l : β} {stack : List α} {w w' : Labelling α β} (inv : Inv rules a w)
    (taken : w.stack = b :: stack) (here : w.label b = some l)
    (done : turn rules w b stack = .ok w') :
    ∃ l', rules.transfer b l = .ok l' ∧ Spreads l' (rules.next b) { w with stack } w' ∧
      Inv rules a w' := by
  rw [turn, here] at done
  dsimp only at done
  cases transfer : rules.transfer b l with
  | error e =>
    rw [transfer] at done
    cases done
  | ok l' =>
    rw [transfer] at done
    have spreads := spread_ok done
    exact ⟨l', rfl, spreads, inv.step taken here transfer spreads⟩

theorem search_nil (turns : Nat) {w : Labelling α β} (empty : w.stack = []) :
    search rules turns w = .ok w := by
  cases turns <;> rw [search, empty]

/-- By induction on the turns: a search that ends well leaves no node to take and keeps what holds
between two of them. -/
theorem search_inv {a : α} {turns : Nat} {w w' : Labelling α β} (inv : Inv rules a w)
    (done : search rules turns w = .ok w') :
    Inv rules a w' ∧ w'.stack = [] ∧ ∀ b l, w.label b = some l → w'.label b = some l := by
  induction turns generalizing w with
  | zero =>
    cases taken : w.stack with
    | nil =>
      rw [search_nil 0 taken] at done
      cases done
      exact ⟨inv, taken, fun _ _ found => found⟩
    | cons b stack =>
      rw [search, taken] at done
      cases done
  | succ turns ih =>
    cases taken : w.stack with
    | nil =>
      rw [search_nil _ taken] at done
      cases done
      exact ⟨inv, taken, fun _ _ found => found⟩
    | cons b stack =>
      rw [search, taken] at done
      dsimp only at done
      rcases inv.labelled b (taken ▸ List.mem_cons_self) with ⟨l, here⟩
      cases more : turn rules w b stack with
      | error e =>
        rw [more] at done
        cases done
      | ok w'' =>
        rw [more] at done
        rcases turn_ok inv taken here more with ⟨l', transfer, spreads, inv'⟩
        rcases ih inv' done with ⟨inv'', empty, kept⟩
        exact ⟨inv'', empty, fun c old found => kept c old (spreads.kept c old found)⟩

/-! ### The number of turns -/

/-- What a search can still take from its stack. -/
def weight (nodes : List α) (w : Labelling α β) : Nat :=
  nodes.countP (fun a => (w.label a).isNone) + w.stack.length

omit [DecidableEq β] in
theorem weight_put {nodes : List α} {w : Labelling α β} {a : α} (inside : a ∈ nodes)
    (fresh : w.label a = none) (l : β) : weight nodes (w.put a l) ≤ weight nodes w := by
  have fewer : nodes.countP (fun b => ((w.put a l).label b).isNone) + 1 ≤
      nodes.countP (fun b => (w.label b).isNone) := by
    induction nodes with
    | nil => cases inside
    | cons b nodes ih =>
      have grows : nodes.countP (fun c => ((w.put a l).label c).isNone) ≤
          nodes.countP (fun c => (w.label c).isNone) := by
        apply List.countP_mono_left
        intro c _ none_
        by_cases same : c = a
        · rw [same, put_label_self] at none_
          cases none_
        · rw [put_label_of_ne w same] at none_
          exact none_
      rw [List.countP_cons, List.countP_cons]
      by_cases same : b = a
      · rw [same, put_label_self, fresh]
        simp only [Option.isNone_some, Option.isNone_none, Bool.false_eq_true, if_false, if_true]
        omega
      · have later := ih ((List.mem_cons.mp inside).resolve_left fun eq => same eq.symm)
        rw [put_label_of_ne w same]
        omega
  rw [weight, weight]
  have stack : (w.put a l).stack.length = w.stack.length + 1 := rfl
  omega

theorem weight_spread {nodes : List α} {l : β} {bs : List α} {w w' : Labelling α β}
    (inside : ∀ b ∈ bs, b ∈ nodes) (done : spread rules l bs w = .ok w') :
    weight nodes w' ≤ weight nodes w := by
  induction bs generalizing w with
  | nil =>
    cases done
    exact Nat.le_refl _
  | cons b bs ih =>
    have rest (c : α) (mem : c ∈ bs) : c ∈ nodes := inside c (List.mem_cons_of_mem b mem)
    rw [spread] at done
    cases here : w.label b with
    | none =>
      rw [here] at done
      exact Nat.le_trans (ih rest done) (weight_put (inside b List.mem_cons_self) here l)
    | some old =>
      rw [here] at done
      dsimp only at done
      split at done
      · exact ih rest done
      · cases done

theorem weight_turn {nodes : List α} (inside : ∀ a, ∀ b ∈ rules.next a, b ∈ nodes) {a : α}
    {stack : List α} {w w' : Labelling α β} (taken : w.stack = a :: stack)
    (done : turn rules w a stack = .ok w') : weight nodes w' + 1 ≤ weight nodes w := by
  have lighter : weight nodes ({ w with stack } : Labelling α β) + 1 = weight nodes w := by
    simp only [weight, taken, List.length_cons]
    omega
  rw [turn] at done
  split at done
  · cases done
    omega
  · split at done
    · cases done
    · have := weight_spread (inside a) done
      omega

/-- More turns than there are nodes change nothing: the limit is never met. -/
theorem search_turns {nodes : List α} (inside : ∀ a, ∀ b ∈ rules.next a, b ∈ nodes) {n m : Nat}
    {w : Labelling α β} (enough : weight nodes w ≤ n) (enough' : weight nodes w ≤ m) :
    search rules n w = search rules m w := by
  induction n generalizing m w with
  | zero =>
    have empty : w.stack = [] := by
      rw [weight] at enough
      exact List.length_eq_zero_iff.mp (by omega)
    rw [search_nil 0 empty, search_nil m empty]
  | succ n ih =>
    cases taken : w.stack with
    | nil => rw [search_nil _ taken, search_nil m taken]
    | cons a stack =>
      have heavy : 1 ≤ weight nodes w := by
        rw [weight, taken, List.length_cons]
        omega
      cases m with
      | zero => omega
      | succ m =>
        rw [search, search, taken]
        dsimp only
        cases done : turn rules w a stack with
        | error e => rfl
        | ok w' =>
          have := weight_turn inside taken done
          exact ih (by omega) (by omega)

/-! ### What the search accepts -/

theorem spread_agrees {l : β} {bs : List α} {w : Labelling α β}
    (agrees : ∀ b ∈ bs, ∀ old, w.label b = some old → old = l) :
    ∃ w', spread rules l bs w = .ok w' := by
  induction bs generalizing w with
  | nil => exact ⟨w, rfl⟩
  | cons b bs ih =>
    rw [spread]
    cases here : w.label b with
    | some old =>
      dsimp only
      rw [if_pos (agrees b List.mem_cons_self old here)]
      exact ih fun c mem => agrees c (List.mem_cons_of_mem b mem)
    | none =>
      apply ih
      intro c mem old found
      by_cases same : c = b
      · rw [same, put_label_self] at found
        exact (Option.some.inj found).symm
      · rw [put_label_of_ne w same] at found
        exact agrees c (List.mem_cons_of_mem b mem) old found

theorem search_of_fits {nodes : List α} (inside : ∀ a, ∀ b ∈ rules.next a, b ∈ nodes) {a : α}
    {l : β} {h : α → β} (fits : Fits rules a l h) {turns : Nat} {w : Labelling α β}
    (inv : Inv rules a w) (agrees : ∀ b l, w.label b = some l → l = h b)
    (enough : weight nodes w ≤ turns) : ∃ w', search rules turns w = .ok w' := by
  induction turns generalizing w with
  | zero =>
    have empty : w.stack = [] := by
      rw [weight] at enough
      exact List.length_eq_zero_iff.mp (by omega)
    exact ⟨w, search_nil 0 empty⟩
  | succ turns ih =>
    cases taken : w.stack with
    | nil => exact ⟨w, search_nil _ taken⟩
    | cons b stack =>
      rcases inv.labelled b (taken ▸ List.mem_cons_self) with ⟨lb, here⟩
      rcases fits.each b (inv.reached b lb here) with ⟨l', transfer, labels⟩
      rw [← agrees b lb here] at transfer
      have same (c : α) (mem : c ∈ rules.next b) (old : β) (found : w.label c = some old) :
          old = l' := (agrees c old found).trans (labels c mem)
      rcases @spread_agrees _ _ _ _ _ rules l' (rules.next b) { w with stack } same with
        ⟨w', spread_⟩
      have done : turn rules w b stack = .ok w' := by
        rw [turn, here]
        dsimp only
        rw [transfer]
        exact spread_
      have spreads := spread_ok spread_
      rw [search, taken]
      dsimp only
      rw [done]
      apply ih (inv.step taken here transfer spreads)
      · intro c new found
        cases before : w.label c with
        | some old =>
          have kept := spreads.kept c old before
          rw [found] at kept
          rw [Option.some.inj kept]
          exact agrees c old before
        | none =>
          rcases spreads.fresh c new found before with ⟨eq, mem, _⟩
          rw [eq, labels c mem]
      · have := weight_turn inside taken done
        omega

/-- What a search labels is what can be reached. -/
theorem reaches_iff_labelled {a : α} {l : β} {turns : Nat} {w : Labelling α β}
    (done : search rules turns (start a l) = .ok w) (b : α) :
    Reaches rules.next a b ↔ ∃ l', w.label b = some l' := by
  rcases search_inv (Inv.start a l) done with ⟨inv, empty, kept⟩
  constructor
  · intro reached
    induction reached with
    | refl => exact ⟨l, kept a l (put_label_self _ a l)⟩
    | tail _ step ih =>
      rcases ih with ⟨lb, found⟩
      rcases inv.closed _ lb found with on | ⟨l', _, labels⟩
      · rw [empty] at on
        cases on
      · exact ⟨l', labels _ step⟩
  · intro ⟨l', found⟩
    exact inv.reached b l' found

/-- A search accepts exactly what has labels that fit, and ends with them. -/
theorem search_ok_iff {nodes : List α} (inside : ∀ a, ∀ b ∈ rules.next a, b ∈ nodes) {a : α}
    (l : β) {turns : Nat} (enough : weight nodes (start a l) ≤ turns) (h : α → β) :
    Fits rules a l h ↔ ∃ w, search rules turns (start a l) = .ok w ∧
      (∀ b, Reaches rules.next a b → w.label b = some (h b)) := by
  constructor
  · intro fits
    have agrees (b : α) (l' : β) (found : (start a l).label b = some l') : l' = h b := by
      by_cases same : b = a
      · rw [same, start, put_label_self] at found
        rw [same, fits.first]
        exact (Option.some.inj found).symm
      · rw [start, put_label_of_ne _ same] at found
        cases found
    rcases search_of_fits inside fits (Inv.start a l) agrees enough with ⟨w, done⟩
    rcases search_inv (Inv.start a l) done with ⟨inv, empty, kept⟩
    use w
    use done
    intro b reached
    induction reached with
    | refl =>
      rw [fits.first]
      exact kept a l (put_label_self _ a l)
    | @tail b c path step ih =>
      rcases inv.closed b _ ih with on | ⟨l', transfer, labels⟩
      · rw [empty] at on
        cases on
      · rcases fits.each b path with ⟨l'', transfer', labels'⟩
        rw [transfer] at transfer'
        rw [labels c step, labels' c step, Except.ok.inj transfer']
  · intro ⟨w, done, labels⟩
    rcases search_inv (Inv.start a l) done with ⟨inv, empty, kept⟩
    constructor
    · have found := kept a l (put_label_self _ a l)
      rw [labels a .refl] at found
      exact Option.some.inj found
    · intro b reached
      rcases inv.closed b _ (labels b reached) with on | ⟨l', transfer, next⟩
      · rw [empty] at on
        cases on
      · use l'
        use transfer
        intro c mem
        have found := next c mem
        rw [labels c (reached.tail mem)] at found
        exact Option.some.inj found

end Labelling

end LispRlm.Foundation
