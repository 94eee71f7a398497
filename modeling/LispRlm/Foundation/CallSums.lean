import LispRlm.Foundation.WeightedMap
import Mathlib.Algebra.BigOperators.Ring.Finset
import Mathlib.Algebra.Order.BigOperators.Group.Finset
import Mathlib.Data.Finset.Card
import Mathlib.Logic.Relation

/-! Sums over what a node of a graph reaches, and a search with a memo and a stack that stands in
for them. -/

namespace LispRlm.Foundation

/-- Nodes with a count of their own and the nodes that they call. -/
structure CallGraph (α : Type) where
  own : α → Nat
  callees : α → Finset α
  nodes : Finset α
  own_outside : ∀ f, f ∉ nodes → own f = 0
  callees_outside : ∀ f, f ∉ nodes → callees f = ∅

namespace CallGraph

variable {α : Type} (G : CallGraph α)

def Reaches (f g : α) : Prop := Relation.ReflTransGen (fun a b => b ∈ G.callees a) f g

open Classical in
/-- The counts of all that `f` reaches, each once. -/
noncomputable def reachSum (f : α) : Nat := ∑ x ∈ G.nodes with G.Reaches f x, G.own x

open Classical in
/-- The ways from `g` to `x`: being `x`, and each other node that `g` calls and that reaches `x`. -/
noncomputable def routes (g x : α) : Nat :=
  (if x = g then 1 else 0) + ((G.callees g).filter fun c => c ≠ g ∧ G.Reaches c x).card

/-- What has a count is reached in one way only. -/
def Single : Prop := ∀ g x, G.own x ≠ 0 → G.routes g x ≤ 1

/-! ### The sums over the callees -/

theorem reaches_iff_head {f x : α} :
    G.Reaches f x ↔ x = f ∨ ∃ c ∈ G.callees f, c ≠ f ∧ G.Reaches c x := by
  constructor
  · intro reaches
    induction reaches using Relation.ReflTransGen.head_induction_on with
    | refl => exact .inl rfl
    | head call rest ih =>
      rename_i a c
      by_cases same : c = a
      · exact same ▸ ih
      · exact .inr ⟨c, call, same, rest⟩
  · rintro (rfl | ⟨c, call, -, rest⟩)
    · exact .refl
    · exact .head call rest

theorem routes_pos_iff {g x : α} : 0 < G.routes g x ↔ G.Reaches g x := by
  classical
  rw [reaches_iff_head, routes, Nat.add_pos_iff_pos_or_pos, Finset.card_pos,
    Finset.filter_nonempty_iff]
  refine or_congr ?_ Iff.rfl
  split
  · rename_i same
    exact ⟨fun _ => same, fun _ => Nat.one_pos⟩
  · rename_i other
    exact ⟨fun pos => absurd pos (Nat.lt_irrefl 0), fun same => absurd same other⟩

theorem reachSum_eq (f : α) :
    G.reachSum f = ∑ x ∈ G.nodes, G.own x * min 1 (G.routes f x) := by
  classical
  rw [reachSum, Finset.sum_filter]
  refine Finset.sum_congr rfl fun x _ => ?_
  by_cases reaches : G.Reaches f x
  · have least : 1 ≤ G.routes f x := G.routes_pos_iff.mpr reaches
    rw [if_pos reaches, Nat.min_eq_left least, Nat.mul_one]
  · have none : G.routes f x = 0 :=
      Nat.eq_zero_of_not_pos fun pos => reaches (G.routes_pos_iff.mp pos)
    rw [if_neg reaches, none, Nat.min_zero, Nat.mul_zero]

open Classical in
theorem own_eq (g : α) : G.own g = ∑ x ∈ G.nodes, G.own x * (if x = g then 1 else 0) := by
  simp only [mul_ite, Nat.mul_one, Nat.mul_zero]
  rw [Finset.sum_ite_eq' G.nodes g]
  split
  · rfl
  · exact G.own_outside g ‹_›

open Classical in
/-- What the search adds up at `g`: its own count and the sums of the others that it calls. -/
noncomputable def calleeSum (g : α) : Nat :=
  G.own g + ∑ c ∈ G.callees g, if c = g then 0 else G.reachSum c

open Classical in
theorem callees_sum_eq (g : α) :
    (∑ c ∈ G.callees g, if c = g then 0 else G.reachSum c) =
      ∑ x ∈ G.nodes, G.own x * ((G.callees g).filter fun c => c ≠ g ∧ G.Reaches c x).card := by
  calc
    _ = ∑ c ∈ G.callees g, ∑ x ∈ G.nodes, if c ≠ g ∧ G.Reaches c x then G.own x else 0 := by
      refine Finset.sum_congr rfl fun c _ => ?_
      by_cases same : c = g
      · rw [if_pos same]
        exact (Finset.sum_eq_zero fun x _ => if_neg fun both => both.1 same).symm
      · rw [if_neg same, reachSum, Finset.sum_filter]
        refine Finset.sum_congr rfl fun x _ => ?_
        simp only [ne_eq, same, not_false_eq_true, true_and]
    _ = ∑ x ∈ G.nodes, ∑ c ∈ G.callees g, if c ≠ g ∧ G.Reaches c x then G.own x else 0 :=
      Finset.sum_comm
    _ = _ := by
      refine Finset.sum_congr rfl fun x _ => ?_
      rw [← Finset.sum_filter, Finset.sum_const_nat fun _ _ => rfl, Nat.mul_comm]

theorem calleeSum_eq (g : α) : G.calleeSum g = ∑ x ∈ G.nodes, G.own x * G.routes g x := by
  classical
  rw [calleeSum, callees_sum_eq]
  conv_lhs => rw [own_eq]
  rw [← Finset.sum_add_distrib]
  refine Finset.sum_congr rfl fun x _ => ?_
  rw [← Nat.mul_add, routes]

/-- The callees' sums add up at `g` if and only if no count is reached in two ways from `g`. -/
theorem reachSum_eq_calleeSum_iff (g : α) :
    G.reachSum g = G.calleeSum g ↔ ∀ x, G.own x ≠ 0 → G.routes g x ≤ 1 := by
  rw [reachSum_eq, calleeSum_eq, Finset.sum_eq_sum_iff_of_le fun x _ =>
    Nat.mul_le_mul_left _ (Nat.min_le_right 1 (G.routes g x))]
  constructor
  · intro equal x counts
    have inside : x ∈ G.nodes := Classical.byContradiction fun outside =>
      counts (G.own_outside x outside)
    have same := Nat.eq_of_mul_eq_mul_left (Nat.pos_of_ne_zero counts) (equal x inside)
    exact same ▸ Nat.min_le_left 1 _
  · intro single x _
    by_cases counts : G.own x = 0
    · rw [counts, Nat.zero_mul, Nat.zero_mul]
    · rw [Nat.min_eq_right (single x counts)]

/-! ### Nodes that reach each other -/

/-- A node that another one reaches and is reached by has nothing to add up: each count that it
reaches is reached in two ways somewhere. -/
theorem own_eq_zero_of_mutual (single : G.Single) {f z x : α} (other : z ≠ f)
    (there : G.Reaches f z) (back : G.Reaches z f) (reaches : G.Reaches f x) : G.own x = 0 := by
  classical
  induction reaches using Relation.ReflTransGen.head_induction_on generalizing z with
  | refl =>
    by_contra counts
    rcases G.reaches_iff_head.mp there with same | ⟨c, call, ne, rest⟩
    · exact other same
    · have mem : c ∈ (G.callees x).filter fun c => c ≠ x ∧ G.Reaches c x :=
        Finset.mem_filter.mpr ⟨call, ne, rest.trans back⟩
      have most := single x x counts
      have pos := Finset.card_pos.mpr ⟨c, mem⟩
      rw [routes, if_pos rfl] at most
      omega
  | head call rest ih =>
    rename_i f d
    by_cases same : d = f
    · exact ih (z := z) (same ▸ other) (same ▸ there) (same ▸ back)
    by_cases returns : G.Reaches d f
    · exact ih (z := f) (Ne.symm same) returns (.single call)
    by_contra counts
    rcases G.reaches_iff_head.mp there with same' | ⟨c, call', ne, rest'⟩
    · exact other same'
    · have apart : c ≠ d := fun eq => returns (eq ▸ rest'.trans back)
      have both : {c, d} ⊆ (G.callees f).filter fun c => c ≠ f ∧ G.Reaches c x := by
        intro e mem
        rcases Finset.mem_insert.mp mem with rfl | mem
        · exact Finset.mem_filter.mpr ⟨call', ne, (rest'.trans back).trans (.head call rest)⟩
        · cases Finset.mem_singleton.mp mem
          exact Finset.mem_filter.mpr ⟨call, same, rest⟩
      have two := Finset.card_le_card both
      have most := single f x counts
      rw [Finset.card_pair apart] at two
      rw [routes] at most
      omega

theorem reachSum_eq_zero_of_mutual (single : G.Single) {f z : α} (other : z ≠ f)
    (there : G.Reaches f z) (back : G.Reaches z f) : G.reachSum f = 0 := by
  classical
  refine Finset.sum_eq_zero fun x mem => ?_
  exact G.own_eq_zero_of_mutual single other there back (Finset.mem_filter.mp mem).2

/-! ### The search -/

variable [DecidableEq α]

/-- The calls of `call` one after the other, their results added up. -/
def sumAll (call : α → FMap α Nat → Option (Nat × FMap α Nat)) :
    List α → Nat → FMap α Nat → Option (Nat × FMap α Nat)
  | [], total, memo => some (total, memo)
  | c :: cs, total, memo => do
      let (v, memo) ← call c memo
      sumAll call cs (total + v) memo

/-- The sum that is stored for `f`, nothing where `f` is on the stack, or else its own count and the
sums of its callees in some order. -/
def visit (own : α → Nat) (order : α → List α) :
    Nat → α → FMap α Nat → List α → Option (Nat × FMap α Nat)
  | 0, _, _, _ => none
  | fuel + 1, f, memo, stack =>
      match memo.lookup f with
      | some v => some (v, memo)
      | none =>
        if f ∈ stack then some (0, memo)
        else do
          let (total, memo) ← sumAll (fun c memo => visit own order fuel c memo (f :: stack))
            (order f) (own f) memo
          some (total, memo.insert f total)

/-- The memo after some searches, each with an empty stack. -/
def visits (search : α → FMap α Nat → List α → Option (Nat × FMap α Nat)) :
    List α → FMap α Nat → Option (FMap α Nat)
  | [], memo => some memo
  | f :: fs, memo => do
      let (_, memo) ← search f memo []
      visits search fs memo

/-- An order of the callees of each node. -/
def Orders (order : α → List α) : Prop := ∀ f, (order f).Nodup ∧ (order f).toFinset = G.callees f

def enough : Nat := G.nodes.card + 2

/-- The search returns the sum over what is reached, in any order and after any other searches. -/
def CountsOnce : Prop :=
  ∀ order, G.Orders order → ∀ fuel, G.enough ≤ fuel → ∀ (earlier : List α) (f : α),
    ∃ memo memo', visits (visit G.own order fuel) earlier ∅ = some memo ∧
      visit G.own order fuel f memo [] = some (G.reachSum f, memo')

/-! ### What a search leaves alone -/

section Search

variable {G} {own : α → Nat} {order : α → List α}

/-- From `memo` to `memo'`, what is stored stays, and nothing is stored for what is on the stack. -/
structure Grows (stack : List α) (memo memo' : FMap α Nat) : Prop where
  stays : ∀ k w, memo.lookup k = some w → memo'.lookup k = some w
  held : ∀ k ∈ stack, memo'.lookup k = memo.lookup k

theorem Grows.refl (stack : List α) (memo : FMap α Nat) : Grows stack memo memo where
  stays _ _ stored := stored
  held _ _ := rfl

theorem Grows.trans {stack : List α} {a b c : FMap α Nat} (first : Grows stack a b)
    (second : Grows stack b c) : Grows stack a c where
  stays k w stored := second.stays k w (first.stays k w stored)
  held k mem := (second.held k mem).trans (first.held k mem)

theorem sumAll_grows {call : α → FMap α Nat → Option (Nat × FMap α Nat)} {stack : List α}
    (each : ∀ c memo v memo', call c memo = some (v, memo') → Grows stack memo memo')
    {cs : List α} {t total : Nat} {memo memo' : FMap α Nat}
    (run : sumAll call cs t memo = some (total, memo')) : Grows stack memo memo' := by
  induction cs generalizing t memo with
  | nil =>
    cases run
    exact .refl stack _
  | cons c cs ih =>
    rcases Option.bind_eq_some_iff.mp run with ⟨⟨v, between⟩, first, rest⟩
    exact (each c memo v between first).trans (ih rest)

/-- What one search does to the memo, and what it stores or finds for its node. -/
structure Visited (f : α) (stack : List α) (memo : FMap α Nat) (v : Nat) (memo' : FMap α Nat) :
    Prop where
  grows : Grows stack memo memo'
  stored : f ∉ stack → memo'.lookup f = some v
  cut : f ∈ stack → v = (memo.lookup f).getD 0

theorem visit_visited {fuel : Nat} {f : α} {stack : List α} {memo memo' : FMap α Nat} {v : Nat}
    (run : visit own order fuel f memo stack = some (v, memo')) :
    Visited f stack memo v memo' := by
  induction fuel generalizing f stack memo memo' v with
  | zero => cases run
  | succ fuel ih =>
    unfold visit at run
    split at run
    · rename_i w found
      cases run
      exact ⟨.refl stack _, fun _ => found, fun _ => by rw [found, Option.getD_some]⟩
    · rename_i missing
      split at run
      · rename_i mem
        cases run
        exact ⟨.refl stack _, fun fresh => absurd mem fresh, fun _ => by
          rw [missing, Option.getD_none]⟩
      · rename_i fresh
        rcases Option.bind_eq_some_iff.mp run with ⟨⟨total, between⟩, sums, last⟩
        cases last
        have grows := sumAll_grows (fun c memo v memo' run => (ih run).grows) sums
        refine ⟨⟨fun k w stored => ?_, fun k mem => ?_⟩, fun _ => AList.lookup_insert _,
          fun mem => absurd mem fresh⟩
        · have other : k ≠ f := fun same => by cases missing.symm.trans (same ▸ stored)
          rw [AList.lookup_insert_ne other]
          exact grows.stays k w stored
        · rw [AList.lookup_insert_ne (ne_of_mem_of_not_mem mem fresh)]
          exact grows.held k (List.mem_cons_of_mem f mem)

/-! ### A search comes to an end -/

omit [DecidableEq α] in
theorem sumAll_ends {call : α → FMap α Nat → Option (Nat × FMap α Nat)} {cs : List α}
    (each : ∀ c ∈ cs, ∀ memo, ∃ r, call c memo = some r) (t : Nat) (memo : FMap α Nat) :
    ∃ r, sumAll call cs t memo = some r := by
  induction cs generalizing t memo with
  | nil => exact ⟨_, rfl⟩
  | cons c cs ih =>
    rcases each c List.mem_cons_self memo with ⟨⟨v, between⟩, first⟩
    rcases ih (fun c mem => each c (List.mem_cons_of_mem _ mem)) (t + v) between with ⟨r, rest⟩
    exact ⟨r, Option.bind_eq_some_iff.mpr ⟨_, first, rest⟩⟩

theorem visit_ends (orders : G.Orders order) {fuel : Nat} {stack : List α} (f : α)
    (memo : FMap α Nat) (fueled : (G.nodes \ stack.toFinset).card + 1 < fuel) :
    ∃ r, visit own order fuel f memo stack = some r := by
  induction fuel generalizing f stack memo with
  | zero => exact absurd fueled (Nat.not_lt_zero _)
  | succ fuel ih =>
    unfold visit
    split
    · exact ⟨_, rfl⟩
    · split
      · exact ⟨_, rfl⟩
      · rename_i fresh
        have each : ∀ c ∈ order f, ∀ memo,
            ∃ r, visit own order fuel c memo (f :: stack) = some r := by
          intro c mem memo
          -- A node that calls another one is among the nodes, and there is one less of them now.
          have called : c ∈ G.callees f := (orders f).2 ▸ List.mem_toFinset.mpr mem
          have inside : f ∈ G.nodes := Classical.byContradiction fun outside => by
            rw [G.callees_outside f outside] at called
            cases called
          have mem' : f ∈ G.nodes \ stack.toFinset :=
            Finset.mem_sdiff.mpr ⟨inside, fun on => fresh (List.mem_toFinset.mp on)⟩
          refine ih c memo ?_
          rw [List.toFinset_cons, Finset.sdiff_insert, Finset.card_erase_of_mem mem']
          have pos := Finset.card_pos.mpr ⟨f, mem'⟩
          omega
        rcases sumAll_ends each (own f) memo with ⟨⟨total, between⟩, sums⟩
        exact ⟨_, Option.bind_eq_some_iff.mpr ⟨_, sums, rfl⟩⟩

variable (own) in
theorem visit_ends_enough (orders : G.Orders order) {fuel : Nat} (fueled : G.enough ≤ fuel)
    (f : α) (memo : FMap α Nat) : ∃ r, visit own order fuel f memo [] = some r := by
  refine visit_ends orders f memo (Nat.lt_of_lt_of_le ?_ fueled)
  have most := Finset.card_le_card (Finset.sdiff_subset (s := G.nodes) (t := [].toFinset))
  rw [enough]
  omega

/-! ### When the search is right -/

variable (G) in
def Right (memo : FMap α Nat) : Prop := ∀ k w, memo.lookup k = some w → w = G.reachSum k

theorem right_empty : G.Right ∅ := fun _ _ stored => by cases stored

theorem sum_order (orders : G.Orders order) (f : α) (val : α → Nat) :
    ((order f).map val).sum = ∑ c ∈ G.callees f, val c := by
  rw [← (orders f).2, List.sum_toFinset val (orders f).1]

theorem calleeSum_order (orders : G.Orders order) (f : α) :
    G.own f + ((order f).map fun c => if c = f then 0 else G.reachSum c).sum = G.calleeSum f := by
  rw [sum_order orders, calleeSum]
  refine congrArg (G.own f + ·) (Finset.sum_congr rfl fun c _ => ?_)
  by_cases same : c = f
  · rw [if_pos same, if_pos same]
  · rw [if_neg same, if_neg same]

omit [DecidableEq α] in
theorem sumAll_total {call : α → FMap α Nat → Option (Nat × FMap α Nat)} {val : α → Nat}
    {good : FMap α Nat → Prop} {cs : List α} {t total : Nat} {memo memo' : FMap α Nat}
    (each : ∀ c ∈ cs, ∀ memo v memo', good memo → call c memo = some (v, memo') →
      good memo' ∧ v = val c)
    (start : good memo) (run : sumAll call cs t memo = some (total, memo')) :
    good memo' ∧ total = t + (cs.map val).sum := by
  induction cs generalizing t memo with
  | nil =>
    cases run
    exact ⟨start, rfl⟩
  | cons c cs ih =>
    rcases Option.bind_eq_some_iff.mp run with ⟨⟨v, between⟩, first, rest⟩
    have ⟨next, same⟩ := each c List.mem_cons_self memo v between start first
    have ⟨last, sum⟩ := ih (fun c mem => each c (List.mem_cons_of_mem _ mem)) next rest
    refine ⟨last, ?_⟩
    rw [sum, same, List.map_cons, List.sum_cons, Nat.add_assoc]

/-- The stack is a path to the node, so a callee on it that is another node has nothing to add. -/
theorem visit_right (single : G.Single) (orders : G.Orders order) {fuel : Nat} {f : α}
    {stack : List α} {memo memo' : FMap α Nat} {v : Nat} (right : G.Right memo)
    (path : ∀ s ∈ stack, G.Reaches s f)
    (run : visit G.own order fuel f memo stack = some (v, memo')) :
    G.Right memo' ∧ v = if f ∈ stack ∧ memo.lookup f = none then 0 else G.reachSum f := by
  induction fuel generalizing f stack memo memo' v with
  | zero => cases run
  | succ fuel ih =>
    unfold visit at run
    split at run
    · rename_i w found
      cases run
      refine ⟨right, ?_⟩
      rw [if_neg fun both => by cases found.symm.trans both.2]
      exact right f _ found
    · rename_i missing
      split at run
      · rename_i mem
        cases run
        exact ⟨right, (if_pos ⟨mem, missing⟩).symm⟩
      · rename_i fresh
        rcases Option.bind_eq_some_iff.mp run with ⟨⟨total, between⟩, sums, last⟩
        cases last
        have each : ∀ c ∈ order f, ∀ memo v memo', G.Right memo ∧ memo.lookup f = none →
            visit G.own order fuel c memo (f :: stack) = some (v, memo') →
            (G.Right memo' ∧ memo'.lookup f = none) ∧ v = if c = f then 0 else G.reachSum c := by
          rintro c mem memo v memo' ⟨right, missing⟩ run
          have call : c ∈ G.callees f := (orders f).2 ▸ List.mem_toFinset.mpr mem
          have path' : ∀ s ∈ f :: stack, G.Reaches s c :=
            List.forall_mem_cons.mpr ⟨.single call, fun s mem => (path s mem).tail call⟩
          have ⟨next, same⟩ := ih right path' run
          have held := (visit_visited run).grows.held f List.mem_cons_self
          refine ⟨⟨next, held.trans missing⟩, same.trans ?_⟩
          by_cases self : c = f
          · rw [if_pos self, if_pos ⟨self ▸ List.mem_cons_self, self ▸ missing⟩]
          · rw [if_neg self]
            split
            · rename_i cut
              have on : c ∈ stack := (List.mem_cons.mp cut.1).resolve_left self
              exact (G.reachSum_eq_zero_of_mutual single (Ne.symm self) (path c on)
                (.single call)).symm
            · rfl
        rcases sumAll_total each ⟨right, missing⟩ sums with ⟨⟨next, -⟩, sum⟩
        have same : v = G.reachSum f := by
          calc
            v = G.calleeSum f := sum.trans (calleeSum_order orders f)
            _ = G.reachSum f := ((G.reachSum_eq_calleeSum_iff f).mpr (single f)).symm
        refine ⟨fun k w stored => ?_, ?_⟩
        · by_cases here : k = f
          · cases here
            rw [AList.lookup_insert] at stored
            cases stored
            exact same
          · rw [AList.lookup_insert_ne here] at stored
            exact next k w stored
        · rw [if_neg fun both => fresh both.1]
          exact same

theorem visits_right (single : G.Single) (orders : G.Orders order) {fuel : Nat}
    (fueled : G.enough ≤ fuel) (fs : List α) {memo : FMap α Nat} (right : G.Right memo) :
    ∃ memo', visits (visit G.own order fuel) fs memo = some memo' ∧ G.Right memo' := by
  induction fs generalizing memo with
  | nil => exact ⟨memo, rfl, right⟩
  | cons f fs ih =>
    rcases visit_ends_enough G.own orders fueled f memo with ⟨⟨v, between⟩, run⟩
    have next := (visit_right single orders right (fun s mem => by cases mem) run).1
    rcases ih next with ⟨memo', rest, right'⟩
    exact ⟨memo', Option.bind_eq_some_iff.mpr ⟨_, run, rest⟩, right'⟩

theorem countsOnce_of_single (single : G.Single) : G.CountsOnce := by
  intro order orders fuel fueled earlier f
  rcases visits_right single orders fueled earlier right_empty with ⟨memo, first, right⟩
  rcases visit_ends_enough G.own orders fueled f memo with ⟨⟨v, memo'⟩, run⟩
  have same := (visit_right single orders right (fun s mem => by cases mem) run).2
  rw [if_neg fun both => by cases both.1] at same
  exact ⟨memo, memo', first, same ▸ run⟩

/-! ### And when it is not -/

/-- If all that is stored in the end is right, the sums of the callees are what was added up. -/
theorem sumAll_of_right {fuel : Nat} {g : α} {cs : List α} {t total : Nat}
    {memo memo' : FMap α Nat} (right : G.Right memo') (missing : memo.lookup g = none)
    (run : sumAll (fun c memo => visit G.own order fuel c memo [g]) cs t memo =
      some (total, memo')) :
    total = t + (cs.map fun c => if c = g then 0 else G.reachSum c).sum := by
  induction cs generalizing t memo with
  | nil =>
    cases run
    rfl
  | cons c cs ih =>
    rcases Option.bind_eq_some_iff.mp run with ⟨⟨v, between⟩, first, rest⟩
    have visited := visit_visited first
    have held := visited.grows.held g List.mem_cons_self
    have same : v = if c = g then 0 else G.reachSum c := by
      by_cases self : c = g
      · rw [if_pos self, visited.cut (self ▸ List.mem_cons_self), self, missing, Option.getD_none]
      · rw [if_neg self]
        have stored := visited.stored fun mem => self (List.mem_singleton.mp mem)
        have grows : Grows [g] between memo' :=
          sumAll_grows (fun c memo v memo' run => (visit_visited run).grows) rest
        exact right c v (grows.stays c v stored)
    rw [ih (held.trans missing) rest, List.map_cons, List.sum_cons, same, Nat.add_assoc]

/-- Whatever is in the memo after a search is what the next search for it would return. -/
theorem right_of_countsOnce (once : G.CountsOnce) (orders : G.Orders order) {fuel : Nat}
    (fueled : G.enough ≤ fuel) {g : α} {v : Nat} {memo : FMap α Nat}
    (run : visit G.own order fuel g ∅ [] = some (v, memo)) : G.Right memo := by
  intro k w stored
  rcases once order orders fuel fueled [g] k with ⟨memo₁, memo₂, first, second⟩
  have same : memo₁ = memo := by
    rcases Option.bind_eq_some_iff.mp first with ⟨⟨v', between⟩, run', last⟩
    cases run.symm.trans run'
    cases last
    rfl
  rw [same] at second
  cases fuel with
  | zero => cases second
  | succ fuel =>
    rw [visit, stored] at second
    cases second
    rfl

theorem single_of_countsOnce (once : G.CountsOnce) : G.Single := by
  intro g
  have orders : G.Orders fun f => (G.callees f).toList := fun f =>
    ⟨Finset.nodup_toList _, Finset.toList_toFinset _⟩
  rcases once _ orders G.enough (Nat.le_refl _) [] g with ⟨memo, memo', first, run⟩
  cases first
  have right := right_of_countsOnce once orders (Nat.le_refl _) run
  refine (G.reachSum_eq_calleeSum_iff g).mp ?_
  rw [enough, visit, AList.lookup_empty] at run
  rcases Option.bind_eq_some_iff.mp run with ⟨⟨total, between⟩, sums, last⟩
  have same : total = G.reachSum g := congrArg Prod.fst (Option.some.inj last)
  have final : between.insert g total = memo' := congrArg Prod.snd (Option.some.inj last)
  have self : between.lookup g = none :=
    (sumAll_grows (fun c memo v memo' run => (visit_visited run).grows) sums).held g
      List.mem_cons_self
  have right' : G.Right between := by
    intro k w stored
    have other : k ≠ g := fun eq => by cases self.symm.trans (eq ▸ stored)
    exact right k w (final ▸ (AList.lookup_insert_ne other).trans stored)
  have sum := sumAll_of_right right' (AList.lookup_empty g) sums
  rw [← same, sum, calleeSum_order orders]

end Search

/-- The search counts each node once if and only if no count is reached in two ways. -/
theorem countsOnce_iff : G.CountsOnce ↔ G.Single :=
  ⟨single_of_countsOnce, countsOnce_of_single⟩

end CallGraph
end LispRlm.Foundation
