import LispRlm.WasmEmit.MemoLocals
import Mathlib.Algebra.Ring.Int.Defs

/-! Runs in which no stale memo is read: every memo that is read has the parse of its variable. -/

namespace LispRlm.WasmEmit.ParseCache

open Emitter

section

variable {W α β : Type}

/-- Before and after a run whose reads are of memos that are not stale, all of them agree. -/
def Holds (thrown recurred pre post : State W → Prop) (m : Run W α) : Prop :=
  ∀ s, pre s → (∀ u ∈ (m s).log, u.stale = false) →
    (∀ u ∈ (m s).log, u.agrees = true) ∧
      match (m s).ending with
      | .done _ s' => post s'
      | .throws _ s' => thrown s'
      | .recurs s' => recurred s'
      | .traps | .outOfFuel => True

namespace Holds

variable {T A P Q R : State W → Prop}

theorem silent {m : Run W α} {value : State W → α} {next : State W → State W}
    (step : ∀ s, m s = ⟨[], .done (value s) (next s)⟩) (keeps : ∀ s, P s → Q (next s)) :
    Holds T A P Q m := by
  intro s holds _
  rw [step]
  exact ⟨fun u mem => (List.not_mem_nil mem).elim, keeps s holds⟩

theorem pure (a : α) : Holds T A P P (Pure.pure a : Run W α) :=
  fun _ holds _ => ⟨fun _ mem => (List.not_mem_nil mem).elim, holds⟩

theorem trap : Holds T A P Q (Run.trap : Run W α) :=
  fun _ _ _ => ⟨fun _ mem => (List.not_mem_nil mem).elim, trivial⟩

theorem spent : Holds T A P Q (Run.spent : Run W α) :=
  fun _ _ _ => ⟨fun _ mem => (List.not_mem_nil mem).elim, trivial⟩

theorem recur : Holds T A A Q (Run.recur : Run W α) :=
  fun _ holds _ => ⟨fun _ mem => (List.not_mem_nil mem).elim, holds⟩

theorem bind {m : Run W α} {f : α → Run W β} (first : Holds T A P Q m)
    (second : ∀ a, Holds T A Q R (f a)) : Holds T A P R (m >>= f) := by
  intro s holds clean
  have unfolded : (m >>= f) s = Run.bind m f s := rfl
  rw [unfolded] at clean ⊢
  simp only [Run.bind] at clean ⊢
  have started := first s holds
  cases ending : (m s).ending with
  | done a s' =>
      simp only [ending] at started clean ⊢
      obtain ⟨agree, middle⟩ := started fun u mem => clean u (List.mem_append_left _ mem)
      obtain ⟨agree', ended⟩ :=
        second a s' middle fun u mem => clean u (List.mem_append_right _ mem)
      exact ⟨List.forall_mem_append.mpr ⟨agree, agree'⟩, ended⟩
  | throws message s' =>
      simp only [ending] at started clean ⊢
      exact started clean
  | recurs s' =>
      simp only [ending] at started clean ⊢
      exact started clean
  | traps =>
      simp only [ending] at started clean ⊢
      exact started clean
  | outOfFuel =>
      simp only [ending] at started clean ⊢
      exact started clean

theorem mono {T' A' P' Q' : State W → Prop} {m : Run W α} (holds : Holds T A P Q m)
    (thrown : ∀ s, T s → T' s) (recurred : ∀ s, A s → A' s) (pre : ∀ s, P' s → P s)
    (post : ∀ s, Q s → Q' s) : Holds T' A' P' Q' m := by
  intro s start clean
  obtain ⟨agree, ended⟩ := holds s (pre s start) clean
  refine ⟨agree, ?_⟩
  cases ending : (m s).ending with
  | done a s' =>
      rw [ending] at ended
      exact post s' ended
  | throws message s' =>
      rw [ending] at ended
      exact thrown s' ended
  | recurs s' =>
      rw [ending] at ended
      exact recurred s' ended
  | traps => trivial
  | outOfFuel => trivial

theorem again {turn : Run W Bool} (holds : Holds T A P P turn) (fuel : Nat) :
    Holds T A P P (Run.again turn fuel) := by
  induction fuel with
  | zero => exact spent
  | succ fuel ih =>
      apply bind holds
      intro more
      cases more with
      | true => exact ih
      | false => exact pure ()

theorem forAll {turn : Nat → Run W α} (holds : ∀ k, Holds T A P P (turn k)) (ks : List Nat) :
    Holds T A P P (Run.forAll turn ks) := by
  induction ks with
  | nil => exact pure []
  | cons k ks ih =>
      apply bind (holds k)
      intro v
      apply bind ih
      intro vs
      exact pure _

theorem attempt {body : Run W Int} {handler : Int → Run W Int} (tried : Holds R A P Q body)
    (handled : ∀ message, Holds T A R Q (handler message)) :
    Holds T A P Q (Run.attempt body handler) := by
  intro s holds clean
  have started := tried s holds
  unfold Run.attempt at clean ⊢
  cases ending : (body s).ending with
  | throws message s' =>
      simp only [ending] at started clean ⊢
      obtain ⟨agree, thrown⟩ := started fun u mem => clean u (List.mem_append_left _ mem)
      obtain ⟨agree', ended⟩ :=
        handled message s' thrown fun u mem => clean u (List.mem_append_right _ mem)
      exact ⟨List.forall_mem_append.mpr ⟨agree, agree'⟩, ended⟩
  | done a s' =>
      simp only [ending] at started clean ⊢
      exact started clean
  | recurs s' =>
      simp only [ending] at started clean ⊢
      exact started clean
  | traps =>
      simp only [ending] at started clean ⊢
      exact started clean
  | outOfFuel =>
      simp only [ending] at started clean ⊢
      exact started clean

theorem turns {body : Run W Int} (holds : Holds T P P Q body) (fuel : Nat) :
    Holds T P P Q (Run.turns body fuel) := by
  induction fuel with
  | zero => exact spent
  | succ fuel ih =>
      intro s start clean
      have started := holds s start
      simp only [Run.turns] at clean ⊢
      cases ending : (body s).ending with
      | recurs s' =>
          simp only [ending] at started clean ⊢
          obtain ⟨agree, again⟩ := started fun u mem => clean u (List.mem_append_left _ mem)
          obtain ⟨agree', ended⟩ := ih s' again fun u mem => clean u (List.mem_append_right _ mem)
          exact ⟨List.forall_mem_append.mpr ⟨agree, agree'⟩, ended⟩
      | done a s' =>
          simp only [ending] at started clean ⊢
          exact started clean
      | throws message s' =>
          simp only [ending] at started clean ⊢
          exact started clean
      | traps =>
          simp only [ending] at started clean ⊢
          exact started clean
      | outOfFuel =>
          simp only [ending] at started clean ⊢
          exact started clean

end Holds

/-! ### Memos -/

/-- Where the memos are not stale, they have the parse of their variables in scope; `but` excepts
the variables whose memo is about to be cleared. -/
def Coherent (p : Program W) (φ σ : Emitter) (but : String → Prop) (s : State W) : Prop :=
  ∀ x, ¬but x → ∀ f l h i, φ.slot (.memo .flag x) = some f → φ.slot (.memo .lo x) = some l →
    φ.slot (.memo .hi x) = some h → s.frame f ≠ 0 → s.stale x = false →
      σ.slot (.var x) = some i → p.parse (s.frame i) = some (s.frame l, s.frame h)

def nobody (_ : String) : Prop := False

/-- A place of the emission of a function whose locals end as `φ`. -/
structure At (φ σ : Emitter) : Prop where
  wf : Wf σ
  grows : Grows σ φ
  allNew : φ.allNew = true

namespace At

variable {φ σ τ : Emitter}

theorem later (at_ : At φ σ) (first : Grows σ τ) (rest : Grows τ φ) : At φ τ :=
  ⟨first.wf (rest.allNew at_.allNew) at_.wf, rest, at_.allNew⟩

/-- No other local is at a memo's slot. -/
theorem apart (at_ : At φ σ) {k : Local} (notMemo : k.isMemo = false) {i : Nat}
    (found : σ.slot k = some i) {part : Part} {x : String} {j : Nat}
    (memo : φ.slot (.memo part x) = some j) : i ≠ j := by
  intro same
  subst same
  cases at_.grows.news at_.allNew part x i memo with
  | inl here =>
      have isMemo := (at_.wf.apart part x i here).2 k found
      rw [isMemo] at notMemo
      cases notMemo
  | inr late =>
      have lower := at_.wf.lt k i found
      omega

theorem memo_ne (at_ : At φ σ) {part part' : Part} {x y : String} {i j : Nat}
    (found : φ.slot (.memo part x) = some i) (found' : φ.slot (.memo part' y) = some j)
    (other : Local.memo part x ≠ Local.memo part' y) : i ≠ j := by
  intro same
  subst same
  have wf := at_.grows.wf at_.allNew at_.wf
  exact other ((wf.apart part' y i found').2 _ found)

end At

namespace Coherent

variable {p : Program W} {φ σ τ : Emitter} {b b' : String → Prop} {s : State W}

/-- The same memos seen from another scope. -/
theorem rescope (coherent : Coherent p φ σ b s)
    (scopes : ∀ y, ¬b' y → ¬b y ∧ ∀ i, τ.slot (.var y) = some i → σ.slot (.var y) = some i) :
    Coherent p φ τ b' s := by
  intro x free f l h i flag lo hi set fresh slot
  obtain ⟨free', back⟩ := scopes x free
  exact coherent x free' f l h i flag lo hi set fresh (back i slot)

theorem inner (coherent : Coherent p φ τ nobody s) (scopes : Scopes σ τ) :
    Coherent p φ σ nobody s :=
  coherent.rescope fun y free => ⟨free, scopes y⟩

end Coherent

theorem Holds.enter {T A : State W → Prop} {p : Program W} {φ σ τ : Emitter}
    (scopes : Scopes σ τ) :
    Holds T A (Coherent p φ σ nobody) (Coherent p φ τ nobody) (Run.enter σ) := by
  apply Holds.silent (fun _ => rfl)
  intro s coherent x free f l h i flag lo hi set fresh slot
  simp only [Bool.or_eq_false_iff] at fresh
  cases found : σ.slot (.var x) with
  | none =>
      rw [found] at fresh
      cases fresh.2
  | some j =>
      have same := scopes x j found
      rw [slot] at same
      cases same
      exact coherent x free f l h i flag lo hi set fresh.1 found

theorem Holds.set {T A : State W → Prop} {p : Program W} {φ σ : Emitter} (at_ : At φ σ)
    {k : Local} (notMemo : k.isMemo = false) (v : Int) (b : String → Prop) :
    Holds T A (Coherent p φ σ b) (Coherent p φ σ fun y => b y ∨ Local.var y = k)
      (Run.set σ k v) := by
  intro s coherent _
  unfold Run.set
  cases found : σ.slot k with
  | none =>
      refine ⟨fun u mem => (List.not_mem_nil mem).elim, ?_⟩
      exact coherent.rescope fun y free => ⟨fun but => free (.inl but), fun _ slot => slot⟩
  | some i =>
      refine ⟨fun u mem => (List.not_mem_nil mem).elim, ?_⟩
      intro x free f l h j flag lo hi set fresh slot
      have other : Local.var x ≠ k := fun same => free (.inr same)
      have elsewhere : j ≠ i := by
        intro same
        rw [same] at slot
        simp [other, slot] at fresh
      have flagElse : f ≠ i := fun same => at_.apart notMemo found flag same.symm
      have loElse : l ≠ i := fun same => at_.apart notMemo found lo same.symm
      have hiElse : h ≠ i := fun same => at_.apart notMemo found hi same.symm
      simp only [if_neg flagElse] at set
      simp only [Bool.or_eq_false_iff] at fresh
      simp only [if_neg elsewhere, if_neg loElse, if_neg hiElse]
      exact coherent x (fun but => free (.inl but)) f l h j flag lo hi set fresh.1 slot

theorem Holds.clear {T A : State W → Prop} {p : Program W} {φ σ τ : Emitter} (at_ : At φ σ)
    (code : Grows τ φ) {x : String} (has : (τ.slot (.memo .flag x)).isSome = true)
    (b : String → Prop) :
    Holds T A (Coherent p φ σ b) (Coherent p φ σ fun y => b y ∧ y ≠ x) (Run.clear τ x) := by
  intro s coherent _
  obtain ⟨g, found⟩ := Option.isSome_iff_exists.mp has
  have memo := code.keeps _ _ _ found
  unfold Run.clear
  rw [found]
  refine ⟨fun u mem => (List.not_mem_nil mem).elim, ?_⟩
  intro y free f l h j flag lo hi set fresh slot
  by_cases same : y = x
  · subst same
    have isFlag : f = g := Option.some.inj (flag.symm.trans memo)
    simp only [if_pos isFlag] at set
    exact absurd rfl set
  · have flagElse : f ≠ g := at_.memo_ne flag memo fun equal => by cases equal; exact same rfl
    have loElse : l ≠ g := at_.memo_ne lo memo fun equal => by cases equal
    have hiElse : h ≠ g := at_.memo_ne hi memo fun equal => by cases equal
    have slotElse : j ≠ g := at_.apart rfl slot memo
    simp only [if_neg flagElse] at set
    simp only [if_neg same] at fresh
    simp only [if_neg slotElse, if_neg loElse, if_neg hiElse]
    exact coherent y (fun but => free ⟨but, same⟩) f l h j flag lo hi set fresh slot

theorem Holds.leave {T A : State W → Prop} {p : Program W} {φ σ : Emitter} (x : String)
    (b : String → Prop) :
    Holds T A (Coherent p φ σ b) (Coherent p φ σ fun y => b y ∧ y ≠ x) (Run.leave x) := by
  apply Holds.silent (fun _ => rfl)
  intro s coherent y free f l h i flag lo hi set fresh slot
  simp only [Bool.or_eq_false_iff, decide_eq_false_iff_not] at fresh
  exact coherent y (fun but => free ⟨but, fresh.1⟩) f l h i flag lo hi set fresh.2 slot

theorem Holds.readMemo {T A : State W → Prop} {p : Program W} {φ σ : Emitter} (at_ : At φ σ)
    (x : String) :
    Holds T A (Coherent p φ σ nobody) (Coherent p φ σ nobody) (Run.readMemo p.parse σ x) := by
  intro s coherent clean
  unfold Run.readMemo at clean ⊢
  cases slot : σ.slot (.var x) with
  | none => exact ⟨fun u mem => (List.not_mem_nil mem).elim, trivial⟩
  | some i =>
  cases flag : σ.slot (.memo .flag x) with
  | none => exact ⟨fun u mem => (List.not_mem_nil mem).elim, trivial⟩
  | some f =>
  cases lo : σ.slot (.memo .lo x) with
  | none => exact ⟨fun u mem => (List.not_mem_nil mem).elim, trivial⟩
  | some l =>
  cases hi : σ.slot (.memo .hi x) with
  | none => exact ⟨fun u mem => (List.not_mem_nil mem).elim, trivial⟩
  | some h =>
  have flag' := at_.grows.keeps _ _ _ flag
  have lo' := at_.grows.keeps _ _ _ lo
  have hi' := at_.grows.keeps _ _ _ hi
  simp only [slot, flag, lo, hi] at clean ⊢
  by_cases set : s.frame f ≠ 0
  · simp only [if_pos set] at clean ⊢
    have fresh : s.stale x = false := clean _ (List.mem_singleton.mpr rfl)
    have agree := coherent x id f l h i flag' lo' hi' set fresh slot
    refine ⟨?_, coherent⟩
    intro u mem
    rw [List.mem_singleton.mp mem]
    exact decide_eq_true agree
  · simp only [if_neg set] at clean ⊢
    cases parsed : p.parse (s.frame i) with
    | none => exact ⟨fun u mem => (List.not_mem_nil mem).elim, trivial⟩
    | some limbs =>
        obtain ⟨a, b⟩ := limbs
        refine ⟨fun u mem => (List.not_mem_nil mem).elim, ?_⟩
        -- the filled memo has the parse, and the others are at other slots
        intro y free g m n j flagY loY hiY setY freshY slotY
        have off : ∀ {part k}, σ.slot (.var y) = some j → φ.slot (.memo part x) = some k →
            j ≠ k := fun found memo => at_.apart rfl found memo
        have value : (if j = f then (1 : Int) else if j = h then b else if j = l then a
            else s.frame j) = s.frame j := by
          rw [if_neg (off slotY flag'), if_neg (off slotY hi'), if_neg (off slotY lo')]
        simp only [value]
        by_cases same : y = x
        · subst same
          have loIs : m = l := Option.some.inj (loY.symm.trans lo')
          have hiIs : n = h := Option.some.inj (hiY.symm.trans hi')
          have slotIs : j = i := Option.some.inj (slotY.symm.trans slot)
          subst loIs hiIs slotIs
          have loFlag : m ≠ f := at_.memo_ne lo' flag' fun equal => by cases equal
          have hiFlag : n ≠ f := at_.memo_ne hi' flag' fun equal => by cases equal
          have loHi : m ≠ n := at_.memo_ne lo' hi' fun equal => by cases equal
          simp only [if_neg loFlag, if_neg hiFlag, if_neg loHi, if_true]
          exact parsed
        · have apart : ∀ {part part' k k'}, φ.slot (.memo part y) = some k →
              φ.slot (.memo part' x) = some k' → k ≠ k' := by
            intro part part' k k' found found'
            apply at_.memo_ne found found'
            intro equal
            cases equal
            exact same rfl
          simp only [if_neg (apart flagY flag'), if_neg (apart flagY hi'),
            if_neg (apart flagY lo')] at setY
          simp only [if_neg same] at freshY
          simp only [if_neg (apart loY flag'), if_neg (apart loY hi'), if_neg (apart loY lo'),
            if_neg (apart hiY flag'), if_neg (apart hiY hi'), if_neg (apart hiY lo')]
          exact coherent y free g m n j flagY loY hiY setY freshY slotY

/-! ### Emitted code -/

/-- The same variables at the same locals. -/
def SameVars (σ τ : Emitter) : Prop := ∀ y, τ.slot (.var y) = σ.slot (.var y)

namespace SameVars

theorem foldl {α : Type} {f : Emitter → α → Emitter} (each : ∀ σ a, SameVars σ (f σ a))
    (σ : Emitter) (as : List α) : SameVars σ (as.foldl f σ) := by
  induction as generalizing σ with
  | nil => exact fun _ => rfl
  | cons a as ih => exact fun y => (ih (f σ a) y).trans (each σ a y)

theorem memo (σ : Emitter) (x : String) : SameVars σ (σ.memo x) := memo_var σ x

theorem memos (σ : Emitter) (names : List String) : SameVars σ (σ.memos names) :=
  foldl memo σ names

theorem temps (σ : Emitter) (labels : List String) : SameVars σ (σ.temps labels) :=
  foldl (fun _ label _ => localIdx_var (k := .temp label 0) fun same => nomatch same) σ labels

theorem gen (σ : Emitter) (labels : List String) : SameVars σ (σ.gen labels) :=
  foldl (fun _ label _ => localIdx_var (k := .temp label σ.gens) fun same => nomatch same) σ labels

end SameVars

theorem memos_has (σ : Emitter) {names : List String} {x : String} (mem : x ∈ names) :
    ((σ.memos names).slot (.memo .flag x)).isSome = true := by
  induction names generalizing σ with
  | nil => cases mem
  | cons y names ih =>
      cases mem with
      | head =>
          obtain ⟨i, found⟩ := Option.isSome_iff_exists.mp (memo_has σ x)
          have kept := (Goes.memos (σ.memo x) names).1.keeps _ _ _ found
          show (((σ.memo x).memos names).slot (.memo .flag x)).isSome = true
          rw [kept]
          rfl
      | tail _ later => exact ih (σ.memo y) later

section

variable {p : Program W} {φ : Emitter} {T A : State W → Prop}

theorem Coherent.vars {σ τ : Emitter} {b : String → Prop} {s : State W}
    (coherent : Coherent p φ σ b s) (same : SameVars σ τ) : Coherent p φ τ b s :=
  coherent.rescope fun y free => ⟨free, fun _ slot => (same y).symm.trans slot⟩

/-- The state where code goes on at a place with the same variables. -/
theorem Holds.vars {σ τ : Emitter} {Q : State W → Prop} {m : Run W α} (same : SameVars σ τ)
    (holds : Holds T A (Coherent p φ τ nobody) Q m) :
    Holds T A (Coherent p φ σ nobody) Q m :=
  holds.mono (fun _ h => h) (fun _ h => h) (fun _ coherent => coherent.vars same) fun _ h => h

theorem Holds.clearAll {σ τ : Emitter} (at_ : At φ σ) (code : Grows τ φ) {names : List String}
    (has : ∀ x ∈ names, (τ.slot (.memo .flag x)).isSome = true) (b : String → Prop) :
    Holds T A (Coherent p φ σ b) (Coherent p φ σ fun y => b y ∧ y ∉ names)
      (Run.clearAll τ names) := by
  induction names generalizing b with
  | nil =>
      apply (Holds.pure ()).mono (fun _ h => h) (fun _ h => h) (fun _ h => h)
      intro s coherent
      exact coherent.rescope fun y free =>
        ⟨fun but => free ⟨but, List.not_mem_nil⟩, fun _ slot => slot⟩
  | cons x names ih =>
      apply Holds.bind (Holds.clear at_ code (has x List.mem_cons_self) b)
      intro _
      apply (ih (fun y mem => has y (List.mem_cons_of_mem _ mem)) _).mono (fun _ h => h)
        (fun _ h => h) (fun _ h => h)
      intro s coherent
      apply coherent.rescope
      intro y free
      refine ⟨?_, fun _ slot => slot⟩
      intro but
      exact free ⟨but.1.1, List.not_mem_cons_of_ne_of_not_mem but.1.2 but.2⟩

/-- A write whose memo is cleared next, or left. -/
theorem Holds.rebind {σ : Emitter} (at_ : At φ σ) {x : String} (v : Int) {b : String → Prop}
    (only : ∀ y, b y → y = x) {memo : Run W Unit}
    (next : ∀ b, Holds T A (Coherent p φ σ b) (Coherent p φ σ fun y => b y ∧ y ≠ x) memo)
    {Q : State W → Prop} {rest : Run W α} (last : Holds T A (Coherent p φ σ nobody) Q rest) :
    Holds T A (Coherent p φ σ b) Q (do
      Run.set σ (.var x) v
      memo
      rest) := by
  apply Holds.bind (Holds.set at_ rfl v b)
  intro _
  apply Holds.bind (next _)
  intro _
  apply last.mono (fun _ h => h) (fun _ h => h) _ fun _ h => h
  intro s coherent
  apply coherent.rescope
  intro y _
  refine ⟨?_, fun _ slot => slot⟩
  intro but
  cases but.1 with
  | inl before => exact but.2 (only y before)
  | inr same => exact but.2 (Local.var.inj same)

theorem Holds.get (σ : Emitter) (x : String) {P : State W → Prop} :
    Holds T A P P (Run.get σ x) := by
  intro s holds _
  unfold Run.get
  cases σ.slot (.var x) with
  | some i => exact ⟨fun _ mem => (List.not_mem_nil mem).elim, holds⟩
  | none => exact ⟨fun _ mem => (List.not_mem_nil mem).elim, trivial⟩

theorem Holds.world {P : State W → Prop} : Holds T A P P (Run.world : Run W W) :=
  Holds.silent (fun _ => rfl) fun _ holds => holds

theorem Holds.scratch {σ : Emitter} (at_ : At φ σ) (labels : List String)
    (words : String → Int) :
    Holds T A (Coherent p φ σ nobody) (Coherent p φ σ nobody) (Run.scratch σ labels words) := by
  induction labels with
  | nil => exact Holds.pure ()
  | cons label labels ih =>
      have written := Holds.set (T := T) (A := A) (p := p) at_ (k := .temp label 0) rfl
        (words label) nobody
      apply Holds.bind (written.mono (fun _ h => h) (fun _ h => h) (fun _ h => h) _)
      · intro _
        exact ih
      · intro s coherent
        apply coherent.rescope
        intro y free
        refine ⟨?_, fun _ slot => slot⟩
        intro but
        cases but with
        | inl never => exact never
        | inr same => cases same

theorem Holds.outside {σ : Emitter} (at_ : At φ σ) (labels : List String)
    (outcome : W → Outcome W) (thrown : ∀ s, Coherent p φ σ nobody s → T s) :
    Holds T A (Coherent p φ σ nobody) (Coherent p φ σ nobody)
      (Run.outside σ labels outcome) := by
  intro s coherent clean
  have moved : ∀ w, Coherent p φ σ nobody { s with world := w } := fun w => coherent
  unfold Run.outside at clean ⊢
  cases called : outcome s.world with
  | value v words w =>
      simp only [called] at clean ⊢
      have written := Holds.bind (Holds.scratch (T := T) (A := A) (p := p) at_ labels words)
        fun _ => Holds.pure v
      exact written _ (moved w) clean
  | throws message w =>
      simp only [called] at clean ⊢
      exact ⟨fun _ mem => (List.not_mem_nil mem).elim, thrown _ (moved w)⟩
  | traps =>
      simp only [called] at clean ⊢
      exact ⟨fun _ mem => (List.not_mem_nil mem).elim, trivial⟩

theorem Holds.orLeave {σ τ : Emitter} {x : String} {P Q : State W → Prop} {m : Run W α}
    (others : ∀ y, y ≠ x → ∀ i, σ.slot (.var y) = some i → τ.slot (.var y) = some i)
    (holds : Holds (Coherent p φ τ nobody) A P Q m) :
    Holds (Coherent p φ σ nobody) A P Q (Run.orLeave x m) := by
  intro s start clean
  obtain ⟨agree, ended⟩ := holds s start clean
  refine ⟨agree, ?_⟩
  simp only [Run.orLeave]
  cases ending : (m s).ending with
  | throws message s' =>
      rw [ending] at ended
      intro y free f l h i flag lo hi set fresh slot
      simp only [Bool.or_eq_false_iff, decide_eq_false_iff_not] at fresh
      exact ended y free f l h i flag lo hi set fresh.2 (others y fresh.1 i slot)
  | done a s' =>
      rw [ending] at ended
      exact ended
  | recurs s' =>
      rw [ending] at ended
      exact ended
  | traps => trivial
  | outOfFuel => trivial

/-- The runs of all forms, from each place of the emission. -/
def Sound (p : Program W) (φ : Emitter) (A : State W → Prop)
    (one : Emitter → Expr → Run W Int) : Prop :=
  ∀ σ e, At φ σ → Grows (after σ e) φ →
    Holds (Coherent p φ σ nobody) A (Coherent p φ σ nobody) (Coherent p φ (after σ e) nobody)
      (one σ e)

namespace Sound

variable {one : Emitter → Expr → Run W Int} {σ τ : Emitter}

/-- A form at a later place of the same scope. -/
theorem at_ (sound : Sound p φ A one) (here : At φ σ) (goes : Goes σ τ) (e : Expr)
    (rest : Grows (after τ e) φ) :
    Holds (Coherent p φ σ nobody) A (Coherent p φ τ nobody) (Coherent p φ (after τ e) nobody)
      (one τ e) := by
  have there : At φ τ := here.later goes.1 ((after_goes τ e).1.then_ rest)
  exact (sound τ e there rest).mono (fun _ thrown => thrown.inner goes.2) (fun _ h => h)
    (fun _ h => h) fun _ h => h

theorem all (sound : Sound p φ A one) (here : At φ σ) (goes : Goes σ τ) (es : List Expr)
    (rest : Grows (afterAll τ es) φ) :
    Holds (Coherent p φ σ nobody) A (Coherent p φ τ nobody)
      (Coherent p φ (afterAll τ es) nobody) (Run.all one τ es) := by
  induction es generalizing τ with
  | nil => exact Holds.pure []
  | cons e es ih =>
      apply Holds.bind (sound.at_ here goes e ((afterAll_goes _ es).1.then_ rest))
      intro v
      apply Holds.bind (ih (goes.then_ (after_goes τ e)) rest)
      intro vs
      exact Holds.pure _

theorem forms (sound : Sound p φ A one) (here : At φ σ) (goes : Goes σ τ) (nil : Int)
    (es : List Expr) (rest : Grows (afterAll τ es) φ) :
    Holds (Coherent p φ σ nobody) A (Coherent p φ τ nobody)
      (Coherent p φ (afterAll τ es) nobody) (Run.forms nil one τ es) := by
  induction es generalizing τ with
  | nil => exact Holds.pure nil
  | cons e es ih =>
      have first := sound.at_ here goes e ((afterAll_goes _ es).1.then_ rest)
      cases es with
      | nil => exact first
      | cons e' es =>
          apply Holds.bind first
          intro _
          exact ih (goes.then_ (after_goes τ e)) rest

theorem operands (sound : Sound p φ A one) (here : At φ σ) (goes : Goes σ τ) (es : List Expr)
    (rest : Grows (afterOperands τ es) φ) :
    Holds (Coherent p φ σ nobody) A (Coherent p φ τ nobody)
      (Coherent p φ (afterOperands τ es) nobody) (Run.operands p.parse one τ es) := by
  induction es generalizing τ with
  | nil => exact Holds.pure []
  | cons e es ih =>
      unfold Run.operands
      unfold afterOperands at rest ⊢
      cases found : cached τ e with
      | some x =>
          simp only [found] at rest ⊢
          have more : Goes (τ.memo x) (afterOperands ((τ.memo x).gen ["t"]) es) :=
            (Goes.gen _ _).then_ (afterOperands_goes _ es)
          have there : At φ (τ.memo x) :=
            here.later (goes.1.then_ (memo_grows τ x)) (more.1.then_ rest)
          apply Holds.bind (Holds.vars (SameVars.memo τ x) (Holds.readMemo there x))
          intro limbs
          apply Holds.bind (Holds.vars (SameVars.gen _ _)
            (ih (goes.then_ ((Goes.memo τ x).then_ (Goes.gen _ _))) rest))
          intro others
          exact Holds.pure _
      | none =>
          simp only [found] at rest ⊢
          have more : Goes (after τ e) (afterOperands ((after τ e).gen ["t"]) es) :=
            (Goes.gen _ _).then_ (afterOperands_goes _ es)
          apply Holds.bind (sound.at_ here goes e (more.1.then_ rest))
          intro v
          cases p.parse v with
          | none => exact Holds.trap
          | some limbs =>
              apply Holds.bind (Holds.vars (SameVars.gen _ _)
                (ih (goes.then_ ((after_goes τ e).then_ (Goes.gen _ _))) rest))
              intro others
              exact Holds.pure _

theorem bindings (sound : Sound p φ A one) {inner : Emitter → Run W Int}
    {body : Emitter → Emitter} (goes : ∀ σ, Goes σ (body σ))
    (holds : ∀ σ, At φ σ → Grows (body σ) φ →
      Holds (Coherent p φ σ nobody) A (Coherent p φ σ nobody) (Coherent p φ (body σ) nobody)
        (inner σ))
    (here : At φ σ) (names : List String) (inits : List Expr)
    (rest : Grows (afterLet body σ names inits) φ) :
    Holds (Coherent p φ σ nobody) A (Coherent p φ σ nobody)
      (Coherent p φ (afterLet body σ names inits) nobody)
      (Run.bindings one inner body σ names inits) := by
  induction names generalizing σ inits with
  | nil =>
      cases inits with
      | nil => exact holds σ here rest
      | cons init inits => exact holds σ here rest
  | cons x names ih =>
      cases inits with
      | nil => exact holds σ here rest
      | cons init inits =>
          have nested := afterLet_goes body goes (((after σ init).bind x).memo x) names inits
          have closed := closing_goes nested
          have made : At φ (after σ init) := here.later (after_goes σ init).1 (closed.1.then_ rest)
          have ended : At φ (afterLet body σ (x :: names) (init :: inits)) :=
            made.later closed.1 rest
          have entering : Grows (after σ init) (((after σ init).bind x).memo x) :=
            (bind_grows _ x).then_ (memo_grows _ x)
          -- the memo allocated at the end is the one of the start of the scope
          have unbinding : Grows ((afterLet body (((after σ init).bind x).memo x) names
              inits).memo x) (afterLet body σ (x :: names) (init :: inits)) := by
            apply unbind_grows Grows.same
            intro i found new _
            have whole := entering.then_ (nested.1.then_ (memo_grows _ x))
            exact whole.slot_apart found new made.wf
          have last : Grows ((afterLet body (((after σ init).bind x).memo x) names inits).memo x)
              φ := unbinding.then_ rest
          have insideRest : Grows (afterLet body (((after σ init).bind x).memo x) names inits) φ :=
            (memo_grows _ x).then_ last
          have inside : At φ (((after σ init).bind x).memo x) :=
            made.later entering (nested.1.then_ insideRest)
          have others : ∀ y, y ≠ x → ∀ i, (after σ init).slot (.var y) = some i →
              (((after σ init).bind x).memo x).slot (.var y) = some i := by
            intro y other i found
            rw [memo_var, bind_slot _ x y other]
            exact found
          apply Holds.bind (sound σ init here made.grows)
          intro v
          have scoped_ : ∀ s, Coherent p φ (after σ init) nobody s →
              Coherent p φ (((after σ init).bind x).memo x) (fun y => y = x) s := by
            intro s coherent
            apply coherent.rescope
            intro y other
            refine ⟨fun never => never, ?_⟩
            intro i slot
            rw [memo_var, bind_slot _ x y other] at slot
            exact slot
          have nestedRun := ih inside inits insideRest
          have closing : Holds (Coherent p φ (((after σ init).bind x).memo x) nobody) A
              (Coherent p φ (afterLet body (((after σ init).bind x).memo x) names inits) nobody)
              (Coherent p φ (afterLet body σ (x :: names) (init :: inits)) nobody)
              (Run.clear ((afterLet body (((after σ init).bind x).memo x) names inits).memo x) x) :=
            (Holds.clear ended last (memo_has _ x) fun y => y = x).mono (fun _ h => h)
              (fun _ h => h)
              (fun s coherent => coherent.rescope fun y other => by
                refine ⟨fun never => never, ?_⟩
                intro i slot
                have outer := slot
                unfold afterLet at outer
                rw [unbind_slot _ x y _ other, memo_var] at outer
                exact outer)
              fun s coherent => coherent.rescope fun y _ => ⟨fun but => but.2 but.1, fun _ h => h⟩
          have scopeRun := Holds.orLeave (A := A) others (Holds.bind nestedRun fun r =>
            Holds.bind closing fun _ => Holds.pure r)
          have outer : ∀ s, Coherent p φ (after σ init) nobody s → Coherent p φ σ nobody s :=
            fun s coherent => coherent.inner (after_goes σ init).2
          have body_ := scopeRun.mono outer (fun _ h => h) (fun _ h => h) fun _ h => h
          exact (Holds.rebind inside v (fun y same => same)
            (fun b => Holds.clear inside inside.grows (memo_has _ x) b) body_).mono (fun _ h => h)
              (fun _ h => h) scoped_ fun _ h => h

end Sound

end

section

variable {p : Program W} {φ : Emitter} {A : State W → Prop}

/-- Without an exception, at a place with more or the same variables in scope. -/
theorem Holds.clearing {T : State W → Prop} {σ τ : Emitter} (at_ : At φ σ) (code : Grows τ φ)
    {names : List String} (has : ∀ x ∈ names, (τ.slot (.memo .flag x)).isSome = true) :
    Holds T A (Coherent p φ σ nobody) (Coherent p φ σ nobody) (Run.clearAll τ names) :=
  (Holds.clearAll at_ code has nobody).mono (fun _ h => h) (fun _ h => h) (fun _ h => h)
    fun _ coherent => coherent.rescope fun _ free => ⟨fun but => free but.1, fun _ slot => slot⟩

theorem Holds.cleared {T : State W → Prop} {σ τ : Emitter} (at_ : At φ σ) (code : Grows τ φ)
    {x : String} (has : (τ.slot (.memo .flag x)).isSome = true) :
    Holds T A (Coherent p φ σ nobody) (Coherent p φ σ nobody) (Run.clear τ x) :=
  (Holds.clear at_ code has nobody).mono (fun _ h => h) (fun _ h => h) (fun _ h => h)
    fun _ coherent => coherent.rescope fun _ free => ⟨fun but => free but.1, fun _ slot => slot⟩

theorem Holds.unmarked {T : State W → Prop} {σ : Emitter} (x : String) {Q : State W → Prop}
    {rest : Run W α} (last : Holds T A (Coherent p φ σ nobody) Q rest) :
    Holds T A (Coherent p φ σ fun y => y = x) Q (do
      Run.leave x
      rest) := by
  apply Holds.bind (Holds.leave x _)
  intro _
  exact last.mono (fun _ h => h) (fun _ h => h)
    (fun _ coherent => coherent.rescope fun y _ => ⟨fun but => but.2 but.1, fun _ slot => slot⟩)
    fun _ h => h

/-- A turn of a `while` ends with cleared memos of the variables that it may have assigned. -/
theorem Sound.while_ {fuel : Nat} (sound : Sound p φ A (p.run fuel)) {σ : Emitter} (here : At φ σ)
    (c : Expr) (body : List Expr) (rest : Grows (after σ (.while_ c body)) φ) :
    Holds (Coherent p φ σ nobody) A (Coherent p φ σ nobody)
      (Coherent p φ (after σ (.while_ c body)) nobody) (p.run (fuel + 1) σ (.while_ c body)) := by
  have tested := after_goes σ c
  have turned := afterAll_goes (after σ c) body
  have memos := Goes.memos (afterAll (after σ c) body) (loopBack body)
  have whole := tested.then_ (turned.then_ memos)
  have there : At φ (after σ (.while_ c body)) := here.later whole.1 rest
  have turn : Holds (Coherent p φ σ nobody) A (Coherent p φ σ nobody)
      (Coherent p φ σ nobody) (do
        let v ← p.run fuel σ c
        if p.truthy v then do
          let _ ← Run.forms p.nil (fun σ e => p.run fuel σ e) (after σ c) body
          Run.clearAll (after σ (.while_ c body)) (loopBack body)
          return true
        else return false) := by
    apply Holds.bind (sound.at_ here Goes.same c (turned.1.then_ (memos.1.then_ rest)))
    intro v
    by_cases more : p.truthy v = true
    · simp only [more, if_true]
      apply Holds.bind (sound.forms here tested p.nil body (memos.1.then_ rest))
      intro _
      apply Holds.vars (SameVars.memos _ (loopBack body))
      apply Holds.bind (Holds.clearing there rest fun x mem => memos_has _ mem)
      intro _
      exact (Holds.pure true).mono (fun _ h => h) (fun _ h => h)
        (fun _ coherent => coherent.inner whole.2) fun _ h => h
    · simp only [more]
      exact (Holds.pure false).mono (fun _ h => h) (fun _ h => h)
        (fun _ coherent => coherent.inner tested.2) fun _ h => h
  apply Holds.bind (Holds.again turn fuel)
  intro _
  apply Holds.bind (Holds.enter whole.2)
  intro _
  exact Holds.pure p.nil

theorem Sound.for_ {fuel : Nat} (sound : Sound p φ A (p.run fuel)) {σ : Emitter} (here : At φ σ)
    (x : String) (first last : Expr) (body : List Expr)
    (rest : Grows (after σ (.for_ x first last body)) φ) :
    Holds (Coherent p φ σ nobody) A (Coherent p φ σ nobody)
      (Coherent p φ (after σ (.for_ x first last body)) nobody)
      (p.run (fuel + 1) σ (.for_ x first last body)) := by
  have named : Goes σ ((σ.localIdx (.var x)).memo x) :=
    (Goes.localIdx σ rfl).then_ (Goes.memo _ x)
  have begun := after_goes ((σ.localIdx (.var x)).memo x) first
  have stopped := after_goes (after ((σ.localIdx (.var x)).memo x) first) last
  have turned := afterAll_goes
    (after (after ((σ.localIdx (.var x)).memo x) first) last) body
  have memos := Goes.memos (afterAll
    (after (after ((σ.localIdx (.var x)).memo x) first) last) body) (loopBack body)
  have toEnd := turned.then_ memos
  have inLoop := stopped.then_ toEnd
  have outer := named.then_ begun
  have atNamed : At φ ((σ.localIdx (.var x)).memo x) :=
    here.later named.1 (begun.1.then_ (inLoop.1.then_ rest))
  have atBegun : At φ (after ((σ.localIdx (.var x)).memo x) first) :=
    atNamed.later begun.1 (inLoop.1.then_ rest)
  have atEnd : At φ (after σ (.for_ x first last body)) := atBegun.later inLoop.1 rest
  have turn : Holds (Coherent p φ (after ((σ.localIdx (.var x)).memo x) first) nobody) A
      (Coherent p φ (after ((σ.localIdx (.var x)).memo x) first) nobody)
      (Coherent p φ (after ((σ.localIdx (.var x)).memo x) first) nobody) (do
        let stop ← p.run fuel (after ((σ.localIdx (.var x)).memo x) first) last
        let counted ← Run.get
          (after (after ((σ.localIdx (.var x)).memo x) first) last) x
        if p.untag stop ≤ counted then return false
        else do
          let _ ← Run.forms p.nil (fun σ e => p.run fuel σ e)
            (after (after ((σ.localIdx (.var x)).memo x) first) last) body
          let ended := after σ (.for_ x first last body)
          let counted ← Run.get ended x
          Run.set ended (.var x) (counted + 1)
          Run.leave x
          Run.clearAll ended (loopBack body)
          return true) := by
    apply Holds.bind (sound.at_ atBegun Goes.same last (toEnd.1.then_ rest))
    intro stop
    apply Holds.bind (Holds.get _ x)
    intro counted
    by_cases reached : p.untag stop ≤ counted
    · simp only [reached, if_true]
      exact (Holds.pure false).mono (fun _ h => h) (fun _ h => h)
        (fun _ coherent => coherent.inner stopped.2) fun _ h => h
    · simp only [reached, if_false]
      apply Holds.bind (sound.forms atBegun stopped p.nil body (memos.1.then_ rest))
      intro _
      apply Holds.vars (SameVars.memos _ (loopBack body))
      apply Holds.bind (Holds.get _ x)
      intro counted
      apply Holds.rebind atEnd (counted + 1) (fun _ never => never.elim)
        (fun b => Holds.leave x b)
      apply Holds.bind (Holds.clearing atEnd rest fun y mem => memos_has _ mem)
      intro _
      exact (Holds.pure true).mono (fun _ h => h) (fun _ h => h)
        (fun _ coherent => coherent.inner inLoop.2) fun _ h => h
  apply Holds.bind (Holds.enter named.2)
  intro _
  apply Holds.bind (Holds.cleared atNamed atNamed.grows (memo_has _ x))
  intro _
  apply Holds.bind (sound.at_ here named first (inLoop.1.then_ rest))
  intro v
  apply Holds.rebind atBegun (p.untag v) (fun _ never => never.elim)
    (fun b => Holds.leave x b)
  apply Holds.bind ((Holds.again turn fuel).mono
    (fun _ thrown => thrown.inner outer.2) (fun _ h => h) (fun _ h => h) fun _ h => h)
  intro _
  apply Holds.bind (Holds.enter inLoop.2)
  intro _
  exact Holds.pure p.nil

theorem Sound.each {fuel : Nat} (sound : Sound p φ A (p.run fuel)) {σ : Emitter} (here : At φ σ)
    (head x : String) (list body : Expr) (rest : Grows (after σ (.each head x list body)) φ) :
    Holds (Coherent p φ σ nobody) A (Coherent p φ σ nobody)
      (Coherent p φ (after σ (.each head x list body)) nobody)
      (p.run (fuel + 1) σ (.each head x list body)) := by
  have named : Goes σ ((σ.temps eachTemps).localIdx (.var x)) :=
    (Goes.temps σ _).then_ (Goes.localIdx _ rfl)
  have value := after_goes ((σ.temps eachTemps).localIdx (.var x)) list
  have memo := Goes.memo (after ((σ.temps eachTemps).localIdx (.var x)) list) x
  have turned := after_goes ((after ((σ.temps eachTemps).localIdx (.var x)) list).memo x) body
  have outer := named.then_ (value.then_ memo)
  have listed : At φ ((after ((σ.temps eachTemps).localIdx (.var x)) list).memo x) :=
    here.later outer.1 (turned.1.then_ rest)
  have atEnd : At φ (after σ (.each head x list body)) := listed.later turned.1 rest
  apply Holds.bind (Holds.enter named.2)
  intro _
  apply Holds.bind (sound.at_ here named list (memo.1.then_ (turned.1.then_ rest)))
  intro vs
  apply Holds.vars (SameVars.memo _ x)
  apply Holds.bind Holds.world
  intro w
  refine Holds.bind (Holds.forAll ?_ _) ?_
  · intro k
    apply Holds.bind Holds.world
    intro w
    apply Holds.rebind listed _ (fun _ never => never.elim)
      (fun b => Holds.clear listed listed.grows (memo_has _ x) b)
    exact (sound.at_ listed Goes.same body rest).mono
      (fun _ thrown => thrown.inner outer.2) (fun _ h => h) (fun _ h => h)
      fun _ coherent => coherent.inner turned.2
  · intro results
    apply Holds.bind (Holds.enter turned.2)
    intro _
    exact Holds.outside atEnd eachTemps _
      fun s coherent => coherent.inner (outer.then_ turned).2

theorem Sound.reduce {fuel : Nat} (sound : Sound p φ A (p.run fuel)) {σ : Emitter} (here : At φ σ)
    (acc x : String) (init list body : Expr)
    (rest : Grows (after σ (.reduce acc x init list body)) φ) :
    Holds (Coherent p φ σ nobody) A (Coherent p φ σ nobody)
      (Coherent p φ (after σ (.reduce acc x init list body)) nobody)
      (p.run (fuel + 1) σ (.reduce acc x init list body)) := by
  have named : Goes σ (((σ.temps reduceTemps).localIdx (.var acc)).localIdx (.var x)) :=
    (Goes.temps σ _).then_ ((Goes.localIdx _ rfl).then_ (Goes.localIdx _ rfl))
  have first := after_goes
    (((σ.temps reduceTemps).localIdx (.var acc)).localIdx (.var x)) init
  have value := after_goes
    (after (((σ.temps reduceTemps).localIdx (.var acc)).localIdx (.var x)) init) list
  have memo := Goes.memo (after (after (((σ.temps reduceTemps).localIdx
    (.var acc)).localIdx (.var x)) init) list) x
  have memo' := Goes.memo ((after (after (((σ.temps reduceTemps).localIdx
    (.var acc)).localIdx (.var x)) init) list).memo x) acc
  have turned := after_goes (((after (after (((σ.temps reduceTemps).localIdx
    (.var acc)).localIdx (.var x)) init) list).memo x).memo acc) body
  have fromValue := memo.then_ (memo'.then_ turned)
  have fromFirst := value.then_ fromValue
  have toFirst := named.then_ first
  have outer := toFirst.then_ (value.then_ (memo.then_ memo'))
  have atFirst := here.later toFirst.1 (fromFirst.1.then_ rest)
  have listed := here.later outer.1 (turned.1.then_ rest)
  have atEnd : At φ (after σ (.reduce acc x init list body)) := listed.later turned.1 rest
  apply Holds.bind (Holds.enter named.2)
  intro _
  apply Holds.bind (sound.at_ here named init (fromFirst.1.then_ rest))
  intro v
  apply Holds.rebind atFirst v (fun _ never => never.elim) (fun b => Holds.leave acc b)
  apply Holds.bind (sound.at_ here toFirst list (fromValue.1.then_ rest))
  intro vs
  apply Holds.vars (SameVars.memo _ x)
  apply Holds.vars (SameVars.memo _ acc)
  apply Holds.bind Holds.world
  intro w
  refine Holds.bind (Holds.forAll ?_ _) ?_
  · intro k
    apply Holds.bind Holds.world
    intro w
    have hasX := Option.isSome_iff_exists.mp (memo_has (after (after
      (((σ.temps reduceTemps).localIdx (.var acc)).localIdx (.var x)) init) list) x)
    obtain ⟨i, found⟩ := hasX
    apply Holds.rebind listed _ (fun _ never => never.elim)
      (fun b => Holds.clear listed listed.grows
        (by rw [memo'.1.keeps _ _ _ found]; rfl) b)
    apply Holds.bind (Holds.cleared listed listed.grows (memo_has _ acc))
    intro _
    apply Holds.bind ((sound.at_ listed Goes.same body rest).mono
      (fun _ thrown => thrown.inner outer.2) (fun _ h => h) (fun _ h => h) fun _ h => h)
    intro v
    apply (Holds.rebind atEnd v (fun _ never => never.elim)
      (fun b => Holds.leave acc b) (Holds.pure ())).mono (fun _ h => h) (fun _ h => h)
        (fun _ h => h) fun _ coherent => coherent.inner turned.2
  · intro _
    apply Holds.bind (Holds.enter turned.2)
    intro _
    exact Holds.get _ acc

/-- The handler's variable is another one of the same name. -/
theorem Sound.try_ {fuel : Nat} (sound : Sound p φ A (p.run fuel)) {σ : Emitter} (here : At φ σ)
    (body : Expr) (x : String) (handler : List Expr)
    (rest : Grows (after σ (.try_ body x handler)) φ) :
    Holds (Coherent p φ σ nobody) A (Coherent p φ σ nobody)
      (Coherent p φ (after σ (.try_ body x handler)) nobody)
      (p.run (fuel + 1) σ (.try_ body x handler)) := by
  have placed : Goes σ ((σ.temps tryTemps).localIdx (.catch_ x)) :=
    (Goes.temps σ _).then_ (Goes.localIdx _ rfl)
  have tried := after_goes ((σ.temps tryTemps).localIdx (.catch_ x)) body
  have handled := afterAll_goes
    ((after ((σ.temps tryTemps).localIdx (.catch_ x)) body).catchVar x) handler
  have closed := catching_goes handled
  have atPlaced := here.later placed.1 (tried.1.then_ (closed.1.then_ rest))
  have atTried := atPlaced.later tried.1 (closed.1.then_ rest)
  have caughtGrows := catchVar_grows (after ((σ.temps tryTemps).localIdx (.catch_ x)) body) x
  have leaving : Grows (afterAll
      ((after ((σ.temps tryTemps).localIdx (.catch_ x)) body).catchVar x) handler)
      (after σ (.try_ body x handler)) := by
    apply uncatch_grows Grows.same
    intro i found new _
    exact (caughtGrows.then_ handled.1).slot_apart found new atTried.wf
  have atCaught := atTried.later caughtGrows (handled.1.then_ (leaving.then_ rest))
  have others : ∀ y, y ≠ x → ∀ i, (after ((σ.temps tryTemps).localIdx (.catch_ x))
      body).slot (.var y) = some i → ((after ((σ.temps tryTemps).localIdx (.catch_ x))
        body).catchVar x).slot (.var y) = some i := by
    intro y other i found
    rw [catchVar_slot _ x y other]
    exact found
  have inScope : SameVars σ ((σ.temps tryTemps).localIdx (.catch_ x)) := by
    intro y
    have other : Local.var y ≠ Local.catch_ x := by
      intro same
      cases same
    exact (localIdx_var other).trans (SameVars.temps σ tryTemps y)
  apply Holds.vars inScope
  have bound : ∀ s, Coherent p φ (after ((σ.temps tryTemps).localIdx (.catch_ x)) body)
      nobody s → Coherent p φ ((after ((σ.temps tryTemps).localIdx (.catch_ x)) body).catchVar x)
        (fun y => y = x) s := by
    intro s coherent
    apply coherent.rescope
    intro y other
    refine ⟨fun never => never, ?_⟩
    intro i slot
    rw [catchVar_slot _ x y other] at slot
    exact slot
  have closing : ∀ s, Coherent p φ (afterAll ((after ((σ.temps tryTemps).localIdx
      (.catch_ x)) body).catchVar x) handler) nobody s →
        Coherent p φ (after σ (.try_ body x handler)) (fun y => y = x) s := by
    intro s coherent
    apply coherent.rescope
    intro y other
    refine ⟨fun never => never, ?_⟩
    intro i slot
    unfold after at slot
    rw [uncatch_slot _ x y _ other] at slot
    exact slot
  have wider : ∀ s, Coherent p φ (after σ (.try_ body x handler)) nobody s →
      Coherent p φ (after σ (.try_ body x handler)) (fun y => y = x) s := fun s coherent =>
    coherent.rescope fun _ _ => ⟨fun never => never, fun _ slot => slot⟩
  have forms : Holds (Coherent p φ σ nobody) A
      (Coherent p φ ((after ((σ.temps tryTemps).localIdx (.catch_ x)) body).catchVar x) nobody)
      (Coherent p φ (afterAll ((after ((σ.temps tryTemps).localIdx (.catch_ x)) body).catchVar x)
        handler) nobody)
      (Run.orLeave x (Run.forms p.nil (fun σ e => p.run fuel σ e)
        ((after ((σ.temps tryTemps).localIdx (.catch_ x)) body).catchVar x) handler)) :=
    Holds.orLeave (fun y other i found => others y other i (tried.2 y i (placed.2 y i found)))
      (sound.forms atCaught Goes.same p.nil handler (leaving.then_ rest))
  have tryRun : Holds (Coherent p φ ((σ.temps tryTemps).localIdx (.catch_ x)) nobody) A
      (Coherent p φ ((σ.temps tryTemps).localIdx (.catch_ x)) nobody)
      (Coherent p φ (after σ (.try_ body x handler)) fun y => y = x) (do
        let r ← p.run fuel ((σ.temps tryTemps).localIdx (.catch_ x)) body
        Run.enter (after ((σ.temps tryTemps).localIdx (.catch_ x)) body)
        return r) := by
    apply Holds.bind (sound _ body atPlaced (closed.1.then_ rest))
    intro r
    apply Holds.bind (Holds.enter closed.2)
    intro _
    exact (Holds.pure r).mono (fun _ h => h) (fun _ h => h) (fun _ h => h) wider
  have handlerRun : ∀ message, Holds (Coherent p φ σ nobody) A
      (Coherent p φ ((σ.temps tryTemps).localIdx (.catch_ x)) nobody)
      (Coherent p φ (after σ (.try_ body x handler)) fun y => y = x) (do
        Run.enter ((σ.temps tryTemps).localIdx (.catch_ x))
        Run.set ((after ((σ.temps tryTemps).localIdx (.catch_ x)) body).catchVar x) (.catch_ x)
          message
        Run.leave x
        Run.orLeave x (Run.forms p.nil (fun σ e => p.run fuel σ e)
          ((after ((σ.temps tryTemps).localIdx (.catch_ x)) body).catchVar x) handler)) := by
    intro message
    have written := Holds.set (T := Coherent p φ σ nobody) (A := A) (p := p) atCaught
      (k := .catch_ x) rfl message fun y => y = x
    have left : Holds (Coherent p φ σ nobody) A
        (Coherent p φ ((after ((σ.temps tryTemps).localIdx (.catch_ x)) body).catchVar x)
          fun y => y = x ∨ Local.var y = .catch_ x)
        (Coherent p φ ((after ((σ.temps tryTemps).localIdx (.catch_ x)) body).catchVar x)
          fun y => (y = x ∨ Local.var y = .catch_ x) ∧ y ≠ x) (Run.leave x) := Holds.leave x _
    have cleared : ∀ s, Coherent p φ ((after ((σ.temps tryTemps).localIdx (.catch_ x))
        body).catchVar x) (fun y => (y = x ∨ Local.var y = .catch_ x) ∧ y ≠ x) s →
          Coherent p φ ((after ((σ.temps tryTemps).localIdx (.catch_ x)) body).catchVar x)
            nobody s := by
      intro s coherent
      apply coherent.rescope
      intro y _
      refine ⟨?_, fun _ slot => slot⟩
      intro but
      cases but.1 with
      | inl same => exact but.2 same
      | inr same => cases same
    have handlerForms := forms.mono (fun _ h => h) (fun _ h => h) cleared closing
    have handling := (Holds.bind written fun _ => Holds.bind left fun _ => handlerForms).mono
      (fun _ h => h) (fun _ h => h) bound fun _ h => h
    exact Holds.bind (Holds.enter tried.2) fun _ => handling
  exact Holds.bind (Holds.attempt tryRun handlerRun) fun r => Holds.unmarked x (Holds.pure r)

/-- Each form at a place of the emission, from the runs with less fuel. -/
theorem run_sound (p : Program W) (φ : Emitter) (A : State W → Prop) (fuel : Nat) :
    Sound p φ A (p.run fuel) := by
  induction fuel with
  | zero => exact fun _ _ _ _ => Holds.spent
  | succ fuel sound =>
      intro σ e here rest
      have same : Goes σ σ := Goes.same
      cases e with
      | word w => exact Holds.pure w
      | sym x => exact Holds.get σ x
      | op head labels args =>
          have placed := Goes.temps σ labels
          have done := placed.then_ (afterAll_goes (σ.temps labels) args)
          have there : At φ (afterAll (σ.temps labels) args) := here.later done.1 rest
          apply Holds.bind (Holds.vars (SameVars.temps σ labels)
            (sound.all here placed args rest))
          intro vs
          exact Holds.outside there labels _ fun s coherent => coherent.inner done.2
      | u128 head args =>
          have placed := Goes.gen σ (limbTemps args)
          have done := placed.then_ (afterOperands_goes (σ.gen (limbTemps args)) args)
          have there : At φ (afterOperands (σ.gen (limbTemps args)) args) := here.later done.1 rest
          apply Holds.bind (Holds.vars (SameVars.gen σ (limbTemps args))
            (sound.operands here placed args rest))
          intro limbs
          exact Holds.outside there [] _ fun s coherent => coherent.inner done.2
      | if_ c t e =>
          have tested := after_goes σ c
          have first := after_goes (after σ c) t
          have second := after_goes (after (after σ c) t) e
          apply Holds.bind (sound.at_ here same c (first.1.then_ (second.1.then_ rest)))
          intro v
          by_cases taken : p.truthy v = true
          · simp only [taken, if_true]
            apply Holds.bind (sound.at_ here tested t (second.1.then_ rest))
            intro r
            apply Holds.bind (Holds.enter second.2)
            intro _
            exact Holds.pure r
          · simp only [taken]
            apply Holds.bind (Holds.enter first.2)
            intro _
            exact sound.at_ here (tested.then_ first) e rest
      | begin_ es => exact sound.forms here same p.nil es rest
      | let_ names inits body =>
          exact sound.bindings (fun σ => afterAll_goes σ body)
            (fun τ there rest => sound.forms there Goes.same p.nil body rest) here names inits rest
      | set x e =>
          have named : Goes σ (σ.localIdx (.var x)) := Goes.localIdx σ rfl
          have value := after_goes (σ.localIdx (.var x)) e
          have memo := Goes.memo (after (σ.localIdx (.var x)) e) x
          have there : At φ ((after (σ.localIdx (.var x)) e).memo x) :=
            here.later (named.1.then_ (value.1.then_ memo.1)) rest
          apply Holds.bind (Holds.enter named.2)
          intro _
          apply Holds.bind (sound.at_ here named e (memo.1.then_ rest))
          intro v
          exact Holds.vars (SameVars.memo _ x) (Holds.rebind there v (fun _ never => never.elim)
            (fun b => Holds.clear there rest (memo_has _ x) b) (Holds.pure p.nil))
      | while_ c body => exact sound.while_ here c body rest
      | for_ x first last body => exact sound.for_ here x first last body rest
      | each head x list body => exact sound.each here head x list body rest
      | reduce acc x init list body => exact sound.reduce here acc x init list body rest
      | try_ body x handler => exact sound.try_ here body x handler rest

end

end

/-! ### Functions -/

theorem afterArm_goes (params : List String) (σ : Emitter) (a : Arm) :
    Goes σ (afterArm params σ a) := by
  cases a with
  | value e => exact after_goes σ e
  | self args =>
      exact (Goes.temps σ _).then_ ((afterAll_goes _ args).then_ (Goes.memos _ params))

theorem afterTcBindings_goes (σ : Emitter) (names : List String) (inits : List Expr) :
    Goes σ (afterTcBindings σ names inits) := by
  induction names generalizing σ inits with
  | nil =>
      cases inits with
      | nil => exact Goes.same
      | cons init inits => exact Goes.same
  | cons x names ih =>
      cases inits with
      | nil => exact Goes.same
      | cons init inits =>
          exact (Goes.localIdx σ rfl).then_ ((after_goes _ init).then_ (ih _ inits))

theorem afterTail_goes (params : List String) (σ : Emitter) (t : Tail) :
    Goes σ (afterTail params σ t) := by
  induction t generalizing σ with
  | arm a => exact afterArm_goes params σ a
  | if_ c t e =>
      unfold afterTail
      split
      · exact (after_goes σ c).then_ ((afterArm_goes params _ e).then_ (afterArm_goes params _ t))
      · exact (after_goes σ c).then_ ((afterArm_goes params _ t).then_ (afterArm_goes params _ e))
  | let_ names inits forms last ih =>
      exact (afterTcBindings_goes σ names inits).then_ <| (Goes.memos _ names).then_ <|
        (afterAll_goes _ forms).then_ (ih _)

section

variable {W : Type} {p : Program W} {φ : Emitter}

theorem Holds.store {T A : State W → Prop} {σ : Emitter} (at_ : At φ σ) (names : List String)
    (vs : List Int) (b : String → Prop) :
    Holds T A (Coherent p φ σ b) (Coherent p φ σ fun y => b y ∨ y ∈ names)
      (Run.store σ names vs) := by
  induction names generalizing vs b with
  | nil =>
      apply (Holds.pure ()).mono (fun _ h => h) (fun _ h => h) (fun _ h => h)
      intro s coherent
      exact coherent.rescope fun y free => ⟨fun but => free (.inl but), fun _ slot => slot⟩
  | cons x names ih =>
      cases vs with
      | nil =>
          apply (Holds.pure ()).mono (fun _ h => h) (fun _ h => h) (fun _ h => h)
          intro s coherent
          exact coherent.rescope fun y free => ⟨fun but => free (.inl but), fun _ slot => slot⟩
      | cons v vs =>
          apply Holds.bind (Holds.set at_ rfl v b)
          intro _
          apply (ih vs _).mono (fun _ h => h) (fun _ h => h) (fun _ h => h)
          intro s coherent
          apply coherent.rescope
          intro y free
          refine ⟨?_, fun _ slot => slot⟩
          intro but
          cases but with
          | inl before =>
              cases before with
              | inl but => exact free (.inl but)
              | inr same => exact free (.inr (Local.var.inj same ▸ List.mem_cons_self))
          | inr later => exact free (.inr (List.mem_cons_of_mem _ later))

/-- What does not matter at the end of a function's body. -/
def anything (_ : State W) : Prop := True

theorem runArm_sound {fuel : Nat} {params : List String} {σ τ : Emitter} (goes : Goes σ τ)
    (here : At φ τ) (a : Arm) (rest : Grows (afterArm params τ a) φ) :
    Holds anything (Coherent p φ σ nobody) (Coherent p φ τ nobody) anything
      (p.runArm fuel params τ a) := by
  have sound := run_sound p φ (Coherent p φ σ nobody) fuel
  cases a with
  | value e =>
      exact (sound τ e here rest).mono (fun _ _ => trivial) (fun _ h => h) (fun _ h => h)
        fun _ _ => trivial
  | self args =>
      have placed := Goes.temps τ (argTemps args)
      have passed := afterAll_goes (τ.temps (argTemps args)) args
      have memos := Goes.memos (afterAll (τ.temps (argTemps args)) args) params
      have whole := placed.then_ (passed.then_ memos)
      have there : At φ ((afterAll (τ.temps (argTemps args)) args).memos params) :=
        here.later whole.1 rest
      have arguments := (sound.all here placed args (memos.1.then_ rest)).mono
        (fun _ _ => trivial) (fun _ h => h) (fun _ h => h) fun _ h => h
      apply Holds.bind (Holds.vars (SameVars.temps τ (argTemps args)) arguments)
      intro vs
      apply Holds.vars (SameVars.memos _ params)
      apply Holds.bind (Holds.store there params vs nobody)
      intro _
      apply Holds.bind (Holds.clearAll there rest (fun x mem => memos_has _ mem) _)
      intro _
      apply Holds.recur.mono (fun _ h => h) (fun _ h => h) _ fun _ h => h
      intro s coherent
      apply coherent.rescope
      intro y free
      refine ⟨?_, fun i slot => (goes.then_ whole).2 y i slot⟩
      intro but
      cases but.1 with
      | inl never => exact never
      | inr param => exact but.2 param

theorem tcBindings_sound {A : State W → Prop} {one : Emitter → Expr → Run W Int}
    (sound : Sound p φ A one) {σ : Emitter} (here : At φ σ) (names : List String)
    (inits : List Expr) (rest : Grows (afterTcBindings σ names inits) φ) :
    Holds anything A (Coherent p φ σ nobody)
      (Coherent p φ (afterTcBindings σ names inits) nobody)
      (Run.tcBindings one σ names inits) := by
  induction names generalizing σ inits with
  | nil =>
      cases inits with
      | nil => exact Holds.pure ()
      | cons init inits => exact Holds.pure ()
  | cons x names ih =>
      cases inits with
      | nil => exact Holds.pure ()
      | cons init inits =>
          have named : Goes σ (σ.localIdx (.var x)) := Goes.localIdx σ rfl
          have value := after_goes (σ.localIdx (.var x)) init
          have others := afterTcBindings_goes (after (σ.localIdx (.var x)) init) names inits
          have there := here.later (named.then_ value).1 (others.1.then_ rest)
          apply Holds.bind (Holds.enter named.2)
          intro _
          apply Holds.bind ((sound.at_ here named init (others.1.then_ rest)).mono
            (fun _ _ => trivial) (fun _ h => h) (fun _ h => h) fun _ h => h)
          intro v
          exact Holds.rebind there v (fun _ never => never.elim) (fun b => Holds.leave x b)
            (ih there inits rest)

theorem runTail_sound {fuel : Nat} {params : List String} {σ τ : Emitter} (goes : Goes σ τ)
    (here : At φ τ) (t : Tail) (rest : Grows (afterTail params τ t) φ) :
    Holds anything (Coherent p φ σ nobody) (Coherent p φ τ nobody) anything
      (p.runTail fuel params τ t) := by
  have sound := run_sound p φ (Coherent p φ σ nobody) fuel
  induction t generalizing τ with
  | arm a => exact runArm_sound goes here a rest
  | if_ c t e =>
      have tested := after_goes τ c
      have outward : ∀ {τ'}, Goes (after τ c) τ' → At φ τ' → ∀ a,
          Grows (afterArm params τ' a) φ →
            Holds anything (Coherent p φ σ nobody) (Coherent p φ τ' nobody) anything
              (p.runArm fuel params τ' a) :=
        fun there at_ a last => runArm_sound (goes.then_ (tested.then_ there)) at_ a last
      unfold afterTail at rest
      unfold Program.runTail
      by_cases late : (t.isSelf && !e.isSelf) = true
      · simp only [late, if_true] at rest ⊢
        have other := afterArm_goes params (after τ c) e
        have final := (afterArm_goes params (afterArm params (after τ c) e) t).1.then_ rest
        have atTested := here.later tested.1 (other.1.then_ final)
        have atOther := atTested.later other.1 final
        apply Holds.bind ((sound.at_ here Goes.same c atTested.grows).mono (fun _ _ => trivial)
          (fun _ h => h) (fun _ h => h) fun _ h => h)
        intro v
        by_cases first : p.truthy v = true
        · simp only [first, if_true]
          exact Holds.bind (Holds.enter other.2) fun _ => outward other atOther t rest
        · simp only [first]
          exact Holds.bind (Holds.enter Scopes.same) fun _ =>
            outward Goes.same atTested e final
      · simp only [late] at rest ⊢
        have other := afterArm_goes params (after τ c) t
        have final := (afterArm_goes params (afterArm params (after τ c) t) e).1.then_ rest
        have atTested := here.later tested.1 (other.1.then_ final)
        have atOther := atTested.later other.1 final
        apply Holds.bind ((sound.at_ here Goes.same c atTested.grows).mono (fun _ _ => trivial)
          (fun _ h => h) (fun _ h => h) fun _ h => h)
        intro v
        by_cases first : p.truthy v = true
        · simp only [first, if_true]
          exact Holds.bind (Holds.enter Scopes.same) fun _ =>
            outward Goes.same atTested t final
        · simp only [first]
          exact Holds.bind (Holds.enter other.2) fun _ => outward other atOther e rest
  | let_ names inits forms last ih =>
      have bound := afterTcBindings_goes τ names inits
      have memos := Goes.memos (afterTcBindings τ names inits) names
      have before := afterAll_goes ((afterTcBindings τ names inits).memos names) forms
      have final := afterTail_goes params
        (afterAll ((afterTcBindings τ names inits).memos names) forms) last
      have toForms := memos.1.then_ (before.1.then_ (final.1.then_ rest))
      have atBound := here.later bound.1 toForms
      have atMemos := atBound.later memos.1 (before.1.then_ (final.1.then_ rest))
      have atForms := atMemos.later before.1 (final.1.then_ rest)
      apply Holds.bind (tcBindings_sound sound here names inits toForms)
      intro _
      apply Holds.vars (SameVars.memos _ names)
      apply Holds.bind (Holds.clearing atMemos atMemos.grows fun x mem => memos_has _ mem)
      intro _
      apply Holds.bind ((sound.all atMemos Goes.same forms (final.1.then_ rest)).mono
        (fun _ _ => trivial) (fun _ h => h) (fun _ h => h) fun _ h => h)
      intro _
      exact ih (goes.then_ (bound.then_ (memos.then_ before))) atForms rest

theorem localIdx_memo {σ : Emitter} {k : Local} (notMemo : k.isMemo = false) (part : Part)
    (x : String) : (σ.localIdx k).slot (.memo part x) = σ.slot (.memo part x) := by
  cases slot : σ.slot k with
  | some j => rw [localIdx_some (by rw [slot]; rfl)]
  | none =>
      obtain ⟨j, _, _, slots, _⟩ := localIdx_none slot
      rw [slots, if_neg]
      intro same
      rw [← same] at notMemo
      cases notMemo

/-- A function begins without memos. -/
theorem begin_memo (params : List String) (part : Part) (x : String) :
    (begin_ params).slot (.memo part x) = none := by
  have named : ∀ (names : List String) (σ : Emitter), σ.slot (.memo part x) = none →
      (names.foldl (fun (σ : Emitter) y => σ.localIdx (.var y)) σ).slot (.memo part x) = none := by
    intro names
    induction names with
    | nil => exact fun _ none_ => none_
    | cons y names ih => exact fun σ none_ => ih _ ((localIdx_memo rfl part x).trans none_)
  exact (localIdx_memo rfl part x).trans (named params _ rfl)

theorem begin_goes (params : List String) : Goes ⟨[], [], 0, 0, true⟩ (begin_ params) :=
  (Goes.foldl (fun σ _ => Goes.localIdx σ rfl) _ params).then_ (Goes.localIdx _ rfl)

end

/-! ### Two functions -/

/-- Strings are their values here, and sums are of low limbs. -/
def lowLimbs : Program Unit where
  nil := 4
  truthy := (· != 4)
  untag := (· / 8)
  parse := fun v => if v < 0 then none else some (v, 0)
  apply := fun _ _ w => .value 4 (fun _ => 0) w
  arith := fun _ limbs w => .value (limbs.map Prod.fst).sum (fun _ => 0) w
  count := fun _ _ => 0
  element := fun _ _ _ => 4
  collect := fun _ _ w => .value 4 (fun _ => 0) w

/-- `(define (twice s) (u128/add s s))` -/
def twice : Tail := .arm (.value (.u128 "u128/add" [.sym "s", .sym "s"]))

/-- `(define (reused s) (begin (let ((a 1) (b 2) (c 3) (d 4) (e 5)) e) (u128/add s "1")))` -/
def reused : Tail :=
  .arm (.value (.begin_ [
    .let_ ["a", "b", "c", "d", "e"] [.word 8, .word 16, .word 24, .word 32, .word 40] [.sym "e"],
    .u128 "u128/add" [.sym "s", .word 1]]))

end LispRlm.WasmEmit.ParseCache
