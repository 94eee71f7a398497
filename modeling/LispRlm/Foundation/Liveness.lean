import LispRlm.Foundation.Validation

/-! Which locals are read later, and runs of the same code that agree on them. -/

namespace LispRlm.Foundation

variable {ι P H T W M : Type} [DecidableEq ι]

section Live

variable (need : H → List ι)

/-- The locals that may be read before they are written, by the code or after it; `labels` are
those read after a branch to each enclosing label. -/
def live (labels : List (List ι)) : Code ι P H T → List ι → List ι
  | .skip, after => after
  | .seq first second, after => live labels first (live labels second after)
  | .prim _, after => after
  | .localGet x, after => x :: after
  | .localSet x, after => after.filter (· ≠ x)
  | .localTee x, after => after.filter (· ≠ x)
  | .block _ body, after => live (after :: labels) body after
  | .loop _ body, after => live ([] :: labels) body after
  | .ifElse _ thenBody elseBody, after =>
      live (after :: labels) thenBody after ++ live (after :: labels) elseBody after
  | .br depth, _ => labels.getD depth []
  | .brIf depth, after => labels.getD depth [] ++ after
  | .unreachable, _ => []
  | .hole h, after => need h ++ after

/-- What is live after each hole meets a condition on the hole. -/
def fits (ok : H → List ι → Bool) (labels : List (List ι)) : Code ι P H T → List ι → Bool
  | .seq first second, after =>
      fits ok labels first (live need labels second after) && fits ok labels second after
  | .block _ body, after => fits ok (after :: labels) body after
  | .loop _ body, after => fits ok (live need ([] :: labels) body after :: labels) body after
  | .ifElse _ thenBody elseBody, after =>
      fits ok (after :: labels) thenBody after && fits ok (after :: labels) elseBody after
  | .hole h, after => ok h after
  | _, _ => true

variable {need}

/-- What is live before code comes from what is live where the code leads to. -/
theorem mem_live_of_grown {code : Code ι P H T} {labels labels' : List (List ι)}
    {after after' extra : List ι}
    (grown : ∀ n, ∀ x ∈ labels.getD n [], x ∈ labels'.getD n [] ∨ x ∈ extra)
    (later : ∀ x ∈ after, x ∈ after' ∨ x ∈ extra) :
    ∀ x ∈ live need labels code after, x ∈ live need labels' code after' ∨ x ∈ extra := by
  induction code generalizing labels labels' after after' with
  | skip => exact later
  | seq first second ihFirst ihSecond => exact ihFirst grown (ihSecond grown later)
  | prim op => exact later
  | localGet y =>
      intro x mem
      rcases List.mem_cons.mp mem with rfl | mem
      · exact Or.inl List.mem_cons_self
      · rcases later x mem with mem | mem
        · exact Or.inl (List.mem_cons_of_mem y mem)
        · exact Or.inr mem
  | localSet y | localTee y =>
      intro x mem
      obtain ⟨mem, other⟩ := List.mem_filter.mp mem
      rcases later x mem with mem | mem
      · exact Or.inl (List.mem_filter.mpr ⟨mem, other⟩)
      · exact Or.inr mem
  | block results body ih =>
      apply ih _ later
      intro n x mem
      cases n with
      | zero => exact later x mem
      | succ n => exact grown n x mem
  | loop results body ih =>
      apply ih _ later
      intro n x mem
      cases n with
      | zero => exact Or.inl mem
      | succ n => exact grown n x mem
  | ifElse results thenBody elseBody ihThen ihElse =>
      have wider : ∀ n, ∀ x ∈ (after :: labels).getD n [],
          x ∈ (after' :: labels').getD n [] ∨ x ∈ extra := by
        intro n x mem
        cases n with
        | zero => exact later x mem
        | succ n => exact grown n x mem
      intro x mem
      rcases List.mem_append.mp mem with mem | mem
      · rcases ihThen wider later x mem with mem | mem
        · exact Or.inl (List.mem_append_left _ mem)
        · exact Or.inr mem
      · rcases ihElse wider later x mem with mem | mem
        · exact Or.inl (List.mem_append_right _ mem)
        · exact Or.inr mem
  | br depth => exact grown depth
  | brIf depth =>
      intro x mem
      rcases List.mem_append.mp mem with mem | mem
      · rcases grown depth x mem with mem | mem
        · exact Or.inl (List.mem_append_left _ mem)
        · exact Or.inr mem
      · rcases later x mem with mem | mem
        · exact Or.inl (List.mem_append_right _ mem)
        · exact Or.inr mem
  | unreachable =>
      intro x mem
      cases mem
  | hole h =>
      intro x mem
      rcases List.mem_append.mp mem with mem | mem
      · exact Or.inl (List.mem_append_left _ mem)
      · rcases later x mem with mem | mem
        · exact Or.inl (List.mem_append_right _ mem)
        · exact Or.inr mem

/-- What is live after code adds no more than itself. -/
theorem mem_live_after {code : Code ι P H T} {labels : List (List ι)} {after : List ι} :
    ∀ x ∈ live need labels code after, x ∈ live need labels code [] ∨ x ∈ after :=
  mem_live_of_grown (fun _ _ mem => Or.inl mem) (fun _ mem => Or.inr mem)

/-- Going round a loop once more makes nothing else live. -/
theorem mem_live_loop {body : Code ι P H T} {labels : List (List ι)} {after : List ι} :
    ∀ x ∈ live need (live need ([] :: labels) body after :: labels) body after,
      x ∈ live need ([] :: labels) body after := by
  intro x mem
  have grown : ∀ n, ∀ y ∈ (live need ([] :: labels) body after :: labels).getD n [],
      y ∈ ([] :: labels).getD n [] ∨ y ∈ live need ([] :: labels) body after := by
    intro n y mem
    cases n with
    | zero => exact Or.inr mem
    | succ n => exact Or.inl mem
  rcases mem_live_of_grown grown (fun _ mem => Or.inl mem) x mem with mem | mem
  · exact mem
  · exact mem

end Live

/-! ### Agreement -/

/-- The same memory, and the same values of these locals. -/
structure SameOn (xs : List ι) (s t : Store ι W M) : Prop where
  memory : s.memory = t.memory
  locals : ∀ x ∈ xs, s.locals x = t.locals x

omit [DecidableEq ι] in
theorem SameOn.mono {xs ys : List ι} {s t : Store ι W M} (same : SameOn xs s t)
    (sub : ∀ y ∈ ys, y ∈ xs) : SameOn ys s t :=
  ⟨same.memory, fun y mem => same.locals y (sub y mem)⟩

theorem SameOn.set {xs : List ι} {x : ι} {w : W} {s t : Store ι W M}
    (same : SameOn (xs.filter (· ≠ x)) s t) : SameOn xs (s.set x w) (t.set x w) := by
  constructor
  · exact same.memory
  · intro y mem
    rw [Store.set_locals, Store.set_locals]
    split
    · rfl
    · rename_i other
      exact same.locals y (List.mem_filter.mpr ⟨mem, by simpa using other⟩)

/-- The same outcome, up to locals that are not live where it leads to. -/
def Outcome.Same (labels : List (List ι)) (after : List ι) :
    Outcome ι W M → Outcome ι W M → Prop
  | .next c, .next d => c.stack = d.stack ∧ SameOn after c.store d.store
  | .branch m c, .branch n d =>
      m = n ∧ c.stack = d.stack ∧ SameOn (labels.getD m []) c.store d.store
  | .trap, .trap => True
  | .stuck, .stuck => True
  | .outOfFuel, .outOfFuel => True
  | _, _ => False

/-- The same answer, up to locals other than these. -/
def Answer.Same (xs : List ι) : Answer ι W M → Answer ι W M → Prop
  | .value v s, .value w t => v = w ∧ SameOn xs s t
  | .trap, .trap => True
  | .stuck, .stuck => True
  | .outOfFuel, .outOfFuel => True
  | _, _ => False

omit [DecidableEq ι] in
@[elab_as_elim]
theorem Answer.Same.elim {xs : List ι} {motive : Answer ι W M → Answer ι W M → Prop}
    (value : ∀ v s t, SameOn xs s t → motive (.value v s) (.value v t))
    (trap : motive .trap .trap) (stuck : motive .stuck .stuck)
    (outOfFuel : motive .outOfFuel .outOfFuel) {a b : Answer ι W M}
    (same : Answer.Same xs a b) : motive a b := by
  match a, b, same with
  | .value v s, .value _ t, ⟨rfl, stores⟩ => exact value v s t stores
  | .trap, .trap, _ => exact trap
  | .stuck, .stuck, _ => exact stuck
  | .outOfFuel, .outOfFuel, _ => exact outOfFuel

omit [DecidableEq ι] in
theorem Answer.Same.value_eq {xs : List ι} {a b : Answer ι W M} (same : Answer.Same xs a b) :
    a.value? = b.value? := by
  match a, b, same with
  | .value v s, .value _ t, ⟨rfl, _⟩ => rfl
  | .trap, .trap, _ => rfl
  | .stuck, .stuck, _ => rfl
  | .outOfFuel, .outOfFuel, _ => rfl

omit [DecidableEq ι] in
theorem Outcome.Same.leave {labels : List (List ι)} {after : List ι} {o p : Outcome ι W M}
    (same : Outcome.Same (after :: labels) after o p) (results : Nat) (stack : List W) :
    Outcome.Same labels after (o.leave results stack) (p.leave results stack) := by
  match o, p, same with
  | .next c, .next d, ⟨sameStack, stores⟩ =>
      simp only [Outcome.leave, sameStack]
      split
      · exact ⟨rfl, stores⟩
      · trivial
  | .branch 0 c, .branch 0 d, ⟨_, sameStack, stores⟩ =>
      simp only [Outcome.leave, sameStack]
      split
      · exact ⟨rfl, stores⟩
      · trivial
  | .branch (m + 1) c, .branch (n + 1) d, ⟨depth, sameStack, stores⟩ =>
      refine ⟨Nat.succ.inj depth, ?_, stores⟩
      simp only [sameStack]
  | .trap, .trap, _ => trivial
  | .stuck, .stuck, _ => trivial
  | .outOfFuel, .outOfFuel, _ => trivial

omit [DecidableEq ι] in
theorem Outcome.Same.answer {labels : List (List ι)} {after : List ι} {o p : Outcome ι W M}
    (same : Outcome.Same labels after o p) : Answer.Same after o.answer p.answer := by
  match o, p, same with
  | .next ⟨[], s⟩, .next ⟨_, t⟩, ⟨rfl, _⟩ => trivial
  | .next ⟨[w], s⟩, .next ⟨_, t⟩, ⟨rfl, stores⟩ => exact ⟨rfl, stores⟩
  | .next ⟨_ :: _ :: _, s⟩, .next ⟨_, t⟩, ⟨rfl, _⟩ => trivial
  | .branch _ _, .branch _ _, _ => trivial
  | .trap, .trap, _ => trivial
  | .stuck, .stuck, _ => trivial
  | .outOfFuel, .outOfFuel, _ => trivial

omit [DecidableEq ι] in
/-- What holds of the same outcome twice, up to locals, holds of outcomes that are the same. -/
@[elab_as_elim]
theorem Outcome.Same.elim {labels : List (List ι)} {after : List ι}
    {motive : Outcome ι W M → Outcome ι W M → Prop}
    (next : ∀ stack s t, SameOn after s t → motive (.next ⟨stack, s⟩) (.next ⟨stack, t⟩))
    (branch : ∀ m stack s t, SameOn (labels.getD m []) s t →
      motive (.branch m ⟨stack, s⟩) (.branch m ⟨stack, t⟩))
    (trap : motive .trap .trap) (stuck : motive .stuck .stuck)
    (outOfFuel : motive .outOfFuel .outOfFuel) {o p : Outcome ι W M}
    (same : Outcome.Same labels after o p) : motive o p := by
  match o, p, same with
  | .next ⟨stack, s⟩, .next ⟨_, t⟩, ⟨rfl, stores⟩ => exact next stack s t stores
  | .branch m ⟨stack, s⟩, .branch _ ⟨_, t⟩, ⟨rfl, rfl, stores⟩ => exact branch m stack s t stores
  | .trap, .trap, _ => exact trap
  | .stuck, .stuck, _ => exact stuck
  | .outOfFuel, .outOfFuel, _ => exact outOfFuel

omit [DecidableEq ι] in
theorem repeatLoop_same {labels : List (List ι)} {header after : List ι}
    {body body' : Store ι W M → Outcome ι W M}
    (same : ∀ s t, SameOn header s t →
      Outcome.Same (header :: labels) after (body s) (body' t))
    (n : Nat) {s t : Store ι W M} (start : SameOn header s t) :
    Outcome.Same (after :: labels) after (repeatLoop body n s) (repeatLoop body' n t) := by
  induction n generalizing s t with
  | zero => trivial
  | succ n ih =>
      have once := same s t start
      rw [repeatLoop, repeatLoop]
      refine once.elim ?_ ?_ trivial trivial trivial
      · intro stack s t stores
        exact ⟨rfl, stores⟩
      · intro depth stack s t stores
        cases depth with
        | zero => exact ih stores
        | succ depth => exact ⟨rfl, rfl, stores⟩

section Running

variable (machine : StackMachine ι P T W M) {need : H → List ι} {ok : H → List ι → Bool}
  {fill fill' : H → Store ι W M → Answer ι W M}

/-- Two runs of the same code from stores that agree on what is live lead to the same outcome, if
operands do so wherever they are evaluated. -/
theorem run_same
    (operands : ∀ h after, ok h after = true → ∀ s t, SameOn (need h ++ after) s t →
      Answer.Same after (fill h s) (fill' h t))
    (fuel : Nat) {code : Code ι P H T} {labels : List (List ι)} {after : List ι}
    (fitting : fits need ok labels code after = true) (stack : List W) {s t : Store ι W M}
    (same : SameOn (live need labels code after) s t) :
    Outcome.Same labels after (run machine fill fuel code ⟨stack, s⟩)
      (run machine fill' fuel code ⟨stack, t⟩) := by
  induction code generalizing labels after stack s t with
  | skip => exact ⟨rfl, same⟩
  | seq first second ihFirst ihSecond =>
      obtain ⟨before, behind⟩ := (Bool.and_eq_true _ _).mp fitting
      have start := ihFirst before stack same
      rw [run, run]
      refine start.elim ?_ ?_ trivial trivial trivial
      · intro stack₁ s₁ t₁ stores
        exact ihSecond behind stack₁ stores
      · intro depth stack₁ s₁ t₁ stores
        exact ⟨rfl, rfl, stores⟩
  | prim op =>
      rw [run, run]
      split
      · simp only [same.memory]
        split
        · trivial
        · exact ⟨rfl, rfl, fun x mem => same.locals x mem⟩
      · trivial
  | localGet x =>
      constructor
      · simp only [same.locals x List.mem_cons_self]
      · exact same.mono fun y mem => List.mem_cons_of_mem x mem
  | localSet x =>
      cases stack with
      | nil => trivial
      | cons w rest => exact ⟨rfl, same.set⟩
  | localTee x =>
      cases stack with
      | nil => trivial
      | cons w rest => exact ⟨rfl, same.set⟩
  | block results body ih => exact (ih fitting [] same).leave results.length stack
  | loop results body ih =>
      have once : ∀ s t, SameOn (live need ([] :: labels) body after) s t →
          Outcome.Same (live need ([] :: labels) body after :: labels) after
            (run machine fill fuel body ⟨[], s⟩) (run machine fill' fuel body ⟨[], t⟩) :=
        fun s t header => ih fitting [] (header.mono mem_live_loop)
      have again := repeatLoop_same once fuel same
      exact again.leave results.length stack
  | ifElse results thenBody elseBody ihThen ihElse =>
      obtain ⟨yes, no⟩ := (Bool.and_eq_true _ _).mp fitting
      cases stack with
      | nil => trivial
      | cons w rest =>
          simp only [run]
          cases machine.truth w with
          | true =>
              have sub := same.mono fun x mem => List.mem_append_left _ mem
              exact (ihThen yes [] sub).leave results.length rest
          | false =>
              have sub := same.mono fun x mem => List.mem_append_right _ mem
              exact (ihElse no [] sub).leave results.length rest
  | br depth => exact ⟨rfl, rfl, same⟩
  | brIf depth =>
      cases stack with
      | nil => trivial
      | cons w rest =>
          simp only [run]
          split
          · exact ⟨rfl, rfl, same.mono fun x mem => List.mem_append_left _ mem⟩
          · exact ⟨rfl, same.mono fun x mem => List.mem_append_right _ mem⟩
  | unreachable => trivial
  | hole h =>
      have filled := operands h after fitting s t same
      rw [run, run]
      refine filled.elim ?_ trivial trivial trivial
      intro v s' t' stores
      exact ⟨rfl, stores⟩

end Running

end LispRlm.Foundation
