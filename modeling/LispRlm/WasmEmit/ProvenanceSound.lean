import LispRlm.WasmEmit.NumericProvenance

/-! Runs in which every value that is relied on was last written as a number. -/

namespace LispRlm.WasmEmit.Provenance

/-- The variables that the emitter took for numeric at their last write hold numbers. -/
def Facts (env : Env) : Prop := ∀ x s, env x = some s → s.judged = true → s.value.plain = true

/-- Where the uses are all of judged values, they are of numbers, and the facts stay. -/
def Holds {α : Type} (m : Run α) (post : α → Prop) : Prop :=
  ∀ env, Facts env → (∀ u ∈ (m env).log, u.judged = true) →
    (∀ u ∈ (m env).log, u.value.plain = true) ∧
      match (m env).ending with
      | .done a env' => Facts env' ∧ post a
      | .recurs _ env' => Facts env'
      | .stops | .outOfFuel => True

/-- Only what the emitter takes for numeric is relied on. -/
def Taken (relies : Bool) (e : Expr) : Prop :=
  relies = true → ∃ known, exprIsNumeric known e = true

/-- What the code relies on in a value. -/
def Expected (relies : Bool) (v : Value) : Prop := relies = true → v.plain = true

theorem allNumeric_mem {known : List String} {es : List Expr} (all : allNumeric known es = true)
    {e : Expr} (mem : e ∈ es) : exprIsNumeric known e = true := by
  induction es with
  | nil => cases mem
  | cons first rest ih =>
      have both : exprIsNumeric known first = true ∧ allNumeric known rest = true := by
        simpa only [allNumeric, Bool.and_eq_true] using all
      cases mem with
      | head => exact both.1
      | tail _ later => exact ih both.2 later

theorem init_taken (numeric : List String) (limb : Bool) (e : Expr) :
    Taken (!limb && exprIsNumeric numeric e) e := by
  intro relied
  rw [Bool.and_eq_true] at relied
  exact ⟨numeric, relied.2⟩

/-- A write is judged where the emitter relied on the form to be numeric. -/
theorem slot_judged {judged : Bool} {v : Value} (expected : Expected judged v) (s : Slot)
    (made : some (Slot.mk v judged) = some s) (isJudged : s.judged = true) :
    s.value.plain = true := by
  cases made
  exact expected isJudged

namespace Holds

variable {α β : Type} {post : α → Prop}

theorem mono {m : Run α} {weaker : α → Prop} (holds : Holds m post)
    (le : ∀ a, post a → weaker a) : Holds m weaker := by
  intro env facts judged
  obtain ⟨plain, ended⟩ := holds env facts judged
  refine ⟨plain, ?_⟩
  cases ending : (m env).ending with
  | done a env' =>
      rw [ending] at ended
      exact ⟨ended.1, le a ended.2⟩
  | recurs args env' =>
      rw [ending] at ended
      exact ended
  | stops => trivial
  | outOfFuel => trivial

theorem pure {a : α} (holds : post a) : Holds (Pure.pure a : Run α) post := by
  intro env facts _
  exact ⟨fun u mem => (List.not_mem_nil mem).elim, facts, holds⟩

theorem bind {m : Run α} {f : α → Run β} {last : β → Prop} (first : Holds m post)
    (second : ∀ a, post a → Holds (f a) last) : Holds (m >>= f) last := by
  intro env facts judged
  have same : (m >>= f) env = Run.bind m f env := rfl
  rw [same] at judged ⊢
  simp only [Run.bind] at judged ⊢
  have started := first env facts
  cases ending : (m env).ending with
  | done a env' =>
      simp only [ending] at started judged ⊢
      obtain ⟨plain, facts', value⟩ :=
        started fun u mem => judged u (List.mem_append_left _ mem)
      obtain ⟨plain', ended⟩ :=
        second a value env' facts' fun u mem => judged u (List.mem_append_right _ mem)
      refine ⟨?_, ended⟩
      intro u mem
      cases List.mem_append.mp mem with
      | inl before => exact plain u before
      | inr later => exact plain' u later
  | recurs args env' =>
      simp only [ending] at started judged ⊢
      exact started judged
  | stops =>
      simp only [ending] at started judged ⊢
      exact started judged
  | outOfFuel =>
      simp only [ending] at started judged ⊢
      exact started judged

theorem stop : Holds (Run.stop : Run α) post := by
  intro env _ _
  exact ⟨fun u mem => (List.not_mem_nil mem).elim, trivial⟩

theorem spent : Holds (Run.spent : Run α) post := by
  intro env _ _
  exact ⟨fun u mem => (List.not_mem_nil mem).elim, trivial⟩

theorem recur (args : List Value) : Holds (Run.recur args : Run α) post := by
  intro env facts _
  exact ⟨fun u mem => (List.not_mem_nil mem).elim, facts⟩

/-- A judged use is of a number where being judged is enough for it. -/
theorem use {value : Value} {judged : Bool} (enough : judged = true → value.plain = true) :
    Holds (Run.use value judged) fun _ => value.plain = true := by
  intro env facts all
  have plain := enough (all ⟨value, judged⟩ (List.mem_singleton.mpr rfl))
  refine ⟨?_, facts, plain⟩
  intro u mem
  rw [List.mem_singleton.mp mem]
  exact plain

theorem slot (x : String) :
    Holds (Run.slot x) fun s =>
      ∀ s', s = some s' → s'.judged = true → s'.value.plain = true := by
  intro env facts _
  exact ⟨fun u mem => (List.not_mem_nil mem).elim, facts, fun s' found => facts x s' found⟩

theorem put (x : String) {s : Option Slot}
    (fine : ∀ s', s = some s' → s'.judged = true → s'.value.plain = true) :
    Holds (Run.put x s) fun _ => True := by
  intro env facts _
  refine ⟨fun u mem => (List.not_mem_nil mem).elim, ?_, trivial⟩
  intro y s' found
  have found' : (if y = x then s else env y) = some s' := found
  by_cases same : y = x
  · rw [if_pos same] at found'
    exact fine s' found'
  · rw [if_neg same] at found'
    exact facts y s' found'

theorem read (x : String) (relies : Bool) :
    Holds (Run.read x relies) fun v => relies = true → v.plain = true := by
  apply Holds.bind (Holds.slot x)
  intro s fine
  cases s with
  | none => exact Holds.stop
  | some s =>
      cases relies with
      | true =>
          apply Holds.bind (Holds.use (fine s rfl))
          intro _ plain
          exact Holds.pure fun _ => plain
      | false => exact Holds.pure fun never => Bool.noConfusion never

theorem each {one : List String → Expr → Run Value} {relies : Bool}
    (holds : ∀ numeric e, Taken relies e → Holds (one numeric e) (Expected relies))
    (numeric : List String) {es : List Expr} (taken : ∀ e ∈ es, Taken relies e) :
    Holds (Run.each one numeric es) fun vs => relies = true → vs.all Value.plain = true := by
  induction es generalizing numeric with
  | nil => exact Holds.pure fun _ => rfl
  | cons e rest ih =>
      apply Holds.bind (holds numeric e (taken e List.mem_cons_self))
      intro v first
      apply Holds.bind (ih _ fun e mem => taken e (List.mem_cons_of_mem _ mem))
      intro vs others
      apply Holds.pure
      intro relied
      rw [List.all_cons, first relied, others relied]
      rfl

theorem forms {one : Mode → List String → Expr → Run Value}
    (holds : ∀ mode numeric e, Holds (one mode numeric e) fun _ => True) (mode : Mode)
    (numeric : List String) (es : List Expr) :
    Holds (Run.forms one mode numeric es) fun _ => True := by
  induction es generalizing numeric with
  | nil => exact Holds.pure trivial
  | cons e rest ih =>
      cases rest with
      | nil => exact holds mode numeric e
      | cons e' rest =>
          apply Holds.bind (holds .plain numeric e)
          intro v _
          exact ih _

theorem bindings {one : Bool → List String → Expr → Run Value} {body : List String → Run Value}
    (holds : ∀ relies numeric e, Taken relies e → Holds (one relies numeric e) (Expected relies))
    (inner : ∀ numeric, Holds (body numeric) fun _ => True) (numeric : List String)
    (names : List (String × Bool)) (inits : List Expr) :
    Holds (Run.bindings one body numeric names inits) fun _ => True := by
  induction names generalizing numeric inits with
  | nil =>
      cases inits with
      | nil => exact inner numeric
      | cons init inits => exact inner numeric
  | cons name names ih =>
      cases inits with
      | nil => exact inner numeric
      | cons init inits =>
          obtain ⟨x, limb⟩ := name
          apply Holds.bind (holds _ _ init (init_taken numeric limb init))
          intro v value
          apply Holds.bind (Holds.slot x)
          intro old fine
          apply Holds.bind (Holds.put x (slot_judged value))
          intro _ _
          apply Holds.bind (ih _ inits)
          intro r _
          apply Holds.bind (Holds.put x fine)
          intro _ _
          exact Holds.pure trivial

theorem tcBindings {one : List String → Expr → Run Value} {body : List String → Run Value}
    (holds : ∀ numeric e, Holds (one numeric e) fun _ => True)
    (inner : ∀ numeric, Holds (body numeric) fun _ => True) (numeric : List String)
    (names : List (String × Bool)) (inits : List Expr) :
    Holds (Run.tcBindings one body numeric names inits) fun _ => True := by
  induction names generalizing numeric inits with
  | nil =>
      cases inits with
      | nil => exact inner numeric
      | cons init inits => exact inner numeric
  | cons name names ih =>
      cases inits with
      | nil => exact inner numeric
      | cons init inits =>
          obtain ⟨x, limb⟩ := name
          apply Holds.bind (holds numeric init)
          intro v _
          have written : ∀ s', some (Slot.mk v false) = some s' → s'.judged = true →
              s'.value.plain = true := by
            intro s' same judged
            cases same
            cases judged
          apply Holds.bind (Holds.put x written)
          intro _ _
          exact ih _ inits

/-- Nothing is known of the variables of a new frame. -/
theorem enter_facts (params : List String) (args : List Value) (captured : Env) :
    Facts (Run.enter params args captured) := by
  intro x s found judged
  unfold Run.enter at found
  split at found
  · cases found
    cases judged
  · obtain ⟨s', _, same⟩ := Option.map_eq_some_iff.mp found
    rw [← same] at judged
    cases judged

theorem turns {f : Fn} {body : Run Value} (holds : Holds body fun _ => True) (fuel : Nat) :
    Holds (Run.turns f body fuel) fun _ => True := by
  induction fuel with
  | zero => exact Holds.spent
  | succ fuel ih =>
      intro env facts judged
      have started := holds env facts
      cases ending : (body env).ending with
      | recurs args env' =>
          simp only [Run.turns, ending] at started judged ⊢
          obtain ⟨plain, _⟩ := started fun u mem => judged u (List.mem_append_left _ mem)
          obtain ⟨plain', ended⟩ := ih (Run.enter f.params args env')
            (enter_facts f.params args env') fun u mem => judged u (List.mem_append_right _ mem)
          refine ⟨?_, ended⟩
          intro u mem
          cases List.mem_append.mp mem with
          | inl before => exact plain u before
          | inr later => exact plain' u later
      | done a env' =>
          simp only [Run.turns, ending] at started judged ⊢
          exact started judged
      | stops =>
          simp only [Run.turns, ending] at started judged ⊢
          exact started judged
      | outOfFuel =>
          simp only [Run.turns, ending] at started judged ⊢
          exact started judged

theorem call {inside : Run Value} {start : Env → Env} (holds : Holds inside fun _ => True)
    (fresh : ∀ env, Facts (start env)) : Holds (Run.call inside start) fun _ => True := by
  intro env facts judged
  have started := holds (start env) (fresh env)
  simp only [Run.call] at judged ⊢
  obtain ⟨plain, _⟩ := started judged
  refine ⟨plain, ?_⟩
  cases (inside (start env)).ending with
  | done v env' => exact ⟨facts, trivial⟩
  | recurs args env' => trivial
  | stops => trivial
  | outOfFuel => trivial

end Holds

/-! ### Programs -/

/-- What the emitter takes for arithmetic has numeric operands. -/
theorem allNumeric_of_arithmetic {head : String} {args : List Expr} {known : List String}
    (arith : head ∈ arithmetic) (isNumeric : exprIsNumeric known (.app head args) = true) :
    allNumeric known args = true := by
  unfold exprIsNumeric at isNumeric
  rw [if_pos arith, Bool.and_eq_true] at isNumeric
  exact isNumeric.2

theorem apply_assured {b : Builtins} {head : String} {args : List Value} {v : Value}
    (applied : b.apply head args = some v) (sure : assured head args.length = true)
    (operands : head ∈ arithmetic → args.all Value.plain = true) : v.plain = true := by
  unfold Builtins.apply at applied
  by_cases arith : head ∈ arithmetic
  · rw [if_pos arith, if_pos (operands arith)] at applied
    obtain ⟨n, _, same⟩ := Option.map_eq_some_iff.mp applied
    rw [← same]
    rfl
  · unfold assured at sure
    simp only [arith, decide_false, Bool.false_or, Bool.and_eq_true, decide_eq_true_eq,
      bne_iff_ne, ne_eq, Bool.not_eq_true', Bool.and_eq_false_iff, decide_eq_false_iff_not,
      beq_eq_false_iff_ne] at sure
    obtain ⟨⟨listed, notText⟩, several⟩ := sure
    rw [if_neg arith, if_neg notText] at applied
    by_cases single : head ∈ ["max", "min"] ∧ args.length = 1
    · cases several with
      | inl other => exact (other single.1).elim
      | inr other => exact (other single.2).elim
    · rw [if_neg single, if_pos listed] at applied
      obtain ⟨made, _, same⟩ := Option.map_eq_some_iff.mp applied
      rw [← same]
      exact made.property

/-- A form that is never taken for numeric is not relied on. -/
theorem Holds.unexpected {m : Run Value} {relies : Bool} {e : Expr} (taken : Taken relies e)
    (never : ∀ known, exprIsNumeric known e = false) (holds : Holds m fun _ => True) :
    Holds m (Expected relies) := by
  apply holds.mono
  intro v _ relied
  obtain ⟨known, isNumeric⟩ := taken relied
  rw [never known] at isNumeric
  cases isNumeric

/-- The value of a call, which the code may rely on. -/
theorem Holds.relied {v : Value} {relies judged : Bool}
    (enough : relies = true → judged = true → v.plain = true) :
    Holds (do if relies then Run.use v judged
              return v) (Expected relies) := by
  cases relies with
  | true =>
      apply Holds.bind (Holds.use (enough rfl))
      intro _ plain
      exact Holds.pure fun _ => plain
  | false => exact Holds.pure fun never => Bool.noConfusion never

/-- The operands of a call that are relied on are taken for numeric. -/
theorem operands_taken {numeric : List String} {relies : Bool} {head : String}
    {args : List Expr} (taken : Taken relies (.app head args)) (e : Expr) (mem : e ∈ args) :
    Taken (reliesOn numeric relies head args) e := by
  intro relied
  unfold reliesOn at relied
  rw [Bool.or_eq_true, Bool.and_eq_true, Bool.and_eq_true, decide_eq_true_eq] at relied
  cases relied with
  | inl trusting => exact ⟨numeric, allNumeric_mem trusting.2 mem⟩
  | inr arith =>
      obtain ⟨known, isNumeric⟩ := taken arith.1
      exact ⟨known, allNumeric_mem (allNumeric_of_arithmetic arith.2 isNumeric) mem⟩

/-- The uses of a run, by the forms: only variables, calls and constants are ever relied on. -/
theorem run_holds (p : Program) (fuel : Nat) (f : Fn) (mode : Mode) (numeric : List String)
    (relies : Bool) (e : Expr) (taken : Taken relies e) :
    Holds (p.run fuel f mode numeric relies e) (Expected relies) := by
  induction fuel generalizing f mode numeric relies e with
  | zero => exact Holds.spent
  | succ fuel ih =>
      have any : ∀ f mode numeric e, Holds (p.run fuel f mode numeric false e) fun _ => True := by
        intro f mode numeric e
        have untaken : Taken false e := fun never => Bool.noConfusion never
        exact (ih f mode numeric false e untaken).mono fun _ _ => trivial
      have invoked : ∀ (g : Fn) (args : List Value), Holds
          (Run.call (Run.turns g (p.run fuel g (.ofBody g.name g.params.length g.body) [] false
            g.body) fuel) fun env =>
              Run.enter g.params args (if g.captures then env else fun _ => none))
          fun _ => True := by
        intro g args
        apply Holds.call (Holds.turns (any _ _ _ _) fuel)
        intro env
        exact Holds.enter_facts _ _ _
      have listed : ∀ numeric es, Holds
          (Run.each (fun numeric e => p.run fuel f .plain numeric false e) numeric es)
          fun _ => True := by
        intro numeric es
        have untaken : ∀ e ∈ es, Taken false e := fun e _ never => Bool.noConfusion never
        have each := Holds.each (fun numeric e => ih f .plain numeric false e) numeric untaken
        exact each.mono fun _ _ => trivial
      have sequence : ∀ mode numeric es, Holds
          (Run.forms (fun mode numeric e => p.run fuel f mode numeric false e) mode numeric es)
          fun _ => True :=
        Holds.forms (fun mode numeric e => any f mode numeric e)
      cases e with
      | num n => exact Holds.pure fun _ => rfl
      | lit v => exact Holds.unexpected taken (fun _ => rfl) (Holds.pure trivial)
      | sym x => exact Holds.read x relies
      | app head args =>
          apply Holds.bind (Holds.each (fun numeric e => ih f .plain numeric _ e) numeric
            (operands_taken taken))
          intro vs operands
          by_cases self : mode.isSelf (.app head args) = true
          · rw [if_pos self]
            exact Holds.recur vs
          rw [if_neg self]
          by_cases own : head = f.name
          · rw [if_pos own]
            apply Holds.bind (invoked f vs)
            intro v _
            exact Holds.relied fun _ never => Bool.noConfusion never
          rw [if_neg own]
          cases p.functions head with
          | some g =>
              apply Holds.bind (invoked g vs)
              intro v _
              exact Holds.relied fun _ never => Bool.noConfusion never
          | none =>
              cases applied : p.builtins.apply head vs with
              | none => exact Holds.stop
              | some v =>
                  apply Holds.relied
                  intro relied sure
                  apply apply_assured applied sure
                  intro arith
                  apply operands
                  simp [reliesOn, relied, arith]
      | if_ c t e =>
          apply Holds.unexpected taken fun _ => rfl
          apply Holds.bind (any _ _ _ c)
          intro v _
          by_cases first : v.truthy = true
          · simp only [first, if_true]
            exact any _ _ _ t
          · simp only [first]
            exact any _ _ _ e
      | begin_ es =>
          apply Holds.unexpected taken fun _ => rfl
          exact sequence _ _ es
      | let_ names inits body =>
          apply Holds.unexpected taken fun _ => rfl
          cases mode with
          | plain =>
              exact Holds.bindings (fun relies numeric e => ih f .plain numeric relies e)
                (fun numeric => sequence _ numeric body) numeric names inits
          | tail name arity =>
              exact Holds.tcBindings (fun numeric e => any f .plain numeric e)
                (fun numeric => sequence _ numeric body) numeric names inits
      | set x limb e =>
          apply Holds.unexpected taken fun _ => rfl
          apply Holds.bind (ih f .plain numeric _ e (init_taken numeric limb e))
          intro v expected
          apply Holds.bind (Holds.put x (slot_judged expected))
          intro _ _
          exact Holds.pure trivial
      | while_ c body =>
          apply Holds.unexpected taken fun _ => rfl
          apply Holds.bind (any _ _ _ c)
          intro v _
          by_cases again : v.truthy = true
          · simp only [again, if_true]
            apply Holds.bind (sequence _ _ body)
            intro _ _
            exact any _ _ _ _
          · simp only [again]
            exact Holds.pure trivial
      | loop names inits body =>
          apply Holds.unexpected taken fun _ => rfl
          apply Holds.bind (listed _ inits)
          intro vs _
          exact invoked _ vs

def bare : Program where
  functions := fun _ => none
  builtins := ⟨fun _ _ => some 2, fun _ _ => none, fun _ _ => none⟩

/-- `(define (double c) (let ((x 1)) (if c (set! x 2) nil) (+ x x)))` -/
def double : Fn where
  name := "double"
  params := ["c"]
  captures := false
  body := .let_ [("x", false)] [.num 1]
    [.if_ (.sym "c") (.set "x" false (.num 2)) (.lit .nil), .app "+" [.sym "x", .sym "x"]]

/-- `(define (joined c) (let ((x "a")) (if c (set! x 1) nil) (+ x x)))` -/
def joined : Fn where
  name := "joined"
  params := ["c"]
  captures := false
  body := .let_ [("x", false)] [.lit (.str "a")]
    [.if_ (.sym "c") (.set "x" false (.num 1)) (.lit .nil), .app "+" [.sym "x", .sym "x"]]

end LispRlm.WasmEmit.Provenance
