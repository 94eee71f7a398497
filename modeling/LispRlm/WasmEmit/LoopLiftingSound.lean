import LispRlm.WasmEmit.LoopLifting

/-! Lifted loops and loops in place, in runs that assign no variable through a loop. -/

namespace LispRlm.WasmEmit.Lifting

section

variable {V W α β : Type}

/-- The same values of the variables that matter. -/
def Agree (S : String → Prop) (env env' : Env V) : Prop :=
  ∀ x, S x → (env x).map Slot.value = (env' x).map Slot.value

/-- All but the variables of the innermost loop are as they were. -/
def Kept (depth : Nat) (env after : Env V) : Prop :=
  ∀ x, after x = env x ∨
    (mine depth env x = true ∧ ∃ s, after x = some s ∧ s.level = depth)

def Below (depth : Nat) (env : Env V) : Prop := ∀ x s, env x = some s → s.level ≤ depth

namespace Kept

variable {depth : Nat} {env env' env'' : Env V}

theorem same : Kept depth env env := fun _ => .inl rfl

theorem then_ (first : Kept depth env env') (second : Kept depth env' env'') :
    Kept depth env env'' := by
  intro x
  cases second x with
  | inl unchanged =>
      rw [unchanged]
      exact first x
  | inr changed =>
      obtain ⟨own, s, found, level⟩ := changed
      refine .inr ⟨?_, s, found, level⟩
      cases first x with
      | inl unchanged =>
          unfold mine at own ⊢
          rw [← unchanged]
          exact own
      | inr changed => exact changed.1

theorem below (kept : Kept depth env env') (before : Below depth env) : Below depth env' := by
  intro x s found
  cases kept x with
  | inl unchanged => exact before x s (unchanged ▸ found)
  | inr changed =>
      obtain ⟨_, s', found', level⟩ := changed
      have same : s = s' := Option.some.inj (found.symm.trans found')
      rw [same]
      exact Nat.le_of_eq level

/-- What comes from outside of the loop is not touched. -/
theorem outer (kept : Kept depth env env') {x : String} (isOut : isOuter depth env' x = true) :
    env' x = env x := by
  cases kept x with
  | inl unchanged => exact unchanged
  | inr changed =>
      obtain ⟨_, s, found, level⟩ := changed
      unfold isOuter at isOut
      rw [found] at isOut
      have lower : s.level < depth := of_decide_eq_true isOut
      omega

end Kept

theorem valuesOf_congr {env env' : Env V} {names : List String}
    (same : ∀ x ∈ names, (env x).map Slot.value = (env' x).map Slot.value) :
    valuesOf env names = valuesOf env' names :=
  List.filterMap_congr same

/-! ### Two runs -/

/-- The ends of a run in place and a lifted one. -/
def Matches (S : String → Prop) (depth : Nat) (frame : Frame) (env : Env V) :
    End V W α → End V W α → Prop
  | .done a after w, .done a' after' w' =>
      a' = a ∧ w' = w ∧ Agree S after after' ∧ Kept depth env after
  | .recurs args after w, .recurs args' _ w' =>
      args' = args ++ valuesOf env frame.free ∧ args.length = frame.names.length ∧ w' = w ∧
        (∀ x ∈ frame.free, isOuter depth env x = true) ∧ Kept depth env after
  | .stops w, .stops w' => w' = w
  | .outOfFuel, .outOfFuel => True
  | _, _ => False

theorem Matches.of_done {S : String → Prop} {depth : Nat} {frame : Frame} {env after : Env V}
    {a : α} {w : W} {r' : End V W α} (same : Matches S depth frame env (.done a after w) r') :
    ∃ after', r' = .done a after' w ∧ Agree S after after' ∧ Kept depth env after := by
  cases r' with
  | done a' after' w' =>
      obtain ⟨value, world, agree, kept⟩ := same
      exact ⟨after', by rw [value, world], agree, kept⟩
  | recurs => exact same.elim
  | stops => exact same.elim
  | outOfFuel => exact same.elim

theorem Matches.of_recurs {S : String → Prop} {depth : Nat} {frame : Frame} {env after : Env V}
    {args : List V} {w : W} {r' : End V W α}
    (same : Matches S depth frame env (.recurs args after w) r') :
    ∃ after', r' = .recurs (args ++ valuesOf env frame.free) after' w ∧
      args.length = frame.names.length ∧ (∀ x ∈ frame.free, isOuter depth env x = true) ∧
      Kept depth env after := by
  cases r' with
  | recurs args' after' w' =>
      obtain ⟨passed, arity, world, outer, kept⟩ := same
      exact ⟨after', by rw [passed, world], arity, outer, kept⟩
  | done => exact same.elim
  | stops => exact same.elim
  | outOfFuel => exact same.elim

theorem Matches.of_stops {S : String → Prop} {depth : Nat} {frame : Frame} {env : Env V} {w : W}
    {r' : End V W α} (same : Matches S depth frame env (.stops w) r') : r' = .stops w := by
  cases r' with
  | stops w' => exact congrArg End.stops same
  | done => exact same.elim
  | recurs => exact same.elim
  | outOfFuel => exact same.elim

theorem Matches.of_outOfFuel {S : String → Prop} {depth : Nat} {frame : Frame} {env : Env V}
    {r' : End V W α} (same : Matches S depth frame env .outOfFuel r') : r' = .outOfFuel := by
  cases r' with
  | outOfFuel => rfl
  | done => exact same.elim
  | recurs => exact same.elim
  | stops => exact same.elim

theorem Matches.from {S : String → Prop} {depth : Nat} {frame : Frame} {env env' : Env V}
    {r r' : End V W α} (kept : Kept depth env env') (same : Matches S depth frame env' r r') :
    Matches S depth frame env r r' := by
  cases r with
  | done a after w =>
      cases r' with
      | done a' after' w' =>
          obtain ⟨value, world, agree, later⟩ := same
          exact ⟨value, world, agree, kept.then_ later⟩
      | recurs => exact same
      | stops => exact same
      | outOfFuel => exact same
  | recurs args after w =>
      cases r' with
      | recurs args' after' w' =>
          obtain ⟨passed, arity, world, outer, later⟩ := same
          have back : ∀ x ∈ frame.free, env' x = env x := fun x mem => kept.outer (outer x mem)
          have values : valuesOf env' frame.free = valuesOf env frame.free :=
            valuesOf_congr fun x mem => by rw [back x mem]
          refine ⟨values ▸ passed, arity, world, ?_, kept.then_ later⟩
          intro x mem
          have isOut := outer x mem
          unfold isOuter at isOut ⊢
          rw [← back x mem]
          exact isOut
      | done => exact same
      | stops => exact same
      | outOfFuel => exact same
  | stops w => cases r' <;> exact same
  | outOfFuel => cases r' <;> exact same

/-- A lifted run does what the run in place does, if all of that one's checks hold. -/
def Sim (S : String → Prop) (depth : Nat) (frame : Frame) (m m' : Run V W α) : Prop :=
  ∀ env env' w, Agree S env env' → Below depth env → (∀ ok ∈ (m env w).log, ok = true) →
    Matches S depth frame env (m env w).ending (m' env' w).ending

namespace Sim

variable {S : String → Prop} {depth : Nat} {frame : Frame}

theorem pure (a : α) : Sim S depth frame (Pure.pure a : Run V W α) (Pure.pure a) :=
  fun _ _ _ agree _ _ => ⟨rfl, rfl, agree, Kept.same⟩

theorem stop : Sim S depth frame (Run.stop : Run V W α) Run.stop := fun _ _ _ _ _ _ => rfl

theorem spent : Sim S depth frame (Run.spent : Run V W α) Run.spent :=
  fun _ _ _ _ _ _ => trivial

theorem bind {m m' : Run V W α} {f f' : α → Run V W β} (first : Sim S depth frame m m')
    (second : ∀ a, Sim S depth frame (f a) (f' a)) :
    Sim S depth frame (m >>= f) (m' >>= f') := by
  intro env env' w agree below checks
  have unfolded : (m >>= f) env w = Run.bind m f env w := rfl
  have unfolded' : (m' >>= f') env' w = Run.bind m' f' env' w := rfl
  rw [unfolded] at checks
  rw [unfolded, unfolded']
  simp only [Run.bind] at checks ⊢
  have started := first env env' w agree below
  cases ending : (m env w).ending with
  | done a after w1 =>
      simp only [ending] at started checks ⊢
      have same := started fun ok mem => checks ok (List.mem_append_left _ mem)
      obtain ⟨after', ending', agreeAfter, kept⟩ := same.of_done
      simp only [ending']
      have rest := second a after after' w1 agreeAfter (kept.below below)
        fun ok mem => checks ok (List.mem_append_right _ mem)
      exact rest.from kept
  | recurs args after w1 =>
      simp only [ending] at started checks ⊢
      obtain ⟨after', ending', arity, outer, kept⟩ := (started checks).of_recurs
      simp only [ending']
      exact ⟨rfl, arity, rfl, outer, kept⟩
  | stops w1 =>
      simp only [ending] at started checks ⊢
      simp only [(started checks).of_stops]
      exact rfl
  | outOfFuel =>
      simp only [ending] at started checks ⊢
      simp only [(started checks).of_outOfFuel]
      trivial

/-- One check of the run in place, which holds there. -/
theorem check {f f' : Unit → Run V W α} {holds holds' : Env V → Bool}
    (rest : ∀ env env' w, Agree S env env' → Below depth env → holds env = true →
      (∀ ok ∈ (f () env w).log, ok = true) →
        Matches S depth frame env (f () env w).ending (f' () env' w).ending) :
    Sim S depth frame (Run.check holds >>= f) (Run.check holds' >>= f') := by
  intro env env' w agree below checks
  have held : holds env = true := checks _ List.mem_cons_self
  exact rest env env' w agree below held fun ok mem => checks ok (List.mem_cons_of_mem _ mem)

theorem put (x : String) (s : Slot V) (level : s.level = depth) {env env' : Env V} {w : W}
    (agree : Agree S env env') (own : mine depth env x = true) {a : α} :
    Matches S depth frame env ((Run.put x s >>= fun _ => Pure.pure a : Run V W α) env w).ending
      ((Run.put x s >>= fun _ => Pure.pure a : Run V W α) env' w).ending := by
  refine ⟨rfl, rfl, ?_, ?_⟩
  · intro y matters
    by_cases same : y = x
    · simp only [if_pos same]
    · simp only [if_neg same]
      exact agree y matters
  · intro y
    by_cases same : y = x
    · exact .inr ⟨same ▸ own, s, if_pos same, level⟩
    · exact .inl (if_neg same)

theorem read (p : Program V W) (x : String) (matters : S x) :
    Sim S depth frame (p.read x) (p.read x) := by
  intro env env' w agree _ _
  have same := agree x matters
  unfold Program.read
  cases found : env x with
  | some s =>
      cases found' : env' x with
      | some s' =>
          rw [found, found'] at same
          have values : s.value = s'.value := Option.some.inj same
          exact ⟨values.symm, rfl, agree, Kept.same⟩
      | none =>
          rw [found, found'] at same
          cases same
  | none =>
      cases found' : env' x with
      | some s' =>
          rw [found, found'] at same
          cases same
      | none =>
          cases p.global x with
          | some v => exact ⟨rfl, rfl, agree, Kept.same⟩
          | none => rfl

theorem call (p : Program V W) (head : String) (args : List V) (matters : S head) :
    Sim S depth frame (p.call head args) (p.call head args) := by
  intro env env' w agree _ _
  unfold Program.call
  rw [← agree head matters]
  cases p.apply head ((env head).map Slot.value) args w with
  | mk result w' =>
      cases result with
      | some v => exact ⟨rfl, rfl, agree, Kept.same⟩
      | none => rfl

theorem recur (args : List V) (arity : args.length = frame.names.length)
    (given : ∀ x ∈ frame.free, S x) :
    Sim S depth frame
      (do Run.check fun env => frame.free.all (isOuter depth env)
          Run.recur .inPlace frame.free args : Run V W α)
      (do Run.check fun env => frame.free.all (isOuter depth env)
          Run.recur .lifted frame.free args) := by
  apply check
  intro env env' w agree _ outer _
  have values : valuesOf env frame.free = valuesOf env' frame.free :=
    valuesOf_congr fun x mem => agree x (given x mem)
  have passed : args ++ valuesOf env' frame.free = args ++ [] ++ valuesOf env frame.free := by
    rw [values, List.append_nil]
  refine ⟨passed, ?_, rfl, List.all_eq_true.mp outer, Kept.same⟩
  rw [List.append_nil]
  exact arity

theorem binding (x : String) (v : V) {m m' : Run V W α}
    (inner : Sim (fun y => S y ∨ y = x) depth frame m m') :
    Sim S depth frame (Run.binding x ⟨v, depth⟩ m) (Run.binding x ⟨v, depth⟩ m') := by
  intro env env' w agree below checks
  have agreeIn : Agree (fun y => S y ∨ y = x) (fun y => if y = x then some ⟨v, depth⟩ else env y)
      fun y => if y = x then some ⟨v, depth⟩ else env' y := by
    intro y matters
    by_cases same : y = x
    · simp only [if_pos same]
    · simp only [if_neg same]
      exact agree y (matters.resolve_right same)
  have belowIn : Below depth fun y => if y = x then some ⟨v, depth⟩ else env y := by
    intro y s found
    by_cases same : y = x
    · simp only [if_pos same] at found
      cases found
      exact Nat.le_refl _
    · simp only [if_neg same] at found
      exact below y s found
  have same := inner _ _ w agreeIn belowIn checks
  -- what is kept inside the scope is kept once the old binding is back
  have back : ∀ after : Env V,
      Kept depth (fun y => if y = x then some ⟨v, depth⟩ else env y) after →
        Kept depth env fun y => if y = x then env y else after y := by
    intro after kept y
    by_cases at_ : y = x
    · exact .inl (if_pos at_)
    · simp only [if_neg at_]
      have old := kept y
      simp only [mine, if_neg at_] at old
      exact old
  simp only [Run.binding]
  cases ending : (m (fun y => if y = x then some ⟨v, depth⟩ else env y) w).ending with
  | done a after w1 =>
      rw [ending] at same
      obtain ⟨after', ending', agreeAfter, kept⟩ := same.of_done
      rw [ending']
      refine ⟨rfl, rfl, ?_, back after kept⟩
      intro y matters
      by_cases at_ : y = x
      · simp only [if_pos at_]
        exact agree y matters
      · simp only [if_neg at_]
        exact agreeAfter y (.inl matters)
  | recurs args after w1 =>
      rw [ending] at same
      obtain ⟨after', ending', arity, outer, kept⟩ := same.of_recurs
      rw [ending']
      have elsewhere : ∀ y ∈ frame.free, y ≠ x := by
        intro y mem at_
        have isOut := outer y mem
        simp only [isOuter, if_pos at_, decide_eq_true_eq, Nat.lt_irrefl] at isOut
      have values : valuesOf (fun y => if y = x then some ⟨v, depth⟩ else env y) frame.free =
          valuesOf env frame.free :=
        valuesOf_congr fun y mem => by rw [if_neg (elsewhere y mem)]
      refine ⟨by rw [values], arity, rfl, ?_, back after kept⟩
      intro y mem
      have isOut := outer y mem
      simp only [isOuter, if_neg (elsewhere y mem)] at isOut
      exact isOut
  | stops w1 =>
      rw [ending] at same
      rw [same.of_stops]
      exact rfl
  | outOfFuel =>
      rw [ending] at same
      rw [same.of_outOfFuel]
      trivial

theorem each {one one' : Expr V → Run V W V} {es : List (Expr V)}
    (all : ∀ e ∈ es, Sim S depth frame (one e) (one' e)) :
    Sim S depth frame (Run.each one es) (Run.each one' es) := by
  induction es with
  | nil => exact Sim.pure []
  | cons e rest ih =>
      apply Sim.bind (all e List.mem_cons_self)
      intro v
      apply Sim.bind (ih fun e mem => all e (List.mem_cons_of_mem _ mem))
      intro vs
      exact Sim.pure _

theorem forms {nil : V} {one one' : Option Frame → Expr V → Run V W V} {loop loop' : Option Frame}
    {es : List (Expr V)} (before : ∀ e ∈ es, Sim S depth frame (one none e) (one' none e))
    (last : ∀ e ∈ es, Sim S depth frame (one loop e) (one' loop' e)) :
    Sim S depth frame (Run.forms nil one loop es) (Run.forms nil one' loop' es) := by
  induction es with
  | nil => exact Sim.pure nil
  | cons e rest ih =>
      cases rest with
      | nil => exact last e List.mem_cons_self
      | cons e' rest =>
          apply Sim.bind (before e List.mem_cons_self)
          intro _
          exact ih (fun e mem => before e (List.mem_cons_of_mem _ mem))
            fun e mem => last e (List.mem_cons_of_mem _ mem)

theorem bindings {one one' : Expr V → Run V W V} {body body' : Run V W V}
    {names : List String} {inits : List (Expr V)}
    (all : ∀ S' : String → Prop, (∀ x, S x → S' x) → ∀ e ∈ inits,
      Sim S' depth frame (one e) (one' e))
    (inner : ∀ S' : String → Prop, (∀ x, S x → S' x) → (∀ x ∈ names, S' x) →
      Sim S' depth frame body body') :
    Sim S depth frame (Run.bindings depth one body names inits)
      (Run.bindings depth one' body' names inits) := by
  induction names generalizing inits S with
  | nil =>
      cases inits with
      | nil => exact inner S (fun _ matters => matters) fun _ never => nomatch never
      | cons init inits => exact Sim.stop
  | cons x names ih =>
      cases inits with
      | nil => exact Sim.stop
      | cons init inits =>
          apply Sim.bind (all S (fun _ matters => matters) init List.mem_cons_self)
          intro v
          apply Sim.binding
          apply ih
          · intro S' wider e mem
            exact all S' (fun y matters => wider y (.inl matters)) e (List.mem_cons_of_mem _ mem)
          · intro S' wider named
            apply inner S' fun y matters => wider y (.inl matters)
            intro y mem
            cases mem with
            | head => exact wider x (.inr rfl)
            | tail _ later => exact named y later

end Sim

/-! ### Loops -/

theorem lookup_zip {names : List String} {vs : List V} (arity : vs.length = names.length)
    {x : String} (mem : x ∈ names) : ((names.zip vs).lookup x).isSome = true := by
  induction names generalizing vs with
  | nil => cases mem
  | cons y names ih =>
      cases vs with
      | nil => cases arity
      | cons v vs =>
          rw [List.zip_cons_cons, List.lookup_cons]
          by_cases same : x = y
          · simp [same]
          · have later : x ∈ names := (List.mem_cons.mp mem).resolve_left same
            have other : (x == y) = false := beq_eq_false_iff_ne.mpr same
            rw [other]
            exact ih (Nat.succ.inj arity) later

theorem lookup_zip_none {names : List String} {vs : List V} {x : String} (other : x ∉ names) :
    (names.zip vs).lookup x = none := by
  rw [List.lookup_eq_none_iff]
  intro pair mem
  have named : pair.1 ∈ names := (List.of_mem_zip mem).1
  apply bne_iff_ne.mpr
  intro same
  exact other (same ▸ named)

/-- The free variables that a loop's function is given have their values in it. -/
theorem lookup_values {env : Env V} {free : List String}
    (bound : ∀ x ∈ free, (env x).isSome = true) (x : String) :
    (free.zip (valuesOf env free)).lookup x =
      if x ∈ free then (env x).map Slot.value else none := by
  induction free with
  | nil => rfl
  | cons y free ih =>
      obtain ⟨s, found⟩ := Option.isSome_iff_exists.mp (bound y List.mem_cons_self)
      have rest := ih fun z mem => bound z (List.mem_cons_of_mem _ mem)
      have first : valuesOf env (y :: free) = s.value :: valuesOf env free := by
        simp only [valuesOf, List.filterMap_cons, found, Option.map_some]
      rw [first, List.zip_cons_cons, List.lookup_cons]
      by_cases same : x = y
      · subst same
        simp [found]
      · have other : (x == y) = false := beq_eq_false_iff_ne.mpr same
        rw [other]
        simp only [List.mem_cons, same, false_or]
        exact rest

theorem bindAll_other {names : List String} {vs : List V} {depth : Nat} {outer : Env V}
    {x : String} (other : x ∉ names) : bindAll names vs depth outer x = outer x := by
  unfold bindAll
  rw [lookup_zip_none other]

theorem bindAll_named {names : List String} {vs : List V} (depth : Nat) (outer : Env V)
    (arity : vs.length = names.length) {x : String} (mem : x ∈ names) :
    ∃ v, (names.zip vs).lookup x = some v ∧ bindAll names vs depth outer x = some ⟨v, depth⟩ := by
  obtain ⟨v, found⟩ := Option.isSome_iff_exists.mp (lookup_zip arity mem)
  refine ⟨v, found, ?_⟩
  unfold bindAll
  rw [found]

/-- The loop's body from the variables of a turn in place and of its function. -/
structure Turn (p : Program V W) (depth : Nat) (frame : Frame) (body : List (Expr V))
    (outer : Env V) (matters : String → Prop) : Prop where
  below : Below depth outer
  free : ∀ x, x ∈ frame.free ↔ x ∈ collectFreeAll body ∧ x ∉ frame.names ∧
    (outer x).isSome = true ∧ x ∉ p.functions
  unshadowed : p.unshadowed frame.names body outer = true
  needed : ∀ x, matters x ↔ x ∈ frame.names ∨ x ∈ collectFreeAll body

namespace Turn

variable {p : Program V W} {depth : Nat} {frame : Frame} {body : List (Expr V)} {outer : Env V}
  {matters : String → Prop}

/-- At the start of a turn the function's parameters are the variables that the body reads. -/
theorem agree (turn : Turn p depth frame body outer matters) {args : List V}
    (arity : args.length = frame.names.length) {env : Env V}
    (same : ∀ x ∉ frame.names, env x = outer x) :
    Agree matters (bindAll frame.names args (depth + 1) env)
      (bindAll (frame.names ++ frame.free) (args ++ valuesOf outer frame.free) (depth + 1)
        fun _ => none) := by
  intro x needed
  have zipped : (frame.names ++ frame.free).zip (args ++ valuesOf outer frame.free) =
      frame.names.zip args ++ frame.free.zip (valuesOf outer frame.free) :=
    List.zip_append arity.symm
  have bound : ∀ y ∈ frame.free, (outer y).isSome = true := fun y mem =>
    ((turn.free y).mp mem).2.2.1
  by_cases named : x ∈ frame.names
  · obtain ⟨v, found, inPlace⟩ := bindAll_named (depth + 1) env arity named
    rw [inPlace]
    unfold bindAll
    rw [zipped, List.lookup_append, found]
    rfl
  · rw [bindAll_other named, same x named]
    unfold bindAll
    rw [zipped, List.lookup_append, lookup_zip_none named, Option.none_or,
      lookup_values bound x]
    by_cases given : x ∈ frame.free
    · rw [if_pos given]
      obtain ⟨s, found⟩ := Option.isSome_iff_exists.mp (bound x given)
      rw [found]
      rfl
    · rw [if_neg given]
      have mentioned : x ∈ collectFreeAll body :=
        ((turn.needed x).mp needed).resolve_left named
      cases found : outer x with
      | none => rfl
      | some s =>
          have clear := List.all_eq_true.mp turn.unshadowed x mentioned
          simp only [named, found, Bool.or_eq_true, decide_eq_true_eq, Option.isNone_some,
            Bool.false_eq_true, or_self, false_or] at clear
          have isGiven : x ∈ frame.free :=
            (turn.free x).mpr ⟨mentioned, named, by rw [found]; rfl, clear⟩
          exact absurd isGiven given

theorem belowIn (turn : Turn p depth frame body outer matters) {args : List V}
    (arity : args.length = frame.names.length) {env : Env V}
    (same : ∀ x ∉ frame.names, env x = outer x) :
    Below (depth + 1) (bindAll frame.names args (depth + 1) env) := by
  intro x s found
  by_cases named : x ∈ frame.names
  · obtain ⟨v, _, inPlace⟩ := bindAll_named (depth + 1) env arity named
    rw [inPlace] at found
    cases found
    exact Nat.le_refl _
  · rw [bindAll_other named, same x named] at found
    exact Nat.le_succ_of_le (turn.below x s found)

/-- Without an assignment through the loop, the variables around it stay. -/
theorem unchanged (turn : Turn p depth frame body outer matters) {args : List V} {env after : Env V}
    (same : ∀ x ∉ frame.names, env x = outer x)
    (kept : Kept (depth + 1) (bindAll frame.names args (depth + 1) env) after) :
    ∀ x ∉ frame.names, after x = outer x := by
  intro x other
  have start : bindAll frame.names args (depth + 1) env x = outer x := by
    rw [bindAll_other other, same x other]
  cases kept x with
  | inl equal => rw [equal, start]
  | inr changed =>
      have own := changed.1
      unfold mine at own
      rw [start] at own
      cases found : outer x with
      | none =>
          rw [found] at own
          cases own
      | some s =>
          rw [found] at own
          have level : s.level = depth + 1 := beq_iff_eq.mp own
          have lower := turn.below x s found
          omega

end Turn

/-- The ends of all turns, of a loop in place and of a lifted one. -/
def LoopEnds (names : List String) (outer : Env V) : End V W V → End V W V → Prop
  | .done v after w, .done v' _ w' => v' = v ∧ w' = w ∧ ∀ x ∉ names, after x = outer x
  | .stops w, .stops w' => w' = w
  | .outOfFuel, .outOfFuel => True
  | _, _ => False

theorem turns_sim {p : Program V W} {depth : Nat} {frame : Frame} {body : List (Expr V)}
    {outer : Env V} {matters : String → Prop} (turn : Turn p depth frame body outer matters)
    {inside inside' : Run V W V} (sim : Sim matters (depth + 1) frame inside inside') (fuel : Nat)
    (args : List V) (arity : args.length = frame.names.length) (env env' : Env V) (w : W)
    (same : ∀ x ∉ frame.names, env x = outer x)
    (checks : ∀ ok ∈ (Run.turns (Program.restart .inPlace frame (depth + 1)) inside fuel
      (bindAll frame.names args (depth + 1) env) w).log, ok = true) :
    LoopEnds frame.names outer
      (Run.turns (Program.restart .inPlace frame (depth + 1)) inside fuel
        (Program.restart .inPlace frame (depth + 1) args env) w).ending
      (Run.turns (Program.restart .lifted frame (depth + 1)) inside' fuel
        (Program.restart .lifted frame (depth + 1) (args ++ valuesOf outer frame.free) env')
        w).ending := by
  induction fuel generalizing args env env' w with
  | zero => trivial
  | succ fuel ih =>
      have step := sim _ _ w (turn.agree arity same) (turn.belowIn arity same)
      simp only [Program.restart] at checks ⊢
      generalize lifted : bindAll (frame.names ++ frame.free)
        (args ++ valuesOf outer frame.free) (depth + 1) (fun _ => none) = start' at step ⊢
      generalize inPlace : bindAll frame.names args (depth + 1) env = start at step checks ⊢
      cases ending : (inside start w).ending with
      | done v after w1 =>
          simp only [Run.turns, ending] at step checks ⊢
          obtain ⟨after', ending', _, kept⟩ := (step checks).of_done
          subst inPlace
          simp only [ending']
          exact ⟨rfl, rfl, turn.unchanged same kept⟩
      | recurs next after w1 =>
          simp only [Run.turns, ending] at step checks ⊢
          have ends := step fun ok mem => checks ok (List.mem_append_left _ mem)
          obtain ⟨after', ending', arity', _, kept⟩ := ends.of_recurs
          subst inPlace
          simp only [ending']
          have free : valuesOf (bindAll frame.names args (depth + 1) env) frame.free =
              valuesOf outer frame.free := by
            apply valuesOf_congr
            intro x mem
            have other : x ∉ frame.names := ((turn.free x).mp mem).2.1
            rw [bindAll_other other, same x other]
          rw [free]
          exact ih next arity' after after' _ (turn.unchanged same kept)
            fun ok mem => checks ok (List.mem_append_right _ mem)
      | stops w1 =>
          simp only [Run.turns, ending] at step checks ⊢
          simp only [(step checks).of_stops]
          exact rfl
      | outOfFuel =>
          simp only [Run.turns, ending] at step checks ⊢
          simp only [(step checks).of_outOfFuel]
          trivial

theorem mem_captured {p : Program V W} {names : List String} {body : List (Expr V)} {env : Env V}
    {x : String} : x ∈ p.captured names body env ↔ x ∈ collectFreeAll body ∧ x ∉ names ∧
      (env x).isSome = true ∧ x ∉ p.functions := by
  simp only [Program.captured, List.mem_dedup, List.mem_filter, Bool.and_eq_true,
    decide_eq_true_eq, and_assoc]

theorem captured_congr {p : Program V W} {names : List String} {body : List (Expr V)}
    {env env' : Env V}
    (same : ∀ x ∈ collectFreeAll body, x ∉ names → (env x).isSome = (env' x).isSome) :
    p.captured names body env = p.captured names body env' := by
  unfold Program.captured
  congr 1
  apply List.filter_congr
  intro x mem
  by_cases named : x ∈ names
  · simp [named]
  · rw [same x mem named]

theorem Sim.loop {p : Program V W} {S : String → Prop} {depth : Nat} {frame : Frame}
    {names : List String} {body : List (Expr V)} {vs : List V} (arity : vs.length = names.length)
    (needed : ∀ x ∈ collectFreeAll body, x ∉ names → S x) (inside inside' : Frame → Run V W V)
    (sim : ∀ (S' : String → Prop) (inner : Frame), (∀ x ∈ collectFreeAll body, S' x) →
      (∀ x ∈ inner.free, S' x) → Sim S' (depth + 1) inner (inside inner) (inside' inner))
    (fuel : Nat) :
    Sim S depth frame
      (do Run.check fun env => p.unshadowed names body env
          fun env =>
            let inner : Frame := ⟨names, p.captured names body env⟩
            Run.among (Program.start .inPlace inner (depth + 1) vs) (Program.leave .inPlace inner)
              (Run.turns (Program.restart .inPlace inner (depth + 1)) (inside inner) fuel) env)
      (do Run.check fun env => p.unshadowed names body env
          fun env =>
            let inner : Frame := ⟨names, p.captured names body env⟩
            Run.among (Program.start .lifted inner (depth + 1) vs) (Program.leave .lifted inner)
              (Run.turns (Program.restart .lifted inner (depth + 1)) (inside' inner) fuel) env) := by
  apply Sim.check
  intro env env' w agree below held checks
  have captured : p.captured names body env = p.captured names body env' := by
    apply captured_congr
    intro x mem other
    have values := congrArg Option.isSome (agree x (needed x mem other))
    simpa only [Option.isSome_map] using values
  simp only [← captured]
  have turn : Turn p depth ⟨names, p.captured names body env⟩ body env
      fun x => x ∈ names ∨ x ∈ collectFreeAll body :=
    ⟨below, fun x => mem_captured, held, fun x => Iff.rfl⟩
  have given : ∀ x ∈ p.captured names body env, x ∈ names ∨ x ∈ collectFreeAll body :=
    fun x mem => .inr (mem_captured.mp mem).1
  have values : valuesOf env' (p.captured names body env) =
      valuesOf env (p.captured names body env) := by
    apply valuesOf_congr
    intro x mem
    have free := mem_captured.mp mem
    exact (agree x (needed x free.1 free.2.1)).symm
  have ends := turns_sim turn (sim _ _ (fun x mem => .inr mem) given) fuel vs arity env env' w
    (fun _ _ => rfl) checks
  simp only [Run.among, Program.start, values]
  -- in place nothing but the loop's own variables has changed, and these are put back
  have restored : ∀ after : Env V, (∀ x ∉ names, after x = env x) →
      Program.leave .inPlace ⟨names, p.captured names body env⟩ env after = env := by
    intro after unchanged
    funext x
    by_cases named : x ∈ names
    · exact if_pos named
    · exact (if_neg named).trans (unchanged x named)
  generalize Run.turns (Program.restart .inPlace ⟨names, p.captured names body env⟩ (depth + 1))
    (inside ⟨names, p.captured names body env⟩) fuel
    (Program.restart .inPlace ⟨names, p.captured names body env⟩ (depth + 1) vs env) w = ran
    at ends ⊢
  generalize Run.turns (Program.restart .lifted ⟨names, p.captured names body env⟩ (depth + 1))
    (inside' ⟨names, p.captured names body env⟩) fuel
    (Program.restart .lifted ⟨names, p.captured names body env⟩ (depth + 1)
      (vs ++ valuesOf env (p.captured names body env)) env') w = ran' at ends ⊢
  obtain ⟨log, ending⟩ := ran
  obtain ⟨log', ending'⟩ := ran'
  cases ending with
  | done v after w1 =>
      cases ending' with
      | done v' after' w1' =>
          obtain ⟨value, world, unchanged⟩ := ends
          simp only [restored after unchanged]
          exact ⟨value, world, agree, Kept.same⟩
      | recurs => exact ends.elim
      | stops => exact ends.elim
      | outOfFuel => exact ends.elim
  | recurs args after w1 => exact ends.elim
  | stops w1 =>
      cases ending' with
      | stops => exact ends
      | done => exact ends.elim
      | recurs => exact ends.elim
      | outOfFuel => exact ends.elim
  | outOfFuel =>
      cases ending' with
      | outOfFuel => trivial
      | done => exact ends.elim
      | recurs => exact ends.elim
      | stops => exact ends.elim

theorem collectFreeAll_mem {es : List (Expr V)} {e : Expr V} (mem : e ∈ es) {x : String}
    (free : x ∈ collectFree e) : x ∈ collectFreeAll es := by
  induction es with
  | nil => cases mem
  | cons first rest ih =>
      simp only [collectFreeAll, List.mem_append]
      cases mem with
      | head => exact .inl free
      | tail _ later => exact .inr (ih later)

/-- The forms of both runs, at every depth and with every set of variables that matter. -/
theorem run_sim (p : Program V W) (fuel : Nat) (S : String → Prop) (depth : Nat) (frame : Frame)
    (loop : Option Frame) (isLoop : ∀ inner, loop = some inner →
      inner = frame ∧ ∀ x ∈ inner.free, S x)
    (e : Expr V) (needed : ∀ x ∈ collectFree e, S x) :
    Sim S depth frame (p.run .inPlace fuel depth loop e) (p.run .lifted fuel depth loop e) := by
  induction fuel generalizing S depth frame loop e with
  | zero => exact Sim.spent
  | succ fuel ih =>
      have inner : ∀ (S : String → Prop) e, (∀ x ∈ collectFree e, S x) →
          Sim S depth frame (p.run .inPlace fuel depth none e)
            (p.run .lifted fuel depth none e) :=
        fun S e needed => ih S depth frame none (fun _ never => nomatch never) e needed
      have all : ∀ (S : String → Prop) es, (∀ x ∈ collectFreeAll es, S x) → ∀ e ∈ es,
          Sim S depth frame (p.run .inPlace fuel depth none e)
            (p.run .lifted fuel depth none e) :=
        fun S es needed e mem => inner S e fun x free => needed x (collectFreeAll_mem mem free)
      have sequence : ∀ (S : String → Prop) es, (∀ x ∈ collectFreeAll es, S x) →
          (∀ inner, loop = some inner → inner = frame ∧ ∀ x ∈ inner.free, S x) →
            Sim S depth frame
              (Run.forms p.nil (fun loop e => p.run .inPlace fuel depth loop e) loop es)
              (Run.forms p.nil (fun loop e => p.run .lifted fuel depth loop e) loop es) := by
        intro S es needed isLoop
        apply Sim.forms (all S es needed)
        intro e mem
        exact ih S depth frame loop isLoop e fun x free => needed x (collectFreeAll_mem mem free)
      cases e with
      | lit v => exact Sim.pure v
      | sym x => exact Sim.read p x (needed x (by simp [collectFree]))
      | op head args =>
          simp only [collectFree, List.mem_cons] at needed
          apply Sim.bind (Sim.each (all S args fun x mem => needed x (.inr mem)))
          intro vs
          exact Sim.call p head vs (needed head (.inl rfl))
      | if_ c t e =>
          simp only [collectFree, List.mem_append] at needed
          apply Sim.bind (inner S c fun x mem => needed x (.inl (.inl mem)))
          intro v
          by_cases taken : p.truthy v = true
          · simp only [taken, if_true]
            exact ih S depth frame loop isLoop t fun x mem => needed x (.inl (.inr mem))
          · simp only [taken]
            exact ih S depth frame loop isLoop e fun x mem => needed x (.inr mem)
      | begin_ es =>
          simp only [collectFree] at needed
          exact sequence S es needed isLoop
      | let_ names inits body =>
          simp only [collectFree, List.mem_append, List.mem_filter, decide_eq_true_eq] at needed
          apply Sim.bindings
          · intro S' wider
            exact all S' inits fun x mem => wider x (needed x (.inl mem))
          · intro S' wider named
            apply sequence S' body
            · intro x mem
              by_cases bound : x ∈ names
              · exact named x bound
              · exact wider x (needed x (.inr ⟨mem, bound⟩))
            · intro inner isInner
              exact ⟨(isLoop inner isInner).1,
                fun x mem => wider x ((isLoop inner isInner).2 x mem)⟩
      | set x e =>
          simp only [collectFree, List.mem_cons] at needed
          apply Sim.bind (inner S e fun y mem => needed y (.inr mem))
          intro v
          apply Sim.check
          intro env env' w agree below own _
          exact Sim.put x ⟨v, depth⟩ rfl agree own
      | while_ c body =>
          simp only [collectFree, List.mem_append] at needed
          apply Sim.bind (inner S c fun x mem => needed x (.inl mem))
          intro v
          by_cases again : p.truthy v = true
          · simp only [again, if_true]
            have each := all S body fun x mem => needed x (.inr mem)
            apply Sim.bind (Sim.forms each each)
            intro _
            apply inner S
            intro x mem
            simp only [collectFree, List.mem_append] at mem
            exact needed x mem
          · simp only [again]
            exact Sim.pure p.nil
      | loop names inits body =>
          simp only [collectFree, List.mem_append, List.mem_filter, decide_eq_true_eq] at needed
          apply Sim.bind (Sim.each (all S inits fun x mem => needed x (.inl mem)))
          intro vs
          by_cases arity : vs.length = names.length
          · simp only [arity, if_true]
            apply Sim.loop arity (fun x mem other => needed x (.inr ⟨mem, other⟩))
              (fun inner => Run.forms p.nil (fun loop e => p.run .inPlace fuel (depth + 1) loop e)
                (some inner) body)
              (fun inner => Run.forms p.nil (fun loop e => p.run .lifted fuel (depth + 1) loop e)
                (some inner) body) _ fuel
            intro S' turn needed' given
            apply Sim.forms
            · intro e mem
              exact ih S' (depth + 1) turn none (fun _ never => nomatch never) e
                fun x free => needed' x (collectFreeAll_mem mem free)
            · intro e mem
              apply ih S' (depth + 1) turn (some turn) _ e
                fun x free => needed' x (collectFreeAll_mem mem free)
              intro inner isInner
              cases isInner
              exact ⟨rfl, given⟩
          · simp only [arity, if_false]
            exact Sim.stop
      | recur args =>
          simp only [collectFree] at needed
          cases loop with
          | none => exact Sim.stop
          | some around =>
              obtain ⟨same, given⟩ := isLoop around rfl
              subst same
              apply Sim.bind (Sim.each (all S args needed))
              intro vs
              by_cases arity : vs.length = around.names.length
              · simp only [arity, if_true]
                exact Sim.recur vs arity given
              · simp only [arity, if_false]
                exact Sim.stop

theorem emitLifted_eq_iff (t : Tables) (params eligible : List String)
    (emitBody : Tables → Tables) :
    t.emitLifted params eligible emitBody = t ↔ t.LeftAs params eligible emitBody := by
  obtain ⟨locals, numericLocals, limbSlots, limbEligible, memoizeNext⟩ := t
  simp only [Tables.emitLifted, Tables.emitDefine, Tables.LeftAs, Tables.mk.injEq, true_and,
    Bool.false_eq]

end

/-! ### Two functions -/

/-- Sums and comparisons of integers. -/
def integers : Program Int Unit where
  truthy := (· != 0)
  nil := 0
  functions := []
  global := fun _ => none
  apply := fun head _ args w =>
    match head, args with
    | "+", [a, b] => (some (a + b), w)
    | "<", [a, b] => (some (if a < b then 1 else 0), w)
    | _, _ => (none, w)

/-- `(define (f n) (loop ((i 0) (s 0)) (if (< i n) (recur (+ i 1) (+ s i)) s)))` -/
def carried : Expr Int :=
  .loop ["i", "s"] [.lit 0, .lit 0]
    [.if_ (.op "<" [.sym "i", .sym "n"])
      (.recur [.op "+" [.sym "i", .lit 1], .op "+" [.sym "s", .sym "i"]]) (.sym "s")]

/-- `(define (f n) (let ((s 0)) (loop ((i 0)) (if (< i n) (begin (set! s (+ s i)) (recur (+ i 1)))
s)) s))` -/
def assigned : Expr Int :=
  .let_ ["s"] [.lit 0]
    [.loop ["i"] [.lit 0]
      [.if_ (.op "<" [.sym "i", .sym "n"])
        (.begin_ [.set "s" (.op "+" [.sym "s", .sym "i"]), .recur [.op "+" [.sym "i", .lit 1]]])
        (.sym "s")],
      .sym "s"]

/-- A `let` around `recur` that hides a captured variable changes it for the turns after. -/
example :
    let hidden : Expr Int := .loop ["i"] [.lit 0]
      [.if_ (.op "<" [.sym "i", .lit 1])
        (.let_ ["n"] [.lit 100] [.recur [.op "+" [.sym "i", .lit 1]]]) (.sym "n")]
    (integers.runBody .inPlace 9 ["n"] [3] hidden ()).ending.value = some 3 ∧
      (integers.runBody .lifted 9 ["n"] [3] hidden ()).ending.value = some 100 := by
  decide

end LispRlm.WasmEmit.Lifting
