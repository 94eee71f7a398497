import LispRlm.WasmEmit.PlainEvaluation
import Mathlib

/-! One turn of the loop that `tc_body` emits is one plain evaluation of the body, up to the next
call in tail position. -/

namespace LispRlm.WasmEmit

open Foundation Instruction

namespace FnDef

variable (f : FnDef)

/-! ### The functions that the loop computes -/

/-- The names of locals that the lowering uses itself. -/
def reserved (n : String) : Bool :=
  n == "__truthy_tmp" || (List.range f.params.length).any fun i => tcArgName i == n

/-- Initial values do not mention the name that they are bound to, unless it is a local already. -/
def bindingsFit (scope : List String) : List LispVal → Bool
  | [] => true
  | .list [.sym n, init] :: rest =>
      (decide (n ∈ scope) || (f.paramIdx n).isSome || !mentions n init) && !f.reserved n &&
        bindingsFit (n :: scope) rest
  | _ :: rest => bindingsFit scope rest

/-- An `if` with an alternative and not two calls of the function. -/
def exitsIf : List LispVal → Bool
  | [_, t, e] => !(f.isSelf t && f.isSelf e)
  | _ => false

mutual

/-- The last tail form is a form with a way out: `tc` leaves a branch behind every path. -/
def exits (scope : List String) : LispVal → Bool
  | .list items => exitsList scope items
  | _ => false

def exitsList (scope : List String) : List LispVal → Bool
  | .sym op :: a =>
      if op = "if" then f.exitsIf a
      else if op = "begin" ∨ op = "progn" then !a.isEmpty
      else if op = "let" then exitsLet scope a
      else decide (op ≠ "loop")
  | _ => false

def exitsLet (scope : List String) : List LispVal → Bool
  | [] => false
  | .list bs :: forms => f.bindingsFit scope bs && exitsForms (f.tcBindings scope bs).2 forms
  | _ :: forms => exitsForms scope forms

def exitsForms (scope : List String) : List LispVal → Bool
  | [] => false
  | [x] => exits scope x
  | _ :: rest => exitsForms scope rest

end

def keywords : List String := ["if", "begin", "progn", "let", "loop"]

def lowers : Bool :=
  decide (f.name ∉ keywords) && f.params.all (fun n => !f.reserved n) && f.exits [] f.body

/-! ### Locals -/

/-- No name in scope is one of the lowering's own. -/
def Clean (scope : List String) : Prop :=
  (∀ n ∈ f.params, f.reserved n = false) ∧ ∀ n ∈ scope, f.reserved n = false

variable {f} {scope : List String} {s : Locals}

theorem mem_params_of_idx {n : String} {i : Nat} (found : f.paramIdx n = some i) :
    f.params[i]? = some n := by
  obtain ⟨before, after, split, _⟩ := List.lookup_eq_some_iff.mp found
  have mem : (n, i) ∈ f.params.zipIdx := by
    rw [← List.mem_reverse, split]
    exact List.mem_append_right before List.mem_cons_self
  exact List.mk_mem_zipIdx_iff_getElem?.mp mem

theorem local_injective {n n' : String} (same : f.local_ n = f.local_ n') : n = n' := by
  unfold local_ at same
  split at same
  · rename_i i found
    split at same
    · rename_i j found'
      obtain rfl : i = j := by simpa using same
      have := mem_params_of_idx found
      rw [mem_params_of_idx found'] at this
      exact (Option.some.inj this).symm
    · cases same
  · split at same
    · cases same
    · simpa using same

theorem reserved_tcArg {i : Nat} (below : i < f.params.length) :
    f.reserved (tcArgName i) = true := by
  unfold reserved
  rw [Bool.or_eq_true]
  right
  exact List.any_eq_true.mpr ⟨i, List.mem_range.mpr below, beq_self_eq_true _⟩

theorem local_of_reserved (clean : f.Clean scope) {n : String} (own : f.reserved n = true) :
    f.local_ n = .named n := by
  unfold local_
  split
  · rename_i i found
    have mem : n ∈ f.params := List.mem_of_getElem? (mem_params_of_idx found)
    have := clean.1 n mem
    rw [own] at this
    cases this
  · rfl

theorem tcArg_eq (clean : f.Clean scope) {i : Nat} (below : i < f.params.length) :
    f.tcArg i = .named (tcArgName i) := local_of_reserved clean (reserved_tcArg below)

theorem tcArgName_injective {i j : Nat} (same : tcArgName i = tcArgName j) : i = j :=
  Nat.repr_injective ((String.append_right_inj _).mp same)

/-- The lowering's own locals hold no variable. -/
theorem envOf_set_reserved (clean : f.Clean scope) {n : String} (own : f.reserved n = true)
    (w : I64) : f.envOf scope (s.set (.named n) w) = f.envOf scope s := by
  funext n'
  unfold envOf
  split
  · simp [Store.set_locals]
  · split
    · rename_i inScope
      have other : n' ≠ n := by
        rintro rfl
        have := clean.2 n' inScope
        rw [own] at this
        cases this
      simp [Store.set_locals, other]
    · rfl

theorem envOf_bind (n : String) (w : I64) :
    f.envOf (n :: scope) (s.set (f.local_ n) w) = (f.envOf scope s).bind n w := by
  funext n'
  unfold Env.bind
  by_cases same : n' = n
  · subst same
    unfold envOf local_
    cases found : f.paramIdx n' with
    | some i => simp [Store.set_locals]
    | none => simp [Store.set_locals]
  · have other : f.local_ n' ≠ f.local_ n := fun h => same (local_injective h)
    rw [if_neg same]
    unfold envOf
    cases found : f.paramIdx n' with
    | some i =>
        have isLocal : f.local_ n' = .param i := by rw [local_, found]
        rw [isLocal] at other
        simp [Store.set_locals, other]
    | none =>
        have isLocal : f.local_ n' = .named n' := by rw [local_, found]
        rw [isLocal] at other
        simp [Store.set_locals, other, same]

/-! ### Running the parts -/

def stopped : Stop → Outcome LocalVar I64 LinearMemory
  | .trap => .trap
  | .outOfFuel => .outOfFuel

variable {plain : Expressions} {call : Caller} {fuel : Nat} {stack : List I64} {ρ : Env}

/-- Code of a place, run beside the function's own calls. -/
abbrev execute (f : FnDef) (plain : Expressions) (call : Caller) (fuel : Nat)
    (code : Instructions Place) (c : Config LocalVar I64 LinearMemory) :
    Outcome LocalVar I64 LinearMemory :=
  run wasmOnly (f.operand plain call) fuel (.ofList code) c

theorem execute_place (e : LispVal) (rest : Instructions Place) :
    f.execute plain call fuel (expr ⟨scope, e⟩ ++ rest) ⟨stack, s⟩ =
      match f.eval plain call (f.envOf scope s) e s.memory with
      | .ok (w, m) => f.execute plain call fuel rest ⟨w :: stack, { s with memory := m }⟩
      | .error r => stopped r := by
  show run wasmOnly (f.operand plain call) fuel (.seq (.hole ⟨scope, e⟩) (.ofList rest)) _ = _
  rw [run, run, operand]
  cases f.eval plain call (f.envOf scope s) e s.memory with
  | ok reached => rfl
  | error r =>
      cases r with
      | trap => rfl
      | outOfFuel => rfl

theorem execute_condBranch (w : I64) (rest : Instructions Place) :
    f.execute plain call fuel (emitCondBranch ++ rest) ⟨w :: stack, s⟩ =
      f.execute plain call fuel rest
        ⟨Op.ofBool (truthy w) :: stack, s.set (localIdx "__truthy_tmp") w⟩ := by
  have tested : ∀ b : Bool, (Op.ofBool b == 0) = !b := by decide
  have kept : ∀ b : Bool, ((Op.ofBool b).setWidth 32).setWidth 64 = Op.ofBool b := by decide
  have held : (s.set (localIdx "__truthy_tmp") w).locals (localIdx "__truthy_tmp") = w := by
    simp [Store.set_locals]
  have nil : RelOp.eq.eval w tagNil = (w == 4) := rfl
  have bool : RelOp.eq.eval w 1 = (w == 1) := rfl
  have zero : RelOp.eq.eval w 0 = (w == 0) := rfl
  simp only [execute, emitCondBranch, emitIsTruthy, List.cons_append, List.nil_append,
    run_localSet, run_localGet, held, run_i64Const, run_i64Rel, nil, bool, zero, run_i32Or,
    run_i32Eqz, run_i64ExtendI32U, run_i32WrapI64, tested, kept]
  rfl

/-- The arguments, one after the other, into the temporaries from `k` on. -/
theorem execute_args (plain : Expressions) (call : Caller) (fuel : Nat) (clean : f.Clean scope)
    (a : List LispVal) (k : Nat)
    (fits : k + a.length ≤ f.params.length) (s : Locals) (known : f.envOf scope s = ρ)
    (rest : Instructions Place) :
    match f.evalArgs plain call ρ a s.memory with
    | .ok (args, m) => args.length = a.length ∧ ∃ t : Locals, t.memory = m ∧
        (∀ j < k, t.locals (f.tcArg j) = s.locals (f.tcArg j)) ∧
        (∀ j < a.length, t.locals (f.tcArg (k + j)) = args.getD j 0) ∧
        f.execute plain call fuel ((a.zipIdx k).flatMap (fun (x, i) =>
          expr ⟨scope, x⟩ ++ [localSet (f.tcArg i)]) ++ rest) ⟨[], s⟩ =
          f.execute plain call fuel rest ⟨[], t⟩
    | .error r => f.execute plain call fuel ((a.zipIdx k).flatMap (fun (x, i) =>
          expr ⟨scope, x⟩ ++ [localSet (f.tcArg i)]) ++ rest) ⟨[], s⟩ = stopped r := by
  induction a generalizing k s with
  | nil => exact ⟨rfl, s, rfl, fun _ _ => rfl, fun j below => by simp at below, rfl⟩
  | cons x a ih =>
      rw [List.length_cons] at fits
      have split : f.execute plain call fuel (((x :: a).zipIdx k).flatMap (fun (x, i) =>
          expr ⟨scope, x⟩ ++ [localSet (f.tcArg i)]) ++ rest) ⟨[], s⟩ =
          match f.eval plain call ρ x s.memory with
          | .ok (w, m) => f.execute plain call fuel ((a.zipIdx (k + 1)).flatMap (fun (x, i) =>
              expr ⟨scope, x⟩ ++ [localSet (f.tcArg i)]) ++ rest)
              ⟨[], Store.set { s with memory := m } (f.tcArg k) w⟩
          | .error r => stopped r := by
        rw [List.zipIdx_cons, List.flatMap_cons, List.append_assoc, List.append_assoc,
          execute_place, known]
        rfl
      rw [split, evalArgs, ← eval]
      cases f.eval plain call ρ x s.memory with
      | error r => rfl
      | ok reached =>
          obtain ⟨w, m⟩ := reached
          dsimp only
          have own : f.tcArg k = .named (tcArgName k) := tcArg_eq clean (by omega)
          have still : f.envOf scope (Store.set { s with memory := m } (f.tcArg k) w) = ρ := by
            rw [own, envOf_set_reserved clean (reserved_tcArg (by omega))]
            exact known
          have later := ih (k + 1) (by omega) _ still
          rw [show (Store.set { s with memory := m } (f.tcArg k) w).memory = m from rfl] at later
          revert later
          cases f.evalArgs plain call ρ a m with
          | error r => exact id
          | ok reached =>
              obtain ⟨args, m'⟩ := reached
              rintro ⟨length, t, memory, before, behind, ran⟩
              have here : t.locals (f.tcArg k) = w := by
                rw [before k (by omega)]
                simp [Store.set_locals]
              refine ⟨by rw [List.length_cons, List.length_cons, length], t, memory, ?_, ?_, ran⟩
              · intro j below
                have other : f.tcArg j ≠ f.tcArg k := by
                  rw [own, tcArg_eq clean (by omega)]
                  intro same
                  have := tcArgName_injective (LocalVar.named.inj same)
                  omega
                rw [before j (by omega), Store.set_locals, if_neg other]
              · intro j below
                cases j with
                | zero => exact here
                | succ j =>
                    rw [List.length_cons] at below
                    rw [List.getD_cons_succ, show k + (j + 1) = k + 1 + j by omega]
                    exact behind j (by omega)

/-- The temporaries, one after the other, into the parameters. -/
theorem execute_copies (plain : Expressions) (call : Caller) (fuel : Nat)
    (clean : f.Clean scope) (is : List Nat)
    (fits : ∀ i ∈ is, i < f.params.length) (s : Locals) (rest : Instructions Place) :
    ∃ t : Locals, t.memory = s.memory ∧
      (∀ i < f.params.length, t.locals (f.tcArg i) = s.locals (f.tcArg i)) ∧
      (∀ i, t.locals (.param i) =
        if i ∈ is then s.locals (f.tcArg i) else s.locals (.param i)) ∧
      f.execute plain call fuel (is.flatMap (fun i => [localGet (f.tcArg i), localSet (.param i)]) ++
        rest) ⟨[], s⟩ = f.execute plain call fuel rest ⟨[], t⟩ := by
  induction is generalizing s with
  | nil => exact ⟨s, rfl, fun _ _ => rfl, fun i => by simp, rfl⟩
  | cons k is ih =>
      have inside := fits k List.mem_cons_self
      have temps : ∀ i < f.params.length,
          (s.set (.param k) (s.locals (f.tcArg k))).locals (f.tcArg i) =
            s.locals (f.tcArg i) := by
        intro i below
        rw [tcArg_eq clean below]
        simp [Store.set_locals]
      obtain ⟨t, memory, kept, params, ran⟩ :=
        ih (fun i mem => fits i (List.mem_cons_of_mem k mem))
          (s.set (.param k) (s.locals (f.tcArg k)))
      refine ⟨t, memory, ?_, ?_, ?_⟩
      · intro i below
        rw [kept i below, temps i below]
      · intro i
        rw [params i]
        by_cases later : i ∈ is
        · rw [if_pos later, if_pos (List.mem_cons_of_mem k later),
            temps i (fits i (List.mem_cons_of_mem k later))]
        · rw [if_neg later]
          by_cases same : i = k
          · subst same
            simp [Store.set_locals]
          · have outside : i ∉ k :: is := by simp [same, later]
            rw [if_neg outside]
            simp [Store.set_locals, same]
      · rw [List.flatMap_cons, List.append_assoc]
        exact ran

/-- What a run from inside the loop and the plain evaluation of a tail form have in common. -/
inductive Taken (f : FnDef) (call : Caller) : Outcome LocalVar I64 LinearMemory → Turn → Prop
  | leaves {t : Turn} {w : I64} {s : Locals} (answered : t.finish call = .ok (w, s.memory)) :
      Taken f call (.branch 1 ⟨[w], s⟩) t
  | stops {t : Turn} {r : Stop} (ended : t.finish call = .error r) : Taken f call (stopped r) t
  | again {args : List I64} {s : Locals} (length : args.length = f.params.length)
      (set : ∀ i < args.length, s.locals (.param i) = args.getD i 0) :
      Taken f call (.branch 0 ⟨[], s⟩) (.again args s.memory)

theorem execute_setParams (clean : f.Clean scope) {a : List LispVal}
    (arity : a.length = f.params.length) (known : f.envOf scope s = ρ) :
    Taken f call (f.execute plain call fuel (f.setParams scope a ++ [br 0]) ⟨[], s⟩)
      (match f.evalArgs plain call ρ a s.memory with
        | .ok (args, m) => .again args m
        | .error r => .done (.error r)) := by
  have args := execute_args plain call fuel clean a 0
    (by omega) s known
    (((List.range a.length).flatMap fun i => [localGet (f.tcArg i), localSet (.param i)]) ++
      [br 0])
  rw [setParams, List.append_assoc]
  revert args
  cases f.evalArgs plain call ρ a s.memory with
  | error r =>
      intro ran
      dsimp only at ran
      rw [ran]
      exact .stops rfl
  | ok reached =>
      obtain ⟨args, m⟩ := reached
      rintro ⟨length, t, memory, _, temps, ran⟩
      obtain ⟨t', memory', _, params, copied⟩ :=
        execute_copies plain call fuel clean (List.range a.length)
          (fun i mem => arity ▸ List.mem_range.mp mem) t [br 0]
      rw [ran, copied]
      have all : ∀ i < args.length, t'.locals (.param i) = args.getD i 0 := by
        intro i below
        rw [params i, if_pos (List.mem_range.mpr (length ▸ below))]
        have := temps i (length ▸ below)
        rwa [Nat.zero_add] at this
      obtain rfl : m = t'.memory := by rw [memory', memory]
      exact .again (length.trans arity) all

theorem execute_begin {forms : List LispVal} (some_ : forms ≠ []) (s : Locals)
    (known : f.envOf scope s = ρ) (rest : Instructions Place) :
    f.execute plain call fuel (tcBegin scope forms ++ rest) ⟨[], s⟩ =
      match (f.turnForms plain call ρ forms s.memory).finish call with
      | .ok (w, m) => f.execute plain call fuel rest ⟨[w], { s with memory := m }⟩
      | .error r => stopped r := by
  induction forms generalizing s with
  | nil => exact (some_ rfl).elim
  | cons x forms ih =>
      cases forms with
      | nil =>
          rw [tcBegin, execute_place, known]
          rfl
      | cons y forms =>
          rw [tcBegin, turnForms, List.append_assoc, List.append_assoc, execute_place, known,
            ← eval]
          · cases f.eval plain call ρ x s.memory with
            | error r => rfl
            | ok reached =>
                obtain ⟨w, m⟩ := reached
                exact ih (by simp) { s with memory := m } known
          · simp
          · simp

/-- Code of a place and a branch out of the loop. -/
theorem execute_exit (known : f.envOf scope s = ρ) {t : Turn} (e : LispVal)
    (same : t.finish call = f.eval plain call ρ e s.memory) :
    Taken f call (f.execute plain call fuel (expr ⟨scope, e⟩ ++ [br 1]) ⟨[], s⟩) t := by
  rw [execute_place, known]
  revert same
  cases f.eval plain call ρ e s.memory with
  | error r => exact .stops
  | ok reached =>
      obtain ⟨w, m⟩ := reached
      intro same
      exact .leaves (s := { s with memory := m }) same

/-- The same from inside an `if`, that is, one label further in. -/
theorem execute_exit_if (known : f.envOf scope s = ρ) {t : Turn} (e : LispVal)
    (same : t.finish call = f.eval plain call ρ e s.memory) :
    Taken f call
      ((f.execute plain call fuel (expr ⟨scope, e⟩ ++ [br 2]) ⟨[], s⟩).leave 0 []) t := by
  rw [execute_place, known]
  revert same
  cases f.eval plain call ρ e s.memory with
  | error r =>
      intro same
      have := Taken.stops (f := f) same
      cases r with
      | trap => exact this
      | outOfFuel => exact this
  | ok reached =>
      obtain ⟨w, m⟩ := reached
      intro same
      exact .leaves (s := { s with memory := m }) same

theorem turn_isSelf (plain : Expressions) (call : Caller) (plainName : f.name ∉ keywords)
    {e : LispVal} (self : f.isSelf e = true)
    (m : LinearMemory) : ∃ a : List LispVal, a.length = f.params.length ∧
      (∀ scope, f.selfSets scope e = f.setParams scope a) ∧
      f.turn plain call ρ e m =
        match f.evalArgs plain call ρ a m with
        | .ok (args, m) => .again args m
        | .error r => .done (.error r) := by
  unfold isSelf at self
  split at self
  · rename_i op a
    simp only [Bool.and_eq_true, beq_iff_eq] at self
    obtain ⟨⟨_, name⟩, arity⟩ := self
    subst name
    simp only [keywords, List.mem_cons, List.not_mem_nil, or_false, not_or] at plainName
    obtain ⟨notIf, notBegin, notProgn, notLet, notLoop⟩ := plainName
    refine ⟨a, arity, ?_, ?_⟩
    · intro scope
      rw [selfSets, List.tail_cons, List.take_of_length_le (by omega)]
    · cases evaluated : f.evalArgs plain call ρ a m <;>
        simp [turn, turnList, notIf, notBegin, notProgn, notLet, arity, evaluated]
  · cases self

theorem Taken.ne_next {o : Outcome LocalVar I64 LinearMemory} {t : Turn}
    (taken : Taken f call o t) (c : Config LocalVar I64 LinearMemory) : o ≠ .next c := by
  rintro rfl
  generalize reached : Outcome.next c = o at taken
  cases taken with
  | leaves answered => cases reached
  | stops ended =>
      rename_i r
      cases r with
      | trap => cases reached
      | outOfFuel => cases reached
  | again length set => cases reached

/-- After a turn is over, the rest of the code does not run. -/
theorem execute_cut {i : Code LocalVar Op Place ValType} {c : Config LocalVar I64 LinearMemory}
    {t : Turn} (taken : Taken f call (run wasmOnly (f.operand plain call) fuel i c) t)
    (rest : Instructions Place) : Taken f call (f.execute plain call fuel (i :: rest) c) t := by
  rw [execute, Code.ofList, run_seq_stop _ _ rfl taken.ne_next]
  exact taken

theorem execute_ifElse {b : Bool} {yes no : Instructions Place} {t : Turn}
    (taken : Taken f call ((f.execute plain call fuel (if b then yes else no) ⟨[], s⟩).leave 0 [])
      t) : Taken f call (f.execute plain call fuel [ifElse yes no] ⟨[Op.ofBool b], s⟩) t := by
  apply execute_cut
  cases b with
  | true => exact taken
  | false => exact taken

theorem execute_if_then {yes rest : Instructions Place} {t : Turn}
    (taken : Taken f call ((f.execute plain call fuel yes ⟨[], s⟩).leave 0 []) t) :
    Taken f call (f.execute plain call fuel (if_ yes :: rest) ⟨[Op.ofBool true], s⟩) t :=
  execute_cut taken rest

theorem ofBool_eqz (b : Bool) : (Op.ofBool b == 0) = !b := by
  cases b with
  | true => rfl
  | false => rfl

theorem execute_if (clean : f.Clean scope) (plainName : f.name ∉ keywords) {a : List LispVal}
    (fine : f.exitsIf a = true) {code : Instructions Place} (emitted : f.tcIf scope a = some code)
    (s : Locals) (known : f.envOf scope s = ρ) :
    Taken f call (f.execute plain call fuel code ⟨[], s⟩)
      (f.turnIf plain call ρ a s.memory) := by
  match a, fine with
  | [c, t, e], fine =>
      simp only [tcIf, List.headD_cons, Option.some.injEq] at emitted
      subst emitted
      rw [turnIf, ← eval, List.append_assoc, execute_place, known]
      cases f.eval plain call ρ c s.memory with
      | error r => exact .stops rfl
      | ok reached =>
          obtain ⟨w, m⟩ := reached
          dsimp only
          rw [execute_condBranch]
          have own : f.reserved "__truthy_tmp" = true := by simp [reserved]
          have still : f.envOf scope (Store.set { s with memory := m } (localIdx "__truthy_tmp") w)
              = ρ := by
            rw [localIdx, envOf_set_reserved clean own]
            exact known
          generalize entered : Store.set { s with memory := m } (localIdx "__truthy_tmp") w = s'
            at still
          have memory : m = s'.memory := by rw [← entered]; rfl
          subst memory
          cases selfT : f.isSelf t with
          | true =>
              have selfE : f.isSelf e = false := by simpa [exitsIf, selfT] using fine
              obtain ⟨args, arity, sets, turned⟩ :=
                turn_isSelf (ρ := ρ) plain call plainName selfT s'.memory
              simp only [selfE, sets, execute, List.cons_append, List.nil_append,
                run_i32Eqz, ofBool_eqz]
              cases truthy w with
              | true =>
                  rw [Bool.not_true, run_if_false, if_pos rfl, turned]
                  exact execute_setParams clean arity still
              | false => exact execute_if_then (execute_exit_if still e rfl)
          | false =>
              cases selfE : f.isSelf e with
              | true =>
                  obtain ⟨args, arity, sets, turned⟩ :=
                    turn_isSelf (ρ := ρ) plain call plainName selfE s'.memory
                  simp only [sets]
                  cases truthy w with
                  | true => exact execute_if_then (execute_exit_if still t rfl)
                  | false =>
                      rw [if_neg (by simp), turned]
                      exact execute_setParams clean arity still
              | false =>
                  apply execute_ifElse
                  cases truthy w with
                  | true => exact execute_exit_if still t rfl
                  | false => exact execute_exit_if still e rfl

/-! ### `let` -/

theorem tcBindings_skip {b : LispVal} {rest : List LispVal}
    (other : ∀ n init, b ≠ .list [.sym n, init]) :
    f.tcBindings scope (b :: rest) = f.tcBindings scope rest := by
  rw [tcBindings]
  exact other

theorem bindingsFit_skip {b : LispVal} {rest : List LispVal}
    (other : ∀ n init, b ≠ .list [.sym n, init]) :
    f.bindingsFit scope (b :: rest) = f.bindingsFit scope rest := by
  rw [bindingsFit]
  exact other

/-- Compiling an initial value with its name bound already makes no difference. -/
theorem eval_init {n : String} {init : LispVal}
    (fit : (decide (n ∈ scope) || (f.paramIdx n).isSome || !mentions n init) = true)
    (m : LinearMemory) :
    f.eval plain call (f.envOf (n :: scope) s) init m =
      f.eval plain call (f.envOf scope s) init m := by
  apply eval_congr
  intro n' mentioned
  unfold envOf
  cases found : f.paramIdx n' with
  | some i => rfl
  | none =>
      have same : n' ∈ n :: scope ↔ n' ∈ scope := by
        rw [List.mem_cons]
        refine ⟨?_, Or.inr⟩
        rintro (rfl | inScope)
        · simpa [found, mentioned] using fit
        · exact inScope
      simp only [same]

theorem execute_bindings (plain : Expressions) (call : Caller) (fuel : Nat) (bs : List LispVal)
    (clean : f.Clean scope) (fit : f.bindingsFit scope bs = true) (s : Locals)
    (known : f.envOf scope s = ρ) :
    match f.bindAll plain call ρ bs s.memory with
    | .ok (ρ', m) => f.Clean (f.tcBindings scope bs).2 ∧ ∃ t : Locals, t.memory = m ∧
        f.envOf (f.tcBindings scope bs).2 t = ρ' ∧ ∀ rest,
          f.execute plain call fuel ((f.tcBindings scope bs).1 ++ rest) ⟨[], s⟩ =
            f.execute plain call fuel rest ⟨[], t⟩
    | .error r => ∀ rest,
        f.execute plain call fuel ((f.tcBindings scope bs).1 ++ rest) ⟨[], s⟩ = stopped r := by
  induction bs generalizing scope s ρ with
  | nil => exact ⟨clean, s, rfl, known, fun _ => rfl⟩
  | cons b bs ih =>
      by_cases binding : ∃ n init, b = .list [.sym n, init]
      · obtain ⟨n, init, rfl⟩ := binding
        rw [bindingsFit, Bool.and_eq_true, Bool.and_eq_true, Bool.not_eq_true'] at fit
        obtain ⟨⟨apart, free⟩, fit⟩ := fit
        have clean' : f.Clean (n :: scope) := by
          refine ⟨clean.1, fun n' mem => ?_⟩
          rcases List.mem_cons.mp mem with rfl | mem
          · exact free
          · exact clean.2 n' mem
        have split : ∀ rest, f.execute plain call fuel
            ((f.tcBindings scope (.list [.sym n, init] :: bs)).1 ++ rest) ⟨[], s⟩ =
            match f.eval plain call ρ init s.memory with
            | .ok (w, m) => f.execute plain call fuel ((f.tcBindings (n :: scope) bs).1 ++ rest)
                ⟨[], Store.set { s with memory := m } (f.local_ n) w⟩
            | .error r => stopped r := by
          intro rest
          rw [tcBindings]
          dsimp only
          rw [List.append_assoc, List.append_assoc, execute_place, eval_init apart, known]
          rfl
        have last : (f.tcBindings scope (.list [.sym n, init] :: bs)).2 =
            (f.tcBindings (n :: scope) bs).2 := by rw [tcBindings]
        rw [bindAll, ← eval]
        simp only [split, last]
        cases f.eval plain call ρ init s.memory with
        | error r => exact fun _ => rfl
        | ok reached =>
            obtain ⟨w, m⟩ := reached
            have bound : f.envOf (n :: scope) (Store.set { s with memory := m } (f.local_ n) w) =
                ρ.bind n w := by
              rw [envOf_bind, ← known]
              rfl
            exact ih clean' fit _ bound
      · have other : ∀ n init, b ≠ .list [.sym n, init] :=
          fun n init same => binding ⟨n, init, same⟩
        rw [bindingsFit_skip other] at fit
        rw [bindAll_skip other, tcBindings_skip other]
        exact ih clean fit s known

/-! ### One turn -/

mutual

/-- The code of a tail form leaves the loop with the form's value, stops, or goes round again with
the arguments of the call in the parameters. -/
theorem execute_tc (plainName : f.name ∉ keywords) {ρ : Env} {scope : List String}
    (clean : f.Clean scope) (e : LispVal) (fine : f.exits scope e = true)
    {code : Instructions Place} (emitted : f.tc scope e = some code) (s : Locals)
    (known : f.envOf scope s = ρ) :
    Taken f call (f.execute plain call fuel code ⟨[], s⟩) (f.turn plain call ρ e s.memory) := by
  match e with
  | .list items =>
      rw [tc] at emitted
      rw [exits] at fine
      rw [turn]
      exact execute_tcList plainName clean items fine emitted s known
  | .nil | .bool _ | .num _ | .str _ | .sym _ => cases fine

theorem execute_tcList (plainName : f.name ∉ keywords) {ρ : Env} {scope : List String}
    (clean : f.Clean scope) (items : List LispVal) (fine : f.exitsList scope items = true)
    {code : Instructions Place} (emitted : f.tcList scope items = some code) (s : Locals)
    (known : f.envOf scope s = ρ) :
    Taken f call (f.execute plain call fuel code ⟨[], s⟩)
      (f.turnList plain call ρ items s.memory) := by
  match items with
  | .sym op :: a =>
      rw [tcList] at emitted
      rw [exitsList] at fine
      rw [turnList]
      split at emitted
      · rename_i is
        rw [if_pos is] at fine ⊢
        exact execute_if clean plainName fine emitted s known
      · rename_i notIf
        rw [if_neg notIf] at fine ⊢
        split at emitted
        · rename_i is
          rw [if_pos is] at fine ⊢
          cases emitted
          have some_ : a ≠ [] := by
            rintro rfl
            cases fine
          rw [execute_begin some_ s known]
          cases value : (f.turnForms plain call ρ a s.memory).finish call with
          | error r => exact .stops value
          | ok reached =>
              obtain ⟨w, m⟩ := reached
              exact .leaves (s := { s with memory := m }) value
        · rename_i notBegin
          rw [if_neg notBegin] at fine ⊢
          split at emitted
          · rename_i is
            rw [if_pos is] at fine ⊢
            exact execute_tcLet plainName clean a fine emitted s known
          · rename_i notLet
            rw [if_neg notLet] at fine ⊢
            split at emitted
            · rename_i is
              exact (of_decide_eq_true fine is).elim
            · split at emitted
              · rename_i self
                rw [if_pos self]
                cases emitted
                exact execute_setParams clean self.2 known
              · rename_i notSelf
                rw [if_neg notSelf]
                cases emitted
                apply execute_exit known
                rw [eval, turn, turnList, if_neg notIf, if_neg notBegin, if_neg notLet,
                  if_neg notSelf]
  | [] | .nil :: _ | .bool _ :: _ | .num _ :: _ | .str _ :: _ | .list _ :: _ => cases fine

theorem execute_tcLet (plainName : f.name ∉ keywords) {ρ : Env} {scope : List String}
    (clean : f.Clean scope) (a : List LispVal) (fine : f.exitsLet scope a = true)
    {code : Instructions Place} (emitted : f.tcLet scope a = some code) (s : Locals)
    (known : f.envOf scope s = ρ) :
    Taken f call (f.execute plain call fuel code ⟨[], s⟩)
      (f.turnLet plain call ρ a s.memory) := by
  match a with
  | [] => cases fine
  | .list bs :: forms =>
      rw [tcLet, Option.map_eq_some_iff] at emitted
      obtain ⟨inner, emitted, rfl⟩ := emitted
      rw [exitsLet, Bool.and_eq_true] at fine
      rw [turnLet]
      have bound := execute_bindings plain call fuel bs clean fine.1 s known
      revert bound
      cases f.bindAll plain call ρ bs s.memory with
      | error r =>
          intro ran
          dsimp only at ran
          rw [ran]
          exact .stops rfl
      | ok reached =>
          obtain ⟨ρ', m⟩ := reached
          rintro ⟨clean', t, rfl, known', ran⟩
          rw [ran]
          exact execute_tcForms plainName clean' forms fine.2 emitted t known'
  | .nil :: forms | .bool _ :: forms | .num _ :: forms | .str _ :: forms | .sym _ :: forms =>
      exact execute_tcForms plainName clean forms fine emitted s known

theorem execute_tcForms (plainName : f.name ∉ keywords) {ρ : Env} {scope : List String}
    (clean : f.Clean scope) (forms : List LispVal) (fine : f.exitsForms scope forms = true)
    {code : Instructions Place} (emitted : f.tcForms scope forms = some code) (s : Locals)
    (known : f.envOf scope s = ρ) :
    Taken f call (f.execute plain call fuel code ⟨[], s⟩)
      (f.turnForms plain call ρ forms s.memory) := by
  match forms with
  | [] => cases fine
  | [x] =>
      rw [tcForms] at emitted
      rw [exitsForms] at fine
      rw [turnForms]
      exact execute_tc plainName clean x fine emitted s known
  | x :: y :: rest =>
      rw [tcForms, Option.map_eq_some_iff] at emitted
      · obtain ⟨inner, emitted, rfl⟩ := emitted
        rw [turnForms, List.append_assoc, execute_place, known, ← eval]
        · cases f.eval plain call ρ x s.memory with
          | error r => exact .stops rfl
          | ok reached =>
              obtain ⟨w, m⟩ := reached
              exact execute_tcForms plainName clean (y :: rest) fine emitted
                { s with memory := m } known
        · simp
      · simp

end

end FnDef

end LispRlm.WasmEmit
