import LispRlm.WasmEmit.TailLoop

/-! The loop of `tc_body` validates and computes what plain recursion computes. -/

namespace LispRlm.WasmEmit

open Foundation Instruction

namespace FnDef

variable {f : FnDef} {scope : List String}

/-! ### Validation -/

/-- Inside the loop: a branch to it carries nothing, one out of the block the value. -/
def loopLabels : List (List ValType) := [[], [.i64]]

theorem local_i64 (n : String) : (f.local_ n).valType = .i64 := by
  unfold local_
  split
  · rfl
  · rfl

theorem check_place_set (labels : List (List ValType)) (p : Place) (n : String) :
    check wasmOnly labels (.ofList (expr p ++ [localSet (f.local_ n)])) .empty =
      some .empty := by
  have typed : wasmOnly.local_ (f.local_ n) = .i64 := local_i64 n
  simp only [expr, List.cons_append, List.nil_append, Code.ofList, localSet, check, typed]
  rfl

theorem check_setParams (labels : List (List ValType)) (a : List LispVal) :
    check wasmOnly ([] :: labels) (.ofList (f.setParams scope a ++ [br 0])) .empty =
      some ⟨[], true⟩ := by
  let each : LispVal × Nat → Instructions Place :=
    fun arg => expr ⟨scope, arg.1⟩ ++ [localSet (f.tcArg arg.2)]
  have args : ∀ x, check wasmOnly ([] :: labels) (.ofList (each x)) .empty = some .empty :=
    fun x => check_place_set _ _ _
  have copies : ∀ i : Nat, check wasmOnly ([] :: labels)
      (.ofList [localGet (f.tcArg i), localSet (.param i)] : Code LocalVar Op Place ValType) .empty =
        some .empty := by
    intro i
    have typed : wasmOnly.local_ (f.tcArg i) = .i64 := local_i64 _
    simp only [Code.ofList, localGet, localSet, check, typed]
    rfl
  rw [setParams, List.append_assoc, check_append, check_flatMap _ args, Option.bind_some,
    check_append, check_flatMap _ copies]
  rfl


theorem check_exit (labels : List (List ValType)) (p : Place) (depth : Nat)
    (target : labels[depth]? = some [.i64]) :
    check wasmOnly labels (.ofList (expr p ++ [br depth])) .empty = some ⟨[], true⟩ := by
  simp only [expr, List.cons_append, List.nil_append, Code.ofList, br, check, target]
  rfl

theorem check_condBranch (labels : List (List ValType)) (p : Place) :
    check wasmOnly labels (.ofList (expr p ++ emitCondBranch)) .empty =
      some ⟨[.i32], false⟩ := rfl

/-- An `if` whose arms leave. -/
theorem check_ifElse (labels : List (List ValType)) {yes no : Instructions Place}
    (first : check wasmOnly ([] :: labels) (.ofList yes) .empty = some ⟨[], true⟩)
    (second : check wasmOnly ([] :: labels) (.ofList no) .empty = some ⟨[], true⟩) :
    check wasmOnly labels (ifElse yes no) ⟨[.i32], false⟩ = some .empty := by
  rw [ifElse, check, first, second]
  rfl

theorem check_begin (labels : List (List ValType)) {forms : List LispVal} (some_ : forms ≠ []) :
    check wasmOnly labels (.ofList (tcBegin scope forms)) .empty = some ⟨[.i64], false⟩ := by
  fun_induction tcBegin scope forms with
  | case1 => exact (some_ rfl).elim
  | case2 x => rfl
  | case3 x rest more ih =>
      rw [check_append]
      exact ih (fun none => by simp [none] at more)

theorem selfSets_isSelf (scope : List String) {e : LispVal} (self : f.isSelf e = true) :
    ∃ a, f.selfSets scope e = f.setParams scope a := by
  unfold isSelf at self
  split at self
  · exact ⟨_, rfl⟩
  · cases self

theorem check_if (a : List LispVal) (fine : f.exitsIf a = true) :
    ∃ code, f.tcIf scope a = some code ∧
      ∃ after, check wasmOnly loopLabels (.ofList code) .empty = some after ∧
        after.endsWith [] = true := by
  match a, fine with
  | [c, t, e], fine =>
      simp only [tcIf, List.headD_cons, Option.some.injEq, exists_eq_left']
      rw [check_append, check_condBranch, Option.bind_some]
      have out : ∀ x, check wasmOnly ([] :: loopLabels)
          (.ofList (expr (⟨scope, x⟩ : Place) ++ [br 2])) .empty = some ⟨[], true⟩ :=
        fun x => check_exit _ _ _ rfl
      cases selfT : f.isSelf t with
      | true =>
          have selfE : f.isSelf e = false := by simpa [exitsIf, selfT] using fine
          obtain ⟨args, sets⟩ := selfSets_isSelf scope selfT
          have start : check wasmOnly loopLabels
              (.ofList [i32Eqz, if_ (expr (⟨scope, e⟩ : Place) ++ [br 2])]) ⟨[.i32], false⟩ =
                some .empty := by
            simp only [Code.ofList, check, if_, out]
            rfl
          simp only [selfE, sets]
          rw [List.append_assoc, check_append, start]
          exact ⟨_, check_setParams _ _, rfl⟩
      | false =>
          cases selfE : f.isSelf e with
          | true =>
              obtain ⟨args, sets⟩ := selfSets_isSelf scope selfE
              have start : check wasmOnly loopLabels
                  (.ofList [if_ (expr (⟨scope, t⟩ : Place) ++ [br 2])]) ⟨[.i32], false⟩ =
                    some .empty := by
                simp only [Code.ofList, check, if_, out]
                rfl
              simp only [sets]
              rw [List.append_assoc, check_append, start]
              exact ⟨_, check_setParams _ _, rfl⟩
          | false =>
              refine ⟨.empty, ?_, rfl⟩
              have := check_ifElse loopLabels (out t) (out e)
              rw [Code.ofList, check, this]
              rfl


theorem check_bindings (labels : List (List ValType)) (bs : List LispVal) :
    check wasmOnly labels (.ofList (f.tcBindings scope bs).1) .empty = some .empty := by
  induction bs generalizing scope with
  | nil => rfl
  | cons b bs ih =>
      by_cases binding : ∃ n init, b = .list [.sym n, init]
      · obtain ⟨n, init, rfl⟩ := binding
        rw [tcBindings]
        dsimp only
        rw [check_append, check_place_set]
        exact ih
      · rw [tcBindings_skip fun n init same => binding ⟨n, init, same⟩]
        exact ih

/-- The code validates as the body of the loop. -/
def Valid (code : Option (Instructions Place)) : Prop :=
  ∃ inner, code = some inner ∧ ∃ after,
    check wasmOnly loopLabels (.ofList inner) .empty = some after ∧ after.endsWith [] = true

mutual

theorem valid_tc (scope : List String) (e : LispVal) (fine : f.exits scope e = true) :
    Valid (f.tc scope e) := by
  match e with
  | .list items =>
      rw [exits] at fine
      rw [tc]
      exact valid_tcList scope items fine
  | .nil | .bool _ | .num _ | .str _ | .sym _ => cases fine

theorem valid_tcList (scope : List String) (items : List LispVal)
    (fine : f.exitsList scope items = true) : Valid (f.tcList scope items) := by
  match items with
  | .sym op :: a =>
      rw [exitsList] at fine
      rw [tcList]
      split
      · rename_i is
        rw [if_pos is] at fine
        exact check_if a fine
      · rename_i notIf
        rw [if_neg notIf] at fine
        split
        · rename_i is
          rw [if_pos is] at fine
          have some_ : a ≠ [] := by
            rintro rfl
            cases fine
          refine ⟨_, rfl, ?_⟩
          rw [check_append, check_begin _ some_]
          exact ⟨_, rfl, rfl⟩
        · rename_i notBegin
          rw [if_neg notBegin] at fine
          split
          · rename_i is
            rw [if_pos is] at fine
            exact valid_tcLet scope a fine
          · rename_i notLet
            rw [if_neg notLet] at fine
            split
            · rename_i is
              exact (of_decide_eq_true fine is).elim
            · split
              · exact ⟨_, rfl, _, check_setParams _ _, rfl⟩
              · exact ⟨_, rfl, _, check_exit _ _ _ rfl, rfl⟩
  | [] | .nil :: _ | .bool _ :: _ | .num _ :: _ | .str _ :: _ | .list _ :: _ => cases fine

theorem valid_tcLet (scope : List String) (a : List LispVal)
    (fine : f.exitsLet scope a = true) : Valid (f.tcLet scope a) := by
  match a with
  | [] => cases fine
  | .list bs :: forms =>
      rw [exitsLet, Bool.and_eq_true] at fine
      obtain ⟨inner, emitted, checked⟩ := valid_tcForms _ forms fine.2
      rw [tcLet, emitted]
      refine ⟨_, rfl, ?_⟩
      rw [check_append, check_bindings]
      exact checked
  | .nil :: forms | .bool _ :: forms | .num _ :: forms | .str _ :: forms | .sym _ :: forms =>
      exact valid_tcForms scope forms fine

theorem valid_tcForms (scope : List String) (forms : List LispVal)
    (fine : f.exitsForms scope forms = true) : Valid (f.tcForms scope forms) := by
  match forms with
  | [] => cases fine
  | [x] =>
      rw [exitsForms] at fine
      rw [tcForms]
      exact valid_tc scope x fine
  | x :: y :: rest =>
      obtain ⟨inner, emitted, checked⟩ := valid_tcForms scope (y :: rest) fine
      rw [tcForms, emitted]
      · exact ⟨_, rfl, checked⟩
      · simp

end

theorem tcBody_validates (fine : f.exits [] f.body = true) :
    ∃ inner, f.tc [] f.body = some inner ∧
      f.tcBody = some (blockI64 [loop inner, unreachable]) ∧
      validates wasmOnly [] (blockI64 [loop inner, unreachable]) [.i64] = true := by
  obtain ⟨inner, emitted, after, checked, ends⟩ := valid_tc [] f.body fine
  refine ⟨inner, emitted, by rw [tcBody, emitted]; rfl, ?_⟩
  have looped : check wasmOnly [[.i64]] (loop inner) .empty = some .empty := by
    have inside : check wasmOnly ([] :: [[.i64]]) (.ofList inner) .empty = some after := checked
    rw [loop, check, inside]
    dsimp only
    rw [if_pos ends]
    rfl
  apply validates_of_check
  rw [blockI64, Code.ofList, check, check, looped]
  rfl

/-! ### All turns -/

variable {plain : Expressions}

theorem Extends.refl (call : Caller) : Extends call call := fun _ _ _ => rfl

/-- More depth, and no answer changes. -/
theorem selfCall_extends {depth depth' : Nat} (deeper : depth ≤ depth') :
    Extends (f.selfCall plain depth) (f.selfCall plain depth') := by
  induction depth generalizing depth' with
  | zero => exact fun _ _ answered => (answered rfl).elim
  | succ depth ih =>
      cases depth' with
      | zero => omega
      | succ depth' =>
          intro args m answered
          have more := ih (Nat.le_of_succ_le_succ deeper)
          exact Turn.finish_mono more (turn_mono more _ _ m) answered

theorem envOf_params {args : List I64} {s : Locals} (arity : args.length = f.params.length)
    (set : ∀ i < args.length, s.locals (.param i) = args.getD i 0) :
    f.envOf [] s = f.bindParams args := by
  funext n
  unfold envOf bindParams
  cases found : f.paramIdx n with
  | none => simp
  | some i =>
      obtain ⟨below, _⟩ := List.getElem?_eq_some_iff.mp (mem_params_of_idx found)
      have inside : i < args.length := by omega
      show some (s.locals (.param i)) = args[i]?
      rw [set i inside]
      simp [List.getElem?_eq_getElem inside]

/-- The loop is over, with this reply. -/
inductive Over : Outcome LocalVar I64 LinearMemory → Reply → Prop
  | value (w : I64) (s : Locals) : Over (.branch 1 ⟨[w], s⟩) (.ok (w, s.memory))
  | stop (r : Stop) : Over (stopped r) (.error r)

section Turns

variable {inner : Instructions Place} {fuel : Nat}
  (turns : ∀ (s : Locals) (ρ : Env), f.envOf [] s = ρ →
    Taken f (f.selfCall plain fuel)
      (f.execute plain (f.selfCall plain fuel) fuel inner ⟨[], s⟩)
      (f.turn plain (f.selfCall plain fuel) ρ f.body s.memory))

include turns

/-- What the loop replies, plain recursion replies, given the depth. -/
theorem loop_sound (k : Nat) {args : List I64} {s : Locals}
    (arity : args.length = f.params.length)
    (set : ∀ i < args.length, s.locals (.param i) = args.getD i 0) :
    ∃ r, Over (repeatLoop (fun s => f.execute plain (f.selfCall plain fuel) fuel inner ⟨[], s⟩) k s)
        r ∧
      (r ≠ .error .outOfFuel → f.selfCall plain (fuel + k) args s.memory = r) := by
  induction k generalizing args s with
  | zero => exact ⟨_, .stop .outOfFuel, fun answered => (answered rfl).elim⟩
  | succ k ih =>
      have once := turns s _ (envOf_params arity set)
      have more : Extends (f.selfCall plain fuel) (f.selfCall plain (fuel + k)) :=
        selfCall_extends (Nat.le_add_right fuel k)
      have same : (f.turn plain (f.selfCall plain fuel) (f.bindParams args) f.body s.memory).Known →
          f.turn plain (f.selfCall plain (fuel + k)) (f.bindParams args) f.body s.memory =
            f.turn plain (f.selfCall plain fuel) (f.bindParams args) f.body s.memory :=
        turn_mono more (f.bindParams args) f.body s.memory
      rw [repeatLoop]
      generalize f.turn plain (f.selfCall plain fuel) (f.bindParams args) f.body s.memory = t
        at once same
      generalize f.execute plain (f.selfCall plain fuel) fuel inner ⟨[], s⟩ = o at once
      cases once with
      | leaves answered =>
          rename_i w s'
          refine ⟨_, .value w s', fun known => ?_⟩
          rw [← answered]
          exact Turn.finish_mono more same (by rw [answered]; exact known)
      | stops ended =>
          rename_i r
          refine ⟨.error r, ?_, fun known => ?_⟩
          · cases r with
            | trap => exact .stop .trap
            | outOfFuel => exact .stop .outOfFuel
          · rw [← ended]
            exact Turn.finish_mono more same (by rw [ended]; exact known)
      | again length set' =>
          rename_i args' s'
          obtain ⟨r, ended, replied⟩ := ih length set'
          refine ⟨r, ended, fun known => ?_⟩
          rw [← replied known]
          have next := same (by rintro ⟨⟩)
          show (f.turn plain (f.selfCall plain (fuel + k)) _ f.body s.memory).finish _ = _
          rw [next]
          rfl

/-- What plain recursion replies, the loop replies, given the turns. -/
theorem loop_complete (depth : Nat) (enough : depth ≤ fuel) {k : Nat} (many : depth ≤ k)
    {args : List I64} {s : Locals} (arity : args.length = f.params.length)
    (set : ∀ i < args.length, s.locals (.param i) = args.getD i 0)
    (known : f.selfCall plain depth args s.memory ≠ .error .outOfFuel) :
    Over (repeatLoop (fun s => f.execute plain (f.selfCall plain fuel) fuel inner ⟨[], s⟩) k s)
      (f.selfCall plain depth args s.memory) := by
  induction depth generalizing k args s with
  | zero => exact (known rfl).elim
  | succ depth ih =>
      cases k with
      | zero => omega
      | succ k =>
          have once := turns s _ (envOf_params arity set)
          have more : Extends (f.selfCall plain depth) (f.selfCall plain fuel) :=
            selfCall_extends (by omega)
          have replied : f.selfCall plain (depth + 1) args s.memory =
              (f.turn plain (f.selfCall plain depth) (f.bindParams args) f.body
                s.memory).finish (f.selfCall plain depth) := rfl
          rw [replied] at known ⊢
          have same := turn_mono more (f.bindParams args) f.body s.memory
            (Turn.known_of_finish known)
          rw [same] at once
          have finished : (f.turn plain (f.selfCall plain depth) (f.bindParams args) f.body
              s.memory).finish (f.selfCall plain fuel) = _ :=
            Turn.finish_mono more (fun _ => rfl) known
          rw [repeatLoop]
          generalize f.turn plain (f.selfCall plain depth) (f.bindParams args) f.body s.memory = t
            at once finished known
          generalize f.execute plain (f.selfCall plain fuel) fuel inner ⟨[], s⟩ = o at once
          cases once with
          | leaves answered =>
              rename_i w s'
              rw [← finished, answered]
              exact .value w s'
          | stops ended =>
              rename_i r
              rw [← finished, ended]
              cases r with
              | trap => exact .stop .trap
              | outOfFuel => exact .stop .outOfFuel
          | again length set' =>
              exact ih (by omega) (by omega) length set' known

end Turns

/-- From the loop to the function's value. -/
theorem compiledCall_over {inner : Instructions Place} {fuel : Nat} {args : List I64}
    {m : LinearMemory} {r : Reply}
    (ended : Over (repeatLoop (fun s => f.execute plain (f.selfCall plain fuel) fuel inner ⟨[], s⟩)
      fuel (entry args m)) r) :
    f.compiledCall plain (blockI64 [loop inner, unreachable]) fuel args m = r := by
  have ran : run wasmOnly (f.operand plain (f.selfCall plain fuel)) fuel
      (loop inner) ⟨[], entry args m⟩ =
      (repeatLoop (fun s => f.execute plain (f.selfCall plain fuel) fuel inner ⟨[], s⟩)
        fuel (entry args m)).leave 0 [] := rfl
  generalize repeatLoop (fun s => f.execute plain (f.selfCall plain fuel) fuel inner ⟨[], s⟩)
    fuel (entry args m) = o at ended ran
  cases ended with
  | value w s =>
      simp only [compiledCall, blockI64, Code.ofList, run, ran]
      rfl
  | stop r =>
      cases r with
      | trap =>
          simp only [compiledCall, blockI64, Code.ofList, run, ran]
          rfl
      | outOfFuel =>
          simp only [compiledCall, blockI64, Code.ofList, run, ran]
          rfl

/-- The lowered function validates, and replies to every call what plain recursion replies. -/
def Lowered (f : FnDef) : Prop :=
  ∃ code, f.tcBody = some code ∧ validates wasmOnly [] code [.i64] = true ∧
    ∀ (plain : Expressions) (args : List I64) (m : LinearMemory),
      args.length = f.params.length → ∀ r : Reply, r ≠ .error .outOfFuel →
        ((∃ fuel, f.compiledCall plain code fuel args m = r) ↔
          ∃ depth, f.selfCall plain depth args m = r)

/-- `(define (sum n acc) (if n (sum (- n 1) (+ acc n)) acc))`. -/
def sum : FnDef where
  name := "sum"
  params := ["n", "acc"]
  body := .list [.sym "if", .sym "n",
    .list [.sym "sum", .list [.sym "-", .sym "n", .num 1], .list [.sym "+", .sym "acc", .sym "n"]],
    .sym "acc"]

/-- `(define (wait n) (if n (wait (- n 1))))`: at the end, nil. -/
def wait : FnDef where
  name := "wait"
  params := ["n"]
  body := .list [.sym "if", .sym "n",
    .list [.sym "wait", .list [.sym "-", .sym "n", .num 1]]]

/-- Literals and variables. -/
def atoms : Expressions
  | _, .num n, m => .ok (BitVec.ofInt 64 n <<< 3, m)
  | ρ, .sym n, m =>
      match ρ n with
      | some w => .ok (w, m)
      | none => .error .trap
  | _, _, _ => .error .trap

def replied (r : Reply) : Option I64 :=
  match r with
  | .ok (w, _) => some w
  | .error _ => none

def noMemory : LinearMemory := ⟨fun _ => 0, 0⟩

end FnDef

end LispRlm.WasmEmit
