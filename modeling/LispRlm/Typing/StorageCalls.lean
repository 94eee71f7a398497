import LispRlm.Typing.StorageSites
import Mathlib.Data.List.Forall2

/-! The evaluation of forms that read and write the storage through a program's functions, and what
the resolution of a form says of it. -/

namespace LispRlm.Typing.StorageProv

open LispRlm.Bytecode

/-! ### The storage -/

inductive Access
  | read (key : String)
  | write (key value : String)

/-- The cells, and the accesses that were made to them. -/
structure State where
  cells : String → Option LispVal
  log : List Access

def State.read (s : State) : LispVal → Option (LispVal × State)
  | .str key =>
      match s.cells key with
      | some (.str text) => some (.str text, { s with log := s.log ++ [.read key] })
      | some _ => none
      | none => some (.nil, { s with log := s.log ++ [.read key] })
  | _ => none

def State.write (s : State) : LispVal → LispVal → Option (LispVal × State)
  | .str key, .str text =>
      some (.num 0,
        { cells := fun k => if k = key then some (.str text) else s.cells k
          log := s.log ++ [.write key text] })
  | _, _ => none

/-! ### The evaluator -/

abbrev Env := String → Option LispVal

abbrev Run := State → Option (LispVal × State)

/-- The values of global names, the builtins that reach no cell, and the evaluation of the forms
that are no call of a function. -/
structure Language where
  globals : Env
  builtins : String → Option (List LispVal → Option LispVal)
  other : Env → LispVal → Run

def isLiteral : LispVal → Bool
  | .nil | .bool _ | .num _ | .u64 _ | .float _ | .str _ => true
  | _ => false

/-- The locals of a function; of two parameters with a name, the last one counts. -/
def bindParams (ps : List String) (vals : List LispVal) : Env := fun x =>
  (ps.zip vals).reverse.lookup x

def runAll (run : LispVal → Run) : List LispVal → State → Option (List LispVal × State)
  | [], s => some ([], s)
  | e :: es, s =>
      match run e s with
      | none => none
      | some (v, s') => (runAll run es s').map fun r => (v :: r.1, r.2)

def runBody (run : LispVal → Run) : LispVal → List LispVal → Run
  | e, [], s => run e s
  | e, e' :: more, s =>
      match run e s with
      | none => none
      | some (_, s') => runBody run e' more s'

/-- A `default`, whose fallback is evaluated for a `nil`. -/
def runDefault (run : LispVal → Run) : List LispVal → Run
  | [value, fallback], s =>
      match run value s with
      | some (.nil, s') => run fallback s'
      | answer => answer
  | _, _ => none

section

variable (lang : Language) (program : List LispVal)

def builtin (h : String) (vals : List LispVal) : Run := fun s =>
  if isGet h then
    match vals with
    | [k] => s.read k
    | _ => none
  else if isSet h then
    match vals with
    | [k, v] => s.write k v
    | _ => none
  else
    match lang.builtins h with
    | some f => (f vals).map fun v => (v, s)
    | none => none

def applied (run : Env → LispVal → Run) (h : String) (vals : List LispVal) : Run := fun s =>
  match defined program h with
  | none => builtin lang h vals s
  | some (params, body, more) =>
      match params.mapM paramName with
      | none => none
      | some ps =>
          if ps.length = vals.length then runBody (run (bindParams ps vals)) body more s else none

def isFunction (h : String) : Bool :=
  (defined program h).isSome || isGet h || isSet h || (lang.builtins h).isSome

/-- A program's function comes before the builtin of its name, and a local before both. -/
def called (run : Env → LispVal → Run) (env : Env) (h : String) (args : List LispVal) : Run :=
  fun s =>
    if (env h).isSome then lang.other env (.list (.sym h :: args)) s
    else if h = "default" ∧ (defined program h).isNone then runDefault (run env) args s
    else if isFunction lang program h then
      match runAll (run env) args s with
      | none => none
      | some (vals, s') => applied lang program run h vals s'
    else lang.other env (.list (.sym h :: args)) s

def leaf (env : Env) : LispVal → Run
  | .sym x, s => ((env x).or (lang.globals x)).map fun v => (v, s)
  | e, s => if isLiteral e then some (e, s) else lang.other env e s

/-- The value of a form and the state that evaluating it leaves, in at most so many turns. -/
def eval : Nat → Env → LispVal → Run
  | 0, _, _, _ => none
  | n + 1, env, .list (.sym h :: args), s => called lang program (eval n) env h args s
  | _ + 1, env, e, s => leaf lang env e s

end

/-! ### More turns give the same -/

/-- The second run ends as the first one wherever that one ends. -/
def Extends (run run' : LispVal → Run) : Prop :=
  ∀ e s r, run e s = some r → run' e s = some r

theorem runAll_extends {run run' : LispVal → Run} (more : Extends run run') {es : List LispVal}
    {s : State} {r : List LispVal × State} (ran : runAll run es s = some r) :
    runAll run' es s = some r := by
  induction es generalizing s r with
  | nil => exact ran
  | cons e es ih =>
    rw [runAll] at ran ⊢
    cases first : run e s with
    | none =>
      rw [first] at ran
      cases ran
    | some q =>
      rw [first] at ran
      rw [more e s q first]
      rcases Option.map_eq_some_iff.mp ran with ⟨rest, others, same⟩
      rw [← same]
      exact Option.map_eq_some_iff.mpr ⟨rest, ih others, rfl⟩

theorem runBody_extends {run run' : LispVal → Run} (extends_ : Extends run run') {e : LispVal}
    {more : List LispVal} {s : State} {r : LispVal × State} (ran : runBody run e more s = some r) :
    runBody run' e more s = some r := by
  induction more generalizing e s with
  | nil => exact extends_ e s r ran
  | cons e' more ih =>
    rw [runBody] at ran ⊢
    cases first : run e s with
    | none =>
      rw [first] at ran
      cases ran
    | some q =>
      rw [first] at ran
      rw [extends_ e s q first]
      exact ih ran

theorem runDefault_extends {run run' : LispVal → Run} (more : Extends run run')
    {args : List LispVal} {s : State} {r : LispVal × State}
    (ran : runDefault run args s = some r) : runDefault run' args s = some r := by
  rw [runDefault.eq_def] at ran ⊢
  split at ran
  · rename_i value fallback
    cases first : run value s with
    | none =>
      rw [first] at ran
      cases ran
    | some q =>
      rw [first] at ran
      rw [more value s q first]
      rcases q with ⟨v, s'⟩
      cases v with
      | nil => exact more fallback s' r ran
      | _ => exact ran
  · cases ran

variable {lang : Language} {program : List LispVal}

theorem applied_extends {run run' : Env → LispVal → Run}
    (more : ∀ env, Extends (run env) (run' env)) {h : String} {vals : List LispVal} {s : State}
    {r : LispVal × State} (ran : applied lang program run h vals s = some r) :
    applied lang program run' h vals s = some r := by
  rw [applied] at ran ⊢
  split at ran
  · exact ran
  · split at ran
    · cases ran
    · split at ran
      · rename_i fits
        rw [if_pos fits]
        exact runBody_extends (more _) ran
      · cases ran

theorem called_extends {run run' : Env → LispVal → Run}
    (more : ∀ env, Extends (run env) (run' env)) {env : Env} {h : String} {args : List LispVal}
    {s : State} {r : LispVal × State} (ran : called lang program run env h args s = some r) :
    called lang program run' env h args s = some r := by
  rw [called] at ran ⊢
  by_cases bound : (env h).isSome
  · rw [if_pos bound] at ran ⊢
    exact ran
  rw [if_neg bound] at ran ⊢
  by_cases form : h = "default" ∧ (defined program h).isNone
  · rw [if_pos form] at ran ⊢
    exact runDefault_extends (more env) ran
  rw [if_neg form] at ran ⊢
  by_cases function : isFunction lang program h
  · rw [if_pos function] at ran ⊢
    cases operands : runAll (run env) args s with
    | none =>
      rw [operands] at ran
      cases ran
    | some q =>
      rw [operands] at ran
      rw [runAll_extends (more env) operands]
      exact applied_extends more ran
  · rw [if_neg function] at ran ⊢
    exact ran

theorem eval_leaf {e : LispVal} (leaf_ : ∀ h args, e ≠ .list (.sym h :: args)) (n : Nat)
    (env : Env) (s : State) : eval lang program (n + 1) env e s = leaf lang env e s := by
  rw [eval]
  exact leaf_

theorem eval_succ (n : Nat) (env : Env) :
    Extends (eval lang program n env) (eval lang program (n + 1) env) := by
  induction n generalizing env with
  | zero =>
    intro e s r ran
    cases ran
  | succ n ih =>
    intro e s r ran
    by_cases call : ∃ h args, e = .list (.sym h :: args)
    · rcases call with ⟨h, args, rfl⟩
      rw [eval] at ran ⊢
      exact called_extends ih ran
    · have leaf_ : ∀ h args, e ≠ .list (.sym h :: args) := by
        intro h args same
        exact call ⟨h, args, same⟩
      rw [eval_leaf leaf_] at ran ⊢
      exact ran

theorem eval_mono {n m : Nat} (more : n ≤ m) (env : Env) :
    Extends (eval lang program n env) (eval lang program m env) := by
  induction more with
  | refl => exact fun _ _ _ ran => ran
  | step _ ih => exact fun e s r ran => eval_succ _ env e s r (ih e s r ran)

/-! ### What evaluating does -/

section

variable (lang program)

def Evaluates (env : Env) (e : LispVal) (s : State) (r : LispVal × State) : Prop :=
  ∃ n, eval lang program n env e s = some r

def EvaluatesAll (env : Env) (es : List LispVal) (s : State) (r : List LispVal × State) : Prop :=
  ∃ n, runAll (eval lang program n env) es s = some r

def Applies (h : String) (vals : List LispVal) (s : State) (r : LispVal × State) : Prop :=
  ∃ n, applied lang program (eval lang program n) h vals s = some r

/-- A form's value is the same in every state, and evaluating it reaches no cell. -/
def Steady (env : Env) (e v : LispVal) : Prop :=
  ∀ s r, Evaluates lang program env e s r ↔ r = (v, s)

end

theorem evaluates_leaf {e : LispVal} (leaf_ : ∀ h args, e ≠ .list (.sym h :: args)) (env : Env)
    (s : State) (r : LispVal × State) :
    Evaluates lang program env e s r ↔ leaf lang env e s = some r := by
  constructor
  · intro ⟨n, ran⟩
    cases n with
    | zero => cases ran
    | succ n =>
      rw [eval_leaf leaf_] at ran
      exact ran
  · intro ran
    use 1
    rw [eval_leaf leaf_]
    exact ran

theorem evaluates_call (env : Env) (h : String) (args : List LispVal) (s : State)
    (r : LispVal × State) :
    Evaluates lang program env (.list (.sym h :: args)) s r ↔
      ∃ n, called lang program (eval lang program n) env h args s = some r := by
  constructor
  · intro ⟨n, ran⟩
    cases n with
    | zero => cases ran
    | succ n => exact ⟨n, ran⟩
  · intro ⟨n, ran⟩
    exact ⟨n + 1, ran⟩

theorem evaluatesAll_nil (env : Env) (s : State) (r : List LispVal × State) :
    EvaluatesAll lang program env [] s r ↔ r = ([], s) := by
  constructor
  · intro ⟨n, ran⟩
    exact (Option.some.inj ran).symm
  · intro same
    rw [same]
    exact ⟨0, rfl⟩

theorem evaluatesAll_cons (env : Env) (e : LispVal) (es : List LispVal) (s : State)
    (r : List LispVal × State) :
    EvaluatesAll lang program env (e :: es) s r ↔
      ∃ q p, Evaluates lang program env e s q ∧ EvaluatesAll lang program env es q.2 p ∧
        r = (q.1 :: p.1, p.2) := by
  constructor
  · intro ⟨n, ran⟩
    rw [runAll] at ran
    cases first : eval lang program n env e s with
    | none =>
      rw [first] at ran
      cases ran
    | some q =>
      rw [first] at ran
      rcases Option.map_eq_some_iff.mp ran with ⟨p, others, same⟩
      exact ⟨q, p, ⟨n, first⟩, ⟨n, others⟩, same.symm⟩
  · intro ⟨q, p, ⟨n, first⟩, ⟨m, others⟩, same⟩
    use max n m
    rw [runAll, eval_mono (Nat.le_max_left n m) env e s q first]
    dsimp only
    rw [runAll_extends (eval_mono (Nat.le_max_right n m) env) others, same]
    rfl

/-- A call of a function evaluates its operands and applies the function to their values. -/
theorem evaluates_function {env : Env} {h : String} (free : env h = none)
    (form : ¬ (h = "default" ∧ (defined program h).isNone = true))
    (function : isFunction lang program h = true) (args : List LispVal) (s : State)
    (r : LispVal × State) :
    Evaluates lang program env (.list (.sym h :: args)) s r ↔
      ∃ q, EvaluatesAll lang program env args s q ∧ Applies lang program h q.1 q.2 r := by
  have bound : ¬ (env h).isSome = true := by
    rw [free]
    exact Bool.false_ne_true
  rw [evaluates_call]
  constructor
  · intro ⟨n, ran⟩
    rw [called, if_neg bound, if_neg form, if_pos function] at ran
    cases operands : runAll (eval lang program n env) args s with
    | none =>
      rw [operands] at ran
      cases ran
    | some q =>
      rw [operands] at ran
      exact ⟨q, ⟨n, operands⟩, n, ran⟩
  · intro ⟨q, ⟨n, operands⟩, m, ran⟩
    use max n m
    rw [called, if_neg bound, if_neg form, if_pos function,
      runAll_extends (eval_mono (Nat.le_max_left n m) env) operands]
    exact applied_extends (fun env => eval_mono (Nat.le_max_right n m) env) ran

theorem evaluates_default {env : Env} (free : env "default" = none)
    (builtin_ : defined program "default" = none) (value fallback : LispVal) (s : State)
    (r : LispVal × State) :
    Evaluates lang program env (.list [.sym "default", value, fallback]) s r ↔
      ∃ q, Evaluates lang program env value s q ∧
        (q.1 = .nil ∧ Evaluates lang program env fallback q.2 r ∨ q.1 ≠ .nil ∧ r = q) := by
  have bound : ¬ (env "default").isSome = true := by
    rw [free]
    exact Bool.false_ne_true
  have form : "default" = "default" ∧ (defined program "default").isNone = true := by
    rw [builtin_]
    exact ⟨rfl, rfl⟩
  rw [evaluates_call]
  constructor
  · intro ⟨n, ran⟩
    rw [called, if_neg bound, if_pos form, runDefault] at ran
    cases first : eval lang program n env value s with
    | none =>
      rw [first] at ran
      cases ran
    | some q =>
      use q
      use ⟨n, first⟩
      rw [first] at ran
      rcases q with ⟨v, s'⟩
      cases v with
      | nil => exact .inl ⟨rfl, n, ran⟩
      | _ => exact .inr ⟨by simp, (Option.some.inj ran).symm⟩
  · intro ⟨q, ⟨n, first⟩, rest⟩
    rcases rest with ⟨empty, m, ran⟩ | ⟨some_, same⟩
    · use max n m
      rw [called, if_neg bound, if_pos form, runDefault,
        eval_mono (Nat.le_max_left n m) env value s q first]
      rcases q with ⟨v, s'⟩
      dsimp only at empty
      rw [empty]
      exact eval_mono (Nat.le_max_right n m) env fallback s' r ran
    · use n
      rw [called, if_neg bound, if_pos form, runDefault, first, same]
      rcases q with ⟨v, s'⟩
      cases v with
      | nil => exact absurd rfl some_
      | _ => rfl

/-! ### Steady operands -/

theorem steady_literal {e : LispVal} (literal : isLiteral e = true) (env : Env) :
    Steady lang program env e e := by
  intro s r
  have leaf_ : ∀ h args, e ≠ .list (.sym h :: args) := by
    intro h args same
    rw [same] at literal
    cases literal
  rw [evaluates_leaf leaf_, leaf.eq_def]
  split
  · cases literal
  · rw [if_pos literal, Option.some_inj, eq_comm]

theorem steady_all {env : Env} {args : List LispVal}
    (each : ∀ a ∈ args, ∃ v, Steady lang program env a v) :
    ∃ vals, List.Forall₂ (Steady lang program env) args vals := by
  induction args with
  | nil => exact ⟨[], .nil⟩
  | cons a args ih =>
    rcases each a List.mem_cons_self with ⟨v, first⟩
    rcases ih fun a' mem => each a' (List.mem_cons_of_mem a mem) with ⟨vals, others⟩
    exact ⟨v :: vals, .cons first others⟩

theorem evaluatesAll_steady {env : Env} {args vals : List LispVal}
    (steady : List.Forall₂ (Steady lang program env) args vals) (s : State)
    (r : List LispVal × State) : EvaluatesAll lang program env args s r ↔ r = (vals, s) := by
  induction steady generalizing r with
  | nil => exact evaluatesAll_nil env s r
  | @cons a v args vals first _ ih =>
    rw [evaluatesAll_cons]
    constructor
    · intro ⟨q, p, here, there, same⟩
      rw [first] at here
      rw [here, ih] at there
      rw [same, here, there]
    · intro same
      refine ⟨(v, s), (vals, s), (first s _).mpr rfl, (ih _).mpr rfl, same⟩

theorem lookup_reverse {ps : List String} (distinct : ps.Nodup) (vals : List LispVal) (x : String) :
    (ps.zip vals).reverse.lookup x = (ps.zip vals).lookup x := by
  induction ps generalizing vals with
  | nil => rfl
  | cons p ps ih =>
    cases vals with
    | nil => rfl
    | cons v vals =>
      rw [List.nodup_cons] at distinct
      rw [List.zip_cons_cons, List.reverse_cons, List.lookup_append, ih distinct.2,
        List.lookup_cons, List.lookup_cons, List.lookup_nil]
      by_cases same : x = p
      · rw [same, lookup_zip_eq_none distinct.1]
        simp
      · have differs : (x == p) = false := beq_false_of_ne same
        rw [differs, Option.or_none]

/-- An operand and its value stand for a parameter, or nothing does. -/
theorem lookup_steady {env : Env} {ps : List String} {args vals : List LispVal}
    (steady : List.Forall₂ (Steady lang program env) args vals) (x : String) :
    (∃ a v, (ps.zip args).lookup x = some a ∧ (ps.zip vals).lookup x = some v ∧
      Steady lang program env a v) ∨
    ((ps.zip args).lookup x = none ∧ (ps.zip vals).lookup x = none ∧
      (ps.length = args.length → x ∉ ps)) := by
  induction steady generalizing ps with
  | nil =>
    right
    rw [List.zip_nil_right]
    refine ⟨rfl, rfl, ?_⟩
    intro fits mem
    rw [List.length_eq_zero_iff.mp fits] at mem
    cases mem
  | @cons a v args vals first _ ih =>
    cases ps with
    | nil => exact .inr ⟨rfl, rfl, fun fits => by cases fits⟩
    | cons p ps =>
      rw [List.zip_cons_cons, List.zip_cons_cons, List.lookup_cons, List.lookup_cons]
      by_cases same : x = p
      · left
        have found : (x == p) = true := beq_iff_eq.mpr same
        rw [found]
        exact ⟨a, v, rfl, rfl, first⟩
      · have differs : (x == p) = false := beq_false_of_ne same
        rw [differs]
        rcases @ih ps with found | ⟨none_, none', absent⟩
        · exact .inl found
        · refine .inr ⟨none_, none', ?_⟩
          intro fits mem
          rcases List.mem_cons.mp mem with here | there
          · exact same here
          · exact absent (Nat.succ.inj fits) there

/-! ### The body of a wrapper -/

section

variable (lang program)

/-- A body that is made of calls and of names that mean in a caller what they mean in the
wrapper. -/
inductive Flat (env : Env) (ps : List String) : LispVal → Prop
  | literal {e : LispVal} : isLiteral e = true → Flat env ps e
  | sym {x : String} : (x ∈ ps ∨ env x = none) → Flat env ps (.sym x)
  | call {h : String} {args : List LispVal} : h ∉ ps → env h = none →
      ¬ (h = "default" ∧ (defined program h).isNone = true) → isFunction lang program h = true →
      (∀ a ∈ args, Flat env ps a) → Flat env ps (.list (.sym h :: args))
  | fallback {value d : LispVal} : "default" ∉ ps → env "default" = none →
      defined program "default" = none → Flat env ps value → Flat env ps d →
      Flat env ps (.list [.sym "default", value, d])

end

theorem bindParams_eq_none {ps : List String} {x : String} (absent : x ∉ ps) (vals : List LispVal) :
    bindParams ps vals x = none := by
  rw [bindParams, List.lookup_eq_none_iff]
  intro pair mem
  rw [bne_iff_ne]
  intro same
  rw [List.mem_reverse] at mem
  exact absent (same ▸ (List.of_mem_zip mem).1)

theorem evaluatesAll_congr {env env' : Env} {f : LispVal → LispVal} {es : List LispVal}
    (each : ∀ e ∈ es, ∀ s r,
      Evaluates lang program env e s r ↔ Evaluates lang program env' (f e) s r)
    (s : State) (r : List LispVal × State) :
    EvaluatesAll lang program env es s r ↔ EvaluatesAll lang program env' (es.map f) s r := by
  induction es generalizing s r with
  | nil => rw [List.map_nil, evaluatesAll_nil, evaluatesAll_nil]
  | cons e es ih =>
    rw [List.map_cons, evaluatesAll_cons, evaluatesAll_cons]
    apply exists_congr
    intro q
    apply exists_congr
    intro p
    rw [each e List.mem_cons_self, ih fun e' mem => each e' (List.mem_cons_of_mem e mem)]

/-- A wrapper's body does with the values of the operands what it does with the operands in the
place of its parameters. -/
theorem evaluates_substituted {env : Env} {ps : List String} {args vals : List LispVal}
    (distinct : ps.Nodup) (fits : ps.length = args.length)
    (steady : List.Forall₂ (Steady lang program env) args vals) {body : LispVal}
    (flat : Flat lang program env ps body) (s : State) (r : LispVal × State) :
    Evaluates lang program (bindParams ps vals) body s r ↔
      Evaluates lang program env (substituteSyms ps args body) s r := by
  induction flat generalizing s r with
  | @literal e literal =>
    have same : substituteSyms ps args e = e := by
      cases e <;> first | rfl | cases literal
    rw [same, steady_literal literal, steady_literal literal]
  | @sym x known =>
    rw [evaluates_leaf (by simp), leaf, bindParams, lookup_reverse distinct, substituteSyms]
    rcases @lookup_steady _ _ _ ps _ _ steady x with
      ⟨a, v, found, found', same⟩ | ⟨none_, none', absent⟩
    · rw [found, found', Option.getD_some, same]
      simp [eq_comm]
    · rw [none_, none', Option.getD_none, evaluates_leaf (by simp), leaf]
      rcases known with param | global
      · exact absurd param (absent fits)
      · rw [global]
  | @call h items absent free form function _ ih =>
    rw [substituteSyms_call args items absent,
      evaluates_function (bindParams_eq_none absent vals) form function,
      evaluates_function free form function]
    apply exists_congr
    intro q
    rw [evaluatesAll_congr ih]
  | @fallback value d absent free builtin_ _ _ ih ih' =>
    rw [substituteSyms_call args _ absent, List.map_cons, List.map_cons, List.map_nil,
      evaluates_default (bindParams_eq_none absent vals) builtin_,
      evaluates_default free builtin_]
    apply exists_congr
    intro q
    rw [ih, ih']

theorem applies_defined {h : String} {params : List LispVal} {body : LispVal} {ps : List String}
    (known : defined program h = some (params, body, [])) (names : params.mapM paramName = some ps)
    {vals : List LispVal} (fits : ps.length = vals.length) (s : State) (r : LispVal × State) :
    Applies lang program h vals s r ↔ Evaluates lang program (bindParams ps vals) body s r := by
  apply exists_congr
  intro n
  rw [applied, known]
  dsimp only
  rw [names]
  dsimp only
  rw [if_pos fits, runBody]

theorem filterMap_of_mapM {params : List LispVal} {ps : List String}
    (names : params.mapM paramName = some ps) : params.filterMap paramName = ps := by
  induction params generalizing ps with
  | nil =>
    rw [List.mapM_nil] at names
    exact Option.some.inj names
  | cons p params ih =>
    rw [List.mapM_cons] at names
    cases first : paramName p with
    | none =>
      rw [first] at names
      cases names
    | some x =>
      cases others : params.mapM paramName with
      | none =>
        rw [first, others] at names
        cases names
      | some xs =>
        rw [first, others] at names
        rw [List.filterMap_cons, first, ih others]
        exact Option.some.inj names

/-! ### The accesses of a form -/

section

variable (lang program)

/-- What makes the unfolding of one form keep its meaning: the names in it are those of the program
and of the builtins, its operands are steady, and a wrapper is one flat form over distinct
parameters. -/
def Direct (env : Env) (e : LispVal) : Prop :=
  ∀ h args, e = .list (.sym h :: args) →
    (isGet h ∨ isSet h → env h = none ∧ defined program h = none ∧
      ∀ a ∈ args, ∃ v, Steady lang program env a v) ∧
    (h = "default" → env h = none ∧ defined program h = none ∧
      ∀ a ∈ args.tail, ∃ v, Steady lang program env a v) ∧
    (∀ params body more, defined program h = some (params, body, more) →
      env h = none ∧ more = [] ∧ (∀ a ∈ args, ∃ v, Steady lang program env a v) ∧
      ∃ ps, params.mapM paramName = some ps ∧ ps.Nodup ∧ Flat lang program env ps body)

/-- Evaluating a form does to the storage what the access does, with the values of its operands. -/
def Performs (env : Env) (e : LispVal) : StorageSite → Prop
  | .read k _ => ∃ key, Steady lang program env k key ∧
      ∀ s s', (∃ v, Evaluates lang program env e s (v, s')) ↔ ∃ v, s.read key = some (v, s')
  | .write k v => ∃ key value, Steady lang program env k key ∧ Steady lang program env v value ∧
      ∀ s s', (∃ r, Evaluates lang program env e s (r, s')) ↔ ∃ r, s.write key value = some (r, s')

end

theorem not_default_of_isGet {h : String} (get : isGet h = true) : h ≠ "default" := by
  intro same
  rw [same] at get
  cases get

theorem not_default_of_isSet {h : String} (set : isSet h = true) : h ≠ "default" := by
  intro same
  rw [same] at set
  cases set

theorem not_isGet_of_isSet {h : String} (set : isSet h = true) : ¬ isGet h = true := by
  intro get
  rw [isSet, decide_eq_true_eq] at set
  rcases set with same | same
  · rw [same] at get
    cases get
  · rw [same] at get
    cases get

theorem performs_read {env : Env} {h : String} {k : LispVal} (get : isGet h = true)
    (direct : Direct lang program env (.list [.sym h, k])) :
    Performs lang program env (.list [.sym h, k]) (.read k none) := by
  rcases (direct h [k] rfl).1 (.inl get) with ⟨free, builtin_, steady⟩
  rcases steady k List.mem_cons_self with ⟨key, steady⟩
  have form : ¬ (h = "default" ∧ (defined program h).isNone = true) :=
    fun both => not_default_of_isGet get both.1
  have function : isFunction lang program h = true := by
    rw [isFunction, get]
    simp
  have applies (s : State) (r : LispVal × State) :
      Applies lang program h [key] s r ↔ s.read key = some r := by
    rw [Applies]
    simp only [applied, builtin_, builtin, if_pos get]
    exact exists_const Nat
  refine ⟨key, steady, ?_⟩
  intro s s'
  apply exists_congr
  intro v
  rw [evaluates_function free form function]
  simp only [evaluatesAll_steady (.cons steady .nil), exists_eq_left, applies]

theorem performs_write {env : Env} {h : String} {k v : LispVal} (set : isSet h = true)
    (direct : Direct lang program env (.list [.sym h, k, v])) :
    Performs lang program env (.list [.sym h, k, v]) (.write k v) := by
  rcases (direct h [k, v] rfl).1 (.inr set) with ⟨free, builtin_, steady⟩
  rcases steady k List.mem_cons_self with ⟨key, steady_k⟩
  rcases steady v (List.mem_cons_of_mem k List.mem_cons_self) with ⟨value, steady_v⟩
  have form : ¬ (h = "default" ∧ (defined program h).isNone = true) :=
    fun both => not_default_of_isSet set both.1
  have function : isFunction lang program h = true := by
    rw [isFunction, set]
    simp
  have applies (s : State) (r : LispVal × State) :
      Applies lang program h [key, value] s r ↔ s.write key value = some r := by
    rw [Applies]
    simp only [applied, builtin_, builtin, if_neg (not_isGet_of_isSet set), if_pos set]
    exact exists_const Nat
  refine ⟨key, value, steady_k, steady_v, ?_⟩
  intro s s'
  apply exists_congr
  intro r
  rw [evaluates_function free form function]
  simp only [evaluatesAll_steady (.cons steady_k (.cons steady_v .nil)), exists_eq_left, applies]

/-- A `default` with a steady fallback accesses what its value accesses. -/
theorem performs_default {env : Env} {value fallback k : LispVal} {d : Option LispVal}
    (direct : Direct lang program env (.list [.sym "default", value, fallback]))
    (performs : Performs lang program env value (.read k d)) :
    Performs lang program env (.list [.sym "default", value, fallback])
      (.read k (some fallback)) := by
  rcases (direct "default" [value, fallback] rfl).2.1 rfl with ⟨free, builtin_, steady⟩
  rcases steady fallback List.mem_cons_self with ⟨v', steady⟩
  rcases performs with ⟨key, steady_k, same⟩
  refine ⟨key, steady_k, ?_⟩
  intro s s'
  rw [← same]
  constructor
  · intro ⟨v, evaluates⟩
    rw [evaluates_default free builtin_] at evaluates
    rcases evaluates with ⟨q, first, ⟨_, second⟩ | ⟨_, second⟩⟩
    · rw [steady] at second
      cases second
      exact ⟨q.1, first⟩
    · cases second
      exact ⟨v, first⟩
  · intro ⟨v, first⟩
    by_cases empty : v = .nil
    · use v'
      rw [evaluates_default free builtin_]
      exact ⟨(v, s'), first, .inl ⟨empty, (steady s' _).mpr rfl⟩⟩
    · use v
      rw [evaluates_default free builtin_]
      exact ⟨(v, s'), first, .inr ⟨empty, rfl⟩⟩

/-- A call of a wrapper evaluates as its unfolding. -/
theorem evaluates_wrapped {env : Env} {h : String} {args : List LispVal} {e' : LispVal}
    (not_default : h ≠ "default") (direct : Direct lang program env (.list (.sym h :: args)))
    (unfolds : wrapped (collectFnDefns program) h args = some e') (s : State)
    (r : LispVal × State) :
    Evaluates lang program env (.list (.sym h :: args)) s r ↔
      Evaluates lang program env e' s r := by
  rw [wrapped, collectFnDefns] at unfolds
  cases known : defined program h with
  | none =>
    rw [known] at unfolds
    cases unfolds
  | some d =>
    rcases d with ⟨params, body, more⟩
    rcases (direct h args rfl).2.2 params body more known with
      ⟨free, single, operands, ps, names, distinct, flat⟩
    rw [known, Option.map_some] at unfolds
    dsimp only at unfolds
    rw [filterMap_of_mapM names] at unfolds
    split at unfolds
    · cases unfolds
    rename_i shape
    have fits : ps.length = args.length := Decidable.not_not.mp (not_or.mp shape).2
    rcases steady_all operands with ⟨vals, steady⟩
    have fits' : ps.length = vals.length := fits.trans steady.length_eq
    have form : ¬ (h = "default" ∧ (defined program h).isNone = true) :=
      fun both => not_default both.1
    have function : isFunction lang program h = true := by
      rw [isFunction, known]
      rfl
    rw [single] at known
    rw [evaluates_function free form function]
    simp only [evaluatesAll_steady steady, exists_eq_left]
    rw [applies_defined known names fits', evaluates_substituted distinct fits steady flat,
      Option.some.inj unfolds]

theorem performs_congr {env : Env} {e e' : LispVal}
    (same : ∀ s r, Evaluates lang program env e s r ↔ Evaluates lang program env e' s r)
    {site : StorageSite} (performs : Performs lang program env e' site) :
    Performs lang program env e site := by
  cases site with
  | read k d =>
    rcases performs with ⟨key, steady, accesses⟩
    refine ⟨key, steady, ?_⟩
    intro s s'
    simp only [same, accesses]
  | write k v =>
    rcases performs with ⟨key, value, steady_k, steady_v, accesses⟩
    refine ⟨key, value, steady_k, steady_v, ?_⟩
    intro s s'
    simp only [same, accesses]

/-- By induction on the resolution: each unfolding has the accesses of the form it comes from. -/
theorem storageSite_performs {env : Env} {fuel : Nat} {e : LispVal} {site : StorageSite}
    (direct : ∀ n e', unfolded (collectFnDefns program) n e = some e' →
      Direct lang program env e')
    (found : storageSite (collectFnDefns program) fuel e = some (some site)) :
    Performs lang program env e site := by
  induction fuel generalizing e site with
  | zero => cases found
  | succ fuel ih =>
    have here : Direct lang program env e := direct 0 e rfl
    have later (e' : LispVal) (next : unfold (collectFnDefns program) e = some e') :
        ∀ n e'', unfolded (collectFnDefns program) n e' = some e'' →
          Direct lang program env e'' := by
      intro n e'' reached
      apply direct (n + 1) e''
      rw [unfolded, next]
      exact reached
    rcases resolved_of_storageSite found with get | set | ⟨next, inner⟩ |
      ⟨form, unfolds, next, inner⟩
    · exact performs_read get here
    · exact performs_write set here
    · exact performs_default here (ih (later _ next) inner)
    · exact performs_congr (evaluates_wrapped form here unfolds) (ih (later _ next) inner)

/-- The resolution of a form returns if and only if its unfoldings end, as all do where no wrapper
calls itself; and the site that it returns is what evaluating the form accesses, where each of the
unfoldings is direct. -/
theorem storageSite_sound (lang : Language) (program : List LispVal) (e : LispVal) :
    ((∃ fuel site, storageSite (collectFnDefns program) fuel e = some site) ↔
      Ends (collectFnDefns program) e) ∧
    ((∃ fuel b, hotLimbRead (collectFnDefns program) fuel e = some b) ↔
      Ends (collectFnDefns program) e) ∧
    ((∀ x, Part x e → Ends (collectFnDefns program) x) →
      ∃ fuel b, anyHotReadIn (collectFnDefns program) fuel e = some b) ∧
    ((∃ rank, Ranked (collectFnDefns program) rank) → ∀ x, Ends (collectFnDefns program) x) ∧
    ∀ env, (∀ n e', unfolded (collectFnDefns program) n e = some e' → Direct lang program env e') →
      ∀ fuel site, storageSite (collectFnDefns program) fuel e = some (some site) →
        Performs lang program env e site := by
  refine ⟨storageSite_returns_iff_ends e, hotLimbRead_returns_iff_ends e, ?_, ?_, ?_⟩
  · intro ends
    rcases anyHotReadIn_returns e ends with ⟨n, returns⟩
    exact ⟨n, returns n (Nat.le_refl n)⟩
  · intro ⟨rank, ranked⟩
    exact ends_of_ranked ranked
  · intro env direct fuel site found
    exact storageSite_performs direct found

/-! ### Wrappers that are resolved, and some that are not -/

def plainLanguage : Language where
  globals _ := none
  builtins _ := none
  other _ _ _ := none

def noLocals : Env := fun _ => none

/-- `(define (sget k d) (default (near/storage_get k) d))` -/
def sgetProgram : List LispVal :=
  [.list [.sym "define", .list [.sym "sget", .sym "k", .sym "d"],
    .list [.sym "default", .list [.sym "near/storage_get", .sym "k"], .sym "d"]]]

/-- `(define (f x) (f x))` -/
def selfCalling : List LispVal :=
  [.list [.sym "define", .list [.sym "f", .sym "x"], .list [.sym "f", .sym "x"]]]

/-- `(define (w k) (near/storage_get k) (near/storage_set k "1"))` -/
def twoForms : List LispVal :=
  [.list [.sym "define", .list [.sym "w", .sym "k"], .list [.sym "near/storage_get", .sym "k"],
    .list [.sym "near/storage_set", .sym "k", .str "1"]]]

theorem direct_step {env : Env} {e : LispVal} (direct : Direct lang program env e)
    (later : ∀ e', unfold (collectFnDefns program) e = some e' →
      ∀ n e'', unfolded (collectFnDefns program) n e' = some e'' → Direct lang program env e'')
    (n : Nat) (e' : LispVal) (reached : unfolded (collectFnDefns program) n e = some e') :
    Direct lang program env e' := by
  cases n with
  | zero => exact Option.some.inj reached ▸ direct
  | succ n =>
    rw [unfolded] at reached
    rcases Option.bind_eq_some_iff.mp reached with ⟨e'', next, reached⟩
    exact later e'' next n e' reached

theorem sget_flat : Flat plainLanguage sgetProgram noLocals ["k", "d"]
    (.list [.sym "default", .list [.sym "near/storage_get", .sym "k"], .sym "d"]) := by
  have absent : "default" ∉ ["k", "d"] := by decide
  have absent' : "near/storage_get" ∉ ["k", "d"] := by decide
  apply Flat.fallback absent rfl rfl
  · apply Flat.call absent' rfl _ rfl
    · intro a mem
      rw [List.mem_singleton.mp mem]
      exact .sym (.inl List.mem_cons_self)
    · intro both
      exact absurd both.1 (by decide)
  · exact .sym (.inl (by decide))

theorem sget_direct (n : Nat) (e : LispVal)
    (reached : unfolded (collectFnDefns sgetProgram) n (.list [.sym "sget", .str "a", .str "0"]) =
      some e) : Direct plainLanguage sgetProgram noLocals e := by
  have literal (a : LispVal) (mem : a ∈ [LispVal.str "a", LispVal.str "0"]) :
      ∃ v, Steady plainLanguage sgetProgram noLocals a v := by
    rcases List.mem_pair.mp mem with same | same
    · rw [same]
      exact ⟨.str "a", steady_literal rfl noLocals⟩
    · rw [same]
      exact ⟨.str "0", steady_literal rfl noLocals⟩
  have known : defined sgetProgram "sget" = some ([.sym "k", .sym "d"],
      .list [.sym "default", .list [.sym "near/storage_get", .sym "k"], .sym "d"], []) := rfl
  have unknown : defined sgetProgram "default" = none := rfl
  have unknown' : defined sgetProgram "near/storage_get" = none := rfl
  have first : unfold (collectFnDefns sgetProgram) (.list [.sym "sget", .str "a", .str "0"]) =
      some (.list [.sym "default", .list [.sym "near/storage_get", .str "a"], .str "0"]) := rfl
  have second : unfold (collectFnDefns sgetProgram)
      (.list [.sym "default", .list [.sym "near/storage_get", .str "a"], .str "0"]) =
      some (.list [.sym "near/storage_get", .str "a"]) := rfl
  have third : unfold (collectFnDefns sgetProgram) (.list [.sym "near/storage_get", .str "a"]) =
      none := rfl
  revert n e
  apply direct_step
  · intro h args same
    cases same
    refine ⟨fun op => absurd op (by decide), fun form => absurd form (by decide), ?_⟩
    intro params body more found
    rw [known] at found
    cases found
    exact ⟨rfl, rfl, literal, ["k", "d"], rfl, by decide, sget_flat⟩
  intro e next
  rw [first] at next
  cases next
  apply direct_step
  · intro h args same
    cases same
    refine ⟨fun op => absurd op (by decide), ?_, ?_⟩
    · intro _
      refine ⟨rfl, rfl, ?_⟩
      intro a mem
      exact literal a (List.mem_cons_of_mem _ mem)
    · intro params body more found
      rw [unknown] at found
      cases found
  intro e next
  rw [second] at next
  cases next
  apply direct_step
  · intro h args same
    cases same
    refine ⟨?_, fun form => absurd form (by decide), ?_⟩
    · intro _
      refine ⟨rfl, rfl, ?_⟩
      intro a mem
      rw [List.mem_singleton.mp mem]
      exact literal _ List.mem_cons_self
    · intro params body more found
      rw [unknown'] at found
      cases found
  intro e next
  rw [third] at next
  cases next

theorem storageSite_sound_sget :
    Performs plainLanguage sgetProgram noLocals (.list [.sym "sget", .str "a", .str "0"])
      (.read (.str "a") (some (.str "0"))) :=
  (storageSite_sound plainLanguage sgetProgram _).2.2.2.2 noLocals sget_direct 3 _ rfl

/-- A wrapper that calls itself is unfolded for ever, and one with two forms does more than its
site says. -/
theorem resolution_fails :
    (∀ fuel, storageSite (collectFnDefns selfCalling) fuel (.list [.sym "f", .num 1]) = none) ∧
    storageSite (collectFnDefns twoForms) 2 (.list [.sym "w", .str "a"]) =
      some (some (.read (.str "a") none)) ∧
    ¬ Performs plainLanguage twoForms noLocals (.list [.sym "w", .str "a"])
      (.read (.str "a") none) := by
  refine ⟨?_, rfl, ?_⟩
  · intro fuel
    have turns : unfold (collectFnDefns selfCalling) (.list [.sym "f", .num 1]) =
        some (.list [.sym "f", .num 1]) := rfl
    rw [storageSite_eq_none_iff]
    use .list [.sym "f", .num 1]
    induction fuel with
    | zero => rfl
    | succ fuel ih =>
      rw [unfolded, turns]
      exact ih
  · intro performs
    rcases performs with ⟨key, steady, accesses⟩
    have value : key = .str "a" := by
      have same := (steady ⟨fun _ => none, []⟩ _).mp ⟨1, rfl⟩
      cases same
      rfl
    rcases (accesses ⟨fun _ => none, []⟩ _).mp ⟨_, 3, rfl⟩ with ⟨v, read⟩
    rw [value, State.read] at read
    simp at read

end LispRlm.Typing.StorageProv
