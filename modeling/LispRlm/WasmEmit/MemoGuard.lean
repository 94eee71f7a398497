import LispRlm.WasmEmit.Operators

/-! The guard of a value define: which function the emitter gives it to, and how often the
initialiser behind it is run. -/

namespace LispRlm.WasmEmit

namespace MemoGuard

/-! ### Emission -/

/-- An expression by the functions that its code has emitted. -/
inductive Form
  /-- Any form that emits its operands in turn, and no function. -/
  | form (operands : List Form)
  | lambda (body : Form)
  /-- A loop becomes a function of its own, and then its initial values are emitted. -/
  | loop (inits : List Form) (body : Form)

inductive FuncName
  | define (name : String)
  | lambda (id : Nat)
  | loop (id : Nat)
  deriving DecidableEq

/-- A function, and the data slot of its guard if it has one. -/
structure Func where
  name : FuncName
  guard : Option Nat

structure Emitter where
  memoizeNext : Bool
  lambdas : Nat
  loops : Nat
  nextDataOffset : Nat
  funcs : List Func

/-- The next function that is finished is to have a guard. -/
def Emitter.memoize (e : Emitter) : Emitter := { e with memoizeNext := true }

/-- The end of `emit_define`: a pending memo is taken for the function that is finished. -/
def Emitter.finish (e : Emitter) (name : FuncName) : Emitter :=
  if e.memoizeNext then
    { e with
      memoizeNext := false
      nextDataOffset := (e.nextDataOffset + 8 + 7) / 8 * 8
      funcs := e.funcs ++ [⟨name, some e.nextDataOffset⟩] }
  else { e with funcs := e.funcs ++ [⟨name, none⟩] }

mutual

def expr : Form → Emitter → Emitter
  | .form operands, e => exprs operands e
  | .lambda body, e =>
      let id := e.lambdas
      let e := expr body { e with lambdas := id + 1 }
      { e with funcs := e.funcs ++ [⟨.lambda id, none⟩] }
  | .loop inits body, e =>
      let id := e.loops
      let e := (expr body { e with loops := id + 1 }).finish (.loop id)
      exprs inits e

def exprs : List Form → Emitter → Emitter
  | [], e => e
  | f :: fs, e => exprs fs (expr f e)

end

def emitDefine (name : String) (body : Form) (e : Emitter) : Emitter :=
  (expr body e).finish (.define name)

/-- A definition at the top of a module. -/
inductive Item
  | function (name : String) (body : Form)
  | value (name : String) (body : Form)

def emitItem (e : Emitter) : Item → Emitter
  | .function name body => emitDefine name body e
  | .value name body => emitDefine name body e.memoize

def emitModule (items : List Item) : Emitter := items.foldl emitItem ⟨false, 0, 0, 0, []⟩

mutual

def Form.loopFree : Form → Bool
  | .form operands => loopFrees operands
  | .lambda body => body.loopFree
  | .loop _ _ => false

def loopFrees : List Form → Bool
  | [] => true
  | f :: fs => f.loopFree && loopFrees fs

end

/-! ### Runs -/

/-- An instance of the module: its data slots, and everything else. -/
structure Instance (S : Type) where
  slots : Nat → I64
  rest : S

variable {S : Type}

def Instance.cache (i : Instance S) (slot : Nat) (w : I64) : Instance S :=
  { i with slots := fun a => if a = slot then w else i.slots a }

/-- The initialiser is run, unless its guard's slot has its value. -/
def call (guard : Option Nat) (init : S → I64 × S) (i : Instance S) : I64 × Bool × Instance S :=
  match guard with
  | none => ((init i.rest).1, true, { i with rest := (init i.rest).2 })
  | some slot =>
      if i.slots slot ≠ 0 then (i.slots slot, false, i)
      else
        let (w, rest) := init i.rest
        (w, true, Instance.cache { i with rest := rest } slot w)

/-- What a program does, as one of its value defines sees it. -/
inductive Step (S : Type)
  | reference
  | other (f : S → S)

/-- The values of the references, in order, and how often the initialiser was run. -/
def run (guard : Option Nat) (init : S → I64 × S) :
    List (Step S) → Instance S → List I64 × Nat × Instance S
  | [], i => ([], 0, i)
  | .reference :: steps, i =>
      let (w, ran, i) := call guard init i
      let (ws, runs, i) := run guard init steps i
      (w :: ws, ran.toNat + runs, i)
  | .other f :: steps, i => run guard init steps { i with rest := f i.rest }

/-- In every run of a fresh instance the initialiser is run at most once, and all references have
one value. -/
def Once (guard : Option Nat) (init : S → I64 × S) (start : S) : Prop :=
  ∀ steps, (run guard init steps ⟨fun _ => 0, start⟩).2.1 ≤ 1 ∧
    ∃ w, ∀ v ∈ (run guard init steps ⟨fun _ => 0, start⟩).1, v = w

/-- The functions that are emitted for a value define. -/
def emitted (before : List Item) (name : String) (body : Form) : List Func :=
  (emitItem (emitModule before) (.value name body)).funcs.drop (emitModule before).funcs.length

/-- The guard is on the define's own function and on no other, and its initialiser runs once. -/
def EvaluatedOnce (before : List Item) (name : String) (body : Form) (init : S → I64 × S)
    (start : S) : Prop :=
  ((emitted before name body).filter (·.guard.isSome)).map Func.name = [.define name] ∧
    ∀ f ∈ emitted before name body, f.name = .define name → Once f.guard init start

/-! ### Who takes the memo -/

def guarded (fs : List Func) : List Func := fs.filter (·.guard.isSome)

theorem guarded_append (fs gs : List Func) : guarded (fs ++ gs) = guarded fs ++ guarded gs :=
  List.filter_append fs gs

/-- What code adds to the module: functions of its own, one of them guarded if a memo was pending
and the code has a loop. -/
structure Adds (loopFree : Bool) (e e' : Emitter) (new : List Func) : Prop where
  funcs : e'.funcs = e.funcs ++ new
  memo : e'.memoizeNext = (e.memoizeNext && loopFree)
  guards : (guarded new).length = if e.memoizeNext && !loopFree then 1 else 0
  names : ∀ f ∈ new, ∀ name, f.name ≠ .define name

theorem Adds.append {a b : Bool} {e e' e'' : Emitter} {new new' : List Func}
    (first : Adds a e e' new) (second : Adds b e' e'' new') :
    Adds (a && b) e e'' (new ++ new') := by
  refine ⟨by rw [second.funcs, first.funcs, List.append_assoc], ?_, ?_, fun f mem => ?_⟩
  · rw [second.memo, first.memo, Bool.and_assoc]
  · rw [guarded_append, List.length_append, first.guards, second.guards, first.memo]
    cases e.memoizeNext <;> cases a <;> cases b <;> rfl
  · rcases List.mem_append.mp mem with mem | mem
    · exact first.names f mem
    · exact second.names f mem

theorem finish_funcs (e : Emitter) (name : FuncName) :
    (e.finish name).funcs =
      e.funcs ++ [⟨name, if e.memoizeNext then some e.nextDataOffset else none⟩] := by
  unfold Emitter.finish
  split_ifs
  · rfl
  · rfl

theorem finish_adds (e : Emitter) (id : Nat) :
    ∃ guard, Adds false e (e.finish (.loop id)) [⟨.loop id, guard⟩] := by
  have names (guard : Option Nat) : ∀ f ∈ [(⟨.loop id, guard⟩ : Func)], ∀ name,
      f.name ≠ .define name := by
    intro f mem name
    rw [List.mem_singleton.mp mem]
    exact FuncName.noConfusion
  unfold Emitter.finish
  cases memo : e.memoizeNext
  · rw [if_neg Bool.false_ne_true]
    exact ⟨none, rfl, by rw [Bool.and_false], by rw [memo]; rfl, names none⟩
  · rw [if_pos rfl]
    exact ⟨some e.nextDataOffset, rfl, by rw [Bool.and_false], by rw [memo]; rfl, names _⟩

mutual

theorem expr_adds (f : Form) (e : Emitter) : ∃ new, Adds f.loopFree e (expr f e) new := by
  cases f with
  | form operands =>
      obtain ⟨new, adds⟩ := exprs_adds operands e
      exact ⟨new, by rwa [expr, Form.loopFree]⟩
  | lambda body =>
      obtain ⟨new, adds⟩ := expr_adds body { e with lambdas := e.lambdas + 1 }
      refine ⟨new ++ [⟨.lambda e.lambdas, none⟩], ?_, ?_, ?_, fun f mem => ?_⟩
      · rw [expr, ← List.append_assoc, ← adds.funcs]
      · rw [expr, Form.loopFree]
        exact adds.memo
      · rw [guarded_append, List.length_append, adds.guards, Form.loopFree]
        rfl
      · rcases List.mem_append.mp mem with mem | mem
        · exact adds.names f mem
        · intro name
          rw [List.mem_singleton.mp mem]
          exact FuncName.noConfusion
  | loop inits body =>
      obtain ⟨new, first⟩ := expr_adds body { e with loops := e.loops + 1 }
      obtain ⟨guard, second⟩ := finish_adds (expr body { e with loops := e.loops + 1 }) e.loops
      obtain ⟨new', third⟩ := exprs_adds inits
        ((expr body { e with loops := e.loops + 1 }).finish (.loop e.loops))
      have all := (first.append second).append third
      rw [Bool.and_false, Bool.false_and] at all
      rw [expr, Form.loopFree]
      exact ⟨_, all.funcs, all.memo, all.guards, all.names⟩

theorem exprs_adds (fs : List Form) (e : Emitter) :
    ∃ new, Adds (loopFrees fs) e (exprs fs e) new := by
  cases fs with
  | nil =>
      rw [exprs, loopFrees]
      refine ⟨[], (List.append_nil _).symm, (Bool.and_true _).symm, ?_, fun f mem => nomatch mem⟩
      rw [Bool.not_true, Bool.and_false]
      rfl
  | cons f fs =>
      obtain ⟨new, first⟩ := expr_adds f e
      obtain ⟨new', second⟩ := exprs_adds fs (expr f e)
      rw [exprs, loopFrees]
      exact ⟨new ++ new', first.append second⟩

end

/-- The functions of a value define: those of its code, and then its own. -/
theorem emitted_eq (before : List Item) (name : String) (body : Form) :
    ∃ new, emitted before name body =
        new ++ [⟨.define name, if body.loopFree then
          some (expr body (emitModule before).memoize).nextDataOffset
          else none⟩] ∧
      (guarded new).length = (if body.loopFree then 0 else 1) ∧
      ∀ f ∈ new, ∀ name, f.name ≠ .define name := by
  obtain ⟨new, adds⟩ := expr_adds body (emitModule before).memoize
  have memo : (expr body (emitModule before).memoize).memoizeNext =
      body.loopFree := by
    rw [adds.memo]
    exact Bool.true_and _
  refine ⟨new, ?_, ?_, adds.names⟩
  · rw [emitted, emitItem, emitDefine, finish_funcs, adds.funcs, memo, List.append_assoc]
    exact List.drop_left
  · rw [adds.guards]
    cases body.loopFree <;> rfl

/-- A define takes its own memo exactly if no loop is lifted out of its initialiser. -/
theorem memo_consumed_iff (before : List Item) (name : String) (body : Form) :
    (guarded (emitted before name body)).map Func.name = [.define name] ↔
      body.loopFree = true := by
  obtain ⟨new, funcs, guards, names⟩ := emitted_eq before name body
  rw [funcs, guarded_append, List.map_append]
  cases free : body.loopFree
  · rw [free, if_neg Bool.false_ne_true] at guards
    obtain ⟨f, single⟩ := List.length_eq_one_iff.mp guards
    have mem : f ∈ new := by
      have inside : f ∈ guarded new := by
        rw [single]
        exact List.mem_singleton_self f
      exact (List.mem_filter.mp inside).1
    refine iff_of_false (fun same => ?_) Bool.false_ne_true
    rw [single] at same
    exact names f mem name (List.cons.inj same).1
  · rw [free, if_pos rfl] at guards
    rw [List.length_eq_zero_iff.mp guards]
    exact iff_of_true rfl rfl

/-! ### The slots of the guards -/

/-- Every guard has a slot of its own, below the next one. -/
structure SlotsApart (e : Emitter) : Prop where
  nodup : (e.funcs.filterMap Func.guard).Nodup
  below : ∀ slot ∈ e.funcs.filterMap Func.guard, slot < e.nextDataOffset

theorem SlotsApart.unguarded {e e' : Emitter} (apart : SlotsApart e) (name : FuncName)
    (funcs : e'.funcs = e.funcs ++ [⟨name, none⟩]) (offset : e'.nextDataOffset = e.nextDataOffset) :
    SlotsApart e' := by
  have same : e'.funcs.filterMap Func.guard = e.funcs.filterMap Func.guard := by
    rw [funcs, List.filterMap_append]
    exact List.append_nil _
  exact ⟨by rw [same]; exact apart.nodup, by rw [same, offset]; exact apart.below⟩

theorem SlotsApart.finish {e : Emitter} (apart : SlotsApart e) (name : FuncName) :
    SlotsApart (e.finish name) := by
  unfold Emitter.finish
  split_ifs
  · have slots : (e.funcs ++ [(⟨name, some e.nextDataOffset⟩ : Func)]).filterMap Func.guard =
        e.funcs.filterMap Func.guard ++ [e.nextDataOffset] := List.filterMap_append
    refine ⟨?_, fun slot mem => ?_⟩
    · rw [slots, List.nodup_append]
      refine ⟨apart.nodup, List.pairwise_singleton _ _, fun slot mem slot' last => ?_⟩
      rw [List.mem_singleton.mp last]
      exact Nat.ne_of_lt (apart.below slot mem)
    · rw [slots] at mem
      change slot < (e.nextDataOffset + 8 + 7) / 8 * 8
      rcases List.mem_append.mp mem with mem | mem
      · have before := apart.below slot mem
        omega
      · have last := List.mem_singleton.mp mem
        omega
  · exact apart.unguarded name rfl rfl

mutual

theorem expr_slotsApart (f : Form) {e : Emitter} (apart : SlotsApart e) :
    SlotsApart (expr f e) := by
  cases f with
  | form operands =>
      rw [expr]
      exact exprs_slotsApart operands apart
  | lambda body =>
      have inner := expr_slotsApart body (e := { e with lambdas := e.lambdas + 1 })
        ⟨apart.nodup, apart.below⟩
      rw [expr]
      exact inner.unguarded (.lambda e.lambdas) rfl rfl
  | loop inits body =>
      have inner := expr_slotsApart body (e := { e with loops := e.loops + 1 })
        ⟨apart.nodup, apart.below⟩
      rw [expr]
      exact exprs_slotsApart inits (inner.finish (.loop e.loops))

theorem exprs_slotsApart (fs : List Form) {e : Emitter} (apart : SlotsApart e) :
    SlotsApart (exprs fs e) := by
  cases fs with
  | nil =>
      rw [exprs]
      exact apart
  | cons f fs =>
      rw [exprs]
      exact exprs_slotsApart fs (expr_slotsApart f apart)

end

/-- No two guards of a module share a slot. -/
theorem emitModule_slotsApart (items : List Item) : SlotsApart (emitModule items) := by
  have run (e : Emitter) (apart : SlotsApart e) : SlotsApart (items.foldl emitItem e) := by
    induction items generalizing e with
    | nil => exact apart
    | cons item items ih =>
        refine ih _ ?_
        cases item with
        | function name body => exact (expr_slotsApart body apart).finish _
        | value name body =>
            exact (expr_slotsApart body (e := e.memoize) ⟨apart.nodup, apart.below⟩).finish _
  exact run _ ⟨List.nodup_nil, fun slot mem => nomatch mem⟩

/-! ### How often the initialiser runs -/

theorem run_reference (guard : Option Nat) (init : S → I64 × S) (steps : List (Step S))
    (i : Instance S) :
    run guard init (.reference :: steps) i =
      ((call guard init i).1 :: (run guard init steps (call guard init i).2.2).1,
        (call guard init i).2.1.toNat + (run guard init steps (call guard init i).2.2).2.1,
        (run guard init steps (call guard init i).2.2).2.2) := rfl

theorem call_cached {slot : Nat} {init : S → I64 × S} {i : Instance S} (cached : i.slots slot ≠ 0) :
    call (some slot) init i = (i.slots slot, false, i) := if_pos cached

theorem call_empty {slot : Nat} {init : S → I64 × S} {i : Instance S} (empty : i.slots slot = 0) :
    call (some slot) init i =
      ((init i.rest).1, true,
        Instance.cache { i with rest := (init i.rest).2 } slot (init i.rest).1) :=
  if_neg (not_not.mpr empty)

theorem cache_slots (i : Instance S) (slot : Nat) (w : I64) : (i.cache slot w).slots slot = w :=
  if_pos rfl

theorem run_cached {slot : Nat} (init : S → I64 × S) (steps : List (Step S)) (i : Instance S)
    (cached : i.slots slot ≠ 0) :
    (run (some slot) init steps i).2.1 = 0 ∧
      ∀ v ∈ (run (some slot) init steps i).1, v = i.slots slot := by
  induction steps generalizing i with
  | nil => exact ⟨rfl, fun v mem => nomatch mem⟩
  | cons step steps ih =>
      cases step with
      | reference =>
          obtain ⟨runs, values⟩ := ih i cached
          rw [run_reference, call_cached cached]
          refine ⟨by rw [runs]; rfl, fun v mem => ?_⟩
          rcases List.mem_cons.mp mem with rfl | mem
          · rfl
          · exact values v mem
      | other f => exact ih { i with rest := f i.rest } cached

/-- From an empty slot on. -/
theorem run_empty {slot : Nat} {init : S → I64 × S} (nonzero : ∀ s, (init s).1 ≠ 0)
    (steps : List (Step S)) (i : Instance S) (empty : i.slots slot = 0) :
    (run (some slot) init steps i).2.1 ≤ 1 ∧
      ∃ w, ∀ v ∈ (run (some slot) init steps i).1, v = w := by
  induction steps generalizing i with
  | nil => exact ⟨Nat.zero_le 1, 0, fun v mem => nomatch mem⟩
  | cons step steps ih =>
      cases step with
      | reference =>
          obtain ⟨runs, values⟩ := run_cached init steps
            (Instance.cache { i with rest := (init i.rest).2 } slot (init i.rest).1)
            (by rw [cache_slots]; exact nonzero i.rest)
          rw [cache_slots] at values
          rw [run_reference, call_empty empty]
          refine ⟨by rw [runs]; exact Nat.le_refl 1, (init i.rest).1, fun v mem => ?_⟩
          rcases List.mem_cons.mp mem with rfl | mem
          · rfl
          · exact values v mem
      | other f => exact ih { i with rest := f i.rest } empty

/-- Without a guard, two references run the initialiser twice. -/
theorem not_once_unguarded (init : S → I64 × S) (start : S) : ¬ Once none init start := by
  intro once
  exact absurd (once [.reference, .reference]).1 (show ¬(1 + (1 + 0) ≤ 1) by decide)

theorem once_guarded_iff (slot : Nat) (init : S → I64 × S) (start : S) :
    Once (some slot) init start ↔ ∀ s, (init s).1 ≠ 0 := by
  constructor
  · intro once s zero
    have twice := (once [.other fun _ => s, .reference, .reference]).1
    change (run (some slot) init [.reference, .reference] ⟨fun _ => 0, s⟩).2.1 ≤ 1 at twice
    rw [run_reference, call_empty rfl, run_reference,
      call_empty (by rw [cache_slots]; exact zero)] at twice
    exact absurd twice (show ¬(1 + (1 + 0) ≤ 1) by decide)
  · intro nonzero steps
    exact run_empty nonzero steps _ rfl

/-- The guard is the define's own exactly if nothing in the initialiser is lifted into a function,
and it holds exactly if the initialiser never yields the zero word. -/
theorem evaluatedOnce_iff (before : List Item) (name : String) (body : Form) (init : S → I64 × S)
    (start : S) :
    EvaluatedOnce before name body init start ↔
      body.loopFree = true ∧ ∀ s, (init s).1 ≠ 0 := by
  obtain ⟨new, funcs, -, names⟩ := emitted_eq before name body
  refine (and_congr_left' (memo_consumed_iff before name body)).trans
    (and_congr_right fun free => ?_)
  rw [funcs, free, if_pos rfl]
  constructor
  · intro once
    exact (once_guarded_iff _ init start).mp
      (once _ (List.mem_append_right _ (List.mem_singleton_self _)) rfl)
  · intro nonzero f mem own
    rcases List.mem_append.mp mem with mem | mem
    · exact absurd own (names f mem name)
    · rw [List.mem_singleton.mp mem]
      exact (once_guarded_iff _ init start).mpr nonzero

/-- An initialiser that yields the number zero runs at each reference; and a loop takes the memo of
the define around it. -/
theorem evaluatedOnce_wrong :
    ¬ EvaluatedOnce [] "k" (.form []) (fun runs : Nat => (0, runs + 1)) 0 ∧
      ¬ EvaluatedOnce [] "k" (.loop [] (.form [])) (fun runs : Nat => (8, runs + 1)) 0 := by
  constructor
  · intro once
    have own := once.2 ⟨.define "k", some 0⟩ (List.mem_singleton_self _) rfl
    exact (once_guarded_iff 0 _ _).mp own 0 rfl
  · intro once
    exact Bool.false_ne_true ((memo_consumed_iff _ _ _).mp once.1)

end MemoGuard

end LispRlm.WasmEmit
