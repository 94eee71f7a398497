import LispRlm.Instrument.Modules

/-! Runs under the meter that are not stopped by it are the runs of the module as it was. -/

namespace LispRlm.Instrument

open Foundation (Flow)
open Foundation.Flow (Config Result Follows split)

variable {P W : Type}

/-- The operators without the points between them. -/
def eraseMark : Marked P → Flow (Operator P) BlockType → Flow (Operator P) BlockType
  | .point _, rest => rest
  | .op op, rest => .step op rest

def Marked.operator? : Marked P → Option (Operator P)
  | .point _ => none
  | .op o => some o

theorem operators_marks (points : List GasPoint) (operators : List (Operator P × Nat)) :
    (marks points operators).filterMap Marked.operator? = operators.map (·.1) := by
  induction operators generalizing points with
  | nil => rfl
  | cons head operators ih =>
      have none_ (points : List GasPoint) :
          (points.map Marked.point).filterMap (Marked.operator? (P := P)) = [] := by
        induction points with
        | nil => rfl
        | cons p points ih => exact ih
      rw [marks, List.filterMap_append, none_, List.nil_append, List.map_cons,
        ← ih (points.dropWhile (·.offset = head.2))]
      rfl

theorem stream_erase (body : Flow (Marked P) BlockType) :
    stream id (body.expand eraseMark) = (stream .op body).filterMap Marked.operator? := by
  induction body with
  | done => rfl
  | step mark rest ih =>
      cases mark with
      | point p => exact ih
      | op op => exact congrArg (op :: ·) ih
  | block t body rest ihBody ihRest | loop t body rest ihBody ihRest
  | ifThen t body rest ihBody ihRest =>
      rw [Flow.expand, stream, stream, ihBody, ihRest]
      simp [Marked.operator?]
  | ifElse t yes no rest ihYes ihNo ihRest =>
      rw [Flow.expand, stream, stream, ihYes, ihNo, ihRest]
      simp [Marked.operator?]

/-- Without the points, the code of a function is the stream of its operators. -/
theorem MetersFunction.operators {analysis : AnalysisOutcome} {types : List FuncType}
    {idx type : Nat} {body : FunctionBody P} {f : MeteredFunction P}
    (meters : MetersFunction analysis types idx type body f) :
    body.operators.map (·.1) = Instrument.stream id (f.body.expand eraseMark) ++ [.end_] := by
  rcases meters.stream with ⟨costs, kinds, offsets, _, _, _, whole⟩
  rw [← operators_marks (points offsets costs kinds), whole, List.filterMap_append, stream_erase]
  rfl

/-- Host functions that are not metered. -/
abbrev FreeHosts (W : Type) := Nat → List Value → W → Except Failure (List Value × W)

def Failure.Exhausted (e : Failure) : Prop :=
  e = exceeded ∨ e = .message "WasmTrap: StackOverflow"

namespace Program

variable (p : Program P W) (free : FreeHosts W)

/-- What the host functions do apart from the gas. -/
structure Unmetered : Prop where
  done : ∀ {id : Nat} {host : FuncType × Host W} {args gas w values gas' w'},
    p.hosts[id]? = some host → host.2 args gas w = .done values gas' w' →
      free id args w = .ok (values, w')
  fail : ∀ {id : Nat} {host : FuncType × Host W} {args gas w e},
    p.hosts[id]? = some host → host.2 args gas w = .fail e →
      e.Exhausted ∨ free id args w = .error e

def original : Instance P W where
  types := p.types
  act := p.act
  table := p.table
  resolve f := (p.functionType f).map fun _ => .fn f
  typeOf
    | .hook _ => none
    | .fn id => p.functionType id

def callOriginal (inside : MeteredFunction P → List Value → Shared W → Answer W) : Invoke W
  | .hook _, _, _ => .invalid
  | .fn id, args, s =>
      match p.hosts[id]? with
      | some _ =>
          match free id args s.world with
          | .ok (values, world) => .returned values { s with world := world }
          | .error e => .fail e
      | none =>
          match p.functions[id - p.hosts.length]? with
          | some f => if args.length = f.type.params.length then inside f args s else .invalid
          | none => .invalid

def enterOriginal (fuel : Nat) (invoke : Invoke W) (f : MeteredFunction P) (args : List Value)
    (s : Shared W) : Answer W :=
  finish p.original f.type.results.length invoke
    (Flow.run (machine p.original (exec p.original invoke)) fuel (f.body.expand eraseMark)
      ⟨[], ⟨args.reverse ++ f.locals.map ValType.default, s⟩⟩)

/-- A call in the module as it was. -/
def invokeOriginal : Nat → Invoke W
  | 0 => p.callOriginal free fun _ _ _ => .outOfFuel
  | fuel + 1 => p.callOriginal free (p.enterOriginal fuel (invokeOriginal fuel))

end Program

/-- The same globals and the same world, apart from the gas. -/
structure Erased (s : Shared (Metered W)) (s' : Shared W) : Prop where
  globals : s'.globals = s.globals
  world : s'.world = s.world.world

theorem Erased.keeps : Keeps (Erased (W := W)) (fun _ _ => True) Metered.Same where
  getGlobal s s' n v related found := by rw [related.globals, found]
  setGlobal s s' n v related _ := ⟨by rw [related.globals], related.world⟩
  world _ _ related := related.world
  setWorld s s' w w' related _ same := ⟨related.globals, same⟩

theorem Program.matched (p : Program P W) :
    Matches 0 (fun _ _ => True) Metered.Same p.metered p.original where
  types idx type known := known
  act op stack m w same := by
    change Effects _ _ ((p.act op stack m.world).metered m) (p.act op stack w)
    rw [same]
    cases p.act op stack m.world with
    | done stack world => exact .done stack trivial rfl
    | trap => exact .trap
    | invalid => exact .invalid _
  table table n m w same := by
    change p.table m.world table n = p.table w table n
    rw [same]
  resolve f callee known := known
  typeOf callee type known := known

/-- What holds where code is left for good. -/
def Erased.Left (s : Frame (Metered W)) (s' : Frame W) : Prop := Erased s.shared s'.shared

section Steps

variable {p : Program P W} {localIdx : Nat} {invoke : Invoke (Metered W)} {invoke' : Invoke W}

/-- An operator, or a point that is passed. -/
theorem erase_step
    (calls : ∀ callee args s s', Erased s s' →
      Answers Erased Failure.Exhausted (invoke callee args s) (invoke' callee args s'))
    (mark : Marked P) (fuel : Nat) (stack : List Value) {s : Frame (Metered W)} {s' : Frame W}
    (related : FrameRel 0 localIdx Erased s s') :
    Flow.Silent Failure.Exhausted (execMarked p.metered invoke mark ⟨stack, s⟩) ∨
      ∃ r, Step 0 localIdx Erased Erased.Left Failure.Exhausted
          (execMarked p.metered invoke mark ⟨stack, s⟩) r ∧
        ∀ rest, Flow.run (machine p.original (exec p.original invoke')) fuel (eraseMark mark rest)
          ⟨stack, s'⟩ =
            r.bind (Flow.run (machine p.original (exec p.original invoke')) fuel rest) := by
  cases mark with
  | point point =>
      rw [execMarked]
      dsimp only
      cases due point stack with
      | none => exact .inl trivial
      | some fee =>
          dsimp only
          rw [spend]
          split
          · exact .inl (.inl rfl)
          · exact .inr ⟨.ok ⟨stack, s'⟩, .ok ⟨related.locals, related.count, related.shared.globals,
              related.shared.world⟩, fun rest => rfl⟩
  | op op =>
      right
      refine ⟨exec p.original invoke' op ⟨stack, s'⟩, ?_, fun rest => rfl⟩
      rw [execMarked]
      by_cases copied : op.Copied
      · exact exec_step Erased.keeps p.matched calls copied related
      have left : Erased.Left s s' := related.shared
      have resolved {f : Nat} {callee : Callee} (known : p.metered.resolve f = some callee) :
          p.original.resolve f = some callee := known
      cases op with
      | refFunc f =>
          rw [exec, exec]
          cases known : p.metered.resolve f with
          | none => exact .invalid _
          | some callee =>
              rw [resolved known]
              exact .ok related
      | call f =>
          rw [exec, exec]
          cases known : p.metered.resolve f with
          | none => exact .invalid _
          | some callee =>
              rw [resolved known]
              exact applyCall_step p.matched calls callee related
      | returnCall f =>
          rw [exec, exec]
          cases known : p.metered.resolve f with
          | none => exact .invalid _
          | some callee =>
              rw [resolved known]
              exact .tail callee left
      | returnCallIndirect type table =>
          rw [exec, exec]
          exact indirect_step p.matched type table related.shared.world
            (fun callee _ => .tail callee left) stack
      | return_ => exact .return_ left
      | _ => exact absurd trivial copied

/-- The end of a function. -/
theorem finish_erased
    (again : ∀ callee args s s', Erased s s' →
      Answers Erased Failure.Exhausted (invoke callee args s) (invoke' callee args s'))
    (results : Nat) {x : Outcome (Metered W)} {y : Outcome W}
    (follows : Step 0 localIdx Erased Erased.Left Failure.Exhausted x y) :
    Answers Erased Failure.Exhausted (finish p.metered results invoke x)
      (finish p.original results invoke' y) := by
  have closed (stack : List Value) {s : Shared (Metered W)} {s' : Shared W}
      (left : Erased s s') : Answers Erased Failure.Exhausted (giveBack results stack s)
        (giveBack results stack s') := by
    rw [giveBack, giveBack]
    cases split results stack with
    | none => exact .invalid _
    | some parts => exact .returned left
  cases follows with
  | @ok stack s s' related => exact closed stack related.shared
  | @branch depth stack s s' related =>
      cases depth with
      | zero => exact closed stack related.shared
      | succ depth => exact .invalid _
  | @return_ stack s s' left => exact closed stack left
  | @tail callee stack s s' left =>
      rw [finish, finish]
      cases known : p.metered.typeOf callee with
      | none => exact .invalid _
      | some type =>
          rw [p.matched.typeOf callee type known]
          dsimp only
          cases split type.params.length stack with
          | none => exact .invalid _
          | some parts => exact again callee parts.1 _ _ left
  | fail e => exact .fail e
  | letGo r known => exact .letGo _ known
  | invalid r => exact .invalid _
  | outOfFuel => exact .outOfFuel

end Steps

theorem stackExhausted_exhausted (gas : BitVec 64) : (stackExhausted gas).Exhausted := by
  rw [stackExhausted]
  split
  · rename_i e failed
    exact .inl (chargeGas_error failed)
  · exact .inr rfl

theorem spend_exhausted {fee : Nat} {s : Frame (Metered W)} {e : Failure}
    (failed : spend fee s = .error e) : e.Exhausted := by
  rw [spend] at failed
  split at failed
  · exact .inl (Except.error.inj failed).symm
  · cases failed

theorem spend_ok {fee : Nat} {s t : Frame (Metered W)} (spent : spend fee s = .ok t) :
    t = s.setGas (s.gas - BitVec.ofNat 64 fee) := by
  rw [spend] at spent
  split at spent
  · cases spent
  · exact (Except.ok.inj spent).symm

section Calls

variable {p : Program P W} {free : FreeHosts W}

theorem enter_original {inner again : Invoke (Metered W)} {invoke' : Invoke W}
    (calls : ∀ callee args s s', Erased s s' →
      Answers Erased Failure.Exhausted (inner callee args s) (invoke' callee args s'))
    (tails : ∀ callee args s s', Erased s s' →
      Answers Erased Failure.Exhausted (again callee args s) (invoke' callee args s'))
    (fuel : Nat) (budget : BitVec 64) (f : MeteredFunction P) (args : List Value)
    {s : Shared (Metered W)} {s' : Shared W} (related : Erased s s') :
    Answers Erased Failure.Exhausted (p.enter fuel budget inner again f args s)
      (p.enterOriginal fuel invoke' f args s') := by
  rw [Program.enter, Program.enterOriginal]
  by_cases short : budget < f.charge.toBitVec
  · rw [if_pos short]
    exact .letGo _ (stackExhausted_exhausted _)
  rw [if_neg short]
  cases spent : spend f.gas.toNat ⟨args.reverse ++ f.locals.map ValType.default, s⟩ with
  | error e => exact .letGo _ (spend_exhausted spent)
  | ok frame =>
      have entered : FrameRel 0 frame.locals.length Erased frame
          ⟨args.reverse ++ f.locals.map ValType.default, s'⟩ := by
        rw [spend_ok spent]
        exact ⟨⟨[], rfl, (List.append_nil _).symm⟩, rfl, related.globals, related.world⟩
      have arities (t : BlockType) (a : Nat × Nat)
          (known : (machine p.metered (execMarked p.metered inner)).arity t = some a) :
          (machine p.original (exec p.original invoke')).arity t = some a := known
      have truths (v : Value) (b : Bool)
          (known : (machine p.metered (execMarked p.metered inner)).truth v = some b) :
          (machine p.original (exec p.original invoke')).truth v = some b := known
      have all : f.body.All fun _ => True := Flow.All.of_forall (fun _ => trivial) f.body
      apply finish_erased tails
      apply Flow.run_expand arities truths _ all entered
      intro mark stack s s' _ related
      exact erase_step calls mark fuel stack related

theorem call_original (unmetered : p.Unmetered free) (callee : Callee) (args : List Value)
    {s : Shared (Metered W)} {s' : Shared W} (related : Erased s s')
    {inside : MeteredFunction P → List Value → Shared (Metered W) → Answer (Metered W)}
    {inside' : MeteredFunction P → List Value → Shared W → Answer W}
    (each : ∀ f, Answers Erased Failure.Exhausted (inside f args s) (inside' f args s')) :
    Answers Erased Failure.Exhausted (p.call inside callee args s)
      (p.callOriginal free inside' callee args s') := by
  cases callee with
  | hook n => exact .invalid _
  | fn id =>
      rw [Program.call, Program.callOriginal]
      cases known : p.hosts[id]? with
      | some host =>
          dsimp only
          rw [runHost, related.world]
          cases answer : host.2 args s.world.gas s.world.world with
          | done values gas w =>
              rw [unmetered.done known answer]
              exact .returned ⟨related.globals, rfl⟩
          | fail e =>
              rcases unmetered.fail known answer with exhausted | same
              · exact .letGo _ exhausted
              · rw [same]
                exact .fail e
      | none =>
          dsimp only
          cases p.functions[id - p.hosts.length]? with
          | none => exact .invalid _
          | some f =>
              dsimp only
              split
              · exact each f
              · exact .invalid _

/-- A run under the meter that is not stopped by it is the run of the module as it was. -/
theorem invoke_original (unmetered : p.Unmetered free) (fuel : Nat) (budget : BitVec 64)
    (callee : Callee) (args : List Value) {s : Shared (Metered W)} {s' : Shared W}
    (related : Erased s s') :
    Answers Erased Failure.Exhausted (p.invoke fuel budget callee args s)
      (p.invokeOriginal free fuel callee args s') := by
  induction fuel generalizing budget callee args s s' with
  | zero => exact call_original unmetered callee args related fun _ => .outOfFuel
  | succ fuel ih =>
      exact call_original unmetered callee args related fun f =>
        enter_original (fun callee args _ _ related => ih _ callee args related)
          (fun callee args _ _ related => ih _ callee args related) fuel budget f args related

end Calls

/-- The module as it was, and the instrumented module: there the globals of the module come before
the gas and the stack budget. -/
structure Original (budget : BitVec 64) (s s' : Shared W) : Prop where
  globals : ∃ gas, s'.globals = s.globals ++ [.i64 gas, .i64 budget]
  world : s'.world = s.world

/-- A call in the instrumented module that does not exhaust the gas or the stack budget does what
the call does in the module as it was, and leaves the stack budget as it found it. -/
theorem instrument_original {analysis : AnalysisOutcome} {m : Module P} {out : Instrumented P}
    (made : instrument analysis m = .ok out) {p : Program P W} (meters : Meters analysis m p)
    {free : FreeHosts W} (unmetered : p.Unmetered free) :
    ∃ q : Prepared P W, Runs out q ∧ q.hosts = p.hosts ∧ q.act = p.act ∧ q.table = p.table ∧
      ∀ fuel budget callee args globals gas world, globals.length = q.globals →
        p.invoke fuel budget callee args ⟨globals, gas, world⟩ = .invalid ∨
          (∃ e, e.Exhausted ∧ q.invoke fuel callee args
            ⟨globals ++ [.i64 gas, .i64 budget], world⟩ = .fail e) ∨
          Answers (Original budget) (fun _ => False)
            (p.invokeOriginal free fuel callee args ⟨globals, world⟩)
            (q.invoke fuel callee args ⟨globals ++ [.i64 gas, .i64 budget], world⟩) := by
  rcases instrument_prepares made meters with ⟨q, runs, prepares⟩
  refine ⟨q, runs, prepares.hosts, prepares.act, prepares.table, ?_⟩
  intro fuel budget callee args globals gas world length
  have globals_ : SharedRel q.globals budget ⟨globals, gas, world⟩
      ⟨globals ++ [.i64 gas, .i64 budget], world⟩ := ⟨rfl, length, rfl⟩
  have erased : Erased ⟨globals, gas, world⟩ ⟨globals, world⟩ := ⟨rfl, rfl⟩
  have metered := invoke_answers prepares fuel budget callee args globals_
  have original := invoke_original unmetered fuel budget callee args erased
  generalize p.invoke fuel budget callee args ⟨globals, gas, world⟩ = x at metered original ⊢
  generalize q.invoke fuel callee args _ = y at metered ⊢
  generalize p.invokeOriginal free fuel callee args _ = z at original ⊢
  cases metered with
  | letGo a known => exact known.elim
  | invalid a => exact .inl rfl
  | @returned values s s' shared =>
      cases original with
      | returned same =>
          refine .inr (.inr (.returned ⟨⟨s.world.gas, ?_⟩, ?_⟩))
          · rw [shared.globals, same.globals]
          · rw [shared.world, same.world]
  | fail e =>
      cases original with
      | fail => exact .inr (.inr (.fail e))
      | letGo a exhausted => exact .inr (.inl ⟨e, exhausted, rfl⟩)
  | outOfFuel =>
      cases original with
      | outOfFuel => exact .inr (.inr .outOfFuel)

/-- There are no host functions to call. -/
theorem instrument_original_seven :
    ∃ out, instrument sevenAnalysis sevenModule = .ok out ∧
      ∃ q : Prepared Empty Unit, Runs out q ∧
        ((∃ e, e.Exhausted ∧ q.invoke 1 (.fn 0) [] ⟨[.i64 10000000, .i64 262144], ()⟩ = .fail e) ∨
          Answers (Original 262144) (fun _ => False) (.returned [.i64 7] ⟨[], ()⟩)
            (q.invoke 1 (.fn 0) [] ⟨[.i64 10000000, .i64 262144], ()⟩)) := by
  have made : ∃ out, instrument sevenAnalysis sevenModule = .ok out := ⟨_, rfl⟩
  rcases made with ⟨out, made⟩
  have unmetered : sevenProgram.Unmetered fun _ _ w => .ok ([], w) := by
    constructor
    · intro id host args gas w values gas' w' known
      cases known
    · intro id host args gas w e known
      cases known
  rcases instrument_original made sevenProgram_meters unmetered with ⟨q, runs, _, _, _, same⟩
  have two : (instrument sevenAnalysis sevenModule).map (·.globals) = .ok 2 := rfl
  rw [made] at two
  have count : out.globals = 2 := Except.ok.inj two
  have none_ : q.globals = 0 := Nat.add_right_cancel (runs.globals.symm.trans count)
  have call := same 1 262144 (.fn 0) [] [] 10000000 () none_.symm
  rcases call with invalid | rest
  · cases invalid
  · exact ⟨out, made, q, runs, rest⟩

end LispRlm.Instrument
