import LispRlm.Instrument.Streams

/-! Instrumented modules do what the meter says of the modules they were made from. -/

namespace LispRlm.Instrument

open Foundation (Flow)

variable {P W : Type}

/-! ### Functions -/

/-- The locals that a function declares, one by one. -/
def expandLocals (locals : List (Nat × ValType)) : List ValType :=
  locals.flatMap fun (n, t) => List.replicate n t

theorem localCount_ok {count total : Nat} {locals : List (Nat × ValType)}
    (counted : localCount count locals = .ok total) :
    total = count + (expandLocals locals).length := by
  induction locals generalizing count with
  | nil => exact (Except.ok.inj counted).symm
  | cons head locals ih =>
      rcases head with ⟨n, t⟩
      rw [localCount] at counted
      split at counted
      · rename_i next checked
        rw [checkedIndex] at checked
        split at checked
        · rw [ih counted, ← Option.some.inj checked, expandLocals, expandLocals,
            List.flatMap_cons, List.length_append, List.length_replicate, Nat.add_assoc]
        · cases checked
      · cases counted

/-- The function that is instrumented, as the meter runs it: its operators, with the points of the
analysis before them, are the stream of its code and the end of the function. -/
structure MetersFunction (analysis : AnalysisOutcome) (types : List FuncType) (idx type : Nat)
    (body : FunctionBody P) (f : MeteredFunction P) : Prop where
  type : types[type]? = some f.type
  locals : f.locals = expandLocals body.locals
  stream : ∃ costs kinds offsets, analysis.gasCosts[idx]? = some costs ∧
    analysis.gasKinds[idx]? = some kinds ∧ analysis.gasOffsets[idx]? = some offsets ∧
    marks (points offsets costs kinds) body.operators =
      Instrument.stream .op f.body ++ [.op .end_]
  sizes : ∃ stack frame, analysis.functionOperandStackSizes[idx]? = some stack ∧
    analysis.functionFrameSizes[idx]? = some frame ∧ f.charge = stackCharge stack frame ∧
    f.gas = frameGas frame
  charges : 0 < f.charge
  fits : f.body.All Marked.Fits

/-- The function of an instrumented module, as it runs. -/
structure RunsFunction (types : List FuncType) (type : Nat) (function : Function P)
    (f : PreparedFunction P) : Prop where
  type : types[type]? = some f.type
  locals : f.locals = expandLocals function.locals
  stream : function.code = Instrument.stream id f.body ++ [.end_]

theorem getIdx_ok {α : Type} {field : List α} {name : String} {idx : Nat} {x y : α}
    (found : getIdx field name idx = .ok x) (known : field[idx]? = some y) : x = y := by
  rw [getIdx, known] at found
  exact (Except.ok.inj found).symm

theorem bind_ok {α β : Type} {x : Except InstrumentError α} {f : α → Except InstrumentError β}
    {b : β} (made : x >>= f = .ok b) : ∃ a, x = .ok a ∧ f a = .ok b := by
  cases x with
  | error e => cases made
  | ok a => exact ⟨a, rfl, made⟩

theorem lookup_longer {α : Type} {idx : Nat} {x : α} {short long : List α}
    (found : short[idx]? = some x) (prefix_ : short <+: long) : long[idx]? = some x := by
  rcases prefix_ with ⟨more, same⟩
  rw [← same, List.getElem?_append_left (List.getElem?_eq_some_iff.mp found).1, found]

/-- The type of the block around the body: it takes nothing and leaves the function's results. -/
theorem blockType_arity {types typeSection : List FuncType} {idx : Nat} {type : FuncType}
    (found : types[idx]? = some type) (prefix_ : types <+: typeSection) :
    typeSection <+: (blockType type idx typeSection).2 ∧
      ∀ all, (blockType type idx typeSection).2 <+: all →
        arity all (blockType type idx typeSection).1 = some (0, type.results.length) := by
  rw [blockType.eq_def]
  split
  · rename_i none_
    exact ⟨List.prefix_refl _, fun all _ => by rw [arity, none_]; rfl⟩
  · rename_i t one
    exact ⟨List.prefix_refl _, fun all _ => by rw [arity, one]; rfl⟩
  · rename_i empty _ _
    refine ⟨List.prefix_refl _, fun all longer => ?_⟩
    rw [arity, lookup_longer found (prefix_.trans longer), Option.map_some, empty]
    rfl
  · refine ⟨List.prefix_append _ _, fun all longer => ?_⟩
    have last : (typeSection ++ [⟨[], type.results⟩])[typeSection.length]? =
        some ⟨[], type.results⟩ := by
      rw [List.getElem?_append_right (Nat.le_refl _), Nat.sub_self]
      rfl
    rw [arity, lookup_longer last longer]
    rfl

theorem transformCodeSection_ok {analysis : AnalysisOutcome} {types typeSection : List FuncType}
    {g idx type : Nat} {body : FunctionBody P} {function : Function P} {after : List FuncType}
    (made : transformCodeSection analysis types typeSection g idx body type =
      .ok (function, after)) {f : MeteredFunction P}
    (meters : MetersFunction analysis types idx type body f) (prefix_ : types <+: typeSection) :
    typeSection <+: after ∧ ∃ f', RunsFunction types type function f' ∧
      ∀ all, after <+: all → PreparesFunction all g f f' := by
  rcases meters.stream with ⟨costs, kinds, offsets, knownCosts, knownKinds, knownOffsets, whole⟩
  rcases meters.sizes with ⟨stack, frame, knownStack, knownFrame, charge, gas⟩
  rw [transformCodeSection, meters.type] at made
  dsimp only at made
  rcases bind_ok made with ⟨localIdx, counted, made⟩
  rcases bind_ok made with ⟨costs', foundCosts, made⟩
  rcases bind_ok made with ⟨kinds', foundKinds, made⟩
  rcases bind_ok made with ⟨offsets', foundOffsets, made⟩
  rcases bind_ok made with ⟨stack', foundStack, made⟩
  rcases bind_ok made with ⟨frame', foundFrame, made⟩
  rcases bind_ok made with ⟨entry, entered, made⟩
  rcases bind_ok made with ⟨code, emitted, made⟩
  have result := Prod.mk.inj (Except.ok.inj made)
  rw [getIdx_ok foundStack knownStack, getIdx_ok foundFrame knownFrame, ← charge] at entered
  rw [getIdx_ok foundStack knownStack, getIdx_ok foundFrame knownFrame, ← charge,
    getIdx_ok foundCosts knownCosts, getIdx_ok foundKinds knownKinds,
    getIdx_ok foundOffsets knownOffsets] at emitted
  have count : localIdx = f.type.params.length + f.locals.length := by
    rw [meters.locals]
    exact localCount_ok counted
  have types_ := blockType_arity meters.type prefix_
  refine ⟨result.2 ▸ types_.1, ⟨f.type, f.locals ++ [.i64, .i32],
    functionFlow (blockType f.type type typeSection).1 f.charge f.gas g
      (f.type.params.length + f.locals.length) f.body⟩, ?_, ?_⟩
  · refine ⟨meters.type, ?_, ?_⟩
    · rw [← result.1, meters.locals, expandLocals, expandLocals, List.flatMap_append]
      rfl
    · rw [prologue, if_pos meters.charges] at entered
      rcases map_ok entered with ⟨fees, made, same⟩
      rcases operatorsCode_marks whole emitted with ⟨first, second, inside, last, parts⟩
      rw [← gas] at made
      rw [← result.1, functionFlow, stream, stackFlow, stream_takeFlow,
        stream_gasFlow (count ▸ made), stream_expand (count ▸ inside), stream_steps, ← same, parts, ← Except.ok.inj last]
      simp [stream]
  · intro all longer
    exact ⟨rfl, rfl, ⟨_, types_.2 all (result.2 ▸ longer), rfl⟩, meters.fits⟩

/-! ### Modules -/

/-- The functions from number `idx` on, as the meter runs them. -/
def MetersAll (analysis : AnalysisOutcome) (types : List FuncType) :
    Nat → List Nat → List (FunctionBody P) → List (MeteredFunction P) → Prop
  | _, _, [], [] => True
  | idx, type :: functionTypes, body :: bodies, f :: fs =>
      MetersFunction analysis types idx type body f ∧
        MetersAll analysis types (idx + 1) functionTypes bodies fs
  | _, _, _, _ => False

def RunsAll (types : List FuncType) :
    List Nat → List (Function P) → List (PreparedFunction P) → Prop
  | _, [], [] => True
  | type :: functionTypes, function :: functions, f :: fs =>
      RunsFunction types type function f ∧ RunsAll types functionTypes functions fs
  | _, _, _ => False

theorem transformBodies_ok {analysis : AnalysisOutcome} {types : List FuncType} {g : Nat}
    {bodies : List (FunctionBody P)} {idx : Nat} {typeSection : List FuncType}
    {functionTypes : List Nat} {functions : List (Function P)} {after : List FuncType}
    (made : transformBodies analysis types g idx typeSection functionTypes bodies =
      .ok (functions, after)) {fs : List (MeteredFunction P)}
    (meters : MetersAll analysis types idx functionTypes bodies fs)
    (prefix_ : types <+: typeSection) :
    typeSection <+: after ∧ ∃ fs', RunsAll types functionTypes functions fs' ∧
      ∀ all, after <+: all → List.Forall₂ (PreparesFunction all g) fs fs' := by
  induction bodies generalizing idx typeSection functionTypes functions after fs with
  | nil =>
      rw [transformBodies] at made
      have result := Prod.mk.inj (Except.ok.inj made)
      cases fs with
      | nil =>
          rw [← result.1, ← result.2]
          exact ⟨List.prefix_refl _, [], by rw [RunsAll]; trivial, fun _ _ => .nil⟩
      | cons f fs =>
          exfalso
          cases functionTypes <;> exact meters
  | cons body bodies ih =>
      cases functionTypes with
      | nil => cases made
      | cons type functionTypes =>
          cases fs with
          | nil => exact meters.elim
          | cons f fs =>
              rw [transformBodies] at made
              split at made
              · cases made
              rename_i function section_ own
              split at made
              · cases made
              rename_i functions' section' later
              have result := Prod.mk.inj (Except.ok.inj made)
              rcases transformCodeSection_ok own meters.1 prefix_ with ⟨grows, f', runs, prepares⟩
              rcases ih later meters.2 (prefix_.trans grows) with ⟨grows', fs', runs', prepares'⟩
              rw [← result.1, ← result.2]
              refine ⟨grows.trans grows', f' :: fs', ⟨runs, runs'⟩, ?_⟩
              intro all longer
              exact .cons (prepares all (grows'.trans longer)) (prepares' all longer)

theorem RunsAll.mono {types more : List FuncType} (prefix_ : types <+: more)
    {functionTypes : List Nat} {functions : List (Function P)} {fs : List (PreparedFunction P)}
    (runs : RunsAll types functionTypes functions fs) :
    RunsAll more functionTypes functions fs := by
  induction functions generalizing functionTypes fs with
  | nil =>
      cases fs with
      | nil => rw [RunsAll]; trivial
      | cons f fs => cases functionTypes <;> exact runs.elim
  | cons function functions ih =>
      cases functionTypes with
      | nil => exact runs.elim
      | cons type functionTypes =>
          cases fs with
          | nil => exact runs.elim
          | cons f fs =>
              exact ⟨⟨lookup_longer runs.1.type prefix_, runs.1.locals, runs.1.stream⟩, ih runs.2⟩

theorem types_prefix {α : Type} {types more : List FuncType} (prefix_ : types <+: more)
    {imports : List Nat} {hosts : List (FuncType × α)}
    (known : hosts.map (fun host => some host.1) = imports.map (types[·]?)) :
    hosts.map (fun host => some host.1) = imports.map (more[·]?) := by
  rw [known]
  apply List.map_congr_left
  intro idx mem
  have found : types[idx]? ∈ hosts.map (fun host => some host.1) := by
    rw [known]
    exact List.mem_map_of_mem mem
  rcases List.mem_map.mp found with ⟨host, _, same⟩
  rw [← same, lookup_longer same.symm prefix_]

/-- The module that is instrumented, as the meter runs it, over any host functions of the types of
its imports. -/
structure Meters (analysis : AnalysisOutcome) (m : Module P) (p : Program P W) : Prop where
  types : p.types = m.types
  hosts : p.hosts.map (fun host => some host.1) = (m.imports.getD []).map (m.types[·]?)
  functions : MetersAll analysis m.types 0 m.functions m.bodies p.functions
  bodies : m.bodies ≠ []

/-- An instrumented module as it runs: the first three of its imports are the hooks, and the last
two of its globals the gas and the stack budget. -/
structure Runs (out : Instrumented P) (q : Prepared P W) : Prop where
  types : q.types = out.types
  imports : [0, 1, 2].map (fun n => (hook (W := W) n).map (·.1)) ++
    q.hosts.map (fun host => some host.1) = out.imports.map (out.types[·]?)
  globals : out.globals = q.globals + newGlobals
  functions : RunsAll out.types out.functions out.code q.functions

/-- The pass makes what runs in the place of the module. -/
theorem instrument_prepares {analysis : AnalysisOutcome} {m : Module P} {out : Instrumented P}
    (made : instrument analysis m = .ok out) {p : Program P W} (meters : Meters analysis m p) :
    ∃ q : Prepared P W, Runs out q ∧ Prepares p q := by
  rw [instrument] at made
  rcases bind_ok made with ⟨g, _, made⟩
  rcases bind_ok made with ⟨exports, _, made⟩
  rcases bind_ok made with ⟨start, _, made⟩
  rcases bind_ok made with ⟨elements, _, made⟩
  rcases bind_ok made with ⟨⟨code, types⟩, transformed, made⟩
  have result := Except.ok.inj made
  have some_ : m.bodies.isEmpty = false := by
    rw [List.isEmpty_eq_false_iff]
    exact meters.bodies
  have hooked : m.hooked = true := by
    rw [Module.hooked, some_, Bool.not_false, Bool.or_true]
  rcases transformBodies_ok transformed meters.functions (List.prefix_append _ _)
    with ⟨grows, fs', runs, prepares⟩
  refine ⟨⟨types, g, p.hosts, fs', p.act, p.table⟩, ?_, ?_⟩
  · rw [← result]
    refine ⟨rfl, ?_, ?_, runs.mono ((List.prefix_append _ _).trans grows)⟩
    · rw [hooked] at grows ⊢
      rw [if_pos rfl] at grows
      rw [if_pos rfl, List.map_append,
        ← types_prefix ((List.prefix_append _ _).trans grows) meters.hosts]
      congr 1
      have exhausted : types[m.types.length]? = some ⟨[], []⟩ := by
        apply lookup_longer _ grows
        rw [List.getElem?_append_right (Nat.le_refl _), Nat.sub_self]
        rfl
      have report : types[m.types.length + 1]? = some ⟨[.i64], []⟩ := by
        apply lookup_longer _ grows
        rw [List.getElem?_append_right (Nat.le_add_right _ 1), Nat.add_sub_cancel_left]
        rfl
      change _ = [types[m.types.length]?, types[m.types.length]?, types[m.types.length + 1]?]
      rw [exhausted, report]
      rfl
    · rw [some_, Bool.not_false, Bool.or_true, if_pos rfl]
  · refine ⟨?_, rfl, prepares types (List.prefix_refl _), rfl, rfl⟩
    rcases (List.prefix_append _ _).trans grows with ⟨more, same⟩
    exact ⟨more, by rw [← same, meters.types]⟩

/-- Every call in the instrumented module is the call under the meter. -/
theorem instrument_metered {analysis : AnalysisOutcome} {m : Module P} {out : Instrumented P}
    (made : instrument analysis m = .ok out) {p : Program P W} (meters : Meters analysis m p) :
    ∃ q : Prepared P W, Runs out q ∧ q.hosts = p.hosts ∧ q.act = p.act ∧ q.table = p.table ∧
      ∀ fuel budget callee args s s', SharedRel q.globals budget s s' →
        SameAnswers q.globals budget (p.invoke fuel budget callee args s)
          (q.invoke fuel callee args s') := by
  rcases instrument_prepares made meters with ⟨q, runs, prepares⟩
  exact ⟨q, runs, prepares.hosts, prepares.act, prepares.table,
    fun fuel budget callee args _ _ related =>
      invoke_answers prepares fuel budget callee args related⟩

/-- `7`, for a fee -/
def sevenBody : FunctionBody Empty where
  locals := [(1, .i32)]
  operators := [(.i64Const 7, 10), (.end_, 12)]

def sevenModule : Module Empty where
  types := [⟨[], [.i64]⟩]
  imports := none
  importedGlobals := 0
  functions := [0]
  globals := none
  exports := [("seven", .func, 0)]
  start := none
  elements := []
  bodies := [sevenBody]

def sevenAnalysis : AnalysisOutcome where
  gasCosts := [[⟨0, 822756⟩]]
  gasKinds := [[.other 0]]
  gasOffsets := [[10]]
  functionOperandStackSizes := [8]
  functionFrameSizes := [68]

def sevenProgram : Program Empty Unit where
  types := [⟨[], [.i64]⟩]
  hosts := []
  functions := [{
    type := ⟨[], [.i64]⟩
    locals := [.i32]
    body := .step (.point ⟨10, ⟨0, 822756⟩, .other 0⟩) (.step (.op (.i64Const 7)) .done)
    charge := 76
    gas := 7404804 }]
  act op := op.elim
  table _ _ _ := none

theorem sevenProgram_meters : Meters sevenAnalysis sevenModule sevenProgram where
  types := rfl
  hosts := rfl
  functions := by
    have fits : (⟨0, 822756⟩ : Fee).Fits :=
      (by decide : (0 : UInt64).toNat * (2 ^ 32 - 1) + (822756 : UInt64).toNat < 2 ^ 64)
    exact ⟨⟨rfl, rfl, ⟨_, _, _, rfl, rfl, rfl, rfl⟩, ⟨_, _, rfl, rfl, by decide, by decide⟩,
      by decide, fits, trivial, trivial⟩, trivial⟩
  bodies := List.cons_ne_nil _ _

/-- The call under the meter costs nine operations for the frame and one for the constant. -/
theorem instrument_metered_seven :
    ∃ out, instrument sevenAnalysis sevenModule = .ok out ∧
      ∃ q : Prepared Empty Unit, Runs out q ∧
        sevenProgram.invoke 1 262144 (.fn 0) [] ⟨[], 10000000, ()⟩ =
          .returned [.i64 7] ⟨[], 1772440, ()⟩ ∧
        ∀ s', SharedRel q.globals 262144 ⟨[], 10000000, ()⟩ s' →
          SameAnswers q.globals 262144 (.returned [.i64 7] ⟨[], 1772440, ()⟩)
            (q.invoke 1 (.fn 0) [] s') := by
  have made : ∃ out, instrument sevenAnalysis sevenModule = .ok out := ⟨_, rfl⟩
  rcases made with ⟨out, made⟩
  rcases instrument_metered made sevenProgram_meters with ⟨q, runs, _, _, _, same⟩
  have call : sevenProgram.invoke 1 262144 (.fn 0) [] ⟨[], 10000000, ()⟩ =
      .returned [.i64 7] ⟨[], 1772440, ()⟩ := rfl
  exact ⟨out, made, q, runs, call, fun s' related => call ▸ same 1 _ _ _ _ s' related⟩

end LispRlm.Instrument
