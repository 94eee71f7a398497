import LispRlm.Bytecode.Verifier

/-! What the verifier's verdict says of the runs of the code. -/

namespace LispRlm.Bytecode.Verifier

open Foundation

/-! ### The passes that look at each instruction -/

theorem eachOp_ok_iff {check : Nat → Op → Option VerificationError} {code : List Op} :
    eachOp check code = .ok () ↔ ∀ pc op, code[pc]? = some op → check pc op = none := by
  have none_iff : code.zipIdx.findSome? (fun p => check p.2 p.1) = none ↔
      ∀ pc op, code[pc]? = some op → check pc op = none := by
    rw [List.findSome?_eq_none_iff]
    constructor
    · intro each pc op here
      exact each (op, pc) (List.mk_mem_zipIdx_iff_getElem?.mpr here)
    · intro each p mem
      exact each p.2 p.1 (List.mem_zipIdx_iff_getElem?.mp mem)
  rw [eachOp, ← none_iff]
  split
  · rename_i found
    rw [found]
    simp
  · rename_i found
    rw [found]
    simp

theorem refuseWhen_eq_none_iff {refused : Prop} [Decidable refused] {e : VerificationError} :
    refuseWhen refused e = none ↔ ¬ refused := by
  rw [refuseWhen]
  split
  · rename_i yes
    simp [yes]
  · rename_i no
    simp [no]

/-- The slots that an instruction reads or writes. -/
def slots : Op → List Nat
  | .loadSlot s | .storeSlot s | .returnSlot s | .storeAndLoadSlot s | .dictMutSet s
  | .slotAddImm s _ | .slotSubImm s _ | .slotMulImm s _ | .slotDivImm s _ | .slotEqImm s _
  | .slotLtImm s _ | .slotLeImm s _ | .slotGtImm s _ | .slotGeImm s _
  | .jumpIfSlotLtImm s _ _ | .jumpIfSlotLeImm s _ _ | .jumpIfSlotGtImm s _ _
  | .jumpIfSlotGeImm s _ _ | .jumpIfSlotEqImm s _ _
  | .mapOp s | .filterOp s | .reduceOp s | .callCaptured s _ => [s]
  | .recurIncAccum counter accum _ _ _ => [counter, accum]
  | .getDefaultSlot a b c d => [a, b, c, d]
  | .recur n | .recurDirect n => List.range n
  | _ => []

theorem slots_of_checks {slotsLen closuresLen pc : Nat} {op : Op}
    (bounds : slotCheck slotsLen pc op = none)
    (consistent : consistencyCheck slotsLen closuresLen pc op = none) :
    ∀ s ∈ slots op, s < slotsLen := by
  intro s mem
  cases op <;> simp only [slotCheck, consistencyCheck, slots, refuseWhen_eq_none_iff,
    Option.or_eq_none_iff, List.findSome?_eq_none_iff, List.mem_cons, List.not_mem_nil, or_false,
    forall_eq_or_imp, forall_eq, List.mem_range, Nat.not_le, Nat.not_lt] at * <;>
    omega

theorem branchOrNext_le {len pc target pc' : Nat} (inside : pc < len) (bound : target < len)
    (mem : pc' ∈ branchOrNext pc target) : pc' ≤ len := by
  rw [branchOrNext] at mem
  split at mem
  · rcases List.mem_pair.mp mem with same | same <;> omega
  · rw [List.mem_singleton.mp mem]
    omega

/-- An instruction goes on inside of the code, or at its end. -/
theorem successors_le {len pc pc' : Nat} {op : Op} (inside : pc < len)
    (check : controlFlowCheck len pc op = none) (mem : pc' ∈ successors pc op len) :
    pc' ≤ len := by
  have next (mem : pc' ∈ if pc + 1 < len then [pc + 1] else []) : pc' ≤ len := by
    split at mem
    · rw [List.mem_singleton.mp mem]
      omega
    · cases mem
  cases op with
  | jump target =>
    rw [controlFlowCheck, refuseWhen_eq_none_iff] at check
    rw [List.mem_singleton.mp mem]
    omega
  | recurIncAccum counter accum step limit exitAddr =>
    rw [controlFlowCheck, refuseWhen_eq_none_iff] at check
    rw [successors] at mem
    split at mem
    · rcases List.mem_pair.mp mem with same | same <;> omega
    · rw [List.mem_singleton.mp mem]
      omega
  | recur n =>
    rw [List.mem_singleton.mp mem]
    omega
  | recurDirect n =>
    rw [List.mem_singleton.mp mem]
    omega
  | ret => cases mem
  | returnSlot s => cases mem
  | jumpIfTrue | jumpIfFalse | jumpIfSlotLtImm | jumpIfSlotLeImm | jumpIfSlotGtImm
  | jumpIfSlotGeImm | jumpIfSlotEqImm =>
    rw [controlFlowCheck, refuseWhen_eq_none_iff] at check
    exact branchOrNext_le inside (Nat.lt_of_not_le check) mem
  | _ => exact next mem

/-! ### Stack depth -/

theorem mem_nextInside {code : List Op} {pc pc' : Nat} :
    pc' ∈ nextInside code pc ↔
      ∃ op, code[pc]? = some op ∧ pc' ∈ successors pc op code.length ∧ pc' < code.length := by
  rw [nextInside]
  cases here : code[pc]? with
  | none => simp
  | some op => simp

theorem nextInside_inside (code : List Op) (pc : Nat) :
    ∀ pc' ∈ nextInside code pc, pc' ∈ List.range code.length := by
  intro pc' mem
  rcases mem_nextInside.mp mem with ⟨_, _, _, inside⟩
  exact List.mem_range.mpr inside

theorem weight_start {code : List Op} (some_ : 0 < code.length) :
    Labelling.weight (List.range code.length) (Labelling.start 0 (0 : Int)) ≤ code.length := by
  have lighter := @Labelling.weight_put _ _ _ (List.range code.length)
    (⟨fun _ => none, []⟩ : Labelling Nat Int) 0 (List.mem_range.mpr some_) rfl 0
  have whole : Labelling.weight (List.range code.length)
      (⟨fun _ => none, []⟩ : Labelling Nat Int) ≤ code.length := by
    rw [Labelling.weight, List.length_nil, Nat.add_zero]
    exact Nat.le_trans List.countP_le_length (Nat.le_of_eq List.length_range)
  exact Nat.le_trans lighter whole

/-- The verifier's limit on its own turns is never met: every limit from the length of the code on
gives the same verdict. -/
theorem verifyStackDepth_limit (debug : Op → String) (code : List Op) {n : Nat}
    (enough : code.length ≤ n) :
    verifyStackDepth debug code = verifyStackDepthWithin debug n code := by
  rw [verifyStackDepth, verifyStackDepthWithin, verifyStackDepthWithin]
  by_cases empty : code.length = 0
  · rw [if_pos empty, if_pos empty]
  · have light := weight_start (Nat.pos_of_ne_zero empty)
    have same : Labelling.search (heightRules debug code) (code.length * 10)
        (Labelling.start 0 0) =
        Labelling.search (heightRules debug code) n (Labelling.start 0 0) :=
      Labelling.search_turns (nextInside_inside code) (by omega) (by omega)
    rw [same]

/-- Heights that fit each instruction that the code reaches, and its end. -/
structure Heights (debug : Op → String) (code : List Op) (h : Nat → Int) : Prop where
  fits : Labelling.Fits (heightRules debug code) 0 0 h
  ends : ∀ op, code.getLast? = some op → fallsOff op = true →
    Labelling.Reaches (nextInside code) 0 (code.length - 1) → h (code.length - 1) ≤ 1

/-- The pass accepts exactly the code that has heights. -/
theorem verifyStackDepth_ok_iff (debug : Op → String) {code : List Op} (some_ : code ≠ []) :
    verifyStackDepth debug code = .ok () ↔ ∃ h, Heights debug code h := by
  have positive := List.length_pos_iff.mpr some_
  have light : Labelling.weight (List.range code.length) (Labelling.start 0 (0 : Int)) ≤
      code.length * 10 := Nat.le_trans (weight_start positive) (by omega)
  have search_iff := @Labelling.search_ok_iff _ _ _ _ _ (heightRules debug code) _
    (nextInside_inside code) 0 0 _ light
  rw [verifyStackDepth, verifyStackDepthWithin, if_neg (by omega)]
  constructor
  · intro accepted
    cases done : Labelling.search (heightRules debug code) (code.length * 10)
        (Labelling.start 0 0) with
    | error e =>
      rw [done] at accepted
      cases accepted
    | ok w =>
      rw [done] at accepted
      have labelled (pc : Nat) (reached : Labelling.Reaches (nextInside code) 0 pc) :
          w.label pc = some ((w.label pc).getD 0) := by
        rcases (Labelling.reaches_iff_labelled done pc).mp reached with ⟨l, found⟩
        rw [found]
        rfl
      use fun pc => (w.label pc).getD 0
      use (search_iff _).mpr ⟨w, done, labelled⟩
      intro op last falls reached
      dsimp only at accepted
      rw [verifyEnd, last, labelled _ reached] at accepted
      dsimp only at accepted
      split at accepted
      · cases accepted
      · rename_i low
        exact Int.not_lt.mp fun high => low ⟨falls, high⟩
  · intro ⟨h, fits, ends⟩
    rcases (search_iff h).mp fits with ⟨w, done, labels⟩
    rw [done]
    dsimp only
    rw [verifyEnd]
    split
    · rename_i op height last found
      have reached := (Labelling.reaches_iff_labelled done _).mpr ⟨height, found⟩
      rw [labels _ reached] at found
      rw [if_neg]
      intro ⟨falls, high⟩
      have low := ends op last falls reached
      rw [Option.some.inj found] at low
      omega
    · rfl

/-! ### Runs -/

/-- The operands of an instruction are counted in 31 bits, as the pass counts them. -/
def Countable (code : List Op) : Prop :=
  ∀ (pc : Nat) (op : Op), code[pc]? = some op → (stackEffect op).1 < 2 ^ 31

/-- A machine that pops and pushes what `stackEffect` says, from a place and a height of its stack
to the next. -/
def Moves (code : List Op) (c c' : Nat × Nat) : Prop :=
  ∃ op, code[c.1]? = some op ∧ (stackEffect op).1 ≤ c.2 ∧
    c'.1 ∈ successors c.1 op code.length ∧
    c'.2 = c.2 - (stackEffect op).1 + (stackEffect op).2

def Runs (code : List Op) : Nat × Nat → Nat × Nat → Prop := Relation.ReflTransGen (Moves code)

theorem asI32_of_lt {n : Nat} (small : n < 2 ^ 31) : asI32 n = (n : Int) :=
  Int.bmod_eq_of_le (by omega) (by omega)

theorem pushes_le (op : Op) : (stackEffect op).2 ≤ 1 := by
  cases op <;> simp [stackEffect]

theorem heightAfter_ok {debug : Op → String} {code : List Op} {pc : Nat} {op : Op} {height l : Int}
    (here : code[pc]? = some op) (small : (stackEffect op).1 < 2 ^ 31)
    (ok : heightAfter debug code pc height = .ok l) :
    ((stackEffect op).1 : Int) ≤ height ∧ l = height - (stackEffect op).1 + (stackEffect op).2 ∧
      l ≤ maxStackDepth := by
  have one := pushes_le op
  rw [heightAfter, here] at ok
  dsimp only at ok
  rw [asI32_of_lt small, asI32_of_lt (by omega)] at ok
  split at ok
  · cases ok
  · split at ok
    · cases ok
    · cases ok
      exact ⟨by omega, rfl, by omega⟩

/-- By induction on the run: inside of the code it has the heights that the pass found. -/
theorem Heights.run {debug : Op → String} {code : List Op} {h : Nat → Int}
    (heights : Heights debug code h) (countable : Countable code) {c : Nat × Nat}
    (run : Runs code (0, 0) c) (inside : c.1 < code.length) :
    Labelling.Reaches (nextInside code) 0 c.1 ∧ h c.1 = c.2 ∧ c.2 ≤ maxStackDepth := by
  induction run with
  | refl => exact ⟨.refl, heights.fits.first, Nat.zero_le _⟩
  | @tail b c _ move ih =>
    rcases move with ⟨op, here, pops, next, height⟩
    have inside' : b.1 < code.length := (List.getElem?_eq_some_iff.mp here).1
    rcases ih inside' with ⟨reached, same, _⟩
    rcases heights.fits.each b.1 reached with ⟨l, ok, labels⟩
    rcases heightAfter_ok here (countable b.1 op here) ok with ⟨_, value, bound⟩
    have step : c.1 ∈ nextInside code b.1 := mem_nextInside.mpr ⟨op, here, next, inside⟩
    have label : h c.1 = l := labels c.1 step
    refine ⟨reached.tail step, ?_, ?_⟩ <;> omega

theorem Runs.inside {code : List Op} (control : verifyControlFlow code = .ok ()) {c : Nat × Nat}
    (run : Runs code (0, 0) c) : c.1 ≤ code.length := by
  induction run with
  | refl => exact Nat.zero_le _
  | @tail b c _ move =>
    rcases move with ⟨op, here, _, next, _⟩
    exact successors_le (List.getElem?_eq_some_iff.mp here).1
      (eachOp_ok_iff.mp control b.1 op here) next

theorem Heights.pops {debug : Op → String} {code : List Op} {h : Nat → Int}
    (heights : Heights debug code h) (countable : Countable code) {pc n : Nat} {op : Op}
    (reached : Labelling.Reaches (nextInside code) 0 pc) (same : h pc = n)
    (here : code[pc]? = some op) : (stackEffect op).1 ≤ n := by
  rcases heights.fits.each pc reached with ⟨l, ok, _⟩
  rcases heightAfter_ok here (countable pc op here) ok with ⟨enough, _⟩
  omega

/-! ### Whole lambdas -/

/-- The closure that a path of indices leads to. -/
inductive At : CompiledLambda → List Nat → CompiledLambda → Prop
  | here (cl : CompiledLambda) : At cl [] cl
  | inside {code : List Op} {totalSlots i : Nat} {closures : List CompiledLambda}
      {c cl : CompiledLambda} {path : List Nat} : closures[i]? = some c → At c path cl →
      At (.mk code totalSlots closures) (i :: path) cl

theorem at_prefix {cl cl' : CompiledLambda} {path : List Nat} (inside : At cl path cl') (n : Nat)
    (short : n ≤ path.length) : ∃ path' cl'', At cl path' cl'' ∧ path'.length = n := by
  induction inside generalizing n with
  | here cl => exact ⟨[], cl, .here cl, (Nat.le_zero.mp short).symm⟩
  | @inside code totalSlots i closures c cl path found _ ih =>
    cases n with
    | zero => exact ⟨[], _, .here _, rfl⟩
    | succ n =>
      rcases ih n (Nat.le_of_succ_le_succ short) with ⟨path', cl'', rest, length⟩
      exact ⟨i :: path', cl'', .inside found rest, by rw [List.length_cons, length]⟩

theorem mem_verifyClosures {debug : Op → String} {depth i : Nat} {closures : List CompiledLambda}
    {e : VerificationError} : e ∈ verifyClosures debug depth i closures ↔
      ∃ j c, closures[j]? = some c ∧ ∃ e' ∈ verifyInner debug depth c, e = inClosure (i + j) e' := by
  induction closures generalizing i with
  | nil => simp [verifyClosures]
  | cons c closures ih =>
    rw [verifyClosures, List.mem_append, List.mem_map, ih]
    constructor
    · intro either
      rcases either with ⟨e', mem, same⟩ | ⟨j, c', found, e', mem, same⟩
      · exact ⟨0, c, rfl, e', mem, same.symm⟩
      · refine ⟨j + 1, c', found, e', mem, ?_⟩
        rw [same]
        congr 1
        omega
    · intro ⟨j, c', found, e', mem, same⟩
      cases j with
      | zero =>
        cases found
        exact .inl ⟨e', mem, same.symm⟩
      | succ j =>
        refine .inr ⟨j, c', found, e', mem, ?_⟩
        rw [same]
        congr 1
        omega

theorem at_cons {code : List Op} {totalSlots i : Nat} {closures : List CompiledLambda}
    {path : List Nat} {cl : CompiledLambda} :
    At (.mk code totalSlots closures) (i :: path) cl ↔
      ∃ c, closures[i]? = some c ∧ At c path cl := by
  constructor
  · intro inside
    cases inside with
    | inside found rest => exact ⟨_, found, rest⟩
  · intro ⟨c, found, rest⟩
    exact .inside found rest

/-- An error of a closure: one of its passes, or of the nesting where it stands too deep. -/
def ErrorAt (debug : Op → String) (depth : Nat) (cl : CompiledLambda) (e : VerificationError) :
    Prop :=
  depth ≤ maxClosureDepth ∧ e ∈ passes debug cl ∨
    depth = maxClosureDepth + 1 ∧ e = nestingError depth

/-- By induction on the lambda, with its closures: the errors are those of the closures down to the
first depth that is too large, each under its path. -/
theorem mem_verifyInner {debug : Op → String} {depth : Nat} (cl : CompiledLambda)
    (low : depth ≤ maxClosureDepth + 1) {e : VerificationError} :
    e ∈ verifyInner debug depth cl ↔
      ∃ path cl' e', At cl path cl' ∧ ErrorAt debug (depth + path.length) cl' e' ∧
        e = path.foldr inClosure e' := by
  match cl with
  | .mk code totalSlots closures =>
    rw [verifyInner]
    split
    · rename_i deep
      have same : depth = maxClosureDepth + 1 := by omega
      rw [List.mem_singleton]
      constructor
      · intro error
        exact ⟨[], _, e, .here _, .inr ⟨same, error⟩, rfl⟩
      · intro ⟨path, cl', e', _, error, fold⟩
        rcases error with ⟨shallow, _⟩ | ⟨here, error⟩
        · omega
        · have root : path = [] := List.length_eq_zero_iff.mp (by omega)
          rw [root] at error fold
          rw [fold]
          exact error
    · rename_i shallow
      have fits : depth ≤ maxClosureDepth := Nat.not_lt.mp shallow
      rw [List.mem_append, mem_verifyClosures]
      constructor
      · intro either
        rcases either with own | ⟨j, c, found, e', mem, same⟩
        · exact ⟨[], _, e, .here _, .inl ⟨fits, own⟩, rfl⟩
        · have smaller := List.sizeOf_lt_of_mem (List.mem_of_getElem? found)
          rcases (mem_verifyInner c (Nat.succ_le_succ fits)).mp mem with
            ⟨path, cl', e'', rest, error, fold⟩
          refine ⟨j :: path, cl', e'', .inside found rest, ?_, ?_⟩
          · rw [List.length_cons, Nat.add_comm path.length 1, ← Nat.add_assoc]
            exact error
          · rw [same, fold, Nat.zero_add]
            rfl
      · intro ⟨path, cl', e', inside, error, fold⟩
        cases path with
        | nil =>
          cases inside
          rcases error with ⟨_, own⟩ | ⟨deep, _⟩
          · exact .inl (fold ▸ own)
          · rw [List.length_nil] at deep
            omega
        | cons i path =>
          rcases at_cons.mp inside with ⟨c, found, rest⟩
          have smaller := List.sizeOf_lt_of_mem (List.mem_of_getElem? found)
          rw [List.length_cons, Nat.add_comm path.length 1, ← Nat.add_assoc] at error
          refine .inr ⟨i, c, found, path.foldr inClosure e', ?_, ?_⟩
          · exact (mem_verifyInner c (Nat.succ_le_succ fits)).mpr
              ⟨path, cl', e', rest, error, rfl⟩
          · rw [fold, Nat.zero_add]
            rfl
termination_by sizeOf cl
decreasing_by
  · simp only [CompiledLambda.mk.sizeOf_spec]
    omega
  · simp only [CompiledLambda.mk.sizeOf_spec]
    omega

theorem verifyBytecode_ok {debug : Op → String} {cl : CompiledLambda} :
    verifyBytecode debug cl = .ok () ↔ verifyInner debug 0 cl = [] := by
  rw [verifyBytecode]
  split
  · rename_i none_
    simp [none_]
  · rename_i some_
    exact iff_of_false (by simp) fun none_ => some_ none_

theorem failures_eq_nil {r : VResult} : failures r = [] ↔ r = .ok () := by
  cases r with
  | ok u => simp [failures]
  | error e => simp [failures]

theorem passes_eq_nil {debug : Op → String} {cl : CompiledLambda} :
    passes debug cl = [] ↔ verifyLimits cl = .ok () ∧ verifyControlFlow cl.code = .ok () ∧
      verifySlotIndices cl.code cl.totalSlots = .ok () ∧
      verifyInstructionConsistency cl.code cl.totalSlots cl.closures.length = .ok () ∧
      verifyStackDepth debug cl.code = .ok () := by
  simp only [passes, List.append_eq_nil_iff, failures_eq_nil, and_assoc]

/-- An accepted lambda's closures pass all of the passes. -/
theorem passes_of_verified {debug : Op → String} {cl cl' : CompiledLambda} {path : List Nat}
    (accepted : verifyBytecode debug cl = .ok ()) (inside : At cl path cl') :
    passes debug cl' = [] := by
  have none_ (e : VerificationError) : e ∉ verifyInner debug 0 cl := by
    rw [verifyBytecode_ok.mp accepted]
    exact List.not_mem_nil
  have shallow : ∀ {path' : List Nat} {cl'' : CompiledLambda}, At cl path' cl'' →
      path'.length ≠ maxClosureDepth + 1 := by
    intro path' cl'' inside' deep
    apply none_ (path'.foldr inClosure (nestingError (0 + path'.length)))
    rw [mem_verifyInner cl (Nat.zero_le _)]
    exact ⟨path', cl'', _, inside', .inr ⟨by omega, rfl⟩, rfl⟩
  have low : path.length ≤ maxClosureDepth := by
    by_contra deep
    rcases at_prefix inside (maxClosureDepth + 1) (by omega) with ⟨path', cl'', inside', length⟩
    exact shallow inside' length
  rw [List.eq_nil_iff_forall_not_mem]
  intro e mem
  apply none_ (path.foldr inClosure e)
  rw [mem_verifyInner cl (Nat.zero_le _)]
  exact ⟨path, cl', e, inside, .inl ⟨by omega, mem⟩, rfl⟩

/-- A loop that counts on the stack. -/
def countingLoop : List Op :=
  [.pushI64 0, .dup, .pushI64 10, .ge, .jumpIfTrue 6, .jump 1, .ret]

theorem countingLoop_run : Runs countingLoop (0, 0) (4, 2) := by
  have first : Moves countingLoop (0, 0) (1, 1) := ⟨.pushI64 0, rfl, by decide, by decide, rfl⟩
  have second : Moves countingLoop (1, 1) (2, 2) := ⟨.dup, rfl, by decide, by decide, rfl⟩
  have third : Moves countingLoop (2, 2) (3, 3) := ⟨.pushI64 10, rfl, by decide, by decide, rfl⟩
  have fourth : Moves countingLoop (3, 3) (4, 2) := ⟨.ge, rfl, by decide, by decide, rfl⟩
  exact (((Relation.ReflTransGen.single first).tail second).tail third).tail fourth

theorem countingLoop_countable : Countable countingLoop := by
  have each : ∀ op ∈ countingLoop, (stackEffect op).1 < 2 ^ 31 := by decide
  intro pc op here
  exact each op (List.mem_of_getElem? here)

/-- The pass over the stack accepts exactly the code in which every reached instruction has a
height, and its own limit has no part in the verdict. -/
theorem verifyStackDepth_exact (debug : Op → String) (code : List Op) :
    (verifyStackDepth debug code = .ok () ↔ code = [] ∨ ∃ h, Heights debug code h) ∧
    ∀ n, code.length ≤ n → verifyStackDepthWithin debug n code = verifyStackDepth debug code := by
  constructor
  · by_cases empty : code = []
    · rw [empty]
      exact iff_of_true rfl (.inl rfl)
    · rw [verifyStackDepth_ok_iff debug empty, or_iff_right empty]
  · intro n enough
    exact (verifyStackDepth_limit debug code enough).symm

theorem verifyStackDepth_exact_counting :
    verifyStackDepthWithin (fun _ => "") 100 countingLoop =
      verifyStackDepth (fun _ => "") countingLoop :=
  (verifyStackDepth_exact _ countingLoop).2 100 (by decide)

/-- A lambda is accepted if and only if no closure in it has an error; else the errors are those of
the closures, each with the path to its closure in front. -/
theorem verifyBytecode_errors (debug : Op → String) (cl : CompiledLambda) :
    (verifyBytecode debug cl = .ok () ↔
      ∀ path cl' e, At cl path cl' → ¬ ErrorAt debug path.length cl' e) ∧
    ∀ errors, verifyBytecode debug cl = .error errors → ∀ e, e ∈ errors ↔
      ∃ path cl' e', At cl path cl' ∧ ErrorAt debug path.length cl' e' ∧
        e = path.foldr inClosure e' := by
  have mem_iff (e : VerificationError) : e ∈ verifyInner debug 0 cl ↔
      ∃ path cl' e', At cl path cl' ∧ ErrorAt debug path.length cl' e' ∧
        e = path.foldr inClosure e' := by
    simp only [mem_verifyInner cl (Nat.zero_le _), Nat.zero_add]
  constructor
  · rw [verifyBytecode_ok, List.eq_nil_iff_forall_not_mem]
    constructor
    · intro none_ path cl' e inside error
      exact none_ _ ((mem_iff _).mpr ⟨path, cl', e, inside, error, rfl⟩)
    · intro none_ e mem
      rcases (mem_iff e).mp mem with ⟨path, cl', e', inside, error, _⟩
      exact none_ path cl' e' inside error
  · intro errors refused e
    rw [verifyBytecode] at refused
    split at refused
    · cases refused
    · cases refused
      exact mem_iff e

/-- A closure that pops from an empty stack -/
def poppingClosure : CompiledLambda := .mk [.ret] 0 [.mk [.pop, .pushNil, .ret] 0 []]

theorem verifyBytecode_errors_popping :
    ∀ e, e ∈ verifyInner (fun _ => "") 0 poppingClosure ↔
      ∃ path cl' e', At poppingClosure path cl' ∧ ErrorAt (fun _ => "") path.length cl' e' ∧
        e = path.foldr inClosure e' :=
  (verifyBytecode_errors (fun _ => "") poppingClosure).2 _ rfl

end LispRlm.Bytecode.Verifier
