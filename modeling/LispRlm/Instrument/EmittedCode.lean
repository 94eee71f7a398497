import LispRlm.Instrument.Lockstep
import Mathlib.Data.List.Forall2

/-! The instrumented module, read with the structured code that is put in the place of each marked
operator, answers as the module under the meter. -/

namespace LispRlm.Instrument

open Foundation (Flow)
open Foundation.Flow (Config Result Follows split)

variable {P W : Type}

/-! ### The globals of the instrumentation -/

/-- What calls share under the meter, and in the instrumented module: there the gas and the stack
budget are the two globals after the module's own. -/
structure SharedRel (g : Nat) (budget : BitVec 64) (s : Shared (Metered W)) (s' : Shared W) :
    Prop where
  globals : s'.globals = s.globals ++ [.i64 s.world.gas, .i64 budget]
  count : s.globals.length = g
  world : s'.world = s.world.world

/-- Primitives leave the gas alone. -/
abbrev Metered.Still (m m' : Metered W) : Prop := m'.gas = m.gas

abbrev Metered.Same (m : Metered W) (w : W) : Prop := w = m.world

theorem SharedRel.keeps (g : Nat) (budget : BitVec 64) :
    Keeps (SharedRel (W := W) g budget) Metered.Still Metered.Same where
  getGlobal s s' n v related found := by
    rw [related.globals, List.getElem?_append_left (List.getElem?_eq_some_iff.mp found).1, found]
  setGlobal s s' n v related bound := by
    refine ⟨?_, ?_, related.world⟩
    · rw [related.globals, List.set_append_left _ _ bound]
    · rw [List.length_set, related.count]
  world _ _ related := related.world
  setWorld s s' w w' related still same := by
    refine ⟨?_, related.count, same⟩
    change s'.globals = s.globals ++ [.i64 w.gas, .i64 budget]
    rw [related.globals, still]

/-- The locals of an instrumented function are the function's own and two more. -/
abbrev Related (g localIdx : Nat) (budget : BitVec 64) :
    Frame (Metered W) → Frame W → Prop :=
  FrameRel 2 localIdx (SharedRel g budget)

abbrev MeteredStep (g localIdx : Nat) (budget : BitVec 64)
    (out : Frame (Metered W) → Frame W → Prop) : Outcome (Metered W) → Outcome W → Prop :=
  Step 2 localIdx (SharedRel g budget) out fun _ => False

abbrev SameAnswers (g : Nat) (budget : BitVec 64) : Answer (Metered W) → Answer W → Prop :=
  Answers (SharedRel g budget) fun _ => False

/-! ### Emitted code -/

/-- Operators that do not branch, before other code. -/
def steps (code : List (Operator P)) (rest : Flow (Operator P) BlockType) :
    Flow (Operator P) BlockType :=
  code.foldr .step rest

/-- An amount is taken from a global, or the run ends in a hook. -/
def takeFlow (global : Nat) (test exhausted amount : List (Operator P))
    (rest : Flow (Operator P) BlockType) : Flow (Operator P) BlockType :=
  steps test (.ifElse .empty (steps exhausted .done)
    (steps (.globalGet global :: (amount ++ [.i64Sub, .globalSet global])) .done) rest)

def constantFlow (fee : BitVec 64) (g : Nat) (rest : Flow (Operator P) BlockType) :
    Flow (Operator P) BlockType :=
  takeFlow (g + gasGlobal) [.globalGet (g + gasGlobal), .i64Const fee, .i64LtU]
    [.i64Const fee, .call gasInstrumentationFn, .unreachable] [.i64Const fee] rest

def stackFlow (charge : BitVec 64) (g : Nat) (rest : Flow (Operator P) BlockType) :
    Flow (Operator P) BlockType :=
  takeFlow (g + stackGlobal) [.globalGet (g + stackGlobal), .i64Const charge, .i64LtU]
    [.call stackExhaustedFn, .unreachable] [.i64Const charge] rest

def linearFlow (linear constant : BitVec 64) (g localIdx : Nat)
    (rest : Flow (Operator P) BlockType) : Flow (Operator P) BlockType :=
  takeFlow (g + gasGlobal)
    [.localTee (localIdx + 1), .i64ExtendI32U, .i64Const linear, .i64Mul, .i64Const constant,
      .i64Add, .localTee localIdx, .globalGet (g + gasGlobal), .i64GtU]
    [.localGet localIdx, .call gasInstrumentationFn, .unreachable] [.localGet localIdx]
    (.step (.localGet (localIdx + 1)) rest)

def gasFlow (fee : Fee) (g localIdx : Nat) (rest : Flow (Operator P) BlockType) :
    Flow (Operator P) BlockType :=
  if fee = Fee.zero then rest
  else if fee.linear = 0 then constantFlow fee.constant.toBitVec g rest
  else linearFlow fee.linear.toBitVec fee.constant.toBitVec g localIdx rest

/-- The code for an operator or a point of the function. -/
def markFlow (charge : UInt64) (g localIdx : Nat) (mark : Marked P)
    (rest : Flow (Operator P) BlockType) : Flow (Operator P) BlockType :=
  match mark with
  | .point p => if p.kind = .unreachable then rest else gasFlow p.fee g localIdx rest
  | .op (.refFunc f) => .step (.refFunc (f + newFunctions)) rest
  | .op (.call f) => .step (.call (f + newFunctions)) rest
  | .op (.returnCall f) =>
      steps (callUnstackInstrumentation charge g) (.step (.returnCall (f + newFunctions)) rest)
  | .op (.returnCallIndirect type table) =>
      steps (callUnstackInstrumentation charge g) (.step (.returnCallIndirect type table) rest)
  | .op .return_ => steps (callUnstackInstrumentation charge g) (.step .return_ rest)
  | .op op => .step op rest

/-- The body of an instrumented function. -/
def functionFlow (t : BlockType) (charge gas : UInt64) (g localIdx : Nat)
    (body : Flow (Marked P) BlockType) : Flow (Operator P) BlockType :=
  .block t (stackFlow charge.toBitVec g
      (gasFlow ⟨0, gas⟩ g localIdx (body.expand (markFlow charge g localIdx))))
    (steps (callUnstackInstrumentation charge g) .done)

/-! ### Runs of emitted code -/

section Runs

variable {i : Instance P W} {invoke : Invoke W}

def execAll (i : Instance P W) (invoke : Invoke W) :
    List (Operator P) → Config Value (Frame W) → Outcome W
  | [], c => .ok c
  | op :: code, c => (exec i invoke op c).bind (execAll i invoke code)

theorem run_steps (fuel : Nat) (code : List (Operator P)) (rest : Flow (Operator P) BlockType)
    (c : Config Value (Frame W)) :
    Flow.run (machine i (exec i invoke)) fuel (steps code rest) c =
      (execAll i invoke code c).bind (Flow.run (machine i (exec i invoke)) fuel rest) := by
  induction code generalizing c with
  | nil => rfl
  | cons op code ih =>
      rw [execAll, steps, List.foldr_cons, Flow.run]
      change (exec i invoke op c).bind _ = _
      cases exec i invoke op c with
      | ok c' => exact ih c'
      | error e => rfl

/-- The amount is there: it is taken, and the rest runs. -/
theorem run_takeFlow_enough {fuel global : Nat} {test exhausted amount : List (Operator P)}
    {rest : Flow (Operator P) BlockType} {c : Config Value (Frame W)} {stack : List Value}
    {s t : Frame W} (tested : execAll i invoke test c = .ok ⟨.i32 0 :: stack, s⟩)
    (taken : execAll i invoke (.globalGet global :: (amount ++ [.i64Sub, .globalSet global]))
      ⟨[], s⟩ = .ok ⟨[], t⟩) :
    Flow.run (machine i (exec i invoke)) fuel (takeFlow global test exhausted amount rest) c =
      Flow.run (machine i (exec i invoke)) fuel rest ⟨stack, t⟩ := by
  have no := @run_steps _ _ i invoke fuel
    (.globalGet global :: (amount ++ [.i64Sub, .globalSet global])) .done ⟨[], s⟩
  rw [taken] at no
  rw [takeFlow, run_steps, tested]
  change Flow.run _ fuel (.ifElse _ _ _ rest) ⟨.i32 0 :: stack, s⟩ = _
  rw [Flow.run_ifElse_plain (b := false) rfl rfl, if_neg Bool.false_ne_true, no]
  rfl

/-- It is not there: the hook ends the run. -/
theorem run_takeFlow_short {fuel global : Nat} {test exhausted amount : List (Operator P)}
    {rest : Flow (Operator P) BlockType} {c : Config Value (Frame W)} {stack : List Value}
    {s : Frame W} {e : Failure} (tested : execAll i invoke test c = .ok ⟨.i32 1 :: stack, s⟩)
    (failed : execAll i invoke exhausted ⟨[], s⟩ = .error (.fail e)) :
    Flow.run (machine i (exec i invoke)) fuel (takeFlow global test exhausted amount rest) c =
      .error (.fail e) := by
  have yes := @run_steps _ _ i invoke fuel exhausted .done ⟨[], s⟩
  rw [failed] at yes
  rw [takeFlow, run_steps, tested]
  change Flow.run _ fuel (.ifElse _ _ _ rest) ⟨.i32 1 :: stack, s⟩ = _
  rw [Flow.run_ifElse_plain (b := true) rfl rfl, if_pos rfl, yes]
  rfl

end Runs

/-! ### The meter in emitted code -/

/-- The hooks are the first three functions. -/
structure Hooks (g : Nat) (i : Instance P W) (invoke : Invoke W) : Prop where
  resolve : ∀ n, n < newFunctions → i.resolve n = some (.hook n)
  typeOf : ∀ n, i.typeOf (.hook n) = (hook (W := W) n).map (·.1)
  invoke : ∀ n type host args s, hook n = some (type, host) →
    invoke (.hook n) args s = callHost g host args s

theorem chargeGas_error {gas : BitVec 64} {amount : UInt64} {e : Failure}
    (failed : chargeGas gas amount = .error e) : e = exceeded := by
  rw [chargeGas] at failed
  by_cases short : (if gas.toInt < 0 then 0 else gas.toNat) < amount.toNat
  · rw [if_pos short] at failed
    exact (Except.error.inj failed).symm
  · rw [if_neg short] at failed
    cases failed

section Meter

variable {g localIdx : Nat} {budget : BitVec 64} {i : Instance P W} {invoke : Invoke W}

theorem SharedRel.read {s : Shared (Metered W)} {s' : Shared W}
    (related : SharedRel g budget s s') (k : Nat) :
    s'.globals[g + k]? = [Value.i64 s.world.gas, .i64 budget][k]? := by
  have count := related.count
  rw [related.globals, List.getElem?_append_right (by omega)]
  congr 1
  omega

theorem SharedRel.write {s : Shared (Metered W)} {s' : Shared W}
    (related : SharedRel g budget s s') (k : Nat) (v : Value) :
    s'.globals.set (g + k) v = s.globals ++ [Value.i64 s.world.gas, .i64 budget].set k v := by
  have count := related.count
  rw [related.globals, List.set_append_right _ _ (by omega)]
  congr 2
  omega

variable {s : Frame (Metered W)} {s' : Frame W}

theorem write_gas (related : Related g localIdx budget s s') (gas : BitVec 64) :
    Related g localIdx budget (s.setGas gas) (s'.setGlobal (g + gasGlobal) (.i64 gas)) :=
  ⟨related.locals, related.count, related.shared.write gasGlobal _, related.shared.count,
    related.shared.world⟩

theorem write_stack (related : Related g localIdx budget s s') (left : BitVec 64) :
    Related g localIdx left s (s'.setGlobal (g + stackGlobal) (.i64 left)) :=
  ⟨related.locals, related.count, related.shared.write stackGlobal _, related.shared.count,
    related.shared.world⟩

theorem exec_globalGet {n : Nat} {v : Value} (found : s'.shared.globals[n]? = some v)
    (stack : List Value) :
    exec i invoke (.globalGet n) ⟨stack, s'⟩ = .ok ⟨v :: stack, s'⟩ := by
  rw [exec]
  dsimp only
  rw [found]

theorem exec_globalSet {n : Nat} {v : Value} (found : s'.shared.globals[n]? = some v)
    (stack : List Value) (w : Value) :
    exec i invoke (.globalSet n) ⟨w :: stack, s'⟩ = .ok ⟨stack, s'.setGlobal n w⟩ := by
  rw [exec]
  dsimp only
  rw [if_pos (List.getElem?_eq_some_iff.mp found).1]

theorem applyCall_fail {callee : Callee} {type : FuncType} {stack args rest : List Value}
    {e : Failure} (known : i.typeOf callee = some type)
    (taken : split type.params.length stack = some (args, rest))
    (failed : invoke callee args s'.shared = .fail e) :
    applyCall i invoke callee ⟨stack, s'⟩ = .error (.fail e) := by
  rw [applyCall, known]
  dsimp only
  rw [taken]
  dsimp only
  rw [failed]

theorem exec_exceeded (hooks : Hooks g i invoke) (related : Related g localIdx budget s s')
    (amount : BitVec 64) (stack : List Value) :
    exec i invoke (.call gasInstrumentationFn) ⟨.i64 amount :: stack, s'⟩ =
      .error (.fail exceeded) := by
  have answer : invoke (.hook gasInstrumentationFn) [.i64 amount] s'.shared =
      .fail exceeded := by
    rw [hooks.invoke gasInstrumentationFn ⟨[.i64], []⟩ _ _ _ rfl, callHost,
      related.shared.read gasGlobal]
    change storeGas g s'.shared (hostFn _ _ s.gas s'.shared.world) = _
    rw [hostFn]
    cases charged : chargeGas s.gas hostCallBaseGas with
    | error e => exact congrArg Answer.fail (chargeGas_error charged)
    | ok gas => rfl
  have args : split 1 (.i64 amount :: stack) = some ([.i64 amount], stack) :=
    if_pos (Nat.le_add_left 1 _)
  have type : i.typeOf (.hook gasInstrumentationFn) = some ⟨[.i64], []⟩ :=
    (hooks.typeOf gasInstrumentationFn).trans rfl
  rw [exec, hooks.resolve _ (by decide)]
  exact applyCall_fail type args answer

theorem exec_stackExhausted (hooks : Hooks g i invoke) (related : Related g localIdx budget s s')
    (stack : List Value) :
    exec i invoke (.call stackExhaustedFn) ⟨stack, s'⟩ =
      .error (.fail (stackExhausted s.gas)) := by
  have answer : invoke (.hook stackExhaustedFn) [] s'.shared =
      .fail (stackExhausted s.gas) := by
    rw [hooks.invoke stackExhaustedFn ⟨[], []⟩ _ _ _ rfl, callHost,
      related.shared.read gasGlobal]
    change storeGas g s'.shared (hostFn _ _ s.gas s'.shared.world) = _
    rw [hostFn, stackExhausted]
    cases charged : chargeGas s.gas hostCallBaseGas with
    | error e => rfl
    | ok gas => rfl
  have type : i.typeOf (.hook stackExhaustedFn) = some ⟨[], []⟩ :=
    (hooks.typeOf stackExhaustedFn).trans rfl
  rw [exec, hooks.resolve _ (by decide)]
  exact applyCall_fail type (Flow.split_zero stack) answer

theorem run_constantFlow (hooks : Hooks g i invoke) (related : Related g localIdx budget s s')
    (fee : BitVec 64) (fuel : Nat) (rest : Flow (Operator P) BlockType) (stack : List Value) :
    Flow.run (machine i (exec i invoke)) fuel (constantFlow fee g rest) ⟨stack, s'⟩ =
      if s.gas < fee then .error (.fail exceeded)
      else Flow.run (machine i (exec i invoke)) fuel rest
        ⟨stack, s'.setGlobal (g + gasGlobal) (.i64 (s.gas - fee))⟩ := by
  have gas (stack : List Value) := @exec_globalGet P W i invoke s' _ _
    (related.shared.read gasGlobal) stack
  have tested : execAll i invoke [.globalGet (g + gasGlobal), .i64Const fee, .i64LtU]
      ⟨stack, s'⟩ = .ok ⟨ofBool (s.gas < fee) :: stack, s'⟩ := by
    rw [execAll, gas]
    rfl
  by_cases short : s.gas < fee
  · rw [decide_eq_true short] at tested
    rw [if_pos short]
    apply run_takeFlow_short tested
    rw [execAll, exec]
    change (execAll i invoke [.call gasInstrumentationFn, .unreachable] ⟨[.i64 fee], s'⟩) = _
    rw [execAll, exec_exceeded hooks related]
    rfl
  · rw [decide_eq_false short] at tested
    rw [if_neg short]
    apply run_takeFlow_enough tested
    rw [execAll, gas]
    change (exec i invoke (.globalSet (g + gasGlobal)) ⟨[.i64 (s.gas - fee)], s'⟩).bind _ = _
    rw [exec_globalSet (related.shared.read gasGlobal)]
    rfl

theorem run_stackFlow (hooks : Hooks g i invoke) (related : Related g localIdx budget s s')
    (charge : BitVec 64) (fuel : Nat) (rest : Flow (Operator P) BlockType) (stack : List Value) :
    Flow.run (machine i (exec i invoke)) fuel (stackFlow charge g rest) ⟨stack, s'⟩ =
      if budget < charge then .error (.fail (stackExhausted s.gas))
      else Flow.run (machine i (exec i invoke)) fuel rest
        ⟨stack, s'.setGlobal (g + stackGlobal) (.i64 (budget - charge))⟩ := by
  have left (stack : List Value) := @exec_globalGet P W i invoke s' _ _
    (related.shared.read stackGlobal) stack
  have tested : execAll i invoke [.globalGet (g + stackGlobal), .i64Const charge, .i64LtU]
      ⟨stack, s'⟩ = .ok ⟨ofBool (budget < charge) :: stack, s'⟩ := by
    rw [execAll, left]
    rfl
  by_cases short : budget < charge
  · rw [decide_eq_true short] at tested
    rw [if_pos short]
    apply run_takeFlow_short tested
    rw [execAll, exec_stackExhausted hooks related]
    rfl
  · rw [decide_eq_false short] at tested
    rw [if_neg short]
    apply run_takeFlow_enough tested
    rw [execAll, left]
    change (exec i invoke (.globalSet (g + stackGlobal)) ⟨[.i64 (budget - charge)], s'⟩).bind _ = _
    rw [exec_globalSet (related.shared.read stackGlobal)]
    rfl

theorem exec_unstack (related : Related g localIdx budget s s') (charge : UInt64)
    (stack : List Value) :
    execAll i invoke (callUnstackInstrumentation charge g) ⟨stack, s'⟩ =
      .ok ⟨stack, s'.setGlobal (g + stackGlobal) (.i64 (budget + charge.toBitVec))⟩ := by
  rw [callUnstackInstrumentation, execAll, exec_globalGet (related.shared.read stackGlobal)]
  change (exec i invoke (.globalSet (g + stackGlobal))
    ⟨.i64 (budget + charge.toBitVec) :: stack, s'⟩).bind _ = _
  rw [exec_globalSet (related.shared.read stackGlobal)]
  rfl

theorem exec_localTee {n : Nat} (bound : n < s'.locals.length) (v : Value)
    (stack : List Value) : exec i invoke (.localTee n) ⟨v :: stack, s'⟩ =
      .ok ⟨v :: stack, { s' with locals := s'.locals.set n v }⟩ := by
  rw [exec]
  dsimp only
  rw [if_pos bound]

theorem exec_localGet {n : Nat} {v : Value} (found : s'.locals[n]? = some v)
    (stack : List Value) : exec i invoke (.localGet n) ⟨stack, s'⟩ = .ok ⟨v :: stack, s'⟩ := by
  rw [exec]
  dsimp only
  rw [found]

/-- The two locals of the instrumentation, written. -/
theorem tee_locals (related : Related g localIdx budget s s') (fee count : Value) :
    (s'.locals.set (localIdx + 1) count).set localIdx fee = s.locals ++ [fee, count] := by
  rcases related.locals with ⟨more, two, locals⟩
  have length := related.count
  rcases List.length_eq_two.mp two with ⟨x, y, pair⟩
  rw [locals, pair, List.set_append_right _ _ (by omega), List.set_append_right _ _ (by omega),
    show localIdx + 1 - s.locals.length = 1 by omega,
    show localIdx - s.locals.length = 0 by omega]
  rfl

/-- The fee for a count that is on top of the stack. -/
theorem run_linearFlow (hooks : Hooks g i invoke) (related : Related g localIdx budget s s')
    (linear constant : BitVec 64) (n : BitVec 32) (fuel : Nat) (stack : List Value) :
    ∃ t, Related g localIdx budget s t ∧ ∀ rest : Flow (Operator P) BlockType,
      Flow.run (machine i (exec i invoke)) fuel (linearFlow linear constant g localIdx rest)
        ⟨.i32 n :: stack, s'⟩ =
      if s.gas < n.setWidth 64 * linear + constant then .error (.fail exceeded)
      else Flow.run (machine i (exec i invoke)) fuel rest
        ⟨.i32 n :: stack, t.setGlobal (g + gasGlobal)
          (.i64 (s.gas - (n.setWidth 64 * linear + constant)))⟩ := by
  have total : s'.locals.length = localIdx + 2 := by
    rcases related.locals with ⟨more, two, locals⟩
    rw [locals, List.length_append, related.count, two]
  let fee := n.setWidth 64 * linear + constant
  let t : Frame W := { s' with locals := s.locals ++ [.i64 fee, .i32 n] }
  have relates : Related g localIdx budget s t :=
    ⟨⟨_, rfl, rfl⟩, related.count, related.shared⟩
  have length := related.count
  have readFee (stack : List Value) : exec i invoke (.localGet localIdx) ⟨stack, t⟩ =
      .ok ⟨.i64 fee :: stack, t⟩ := by
    apply exec_localGet
    change (s.locals ++ [Value.i64 fee, .i32 n])[localIdx]? = _
    rw [List.getElem?_append_right (by omega), length, Nat.sub_self]
    rfl
  have count : (s.locals ++ [Value.i64 fee, .i32 n])[localIdx + 1]? = some (.i32 n) := by
    rw [List.getElem?_append_right (by omega), length, Nat.add_sub_cancel_left]
    rfl
  have gas (stack : List Value) := @exec_globalGet P W i invoke t _ _
    (relates.shared.read gasGlobal) stack
  have written : (⟨(s'.locals.set (localIdx + 1) (.i32 n)).set localIdx (.i64 fee),
      s'.shared⟩ : Frame W) = t := by
    rw [tee_locals related]
  have tested : execAll i invoke
      [.localTee (localIdx + 1), .i64ExtendI32U, .i64Const linear, .i64Mul, .i64Const constant,
        .i64Add, .localTee localIdx, .globalGet (g + gasGlobal), .i64GtU]
      ⟨.i32 n :: stack, s'⟩ = .ok ⟨ofBool (s.gas < fee) :: stack, t⟩ := by
    rw [execAll, exec_localTee (by omega)]
    change (exec i invoke (.localTee localIdx) ⟨.i64 fee :: stack,
      { s' with locals := s'.locals.set (localIdx + 1) (.i32 n) }⟩).bind _ = _
    rw [exec_localTee (by rw [List.length_set]; omega), written]
    change (exec i invoke (.globalGet (g + gasGlobal)) ⟨.i64 fee :: stack, t⟩).bind _ = _
    rw [gas]
    rfl
  refine ⟨t, relates, fun rest => ?_⟩
  change _ = if s.gas < fee then _ else Flow.run _ fuel rest
    ⟨.i32 n :: stack, t.setGlobal (g + gasGlobal) (.i64 (s.gas - fee))⟩
  by_cases short : s.gas < fee
  · rw [decide_eq_true short] at tested
    rw [if_pos short]
    apply run_takeFlow_short tested
    rw [execAll, readFee]
    change (execAll i invoke [.call gasInstrumentationFn, .unreachable] ⟨[.i64 fee], t⟩) = _
    rw [execAll, exec_exceeded hooks relates]
    rfl
  · rw [decide_eq_false short] at tested
    rw [if_neg short]
    have taken : execAll i invoke (.globalGet (g + gasGlobal) :: ([.localGet localIdx] ++
        [.i64Sub, .globalSet (g + gasGlobal)])) ⟨[], t⟩ =
        .ok ⟨[], t.setGlobal (g + gasGlobal) (.i64 (s.gas - fee))⟩ := by
      rw [execAll, gas]
      change (exec i invoke (.localGet localIdx) ⟨[.i64 s.gas], t⟩).bind _ = _
      rw [readFee]
      change (exec i invoke (.globalSet (g + gasGlobal)) ⟨[.i64 (s.gas - fee)], t⟩).bind _ = _
      rw [exec_globalSet (relates.shared.read gasGlobal)]
      rfl
    rw [linearFlow, run_takeFlow_enough tested taken, Flow.run]
    have again : (t.setGlobal (g + gasGlobal) (.i64 (s.gas - fee))).locals[localIdx + 1]? =
        some (.i32 n) := count
    change (exec i invoke (.localGet (localIdx + 1)) ⟨stack, t.setGlobal _ _⟩).bind _ = _
    rw [exec_localGet again]
    rfl

/-- The fee does not overflow, whatever the count. -/
def Fee.Fits (fee : Fee) : Prop := fee.linear.toNat * (2 ^ 32 - 1) + fee.constant.toNat < 2 ^ 64

theorem fee_toNat {fee : Fee} (fits : fee.Fits) (n : BitVec 32) :
    (n.setWidth 64 * fee.linear.toBitVec + fee.constant.toBitVec).toNat =
      n.toNat * fee.linear.toNat + fee.constant.toNat := by
  have small : n.toNat * fee.linear.toNat ≤ fee.linear.toNat * (2 ^ 32 - 1) := by
    have bound := n.isLt
    rw [Nat.mul_comm]
    exact Nat.mul_le_mul_left _ (by omega)
  have wide : (n.setWidth 64).toNat = n.toNat := by
    rw [BitVec.toNat_setWidth]
    exact Nat.mod_eq_of_lt (by have := n.isLt; omega)
  have whole : n.toNat * fee.linear.toNat + fee.constant.toNat < 2 ^ 64 :=
    Nat.lt_of_le_of_lt (Nat.add_le_add_right small _) fits
  rw [BitVec.toNat_add, BitVec.toNat_mul, wide, UInt64.toNat_toBitVec, UInt64.toNat_toBitVec,
    Nat.mod_eq_of_lt (a := n.toNat * fee.linear.toNat) (by omega), Nat.mod_eq_of_lt whole]

theorem spend_word {fee : Nat} {word : BitVec 64} (same : word.toNat = fee)
    (s : Frame (Metered W)) :
    spend fee s = if s.gas < word then .error exceeded else .ok (s.setGas (s.gas - word)) := by
  have value : BitVec.ofNat 64 fee = word := by
    rw [← same, BitVec.ofNat_toNat, BitVec.setWidth_eq]
  rw [spend, value, ← same]
  rfl

theorem spend_zero (s : Frame (Metered W)) : spend 0 s = .ok s := by
  rw [spend, if_neg (Nat.not_lt_zero _), BitVec.sub_zero]
  rfl

/-- A fee that is compared with the gas and taken from it. -/
theorem charged_step {out : Frame (Metered W) → Frame W → Prop} {u : Frame W}
    (related : Related g localIdx budget s u) {fee : Nat} {word : BitVec 64}
    (same : word.toNat = fee) (stack : List Value) :
    MeteredStep g localIdx budget out (charged stack (spend fee s))
      (if s.gas < word then .error (.fail exceeded)
        else .ok ⟨stack, u.setGlobal (g + gasGlobal) (.i64 (s.gas - word))⟩) := by
  rw [spend_word same]
  by_cases short : s.gas < word
  · rw [if_pos short, if_pos short]
    exact .fail _
  · rw [if_neg short, if_neg short]
    exact .ok (write_gas related _)

theorem bind_ite {c : Prop} [Decidable c] {e : Flow.Exit Callee Value (Frame W) Failure}
    {x : Config Value (Frame W)} (f : Config Value (Frame W) → Outcome W) :
    Except.bind (if c then .error e else .ok x) f = if c then .error e else f x := by
  split
  · rfl
  · rfl

theorem gasFlow_step (hooks : Hooks g i invoke) (related : Related g localIdx budget s s')
    {fee : Fee} (single : fee.linear = 0) (stack : List Value)
    (out : Frame (Metered W) → Frame W → Prop) :
    ∃ r, MeteredStep g localIdx budget out (charged stack (spend fee.constant.toNat s)) r ∧
      ∀ fuel rest, Flow.run (machine i (exec i invoke)) fuel (gasFlow fee g localIdx rest)
        ⟨stack, s'⟩ = r.bind (Flow.run (machine i (exec i invoke)) fuel rest) := by
  by_cases free : fee = Fee.zero
  · refine ⟨.ok ⟨stack, s'⟩, ?_, fun fuel rest => by rw [gasFlow, if_pos free]; rfl⟩
    rw [free]
    change MeteredStep g localIdx budget out (charged stack (spend 0 s)) _
    rw [spend_zero]
    exact .ok related
  · refine ⟨_, charged_step related (UInt64.toNat_toBitVec (x := fee.constant)) stack, ?_⟩
    intro fuel rest
    rw [gasFlow, if_neg free, if_pos single, run_constantFlow hooks related, bind_ite]

theorem point_step {out : Frame (Metered W) → Frame W → Prop} (hooks : Hooks g i invoke)
    (related : Related g localIdx budget s s') {i₀ : Instance P (Metered W)}
    {invoke₀ : Invoke (Metered W)} {p : GasPoint} (fits : p.fee.Fits) (charge : UInt64)
    (fuel : Nat) (stack : List Value) :
    Flow.Silent (fun _ => False) (execMarked i₀ invoke₀ (.point p) ⟨stack, s⟩) ∨
      ∃ r, MeteredStep g localIdx budget out (execMarked i₀ invoke₀ (.point p) ⟨stack, s⟩) r ∧
        ∀ rest, Flow.run (machine i (exec i invoke)) fuel
          (markFlow charge g localIdx (.point p) rest) ⟨stack, s'⟩ =
            r.bind (Flow.run (machine i (exec i invoke)) fuel rest) := by
  by_cases skipped : p.kind = .unreachable
  · right
    refine ⟨.ok ⟨stack, s'⟩, ?_, fun rest => by rw [markFlow, if_pos skipped]; rfl⟩
    rw [execMarked, due.eq_def, if_pos (.inl skipped)]
    change MeteredStep g localIdx budget out (charged stack (spend 0 s)) _
    rw [spend_zero]
    exact .ok related
  have code (rest : Flow (Operator P) BlockType) :
      markFlow charge g localIdx (.point p) rest = gasFlow p.fee g localIdx rest := by
    rw [markFlow, if_neg skipped]
  by_cases single : p.fee.linear = 0
  · right
    rcases gasFlow_step (P := P) hooks related single stack out with ⟨r, step, runs⟩
    refine ⟨r, ?_, fun rest => by rw [code, runs]⟩
    have fee : due p stack = some p.fee.constant.toNat := by
      rw [due.eq_def]
      by_cases free : p.fee = Fee.zero
      · rw [if_pos (.inr free), free]
        rfl
      · rw [if_neg (not_or.mpr ⟨skipped, free⟩), if_pos single]
    rw [execMarked]
    dsimp only
    rw [fee]
    exact step
  · have costs : p.fee ≠ Fee.zero := by
      intro free
      rw [free] at single
      exact single rfl
    have linear (rest : Flow (Operator P) BlockType) :
        markFlow charge g localIdx (.point p) rest =
          linearFlow p.fee.linear.toBitVec p.fee.constant.toBitVec g localIdx rest := by
      rw [code, gasFlow, if_neg costs, if_neg single]
    have fee : due p stack = linearDue p stack := by
      rw [due.eq_def, if_neg (not_or.mpr ⟨skipped, costs⟩), if_neg single]
    rw [execMarked]
    dsimp only
    rw [fee, linearDue.eq_def]
    cases p.kind with
    | unreachable | other => exact .inl trivial
    | aggregate a =>
        cases stack with
        | nil => exact .inl trivial
        | cons v rest =>
            cases v with
            | i64 | f32 | f64 | v128 | func | extern_ => exact .inl trivial
            | i32 n =>
                right
                rcases run_linearFlow (P := P) hooks related p.fee.linear.toBitVec
                  p.fee.constant.toBitVec n fuel rest with ⟨t, relates, runs⟩
                refine ⟨_, charged_step relates (fee_toNat fits n) (.i32 n :: rest), ?_⟩
                intro more
                rw [linear, runs, bind_ite]

/-- What holds where the code is left for good: the stack budget is as it was before the call. -/
def Left (g : Nat) (budget : BitVec 64) (s : Frame (Metered W)) (s' : Frame W) : Prop :=
  SharedRel g budget s.shared s'.shared

theorem run_unstack (related : Related g localIdx budget s s') (charge : UInt64) (fuel : Nat)
    (stack : List Value) (rest : Flow (Operator P) BlockType) :
    Related g localIdx (budget + charge.toBitVec) s
        (s'.setGlobal (g + stackGlobal) (.i64 (budget + charge.toBitVec))) ∧
      Flow.run (machine i (exec i invoke)) fuel
        (steps (callUnstackInstrumentation charge g) rest) ⟨stack, s'⟩ =
      Flow.run (machine i (exec i invoke)) fuel rest
        ⟨stack, s'.setGlobal (g + stackGlobal) (.i64 (budget + charge.toBitVec))⟩ := by
  refine ⟨write_stack related _, ?_⟩
  rw [run_steps, exec_unstack related]
  rfl

theorem mark_step {i₀ : Instance P (Metered W)} {invoke₀ : Invoke (Metered W)}
    (same : Matches newFunctions Metered.Still Metered.Same i₀ i) (hooks : Hooks g i invoke)
    (calls : ∀ callee args s s', SharedRel g budget s s' →
      SameAnswers g budget (invoke₀ callee args s) (invoke callee args s'))
    {charge : UInt64} {mark : Marked P} (fits : ∀ p, mark = .point p → p.fee.Fits) (fuel : Nat)
    (stack : List Value) (related : Related g localIdx budget s s') :
    Flow.Silent (fun _ => False) (execMarked i₀ invoke₀ mark ⟨stack, s⟩) ∨
      ∃ r, MeteredStep g localIdx budget (Left g (budget + charge.toBitVec))
          (execMarked i₀ invoke₀ mark ⟨stack, s⟩) r ∧
        ∀ rest, Flow.run (machine i (exec i invoke)) fuel
          (markFlow charge g localIdx mark rest) ⟨stack, s'⟩ =
            r.bind (Flow.run (machine i (exec i invoke)) fuel rest) := by
  cases mark with
  | point p => exact point_step hooks related (fits p rfl) charge fuel stack
  | op op =>
      by_cases copied : op.Copied
      · right
        refine ⟨_, exec_step (SharedRel.keeps g budget) same calls copied related, ?_⟩
        intro rest
        cases op with
        | refFunc | call | returnCall | returnCallIndirect | return_ => exact copied.elim
        | _ => rfl
      cases op with
      | refFunc f =>
          cases known : i₀.resolve f with
          | none =>
              rw [execMarked, exec, known]
              exact .inl trivial
          | some callee =>
              rw [execMarked, exec, known]
              refine .inr ⟨.ok ⟨.func (some callee) :: stack, s'⟩, .ok related, ?_⟩
              intro rest
              rw [markFlow, Flow.run]
              change (exec i invoke (.refFunc (f + newFunctions)) ⟨stack, s'⟩).bind _ = _
              rw [exec, same.resolve f callee known]
      | call f =>
          cases known : i₀.resolve f with
          | none =>
              rw [execMarked, exec, known]
              exact .inl trivial
          | some callee =>
              rw [execMarked, exec, known]
              refine .inr ⟨_, applyCall_step same calls callee related, ?_⟩
              intro rest
              rw [markFlow, Flow.run]
              change (exec i invoke (.call (f + newFunctions)) ⟨stack, s'⟩).bind _ = _
              rw [exec, same.resolve f callee known]
      | returnCall f =>
          cases known : i₀.resolve f with
          | none =>
              rw [execMarked, exec, known]
              exact .inl trivial
          | some callee =>
              rw [execMarked, exec, known]
              refine .inr ⟨_, .tail callee (write_stack related _).shared, ?_⟩
              intro rest
              rw [markFlow, (run_unstack related charge fuel stack _).2, Flow.run]
              change (exec i invoke (.returnCall (f + newFunctions)) ⟨stack, _⟩).bind _ = _
              rw [exec, same.resolve f callee known]
      | returnCallIndirect type table =>
          have left := write_stack related (budget + charge.toBitVec)
          have leaves : Left g (budget + charge.toBitVec) s (s'.setGlobal (g + stackGlobal)
              (.i64 (budget + charge.toBitVec))) := left.shared
          have step : MeteredStep g localIdx budget (Left g (budget + charge.toBitVec))
              (indirect i₀ type table ⟨stack, s⟩ fun callee c => .error (.tail callee c))
              (indirect i type table
                ⟨stack, s'.setGlobal (g + stackGlobal) (.i64 (budget + charge.toBitVec))⟩
                fun callee c => .error (.tail callee c)) :=
            indirect_step same type table left.shared.world
              (fun callee _ => .tail callee leaves) stack
          rw [execMarked]
          refine .inr ⟨_, step, ?_⟩
          intro rest
          rw [markFlow, (run_unstack related charge fuel stack _).2, Flow.run]
          rfl
      | return_ =>
          rw [execMarked]
          refine .inr ⟨_, .return_ (write_stack related _).shared, ?_⟩
          intro rest
          rw [markFlow, (run_unstack related charge fuel stack _).2, Flow.run]
          rfl
      | _ => exact absurd trivial copied

/-- The code after the block around the body gives the stack budget back. -/
theorem finish_answers {i₀ : Instance P (Metered W)}
    (same : Matches newFunctions Metered.Still Metered.Same i₀ i)
    {again₀ : Invoke (Metered W)} {again : Invoke W} {charge : UInt64}
    (calls : ∀ callee args s s', SharedRel g (budget + charge.toBitVec) s s' →
      SameAnswers g (budget + charge.toBitVec) (again₀ callee args s) (again callee args s'))
    (results fuel : Nat) {x : Outcome (Metered W)} {y : Outcome W}
    (follows : MeteredStep g localIdx budget (Left g (budget + charge.toBitVec)) x y) :
    SameAnswers g (budget + charge.toBitVec) (finish i₀ results again₀ x)
      (finish i results again ((Flow.leave results [] y).bind
        (Flow.run (machine i (exec i invoke)) fuel
          (steps (callUnstackInstrumentation charge g) .done)))) := by
  have closed {stack : List Value} {s : Frame (Metered W)} {s' : Frame W}
      (related : Related g localIdx budget s s') :
      SameAnswers g (budget + charge.toBitVec) (finish i₀ results again₀ (.ok ⟨stack, s⟩))
        (finish i results again ((Flow.leave results [] (.ok ⟨stack, s'⟩)).bind
          (Flow.run (machine i (exec i invoke)) fuel
            (steps (callUnstackInstrumentation charge g) .done)))) := by
    rw [finish, giveBack, Flow.leave]
    dsimp only
    cases taken : split results stack with
    | none => exact .invalid _
    | some parts =>
        have length := @Flow.split_length _ _ _ parts.1 parts.2 taken
        dsimp only
        rw [List.append_nil]
        change SameAnswers _ _ _ (finish i results again
          (Flow.run _ fuel (steps (callUnstackInstrumentation charge g) .done) ⟨parts.1, s'⟩))
        rw [(run_unstack related charge fuel parts.1 .done).2, Flow.run, finish, giveBack]
        dsimp only
        rw [← length, Flow.split_all]
        exact .returned (write_stack related _).shared
  cases follows with
  | ok related => exact closed related
  | branch depth related =>
      cases depth with
      | zero => exact closed related
      | succ depth => exact .invalid _
  | @return_ stack s s' left =>
      change SameAnswers _ _ _ (finish i results again (.error (.return_ ⟨stack, s'⟩)))
      rw [finish, finish, giveBack, giveBack]
      dsimp only
      cases split results stack with
      | none => exact .invalid _
      | some parts => exact .returned left
  | @tail callee stack s s' left =>
      change SameAnswers _ _ _ (finish i results again (.error (.tail callee ⟨stack, s'⟩)))
      rw [finish, finish]
      cases known : i₀.typeOf callee with
      | none => exact .invalid _
      | some type =>
          rw [same.typeOf callee type known]
          dsimp only
          cases split type.params.length stack with
          | none => exact .invalid _
          | some parts => exact calls callee parts.1 _ _ left
  | fail e => exact .fail e
  | letGo r known => exact known.elim
  | invalid r => exact .invalid _
  | outOfFuel => exact .outOfFuel

end Meter

/-! ### Calls -/

def Marked.Fits : Marked P → Prop
  | .point p => p.fee.Fits
  | .op _ => True

/-- What the pass makes of a function. -/
structure PreparesFunction (types : List FuncType) (g : Nat) (f : MeteredFunction P)
    (f' : PreparedFunction P) : Prop where
  type : f'.type = f.type
  locals : f'.locals = f.locals ++ [.i64, .i32]
  body : ∃ t, arity types t = some (0, f.type.results.length) ∧
    f'.body = functionFlow t f.charge f.gas g (f.type.params.length + f.locals.length) f.body
  fits : f.body.All Marked.Fits

/-- What the pass makes of a module. -/
structure Prepares (p : Program P W) (q : Prepared P W) : Prop where
  types : ∃ more, q.types = p.types ++ more
  hosts : q.hosts = p.hosts
  functions : List.Forall₂ (PreparesFunction q.types q.globals) p.functions q.functions
  act : q.act = p.act
  table : q.table = p.table

namespace Prepares

variable {p : Program P W} {q : Prepared P W}

theorem functionType (prepares : Prepares p q) (id : Nat) :
    q.functionType id = p.functionType id := by
  rw [Prepared.functionType, Program.functionType, prepares.hosts]
  cases p.hosts[id]? with
  | some host => rfl
  | none =>
      have same : ∀ {fs : List (MeteredFunction P)} {fs' : List (PreparedFunction P)},
          List.Forall₂ (PreparesFunction q.types q.globals) fs fs' →
          fs'.map (·.type) = fs.map (·.type) := by
        intro fs fs' each
        induction each with
        | nil => rfl
        | cons first _ ih => rw [List.map_cons, List.map_cons, first.type, ih]
      dsimp only
      rw [← List.getElem?_map, ← List.getElem?_map, same prepares.functions]

theorem arities (prepares : Prepares p q) (t : BlockType) (a : Nat × Nat)
    (known : arity p.types t = some a) : arity q.types t = some a := by
  rcases prepares.types with ⟨more, types⟩
  cases t with
  | empty | result => exact known
  | functionType idx =>
      rw [arity] at known ⊢
      rcases Option.map_eq_some_iff.mp known with ⟨type, found, same⟩
      rw [types, List.getElem?_append_left (List.getElem?_eq_some_iff.mp found).1, found]
      exact congrArg some same

theorem instances (prepares : Prepares p q) :
    Matches newFunctions Metered.Still Metered.Same p.metered q.hooked where
  types idx type known := by
    rcases prepares.types with ⟨more, types⟩
    have found : p.types[idx]? = some type := known
    change q.types[idx]? = some type
    rw [types, List.getElem?_append_left (List.getElem?_eq_some_iff.mp found).1, found]
  act op stack m w same := by
    change Effects _ _ ((p.act op stack m.world).metered m) (q.act op stack w)
    rw [prepares.act, same]
    cases p.act op stack m.world with
    | done stack world => exact .done stack rfl rfl
    | trap => exact .trap
    | invalid => exact .invalid _
  table table n m w same := by
    change p.table m.world table n = q.table w table n
    rw [prepares.table, same]
  resolve f callee known := by
    change (if f + newFunctions < newFunctions then some (Callee.hook (f + newFunctions))
      else (q.functionType (f + newFunctions - newFunctions)).map
        fun _ => Callee.fn (f + newFunctions - newFunctions)) = some callee
    rw [if_neg (Nat.not_lt.mpr (Nat.le_add_left _ _)), Nat.add_sub_cancel,
      prepares.functionType]
    exact known
  typeOf callee type known := by
    cases callee with
    | hook n => cases known
    | fn id => exact (prepares.functionType id).trans known

theorem hooks (q : Prepared P W) (fuel : Nat) : Hooks q.globals q.hooked (q.invoke fuel) where
  resolve n small := if_pos small
  typeOf n := rfl
  invoke n type host args s known := by
    cases fuel with
    | zero => rw [Prepared.invoke, Prepared.call, known]
    | succ fuel => rw [Prepared.invoke, Prepared.call, known]

end Prepares

theorem runHost_answers {g : Nat} {budget : BitVec 64} (host : Host W) (args : List Value)
    {s : Shared (Metered W)} {s' : Shared W} (related : SharedRel g budget s s') :
    SameAnswers g budget (runHost host args s) (callHost g host args s') := by
  rw [callHost, related.read gasGlobal, runHost, related.world]
  change SameAnswers g budget _ (storeGas g s' (host args s.world.gas s.world.world))
  cases host args s.world.gas s.world.world with
  | fail e => exact .fail e
  | done values gas world =>
      exact .returned ⟨related.write gasGlobal _, related.count, rfl⟩

theorem call_answers {p : Program P W} {q : Prepared P W} (prepares : Prepares p q)
    {budget : BitVec 64} (callee : Callee) (args : List Value) {s : Shared (Metered W)}
    {s' : Shared W} (related : SharedRel q.globals budget s s')
    {inside : MeteredFunction P → List Value → Shared (Metered W) → Answer (Metered W)}
    {inside' : PreparedFunction P → List Value → Shared W → Answer W}
    (each : ∀ f f', PreparesFunction q.types q.globals f f' →
      args.length = f.type.params.length →
      SameAnswers q.globals budget (inside f args s) (inside' f' args s')) :
    SameAnswers q.globals budget (p.call inside callee args s) (q.call inside' callee args s') := by
  cases callee with
  | hook n => exact .invalid _
  | fn id =>
      rw [Program.call, Prepared.call, prepares.hosts]
      cases p.hosts[id]? with
      | some host => exact runHost_answers host.2 args related
      | none =>
          dsimp only
          cases found : p.functions[id - p.hosts.length]? with
          | none => exact .invalid _
          | some f =>
              have ⟨bound, same⟩ := List.getElem?_eq_some_iff.mp found
              have bound' : id - p.hosts.length < q.functions.length := by
                rw [← prepares.functions.length_eq]
                exact bound
              have prepared := prepares.functions.get bound bound'
              rw [List.get_eq_getElem, List.get_eq_getElem, same] at prepared
              rw [List.getElem?_eq_getElem bound']
              dsimp only
              rw [prepared.type]
              split
              · rename_i arguments
                exact each f _ prepared arguments
              · exact .invalid _

theorem enter_answers {p : Program P W} {q : Prepared P W} (prepares : Prepares p q) (fuel : Nat)
    {budget : BitVec 64} {f : MeteredFunction P} {f' : PreparedFunction P}
    (function : PreparesFunction q.types q.globals f f') {args : List Value}
    (arguments : args.length = f.type.params.length) {inner again : Invoke (Metered W)}
    (calls : ∀ callee args s s', SharedRel q.globals (budget - f.charge.toBitVec) s s' →
      SameAnswers q.globals (budget - f.charge.toBitVec) (inner callee args s)
        (q.invoke fuel callee args s'))
    (tails : ∀ callee args s s', SharedRel q.globals budget s s' →
      SameAnswers q.globals budget (again callee args s) (q.invoke fuel callee args s'))
    {s : Shared (Metered W)} {s' : Shared W} (related : SharedRel q.globals budget s s') :
    SameAnswers q.globals budget (p.enter fuel budget inner again f args s)
      (q.enter fuel (q.invoke fuel) f' args s') := by
  rcases function.body with ⟨t, known, body⟩
  have frames : Related q.globals (f.type.params.length + f.locals.length) budget
      ⟨args.reverse ++ f.locals.map ValType.default, s⟩
      ⟨args.reverse ++ f'.locals.map ValType.default, s'⟩ := by
    refine ⟨⟨[.i64 0, .i32 0], rfl, ?_⟩, ?_, related⟩
    · rw [function.locals, List.map_append, List.append_assoc]
      rfl
    · rw [List.length_append, List.length_reverse, List.length_map, arguments]
  have hooks := Prepares.hooks q fuel
  rw [Program.enter, Prepared.enter, function.type, body, functionFlow, Flow.run, Flow.construct]
  have arity_ : (machine q.hooked (exec q.hooked (q.invoke fuel))).arity t = arity q.types t := rfl
  rw [arity_, known]
  dsimp only
  rw [Flow.split_zero]
  dsimp only
  rw [run_stackFlow hooks frames]
  by_cases short : budget < f.charge.toBitVec
  · rw [if_pos short, if_pos short]
    exact .fail _
  rw [if_neg short, if_neg short]
  have entered := write_stack frames (budget - f.charge.toBitVec)
  have whole : budget - f.charge.toBitVec + f.charge.toBitVec = budget := BitVec.sub_add_cancel _ _
  have single : (⟨0, f.gas⟩ : Fee).linear = 0 := rfl
  have frame := gasFlow_step (P := P) hooks entered single []
  rcases frame (Left q.globals (budget - f.charge.toBitVec + f.charge.toBitVec))
    with ⟨r, step, runs⟩
  -- The charge for the frame and the body, as one run.
  have body (stack : List Value) (s : Frame (Metered W)) (s' : Frame W)
      (related : Related q.globals (f.type.params.length + f.locals.length)
        (budget - f.charge.toBitVec) s s') :
      MeteredStep q.globals (f.type.params.length + f.locals.length) (budget - f.charge.toBitVec)
        (Left q.globals (budget - f.charge.toBitVec + f.charge.toBitVec))
        (Flow.run (machine p.metered (execMarked p.metered inner)) fuel f.body ⟨stack, s⟩)
        (Flow.run (machine q.hooked (exec q.hooked (q.invoke fuel))) fuel
          (f.body.expand (markFlow f.charge q.globals
            (f.type.params.length + f.locals.length))) ⟨stack, s'⟩) := by
    have truths (v : Value) (b : Bool)
        (known : (machine p.metered (execMarked p.metered inner)).truth v = some b) :
        (machine q.hooked (exec q.hooked (q.invoke fuel))).truth v = some b := known
    apply Flow.run_expand prepares.arities truths _ function.fits related
    intro mark stack s s' fits related
    apply mark_step prepares.instances hooks calls _ fuel stack related
    intro p same
    rw [same] at fits
    exact fits
  have follows := step.bind body
  have answers : SameAnswers q.globals (budget - f.charge.toBitVec + f.charge.toBitVec)
      (finish p.metered f.type.results.length again _)
      (finish q.hooked f.type.results.length (q.invoke fuel) (Except.bind (Flow.leave _ [] _)
        (Flow.run (machine q.hooked (exec q.hooked (q.invoke fuel))) fuel _))) :=
    finish_answers prepares.instances (by rw [whole]; exact tails) f.type.results.length fuel
      follows
  rw [whole] at answers
  rw [runs]
  exact answers

/-- A call in the instrumented module is the call under the meter: it returns the same values in
the same world with the same gas left, and with the stack budget that it was entered with, or it
ends in the same failure. -/
theorem invoke_answers {p : Program P W} {q : Prepared P W} (prepares : Prepares p q) (fuel : Nat)
    (budget : BitVec 64) (callee : Callee) (args : List Value) {s : Shared (Metered W)}
    {s' : Shared W} (related : SharedRel q.globals budget s s') :
    SameAnswers q.globals budget (p.invoke fuel budget callee args s)
      (q.invoke fuel callee args s') := by
  induction fuel generalizing budget callee args s s' with
  | zero => exact call_answers prepares callee args related fun _ _ _ _ => .outOfFuel
  | succ fuel ih =>
      exact call_answers prepares callee args related fun f f' function arguments =>
        enter_answers prepares fuel function arguments
          (fun callee args _ _ related => ih _ callee args related)
          (fun callee args _ _ related => ih _ callee args related) related

end LispRlm.Instrument
