import LispRlm.Bytecode.Values

/-! The fusion of the body of a summing loop into one instruction, and the states in which the one
instruction does what the body does. -/

namespace LispRlm.Bytecode

/-! ### Arithmetic -/

def InI64 (r : Int) : Prop := -2 ^ 63 ≤ r ∧ r < 2 ^ 63

def InPayload (r : Int) : Prop := -2 ^ 60 ≤ r ∧ r ≤ 2 ^ 60 - 1

instance (r : Int) : Decidable (InI64 r) := inferInstanceAs (Decidable (_ ∧ _))

instance (r : Int) : Decidable (InPayload r) := inferInstanceAs (Decidable (_ ∧ _))

/-- `i64::checked_add` -/
def checkedAdd (a b : Int64) : Option Int64 :=
  if InI64 (a.toInt + b.toInt) then some (a + b) else none

def checkNumRange (r : Int64) (op : String) : Except String Int64 :=
  if InPayload r.toInt then .ok r
  else .error ("integer overflow in " ++ op ++ " (payload range ±2^60)")

/-- `i64::checked_add(a, b).and_then(|r| check_num_range(r, "add").ok())` -/
def payloadAdd (a b : Int64) : Option Int64 :=
  (checkedAdd a b).bind fun r => (checkNumRange r "add").toOption

/-- A float is cut off to an integer, and what is no number counts as 0. -/
def numValRef : LispVal → Int64
  | .num n => n
  | .float bits => (Float.ofBits bits).toInt64
  | _ => 0

def floatAdd (x y : Float) : LispVal := .float (x + y).toBits

/-- `num_arith_checked` for `Op::Add` -/
def numAdd : LispVal → LispVal → Except String LispVal
  | .float x, .float y => .ok (floatAdd (.ofBits x) (.ofBits y))
  | .float x, .num y => .ok (floatAdd (.ofBits x) y.toFloat)
  | .num x, .float y => .ok (floatAdd x.toFloat (.ofBits y))
  | .num x, .num y =>
      match checkedAdd x y with
      | some r => (checkNumRange r "add").map .num
      | none => .error "integer overflow in add"
  | .u64 x, .u64 y => .ok (.u64 (x + y))
  | a, b => .error ("type error: add expects numbers, got " ++ display a ++ " " ++ display b)

theorem toInt_add_of_inI64 {a b : Int64} (fits : InI64 (a.toInt + b.toInt)) :
    (a + b).toInt = a.toInt + b.toInt := by
  rw [Int64.toInt_add]
  unfold InI64 at fits
  exact Int.bmod_eq_of_le (by omega) (by omega)

theorem InPayload.inI64 {r : Int} (h : InPayload r) : InI64 r := by
  unfold InPayload at h
  unfold InI64
  omega

theorem checkedAdd_of_inI64 {a b : Int64} (fits : InI64 (a.toInt + b.toInt)) :
    checkedAdd a b = some (a + b) := if_pos fits

theorem checkedAdd_of_not_inI64 {a b : Int64} (out : ¬ InI64 (a.toInt + b.toInt)) :
    checkedAdd a b = none := if_neg out

/-- What `check_num_range` says of a sum. -/
def outOfPayload : String := "integer overflow in add (payload range ±2^60)"

theorem checkNumRange_sum {a b : Int64} (fits : InI64 (a.toInt + b.toInt)) :
    checkNumRange (a + b) "add" =
      if InPayload (a.toInt + b.toInt) then .ok (a + b) else .error outOfPayload := by
  unfold checkNumRange
  rw [toInt_add_of_inI64 fits]
  rfl

theorem payloadAdd_of_inPayload {a b : Int64} (fits : InPayload (a.toInt + b.toInt)) :
    payloadAdd a b = some (a + b) := by
  unfold payloadAdd
  rw [checkedAdd_of_inI64 fits.inI64, Option.bind_some, checkNumRange_sum fits.inI64, if_pos fits]
  rfl

theorem payloadAdd_of_not_inPayload {a b : Int64} (out : ¬ InPayload (a.toInt + b.toInt)) :
    payloadAdd a b = none := by
  unfold payloadAdd
  by_cases fits : InI64 (a.toInt + b.toInt)
  · rw [checkedAdd_of_inI64 fits, Option.bind_some, checkNumRange_sum fits, if_neg out]
    rfl
  · rw [checkedAdd_of_not_inI64 fits]
    rfl

theorem numAdd_nums {a b : Int64} (fits : InI64 (a.toInt + b.toInt)) :
    numAdd (.num a) (.num b) =
      if InPayload (a.toInt + b.toInt) then .ok (.num (a + b)) else .error outOfPayload := by
  simp only [numAdd, checkedAdd_of_inI64 fits, checkNumRange_sum fits]
  split
  · rfl
  · rfl

theorem numAdd_eq_num {va vb : LispVal} {r : Int64} (same : numAdd va vb = .ok (.num r)) :
    ∃ a b, va = .num a ∧ vb = .num b := by
  unfold numAdd at same
  split at same
  · cases same
  · cases same
  · cases same
  · exact ⟨_, _, rfl, rfl⟩
  · cases same
  · cases same

theorem typeError_ne (s : String) :
    "type error: add expects numbers, got " ++ s ≠ outOfPayload := by
  intro same
  have heads := congrArg (fun t : String => t.toList.head?) same
  simp [outOfPayload] at heads

/-- Only two integers are out of the payload's range, and only when their sum is an `i64`. -/
theorem numAdd_outOfPayload_iff {va vb : LispVal} :
    numAdd va vb = .error outOfPayload ↔
      ∃ a b : Int64, va = .num a ∧ vb = .num b ∧
        InI64 (a.toInt + b.toInt) ∧ ¬ InPayload (a.toInt + b.toInt) := by
  constructor
  · intro same
    unfold numAdd at same
    split at same
    · cases same
    · cases same
    · cases same
    · rename_i a b
      refine ⟨a, b, rfl, rfl, ?_⟩
      by_cases fits : InI64 (a.toInt + b.toInt)
      · refine ⟨fits, fun inside => ?_⟩
        rw [checkedAdd_of_inI64 fits] at same
        simp only [checkNumRange_sum fits, if_pos inside] at same
        cases same
      · rw [checkedAdd_of_not_inI64 fits] at same
        exact absurd (Except.error.inj same) (by decide)
    · cases same
    · rename_i a b _ _ _ _ _
      have message := Except.error.inj same
      rw [String.append_assoc, String.append_assoc] at message
      exact absurd message (typeError_ne _)
  · rintro ⟨a, b, rfl, rfl, fits, out⟩
    rw [numAdd_nums fits, if_neg out]

/-! ### Instructions -/

inductive Comparison
  | ge
  | gt
  | le
  | lt
  | eq

def Comparison.holds : Comparison → Int64 → Int64 → Bool
  | ge, v, imm => imm ≤ v
  | gt, v, imm => imm < v
  | le, v, imm => v ≤ imm
  | lt, v, imm => v < imm
  | eq, v, imm => v = imm

/-- The limit of the fused instruction; the sum wraps around. -/
def Comparison.limit : Comparison → Int64 → Int64
  | ge, imm => imm
  | gt, imm => imm + 1
  | le, imm => imm + 1
  | lt, imm => imm
  | eq, imm => imm

/-- An instruction jumps to the exit of its loop only, whose address the passes keep up to date. -/
inductive LoopOp
  | jumpIfSlotImm (cmp : Comparison) (slot : Nat) (imm : Int64)
  | slotAddImm (slot : Nat) (imm : Int64)
  | loadSlot (slot : Nat)
  | add
  | recurDirect (n : Nat)
  | recurIncAccum (counter accum : Nat) (step limit : Int64)

/-- The loop's two variables in the order of their declaration, then the captured values. -/
structure LoopState where
  first : LispVal
  second : LispVal
  captured : List LispVal
  stack : List LispVal

namespace LoopState

/-- `safe_slot` -/
def slot (σ : LoopState) : Nat → LispVal
  | 0 => σ.first
  | 1 => σ.second
  | n + 2 => σ.captured.getD n .nil

def setSlot (σ : LoopState) : Nat → LispVal → LoopState
  | 0, v => { σ with first := v }
  | 1, v => { σ with second := v }
  | n + 2, v => { σ with captured := σ.captured.set n v }

def push (σ : LoopState) (v : LispVal) : LoopState := { σ with stack := v :: σ.stack }

/-- `for i in (0..n).rev() { slots[i] = stack.pop().unwrap_or(Nil) }` -/
def recur : Nat → LoopState → LoopState
  | 0, σ => σ
  | n + 1, σ => recur n ({ σ with stack := σ.stack.tail }.setSlot n (σ.stack.headD .nil))

end LoopState

inductive Turn
  | exit (σ : LoopState)
  | again (σ : LoopState)
  | error (message : String)

/-- The instructions from the comparison on, until one jumps. -/
def exec : List LoopOp → LoopState → Turn
  | [], σ => .exit σ
  | .jumpIfSlotImm cmp s imm :: code, σ =>
      if cmp.holds (numValRef (σ.slot s)) imm then .exit σ else exec code σ
  | .slotAddImm s imm :: code, σ =>
      match payloadAdd (numValRef (σ.slot s)) imm with
      | some result => exec code (σ.push (.num result))
      | none => .error "integer overflow in add"
  | .loadSlot s :: code, σ => exec code (σ.push (σ.slot s))
  | .add :: code, σ =>
      let b := σ.stack.headD .nil
      let a := σ.stack.tail.headD .nil
      match numAdd a b with
      | .ok result => exec code ({ σ with stack := σ.stack.tail.tail }.push result)
      | .error message => .error message
  | .recurDirect n :: _, σ => .again (σ.recur n)
  | .recurIncAccum counter accum step limit :: _, σ =>
      let cv := numValRef (σ.slot counter)
      if limit ≤ cv then .exit σ
      else
        match payloadAdd (numValRef (σ.slot accum)) cv with
        | none => .error "integer overflow in add (payload range ±2^60)"
        | some newAccum =>
            match checkedAdd cv step with
            | none => .error "integer overflow in add"
            | some newCounter =>
                .again ((σ.setSlot accum (.num newAccum)).setSlot counter (.num newCounter))

/-- The six instructions that the peephole pass looks for. -/
def window (cmp : Comparison) (counter accum : Nat) (step imm : Int64) : List LoopOp :=
  [.jumpIfSlotImm cmp counter imm, .slotAddImm counter step, .loadSlot accum, .loadSlot counter,
    .add, .recurDirect 2]

/-- The mega-fusion of `peephole_optimize`. -/
def megaFuse : List LoopOp → Option (List LoopOp)
  | [.jumpIfSlotImm cmp counter imm, .slotAddImm cs step, .loadSlot accum, .loadSlot as2, .add,
      .recurDirect n] =>
      if n = 2 ∧ counter = cs ∧ accum ≠ counter ∧ as2 = counter then
        some [.recurIncAccum counter accum step (cmp.limit imm)]
      else none
  | _ => none

def slotOf (slotMap : List String) (name : String) : Option Nat := slotMap.findIdx? (· == name)

/-- The mega-fusion of `compile_body`: its code up to the exit. -/
def compileBody (slotMap : List String) : LispVal → Option (List LoopOp)
  | .list (.sym if_ :: .list [.sym test, .sym counterName, .num limit] :: .sym thenName ::
      .list [.sym recur, .list [.sym add1, .sym a1Sym, .num step],
        .list [.sym add2, .sym a2Sym, .sym a2Rhs]] :: _) =>
      if slotMap.length = 2 ∧ if_ = "if" ∧ test = ">=" ∧ recur = "recur" ∧ add1 = "+" ∧
          add2 = "+" ∧ a1Sym = counterName ∧ a2Sym = thenName ∧ a2Rhs = counterName ∧
          counterName ≠ thenName then
        match slotOf slotMap counterName, slotOf slotMap thenName with
        | some cs, some as_ =>
            some [.jumpIfSlotImm .ge cs limit, .recurIncAccum cs as_ step limit]
        | _, _ => none
      else none
  | _ => none

/-- The code of such a body without that fusion: the test and the arguments of `recur` as they
stand, after the other fusions. -/
def plainBody (slotMap : List String) : LispVal → Option (List LoopOp)
  | .list (.sym _ :: .list [.sym _, .sym counterName, .num limit] :: _ ::
      .list [.sym _, .list [.sym _, .sym a1Sym, .num step],
        .list [.sym _, .sym a2Sym, .sym a2Rhs]] :: _) =>
      match slotOf slotMap counterName, slotOf slotMap a1Sym, slotOf slotMap a2Sym,
          slotOf slotMap a2Rhs with
      | some counter, some a1, some a2, some rhs =>
          some [.jumpIfSlotImm .ge counter limit, .slotAddImm a1 step, .loadSlot a2, .loadSlot rhs,
            .add, .recurDirect 2]
      | _, _, _, _ => none
  | _ => none

/-! ### One turn of the loop -/

/-- What the unfused window does, its stack put aside. -/
theorem exec_window (cmp : Comparison) (counter accum : Nat) (step imm : Int64) (σ : LoopState) :
    exec (window cmp counter accum step imm) σ =
      if cmp.holds (numValRef (σ.slot counter)) imm then .exit σ
      else
        match payloadAdd (numValRef (σ.slot counter)) step with
        | none => .error "integer overflow in add"
        | some next =>
            match numAdd (σ.slot accum) (σ.slot counter) with
            | .error message => .error message
            | .ok sum => .again ((σ.setSlot 1 sum).setSlot 0 (.num next)) := by
  have slots : ∀ (v : LispVal) (τ : LoopState) (n : Nat), (τ.push v).slot n = τ.slot n := by
    intro v τ n
    rcases n with _ | _ | n
    · rfl
    · rfl
    · rfl
  simp only [window, exec]
  cases cmp.holds (numValRef (σ.slot counter)) imm with
  | true => rfl
  | false =>
      cases payloadAdd (numValRef (σ.slot counter)) step with
      | none => rfl
      | some next =>
          simp only [slots]
          have below : (((σ.push (.num next)).push (σ.slot accum)).push
              (σ.slot counter)).stack.tail.headD .nil = σ.slot accum := rfl
          have top : (((σ.push (.num next)).push (σ.slot accum)).push
              (σ.slot counter)).stack.headD .nil = σ.slot counter := rfl
          simp only [top, below]
          cases numAdd (σ.slot accum) (σ.slot counter) with
          | error message => rfl
          | ok sum => rfl

theorem exec_fused (counter accum : Nat) (step limit : Int64) (σ : LoopState) :
    exec [.recurIncAccum counter accum step limit] σ =
      if limit ≤ numValRef (σ.slot counter) then .exit σ
      else
        match payloadAdd (numValRef (σ.slot accum)) (numValRef (σ.slot counter)) with
        | none => .error outOfPayload
        | some newAccum =>
            match checkedAdd (numValRef (σ.slot counter)) step with
            | none => .error "integer overflow in add"
            | some newCounter =>
                .again ((σ.setSlot accum (.num newAccum)).setSlot counter (.num newCounter)) := rfl

/-- A turn that goes on adds an integer counter that stays in the payload's range to an integer,
with the counter declared first or the accumulator equal to the step; or it overflows in the counter
alone. -/
def TurnsExactly (counter accum : Nat) (step : Int64) (σ : LoopState) : Prop :=
  let c := numValRef (σ.slot counter)
  let a := numValRef (σ.slot accum)
  (σ.slot counter = .num c ∧ σ.slot accum = .num a ∧ InPayload (c.toInt + step.toInt) ∧
      InI64 (a.toInt + c.toInt) ∧ (InPayload (a.toInt + c.toInt) → counter = 0 ∨ a = step)) ∨
    (¬ InI64 (c.toInt + step.toInt) ∧ InPayload (a.toInt + c.toInt))

/-- The turns in which the fused instruction does what the window does: its test agrees with the
comparison. -/
def FusesExactly (cmp : Comparison) (counter accum : Nat) (step imm : Int64) (σ : LoopState) :
    Prop :=
  let c := numValRef (σ.slot counter)
  (cmp.holds c imm = true ↔ cmp.limit imm ≤ c) ∧
    (cmp.holds c imm = false → TurnsExactly counter accum step σ)

theorem add_right_sums (a c step : Int64) : a + c = c + step ↔ a = step := by
  rw [Int64.add_comm c step]
  exact Int64.add_left_inj c

/-- The next state is the same if the counter is variable 0, and otherwise if the two new values
are. -/
theorem next_eq_iff {counter accum : Nat} (vars : counter < 2 ∧ accum < 2 ∧ accum ≠ counter)
    (σ : LoopState) (next sum : LispVal) :
    (σ.setSlot 1 sum).setSlot 0 next = (σ.setSlot accum sum).setSlot counter next ↔
      counter = 0 ∨ sum = next := by
  obtain ⟨counterVar, accumVar, apart⟩ := vars
  rcases counter with _ | _ | counter
  · have one : accum = 1 := by omega
    subst one
    simp
  · have zero : accum = 0 := by omega
    subst zero
    simp [LoopState.setSlot, eq_comm]
  · omega

/-- An unfused turn goes on to a state that the fused one can go on to only with two integers. -/
theorem next_num {counter accum : Nat} (vars : counter < 2 ∧ accum < 2 ∧ accum ≠ counter)
    {σ : LoopState} {sum : LispVal} {next newAccum newCounter : Int64}
    (same : (σ.setSlot 1 sum).setSlot 0 (.num next) =
      (σ.setSlot accum (.num newAccum)).setSlot counter (.num newCounter)) :
    ∃ n, sum = .num n := by
  obtain ⟨counterVar, accumVar, apart⟩ := vars
  have second := congrArg LoopState.second same
  rcases counter with _ | _ | counter
  · have one : accum = 1 := by omega
    subst one
    exact ⟨newAccum, second⟩
  · have zero : accum = 0 := by omega
    subst zero
    exact ⟨newCounter, second⟩
  · omega

theorem numValRef_eq {v : LispVal} {m n : Int64} (is : v = .num m) (reads : numValRef v = n) :
    m = n := by
  rw [← reads, is, numValRef]

/-- The unfused addition gives the fused state only to two integers. -/
theorem sum_turn_iff {counter accum : Nat} (vars : counter < 2 ∧ accum < 2 ∧ accum ≠ counter)
    {σ : LoopState} {a c step : Int64} (ha : numValRef (σ.slot accum) = a)
    (hc : numValRef (σ.slot counter) = c) (accumIn : InPayload (a.toInt + c.toInt)) :
    (match numAdd (σ.slot accum) (σ.slot counter) with
      | .error message => Turn.error message
      | .ok sum => .again ((σ.setSlot 1 sum).setSlot 0 (.num (c + step)))) =
        .again ((σ.setSlot accum (.num (a + c))).setSlot counter (.num (c + step))) ↔
      σ.slot counter = .num c ∧ σ.slot accum = .num a ∧ (counter = 0 ∨ a = step) := by
  constructor
  · intro same
    cases added : numAdd (σ.slot accum) (σ.slot counter) with
    | error message =>
        rw [added] at same
        cases same
    | ok sum =>
        rw [added] at same
        have states := Turn.again.inj same
        obtain ⟨n, rfl⟩ := next_num vars states
        obtain ⟨a', c', slotA, slotC⟩ := numAdd_eq_num added
        have isA : a' = a := numValRef_eq slotA ha
        have isC : c' = c := numValRef_eq slotC hc
        subst isA isC
        rw [slotA, slotC, numAdd_nums accumIn.inI64, if_pos accumIn] at added
        have value := LispVal.num.inj (Except.ok.inj added)
        rw [← value] at states
        refine ⟨slotC, slotA, ((next_eq_iff vars σ _ _).mp states).imp_right fun equal => ?_⟩
        exact (add_right_sums _ _ _).mp (LispVal.num.inj equal)
  · rintro ⟨slotC, slotA, order⟩
    rw [slotA, slotC, numAdd_nums accumIn.inI64, if_pos accumIn]
    refine congrArg Turn.again ((next_eq_iff vars σ _ _).mpr (order.imp_right fun equal => ?_))
    exact congrArg LispVal.num ((add_right_sums _ _ _).mpr equal)

/-- The unfused addition fails as the fused one does only for two integers. -/
theorem sum_error_iff {counter accum : Nat} {σ : LoopState} {a c : Int64} {next : LispVal}
    (ha : numValRef (σ.slot accum) = a) (hc : numValRef (σ.slot counter) = c)
    (accumOut : ¬ InPayload (a.toInt + c.toInt)) :
    (match numAdd (σ.slot accum) (σ.slot counter) with
      | .error message => Turn.error message
      | .ok sum => .again ((σ.setSlot 1 sum).setSlot 0 next)) = .error outOfPayload ↔
      σ.slot counter = .num c ∧ σ.slot accum = .num a ∧ InI64 (a.toInt + c.toInt) := by
  constructor
  · intro same
    cases added : numAdd (σ.slot accum) (σ.slot counter) with
    | ok sum =>
        rw [added] at same
        cases same
    | error message =>
        rw [added] at same
        rw [Turn.error.inj same] at added
        obtain ⟨a', c', slotA, slotC, fits, -⟩ := numAdd_outOfPayload_iff.mp added
        have isA : a' = a := numValRef_eq slotA ha
        have isC : c' = c := numValRef_eq slotC hc
        subst isA isC
        exact ⟨slotC, slotA, fits⟩
  · rintro ⟨slotC, slotA, fits⟩
    rw [slotA, slotC, numAdd_nums fits, if_neg accumOut]

/-- The two sides of a turn that no test ends. -/
theorem turn_eq_iff {counter accum : Nat} (vars : counter < 2 ∧ accum < 2 ∧ accum ≠ counter)
    (step : Int64) (σ : LoopState) :
    ((match payloadAdd (numValRef (σ.slot counter)) step with
      | none => .error "integer overflow in add"
      | some next =>
          match numAdd (σ.slot accum) (σ.slot counter) with
          | .error message => .error message
          | .ok sum => .again ((σ.setSlot 1 sum).setSlot 0 (.num next))) =
      match payloadAdd (numValRef (σ.slot accum)) (numValRef (σ.slot counter)) with
      | none => Turn.error outOfPayload
      | some newAccum =>
          match checkedAdd (numValRef (σ.slot counter)) step with
          | none => .error "integer overflow in add"
          | some newCounter =>
              .again ((σ.setSlot accum (.num newAccum)).setSlot counter (.num newCounter))) ↔
      TurnsExactly counter accum step σ := by
  have texts : "integer overflow in add" ≠ outOfPayload := by decide
  unfold TurnsExactly
  generalize hc : numValRef (σ.slot counter) = c
  generalize ha : numValRef (σ.slot accum) = a
  by_cases counterIn : InPayload (c.toInt + step.toInt)
  · by_cases accumIn : InPayload (a.toInt + c.toInt)
    · simp only [payloadAdd_of_inPayload counterIn, payloadAdd_of_inPayload accumIn,
        checkedAdd_of_inI64 counterIn.inI64, sum_turn_iff vars ha hc accumIn]
      simp [counterIn, counterIn.inI64, accumIn, accumIn.inI64]
    · simp only [payloadAdd_of_inPayload counterIn, payloadAdd_of_not_inPayload accumIn,
        sum_error_iff ha hc accumIn]
      simp [counterIn, accumIn]
  · by_cases accumIn : InPayload (a.toInt + c.toInt)
    · by_cases fits : InI64 (c.toInt + step.toInt)
      · simp only [payloadAdd_of_not_inPayload counterIn, payloadAdd_of_inPayload accumIn,
          checkedAdd_of_inI64 fits]
        simp [counterIn, fits]
      · simp only [payloadAdd_of_not_inPayload counterIn, payloadAdd_of_inPayload accumIn,
          checkedAdd_of_not_inI64 fits]
        exact iff_of_true trivial (.inr ⟨fits, accumIn⟩)
    · simp only [payloadAdd_of_not_inPayload counterIn, payloadAdd_of_not_inPayload accumIn]
      refine iff_of_false (fun same => texts (Turn.error.inj same)) ?_
      simp [counterIn, accumIn]

theorem exec_eq_iff (cmp : Comparison) {counter accum : Nat} (step imm : Int64)
    (vars : counter < 2 ∧ accum < 2 ∧ accum ≠ counter) (σ : LoopState) :
    exec (window cmp counter accum step imm) σ =
        exec [.recurIncAccum counter accum step (cmp.limit imm)] σ ↔
      FusesExactly cmp counter accum step imm σ := by
  rw [exec_window, exec_fused]
  unfold FusesExactly
  by_cases test : cmp.holds (numValRef (σ.slot counter)) imm = true
  · by_cases exits : cmp.limit imm ≤ numValRef (σ.slot counter)
    · simp [test, exits]
    · rw [if_pos test, if_neg exits]
      refine iff_of_false ?_ (fun exact_ => exits (exact_.1.mp test))
      split
      · exact nofun
      · split
        · exact nofun
        · exact nofun
  · by_cases exits : cmp.limit imm ≤ numValRef (σ.slot counter)
    · rw [if_neg test, if_pos exits]
      refine iff_of_false ?_ (fun exact_ => test (exact_.1.mpr exits))
      split
      · exact nofun
      · split
        · exact nofun
        · exact nofun
    · rw [if_neg test, if_neg exits, turn_eq_iff vars]
      simp [test, exits]

/-! ### Runs -/

inductive Place
  | start
  | exit

/-- Where the code outside the window leads: to the loop's end, to its start again, or into the
window, by its first instruction. -/
inductive Next
  | done (r : Except String LispVal)
  | again (σ : LoopState)
  | window (σ : LoopState)

/-- `run_compiled_loop`, with `code` as the window and `elsewhere` as the code before it and at its
exit. -/
def runCompiledLoop (elsewhere : Place → LoopState → Next) (code : List LoopOp) :
    Nat → Place → LoopState → Option (Except String LispVal)
  | 0, _, _ => none
  | fuel + 1, place, σ =>
      match elsewhere place σ with
      | .done r => some r
      | .again τ => runCompiledLoop elsewhere code fuel .start τ
      | .window τ =>
          match exec code τ with
          | .exit υ => runCompiledLoop elsewhere code fuel .exit υ
          | .again υ => runCompiledLoop elsewhere code fuel .start υ
          | .error message => some (.error message)

/-- The states in which a run enters the window. -/
inductive Enters (elsewhere : Place → LoopState → Next) (code : List LoopOp) :
    Place → LoopState → LoopState → Prop
  | here {place σ τ} (enters : elsewhere place σ = .window τ) : Enters elsewhere code place σ τ
  | outside {place σ τ υ} (jumps : elsewhere place σ = .again τ)
      (later : Enters elsewhere code .start τ υ) : Enters elsewhere code place σ υ
  | exit {place σ τ υ ω} (enters : elsewhere place σ = .window τ) (turn : exec code τ = .exit υ)
      (later : Enters elsewhere code .exit υ ω) : Enters elsewhere code place σ ω
  | again {place σ τ υ ω} (enters : elsewhere place σ = .window τ) (turn : exec code τ = .again υ)
      (later : Enters elsewhere code .start υ ω) : Enters elsewhere code place σ ω

/-- Windows that agree in every state in which a run enters them make the same run. -/
theorem runCompiledLoop_congr {elsewhere : Place → LoopState → Next} {plain fused : List LoopOp}
    (fuel : Nat) (place : Place) (σ : LoopState)
    (agree : ∀ τ, Enters elsewhere plain place σ τ → exec plain τ = exec fused τ) :
    runCompiledLoop elsewhere plain fuel place σ =
      runCompiledLoop elsewhere fused fuel place σ := by
  induction fuel generalizing place σ with
  | zero => rfl
  | succ fuel ih =>
      unfold runCompiledLoop
      cases step : elsewhere place σ with
      | done r => rfl
      | again τ => exact ih .start τ fun υ later => agree υ (.outside step later)
      | window τ =>
          have same := agree τ (.here step)
          simp only [← same]
          cases turn : exec plain τ with
          | exit υ => exact ih .exit υ fun ω later => agree ω (.exit step turn later)
          | again υ => exact ih .start υ fun ω later => agree ω (.again step turn later)
          | error message => rfl

/-! ### The two fusions -/

/-- The fusions of a loop whose two variables `slotMap` names, and what they replace. -/
inductive FusesTo (slotMap : List String) : List LoopOp → List LoopOp → Prop
  | peephole {plain fused : List LoopOp} (twoVars : ∀ s, LoopOp.loadSlot s ∈ plain → s < 2)
      (fuses : megaFuse plain = some fused) : FusesTo slotMap plain fused
  | body {body : LispVal} {plain fused : List LoopOp}
      (fuses : compileBody slotMap body = some fused)
      (unfused : plainBody slotMap body = some plain) : FusesTo slotMap plain fused

theorem megaFuse_cases {plain fused : List LoopOp} (fuses : megaFuse plain = some fused) :
    ∃ cmp counter accum step imm, plain = window cmp counter accum step imm ∧ accum ≠ counter ∧
      fused = [.recurIncAccum counter accum step (cmp.limit imm)] := by
  unfold megaFuse at fuses
  split at fuses
  · rename_i cmp counter imm cs step accum as2 n
    split at fuses
    · rename_i matches_
      obtain ⟨rfl, rfl, apart, rfl⟩ := matches_
      exact ⟨cmp, _, accum, step, imm, rfl, apart, (Option.some.inj fuses).symm⟩
    · cases fuses
  · cases fuses

theorem slotOf_lt {slotMap : List String} {name : String} {slot : Nat}
    (found : slotOf slotMap name = some slot) :
    ∃ inside : slot < slotMap.length, slotMap[slot] = name := by
  obtain ⟨inside, same, -⟩ := List.findIdx?_eq_some_iff_getElem.mp found
  exact ⟨inside, by simpa using same⟩

theorem compileBody_cases {slotMap : List String} {body : LispVal} {plain fused : List LoopOp}
    (fuses : compileBody slotMap body = some fused)
    (unfused : plainBody slotMap body = some plain) :
    ∃ counter accum step limit, plain = window .ge counter accum step limit ∧
      (counter < 2 ∧ accum < 2 ∧ accum ≠ counter) ∧
        fused = [.jumpIfSlotImm .ge counter limit, .recurIncAccum counter accum step limit] := by
  unfold compileBody at fuses
  split at fuses
  · rename_i limit _ _ _ _ step _ _ _ _
    split at fuses
    · rename_i matches_
      obtain ⟨two, -, -, -, -, -, rfl, rfl, rfl, apart⟩ := matches_
      split at fuses
      · rename_i cs as_ counterSlot accumSlot
        simp only [plainBody, counterSlot, accumSlot] at unfused
        obtain ⟨counterVar, counterIs⟩ := slotOf_lt counterSlot
        obtain ⟨accumVar, accumIs⟩ := slotOf_lt accumSlot
        refine ⟨cs, as_, step, limit, (Option.some.inj unfused).symm, ⟨by omega, by omega, ?_⟩,
          (Option.some.inj fuses).symm⟩
        rintro rfl
        exact apart (counterIs.symm.trans accumIs)
      · cases fuses
    · cases fuses
  · cases fuses

/-- The test that `compile_body` leaves before the fused instruction is the instruction's own. -/
theorem exec_body (counter accum : Nat) (step limit : Int64) (σ : LoopState) :
    exec [.jumpIfSlotImm .ge counter limit, .recurIncAccum counter accum step limit] σ =
      exec [.recurIncAccum counter accum step limit] σ := by
  by_cases exits : limit ≤ numValRef (σ.slot counter)
  · simp [exec, Comparison.holds, exits]
  · simp [exec, Comparison.holds, exits]

/-- What is fused is a window over the two variables, and the fused code does what the one
instruction does. -/
theorem FusesTo.isWindow {slotMap : List String} {plain fused : List LoopOp}
    (fuses : FusesTo slotMap plain fused) :
    ∃ cmp counter accum step imm, plain = window cmp counter accum step imm ∧
      (counter < 2 ∧ accum < 2 ∧ accum ≠ counter) ∧
        ∀ σ, exec fused σ = exec [.recurIncAccum counter accum step (cmp.limit imm)] σ := by
  cases fuses with
  | peephole twoVars fuses =>
      obtain ⟨cmp, counter, accum, step, imm, rfl, apart, rfl⟩ := megaFuse_cases fuses
      have counterVar := twoVars counter (by simp [window])
      have accumVar := twoVars accum (by simp [window])
      exact ⟨cmp, counter, accum, step, imm, rfl, ⟨counterVar, accumVar, apart⟩, fun _ => rfl⟩
  | body fuses unfused =>
      obtain ⟨counter, accum, step, limit, rfl, vars, rfl⟩ := compileBody_cases fuses unfused
      exact ⟨.ge, counter, accum, step, limit, rfl, vars, exec_body counter accum step limit⟩

/-- The fused code does what the window does in a state exactly under `FusesExactly`, and it may
replace the window in every run that enters the window in such states only. -/
theorem megaFuse_exact_iff {slotMap : List String} {cmp : Comparison} {counter accum : Nat}
    {step imm : Int64} {fused : List LoopOp}
    (fuses : FusesTo slotMap (window cmp counter accum step imm) fused) :
    (∀ σ, exec (window cmp counter accum step imm) σ = exec fused σ ↔
        FusesExactly cmp counter accum step imm σ) ∧
      ∀ elsewhere place σ,
        (∀ τ, Enters elsewhere (window cmp counter accum step imm) place σ τ →
          FusesExactly cmp counter accum step imm τ) →
            ∀ fuel, runCompiledLoop elsewhere (window cmp counter accum step imm) fuel place σ =
              runCompiledLoop elsewhere fused fuel place σ := by
  have exact_ : ∀ σ, exec (window cmp counter accum step imm) σ = exec fused σ ↔
      FusesExactly cmp counter accum step imm σ := by
    obtain ⟨cmp', counter', accum', step', imm', shape, vars, runs⟩ := fuses.isWindow
    simp only [window, List.cons.injEq, LoopOp.jumpIfSlotImm.injEq, LoopOp.slotAddImm.injEq,
      LoopOp.loadSlot.injEq] at shape
    obtain ⟨⟨rfl, rfl, rfl⟩, ⟨-, rfl⟩, rfl, -⟩ := shape
    intro σ
    rw [runs]
    exact exec_eq_iff cmp step imm vars σ
  refine ⟨exact_, ?_⟩
  intro elsewhere place σ meets fuel
  exact runCompiledLoop_congr fuel place σ fun τ enters => (exact_ τ).mpr (meets τ enters)

/-- `(if (>= i 4) acc (recur (+ i 1) (+ acc i)))` -/
def sumBody : LispVal :=
  .list [.sym "if", .list [.sym ">=", .sym "i", .num 4], .sym "acc",
    .list [.sym "recur", .list [.sym "+", .sym "i", .num 1],
      .list [.sym "+", .sym "acc", .sym "i"]]]

/-- The code around the window of such a body, which returns the accumulator. -/
def aroundBody (accum : Nat) : Place → LoopState → Next
  | .start, σ => .window σ
  | .exit, σ => .done (.ok (σ.slot accum))

def zeros : LoopState := ⟨.num 0, .num 0, [], []⟩

theorem sumBody_fusesTo : FusesTo ["i", "acc"] (window .ge 0 1 1 4)
    [.jumpIfSlotImm .ge 0 4, .recurIncAccum 0 1 1 4] :=
  @FusesTo.body _ sumBody _ _ rfl rfl

/-- One turn before the exit. -/
def atThree : LoopState := ⟨.num 3, .num 3, [], []⟩

def atFour : LoopState := ⟨.num 4, .num 6, [], []⟩

theorem sumBody_enters {τ : LoopState}
    (enters : Enters (aroundBody 1) (window .ge 0 1 1 4) .start atThree τ) :
    τ = atThree ∨ τ = atFour := by
  have next : exec (window .ge 0 1 1 4) atThree = .again atFour := rfl
  have last : exec (window .ge 0 1 1 4) atFour = .exit atFour := rfl
  cases enters with
  | here enters => exact .inl (Next.window.inj enters).symm
  | outside jumps => cases jumps
  | exit enters turn =>
      cases enters
      rw [next] at turn
      cases turn
  | again enters turn later =>
      cases enters
      rw [next] at turn
      cases turn
      cases later with
      | here enters => exact .inr (Next.window.inj enters).symm
      | outside jumps => cases jumps
      | again enters turn =>
          cases enters
          rw [last] at turn
          cases turn
      | exit enters turn later =>
          cases enters
          rw [last] at turn
          cases turn
          cases later with
          | here enters => cases enters
          | outside jumps => cases jumps
          | exit enters => cases enters
          | again enters => cases enters

theorem megaFuse_exact_iff_sumBody :
    runCompiledLoop (aroundBody 1) (window .ge 0 1 1 4) 9 .start atThree =
      runCompiledLoop (aroundBody 1) [.jumpIfSlotImm .ge 0 4, .recurIncAccum 0 1 1 4] 9 .start
        atThree := by
  refine (megaFuse_exact_iff sumBody_fusesTo).2 (aroundBody 1) .start atThree ?_ 9
  intro τ enters
  rcases sumBody_enters enters with rfl | rfl
  · exact ⟨by decide, fun _ => .inl ⟨rfl, rfl, by decide, by decide, fun _ => .inl rfl⟩⟩
  · exact ⟨by decide, fun goesOn => absurd goesOn (by decide)⟩

/-- Declared after the accumulator, the counter is assigned the wrong sum without the fusion: 3 is
returned, and 6 with it. -/
theorem sumBody_accumFirst :
    compileBody ["acc", "i"] sumBody = some [.jumpIfSlotImm .ge 1 4, .recurIncAccum 1 0 1 4] ∧
      plainBody ["acc", "i"] sumBody = some (window .ge 1 0 1 4) ∧
        runCompiledLoop (aroundBody 0) (window .ge 1 0 1 4) 9 .start zeros = some (.ok (.num 3)) ∧
          runCompiledLoop (aroundBody 0) [.jumpIfSlotImm .ge 1 4, .recurIncAccum 1 0 1 4] 9 .start
            zeros = some (.ok (.num 6)) := by
  refine ⟨rfl, rfl, rfl, rfl⟩

end LispRlm.Bytecode
