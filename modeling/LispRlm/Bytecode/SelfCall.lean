import LispRlm.Bytecode.Values

/-! Calls of a compiled lambda, and the call of itself that its loop makes without recursion. -/

namespace LispRlm.Bytecode

/-- The instructions of a lambda: its calls of itself, its returns, and the others (`O`). -/
inductive LambdaOp (O : Type)
  | callSelf (nArgs : Nat)
  | ret
  | retSlot (slot : Nat)
  | other (o : O)

structure CompiledLambda (O : Type) where
  name : String
  code : List (LambdaOp O)
  numParamSlots : Nat
  numFixedParams : Nat
  restParamIdx : Option Nat
  totalSlots : Nat

/-- The registers of one invocation. The stack's top is its head. -/
structure Registers (C : Type) where
  pc : Nat
  slots : List LispVal
  stack : List LispVal
  captureCells : List C

/-- What a call of itself saves, but for the capture cells, which no return restores. -/
structure Frame where
  pc : Nat
  slots : List LispVal
  stack : List LispVal

/-- How a run ends: with a value, and so much of the budget of instructions left; with a message; by
an index or a slice out of range; or over the budget. -/
inductive Ended (C W : Type)
  | value (v : LispVal) (w : W) (captureCells : List C) (left : Nat)
  | error (message : String)
  | panic
  | overBudget

/-- `n` times `stack.pop().unwrap_or(LispVal::Nil)`, reversed, and what is left. -/
def popArgs (n : Nat) (stack : List LispVal) : List LispVal × List LispVal :=
  (((List.range n).map fun i => stack.getD i .nil).reverse, stack.drop n)

theorem popArgs_length (n : Nat) (stack : List LispVal) : (popArgs n stack).1.length = n := by
  simp [popArgs]

namespace CompiledLambda

variable {O C W : Type} (cl : CompiledLambda O)

/-- The registers of a new invocation. A variadic lambda's rest parameter takes the arguments after
the fixed ones, a slice that is out of range if there are fewer. -/
def enter (args : List LispVal) : Option (Registers C) :=
  let filled := args.take cl.numParamSlots
  if cl.totalSlots < filled.length then none
  else
    let slots := filled ++ List.replicate (cl.totalSlots - filled.length) LispVal.nil
    match cl.restParamIdx with
    | none => some ⟨0, slots, [], []⟩
    | some restIdx =>
        if args.length < cl.numFixedParams ∨ cl.totalSlots ≤ restIdx then none
        else some ⟨0, slots.set restIdx (.list (args.drop cl.numFixedParams)), [], []⟩

/-- The loop of `run_compiled_lambda_inner`, with the frames of the calls of itself under way. -/
def loop (exec : O → Registers C → W → Except String (Registers C × W)) :
    Nat → Registers C → List Frame → W → Ended C W
  | 0, _, _, _ => .overBudget
  | left + 1, r, frames, w =>
      let return_ (retval : LispVal) : Ended C W :=
        match frames with
        | [] => .value retval w r.captureCells left
        | frame :: frames =>
            loop exec left ⟨frame.pc, frame.slots, retval :: frame.stack, r.captureCells⟩ frames w
      match cl.code[r.pc]? with
      | none => .error "compiled lambda: pc out of bounds"
      | some (.callSelf nArgs) =>
          let (args, stack) := popArgs nArgs r.stack
          match cl.enter args with
          | none => .panic
          | some r' => loop exec left r' (⟨r.pc + 1, r.slots, stack⟩ :: frames) w
      | some .ret => return_ (r.stack.headD .nil)
      | some (.retSlot slot) => return_ (r.slots.getD slot .nil)
      | some (.other o) =>
          match exec o r w with
          | .error message => .error message
          | .ok (r', w') => loop exec left r' frames w'

def arityError (nArgs : Nat) : Option String :=
  match cl.restParamIdx with
  | some _ =>
      if nArgs < cl.numFixedParams then
        some ("arity mismatch: " ++ cl.name ++ " expects at least " ++ toString cl.numFixedParams ++
          " args, got " ++ toString nArgs)
      else none
  | none =>
      if nArgs ≠ cl.numFixedParams then
        some ("arity mismatch: " ++ cl.name ++ " expects " ++ toString cl.numFixedParams ++
          " args, got " ++ toString nArgs)
      else none

/-- `run_compiled_lambda`, before it adds the trace to a message. -/
def runCompiledLambda (exec : O → Registers C → W → Except String (Registers C × W))
    (callDepth maxCallDepth budget : Nat) (args : List LispVal) (w : W) : Ended C W :=
  if maxCallDepth < callDepth + 1 then .error "call depth exceeded"
  else
    match cl.arityError args.length with
    | some message => .error message
    | none =>
        match cl.enter args with
        | none => .panic
        | some r => cl.loop exec budget r [] w

/-- The fixed parameters are given, and nothing more unless the lambda is variadic. -/
def ArityOk (nArgs : Nat) : Prop :=
  if cl.restParamIdx.isSome then cl.numFixedParams ≤ nArgs else nArgs = cl.numFixedParams

end CompiledLambda

section Calls

variable {O C W : Type} (cl : CompiledLambda O)
  (exec : O → Registers C → W → Except String (Registers C × W))

/-- A run that ended inside a call goes on in the frame below, with `extra` instructions more. -/
def Ended.resume (frame : Frame) (below : List Frame) (extra : Nat) : Ended C W → Ended C W
  | .value v w cells left =>
      cl.loop exec (left + extra) ⟨frame.pc, frame.slots, v :: frame.stack, cells⟩ below w
  | other => other

/-- Frames below a run stay as they are until it returns to them. -/
theorem loop_frames (left extra : Nat) (r : Registers C) (frames below : List Frame)
    (frame : Frame) (w : W) (inBudget : extra = 0 ∨ cl.loop exec left r frames w ≠ .overBudget) :
    cl.loop exec (left + extra) r (frames ++ frame :: below) w =
      Ended.resume cl exec frame below extra (cl.loop exec left r frames w) := by
  induction left generalizing r frames w with
  | zero =>
      rcases inBudget with rfl | within
      · rfl
      · exact absurd rfl within
  | succ left ih =>
      rw [Nat.succ_add]
      unfold CompiledLambda.loop at inBudget ⊢
      cases op : cl.code[r.pc]? with
      | none => rfl
      | some op' =>
          rw [op] at inBudget
          cases op' with
          | callSelf nArgs =>
              simp only at inBudget ⊢
              cases entered : cl.enter (C := C) (popArgs nArgs r.stack).1 with
              | none => rfl
              | some r' =>
                  rw [entered] at inBudget
                  exact ih r' (_ :: frames) w inBudget
          | ret =>
              cases frames with
              | nil => rfl
              | cons top frames => exact ih _ frames w inBudget
          | retSlot slot =>
              cases frames with
              | nil => rfl
              | cons top frames => exact ih _ frames w inBudget
          | other o =>
              simp only at inBudget ⊢
              cases ran : exec o r w with
              | error message => rfl
              | ok next =>
                  rw [ran] at inBudget
                  exact ih next.1 frames next.2 inBudget

/-- The loop goes on from a call of itself as this end of a call says, whatever more of the budget
there is: the value is pushed over what the arguments were pushed on, and an error is an error. -/
def Answers (nArgs : Nat) (r : Registers C) (frames : List Frame) (w : W) (budget : Nat) :
    Ended C W → Prop
  | .value v w' cells left => ∀ extra,
      cl.loop exec (budget + extra + 1) r frames w =
        cl.loop exec (left + extra)
          ⟨r.pc + 1, r.slots, v :: (popArgs nArgs r.stack).2, cells⟩ frames w'
  | .error message => ∀ extra, cl.loop exec (budget + extra + 1) r frames w = .error message
  | .panic => ∀ extra, cl.loop exec (budget + extra + 1) r frames w = .panic
  | .overBudget => cl.loop exec (budget + 1) r frames w = .overBudget

/-- A call of itself, from these registers, does what `run_compiled_lambda` does with the same
arguments. -/
def CallSelfExact (callDepth maxCallDepth nArgs : Nat) (r : Registers C) (frames : List Frame)
    (w : W) : Prop :=
  ∀ budget, Answers cl exec nArgs r frames w budget
    (cl.runCompiledLambda exec callDepth maxCallDepth budget (popArgs nArgs r.stack).1 w)

variable {cl exec}

theorem loop_callSelf {nArgs : Nat} {r : Registers C}
    (here : cl.code[r.pc]? = some (.callSelf nArgs)) (left : Nat) (frames : List Frame) (w : W) :
    cl.loop exec (left + 1) r frames w =
      match cl.enter (popArgs nArgs r.stack).1 with
      | none => .panic
      | some r' =>
          cl.loop exec left r' (⟨r.pc + 1, r.slots, (popArgs nArgs r.stack).2⟩ :: frames) w := by
  rw [CompiledLambda.loop]
  simp only [here]

theorem arityError_isNone_iff (nArgs : Nat) : cl.arityError nArgs = none ↔ cl.ArityOk nArgs := by
  unfold CompiledLambda.arityError CompiledLambda.ArityOk
  cases cl.restParamIdx with
  | none =>
      by_cases same : nArgs = cl.numFixedParams
      · simp [same]
      · simp [same]
  | some idx =>
      by_cases few : nArgs < cl.numFixedParams
      · simp [few]
      · simp [few, Nat.le_of_not_lt few]

/-- With the right number of arguments and room for one more call, the frames are a call's. -/
theorem callSelf_exact {callDepth maxCallDepth nArgs : Nat} {r : Registers C}
    (here : cl.code[r.pc]? = some (.callSelf nArgs)) (arity : cl.ArityOk nArgs)
    (shallow : callDepth < maxCallDepth) (frames : List Frame) (w : W) :
    CallSelfExact cl exec callDepth maxCallDepth nArgs r frames w := by
  intro budget
  have noError : cl.arityError (popArgs nArgs r.stack).1.length = none := by
    rw [popArgs_length]
    exact (arityError_isNone_iff nArgs).mpr arity
  have starts := fun left => @loop_callSelf _ _ _ cl exec _ _ here left frames w
  have runs : cl.runCompiledLambda exec callDepth maxCallDepth budget (popArgs nArgs r.stack).1 w =
      match cl.enter (popArgs nArgs r.stack).1 with
      | none => .panic
      | some r' => cl.loop exec budget r' [] w := by
    unfold CompiledLambda.runCompiledLambda
    rw [if_neg (by omega), noError]
  cases entered : cl.enter (C := C) (popArgs nArgs r.stack).1 with
  | none =>
      rw [entered] at runs
      rw [runs]
      intro extra
      rw [starts, entered]
  | some r' =>
      rw [entered] at runs
      simp only [entered] at starts
      have runs : _ = cl.loop exec budget r' [] w := runs
      have below := fun extra => loop_frames cl exec budget extra r' [] frames
        ⟨r.pc + 1, r.slots, (popArgs nArgs r.stack).2⟩ w
      simp only [List.nil_append] at below
      have returns : ∀ extra, cl.loop exec budget r' [] w ≠ .overBudget →
          cl.loop exec (budget + extra + 1) r frames w =
            Ended.resume cl exec ⟨r.pc + 1, r.slots, (popArgs nArgs r.stack).2⟩ frames extra
              (cl.loop exec budget r' [] w) :=
        fun extra within => (starts (budget + extra)).trans (below extra (.inr within))
      rw [runs]
      cases ended : cl.loop exec budget r' [] w with
      | value v w' cells left =>
          rw [ended] at returns
          exact fun extra => returns extra nofun
      | error message =>
          rw [ended] at returns
          exact fun extra => returns extra nofun
      | panic =>
          rw [ended] at returns
          exact fun extra => returns extra nofun
      | overBudget =>
          have same := below 0 (.inl rfl)
          rw [ended] at same
          exact (starts budget).trans same

/-- With no instructions left for its body, a call of itself ends over the budget or by a slice out
of range, never with the message that `run_compiled_lambda` refuses a call with. -/
theorem callSelf_unchecked {nArgs : Nat} {r : Registers C}
    (here : cl.code[r.pc]? = some (.callSelf nArgs)) (frames : List Frame) (w : W)
    (message : String) : cl.loop exec 1 r frames w ≠ .error message := by
  have starts := @loop_callSelf _ _ _ cl exec _ _ here 0 frames w
  rw [starts]
  cases cl.enter (C := C) (popArgs nArgs r.stack).1 with
  | none => exact nofun
  | some r' => exact nofun

end Calls

/-! ### A call without its argument -/

inductive SlotOp
  | loadSlot (slot : Nat)
  | jumpIfFalse (pc : Nat)
  | pushI64 (n : Int64)

def execSlotOp : SlotOp → Registers Unit → Unit → Except String (Registers Unit × Unit)
  | .loadSlot slot, r, w =>
      .ok (⟨r.pc + 1, r.slots, r.slots.getD slot .nil :: r.stack, r.captureCells⟩, w)
  | .jumpIfFalse pc, r, w =>
      let next := if (r.stack.headD .nil).isTruthy then r.pc + 1 else pc
      .ok (⟨next, r.slots, r.stack.tail, r.captureCells⟩, w)
  | .pushI64 n, r, w => .ok (⟨r.pc + 1, r.slots, .num n :: r.stack, r.captureCells⟩, w)

/-- `(define (f x) (if x (f) 7))` -/
def callsBare : CompiledLambda SlotOp where
  name := "f"
  code := [.other (.loadSlot 0), .other (.jumpIfFalse 4), .callSelf 0, .ret, .other (.pushI64 7),
    .ret]
  numParamSlots := 1
  numFixedParams := 1
  restParamIdx := none
  totalSlots := 1

/-- Where `f` calls itself without its argument. -/
def atCall : Registers Unit := ⟨2, [.bool true], [], []⟩

end LispRlm.Bytecode
