import LispRlm.WasmEmit.FixedPoint

/-! Vector lengths that `while` moves out of its condition: read once, into a numbered local, where
the body does not assign the vector's variable. -/

namespace LispRlm.WasmEmit

open LinearMemory

namespace LoopHoisting

/-- A variable of the program, or the local `__licm_i` of the emitter. -/
inductive LocalName
  | var (name : String)
  | licm (i : Nat)
  deriving DecidableEq

structure State where
  memory : LinearMemory
  locals : LocalName → I64

def State.set (s : State) (x : LocalName) (w : I64) : State :=
  { s with locals := fun y => if y = x then w else s.locals y }

inductive Expr
  | const (w : I64)
  | sym (x : String)
  | set (x : String) (e : Expr)
  | vecLength (y : String)
  /-- The local that stands for a length that was moved. -/
  | licm (i : Nat) (y : String)
  /-- A form or a callee that evaluates its operands and does what it likes with the memory. The
  form may be `=`. -/
  | prim (isEq : Bool) (f : List I64 → LinearMemory → Option (I64 × LinearMemory))
      (args : List Expr)
  | begin (es : List Expr)
  | ite (c t e : Expr)
  /-- `and`, `or` -/
  | logic (conj : Bool) (a b : Expr)
  | letIn (x : String) (e body : Expr)
  | while (c : Expr) (body : List Expr)

/-! ### The analysis -/

/-- The first operand, where it is a name. -/
def headSym : List Expr → List String
  | .sym x :: _ => [x]
  | _ => []

mutual

/-- The names that a form assigns or binds. What `=` compares counts as assigned. -/
def setTargets : Expr → List String
  | .const _ | .sym _ | .vecLength _ | .licm _ _ => []
  | .set x e => x :: setTargets e
  | .prim isEq _ args => (if isEq then headSym args else []) ++ setTargetss args
  | .begin es => setTargetss es
  | .ite c t e => setTargets c ++ setTargets t ++ setTargets e
  | .logic _ a b => setTargets a ++ setTargets b
  | .letIn x e body => x :: (setTargets e ++ setTargets body)
  | .while c body => setTargets c ++ setTargetss body

def setTargetss : List Expr → List String
  | [] => []
  | e :: es => setTargets e ++ setTargetss es

end

mutual

/-- A condition with locals in the place of the lengths that are moved, after those in `ys`. -/
def walk (assigned : List String) : Expr → List String → Expr × List String
  | .const w, ys => (.const w, ys)
  | .sym x, ys => (.sym x, ys)
  | .licm i y, ys => (.licm i y, ys)
  | .vecLength y, ys =>
      if y ∈ assigned then (.vecLength y, ys) else (.licm ys.length y, ys ++ [y])
  | .set x e, ys =>
      let (e, ys) := walk assigned e ys
      (.set x e, ys)
  | .prim isEq f args, ys =>
      let (args, ys) := walks assigned args ys
      (.prim isEq f args, ys)
  | .begin es, ys =>
      let (es, ys) := walks assigned es ys
      (.begin es, ys)
  | .ite c t e, ys =>
      let (c, ys) := walk assigned c ys
      let (t, ys) := walk assigned t ys
      let (e, ys) := walk assigned e ys
      (.ite c t e, ys)
  | .logic conj a b, ys =>
      let (a, ys) := walk assigned a ys
      let (b, ys) := walk assigned b ys
      (.logic conj a b, ys)
  | .letIn x e body, ys =>
      let (e, ys) := walk assigned e ys
      let (body, ys) := walk assigned body ys
      (.letIn x e body, ys)
  | .while c body, ys =>
      let (c, ys) := walk assigned c ys
      let (body, ys) := walks assigned body ys
      (.while c body, ys)

def walks (assigned : List String) : List Expr → List String → List Expr × List String
  | [], ys => ([], ys)
  | e :: es, ys =>
      let (e, ys) := walk assigned e ys
      let (es, ys) := walks assigned es ys
      (e :: es, ys)

end

/-- The condition of a loop, and the vectors whose lengths are moved out of it. -/
def hoistCondReads (c : Expr) (body : List Expr) : Expr × List String :=
  walk (setTargetss body) c []

/-! ### Evaluation -/

inductive Outcome (α : Type)
  | ok (a : α) (s : State)
  | trap
  | timeout
  /-- A local that no longer holds the length it stands for. -/
  | stale

def Outcome.andThen {α β : Type} : Outcome α → (α → State → Outcome β) → Outcome β
  | .ok a s, k => k a s
  | .trap, _ => .trap
  | .timeout, _ => .timeout
  | .stale, _ => .stale

def Outcome.isTrap {α : Type} : Outcome α → Bool
  | .trap => true
  | _ => false

/-- `vec-length` of a string or of an array's word. -/
def vecLengthWord (m : LinearMemory) (w : I64) : Option I64 :=
  if w &&& 7 = 5 then some (Builtin.tagNum (Builtin.untag w >>> 32))
  else (m.loadI64 ((Builtin.untag w).setWidth 32).toNat).map Builtin.tagNum

def lengthOf (y : String) (s : State) : Option I64 := vecLengthWord s.memory (s.locals (.var y))

/-- The lengths that are read before the loop. -/
def enter : List String → Nat → State → Option State
  | [], _, s => some s
  | y :: ys, i, s => do
      let w ← lengthOf y s
      enter ys (i + 1) (s.set (.licm i) w)

/-- As the source has it; as the emitted code does it; and as the emitted code does it, with every
length that a local stands for read again and compared. -/
inductive Mode
  | plain
  | emitted
  | watched

def readLicm (mode : Mode) (i : Nat) (y : String) (s : State) : Outcome I64 :=
  match mode, lengthOf y s with
  | .plain, some w => .ok w s
  | .plain, none => .trap
  | .emitted, _ => .ok (s.locals (.licm i)) s
  | .watched, some w => if w = s.locals (.licm i) then .ok w s else .stale
  | .watched, none => .stale

mutual

def eval : Nat → Mode → Expr → State → Outcome I64
  | 0, _, _, _ => .timeout
  | _ + 1, _, .const w, s => .ok w s
  | _ + 1, _, .sym x, s => .ok (s.locals (.var x)) s
  | _ + 1, _, .vecLength y, s =>
      match lengthOf y s with
      | some w => .ok w s
      | none => .trap
  | _ + 1, mode, .licm i y, s => readLicm mode i y s
  | fuel + 1, mode, .set x e, s =>
      (eval fuel mode e s).andThen fun w s => .ok 4 (s.set (.var x) w)
  | fuel + 1, mode, .prim _ f args, s =>
      (evalArgs fuel mode args s).andThen fun ws s =>
        match f ws s.memory with
        | some (w, m) => .ok w { s with memory := m }
        | none => .trap
  | fuel + 1, mode, .begin es, s => evalSeq fuel mode es s
  | fuel + 1, mode, .ite c t e, s =>
      (eval fuel mode c s).andThen fun w s =>
        if FixedPoint.Operation.truthy w then eval fuel mode t s else eval fuel mode e s
  | fuel + 1, mode, .logic conj a b, s =>
      (eval fuel mode a s).andThen fun w s =>
        if FixedPoint.Operation.truthy w = conj then eval fuel mode b s else .ok w s
  | fuel + 1, mode, .letIn x e body, s =>
      (eval fuel mode e s).andThen fun w s =>
        (eval fuel mode body (s.set (.var x) w)).andThen fun v t =>
          .ok v (t.set (.var x) (s.locals (.var x)))
  | fuel + 1, mode, .while c body, s =>
      match mode with
      | .plain => turns fuel .plain c body s
      | .emitted =>
          match enter (hoistCondReads c body).2 0 s with
          | some s => turns fuel .emitted (hoistCondReads c body).1 body s
          | none => .trap
      | .watched =>
          match enter (hoistCondReads c body).2 0 s with
          | some s => turns fuel .watched (hoistCondReads c body).1 body s
          | none => if firstTraps fuel c s then .trap else .stale

/-- Whether the condition traps the first time. -/
def firstTraps : Nat → Expr → State → Bool
  | 0, _, _ => false
  | fuel + 1, c, s => (eval fuel .plain c s).isTrap

def evalArgs : Nat → Mode → List Expr → State → Outcome (List I64)
  | 0, _, _, _ => .timeout
  | _ + 1, _, [], s => .ok [] s
  | fuel + 1, mode, e :: es, s =>
      (eval fuel mode e s).andThen fun w s =>
        (evalArgs fuel mode es s).andThen fun ws s => .ok (w :: ws) s

/-- The value of the last expression. -/
def evalSeq : Nat → Mode → List Expr → State → Outcome I64
  | 0, _, _, _ => .timeout
  | _ + 1, _, [], s => .ok 4 s
  | fuel + 1, mode, e :: es, s =>
      (eval fuel mode e s).andThen fun w s =>
        if es.isEmpty then .ok w s else evalSeq fuel mode es s

/-- The turns of a loop, the condition first. -/
def turns : Nat → Mode → Expr → List Expr → State → Outcome I64
  | 0, _, _, _, _ => .timeout
  | fuel + 1, mode, c, body, s =>
      (eval fuel mode c s).andThen fun w s =>
        if FixedPoint.Operation.truthy w then
          (evalSeq fuel mode body s).andThen fun _ s => turns fuel mode c body s
        else .ok 4 s

end


/-! ### Agreement -/

/-- The states of two runs: alike in what the program sees and, unless the first run keeps no
lengths, in the lengths that are kept. -/
structure Matches (mode : Mode) (s t : State) : Prop where
  memory : s.memory = t.memory
  vars : ∀ x, s.locals (.var x) = t.locals (.var x)
  licms : mode ≠ .plain → ∀ i, s.locals (.licm i) = t.locals (.licm i)

def Outcome.Agrees {α : Type} (mode : Mode) : Outcome α → Outcome α → Prop
  | .ok a s, .ok b t => a = b ∧ Matches mode s t
  | .trap, .trap => True
  | .timeout, .timeout => True
  | _, _ => False

theorem Matches.refl (mode : Mode) (s : State) : Matches mode s s :=
  ⟨rfl, fun _ => rfl, fun _ _ => rfl⟩

theorem Matches.set {mode : Mode} {s t : State} (h : Matches mode s t) (x : LocalName) (w : I64) :
    Matches mode (s.set x w) (t.set x w) where
  memory := h.memory
  vars y := by
    simp only [State.set]
    split
    · rfl
    · exact h.vars y
  licms hm i := by
    simp only [State.set]
    split
    · rfl
    · exact h.licms hm i

theorem Matches.store {mode : Mode} {s t : State} (h : Matches mode s t) (m : LinearMemory) :
    Matches mode { s with memory := m } { t with memory := m } :=
  ⟨rfl, h.vars, h.licms⟩

theorem Matches.lengthOf {mode : Mode} {s t : State} (h : Matches mode s t) (y : String) :
    lengthOf y s = lengthOf y t := by
  rw [LoopHoisting.lengthOf, h.memory, h.vars, LoopHoisting.lengthOf]

/-- Reading lengths ahead changes nothing that the program sees. -/
theorem enter_matches {ys : List String} {i : Nat} {s t : State} (h : enter ys i s = some t) :
    Matches .plain s t := by
  induction ys generalizing i s with
  | nil =>
    obtain rfl : s = t := by simpa [enter] using h
    exact Matches.refl .plain s
  | cons y ys ih =>
    simp only [enter, Option.bind_eq_bind, Option.bind_eq_some_iff] at h
    obtain ⟨w, -, h⟩ := h
    have rest := ih h
    exact ⟨rest.memory, fun x => by rw [← rest.vars]; simp [State.set], fun hm => absurd rfl hm⟩

theorem enter_agrees {mode : Mode} (ys : List String) (i : Nat) {s t : State}
    (h : Matches mode s t) :
    (enter ys i s = none ∧ enter ys i t = none) ∨
      ∃ s' t', enter ys i s = some s' ∧ enter ys i t = some t' ∧ Matches mode s' t' := by
  induction ys generalizing i s t with
  | nil => exact .inr ⟨s, t, rfl, rfl, h⟩
  | cons y ys ih =>
    simp only [enter, h.lengthOf y]
    cases lengthOf y t with
    | none => exact .inl ⟨rfl, rfl⟩
    | some w => exact ih (i + 1) (h.set (.licm i) w)

namespace Outcome

variable {α β : Type} {mode : Mode}

theorem agrees_trans_symm {a b c : Outcome α} (h₁ : a.Agrees .plain c) (h₂ : b.Agrees .emitted c) :
    a.Agrees .plain b := by
  cases a <;> cases b <;> cases c <;> try first | trivial | exact h₁.elim | exact h₂.elim
  obtain ⟨rfl, m₁⟩ := h₁
  obtain ⟨rfl, m₂⟩ := h₂
  exact ⟨rfl, m₁.memory.trans m₂.memory.symm, fun x => (m₁.vars x).trans (m₂.vars x).symm,
    fun hm => absurd rfl hm⟩

/-- Two parts one after the other. What is stale in either stays so. -/
theorem andThen_agrees {o o' : Outcome α} {k k' : α → State → Outcome β}
    (h : o'.andThen k' ≠ .stale) (first : o' ≠ .stale → o.Agrees mode o')
    (next : ∀ a s t, Matches mode s t → k' a t ≠ .stale → (k a s).Agrees mode (k' a t)) :
    (o.andThen k).Agrees mode (o'.andThen k') := by
  have fresh : o' ≠ .stale := fun e => h (by rw [e]; rfl)
  have agree := first fresh
  cases o' with
  | stale => exact absurd rfl fresh
  | trap => cases o <;> simp_all [Agrees, andThen]
  | timeout => cases o <;> simp_all [Agrees, andThen]
  | ok b t =>
    cases o with
    | ok a s =>
      obtain ⟨rfl, m⟩ := agree
      exact next a s t m h
    | _ => exact agree.elim

end Outcome

/-! ### The condition with its lengths in place -/

mutual

theorem plain_walk (fuel : Nat) (assigned : List String) (e : Expr) (ys : List String) (s : State) :
    eval fuel .plain (walk assigned e ys).1 s = eval fuel .plain e s := by
  match fuel with
  | 0 => rfl
  | fuel + 1 =>
    cases e with
    | const w => rfl
    | sym x => rfl
    | licm i y => rfl
    | vecLength y =>
      simp only [walk]
      split
      · rfl
      · simp only [eval, readLicm]
        cases lengthOf y s <;> rfl
    | set x e => simp only [walk, eval, plain_walk fuel]
    | prim isEq f args => simp only [walk, eval, plain_walks_args fuel]
    | begin es => simp only [walk, eval, plain_walks_seq fuel]
    | ite c t e => simp only [walk, eval, plain_walk fuel]
    | logic conj a b => simp only [walk, eval, plain_walk fuel]
    | letIn x e body => simp only [walk, eval, plain_walk fuel]
    | «while» c body => simp only [walk, eval, plain_walk_turns fuel]

theorem plain_walks_args (fuel : Nat) (assigned : List String) (es : List Expr) (ys : List String)
    (s : State) :
    evalArgs fuel .plain (walks assigned es ys).1 s = evalArgs fuel .plain es s := by
  match fuel, es with
  | 0, _ => rfl
  | _ + 1, [] => rfl
  | fuel + 1, e :: es => simp only [walks, evalArgs, plain_walk fuel, plain_walks_args fuel]

theorem plain_walks_seq (fuel : Nat) (assigned : List String) (es : List Expr) (ys : List String)
    (s : State) :
    evalSeq fuel .plain (walks assigned es ys).1 s = evalSeq fuel .plain es s := by
  match fuel, es with
  | 0, _ => rfl
  | _ + 1, [] => rfl
  | fuel + 1, e :: es =>
    simp only [walks, evalSeq, plain_walk fuel, plain_walks_seq fuel]
    cases es <;> rfl

theorem plain_walk_turns (fuel : Nat) (assigned : List String) (c : Expr) (body : List Expr)
    (ys zs : List String) (s : State) :
    turns fuel .plain (walk assigned c ys).1 (walks assigned body zs).1 s =
      turns fuel .plain c body s := by
  match fuel with
  | 0 => rfl
  | fuel + 1 =>
    simp only [turns, plain_walk fuel, plain_walks_seq fuel, plain_walk_turns fuel]

end

theorem plain_hoisted (fuel : Nat) (c : Expr) (body : List Expr) (s : State) :
    turns fuel .plain (hoistCondReads c body).1 body s = turns fuel .plain c body s := by
  induction fuel generalizing s with
  | zero => rfl
  | succ fuel ih => simp only [turns, hoistCondReads, plain_walk] at ih ⊢; simp only [ih]

/-- A condition that traps the first time ends the loop. -/
theorem turns_of_firstTraps {fuel : Nat} {c : Expr} {s : State} (h : firstTraps fuel c s = true)
    (body : List Expr) : turns fuel .plain c body s = .trap := by
  cases fuel with
  | zero => exact absurd h Bool.false_ne_true
  | succ fuel =>
    simp only [firstTraps] at h
    simp only [turns]
    cases heval : eval fuel .plain c s with
    | trap => rfl
    | _ => simp [heval, Outcome.isTrap] at h

/-! ### The runs -/

/-- With `fuel`, a run in mode `ref` that meets no stale length agrees with the run in `mode`. -/
structure RunsAgree (mode ref : Mode) (fuel : Nat) : Prop where
  eval : ∀ {e s t}, Matches mode s t → eval fuel ref e t ≠ .stale →
    (eval fuel mode e s).Agrees mode (eval fuel ref e t)
  args : ∀ {es s t}, Matches mode s t → evalArgs fuel ref es t ≠ .stale →
    (evalArgs fuel mode es s).Agrees mode (evalArgs fuel ref es t)
  seq : ∀ {es s t}, Matches mode s t → evalSeq fuel ref es t ≠ .stale →
    (evalSeq fuel mode es s).Agrees mode (evalSeq fuel ref es t)
  turns : ∀ {c body s t}, Matches mode s t → turns fuel ref c body t ≠ .stale →
    (turns fuel mode c body s).Agrees mode (turns fuel ref c body t)

section Step

variable {mode ref : Mode} {fuel : Nat}

/-- What the modes do differently: a kept length, and the entry of a loop. -/
structure FormsAgree (mode ref : Mode) (fuel : Nat) : Prop where
  licm : ∀ {i y s t}, Matches mode s t → readLicm ref i y t ≠ .stale →
    (readLicm mode i y s).Agrees mode (readLicm ref i y t)
  loop : ∀ {c body s t}, Matches mode s t →
    LoopHoisting.eval (fuel + 1) ref (.while c body) t ≠ .stale →
    (LoopHoisting.eval (fuel + 1) mode (.while c body) s).Agrees mode
      (LoopHoisting.eval (fuel + 1) ref (.while c body) t)

theorem eval_step (ih : RunsAgree mode ref fuel) (forms : FormsAgree mode ref fuel) (e : Expr)
    {s t : State} (h : Matches mode s t) (fresh : eval (fuel + 1) ref e t ≠ .stale) :
    (eval (fuel + 1) mode e s).Agrees mode (eval (fuel + 1) ref e t) := by
  cases e with
  | const w => exact ⟨rfl, h⟩
  | sym x => exact ⟨h.vars x, h⟩
  | licm i y => exact forms.licm h fresh
  | «while» c body => exact forms.loop h fresh
  | vecLength y =>
    simp only [eval, h.lengthOf y]
    cases lengthOf y t with
    | none => trivial
    | some w => exact ⟨rfl, h⟩
  | set x e =>
    exact Outcome.andThen_agrees fresh (ih.eval h) fun w s t h _ => ⟨rfl, h.set (.var x) w⟩
  | prim isEq f args =>
    refine Outcome.andThen_agrees fresh (ih.args h) fun ws s t h _ => ?_
    rw [h.memory]
    cases f ws t.memory with
    | none => trivial
    | some r => exact ⟨rfl, h.store r.2⟩
  | begin es => exact ih.seq h fresh
  | ite c t e =>
    refine Outcome.andThen_agrees fresh (ih.eval h) fun w s t h fresh => ?_
    split <;> rename_i truth
    · rw [if_pos truth] at fresh
      exact ih.eval h fresh
    · rw [if_neg truth] at fresh
      exact ih.eval h fresh
  | logic conj a b =>
    refine Outcome.andThen_agrees fresh (ih.eval h) fun w s t h fresh => ?_
    split <;> rename_i truth
    · rw [if_pos truth] at fresh
      exact ih.eval h fresh
    · exact ⟨rfl, h⟩
  | letIn x e body =>
    refine Outcome.andThen_agrees fresh (ih.eval h) fun w s t h fresh => ?_
    refine Outcome.andThen_agrees fresh (ih.eval (h.set (.var x) w)) fun v s' t' h' _ => ?_
    rw [h.vars x]
    exact ⟨rfl, h'.set (.var x) _⟩

theorem runs_step (ih : RunsAgree mode ref fuel) (forms : FormsAgree mode ref fuel) :
    RunsAgree mode ref (fuel + 1) where
  eval := fun h fresh => eval_step ih forms _ h fresh
  args := fun {es s t} h fresh => by
    cases es with
    | nil => exact ⟨rfl, h⟩
    | cons e es =>
      refine Outcome.andThen_agrees fresh (ih.eval h) fun w s t h fresh => ?_
      exact Outcome.andThen_agrees fresh (ih.args h) fun ws s t h _ => ⟨rfl, h⟩
  seq := fun {es s t} h fresh => by
    cases es with
    | nil => exact ⟨rfl, h⟩
    | cons e es =>
      refine Outcome.andThen_agrees fresh (ih.eval h) fun w s t h fresh => ?_
      split <;> rename_i last
      · exact ⟨rfl, h⟩
      · rw [if_neg last] at fresh
        exact ih.seq h fresh
  turns := fun {c body s t} h fresh => by
    refine Outcome.andThen_agrees fresh (ih.eval h) fun w s t h fresh => ?_
    split <;> rename_i truth
    · rw [if_pos truth] at fresh
      exact Outcome.andThen_agrees fresh (ih.seq h) fun _ s t h fresh => ih.turns h fresh
    · exact ⟨rfl, h⟩

theorem runs_zero (mode ref : Mode) : RunsAgree mode ref 0 :=
  ⟨fun _ _ => trivial, fun _ _ => trivial, fun _ _ => trivial, fun _ _ => trivial⟩

end Step

/-- The source's own run sees nothing of the lengths that are kept. -/
theorem plain_runs (fuel : Nat) : RunsAgree .plain .plain fuel := by
  induction fuel with
  | zero => exact runs_zero .plain .plain
  | succ fuel ih =>
    refine runs_step ih ⟨fun {i y s t} h _ => ?_, fun h fresh => ih.turns h fresh⟩
    simp only [readLicm, h.lengthOf y]
    cases lengthOf y t with
    | none => trivial
    | some w => exact ⟨rfl, h⟩

theorem firstTraps_matches {fuel : Nat} {c : Expr} {s t : State} (h : Matches .plain s t)
    (traps : firstTraps fuel c t = true) : firstTraps fuel c s = true := by
  cases fuel with
  | zero => exact traps
  | succ fuel =>
    simp only [firstTraps] at traps ⊢
    cases ht : eval fuel .plain c t with
    | trap =>
      have agree := (plain_runs fuel).eval (e := c) h (by simp [ht])
      rw [ht] at agree
      cases hs : eval fuel .plain c s with
      | trap => rfl
      | _ =>
        rw [hs] at agree
        exact agree.elim
    | _ => simp [ht, Outcome.isTrap] at traps

theorem readLicm_agrees {mode : Mode} {i : Nat} {y : String} {s t : State} (h : Matches mode s t)
    (fresh : readLicm .watched i y t ≠ .stale) (hm : mode ≠ .watched) :
    (readLicm mode i y s).Agrees mode (readLicm .watched i y t) := by
  have same := h.lengthOf y
  cases hw : lengthOf y t with
  | none => simp [readLicm, hw] at fresh
  | some w =>
    have current : w = t.locals (.licm i) := by
      by_contra ne
      simp [readLicm, hw, ne] at fresh
    cases mode with
    | plain =>
      simp only [readLicm, same, hw, if_pos current]
      exact ⟨rfl, h⟩
    | emitted =>
      simp only [readLicm, hw, if_pos current]
      exact ⟨(h.licms nofun i).trans current.symm, h⟩
    | watched => exact absurd rfl hm

theorem emitted_loop {fuel : Nat} (ih : RunsAgree .emitted .watched fuel) {c : Expr}
    {body : List Expr} {s t : State} (h : Matches .emitted s t)
    (fresh : eval (fuel + 1) .watched (.while c body) t ≠ .stale) :
    (eval (fuel + 1) .emitted (.while c body) s).Agrees .emitted
      (eval (fuel + 1) .watched (.while c body) t) := by
  simp only [eval] at fresh ⊢
  obtain ⟨hs, ht⟩ | ⟨s', t', hs, ht, h'⟩ := enter_agrees (hoistCondReads c body).2 0 h
  · simp only [hs, ht] at fresh ⊢
    split at fresh
    · rw [if_pos ‹_›]
      trivial
    · exact absurd rfl fresh
  · simp only [hs, ht] at fresh ⊢
    exact ih.turns h' fresh

theorem plain_loop {fuel : Nat} (ih : RunsAgree .plain .watched fuel) {c : Expr}
    {body : List Expr} {s t : State} (h : Matches .plain s t)
    (fresh : eval (fuel + 1) .watched (.while c body) t ≠ .stale) :
    (eval (fuel + 1) .plain (.while c body) s).Agrees .plain
      (eval (fuel + 1) .watched (.while c body) t) := by
  simp only [eval] at fresh ⊢
  cases ht : enter (hoistCondReads c body).2 0 t with
  | none =>
    simp only [ht] at fresh ⊢
    split at fresh <;> rename_i traps
    · rw [if_pos traps, turns_of_firstTraps (firstTraps_matches h traps)]
      trivial
    · exact absurd rfl fresh
  | some t' =>
    simp only [ht] at fresh ⊢
    rw [← plain_hoisted]
    have m := enter_matches ht
    exact ih.turns ⟨h.memory.trans m.memory, fun x => (h.vars x).trans (m.vars x),
      fun hm => absurd rfl hm⟩ fresh

theorem emitted_runs (fuel : Nat) : RunsAgree .emitted .watched fuel := by
  induction fuel with
  | zero => exact runs_zero .emitted .watched
  | succ fuel ih =>
    exact runs_step ih ⟨fun h fresh => readLicm_agrees h fresh nofun, fun h fresh =>
      emitted_loop ih h fresh⟩

theorem watched_runs (fuel : Nat) : RunsAgree .plain .watched fuel := by
  induction fuel with
  | zero => exact runs_zero .plain .watched
  | succ fuel ih =>
    exact runs_step ih ⟨fun h fresh => readLicm_agrees h fresh nofun, fun h fresh =>
      plain_loop ih h fresh⟩

/-- `(< x y)` -/
def less (x y : Expr) : Expr :=
  .prim false (fun ws m => match ws with
    | [v, w] => some (if (Builtin.untag v).slt (Builtin.untag w) then 9 else 1, m)
    | _ => none) [x, y]

/-- `(set! x (+ x 1))` -/
def increment (x : String) : Expr :=
  .set x (.prim false (fun ws m => match ws with
    | [w] => some (Builtin.tagNum (Builtin.untag w + 1), m)
    | _ => none) [.sym x])

/-- Two vectors, `a` of one element and `b` of three; `n` is no vector's word. -/
def vectors : State where
  memory := ⟨fun p => if p = 8 then 1 else if p = 16 then 3 else 0, 64⟩
  locals
    | .var "a" => Builtin.tagNum 8 ||| 6
    | .var "b" => Builtin.tagNum 16 ||| 6
    | .var "n" => Builtin.tagNum 1000
    | _ => 0

/-- `(begin (while (< i (vec-length a)) (set! j 0) (while (< j (vec-length b)) …) …) i)` -/
def nestedLoops : Expr :=
  .begin [
    .while (less (.sym "i") (.vecLength "a")) [
      .set "j" (.const 0),
      .while (less (.sym "j") (.vecLength "b")) [increment "j"],
      increment "i"],
    .sym "i"]

/-- `(while (and nil (vec-length n)))` -/
def guardedLength : Expr :=
  .while (.logic true (.const 4) (.vecLength "n")) []

def Outcome.value {α : Type} : Outcome α → Option α
  | .ok a _ => some a
  | _ => none

theorem nestedLoops_plain : (eval 40 .plain nestedLoops vectors).value = some 8 := by
  decide

theorem nestedLoops_emitted : (eval 40 .emitted nestedLoops vectors).value = some 24 := by
  decide

theorem Outcome.Agrees.value {α : Type} {mode : Mode} {o o' : Outcome α} (h : o.Agrees mode o') :
    o.value = o'.value := by
  cases o <;> cases o' <;> try first | rfl | exact h.elim
  exact congrArg some h.1

end LoopHoisting

end LispRlm.WasmEmit
