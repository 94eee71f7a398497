import LispRlm.WasmEmit.FixedPoint

/-! `try` and `catch`: a throw is a branch out of the block of its `try`, whose depth is filled in
when the code of the `try`'s body is complete. -/

namespace LispRlm.WasmEmit

namespace TryCatch

/-- A function's parameter or own local, the local of a `let`, and those of `try`. -/
inductive LocalName
  | param (name : String)
  | slot (n : Nat)
  | catch (name : String)
  | tryFlag
  | tryRes
  | tryE
  deriving DecidableEq

/-- A depth, or the depth that is yet to be filled in. -/
inductive Label
  | depth (n : Nat)
  | sentinel
  deriving DecidableEq

/-- The code of a function; a block or an `if` with a result leaves one word. -/
inductive Code (M : Type)
  | skip
  | seq (first second : Code M)
  | const (w : I64)
  | localGet (x : LocalName)
  | localSet (x : LocalName)
  | drop
  | isTruthy
  | eqz
  | prim (f : I64 → I64 → M → Option (I64 × M))
  | unreachable
  | br (l : Label)
  | block (result : Bool) (body : Code M)
  | loop (body : Code M)
  | ite (result : Bool) (t e : Code M)
  /-- A call of a function that the emitter made, with its code. -/
  | call (params : List LocalName) (body : Code M)

/-! ### Filling in the depths -/

inductive Instruction (M : Type)
  | br (l : Label)
  | block (result : Bool)
  | loop
  | if_ (result : Bool)
  | else_
  | end_
  | other (c : Code M)

variable {M : Type}

/-- The instructions in the order in which a function holds them. -/
def Code.stream : Code M → List (Instruction M)
  | .skip => []
  | .seq a b => a.stream ++ b.stream
  | .br l => [.br l]
  | .block result body => .block result :: body.stream ++ [.end_]
  | .loop body => .loop :: body.stream ++ [.end_]
  | .ite result t e => .if_ result :: t.stream ++ .else_ :: e.stream ++ [.end_]
  | c => [.other c]

def patchErrBrs : Nat → List (Instruction M) → List (Instruction M)
  | _, [] => []
  | depth, i :: rest =>
      match i with
      | .br .sentinel => .br (.depth depth) :: patchErrBrs depth rest
      | .block _ | .loop | .if_ _ => i :: patchErrBrs (depth + 1) rest
      | .end_ => i :: patchErrBrs (depth - 1) rest
      | _ => i :: patchErrBrs depth rest

/-- The same pass over structured code. -/
def Code.patch : Nat → Code M → Code M
  | depth, .br .sentinel => .br (.depth depth)
  | depth, .seq a b => .seq (a.patch depth) (b.patch depth)
  | depth, .block result body => .block result (body.patch (depth + 1))
  | depth, .loop body => .loop (body.patch (depth + 1))
  | depth, .ite result t e => .ite result (t.patch (depth + 1)) (e.patch (depth + 1))
  | _, c => c

theorem patchErrBrs_stream (c : Code M) (depth : Nat) (rest : List (Instruction M)) :
    patchErrBrs depth (c.stream ++ rest) = (c.patch depth).stream ++ patchErrBrs depth rest := by
  induction c generalizing depth rest with
  | seq a b iha ihb => simp only [Code.stream, Code.patch, List.append_assoc, iha, ihb]
  | block result body ih =>
    simp only [Code.stream, Code.patch, List.cons_append, List.append_assoc, patchErrBrs, ih,
      List.nil_append, Nat.add_sub_cancel]
  | loop body ih =>
    simp only [Code.stream, Code.patch, List.cons_append, List.append_assoc, patchErrBrs, ih,
      List.nil_append, Nat.add_sub_cancel]
  | ite result t e iht ihe =>
    simp only [Code.stream, Code.patch, List.cons_append, List.append_assoc, patchErrBrs, iht, ihe,
      List.nil_append, Nat.add_sub_cancel]
  | br l => cases l <;> rfl
  | _ => rfl

/-- A depth that is filled in stays. -/
theorem Code.patch_patch (c : Code M) (i j : Nat) : (c.patch i).patch j = c.patch i := by
  induction c generalizing i j with
  | seq a b iha ihb => simp only [patch, iha, ihb]
  | block result body ih => simp only [patch, ih]
  | loop body ih => simp only [patch, ih]
  | ite result t e iht ihe => simp only [patch, iht, ihe]
  | br l => cases l <;> rfl
  | _ => rfl

/-! ### Running code -/

structure Config (M : Type) where
  stack : List I64
  locals : LocalName → I64
  memory : M

def Config.set (c : Config M) (x : LocalName) (w : I64) : Config M :=
  { c with locals := fun y => if y = x then w else c.locals y }

inductive Outcome (M : Type)
  | next (c : Config M)
  | branch (depth : Nat) (c : Config M)
  | trap
  | timeout
  | invalid

namespace Outcome

def andThen : Outcome M → (Config M → Outcome M) → Outcome M
  | .next c, k => k c
  | o, _ => o

/-- Leaving a block that was entered over the stack `below`. -/
def leave (result : Bool) (below : List I64) : Outcome M → Outcome M
  | .next c | .branch 0 c =>
      match result, c.stack with
      | true, w :: _ => .next { c with stack := w :: below }
      | true, [] => .invalid
      | false, _ => .next { c with stack := below }
  | .branch (n + 1) c => .branch n c
  | o => o

/-- The body of a loop, again whenever it branches to the loop. -/
def repeatLoop (body : Config M → Outcome M) : Nat → Config M → Outcome M
  | 0, _ => .timeout
  | n + 1, c =>
      match body { c with stack := [] } with
      | .branch 0 c => repeatLoop body n c
      | o => o

end Outcome

/-- The locals of a function that is called with `args`, the last one first. -/
def bindParams : List LocalName → List I64 → LocalName → I64
  | x :: xs, w :: ws => fun y => if y = x then w else bindParams xs ws y
  | _, _ => fun _ => 0

/-- Each loop may be repeated `fuel` times. -/
def Code.run (fuel : Nat) : Code M → Config M → Outcome M
  | .skip, c => .next c
  | .seq a b, c => (a.run fuel c).andThen (b.run fuel)
  | .const w, c => .next { c with stack := w :: c.stack }
  | .localGet x, c => .next { c with stack := c.locals x :: c.stack }
  | .localSet x, c =>
      match c.stack with
      | w :: stack => .next { c.set x w with stack := stack }
      | [] => .invalid
  | .drop, c =>
      match c.stack with
      | _ :: stack => .next { c with stack := stack }
      | [] => .invalid
  | .isTruthy, c =>
      match c.stack with
      | w :: stack =>
          .next { c with stack := (if FixedPoint.Operation.truthy w then 1 else 0) :: stack }
      | [] => .invalid
  | .eqz, c =>
      match c.stack with
      | w :: stack => .next { c with stack := (if w = 0 then 1 else 0) :: stack }
      | [] => .invalid
  | .prim f, c =>
      match c.stack with
      | b :: a :: stack =>
          match f a b c.memory with
          | some (w, m) => .next { c with stack := w :: stack, memory := m }
          | none => .trap
      | _ => .invalid
  | .unreachable, _ => .trap
  | .br (.depth n), c => .branch n c
  | .br .sentinel, _ => .invalid
  | .block result body, c => (body.run fuel { c with stack := [] }).leave result c.stack
  | .loop body, c => (Outcome.repeatLoop (body.run fuel) fuel c).leave false c.stack
  | .ite result t e, c =>
      match c.stack with
      | w :: stack =>
          (if w ≠ 0 then t.run fuel { c with stack := [] }
            else e.run fuel { c with stack := [] }).leave result stack
      | [] => .invalid
  | .call params body, c =>
      if params.length ≤ c.stack.length then
        match body.run fuel
            ⟨[], bindParams params.reverse (c.stack.take params.length), c.memory⟩ with
        | .next ⟨w :: _, _, m⟩ =>
            .next { c with stack := w :: c.stack.drop params.length, memory := m }
        | .trap => .trap
        | .timeout => .timeout
        | _ => .invalid
      else .invalid

/-! ### Forms -/

inductive Expr (M : Type)
  | const (w : I64)
  | sym (x : String)
  | set (x : String) (e : Expr M)
  | begin (a b : Expr M)
  | ite (c t e : Expr M)
  | while (c body : Expr M)
  | letIn (x : String) (e body : Expr M)
  /-- An operation on two values. It may trap, as one does that no `try` guards. -/
  | prim (f : I64 → I64 → M → Option (I64 × M)) (a b : Expr M)
  /-- An operation that has failed, with its message. -/
  | throw (msg : I64)
  | tryCatch (body : Expr M) (x : String) (handler : Expr M)
  /-- A `loop` or a `lambda`, whose body becomes a function of the variables that occur in it. -/
  | lifted (free : List String) (body : Expr M)

abbrev Vars := String → I64

def Vars.set (vars : Vars) (x : String) (w : I64) : Vars := fun y => if y = x then w else vars y

/-- The variables of a lifted function. -/
def Vars.only (vars : Vars) (free : List String) : Vars := fun y => if y ∈ free then vars y else 0

inductive Result (M : Type)
  | ok (w : I64) (vars : Vars) (m : M)
  | thrown (msg : I64) (vars : Vars) (m : M)
  | trap
  | timeout
  /-- A handler's variable is about to lose its value to a handler inside. -/
  | overwritten

namespace Result

def andThen : Result M → (I64 → Vars → M → Result M) → Result M
  | .ok w vars m, k => k w vars m
  | r, _ => r

/-- Leaving the scope of `x`, whose outer value is `w`. -/
def leaveScope (x : String) (w : I64) : Result M → Result M
  | .ok v vars m => .ok v (vars.set x w) m
  | .thrown msg vars m => .thrown msg (vars.set x w) m
  | r => r

/-- What a function leaves of a run of its body. -/
def ofCall (vars : Vars) : Result M → Result M
  | .ok v _ m => .ok v vars m
  | .thrown msg _ m => .thrown msg vars m
  | r => r

def turns (cond body : Vars → M → Result M) : Nat → Vars → M → Result M
  | 0, _, _ => .timeout
  | n + 1, vars, m =>
      (cond vars m).andThen fun w vars m =>
        if FixedPoint.Operation.truthy w then
          (body vars m).andThen fun _ vars m => turns cond body n vars m
        else .ok 4 vars m

end Result

/-- Evaluation. A watched one stops where a handler for a variable in `inner`, those of the
handlers it is in, would start. -/
def eval (watch : Bool) (fuel : Nat) : List String → Expr M → Vars → M → Result M
  | _, .const w, vars, m => .ok w vars m
  | _, .sym x, vars, m => .ok (vars x) vars m
  | inner, .set x e, vars, m =>
      (eval watch fuel inner e vars m).andThen fun w vars m => .ok 4 (vars.set x w) m
  | inner, .begin a b, vars, m =>
      (eval watch fuel inner a vars m).andThen fun _ vars m => eval watch fuel inner b vars m
  | inner, .ite c t e, vars, m =>
      (eval watch fuel inner c vars m).andThen fun w vars m =>
        if FixedPoint.Operation.truthy w then eval watch fuel inner t vars m
        else eval watch fuel inner e vars m
  | inner, .while c body, vars, m =>
      Result.turns (eval watch fuel inner c) (eval watch fuel inner body) fuel vars m
  | inner, .letIn x e body, vars, m =>
      (eval watch fuel inner e vars m).andThen fun w vars m =>
        (eval watch fuel inner body (vars.set x w) m).leaveScope x (vars x)
  | inner, .prim f a b, vars, m =>
      (eval watch fuel inner a vars m).andThen fun v vars m =>
        (eval watch fuel inner b vars m).andThen fun w vars m =>
          match f v w m with
          | some (r, m) => .ok r vars m
          | none => .trap
  | _, .throw msg, vars, m => .thrown msg vars m
  | inner, .tryCatch body x handler, vars, m =>
      match eval watch fuel inner body vars m with
      | .thrown msg vars m =>
          if watch ∧ x ∈ inner then .overwritten
          else (eval watch fuel (x :: inner) handler (vars.set x msg) m).leaveScope x (vars x)
      | r => r
  | _, .lifted free body, vars, m => (eval watch fuel [] body (vars.only free) m).ofCall vars

/-! ### The code of forms -/

abbrev Scope := String → LocalName

def Scope.set (scope : Scope) (x : String) (l : LocalName) : Scope :=
  fun y => if y = x then l else scope y

def Code.ofList : List (Code M) → Code M
  | [] => .skip
  | [c] => c
  | c :: cs => .seq c (ofList cs)

def emitTry (body handler : Code M) (vLocal : LocalName) : Code M :=
  .ofList [
    .const 0, .localSet .tryFlag,
    .block false (.seq (body.patch 0) (.localSet .tryRes)),
    .localGet .tryFlag,
    .ite true (.ofList [.localGet .tryE, .localSet vLocal, handler]) (.localGet .tryRes),
    .const 0, .localSet .tryFlag]

/-- What a failed operation becomes: a jump where a `try` is open, a trap elsewhere. -/
def tryGuard (inTry : Bool) (msg : I64) : Code M :=
  if inTry then
    .ofList [.const 1, .localSet .tryFlag, .const msg, .localSet .tryE, .br .sentinel]
  else .unreachable

/-- The code of a form inside `d` bindings of `let`. -/
def expr (inTry : Bool) (d : Nat) (scope : Scope) : Expr M → Code M
  | .const w => .const w
  | .sym x => .localGet (scope x)
  | .set x e => .ofList [expr inTry d scope e, .localSet (scope x), .const 4]
  | .begin a b => .ofList [expr inTry d scope a, .drop, expr inTry d scope b]
  | .ite c t e =>
      .ofList [expr inTry d scope c, .isTruthy,
        .ite true (expr inTry d scope t) (expr inTry d scope e)]
  | .while c body =>
      .block true (.seq
        (.loop (.ofList [
          expr inTry d scope c, .isTruthy, .eqz,
          .ite false (.seq (.const 4) (.br (.depth 2))) .skip,
          expr inTry d scope body, .drop, .br (.depth 0)]))
        (.const 4))
  | .letIn x e body =>
      .ofList [expr inTry d scope e, .localSet (.slot d),
        expr inTry (d + 1) (scope.set x (.slot d)) body]
  | .prim f a b => .ofList [expr inTry d scope a, expr inTry d scope b, .prim f]
  | .throw msg => tryGuard inTry msg
  | .tryCatch body x handler =>
      emitTry (expr true d scope body) (expr inTry d (scope.set x (.catch x)) handler) (.catch x)
  | .lifted free body =>
      .seq (.ofList (free.map fun x => .localGet (scope x)))
        (.call (free.map .param) (expr inTry 0 .param body))

/-! ### Throws that leave a function -/

/-- A throw that no `try` of the form itself catches. -/
def throws : Expr M → Bool
  | .const _ | .sym _ => false
  | .set _ e => throws e
  | .begin a b | .while a b | .letIn _ a b | .prim _ a b => throws a || throws b
  | .ite c t e => throws c || throws t || throws e
  | .throw _ => true
  | .tryCatch _ _ handler => throws handler
  | .lifted _ body => throws body

/-- No throw would have to leave a lifted function for an open `try`. -/
def Contained : Bool → Expr M → Prop
  | _, .const _ | _, .sym _ | _, .throw _ => True
  | inTry, .set _ e => Contained inTry e
  | inTry, .begin a b | inTry, .while a b | inTry, .letIn _ a b | inTry, .prim _ a b =>
      Contained inTry a ∧ Contained inTry b
  | inTry, .ite c t e => Contained inTry c ∧ Contained inTry t ∧ Contained inTry e
  | inTry, .tryCatch body _ handler => Contained true body ∧ Contained inTry handler
  | inTry, .lifted _ body => (inTry = true → throws body = false) ∧ Contained inTry body

/-- Whether the value is not an exception. -/
def Result.Quiet : Result M → Prop
  | .thrown _ _ _ => False
  | _ => True

namespace Result

theorem Quiet.andThen {r : Result M} {k : I64 → Vars → M → Result M} (h : r.Quiet)
    (hk : ∀ w vars m, (k w vars m).Quiet) : (r.andThen k).Quiet := by
  cases r with
  | ok w vars m => exact hk w vars m
  | thrown => exact h.elim
  | _ => trivial

theorem Quiet.leaveScope {r : Result M} (h : r.Quiet) (x : String) (w : I64) :
    (r.leaveScope x w).Quiet := by
  cases r with
  | thrown => exact h.elim
  | _ => trivial

theorem turns_quiet {cond body : Vars → M → Result M} (hc : ∀ vars m, (cond vars m).Quiet)
    (hb : ∀ vars m, (body vars m).Quiet) (n : Nat) (vars : Vars) (m : M) :
    (turns cond body n vars m).Quiet := by
  induction n generalizing vars m with
  | zero => trivial
  | succ n ih =>
    refine (hc vars m).andThen fun w vars m => ?_
    split
    · exact (hb vars m).andThen fun _ vars m => ih vars m
    · trivial

end Result

theorem eval_quiet {e : Expr M} (h : throws e = false) (watch : Bool) (fuel : Nat)
    (inner : List String) (vars : Vars) (m : M) : (eval watch fuel inner e vars m).Quiet := by
  induction e generalizing inner vars m with
  | const w => trivial
  | sym x => trivial
  | throw msg => exact absurd h Bool.true_eq_false.mp
  | set x e ih => exact (ih h inner vars m).andThen fun _ _ _ => trivial
  | begin a b iha ihb =>
    obtain ⟨ha, hb⟩ := Bool.or_eq_false_iff.mp h
    exact (iha ha inner vars m).andThen fun _ vars m => ihb hb inner vars m
  | ite c t e ihc iht ihe =>
    obtain ⟨hct, he⟩ := Bool.or_eq_false_iff.mp h
    obtain ⟨hc, ht⟩ := Bool.or_eq_false_iff.mp hct
    refine (ihc hc inner vars m).andThen fun w vars m => ?_
    split
    · exact iht ht inner vars m
    · exact ihe he inner vars m
  | «while» c body ihc ihb =>
    obtain ⟨hc, hb⟩ := Bool.or_eq_false_iff.mp h
    exact Result.turns_quiet (ihc hc inner) (ihb hb inner) fuel vars m
  | letIn x e body ihe ihb =>
    obtain ⟨he, hb⟩ := Bool.or_eq_false_iff.mp h
    exact (ihe he inner vars m).andThen fun w vars' m =>
      (ihb hb inner _ m).leaveScope x (vars' x)
  | prim f a b iha ihb =>
    obtain ⟨ha, hb⟩ := Bool.or_eq_false_iff.mp h
    refine (iha ha inner vars m).andThen fun v vars m => ?_
    refine (ihb hb inner vars m).andThen fun w vars m => ?_
    cases f v w m <;> trivial
  | tryCatch body x handler _ ihh =>
    simp only [eval]
    cases eval watch fuel inner body vars m with
    | thrown msg vars m =>
      dsimp only
      split
      · trivial
      · exact (ihh h (x :: inner) _ m).leaveScope x (vars x)
    | _ => trivial
  | lifted free body ih =>
    have quiet := ih h [] (vars.only free) m
    simp only [eval]
    cases hr : eval watch fuel [] body (vars.only free) m with
    | thrown msg vars m => rw [hr] at quiet; exact quiet.elim
    | _ => trivial

theorem patch_gets (xs : List LocalName) (k : Nat) :
    (Code.ofList (xs.map .localGet) : Code M).patch k = .ofList (xs.map .localGet) := by
  induction xs with
  | nil => rfl
  | cons x xs ih =>
    cases xs with
    | nil => rfl
    | cons y ys => exact congrArg (Code.seq (.localGet x)) ih

/-- Code without a throw for an open `try` has no depth to fill in. -/
theorem patch_expr {inTry : Bool} {e : Expr M} (h : inTry = false ∨ throws e = false) (d : Nat)
    (scope : Scope) (k : Nat) : (expr inTry d scope e).patch k = expr inTry d scope e := by
  induction e generalizing d scope k with
  | const w => rfl
  | sym x => rfl
  | throw msg =>
    obtain rfl | h := h
    · rfl
    · exact absurd h Bool.true_eq_false.mp
  | set x e ih => simp only [expr, Code.ofList, Code.patch, ih h]
  | begin a b iha ihb =>
    simp only [throws, Bool.or_eq_false_iff] at h
    simp only [expr, Code.ofList, Code.patch, iha (h.imp id And.left), ihb (h.imp id And.right)]
  | ite c t e ihc iht ihe =>
    simp only [throws, Bool.or_eq_false_iff] at h
    simp only [expr, Code.ofList, Code.patch, ihc (h.imp id (·.1.1)), iht (h.imp id (·.1.2)),
      ihe (h.imp id And.right)]
  | «while» c body ihc ihb =>
    simp only [throws, Bool.or_eq_false_iff] at h
    simp only [expr, Code.ofList, Code.patch, ihc (h.imp id And.left), ihb (h.imp id And.right)]
  | letIn x e body ihe ihb =>
    simp only [throws, Bool.or_eq_false_iff] at h
    simp only [expr, Code.ofList, Code.patch, ihe (h.imp id And.left), ihb (h.imp id And.right)]
  | prim f a b iha ihb =>
    simp only [throws, Bool.or_eq_false_iff] at h
    simp only [expr, Code.ofList, Code.patch, iha (h.imp id And.left), ihb (h.imp id And.right)]
  | tryCatch body x handler _ ihh =>
    simp only [expr, emitTry, Code.ofList, Code.patch, Code.patch_patch, ihh h]
  | lifted free body _ =>
    have gets := patch_gets (M := M) (free.map scope) k
    rw [List.map_map] at gets
    exact congrArg (Code.seq · _) gets

/-! ### The runs -/

abbrev Locals := LocalName → I64

def Locals.set (locals : Locals) (x : LocalName) (w : I64) : Locals :=
  fun y => if y = x then w else locals y

/-- Where a form's code stands. -/
structure Ctx where
  inTry : Bool
  d : Nat
  inner : List String
  scope : Scope

/-- The locals that the code around a form may still read. -/
def Live (d : Nat) (inner : List String) : LocalName → Prop
  | .param _ => True
  | .slot n => n < d
  | .catch x => x ∈ inner
  | .tryFlag | .tryRes | .tryE => False

structure Ctx.Scoped (ctx : Ctx) : Prop where
  live : ∀ x, Live ctx.d ctx.inner (ctx.scope x)
  injective : ∀ x y, ctx.scope x = ctx.scope y → x = y

/-- A run from `before` to `after`: the variables in scope hold `vars`, and the others that the code
around reads are as before. -/
structure Ran (ctx : Ctx) (before : Locals) (vars : Vars) (after : Locals) : Prop where
  holds : ∀ x, after (ctx.scope x) = vars x
  kept : ∀ l, Live ctx.d ctx.inner l → (∀ x, ctx.scope x ≠ l) → after l = before l

namespace Ran

variable {ctx : Ctx} {before between after : Locals} {vars vars' : Vars}

theorem trans (h : Ran ctx before vars between) (h' : Ran ctx between vars' after) :
    Ran ctx before vars' after :=
  ⟨h'.holds, fun l live out => (h'.kept l live out).trans (h.kept l live out)⟩

theorem scratch (apart : ctx.Scoped) (h : Ran ctx before vars after) {l : LocalName}
    (dead : ¬ Live ctx.d ctx.inner l) (w : I64) : Ran ctx before vars (after.set l w) where
  holds x := by
    have ne : ctx.scope x ≠ l := fun e => dead (e ▸ apart.live x)
    simp only [Locals.set, if_neg ne, h.holds]
  kept l' live out := by
    have ne : l' ≠ l := fun e => dead (e ▸ live)
    simp only [Locals.set, if_neg ne, h.kept l' live out]

theorem set (apart : ctx.Scoped) (h : Ran ctx before vars after) (x : String) (w : I64) :
    Ran ctx before (vars.set x w) (after.set (ctx.scope x) w) where
  holds y := by
    by_cases hy : y = x
    · simp [Locals.set, Vars.set, hy]
    · have ne : ctx.scope y ≠ ctx.scope x := fun e => hy (apart.injective y x e)
      simp only [Locals.set, Vars.set, if_neg ne, if_neg hy, h.holds]
  kept l live out := by
    simp only [Locals.set, if_neg (out x).symm, h.kept l live out]

/-- The scope of `x` is left: its outer local was not in reach. -/
theorem leaveScope {ctx ctx' : Ctx} {x : String} {l : LocalName} {w : I64}
    (dead : ¬ Live ctx.d ctx.inner l) (apart : ctx.Scoped)
    (lives : ∀ l, Live ctx.d ctx.inner l → Live ctx'.d ctx'.inner l)
    (scope : ctx'.scope = ctx.scope.set x l) (holds : ∀ x, before (ctx.scope x) = vars x)
    (h : Ran ctx' (before.set l w) vars' after) :
    Ran ctx before (vars'.set x (vars x)) after where
  holds y := by
    by_cases hy : y = x
    · subst hy
      have ne : ctx.scope y ≠ l := fun e => dead (e ▸ apart.live y)
      have out : ∀ z, ctx'.scope z ≠ ctx.scope y := by
        intro z e
        by_cases hz : z = y
        · simp only [scope, Scope.set, if_pos hz] at e
          exact ne e.symm
        · simp only [scope, Scope.set, if_neg hz] at e
          exact hz (apart.injective z y e)
      rw [h.kept _ (lives _ (apart.live y)) out]
      simp [Locals.set, Vars.set, ne, holds]
    · have held := h.holds y
      simp only [scope, Scope.set, if_neg hy] at held
      simp only [Vars.set, if_neg hy, held]
  kept l' live out := by
    have ne : l' ≠ l := fun e => dead (e ▸ live)
    have out' : ∀ z, ctx'.scope z ≠ l' := by
      intro z
      simp only [scope, Scope.set]
      split
      · exact ne.symm
      · exact out z
    rw [h.kept l' (lives l' live) out', Locals.set, if_neg ne]

/-- The scope of `x` is entered: `l` was out of reach. -/
theorem bind {x : String} {l : LocalName} {w : I64} (h : Ran ctx before vars after)
    (apart : ctx.Scoped) (dead : ¬ Live ctx.d ctx.inner l) (y : String) :
    after.set l w (ctx.scope.set x l y) = vars.set x w y := by
  by_cases hy : y = x
  · simp [Scope.set, Locals.set, Vars.set, hy]
  · have ne : ctx.scope y ≠ l := fun e => dead (e ▸ apart.live y)
    simp only [Scope.set, Locals.set, Vars.set, if_neg hy, if_neg ne, h.holds]

end Ran

theorem Ctx.Scoped.bind {ctx ctx' : Ctx} (apart : ctx.Scoped) {x : String} {l : LocalName}
    (dead : ¬ Live ctx.d ctx.inner l)
    (lives : ∀ l, Live ctx.d ctx.inner l → Live ctx'.d ctx'.inner l)
    (live : Live ctx'.d ctx'.inner l) (scope : ctx'.scope = ctx.scope.set x l) : ctx'.Scoped where
  live y := by
    simp only [scope, Scope.set]
    split
    · exact live
    · exact lives _ (apart.live y)
  injective y z e := by
    simp only [scope, Scope.set] at e
    split at e <;> split at e
    · rename_i hy hz
      exact hy.trans hz.symm
    · exact (dead (e ▸ apart.live z)).elim
    · exact (dead (e ▸ apart.live y)).elim
    · exact apart.injective y z e

/-- What code does that is to come to a result. `fin` is where it goes with a value; a throw goes to
the block at depth `k`. With `clear`, the flag ends clear. -/
def Comes (ctx : Ctx) (k : Nat) (fin : I64 → Locals → M → Outcome M) (clear : Prop)
    (before : Locals) : Result M → Outcome M → Prop
  | .ok w vars m, o =>
      ∃ after, o = fin w after m ∧ Ran ctx before vars after ∧ (clear → after .tryFlag = 0)
  | .thrown msg vars m, o =>
      if ctx.inTry then
        ∃ stack after, o = .branch k ⟨stack, after, m⟩ ∧ Ran ctx before vars after ∧
          after .tryFlag = 1 ∧ after .tryE = msg
      else o = .trap
  | .trap, o => o = .trap
  | .timeout, o => o = .timeout
  | .overwritten, _ => True

/-- Going on with the value on the stack. -/
def push (stack : List I64) (w : I64) (locals : Locals) (m : M) : Outcome M :=
  .next ⟨w :: stack, locals, m⟩

/-- Back to a loop's start, and elsewhere as before. -/
def Outcome.again : Outcome M → (Config M → Outcome M) → Outcome M
  | .branch 0 c, g => g c
  | o, _ => o

namespace Comes

variable {ctx : Ctx} {k : Nat} {clear clear' : Prop} {fin fin' : I64 → Locals → M → Outcome M}
  {before between : Locals} {vars : Vars} {r : Result M} {o : Outcome M}

theorem from_ran (h : Ran ctx before vars between) (hr : Comes ctx k fin clear between r o) :
    Comes ctx k fin clear before r o := by
  cases r with
  | ok w vars' m =>
    obtain ⟨after, ho, ran, flag⟩ := hr
    exact ⟨after, ho, h.trans ran, flag⟩
  | thrown msg vars' m =>
    simp only [Comes] at hr ⊢
    split
    · rename_i inTry
      rw [if_pos inTry] at hr
      obtain ⟨stack, after, ho, ran, flag⟩ := hr
      exact ⟨stack, after, ho, h.trans ran, flag⟩
    · rename_i inTry
      rwa [if_neg inTry] at hr
  | _ => exact hr

theorem mono (h : clear' → clear) (hr : Comes ctx k fin clear before r o) :
    Comes ctx k fin clear' before r o := by
  cases r with
  | ok w vars m =>
    obtain ⟨after, ho, ran, flag⟩ := hr
    exact ⟨after, ho, ran, fun c => flag (h c)⟩
  | _ => exact hr

/-- One piece of code after another. -/
theorem andThen {k' : I64 → Vars → M → Result M} {stack : List I64} {next : Config M → Outcome M}
    (h : Comes ctx k (push stack) clear before r o)
    (hn : ∀ w vars m after, Ran ctx before vars after → (clear → after .tryFlag = 0) →
      Comes ctx k fin clear' after (k' w vars m) (next ⟨w :: stack, after, m⟩)) :
    Comes ctx k fin clear' before (r.andThen k') (o.andThen next) := by
  cases r with
  | ok w vars m =>
    obtain ⟨after, rfl, ran, flag⟩ := h
    exact from_ran ran (hn w vars m after ran flag)
  | thrown msg vars m =>
    simp only [Comes, Result.andThen] at h ⊢
    split
    · rename_i inTry
      rw [if_pos inTry] at h
      obtain ⟨st, after, rfl, rest⟩ := h
      exact ⟨st, after, rfl, rest⟩
    · rename_i inTry
      rw [if_neg inTry] at h
      rw [h]
      rfl
  | trap => exact congrArg (Outcome.andThen · next) h
  | timeout => exact congrArg (Outcome.andThen · next) h
  | overwritten => trivial

/-- One piece of code after another inside a loop. -/
theorem andThen_again {k' : I64 → Vars → M → Result M} {stack : List I64}
    {next g : Config M → Outcome M} (h : Comes ctx (k + 1) (push stack) clear before r o)
    (hn : ∀ w vars m after, Ran ctx before vars after → (clear → after .tryFlag = 0) →
      Comes ctx (k + 1) fin clear' after (k' w vars m)
        ((next ⟨w :: stack, after, m⟩).again g)) :
    Comes ctx (k + 1) fin clear' before (r.andThen k') ((o.andThen next).again g) := by
  have inside : Comes ctx (k + 1) fin clear' before (r.andThen k')
      (o.andThen fun c => (next c).again g) := andThen h hn
  cases o with
  | branch n c =>
    cases n with
    | zero =>
      cases r with
      | thrown msg vars m =>
        simp only [Comes] at h
        split at h
        · obtain ⟨st, after, e, -⟩ := h
          exact absurd (Outcome.branch.inj e).1 (Nat.succ_ne_zero k).symm
        · exact absurd h nofun
      | ok w vars m =>
        obtain ⟨after, e, -⟩ := h
        exact absurd e nofun
      | overwritten => trivial
      | trap => exact absurd (show Outcome.branch 0 c = .trap from h) nofun
      | timeout => exact absurd (show Outcome.branch 0 c = .timeout from h) nofun
    | succ n => exact inside
  | _ => exact inside

/-- Out of a block with a result. -/
theorem leave (h : Comes ctx (k + 1) (push []) clear before r o) (stack : List I64) :
    Comes ctx k (push stack) clear before r (o.leave true stack) := by
  cases r with
  | ok w vars m =>
    obtain ⟨after, rfl, rest⟩ := h
    exact ⟨after, rfl, rest⟩
  | thrown msg vars m =>
    simp only [Comes] at h ⊢
    split
    · rename_i inTry
      rw [if_pos inTry] at h
      obtain ⟨st, after, rfl, rest⟩ := h
      exact ⟨st, after, rfl, rest⟩
    · rename_i inTry
      rw [if_neg inTry] at h
      rw [h]
      rfl
  | trap => rw [show o = .trap from h]; rfl
  | timeout => rw [show o = .timeout from h]; rfl
  | overwritten => trivial

/-- Out of the scope of `x`, held in the local `l`. -/
theorem leaveScope {ctx' : Ctx} {x : String} {l : LocalName} {w : I64}
    (dead : ¬ Live ctx.d ctx.inner l) (apart : ctx.Scoped)
    (lives : ∀ l, Live ctx.d ctx.inner l → Live ctx'.d ctx'.inner l)
    (scope : ctx'.scope = ctx.scope.set x l) (inTry : ctx'.inTry = ctx.inTry)
    (holds : ∀ x, before (ctx.scope x) = vars x)
    (h : Comes ctx' k fin clear (before.set l w) r o) :
    Comes ctx k fin clear before (r.leaveScope x (vars x)) o := by
  cases r with
  | ok v vars' m =>
    obtain ⟨after, ho, ran, flag⟩ := h
    exact ⟨after, ho, ran.leaveScope dead apart lives scope holds, flag⟩
  | thrown msg vars' m =>
    simp only [Comes, Result.leaveScope, inTry] at h ⊢
    split
    · rename_i yes
      rw [if_pos yes] at h
      obtain ⟨stack, after, ho, ran, flag⟩ := h
      exact ⟨stack, after, ho, ran.leaveScope dead apart lives scope holds, flag⟩
    · rename_i no
      rwa [if_neg no] at h
  | _ => exact h

end Comes

/-! ### One form -/

theorem Ran.of_holds {ctx : Ctx} {locals : Locals} {vars : Vars}
    (holds : ∀ x, locals (ctx.scope x) = vars x) : Ran ctx locals vars locals :=
  ⟨holds, fun _ _ _ => rfl⟩

theorem run_ite (fuel : Nat) (result : Bool) (t e : Code M) (w : I64) (stack : List I64)
    (locals : Locals) (m : M) :
    (Code.seq .isTruthy (.ite result t e)).run fuel ⟨w :: stack, locals, m⟩ =
      (if FixedPoint.Operation.truthy w then t.run fuel ⟨[], locals, m⟩
        else e.run fuel ⟨[], locals, m⟩).leave result stack := by
  cases truth : FixedPoint.Operation.truthy w <;> simp [Code.run, Outcome.andThen, truth]

theorem run_gets (fuel : Nat) (xs : List LocalName) (stack : List I64) (locals : Locals) (m : M) :
    (Code.ofList (xs.map .localGet)).run fuel ⟨stack, locals, m⟩ =
      .next ⟨(xs.map locals).reverse ++ stack, locals, m⟩ := by
  induction xs generalizing stack with
  | nil => rfl
  | cons x xs ih =>
    cases xs with
    | nil => rfl
    | cons y ys =>
      refine (ih (locals x :: stack)).trans ?_
      simp only [List.map_cons, List.reverse_cons, List.append_assoc, List.cons_append,
        List.nil_append]

theorem bindParams_param (free : List String) (value : String → I64) (x : String) :
    bindParams (free.map .param) (free.map value) (.param x) = if x ∈ free then value x else 0 := by
  induction free with
  | nil => rfl
  | cons y free ih =>
    by_cases hx : x = y
    · simp [bindParams, hx]
    · simp [bindParams, hx, ih]

/-- What the code of a form does, wherever the form stands. -/
def FormComes (fuel : Nat) (e : Expr M) : Prop :=
  ∀ (ctx : Ctx), ctx.Scoped → Contained ctx.inTry e →
    ∀ (k : Nat) (stack : List I64) (locals : Locals) (vars : Vars) (m : M),
      (∀ x, locals (ctx.scope x) = vars x) →
        Comes ctx k (push stack) (locals .tryFlag = 0) locals
          (eval true fuel ctx.inner e vars m)
          (((expr ctx.inTry ctx.d ctx.scope e).patch k).run fuel ⟨stack, locals, m⟩)

section Forms

variable {fuel : Nat}

theorem set_comes {x : String} {e : Expr M} (ih : FormComes fuel e) :
    FormComes fuel (.set x e) := by
  intro ctx apart contained k stack locals vars m holds
  refine Comes.andThen (ih ctx apart contained k stack locals vars m holds)
    fun w vars m after ran flag => ?_
  have ne : LocalName.tryFlag ≠ ctx.scope x := fun e => (e ▸ apart.live x : Live _ _ .tryFlag)
  refine ⟨after.set (ctx.scope x) w, rfl, (Ran.of_holds ran.holds).set apart x w, fun clear => ?_⟩
  rw [Locals.set, if_neg ne]
  exact flag clear

theorem begin_comes {a b : Expr M} (iha : FormComes fuel a) (ihb : FormComes fuel b) :
    FormComes fuel (.begin a b) := by
  intro ctx apart contained k stack locals vars m holds
  refine Comes.andThen (iha ctx apart contained.1 k stack locals vars m holds)
    fun w vars m after ran flag => ?_
  exact (ihb ctx apart contained.2 k stack after vars m ran.holds).mono flag

theorem ite_comes {c t e : Expr M} (ihc : FormComes fuel c) (iht : FormComes fuel t)
    (ihe : FormComes fuel e) : FormComes fuel (.ite c t e) := by
  intro ctx apart contained k stack locals vars m holds
  refine Comes.andThen (ihc ctx apart contained.1 k stack locals vars m holds)
    fun w vars m after ran flag => ?_
  simp only [Code.ofList, Code.patch, run_ite]
  split
  · exact ((iht ctx apart contained.2.1 (k + 1) [] after vars m ran.holds).mono flag).leave stack
  · exact ((ihe ctx apart contained.2.2 (k + 1) [] after vars m ran.holds).mono flag).leave stack

theorem letIn_comes {x : String} {e body : Expr M} (ihe : FormComes fuel e)
    (ihb : FormComes fuel body) : FormComes fuel (.letIn x e body) := by
  intro ctx apart contained k stack locals vars m holds
  refine Comes.andThen (ihe ctx apart contained.1 k stack locals vars m holds)
    fun w vars m after ran flag => ?_
  let ctx' : Ctx := { ctx with d := ctx.d + 1, scope := ctx.scope.set x (.slot ctx.d) }
  have dead : ¬ Live ctx.d ctx.inner (.slot ctx.d) := Nat.lt_irrefl ctx.d
  have lives : ∀ l, Live ctx.d ctx.inner l → Live ctx'.d ctx'.inner l := by
    intro l live
    cases l with
    | slot n => exact Nat.lt_succ_of_lt live
    | _ => exact live
  have apart' : ctx'.Scoped := apart.bind dead lives (Nat.lt_succ_self ctx.d) rfl
  have inside := ihb ctx' apart' contained.2 k stack (after.set (.slot ctx.d) w) (vars.set x w) m
    ((Ran.of_holds ran.holds).bind apart dead)
  exact ((Comes.leaveScope dead apart lives rfl rfl ran.holds inside).mono flag)

theorem prim_comes {f : I64 → I64 → M → Option (I64 × M)} {a b : Expr M} (iha : FormComes fuel a)
    (ihb : FormComes fuel b) : FormComes fuel (.prim f a b) := by
  intro ctx apart contained k stack locals vars m holds
  refine Comes.andThen (iha ctx apart contained.1 k stack locals vars m holds)
    fun v vars m after ran flag => ?_
  refine Comes.andThen ((ihb ctx apart contained.2 k (v :: stack) after vars m ran.holds).mono flag)
    fun w vars m after ran flag => ?_
  simp only [Code.ofList, Code.patch, Code.run]
  cases f v w m with
  | none => rfl
  | some r => exact ⟨after, rfl, Ran.of_holds ran.holds, flag⟩

theorem throw_comes (msg : I64) : FormComes fuel (.throw msg : Expr M) := by
  intro ctx apart contained k stack locals vars m holds
  cases inTry : ctx.inTry with
  | false => simp [Comes, eval, expr, tryGuard, inTry, Code.patch, Code.run]
  | true =>
    simp only [Comes, eval, expr, tryGuard, inTry, if_true]
    refine ⟨stack, (locals.set .tryFlag 1).set .tryE msg, rfl, ?_, rfl, rfl⟩
    exact ((Ran.of_holds holds).scratch apart id 1).scratch apart id msg

/-! ### Loops, calls and `try` -/

/-- Where a loop goes with its value: out of the block around it. -/
def leaveLoop (w : I64) (locals : Locals) (m : M) : Outcome M := .branch 1 ⟨[w], locals, m⟩

/-- The body of the code of `while`, with its condition. -/
def turnCode (c body : Code M) : Code M :=
  .ofList [c, .isTruthy, .eqz, .ite false (.seq (.const 4) (.br (.depth 2))) .skip, body, .drop,
    .br (.depth 0)]

theorem repeatLoop_succ (body : Config M → Outcome M) (n : Nat) (c : Config M) :
    Outcome.repeatLoop body (n + 1) c =
      (body { c with stack := [] }).again (Outcome.repeatLoop body n) := by
  rw [Outcome.repeatLoop]
  cases body { c with stack := [] } with
  | branch d c => cases d <;> rfl
  | _ => rfl

theorem turns_come {c body : Expr M} (ihc : FormComes fuel c) (ihb : FormComes fuel body)
    {ctx : Ctx} (apart : ctx.Scoped) (hc : Contained ctx.inTry c) (hb : Contained ctx.inTry body)
    (k n : Nat) (stack : List I64) (locals : Locals) (vars : Vars) (m : M)
    (holds : ∀ x, locals (ctx.scope x) = vars x) :
    Comes ctx (k + 2) leaveLoop (locals .tryFlag = 0) locals
      (Result.turns (eval true fuel ctx.inner c) (eval true fuel ctx.inner body) n vars m)
      (Outcome.repeatLoop ((turnCode ((expr ctx.inTry ctx.d ctx.scope c).patch (k + 2))
        ((expr ctx.inTry ctx.d ctx.scope body).patch (k + 2))).run fuel) n ⟨stack, locals, m⟩) := by
  induction n generalizing stack locals vars m with
  | zero => rfl
  | succ n ih =>
    rw [repeatLoop_succ]
    refine Comes.andThen_again (ihc ctx apart hc (k + 2) [] locals vars m holds)
      fun w vars m after ran flag => ?_
    cases truth : FixedPoint.Operation.truthy w with
    | false =>
      refine ⟨after, ?_, Ran.of_holds ran.holds, flag⟩
      simp [Code.ofList, Code.run, Outcome.andThen, Outcome.leave, Outcome.again, truth, leaveLoop]
    | true =>
      rw [if_pos rfl]
      have skipped : (Code.seq .isTruthy (.seq .eqz (.seq
          (.ite false (.seq (.const 4) (.br (.depth 2))) .skip)
          (.seq ((expr ctx.inTry ctx.d ctx.scope body).patch (k + 2))
            (.seq .drop (.br (.depth 0))))))).run fuel ⟨[w], after, m⟩ =
          (Code.seq ((expr ctx.inTry ctx.d ctx.scope body).patch (k + 2))
            (.seq .drop (.br (.depth 0)))).run fuel ⟨[], after, m⟩ := by
        simp [Code.run, Outcome.andThen, Outcome.leave, truth]
      simp only [Code.ofList]
      rw [skipped]
      refine (Comes.andThen_again (ihb ctx apart hb (k + 2) [] after vars m ran.holds)
        fun v vars m after ran flag => ?_).mono flag
      exact (ih [] after vars m ran.holds).mono flag

theorem Comes.afterLoop {ctx : Ctx} {k : Nat} {clear : Prop} {before : Locals} {r : Result M}
    {o : Outcome M} {stack : List I64} (h : Comes ctx (k + 2) leaveLoop clear before r o) :
    Comes ctx k (push stack) clear before r
      (((o.leave false []).andThen ((Code.const 4).run fuel)).leave true stack) := by
  cases r with
  | ok w vars m =>
    obtain ⟨after, rfl, rest⟩ := h
    exact ⟨after, rfl, rest⟩
  | thrown msg vars m =>
    simp only [Comes] at h ⊢
    split
    · rename_i inTry
      rw [if_pos inTry] at h
      obtain ⟨st, after, rfl, rest⟩ := h
      exact ⟨st, after, rfl, rest⟩
    · rename_i inTry
      rw [if_neg inTry] at h
      rw [h]
      rfl
  | trap => rw [show o = .trap from h]; rfl
  | timeout => rw [show o = .timeout from h]; rfl
  | overwritten => trivial

theorem while_comes {c body : Expr M} (ihc : FormComes fuel c) (ihb : FormComes fuel body) :
    FormComes fuel (.while c body) := by
  intro ctx apart contained k stack locals vars m holds
  exact (turns_come ihc ihb apart contained.1 contained.2 k fuel [] locals vars m holds).afterLoop

theorem run_call {params : List LocalName} {args : List I64} (same : args.length = params.length)
    (body : Code M) (stack : List I64) (locals : Locals) (m : M) :
    (Code.call params body).run fuel ⟨args.reverse ++ stack, locals, m⟩ =
      match body.run fuel ⟨[], bindParams params.reverse args.reverse, m⟩ with
      | .next ⟨w :: _, _, m⟩ => .next ⟨w :: stack, locals, m⟩
      | .trap => .trap
      | .timeout => .timeout
      | _ => .invalid := by
  have long : params.length ≤ (args.reverse ++ stack).length := by simp [same]
  have taken : (args.reverse ++ stack).take params.length = args.reverse := by
    rw [← same, ← List.length_reverse, List.take_left]
  have rest : (args.reverse ++ stack).drop params.length = stack := by
    rw [← same, ← List.length_reverse, List.drop_left]
  simp only [Code.run, if_pos long, taken, rest]

/-- A function that no throw has to leave. -/
theorem lifted_comes {free : List String} {body : Expr M} (ih : FormComes fuel body) :
    FormComes fuel (.lifted free body) := by
  intro ctx apart contained k stack locals vars m holds
  let callee : Ctx := ⟨ctx.inTry, 0, [], .param⟩
  have apart' : callee.Scoped := ⟨fun _ => trivial, fun _ _ e => LocalName.param.inj e⟩
  let entry : Locals := bindParams (free.map .param).reverse
    ((free.map ctx.scope).map locals).reverse
  have entered : ∀ x, entry (callee.scope x) = vars.only free x := by
    intro x
    have bound := bindParams_param free.reverse vars x
    simp only [entry, callee, List.map_map, ← List.map_reverse, Function.comp_def, holds]
    simpa only [Vars.only, List.mem_reverse] using bound
  have closed : ctx.inTry = false ∨ throws body = false := by
    cases inTry : ctx.inTry with
    | false => exact .inl rfl
    | true => exact .inr (contained.1 inTry)
  have inside := ih callee apart' contained.2 0 [] entry (vars.only free) m entered
  rw [show (expr callee.inTry callee.d callee.scope body).patch 0 = _ from
    patch_expr closed 0 .param 0] at inside
  have gets := patch_gets (M := M) (free.map ctx.scope) k
  rw [List.map_map] at gets
  have code : ((expr ctx.inTry ctx.d ctx.scope (.lifted free body)).patch k).run fuel
      ⟨stack, locals, m⟩ =
      (Code.call (free.map .param) (expr ctx.inTry 0 .param body)).run fuel
        ⟨((free.map ctx.scope).map locals).reverse ++ stack, locals, m⟩ := by
    have ran := run_gets (M := M) fuel (free.map ctx.scope) stack locals m
    rw [List.map_map, ← gets] at ran
    exact congrArg (Outcome.andThen · _) ran
  rw [code, run_call (by simp), eval]
  have quiet : ctx.inTry = true → (eval true fuel [] body (vars.only free) m).Quiet := fun inTry =>
    eval_quiet (contained.1 inTry) true fuel [] (vars.only free) m
  revert inside quiet
  cases eval true fuel [] body (vars.only free) m with
  | ok w vars' m' =>
    rintro ⟨after, ran, -⟩ -
    rw [show Code.run fuel _ _ = _ from ran]
    exact ⟨locals, rfl, Ran.of_holds holds, id⟩
  | thrown msg vars' m' =>
    intro inside quiet
    have out : ctx.inTry = false := by
      cases inTry : ctx.inTry with
      | false => rfl
      | true => exact (quiet inTry).elim
    simp only [Comes, callee, out, Bool.false_eq_true, if_false] at inside
    simp only [Result.ofCall, Comes, out, Bool.false_eq_true, if_false]
    rw [inside]
  | trap =>
    intro inside _
    rw [show Code.run fuel _ _ = .trap from inside]
    rfl
  | timeout =>
    intro inside _
    rw [show Code.run fuel _ _ = .timeout from inside]
    rfl
  | overwritten => exact fun _ _ => trivial

/-- Clearing the flag, at the end of a `try`. -/
theorem Comes.cleared {ctx : Ctx} (apart : ctx.Scoped) {k : Nat} {clear clear' : Prop}
    {before : Locals} {r : Result M} {o : Outcome M} {stack : List I64}
    (h : Comes ctx k (push stack) clear before r o) :
    Comes ctx k (push stack) clear' before r
      (o.andThen ((Code.seq (.const 0) (.localSet .tryFlag)).run fuel)) := by
  have same : r.andThen .ok = r := by cases r <;> rfl
  rw [← same]
  refine Comes.andThen h fun w vars m after ran _ => ?_
  exact ⟨after.set .tryFlag 0, rfl, (Ran.of_holds ran.holds).scratch apart id 0, fun _ => rfl⟩

/-- The part of a `try` that follows its block. -/
def afterBlock (handler : Code M) (x : String) : Code M :=
  .ofList [.localGet .tryFlag,
    .ite true (.ofList [.localGet .tryE, .localSet (.catch x), handler]) (.localGet .tryRes),
    .const 0, .localSet .tryFlag]

theorem run_try (body handler : Code M) (x : String) (k : Nat) (stack : List I64)
    (locals : Locals) (m : M) :
    ((emitTry body handler (.catch x)).patch k).run fuel ⟨stack, locals, m⟩ =
      ((((body.patch 0).run fuel ⟨[], locals.set .tryFlag 0, m⟩).andThen
          ((Code.localSet .tryRes).run fuel)).leave false stack).andThen
        ((afterBlock (handler.patch (k + 1)) x).run fuel) := by
  simp only [emitTry, Code.ofList, Code.patch, Code.patch_patch]
  rfl

theorem handler_comes {handler : Expr M} {x : String} (ih : FormComes fuel handler) {ctx : Ctx}
    (apart : ctx.Scoped) (contained : Contained ctx.inTry handler) (fresh : x ∉ ctx.inner)
    (k : Nat) (stack : List I64) {caught : Locals} {vars : Vars}
    (holds : ∀ y, caught (ctx.scope y) = vars y) (flag : caught .tryFlag = 1) (m : M) :
    Comes ctx k (push stack) True caught
      ((eval true fuel (x :: ctx.inner) handler (vars.set x (caught .tryE)) m).leaveScope x
        (vars x))
      ((afterBlock ((expr ctx.inTry ctx.d (ctx.scope.set x (.catch x)) handler).patch (k + 1))
        x).run fuel ⟨stack, caught, m⟩) := by
  let ctx' : Ctx := { ctx with inner := x :: ctx.inner, scope := ctx.scope.set x (.catch x) }
  have lives : ∀ l, Live ctx.d ctx.inner l → Live ctx'.d ctx'.inner l := by
    intro l live
    cases l with
    | «catch» y => exact List.mem_cons_of_mem x live
    | _ => exact live
  have dead : ¬ Live ctx.d ctx.inner (.catch x) := fresh
  have apart' : ctx'.Scoped := apart.bind dead lives List.mem_cons_self rfl
  have inside := ih ctx' apart' contained (k + 1) [] (caught.set (.catch x) (caught .tryE))
    (vars.set x (caught .tryE)) m ((Ran.of_holds holds).bind apart dead)
  have left := (Comes.leaveScope dead apart lives rfl rfl holds inside).leave stack
  have jumped : (afterBlock ((expr ctx.inTry ctx.d (ctx.scope.set x (.catch x)) handler).patch
      (k + 1)) x).run fuel ⟨stack, caught, m⟩ =
      ((((expr ctx.inTry ctx.d (ctx.scope.set x (.catch x)) handler).patch (k + 1)).run fuel
        ⟨[], caught.set (.catch x) (caught .tryE), m⟩).leave true stack).andThen
        ((Code.seq (.const 0) (.localSet .tryFlag)).run fuel) := by
    simp only [afterBlock, Code.ofList, Code.run, Outcome.andThen, flag]
    rfl
  rw [jumped]
  exact left.cleared apart

theorem tryCatch_comes {body handler : Expr M} {x : String} (ihb : FormComes fuel body)
    (ihh : FormComes fuel handler) : FormComes fuel (.tryCatch body x handler) := by
  intro ctx apart contained k stack locals vars m holds
  have started : Ran ctx locals vars (locals.set .tryFlag 0) :=
    (Ran.of_holds holds).scratch apart id 0
  have inside := ihb { ctx with inTry := true } ⟨apart.live, apart.injective⟩ contained.1 0 []
    (locals.set .tryFlag 0) vars m started.holds
  simp only [expr, eval, run_try]
  revert inside
  cases eval true fuel ctx.inner body vars m with
  | ok w vars' m' =>
    rintro ⟨after, ran, kept, flag⟩
    rw [show Code.run fuel _ _ = _ from ran]
    have done : Ran ctx locals vars' after := started.trans ⟨kept.holds, kept.kept⟩
    refine ⟨(after.set .tryRes w).set .tryFlag 0, ?_,
      (done.scratch apart id w).scratch apart id 0, fun _ => rfl⟩
    have zero : (after.set .tryRes w) .tryFlag = 0 := flag rfl
    have ended : (((push [] w after m').andThen ((Code.localSet .tryRes).run fuel)).leave false
        stack) = .next ⟨stack, after.set .tryRes w, m'⟩ := rfl
    rw [ended]
    simp only [afterBlock, Code.ofList, Code.run, Outcome.andThen, zero]
    rfl
  | thrown msg vars' m' =>
    intro inside
    obtain ⟨st, after, ran, kept, flag, rfl⟩ := inside
    rw [show Code.run fuel _ _ = _ from ran]
    dsimp only
    split
    · trivial
    · rename_i fresh
      have fresh : x ∉ ctx.inner := fun mem => fresh ⟨trivial, mem⟩
      have done : Ran ctx locals vars' after := started.trans ⟨kept.holds, kept.kept⟩
      exact ((handler_comes ihh apart contained.2 fresh k stack done.holds flag m').mono
        fun _ => trivial).from_ran done
  | trap =>
    intro inside
    rw [show Code.run fuel _ _ = .trap from inside]
    rfl
  | timeout =>
    intro inside
    rw [show Code.run fuel _ _ = .timeout from inside]
    rfl
  | overwritten => exact fun _ => trivial

end Forms

/-! ### Every form -/

theorem expr_comes (fuel : Nat) (e : Expr M) : FormComes fuel e := by
  induction e with
  | const w =>
    intro ctx _ _ k stack locals vars m holds
    exact ⟨locals, rfl, Ran.of_holds holds, id⟩
  | sym x =>
    intro ctx _ _ k stack locals vars m holds
    refine ⟨locals, ?_, Ran.of_holds holds, id⟩
    simp only [expr, Code.patch, Code.run, push, holds]
  | set x e ih => exact set_comes ih
  | begin a b iha ihb => exact begin_comes iha ihb
  | ite c t e ihc iht ihe => exact ite_comes ihc iht ihe
  | «while» c body ihc ihb => exact while_comes ihc ihb
  | letIn x e body ihe ihb => exact letIn_comes ihe ihb
  | prim f a b iha ihb => exact prim_comes iha ihb
  | throw msg => exact throw_comes msg
  | tryCatch body x handler ihb ihh => exact tryCatch_comes ihb ihh
  | lifted free body ih => exact lifted_comes ih

/-! ### The watched evaluation -/

/-- What is watched changes nothing unless it stops the evaluation. -/
def SameUnlessStopped (r r' : Result M) : Prop := r' ≠ .overwritten → r = r'

namespace SameUnlessStopped

variable {r r' : Result M}

theorem andThen {k k' : I64 → Vars → M → Result M} (h : SameUnlessStopped r r')
    (hk : ∀ w vars m, SameUnlessStopped (k w vars m) (k' w vars m)) :
    SameUnlessStopped (r.andThen k) (r'.andThen k') := by
  intro going
  have same : r = r' := h fun e => going (by rw [e]; rfl)
  subst same
  cases r with
  | ok w vars m => exact hk w vars m going
  | _ => rfl

theorem leaveScope (h : SameUnlessStopped r r') (x : String) (w : I64) :
    SameUnlessStopped (r.leaveScope x w) (r'.leaveScope x w) := by
  intro going
  rw [h fun e => going (by rw [e]; rfl)]

theorem turns {c c' b b' : Vars → M → Result M}
    (hc : ∀ vars m, SameUnlessStopped (c vars m) (c' vars m))
    (hb : ∀ vars m, SameUnlessStopped (b vars m) (b' vars m)) (n : Nat) (vars : Vars) (m : M) :
    SameUnlessStopped (Result.turns c b n vars m) (Result.turns c' b' n vars m) := by
  induction n generalizing vars m with
  | zero => exact fun _ => rfl
  | succ n ih =>
    refine (hc vars m).andThen fun w vars m => ?_
    split
    · exact (hb vars m).andThen fun _ vars m => ih vars m
    · exact fun _ => rfl

end SameUnlessStopped

theorem eval_watched (fuel : Nat) (inner : List String) (e : Expr M) (vars : Vars) (m : M) :
    SameUnlessStopped (eval false fuel inner e vars m) (eval true fuel inner e vars m) := by
  induction e generalizing inner vars m with
  | const w => exact fun _ => rfl
  | sym x => exact fun _ => rfl
  | throw msg => exact fun _ => rfl
  | set x e ih => exact (ih inner vars m).andThen fun _ _ _ _ => rfl
  | begin a b iha ihb => exact (iha inner vars m).andThen fun _ => ihb inner
  | ite c t e ihc iht ihe =>
    refine (ihc inner vars m).andThen fun w vars m => ?_
    split
    · exact iht inner vars m
    · exact ihe inner vars m
  | «while» c body ihc ihb => exact SameUnlessStopped.turns (ihc inner) (ihb inner) fuel vars m
  | letIn x e body ihe ihb =>
    exact (ihe inner vars m).andThen fun w vars m => (ihb inner _ m).leaveScope x (vars x)
  | prim f a b iha ihb =>
    exact (iha inner vars m).andThen fun v vars m =>
      (ihb inner vars m).andThen fun w vars m _ => rfl
  | lifted free body ih =>
    intro going
    simp only [eval] at going ⊢
    rw [ih [] (vars.only free) m fun e => going (by rw [e]; rfl)]
  | tryCatch body x handler ihb ihh =>
    intro going
    simp only [eval] at going ⊢
    rw [ihb inner vars m fun e => going (by rw [e])]
    cases hr : eval true fuel inner body vars m with
    | thrown msg vars' m' =>
      rw [hr] at going
      dsimp only at going ⊢
      rw [if_neg fun h => Bool.false_ne_true h.1]
      split at going
      · exact absurd rfl going
      · rename_i fresh
        rw [if_neg fresh]
        exact (ihh (x :: inner) (vars'.set x msg) m').leaveScope x (vars' x) going
    | _ => rfl

/-! ### Programs -/

/-- The variables of a function are its parameters and locals. -/
def atEntry (vars : Vars) : Locals
  | .param x => vars x
  | _ => 0

def Outcome.Agrees : Result M → Outcome M → Prop
  | .ok w vars m, o => ∃ after : Locals, o = .next ⟨[w], after, m⟩ ∧ ∀ x, after (.param x) = vars x
  | .thrown _ _ _, o => o = .trap
  | .trap, o => o = .trap
  | .timeout, o => o = .timeout
  | .overwritten, _ => False

/-- `(try (throw m) (catch e (begin (try (throw n) (catch f nil)) e)))` -/
def nestedCatch (m n : I64) (f : String) : Expr Unit :=
  .tryCatch (.throw m) "e" (.begin (.tryCatch (.throw n) f (.const 4)) (.sym "e"))

/-- `(try (loop () (throw m)) (catch e 1))` -/
def throwInLoop (m : I64) : Expr Unit := .tryCatch (.lifted [] (.throw m)) "e" (.const 8)

end TryCatch

end LispRlm.WasmEmit
