import Mathlib.Data.List.Basic

/-! Structured stack code: locals, nested blocks, branches by depth, and holes for the code of
operands. -/

namespace LispRlm.Foundation

/-- Code over local names `ι`, primitive operations `P` and holes `H`. A hole leaves one value. -/
inductive Code (ι P H T : Type) where
  | skip
  | seq (first second : Code ι P H T)
  | prim (op : P)
  | localGet (x : ι)
  | localSet (x : ι)
  | localTee (x : ι)
  | block (results : List T) (body : Code ι P H T)
  | loop (results : List T) (body : Code ι P H T)
  | ifElse (results : List T) (thenBody elseBody : Code ι P H T)
  | br (depth : Nat)
  | brIf (depth : Nat)
  | unreachable
  | hole (h : H)

/-- The primitive operations of a machine: their types, and what they do to the values they take
and to the memory. `none` is a trap. -/
structure StackMachine (ι P T W M : Type) where
  word : T
  condition : T
  local_ : ι → T
  takes : P → List T
  gives : P → List T
  act : P → List W → M → Option (List W × M)
  truth : W → Bool
  act_gives : ∀ op args m rs m', act op args m = some (rs, m') → rs.length = (gives op).length

/-- The locals and the memory. -/
structure Store (ι W M : Type) where
  locals : ι → W
  memory : M

structure Config (ι W M : Type) where
  stack : List W
  store : Store ι W M

inductive Outcome (ι W M : Type) where
  | next (c : Config ι W M)
  | branch (depth : Nat) (c : Config ι W M)
  | trap
  | stuck
  | outOfFuel

/-- What the code of an operand comes to. -/
inductive Answer (ι W M : Type) where
  | value (w : W) (s : Store ι W M)
  | trap
  | stuck
  | outOfFuel

variable {ι P H T W M : Type}

namespace Code

/-- A list of instructions, one after the other. -/
def ofList : List (Code ι P H T) → Code ι P H T
  | [] => .skip
  | i :: rest => .seq i (ofList rest)

end Code

namespace Store

def set [DecidableEq ι] (s : Store ι W M) (x : ι) (w : W) : Store ι W M :=
  { s with locals := fun y => if y = x then w else s.locals y }

@[simp] theorem set_memory [DecidableEq ι] (s : Store ι W M) (x : ι) (w : W) :
    (s.set x w).memory = s.memory := rfl

theorem set_locals [DecidableEq ι] (s : Store ι W M) (x : ι) (w : W) (y : ι) :
    (s.set x w).locals y = if y = x then w else s.locals y := rfl

end Store

namespace Outcome

/-- The same outcome over a deeper stack. -/
def onTop (below : List W) : Outcome ι W M → Outcome ι W M
  | .next c => .next { c with stack := c.stack ++ below }
  | .branch n c => .branch n { c with stack := c.stack ++ below }
  | .trap => .trap
  | .stuck => .stuck
  | .outOfFuel => .outOfFuel

/-- Leaving a block that yields `results` values, entered over the stack `below`. -/
def leave (results : Nat) (below : List W) : Outcome ι W M → Outcome ι W M
  | .next c | .branch 0 c =>
      if results ≤ c.stack.length then
        .next { c with stack := c.stack.take results ++ below }
      else .stuck
  | .branch (n + 1) c => .branch n { c with stack := c.stack ++ below }
  | .trap => .trap
  | .stuck => .stuck
  | .outOfFuel => .outOfFuel

/-- The code of an operand leaves its value as the only one on its own stack. -/
def answer : Outcome ι W M → Answer ι W M
  | .next ⟨[w], s⟩ => .value w s
  | .trap => .trap
  | .outOfFuel => .outOfFuel
  | _ => .stuck

end Outcome

def Answer.push (stack : List W) : Answer ι W M → Outcome ι W M
  | .value w s => .next ⟨w :: stack, s⟩
  | .trap => .trap
  | .stuck => .stuck
  | .outOfFuel => .outOfFuel

def Answer.value? : Answer ι W M → Option W
  | .value w _ => some w
  | _ => none

/-- The body of a loop, again from an empty stack whenever it branches to the loop. -/
def repeatLoop (body : Store ι W M → Outcome ι W M) : Nat → Store ι W M → Outcome ι W M
  | 0, _ => .outOfFuel
  | n + 1, s =>
      match body s with
      | .branch 0 c => repeatLoop body n c.store
      | o => o

section Running

variable [DecidableEq ι] (machine : StackMachine ι P T W M) (fill : H → Store ι W M → Answer ι W M)

/-- Running code. Each loop may be repeated `fuel` times. -/
def run (fuel : Nat) : Code ι P H T → Config ι W M → Outcome ι W M
  | .skip, c => .next c
  | .seq first second, c =>
      match run fuel first c with
      | .next c' => run fuel second c'
      | o => o
  | .prim op, c =>
      if (machine.takes op).length ≤ c.stack.length then
        match machine.act op (c.stack.take (machine.takes op).length) c.store.memory with
        | none => .trap
        | some (rs, m) =>
            .next ⟨rs ++ c.stack.drop (machine.takes op).length, { c.store with memory := m }⟩
      else .stuck
  | .localGet x, c => .next { c with stack := c.store.locals x :: c.stack }
  | .localSet x, c =>
      match c.stack with
      | [] => .stuck
      | w :: stack => .next ⟨stack, c.store.set x w⟩
  | .localTee x, c =>
      match c.stack with
      | [] => .stuck
      | w :: stack => .next ⟨w :: stack, c.store.set x w⟩
  | .block results body, c => (run fuel body { c with stack := [] }).leave results.length c.stack
  | .loop results body, c =>
      (repeatLoop (fun s => run fuel body ⟨[], s⟩) fuel c.store).leave results.length c.stack
  | .ifElse results thenBody elseBody, c =>
      match c.stack with
      | [] => .stuck
      | w :: stack =>
          (if machine.truth w then run fuel thenBody ⟨[], c.store⟩
            else run fuel elseBody ⟨[], c.store⟩).leave results.length stack
  | .br depth, c => .branch depth c
  | .brIf depth, c =>
      match c.stack with
      | [] => .stuck
      | w :: stack =>
          if machine.truth w then .branch depth { c with stack := stack }
          else .next { c with stack := stack }
  | .unreachable, _ => .trap
  | .hole h, c => (fill h c.store).push c.stack

theorem run_seq_stop {fuel : Nat} {first : Code ι P H T} {c : Config ι W M} {o : Outcome ι W M}
    (ran : run machine fill fuel first c = o) (stops : ∀ c', o ≠ .next c')
    (second : Code ι P H T) : run machine fill fuel (.seq first second) c = o := by
  rw [run, ran]
  cases o with
  | next c' => exact (stops c' rfl).elim
  | branch n c' => rfl
  | trap => rfl
  | stuck => rfl
  | outOfFuel => rfl

end Running

end LispRlm.Foundation
