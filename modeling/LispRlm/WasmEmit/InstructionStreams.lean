import LispRlm.Foundation.Windows
import Mathlib.Algebra.Group.Nat.Defs

/-! Streams of wasm instructions, as functions hold them, and the structured code that they are. -/

namespace LispRlm.WasmEmit.Stream

open Foundation

inductive Value
  | i32 (w : BitVec 32)
  | i64 (w : BitVec 64)
  | f32 (w : BitVec 32)
  | f64 (w : BitVec 64)

inductive BlockType
  | empty
  | result

/-- Instructions; `other` are all those that no rewriting looks at, over primitives `P`. -/
inductive Instruction (P : Type)
  | i64Const (n : BitVec 64)
  | i64Add
  | i64Sub
  | i64Mul
  | i64Or
  | i64Shl
  | i64ShrS
  | i64ShrU
  | i64ExtendI32U
  | i32WrapI64
  | drop
  | localGet (n : Nat)
  | localSet (n : Nat)
  | localTee (n : Nat)
  | br (depth : Nat)
  | brIf (depth : Nat)
  | return_
  | unreachable
  | block (t : BlockType)
  | loop (t : BlockType)
  | if_ (t : BlockType)
  | else_
  | end_
  | other (op : P)

/-- The operand stack, the locals, and the memory, globals and host. -/
structure Config (M : Type) where
  stack : List Value
  locals : Nat → Value
  world : M

/-- How code ends other than by reaching its end. `invalid` is code that does not validate,
`changed` a check that failed. -/
inductive Exit (M : Type)
  | branch (depth : Nat) (c : Config M)
  | return_ (c : Config M)
  | trap
  | outOfFuel
  | invalid
  | changed

inductive Effect (M : Type)
  | done (stack : List Value) (world : M)
  | trap
  | invalid

/-- What the other instructions do. -/
abbrev Primitives (P M : Type) := P → List Value → M → Effect M

variable {P M : Type}

abbrev Result (M : Type) := Except (Exit M) (Config M)

namespace Config

def push (c : Config M) (v : Value) : Config M := { c with stack := v :: c.stack }

def set (c : Config M) (n : Nat) (v : Value) : Config M :=
  { c with locals := fun m => if m = n then v else c.locals m }

def binary (f : BitVec 64 → BitVec 64 → BitVec 64) (c : Config M) : Result M :=
  match c.stack with
  | .i64 b :: .i64 a :: rest => .ok { c with stack := .i64 (f a b) :: rest }
  | _ => .error .invalid

end Config

/-- Shift counts are taken modulo 64. -/
def count (b : BitVec 64) : Nat := b.toNat % 64

def step (act : Primitives P M) : Instruction P → Config M → Result M
  | .i64Const n, c => .ok (c.push (.i64 n))
  | .i64Add, c => c.binary (· + ·)
  | .i64Sub, c => c.binary (· - ·)
  | .i64Mul, c => c.binary (· * ·)
  | .i64Or, c => c.binary (· ||| ·)
  | .i64Shl, c => c.binary fun a b => a <<< count b
  | .i64ShrS, c => c.binary fun a b => a.sshiftRight (count b)
  | .i64ShrU, c => c.binary fun a b => a >>> count b
  | .i64ExtendI32U, c =>
      match c.stack with
      | .i32 w :: rest => .ok { c with stack := .i64 (w.setWidth 64) :: rest }
      | _ => .error .invalid
  | .i32WrapI64, c =>
      match c.stack with
      | .i64 w :: rest => .ok { c with stack := .i32 (w.setWidth 32) :: rest }
      | _ => .error .invalid
  | .drop, c =>
      match c.stack with
      | _ :: rest => .ok { c with stack := rest }
      | [] => .error .invalid
  | .localGet n, c => .ok (c.push (c.locals n))
  | .localSet n, c =>
      match c.stack with
      | v :: rest => .ok ({ c with stack := rest }.set n v)
      | [] => .error .invalid
  | .localTee n, c =>
      match c.stack with
      | v :: _ => .ok (c.set n v)
      | [] => .error .invalid
  | .br depth, c => .error (.branch depth c)
  | .brIf depth, c =>
      match c.stack with
      | .i32 w :: rest =>
          if w = 0 then .ok { c with stack := rest }
          else .error (.branch depth { c with stack := rest })
      | _ => .error .invalid
  | .return_, c => .error (.return_ c)
  | .unreachable, _ => .error .trap
  | .other op, c =>
      match act op c.stack c.world with
      | .done stack world => .ok { c with stack, world }
      | .trap => .error .trap
      | .invalid => .error .invalid
  | .block _, _ | .loop _, _ | .if_ _, _ | .else_, _ | .end_, _ => .error .invalid

/-! ### Structured code -/

/-- Straight code, and what stands between two pieces of it. -/
inductive Structured (P : Type)
  | straight (code : List (Instruction P))
  | block (before : List (Instruction P)) (t : BlockType) (body rest : Structured P)
  | loop (before : List (Instruction P)) (t : BlockType) (body rest : Structured P)
  | ifThen (before : List (Instruction P)) (t : BlockType) (yes rest : Structured P)
  | ifElse (before : List (Instruction P)) (t : BlockType) (yes no rest : Structured P)

namespace Structured

/-- The stream: every construct closed by its `end_`. -/
def flatten : Structured P → List (Instruction P)
  | straight code => code
  | block before t body rest => before ++ .block t :: (flatten body ++ .end_ :: flatten rest)
  | loop before t body rest => before ++ .loop t :: (flatten body ++ .end_ :: flatten rest)
  | ifThen before t yes rest => before ++ .if_ t :: (flatten yes ++ .end_ :: flatten rest)
  | ifElse before t yes no rest =>
      before ++ .if_ t :: (flatten yes ++ .else_ :: (flatten no ++ .end_ :: flatten rest))

/-- Every piece of straight code rewritten. -/
def rewrite (f : List (Instruction P) → List (Instruction P)) : Structured P → Structured P
  | straight code => straight (f code)
  | block before t body rest => block (f before) t (rewrite f body) (rewrite f rest)
  | loop before t body rest => loop (f before) t (rewrite f body) (rewrite f rest)
  | ifThen before t yes rest => ifThen (f before) t (rewrite f yes) (rewrite f rest)
  | ifElse before t yes no rest =>
      ifElse (f before) t (rewrite f yes) (rewrite f no) (rewrite f rest)

end Structured

/-- Leaving a construct that was entered over the stack `outer`. -/
def leave (t : BlockType) (outer : List Value) : Result M → Result M
  | .ok c | .error (.branch 0 c) =>
      match t, c.stack with
      | .empty, _ => .ok { c with stack := outer }
      | .result, v :: _ => .ok { c with stack := v :: outer }
      | .result, [] => .error .invalid
  | .error (.branch (depth + 1) c) => .error (.branch depth { c with stack := c.stack ++ outer })
  | .error e => .error e

/-- The body of a loop, again from an empty stack whenever it branches to the loop. -/
def turns (body : Config M → Result M) : Nat → Config M → Result M
  | 0, _ => .error .outOfFuel
  | n + 1, c =>
      match body c with
      | .error (.branch 0 c') => turns body n { c' with stack := [] }
      | o => o

/-- The condition of an `if`. -/
def test (c : Config M) : Except (Exit M) (Bool × Config M) :=
  match c.stack with
  | .i32 w :: rest => .ok (w != 0, { c with stack := rest })
  | _ => .error .invalid

/-- Running structured code, given what straight code does. Each loop may be repeated `fuel`
times. -/
def Structured.run (exec : List (Instruction P) → Config M → Result M) (fuel : Nat) :
    Structured P → Config M → Result M
  | straight code, c => exec code c
  | block before t body rest, c =>
      (exec before c).bind fun c =>
        (leave t c.stack (run exec fuel body { c with stack := [] })).bind (run exec fuel rest)
  | loop before t body rest, c =>
      (exec before c).bind fun c =>
        (leave t c.stack (turns (run exec fuel body) fuel { c with stack := [] })).bind
          (run exec fuel rest)
  | ifThen before t yes rest, c =>
      (exec before c).bind fun c => (test c).bind fun (b, c) =>
        (leave t c.stack (if b then run exec fuel yes { c with stack := [] }
          else .ok { c with stack := [] })).bind (run exec fuel rest)
  | ifElse before t yes no rest, c =>
      (exec before c).bind fun c => (test c).bind fun (b, c) =>
        (leave t c.stack (if b then run exec fuel yes { c with stack := [] }
          else run exec fuel no { c with stack := [] })).bind (run exec fuel rest)

/-! ### Rewritten code -/

/-- Ends that say nothing about the program. -/
inductive Exit.Bad : Exit M → Prop
  | invalid : Bad .invalid
  | changed : Bad .changed

section Upto

variable {bad : Exit M → Prop} (bads : ∀ e, bad e → e.Bad)

include bads

theorem leave_upto {t : BlockType} {outer : List Value} {x y : Result M}
    (same : Upto bad x y) : Upto bad (leave t outer x) (leave t outer y) := by
  rcases same with ⟨e, isBad, rfl⟩ | rfl
  · left
    cases bads e isBad with
    | invalid => exact ⟨.invalid, isBad, rfl⟩
    | changed => exact ⟨.changed, isBad, rfl⟩
  · exact .refl _

theorem turns_upto {body body' : Config M → Result M}
    (same : ∀ c, Upto bad (body c) (body' c)) (n : Nat) (c : Config M) :
    Upto bad (turns body n c) (turns body' n c) := by
  induction n generalizing c with
  | zero => exact .refl _
  | succ n ih =>
      rw [turns, turns]
      rcases same c with ⟨e, isBad, failed⟩ | equal
      · left
        rw [failed]
        cases bads e isBad with
        | invalid => exact ⟨.invalid, isBad, rfl⟩
        | changed => exact ⟨.changed, isBad, rfl⟩
      · rw [equal]
        split
        · exact ih _
        · exact .refl _

/-- If straight code does the same when rewritten, so does structured code. -/
theorem Structured.run_rewrite {exec exec' : List (Instruction P) → Config M → Result M}
    {f : List (Instruction P) → List (Instruction P)}
    (same : ∀ code c, Upto bad (exec code c) (exec' (f code) c)) (fuel : Nat)
    (t : Structured P) (c : Config M) :
    Upto bad (t.run exec fuel c) ((t.rewrite f).run exec' fuel c) := by
  induction t generalizing c with
  | straight code => exact same code c
  | block before t body rest ihBody ihRest =>
      apply (same before c).bind
      intro c _
      exact (leave_upto bads (ihBody _)).bind fun c _ => ihRest c
  | loop before t body rest ihBody ihRest =>
      apply (same before c).bind
      intro c _
      exact (leave_upto bads (turns_upto bads ihBody fuel _)).bind fun c _ => ihRest c
  | ifThen before t yes rest ihYes ihRest =>
      apply (same before c).bind
      intro c _
      apply (Upto.refl _).bind
      intro (b, c) _
      refine (leave_upto bads ?_).bind fun c _ => ihRest c
      cases b with
      | true => exact ihYes _
      | false => exact .refl _
  | ifElse before t yes no rest ihYes ihNo ihRest =>
      apply (same before c).bind
      intro c _
      apply (Upto.refl _).bind
      intro (b, c) _
      refine (leave_upto bads ?_).bind fun c _ => ihRest c
      cases b with
      | true => exact ihYes _
      | false => exact ihNo _

end Upto

theorem Structured.rewrite_id (t : Structured P) : t.rewrite (fun code => code) = t := by
  induction t with
  | straight code => rfl
  | block before t body rest ihBody ihRest => rw [rewrite, ihBody, ihRest]
  | loop before t body rest ihBody ihRest => rw [rewrite, ihBody, ihRest]
  | ifThen before t yes rest ihYes ihRest => rw [rewrite, ihYes, ihRest]
  | ifElse before t yes no rest ihYes ihNo ihRest => rw [rewrite, ihYes, ihNo, ihRest]

/-- Instructions at which a branch may arrive, or from which control goes elsewhere. -/
inductive Instruction.Barrier : Instruction P → Prop
  | block (t : BlockType) : Barrier (.block t)
  | loop (t : BlockType) : Barrier (.loop t)
  | if_ (t : BlockType) : Barrier (.if_ t)
  | else_ : Barrier .else_
  | end_ : Barrier .end_

/-- A pass that stops at barriers rewrites the pieces of straight code and nothing else. -/
theorem Structured.flatten_rewrite {f : List (Instruction P) → List (Instruction P)}
    (splits : ∀ barrier, Instruction.Barrier barrier → ∀ code rest,
      f (code ++ barrier :: rest) = f code ++ barrier :: f rest) (t : Structured P) :
    (t.rewrite f).flatten = f t.flatten := by
  induction t with
  | straight code => rfl
  | block before t body rest ihBody ihRest =>
      rw [rewrite, flatten, flatten, splits _ (.block t), splits _ .end_, ihBody, ihRest]
  | loop before t body rest ihBody ihRest =>
      rw [rewrite, flatten, flatten, splits _ (.loop t), splits _ .end_, ihBody, ihRest]
  | ifThen before t yes rest ihYes ihRest =>
      rw [rewrite, flatten, flatten, splits _ (.if_ t), splits _ .end_, ihYes, ihRest]
  | ifElse before t yes no rest ihYes ihNo ihRest =>
      rw [rewrite, flatten, flatten, splits _ (.if_ t), splits _ .else_, splits _ .end_, ihYes,
        ihNo, ihRest]

end LispRlm.WasmEmit.Stream
