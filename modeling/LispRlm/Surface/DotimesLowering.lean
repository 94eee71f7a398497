import LispRlm.Bytecode.Values

/-! The pass that lowers `dotimes` to `let` and `while`. -/

namespace LispRlm.Surface

open Bytecode (LispVal)

namespace Dotimes

/-- The variable, the count and the body of a form `(dotimes (var count) body ...)`. -/
def parts : List LispVal → Option (String × LispVal × List LispVal)
  | .sym "dotimes" :: .list (.sym var :: count :: _) :: b :: body => some (var, count, b :: body)
  | _ => none

def limitName (counter : Nat) : String := "%dotimes-limit-" ++ toString counter

def increment (var : String) : LispVal :=
  .list [.sym "set!", .sym var, .list [.sym "+", .sym var, .num 1]]

def lowered (counter : Nat) (var : String) (count : LispVal) (body : List LispVal) : LispVal :=
  .list [.sym "let",
    .list [.list [.sym var, .num 0], .list [.sym (limitName counter), count]],
    .list (.sym "while" :: .list [.sym "<", .sym var, .sym (limitName counter)] ::
      (body ++ [increment var]))]

mutual

/-- `desugar_expr`, with the number of loops that were lowered before. -/
def desugarExpr (counter : Nat) : LispVal → LispVal × Nat
  | .list items =>
      let (items, counter) := desugarItems counter items
      match parts items with
      | some (var, count, body) => (lowered (counter + 1) var count body, counter + 1)
      | none => (.list items, counter)
  | v => (v, counter)

def desugarItems (counter : Nat) : List LispVal → List LispVal × Nat
  | [] => ([], counter)
  | item :: items =>
      let (item, counter) := desugarExpr counter item
      let (items, counter) := desugarItems counter items
      (item :: items, counter)

end

end Dotimes

end LispRlm.Surface
