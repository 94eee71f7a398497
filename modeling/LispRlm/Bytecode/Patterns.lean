import LispRlm.Bytecode.Values
import Mathlib.Logic.Relation

/-! Pattern matching: the code that `compile_pattern_check` emits against `match_pattern`. -/

namespace LispRlm.Bytecode

namespace Patterns

/-! ### The reference -/

def epsilon : Float := .ofBits 0x3CB0000000000000

def containsColons : List Char → Bool
  | ':' :: ':' :: _ => true
  | _ :: cs => containsColons cs
  | [] => false

def startsWithMark (s : String) : Bool := s.toList.head? = some '?'

/-- A name without the `?` in front. -/
def strip (s : String) : String := String.ofList s.toList.tail

/-- The tag of a sum type's pattern. -/
def taggedHead : LispVal → Option String
  | .sym tag => if containsColons tag.toList ∧ startsWithMark tag = false then some tag else none
  | _ => none

def isSym (s : String) : LispVal → Bool
  | .sym t => t = s
  | _ => false

mutual

def matchPattern : LispVal → LispVal → Option (List (String × LispVal))
  | .sym s, value =>
    if s = "_" then some []
    else if s = "else" then some []
    else if startsWithMark s then some [(strip s, value)]
    else some [(s, value)]
  | .num n, value =>
    match value with
    | .num m => if m = n then some [] else none
    | _ => none
  | .float f, value =>
    match value with
    | .float vf => if (Float.ofBits f - .ofBits vf).abs < epsilon then some [] else none
    | _ => none
  | .str s, value =>
    match value with
    | .str t => if t = s then some [] else none
    | _ => none
  | .bool b, value =>
    match value with
    | .bool c => if c = b then some [] else none
    | _ => none
  | .list (pat :: pats), value =>
    match taggedHead pat with
    | some tag =>
      match value with
      | .tagged typeName variantId fields =>
        if tag ≠ s!"{typeName}::{variantId}" then none
        else if fields.length ≠ pats.length then none
        else matchAll pats fields
      | _ => none
    | none =>
      if isSym "list" pat then
        match value with
        | .list vals => if vals.length = pats.length then matchAll pats vals else none
        | _ => none
      else if isSym "cons" pat ∧ pats.length = 2 then
        match pats, value with
        | [headPat, tailPat], .list (head :: tail) => do
          let b1 ← matchPattern headPat head
          let b2 ← matchPattern tailPat (.list tail)
          some (b1 ++ b2)
        | _, _ => none
      else
        match value with
        | .list vals =>
          if vals.length = pats.length + 1 then matchAll (pat :: pats) vals else none
        | _ => none
  | _, _ => none

/-- The patterns against the values, one for one. -/
def matchAll : List LispVal → List LispVal → Option (List (String × LispVal))
  | p :: ps, v :: vs => do
    let b ← matchPattern p v
    let all ← matchAll ps vs
    some (b ++ all)
  | _, _ => some []

end

/-! ### The emitted code -/

inductive Op
  | loadSlot (slot : Nat)
  | storeSlot (slot : Nat)
  | pushI64 (n : Int64)
  | pushFloat (bits : UInt64)
  | pushBool (b : Bool)
  | pushStr (s : String)
  | pushNil
  | eq
  | builtinCall (name : String) (nArgs : Nat)
  | jumpIfFalse (addr : Nat)
  | jump (addr : Nat)

/-- What is pushed onto the slot map: a name for a temporary, or for a binding. -/
inductive Entry
  | temp (name : String)
  | bind (name : String)

/-- Emitted code and the slots it adds. -/
abbrev Emitted : Type := List Op × List Entry

def compare (valueSlot : Nat) (push : Op) : Emitted := ([.loadSlot valueSlot, push, .eq], [])

def bindTo (name : String) (valueSlot slotIdx : Nat) : Emitted :=
  ([.loadSlot valueSlot, .storeSlot slotIdx, .pushBool true], [.bind name])

/-- The test of the length, up to the jump to the failure block. -/
def lengthTest (valueSlot expectedLen fail : Nat) : List Op :=
  [.loadSlot valueSlot, .builtinCall "length" 1, .pushI64 (.ofNat expectedLen), .eq,
    .jumpIfFalse fail]

def loadElem (valueSlot slot i : Nat) : List Op :=
  [.loadSlot valueSlot, .pushI64 (.ofNat i), .builtinCall "nth" 2, .storeSlot (slot + i)]

def loadElems (valueSlot slot n : Nat) : List Op :=
  (List.range n).flatMap (loadElem valueSlot slot)

/-- The checks, each but the last with a jump to the failure block. -/
def chain (fail : Nat) : List (List Op) → List Op
  | [] => []
  | [check] => check
  | check :: checks => check ++ .jumpIfFalse fail :: chain fail checks

def chainLength (checks : List (List Op)) : Nat := (chain 0 checks).length

/-- A list of patterns against a list's elements: the test of its length, its elements into slots,
the checks, and a block that pushes false. -/
def assemble (temp : String) (valueSlot pc slots : Nat) (n : Nat)
    (checks : List (List Op) × List Entry) : Emitted :=
  let fail := pc + 5 + 4 * n + chainLength checks.1 + 1
  (lengthTest valueSlot n fail ++ loadElems valueSlot slots n ++ chain fail checks.1 ++
      [.jump (fail + 1), .pushBool false],
    (List.range n).map (fun i => .temp (temp ++ toString i)) ++ checks.2)

/-- A non-empty list's head and tail into slots, and the checks of both. -/
def assembleCons (valueSlot pc slots : Nat) (head tail : Emitted) : Emitted :=
  let fail := pc + 13 + head.1.length + 1 + tail.1.length + 1
  (([.loadSlot valueSlot, .builtinCall "length" 1, .pushI64 0, .eq, .jumpIfFalse (pc + 7),
      .pushBool false, .jump (fail + 1),
      .loadSlot valueSlot, .builtinCall "car" 1, .storeSlot slots,
      .loadSlot valueSlot, .builtinCall "cdr" 1, .storeSlot (slots + 1)] : List Op) ++
      head.1 ++ .jumpIfFalse fail :: tail.1 ++ [.jump (fail + 1), .pushBool false],
    [.temp "__cons_head", .temp "__cons_tail"] ++ head.2 ++ tail.2)

mutual

/-- The code that checks `pattern` against the value in `valueSlot`, from `pc` on and with the next
slot `slots`. -/
def compilePatternCheck (valueSlot pc slots : Nat) : LispVal → Option Emitted
  | .sym name =>
    if startsWithMark name then some (bindTo (strip name) valueSlot slots)
    else if name = "_" then some ([.pushBool true], [])
    else if name = "true" then some (compare valueSlot (.pushBool true))
    else if name = "false" then some (compare valueSlot (.pushBool false))
    else if name = "nil" then some (compare valueSlot .pushNil)
    else if name = "else" then none
    else some (bindTo name valueSlot slots)
  | .num n => some (compare valueSlot (.pushI64 n))
  | .float f => some (compare valueSlot (.pushFloat f))
  | .bool b => some (compare valueSlot (.pushBool b))
  | .str s => some (compare valueSlot (.pushStr s))
  | .nil => some (compare valueSlot .pushNil)
  | .list (pat :: pats) =>
    if isSym "cons" pat ∧ pats.length = 2 then
      match pats with
      | [headPat, tailPat] => do
        let head ← compilePatternCheck slots (pc + 13) (slots + 2) headPat
        let tail ← compilePatternCheck (slots + 1) (pc + 13 + head.1.length + 1)
          (slots + 2 + head.2.length) tailPat
        some (assembleCons valueSlot pc slots head tail)
      | _ => none
    else if isSym "list" pat then
      assemble "__list_elem_" valueSlot pc slots pats.length <$>
        compileChecks slots (pc + 5 + 4 * pats.length) (slots + pats.length) pats
    else
      assemble "__destr_elem_" valueSlot pc slots (pats.length + 1) <$>
        compileChecks slots (pc + 5 + 4 * (pats.length + 1)) (slots + (pats.length + 1))
          (pat :: pats)
  | _ => none

/-- The check of each pattern against the value in its slot. -/
def compileChecks (elemSlot pc slots : Nat) :
    List LispVal → Option (List (List Op) × List Entry)
  | [] => some ([], [])
  | p :: ps => do
    let check ← compilePatternCheck elemSlot pc slots p
    let checks ← compileChecks (elemSlot + 1) (pc + check.1.length + 1)
      (slots + check.2.length) ps
    some (check.1 :: checks.1, check.2 ++ checks.2)

end

/-! ### The machine -/

structure Frame where
  pc : Nat
  /-- The operands, the last pushed first. -/
  stack : List LispVal
  slots : List LispVal

def safeSlot (slots : List LispVal) (i : Nat) : LispVal := slots[i]?.getD LispVal.nil

def storeSlot (slots : List LispVal) (i : Nat) (v : LispVal) : List LispVal :=
  (slots ++ List.replicate (i + 1 - slots.length) LispVal.nil).set i v

def pop : List LispVal → LispVal × List LispVal
  | [] => (.nil, [])
  | v :: stack => (v, stack)

/-- `lisp_eq`; `valueEq` compares lists and the fields of sum types. -/
def lispEq (valueEq : LispVal → LispVal → Bool) : LispVal → LispVal → Bool
  | .num x, .num y => x = y
  | .float x, .float y => Float.ofBits x == .ofBits y
  | .num x, .float y => x.toFloat == .ofBits y
  | .float x, .num y => Float.ofBits x == y.toFloat
  | .bool x, .bool y => x = y
  | .str x, .str y => x = y
  | .nil, .nil => true
  | .list a, .list b => valueEq (.list a) (.list b)
  | .tagged ta va fa, .tagged tb vb fb => valueEq (.tagged ta va fa) (.tagged tb vb fb)
  | _, _ => false

def length : LispVal → Int64
  | .list l => .ofNat l.length
  | .str s => .ofNat s.utf8ByteSize
  | _ => 0

def car : LispVal → LispVal
  | .list (v :: _) => v
  | _ => .nil

def cdr : LispVal → LispVal
  | .list (_ :: v :: vs) => .list (v :: vs)
  | _ => .nil

def nth (v i : LispVal) : LispVal :=
  match v, i with
  | .list l, .num i => l[i.toUInt64.toNat]?.getD LispVal.nil
  | _, _ => .nil

/-- The builtins that a check calls. -/
def evalBuiltin (name : String) (args : List LispVal) : Option LispVal :=
  match name, args with
  | "length", [v] => some (.num (length v))
  | "car", [v] => some (car v)
  | "cdr", [v] => some (cdr v)
  | "nth", [v, i] => some (nth v i)
  | _, _ => none

def popArgs : Nat → List LispVal → List LispVal × List LispVal
  | 0, stack => ([], stack)
  | n + 1, stack =>
    let (v, stack) := pop stack
    let (args, stack) := popArgs n stack
    (args ++ [v], stack)

def push (v : LispVal) (f : Frame) : Frame := { f with pc := f.pc + 1, stack := v :: f.stack }

section Machine

variable (valueEq : LispVal → LispVal → Bool)

def exec : Op → Frame → Option Frame
  | .loadSlot s, f => some (push (safeSlot f.slots s) f)
  | .storeSlot s, f =>
    let (v, stack) := pop f.stack
    some { pc := f.pc + 1, stack, slots := storeSlot f.slots s v }
  | .pushI64 n, f => some (push (.num n) f)
  | .pushFloat x, f => some (push (.float x) f)
  | .pushBool b, f => some (push (.bool b) f)
  | .pushStr s, f => some (push (.str s) f)
  | .pushNil, f => some (push .nil f)
  | .eq, f =>
    let (b, stack) := pop f.stack
    let (a, stack) := pop stack
    some (push (.bool (lispEq valueEq a b)) { f with stack })
  | .builtinCall name nArgs, f => do
    let (args, stack) := popArgs nArgs f.stack
    let result ← evalBuiltin name args
    some (push result { f with stack })
  | .jumpIfFalse addr, f =>
    let (v, stack) := pop f.stack
    some { f with pc := if v.isTruthy then f.pc + 1 else addr, stack }
  | .jump addr, f => some { f with pc := addr }

def Steps (code : List Op) (f g : Frame) : Prop :=
  ∃ op, code[f.pc]? = some op ∧ exec valueEq op f = some g

abbrev Reaches (code : List Op) : Frame → Frame → Prop := Relation.ReflTransGen (Steps valueEq code)

/-- The slots of the bindings among the entries from `slot` on. -/
def bindSlots (slot : Nat) : List Entry → List (String × Nat)
  | [] => []
  | .temp _ :: entries => bindSlots (slot + 1) entries
  | .bind name :: entries => (name, slot) :: bindSlots (slot + 1) entries

/-- What the bindings' slots hold. -/
def bound (slot : Nat) (entries : List Entry) (slots : List LispVal) : List (String × LispVal) :=
  (bindSlots slot entries).map fun b => (b.1, safeSlot slots b.2)

/-- The code has `ops` from `pc` on. -/
def At (code : List Op) (pc : Nat) (ops : List Op) : Prop :=
  ∀ i op, ops[i]? = some op → code[pc + i]? = some op

/-- A check leaves on the stack whether the pattern matches, keeps the slots before its own, and
binds what the pattern binds. -/
def Refines (pattern value : LispVal) : Prop :=
  ∀ valueSlot pc slots emitted, compilePatternCheck valueSlot pc slots pattern = some emitted →
    valueSlot < slots → ∀ code, At code pc emitted.1 →
    ∀ stack before, safeSlot before valueSlot = value →
    ∃ after,
      Reaches valueEq code ⟨pc, stack, before⟩
        ⟨pc + emitted.1.length, .bool (matchPattern pattern value).isSome :: stack, after⟩ ∧
      (∀ i < slots, safeSlot after i = safeSlot before i) ∧
      ∀ bindings, matchPattern pattern value = some bindings →
        bound slots emitted.2 after = bindings

end Machine

/-! ### What a check sees -/

/-- The elements that a check of `n` patterns sees: those of a list of that length, and `nil` for
each byte of a string. -/
def seen (v : LispVal) (n : Nat) : Option (List LispVal) :=
  if length v = .ofNat n then some ((List.range n).map fun i => nth v (.num (.ofNat i)))
  else none

/-- The head and the tail that a check sees: `nil` for the tail of a list of one element. -/
def seenCons (v : LispVal) : Option (LispVal × LispVal) :=
  if length v = 0 then none else some (car v, cdr v)

mutual

/-- The check of a pattern sees what `match_pattern` sees, down to the first element that does not
match. -/
def Clean : LispVal → LispVal → Prop
  | .sym s, _ => s ≠ "true" ∧ s ≠ "false" ∧ s ≠ "nil"
  | .num n, value => ∀ x, value = .float x → (Float.ofBits x == n.toFloat) = false
  | .float f, value =>
    match value with
    | .float x =>
      (Float.ofBits x == .ofBits f) = decide ((Float.ofBits f - .ofBits x).abs < epsilon)
    | .num n => (n.toFloat == .ofBits f) = false
    | _ => True
  | .nil, value => value ≠ .nil
  | .list (pat :: pats), value =>
    if isSym "cons" pat ∧ pats.length = 2 then
      match pats, seenCons value with
      | [headPat, tailPat], some (head, tail) =>
        Clean headPat head ∧ (matchPattern headPat head ≠ none → Clean tailPat tail) ∧
          matchAll [headPat, tailPat] [head, tail] = matchPattern (.list (pat :: pats)) value
      | _, _ => matchPattern (.list (pat :: pats)) value = none
    else if isSym "list" pat then
      match seen value pats.length with
      | some elems => pats ≠ [] ∧ CleanAll pats elems ∧
          matchAll pats elems = matchPattern (.list (pat :: pats)) value
      | none => matchPattern (.list (pat :: pats)) value = none
    else
      match seen value (pats.length + 1) with
      | some elems => CleanAll (pat :: pats) elems ∧
          matchAll (pat :: pats) elems = matchPattern (.list (pat :: pats)) value
      | none => matchPattern (.list (pat :: pats)) value = none
  | _, _ => True

def CleanAll : List LispVal → List LispVal → Prop
  | p :: ps, v :: vs => Clean p v ∧ (matchPattern p v ≠ none → CleanAll ps vs)
  | _, _ => True

end

theorem compile_cons {pat : LispVal} (isCons : isSym "cons" pat = true)
    (valueSlot pc slots : Nat) (headPat tailPat : LispVal) :
    compilePatternCheck valueSlot pc slots (.list [pat, headPat, tailPat]) =
      (compilePatternCheck slots (pc + 13) (slots + 2) headPat).bind fun head =>
        (compilePatternCheck (slots + 1) (pc + 13 + head.1.length + 1)
          (slots + 2 + head.2.length) tailPat).bind fun tail =>
        some (assembleCons valueSlot pc slots head tail) := by
  simp only [compilePatternCheck, isCons, List.length_cons, List.length_nil, and_self, if_true]
  rfl

theorem compile_elems {pat : LispVal} {pats : List LispVal}
    (notCons : ¬(isSym "cons" pat = true ∧ pats.length = 2)) (valueSlot pc slots : Nat) :
    compilePatternCheck valueSlot pc slots (.list (pat :: pats)) =
      if isSym "list" pat then
        assemble "__list_elem_" valueSlot pc slots pats.length <$>
          compileChecks slots (pc + 5 + 4 * pats.length) (slots + pats.length) pats
      else
        assemble "__destr_elem_" valueSlot pc slots (pats.length + 1) <$>
          compileChecks slots (pc + 5 + 4 * (pats.length + 1)) (slots + (pats.length + 1))
            (pat :: pats) := by
  unfold compilePatternCheck
  exact if_neg notCons

theorem clean_cons {pat headPat tailPat value : LispVal} (isCons : isSym "cons" pat = true) :
    Clean (.list [pat, headPat, tailPat]) value ↔
      match seenCons value with
      | some (head, tail) =>
        Clean headPat head ∧ (matchPattern headPat head ≠ none → Clean tailPat tail) ∧
          matchAll [headPat, tailPat] [head, tail] =
            matchPattern (.list [pat, headPat, tailPat]) value
      | none => matchPattern (.list [pat, headPat, tailPat]) value = none := by
  conv_lhs => unfold Clean
  rw [if_pos ⟨isCons, rfl⟩]
  rcases seenCons value with _ | ⟨head, tail⟩ <;> rfl

theorem clean_elems {pat value : LispVal} {pats : List LispVal}
    (notCons : ¬(isSym "cons" pat = true ∧ pats.length = 2)) :
    Clean (.list (pat :: pats)) value ↔
      if isSym "list" pat then
        match seen value pats.length with
        | some elems => pats ≠ [] ∧ CleanAll pats elems ∧
            matchAll pats elems = matchPattern (.list (pat :: pats)) value
        | none => matchPattern (.list (pat :: pats)) value = none
      else
        match seen value (pats.length + 1) with
        | some elems => CleanAll (pat :: pats) elems ∧
            matchAll (pat :: pats) elems = matchPattern (.list (pat :: pats)) value
        | none => matchPattern (.list (pat :: pats)) value = none := by
  conv_lhs => unfold Clean
  exact iff_of_eq (if_neg notCons)

end Patterns

end LispRlm.Bytecode
