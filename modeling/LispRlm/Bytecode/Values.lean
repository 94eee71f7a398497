import Mathlib.Data.List.Basic
import Mathlib.Algebra.Group.Int.Defs
import Mathlib.Algebra.Group.Nat.Defs

/-! The values of the interpreter, their printed form and their hash. -/

namespace LispRlm.Bytecode

/-- A lambda keeps the variables that it captured, a memoized function the number of its cached
results, and a promise the value it was forced to. A float is given by its bits, and a map lists its
entries as it iterates over them. -/
inductive LispVal
  | nil
  | bool (b : Bool)
  | num (n : Int64)
  | u64 (n : UInt64)
  | float (bits : UInt64)
  | str (s : String)
  | sym (s : String)
  | list (vals : List LispVal)
  | vec (vals : List LispVal)
  | lambda (params : List String) (restParam : Option String) (body : LispVal)
      (closedEnv : List (String × LispVal))
  | caseLambda (clauses : List (Nat × Bool × LispVal))
  | macro_ (params : List String) (restParam : Option String) (body : LispVal)
      (closedEnv : List (String × LispVal))
  | recur (vals : List LispVal)
  | map (entries : List (String × LispVal))
  | memoized (func : LispVal) (cacheLen : Nat)
  | builtinFn (name : String)
  | tagged (typeName : String) (variantId : UInt16) (fields : List LispVal)
  | delay (thunk : LispVal) (cache : Option LispVal)

/-- Induction on a value, with the claim for the elements of lists and the values of maps. -/
theorem LispVal.nested_induct {motive : LispVal → Prop}
    (list : ∀ l, (∀ v ∈ l, motive v) → motive (.list l))
    (map : ∀ d, (∀ k v, (k, v) ∈ d → motive v) → motive (.map d))
    (other : ∀ v, (∀ l, v ≠ .list l) → (∀ d, v ≠ .map d) → motive v) (v : LispVal) : motive v :=
  match v with
  | .list l => list l fun v mem =>
      have := List.sizeOf_lt_of_mem mem
      nested_induct list map other v
  | .map d => map d fun k v mem =>
      have := List.sizeOf_lt_of_mem mem
      nested_induct list map other v
  | .nil => other _ (fun _ same => by cases same) (fun _ same => by cases same)
  | .bool _ => other _ (fun _ same => by cases same) (fun _ same => by cases same)
  | .num _ => other _ (fun _ same => by cases same) (fun _ same => by cases same)
  | .u64 _ => other _ (fun _ same => by cases same) (fun _ same => by cases same)
  | .float _ => other _ (fun _ same => by cases same) (fun _ same => by cases same)
  | .str _ => other _ (fun _ same => by cases same) (fun _ same => by cases same)
  | .sym _ => other _ (fun _ same => by cases same) (fun _ same => by cases same)
  | .vec _ => other _ (fun _ same => by cases same) (fun _ same => by cases same)
  | .lambda .. => other _ (fun _ same => by cases same) (fun _ same => by cases same)
  | .caseLambda _ => other _ (fun _ same => by cases same) (fun _ same => by cases same)
  | .macro_ .. => other _ (fun _ same => by cases same) (fun _ same => by cases same)
  | .recur _ => other _ (fun _ same => by cases same) (fun _ same => by cases same)
  | .memoized .. => other _ (fun _ same => by cases same) (fun _ same => by cases same)
  | .builtinFn _ => other _ (fun _ same => by cases same) (fun _ same => by cases same)
  | .tagged .. => other _ (fun _ same => by cases same) (fun _ same => by cases same)
  | .delay .. => other _ (fun _ same => by cases same) (fun _ same => by cases same)
termination_by sizeOf v
decreasing_by
  · simp only [LispVal.list.sizeOf_spec]
    omega
  · simp only [LispVal.map.sizeOf_spec]
    simp only [Prod.mk.sizeOf_spec] at this
    omega

/-- `is_truthy`; a negative zero is zero. -/
def LispVal.isTruthy : LispVal → Bool
  | .nil => false
  | .bool b => b
  | .num n => n ≠ 0
  | .float bits => bits ≠ 0 ∧ bits ≠ 0x8000000000000000
  | _ => true

/-! ### Printing -/

def trimEndMatches (c : Char) (s : String) : String :=
  String.ofList ((s.toList.reverse.dropWhile (· == c)).reverse)

/-- The quotient, rounded to the nearest integer, and to the even one of two that are as near. -/
def roundedDiv (a b : Nat) : Nat :=
  let q := a / b
  let r := a % b
  if 2 * r < b ∨ 2 * r = b ∧ q % 2 = 0 then q else q + 1

/-- Ten digits after the point. -/
def fixed10 (n : Nat) : String :=
  let frac := toString (n % 10 ^ 10)
  toString (n / 10 ^ 10) ++ "." ++ String.ofList (List.replicate (10 - frac.length) '0') ++ frac

/-- `format!("{:.10}", f)` -/
def formatFloat (bits : UInt64) : String :=
  let sign := if bits.toNat / 2 ^ 63 = 1 then "-" else ""
  let exponent := bits.toNat / 2 ^ 52 % 2 ^ 11
  let fraction := bits.toNat % 2 ^ 52
  if exponent = 2047 then
    if fraction = 0 then sign ++ "inf" else "NaN"
  else
    let mantissa := if exponent = 0 then fraction else fraction + 2 ^ 52
    sign ++ fixed10 (roundedDiv (mantissa * 2 ^ (max exponent 1) * 10 ^ 10) (2 ^ 1075))

mutual

/-- `Display` -/
def display : LispVal → String
  | .nil => "nil"
  | .bool b => if b then "true" else "false"
  | .num n => toString n.toInt
  | .u64 n => toString n.toNat ++ "u64"
  | .float bits => trimEndMatches '.' (trimEndMatches '0' (formatFloat bits))
  | .str s => "\"" ++ s ++ "\""
  | .sym s => s
  | .list vals => "(" ++ " ".intercalate (displayAll vals) ++ ")"
  | .vec vals => "[" ++ " ".intercalate (displayAll vals) ++ "]"
  | .lambda params _ _ _ => "#<lambda (" ++ " ".intercalate params ++ ")>"
  | .caseLambda clauses => "#<case-lambda " ++ toString clauses.length ++ " clauses>"
  | .macro_ params _ _ _ => "#<macro (" ++ " ".intercalate params ++ ")>"
  | .recur vals => "#<recur (" ++ " ".intercalate (displayAll vals) ++ ")>"
  | .map entries => "\x7b" ++ ", ".intercalate (displayEntries entries) ++ "\x7d"
  | .memoized _ cacheLen => "#<memoized " ++ toString cacheLen ++ " entries>"
  | .builtinFn name => "#<builtin " ++ name ++ ">"
  | .tagged typeName variantId fields =>
      let variant := typeName ++ "::" ++ toString variantId.toNat
      if fields.isEmpty then "#<" ++ variant ++ ">"
      else "(" ++ variant ++ " " ++ " ".intercalate (displayAll fields) ++ ")"
  | .delay _ _ => "#<promise>"

def displayAll : List LispVal → List String
  | [] => []
  | v :: rest => display v :: displayAll rest

def displayEntries : List (String × LispVal) → List String
  | [] => []
  | (k, v) :: rest => ("\"" ++ k ++ "\": " ++ display v) :: displayEntries rest

end

/-! ### Hashing -/

def fnvOffset : UInt64 := 0xcbf29ce484222325

def fnvPrime : UInt64 := 0x00000100000001B3

/-- `h ^= w; h = h.wrapping_mul(FNV_PRIME)` -/
def mix (h w : UInt64) : UInt64 := (h ^^^ w) * fnvPrime

def mixBytes (h : UInt64) (s : String) : UInt64 :=
  s.toUTF8.data.toList.foldl (fun h b => mix h b.toUInt64) h

def hashStr (s : String) : UInt64 := mixBytes (mix fnvOffset 0x05) s

/-- The hash of the entries in the order of their keys, the hashes of the values at hand. -/
def hashSorted (h : UInt64) (entries : List (String × UInt64)) : UInt64 :=
  (entries.mergeSort fun a b => decide (a.1 ≤ b.1)).foldl
    (fun h (k, v) => mix (mix h (hashStr k)) v) h

mutual

/-- `hash_lisp_val` -/
def hashLispVal : LispVal → UInt64
  | .num n => mix (mix fnvOffset 0x01) n.toUInt64
  | .float bits => mix (mix fnvOffset 0x02) bits
  | .bool b => mix (mix fnvOffset 0x03) (if b then 1 else 0)
  | .nil => mix fnvOffset 0x04
  | .str s => hashStr s
  | .sym s => mixBytes (mix fnvOffset 0x06) s
  | .list vals => (hashAll vals).foldl mix (mix fnvOffset 0x07)
  | .vec vals => (hashAll vals).foldl mix (mix fnvOffset 0x08)
  | .map entries => hashSorted (mix fnvOffset 0x09) (hashEntries entries)
  | v => mixBytes (mix fnvOffset 0xFF) (display v)

def hashAll : List LispVal → List UInt64
  | [] => []
  | v :: rest => hashLispVal v :: hashAll rest

def hashEntries : List (String × LispVal) → List (String × UInt64)
  | [] => []
  | (k, v) :: rest => (k, hashLispVal v) :: hashEntries rest

end

/-- `hash_args` -/
def hashArgs (args : List LispVal) : UInt64 :=
  args.foldl (fun h arg => mix h (hashLispVal arg)) fnvOffset

example : display (.tagged "Option" 1 [.float 0x3FF8000000000000, .num (-2)]) =
    "(Option::1 1.5 -2)" := by
  decide +kernel

end LispRlm.Bytecode
