import LispRlm.Bytecode.Values
import LispRlm.Foundation.MemoTable

/-! Calls of a memoized function. -/

namespace LispRlm.Bytecode

open Foundation

/-- The cached results, under the printed hashes of their arguments. -/
abbrev Cache := MemoTable.Table String LispVal

/-- `crate::types::hash_args(args).to_string()` -/
def cacheKey (args : List LispVal) : String := (hashArgs args).toNat.repr

/-- `vm_call_lambda` on a `Memoized` value, whose function is `func`. -/
def vmCallMemoized (func : List LispVal → Except String LispVal) (cache : Cache)
    (args : List LispVal) : Except String LispVal × Cache :=
  let key := cacheKey args
  match cache key with
  | some result => (.ok result, cache)
  | none =>
      match func args with
      | .ok result => (.ok result, cache.insert key result)
      | .error message => (.error message, cache)

/-- The calls of one memoized function, one after the other, from the empty cache of `memoize`. -/
def memoizedCalls (func : List LispVal → Except String LispVal) :
    Cache → List (List LispVal) → List (Except String LispVal)
  | _, [] => []
  | cache, args :: rest =>
      let (result, cache') := vmCallMemoized func cache args
      result :: memoizedCalls func cache' rest

def memoize (func : List LispVal → Except String LispVal) (history : List (List LispVal)) :
    List (Except String LispVal) :=
  memoizedCalls func (fun _ => none) history

theorem vmCallMemoized_eq (func : List LispVal → Except String LispVal) (cache : Cache)
    (args : List LispVal) :
    vmCallMemoized func cache args = MemoTable.call cacheKey func cache args := by
  simp only [vmCallMemoized, MemoTable.call]
  cases cache (cacheKey args) with
  | some result => rfl
  | none => cases func args <;> rfl

theorem memoizedCalls_eq (func : List LispVal → Except String LispVal) (cache : Cache)
    (history : List (List LispVal)) :
    memoizedCalls func cache history = MemoTable.calls cacheKey func cache history := by
  induction history generalizing cache with
  | nil => rfl
  | cons args rest ih =>
      rw [MemoTable.calls, ← vmCallMemoized_eq, ← ih]
      rfl

theorem repr_inj {m n : Nat} : m.repr = n.repr ↔ m = n := by
  constructor
  · intro same
    have digits : Nat.toDigits 10 m = Nat.toDigits 10 n := by
      rw [← Nat.toList_repr, ← Nat.toList_repr, same]
    calc
      m = Nat.ofDigitChars 10 (Nat.toDigits 10 m) 0 := Nat.ofDigitChars_ten_toDigits.symm
      _ = Nat.ofDigitChars 10 (Nat.toDigits 10 n) 0 := by rw [digits]
      _ = n := Nat.ofDigitChars_ten_toDigits
  · intro same
    rw [same]

/-- Two lists of arguments share an entry of the cache if and only if their hashes are equal. -/
theorem cacheKey_eq_iff (a b : List LispVal) :
    cacheKey a = cacheKey b ↔ hashArgs a = hashArgs b := by
  unfold cacheKey
  rw [repr_inj, UInt64.toNat_inj]

theorem hashArgs_congr {before after : List LispVal} {v v' : LispVal}
    (same : hashLispVal v = hashLispVal v') :
    hashArgs (before ++ v :: after) = hashArgs (before ++ v' :: after) := by
  unfold hashArgs
  rw [List.foldl_append, List.foldl_append, List.foldl_cons, List.foldl_cons, same]

/-- The arguments of a call, and those of a later one that the function tells apart from them, have
different hashes. -/
def Separated (func : List LispVal → Except String LispVal) (earlier later : List LispVal) : Prop :=
  hashArgs earlier = hashArgs later → ∀ result, func earlier = .ok result → func later = .ok result

/-- A memoized function answers every call of a history as the function itself does if and only if
the hash separates the arguments on which the function differs. -/
theorem memoize_eq_iff (func : List LispVal → Except String LispVal)
    (history : List (List LispVal)) :
    memoize func history = history.map func ↔ history.Pairwise (Separated func) := by
  have empty : MemoTable.RightFor cacheKey func (fun _ => none) history :=
    fun _ _ _ never => nomatch never
  have shares : MemoTable.Shares cacheKey func = Separated func := by
    funext earlier later
    unfold MemoTable.Shares Separated
    rw [cacheKey_eq_iff]
  rw [memoize, memoizedCalls_eq, MemoTable.calls_eq_iff, shares]
  exact and_iff_right empty

/-- A closure is hashed by the names of its parameters. -/
theorem hashLispVal_lambda (params : List String) (rest rest' : Option String)
    (body body' : LispVal) (env env' : List (String × LispVal)) :
    hashLispVal (.lambda params rest body env) = hashLispVal (.lambda params rest' body' env') := by
  simp only [hashLispVal, display]

/-- What a thunk of `x` has captured under this name. -/
def capturedX : List LispVal → Except String LispVal
  | [.lambda [] none _ [(_, v)]] => .ok v
  | _ => .error "not a thunk of x"

def thunkOf (n : Int64) : LispVal := .lambda [] none (.sym "x") [("x", .num n)]

end LispRlm.Bytecode
