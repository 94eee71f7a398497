import LispRlm.Bytecode.Values
import LispRlm.Foundation.CallSums

/-! The static counts over the calls of a function, and the gas that is filled in from them. -/

namespace LispRlm.Typing

open LispRlm.Bytecode LispRlm.Foundation

namespace ClosureSums

/-! ### The functions of a program -/

def collectTopDefns (exprs : List LispVal) : FMap String Nat :=
  exprs.foldl (fun defns e => match e with
    | .list (.sym "define" :: .list (.sym name :: params) :: _) => defns.insert name params.length
    | _ => defns) ∅

def collectBodies (exprs : List LispVal) : FMap String (List LispVal) :=
  exprs.foldl (fun bodies e => match e with
    | .list (.sym "define" :: .list (.sym name :: _) :: b :: bs) => bodies.insert name (b :: bs)
    | _ => bodies) ∅

def startsWith (s pre : String) : Bool := pre.toList.isPrefixOf s.toList

mutual

def countHosts : LispVal → Nat
  | .list (.sym h :: items) =>
      (if startsWith h "near/" || startsWith h "u128/" then 1 else 0) + countHostsAll items
  | .list items => countHostsAll items
  | _ => 0

def countHostsAll : List LispVal → Nat
  | [] => 0
  | it :: items => countHosts it + countHostsAll items

end

mutual

def collectCallees (defns : FMap String Nat) : LispVal → List String
  | .list (.sym h :: items) => (if h ∈ defns then [h] else []) ++ collectCalleesAll defns items
  | .list items => collectCalleesAll defns items
  | _ => []

def collectCalleesAll (defns : FMap String Nat) : List LispVal → List String
  | [] => []
  | it :: items => collectCallees defns it ++ collectCalleesAll defns items

end

def resourceOpInfo : String → Option Nat × Option Nat × Option Nat
  | "near/promise_then" => (some 6, some 5, some 4)
  | "near/promise_create" => (some 5, some 4, some 3)
  | "near/promise_batch_create" => (some 1, none, none)
  | "near/promise_batch_then" => (some 2, none, none)
  | "near/promise_batch_action_function_call" => (some 5, some 4, some 3)
  | "near/promise_batch_action_function_call_weight" => (none, some 4, some 3)
  | "near/promise_batch_action_transfer" => (some 2, none, some 1)
  | "near/transfer" => (some 2, none, some 1)
  | "near/transfer_u128" => (some 2, none, some 1)
  | "near/call" => (some 5, some 3, some 4)
  | _ => (none, none, none)

section Gas

variable (consts : FMap String Int64) (bound : Finset String)

/-- The gas in the gas slot of the operation `h`. -/
def gasLiteral (h : String) (items : List LispVal) : Nat :=
  match (resourceOpInfo h).2.1 with
  | none => 0
  | some g => match items[g + 1]? with
    | some (.num n) => n.toInt.toNat
    | some (.sym name) =>
      if name ∈ bound then 0 else ((consts.lookup name).map (·.toInt.toNat)).getD 0
    | _ => 0

mutual

def countGasLiterals : LispVal → Nat
  | .list (.sym h :: items) =>
      gasLiteral consts bound h (.sym h :: items) + countGasLiteralsAll items
  | .list items => countGasLiteralsAll items
  | _ => 0

def countGasLiteralsAll : List LispVal → Nat
  | [] => 0
  | it :: items => countGasLiterals it + countGasLiteralsAll items

end

end Gas

/-! ### The two closures -/

section Closures

variable (bodies : FMap String (List LispVal)) (defns : FMap String Nat)

/-- The sum of what the bodies of `defn` count. -/
def ownCount (count : LispVal → Nat) (defn : String) : Nat :=
  match bodies.lookup defn with
  | some bs => (bs.map count).sum
  | none => 0

def calleesOf (defn : String) : Finset String :=
  match bodies.lookup defn with
  | some bs => (bs.flatMap (collectCallees defns)).toFinset
  | none => ∅

theorem not_mem_keys_iff {defn : String} :
    defn ∉ bodies.keys.toFinset ↔ bodies.lookup defn = none := by
  rw [List.mem_toFinset, ← AList.mem_keys, AList.lookup_eq_none]

/-- The functions of a program with what `count` finds in their own bodies. -/
def callGraph (count : LispVal → Nat) : CallGraph String where
  own := ownCount bodies count
  callees := calleesOf bodies defns
  nodes := bodies.keys.toFinset
  own_outside defn outside := by rw [ownCount, (not_mem_keys_iff bodies).mp outside]
  callees_outside defn outside := by rw [calleesOf, (not_mem_keys_iff bodies).mp outside]

/-- `hosts_closure_of`, where `order` is how the set of a function's callees is gone through. -/
def hostsClosureOf (order : String → List String) (fuel : Nat) (defn : String)
    (memo : FMap String Nat) (stack : List String) : Option (Nat × FMap String Nat) :=
  CallGraph.visit (ownCount bodies countHosts) order fuel defn memo stack

def gasFloorOf (consts : FMap String Int64) (bound : Finset String)
    (order : String → List String) (fuel : Nat) (defn : String) (memo : FMap String Nat)
    (stack : List String) : Option (Nat × FMap String Nat) :=
  CallGraph.visit (ownCount bodies (countGasLiterals consts bound)) order fuel defn memo stack

end Closures

/-! ### The gas that is filled in -/

def fillBase : Nat := 1000000000000

def fillPerHost : Nat := 10000000000

def fillHeadroom : Nat := 2

def fillCap : Nat := 1000000000000000

def fillOf (hosts : Nat) : Nat := min ((fillBase + fillPerHost * hosts) * fillHeadroom) fillCap

section Fill

-- The closure of a function as it comes out at a place of the program, and the functions.
variable (hosts : List Nat → String → Nat) (defns : FMap String Nat)

def isBinder : List LispVal → Bool
  | .sym s :: _ => ["define", "let", "let*", "lambda", "while", "loop"].contains s
  | _ => false

def wantsDefault : Option LispVal → Bool
  | some (.list [.sym "gas", .sym "default"]) => true
  | _ => false

def isLocal : Option LispVal → Bool
  | some (.list [.sym "near/current_account_id"]) => true
  | _ => false

/-- What `(gas default)` is replaced with, if the list is an operation that has it. -/
def fillSite (path : List Nat) (items : List LispVal) : Option (Except String Int64) :=
  match items with
  | .sym "near/promise_then" :: _ =>
    if items.length = 7 ∧ wantsDefault items[6]? then
      if isLocal items[2]? then
        match (items[3]? : Option LispVal) with
        | some (.str m) =>
          if m ∈ defns then some (.ok (Int64.ofNat (fillOf (hosts path m))))
          else some (.error ("error: (gas default) callback '" ++ m ++
            "' is not defined in this program — there is no floor to fill from; " ++
            "define it or pass an explicit gas value"))
        | _ => some (.error "error: (gas default) callback method must be a string literal")
      else some (.error ("error: (gas default) is only valid for same-program callbacks — a " ++
        "remote callee's floor is unknowable and a silent fill could underfund the receipt; " ++
        "pass an explicit gas value"))
    else none
  | _ => none

mutual

/-- The seventh item of a site is walked before it is replaced: there is nothing in it to fill. The
head of a binder is passed over, and is no list. -/
def walkFill (path : List Nat) : LispVal → LispVal × List String
  | .list items =>
      let (walked, errs) := walkFills path 0 items
      if isBinder items then (.list walked, errs)
      else match fillSite hosts defns path items with
        | none => (.list walked, errs)
        | some (.ok fill) => (.list (walked.set 6 (.num fill)), errs)
        | some (.error e) => (.list walked, e :: errs)
  | v => (v, [])

def walkFills (path : List Nat) (i : Nat) : List LispVal → List LispVal × List String
  | [] => ([], [])
  | it :: items =>
      let (it, errs) := walkFill (path ++ [i]) it
      let (items, errs') := walkFills path (i + 1) items
      (it :: items, errs ++ errs')

end

end Fill

def expandGasDefaults (hosts : List Nat → String → Nat) (exprs : List LispVal) :
    Except String (List LispVal) :=
  let (walked, errs) := walkFills hosts (collectTopDefns exprs) [] 0 exprs
  if errs.isEmpty then .ok walked else .error ("\n".intercalate errs)

/-- Each closure has its own empty memo, and the sets of its search their own order. -/
def closureAt (exprs : List LispVal) (orders : List Nat → String → List String) (fuel : Nat)
    (path : List Nat) (m : String) : Nat :=
  ((hostsClosureOf (collectBodies exprs) (orders path) fuel m ∅ []).map Prod.fst).getD 0

/-! ### Each function once -/

section Program

variable (exprs : List LispVal) (consts : FMap String Int64) (bound : Finset String)

def hostGraph : CallGraph String :=
  callGraph (collectBodies exprs) (collectTopDefns exprs) countHosts

def gasGraph : CallGraph String :=
  callGraph (collectBodies exprs) (collectTopDefns exprs) (countGasLiterals consts bound)

def HostsOnce : Prop :=
  ∀ order, (hostGraph exprs).Orders order → ∀ fuel, (hostGraph exprs).enough ≤ fuel →
    ∀ earlier f, ∃ memo memo',
      CallGraph.visits (hostsClosureOf (collectBodies exprs) order fuel) earlier ∅ = some memo ∧
      hostsClosureOf (collectBodies exprs) order fuel f memo [] =
        some ((hostGraph exprs).reachSum f, memo')

def GasOnce : Prop :=
  ∀ order, (gasGraph exprs consts bound).Orders order →
    ∀ fuel, (gasGraph exprs consts bound).enough ≤ fuel → ∀ earlier f, ∃ memo memo',
      CallGraph.visits (gasFloorOf (collectBodies exprs) consts bound order fuel) earlier ∅ =
        some memo ∧
      gasFloorOf (collectBodies exprs) consts bound order fuel f memo [] =
        some ((gasGraph exprs consts bound).reachSum f, memo')

/-- The program with its gas filled in does not depend on the order of any set. -/
def FillsAlike : Prop :=
  ∀ orders orders', (∀ path, (hostGraph exprs).Orders (orders path)) →
    (∀ path, (hostGraph exprs).Orders (orders' path)) →
    ∀ fuel, (hostGraph exprs).enough ≤ fuel →
      expandGasDefaults (closureAt exprs orders fuel) exprs =
        expandGasDefaults (closureAt exprs orders' fuel) exprs

variable {exprs consts bound}

theorem hostsOnce_iff : HostsOnce exprs ↔ (hostGraph exprs).Single :=
  (hostGraph exprs).countsOnce_iff

theorem gasOnce_iff : GasOnce exprs consts bound ↔ (gasGraph exprs consts bound).Single :=
  (gasGraph exprs consts bound).countsOnce_iff

theorem closureAt_eq (once : HostsOnce exprs) {orders : List Nat → String → List String}
    (valid : ∀ path, (hostGraph exprs).Orders (orders path)) {fuel : Nat}
    (fueled : (hostGraph exprs).enough ≤ fuel) :
    closureAt exprs orders fuel = fun _ m => (hostGraph exprs).reachSum m := by
  funext path m
  rcases once (orders path) (valid path) fuel fueled [] m with ⟨memo, memo', none, run⟩
  cases none
  rw [closureAt, run, Option.map_some, Option.getD_some]

theorem fillsAlike_of_hostsOnce (once : HostsOnce exprs) : FillsAlike exprs := by
  intro orders orders' valid valid' fuel fueled
  rw [closureAt_eq once valid fueled, closureAt_eq once valid' fueled]

end Program

/-- The closures count each function once, and the gas is the same in every order, if and only if no
function with a count of its own is reached in two ways from some function. -/
theorem closures_once_iff (exprs : List LispVal) (consts : FMap String Int64)
    (bound : Finset String) :
    HostsOnce exprs ∧ GasOnce exprs consts bound ∧ FillsAlike exprs ↔
      (hostGraph exprs).Single ∧ (gasGraph exprs consts bound).Single := by
  constructor
  · rintro ⟨hosts, gas, -⟩
    exact ⟨hostsOnce_iff.mp hosts, gasOnce_iff.mp gas⟩
  · rintro ⟨hosts, gas⟩
    have once := hostsOnce_iff.mpr hosts
    exact ⟨once, gasOnce_iff.mpr gas, fillsAlike_of_hostsOnce once⟩

/-! ### Two functions that call each other -/

def call (f : String) : LispVal := .list [.sym f]

def define (name : String) (body : List LispVal) : LispVal :=
  .list (.sym "define" :: .list [.sym name] :: body)

/-- `b` and `c` call each other, and `b` logs. -/
def twoWays : List LispVal :=
  [define "a" [call "b", call "c"], define "b" [.list [.sym "near/log", .str "x"], call "c"],
    define "c" [call "b"]]

def orderOf (first : List String) (f : String) : List String :=
  if f = "a" then first else if f = "b" then ["c"] else if f = "c" then ["b"] else []

/-- One order finds the call that `b` makes, and the other one finds it twice. -/
example :
    ((hostsClosureOf (collectBodies twoWays) (orderOf ["b", "c"]) 5 "a" ∅ []).map Prod.fst,
      (hostsClosureOf (collectBodies twoWays) (orderOf ["c", "b"]) 5 "a" ∅ []).map Prod.fst) =
    (some 1, some 2) := by
  decide +kernel

theorem closure_counts_twice :
    ¬ ∀ (exprs : List LispVal) (consts : FMap String Int64) (bound : Finset String),
      HostsOnce exprs ∧ GasOnce exprs consts bound ∧ FillsAlike exprs := by
  intro always
  have single := hostsOnce_iff.mp (always twoWays ∅ ∅).1
  have counts : (hostGraph twoWays).own "b" ≠ 0 := by decide
  have there : "c" ∈ (hostGraph twoWays).callees "b" := by decide
  have back : "b" ∈ (hostGraph twoWays).callees "c" := by decide
  have other : "c" ≠ "b" := by decide
  exact counts (CallGraph.own_eq_zero_of_mutual _ single other (.single there) (.single back) .refl)

end ClosureSums
end LispRlm.Typing
