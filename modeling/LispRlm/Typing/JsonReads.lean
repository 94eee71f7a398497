import LispRlm.Bytecode.Values

/-! The gate that refuses JSON reads of the input without a fallback, and what the programs that it
accepts do with the results of their reads. -/

namespace LispRlm.Typing.JsonReads

open LispRlm.Bytecode

/-! ### The gate -/

def BARE_OPS : List String :=
  ["near/json_get_str_opt", "near/json_get_str", "near/json_get_int", "near/json_get_u128",
    "near/json_get_arr", "json/get", "json-get-str", "json-get-float", "json-get-in"]

def bareRead (head key : String) : String :=
  "bare JSON param read `(" ++ head ++ " " ++ key ++
    ")` — missing keys return nil, not an error; a nil read flows into arithmetic as zero. " ++
    "Declare a fallback: (" ++ head ++ " " ++ key ++ " ?? fallback), or panic explicitly on miss"

mutual

def walk (inDefault : Bool) : LispVal → List String
  | .list (.sym head :: rest) =>
      if head = "default" then walkDefault inDefault rest
      else if head ∈ BARE_OPS ∧ inDefault = false ∧ rest.length < 2 then
        [bareRead head ((rest.head?.map display).getD "?")]
      else walkAll inDefault rest
  | .list items => walkAll inDefault items
  | _ => []

/-- The value of a `default` form is walked as one that has a fallback. -/
def walkDefault (inDefault : Bool) : List LispVal → List String
  | [] => []
  | value :: rest => walk true value ++ walkAll inDefault rest

def walkAll (inDefault : Bool) : List LispVal → List String
  | [] => []
  | sub :: rest => walk inDefault sub ++ walkAll inDefault rest

end

def checkBareJsonGetResult (exprs : List LispVal) : Except String Unit :=
  let errs := walkAll false exprs
  if errs.isEmpty then .ok ()
  else
    .error (toString errs.length ++
      " bare JSON param read(s) — every param read must have an explicit fallback:\n  " ++
      "\n  ".intercalate errs)

/-! ### Places -/

/-- The element at a place: the indices that lead to it from the outermost list on. -/
def elementAt : LispVal → List Nat → Option LispVal
  | e, [] => some e
  | .list items, i :: p => items[i]?.bind (elementAt · p)
  | _, _ :: _ => none

def isRead : LispVal → Bool
  | .list (.sym head :: rest) => head ∈ BARE_OPS ∧ rest.length < 2
  | _ => false

def isDefault : List LispVal → Bool
  | .sym head :: _ => head = "default"
  | _ => false

/-- The place is in the value of a list that begins with `default`, at whatever depth. -/
def Defaulted (e : LispVal) (p : List Nat) : Prop :=
  ∃ q r items, p = q ++ 1 :: r ∧ elementAt e q = some (.list items) ∧ isDefault items = true

/-- The place is that of the value of a `default` form. -/
def ValueAt (e : LispVal) (p : List Nat) : Prop :=
  ∃ q value fallback more, p = q ++ [1] ∧
    elementAt e q = some (.list (.sym "default" :: value :: fallback :: more))

theorem elementAt_cons {items : List LispVal} {i : Nat} {p : List Nat} {x : LispVal} :
    elementAt (.list items) (i :: p) = some x ↔
      ∃ item, items[i]? = some item ∧ elementAt item p = some x := by
  rw [elementAt, Option.bind_eq_some_iff]

theorem elementAt_list {e : LispVal} {i : Nat} {p : List Nat} {x : LispVal}
    (found : elementAt e (i :: p) = some x) : ∃ items, e = .list items := by
  cases e with
  | list items => exact ⟨items, rfl⟩
  | _ => cases found

theorem elementAt_append (e : LispVal) (p q : List Nat) :
    elementAt e (p ++ q) = (elementAt e p).bind (elementAt · q) := by
  induction p generalizing e with
  | nil => rfl
  | cons i p ih =>
    cases e with
    | list items =>
      rw [List.cons_append, elementAt, elementAt, Option.bind_assoc]
      exact congrArg _ (funext fun item => ih item)
    | _ => rfl

theorem defaulted_cons {items : List LispVal} {item : LispVal} {i : Nat} {p : List Nat}
    (here : items[i]? = some item) :
    Defaulted (.list items) (i :: p) ↔ isDefault items = true ∧ i = 1 ∨ Defaulted item p := by
  constructor
  · intro within
    rcases within with ⟨q, r, form, split, found, isForm⟩
    cases q with
    | nil =>
      rcases List.cons.inj split with ⟨first, _⟩
      cases found
      exact .inl ⟨isForm, first⟩
    | cons j q =>
      rcases List.cons.inj split with ⟨first, split⟩
      rw [← first] at found
      rcases elementAt_cons.mp found with ⟨item', here', found⟩
      rw [here] at here'
      cases here'
      exact .inr ⟨q, r, form, split, found, isForm⟩
  · intro within
    rcases within with ⟨isForm, first⟩ | ⟨q, r, form, split, found, isForm⟩
    · exact ⟨[], p, items, by rw [first]; rfl, rfl, isForm⟩
    · exact ⟨i :: q, r, form, by rw [split]; rfl, elementAt_cons.mpr ⟨item, here, found⟩, isForm⟩

/-! ### What the gate accepts -/

theorem walkAll_eq_nil_iff {flag : Bool} {items : List LispVal} :
    walkAll flag items = [] ↔
      ∀ (i : Nat) (item : LispVal), items[i]? = some item → walk flag item = [] := by
  induction items with
  | nil => simp [walkAll]
  | cons sub rest ih =>
    rw [walkAll, List.append_eq_nil_iff, ih]
    constructor
    · intro quiet i item found
      cases i with
      | zero => exact Option.some.inj found ▸ quiet.1
      | succ i => exact quiet.2 i item found
    · intro quiet
      exact ⟨quiet 0 sub rfl, fun i item found => quiet (i + 1) item found⟩

/-- The flag under which the gate walks the element of a list. -/
def flagAt (flag : Bool) (items : List LispVal) (i : Nat) : Bool :=
  flag || (isDefault items && i == 1)

theorem walkDefault_eq_nil_iff {flag : Bool} {rest : List LispVal} :
    walkDefault flag rest = [] ↔ ∀ (i : Nat) (item : LispVal),
      (.sym "default" :: rest : List LispVal)[i]? = some item →
        walk (flagAt flag (.sym "default" :: rest) i) item = [] := by
  have sym (b : Bool) (s : String) : walk b (.sym s) = [] := rfl
  have one : flagAt flag (.sym "default" :: rest) 1 = true := Bool.or_true flag
  have more (i : Nat) : flagAt flag (.sym "default" :: rest) (i + 2) = flag := by
    simp [flagAt]
  cases rest with
  | nil =>
    refine iff_of_true rfl ?_
    intro i item found
    cases i with
    | zero => exact Option.some.inj found ▸ sym _ _
    | succ i => cases found
  | cons value rest =>
    rw [walkDefault, List.append_eq_nil_iff, walkAll_eq_nil_iff]
    constructor
    · intro quiet i item found
      rcases i with _ | _ | i
      · exact Option.some.inj found ▸ sym _ _
      · rw [one]
        exact Option.some.inj found ▸ quiet.1
      · rw [more]
        exact quiet.2 i item found
    · intro quiet
      constructor
      · have first := quiet 1 value rfl
        rw [one] at first
        exact first
      · intro i item found
        have later := quiet (i + 2) item found
        rw [more] at later
        exact later

theorem walk_list_eq_nil_iff {flag : Bool} {items : List LispVal} :
    walk flag (.list items) = [] ↔ (isRead (.list items) = true → flag = true) ∧
      ∀ (i : Nat) (item : LispVal), items[i]? = some item →
        walk (flagAt flag items i) item = [] := by
  by_cases sym : ∃ head rest, items = .sym head :: rest
  · rcases sym with ⟨head, rest, rfl⟩
    rw [walk]
    by_cases isForm : head = "default"
    · have quiet : isRead (.list (.sym head :: rest)) = true → flag = true := by
        rw [isForm]
        intro read
        exact absurd read (by simp [isRead, BARE_OPS])
      rw [if_pos isForm, isForm, walkDefault_eq_nil_iff, ← isForm]
      exact (and_iff_right quiet).symm
    · have plain (i : Nat) : flagAt flag (.sym head :: rest) i = flag := by
        simp [flagAt, isDefault, isForm]
      simp only [if_neg isForm, plain]
      by_cases bare : head ∈ BARE_OPS ∧ flag = false ∧ rest.length < 2
      · rw [if_pos bare]
        refine iff_of_false (List.cons_ne_nil _ _) fun quiet => ?_
        have set := quiet.1 (by simp [isRead, bare.1, bare.2.2])
        rw [bare.2.1] at set
        exact Bool.false_ne_true set
      · rw [if_neg bare, walkAll_eq_nil_iff]
        have quiet : isRead (.list (.sym head :: rest)) = true → flag = true := by
          intro read
          simp only [isRead, decide_eq_true_eq] at read
          by_contra unset
          exact bare ⟨read.1, Bool.eq_false_iff.mpr unset, read.2⟩
        rw [and_iff_right quiet]
        constructor
        · intro each i item found
          cases i with
          | zero => exact Option.some.inj found ▸ rfl
          | succ i => exact each i item found
        · intro each i item found
          exact each (i + 1) item found
  · have all : walk flag (.list items) = walkAll flag items := by
      rw [walk]
      intro head rest same
      exact sym ⟨head, rest, same⟩
    have noRead : isRead (.list items) = false := by
      rw [isRead]
      intro head rest same
      exact sym ⟨head, rest, LispVal.list.inj same⟩
    have noForm : isDefault items = false := by
      rw [isDefault]
      intro head rest same
      exact sym ⟨head, rest, same⟩
    have plain (i : Nat) : flagAt flag items i = flag := by simp [flagAt, noForm]
    simp only [all, noRead, plain]
    rw [walkAll_eq_nil_iff, and_iff_right (fun set => absurd set Bool.false_ne_true)]

/-- The gate refuses the reads that stand in the value of no `default` form. -/
theorem walk_eq_nil_iff {flag : Bool} {e : LispVal} :
    walk flag e = [] ↔
      ∀ p x, elementAt e p = some x → isRead x = true → flag = true ∨ Defaulted e p := by
  constructor
  · intro quiet p
    induction p generalizing flag e with
    | nil =>
      intro x found read
      cases found
      cases e with
      | list items => exact .inl ((walk_list_eq_nil_iff.mp quiet).1 read)
      | _ => cases read
    | cons i p ih =>
      intro x found read
      rcases elementAt_list found with ⟨items, rfl⟩
      rcases elementAt_cons.mp found with ⟨item, here, found⟩
      rw [defaulted_cons here]
      rcases ih ((walk_list_eq_nil_iff.mp quiet).2 i item here) x found read with set | within
      · simp only [flagAt, Bool.or_eq_true, Bool.and_eq_true, beq_iff_eq] at set
        rcases set with set | first
        · exact .inl set
        · exact .inr (.inl first)
      · exact .inr (.inr within)
  · intro safe
    induction e using LispVal.nested_induct generalizing flag with
    | list items each =>
      rw [walk_list_eq_nil_iff]
      constructor
      · intro read
        rcases safe [] _ rfl read with set | ⟨q, r, form, split, _⟩
        · exact set
        · exact absurd split.symm (by simp)
      · intro i item here
        apply each item (List.mem_of_getElem? here)
        intro p x found read
        have within := safe (i :: p) x (elementAt_cons.mpr ⟨item, here, found⟩) read
        rw [defaulted_cons here] at within
        rcases within with set | first | within
        · exact .inl (by rw [flagAt, set, Bool.true_or])
        · exact .inl (by simp [flagAt, first])
        · exact .inr within
    | map d => rfl
    | other v noList =>
      cases v with
      | list items => exact absurd rfl (noList items)
      | _ => rfl

theorem check_ok_iff {exprs : List LispVal} :
    checkBareJsonGetResult exprs = .ok () ↔
      ∀ e ∈ exprs, ∀ p x, elementAt e p = some x → isRead x = true → Defaulted e p := by
  have accepts : checkBareJsonGetResult exprs = .ok () ↔ walkAll false exprs = [] := by
    rw [checkBareJsonGetResult]
    cases walkAll false exprs with
    | nil => simp
    | cons err errs => simp
  rw [accepts, walkAll_eq_nil_iff]
  constructor
  · intro quiet e mem p x found read
    rcases List.getElem?_of_mem mem with ⟨i, here⟩
    rcases walk_eq_nil_iff.mp (quiet i e here) p x found read with set | within
    · exact absurd set Bool.false_ne_true
    · exact within
  · intro safe i e here
    exact walk_eq_nil_iff.mpr fun p x found read =>
      .inr (safe e (List.mem_of_getElem? here) p x found read)

/-! ### Executions -/

/-- Every read is the value of a `default` form. -/
def Direct (e : LispVal) : Prop :=
  ∀ p x, elementAt e p = some x → isRead x = true → ValueAt e p

/-- A read stands in the value of a `default` form without being the value of one. -/
def Buried (e : LispVal) : Prop :=
  ∃ p x, elementAt e p = some x ∧ isRead x = true ∧ Defaulted e p ∧ ¬ ValueAt e p

/-- The places that an execution evaluates, where `operands` gives the places below a form at which
the form's operands stand. -/
inductive Evaluated (operands : List LispVal → List (List Nat)) (e : LispVal) : List Nat → Prop
  | top : Evaluated operands e []
  | operand {p q : List Nat} {items : List LispVal} (here : Evaluated operands e p)
      (form : elementAt e p = some (.list items)) (mem : q ∈ operands items) :
      Evaluated operands e (p ++ q)

/-- Whatever an execution evaluates, a read's result goes to a `default` form, as its value. -/
def Consumed (operands : List LispVal → List (List Nat)) (e : LispVal) : Prop :=
  isRead e = false ∧ ∀ p q items x, Evaluated operands e p →
    elementAt e p = some (.list items) → q ∈ operands items →
    elementAt (.list items) q = some x → isRead x = true →
      ∃ value fallback more, items = .sym "default" :: value :: fallback :: more ∧ q = [1]

/-- A list between a form and an operand of it, such as a binding or a clause, does not look like a
`default` form. -/
def Shaped (operands : List LispVal → List (List Nat)) (e : LispVal) : Prop :=
  ∀ p items, elementAt e p = some (.list items) → ∀ q ∈ operands items, q ≠ [] ∧
    ∀ r s value fallback more, q = r ++ s → r ≠ [] → s ≠ [] →
      elementAt (.list items) r ≠ some (.list (.sym "default" :: value :: fallback :: more))

theorem consumed_of_direct {operands : List LispVal → List (List Nat)} {e : LispVal}
    (direct : Direct e) (shaped : Shaped operands e) : Consumed operands e := by
  constructor
  · rw [Bool.eq_false_iff]
    intro read
    rcases direct [] e rfl read with ⟨q, _, _, _, split, _⟩
    exact absurd split.symm (by simp)
  · intro p q items x here form mem found read
    rcases shaped p items form q mem with ⟨below, clear⟩
    have place : elementAt e (p ++ q) = some x := by
      rw [elementAt_append, form]
      exact found
    rcases direct (p ++ q) x place read with ⟨p', value, fallback, more, split, parent⟩
    rcases List.eq_nil_or_concat q with none | ⟨r, i, rfl⟩
    · exact absurd none below
    rw [List.concat_eq_append, ← List.append_assoc] at split
    rcases List.append_inj' split rfl with ⟨same, last⟩
    rw [← same, elementAt_append, form] at parent
    have parent : elementAt (.list items) r =
        some (.list (.sym "default" :: value :: fallback :: more)) := parent
    cases r with
    | nil => exact ⟨value, fallback, more, LispVal.list.inj (Option.some.inj parent), last⟩
    | cons j r =>
      exact absurd parent (clear (j :: r) [i] value fallback more List.concat_eq_append
        (List.cons_ne_nil _ _) (List.cons_ne_nil _ _))

/-- The operands of a call stand behind its head. -/
def arguments (items : List LispVal) : List (List Nat) :=
  (List.range (items.length - 1)).map fun i => [i + 1]

/-- `(default (near/json_get_int "k") 0)` -/
def defaulted : LispVal :=
  .list [.sym "default", .list [.sym "near/json_get_int", .str "k"], .num 0]

/-- `(default (+ (near/json_get_int "k") 1) 0)` -/
def buriedRead : LispVal :=
  .list [.sym "default",
    .list [.sym "+", .list [.sym "near/json_get_int", .str "k"], .num 1], .num 0]

end LispRlm.Typing.JsonReads
