import LispRlm.Bytecode.Values

/-! The resolution of forms to the storage accesses that they make through wrappers, and when it
comes to an end. -/

namespace LispRlm.Typing.StorageProv

open LispRlm.Bytecode

/-! ### The wrappers of a program -/

/-- The name, the parameters and the expressions of a form that defines a function. -/
def definition : LispVal → Option (String × List LispVal × LispVal × List LispVal)
  | .list (.sym "define" :: .list (.sym name :: params) :: body :: more) =>
      some (name, params, body, more)
  | _ => none

/-- The last definition of a function. -/
def defined (program : List LispVal) (name : String) :
    Option (List LispVal × LispVal × List LispVal) :=
  program.reverse.findSome? fun e =>
    (definition e).bind fun d => if d.1 = name then some d.2 else none

def paramName : LispVal → Option String
  | .sym n => some n
  | _ => none

/-- The parameters and the body of a wrapper. -/
abbrev Wrappers := String → Option (List String × LispVal)

def collectFnDefns (program : List LispVal) : Wrappers := fun name =>
  (defined program name).map fun (params, body, _) => (params.filterMap paramName, body)

/-! ### The resolution -/

inductive StorageSite
  | write (key value : LispVal)
  | read (key : LispVal) (fallback : Option LispVal)

def isGet (h : String) : Bool := h = "near/storage_get" ∨ h = "near/storage_read"

def isSet (h : String) : Bool := h = "near/storage_set" ∨ h = "near/storage_write"

mutual

def substituteSyms (ps : List String) (args : List LispVal) : LispVal → LispVal
  | .sym n => ((ps.zip args).lookup n).getD (.sym n)
  | .list items => .list (substituteAll ps args items)
  | e => e

def substituteAll (ps : List String) (args : List LispVal) : List LispVal → List LispVal
  | [] => []
  | x :: items => substituteSyms ps args x :: substituteAll ps args items

end

/-- The body of the wrapper that a form calls, with the operands for the parameters. -/
def wrapped (wrappers : Wrappers) (h : String) (args : List LispVal) : Option LispVal :=
  match wrappers h with
  | none => none
  | some (ps, body) =>
      if ps.isEmpty ∨ ps.length ≠ args.length then none else some (substituteSyms ps args body)

/-- `storage_site`, which calls itself at most `fuel` times. -/
def storageSite (wrappers : Wrappers) : Nat → LispVal → Option (Option StorageSite)
  | 0, _ => none
  | fuel + 1, .list (.sym h :: args) =>
      if isGet h then
        match args with
        | [k] => some (some (.read k none))
        | _ => some none
      else if isSet h then
        match args with
        | [k, v] => some (some (.write k v))
        | _ => some none
      else if h = "default" then
        match args with
        | [value, d] =>
            match storageSite wrappers fuel value with
            | none => none
            | some (some (.read k _)) => some (some (.read k (some d)))
            | some _ => some none
        | _ => some none
      else
        match wrapped wrappers h args with
        | none => some none
        | some body => storageSite wrappers fuel body
  | _ + 1, _ => some none

def literalKey : LispVal → Option String
  | .str s => some s
  | _ => none

def isDigits : LispVal → Bool
  | .str s => !s.isEmpty && s.toList.all Char.isDigit
  | _ => false

def hotLimbRead (wrappers : Wrappers) (fuel : Nat) (e : LispVal) : Option Bool :=
  (storageSite wrappers fuel e).map fun
    | some (.read k d) => (literalKey k).isSome && (d.map isDigits).getD true
    | _ => false

mutual

def anyHotReadIn (wrappers : Wrappers) (fuel : Nat) (e : LispVal) : Option Bool :=
  match storageSite wrappers fuel e with
  | none => none
  | some site =>
      match site with
      | some (.read (.str _) _) => some true
      | _ =>
          match e with
          | .list items => anyHotReadInAny wrappers fuel items
          | _ => some false

def anyHotReadInAny (wrappers : Wrappers) (fuel : Nat) : List LispVal → Option Bool
  | [] => some false
  | x :: items =>
      match anyHotReadIn wrappers fuel x with
      | some false => anyHotReadInAny wrappers fuel items
      | answer => answer

end

/-! ### When it ends -/

/-- The form on which `storage_site` calls itself. -/
def unfold (wrappers : Wrappers) : LispVal → Option LispVal
  | .list (.sym h :: args) =>
      if isGet h ∨ isSet h then none
      else if h = "default" then
        match args with
        | [value, _] => some value
        | _ => none
      else wrapped wrappers h args
  | _ => none

def unfolded (wrappers : Wrappers) : Nat → LispVal → Option LispVal
  | 0, e => some e
  | n + 1, e => (unfold wrappers e).bind (unfolded wrappers n)

variable {wrappers : Wrappers}

/-- What a call of `storage_site` makes of the call that it makes, or returns without one. -/
theorem storageSite_succ (fuel : Nat) (e : LispVal) :
    (unfold wrappers e = none ∧ ∃ site, storageSite wrappers (fuel + 1) e = some site) ∨
    ∃ e', unfold wrappers e = some e' ∧
      (storageSite wrappers (fuel + 1) e = none ↔ storageSite wrappers fuel e' = none) := by
  by_cases call : ∃ h args, e = .list (.sym h :: args)
  · rcases call with ⟨h, args, rfl⟩
    rw [unfold.eq_def, storageSite.eq_def]
    dsimp only
    by_cases get : isGet h = true
    · refine .inl ⟨if_pos (.inl get), ?_⟩
      rw [if_pos get]
      split
      · exact ⟨_, rfl⟩
      · exact ⟨_, rfl⟩
    rw [if_neg get]
    by_cases set : isSet h = true
    · refine .inl ⟨if_pos (.inr set), ?_⟩
      rw [if_pos set]
      split
      · exact ⟨_, rfl⟩
      · exact ⟨_, rfl⟩
    rw [if_neg set, if_neg (not_or.mpr ⟨get, set⟩)]
    by_cases form : h = "default"
    · rw [if_pos form, if_pos form]
      split
      · rename_i value d
        refine .inr ⟨value, rfl, ?_⟩
        cases storageSite wrappers fuel value with
        | none => simp
        | some site =>
          cases site with
          | none => simp
          | some site => cases site <;> simp
      · exact .inl ⟨rfl, _, rfl⟩
    · rw [if_neg form, if_neg form]
      cases wrapped wrappers h args with
      | none => exact .inl ⟨rfl, _, rfl⟩
      | some body => exact .inr ⟨body, rfl, Iff.rfl⟩
  · have other : unfold wrappers e = none := by
      rw [unfold]
      intro h args same
      exact call ⟨h, args, same⟩
    refine .inl ⟨other, none, ?_⟩
    rw [storageSite]
    intro h args same
    exact call ⟨h, args, same⟩

theorem storageSite_eq_none_iff (fuel : Nat) (e : LispVal) :
    storageSite wrappers fuel e = none ↔ ∃ e', unfolded wrappers fuel e = some e' := by
  induction fuel generalizing e with
  | zero => exact iff_of_true rfl ⟨e, rfl⟩
  | succ fuel ih =>
    rw [unfolded]
    rcases storageSite_succ fuel e with ⟨stop, site, found⟩ | ⟨e', next, same⟩
    · rw [stop, found]
      simp
    · rw [same, next, ih e']
      rfl

theorem unfolded_none_mono {n m : Nat} {e : LispVal} (more : n ≤ m)
    (ends : unfolded wrappers n e = none) : unfolded wrappers m e = none := by
  induction n generalizing m e with
  | zero => cases ends
  | succ n ih =>
    cases m with
    | zero => exact absurd more (Nat.not_succ_le_zero n)
    | succ m =>
      rw [unfolded] at ends ⊢
      cases next : unfold wrappers e with
      | none => rfl
      | some e' =>
        rw [next] at ends
        exact ih (Nat.le_of_succ_le_succ more) ends

/-- A call is unfolded to an operand, where it is a `default`, or to a wrapper's body. -/
theorem unfold_call {h : String} {args : List LispVal} {e' : LispVal}
    (next : unfold wrappers (.list (.sym h :: args)) = some e') :
    e' ∈ args ∨ ∃ ps body, wrappers h = some (ps, body) ∧ ps.length = args.length ∧
      e' = substituteSyms ps args body := by
  rw [unfold.eq_def] at next
  dsimp only at next
  split at next
  · cases next
  split at next
  · split at next
    · exact .inl (Option.some.inj next ▸ List.mem_cons_self)
    · cases next
  rw [wrapped] at next
  split at next
  · cases next
  · rename_i ps body found
    split at next
    · cases next
    · rename_i fits
      exact .inr ⟨ps, body, found, Decidable.not_not.mp (not_or.mp fits).2,
        (Option.some.inj next).symm⟩

/-- `storage_site` returns if and only if the unfoldings of its form come to an end. -/
theorem storageSite_returns_iff (fuel : Nat) (e : LispVal) :
    (∃ site, storageSite wrappers fuel e = some site) ↔ unfolded wrappers fuel e = none := by
  rw [← Option.ne_none_iff_exists', ne_eq, storageSite_eq_none_iff, ← Option.ne_none_iff_exists',
    not_not]


/-- The unfoldings of a form come to an end. -/
def Ends (wrappers : Wrappers) (e : LispVal) : Prop := ∃ n, unfolded wrappers n e = none

theorem storageSite_returns_iff_ends (e : LispVal) :
    (∃ fuel site, storageSite wrappers fuel e = some site) ↔ Ends wrappers e :=
  exists_congr fun fuel => storageSite_returns_iff fuel e

theorem hotLimbRead_returns_iff_ends (e : LispVal) :
    (∃ fuel b, hotLimbRead wrappers fuel e = some b) ↔ Ends wrappers e := by
  rw [← storageSite_returns_iff_ends]
  apply exists_congr
  intro fuel
  rw [← Option.ne_none_iff_exists', ← Option.ne_none_iff_exists', hotLimbRead, ne_eq,
    Option.map_eq_none_iff]

/-- Where a form's site comes from: the form is the access, or it is a `default` or a wrapper's
call and its unfolding has the site. -/
inductive Resolved (wrappers : Wrappers) (fuel : Nat) : LispVal → StorageSite → Prop
  | get {h : String} {k : LispVal} : isGet h = true →
      Resolved wrappers fuel (.list [.sym h, k]) (.read k none)
  | set {h : String} {k v : LispVal} : isSet h = true →
      Resolved wrappers fuel (.list [.sym h, k, v]) (.write k v)
  | fallback {value k d : LispVal} {d' : Option LispVal} :
      unfold wrappers (.list [.sym "default", value, d]) = some value →
      storageSite wrappers fuel value = some (some (.read k d')) →
      Resolved wrappers fuel (.list [.sym "default", value, d]) (.read k (some d))
  | call {h : String} {args : List LispVal} {body : LispVal} {site : StorageSite} :
      h ≠ "default" → wrapped wrappers h args = some body →
      unfold wrappers (.list (.sym h :: args)) = some body →
      storageSite wrappers fuel body = some (some site) →
      Resolved wrappers fuel (.list (.sym h :: args)) site

theorem resolved_of_storageSite {fuel : Nat} {e : LispVal} {site : StorageSite}
    (found : storageSite wrappers (fuel + 1) e = some (some site)) :
    Resolved wrappers fuel e site := by
  rw [storageSite.eq_def] at found
  split at found
  · cases ‹fuel + 1 = 0›
  · rename_i fuel' h args more
    cases more
    have unfolds := unfold.eq_def wrappers (.list (.sym h :: args))
    dsimp only at unfolds
    by_cases get : isGet h = true
    · rw [if_pos get] at found
      split at found
      · cases found
        exact .get get
      · cases found
    rw [if_neg get] at found
    by_cases set : isSet h = true
    · rw [if_pos set] at found
      split at found
      · cases found
        exact .set set
      · cases found
    rw [if_neg set] at found
    rw [if_neg (not_or.mpr ⟨get, set⟩)] at unfolds
    by_cases form : h = "default"
    · rw [if_pos form] at found unfolds
      rw [form] at unfolds ⊢
      split at found
      · split at found
        · cases found
        · rename_i k _ inner
          cases found
          exact .fallback unfolds inner
        · cases found
      · cases found
    · rw [if_neg form] at found unfolds
      cases body_ : wrapped wrappers h args with
      | none =>
        rw [body_] at found
        cases found
      | some body =>
        rw [body_] at found unfolds
        exact .call form body_ unfolds found
  · cases found

/-! ### The walk over a program -/

/-- A form is another one or inside it. -/
inductive Part (y : LispVal) : LispVal → Prop
  | self : Part y y
  | item {x : LispVal} {items : List LispVal} : x ∈ items → Part y x → Part y (.list items)

theorem anyHotReadInAny_returns {items : List LispVal}
    (each : ∀ x ∈ items, ∃ n, ∀ m, n ≤ m → ∃ b, anyHotReadIn wrappers m x = some b) :
    ∃ n, ∀ m, n ≤ m → ∃ b, anyHotReadInAny wrappers m items = some b := by
  induction items with
  | nil => exact ⟨0, fun m _ => ⟨false, rfl⟩⟩
  | cons x items ih =>
    rcases each x List.mem_cons_self with ⟨n, first⟩
    rcases ih fun y mem => each y (List.mem_cons_of_mem _ mem) with ⟨n', others⟩
    use max n n'
    intro m more
    rcases first m (Nat.le_trans (Nat.le_max_left n n') more) with ⟨b, here⟩
    rcases others m (Nat.le_trans (Nat.le_max_right n n') more) with ⟨b', there⟩
    rw [anyHotReadInAny, here]
    cases b with
    | true => exact ⟨true, rfl⟩
    | false => exact ⟨b', there⟩

theorem anyHotReadIn_leaf {e : LispVal} (leaf : ∀ items, e ≠ .list items)
    (ends : Ends wrappers e) : ∃ n, ∀ m, n ≤ m → ∃ b, anyHotReadIn wrappers m e = some b := by
  rcases ends with ⟨n, stop⟩
  use n
  intro m more
  rcases (storageSite_returns_iff m e).mpr (unfolded_none_mono more stop) with ⟨site, found⟩
  rw [anyHotReadIn, found]
  · dsimp only
    split
    · exact ⟨true, rfl⟩
    · exact ⟨false, rfl⟩
  · exact leaf

/-- The walk returns where the unfoldings of every form inside end. -/
theorem anyHotReadIn_returns (e : LispVal) (ends : ∀ x, Part x e → Ends wrappers x) :
    ∃ n, ∀ m, n ≤ m → ∃ b, anyHotReadIn wrappers m e = some b := by
  induction e using LispVal.nested_induct with
  | list items ih =>
    rcases ends _ .self with ⟨n, stop⟩
    rcases anyHotReadInAny_returns fun x mem =>
      ih x mem fun y part => ends y (.item mem part) with ⟨n', items_⟩
    use max n n'
    intro m more
    rcases (storageSite_returns_iff m (.list items)).mpr
      (unfolded_none_mono (Nat.le_trans (Nat.le_max_left n n') more) stop) with ⟨site, found⟩
    rw [anyHotReadIn, found]
    dsimp only
    split
    · exact ⟨true, rfl⟩
    · exact items_ m (Nat.le_trans (Nat.le_max_right n n') more)
  | map d _ => exact anyHotReadIn_leaf (fun _ same => by cases same) (ends _ .self)
  | other v no_list _ => exact anyHotReadIn_leaf no_list (ends _ .self)

/-! ### Programs without recursion -/

/-- The calls of a wrapper's body are of names of less rank, and none is of a parameter. -/
inductive Below (wrappers : Wrappers) (rank : String → Nat) (r : Nat) (ps : List String) :
    LispVal → Prop
  | leaf {e : LispVal} : (∀ h args, e ≠ .list (.sym h :: args)) → Below wrappers rank r ps e
  | call {h : String} {args : List LispVal} : h ∉ ps →
      ((wrappers h).isSome → rank h < r) → (∀ x ∈ args, Below wrappers rank r ps x) →
      Below wrappers rank r ps (.list (.sym h :: args))

def Ranked (wrappers : Wrappers) (rank : String → Nat) : Prop :=
  ∀ name ps body, wrappers name = some (ps, body) → Below wrappers rank (rank name) ps body

theorem ends_of_leaf {e : LispVal} (leaf : ∀ h args, e ≠ .list (.sym h :: args)) :
    Ends wrappers e := by
  use 1
  rw [unfolded, unfold]
  · rfl
  · exact leaf

theorem ends_of_unfold {e : LispVal} (next : ∀ e', unfold wrappers e = some e' → Ends wrappers e') :
    Ends wrappers e := by
  cases unfolds : unfold wrappers e with
  | none =>
    use 1
    rw [unfolded, unfolds]
    rfl
  | some e' =>
    rcases next e' unfolds with ⟨n, stop⟩
    use n + 1
    rw [unfolded, unfolds]
    exact stop

theorem substituteAll_eq_map (ps : List String) (args items : List LispVal) :
    substituteAll ps args items = items.map (substituteSyms ps args) := by
  induction items with
  | nil => rfl
  | cons x items ih => rw [substituteAll, ih, List.map_cons]

theorem lookup_zip_eq_none {ps : List String} {x : String} (absent : x ∉ ps)
    (args : List LispVal) : (ps.zip args).lookup x = none := by
  rw [List.lookup_eq_none_iff]
  intro pair mem
  rw [bne_iff_ne]
  intro same
  exact absent (same ▸ (List.of_mem_zip mem).1)

theorem mem_of_lookup_zip {ps : List String} {args : List LispVal} {x : String} {v : LispVal}
    (found : (ps.zip args).lookup x = some v) : v ∈ args := by
  rcases List.lookup_eq_some_iff.mp found with ⟨before, after, split, _⟩
  have mem : (x, v) ∈ ps.zip args := by
    rw [split]
    simp
  exact (List.of_mem_zip mem).2

theorem substituteSyms_call {ps : List String} {h : String} (args items : List LispVal)
    (absent : h ∉ ps) : substituteSyms ps args (.list (.sym h :: items)) =
      .list (.sym h :: items.map (substituteSyms ps args)) := by
  rw [substituteSyms, substituteAll, substituteSyms, lookup_zip_eq_none absent,
    substituteAll_eq_map]
  rfl

theorem ends_of_substituted {rank : String → Nat} {r : Nat} {ps : List String}
    {args : List LispVal} {e : LispVal} (below : Below wrappers rank r ps e)
    (ends : ∀ a ∈ args, Ends wrappers a)
    (calls : ∀ h items, ((wrappers h).isSome → rank h < r) → (∀ a ∈ items, Ends wrappers a) →
      Ends wrappers (.list (.sym h :: items))) :
    Ends wrappers (substituteSyms ps args e) := by
  induction below with
  | @leaf e leaf =>
    cases e with
    | sym x =>
      rw [substituteSyms]
      cases found : (ps.zip args).lookup x with
      | none => exact ends_of_leaf leaf
      | some v => exact ends v (mem_of_lookup_zip found)
    | list items =>
      rw [substituteSyms]
      apply ends_of_leaf
      intro h args' same
      cases items with
      | nil => cases same
      | cons first items =>
        cases first with
        | sym n => exact leaf n items rfl
        | _ => cases same
    | _ => exact ends_of_leaf leaf
  | @call h items absent lower _ ih =>
    rw [substituteSyms_call args items absent]
    apply calls h _ lower
    intro a mem
    rcases List.mem_map.mp mem with ⟨item, inside, same⟩
    rw [← same]
    exact ih item inside

theorem ends_of_call {rank : String → Nat} (ranked : Ranked wrappers rank) (r : Nat) (h : String)
    (items : List LispVal) (lower : (wrappers h).isSome → rank h < r)
    (ends : ∀ a ∈ items, Ends wrappers a) : Ends wrappers (.list (.sym h :: items)) := by
  induction r generalizing h items with
  | zero =>
    apply ends_of_unfold
    intro e' next
    rcases unfold_call next with mem | ⟨ps, body, found, _, _⟩
    · exact ends e' mem
    · rw [found] at lower
      exact absurd (lower rfl) (Nat.not_lt_zero _)
  | succ r ih =>
    apply ends_of_unfold
    intro e' next
    rcases unfold_call next with mem | ⟨ps, body, found, _, same⟩
    · exact ends e' mem
    · rw [same]
      apply ends_of_substituted (ranked h ps body found) ends
      intro g items' less ends'
      rw [found] at lower
      exact ih g items'
        (fun some_ => Nat.lt_of_lt_of_le (less some_) (Nat.le_of_lt_succ (lower rfl))) ends'

/-- Without recursion, and without a call of a parameter, every resolution ends. -/
theorem ends_of_ranked {rank : String → Nat} (ranked : Ranked wrappers rank) (e : LispVal) :
    Ends wrappers e := by
  induction e using LispVal.nested_induct with
  | list items ih =>
    by_cases call : ∃ h args, items = .sym h :: args
    · rcases call with ⟨h, args, rfl⟩
      exact ends_of_call ranked _ h args (fun _ => Nat.lt_succ_self _)
        fun a mem => ih a (List.mem_cons_of_mem _ mem)
    · apply ends_of_leaf
      intro h args same
      exact call ⟨h, args, LispVal.list.inj same⟩
  | map d _ => exact ends_of_leaf fun _ _ same => by cases same
  | other v no_list _ => exact ends_of_leaf fun _ _ => no_list _

end LispRlm.Typing.StorageProv
