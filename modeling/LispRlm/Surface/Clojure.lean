import LispRlm.Bytecode.Values

/-! The pass that rewrites Clojure forms to the ones the compilers know. -/

namespace LispRlm.Surface

open Bytecode (LispVal)

mutual

/-- How many nodes lists and vectors have. -/
def size : LispVal → Nat
  | .list items => 1 + sizes items
  | .vec items => 1 + sizes items
  | _ => 1

def sizes : List LispVal → Nat
  | [] => 0
  | v :: vs => size v + sizes vs

end

theorem size_pos (v : LispVal) : 1 ≤ size v := by
  cases v <;> simp [size]

theorem sizes_append (vs ws : List LispVal) : sizes (vs ++ ws) = sizes vs + sizes ws := by
  induction vs with
  | nil => simp [sizes]
  | cons v vs ih => rw [List.cons_append, sizes, sizes, ih, Nat.add_assoc]

theorem size_le_sizes {v : LispVal} {vs : List LispVal} (mem : v ∈ vs) : size v ≤ sizes vs := by
  obtain ⟨before, after, rfl⟩ := List.append_of_mem mem
  rw [sizes_append, sizes]
  omega

namespace Clojure

/-! ### Lists for vectors -/

mutual

def vecToListInner : LispVal → LispVal
  | .vec items => .list (vecToListInners items)
  | v => v

def vecToListInners : List LispVal → List LispVal
  | [] => []
  | v :: vs => vecToListInner v :: vecToListInners vs

end

def vecToList : LispVal → LispVal
  | .vec items => .list (vecToListInners items)
  | v => v

mutual

theorem size_vecToListInner (v : LispVal) : size (vecToListInner v) = size v := by
  cases v with
  | vec items => rw [vecToListInner, size, size, sizes_vecToListInners items]
  | _ => rfl

theorem sizes_vecToListInners (vs : List LispVal) : sizes (vecToListInners vs) = sizes vs := by
  cases vs with
  | nil => rfl
  | cons v vs => rw [vecToListInners, sizes, sizes, size_vecToListInner v, sizes_vecToListInners vs]

end

theorem size_vecToList (v : LispVal) : size (vecToList v) = size v := by
  cases v with
  | vec items => rw [vecToList, size, size, sizes_vecToListInners]
  | _ => rfl

/-! ### Bindings -/

def asPair : LispVal → Option (LispVal × LispVal)
  | .list [x, e] => some (x, e)
  | _ => none

def vecToPairs : List LispVal → List LispVal
  | x :: e :: items => .list [vecToListInner x, vecToListInner e] :: vecToPairs items
  | _ => []

/-- The bindings of a `let`, which may be paired already. -/
def pairBindings : LispVal → LispVal
  | .list items => if items.all (asPair · |>.isSome) then .list items else .list (vecToPairs items)
  | .vec items => if items.all (asPair · |>.isSome) then .vec items else .list (vecToPairs items)
  | v => v

/-! ### Functions -/

/-- The parts of a `defn`'s operands: name, parameters, body forms. -/
def defnParts : List LispVal → Option (LispVal × LispVal × List LispVal)
  | first :: second :: rest =>
      match first, second with
      | .vec (p :: ps), .sym s => some (.sym s, .vec (p :: ps), .sym s :: rest)
      | .list (p :: ps), .sym s => some (.sym s, .list (p :: ps), .sym s :: rest)
      | name, .str doc =>
          match rest with
          | params :: body => some (name, params, body)
          | [] => some (name, .str doc, [])
      | name, params => some (name, params, rest)
  | _ => none

def paramItems : LispVal → List LispVal
  | .list ps => ps
  | .vec ps => ps
  | other => [other]

def implicitBegin : List LispVal → LispVal
  | [] => .nil
  | [b] => b
  | bs => .list (.sym "begin" :: bs)

theorem sizes_paramItems (params : LispVal) :
    sizes (paramItems (vecToList params)) ≤ size params := by
  cases params <;> simp [vecToList, paramItems, sizes, size, sizes_vecToListInners]

theorem size_implicitBegin (body : List LispVal) : size (implicitBegin body) ≤ 2 + sizes body := by
  rcases body with _ | ⟨b, _ | ⟨b', bs⟩⟩
  · exact Nat.le_add_left 1 1
  · simp [implicitBegin, sizes]
  · simp only [implicitBegin, size, sizes]
    omega

theorem parts_within {rest : List LispVal} {name params : LispVal} {body : List LispVal}
    (parts : defnParts rest = some (name, params, body)) :
    size name + size params ≤ sizes rest ∧ sizes body < sizes rest := by
  unfold defnParts at parts
  split at parts
  · split at parts
    · obtain ⟨rfl, rfl, rfl⟩ := parts
      simp only [sizes, size]
      omega
    · obtain ⟨rfl, rfl, rfl⟩ := parts
      simp only [sizes, size]
      omega
    · split at parts
      · obtain ⟨rfl, rfl, rfl⟩ := parts
        simp only [sizes, size]
        omega
      · obtain ⟨rfl, rfl, rfl⟩ := parts
        simp only [sizes, size]
        omega
    · obtain ⟨rfl, rfl, rfl⟩ := parts
      simp only [sizes]
      have named := size_pos name
      omega
  · cases parts

theorem size_parts {rest : List LispVal} {name params : LispVal} {body : List LispVal}
    (parts : defnParts rest = some (name, params, body)) :
    1 + size name + sizes (paramItems (vecToList params)) < 2 + sizes rest ∧
      size (implicitBegin body) < 2 + sizes rest := by
  have within := parts_within parts
  have items := sizes_paramItems params
  have begun := size_implicitBegin body
  omega

theorem size_vecToPairs {items : List LispVal} {k e : LispVal}
    (mem : .list [k, e] ∈ vecToPairs items) : size e ≤ sizes items := by
  induction items using vecToPairs.induct with
  | case1 x init items ih =>
    rw [vecToPairs, List.mem_cons] at mem
    simp only [sizes]
    obtain same | mem := mem
    · simp only [LispVal.list.injEq, List.cons.injEq] at same
      rw [same.2.1, size_vecToListInner]
      omega
    · have rest := ih mem
      omega
  | case2 items none =>
    rw [vecToPairs] at mem
    · cases mem
    · exact none

theorem asPair_eq {p x e : LispVal} (h : asPair p = some (x, e)) : p = .list [x, e] := by
  unfold asPair at h
  split at h
  · cases h
    rfl
  · cases h

theorem size_pairValue {bs k e : LispVal} {pairs : List LispVal}
    (paired : pairBindings bs = .list pairs) (mem : .list [k, e] ∈ pairs) : size e < size bs := by
  have listed {items : List LispVal} (mem : .list [k, e] ∈ items) : size e ≤ sizes items := by
    have bound := size_le_sizes mem
    simp only [size, sizes] at bound
    omega
  unfold pairBindings at paired
  split at paired
  · rw [size]
    split at paired
    · cases paired
      exact Nat.lt_one_add_iff.mpr (listed mem)
    · cases paired
      exact Nat.lt_one_add_iff.mpr (size_vecToPairs mem)
  · rw [size]
    split at paired
    · cases paired
    · cases paired
      exact Nat.lt_one_add_iff.mpr (size_vecToPairs mem)
  · rename_i notList _
    exact absurd paired (notList pairs)

/-- What a head symbol says about its form. -/
inductive Kind
  | defn
  | def_
  | let_
  | fn_
  | other
deriving DecidableEq

def kind (head : String) : Kind :=
  if head = "defn" ∨ head = "defn-" then .defn
  else if head = "def" then .def_
  else if head = "let" ∨ head = "let*" ∨ head = "loop" then .let_
  else if head = "fn" ∨ head = "lambda" then .fn_
  else .other

def desugar : LispVal → LispVal
  | .list (.sym head :: rest) =>
      match kind head, rest with
      | .defn, rest =>
          match _ : defnParts rest with
          | some (name, params, body) =>
              .list [.sym "define", desugar (.list (name :: paramItems (vecToList params))),
                desugar (implicitBegin body)]
          | none => .list (.sym head :: rest)
      | .def_, name :: value :: more =>
          .list (.sym "define" :: desugar name :: desugar value :: more.map desugar)
      | .let_, bs :: b :: body =>
          .list (.sym head ::
            (match _ : pairBindings bs with
              | .list pairs => .list (pairs.attach.map fun ⟨p, _⟩ =>
                  match _ : asPair p with
                  | some (x, e) => .list [x, desugar e]
                  | none => p)
              | v => v) :: desugar b :: body.map desugar)
      | .fn_, params :: b :: body =>
          .list (.sym head :: desugar (vecToList params) :: desugar b :: body.map desugar)
      | .other, rest => .list (.sym head :: rest.map desugar)
      | _, rest => .list (.sym head :: rest)
  | .list items => .list (items.map desugar)
  | .vec items => .vec (items.map desugar)
  | v => v
termination_by v => size v
decreasing_by
  · have parts := (size_parts ‹_›).1
    simp only [size, sizes] at parts ⊢
    omega
  · have parts := (size_parts ‹_›).2
    simp only [size, sizes]
    omega
  · simp only [size, sizes]
    omega
  · simp only [size, sizes]
    omega
  · have bound := size_le_sizes ‹_ ∈ _›
    simp only [size, sizes]
    omega
  · cases asPair_eq ‹asPair _ = _›
    have bound := size_pairValue ‹_› ‹_ ∈ _›
    simp only [size, sizes]
    omega
  · simp only [size, sizes]
    omega
  · have bound := size_le_sizes ‹_ ∈ _›
    simp only [size, sizes]
    omega
  · simp only [size, sizes, size_vecToList]
    omega
  · simp only [size, sizes]
    omega
  all_goals
    have bound := size_le_sizes ‹_ ∈ _›
    simp only [size, sizes]
    omega

/-- The pass over a program. -/
def desugarAll (exprs : List LispVal) : List LispVal := exprs.map desugar

def mapValue (f : LispVal → LispVal) (p : LispVal) : LispVal :=
  match asPair p with
  | some (x, e) => .list [x, f e]
  | none => p

def mapBindings (f : LispVal → LispVal) (bs : LispVal) : LispVal :=
  match pairBindings bs with
  | .list pairs => .list (pairs.map (mapValue f))
  | v => v

section Unfolding

variable {head : String} {rest : List LispVal}

theorem desugar_defn (k : kind head = .defn) {name params : LispVal} {body : List LispVal}
    (parts : defnParts rest = some (name, params, body)) :
    desugar (.list (.sym head :: rest)) =
      .list [.sym "define", desugar (.list (name :: paramItems (vecToList params))),
        desugar (implicitBegin body)] := by
  rw [desugar.eq_def]
  simp only [k]
  split
  · rename_i parts'
    cases parts.symm.trans parts'
    rfl
  · rename_i parts'
    cases parts.symm.trans parts'

theorem desugar_defn_none (k : kind head = .defn) (parts : defnParts rest = none) :
    desugar (.list (.sym head :: rest)) = .list (.sym head :: rest) := by
  rw [desugar.eq_def]
  simp only [k]
  split
  · rename_i parts'
    cases parts.symm.trans parts'
  · rfl

theorem desugar_def (k : kind head = .def_) (name value : LispVal) (more : List LispVal) :
    desugar (.list (.sym head :: name :: value :: more)) =
      .list (.sym "define" :: (name :: value :: more).map desugar) := by
  rw [desugar.eq_def]
  simp only [k, List.map_cons]

theorem desugar_let (k : kind head = .let_) (bs b : LispVal) (body : List LispVal) :
    desugar (.list (.sym head :: bs :: b :: body)) =
      .list (.sym head :: mapBindings desugar bs :: (b :: body).map desugar) := by
  rw [desugar.eq_def]
  simp only [k]
  congr 2
  unfold mapBindings
  split
  · rename_i pairs paired
    simp only [paired]
    congr 1
    conv_rhs => rw [← List.attach_map_subtype_val pairs, List.map_map]
    refine congrArg LispVal.list (List.map_congr_left fun p _ => ?_)
    change _ = mapValue desugar p.1
    unfold mapValue
    cases asPair p.1 <;> rfl
  · rename_i paired
    split
    · rename_i paired'
      exact absurd paired' (paired _)
    · rfl

theorem desugar_fn (k : kind head = .fn_) (params b : LispVal) (body : List LispVal) :
    desugar (.list (.sym head :: params :: b :: body)) =
      .list (.sym head :: desugar (vecToList params) :: (b :: body).map desugar) := by
  rw [desugar.eq_def]
  simp only [k, List.map_cons]

theorem desugar_short (k : kind head = .def_ ∨ kind head = .let_ ∨ kind head = .fn_)
    (short : rest.length < 2) :
    desugar (.list (.sym head :: rest)) = .list (.sym head :: rest) := by
  match rest, short with
  | [], _ => obtain k | k | k := k <;> rw [desugar.eq_def] <;> simp [k]
  | [x], _ => obtain k | k | k := k <;> rw [desugar.eq_def] <;> simp [k]

theorem desugar_other (k : kind head = .other) :
    desugar (.list (.sym head :: rest)) = .list (.sym head :: rest.map desugar) := by
  rw [desugar.eq_def]
  simp only [k]

theorem desugar_list {items : List LispVal} (noSym : ∀ head rest, items ≠ .sym head :: rest) :
    desugar (.list items) = .list (items.map desugar) := by
  rw [desugar.eq_def]
  split
  · rename_i same
    cases same
    exact absurd rfl (noSym _ _)
  · rename_i same
    cases same
    rfl
  · rename_i same
    cases same
  · rename_i noList _
    exact absurd rfl (noList items)

theorem desugar_vec (items : List LispVal) : desugar (.vec items) = .vec (items.map desugar) := by
  rw [desugar.eq_def]

theorem desugar_atom {v : LispVal} (noList : ∀ items, v ≠ .list items)
    (noVec : ∀ items, v ≠ .vec items) : desugar v = v := by
  rw [desugar.eq_def]
  split
  · exact absurd rfl (noList _)
  · exact absurd rfl (noList _)
  · exact absurd rfl (noVec _)
  · rfl

theorem desugar_isList (items : List LispVal) : ∃ items', desugar (.list items) = .list items' := by
  by_cases sym : ∃ head rest, items = .sym head :: rest
  · obtain ⟨head, rest, rfl⟩ := sym
    rw [desugar.eq_def]
    dsimp only
    split
    · split <;> exact ⟨_, rfl⟩
    all_goals exact ⟨_, rfl⟩
  · exact ⟨_, desugar_list fun head rest same => sym ⟨head, rest, same⟩⟩

end Unfolding

/-! ### The documented forms -/

/-- Whether the name of a `defn` stands behind its parameters. -/
def swapped : List LispVal → Bool
  | .vec (_ :: _) :: .sym _ :: _ => true
  | .list (_ :: _) :: .sym _ :: _ => true
  | _ => false

/-- The parts of a `defn` as its comment has them: the body is what stands behind the name and the
parameters. -/
def defnForm (rest : List LispVal) : Option (LispVal × LispVal × List LispVal) :=
  (defnParts rest).map fun (name, params, body) =>
    (name, params, if swapped rest then body.tail else body)

theorem sizes_form {rest : List LispVal} {name params : LispVal} {body : List LispVal}
    (form : defnForm rest = some (name, params, body)) : sizes body < sizes rest := by
  obtain ⟨⟨name', params', body'⟩, parts, same⟩ := Option.map_eq_some_iff.mp form
  obtain ⟨rfl, rfl, rfl⟩ := same
  have within := (parts_within parts).2
  have tail : sizes body'.tail ≤ sizes body' := by
    cases body' with
    | nil => exact Nat.le_refl _
    | cons b bs => exact Nat.le_add_left _ _
  split <;> omega

/-- Whether a list of bindings is names and values in turn, as a `loop` may have them. -/
def isFlat : List LispVal → Bool
  | [] => true
  | .sym _ :: _ :: items => isFlat items
  | _ => false

mutual

/-- The core form of an expression. Quoted data stays as it is, a vector of bindings is a list of
pairs, and what has no core form is `none`. -/
def core : LispVal → Option LispVal
  | .list (.sym head :: rest) =>
      if head = "quote" then some (.list (.sym head :: rest))
      else
        match kind head, rest with
        | .defn, rest =>
            match _ : defnForm rest with
            | some (name, params, body) => do
                let body ← coreAll body
                some (.list [.sym "define", .list (name :: paramItems (vecToList params)),
                  implicitBegin body])
            | none => some (.list (.sym head :: rest))
        | .def_, name :: value :: more => do
            let items ← coreAll (name :: value :: more)
            some (.list (.sym "define" :: items))
        | .let_, .vec items :: b :: body => do
            let pairs ← if items.all (asPair · |>.isSome) then coreEntries items
              else coreFlat items
            let body ← coreAll (b :: body)
            some (.list (.sym head :: .list pairs :: body))
        | .let_, .list items :: b :: body => do
            let pairs ← if items.all (asPair · |>.isSome) || !isFlat items then coreEntries items
              else coreFlat items
            let body ← coreAll (b :: body)
            some (.list (.sym head :: .list pairs :: body))
        | .let_, bs :: b :: body => do
            let body ← coreAll (b :: body)
            some (.list (.sym head :: bs :: body))
        | .fn_, params :: b :: body => do
            let body ← coreAll (b :: body)
            some (.list (.sym head :: vecToList params :: body))
        | .other, rest => do
            let items ← coreAll rest
            some (.list (.sym head :: items))
        | _, rest => some (.list (.sym head :: rest))
  | .list items => do
      let items ← coreAll items
      some (.list items)
  | .vec items => do
      let items ← coreAll items
      some (.vec items)
  | v => some v
termination_by v => 2 * size v
decreasing_by
  · have within := sizes_form ‹_›
    simp only [size, sizes]
    omega
  all_goals
    simp only [size, sizes]
    omega

def coreAll : List LispVal → Option (List LispVal)
  | [] => some []
  | v :: vs => do
      let v ← core v
      let vs ← coreAll vs
      some (v :: vs)
termination_by vs => 2 * sizes vs + 1
decreasing_by
  · simp only [sizes]
    omega
  · have first := size_pos ‹LispVal›
    simp only [sizes]
    omega

/-- Bindings that are pairs already; what is no pair stays as it is. -/
def coreEntries : List LispVal → Option (List LispVal)
  | [] => some []
  | p :: ps => do
      let p ← match _ : asPair p with
        | some (x, e) => do
            let e ← core e
            some (.list [x, e])
        | none => some p
      let ps ← coreEntries ps
      some (p :: ps)
termination_by ps => 2 * sizes ps + 1
decreasing_by
  · have first := size_pos ‹LispVal›
    simp only [sizes]
    omega
  · cases asPair_eq ‹asPair _ = _›
    simp only [size, sizes]
    omega

/-- Names and values in turn. -/
def coreFlat : List LispVal → Option (List LispVal)
  | [] => some []
  | [_] => none
  | x :: e :: items => do
      let e ← core e
      let pairs ← coreFlat items
      some (.list [vecToListInner x, e] :: pairs)
termination_by items => 2 * sizes items + 1
decreasing_by
  all_goals
    have first := size_pos x
    simp only [sizes]
    omega

end

/-! ### Where the pass changes nothing -/

/-- There is no form in it that the pass rewrites. -/
def Inert : LispVal → Prop
  | .list (.sym head :: rest) =>
      match kind head, rest with
      | .defn, rest => defnParts rest = none
      | .def_, _ :: _ :: _ => False
      | .let_, .vec items :: b :: body =>
          items.all (asPair · |>.isSome) ∧ ∀ v ∈ b :: body, Inert v
      | .let_, .list items :: b :: body =>
          items.all (asPair · |>.isSome) ∧ (∀ x e, .list [x, e] ∈ items → Inert e) ∧
            ∀ v ∈ b :: body, Inert v
      | .let_, _ :: b :: body => ∀ v ∈ b :: body, Inert v
      | .fn_, params :: b :: body =>
          (∀ items, params ≠ .vec items) ∧ Inert params ∧ ∀ v ∈ b :: body, Inert v
      | .other, rest => ∀ v ∈ rest, Inert v
      | _, _ => True
  | .list items => ∀ v ∈ items, Inert v
  | .vec items => ∀ v ∈ items, Inert v
  | _ => True
termination_by v => size v
decreasing_by
  all_goals
    first
      | have bound := size_le_sizes ‹_ ∈ _›
        simp only [size, sizes] at bound ⊢
        omega
      | simp only [size, sizes]
        omega

theorem vecToList_eq {v : LispVal} (noVec : ∀ items, v ≠ .vec items) : vecToList v = v := by
  cases v with
  | vec items => exact absurd rfl (noVec items)
  | _ => rfl

theorem map_eq_self {f : LispVal → LispVal} {vs : List LispVal} :
    vs.map f = vs ↔ ∀ v ∈ vs, f v = v := by
  induction vs with
  | nil => simp
  | cons v vs ih => rw [List.map_cons, List.cons.injEq, ih, List.forall_mem_cons]

theorem asPair_isSome {p : LispVal} : (asPair p).isSome ↔ ∃ x e, p = .list [x, e] := by
  constructor
  · intro some
    obtain ⟨⟨x, e⟩, pair⟩ := Option.isSome_iff_exists.mp some
    exact ⟨x, e, asPair_eq pair⟩
  · rintro ⟨x, e, rfl⟩
    rfl

theorem paired_vecToPairs (items : List LispVal) :
    (vecToPairs items).all (asPair · |>.isSome) = true := by
  induction items using vecToPairs.induct with
  | case1 x e items ih => rw [vecToPairs, List.all_cons, ih]; rfl
  | case2 items none => rw [vecToPairs]; rfl; exact none

theorem length_vecToPairs (items : List LispVal) :
    (vecToPairs items).length = items.length / 2 := by
  induction items using vecToPairs.induct with
  | case1 x e items ih =>
    rw [vecToPairs, List.length_cons, ih, List.length_cons, List.length_cons]
    omega
  | case2 items none =>
    rw [vecToPairs]
    · match items, none with
      | [], _ => rfl
      | [_], _ => simp
      | x :: e :: items, none => exact absurd rfl (none x e items)
    · exact none

/-- The values of bindings are what a map over them changes. -/
theorem mapValue_eq_self {f : LispVal → LispVal} {pairs : List LispVal} :
    pairs.map (mapValue f) = pairs ↔ ∀ x e, .list [x, e] ∈ pairs → f e = e := by
  rw [map_eq_self]
  constructor
  · intro same x e mem
    have here := same _ mem
    simpa [mapValue, asPair] using here
  · intro same p mem
    unfold mapValue
    split
    · rename_i x e pair
      cases asPair_eq pair
      rw [same x e mem]
    · rfl

theorem mapBindings_list_self {f : LispVal → LispVal} {items : List LispVal} :
    mapBindings f (.list items) = .list items ↔
      items.all (asPair · |>.isSome) = true ∧ ∀ x e, .list [x, e] ∈ items → f e = e := by
  unfold mapBindings pairBindings
  by_cases paired : items.all (asPair · |>.isSome) = true
  · simp only [paired, if_true, true_and, LispVal.list.injEq]
    exact mapValue_eq_self
  · simp only [paired, Bool.false_eq_true, if_false, false_and, iff_false, LispVal.list.injEq]
    intro same
    have shorter := congrArg List.length same
    rw [List.length_map, length_vecToPairs] at shorter
    have empty : items = [] := List.length_eq_zero_iff.mp (by omega)
    exact paired (empty ▸ rfl)

theorem mapBindings_vec_self {f : LispVal → LispVal} {items : List LispVal} :
    mapBindings f (.vec items) = .vec items ↔ items.all (asPair · |>.isSome) = true := by
  unfold mapBindings pairBindings
  by_cases paired : items.all (asPair · |>.isSome) = true
  · simp [paired]
  · simp [paired]

theorem mapBindings_other {f : LispVal → LispVal} {v : LispVal}
    (noList : ∀ items, v ≠ .list items) (noVec : ∀ items, v ≠ .vec items) :
    mapBindings f v = v := by
  unfold mapBindings pairBindings
  cases v with
  | list items => exact absurd rfl (noList items)
  | vec items => exact absurd rfl (noVec items)
  | _ => rfl

theorem kind_define : kind "define" = .other := by decide

theorem forms_eq {head : String} {items items' : List LispVal} :
    LispVal.list (.sym head :: items) = .list (.sym head :: items') ↔ items = items' := by
  simp

theorem map_congr_iff {p q : LispVal → Prop} {vs : List LispVal} (same : ∀ v ∈ vs, (p v ↔ q v)) :
    (∀ v ∈ vs, p v) ↔ ∀ v ∈ vs, q v :=
  ⟨fun all v mem => (same v mem).mp (all v mem), fun all v mem => (same v mem).mpr (all v mem)⟩

/-- The pass changes nothing where there is no form that it rewrites. -/
theorem desugar_eq_self_iff (v : LispVal) : desugar v = v ↔ Inert v := by
  fun_induction Inert v with
  | case1 head rest k =>
    cases parts : defnParts rest with
    | none => simp [desugar_defn_none k parts]
    | some form =>
      obtain ⟨name, params, body⟩ := form
      rw [desugar_defn k parts]
      refine iff_of_false (fun same => ?_) nofun
      injection same with same
      injection same with same
      injection same with same
      rw [← same] at k
      exact absurd k (by decide)
  | case2 head name value more k =>
    rw [desugar_def k]
    refine iff_of_false (fun same => ?_) id
    injection same with same
    injection same with same
    injection same with same
    rw [← same] at k
    exact absurd k (by decide)
  | case3 head items b body k ih =>
    rw [desugar_let k, forms_eq, List.cons.injEq, map_eq_self, mapBindings_vec_self,
      map_congr_iff ih]
  | case4 head items b body k ihValues ih =>
    rw [desugar_let k, forms_eq, List.cons.injEq, map_eq_self, mapBindings_list_self,
      map_congr_iff ih, and_assoc]
    refine and_congr_right fun _ => and_congr_left fun _ => ?_
    exact forall_congr' fun x => forall_congr' fun e =>
      ⟨fun same mem => (ihValues x e mem).mp (same mem),
        fun same mem => (ihValues x e mem).mpr (same mem)⟩
  | case5 head bs b body noVec noList k ih =>
    rw [desugar_let k, forms_eq, List.cons.injEq, map_eq_self, map_congr_iff ih,
      mapBindings_other noList noVec]
    exact and_iff_right rfl
  | case6 head params b body k ihParams ih =>
    rw [desugar_fn k, forms_eq, List.cons.injEq, map_eq_self, map_congr_iff ih, ← and_assoc]
    refine and_congr_left fun _ => ?_
    by_cases isVec : ∃ items, params = .vec items
    · obtain ⟨items, rfl⟩ := isVec
      obtain ⟨items', list⟩ := desugar_isList (vecToListInners items)
      rw [vecToList, list]
      exact iff_of_false nofun fun plain => plain.1 items rfl
    · have noVec : ∀ items, params ≠ .vec items := fun items same => isVec ⟨items, same⟩
      rw [vecToList_eq noVec, ihParams]
      exact (and_iff_right noVec).symm
  | case7 head rest k ih => rw [desugar_other k, forms_eq, map_eq_self, map_congr_iff ih]
  | case8 head rest noDefn noDef _ _ noLet noFn noOther =>
    refine iff_true_intro (desugar_short ?_ ?_)
    · cases k : kind head with
      | defn => exact absurd k noDefn
      | def_ => exact .inl rfl
      | let_ => exact .inr (.inl rfl)
      | fn_ => exact .inr (.inr rfl)
      | other => exact absurd k noOther
    · match rest, noDef, noLet, noFn with
      | [], _, _, _ => exact Nat.zero_lt_two
      | [_], _, _, _ => exact Nat.one_lt_two
      | x :: y :: rest, noDef, noLet, noFn =>
        cases k : kind head with
        | defn => exact absurd k noDefn
        | def_ => exact (noDef x y rest k rfl).elim
        | let_ => exact (noLet x y rest k rfl).elim
        | fn_ => exact (noFn x y rest k rfl).elim
        | other => exact absurd k noOther
  | case9 items noSym ih =>
    rw [desugar_list noSym, LispVal.list.injEq, map_eq_self, map_congr_iff ih]
  | case10 items ih => rw [desugar_vec, LispVal.vec.injEq, map_eq_self, map_congr_iff ih]
  | case11 v _ noList noVec => exact iff_true_intro (desugar_atom noList noVec)


/-! ### The pass twice -/

/-- What an expression can be to the pass. -/
inductive Shape : LispVal → Prop
  | defn {head : String} {rest : List LispVal} {name params : LispVal} {body : List LispVal}
      (k : kind head = .defn) (parts : defnParts rest = some (name, params, body)) :
      Shape (.list (.sym head :: rest))
  | bare {head : String} {rest : List LispVal} (k : kind head = .defn)
      (parts : defnParts rest = none) : Shape (.list (.sym head :: rest))
  | def_ {head : String} (k : kind head = .def_) (name value : LispVal) (more : List LispVal) :
      Shape (.list (.sym head :: name :: value :: more))
  | let_ {head : String} (k : kind head = .let_) (bs b : LispVal) (body : List LispVal) :
      Shape (.list (.sym head :: bs :: b :: body))
  | fn_ {head : String} (k : kind head = .fn_) (params b : LispVal) (body : List LispVal) :
      Shape (.list (.sym head :: params :: b :: body))
  | short {head : String} {rest : List LispVal}
      (k : kind head = .def_ ∨ kind head = .let_ ∨ kind head = .fn_) (few : rest.length < 2) :
      Shape (.list (.sym head :: rest))
  | other {head : String} (k : kind head = .other) (rest : List LispVal) :
      Shape (.list (.sym head :: rest))
  | list {items : List LispVal} (noSym : ∀ head rest, items ≠ .sym head :: rest) :
      Shape (.list items)
  | vec (items : List LispVal) : Shape (.vec items)
  | atom {v : LispVal} (noList : ∀ items, v ≠ .list items) (noVec : ∀ items, v ≠ .vec items) :
      Shape v

theorem shape_form (head : String) (rest : List LispVal) : Shape (.list (.sym head :: rest)) := by
  cases k : kind head with
  | defn =>
    cases parts : defnParts rest with
    | none => exact .bare k parts
    | some form => exact .defn k parts
  | other => exact .other k rest
  | def_ =>
    rcases rest with _ | ⟨name, _ | ⟨value, more⟩⟩
    · exact .short (.inl k) Nat.zero_lt_two
    · exact .short (.inl k) Nat.one_lt_two
    · exact .def_ k name value more
  | let_ =>
    rcases rest with _ | ⟨bs, _ | ⟨b, body⟩⟩
    · exact .short (.inr (.inl k)) Nat.zero_lt_two
    · exact .short (.inr (.inl k)) Nat.one_lt_two
    · exact .let_ k bs b body
  | fn_ =>
    rcases rest with _ | ⟨params, _ | ⟨b, body⟩⟩
    · exact .short (.inr (.inr k)) Nat.zero_lt_two
    · exact .short (.inr (.inr k)) Nat.one_lt_two
    · exact .fn_ k params b body

theorem shape (v : LispVal) : Shape v := by
  cases v with
  | list items =>
    by_cases sym : ∃ head rest, items = .sym head :: rest
    · obtain ⟨head, rest, rfl⟩ := sym
      exact shape_form head rest
    · exact .list fun head rest same => sym ⟨head, rest, same⟩
  | vec items => exact .vec items
  | _ => exact .atom (fun _ same => by cases same) (fun _ same => by cases same)

theorem desugar_sym {v : LispVal} {s : String} (same : desugar v = .sym s) : v = .sym s := by
  cases v with
  | list items =>
    obtain ⟨items', list⟩ := desugar_isList items
    cases list.symm.trans same
  | vec items => cases (desugar_vec items).symm.trans same
  | _ => rw [← same, desugar_atom (fun _ same => by cases same) (fun _ same => by cases same)]

theorem pairBindings_paired {bs : LispVal} {pairs : List LispVal}
    (list : pairBindings bs = .list pairs) : pairs.all (asPair · |>.isSome) = true := by
  unfold pairBindings at list
  split at list
  · split at list <;> cases list
    · assumption
    · exact paired_vecToPairs _
  · split at list <;> cases list
    exact paired_vecToPairs _
  · rename_i noList _
    exact absurd list (noList pairs)

theorem mapBindings_noList {f : LispVal → LispVal} {bs : LispVal}
    (noList : ∀ pairs, pairBindings bs ≠ .list pairs) : mapBindings f bs = bs := by
  have same : mapBindings f bs = pairBindings bs := by
    unfold mapBindings
    split
    · rename_i pairs list
      exact absurd list (noList pairs)
    · rfl
  rw [same]
  unfold pairBindings at noList ⊢
  cases bs with
  | list items => dsimp only at noList ⊢; split at noList <;> exact absurd rfl (noList _)
  | vec items =>
    dsimp only at noList ⊢
    split
    · rfl
    · rename_i flat
      rw [if_neg flat] at noList
      exact absurd rfl (noList _)
  | _ => rfl

theorem mapBindings_twice {f : LispVal → LispVal} {bs : LispVal}
    (twice : ∀ e, size e < size bs → f (f e) = f e) :
    mapBindings f (mapBindings f bs) = mapBindings f bs := by
  by_cases list : ∃ pairs, pairBindings bs = .list pairs
  · obtain ⟨pairs, list⟩ := list
    have mapped : mapBindings f bs = .list (pairs.map (mapValue f)) := by
      unfold mapBindings
      rw [list]
    rw [mapped]
    have paired := List.all_eq_true.mp (pairBindings_paired list)
    refine mapBindings_list_self.mpr ⟨?_, ?_⟩
    · rw [List.all_eq_true]
      intro p mem
      obtain ⟨q, first, rfl⟩ := List.mem_map.mp mem
      obtain ⟨x, e, rfl⟩ := asPair_isSome.mp (paired q first)
      rfl
    · intro x e mem
      obtain ⟨q, mem, same⟩ := List.mem_map.mp mem
      obtain ⟨x', e', rfl⟩ := asPair_isSome.mp (paired q mem)
      injection same with same
      injection same with _ same
      injection same with same
      rw [← same, twice e' (size_pairValue list mem)]
  · have noList : ∀ pairs, pairBindings bs ≠ .list pairs := fun pairs same => list ⟨pairs, same⟩
    rw [mapBindings_noList noList, mapBindings_noList noList]

theorem size_induction {p : LispVal → Prop} (step : ∀ v, (∀ w, size w < size v → p w) → p v)
    (v : LispVal) : p v :=
  (measure size).wf.induction v step

theorem desugar_noVec {v : LispVal} (noVec : ∀ items, v ≠ .vec items) (items : List LispVal) :
    desugar v ≠ .vec items := by
  cases v with
  | list items' =>
    obtain ⟨items'', list⟩ := desugar_isList items'
    rw [list]
    exact nofun
  | vec items' => exact absurd rfl (noVec items')
  | _ =>
    rw [desugar_atom (fun _ same => by cases same) noVec]
    exact noVec items

theorem vecToList_noVec (v : LispVal) (items : List LispVal) : vecToList v ≠ .vec items := by
  cases v <;> exact nofun

/-- The pass has nothing left to do in what it gives. -/
theorem desugar_desugar (v : LispVal) : desugar (desugar v) = desugar v := by
  induction v using size_induction with | step v ih
  have each (vs : List LispVal) (small : sizes vs < size v) :
      (vs.map desugar).map desugar = vs.map desugar := by
    rw [List.map_map]
    exact List.map_congr_left fun w mem =>
      ih w (Nat.lt_of_le_of_lt (size_le_sizes mem) small)
  cases shape v with
  | defn k parts =>
    have within := size_parts parts
    rw [desugar_defn k parts, desugar_other kind_define]
    simp only [List.map_cons, List.map_nil]
    rw [ih, ih]
    all_goals
      simp only [size, sizes]
      omega
  | bare k parts => rw [desugar_defn_none k parts, desugar_defn_none k parts]
  | def_ k name value more =>
    rw [desugar_def k, desugar_other kind_define, each]
    simp only [size, sizes]
    omega
  | let_ k bs b body =>
    rw [desugar_let k, List.map_cons, desugar_let k, ← List.map_cons, each, mapBindings_twice]
    · intro e small
      refine ih e ?_
      simp only [size, sizes]
      omega
    · simp only [size, sizes]
      omega
  | fn_ k params b body =>
    have small : size (vecToList params) < size (.list (.sym "" :: params :: b :: body)) := by
      simp only [size, sizes, size_vecToList]
      omega
    have forms := each (b :: body) (by simp only [size, sizes]; omega)
    rw [List.map_cons] at forms
    rw [desugar_fn k, List.map_cons, desugar_fn k,
      vecToList_eq (desugar_noVec (vecToList_noVec params)), ih _ small, forms]
  | short k few => rw [desugar_short k few, desugar_short k few]
  | other k rest =>
    rw [desugar_other k, desugar_other k, each]
    simp only [size, sizes]
    omega
  | @list items noSym =>
    rw [desugar_list noSym, desugar_list, each]
    · simp only [size]
      omega
    · intro head rest same
      match items, same with
      | v :: vs, same =>
        injection same with same
        exact noSym head vs (by rw [desugar_sym same])
  | vec items =>
    rw [desugar_vec, desugar_vec, each]
    simp only [size]
    omega
  | atom noList noVec => rw [desugar_atom noList noVec, desugar_atom noList noVec]


/-! ### What the documented form is, shape by shape -/

def coreBindings : LispVal → Option LispVal
  | .vec items =>
      (if items.all (asPair · |>.isSome) then coreEntries items else coreFlat items).map .list
  | .list items =>
      (if items.all (asPair · |>.isSome) || !isFlat items then coreEntries items
        else coreFlat items).map .list
  | v => some v

section CoreForms

variable {head : String} {rest : List LispVal}

theorem kind_quote : kind "quote" = .other := by decide

theorem core_quote : core (.list (.sym "quote" :: rest)) = some (.list (.sym "quote" :: rest)) := by
  rw [core.eq_def]
  exact if_pos rfl

theorem noQuote {c : Kind} (k : kind head = c) (special : c ≠ .other) : head ≠ "quote" :=
  fun same => special (k.symm.trans (same ▸ kind_quote))

theorem core_defn (k : kind head = .defn) {name params : LispVal} {body : List LispVal}
    (form : defnForm rest = some (name, params, body)) :
    core (.list (.sym head :: rest)) = (coreAll body).map fun body =>
      .list [.sym "define", .list (name :: paramItems (vecToList params)), implicitBegin body] := by
  rw [core.eq_def]
  simp only [if_neg (noQuote k (by decide)), k]
  split
  · rename_i form'
    cases form.symm.trans form'
    cases coreAll body <;> rfl
  · rename_i form'
    cases form.symm.trans form'

theorem core_bare (k : kind head = .defn) (parts : defnParts rest = none) :
    core (.list (.sym head :: rest)) = some (.list (.sym head :: rest)) := by
  rw [core.eq_def]
  simp only [if_neg (noQuote k (by decide)), k]
  split
  · rename_i form
    unfold defnForm at form
    rw [parts] at form
    cases form
  · rfl

theorem core_def (k : kind head = .def_) (name value : LispVal) (more : List LispVal) :
    core (.list (.sym head :: name :: value :: more)) =
      (coreAll (name :: value :: more)).map fun items => .list (.sym "define" :: items) := by
  rw [core.eq_def]
  simp only [if_neg (noQuote k (by decide)), k]
  cases coreAll (name :: value :: more) <;> rfl

theorem core_let (k : kind head = .let_) (bs b : LispVal) (body : List LispVal) :
    core (.list (.sym head :: bs :: b :: body)) =
      (coreBindings bs).bind fun bs => (coreAll (b :: body)).map fun body =>
        .list (.sym head :: bs :: body) := by
  rw [core.eq_def]
  simp only [if_neg (noQuote k (by decide)), k]
  cases bs with
  | vec items =>
    simp only [coreBindings]
    split
    · cases coreEntries items <;> cases coreAll (b :: body) <;> rfl
    · cases coreFlat items <;> cases coreAll (b :: body) <;> rfl
  | list items =>
    simp only [coreBindings]
    split
    · cases coreEntries items <;> cases coreAll (b :: body) <;> rfl
    · cases coreFlat items <;> cases coreAll (b :: body) <;> rfl
  | _ =>
    simp only [coreBindings]
    cases coreAll (b :: body) <;> rfl

theorem core_fn (k : kind head = .fn_) (params b : LispVal) (body : List LispVal) :
    core (.list (.sym head :: params :: b :: body)) = (coreAll (b :: body)).map fun body =>
      .list (.sym head :: vecToList params :: body) := by
  rw [core.eq_def]
  simp only [if_neg (noQuote k (by decide)), k]
  cases coreAll (b :: body) <;> rfl

theorem core_short (k : kind head = .def_ ∨ kind head = .let_ ∨ kind head = .fn_)
    (few : rest.length < 2) :
    core (.list (.sym head :: rest)) = some (.list (.sym head :: rest)) := by
  rw [core.eq_def]
  have other : head ≠ "quote" := by obtain k | k | k := k <;> exact noQuote k (by decide)
  simp only [if_neg other]
  match rest, few with
  | [], _ => obtain k | k | k := k <;> simp only [k]
  | [x], _ => obtain k | k | k := k <;> simp only [k]

theorem core_other (k : kind head = .other) (notQuoted : head ≠ "quote") :
    core (.list (.sym head :: rest)) = (coreAll rest).map fun items =>
      .list (.sym head :: items) := by
  rw [core.eq_def]
  simp only [if_neg notQuoted, k]
  cases coreAll rest <;> rfl

theorem core_list {items : List LispVal} (noSym : ∀ head rest, items ≠ .sym head :: rest) :
    core (.list items) = (coreAll items).map .list := by
  rw [core]
  · cases coreAll items <;> rfl
  · exact noSym

theorem core_vec (items : List LispVal) : core (.vec items) = (coreAll items).map .vec := by
  rw [core]
  cases coreAll items <;> rfl

theorem core_atom {v : LispVal} (noList : ∀ items, v ≠ .list items)
    (noVec : ∀ items, v ≠ .vec items) : core v = some v := by
  rw [core]
  · exact fun _ _ => noList _
  · exact noList
  · exact noVec

end CoreForms


/-! ### Programs without surface forms -/

/-- There is no surface form in it, but where it is quoted. -/
def SurfaceFree : LispVal → Prop
  | .list (.sym head :: rest) =>
      if head = "quote" then True
      else
        match kind head, rest with
        | .defn, rest => defnParts rest = none
        | .def_, _ :: _ :: _ => False
        | .let_, .vec _ :: _ :: _ => False
        | .let_, .list items :: b :: body =>
            (items.all (asPair · |>.isSome) || !isFlat items) = true ∧
              (∀ x e, .list [x, e] ∈ items → SurfaceFree e) ∧ ∀ v ∈ b :: body, SurfaceFree v
        | .let_, _ :: b :: body => ∀ v ∈ b :: body, SurfaceFree v
        | .fn_, params :: b :: body =>
            (∀ items, params ≠ .vec items) ∧ ∀ v ∈ b :: body, SurfaceFree v
        | .other, rest => ∀ v ∈ rest, SurfaceFree v
        | _, _ => True
  | .list items => ∀ v ∈ items, SurfaceFree v
  | .vec items => ∀ v ∈ items, SurfaceFree v
  | _ => True
termination_by v => size v
decreasing_by
  all_goals
    have bound := size_le_sizes ‹_ ∈ _›
    simp only [size, sizes] at bound ⊢
    omega

theorem coreAll_iff {f : LispVal → LispVal} {vs : List LispVal} :
    coreAll vs = some (vs.map f) ↔ ∀ v ∈ vs, core v = some (f v) := by
  induction vs with
  | nil => simp [coreAll]
  | cons v vs ih =>
    rw [coreAll, List.forall_mem_cons, ← ih, List.map_cons]
    cases core v <;> cases coreAll vs <;> simp

theorem coreAll_self {vs : List LispVal} (self : ∀ v ∈ vs, core v = some v) :
    coreAll vs = some vs := by
  have mapped := coreAll_iff (f := id).mpr self
  rwa [List.map_id] at mapped

theorem coreEntries_iff {f : LispVal → LispVal} {ps : List LispVal} :
    coreEntries ps = some (ps.map (mapValue f)) ↔
      ∀ x e, .list [x, e] ∈ ps → core e = some (f e) := by
  induction ps with
  | nil => simp [coreEntries]
  | cons p ps ih =>
    rw [coreEntries, List.map_cons]
    split
    · rename_i x e pair
      cases asPair_eq pair
      have value : mapValue f (.list [x, e]) = .list [x, f e] := rfl
      rw [value]
      have split : (∀ y d, .list [y, d] ∈ LispVal.list [x, e] :: ps → core d = some (f d)) ↔
          core e = some (f e) ∧ ∀ y d, .list [y, d] ∈ ps → core d = some (f d) := by
        constructor
        · exact fun all => ⟨all x e List.mem_cons_self,
            fun y d mem => all y d (List.mem_cons_of_mem _ mem)⟩
        · rintro ⟨here, later⟩ y d mem
          obtain same | mem := List.mem_cons.mp mem
          · cases same
            exact here
          · exact later y d mem
      rw [split, ← ih]
      cases core e <;> cases coreEntries ps <;> simp
    · rename_i pair
      have value : mapValue f p = p := by unfold mapValue; rw [pair]
      rw [value]
      have split : (∀ y d, .list [y, d] ∈ p :: ps → core d = some (f d)) ↔
          ∀ y d, .list [y, d] ∈ ps → core d = some (f d) := by
        constructor
        · exact fun all y d mem => all y d (List.mem_cons_of_mem _ mem)
        · intro later y d mem
          obtain same | mem := List.mem_cons.mp mem
          · cases same
            cases pair
          · exact later y d mem
      rw [split, ← ih]
      cases coreEntries ps <;> simp

/-- A program without surface forms is its own core form. -/
theorem core_of_surfaceFree (v : LispVal) (free : SurfaceFree v) : core v = some v := by
  induction v using size_induction with | step v ih
  have each (vs : List LispVal) (small : sizes vs < size v) (free : ∀ w ∈ vs, SurfaceFree w) :
      coreAll vs = some vs :=
    coreAll_self fun w mem =>
      ih w (Nat.lt_of_le_of_lt (size_le_sizes mem) small) (free w mem)
  cases shape v with
  | bare k parts => exact core_bare k parts
  | short k few => exact core_short k few
  | atom noList noVec => exact core_atom noList noVec
  | vec items =>
    rw [SurfaceFree] at free
    rw [core_vec, each items (by simp only [size]; omega) free]
    rfl
  | list noSym =>
    rw [SurfaceFree] at free
    · rw [core_list noSym, each _ (by simp only [size]; omega) free]
      rfl
    · exact noSym
  | @other head k rest =>
    by_cases quoted : head = "quote"
    · subst quoted
      exact core_quote
    · rw [SurfaceFree.eq_def] at free
      simp only [if_neg quoted, k] at free
      rw [core_other k quoted, each rest (by simp only [size, sizes]; omega) free]
      rfl
  | defn k parts =>
    rw [SurfaceFree.eq_def] at free
    simp only [if_neg (noQuote k (by decide)), k] at free
    cases parts.symm.trans free
  | def_ k name value more =>
    rw [SurfaceFree.eq_def] at free
    simp only [if_neg (noQuote k (by decide)), k] at free
  | fn_ k params b body =>
    rw [SurfaceFree.eq_def] at free
    simp only [if_neg (noQuote k (by decide)), k] at free
    rw [core_fn k, vecToList_eq free.1, each _ (by simp only [size, sizes]; omega) free.2]
    rfl
  | let_ k bs b body =>
    rw [SurfaceFree.eq_def] at free
    simp only [if_neg (noQuote k (by decide)), k] at free
    cases bs with
    | vec items => exact free.elim
    | list items =>
      obtain ⟨paired, values, forms⟩ := free
      have entries : coreEntries items = some (items.map (mapValue id)) := by
        refine coreEntries_iff.mpr fun x e mem => ih e ?_ (values x e mem)
        have bound := size_le_sizes mem
        simp only [size, sizes] at bound ⊢
        omega
      rw [mapValue_eq_self (f := id).mpr fun _ _ _ => rfl] at entries
      rw [core_let k, each _ (by simp only [size, sizes]; omega) forms, coreBindings, if_pos paired,
        entries]
      rfl
    | _ =>
      rw [core_let k, each _ (by simp only [size, sizes]; omega) free]
      rfl

/-! ### Where the pass gives the documented form -/

/-- The values of names and values in turn. -/
def inits : List LispVal → List LispVal
  | _ :: e :: items => e :: inits items
  | _ => []

theorem size_inits {items : List LispVal} {e : LispVal} (mem : e ∈ inits items) :
    size e ≤ sizes items := by
  induction items using inits.induct with
  | case1 x e' items ih =>
    rw [inits, List.mem_cons] at mem
    simp only [sizes]
    obtain rfl | mem := mem
    · omega
    · have later := ih mem
      omega
  | case2 items none =>
    rw [inits] at mem
    · cases mem
    · exact none

/-- Quoted data has no form in it that the pass rewrites, the name of a `defn` stands before its
parameters, parameters have no such form either, bindings in a vector are names and values in turn
and not a list of pairs, in a list they are either, and no value of names and values in turn is a
vector. -/
def Plain : LispVal → Prop
  | .list (.sym head :: rest) =>
      if head = "quote" then ∀ v ∈ rest, Inert v
      else
        match kind head, rest with
        | .defn, rest =>
            match _ : defnForm rest with
            | some (name, params, body) =>
                swapped rest = false ∧ Inert (.list (name :: paramItems (vecToList params))) ∧
                  ∀ v ∈ body, Plain v
            | none => True
        | .def_, name :: value :: more => ∀ v ∈ name :: value :: more, Plain v
        | .let_, .vec items :: b :: body =>
            items.all (asPair · |>.isSome) = false ∧ items.length % 2 = 0 ∧
              (∀ e ∈ inits items, (∀ es, e ≠ .vec es) ∧ Plain e) ∧ ∀ v ∈ b :: body, Plain v
        | .let_, .list items :: b :: body =>
            (if items.all (asPair · |>.isSome) then ∀ x e, .list [x, e] ∈ items → Plain e
              else isFlat items = true ∧ ∀ e ∈ inits items, (∀ es, e ≠ .vec es) ∧ Plain e) ∧
              ∀ v ∈ b :: body, Plain v
        | .let_, _ :: b :: body => ∀ v ∈ b :: body, Plain v
        | .fn_, params :: b :: body => Inert (vecToList params) ∧ ∀ v ∈ b :: body, Plain v
        | .other, rest => ∀ v ∈ rest, Plain v
        | _, _ => True
  | .list items => ∀ v ∈ items, Plain v
  | .vec items => ∀ v ∈ items, Plain v
  | _ => True
termination_by v => size v
decreasing_by
  · have within := sizes_form ‹_›
    have bound := size_le_sizes ‹_ ∈ _›
    simp only [size, sizes]
    omega
  · have bound := size_le_sizes ‹_ ∈ _›
    simp only [size, sizes] at bound ⊢
    omega
  · have bound := size_inits ‹_ ∈ _›
    simp only [size, sizes]
    omega
  · have bound := size_le_sizes ‹_ ∈ _›
    simp only [size, sizes] at bound ⊢
    omega
  · have bound := size_le_sizes ‹_ ∈ _›
    simp only [size, sizes] at bound ⊢
    omega
  · have bound := size_inits ‹_ ∈ _›
    simp only [size, sizes]
    omega
  all_goals
    have bound := size_le_sizes ‹_ ∈ _›
    simp only [size, sizes] at bound ⊢
    omega


theorem isFlat_even {items : List LispVal} (flat : isFlat items = true) : items.length % 2 = 0 := by
  induction items using isFlat.induct with
  | case1 => rfl
  | case2 s e items ih =>
    have later := ih flat
    simp only [List.length_cons]
    omega
  | case3 items noNil noName =>
    rw [isFlat] at flat
    · cases flat
    · exact noNil
    · exact noName

theorem core_inner {e : LispVal} (noVec : ¬∀ es, e ≠ .vec es) :
    core e ≠ some (desugar (vecToListInner e)) := by
  cases e with
  | vec es =>
    obtain ⟨items, list⟩ := desugar_isList (vecToListInners es)
    rw [vecToListInner, list, core_vec]
    cases coreAll es <;> exact nofun
  | _ => exact absurd (fun es same => by cases same) noVec

theorem vecToListInner_eq {v : LispVal} (noVec : ∀ items, v ≠ .vec items) :
    vecToListInner v = v := by
  cases v with
  | vec items => exact absurd rfl (noVec items)
  | _ => rfl

theorem coreFlat_iff {items : List LispVal} :
    coreFlat items = some ((vecToPairs items).map (mapValue desugar)) ↔
      items.length % 2 = 0 ∧
        ∀ e ∈ inits items, (∀ es, e ≠ .vec es) ∧ core e = some (desugar e) := by
  induction items using inits.induct with
  | case2 items none =>
    match items, none with
    | [], _ => simp [coreFlat, vecToPairs, inits]
    | [x], _ => simp [coreFlat]
    | x :: e :: items, none => exact absurd rfl (none x e items)
  | case1 x e items ih =>
    rw [coreFlat, vecToPairs, List.map_cons, inits, List.forall_mem_cons]
    have value : mapValue desugar (.list [vecToListInner x, vecToListInner e]) =
        .list [vecToListInner x, desugar (vecToListInner e)] := rfl
    have even : (x :: e :: items).length % 2 = 0 ↔ items.length % 2 = 0 := by
      simp only [List.length_cons]
      omega
    rw [value, even, and_left_comm, ← ih]
    by_cases noVec : ∀ es, e ≠ .vec es
    · rw [vecToListInner_eq noVec, and_iff_right noVec]
      cases core e <;> cases coreFlat items <;> simp
    · have differ := core_inner noVec
      refine iff_of_false (fun same => differ ?_) fun both => noVec both.1.1
      revert same
      cases core e <;> cases coreFlat items <;> simp +contextual

theorem length_coreAll {vs ws : List LispVal} (all : coreAll vs = some ws) :
    ws.length = vs.length := by
  induction vs generalizing ws with
  | nil =>
    rw [coreAll] at all
    cases all
    rfl
  | cons v vs ih =>
    rw [coreAll] at all
    obtain ⟨w, -, all⟩ := Option.bind_eq_some_iff.mp all
    obtain ⟨ws', later, all⟩ := Option.bind_eq_some_iff.mp all
    cases all
    rw [List.length_cons, List.length_cons, ih later]

theorem coreAll_cons {v w : LispVal} {vs ws : List LispVal} :
    coreAll (v :: vs) = some (w :: ws) ↔ core v = some w ∧ coreAll vs = some ws := by
  rw [coreAll]
  cases core v <;> cases coreAll vs <;> simp

theorem length_coreEntries {ps qs : List LispVal} (all : coreEntries ps = some qs) :
    qs.length = ps.length := by
  induction ps generalizing qs with
  | nil =>
    rw [coreEntries] at all
    cases all
    rfl
  | cons p ps ih =>
    rw [coreEntries] at all
    split at all
    · obtain ⟨e', -, all⟩ := Option.bind_eq_some_iff.mp all
      obtain ⟨p', -, all⟩ := Option.bind_eq_some_iff.mp all
      obtain ⟨ps', later, all⟩ := Option.bind_eq_some_iff.mp all
      cases all
      rw [List.length_cons, List.length_cons, ih later]
    · obtain ⟨p', -, all⟩ := Option.bind_eq_some_iff.mp all
      obtain ⟨ps', later, all⟩ := Option.bind_eq_some_iff.mp all
      cases all
      rw [List.length_cons, List.length_cons, ih later]

theorem desugar_implicitBegin (body : List LispVal) :
    desugar (implicitBegin body) = implicitBegin (body.map desugar) := by
  rcases body with _ | ⟨b, _ | ⟨b', bs⟩⟩
  · exact desugar_atom (fun _ same => by cases same) (fun _ same => by cases same)
  · rfl
  · exact desugar_other (by decide)

theorem implicitBegin_inj (bs bs' : List LispVal) (len : bs.length = bs'.length) :
    implicitBegin bs = implicitBegin bs' ↔ bs = bs' := by
  match bs, bs', len with
  | [], [], _ => simp
  | [b], [b'], _ => simp [implicitBegin]
  | b :: c :: bs, b' :: c' :: bs', _ => simp [implicitBegin]

theorem map_some_iff {α β : Type} {g : α → β} (inj : Function.Injective g) {o : Option α} {a : α} :
    o.map g = some (g a) ↔ o = some a := by
  cases o with
  | none => simp
  | some b => simp [inj.eq_iff]

theorem list_injective (head : LispVal) :
    Function.Injective fun items => LispVal.list (head :: items) := by
  intro items items' same
  injection same with same
  injection same

theorem core_isList {items : List LispVal} {w : LispVal} (same : core (.list items) = some w) :
    ∃ items', w = .list items' := by
  have mapped {vs : List LispVal} {g : List LispVal → List LispVal}
      (same : (coreAll vs).map (fun vs => .list (g vs)) = some w) : ∃ items', w = .list items' := by
    obtain ⟨vs', -, rfl⟩ := Option.map_eq_some_iff.mp same
    exact ⟨_, rfl⟩
  cases shape (.list items) with
  | @defn head rest name params body k parts =>
    have form : defnForm rest = some (name, params, if swapped rest then body.tail else body) := by
      rw [defnForm, parts]
      rfl
    rw [core_defn k form] at same
    exact mapped same
  | bare k parts => exact ⟨_, Option.some.inj (same.symm.trans (core_bare k parts))⟩
  | def_ k name value more => exact mapped (core_def k name value more ▸ same)
  | fn_ k params b body => exact mapped (core_fn k params b body ▸ same)
  | short k few => exact ⟨_, Option.some.inj (same.symm.trans (core_short k few))⟩
  | list noSym => exact mapped (core_list noSym ▸ same)
  | @other head k rest =>
    by_cases quoted : head = "quote"
    · subst quoted
      exact ⟨_, Option.some.inj (same.symm.trans core_quote)⟩
    · exact mapped (core_other k quoted ▸ same)
  | let_ k bs b body =>
    rw [core_let k] at same
    obtain ⟨bs', -, same⟩ := Option.bind_eq_some_iff.mp same
    exact mapped same
  | atom noList _ => exact absurd rfl (noList items)

theorem core_sym {v : LispVal} {s : String} (same : core v = some (.sym s)) : v = .sym s := by
  cases v with
  | list items =>
    obtain ⟨items', list⟩ := core_isList same
    cases list
  | vec items =>
    rw [core_vec] at same
    obtain ⟨items', -, vec⟩ := Option.map_eq_some_iff.mp same
    cases vec
  | _ =>
    rw [core_atom (fun _ same => by cases same) (fun _ same => by cases same)] at same
    exact Option.some.inj same

/-- What has a core form that begins with a symbol begins with it, unless it is a definition. -/
theorem core_head {items items' : List LispVal} {head : String} (noDefine : head ≠ "define")
    (same : core (.list items) = some (.list (.sym head :: items'))) :
    ∃ rest, items = .sym head :: rest := by
  cases shape (.list items) with
  | @defn head' rest name params body k parts =>
    have form : defnForm rest = some (name, params, if swapped rest then body.tail else body) := by
      rw [defnForm, parts]
      rfl
    rw [core_defn k form] at same
    obtain ⟨vs, -, same⟩ := Option.map_eq_some_iff.mp same
    cases same
    exact absurd rfl noDefine
  | bare k parts =>
    cases (core_bare k parts).symm.trans same
    exact ⟨_, rfl⟩
  | def_ k name value more =>
    rw [core_def k] at same
    obtain ⟨vs, -, same⟩ := Option.map_eq_some_iff.mp same
    cases same
    exact absurd rfl noDefine
  | fn_ k params b body =>
    rw [core_fn k] at same
    obtain ⟨vs, -, same⟩ := Option.map_eq_some_iff.mp same
    cases same
    exact ⟨_, rfl⟩
  | short k few =>
    cases (core_short k few).symm.trans same
    exact ⟨_, rfl⟩
  | list noSym =>
    rw [core_list noSym] at same
    obtain ⟨vs, all, same⟩ := Option.map_eq_some_iff.mp same
    cases same
    match items, noSym, all with
    | [], _, all => cases (coreAll.eq_def []).symm.trans all
    | v :: items, noSym, all =>
      exact absurd (by rw [core_sym (coreAll_cons.mp all).1]) (noSym head items)
  | @other head' k rest =>
    by_cases quoted : head' = "quote"
    · subst quoted
      cases core_quote.symm.trans same
      exact ⟨_, rfl⟩
    · rw [core_other k quoted] at same
      obtain ⟨vs, -, same⟩ := Option.map_eq_some_iff.mp same
      cases same
      exact ⟨_, rfl⟩
  | let_ k bs b body =>
    rw [core_let k] at same
    obtain ⟨bs', -, same⟩ := Option.bind_eq_some_iff.mp same
    obtain ⟨vs, -, same⟩ := Option.map_eq_some_iff.mp same
    cases same
    exact ⟨_, rfl⟩
  | atom noList _ => exact absurd rfl (noList items)

/-- A body that begins with its own name has no core form of its own. -/
theorem core_swapped (s : String) (b : LispVal) :
    core b ≠ some (.list [.sym "begin", .sym s, desugar b]) := by
  induction b using size_induction generalizing s with | step b ih
  intro same
  cases b with
  | list items =>
    obtain ⟨rest, rfl⟩ := core_head (by decide) same
    have begin_ : kind "begin" = .other := by decide
    rw [core_other begin_ (by decide)] at same
    obtain ⟨vs, all, same⟩ := Option.map_eq_some_iff.mp same
    cases same
    have len := length_coreAll all
    match rest, len, all, ih with
    | [b₁, b₂], _, all, ih =>
      rw [desugar_other begin_, List.map_cons, List.map_cons, List.map_nil] at all
      obtain ⟨first, all⟩ := coreAll_cons.mp all
      obtain ⟨second, -⟩ := coreAll_cons.mp all
      cases core_sym first
      rw [desugar_atom (fun _ same => by cases same) (fun _ same => by cases same)] at second
      refine ih b₂ ?_ s second
      simp only [size, sizes]
      omega
  | vec items =>
    rw [core_vec] at same
    obtain ⟨items', -, vec⟩ := Option.map_eq_some_iff.mp same
    cases vec
  | _ =>
    rw [core_atom (fun _ same => by cases same) (fun _ same => by cases same)] at same
    cases same

theorem swapped_parts {rest : List LispVal} {name params : LispVal} {body : List LispVal}
    (parts : defnParts rest = some (name, params, body)) (swap : swapped rest = true) :
    ∃ s, body = .sym s :: body.tail := by
  unfold swapped at swap
  split at swap
  · cases parts
    exact ⟨_, rfl⟩
  · cases parts
    exact ⟨_, rfl⟩
  · cases swap

theorem defn_iff {rest : List LispVal} {name params : LispVal} {body : List LispVal}
    (parts : defnParts rest = some (name, params, body)) :
    (coreAll (if swapped rest then body.tail else body)).map (fun body =>
        LispVal.list [.sym "define", .list (name :: paramItems (vecToList params)),
          implicitBegin body]) =
      some (.list [.sym "define", desugar (.list (name :: paramItems (vecToList params))),
        desugar (implicitBegin body)]) ↔
      swapped rest = false ∧ desugar (.list (name :: paramItems (vecToList params))) =
        .list (name :: paramItems (vecToList params)) ∧ coreAll body = some (body.map desugar) := by
  rw [desugar_implicitBegin]
  cases swap : swapped rest with
  | false =>
    cases all : coreAll body with
    | none => simp [all]
    | some bs =>
      have len := length_coreAll all
      have begun := implicitBegin_inj bs (body.map desugar) (by simpa using len)
      simp [all, begun, eq_comm]
  | true =>
    obtain ⟨s, begins⟩ := swapped_parts parts swap
    refine iff_of_false (fun same => ?_) nofun
    rw [if_pos rfl] at same
    obtain ⟨bs, all, same⟩ := Option.map_eq_some_iff.mp same
    injection same with same
    injection same with _ same
    injection same with _ same
    injection same with same
    rw [begins, List.map_cons,
      desugar_atom (fun _ same => by cases same) (fun _ same => by cases same)] at same
    have len := length_coreAll all
    match rest' : body.tail, bs, len, all, same with
    | [], [], _, _, same => cases same
    | [b], [b'], _, all, same =>
      rw [coreAll_cons] at all
      change b' = .list [.sym "begin", .sym s, desugar b] at same
      exact core_swapped s b (same ▸ all.1)
    | b :: c :: rest', b' :: c' :: bs, len, _, same =>
      injection same with same
      injection same with _ same
      have longer := congrArg List.length same
      simp only [List.length_cons, List.length_map] at len longer
      omega

theorem bindings_iff {bs : LispVal}
    (ih : ∀ e, size e < size bs → (core e = some (desugar e) ↔ Plain e)) :
    coreBindings bs = some (mapBindings desugar bs) ↔
      match bs with
      | .vec items =>
        items.all (asPair · |>.isSome) = false ∧ items.length % 2 = 0 ∧
          ∀ e ∈ inits items, (∀ es, e ≠ .vec es) ∧ Plain e
      | .list items =>
        if items.all (asPair · |>.isSome) then ∀ x e, .list [x, e] ∈ items → Plain e
        else isFlat items = true ∧ ∀ e ∈ inits items, (∀ es, e ≠ .vec es) ∧ Plain e
      | _ => True := by
  have flat {items : List LispVal} (small : sizes items < size bs) :
      (coreFlat items).map LispVal.list = some (.list ((vecToPairs items).map (mapValue desugar))) ↔
        items.length % 2 = 0 ∧ ∀ e ∈ inits items, (∀ es, e ≠ .vec es) ∧ Plain e := by
    rw [map_some_iff fun _ _ same => LispVal.list.inj same, coreFlat_iff]
    exact and_congr_right fun _ => map_congr_iff fun e mem => and_congr_right fun _ =>
      ih e (Nat.lt_of_le_of_lt (size_inits mem) small)
  unfold mapBindings pairBindings
  cases bs with
  | vec items =>
    cases paired : items.all (asPair · |>.isSome) with
    | true =>
      simp only [coreBindings, paired, if_true]
      refine iff_of_false (fun same => ?_) nofun
      obtain ⟨_, -, same⟩ := Option.map_eq_some_iff.mp same
      cases same
    | false =>
      simp only [coreBindings, paired, Bool.false_eq_true, if_false, true_and]
      exact flat (by simp only [size]; omega)
  | list items =>
    cases paired : items.all (asPair · |>.isSome) with
    | true =>
      simp only [coreBindings, paired, if_true, Bool.true_or]
      rw [map_some_iff fun _ _ same => LispVal.list.inj same, coreEntries_iff]
      have small {x e : LispVal} (mem : .list [x, e] ∈ items) : size e < size (.list items) := by
        have bound := size_le_sizes mem
        simp only [size, sizes] at bound ⊢
        omega
      exact forall_congr' fun x => forall_congr' fun e =>
        ⟨fun same mem => (ih e (small mem)).mp (same mem),
          fun same mem => (ih e (small mem)).mpr (same mem)⟩
    | false =>
      cases isflat : isFlat items with
      | true =>
        simp only [coreBindings, paired, isflat, Bool.false_eq_true, if_false, true_and,
          Bool.not_true, Bool.or_false]
        rw [flat (by simp only [size]; omega)]
        exact and_iff_right (isFlat_even isflat)
      | false =>
        simp only [coreBindings, paired, isflat, Bool.false_eq_true, if_false, false_and,
          Bool.not_false, Bool.or_true, if_true, iff_false]
        intro same
        obtain ⟨qs, entries, same⟩ := Option.map_eq_some_iff.mp same
        cases same
        have len := length_coreEntries entries
        rw [List.length_map, length_vecToPairs] at len
        have empty : items = [] := List.length_eq_zero_iff.mp (by omega)
        subst empty
        cases paired
  | _ => simp [coreBindings]

/-- The pass gives an expression's documented form exactly where it is plain. -/
theorem core_eq_iff (v : LispVal) : core v = some (desugar v) ↔ Plain v := by
  induction v using size_induction with | step v ih
  have each (vs : List LispVal) (small : sizes vs < size v) :
      coreAll vs = some (vs.map desugar) ↔ ∀ w ∈ vs, Plain w := by
    rw [coreAll_iff]
    exact map_congr_iff fun w mem => ih w (Nat.lt_of_le_of_lt (size_le_sizes mem) small)
  cases shape v with
  | bare k parts =>
    rw [core_bare k parts, desugar_defn_none k parts, Plain.eq_def]
    simp only [if_neg (noQuote k (by decide)), k, true_iff]
    split
    · rename_i form
      unfold defnForm at form
      rw [parts] at form
      cases form
    · trivial
  | @short head rest k few =>
    rw [core_short k few, desugar_short k few, Plain.eq_def]
    have notQuoted : head ≠ "quote" := by obtain k | k | k := k <;> exact noQuote k (by decide)
    simp only [if_neg notQuoted, true_iff]
    match rest, few with
    | [], _ => obtain k | k | k := k <;> simp only [k]
    | [x], _ => obtain k | k | k := k <;> simp only [k]
  | atom noList noVec =>
    rw [core_atom noList noVec, desugar_atom noList noVec, Plain]
    · exact iff_of_true rfl trivial
    · exact fun _ _ => noList _
    · exact noList
    · exact noVec
  | vec items =>
    rw [core_vec, desugar_vec, map_some_iff fun _ _ same => LispVal.vec.inj same,
      each items (by simp only [size]; omega), Plain]
  | @list items noSym =>
    rw [core_list noSym, desugar_list noSym, map_some_iff fun _ _ same => LispVal.list.inj same,
      each items (by simp only [size]; omega), Plain]
    exact noSym
  | @other head k rest =>
    by_cases quoted : head = "quote"
    · subst quoted
      rw [core_quote, desugar_other k, Plain.eq_def]
      simp only [if_pos, Option.some.injEq]
      rw [forms_eq, eq_comm, map_eq_self]
      exact map_congr_iff fun v _ => desugar_eq_self_iff v
    · rw [core_other k quoted, desugar_other k, map_some_iff (list_injective _),
        each rest (by simp only [size, sizes]; omega), Plain.eq_def]
      simp only [if_neg quoted, k]
  | @defn head rest name params body k parts =>
    have form : defnForm rest = some (name, params, if swapped rest then body.tail else body) := by
      rw [defnForm, parts]
      rfl
    have small := sizes_form form
    rw [core_defn k form, desugar_defn k parts, defn_iff parts, Plain.eq_def]
    simp only [if_neg (noQuote k (by decide)), k]
    split
    · rename_i form'
      cases form.symm.trans form'
      refine and_congr_right fun straight => ?_
      rw [straight] at small ⊢
      rw [desugar_eq_self_iff, each body (by simp only [size, sizes]; simp at small; omega)]
      rfl
    · rename_i form'
      cases form.symm.trans form'
  | def_ k name value more =>
    rw [core_def k, desugar_def k, map_some_iff (list_injective _),
        each _ (by simp only [size, sizes]; omega), Plain.eq_def]
    simp only [if_neg (noQuote k (by decide)), k]
  | fn_ k params b body =>
    rw [core_fn k, desugar_fn k, Plain.eq_def]
    simp only [if_neg (noQuote k (by decide)), k]
    rw [← each _ (by simp only [size, sizes]; omega), ← desugar_eq_self_iff]
    cases coreAll (b :: body) <;> simp [eq_comm]
  | @let_ head k bs b body =>
    have split : core (.list (.sym head :: bs :: b :: body)) =
          some (desugar (.list (.sym head :: bs :: b :: body))) ↔
        coreBindings bs = some (mapBindings desugar bs) ∧
          coreAll (b :: body) = some ((b :: body).map desugar) := by
      rw [core_let k, desugar_let k]
      cases coreBindings bs <;> cases coreAll (b :: body) <;> simp
    rw [split, bindings_iff fun e small => ih e (by simp only [size, sizes] at small ⊢; omega),
      each _ (by simp only [size, sizes]; omega), Plain.eq_def]
    simp only [if_neg (noQuote k (by decide)), k]
    cases bs <;> simp [and_assoc]

/-- The pass gives every form of a program its documented form, has nothing left to do in what it
gives, and gives a program without surface forms back. -/
def Conservative (exprs : List LispVal) : Prop :=
  coreAll exprs = some (desugarAll exprs) ∧ desugarAll (desugarAll exprs) = desugarAll exprs ∧
    ((∀ v ∈ exprs, SurfaceFree v) → desugarAll exprs = exprs)

/-- The pass over a program is conservative exactly where every expression is plain. -/
theorem conservative_iff_plain (exprs : List LispVal) :
    Conservative exprs ↔ ∀ v ∈ exprs, Plain v := by
  rw [← map_congr_iff fun v _ => core_eq_iff v, ← coreAll_iff]
  refine ⟨fun conservative => conservative.1, fun documented => ⟨documented, ?_, fun free => ?_⟩⟩
  · rw [desugarAll, desugarAll, List.map_map]
    exact List.map_congr_left fun v _ => desugar_desugar v
  · have self := coreAll_self fun v mem => core_of_surfaceFree v (free v mem)
    exact Option.some.inj (documented.symm.trans self)

/-- In `(let [x 1 y] x)` the binding of `y` is dropped. -/
theorem odd_let_not_conservative :
    ¬Conservative [.list [.sym "let", .vec [.sym "x", .num 1, .sym "y"], .sym "x"]] := by
  intro conservative
  have documented := (coreAll_cons.mp conservative.1).1
  rw [core_let (by decide)] at documented
  simp [coreBindings, asPair, coreFlat] at documented

end Clojure

end LispRlm.Surface
