import LispRlm.Foundation.Effect
import LispRlm.Bytecode.Values

/-! Quasiquotes: what a template's expansion builds when it is evaluated. -/

namespace LispRlm.Surface.Quasiquote

open Foundation (Eff)
open Bytecode (LispVal)

variable {σ ε : Type}

/-! ### The expansion -/

/-- The operand of a form with one operand and this head. -/
def operand (head : String) : LispVal → Option LispVal
  | .list [.sym s, e] => if s = head then some e else none
  | _ => none

/-- The list of what stands before a splice, if anything does. -/
def flush : List LispVal → List LispVal
  | [] => []
  | current => [.list (.sym "list" :: current)]

def joined : List LispVal → LispVal
  | [] => .list [.sym "list"]
  | [segment] => segment
  | segments => .list (.sym "append" :: segments)

mutual

def expandQuasiquote : LispVal → LispVal
  | .list items =>
      match operand "unquote" (.list items) with
      | some e => e
      | none =>
          if items.any (operand "unquote-splicing" · |>.isSome) then joined (segments [] items)
          else .list (.sym "list" :: expandItems items)
  | .sym s => .list [.sym "quote", .sym s]
  | v => v

def expandItems : List LispVal → List LispVal
  | [] => []
  | item :: items => expandQuasiquote item :: expandItems items

def segments (current : List LispVal) : List LispVal → List LispVal
  | [] => flush current
  | item :: items =>
      match operand "unquote-splicing" item with
      | some e => flush current ++ e :: segments [] items
      | none => segments (current ++ [expandQuasiquote item]) items

end

/-! ### Its evaluation -/

/-- What `append` takes from an argument. -/
def spread : LispVal → List LispVal
  | .list vals => vals
  | v => [v]

def append (args : List LispVal) : List LispVal := args.flatMap spread

mutual

/-- An expression's run, where `append` is not bound to anything else. `other` runs every expression
that is no literal, no `quote`, and no call of `list` or `append`. -/
def eval (other : LispVal → Eff σ ε LispVal) : LispVal → Eff σ ε LispVal
  | .list (.sym head :: args) =>
      if head = "list" then .list <$> evalArgs other args
      else if head = "append" then (fun vals => .list (append vals)) <$> evalArgs other args
      else match operand "quote" (.list (.sym head :: args)) with
        | some v => pure v
        | none => other (.list (.sym head :: args))
  | .nil => pure .nil
  | .bool b => pure (.bool b)
  | .num n => pure (.num n)
  | .u64 n => pure (.u64 n)
  | .float bits => pure (.float bits)
  | .str s => pure (.str s)
  | e => other e

def evalArgs (other : LispVal → Eff σ ε LispVal) : List LispVal → Eff σ ε (List LispVal)
  | [] => pure []
  | e :: es => do
      let v ← eval other e
      let vs ← evalArgs other es
      pure (v :: vs)

end

/-! ### What a template stands for -/

/-- A filled template fails where a splice's value is no list, or as one of its expressions does. -/
inductive Fault (ε : Type)
  | notAList
  | raised (e : ε)

def raising {α : Type} (m : Eff σ ε α) : Eff σ (Fault ε) α := fun s =>
  match m s with
  | .ok a s' => .ok a s'
  | .error e s' => .error (.raised e) s'

def elements : LispVal → Eff σ (Fault ε) (List LispVal)
  | .list vals => pure vals
  | _ => throw .notAList

mutual

/-- The template with its unquotes replaced by their values and its splices by the elements of
theirs, from left to right. A quasiquote in it is a list like any other. -/
def fill (run : LispVal → Eff σ ε LispVal) : LispVal → Eff σ (Fault ε) LispVal
  | .list items =>
      match operand "unquote" (.list items) with
      | some e => raising (run e)
      | none => .list <$> fillItems run items
  | .sym s => pure (.sym s)
  | v => raising (run v)

def fillItems (run : LispVal → Eff σ ε LispVal) : List LispVal → Eff σ (Fault ε) (List LispVal)
  | [] => pure []
  | item :: items => do
      let first ← match operand "unquote-splicing" item with
        | some e => raising (run e) >>= elements
        | none => (fun v => [v]) <$> fill run item
      let later ← fillItems run items
      pure (first ++ later)

end

mutual

/-- Whenever a splice is reached, its value is a list. -/
def SplicesLists (run : LispVal → Eff σ ε LispVal) : LispVal → σ → Prop
  | .list items, s => operand "unquote" (.list items) = none → ItemsSpliceLists run items s
  | _, _ => True

def ItemsSpliceLists (run : LispVal → Eff σ ε LispVal) : List LispVal → σ → Prop
  | [], _ => True
  | item :: items, s =>
      match operand "unquote-splicing" item with
      | some e => ∀ v s', run e s = .ok v s' →
          (∃ vals, v = .list vals) ∧ ItemsSpliceLists run items s'
      | none => SplicesLists run item s ∧
          ∀ v s', fill run item s = .ok v s' → ItemsSpliceLists run items s'

end

/-! ### What the expansion builds -/

variable {other : LispVal → Eff σ ε LispVal}

theorem evalArgs_append (es es' : List LispVal) :
    evalArgs other (es ++ es') =
      evalArgs other es >>= fun vs => (fun vs' => vs ++ vs') <$> evalArgs other es' := by
  induction es with
  | nil => simp [evalArgs]
  | cons e es ih => simp [evalArgs, ih]

theorem eval_list (es : List LispVal) :
    eval other (.list (.sym "list" :: es)) = .list <$> evalArgs other es := by
  rw [eval, if_pos rfl]

theorem eval_append (es : List LispVal) :
    eval other (.list (.sym "append" :: es)) =
      (fun vals => .list (append vals)) <$> evalArgs other es := by
  rw [eval, if_neg (by decide), if_pos rfl]

theorem eval_quote (v : LispVal) : eval other (.list [.sym "quote", v]) = pure v := by
  rw [eval, if_neg (by decide), if_neg (by decide), operand, if_pos rfl]

/-- The elements of the items' values, as `append` takes them. -/
def evalElements (other : LispVal → Eff σ ε LispVal) : List LispVal → Eff σ ε (List LispVal)
  | [] => pure []
  | item :: items => do
      let first ← match operand "unquote-splicing" item with
        | some e => spread <$> eval other e
        | none => (fun v => [v]) <$> eval other (expandQuasiquote item)
      let later ← evalElements other items
      pure (first ++ later)

theorem append_flush (current : List LispVal) :
    append <$> evalArgs other (flush current) = evalArgs other current := by
  cases current with
  | nil => simp [flush, evalArgs, append]
  | cons e es =>
    rw [flush, evalArgs, evalArgs, eval_list]
    · simp [append, spread]
    · exact nofun

/-- The segments of a list give its items' elements when they are appended. -/
theorem append_segments (current items : List LispVal) :
    append <$> evalArgs other (segments current items) =
      evalArgs other current >>= fun vs =>
        (fun later => vs ++ later) <$> evalElements other items := by
  induction items generalizing current with
  | nil => simp [segments, append_flush, evalElements]
  | cons item items ih =>
    rw [segments, evalElements]
    cases operand "unquote-splicing" item with
    | some e =>
      have later : append <$> evalArgs other (segments [] items) = evalElements other items := by
        simp [ih, evalArgs]
      dsimp only
      rw [evalArgs_append, ← append_flush current, ← later]
      simp [evalArgs, append]
    | none =>
      dsimp only
      rw [ih, evalArgs_append]
      simp [evalArgs]

/-- The list of a template without splices. -/
theorem evalArgs_expandItems {items : List LispVal}
    (plain : items.any (operand "unquote-splicing" · |>.isSome) = false) :
    evalArgs other (expandItems items) = evalElements other items := by
  induction items with
  | nil => rfl
  | cons item items ih =>
    rw [List.any_cons, Bool.or_eq_false_iff] at plain
    obtain ⟨first, later⟩ := plain
    rw [Option.isSome_eq_false_iff, Option.isNone_iff_eq_none] at first
    simp [expandItems, evalArgs, evalElements, first, ih later]

theorem segments_ne_nil {current items : List LispVal} (some : current ≠ [] ∨ items ≠ []) :
    segments current items ≠ [] := by
  induction items generalizing current with
  | nil =>
    cases current with
    | nil => simp at some
    | cons e es => simp [segments, flush]
  | cons item items ih =>
    rw [segments]
    split
    · simp
    · exact ih (.inl (by simp))

/-- Only a lone splice has one segment that is not its list. -/
theorem segments_single {items : List LispVal}
    (spliced : items.any (operand "unquote-splicing" · |>.isSome) = true) {segment : LispVal}
    (single : segments [] items = [segment]) :
    ∃ item, items = [item] ∧ operand "unquote-splicing" item = some segment := by
  have longer {current items : List LispVal} (started : current ≠ [])
      (spliced : items.any (operand "unquote-splicing" · |>.isSome) = true) :
      segments current items ≠ [segment] := by
    induction items generalizing current with
    | nil => simp at spliced
    | cons item items ih =>
      rw [segments]
      cases splice : operand "unquote-splicing" item with
      | some e =>
        cases current with
        | nil => exact absurd rfl started
        | cons c cs => simp [flush]
      | none =>
        refine ih (by simp) ?_
        rw [List.any_cons, splice] at spliced
        exact spliced
  match items, spliced, single with
  | item :: items, spliced, single =>
    rw [segments] at single
    cases splice : operand "unquote-splicing" item with
    | some e =>
      rw [splice] at single
      simp only [flush, List.nil_append, List.cons.injEq] at single
      obtain ⟨rfl, rest⟩ := single
      by_cases more : items = []
      · exact ⟨item, by rw [more], splice⟩
      · exact absurd rest (segments_ne_nil (.inr more))
    | none =>
      rw [List.any_cons, splice] at spliced
      rw [splice] at single
      exact absurd single (longer (by simp) spliced)

variable (other) in
/-- What the expansion of a list builds: a lone splice stands for its value, and everything else is
the list of the items' elements. -/
theorem eval_expand_list {items : List LispVal} (quoted : operand "unquote" (.list items) = none) :
    (∃ item e, items = [item] ∧ operand "unquote-splicing" item = some e ∧
        eval other (expandQuasiquote (.list items)) = eval other e) ∨
      (∀ item, items = [item] → operand "unquote-splicing" item = none) ∧
        eval other (expandQuasiquote (.list items)) = .list <$> evalElements other items := by
  rw [expandQuasiquote]
  simp only [quoted]
  cases spliced : items.any (operand "unquote-splicing" · |>.isSome) with
  | false =>
    refine .inr ⟨?_, ?_⟩
    · rintro item rfl
      simpa using spliced
    · simp only [Bool.false_eq_true, if_false]
      rw [eval_list, evalArgs_expandItems spliced]
  | true =>
    simp only [if_true]
    cases built : segments [] items with
    | nil =>
      have some : items ≠ [] := by
        rintro rfl
        cases spliced
      exact absurd built (segments_ne_nil (.inr some))
    | cons segment more =>
      cases more with
      | nil =>
        obtain ⟨item, rfl, splice⟩ := segments_single spliced built
        exact .inl ⟨item, segment, rfl, splice, rfl⟩
      | cons second more =>
        refine .inr ⟨?_, ?_⟩
        · rintro item rfl
          by_contra splice
          obtain ⟨e, splice⟩ := Option.ne_none_iff_exists'.mp splice
          simp [segments, splice, flush] at built
        · rw [joined, ← built, eval_append]
          · have elements :
                append <$> evalArgs other (segments [] items) = evalElements other items := by
              simp [append_segments, evalArgs]
            rw [← elements]
            simp
          · simp
          · simp

/-! ### When it builds the filled template -/

theorem raising_ok {α : Type} {m : Eff σ ε α} {s s' : σ} {a : α} (run : m s = .ok a s') :
    raising m s = .ok a s' := by
  rw [raising, run]

theorem raising_bind {α β : Type} (m : Eff σ ε α) (k : α → Eff σ ε β) :
    raising (m >>= k) = raising m >>= fun a => raising (k a) := by
  funext s
  rw [Eff.bind_run, raising, Eff.bind_run, raising]
  cases m s <;> rfl

theorem raising_map {α β : Type} (f : α → β) (m : Eff σ ε α) :
    raising (f <$> m) = f <$> raising m := by
  rw [map_eq_pure_bind, raising_bind, map_eq_pure_bind]
  rfl

theorem raising_ne_notAList {α : Type} (m : Eff σ ε α) (s s' : σ) :
    raising m s ≠ .error .notAList s' := by
  rw [raising]
  cases m s <;> simp

theorem raising_eq_ok {α : Type} {m : Eff σ ε α} {s s' : σ} {a : α} (run : raising m s = .ok a s') :
    m s = .ok a s' := by
  rw [raising] at run
  cases first : m s with
  | ok b s'' =>
    rw [first] at run
    cases run
    rfl
  | error e s'' =>
    rw [first] at run
    cases run

variable (other)

mutual

theorem fill_of_lists (v : LispVal) (s : σ) (lists : SplicesLists (eval other) v s) :
    raising (eval other (expandQuasiquote v)) s = fill (eval other) v s := by
  cases v with
  | list items =>
    rw [SplicesLists] at lists
    rw [fill]
    cases quoted : operand "unquote" (.list items) with
    | some e =>
      rw [expandQuasiquote]
      simp only [quoted]
    | none =>
      have filled := fillItems_of_lists items s (lists quoted)
      obtain ⟨item, e, rfl, splice, built⟩ | ⟨-, built⟩ := eval_expand_list other quoted
      · rw [built]
        have lone := lists quoted
        rw [ItemsSpliceLists] at lone
        simp only [splice] at lone
        rw [fillItems, fillItems]
        simp only [splice]
        rw [map_eq_pure_bind, bind_assoc, bind_assoc]
        conv_lhs => rw [← bind_pure (raising (eval other e))]
        refine Eff.bind_congr_run rfl fun v s' run => ?_
        obtain ⟨⟨vals, rfl⟩, -⟩ := lone v s' (raising_eq_ok run)
        simp [elements]
      · rw [built, raising_map]
        exact Eff.map_congr_run _ filled
  | sym name =>
    rw [expandQuasiquote, eval_quote]
    rfl
  | _ => rfl

theorem fillItems_of_lists (items : List LispVal) (s : σ)
    (lists : ItemsSpliceLists (eval other) items s) :
    raising (evalElements other items) s = fillItems (eval other) items s := by
  cases items with
  | nil => rfl
  | cons item items =>
    rw [ItemsSpliceLists] at lists
    rw [evalElements, fillItems]
    cases splice : operand "unquote-splicing" item with
    | some e =>
      rw [splice] at lists
      dsimp only at lists ⊢
      rw [raising_bind, raising_map, map_eq_pure_bind, bind_assoc, bind_assoc]
      refine Eff.bind_congr_run rfl fun v s' run => ?_
      obtain ⟨⟨vals, rfl⟩, later⟩ := lists v s' (raising_eq_ok run)
      have filled := fillItems_of_lists items s' later
      rw [pure_bind]
      simp only [elements, pure_bind, spread]
      rw [raising_bind]
      exact Eff.bind_congr_run filled fun _ _ _ => rfl
    | none =>
      rw [splice] at lists
      dsimp only at lists ⊢
      rw [raising_bind, raising_map, map_eq_pure_bind, map_eq_pure_bind, bind_assoc, bind_assoc]
      refine Eff.bind_congr_run (fill_of_lists item s lists.1) fun v s' run => ?_
      have filled := fillItems_of_lists items s' (lists.2 v s' run)
      rw [pure_bind, pure_bind, raising_bind]
      exact Eff.bind_congr_run filled fun _ _ _ => rfl

end

mutual

theorem lists_of_fill (run : LispVal → Eff σ ε LispVal) (v : LispVal) (s : σ)
    (listed : ∀ s', fill run v s ≠ .error .notAList s') : SplicesLists run v s := by
  cases v with
  | list items =>
    rw [SplicesLists]
    intro quoted
    refine itemsLists_of_fill run items s fun s' failed => listed s' ?_
    rw [fill]
    simp only [quoted]
    rw [map_eq_pure_bind, Eff.bind_run, failed]
  | _ => trivial

theorem itemsLists_of_fill (run : LispVal → Eff σ ε LispVal) (items : List LispVal) (s : σ)
    (listed : ∀ s', fillItems run items s ≠ .error .notAList s') :
    ItemsSpliceLists run items s := by
  cases items with
  | nil => trivial
  | cons item items =>
    rw [fillItems] at listed
    rw [ItemsSpliceLists]
    cases splice : operand "unquote-splicing" item with
    | some e =>
      intro v s' ran
      simp only [splice] at listed
      have isList : ∃ vals, v = .list vals := by
        by_contra noList
        refine listed s' ?_
        rw [bind_assoc, Eff.bind_run, raising_ok ran]
        cases v with
        | list vals => exact absurd ⟨vals, rfl⟩ noList
        | _ => rfl
      obtain ⟨vals, rfl⟩ := isList
      refine ⟨⟨vals, rfl⟩, itemsLists_of_fill run items s' fun s'' failed => listed s'' ?_⟩
      rw [bind_assoc, Eff.bind_run, raising_ok ran]
      simp only [elements, pure_bind]
      rw [Eff.bind_run, failed]
    | none =>
      simp only [splice] at listed
      refine ⟨lists_of_fill run item s fun s' failed => listed s' ?_, fun v s' ran =>
        itemsLists_of_fill run items s' fun s'' failed => listed s'' ?_⟩
      · rw [map_eq_pure_bind, bind_assoc, Eff.bind_run, failed]
      · rw [map_eq_pure_bind, bind_assoc, Eff.bind_run, ran]
        simp only [pure_bind]
        rw [Eff.bind_run, failed]

end

/-- A template's expansion builds the filled template exactly where every splice gets a list. -/
theorem expansion_fills_iff (v : LispVal) (s : σ) :
    raising (eval other (expandQuasiquote v)) s = fill (eval other) v s ↔
      SplicesLists (eval other) v s := by
  refine ⟨fun same => lists_of_fill _ v s fun s' failed => ?_, fill_of_lists other v s⟩
  rw [← same] at failed
  exact raising_ne_notAList _ s s' failed

/-- In a template of one splice alone a number comes through as it is. -/
theorem lone_splice_of_number :
    ¬∀ (other : LispVal → Eff Unit String LispVal) (v : LispVal) (s : Unit),
      raising (eval other (expandQuasiquote v)) s = fill (eval other) v s := by
  intro fills
  have here := fills (fun _ => pure .nil) (.list [.list [.sym "unquote-splicing", .num 5]]) ()
  simp [expandQuasiquote, operand, segments, flush, joined, eval, fill, fillItems, raising] at here
  cases here

end LispRlm.Surface.Quasiquote
