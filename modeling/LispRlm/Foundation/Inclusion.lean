import Mathlib.Data.Fintype.Card
import Mathlib.Data.Set.Finite.List
import Mathlib.Logic.Relation

/-! Files that include one another, and the text that is left when all inclusions are expanded.

A file is a list of lines and of files that it includes at their place. -/

namespace LispRlm.Foundation.Inclusion

universe u v

/-- A line of a file, or another file that is included there. -/
inductive Item (P : Type u) (L : Type v)
  | line (l : L)
  | file (p : P)

variable {P : Type u} {L : Type v} {body : P → List (Item P L)} {gap : L}

/-- The expansion of items, and the files that are included, as often as they are. `gap` follows the
lines of each. -/
inductive Expands (body : P → List (Item P L)) (gap : L) :
    List (Item P L) → List L → List P → Prop
  | nil : Expands body gap [] [] []
  | line {items : List (Item P L)} {out : List L} {met : List P} (l : L)
      (rest : Expands body gap items out met) : Expands body gap (.line l :: items) (l :: out) met
  | file {items : List (Item P L)} {out inner : List L} {met below : List P} (p : P)
      (content : Expands body gap (body p) inner below) (rest : Expands body gap items out met) :
      Expands body gap (.file p :: items) (inner ++ gap :: out) (p :: (below ++ met))

theorem Expands.unique {items : List (Item P L)} {out out' : List L} {met met' : List P}
    (left : Expands body gap items out met) (right : Expands body gap items out' met') :
    out = out' ∧ met = met' := by
  induction left generalizing out' met' with
  | nil =>
    cases right
    exact ⟨rfl, rfl⟩
  | line l rest ih =>
    cases right with
    | line _ rest' =>
      rcases ih rest' with ⟨rfl, rfl⟩
      exact ⟨rfl, rfl⟩
  | file p content rest contentIh ih =>
    cases right with
    | file _ content' rest' =>
      rcases contentIh content' with ⟨rfl, rfl⟩
      rcases ih rest' with ⟨rfl, rfl⟩
      exact ⟨rfl, rfl⟩

/-- A file stands in another one. -/
def Includes (body : P → List (Item P L)) (p q : P) : Prop := .file q ∈ body p

/-- A file is included by the items, or by a file that is. -/
def Reached (body : P → List (Item P L)) (items : List (Item P L)) (q : P) : Prop :=
  ∃ p, .file p ∈ items ∧ Relation.ReflTransGen (Includes body) p q

/-- One of the files that are included includes itself, perhaps through others. -/
def Cyclic (body : P → List (Item P L)) (items : List (Item P L)) : Prop :=
  ∃ q, Reached body items q ∧ Relation.TransGen (Includes body) q q

theorem Reached.step {items : List (Item P L)} {p q : P} (reached : Reached body items p)
    (includes : Includes body p q) : Reached body items q := by
  rcases reached with ⟨first, mem, chain⟩
  exact ⟨first, mem, chain.tail includes⟩

/-- What is expanded has no chain of inclusions without an end. -/
theorem Expands.acc {items : List (Item P L)} {out : List L} {met : List P}
    (expands : Expands body gap items out met) :
    ∀ p, .file p ∈ items → Acc (fun a b => Includes body b a) p := by
  induction expands with
  | nil => exact fun _ mem => absurd mem List.not_mem_nil
  | line l rest ih =>
    intro p mem
    rcases List.mem_cons.mp mem with same | mem
    · cases same
    · exact ih p mem
  | file p content rest contentIh ih =>
    intro q mem
    rcases List.mem_cons.mp mem with same | mem
    · cases same
      exact ⟨_, fun a includes => contentIh a includes⟩
    · exact ih q mem

theorem not_transGen_of_acc {r : P → P → Prop} {p : P} (acc : Acc (fun a b => r b a) p) :
    ¬ Relation.TransGen r p p := by
  induction acc with
  | intro p _ ih =>
    intro cycle
    rcases Relation.TransGen.head'_iff.mp cycle with ⟨q, first, chain⟩
    exact ih q first (Relation.TransGen.tail' chain first)

theorem acc_reached {p q : P} (acc : Acc (fun a b => Includes body b a) p)
    (chain : Relation.ReflTransGen (Includes body) p q) :
    Acc (fun a b => Includes body b a) q := by
  induction chain with
  | refl => exact acc
  | tail _ includes ih => exact ih.inv includes

theorem expands_of_files {items : List (Item P L)}
    (files : ∀ p, .file p ∈ items → ∃ out met, Expands body gap (body p) out met) :
    ∃ out met, Expands body gap items out met := by
  induction items with
  | nil => exact ⟨[], [], .nil⟩
  | cons item items ih =>
    rcases ih fun p mem => files p (List.mem_cons_of_mem _ mem) with ⟨out, met, rest⟩
    cases item with
    | line l => exact ⟨_, _, rest.line l⟩
    | file p =>
      rcases files p List.mem_cons_self with ⟨inner, below, content⟩
      exact ⟨_, _, .file p content rest⟩

/-- Over finitely many files, an expansion exists if and only if no file includes itself. -/
theorem exists_expands_iff {items : List (Item P L)} {files : List P}
    (listed : ∀ p, Reached body items p → p ∈ files) :
    (∃ out met, Expands body gap items out met) ↔ ¬ Cyclic body items := by
  constructor
  · rintro ⟨out, met, expands⟩ ⟨q, ⟨p, mem, chain⟩, cycle⟩
    exact not_transGen_of_acc (acc_reached (expands.acc p mem) chain) cycle
  · intro acyclic
    let Node := {p // Reached body items p}
    let below (a b : Node) : Prop := Relation.TransGen (Includes body) b.val a.val
    have finite : Finite Node :=
      Set.Finite.to_subtype (files.finite_toSet.subset fun p reached => listed p reached)
    have trans : IsTrans Node below := ⟨fun a b c first second => second.trans first⟩
    have irrefl : Std.Irrefl below := ⟨fun a cycle => acyclic ⟨a.val, a.property, cycle⟩⟩
    have wellFounded : WellFounded below := Finite.wellFounded_of_trans_of_irrefl below
    have each (node : Node) : ∃ out met, Expands body gap (body node.val) out met := by
      induction node using wellFounded.induction with
      | _ node ih =>
        apply expands_of_files
        intro p includes
        exact ih ⟨p, node.property.step includes⟩ (.single includes)
    apply expands_of_files
    intro p mem
    exact each ⟨p, p, mem, .refl⟩

theorem Expands.reached {items : List (Item P L)} {out : List L} {met : List P}
    (expands : Expands body gap items out met) : ∀ p ∈ met, Reached body items p := by
  induction expands with
  | nil => exact fun _ mem => absurd mem List.not_mem_nil
  | line l rest ih =>
    intro p mem
    rcases ih p mem with ⟨first, included, chain⟩
    exact ⟨first, List.mem_cons_of_mem _ included, chain⟩
  | file q content rest contentIh ih =>
    intro p mem
    rcases List.mem_cons.mp mem with rfl | mem
    · exact ⟨_, List.mem_cons_self, .refl⟩
    rcases List.mem_append.mp mem with mem | mem
    · rcases contentIh p mem with ⟨first, included, chain⟩
      exact ⟨q, List.mem_cons_self, .head included chain⟩
    · rcases ih p mem with ⟨first, included, chain⟩
      exact ⟨first, List.mem_cons_of_mem _ included, chain⟩

/-- Files that agree where they are met have one expansion. -/
theorem Expands.congr {body' : P → List (Item P L)} {items : List (Item P L)} {out : List L}
    {met : List P} (expands : Expands body gap items out met)
    (same : ∀ p ∈ met, body p = body' p) : Expands body' gap items out met := by
  induction expands with
  | nil => exact .nil
  | line l rest ih => exact (ih same).line l
  | file p content rest contentIh ih =>
    rcases List.forall_mem_cons.mp same with ⟨first, others⟩
    have content' := contentIh fun q mem => others q (List.mem_append_left _ mem)
    rw [first] at content'
    exact .file p content' (ih fun q mem => others q (List.mem_append_right _ mem))

/-- The lines of an expansion are those of the items and of the files that are met, and the gaps. -/
theorem Expands.mem_out {items : List (Item P L)} {out : List L} {met : List P}
    (expands : Expands body gap items out met) :
    ∀ l ∈ out, l = gap ∨ .line l ∈ items ∨ ∃ p ∈ met, .line l ∈ body p := by
  induction expands with
  | nil => exact fun _ mem => absurd mem List.not_mem_nil
  | line l rest ih =>
    intro k mem
    rcases List.mem_cons.mp mem with rfl | mem
    · exact .inr (.inl List.mem_cons_self)
    · rcases ih k mem with same | own | ⟨p, met, mem⟩
      · exact .inl same
      · exact .inr (.inl (List.mem_cons_of_mem _ own))
      · exact .inr (.inr ⟨p, met, mem⟩)
  | file p content rest contentIh ih =>
    intro k mem
    rcases List.mem_append.mp mem with mem | mem
    · rcases contentIh k mem with same | own | ⟨q, met, mem⟩
      · exact .inl same
      · exact .inr (.inr ⟨p, List.mem_cons_self, own⟩)
      · exact .inr (.inr ⟨q, List.mem_cons_of_mem _ (List.mem_append_left _ met), mem⟩)
    rcases List.mem_cons.mp mem with same | mem
    · exact .inl same
    · rcases ih k mem with same | own | ⟨q, met, mem⟩
      · exact .inl same
      · exact .inr (.inl (List.mem_cons_of_mem _ own))
      · exact .inr (.inr ⟨q, List.mem_cons_of_mem _ (List.mem_append_right _ met), mem⟩)

theorem Expands.line_mem {items : List (Item P L)} {out : List L} {met : List P}
    (expands : Expands body gap items out met) {l : L}
    (stands : .line l ∈ items ∨ ∃ p ∈ met, .line l ∈ body p) : l ∈ out := by
  induction expands with
  | nil => simp at stands
  | line k rest ih =>
    rcases stands with own | inside
    · rcases List.mem_cons.mp own with same | own
      · cases same
        exact List.mem_cons_self
      · exact List.mem_cons_of_mem _ (ih (.inl own))
    · exact List.mem_cons_of_mem _ (ih (.inr inside))
  | file p content rest contentIh ih =>
    rcases stands with own | ⟨q, met, mem⟩
    · rcases List.mem_cons.mp own with same | own
      · cases same
      · exact List.mem_append_right _ (List.mem_cons_of_mem _ (ih (.inl own)))
    rcases List.mem_cons.mp met with rfl | met
    · exact List.mem_append_left _ (contentIh (.inl mem))
    rcases List.mem_append.mp met with met | met
    · exact List.mem_append_left _ (contentIh (.inr ⟨q, met, mem⟩))
    · exact List.mem_append_right _ (List.mem_cons_of_mem _ (ih (.inr ⟨q, met, mem⟩)))

end LispRlm.Foundation.Inclusion
