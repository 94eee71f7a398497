import Mathlib.Data.List.AList
import Mathlib.Algebra.BigOperators.Group.List.Basic
import Mathlib.Data.List.Induction
import Mathlib.Algebra.GroupWithZero.Nat

/-! Finite maps with a natural weight on each entry, and the total weight of a map.

Every lemma says how an update moves the total, without subtraction: what the map holds
afterwards plus what went out is what it held plus what came in. -/

namespace LispRlm.Foundation

universe u v

/-- Finite maps with values of one type. -/
abbrev FMap (α : Type u) (β : Type v) := AList (fun _ : α => β)

namespace FMap

variable {α : Type u} {β : Type v}

/-- The entries whose key passes `p`. -/
def filterKeys (p : α → Bool) (m : FMap α β) : FMap α β :=
  ⟨m.entries.filter (fun e => p e.1), m.nodupKeys.sublist List.filter_sublist⟩

section Weight

variable (w : α → β → Nat)

def weight (m : FMap α β) : Nat :=
  (m.entries.map (fun e => w e.1 e.2)).sum

/-- The weight of what is stored at `k`. -/
def weightOf (k : α) (v : Option β) : Nat :=
  (v.map (w k)).getD 0

@[simp] theorem weightOf_some (k : α) (v : β) : weightOf w k (some v) = w k v := rfl

@[simp] theorem weightOf_none (k : α) : weightOf w k none = 0 := rfl

theorem weight_perm {m n : FMap α β} (h : m.entries.Perm n.entries) : weight w m = weight w n :=
  (h.map _).sum_eq

theorem weight_filterKeys (p : α → Bool) (m : FMap α β) :
    weight w (m.filterKeys p) + weight w (m.filterKeys (fun k => !p k)) = weight w m := by
  simp only [weight, filterKeys]
  induction m.entries with
  | nil => rfl
  | cons e rest ih =>
      by_cases h : p e.1 <;> simp [h] at ih ⊢ <;> omega

/-- Selecting keys is weighing the others as nothing. -/
theorem weight_filterKeys_eq (p : α → Bool) (m : FMap α β) :
    weight w (m.filterKeys p) = weight (fun k v => if p k then w k v else 0) m := by
  simp only [weight, filterKeys]
  induction m.entries with
  | nil => rfl
  | cons e rest ih =>
      by_cases h : p e.1 <;> simp [h] at ih ⊢ <;> omega

end Weight

variable [DecidableEq α]

/-- Stores a value or removes the key. -/
def put (m : FMap α β) (k : α) : Option β → FMap α β
  | some v => m.insert k v
  | none => m.erase k

theorem lookup_filterKeys (p : α → Bool) (m : FMap α β) (k : α) :
    (m.filterKeys p).lookup k = if p k then m.lookup k else none := by
  apply Option.ext
  intro v
  rw [← Option.mem_def, AList.mem_lookup_iff]
  by_cases h : p k
  · simp [filterKeys, h, ← Option.mem_def, AList.mem_lookup_iff]
  · simp [filterKeys, h]

theorem lookup_put (m : FMap α β) (k : α) (v : Option β) (k' : α) :
    (m.put k v).lookup k' = if k' = k then v else m.lookup k' := by
  by_cases h : k' = k
  · subst h
    cases v <;> simp [put]
  · cases v <;> simp [put, h, AList.lookup_insert_ne, AList.lookup_erase_ne]

theorem lookup_union (m n : FMap α β) (k : α) :
    (m ∪ n).lookup k = (m.lookup k).or (n.lookup k) := by
  by_cases h : k ∈ m
  · obtain ⟨v, here⟩ := Option.isSome_iff_exists.mp (AList.lookup_isSome.mpr h)
    rw [AList.lookup_union_left h, here, Option.some_or]
  · rw [AList.lookup_union_right h, AList.lookup_eq_none.mpr h, Option.none_or]

section Weight

variable (w : α → β → Nat)

/-- The total depends on the lookups only. -/
theorem weight_congr {m n : FMap α β} (h : ∀ k, m.lookup k = n.lookup k) :
    weight w m = weight w n := by
  apply weight_perm
  apply List.lookup_ext m.nodupKeys n.nodupKeys
  intro k v
  have same : m.entries.dlookup k = n.entries.dlookup k := h k
  rw [same]

theorem weight_erase (m : FMap α β) (k : α) :
    weight w (m.erase k) + weightOf w k (m.lookup k) = weight w m := by
  by_cases h : k ∈ m
  · obtain ⟨v, before, after, -, split, rest⟩ := List.exists_of_kerase (AList.mem_keys.mp h)
    have here : m.lookup k = some v := by
      rw [← Option.mem_def, AList.mem_lookup_iff, split]
      simp
    have erased : (m.erase k).entries = before ++ after := rest
    simp only [weight, here, weightOf_some, erased, split, List.map_append, List.map_cons,
      List.sum_append, List.sum_cons]
    omega
  · have absent : m.lookup k = none := AList.lookup_eq_none.mpr h
    have same : (m.erase k).entries = m.entries :=
      List.kerase_of_notMem_keys (fun hk => h (AList.mem_keys.mpr hk))
    simp [weight, absent, same]

theorem weight_insert (m : FMap α β) (k : α) (v : β) :
    weight w (m.insert k v) + weightOf w k (m.lookup k) = weight w m + w k v := by
  have erased := weight_erase w m k
  have inserted : weight w (m.insert k v) = w k v + weight w (m.erase k) := by
    have erased : (m.erase k).entries = m.entries.kerase k := rfl
    simp [weight, AList.entries_insert, erased]
  omega

theorem weight_put (m : FMap α β) (k : α) (v : Option β) :
    weight w (m.put k v) + weightOf w k (m.lookup k) = weight w m + weightOf w k v := by
  cases v with
  | none => simpa [put] using weight_erase w m k
  | some v => simpa [put] using weight_insert w m k v

/-- The union of maps without a common key weighs what both weigh. -/
theorem weight_union {m n : FMap α β} (apart : ∀ k ∈ m, k ∉ n) :
    weight w (m ∪ n) = weight w m + weight w n := by
  have entries : (m ∪ n).entries = m.entries ++ n.entries := by
    rw [AList.union_entries]
    have general : ∀ l : List (Sigma fun _ : α => β), (∀ k ∈ l.keys, k ∉ n.entries.keys) →
        List.kunion l n.entries = l ++ n.entries := by
      intro l
      induction l with
      | nil => simp
      | cons e rest ih =>
          intro disjoint
          rw [List.kunion_cons, List.kerase_of_notMem_keys (disjoint e.1 (by simp)),
            ih (fun k hk => disjoint k (by simp [hk])), List.cons_append]
    exact general m.entries (fun k hk => apart k hk)
  simp [weight, entries]

/-- Puts entries from left to right. -/
def putAll (entries : List (α × Option β)) (m : FMap α β) : FMap α β :=
  entries.foldl (fun m e => m.put e.1 e.2) m

/-- For each key of the entries, the one that is put last. -/
def lastPut (entries : List (α × Option β)) : FMap α (Option β) :=
  entries.foldl (fun m e => m.insert e.1 e.2) ∅

theorem lookup_putAll (entries : List (α × Option β)) (m : FMap α β) (k : α) :
    (putAll entries m).lookup k = ((lastPut entries).lookup k).getD (m.lookup k) := by
  induction entries using List.reverseRecOn with
  | nil => simp [putAll, lastPut]
  | append_singleton entries e ih =>
      rcases e with ⟨k₁, v⟩
      simp only [putAll, lastPut, List.foldl_append, List.foldl_cons, List.foldl_nil] at ih ⊢
      rw [lookup_put]
      by_cases h : k = k₁
      · subst h
        simp
      · rw [if_neg h, AList.lookup_insert_ne h, ih]

/-- Putting entries swaps what their keys held for what is put last at each of them. -/
theorem weight_putAll (entries : List (α × Option β)) (m : FMap α β) :
    weight w (putAll entries m) + weight (fun k _ => weightOf w k (m.lookup k)) (lastPut entries) =
      weight w m + weight (weightOf w) (lastPut entries) := by
  induction entries using List.reverseRecOn with
  | nil => simp [putAll, lastPut, weight]
  | append_singleton entries e ih =>
      rcases e with ⟨k, v⟩
      have held := lookup_putAll entries m k
      simp only [putAll, lastPut, List.foldl_append, List.foldl_cons, List.foldl_nil] at ih held ⊢
      generalize entries.foldl (fun m e => m.put e.1 e.2) m = before at ih held ⊢
      generalize entries.foldl (fun m e => m.insert e.1 e.2) (∅ : FMap α (Option β)) = last
        at ih held ⊢
      have moved := weight_put w before k v
      have put := weight_insert (weightOf w) last k v
      have taken := weight_insert (fun k _ => weightOf w k (m.lookup k)) last k v
      cases recorded : last.lookup k with
      | none =>
          simp only [recorded, Option.getD_none, weightOf_none] at held put taken
          rw [held] at moved
          omega
      | some v₀ =>
          simp only [recorded, Option.getD_some, weightOf_some] at held put taken
          rw [held] at moved
          omega

end Weight

end FMap

end LispRlm.Foundation
