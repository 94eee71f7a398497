import LispRlm.Foundation.WeightedMap
import Mathlib.Data.List.Sort
import Mathlib.Data.List.Dedup

/-! Sorted lists read off a map. Two maps that hold the same where it is read are listed alike,
whatever order they keep their entries in. -/

namespace LispRlm.Foundation

universe u v w

/-- The elements in order, each once. -/
def sortDedup {ρ : Type w} [LinearOrder ρ] (l : List ρ) : List ρ :=
  (l.insertionSort (· ≤ ·)).dedup

theorem sortDedup_congr {ρ : Type w} [LinearOrder ρ] {l l' : List ρ} (h : ∀ x, x ∈ l ↔ x ∈ l') :
    sortDedup l = sortDedup l' := by
  have sorted : ∀ l : List ρ, (sortDedup l).Pairwise (· ≤ ·) := fun l =>
    (List.pairwise_insertionSort (· ≤ ·) l).sublist (List.dedup_sublist _)
  have members : ∀ l : List ρ, ∀ x, x ∈ sortDedup l ↔ x ∈ l := fun l x => by
    simp [sortDedup, List.mem_insertionSort]
  have same : (sortDedup l).Perm (sortDedup l') := by
    refine (List.perm_ext_iff_of_nodup (List.nodup_dedup _) (List.nodup_dedup _)).mpr fun x => ?_
    exact (members l x).trans ((h x).trans (members l' x).symm)
  exact same.eq_of_pairwise' (sorted l) (sorted l')

namespace FMap

variable {α : Type u} {β : Type v} {γ ρ : Type w} [DecidableEq α]

/-- What `read` finds in the entries. -/
def readAll (read : α → β → Option γ) (m : FMap α β) : List γ :=
  m.entries.filterMap fun e => read e.1 e.2

theorem mem_readAll {read : α → β → Option γ} {m : FMap α β} {c : γ} :
    c ∈ m.readAll read ↔ ∃ k v, m.lookup k = some v ∧ read k v = some c := by
  simp only [readAll, List.mem_filterMap]
  constructor
  · rintro ⟨⟨k, v⟩, entry, found⟩
    exact ⟨k, v, AList.mem_lookup_iff.mpr entry, found⟩
  · rintro ⟨k, v, stored, found⟩
    exact ⟨⟨k, v⟩, AList.mem_lookup_iff.mp stored, found⟩

section Congr

variable {read : α → β → Option γ} {m n : FMap α β}
  (same : ∀ k v c, read k v = some c → m.lookup k = n.lookup k)

include same

theorem mem_readAll_congr (c : γ) : c ∈ m.readAll read ↔ c ∈ n.readAll read := by
  rw [mem_readAll, mem_readAll]
  constructor
  · rintro ⟨k, v, stored, found⟩
    exact ⟨k, v, (same k v c found) ▸ stored, found⟩
  · rintro ⟨k, v, stored, found⟩
    exact ⟨k, v, (same k v c found).symm ▸ stored, found⟩

variable {source : γ → α} (reads : ∀ k v c, read k v = some c → source c = k)

include reads

omit same [DecidableEq α] in
theorem nodup_sources (m : FMap α β) : ((m.readAll read).map source).Nodup := by
  have keys : ((m.readAll read).map source).Sublist (m.entries.map Sigma.fst) := by
    unfold readAll
    induction m.entries with
    | nil => exact .slnil
    | cons e rest ih =>
        rw [List.filterMap_cons]
        cases found : read e.1 e.2 with
        | none => exact ih.cons _
        | some c =>
            simp only [List.map_cons, reads _ _ _ found]
            exact ih.cons_cons _
  have nodup : (m.entries.map Sigma.fst).Nodup := m.nodupKeys
  exact nodup.sublist keys

theorem insertionSort_readAll [LinearOrder ρ] {rank : γ → ρ}
    (ranks : ∀ c c', rank c = rank c' → source c = source c') :
    (m.readAll read).insertionSort (fun a b => rank a ≤ rank b) =
      (n.readAll read).insertionSort (fun a b => rank a ≤ rank b) := by
  have total : Std.Total fun a b : γ => rank a ≤ rank b := ⟨fun a b => le_total _ _⟩
  have trans : IsTrans γ fun a b => rank a ≤ rank b := ⟨fun _ _ _ => le_trans⟩
  have nodup : ∀ m : FMap α β, (m.readAll read).Nodup := fun m =>
    (nodup_sources reads m).of_map source
  have perm : (m.readAll read).Perm (n.readAll read) :=
    (List.perm_ext_iff_of_nodup (nodup m) (nodup n)).mpr (mem_readAll_congr same)
  have sorted := (List.perm_insertionSort (fun a b => rank a ≤ rank b) _).trans
    (perm.trans (List.perm_insertionSort (fun a b => rank a ≤ rank b) _).symm)
  have first := List.pairwise_insertionSort (fun a b => rank a ≤ rank b) (m.readAll read)
  have second := List.pairwise_insertionSort (fun a b => rank a ≤ rank b) (n.readAll read)
  refine sorted.eq_of_pairwise ?_ first second
  intro c c' inM inN below above
  rw [List.mem_insertionSort] at inM inN
  have inN' := (mem_readAll_congr same c').mpr inN
  exact List.inj_on_of_nodup_map (nodup_sources reads m) inM inN'
    (ranks c c' (le_antisymm below above))

end Congr

end FMap

end LispRlm.Foundation
