import Mathlib.Logic.Relation
import Mathlib.Data.List.Basic

/-! Worklists: what a search marks that starts with some nodes and marks the successors of each node
that it takes from its queue. -/

namespace LispRlm.Foundation

variable {α : Type} [DecidableEq α]

structure Worklist (α : Type) where
  marked : List α
  queue : List α

namespace Worklist

def mark (w : Worklist α) (a : α) : Worklist α :=
  if a ∈ w.marked then w else ⟨a :: w.marked, w.queue ++ [a]⟩

def markAll (w : Worklist α) (as : List α) : Worklist α := as.foldl mark w

def start (seeds : List α) : Worklist α := markAll ⟨[], []⟩ seeds

/-- So many nodes are taken from the queue, or as many as there are. -/
def drain (next : α → List α) : Nat → Worklist α → Worklist α
  | 0, w => w
  | n + 1, w =>
      match w.queue with
      | [] => w
      | a :: queue => drain next n (markAll { w with queue } (next a))

@[simp] theorem markAll_nil (w : Worklist α) : w.markAll [] = w := rfl

@[simp] theorem markAll_cons (w : Worklist α) (a : α) (as : List α) :
    w.markAll (a :: as) = (w.mark a).markAll as := rfl

theorem mem_mark {w : Worklist α} {a b : α} : b ∈ (w.mark a).marked ↔ b = a ∨ b ∈ w.marked := by
  unfold mark
  split
  · constructor
    · exact .inr
    · rintro (rfl | mem)
      · assumption
      · exact mem
  · exact List.mem_cons

theorem mem_markAll {w : Worklist α} {as : List α} {b : α} :
    b ∈ (w.markAll as).marked ↔ b ∈ as ∨ b ∈ w.marked := by
  induction as generalizing w with
  | nil => simp
  | cons a as ih => rw [markAll_cons, ih, mem_mark, List.mem_cons, or_assoc, or_left_comm]

/-! ### The queue runs empty -/

/-- What a search can still take from its queue. -/
def weight (nodes : List α) (w : Worklist α) : Nat :=
  nodes.countP (· ∉ w.marked) + w.queue.length

theorem countP_mark {nodes marked : List α} {a : α} (inside : a ∈ nodes) (fresh : a ∉ marked) :
    nodes.countP (· ∉ a :: marked) + 1 ≤ nodes.countP (· ∉ marked) := by
  induction nodes with
  | nil => cases inside
  | cons b nodes ih =>
    have grows : nodes.countP (· ∉ a :: marked) ≤ nodes.countP (· ∉ marked) := by
      refine List.countP_mono_left fun c _ => ?_
      simp only [decide_eq_true_eq]
      exact fun apart mem => apart (List.mem_cons_of_mem a mem)
    rw [List.countP_cons, List.countP_cons]
    by_cases here : b = a
    · subst here
      simp only [List.mem_cons_self, not_true_eq_false, decide_false, Bool.false_eq_true, if_false,
        fresh, not_false_eq_true, decide_true, if_true]
      omega
    · have later := ih ((List.mem_cons.mp inside).resolve_left (Ne.symm here))
      have same : b ∈ a :: marked ↔ b ∈ marked := by simp [here]
      simp only [same]
      omega

theorem weight_mark {nodes : List α} (w : Worklist α) {a : α} (inside : a ∈ nodes) :
    weight nodes (w.mark a) ≤ weight nodes w := by
  unfold mark
  split
  · exact Nat.le_refl _
  · rename_i fresh
    have fewer := countP_mark inside fresh
    simp only [weight, List.length_append, List.length_singleton]
    omega

theorem weight_markAll {nodes : List α} (w : Worklist α) {as : List α}
    (inside : ∀ a ∈ as, a ∈ nodes) : weight nodes (w.markAll as) ≤ weight nodes w := by
  induction as generalizing w with
  | nil => exact Nat.le_refl _
  | cons a as ih =>
    exact Nat.le_trans (ih _ fun b mem => inside b (List.mem_cons_of_mem _ mem))
      (weight_mark w (inside a List.mem_cons_self))

variable {next : α → List α}

theorem drain_queue {nodes : List α} (inside : ∀ a, ∀ b ∈ next a, b ∈ nodes) {n : Nat}
    {w : Worklist α} (enough : weight nodes w ≤ n) : (drain next n w).queue = [] := by
  induction n generalizing w with
  | zero =>
    unfold weight at enough
    rw [drain]
    exact List.length_eq_zero_iff.mp (by omega)
  | succ n ih =>
    unfold drain
    split
    · assumption
    · rename_i a queue taken
      refine ih (Nat.le_trans (weight_markAll _ (inside a)) ?_)
      simp only [weight, taken, List.length_cons] at enough ⊢
      omega

/-! ### What is marked at the end -/

/-- A step of the search. -/
def Step (next : α → List α) (a b : α) : Prop := b ∈ next a

/-- What holds between two nodes taken from the queue. -/
structure Inv (next : α → List α) (seeds : List α) (w : Worklist α) : Prop where
  reached : ∀ b ∈ w.marked, ∃ a ∈ seeds, Relation.ReflTransGen (Step next) a b
  seeded : ∀ a ∈ seeds, a ∈ w.marked
  queued : ∀ a ∈ w.queue, a ∈ w.marked
  closed : ∀ a ∈ w.marked, a ∈ w.queue ∨ ∀ b ∈ next a, b ∈ w.marked

theorem queue_mark {w : Worklist α} {a b : α} (mem : b ∈ (w.mark a).marked) :
    b ∈ w.marked ∨ b ∈ (w.mark a).queue := by
  unfold mark at mem ⊢
  split at mem
  · exact .inl mem
  · rename_i fresh
    rw [if_neg fresh]
    obtain rfl | mem := List.mem_cons.mp mem
    · exact .inr (List.mem_append_right _ (List.mem_singleton_self _))
    · exact .inl mem

theorem queue_mono_mark {w : Worklist α} {a b : α} (mem : b ∈ w.queue) :
    b ∈ (w.mark a).queue := by
  unfold mark
  split
  · exact mem
  · exact List.mem_append_left _ mem

theorem queue_mono {w : Worklist α} {as : List α} {b : α} (mem : b ∈ w.queue) :
    b ∈ (w.markAll as).queue := by
  induction as generalizing w with
  | nil => exact mem
  | cons a as ih => exact ih (queue_mono_mark mem)

/-- A node is marked before, or it stands in the queue. -/
theorem queue_markAll {w : Worklist α} {as : List α} {b : α} (mem : b ∈ (w.markAll as).marked) :
    b ∈ w.marked ∨ b ∈ (w.markAll as).queue := by
  induction as generalizing w with
  | nil => exact .inl mem
  | cons a as ih =>
    obtain before | queued := ih mem
    · obtain before | queued := queue_mark before
      · exact .inl before
      · exact .inr (queue_mono (w := w.mark a) queued)
    · exact .inr queued

theorem marked_of_queue {w : Worklist α} (queued : ∀ a ∈ w.queue, a ∈ w.marked) (as : List α) :
    ∀ a ∈ (w.markAll as).queue, a ∈ (w.markAll as).marked := by
  induction as generalizing w with
  | nil => exact queued
  | cons a as ih =>
    refine ih fun b mem => mem_mark.mpr ?_
    unfold mark at mem
    split at mem
    · exact .inr (queued b mem)
    · obtain mem | mem := List.mem_append.mp mem
      · exact .inr (queued b mem)
      · exact .inl (List.mem_singleton.mp mem)

theorem Inv.start (seeds : List α) : Inv next seeds (start seeds) where
  reached b mem := by
    obtain mem | mem := mem_markAll.mp mem
    · exact ⟨b, mem, .refl⟩
    · cases mem
  seeded a mem := mem_markAll.mpr (.inl mem)
  queued := marked_of_queue nofun seeds
  closed a mem := by
    obtain mem | queued := queue_markAll mem
    · cases mem
    · exact .inl queued

theorem Inv.step {seeds : List α} {w : Worklist α} {a : α} {queue : List α}
    (inv : Inv next seeds w) (taken : w.queue = a :: queue) :
    Inv next seeds (markAll { w with queue } (next a)) where
  reached b mem := by
    obtain mem | mem := mem_markAll.mp mem
    · have among := inv.queued a (taken ▸ List.mem_cons_self)
      obtain ⟨c, seed, path⟩ := inv.reached a among
      exact ⟨c, seed, path.tail mem⟩
    · exact inv.reached b mem
  seeded b mem := mem_markAll.mpr (.inr (inv.seeded b mem))
  queued := marked_of_queue (w := { w with queue })
    (fun b mem => inv.queued b (taken ▸ List.mem_cons_of_mem a mem)) (next a)
  closed b mem := by
    obtain before | queued := queue_markAll mem
    · obtain queued | closed := inv.closed b before
      · rw [taken] at queued
        obtain rfl | queued := List.mem_cons.mp queued
        · exact .inr fun c mem => mem_markAll.mpr (.inl mem)
        · exact .inl (queue_mono queued)
      · exact .inr fun c mem => mem_markAll.mpr (.inr (closed c mem))
    · exact .inl queued

theorem Inv.drain {seeds : List α} {w : Worklist α} (inv : Inv next seeds w) (n : Nat) :
    Inv next seeds (drain next n w) := by
  induction n generalizing w with
  | zero => exact inv
  | succ n ih =>
    unfold Worklist.drain
    split
    · exact inv
    · rename_i taken
      exact ih (inv.step taken)

/-- A search marks what can be reached from its seeds. -/
theorem mem_drain_iff {nodes seeds : List α} (inside : ∀ a, ∀ b ∈ next a, b ∈ nodes)
    (seedsInside : ∀ a ∈ seeds, a ∈ nodes) {b : α} :
    b ∈ (drain next nodes.length (start seeds)).marked ↔
      ∃ a ∈ seeds, Relation.ReflTransGen (Step next) a b := by
  have inv : Inv next seeds (drain next nodes.length (Worklist.start seeds)) :=
    (Inv.start seeds).drain nodes.length
  refine ⟨inv.reached b, ?_⟩
  rintro ⟨a, seed, path⟩
  have empty : (drain next nodes.length (start seeds)).queue = [] := by
    refine drain_queue inside (Nat.le_trans (weight_markAll _ seedsInside) ?_)
    simp only [weight, List.length_nil, Nat.add_zero]
    exact List.countP_le_length
  induction path with
  | refl => exact inv.seeded a seed
  | tail _ step ih =>
    obtain queued | closed := inv.closed _ ih
    · rw [empty] at queued
      cases queued
    · exact closed _ step

end Worklist

end LispRlm.Foundation
