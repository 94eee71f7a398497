import Mathlib.Data.List.Basic

/-! Ranges of addresses, and memories that are written inside of them. -/

namespace LispRlm.Foundation

structure Range where
  start : Nat
  size : Nat
  deriving DecidableEq

namespace Range

def stop (r : Range) : Nat := r.start + r.size

/-- No address is in both. -/
def Apart (a b : Range) : Prop := ∀ x, a.start ≤ x → x < a.stop → b.start ≤ x → b.stop ≤ x

theorem Apart.symm {a b : Range} (apart : Apart a b) : Apart b a := by
  intro x fromB toB fromA
  by_contra inA
  have := apart x fromA (Nat.lt_of_not_le inA) fromB
  omega

theorem apart_of_le {a b : Range} (le : a.stop ≤ b.start) : Apart a b := by
  intro x _ toA fromB
  omega

theorem apart_of_empty {a b : Range} (empty : a.size = 0) : Apart a b := by
  intro x fromA toA _
  unfold stop at toA
  omega

theorem not_apart {a b : Range} {x : Nat} (fromA : a.start ≤ x) (toA : x < a.stop)
    (fromB : b.start ≤ x) (toB : x < b.stop) : ¬ Apart a b := by
  intro apart
  have := apart x fromA toA fromB
  omega

theorem apart_iff {a b : Range} :
    Apart a b ↔ a.size = 0 ∨ b.size = 0 ∨ a.stop ≤ b.start ∨ b.stop ≤ a.start := by
  constructor
  · intro apart
    by_contra meet
    simp only [not_or, Nat.not_le] at meet
    obtain ⟨someA, someB, ahead, behind⟩ := meet
    have := apart (max a.start b.start)
    unfold stop at *
    omega
  · rintro (empty | empty | le | le)
    · exact apart_of_empty empty
    · exact (apart_of_empty empty).symm
    · exact apart_of_le le
    · exact (apart_of_le le).symm

instance (a b : Range) : Decidable (Apart a b) := decidable_of_iff _ apart_iff.symm

end Range

/-- Memory with one byte changed. -/
def stored (memory : Nat → UInt8) (x : Nat) (byte : UInt8) : Nat → UInt8 :=
  fun y => if y = x then byte else memory y

/-- A store into one range changes nothing that is read from the other. -/
theorem Range.Apart.stored {a b : Range} (apart : Apart a b) (memory : Nat → UInt8) {x : Nat}
    (fromA : a.start ≤ x) (toA : x < a.stop) (byte : UInt8) {y : Nat} (fromB : b.start ≤ y)
    (toB : y < b.stop) : stored memory x byte y = memory y := by
  unfold Foundation.stored
  have other : y ≠ x := by
    rintro rfl
    have := apart y fromA toA fromB
    omega
  rw [if_neg other]

/-- Memory with bytes changed, one after the other. -/
def storedAll (memory : Nat → UInt8) : List (Nat × UInt8) → Nat → UInt8
  | [] => memory
  | (x, byte) :: writes => storedAll (stored memory x byte) writes

/-- No run of stores into one range changes what is read from the other. -/
theorem Range.Apart.storedAll {a b : Range} (apart : Apart a b) {writes : List (Nat × UInt8)}
    (inside : ∀ write ∈ writes, a.start ≤ write.1 ∧ write.1 < a.stop) (memory : Nat → UInt8)
    {y : Nat} (fromB : b.start ≤ y) (toB : y < b.stop) :
    storedAll memory writes y = memory y := by
  induction writes generalizing memory with
  | nil => rfl
  | cons write writes ih =>
      obtain ⟨fromA, toA⟩ := inside write List.mem_cons_self
      have later := ih (fun w mem => inside w (List.mem_cons_of_mem write mem))
        (Foundation.stored memory write.1 write.2)
      exact later.trans (apart.stored memory fromA toA write.2 fromB toB)

/-- Members of a list that a symmetric relation holds along. -/
theorem pairwise_members {α : Type} {R : α → α → Prop} (symm : ∀ a b, R a b → R b a) {l : List α}
    (along : l.Pairwise R) {a b : α} (memA : a ∈ l) (memB : b ∈ l) (apart : a ≠ b) : R a b := by
  induction along with
  | nil => cases memA
  | @cons c l first later ih =>
      rcases List.mem_cons.mp memA with rfl | inA
      · rcases List.mem_cons.mp memB with rfl | inB
        · exact (apart rfl).elim
        · exact first b inB
      · rcases List.mem_cons.mp memB with rfl | inB
        · exact symm _ _ (first a inA)
        · exact ih inA inB

end LispRlm.Foundation
