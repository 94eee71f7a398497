import LispRlm.Foundation.PrimeCertificates
import Mathlib.Tactic.NormNum.Prime

/-! The modulus of the field is a prime. -/

namespace LispRlm.Schnorr

open Foundation

def fieldPrime : Nat := 2 ^ 256 - 2 ^ 32 - 977

/-- The large factors of `p - 1`, of the predecessors of these, and so on. -/
theorem certificates :
    generates 13331831 13 [2, 5, 971, 1373] = true ∧
    generates 1206781 10 [2, 2, 3, 5, 20113] = true ∧
    generates 7240687 3 [2, 3, 1206781] = true ∧
    generates 107590001 3 [2, 2, 2, 2, 5, 5, 5, 5, 7, 29, 53] = true ∧
    generates 173378833005251801 6 [2, 2, 2, 5, 5, 2621, 24809, 13331831] = true ∧
    generates 22149492674086928081353 5 [2, 2, 2, 3, 5323, 173378833005251801] = true ∧
    generates 132896956044521568488119 6 [2, 3, 22149492674086928081353] = true ∧
    generates 255515944373312847190720520512484175977 3
      [2, 2, 2, 7, 7, 11, 1627, 2657, 4423, 41201, 96557, 7240687, 107590001] = true ∧
    generates 205115282021455665897114700593932402728804164701536103180137503955397371 10
      [2, 3, 5, 29, 29, 31, 7723, 132896956044521568488119,
        255515944373312847190720520512484175977] = true ∧
    generates fieldPrime 3 [2, 3, 7, 13441,
      205115282021455665897114700593932402728804164701536103180137503955397371] = true := by
  decide +kernel

theorem fieldPrime_prime : fieldPrime.Prime := by
  rcases certificates with ⟨c₁, c₂, c₃, c₄, c₅, c₆, c₇, c₈, c₉, c₁₀⟩
  have p₁ : Nat.Prime 13331831 := prime_of_generates (by decide) (by norm_num) c₁
  have p₂ : Nat.Prime 1206781 := prime_of_generates (by decide) (by norm_num) c₂
  have p₃ : Nat.Prime 7240687 := prime_of_generates (by decide)
    (by simp only [List.forall_mem_cons]; exact ⟨by norm_num, by norm_num, p₂, by simp⟩) c₃
  have p₄ : Nat.Prime 107590001 := prime_of_generates (by decide) (by norm_num) c₄
  have p₅ : Nat.Prime 173378833005251801 := by
    refine prime_of_generates (by decide) ?_ c₅
    simp only [List.forall_mem_cons]
    exact ⟨by norm_num, by norm_num, by norm_num, by norm_num, by norm_num, by norm_num,
      by norm_num, p₁, by simp⟩
  have p₆ : Nat.Prime 22149492674086928081353 := by
    refine prime_of_generates (by decide) ?_ c₆
    simp only [List.forall_mem_cons]
    exact ⟨by norm_num, by norm_num, by norm_num, by norm_num, by norm_num, p₅, by simp⟩
  have p₇ : Nat.Prime 132896956044521568488119 := by
    refine prime_of_generates (by decide) ?_ c₇
    simp only [List.forall_mem_cons]
    exact ⟨by norm_num, by norm_num, p₆, by simp⟩
  have p₈ : Nat.Prime 255515944373312847190720520512484175977 := by
    refine prime_of_generates (by decide) ?_ c₈
    simp only [List.forall_mem_cons]
    exact ⟨by norm_num, by norm_num, by norm_num, by norm_num, by norm_num, by norm_num,
      by norm_num, by norm_num, by norm_num, by norm_num, by norm_num, p₃, p₄, by simp⟩
  have p₉ : Nat.Prime 205115282021455665897114700593932402728804164701536103180137503955397371 := by
    refine prime_of_generates (by decide) ?_ c₉
    simp only [List.forall_mem_cons]
    exact ⟨by norm_num, by norm_num, by norm_num, by norm_num, by norm_num, by norm_num,
      by norm_num, p₇, p₈, by simp⟩
  refine prime_of_generates (by decide) ?_ c₁₀
  simp only [List.forall_mem_cons]
  exact ⟨by norm_num, by norm_num, by norm_num, by norm_num, p₉, by simp⟩

instance : Fact fieldPrime.Prime := ⟨fieldPrime_prime⟩

end LispRlm.Schnorr
