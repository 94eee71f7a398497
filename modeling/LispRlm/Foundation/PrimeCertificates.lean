import Mathlib.NumberTheory.LucasPrimality

/-! Primes by the factors of their predecessors. -/

namespace LispRlm.Foundation

/-- `base ^ exp % m` for an exponent of at most so many bits, by squares. -/
def powMod (m : Nat) : Nat → Nat → Nat → Nat
  | 0, _, _ => 1 % m
  | bits + 1, base, exp =>
      let rest := powMod m bits (base * base % m) (exp / 2)
      if exp % 2 = 0 then rest else base * rest % m

theorem powMod_eq (m : Nat) {bits base exp : Nat} (fits : exp < 2 ^ bits) :
    powMod m bits base exp = base ^ exp % m := by
  induction bits generalizing base exp with
  | zero =>
    have zero : exp = 0 := by omega
    rw [zero, powMod, Nat.pow_zero]
  | succ bits ih =>
    have half : exp / 2 < 2 ^ bits := by omega
    have square : powMod m bits (base * base % m) (exp / 2) = base ^ (2 * (exp / 2)) % m := by
      rw [ih half, ← Nat.pow_mod, ← Nat.pow_two, ← Nat.pow_mul]
    rw [powMod, square]
    split
    · rename_i even
      rw [Nat.mul_div_cancel' (Nat.dvd_of_mod_eq_zero even)]
    · rename_i odd
      have split : exp = 2 * (exp / 2) + 1 := by omega
      conv_rhs => rw [split]
      rw [Nat.mul_mod_mod, Nat.pow_succ, Nat.mul_comm]

/-- `root` generates the units modulo `n`, as the factors of `n - 1` tell. -/
def generates (n root : Nat) (factors : List Nat) : Bool :=
  factors.prod == n - 1 && powMod n (n.log2 + 1) root (n - 1) == 1 &&
    factors.all fun q => powMod n (n.log2 + 1) root ((n - 1) / q) != 1

theorem prime_of_generates {n root : Nat} {factors : List Nat} (large : 1 < n)
    (primes : ∀ q ∈ factors, q.Prime) (generated : generates n root factors = true) : n.Prime := by
  rw [generates, Bool.and_eq_true, Bool.and_eq_true, beq_iff_eq, beq_iff_eq,
    List.all_eq_true] at generated
  rcases generated with ⟨⟨product, whole⟩, parts⟩
  have fits : ∀ k, k ≤ n - 1 → k < 2 ^ (n.log2 + 1) := fun k small =>
    Nat.lt_of_le_of_lt (Nat.le_trans small (Nat.sub_le n 1)) Nat.lt_log2_self
  have power (k : Nat) (small : k ≤ n - 1) :
      (root : ZMod n) ^ k = 1 ↔ powMod n (n.log2 + 1) root k = 1 := by
    rw [powMod_eq n (fits k small), ← Nat.cast_pow, ← Nat.cast_one,
      ZMod.natCast_eq_natCast_iff', Nat.mod_eq_of_lt large]
  refine lucas_primality n root ((power _ (Nat.le_refl _)).mpr whole) ?_
  intro q prime divides
  rw [← product] at divides
  rcases (Prime.dvd_prod_iff prime.prime).mp divides with ⟨f, mem, divides⟩
  cases (Nat.prime_dvd_prime_iff_eq prime (primes f mem)).mp divides
  intro one
  have other := parts q mem
  rw [(power _ (Nat.div_le_self _ _)).mp one] at other
  cases other

end LispRlm.Foundation
