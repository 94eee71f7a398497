import LispRlm.Foundation.Limbs
import LispRlm.Foundation.LongDivision
import LispRlm.WasmEmit.Instructions

/-! Numbers as limbs of 32 bits, each in a word of 64: what the helpers for wide numbers do with
them. -/

namespace LispRlm.WasmEmit

open Foundation

/-- `w & 0xFFFF_FFFF` -/
def lowHalf (w : I64) : I64 := w &&& 0xFFFFFFFF

/-- `w >> 32` -/
def highHalf (w : I64) : I64 := w >>> 32

/-- `(h << 32) | l` -/
def joinHalves (h l : I64) : I64 := h <<< 32 ||| l

theorem lowHalf_toNat (w : I64) : (lowHalf w).toNat = w.toNat % 2 ^ 32 := by
  rw [lowHalf, BitVec.toNat_and]
  exact Nat.and_two_pow_sub_one_eq_mod w.toNat 32

theorem highHalf_toNat (w : I64) : (highHalf w).toNat = w.toNat / 2 ^ 32 := by
  rw [highHalf, BitVec.toNat_ushiftRight, Nat.shiftRight_eq_div_pow]

theorem joinHalves_toNat {h l : I64} (high : h.toNat < 2 ^ 32) (low : l.toNat < 2 ^ 32) :
    (joinHalves h l).toNat = l.toNat + 2 ^ 32 * h.toNat := by
  have fits : h.toNat <<< 32 < 2 ^ 64 := by
    rw [Nat.shiftLeft_eq]
    omega
  rw [joinHalves, BitVec.toNat_or, BitVec.toNat_shiftLeft, Nat.mod_eq_of_lt fits,
    ← Nat.shiftLeft_add_eq_or_of_lt low, Nat.shiftLeft_eq]
  omega

/-- A word's bit, as the code moves it down. -/
theorem bit_word (w : I64) (i : Nat) : (w >>> i &&& 1).toNat = (w.toNat.testBit i).toNat := by
  rw [Nat.toNat_testBit, BitVec.toNat_and, ← Nat.and_one_is_mod, ← Nat.shiftRight_eq_div_pow]
  rfl

theorem one_shift {i : Nat} (small : i < 64) : ((1 : I64) <<< i).toNat = 2 ^ i := by
  rw [BitVec.toNat_shiftLeft, Nat.shiftLeft_eq, show (1 : I64).toNat = 1 from rfl, Nat.one_mul]
  exact Nat.mod_eq_of_lt (Nat.pow_lt_pow_right (by decide) small)

namespace Halves

/-- Every limb fits 32 bits. -/
def Valid (ws : List I64) : Prop := ∀ w ∈ ws, w.toNat < 2 ^ 32

def value (ws : List I64) : Nat := Nat.ofDigits (2 ^ 32) (ws.map BitVec.toNat)

@[simp] theorem value_nil : value [] = 0 := rfl

@[simp] theorem value_cons (w : I64) (ws : List I64) :
    value (w :: ws) = w.toNat + 2 ^ 32 * value ws := by
  simp [value, Nat.ofDigits_cons]

theorem Valid.head {w : I64} {ws : List I64} (valid : Valid (w :: ws)) : w.toNat < 2 ^ 32 :=
  valid w List.mem_cons_self

theorem Valid.tail {w : I64} {ws : List I64} (valid : Valid (w :: ws)) : Valid ws :=
  fun x mem => valid x (List.mem_cons_of_mem w mem)

theorem Valid.nil : Valid [] := nofun

theorem Valid.cons {w : I64} {ws : List I64} (head : w.toNat < 2 ^ 32) (tail : Valid ws) :
    Valid (w :: ws) := by
  intro x mem
  rcases List.mem_cons.mp mem with rfl | mem
  · exact head
  · exact tail x mem

theorem lowHalf_lt (w : I64) : (lowHalf w).toNat < 2 ^ 32 := by
  rw [lowHalf_toNat]
  exact Nat.mod_lt _ (by decide)

theorem base_pow (n : Nat) : 2 ^ (32 * (n + 1)) = 2 ^ 32 * 2 ^ (32 * n) := by
  rw [Nat.mul_succ, Nat.add_comm, Nat.pow_add 2 32]

theorem value_lt {ws : List I64} (valid : Valid ws) : value ws < 2 ^ (32 * ws.length) := by
  induction ws with
  | nil => simp
  | cons w ws ih =>
      have head := valid.head
      have below := ih valid.tail
      rw [value_cons, List.length_cons, base_pow]
      calc w.toNat + 2 ^ 32 * value ws
          < 2 ^ 32 * (value ws + 1) := by omega
        _ ≤ 2 ^ 32 * 2 ^ (32 * ws.length) := Nat.mul_le_mul_left _ below

/-! ### Carries -/

/-- A carry goes up through the limbs. -/
def propagate : I64 → List I64 → List I64 × I64
  | t, [] => ([], t)
  | t, r :: rs =>
      let u := r + t
      let (rest, out) := propagate (highHalf u) rs
      (lowHalf u :: rest, out)

/-- A word is added at the lowest limb. -/
def addWord (t : I64) : List I64 → List I64 × I64
  | [] => ([], t)
  | r :: rs =>
      let u := r + lowHalf t
      let (rest, out) := propagate (highHalf t + highHalf u) rs
      (lowHalf u :: rest, out)

theorem low_add_high (w : I64) : (lowHalf w).toNat + 2 ^ 32 * (highHalf w).toNat = w.toNat := by
  rw [lowHalf_toNat, highHalf_toNat]
  exact Nat.mod_add_div w.toNat (2 ^ 32)

theorem propagate_spec {t : I64} {rs : List I64} (small : t.toNat ≤ 2 ^ 33) (valid : Valid rs) :
    (propagate t rs).1.length = rs.length ∧ Valid (propagate t rs).1 ∧
      (propagate t rs).2.toNat ≤ 2 ^ 33 ∧
      value (propagate t rs).1 + 2 ^ (32 * rs.length) * (propagate t rs).2.toNat =
        value rs + t.toNat := by
  induction rs generalizing t with
  | nil => exact ⟨rfl, .nil, small, by simp [propagate]⟩
  | cons r rs ih =>
      have head := valid.head
      have sum : (r + t).toNat = r.toNat + t.toNat := by
        rw [BitVec.toNat_add]
        omega
      have next : (highHalf (r + t)).toNat ≤ 2 ^ 33 := by
        rw [highHalf_toNat]
        omega
      obtain ⟨length, rest, out, total⟩ := ih next valid.tail
      refine ⟨congrArg (· + 1) length, .cons (lowHalf_lt _) rest, out, ?_⟩
      have here := low_add_high (r + t)
      simp only [propagate, value_cons, List.length_cons, base_pow]
      rw [sum] at here
      linear_combination here + 2 ^ 32 * total

theorem addWord_spec {t : I64} {rs : List I64} (room : rs ≠ []) (valid : Valid rs) :
    (addWord t rs).1.length = rs.length ∧ Valid (addWord t rs).1 ∧
      (addWord t rs).2.toNat ≤ 2 ^ 33 ∧
      value (addWord t rs).1 + 2 ^ (32 * rs.length) * (addWord t rs).2.toNat =
        value rs + t.toNat := by
  cases rs with
  | nil => exact (room rfl).elim
  | cons r rs =>
      have head := valid.head
      have low := lowHalf_lt t
      have whole := t.isLt
      have sum : (r + lowHalf t).toNat = r.toNat + (lowHalf t).toNat := by
        rw [BitVec.toNat_add]
        omega
      have carry : (highHalf t + highHalf (r + lowHalf t)).toNat =
          (highHalf t).toNat + (highHalf (r + lowHalf t)).toNat := by
        rw [BitVec.toNat_add, highHalf_toNat, highHalf_toNat]
        omega
      have small : (highHalf t + highHalf (r + lowHalf t)).toNat ≤ 2 ^ 33 := by
        rw [carry, highHalf_toNat, highHalf_toNat]
        omega
      obtain ⟨length, rest, out, total⟩ := propagate_spec small valid.tail
      refine ⟨congrArg (· + 1) length, .cons (lowHalf_lt _) rest, out, ?_⟩
      have here := low_add_high (r + lowHalf t)
      have split := low_add_high t
      simp only [addWord, value_cons, List.length_cons, base_pow]
      rw [sum] at here
      rw [carry] at total
      linear_combination here + 2 ^ 32 * total + split

/-! ### Products -/

/-- A row of the schoolbook product: each limb's product is added from that limb's place on. -/
def mulRow (a : I64) : List I64 → List I64 → List I64
  | [], ps => ps
  | b :: bs, ps =>
      match (addWord (a * b) ps).1 with
      | [] => []
      | p :: rest => p :: mulRow a bs rest

def schoolbook : List I64 → List I64 → List I64 → List I64
  | [], _, ps => ps
  | a :: as, bs, ps =>
      match mulRow a bs ps with
      | [] => []
      | p :: rest => p :: schoolbook as bs rest

/-- A product of two limbs fits a word. -/
theorem mul_toNat {a b : I64} (left : a.toNat < 2 ^ 32) (right : b.toNat < 2 ^ 32) :
    (a * b).toNat = a.toNat * b.toNat := by
  have product : a.toNat * b.toNat < 2 ^ 32 * 2 ^ 32 := Nat.mul_lt_mul'' left right
  rw [BitVec.toNat_mul]
  exact Nat.mod_eq_of_lt (by omega)

theorem mulRow_spec {a : I64} {bs ps : List I64} (limb : a.toNat < 2 ^ 32) (factor : Valid bs)
    (valid : Valid ps) (room : bs.length < ps.length + 1) :
    (mulRow a bs ps).length = ps.length ∧ Valid (mulRow a bs ps) ∧
      value (mulRow a bs ps) ≡ value ps + a.toNat * value bs [MOD 2 ^ (32 * ps.length)] := by
  induction bs generalizing ps with
  | nil => exact ⟨rfl, valid, by simp [mulRow, Nat.ModEq.refl]⟩
  | cons b bs ih =>
      cases ps with
      | nil => simp at room
      | cons p0 ps =>
          obtain ⟨length, made, -, total⟩ := addWord_spec (t :=
              a * b) (List.cons_ne_nil p0 ps) valid
          rw [mul_toNat limb factor.head] at total
          rw [mulRow]
          cases added : (addWord (a * b) (p0 :: ps)).1 with
          | nil => simp [added] at length
          | cons p rest =>
              rw [added] at length made total
              have same : rest.length = ps.length := Nat.succ.inj length
              have fits : bs.length < rest.length + 1 := by
                rw [List.length_cons, List.length_cons] at room
                omega
              obtain ⟨long, more, above⟩ := ih factor.tail made.tail fits
              refine ⟨by rw [List.length_cons, long, List.length_cons, same], .cons made.head more,
                ?_⟩
              rw [same] at above
              have scaled := above.mul_left' (2 ^ 32)
              rw [value_cons] at total
              rw [List.length_cons, base_pow, value_cons, value_cons b bs] at *
              calc p.toNat + 2 ^ 32 * value (mulRow a bs rest)
                  ≡ p.toNat + 2 ^ 32 * (value rest + a.toNat * value bs)
                    [MOD 2 ^ 32 * 2 ^ (32 * ps.length)] := scaled.add_left _
                _ ≡ p.toNat + 2 ^ 32 * value rest + 2 ^ 32 * 2 ^ (32 * ps.length) *
                      (addWord (a * b) (p0 :: ps)).2.toNat + 2 ^ 32 * (a.toNat * value bs)
                    [MOD 2 ^ 32 * 2 ^ (32 * ps.length)] := by
                  have carried : p.toNat + 2 ^ 32 * value rest ≡ p.toNat + 2 ^ 32 * value rest +
                      2 ^ 32 * 2 ^ (32 * ps.length) * (addWord (a * b) (p0 :: ps)).2.toNat
                      [MOD 2 ^ 32 * 2 ^ (32 * ps.length)] := by
                    rw [Nat.ModEq, Nat.add_mul_mod_self_left]
                  rw [Nat.mul_add, ← Nat.add_assoc]
                  exact carried.add_right _
                _ = p0.toNat + 2 ^ 32 * value ps + a.toNat * (b.toNat + 2 ^ 32 * value bs) := by
                  rw [total]
                  ring
                _ = value (p0 :: ps) + a.toNat * (b.toNat + 2 ^ 32 * value bs) := by
                  rw [value_cons]

theorem schoolbook_spec {as bs ps : List I64} (left : Valid as) (right : Valid bs)
    (valid : Valid ps) (room : as.length + bs.length ≤ ps.length) :
    (schoolbook as bs ps).length = ps.length ∧ Valid (schoolbook as bs ps) ∧
      value (schoolbook as bs ps) ≡ value ps + value as * value bs
        [MOD 2 ^ (32 * ps.length)] := by
  induction as generalizing ps with
  | nil => exact ⟨rfl, valid, by simp [schoolbook, Nat.ModEq.refl]⟩
  | cons a as ih =>
      rw [List.length_cons] at room
      obtain ⟨length, made, row⟩ := mulRow_spec left.head right valid (by omega)
      rw [schoolbook]
      cases added : mulRow a bs ps with
      | nil =>
          rw [added] at length
          rw [← length] at room
          simp at room
      | cons p rest =>
          rw [added] at length made row
          rw [List.length_cons] at length
          obtain ⟨long, more, above⟩ := ih left.tail made.tail (by omega)
          refine ⟨by rw [List.length_cons, long, length], .cons made.head more, ?_⟩
          have scaled := above.mul_left' (2 ^ 32)
          rw [← base_pow, length] at scaled
          rw [value_cons] at row ⊢
          rw [value_cons a as]
          calc p.toNat + 2 ^ 32 * value (schoolbook as bs rest)
              ≡ p.toNat + 2 ^ 32 * (value rest + value as * value bs)
                [MOD 2 ^ (32 * ps.length)] := scaled.add_left _
            _ = p.toNat + 2 ^ 32 * value rest + 2 ^ 32 * (value as * value bs) := by ring
            _ ≡ value ps + a.toNat * value bs + 2 ^ 32 * (value as * value bs)
                [MOD 2 ^ (32 * ps.length)] := row.add_right _
            _ = value ps + (a.toNat + 2 ^ 32 * value as) * value bs := by ring

theorem valid_zeros (n : Nat) : Valid (List.replicate n 0) := by
  intro w mem
  rw [List.eq_of_mem_replicate mem]
  decide

theorem value_zeros (n : Nat) : value (List.replicate n 0) = 0 := by
  induction n with
  | zero => rfl
  | succ n ih => rw [List.replicate_succ, value_cons, ih]; rfl

/-- Into as many limbs as the factors have together, the product is exact. -/
theorem schoolbook_value {as bs : List I64} (left : Valid as) (right : Valid bs) :
    value (schoolbook as bs (List.replicate (as.length + bs.length) 0)) =
      value as * value bs := by
  have room : as.length + bs.length ≤ (List.replicate (as.length + bs.length) (0 : I64)).length :=
    List.length_replicate.ge
  obtain ⟨length, made, product⟩ := schoolbook_spec left right (valid_zeros _) room
  rw [value_zeros, Nat.zero_add, List.length_replicate] at product
  have bound := value_lt made
  rw [length, List.length_replicate] at bound
  refine product.eq_of_lt_of_lt bound ?_
  rw [Nat.mul_add, Nat.pow_add]
  exact Nat.mul_lt_mul'' (value_lt left) (value_lt right)

end Halves

end LispRlm.WasmEmit
