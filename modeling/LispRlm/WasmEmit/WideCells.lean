import LispRlm.Foundation.Limbs
import LispRlm.WasmEmit.Instructions
import Mathlib.Data.Nat.Digits.Defs

/-! Numbers of several words in the linear memory. -/

namespace LispRlm.WasmEmit

namespace LinearMemory

/-- The number in `k` bytes, the lowest byte first. -/
def number (m : LinearMemory) (p k : Nat) : Nat :=
  Nat.ofDigits 256 ((List.range k).map fun i => (m.bytes (p + i)).toNat)

/-- The memory with a number in `k` of its bytes. -/
def put (m : LinearMemory) (p k n : Nat) : LinearMemory :=
  { m with bytes := fun i =>
      if p ≤ i ∧ i < p + k then BitVec.ofNat 8 (n / 256 ^ (i - p)) else m.bytes i }

variable {m : LinearMemory}

@[simp] theorem put_size (p k n : Nat) : (m.put p k n).size = m.size := rfl

@[simp] theorem number_zero (p : Nat) : m.number p 0 = 0 := rfl

theorem number_succ (p k : Nat) :
    m.number p (k + 1) = (m.bytes p).toNat + 256 * m.number (p + 1) k := by
  have rest : (fun i => (m.bytes (p + i)).toNat) ∘ Nat.succ =
      fun i => (m.bytes (p + 1 + i)).toNat := by
    funext i
    rw [Function.comp_apply, Nat.succ_eq_one_add, Nat.add_assoc]
  rw [number, List.range_succ_eq_map, List.map_cons, List.map_map, rest, Nat.ofDigits_cons]
  rfl

theorem number_add (p j k : Nat) :
    m.number p (j + k) = m.number p j + 256 ^ j * m.number (p + j) k := by
  induction j generalizing p with
  | zero => simp
  | succ j ih =>
      have shifted : p + 1 + j = p + (j + 1) := by omega
      rw [Nat.succ_add, number_succ, ih, number_succ, shifted]
      ring

theorem number_lt (p k : Nat) : m.number p k < 256 ^ k := by
  induction k generalizing p with
  | zero => simp
  | succ k ih =>
      have byte := (m.bytes p).isLt
      have above := ih (p + 1)
      rw [number_succ, Nat.pow_succ]
      omega

theorem number_congr {m' : LinearMemory} {p k : Nat}
    (same : ∀ i, p ≤ i → i < p + k → m'.bytes i = m.bytes i) : m'.number p k = m.number p k := by
  unfold number
  congr 1
  apply List.map_congr_left
  intro i mem
  rw [same (p + i) (Nat.le_add_right p i) (Nat.add_lt_add_left (List.mem_range.mp mem) p)]

theorem put_bytes (p k n i : Nat) :
    (m.put p k n).bytes i =
      if p ≤ i ∧ i < p + k then BitVec.ofNat 8 (n / 256 ^ (i - p)) else m.bytes i := rfl

theorem number_put (p k n : Nat) : (m.put p k n).number p k = n % 256 ^ k := by
  induction k generalizing p n m with
  | zero => simp [Nat.mod_one]
  | succ k ih =>
      have first : ((m.put p (k + 1) n).bytes p).toNat = n % 256 := by
        rw [put_bytes, if_pos (by omega), Nat.sub_self, Nat.pow_zero, Nat.div_one]
        rfl
      have rest : (m.put p (k + 1) n).number (p + 1) k =
          (m.put (p + 1) k (n / 256)).number (p + 1) k := by
        apply number_congr
        intro i above below
        obtain ⟨j, rfl⟩ := Nat.exists_eq_add_of_le above
        have index : p + 1 + j - p = j + 1 := by omega
        have index' : p + 1 + j - (p + 1) = j := by omega
        rw [put_bytes, put_bytes, if_pos (by omega), if_pos (by omega), index, index',
          Nat.pow_succ, Nat.mul_comm, Nat.div_div_eq_div_mul]
      rw [number_succ, first, rest, ih, Nat.pow_succ, Nat.mul_comm (256 ^ k), Nat.mod_mul]

theorem number_put_apart {p k n q j : Nat} (apart : q + j ≤ p ∨ p + k ≤ q) :
    (m.put p k n).number q j = m.number q j := by
  apply number_congr
  intro i above below
  rw [put_bytes, if_neg (by omega)]

theorem eq_of_bytes {m' : LinearMemory} (bytes : ∀ i, m.bytes i = m'.bytes i)
    (size : m.size = m'.size) : m = m' := by
  cases m
  cases m'
  obtain rfl : _ = _ := funext bytes
  obtain rfl := size
  rfl

/-- Two numbers beside one another are one. -/
theorem put_put {p j k a b : Nat} (small : a < 256 ^ j) :
    (m.put p j a).put (p + j) k b = m.put p (j + k) (a + 256 ^ j * b) := by
  refine eq_of_bytes (fun i => ?_) rfl
  rw [put_bytes, put_bytes, put_bytes]
  by_cases inFirst : p ≤ i ∧ i < p + j
  · obtain ⟨o, rfl⟩ := Nat.exists_eq_add_of_le inFirst.1
    have index : p + o - p = o := by omega
    obtain ⟨more, rfl⟩ : ∃ more, j = o + 1 + more := ⟨j - o - 1, by omega⟩
    have split : a + 256 ^ (o + 1 + more) * b = a + 256 ^ o * (256 * (256 ^ more * b)) := by
      rw [Nat.pow_add, Nat.pow_succ]
      ring
    rw [if_neg (by omega), if_pos inFirst, if_pos (by omega), index, split,
      Nat.add_mul_div_left _ _ (Nat.pow_pos (by decide))]
    apply BitVec.eq_of_toNat_eq
    rw [BitVec.toNat_ofNat, BitVec.toNat_ofNat]
    exact (Nat.add_mul_mod_self_left _ 256 _).symm
  · by_cases inSecond : p + j ≤ i ∧ i < p + j + k
    · obtain ⟨o, rfl⟩ := Nat.exists_eq_add_of_le inSecond.1
      have index : p + j + o - p = j + o := by omega
      have index' : p + j + o - (p + j) = o := by omega
      rw [if_pos inSecond, if_pos (by omega), index, index', Nat.pow_add,
        ← Nat.div_div_eq_div_mul, Nat.add_mul_div_left _ _ (Nat.pow_pos (by decide)),
        Nat.div_eq_of_lt small, Nat.zero_add]
    · rw [if_neg inSecond, if_neg inFirst, if_neg (by omega)]

theorem byte_number {p k i : Nat} (within : i < k) :
    (m.bytes (p + i)).toNat = m.number p k / 256 ^ i % 256 := by
  obtain ⟨more, rfl⟩ : ∃ more, k = i + (more + 1) := ⟨k - i - 1, by omega⟩
  have below := number_lt (m := m) p i
  rw [number_add, number_succ, Nat.add_mul_div_left _ _ (Nat.pow_pos (by decide)),
    Nat.div_eq_of_lt below, Nat.zero_add, Nat.add_mul_mod_self_left]
  exact (Nat.mod_eq_of_lt (m.bytes (p + i)).isLt).symm

/-- A number that is there already changes nothing. -/
theorem put_eq_self_iff {p k n : Nat} (small : n < 256 ^ k) :
    m.put p k n = m ↔ m.number p k = n := by
  constructor
  · intro same
    rw [← same, number_put]
    exact Nat.mod_eq_of_lt small
  · intro same
    refine eq_of_bytes (fun i => ?_) rfl
    rw [put_bytes]
    split_ifs with inside
    · obtain ⟨o, rfl⟩ := Nat.exists_eq_add_of_le inside.1
      have byte := byte_number (m := m) (p := p) (k := k) (i := o) (by omega)
      apply BitVec.eq_of_toNat_eq
      rw [byte, same, Nat.add_sub_cancel_left, BitVec.toNat_ofNat]
    · rfl

/-! ### Words -/

theorem foldr_bytes {bytes : List (BitVec 8)} (few : bytes.length ≤ 8) :
    (bytes.foldr (fun b (w : I64) => w <<< 8 ||| b.setWidth 64) 0).toNat =
      Nat.ofDigits 256 (bytes.map BitVec.toNat) := by
  induction bytes with
  | nil => rfl
  | cons b bytes ih =>
      rw [List.length_cons] at few
      have above := ih (by omega)
      have byte := b.isLt
      have bound : Nat.ofDigits 256 (bytes.map BitVec.toNat) < 256 ^ 7 := by
        refine Nat.lt_of_lt_of_le (Nat.ofDigits_lt_base_pow_length (by decide) ?_)
          (Nat.pow_le_pow_right (by decide) (by rw [List.length_map]; omega))
        intro d mem
        obtain ⟨c, -, rfl⟩ := List.mem_map.mp mem
        exact c.isLt
      have wide : (b.setWidth 64).toNat = b.toNat := by
        rw [BitVec.toNat_setWidth]
        exact Nat.mod_eq_of_lt (by omega)
      rw [List.foldr_cons, BitVec.toNat_or, BitVec.toNat_shiftLeft, above, wide, List.map_cons,
        Nat.ofDigits_cons, Nat.mod_eq_of_lt (by rw [Nat.shiftLeft_eq]; omega),
        ← Nat.shiftLeft_add_eq_or_of_lt byte, Nat.shiftLeft_eq]
      push_cast
      ring

theorem loadI64_number {p : Nat} (room : p + 8 ≤ m.size) :
    ∃ w : I64, m.loadI64 p = some w ∧ w.toNat = m.number p 8 := by
  refine ⟨_, if_pos room, ?_⟩
  have folded := foldr_bytes
    (show ((List.range 8).map fun i => m.bytes (p + i)).length ≤ 8 by simp)
  rw [List.foldr_map, List.map_map] at folded
  exact folded

theorem storeI64_put {p : Nat} (room : p + 8 ≤ m.size) (w : I64) :
    m.storeI64 p w = some (m.put p 8 w.toNat) := by
  unfold storeI64 put
  rw [if_pos room]
  congr 2
  funext i
  split_ifs with inside
  · apply BitVec.eq_of_toNat_eq
    rw [BitVec.toNat_setWidth, BitVec.toNat_ushiftRight, Nat.shiftRight_eq_div_pow,
      BitVec.toNat_ofNat, Nat.pow_mul]
  · rfl

/-- The address of a word: the sum is taken in 64 bits and wrapped. -/
def cellAddress (p : I64) (offset : Nat) : Nat := ((p + BitVec.ofNat 64 offset).setWidth 32).toNat

def loadWord (m : LinearMemory) (p : I64) (offset : Nat) : Option I64 :=
  m.loadI64 (cellAddress p offset)

def storeWord (m : LinearMemory) (p : I64) (offset : Nat) (w : I64) : Option LinearMemory :=
  m.storeI64 (cellAddress p offset) w

def loadWords (m : LinearMemory) (p : I64) : Nat → Nat → Option (List I64)
  | _, 0 => some []
  | offset, n + 1 => do
      let w ← m.loadWord p offset
      let ws ← loadWords m p (offset + 8) n
      some (w :: ws)

def storeWords (p : I64) : LinearMemory → Nat → List I64 → Option LinearMemory
  | m, _, [] => some m
  | m, offset, w :: ws => do
      let m ← m.storeWord p offset w
      storeWords p m (offset + 8) ws

/-- A cell of `n` bytes in the memory. -/
structure Placed (m : LinearMemory) (p : I64) (n : Nat) : Prop where
  inside : p.toNat + n ≤ m.size
  small : m.size ≤ 2 ^ 32

theorem Placed.put {p : I64} {n q k a : Nat} (placed : Placed m p n) : Placed (m.put q k a) p n :=
  ⟨placed.inside, placed.small⟩

theorem Placed.address {p : I64} {n offset : Nat} (placed : Placed m p n) (within : offset < n) :
    cellAddress p offset = p.toNat + offset := by
  have inside := placed.inside
  have small := placed.small
  rw [cellAddress, BitVec.toNat_setWidth, BitVec.toNat_add, BitVec.toNat_ofNat]
  omega

theorem Placed.loadWord {p : I64} {n offset : Nat} (placed : Placed m p n)
    (within : offset + 8 ≤ n) :
    ∃ w, m.loadWord p offset = some w ∧ w.toNat = m.number (p.toNat + offset) 8 := by
  have inside := placed.inside
  rw [LinearMemory.loadWord, placed.address (by omega)]
  exact loadI64_number (by omega)

theorem Placed.storeWord {p : I64} {n offset : Nat} (placed : Placed m p n)
    (within : offset + 8 ≤ n) (w : I64) :
    m.storeWord p offset w = some (m.put (p.toNat + offset) 8 w.toNat) := by
  have inside := placed.inside
  rw [LinearMemory.storeWord, placed.address (by omega)]
  exact storeI64_put (by omega) w

theorem Placed.loadWords {p : I64} {n offset count : Nat} (placed : Placed m p n)
    (within : offset + 8 * count ≤ n) :
    ∃ ws, m.loadWords p offset count = some ws ∧ ws.length = count ∧
      Foundation.Limbs.value ws = m.number (p.toNat + offset) (8 * count) := by
  induction count generalizing offset with
  | zero => exact ⟨[], rfl, rfl, rfl⟩
  | succ count ih =>
      obtain ⟨w, loaded, word⟩ := placed.loadWord (show offset + 8 ≤ n by omega)
      obtain ⟨ws, more, length, rest⟩ := ih (show offset + 8 + 8 * count ≤ n by omega)
      refine ⟨w :: ws, ?_, congrArg (· + 1) length, ?_⟩
      · rw [LinearMemory.loadWords, loaded, more]
        rfl
      · rw [Foundation.Limbs.value_cons, rest, word, Nat.mul_succ, Nat.add_comm (8 * count),
          number_add, Nat.add_assoc]
        rfl

theorem Placed.storeWords {p : I64} {n offset : Nat} (ws : List I64) (placed : Placed m p n)
    (within : offset + 8 * ws.length ≤ n) :
    storeWords p m offset ws =
      some (m.put (p.toNat + offset) (8 * ws.length) (Foundation.Limbs.value ws)) := by
  induction ws generalizing m offset with
  | nil =>
      refine congrArg some (eq_of_bytes (fun i => ?_) rfl)
      rw [put_bytes, if_neg (by simp only [List.length_nil]; omega)]
  | cons w ws ih =>
      rw [List.length_cons] at within
      have stored := placed.storeWord (show offset + 8 ≤ n by omega) w
      have rest := ih (m := m.put (p.toNat + offset) 8 w.toNat) placed.put
        (show offset + 8 + 8 * ws.length ≤ n by omega)
      have joined := put_put (m := m) (p := p.toNat + offset) (j := 8) (k := 8 * ws.length)
        (b := Foundation.Limbs.value ws) w.isLt
      rw [LinearMemory.storeWords, stored, List.length_cons, Foundation.Limbs.value_cons,
        Nat.mul_succ, Nat.add_comm (8 * ws.length)]
      exact rest.trans (congrArg some joined)

/-- The two words of a cell of 16 bytes. -/
theorem Placed.pair {p : I64} (placed : Placed m p 16) :
    ∃ lo hi, m.loadWord p 0 = some lo ∧ m.loadWord p 8 = some hi ∧
      m.number p.toNat 16 = lo.toNat + 2 ^ 64 * hi.toNat := by
  obtain ⟨lo, loaded, low⟩ := placed.loadWord (show 0 + 8 ≤ 16 by decide)
  obtain ⟨hi, loaded', high⟩ := placed.loadWord (show 8 + 8 ≤ 16 by decide)
  exact ⟨lo, hi, loaded, loaded', by rw [low, high, number_add p.toNat 8 8]; rfl⟩

theorem Placed.storePair {p : I64} (placed : Placed m p 16) (lo hi : I64) :
    (m.storeWord p 0 lo >>= fun m => m.storeWord p 8 hi) =
      some (m.put p.toNat 16 (lo.toNat + 2 ^ 64 * hi.toNat)) := by
  have stored := placed.storeWords [lo, hi] (show 0 + 8 * 2 ≤ 16 by decide)
  simpa [LinearMemory.storeWords] using stored

end LinearMemory

end LispRlm.WasmEmit
