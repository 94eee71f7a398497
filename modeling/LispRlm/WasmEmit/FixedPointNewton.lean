import LispRlm.WasmEmit.FixedPoint
import Mathlib.Analysis.Real.Sqrt

/-! `fp64/div` and `fp64/sqrt`: a fixed number of Newton steps from an estimate. -/

namespace LispRlm.WasmEmit

open LinearMemory

namespace FixedPoint

open U128 (pair)

/-- The words of the cell at `p`. -/
def loadCell (m : LinearMemory) (p : I64) : Option (I64 × I64) := do
  let lo ← m.loadI64 (p.setWidth 32).toNat
  let hi ← m.loadI64 ((p.setWidth 32).toNat + 8)
  some (lo, hi)

def storeCell (m : LinearMemory) (p lo hi : I64) : Option LinearMemory := do
  let m ← m.storeI64 (p.setWidth 32).toNat lo
  m.storeI64 (p.setWidth 32 + 8).toNat hi

/-! ### Division -/

/-- The first estimate of the reciprocal. -/
def startX (bl bh : I64) : Option (I64 × I64) :=
  if bh = 0 then
    if bl = 0 then none else some (0, (-1 : I64) / bl)
  else if bh = 1 then some (0, 1)
  else some ((-1 : I64) / bh, 0)

/-- `x * (2 - b * x)` -/
def newtonStep (bl bh : I64) (x : I64 × I64) : I64 × I64 :=
  let (tx_lo, tx_hi) := mulWords bl bh x.1 x.2
  let cl := 0 - tx_lo
  let tmp := Op.ofBool ((0 : I64).ult cl)
  let ch := 2 - tx_hi - tmp
  mulWords x.1 x.2 cl ch

def divWords (al ah bl bh : I64) : Option (I64 × I64) := do
  let x ← startX bl bh
  let x := newtonStep bl bh (newtonStep bl bh (newtonStep bl bh x))
  some (mulWords al ah x.1 x.2)

/-- `fp64/div` on the addresses of its operands. -/
def fp64Div (m : LinearMemory) (dst src : I64) : Option LinearMemory := do
  let (al, ah) ← loadCell m dst
  let (bl, bh) ← loadCell m src
  let (rl, rh) ← divWords al ah bl bh
  storeCell m dst rl rh

/-! ### The square root -/

/-- The square root of a word by Newton's steps, from `r64`. -/
def isqrt64 (v : I64) : (fuel : Nat) → I64 → Option I64
  | 0, _ => none
  | fuel + 1, p64 =>
      if p64 = 0 then none
      else
        let r64 := (p64 + v / p64) >>> 1
        if p64.ule r64 then some p64 else isqrt64 v fuel r64

/-- The quotient by the high word of the estimate. -/
def quotient (vl vh rl rh : I64) : I64 × I64 :=
  if rh = 0 then
    if rl = 0 then (0, 0) else ((-1 : I64) / rl, 0)
  else ((((vh % rh) <<< 32) ||| vl >>> 32) / rh, vh / rh)

/-- `(r + v / r) / 2` -/
def rootStep (vl vh : I64) (r : I64 × I64) : I64 × I64 :=
  let (rl, rh) := r
  let (ql, qh) := quotient vl vh rl rh
  let sum_l := rl + ql
  let tmp := Op.ofBool (sum_l.ult rl)
  let sum_h := rh + qh + tmp
  (sum_l >>> 1 ||| sum_h <<< 63, sum_h >>> 1)

def rootWords (fuel : Nat) (vl vh : I64) : Option (I64 × I64) :=
  if vh = 0 ∧ vl = 0 then some (0, 0)
  else do
    let r64 ← isqrt64 vh fuel vh
    if r64 = 0 then do
      let r64 ← isqrt64 vl fuel vl
      some ((r64 &&& 0xFFFFFFFF) <<< 32, r64 >>> 32)
    else some ((rootStep vl vh)^[6] (0, r64))

/-- `fp64/sqrt` on the addresses of its operands, with loops of at most `fuel` turns. -/
def fp64Sqrt (fuel : Nat) (m : LinearMemory) (dst src : I64) : Option LinearMemory := do
  let (vl, vh) ← loadCell m src
  let (rl, rh) ← rootWords fuel vl vh
  storeCell m dst rl rh

/-! ### Cells -/

theorem wrap_eq {m : LinearMemory} {p : I64} (placed : Placed m p 16) :
    (p.setWidth 32).toNat = p.toNat ∧ (p.setWidth 32 + 8).toNat = p.toNat + 8 := by
  have inside := placed.inside
  have small := placed.small
  have wrapped : (p.setWidth 32).toNat = p.toNat := by
    rw [BitVec.toNat_setWidth]
    exact Nat.mod_eq_of_lt (by omega)
  refine ⟨wrapped, ?_⟩
  rw [BitVec.toNat_add, wrapped]
  change (p.toNat + 8) % 2 ^ 32 = _
  omega

theorem loadCell_eq {m : LinearMemory} {p : I64} (placed : Placed m p 16) :
    ∃ lo hi, loadCell m p = some (lo, hi) ∧ m.number p.toNat 16 = pair lo hi := by
  obtain ⟨lo, hi, low, high, number⟩ := placed.pair
  rw [loadWord, placed.address (by decide)] at low high
  refine ⟨lo, hi, ?_, number⟩
  rw [loadCell, (wrap_eq placed).1]
  exact (congrArg (· >>= _) low).trans (congrArg (· >>= _) high)

theorem storeCell_eq {m : LinearMemory} {p : I64} (placed : Placed m p 16) (lo hi : I64) :
    storeCell m p lo hi = some (m.put p.toNat 16 (pair lo hi)) := by
  have inside := placed.inside
  rw [storeCell, (wrap_eq placed).1, (wrap_eq placed).2, storeI64_put (by omega)]
  simp only [Option.bind_eq_bind, Option.bind_some]
  rw [storeI64_put (by rw [put_size]; omega), put_put lo.isLt]
  rfl

theorem pair_small (r : I64 × I64) : pair r.1 r.2 < 256 ^ 16 := by
  have lo := r.1.isLt
  have hi := r.2.isLt
  rw [pair]
  omega

/-! ### One step of the reciprocal -/

/-- `2 - t` in two words. -/
theorem two_sub (lo hi : I64) :
    pair (0 - lo) (2 - hi - Op.ofBool ((0 : I64).ult (0 - lo))) =
      (2 * 2 ^ 64 + 2 ^ 128 - pair lo hi) % 2 ^ 128 := by
  have boundLo := lo.isLt
  have boundHi := hi.isLt
  have zero : (0 : I64).toNat = 0 := rfl
  have two : (2 : I64).toNat = 2 := rfl
  have low : ((0 : I64) - lo).toNat = (2 ^ 64 - lo.toNat) % 2 ^ 64 := by
    rw [BitVec.toNat_sub, zero, Nat.add_zero]
  have borrow : (Op.ofBool ((0 : I64).ult (0 - lo))).toNat = if lo.toNat = 0 then 0 else 1 := by
    rw [U128.ofBool_toNat, U128.ult_eq, zero, low]
    split
    · rw [decide_eq_false (by omega)]
      rfl
    · rw [decide_eq_true (by omega)]
      rfl
  rw [pair, low, BitVec.toNat_sub, BitVec.toNat_sub, two, borrow, pair]
  split <;> omega

theorem newtonStep_value (bl bh : I64) (x : I64 × I64) :
    pair (newtonStep bl bh x).1 (newtonStep bl bh x).2 =
      pair x.1 x.2 * ((2 * 2 ^ 64 + 2 ^ 128 -
        pair bl bh * pair x.1 x.2 / 2 ^ 64 % 2 ^ 128) % 2 ^ 128) / 2 ^ 64 % 2 ^ 128 := by
  rw [← mulWords_value bl bh x.1 x.2, ← two_sub, ← mulWords_value]
  rfl

/-- How far `x` is from the reciprocal of `b`, both in units of `2^-64`. -/
def residual (b x : Nat) : ℚ := 1 - b * x / 2 ^ 128

/-- What the rounding in one step may add. -/
def rounding (b : Nat) : ℚ := max 2 ((b : ℚ) / 2 ^ 64) / 2 ^ 64

/-- The next estimate, where nothing overflows. -/
def next (b x : Nat) : Nat := x * (2 * 2 ^ 64 - b * x / 2 ^ 64) / 2 ^ 64

/-- The step squares the residual, up to two roundings. -/
theorem residual_next {b x : Nat} (small : b * x ≤ 2 * 2 ^ 128) :
    residual b x ^ 2 - 2 / 2 ^ 64 ≤ residual b (next b x) ∧
      residual b (next b x) ≤ residual b x ^ 2 + b / 2 ^ 128 := by
  obtain ⟨t, ht⟩ : ∃ t, t = b * x / 2 ^ 64 := ⟨_, rfl⟩
  obtain ⟨ρ, hρ⟩ : ∃ ρ, ρ = b * x % 2 ^ 64 := ⟨_, rfl⟩
  obtain ⟨σ, hσ⟩ : ∃ σ, σ = x * (2 * 2 ^ 64 - t) % 2 ^ 64 := ⟨_, rfl⟩
  have ρLt : ρ < 2 ^ 64 := hρ ▸ Nat.mod_lt _ (by decide)
  have σLt : σ < 2 ^ 64 := hσ ▸ Nat.mod_lt _ (by decide)
  have tLe : t ≤ 2 * 2 ^ 64 := by omega
  have first : (b * x : ℚ) = 2 ^ 64 * t + ρ := by
    have split := Nat.div_add_mod (b * x) (2 ^ 64)
    rw [← ht, ← hρ] at split
    exact_mod_cast split.symm
  have second : (x * (2 * 2 ^ 64 - t) : ℚ) = 2 ^ 64 * next b x + σ := by
    have split := Nat.div_add_mod (x * (2 * 2 ^ 64 - t)) (2 ^ 64)
    rw [← hσ] at split
    have folded : x * (2 * 2 ^ 64 - t) / 2 ^ 64 = next b x := by rw [next, ht]
    rw [folded] at split
    have factor : ((2 * 2 ^ 64 - t : Nat) : ℚ) = 2 * 2 ^ 64 - t := by
      rw [Nat.cast_sub tLe]
      norm_num
    rw [← factor]
    exact_mod_cast split.symm
  have identity : residual b (next b x) = residual b x ^ 2 -
      b * x / 2 ^ 128 * (ρ / 2 ^ 128) + b / 2 ^ 128 * (σ / 2 ^ 64) := by
    have linked : (b : ℚ) * next b x * 2 ^ 128 =
        2 * 2 ^ 128 * (b * x) - (b * x) ^ 2 + b * x * ρ - 2 ^ 64 * b * σ := by
      linear_combination (-(2 : ℚ) ^ 64 * b) * second + (b * x : ℚ) * first
    have solved : (b : ℚ) * next b x = (2 * 2 ^ 128 * (b * x) - (b * x) ^ 2 + b * x * ρ -
        2 ^ 64 * b * σ) / 2 ^ 128 := by
      rw [eq_div_iff (by positivity), linked]
    rw [residual, residual, solved]
    ring
  have ρNonneg : (0 : ℚ) ≤ ρ / 2 ^ 128 := by positivity
  have σNonneg : (0 : ℚ) ≤ σ / 2 ^ 64 := by positivity
  have ρSmall : (ρ : ℚ) / 2 ^ 128 ≤ 1 / 2 ^ 64 := by
    rw [div_le_div_iff₀ (by positivity) (by positivity)]
    have cast : (ρ : ℚ) ≤ 2 ^ 64 := by exact_mod_cast ρLt.le
    nlinarith
  have σSmall : (σ : ℚ) / 2 ^ 64 ≤ 1 := by
    rw [div_le_one (by positivity)]
    exact_mod_cast σLt.le
  have product : (b * x : ℚ) / 2 ^ 128 ≤ 2 := by
    rw [div_le_iff₀ (by positivity)]
    exact_mod_cast small
  have productNonneg : (0 : ℚ) ≤ b * x / 2 ^ 128 := by positivity
  have share : (0 : ℚ) ≤ b / 2 ^ 128 := by positivity
  rw [identity]
  constructor
  · have lost : (b * x : ℚ) / 2 ^ 128 * (ρ / 2 ^ 128) ≤ 2 * (1 / 2 ^ 64) :=
      mul_le_mul product ρSmall ρNonneg (by norm_num)
    have gained := mul_nonneg share σNonneg
    linarith
  · have lost := mul_nonneg productNonneg ρNonneg
    have gained : (b : ℚ) / 2 ^ 128 * (σ / 2 ^ 64) ≤ b / 2 ^ 128 :=
      mul_le_of_le_one_right share σSmall
    linarith

/-! ### Three steps -/

theorem rounding_bounds (b : Nat) :
    (2 : ℚ) / 2 ^ 64 ≤ rounding b ∧ (b : ℚ) / 2 ^ 128 ≤ rounding b := by
  have two := le_max_left (2 : ℚ) (b / 2 ^ 64)
  have share := le_max_right (2 : ℚ) (b / 2 ^ 64)
  refine ⟨div_le_div_of_nonneg_right two (by positivity), ?_⟩
  calc (b : ℚ) / 2 ^ 128 = b / 2 ^ 64 / 2 ^ 64 := by ring
    _ ≤ rounding b := div_le_div_of_nonneg_right share (by positivity)

theorem next_small {b x : Nat} (two : 2 ≤ b) (small : b * x ≤ 2 * 2 ^ 128) :
    next b x < 2 ^ 128 ∧ b * next b x ≤ 2 * 2 ^ 128 := by
  have low := (residual_next small).1
  have square := sq_nonneg (residual b x)
  have product : (b * next b x : ℚ) / 2 ^ 128 ≤ 1 + 2 / 2 ^ 64 := by
    rw [residual.eq_def b (next b x)] at low
    linarith
  rw [div_le_iff₀ (by positivity)] at product
  have product : b * next b x ≤ 2 ^ 128 + 2 ^ 65 := by
    have exact : (b * next b x : ℚ) ≤ (2 ^ 128 + 2 ^ 65 : Nat) := by
      refine product.trans_eq ?_
      norm_num
    exact_mod_cast exact
  have doubled : 2 * next b x ≤ b * next b x := Nat.mul_le_mul_right _ two
  omega

theorem residual_abs {b x : Nat} (small : b * x ≤ 2 * 2 ^ 128) :
    |residual b (next b x)| ≤ residual b x ^ 2 + rounding b := by
  obtain ⟨low, high⟩ := residual_next small
  obtain ⟨two, share⟩ := rounding_bounds b
  have square := sq_nonneg (residual b x)
  rw [abs_le]
  constructor <;> linarith

theorem newtonStep_next {bl bh : I64} {x : I64 × I64} (two : 2 ≤ pair bl bh)
    (small : pair bl bh * pair x.1 x.2 ≤ 2 * 2 ^ 128) :
    pair (newtonStep bl bh x).1 (newtonStep bl bh x).2 = next (pair bl bh) (pair x.1 x.2) := by
  have fits := (next_small two small).1
  have within : pair bl bh * pair x.1 x.2 / 2 ^ 64 ≤ 2 * 2 ^ 64 := by omega
  have kept : pair bl bh * pair x.1 x.2 / 2 ^ 64 % 2 ^ 128 =
      pair bl bh * pair x.1 x.2 / 2 ^ 64 := Nat.mod_eq_of_lt (by omega)
  have correction : (2 * 2 ^ 64 + 2 ^ 128 - pair bl bh * pair x.1 x.2 / 2 ^ 64) % 2 ^ 128 =
      2 * 2 ^ 64 - pair bl bh * pair x.1 x.2 / 2 ^ 64 := by omega
  rw [newtonStep_value, kept, correction]
  exact Nat.mod_eq_of_lt fits

/-- The first estimate of the reciprocal, in units of `2^-64`. -/
def estimate (b : Nat) : Nat :=
  if b < 2 ^ 64 then (2 ^ 64 - 1) / b * 2 ^ 64
  else if b < 2 * 2 ^ 64 then 2 ^ 64
  else (2 ^ 64 - 1) / (b / 2 ^ 64)

theorem startX_value {bl bh : I64} (positive : 0 < pair bl bh) :
    ∃ x, startX bl bh = some x ∧ pair x.1 x.2 = estimate (pair bl bh) := by
  have boundLo := bl.isLt
  have ones (w : I64) : ((-1 : I64) / w).toNat = (2 ^ 64 - 1) / w.toNat := BitVec.toNat_udiv
  have zero : (0 : I64).toNat = 0 := rfl
  have one : (1 : I64).toNat = 1 := rfl
  unfold startX estimate
  by_cases none : bh = 0
  · subst none
    have some : bl ≠ 0 := by
      rintro rfl
      exact absurd positive (by decide)
    refine ⟨_, by rw [if_pos rfl, if_neg some], ?_⟩
    have low : pair bl 0 = bl.toNat := by rw [pair, zero, Nat.mul_zero, Nat.add_zero]
    rw [low, if_pos boundLo, pair, ones, zero, Nat.zero_add, Nat.mul_comm]
  · rw [if_neg none]
    have high : bh.toNat ≠ 0 := fun e => none (BitVec.eq_of_toNat_eq e)
    by_cases single : bh = 1
    · subst single
      refine ⟨_, by rw [if_pos rfl], ?_⟩
      have value : pair bl 1 = bl.toNat + 2 ^ 64 := by rw [pair, one, Nat.mul_one]
      rw [value, if_neg (by omega), if_pos (by omega)]
      rfl
    · have more : bh.toNat ≠ 1 := fun e => single (BitVec.eq_of_toNat_eq e)
      refine ⟨_, by rw [if_neg single], ?_⟩
      have top : pair bl bh / 2 ^ 64 = bh.toNat := by
        rw [pair, Nat.add_mul_div_left _ _ (by decide), Nat.div_eq_of_lt boundLo, Nat.zero_add]
      have above : 2 * 2 ^ 64 ≤ pair bl bh := by
        rw [pair]
        omega
      rw [if_neg (by omega), if_neg (by omega), top, pair, ones, zero, Nat.mul_zero, Nat.add_zero]

theorem estimate_small (b : Nat) : b * estimate b ≤ 2 * 2 ^ 128 := by
  unfold estimate
  split
  · have whole := Nat.mul_div_le (2 ^ 64 - 1) b
    calc b * ((2 ^ 64 - 1) / b * 2 ^ 64) = b * ((2 ^ 64 - 1) / b) * 2 ^ 64 := by ring
      _ ≤ (2 ^ 64 - 1) * 2 ^ 64 := Nat.mul_le_mul_right _ whole
      _ ≤ 2 * 2 ^ 128 := by norm_num
  · split
    · omega
    · have whole := Nat.mul_div_le (2 ^ 64 - 1) (b / 2 ^ 64)
      have top : b ≤ 2 * 2 ^ 64 * (b / 2 ^ 64) := by omega
      calc b * ((2 ^ 64 - 1) / (b / 2 ^ 64))
          ≤ 2 * 2 ^ 64 * (b / 2 ^ 64) * ((2 ^ 64 - 1) / (b / 2 ^ 64)) := Nat.mul_le_mul_right _ top
        _ = 2 * 2 ^ 64 * (b / 2 ^ 64 * ((2 ^ 64 - 1) / (b / 2 ^ 64))) := by ring
        _ ≤ 2 * 2 ^ 64 * (2 ^ 64 - 1) := Nat.mul_le_mul_left _ whole
        _ ≤ 2 * 2 ^ 128 := by norm_num

/-- What three squarings leave of the residual of the first estimate, with the roundings. -/
def reciprocalError (b : Nat) : ℚ :=
  ((residual b (estimate b) ^ 2 + rounding b) ^ 2 + rounding b) ^ 2 + rounding b

/-- And the least that they leave. -/
def reciprocalRest (b : Nat) : ℚ :=
  max 0 (max 0 (residual b (estimate b) ^ 2 - 2 / 2 ^ 64) ^ 2 - 2 / 2 ^ 64) ^ 2 - 2 / 2 ^ 64

theorem sq_max_le {a c : ℚ} (h : a ≤ c) : max 0 a ^ 2 ≤ c ^ 2 := by
  obtain low | high := le_total a 0
  · rw [max_eq_left low]
    exact (by norm_num : (0 : ℚ) ^ 2 = 0).trans_le (sq_nonneg c)
  · rw [max_eq_right high]
    exact pow_le_pow_left₀ high h 2

theorem sq_le_of_abs {a c : ℚ} (h : |a| ≤ c) : a ^ 2 ≤ c ^ 2 := by
  rw [← sq_abs]
  exact pow_le_pow_left₀ (abs_nonneg a) h 2

theorem divWords_value (al ah : I64) {bl bh : I64} (two : 2 ≤ pair bl bh) :
    ∃ r x, divWords al ah bl bh = some r ∧ pair r.1 r.2 = pair al ah * x / 2 ^ 64 % 2 ^ 128 ∧
      |residual (pair bl bh) x| ≤ reciprocalError (pair bl bh) ∧
        reciprocalRest (pair bl bh) ≤ residual (pair bl bh) x := by
  obtain ⟨x₀, start, value⟩ := startX_value (by omega : 0 < pair bl bh)
  have small₀ : pair bl bh * pair x₀.1 x₀.2 ≤ 2 * 2 ^ 128 := value ▸ estimate_small (pair bl bh)
  have step₁ := newtonStep_next two small₀
  have small₁ := (next_small two small₀).2
  have error₁ := residual_abs small₀
  have low₁ := (residual_next small₀).1
  rw [← step₁] at small₁ error₁ low₁
  have step₂ := newtonStep_next two small₁
  have small₂ := (next_small two small₁).2
  have error₂ := residual_abs small₁
  have low₂ := (residual_next small₁).1
  rw [← step₂] at small₂ error₂ low₂
  have step₃ := newtonStep_next two small₂
  have error₃ := residual_abs small₂
  have low₃ := (residual_next small₂).1
  rw [← step₃] at error₃ low₃
  rw [value] at error₁ low₁
  have second := error₂.trans (add_le_add_left (sq_le_of_abs error₁) _)
  have second' := (sub_le_sub_right (sq_max_le low₁) _).trans low₂
  exact ⟨_, _, by rw [divWords, start]; rfl, mulWords_value al ah _ _,
    error₃.trans (add_le_add_left (sq_le_of_abs second) _),
    (sub_le_sub_right (sq_max_le second') _).trans low₃⟩

/-! ### The quotient -/

/-- The cell at `dst` ends within `2^-32` of the quotient, relative to the larger of it and one. -/
def DivMeets (m : LinearMemory) (dst src : I64) : Prop :=
  let a := m.number dst.toNat 16
  let b := m.number src.toNat 16
  ∃ m', fp64Div m dst src = some m' ∧
    |((m'.number dst.toNat 16 : ℚ) / 2 ^ 64) - a / b| ≤ max 1 ((a : ℚ) / b) / 2 ^ 32

/-- The starting estimate is near enough, the fraction's bits suffice, and nothing overflows. -/
def DivConverges (a b : Nat) : Prop :=
  (a = 0 ∧ 0 < b) ∨
    (2 ≤ b ∧ a * (2 ^ 63 + 1) < b * 2 ^ 127 ∧
      min 1 ((a : ℚ) / b) * reciprocalError b ≤ 1 / 2 ^ 32 - 1 / 2 ^ 64)

/-- The estimate overflows, or is too far off for three steps. -/
def DivDiverges (a b : Nat) : Prop :=
  (a ≠ 0 ∧ b = 1) ∨ (2 ≤ b ∧ 1 / 2 ^ 32 < min 1 ((a : ℚ) / b) * reciprocalRest b)

theorem quotient_near {a b x : Nat} (positive : 0 < b) :
    |((a * x / 2 ^ 64 : Nat) : ℚ) / 2 ^ 64 - a / b| ≤ a / b * |residual b x| + 1 / 2 ^ 64 := by
  obtain ⟨φ, hφ⟩ : ∃ φ, φ = a * x % 2 ^ 64 := ⟨_, rfl⟩
  have φLt : φ < 2 ^ 64 := hφ ▸ Nat.mod_lt _ (by decide)
  have split : (a * x : ℚ) = 2 ^ 64 * (a * x / 2 ^ 64 : Nat) + φ := by
    have whole := Nat.div_add_mod (a * x) (2 ^ 64)
    rw [← hφ] at whole
    exact_mod_cast whole.symm
  have nonzero : (b : ℚ) ≠ 0 := by exact_mod_cast positive.ne'
  have error : ((a * x / 2 ^ 64 : Nat) : ℚ) / 2 ^ 64 - a / b =
      -(a / b * residual b x) - φ / 2 ^ 128 := by
    have solved : ((a * x / 2 ^ 64 : Nat) : ℚ) = (a * x - φ) / 2 ^ 64 := by
      rw [eq_div_iff (by positivity)]
      linarith
    rw [solved, residual]
    field_simp
    ring
  have φNonneg : (0 : ℚ) ≤ φ / 2 ^ 128 := by positivity
  have φSmall : (φ : ℚ) / 2 ^ 128 ≤ 1 / 2 ^ 64 := by
    rw [div_le_div_iff₀ (by positivity) (by positivity)]
    have cast : (φ : ℚ) ≤ 2 ^ 64 := by exact_mod_cast φLt.le
    nlinarith
  have ratio : (0 : ℚ) ≤ a / b := by positivity
  calc |((a * x / 2 ^ 64 : Nat) : ℚ) / 2 ^ 64 - a / b|
      = |-(a / b * residual b x) - φ / 2 ^ 128| := by rw [error]
    _ ≤ |-(a / b * residual b x)| + |(φ : ℚ) / 2 ^ 128| := abs_sub _ _
    _ ≤ a / b * |residual b x| + 1 / 2 ^ 64 := by
      rw [abs_neg, abs_mul, abs_of_nonneg ratio, abs_of_nonneg φNonneg]
      exact add_le_add_right φSmall _

/-- A residual that is small enough, next to what the quotient may be off by. -/
theorem scaled_error {q e : ℚ} (nonneg : 0 ≤ q)
    (bound : min 1 q * e ≤ 1 / 2 ^ 32 - 1 / 2 ^ 64) :
    q * e + 1 / 2 ^ 64 ≤ max 1 q / 2 ^ 32 := by
  obtain below | above := le_total q 1
  · rw [min_eq_right below] at bound
    rw [max_eq_left below]
    linarith
  · rw [min_eq_left above, one_mul] at bound
    rw [max_eq_right above]
    have grown := mul_le_mul_of_nonneg_left bound nonneg
    have rest : (1 : ℚ) / 2 ^ 64 ≤ q * (1 / 2 ^ 64) := by
      rw [← div_eq_mul_one_div]
      exact div_le_div_of_nonneg_right above (by positivity)
    calc q * e + 1 / 2 ^ 64 ≤ q * (1 / 2 ^ 32 - 1 / 2 ^ 64) + q * (1 / 2 ^ 64) :=
          add_le_add grown rest
      _ = q / 2 ^ 32 := by ring

theorem near_of_residual {a b x : Nat} {e : ℚ} (positive : 0 < b) (error : |residual b x| ≤ e)
    (bound : min 1 ((a : ℚ) / b) * e ≤ 1 / 2 ^ 32 - 1 / 2 ^ 64) :
    |((a * x / 2 ^ 64 : Nat) : ℚ) / 2 ^ 64 - a / b| ≤ max 1 ((a : ℚ) / b) / 2 ^ 32 := by
  have ratio : (0 : ℚ) ≤ (a : ℚ) / b := by positivity
  have near := quotient_near (a := a) (x := x) positive
  have scaled := mul_le_mul_of_nonneg_left error ratio
  have allowed := scaled_error ratio bound
  linarith

theorem quotient_fits {a b x : Nat} (room : a * (2 ^ 63 + 1) < b * 2 ^ 127)
    (low : -(2 / 2 ^ 64) ≤ residual b x) : a * x / 2 ^ 64 < 2 ^ 128 := by
  have product : (b * x : ℚ) ≤ 2 ^ 128 + 2 ^ 65 := by
    rw [residual] at low
    have scaled : (b * x : ℚ) / 2 ^ 128 ≤ 1 + 2 / 2 ^ 64 := by linarith
    rw [div_le_iff₀ (by positivity)] at scaled
    refine scaled.trans_eq ?_
    norm_num
  have product : b * x ≤ 2 ^ 128 + 2 ^ 65 := by exact_mod_cast product
  refine Nat.div_lt_of_lt_mul (Nat.lt_of_mul_lt_mul_left (a := b) ?_)
  calc b * (a * x) = a * (b * x) := by ring
    _ ≤ a * (2 ^ 128 + 2 ^ 65) := Nat.mul_le_mul_left _ product
    _ = a * (2 ^ 63 + 1) * 2 ^ 65 := by ring
    _ < b * 2 ^ 127 * 2 ^ 65 := Nat.mul_lt_mul_of_pos_right room (by decide)
    _ = b * (2 ^ 64 * 2 ^ 128) := by ring

theorem rest_low (b : Nat) : -(2 / 2 ^ 64) ≤ reciprocalRest b := by
  have square := sq_nonneg
    (max 0 (max 0 (residual b (estimate b) ^ 2 - 2 / 2 ^ 64) ^ 2 - 2 / 2 ^ 64))
  rw [reciprocalRest]
  linarith

/-- What is cut off only takes the result further from the quotient. -/
theorem far_of_residual {a b x R : Nat} {e : ℚ} (positive : 0 < b) (cut : R ≤ a * x / 2 ^ 64)
    (error : e ≤ residual b x) (bound : 1 / 2 ^ 32 < min 1 ((a : ℚ) / b) * e) :
    max 1 ((a : ℚ) / b) / 2 ^ 32 < |(R : ℚ) / 2 ^ 64 - a / b| := by
  have nonzero : (b : ℚ) ≠ 0 := by exact_mod_cast positive.ne'
  have ratio : (0 : ℚ) ≤ (a : ℚ) / b := by positivity
  have most : (R : ℚ) / 2 ^ 64 ≤ a * x / 2 ^ 128 := by
    have whole : R * 2 ^ 64 ≤ a * x := (Nat.mul_le_mul_right _ cut).trans (Nat.div_mul_le_self _ _)
    rw [div_le_div_iff₀ (by positivity) (by positivity)]
    have cast : (R * 2 ^ 64 : ℚ) ≤ a * x := by exact_mod_cast whole
    nlinarith
  have exact : (a * x : ℚ) / 2 ^ 128 = a / b - a / b * residual b x := by
    rw [residual]
    field_simp
    ring
  have below : (a : ℚ) / b * e ≤ a / b - R / 2 ^ 64 := by
    have scaled := mul_le_mul_of_nonneg_left error ratio
    linarith
  refine lt_abs.mpr (.inr (lt_of_lt_of_le ?_ (below.trans_eq (neg_sub _ _).symm)))
  obtain low | high := le_total ((a : ℚ) / b) 1
  · rw [min_eq_right low] at bound
    rw [max_eq_left low]
    exact bound
  · rw [min_eq_left high, one_mul] at bound
    rw [max_eq_right high]
    calc (a : ℚ) / b / 2 ^ 32 = a / b * (1 / 2 ^ 32) := by ring
      _ < a / b * e := mul_lt_mul_of_pos_left bound (by linarith)

/-- What the function stores, given the words of the quotient. -/
theorem fp64Div_eq {m : LinearMemory} {dst src al ah bl bh : I64} {r : I64 × I64}
    (placed : Placed m dst 16) (loadA : loadCell m dst = some (al, ah))
    (loadB : loadCell m src = some (bl, bh)) (ran : divWords al ah bl bh = some r) :
    ∃ m', fp64Div m dst src = some m' ∧ m'.number dst.toNat 16 = pair r.1 r.2 := by
  refine ⟨m.put dst.toNat 16 (pair r.1 r.2), ?_, ?_⟩
  · simp only [fp64Div, loadA, loadB, ran, Option.bind_eq_bind, Option.bind_some]
    exact storeCell_eq placed r.1 r.2
  · rw [number_put, Nat.mod_eq_of_lt (pair_small r)]

theorem div_meets {m : LinearMemory} {dst src : I64} (placed : Placed m dst 16)
    (placed' : Placed m src 16)
    (converges : DivConverges (m.number dst.toNat 16) (m.number src.toNat 16)) :
    DivMeets m dst src := by
  obtain ⟨al, ah, loadA, valueA⟩ := loadCell_eq placed
  obtain ⟨bl, bh, loadB, valueB⟩ := loadCell_eq placed'
  rw [valueA, valueB] at converges
  rw [DivMeets, valueA, valueB]
  obtain ⟨zero, positive⟩ | ⟨two, room, bound⟩ := converges
  · obtain ⟨x, start, -⟩ := startX_value positive
    obtain ⟨m', ran, value⟩ := fp64Div_eq placed loadA loadB (by rw [divWords, start]; rfl)
    refine ⟨m', ran, ?_⟩
    rw [value, mulWords_value, zero, Nat.zero_mul, Nat.zero_div, Nat.zero_mod, Nat.cast_zero,
      zero_div, zero_div, sub_zero, abs_zero]
    positivity
  · have positive : 0 < pair bl bh := by omega
    obtain ⟨r, x, words, product, error, low⟩ := divWords_value al ah two
    rw [Nat.mod_eq_of_lt (quotient_fits room ((rest_low _).trans low))] at product
    obtain ⟨m', ran, value⟩ := fp64Div_eq placed loadA loadB words
    refine ⟨m', ran, ?_⟩
    rw [value, product]
    exact near_of_residual positive error bound

/-- From the smallest divisor the steps run over the words' end. -/
theorem divWords_one (al ah : I64) :
    divWords al ah 1 0 = some (mulWords al ah (-4) 1) := by
  have steps : newtonStep 1 0 (newtonStep 1 0 (newtonStep 1 0 (0, -1))) = (-4, 1) := by
    decide
  have start : startX 1 0 = some (0, -1) := by decide
  rw [divWords, start]
  simp only [Option.bind_eq_bind, Option.bind_some, steps]

theorem div_fails {m : LinearMemory} {dst src : I64} (placed : Placed m dst 16)
    (placed' : Placed m src 16)
    (diverges : DivDiverges (m.number dst.toNat 16) (m.number src.toNat 16)) :
    ¬ DivMeets m dst src := by
  obtain ⟨al, ah, loadA, valueA⟩ := loadCell_eq placed
  obtain ⟨bl, bh, loadB, valueB⟩ := loadCell_eq placed'
  rw [valueA, valueB] at diverges
  rw [DivMeets, valueA, valueB]
  rintro ⟨m', ran, near⟩
  refine absurd near (not_le.mpr ?_)
  obtain ⟨some, one⟩ | ⟨two, bound⟩ := diverges
  · obtain ⟨low, high⟩ : bl.toNat = 1 ∧ bh.toNat = 0 := by
      rw [pair] at one
      omega
    obtain rfl : bl = 1 := BitVec.eq_of_toNat_eq low
    obtain rfl : bh = 0 := BitVec.eq_of_toNat_eq high
    obtain ⟨m'', ran', value⟩ := fp64Div_eq placed loadA loadB (divWords_one al ah)
    obtain rfl : m'' = m' := Option.some_inj.mp (ran'.symm.trans ran)
    rw [value, mulWords_value]
    have half : (1 : ℚ) / 2 ≤ residual 1 (pair (-4) 1) := by
      have steps : pair (-4) 1 = 2 ^ 65 - 4 := by decide
      rw [residual, steps]
      norm_num
    rw [one]
    refine far_of_residual Nat.one_pos (Nat.mod_le _ _) half ?_
    have whole : (1 : ℚ) ≤ (pair al ah : ℚ) / (1 : Nat) := by
      rw [Nat.cast_one, div_one]
      exact_mod_cast Nat.one_le_iff_ne_zero.mpr some
    rw [min_eq_left whole]
    norm_num
  · obtain ⟨r, x, words, product, -, low⟩ := divWords_value al ah two
    obtain ⟨m'', ran', value⟩ := fp64Div_eq placed loadA loadB words
    obtain rfl : m'' = m' := Option.some_inj.mp (ran'.symm.trans ran)
    rw [value, product]
    exact far_of_residual (by omega) (Nat.mod_le _ _) low bound

/-! ### The integer square root -/

/-- The next estimate stays between one and the number. -/
theorem between {v p : Nat} (one : 1 ≤ p) (le : p ≤ v) :
    p + v / p ≤ v + 1 ∧ 2 ≤ p + v / p := by
  have quotient : 1 ≤ v / p := (Nat.one_le_div_iff one).mpr le
  refine ⟨?_, by omega⟩
  have product : p * (v / p) ≤ v := Nat.mul_div_le v p
  obtain ⟨k, rfl⟩ := Nat.exists_eq_add_of_le one
  obtain ⟨j, hj⟩ := Nat.exists_eq_add_of_le quotient
  rw [hj] at product ⊢
  nlinarith

theorem less_than_square {v p k : Nat} (less : v < p * (k + 1)) :
    v < ((p + k) / 2 + 1) * ((p + k) / 2 + 1) := by
  obtain ⟨s, hs⟩ : ∃ s, s = (p + k) / 2 + 1 := ⟨_, rfl⟩
  have half : p + k + 1 ≤ 2 * s := by omega
  have square : (p + k + 1) * (p + k + 1) ≤ 2 * s * (2 * s) := Nat.mul_le_mul half half
  rw [← hs]
  zify at *
  nlinarith [sq_nonneg ((p : Int) - (k + 1))]

theorem isqrt64_eq {v : I64} (small : v.toNat + 1 < 2 ^ 64) (fuel : Nat) {p : I64}
    (one : 1 ≤ p.toNat) (le : p.toNat ≤ v.toNat) (above : v.toNat < (p.toNat + 1) * (p.toNat + 1))
    (enough : p.toNat < fuel) : ∃ r, isqrt64 v fuel p = some r ∧ r.toNat = Nat.sqrt v.toNat := by
  induction fuel generalizing p with
  | zero => omega
  | succ fuel ih =>
    obtain ⟨most, least⟩ := between one le
    have nonzero : p ≠ 0 := by
      rintro rfl
      exact absurd one (by decide)
    have next : ((p + v / p) >>> 1).toNat = (p.toNat + v.toNat / p.toNat) / 2 := by
      rw [BitVec.toNat_ushiftRight, Nat.shiftRight_eq_div_pow, BitVec.toNat_add,
        BitVec.toNat_udiv, Nat.mod_eq_of_lt (by omega)]
    rw [isqrt64, if_neg nonzero]
    by_cases done : p.toNat ≤ (p.toNat + v.toNat / p.toNat) / 2
    · refine ⟨p, ?_, ?_⟩
      · rw [if_pos]
        rw [BitVec.ule, next]
        exact decide_eq_true done
      · have quotient : p.toNat ≤ v.toNat / p.toNat := by omega
        have below : p.toNat * p.toNat ≤ v.toNat := (Nat.le_div_iff_mul_le one).mp quotient
        exact (Nat.eq_sqrt.mpr ⟨below, above⟩)
    · have goes : ¬ p.ule ((p + v / p) >>> 1) = true := by
        rw [BitVec.ule, next, decide_eq_true_eq]
        exact done
      rw [if_neg goes]
      refine ih (by omega) (by omega) ?_ (by omega)
      rw [next]
      obtain ⟨k, hk⟩ : ∃ k, k = v.toNat / p.toNat := ⟨_, rfl⟩
      have less : v.toNat < p.toNat * (k + 1) := hk ▸ Nat.lt_mul_div_succ v.toNat one
      rw [← hk]
      exact less_than_square less

/-! ### Six steps -/

/-- The quotient by a whole number `d`: its fraction has the remainder's bits 32 places too low. -/
def quotientBy (vl vh d : Nat) : Nat := (vh % d * 2 ^ 32 + vl / 2 ^ 32) / d + 2 ^ 64 * (vh / d)

/-- The quotient's fraction is below `2^-32`. -/
theorem fraction_lt {vl : Nat} (vh : Nat) {d : Nat} (small : vl < 2 ^ 64) (positive : 1 ≤ d) :
    (vh % d * 2 ^ 32 + vl / 2 ^ 32) / d < 2 ^ 32 := by
  have rest : vh % d < d := Nat.mod_lt _ positive
  refine Nat.div_lt_of_lt_mul ?_
  have low : vl / 2 ^ 32 < 2 ^ 32 := by omega
  calc vh % d * 2 ^ 32 + vl / 2 ^ 32 < (vh % d + 1) * 2 ^ 32 := by omega
    _ ≤ d * 2 ^ 32 := Nat.mul_le_mul_right _ rest

theorem quotient_value (vl vh rl : I64) {rh : I64} (positive : 1 ≤ rh.toNat)
    (low : rh.toNat ≤ 2 ^ 32) :
    pair (quotient vl vh rl rh).1 (quotient vl vh rl rh).2 =
      quotientBy vl.toNat vh.toNat rh.toNat := by
  have nonzero : rh ≠ 0 := by
    rintro rfl
    exact absurd positive (by decide)
  have rest : vh.toNat % rh.toNat < rh.toNat := Nat.mod_lt _ positive
  have word := vl.isLt
  have shifted : ((vh % rh) <<< 32).toNat = vh.toNat % rh.toNat * 2 ^ 32 := by
    rw [BitVec.toNat_shiftLeft, BitVec.toNat_umod, Nat.shiftLeft_eq]
    exact Nat.mod_eq_of_lt (by omega)
  have joined : (((vh % rh) <<< 32) ||| vl >>> 32).toNat =
      vh.toNat % rh.toNat * 2 ^ 32 + vl.toNat / 2 ^ 32 := by
    rw [BitVec.toNat_or, shifted, BitVec.toNat_ushiftRight, Nat.shiftRight_eq_div_pow,
      ← Nat.shiftLeft_eq, Nat.shiftLeft_add_eq_or_of_lt (by omega)]
  rw [quotient, if_neg nonzero, pair, BitVec.toNat_udiv, joined, BitVec.toNat_udiv, quotientBy]

/-- Half the sum of the estimate and the quotient. -/
theorem rootStep_value (vl vh : I64) {r : I64 × I64} {d : Nat} (positive : 1 ≤ d)
    (low : d ≤ 2 ^ 32) (above : d * 2 ^ 64 ≤ pair r.1 r.2) (below : pair r.1 r.2 < (d + 1) * 2 ^ 64)
    (few : vh.toNat / d ≤ 2 ^ 33) :
    pair (rootStep vl vh r).1 (rootStep vl vh r).2 =
      (pair r.1 r.2 + quotientBy vl.toNat vh.toNat d) / 2 := by
  obtain ⟨rl, rh⟩ := r
  have boundLo := rl.isLt
  change d * 2 ^ 64 ≤ rl.toNat + 2 ^ 64 * rh.toNat at above
  change rl.toNat + 2 ^ 64 * rh.toNat < (d + 1) * 2 ^ 64 at below
  have high : rh.toNat = d := by omega
  have value := quotient_value vl vh rl (high ▸ positive) (high ▸ low)
  have fraction := fraction_lt vh.toNat vl.isLt positive
  rw [high] at value
  rw [← value]
  rw [quotientBy] at value
  generalize (vh.toNat % d * 2 ^ 32 + vl.toNat / 2 ^ 32) / d = f at value fraction
  unfold rootStep
  dsimp only
  generalize quotient vl vh rl rh = q at *
  obtain ⟨ql, qh⟩ := q
  dsimp only at value ⊢
  have lowQ := ql.isLt
  have whole : qh.toNat = vh.toNat / d := by
    rw [pair] at value
    omega
  have carry := sum_carry rl ql
  generalize Op.ofBool ((rl + ql).ult rl) = c at *
  have sumLt := (rl + ql).isLt
  have top : (rh + qh + c).toNat = rh.toNat + qh.toNat + c.toNat := by
    rw [BitVec.toNat_add, BitVec.toNat_add]
    omega
  have shifted : ((rh + qh + c) <<< 63).toNat = (rh + qh + c).toNat % 2 * 2 ^ 63 := by
    rw [BitVec.toNat_shiftLeft, Nat.shiftLeft_eq]
    omega
  have joined : ((rl + ql) >>> 1 ||| (rh + qh + c) <<< 63).toNat =
      (rl + ql).toNat / 2 + (rh + qh + c).toNat % 2 * 2 ^ 63 := by
    rw [BitVec.toNat_or, shifted, BitVec.toNat_ushiftRight, Nat.shiftRight_eq_div_pow, Nat.or_comm,
      ← Nat.shiftLeft_eq, ← Nat.shiftLeft_add_eq_or_of_lt (by omega), Nat.add_comm]
  rw [pair, joined, BitVec.toNat_ushiftRight, Nat.shiftRight_eq_div_pow, top, pair, pair]
  omega

section Settling

variable (vl : I64) {vh : I64} {n : Nat} {r : I64 × I64}

/-- Where the root's whole part is the quotient's too, the estimate stays at it. -/
theorem settle_low (positive : 1 ≤ n) (low : n < 2 ^ 32) (whole : vh.toNat / n = n)
    (start : pair r.1 r.2 = n * 2 ^ 64) (k : Nat) :
    n * 2 ^ 64 ≤ pair ((rootStep vl vh)^[k] r).1 ((rootStep vl vh)^[k] r).2 ∧
      pair ((rootStep vl vh)^[k] r).1 ((rootStep vl vh)^[k] r).2 ≤
        n * 2 ^ 64 + (vh.toNat % n * 2 ^ 32 + vl.toNat / 2 ^ 32) / n := by
  have fraction := fraction_lt vh.toNat vl.isLt positive
  induction k with
  | zero => exact ⟨start.ge, start.le.trans (Nat.le_add_right _ _)⟩
  | succ k ih =>
    obtain ⟨above, below⟩ := ih
    rw [Function.iterate_succ_apply']
    have step := rootStep_value vl vh positive low.le above (by omega) (by omega)
    rw [quotientBy, whole] at step
    generalize (vh.toNat % n * 2 ^ 32 + vl.toNat / 2 ^ 32) / n = f at *
    omega

/-- A step from near `c / 64`, by the quotient at `d` with the whole part `w`. -/
theorem settle_step {d w c : Nat} (positive : 1 ≤ d) (low : d ≤ 2 ^ 32)
    (whole : vh.toNat / d = w) (few : w ≤ 2 ^ 33) (above : c * 2 ^ 58 ≤ pair r.1 r.2)
    (below : pair r.1 r.2 ≤ c * 2 ^ 58 + 2 ^ 32) (inside : d * 64 ≤ c) (inside' : c < d * 64 + 64) :
    (c + 64 * w) * 2 ^ 57 ≤ pair (rootStep vl vh r).1 (rootStep vl vh r).2 ∧
      pair (rootStep vl vh r).1 (rootStep vl vh r).2 ≤ (c + 64 * w) * 2 ^ 57 + 2 ^ 32 := by
  have fraction := fraction_lt vh.toNat vl.isLt positive
  have atLeast : d * 2 ^ 64 ≤ pair r.1 r.2 :=
    calc d * 2 ^ 64 = d * 64 * 2 ^ 58 := by ring
      _ ≤ c * 2 ^ 58 := Nat.mul_le_mul_right _ inside
      _ ≤ pair r.1 r.2 := above
  have lessThan : pair r.1 r.2 < (d + 1) * 2 ^ 64 :=
    calc pair r.1 r.2 ≤ c * 2 ^ 58 + 2 ^ 32 := below
      _ < (c + 1) * 2 ^ 58 := by rw [Nat.add_mul]; exact Nat.add_lt_add_left (by norm_num) _
      _ ≤ (d * 64 + 64) * 2 ^ 58 := Nat.mul_le_mul_right _ inside'
      _ = (d + 1) * 2 ^ 64 := by ring
  have step := rootStep_value vl vh positive low atLeast lessThan (whole ▸ few)
  rw [quotientBy, whole] at step
  generalize (vh.toNat % d * 2 ^ 32 + vl.toNat / 2 ^ 32) / d = f at *
  omega

/-- Where the quotient's whole part is one more, the estimate goes 63/64 of the way there. -/
theorem settle_middle (positive : 1 ≤ n) (low : n < 2 ^ 32) (whole : vh.toNat / n = n + 1)
    (start : pair r.1 r.2 = n * 2 ^ 64) :
    (64 * n + 63) * 2 ^ 58 ≤ pair ((rootStep vl vh)^[6] r).1 ((rootStep vl vh)^[6] r).2 ∧
      pair ((rootStep vl vh)^[6] r).1 ((rootStep vl vh)^[6] r).2 ≤
        (64 * n + 63) * 2 ^ 58 + 2 ^ 32 := by
  have step {c : Nat} {r : I64 × I64} := settle_step vl (r := r) (c := c)
    positive low.le whole (by omega)
  have one := step (c := 64 * n) (r := r) (by omega) (by omega) (by omega) (by omega)
  have two := step (c := 64 * n + 32) (r := rootStep vl vh r) (by omega) (by omega) (by omega)
    (by omega)
  have three := step (c := 64 * n + 48) (r := rootStep vl vh (rootStep vl vh r)) (by omega)
    (by omega) (by omega) (by omega)
  have four := step (c := 64 * n + 56) (r := rootStep vl vh (rootStep vl vh (rootStep vl vh r)))
    (by omega) (by omega) (by omega) (by omega)
  have five := step (c := 64 * n + 60)
    (r := rootStep vl vh (rootStep vl vh (rootStep vl vh (rootStep vl vh r)))) (by omega)
    (by omega) (by omega) (by omega)
  have six := step (c := 64 * n + 62)
    (r := rootStep vl vh (rootStep vl vh (rootStep vl vh (rootStep vl vh (rootStep vl vh r)))))
    (by omega) (by omega) (by omega) (by omega)
  exact ⟨le_trans (by omega) six.1, le_trans six.2 (by omega)⟩

/-- Where it is two more, the estimate goes to and fro over the next whole number. -/
theorem settle_high (positive : 1 ≤ n) (low : n < 2 ^ 32) (whole : vh.toNat / n = n + 2)
    (whole' : vh.toNat / (n + 1) = n) (start : pair r.1 r.2 = n * 2 ^ 64) :
    (64 * n + 42) * 2 ^ 58 ≤ pair ((rootStep vl vh)^[6] r).1 ((rootStep vl vh)^[6] r).2 ∧
      pair ((rootStep vl vh)^[6] r).1 ((rootStep vl vh)^[6] r).2 ≤
        (64 * n + 42) * 2 ^ 58 + 2 ^ 32 := by
  have up {c : Nat} {r : I64 × I64} := settle_step vl (r := r) (c := c)
    positive low.le whole (by omega)
  have down {c : Nat} {r : I64 × I64} := settle_step vl (r := r) (c := c)
    (show 1 ≤ n + 1 by omega) (show n + 1 ≤ 2 ^ 32 by omega) whole' (by omega)
  have one := up (c := 64 * n) (r := r) (by omega) (by omega) (by omega) (by omega)
  have two := down (c := 64 * n + 64) (r := rootStep vl vh r) (by omega) (by omega) (by omega)
    (by omega)
  have three := up (c := 64 * n + 32) (r := rootStep vl vh (rootStep vl vh r)) (by omega)
    (by omega) (by omega) (by omega)
  have four := down (c := 64 * n + 80) (r := rootStep vl vh (rootStep vl vh (rootStep vl vh r)))
    (by omega) (by omega) (by omega) (by omega)
  have five := up (c := 64 * n + 40)
    (r := rootStep vl vh (rootStep vl vh (rootStep vl vh (rootStep vl vh r)))) (by omega)
    (by omega) (by omega) (by omega)
  have six := down (c := 64 * n + 84)
    (r := rootStep vl vh (rootStep vl vh (rootStep vl vh (rootStep vl vh (rootStep vl vh r)))))
    (by omega) (by omega) (by omega) (by omega)
  exact ⟨le_trans (by omega) six.1, le_trans six.2 (by omega)⟩

end Settling

/-! ### The root -/

/-- The square root of a number in units of `2^-64`. -/
noncomputable def root (v : Nat) : ℝ := √((v : ℝ) / 2 ^ 64)

/-- The cell at `dst` ends within `2^-32` of the root of that at `src`, relative to the larger of
it and one. -/
def SqrtMeets (m : LinearMemory) (dst src : I64) : Prop :=
  let v := m.number src.toNat 16
  ∃ enough, ∀ fuel ≥ enough, ∃ m', fp64Sqrt fuel m dst src = some m' ∧
    |(m'.number dst.toNat 16 : ℝ) / 2 ^ 64 - root v| ≤ max 1 (root v) / 2 ^ 32

/-- What six steps by whole quotients settle at, for a whole part `w`. -/
noncomputable def settlesAt (w : Nat) : ℝ :=
  let n := Nat.sqrt w
  n + if w < n * n + n then 0 else if w < n * n + 2 * n then 63 / 64 else 21 / 32

/-- The whole part is neither zero nor the largest word, and what the steps settle at is near the
root. -/
def SqrtConverges (v : Nat) : Prop :=
  let w := v / 2 ^ 64
  let n := Nat.sqrt w
  v = 0 ∨
    (2 ^ 64 ≤ v ∧ v < (2 ^ 64 - 1) * 2 ^ 64 ∧
      if w < n * n + n then root v - n ≤ root v / 2 ^ 32
      else |root v - settlesAt w| + 1 / 2 ^ 32 ≤ root v / 2 ^ 32)

/-- A loop divides by zero, or what the steps settle at is far from the root. -/
def SqrtDiverges (v : Nat) : Prop :=
  (0 < v ∧ v < 2 ^ 64) ∨ (2 ^ 64 - 1) * 2 ^ 64 ≤ v ∨
    (2 ^ 64 ≤ v ∧ max 1 (root v) / 2 ^ 32 + 1 / 2 ^ 32 < |root v - settlesAt (v / 2 ^ 64)|)

theorem root_sq (v : Nat) : root v ^ 2 = v / 2 ^ 64 := Real.sq_sqrt (by positivity)

theorem root_between {v n : Nat} (low : n * n * 2 ^ 64 ≤ v)
    (high : v < (n + 1) * (n + 1) * 2 ^ 64) :
    (n : ℝ) ≤ root v ∧ root v < n + 1 := by
  constructor
  · refine Real.le_sqrt_of_sq_le ?_
    rw [le_div_iff₀ (by positivity)]
    have cast : ((n * n * 2 ^ 64 : Nat) : ℝ) ≤ v := by exact_mod_cast low
    push_cast at cast
    linarith
  · rw [root, Real.sqrt_lt' (by positivity), div_lt_iff₀ (by positivity)]
    have cast : (v : ℝ) < ((n + 1) * (n + 1) * 2 ^ 64 : Nat) := by exact_mod_cast high
    push_cast at cast
    linarith

/-- The fraction that the low quotient adds to a root's whole part is less than what the root has
above it. -/
theorem fraction_below {vl w n f : Nat} (positive : 1 ≤ n) (whole : w / n = n)
    (low : n * n * 2 ^ 64 ≤ vl + 2 ^ 64 * w)
    (high : vl + 2 ^ 64 * w < (n + 1) * (n + 1) * 2 ^ 64)
    (hf : f = (w % n * 2 ^ 32 + vl / 2 ^ 32) / n) :
    (n : ℝ) + f / 2 ^ 64 ≤ root (vl + 2 ^ 64 * w) := by
  obtain ⟨atLeast, below⟩ := root_between low high
  have square := root_sq (vl + 2 ^ 64 * w)
  generalize root (vl + 2 ^ 64 * w) = s at *
  have one : (1 : ℝ) ≤ n := by exact_mod_cast positive
  have split : w = n * n + w % n := by
    have parts := Nat.div_add_mod w n
    rw [whole] at parts
    exact parts.symm
  have product : f * n * 2 ^ 32 ≤ w % n * 2 ^ 64 + vl := by
    have floor : f * n ≤ w % n * 2 ^ 32 + vl / 2 ^ 32 := hf ▸ Nat.div_mul_le_self _ n
    calc f * n * 2 ^ 32 ≤ (w % n * 2 ^ 32 + vl / 2 ^ 32) * 2 ^ 32 := Nat.mul_le_mul_right _ floor
      _ = w % n * 2 ^ 64 + vl / 2 ^ 32 * 2 ^ 32 := by ring
      _ ≤ w % n * 2 ^ 64 + vl := Nat.add_le_add_left (Nat.div_mul_le_self _ _) _
  have cast : (f * n * 2 ^ 32 : ℝ) ≤ (w % n : Nat) * 2 ^ 64 + vl := by exact_mod_cast product
  have above : ((w : Nat) : ℝ) = n * n + (w % n : Nat) := by exact_mod_cast split
  push_cast at square
  rw [above, eq_div_iff (by positivity)] at square
  have gap : (0 : ℝ) ≤ s - n := by linarith
  have factor : (f * n * 2 ^ 32 : ℝ) ≤ (s - n) * (3 * n) * 2 ^ 64 := by
    calc (f * n * 2 ^ 32 : ℝ) ≤ (w % n : Nat) * 2 ^ 64 + vl := cast
      _ = (s - n) * (s + n) * 2 ^ 64 := by linear_combination -square
      _ ≤ (s - n) * (3 * n) * 2 ^ 64 := by
        refine mul_le_mul_of_nonneg_right (mul_le_mul_of_nonneg_left ?_ gap) (by positivity)
        linarith
  have divided : (f : ℝ) * 2 ^ 32 ≤ (s - n) * 3 * 2 ^ 64 := by
    refine le_of_mul_le_mul_right ?_ (show (0 : ℝ) < n by linarith)
    linarith
  have bound : (f : ℝ) / 2 ^ 64 ≤ s - n := by
    rw [div_le_iff₀ (by positivity)]
    nlinarith
  linarith

/-- From near what the steps settle at to near the root. -/
theorem near_root {s c r : ℝ} (low : c ≤ r) (high : r ≤ c + 1 / 2 ^ 32)
    (near : |s - c| + 1 / 2 ^ 32 ≤ s / 2 ^ 32) : |r - s| ≤ max 1 s / 2 ^ 32 := by
  have allowed : s / 2 ^ 32 ≤ max 1 s / 2 ^ 32 :=
    div_le_div_of_nonneg_right (le_max_right 1 s) (by positivity)
  obtain ⟨above, below⟩ := abs_le.mp (le_refl |s - c|)
  rw [abs_le]
  constructor <;> linarith

/-- And from far to far. -/
theorem far_from_root {s c r : ℝ} (low : c ≤ r) (high : r ≤ c + 1 / 2 ^ 32)
    (far : max 1 s / 2 ^ 32 + 1 / 2 ^ 32 < |s - c|) : max 1 s / 2 ^ 32 < |r - s| := by
  obtain above | below := lt_abs.mp far
  · exact lt_abs.mpr (.inr (by linarith))
  · exact lt_abs.mpr (.inl (by linarith))

/-- Near `c / 64` in whole numbers, and so in real ones. -/
theorem near_of_units {c r n k : Nat} (split : c = 64 * n + k) (low : c * 2 ^ 58 ≤ r)
    (high : r ≤ c * 2 ^ 58 + 2 ^ 32) :
    (n + k / 64 : ℝ) ≤ r / 2 ^ 64 ∧ (r : ℝ) / 2 ^ 64 ≤ n + k / 64 + 1 / 2 ^ 32 := by
  have castLow : ((c * 2 ^ 58 : Nat) : ℝ) ≤ r := by exact_mod_cast low
  have castHigh : (r : ℝ) ≤ (c * 2 ^ 58 + 2 ^ 32 : Nat) := by exact_mod_cast high
  have cast : (c : ℝ) = 64 * n + k := by exact_mod_cast split
  push_cast [cast] at castLow castHigh
  rw [le_div_iff₀ (by positivity), div_le_iff₀ (by positivity)]
  constructor <;> linarith

/-- Each case of where the steps settle. -/
theorem settles (vl : I64) {vh r64 : I64} (one : 1 ≤ vh.toNat)
    (value : r64.toNat = Nat.sqrt vh.toNat) :
    settlesAt vh.toNat ≤
        (pair ((rootStep vl vh)^[6] (0, r64)).1 ((rootStep vl vh)^[6] (0, r64)).2 : ℝ) / 2 ^ 64 ∧
      (pair ((rootStep vl vh)^[6] (0, r64)).1 ((rootStep vl vh)^[6] (0, r64)).2 : ℝ) / 2 ^ 64 ≤
        settlesAt vh.toNat + 1 / 2 ^ 32 := by
  have positive : 1 ≤ Nat.sqrt vh.toNat := Nat.sqrt_pos.mpr one
  have low : Nat.sqrt vh.toNat < 2 ^ 32 := Nat.sqrt_lt.mpr vh.isLt
  have square := Nat.sqrt_le vh.toNat
  have above : vh.toNat < (Nat.sqrt vh.toNat + 1) * (Nat.sqrt vh.toNat + 1) :=
    Nat.lt_succ_sqrt vh.toNat
  have start : pair ((0 : I64), r64).1 ((0 : I64), r64).2 = Nat.sqrt vh.toNat * 2 ^ 64 := by
    rw [pair, value, Nat.mul_comm]
    exact Nat.zero_add _
  rw [settlesAt]
  generalize Nat.sqrt vh.toNat = n at *
  have expand : (n + 1) * (n + 1) = n * n + 2 * n + 1 := by ring
  by_cases first : vh.toNat < n * n + n
  · rw [if_pos first]
    have quotient : vh.toNat / n = n :=
      Nat.div_eq_of_lt_le square (by rw [Nat.add_mul, Nat.one_mul]; exact first)
    obtain ⟨atLeast, atMost⟩ := settle_low vl positive low quotient start 6
    have fraction := fraction_lt vh.toNat vl.isLt positive
    have units : 64 * n * 2 ^ 58 = n * 2 ^ 64 := by ring
    obtain ⟨lower, upper⟩ := near_of_units (c := 64 * n) (n := n) (k := 0) rfl
      (units.trans_le atLeast) (by
        rw [units]
        exact atMost.trans (Nat.add_le_add_left fraction.le _))
    rw [Nat.cast_zero, zero_div] at lower upper
    exact ⟨lower, upper⟩
  · rw [if_neg first]
    by_cases second : vh.toNat < n * n + 2 * n
    · rw [if_pos second]
      have quotient : vh.toNat / n = n + 1 := by
        refine Nat.div_eq_of_lt_le ?_ ?_
        · rw [Nat.add_mul]
          omega
        · rw [Nat.add_mul, Nat.add_mul]
          omega
      obtain ⟨atLeast, atMost⟩ := settle_middle vl positive low quotient start
      exact near_of_units rfl atLeast atMost
    · rw [if_neg second]
      have exact : vh.toNat = n * n + 2 * n := by omega
      have quotient : vh.toNat / n = n + 2 := by
        rw [exact, ← Nat.add_mul, Nat.mul_div_cancel _ positive]
      have quotient' : vh.toNat / (n + 1) = n := by
        refine Nat.div_eq_of_lt_le ?_ above
        rw [exact, Nat.mul_add]
        omega
      obtain ⟨atLeast, atMost⟩ := settle_high vl positive low quotient quotient' start
      obtain ⟨lower, upper⟩ := near_of_units rfl atLeast atMost
      have share : ((42 : Nat) : ℝ) / 64 = 21 / 32 := by norm_num
      rw [share] at lower upper
      exact ⟨lower, upper⟩

theorem pair_high (vl vh : I64) : pair vl vh / 2 ^ 64 = vh.toNat := by
  rw [pair, Nat.add_mul_div_left _ _ (by decide), Nat.div_eq_of_lt vl.isLt, Nat.zero_add]

/-- Where the whole part stays, the fraction that is added does not go past the root. -/
theorem stays_near {vl vh r64 : I64} (one : 1 ≤ vh.toNat) (value : r64.toNat = Nat.sqrt vh.toNat)
    (first : vh.toNat < Nat.sqrt vh.toNat * Nat.sqrt vh.toNat + Nat.sqrt vh.toNat)
    (near : root (pair vl vh) - Nat.sqrt vh.toNat ≤ root (pair vl vh) / 2 ^ 32) :
    |(pair ((rootStep vl vh)^[6] (0, r64)).1 ((rootStep vl vh)^[6] (0, r64)).2 : ℝ) / 2 ^ 64 -
      root (pair vl vh)| ≤ max 1 (root (pair vl vh)) / 2 ^ 32 := by
  have positive : 1 ≤ Nat.sqrt vh.toNat := Nat.sqrt_pos.mpr one
  have low : Nat.sqrt vh.toNat < 2 ^ 32 := Nat.sqrt_lt.mpr vh.isLt
  have square := Nat.sqrt_le vh.toNat
  have above : vh.toNat + 1 ≤ (Nat.sqrt vh.toNat + 1) * (Nat.sqrt vh.toNat + 1) :=
    Nat.lt_succ_sqrt vh.toNat
  have start : pair ((0 : I64), r64).1 ((0 : I64), r64).2 = Nat.sqrt vh.toNat * 2 ^ 64 := by
    rw [pair, value, Nat.mul_comm]
    exact Nat.zero_add _
  generalize Nat.sqrt vh.toNat = n at *
  have quotient : vh.toNat / n = n :=
    Nat.div_eq_of_lt_le square (by rw [Nat.add_mul, Nat.one_mul]; exact first)
  obtain ⟨atLeast, atMost⟩ := settle_low vl positive low quotient start 6
  have bottom : n * n * 2 ^ 64 ≤ pair vl vh :=
    calc n * n * 2 ^ 64 ≤ vh.toNat * 2 ^ 64 := Nat.mul_le_mul_right _ square
      _ ≤ pair vl vh := by
        rw [pair, Nat.mul_comm]
        exact Nat.le_add_left _ _
  have ceiling : pair vl vh < (n + 1) * (n + 1) * 2 ^ 64 :=
    calc pair vl vh < (vh.toNat + 1) * 2 ^ 64 := by
          have word := vl.isLt
          rw [pair]
          omega
      _ ≤ (n + 1) * (n + 1) * 2 ^ 64 := Nat.mul_le_mul_right _ above
  have below := fraction_below positive quotient bottom ceiling rfl
  rw [← pair] at below
  generalize pair ((rootStep vl vh)^[6] (0, r64)).1 ((rootStep vl vh)^[6] (0, r64)).2 = r at *
  generalize (vh.toNat % n * 2 ^ 32 + vl.toNat / 2 ^ 32) / n = f at *
  generalize root (pair vl vh) = s at *
  have lower : (n : ℝ) ≤ r / 2 ^ 64 := by
    rw [le_div_iff₀ (by positivity)]
    exact_mod_cast atLeast
  have upper : (r : ℝ) / 2 ^ 64 ≤ n + f / 2 ^ 64 := by
    rw [div_le_iff₀ (by positivity), add_mul, div_mul_cancel₀ _ (by positivity)]
    exact_mod_cast atMost
  have allowed : s / 2 ^ 32 ≤ max 1 s / 2 ^ 32 :=
    div_le_div_of_nonneg_right (le_max_right 1 s) (by positivity)
  rw [abs_le]
  constructor <;> linarith

theorem settled_near {vl vh r64 : I64} (one : 1 ≤ vh.toNat)
    (value : r64.toNat = Nat.sqrt vh.toNat) (converges : SqrtConverges (pair vl vh)) :
    |(pair ((rootStep vl vh)^[6] (0, r64)).1 ((rootStep vl vh)^[6] (0, r64)).2 : ℝ) / 2 ^ 64 -
      root (pair vl vh)| ≤ max 1 (root (pair vl vh)) / 2 ^ 32 := by
  have nonzero : pair vl vh ≠ 0 := by
    rw [pair]
    omega
  obtain ⟨-, -, near⟩ := converges.resolve_left nonzero
  rw [pair_high] at near
  by_cases first : vh.toNat < Nat.sqrt vh.toNat * Nat.sqrt vh.toNat + Nat.sqrt vh.toNat
  · rw [if_pos first] at near
    exact stays_near one value first near
  · rw [if_neg first] at near
    obtain ⟨lower, upper⟩ := settles vl one value
    exact near_root lower upper near

/-! ### The whole function -/

theorem rootWords_settled (vl : I64) {vh : I64} (one : 1 ≤ vh.toNat) (small : vh.toNat + 1 < 2 ^ 64)
    {fuel : Nat} (enough : vh.toNat < fuel) :
    ∃ r64, r64.toNat = Nat.sqrt vh.toNat ∧
      rootWords fuel vl vh = some ((rootStep vl vh)^[6] (0, r64)) := by
  have above : vh.toNat < (vh.toNat + 1) * (vh.toNat + 1) :=
    (Nat.lt_succ_self _).trans_le (Nat.le_mul_of_pos_left _ (Nat.succ_pos _))
  obtain ⟨r64, ran, value⟩ := isqrt64_eq small fuel one le_rfl above enough
  have positive : 0 < Nat.sqrt vh.toNat := Nat.sqrt_pos.mpr one
  have nonzero : r64 ≠ 0 := by
    rintro rfl
    exact absurd value.symm positive.ne'
  have some : ¬ (vh = 0 ∧ vl = 0) := by
    rintro ⟨rfl, -⟩
    exact absurd one (by decide)
  refine ⟨r64, value, ?_⟩
  rw [rootWords, if_neg some, ran, Option.bind_eq_bind, Option.bind_some, if_neg nonzero]

theorem isqrt64_zero (v : I64) (fuel : Nat) : isqrt64 v fuel 0 = none := by
  cases fuel with
  | zero => rfl
  | succ fuel => rw [isqrt64, if_pos rfl]

/-- The loop begins at zero for a number below one, and comes to it from the largest word. -/
theorem rootWords_traps {vl vh : I64} (fuel : Nat)
    (outside : (0 < pair vl vh ∧ pair vl vh < 2 ^ 64) ∨ (2 ^ 64 - 1) * 2 ^ 64 ≤ pair vl vh) :
    rootWords fuel vl vh = none := by
  have word := vl.isLt
  have word' := vh.isLt
  have traps : isqrt64 vh fuel vh = none := by
    obtain ⟨-, below⟩ | above := outside
    · have zero : vh = 0 := by
        refine BitVec.eq_of_toNat_eq ?_
        change vh.toNat = 0
        rw [pair] at below
        omega
      rw [zero]
      exact isqrt64_zero 0 fuel
    · have largest : vh = -1 := by
        refine BitVec.eq_of_toNat_eq ?_
        change vh.toNat = 2 ^ 64 - 1
        rw [pair] at above
        omega
      rw [largest]
      cases fuel with
      | zero => rfl
      | succ fuel =>
        change isqrt64 (-1) fuel 0 = none
        exact isqrt64_zero (-1) fuel
  have some : ¬ (vh = 0 ∧ vl = 0) := by
    rintro ⟨rfl, rfl⟩
    obtain ⟨above, -⟩ | above := outside
    · exact absurd above (by decide)
    · exact absurd above (by decide)
  rw [rootWords, if_neg some, traps]
  rfl

/-- What the function stores, given the words of the root. -/
theorem fp64Sqrt_eq {m : LinearMemory} {dst src vl vh : I64} {r : I64 × I64} {fuel : Nat}
    (placed : Placed m dst 16) (load : loadCell m src = some (vl, vh))
    (ran : rootWords fuel vl vh = some r) :
    ∃ m', fp64Sqrt fuel m dst src = some m' ∧ m'.number dst.toNat 16 = pair r.1 r.2 := by
  refine ⟨m.put dst.toNat 16 (pair r.1 r.2), ?_, ?_⟩
  · simp only [fp64Sqrt, load, ran, Option.bind_eq_bind, Option.bind_some]
    exact storeCell_eq placed r.1 r.2
  · rw [number_put, Nat.mod_eq_of_lt (pair_small r)]

theorem sqrt_meets {m : LinearMemory} {dst src : I64} (placed : Placed m dst 16)
    (placed' : Placed m src 16) (converges : SqrtConverges (m.number src.toNat 16)) :
    SqrtMeets m dst src := by
  obtain ⟨vl, vh, load, valueV⟩ := loadCell_eq placed'
  rw [valueV] at converges
  rw [SqrtMeets, valueV]
  obtain zero | ⟨above, below, -⟩ := id converges
  · obtain ⟨low, high⟩ : vl.toNat = 0 ∧ vh.toNat = 0 := by
      rw [pair] at zero
      omega
    have low : vl = 0 := BitVec.eq_of_toNat_eq low
    have high : vh = 0 := BitVec.eq_of_toNat_eq high
    refine ⟨0, fun fuel _ => ?_⟩
    have none : rootWords fuel vl vh = some (0, 0) := by rw [rootWords, if_pos ⟨high, low⟩]
    obtain ⟨m', ran, value⟩ := fp64Sqrt_eq placed load none
    refine ⟨m', ran, ?_⟩
    have none : pair (0 : I64) 0 = 0 := by decide
    rw [value, zero, root, none, Nat.cast_zero, zero_div, Real.sqrt_zero, sub_zero, abs_zero]
    positivity
  · have one : 1 ≤ vh.toNat := by
      have word := vl.isLt
      rw [pair] at above
      omega
    have small : vh.toNat + 1 < 2 ^ 64 := by
      rw [pair] at below
      omega
    refine ⟨vh.toNat + 1, fun fuel enough => ?_⟩
    obtain ⟨r64, whole, settled⟩ := rootWords_settled vl one small enough
    obtain ⟨m', ran, value⟩ := fp64Sqrt_eq placed load settled
    refine ⟨m', ran, ?_⟩
    rw [value]
    exact settled_near one whole converges

theorem sqrt_fails {m : LinearMemory} {dst src : I64} (placed : Placed m dst 16)
    (placed' : Placed m src 16) (diverges : SqrtDiverges (m.number src.toNat 16)) :
    ¬ SqrtMeets m dst src := by
  obtain ⟨vl, vh, load, valueV⟩ := loadCell_eq placed'
  rw [valueV] at diverges
  rw [SqrtMeets, valueV]
  rintro ⟨enough, meets⟩
  by_cases outside : (0 < pair vl vh ∧ pair vl vh < 2 ^ 64) ∨ (2 ^ 64 - 1) * 2 ^ 64 ≤ pair vl vh
  · obtain ⟨m', ran, -⟩ := meets enough le_rfl
    simp only [fp64Sqrt, load, rootWords_traps enough outside, Option.bind_eq_bind,
      Option.bind_some, Option.bind_none] at ran
    exact absurd ran (by simp)
  · obtain ⟨above, far⟩ := (diverges.resolve_left fun h => outside (.inl h)).resolve_left
      fun h => outside (.inr h)
    have below : pair vl vh < (2 ^ 64 - 1) * 2 ^ 64 := not_le.mp fun h => outside (.inr h)
    rw [pair_high] at far
    obtain ⟨one, small⟩ : 1 ≤ vh.toNat ∧ vh.toNat + 1 < 2 ^ 64 := by
      have word := vl.isLt
      rw [pair] at above below
      omega
    obtain ⟨r64, whole, settled⟩ := rootWords_settled vl one small
      (Nat.lt_of_succ_le (le_max_right enough (vh.toNat + 1)))
    obtain ⟨m', ran, near⟩ := meets _ (le_max_left _ _)
    obtain ⟨m'', ran', value⟩ := fp64Sqrt_eq placed load settled
    obtain rfl : m'' = m' := Option.some_inj.mp (ran'.symm.trans ran)
    rw [value] at near
    obtain ⟨lower, upper⟩ := settles vl one whole
    exact absurd near (not_le.mpr (far_from_root lower upper far))

/-- Three steps are enough exactly where the estimate's residual is small, and six where the whole
quotients settle near the root; only the roundings are between the two conditions. -/
theorem newton_converges {m : LinearMemory} {dst src : I64} (placed : Placed m dst 16)
    (placed' : Placed m src 16) :
    (DivConverges (m.number dst.toNat 16) (m.number src.toNat 16) → DivMeets m dst src) ∧
      (DivDiverges (m.number dst.toNat 16) (m.number src.toNat 16) → ¬ DivMeets m dst src) ∧
      (SqrtConverges (m.number src.toNat 16) → SqrtMeets m dst src) ∧
      (SqrtDiverges (m.number src.toNat 16) → ¬ SqrtMeets m dst src) :=
  ⟨div_meets placed placed', div_fails placed placed', sqrt_meets placed placed',
    sqrt_fails placed placed'⟩

theorem page_numbers (a b : Nat) :
    (page a b).memory.number (64 : I64).toNat 16 = a % 256 ^ 16 ∧
      (page a b).memory.number (80 : I64).toNat 16 = b % 256 ^ 16 :=
  ⟨(number_put_apart (.inl (by decide))).trans (number_put 64 16 a), number_put 80 16 b⟩

theorem page_placed (a b : Nat) :
    Placed (page a b).memory (64 : I64) 16 ∧ Placed (page a b).memory (80 : I64) 16 :=
  ⟨⟨(by decide : 64 + 16 ≤ 65536), (by decide : 65536 ≤ 2 ^ 32)⟩,
    ⟨(by decide : 80 + 16 ≤ 65536), (by decide : 65536 ≤ 2 ^ 32)⟩⟩

/-- Twelve by four, and the root of four. -/
theorem newton_converges_four :
    DivMeets (page (12 * 2 ^ 64) (4 * 2 ^ 64)).memory 64 80 ∧
      SqrtMeets (page (12 * 2 ^ 64) (4 * 2 ^ 64)).memory 64 80 := by
  obtain ⟨dividend, divisor⟩ := page_numbers (12 * 2 ^ 64) (4 * 2 ^ 64)
  obtain ⟨placed, placed'⟩ := page_placed (12 * 2 ^ 64) (4 * 2 ^ 64)
  obtain ⟨division, -, square, -⟩ := newton_converges placed placed'
  rw [dividend, divisor] at division
  rw [divisor] at square
  refine ⟨division (.inr ⟨by decide, by decide, by decide +kernel⟩), square (.inr ?_)⟩
  have whole : 4 * 2 ^ 64 % 256 ^ 16 / 2 ^ 64 = 4 := by decide
  have two : Nat.sqrt 4 = 2 := Nat.sqrt_eq 2
  have exact : root (4 * 2 ^ 64 % 256 ^ 16) = 2 := by
    rw [root, Real.sqrt_eq_iff_mul_self_eq (by positivity) (by norm_num)]
    norm_num
  refine ⟨by decide, by decide, ?_⟩
  rw [whole, two, if_pos (by decide), exact]
  norm_num

/-- One by one and a half. -/
theorem newton_diverges :
    ¬ ∀ (m : LinearMemory) (dst src : I64), Placed m dst 16 → Placed m src 16 →
      (0 < m.number src.toNat 16 →
        m.number dst.toNat 16 < m.number src.toNat 16 * 2 ^ 64 → DivMeets m dst src) ∧
      SqrtMeets m dst src := by
  intro meets
  obtain ⟨dividend, divisor⟩ := page_numbers (2 ^ 64) (3 * 2 ^ 63)
  obtain ⟨placed, placed'⟩ := page_placed (2 ^ 64) (3 * 2 ^ 63)
  obtain ⟨division, -⟩ := meets _ 64 80 placed placed'
  rw [dividend, divisor] at division
  refine div_fails placed placed' ?_ (division (by decide) (by decide))
  rw [dividend, divisor]
  exact .inr ⟨by decide, by decide +kernel⟩

end FixedPoint

end LispRlm.WasmEmit
