import LispRlm.WasmEmit.IntegerOperators
import LispRlm.WasmEmit.U128Helpers

/-! Fixed-point numbers of 64 and 64 bits in the linear memory: the code of `fp64/add`, `fp64/sub`,
`fp64/mul` and `fp64/lt`,
    which evaluates its address operands again wherever it needs an address. -/

namespace LispRlm.WasmEmit

open LinearMemory

namespace FixedPoint

/-- A variable of the program, or a local of the emitter's own, `__fp64_dl` for instance. -/
inductive LocalName
  | var (name : String)
  | own (family name : String)
  deriving DecidableEq

structure State where
  memory : LinearMemory
  locals : LocalName → I64

abbrev Code := State → Option (I64 × State)

namespace State

def set (s : State) (x : LocalName) (w : I64) : State :=
  { s with locals := fun y => if y = x then w else s.locals y }

@[simp] theorem set_memory (s : State) (x : LocalName) (w : I64) : (s.set x w).memory = s.memory :=
  rfl

@[simp] theorem set_locals (s : State) (x y : LocalName) (w : I64) :
    (s.set x w).locals y = if y = x then w else s.locals y := rfl

end State

/-- The address is evaluated, wrapped, and a word loaded from there into a local. -/
def loadInto (x : LocalName) (e : Code) (offset : Nat) (s : State) : Option State := do
  let (p, s) ← e s
  let w ← s.memory.loadI64 ((p.setWidth 32).toNat + offset)
  some (s.set x w)

def storeFrom (x : LocalName) (e : Code) (offset : BitVec 32) (s : State) : Option State := do
  let (p, s) ← e s
  let m ← s.memory.storeI64 (p.setWidth 32 + offset).toNat (s.locals x)
  some { s with memory := m }

def addLocal (x : String) : LocalName := .own "__fp64" x

def subLocal (x : String) : LocalName := .own "__fp64s" x

def mulLocal (x : String) : LocalName := .own "__fm" x

def ltLocal (x : String) : LocalName := .own "__fplt" x

/-- `fp64/add` -/
def fp64Add (da sa : Code) : Code := fun s => do
  let dl := addLocal "dl"
  let dh := addLocal "dh"
  let sl := addLocal "sl"
  let sh := addLocal "sh"
  let carry := addLocal "c"
  let s ← loadInto sl sa 0 s
  let s ← loadInto sh sa 8 s
  let s ← loadInto dl da 0 s
  let s := s.set dl (s.locals sl + s.locals dl)
  let s := s.set carry (Op.ofBool ((s.locals dl).ult (s.locals sl)))
  let s ← loadInto dh da 8 s
  let s := s.set dh (s.locals sh + s.locals dh + s.locals carry)
  let s ← storeFrom dl da 0 s
  let s ← storeFrom dh da 8 s
  some (4, s)

/-- `fp64/sub` -/
def fp64Sub (da sa : Code) : Code := fun s => do
  let dl := subLocal "dl"
  let dh := subLocal "dh"
  let sl := subLocal "sl"
  let sh := subLocal "sh"
  let borrow := subLocal "b"
  let s ← loadInto sl sa 0 s
  let s ← loadInto sh sa 8 s
  let s ← loadInto dl da 0 s
  let s := s.set borrow (Op.ofBool ((s.locals dl).ult (s.locals sl)))
  let s := s.set dl (s.locals dl - s.locals sl)
  let s ← loadInto dh da 8 s
  let s := s.set dh (s.locals dh - s.locals sh - s.locals borrow)
  let s ← storeFrom dl da 0 s
  let s ← storeFrom dh da 8 s
  some (4, s)

/-- `emit_mul128`: the high and the low word of a product. -/
def mul128 (x y : I64) : I64 × I64 :=
  let ll := lowHalf x * lowHalf y
  let lh := lowHalf x * highHalf y
  let hl := highHalf x * lowHalf y
  let hh := highHalf x * highHalf y
  let mid := lh + hl
  let mc := Op.ofBool (mid.ult lh)
  let lo := ll + mid <<< 32
  let lc := Op.ofBool (lo.ult ll)
  (hh + mid >>> 32 + mc <<< 32 + lc, lo)

/-- The two words of a product's middle, from the words of the factors. -/
def mulWords (dl dh sl sh : I64) : I64 × I64 :=
  let (albl_hi, _) := mul128 dl sl
  let (cross1_hi, cross1_lo) := mul128 dh sl
  let (cross2_hi, cross2_lo) := mul128 dl sh
  let tmp := cross1_lo + cross2_lo
  let tmp2 := Op.ofBool (tmp.ult cross1_lo)
  let mid := cross1_hi + cross2_hi + tmp2
  let rl := tmp + albl_hi
  let tmp := Op.ofBool (rl.ult tmp)
  (rl, dh * sh + mid + tmp)

/-- `fp64/mul`; the words on the way to the product are in locals that nothing reads later. -/
def fp64Mul (da sa : Code) : Code := fun s => do
  let dl := mulLocal "dl"
  let dh := mulLocal "dh"
  let sl := mulLocal "sl"
  let sh := mulLocal "sh"
  let rl := mulLocal "rl"
  let rh := mulLocal "rh"
  let s ← loadInto dl da 0 s
  let s ← loadInto dh da 8 s
  let s ← loadInto sl sa 0 s
  let s ← loadInto sh sa 8 s
  let (lo, hi) := mulWords (s.locals dl) (s.locals dh) (s.locals sl) (s.locals sh)
  let s := (s.set rl lo).set rh hi
  let s ← storeFrom rl da 0 s
  let s ← storeFrom rh da 8 s
  some (4, s)

/-- `fp64/lt`: the comparison's 1 or 0 is the result, untagged. -/
def fp64Lt (a1 a2 : Code) : Code := fun s => do
  let h1 := ltLocal "h1"
  let h2 := ltLocal "h2"
  let s ← loadInto h1 a1 8 s
  let s ← loadInto h2 a2 8 s
  if (s.locals h1).ult (s.locals h2) then some (1, s)
  else if (s.locals h2).ult (s.locals h1) then some (0, s)
  else do
    let (p, s) ← a1 s
    let x ← s.memory.loadI64 (p.setWidth 32).toNat
    let (q, s) ← a2 s
    let y ← s.memory.loadI64 (q.setWidth 32).toNat
    some (Op.ofBool (x.ult y), s)

/-! ### Words -/

open U128 (pair)

theorem half_product (x y : I64) :
    (lowHalf x * lowHalf y).toNat = (lowHalf x).toNat * (lowHalf y).toNat ∧
      (lowHalf x * highHalf y).toNat = (lowHalf x).toNat * (highHalf y).toNat ∧
      (highHalf x * lowHalf y).toNat = (highHalf x).toNat * (lowHalf y).toNat ∧
      (highHalf x * highHalf y).toNat = (highHalf x).toNat * (highHalf y).toNat := by
  have high (w : I64) : (highHalf w).toNat < 2 ^ 32 := by
    have word := w.isLt
    rw [highHalf_toNat]
    omega
  exact ⟨Halves.mul_toNat (Halves.lowHalf_lt x) (Halves.lowHalf_lt y),
    Halves.mul_toNat (Halves.lowHalf_lt x) (high y),
      Halves.mul_toNat (high x) (Halves.lowHalf_lt y),
    Halves.mul_toNat (high x) (high y)⟩

/-- The carry of a sum of words, by comparison with a summand. -/
theorem sum_carry (x y : I64) :
    (x + y).toNat + 2 ^ 64 * (Op.ofBool ((x + y).ult x)).toNat = x.toNat + y.toNat := by
  have boundX := x.isLt
  have boundY := y.isLt
  rw [U128.ofBool_toNat, U128.ult_eq, BitVec.toNat_add]
  by_cases carries : x.toNat + y.toNat < 2 ^ 64
  · rw [decide_eq_false (by omega), Bool.toNat_false]
    omega
  · rw [decide_eq_true (by omega), Bool.toNat_true]
    omega

theorem mul128_value (x y : I64) : pair (mul128 x y).2 (mul128 x y).1 = x.toNat * y.toNat := by
  obtain ⟨low, lowHigh, highLow, high⟩ := half_product x y
  have splitX := Halves.low_add_high x
  have splitY := Halves.low_add_high y
  have product : x.toNat * y.toNat =
      (lowHalf x * lowHalf y).toNat +
        2 ^ 32 * ((lowHalf x * highHalf y).toNat + (highHalf x * lowHalf y).toNat) +
        2 ^ 64 * (highHalf x * highHalf y).toNat := by
    rw [low, lowHigh, highLow, high, ← splitX, ← splitY]
    ring
  have small : x.toNat * y.toNat < 2 ^ 64 * 2 ^ 64 := Nat.mul_lt_mul'' x.isLt y.isLt
  unfold mul128
  dsimp only
  generalize lowHalf x * lowHalf y = ll at *
  generalize lowHalf x * highHalf y = lh at *
  generalize highHalf x * lowHalf y = hl at *
  generalize highHalf x * highHalf y = hh at *
  have middle := sum_carry lh hl
  have lower := sum_carry ll ((lh + hl) <<< 32)
  generalize Op.ofBool ((lh + hl).ult lh) = mc at *
  generalize Op.ofBool ((ll + (lh + hl) <<< 32).ult ll) = lc at *
  generalize lh + hl = mid at *
  have shifted : (mid <<< 32).toNat = mid.toNat % 2 ^ 32 * 2 ^ 32 := by
    rw [BitVec.toNat_shiftLeft, Nat.shiftLeft_eq]
    omega
  have upper : (mid >>> 32).toNat = mid.toNat / 2 ^ 32 := by
    rw [BitVec.toNat_ushiftRight, Nat.shiftRight_eq_div_pow]
  have one : mc.toNat ≤ 1 := by
    have bound := lh.isLt
    have bound' := hl.isLt
    omega
  have carried : (mc <<< 32).toNat = mc.toNat * 2 ^ 32 := by
    rw [BitVec.toNat_shiftLeft, Nat.shiftLeft_eq]
    omega
  rw [shifted] at lower
  have whole : (ll + mid <<< 32).toNat + 2 ^ 64 * (hh.toNat + mid.toNat / 2 ^ 32 +
      mc.toNat * 2 ^ 32 + lc.toNat) = x.toNat * y.toNat := by
    rw [product]
    omega
  have sum : (hh + mid >>> 32 + mc <<< 32 + lc).toNat =
      hh.toNat + mid.toNat / 2 ^ 32 + mc.toNat * 2 ^ 32 + lc.toNat := by
    rw [BitVec.toNat_add, BitVec.toNat_add, BitVec.toNat_add, upper, carried]
    omega
  rw [pair, sum]
  exact whole

theorem mulWords_value (dl dh sl sh : I64) :
    pair (mulWords dl dh sl sh).1 (mulWords dl dh sl sh).2 =
      pair dl dh * pair sl sh / 2 ^ 64 % 2 ^ 128 := by
  have first := mul128_value dl sl
  have second := mul128_value dh sl
  have third := mul128_value dl sh
  unfold mulWords
  dsimp only
  generalize mul128 dl sl = low at *
  generalize mul128 dh sl = cross1 at *
  generalize mul128 dl sh = cross2 at *
  have lowCarry := sum_carry cross1.2 cross2.2
  have highCarry := sum_carry (cross1.2 + cross2.2) low.1
  generalize Op.ofBool ((cross1.2 + cross2.2).ult cross1.2) = c at *
  generalize cross1.2 + cross2.2 = tmp at *
  generalize Op.ofBool ((tmp + low.1).ult tmp) = c' at *
  generalize tmp + low.1 = result at *
  unfold pair at first second third ⊢
  have whole : (dl.toNat + 2 ^ 64 * dh.toNat) * (sl.toNat + 2 ^ 64 * sh.toNat) =
      low.2.toNat + 2 ^ 64 * (low.1.toNat + (cross1.2.toNat + 2 ^ 64 * cross1.1.toNat) +
        (cross2.2.toNat + 2 ^ 64 * cross2.1.toNat) + 2 ^ 64 * (dh.toNat * sh.toNat)) := by
    linear_combination -first - 2 ^ 64 * second - 2 ^ 64 * third
  have dropped := low.2.isLt
  have high : (dh * sh + (cross1.1 + cross2.1 + c) + c').toNat =
      (dh.toNat * sh.toNat + cross1.1.toNat + cross2.1.toNat + c.toNat + c'.toNat) % 2 ^ 64 := by
    rw [BitVec.toNat_add, BitVec.toNat_add, BitVec.toNat_mul, BitVec.toNat_add, BitVec.toNat_add]
    omega
  have bound := result.isLt
  rw [whole, Nat.add_mul_div_left _ _ (by decide), Nat.div_eq_of_lt dropped, Nat.zero_add, high]
  generalize dh.toNat * sh.toNat = top
  omega

/-! ### Steady operands -/

inductive Operation
  | add | sub | mul | lt
  deriving DecidableEq

namespace Operation

/-- The locals that the operation reads after an operand's evaluation. -/
def uses : Operation → List LocalName
  | add => ["dl", "dh", "sl", "sh", "c"].map addLocal
  | sub => ["dl", "dh", "sl", "sh", "b"].map subLocal
  | mul => ["dl", "dh", "sl", "sh", "rl", "rh"].map mulLocal
  | lt => ["h1", "h2"].map ltLocal

def code : Operation → Code → Code → Code
  | add => fp64Add
  | sub => fp64Sub
  | mul => fp64Mul
  | lt => fp64Lt

/-- Two states that differ in neither the memory, nor a variable, nor a local of the operation. -/
structure Follows (op : Operation) (t s : State) : Prop where
  memory : s.memory = t.memory
  var : ∀ n, s.locals (.var n) = t.locals (.var n)
  own : ∀ x ∈ op.uses, s.locals x = t.locals x

/-- A state of the operation on the way from `base`: it has written nothing but its own locals and
the sixteen bytes at its destination. -/
structure Near (base : State) (d : I64) (s : State) : Prop where
  size : s.memory.size = base.memory.size
  bytes : ∀ i, ¬(d.toNat ≤ i ∧ i < d.toNat + 16) → s.memory.bytes i = base.memory.bytes i
  var : ∀ n, s.locals (.var n) = base.locals (.var n)

/-- An operand that is the address `p` whenever the operation evaluates it, and that writes neither
the memory, nor a variable, nor a local of the operation. -/
def Steady (op : Operation) (base : State) (d : I64) (e : Code) (p : I64) : Prop :=
  ∀ s, Near base d s → ∃ s', e s = some (p, s') ∧ op.Follows s s'

variable {op : Operation} {base t s : State} {d p : I64} {e : Code} {w : I64}

theorem Follows.refl (s : State) : op.Follows s s := ⟨rfl, fun _ => rfl, fun _ _ => rfl⟩

theorem Follows.set (follows : op.Follows t s) (x : LocalName) (w : I64) :
    op.Follows (t.set x w) (s.set x w) := by
  refine ⟨follows.memory, fun n => ?_, fun y mem => ?_⟩
  · rw [State.set_locals, State.set_locals, follows.var]
  · rw [State.set_locals, State.set_locals, follows.own y mem]

theorem Near.refl (s : State) (d : I64) : Near s d s := ⟨rfl, fun _ _ => rfl, fun _ => rfl⟩

theorem Near.set (near : Near base d t) {family x : String} :
    Near base d (t.set (.own family x) w) :=
  ⟨near.size, near.bytes, near.var⟩

theorem Near.put (near : Near base d t) {offset k n : Nat} (within : offset + k ≤ 16) :
    Near base d { t with memory := t.memory.put (d.toNat + offset) k n } := by
  refine ⟨near.size, fun i outside => ?_, near.var⟩
  rw [put_bytes, if_neg (by omega)]
  exact near.bytes i outside

/-- The operand's value in a state that follows one on the way. -/
theorem Steady.value (steady : Steady op base d e p) (near : Near base d t)
    (follows : op.Follows t s) : ∃ s', e s = some (p, s') ∧ op.Follows t s' := by
  obtain ⟨s', evaluated, follows'⟩ := steady s
    ⟨by rw [follows.memory, near.size], by rw [follows.memory]; exact near.bytes,
      fun n => by rw [follows.var, near.var]⟩
  exact ⟨s', evaluated, by rw [follows'.memory, follows.memory],
    fun n => by rw [follows'.var, follows.var],
    fun x mem => by rw [follows'.own x mem, follows.own x mem]⟩

theorem wrap_toNat (placed : Placed base.memory p 16) : (p.setWidth 32).toNat = p.toNat := by
  have inside := placed.inside
  have small := placed.small
  rw [BitVec.toNat_setWidth]
  exact Nat.mod_eq_of_lt (by omega)

theorem Steady.loadInto (steady : Steady op base d e p) (placed : Placed base.memory p 16)
    (near : Near base d t) (follows : op.Follows t s) {offset : Nat}
    (loaded : t.memory.loadI64 (p.toNat + offset) = some w) (x : LocalName) :
    ∃ s', FixedPoint.loadInto x e offset s = some s' ∧ op.Follows (t.set x w) s' := by
  obtain ⟨s', evaluated, follows'⟩ := steady.value near follows
  refine ⟨s'.set x w, ?_, follows'.set x w⟩
  unfold FixedPoint.loadInto
  rw [evaluated]
  change (s'.memory.loadI64 ((p.setWidth 32).toNat + offset) >>= fun w => some (s'.set x w)) = _
  rw [wrap_toNat placed, follows'.memory, loaded]
  rfl

theorem Steady.storeFrom (steady : Steady op base d e d) (placed : Placed base.memory d 16)
    (near : Near base d t) (follows : op.Follows t s) (offset : Nat) (within : offset + 8 ≤ 16)
    {x : LocalName} (mem : x ∈ op.uses) :
    ∃ s', FixedPoint.storeFrom x e (BitVec.ofNat 32 offset) s = some s' ∧
      op.Follows { t with memory := t.memory.put (d.toNat + offset) 8 (t.locals x).toNat } s' := by
  obtain ⟨s', evaluated, follows'⟩ := steady.value near follows
  have inside := placed.inside
  have small := placed.small
  have address : (d.setWidth 32 + BitVec.ofNat 32 offset).toNat = d.toNat + offset := by
    rw [BitVec.toNat_add, wrap_toNat placed, BitVec.toNat_ofNat]
    omega
  refine ⟨{ s' with memory := t.memory.put (d.toNat + offset) 8 (t.locals x).toNat }, ?_,
    ⟨rfl, follows'.var, follows'.own⟩⟩
  unfold FixedPoint.storeFrom
  rw [evaluated]
  change (s'.memory.storeI64 (d.setWidth 32 + BitVec.ofNat 32 offset).toNat (s'.locals x) >>=
    fun m => some { s' with memory := m }) = _
  rw [address, follows'.memory, follows'.own x mem,
    storeI64_put (by rw [near.size]; omega)]
  rfl

/-- The operation's two stores write the two words of its result. -/
theorem Steady.storePair (steady : Steady op base d e d) (placed : Placed base.memory d 16)
    (near : Near base d t) (same : t.memory = base.memory) (follows : op.Follows t s)
    {x y : LocalName} (memX : x ∈ op.uses) (memY : y ∈ op.uses) :
    ∃ s', ((FixedPoint.storeFrom x e 0 s).bind fun s =>
        (FixedPoint.storeFrom y e 8 s).bind fun s => some ((4 : I64), s)) = some (4, s') ∧
      s'.memory = base.memory.put d.toNat 16 (U128.pair (t.locals x) (t.locals y)) := by
  obtain ⟨s₁, first, follows₁⟩ := steady.storeFrom placed near follows 0 (by decide) memX
  obtain ⟨s₂, second, follows₂⟩ :=
    steady.storeFrom placed (near.put (by decide)) follows₁ 8 (by decide) memY
  refine ⟨s₂, ?_, ?_⟩
  · have first' : FixedPoint.storeFrom x e 0 s = some s₁ := first
    have second' : FixedPoint.storeFrom y e 8 s₁ = some s₂ := second
    rw [first', Option.bind_some, second', Option.bind_some]
  · rw [follows₂.memory]
    change (t.memory.put d.toNat 8 (t.locals x).toNat).put (d.toNat + 8) 8 (t.locals y).toNat = _
    rw [put_put (t.locals x).isLt, same]
    rfl

/-- `emit_is_truthy` -/
def truthy (w : I64) : Bool :=
  w != 1 && w != 4 && w != 0

/-- What the operation is to do with the numbers in its cells. -/
def Meets (op : Operation) (m : LinearMemory) (p q : I64) (result : Option (I64 × State)) : Prop :=
  let a := m.number p.toNat 16
  let b := m.number q.toNat 16
  ∃ w s', result = some (w, s') ∧
    match op with
    | add => s'.memory = m.put p.toNat 16 ((a + b) % 2 ^ 128)
    | sub => s'.memory = m.put p.toNat 16 ((a + 2 ^ 128 - b) % 2 ^ 128)
    | mul => s'.memory = m.put p.toNat 16 (a * b / 2 ^ 64 % 2 ^ 128)
    | lt => s'.memory = m ∧ truthy w = decide (a < b)

/-- The operation does so with the cells that its operands name, each evaluated once. -/
def Exact (op : Operation) (da sa : Code) (s : State) : Prop :=
  ∀ p s₁ q s₂, da s = some (p, s₁) → sa s₁ = some (q, s₂) →
    Placed s₂.memory p 16 → Placed s₂.memory q 16 → op.Meets s₂.memory p q (op.code da sa s)

/-- The words of a cell, as the code loads them. -/
theorem cell (placed : Placed base.memory p 16) :
    ∃ lo hi, base.memory.loadI64 (p.toNat + 0) = some lo ∧
      base.memory.loadI64 (p.toNat + 8) = some hi ∧
      base.memory.number p.toNat 16 = U128.pair lo hi := by
  obtain ⟨lo, hi, low, high, number⟩ := placed.pair
  rw [loadWord, placed.address (by decide)] at low high
  exact ⟨lo, hi, low, high, number⟩

theorem add_words (al ah bl bh : I64) :
    U128.pair (bl + al) (bh + ah + Op.ofBool ((bl + al).ult bl)) =
      (U128.pair al ah + U128.pair bl bh) % 2 ^ 128 := by
  have low := sum_carry bl al
  have bound := (bl + al).isLt
  unfold U128.pair
  rw [BitVec.toNat_add (bh + ah), BitVec.toNat_add bh]
  omega

theorem sub_words (al ah bl bh : I64) :
    U128.pair (al - bl) (ah - bh - Op.ofBool (al.ult bl)) =
      (U128.pair al ah + 2 ^ 128 - U128.pair bl bh) % 2 ^ 128 := by
  have boundA := al.isLt
  have boundB := bl.isLt
  have highA := ah.isLt
  have highB := bh.isLt
  unfold U128.pair
  rw [BitVec.toNat_sub (ah - bh), BitVec.toNat_sub ah, BitVec.toNat_sub, U128.ofBool_toNat,
    U128.ult_eq]
  by_cases borrows : al.toNat < bl.toNat
  · rw [decide_eq_true borrows, Bool.toNat_true]
    omega
  · rw [decide_eq_false borrows, Bool.toNat_false]
    omega

variable {da sa : Code} {q : I64}

theorem add_meets (placedP : Placed base.memory p 16) (placedQ : Placed base.memory q 16)
    (steadyP : Steady add base p da p) (steadyQ : Steady add base p sa q) :
    Meets add base.memory p q (add.code da sa base) := by
  obtain ⟨al, ah, low, high, numberA⟩ := cell placedP
  obtain ⟨bl, bh, low', high', numberB⟩ := cell placedQ
  have start := Near.refl base p
  obtain ⟨s₁, run₁, follows₁⟩ :=
    steadyQ.loadInto placedQ start (Follows.refl base) low' (addLocal "sl")
  obtain ⟨s₂, run₂, follows₂⟩ :=
    steadyQ.loadInto placedQ start.set follows₁ high' (addLocal "sh")
  obtain ⟨s₃, run₃, follows₃⟩ :=
    steadyP.loadInto placedP start.set.set follows₂ low (addLocal "dl")
  have lowS : s₃.locals (addLocal "sl") = bl := follows₃.own (addLocal "sl") (by decide)
  have lowD : s₃.locals (addLocal "dl") = al := follows₃.own (addLocal "dl") (by decide)
  have sums := (follows₃.set (addLocal "dl") (bl + al)).set (addLocal "c")
    (Op.ofBool ((bl + al).ult bl))
  obtain ⟨s₄, run₄, follows₄⟩ := steadyP.loadInto placedP
    start.set.set.set.set.set sums high (addLocal "dh")
  have highS : s₄.locals (addLocal "sh") = bh := follows₄.own (addLocal "sh") (by decide)
  have highD : s₄.locals (addLocal "dh") = ah := follows₄.own (addLocal "dh") (by decide)
  have carried : s₄.locals (addLocal "c") = Op.ofBool ((bl + al).ult bl) :=
    follows₄.own (addLocal "c") (by decide)
  obtain ⟨s', stored, memory⟩ := steadyP.storePair placedP
    start.set.set.set.set.set.set.set rfl
    (follows₄.set (addLocal "dh") (bh + ah + Op.ofBool ((bl + al).ult bl)))
    (x := addLocal "dl") (y := addLocal "dh") (by decide) (by decide)
  refine ⟨4, s', ?_, ?_⟩
  · change fp64Add da sa base = _
    simp only [fp64Add, run₁, run₂, run₃, Option.bind_eq_bind, Option.bind_some, lowS, lowD,
      State.set_locals, if_true, if_neg (show addLocal "sl" ≠ addLocal "dl" by decide), run₄, highS,
      highD, carried]
    exact stored
  · rw [numberA, numberB, ← add_words]
    exact memory

theorem sub_meets (placedP : Placed base.memory p 16) (placedQ : Placed base.memory q 16)
    (steadyP : Steady sub base p da p) (steadyQ : Steady sub base p sa q) :
    Meets sub base.memory p q (sub.code da sa base) := by
  obtain ⟨al, ah, low, high, numberA⟩ := cell placedP
  obtain ⟨bl, bh, low', high', numberB⟩ := cell placedQ
  have start := Near.refl base p
  obtain ⟨s₁, run₁, follows₁⟩ :=
    steadyQ.loadInto placedQ start (Follows.refl base) low' (subLocal "sl")
  obtain ⟨s₂, run₂, follows₂⟩ :=
    steadyQ.loadInto placedQ start.set follows₁ high' (subLocal "sh")
  obtain ⟨s₃, run₃, follows₃⟩ :=
    steadyP.loadInto placedP start.set.set follows₂ low (subLocal "dl")
  have lowS : s₃.locals (subLocal "sl") = bl := follows₃.own (subLocal "sl") (by decide)
  have lowD : s₃.locals (subLocal "dl") = al := follows₃.own (subLocal "dl") (by decide)
  have differences :=
    (follows₃.set (subLocal "b") (Op.ofBool (al.ult bl))).set (subLocal "dl") (al - bl)
  obtain ⟨s₄, run₄, follows₄⟩ := steadyP.loadInto placedP
    start.set.set.set.set.set differences high (subLocal "dh")
  have highS : s₄.locals (subLocal "sh") = bh := follows₄.own (subLocal "sh") (by decide)
  have highD : s₄.locals (subLocal "dh") = ah := follows₄.own (subLocal "dh") (by decide)
  have borrowed : s₄.locals (subLocal "b") = Op.ofBool (al.ult bl) :=
    follows₄.own (subLocal "b") (by decide)
  obtain ⟨s', stored, memory⟩ := steadyP.storePair placedP
    start.set.set.set.set.set.set.set rfl
    (follows₄.set (subLocal "dh") (ah - bh - Op.ofBool (al.ult bl)))
    (x := subLocal "dl") (y := subLocal "dh") (by decide) (by decide)
  refine ⟨4, s', ?_, ?_⟩
  · change fp64Sub da sa base = _
    simp only [fp64Sub, run₁, run₂, run₃, Option.bind_eq_bind, Option.bind_some, lowS, lowD,
      State.set_locals, if_neg (show subLocal "sl" ≠ subLocal "b" by decide),
      if_neg (show subLocal "dl" ≠ subLocal "b" by decide), run₄, highS, highD, borrowed]
    exact stored
  · rw [numberA, numberB, ← sub_words]
    exact memory

theorem mul_meets (placedP : Placed base.memory p 16) (placedQ : Placed base.memory q 16)
    (steadyP : Steady mul base p da p) (steadyQ : Steady mul base p sa q) :
    Meets mul base.memory p q (mul.code da sa base) := by
  obtain ⟨al, ah, low, high, numberA⟩ := cell placedP
  obtain ⟨bl, bh, low', high', numberB⟩ := cell placedQ
  have start := Near.refl base p
  obtain ⟨s₁, run₁, follows₁⟩ :=
    steadyP.loadInto placedP start (Follows.refl base) low (mulLocal "dl")
  obtain ⟨s₂, run₂, follows₂⟩ :=
    steadyP.loadInto placedP start.set follows₁ high (mulLocal "dh")
  obtain ⟨s₃, run₃, follows₃⟩ :=
    steadyQ.loadInto placedQ start.set.set follows₂ low' (mulLocal "sl")
  obtain ⟨s₄, run₄, follows₄⟩ :=
    steadyQ.loadInto placedQ start.set.set.set follows₃ high' (mulLocal "sh")
  have lowD : s₄.locals (mulLocal "dl") = al := follows₄.own (mulLocal "dl") (by decide)
  have highD : s₄.locals (mulLocal "dh") = ah := follows₄.own (mulLocal "dh") (by decide)
  have lowS : s₄.locals (mulLocal "sl") = bl := follows₄.own (mulLocal "sl") (by decide)
  have highS : s₄.locals (mulLocal "sh") = bh := follows₄.own (mulLocal "sh") (by decide)
  have product := mulWords_value al ah bl bh
  obtain ⟨s', stored, memory⟩ := steadyP.storePair placedP
    start.set.set.set.set.set.set rfl
    ((follows₄.set (mulLocal "rl") (mulWords al ah bl bh).1).set (mulLocal "rh")
      (mulWords al ah bl bh).2)
    (x := mulLocal "rl") (y := mulLocal "rh") (by decide) (by decide)
  refine ⟨4, s', ?_, ?_⟩
  · change fp64Mul da sa base = _
    simp only [fp64Mul, run₁, run₂, run₃, run₄, Option.bind_eq_bind, Option.bind_some, lowS, lowD,
      highS, highD]
    exact stored
  · rw [numberA, numberB, ← product]
    exact memory

/-- The raw 1 that `fp64/lt` answers is the tagged false, and its raw 0 the number 0. -/
theorem lt_meets_iff (placedP : Placed base.memory p 16) (placedQ : Placed base.memory q 16)
    (steadyP : Steady lt base p da p) (steadyQ : Steady lt base p sa q) :
    Meets lt base.memory p q (lt.code da sa base) ↔
      base.memory.number q.toNat 16 ≤ base.memory.number p.toNat 16 := by
  obtain ⟨al, ah, low, high, numberA⟩ := cell placedP
  obtain ⟨bl, bh, low', high', numberB⟩ := cell placedQ
  have start := Near.refl base p
  obtain ⟨s₁, run₁, follows₁⟩ :=
    steadyP.loadInto placedP start (Follows.refl base) high (ltLocal "h1")
  obtain ⟨s₂, run₂, follows₂⟩ :=
    steadyQ.loadInto placedQ start.set follows₁ high' (ltLocal "h2")
  have first : s₂.locals (ltLocal "h1") = ah := follows₂.own (ltLocal "h1") (by decide)
  have second : s₂.locals (ltLocal "h2") = bh := follows₂.own (ltLocal "h2") (by decide)
  obtain ⟨s₃, value₃, follows₃⟩ := steadyP.value start.set.set follows₂
  obtain ⟨s₄, value₄, follows₄⟩ := steadyQ.value start.set.set follows₃
  have loaded : s₃.memory.loadI64 (p.setWidth 32).toNat = some al := by
    rw [wrap_toNat placedP, follows₃.memory]
    exact low
  have loaded' : s₄.memory.loadI64 (q.setWidth 32).toNat = some bl := by
    rw [wrap_toNat placedQ, follows₄.memory]
    exact low'
  have lowA := al.isLt
  have lowB := bl.isLt
  -- the answer's word is falsy whichever way the comparison goes
  have answer : ∃ w s', fp64Lt da sa base = some (w, s') ∧ s'.memory = base.memory ∧
      truthy w = false := by
    simp only [fp64Lt, run₁, run₂, Option.bind_eq_bind, Option.bind_some, first, second]
    split_ifs with below above
    · exact ⟨1, s₂, rfl, follows₂.memory, rfl⟩
    · exact ⟨0, s₂, rfl, follows₂.memory, rfl⟩
    · rw [value₃]
      simp only [Option.bind_some, loaded, value₄, loaded']
      exact ⟨_, s₄, rfl, follows₄.memory, by cases al.ult bl <;> rfl⟩
  obtain ⟨w, s', run, memory, falsy⟩ := answer
  constructor
  · rintro ⟨w', s'', run', -, decided⟩
    obtain ⟨rfl, rfl⟩ : w = w' ∧ s' = s'' := by
      have same := run.symm.trans run'
      simpa using same
    rw [falsy] at decided
    exact Nat.le_of_not_lt (of_decide_eq_false decided.symm)
  · intro order
    exact ⟨w, s', run, memory, by rw [falsy, decide_eq_false (Nat.not_lt.mpr order)]⟩

theorem exact_iff_meets (placedP : Placed base.memory p 16) (placedQ : Placed base.memory q 16)
    (steadyP : Steady op base p da p) (steadyQ : Steady op base p sa q) :
    op.Exact da sa base ↔ op.Meets base.memory p q (op.code da sa base) := by
  obtain ⟨s₁, first, follows₁⟩ := steadyP.value (Near.refl base p) (Follows.refl base)
  obtain ⟨s₂, second, follows₂⟩ := steadyQ.value (Near.refl base p) follows₁
  constructor
  · intro exact
    have meets := exact p s₁ q s₂ first second (by rw [follows₂.memory]; exact placedP)
      (by rw [follows₂.memory]; exact placedQ)
    rwa [follows₂.memory] at meets
  · intro meets p' s₁' q' s₂' first' second' _ _
    obtain ⟨rfl, rfl⟩ : p = p' ∧ s₁ = s₁' := by simpa using first.symm.trans first'
    obtain ⟨rfl, rfl⟩ : q = q' ∧ s₂ = s₂' := by simpa using second.symm.trans second'
    rwa [follows₂.memory]

end Operation

/-- A page with numbers in the cells at 64 and 80. -/
def page (a b : Nat) : State :=
  ⟨((⟨fun _ => 0, 65536⟩ : LinearMemory).put 64 16 a).put 80 16 b, fun _ => 0⟩

/-- An address as a number's word. -/
def address (p : I64) : Code := fun s => some (p, s)

/-- `(begin (fp64/add 64 80) 64)` -/
def nested : Code := fun s => do
  let (_, s) ← fp64Add (address 64) (address 80) s
  some (64, s)

theorem address_steady (op : Operation) (s : State) (d p : I64) : op.Steady s d (address p) p :=
  fun s _ => ⟨s, rfl, .refl s⟩

end FixedPoint

end LispRlm.WasmEmit
