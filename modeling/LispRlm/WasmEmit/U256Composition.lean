import LispRlm.WasmEmit.CompositeKeys
import LispRlm.WasmEmit.IntegerOperators
import LispRlm.WasmEmit.U256Text

/-! The call sites of the `u256` operators: two operands that share three cells. -/

namespace LispRlm.WasmEmit

open Foundation LinearMemory

namespace U256

/-- `U256_A`, `U256_B` and `U256_Q` -/
def cellA : I64 := 8608
def cellB : I64 := 8640
def cellQ : I64 := 8672

/-- The code of an expression: a word, and what it makes of the memory. -/
abbrev Code := LinearMemory → Option (I64 × LinearMemory)

namespace Operator

/-- An operand into its cell. -/
def parseInto (dst : I64) (e : Code) (m : LinearMemory) : Option LinearMemory := do
  let (s, m) ← e m
  hParse m s dst

/-- The second operand: a number for the cell at `U256_B`, or a count. -/
def secondInto (op : Operator) (e : Code) (m : LinearMemory) : Option (I64 × LinearMemory) := do
  if op.counts then
    let (s, m) ← e m
    some (s >>> 3, m)
  else
    let m ← parseInto cellB e m
    some (cellB, m)

/-- `call_u256_str`, up to the helper's call. Around the second operand the words of the first are
saved in locals and stored again, by every operator but `u256/add`. -/
def site (op : Operator) (e₁ e₂ : Code) (m : LinearMemory) : Option Answer := do
  let m ← parseInto cellA e₁ m
  if op = .add then
    let (b, m) ← op.secondInto e₂ m
    op.run m cellA b cellQ
  else
    let saved ← m.loadWords cellA 0 4
    let (b, m) ← op.secondInto e₂ m
    let m ← storeWords cellA m 0 saved
    op.run m cellA b cellQ

/-- The answer in the language: a string, or a boolean. -/
def emit (limit : I64) (op : Operator) (e₁ e₂ : Code) : Code := fun m => do
  match ← op.site e₁ e₂ m with
  | .stored m => hToStr limit m cellQ
  | .truth m holds => some ((Literal.bool holds).word, m)

/-! ### Values -/

/-- What an answer holds before it is rendered. -/
def reads : Answer → Nat ⊕ Bool
  | .stored m => .inl (m.number cellQ.toNat 32)
  | .truth _ holds => .inr holds

/-- A page with the two operands in their cells. -/
def page (x y : Nat) : LinearMemory :=
  (LinearMemory.put ⟨fun _ => 0, 65536⟩ cellA.toNat 32 x).put cellB.toNat 32 y

/-- The operator's own function, of two numbers. -/
def alone (op : Operator) (x y : Nat) : Option (Nat ⊕ Bool) :=
  (op.run (page x y) cellA (if op.counts then BitVec.ofNat 64 y else cellB) cellQ).map reads

/-- The values of the operands, each as soon as it is there. -/
def values (op : Operator) (e₁ e₂ : Code) (m : LinearMemory) : Option (Nat × Nat) := do
  let m ← parseInto cellA e₁ m
  let x := m.number cellA.toNat 32
  let (b, m) ← op.secondInto e₂ m
  some (x, op.second m b)

/-- The call site comes to the operator's function of its operands' values. -/
def Composes (op : Operator) (e₁ e₂ : Code) (m : LinearMemory) : Prop :=
  (op.site e₁ e₂ m).map reads = (op.values e₁ e₂ m).bind fun v => op.alone v.1 v.2

/-- The second operand's code leaves in `U256_A` what the first operand's has put there, wherever
both have a value. -/
def LeavesFirst (e₁ e₂ : Code) (m : LinearMemory) : Prop :=
  ∀ m₁ s m₂ m₃, parseInto cellA e₁ m = some m₁ → e₂ m₁ = some (s, m₂) →
    hParse m₂ s cellB = some m₃ → m₂.number cellA.toNat 32 = m₁.number cellA.toNat 32

/-- What the helpers come to, of the numbers alone. -/
def code (x y : Nat) : Operator → Option (Nat ⊕ Bool)
  | .mul => some (.inl (x % 2 ^ 128 * (y % 2 ^ 128)))
  | .div => if y = 0 then none else some (.inl (x / y))
  | .add => some (.inl ((x + y) % 2 ^ 256))
  | .shl => some (.inl (x * 2 ^ (y % 256) % 2 ^ 256))
  | .shr => some (.inl (x / 2 ^ (y % 256)))
  | .lt => some (.inr (decide (x < y)))
  | .gt => some (.inr (decide (y < x)))
  | .eq => some (.inr (decide (x = y)))

/-- The memory has the three cells, and no more than its addresses reach. -/
structure Roomy (m : LinearMemory) : Prop where
  cells : 8704 ≤ m.size
  small : m.size ≤ 2 ^ 32

variable {m m' : LinearMemory} {e₁ e₂ : Code} {op : Operator}

theorem Roomy.placed (roomy : Roomy m) {p : I64} (low : p.toNat ≤ 8672) : Placed m p 32 :=
  ⟨by have cells := roomy.cells; omega, roomy.small⟩

theorem Roomy.of_size (roomy : Roomy m) (same : m'.size = m.size) : Roomy m' :=
  ⟨same ▸ roomy.cells, same ▸ roomy.small⟩

theorem reads_put {n : Nat} (small : n < 2 ^ 256) :
    reads (.stored (m.put cellQ.toNat 32 n)) = .inl n := by
  rw [reads, number_put]
  exact congrArg _ (Nat.mod_eq_of_lt small)

theorem run_reads (roomy : Roomy m) {b : I64} (op : Operator)
    (cell : op.counts = false → b = cellB) :
    (op.run m cellA b cellQ).map reads =
      op.code (m.number cellA.toNat 32) (op.second m b) := by
  have placedA : Placed m cellA 32 := roomy.placed (by decide)
  have placedB : Placed m cellB 32 := roomy.placed (by decide)
  have placedQ : Placed m cellQ 32 := roomy.placed (by decide)
  have first : m.number cellA.toNat 32 < 2 ^ 256 := number_lt _ 32
  cases op with
  | mul =>
      obtain rfl := cell rfl
      have low (n : Nat) : n % 2 ^ 128 < 2 ^ 128 := Nat.mod_lt n (Nat.two_pow_pos 128)
      have product := Nat.mul_lt_mul''
          (low (m.number cellA.toNat 32)) (low (m.number cellB.toNat 32))
      rw [← Nat.pow_add] at product
      simp only [run, hMul_eq placedA placedB placedQ, Option.map_some]
      rw [reads_put product]
      rfl
  | div =>
      obtain rfl := cell rfl
      simp only [run, hDiv_eq placedA placedB placedQ]
      unfold code
      change Option.map reads (Option.map Answer.stored (if m.number cellB.toNat 32 = 0 then none
        else _)) = if m.number cellB.toNat 32 = 0 then none else _
      split_ifs
      · rfl
      · exact congrArg some (reads_put (Nat.lt_of_le_of_lt (Nat.div_le_self _ _) first))
  | add =>
      obtain rfl := cell rfl
      simp only [run, hAdd_eq placedA placedB placedQ, Option.map_some]
      rw [reads_put (Nat.mod_lt _ (Nat.two_pow_pos 256))]
      rfl
  | shl =>
      simp only [run, hShl_eq placedA placedQ, Option.map_some]
      rw [reads_put (Nat.mod_lt _ (Nat.two_pow_pos 256))]
      rfl
  | shr =>
      simp only [run, hShr_eq placedA placedQ, Option.map_some]
      rw [reads_put (Nat.lt_of_le_of_lt (Nat.div_le_self _ _) first)]
      rfl
  | lt =>
      obtain rfl := cell rfl
      simp only [run, (compare_eq placedA placedB).1, Option.map_some]
      rfl
  | gt =>
      obtain rfl := cell rfl
      simp only [run, (compare_eq placedA placedB).2.1, Option.map_some]
      rfl
  | eq =>
      obtain rfl := cell rfl
      simp only [run, (compare_eq placedA placedB).2.2, Option.map_some]
      rfl

theorem page_roomy (x y : Nat) : Roomy (page x y) :=
  ⟨by rw [page, put_size, put_size]; decide, by rw [page, put_size, put_size]; decide⟩

theorem page_first {x : Nat} (y : Nat) (small : x < 256 ^ 32) :
    (page x y).number cellA.toNat 32 = x := by
  rw [page, number_put_apart (.inl (by decide)), number_put]
  exact Nat.mod_eq_of_lt small

theorem page_second (x : Nat) {y : Nat} (small : y < 256 ^ 32) :
    (page x y).number cellB.toNat 32 = y := by
  rw [page, number_put]
  exact Nat.mod_eq_of_lt small

theorem alone_eq {x y : Nat} (first : x < 256 ^ 32) (other : op.counts = false → y < 256 ^ 32)
    (count : op.counts = true → y < 2 ^ 64) : op.alone x y = op.code x y := by
  rw [alone, run_reads (page_roomy x y) op (fun cell => by rw [cell]; rfl), page_first y first]
  cases counted : op.counts with
  | false =>
      rw [if_neg Bool.false_ne_true, second, counted, if_neg Bool.false_ne_true,
        page_second x (other counted)]
  | true =>
      rw [if_pos rfl, second, counted, if_pos rfl, BitVec.toNat_ofNat,
        Nat.mod_eq_of_lt (count counted)]

/-! ### Steps -/

theorem parseDigit_keeps {ls ls' : List I64} {byte : BitVec 8} (valid : Halves.Valid ls)
    (made : parseDigit ls byte = some ls') : Halves.Valid ls' ∧ ls'.length = ls.length := by
  have step := parseDigit_spec byte valid
  cases next : decimalStep (Halves.value ls) byte with
  | none =>
      rw [next] at step
      cases step.symm.trans made
  | some v =>
      rw [next] at step
      dsimp only at step
      split_ifs at step
      · obtain ⟨ls'', found, valid', length, -⟩ := step
        obtain rfl := Option.some.inj (found.symm.trans made)
        exact ⟨valid', length⟩
      · cases step.symm.trans made

/-- A parse that does not trap puts a number into the cell, and that is all. -/
theorem hParse_put {s dst : I64} (placed : Placed m dst 32) (parses : hParse m s dst = some m') :
    ∃ v < 256 ^ 32, m' = m.put dst.toNat 32 v := by
  unfold hParse at parses
  split_ifs at parses
  obtain ⟨limbs, read, stored⟩ := Option.bind_eq_some_iff.mp parses
  have keeps : ∀ (l : List Nat) (ls ls' : List I64), Halves.Valid ls → l.foldlM (fun limbs i => do
      let byte ← m.loadByte (strPtr s + BitVec.ofNat 64 i)
      parseDigit limbs byte) ls = some ls' → Halves.Valid ls' ∧ ls'.length = ls.length := by
    intro l
    induction l with
    | nil =>
        rintro ls ls' valid ⟨⟩
        exact ⟨valid, rfl⟩
    | cons i l ih =>
        intro ls ls' valid run
        rw [List.foldlM_cons] at run
        obtain ⟨next, step, rest⟩ := Option.bind_eq_some_iff.mp run
        obtain ⟨byte, -, made⟩ := Option.bind_eq_some_iff.mp step
        obtain ⟨valid', length⟩ := parseDigit_keeps valid made
        obtain ⟨valid'', length'⟩ := ih next ls' valid' rest
        exact ⟨valid'', length'.trans length⟩
  obtain ⟨valid, length⟩ := keeps _ _ _ (Halves.valid_zeros 8) read
  have small := Halves.value_lt valid
  rw [length] at small
  refine ⟨Halves.value limbs, small, ?_⟩
  rw [storeHalves placed length valid] at stored
  exact (Option.some.inj stored).symm

/-- An expression's code does not change the size of the memory. -/
def Keeps (e : Code) : Prop := ∀ m s m', e m = some (s, m') → m'.size = m.size

theorem parseInto_roomy {dst : I64} (low : dst.toNat ≤ 8672) (keeps : Keeps e₁) (roomy : Roomy m)
    (parses : parseInto dst e₁ m = some m') : Roomy m' := by
  obtain ⟨⟨s, m₁⟩, evaluated, parsed⟩ := Option.bind_eq_some_iff.mp parses
  have roomy₁ := roomy.of_size (keeps _ _ _ evaluated)
  obtain ⟨v, -, rfl⟩ := hParse_put (roomy₁.placed low) parsed
  exact roomy₁.of_size rfl

/-- After the second operand the memory is roomy still, the cell of a number is `U256_B`, and
`U256_A` holds what the operand's own code has left there. -/
theorem secondInto_spec (keeps : Keeps e₂) (roomy : Roomy m) {b : I64}
    (evaluates : op.secondInto e₂ m = some (b, m')) :
    Roomy m' ∧ (op.counts = false → b = cellB ∧ ∃ s m₂, e₂ m = some (s, m₂) ∧
      hParse m₂ s cellB = some m' ∧
      m'.number cellA.toNat 32 = m₂.number cellA.toNat 32) := by
  unfold secondInto at evaluates
  split_ifs at evaluates with counted
  · obtain ⟨⟨s, m₂⟩, evaluated, same⟩ := Option.bind_eq_some_iff.mp evaluates
    cases same
    refine ⟨roomy.of_size (keeps _ _ _ evaluated), fun cell => ?_⟩
    cases counted.symm.trans cell
  · obtain ⟨m₃, parses, same⟩ := Option.bind_eq_some_iff.mp evaluates
    cases same
    obtain ⟨⟨s, m₂⟩, evaluated, parsed⟩ := Option.bind_eq_some_iff.mp parses
    have roomy₂ := roomy.of_size (keeps _ _ _ evaluated)
    refine ⟨parseInto_roomy (by decide) keeps roomy parses,
      fun _ => ⟨rfl, s, m₂, evaluated, parsed, ?_⟩⟩
    obtain ⟨v, -, rfl⟩ := hParse_put (roomy₂.placed (by decide)) parsed
    exact number_put_apart (.inl (by decide))

theorem second_small (op : Operator) (m : LinearMemory) (b : I64) :
    (op.counts = false → op.second m b < 256 ^ 32) ∧
      (op.counts = true → op.second m b < 2 ^ 64) := by
  unfold second
  constructor
  · intro cell
    rw [cell, if_neg Bool.false_ne_true]
    exact number_lt _ 32
  · intro counted
    rw [counted, if_pos rfl]
    exact b.isLt

theorem composes_none {e : Code} (none : parseInto cellA e₁ m = none) : Composes op e₁ e m := by
  rw [Composes, site, values, none]
  rfl

/-- With the first operand's words stored again, the site composes. -/
theorem composes_saved
    (other : op ≠ .add) (keeps₁ : Keeps e₁) (keeps₂ : Keeps e₂) (roomy : Roomy m) :
    Composes op e₁ e₂ m := by
  cases first : parseInto cellA e₁ m with
  | none => exact composes_none first
  | some m₁ =>
      have roomy₁ := parseInto_roomy (by decide) keeps₁ roomy first
      obtain ⟨saved, loaded, length, words⟩ := loadCell (roomy₁.placed (p := cellA) (by decide))
      rw [Composes, site, values, first]
      simp only [Option.bind_eq_bind, Option.bind_some, if_neg other, loaded]
      cases evaluated : op.secondInto e₂ m₁ with
      | none => rfl
      | some result =>
          obtain ⟨b, m₂⟩ := result
          obtain ⟨roomy₂, cell⟩ := secondInto_spec keeps₂ roomy₁ evaluated
          have small : Foundation.Limbs.value saved < 256 ^ 32 := words ▸ number_lt _ 32
          have kept : op.second (m₂.put cellA.toNat 32 (Foundation.Limbs.value saved)) b =
              op.second m₂ b := by
            cases counted : op.counts with
            | true => rw [second, second, counted, if_pos rfl, if_pos rfl]
            | false =>
                rw [second, second, counted, if_neg Bool.false_ne_true, if_neg Bool.false_ne_true,
                  (cell counted).1, number_put_apart (.inr (by decide))]
          have stored := storeCell (roomy₂.placed (p := cellA) (by decide)) length
          have roomy₃ : Roomy (m₂.put cellA.toNat 32 (Foundation.Limbs.value saved)) :=
              roomy₂.of_size rfl
          simp only [Option.bind_some, stored]
          rw [run_reads roomy₃ op (fun counted => (cell counted).1), kept, number_put,
            Nat.mod_eq_of_lt small, words,
            alone_eq (number_lt _ 32) (second_small op m₂ b).1 (second_small op m₂ b).2]

theorem bytes_bits : 256 ^ 32 = 2 ^ 256 := by norm_num

theorem add_code_iff {x x' y : Nat} (small : x < 2 ^ 256) (small' : x' < 2 ^ 256) :
    Operator.add.code x y = Operator.add.code x' y ↔ x = x' := by
  constructor
  · intro same
    have sums : (x + y) % 2 ^ 256 = (x' + y) % 2 ^ 256 := Sum.inl.inj (Option.some.inj same)
    omega
  · rintro rfl
    rfl

theorem composes_add_iff (keeps₁ : Keeps e₁) (keeps₂ : Keeps e₂) (roomy : Roomy m) :
    Composes .add e₁ e₂ m ↔ LeavesFirst e₁ e₂ m := by
  cases first : parseInto cellA e₁ m with
  | none =>
      refine iff_of_true (composes_none first) ?_
      intro m₁ s m₂ m₃ parses
      cases first.symm.trans parses
  | some m₁ =>
      have roomy₁ := parseInto_roomy (by decide) keeps₁ roomy first
      rw [Composes, site, values, first]
      simp only [Option.bind_eq_bind, Option.bind_some, if_true]
      cases evaluated : Operator.add.secondInto e₂ m₁ with
      | none =>
          refine iff_of_true rfl ?_
          intro m₁' s m₂ m₃ parses run parsed
          obtain rfl := Option.some.inj (first.symm.trans parses)
          have some : Operator.add.secondInto e₂ m₁ = some (cellB, m₃) := by
            simp only [secondInto, counts, Bool.false_eq_true, if_false, parseInto, run, parsed,
              Option.bind_eq_bind, Option.bind_some]
          cases evaluated.symm.trans some
      | some result =>
          obtain ⟨b, m₂⟩ := result
          obtain ⟨roomy₂, cell⟩ := secondInto_spec keeps₂ roomy₁ evaluated
          obtain ⟨rfl, s, m₂', run, parsed, left⟩ := cell rfl
          simp only [Option.bind_some]
          rw [run_reads roomy₂ .add (fun _ => rfl),
            alone_eq (number_lt _ 32) (second_small .add m₂ cellB).1 (second_small .add m₂ cellB).2]
          have smallX : m₂.number cellA.toNat 32 < 2 ^ 256 := bytes_bits ▸ number_lt _ 32
          have smallY : m₁.number cellA.toNat 32 < 2 ^ 256 := bytes_bits ▸ number_lt _ 32
          rw [add_code_iff smallX smallY, left]
          refine ⟨?_, fun leaves => leaves m₁ s m₂' m₂ first run parsed⟩
          intro same m₁' s' n₂ n₃ parses run' parsed'
          obtain rfl := Option.some.inj (first.symm.trans parses)
          obtain ⟨rfl, rfl⟩ := Prod.mk.inj (Option.some.inj (run.symm.trans run'))
          exact same

theorem composes_iff (keeps₁ : Keeps e₁) (keeps₂ : Keeps e₂) (roomy : Roomy m) :
    Composes op e₁ e₂ m ↔ op ≠ .add ∨ LeavesFirst e₁ e₂ m := by
  by_cases sum : op = .add
  · rw [sum, composes_add_iff keeps₁ keeps₂ roomy]
    exact (or_iff_right (not_not.mpr rfl)).symm
  · exact iff_of_true (composes_saved sum keeps₁ keeps₂ roomy) (.inl sum)

/-- A page with the digits from `0` to `9`. -/
def digits : LinearMemory :=
  ⟨fun i => if 16384 ≤ i then BitVec.ofNat 8 (48 + (i - 16384)) else 0, 65536⟩

/-- The string of one of them. -/
def digit (d : Nat) : Code := fun m => some (CompositeKeys.tagStr (16384 + d) 1, m)

def choose (test yes no : Code) : Code := fun m => do
  let (word, m) ← test m
  if word = (Literal.bool false).word then no m else yes m

/-- `(u256/add "1" (if (u256/lt "2" "3") "3" "4"))` -/
theorem composes_nested :
    ¬ Composes .add (digit 1) (choose (emit 65536 .lt (digit 2) (digit 3)) (digit 3) (digit 4))
      digits := by
  unfold Composes
  decide

theorem digit_keeps (d : Nat) : Keeps (digit d) := by
  rintro m s m' ⟨⟩
  rfl

theorem composes_iff_flat : Composes .mul (digit 2) (digit 3) digits :=
  (composes_iff (digit_keeps 2) (digit_keeps 3) ⟨by decide, by decide⟩).mpr (.inl (by decide))

end Operator

end U256

end LispRlm.WasmEmit
