import LispRlm.WasmEmit.CheckedWords

/-! What the code of the integer operators leaves, given the values of the operands. -/

namespace LispRlm.WasmEmit

open Foundation Instruction

/-- An operand's code leaves the tagged word of its value. -/
def operand (v : Payload) (s : Locals) : Answer LocalVar I64 LinearMemory :=
  .value (tagWord v.val) s

/-- The code leaves this word and the memory as it was; without a word, it traps. -/
def Yields (functions : Op.Functions) (fuel : Nat) (code : Instructions Payload) :
    Option I64 → Prop
  | some w => ∀ s, ∃ t : Locals, t.memory = s.memory ∧
      run (wasm functions) operand fuel (.ofList code) ⟨[], s⟩ = .next ⟨[w], t⟩
  | none => ∀ s, run (wasm functions) operand fuel (.ofList code) ⟨[], s⟩ = .trap

def emptyStore : Locals := ⟨fun _ => 0, ⟨fun _ => 0, 0⟩⟩

theorem Yields.unique {functions : Op.Functions} {fuel : Nat} {code : Instructions Payload}
    {r r' : Option I64} (first : Yields functions fuel code r)
    (second : Yields functions fuel code r') : r = r' := by
  cases r with
  | none =>
      cases r' with
      | none => rfl
      | some w' =>
          obtain ⟨t, _, ran⟩ := second emptyStore
          rw [first emptyStore] at ran
          cases ran
  | some w =>
      obtain ⟨t, _, ran⟩ := first emptyStore
      cases r' with
      | none =>
          rw [second emptyStore] at ran
          cases ran
      | some w' =>
          obtain ⟨t', _, ran'⟩ := second emptyStore
          rw [ran] at ran'
          cases ran'
          rfl

/-! ### One operand after the other -/

/-- A number that passes the test. -/
def toSub (p : Int → Bool) (n : Int) : Option { n : Int // p n = true } :=
  if fits : p n = true then some ⟨n, fits⟩ else none

theorem toSub_pos {p : Int → Bool} {n : Int} (fits : p n = true) : toSub p n = some ⟨n, fits⟩ :=
  dif_pos fits

theorem toSub_neg {p : Int → Bool} {n : Int} (outside : p n = false) : toSub p n = none :=
  dif_neg (by rw [outside]; exact Bool.false_ne_true)

section Runs

variable {functions : Op.Functions} {fuel : Nat} {stack : List I64} {s : Locals}

@[simp] theorem run_operand (v : Payload) (rest : Instructions Payload) :
    run (wasm functions) operand fuel (.ofList (expr v ++ rest)) ⟨stack, s⟩ =
      run (wasm functions) operand fuel (.ofList rest) ⟨tagWord v.val :: stack, s⟩ := rfl

theorem run_untagged (v : Payload) (rest : Instructions Payload) :
    run (wasm functions) operand fuel (.ofList (expr v ++ (emitUntag ++ rest))) ⟨stack, s⟩ =
      run (wasm functions) operand fuel (.ofList rest) ⟨BitVec.ofInt 64 v.val :: stack, s⟩ := by
  rw [run_operand, Builtin.run_untag, untag_tagWord]

/-- The code goes on with the rest from a state that holds the next value, or traps. -/
def Advances (functions : Op.Functions) (fuel : Nat) {α : Type}
    (held : α → Config LocalVar I64 LinearMemory → Prop) (code rest : Instructions Payload)
    (c : Config LocalVar I64 LinearMemory) : Option α → Prop
  | some a => ∃ c', held a c' ∧ c'.store.memory = c.store.memory ∧
      run (wasm functions) operand fuel (.ofList (code ++ rest)) c =
        run (wasm functions) operand fuel (.ofList rest) c'
  | none => run (wasm functions) operand fuel (.ofList (code ++ rest)) c = .trap

theorem advances_chain {α : Type} {held : α → Config LocalVar I64 LinearMemory → Prop}
    {work : α → Payload → Option α} {body : Payload → Instructions Payload}
    (round : ∀ a v c rest, held a c → Advances functions fuel held (body v) rest c (work a v))
    (more : List Payload) (a : α) (c : Config LocalVar I64 LinearMemory)
    (rest : Instructions Payload) (holds : held a c) :
    Advances functions fuel held (more.flatMap body) rest c (more.foldlM work a) := by
  induction more generalizing a c with
  | nil => exact ⟨c, holds, rfl, rfl⟩
  | cons v more ih =>
      have first := round a v c (more.flatMap body ++ rest) holds
      rw [List.foldlM_cons]
      cases worked : work a v with
      | none =>
          rw [worked] at first
          show run _ _ _ _ _ = _
          rw [List.flatMap_cons, List.append_assoc]
          exact first
      | some a' =>
          rw [worked] at first
          obtain ⟨c', holds', kept, ran⟩ := first
          have later := ih a' c' holds'
          rw [Option.bind_eq_bind, Option.bind_some]
          cases folded : more.foldlM work a' with
          | none =>
              rw [folded] at later
              show run _ _ _ _ _ = _
              rw [List.flatMap_cons, List.append_assoc, ran]
              exact later
          | some b =>
              rw [folded] at later
              obtain ⟨c'', holds'', kept', ran'⟩ := later
              refine ⟨c'', holds'', kept'.trans kept, ?_⟩
              rw [List.flatMap_cons, List.append_assoc, ran, ran']

/-- The value so far is alone on the stack. -/
def OnTop {p : Int → Bool} (word : Int → I64) (a : { n : Int // p n = true })
    (c : Config LocalVar I64 LinearMemory) : Prop := c.stack = [word a.val]

theorem sum_round {op : Arith} (notMul : op ≠ .mul) (a v : Payload)
    (c : Config LocalVar I64 LinearMemory) (rest : Instructions Payload) (held : OnTop tagWord a c) :
    Advances functions fuel (OnTop tagWord) (expr v ++ op.emitChecked) rest c
      (toSub inPayload (op.apply a.val v.val)) := by
  obtain ⟨stack, s⟩ := c
  have only : stack = [tagWord a.val] := held
  subst only
  have scaled : op.apply (a.val * 8) (v.val * 8) = op.apply a.val v.val * 8 := by
    cases op with
    | add => exact (add_mul _ _ _).symm
    | sub => exact (sub_mul _ _ _).symm
    | mul => exact (notMul rfl).elim
  obtain ⟨t, off, ran⟩ := @run_emitChecked _ functions operand fuel op (a.val * 8) (v.val * 8)
    (inI64_shifted.trans a.property) (inI64_shifted.trans v.property) rest [] s
  rw [scaled, inI64_shifted] at ran
  cases fits : inPayload (op.apply a.val v.val) with
  | true =>
      rw [fits, if_pos rfl] at ran
      rw [toSub_pos fits]
      refine ⟨⟨_, t⟩, rfl, off.1, ?_⟩
      rw [List.append_assoc, run_operand]
      exact ran
  | false =>
      rw [fits, if_neg Bool.false_ne_true] at ran
      rw [toSub_neg fits]
      show run _ _ _ _ _ = _
      rw [List.append_assoc, run_operand]
      exact ran

theorem product_round (a : Wide) (v : Payload) (c : Config LocalVar I64 LinearMemory)
    (rest : Instructions Payload) (held : OnTop (BitVec.ofInt 64) a c) :
    Advances functions fuel (OnTop (BitVec.ofInt 64)) (expr v ++ emitUntag ++ emitCheckedMul) rest c
      (toSub inI64 (a.val * v.val)) := by
  obtain ⟨stack, s⟩ := c
  have only : stack = [BitVec.ofInt 64 a.val] := held
  subst only
  obtain ⟨t, off, ran⟩ := @run_checkedMul _ functions operand fuel a.val v.val a.property
    (inI64_of_inPayload v.property) rest [] s
  cases fits : inI64 (a.val * v.val) with
  | true =>
      rw [fits, if_pos rfl] at ran
      rw [toSub_pos fits]
      refine ⟨⟨_, t⟩, rfl, off.1, ?_⟩
      rw [List.append_assoc, List.append_assoc, run_untagged]
      exact ran
  | false =>
      rw [fits, if_neg Bool.false_ne_true] at ran
      rw [toSub_neg fits]
      show run _ _ _ _ _ = _
      rw [List.append_assoc, List.append_assoc, run_untagged]
      exact ran

theorem divS_eval {x y : Int} (fitsX : inI64 x = true) (fitsY : inI64 y = true) (nonzero : y ≠ 0) :
    BinOp.divS.eval (BitVec.ofInt 64 x) (BitVec.ofInt 64 y) =
      if inI64 (x.tdiv y) then some (BitVec.ofInt 64 (x.tdiv y)) else none := by
  have valueX := toInt_ofInt_inI64 fitsX
  have valueY := toInt_ofInt_inI64 fitsY
  have notZero : BitVec.ofInt 64 y ≠ 0 := by
    intro same
    have := congrArg BitVec.toInt same
    rw [valueY] at this
    exact nonzero this
  have least : BitVec.ofInt 64 x = BitVec.intMin 64 ↔ x = -2 ^ 63 := by
    rw [← BitVec.toInt_inj, valueX]
    rfl
  have minus : BitVec.ofInt 64 y = -1 ↔ y = -1 := by
    rw [← BitVec.toInt_inj, valueY]
    rfl
  have size : (x.tdiv y).natAbs = x.natAbs / y.natAbs := Int.natAbs_tdiv x y
  by_cases overflow : x = -2 ^ 63 ∧ y = -1
  · obtain ⟨rfl, rfl⟩ := overflow
    rfl
  · have fits : inI64 (x.tdiv y) = true := by
      have le : x.natAbs / y.natAbs ≤ x.natAbs := Nat.div_le_self _ _
      simp only [inI64, Bool.and_eq_true, decide_eq_true_eq] at fitsX ⊢
      by_cases top : x = -2 ^ 63
      · have far : y ≠ -1 := fun same => overflow ⟨top, same⟩
        by_cases one : y = 1
        · rw [one, Int.tdiv_one]
          exact fitsX
        · have two : 2 ≤ y.natAbs := by omega
          have half : x.natAbs / y.natAbs ≤ x.natAbs / 2 := Nat.div_le_div_left two (by decide)
          omega
      · omega
    have quotient : ((BitVec.ofInt 64 x).sdiv (BitVec.ofInt 64 y)).toInt = x.tdiv y := by
      rw [BitVec.toInt_sdiv_of_ne_or_ne, valueX, valueY]
      by_cases top : x = -2 ^ 63
      · right
        intro same
        exact overflow ⟨top, minus.mp same⟩
      · left
        intro same
        exact top (least.mp same)
    rw [BinOp.eval, if_neg, fits, if_pos rfl, ← quotient, BitVec.ofInt_toInt]
    rintro (zero | ⟨top, one⟩)
    · exact notZero zero
    · exact overflow ⟨least.mp top, minus.mp one⟩

theorem quotient_round (a : Wide) (v : Payload) (c : Config LocalVar I64 LinearMemory)
    (rest : Instructions Payload) (held : OnTop (BitVec.ofInt 64) a c) :
    Advances functions fuel (OnTop (BitVec.ofInt 64)) (expr v ++ emitUntag ++ emitSafeDiv) rest c
      (if v.val = 0 then none else toSub inI64 (a.val.tdiv v.val)) := by
  obtain ⟨stack, s⟩ := c
  have only : stack = [BitVec.ofInt 64 a.val] := held
  subst only
  let x := localIdx "__div_a"
  let y := localIdx "__div_b"
  let t := (s.set y (.ofInt 64 v.val)).set x (.ofInt 64 a.val)
  have heldX : t.locals x = .ofInt 64 a.val := by simp [t, Store.set_locals]
  have heldY : t.locals y = .ofInt 64 v.val := by simp [t, x, y, localIdx, Store.set_locals]
  have fitsV := inI64_of_inPayload v.property
  have start : run (wasm functions) operand fuel
      (.ofList (expr v ++ emitUntag ++ emitSafeDiv ++ rest)) ⟨[BitVec.ofInt 64 a.val], s⟩ =
      run (wasm functions) operand fuel
        (.ofList (ifElseI64 [unreachable] [localGet x, localGet y, i64 .divS] :: rest))
        ⟨[Op.ofBool (decide (v.val = 0))], t⟩ := by
    rw [List.append_assoc, List.append_assoc, run_untagged]
    simp only [emitSafeDiv, List.cons_append, List.nil_append]
    rw [run_localSet, run_localSet, run_localGet, run_i64Eqz]
    rw [show (s.set (localIdx "__div_b") (.ofInt 64 v.val)).set (localIdx "__div_a")
      (.ofInt 64 a.val) = t from rfl, heldY, ofInt_eq_zero fitsV]
  by_cases zero : v.val = 0
  · rw [if_pos zero]
    show run _ _ _ _ _ = _
    rw [start, decide_eq_true zero]
    exact run_ifElseI64_stop rfl
  · rw [if_neg zero]
    have divided := divS_eval a.property fitsV zero
    cases fits : inI64 (a.val.tdiv v.val) with
    | true =>
        rw [fits, if_pos rfl] at divided
        rw [toSub_pos fits]
        refine ⟨⟨[BitVec.ofInt 64 (a.val.tdiv v.val)], t⟩, rfl, rfl, ?_⟩
        rw [start, decide_eq_false zero]
        apply run_ifElseI64
        rw [if_neg Bool.false_ne_true, run_localGet, heldX, run_localGet, heldY, run_i64 divided]
        rfl
    | false =>
        rw [fits, if_neg Bool.false_ne_true] at divided
        rw [toSub_neg fits]
        show run _ _ _ _ _ = _
        rw [start, decide_eq_false zero]
        apply run_ifElseI64_stop
        rw [if_neg Bool.false_ne_true, run_localGet, heldX, run_localGet, heldY,
          run_i64_trap divided]

/-- What `max` and `min` keep of two numbers. -/
def kept (cmp : RelOp) (a v : Payload) : Payload :=
  if cmp.eval (BitVec.ofInt 64 a.val) (BitVec.ofInt 64 v.val) then a else v

theorem extremum_round (cmp : RelOp) {x y : String} (apart : x ≠ y) (a v : Payload)
    (c : Config LocalVar I64 LinearMemory) (rest : Instructions Payload)
    (held : OnTop (BitVec.ofInt 64) a c) :
    Advances functions fuel (OnTop (BitVec.ofInt 64))
      ([localSet (localIdx x)] ++ expr v ++ emitUntag ++
        [localSet (localIdx y), localGet (localIdx x), localGet (localIdx y), i64Rel cmp,
          ifElseI64 [localGet (localIdx x)] [localGet (localIdx y)]]) rest c
      (some (kept cmp a v)) := by
  obtain ⟨stack, s⟩ := c
  have only : stack = [BitVec.ofInt 64 a.val] := held
  subst only
  let t := (s.set (localIdx x) (.ofInt 64 a.val)).set (localIdx y) (.ofInt 64 v.val)
  have heldX : t.locals (localIdx x) = .ofInt 64 a.val := by
    simp [t, localIdx, Store.set_locals, apart]
  have heldY : t.locals (localIdx y) = .ofInt 64 v.val := by simp [t, Store.set_locals]
  refine ⟨⟨[BitVec.ofInt 64 (kept cmp a v).val], t⟩, rfl, rfl, ?_⟩
  simp only [List.append_assoc, List.cons_append, List.nil_append]
  rw [run_localSet, run_untagged, run_localSet, run_localGet, run_localGet]
  rw [show (s.set (localIdx x) (.ofInt 64 a.val)).set (localIdx y) (.ofInt 64 v.val) = t from rfl,
    heldX, heldY, run_i64Rel]
  apply run_ifElseI64
  unfold kept
  cases cmp.eval (BitVec.ofInt 64 a.val) (BitVec.ofInt 64 v.val) with
  | true => simp [heldX]
  | false => simp [heldY]

/-! ### Sums that may be of strings -/

theorem polyAcc_ne_polyCur (depth : Nat) : polyAcc depth ≠ polyCur depth := by
  intro same
  have lists := congrArg String.toList (LocalVar.named.inj same)
  simp [String.toList_append] at lists

theorem tagWord_low (n : Int) : tagWord n &&& 7 = 0 := by
  rw [← tagNum_ofInt, Builtin.tagNum]
  apply BitVec.eq_of_toNat_eq
  rw [BitVec.toNat_and, BitVec.toNat_shiftLeft, Nat.shiftLeft_eq,
    show (7 : I64).toNat = 2 ^ 3 - 1 from rfl, Nat.and_two_pow_sub_one_eq_mod,
    show (0 : I64).toNat = 0 from rfl]
  omega

theorem tagWord_not_string (n : Int) : RelOp.eq.eval (tagWord n &&& 7) tagStr = false := by
  rw [tagWord_low]
  rfl

/-- The value so far is in the accumulator's local. -/
def InAcc (depth : Nat) (a : Payload) (c : Config LocalVar I64 LinearMemory) : Prop :=
  c.stack = [] ∧ c.store.locals (polyAcc depth) = tagWord a.val

theorem poly_round (concat : Instructions Payload) (depth : Nat) (a v : Payload)
    (c : Config LocalVar I64 LinearMemory) (rest : Instructions Payload) (held : InAcc depth a c) :
    Advances functions fuel (InAcc depth) (polyRound concat depth v) rest c
      (toSub inPayload (a.val + v.val)) := by
  obtain ⟨stack, s⟩ := c
  obtain ⟨empty, heldAcc⟩ := held
  have none_ : stack = [] := empty
  subst none_
  have inAcc : s.locals (polyAcc depth) = tagWord a.val := heldAcc
  let acc := polyAcc depth
  let cur := polyCur depth
  let numbers : Instructions Payload := [localGet acc, localGet cur] ++ emitCheckedAdd ++
    [localSet acc]
  let u := s.set cur (tagWord v.val)
  have heldAcc' : u.locals acc = tagWord a.val := by
    simp [u, Store.set_locals, acc, cur, polyAcc_ne_polyCur depth, ← inAcc]
  have heldCur : u.locals cur = tagWord v.val := by simp [u, Store.set_locals]
  have start : run (wasm functions) operand fuel (.ofList (polyRound concat depth v ++ rest))
      ⟨[], s⟩ = run (wasm functions) operand fuel (.ofList (ifElse concat numbers :: rest))
        ⟨[Op.ofBool false], u⟩ := by
    simp only [polyRound, List.append_assoc, List.cons_append, List.nil_append]
    rw [run_operand, run_localSet, run_localGet]
    rw [show s.set (polyCur depth) (tagWord v.val) = u from rfl, heldAcc', run_i64Const, run_and,
      run_i64Const, run_i64Rel, tagWord_not_string, run_localGet, heldCur, run_i64Const, run_and,
      run_i64Const, run_i64Rel, tagWord_not_string, run_i32Or]
    rfl
  have scaled : a.val * 8 + v.val * 8 = (a.val + v.val) * 8 := (add_mul _ _ _).symm
  obtain ⟨t, off, ran⟩ := @run_checkedAdd _ functions operand fuel (a.val * 8) (v.val * 8)
    (inI64_shifted.trans a.property) (inI64_shifted.trans v.property) [localSet acc] [] u
  rw [scaled, inI64_shifted] at ran
  have opened : run (wasm functions) operand fuel (.ofList numbers) ⟨[], u⟩ =
      run (wasm functions) operand fuel (.ofList (emitCheckedAdd ++ [localSet acc]))
        ⟨[tagWord v.val, tagWord a.val], u⟩ := by
    simp only [numbers, List.cons_append, List.nil_append, List.append_assoc]
    rw [run_localGet, run_localGet, heldAcc', heldCur]
  cases fits : inPayload (a.val + v.val) with
  | true =>
      rw [fits, if_pos rfl, run_localSet] at ran
      rw [toSub_pos fits]
      refine ⟨⟨[], t.set acc (tagWord (a.val + v.val))⟩, ⟨rfl, ?_⟩, off.1, ?_⟩
      · simp [Store.set_locals, acc]
      · rw [start]
        apply run_ifElse
        rw [if_neg Bool.false_ne_true]
        exact opened.trans ran
  | false =>
      rw [fits, if_neg Bool.false_ne_true] at ran
      rw [toSub_neg fits]
      show run _ _ _ _ _ = _
      rw [start]
      apply run_ifElse_stop
      rw [if_neg Bool.false_ne_true]
      exact opened.trans ran

/-! ### Whole forms -/

/-- A chain of operands between a beginning and an end. -/
theorem yields_chain {α : Type} {held : α → Config LocalVar I64 LinearMemory → Prop}
    {before after : Instructions Payload} {body : Payload → Instructions Payload}
    {work : α → Payload → Option α} {a : α} {more : List Payload} {leaves : α → Option I64}
    (begins : ∀ s rest, ∃ c', held a c' ∧ c'.store.memory = s.memory ∧
      run (wasm functions) operand fuel (.ofList (before ++ rest)) ⟨[], s⟩ =
        run (wasm functions) operand fuel (.ofList rest) c')
    (round : ∀ a v c rest, held a c → Advances functions fuel held (body v) rest c (work a v))
    (ends : ∀ a c, held a c →
      match leaves a with
      | some w => ∃ t : Locals, t.memory = c.store.memory ∧
          run (wasm functions) operand fuel (.ofList after) c = .next ⟨[w], t⟩
      | none => run (wasm functions) operand fuel (.ofList after) c = .trap) :
    Yields functions fuel (before ++ more.flatMap body ++ after)
      ((more.foldlM work a).bind leaves) := by
  have whole : ∀ s, ∃ c', held a c' ∧ c'.store.memory = s.memory ∧
      run (wasm functions) operand fuel (.ofList (before ++ more.flatMap body ++ after)) ⟨[], s⟩ =
        run (wasm functions) operand fuel (.ofList (more.flatMap body ++ after)) c' := by
    intro s
    obtain ⟨c', holds, same, ran⟩ := begins s (more.flatMap body ++ after)
    exact ⟨c', holds, same, by rw [List.append_assoc, ran]⟩
  cases folded : more.foldlM work a with
  | none =>
      intro s
      obtain ⟨c', holds, _, ran⟩ := whole s
      have later := advances_chain round more a c' after holds
      rw [folded] at later
      exact ran.trans later
  | some b =>
      cases left : leaves b with
      | none =>
          rw [Option.bind_some, left]
          intro s
          obtain ⟨c', holds, _, ran⟩ := whole s
          have later := advances_chain round more a c' after holds
          rw [folded] at later
          obtain ⟨c'', holds', _, ran'⟩ := later
          have last := ends b c'' holds'
          rw [left] at last
          rw [ran, ran', last]
      | some w =>
          rw [Option.bind_some, left]
          intro s
          obtain ⟨c', holds, same, ran⟩ := whole s
          have later := advances_chain round more a c' after holds
          rw [folded] at later
          obtain ⟨c'', holds', same', ran'⟩ := later
          have last := ends b c'' holds'
          rw [left] at last
          obtain ⟨t, same'', ran''⟩ := last
          exact ⟨t, same''.trans (same'.trans same), by rw [ran, ran', ran'']⟩

theorem begins_tagged (v : Payload) (s : Locals) (rest : Instructions Payload) :
    ∃ c', OnTop tagWord v c' ∧ c'.store.memory = s.memory ∧
      run (wasm functions) operand fuel (.ofList (expr v ++ rest)) ⟨[], s⟩ =
        run (wasm functions) operand fuel (.ofList rest) c' :=
  ⟨⟨[tagWord v.val], s⟩, rfl, rfl, run_operand v rest⟩

theorem begins_untagged {p : Int → Bool} (v : Payload) (a : { n : Int // p n = true })
    (same : a.val = v.val) (s : Locals) (rest : Instructions Payload) :
    ∃ c', OnTop (BitVec.ofInt 64) a c' ∧ c'.store.memory = s.memory ∧
      run (wasm functions) operand fuel (.ofList (expr v ++ emitUntag ++ rest)) ⟨[], s⟩ =
        run (wasm functions) operand fuel (.ofList rest) c' := by
  refine ⟨⟨[BitVec.ofInt 64 v.val], s⟩, ?_, rfl, ?_⟩
  · rw [OnTop, same]
  · rw [List.append_assoc, run_untagged]

theorem ends_tagging {p : Int → Bool} (a : { n : Int // p n = true })
    (c : Config LocalVar I64 LinearMemory) (held : OnTop (BitVec.ofInt 64) a c) :
    ∃ t : Locals, t.memory = c.store.memory ∧
      run (wasm functions) operand fuel (.ofList emitTagNum) c = .next ⟨[tagWord a.val], t⟩ := by
  obtain ⟨stack, s⟩ := c
  have only : stack = [BitVec.ofInt 64 a.val] := held
  subst only
  exact ⟨s, rfl, by rw [Builtin.run_tagNum, tagNum_ofInt]⟩

theorem sums_yield {op : Arith} (notMul : op ≠ .mul) (first : Payload) (more : List Payload) :
    Yields functions fuel (emitArith op first more)
      (((more.foldlM (fun a v => toSub inPayload (op.apply a.val v.val)) first).map
        (·.val)).map tagWord) := by
  have code : emitArith op first more =
      expr first ++ (more.flatMap fun x => expr x ++ op.emitChecked) ++ [] := by
    rw [emitArith, if_neg notMul, List.append_nil]
  rw [code, Option.map_map, Option.map_eq_bind]
  apply yields_chain (begins_tagged first) (sum_round notMul)
  intro a c held
  obtain ⟨stack, s⟩ := c
  have only : stack = [tagWord a.val] := held
  subst only
  exact ⟨s, rfl, rfl⟩

theorem products_yield (first : Payload) (more : List Payload) :
    Yields functions fuel (emitArith .mul first more)
      (((more.foldlM (fun (a : Wide) (v : Payload) => toSub inI64 (a.val * v.val))
        first.wide).map (·.val)).bind emitTaggedConst) := by
  rw [emitArith, if_pos rfl, Option.bind_map]
  apply yields_chain (begins_untagged first first.wide rfl) product_round
  intro a c held
  obtain ⟨stack, s⟩ := c
  have only : stack = [BitVec.ofInt 64 a.val] := held
  subst only
  obtain ⟨t, off, ran⟩ := @run_checkedRetag _ functions operand fuel a [] [] s
  rw [List.append_nil] at ran
  rw [Function.comp, emitTaggedConst]
  cases fits : inPayload a.val with
  | true =>
      rw [fits, if_pos rfl] at ran
      rw [if_pos rfl]
      exact ⟨t, off.1, ran⟩
  | false =>
      rw [fits, if_neg Bool.false_ne_true] at ran
      rw [if_neg Bool.false_ne_true]
      exact ran

theorem quotients_yield (first : Payload) (more : List Payload) :
    Yields functions fuel (emitDiv first more)
      (((more.foldlM (fun (a : Wide) (v : Payload) =>
        if v.val = 0 then none else toSub inI64 (a.val.tdiv v.val)) first.wide).map
        (·.val)).map tagWord) := by
  rw [emitDiv, Option.map_map, Option.map_eq_bind]
  apply yields_chain (begins_untagged first first.wide rfl) quotient_round
  intro a c held
  exact ends_tagging a c held

theorem polySums_yield (concat : Instructions Payload) (depth : Nat) (first : Payload)
    (more : List Payload) :
    Yields functions fuel (emitPolyAdd concat depth first more)
      (((more.foldlM (fun a v => toSub inPayload (a.val + v.val)) first).map
        (·.val)).map tagWord) := by
  rw [emitPolyAdd, Option.map_map, Option.map_eq_bind]
  refine yields_chain ?_ (poly_round concat depth) ?_
  · intro s rest
    refine ⟨⟨[], s.set (polyAcc depth) (tagWord first.val)⟩, ⟨rfl, ?_⟩, rfl, ?_⟩
    · simp [Store.set_locals]
    · rw [List.append_assoc, run_operand]
      exact run_localSet _ _ _
  · intro a c held
    obtain ⟨stack, s⟩ := c
    obtain ⟨empty, heldAcc⟩ := held
    have none_ : stack = [] := empty
    subst none_
    have inAcc : s.locals (polyAcc depth) = tagWord a.val := heldAcc
    exact ⟨s, rfl, by rw [run_localGet, inAcc]; rfl⟩

theorem extremum_yields {x y : String} (apart : x ≠ y) (cmp : RelOp) (first : Payload)
    (more : List Payload) :
    Yields functions fuel (emitExtremum x y cmp first more)
      (some (tagWord (more.foldl (kept cmp) first).val)) := by
  unfold emitExtremum
  split
  · rename_i empty
    subst empty
    intro s
    exact ⟨s, rfl, rfl⟩
  · have pure_ : ∀ (more : List Payload) (a : Payload),
        more.foldlM (fun a v => some (kept cmp a v)) a = some (more.foldl (kept cmp) a) := by
      intro more
      induction more with
      | nil => intro a; rfl
      | cons v more ih => intro a; exact ih (kept cmp a v)
    have same : some (tagWord (more.foldl (kept cmp) first).val) =
        (more.foldlM (fun a v => some (kept cmp a v)) first).bind
          fun a => some (tagWord a.val) := by
      rw [pure_]
      rfl
    rw [same]
    apply yields_chain (begins_untagged first first rfl) (extremum_round cmp apart)
    intro a c held
    exact ends_tagging a c held

/-! ### Forms of one and two operands -/

theorem negation_yields (x : Payload) :
    Yields functions fuel ([i64Const 0] ++ expr x ++ emitUntag ++ emitCheckedSub ++ emitCheckedRetag)
      (emitTaggedConst (-x.val)) := by
  have wide : inI64 (0 - x.val) = true := by
    have fits := x.property
    simp only [inPayload, inI64, Bool.and_eq_true, decide_eq_true_eq] at fits ⊢
    omega
  have both : ∀ s, ∃ t : Locals, t.memory = s.memory ∧
      run (wasm functions) operand fuel (.ofList ([i64Const 0] ++ expr x ++ emitUntag ++
        emitCheckedSub ++ emitCheckedRetag)) ⟨[], s⟩ =
        if inPayload (0 - x.val) then .next ⟨[tagWord (0 - x.val)], t⟩ else .trap := by
    intro s
    obtain ⟨t, off, ran⟩ := @run_checkedSub _ functions operand fuel 0 x.val (by decide)
      (inI64_of_inPayload x.property) emitCheckedRetag [] s
    obtain ⟨u, off', ran'⟩ := @run_checkedRetag _ functions operand fuel ⟨0 - x.val, wide⟩ [] [] t
    rw [List.append_nil] at ran'
    refine ⟨u, off'.1.trans off.1, ?_⟩
    simp only [List.append_assoc, List.cons_append, List.nil_append]
    rw [run_i64Const, run_untagged, show (0 : I64) = BitVec.ofInt 64 0 from rfl, ran, if_pos wide,
      ran']
    rfl
  rw [zero_sub] at both
  rw [emitTaggedConst]
  cases fits : inPayload (-x.val) with
  | true =>
      rw [fits] at both
      exact both
  | false =>
      rw [fits] at both
      intro s
      obtain ⟨t, _, ran⟩ := both s
      exact ran

/-- The remainder of the truncated division, moved up where it is negative. -/
theorem emod_fixup {x y : Int} (nonzero : y ≠ 0) :
    (if x.tmod y < 0 then x.tmod y + (if y < 0 then 0 - y else y) else x.tmod y) = x % y := by
  have low := Int.emod_nonneg x nonzero
  have high := Int.emod_lt_abs x nonzero
  have size : (y.natAbs : Int) = if y < 0 then 0 - y else y := by
    split <;> omega
  have same := @Int.tmod_eq_emod x y
  rw [Int.abs_eq_natAbs] at high
  rw [← size]
  split at same
  · rw [if_neg (by omega)]
    omega
  · rw [if_pos (by omega)]
    omega

theorem remainder_yields (x y : Payload) :
    Yields functions fuel (expr x ++ emitUntag ++ expr y ++ emitUntag ++ emitSafeRem ++ emitTagNum)
      (if y.val = 0 then none else some (tagWord (x.val % y.val))) := by
  let a := localIdx "__rem_a"
  let b := localIdx "__rem_b"
  let result := localIdx "__rem_result"
  let fixing : Instructions Payload := [localGet result, localGet b, i64Const 0, i64Rel .ltS,
    ifElseI64 [i64Const 0, localGet b, i64 .sub] [localGet b], i64 .add, localSet result]
  let dividing : Instructions Payload := [localGet a, localGet b, i64 .remS, localSet result,
    localGet result, i64Const 0, i64Rel .ltS, if_ fixing]
  have fitsX := inI64_of_inPayload x.property
  have fitsY := inI64_of_inPayload y.property
  have start : ∀ s, ∃ t : Locals, t.memory = s.memory ∧ t.locals a = .ofInt 64 x.val ∧
      t.locals b = .ofInt 64 y.val ∧
      run (wasm functions) operand fuel (.ofList (expr x ++ emitUntag ++ expr y ++ emitUntag ++
        emitSafeRem ++ emitTagNum)) ⟨[], s⟩ =
        run (wasm functions) operand fuel
          (.ofList (ifElse [unreachable] dividing :: localGet result :: emitTagNum))
          ⟨[Op.ofBool (decide (y.val = 0))], t⟩ := by
    intro s
    let t := (s.set b (.ofInt 64 y.val)).set a (.ofInt 64 x.val)
    have heldB : t.locals b = .ofInt 64 y.val := by simp [t, a, b, localIdx, Store.set_locals]
    refine ⟨t, rfl, by simp [t, Store.set_locals], heldB, ?_⟩
    simp only [List.append_assoc]
    rw [run_untagged, run_untagged]
    simp only [emitSafeRem, List.cons_append, List.nil_append]
    rw [run_localSet, run_localSet, run_localGet, run_i64Eqz]
    rw [show (s.set (localIdx "__rem_b") (.ofInt 64 y.val)).set (localIdx "__rem_a")
      (.ofInt 64 x.val) = t from rfl, heldB, ofInt_eq_zero fitsY]
  by_cases zero : y.val = 0
  · rw [if_pos zero]
    intro s
    obtain ⟨t, _, _, _, ran⟩ := start s
    rw [ran, decide_eq_true zero]
    exact run_ifElse_stop rfl
  · rw [if_neg zero]
    intro s
    obtain ⟨t, kept, heldA, heldB, ran⟩ := start s
    have notZero : BitVec.ofInt 64 y.val ≠ 0 := by
      have checked := ofInt_eq_zero fitsY
      rw [decide_eq_false zero, beq_eq_false_iff_ne] at checked
      exact checked
    have small : inI64 (x.val.tmod y.val) = true := by
      have bound : (x.val.tmod y.val).natAbs ≤ x.val.natAbs := by
        rw [Int.natAbs_tmod]
        exact Nat.mod_le _ _
      have fits := x.property
      simp only [inPayload, inI64, Bool.and_eq_true, decide_eq_true_eq] at fits ⊢
      omega
    have remainder : BinOp.remS.eval (BitVec.ofInt 64 x.val) (BitVec.ofInt 64 y.val) =
        some (BitVec.ofInt 64 (x.val.tmod y.val)) := by
      rw [BinOp.eval, if_neg notZero, ← toInt_ofInt_inI64 fitsX, ← toInt_ofInt_inI64 fitsY,
        ← BitVec.toInt_srem, BitVec.ofInt_toInt, BitVec.ofInt_toInt, BitVec.ofInt_toInt]
    let u := t.set result (.ofInt 64 (x.val.tmod y.val))
    have heldB' : u.locals b = .ofInt 64 y.val := by
      simp [u, b, result, localIdx, Store.set_locals, ← heldB]
    have heldR : u.locals result = .ofInt 64 (x.val.tmod y.val) := by simp [u, Store.set_locals]
    have fixed := @emod_fixup x.val y.val zero
    have divided : ∃ v : Locals, v.memory = u.memory ∧
        v.locals result = .ofInt 64 (x.val % y.val) ∧
        run (wasm functions) operand fuel (.ofList dividing) ⟨[], t⟩ = .next ⟨[], v⟩ := by
      have reached : run (wasm functions) operand fuel (.ofList dividing) ⟨[], t⟩ =
          run (wasm functions) operand fuel (.ofList [if_ fixing])
            ⟨[Op.ofBool (decide (x.val.tmod y.val < 0))], u⟩ := by
        simp only [dividing]
        rw [run_localGet, heldA, run_localGet, heldB, run_i64 remainder, run_localSet, run_localGet,
          show t.set result (.ofInt 64 (x.val.tmod y.val)) = u from rfl, heldR, run_i64Const,
          run_i64Rel, slt_zero, toInt_ofInt_inI64 small]
      rw [reached]
      by_cases negative : x.val.tmod y.val < 0
      · rw [if_pos negative] at fixed
        rw [decide_eq_true negative]
        refine ⟨u.set result (.ofInt 64 (x.val % y.val)), rfl, by simp [Store.set_locals], ?_⟩
        apply run_if_true
        have magnitude : run (wasm functions) operand fuel (.ofList
            (if decide (y.val < 0) = true then [i64Const 0, localGet b, i64 .sub]
              else [localGet b])) ⟨[], u⟩ =
            .next ⟨[BitVec.ofInt 64 (if y.val < 0 then 0 - y.val else y.val)], u⟩ := by
          by_cases below : y.val < 0
          · rw [decide_eq_true below, if_pos rfl, if_pos below, run_i64Const, run_localGet, heldB',
              run_sub, zero_sub, zero_sub, BitVec.ofInt_neg]
            rfl
          · rw [decide_eq_false below, if_neg Bool.false_ne_true, if_neg below, run_localGet,
              heldB']
            rfl
        simp only [fixing]
        rw [run_localGet, heldR, run_localGet, heldB', run_i64Const, run_i64Rel, slt_zero,
          toInt_ofInt_inI64 fitsY]
        apply (run_ifElseI64 magnitude _).trans
        rw [run_add, run_localSet, ← BitVec.ofInt_add, fixed]
        rfl
      · rw [if_neg negative] at fixed
        rw [decide_eq_false negative]
        exact ⟨u, rfl, by rw [heldR, fixed], rfl⟩
    obtain ⟨v, same, heldV, through⟩ := divided
    refine ⟨v, same.trans kept, ?_⟩
    rw [ran, decide_eq_false zero]
    apply (run_ifElse through _).trans
    rw [run_localGet, heldV, Builtin.run_tagNum, tagNum_ofInt]

theorem abs_yields (x : Payload) :
    Yields functions fuel (expr x ++ [i64Const 3, i64 .shrS, localTee (localIdx "__abs_tmp"),
        i64Const 0, i64Rel .ltS,
        ifElseI64 [i64Const 0, localGet (localIdx "__abs_tmp"), i64 .sub]
          [localGet (localIdx "__abs_tmp")]] ++ emitTagNum)
      (some (tagWord |x.val|)) := by
  intro s
  let t := s.set (localIdx "__abs_tmp") (.ofInt 64 x.val)
  have held : t.locals (localIdx "__abs_tmp") = .ofInt 64 x.val := by simp [t, Store.set_locals]
  have chosen : run (wasm functions) operand fuel (.ofList
      (if decide (x.val < 0) = true then
          [i64Const 0, localGet (localIdx "__abs_tmp"), i64 .sub]
        else [localGet (localIdx "__abs_tmp")])) ⟨[], t⟩ =
      .next ⟨[BitVec.ofInt 64 |x.val|], t⟩ := by
    by_cases negative : x.val < 0
    · rw [decide_eq_true negative, if_pos rfl, run_i64Const, run_localGet, held, run_sub, zero_sub,
        abs_of_neg negative, BitVec.ofInt_neg]
      rfl
    · rw [decide_eq_false negative, if_neg Bool.false_ne_true, run_localGet, held,
        abs_of_nonneg (by omega)]
      rfl
  refine ⟨t, rfl, ?_⟩
  simp only [List.append_assoc, List.cons_append, List.nil_append]
  rw [run_operand, run_i64Const, run_shrS]
  rw [show (tagWord x.val).sshiftRight ((3 : I64).toNat % 64) = Builtin.untag (tagWord x.val) from
    rfl, untag_tagWord, run_localTee, run_i64Const, run_i64Rel, slt_zero,
    toInt_ofInt_inI64 (inI64_of_inPayload x.property)]
  rw [show s.set (localIdx "__abs_tmp") (.ofInt 64 x.val) = t from rfl]
  apply (run_ifElseI64 chosen _).trans
  rw [Builtin.run_tagNum, tagNum_ofInt]

theorem tagNum_toInt (w : I64) : Builtin.tagNum w = tagWord w.toInt := by
  rw [← tagNum_ofInt, BitVec.ofInt_toInt]

/-- A word made of two numbers, tagged as it is. -/
theorem binary_yields {op : BinOp} {w : I64} (x y : Payload)
    (computed : op.eval (BitVec.ofInt 64 x.val) (BitVec.ofInt 64 y.val) = some w) :
    Yields functions fuel (emitBinary op emitTagNum x y) (some (tagWord w.toInt)) := by
  intro s
  refine ⟨s, rfl, ?_⟩
  simp only [emitBinary, List.append_assoc, List.cons_append, List.nil_append]
  rw [run_untagged, run_untagged, run_i64 computed, Builtin.run_tagNum, tagNum_toInt]

theorem untag_tagNum_eq (w : I64) :
    (Builtin.untag (Builtin.tagNum w) = w) ↔ inPayload w.toInt = true := by
  constructor
  · intro same
    have shifted : (Builtin.untag (Builtin.tagNum w)).toInt =
        (Builtin.tagNum w).toInt / 8 := by
      rw [Builtin.untag, BitVec.toInt_sshiftRight, Int.shiftRight_eq_div_pow]
      rfl
    have low := BitVec.le_toInt (Builtin.tagNum w)
    have high := BitVec.toInt_lt (x := Builtin.tagNum w)
    rw [same] at shifted
    simp only [inPayload, Bool.and_eq_true, decide_eq_true_eq]
    simp only [show 64 - 1 = 63 from rfl] at low high
    omega
  · intro fits
    rw [tagNum_toInt, untag_tagWord ⟨w.toInt, fits⟩, BitVec.ofInt_toInt]

theorem shl_yields (x y : Payload) :
    Yields functions fuel (emitBinary .shl emitTagNumChecked x y)
      (emitTaggedConst (BitVec.ofInt 64 x.val <<< Vm.shiftCount y.val).toInt) := by
  let w := BitVec.ofInt 64 x.val <<< Vm.shiftCount y.val
  let tmp := localIdx "__tagck"
  have both : ∀ s : Locals, run (wasm functions) operand fuel
      (.ofList (emitBinary .shl emitTagNumChecked x y)) ⟨[], s⟩ =
        if inPayload w.toInt then .next ⟨[tagWord w.toInt], s.set tmp w⟩ else .trap := by
    intro s
    have held : (s.set tmp w).locals tmp = w := by simp [Store.set_locals]
    have reached : run (wasm functions) operand fuel
        (.ofList (emitBinary .shl emitTagNumChecked x y)) ⟨[], s⟩ =
        run (wasm functions) operand fuel (.ofList [if_ [unreachable], localGet tmp,
          i64Const tagBits, i64 .shl, i64Const 0, i64 .or])
          ⟨[Op.ofBool (w != Builtin.untag (Builtin.tagNum w))], s.set tmp w⟩ := by
      simp only [emitBinary, emitTagNumChecked, List.append_assoc, List.cons_append,
        List.nil_append]
      rw [run_untagged, run_untagged, run_shl, run_localSet, run_localGet, run_localGet,
        run_i64Const, run_shl, run_i64Const, run_shrS, run_i64Rel]
      rw [show BitVec.ofInt 64 x.val <<< ((BitVec.ofInt 64 y.val).toNat % 64) = w from rfl, held]
      have order : RelOp.ne.eval w
          ((w <<< (tagBits.toNat % 64)).sshiftRight (tagBits.toNat % 64)) =
          (w != Builtin.untag (Builtin.tagNum w)) := rfl
      rw [order]
    have back := untag_tagNum_eq w
    rw [reached]
    cases fits : inPayload w.toInt with
    | true =>
        have same := back.mpr fits
        rw [same, bne_self_eq_false, run_if_false, run_localGet, held, run_i64Const, run_shl,
          run_i64Const, run_or, if_pos rfl, show (0 : I64) = 0#64 from rfl, BitVec.or_zero,
          ← tagNum_toInt]
        rfl
    | false =>
        have other : (w != Builtin.untag (Builtin.tagNum w)) = true := by
          rw [bne_iff_ne]
          intro same
          have := back.mp same.symm
          rw [fits] at this
          cases this
        rw [other]
        exact run_if_trap _
  rw [emitTaggedConst]
  cases fits : inPayload w.toInt with
  | true =>
      rw [if_pos rfl]
      intro s
      refine ⟨s.set tmp w, rfl, ?_⟩
      rw [both, fits, if_pos rfl]
  | false =>
      rw [if_neg Bool.false_ne_true]
      intro s
      rw [both, fits, if_neg Bool.false_ne_true]

theorem bnot_yields (x : Payload) :
    Yields functions fuel (expr x ++ emitUntag ++ [i64Const (-1), i64 .xor] ++ emitTagNum)
      (some (tagWord (~~~BitVec.ofInt 64 x.val).toInt)) := by
  intro s
  refine ⟨s, rfl, ?_⟩
  simp only [List.append_assoc, List.cons_append, List.nil_append]
  have flipped : BitVec.ofInt 64 x.val ^^^ (-1 : I64) = ~~~BitVec.ofInt 64 x.val := by
    rw [show (-1 : I64) = BitVec.allOnes 64 from rfl, BitVec.xor_allOnes]
  rw [run_untagged, run_i64Const, run_xor, flipped, Builtin.run_tagNum, tagNum_toInt]

theorem run_tagBool (b : Bool) :
    run (wasm functions) operand fuel (.ofList emitTagBool) ⟨Op.ofBool b :: stack, s⟩ =
      .next ⟨(Literal.bool b).word :: stack, s⟩ := by
  simp only [emitTagBool]
  rw [run_i64Const, run_shl, run_i64Const, run_or]
  cases b <;> rfl

theorem cmp_yields (op : RelOp) (x y : Payload) :
    Yields functions fuel (emitCmp op x y)
      (some (Literal.bool (op.eval (BitVec.ofInt 64 x.val) (BitVec.ofInt 64 y.val))).word) := by
  intro s
  refine ⟨s, rfl, ?_⟩
  simp only [emitCmp, List.append_assoc, List.cons_append, List.nil_append]
  rw [run_untagged, run_untagged, run_i64Rel, run_i64ExtendI32U, run_tagBool]

end Runs

/-! ### Equality -/

theorem toInt_tagWord (v : Payload) : (tagWord v.val).toInt = v.val * 8 :=
  toInt_ofInt_inI64 (inI64_shifted.trans v.property)

theorem tagWord_eq (x y : Payload) :
    RelOp.eq.eval (tagWord x.val) (tagWord y.val) = (x.val == y.val) := by
  rw [RelOp.eval, Bool.eq_iff_iff, beq_iff_eq, beq_iff_eq, ← BitVec.toInt_inj, toInt_tagWord,
    toInt_tagWord]
  omega

section Equality

variable {functions : Op.Functions} {fuel : Nat}

/-- The helper compares the words of numbers. -/
theorem valEq_numbers (h : ValEq) (x y : Payload) (m : LinearMemory) :
    h.call functions fuel [tagWord x.val, tagWord y.val] m =
      some (Op.ofBool (x.val == y.val), m) := by
  let s := ValEq.start (tagWord x.val) (tagWord y.val) m
  let t := (s.set (localIdx "tag_a") 0).set (localIdx "tag_b") 0
  have first : s.locals (.param 0) = tagWord x.val := rfl
  have second : (s.set (localIdx "tag_a") 0).locals (.param 1) = tagWord y.val := rfl
  have tagA : t.locals (localIdx "tag_a") = 0 := rfl
  have tagB : t.locals (localIdx "tag_b") = 0 := rfl
  have first' : t.locals (.param 0) = tagWord x.val := rfl
  have second' : t.locals (.param 1) = tagWord y.val := rfl
  have ran : run (wasm functions) Empty.elim fuel h.code ⟨[], s⟩ =
      .next ⟨[Op.ofBool (x.val == y.val)], t⟩ := by
    have inner : run (wasm functions) Empty.elim fuel (.ofList [localGet (.param 0), i64Const 7,
        i64 .and, localSet (localIdx "tag_a"), localGet (.param 1), i64Const 7, i64 .and,
        localSet (localIdx "tag_b"), localGet (localIdx "tag_a"), localGet (localIdx "tag_b"),
        i64Rel .ne, if_ [i64Const 0, br 1], localGet (localIdx "tag_a"), i64Const tagStr,
        i64Rel .eq, if_ h.texts, localGet (localIdx "tag_a"), i64Const tagArray, i64Rel .eq,
        if_ h.elements, localGet (.param 0), localGet (.param 1), i64Rel .eq, i64ExtendI32U])
        ⟨[], s⟩ = .next ⟨[Op.ofBool (x.val == y.val)], t⟩ := by
      rw [run_localGet, first, run_i64Const, run_and, tagWord_low, run_localSet, run_localGet,
        second, run_i64Const, run_and, tagWord_low, run_localSet]
      rw [show (s.set (localIdx "tag_a") 0).set (localIdx "tag_b") 0 = t from rfl, run_localGet,
        run_localGet, tagA, tagB, run_i64Rel, show RelOp.ne.eval 0 0 = false from rfl, run_if_false,
        run_localGet, tagA, run_i64Const, run_i64Rel, show RelOp.eq.eval 0 tagStr = false from rfl,
        run_if_false, run_localGet, tagA, run_i64Const, run_i64Rel,
        show RelOp.eq.eval 0 tagArray = false from rfl, run_if_false, run_localGet, first',
        run_localGet, second', run_i64Rel, tagWord_eq, run_i64ExtendI32U, run_nil]
    exact congrArg (Outcome.leave 1 []) inner
  rw [ValEq.call, ran]
  rfl

theorem run_call {f : String} {words : List I64} {w : I64} {s : Locals}
    (called : functions f words s.memory = some (w, s.memory)) (rest : Instructions Payload)
    (stack : List I64) :
    run (wasm functions) operand fuel (.ofList (.prim (.call f words.length) :: rest))
        ⟨words.reverse ++ stack, s⟩ =
      run (wasm functions) operand fuel (.ofList rest) ⟨w :: stack, s⟩ := by
  apply run_cons
  have takes : ((wasm functions).takes (.call f words.length)).length = words.reverse.length := by
    simp [wasm, Op.takes]
  rw [run, takes, if_pos (by simp), List.take_left, List.drop_left]
  simp only [wasm, Op.act, List.reverse_reverse, called]
  rfl

theorem eq_yields (h : ValEq) (numeric : Bool) (x y : Payload) :
    Yields (h.among functions fuel) fuel (emitEq numeric x y)
      (some (Literal.bool (x.val == y.val)).word) := by
  intro s
  refine ⟨s, rfl, ?_⟩
  cases numeric with
  | true =>
      simp only [emitEq, if_true, List.append_assoc, List.cons_append, List.nil_append]
      rw [run_operand, run_operand, run_i64Rel, run_i64ExtendI32U, tagWord_eq, run_tagBool]
  | false =>
      have called : h.among functions fuel "__h_val_eq" [tagWord x.val, tagWord y.val] s.memory =
          some (Op.ofBool (x.val == y.val), s.memory) := by
        rw [ValEq.among, if_pos rfl]
        exact valEq_numbers h x y s.memory
      simp only [emitEq, Bool.false_eq_true, if_false, List.append_assoc, List.cons_append,
        List.nil_append]
      rw [run_operand, run_operand]
      apply (run_call called emitTagBool []).trans
      rw [run_tagBool]

end Equality

end LispRlm.WasmEmit
