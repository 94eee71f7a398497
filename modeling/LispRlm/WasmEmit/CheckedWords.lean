import LispRlm.WasmEmit.IntegerOperators

/-! What the checked arithmetic of the emitter computes on words. -/

namespace LispRlm.WasmEmit

open Foundation Instruction

/-! ### Words -/

theorem toInt_ofInt_inI64 {n : Int} (fits : inI64 n = true) :
    (BitVec.ofInt 64 n).toInt = n := by
  simp only [inI64, Bool.and_eq_true, decide_eq_true_eq] at fits
  apply BitVec.toInt_ofInt_eq_self (by decide)
  · exact fits.1
  · exact fits.2

theorem inI64_shifted {n : Int} : inI64 (n * 8) = inPayload n := by
  have same : (-2 ^ 63 ≤ n * 8 ∧ n * 8 < 2 ^ 63) ↔ (-2 ^ 60 ≤ n ∧ n < 2 ^ 60) := by omega
  rw [Bool.eq_iff_iff]
  simpa only [inPayload, inI64, Bool.and_eq_true, decide_eq_true_eq] using same

/-- A word whose value is known up to a multiple of `2 ^ 64`. -/
theorem toInt_ofInt_cases (n : Int) : ∃ k : Int, (BitVec.ofInt 64 n).toInt = n + k * 2 ^ 64 ∧
    -2 ^ 63 ≤ n + k * 2 ^ 64 ∧ n + k * 2 ^ 64 < 2 ^ 63 := by
  have value : (BitVec.ofInt 64 n).toInt = n.bmod (2 ^ 64) := BitVec.toInt_ofInt n
  have whole := Int.emod_add_mul_ediv n (2 ^ 64)
  rw [value, Int.bmod_def]
  split
  · exact ⟨-(n / 2 ^ 64), by push_cast at *; omega, by push_cast at *; omega,
      by push_cast at *; omega⟩
  · exact ⟨-(n / 2 ^ 64) - 1, by push_cast at *; omega, by push_cast at *; omega,
      by push_cast at *; omega⟩

theorem slt_zero (w : I64) : RelOp.ltS.eval w 0 = decide (w.toInt < 0) := by
  simp [RelOp.eval, BitVec.slt]

theorem zero_sle (w : I64) : RelOp.geS.eval w 0 = !decide (w.toInt < 0) := by
  rw [Bool.eq_iff_iff]
  simp [RelOp.eval, BitVec.sle]

theorem xor_negative (a b : I64) :
    decide ((a ^^^ b).toInt < 0) = (decide (a.toInt < 0) ^^ decide (b.toInt < 0)) := by
  rw [← BitVec.msb_eq_toInt, ← BitVec.msb_eq_toInt, ← BitVec.msb_eq_toInt, BitVec.msb_xor]

theorem untag_tagWord (v : Payload) : Builtin.untag (tagWord v.val) = .ofInt 64 v.val := by
  apply BitVec.eq_of_toInt_eq
  have fits := v.property
  rw [← inI64_shifted] at fits
  rw [Builtin.untag, BitVec.toInt_sshiftRight, tagWord, toInt_ofInt_inI64 fits,
    toInt_ofInt_inI64 (inI64_of_inPayload v.property), Int.shiftRight_eq_div_pow]
  omega

theorem tagNum_ofInt (n : Int) : Builtin.tagNum (.ofInt 64 n) = tagWord n := by
  rw [Builtin.tagNum, tagWord, BitVec.ofInt_mul, BitVec.shiftLeft_eq_mul_twoPow]
  rfl

theorem ofInt_eq_zero {n : Int} (fits : inI64 n = true) :
    (BitVec.ofInt 64 n == 0) = decide (n = 0) := by
  rw [Bool.eq_iff_iff, beq_iff_eq, ← BitVec.toInt_inj, toInt_ofInt_inI64 fits, decide_eq_true_iff]
  rfl

/-! ### Stores -/

/-- The same memory, and the same locals but for these. -/
def Off (scratch : List LocalVar) (s t : Locals) : Prop :=
  t.memory = s.memory ∧ ∀ x ∉ scratch, t.locals x = s.locals x

namespace Off

theorem refl (scratch : List LocalVar) (s : Locals) : Off scratch s s := ⟨rfl, fun _ _ => rfl⟩

theorem trans {scratch : List LocalVar} {s t u : Locals} (first : Off scratch s t)
    (second : Off scratch t u) : Off scratch s u :=
  ⟨second.1.trans first.1, fun x out => (second.2 x out).trans (first.2 x out)⟩

theorem set {scratch : List LocalVar} {s t : Locals} (off : Off scratch s t) {x : LocalVar}
    (mem : x ∈ scratch) (w : I64) : Off scratch s (t.set x w) := by
  constructor
  · exact off.1
  · intro y out
    have other : y ≠ x := fun same => out (same ▸ mem)
    rw [Store.set_locals, if_neg other]
    exact off.2 y out

theorem mono {few many : List LocalVar} {s t : Locals} (off : Off few s t)
    (sub : ∀ x ∈ few, x ∈ many) : Off many s t :=
  ⟨off.1, fun x out => off.2 x fun mem => out (sub x mem)⟩

end Off

/-! ### Checked arithmetic -/

section Checked

variable {H : Type} {functions : Op.Functions}
  {fill : H → Locals → Answer LocalVar I64 LinearMemory} {fuel : Nat}

theorem run_if_stop (body rest : Instructions H) (stack : List I64) (s : Locals)
    (stops : run (wasm functions) fill fuel (.ofList body) ⟨[], s⟩ = .trap) :
    run (wasm functions) fill fuel (.ofList (if_ body :: rest)) ⟨Op.ofBool true :: stack, s⟩ =
      .trap := by
  have ran : run (wasm functions) fill fuel (if_ body) ⟨Op.ofBool true :: stack, s⟩ = .trap :=
    congrArg (Outcome.leave 0 stack) stops
  rw [Code.ofList]
  exact run_seq_stop _ _ ran (by intro c' same; cases same) _

/-- The overflow check of sums and differences: the signs of the operands, and then that of the
result. -/
theorem run_signCheck {a r : LocalVar} {signs : Bool} {s : Locals} (rest : Instructions H)
    (stack : List I64) :
    run (wasm functions) fill fuel (.ofList (if_ [localGet r, localGet a, i64 .xor, i64Const 0,
        i64Rel .ltS, if_ [unreachable]] :: rest)) ⟨Op.ofBool signs :: stack, s⟩ =
      if signs && (decide ((s.locals r).toInt < 0) ^^ decide ((s.locals a).toInt < 0)) then .trap
      else run (wasm functions) fill fuel (.ofList rest) ⟨stack, s⟩ := by
  have inner : run (wasm functions) fill fuel (.ofList [localGet r, localGet a, i64 .xor,
      i64Const 0, i64Rel .ltS, if_ [unreachable]]) ⟨[], s⟩ =
      if (decide ((s.locals r).toInt < 0) ^^ decide ((s.locals a).toInt < 0)) then .trap
      else .next ⟨[], s⟩ := by
    rw [run_localGet, run_localGet, run_xor, run_i64Const, run_i64Rel, slt_zero, xor_negative]
    generalize (decide ((s.locals r).toInt < 0) ^^ decide ((s.locals a).toInt < 0)) = flips
    cases flips with
    | true => exact run_if_trap []
    | false => exact run_if_false _ []
  generalize (decide ((s.locals r).toInt < 0) ^^ decide ((s.locals a).toInt < 0)) = flips at *
  cases signs with
  | false => exact run_if_false _ rest
  | true =>
      cases flips with
      | true => exact run_if_stop _ rest stack s inner
      | false => exact run_if_true inner rest

/-- The check finds the results that are not in range: operands of other signs have none, and with
the others the result has the wrong sign. -/
theorem signCheck_eq (x n : Int) (signs : Bool) (near : -2 ^ 64 ≤ n ∧ n < 2 ^ 64)
    (safe : signs = false → inI64 n = true) (sign : signs = true → (n < 0 ↔ x < 0)) :
    (signs && (decide ((BitVec.ofInt 64 n).toInt < 0) ^^ decide (x < 0))) = !inI64 n := by
  cases signs with
  | false => rw [safe rfl]; rfl
  | true =>
      obtain ⟨k, value, low, high⟩ := toInt_ofInt_cases n
      have same := sign rfl
      rw [value, Bool.eq_iff_iff]
      simp only [inI64, Bool.true_and, Bool.not_eq_true', Bool.and_eq_false_iff,
        decide_eq_false_iff_not, bne_iff_ne, ne_eq, decide_eq_decide]
      omega

/-- Sums and differences: the result is kept in a local, the check looks at the signs. -/
theorem run_signChecked {a b r : LocalVar} {scratch : List LocalVar} {op : BinOp} {rel : RelOp}
    {x y n : Int} {signs : Bool} (apart : a ≠ b ∧ a ≠ r ∧ b ≠ r)
    (listed : a ∈ scratch ∧ b ∈ scratch ∧ r ∈ scratch)
    (computes : ∀ (rest : Instructions H) (stack : List I64) (s : Locals),
      run (wasm functions) fill fuel (.ofList (i64 op :: rest))
          ⟨BitVec.ofInt 64 y :: BitVec.ofInt 64 x :: stack, s⟩ =
        run (wasm functions) fill fuel (.ofList rest) ⟨BitVec.ofInt 64 n :: stack, s⟩)
    (told : rel.eval (BitVec.ofInt 64 x ^^^ BitVec.ofInt 64 y) 0 = signs)
    (checked : (signs && (decide ((BitVec.ofInt 64 n).toInt < 0) ^^
      decide ((BitVec.ofInt 64 x).toInt < 0))) = !inI64 n)
    (rest : Instructions H) (stack : List I64) (s : Locals) :
    ∃ t, Off scratch s t ∧
      run (wasm functions) fill fuel (.ofList ([localSet b, localSet a, localGet a, localGet b,
          i64 op, localSet r, localGet a, localGet b, i64 .xor, i64Const 0, i64Rel rel,
          if_ [localGet r, localGet a, i64 .xor, i64Const 0, i64Rel .ltS, if_ [unreachable]],
          localGet r] ++ rest))
        ⟨BitVec.ofInt 64 y :: BitVec.ofInt 64 x :: stack, s⟩ =
        if inI64 n then
          run (wasm functions) fill fuel (.ofList rest) ⟨BitVec.ofInt 64 n :: stack, t⟩
        else .trap := by
  obtain ⟨ab, ar, br⟩ := apart
  let held := (s.set b (.ofInt 64 y)).set a (.ofInt 64 x)
  let t := held.set r (.ofInt 64 n)
  have before : held.locals b = .ofInt 64 y := by simp [held, Store.set_locals, ab.symm]
  have before' : held.locals a = .ofInt 64 x := by simp [held, Store.set_locals]
  have heldA : t.locals a = .ofInt 64 x := by simp [t, Store.set_locals, ar, before']
  have heldB : t.locals b = .ofInt 64 y := by simp [t, Store.set_locals, br, before]
  have heldR : t.locals r = .ofInt 64 n := by simp [t, Store.set_locals]
  refine ⟨t, (((Off.refl _ s).set listed.2.1 _).set listed.1 _).set listed.2.2 _, ?_⟩
  simp only [List.cons_append, List.nil_append]
  rw [run_localSet, run_localSet, run_localGet, run_localGet, before, before', computes,
    run_localSet, run_localGet, run_localGet, heldA, heldB, run_xor, run_i64Const, run_i64Rel,
    told, run_signCheck, run_localGet, heldA, heldR, checked]
  cases inI64 n <;> rfl

theorem run_checkedAdd {x y : Int} (fitsX : inI64 x = true) (fitsY : inI64 y = true)
    (rest : Instructions H) (stack : List I64) (s : Locals) :
    ∃ t, Off Arith.add.scratch s t ∧
      run (wasm functions) fill fuel (.ofList (emitCheckedAdd ++ rest))
        ⟨BitVec.ofInt 64 y :: BitVec.ofInt 64 x :: stack, s⟩ =
        if inI64 (x + y) then
          run (wasm functions) fill fuel (.ofList rest) ⟨BitVec.ofInt 64 (x + y) :: stack, t⟩
        else .trap := by
  have sum : BitVec.ofInt 64 x + BitVec.ofInt 64 y = BitVec.ofInt 64 (x + y) :=
    (BitVec.ofInt_add x y).symm
  have signs : RelOp.geS.eval (BitVec.ofInt 64 x ^^^ BitVec.ofInt 64 y) 0 =
      !(decide (x < 0) ^^ decide (y < 0)) := by
    rw [zero_sle, xor_negative, toInt_ofInt_inI64 fitsX, toInt_ofInt_inI64 fitsY]
  have kept := toInt_ofInt_inI64 fitsX
  simp only [inI64, Bool.and_eq_true, decide_eq_true_eq] at fitsX fitsY
  have checked := signCheck_eq x (x + y) (!(decide (x < 0) ^^ decide (y < 0))) (by omega)
    (by
      by_cases x < 0 <;> by_cases y < 0 <;> simp [*, inI64]
      all_goals omega)
    (by
      by_cases x < 0 <;> by_cases y < 0 <;> simp [*]
      all_goals omega)
  refine run_signChecked ?_ ?_ ?_ signs ?_ rest stack s
  · simp [localIdx]
  · simp [Arith.scratch]
  · intro rest stack s
    rw [run_add, sum]
  · rw [kept]
    exact checked

theorem run_checkedSub {x y : Int} (fitsX : inI64 x = true) (fitsY : inI64 y = true)
    (rest : Instructions H) (stack : List I64) (s : Locals) :
    ∃ t, Off Arith.sub.scratch s t ∧
      run (wasm functions) fill fuel (.ofList (emitCheckedSub ++ rest))
        ⟨BitVec.ofInt 64 y :: BitVec.ofInt 64 x :: stack, s⟩ =
        if inI64 (x - y) then
          run (wasm functions) fill fuel (.ofList rest) ⟨BitVec.ofInt 64 (x - y) :: stack, t⟩
        else .trap := by
  have difference : BitVec.ofInt 64 x - BitVec.ofInt 64 y = BitVec.ofInt 64 (x - y) := by
    rw [sub_eq_add_neg x y, BitVec.ofInt_add, BitVec.ofInt_neg, BitVec.sub_eq_add_neg]
  have signs : RelOp.ltS.eval (BitVec.ofInt 64 x ^^^ BitVec.ofInt 64 y) 0 =
      (decide (x < 0) ^^ decide (y < 0)) := by
    rw [slt_zero, xor_negative, toInt_ofInt_inI64 fitsX, toInt_ofInt_inI64 fitsY]
  have kept := toInt_ofInt_inI64 fitsX
  simp only [inI64, Bool.and_eq_true, decide_eq_true_eq] at fitsX fitsY
  have checked := signCheck_eq x (x - y) (decide (x < 0) ^^ decide (y < 0)) (by omega)
    (by
      by_cases x < 0 <;> by_cases y < 0 <;> simp [*, inI64]
      all_goals omega)
    (by
      by_cases x < 0 <;> by_cases y < 0 <;> simp [*]
      all_goals omega)
  refine run_signChecked ?_ ?_ ?_ signs ?_ rest stack s
  · simp [localIdx]
  · simp [Arith.scratch]
  · intro rest stack s
    rw [run_sub, difference]
  · rw [kept]
    exact checked

/-- A quotient that gives the first factor back shows that the product did not wrap. -/
theorem tdiv_wrapped {x y : Int} (fitsX : inI64 x = true) (fitsY : inI64 y = true) (nonzero : y ≠ 0)
    (notMinus : y ≠ -1) :
    (BitVec.ofInt 64 (x * y)).sdiv (BitVec.ofInt 64 y) = BitVec.ofInt 64 x ↔
      inI64 (x * y) = true := by
  obtain ⟨k, value, low, high⟩ := toInt_ofInt_cases (x * y)
  have quotient : ((BitVec.ofInt 64 (x * y)).sdiv (BitVec.ofInt 64 y)).toInt =
      (x * y + k * 2 ^ 64).tdiv y := by
    rw [BitVec.toInt_sdiv_of_ne_or_ne, value, toInt_ofInt_inI64 fitsY]
    right
    intro same
    apply notMinus
    rw [← toInt_ofInt_inI64 fitsY, same]
    rfl
  have rest := Int.mul_tdiv_add_tmod (x * y + k * 2 ^ 64) y
  have small : ((x * y + k * 2 ^ 64).tmod y).natAbs < y.natAbs := by
    rw [Int.natAbs_tmod]
    exact Nat.mod_lt _ (by omega)
  simp only [inI64, Bool.and_eq_true, decide_eq_true_eq] at fitsY
  constructor
  · intro same
    have back : (x * y + k * 2 ^ 64).tdiv y = x := by
      rw [← quotient, same, toInt_ofInt_inI64 fitsX]
    rw [back, mul_comm y x] at rest
    have none_ : k = 0 := by omega
    subst none_
    simp only [inI64, Bool.and_eq_true, decide_eq_true_eq]
    omega
  · intro fits
    apply BitVec.eq_of_toInt_eq
    have exactly := toInt_ofInt_inI64 fits
    rw [quotient, ← value, exactly, toInt_ofInt_inI64 fitsX, Int.mul_tdiv_cancel x nonzero]

theorem run_ifElseI64_stop {b : Bool} {thenBody elseBody rest : Instructions H} {s : Locals}
    {stack : List I64}
    (stops : run (wasm functions) fill fuel (.ofList (if b then thenBody else elseBody)) ⟨[], s⟩ =
      .trap) :
    run (wasm functions) fill fuel (.ofList (ifElseI64 thenBody elseBody :: rest))
      ⟨Op.ofBool b :: stack, s⟩ = .trap := by
  have ran : run (wasm functions) fill fuel (ifElseI64 thenBody elseBody)
      ⟨Op.ofBool b :: stack, s⟩ = .trap := by
    cases b with
    | true => exact congrArg (Outcome.leave 1 stack) stops
    | false => exact congrArg (Outcome.leave 1 stack) stops
  rw [Code.ofList]
  exact run_seq_stop _ _ ran (by intro c' same; cases same) _

theorem run_ifElse {b : Bool} {thenBody elseBody : Instructions H} {s s' : Locals}
    {stack : List I64}
    (ran : run (wasm functions) fill fuel (.ofList (if b then thenBody else elseBody)) ⟨[], s⟩ =
      .next ⟨[], s'⟩) (rest : Instructions H) :
    run (wasm functions) fill fuel (.ofList (ifElse thenBody elseBody :: rest))
      ⟨Op.ofBool b :: stack, s⟩ =
      run (wasm functions) fill fuel (.ofList rest) ⟨stack, s'⟩ := by
  apply run_cons
  cases b with
  | true => exact congrArg (Outcome.leave 0 stack) ran
  | false => exact congrArg (Outcome.leave 0 stack) ran

theorem run_ifElse_stop {b : Bool} {thenBody elseBody rest : Instructions H} {s : Locals}
    {stack : List I64}
    (stops : run (wasm functions) fill fuel (.ofList (if b then thenBody else elseBody)) ⟨[], s⟩ =
      .trap) :
    run (wasm functions) fill fuel (.ofList (ifElse thenBody elseBody :: rest))
      ⟨Op.ofBool b :: stack, s⟩ = .trap := by
  have ran : run (wasm functions) fill fuel (ifElse thenBody elseBody)
      ⟨Op.ofBool b :: stack, s⟩ = .trap := by
    cases b with
    | true => exact congrArg (Outcome.leave 0 stack) stops
    | false => exact congrArg (Outcome.leave 0 stack) stops
  rw [Code.ofList]
  exact run_seq_stop _ _ ran (by intro c' same; cases same) _

/-- The check of a product whose factors are in `a` and `b` and not zero, the wrapped product in
`r`. -/
theorem run_quotientCheck {a b r : LocalVar} {x y : Int} (fitsX : inI64 x = true)
    (fitsY : inI64 y = true) (nonzero : y ≠ 0) {s : Locals} (heldA : s.locals a = .ofInt 64 x)
    (heldB : s.locals b = .ofInt 64 y) (heldR : s.locals r = .ofInt 64 (x * y)) :
    run (wasm functions) fill fuel (.ofList [localGet b, i64Const (-1), i64Rel .eq,
        ifElse [localGet a, i64Const (BitVec.intMin 64), i64Rel .eq, if_ [unreachable]]
          [localGet r, localGet b, i64 .divS, localGet a, i64Rel .ne, if_ [unreachable]],
        localGet r]) ⟨[], s⟩ =
      if inI64 (x * y) then .next ⟨[BitVec.ofInt 64 (x * y)], s⟩ else .trap := by
  have checked : run (wasm functions) fill fuel (.ofList
      (if (BitVec.ofInt 64 y == (-1 : I64)) = true then
          [localGet a, i64Const (BitVec.intMin 64), i64Rel .eq, if_ [unreachable]]
        else [localGet r, localGet b, i64 .divS, localGet a, i64Rel .ne, if_ [unreachable]]))
      ⟨[], s⟩ = if inI64 (x * y) then .next ⟨[], s⟩ else .trap := by
    by_cases minus : y = -1
    · have isMinus : (BitVec.ofInt 64 y == (-1 : I64)) = true := by
        rw [minus]
        rfl
      have least : (BitVec.ofInt 64 x == BitVec.intMin 64) = !inI64 (x * y) := by
        rw [Bool.eq_iff_iff, beq_iff_eq, ← BitVec.toInt_inj, toInt_ofInt_inI64 fitsX]
        rw [show (BitVec.intMin 64).toInt = -2 ^ 63 from by decide]
        simp only [inI64, Bool.and_eq_true, decide_eq_true_eq] at fitsX
        simp only [inI64, minus, Bool.not_eq_true', Bool.and_eq_false_iff,
          decide_eq_false_iff_not]
        omega
      rw [if_pos isMinus, run_localGet, heldA, run_i64Const, run_i64Rel,
        show RelOp.eq.eval (BitVec.ofInt 64 x) (BitVec.intMin 64) =
          (BitVec.ofInt 64 x == BitVec.intMin 64) from rfl, least]
      cases inI64 (x * y) with
      | true => exact run_if_false _ []
      | false => exact run_if_trap []
    · have notMinus : (BitVec.ofInt 64 y == (-1 : I64)) = false := by
        rw [beq_eq_false_iff_ne, ne_eq, ← BitVec.toInt_inj, toInt_ofInt_inI64 fitsY]
        exact minus
      have divided : BinOp.divS.eval (BitVec.ofInt 64 (x * y)) (BitVec.ofInt 64 y) =
          some ((BitVec.ofInt 64 (x * y)).sdiv (BitVec.ofInt 64 y)) := by
        have zero : BitVec.ofInt 64 y ≠ 0 := by
          intro same
          apply nonzero
          rw [← toInt_ofInt_inI64 fitsY, same]
          rfl
        rw [BinOp.eval, if_neg]
        rintro (same | ⟨_, same⟩)
        · exact zero same
        · rw [same] at notMinus
          cases notMinus
      have differs : RelOp.ne.eval ((BitVec.ofInt 64 (x * y)).sdiv (BitVec.ofInt 64 y))
          (BitVec.ofInt 64 x) = !inI64 (x * y) := by
        have back := tdiv_wrapped fitsX fitsY nonzero minus
        rw [RelOp.eval, Bool.eq_iff_iff, bne_iff_ne, ne_eq, back]
        simp
      rw [notMinus, if_neg Bool.false_ne_true, run_localGet, heldR, run_localGet, heldB,
        run_i64 divided, run_localGet, heldA, run_i64Rel, differs]
      cases inI64 (x * y) with
      | true => exact run_if_false _ []
      | false => exact run_if_trap []
  rw [run_localGet, heldB, run_i64Const, run_i64Rel,
    show RelOp.eq.eval (BitVec.ofInt 64 y) (-1) = (BitVec.ofInt 64 y == (-1 : I64)) from rfl]
  cases fits : inI64 (x * y) with
  | true =>
      rw [fits, if_pos rfl] at checked
      rw [run_ifElse checked, run_localGet, heldR]
      rfl
  | false =>
      rw [fits, if_neg Bool.false_ne_true] at checked
      exact run_ifElse_stop checked

theorem run_checkedMul {x y : Int} (fitsX : inI64 x = true) (fitsY : inI64 y = true)
    (rest : Instructions H) (stack : List I64) (s : Locals) :
    ∃ t, Off Arith.mul.scratch s t ∧
      run (wasm functions) fill fuel (.ofList (emitCheckedMul ++ rest))
        ⟨BitVec.ofInt 64 y :: BitVec.ofInt 64 x :: stack, s⟩ =
        if inI64 (x * y) then
          run (wasm functions) fill fuel (.ofList rest) ⟨BitVec.ofInt 64 (x * y) :: stack, t⟩
        else .trap := by
  let a := localIdx "__ck_mul_a"
  let b := localIdx "__ck_mul_b"
  let r := localIdx "__ck_mul_r"
  let t := (s.set b (.ofInt 64 y)).set a (.ofInt 64 x)
  have heldA : t.locals a = .ofInt 64 x := by simp [t, Store.set_locals]
  have heldB : t.locals b = .ofInt 64 y := by simp [t, a, b, localIdx, Store.set_locals]
  have off : Off Arith.mul.scratch s t := ((Off.refl _ s).set (by simp [Arith.scratch, b]) _).set
    (by simp [Arith.scratch, a]) _
  simp only [emitCheckedMul, List.cons_append, List.nil_append]
  rw [run_localSet, run_localSet, run_localGet, run_i64Eqz]
  rw [show ((s.set (localIdx "__ck_mul_b") (.ofInt 64 y)).set (localIdx "__ck_mul_a")
    (.ofInt 64 x)) = t from rfl, heldA, ofInt_eq_zero fitsX]
  by_cases isZero : x = 0
  · have nothing : x * y = 0 := by rw [isZero, zero_mul]
    have fits : inI64 (x * y) = true := by rw [nothing]; rfl
    refine ⟨t, off, ?_⟩
    rw [fits, if_pos rfl, nothing, isZero]
    exact run_ifElseI64 rfl rest
  · rw [decide_eq_false isZero]
    by_cases isZero' : y = 0
    · have nothing : x * y = 0 := by rw [isZero', mul_zero]
      have fits : inI64 (x * y) = true := by rw [nothing]; rfl
      refine ⟨t, off, ?_⟩
      rw [fits, if_pos rfl, nothing]
      apply run_ifElseI64
      rw [if_neg Bool.false_ne_true, run_localGet, run_i64Eqz, heldB, ofInt_eq_zero fitsY,
        decide_eq_true isZero']
      exact run_ifElseI64 rfl []
    · let u := t.set r (.ofInt 64 (x * y))
      have product : BitVec.ofInt 64 x * BitVec.ofInt 64 y = BitVec.ofInt 64 (x * y) :=
        (BitVec.ofInt_mul x y).symm
      have inner : run (wasm functions) fill fuel (.ofList [localGet a, localGet b, i64 .mul,
          localSet r, localGet b, i64Const (-1), i64Rel .eq,
          ifElse [localGet a, i64Const (BitVec.intMin 64), i64Rel .eq, if_ [unreachable]]
            [localGet r, localGet b, i64 .divS, localGet a, i64Rel .ne, if_ [unreachable]],
          localGet r]) ⟨[], t⟩ =
          if inI64 (x * y) then .next ⟨[BitVec.ofInt 64 (x * y)], u⟩ else .trap := by
        rw [run_localGet, heldA, run_localGet, heldB, run_mul, product, run_localSet]
        exact run_quotientCheck fitsX fitsY isZero'
          (by simp [t, a, b, r, localIdx, Store.set_locals])
          (by simp [t, a, b, r, localIdx, Store.set_locals]) (by simp [Store.set_locals])
      refine ⟨u, off.set (by simp [Arith.scratch, r]) _, ?_⟩
      cases fits : inI64 (x * y) with
      | true =>
          rw [fits, if_pos rfl] at inner
          rw [if_pos rfl]
          apply run_ifElseI64
          rw [if_neg Bool.false_ne_true, run_localGet, run_i64Eqz, heldB, ofInt_eq_zero fitsY,
            decide_eq_false isZero']
          exact run_ifElseI64 inner []
      | false =>
          rw [fits, if_neg Bool.false_ne_true] at inner
          rw [if_neg Bool.false_ne_true]
          apply run_ifElseI64_stop
          rw [if_neg Bool.false_ne_true, run_localGet, run_i64Eqz, heldB, ofInt_eq_zero fitsY,
            decide_eq_false isZero']
          exact run_ifElseI64_stop inner

/-- Checked arithmetic on words in range. -/
theorem run_emitChecked (op : Arith) {x y : Int} (fitsX : inI64 x = true) (fitsY : inI64 y = true)
    (rest : Instructions H) (stack : List I64) (s : Locals) :
    ∃ t, Off op.scratch s t ∧
      run (wasm functions) fill fuel (.ofList (op.emitChecked ++ rest))
        ⟨BitVec.ofInt 64 y :: BitVec.ofInt 64 x :: stack, s⟩ =
        if inI64 (op.apply x y) then
          run (wasm functions) fill fuel (.ofList rest)
            ⟨BitVec.ofInt 64 (op.apply x y) :: stack, t⟩
        else .trap := by
  cases op with
  | add => exact run_checkedAdd fitsX fitsY rest stack s
  | sub => exact run_checkedSub fitsX fitsY rest stack s
  | mul => exact run_checkedMul fitsX fitsY rest stack s

/-- A product is tagged again where it fits. -/
theorem run_checkedRetag (n : Wide) (rest : Instructions H) (stack : List I64) (s : Locals) :
    ∃ t, Off [localIdx "__ck_retag_r"] s t ∧
      run (wasm functions) fill fuel (.ofList (emitCheckedRetag ++ rest))
        ⟨BitVec.ofInt 64 n.val :: stack, s⟩ =
        if inPayload n.val then
          run (wasm functions) fill fuel (.ofList rest) ⟨tagWord n.val :: stack, t⟩
        else .trap := by
  let r := localIdx "__ck_retag_r"
  let t := s.set r (.ofInt 64 n.val)
  have heldR : t.locals r = .ofInt 64 n.val := by simp [t, Store.set_locals]
  refine ⟨t, (Off.refl _ s).set (by simp [r]) _, ?_⟩
  have value := toInt_ofInt_inI64 n.property
  have below : RelOp.ltS.eval (BitVec.ofInt 64 n.val) (-(1 <<< 60)) = decide (n.val < -2 ^ 60) := by
    rw [RelOp.eval, BitVec.slt, value]
    rfl
  have above : RelOp.gtS.eval (BitVec.ofInt 64 n.val) ((1 <<< 60) - 1) =
      decide (2 ^ 60 - 1 < n.val) := by
    rw [RelOp.eval, BitVec.slt, value]
    rfl
  simp only [emitCheckedRetag, List.cons_append, List.nil_append]
  rw [run_localSet, run_localGet]
  rw [show s.set (localIdx "__ck_retag_r") (.ofInt 64 n.val) = t from rfl, heldR, run_i64Const,
    run_i64Rel, below]
  by_cases low : n.val < -2 ^ 60
  · have outside : inPayload n.val = false := by
      simp only [inPayload, Bool.and_eq_false_iff, decide_eq_false_iff_not]
      omega
    rw [outside, decide_eq_true low]
    exact run_if_trap _
  · rw [decide_eq_false low, run_if_false, run_localGet, heldR, run_i64Const, run_i64Rel, above]
    by_cases high : 2 ^ 60 - 1 < n.val
    · have outside : inPayload n.val = false := by
        simp only [inPayload, Bool.and_eq_false_iff, decide_eq_false_iff_not]
        omega
      rw [outside, decide_eq_true high]
      exact run_if_trap _
    · have inside : inPayload n.val = true := by
        simp only [inPayload, Bool.and_eq_true, decide_eq_true_eq]
        omega
      rw [inside, decide_eq_false high, run_if_false, run_localGet, heldR, run_i64Const, run_shl,
        if_pos rfl, ← tagNum_ofInt]
      rfl

end Checked

end LispRlm.WasmEmit
