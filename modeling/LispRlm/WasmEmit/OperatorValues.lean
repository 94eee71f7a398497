import LispRlm.WasmEmit.Operators
import Mathlib.Data.BitVec

/-! What the forms compute from the values of their operands. -/

namespace LispRlm.WasmEmit

open Foundation Instruction

namespace Builtin

def untag (w : I64) : I64 := w.sshiftRight 3
def tagNum (w : I64) : I64 := w <<< 3

/-- With values in the place of its operands, the form's code leaves a value and no memory
changed. -/
def Computes {functions : Op.Functions} (op : Builtin functions) (fuel : Nat)
    (words : Fin op.arity → I64) (w : I64) : Prop :=
  ∀ s, ∃ t : Locals, t.memory = s.memory ∧
    run (wasm functions) (fun i s => .value (words i) s) fuel op.code ⟨[], s⟩ = .next ⟨[w], t⟩

variable {functions : Op.Functions} {fuel : Nat} {stack : List I64} {s : Locals}

@[simp] theorem run_expr {n : Nat} (words : Fin n → I64) (i : Fin n) (rest : Instructions (Fin n)) :
    run (wasm functions) (fun i s => .value (words i) s) fuel (.ofList (expr i ++ rest))
        ⟨stack, s⟩ =
      run (wasm functions) (fun i s => .value (words i) s) fuel (.ofList rest)
        ⟨words i :: stack, s⟩ := rfl

variable {H : Type} {fill : H → Locals → Answer LocalVar I64 LinearMemory}

@[simp] theorem run_untag (w : I64) (rest : Instructions H) :
    run (wasm functions) fill fuel (.ofList (emitUntag ++ rest)) ⟨w :: stack, s⟩ =
      run (wasm functions) fill fuel (.ofList rest) ⟨untag w :: stack, s⟩ := by
  simp only [emitUntag, List.cons_append, List.nil_append, run_i64Const, run_shrS]
  rfl

@[simp] theorem run_tagNum (w : I64) :
    run (wasm functions) fill fuel (.ofList emitTagNum) ⟨w :: stack, s⟩ =
      .next ⟨tagNum w :: stack, s⟩ := by
  simp only [emitTagNum, run_i64Const, run_shl, run_nil]
  rfl

theorem abs_computes (words : Fin 1 → I64) :
    Computes (abs functions) fuel words
      (tagNum (if (untag (words 0)).slt 0 then -untag (words 0) else untag (words 0))) := by
  intro s
  have chosen : ∀ (x : I64) (s : Locals), s.locals (localIdx "__abs_tmp") = x →
      run (wasm functions) (fun i s => .value (words i) s) fuel
        (.ofList (if x.slt 0 then
            [i64Const 0, localGet (localIdx "__abs_tmp"), i64 .sub]
          else [localGet (localIdx "__abs_tmp")])) ⟨[], s⟩ =
        .next ⟨[if x.slt 0 then -x else x], s⟩ := by
    intro x s held
    cases x.slt 0 with
    | true =>
        simp only [if_true, run_i64Const, run_localGet, run_sub, run_nil, held]
        rw [zero_sub]
    | false => simp [held]
  refine ⟨s.set (localIdx "__abs_tmp") (untag (words 0)), rfl, ?_⟩
  simp only [abs, List.append_assoc, run_expr, List.cons_append, List.nil_append, run_i64Const,
    run_shrS, run_localTee, run_i64Rel]
  have shifted : (words 0).sshiftRight ((3 : I64).toNat % 64) = untag (words 0) := rfl
  rw [shifted, show RelOp.ltS.eval (untag (words 0)) 0 = (untag (words 0)).slt 0 from rfl,
    run_ifElseI64 (chosen (untag (words 0)) _ (by simp [Store.set_locals])), run_tagNum]

/-- One round of `max` or `min`. -/
def extremumRound {more : Nat} (a b : String) (cmp : RelOp) (i : Fin more) :
    Instructions (Fin (more + 1)) :=
  [localSet (localIdx a)] ++ expr i.succ ++ emitUntag ++
    [localSet (localIdx b), localGet (localIdx a), localGet (localIdx b), i64Rel cmp,
      ifElseI64 [localGet (localIdx a)] [localGet (localIdx b)]]

theorem extremum_round (functions : Op.Functions) (fuel : Nat) {n : Nat} {a b : String}
    {cmp : RelOp} (apart : a ≠ b)
    (words : Fin (n + 1) → I64) (i : Fin n) (best : I64) (s : Locals)
    (rest : Instructions (Fin (n + 1))) :
    ∃ t : Locals, t.memory = s.memory ∧
      run (wasm functions) (fun i s => .value (words i) s) fuel
        (.ofList (extremumRound a b cmp i ++ rest)) ⟨[best], s⟩ =
        run (wasm functions) (fun i s => .value (words i) s) fuel (.ofList rest)
          ⟨[if cmp.eval best (untag (words i.succ)) then best else untag (words i.succ)], t⟩ := by
  let t := (s.set (localIdx a) best).set (localIdx b) (untag (words i.succ))
  have first : t.locals (localIdx a) = best := by
    simp [t, Store.set_locals, localIdx, apart]
  have second : t.locals (localIdx b) = untag (words i.succ) := by
    simp [t, Store.set_locals]
  have chosen : run (wasm functions) (fun i s => .value (words i) s) fuel
      (.ofList (if cmp.eval best (untag (words i.succ)) then [localGet (localIdx a)]
        else [localGet (localIdx b)])) ⟨[], t⟩ =
      .next ⟨[if cmp.eval best (untag (words i.succ)) then best else untag (words i.succ)], t⟩ := by
    cases cmp.eval best (untag (words i.succ)) with
    | true => simp [first]
    | false => simp [second]
  refine ⟨t, rfl, ?_⟩
  simp only [extremumRound, List.append_assoc, List.cons_append, List.nil_append, run_localSet,
    run_expr, run_untag, run_localGet, run_i64Rel]
  rw [show ((s.set (localIdx a) best).set (localIdx b) (untag (words i.succ))) = t from rfl, first,
    second, run_ifElseI64 chosen]

theorem extremum_computes {a b : String} {cmp : RelOp} (more : Nat) (apart : a ≠ b)
    (words : Fin (more + 2) → I64) :
    Computes (extremum functions a b cmp (more + 1)) fuel words
      (tagNum ((List.finRange (more + 1)).foldl
        (fun best i => if cmp.eval best (untag (words i.succ)) then best
          else untag (words i.succ)) (untag (words 0)))) := by
  intro s
  have rounds : ∀ (is : List (Fin (more + 1))) (best : I64) (s : Locals), ∃ t : Locals,
      t.memory = s.memory ∧
      run (wasm functions) (fun i s => .value (words i) s) fuel
        (.ofList (is.flatMap (extremumRound a b cmp) ++ emitTagNum)) ⟨[best], s⟩ =
        .next ⟨[tagNum (is.foldl (fun best i => if cmp.eval best (untag (words i.succ)) then best
            else untag (words i.succ)) best)], t⟩ := by
    intro is
    induction is with
    | nil =>
        intro best s
        exact ⟨s, rfl, run_tagNum best⟩
    | cons i rest ih =>
        intro best s
        obtain ⟨middle, kept, ran⟩ := extremum_round functions fuel apart words i best s
          ((rest.flatMap (extremumRound a b cmp)) ++ emitTagNum)
        obtain ⟨t, same, last⟩ := ih (if cmp.eval best (untag (words i.succ)) then best
            else untag (words i.succ)) middle
        refine ⟨t, same.trans kept, ?_⟩
        rw [List.flatMap_cons, List.append_assoc, ran, last, List.foldl_cons]
  obtain ⟨t, kept, ran⟩ := rounds (List.finRange (more + 1)) (untag (words 0)) s
  refine ⟨t, kept, ?_⟩
  have started : run (wasm functions) (fun i s => .value (words i) s) fuel
      (.ofList (expr 0 ++ (emitUntag ++
        ((List.finRange (more + 1)).flatMap (extremumRound a b cmp) ++ emitTagNum)))) ⟨[], s⟩ =
      .next ⟨[tagNum ((List.finRange (more + 1)).foldl
        (fun best i => if cmp.eval best (untag (words i.succ)) then best
          else untag (words i.succ)) (untag (words 0)))], t⟩ := by
    rw [run_expr, run_untag, ran]
  simp only [extremum, if_neg (Nat.succ_ne_zero more), List.append_assoc]
  exact started

/-- What `expt` has computed once the loop is through. -/
def exptRest (s : Locals) : I64 :=
  s.locals (localIdx "__expt_r") * s.locals (localIdx "__expt_b") ^
    (s.locals (localIdx "__expt_e")).toNat

theorem exptTurn_done {n : Nat} {fill : Fin n → Locals → Answer LocalVar I64 LinearMemory}
    (done : s.locals (localIdx "__expt_e") = 0) :
    run (wasm functions) fill fuel (.ofList exptTurn) ⟨[], s⟩ = .branch 1 ⟨[], s⟩ := by
  simp only [exptTurn, run_localGet, run_i64Eqz, done]
  rfl

theorem lowBit (e : I64) :
    ((e &&& 1).setWidth 32).setWidth 64 = Op.ofBool (e.toNat % 2 == 1) := by
  apply BitVec.eq_of_toNat_eq
  have bit : e.toNat &&& 1 = e.toNat % 2 := Nat.and_one_is_mod e.toNat
  have low : e.toNat % 2 < 2 := Nat.mod_lt _ (by decide)
  simp only [BitVec.toNat_setWidth, BitVec.toNat_and]
  rw [show (1 : I64).toNat = 1 from rfl, bit]
  cases parity : e.toNat % 2 == 1 with
  | true =>
      rw [beq_iff_eq.mp parity]
      rfl
  | false =>
      have even : e.toNat % 2 = 0 := by
        have := beq_eq_false_iff_ne.mp parity
        omega
      rw [even]
      rfl

/-- Squaring the base halves the exponent. -/
theorem mul_pow_halved (r b : I64) (e : Nat) :
    (if e % 2 == 1 then r * b else r) * (b * b) ^ (e / 2) = r * b ^ e := by
  have split : b ^ e = b ^ (e % 2) * (b * b) ^ (e / 2) := by
    rw [← pow_two, ← pow_mul, ← pow_add, Nat.mod_add_div]
  rw [split, ← mul_assoc]
  rcases Nat.mod_two_eq_zero_or_one e with even | odd
  · rw [even, pow_zero, mul_one]
    rfl
  · rw [odd, pow_one]
    rfl

theorem exptTurn_more (functions : Op.Functions) (fuel : Nat) {n : Nat}
    (fill : Fin n → Locals → Answer LocalVar I64 LinearMemory)
    (more : s.locals (localIdx "__expt_e") ≠ 0) :
    ∃ t : Locals, t.memory = s.memory ∧ exptRest t = exptRest s ∧
      (t.locals (localIdx "__expt_e")).toNat = (s.locals (localIdx "__expt_e")).toNat / 2 ∧
      run (wasm functions) fill fuel (.ofList exptTurn) ⟨[], s⟩ = .branch 0 ⟨[], t⟩ := by
  let b := s.locals (localIdx "__expt_b")
  let e := s.locals (localIdx "__expt_e")
  let r := s.locals (localIdx "__expt_r")
  let odd := e.toNat % 2 == 1
  let multiplied := if odd then s.set (localIdx "__expt_r") (r * b) else s
  let t := (multiplied.set (localIdx "__expt_b") (b * b)).set (localIdx "__expt_e") (e >>> 1)
  have base : multiplied.locals (localIdx "__expt_b") = b := by
    cases h : odd <;> simp [multiplied, h, Store.set_locals, localIdx, b]
  have exponent : multiplied.locals (localIdx "__expt_e") = e := by
    cases h : odd <;> simp [multiplied, h, Store.set_locals, localIdx, e]
  have result : multiplied.locals (localIdx "__expt_r") = if odd then r * b else r := by
    cases h : odd <;> simp [multiplied, h, Store.set_locals, r]
  have nonzero : (e == 0) = false := by simpa using more
  refine ⟨t, ?_, ?_, ?_, ?_⟩
  · cases h : odd <;> simp [t, multiplied, h]
  · have halved : (e >>> 1).toNat = e.toNat / 2 := by
      rw [BitVec.toNat_ushiftRight, Nat.shiftRight_one]
    have power := mul_pow_halved r b e.toNat
    have lookedE : t.locals (localIdx "__expt_e") = e >>> 1 := by
      simp [t, Store.set_locals]
    have lookedB : t.locals (localIdx "__expt_b") = b * b := by
      simp [t, Store.set_locals, localIdx]
    have lookedR : t.locals (localIdx "__expt_r") = if odd then r * b else r := by
      simp only [t, Store.set_locals, localIdx]
      exact result
    rw [exptRest, lookedE, lookedB, lookedR, halved]
    exact power
  · simp [t, Store.set_locals, e, Nat.shiftRight_one]
  · have chosen : run (wasm functions) fill fuel
        (.ofList (if_ [localGet (localIdx "__expt_r"), localGet (localIdx "__expt_b"), i64 .mul,
          localSet (localIdx "__expt_r")] :: exptTurn.drop 8)) ⟨[Op.ofBool odd], s⟩ =
        run (wasm functions) fill fuel (.ofList (exptTurn.drop 8)) ⟨[], multiplied⟩ := by
      cases h : odd with
      | true =>
          simp only [multiplied, h]
          exact run_if_true rfl _
      | false =>
          simp only [multiplied, h]
          exact run_if_false _ _
    have opened : run (wasm functions) fill fuel (.ofList exptTurn) ⟨[], s⟩ =
        run (wasm functions) fill fuel
        (.ofList (if_ [localGet (localIdx "__expt_r"), localGet (localIdx "__expt_b"), i64 .mul,
          localSet (localIdx "__expt_r")] :: exptTurn.drop 8)) ⟨[Op.ofBool odd], s⟩ := by
      have nonzero' : (s.locals (localIdx "__expt_e") == 0) = false := nonzero
      simp only [exptTurn, run_localGet, run_i64Eqz, nonzero', run_brIf_false, run_i64Const,
        run_and, run_i32WrapI64, lowBit]
      rfl
    rw [opened, chosen]
    simp only [exptTurn, List.drop_succ_cons, List.drop_zero, run_localGet, base, run_mul,
      run_localSet, run_i64Const, run_shrU, run_br]
    have kept : (multiplied.set (localIdx "__expt_b") (b * b)).locals (localIdx "__expt_e") = e :=
      exponent
    rw [kept]
    rfl

/-- As many turns as the exponent has bits, and one to leave. -/
theorem exptLoop (functions : Op.Functions) (fuel : Nat) {n : Nat}
    (fill : Fin n → Locals → Answer LocalVar I64 LinearMemory) (bits : Nat)
    (s : Locals) (below : (s.locals (localIdx "__expt_e")).toNat < 2 ^ bits) {turns : Nat}
    (enough : bits < turns) :
    ∃ t : Locals, t.memory = s.memory ∧ t.locals (localIdx "__expt_r") = exptRest s ∧
      repeatLoop (fun s => run (wasm functions) fill fuel (.ofList exptTurn) ⟨[], s⟩) turns s =
        .branch 1 ⟨[], t⟩ := by
  induction turns generalizing bits s with
  | zero => omega
  | succ turns ih =>
      rw [repeatLoop]
      by_cases done : s.locals (localIdx "__expt_e") = 0
      · refine ⟨s, rfl, ?_, ?_⟩
        · rw [exptRest, done]
          simp
        · rw [exptTurn_done done]
          rfl
      · obtain ⟨middle, kept, rest, halved, ran⟩ :=
          exptTurn_more functions fuel fill done
        rw [ran]
        cases bits with
        | zero =>
            have : s.locals (localIdx "__expt_e") = 0 := by
              apply BitVec.eq_of_toNat_eq
              simpa using below
            exact (done this).elim
        | succ bits =>
            obtain ⟨t, same, result, looped⟩ := ih bits middle (by omega) (by omega)
            exact ⟨t, same.trans kept, result.trans rest, looped⟩

theorem expt_computes (words : Fin 2 → I64) (turns : Nat) (enough : 64 < turns) :
    Computes (expt functions) turns words
      (tagNum (untag (words 0) ^ (untag (words 1)).toNat)) := by
  intro s
  let start := ((s.set (localIdx "__expt_b") (untag (words 0))).set (localIdx "__expt_e")
    (untag (words 1))).set (localIdx "__expt_r") 1
  have bound : ∀ n, Nat.pow 2 n = 2 ^ n := fun _ => rfl
  have below : (start.locals (localIdx "__expt_e")).toNat < 2 ^ 64 :=
    Nat.lt_of_lt_of_eq (BitVec.isLt _) (bound 64)
  obtain ⟨t, kept, result, looped⟩ := exptLoop functions turns
    (fun (i : Fin 2) s => .value (words i) s) 64 start below enough
  have rest : exptRest start = untag (words 0) ^ (untag (words 1)).toNat := by
    simp [exptRest, start, Store.set_locals, localIdx]
  have through : run (wasm functions) (fun i s => .value (words i) s) turns
      (block [loop exptTurn]) ⟨[], start⟩ = .next ⟨[], t⟩ := by
    simp only [block, loop, Code.ofList, run, looped]
    rfl
  have ran : run (wasm functions) (fun i s => .value (words i) s) turns (.ofList exptCode)
      ⟨[], s⟩ = .next ⟨[tagNum (untag (words 0) ^ (untag (words 1)).toNat)], t⟩ := by
    rw [exptCode, run_expr, run_untag, run_localSet, run_expr, run_untag, run_localSet,
      run_i64Const, run_localSet, run_cons through, run_localGet, run_tagNum, result, rest]
  exact ⟨t, kept, ran⟩

end Builtin

end LispRlm.WasmEmit
