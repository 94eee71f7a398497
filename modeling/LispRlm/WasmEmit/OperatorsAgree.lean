import LispRlm.WasmEmit.OperatorRuns

/-! When the folder, the emitted code and the bytecode machine agree on an operator. -/

namespace LispRlm.WasmEmit

open Foundation Instruction

/-! ### Agreement -/

/-- What stands around a form: the module's functions and the code for operands that are not
numbers. -/
structure Surroundings where
  functions : Op.Functions
  fuel : Nat
  helper : ValEq
  emission : Emission Payload

namespace Surroundings

def module (σ : Surroundings) : Op.Functions := σ.helper.among σ.functions σ.fuel

/-- The emitted code comes to a word, or to an error of the compiler or of the code. -/
def Emits (σ : Surroundings) (op : IntOp) (operands : List Payload) (r : Option I64) : Prop :=
  match emitted σ.emission op operands with
  | none => r = none
  | some code => Yields σ.module σ.fuel code r

end Surroundings

/-- What the folder makes of a form inside of another one; it may leave the form as it is. -/
def Folded.Agrees (result : Option Literal) : Folded → Prop
  | .declines => True
  | .makes v => result = some v
  | .panics => False

def nums (operands : List Payload) : List Int := operands.map (·.val)

/-- All evaluators come to this result, where `none` is an error. -/
structure Coincide (σ : Surroundings) (op : IntOp) (operands : List Payload)
    (result : Option Literal) : Prop where
  tagged : ∀ v, result = some v → v.tags = true
  nested : (constEval op (nums operands)).Agrees result
  folded : ∀ w, foldedForm op (nums operands) = some w → w = result.map Literal.word
  emitted : σ.Emits op operands (result.map Literal.word)
  machine : (Vm.eval op (nums operands)).toOption = result

def Agree (σ : Surroundings) (op : IntOp) (operands : List Payload) : Prop :=
  ∃ result, Coincide σ op operands result

/-- An operator and as many operands as it takes. -/
structure Application where
  op : IntOp
  operands : List Payload
  counted : op.accepts operands.length = true

/-! ### The condition -/

/-- The results after each operand, over the integers. -/
def partials (f : Int → Int → Int) : Int → List Int → List Int
  | _, [] => []
  | a, x :: more => f a x :: partials f (f a x) more

namespace IntOp

/-- The operands on which the evaluators agree. -/
def meets : IntOp → List Int → Bool
  | .arith .sub, [_] => true
  | .arith op, first :: second :: more =>
      let results := partials op.apply first (second :: more)
      results.all inPayload || !results.all inI64
  | .div, first :: second :: more =>
      decide (0 ∈ second :: more) || (partials Int.tdiv first (second :: more)).all inPayload
  | .mod, [x, y] => y == 0 || 0 ≤ x || x % y == 0
  | .rem, [_, y] => y == 0
  | .abs, [x] => x != -2 ^ 60
  | .shr, [x, s] => 0 ≤ x || s % 64 == 0 || 4 ≤ s % 64
  | .max, _ | .min, _ | .shl, _ | .band, _ | .bor, _ | .bnot, _ | .bxor, _ => true
  | .lt, [_, _] | .gt, [_, _] | .le, [_, _] | .ge, [_, _] | .eq, [_, _] => true
  | .eq, x :: y :: _ => x != y
  | _, _ => false

end IntOp

/-! ### Chains of operands -/

theorem all_mono {p q : Int → Bool} (le : ∀ n, p n = true → q n = true) {results : List Int}
    (all : results.all p = true) : results.all q = true := by
  rw [List.all_eq_true] at all ⊢
  intro n mem
  exact le n (all n mem)

theorem foldl_mem_partials (f : Int → Int → Int) (a x : Int) (more : List Int) :
    (x :: more).foldl f a ∈ partials f a (x :: more) := by
  induction more generalizing a x with
  | nil => exact List.mem_singleton.mpr rfl
  | cons y more ih => exact List.mem_cons_of_mem _ (ih (f a x) y)

/-- A chain whose steps are tested comes to the end where all of them pass. -/
theorem foldlM_tested (p : Int → Bool) (f : Int → Int → Int) (a : Int) (more : List Int) :
    more.foldlM (fun a x => if p (f a x) then some (f a x) else none) a =
      if (partials f a more).all p then some (more.foldl f a) else none := by
  induction more generalizing a with
  | nil => rfl
  | cons x more ih =>
      rw [List.foldlM_cons, partials, List.all_cons]
      cases p (f a x) with
      | false => rfl
      | true =>
          rw [if_pos rfl, Option.bind_eq_bind, Option.bind_some, ih]
          rfl

theorem foldlM_toSub (p : Int → Bool) (f : Int → Int → Int) (a : { n : Int // p n = true })
    (more : List Payload) :
    (more.foldlM (fun (a : { n : Int // p n = true }) (v : Payload) => toSub p (f a.val v.val))
      a).map (·.val) =
      if (partials f a.val (nums more)).all p then some ((nums more).foldl f a.val) else none := by
  induction more generalizing a with
  | nil => rfl
  | cons v more ih =>
      rw [List.foldlM_cons, nums, List.map_cons, partials, List.all_cons]
      cases fits : p (f a.val v.val) with
      | false => rw [toSub_neg fits]; rfl
      | true =>
          rw [toSub_pos fits, Option.bind_eq_bind, Option.bind_some, ih]
          rfl

theorem toOption_foldlM {step : Literal → Literal → Vm.Result} {work : Int → Int → Option Int}
    (steps : ∀ a x, (step (.num a) (.num x)).toOption = (work a x).map .num) (a : Int)
    (more : List Int) :
    ((more.map Literal.num).foldlM step (.num a)).toOption =
      (more.foldlM work a).map Literal.num := by
  induction more generalizing a with
  | nil => rfl
  | cons x more ih =>
      have one := steps a x
      rw [List.map_cons, List.foldlM_cons, List.foldlM_cons]
      cases stepped : step (.num a) (.num x) with
      | error e =>
          rw [stepped] at one
          have stopped : work a x = none := Option.map_eq_none_iff.mp one.symm
          rw [stopped]
          rfl
      | ok v =>
          rw [stepped] at one
          obtain ⟨n, worked, same⟩ := Option.map_eq_some_iff.mp one.symm
          rw [worked, ← same]
          exact ih n

theorem arithStep_toOption (op : Arith) (a x : Int) :
    (Vm.arithStep op (.num a) (.num x)).toOption =
      (if inPayload (op.apply a x) then some (op.apply a x) else none).map Literal.num := by
  simp only [Vm.arithStep, Vm.numArithChecked, Vm.checkedOp, checkedI64]
  cases fits : inPayload (op.apply a x) with
  | true =>
      rw [if_pos (inI64_of_inPayload fits)]
      simp only [Vm.checkNumRange, fits]
      rfl
  | false =>
      cases inI64 (op.apply a x) with
      | true =>
          simp only [if_true, Vm.checkNumRange, fits]
          rfl
      | false => rfl

/-! ### From one evaluator to the others -/

theorem Surroundings.Emits.unique {σ : Surroundings} {op : IntOp} {operands : List Payload}
    {r r' : Option I64} (first : σ.Emits op operands r) (second : σ.Emits op operands r') :
    r = r' := by
  unfold Surroundings.Emits at first second
  cases made : emitted σ.emission op operands with
  | none =>
      rw [made] at first second
      exact first.trans second.symm
  | some code =>
      rw [made] at first second
      exact Yields.unique first second

/-- With the emitted code's and the machine's results known, these are compared. -/
theorem agree_iff {σ : Surroundings} {op : IntOp} {operands : List Payload} {r : Option I64}
    {v : Option Literal} (emits : σ.Emits op operands r)
    (machine : (Vm.eval op (nums operands)).toOption = v) :
    Agree σ op operands ↔
      (∀ l, v = some l → l.tags = true) ∧ (constEval op (nums operands)).Agrees v ∧
        (∀ w, foldedForm op (nums operands) = some w → w = v.map Literal.word) ∧
        r = v.map Literal.word := by
  constructor
  · intro agree
    obtain ⟨result, coincide⟩ := agree
    have same : v = result := machine.symm.trans coincide.machine
    subst same
    exact ⟨coincide.tagged, coincide.nested, coincide.folded, emits.unique coincide.emitted⟩
  · intro compared
    obtain ⟨tagged, nested, folded, same⟩ := compared
    exact ⟨v, tagged, nested, folded, same ▸ emits, machine⟩

/-- Where neither folder has a say and the words are the same, only the range is left. -/
theorem agree_iff_tags {σ : Surroundings} {op : IntOp} {operands : List Payload} {n : Int}
    (emits : σ.Emits op operands (some (tagWord n)))
    (machine : Vm.eval op (nums operands) = .ok (.num n))
    (declines : constEval op (nums operands) = .declines)
    (apart : foldedForm op (nums operands) = none) :
    Agree σ op operands ↔ inPayload n = true := by
  have known : (Vm.eval op (nums operands)).toOption = some (.num n) := by rw [machine]; rfl
  rw [agree_iff emits known, declines, apart]
  constructor
  · intro compared
    exact compared.1 (.num n) rfl
  · intro fits
    refine ⟨?_, trivial, ?_, rfl⟩
    · intro l same
      cases same
      exact fits
    · intro w same
      cases same

theorem not_agree_of_error {σ : Surroundings} {op : IntOp} {operands : List Payload} {w : I64}
    (emits : σ.Emits op operands (some w))
    (machine : (Vm.eval op (nums operands)).toOption = none) : ¬ Agree σ op operands := by
  rw [agree_iff emits machine]
  intro compared
  cases compared.2.2.2

/-! ### Sums, differences and products -/

section Arithmetic

variable (σ : Surroundings) (op : Arith) (x y : Payload) (more : List Payload)

theorem vm_arith (op : Arith) (a b : Int) (rest : List Int) :
    (Vm.eval (.arith op) (a :: b :: rest)).toOption =
      (if (partials op.apply a (b :: rest)).all inPayload then some ((b :: rest).foldl op.apply a)
        else none).map Literal.num := by
  have unfolded : Vm.eval (.arith op) (a :: b :: rest) =
      ((b :: rest).map Literal.num).foldlM (Vm.arithStep op) (.num a) := by
    cases op <;> rfl
  rw [unfolded, toOption_foldlM (arithStep_toOption op), foldlM_tested]

theorem foldChecked_eq (op : Arith) (a : Int) (rest : List Int) :
    op.foldChecked a rest =
      if (partials op.apply a rest).all inI64 then some (rest.foldl op.apply a) else none :=
  foldlM_tested inI64 op.apply a rest

/-- The emitted code's word where all results are in range, and its trap where one of them is not
even a machine word. -/
theorem arith_emits :
    ∃ r, σ.Emits (.arith op) (x :: y :: more) r ∧
      ((partials op.apply x.val (nums (y :: more))).all inPayload = true →
        r = some (tagWord ((nums (y :: more)).foldl op.apply x.val))) ∧
      ((partials op.apply x.val (nums (y :: more))).all inI64 = false → r = none) := by
  have tagged : ∀ {r : Option Int} {code : Instructions Payload},
      Yields σ.module σ.fuel code (r.map tagWord) →
      (r = if (partials op.apply x.val (nums (y :: more))).all inPayload then
          some ((nums (y :: more)).foldl op.apply x.val) else none) →
      emitted σ.emission (.arith op) (x :: y :: more) = some code →
      ∃ r, σ.Emits (.arith op) (x :: y :: more) r ∧
        ((partials op.apply x.val (nums (y :: more))).all inPayload = true →
          r = some (tagWord ((nums (y :: more)).foldl op.apply x.val))) ∧
        ((partials op.apply x.val (nums (y :: more))).all inI64 = false → r = none) := by
    intro r code yields same made
    refine ⟨r.map tagWord, ?_, ?_, ?_⟩
    · rw [Surroundings.Emits, made]
      exact yields
    · intro all
      rw [same, if_pos all]
      rfl
    · intro wide
      have narrow : (partials op.apply x.val (nums (y :: more))).all inPayload ≠ true := by
        intro all
        rw [all_mono (fun _ => inI64_of_inPayload) all] at wide
        cases wide
      rw [same, if_neg narrow]
      rfl
  cases op with
  | add =>
      have same := foldlM_toSub inPayload Arith.add.apply x (y :: more)
      cases numeric : σ.emission.numeric with
      | true =>
          exact tagged (sums_yield (by decide) x (y :: more)) same
            (by simp only [emitted, numeric, if_true])
      | false =>
          exact tagged (polySums_yield σ.emission.concat σ.emission.depth x (y :: more)) same
            (by simp only [emitted, numeric, Bool.false_eq_true, if_false])
  | sub =>
      have same := foldlM_toSub inPayload Arith.sub.apply x (y :: more)
      exact tagged (sums_yield (by decide) x (y :: more)) same rfl
  | mul =>
      have same := foldlM_toSub inI64 Arith.mul.apply x.wide (y :: more)
      have yields := @products_yield σ.module σ.fuel x (y :: more)
      refine ⟨_, yields, ?_, ?_⟩
      · intro all
        have last : inPayload ((nums (y :: more)).foldl Arith.mul.apply x.val) = true := by
          rw [List.all_eq_true] at all
          exact all _ (foldl_mem_partials Arith.mul.apply x.val y.val (nums more))
        have folded := same.trans (if_pos (all_mono (fun _ => inI64_of_inPayload) all))
        refine (congrArg (Option.bind · emitTaggedConst) folded).trans ?_
        exact if_pos last
      · intro wide
        have folded := same.trans (if_neg (by
          intro all
          exact Bool.false_ne_true (wide.symm.trans all)))
        exact congrArg (Option.bind · emitTaggedConst) folded

/-- Sums, differences and products agree where no result is out of range, or one of them stops the
folder too. -/
theorem arith_agrees :
    Agree σ (.arith op) (x :: y :: more) ↔
      (IntOp.arith op).meets (nums (x :: y :: more)) = true := by
  obtain ⟨r, emits, inRange, stops⟩ := arith_emits σ op x y more
  have machine := vm_arith op x.val y.val (nums more)
  have nested : constEval (.arith op) (nums (x :: y :: more)) =
      .ofOption (op.foldChecked x.val (nums (y :: more))) := by
    cases op <;> rfl
  have folded : foldedForm (.arith op) (nums (x :: y :: more)) =
      some ((op.foldChecked x.val (nums (y :: more))).bind emitTaggedConst) := by
    cases op <;> rfl
  have condition : (IntOp.arith op).meets (nums (x :: y :: more)) =
      ((partials op.apply x.val (nums (y :: more))).all inPayload ||
        !(partials op.apply x.val (nums (y :: more))).all inI64) := by
    cases op <;> rfl
  rw [agree_iff emits machine, nested, folded, condition, foldChecked_eq]
  cases all : (partials op.apply x.val (nums (y :: more))).all inPayload with
  | true =>
      have wide := all_mono (fun _ => inI64_of_inPayload) all
      have last : inPayload ((nums (y :: more)).foldl op.apply x.val) = true := by
        rw [List.all_eq_true] at all
        exact all _ (foldl_mem_partials op.apply x.val y.val (nums more))
      have all' : (partials op.apply x.val (y.val :: nums more)).all inPayload = true := all
      rw [wide, if_pos rfl, all', if_pos rfl, inRange all]
      constructor
      · intro _
        rfl
      · intro _
        refine ⟨?_, rfl, ?_, rfl⟩
        · intro l same
          cases same
          exact last
        · intro w same
          cases same
          exact if_pos last
  | false =>
      have all' : (partials op.apply x.val (y.val :: nums more)).all inPayload = false := all
      rw [all', if_neg Bool.false_ne_true]
      cases wide : (partials op.apply x.val (nums (y :: more))).all inI64 with
      | true =>
          rw [if_pos rfl]
          constructor
          · intro compared
            cases compared.2.1
          · intro never
            cases never
      | false =>
          rw [if_neg Bool.false_ne_true, stops wide]
          constructor
          · intro _
            rfl
          · intro _
            refine ⟨?_, trivial, ?_, rfl⟩
            · intro l same
              cases same
            · intro w same
              cases same
              rfl

/-- The machine does not compile forms that the folder makes a constant of. -/
theorem not_agree_of_folded {operands : List Payload} {o : IntOp} {n : Int}
    (machine : (Vm.eval o (nums operands)).toOption = none)
    (folded : foldedForm o (nums operands) = some (emitTaggedConst n)) (fits : inPayload n = true) :
    ¬ Agree σ o operands := by
  intro agree
  obtain ⟨result, coincide⟩ := agree
  have nothing : none = result := machine.symm.trans coincide.machine
  have made := coincide.folded _ folded
  rw [emitTaggedConst, if_pos fits, ← nothing] at made
  exact Option.some_ne_none _ made

theorem arith_empty (notSub : op ≠ .sub) : ¬ Agree σ (.arith op) [] := by
  cases op with
  | sub => exact (notSub rfl).elim
  | add => exact not_agree_of_folded σ (n := 0) rfl rfl (by decide)
  | mul => exact not_agree_of_folded σ (n := 1) rfl rfl (by decide)

theorem arith_single (notSub : op ≠ .sub) : ¬ Agree σ (.arith op) [x] := by
  cases op with
  | sub => exact (notSub rfl).elim
  | add | mul => exact not_agree_of_folded σ rfl rfl x.property

theorem negation_agrees : Agree σ (.arith .sub) [x] := by
  have emits : σ.Emits (.arith .sub) [x] (emitTaggedConst (-x.val)) := negation_yields x
  have value : (Vm.eval (.arith .sub) (nums [x])).toOption =
      (if inPayload (0 - x.val) then some (0 - x.val) else none).map Literal.num :=
    arithStep_toOption .sub 0 x.val
  rw [zero_sub] at value
  rw [agree_iff emits value]
  cases fits : inPayload (-x.val) with
  | true =>
      refine ⟨?_, trivial, ?_, ?_⟩
      · intro l same
        cases same
        exact fits
      · intro w same
        cases same
      · rw [emitTaggedConst, fits]
        rfl
  | false =>
      refine ⟨?_, trivial, ?_, ?_⟩
      · intro l same
        cases same
      · intro w same
        cases same
      · rw [emitTaggedConst, fits]
        rfl

end Arithmetic

/-! ### Quotients -/

section Quotients

variable (σ : Surroundings) (x y : Payload) (more : List Payload)

/-- A quotient is not larger than the dividend. -/
theorem tdiv_bound {a : Int} (bound : a.natAbs ≤ 2 ^ 60) (b : Int) :
    (a.tdiv b).natAbs ≤ 2 ^ 60 := by
  rw [Int.natAbs_tdiv]
  exact (Nat.div_le_self _ _).trans bound

theorem wide_of_bound {n : Int} (bound : n.natAbs ≤ 2 ^ 60) : inI64 n = true := by
  simp only [inI64, Bool.and_eq_true, decide_eq_true_eq]
  omega

theorem bound_of_payload (v : Payload) : v.val.natAbs ≤ 2 ^ 60 := by
  have fits := v.property
  simp only [inPayload, Bool.and_eq_true, decide_eq_true_eq] at fits
  omega

/-- The emitted code divides until it meets a zero. -/
theorem emitted_quotient (a : Wide) (bound : a.val.natAbs ≤ 2 ^ 60) (more : List Payload) :
    (more.foldlM (fun (a : Wide) (v : Payload) =>
        if v.val = 0 then none else toSub inI64 (a.val.tdiv v.val)) a).map (·.val) =
      if 0 ∈ nums more then none else some ((nums more).foldl Int.tdiv a.val) := by
  induction more generalizing a with
  | nil => rfl
  | cons v more ih =>
      rw [List.foldlM_cons]
      by_cases zero : v.val = 0
      · have found : 0 ∈ nums (v :: more) := by
          rw [nums, List.map_cons, zero]
          exact List.mem_cons_self
        rw [if_pos zero, if_pos found]
        rfl
      · have next := tdiv_bound bound v.val
        have found : 0 ∈ nums (v :: more) ↔ 0 ∈ nums more := by
          rw [nums, List.map_cons, List.mem_cons]
          constructor
          · intro either
            cases either with
            | inl same => exact (zero same.symm).elim
            | inr later => exact later
          · exact .inr
        rw [if_neg zero, toSub_pos (wide_of_bound next), Option.bind_eq_bind, Option.bind_some,
          ih ⟨a.val.tdiv v.val, wide_of_bound next⟩ next]
        simp only [found]
        rfl

/-- The machine also stops where a quotient leaves the payload's range. -/
theorem vm_quotient (a : Int) (more : List Int) :
    more.foldlM (fun a x => if x = 0 then none
        else if inPayload (a.tdiv x) then some (a.tdiv x) else none) a =
      if 0 ∈ more then none
      else if (partials Int.tdiv a more).all inPayload then some (more.foldl Int.tdiv a)
      else none := by
  induction more generalizing a with
  | nil => rfl
  | cons x more ih =>
      rw [List.foldlM_cons, partials, List.all_cons]
      by_cases zero : x = 0
      · rw [if_pos zero, if_pos (by rw [zero]; exact List.mem_cons_self)]
        rfl
      · have found : 0 ∈ x :: more ↔ 0 ∈ more := by
          rw [List.mem_cons]
          constructor
          · intro either
            cases either with
            | inl same => exact (zero same.symm).elim
            | inr later => exact later
          · exact .inr
        rw [if_neg zero]
        simp only [found]
        cases fits : inPayload (a.tdiv x) with
        | true =>
            rw [if_pos rfl, Option.bind_eq_bind, Option.bind_some, ih]
            rfl
        | false =>
            rw [if_neg Bool.false_ne_true]
            by_cases later : 0 ∈ more
            · rw [if_pos later]
              rfl
            · rw [if_neg later]
              rfl

theorem zeroChecked_toOption (f : Int → Int → Int) (op what : String) (a x : Int) :
    (Vm.orByZero what (Vm.numArithChecked op (Vm.checkedOp f)) (.num a) (.num x)).toOption =
      (if x = 0 then none else if inPayload (f a x) then some (f a x) else none).map
        Literal.num := by
  rw [Vm.orByZero]
  by_cases zero : x = 0
  · rw [if_pos zero, if_pos zero]
    rfl
  · rw [if_neg zero, if_neg zero]
    simp only [Vm.numArithChecked, Vm.checkedOp, checkedI64]
    cases fits : inPayload (f a x) with
    | true =>
        rw [if_pos (inI64_of_inPayload fits)]
        simp only [Vm.checkNumRange, fits]
        rfl
    | false =>
        cases inI64 (f a x) with
        | true =>
            simp only [if_true, Vm.checkNumRange, fits]
            rfl
        | false => rfl

theorem div_agrees :
    Agree σ .div (x :: y :: more) ↔ IntOp.div.meets (nums (x :: y :: more)) = true := by
  have emits : σ.Emits .div (x :: y :: more) _ := quotients_yield x (y :: more)
  rw [emitted_quotient x.wide (bound_of_payload x)] at emits
  have machine : (Vm.eval .div (nums (x :: y :: more))).toOption = _ :=
    (toOption_foldlM (zeroChecked_toOption Int.tdiv "div" "division") x.val
      (nums (y :: more))).trans (congrArg (Option.map Literal.num) (vm_quotient x.val _))
  have condition : IntOp.div.meets (nums (x :: y :: more)) =
      (decide (0 ∈ nums (y :: more)) ||
        (partials Int.tdiv x.val (nums (y :: more))).all inPayload) := rfl
  rw [agree_iff emits machine, condition]
  by_cases zero : 0 ∈ nums (y :: more)
  · have declines : constEval .div (nums (x :: y :: more)) = .declines := by
      match more with
      | [] =>
          have only : y.val = 0 := (List.mem_singleton.mp zero).symm
          show constArm .div x.val [y.val] = .declines
          rw [constArm, if_pos only]
      | _ :: _ => rfl
    rw [if_pos zero, if_pos zero, decide_eq_true zero, declines]
    constructor
    · intro _
      rfl
    · intro _
      refine ⟨?_, trivial, ?_, rfl⟩
      · intro l same
        cases same
      · intro w same
        cases same
  · rw [if_neg zero, if_neg zero, decide_eq_false zero, Bool.false_or]
    cases all : (partials Int.tdiv x.val (nums (y :: more))).all inPayload with
    | true =>
        have last : inPayload ((nums (y :: more)).foldl Int.tdiv x.val) = true := by
          rw [List.all_eq_true] at all
          exact all _ (foldl_mem_partials Int.tdiv x.val y.val (nums more))
        rw [if_pos rfl]
        constructor
        · intro _
          rfl
        · intro _
          refine ⟨?_, ?_, ?_, rfl⟩
          · intro l same
            cases same
            exact last
          · match more with
            | [] =>
                have nonzero : y.val ≠ 0 := by
                  intro same
                  apply zero
                  rw [← same]
                  exact List.mem_cons_self
                show (constArm .div x.val [y.val]).Agrees _
                rw [constArm, if_neg nonzero, Folded.unchecked,
                  if_pos (wide_of_bound (tdiv_bound (bound_of_payload x) y.val))]
                rfl
            | _ :: _ => trivial
          · intro w same
            cases same
    | false =>
        rw [if_neg Bool.false_ne_true]
        constructor
        · intro compared
          cases compared.2.2.2
        · intro never
          cases never

theorem div_single : ¬ Agree σ .div [x] := by
  have emits : σ.Emits .div [x] (some (tagWord x.val)) := @quotients_yield σ.module σ.fuel x []
  exact not_agree_of_error emits rfl

end Quotients

/-! ### Remainders, absolute values and extrema -/

section Others

variable (σ : Surroundings) (x y : Payload) (more : List Payload)

theorem tmod_payload : inPayload (x.val.tmod y.val) = true := by
  have bound : (x.val.tmod y.val).natAbs ≤ x.val.natAbs := by
    rw [Int.natAbs_tmod]
    exact Nat.mod_le _ _
  have sign := Int.tmod_nonneg (a := -x.val) y.val
  rw [Int.neg_tmod] at sign
  have fits := x.property
  simp only [inPayload, Bool.and_eq_true, decide_eq_true_eq] at fits ⊢
  omega

theorem emod_payload (nonzero : y.val ≠ 0) : inPayload (x.val % y.val) = true := by
  have low := Int.emod_nonneg x.val nonzero
  have high := Int.emod_lt_abs x.val nonzero
  rw [Int.abs_eq_natAbs] at high
  have fits := y.property
  simp only [inPayload, Bool.and_eq_true, decide_eq_true_eq] at fits ⊢
  omega

/-- The remainders of the truncated and of the Euclidean division. -/
theorem tmod_eq_emod_iff {a b : Int} (nonzero : b ≠ 0) :
    a.tmod b = a % b ↔ 0 ≤ a ∨ a % b = 0 := by
  have whole := @Int.tmod_eq_emod a b
  simp only [Int.dvd_iff_emod_eq_zero] at whole
  split at whole
  · rename_i exact_
    constructor
    · intro _
      exact exact_
    · intro _
      omega
  · rename_i other
    constructor
    · intro same
      omega
    · intro either
      exact (other either).elim

theorem mod_agrees : Agree σ .mod [x, y] ↔ IntOp.mod.meets (nums [x, y]) = true := by
  have emits : σ.Emits .mod [x, y] _ := remainder_yields x y
  have condition : IntOp.mod.meets (nums [x, y]) =
      (y.val == 0 || decide (0 ≤ x.val) || x.val % y.val == 0) := rfl
  have nested : constEval .mod (nums [x, y]) = constArm .mod x.val [y.val] := rfl
  rw [condition]
  by_cases zero : y.val = 0
  · have machine : (Vm.eval .mod (nums [x, y])).toOption = none := by
      show (Except.toOption (if y.val = 0 then _ else _)) = _
      rw [if_pos zero]
      rfl
    rw [agree_iff emits machine, nested, constArm, if_pos zero, if_pos zero, zero]
    constructor
    · intro _
      rfl
    · intro _
      refine ⟨?_, trivial, ?_, rfl⟩
      · intro l same
        cases same
      · intro w same
        cases same
  · have machine : (Vm.eval .mod (nums [x, y])).toOption = some (.num (x.val % y.val)) := by
      show (Except.toOption (if y.val = 0 then _ else _)) = _
      rw [if_neg zero]
      rfl
    have least : ¬ (x.val = -2 ^ 63 ∧ y.val = -1) := by
      intro both
      have fits := x.property
      simp only [inPayload, Bool.and_eq_true, decide_eq_true_eq] at fits
      omega
    have same := @tmod_eq_emod_iff x.val y.val zero
    rw [agree_iff emits machine, nested, constArm, if_neg zero, if_neg zero, if_neg least,
      beq_eq_false_iff_ne.mpr zero, Bool.false_or, Bool.or_eq_true, decide_eq_true_iff,
      beq_iff_eq, ← same]
    constructor
    · intro compared
      have made : some (Literal.num (x.val % y.val)) = some (Literal.num (x.val.tmod y.val)) :=
        compared.2.1
      exact (Literal.num.inj (Option.some.inj made)).symm
    · intro equal
      refine ⟨?_, ?_, ?_, rfl⟩
      · intro l known
        cases known
        exact emod_payload x y zero
      · rw [equal]
        rfl
      · intro w known
        cases known

theorem rem_agrees : Agree σ .rem [x, y] ↔ IntOp.rem.meets (nums [x, y]) = true := by
  have emits : σ.Emits .rem [x, y] none := rfl
  have machine := toOption_foldlM (zeroChecked_toOption Int.tmod "mod" "modulo") x.val [y.val]
  have known : (Vm.eval .rem (nums [x, y])).toOption =
      (if y.val = 0 then none else some (.num (x.val.tmod y.val))) := by
    refine machine.trans ?_
    rw [List.foldlM_cons, if_pos (tmod_payload x y)]
    by_cases zero : y.val = 0
    · rw [if_pos zero, if_pos zero]
      rfl
    · rw [if_neg zero, if_neg zero]
      rfl
  have condition : IntOp.rem.meets (nums [x, y]) = (y.val == 0) := rfl
  rw [agree_iff emits known, condition, beq_iff_eq]
  by_cases zero : y.val = 0
  · rw [if_pos zero]
    constructor
    · intro _
      exact zero
    · intro _
      refine ⟨?_, trivial, ?_, rfl⟩
      · intro l same
        cases same
      · intro w same
        cases same
  · rw [if_neg zero]
    constructor
    · intro compared
      cases compared.2.2.2
    · intro same
      exact (zero same).elim

theorem abs_agrees : Agree σ .abs [x] ↔ IntOp.abs.meets (nums [x]) = true := by
  have fits := x.property
  simp only [inPayload, Bool.and_eq_true, decide_eq_true_eq] at fits
  have size : |x.val| = if x.val < 0 then -x.val else x.val := by
    split
    · rename_i negative
      exact abs_of_neg negative
    · exact abs_of_nonneg (by omega)
  have wide : inI64 |x.val| = true := by
    rw [size]
    simp only [inI64, Bool.and_eq_true, decide_eq_true_eq]
    split <;> omega
  have machine : Vm.eval .abs (nums [x]) = .ok (.num |x.val|) := by
    have checked : checkedI64 |x.val| = some |x.val| := if_pos wide
    simp only [nums, List.map_cons, List.map_nil, Vm.eval, checked]
  have condition : IntOp.abs.meets (nums [x]) = (x.val != -2 ^ 60) := rfl
  have emits : σ.Emits .abs [x] (some (tagWord |x.val|)) := abs_yields x
  rw [agree_iff_tags emits machine rfl rfl, condition, size, bne_iff_ne]
  simp only [inPayload, Bool.and_eq_true, decide_eq_true_eq]
  split <;> omega

theorem relOp_eval (x y : Payload) :
    RelOp.ltS.eval (BitVec.ofInt 64 x.val) (BitVec.ofInt 64 y.val) = decide (x.val < y.val) ∧
      RelOp.gtS.eval (BitVec.ofInt 64 x.val) (BitVec.ofInt 64 y.val) = decide (y.val < x.val) ∧
      RelOp.leS.eval (BitVec.ofInt 64 x.val) (BitVec.ofInt 64 y.val) = decide (x.val ≤ y.val) ∧
      RelOp.geS.eval (BitVec.ofInt 64 x.val) (BitVec.ofInt 64 y.val) = decide (y.val ≤ x.val) := by
  have valueX := toInt_ofInt_inI64 (inI64_of_inPayload x.property)
  have valueY := toInt_ofInt_inI64 (inI64_of_inPayload y.property)
  simp only [RelOp.eval, BitVec.slt, BitVec.sle, valueX, valueY, and_self]

theorem kept_max (a v : Payload) : (kept .geS a v).val = max a.val v.val := by
  rw [kept, (relOp_eval a v).2.2.2]
  by_cases le : v.val ≤ a.val
  · rw [decide_eq_true le, if_pos rfl, max_eq_left le]
  · rw [decide_eq_false le, if_neg Bool.false_ne_true, max_eq_right (by omega)]

theorem kept_min (a v : Payload) : (kept .leS a v).val = min a.val v.val := by
  rw [kept, (relOp_eval a v).2.2.1]
  by_cases le : a.val ≤ v.val
  · rw [decide_eq_true le, if_pos rfl, min_eq_left le]
  · rw [decide_eq_false le, if_neg Bool.false_ne_true, min_eq_right (by omega)]

theorem foldl_kept {cmp : RelOp} {f : Int → Int → Int}
    (picks : ∀ a v : Payload, (kept cmp a v).val = f a.val v.val) (a : Payload)
    (more : List Payload) : (more.foldl (kept cmp) a).val = (nums more).foldl f a.val := by
  induction more generalizing a with
  | nil => rfl
  | cons v more ih =>
      have next := ih (kept cmp a v)
      rw [picks] at next
      exact next

theorem extremum_agrees {o : IntOp} {a b : String} {cmp : RelOp} {f : Int → Int → Int}
    (apart : a ≠ b) (picks : ∀ a v : Payload, (kept cmp a v).val = f a.val v.val)
    (code : emitted σ.emission o (x :: more) = some (emitExtremum a b cmp x more))
    (machine : Vm.eval o (nums (x :: more)) = .ok (.num ((nums more).foldl f x.val)))
    (nested : constEval o (nums (x :: more)) = .declines ∨
      constEval o (nums (x :: more)) = .makes (.num ((nums more).foldl f x.val)))
    (apart' : foldedForm o (nums (x :: more)) = none) : Agree σ o (x :: more) := by
  have value := foldl_kept picks x more
  have emits : σ.Emits o (x :: more) (some (tagWord ((nums more).foldl f x.val))) := by
    rw [Surroundings.Emits, code, ← value]
    exact extremum_yields apart cmp x more
  have known : (Vm.eval o (nums (x :: more))).toOption =
      some (.num ((nums more).foldl f x.val)) := by
    rw [machine]
    rfl
  rw [agree_iff emits known, apart']
  refine ⟨?_, ?_, ?_, rfl⟩
  · intro l same
    cases same
    rw [← value]
    exact (more.foldl (kept cmp) x).property
  · cases nested with
    | inl declines =>
        rw [declines]
        trivial
    | inr makes =>
        rw [makes]
        rfl
  · intro w same
    cases same

theorem max_agrees : Agree σ .max (x :: more) := by
  apply extremum_agrees σ x more (by decide) kept_max rfl rfl _ rfl
  cases more with
  | nil => exact .inl rfl
  | cons y more => exact .inr rfl

theorem min_agrees : Agree σ .min (x :: more) := by
  apply extremum_agrees σ x more (by decide) kept_min rfl rfl _ rfl
  cases more with
  | nil => exact .inl rfl
  | cons y more => exact .inr rfl

end Others

/-! ### Shifts and bits -/

section Bits

variable (σ : Surroundings) (x y : Payload)

theorem shl_agrees : Agree σ .shl [x, y] := by
  let n := (BitVec.ofInt 64 x.val <<< Vm.shiftCount y.val).toInt
  have emits : σ.Emits .shl [x, y] (emitTaggedConst n) := shl_yields x y
  have machine : (Vm.eval .shl (nums [x, y])).toOption =
      if inPayload n then some (.num n) else none := by
    show (Except.toOption (if inPayload n then _ else _)) = _
    cases inPayload n <;> rfl
  rw [agree_iff emits machine, emitTaggedConst]
  cases fits : inPayload n with
  | true =>
      refine ⟨?_, trivial, ?_, rfl⟩
      · intro l same
        cases same
        exact fits
      · intro w same
        cases same
  | false =>
      refine ⟨?_, trivial, ?_, rfl⟩
      · intro l same
        cases same
      · intro w same
        cases same

theorem shiftCount_eq (n : Int) : (Vm.shiftCount n : Int) = n % 64 := by
  rw [Vm.shiftCount, BitVec.toNat_ofInt]
  omega

/-- A logical shift keeps the range but for the small shifts of negative numbers. -/
theorem shr_range (x : Payload) (c : Nat) (small : c < 64) :
    inPayload (BitVec.ofInt 64 x.val >>> c).toInt = true ↔ 0 ≤ x.val ∨ c = 0 ∨ 4 ≤ c := by
  have fits := x.property
  have unsigned : ((BitVec.ofInt 64 x.val).toNat : Int) =
      if x.val < 0 then x.val + 2 ^ 64 else x.val := by
    rw [BitVec.toNat_ofInt]
    simp only [inPayload, Bool.and_eq_true, decide_eq_true_eq] at fits
    split <;> omega
  by_cases none_ : c = 0
  · rw [none_, BitVec.ushiftRight_zero, toInt_ofInt_inI64 (inI64_of_inPayload x.property)]
    constructor
    · intro _
      exact .inr (.inl rfl)
    · intro _
      exact x.property
  · simp only [inPayload, Bool.and_eq_true, decide_eq_true_eq] at fits ⊢
    have shifted : (BitVec.ofInt 64 x.val >>> c).toNat = (BitVec.ofInt 64 x.val).toNat / 2 ^ c := by
      rw [BitVec.toNat_ushiftRight, Nat.shiftRight_eq_div_pow]
    have below : (BitVec.ofInt 64 x.val).toNat < 2 ^ 64 := BitVec.isLt _
    have half : (BitVec.ofInt 64 x.val).toNat / 2 ^ c ≤ (BitVec.ofInt 64 x.val).toNat / 2 := by
      apply Nat.div_le_div_left _ (by decide)
      calc 2 = 2 ^ 1 := rfl
        _ ≤ 2 ^ c := Nat.pow_le_pow_right (by decide) (by omega)
    have value : (BitVec.ofInt 64 x.val >>> c).toInt =
        ((BitVec.ofInt 64 x.val).toNat / 2 ^ c : Nat) := by
      rw [BitVec.toInt_eq_toNat_cond, shifted, if_pos (by omega)]
    rw [value]
    by_cases large : 4 ≤ c
    · have sixteenth : (BitVec.ofInt 64 x.val).toNat / 2 ^ c ≤
          (BitVec.ofInt 64 x.val).toNat / 16 := by
        apply Nat.div_le_div_left _ (by decide)
        calc 16 = 2 ^ 4 := rfl
          _ ≤ 2 ^ c := Nat.pow_le_pow_right (by decide) large
      constructor
      · intro _
        exact .inr (.inr large)
      · intro _
        omega
    · have eighth : (BitVec.ofInt 64 x.val).toNat / 8 ≤
          (BitVec.ofInt 64 x.val).toNat / 2 ^ c := by
        apply Nat.div_le_div_left _ (Nat.two_pow_pos c)
        calc 2 ^ c ≤ 2 ^ 3 := Nat.pow_le_pow_right (by decide) (by omega)
          _ = 8 := rfl
      by_cases negative : x.val < 0
      · rw [if_pos negative] at unsigned
        omega
      · rw [if_neg negative] at unsigned
        omega

theorem shr_agrees : Agree σ .shr [x, y] ↔ IntOp.shr.meets (nums [x, y]) = true := by
  have emits : σ.Emits .shr [x, y]
      (some (tagWord (BitVec.ofInt 64 x.val >>> Vm.shiftCount y.val).toInt)) :=
    binary_yields x y rfl
  have small : Vm.shiftCount y.val < 64 := Nat.mod_lt _ (by decide)
  have count := shiftCount_eq y.val
  have condition : IntOp.shr.meets (nums [x, y]) =
      (decide (0 ≤ x.val) || y.val % 64 == 0 || decide (4 ≤ y.val % 64)) := rfl
  rw [agree_iff_tags emits rfl rfl rfl, shr_range x _ small, condition]
  simp only [Bool.or_eq_true, decide_eq_true_eq, beq_iff_eq]
  omega

theorem untagged_back (x : Payload) :
    Builtin.untag (Builtin.tagNum (BitVec.ofInt 64 x.val)) = BitVec.ofInt 64 x.val := by
  rw [tagNum_ofInt, untag_tagWord]

theorem band_agrees : Agree σ .band [x, y] := by
  have emits : σ.Emits .band [x, y]
      (some (tagWord (BitVec.ofInt 64 x.val &&& BitVec.ofInt 64 y.val).toInt)) :=
    binary_yields x y rfl
  rw [agree_iff_tags emits rfl rfl rfl, ← untag_tagNum_eq]
  have backX := untagged_back x
  have backY := untagged_back y
  simp only [Builtin.untag, Builtin.tagNum] at backX backY ⊢
  rw [BitVec.shiftLeft_and_distrib, BitVec.sshiftRight_and_distrib, backX, backY]

theorem bor_agrees : Agree σ .bor [x, y] := by
  have emits : σ.Emits .bor [x, y]
      (some (tagWord (BitVec.ofInt 64 x.val ||| BitVec.ofInt 64 y.val).toInt)) :=
    binary_yields x y rfl
  rw [agree_iff_tags emits rfl rfl rfl, ← untag_tagNum_eq]
  have backX := untagged_back x
  have backY := untagged_back y
  simp only [Builtin.untag, Builtin.tagNum] at backX backY ⊢
  rw [BitVec.shiftLeft_or_distrib, BitVec.sshiftRight_or_distrib, backX, backY]

theorem bnot_agrees : Agree σ .bnot [x] := by
  have emits : σ.Emits .bnot [x] (some (tagWord (~~~BitVec.ofInt 64 x.val).toInt)) :=
    bnot_yields x
  have fits := x.property
  simp only [inPayload, Bool.and_eq_true, decide_eq_true_eq] at fits
  have flipped : ~~~BitVec.ofInt 64 x.val = BitVec.ofInt 64 (-x.val - 1) := by
    rw [sub_eq_add_neg, BitVec.ofInt_add, BitVec.ofInt_neg, BitVec.neg_eq_not_add,
      BitVec.add_assoc]
    exact (BitVec.add_zero _).symm
  have narrow : inPayload (-x.val - 1) = true := by
    simp only [inPayload, Bool.and_eq_true, decide_eq_true_eq]
    omega
  rw [agree_iff_tags emits rfl rfl rfl, flipped, toInt_ofInt_inI64 (inI64_of_inPayload narrow)]
  exact narrow

/-- No evaluator has `bxor`. -/
theorem bxor_agrees : Agree σ .bxor [x, y] := by
  have emits : σ.Emits .bxor [x, y] none := rfl
  rw [agree_iff emits (v := none) rfl]
  refine ⟨?_, trivial, ?_, rfl⟩
  · intro l same
    cases same
  · intro w same
    cases same

end Bits

/-! ### Comparisons -/

section Comparisons

variable (σ : Surroundings) (x y z : Payload) (more : List Payload)

theorem comparison_agrees {o : IntOp} {operands : List Payload} {b : Bool}
    (emits : σ.Emits o operands (some (Literal.bool b).word))
    (machine : Vm.eval o (nums operands) = .ok (.bool b))
    (nested : constEval o (nums operands) = .makes (.bool b) ∨
      constEval o (nums operands) = .declines)
    (apart : foldedForm o (nums operands) = none) : Agree σ o operands := by
  have known : (Vm.eval o (nums operands)).toOption = some (.bool b) := by
    rw [machine]
    rfl
  rw [agree_iff emits known, apart]
  refine ⟨?_, ?_, ?_, rfl⟩
  · intro l same
    cases same
    rfl
  · cases nested with
    | inl makes =>
        rw [makes]
        rfl
    | inr declines =>
        rw [declines]
        trivial
  · intro w same
    cases same

theorem cmp_emits (o : IntOp) (cmp : RelOp)
    (code : emitted σ.emission o (x :: y :: more) = some (emitCmp cmp x y)) :
    σ.Emits o (x :: y :: more)
      (some (Literal.bool (cmp.eval (BitVec.ofInt 64 x.val) (BitVec.ofInt 64 y.val))).word) := by
  rw [Surroundings.Emits, code]
  exact cmp_yields cmp x y

theorem ordering_agrees :
    Agree σ .lt [x, y] ∧ Agree σ .gt [x, y] ∧ Agree σ .le [x, y] ∧ Agree σ .ge [x, y] := by
  obtain ⟨lt, gt, le, ge⟩ := relOp_eval x y
  refine ⟨?_, ?_, ?_, ?_⟩
  · have emits := cmp_emits σ x y [] .lt .ltS rfl
    rw [lt] at emits
    exact comparison_agrees σ emits rfl (.inl rfl) rfl
  · have emits := cmp_emits σ x y [] .gt .gtS rfl
    rw [gt] at emits
    exact comparison_agrees σ emits rfl (.inl rfl) rfl
  · have emits := cmp_emits σ x y [] .le .leS rfl
    rw [le] at emits
    exact comparison_agrees σ emits rfl (.inl rfl) rfl
  · have emits := cmp_emits σ x y [] .ge .geS rfl
    rw [ge] at emits
    exact comparison_agrees σ emits rfl (.inl rfl) rfl

/-- The machine compares the first truth value with the third operand and stops; the emitted code
leaves the third operand out. -/
theorem ordering_of_three :
    ¬ Agree σ .lt (x :: y :: z :: more) ∧ ¬ Agree σ .gt (x :: y :: z :: more) ∧
      ¬ Agree σ .le (x :: y :: z :: more) ∧ ¬ Agree σ .ge (x :: y :: z :: more) := by
  refine ⟨?_, ?_, ?_, ?_⟩
  · exact not_agree_of_error (cmp_emits σ x y (z :: more) .lt .ltS rfl) rfl
  · exact not_agree_of_error (cmp_emits σ x y (z :: more) .gt .gtS rfl) rfl
  · exact not_agree_of_error (cmp_emits σ x y (z :: more) .le .leS rfl) rfl
  · exact not_agree_of_error (cmp_emits σ x y (z :: more) .ge .geS rfl) rfl

theorem eq_emits : σ.Emits .eq (x :: y :: more) (some (Literal.bool (x.val == y.val)).word) :=
  eq_yields σ.helper _ x y

theorem eq_agrees : Agree σ .eq [x, y] :=
  comparison_agrees σ (eq_emits σ x y []) rfl (.inl rfl) rfl

/-- A truth value is no number. -/
theorem lispEq_chain (rest : List Int) :
    (rest.map Literal.num).foldlM Vm.lispEq (.bool false) = (.ok (.bool false) : Vm.Result) := by
  induction rest with
  | nil => rfl
  | cons n rest ih => exact ih

theorem eq_of_three :
    Agree σ .eq (x :: y :: z :: more) ↔ IntOp.eq.meets (nums (x :: y :: z :: more)) = true := by
  have machine : (Vm.eval .eq (nums (x :: y :: z :: more))).toOption = some (.bool false) :=
    congrArg Except.toOption (lispEq_chain (nums more))
  have condition : IntOp.eq.meets (nums (x :: y :: z :: more)) = (x.val != y.val) := rfl
  rw [agree_iff (eq_emits σ x y (z :: more)) machine, condition, bne_iff_ne]
  cases same : x.val == y.val with
  | true =>
      constructor
      · intro compared
        have words := compared.2.2.2
        simp [Literal.word] at words
      · intro differ
        exact (differ (beq_iff_eq.mp same)).elim
  | false =>
      constructor
      · intro _
        exact beq_eq_false_iff_ne.mp same
      · intro _
        refine ⟨?_, trivial, ?_, rfl⟩
        · intro l known
          cases known
          rfl
        · intro w known
          cases known

end Comparisons

/-- The folder also meets words that nested forms have made. It stops the compiler on one quotient
and one remainder only. -/
theorem constEval_panics_iff (op : IntOp) (xs : List Int) (words : ∀ n ∈ xs, inI64 n = true) :
    constEval op xs = .panics ↔ (op = .div ∨ op = .mod) ∧ xs = [-2 ^ 63, -1] := by
  constructor
  · intro panics
    match xs, words, panics with
    | [x, y], words, panics =>
        have wideX := words x List.mem_cons_self
        have wideY := words y (List.mem_cons_of_mem _ List.mem_cons_self)
        cases op with
        | div =>
            have arm : constArm .div x [y] = .panics := panics
            rw [constArm] at arm
            split at arm
            · cases arm
            · rename_i nonzero
              have divided := divS_eval wideX wideY nonzero
              refine ⟨.inl rfl, ?_⟩
              rw [Folded.unchecked] at arm
              split at arm
              · cases arm
              · rename_i outside
                rw [if_neg outside, BinOp.eval] at divided
                split at divided
                · rename_i stops
                  cases stops with
                  | inl zero =>
                      have checked := ofInt_eq_zero wideY
                      rw [decide_eq_false nonzero, beq_eq_false_iff_ne] at checked
                      exact (checked zero).elim
                  | inr least =>
                      have first := congrArg BitVec.toInt least.1
                      have second := congrArg BitVec.toInt least.2
                      rw [toInt_ofInt_inI64 wideX] at first
                      rw [toInt_ofInt_inI64 wideY] at second
                      rw [first, second]
                      rfl
                · cases divided
        | mod =>
            have arm : constArm .mod x [y] = .panics := panics
            rw [constArm] at arm
            split at arm
            · cases arm
            · split at arm
              · rename_i least
                rw [least.1, least.2]
                exact ⟨.inr rfl, rfl⟩
              · cases arm
        | arith op =>
            have arm : Folded.ofOption (op.foldChecked x [y]) = .panics := by
              cases op <;> exact panics
            cases made : op.foldChecked x [y] with
            | none =>
                rw [made] at arm
                cases arm
            | some n =>
                rw [made] at arm
                cases arm
        | rem | abs | max | min | shl | shr | band | bor | bnot | bxor | lt | gt | le | ge | eq =>
            cases panics
    | x :: y :: z :: more, words, panics =>
        cases op with
        | arith op =>
            have arm : Folded.ofOption (op.foldChecked x (y :: z :: more)) = .panics := by
              cases op <;> exact panics
            cases made : op.foldChecked x (y :: z :: more) with
            | none =>
                rw [made] at arm
                cases arm
            | some n =>
                rw [made] at arm
                cases arm
        | div | mod | rem | abs | max | min | shl | shr | band | bor | bnot | bxor | lt | gt | le
        | ge | eq => cases panics
    | [x], _, panics => cases panics
    | [], _, panics => cases panics
  · intro both
    obtain ⟨either, rfl⟩ := both
    cases either with
    | inl same =>
        rw [same]
        rfl
    | inr same =>
        rw [same]
        rfl

/-! ### All operators -/

/-- The three evaluators agree on exactly the operands of the condition. -/
theorem operators_agree_iff (σ : Surroundings) (a : Application) :
    Agree σ a.op a.operands ↔ a.op.meets (nums a.operands) = true := by
  obtain ⟨op, operands, counted⟩ := a
  show Agree σ op operands ↔ op.meets (nums operands) = true
  cases op with
  | arith op =>
      match operands, counted with
      | x :: y :: more, _ => exact arith_agrees σ op x y more
      | [x], _ =>
          by_cases negates : op = .sub
          · rw [negates]
            exact iff_of_true (negation_agrees σ x) rfl
          · have fails : (IntOp.arith op).meets (nums [x]) = false := by
              cases op <;> first | rfl | exact (negates rfl).elim
            rw [fails]
            exact iff_of_false (arith_single σ op x negates) Bool.false_ne_true
      | [], counted =>
          have notSub : op ≠ .sub := by
            intro same
            rw [same] at counted
            cases counted
          have fails : (IntOp.arith op).meets (nums []) = false := by
            cases op <;> rfl
          rw [fails]
          exact iff_of_false (arith_empty σ op notSub) Bool.false_ne_true
  | div =>
      match operands, counted with
      | x :: y :: more, _ => exact div_agrees σ x y more
      | [x], _ => exact iff_of_false (div_single σ x) Bool.false_ne_true
      | [], counted => cases counted
  | max =>
      match operands, counted with
      | x :: more, _ => exact iff_of_true (max_agrees σ x more) rfl
      | [], counted => cases counted
  | min =>
      match operands, counted with
      | x :: more, _ => exact iff_of_true (min_agrees σ x more) rfl
      | [], counted => cases counted
  | abs =>
      obtain ⟨x, rfl⟩ := List.length_eq_one_iff.mp (beq_iff_eq.mp counted)
      exact abs_agrees σ x
  | bnot =>
      obtain ⟨x, rfl⟩ := List.length_eq_one_iff.mp (beq_iff_eq.mp counted)
      exact iff_of_true (bnot_agrees σ x) rfl
  | mod =>
      obtain ⟨x, y, rfl⟩ := List.length_eq_two.mp (beq_iff_eq.mp counted)
      exact mod_agrees σ x y
  | rem =>
      obtain ⟨x, y, rfl⟩ := List.length_eq_two.mp (beq_iff_eq.mp counted)
      exact rem_agrees σ x y
  | shl =>
      obtain ⟨x, y, rfl⟩ := List.length_eq_two.mp (beq_iff_eq.mp counted)
      exact iff_of_true (shl_agrees σ x y) rfl
  | shr =>
      obtain ⟨x, y, rfl⟩ := List.length_eq_two.mp (beq_iff_eq.mp counted)
      exact shr_agrees σ x y
  | band =>
      obtain ⟨x, y, rfl⟩ := List.length_eq_two.mp (beq_iff_eq.mp counted)
      exact iff_of_true (band_agrees σ x y) rfl
  | bor =>
      obtain ⟨x, y, rfl⟩ := List.length_eq_two.mp (beq_iff_eq.mp counted)
      exact iff_of_true (bor_agrees σ x y) rfl
  | bxor =>
      obtain ⟨x, y, rfl⟩ := List.length_eq_two.mp (beq_iff_eq.mp counted)
      exact iff_of_true (bxor_agrees σ x y) rfl
  | lt =>
      match operands, counted with
      | [x, y], _ => exact iff_of_true (ordering_agrees σ x y).1 rfl
      | x :: y :: z :: more, _ =>
          exact iff_of_false (ordering_of_three σ x y z more).1 Bool.false_ne_true
      | [x], counted => cases counted
      | [], counted => cases counted
  | gt =>
      match operands, counted with
      | [x, y], _ => exact iff_of_true (ordering_agrees σ x y).2.1 rfl
      | x :: y :: z :: more, _ =>
          exact iff_of_false (ordering_of_three σ x y z more).2.1 Bool.false_ne_true
      | [x], counted => cases counted
      | [], counted => cases counted
  | le =>
      match operands, counted with
      | [x, y], _ => exact iff_of_true (ordering_agrees σ x y).2.2.1 rfl
      | x :: y :: z :: more, _ =>
          exact iff_of_false (ordering_of_three σ x y z more).2.2.1 Bool.false_ne_true
      | [x], counted => cases counted
      | [], counted => cases counted
  | ge =>
      match operands, counted with
      | [x, y], _ => exact iff_of_true (ordering_agrees σ x y).2.2.2 rfl
      | x :: y :: z :: more, _ =>
          exact iff_of_false (ordering_of_three σ x y z more).2.2.2 Bool.false_ne_true
      | [x], counted => cases counted
      | [], counted => cases counted
  | eq =>
      match operands, counted with
      | [x, y], _ => exact iff_of_true (eq_agrees σ x y) rfl
      | x :: y :: z :: more, _ => exact eq_of_three σ x y z more
      | [x], counted => cases counted
      | [], counted => cases counted

/-! ### Where they differ -/

/-- A form alone in a module that has nothing else. -/
def bare : Surroundings := ⟨Builtin.noFunctions, 0, ⟨[], []⟩, ⟨true, 0, []⟩⟩

def negativeDividend : Application := ⟨.mod, [⟨-7, rfl⟩, ⟨3, rfl⟩], rfl⟩

/-- The folder truncates, the machine and the emitted code do not: `(mod -7 3)` is `-1` where it
stands inside of a sum of constants, and `2` elsewhere. -/
theorem negativeDividend_differs :
    constEval .mod [-7, 3] = .makes (.num (-1)) ∧ Vm.eval .mod [-7, 3] = .ok (.num 2) ∧
      ¬ Agree bare negativeDividend.op negativeDividend.operands := by
  refine ⟨rfl, rfl, ?_⟩
  intro agree
  obtain ⟨result, coincide⟩ := agree
  have machine : some (Literal.num 2) = result := coincide.machine
  have nested : result = some (Literal.num (-1)) := coincide.nested
  rw [← machine] at nested
  have values := Literal.num.inj (Option.some.inj nested)
  omega

end LispRlm.WasmEmit
