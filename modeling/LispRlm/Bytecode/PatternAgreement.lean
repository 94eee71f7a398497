import LispRlm.Bytecode.PatternChecks

/-! Where the checks of a pattern agree with `match_pattern`. -/

namespace LispRlm.Bytecode

namespace Patterns

variable {valueEq : LispVal → LispVal → Bool} {code : List Op}

/-! ### Down to every pattern that is checked -/

section Down

variable (valueEq)

mutual

/-- The check of a pattern refines `match_pattern`, and so do the checks in it that are reached. -/
def RefinesDown : LispVal → LispVal → Prop
  | .list (pat :: pats), value =>
    Refines valueEq (.list (pat :: pats)) value ∧
      if isSym "cons" pat ∧ pats.length = 2 then
        match pats, seenCons value with
        | [headPat, tailPat], some (head, tail) =>
          RefinesDown headPat head ∧ (matchPattern headPat head ≠ none → RefinesDown tailPat tail)
        | _, _ => True
      else if isSym "list" pat then
        ∀ elems, seen value pats.length = some elems → RefinesAll pats elems
      else
        ∀ elems, seen value (pats.length + 1) = some elems → RefinesAll (pat :: pats) elems
  | p, value => Refines valueEq p value

def RefinesAll : List LispVal → List LispVal → Prop
  | p :: ps, v :: vs => RefinesDown p v ∧ (matchPattern p v ≠ none → RefinesAll ps vs)
  | _, _ => True

end

end Down

/-- There is code for a pattern. -/
def Compiles (pattern : LispVal) : Prop :=
  ∃ valueSlot pc slots emitted, valueSlot < slots ∧
    compilePatternCheck valueSlot pc slots pattern = some emitted

theorem Compiles.of_isSome {pattern : LispVal}
    (found : (compilePatternCheck 0 0 1 pattern).isSome = true) : Compiles pattern := by
  rcases Option.isSome_iff_exists.mp found with ⟨emitted, compiled⟩
  exact ⟨0, 0, 1, emitted, Nat.zero_lt_one, compiled⟩

section Ends

variable {valueSlot pc slots : Nat} {emitted : Emitted} {pattern value : LispVal}

/-- Where the code of a check that refines `match_pattern` ends, it ends with its answer. -/
theorem refines_ends (apart : valueSlot < slots)
    (compiled : compilePatternCheck valueSlot pc slots pattern = some emitted)
    (refines : Refines valueEq pattern value) :
    ∃ code before, At code pc emitted.1 ∧ safeSlot before valueSlot = value ∧
      ∀ stack after,
        Reaches valueEq code ⟨pc, [], before⟩ ⟨pc + emitted.1.length, stack, after⟩ →
          stack = [.bool (matchPattern pattern value).isSome] ∧
          ∀ bindings, matchPattern pattern value = some bindings →
            bound slots emitted.2 after = bindings := by
  have placed : At (List.replicate pc .pushNil ++ emitted.1) pc emitted.1 := by
    intro i op found
    rw [List.getElem?_append_right (by simp), List.length_replicate, Nat.add_sub_cancel_left, found]
  refine ⟨_, storeSlot [] valueSlot value, placed, safeSlot_storeSlot, fun stack after ran => ?_⟩
  rcases refines _ _ _ _ compiled apart _ placed [] _ safeSlot_storeSlot with
    ⟨after', ran', -, binds⟩
  have past : (List.replicate pc Op.pushNil ++ emitted.1)[pc + emitted.1.length]? = none := by simp
  have same := reaches_unique ran ran' past past
  refine ⟨congrArg Frame.stack same, fun bindings found => ?_⟩
  have sameSlots : after = after' := congrArg Frame.slots same
  rw [sameSlots]
  exact binds bindings found

/-- The answer that the code gives is the one of `match_pattern`. -/
theorem answer_eq (apart : valueSlot < slots)
    (compiled : compilePatternCheck valueSlot pc slots pattern = some emitted)
    (refines : Refines valueEq pattern value) {answer : Option (List (String × LispVal))}
    (runs : ∀ code before, At code pc emitted.1 → safeSlot before valueSlot = value →
      ∃ after,
        Reaches valueEq code ⟨pc, [], before⟩
          ⟨pc + emitted.1.length, [.bool answer.isSome], after⟩ ∧
        ∀ bindings, answer = some bindings → bound slots emitted.2 after = bindings) :
    answer = matchPattern pattern value := by
  rcases refines_ends apart compiled refines with ⟨code, before, placed, held, ends⟩
  rcases runs code before placed held with ⟨after, ran, binds⟩
  rcases ends _ _ ran with ⟨sameStack, matched⟩
  have same : answer.isSome = (matchPattern pattern value).isSome :=
    LispVal.bool.inj (List.cons.inj sameStack).1
  cases answer with
  | none =>
    cases found : matchPattern pattern value with
    | none => rfl
    | some bindings =>
      rw [found] at same
      cases same
  | some bindings =>
    cases found : matchPattern pattern value with
    | none =>
      rw [found] at same
      cases same
    | some bindings' => rw [← binds bindings rfl, matched bindings' found]

theorem compare_eq (lit : LispVal) (op : Op)
    (emits : ∀ valueSlot pc slots,
      compilePatternCheck valueSlot pc slots pattern = some (compare valueSlot op))
    (pushes : ∀ f, exec valueEq op f = some (push lit f))
    (refines : Refines valueEq pattern value) :
    (if lispEq valueEq value lit then some [] else none) = matchPattern pattern value := by
  refine answer_eq Nat.zero_lt_one (emits 0 0 1) refines fun code before placed held => ?_
  refine ⟨before, ?_, fun bindings found => ?_⟩
  · have ran := run_compare [] before pushes placed
    rw [held] at ran
    split
    · rename_i same
      rw [same] at ran
      exact ran
    · rename_i apart
      rw [Bool.not_eq_true] at apart
      rw [apart] at ran
      exact ran
  · split at found
    · cases found
      rfl
    · cases found

theorem clean_sym {s : String} (refines : Refines valueEq (.sym s) value) :
    Clean (.sym s) value := by
  have binds (marked : startsWithMark s = false) (notAny : s ≠ "_") (notElse : s ≠ "else") :
      matchPattern (.sym s) value = some [(s, value)] := by
    simp only [matchPattern, marked, if_neg notAny, if_neg notElse, Bool.false_eq_true, if_false]
  have compared (lit : LispVal) (op : Op) (marked : startsWithMark s = false) (notAny : s ≠ "_")
      (notElse : s ≠ "else")
      (emits : ∀ valueSlot pc slots,
        compilePatternCheck valueSlot pc slots (.sym s) = some (compare valueSlot op))
      (pushes : ∀ f, exec valueEq op f = some (push lit f)) : False := by
    have same := compare_eq lit op emits pushes refines
    rw [binds marked notAny notElse] at same
    split at same
    · cases same
    · cases same
  simp only [Clean]
  refine ⟨?_, ?_, ?_⟩
  · rintro rfl
    exact compared (.bool true) (.pushBool true) (by decide) (by decide) (by decide)
      (fun _ _ _ => rfl) fun _ => rfl
  · rintro rfl
    exact compared (.bool false) (.pushBool false) (by decide) (by decide) (by decide)
      (fun _ _ _ => rfl) fun _ => rfl
  · rintro rfl
    exact compared .nil .pushNil (by decide) (by decide) (by decide) (fun _ _ _ => rfl) fun _ => rfl

theorem clean_num {n : Int64} (refines : Refines valueEq (.num n) value) :
    Clean (.num n) value := by
  simp only [Clean]
  rintro x rfl
  have same := compare_eq (.num n) (.pushI64 n) (fun _ _ _ => rfl) (fun _ => rfl) refines
  simp only [lispEq, matchPattern] at same
  cases equal : Float.ofBits x == n.toFloat with
  | false => rfl
  | true =>
    simp only [equal, if_true, reduceCtorEq] at same

theorem clean_float {f : UInt64} (refines : Refines valueEq (.float f) value) :
    Clean (.float f) value := by
  have same := compare_eq (.float f) (.pushFloat f) (fun _ _ _ => rfl) (fun _ => rfl) refines
  cases value with
  | float x =>
    simp only [Clean]
    simp only [lispEq, matchPattern] at same
    cases equal : Float.ofBits x == .ofBits f with
    | false =>
      simp only [equal, Bool.false_eq_true, if_false] at same
      split at same
      · cases same
      · rename_i far
        rw [decide_eq_false far]
    | true =>
      simp only [equal, if_true] at same
      split at same
      · rename_i near
        rw [decide_eq_true near]
      · cases same
  | num n =>
    simp only [Clean]
    simp only [lispEq, matchPattern] at same
    cases equal : n.toFloat == Float.ofBits f with
    | false => rfl
    | true =>
      simp only [equal, if_true, reduceCtorEq] at same
  | _ => simp only [Clean]

theorem clean_nil (refines : Refines valueEq .nil value) : Clean .nil value := by
  simp only [Clean]
  rintro rfl
  cases compare_eq .nil .pushNil (fun _ _ _ => rfl) (fun _ => rfl) refines

end Ends

theorem refinesDown_cons {pat headPat tailPat value : LispVal} (isCons : isSym "cons" pat = true) :
    RefinesDown valueEq (.list [pat, headPat, tailPat]) value ↔
      Refines valueEq (.list [pat, headPat, tailPat]) value ∧
        ∀ head tail, seenCons value = some (head, tail) →
          RefinesDown valueEq headPat head ∧
            (matchPattern headPat head ≠ none → RefinesDown valueEq tailPat tail) := by
  conv_lhs => unfold RefinesDown
  rw [if_pos ⟨isCons, rfl⟩]
  refine and_congr_right fun _ => ?_
  rcases seenCons value with _ | ⟨head, tail⟩
  · exact iff_of_true trivial nofun
  · constructor
    · rintro down _ _ ⟨⟩
      exact down
    · exact fun down => down head tail rfl

theorem refinesDown_elems {pat value : LispVal} {pats : List LispVal}
    (notCons : ¬(isSym "cons" pat = true ∧ pats.length = 2)) :
    RefinesDown valueEq (.list (pat :: pats)) value ↔
      Refines valueEq (.list (pat :: pats)) value ∧
        if isSym "list" pat then
          ∀ elems, seen value pats.length = some elems → RefinesAll valueEq pats elems
        else
          ∀ elems, seen value (pats.length + 1) = some elems →
            RefinesAll valueEq (pat :: pats) elems := by
  conv_lhs => unfold RefinesDown
  exact and_congr_right fun _ => iff_of_eq (if_neg notCons)

theorem cleanAll_of_refinesAll {ps : List LispVal}
    (each : ∀ p ∈ ps, ∀ v, Compiles p → RefinesDown valueEq p v → Clean p v) :
    ∀ {elemSlot pc slots checks elems}, compileChecks elemSlot pc slots ps = some checks →
      elemSlot + ps.length ≤ slots → RefinesAll valueEq ps elems → CleanAll ps elems := by
  induction ps with
  | nil =>
    intro elemSlot pc slots checks elems _ _ _
    simp only [CleanAll]
  | cons p ps ih =>
    intro elemSlot pc slots checks elems compiled room down
    cases elems with
    | nil => simp only [CleanAll]
    | cons v vs =>
      rw [List.length_cons] at room
      simp only [RefinesAll] at down
      simp only [CleanAll]
      rcases compileChecks_cons compiled with ⟨check, rest, compiledHead, compiledTail, -⟩
      refine ⟨each p List.mem_cons_self v ⟨_, _, _, _, by omega, compiledHead⟩ down.1,
        fun matched => ?_⟩
      exact ih (fun q mem => each q (List.mem_cons_of_mem _ mem)) compiledTail (by omega)
        (down.2 matched)

/-- Without patterns for elements, a value without elements leaves nothing on the stack. -/
theorem run_assemble_nil {temp : String} {valueSlot pc slots : Nat} {before : List LispVal}
    (placed : At code pc (assemble temp valueSlot pc slots 0 ([], [])).1)
    (empty : length (safeSlot before valueSlot) = .ofNat 0) :
    Reaches valueEq code ⟨pc, [], before⟩
      ⟨pc + (assemble temp valueSlot pc slots 0 ([], [])).1.length, [], before⟩ := by
  simp only [assemble] at placed
  have test : Reaches valueEq code ⟨pc, [], before⟩
      ⟨if length (safeSlot before valueSlot) = .ofNat 0 then pc + 5 else
        pc + 5 + 4 * 0 + chainLength [] + 1, [], before⟩ :=
    run_lengthTest placed.left.left.left
  rw [if_pos empty] at test
  exact test.trans (Reaches.step placed.right.head rfl .refl)

theorem clean_of_refinesDown {p : LispVal} :
    ∀ v, Compiles p → RefinesDown valueEq p v → Clean p v := by
  induction p using pattern_induct with
  | list pats each =>
    rintro v ⟨valueSlot, pc, slots, emitted, apart, compiled⟩ down
    cases pats with
    | nil => simp only [Clean]
    | cons pat pats =>
      by_cases isCons : isSym "cons" pat = true ∧ pats.length = 2
      · rcases pats with _ | ⟨headPat, _ | ⟨tailPat, _ | ⟨_, _⟩⟩⟩
        · cases isCons.2
        · cases isCons.2
        · rw [refinesDown_cons isCons.1] at down
          rw [clean_cons isCons.1]
          have compiledCons := compiled
          rw [compile_cons isCons.1] at compiledCons
          rcases Option.bind_eq_some_iff.mp compiledCons with ⟨head, compiledHead, compiledRest⟩
          rcases Option.bind_eq_some_iff.mp compiledRest with ⟨tail, compiledTail, same⟩
          cases same
          have inner (h t : LispVal) (saw : seenCons v = some (h, t)) :
              Clean headPat h ∧ (matchPattern headPat h ≠ none → Clean tailPat t) := by
            rcases down.2 h t saw with ⟨downHead, downTail⟩
            refine ⟨each headPat (by simp) h ⟨_, _, _, _, ?_, compiledHead⟩ downHead,
              fun matched => each tailPat (by simp) t ⟨_, _, _, _, ?_, compiledTail⟩
                (downTail matched)⟩
            · omega
            · omega
          have answer : ((seenCons v).bind fun p => matchAll [headPat, tailPat] [p.1, p.2]) =
              matchPattern (.list [pat, headPat, tailPat]) v := by
            refine answer_eq apart compiled down.1 fun code before placed held => ?_
            subst held
            rcases run_cons [] apart (fun v clean => refines_of_clean clean)
              (fun v clean => refines_of_clean clean) compiledHead compiledTail placed inner with
              ⟨after, ran, -, binds⟩
            exact ⟨after, ran, binds⟩
          rcases saw : seenCons v with _ | ⟨h, t⟩
          · rw [saw] at answer
            exact answer.symm
          · rw [saw] at answer
            rcases inner h t saw with ⟨cleanHead, cleanTail⟩
            exact ⟨cleanHead, cleanTail, answer⟩
        · cases isCons.2
      · rw [refinesDown_elems isCons] at down
        rw [clean_elems isCons]
        have elements (temp : String) (ps : List LispVal) (checks : List (List Op) × List Entry)
            (within : ∀ p ∈ ps, p ∈ pat :: pats)
            (compiledChecks : compileChecks slots (pc + 5 + 4 * ps.length) (slots + ps.length) ps =
              some checks)
            (same : assemble temp valueSlot pc slots ps.length checks = emitted)
            (down' : ∀ elems, seen v ps.length = some elems → RefinesAll valueEq ps elems) :
            (∀ elems, seen v ps.length = some elems → ps ≠ [] ∧ CleanAll ps elems ∧
              matchAll ps elems = matchPattern (.list (pat :: pats)) v) ∧
            (seen v ps.length = none → matchPattern (.list (pat :: pats)) v = none) := by
          subst same
          have inner (elems : List LispVal) (saw : seen v ps.length = some elems) :
              ps ≠ [] ∧ CleanAll ps elems := by
            refine ⟨?_, cleanAll_of_refinesAll (fun p mem => each p (within p mem)) compiledChecks
              (by omega) (down' elems saw)⟩
            rintro rfl
            simp only [compileChecks, Option.some.injEq] at compiledChecks
            subst compiledChecks
            rcases refines_ends apart compiled down.1 with ⟨code, before, placed, held, ends⟩
            have empty : length v = .ofNat ([] : List LispVal).length := by
              by_contra other
              rw [seen, if_neg other] at saw
              cases saw
            rw [← held] at empty
            cases (ends _ _ (run_assemble_nil placed empty)).1
          have answer : ((seen v ps.length).bind (matchAll ps)) =
              matchPattern (.list (pat :: pats)) v := by
            refine answer_eq apart compiled down.1 fun code before placed held => ?_
            subst held
            rcases run_assemble [] (fun p _ v clean => refines_of_clean clean) apart
              compiledChecks placed inner with ⟨after, ran, -, binds⟩
            exact ⟨after, ran, binds⟩
          constructor
          · intro elems saw
            rw [saw] at answer
            rcases inner elems saw with ⟨nonempty, clean⟩
            exact ⟨nonempty, clean, answer⟩
          · intro saw
            rw [saw] at answer
            exact answer.symm
        have compiledElems := compiled
        rw [compile_elems isCons] at compiledElems
        split at compiledElems
        · rename_i isList
          rw [if_pos isList]
          rw [if_pos isList] at down
          rcases Option.map_eq_some_iff.mp compiledElems with ⟨checks, compiledChecks, same⟩
          have whole := elements _ pats checks (fun p => List.mem_cons_of_mem pat) compiledChecks
            same down.2
          split
          · rename_i saw
            exact whole.1 _ saw
          · rename_i saw
            exact whole.2 saw
        · rename_i notList
          rw [if_neg notList]
          rw [if_neg notList] at down
          rcases Option.map_eq_some_iff.mp compiledElems with ⟨checks, compiledChecks, same⟩
          have whole := elements _ (pat :: pats) checks (fun p mem => mem) compiledChecks same
            down.2
          rw [List.length_cons] at whole
          split
          · rename_i saw
            exact (whole.1 _ saw).2
          · rename_i saw
            exact whole.2 saw

  | other p notList =>
    rintro v - down
    cases p with
    | list pats => exact absurd rfl (notList pats)
    | sym s =>
      simp only [RefinesDown] at down
      exact clean_sym down
    | num n =>
      simp only [RefinesDown] at down
      exact clean_num down
    | float f =>
      simp only [RefinesDown] at down
      exact clean_float down
    | nil =>
      simp only [RefinesDown] at down
      exact clean_nil down
    | _ => simp only [Clean]

theorem refinesAll_of_cleanAll {ps : List LispVal}
    (each : ∀ p ∈ ps, ∀ v, Clean p v → RefinesDown valueEq p v) :
    ∀ {elems}, CleanAll ps elems → RefinesAll valueEq ps elems := by
  induction ps with
  | nil =>
    intro elems _
    simp only [RefinesAll]
  | cons p ps ih =>
    intro elems clean
    cases elems with
    | nil => simp only [RefinesAll]
    | cons v vs =>
      simp only [CleanAll] at clean
      simp only [RefinesAll]
      exact ⟨each p List.mem_cons_self v clean.1, fun matched =>
        ih (fun q mem => each q (List.mem_cons_of_mem _ mem)) (clean.2 matched)⟩

theorem refinesDown_of_clean {p : LispVal} : ∀ v, Clean p v → RefinesDown valueEq p v := by
  induction p using pattern_induct with
  | list pats each =>
    intro v clean
    have refines : Refines valueEq (.list pats) v := refines_of_clean clean
    cases pats with
    | nil =>
      simp only [RefinesDown]
      exact refines
    | cons pat pats =>
      by_cases isCons : isSym "cons" pat = true ∧ pats.length = 2
      · rcases pats with _ | ⟨headPat, _ | ⟨tailPat, _ | ⟨_, _⟩⟩⟩
        · cases isCons.2
        · cases isCons.2
        · rw [clean_cons isCons.1] at clean
          rw [refinesDown_cons isCons.1]
          refine ⟨refines, fun head tail saw => ?_⟩
          rw [saw] at clean
          exact ⟨each headPat (by simp) head clean.1, fun matched =>
            each tailPat (by simp) tail (clean.2.1 matched)⟩
        · cases isCons.2
      · rw [clean_elems isCons] at clean
        rw [refinesDown_elems isCons]
        refine ⟨refines, ?_⟩
        split
        · rename_i isList
          rw [if_pos isList] at clean
          intro elems saw
          rw [saw] at clean
          exact refinesAll_of_cleanAll (fun p mem => each p (List.mem_cons_of_mem _ mem)) clean.2.1
        · rename_i notList
          rw [if_neg notList] at clean
          intro elems saw
          rw [saw] at clean
          exact refinesAll_of_cleanAll each clean.1
  | other p notList =>
    intro v clean
    have refines : Refines valueEq p v := refines_of_clean clean
    cases p with
    | list pats => exact absurd rfl (notList pats)
    | _ =>
      simp only [RefinesDown]
      exact refines

def pairPattern : LispVal := .list [.sym "list", .sym "?x", .str "a"]

theorem pairPattern_compiles : Compiles pairPattern := by
  have notCons :
      ¬(isSym "cons" (.sym "list") = true ∧ [LispVal.sym "?x", .str "a"].length = 2) := by
    decide
  have isList : isSym "list" (.sym "list") = true := by decide
  refine .of_isSome ?_
  rw [pairPattern, compile_elems notCons, if_pos isList]
  rfl

theorem pairPattern_clean : Clean pairPattern (.list [.num 1, .str "a"]) := by
  have notCons :
      ¬(isSym "cons" (.sym "list") = true ∧ [LispVal.sym "?x", .str "a"].length = 2) := by
    decide
  have isList : isSym "list" (.sym "list") = true := by decide
  have sees : seen (.list [.num 1, .str "a"]) [LispVal.sym "?x", .str "a"].length =
      some [.num 1, .str "a"] := rfl
  rw [pairPattern, clean_elems notCons, if_pos isList, sees]
  refine ⟨List.cons_ne_nil _ _, ?_, rfl⟩
  simp [CleanAll, Clean]

end Patterns

end LispRlm.Bytecode
