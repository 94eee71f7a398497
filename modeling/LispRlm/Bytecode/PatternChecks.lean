import LispRlm.Bytecode.Patterns

/-! Running the code of a pattern's check. -/

namespace LispRlm.Bytecode

namespace Patterns

variable {valueEq : LispVal → LispVal → Bool} {code : List Op}

/-! ### Code in its place -/

namespace At

variable {pc : Nat} {op : Op} {ops ops' : List Op}

theorem head (placed : At code pc (op :: ops)) : code[pc]? = some op := placed 0 op rfl

theorem tail (placed : At code pc (op :: ops)) : At code (pc + 1) ops := by
  intro i op' found
  have shifted := placed (i + 1) op' found
  rw [Nat.add_assoc, Nat.add_comm 1]
  exact shifted

theorem left (placed : At code pc (ops ++ ops')) : At code pc ops := by
  intro i op found
  refine placed i op ?_
  rw [List.getElem?_append_left (List.getElem?_eq_some_iff.mp found).1, found]

theorem right (placed : At code pc (ops ++ ops')) : At code (pc + ops.length) ops' := by
  intro i op found
  have shifted := placed (ops.length + i) op
  rw [List.getElem?_append_right (Nat.le_add_right _ _), Nat.add_sub_cancel_left] at shifted
  rw [Nat.add_assoc]
  exact shifted found

theorem at_eq (placed : At code pc ops) (pc' : Nat) (same : pc = pc') : At code pc' ops :=
  same ▸ placed

end At

theorem Reaches.step {op : Op} {f g h : Frame} (found : code[f.pc]? = some op)
    (ran : exec valueEq op f = some g) (later : Reaches valueEq code g h) :
    Reaches valueEq code f h :=
  .head ⟨op, found, ran⟩ later

theorem steps_unique {f g h : Frame} (one : Steps valueEq code f g)
    (other : Steps valueEq code f h) : g = h := by
  rcases one with ⟨op, found, ran⟩
  rcases other with ⟨op', found', ran'⟩
  cases found.symm.trans found'
  exact Option.some.inj (ran.symm.trans ran')

/-- A run from a frame to one past the code is the only one. -/
theorem reaches_unique {f g h : Frame} (one : Reaches valueEq code f g)
    (other : Reaches valueEq code f h) (stuck : code[g.pc]? = none) (stuck' : code[h.pc]? = none) :
    g = h := by
  have last {a b : Frame} (past : code[a.pc]? = none) (run : Reaches valueEq code a b) : a = b := by
    rcases run.cases_head with same | ⟨c, ⟨op, found, -⟩, -⟩
    · exact same
    · cases past.symm.trans found
  have unique : Relator.RightUnique (Steps valueEq code) := fun _ _ _ => steps_unique
  rcases Relation.ReflTransGen.total_of_right_unique unique one other with later | later
  · exact last stuck later
  · exact (last stuck' later).symm

/-! ### Slots -/

section Slots

variable {slots : List LispVal} {i j : Nat} {v : LispVal}

theorem safeSlot_storeSlot : safeSlot (storeSlot slots i v) i = v := by
  have room : i < (slots ++ List.replicate (i + 1 - slots.length) LispVal.nil).length := by
    rw [List.length_append, List.length_replicate]
    omega
  rw [safeSlot, storeSlot, List.getElem?_set_self room]
  rfl

theorem safeSlot_storeSlot_ne (apart : i ≠ j) :
    safeSlot (storeSlot slots i v) j = safeSlot slots j := by
  rw [safeSlot, storeSlot, List.getElem?_set_ne apart, List.getElem?_append]
  split
  · rfl
  · rename_i out
    rw [safeSlot, List.getElem?_eq_none (Nat.le_of_not_lt out), List.getElem?_replicate]
    split <;> rfl

theorem bindSlots_append (slot : Nat) (entries more : List Entry) :
    bindSlots slot (entries ++ more) =
      bindSlots slot entries ++ bindSlots (slot + entries.length) more := by
  induction entries generalizing slot with
  | nil => rfl
  | cons entry entries ih =>
    have shift : slot + 1 + entries.length = slot + (entry :: entries).length := by
      rw [List.length_cons]
      omega
    cases entry with
    | temp name => rw [List.cons_append, bindSlots, ih, shift, bindSlots]
    | bind name => rw [List.cons_append, bindSlots, ih, shift, bindSlots, List.cons_append]

theorem bindSlots_temps (slot : Nat) (entries : List Entry)
    (temps : ∀ e ∈ entries, ∃ name, e = .temp name) : bindSlots slot entries = [] := by
  induction entries generalizing slot with
  | nil => rfl
  | cons entry entries ih =>
    rcases temps entry List.mem_cons_self with ⟨name, rfl⟩
    exact ih _ fun e he => temps e (List.mem_cons_of_mem _ he)

theorem bindSlots_bounds {slot : Nat} {entries : List Entry} {b : String × Nat}
    (found : b ∈ bindSlots slot entries) : slot ≤ b.2 ∧ b.2 < slot + entries.length := by
  induction entries generalizing slot with
  | nil => cases found
  | cons entry entries ih =>
    rw [List.length_cons]
    cases entry with
    | temp name =>
      have bounds := ih found
      omega
    | bind name =>
      rcases List.mem_cons.mp found with rfl | later
      · dsimp only
        omega
      · have bounds := ih later
        omega

theorem bound_append (slot : Nat) (entries more : List Entry) :
    bound slot (entries ++ more) slots =
      bound slot entries slots ++ bound (slot + entries.length) more slots := by
  rw [bound, bindSlots_append, List.map_append]
  rfl

/-- Bindings keep what they hold where their slots are kept. -/
theorem bound_congr {slot : Nat} {entries : List Entry} {after : List LispVal}
    (kept : ∀ i < slot + entries.length, safeSlot after i = safeSlot slots i) :
    bound slot entries after = bound slot entries slots :=
  List.map_congr_left fun b found => by rw [kept b.2 (bindSlots_bounds found).2]

end Slots

/-! ### Patterns without elements -/

theorem run_bindTo {valueSlot pc slotIdx : Nat} {name : String} {stack before : List LispVal}
    (placed : At code pc (bindTo name valueSlot slotIdx).1) :
    Reaches valueEq code ⟨pc, stack, before⟩
      ⟨pc + 3, .bool true :: stack, storeSlot before slotIdx (safeSlot before valueSlot)⟩ := by
  have load : code[pc]? = some (.loadSlot valueSlot) := placed.head
  have store : code[pc + 1]? = some (.storeSlot slotIdx) := placed.tail.head
  have push : code[pc + 1 + 1]? = some (.pushBool true) := placed.tail.tail.head
  apply Reaches.step load rfl
  apply Reaches.step store rfl
  exact Reaches.step push rfl .refl

theorem run_compare {valueSlot pc : Nat} {op : Op} {v : LispVal} (stack before : List LispVal)
    (pushes : ∀ f, exec valueEq op f = some (push v f))
    (placed : At code pc (compare valueSlot op).1) :
    Reaches valueEq code ⟨pc, stack, before⟩
      ⟨pc + 3, .bool (lispEq valueEq (safeSlot before valueSlot) v) :: stack, before⟩ := by
  have load : code[pc]? = some (.loadSlot valueSlot) := placed.head
  have push : code[pc + 1]? = some op := placed.tail.head
  have eq : code[pc + 1 + 1]? = some .eq := placed.tail.tail.head
  apply Reaches.step load rfl
  apply Reaches.step push (pushes _)
  exact Reaches.step eq rfl .refl

theorem refines_compare {pattern value : LispVal} (lit : LispVal) (op : Op)
    (emits : ∀ valueSlot pc slots,
      compilePatternCheck valueSlot pc slots pattern = some (compare valueSlot op))
    (pushes : ∀ f, exec valueEq op f = some (push lit f))
    (same : lispEq valueEq value lit = (matchPattern pattern value).isSome)
    (bindsNone : ∀ bindings, matchPattern pattern value = some bindings → bindings = []) :
    Refines valueEq pattern value := by
  intro valueSlot pc slots emitted compiled _ code placed stack before held
  rw [emits] at compiled
  cases compiled
  refine ⟨before, ?_, fun _ _ => rfl, fun bindings found => (bindsNone bindings found).symm⟩
  have run := run_compare stack before pushes placed
  rw [held, same] at run
  exact run

theorem refines_bindTo {pattern value : LispVal} (name : String)
    (emits : ∀ valueSlot pc slots,
      compilePatternCheck valueSlot pc slots pattern = some (bindTo name valueSlot slots))
    (binds : matchPattern pattern value = some [(name, value)]) :
    Refines valueEq pattern value := by
  intro valueSlot pc slots emitted compiled _ code placed stack before held
  rw [emits] at compiled
  cases compiled
  refine ⟨storeSlot before slots value, ?_, fun i below => ?_, fun bindings found => ?_⟩
  · rw [binds, ← held]
    exact run_bindTo placed
  · exact safeSlot_storeSlot_ne (Nat.ne_of_gt below)
  · cases binds.symm.trans found
    simp only [bindTo, bound, bindSlots, List.map_cons, List.map_nil, safeSlot_storeSlot]

theorem refines_sym {s : String} {value : LispVal} (clean : Clean (.sym s) value) :
    Refines valueEq (.sym s) value := by
  simp only [Clean] at clean
  rcases clean with ⟨notTrue, notFalse, notNil⟩
  by_cases marked : startsWithMark s = true
  · have notAny : s ≠ "_" := by
      rintro rfl
      revert marked
      decide
    have notElse : s ≠ "else" := by
      rintro rfl
      revert marked
      decide
    refine refines_bindTo (strip s) (fun valueSlot pc slots => ?_) ?_
    · simp only [compilePatternCheck, marked, if_true]
    · simp only [matchPattern, marked, if_neg notAny, if_neg notElse, if_true]
  · by_cases any : s = "_"
    · intro valueSlot pc slots emitted compiled _ code placed stack before held
      simp only [compilePatternCheck, if_neg marked, if_pos any] at compiled
      cases compiled
      refine ⟨before, ?_, fun _ _ => rfl, fun bindings found => ?_⟩
      · simp only [matchPattern, if_pos any]
        exact .step placed.head rfl .refl
      · simp only [matchPattern, if_pos any] at found
        cases found
        rfl
    · by_cases isElse : s = "else"
      · intro valueSlot pc slots emitted compiled
        simp only [compilePatternCheck, if_neg marked, if_neg any, if_neg notTrue, if_neg notFalse,
          if_neg notNil, if_pos isElse] at compiled
        cases compiled
      · refine refines_bindTo s (fun valueSlot pc slots => ?_) ?_
        · simp only [compilePatternCheck, if_neg marked, if_neg any, if_neg notTrue,
            if_neg notFalse, if_neg notNil, if_neg isElse]
        · simp only [matchPattern, if_neg marked, if_neg any, if_neg isElse]

example : startsWithMark "?x" ∧ strip "?x" = "x" := by decide +kernel

theorem refines_num {n : Int64} {value : LispVal} (clean : Clean (.num n) value) :
    Refines valueEq (.num n) value := by
  simp only [Clean] at clean
  refine refines_compare (.num n) (.pushI64 n) (fun _ _ _ => ?_) (fun _ => rfl) ?_ ?_
  · simp only [compilePatternCheck]
  · cases value with
    | num m => by_cases same : m = n <;> simp [lispEq, matchPattern, same]
    | float x => simp [lispEq, matchPattern, clean x rfl]
    | _ => rfl
  · intro bindings found
    cases value with
    | num m =>
      simp only [matchPattern] at found
      split at found
      · exact (Option.some.inj found).symm
      · cases found
    | _ => cases found

theorem refines_float {f : UInt64} {value : LispVal} (clean : Clean (.float f) value) :
    Refines valueEq (.float f) value := by
  refine refines_compare (.float f) (.pushFloat f) (fun _ _ _ => ?_) (fun _ => rfl) ?_ ?_
  · simp only [compilePatternCheck]
  · cases value with
    | num n =>
      simp only [Clean] at clean
      simp only [lispEq, matchPattern, clean, Option.isSome_none]
    | float x =>
      simp only [Clean] at clean
      simp only [lispEq, matchPattern, clean]
      split <;> simp [*]
    | _ => rfl
  · intro bindings found
    cases value with
    | float x =>
      simp only [matchPattern] at found
      split at found
      · exact (Option.some.inj found).symm
      · cases found
    | _ => cases found

theorem refines_bool {b : Bool} {value : LispVal} : Refines valueEq (.bool b) value := by
  refine refines_compare (.bool b) (.pushBool b) (fun _ _ _ => ?_) (fun _ => rfl) ?_ ?_
  · simp only [compilePatternCheck]
  · cases value with
    | bool c => by_cases same : c = b <;> simp [lispEq, matchPattern, same]
    | _ => rfl
  · intro bindings found
    cases value with
    | bool c =>
      simp only [matchPattern] at found
      split at found
      · exact (Option.some.inj found).symm
      · cases found
    | _ => cases found

theorem refines_str {s : String} {value : LispVal} : Refines valueEq (.str s) value := by
  refine refines_compare (.str s) (.pushStr s) (fun _ _ _ => ?_) (fun _ => rfl) ?_ ?_
  · simp only [compilePatternCheck]
  · cases value with
    | str t => by_cases same : t = s <;> simp [lispEq, matchPattern, same]
    | _ => rfl
  · intro bindings found
    cases value with
    | str t =>
      simp only [matchPattern] at found
      split at found
      · exact (Option.some.inj found).symm
      · cases found
    | _ => cases found

theorem refines_nil {value : LispVal} (clean : Clean .nil value) :
    Refines valueEq .nil value := by
  simp only [Clean] at clean
  refine refines_compare .nil .pushNil (fun _ _ _ => ?_) (fun _ => rfl) ?_ ?_
  · simp only [compilePatternCheck]
  · cases value with
    | nil => exact absurd rfl clean
    | _ => rfl
  · intro bindings found
    cases found

/-! ### The elements -/

theorem loadElems_succ (valueSlot slot n : Nat) :
    loadElems valueSlot slot (n + 1) =
      loadElems valueSlot slot n ++ loadElem valueSlot slot n := by
  simp only [loadElems, List.range_succ, List.flatMap_append, List.flatMap_cons, List.flatMap_nil,
    List.append_nil]

theorem loadElems_length (valueSlot slot n : Nat) :
    (loadElems valueSlot slot n).length = 4 * n := by
  induction n with
  | zero => rfl
  | succ n ih =>
    rw [loadElems_succ, List.length_append, ih]
    rfl

theorem run_loadElem {valueSlot slot pc i : Nat} {stack before : List LispVal}
    (placed : At code pc (loadElem valueSlot slot i)) :
    Reaches valueEq code ⟨pc, stack, before⟩
      ⟨pc + 4, stack, storeSlot before (slot + i)
        (nth (safeSlot before valueSlot) (.num (.ofNat i)))⟩ :=
  .step placed.head rfl (.step placed.tail.head rfl
    (.step placed.tail.tail.head rfl (.step placed.tail.tail.tail.head rfl .refl)))

theorem run_loadElems {valueSlot slot pc : Nat} (apart : valueSlot < slot) {stack : List LispVal}
    {before : List LispVal} (n : Nat) (placed : At code pc (loadElems valueSlot slot n)) :
    ∃ after,
      Reaches valueEq code ⟨pc, stack, before⟩ ⟨pc + 4 * n, stack, after⟩ ∧
      (∀ i < slot, safeSlot after i = safeSlot before i) ∧
      ∀ i < n, safeSlot after (slot + i) = nth (safeSlot before valueSlot) (.num (.ofNat i)) := by
  induction n with
  | zero => exact ⟨before, .refl, fun _ _ => rfl, fun i below => absurd below (Nat.not_lt_zero i)⟩
  | succ n ih =>
    rw [loadElems_succ] at placed
    rcases ih placed.left with ⟨middle, ran, kept, loaded⟩
    have last := placed.right
    rw [loadElems_length] at last
    refine ⟨_, ran.trans (run_loadElem last), fun i below => ?_, fun i below => ?_⟩
    · rw [safeSlot_storeSlot_ne (by omega), kept i below]
    · rw [kept valueSlot apart]
      by_cases same : i = n
      · rw [same, safeSlot_storeSlot]
      · rw [safeSlot_storeSlot_ne (by omega), loaded i (by omega)]

theorem chain_cons (fail : Nat) (check next : List Op) (checks : List (List Op)) :
    chain fail (check :: next :: checks) =
      check ++ .jumpIfFalse fail :: chain fail (next :: checks) := rfl

theorem chain_length (fail : Nat) (checks : List (List Op)) :
    (chain fail checks).length = chainLength checks := by
  rw [chainLength]
  induction checks with
  | nil => rfl
  | cons check checks ih =>
    cases checks with
    | nil => rfl
    | cons next checks =>
      rw [chain_cons, chain_cons, List.length_append, List.length_append, List.length_cons,
        List.length_cons, ih]

theorem compileChecks_cons {elemSlot pc slots : Nat} {p : LispVal} {ps : List LispVal}
    {checks : List (List Op) × List Entry}
    (compiled : compileChecks elemSlot pc slots (p :: ps) = some checks) :
    ∃ check rest, compilePatternCheck elemSlot pc slots p = some check ∧
      compileChecks (elemSlot + 1) (pc + check.1.length + 1) (slots + check.2.length) ps =
        some rest ∧
      checks = (check.1 :: rest.1, check.2 ++ rest.2) := by
  simp only [compileChecks, Option.bind_eq_bind, Option.bind_eq_some_iff] at compiled
  rcases compiled with ⟨check, compiledHead, rest, compiledTail, same⟩
  exact ⟨check, rest, compiledHead, compiledTail, (Option.some.inj same).symm⟩

/-- Where the checks of a list's elements end: with the last check's answer, or at the failure
block. -/
structure Answers (valueEq : LispVal → LispVal → Bool) (code : List Op) (start : Frame)
    (endPc fail slots : Nat) (entries : List Entry) (answer : Option (List (String × LispVal)))
    (after : List LispVal) : Prop where
  kept : ∀ i < slots, safeSlot after i = safeSlot start.slots i
  matched : ∀ bindings, answer = some bindings →
    Reaches valueEq code start ⟨endPc, .bool true :: start.stack, after⟩ ∧
      bound slots entries after = bindings
  failed : answer = none →
    Reaches valueEq code start ⟨endPc, .bool false :: start.stack, after⟩ ∨
      Reaches valueEq code start ⟨fail, start.stack, after⟩

theorem run_checks {fail : Nat} {stack : List LispVal} (ps : List LispVal)
    (refines : ∀ p ∈ ps, ∀ v, Clean p v → Refines valueEq p v) :
    ∀ {elemSlot pc slots checks elems before},
      compileChecks elemSlot pc slots ps = some checks → ps ≠ [] →
      elemSlot + ps.length ≤ slots → At code pc (chain fail checks.1) → CleanAll ps elems →
      elems.length = ps.length →
      (∀ i < ps.length, elems[i]? = some (safeSlot before (elemSlot + i))) →
      ∃ after, Answers valueEq code ⟨pc, stack, before⟩ (pc + (chain fail checks.1).length) fail
        slots checks.2 (matchAll ps elems) after := by
  induction ps with
  | nil => exact fun _ nonempty => absurd rfl nonempty
  | cons p ps ih =>
    intro elemSlot pc slots checks elems before compiled _ room placed clean sameLength held
    cases elems with
    | nil => cases sameLength
    | cons v vs =>
      simp only [CleanAll] at clean
      rw [List.length_cons] at room
      rcases compileChecks_cons compiled with ⟨check, rest, compiledHead, compiledTail, rfl⟩
      have heldHead : safeSlot before elemSlot = v :=
        (Option.some.inj (held 0 (Nat.succ_pos _))).symm
      have runHead (placedHead : At code pc check.1) :=
        refines p List.mem_cons_self v clean.1 elemSlot pc slots check compiledHead (by omega)
          code placedHead stack before heldHead
      simp only [matchAll]
      cases ps with
      | nil =>
        simp only [compileChecks, Option.some.injEq] at compiledTail
        cases compiledTail
        rcases runHead placed with ⟨after, ran, kept, binds⟩
        refine ⟨after, kept, fun bindings matched => ?_, fun unmatched => ?_⟩
        · cases found : matchPattern p v with
          | none =>
            rw [found] at matched
            cases matched
          | some b =>
            rw [found] at matched ran
            simp only [matchAll, Option.bind_eq_bind, Option.bind_some, Option.some.injEq]
              at matched
            rw [← matched, List.append_nil, List.append_nil]
            exact ⟨ran, binds b found⟩
        · cases found : matchPattern p v with
          | none =>
            rw [found] at ran
            exact .inl ran
          | some b =>
            rw [found] at unmatched
            simp only [matchAll, Option.bind_eq_bind, Option.bind_some, reduceCtorEq] at unmatched
      | cons q qs =>
        rcases compileChecks_cons compiledTail with ⟨next, more, -, -, same⟩
        have joined : chain fail (check.1 :: rest.1) =
            check.1 ++ .jumpIfFalse fail :: chain fail rest.1 := by
          rw [same, chain_cons]
        rw [joined] at placed ⊢
        rcases runHead placed.left with ⟨middle, ran, kept, binds⟩
        have jump := placed.right.head
        cases found : matchPattern p v with
        | none =>
          rw [found] at ran
          refine ⟨middle, kept, fun bindings matched => ?_, fun _ => .inr ?_⟩
          · cases matched
          · exact ran.trans (Reaches.step jump rfl .refl)
        | some b =>
          rw [found] at ran
          have heldTail (i : Nat) (below : i < (q :: qs).length) :
              vs[i]? = some (safeSlot middle (elemSlot + 1 + i)) := by
            have later := held (i + 1) (Nat.succ_lt_succ below)
            rw [List.getElem?_cons_succ] at later
            rw [kept _ (by omega), later, Nat.add_assoc, Nat.add_comm 1]
          rcases ih (fun p' mem => refines p' (List.mem_cons_of_mem _ mem)) compiledTail
            (List.cons_ne_nil _ _) (by omega) placed.right.tail
            (clean.2 (by rw [found]; exact Option.some_ne_none b)) (Nat.succ.inj sameLength)
            heldTail with ⟨after, keptTail, matchedTail, failedTail⟩
          have goes (f : Frame) (later : Reaches valueEq code
              ⟨pc + check.1.length + 1, stack, middle⟩ f) :
              Reaches valueEq code ⟨pc, stack, before⟩ f :=
            ran.trans (Reaches.step jump rfl later)
          have endPc : pc + (check.1 ++ .jumpIfFalse fail :: chain fail rest.1).length =
              pc + check.1.length + 1 + (chain fail rest.1).length := by
            rw [List.length_append, List.length_cons]
            omega
          rw [endPc]
          refine ⟨after, fun i below => ?_, fun bindings matched => ?_, fun unmatched => ?_⟩
          · exact (keptTail i (by omega)).trans (kept i below)
          · cases foundTail : matchAll (q :: qs) vs with
            | none =>
              rw [foundTail] at matched
              cases matched
            | some bs =>
              rw [foundTail] at matched
              cases matched
              rcases matchedTail bs foundTail with ⟨ranTail, boundTail⟩
              refine ⟨goes _ ranTail, ?_⟩
              rw [bound_append, boundTail, bound_congr keptTail, binds b found]
          · cases foundTail : matchAll (q :: qs) vs with
            | none => exact (failedTail foundTail).imp (goes _) (goes _)
            | some bs =>
              rw [foundTail] at unmatched
              cases unmatched

theorem run_lengthTest {valueSlot pc n fail : Nat} {stack before : List LispVal}
    (placed : At code pc (lengthTest valueSlot n fail)) :
    Reaches valueEq code ⟨pc, stack, before⟩
      ⟨if length (safeSlot before valueSlot) = .ofNat n then pc + 5 else fail, stack, before⟩ := by
  have compared : Reaches valueEq code ⟨pc, stack, before⟩
      ⟨pc + 4, .bool (decide (length (safeSlot before valueSlot) = .ofNat n)) :: stack, before⟩ :=
    .step placed.head rfl (.step placed.tail.head rfl (.step placed.tail.tail.head rfl
      (.step placed.tail.tail.tail.head rfl .refl)))
  have jump := placed.tail.tail.tail.tail.head
  by_cases same : length (safeSlot before valueSlot) = .ofNat n
  · rw [decide_eq_true same] at compared
    rw [if_pos same]
    exact compared.trans (Reaches.step jump rfl .refl)
  · rw [decide_eq_false same] at compared
    rw [if_neg same]
    exact compared.trans (Reaches.step jump rfl .refl)

theorem assemble_length (temp : String) (valueSlot pc slots n : Nat)
    (checks : List (List Op) × List Entry) :
    (assemble temp valueSlot pc slots n checks).1.length =
      5 + 4 * n + chainLength checks.1 + 2 := by
  simp only [assemble, List.length_append, loadElems_length, chain_length]
  rfl

theorem bound_assemble (temp : String) (valueSlot pc slots n : Nat)
    (checks : List (List Op) × List Entry) (after : List LispVal) :
    bound slots (assemble temp valueSlot pc slots n checks).2 after =
      bound (slots + n) checks.2 after := by
  simp only [assemble, bound_append, List.length_map, List.length_range]
  have none :
      bindSlots slots ((List.range n).map fun i => Entry.temp (temp ++ toString i)) = [] := by
    refine bindSlots_temps _ _ fun e found => ?_
    rcases List.mem_map.mp found with ⟨i, -, rfl⟩
    exact ⟨_, rfl⟩
  rw [bound, none, List.map_nil, List.nil_append]

theorem run_assemble {temp : String} {valueSlot pc slots : Nat}
    {checks : List (List Op) × List Entry} {ps : List LispVal} (stack : List LispVal)
    {before : List LispVal} (refines : ∀ p ∈ ps, ∀ v, Clean p v → Refines valueEq p v)
    (apart : valueSlot < slots)
    (compiled : compileChecks slots (pc + 5 + 4 * ps.length) (slots + ps.length) ps = some checks)
    (placed : At code pc (assemble temp valueSlot pc slots ps.length checks).1)
    (clean : ∀ elems, seen (safeSlot before valueSlot) ps.length = some elems →
      ps ≠ [] ∧ CleanAll ps elems) :
    ∃ after,
      Reaches valueEq code ⟨pc, stack, before⟩
        ⟨pc + (assemble temp valueSlot pc slots ps.length checks).1.length,
          .bool ((seen (safeSlot before valueSlot) ps.length).bind (matchAll ps)).isSome :: stack,
          after⟩ ∧
      (∀ i < slots, safeSlot after i = safeSlot before i) ∧
      ∀ bindings, (seen (safeSlot before valueSlot) ps.length).bind (matchAll ps) = some bindings →
        bound slots (assemble temp valueSlot pc slots ps.length checks).2 after = bindings := by
  rw [assemble_length]
  simp only [bound_assemble]
  simp only [assemble] at placed
  obtain ⟨join, joined⟩ : ∃ join, join = pc + 5 + 4 * ps.length + chainLength checks.1 := ⟨_, rfl⟩
  rw [← joined] at placed
  have test : Reaches valueEq code ⟨pc, stack, before⟩
      ⟨if length (safeSlot before valueSlot) = .ofNat ps.length then pc + 5 else join + 1, stack,
        before⟩ :=
    run_lengthTest placed.left.left.left
  have loads := placed.left.left.right
  have checked := placed.left.right.at_eq (pc + 5 + 4 * ps.length) (by
    rw [List.length_append, loadElems_length, lengthTest]
    simp only [List.length_cons, List.length_nil]
    omega)
  have ends := placed.right.at_eq join (by
    simp only [List.length_append, loadElems_length, chain_length, lengthTest, List.length_cons,
      List.length_nil]
    omega)
  have endPc : pc + (5 + 4 * ps.length + chainLength checks.1 + 2) = join + 2 := by omega
  rw [endPc]
  have answered (b : Bool) (after : List LispVal) :
      Reaches valueEq code ⟨join, .bool b :: stack, after⟩
        ⟨join + 2, .bool b :: stack, after⟩ :=
    Reaches.step ends.head rfl .refl
  have refused (after : List LispVal) : Reaches valueEq code ⟨join + 1, stack, after⟩
      ⟨join + 2, .bool false :: stack, after⟩ :=
    Reaches.step ends.tail.head rfl .refl
  cases saw : seen (safeSlot before valueSlot) ps.length with
  | none =>
    refine ⟨before, ?_, fun _ _ => rfl, fun bindings found => ?_⟩
    · have other : length (safeSlot before valueSlot) ≠ .ofNat ps.length := by
        intro same
        rw [seen, if_pos same] at saw
        cases saw
      rw [if_neg other] at test
      exact test.trans (refused before)
    · cases found
  | some elems =>
    have same : length (safeSlot before valueSlot) = .ofNat ps.length := by
      by_contra other
      rw [seen, if_neg other] at saw
      cases saw
    rw [seen, if_pos same] at saw
    rw [if_pos same] at test
    rcases clean elems (by rw [seen, if_pos same, saw]) with ⟨nonempty, cleanAll⟩
    cases saw
    rcases run_loadElems apart ps.length loads with ⟨loaded, ranLoads, keptLoads, holds⟩
    have heldElems (i : Nat) (below : i < ps.length) :
        ((List.range ps.length).map fun i =>
          nth (safeSlot before valueSlot) (.num (.ofNat i)))[i]? =
          some (safeSlot loaded (slots + i)) := by
      rw [List.getElem?_map, List.getElem?_range below, holds i below]
      rfl
    rcases run_checks ps refines compiled nonempty (Nat.le_refl _) checked cleanAll (by simp)
      heldElems with ⟨after, kept, matched, failed⟩
    rw [chain_length, ← joined] at matched failed
    have goes (f : Frame) (later : Reaches valueEq code
        ⟨pc + 5 + 4 * ps.length, stack, loaded⟩ f) :
        Reaches valueEq code ⟨pc, stack, before⟩ f :=
      test.trans (ranLoads.trans later)
    refine ⟨after, ?_, fun i below => ?_, fun bindings found => (matched bindings found).2⟩
    · rw [Option.bind_some]
      cases found : matchAll ps _ with
      | some bindings => exact (goes _ (matched bindings found).1).trans (answered true after)
      | none =>
        rcases failed found with last | earlier
        · exact (goes _ last).trans (answered false after)
        · exact (goes _ earlier).trans (refused after)
    · rw [kept i (by omega), keptLoads i below]

/-! ### Heads and tails -/

theorem matchAll_two {headPat tailPat head tail : LispVal} :
    matchAll [headPat, tailPat] [head, tail] =
      (matchPattern headPat head).bind fun b1 =>
        (matchPattern tailPat tail).bind fun b2 => some (b1 ++ b2) := by
  simp only [matchAll, Option.bind_eq_bind, Option.bind_some, List.append_nil, Option.bind_assoc]

theorem run_consTest {valueSlot pc slots done : Nat} {stack before : List LispVal} {ops : List Op}
    (apart : valueSlot < slots)
    (placed : At code pc ([.loadSlot valueSlot, .builtinCall "length" 1, .pushI64 0, .eq,
      .jumpIfFalse (pc + 7), .pushBool false, .jump done,
      .loadSlot valueSlot, .builtinCall "car" 1, .storeSlot slots,
      .loadSlot valueSlot, .builtinCall "cdr" 1, .storeSlot (slots + 1)] ++ ops)) :
    match seenCons (safeSlot before valueSlot) with
    | none => Reaches valueEq code ⟨pc, stack, before⟩ ⟨done, .bool false :: stack, before⟩
    | some (head, tail) => ∃ after,
        Reaches valueEq code ⟨pc, stack, before⟩ ⟨pc + 13, stack, after⟩ ∧
        (∀ i < slots, safeSlot after i = safeSlot before i) ∧
        safeSlot after slots = head ∧ safeSlot after (slots + 1) = tail := by
  have test := placed.left
  have compared : Reaches valueEq code ⟨pc, stack, before⟩
      ⟨pc + 4, .bool (decide (length (safeSlot before valueSlot) = 0)) :: stack, before⟩ :=
    .step test.head rfl (.step test.tail.head rfl (.step test.tail.tail.head rfl
      (.step test.tail.tail.tail.head rfl .refl)))
  have rest := test.tail.tail.tail.tail
  by_cases empty : length (safeSlot before valueSlot) = 0
  · rw [decide_eq_true empty] at compared
    rw [seenCons, if_pos empty]
    exact compared.trans (Reaches.step rest.head rfl (.step rest.tail.head rfl
      (.step rest.tail.tail.head rfl .refl)))
  · rw [decide_eq_false empty] at compared
    rw [seenCons, if_neg empty]
    have loads := rest.tail.tail.tail
    refine ⟨_, compared.trans (Reaches.step rest.head rfl (.step loads.head rfl
      (.step loads.tail.head rfl (.step loads.tail.tail.head rfl
        (.step loads.tail.tail.tail.head rfl (.step loads.tail.tail.tail.tail.head rfl
          (.step loads.tail.tail.tail.tail.tail.head rfl .refl))))))), fun i below => ?_, ?_, ?_⟩
    · dsimp only [push, pop, popArgs]
      rw [safeSlot_storeSlot_ne (by omega), safeSlot_storeSlot_ne (by omega)]
    · dsimp only [push, pop, popArgs]
      rw [safeSlot_storeSlot_ne (by omega), safeSlot_storeSlot]
    · dsimp only [push, pop, popArgs]
      rw [safeSlot_storeSlot, safeSlot_storeSlot_ne (by omega)]

theorem assembleCons_length (valueSlot pc slots : Nat) (head tail : Emitted) :
    (assembleCons valueSlot pc slots head tail).1.length =
      13 + head.1.length + 1 + tail.1.length + 2 := by
  simp only [assembleCons, List.length_append, List.length_cons, List.length_nil]
  omega

theorem run_cons {valueSlot pc slots : Nat} {head tail : Emitted} {headPat tailPat : LispVal}
    (stack : List LispVal) {before : List LispVal} (apart : valueSlot < slots)
    (refinesHead : ∀ v, Clean headPat v → Refines valueEq headPat v)
    (refinesTail : ∀ v, Clean tailPat v → Refines valueEq tailPat v)
    (compiledHead : compilePatternCheck slots (pc + 13) (slots + 2) headPat = some head)
    (compiledTail : compilePatternCheck (slots + 1) (pc + 13 + head.1.length + 1)
      (slots + 2 + head.2.length) tailPat = some tail)
    (placed : At code pc (assembleCons valueSlot pc slots head tail).1)
    (clean : ∀ h t, seenCons (safeSlot before valueSlot) = some (h, t) →
      Clean headPat h ∧ (matchPattern headPat h ≠ none → Clean tailPat t)) :
    ∃ after,
      Reaches valueEq code ⟨pc, stack, before⟩
        ⟨pc + (assembleCons valueSlot pc slots head tail).1.length,
          .bool ((seenCons (safeSlot before valueSlot)).bind fun p =>
            matchAll [headPat, tailPat] [p.1, p.2]).isSome :: stack, after⟩ ∧
      (∀ i < slots, safeSlot after i = safeSlot before i) ∧
      ∀ bindings, ((seenCons (safeSlot before valueSlot)).bind fun p =>
          matchAll [headPat, tailPat] [p.1, p.2]) = some bindings →
        bound slots (assembleCons valueSlot pc slots head tail).2 after = bindings := by
  rw [assembleCons_length]
  simp only [assembleCons, List.append_assoc] at placed
  obtain ⟨join, joined⟩ : ∃ join, join = pc + 13 + head.1.length + 1 + tail.1.length := ⟨_, rfl⟩
  rw [← joined] at placed
  have endPc : pc + (13 + head.1.length + 1 + tail.1.length + 2) = join + 2 := by omega
  rw [endPc]
  have test := @run_consTest valueEq code valueSlot pc slots _ stack before _ apart placed
  have headPlaced := placed.right.left
  have jumpPlaced := placed.right.right
  have tailPlaced := jumpPlaced.tail.left
  have ends := jumpPlaced.tail.right.at_eq join (by
    simp only [List.length_cons, List.length_nil]
    omega)
  simp only [List.length_cons, List.length_nil, Nat.zero_add, Nat.reduceAdd]
    at headPlaced jumpPlaced tailPlaced
  cases saw : seenCons (safeSlot before valueSlot) with
  | none =>
    rw [saw] at test
    exact ⟨before, test, fun _ _ => rfl, nofun⟩
  | some both =>
    rcases both with ⟨h, t⟩
    rw [saw] at test
    rcases test with ⟨loaded, ranLoads, keptLoads, heldHead, heldTail⟩
    rcases clean h t saw with ⟨cleanHead, cleanTail⟩
    rcases refinesHead h cleanHead _ _ _ _ compiledHead (by omega) code headPlaced stack loaded
      heldHead with ⟨middle, ranHead, keptHead, bindsHead⟩
    rw [Option.bind_some, matchAll_two]
    cases foundHead : matchPattern headPat h with
    | none =>
      rw [foundHead] at ranHead
      refine ⟨middle, ranLoads.trans (ranHead.trans ?_), fun i below => ?_, nofun⟩
      · exact Reaches.step jumpPlaced.head rfl (.step ends.tail.head rfl .refl)
      · rw [keptHead i (by omega), keptLoads i below]
    | some b1 =>
      rw [foundHead] at ranHead
      rcases refinesTail t (cleanTail (by rw [foundHead]; exact Option.some_ne_none b1)) _ _ _ _
        compiledTail (by omega) code tailPlaced stack middle
        ((keptHead _ (by omega)).trans heldTail) with ⟨after, ranTail, keptTail, bindsTail⟩
      refine ⟨after, ranLoads.trans (ranHead.trans (Reaches.step jumpPlaced.head rfl
        (ranTail.trans ?_))), fun i below => ?_, fun bindings found => ?_⟩
      · rw [← joined, Option.bind_some]
        cases matchPattern tailPat t <;> exact Reaches.step ends.head rfl .refl
      · rw [keptTail i (by omega), keptHead i (by omega), keptLoads i below]
      · rw [Option.bind_some, Option.bind_eq_some_iff] at found
        rcases found with ⟨b2, foundTail, joinedBindings⟩
        cases joinedBindings
        rw [assembleCons, List.append_assoc, bound_append, bound_append]
        have boundTail := bindsTail b2 foundTail
        rw [Nat.add_assoc] at boundTail
        rw [List.length_append]
        dsimp only [List.length_cons, List.length_nil, Nat.zero_add, Nat.reduceAdd]
        rw [boundTail, bound_congr keptTail, bindsHead b1 foundHead]
        rfl

/-! ### Every pattern -/

/-- Induction on a pattern, with the claim for every element of a list. -/
theorem pattern_induct {motive : LispVal → Prop}
    (list : ∀ pats, (∀ p ∈ pats, motive p) → motive (.list pats))
    (other : ∀ p, (∀ pats, p ≠ .list pats) → motive p) (p : LispVal) : motive p := by
  induction p using LispVal.nested_induct with
  | list pats each => exact list pats each
  | map d _ => exact other _ (fun _ same => by cases same)
  | other p notList _ => exact other p notList

theorem refines_of_none {pattern value : LispVal}
    (refused : ∀ valueSlot pc slots, compilePatternCheck valueSlot pc slots pattern = none) :
    Refines valueEq pattern value := by
  intro valueSlot pc slots emitted compiled
  rw [refused] at compiled
  cases compiled

theorem refines_list {pats : List LispVal}
    (each : ∀ p ∈ pats, ∀ v, Clean p v → Refines valueEq p v) {value : LispVal}
    (clean : Clean (.list pats) value) : Refines valueEq (.list pats) value := by
  cases pats with
  | nil => exact refines_of_none fun _ _ _ => by simp only [compilePatternCheck]
  | cons pat pats =>
    intro valueSlot pc slots emitted compiled apart code placed stack before held
    subst held
    by_cases isCons : isSym "cons" pat = true ∧ pats.length = 2
    · rcases pats with _ | ⟨headPat, _ | ⟨tailPat, _ | ⟨_, _⟩⟩⟩
      · cases isCons.2
      · cases isCons.2
      · rw [compile_cons isCons.1] at compiled
        rw [clean_cons isCons.1] at clean
        rcases Option.bind_eq_some_iff.mp compiled with ⟨head, compiledHead, compiledRest⟩
        rcases Option.bind_eq_some_iff.mp compiledRest with ⟨tail, compiledTail, same⟩
        cases same
        have answer : ((seenCons (safeSlot before valueSlot)).bind fun p =>
            matchAll [headPat, tailPat] [p.1, p.2]) =
            matchPattern (.list [pat, headPat, tailPat]) (safeSlot before valueSlot) := by
          rcases saw : seenCons (safeSlot before valueSlot) with _ | ⟨h, t⟩
          · rw [saw] at clean
            exact clean.symm
          · rw [saw] at clean
            exact clean.2.2
        rw [← answer]
        refine run_cons stack apart (each headPat (by simp)) (each tailPat (by simp)) compiledHead
          compiledTail placed fun h t saw => ?_
        rw [saw] at clean
        exact ⟨clean.1, clean.2.1⟩
      · cases isCons.2
    · rw [compile_elems isCons] at compiled
      rw [clean_elems isCons] at clean
      have elements (temp : String) (ps : List LispVal) (checks : List (List Op) × List Entry)
          (within : ∀ p ∈ ps, p ∈ pat :: pats)
          (compiledChecks : compileChecks slots (pc + 5 + 4 * ps.length) (slots + ps.length) ps =
            some checks)
          (same : assemble temp valueSlot pc slots ps.length checks = emitted)
          (clean : ∀ elems, seen (safeSlot before valueSlot) ps.length = some elems →
            ps ≠ [] ∧ CleanAll ps elems ∧ matchAll ps elems =
              matchPattern (.list (pat :: pats)) (safeSlot before valueSlot))
          (refused : seen (safeSlot before valueSlot) ps.length = none →
            matchPattern (.list (pat :: pats)) (safeSlot before valueSlot) = none) :
          ∃ after,
            Reaches valueEq code ⟨pc, stack, before⟩ ⟨pc + emitted.1.length,
              .bool (matchPattern (.list (pat :: pats))
                (safeSlot before valueSlot)).isSome :: stack, after⟩ ∧
            (∀ i < slots, safeSlot after i = safeSlot before i) ∧
            ∀ bindings, matchPattern (.list (pat :: pats)) (safeSlot before valueSlot) =
              some bindings → bound slots emitted.2 after = bindings := by
        subst same
        have answer : ((seen (safeSlot before valueSlot) ps.length).bind (matchAll ps)) =
            matchPattern (.list (pat :: pats)) (safeSlot before valueSlot) := by
          cases saw : seen (safeSlot before valueSlot) ps.length with
          | none => exact (refused saw).symm
          | some elems => exact (clean elems saw).2.2
        rw [← answer]
        refine run_assemble stack (fun p mem => each p (within p mem)) apart compiledChecks placed
          fun elems saw => ?_
        exact ⟨(clean elems saw).1, (clean elems saw).2.1⟩
      split at compiled
      · rename_i isList
        rw [if_pos isList] at clean
        rcases Option.map_eq_some_iff.mp compiled with ⟨checks, compiledChecks, same⟩
        refine elements _ pats checks (fun p => List.mem_cons_of_mem pat) compiledChecks same ?_ ?_
        · intro elems saw
          rw [saw] at clean
          exact clean
        · intro saw
          rw [saw] at clean
          exact clean
      · rename_i notList
        rw [if_neg notList] at clean
        rcases Option.map_eq_some_iff.mp compiled with ⟨checks, compiledChecks, same⟩
        refine elements _ (pat :: pats) checks (fun p mem => mem) compiledChecks same ?_ ?_
        · intro elems saw
          rw [List.length_cons] at saw
          rw [saw] at clean
          exact ⟨List.cons_ne_nil _ _, clean⟩
        · intro saw
          rw [List.length_cons] at saw
          rw [saw] at clean
          exact clean

theorem refines_of_clean {pattern value : LispVal} (clean : Clean pattern value) :
    Refines valueEq pattern value := by
  induction pattern using pattern_induct generalizing value with
  | list pats each => exact refines_list (fun p mem v => each p mem) clean
  | other p notList =>
    cases p with
    | list pats => exact absurd rfl (notList pats)
    | sym s => exact refines_sym clean
    | num n => exact refines_num clean
    | float f => exact refines_float clean
    | bool b => exact refines_bool
    | str s => exact refines_str
    | nil => exact refines_nil clean
    | _ => exact refines_of_none fun _ _ _ => by simp only [compilePatternCheck]

end Patterns

end LispRlm.Bytecode
