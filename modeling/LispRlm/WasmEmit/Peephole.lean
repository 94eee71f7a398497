import LispRlm.WasmEmit.InstructionStreams

/-! The rewriting of emitted code: `peephole`, when a function is emitted, and
`elide_tag_roundtrips`, when the module is. -/

namespace LispRlm.WasmEmit.Stream

open Foundation

variable {P M : Type}

/-! ### The passes -/

/-- Untag then retag, or tag then untag, by unsigned shifts. -/
def shiftPairs : WindowRule (Instruction P) where
  width := 4
  rewrite
    | [.i64Const a, .i64ShrU, .i64Const b, .i64Shl] => if a = 3 ∧ b = 3 then some [] else none
    | [.i64Const a, .i64Shl, .i64Const b, .i64ShrU] => if a = 3 ∧ b = 3 then some [] else none
    | _ => none

/-- Arithmetic on two constants, where it does not overflow. -/
def constArith : WindowRule (Instruction P) where
  width := 3
  rewrite
    | [.i64Const a, .i64Const b, .i64Add] =>
        if a.saddOverflow b then none else some [.i64Const (a + b)]
    | [.i64Const a, .i64Const b, .i64Sub] =>
        if a.ssubOverflow b then none else some [.i64Const (a - b)]
    | [.i64Const a, .i64Const b, .i64Mul] =>
        if a.smulOverflow b then none else some [.i64Const (a * b)]
    | _ => none

def adjacent : WindowRule (Instruction P) where
  width := 2
  rewrite
    | [.i64Const _, .drop] => some []
    | [.localTee n, .drop] => some [.localSet n]
    | [.i64ExtendI32U, .i32WrapI64] => some []
    | [.localGet n, .localSet m] => if n = m then some [] else none
    | [.i64Const a, .i64Mul] => if a = 1 then some [] else none
    | [.localSet n, .localGet m] => if n = m then some [.localTee n] else none
    | [.i64Const a, .i64Add] => if a = 0 then some [] else none
    | [.i64Const a, .i64Or] => if a = 0 then some [] else none
    | [.i64Const a, .i64Shl] => if a = 0 then some [] else none
    | [.i64Const a, .i64ShrU] => if a = 0 then some [] else none
    | _ => none

def rules : List (WindowRule (Instruction P)) := [shiftPairs, constArith, adjacent]

def peephole (instrs : List (Instruction P)) : List (Instruction P) := sweep rules 0 instrs

/-- Shifts of constants by the tag's width, folded; and how many instructions that removes. -/
def elideTagRoundtrips : List (Instruction P) → List (Instruction P) × Nat
  | .i64Const k :: .i64Const sh :: .i64ShrS :: rest =>
      if sh = 3 then
        let (code, removed) := elideTagRoundtrips (.i64Const (k.sshiftRight 3) :: rest)
        (code, removed + 2)
      else
        let (code, removed) := elideTagRoundtrips (.i64Const sh :: .i64ShrS :: rest)
        (.i64Const k :: code, removed)
  | .i64Const k :: .i64Const sh :: .i64Shl :: rest =>
      if sh = 3 then
        let (code, removed) := elideTagRoundtrips (.i64Const (k <<< 3) :: rest)
        (code, removed + 2)
      else
        let (code, removed) := elideTagRoundtrips (.i64Const sh :: .i64Shl :: rest)
        (.i64Const k :: code, removed)
  | i :: rest =>
      let (code, removed) := elideTagRoundtrips rest
      (i :: code, removed)
  | [] => ([], 0)
termination_by code => code.length

/-! ### Branch targets -/

theorem rules_stop {barrier : Instruction P} (stop : barrier.Barrier) :
    StopsAt rules barrier := by
  intro r mem
  simp only [rules, List.mem_cons, List.not_mem_nil, or_false] at mem
  rcases mem with rfl | rfl | rfl
  · constructor
    · exact Nat.succ_pos _
    · intro w inside
      unfold shiftPairs
      dsimp only
      split
      all_goals first | rfl | (cases stop <;> simp at inside)
  · constructor
    · exact Nat.succ_pos _
    · intro w inside
      unfold constArith
      dsimp only
      split
      all_goals first | rfl | (cases stop <;> simp at inside)
  · constructor
    · exact Nat.succ_pos _
    · intro w inside
      unfold adjacent
      dsimp only
      split
      all_goals first | rfl | (cases stop <;> simp at inside)

/-- `peephole` rewrites the pieces of straight code and nothing else. -/
theorem peephole_flatten (t : Structured P) :
    peephole t.flatten = (t.rewrite peephole).flatten := by
  symm
  apply Structured.flatten_rewrite
  intro barrier stop code rest
  exact sweep_append (rules_stop stop) code rest 0 (Nat.zero_le _)

theorem elide_append {barrier : Instruction P} (stop : barrier.Barrier)
    (code rest : List (Instruction P)) :
    (elideTagRoundtrips (code ++ barrier :: rest)).1 =
      (elideTagRoundtrips code).1 ++ barrier :: (elideTagRoundtrips rest).1 := by
  have alone : (elideTagRoundtrips (barrier :: rest)).1 =
      barrier :: (elideTagRoundtrips rest).1 := by
    cases stop <;> rw [elideTagRoundtrips] <;> simp
  fun_induction elideTagRoundtrips code with
  | case1 k tail out removed same ih =>
      rw [same] at ih
      rw [List.cons_append, List.cons_append, List.cons_append, elideTagRoundtrips, if_pos rfl]
      exact ih
  | case2 k sh tail other out removed same ih =>
      rw [same] at ih
      rw [List.cons_append, List.cons_append, List.cons_append, elideTagRoundtrips, if_neg other]
      exact congrArg (Instruction.i64Const k :: ·) ih
  | case3 k tail out removed same ih =>
      rw [same] at ih
      rw [List.cons_append, List.cons_append, List.cons_append, elideTagRoundtrips, if_pos rfl]
      exact ih
  | case4 k sh tail other out removed same ih =>
      rw [same] at ih
      rw [List.cons_append, List.cons_append, List.cons_append, elideTagRoundtrips, if_neg other]
      exact congrArg (Instruction.i64Const k :: ·) ih
  | case5 i tail notShrS notShl out removed same ih =>
      rw [same] at ih
      rw [List.cons_append, elideTagRoundtrips]
      · exact congrArg (i :: ·) ih
      · intro k sh after is reached
        match tail, reached with
        | [], reached => cases stop <;> cases reached
        | [x], reached => cases stop <;> cases reached
        | x :: y :: tail, reached =>
            cases reached
            exact notShrS _ _ _ is rfl
      · intro k sh after is reached
        match tail, reached with
        | [], reached => cases stop <;> cases reached
        | [x], reached => cases stop <;> cases reached
        | x :: y :: tail, reached =>
            cases reached
            exact notShl _ _ _ is rfl
  | case6 => exact alone

/-- `elide_tag_roundtrips` too. -/
theorem elide_flatten (t : Structured P) :
    (elideTagRoundtrips t.flatten).1 =
      (t.rewrite fun code => (elideTagRoundtrips code).1).flatten := by
  symm
  apply Structured.flatten_rewrite
  intro barrier stop code rest
  exact elide_append stop code rest

/-! ### Values under the rewritten windows -/

/-- The value on top is the same after the pair of shifts. -/
def identityOn : List (Instruction P) → Config M → Bool
  | [.i64Const _, .i64ShrU, .i64Const _, .i64Shl], ⟨.i64 v :: _, _, _⟩ => v >>> 3 <<< 3 == v
  | [.i64Const _, .i64Shl, .i64Const _, .i64ShrU], ⟨.i64 v :: _, _, _⟩ => v <<< 3 >>> 3 == v
  | _, _ => true

/-- The three bits that the pair of shifts drops are zero: the low ones, or the top ones. -/
def droppedBitsZero : List (Instruction P) → Config M → Bool
  | [.i64Const _, .i64ShrU, .i64Const _, .i64Shl], ⟨.i64 v :: _, _, _⟩ => v.toNat % 8 == 0
  | [.i64Const _, .i64Shl, .i64Const _, .i64ShrU], ⟨.i64 v :: _, _, _⟩ => v.toNat < 2 ^ 61
  | _, _ => true

theorem untag_retag (v : BitVec 64) : v >>> 3 <<< 3 = v ↔ v.toNat % 8 = 0 := by
  rw [← BitVec.toNat_inj, BitVec.toNat_shiftLeft, BitVec.toNat_ushiftRight, Nat.shiftLeft_eq,
    Nat.shiftRight_eq_div_pow]
  have small := v.isLt
  omega

theorem tag_untag (v : BitVec 64) : v <<< 3 >>> 3 = v ↔ v.toNat < 2 ^ 61 := by
  rw [← BitVec.toNat_inj, BitVec.toNat_ushiftRight, BitVec.toNat_shiftLeft, Nat.shiftLeft_eq,
    Nat.shiftRight_eq_div_pow]
  have small := v.isLt
  omega

theorem identityOn_eq (w : List (Instruction P)) (c : Config M) :
    identityOn w c = droppedBitsZero w c := by
  unfold identityOn droppedBitsZero
  split
  · rename_i v _ _ _
    rw [Bool.eq_iff_iff, beq_iff_eq, beq_iff_eq]
    exact untag_retag v
  · rename_i v _ _ _
    rw [Bool.eq_iff_iff, beq_iff_eq, decide_eq_true_iff]
    exact tag_untag v
  · rfl

/-! ### Rewritten windows -/

section Windows

variable {act : Primitives P M}

theorem shiftPairs_sound {w out : List (Instruction P)} (made : shiftPairs.rewrite w = some out)
    (c : Config M) (safe : droppedBitsZero w c = true) :
    Upto Exit.Bad (runStraight (step act) w c) (runStraight (step act) out c) := by
  unfold shiftPairs at made
  dsimp only at made
  split at made
  · rename_i a b
    split at made
    · rename_i both
      obtain ⟨rfl, rfl⟩ := both
      cases made
      obtain ⟨stack, locals, world⟩ := c
      cases stack with
      | nil => exact .inl ⟨.invalid, .invalid, rfl⟩
      | cons v stack =>
          cases v with
          | i64 v =>
              have same : v >>> 3 <<< 3 = v := (untag_retag v).mpr (beq_iff_eq.mp safe)
              right
              show _ = Except.ok (⟨.i64 (v >>> 3 <<< 3) :: stack, locals, world⟩ : Config M)
              rw [same]
              rfl
          | i32 v | f32 v | f64 v => exact .inl ⟨.invalid, .invalid, rfl⟩
    · cases made
  · rename_i a b
    split at made
    · rename_i both
      obtain ⟨rfl, rfl⟩ := both
      cases made
      obtain ⟨stack, locals, world⟩ := c
      cases stack with
      | nil => exact .inl ⟨.invalid, .invalid, rfl⟩
      | cons v stack =>
          cases v with
          | i64 v =>
              have same : v <<< 3 >>> 3 = v := (tag_untag v).mpr (of_decide_eq_true safe)
              right
              show _ = Except.ok (⟨.i64 (v <<< 3 >>> 3) :: stack, locals, world⟩ : Config M)
              rw [same]
              rfl
          | i32 v | f32 v | f64 v => exact .inl ⟨.invalid, .invalid, rfl⟩
    · cases made
  · cases made

theorem constArith_sound {w out : List (Instruction P)} (made : constArith.rewrite w = some out)
    (c : Config M) :
    Upto Exit.Bad (runStraight (step act) w c) (runStraight (step act) out c) := by
  unfold constArith at made
  dsimp only at made
  right
  split at made
  · split at made
    · cases made
    · cases made
      rfl
  · split at made
    · cases made
    · cases made
      rfl
  · split at made
    · cases made
    · cases made
      rfl
  · cases made

/-- An operation that leaves its left operand as it is, if the right one is this constant. -/
theorem unit_sound {i : Instruction P} {f : BitVec 64 → BitVec 64 → BitVec 64} {n : BitVec 64}
    (does : ∀ c : Config M, step act i c = c.binary f) (unit : ∀ a, f a n = a) (c : Config M) :
    Upto Exit.Bad (runStraight (step act) [.i64Const n, i] c) (.ok c) := by
  have ran : runStraight (step act) [.i64Const n, i] c =
      ((c.push (.i64 n)).binary f).bind (runStraight (step act) []) := by
    rw [← does]
    rfl
  rw [ran]
  obtain ⟨stack, locals, world⟩ := c
  cases stack with
  | nil => exact .inl ⟨.invalid, .invalid, rfl⟩
  | cons v stack =>
      cases v with
      | i64 a =>
          right
          show _ = Except.ok (⟨.i64 (f a n) :: stack, locals, world⟩ : Config M)
          rw [unit]
      | i32 v | f32 v | f64 v => exact .inl ⟨.invalid, .invalid, rfl⟩

theorem adjacent_sound {w out : List (Instruction P)} (made : adjacent.rewrite w = some out)
    (c : Config M) :
    Upto Exit.Bad (runStraight (step act) w c) (runStraight (step act) out c) := by
  unfold adjacent at made
  dsimp only at made
  split at made
  · cases made
    exact .refl _
  · cases made
    obtain ⟨stack, locals, world⟩ := c
    cases stack with
    | nil => exact .inl ⟨.invalid, .invalid, rfl⟩
    | cons v stack => exact .refl _
  · cases made
    obtain ⟨stack, locals, world⟩ := c
    cases stack with
    | nil => exact .inl ⟨.invalid, .invalid, rfl⟩
    | cons v stack =>
        cases v with
        | i32 v =>
            have same : (v.setWidth 64).setWidth 32 = v := by
              apply BitVec.eq_of_toNat_eq
              simp
            right
            show _ = Except.ok (⟨.i32 ((v.setWidth 64).setWidth 32) :: stack, locals, world⟩ :
              Config M)
            rw [same]
            rfl
        | i64 v | f32 v | f64 v => exact .inl ⟨.invalid, .invalid, rfl⟩
  · split at made
    · rename_i n m same
      subst same
      cases made
      have kept : (fun m => if m = n then c.locals n else c.locals m) = c.locals := by
        funext m
        split
        · rename_i same
          rw [same]
        · rfl
      right
      show Except.ok c =
        Except.ok { c with locals := fun m => if m = n then c.locals n else c.locals m }
      rw [kept]
    · cases made
  · split at made
    · rename_i one
      subst one
      cases made
      exact unit_sound (fun _ => rfl) (fun a => BitVec.mul_one a) c
    · cases made
  · split at made
    · rename_i n m same
      subst same
      cases made
      obtain ⟨stack, locals, world⟩ := c
      cases stack with
      | nil => exact .inl ⟨.invalid, .invalid, rfl⟩
      | cons v stack =>
          right
          simp [runStraight, step, Config.set, Config.push, Except.bind]
    · cases made
  · split at made
    · rename_i zero
      subst zero
      cases made
      exact unit_sound (fun _ => rfl) (fun a => BitVec.add_zero a) c
    · cases made
  · split at made
    · rename_i zero
      subst zero
      cases made
      exact unit_sound (fun _ => rfl) (fun a => BitVec.or_zero) c
    · cases made
  · split at made
    · rename_i zero
      subst zero
      cases made
      exact unit_sound (fun _ => rfl) (fun a => BitVec.shiftLeft_zero a) c
    · cases made
  · split at made
    · rename_i zero
      subst zero
      cases made
      exact unit_sound (fun _ => rfl) (fun a => BitVec.ushiftRight_zero a) c
    · cases made
  · cases made

theorem rules_sound (r : WindowRule (Instruction P)) (mem : r ∈ rules)
    (w out : List (Instruction P)) (made : r.rewrite w = some out) (c : Config M)
    (safe : droppedBitsZero w c = true) :
    Upto Exit.Bad (runStraight (step act) w c) (runStraight (step act) out c) := by
  simp only [rules, List.mem_cons, List.not_mem_nil, or_false] at mem
  rcases mem with rfl | rfl | rfl
  · exact shiftPairs_sound made c safe
  · exact constArith_sound made c
  · exact adjacent_sound made c

theorem elide_runStraight (code : List (Instruction P)) (c : Config M) :
    runStraight (step act) (elideTagRoundtrips code).1 c = runStraight (step act) code c := by
  fun_induction elideTagRoundtrips code generalizing c with
  | case1 k rest code removed same ih =>
      rw [same] at ih
      exact ih c
  | case2 k sh rest other code removed same ih =>
      rw [same] at ih
      exact ih (c.push (.i64 k))
  | case3 k rest code removed same ih =>
      rw [same] at ih
      exact ih c
  | case4 k sh rest other code removed same ih =>
      rw [same] at ih
      exact ih (c.push (.i64 k))
  | case5 i rest notShrS notShl code removed same ih =>
      rw [same] at ih
      show (step act i c).bind _ = (step act i c).bind _
      cases step act i c with
      | error e => rfl
      | ok next => exact ih next
  | case6 => rfl

end Windows

/-! ### Whole functions -/

section Functions

variable (act : Primitives P M) (fuel : Nat) (t : Structured P) (c : Config M)

/-- The code validates as far as it runs. -/
def Valid : Prop := t.run (runStraight (step act)) fuel c ≠ .error .invalid

/-- The stream that the pass makes is the code with its straight pieces rewritten, and ends as the
code does, with the same stack, locals and world. -/
def KeepsMeaning (pass : List (Instruction P) → List (Instruction P)) : Prop :=
  pass t.flatten = (t.rewrite pass).flatten ∧
    (t.rewrite pass).run (runStraight (step act)) fuel c = t.run (runStraight (step act)) fuel c

/-- The run of the code passes every check that is made where `peephole` rewrites it. -/
def Passes (check : List (Instruction P) → Config M → Bool) : Prop :=
  t.run (watch (step act) rules check .changed 0) fuel c ≠ .error .changed

end Functions

section Functions

variable {act : Primitives P M} {fuel : Nat} {t : Structured P} {c : Config M}

/-- Where all checks pass, watching changes nothing. -/
theorem watch_eq {check : List (Instruction P) → Config M → Bool}
    (passes : Passes act fuel t c check) :
    t.run (watch (step act) rules check .changed 0) fuel c =
      t.run (runStraight (step act)) fuel c := by
  have isChanged : ∀ e : Exit M, e = .changed → e.Bad := by
    rintro e rfl
    exact .changed
  have pieces : ∀ code c, Upto (fun e => e = Exit.changed)
      (watch (step act) rules check .changed 0 code c) (runStraight (step act) code c) := by
    intro code c
    apply watch_runStraight
    rfl
  have watched := Structured.run_rewrite isChanged pieces fuel t c
  rw [Structured.rewrite_id] at watched
  rcases watched with ⟨e, rfl, failed⟩ | same
  · exact (passes failed).elim
  · exact same.symm

theorem peephole_run (valid : Valid act fuel t c) (passes : Passes act fuel t c droppedBitsZero) :
    (t.rewrite peephole).run (runStraight (step act)) fuel c =
      t.run (runStraight (step act)) fuel c := by
  have pieces : ∀ code c, Upto Exit.Bad
      (watch (step act) rules droppedBitsZero .changed 0 code c)
      (runStraight (step act) (peephole code) c) := by
    intro code c
    apply watch_sweep Exit.Bad.changed
    · intro r mem w out _ made s safe
      exact rules_sound r mem w out made s safe
    · intro r mem
      exact (rules_stop .end_ r mem).1
  have rewritten := Structured.run_rewrite (fun e isBad => isBad) pieces fuel t c
  rw [watch_eq passes] at rewritten
  rcases rewritten with ⟨e, bad, failed⟩ | same
  · cases bad with
    | invalid => exact (valid failed).elim
    | changed =>
        have stopped := watch_eq passes
        rw [failed] at stopped
        exact (passes stopped).elim
  · exact same

end Functions

/-- `elide_tag_roundtrips` keeps the meaning of all code; `peephole` does so, and removes only
shifts that change nothing, exactly where the dropped bits are zero. -/
theorem passes_keepMeaning (act : Primitives P M) (fuel : Nat) (t : Structured P) (c : Config M)
    (valid : Valid act fuel t c) :
    KeepsMeaning act fuel t c (fun code => (elideTagRoundtrips code).1) ∧
      (KeepsMeaning act fuel t c peephole ∧ Passes act fuel t c identityOn ↔
        Passes act fuel t c droppedBitsZero) := by
  have same : (identityOn : List (Instruction P) → Config M → Bool) = droppedBitsZero := by
    funext w c
    exact identityOn_eq w c
  constructor
  · constructor
    · exact elide_flatten t
    · have pieces : ∀ code c, Upto (fun _ => False) (runStraight (step act) code c)
          (runStraight (step act) (elideTagRoundtrips code).1 c) :=
        fun code c => .inr (elide_runStraight code c)
      rcases Structured.run_rewrite (fun e isBad => isBad.elim) pieces fuel t c with failed | same
      · exact failed.elim fun e isBad => isBad.1.elim
      · exact same
  · rw [same]
    constructor
    · exact And.right
    · intro passes
      exact ⟨⟨peephole_flatten t, peephole_run valid passes⟩, passes⟩

/-! ### The index of `json-array-get` -/

/-- From `(json-array-get s (shr x 1))`, with `x` in local 1: the index is untagged by an unsigned
shift right behind the tagging of `shr`'s result. -/
def shrIndex : Structured Empty :=
  .straight [.localGet 1, .i64Const 3, .i64ShrS, .i64Const 8, .i64Const 3, .i64ShrS, .i64ShrU,
    .i64Const 3, .i64Shl, .i64Const 3, .i64ShrU, .localSet 2]

/-- Local 1 holds a number. -/
def holding (n : Int) : Config Unit where
  stack := []
  locals
    | 1 => .i64 (.ofInt 64 (n * 8))
    | _ => .i64 0
  world := ()

def noPrimitives : Primitives Empty Unit := fun op => op.elim

/-- The untagged index. -/
def index : Result Unit → Option (BitVec 64)
  | .ok c =>
      match c.locals 2 with
      | .i64 w => some w
      | _ => none
  | .error _ => none

def isUnchanged : Result Unit → Bool
  | .error .changed => false
  | _ => true

theorem shrIndex_valid (n : Int) : Valid noPrimitives 0 shrIndex (holding n) := by
  rintro ⟨⟩

theorem passes_keepMeaning_positive :
    KeepsMeaning noPrimitives 0 shrIndex (holding 6) peephole :=
  ((passes_keepMeaning noPrimitives 0 shrIndex (holding 6) (shrIndex_valid 6)).2.mpr (by
    intro changed
    have unchanged : isUnchanged (shrIndex.run
        (watch (step noPrimitives) rules droppedBitsZero .changed 0) 0 (holding 6)) = true := by
      decide
    rw [changed] at unchanged
    cases unchanged)).1

/-- For −1 the index is 2^61 − 1, and in the rewritten code 2^63 − 1. -/
theorem peephole_changes_index :
    ¬ ∀ (P M : Type) (act : Primitives P M) (fuel : Nat) (t : Structured P) (c : Config M),
      Valid act fuel t c → KeepsMeaning act fuel t c peephole := by
  intro claim
  have same := (claim Empty Unit noPrimitives 0 shrIndex (holding (-1)) (shrIndex_valid (-1))).2
  have before : index (shrIndex.run (runStraight (step noPrimitives)) 0 (holding (-1))) =
      some 2305843009213693951 := by decide
  have after : index ((shrIndex.rewrite peephole).run (runStraight (step noPrimitives)) 0
      (holding (-1))) =
      some 9223372036854775807 := by decide
  rw [same, before] at after
  revert after
  decide

end LispRlm.WasmEmit.Stream
