import LispRlm.Bytecode.Values

/-! `isqrt`: the seed of the square root and the two loops that correct it. -/

namespace LispRlm.Bytecode

namespace IntegerRoot

/-! ### Checked words -/

def checkedAdd (a b : UInt64) : Option UInt64 :=
  if a.toNat + b.toNat < 2 ^ 64 then some (a + b) else none

def checkedMul (a b : UInt64) : Option UInt64 :=
  if a.toNat * b.toNat < 2 ^ 64 then some (a * b) else none

def checkedSub (a b : UInt64) : Option UInt64 := if b ≤ a then some (a - b) else none

theorem checkedAdd_eq_some {a b c : UInt64} :
    checkedAdd a b = some c ↔ c.toNat = a.toNat + b.toNat := by
  have small := c.toNat_lt
  rw [checkedAdd]
  split
  · rename_i fits
    rw [Option.some.injEq, ← UInt64.toNat_inj, UInt64.toNat_add, Nat.mod_eq_of_lt fits]
    exact eq_comm
  · rename_i wide
    simp only [reduceCtorEq, false_iff]
    omega

theorem checkedMul_eq_some {a b c : UInt64} :
    checkedMul a b = some c ↔ c.toNat = a.toNat * b.toNat := by
  have small := c.toNat_lt
  rw [checkedMul]
  split
  · rename_i fits
    rw [Option.some.injEq, ← UInt64.toNat_inj, UInt64.toNat_mul, Nat.mod_eq_of_lt fits]
    exact eq_comm
  · rename_i wide
    simp only [reduceCtorEq, false_iff]
    omega

theorem checkedSub_eq_some {a b c : UInt64} :
    checkedSub a b = some c ↔ c.toNat + b.toNat = a.toNat := by
  rw [checkedSub]
  split
  · rename_i covered
    have least := UInt64.le_iff_toNat_le.mp covered
    rw [Option.some.injEq, ← UInt64.toNat_inj, UInt64.toNat_sub_of_le _ _ covered]
    omega
  · rename_i short
    have less := mt UInt64.le_iff_toNat_le.mpr short
    simp only [reduceCtorEq, false_iff]
    omega

/-! ### The loops -/

/-- `r.checked_mul(r).map_or(true, |sq| sq > n)` -/
def squareExceeds (n r : UInt64) : Bool :=
  ((checkedMul r r).map fun sq => decide (n < sq)).getD true

/-- The square of the next candidate is at most `n`, and is a word. -/
def nextFits (n r : UInt64) : Bool :=
  (((checkedAdd r 1).bind fun r1 => (checkedMul r1 r1).map fun sq => (r1, sq)).map
    fun p => decide (p.2 ≤ n)).getD false

theorem squareExceeds_iff {n r : UInt64} :
    squareExceeds n r = true ↔ n.toNat < r.toNat * r.toNat := by
  rw [squareExceeds]
  cases square : checkedMul r r with
  | none =>
    have bound := n.toNat_lt
    rw [checkedMul] at square
    split at square
    · cases square
    · rename_i wide
      simp only [Option.map_none, Option.getD_none, true_iff]
      omega
  | some sq =>
    rw [Option.map_some, Option.getD_some, decide_eq_true_eq, UInt64.lt_iff_toNat_lt,
      checkedMul_eq_some.mp square]

theorem nextFits_iff {n r : UInt64} :
    nextFits n r = true ↔ (r.toNat + 1) * (r.toNat + 1) ≤ n.toNat := by
  have bound := n.toNat_lt
  rw [nextFits]
  cases next : checkedAdd r 1 with
  | none =>
    rw [checkedAdd] at next
    split at next
    · cases next
    · rename_i wide
      have most : 2 ^ 64 ≤ r.toNat + 1 := Nat.le_of_not_lt wide
      have square := Nat.mul_le_mul most (Nat.le_trans (by decide) most : 1 ≤ r.toNat + 1)
      simp only [Option.bind_none, Option.map_none, Option.getD_none, Bool.false_eq_true,
        false_iff]
      omega
  | some r1 =>
    have same : r1.toNat = r.toNat + 1 := checkedAdd_eq_some.mp next
    rw [Option.bind_some, ← same]
    cases square : checkedMul r1 r1 with
    | none =>
      rw [checkedMul] at square
      split at square
      · cases square
      · rename_i wide
        simp only [Option.map_none, Option.getD_none, Bool.false_eq_true, false_iff]
        omega
    | some sq =>
      rw [Option.map_some, Option.map_some, Option.getD_some, decide_eq_true_eq,
        UInt64.le_iff_toNat_le, checkedMul_eq_some.mp square]

/-- The first loop. A panic is an error. -/
def lower (n r : UInt64) : Except String UInt64 :=
  if 0 < r ∧ squareExceeds n r then
    match _less : checkedSub r 1 with
    | some r => lower n r
    | none => .error "attempt to subtract with overflow"
  else .ok r
termination_by r.toNat
decreasing_by
  have := checkedSub_eq_some.mp _less
  have one : (1 : UInt64).toNat = 1 := rfl
  omega

/-- The second loop. -/
def raise (n r : UInt64) : Except String UInt64 :=
  if nextFits n r then
    match _more : checkedAdd r 1 with
    | some r => raise n r
    | none => .error "attempt to add with overflow"
  else .ok r
termination_by 2 ^ 64 - r.toNat
decreasing_by
  have := checkedAdd_eq_some.mp _more
  have bound := r.toNat_lt
  have one : (1 : UInt64).toNat = 1 := rfl
  omega

def strictNum (args : List LispVal) (idx : Nat) (op : String) : Except String Int64 :=
  match args[idx]? with
  | some (.num n) => .ok n
  | some other => .error (op ++ ": expected integer, got " ++ display other)
  | none => .error (op ++ ": missing arg " ++ toString idx)

/-- The seed is `(n as f64).sqrt() as u64`. -/
def isqrt (seed : UInt64 → UInt64) (args : List LispVal) : Except String LispVal := do
  if args.length ≠ 1 then .error ("isqrt: need 1 arg, got " ++ toString args.length)
  else
    let n ← strictNum args 0 "isqrt"
    let r ← lower n.toUInt64 (seed n.toUInt64)
    let r ← raise n.toUInt64 r
    .ok (.num r.toInt64)

/-! ### What they return -/

theorem lower_ok (n r : UInt64) :
    ∃ r', lower n r = .ok r' ∧ r'.toNat * r'.toNat ≤ n.toNat := by
  induction r using lower.induct n with
  | case1 r above r' less ih =>
    rcases ih with ⟨r'', run, small⟩
    refine ⟨r'', ?_, small⟩
    rw [lower, if_pos above]
    split
    · rename_i r₁ less₁
      cases less.symm.trans less₁
      exact run
    · rename_i none
      cases less.symm.trans none
  | case2 r above none =>
    have one : (1 : UInt64) ≤ r := UInt64.le_iff_toNat_le.mpr (UInt64.lt_iff_toNat_lt.mp above.1)
    rw [checkedSub, if_pos one] at none
    cases none
  | case3 r done =>
    refine ⟨r, by rw [lower, if_neg done], ?_⟩
    by_cases zero : 0 < r
    · exact Nat.le_of_not_lt fun above => done ⟨zero, squareExceeds_iff.mpr above⟩
    · have none : r.toNat = 0 := Nat.eq_zero_of_not_pos fun pos =>
        zero (UInt64.lt_iff_toNat_lt.mpr pos)
      rw [none]
      exact Nat.zero_le _

theorem raise_ok (n r : UInt64) (small : r.toNat * r.toNat ≤ n.toNat) :
    ∃ r', raise n r = .ok r' ∧ r'.toNat * r'.toNat ≤ n.toNat ∧
      n.toNat < (r'.toNat + 1) * (r'.toNat + 1) := by
  induction r using raise.induct n with
  | case1 r fits r' more ih =>
    have same : r'.toNat = r.toNat + 1 := checkedAdd_eq_some.mp more
    rcases ih (same ▸ nextFits_iff.mp fits) with ⟨r'', run, root⟩
    refine ⟨r'', ?_, root⟩
    rw [raise, if_pos fits]
    split
    · rename_i r₁ more₁
      cases more.symm.trans more₁
      exact run
    · rename_i none
      cases more.symm.trans none
  | case2 r fits none =>
    simp only [nextFits, none, Option.bind_none, Option.map_none, Option.getD_none,
      Bool.false_eq_true] at fits
  | case3 r done =>
    refine ⟨r, by rw [raise, if_neg done], small, ?_⟩
    exact Nat.lt_of_not_le fun fits => done (nextFits_iff.mpr fits)

theorem root_unique {n r r' : Nat} (low : r * r ≤ n) (high : n < (r + 1) * (r + 1))
    (low' : r' * r' ≤ n) (high' : n < (r' + 1) * (r' + 1)) : r' = r := by
  have below : r' < r + 1 := Nat.mul_self_lt_mul_self_iff.mp (Nat.lt_of_le_of_lt low' high)
  have above : r < r' + 1 := Nat.mul_self_lt_mul_self_iff.mp (Nat.lt_of_le_of_lt low high')
  omega

/-- Whatever the seed, the loops end at the root of the word. -/
theorem isqrt_exact (seed : UInt64 → UInt64) (n : Int64) :
    ∃ r : Nat, isqrt seed [.num n] = .ok (.num (Int64.ofNat r)) ∧
      r * r ≤ n.toUInt64.toNat ∧ n.toUInt64.toNat < (r + 1) * (r + 1) ∧
      ∀ r', r' * r' ≤ n.toUInt64.toNat → n.toUInt64.toNat < (r' + 1) * (r' + 1) → r' = r := by
  rcases lower_ok n.toUInt64 (seed n.toUInt64) with ⟨low, lowered, small⟩
  rcases raise_ok n.toUInt64 low small with ⟨r, raised, root⟩
  have cast : r.toInt64 = Int64.ofNat r.toNat := by
    rw [← UInt64.toInt64_ofNat', UInt64.ofNat_toNat]
  refine ⟨r.toNat, ?_, root.1, root.2, fun r' => root_unique root.1 root.2⟩
  rw [← cast]
  simp only [isqrt, List.length_cons, List.length_nil, Nat.zero_add, ne_eq, not_true, if_false,
    strictNum, List.getElem?_cons_zero, bind, Except.bind, lowered, raised]

end IntegerRoot

end LispRlm.Bytecode
