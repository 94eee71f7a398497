import LispRlm.Schnorr.Scalars
import Mathlib.Data.ZMod.Basic

/-! Keys, signatures and their verification, over the curve's group law. -/

namespace LispRlm.Schnorr

structure Pt where
  x : U256
  y : U256
  inf : Bool

/-- The arithmetic of the field and of points, and `P`, the field's order. -/
structure CurveOps where
  feAdd : U256 → U256 → U256
  feSub : U256 → U256 → U256
  feMul : U256 → U256 → U256
  feSqr : U256 → U256
  feSqrt : U256 → U256
  pointAdd : Pt → Pt → Pt
  scalarMul : U256 → Pt → Pt
  P : U256
  gPt : Pt

/-- `tagged_hash_impl`, of blocks of 32 bytes. -/
abbrev TaggedHash : Type := String → List U256 → U256

/-- The lowest bit of the last byte is clear. -/
def yIsEven (y : U256) : Bool := !y.getLsbD 0

/-- Sixty-four bytes. -/
structure Signature where
  r : U256
  s : U256
deriving DecidableEq

/-- The failure value. -/
def allZero : Signature := ⟨0, 0⟩

section Functions

variable (ops : CurveOps) (hash : TaggedHash)

def schnorrPubkeyImpl (sk : U256) : U256 :=
  let d := normalise sk
  if d = 0 then 0
  else
    let p := ops.scalarMul d ops.gPt
    if p.inf then 0 else p.x

/-- The prefix, and the coordinate after it. -/
def schnorrPubkey33Impl (sk : U256) : BitVec 8 × U256 :=
  let d := normalise sk
  if d = 0 then (0, 0)
  else
    let p := ops.scalarMul d ops.gPt
    if p.inf then (0, 0) else (if yIsEven p.y then 0x02 else 0x03, p.x)

/-- The hash that the nonce is made of. -/
def nonceHash (dp pBytes msg aux : U256) : U256 :=
  hash "BIP0340/nonce" [dp ^^^ hash "BIP0340/aux" [aux], pBytes, msg]

/-- `d` or `n - d`, by a parity. -/
def flip (even : Bool) (d : U256) : U256 := if even then d else scSubN d

/-- What both ways of signing do once they have the key's scalar and its point. -/
def signWith (dp pBytes msg aux : U256) : Signature :=
  let kp := normalise (nonceHash hash dp pBytes msg aux)
  if kp = 0 then allZero
  else
    let rPt := ops.scalarMul kp ops.gPt
    if rPt.inf then allZero
    else
      let kp := flip (yIsEven rPt.y) kp
      let e := hash "BIP0340/challenge" [rPt.x, pBytes, msg]
      ⟨rPt.x, scAddModN kp (scMulModN e dp)⟩

def schnorrSignImpl (sk msg aux : U256) : Signature :=
  let d := normalise sk
  if d = 0 then allZero
  else
    let pPt := ops.scalarMul d ops.gPt
    if pPt.inf then allZero else signWith ops hash (flip (yIsEven pPt.y) d) pPt.x msg aux

def schnorrSignPkImpl (sk : U256) (pk33 : BitVec 8 × U256) (msg aux : U256) : Signature :=
  if pk33.1 ≠ 0x02 ∧ pk33.1 ≠ 0x03 then allZero
  else
    let d := normalise sk
    if d = 0 then allZero else signWith ops hash (flip (pk33.1 = 0x02) d) pk33.2 msg aux

def schnorrVerifyImpl (pk : U256) (sig : Signature) (msg : U256) : Bool :=
  if feModN sig.r = 0 ∨ feModN sig.s = 0 then false
  else
    let ySq := ops.feAdd (ops.feMul (ops.feMul pk pk) pk) 7
    let y := ops.feSqrt ySq
    if ops.feSqr y ≠ ySq then false
    else
      let py := if yIsEven y then y else ops.feSub ops.P y
      let pPt : Pt := ⟨pk, py, false⟩
      let e := feModN (hash "BIP0340/challenge" [sig.r, pk, msg])
      let ePt := ops.scalarMul e pPt
      let rPt := ops.pointAdd (ops.scalarMul sig.s ops.gPt) ⟨ePt.x, ops.feSub ops.P ePt.y, false⟩
      if rPt.inf then false
      else if feModN rPt.x ≠ feModN sig.r then false
      else yIsEven rPt.y

end Functions

/-! ### The group law -/

/-- The points of the curve are a group, whose generator has order `n`. A point other than infinity
and its inverse have one `x` and ordinates of either parity, and `fe_sqrt` finds one of the two. -/
structure GroupLaw (ops : CurveOps) (G : Type) [AddCommGroup G] where
  pt : G → Pt
  gen : G
  pt_gen : ops.gPt = pt gen
  pt_zero : (pt 0).inf = true
  pt_inf : ∀ a, a ≠ 0 → (pt a).inf = false
  pointAdd_pt : ∀ a b, ops.pointAdd (pt a) (pt b) = pt (a + b)
  scalarMul_pt : ∀ k a, ops.scalarMul k (pt a) = pt (k.toNat • a)
  pt_neg : ∀ a, a ≠ 0 → pt (-a) = ⟨(pt a).x, ops.feSub ops.P (pt a).y, false⟩
  parity_neg : ∀ a, a ≠ 0 → yIsEven (pt (-a)).y = !yIsEven (pt a).y
  sqrt : ∀ a, a ≠ 0 →
    let ySq := ops.feAdd (ops.feMul (ops.feMul (pt a).x (pt a).x) (pt a).x) 7
    ops.feSqr (ops.feSqrt ySq) = ySq ∧
      (ops.feSqrt ySq = (pt a).y ∨ ops.feSqrt ySq = (pt (-a)).y)
  order : ∀ k : Nat, k • gen = 0 ↔ N.toNat ∣ k

namespace GroupLaw

variable {ops : CurveOps} {G : Type} [AddCommGroup G] (law : GroupLaw ops G)

/-- The point of a scalar. -/
def point (k : U256) : Pt := law.pt (k.toNat • law.gen)

theorem scalarMul_gPt (k : U256) : ops.scalarMul k ops.gPt = law.point k := by
  rw [law.pt_gen, law.scalarMul_pt]
  rfl

theorem smul_gen_ne_zero {k : Nat} (pos : 0 < k) (reduced : k < N.toNat) : k • law.gen ≠ 0 :=
  fun zero => absurd (Nat.le_of_dvd pos ((law.order k).mp zero)) (Nat.not_le.mpr reduced)

theorem smul_gen_congr {k l : Nat} (same : k % N.toNat = l % N.toNat) :
    k • law.gen = l • law.gen := by
  have whole : N.toNat • law.gen = 0 := (law.order _).mpr (Nat.dvd_refl _)
  have reduce : ∀ m : Nat, m • law.gen = (m % N.toNat) • law.gen := by
    intro m
    calc m • law.gen = (N.toNat * (m / N.toNat) + m % N.toNat) • law.gen := by
          rw [Nat.div_add_mod]
      _ = (m % N.toNat) • law.gen := by
          rw [add_nsmul, mul_nsmul, whole, nsmul_zero, zero_add]
  rw [reduce k, reduce l, same]

/-- One of `k` and `n - k` has a point with an even ordinate, and both have the same abscissa. -/
theorem flip_even {k : U256} (pos : k ≠ 0) (reduced : k.toNat < N.toNat) :
    let chosen := flip (yIsEven (law.point k).y) k
    0 < chosen.toNat ∧ chosen.toNat < N.toNat ∧ yIsEven (law.point chosen).y = true ∧
      (law.point chosen).x = (law.point k).x := by
  have positive : 0 < k.toNat := Nat.pos_of_ne_zero fun zero => pos (BitVec.eq_of_toNat_eq zero)
  dsimp only
  cases even : yIsEven (law.point k).y with
  | true => exact ⟨positive, reduced, even, rfl⟩
  | false =>
      have nonzero := law.smul_gen_ne_zero positive reduced
      have value : (scSubN k).toNat = N.toNat - k.toNat := scSubN_toNat (Nat.le_of_lt reduced)
      have inverse : (N.toNat - k.toNat) • law.gen = -(k.toNat • law.gen) := by
        rw [eq_neg_iff_add_eq_zero, ← add_nsmul, Nat.sub_add_cancel (Nat.le_of_lt reduced)]
        exact (law.order _).mpr (Nat.dvd_refl _)
      have opposite : law.point (scSubN k) = law.pt (-(k.toNat • law.gen)) := by
        rw [point, value, inverse]
      have isFlip : flip false k = scSubN k := rfl
      rw [isFlip, opposite, value]
      refine ⟨Nat.sub_pos_of_lt reduced, Nat.sub_lt (by decide) positive, ?_, ?_⟩
      · rw [law.parity_neg _ nonzero]
        exact congrArg Bool.not even
      · rw [law.pt_neg _ nonzero]
        rfl

/-- The ordinate that verification recovers is the even one. -/
theorem lift_even {d : U256} (nonzero : d.toNat • law.gen ≠ 0)
    (even : yIsEven (law.point d).y = true) :
    let x := (law.point d).x
    let ySq := ops.feAdd (ops.feMul (ops.feMul x x) x) 7
    let y := ops.feSqrt ySq
    ops.feSqr y = ySq ∧
      (⟨x, if yIsEven y then y else ops.feSub ops.P y, false⟩ : Pt) = law.point d := by
  unfold point at even ⊢
  generalize d.toNat • law.gen = a at nonzero even ⊢
  obtain ⟨square, isRoot⟩ := law.sqrt a nonzero
  refine ⟨square, ?_⟩
  have finite := law.pt_inf a nonzero
  rcases isRoot with root | root
  · rw [root, if_pos even, ← finite]
  · have odd : yIsEven (law.pt (-a)).y = false := by
      rw [law.parity_neg a nonzero, even]
      rfl
    have back := law.pt_neg (-a) (neg_ne_zero.mpr nonzero)
    rw [neg_neg] at back
    have ordinate : ops.feSub ops.P (law.pt (-a)).y = (law.pt a).y := (congrArg Pt.y back).symm
    rw [root, odd, if_neg Bool.false_ne_true, ordinate, ← finite]

end GroupLaw

/-! ### What is signed verifies -/

section Signing

variable (ops : CurveOps) (hash : TaggedHash)

def keyPoint (sk : U256) : Pt := ops.scalarMul (normalise sk) ops.gPt

/-- `d'` -/
def keyScalar (sk : U256) : U256 := flip (yIsEven (keyPoint ops sk).y) (normalise sk)

def nonce (sk msg aux : U256) : U256 :=
  nonceHash hash (keyScalar ops sk) (keyPoint ops sk).x msg aux

def noncePoint (sk msg aux : U256) : Pt := keyPoint ops (nonce ops hash sk msg aux)

/-- `k'` -/
def nonceScalar (sk msg aux : U256) : U256 := keyScalar ops (nonce ops hash sk msg aux)

def challenge (sk msg aux : U256) : U256 :=
  hash "BIP0340/challenge" [(noncePoint ops hash sk msg aux).x, (keyPoint ops sk).x, msg]

/-- Scalars are reduced modulo `n`; what is signed verifies; the cached key signs the same; and
nothing but a key or a nonce that is 0 modulo `n` fails. -/
structure SignsRight (sk msg aux : U256) : Prop where
  reduces : (normalise sk).toNat = sk.toNat % N.toNat
  reduces_nonce : ¬ N.toNat ∣ sk.toNat → (normalise (nonce ops hash sk msg aux)).toNat =
    (nonce ops hash sk msg aux).toNat % N.toNat
  verifies : schnorrSignImpl ops hash sk msg aux ≠ allZero →
    schnorrVerifyImpl ops hash (schnorrPubkeyImpl ops sk) (schnorrSignImpl ops hash sk msg aux)
      msg = true
  pk_same : schnorrSignPkImpl ops hash sk (schnorrPubkey33Impl ops sk) msg aux =
    schnorrSignImpl ops hash sk msg aux
  fails_only : schnorrSignImpl ops hash sk msg aux = allZero →
    N.toNat ∣ sk.toNat ∨ N.toNat ∣ (nonce ops hash sk msg aux).toNat

/-- Neither the key nor the nonce is above `n`, and the two halves of the signature, the nonce's
abscissa and `k' + e d'`, are not 0 modulo `n`. -/
structure InRange (sk msg aux : U256) : Prop where
  key : sk.toNat ≤ N.toNat
  nonce : ¬ N.toNat ∣ sk.toNat → (nonce ops hash sk msg aux).toNat ≤ N.toNat
  r : ¬ N.toNat ∣ sk.toNat → ¬ N.toNat ∣ (Schnorr.nonce ops hash sk msg aux).toNat →
    ¬ N.toNat ∣ (noncePoint ops hash sk msg aux).x.toNat
  s : ¬ N.toNat ∣ sk.toNat → ¬ N.toNat ∣ (Schnorr.nonce ops hash sk msg aux).toNat →
    ¬ N.toNat ∣ (nonceScalar ops hash sk msg aux).toNat +
      (challenge ops hash sk msg aux).toNat * (keyScalar ops sk).toNat

/-- The challenge takes the key to a point other than infinity. -/
def ChallengeUsable (sk msg aux : U256) : Prop :=
  ¬ N.toNat ∣ sk.toNat → ¬ N.toNat ∣ (nonce ops hash sk msg aux).toNat →
    ¬ N.toNat ∣ (challenge ops hash sk msg aux).toNat * (keyScalar ops sk).toNat

theorem signPk_pubkey33 (sk msg aux : U256) :
    schnorrSignPkImpl ops hash sk (schnorrPubkey33Impl ops sk) msg aux =
      schnorrSignImpl ops hash sk msg aux := by
  unfold schnorrSignPkImpl schnorrPubkey33Impl schnorrSignImpl
  dsimp only
  by_cases zero : normalise sk = 0
  · simp only [if_pos zero]
    rfl
  · by_cases infinite : (ops.scalarMul (normalise sk) ops.gPt).inf = true
    · simp only [if_neg zero, if_pos infinite]
      rfl
    · by_cases even : yIsEven (ops.scalarMul (normalise sk) ops.gPt).y = true
      · simp only [if_neg zero, if_neg infinite, even]
        rfl
      · simp only [if_neg zero, if_neg infinite, even]
        rfl

theorem normalise_eq_zero_iff {d : U256} (inRange : d.toNat ≤ N.toNat) :
    normalise d = 0 ↔ N.toNat ∣ d.toNat := by
  rw [← BitVec.toNat_inj, (normalise_toNat_iff d).mpr inRange]
  exact Nat.dvd_iff_mod_eq_zero.symm

variable {ops hash} {G : Type} [AddCommGroup G] (law : GroupLaw ops G)

/-- A scalar in range that is not 0 modulo `n`: its point, and the scalar of the even ordinate. -/
theorem keyScalar_spec {sk : U256} (inRange : sk.toNat ≤ N.toNat) (nonzero : ¬ N.toNat ∣ sk.toNat) :
    normalise sk ≠ 0 ∧ (keyPoint ops sk).inf = false ∧ 0 < (keyScalar ops sk).toNat ∧
      (keyScalar ops sk).toNat < N.toNat ∧
        yIsEven (law.point (keyScalar ops sk)).y = true ∧
          (law.point (keyScalar ops sk)).x = (keyPoint ops sk).x := by
  have positive : normalise sk ≠ 0 := fun zero =>
    nonzero ((normalise_eq_zero_iff inRange).mp zero)
  have reduced := normalise_lt inRange
  have isPoint : keyPoint ops sk = law.point (normalise sk) := law.scalarMul_gPt _
  refine ⟨positive, ?_, ?_⟩
  · rw [isPoint]
    refine law.pt_inf _ (law.smul_gen_ne_zero (Nat.pos_of_ne_zero fun zero => ?_) reduced)
    exact positive (BitVec.eq_of_toNat_eq zero)
  · unfold keyScalar
    rw [isPoint]
    exact law.flip_even positive reduced

theorem sign_failed_key {sk msg aux : U256} (inRange : sk.toNat ≤ N.toNat)
    (zero : N.toNat ∣ sk.toNat) : schnorrSignImpl ops hash sk msg aux = allZero := by
  have noKey := (normalise_eq_zero_iff inRange).mpr zero
  exact if_pos noKey

include law in
theorem keyPoint_finite {sk : U256} (inRange : sk.toNat ≤ N.toNat)
    (nonzero : ¬ N.toNat ∣ sk.toNat) : ¬ (ops.scalarMul (normalise sk) ops.gPt).inf = true := by
  rw [← keyPoint, (keyScalar_spec law inRange nonzero).2.1]
  exact Bool.false_ne_true

include law in
theorem pubkey_eq {sk : U256} (inRange : sk.toNat ≤ N.toNat) (nonzero : ¬ N.toNat ∣ sk.toNat) :
    schnorrPubkeyImpl ops sk = (keyPoint ops sk).x :=
  (if_neg (keyScalar_spec law inRange nonzero).1).trans
    (if_neg (keyPoint_finite law inRange nonzero))

include law in
theorem sign_eq_signWith {sk msg aux : U256} (inRange : sk.toNat ≤ N.toNat)
    (nonzero : ¬ N.toNat ∣ sk.toNat) :
    schnorrSignImpl ops hash sk msg aux =
      signWith ops hash (keyScalar ops sk) (keyPoint ops sk).x msg aux :=
  (if_neg (keyScalar_spec law inRange nonzero).1).trans
    (if_neg (keyPoint_finite law inRange nonzero))

include law in
theorem sign_eq {sk msg aux : U256} (inRange : sk.toNat ≤ N.toNat)
    (nonzero : ¬ N.toNat ∣ sk.toNat) (nonceInRange : (nonce ops hash sk msg aux).toNat ≤ N.toNat)
    (nonceNonzero : ¬ N.toNat ∣ (nonce ops hash sk msg aux).toNat) :
    schnorrSignImpl ops hash sk msg aux =
      ⟨(noncePoint ops hash sk msg aux).x,
        scAddModN (nonceScalar ops hash sk msg aux)
          (scMulModN (challenge ops hash sk msg aux) (keyScalar ops sk))⟩ := by
  rw [sign_eq_signWith law inRange nonzero]
  exact (if_neg (keyScalar_spec law nonceInRange nonceNonzero).1).trans
    (if_neg (keyPoint_finite law nonceInRange nonceNonzero))

/-- The second half of a signature. -/
theorem signed_toNat {k d : U256} (e : U256) (kLow : k.toNat < N.toNat) :
    (scAddModN k (scMulModN e d)).toNat = (k.toNat + e.toNat * d.toNat) % N.toNat := by
  have product := scMulModN_toNat e d
  have low : (scMulModN e d).toNat < N.toNat := by
    rw [product]
    exact Nat.mod_lt _ (by decide)
  have sum : k.toNat + (scMulModN e d).toNat < 2 * N.toNat := by
    rw [Nat.two_mul]
    exact Nat.add_lt_add kLow low
  rw [scAddModN_toNat sum, product, Nat.add_mod_mod]

/-- The point that verification computes is the nonce's. -/
theorem verified_point {k d e s : U256} (sum : s.toNat = (k.toNat + e.toNat * d.toNat) % N.toNat)
    (usable : ¬ N.toNat ∣ e.toNat * d.toNat) :
    let ePt := ops.scalarMul (feModN e) (law.point d)
    ops.pointAdd (ops.scalarMul s ops.gPt) ⟨ePt.x, ops.feSub ops.P ePt.y, false⟩ = law.point k := by
  have smul : (feModN e).toNat • d.toNat • law.gen = (d.toNat * (feModN e).toNat) • law.gen :=
    (mul_nsmul law.gen d.toNat (feModN e).toNat).symm
  have residue : d.toNat * (feModN e).toNat % N.toNat = e.toNat * d.toNat % N.toNat := by
    rw [feModN_toNat, Nat.mul_mod_mod, Nat.mul_comm]
  have nonzero : (d.toNat * (feModN e).toNat) • law.gen ≠ 0 := by
    rw [law.smul_gen_congr residue, Ne, law.order]
    exact usable
  have total : s.toNat • law.gen =
      k.toNat • law.gen + (d.toNat * (feModN e).toNat) • law.gen := by
    rw [law.smul_gen_congr residue, ← add_nsmul]
    refine law.smul_gen_congr ?_
    rw [sum, Nat.mod_mod]
  have isPoint : ops.scalarMul (feModN e) (law.point d) =
      law.pt ((d.toNat * (feModN e).toNat) • law.gen) := by
    rw [GroupLaw.point, law.scalarMul_pt, smul]
  dsimp only
  rw [isPoint, ← law.pt_neg _ nonzero, law.scalarMul_gPt]
  calc ops.pointAdd (law.point s) (law.pt (-((d.toNat * (feModN e).toNat) • law.gen)))
      = law.pt (s.toNat • law.gen + -((d.toNat * (feModN e).toNat) • law.gen)) :=
        law.pointAdd_pt _ _
    _ = law.point k := by
        rw [total, add_neg_cancel_right]
        rfl

theorem feModN_ne_zero {a : U256} (nonzero : ¬ N.toNat ∣ a.toNat) : feModN a ≠ 0 := by
  intro zero
  have value := feModN_toNat a
  rw [zero] at value
  exact nonzero (Nat.dvd_of_mod_eq_zero value.symm)

theorem verify_signed {k d s msg : U256}
    (kNonzero : k.toNat • law.gen ≠ 0) (dNonzero : d.toNat • law.gen ≠ 0)
    (kEven : yIsEven (law.point k).y = true) (dEven : yIsEven (law.point d).y = true)
    (sum : s.toNat = (k.toNat + (hash "BIP0340/challenge" [(law.point k).x, (law.point d).x,
      msg]).toNat * d.toNat) % N.toNat)
    (usable : ¬ N.toNat ∣ (hash "BIP0340/challenge" [(law.point k).x, (law.point d).x,
      msg]).toNat * d.toNat)
    (halfR : feModN (law.point k).x ≠ 0) (halfS : feModN s ≠ 0) :
    schnorrVerifyImpl ops hash (law.point d).x ⟨(law.point k).x, s⟩ msg = true := by
  obtain ⟨square, lifted⟩ := law.lift_even dNonzero dEven
  have computed := verified_point law sum usable
  have finite : ¬ (law.point k).inf = true := by
    rw [GroupLaw.point, law.pt_inf _ kNonzero]
    exact Bool.false_ne_true
  unfold schnorrVerifyImpl
  rw [if_neg (not_or.mpr ⟨halfR, halfS⟩)]
  dsimp only at lifted computed ⊢
  rw [if_neg (not_not.mpr square), lifted, computed, if_neg finite, if_neg (not_not.mpr rfl)]
  exact kEven

include law in
theorem verifies {sk msg aux : U256} (inRange : InRange ops hash sk msg aux)
    (usable : ChallengeUsable ops hash sk msg aux)
    (signed : schnorrSignImpl ops hash sk msg aux ≠ allZero) :
    schnorrVerifyImpl ops hash (schnorrPubkeyImpl ops sk) (schnorrSignImpl ops hash sk msg aux)
      msg = true := by
  have nonzero : ¬ N.toNat ∣ sk.toNat := fun zero => signed (sign_failed_key inRange.key zero)
  have nonceLow := inRange.nonce nonzero
  have nonceNonzero : ¬ N.toNat ∣ (nonce ops hash sk msg aux).toNat := by
    intro zero
    refine signed ((sign_eq_signWith law inRange.key nonzero).trans ?_)
    exact if_pos ((normalise_eq_zero_iff nonceLow).mpr zero)
  obtain ⟨-, -, dPos, dLow, dEven, dX⟩ := keyScalar_spec law inRange.key nonzero
  obtain ⟨-, -, kPos, kLow, kEven, kX⟩ := keyScalar_spec law nonceLow nonceNonzero
  have sum := signed_toNat (d := keyScalar ops sk) (challenge ops hash sk msg aux) kLow
  have halfR := feModN_ne_zero (inRange.r nonzero nonceNonzero)
  have halfS : feModN (scAddModN (nonceScalar ops hash sk msg aux)
      (scMulModN (challenge ops hash sk msg aux) (keyScalar ops sk))) ≠ 0 := by
    refine feModN_ne_zero fun divides => inRange.s nonzero nonceNonzero ?_
    rw [nonceScalar, sum] at divides
    exact (Nat.dvd_mod_iff (Nat.dvd_refl _)).mp divides
  have isNonceX : (noncePoint ops hash sk msg aux).x =
      (law.point (nonceScalar ops hash sk msg aux)).x := kX.symm
  have isChallenge : challenge ops hash sk msg aux = hash "BIP0340/challenge"
      [(law.point (nonceScalar ops hash sk msg aux)).x, (law.point (keyScalar ops sk)).x, msg] := by
    rw [challenge, isNonceX, dX]
  rw [pubkey_eq law inRange.key nonzero, sign_eq law inRange.key nonzero nonceLow
    nonceNonzero, isNonceX, ← dX]
  refine verify_signed law (law.smul_gen_ne_zero kPos kLow) (law.smul_gen_ne_zero dPos dLow) kEven
    dEven ?_ ?_ ?_ halfS
  · rw [← isChallenge]
    exact sum
  · rw [← isChallenge]
    exact usable nonzero nonceNonzero
  · rw [← isNonceX]
    exact halfR

/-- A signature with a half that is 0 modulo `n` is refused. -/
theorem not_verifies_of_zero {pk r s msg : U256} (zero : N.toNat ∣ r.toNat ∨ N.toNat ∣ s.toNat) :
    schnorrVerifyImpl ops hash pk ⟨r, s⟩ msg = false := by
  refine if_pos (zero.imp ?_ ?_)
  · intro divides
    exact BitVec.eq_of_toNat_eq ((feModN_toNat _).trans (Nat.mod_eq_zero_of_dvd divides))
  · intro divides
    exact BitVec.eq_of_toNat_eq ((feModN_toNat _).trans (Nat.mod_eq_zero_of_dvd divides))

include law in
theorem inRange_of_signsRight {sk msg aux : U256} (right : SignsRight ops hash sk msg aux) :
    InRange ops hash sk msg aux := by
  have key := (normalise_toNat_iff sk).mp right.reduces
  have nonceLow : ¬ N.toNat ∣ sk.toNat → (nonce ops hash sk msg aux).toNat ≤ N.toNat :=
    fun nonzero => (normalise_toNat_iff _).mp (right.reduces_nonce nonzero)
  have halves : ¬ N.toNat ∣ sk.toNat → ¬ N.toNat ∣ (nonce ops hash sk msg aux).toNat →
      ¬ (N.toNat ∣ (noncePoint ops hash sk msg aux).x.toNat ∨
        N.toNat ∣ (scAddModN (nonceScalar ops hash sk msg aux)
          (scMulModN (challenge ops hash sk msg aux) (keyScalar ops sk))).toNat) := by
    intro nonzero nonceNonzero zero
    have signs := sign_eq law key nonzero (nonceLow nonzero) nonceNonzero
    have signed : schnorrSignImpl ops hash sk msg aux ≠ allZero := fun failed =>
      (right.fails_only failed).elim nonzero nonceNonzero
    have verified := right.verifies signed
    rw [signs, not_verifies_of_zero zero] at verified
    exact Bool.false_ne_true verified
  refine ⟨key, nonceLow, fun nonzero nonceNonzero divides =>
    halves nonzero nonceNonzero (.inl divides), fun nonzero nonceNonzero divides =>
      halves nonzero nonceNonzero (.inr ?_)⟩
  obtain ⟨-, -, -, kLow, -⟩ := keyScalar_spec law (nonceLow nonzero) nonceNonzero
  rw [nonceScalar, signed_toNat _ kLow]
  exact (Nat.dvd_mod_iff (Nat.dvd_refl _)).mpr divides

include law in
theorem signsRight_of_inRange {sk msg aux : U256} (inRange : InRange ops hash sk msg aux)
    (usable : ChallengeUsable ops hash sk msg aux) : SignsRight ops hash sk msg aux where
  reduces := (normalise_toNat_iff sk).mpr inRange.key
  reduces_nonce := fun nonzero => (normalise_toNat_iff _).mpr (inRange.nonce nonzero)
  verifies := verifies law inRange usable
  pk_same := signPk_pubkey33 ops hash sk msg aux
  fails_only := by
    intro failed
    by_contra neither
    obtain ⟨nonzero, nonceNonzero⟩ := not_or.mp neither
    rw [sign_eq law inRange.key nonzero (inRange.nonce nonzero) nonceNonzero] at failed
    have zero : (noncePoint ops hash sk msg aux).x = 0 := congrArg Signature.r failed
    refine inRange.r nonzero nonceNonzero ?_
    rw [zero]
    exact Nat.dvd_zero _

end Signing

/-! ### A group that has the law -/

section Cyclic

variable (n : Nat) [NeZero n]

/-- The residues, as points: `a` and `-a` have one abscissa, and the ordinates 0 and 1. -/
def residuePt (a : ZMod n) : Pt :=
  if a = 0 then ⟨0, 0, true⟩
  else ⟨BitVec.ofNat 256 (min a.val (n - a.val)), if 2 * a.val < n then 0 else 1, false⟩

def residueOf (p : Pt) : ZMod n :=
  if p.inf then 0 else if p.y = 0 then p.x.toNat else -p.x.toNat

def residueOps : CurveOps where
  feAdd := fun _ _ => 0
  feSub := fun _ y => y ^^^ 1
  feMul := fun _ _ => 0
  feSqr := fun _ => 0
  feSqrt := fun _ => 0
  pointAdd := fun p q => residuePt n (residueOf n p + residueOf n q)
  scalarMul := fun k p => residuePt n (k.toNat • residueOf n p)
  P := 0
  gPt := residuePt n 1

variable {n}

theorem residueOf_residuePt (bound : n < 2 ^ 256) (a : ZMod n) :
    residueOf n (residuePt n a) = a := by
  unfold residuePt
  by_cases zero : a = 0
  · simp [zero, residueOf]
  · have low := a.val_lt
    have small : min a.val (n - a.val) < 2 ^ 256 := by omega
    rw [if_neg zero, residueOf, if_neg Bool.false_ne_true]
    by_cases half : 2 * a.val < n
    · have least : min a.val (n - a.val) = a.val := by omega
      rw [if_pos half, if_pos rfl, BitVec.toNat_ofNat, Nat.mod_eq_of_lt small, least]
      exact ZMod.natCast_zmod_val a
    · have least : min a.val (n - a.val) = n - a.val := by omega
      have one : ¬ (1 : U256) = 0 := by decide
      rw [if_neg half, if_neg one, BitVec.toNat_ofNat, Nat.mod_eq_of_lt small, least,
        Nat.cast_sub (Nat.le_of_lt low), ZMod.natCast_self, ZMod.natCast_zmod_val, zero_sub,
        neg_neg]

theorem residuePt_neg (odd : n % 2 = 1) {a : ZMod n} (nonzero : a ≠ 0) :
    residuePt n (-a) = ⟨(residuePt n a).x, (residuePt n a).y ^^^ 1, false⟩ ∧
      yIsEven (residuePt n (-a)).y = !yIsEven (residuePt n a).y := by
  have low := a.val_lt
  have value : (-a).val = n - a.val := by
    rw [ZMod.neg_val, if_neg nonzero]
  unfold residuePt
  rw [if_neg nonzero, if_neg (neg_ne_zero.mpr nonzero), value]
  have twice : n - (n - a.val) = a.val := by omega
  rw [twice, min_comm]
  by_cases half : 2 * a.val < n
  · have other : ¬ 2 * (n - a.val) < n := by omega
    have ordinate : (0 : U256) ^^^ 1 = 1 := by decide
    have parity : yIsEven 1 = !yIsEven 0 := by decide
    rw [if_pos half, if_neg other]
    exact ⟨congrArg (Pt.mk _ · false) ordinate.symm, parity⟩
  · have other : 2 * (n - a.val) < n := by omega
    have ordinate : (1 : U256) ^^^ 1 = 0 := by decide
    have parity : yIsEven 0 = !yIsEven 1 := by decide
    rw [if_neg half, if_pos other]
    exact ⟨congrArg (Pt.mk _ · false) ordinate.symm, parity⟩

def residueLaw (isOrder : n = N.toNat) : GroupLaw (residueOps n) (ZMod n) :=
  have bound : n < 2 ^ 256 := isOrder ▸ N.isLt
  have odd : n % 2 = 1 := isOrder ▸ by decide
  { pt := residuePt n
    gen := 1
    pt_gen := rfl
    pt_zero := by simp [residuePt]
    pt_inf := by
      intro a nonzero
      simp [residuePt, nonzero]
    pointAdd_pt := by
      intro a b
      simp only [residueOps, residueOf_residuePt bound]
    scalarMul_pt := by
      intro k a
      simp only [residueOps, residueOf_residuePt bound]
    pt_neg := fun a nonzero => (residuePt_neg odd nonzero).1
    parity_neg := fun a nonzero => (residuePt_neg odd nonzero).2
    sqrt := by
      intro a nonzero
      refine ⟨rfl, ?_⟩
      rw [(residuePt_neg odd nonzero).1]
      unfold residuePt
      rw [if_neg nonzero]
      by_cases half : 2 * a.val < n
      · rw [if_pos half]
        exact .inl rfl
      · rw [if_neg half]
        exact .inr (show (0 : U256) = 1 ^^^ 1 by decide)
    order := by
      intro k
      rw [nsmul_one, ← isOrder]
      exact ZMod.natCast_eq_zero_iff k n }

end Cyclic

instance : NeZero N.toNat := ⟨by decide⟩

end LispRlm.Schnorr
