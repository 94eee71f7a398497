import LispRlm.WasmEmit.CheckedWords

/-! The emitted `for` loop. Its counter is a bare integer in the local of the variable's name, which
the body and the code after the loop read as a tagged word. -/

namespace LispRlm.WasmEmit

namespace ForLoop

/-- The locals by name, the slots of the closure, and everything else. -/
structure State (ρ : Type) where
  locals : String → I64
  slots : String → I64
  rest : ρ

variable {ρ : Type}

def State.set (s : State ρ) (x : String) (w : I64) : State ρ :=
  { s with locals := fun y => if y = x then w else s.locals y }

@[simp] theorem State.set_self (s : State ρ) (x : String) (w : I64) : (s.set x w).locals x = w :=
  if_pos rfl

@[simp] theorem State.set_slots (s : State ρ) (x : String) (w : I64) :
    (s.set x w).slots = s.slots := rfl

abbrev Code (ρ : Type) := State ρ → Option (I64 × State ρ)

/-- What the variable's name stands for where the loop begins. -/
inductive Binding
  | free
  | declared
  | define (value : I64)
  | captured
  deriving DecidableEq

/-- The value of the variable before the loop, where there is one. -/
def Binding.former (binding : Binding) (x : String) (s : State ρ) : Option I64 :=
  match binding with
  | free => none
  | declared => some (s.locals x)
  | define value => some value
  | captured => some (s.slots x)

/-- The value of the variable in the body and after the loop: a captured name comes first, and a
local before a define. -/
def Binding.readSym (binding : Binding) (x : String) (s : State ρ) : I64 :=
  if binding = captured then s.slots x else s.locals x

def runBody : List (Code ρ) → State ρ → Option (State ρ)
  | [], s => some s
  | e :: es, s => do
      let (_, s) ← e s
      runBody es s

/-- The turns: what the body reads at the start of each, and the last state. -/
def forTurns (binding : Binding) (x : String) (stop : Code ρ) (body : List (Code ρ)) :
    Nat → State ρ → Option (List I64 × State ρ)
  | 0, _ => none
  | fuel + 1, s => do
      let counter := s.locals x
      let (w, s) ← stop s
      if (Builtin.untag w).sle counter then some ([], s)
      else do
        let word := binding.readSym x s
        let s ← runBody body s
        let s := s.set x (s.locals x + 1)
        let (words, s) ← forTurns binding x stop body fuel s
        some (word :: words, s)

def forLoop (binding : Binding) (x : String) (start stop : Code ρ) (body : List (Code ρ))
    (fuel : Nat) (s : State ρ) : Option (List I64 × State ρ) := do
  let (w, s) ← start s
  forTurns binding x stop body fuel (s.set x (Builtin.untag w))

/-- The bounds are integers wherever the loop evaluates them: in the states of an invariant, which
the counter's assignments and the body keep. -/
structure Bounds (inv : State ρ → Prop) (x : String) (start stop : Code ρ) (body : List (Code ρ))
    (a b : Payload) : Prop where
  start : ∀ s, inv s → start s = some (tagWord a.val, s)
  stop : ∀ s, inv s → stop s = some (tagWord b.val, s)
  set : ∀ s w, inv s → inv (s.set x w)
  body : ∀ s t, inv s → runBody body s = some t → inv t

/-- The body reads each number of the range once, in order, and the variable of the enclosing scope
has its value again. -/
def Correct (binding : Binding) (x : String) (start stop : Code ρ) (body : List (Code ρ))
    (s : State ρ) (a b : Int) : Prop :=
  ∃ fuel words t, forLoop binding x start stop body fuel s = some (words, t) ∧
    words = (List.range (b - a).toNat).map (fun k : Nat => tagWord (a + k)) ∧
    ∀ w, binding.former x s = some w → binding.readSym x t = w

/-- No turn at all, or a single one for zero; and then the enclosing variable had the word that the
counter ends with. -/
def Meets (binding : Binding) (x : String) (body : List (Code ρ)) (s : State ρ) (a b : Int) :
    Prop :=
  b ≤ a ∧ (binding = .captured ∨ ∀ w, binding.former x s = some w → w = .ofInt 64 a) ∨
    binding ≠ .captured ∧ a = 0 ∧ b = 1 ∧ ∃ t, runBody body (s.set x 0) = some t ∧
      0 < (t.locals x + 1).toInt ∧ ∀ w, binding.former x s = some w → w = t.locals x + 1

/-! ### Turns -/

variable {binding : Binding} {x : String} {start stop : Code ρ} {body : List (Code ρ)}
  {s t : State ρ} {inv : State ρ → Prop} {a b : Payload}

theorem payload_toInt (n : Payload) : (BitVec.ofInt 64 n.val).toInt = n.val :=
  toInt_ofInt_inI64 (inI64_of_inPayload n.property)

theorem tagWord_toInt {n : Int} (fits : inPayload n = true) : (tagWord n).toInt = 8 * n := by
  rw [tagWord, toInt_ofInt_inI64 (by rwa [inI64_shifted]), Int.mul_comm]

/-- A turn begins when the counter is below the bound, and ends the loop otherwise. -/
theorem forTurns_succ (bounds : Bounds inv x start stop body a b) (here : inv s) (fuel : Nat) :
    forTurns binding x stop body (fuel + 1) s =
      if b.val ≤ (s.locals x).toInt then some ([], s)
      else (do
        let t ← runBody body s
        let (words, u) ← forTurns binding x stop body fuel (t.set x (t.locals x + 1))
        some (binding.readSym x s :: words, u)) := by
  have order : (Builtin.untag (tagWord b.val)).sle (s.locals x) =
      decide (b.val ≤ (s.locals x).toInt) := by
    rw [untag_tagWord, BitVec.sle_eq_decide, payload_toInt]
  rw [forTurns, bounds.stop s here, Option.bind_eq_bind, Option.bind_some]
  dsimp only
  rw [order]
  by_cases done : b.val ≤ (s.locals x).toInt
  · rw [decide_eq_true done, if_pos rfl, if_pos done]
  · rw [decide_eq_false done, if_neg Bool.false_ne_true, if_neg done]

/-- What a body reads from the counter's own local is a counter below the bound. -/
theorem word_lt_bound (bounds : Bounds inv x start stop body a b) (here : inv s)
    (own : binding ≠ .captured) {fuel : Nat} {words : List I64}
    (run : forTurns binding x stop body fuel s = some (words, t)) :
    ∀ w ∈ words, w.toInt < b.val := by
  induction fuel generalizing s words with
  | zero => exact absurd run (by simp [forTurns])
  | succ fuel ih =>
      rw [forTurns_succ bounds here] at run
      split_ifs at run with done
      · obtain ⟨rfl, -⟩ := Prod.mk.inj (Option.some.inj run)
        intro w mem
        cases mem
      · obtain ⟨u, finished, run⟩ := Option.bind_eq_some_iff.mp run
        obtain ⟨⟨rest, v⟩, more, last⟩ := Option.bind_eq_some_iff.mp run
        obtain ⟨rfl, rfl⟩ := Prod.mk.inj (Option.some.inj last)
        intro w mem
        rcases List.mem_cons.mp mem with rfl | mem
        · rw [Binding.readSym, if_neg own]
          exact Int.not_le.mp done
        · exact ih (bounds.set _ _ (bounds.body s u here finished)) more w mem

theorem forLoop_eq (bounds : Bounds inv x start stop body a b) (here : inv s) (fuel : Nat) :
    forLoop binding x start stop body fuel s =
      forTurns binding x stop body fuel (s.set x (.ofInt 64 a.val)) := by
  rw [forLoop, bounds.start s here, Option.bind_eq_bind, Option.bind_some]
  dsimp only
  rw [untag_tagWord]

/-! ### The loop -/

/-- An empty range leaves its start in the local. -/
theorem empty_correct (bounds : Bounds inv x start stop body a b) (here : inv s)
    (empty : b.val ≤ a.val) :
    Correct binding x start stop body s a.val b.val ↔
      binding = .captured ∨ ∀ w, binding.former x s = some w → w = .ofInt 64 a.val := by
  have counter : ((s.set x (.ofInt 64 a.val)).locals x).toInt = a.val := by
    rw [State.set_self, payload_toInt]
  have none : (List.range (b.val - a.val).toNat).map (fun k : Nat => tagWord (a.val + k)) = [] := by
    rw [Int.toNat_of_nonpos (by omega)]
    rfl
  have run (fuel : Nat) : forLoop binding x start stop body (fuel + 1) s =
      some ([], s.set x (.ofInt 64 a.val)) := by
    rw [forLoop_eq bounds here, forTurns_succ bounds (bounds.set _ _ here),
      if_pos (by rw [counter]; exact empty)]
  constructor
  · rintro ⟨fuel, words, t, loop, -, restored⟩
    cases fuel with
    | zero => exact absurd loop (by rw [forLoop_eq bounds here]; simp [forTurns])
    | succ fuel =>
        rw [run] at loop
        obtain ⟨-, rfl⟩ := Prod.mk.inj (Option.some.inj loop)
        refine or_iff_not_imp_left.mpr fun own w former => ?_
        have same := restored w former
        rwa [Binding.readSym, if_neg own, State.set_self, eq_comm] at same
  · intro former
    refine ⟨1, [], _, run 0, none.symm, fun w before => ?_⟩
    rcases former with rfl | same
    · rw [Binding.readSym, if_pos rfl, State.set_slots]
      exact Option.some.inj before
    · by_cases own : binding = .captured
      · subst own
        rw [Binding.readSym, if_pos rfl, State.set_slots]
        exact Option.some.inj before
      · rw [Binding.readSym, if_neg own, State.set_self, same w before]

theorem single_correct
    (bounds : Bounds inv x start stop body ⟨0, by decide⟩ ⟨1, by decide⟩) (here : inv s)
    (own : binding ≠ .captured) (finished : runBody body (s.set x 0) = some t) (above : 0 < (t.locals x + 1).toInt)
    (former : ∀ w, binding.former x s = some w → w = t.locals x + 1) :
    Correct binding x start stop body s 0 1 := by
  have zero : ((s.set x 0).locals x).toInt = 0 := by
    rw [State.set_self]
    rfl
  have last : ((t.set x (t.locals x + 1)).locals x).toInt = (t.locals x + 1).toInt := by
    rw [State.set_self]
  have first := bounds.set s 0 here
  refine ⟨2, [tagWord 0], t.set x (t.locals x + 1), ?_, rfl, fun w before => ?_⟩
  · rw [forLoop_eq bounds here]
    change forTurns binding x stop body 2 (s.set x 0) = _
    rw [forTurns_succ bounds first, if_neg (by rw [zero]; decide), finished, Option.bind_eq_bind,
      Option.bind_some, forTurns_succ bounds (bounds.set _ _ (bounds.body _ t first finished)),
      if_pos (by rw [last]; exact above), Option.bind_eq_bind, Option.bind_some, Binding.readSym,
      if_neg own, State.set_self]
    rfl
  · rw [Binding.readSym, if_neg own, State.set_self, former w before]

/-- A counter that is read as a number is zero, and no later one is. -/
theorem nonempty_meets (bounds : Bounds inv x start stop body a b) (here : inv s)
    (own : binding ≠ .captured) (some_turn : a.val < b.val)
    (correct : Correct binding x start stop body s a.val b.val) :
    a.val = 0 ∧ b.val = 1 ∧ ∃ t, runBody body (s.set x 0) = some t ∧
      0 < (t.locals x + 1).toInt ∧ ∀ w, binding.former x s = some w → w = t.locals x + 1 := by
  have fitsB := b.property
  simp only [inPayload, Bool.and_eq_true, decide_eq_true_eq] at fitsB
  have fitsA := a.property
  simp only [inPayload, Bool.and_eq_true, decide_eq_true_eq] at fitsA
  obtain ⟨fuel, words, t, loop, inOrder, restored⟩ := correct
  rw [forLoop_eq bounds here] at loop
  have first := bounds.set s (.ofInt 64 a.val) here
  have below := word_lt_bound bounds first own loop
  have count : (b.val - a.val).toNat = (b.val - a.val).toNat - 1 + 1 := by omega
  -- the last number of the range was read, eight times as large
  have lastMem : tagWord (b.val - 1) ∈ words := by
    rw [inOrder]
    refine List.mem_map.mpr ⟨(b.val - a.val).toNat - 1, List.mem_range.mpr (by omega), ?_⟩
    congr 1
    omega
  have lastWord := below _ lastMem
  rw [tagWord_toInt (by simp only [inPayload, Bool.and_eq_true, decide_eq_true_eq]; omega)]
    at lastWord
  cases fuel with
  | zero => exact absurd loop (by simp [forTurns])
  | succ fuel =>
      have counter : ((s.set x (.ofInt 64 a.val)).locals x).toInt = a.val := by
        rw [State.set_self, payload_toInt]
      rw [forTurns_succ bounds first, if_neg (by rw [counter]; omega)] at loop
      obtain ⟨u, finished, loop⟩ := Option.bind_eq_some_iff.mp loop
      have second := bounds.set u (u.locals x + 1) (bounds.body _ u first finished)
      obtain ⟨⟨rest, v⟩, more, last⟩ := Option.bind_eq_some_iff.mp loop
      obtain ⟨whole, rfl⟩ := Prod.mk.inj (Option.some.inj last)
      rw [Binding.readSym, if_neg own, State.set_self, inOrder, count, List.range_succ_eq_map,
        List.map_cons] at whole
      obtain ⟨zeroth, others⟩ := List.cons.inj whole
      have start : a.val = 0 := by
        have same := congrArg BitVec.toInt zeroth
        rw [payload_toInt, tagWord_toInt (by simpa using a.property)] at same
        push_cast at same
        omega
      have stop : b.val = 1 := by omega
      rw [start, stop] at others
      obtain rfl : rest = [] := others
      rw [start] at finished
      refine ⟨start, stop, u, finished, ?_, fun w before => ?_⟩
      · cases fuel with
        | zero => exact absurd more (by simp [forTurns])
        | succ fuel =>
            rw [forTurns_succ bounds second, State.set_self] at more
            split_ifs at more with done
            · omega
            · obtain ⟨_, -, more⟩ := Option.bind_eq_some_iff.mp more
              obtain ⟨_, -, more⟩ := Option.bind_eq_some_iff.mp more
              exact absurd (Prod.mk.inj (Option.some.inj more)).1 (by simp)
      · cases fuel with
        | zero => exact absurd more (by simp [forTurns])
        | succ fuel =>
            rw [forTurns_succ bounds second, State.set_self] at more
            split_ifs at more with done
            · obtain ⟨-, rfl⟩ := Prod.mk.inj (Option.some.inj more)
              have same := restored w before
              rwa [Binding.readSym, if_neg own, State.set_self, eq_comm] at same
            · obtain ⟨_, -, more⟩ := Option.bind_eq_some_iff.mp more
              obtain ⟨_, -, more⟩ := Option.bind_eq_some_iff.mp more
              exact absurd (Prod.mk.inj (Option.some.inj more)).1 (by simp)

/-- A body that needs its variable's number gets the bare counter, and so does the code after the
loop: right for an empty range and for zero alone. -/
theorem for_binds (bounds : Bounds inv x start stop body a b) (here : inv s) :
    (Meets binding x body s a.val b.val → Correct binding x start stop body s a.val b.val) ∧
      (binding ≠ .captured → Correct binding x start stop body s a.val b.val →
        Meets binding x body s a.val b.val) := by
  constructor
  · rintro (⟨empty, former⟩ | ⟨own, first, single, t, finished, above, former⟩)
    · exact (empty_correct bounds here empty).mpr former
    · obtain rfl : a = ⟨0, by decide⟩ := Subtype.ext first
      obtain rfl : b = ⟨1, by decide⟩ := Subtype.ext single
      exact single_correct bounds here own finished above former
  · intro own correct
    rcases Int.lt_or_le a.val b.val with turns | empty
    · exact .inr ⟨own, nonempty_meets bounds here own turns correct⟩
    · exact .inl ⟨empty, (empty_correct bounds here empty).mp correct⟩

/-- A literal. -/
def literal (n : Int) : Code Unit := fun s => some (tagWord n, s)

/-- Every local holds the number five. -/
def fives : State Unit := ⟨fun _ => tagWord 5, fun _ => 0, ()⟩

theorem literal_bounds (a b : Payload) :
    Bounds (fun _ => True) "i" (literal a.val) (literal b.val) [literal 0] a b :=
  ⟨fun _ _ => rfl, fun _ _ => rfl, fun _ _ _ => trivial, fun _ _ _ _ => trivial⟩

/-- `(for i 0 1 nil)` where no variable has the name `i`. -/
theorem for_binds_zero : Correct .free "i" (literal 0) (literal 1) [literal 0] fives 0 1 :=
  (for_binds (literal_bounds ⟨0, by decide⟩ ⟨1, by decide⟩) trivial).1
    (.inr ⟨by decide, rfl, rfl, _, rfl, by decide, fun w none => nomatch none⟩)

/-- A range of three numbers; and a variable `i` of five, which is one word past zero after a loop
over zero. -/
theorem for_wrong :
    ¬ Correct .free "i" (literal 0) (literal 3) [literal 0] fives 0 3 ∧
      ¬ Correct .declared "i" (literal 0) (literal 1) [literal 0] fives 0 1 := by
  constructor
  · intro correct
    obtain ⟨-, single, -⟩ := nonempty_meets
      (literal_bounds ⟨0, by decide⟩ ⟨3, by decide⟩) trivial (by decide) (by decide) correct
    exact absurd single (by decide)
  · intro correct
    obtain ⟨-, -, t, finished, -, former⟩ := nonempty_meets
      (literal_bounds ⟨0, by decide⟩ ⟨1, by decide⟩) trivial (by decide) (by decide) correct
    obtain rfl := Option.some.inj finished
    exact absurd (former _ rfl) (by decide)

end ForLoop

end LispRlm.WasmEmit
