import LispRlm.Foundation.StackCode

/-! Validated stack code is never stuck, leaves the values it announces, and leaves what is below
them alone; so the code of operands can be put in the holes. -/

namespace LispRlm.Foundation

variable {ι P H T W M : Type}

/-- What a validator knows of the operand stack: the types on top and, after a branch, that
anything may be below. -/
structure Typing (T : Type) where
  known : List T
  dead : Bool
  deriving DecidableEq

namespace Typing

def empty : Typing T := ⟨[], false⟩

def push (ts : List T) (s : Typing T) : Typing T := { s with known := ts ++ s.known }

def pop [DecidableEq T] : List T → Typing T → Option (Typing T)
  | [], s => some s
  | t :: ts, s =>
      match s.known with
      | t' :: rest => if t = t' then pop ts { s with known := rest } else none
      | [] => if s.dead then pop ts s else none

theorem pop_live [DecidableEq T] {ts : List T} {s s' : Typing T} (popped : pop ts s = some s')
    (live : s.dead = false) :
    s'.dead = false ∧ s.known.length = ts.length + s'.known.length := by
  induction ts generalizing s with
  | nil =>
      obtain rfl : s = s' := by simpa [pop] using popped
      exact ⟨live, by simp⟩
  | cons t ts ih =>
      rw [pop] at popped
      split at popped
      · rename_i t' rest known
        split at popped
        · obtain ⟨dead, length⟩ := ih popped live
          have length : rest.length = ts.length + s'.known.length := length
          refine ⟨dead, ?_⟩
          rw [known, List.length_cons, List.length_cons, length]
          omega
        · cases popped
      · rw [live] at popped
        cases popped

end Typing

section Checking

variable [DecidableEq T] (machine : StackMachine ι P T W M)

/-- The types left are exactly these. -/
def Typing.endsWith (results : List T) (s : Typing T) : Bool :=
  match s.pop results with
  | some ⟨[], _⟩ => true
  | _ => false

/-- Validation: `labels` are the types that a branch to each enclosing label carries. -/
def check (labels : List (List T)) : Code ι P H T → Typing T → Option (Typing T)
  | .skip, s => some s
  | .seq first second, s => (check labels first s).bind (check labels second)
  | .prim op, s => (s.pop (machine.takes op)).map (·.push (machine.gives op))
  | .localGet x, s => some (s.push [machine.local_ x])
  | .localSet x, s => s.pop [machine.local_ x]
  | .localTee x, s => (s.pop [machine.local_ x]).map (·.push [machine.local_ x])
  | .block results body, s =>
      match check (results :: labels) body .empty with
      | some inner => if inner.endsWith results then some (s.push results) else none
      | none => none
  | .loop results body, s =>
      match check ([] :: labels) body .empty with
      | some inner => if inner.endsWith results then some (s.push results) else none
      | none => none
  | .ifElse results thenBody elseBody, s =>
      match s.pop [machine.condition], check (results :: labels) thenBody .empty,
        check (results :: labels) elseBody .empty with
      | some below, some yes, some no =>
          if yes.endsWith results && no.endsWith results then some (below.push results) else none
      | _, _, _ => none
  | .br depth, s =>
      match labels[depth]? with
      | some carried => (s.pop carried).map fun _ => ⟨[], true⟩
      | none => none
  | .brIf depth, s =>
      match s.pop [machine.condition], labels[depth]? with
      | some below, some carried => (below.pop carried).map (·.push carried)
      | _, _ => none
  | .unreachable, _ => some ⟨[], true⟩
  | .hole _, s => some (s.push [machine.word])

/-- Code that validates as the body of a block with these results. -/
def validates (labels : List (List T)) (code : Code ι P H T) (results : List T) : Bool :=
  match check machine labels code .empty with
  | some s => s.endsWith results
  | none => false

theorem check_append (labels : List (List T)) (first second : List (Code ι P H T))
    (s : Typing T) :
    check machine labels (.ofList (first ++ second)) s =
      (check machine labels (.ofList first) s).bind (check machine labels (.ofList second)) := by
  induction first generalizing s with
  | nil => rfl
  | cons i rest ih =>
      simp only [List.cons_append, Code.ofList, check, Option.bind_assoc]
      congr 1
      funext s'
      exact ih s'

/-- Code repeated for each of several items, which leaves the stack as it was. -/
theorem check_flatMap {α : Type} {labels : List (List T)} {each : α → List (Code ι P H T)}
    {s : Typing T} (once : ∀ x, check machine labels (.ofList (each x)) s = some s)
    (xs : List α) : check machine labels (.ofList (xs.flatMap each)) s = some s := by
  induction xs with
  | nil => rfl
  | cons x rest ih =>
      rw [List.flatMap_cons, check_append, once]
      exact ih

theorem check_holes (labels : List (List T)) (hs : List H) (s : Typing T) :
    check machine labels (.ofList (hs.map .hole)) s =
      some (s.push (List.replicate hs.length machine.word)) := by
  induction hs generalizing s with
  | nil => rfl
  | cons h rest ih =>
      rw [List.map_cons, Code.ofList, check, check, Option.bind_some, ih, List.length_cons,
        List.replicate_succ']
      simp [Typing.push]

theorem Typing.pop_push (ts : List T) (s : Typing T) : (s.push ts).pop ts = some s := by
  induction ts with
  | nil => rfl
  | cons t rest ih => simpa [Typing.pop, Typing.push] using ih

theorem validates_of_check {labels : List (List T)} {code : Code ι P H T} {results : List T}
    (checked : check machine labels code .empty = some (Typing.empty.push results)) :
    validates machine labels code results = true := by
  rw [validates, checked]
  simp only [Typing.endsWith, Typing.pop_push]
  rfl

/-- What a run of validated code may come to. -/
def Sound (labels : List (List T)) (after : Typing T) : Outcome ι W M → Prop
  | .next c => after.dead = false ∧ c.stack.length = after.known.length
  | .branch n c => ∃ carried, labels[n]? = some carried ∧ carried.length ≤ c.stack.length
  | .stuck => False
  | .trap => True
  | .outOfFuel => True

def Answer.NotStuck : Answer ι W M → Prop
  | .stuck => False
  | _ => True

theorem Typing.length_of_endsWith {results : List T} {s : Typing T}
    (ends : s.endsWith results = true) (live : s.dead = false) :
    s.known.length = results.length := by
  unfold Typing.endsWith at ends
  split at ends
  · rename_i popped
    simpa using (Typing.pop_live popped live).2
  · cases ends

/-- A block whose body is sound for its label leaves its results. -/
theorem leave_sound {labels : List (List T)} {results carried : List T} {inner below : Typing T}
    {o : Outcome ι W M} {stack : List W}
    (ends : inner.endsWith results = true) (sound : Sound (carried :: labels) inner o)
    (enough : ∀ c, o = .branch 0 c → results.length ≤ carried.length)
    (live : below.dead = false) (length : stack.length = below.known.length) :
    Sound labels (below.push results) (o.leave results.length stack) := by
  cases o with
  | next c =>
      obtain ⟨alive, known⟩ := sound
      have exact_ : c.stack.length = results.length :=
        known.trans (Typing.length_of_endsWith ends alive)
      simp only [Outcome.leave, exact_, Nat.le_refl, if_true]
      constructor
      · exact live
      · simp [Typing.push, exact_, length]
  | branch n c =>
      obtain ⟨ts, found, long⟩ := sound
      cases n with
      | zero =>
          obtain rfl : carried = ts := by simpa using found
          have short := Nat.le_trans (enough c rfl) long
          simp only [Outcome.leave, short, if_true]
          constructor
          · exact live
          · simp [Typing.push, short, length]
      | succ n =>
          refine ⟨ts, by simpa using found, ?_⟩
          simp only [List.length_append]
          omega
  | trap => trivial
  | stuck => exact sound.elim
  | outOfFuel => trivial

omit [DecidableEq T] in
theorem repeatLoop_sound {labels : List (List T)} {inner : Typing T}
    {body : Store ι W M → Outcome ι W M} (sound : ∀ s, Sound labels inner (body s)) (n : Nat)
    (s : Store ι W M) :
    Sound labels inner (repeatLoop body n s) ∧ ∀ c, repeatLoop body n s ≠ .branch 0 c := by
  induction n generalizing s with
  | zero => exact ⟨trivial, fun _ h => by cases h⟩
  | succ n ih =>
      rw [repeatLoop]
      split
      · exact ih _
      · rename_i other
        exact ⟨sound s, other⟩

variable [DecidableEq ι] {machine}

/-- Validated code, started on a stack of the announced height, does what `Sound` says. -/
theorem check_sound {fill : H → Store ι W M → Answer ι W M} (answers : ∀ h s, (fill h s).NotStuck)
    (fuel : Nat) {code : Code ι P H T} {labels : List (List T)} {s s' : Typing T}
    {c : Config ι W M} (checked : check machine labels code s = some s') (live : s.dead = false)
    (length : c.stack.length = s.known.length) :
    Sound labels s' (run machine fill fuel code c) := by
  induction code generalizing labels s s' c with
  | skip =>
      obtain rfl : s = s' := by simpa [check] using checked
      exact ⟨live, length⟩
  | seq first second ihFirst ihSecond =>
      obtain ⟨middle, before, after⟩ := Option.bind_eq_some_iff.mp checked
      have sound := ihFirst before live length
      rw [run]
      split
      · rename_i c' ran
        rw [ran] at sound
        exact ihSecond after sound.1 sound.2
      · rename_i other
        revert sound
        generalize run machine fill fuel first c = o at other
        cases o with
        | next c' => exact (other c' rfl).elim
        | branch n c' => exact id
        | trap => exact id
        | stuck => exact id
        | outOfFuel => exact id
  | prim op =>
      obtain ⟨below, popped, rfl⟩ := Option.map_eq_some_iff.mp checked
      obtain ⟨alive, height⟩ := Typing.pop_live popped live
      rw [run, if_pos (by omega)]
      split
      · trivial
      · rename_i rs m acted
        constructor
        · exact alive
        · have gives := machine.act_gives _ _ _ _ _ acted
          simp only [List.length_append, List.length_drop, gives, Typing.push]
          omega
  | localGet x =>
      obtain rfl : s.push [machine.local_ x] = s' := by simpa [check] using checked
      exact ⟨live, by simp [Typing.push, length]⟩
  | localSet x =>
      obtain ⟨alive, height⟩ := Typing.pop_live checked live
      rw [run]
      split
      · rename_i empty
        rw [empty] at length
        simp only [List.length_nil, List.length_cons] at length height
        omega
      · rename_i w stack full
        rw [full] at length
        simp only [List.length_nil, List.length_cons] at length height
        exact ⟨alive, by simp only; omega⟩
  | localTee x =>
      obtain ⟨below, popped, rfl⟩ := Option.map_eq_some_iff.mp checked
      obtain ⟨alive, height⟩ := Typing.pop_live popped live
      rw [run]
      split
      · rename_i empty
        rw [empty] at length
        simp only [List.length_nil, List.length_cons] at length height
        omega
      · rename_i w stack full
        rw [full] at length
        refine ⟨alive, ?_⟩
        simp only [Typing.push, List.length_nil, List.length_cons, List.cons_append,
          List.nil_append] at length height ⊢
        omega
  | block results body ih =>
      rw [check] at checked
      split at checked
      · rename_i inner valid
        split at checked
        · rename_i ends
          obtain rfl := Option.some.inj checked
          have sound := ih (c := { c with stack := [] }) valid rfl rfl
          exact leave_sound ends sound (fun _ _ => Nat.le_refl _) live length
        · cases checked
      · cases checked
  | loop results body ih =>
      rw [check] at checked
      split at checked
      · rename_i inner valid
        split at checked
        · rename_i ends
          obtain rfl := Option.some.inj checked
          have once : ∀ s, Sound ([] :: labels) inner (run machine fill fuel body ⟨[], s⟩) :=
            fun s => ih (c := ⟨[], s⟩) valid rfl rfl
          obtain ⟨sound, never⟩ := repeatLoop_sound once fuel c.store
          exact leave_sound ends sound (fun c' h => (never c' h).elim) live length
        · cases checked
      · cases checked
  | ifElse results thenBody elseBody ihThen ihElse =>
      rw [check] at checked
      split at checked
      · rename_i below yes no popped validThen validElse
        split at checked
        · rename_i ends
          obtain rfl := Option.some.inj checked
          obtain ⟨alive, height⟩ := Typing.pop_live popped live
          obtain ⟨endsThen, endsElse⟩ := (Bool.and_eq_true _ _).mp ends
          rw [run]
          split
          · rename_i empty
            rw [empty] at length
            simp only [List.length_nil, List.length_cons] at length height
            omega
          · rename_i w stack full
            rw [full] at length
            have low : stack.length = below.known.length := by
              simp only [List.length_nil, List.length_cons] at length height
              omega
            cases machine.truth w with
            | true =>
                have sound := ihThen (c := ⟨[], c.store⟩) validThen rfl rfl
                exact leave_sound endsThen sound (fun _ _ => Nat.le_refl _) alive low
            | false =>
                have sound := ihElse (c := ⟨[], c.store⟩) validElse rfl rfl
                exact leave_sound endsElse sound (fun _ _ => Nat.le_refl _) alive low
        · cases checked
      · cases checked
  | br depth =>
      rw [check] at checked
      split at checked
      · rename_i carried found
        obtain ⟨below, popped, _⟩ := Option.map_eq_some_iff.mp checked
        exact ⟨carried, found, by have := (Typing.pop_live popped live).2; omega⟩
      · cases checked
  | brIf depth =>
      rw [check] at checked
      split at checked
      · rename_i below carried popped found
        obtain ⟨lower, poppedAgain, rfl⟩ := Option.map_eq_some_iff.mp checked
        obtain ⟨alive, height⟩ := Typing.pop_live popped live
        obtain ⟨still, room⟩ := Typing.pop_live poppedAgain alive
        rw [run]
        split
        · rename_i empty
          rw [empty] at length
          simp only [List.length_nil, List.length_cons] at length height
          omega
        · rename_i w stack full
          rw [full] at length
          simp only [List.length_nil, List.length_cons] at length height
          cases machine.truth w with
          | true => exact ⟨carried, found, by simp only; omega⟩
          | false => exact ⟨still, by simp only [Typing.push, List.length_append]; omega⟩
      · cases checked
  | unreachable => trivial
  | hole h =>
      obtain rfl : s.push [machine.word] = s' := by simpa [check] using checked
      have filled := answers h c.store
      rw [run]
      revert filled
      cases fill h c.store with
      | value w s => exact fun _ => ⟨live, by simp [Typing.push, length]⟩
      | trap => exact fun _ => trivial
      | stuck => exact id
      | outOfFuel => exact fun _ => trivial

/-- Code that validates with one value answers. -/
theorem validates_answers {fill : H → Store ι W M → Answer ι W M}
    (answers : ∀ h s, (fill h s).NotStuck) (fuel : Nat) {code : Code ι P H T}
    (valid : validates machine [] code [machine.word] = true) (s : Store ι W M) :
    (run machine fill fuel code ⟨[], s⟩).answer.NotStuck ∧
      run machine fill fuel code ⟨[], s⟩ =
        (run machine fill fuel code ⟨[], s⟩).answer.push [] := by
  unfold validates at valid
  split at valid
  · rename_i after checked
    have sound := check_sound answers fuel (c := ⟨[], s⟩) checked rfl rfl
    revert sound
    cases run machine fill fuel code ⟨[], s⟩ with
    | next c =>
        rintro ⟨alive, height⟩
        obtain ⟨stack, store⟩ := c
        have one : stack.length = 1 := height.trans (Typing.length_of_endsWith valid alive)
        obtain ⟨w, rfl⟩ := List.length_eq_one_iff.mp one
        exact ⟨trivial, rfl⟩
    | branch n c =>
        rintro ⟨ts, found, _⟩
        simp at found
    | trap => exact fun _ => ⟨trivial, rfl⟩
    | stuck => exact fun sound => sound.elim
    | outOfFuel => exact fun _ => ⟨trivial, rfl⟩
  · cases valid

end Checking

namespace Outcome

theorem leave_onTop {results : Nat} {stack : List W} {o : Outcome ι W M} (below : List W) :
    o.leave results (stack ++ below) = (o.leave results stack).onTop below := by
  cases o with
  | next c =>
      simp only [leave]
      split
      · simp [onTop]
      · rfl
  | branch n c =>
      cases n with
      | zero =>
          simp only [leave]
          split
          · simp [onTop]
          · rfl
      | succ n => simp [leave, onTop]
  | trap => rfl
  | stuck => rfl
  | outOfFuel => rfl

end Outcome

theorem Answer.push_onTop {a : Answer ι W M} (stack below : List W) :
    (a.push stack : Outcome ι W M).onTop below = a.push (stack ++ below) := by
  cases a with
  | value w s => rfl
  | trap => rfl
  | stuck => rfl
  | outOfFuel => rfl

theorem Answer.NotStuck.push_ne_stuck {a : Answer ι W M} (free : a.NotStuck) {stack : List W} :
    (a.push stack : Outcome ι W M) ≠ .stuck := by
  intro stuck
  cases a with
  | value w s => cases stuck
  | trap => cases stuck
  | stuck => exact free
  | outOfFuel => cases stuck

section Splicing

variable [DecidableEq ι] {machine : StackMachine ι P T W M}

/-- Code that is not stuck does not see what is below its stack. -/
theorem run_onTop {fill : H → Store ι W M → Answer ι W M} {fuel : Nat} (code : Code ι P H T)
    (top : List W) (s : Store ι W M) (below : List W)
    (free : run machine fill fuel code ⟨top, s⟩ ≠ .stuck) :
    run machine fill fuel code ⟨top ++ below, s⟩ =
      (run machine fill fuel code ⟨top, s⟩).onTop below := by
  induction code generalizing top s with
  | skip => rfl
  | seq first second ihFirst ihSecond =>
      rw [run] at free ⊢
      cases ran : run machine fill fuel first ⟨top, s⟩ with
      | next c =>
          rw [ran] at free
          rw [ihFirst _ _ (by rw [ran]; simp), run, ran]
          exact ihSecond _ _ free
      | branch n c => rw [ihFirst _ _ (by rw [ran]; simp), run, ran]; rfl
      | trap => rw [ihFirst _ _ (by rw [ran]; simp), run, ran]; rfl
      | stuck => rw [ran] at free; exact (free rfl).elim
      | outOfFuel => rw [ihFirst _ _ (by rw [ran]; simp), run, ran]; rfl
  | prim op =>
      rw [run] at free ⊢
      by_cases enough : (machine.takes op).length ≤ top.length
      · rw [run, if_pos (by simp only [List.length_append]; omega), if_pos enough,
          List.take_append_of_le_length enough, List.drop_append_of_le_length enough]
        cases machine.act op (top.take (machine.takes op).length) s.memory with
        | none => rfl
        | some acted => simp [Outcome.onTop]
      · exact (free (if_neg enough)).elim
  | localGet x => rfl
  | localSet x =>
      cases top with
      | nil => exact (free rfl).elim
      | cons w rest => rfl
  | localTee x =>
      cases top with
      | nil => exact (free rfl).elim
      | cons w rest => rfl
  | block results body ih => exact Outcome.leave_onTop below
  | loop results body ih => exact Outcome.leave_onTop below
  | ifElse results thenBody elseBody ihThen ihElse =>
      cases top with
      | nil => exact (free rfl).elim
      | cons w rest => exact Outcome.leave_onTop below
  | br depth => rfl
  | brIf depth =>
      cases top with
      | nil => exact (free rfl).elim
      | cons w rest =>
          simp only [run, List.cons_append]
          split
          · rfl
          · rfl
  | unreachable => rfl
  | hole h => exact (Answer.push_onTop top below).symm

/-- The code of operands in place of the holes. -/
def Code.splice {H' : Type} (f : H → Code ι P H' T) : Code ι P H T → Code ι P H' T
  | .skip => .skip
  | .seq first second => .seq (first.splice f) (second.splice f)
  | .prim op => .prim op
  | .localGet x => .localGet x
  | .localSet x => .localSet x
  | .localTee x => .localTee x
  | .block results body => .block results (body.splice f)
  | .loop results body => .loop results (body.splice f)
  | .ifElse results thenBody elseBody =>
      .ifElse results (thenBody.splice f) (elseBody.splice f)
  | .br depth => .br depth
  | .brIf depth => .brIf depth
  | .unreachable => .unreachable
  | .hole h => f h

/-- Spliced code runs as the code with holes does, when each operand's code leaves what its hole
answers. -/
theorem run_splice {H' : Type} {fill : H' → Store ι W M → Answer ι W M}
    {answers : H → Store ι W M → Answer ι W M} {fuel : Nat} {f : H → Code ι P H' T}
    (free : ∀ h s, (answers h s).NotStuck)
    (leaves : ∀ h s, run machine fill fuel (f h) ⟨[], s⟩ = (answers h s).push [])
    (code : Code ι P H T) (c : Config ι W M) :
    run machine fill fuel (code.splice f) c = run machine answers fuel code c := by
  induction code generalizing c with
  | skip => rfl
  | seq first second ihFirst ihSecond =>
      rw [Code.splice, run, run, ihFirst]
      split
      · exact ihSecond _
      · rfl
  | prim op => rfl
  | localGet x => rfl
  | localSet x => rfl
  | localTee x => rfl
  | block results body ih => rw [Code.splice, run, run, ih]
  | loop results body ih => simp only [Code.splice, run, ih]
  | ifElse results thenBody elseBody ihThen ihElse =>
      simp only [Code.splice, run, ihThen, ihElse]
  | br depth => rfl
  | brIf depth => rfl
  | unreachable => rfl
  | hole h =>
      have framed := run_onTop (f h) [] c.store c.stack (by
        rw [leaves]
        exact (free h c.store).push_ne_stuck)
      rw [List.nil_append, leaves, Answer.push_onTop, List.nil_append] at framed
      exact framed

end Splicing

end LispRlm.Foundation
