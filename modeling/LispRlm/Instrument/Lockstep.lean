import LispRlm.Instrument.Machine

/-! Two machines that run the operators of a module in lockstep, over states of their own. -/

namespace LispRlm.Instrument

open Foundation (Flow)
open Foundation.Flow (Config Result Follows split)

variable {P W W' : Type}

/-! ### Related states -/

/-- A relation that the operators of a module keep: what the first machine finds in its globals, the
second one finds there too. `still` is what holds between the worlds before and after a primitive of
the first machine, and `same` between the worlds of the two. -/
structure Keeps (rel : Shared W → Shared W' → Prop) (still : W → W → Prop) (same : W → W' → Prop) :
    Prop where
  getGlobal : ∀ s s' (n : Nat) v, rel s s' → s.globals[n]? = some v → s'.globals[n]? = some v
  setGlobal : ∀ s s' n v, rel s s' → n < s.globals.length →
    rel { s with globals := s.globals.set n v } { s' with globals := s'.globals.set n v }
  world : ∀ s s', rel s s' → same s.world s'.world
  setWorld : ∀ s s' w w', rel s s' → still s.world w → same w w' →
    rel { s with world := w } { s' with world := w' }

/-- The locals of the second function are those of the first one and `extra` more. -/
structure FrameRel (extra localIdx : Nat) (rel : Shared W → Shared W' → Prop) (s : Frame W)
    (s' : Frame W') : Prop where
  locals : ∃ more, more.length = extra ∧ s'.locals = s.locals ++ more
  count : s.locals.length = localIdx
  shared : rel s.shared s'.shared

inductive Effects (still : W → Prop) (same : W → W' → Prop) : Effect W → Effect W' → Prop
  | done (stack : List Value) {w : W} {w' : W'} :
      still w → same w w' → Effects still same (.done stack w) (.done stack w')
  | trap : Effects still same .trap .trap
  | invalid (e : Effect W') : Effects still same .invalid e

inductive Answers (rel : Shared W → Shared W' → Prop) (letGo : Failure → Prop) :
    Answer W → Answer W' → Prop
  | returned {values : List Value} {s : Shared W} {s' : Shared W'} :
      rel s s' → Answers rel letGo (.returned values s) (.returned values s')
  | fail (e : Failure) : Answers rel letGo (.fail e) (.fail e)
  | letGo {e : Failure} (a : Answer W') : letGo e → Answers rel letGo (.fail e) a
  | invalid (a : Answer W') : Answers rel letGo .invalid a
  | outOfFuel : Answers rel letGo .outOfFuel .outOfFuel

/-- The second module has the functions of the first one at indices that are larger by `shift`. -/
structure Matches (shift : Nat) (still : W → W → Prop) (same : W → W' → Prop) (i : Instance P W)
    (i' : Instance P W') : Prop where
  types : ∀ (idx : Nat) type, i.types[idx]? = some type → i'.types[idx]? = some type
  act : ∀ op stack w w', same w w' →
    Effects (still w) same (i.act op stack w) (i'.act op stack w')
  table : ∀ table n w w', same w w' → i.table w table n = i'.table w' table n
  resolve : ∀ f callee, i.resolve f = some callee → i'.resolve (f + shift) = some callee
  typeOf : ∀ callee type, i.typeOf callee = some type → i'.typeOf callee = some type

section Operators

variable {extra localIdx shift : Nat} {rel : Shared W → Shared W' → Prop} {still : W → W → Prop}
  {same : W → W' → Prop} {letGo : Failure → Prop} {i : Instance P W} {i' : Instance P W'}
  {invoke : Invoke W}
  {invoke' : Invoke W'} {out : Frame W → Frame W' → Prop}

theorem FrameRel.setLocal {s : Frame W} {s' : Frame W'} (related : FrameRel extra localIdx rel s s')
    {n : Nat} (bound : n < s.locals.length) (v : Value) :
    FrameRel extra localIdx rel { s with locals := s.locals.set n v }
      { s' with locals := s'.locals.set n v } where
  locals := by
    rcases related.locals with ⟨more, length, locals⟩
    exact ⟨more, length, by rw [locals, List.set_append_left _ _ bound]⟩
  count := by rw [List.length_set, related.count]
  shared := related.shared

theorem FrameRel.bound {s : Frame W} {s' : Frame W'} (related : FrameRel extra localIdx rel s s')
    {n : Nat} (bound : n < s.locals.length) : n < s'.locals.length := by
  rcases related.locals with ⟨more, _, locals⟩
  rw [locals, List.length_append]
  omega

/-- The results of an operator in the two machines. -/
abbrev Step (extra localIdx : Nat) (rel : Shared W → Shared W' → Prop)
    (out : Frame W → Frame W' → Prop) (letGo : Failure → Prop) : Outcome W → Outcome W' → Prop :=
  Follows (FrameRel extra localIdx rel) out letGo

theorem binary_step (f : BitVec 64 → BitVec 64 → Value) {stack : List Value} {s : Frame W}
    {s' : Frame W'} (related : FrameRel extra localIdx rel s s') :
    Step extra localIdx rel out letGo (binary f ⟨stack, s⟩) (binary f ⟨stack, s'⟩) := by
  rw [binary.eq_def, binary.eq_def]
  dsimp only
  split
  · exact .ok related
  · exact .invalid _

theorem applyCall_step (matched : Matches shift still same i i')
    (calls : ∀ callee args s s', rel s s' →
      Answers rel letGo (invoke callee args s) (invoke' callee args s'))
    (callee : Callee) {stack : List Value} {s : Frame W} {s' : Frame W'}
    (related : FrameRel extra localIdx rel s s') :
    Step extra localIdx rel out letGo (applyCall i invoke callee ⟨stack, s⟩)
      (applyCall i' invoke' callee ⟨stack, s'⟩) := by
  rw [applyCall, applyCall]
  cases known : i.typeOf callee with
  | none => exact .invalid _
  | some type =>
      rw [matched.typeOf callee type known]
      dsimp only
      cases split type.params.length stack with
      | none => exact .invalid _
      | some parts =>
          have answers := calls callee parts.1 s.shared s'.shared related.shared
          dsimp only
          generalize invoke callee parts.1 s.shared = a at answers
          generalize invoke' callee parts.1 s'.shared = a' at answers
          cases answers with
          | returned shared => exact .ok ⟨related.locals, related.count, shared⟩
          | fail e => exact .fail e
          | letGo a known => exact .letGo _ known
          | invalid a => exact .invalid _
          | outOfFuel => exact .outOfFuel

theorem indirect_step {rel : Frame W → Frame W' → Prop} (matched : Matches shift still same i i')
    (type table : Nat) {next : Callee → Config Value (Frame W) → Outcome W}
    {next' : Callee → Config Value (Frame W') → Outcome W'} {s : Frame W} {s' : Frame W'}
    (worlds : same s.shared.world s'.shared.world)
    (goes : ∀ callee stack, Follows rel out letGo (next callee ⟨stack, s⟩)
      (next' callee ⟨stack, s'⟩)) (stack : List Value) :
    Follows rel out letGo (indirect i type table ⟨stack, s⟩ next)
      (indirect i' type table ⟨stack, s'⟩ next') := by
  cases stack with
  | nil => exact .invalid _
  | cons v rest =>
      cases v with
      | i64 | f32 | f64 | v128 | func | extern_ => exact .invalid _
      | i32 n =>
          rw [indirect, indirect]
          cases expects : i.types[type]? with
          | none => exact .invalid _
          | some expected =>
              rw [matched.types type expected expects]
              dsimp only
              rw [matched.table table n _ _ worlds]
              split
              · rename_i callee _
                cases known : i.typeOf callee with
                | none => exact .invalid _
                | some found =>
                    rw [matched.typeOf callee found known]
                    dsimp only
                    split
                    · exact goes callee rest
                    · exact .fail _
              · exact .fail _

/-- Operators without the index of a function that do not leave their function for good. -/
def Operator.Copied : Operator P → Prop
  | .refFunc _ | .call _ | .returnCall _ | .returnCallIndirect _ _ | .return_ => False
  | _ => True

theorem exec_step (keeps : Keeps rel still same) (matched : Matches shift still same i i')
    (calls : ∀ callee args s s', rel s s' →
      Answers rel letGo (invoke callee args s) (invoke' callee args s'))
    {op : Operator P} (copied : op.Copied) {stack : List Value} {s : Frame W} {s' : Frame W'}
    (related : FrameRel extra localIdx rel s s') :
    Step extra localIdx rel out letGo (exec i invoke op ⟨stack, s⟩)
      (exec i' invoke' op ⟨stack, s'⟩) := by
  cases op with
  | refFunc | call | returnCall | returnCallIndirect | return_ => exact copied.elim
  | block | loop | if_ | else_ | end_ => exact .invalid _
  | br depth => exact .branch depth related
  | brIf depth =>
      rw [exec, exec]
      dsimp only
      split
      · split
        · exact .ok related
        · exact .branch depth related
      · exact .invalid _
  | brTable depths default =>
      rw [exec, exec]
      dsimp only
      split
      · exact .branch _ related
      · exact .invalid _
  | unreachable => exact .fail _
  | callIndirect type table =>
      exact indirect_step matched type table (keeps.world _ _ related.shared) (fun callee _ =>
        applyCall_step matched calls callee related) stack
  | localGet n =>
      rw [exec, exec]
      dsimp only
      cases found : s.locals[n]? with
      | none => exact .invalid _
      | some v =>
          rcases related.locals with ⟨more, _, locals⟩
          have bound : n < s.locals.length := (List.getElem?_eq_some_iff.mp found).1
          rw [locals, List.getElem?_append_left bound, found]
          exact .ok related
  | localSet n | localTee n =>
      cases stack with
      | nil => exact .invalid _
      | cons v rest =>
          rw [exec, exec]
          dsimp only
          by_cases bound : n < s.locals.length
          · rw [if_pos bound, if_pos (related.bound bound)]
            exact .ok (related.setLocal bound v)
          · rw [if_neg bound]
            exact .invalid _
  | globalGet n =>
      rw [exec, exec]
      dsimp only
      cases found : s.shared.globals[n]? with
      | none => exact .invalid _
      | some v =>
          rw [keeps.getGlobal _ _ n v related.shared found]
          exact .ok related
  | globalSet n =>
      cases stack with
      | nil => exact .invalid _
      | cons v rest =>
          rw [exec, exec]
          dsimp only
          by_cases bound : n < s.shared.globals.length
          · have found := keeps.getGlobal _ _ n _ related.shared (List.getElem?_eq_getElem bound)
            rw [if_pos bound, if_pos (List.getElem?_eq_some_iff.mp found).1]
            exact .ok ⟨related.locals, related.count, keeps.setGlobal _ _ n v related.shared bound⟩
          · rw [if_neg bound]
            exact .invalid _
  | i64Const n => exact .ok related
  | i64LtU | i64GtU | i64Add | i64Sub | i64Mul => exact binary_step _ related
  | i64ExtendI32U =>
      rw [exec, exec]
      dsimp only
      split
      · exact .ok related
      · exact .invalid _
  | other op =>
      have effects := matched.act op stack _ _ (keeps.world _ _ related.shared)
      rw [exec, exec]
      dsimp only
      generalize i.act op stack s.shared.world = e at effects
      generalize i'.act op stack s'.shared.world = e' at effects
      cases effects with
      | done stack stays worlds =>
          exact .ok ⟨related.locals, related.count,
            keeps.setWorld _ _ _ _ related.shared stays worlds⟩
      | trap => exact .fail _
      | invalid => exact .invalid _

end Operators

end LispRlm.Instrument
