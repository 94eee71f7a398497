import LispRlm.Instrument.EmittedCode

/-! The pass over a function's stream of operators is the replacement of operators in its structured
code. -/

namespace LispRlm.Instrument

open Foundation (Flow)
open Foundation.Flow (expand)

variable {P W : Type}

/-! ### Streams -/

/-- The stream of structured code. -/
def stream {J : Type} (emb : Operator P → J) : Flow J BlockType → List J
  | .done => []
  | .step i rest => i :: stream emb rest
  | .block t body rest => emb (.block t) :: (stream emb body ++ emb .end_ :: stream emb rest)
  | .loop t body rest => emb (.loop t) :: (stream emb body ++ emb .end_ :: stream emb rest)
  | .ifThen t yes rest => emb (.if_ t) :: (stream emb yes ++ emb .end_ :: stream emb rest)
  | .ifElse t yes no rest =>
      emb (.if_ t) :: (stream emb yes ++ emb .else_ :: (stream emb no ++ emb .end_ ::
        stream emb rest))

/-- The operators with the points at their offsets before them. -/
def marks : List GasPoint → List (Operator P × Nat) → List (Marked P)
  | _, [] => []
  | points, (op, offset) :: operators =>
      (points.takeWhile (·.offset = offset)).map .point ++
        .op op :: marks (points.dropWhile (·.offset = offset)) operators

section Pieces

variable (charge : UInt64) (g localIdx : Nat)

/-- The code for an operator that is not the last, or for a point. -/
def markCode : Marked P → Except InstrumentError (List (Operator P))
  | .point p =>
      if p.kind = .unreachable then .ok []
      else callGasInstrumentation (some p.kind) p.fee g localIdx
  | .op op => operatorCode charge g false op

def marksCode : List (Marked P) → Except InstrumentError (List (Operator P))
  | [] => .ok []
  | mark :: rest =>
      match markCode charge g localIdx mark with
      | .error e => .error e
      | .ok code =>
          match marksCode rest with
          | .error e => .error e
          | .ok more => .ok (code ++ more)

theorem marksCode_points (points : List GasPoint) :
    marksCode charge g localIdx (points.map .point) = pointsCode (P := P) g localIdx points := by
  induction points with
  | nil => rfl
  | cons p points ih =>
      rw [List.map_cons, marksCode, markCode, pointsCode, ih]
      by_cases skipped : p.kind = .unreachable
      · rw [if_pos skipped, if_pos skipped]
        cases pointsCode (P := P) g localIdx points with
        | error e => rfl
        | ok more => rfl
      · rw [if_neg skipped]
        exact (if_neg skipped).symm

variable {charge g localIdx}

theorem marksCode_append {marks more : List (Marked P)} {code : List (Operator P)}
    (made : marksCode charge g localIdx (marks ++ more) = .ok code) :
    ∃ first second, marksCode charge g localIdx marks = .ok first ∧
      marksCode charge g localIdx more = .ok second ∧ code = first ++ second := by
  induction marks generalizing code with
  | nil => exact ⟨[], code, rfl, made, rfl⟩
  | cons mark marks ih =>
      rw [List.cons_append, marksCode] at made
      rw [marksCode]
      cases known : markCode charge g localIdx mark with
      | error e =>
          rw [known] at made
          cases made
      | ok piece =>
          rw [known] at made
          dsimp only at made
          cases later : marksCode charge g localIdx (marks ++ more) with
          | error e =>
              rw [later] at made
              cases made
          | ok rest =>
              rw [later] at made
              rcases ih later with ⟨first, second, before, after, whole⟩
              refine ⟨piece ++ first, second, ?_, after, ?_⟩
              · rw [before]
              · rw [← Except.ok.inj made, whole, List.append_assoc]

theorem marksCode_of_append {marks more : List (Marked P)} {first second : List (Operator P)}
    (before : marksCode charge g localIdx marks = .ok first)
    (after : marksCode charge g localIdx more = .ok second) :
    marksCode charge g localIdx (marks ++ more) = .ok (first ++ second) := by
  induction marks generalizing first with
  | nil =>
      rw [marksCode] at before
      rw [← Except.ok.inj before]
      exact after
  | cons mark marks ih =>
      rw [List.cons_append, marksCode]
      rw [marksCode] at before
      split at before
      · cases before
      · rename_i piece known
        split at before
        · cases before
        · rename_i rest later
          rw [ih later, ← Except.ok.inj before, List.append_assoc]

theorem marksCode_cons {mark : Marked P} {more : List (Marked P)} {code : List (Operator P)}
    (made : marksCode charge g localIdx (mark :: more) = .ok code) :
    ∃ first second, markCode charge g localIdx mark = .ok first ∧
      marksCode charge g localIdx more = .ok second ∧ code = first ++ second := by
  rw [marksCode] at made
  split at made
  · cases made
  · rename_i first known
    split at made
    · cases made
    · rename_i second later
      exact ⟨first, second, known, later, (Except.ok.inj made).symm⟩

/-- All but the last operator. -/
theorem operatorsCode_marks {points : List GasPoint} {operators : List (Operator P × Nat)}
    {before : List (Marked P)} {last : Operator P}
    (whole : marks points operators = before ++ [.op last]) {code : List (Operator P)}
    (made : operatorsCode charge g localIdx points operators = .ok code) :
    ∃ first second, marksCode charge g localIdx before = .ok first ∧
      operatorCode charge g true last = .ok second ∧ code = first ++ second := by
  induction operators generalizing points before code with
  | nil =>
      rw [marks] at whole
      exact absurd whole.symm (List.append_ne_nil_of_right_ne_nil _ (List.cons_ne_nil _ _))
  | cons head operators ih =>
      rcases head with ⟨op, offset⟩
      rw [operatorsCode] at made
      rw [marks] at whole
      split at made
      · cases made
      rename_i fees here
      split at made
      · cases made
      rename_i piece own
      split at made
      · cases made
      rename_i more later
      rw [← marksCode_points charge] at here
      cases operators with
      | nil =>
          rw [marks] at whole
          have ends := List.append_inj' whole rfl
          rw [operatorsCode] at later
          rw [← Except.ok.inj made, ← Except.ok.inj later, List.append_nil]
          have same : op = last := by
            injection ends.2 with same
            injection same
          rw [same] at own
          exact ⟨fees, piece, ends.1 ▸ here, own, rfl⟩
      | cons next operators =>
          rcases next with ⟨op', offset'⟩
          have some_ : marks (points.dropWhile (·.offset = offset))
              ((op', offset') :: operators) ≠ [] := by
            rw [marks]
            exact List.append_ne_nil_of_right_ne_nil _ (List.cons_ne_nil _ _)
          rcases List.eq_nil_or_concat (marks (points.dropWhile (·.offset = offset))
            ((op', offset') :: operators)) with none_ | ⟨init, z, split_⟩
          · exact absurd none_ some_
          rw [List.concat_eq_append] at split_
          rw [split_, ← List.cons_append, ← List.append_assoc] at whole
          have ends := List.append_inj' whole rfl
          have tail : marks (points.dropWhile (·.offset = offset))
              ((op', offset') :: operators) = init ++ [.op last] := by
            rw [split_, ends.2]
          rcases ih tail later with ⟨first, second, before, final, same⟩
          refine ⟨fees ++ (piece ++ first), second, ?_, final, ?_⟩
          · rw [← ends.1]
            apply marksCode_of_append here
            have single : operatorCode charge g false op = .ok piece := own
            rw [marksCode, markCode, single, before]
          · rw [← Except.ok.inj made, same, List.append_assoc, List.append_assoc]

end Pieces

/-! ### Emitted code as streams -/

section Emitted

variable {charge : UInt64} {g localIdx : Nat}

theorem stream_steps (code : List (Operator P)) (rest : Flow (Operator P) BlockType) :
    stream id (steps code rest) = code ++ stream id rest := by
  induction code with
  | nil => rfl
  | cons op code ih =>
      rw [steps, List.foldr_cons, stream, List.cons_append]
      exact congrArg (op :: ·) ih

theorem stream_takeFlow (global : Nat) (test exhausted amount : List (Operator P))
    (rest : Flow (Operator P) BlockType) :
    stream id (takeFlow global test exhausted amount rest) =
      test ++ .if_ .empty :: (exhausted ++ .else_ ::
        (.globalGet global :: (amount ++ [.i64Sub, .globalSet global]) ++ .end_ ::
          stream id rest)) := by
  rw [takeFlow, stream_steps, stream, stream_steps, stream_steps, stream, List.append_nil,
    List.append_nil]
  rfl

theorem stream_gasFlow {k : Option InstrumentationKind} {fee : Fee} {code : List (Operator P)}
    (made : callGasInstrumentation k fee g localIdx = .ok code)
    (rest : Flow (Operator P) BlockType) :
    stream id (gasFlow fee g localIdx rest) = code ++ stream id rest := by
  rw [callGasInstrumentation.eq_def] at made
  rw [gasFlow]
  by_cases free : fee = Fee.zero
  · rw [if_pos free] at made
    rw [if_pos free, ← Except.ok.inj made]
    rfl
  rw [if_neg free] at made
  rw [if_neg free]
  by_cases single : fee.linear = 0
  · rw [if_pos single] at made
    rw [if_pos single, ← Except.ok.inj made, constantFlow, stream_takeFlow]
    rfl
  rw [if_neg single] at made
  rw [if_neg single, linearFlow, stream_takeFlow]
  split at made
  · split at made
    · cases made
    · rename_i countIdx checked
      have next : countIdx = localIdx + 1 := by
        rw [checkedIndex] at checked
        split at checked
        · exact (Option.some.inj checked).symm
        · cases checked
      rw [← Except.ok.inj made, next]
      rfl
  · cases made

theorem functionIndex_ok {f idx : Nat} (found : functionIndex f = .ok idx) :
    idx = f + newFunctions := by
  rw [functionIndex, checkedIndex] at found
  split at found
  · rename_i idx' checked
    split at checked
    · rw [← Except.ok.inj found, ← Option.some.inj checked]
    · cases checked
  · cases found

theorem map_ok {α β : Type} {x : Except InstrumentError α} {f : α → β} {b : β}
    (made : x.map f = .ok b) : ∃ a, x = .ok a ∧ f a = b := by
  cases x with
  | error e => cases made
  | ok a => exact ⟨a, rfl, Except.ok.inj made⟩

theorem stream_markFlow {mark : Marked P} {code : List (Operator P)}
    (made : markCode charge g localIdx mark = .ok code) (rest : Flow (Operator P) BlockType) :
    stream id (markFlow charge g localIdx mark rest) = code ++ stream id rest := by
  cases mark with
  | point p =>
      rw [markCode] at made
      rw [markFlow]
      by_cases skipped : p.kind = .unreachable
      · rw [if_pos skipped] at made
        rw [if_pos skipped, ← Except.ok.inj made]
        rfl
      · rw [if_neg skipped] at made
        rw [if_neg skipped, stream_gasFlow made]
  | op op =>
      rw [markCode] at made
      cases op with
      | refFunc f | call f =>
          rcases map_ok made with ⟨idx, found, same⟩
          rw [markFlow, ← same, functionIndex_ok found]
          rfl
      | returnCall f =>
          rcases map_ok made with ⟨idx, found, same⟩
          rw [markFlow, ← same, functionIndex_ok found, stream_steps]
          rfl
      | returnCallIndirect | return_ =>
          rw [markFlow, stream_steps, ← Except.ok.inj made, List.append_assoc]
          rfl
      | _ =>
          rw [← Except.ok.inj made]
          rfl

/-- An operator that is copied. -/
theorem marksCode_copied {op : Operator P} {more : List (Marked P)} {code : List (Operator P)}
    (copied : operatorCode charge g false op = .ok [op])
    (made : marksCode charge g localIdx (.op op :: more) = .ok code) :
    ∃ rest, marksCode charge g localIdx more = .ok rest ∧ code = op :: rest := by
  rcases marksCode_cons made with ⟨first, second, own, later, whole⟩
  rw [markCode, copied] at own
  exact ⟨second, later, by rw [whole, ← Except.ok.inj own]; rfl⟩

/-- A construct up to its end, and what comes after it. -/
theorem marksCode_closed {close : Operator P} {body more : List (Marked P)}
    {code : List (Operator P)} (copied : operatorCode charge g false close = .ok [close])
    (made : marksCode charge g localIdx (body ++ .op close :: more) = .ok code) :
    ∃ inside rest, marksCode charge g localIdx body = .ok inside ∧
      marksCode charge g localIdx more = .ok rest ∧ code = inside ++ close :: rest := by
  rcases marksCode_append made with ⟨inside, second, before, after, whole⟩
  rcases marksCode_copied copied after with ⟨rest, later, same⟩
  exact ⟨inside, rest, before, later, by rw [whole, same]⟩

/-- The pass over the stream of the body, and the body with its operators replaced. -/
theorem stream_expand {body : Flow (Marked P) BlockType} {code : List (Operator P)}
    (made : marksCode charge g localIdx (stream .op body) = .ok code) :
    stream id (body.expand (markFlow charge g localIdx)) = code := by
  induction body generalizing code with
  | done => exact Except.ok.inj made
  | step i rest ih =>
      rw [stream] at made
      rcases marksCode_cons made with ⟨first, second, own, later, whole⟩
      rw [expand, stream_markFlow own, ih later, whole]
  | block t body rest ihBody ihRest | loop t body rest ihBody ihRest
  | ifThen t body rest ihBody ihRest =>
      rw [stream] at made
      rcases marksCode_copied rfl made with ⟨after, later, whole⟩
      rcases marksCode_closed rfl later with ⟨inside, rest', before, final, same⟩
      rw [expand, stream, ihBody before, ihRest final, whole, same]
      rfl
  | ifElse t yes no rest ihYes ihNo ihRest =>
      rw [stream] at made
      rcases marksCode_copied rfl made with ⟨after, later, whole⟩
      rcases marksCode_closed rfl later with ⟨inside, rest', before, other, same⟩
      rcases marksCode_closed rfl other with ⟨inside', rest'', before', final, same'⟩
      rw [expand, stream, ihYes before, ihNo before', ihRest final, whole, same, same']
      rfl

end Emitted

end LispRlm.Instrument
