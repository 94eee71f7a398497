import LispRlm.Bytecode.Traversal

/-! Where the four implementations of `map`, `filter` and `reduce` agree. -/

namespace LispRlm.Bytecode

open LispRlm.Foundation

namespace Traversal

section Loops

variable {σ : Type} {call : List LispVal → Eff σ String LispVal} {s : σ}

/-! ### What the virtual machine's loops swallow -/

theorem vmKeep_total (call : List LispVal → Eff σ String LispVal) (v : LispVal) (s : σ) :
    ∃ b s', vmKeep call v s = .ok b s' := by
  unfold vmKeep
  split
  · exact ⟨_, _, rfl⟩
  · exact ⟨_, _, rfl⟩
  · exact ⟨_, _, rfl⟩

theorem filterLoop_total (call : List LispVal → Eff σ String LispVal) (vals : List LispVal) :
    ∀ s, ∃ l s', filterLoop (vmKeep call) vals s = .ok l s' := by
  induction vals with
  | nil => exact fun s => ⟨[], s, rfl⟩
  | cons v vs ih =>
    intro s
    rcases vmKeep_total call v s with ⟨b, s', kept⟩
    rcases ih s' with ⟨l, s'', rest⟩
    refine ⟨if b then v :: l else l, s'', ?_⟩
    rw [filterLoop, Eff.bind_run, kept]
    dsimp only
    rw [Eff.bind_run, rest]
    rfl

theorem reduceLoop_total (call : List LispVal → Eff σ String LispVal) (vals : List LispVal) :
    ∀ acc s, ∃ r s', reduceLoop (vmStep call) acc vals s = .ok r s' := by
  induction vals with
  | nil => exact fun acc s => ⟨acc, s, rfl⟩
  | cons v vs ih =>
    intro acc s
    rw [reduceLoop, Eff.bind_run, vmStep]
    cases call [acc, v] s with
    | ok r s' => exact ih r s'
    | error e s' => exact ih acc s'

/-- The virtual machine reads a result as the language does. -/
def Decisive (r : LispVal) : Prop := (∃ b, r = .bool b) ∨ r.isTruthy = true

def vmReads : LispVal → Bool
  | .bool b => b
  | _ => true

theorem vmReads_eq {r : LispVal} (decisive : Decisive r) : vmReads r = r.isTruthy := by
  rcases decisive with ⟨b, rfl⟩ | truthy
  · rfl
  · rw [truthy]
    cases r with
    | bool b => exact truthy
    | _ => rfl

theorem vmReads_of_truthy {r : LispVal} (truthy : r.isTruthy = true) : vmReads r = true := by
  rw [vmReads_eq (.inr truthy), truthy]

theorem decisive_of_vmReads {r : LispVal} (same : vmReads r = r.isTruthy) : Decisive r := by
  cases r with
  | bool b => exact .inl ⟨b, rfl⟩
  | _ => exact .inr same.symm

theorem vmKeep_ok {v r : LispVal} {s' : σ} (run : call [v] s = .ok r s') :
    vmKeep call v s = .ok (vmReads r) s' := by
  rw [vmKeep, run]
  cases r <;> rfl

theorem filterLoop_vm {v r : LispVal} {s' : σ} (run : call [v] s = .ok r s')
    (vs : List LispVal) : filterLoop (vmKeep call) (v :: vs) s =
      ((fun l => if vmReads r then v :: l else l) <$> filterLoop (vmKeep call) vs) s' := by
  rw [filterLoop, Eff.bind_run, vmKeep_ok run, map_eq_pure_bind]

theorem filterLoop_call {v r : LispVal} {s' : σ} (run : call [v] s = .ok r s')
    (vs : List LispVal) : filterLoop (callKeep call) (v :: vs) s =
      ((fun l => if r.isTruthy then v :: l else l) <$> filterLoop (callKeep call) vs) s' := by
  rw [filterLoop, callKeep, map_eq_pure_bind, bind_assoc, Eff.bind_run, run, map_eq_pure_bind]
  rfl

theorem filterLoop_call_error {v : LispVal} {e : String} {s' : σ}
    (run : call [v] s = .error e s') (vs : List LispVal) :
    filterLoop (callKeep call) (v :: vs) s = .error e s' := by
  rw [filterLoop, callKeep, map_eq_pure_bind, bind_assoc, Eff.bind_run, run]

theorem filterLoop_longer (vals : List LispVal) : ∀ {s l s'},
    filterLoop (callKeep call) vals s = .ok l s' →
      ∃ l', filterLoop (vmKeep call) vals s = .ok l' s' ∧ l.length ≤ l'.length := by
  induction vals with
  | nil =>
    intro s l s' run
    cases run
    exact ⟨[], rfl, Nat.le_refl _⟩
  | cons v vs ih =>
    intro s l s' run
    cases first : call [v] s with
    | error e s₁ =>
      rw [filterLoop_call_error first] at run
      cases run
    | ok r s₁ =>
      rw [filterLoop_call first, Eff.map_run] at run
      cases rest : filterLoop (callKeep call) vs s₁ with
      | error e s₂ =>
        rw [rest] at run
        cases run
      | ok l₂ s₂ =>
        rw [rest] at run
        cases run
        rcases ih rest with ⟨l', rest', longer⟩
        refine ⟨if vmReads r then v :: l' else l', ?_, ?_⟩
        · rw [filterLoop_vm first, Eff.map_run, rest']
        · by_cases truthy : r.isTruthy = true
          · rw [if_pos truthy, if_pos (vmReads_of_truthy truthy)]
            exact Nat.succ_le_succ longer
          · rw [if_neg truthy]
            split
            · exact Nat.le_succ_of_le longer
            · exact longer

theorem filterLoop_vm_iff (vals : List LispVal) : ∀ {s},
    filterLoop (vmKeep call) vals s = filterLoop (callKeep call) vals s ↔
      Runs call Decisive vals s := by
  induction vals with
  | nil => exact iff_of_true rfl trivial
  | cons v vs ih =>
    intro s
    cases first : call [v] s with
    | error e s₁ =>
      refine iff_of_false (fun same => ?_) ?_
      · rcases filterLoop_total call (v :: vs) s with ⟨l, s', run⟩
        rw [run, filterLoop_call_error first] at same
        cases same
      · rintro ⟨r, s', run, -⟩
        cases first.symm.trans run
    | ok r s₁ =>
      rw [filterLoop_vm first, filterLoop_call first]
      constructor
      · intro same
        have decisive : vmReads r = r.isTruthy := by
          by_contra apart
          have dropped : r.isTruthy = false := by
            by_contra truthy
            rw [Bool.not_eq_false] at truthy
            exact apart ((vmReads_of_truthy truthy).trans truthy.symm)
          have kept : vmReads r = true := by
            rw [dropped, Bool.not_eq_false] at apart
            exact apart
          simp only [dropped, kept, if_true, Bool.false_eq_true, if_false] at same
          rw [Eff.map_run, Eff.map_run] at same
          rcases filterLoop_total call vs s₁ with ⟨l, s', run⟩
          rw [run] at same
          cases rest : filterLoop (callKeep call) vs s₁ with
          | error e s₂ =>
            rw [rest] at same
            cases same
          | ok l₂ s₂ =>
            rcases filterLoop_longer vs rest with ⟨l', run', longer⟩
            cases run.symm.trans run'
            rw [rest] at same
            cases same
            simp only [List.length_cons] at longer
            omega
        rw [decisive, Eff.map_run_inj] at same
        · exact ⟨r, s₁, first, decisive_of_vmReads decisive, ih.mp same⟩
        · intro a b same
          split at same
          · exact (List.cons.inj same).2
          · exact same
      · rintro ⟨r', s', run, decisive, runs⟩
        cases first.symm.trans run
        rw [vmReads_eq decisive]
        exact Eff.map_congr_run _ (ih.mpr runs)

theorem reduceLoop_vm_iff (vals : List LispVal) : ∀ {acc s},
    reduceLoop (vmStep call) acc vals s = reduceLoop (callStep call) acc vals s ↔
      Folds call acc vals s := by
  induction vals with
  | nil => exact iff_of_true rfl trivial
  | cons v vs ih =>
    intro acc s
    rw [reduceLoop, reduceLoop, Eff.bind_run, Eff.bind_run, vmStep, callStep]
    cases first : call [acc, v] s with
    | error e s₁ =>
      refine iff_of_false (fun same => ?_) ?_
      · rcases reduceLoop_total call vs acc s₁ with ⟨r, s', run⟩
        dsimp only at same
        rw [run] at same
        cases same
      · rintro ⟨r, s', run, -⟩
        cases first.symm.trans run
    | ok r s₁ =>
      constructor
      · exact fun same => ⟨r, s₁, first, ih.mp same⟩
      · rintro ⟨r', s', run, folds⟩
        cases first.symm.trans run
        exact ih.mpr folds

end Loops

/-! ### All paths -/

section Paths

variable {σ : Type} {c : Callee σ} {func : LispVal} {isVec : Bool} {vals : List LispVal} {s : σ}

theorem seq_inj {a b : List LispVal} (same : seq isVec a = seq isVec b) : a = b := by
  cases isVec with
  | false => exact LispVal.list.inj same
  | true => exact LispVal.vec.inj same

theorem spec_filter (call : List LispVal → Eff σ String LispVal) :
    Hof.spec call isVec vals .filter = seq isVec <$> filterLoop (callKeep call) vals := by
  rw [filterLoop_eq, Hof.spec, ← comp_map]
  rfl

theorem vmMap_eq : vmMap c func (seq isVec vals) = Hof.spec (c.callVal func) isVec vals .map := by
  rw [Hof.spec, ← mapLoop_eq]
  cases isVec <;> rfl

theorem vmFilter_iff :
    vmFilter c func (seq isVec vals) s = Hof.spec (c.callVal func) isVec vals .filter s ↔
      Runs (c.callVal func) Decisive vals s := by
  have run : vmFilter c func (seq isVec vals) =
      seq isVec <$> filterLoop (vmKeep (c.callVal func)) vals := by
    cases isVec <;> rfl
  rw [run, spec_filter, Eff.map_run_inj seq_inj, filterLoop_vm_iff]

theorem vmReduce_iff {init : LispVal} :
    vmReduce c func init (seq isVec vals) s =
        Hof.spec (c.callVal func) isVec vals (.reduce init) s ↔
      Folds (c.callVal func) init vals s := by
  have run : vmReduce c func init (seq isVec vals) =
      reduceLoop (vmStep (c.callVal func)) init vals := by
    cases isVec <;> rfl
  rw [run, Hof.spec, ← reduceLoop_eq, reduceLoop_vm_iff]

theorem viaFastPath_eq {α β : Type} {fast : Option (List LispVal → Eff σ String LispVal)}
    {call : List LispVal → Eff σ String LispVal} {first : List LispVal}
    {go : (List LispVal → Eff σ String LispVal) → LispVal → Eff σ String α} {wrap : α → β}
    {slow : Eff σ String β} (uniform : ∀ {run}, fast = some run → run = call)
    (goes : fast = none ∨
      ∃ r s', call first s = .ok r s' ∧ slow s = (wrap <$> go call r) s') :
    viaFastPath fast first go wrap slow s = slow s := by
  cases fast with
  | none => rfl
  | some run =>
    cases uniform rfl
    rcases goes with none | ⟨r, s', ran, same⟩
    · cases none
    · rw [same]
      simp only [viaFastPath, ran]

theorem mapLoop_cons {call : List LispVal → Eff σ String LispVal} {v r : LispVal} {s' : σ}
    (run : call [v] s = .ok r s') (vs : List LispVal) :
    mapLoop call (v :: vs) s = ((r :: ·) <$> mapLoop call vs) s' := by
  rw [mapLoop, Eff.bind_run, run, map_eq_pure_bind]

theorem reduceLoop_cons {call : List LispVal → Eff σ String LispVal} {acc v r : LispVal} {s' : σ}
    (run : call [acc, v] s = .ok r s') (vs : List LispVal) :
    reduceLoop (callStep call) acc (v :: vs) s = reduceLoop (callStep call) r vs s' := by
  rw [reduceLoop, Eff.bind_run, callStep, run]

/-- The first application does not fail where there is a pre-compiled body to apply first. -/
def FirstReturns (c : Callee σ) (func : LispVal) (vals : List LispVal) (s : σ) : Prop :=
  c.fastPath func = none ∨ ∀ v ∈ vals.head?, ∃ r s', c.callVal func [v] s = .ok r s'

theorem handleMapOver_eq (uniform : c.Uniform) (first : FirstReturns c func vals s) :
    handleMapOver c func vals isVec s = Hof.spec (c.callVal func) isVec vals .map s := by
  rw [Hof.spec, ← mapLoop_eq]
  cases vals with
  | nil => rfl
  | cons v vs =>
    refine viaFastPath_eq uniform (first.imp_right fun returns => ?_)
    rcases returns v rfl with ⟨r, s', run⟩
    refine ⟨r, s', run, ?_⟩
    rw [Eff.map_run, mapLoop_cons run, Eff.map_run (seq isVec)]

theorem handleFilterOver_eq (uniform : c.Uniform)
    (runs : Runs (c.callVal func) Decisive vals s) :
    handleFilterOver c func vals isVec s = Hof.spec (c.callVal func) isVec vals .filter s := by
  rw [spec_filter]
  cases vals with
  | nil => rfl
  | cons v vs =>
    rcases runs with ⟨r, s', run, -, -⟩
    refine viaFastPath_eq uniform (.inr ⟨r, s', run, ?_⟩)
    rw [Eff.map_run, filterLoop_call run, Eff.map_run (seq isVec)]

theorem handleReduceOver_eq (uniform : c.Uniform) {init : LispVal}
    (folds : Folds (c.callVal func) init vals s) :
    handleReduceOver c func init vals s =
      Hof.spec (c.callVal func) isVec vals (.reduce init) s := by
  rw [Hof.spec, ← reduceLoop_eq]
  cases vals with
  | nil => rfl
  | cons v vs =>
    rcases folds with ⟨r, s', run, -⟩
    refine viaFastPath_eq uniform (.inr ⟨r, s', run, ?_⟩)
    rw [reduceLoop_cons run, id_map]

/-! ### Counting the applications -/

/-- Runs only add to the record. -/
def Grows (s s' : σ × List (List LispVal)) : Prop := s.2.length ≤ s'.2.length

theorem recorded_run (run : List LispVal → Eff σ String LispVal) (args : List LispVal)
    (log : List (List LispVal)) : recorded run args (s, log) =
      match run args s with
      | .ok result s' => .ok result (s', log ++ [args])
      | .error e s' => .error e (s', log ++ [args]) := rfl

theorem recorded_grows (run : List LispVal → Eff σ String LispVal) (args : List LispVal) :
    Eff.Keeps Grows (recorded run args) := by
  intro s
  rw [recorded]
  cases run args s.1 with
  | ok r s' => simp [Grows]
  | error e s' => simp [Grows]

theorem mapLoop_grows (run : List LispVal → Eff σ String LispVal) (vals : List LispVal) :
    Eff.Keeps Grows (mapLoop (recorded run) vals) := by
  have refl (s : σ × List (List LispVal)) : Grows s s := Nat.le_refl _
  have trans (a b c : σ × List (List LispVal)) (ab : Grows a b) (bc : Grows b c) : Grows a c :=
    Nat.le_trans ab bc
  induction vals with
  | nil => exact .of_pure refl _
  | cons v vs ih =>
    exact .bind trans (recorded_grows run [v]) fun r => .bind trans ih fun rs => .of_pure refl _

theorem endState_mapLoop_cons (run : List LispVal → Eff σ String LispVal) (v : LispVal)
    (vs : List LispVal) (p : σ × List (List LispVal)) :
    p.2.length + 1 ≤ (Eff.endState (mapLoop (recorded run) (v :: vs) p)).2.length := by
  have more (r : LispVal) (q : σ × List (List LispVal)) :
      q.2.length ≤ (Eff.endState (((r :: ·) <$> mapLoop (recorded run) vs) q)).2.length := by
    have grown := mapLoop_grows run vs q
    rw [Eff.map_run]
    cases rest : mapLoop (recorded run) vs q <;> rw [rest] at grown <;> exact grown
  cases first : run [v] p.1 with
  | ok r s' =>
    have grown := more r (s', p.2 ++ [[v]])
    have recordedFirst : recorded run [v] p = .ok r (s', p.2 ++ [[v]]) := by rw [recorded, first]
    rw [mapLoop_cons recordedFirst]
    simpa using grown
  | error e s' =>
    rw [mapLoop, Eff.bind_run, recorded, first]
    simp

theorem recorded_ok {run : List LispVal → Eff σ String LispVal} {args : List LispVal}
    {log : List (List LispVal)} {r : LispVal} {p : σ × List (List LispVal)} :
    recorded run args (s, log) = .ok r p ↔
      ∃ s', run args s = .ok r s' ∧ p = (s', log ++ [args]) := by
  rw [recorded_run]
  cases run args s with
  | ok r' s' =>
    constructor
    · intro same
      injection same with values states
      exact ⟨s', by rw [values], states.symm⟩
    · rintro ⟨s'', same, rfl⟩
      injection same with values states
      rw [values, states]
  | error e s' =>
    refine iff_of_false nofun ?_
    rintro ⟨s'', same, -⟩
    cases same

theorem runs_recorded {call : List LispVal → Eff σ String LispVal} {ok : LispVal → Prop}
    (vals : List LispVal) :
    ∀ {s log}, Runs (recorded call) ok vals (s, log) ↔ Runs call ok vals s := by
  induction vals with
  | nil => exact Iff.rfl
  | cons v vs ih =>
    intro s log
    constructor
    · rintro ⟨r, p, run, good, runs⟩
      rcases recorded_ok.mp run with ⟨s', run', rfl⟩
      exact ⟨r, s', run', good, ih.mp runs⟩
    · rintro ⟨r, s', run, good, runs⟩
      exact ⟨r, _, recorded_ok.mpr ⟨s', run, rfl⟩, good, ih.mpr runs⟩

theorem folds_recorded {call : List LispVal → Eff σ String LispVal} (vals : List LispVal) :
    ∀ {acc s log}, Folds (recorded call) acc vals (s, log) ↔ Folds call acc vals s := by
  induction vals with
  | nil => exact Iff.rfl
  | cons v vs ih =>
    intro acc s log
    constructor
    · rintro ⟨r, p, run, folds⟩
      rcases recorded_ok.mp run with ⟨s', run', rfl⟩
      exact ⟨r, s', run', ih.mp folds⟩
    · rintro ⟨r, s', run, folds⟩
      exact ⟨r, _, recorded_ok.mpr ⟨s', run, rfl⟩, ih.mpr folds⟩

theorem firstReturns_recorded {log : List (List LispVal)} (first : FirstReturns c func vals s) :
    FirstReturns c.recorded func vals (s, log) := by
  refine first.imp (fun none => ?_) fun returns v head => ?_
  · simp only [Callee.recorded, none, Option.map_none]
  · rcases returns v head with ⟨r, s', run⟩
    exact ⟨r, _, recorded_ok.mpr ⟨s', run, rfl⟩⟩

theorem handleMapOver_iff (uniform : c.Uniform) {log : List (List LispVal)} :
    handleMapOver c.recorded func vals isVec (s, log) =
        Hof.spec (c.recorded.callVal func) isVec vals .map (s, log) ↔
      FirstReturns c func vals s := by
  refine ⟨fun same => ?_, fun first =>
    handleMapOver_eq uniform.recorded (firstReturns_recorded first)⟩
  rw [FirstReturns, or_iff_not_imp_left]
  intro compiled v head
  rcases Option.ne_none_iff_exists'.mp compiled with ⟨run, fast⟩
  cases vals with
  | nil => cases head
  | cons w vs =>
    cases head
    cases first : c.callVal func [v] s with
    | ok r s' => exact ⟨r, s', rfl⟩
    | error e s' =>
      -- the failed application is made again, and the record has grown by two
      exfalso
      have failed : recorded (c.callVal func) [v] (s, log) = .error e (s', log ++ [[v]]) := by
        rw [recorded_run, first]
      have twice := endState_mapLoop_cons (c.callVal func) v vs (s', log ++ [[v]])
      have fast' : c.recorded.fastPath func = some (recorded (c.callVal func)) := by
        simp only [Callee.recorded, fast, Option.map_some, uniform fast]
      have again : handleMapOver c.recorded func (v :: vs) isVec (s, log) =
          (seq isVec <$> mapLoop (recorded (c.callVal func)) (v :: vs)) (s', log ++ [[v]]) := by
        simp only [handleMapOver, viaFastPath, fast', failed]
        rfl
      have once : Hof.spec (c.recorded.callVal func) isVec (v :: vs) .map (s, log) =
          .error e (s', log ++ [[v]]) := by
        rw [Hof.spec, ← mapLoop_eq, Eff.map_run, mapLoop, Eff.bind_run]
        simp only [Callee.recorded, failed]
      rw [again, once, Eff.map_run] at same
      cases rest : mapLoop (recorded (c.callVal func)) (v :: vs) (s', log ++ [[v]]) with
      | ok l p =>
        rw [rest] at same
        cases same
      | error e' p =>
        rw [rest] at same twice
        injection same with errors states
        rw [Eff.endState_error, states] at twice
        omega

end Paths

/-! ### Agreement -/

section Agreement

variable {σ : Type} (c : Callee σ)

def Hof.name : Hof → String
  | .map => "map"
  | .filter => "filter"
  | .reduce _ => "reduce"

def Hof.args (func list : LispVal) : Hof → List LispVal
  | .reduce init => [func, init, list]
  | _ => [func, list]

/-- The fused opcode, which takes its function from a slot. -/
def Hof.fused (slots : List LispVal) (slotIdx : Nat) (list : LispVal) (stack : List LispVal) :
    Hof → Eff σ String (List LispVal)
  | .map => mapOp c slots slotIdx (list :: stack)
  | .filter => filterOp c slots slotIdx (list :: stack)
  | .reduce init => reduceOp c slots slotIdx (list :: init :: stack)

/-- The dispatcher. -/
def Hof.handle (args : List LispVal) : Hof → Eff σ String LispVal
  | .map => handleMap c args
  | .filter => handleFilter c args
  | .reduce _ => handleReduce c args

/-- All paths do what the operation means. -/
structure Agree (op : Hof) (func : LispVal) (isVec : Bool) (vals : List LispVal) (s : σ) :
    Prop where
  fused : ∀ before after stack,
    op.fused c (before ++ func :: after) before.length (seq isVec vals) stack s =
      ((· :: stack) <$> op.spec (c.callVal func) isVec vals) s
  inline : ∀ otherwise stack,
    builtinCall c otherwise op.name (op.args func (seq isVec vals)).length
        ((op.args func (seq isVec vals)).reverse ++ stack) s =
      ((· :: stack) <$> op.spec (c.callVal func) isVec vals) s
  dispatched :
    op.handle c (op.args func (seq isVec vals)) s = op.spec (c.callVal func) isVec vals s

/-- What the function has to do where it is applied. -/
def Hof.Sound (func : LispVal) (vals : List LispVal) (s : σ) : Hof → Prop
  | .map => FirstReturns c func vals s
  | .filter => Runs (c.callVal func) Decisive vals s
  | .reduce init => Folds (c.callVal func) init vals s

/-- What the virtual machine's paths share. -/
def Hof.vm (func list : LispVal) : Hof → Eff σ String LispVal
  | .map => vmMap c func list
  | .filter => vmFilter c func list
  | .reduce init => vmReduce c func init list

variable {c} {op : Hof} {func : LispVal} {isVec : Bool} {vals : List LispVal} {s : σ}

theorem fused_eq (before after : List LispVal) (list : LispVal) (stack : List LispVal) :
    op.fused c (before ++ func :: after) before.length list stack =
      (· :: stack) <$> op.vm c func list := by
  have slot : (before ++ func :: after)[before.length]? = some func := by simp
  cases op <;> simp only [Hof.fused, mapOp, filterOp, reduceOp, pop, slot, Hof.vm]

theorem inline_eq (otherwise : String → List LispVal → Eff σ String LispVal) (list : LispVal)
    (stack : List LispVal) :
    builtinCall c otherwise op.name (op.args func list).length
        ((op.args func list).reverse ++ stack) =
      (· :: stack) <$> op.vm c func list := by
  cases op <;> rfl

theorem agree_iff : Agree c op func isVec vals s ↔
    op.vm c func (seq isVec vals) s = op.spec (c.callVal func) isVec vals s ∧
      op.handle c (op.args func (seq isVec vals)) s = op.spec (c.callVal func) isVec vals s := by
  have push {a b : LispVal} {stack : List LispVal} (same : a :: stack = b :: stack) : a = b :=
    (List.cons.inj same).1
  constructor
  · rintro ⟨fused, -, dispatched⟩
    have same := fused [] [] []
    rw [fused_eq, Eff.map_run_inj push] at same
    exact ⟨same, dispatched⟩
  · rintro ⟨same, dispatched⟩
    refine ⟨fun before after stack => ?_, fun otherwise stack => ?_, dispatched⟩
    · rw [fused_eq]
      exact Eff.map_congr_run _ same
    · rw [inline_eq]
      exact Eff.map_congr_run _ same

theorem handleMap_eq :
    handleMap c [func, seq isVec vals] = handleMapOver c func vals isVec := by
  cases isVec <;> rfl

theorem handleFilter_eq :
    handleFilter c [func, seq isVec vals] = handleFilterOver c func vals isVec := by
  cases isVec <;> rfl

theorem handleReduce_eq {init : LispVal} :
    handleReduce c [func, init, seq isVec vals] = handleReduceOver c func init vals := by
  cases isVec <;> rfl

/-- All paths apply a function to each element once, in order, and do the same with its results and
its first failure exactly where `map` has no first failure to retry, `filter` gets truthy values and
booleans only, and `reduce` no failure. -/
theorem agree_recorded_iff {κ : Type} (m : Machine σ κ) (op : Hof) (func : LispVal) (isVec : Bool)
    (vals : List LispVal) (s : σ) :
    Agree m.callee.recorded op func isVec vals (s, []) ↔ op.Sound m.callee func vals s := by
  have uniform : m.callee.recorded.Uniform := Callee.Uniform.recorded m.uniform
  rw [agree_iff]
  cases op with
  | map =>
    refine (and_iff_right ?_).trans ?_
    · exact congrFun vmMap_eq _
    · exact (iff_of_eq (congrArg (· = _) (congrFun handleMap_eq _))).trans
        (handleMapOver_iff m.uniform)
  | filter =>
    refine (and_congr_left' vmFilter_iff).trans ((and_iff_left_of_imp fun runs => ?_).trans
      (runs_recorded vals))
    exact (congrFun handleFilter_eq _).trans (handleFilterOver_eq uniform runs)
  | reduce init =>
    refine (and_congr_left' vmReduce_iff).trans ((and_iff_left_of_imp fun folds => ?_).trans
      (folds_recorded vals))
    exact (congrFun handleReduce_eq _).trans (handleReduceOver_eq uniform folds)

/-- `(lambda (x) nil)`. -/
def constantly : Machine Unit Unit where
  compiled _ := some ()
  runCompiledLambda _ _ := pure .nil
  evalBuiltin name _ := throw name
  cacheGet _ _ _ := none
  cacheInsert _ _ _ := id

/-- The virtual machine's `filter` keeps an element whose result is `nil`. -/
theorem filter_keeps_nil : ¬∀ (m : Machine Unit Unit) op func isVec vals,
    Agree m.callee.recorded op func isVec vals ((), []) := by
  intro agree
  have both := agree_iff.mp (agree constantly .filter (.lambda ["x"] none .nil []) false [.num 1])
  simp only [Hof.vm] at both
  have runs := (runs_recorded _).mp (vmFilter_iff.mp both.1)
  rcases runs with ⟨r, s', run, decisive, -⟩
  simp only [Machine.callee, vmCallLambda, constantly] at run
  cases run
  rcases decisive with ⟨b, same⟩ | truthy
  · cases same
  · cases truthy

end Agreement

end Traversal

end LispRlm.Bytecode
