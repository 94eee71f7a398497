import LispRlm.WasmEmit.TailCalls

/-! Plain evaluation: what more calls, and variables that are not mentioned, change. -/

namespace LispRlm.WasmEmit

open Foundation Instruction

namespace FnDef

/-! ### More calls allowed -/

/-- The second caller answers whatever the first one does. -/
def Extends (call call' : Caller) : Prop :=
  ∀ args m, call args m ≠ .error .outOfFuel → call' args m = call args m

/-- The turn is over before the calls run out. -/
def Turn.Known (t : Turn) : Prop := t ≠ .done (.error .outOfFuel)

variable {f : FnDef} {plain : Expressions} {call call' : Caller}

theorem Turn.known_of_finish {t : Turn} (answered : t.finish call ≠ .error .outOfFuel) :
    t.Known := by
  rintro rfl
  exact answered rfl

theorem Turn.finish_mono (more : Extends call call') {t t' : Turn} (same : t.Known → t' = t)
    (answered : t.finish call ≠ .error .outOfFuel) : t'.finish call' = t.finish call := by
  rw [same (Turn.known_of_finish answered)]
  cases t with
  | done r => rfl
  | again args m => exact more args m answered

theorem bindAll_skip {ρ : Env} {b : LispVal} {rest : List LispVal} {m : LinearMemory}
    (other : ∀ n init, b ≠ .list [.sym n, init]) :
    f.bindAll plain call ρ (b :: rest) m = f.bindAll plain call ρ rest m := by
  rw [bindAll]
  exact other

mutual

theorem turn_mono (more : Extends call call') (ρ : Env) (e : LispVal) (m : LinearMemory)
    (known : (f.turn plain call ρ e m).Known) :
    f.turn plain call' ρ e m = f.turn plain call ρ e m := by
  match e with
  | .list items =>
      rw [turn] at known ⊢
      rw [turn]
      exact turnList_mono more ρ items m known
  | .nil | .bool _ | .num _ | .str _ | .sym _ => rfl

theorem turnList_mono (more : Extends call call') (ρ : Env) (items : List LispVal)
    (m : LinearMemory) (known : (f.turnList plain call ρ items m).Known) :
    f.turnList plain call' ρ items m = f.turnList plain call ρ items m := by
  match items with
  | .sym op :: a =>
      rw [turnList] at known
      rw [turnList, turnList]
      split
      · rename_i is
        rw [if_pos is] at known
        exact turnIf_mono more ρ a m known
      · rename_i notIf
        rw [if_neg notIf] at known
        split
        · rename_i is
          rw [if_pos is] at known
          exact turnForms_mono more ρ a m known
        · rename_i notBegin
          rw [if_neg notBegin] at known
          split
          · rename_i is
            rw [if_pos is] at known
            exact turnLet_mono more ρ a m known
          · rename_i notLet
            rw [if_neg notLet] at known
            split
            · rename_i is
              rw [if_pos is] at known
              rw [evalArgs_mono more ρ a m]
              intro stuck
              rw [stuck] at known
              exact known rfl
            · rfl
  | [] => rfl
  | .nil :: _ | .bool _ :: _ | .num _ :: _ | .str _ :: _ | .list _ :: _ => rfl

theorem turnIf_mono (more : Extends call call') (ρ : Env) (a : List LispVal)
    (m : LinearMemory) (known : (f.turnIf plain call ρ a m).Known) :
    f.turnIf plain call' ρ a m = f.turnIf plain call ρ a m := by
  match a with
  | [c, t] =>
      rw [turnIf] at known
      rw [turnIf, turnIf]
      have answered : (f.turn plain call ρ c m).finish call ≠ .error .outOfFuel := by
        intro stuck
        rw [stuck] at known
        exact known rfl
      rw [Turn.finish_mono more (turn_mono more ρ c m) answered]
      split
      · rename_i w m' value
        rw [value] at known
        dsimp only at known
        split
        · rename_i yes
          rw [if_pos yes] at known
          exact turn_mono more ρ t m' known
        · rfl
      · rfl
  | [c, t, e] =>
      rw [turnIf] at known
      rw [turnIf, turnIf]
      have answered : (f.turn plain call ρ c m).finish call ≠ .error .outOfFuel := by
        intro stuck
        rw [stuck] at known
        exact known rfl
      rw [Turn.finish_mono more (turn_mono more ρ c m) answered]
      split
      · rename_i w m' value
        rw [value] at known
        dsimp only at known
        split
        · rename_i yes
          rw [if_pos yes] at known
          exact turn_mono more ρ t m' known
        · rename_i no
          rw [if_neg no] at known
          exact turn_mono more ρ e m' known
      · rfl
  | [] | [_] | _ :: _ :: _ :: _ :: _ => rfl

theorem turnForms_mono (more : Extends call call') (ρ : Env) (forms : List LispVal)
    (m : LinearMemory) (known : (f.turnForms plain call ρ forms m).Known) :
    f.turnForms plain call' ρ forms m = f.turnForms plain call ρ forms m := by
  match forms with
  | [] => rfl
  | [x] =>
      rw [turnForms] at known
      rw [turnForms, turnForms]
      exact turn_mono more ρ x m known
  | x :: y :: rest =>
      rw [turnForms] at known
      rw [turnForms, turnForms]
      · have answered : (f.turn plain call ρ x m).finish call ≠ .error .outOfFuel := by
          intro stuck
          rw [stuck] at known
          exact known rfl
        rw [Turn.finish_mono more (turn_mono more ρ x m) answered]
        split
        · rename_i w m' value
          rw [value] at known
          exact turnForms_mono more ρ (y :: rest) m' known
        · rfl
      · simp
      · simp
      · simp

theorem turnLet_mono (more : Extends call call') (ρ : Env) (a : List LispVal)
    (m : LinearMemory) (known : (f.turnLet plain call ρ a m).Known) :
    f.turnLet plain call' ρ a m = f.turnLet plain call ρ a m := by
  match a with
  | [] => rfl
  | .list bs :: forms =>
      rw [turnLet] at known
      rw [turnLet, turnLet]
      rw [bindAll_mono more ρ bs m]
      · split
        · rename_i ρ' m' bound
          rw [bound] at known
          exact turnForms_mono more ρ' forms m' known
        · rfl
      · intro stuck
        rw [stuck] at known
        exact known rfl
  | .nil :: forms | .bool _ :: forms | .num _ :: forms | .str _ :: forms | .sym _ :: forms =>
      exact turnForms_mono more ρ forms m known

theorem bindAll_mono (more : Extends call call') (ρ : Env) (bs : List LispVal)
    (m : LinearMemory) (known : f.bindAll plain call ρ bs m ≠ .error .outOfFuel) :
    f.bindAll plain call' ρ bs m = f.bindAll plain call ρ bs m := by
  match bs with
  | [] => rfl
  | .list [.sym n, init] :: rest =>
      rw [bindAll] at known
      rw [bindAll, bindAll]
      have answered : (f.turn plain call ρ init m).finish call ≠ .error .outOfFuel := by
        intro stuck
        rw [stuck] at known
        exact known rfl
      rw [Turn.finish_mono more (turn_mono more ρ init m) answered]
      split
      · rename_i w m' value
        rw [value] at known
        exact bindAll_mono more (ρ.bind n w) rest m' known
      · rfl
  | .nil :: rest | .bool _ :: rest | .num _ :: rest | .str _ :: rest | .sym _ :: rest
  | .list [] :: rest | .list [.nil, _] :: rest | .list [.bool _, _] :: rest | .list [.num _, _] :: rest
  | .list [.str _, _] :: rest | .list [.list _, _] :: rest =>
      exact bindAll_mono more ρ rest m known
  | .list [b] :: rest | .list (b :: _ :: _ :: _) :: rest =>
      rw [bindAll_skip] at known
      · rw [bindAll_skip, bindAll_skip]
        · exact bindAll_mono more ρ rest m known
        · simp
        · simp
      · simp

theorem evalArgs_mono (more : Extends call call') (ρ : Env) (a : List LispVal)
    (m : LinearMemory) (known : f.evalArgs plain call ρ a m ≠ .error .outOfFuel) :
    f.evalArgs plain call' ρ a m = f.evalArgs plain call ρ a m := by
  match a with
  | [] => rfl
  | x :: rest =>
      rw [evalArgs] at known
      rw [evalArgs, evalArgs]
      have answered : (f.turn plain call ρ x m).finish call ≠ .error .outOfFuel := by
        intro stuck
        rw [stuck] at known
        exact known rfl
      rw [Turn.finish_mono more (turn_mono more ρ x m) answered]
      split
      · rename_i w m' value
        rw [value] at known
        dsimp only at known
        rw [evalArgs_mono more ρ rest m']
        intro stuck
        rw [stuck] at known
        exact known rfl
      · rfl

end

/-! ### Variables that are not mentioned -/

/-- Environments that agree on some names. -/
def AgreeOn (P : String → Prop) (ρ ρ' : Env) : Prop := ∀ n, P n → ρ n = ρ' n

/-- Only these names are mentioned. -/
def Within (P : String → Prop) (e : LispVal) : Prop := ∀ n, mentions n e = true → P n

def AllWithin (P : String → Prop) (es : List LispVal) : Prop :=
  ∀ n, mentionsAny n es = true → P n

variable {P : String → Prop} {ρ ρ' : Env}

theorem AllWithin.head {x : LispVal} {rest : List LispVal} (all : AllWithin P (x :: rest)) :
    Within P x := by
  intro n mentioned
  apply all n
  rw [mentionsAny, mentioned, Bool.true_or]

theorem AllWithin.tail {x : LispVal} {rest : List LispVal} (all : AllWithin P (x :: rest)) :
    AllWithin P rest := by
  intro n mentioned
  apply all n
  rw [mentionsAny, mentioned, Bool.or_true]

theorem Within.items {items : List LispVal} (all : Within P (.list items)) :
    AllWithin P items := by
  intro n mentioned
  apply all n
  rw [mentions, mentioned]

theorem AllWithin.list {items : List LispVal} (all : AllWithin P items) :
    Within P (.list items) := by
  intro n mentioned
  apply all n
  rwa [mentions] at mentioned

theorem AgreeOn.restrict {e : LispVal} (agree : AgreeOn P ρ ρ') (within : Within P e) :
    restrict ρ e = FnDef.restrict ρ' e := by
  funext n
  unfold FnDef.restrict
  split
  · rename_i mentioned
    exact agree n (within n mentioned)
  · rfl

theorem AgreeOn.bind (agree : AgreeOn P ρ ρ') (n : String) (w : I64) :
    AgreeOn P (ρ.bind n w) (ρ'.bind n w) := by
  intro n' inP
  unfold Env.bind
  split
  · rfl
  · exact agree n' inP

/-- The same outcome of binding, up to names that nobody mentions. -/
def SameBinding (P : String → Prop) :
    Except Stop (Env × LinearMemory) → Except Stop (Env × LinearMemory) → Prop
  | .ok (ρ, m), .ok (ρ', m') => AgreeOn P ρ ρ' ∧ m = m'
  | .error r, .error r' => r = r'
  | _, _ => False

mutual

theorem turn_congr {ρ ρ' : Env} (agree : AgreeOn P ρ ρ') (e : LispVal) (m : LinearMemory)
    (within : Within P e) : f.turn plain call ρ e m = f.turn plain call ρ' e m := by
  match e with
  | .list items =>
      rw [turn, turn]
      exact turnList_congr agree items m within.items
  | .nil | .bool _ | .num _ | .str _ | .sym _ =>
      simp only [turn, agree.restrict within]

theorem turnList_congr {ρ ρ' : Env} (agree : AgreeOn P ρ ρ') (items : List LispVal)
    (m : LinearMemory) (within : AllWithin P items) :
    f.turnList plain call ρ items m = f.turnList plain call ρ' items m := by
  match items with
  | .sym op :: a =>
      rw [turnList, turnList, agree.restrict within.list, turnIf_congr agree a m within.tail,
        turnForms_congr agree a m within.tail, turnLet_congr agree a m within.tail,
        evalArgs_congr agree a m within.tail]
  | [] | .nil :: _ | .bool _ :: _ | .num _ :: _ | .str _ :: _ | .list _ :: _ =>
      simp only [turnList, agree.restrict within.list]

theorem turnIf_congr {ρ ρ' : Env} (agree : AgreeOn P ρ ρ') (a : List LispVal) (m : LinearMemory)
    (within : AllWithin P a) : f.turnIf plain call ρ a m = f.turnIf plain call ρ' a m := by
  match a with
  | [c, t] =>
      rw [turnIf, turnIf, turn_congr agree c m within.head]
      split
      · rw [turn_congr agree t _ within.tail.head]
      · rfl
  | [c, t, e] =>
      rw [turnIf, turnIf, turn_congr agree c m within.head]
      split
      · rw [turn_congr agree t _ within.tail.head, turn_congr agree e _ within.tail.tail.head]
      · rfl
  | [] | [_] | _ :: _ :: _ :: _ :: _ => rfl

theorem turnForms_congr {ρ ρ' : Env} (agree : AgreeOn P ρ ρ') (forms : List LispVal)
    (m : LinearMemory) (within : AllWithin P forms) :
    f.turnForms plain call ρ forms m = f.turnForms plain call ρ' forms m := by
  match forms with
  | [] => rfl
  | [x] =>
      rw [turnForms, turnForms]
      exact turn_congr agree x m within.head
  | x :: y :: rest =>
      rw [turnForms, turnForms, turn_congr agree x m within.head]
      · split
        · exact turnForms_congr agree (y :: rest) _ within.tail
        · rfl
      · simp
      · simp

theorem turnLet_congr {ρ ρ' : Env} (agree : AgreeOn P ρ ρ') (a : List LispVal) (m : LinearMemory)
    (within : AllWithin P a) : f.turnLet plain call ρ a m = f.turnLet plain call ρ' a m := by
  match a with
  | [] => rfl
  | .list bs :: forms =>
      rw [turnLet, turnLet]
      have bound := bindAll_congr agree bs m within.head.items
      match f.bindAll plain call ρ bs m, f.bindAll plain call ρ' bs m, bound with
      | .ok (ρ₁, m₁), .ok (ρ₁', _), ⟨agree₁, rfl⟩ =>
          exact turnForms_congr agree₁ forms m₁ within.tail
      | .error r, .error _, rfl => rfl
  | .nil :: forms | .bool _ :: forms | .num _ :: forms | .str _ :: forms | .sym _ :: forms =>
      exact turnForms_congr agree forms m within.tail

theorem bindAll_congr {ρ ρ' : Env} (agree : AgreeOn P ρ ρ') (bs : List LispVal) (m : LinearMemory)
    (within : AllWithin P bs) :
    SameBinding P (f.bindAll plain call ρ bs m) (f.bindAll plain call ρ' bs m) := by
  match bs with
  | [] => exact ⟨agree, rfl⟩
  | .list [.sym n, init] :: rest =>
      rw [bindAll, bindAll, turn_congr agree init m within.head.items.tail.head]
      split
      · exact bindAll_congr (agree.bind n _) rest _ within.tail
      · rfl
  | .nil :: rest | .bool _ :: rest | .num _ :: rest | .str _ :: rest | .sym _ :: rest
  | .list [] :: rest | .list [.nil, _] :: rest | .list [.bool _, _] :: rest
  | .list [.num _, _] :: rest | .list [.str _, _] :: rest | .list [.list _, _] :: rest =>
      exact bindAll_congr agree rest m within.tail
  | .list [b] :: rest | .list (b :: _ :: _ :: _) :: rest =>
      rw [bindAll_skip, bindAll_skip]
      · exact bindAll_congr agree rest m within.tail
      · simp
      · simp

theorem evalArgs_congr {ρ ρ' : Env} (agree : AgreeOn P ρ ρ') (a : List LispVal) (m : LinearMemory)
    (within : AllWithin P a) :
    f.evalArgs plain call ρ a m = f.evalArgs plain call ρ' a m := by
  match a with
  | [] => rfl
  | x :: rest =>
      rw [evalArgs, evalArgs, turn_congr agree x m within.head]
      split
      · rw [evalArgs_congr agree rest _ within.tail]
      · rfl

end

/-- A variable that is not mentioned does not matter. -/
theorem eval_congr {e : LispVal} (agree : ∀ n, mentions n e = true → ρ n = ρ' n)
    (m : LinearMemory) : f.eval plain call ρ e m = f.eval plain call ρ' e m := by
  have within : Within (fun n => mentions n e = true) e := fun _ mentioned => mentioned
  rw [eval, eval, turn_congr agree e m within]

end FnDef

end LispRlm.WasmEmit
