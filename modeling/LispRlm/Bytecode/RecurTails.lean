import LispRlm.Bytecode.Values

/-! The validation of `recur` before a loop's body is compiled. -/

namespace LispRlm.Bytecode

/-- The arms of the validation. -/
inductive RecurForm
  | recur | branch | sequence | binding | cond | guarded | scope | call
  deriving DecidableEq

def RecurForm.of : String → RecurForm
  | "recur" => .recur
  | "if" => .branch
  | "begin" | "progn" | "and" | "or" => .sequence
  | "let" | "let*" | "letrec" => .binding
  | "cond" => .cond
  | "when" | "unless" => .guarded
  | "lambda" | "fn" | "quote" | "loop" => .scope
  | _ => .call

/-- An error, or a slice out of range. -/
inductive RecurStop
  | error (message : String)
  | panic
  deriving DecidableEq

def recurNotTail : String :=
  "recur not in tail position — it must be the final expression of the loop body (or of a tail " ++
    "branch: if/cond/when/begin/let/and/or tails)"

def recurArity (arity passed : Nat) : String :=
  "recur arity mismatch: loop has " ++ toString arity ++ " variable(s), recur passed " ++
    toString passed

def isElse : LispVal → Bool
  | .sym s => s == "else"
  | _ => false

mutual

/-- `validate_recur_tail_expr` -/
def validateRecurTailExpr (arity : Nat) (tail : Bool) : LispVal → Except RecurStop Unit
  | .list (.sym head :: args) =>
      match RecurForm.of head with
      | .recur =>
          if tail = false then .error (.error recurNotTail)
          else if args.length ≠ arity then .error (.error (recurArity arity args.length))
          else validateOperands arity args
      | .branch => validateBranches arity tail args
      | .sequence => validateForms arity tail args
      | .binding => validateBinding arity tail args
      | .cond => validateClauses arity tail args
      | .guarded => validateGuarded arity tail args
      | .scope => .ok ()
      | .call => validateOperands arity args
  | .list items => validateOperands arity items
  | _ => .ok ()

def validateOperands (arity : Nat) : List LispVal → Except RecurStop Unit
  | [] => .ok ()
  | x :: rest => do
      validateRecurTailExpr arity false x
      validateOperands arity rest

/-- The forms of a body: all but the last one are sliced off, and without a form the slice is out of
range. -/
def validateForms (arity : Nat) (tail : Bool) : List LispVal → Except RecurStop Unit
  | [] => .error .panic
  | [x] => validateRecurTailExpr arity tail x
  | x :: y :: rest => do
      validateRecurTailExpr arity false x
      validateForms arity tail (y :: rest)

/-- What stands after the third operand is not looked at. -/
def validateBranches (arity : Nat) (tail : Bool) : List LispVal → Except RecurStop Unit
  | [] => .ok ()
  | [c] => validateRecurTailExpr arity false c
  | [c, t] => do
      validateRecurTailExpr arity false c
      validateRecurTailExpr arity tail t
  | c :: t :: e :: _ => do
      validateRecurTailExpr arity false c
      validateRecurTailExpr arity tail t
      validateRecurTailExpr arity tail e

/-- The bindings are validated as if they were forms. -/
def validateBinding (arity : Nat) (tail : Bool) : List LispVal → Except RecurStop Unit
  | [] => .error .panic
  | .list bs :: forms => do
      validateOperands arity bs
      validateForms arity tail forms
  | _ :: forms => validateForms arity tail forms

def validateClauses (arity : Nat) (tail : Bool) : List LispVal → Except RecurStop Unit
  | [] => .ok ()
  | .list [] :: _ | .list [_] :: _ => .error .panic
  | .list (test :: form :: forms) :: rest => do
      if isElse test = false then validateRecurTailExpr arity false test
      validateForms arity tail (form :: forms)
      validateClauses arity tail rest
  | _ :: rest => validateClauses arity tail rest

def validateGuarded (arity : Nat) (tail : Bool) : List LispVal → Except RecurStop Unit
  | [] => .error .panic
  | c :: forms => do
      validateRecurTailExpr arity false c
      validateForms arity tail forms

end

def validateRecurTails (body : LispVal) (loopVars : Nat) : Except RecurStop Unit :=
  validateRecurTailExpr loopVars true body

/-! ### The `recur` forms of a loop -/

/-- A `recur` form: whether it is in tail position, and the number of its arguments. -/
structure RecurSite where
  tail : Bool
  args : Nat
  deriving DecidableEq

def RecurSite.Fits (arity : Nat) (site : RecurSite) : Prop := site.tail = true ∧ site.args = arity

mutual

/-- All `recur` forms that belong to the loop. -/
def recurSites (tail : Bool) : LispVal → List RecurSite
  | .list (.sym head :: args) =>
      match RecurForm.of head with
      | .recur => ⟨tail, args.length⟩ :: operandSites args
      | .branch => branchSites tail args
      | .sequence => formSites tail args
      | .binding => bindingSites tail args
      | .cond => clauseSites tail args
      | .guarded => guardedSites tail args
      | .scope => []
      | .call => operandSites args
  | .list items => operandSites items
  | _ => []

def operandSites : List LispVal → List RecurSite
  | [] => []
  | x :: rest => recurSites false x ++ operandSites rest

def formSites (tail : Bool) : List LispVal → List RecurSite
  | [] => []
  | [x] => recurSites tail x
  | x :: y :: rest => recurSites false x ++ formSites tail (y :: rest)

def branchSites (tail : Bool) : List LispVal → List RecurSite
  | [] => []
  | [c] => recurSites false c
  | [c, t] => recurSites false c ++ recurSites tail t
  | c :: t :: e :: extra =>
      recurSites false c ++ (recurSites tail t ++ (recurSites tail e ++ operandSites extra))

/-- A binding is a name and its initialiser, whatever the name is. -/
def initSites : List LispVal → List RecurSite
  | [] => []
  | .list (.sym _ :: inits) :: rest => operandSites inits ++ initSites rest
  | .list items :: rest => operandSites items ++ initSites rest
  | _ :: rest => initSites rest

def bindingSites (tail : Bool) : List LispVal → List RecurSite
  | [] => []
  | .list bs :: forms => initSites bs ++ formSites tail forms
  | _ :: forms => formSites tail forms

def clauseSites (tail : Bool) : List LispVal → List RecurSite
  | [] => []
  | .list [] :: rest => clauseSites tail rest
  | .list (test :: forms) :: rest =>
      recurSites false test ++ (formSites tail forms ++ clauseSites tail rest)
  | _ :: rest => clauseSites tail rest

def guardedSites (tail : Bool) : List LispVal → List RecurSite
  | [] => []
  | c :: forms => recurSites false c ++ formSites tail forms

end

/-- The validation answers, and what it accepts has its `recur` forms in tail position with as many
arguments as there are variables. -/
def RecurChecked (body : LispVal) (arity : Nat) : Prop :=
  validateRecurTails body arity ≠ .error .panic ∧
    (validateRecurTails body arity = .ok () → ∀ site ∈ recurSites true body, site.Fits arity)

/-! ### The order of the walk -/

/-- What the walk comes to: a `recur` form, a form that is too short to be sliced, or a place with
`recur` forms that it does not look at. -/
inductive RecurEvent
  | met (site : RecurSite)
  | short
  | skipped
  deriving DecidableEq

def RecurEvent.skips (sites : List RecurSite) : List RecurEvent :=
  if sites = [] then [] else [.skipped]

/-- A binding is read as a form, and what it binds may be read as something else. -/
def RecurForm.misreads : RecurForm → Bool
  | .binding | .cond | .scope => true
  | _ => false

def RecurEvent.heard : RecurEvent → Bool
  | .skipped => false
  | _ => true

mutual

def recurEvents (tail : Bool) : LispVal → List RecurEvent
  | .list (.sym head :: args) =>
      match RecurForm.of head with
      | .recur => .met ⟨tail, args.length⟩ :: operandEvents args
      | .branch => branchEvents tail args
      | .sequence => formEvents tail args
      | .binding => bindingEvents tail args
      | .cond => clauseEvents tail args
      | .guarded => guardedEvents tail args
      | .scope => []
      | .call => operandEvents args
  | .list items => operandEvents items
  | _ => []

def operandEvents : List LispVal → List RecurEvent
  | [] => []
  | x :: rest => recurEvents false x ++ operandEvents rest

def formEvents (tail : Bool) : List LispVal → List RecurEvent
  | [] => [.short]
  | [x] => recurEvents tail x
  | x :: y :: rest => recurEvents false x ++ formEvents tail (y :: rest)

def branchEvents (tail : Bool) : List LispVal → List RecurEvent
  | [] => []
  | [c] => recurEvents false c
  | [c, t] => recurEvents false c ++ recurEvents tail t
  | c :: t :: e :: extra =>
      recurEvents false c ++ (recurEvents tail t ++ (recurEvents tail e ++
        RecurEvent.skips (operandSites extra)))

def initEvents : List LispVal → List RecurEvent
  | [] => []
  | .list (.sym name :: inits) :: rest =>
      (if (RecurForm.of name).misreads then
        (recurEvents false (.list (.sym name :: inits))).filter RecurEvent.heard ++
          RecurEvent.skips (operandSites inits)
      else recurEvents false (.list (.sym name :: inits))) ++ initEvents rest
  | b :: rest => recurEvents false b ++ initEvents rest

def bindingEvents (tail : Bool) : List LispVal → List RecurEvent
  | [] => [.short]
  | .list bs :: forms => initEvents bs ++ formEvents tail forms
  | _ :: forms => formEvents tail forms

def clauseEvents (tail : Bool) : List LispVal → List RecurEvent
  | [] => []
  | .list [] :: _ | .list [_] :: _ => [.short]
  | .list (test :: form :: forms) :: rest =>
      recurEvents false test ++ (formEvents tail (form :: forms) ++ clauseEvents tail rest)
  | _ :: rest => clauseEvents tail rest

def guardedEvents (tail : Bool) : List LispVal → List RecurEvent
  | [] => [.short]
  | c :: forms => recurEvents false c ++ formEvents tail forms

end

/-- What an event does to the validation. -/
def RecurEvent.stop (arity : Nat) : RecurEvent → Option RecurStop
  | .met site =>
      if site.tail = false then some (.error recurNotTail)
      else if site.args ≠ arity then some (.error (recurArity arity site.args))
      else none
  | .short => some .panic
  | .skipped => none

def judge (arity : Nat) (events : List RecurEvent) : Except RecurStop Unit :=
  match events.findSome? (RecurEvent.stop arity) with
  | some stop => .error stop
  | none => .ok ()

theorem judge_append (arity : Nat) (first second : List RecurEvent) :
    judge arity (first ++ second) = (judge arity first >>= fun _ => judge arity second) := by
  unfold judge
  rw [List.findSome?_append]
  cases first.findSome? (RecurEvent.stop arity) with
  | none => rfl
  | some stop => rfl

theorem judge_skips (arity : Nat) (sites : List RecurSite) :
    judge arity (RecurEvent.skips sites) = .ok () := by
  unfold RecurEvent.skips
  split
  · rfl
  · rfl

/-- Places that are not looked at do not stop the validation. -/
theorem judge_heard (arity : Nat) (events : List RecurEvent) :
    judge arity (events.filter RecurEvent.heard) = judge arity events := by
  induction events with
  | nil => rfl
  | cons e rest ih =>
      cases e with
      | skipped => exact ih
      | short => rfl
      | met site =>
          rw [List.filter_cons_of_pos (by rfl), ← List.singleton_append, judge_append, ih,
            ← judge_append, List.singleton_append]

theorem judge_met (arity : Nat) (tail : Bool) (args : Nat) (rest : List RecurEvent) :
    judge arity (.met ⟨tail, args⟩ :: rest) =
      if tail = false then .error (.error recurNotTail)
      else if args ≠ arity then .error (.error (recurArity arity args))
      else judge arity rest := by
  rw [← List.singleton_append, judge_append]
  unfold judge
  rw [List.findSome?_singleton]
  simp only [RecurEvent.stop]
  split_ifs
  · rfl
  · rfl
  · rfl

mutual

theorem validateExpr_eq (arity : Nat) (tail : Bool) (e : LispVal) :
    validateRecurTailExpr arity tail e = judge arity (recurEvents tail e) := by
  match e with
  | .list [] => rfl
  | .list (x :: args) =>
      cases x with
      | sym head =>
          rw [validateRecurTailExpr, recurEvents]
          cases RecurForm.of head with
          | recur =>
              dsimp only
              rw [judge_met, validateOperands_eq arity args]
          | branch => exact validateBranches_eq arity tail args
          | sequence => exact validateForms_eq arity tail args
          | binding => exact validateBinding_eq arity tail args
          | cond => exact validateClauses_eq arity tail args
          | guarded => exact validateGuarded_eq arity tail args
          | scope => rfl
          | call => exact validateOperands_eq arity args
      | _ => exact validateOperands_eq arity (_ :: args)
  | .nil | .bool _ | .num _ | .u64 _ | .float _ | .str _ | .sym _ | .vec _ | .lambda _ _ _ _
  | .caseLambda _ | .macro_ _ _ _ _ | .recur _ | .map _ | .memoized _ _ | .builtinFn _
  | .tagged _ _ _ | .delay _ _ => rfl

theorem validateOperands_eq (arity : Nat) (items : List LispVal) :
    validateOperands arity items = judge arity (operandEvents items) := by
  match items with
  | [] => rfl
  | x :: rest =>
      rw [validateOperands, operandEvents, judge_append, validateExpr_eq arity false x,
        validateOperands_eq arity rest]

theorem validateForms_eq (arity : Nat) (tail : Bool) (forms : List LispVal) :
    validateForms arity tail forms = judge arity (formEvents tail forms) := by
  match forms with
  | [] => rfl
  | [x] => exact validateExpr_eq arity tail x
  | x :: y :: rest =>
      rw [validateForms, formEvents, judge_append, validateExpr_eq arity false x,
        validateForms_eq arity tail (y :: rest)]

theorem validateBranches_eq (arity : Nat) (tail : Bool) (args : List LispVal) :
    validateBranches arity tail args = judge arity (branchEvents tail args) := by
  match args with
  | [] => rfl
  | [c] => exact validateExpr_eq arity false c
  | [c, t] =>
      rw [validateBranches, branchEvents, judge_append, validateExpr_eq arity false c,
        validateExpr_eq arity tail t]
  | c :: t :: e :: extra =>
      rw [validateBranches, branchEvents, judge_append, judge_append, judge_append, judge_skips,
        validateExpr_eq arity false c, validateExpr_eq arity tail t, validateExpr_eq arity tail e]
      cases judge arity (recurEvents tail e) with
      | ok => rfl
      | error stop => rfl

theorem validateInits_eq (arity : Nat) (bs : List LispVal) :
    validateOperands arity bs = judge arity (initEvents bs) := by
  match bs with
  | [] => rfl
  | b :: rest =>
      have first : ∀ events, judge arity events = judge arity (recurEvents false b) →
          validateOperands arity (b :: rest) = judge arity (events ++ initEvents rest) := by
        intro events same
        rw [validateOperands, judge_append, same, validateExpr_eq arity false b,
          validateInits_eq arity rest]
      cases b with
      | list items =>
          cases items with
          | nil => exact first _ rfl
          | cons x inits =>
              cases x with
              | sym name =>
                  rw [initEvents]
                  apply first
                  split
                  · rw [judge_append, judge_heard, judge_skips]
                    cases judge arity (recurEvents false (.list (.sym name :: inits))) with
                    | ok => rfl
                    | error stop => rfl
                  · rfl
              | _ => exact first _ rfl
      | _ => exact first _ rfl

theorem validateBinding_eq (arity : Nat) (tail : Bool) (args : List LispVal) :
    validateBinding arity tail args = judge arity (bindingEvents tail args) := by
  match args with
  | [] => rfl
  | x :: forms =>
      cases x with
      | list bs =>
          rw [validateBinding, bindingEvents, judge_append, validateInits_eq arity bs,
            validateForms_eq arity tail forms]
      | _ => exact validateForms_eq arity tail forms

theorem validateClauses_eq (arity : Nat) (tail : Bool) (clauses : List LispVal) :
    validateClauses arity tail clauses = judge arity (clauseEvents tail clauses) := by
  match clauses with
  | [] => rfl
  | .list [] :: _ | .list [_] :: _ => rfl
  | .list (test :: form :: forms) :: rest =>
      rw [validateClauses, clauseEvents, judge_append, judge_append,
        ← validateExpr_eq arity false test, ← validateForms_eq arity tail (form :: forms),
        ← validateClauses_eq arity tail rest]
      have silent : isElse test = true → validateRecurTailExpr arity false test = .ok () := by
        intro els
        cases test with
        | sym s => rfl
        | _ => cases els
      cases els : isElse test with
      | true =>
          rw [silent els]
          rfl
      | false => rfl
  | .nil :: rest | .bool _ :: rest | .num _ :: rest | .u64 _ :: rest | .float _ :: rest
  | .str _ :: rest | .sym _ :: rest | .vec _ :: rest | .lambda _ _ _ _ :: rest
  | .caseLambda _ :: rest | .macro_ _ _ _ _ :: rest | .recur _ :: rest | .map _ :: rest
  | .memoized _ _ :: rest | .builtinFn _ :: rest | .tagged _ _ _ :: rest | .delay _ _ :: rest =>
      exact validateClauses_eq arity tail rest

theorem validateGuarded_eq (arity : Nat) (tail : Bool) (args : List LispVal) :
    validateGuarded arity tail args = judge arity (guardedEvents tail args) := by
  match args with
  | [] => rfl
  | c :: forms =>
      rw [validateGuarded, guardedEvents, judge_append, validateExpr_eq arity false c,
        validateForms_eq arity tail forms]

end

/-! ### What an accepted body holds -/

/-- In an accepted body only the places that the walk does not look at may hold misplaced forms. -/
def Revealed (arity : Nat) (sites : List RecurSite) (events : List RecurEvent) : Prop :=
  judge arity events = .ok () →
    ((∀ site ∈ sites, site.Fits arity) ↔ RecurEvent.skipped ∉ events)

theorem judge_append_ok {arity : Nat} {first second : List RecurEvent}
    (accepted : judge arity (first ++ second) = .ok ()) :
    judge arity first = .ok () ∧ judge arity second = .ok () := by
  rw [judge_append] at accepted
  cases result : judge arity first with
  | ok =>
      rw [result] at accepted
      exact ⟨rfl, accepted⟩
  | error stop =>
      rw [result] at accepted
      cases accepted

namespace Revealed

variable {arity : Nat}

theorem nil : Revealed arity [] [] := fun _ => iff_of_true nofun nofun

theorem append {sites sites' : List RecurSite} {events events' : List RecurEvent}
    (first : Revealed arity sites events) (second : Revealed arity sites' events') :
    Revealed arity (sites ++ sites') (events ++ events') := by
  intro accepted
  obtain ⟨one, two⟩ := judge_append_ok accepted
  rw [List.forall_mem_append, List.mem_append, not_or]
  exact and_congr (first one) (second two)

theorem skips {sites : List RecurSite} (outside : ∀ site ∈ sites, site.tail = false) :
    Revealed arity sites (RecurEvent.skips sites) := by
  intro _
  unfold RecurEvent.skips
  cases sites with
  | nil => exact iff_of_true nofun nofun
  | cons site rest =>
      rw [if_neg (List.cons_ne_nil site rest)]
      refine iff_of_false (fun fits => ?_) fun none => none List.mem_cons_self
      have inTail := (fits site List.mem_cons_self).1
      rw [outside site List.mem_cons_self] at inTail
      cases inTail

theorem met {tail : Bool} {args : Nat} {sites : List RecurSite} {events : List RecurEvent}
    (rest : Revealed arity sites events) :
    Revealed arity (⟨tail, args⟩ :: sites) (.met ⟨tail, args⟩ :: events) := by
  intro accepted
  rw [judge_met] at accepted
  split_ifs at accepted with outside other
  have fits : RecurSite.Fits arity ⟨tail, args⟩ :=
    ⟨(Bool.not_eq_false tail).mp outside, not_not.mp other⟩
  rw [List.forall_mem_cons, List.mem_cons, not_or, ← rest accepted]
  exact ⟨fun all => ⟨nofun, all.2⟩, fun all => ⟨fits, all.2⟩⟩

theorem refused {sites : List RecurSite} {events : List RecurEvent} :
    Revealed arity sites (.short :: events) := nofun

end Revealed

/-- A form in tail position is in a body that is. -/
def Within (tail : Bool) (sites : List RecurSite) : Prop :=
  ∀ site ∈ sites, site.tail = true → tail = true

theorem Within.append {tail : Bool} {sites sites' : List RecurSite} (first : Within tail sites)
    (second : Within tail sites') : Within tail (sites ++ sites') := by
  rw [Within, List.forall_mem_append]
  exact ⟨first, second⟩

theorem Within.weaken {tail : Bool} {sites : List RecurSite} (inner : Within false sites) :
    Within tail sites :=
  fun site mem inTail => absurd (inner site mem inTail) Bool.false_ne_true

mutual

theorem recurSites_within (tail : Bool) (e : LispVal) : Within tail (recurSites tail e) := by
  match e with
  | .list [] => exact nofun
  | .list (x :: args) =>
      cases x with
      | sym head =>
          rw [recurSites]
          cases RecurForm.of head with
          | recur =>
              rw [Within, List.forall_mem_cons]
              exact ⟨id, (operandSites_within args).weaken⟩
          | branch => exact branchSites_within tail args
          | sequence => exact formSites_within tail args
          | binding => exact bindingSites_within tail args
          | cond => exact clauseSites_within tail args
          | guarded => exact guardedSites_within tail args
          | scope => exact nofun
          | call => exact (operandSites_within args).weaken
      | _ => exact (operandSites_within (_ :: args)).weaken
  | .nil | .bool _ | .num _ | .u64 _ | .float _ | .str _ | .sym _ | .vec _ | .lambda _ _ _ _
  | .caseLambda _ | .macro_ _ _ _ _ | .recur _ | .map _ | .memoized _ _ | .builtinFn _
  | .tagged _ _ _ | .delay _ _ => exact nofun

theorem operandSites_within (items : List LispVal) : Within false (operandSites items) := by
  match items with
  | [] => exact nofun
  | x :: rest => exact (recurSites_within false x).append (operandSites_within rest)

theorem formSites_within (tail : Bool) (forms : List LispVal) :
    Within tail (formSites tail forms) := by
  match forms with
  | [] => exact nofun
  | [x] => exact recurSites_within tail x
  | x :: y :: rest =>
      exact (recurSites_within false x).weaken.append (formSites_within tail (y :: rest))

theorem branchSites_within (tail : Bool) (args : List LispVal) :
    Within tail (branchSites tail args) := by
  match args with
  | [] => exact nofun
  | [c] => exact (recurSites_within false c).weaken
  | [c, t] => exact (recurSites_within false c).weaken.append (recurSites_within tail t)
  | c :: t :: e :: extra =>
      have rest := (recurSites_within tail e).append (operandSites_within extra).weaken
      exact (recurSites_within false c).weaken.append ((recurSites_within tail t).append rest)

theorem initSites_within (bs : List LispVal) : Within false (initSites bs) := by
  match bs with
  | [] => exact nofun
  | b :: rest =>
      have more := initSites_within rest
      cases b with
      | list items =>
          cases items with
          | nil => exact more
          | cons x inits =>
              cases x with
              | sym name => exact (operandSites_within inits).append more
              | _ => exact (operandSites_within (_ :: inits)).append more
      | _ => exact more

theorem bindingSites_within (tail : Bool) (args : List LispVal) :
    Within tail (bindingSites tail args) := by
  match args with
  | [] => exact nofun
  | x :: forms =>
      cases x with
      | list bs => exact (initSites_within bs).weaken.append (formSites_within tail forms)
      | _ => exact formSites_within tail forms

theorem clauseSites_within (tail : Bool) (clauses : List LispVal) :
    Within tail (clauseSites tail clauses) := by
  match clauses with
  | [] => exact nofun
  | clause :: rest =>
      have more := clauseSites_within tail rest
      cases clause with
      | list items =>
          cases items with
          | nil => exact more
          | cons test forms =>
              have body := formSites_within tail forms
              exact (recurSites_within false test).weaken.append (body.append more)
      | _ => exact more

theorem guardedSites_within (tail : Bool) (args : List LispVal) :
    Within tail (guardedSites tail args) := by
  match args with
  | [] => exact nofun
  | c :: forms => exact (recurSites_within false c).weaken.append (formSites_within tail forms)

end

theorem operandSites_outside (items : List LispVal) :
    ∀ site ∈ operandSites items, site.tail = false := by
  intro site mem
  cases inTail : site.tail with
  | false => rfl
  | true => exact (operandSites_within items site mem inTail).symm

/-- A binding that is read as something else shows what it binds only by its mark. -/
theorem revealed_misread (arity : Nat) (walked : List RecurEvent) (inits : List LispVal) :
    Revealed arity (operandSites inits)
      (walked.filter RecurEvent.heard ++ RecurEvent.skips (operandSites inits)) := by
  intro accepted
  have shown : Revealed arity (operandSites inits) (RecurEvent.skips (operandSites inits)) :=
    .skips (operandSites_outside inits)
  have marked := shown (judge_append_ok accepted).2
  rw [marked, List.mem_append, not_or]
  refine (and_iff_right ?_).symm
  intro mem
  cases (List.mem_filter.mp mem).2

theorem revealed_misplaced (arity args : Nat) (sites : List RecurSite)
    (events : List RecurEvent) : Revealed arity sites (.met ⟨false, args⟩ :: events) := by
  intro accepted
  rw [judge_met, if_pos rfl] at accepted
  cases accepted

/-! Outside of tail position the forms of a body are operands. -/

theorem formSites_false (forms : List LispVal) : formSites false forms = operandSites forms := by
  induction forms with
  | nil => rfl
  | cons x rest ih =>
      cases rest with
      | nil => exact (List.append_nil _).symm
      | cons y rest =>
          rw [formSites, ih]
          rfl

theorem guardedSites_false (args : List LispVal) : guardedSites false args = operandSites args := by
  cases args with
  | nil => rfl
  | cons c forms => rw [guardedSites, formSites_false, operandSites]

theorem branchSites_false (args : List LispVal) : branchSites false args = operandSites args := by
  match args with
  | [] => rfl
  | [c] => exact (List.append_nil _).symm
  | [c, t] =>
      rw [branchSites, operandSites, operandSites, operandSites, List.append_nil]
  | c :: t :: e :: extra =>
      rw [branchSites, operandSites, operandSites, operandSites]

mutual

theorem recurExpr_revealed (arity : Nat) (tail : Bool) (e : LispVal) :
    Revealed arity (recurSites tail e) (recurEvents tail e) := by
  match e with
  | .list [] => exact .nil
  | .list (x :: args) =>
      cases x with
      | sym head =>
          rw [recurSites, recurEvents]
          cases RecurForm.of head with
          | recur => exact .met (operands_revealed arity args)
          | branch => exact branches_revealed arity tail args
          | sequence => exact forms_revealed arity tail args
          | binding => exact binding_revealed arity tail args
          | cond => exact clauses_revealed arity tail args
          | guarded => exact guarded_revealed arity tail args
          | scope => exact .nil
          | call => exact operands_revealed arity args
      | _ => exact operands_revealed arity (_ :: args)
  | .nil | .bool _ | .num _ | .u64 _ | .float _ | .str _ | .sym _ | .vec _ | .lambda _ _ _ _
  | .caseLambda _ | .macro_ _ _ _ _ | .recur _ | .map _ | .memoized _ _ | .builtinFn _
  | .tagged _ _ _ | .delay _ _ => exact .nil

theorem operands_revealed (arity : Nat) (items : List LispVal) :
    Revealed arity (operandSites items) (operandEvents items) := by
  match items with
  | [] => exact .nil
  | x :: rest => exact (recurExpr_revealed arity false x).append (operands_revealed arity rest)

theorem forms_revealed (arity : Nat) (tail : Bool) (forms : List LispVal) :
    Revealed arity (formSites tail forms) (formEvents tail forms) := by
  match forms with
  | [] => exact .refused
  | [x] => exact recurExpr_revealed arity tail x
  | x :: y :: rest =>
      exact (recurExpr_revealed arity false x).append (forms_revealed arity tail (y :: rest))

theorem branches_revealed (arity : Nat) (tail : Bool) (args : List LispVal) :
    Revealed arity (branchSites tail args) (branchEvents tail args) := by
  match args with
  | [] => exact .nil
  | [c] => exact recurExpr_revealed arity false c
  | [c, t] => exact (recurExpr_revealed arity false c).append (recurExpr_revealed arity tail t)
  | c :: t :: e :: extra =>
      have rest := (recurExpr_revealed arity tail e).append
        (Revealed.skips (operandSites_outside extra))
      exact (recurExpr_revealed arity false c).append
        ((recurExpr_revealed arity tail t).append rest)

/-- A binding under another name is read as a call of it, or as a form that holds the same forms. -/
theorem inits_revealed (arity : Nat) (bs : List LispVal) :
    Revealed arity (initSites bs) (initEvents bs) := by
  match bs with
  | [] => exact .nil
  | b :: rest =>
      have more := inits_revealed arity rest
      cases b with
      | list items =>
          cases items with
          | nil => exact more
          | cons x inits =>
              cases x with
              | sym name =>
                  rw [initSites, initEvents]
                  refine Revealed.append ?_ more
                  split
                  · exact revealed_misread arity _ inits
                  · rename_i read
                    rw [recurEvents]
                    cases form : RecurForm.of name with
                    | recur => exact revealed_misplaced arity _ _ _
                    | branch =>
                        rw [← branchSites_false]
                        exact branches_revealed arity false inits
                    | sequence =>
                        rw [← formSites_false]
                        exact forms_revealed arity false inits
                    | guarded =>
                        rw [← guardedSites_false]
                        exact guarded_revealed arity false inits
                    | call => exact operands_revealed arity inits
                    | binding | cond | scope =>
                        rw [form] at read
                        exact (read rfl).elim
              | _ => exact (operands_revealed arity (_ :: inits)).append more
      | _ => exact more

theorem binding_revealed (arity : Nat) (tail : Bool) (args : List LispVal) :
    Revealed arity (bindingSites tail args) (bindingEvents tail args) := by
  match args with
  | [] => exact .refused
  | x :: forms =>
      cases x with
      | list bs => exact (inits_revealed arity bs).append (forms_revealed arity tail forms)
      | _ => exact forms_revealed arity tail forms

theorem clauses_revealed (arity : Nat) (tail : Bool) (clauses : List LispVal) :
    Revealed arity (clauseSites tail clauses) (clauseEvents tail clauses) := by
  match clauses with
  | [] => exact .nil
  | clause :: rest =>
      have more := clauses_revealed arity tail rest
      cases clause with
      | list items =>
          cases items with
          | nil => exact .refused
          | cons test forms =>
              cases forms with
              | nil => exact .refused
              | cons form forms =>
                  have body := forms_revealed arity tail (form :: forms)
                  exact (recurExpr_revealed arity false test).append (body.append more)
      | _ => exact more

theorem guarded_revealed (arity : Nat) (tail : Bool) (args : List LispVal) :
    Revealed arity (guardedSites tail args) (guardedEvents tail args) := by
  match args with
  | [] => exact .refused
  | c :: forms =>
      exact (recurExpr_revealed arity false c).append (forms_revealed arity tail forms)

end

/-! ### When the validation is right -/

def RecurEvent.stops (arity : Nat) (e : RecurEvent) : Bool := (e.stop arity).isSome

/-- Of the things that stop the walk the first is no short form; where nothing stops it, no place
was left out. -/
def RecurSettled (body : LispVal) (arity : Nat) : Prop :=
  match (recurEvents true body).find? (RecurEvent.stops arity) with
  | some e => e ≠ .short
  | none => RecurEvent.skipped ∉ recurEvents true body

theorem judge_find (arity : Nat) (events : List RecurEvent) :
    judge arity events =
      match events.find? (RecurEvent.stops arity) with
      | some e => .error ((e.stop arity).getD .panic)
      | none => .ok () := by
  induction events with
  | nil => rfl
  | cons e rest ih =>
      rw [← List.singleton_append, judge_append, List.singleton_append]
      cases stopped : e.stop arity with
      | none =>
          have going : judge arity [e] = .ok () := by
            rw [judge, List.findSome?_singleton, stopped]
          rw [going, List.find?_cons_of_neg (by simp [RecurEvent.stops, stopped])]
          exact ih
      | some stop =>
          have exceeds : judge arity [e] = .error stop := by
            rw [judge, List.findSome?_singleton, stopped]
          rw [exceeds, List.find?_cons_of_pos (by simp [RecurEvent.stops, stopped])]
          dsimp only
          rw [stopped]
          rfl

theorem stop_panic_iff {arity : Nat} {e : RecurEvent} (stops : e.stops arity = true) :
    (e.stop arity).getD .panic = .panic ↔ e = .short := by
  cases e with
  | short => exact iff_of_true rfl rfl
  | skipped => cases stops
  | met site =>
      refine iff_of_false ?_ nofun
      simp only [RecurEvent.stops, RecurEvent.stop] at stops ⊢
      split_ifs at stops ⊢
      · nofun
      · nofun
      · cases stops

/-- `(let ((quote (recur))) 0)` is accepted. -/
example : validateRecurTails
    (.list [.sym "let", .list [.list [.sym "quote", .list [.sym "recur"]]], .num 0]) 1 = .ok () :=
  rfl

end LispRlm.Bytecode
