import LispRlm.Foundation.Worklist
import Mathlib.Algebra.Group.Nat.Defs

/-! Which functions a module keeps, how they are renumbered, and what its calls, exports and default
wrapper designate in the end. -/

namespace LispRlm.WasmEmit.TreeShake

open Foundation

def hostBase : Nat := 0xFF000000
def userBase : Nat := 0xFF010000
def wasmImportBase : Nat := 0xFF020000

/-- The number of `HOST_FUNCS`. -/
def hostFuncs : Nat := 86

/-- Before it is resolved, a call's index is a sentinel above one of the three bases. -/
inductive Instruction (P : Type)
  | call (idx : Nat)
  | plain (op : P)

structure FuncDef (P : Type) where
  name : String
  paramCount : Nat
  instrs : List (Instruction P)

/-- What a call designates: a host function, a function by its place in the emitter, or a stitched
import. -/
inductive Callee
  | host (h : Nat)
  | func (pos : Nat)
  | wasmImport (i : Nat)
deriving DecidableEq

/-- What a sentinel designates. -/
def callee (idx : Nat) : Option Callee :=
  if hostBase ≤ idx ∧ idx < userBase then some (.host (idx - hostBase))
  else if userBase ≤ idx ∧ idx < wasmImportBase then some (.func (idx - userBase))
  else if wasmImportBase ≤ idx then some (.wasmImport (idx - wasmImportBase))
  else none

variable {P : Type}

/-- The emitter when every function has been emitted: every call is to a function that there is. -/
structure Emitter (P : Type) where
  funcs : List (FuncDef P)
  /-- The exported functions' names and the names they are exported by. -/
  exports : List (String × String)
  lambdaInfo : List Nat
  wtUsed : Bool
  hostNeeded : List Nat
  wasmImports : List String
  inRange : ∀ f ∈ funcs, ∀ idx, .call idx ∈ f.instrs →
    match callee idx with
    | some (.host h) => h < hostFuncs
    | some (.func pos) => pos < funcs.length
    | some (.wasmImport i) => i < wasmImports.length
    | none => False

/-! ### Names -/

def startsWith (pre name : String) : Bool := pre.toList.isPrefixOf name.toList

/-- The last place with a name that passes. -/
def lastWhere (p : String → Bool) : List String → Option Nat
  | [] => none
  | name :: names =>
      match lastWhere p names with
      | some i => some (i + 1)
      | none => if p name then some 0 else none

/-- A map from names to places has the last place of each name. -/
def lastNamed (name : String) (names : List String) : Option Nat := lastWhere (· == name) names

namespace Emitter

variable (em : Emitter P)

def names : List String := em.funcs.map FuncDef.name

/-! ### Tree shaking -/

/-- The function places that these instructions call. -/
def callees (instrs : List (Instruction P)) : List Nat :=
  instrs.filterMap fun
    | .call idx => match callee idx with
      | some (.func pos) => if pos < em.funcs.length then some pos else none
      | _ => none
    | .plain _ => none

def calls (i : Nat) : List Nat :=
  match em.funcs[i]? with
  | some f => em.callees f.instrs
  | none => []

/-- Without exports the last function that is no helper is kept. -/
def entry : Option Nat :=
  if em.exports.isEmpty then lastWhere (fun name => !startsWith "__" name) em.names else none

def seeds : List Nat :=
  em.exports.filterMap (fun e => lastNamed e.1 em.names) ++
    em.lambdaInfo.filter (· < em.funcs.length) ++ em.entry.toList ++
    (lastNamed "run" em.names).toList ++
    if em.wtUsed then (lastNamed "__h_wt_flush" em.names).toList else []

def reachable : List Nat :=
  (Worklist.drain em.calls em.funcs.length (Worklist.start em.seeds)).marked

def oldToNew (i : Nat) : Option Nat :=
  if i ∈ em.reachable then some ((List.range i).countP (· ∈ em.reachable)) else none

def remap : Instruction P → Instruction P
  | .call idx =>
      if userBase ≤ idx ∧ idx < wasmImportBase then
        match em.oldToNew (idx - userBase) with
        | some newPos => .call (userBase ||| newPos)
        | none => .call idx
      else .call idx
  | .plain op => .plain op

/-- The functions that are kept, with their places before. -/
def kept : List (FuncDef P × Nat) := em.funcs.zipIdx.filter (·.2 ∈ em.reachable)

def treeShake : List (FuncDef P) :=
  em.kept.map fun f => { f.1 with instrs := f.1.instrs.map em.remap }

/-! ### The module -/

/-- With exports the wrappers need four host functions. -/
def hostList : List Nat :=
  let needed := if em.exports.isEmpty then em.hostNeeded else em.hostNeeded ++ [7, 1, 0, 25]
  (List.range hostFuncs).filter (· ∈ needed)

def internalBase : Nat := em.hostList.length + em.wasmImports.length

def nameMap (name : String) : Option Nat :=
  (lastNamed name (em.treeShake.map FuncDef.name)).map (em.internalBase + ·)

/-- An unresolved host call or import stays as it is; there is nothing where the compiler panics. -/
def resolve : Instruction P → Option (Instruction P)
  | .call idx =>
      if hostBase ≤ idx ∧ idx < userBase then
        match em.hostList.idxOf? (idx - hostBase) with
        | some k => some (.call k)
        | none => some (.call idx)
      else if userBase ≤ idx ∧ idx < wasmImportBase then do
        let f ← em.treeShake[idx - userBase]?
        let k ← em.nameMap f.name
        some (.call k)
      else if wasmImportBase ≤ idx then
        if idx - wasmImportBase < em.wasmImports.length then
          some (.call (em.hostList.length + (idx - wasmImportBase)))
        else some (.call idx)
      else some (.call idx)
  | .plain op => some (.plain op)

def code : List (List (Option (Instruction P))) :=
  em.treeShake.map fun f => f.instrs.map em.resolve

/-- What the wrappers call: with exports there is one for each, and else one for the last function,
if there is a function that is no shared helper. -/
def wrappers : List (Option Nat) :=
  if em.exports.isEmpty then
    if em.treeShake.isEmpty then []
    else if (em.treeShake.any fun f => !startsWith "__h_" f.name) then
      [some (em.internalBase + (em.treeShake.length - 1))]
    else [none]
  else em.exports.map fun e => em.nameMap e.1

/-- What an index of the module designates, by the places before. -/
def designated (idx : Nat) : Option Callee :=
  if idx < em.hostList.length then em.hostList[idx]?.map .host
  else if idx < em.internalBase then some (.wasmImport (idx - em.hostList.length))
  else em.kept[idx - em.internalBase]?.map fun f => .func f.2

/-! ### What is kept -/

/-- What can be reached by calls from what the search starts with. -/
def Live (i : Nat) : Prop := ∃ a ∈ em.seeds, Relation.ReflTransGen (Worklist.Step em.calls) a i

end Emitter

section LastWhere

variable {p : String → Bool} {names : List String}

theorem lastWhere_none : lastWhere p names = none ↔ ∀ name ∈ names, p name = false := by
  induction names with
  | nil => simp [lastWhere]
  | cons name names ih =>
    rw [lastWhere, List.forall_mem_cons]
    cases later : lastWhere p names with
    | some i =>
      rw [later] at ih
      have some : ¬∀ name ∈ names, p name = false := fun none => nomatch ih.mpr none
      simp [some]
    | none =>
      rw [later] at ih
      have none := ih.mp rfl
      cases here : p name with
      | true => simp
      | false => simpa using none

theorem lastWhere_some {i : Nat} (last : lastWhere p names = some i) :
    (∃ name, names[i]? = some name ∧ p name = true) ∧
      ∀ j name, i < j → names[j]? = some name → p name = false := by
  induction names generalizing i with
  | nil => cases last
  | cons name names ih =>
    rw [lastWhere] at last
    cases later : lastWhere p names with
    | some k =>
      rw [later] at last
      cases last
      obtain ⟨here, after⟩ := ih later
      refine ⟨by simpa using here, fun j name' above named => ?_⟩
      match j, above, named with
      | j + 1, above, named => exact after j name' (by omega) (by simpa using named)
    | none =>
      rw [later] at last
      dsimp only at last
      split at last
      · cases last
        refine ⟨⟨name, rfl, ‹_›⟩, fun j name' above named => ?_⟩
        match j, above, named with
        | j + 1, _, named =>
          exact lastWhere_none.mp later name' (List.mem_of_getElem? (by simpa using named))
      · cases last

end LastWhere

namespace Emitter

variable {em : Emitter P}

theorem calls_inside (i : Nat) : ∀ pos ∈ em.calls i, pos ∈ List.range em.funcs.length := by
  intro pos mem
  unfold calls at mem
  split at mem
  · obtain ⟨instr, -, called⟩ := List.mem_filterMap.mp mem
    rw [List.mem_range]
    cases instr with
    | plain op => cases called
    | call idx =>
      dsimp only at called
      split at called
      · split at called
        · rename_i small
          cases called
          exact small
        · cases called
      · cases called
  · cases mem

theorem lastWhere_lt {p : String → Bool} {names : List String} {i : Nat}
    (last : lastWhere p names = some i) : i < names.length := by
  obtain ⟨⟨name, named, -⟩, -⟩ := lastWhere_some last
  exact (List.getElem?_eq_some_iff.mp named).1

theorem seeds_inside : ∀ a ∈ em.seeds, a ∈ List.range em.funcs.length := by
  have named {p : String → Bool} {i : Nat} (last : lastWhere p em.names = some i) :
      i < em.funcs.length := by
    have lt := lastWhere_lt last
    rwa [names, List.length_map] at lt
  intro a mem
  rw [List.mem_range]
  simp only [seeds, List.mem_append, List.mem_filterMap, List.mem_filter, Option.mem_toList,
    decide_eq_true_eq] at mem
  obtain ((((⟨e, -, last⟩ | ⟨-, small⟩) | entered) | run) | flush) := mem
  · exact named last
  · exact small
  · unfold entry at entered
    split at entered
    · exact named entered
    · cases entered
  · exact named run
  · split at flush
    · exact named (Option.mem_toList.mp flush)
    · cases flush

theorem mem_reachable_iff {i : Nat} : i ∈ em.reachable ↔ em.Live i := by
  have marked : i ∈ (Worklist.drain em.calls (List.range em.funcs.length).length
      (Worklist.start em.seeds)).marked ↔ em.Live i :=
    Worklist.mem_drain_iff calls_inside seeds_inside
  rwa [List.length_range] at marked

theorem mem_kept {f : FuncDef P × Nat} : f ∈ em.kept ↔ em.funcs[f.2]? = some f.1 ∧ em.Live f.2 := by
  rw [kept, List.mem_filter, decide_eq_true_eq, mem_reachable_iff]
  exact and_congr_left fun _ => List.mem_zipIdx_iff_getElem?

theorem kept_sorted : em.kept.Pairwise (·.2 < ·.2) := by
  refine List.Pairwise.filter _ (List.pairwise_map.mp ?_)
  rw [List.zipIdx_map_snd]
  exact List.pairwise_lt_range'

theorem filter_zipIdx {α : Type} (p : Nat → Bool) {l : List α} {k i : Nat} {a : α}
    (named : l[i]? = some a) (kept : p (k + i) = true) :
    ((l.zipIdx k).filter fun x => p x.2)[(List.range' k i).countP p]? = some (a, k + i) := by
  induction l generalizing k i with
  | nil => cases named
  | cons b l ih =>
    cases i with
    | zero =>
      cases named
      simp only [Nat.add_zero] at kept
      simp [kept]
    | succ i =>
      have later := ih (k := k + 1) (i := i) (by simpa using named) (by rwa [Nat.add_right_comm])
      rw [List.range'_succ, List.countP_cons, List.zipIdx_cons, List.filter_cons]
      by_cases here : p k = true
      · simp [here, later, Nat.add_right_comm, Nat.add_assoc]
      · simp [here, later, Nat.add_right_comm, Nat.add_assoc]

theorem live_lt {i : Nat} (live : em.Live i) : i < em.funcs.length := by
  obtain ⟨a, seed, path⟩ := live
  cases path with
  | refl => exact List.mem_range.mp (seeds_inside _ seed)
  | tail _ step => exact List.mem_range.mp (calls_inside _ _ step)

theorem live_named {i : Nat} (live : em.Live i) : ∃ f, em.funcs[i]? = some f :=
  ⟨_, List.getElem?_eq_getElem (live_lt live)⟩

/-- A kept function stands where the renumbering says. -/
theorem kept_oldToNew {i : Nat} {f : FuncDef P} (named : em.funcs[i]? = some f)
    (live : em.Live i) : ∃ q, em.oldToNew i = some q ∧ q ≤ i ∧ em.kept[q]? = some (f, i) := by
  have marked := mem_reachable_iff.mpr live
  refine ⟨_, if_pos marked, ?_, ?_⟩
  · exact Nat.le_trans List.countP_le_length (Nat.le_of_eq List.length_range)
  · have place := filter_zipIdx (fun j => decide (j ∈ em.reachable)) (k := 0) named
      (by simpa using marked)
    rw [Nat.zero_add, ← List.range_eq_range'] at place
    exact place

theorem getElem_treeShake {q : Nat} {f : FuncDef P × Nat} (place : em.kept[q]? = some f) :
    em.treeShake[q]? = some { f.1 with instrs := f.1.instrs.map em.remap } := by
  rw [treeShake, List.getElem?_map, place]
  rfl

theorem names_treeShake : em.treeShake.map FuncDef.name = em.kept.map fun f => f.1.name := by
  rw [treeShake, List.map_map]
  rfl

theorem length_treeShake : em.treeShake.length = em.kept.length := by
  rw [treeShake, List.length_map]

theorem designated_func {q : Nat} {g : FuncDef P × Nat} (place : em.kept[q]? = some g) :
    em.designated (em.internalBase + q) = some (.func g.2) := by
  have above : ¬em.internalBase + q < em.hostList.length := by
    unfold internalBase
    omega
  rw [designated, if_neg above, if_neg (by omega), Nat.add_sub_cancel_left, place]
  rfl

theorem kept_mono {q q' : Nat} {g g' : FuncDef P × Nat} (place : em.kept[q]? = some g)
    (place' : em.kept[q']? = some g') (le : q ≤ q') : g.2 ≤ g'.2 := by
  obtain ⟨lt, rfl⟩ := List.getElem?_eq_some_iff.mp place
  obtain ⟨lt', rfl⟩ := List.getElem?_eq_some_iff.mp place'
  obtain rfl | less := Nat.eq_or_lt_of_le le
  · exact Nat.le_refl _
  · exact Nat.le_of_lt (List.pairwise_iff_getElem.mp kept_sorted q q' lt lt' less)

/-- The map of names has the last kept function of each name. -/
theorem nameMap_spec {f : FuncDef P × Nat} (mem : f ∈ em.kept) :
    ∃ k g, em.nameMap f.1.name = some k ∧ em.designated k = some (.func g.2) ∧ g ∈ em.kept ∧
      g.1.name = f.1.name ∧ ∀ g' ∈ em.kept, g'.1.name = f.1.name → g'.2 ≤ g.2 := by
  unfold nameMap
  rw [names_treeShake]
  cases last : lastNamed f.1.name (em.kept.map fun f => f.1.name) with
  | none =>
    have apart := lastWhere_none.mp last f.1.name (List.mem_map.mpr ⟨f, mem, rfl⟩)
    simp at apart
  | some q =>
    obtain ⟨⟨name, named, same⟩, after⟩ := lastWhere_some last
    rw [List.getElem?_map, Option.map_eq_some_iff] at named
    obtain ⟨g, place, rfl⟩ := named
    refine ⟨_, g, rfl, ?_, List.mem_of_getElem? place, beq_iff_eq.mp same, ?_⟩
    · exact designated_func place
    · intro g' mem' same'
      obtain ⟨q', place'⟩ := List.mem_iff_getElem?.mp mem'
      by_contra above
      have order : q < q' := by
        by_contra below
        exact above (kept_mono place' place (by omega))
      have apart := after q' g'.1.name order (by rw [List.getElem?_map, place']; rfl)
      simp [same'] at apart

/-! ### What the calls designate -/

end Emitter

/-- An instruction's meaning: a call's by what it designates, where that is known. -/
inductive Meaning (P : Type)
  | call (callee : Option Callee)
  | plain (op : P)
  | panic

def before : Instruction P → Meaning P
  | .call idx => .call (callee idx)
  | .plain op => .plain op

def Emitter.after (em : Emitter P) : Option (Instruction P) → Meaning P
  | some (.call idx) => .call (em.designated idx)
  | some (.plain op) => .plain op
  | none => .panic

theorem callee_eq_func {idx pos : Nat} (target : callee idx = some (.func pos)) :
    idx = userBase + pos ∧ pos < 2 ^ 16 := by
  unfold callee at target
  split at target
  · exact Callee.noConfusion (Option.some.inj target)
  · split at target
    · rename_i range
      have same := Callee.func.inj (Option.some.inj target)
      unfold userBase wasmImportBase at range
      unfold userBase at same ⊢
      omega
    · split at target
      · exact Callee.noConfusion (Option.some.inj target)
      · cases target

theorem callee_eq_host {idx h : Nat} (target : callee idx = some (.host h)) :
    idx = hostBase + h ∧ hostBase ≤ idx ∧ idx < userBase := by
  unfold callee at target
  split at target
  · rename_i range
    have same := Callee.host.inj (Option.some.inj target)
    exact ⟨by omega, range⟩
  · split at target
    · exact Callee.noConfusion (Option.some.inj target)
    · split at target
      · exact Callee.noConfusion (Option.some.inj target)
      · cases target

theorem callee_eq_wasmImport {idx i : Nat} (target : callee idx = some (.wasmImport i)) :
    idx = wasmImportBase + i := by
  unfold callee at target
  split at target
  · exact Callee.noConfusion (Option.some.inj target)
  · split at target
    · exact Callee.noConfusion (Option.some.inj target)
    · split at target
      · have same := Callee.wasmImport.inj (Option.some.inj target)
        omega
      · cases target

theorem userBase_or {q : Nat} (small : q < 2 ^ 16) : userBase ||| q = userBase + q := by
  have shifted := Nat.shiftLeft_add_eq_or_of_lt small 0xFF01
  exact shifted.symm

namespace Emitter

variable {em : Emitter P}

/-- A call of a kept function designates the last kept function of its name. -/
theorem after_user {idx pos : Nat} {f : FuncDef P} (target : callee idx = some (.func pos))
    (named : em.funcs[pos]? = some f) (live : em.Live pos) :
    ∃ g ∈ em.kept, g.1.name = f.name ∧ (∀ g' ∈ em.kept, g'.1.name = f.name → g'.2 ≤ g.2) ∧
      em.after (em.resolve (em.remap (.call idx))) = .call (some (.func g.2)) := by
  obtain ⟨rfl, small⟩ := callee_eq_func target
  obtain ⟨q, renumbered, le, place⟩ := kept_oldToNew named live
  have mem : (f, pos) ∈ em.kept := List.mem_of_getElem? place
  obtain ⟨k, g, mapped, designates, kept, same, last⟩ := nameMap_spec mem
  refine ⟨g, kept, same, last, ?_⟩
  have range : userBase ≤ userBase + pos ∧ userBase + pos < wasmImportBase := by
    unfold userBase wasmImportBase
    omega
  have range' : userBase ≤ userBase + q ∧ userBase + q < wasmImportBase := by
    unfold userBase wasmImportBase
    omega
  have noHost : ¬(hostBase ≤ userBase + q ∧ userBase + q < userBase) := by omega
  rw [remap, if_pos range, Nat.add_sub_cancel_left, renumbered]
  dsimp only
  rw [userBase_or (by omega), resolve, if_neg noHost, if_pos range', Nat.add_sub_cancel_left,
    getElem_treeShake place]
  simp only [Option.bind_eq_bind, Option.bind_some, mapped]
  rw [after, designates]

theorem after_host {idx h : Nat} (target : callee idx = some (.host h)) :
    em.after (em.resolve (em.remap (.call idx))) = .call (some (.host h)) ↔ h ∈ em.hostList := by
  obtain ⟨rfl, range⟩ := callee_eq_host target
  have noUser : ¬(userBase ≤ hostBase + h ∧ hostBase + h < wasmImportBase) := by omega
  rw [remap, if_neg noUser, resolve, if_pos range, Nat.add_sub_cancel_left]
  cases place : em.hostList.idxOf? h with
  | some k =>
    obtain ⟨lt, here, -⟩ := List.idxOf?_eq_some_iff.mp place
    have mem : h ∈ em.hostList := here ▸ List.getElem_mem lt
    rw [after, designated, if_pos lt, List.getElem?_eq_getElem lt, here]
    exact iff_of_true rfl mem
  | none =>
    have outside := List.idxOf?_eq_none_iff.mp place
    refine iff_of_false (fun same => ?_) outside
    have short : em.hostList.length ≤ hostFuncs :=
      Nat.le_trans (List.length_filter_le _ _) (Nat.le_of_eq List.length_range)
    have far : ¬hostBase + h < em.hostList.length := by
      unfold hostBase
      unfold hostFuncs at short
      omega
    rw [after, designated, if_neg far] at same
    have same := Meaning.call.inj same
    split at same
    · exact Callee.noConfusion (Option.some.inj same)
    · obtain ⟨f, -, same⟩ := Option.map_eq_some_iff.mp same
      exact Callee.noConfusion same

theorem after_wasmImport {idx i : Nat} (target : callee idx = some (.wasmImport i))
    (small : i < em.wasmImports.length) :
    em.after (em.resolve (em.remap (.call idx))) = .call (some (.wasmImport i)) := by
  obtain rfl := callee_eq_wasmImport target
  have noUser : ¬(userBase ≤ wasmImportBase + i ∧ wasmImportBase + i < wasmImportBase) := by omega
  have noHost : ¬(hostBase ≤ wasmImportBase + i ∧ wasmImportBase + i < userBase) := by
    unfold hostBase userBase wasmImportBase
    omega
  rw [remap, if_neg noUser, resolve, if_neg noHost, if_neg noUser, if_pos (by omega),
    Nat.add_sub_cancel_left, if_pos small, after, designated, if_neg (by omega),
    if_pos (by unfold internalBase; omega), Nat.add_sub_cancel_left]

/-! ### When every target is kept -/

variable (em) in
/-- What an exported function, a function value, or the function that runs by default is. -/
def Root (i : Nat) : Prop :=
  (∃ e ∈ em.exports, lastNamed e.1 em.names = some i) ∨
    (i ∈ em.lambdaInfo ∧ i < em.funcs.length) ∨ em.entry = some i

/-- Everything that the roots reach by calls is kept, the kept functions' calls designate what they
did before, and an export designates the function it names; without exports the one wrapper is the
last function's that is no helper. -/
structure KeepsTargets (em : Emitter P) : Prop where
  kept : ∀ i, em.Root i → ∀ j, Relation.ReflTransGen (Worklist.Step em.calls) i j →
    ∃ f ∈ em.kept, f.2 = j
  calls : em.code.map (·.map em.after) = em.kept.map fun f => f.1.instrs.map before
  exported : ∀ (k : Nat) (e : String × String), em.exports[k]? = some e →
    ∃ pos idx, lastNamed e.1 em.names = some pos ∧ em.wrappers[k]? = some (some idx) ∧
      em.designated idx = some (.func pos)
  entered : ∀ pos, em.entry = some pos → ∃ idx, em.wrappers = [some idx] ∧
    em.designated idx = some (.func pos)

/-- Every host function that a live function calls is imported, no live function has the name of one
that is called and stands before it, every exported name is a function's, and the function that runs
by default is the last live one. -/
structure Resolvable (em : Emitter P) : Prop where
  hosts : ∀ i f, em.funcs[i]? = some f → em.Live i → ∀ idx h, .call idx ∈ f.instrs →
    callee idx = some (.host h) → h ∈ em.hostNeeded ∨ em.exports ≠ [] ∧ h ∈ [7, 1, 0, 25]
  names : ∀ i, em.Live i → ∀ pos ∈ em.calls i, ∀ j, pos < j → em.Live j →
    em.names[j]? ≠ em.names[pos]?
  exported : ∀ e ∈ em.exports, e.1 ∈ em.names
  last : ∀ pos, em.entry = some pos → ∀ j, em.Live j → j ≤ pos

theorem kept_of_root {i : Nat} (root : em.Root i) {j : Nat}
    (path : Relation.ReflTransGen (Worklist.Step em.calls) i j) : ∃ f ∈ em.kept, f.2 = j := by
  have seed : i ∈ em.seeds := by
    simp only [seeds, List.mem_append, List.mem_filterMap, List.mem_filter, Option.mem_toList,
      decide_eq_true_eq]
    obtain exported | lambda | entered := root
    · exact .inl (.inl (.inl (.inl exported)))
    · exact .inl (.inl (.inl (.inr lambda)))
    · exact .inl (.inl (.inr entered))
  have live : em.Live j := ⟨i, seed, path⟩
  obtain ⟨f, named⟩ := live_named live
  exact ⟨(f, j), mem_kept.mpr ⟨named, live⟩, rfl⟩

theorem mem_hostList {h : Nat} : h ∈ em.hostList ↔
    h < hostFuncs ∧ (h ∈ em.hostNeeded ∨ em.exports ≠ [] ∧ h ∈ [7, 1, 0, 25]) := by
  unfold hostList
  cases em.exports with
  | nil => simp
  | cons e es => simp

/-- The calls designate what they did before exactly where each instruction does. -/
theorem calls_iff : (em.code.map (·.map em.after) = em.kept.map fun f => f.1.instrs.map before) ↔
    ∀ f ∈ em.kept, ∀ instr ∈ f.1.instrs, em.after (em.resolve (em.remap instr)) = before instr := by
  rw [code, treeShake, List.map_map, List.map_map, List.map_inj_left]
  refine forall_congr' fun f => forall_congr' fun _ => ?_
  simp only [Function.comp_apply, List.map_map]
  exact List.map_inj_left

theorem kept_self {i : Nat} {f : FuncDef P} (named : em.funcs[i]? = some f) (live : em.Live i) :
    (f, i) ∈ em.kept := mem_kept.mpr ⟨named, live⟩

theorem mem_calls {i pos idx : Nat} {f : FuncDef P} (named : em.funcs[i]? = some f)
    (mem : .call idx ∈ f.instrs) (target : callee idx = some (.func pos)) :
    pos ∈ em.calls i := by
  have small := em.inRange f (List.mem_of_getElem? named) idx mem
  rw [target] at small
  rw [calls, named]
  refine List.mem_filterMap.mpr ⟨_, mem, ?_⟩
  simp only [target]
  exact if_pos small

theorem of_mem_calls {i pos : Nat} {f : FuncDef P} (named : em.funcs[i]? = some f)
    (mem : pos ∈ em.calls i) : ∃ idx, .call idx ∈ f.instrs ∧ callee idx = some (.func pos) := by
  rw [calls, named] at mem
  obtain ⟨instr, mem, called⟩ := List.mem_filterMap.mp mem
  cases instr with
  | plain op => cases called
  | call idx =>
    refine ⟨idx, mem, ?_⟩
    dsimp only at called
    split at called
    · rename_i target
      split at called
      · cases called
        exact target
      · cases called
    · cases called

theorem names_getElem {i : Nat} {f : FuncDef P} (named : em.funcs[i]? = some f) :
    em.names[i]? = some f.name := by
  rw [names, List.getElem?_map, named]
  rfl

/-- A call of a live function keeps its target exactly where no live function behind the target has
its name. -/
theorem after_user_iff {idx pos : Nat} (target : callee idx = some (.func pos))
    (live : em.Live pos) :
    em.after (em.resolve (em.remap (.call idx))) = .call (some (.func pos)) ↔
      ∀ j, pos < j → em.Live j → em.names[j]? ≠ em.names[pos]? := by
  obtain ⟨f, named⟩ := live_named live
  obtain ⟨⟨g, pos'⟩, mem, same, last, designates⟩ := after_user target named live
  rw [designates, names_getElem named]
  have self := last _ (kept_self named live) rfl
  constructor
  · intro keeps j behind liveJ sameName
    have here := Callee.func.inj (Option.some.inj (Meaning.call.inj keeps))
    obtain ⟨f', namedJ⟩ := live_named liveJ
    rw [names_getElem namedJ] at sameName
    have before := last _ (kept_self namedJ liveJ) (Option.some.inj sameName)
    dsimp only at before here
    omega
  · intro apart
    obtain ⟨namedG, liveG⟩ := mem_kept.mp mem
    by_cases here : pos = pos'
    · rw [here]
    · have behind : pos < pos' := by
        dsimp only at self
        omega
      refine absurd ?_ (apart pos' behind liveG)
      rw [names_getElem namedG, ← same]

theorem calls_keep_iff :
    (em.code.map (·.map em.after) = em.kept.map fun f => f.1.instrs.map before) ↔
      (∀ i f, em.funcs[i]? = some f → em.Live i → ∀ idx h, .call idx ∈ f.instrs →
          callee idx = some (.host h) →
          h ∈ em.hostNeeded ∨ em.exports ≠ [] ∧ h ∈ [7, 1, 0, 25]) ∧
        ∀ i, em.Live i → ∀ pos ∈ em.calls i, ∀ j, pos < j → em.Live j →
          em.names[j]? ≠ em.names[pos]? := by
  rw [calls_iff]
  constructor
  · intro keeps
    refine ⟨fun i f named live idx h mem target => ?_, fun i live pos mem => ?_⟩
    · have here := keeps _ (kept_self named live) _ mem
      rw [before, target] at here
      exact (mem_hostList.mp ((after_host target).mp here)).2
    · obtain ⟨f, named⟩ := live_named live
      obtain ⟨idx, called, target⟩ := of_mem_calls named mem
      have here := keeps _ (kept_self named live) _ called
      rw [before, target] at here
      obtain ⟨a, seed, path⟩ := live
      exact (after_user_iff target ⟨a, seed, path.tail mem⟩).mp here
  · rintro ⟨hosts, names⟩ ⟨f, i⟩ mem instr inside
    obtain ⟨named, live⟩ := mem_kept.mp mem
    cases instr with
    | plain op => rfl
    | call idx =>
      have range := em.inRange f (List.mem_of_getElem? named) idx inside
      rw [before]
      cases target : callee idx with
      | none =>
        rw [target] at range
        exact range.elim
      | some c =>
        rw [target] at range
        cases c with
        | host h =>
          exact (after_host target).mpr
            (mem_hostList.mpr ⟨range, hosts i f named live idx h inside target⟩)
        | wasmImport k => exact after_wasmImport target range
        | func pos =>
          have called := mem_calls named inside target
          obtain ⟨a, seed, path⟩ := live
          have livePos : em.Live pos := ⟨a, seed, path.tail called⟩
          exact (after_user_iff target livePos).mpr (names i ⟨a, seed, path⟩ pos called)

theorem lastNamed_of_mem {name : String} {names : List String} (mem : name ∈ names) :
    ∃ i, lastNamed name names = some i := by
  cases last : lastNamed name names with
  | some i => exact ⟨i, rfl⟩
  | none =>
    have apart := lastWhere_none.mp last name mem
    simp at apart

theorem mem_of_lastNamed {name : String} {names : List String} {i : Nat}
    (last : lastNamed name names = some i) : names[i]? = some name := by
  obtain ⟨⟨name', named, same⟩, -⟩ := lastWhere_some last
  rwa [beq_iff_eq.mp same] at named

theorem live_of_root {i : Nat} (root : em.Root i) : em.Live i := by
  obtain ⟨⟨f, i⟩, mem, rfl⟩ := kept_of_root root .refl
  exact (mem_kept.mp mem).2

/-- An exported name's wrapper calls the function of that name. -/
theorem nameMap_exported {e : String × String} {pos : Nat} (exported : e ∈ em.exports)
    (last : lastNamed e.1 em.names = some pos) :
    ∃ idx, em.nameMap e.1 = some idx ∧ em.designated idx = some (.func pos) := by
  have live : em.Live pos := live_of_root (.inl ⟨e, exported, last⟩)
  obtain ⟨f, named⟩ := live_named live
  have name := (names_getElem named).symm.trans (mem_of_lastNamed last)
  obtain ⟨idx, ⟨g, pos'⟩, mapped, designates, mem, same, highest⟩ :=
    nameMap_spec (kept_self named live)
  rw [Option.some.inj name] at mapped same highest
  refine ⟨idx, mapped, designates.trans ?_⟩
  have above := highest _ (kept_self named live) (Option.some.inj name)
  obtain ⟨namedG, -⟩ := mem_kept.mp mem
  have below : ¬pos < pos' := by
    intro behind
    have apart := (lastWhere_some last).2 pos' g.name behind (names_getElem namedG)
    simp only at same
    simp [same] at apart
  dsimp only at above ⊢
  rw [show pos' = pos by omega]

theorem exported_iff :
    (∀ (k : Nat) (e : String × String), em.exports[k]? = some e → ∃ pos idx,
      lastNamed e.1 em.names = some pos ∧ em.wrappers[k]? = some (some idx) ∧
        em.designated idx = some (.func pos)) ↔ ∀ e ∈ em.exports, e.1 ∈ em.names := by
  constructor
  · intro exported e mem
    obtain ⟨k, place⟩ := List.mem_iff_getElem?.mp mem
    obtain ⟨pos, -, last, -⟩ := exported k e place
    exact List.mem_of_getElem? (mem_of_lastNamed last)
  · intro named k e place
    have mem := List.mem_of_getElem? place
    obtain ⟨pos, last⟩ := lastNamed_of_mem (named e mem)
    obtain ⟨idx, mapped, designates⟩ := nameMap_exported mem last
    refine ⟨pos, idx, last, ?_, designates⟩
    have some : em.exports.isEmpty = false := by
      cases h : em.exports with
      | nil =>
        rw [h] at mem
        cases mem
      | cons => rfl
    rw [wrappers, some, if_neg Bool.false_ne_true, List.getElem?_map, place, Option.map_some,
      mapped]

theorem startsWith_helper {name : String} (helper : startsWith "__h_" name = true) :
    startsWith "__" name = true := by
  unfold startsWith at helper ⊢
  rw [List.isPrefixOf_iff_prefix] at helper ⊢
  exact List.IsPrefix.trans (by decide) helper

theorem wrappers_entry {pos : Nat} (entered : em.entry = some pos) :
    em.wrappers = [some (em.internalBase + (em.treeShake.length - 1))] := by
  have live : em.Live pos := live_of_root (.inr (.inr entered))
  obtain ⟨f, named⟩ := live_named live
  have mem := kept_self named live
  unfold entry at entered
  split at entered
  · rename_i none
    obtain ⟨⟨name, named', user⟩, -⟩ := lastWhere_some entered
    cases Option.some.inj ((names_getElem named).symm.trans named')
    have some : em.treeShake.isEmpty = false := by
      rw [treeShake, List.isEmpty_map]
      cases h : em.kept with
      | nil =>
        rw [h] at mem
        cases mem
      | cons => rfl
    have any : (em.treeShake.any fun f => !startsWith "__h_" f.name) = true := by
      rw [List.any_eq_true]
      refine ⟨_, List.mem_map.mpr ⟨_, mem, rfl⟩, ?_⟩
      cases helper : startsWith "__h_" f.name with
      | false => simp
      | true => simp [startsWith_helper helper] at user
    rw [wrappers, if_pos none, some, any]
    rfl
  · cases entered

theorem entered_iff {pos : Nat} (entered : em.entry = some pos) :
    (∃ idx, em.wrappers = [some idx] ∧ em.designated idx = some (.func pos)) ↔
      ∀ j, em.Live j → j ≤ pos := by
  have live : em.Live pos := live_of_root (.inr (.inr entered))
  obtain ⟨f, named⟩ := live_named live
  have mem := kept_self named live
  obtain ⟨q, place⟩ := List.mem_iff_getElem?.mp mem
  have inside : q < em.kept.length := (List.getElem?_eq_some_iff.mp place).1
  obtain ⟨⟨g, pos'⟩, lastPlace⟩ : ∃ g, em.kept[em.kept.length - 1]? = some g :=
    ⟨_, List.getElem?_eq_getElem (by omega)⟩
  have highest {j : Nat} (liveJ : em.Live j) : j ≤ pos' := by
    obtain ⟨f', namedJ⟩ := live_named liveJ
    obtain ⟨q', place'⟩ := List.mem_iff_getElem?.mp (kept_self namedJ liveJ)
    have inside' : q' < em.kept.length := (List.getElem?_eq_some_iff.mp place').1
    exact kept_mono place' lastPlace (by omega)
  have liveLast : em.Live pos' := (mem_kept.mp (List.mem_of_getElem? lastPlace)).2
  rw [wrappers_entry entered, length_treeShake]
  constructor
  · rintro ⟨idx, same, designates⟩ j liveJ
    cases same
    rw [designated_func lastPlace] at designates
    have here := Callee.func.inj (Option.some.inj designates)
    have below := highest liveJ
    dsimp only at here
    omega
  · intro last
    refine ⟨_, rfl, ?_⟩
    rw [designated_func lastPlace]
    have same : pos' = pos := Nat.le_antisymm (last pos' liveLast) (highest live)
    rw [same]

end Emitter

/-- A function that calls a shared helper, which stands behind it. -/
def helped : Emitter Unit where
  funcs := [⟨"main", 1, [.call (userBase + 1)]⟩, ⟨"__int_to_str", 1, [.plain ()]⟩]
  exports := []
  lambdaInfo := []
  wtUsed := false
  hostNeeded := []
  wasmImports := []
  inRange f mem idx called := by
    simp only [List.mem_cons, List.not_mem_nil, or_false] at mem
    obtain rfl | rfl := mem
    · simp only [List.mem_cons, List.not_mem_nil, or_false, Instruction.call.injEq] at called
      subst called
      have target : callee (userBase + 1) = some (.func 1) := by decide
      rw [target]
      exact Nat.one_lt_two
    · simp at called

end LispRlm.WasmEmit.TreeShake
