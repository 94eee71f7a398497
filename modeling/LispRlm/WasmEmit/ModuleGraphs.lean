import LispRlm.WasmEmit.ModuleResolution

/-! When the resolution of modules accepts exactly the files that do not include themselves. -/

namespace LispRlm.WasmEmit.ModuleResolution

open Foundation.Inclusion
open Surface.Reader (Pending turn)

/-! ### Lines in strings and comments -/

/-- Where the reader's turns outside strings begin, by what is left of the text there. -/
def codeStarts (len : Nat) (p : Pending) : List Char → List Nat
  | [] => if p.inStr then [] else [0]
  | ch :: rest =>
      (if p.inStr then [] else [rest.length + 1]) ++
        codeStarts len (turn len p ch rest).next (turn len p ch rest).rest
termination_by rest => rest.length
decreasing_by exact Nat.lt_succ_of_le (Surface.Reader.turn_suffix len p ch rest).length_le

/-- The lines with what is left of the text where each begins. -/
def placedFrom (start : Nat) (cur : List Char) : List Char → List (Nat × List Char)
  | [] => if cur.isEmpty then [] else [(start, cur)]
  | c :: rest =>
      if c = '\n' then (start, stripReturn cur) :: placedFrom rest.length [] rest
      else placedFrom start (cur ++ [c]) rest

/-- The lines, each with whether it begins outside the strings and the block comments. -/
def placedLines (source : List Char) : List (Bool × List Char) :=
  (placedFrom source.length [] source).map fun (start, line) =>
    ((codeStarts source.length ⟨[], 0, false⟩ source).contains start, line)

theorem placedFrom_lines (start : Nat) (cur source : List Char) :
    (placedFrom start cur source).map Prod.snd = linesFrom cur source := by
  induction source generalizing start cur with
  | nil =>
    rw [placedFrom, linesFrom]
    split <;> rfl
  | cons c rest ih =>
    rw [placedFrom, linesFrom]
    split
    · rw [List.map_cons, ih]
    · exact ih _ _

theorem placedLines_lines (source : List Char) :
    (placedLines source).map Prod.snd = lines source := by
  rw [placedLines, List.map_map]
  exact placedFrom_lines _ _ _

theorem newline_notMem {cur source : List Char} (free : '\n' ∉ cur) :
    ∀ line ∈ linesFrom cur source, '\n' ∉ line := by
  induction source generalizing cur with
  | nil =>
    rw [linesFrom]
    split
    · exact nofun
    · intro line mem
      rw [List.mem_singleton.mp mem]
      exact free
  | cons c rest ih =>
    rw [linesFrom]
    split
    · intro line mem
      rcases List.mem_cons.mp mem with rfl | mem
      · rw [stripReturn]
        split
        · exact fun within => free (List.dropLast_subset _ within)
        · exact free
      · exact ih List.not_mem_nil line mem
    · rename_i other
      apply ih
      intro mem
      rcases List.mem_append.mp mem with mem | mem
      · exact free mem
      · exact other (List.mem_singleton.mp mem).symm

theorem line_inj {l l' a b : List Char} (free : '\n' ∉ l) (free' : '\n' ∉ l')
    (same : l ++ '\n' :: a = l' ++ '\n' :: b) : l = l' ∧ a = b := by
  induction l generalizing l' with
  | nil =>
    cases l' with
    | nil => exact ⟨rfl, (List.cons.inj same).2⟩
    | cons d l' => exact absurd List.mem_cons_self ((List.cons.inj same).1 ▸ free')
  | cons c l ih =>
    cases l' with
    | nil => exact absurd List.mem_cons_self ((List.cons.inj same).1 ▸ free)
    | cons d l' =>
      rcases List.cons.inj same with ⟨rfl, rest⟩
      rcases ih (fun mem => free (List.mem_cons_of_mem _ mem))
        (fun mem => free' (List.mem_cons_of_mem _ mem)) rest with ⟨rfl, after⟩
      exact ⟨rfl, after⟩

theorem joined_inj {ls ls' : List (List Char)} (free : ∀ l ∈ ls, '\n' ∉ l)
    (free' : ∀ l ∈ ls', '\n' ∉ l) (same : joined ls = joined ls') : ls = ls' := by
  induction ls generalizing ls' with
  | nil =>
    cases ls' with
    | nil => rfl
    | cons l ls' =>
      rw [joined_cons] at same
      exact absurd same (by simp [joined])
  | cons l ls ih =>
    cases ls' with
    | nil =>
      rw [joined_cons] at same
      exact absurd same (by simp [joined])
    | cons l' ls' =>
      rcases List.forall_mem_cons.mp free with ⟨first, others⟩
      rcases List.forall_mem_cons.mp free' with ⟨first', others'⟩
      rw [joined_cons, joined_cons] at same
      rcases line_inj first first' same with ⟨rfl, rest⟩
      rw [ih others others' rest]

/-! ### What the files include -/

variable {P D : Type}

/-- A line in a string or a comment is text, whatever it looks like. -/
def placedItem (fs : FileSystem P D) (dir : D) (line : Bool × List Char) :
    Option (Item P (List Char)) :=
  if line.1 then item fs dir line.2 else some (.line line.2)

def realItems (fs : FileSystem P D) (dir : D) (source : List Char) : List (Item P (List Char)) :=
  (placedLines source).filterMap (placedItem fs dir)

def realBody (fs : FileSystem P D) (p : P) : List (Item P (List Char)) :=
  match fs.readToString p with
  | none => []
  | some source => realItems fs (fs.parent p) source

/-- No line in a string or a comment looks like a module line. -/
def NothingHidden (source : List Char) : Prop :=
  ∀ line ∈ placedLines source, line.1 = false → kind line.2 = .text

theorem items_eq (fs : FileSystem P D) (dir : D) (source : List Char) :
    items fs dir (lines source) =
      (placedLines source).filterMap fun line => item fs dir line.2 := by
  rw [items, ← placedLines_lines, List.filterMap_map]
  rfl

theorem realItems_eq {source : List Char} (nothing : NothingHidden source) (fs : FileSystem P D)
    (dir : D) : realItems fs dir source = items fs dir (lines source) := by
  rw [items_eq, realItems]
  apply List.filterMap_congr
  intro line mem
  rw [placedItem]
  split
  · rfl
  · rename_i inside
    rw [item, nothing line mem (Bool.eq_false_of_not_eq_true inside)]

theorem realBody_eq {fs : FileSystem P D} {p : P}
    (nothing : ∀ source, fs.readToString p = some source → NothingHidden source) :
    realBody fs p = body fs p := by
  rw [realBody, body]
  cases read : fs.readToString p with
  | none => rfl
  | some source => exact realItems_eq (nothing source read) fs (fs.parent p)

/-- A line that is hidden stands in the expansion. -/
theorem line_of_hidden {fs : FileSystem P D} {dir : D} {source : List Char}
    {line : Bool × List Char}
    (mem : line ∈ placedLines source) (inside : line.1 = false) :
    .line line.2 ∈ realItems fs dir source := by
  apply List.mem_filterMap.mpr
  refine ⟨line, mem, ?_⟩
  rw [placedItem, inside]
  rfl

theorem file_of_real {fs : FileSystem P D} {dir : D} {source : List Char} {p : P}
    (mem : .file p ∈ realItems fs dir source) : .file p ∈ items fs dir (lines source) := by
  rw [items_eq]
  rcases List.mem_filterMap.mp mem with ⟨line, within, same⟩
  refine List.mem_filterMap.mpr ⟨line, within, ?_⟩
  rw [placedItem] at same
  split at same
  · exact same
  · cases same

theorem item_line {fs : FileSystem P D} {dir : D} {l line : List Char}
    (same : item fs dir l = some (.line line)) : l = line ∧ kind line = .text := by
  rw [item] at same
  split at same
  · rename_i text
    cases same
    exact ⟨rfl, text⟩
  · cases same
  · rcases Option.map_eq_some_iff.mp same with ⟨p, _, other⟩
    cases other

theorem text_of_line {fs : FileSystem P D} {dir : D} {source line : List Char}
    (mem : .line line ∈ items fs dir (lines source)) : kind line = .text := by
  rcases List.mem_filterMap.mp mem with ⟨l, _, same⟩
  exact (item_line same).2

theorem free_of_line {fs : FileSystem P D} {dir : D} {source line : List Char}
    (mem : .line line ∈ items fs dir (lines source)) : '\n' ∉ line := by
  rcases List.mem_filterMap.mp mem with ⟨l, within, same⟩
  rw [← (item_line same).1]
  exact newline_notMem List.not_mem_nil l within

theorem free_of_realLine {fs : FileSystem P D} {dir : D} {source line : List Char}
    (mem : .line line ∈ realItems fs dir source) : '\n' ∉ line := by
  rcases List.mem_filterMap.mp mem with ⟨placed, within, same⟩
  have own : placed.2 ∈ lines source := by
    rw [← placedLines_lines]
    exact List.mem_map_of_mem within
  have line_eq : placed.2 = line := by
    rw [placedItem] at same
    split at same
    · exact (item_line same).1
    · cases same
      rfl
  rw [← line_eq]
  exact newline_notMem List.not_mem_nil _ own

/-- What holds of the empty line and of the lines of every file holds of an expansion's lines. -/
theorem expansion_lines {b : P → List (Item P (List Char))} {its : List (Item P (List Char))}
    {out : List (List Char)} {met : List P} (expands : Expands b [] its out met)
    {Q : List Char → Prop} (empty : Q []) (own : ∀ l, .line l ∈ its → Q l)
    (files : ∀ p l, .line l ∈ b p → Q l) : ∀ l ∈ out, Q l := by
  intro l mem
  rcases expands.mem_out l mem with rfl | stands | ⟨p, _, stands⟩
  · exact empty
  · exact own l stands
  · exact files p l stands

theorem kind_nil : kind [] = .text := by decide

theorem body_line {fs : FileSystem P D} {p : P} {l : List Char} (mem : .line l ∈ body fs p) :
    kind l = .text ∧ '\n' ∉ l := by
  rw [body] at mem
  split at mem
  · exact absurd mem List.not_mem_nil
  · exact ⟨text_of_line mem, free_of_line mem⟩

theorem realBody_line {fs : FileSystem P D} {p : P} {l : List Char}
    (mem : .line l ∈ realBody fs p) : '\n' ∉ l := by
  rw [realBody] at mem
  split at mem
  · exact absurd mem List.not_mem_nil
  · exact free_of_realLine mem

theorem realBody_file {fs : FileSystem P D} {p q : P} (mem : .file q ∈ realBody fs p) :
    .file q ∈ body fs p := by
  rw [realBody] at mem
  rw [body]
  cases read : fs.readToString p with
  | none =>
    rw [read] at mem
    exact absurd mem List.not_mem_nil
  | some source =>
    rw [read] at mem
    exact file_of_real mem

/-- Files that include themselves do so too where hidden lines are followed. -/
theorem cyclic_of_real {fs : FileSystem P D} {dir : D} {source : List Char}
    (cyclic : Cyclic (realBody fs) (realItems fs dir source)) :
    Cyclic (body fs) (items fs dir (lines source)) := by
  rcases cyclic with ⟨q, ⟨p, mem, chain⟩, cycle⟩
  have step : ∀ a b, Includes (realBody fs) a b → Includes (body fs) a b :=
    fun a b included => realBody_file included
  exact ⟨q, ⟨p, file_of_real mem, Relation.ReflTransGen.mono step _ _ chain⟩,
    Relation.TransGen.mono step _ _ cycle⟩

theorem item_file {fs : FileSystem P D} {dir : D} {ls : List (List Char)} {p : P}
    (mem : .file p ∈ items fs dir ls) : p ∈ fs.files := by
  rcases List.mem_filterMap.mp mem with ⟨l, _, same⟩
  rw [item] at same
  split at same
  · cases same
  · cases same
  · rcases Option.map_eq_some_iff.mp same with ⟨q, found, other⟩
    cases other
    exact fs.listed found

theorem reached_listed {fs : FileSystem P D} {dir : D} {ls : List (List Char)} {p : P}
    (reached : Reached (body fs) (items fs dir ls) p) : p ∈ fs.files := by
  rcases reached with ⟨first, mem, chain⟩
  induction chain with
  | refl => exact item_file mem
  | tail _ included _ =>
    rw [Includes, body] at included
    split at included
    · exact absurd included List.not_mem_nil
    · exact item_file included

theorem realReached_listed {fs : FileSystem P D} {dir : D} {source : List Char} {p : P}
    (reached : Reached (realBody fs) (realItems fs dir source) p) : p ∈ fs.files := by
  rcases reached with ⟨first, mem, chain⟩
  have step : ∀ a b, Includes (realBody fs) a b → Includes (body fs) a b :=
    fun a b included => realBody_file included
  exact reached_listed ⟨first, file_of_real mem, Relation.ReflTransGen.mono step _ _ chain⟩

/-! ### Where the resolution is right -/

variable [DecidableEq P]

/-- The resolution reports a cycle if and only if a file includes itself, and otherwise gives the
expansion of the text. -/
def Accepts (fs : FileSystem P D) (source : List Char) (dir : D) : Prop :=
  ((∃ p, resolveModules fs source dir = .error (.circular p)) ↔
    Cyclic (realBody fs) (realItems fs dir source)) ∧
  (¬ Cyclic (realBody fs) (realItems fs dir source) →
    ∃ out met, Expands (realBody fs) [] (realItems fs dir source) out met ∧
      resolveModules fs source dir = .ok (joined out))

/-- A file includes itself, or each file is included once and no string or comment has a line that
looks like a module line. -/
def OnceOrCyclic (fs : FileSystem P D) (source : List Char) (dir : D) : Prop :=
  Cyclic (realBody fs) (realItems fs dir source) ∨
    (NothingHidden source ∧ ∃ out met,
      Expands (realBody fs) [] (realItems fs dir source) out met ∧ met.Nodup ∧
      ∀ p ∈ met, ∀ text, fs.readToString p = some text → NothingHidden text)

/-- What the code gives: the expansion where no file is met twice, and a cycle otherwise. -/
theorem resolveModules_eq {fs : FileSystem P D} (complete : Complete fs) {source : List Char}
    {dir : D} (known : Known fs dir (lines source)) :
    (∃ out met, Expands (body fs) [] (items fs dir (lines source)) out met ∧ met.Nodup ∧
      resolveModules fs source dir = .ok (joined out)) ∨
    ((∃ p, resolveModules fs source dir = .error (.circular p)) ∧
      ∀ out met, Expands (body fs) [] (items fs dir (lines source)) out met → ¬ met.Nodup) := by
  have agrees := resolveInner_agrees complete dir [] (lines source) known
  rw [resolveModules]
  cases resolved : resolveInner fs dir [] (lines source) with
  | ok r =>
    rw [resolved] at agrees
    rcases agrees with ⟨out, met, expands, text, _, nodup, _⟩
    exact .inl ⟨out, met, expands, nodup, congrArg Except.ok text⟩
  | error f =>
    rw [resolved] at agrees
    cases f with
    | notFound | unreadable => exact agrees.elim
    | circular p =>
      refine .inr ⟨⟨p, rfl⟩, ?_⟩
      intro out met expands nodup
      exact agrees out met expands nodup fun _ _ => List.not_mem_nil

theorem accepts_of_cyclic {fs : FileSystem P D} (complete : Complete fs) {source : List Char}
    {dir : D} (known : Known fs dir (lines source))
    (cyclic : Cyclic (realBody fs) (realItems fs dir source)) : Accepts fs source dir := by
  refine ⟨iff_of_true ?_ cyclic, fun acyclic => absurd cyclic acyclic⟩
  have none : ¬ ∃ out met, Expands (body fs) [] (items fs dir (lines source)) out met := by
    rw [exists_expands_iff fun p => reached_listed]
    exact not_not.mpr (cyclic_of_real cyclic)
  rcases resolveModules_eq complete known with ⟨out, met, expands, _⟩ | ⟨circular, _⟩
  · exact absurd ⟨out, met, expands⟩ none
  · exact circular

theorem accepts_of_once {fs : FileSystem P D} (complete : Complete fs) {source : List Char}
    {dir : D} (known : Known fs dir (lines source)) (nothing : NothingHidden source)
    {out : List (List Char)} {met : List P}
    (expands : Expands (realBody fs) [] (realItems fs dir source) out met) (nodup : met.Nodup)
    (files : ∀ p ∈ met, ∀ text, fs.readToString p = some text → NothingHidden text) :
    Accepts fs source dir := by
  have acyclic : ¬ Cyclic (realBody fs) (realItems fs dir source) :=
    (exists_expands_iff fun p => realReached_listed).mp ⟨out, met, expands⟩
  have plain : Expands (body fs) [] (items fs dir (lines source)) out met := by
    rw [← realItems_eq nothing]
    exact expands.congr fun p mem => realBody_eq (files p mem)
  rcases resolveModules_eq complete known with ⟨out', met', expands', _, text⟩ | ⟨_, never⟩
  · rcases plain.unique expands' with ⟨rfl, rfl⟩
    refine ⟨iff_of_false ?_ acyclic, fun _ => ⟨out, met, expands, text⟩⟩
    rintro ⟨p, circular⟩
    rw [text] at circular
    cases circular
  · exact absurd nodup (never out met plain)

/-- What the code gives has no line that looks like a module line, so an expansion that it gives
has none in a string or a comment. -/
theorem once_of_accepts {fs : FileSystem P D} (complete : Complete fs) {source : List Char}
    {dir : D} (known : Known fs dir (lines source)) {out : List (List Char)} {met : List P}
    (expands : Expands (realBody fs) [] (realItems fs dir source) out met)
    (text : resolveModules fs source dir = .ok (joined out)) :
    NothingHidden source ∧ met.Nodup ∧
      ∀ p ∈ met, ∀ text, fs.readToString p = some text → NothingHidden text := by
  have found : ∃ out' met', Expands (body fs) [] (items fs dir (lines source)) out' met' ∧
      met'.Nodup ∧ resolveModules fs source dir = .ok (joined out') := by
    rcases resolveModules_eq complete known with found | ⟨⟨p, circular⟩, _⟩
    · exact found
    · rw [text] at circular
      cases circular
  rcases found with ⟨out', met', expands', nodup, text'⟩
  have free := expansion_lines expands (Q := fun l => '\n' ∉ l) List.not_mem_nil
    (fun _ => free_of_realLine) fun _ _ => realBody_line
  have plain := expansion_lines expands' (Q := fun l => kind l = .text ∧ '\n' ∉ l)
    ⟨kind_nil, List.not_mem_nil⟩ (fun _ mem => ⟨text_of_line mem, free_of_line mem⟩)
    fun _ _ => body_line
  have same : out = out' := by
    rw [text] at text'
    exact joined_inj free (fun l mem => (plain l mem).2) (Except.ok.inj text')
  have nothing : NothingHidden source := by
    intro line mem inside
    have stands := expands.line_mem (.inl (line_of_hidden mem inside))
    rw [same] at stands
    exact (plain _ stands).1
  have files : ∀ p ∈ met, ∀ text, fs.readToString p = some text → NothingHidden text := by
    intro p mem inner read line within inside
    have hidden : .line line.2 ∈ realBody fs p := by
      rw [realBody, read]
      exact line_of_hidden within inside
    have stands := expands.line_mem (.inr ⟨p, mem, hidden⟩)
    rw [same] at stands
    exact (plain _ stands).1
  refine ⟨nothing, ?_, files⟩
  have whole : Expands (body fs) [] (items fs dir (lines source)) out met := by
    rw [← realItems_eq nothing]
    exact expands.congr fun p mem => realBody_eq (files p mem)
  rw [(whole.unique expands').2]
  exact nodup

/-- An empty file `a`. -/
def oneFile : FileSystem Unit Unit where
  files := [()]
  canonicalize _ path := if path = ['a'] then some () else none
  listed _ := List.mem_singleton.mpr rfl
  readToString _ := some []
  parent _ := ()

def includeLine : List Char := "(module \"a\")".toList

theorem kind_includeLine : kind includeLine = .module ['a'] := by decide

theorem complete_oneFile : Complete oneFile :=
  fun _ _ => ⟨[], rfl, fun _ mem => absurd mem List.not_mem_nil⟩

theorem known_includeLine {ls : List (List Char)} (all : ∀ l ∈ ls, l = includeLine) :
    Known oneFile () ls := by
  intro line mem path named
  rw [all line mem, kind_includeLine] at named
  cases named
  exact ⟨(), rfl⟩

def includeTwice : List Char := includeLine ++ '\n' :: includeLine

end LispRlm.WasmEmit.ModuleResolution
