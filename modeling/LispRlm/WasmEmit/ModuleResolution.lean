import LispRlm.Foundation.Inclusion
import LispRlm.Surface.ErrorPositions

/-! The resolution of `(module "path")` lines, and when it accepts exactly what has no cycle. -/

namespace LispRlm.WasmEmit.ModuleResolution

open Foundation.Inclusion
open Surface.Reader (isWhitespace trimMatches stripPrefix stripSuffix)

/-! ### Lines -/

def stripReturn (line : List Char) : List Char :=
  if line.getLast? = some '\r' then line.dropLast else line

/-- `str::lines`; `cur` has been read of the next line. -/
def linesFrom (cur : List Char) : List Char → List (List Char)
  | [] => if cur.isEmpty then [] else [cur]
  | c :: rest =>
      if c = '\n' then stripReturn cur :: linesFrom [] rest else linesFrom (cur ++ [c]) rest

def lines (source : List Char) : List (List Char) := linesFrom [] source

inductive Kind
  | text
  | dropped
  | module (path : List Char)
deriving DecidableEq

/-- What a line is: one that begins as a module line but has no path between quotes is dropped. -/
def kind (line : List Char) : Kind :=
  match stripPrefix "(module ".toList (trimMatches isWhitespace line) with
  | none => .text
  | some rest =>
      let rest := (stripSuffix [')'] rest).getD rest
      let after := (rest.dropWhile (· ≠ '"')).tail
      let path := (after.reverse.dropWhile (· ≠ '"')).tail.reverse
      if path.isEmpty then .dropped else .module path

/-! ### Files -/

/-- The files there are, by their canonical paths; a file has a directory. -/
structure FileSystem (P D : Type) where
  files : List P
  /-- `base_dir.join(path).canonicalize()` -/
  canonicalize : D → List Char → Option P
  listed : ∀ {dir path p}, canonicalize dir path = some p → p ∈ files
  readToString : P → Option (List Char)
  parent : P → D

variable {P D : Type}

def item (fs : FileSystem P D) (dir : D) (line : List Char) : Option (Item P (List Char)) :=
  match kind line with
  | .text => some (.line line)
  | .dropped => none
  | .module path => (fs.canonicalize dir path).map .file

def items (fs : FileSystem P D) (dir : D) (ls : List (List Char)) : List (Item P (List Char)) :=
  ls.filterMap (item fs dir)

/-- What a file holds, where every line that looks like a module line is one. -/
def body (fs : FileSystem P D) (p : P) : List (Item P (List Char)) :=
  match fs.readToString p with
  | none => []
  | some source => items fs (fs.parent p) (lines source)

/-- The files that these lines name exist. -/
def Known (fs : FileSystem P D) (dir : D) (ls : List (List Char)) : Prop :=
  ∀ line ∈ ls, ∀ path, kind line = .module path → ∃ p, fs.canonicalize dir path = some p

/-- A set of source files: all can be read, and every file that one of them names is among them. -/
def Complete (fs : FileSystem P D) : Prop :=
  ∀ p ∈ fs.files, ∃ source, fs.readToString p = some source ∧
    Known fs (fs.parent p) (lines source)

/-- The text of lines. -/
def joined (ls : List (List Char)) : List Char := ls.flatMap (· ++ ['\n'])

theorem joined_append (ls more : List (List Char)) :
    joined (ls ++ more) = joined ls ++ joined more :=
  List.flatMap_append

theorem joined_cons (l : List Char) (ls : List (List Char)) :
    joined (l :: ls) = l ++ '\n' :: joined ls := by
  simp [joined]

theorem items_text {fs : FileSystem P D} {dir : D} {line : List Char} (text : kind line = .text)
    (rest : List (List Char)) : items fs dir (line :: rest) = .line line :: items fs dir rest := by
  rw [items, List.filterMap_cons_some (b := .line line)]
  · rfl
  · rw [item, text]

theorem items_dropped {fs : FileSystem P D} {dir : D} {line : List Char}
    (dropped : kind line = .dropped) (rest : List (List Char)) :
    items fs dir (line :: rest) = items fs dir rest := by
  rw [items, List.filterMap_cons_none]
  · rfl
  · rw [item, dropped]

theorem items_module {fs : FileSystem P D} {dir : D} {line path : List Char} {p : P}
    (named : kind line = .module path) (found : fs.canonicalize dir path = some p)
    (rest : List (List Char)) : items fs dir (line :: rest) = .file p :: items fs dir rest := by
  rw [items, List.filterMap_cons_some (b := .file p)]
  · rfl
  · rw [item, named]
    exact congrArg (Option.map Item.file) found

/-! ### The resolution -/

inductive Failure (P : Type)
  | notFound (path : List Char)
  | unreadable (p : P)
  | circular (p : P)

variable [DecidableEq P]

/-- A resolved text, and the files seen so far. -/
structure Resolved (seen : List P) where
  text : List Char
  seen' : List P
  grows : seen ⊆ seen'

/-- How many files were not seen. -/
def unseen (fs : FileSystem P D) (seen : List P) : Nat :=
  (fs.files.filter (· ∉ seen)).length

theorem unseen_mono (fs : FileSystem P D) {seen seen' : List P} (grows : seen ⊆ seen') :
    unseen fs seen' ≤ unseen fs seen := by
  rw [unseen, unseen, ← List.countP_eq_length_filter, ← List.countP_eq_length_filter]
  apply List.countP_mono_left
  intro p _ fresh
  simp only [decide_eq_true_eq] at fresh ⊢
  exact fun mem => fresh (grows mem)

theorem unseen_lt (fs : FileSystem P D) {seen : List P} {p : P} (mem : p ∈ fs.files)
    (fresh : p ∉ seen) : unseen fs (seen ++ [p]) < unseen fs seen := by
  have split : fs.files.filter (· ∉ seen ++ [p]) =
      (fs.files.filter (· ∉ seen)).filter (· ≠ p) := by
    rw [List.filter_filter]
    apply List.filter_congr
    intro q _
    simp [and_comm]
  rw [unseen, unseen, split]
  apply List.length_filter_lt_length_iff_exists.mpr
  exact ⟨p, List.mem_filter.mpr ⟨mem, by simpa using fresh⟩, by simp⟩

/-- `resolve_modules_inner`, over the lines of the source. -/
def resolveInner (fs : FileSystem P D) (dir : D) (seen : List P) :
    List (List Char) → Except (Failure P) (Resolved seen)
  | [] => .ok ⟨[], seen, List.Subset.refl _⟩
  | line :: rest =>
      match kind line with
      | .text =>
          match resolveInner fs dir seen rest with
          | .error f => .error f
          | .ok r => .ok ⟨line ++ '\n' :: r.text, r.seen', r.grows⟩
      | .dropped => resolveInner fs dir seen rest
      | .module path =>
          match _found : fs.canonicalize dir path with
          | none => .error (.notFound path)
          | some p =>
              if _again : p ∈ seen then .error (.circular p)
              else
                match fs.readToString p with
                | none => .error (.unreadable p)
                | some source =>
                    match resolveInner fs (fs.parent p) (seen ++ [p]) (lines source) with
                    | .error f => .error f
                    | .ok inner =>
                        match resolveInner fs dir inner.seen' rest with
                        | .error f => .error f
                        | .ok r => .ok ⟨inner.text ++ '\n' :: r.text, r.seen',
                            fun _ mem => r.grows (inner.grows (List.mem_append_left _ mem))⟩
termination_by rest => (unseen fs seen, rest.length)
decreasing_by
  · exact Prod.Lex.right _ (Nat.lt_succ_self _)
  · exact Prod.Lex.right _ (Nat.lt_succ_self _)
  · exact Prod.Lex.left _ _ (unseen_lt fs (fs.listed _found) _again)
  · have less := unseen_lt fs (fs.listed _found) _again
    exact Prod.Lex.left _ _ (Nat.lt_of_le_of_lt (unseen_mono fs inner.grows) less)

def resolveModules (fs : FileSystem P D) (source : List Char) (dir : D) :
    Except (Failure P) (List Char) :=
  match resolveInner fs dir [] (lines source) with
  | .error f => .error f
  | .ok r => .ok r.text

/-- What a resolution says of the expansions: it gives the one that meets no file twice and none
that was seen, or there is none. -/
def Agrees (fs : FileSystem P D) (seen : List P) (its : List (Item P (List Char))) :
    Except (Failure P) (Resolved seen) → Prop
  | .ok r => ∃ out met, Expands (body fs) [] its out met ∧ r.text = joined out ∧
      r.seen' = seen ++ met ∧ met.Nodup ∧ ∀ p ∈ met, p ∉ seen
  | .error (.circular _) => ∀ out met, Expands (body fs) [] its out met → met.Nodup →
      ¬ ∀ p ∈ met, p ∉ seen
  | .error _ => False

omit [DecidableEq P] in
/-- The resolution of the lines after a file that is included. -/
theorem agrees_after {fs : FileSystem P D} {dir : D} {seen : List P} {p : P}
    {source : List Char} {ls : List (List Char)} (read : fs.readToString p = some source)
    (fresh : p ∉ seen) (inner : Resolved (seen ++ [p]))
    (innerAgrees : Agrees fs (seen ++ [p]) (items fs (fs.parent p) (lines source)) (.ok inner))
    (rest : Except (Failure P) (Resolved inner.seen')) :
    Agrees fs inner.seen' (items fs dir ls) rest → Agrees fs seen (.file p :: items fs dir ls)
      (match rest with
        | .error f => .error f
        | .ok r => .ok ⟨inner.text ++ '\n' :: r.text, r.seen',
            fun _ mem => r.grows (inner.grows (List.mem_append_left _ mem))⟩) := by
  intro restAgrees
  have own : body fs p = items fs (fs.parent p) (lines source) := by rw [body, read]
  rcases innerAgrees with ⟨out, met, expands, text, grown, nodup, disjoint⟩
  rw [← own] at expands
  have new : ∀ q ∈ met, q ∉ seen ∧ q ≠ p := by
    intro q mem
    have := disjoint q mem
    simp only [List.mem_append, List.mem_singleton, not_or] at this
    exact this
  cases rest with
  | ok r =>
    rcases restAgrees with ⟨out', met', expands', text', grown', nodup', disjoint'⟩
    have later : ∀ q ∈ met', q ∉ seen ∧ q ≠ p ∧ q ∉ met := by
      intro q mem
      have := disjoint' q mem
      rw [grown] at this
      simp only [List.mem_append, List.mem_singleton, not_or] at this
      exact ⟨this.1.1, this.1.2, this.2⟩
    refine ⟨out ++ [] :: out', p :: (met ++ met'), .file p expands expands', ?_, ?_, ?_, ?_⟩
    · rw [joined_append, joined_cons, ← text, ← text']
      rfl
    · rw [grown', grown]
      simp
    · rw [List.nodup_cons, List.nodup_append]
      refine ⟨?_, nodup, nodup', fun a left b right same => (later b right).2.2 (same ▸ left)⟩
      intro mem
      rcases List.mem_append.mp mem with mem | mem
      · exact (new p mem).2 rfl
      · exact (later p mem).2.1 rfl
    · intro q mem
      rcases List.mem_cons.mp mem with rfl | mem
      · exact fresh
      rcases List.mem_append.mp mem with mem | mem
      · exact (new q mem).1
      · exact (later q mem).1
  | error f =>
    cases f with
    | notFound | unreadable => exact restAgrees
    | circular q =>
      intro out₂ met₂ whole nodup₂ disjoint₂
      cases whole with
      | file _ content others =>
        rcases content.unique expands with ⟨rfl, rfl⟩
        rw [List.nodup_cons, List.nodup_append] at nodup₂
        rcases nodup₂ with ⟨first, _, nodup', apart⟩
        refine restAgrees _ _ others nodup' fun r mem => ?_
        rw [grown]
        simp only [List.mem_append, List.mem_singleton, not_or]
        refine ⟨⟨disjoint₂ r (List.mem_cons_of_mem _ (List.mem_append_right _ mem)), ?_⟩, ?_⟩
        · rintro rfl
          exact first (List.mem_append_right _ mem)
        · intro left
          exact apart r left r mem rfl

theorem resolveInner_text {fs : FileSystem P D} {dir : D} {seen : List P} {line : List Char}
    (text : kind line = .text) (rest : List (List Char)) :
    resolveInner fs dir seen (line :: rest) =
      match resolveInner fs dir seen rest with
      | .error f => .error f
      | .ok r => .ok ⟨line ++ '\n' :: r.text, r.seen', r.grows⟩ := by
  rw [resolveInner]
  simp only [text]

theorem resolveInner_dropped {fs : FileSystem P D} {dir : D} {seen : List P} {line : List Char}
    (dropped : kind line = .dropped) (rest : List (List Char)) :
    resolveInner fs dir seen (line :: rest) = resolveInner fs dir seen rest := by
  rw [resolveInner]
  simp only [dropped]

theorem resolveInner_seen {fs : FileSystem P D} {dir : D} {seen : List P} {line path : List Char}
    {p : P} (named : kind line = .module path) (found : fs.canonicalize dir path = some p)
    (mem : p ∈ seen) (rest : List (List Char)) :
    resolveInner fs dir seen (line :: rest) = .error (.circular p) := by
  rw [resolveInner]
  simp only [named]
  split
  · rename_i none
    rw [found] at none
    cases none
  · rename_i same
    rw [found] at same
    cases same
    exact dif_pos mem

theorem resolveInner_file {fs : FileSystem P D} {dir : D} {seen : List P}
    {line path source : List Char} {p : P} (named : kind line = .module path)
    (found : fs.canonicalize dir path = some p) (fresh : p ∉ seen)
    (read : fs.readToString p = some source) (rest : List (List Char)) :
    resolveInner fs dir seen (line :: rest) =
      match resolveInner fs (fs.parent p) (seen ++ [p]) (lines source) with
      | .error f => .error f
      | .ok inner =>
          match resolveInner fs dir inner.seen' rest with
          | .error f => .error f
          | .ok r => .ok ⟨inner.text ++ '\n' :: r.text, r.seen',
              fun _ mem => r.grows (inner.grows (List.mem_append_left _ mem))⟩ := by
  rw [resolveInner]
  simp only [named]
  split
  · rename_i none
    rw [found] at none
    cases none
  · rename_i same
    rw [found] at same
    cases same
    rw [dif_neg fresh, read]

omit [DecidableEq P] in
theorem agrees_line {fs : FileSystem P D} {seen : List P} {its : List (Item P (List Char))}
    (r : Except (Failure P) (Resolved seen)) (line : List Char) : Agrees fs seen its r →
    Agrees fs seen (.line line :: its)
      (match r with
        | .error f => .error f
        | .ok r => .ok ⟨line ++ '\n' :: r.text, r.seen', r.grows⟩) := by
  intro rest
  cases r with
  | ok r =>
    rcases rest with ⟨out, met, expands, text, grown⟩
    refine ⟨line :: out, met, expands.line line, ?_, grown⟩
    rw [joined_cons, ← text]
  | error f =>
    cases f with
    | notFound | unreadable => exact rest
    | circular p =>
      intro out met whole
      cases whole with
      | line _ others => exact rest _ _ others

omit [DecidableEq P] in
/-- The resolution of a file that ends in an error ends the one of what includes it. -/
theorem agrees_inner {fs : FileSystem P D} {seen : List P} {its : List (Item P (List Char))} {p : P}
    {source : List Char} {f : Failure P} (read : fs.readToString p = some source)
    (inner : Agrees fs (seen ++ [p]) (items fs (fs.parent p) (lines source)) (.error f)) :
    Agrees fs seen (.file p :: its) (.error f) := by
  have own : body fs p = items fs (fs.parent p) (lines source) := by rw [body, read]
  cases f with
  | notFound | unreadable => exact inner
  | circular q =>
    intro out met whole nodup disjoint
    cases whole with
    | file _ content others =>
      rw [own] at content
      rw [List.nodup_cons, List.nodup_append] at nodup
      refine inner _ _ content nodup.2.1 fun r mem => ?_
      simp only [List.mem_append, List.mem_singleton, not_or]
      refine ⟨disjoint r (List.mem_cons_of_mem _ (List.mem_append_left _ mem)), ?_⟩
      rintro rfl
      exact nodup.1 (List.mem_append_left _ mem)

/-- By induction on the files that were not seen and the lines that are left. -/
theorem resolveInner_agrees {fs : FileSystem P D} (complete : Complete fs) (dir : D)
    (seen : List P) (ls : List (List Char)) (known : Known fs dir ls) :
    Agrees fs seen (items fs dir ls) (resolveInner fs dir seen ls) := by
  have inside {p : P} {source : List Char} {dir : D} {path : List Char}
      (found : fs.canonicalize dir path = some p) (read : fs.readToString p = some source) :
      Known fs (fs.parent p) (lines source) := by
    rcases complete p (fs.listed found) with ⟨source', same, known⟩
    rw [read] at same
    cases same
    exact known
  induction dir, seen, ls using resolveInner.induct fs with
  | case1 dir seen =>
    rw [resolveInner]
    exact ⟨[], [], .nil, rfl, (List.append_nil seen).symm, List.nodup_nil, nofun⟩
  | case2 dir seen line rest text _ _ ih | case3 dir seen line rest text _ _ ih =>
    rw [items_text text, resolveInner_text text]
    exact agrees_line _ line (ih (List.forall_mem_cons.mp known).2)
  | case4 dir seen line rest dropped ih =>
    rw [items_dropped dropped, resolveInner_dropped dropped]
    exact ih (List.forall_mem_cons.mp known).2
  | case5 dir seen line rest path named none =>
    rcases known line List.mem_cons_self path named with ⟨p, found⟩
    rw [none] at found
    cases found
  | case6 dir seen line rest path named p found mem =>
    rw [items_module named found, resolveInner_seen named found mem]
    intro out met whole _ disjoint
    cases whole with
    | file _ _ _ => exact disjoint p List.mem_cons_self mem
  | case7 dir seen line rest path named p found fresh unread =>
    rcases complete p (fs.listed found) with ⟨source, read, _⟩
    rw [unread] at read
    cases read
  | case8 dir seen line rest path named p found fresh source read f failed inner =>
    have innerAgrees := inner (inside found read)
    rw [items_module named found, resolveInner_file named found fresh read, failed]
    rw [failed] at innerAgrees
    exact agrees_inner read innerAgrees
  | case9 dir seen line rest path named p found fresh source read r resolved f failed inner ih
  | case10 dir seen line rest path named p found fresh source read r resolved f failed inner ih =>
    have innerAgrees := inner (inside found read)
    rw [items_module named found, resolveInner_file named found fresh read, resolved]
    rw [resolved] at innerAgrees
    exact agrees_after read fresh r innerAgrees _ (ih (List.forall_mem_cons.mp known).2)

end LispRlm.WasmEmit.ModuleResolution
