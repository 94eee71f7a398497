import LispRlm.Foundation.TextPositions
import LispRlm.Surface.Reader

/-! The lines and columns that the reader and the annotations of errors report. -/

namespace LispRlm.Surface.Reader

open Foundation.TextPositions
open Bytecode (LispVal)

/-! ### The places of brackets -/

/-- What has been read of a token does not begin with a bracket. -/
structure Opened (p : Pending) : Prop where
  free : ∀ c ∈ p.cur.head?, isBracket c = false
  quoted : p.inStr = true → p.cur ≠ []

theorem opened_clear (start : Nat) : Opened ⟨[], start, false⟩ := ⟨nofun, nofun⟩

theorem Opened.more {p : Pending} (opened : Opened p) (some : p.cur ≠ []) (more : List Char)
    (start : Nat) (inStr : Bool) : Opened ⟨p.cur ++ more, start, inStr⟩ := by
  refine ⟨?_, fun _ => List.append_ne_nil_of_left_ne_nil some more⟩
  rw [List.head?_append_of_ne_nil _ some]
  exact opened.free

theorem Opened.push {p : Pending} (opened : Opened p) {ch : Char} (free : isBracket ch = false)
    (start : Nat) (inStr : Bool) : Opened ⟨p.cur ++ [ch], start, inStr⟩ := by
  by_cases none : p.cur = []
  · rw [none]
    exact ⟨by simpa using free, fun _ => List.cons_ne_nil _ _⟩
  · exact opened.more none [ch] start inStr

/-- A token that is a bracket stands where the text has it. -/
def Placed (input : List Char) (token : Token) : Prop :=
  ∀ b, isBracket b = true → token.text = [b] → input[token.offset]? = some b

theorem placed_of_free {text : List Char} (free : ∀ c ∈ text.head?, isBracket c = false)
    (input : List Char) (start : Nat) : Placed input ⟨text, start⟩ := by
  intro b bracket same
  have same : text = [b] := same
  rw [free b (by simp [same])] at bracket
  exact absurd bracket Bool.false_ne_true

theorem placed_flush {p : Pending} (opened : Opened p) (input : List Char) :
    ∀ t ∈ flush p, Placed input t := by
  intro t mem
  rw [flush] at mem
  split at mem
  · exact absurd mem List.not_mem_nil
  · rw [List.mem_singleton.mp mem]
    exact placed_of_free opened.free input p.start

theorem getElem_of_suffix {input rest : List Char} {ch : Char} (suffix : ch :: rest <:+ input) :
    input[input.length - (rest.length + 1)]? = some ch := by
  rcases suffix with ⟨before, rfl⟩
  simp

/-- One turn pushes brackets where they are, and what it leaves begins with none. -/
theorem turn_placed {input rest : List Char} {p : Pending} {ch : Char} (opened : Opened p)
    (suffix : ch :: rest <:+ input) :
    (∀ t ∈ (turn input.length p ch rest).pushed, Placed input t) ∧
      Opened (turn input.length p ch rest).next := by
  have flushed := placed_flush opened input
  have name (text : List Char) (i : Nat) : ∀ t ∈ flush p ++ [⟨'#' :: text, i⟩], Placed input t := by
    intro t mem
    rcases List.mem_append.mp mem with mem | mem
    · exact flushed t mem
    · rw [List.mem_singleton.mp mem]
      exact placed_of_free (by simp; decide) input i
  have within (quoted : branch p.inStr ch rest = .escape ∨ branch p.inStr ch rest = .closing ∨
      branch p.inStr ch rest = .inside) : p.cur ≠ [] := by
    apply opened.quoted
    by_contra outside
    rw [Bool.eq_false_of_not_eq_true outside] at quoted
    have outside := branch_of_inStr (rfl : branch false ch rest = _)
    rcases quoted with taken | taken | taken
    · exact outside.1 taken
    · exact outside.2.1 taken
    · exact outside.2.2 taken
  have none : ∀ t ∈ ([] : List Token), Placed input t := fun t mem =>
    absurd mem List.not_mem_nil
  rw [turn]
  cases taken : branch p.inStr ch rest with
  | escape => exact ⟨none, opened.more (within (.inl taken)) _ _ _⟩
  | closing =>
    refine ⟨?_, opened_clear _⟩
    intro t mem
    rw [List.mem_singleton.mp mem]
    exact placed_of_free (opened.more (within (.inr (.inl taken))) _ 0 false).free input _
  | inside => exact ⟨none, opened.more (within (.inr (.inr taken))) _ _ _⟩
  | opening =>
    rw [branch_opening taken]
    exact ⟨none, opened.push rfl _ _⟩
  | lineComment | blockComment | space => exact ⟨flushed, opened_clear _⟩
  | quote | quasiquote | unquoteSplicing | unquote => exact ⟨name _ _, opened_clear _⟩
  | charLiteral =>
    refine ⟨?_, opened_clear _⟩
    dsimp only
    split
    · rw [List.append_nil]
      exact flushed
    · exact name _ _
  | bracket =>
    refine ⟨?_, opened_clear _⟩
    intro t mem
    rcases List.mem_append.mp mem with mem | mem
    · exact flushed t mem
    · rw [List.mem_singleton.mp mem]
      intro b _ same
      rw [← List.head_eq_of_cons_eq same]
      exact getElem_of_suffix suffix
  | letter => exact ⟨none, opened.push (isBracket_of_isPlain (branch_letter taken)) _ _⟩

theorem scan_placed {input rest : List Char} {p : Pending} (opened : Opened p)
    (suffix : rest <:+ input) : ∀ t ∈ scan input.length p rest, Placed input t := by
  induction p, rest using scan.induct input.length with
  | case1 p =>
    rw [scan]
    exact placed_flush opened input
  | case2 p ch rest ih =>
    rcases turn_placed opened suffix with ⟨pushed, next⟩
    have onward := (turn_suffix input.length p ch rest).trans (List.suffix_cons ch rest)
    intro t mem
    rw [scan] at mem
    rcases List.mem_append.mp mem with mem | mem
    · exact pushed t mem
    · exact ih next (onward.trans suffix) t mem

theorem tokenize_placed (input : List Char) : ∀ t ∈ tokenize input, Placed input t :=
  scan_placed (opened_clear 0) (List.suffix_refl input)

/-! ### The tokens of failures -/

/-- The token whose place a failure's text gives. -/
def Failure.token : Failure → Option Token
  | .missing _ opening => some opening
  | .unexpected token => some token
  | .endOfInput | .sliced => none

/-- A failure that gives a place gives that of a bracket among the tokens. -/
def At (tokens : List Token) (f : Failure) : Prop :=
  ∀ token ∈ f.token, token ∈ tokens ∧ ∃ b, isBracket b = true ∧ token.text = [b]

theorem at_of_none {tokens : List Token} {f : Failure} (none : f.token = none) : At tokens f := by
  intro token mem
  rw [none] at mem
  cases mem

theorem at_of_bracket {tokens : List Token} {f : Failure} {token : Token} {b : Char}
    (place : f.token = some token) (mem : token ∈ tokens) (bracket : isBracket b = true)
    (text : token.text = [b]) : At tokens f := by
  intro t same
  rw [place] at same
  cases same
  exact ⟨mem, b, bracket, text⟩

theorem parseForms_at (lib : Library) (tokens : List Token) {f : Failure}
    (failed : parseForms lib tokens = .error f) : At tokens f := by
  cases parseForms_origin failed with
  | endOfInput => exact at_of_none rfl
  | missing mem bracket text => exact at_of_bracket rfl mem bracket text
  | unexpected mem bracket text => exact at_of_bracket rfl mem bracket text
  | literal mem refused => exact at_of_none (by rw [(literal_error refused).1]; rfl)

/-! ### What is reported -/

def offsetWalk (offset : Nat) (i line col : Nat) : List Char → Nat × Nat
  | [] => (line, col)
  | ch :: rest =>
      if offset ≤ i then (line, col)
      else if ch = '\n' then offsetWalk offset (i + ch.utf8Size) (line + 1) 1 rest
      else offsetWalk offset (i + ch.utf8Size) line (col + 1) rest

/-- `offset_to_line_col`, which takes the offset as one in bytes. -/
def offsetToLineCol (input : List Char) (offset : Nat) : Nat × Nat := offsetWalk offset 0 1 1 input

theorem offsetWalk_eq (offset i : Nat) (before rest : List Char) :
    offsetWalk offset i (lineCol before).1 (lineCol before).2 rest =
      lineCol (before ++ rest.take (reach Char.utf8Size offset i rest)) := by
  induction rest generalizing i before with
  | nil => simp [offsetWalk]
  | cons ch rest ih =>
    have step := ih (i + ch.utf8Size) (before ++ [ch])
    rw [lineCol_concat, advance, List.append_assoc] at step
    rw [offsetWalk, reach]
    split
    · rw [List.take_zero, List.append_nil]
    · rw [List.take_succ_cons]
      by_cases newline : ch = '\n'
      · rw [if_pos newline] at step ⊢
        exact step
      · rw [if_neg newline] at step ⊢
        exact step

theorem offsetToLineCol_eq (input : List Char) (offset : Nat) :
    offsetToLineCol input offset =
      lineCol (input.take (reach Char.utf8Size offset 0 input)) :=
  offsetWalk_eq offset 0 [] input

/-- At a number of characters the walk gives its place where those before the last one are ASCII. -/
theorem offsetToLineCol_count_iff {input : List Char} {k : Nat} (within : k ≤ input.length) :
    offsetToLineCol input k = lineCol (input.take k) ↔
      ∀ c ∈ input.take (k - 1), c.utf8Size = 1 := by
  rw [offsetToLineCol_eq, ← reach_count_iff Char.utf8Size_pos within]
  constructor
  · exact lineCol_take_inj (reach_le _ _ _) within
  · intro same
    rw [same]

theorem offsetToLineCol_byteLen (before after : List Char) :
    offsetToLineCol (before ++ after) (byteLen before) = lineCol before := by
  have walked := reach_width Char.utf8Size_pos before after
  rw [offsetToLineCol_eq]
  exact (congrArg (fun k => lineCol ((before ++ after).take k)) walked).trans
    (by rw [List.take_left])

/-- `loc` -/
def loc (input : List Char) (token : Token) : String :=
  let (line, col) := offsetToLineCol input token.offset
  " at line " ++ toString line ++ ", col " ++ toString col

/-- The text of the error; a slice that ends inside a character gives none. -/
def Failure.message (input : List Char) : Failure → Option String
  | .endOfInput => some "unexpected end of input"
  | .missing close opening =>
      some ("missing closing `" ++ String.singleton close ++ "`" ++ loc input opening)
  | .unexpected token => some ("unexpected `" ++ String.ofList token.text ++ "`" ++ loc input token)
  | .sliced => none

/-! ### The annotation of errors -/

/-- The classes of characters that the candidates are made of. -/
structure Classes where
  isAlphabetic : Char → Bool
  isAlphanumeric : Char → Bool

variable (classes : Classes)

/-- What stands between the first two apostrophes, if it looks like a name. -/
def quotedName (head : List Char) : List (List Char) :=
  match (head.splitOn '\'')[1]? with
  | none => []
  | some name =>
      if name.isEmpty then []
      else if name.all (fun c => classes.isAlphanumeric c ||
        "-_./:!<>?*+=@#$%&".toList.contains c) then [name]
      else []

def trimMatches (p : Char → Bool) (word : List Char) : List Char :=
  ((word.dropWhile p).reverse.dropWhile p).reverse

def splitWhitespace (text : List Char) : List (List Char) :=
  (text.splitOnP isWhitespace).filter (· ≠ [])

def words (head : List Char) : List (List Char) :=
  ((splitWhitespace head).map
    (trimMatches (fun c => !classes.isAlphanumeric c && !"-_.".toList.contains c))).filter
    (fun w => 1 < byteLen w ∧
      (w.head?.map (fun c => classes.isAlphabetic c || c = '_')).getD false)

def candidates (head : List Char) : List (List Char) :=
  quotedName classes head ++ words classes head

/-- What stands before the first place where the pattern begins, and what follows it. -/
def find (pat : List Char) : List Char → Option (List Char × List Char)
  | [] => if pat = [] then some ([], []) else none
  | c :: rest =>
      if pat.isPrefixOf (c :: rest) then some ([], (c :: rest).drop pat.length)
      else (find pat rest).map fun (before, after) => (c :: before, after)

theorem find_eq {pat text before after : List Char} (found : find pat text = some (before, after)) :
    text = before ++ pat ++ after := by
  induction text generalizing before with
  | nil =>
    rw [find] at found
    split at found
    · rename_i none
      cases found
      rw [none]
      rfl
    · cases found
  | cons c rest ih =>
    rw [find] at found
    split at found
    · rename_i begins
      cases found
      exact (List.prefix_iff_eq_append.mp (List.isPrefixOf_iff_prefix.mp begins)).symm
    · rcases Option.map_eq_some_iff.mp found with ⟨⟨upTo, rest'⟩, later, same⟩
      cases same
      rw [ih later]
      rfl

/-- The byte at which a call's head stands, the definitions' own headers left out. `passed` has been
searched. -/
def callSite (head : List Char) (passed rest : List Char) : Option Nat :=
  match _found : find ('(' :: head) rest with
  | none => none
  | some (before, after) =>
      let upTo := passed ++ before
      if 8 ≤ byteLen upTo ∧ "(define ".toList.isSuffixOf upTo then
        callSite head (upTo ++ '(' :: head) after
      else some (byteLen upTo)
termination_by rest.length
decreasing_by
  rw [find_eq _found]
  simp only [List.length_append, List.length_cons]
  omega

/-- The head in a message that begins with `in call (head`. -/
def callHead (head : List Char) : Option (List Char) :=
  (stripPrefix "in call (".toList head).map
    (·.takeWhile fun c => !(isWhitespace c || c = ')'))

/-- A token's text without the quotes around it. -/
def bare (text : List Char) : List Char :=
  ((stripSuffix ['"'] text).bind (stripPrefix ['"'])).getD text

def withLine (err label : List Char) (input : List Char) (offset : Nat) : List Char :=
  err ++ " (".toList ++ label ++ " line ".toList ++
    (toString (offsetToLineCol input offset).1).toList ++ ")".toList

/-- The message with the line of the first token that is a candidate. -/
def annotateByWord (err input label : List Char) (candidates : List (List Char)) : List Char :=
  match candidates.findSome? (fun cand => (tokenize input).find? (bare ·.text = cand)) with
  | some token => withLine err label input token.offset
  | none => err

def annotateTypeErrorLabel (err input label : List Char) : List Char :=
  if err.isEmpty ∨ input.isEmpty then err
  else if (find " at line ".toList err).isSome then err
  else
    let head := err.takeWhile (· ≠ ';')
    match (callHead head).filter (!·.isEmpty) with
    | none => annotateByWord err input label (candidates classes head)
    | some call =>
        match callSite call [] input with
        | some abs => withLine err label input abs
        | none => annotateByWord err input label (candidates classes head)

/-- A call's head is found where the text has it after a bracket, outside a definition's header. -/
theorem callSite_eq {head passed rest : List Char} {abs : Nat}
    (found : callSite head passed rest = some abs) :
    ∃ before after, passed ++ rest = before ++ '(' :: head ++ after ∧
      abs = byteLen before ∧ ¬ "(define ".toList <:+ before := by
  induction passed, rest using callSite.induct head with
  | case1 passed rest none =>
    rw [callSite] at found
    split at found
    · cases found
    · rename_i some
      rw [none] at some
      cases some
  | case2 passed rest before after here upTo header ih =>
    rw [callSite] at found
    split at found
    · cases found
    rename_i here'
    rw [here] at here'
    cases here'
    rw [if_pos header] at found
    rcases ih found with ⟨before', after', split, place⟩
    refine ⟨before', after', ?_, place⟩
    rw [← split, find_eq here]
    simp [upTo]
  | case3 passed rest before after here upTo other =>
    rw [callSite] at found
    split at found
    · cases found
    rename_i here'
    rw [here] at here'
    cases here'
    rw [if_neg other] at found
    refine ⟨upTo, after, ?_, (Option.some.inj found).symm, ?_⟩
    · rw [find_eq here]
      simp [upTo]
    · intro header
      refine other ⟨?_, List.isSuffixOf_iff_suffix.mpr header⟩
      rcases header with ⟨start, same⟩
      have long : width Char.utf8Size (start ++ "(define ".toList) =
          width Char.utf8Size start + width Char.utf8Size "(define ".toList := width_append _ _
      have eight : width Char.utf8Size "(define ".toList = 8 := by decide
      rw [same, eight] at long
      exact Nat.le_of_add_left_le (Nat.le_of_eq long.symm)

/-- The line that is added for a call's head is the line of the place where it was found. -/
theorem withLine_callSite {head input : List Char} {abs : Nat}
    (found : callSite head [] input = some abs) (err label : List Char) :
    ∃ before after, input = before ++ '(' :: head ++ after ∧ abs = byteLen before ∧
      ¬ "(define ".toList <:+ before ∧
      withLine err label input abs = err ++ " (".toList ++ label ++ " line ".toList ++
        (toString (lineCol before).1).toList ++ ")".toList := by
  rcases callSite_eq found with ⟨before, after, split, place, outside⟩
  rw [List.nil_append] at split
  refine ⟨before, after, split, place, outside, ?_⟩
  rw [withLine, place, split, List.append_assoc before, offsetToLineCol_byteLen]

theorem annotate_callSite {classes : Classes} {err input label call : List Char} {abs : Nat}
    (fresh : find " at line ".toList err = none)
    (headed : callHead (err.takeWhile (· ≠ ';')) = some call) (named : call ≠ [])
    (found : callSite call [] input = some abs) :
    annotateTypeErrorLabel classes err input label = withLine err label input abs := by
  have some : err ≠ [] := by
    rintro rfl
    cases headed
  have text : input ≠ [] := by
    rintro rfl
    rcases callSite_eq found with ⟨before, after, split, _⟩
    simp at split
  have filtered : (callHead (err.takeWhile (· ≠ ';'))).filter (!·.isEmpty) = Option.some call := by
    rw [headed]
    simp [named]
  have quiet : ¬ (find " at line ".toList err).isSome = true := by
    rw [fresh]
    exact Bool.false_ne_true
  rw [annotateTypeErrorLabel, if_neg (by simp [some, text]), if_neg quiet]
  simp only [filtered, found]

/-! ### Where positions are right -/

theorem message_token {f : Failure} {token : Token} (placed : token ∈ f.token)
    (input : List Char) : ∃ text, f.message input = some (text ++ loc input token) := by
  cases f with
  | endOfInput | sliced => cases placed
  | missing | unexpected =>
    cases placed
    exact ⟨_, rfl⟩

theorem parseAll_failure {lib : Library} {input : List Char} {f : Failure} {token : Token}
    (failed : parseAll lib input = .error f) (placed : token ∈ f.token) :
    ∃ b, isBracket b = true ∧ token.text = [b] ∧ input[token.offset]? = some b := by
  rw [parseAll] at failed
  split at failed
  · cases failed
  · rename_i stopped
    cases failed
    rcases parseForms_at lib _ stopped token placed with ⟨mem, b, bracket, text⟩
    exact ⟨b, bracket, text, tokenize_placed input token mem b bracket text⟩

/-- The line and column of every failure are those of its token. -/
def PlacesRight (lib : Library) (input : List Char) : Prop :=
  ∀ f, parseAll lib input = .error f → ∀ token ∈ f.token,
    offsetToLineCol input token.offset = lineCol (input.take token.offset)

/-- A failure with a place is at a bracket, and its text gives what the walk gives. That is the
place of the bracket if and only if what is before it is ASCII up to its last character. The line
that is added for a call's head is always the right one. -/
theorem placesRight_iff (lib : Library) (classes : Classes) (input : List Char) :
    (PlacesRight lib input ↔ ∀ f, parseAll lib input = .error f → ∀ token ∈ f.token,
      ∀ c ∈ input.take (token.offset - 1), c.utf8Size = 1) ∧
    (∀ f, parseAll lib input = .error f → ∀ token ∈ f.token,
      (∃ text, f.message input = some (text ++ loc input token)) ∧
      ∃ b, isBracket b = true ∧ token.text = [b] ∧ input[token.offset]? = some b) ∧
    ∀ (err label call : List Char) (abs : Nat), find " at line ".toList err = none →
      callHead (err.takeWhile (· ≠ ';')) = some call → call ≠ [] →
      callSite call [] input = some abs →
      ∃ before after, input = before ++ '(' :: call ++ after ∧ abs = byteLen before ∧
        ¬ "(define ".toList <:+ before ∧
        annotateTypeErrorLabel classes err input label = err ++ " (".toList ++ label ++
          " line ".toList ++ (toString (lineCol before).1).toList ++ ")".toList := by
  have within (f : Failure) (failed : parseAll lib input = .error f) (token : Token)
      (placed : token ∈ f.token) : token.offset ≤ input.length := by
    rcases parseAll_failure failed placed with ⟨b, _, _, here⟩
    exact Nat.le_of_lt (List.getElem?_eq_some_iff.mp here).1
  refine ⟨?_, ?_, ?_⟩
  · constructor
    · intro right f failed token placed
      exact (offsetToLineCol_count_iff (within f failed token placed)).mp
        (right f failed token placed)
    · intro ascii f failed token placed
      exact (offsetToLineCol_count_iff (within f failed token placed)).mpr
        (ascii f failed token placed)
  · intro f failed token placed
    exact ⟨message_token placed input, parseAll_failure failed placed⟩
  · intro err label call abs fresh headed named found
    rw [annotate_callSite fresh headed named found]
    exact withLine_callSite found err label

theorem comment_misplaced : ¬ ∀ (lib : Library) (input : List Char), PlacesRight lib input := by
  intro right
  have tokens : tokenize ";éé\n)".toList = [⟨[')'], 4⟩] := by
    simp [tokenize, scan, turn, branch, afterLine, flush, isBracket]
  have failed : parseAll plainLibrary ";éé\n)".toList = .error (.unexpected ⟨[')'], 4⟩) := by
    rw [parseAll, tokens]
    simp [parseForms, parse]
  have same := right plainLibrary ";éé\n)".toList _ failed _ rfl
  exact absurd same (by decide)

end LispRlm.Surface.Reader
