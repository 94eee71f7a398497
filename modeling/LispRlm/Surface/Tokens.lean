import Mathlib.Data.List.Basic
import Mathlib.Algebra.GroupWithZero.Nat

/-! The tokens of a source text and their places. -/

namespace LispRlm.Surface.Reader

/-! ### Characters -/

/-- `char::is_whitespace`, the property `White_Space`. -/
def isWhitespace (c : Char) : Bool :=
  9 ≤ c.toNat ∧ c.toNat ≤ 13 ∨ c.toNat = 0x20 ∨ c.toNat = 0x85 ∨ c.toNat = 0xA0 ∨
    c.toNat = 0x1680 ∨ 0x2000 ≤ c.toNat ∧ c.toNat ≤ 0x200A ∨ c.toNat = 0x2028 ∨
    c.toNat = 0x2029 ∨ c.toNat = 0x202F ∨ c.toNat = 0x205F ∨ c.toNat = 0x3000

def isAsciiAlphabetic (c : Char) : Bool := 'a' ≤ c ∧ c ≤ 'z' ∨ 'A' ≤ c ∧ c ≤ 'Z'

def isBracket (c : Char) : Bool := c = '(' ∨ c = ')' ∨ c = '[' ∨ c = ']'

/-- The length of a text in bytes. -/
def byteLen (text : List Char) : Nat := (text.map Char.utf8Size).sum

/-! ### The scanner -/

structure Token where
  text : List Char
  offset : Nat
deriving DecidableEq, Repr

/-- What follows a line comment. -/
def afterLine : List Char → List Char
  | [] => []
  | c :: rest => if c = '\n' then rest else afterLine rest

/-- What follows a block comment; where it does not end, the last character is left. -/
def afterBlock : List Char → List Char
  | c :: d :: rest => if c = ';' ∧ d = ')' then rest else afterBlock (d :: rest)
  | rest => rest

/-- The name of a character literal and what follows it. -/
def charName (name : List Char) : List Char → List Char × List Char
  | [] => (name, [])
  | c :: rest =>
      if isWhitespace c ∨ isBracket c then (name, c :: rest)
      else if byteLen (name ++ [c]) = 1 ∧ (rest.head?.map isAsciiAlphabetic).getD false = false then
        (name ++ [c], rest)
      else charName (name ++ [c]) rest

theorem afterLine_suffix (rest : List Char) : afterLine rest <:+ rest := by
  induction rest with
  | nil => exact List.suffix_refl _
  | cons c rest ih =>
    rw [afterLine]
    split
    · exact List.suffix_cons c rest
    · exact ih.trans (List.suffix_cons c rest)

theorem afterBlock_suffix (rest : List Char) : afterBlock rest <:+ rest := by
  induction rest using afterBlock.induct with
  | case1 c d rest ends =>
    rw [afterBlock, if_pos ends]
    exact (List.suffix_cons d rest).trans (List.suffix_cons c _)
  | case2 c d rest goes ih =>
    rw [afterBlock, if_neg goes]
    exact ih.trans (List.suffix_cons c _)
  | case3 rest short =>
    rw [afterBlock.eq_def]
    split
    · rename_i c d rest'
      exact absurd rfl (short c d rest')
    · exact List.suffix_refl _

theorem charName_suffix (name rest : List Char) : (charName name rest).2 <:+ rest := by
  induction rest generalizing name with
  | nil => exact List.suffix_refl _
  | cons c rest ih =>
    rw [charName]
    split
    · exact List.suffix_refl _
    · split
      · exact List.suffix_cons c rest
      · exact (ih _).trans (List.suffix_cons c rest)

/-- What has been read of a token, where it is taken to begin, and whether it is a string. -/
structure Pending where
  cur : List Char
  start : Nat
  inStr : Bool

def flush (p : Pending) : List Token :=
  if p.cur.isEmpty then [] else [⟨p.cur, p.start⟩]

/-- What a turn of the scanner's loop adds to the tokens and what it leaves. -/
structure Turn where
  pushed : List Token
  next : Pending
  rest : List Char

/-- The branches of the loop. -/
inductive Branch
  | escape | closing | inside | opening | lineComment | blockComment | quote | charLiteral
  | quasiquote | unquoteSplicing | unquote | bracket | space | letter
deriving DecidableEq

/-- The branch that is taken at `ch`, which `rest` follows. -/
def branch (inStr : Bool) (ch : Char) (rest : List Char) : Branch :=
  if inStr then
    if ch = '\\' ∧ rest ≠ [] then .escape else if ch = '"' then .closing else .inside
  else if ch = '"' then .opening
  else if ch = ';' then .lineComment
  else if ch = '(' ∧ rest.head? = some ';' then .blockComment
  else if ch = '\'' then .quote
  else if ch = '#' ∧ rest.head? = some '\\' then .charLiteral
  else if ch = '`' then .quasiquote
  else if ch = ',' ∧ rest.head? = some '@' then .unquoteSplicing
  else if ch = ',' then .unquote
  else if isBracket ch then .bracket
  else if isWhitespace ch then .space
  else .letter

/-- A character that continues a token, unless a character literal begins there. -/
def isPlain (c : Char) : Bool :=
  !(['"', ';', '\'', '`', ','].contains c || isBracket c || isWhitespace c)

theorem isBracket_of_isPlain {c : Char} (plain : isPlain c = true) : isBracket c = false := by
  simp only [isPlain, Bool.not_or, Bool.and_eq_true, Bool.not_eq_true'] at plain
  exact plain.1.2

theorem branch_quote (inStr : Bool) (rest : List Char) :
    branch inStr '"' rest = if inStr then .closing else .opening := by
  cases inStr with
  | false => rfl
  | true => rfl

/-- What a branch says of the character that it is taken at. -/
def Branch.Of (inStr : Bool) (ch : Char) : Branch → Prop
  | .escape | .inside => inStr = true
  | .closing => inStr = true ∧ ch = '"'
  | .opening => inStr = false ∧ ch = '"'
  | .letter => inStr = false ∧ isPlain ch = true
  | _ => inStr = false

theorem branch_of (inStr : Bool) (ch : Char) (rest : List Char) :
    (branch inStr ch rest).Of inStr ch := by
  cases inStr with
  | true =>
    rw [branch, if_pos rfl]
    split
    · rfl
    split
    · rename_i quote
      exact ⟨rfl, quote⟩
    · rfl
  | false =>
    rw [branch, if_neg Bool.false_ne_true]
    by_cases string : ch = '"'
    · rw [if_pos string]
      exact ⟨rfl, string⟩
    rw [if_neg string]
    by_cases semicolon : ch = ';'
    · rw [if_pos semicolon]
      rfl
    rw [if_neg semicolon]
    by_cases block : ch = '(' ∧ rest.head? = some ';'
    · rw [if_pos block]
      rfl
    rw [if_neg block]
    by_cases quote : ch = '\''
    · rw [if_pos quote]
      rfl
    rw [if_neg quote]
    by_cases literal : ch = '#' ∧ rest.head? = some '\\'
    · rw [if_pos literal]
      rfl
    rw [if_neg literal]
    by_cases backquote : ch = '`'
    · rw [if_pos backquote]
      rfl
    rw [if_neg backquote]
    by_cases splicing : ch = ',' ∧ rest.head? = some '@'
    · rw [if_pos splicing]
      rfl
    rw [if_neg splicing]
    by_cases comma : ch = ','
    · rw [if_pos comma]
      rfl
    rw [if_neg comma]
    by_cases bracket : isBracket ch = true
    · rw [if_pos bracket]
      rfl
    rw [if_neg bracket]
    by_cases white : isWhitespace ch = true
    · rw [if_pos white]
      rfl
    rw [if_neg white]
    exact ⟨rfl, by simp [isPlain, string, semicolon, quote, backquote, comma, bracket, white]⟩

theorem branch_of_inStr {ch : Char} {rest : List Char} {b : Branch}
    (taken : branch false ch rest = b) : b ≠ .escape ∧ b ≠ .closing ∧ b ≠ .inside := by
  have of := branch_of false ch rest
  rw [taken] at of
  refine ⟨?_, ?_, ?_⟩
  · intro same
    rw [same] at of
    exact Bool.false_ne_true of
  · intro same
    rw [same] at of
    exact Bool.false_ne_true of.1
  · intro same
    rw [same] at of
    exact Bool.false_ne_true of

theorem branch_opening {inStr : Bool} {ch : Char} {rest : List Char}
    (taken : branch inStr ch rest = .opening) : ch = '"' := by
  have of := branch_of inStr ch rest
  rw [taken] at of
  exact of.2

theorem branch_closing {inStr : Bool} {ch : Char} {rest : List Char}
    (taken : branch inStr ch rest = .closing) : ch = '"' := by
  have of := branch_of inStr ch rest
  rw [taken] at of
  exact of.2

theorem branch_letter {inStr : Bool} {ch : Char} {rest : List Char}
    (taken : branch inStr ch rest = .letter) : isPlain ch = true := by
  have of := branch_of inStr ch rest
  rw [taken] at of
  exact of.2

theorem branch_space {c : Char} (white : isWhitespace c = true) (rest : List Char) :
    branch false c rest = .space := by
  have other (d : Char) (black : isWhitespace d = false) : c ≠ d := by
    intro same
    rw [same, black] at white
    exact Bool.false_ne_true white
  have bracket : isBracket c = false := by
    simp [isBracket, other '(' rfl, other ')' rfl, other '[' rfl, other ']' rfl]
  simp [branch, other '"' rfl, other ';' rfl, other '(' rfl, other '\'' rfl, other '#' rfl,
    other '`' rfl, other ',' rfl, bracket, white]

theorem branch_plain {c : Char} (plain : isPlain c = true) (rest : List Char) :
    branch false c rest =
      if c = '#' ∧ rest.head? = some '\\' then .charLiteral else .letter := by
  have other (d : Char) (special : isPlain d = false) : c ≠ d := by
    intro same
    rw [same, special] at plain
    exact Bool.false_ne_true plain
  have bracket := isBracket_of_isPlain plain
  have white : isWhitespace c = false := by
    simp only [isPlain, Bool.not_or, Bool.and_eq_true, Bool.not_eq_true'] at plain
    exact plain.2
  simp [branch, other '"' rfl, other ';' rfl, other '(' rfl, other '\'' rfl, other '`' rfl,
    other ',' rfl, bracket, white]

theorem branch_bracket {b : Char} (known : isBracket b = true) {rest : List Char}
    (apart : ¬ (b = '(' ∧ rest.head? = some ';')) : branch false b rest = .bracket := by
  have other (d : Char) (unknown : isBracket d = false) : b ≠ d := by
    intro same
    rw [same, unknown] at known
    exact Bool.false_ne_true known
  simp [branch, other '"' rfl, other ';' rfl, other '\'' rfl, other '#' rfl, other '`' rfl,
    other ',' rfl, apart, known]

/-- A turn at `ch` in a text of `len` characters. -/
def turn (len : Nat) (p : Pending) (ch : Char) (rest : List Char) : Turn :=
  let i := len - (rest.length + 1)
  let clear : Pending := ⟨[], p.start, false⟩
  match branch p.inStr ch rest with
  | .escape => ⟨[], ⟨p.cur ++ ch :: rest.take 1, p.start, true⟩, rest.tail⟩
  | .closing => ⟨[⟨p.cur ++ [ch], p.start⟩], clear, rest⟩
  | .inside => ⟨[], ⟨p.cur ++ [ch], p.start, true⟩, rest⟩
  | .opening => ⟨[], ⟨p.cur ++ [ch], i, true⟩, rest⟩
  | .lineComment => ⟨flush p, clear, afterLine rest⟩
  | .blockComment => ⟨flush p, clear, afterBlock rest.tail⟩
  | .quote => ⟨flush p ++ [⟨"#quote".toList, i⟩], clear, rest⟩
  | .charLiteral =>
      let (name, after) := charName [] rest.tail
      ⟨flush p ++ (if rest.tail = [] then [] else [⟨"#char:".toList ++ name, i⟩]),
        ⟨[], i, false⟩, after⟩
  | .quasiquote => ⟨flush p ++ [⟨"#quasiquote".toList, i⟩], clear, rest⟩
  | .unquoteSplicing => ⟨flush p ++ [⟨"#unquote-splicing".toList, i⟩], clear, rest.tail⟩
  | .unquote => ⟨flush p ++ [⟨"#unquote".toList, i⟩], clear, rest⟩
  | .bracket => ⟨flush p ++ [⟨[ch], i⟩], clear, rest⟩
  | .space => ⟨flush p, clear, rest⟩
  | .letter => ⟨[], ⟨p.cur ++ [ch], if p.cur.isEmpty then i else p.start, false⟩, rest⟩

theorem turn_suffix (len : Nat) (p : Pending) (ch : Char) (rest : List Char) :
    (turn len p ch rest).rest <:+ rest := by
  have tail := List.tail_suffix rest
  rw [turn]
  cases branch p.inStr ch rest with
  | lineComment => exact afterLine_suffix rest
  | blockComment => exact (afterBlock_suffix rest.tail).trans tail
  | charLiteral => exact (charName_suffix [] rest.tail).trans tail
  | escape | unquoteSplicing => exact tail
  | closing | inside | opening | quote | quasiquote | unquote | bracket | space | letter =>
    exact List.suffix_refl rest

def scan (len : Nat) (p : Pending) : List Char → List Token
  | [] => flush p
  | ch :: rest =>
      (turn len p ch rest).pushed ++ scan len (turn len p ch rest).next (turn len p ch rest).rest
termination_by rest => rest.length
decreasing_by exact Nat.lt_succ_of_le (turn_suffix len p ch rest).length_le

def tokenize (input : List Char) : List Token := scan input.length ⟨[], 0, false⟩ input

example : tokenize "a ; c\n(b \"x\\\"\" #\\space)".toList =
    [⟨"a".toList, 0⟩, ⟨"(".toList, 6⟩, ⟨"b".toList, 7⟩, ⟨"\"x\\\"\"".toList, 9⟩,
      ⟨"#char:space".toList, 15⟩, ⟨")".toList, 22⟩] := by decide +kernel

end LispRlm.Surface.Reader
