import LispRlm.Surface.Tokens
import LispRlm.Surface.DotimesLowering

/-! The reader: the expressions that a source text stands for. -/

namespace LispRlm.Surface.Reader

open Bytecode (LispVal)

/-- What the standard library makes of texts and floats; a float is given by its bits. -/
structure Library where
  toLowercase : List Char → List Char
  fromUtf8Lossy : List UInt8 → String
  parseF64 : List Char → Option UInt64
  divF64 : UInt64 → UInt64 → UInt64

/-! ### Atoms -/

def digitValue (c : Char) : Option Nat :=
  if c.isDigit then some (c.toNat - 48)
  else if 'a' ≤ c ∧ c ≤ 'z' then some (c.toNat - 87)
  else if 'A' ≤ c ∧ c ≤ 'Z' then some (c.toNat - 55)
  else none

def digitsValue (radix : Nat) : Nat → List Char → Option Nat
  | acc, [] => some acc
  | acc, c :: cs =>
      match digitValue c with
      | some d => if d < radix then digitsValue radix (acc * radix + d) cs else none
      | none => none

/-- The digits of a number, of which there is at least one. -/
def natural (radix : Nat) : List Char → Option Nat
  | [] => none
  | cs => digitsValue radix 0 cs

def parseU64 (radix : Nat) (s : List Char) : Option UInt64 :=
  let digits := if s.head? = some '+' then s.tail else s
  match natural radix digits with
  | some n => if n < 2 ^ 64 then some (UInt64.ofNat n) else none
  | none => none

def parseI64 : List Char → Option Int64
  | '-' :: digits =>
      match natural 10 digits with
      | some n => if n ≤ 2 ^ 63 then some (Int64.ofInt (-n)) else none
      | none => none
  | s =>
      let digits := if s.head? = some '+' then s.tail else s
      match natural 10 digits with
      | some n => if n < 2 ^ 63 then some (Int64.ofNat n) else none
      | none => none

def stripPrefix (pat s : List Char) : Option (List Char) :=
  if pat.isPrefixOf s then some (s.drop pat.length) else none

def stripSuffix (pat s : List Char) : Option (List Char) :=
  if pat.isSuffixOf s then some (s.take (s.length - pat.length)) else none

/-- A zero of either sign. -/
def isZeroF64 (bits : UInt64) : Bool := bits = 0 ∨ bits = 0x8000000000000000

def special (s : List Char) : Option UInt64 :=
  if s = "+nan.0".toList ∨ s = "+nan.0f".toList ∨ s = "nan".toList then some 0x7FF8000000000000
  else if s = "+inf.0".toList ∨ s = "+inf.0f".toList ∨ s = "+inf".toList then
    some 0x7FF0000000000000
  else if s = "-inf.0".toList ∨ s = "-inf.0f".toList ∨ s = "-inf".toList then
    some 0xFFF0000000000000
  else none

/-- A fraction such as `3/4`. -/
def fraction (lib : Library) (s : List Char) : Option UInt64 :=
  match s.splitOn '/' with
  | [num, den] =>
      if s.head? = some '/' then none
      else
        match lib.parseF64 num, lib.parseF64 den with
        | some num, some den => if isZeroF64 den then none else some (lib.divF64 num den)
        | _, _ => none
  | _ => none

/-- A literal such as `0xFFu64` or `123u64`. -/
def suffixed (s : List Char) : Option UInt64 :=
  match stripSuffix "u64".toList s with
  | none => none
  | some stripped =>
      if stripped.isEmpty then none
      else
        match stripPrefix "0x".toList stripped, stripPrefix "0X".toList stripped with
        | some hex, _ => parseU64 16 hex
        | none, some hex => parseU64 16 hex
        | none, none => parseU64 10 stripped

def atom (lib : Library) (s : List Char) : LispVal :=
  match special s, fraction lib s, suffixed s, parseI64 s with
  | some bits, _, _, _ => .float bits
  | none, some bits, _, _ => .float bits
  | none, none, some n, _ => .u64 n
  | none, none, none, some n => .num n
  | none, none, none, none =>
      if s.contains '.' then
        match lib.parseF64 s with
        | some bits => .float bits
        | none => .sym (String.ofList s)
      else .sym (String.ofList s)

/-! ### Character and string literals -/

def namedChar (lib : Library) (name : List Char) : Char :=
  let lower := lib.toLowercase name
  if lower = "space".toList then ' '
  else if lower = "newline".toList then '\n'
  else if lower = "tab".toList then '\t'
  else if lower = "return".toList then '\r'
  else if lower = "nul".toList ∨ lower = "null".toList then '\x00'
  else if lower = "delete".toList ∨ lower = "del".toList then '\x7f'
  else if lower = "escape".toList then '\x1b'
  else lower.head?.getD '\x00'

def hexVal (b : UInt8) : Option UInt8 :=
  if 48 ≤ b ∧ b ≤ 57 then some (b - 48)
  else if 97 ≤ b ∧ b ≤ 102 then some (b - 87)
  else if 65 ≤ b ∧ b ≤ 70 then some (b - 55)
  else none

/-- What stands for a byte after a backslash. -/
def shortEscape (b : UInt8) : Option UInt8 :=
  if b = 110 then some 10
  else if b = 116 then some 9
  else if b = 114 then some 13
  else if b = 48 then some 0
  else if b = 92 then some 92
  else if b = 34 then some 34
  else none

def hexEscape : List UInt8 → Option UInt8
  | 120 :: hi :: lo :: _ =>
      match hexVal hi, hexVal lo with
      | some h, some l => some (h <<< 4 ||| l)
      | _, _ => none
  | _ => none

/-- The bytes between the quotes with their escapes replaced; other escapes stay as they are. -/
def unescape : List UInt8 → List UInt8
  | [] => []
  | b :: rest =>
      match if b = 92 then rest.head?.bind shortEscape else none,
        if b = 92 then hexEscape rest else none with
      | some e, _ => e :: unescape rest.tail
      | none, some e => e :: unescape (rest.drop 3)
      | none, none => b :: unescape rest
termination_by bytes => bytes.length
decreasing_by all_goals simp only [List.length_cons, List.length_tail, List.length_drop]; omega

/-! ### Expressions -/

inductive Failure
  | endOfInput
  | missing (close : Char) (opening : Token)
  | unexpected (token : Token)
  /-- The program stops, as a slice ends inside a character. -/
  | sliced

/-- A string literal's text between its first and its last byte. -/
def quoted (s : List Char) : Except Failure (List Char) :=
  match s.tail.getLast? with
  | none => .ok []
  | some last => if last.utf8Size = 1 then .ok s.tail.dropLast else .error .sliced

def stringLiteral (lib : Library) (s : List Char) : Except Failure LispVal :=
  match quoted s with
  | .ok inner => .ok (.str (lib.fromUtf8Lossy (unescape (inner.flatMap String.utf8EncodeChar))))
  | .error f => .error f

/-- The symbol of the form that a token abbreviates. -/
def abbreviated (s : List Char) : Option String :=
  if s = "#quote".toList then some "quote"
  else if s = "#quasiquote".toList then some "quasiquote"
  else if s = "#unquote".toList then some "unquote"
  else if s = "#unquote-splicing".toList then some "unquote-splicing"
  else none

/-- What a token stands for on its own. -/
def literal (lib : Library) (s : List Char) : Except Failure LispVal :=
  match stripPrefix "#char:".toList s with
  | some name => .ok (.str (String.singleton (namedChar lib name)))
  | none =>
      if s = "nil".toList then .ok .nil
      else if s = "true".toList then .ok (.bool true)
      else if s = "false".toList then .ok (.bool false)
      else if s.head? = some '"' then stringLiteral lib s
      else .ok (atom lib s)

/-- The tokens after the first ones. -/
structure Rest (tokens : List Token) where
  left : List Token
  suffix : left <:+ tokens
  shorter : left.length < tokens.length

/-- The tokens after the first one. -/
def Rest.tail (token : Token) (tokens : List Token) : Rest (token :: tokens) :=
  ⟨tokens, List.suffix_cons _ _, Nat.lt_succ_self _⟩

def Rest.after {tokens : List Token} (token : Token) (rest : Rest tokens) :
    Rest (token :: tokens) :=
  ⟨rest.left, rest.suffix.trans (List.suffix_cons _ _), Nat.lt_succ_of_lt rest.shorter⟩

def Rest.trans {tokens : List Token} (first : Rest tokens) (second : Rest first.left) :
    Rest tokens :=
  ⟨second.left, second.suffix.trans first.suffix, Nat.lt_trans second.shorter first.shorter⟩

mutual

/-- The expression at the head of the tokens, and the tokens after it. -/
def parse (lib : Library) (tokens : List Token) : Except Failure (LispVal × Rest tokens) :=
  match tokens with
  | [] => .error .endOfInput
  | token :: tokens =>
      if token.text = ['('] then
        match parseItems lib ')' token tokens with
        | .ok (items, rest) => .ok (.list items, rest.after token)
        | .error f => .error f
      else if token.text = ['['] then
        match parseItems lib ']' token tokens with
        | .ok (items, rest) => .ok (.vec items, rest.after token)
        | .error f => .error f
      else if token.text = [')'] ∨ token.text = [']'] then .error (.unexpected token)
      else
        match abbreviated token.text with
        | some head =>
            match parse lib tokens with
            | .ok (inner, rest) => .ok (.list [.sym head, inner], rest.after token)
            | .error f => .error f
        | none =>
            match literal lib token.text with
            | .ok v => .ok (v, Rest.tail token tokens)
            | .error f => .error f
termination_by (tokens.length, 0)

/-- The expressions up to the bracket that closes `opening`, and the tokens after it. -/
def parseItems (lib : Library) (close : Char) (opening : Token) (tokens : List Token) :
    Except Failure (List LispVal × Rest tokens) :=
  match tokens with
  | [] => .error (.missing close opening)
  | token :: tokens =>
      if token.text = [close] then .ok ([], Rest.tail token tokens)
      else
        match parse lib (token :: tokens) with
        | .error f => .error f
        | .ok (item, rest) =>
            match parseItems lib close opening rest.left with
            | .ok (items, rest') => .ok (item :: items, rest.trans rest')
            | .error f => .error f
termination_by (tokens.length, 1)
decreasing_by
  · exact Prod.Lex.right _ Nat.zero_lt_one
  · exact Prod.Lex.left _ _ rest.shorter

end

def parseForms (lib : Library) (tokens : List Token) : Except Failure (List LispVal) :=
  match tokens with
  | [] => .ok []
  | token :: tokens =>
      match parse lib (token :: tokens) with
      | .error f => .error f
      | .ok (form, rest) =>
          match parseForms lib rest.left with
          | .ok forms => .ok (form :: forms)
          | .error f => .error f
termination_by tokens.length
decreasing_by exact rest.shorter

def parseAll (lib : Library) (input : List Char) : Except Failure (List LispVal) :=
  match parseForms lib (tokenize input) with
  | .ok exprs => .ok (Dotimes.desugarItems 0 exprs).1
  | .error f => .error f

/-- The library where only the texts of the example matter. -/
def plainLibrary : Library := ⟨id, fun _ => "", fun _ => none, fun x _ => x⟩

/-! ### Failures -/

theorem quoted_error {s : List Char} {f : Failure} (failed : quoted s = .error f) :
    f = .sliced ∧ ∃ last, s.tail.getLast? = some last ∧ last.utf8Size ≠ 1 := by
  rw [quoted] at failed
  split at failed
  · cases failed
  · rename_i last ends
    split at failed
    · cases failed
    · rename_i wide
      cases failed
      exact ⟨rfl, last, ends, wide⟩

/-- Only a literal whose last character is wide fails, and a quote begins it. -/
theorem literal_error {lib : Library} {s : List Char} {f : Failure}
    (failed : literal lib s = .error f) :
    f = .sliced ∧ s.head? = some '"' ∧ ∃ last, s.tail.getLast? = some last ∧ last.utf8Size ≠ 1 := by
  rw [literal] at failed
  repeat' split at failed
  case h_2.isFalse.isFalse.isFalse.isTrue =>
    rename_i quote
    rw [stringLiteral] at failed
    split at failed
    · cases failed
    · rename_i cut
      cases failed
      rcases quoted_error cut with ⟨sliced, last⟩
      exact ⟨sliced, quote, last⟩
  all_goals cases failed

/-- What among the tokens a failure comes from. -/
inductive Origin (lib : Library) (tokens : List Token) : Failure → Prop
  | endOfInput : Origin lib tokens .endOfInput
  | missing {close b : Char} {opening : Token} (mem : opening ∈ tokens)
      (bracket : isBracket b = true) (text : opening.text = [b]) :
      Origin lib tokens (.missing close opening)
  | unexpected {b : Char} {token : Token} (mem : token ∈ tokens) (bracket : isBracket b = true)
      (text : token.text = [b]) : Origin lib tokens (.unexpected token)
  | literal {token : Token} {f : Failure} (mem : token ∈ tokens)
      (refused : literal lib token.text = .error f) : Origin lib tokens f

theorem Origin.mono {lib : Library} {tokens more : List Token} {f : Failure}
    (origin : Origin lib tokens f) (within : tokens ⊆ more) : Origin lib more f := by
  cases origin with
  | endOfInput => exact .endOfInput
  | missing mem bracket text => exact .missing (within mem) bracket text
  | unexpected mem bracket text => exact .unexpected (within mem) bracket text
  | literal mem refused => exact .literal (within mem) refused

theorem parse_nil {lib : Library} {f : Failure} (failed : parse lib [] = .error f) :
    f = .endOfInput := by
  rw [parse] at failed
  cases failed
  rfl

theorem parseItems_nil {lib : Library} {close : Char} {opening : Token} {f : Failure}
    (failed : parseItems lib close opening [] = .error f) : f = .missing close opening := by
  rw [parseItems] at failed
  cases failed
  rfl

/-- The expressions that `parse` reads of the tokens and the failures that it ends in, once the
failures of the tokens after the first one are known. -/
theorem parse_cons_origin {lib : Library} {token : Token} {tokens : List Token}
    (parsed : ∀ f, parse lib tokens = .error f → Origin lib tokens f)
    (items : ∀ (close : Char), (∃ b, isBracket b = true ∧ token.text = [b]) →
      ∀ f, parseItems lib close token tokens = .error f → Origin lib (token :: tokens) f)
    {f : Failure} (failed : parse lib (token :: tokens) = .error f) :
    Origin lib (token :: tokens) f := by
  rw [parse] at failed
  split at failed
  · rename_i text
    split at failed
    · cases failed
    · rename_i stopped
      cases failed
      exact items _ ⟨_, rfl, text⟩ _ stopped
  split at failed
  · rename_i text
    split at failed
    · cases failed
    · rename_i stopped
      cases failed
      exact items _ ⟨_, rfl, text⟩ _ stopped
  split at failed
  · rename_i text
    cases failed
    rcases text with text | text
    · exact .unexpected List.mem_cons_self rfl text
    · exact .unexpected List.mem_cons_self rfl text
  split at failed
  · split at failed
    · cases failed
    · rename_i stopped
      cases failed
      exact (parsed _ stopped).mono (List.subset_cons_self _ _)
  · split at failed
    · cases failed
    · rename_i stopped
      cases failed
      exact .literal List.mem_cons_self stopped

theorem parseItems_cons_origin {lib : Library} {close : Char} {opening token : Token}
    {tokens : List Token}
    (parsed : ∀ f, parse lib (token :: tokens) = .error f → Origin lib (token :: tokens) f)
    (items : ∀ rest : Rest (token :: tokens),
      ∀ f, parseItems lib close opening rest.left = .error f → Origin lib (opening :: rest.left) f)
    {f : Failure} (failed : parseItems lib close opening (token :: tokens) = .error f) :
    Origin lib (opening :: token :: tokens) f := by
  rw [parseItems] at failed
  split at failed
  · cases failed
  split at failed
  · rename_i stopped
    cases failed
    exact (parsed _ stopped).mono (List.subset_cons_self _ _)
  split at failed
  · cases failed
  · rename_i rest _ _ _ stopped
    cases failed
    exact (items rest _ stopped).mono (List.cons_subset_cons opening rest.suffix.subset)

/-- By induction on how many tokens there are: a bracket's list is shorter, and what follows an
expression too. -/
theorem parse_origin (lib : Library) (n : Nat) :
    (∀ tokens : List Token, tokens.length ≤ n → ∀ f, parse lib tokens = .error f →
      Origin lib tokens f) ∧
    ∀ (close : Char) (opening : Token) (tokens : List Token), tokens.length ≤ n →
      (∃ b, isBracket b = true ∧ opening.text = [b]) →
      ∀ f, parseItems lib close opening tokens = .error f → Origin lib (opening :: tokens) f := by
  have emptyItems (close : Char) (opening : Token)
      (bracket : ∃ b, isBracket b = true ∧ opening.text = [b]) (f : Failure)
      (failed : parseItems lib close opening [] = .error f) : Origin lib [opening] f := by
    rcases bracket with ⟨b, bracket, text⟩
    rw [parseItems_nil failed]
    exact .missing List.mem_cons_self bracket text
  induction n with
  | zero =>
    constructor
    · intro tokens short f failed
      rw [List.eq_nil_of_length_eq_zero (Nat.le_zero.mp short)] at failed ⊢
      exact parse_nil failed ▸ .endOfInput
    · intro close opening tokens short bracket f failed
      rw [List.eq_nil_of_length_eq_zero (Nat.le_zero.mp short)] at failed ⊢
      exact emptyItems close opening bracket f failed
  | succ n ih =>
    have parsed : ∀ tokens : List Token, tokens.length ≤ n + 1 → ∀ f,
        parse lib tokens = .error f → Origin lib tokens f := by
      intro tokens short f failed
      cases tokens with
      | nil => exact parse_nil failed ▸ .endOfInput
      | cons token tokens =>
        have short := Nat.le_of_succ_le_succ short
        exact parse_cons_origin (ih.1 tokens short) (fun close => ih.2 close token tokens short)
          failed
    refine ⟨parsed, ?_⟩
    intro close opening tokens short bracket f failed
    cases tokens with
    | nil => exact emptyItems close opening bracket f failed
    | cons token tokens =>
      refine parseItems_cons_origin (parsed _ short) (fun rest => ?_) failed
      have fewer := Nat.le_of_lt_succ (Nat.lt_of_lt_of_le rest.shorter short)
      exact ih.2 close opening rest.left fewer bracket

theorem parseForms_origin {lib : Library} {tokens : List Token} {f : Failure}
    (failed : parseForms lib tokens = .error f) : Origin lib tokens f := by
  induction tokens using parseForms.induct lib with
  | case1 =>
    rw [parseForms] at failed
    cases failed
  | case2 token tokens g stopped =>
    rw [parseForms, stopped] at failed
    cases failed
    exact (parse_origin lib _).1 _ (Nat.le_refl _) _ stopped
  | case3 token tokens form rest parsed forms read ih =>
    rw [parseForms, parsed] at failed
    simp only [read] at failed
    cases failed
  | case4 token tokens form rest parsed g stopped ih =>
    rw [parseForms, parsed] at failed
    simp only [stopped] at failed
    cases failed
    exact (ih stopped).mono rest.suffix.subset

end LispRlm.Surface.Reader
