import LispRlm.Surface.Reader

/-! The layouts of a source text, which the reader does not tell apart where its tokens are. -/

namespace LispRlm.Surface.Reader

open Bytecode (LispVal)

/-! ### The texts of tokens -/

def texts (tokens : List Token) : List (List Char) := tokens.map Token.text

theorem texts_append (tokens more : List Token) :
    texts (tokens ++ more) = texts tokens ++ texts more := List.map_append

theorem texts_flush {p q : Pending} (cur : p.cur = q.cur) : texts (flush p) = texts (flush q) := by
  rw [flush, flush, cur]
  split
  · rfl
  · rfl

/-- Where a turn's token begins and how long the text is change places only. -/
theorem turn_texts (len len' : Nat) {p q : Pending} (cur : p.cur = q.cur)
    (inStr : p.inStr = q.inStr) (ch : Char) (rest : List Char) :
    texts (turn len p ch rest).pushed = texts (turn len' q ch rest).pushed ∧
      (turn len p ch rest).next.cur = (turn len' q ch rest).next.cur ∧
      (turn len p ch rest).next.inStr = (turn len' q ch rest).next.inStr ∧
      (turn len p ch rest).rest = (turn len' q ch rest).rest := by
  have flushed := texts_flush cur
  rw [turn, turn, inStr, cur]
  cases branch q.inStr ch rest with
  | escape | closing | inside | opening | letter => exact ⟨rfl, rfl, rfl, rfl⟩
  | lineComment | blockComment | space => exact ⟨flushed, rfl, rfl, rfl⟩
  | quote | quasiquote | unquote | unquoteSplicing | bracket =>
    refine ⟨?_, rfl, rfl, rfl⟩
    rw [texts_append, texts_append, flushed]
    rfl
  | charLiteral =>
    refine ⟨?_, rfl, rfl, rfl⟩
    dsimp only
    rw [texts_append, texts_append, flushed]
    split
    · rfl
    · rfl

theorem scan_texts (len len' : Nat) {p q : Pending} (cur : p.cur = q.cur)
    (inStr : p.inStr = q.inStr) (rest : List Char) :
    texts (scan len p rest) = texts (scan len' q rest) := by
  induction p, rest using scan.induct len generalizing q with
  | case1 p =>
    rw [scan, scan]
    exact texts_flush cur
  | case2 p ch rest ih =>
    rcases turn_texts len len' cur inStr ch rest with ⟨pushed, next, within, left⟩
    rw [scan, scan, texts_append, texts_append, pushed, ih next within, left]

/-- The texts of the tokens of what is left, of which `cur` has been read. -/
def reading (inStr : Bool) (cur rest : List Char) : List (List Char) :=
  texts (scan 0 ⟨cur, 0, inStr⟩ rest)

theorem texts_tokenize (input : List Char) : texts (tokenize input) = reading false [] input :=
  scan_texts input.length 0 rfl rfl input

/-- The text of what has been read, if there is any. -/
def held (cur : List Char) : List (List Char) := if cur.isEmpty then [] else [cur]

theorem held_of_ne {cur : List Char} (some : cur ≠ []) : held cur = [cur] := by
  rw [held, if_neg (by simpa using some)]

theorem texts_flush_eq (cur : List Char) (start : Nat) (inStr : Bool) :
    texts (flush ⟨cur, start, inStr⟩) = held cur := by
  rw [flush, held]
  split
  · rfl
  · rfl

theorem reading_nil (inStr : Bool) (cur : List Char) : reading inStr cur [] = held cur := by
  rw [reading, scan, texts_flush_eq]

theorem reading_cons (inStr : Bool) (cur : List Char) (ch : Char) (rest : List Char) :
    reading inStr cur (ch :: rest) =
      match branch inStr ch rest with
      | .escape => reading true (cur ++ ch :: rest.take 1) rest.tail
      | .closing => (cur ++ [ch]) :: reading false [] rest
      | .inside | .opening => reading true (cur ++ [ch]) rest
      | .lineComment => held cur ++ reading false [] (afterLine rest)
      | .blockComment => held cur ++ reading false [] (afterBlock rest.tail)
      | .quote => held cur ++ "#quote".toList :: reading false [] rest
      | .charLiteral =>
          held cur ++
            (if rest.tail = [] then [] else ["#char:".toList ++ (charName [] rest.tail).1]) ++
              reading false [] (charName [] rest.tail).2
      | .quasiquote => held cur ++ "#quasiquote".toList :: reading false [] rest
      | .unquoteSplicing => held cur ++ "#unquote-splicing".toList :: reading false [] rest.tail
      | .unquote => held cur ++ "#unquote".toList :: reading false [] rest
      | .bracket => held cur ++ [ch] :: reading false [] rest
      | .space => held cur ++ reading false [] rest
      | .letter => reading false (cur ++ [ch]) rest := by
  have onward (p : Pending) (left : List Char) :
      texts (scan 0 p left) = reading p.inStr p.cur left := by
    exact @scan_texts 0 0 p ⟨p.cur, 0, p.inStr⟩ rfl rfl left
  have flushed := texts_flush_eq cur 0 inStr
  rw [reading, scan, texts_append, onward, turn]
  cases branch inStr ch rest with
  | escape | closing | inside | opening | letter => rfl
  | lineComment | blockComment | space =>
    dsimp only
    rw [flushed]
  | quote | quasiquote | unquote | unquoteSplicing | bracket =>
    dsimp only
    rw [texts_append, flushed, List.append_assoc]
    rfl
  | charLiteral =>
    dsimp only
    rw [texts_append, flushed]
    congr 2
    split
    · rfl
    · rfl

/-! ### What stands between tokens -/

inductive Filler
  | space (c : Char) (white : isWhitespace c = true)
  | line (body : List Char) (one : '\n' ∉ body)
  | block (body : List Char) (inner : ¬ [';', ')'] <:+: body)

def Filler.chars : Filler → List Char
  | .space c _ => [c]
  | .line body _ => ';' :: body ++ ['\n']
  | .block body _ => '(' :: ';' :: body ++ [';', ')']

theorem afterLine_body {body : List Char} (one : '\n' ∉ body) (rest : List Char) :
    afterLine (body ++ '\n' :: rest) = rest := by
  induction body with
  | nil => rfl
  | cons c body ih =>
    have first : c ≠ '\n' := fun same => one (same ▸ List.mem_cons_self)
    rw [List.cons_append, afterLine, if_neg first]
    exact ih fun mem => one (List.mem_cons_of_mem c mem)

theorem afterLine_end {body : List Char} (one : '\n' ∉ body) : afterLine body = [] := by
  induction body with
  | nil => rfl
  | cons c body ih =>
    have first : c ≠ '\n' := fun same => one (same ▸ List.mem_cons_self)
    rw [afterLine, if_neg first]
    exact ih fun mem => one (List.mem_cons_of_mem c mem)

theorem afterBlock_body {body : List Char} (inner : ¬ [';', ')'] <:+: body) (rest : List Char) :
    afterBlock (body ++ ';' :: ')' :: rest) = rest := by
  induction body with
  | nil => rfl
  | cons c body ih =>
    have later := ih fun infix_ => inner (infix_.trans (List.suffix_cons c body).isInfix)
    cases body with
    | nil => exact (if_neg fun ends => absurd ends.2 (by decide)).trans later
    | cons d body =>
      have goes : ¬ (c = ';' ∧ d = ')') := by
        intro ends
        rw [ends.1, ends.2] at inner
        exact inner ⟨[], body, rfl⟩
      exact (if_neg goes).trans later

theorem reading_filler (f : Filler) (rest : List Char) :
    reading false [] (f.chars ++ rest) = reading false [] rest := by
  cases f with
  | space c white =>
    rw [Filler.chars, List.singleton_append, reading_cons, branch_space white]
    rfl
  | line body one =>
    rw [Filler.chars, List.append_assoc, List.cons_append, reading_cons]
    exact congrArg (reading false []) (afterLine_body one rest)
  | block body inner =>
    rw [Filler.chars, List.append_assoc, List.cons_append, reading_cons]
    exact congrArg (reading false []) (afterBlock_body inner rest)

theorem reading_gap (gap : List Filler) (rest : List Char) :
    reading false [] (gap.flatMap Filler.chars ++ rest) = reading false [] rest := by
  induction gap with
  | nil => rfl
  | cons f gap ih => rw [List.flatMap_cons, List.append_assoc, reading_filler, ih]


/-! ### Tokens as they are written -/

/-- Every quote between the quotes of a string literal follows a backslash. -/
def closedBody : List Char → Bool
  | [] => true
  | c :: rest =>
      if c = '\\' then
        match rest with
        | [] => false
        | _ :: rest => closedBody rest
      else c ≠ '"' && closedBody rest

inductive Lexeme
  | bracket (b : Char) (known : isBracket b = true)
  | quote | quasiquote | unquote | unquoteSplicing
  | char (name : List Char) (some : name ≠ [])
  | string (body : List Char) (closed : closedBody body = true)
  | atom (text : List Char) (some : text ≠ []) (plain : ∀ c ∈ text, isPlain c = true)
      (free : ¬ ['#', '\\'] <:+: text)

def Lexeme.chars : Lexeme → List Char
  | .bracket b _ => [b]
  | .quote => ['\'']
  | .quasiquote => ['`']
  | .unquote => [',']
  | .unquoteSplicing => [',', '@']
  | .char name _ => '#' :: '\\' :: name
  | .string body _ => '"' :: body ++ ['"']
  | .atom text _ _ _ => text

/-- The text of the token that it is. -/
def Lexeme.text : Lexeme → List Char
  | .bracket b _ => [b]
  | .quote => "#quote".toList
  | .quasiquote => "#quasiquote".toList
  | .unquote => "#unquote".toList
  | .unquoteSplicing => "#unquote-splicing".toList
  | .char name _ => "#char:".toList ++ name
  | .string body _ => '"' :: body ++ ['"']
  | .atom text _ _ _ => text

/-- What ends an atom: not a quote, and no more of an atom. -/
def endsAtom : List Char → Bool
  | [] => true
  | c :: rest => c ≠ '"' ∧ (isPlain c = true → c = '#' ∧ rest.head? = some '\\')

/-- What follows a token is no part of it. -/
def Lexeme.Apart (l : Lexeme) (rest : List Char) : Prop :=
  match l with
  | .bracket b _ => ¬ (b = '(' ∧ rest.head? = some ';')
  | .unquote => rest.head? ≠ some '@'
  | .char name _ => charName [] (name ++ rest) = (name, rest)
  | .atom _ _ _ _ => endsAtom rest = true
  | .quote | .quasiquote | .unquoteSplicing | .string _ _ => True

instance (rest : List Char) : (l : Lexeme) → Decidable (l.Apart rest)
  | .bracket b _ => inferInstanceAs (Decidable (¬ (b = '(' ∧ rest.head? = some ';')))
  | .unquote => inferInstanceAs (Decidable (rest.head? ≠ some '@'))
  | .char name _ => inferInstanceAs (Decidable (charName [] (name ++ rest) = (name, rest)))
  | .atom _ _ _ _ => inferInstanceAs (Decidable (endsAtom rest = true))
  | .quote | .quasiquote | .unquoteSplicing | .string _ _ => isTrue trivial

theorem reading_string {body : List Char} (closed : closedBody body = true) (cur rest : List Char) :
    reading true cur (body ++ '"' :: rest) = (cur ++ body ++ ['"']) :: reading false [] rest := by
  induction body using closedBody.induct generalizing cur with
  | case1 => rw [List.nil_append, reading_cons, List.append_nil]; rfl
  | case2 => cases closed
  | case3 d body ih =>
    rw [closedBody, if_pos rfl] at closed
    have step := ih closed (cur ++ ['\\', d])
    rw [List.append_assoc cur] at step
    exact (reading_cons _ _ _ _).trans step
  | case4 c body other ih =>
    rw [closedBody.eq_def] at closed
    simp only [other, ↓reduceIte, Bool.and_eq_true, decide_eq_true_eq] at closed
    have taken : branch true c (body ++ '"' :: rest) = .inside := by
      simp [branch, other, closed.1]
    have step := ih closed.2 (cur ++ [c])
    rw [List.append_assoc cur] at step
    rw [List.cons_append, reading_cons, taken]
    exact step

theorem reading_letters {text : List Char} (plain : ∀ c ∈ text, isPlain c = true)
    (free : ¬ ['#', '\\'] <:+: text) {rest : List Char} (ends : endsAtom rest = true)
    (cur : List Char) : reading false cur (text ++ rest) = reading false (cur ++ text) rest := by
  induction text generalizing cur with
  | nil => rw [List.nil_append, List.append_nil]
  | cons c text ih =>
    have later := ih (fun d mem => plain d (List.mem_cons_of_mem c mem))
      (fun infix_ => free (infix_.trans (List.suffix_cons c text).isInfix)) (cur ++ [c])
    have goes : ¬ (c = '#' ∧ (text ++ rest).head? = some '\\') := by
      intro begins
      cases text with
      | nil =>
        cases rest with
        | nil => exact nomatch begins.2
        | cons d rest =>
          cases begins.2
          exact absurd ends (by simp [endsAtom]; decide)
      | cons d text =>
        cases begins.1
        cases begins.2
        exact free ⟨[], text, rfl⟩
    rw [List.append_assoc] at later
    rw [List.cons_append, reading_cons, branch_plain (plain c List.mem_cons_self), if_neg goes]
    exact later

theorem reading_held {rest : List Char} (ends : endsAtom rest = true) (cur : List Char) :
    reading false cur rest = held cur ++ reading false [] rest := by
  cases rest with
  | nil =>
    rw [reading_nil, reading_nil]
    exact (List.append_nil _).symm
  | cons c rest =>
    rw [endsAtom, decide_eq_true_eq] at ends
    have outside := branch_of_inStr (rfl : branch false c rest = _)
    rw [reading_cons, reading_cons]
    cases taken : branch false c rest with
    | escape => exact absurd taken outside.1
    | closing => exact absurd taken outside.2.1
    | inside => exact absurd taken outside.2.2
    | opening => exact absurd (branch_opening taken) ends.1
    | letter =>
      have plain := branch_plain (branch_letter taken) rest
      rw [taken, if_pos (ends.2 (branch_letter taken))] at plain
      cases plain
    | charLiteral =>
      dsimp only
      rw [List.append_assoc]
      rfl
    | lineComment | blockComment | quote | quasiquote | unquote | unquoteSplicing | bracket
    | space => rfl

theorem reading_lexeme {l : Lexeme} {rest : List Char} (apart : l.Apart rest) :
    reading false [] (l.chars ++ rest) = l.text :: reading false [] rest := by
  cases l with
  | bracket b known =>
    rw [Lexeme.chars, List.singleton_append, reading_cons, branch_bracket known apart]
    rfl
  | quote | quasiquote | unquoteSplicing =>
    rw [Lexeme.chars, List.cons_append, reading_cons]
    rfl
  | unquote =>
    have taken : branch false ',' rest = .unquote := by
      have other : ¬ (',' = ',' ∧ rest.head? = some '@') := fun both => apart both.2
      simp [branch, show rest.head? ≠ some '@' from apart]
    rw [Lexeme.chars, List.singleton_append, reading_cons, taken]
    rfl
  | char name some =>
    rw [Lexeme.chars, List.cons_append, List.cons_append, reading_cons]
    have taken : branch false '#' ('\\' :: (name ++ rest)) = .charLiteral := rfl
    have more : ¬ ('\\' :: (name ++ rest)).tail = [] := List.append_ne_nil_of_left_ne_nil some rest
    have named : charName [] ('\\' :: (name ++ rest)).tail = (name, rest) := apart
    rw [taken]
    dsimp only
    rw [if_neg more, named]
    rfl
  | string body closed =>
    rw [Lexeme.chars, List.append_assoc, List.cons_append, reading_cons]
    exact reading_string closed ['"'] rest
  | atom text some plain free =>
    rw [Lexeme.chars, reading_letters plain free apart, reading_held apart, List.nil_append,
      held_of_ne some]
    rfl

/-! ### Source texts -/

/-- Tokens, each after its gap, and what follows the last one. -/
structure Source where
  items : List (List Filler × Lexeme)
  gap : List Filler
  /-- A line comment that the end of the text ends. -/
  remark : Option { body : List Char // '\n' ∉ body }

def Source.lexemes (s : Source) : List Lexeme := s.items.map Prod.snd

def Source.ending (s : Source) : List Char :=
  s.gap.flatMap Filler.chars ++ (s.remark.map (fun body => ';' :: body.val)).getD []

def spread (items : List (List Filler × Lexeme)) (ending : List Char) : List Char :=
  items.foldr (fun item after => item.1.flatMap Filler.chars ++ (item.2.chars ++ after)) ending

def Source.chars (s : Source) : List Char := spread s.items s.ending

/-- Every token is apart from what follows it. -/
def Spaced : List (List Filler × Lexeme) → List Char → Prop
  | [], _ => True
  | (_, l) :: items, ending => l.Apart (spread items ending) ∧ Spaced items ending

instance decidableSpaced : (items : List (List Filler × Lexeme)) → (ending : List Char) →
    Decidable (Spaced items ending)
  | [], _ => isTrue trivial
  | (_, l) :: items, ending =>
      let _ := decidableSpaced items ending
      inferInstanceAs (Decidable (l.Apart (spread items ending) ∧ Spaced items ending))

def Source.Spaced (s : Source) : Prop := Reader.Spaced s.items s.ending

instance (s : Source) : Decidable s.Spaced := decidableSpaced s.items s.ending

theorem reading_ending (s : Source) : reading false [] s.ending = [] := by
  rw [Source.ending, reading_gap]
  cases s.remark with
  | none => exact reading_nil false []
  | some body =>
    have skipped := congrArg (reading false []) (afterLine_end body.property)
    exact (reading_cons _ _ _ _).trans (skipped.trans (reading_nil false []))

theorem reading_spread {items : List (List Filler × Lexeme)} {ending : List Char}
    (spaced : Spaced items ending) (quiet : reading false [] ending = []) :
    reading false [] (spread items ending) = items.map (·.2.text) := by
  induction items with
  | nil => exact quiet
  | cons item items ih =>
    calc
      reading false [] (spread (item :: items) ending) =
          reading false [] (item.2.chars ++ spread items ending) := reading_gap _ _
      _ = item.2.text :: reading false [] (spread items ending) := reading_lexeme spaced.1
      _ = (item :: items).map (·.2.text) := by rw [ih spaced.2, List.map_cons]

/-- The scanner's tokens are the source's. -/
theorem tokenize_source {s : Source} (spaced : s.Spaced) :
    texts (tokenize s.chars) = s.lexemes.map Lexeme.text := by
  rw [texts_tokenize, Source.chars, reading_spread spaced (reading_ending s), Source.lexemes,
    List.map_map]
  rfl

/-! ### What is read of the same tokens -/

/-- A failure without the place of its token. -/
def Failure.unplaced : Failure → Failure
  | .missing close opening => .missing close ⟨opening.text, 0⟩
  | .unexpected token => .unexpected ⟨token.text, 0⟩
  | .endOfInput => .endOfInput
  | .sliced => .sliced

/-- The same is read, up to places, and the same tokens are left. -/
inductive Alike {α : Type} {tokens tokens' : List Token} :
    Except Failure (α × Rest tokens) → Except Failure (α × Rest tokens') → Prop
  | ok (v : α) {rest : Rest tokens} {rest' : Rest tokens'}
      (left : texts rest.left = texts rest'.left) : Alike (.ok (v, rest)) (.ok (v, rest'))
  | error {f f' : Failure} (same : f.unplaced = f'.unplaced) : Alike (.error f) (.error f')

theorem texts_cons_inj {token token' : Token} {tokens tokens' : List Token}
    (same : texts (token :: tokens) = texts (token' :: tokens')) :
    token.text = token'.text ∧ texts tokens = texts tokens' := List.cons.inj same

@[elab_as_elim]
theorem Alike.elim {α : Type} {tokens tokens' : List Token}
    {motive : Except Failure (α × Rest tokens) → Except Failure (α × Rest tokens') → Prop}
    (ok : ∀ v (rest : Rest tokens) (rest' : Rest tokens'), texts rest.left = texts rest'.left →
      motive (.ok (v, rest)) (.ok (v, rest')))
    (error : ∀ f f' : Failure, f.unplaced = f'.unplaced → motive (.error f) (.error f'))
    {r : Except Failure (α × Rest tokens)} {r' : Except Failure (α × Rest tokens')}
    (alike : Alike r r') : motive r r' := by
  cases alike with
  | ok v left => exact ok v _ _ left
  | error same => exact error _ _ same

theorem parse_cons_alike {lib : Library} {token token' : Token} {tokens tokens' : List Token}
    (same : texts (token :: tokens) = texts (token' :: tokens'))
    (parsed : Alike (parse lib tokens) (parse lib tokens'))
    (items : ∀ close : Char,
      Alike (parseItems lib close token tokens) (parseItems lib close token' tokens')) :
    Alike (parse lib (token :: tokens)) (parse lib (token' :: tokens')) := by
  rcases texts_cons_inj same with ⟨text, later⟩
  rw [parse, parse, text]
  by_cases round : token'.text = ['(']
  · rw [if_pos round, if_pos round]
    refine (items ')').elim ?_ ?_
    · intro found rest rest' left
      exact .ok _ left
    · intro f f' same
      exact .error same
  rw [if_neg round, if_neg round]
  by_cases square : token'.text = ['[']
  · rw [if_pos square, if_pos square]
    refine (items ']').elim ?_ ?_
    · intro found rest rest' left
      exact .ok _ left
    · intro f f' same
      exact .error same
  rw [if_neg square, if_neg square]
  by_cases closing : token'.text = [')'] ∨ token'.text = [']']
  · rw [if_pos closing, if_pos closing]
    exact .error (by rw [Failure.unplaced, Failure.unplaced, text])
  rw [if_neg closing, if_neg closing]
  cases abbreviated token'.text with
  | some head =>
    refine parsed.elim ?_ ?_
    · intro inner rest rest' left
      exact .ok _ left
    · intro f f' same
      exact .error same
  | none =>
    cases literal lib token'.text with
    | ok v => exact .ok v later
    | error f => exact .error rfl

theorem parseItems_cons_alike {lib : Library} {close : Char} {opening opening' token token' : Token}
    {tokens tokens' : List Token} (same : texts (token :: tokens) = texts (token' :: tokens'))
    (parsed : Alike (parse lib (token :: tokens)) (parse lib (token' :: tokens')))
    (items : ∀ (rest : Rest (token :: tokens)) (rest' : Rest (token' :: tokens')),
      texts rest.left = texts rest'.left →
        Alike (parseItems lib close opening rest.left) (parseItems lib close opening' rest'.left)) :
    Alike (parseItems lib close opening (token :: tokens))
      (parseItems lib close opening' (token' :: tokens')) := by
  rcases texts_cons_inj same with ⟨text, later⟩
  rw [parseItems, parseItems, text]
  by_cases closes : token'.text = [close]
  · rw [if_pos closes, if_pos closes]
    exact .ok [] later
  rw [if_neg closes, if_neg closes]
  refine parsed.elim ?_ ?_
  · intro item rest rest' left
    dsimp only
    refine (items rest rest' left).elim ?_ ?_
    · intro more rest₁ rest₁' left
      exact .ok (item :: more) left
    · intro f f' same
      exact .error same
  · intro f f' same
    exact .error same

/-- By induction on how many tokens there are. -/
theorem parse_alike (lib : Library) (n : Nat) :
    (∀ tokens tokens' : List Token, tokens.length ≤ n → texts tokens = texts tokens' →
      Alike (parse lib tokens) (parse lib tokens')) ∧
    ∀ (close : Char) (opening opening' : Token) (tokens tokens' : List Token),
      tokens.length ≤ n → opening.text = opening'.text → texts tokens = texts tokens' →
      Alike (parseItems lib close opening tokens) (parseItems lib close opening' tokens') := by
  have emptyItems (close : Char) {opening opening' : Token} (text : opening.text = opening'.text) :
      Alike (parseItems lib close opening []) (parseItems lib close opening' []) := by
    rw [parseItems, parseItems]
    exact .error (by rw [Failure.unplaced, Failure.unplaced, text])
  have empty : Alike (parse lib []) (parse lib []) := by
    rw [parse]
    exact .error rfl
  induction n with
  | zero =>
    constructor
    · intro tokens tokens' short same
      cases tokens with
      | cons token tokens => exact absurd short (Nat.not_succ_le_zero _)
      | nil =>
        rw [List.map_eq_nil_iff.mp same.symm]
        exact empty
    · intro close opening opening' tokens tokens' short text same
      cases tokens with
      | cons token tokens => exact absurd short (Nat.not_succ_le_zero _)
      | nil =>
        rw [List.map_eq_nil_iff.mp same.symm]
        exact emptyItems close text
  | succ n ih =>
    have parsed : ∀ tokens tokens' : List Token, tokens.length ≤ n + 1 →
        texts tokens = texts tokens' → Alike (parse lib tokens) (parse lib tokens') := by
      intro tokens tokens' short same
      cases tokens with
      | nil =>
        rw [List.map_eq_nil_iff.mp same.symm]
        exact empty
      | cons token tokens =>
        cases tokens' with
        | nil => cases same
        | cons token' tokens' =>
          have short := Nat.le_of_succ_le_succ short
          rcases texts_cons_inj same with ⟨text, later⟩
          exact parse_cons_alike same (ih.1 tokens tokens' short later) fun close =>
            ih.2 close token token' tokens tokens' short text later
    refine ⟨parsed, ?_⟩
    intro close opening opening' tokens tokens' short text same
    cases tokens with
    | nil =>
      rw [List.map_eq_nil_iff.mp same.symm]
      exact emptyItems close text
    | cons token tokens =>
      cases tokens' with
      | nil => cases same
      | cons token' tokens' =>
        apply parseItems_cons_alike same (parsed _ _ short same)
        intro rest rest' left
        have fewer := Nat.le_of_lt_succ (Nat.lt_of_lt_of_le rest.shorter short)
        exact ih.2 close opening opening' rest.left rest'.left fewer text left

/-- What a reading comes to, without places. -/
def outcome (r : Except Failure (List LispVal)) : Except Failure (List LispVal) :=
  r.mapError Failure.unplaced

@[elab_as_elim]
theorem outcome_elim
    {motive : Except Failure (List LispVal) → Except Failure (List LispVal) → Prop}
    (ok : ∀ forms, motive (.ok forms) (.ok forms))
    (error : ∀ f f' : Failure, f.unplaced = f'.unplaced → motive (.error f) (.error f'))
    {r r' : Except Failure (List LispVal)} (same : outcome r = outcome r') : motive r r' := by
  cases r with
  | ok forms =>
    cases r' with
    | ok forms' =>
      cases same
      exact ok forms
    | error f => cases same
  | error f =>
    cases r' with
    | ok forms => cases same
    | error f' => exact error f f' (Except.error.inj same)

theorem parseForms_alike {lib : Library} {tokens tokens' : List Token}
    (same : texts tokens = texts tokens') :
    outcome (parseForms lib tokens) = outcome (parseForms lib tokens') := by
  induction size : tokens.length using Nat.strongRecOn generalizing tokens tokens' with
  | _ n ih =>
  cases tokens with
  | nil => rw [List.map_eq_nil_iff.mp same.symm]
  | cons token tokens =>
    cases tokens' with
    | nil => cases same
    | cons token' tokens' =>
      rw [parseForms, parseForms]
      refine ((parse_alike lib _).1 _ _ (Nat.le_refl _) same).elim ?_ ?_
      · intro form rest rest' left
        have later := ih _ (Nat.lt_of_lt_of_eq rest.shorter size) left rfl
        dsimp only
        refine outcome_elim ?_ ?_ later
        · intro forms
          rfl
        · intro f f' same
          exact congrArg Except.error same
      · intro f f' same
        exact congrArg Except.error same

theorem parseAll_alike {lib : Library} {input input' : List Char}
    (same : texts (tokenize input) = texts (tokenize input')) :
    outcome (parseAll lib input) = outcome (parseAll lib input') := by
  have read := @parseForms_alike lib _ _ same
  rw [parseAll, parseAll]
  refine outcome_elim ?_ ?_ read
  · intro forms
    rfl
  · intro f f' same
    exact congrArg Except.error same

/-! ### Slices -/

/-- A string that is being read reaches to the end of what is read, and nothing else begins with a
quote. -/
structure Inside (input : List Char) (p : Pending) (rest : List Char) : Prop where
  whole : p.inStr = true → (p.cur ++ rest).getLast? = input.getLast?
  free : p.inStr = false → p.cur.head? ≠ some '"'

theorem inside_clear (input rest : List Char) (start : Nat) :
    Inside input ⟨[], start, false⟩ rest :=
  ⟨fun within => absurd within Bool.false_ne_true, fun _ none => by cases none⟩

theorem getLast?_of_suffix {rest input : List Char} (suffix : rest <:+ input) (some : rest ≠ []) :
    rest.getLast? = input.getLast? := by
  rcases suffix with ⟨before, rfl⟩
  exact (List.getLast?_append_of_ne_nil before some).symm

/-- Outside a string no token that ends begins with a quote. -/
theorem Inside.flush {input rest : List Char} {p : Pending} (inside : Inside input p rest)
    (outside : p.inStr = false) : ∀ t ∈ flush p, t.text.head? ≠ some '"' := by
  intro t mem
  rw [Reader.flush] at mem
  split at mem
  · exact absurd mem List.not_mem_nil
  · rw [List.mem_singleton.mp mem]
    exact inside.free outside

theorem turn_inside {input rest : List Char} {p : Pending} {ch : Char} (len : Nat)
    (inside : Inside input p (ch :: rest)) (suffix : ch :: rest <:+ input) :
    (∀ t ∈ (turn len p ch rest).pushed, t.text.head? = some '"' → t.text.getLast? = some '"') ∧
      Inside input (turn len p ch rest).next (turn len p ch rest).rest := by
  have of := branch_of p.inStr ch rest
  have flushed (outside : p.inStr = false) :
      ∀ t ∈ flush p, t.text.head? = some '"' → t.text.getLast? = some '"' :=
    fun t mem quote => absurd quote (inside.flush outside t mem)
  have named (outside : p.inStr = false) (text : List Char) (i : Nat)
      (bare : text.head? ≠ some '"') :
      ∀ t ∈ flush p ++ [⟨text, i⟩], t.text.head? = some '"' → t.text.getLast? = some '"' := by
    intro t mem quote
    rcases List.mem_append.mp mem with mem | mem
    · exact flushed outside t mem quote
    · rw [List.mem_singleton.mp mem] at quote
      exact absurd quote bare
  have nothing : ∀ t ∈ ([] : List Token), t.text.head? = some '"' → t.text.getLast? = some '"' :=
    fun t mem => absurd mem List.not_mem_nil
  have ends : (p.cur ++ ch :: rest).getLast? = input.getLast? := by
    rw [List.getLast?_append_of_ne_nil _ (List.cons_ne_nil ch rest)]
    exact getLast?_of_suffix suffix (List.cons_ne_nil ch rest)
  have grown (text : List Char) (start : Nat) (left : List Char)
      (whole : text ++ left = p.cur ++ ch :: rest) : Inside input ⟨text, start, true⟩ left :=
    ⟨fun _ => (congrArg List.getLast? whole).trans ends, fun without => by cases without⟩
  rw [turn]
  cases taken : branch p.inStr ch rest with
  | escape =>
    refine ⟨nothing, grown _ _ _ ?_⟩
    have split : rest.take 1 ++ rest.tail = rest := by rw [← List.drop_one, List.take_append_drop]
    rw [List.append_assoc, List.cons_append, split]
  | closing =>
    refine ⟨?_, inside_clear _ _ _⟩
    intro t mem _
    rw [List.mem_singleton.mp mem, branch_closing taken]
    exact List.getLast?_concat
  | inside | opening => exact ⟨nothing, grown _ _ _ (by rw [List.append_assoc]; rfl)⟩
  | lineComment | blockComment | space =>
    rw [taken] at of
    exact ⟨flushed of, inside_clear _ _ _⟩
  | quote | quasiquote | unquote | unquoteSplicing =>
    rw [taken] at of
    exact ⟨named of _ _ (by decide), inside_clear _ _ _⟩
  | charLiteral =>
    rw [taken] at of
    refine ⟨?_, inside_clear _ _ _⟩
    dsimp only
    split
    · rw [List.append_nil]
      exact flushed of
    · exact named of _ _ (by simp)
  | bracket =>
    rw [taken] at of
    refine ⟨named of _ _ ?_, inside_clear _ _ _⟩
    intro same
    rw [Option.some.inj same, branch_quote] at taken
    split at taken
    · cases taken
    · cases taken
  | letter =>
    rw [taken] at of
    refine ⟨nothing, ⟨fun within => absurd within Bool.false_ne_true, fun _ => ?_⟩⟩
    have other := inside.free of.1
    cases read : p.cur with
    | nil =>
      intro same
      have plain := of.2
      rw [Option.some.inj same] at plain
      exact absurd plain (by decide)
    | cons c cur =>
      rw [read] at other
      exact other

theorem scan_strings {input rest : List Char} {p : Pending} (len : Nat)
    (inside : Inside input p rest) (suffix : rest <:+ input) :
    ∀ t ∈ scan len p rest, t.text.head? = some '"' →
      t.text.getLast? = some '"' ∨ t.text.getLast? = input.getLast? := by
  induction p, rest using scan.induct len with
  | case1 p =>
    intro t mem quote
    rw [scan, flush] at mem
    split at mem
    · exact absurd mem List.not_mem_nil
    rw [List.mem_singleton.mp mem] at quote ⊢
    cases within : p.inStr with
    | true =>
      have whole := inside.whole within
      rw [List.append_nil] at whole
      exact .inr whole
    | false => exact absurd quote (inside.free within)
  | case2 p ch rest ih =>
    rcases turn_inside len inside suffix with ⟨pushed, next⟩
    have onward := (turn_suffix len p ch rest).trans (List.suffix_cons ch rest)
    intro t mem quote
    rw [scan] at mem
    rcases List.mem_append.mp mem with mem | mem
    · exact .inl (pushed t mem quote)
    · exact ih next (onward.trans suffix) t mem quote

/-! ### Layouts -/

/-- No literal among a source's tokens is cut. -/
theorem literal_text (lib : Library) (l : Lexeme) (f : Failure) :
    literal lib l.text ≠ .error f := by
  intro failed
  rcases literal_error failed with ⟨_, quote, last, ends, wide⟩
  cases l with
  | bracket b known =>
    have same : b = '"' := Option.some.inj quote
    rw [same] at known
    exact absurd known (by decide)
  | quote | quasiquote | unquote | unquoteSplicing =>
    exact absurd (Option.some.inj quote) (by decide)
  | char name some => exact absurd (Option.some.inj quote) (by decide)
  | string body closed =>
    have ends : (body ++ ['"']).getLast? = some last := ends
    rw [List.getLast?_concat] at ends
    rw [← Option.some.inj ends] at wide
    exact wide (by decide)
  | atom text some plain free =>
    have mem := List.mem_of_head? quote
    exact absurd (plain '"' mem) (by decide)

theorem parseAll_sliced {lib : Library} {input : List Char}
    (sliced : parseAll lib input = .error .sliced) :
    ∃ token ∈ tokenize input, literal lib token.text = .error .sliced := by
  rw [parseAll] at sliced
  split at sliced
  · cases sliced
  · rename_i stopped
    cases sliced
    cases parseForms_origin stopped with
    | literal mem refused => exact ⟨_, mem, refused⟩

/-- A slice is cut only where the text ends inside of a string, and in a wide character. -/
theorem parseAll_sliced_last {lib : Library} {input : List Char}
    (sliced : parseAll lib input = .error .sliced) :
    ∃ last, input.getLast? = some last ∧ last.utf8Size ≠ 1 := by
  rcases parseAll_sliced sliced with ⟨token, mem, refused⟩
  rcases literal_error refused with ⟨_, quote, last, ends, wide⟩
  have ends : token.text.getLast? = some last := by
    cases text : token.text with
    | nil =>
      rw [text] at quote
      cases quote
    | cons c rest =>
      rw [text, List.tail_cons] at ends
      cases rest with
      | nil => cases ends
      | cons d rest => exact ends
  rcases scan_strings input.length (inside_clear input input 0) (List.suffix_refl input) token mem
    quote with same | same
  · rw [same] at ends
    rw [← Option.some.inj ends] at wide
    exact absurd (by decide) wide
  · exact ⟨last, same.symm.trans ends, wide⟩

/-- The same tokens in two layouts, each token apart from what follows it, are read alike, and
without a cut. No text is cut whose last character is one byte. -/
theorem parseAll_layout (lib : Library) :
    (∀ s s' : Source, s.lexemes = s'.lexemes → s.Spaced → s'.Spaced →
      parseAll lib s.chars ≠ .error .sliced ∧
        outcome (parseAll lib s.chars) = outcome (parseAll lib s'.chars)) ∧
    ∀ input : List Char, parseAll lib input = .error .sliced →
      ∃ last, input.getLast? = some last ∧ last.utf8Size ≠ 1 := by
  constructor
  · intro s s' same spaced spaced'
    have read := tokenize_source spaced
    constructor
    · intro sliced
      rcases parseAll_sliced sliced with ⟨token, mem, refused⟩
      have text : token.text ∈ s.lexemes.map Lexeme.text := by
        rw [← read]
        exact List.mem_map_of_mem mem
      rcases List.mem_map.mp text with ⟨l, _, same⟩
      rw [← same] at refused
      exact literal_text lib l _ refused
    · apply parseAll_alike
      rw [read, tokenize_source spaced', same]
  · intro input sliced
    exact parseAll_sliced_last sliced

theorem letter_isPlain : ∀ c ∈ ['a'], isPlain c = true := by
  intro c mem
  rw [List.mem_singleton.mp mem]
  rfl

theorem letter_free : ¬ ['#', '\\'] <:+: ['a'] := by
  intro infix_
  exact absurd infix_.length_le (by decide)

/-- `(` in front of `a "b" )`, the second time with comments. -/
def spacedSource (gap : List Filler) : Source where
  items :=
    [([], .bracket '(' rfl),
      ([], .atom ['a'] (List.cons_ne_nil _ _) letter_isPlain letter_free),
      (.space ' ' rfl :: gap, .string ['b'] rfl),
      (gap, .bracket ')' rfl)]
  gap := []
  remark := none

def comments : List Filler :=
  [.line " (".toList (by decide), .block "\"".toList (by decide)]

theorem parseAll_layout_spaced :
    outcome (parseAll plainLibrary (spacedSource []).chars) =
      outcome (parseAll plainLibrary (spacedSource comments).chars) :=
  ((parseAll_layout plainLibrary).1 (spacedSource []) (spacedSource comments) rfl
    (of_decide_eq_true rfl) (of_decide_eq_true rfl)).2

/-- A string that is not closed is cut, or passes for one that is; a block comment that is not
closed leaves a token; and a string after an atom is no token of its own. -/
theorem unterminated_sliced :
    parseAll plainLibrary "\"é".toList = .error .sliced ∧
    parseAll plainLibrary "\"ab".toList = .ok [.str ""] ∧
    parseAll plainLibrary "(;a".toList = .ok [.sym "a"] ∧
    parseAll plainLibrary "a \"b\"".toList = .ok [.sym "a", .str ""] ∧
    parseAll plainLibrary "a\"b\"".toList = .ok [.sym "a\"b\""] := by
  have cut : tokenize "\"é".toList = [⟨"\"é".toList, 0⟩] := by
    simp [tokenize, scan, turn, branch, flush]
  have short : tokenize "\"ab".toList = [⟨"\"ab".toList, 0⟩] := by
    simp [tokenize, scan, turn, branch, flush]
  have stray : tokenize "(;a".toList = [⟨['a'], 2⟩] := by
    simp [tokenize, scan, turn, branch, flush, isBracket, afterBlock, isWhitespace]
  have two : tokenize "a \"b\"".toList = [⟨['a'], 0⟩, ⟨"\"b\"".toList, 2⟩] := by
    simp [tokenize, scan, turn, branch, flush, isBracket, isWhitespace]
  have one : tokenize "a\"b\"".toList = [⟨"a\"b\"".toList, 1⟩] := by
    simp [tokenize, scan, turn, branch, flush, isBracket, isWhitespace]
  have sym : literal plainLibrary ['a'] = .ok (.sym "a") := by rfl
  have joined : literal plainLibrary ['a', '"', 'b', '"'] = .ok (.sym "a\"b\"") := by rfl
  have string : literal plainLibrary ['"', 'b', '"'] = .ok (.str "") := by rfl
  have open_ : literal plainLibrary ['"', 'a', 'b'] = .ok (.str "") := by rfl
  have wide : literal plainLibrary ['"', 'é'] = .error .sliced := by rfl
  refine ⟨?_, ?_, ?_, ?_, ?_⟩
  · rw [parseAll, cut]
    simp [parseForms, parse, abbreviated, wide]
  · rw [parseAll, short]
    simp [parseForms, parse, abbreviated, Rest.tail, open_]
    rfl
  · rw [parseAll, stray]
    simp [parseForms, parse, abbreviated, Rest.tail, sym]
    rfl
  · rw [parseAll, two]
    simp [parseForms, parse, abbreviated, Rest.tail, sym, string]
    rfl
  · rw [parseAll, one]
    simp [parseForms, parse, abbreviated, Rest.tail, joined]
    rfl

end LispRlm.Surface.Reader
