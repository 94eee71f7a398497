import Mathlib.Data.List.Basic
import Mathlib.Data.List.TakeWhile
import Mathlib.Data.Option.Basic

/-! Reading JSON texts.

A text is a list of characters. What a number token denotes is a parameter, and so is the depth to
which arrays and objects may be nested. -/

namespace LispRlm.Foundation

/-- A JSON document over the numbers `ν`. -/
inductive Json (ν : Type)
  | null
  | bool (b : Bool)
  | num (x : ν)
  | str (s : List Char)
  | arr (items : List (Json ν))
  | obj (members : List (List Char × Json ν))

namespace Json

/-! ### Characters -/

def isWs (c : Char) : Bool := c = ' ' ∨ c = '\t' ∨ c = '\n' ∨ c = '\r'

/-- What may follow a number. -/
def isDelim (c : Char) : Bool := c = ',' ∨ c = ']' ∨ c = '\x7d' ∨ isWs c

def isNumberChar (c : Char) : Bool :=
  c.isDigit ∨ c = '-' ∨ c = '+' ∨ c = '.' ∨ c = 'e' ∨ c = 'E'

def skipWs (input : List Char) : List Char := input.dropWhile isWs

def hexValue (c : Char) : Option Nat :=
  if c.isDigit then some (c.toNat - 48)
  else if 'a' ≤ c ∧ c ≤ 'f' then some (c.toNat - 87)
  else if 'A' ≤ c ∧ c ≤ 'F' then some (c.toNat - 55)
  else none

def hex4 (a b c d : Char) : Option Nat := do
  let a ← hexValue a
  let b ← hexValue b
  let c ← hexValue c
  let d ← hexValue d
  some (((a * 16 + b) * 16 + c) * 16 + d)

/-- What stands for a character after a backslash. -/
def shortEscape : Char → Option Char
  | '"' => some '"'
  | '\\' => some '\\'
  | '/' => some '/'
  | 'b' => some '\x08'
  | 'f' => some '\x0c'
  | 'n' => some '\n'
  | 'r' => some '\r'
  | 't' => some '\t'
  | _ => none

/-- A character by its code, or by a pair of surrogates. -/
def readUnicode : List Char → Option (Char × List Char)
  | a :: b :: c :: d :: rest => do
    let high ← hex4 a b c d
    if high < 0xD800 ∨ 0xDFFF < high then some (Char.ofNat high, rest)
    else if high ≤ 0xDBFF then
      match rest with
      | '\\' :: 'u' :: e :: f :: g :: h :: rest => do
        let low ← hex4 e f g h
        if 0xDC00 ≤ low ∧ low ≤ 0xDFFF then
          some (Char.ofNat (0x10000 + (high - 0xD800) * 0x400 + (low - 0xDC00)), rest)
        else none
      | _ => none
    else none
  | _ => none

/-- What follows a backslash. -/
def readEscape : List Char → Option (Char × List Char)
  | [] => none
  | e :: rest => if e = 'u' then readUnicode rest else (shortEscape e).map fun c => (c, rest)

/-- A string's characters up to the closing quote. -/
def readChars : Nat → List Char → Option (List Char × List Char)
  | fuel + 1, c :: rest =>
    if c = '"' then some ([], rest)
    else if c = '\\' then do
      let (c, rest) ← readEscape rest
      let (s, rest) ← readChars fuel rest
      some (c :: s, rest)
    else if c.toNat < 0x20 then none
    else do
      let (s, rest) ← readChars fuel rest
      some (c :: s, rest)
  | _, _ => none

/-! ### Documents -/

section Read

variable {ν : Type} (number : List Char → Option ν)

mutual

def read : Nat → Nat → List Char → Option (Json ν × List Char)
  | fuel + 1, depth, c :: rest =>
    if isNumberChar c then do
      let x ← number ((c :: rest).takeWhile fun c => !isDelim c)
      some (.num x, (c :: rest).dropWhile fun c => !isDelim c)
    else readOther fuel depth (c :: rest)
  | _, _, _ => none

/-- Anything but a number. -/
def readOther : Nat → Nat → List Char → Option (Json ν × List Char)
  | _, _, 'n' :: 'u' :: 'l' :: 'l' :: rest => some (.null, rest)
  | _, _, 't' :: 'r' :: 'u' :: 'e' :: rest => some (.bool true, rest)
  | _, _, 'f' :: 'a' :: 'l' :: 's' :: 'e' :: rest => some (.bool false, rest)
  | fuel, _, '"' :: rest => do
    let (s, rest) ← readChars fuel rest
    some (.str s, rest)
  | fuel + 1, depth + 2, '[' :: rest =>
    match skipWs rest with
    | ']' :: rest => some (.arr [], rest)
    | rest => do
      let (items, rest) ← readItems fuel (depth + 1) rest
      some (.arr items, rest)
  | fuel + 1, depth + 2, '\x7b' :: rest =>
    match skipWs rest with
    | '\x7d' :: rest => some (.obj [], rest)
    | rest => do
      let (members, rest) ← readMembers fuel (depth + 1) rest
      some (.obj members, rest)
  | _, _, _ => none

def readItems : Nat → Nat → List Char → Option (List (Json ν) × List Char)
  | fuel + 1, depth, input => do
    let (item, rest) ← read fuel depth (skipWs input)
    match skipWs rest with
    | ',' :: rest => do
      let (items, rest) ← readItems fuel depth rest
      some (item :: items, rest)
    | ']' :: rest => some ([item], rest)
    | _ => none
  | _, _, _ => none

def readMembers : Nat → Nat → List Char → Option (List (List Char × Json ν) × List Char)
  | fuel + 1, depth, input =>
    match skipWs input with
    | '"' :: rest => do
      let (key, rest) ← readChars fuel rest
      match skipWs rest with
      | ':' :: rest => do
        let (value, rest) ← read fuel depth (skipWs rest)
        match skipWs rest with
        | ',' :: rest => do
          let (members, rest) ← readMembers fuel depth rest
          some ((key, value) :: members, rest)
        | '\x7d' :: rest => some ([(key, value)], rest)
        | _ => none
      | _ => none
    | _ => none
  | _, _, _ => none

end

/-- A whole text. -/
def readText (depth : Nat) (text : List Char) : Option (Json ν) := do
  let (document, rest) ← read number (2 * text.length + 1) depth (skipWs text)
  if skipWs rest = [] then some document else none

end Read

/-! ### Strings that stand for themselves -/

/-- A character that stands for itself in a string. -/
def Plain (c : Char) : Prop := c ≠ '"' ∧ c ≠ '\\' ∧ 0x20 ≤ c.toNat

theorem hexValue_quote : hexValue '"' = none := by decide

theorem hex4_noQuote {a b c d : Char} {n : Nat} (read : hex4 a b c d = some n) :
    '"' ∉ [a, b, c, d] := by
  intro mem
  simp only [hex4, Option.bind_eq_bind, Option.bind_eq_some_iff] at read
  rcases read with ⟨_, ha, _, hb, _, hc, _, hd, -⟩
  simp only [List.mem_cons, List.not_mem_nil, or_false] at mem
  rcases mem with same | same | same | same <;> subst same
  · cases hexValue_quote.symm.trans ha
  · cases hexValue_quote.symm.trans hb
  · cases hexValue_quote.symm.trans hc
  · cases hexValue_quote.symm.trans hd

/-- What is read of a code has no quote in it. -/
theorem readUnicode_split {input rest : List Char} {c : Char}
    (found : readUnicode input = some (c, rest)) :
    ∃ token, input = token ++ rest ∧ token ≠ [] ∧ '"' ∉ token := by
  rcases input with _ | ⟨a, _ | ⟨b, _ | ⟨c', _ | ⟨d, input⟩⟩⟩⟩
  · cases found
  · cases found
  · cases found
  · cases found
  · simp only [readUnicode, Option.bind_eq_bind, Option.bind_eq_some_iff] at found
    rcases found with ⟨high, foundHigh, found⟩
    split at found
    · cases found
      exact ⟨[a, b, c', d], rfl, List.cons_ne_nil _ _, hex4_noQuote foundHigh⟩
    · split at found
      · split at found
        · rename_i e f g h rest'
          simp only [Option.bind_eq_some_iff] at found
          rcases found with ⟨low, foundLow, found⟩
          split at found
          · have restEq := (Prod.mk.inj (Option.some.inj found)).2
            subst restEq
            refine ⟨[a, b, c', d, '\\', 'u', e, f, g, h], rfl, List.cons_ne_nil _ _, ?_⟩
            have first := hex4_noQuote foundHigh
            have second := hex4_noQuote foundLow
            simp only [List.mem_cons, List.not_mem_nil, or_false, not_or] at first second ⊢
            refine ⟨first.1, first.2.1, first.2.2.1, first.2.2.2, by decide, by decide, second⟩
          · cases found
        · cases found
      · cases found

theorem shortEscape_quote {e c : Char} (short : shortEscape e = some c) (quote : e = '"') :
    c = '"' := by
  subst quote
  exact (Option.some.inj short).symm

theorem readEscape_split {input rest : List Char} {c : Char}
    (found : readEscape input = some (c, rest)) :
    ∃ token, input = token ++ rest ∧ token ≠ [] ∧ ('"' ∈ token → c = '"') := by
  cases input with
  | nil => cases found
  | cons e input =>
    rw [readEscape] at found
    split at found
    · rename_i isU
      rcases readUnicode_split found with ⟨token, rfl, -, noQuote⟩
      refine ⟨e :: token, rfl, List.cons_ne_nil _ _, fun mem => ?_⟩
      rcases List.mem_cons.mp mem with same | later
      · rw [isU] at same
        cases same
      · exact absurd later noQuote
    · rcases Option.map_eq_some_iff.mp found with ⟨c', short, same⟩
      cases same
      refine ⟨[e], rfl, List.cons_ne_nil _ _, fun mem => ?_⟩
      exact shortEscape_quote short (List.mem_singleton.mp mem).symm

/-- A string's first quote does not come after the first quote of what it is read from, and only
comes with it where all characters up to there stand for themselves. -/
theorem readChars_quote (fuel : Nat) : ∀ {input s rest}, readChars fuel input = some (s, rest) →
    s.idxOf '"' ≤ input.idxOf '"' ∧
      (s.idxOf '"' = input.idxOf '"' → input = s ++ '"' :: rest ∧ ∀ c ∈ s, Plain c) := by
  induction fuel with
  | zero => exact fun found => nomatch found
  | succ fuel ih =>
    intro input s rest found
    cases input with
    | nil => cases found
    | cons c input =>
      rw [readChars] at found
      split at found
      · rename_i quote
        cases found
        subst quote
        exact ⟨Nat.zero_le _, fun _ => ⟨rfl, nofun⟩⟩
      · rename_i notQuote
        split at found
        · rename_i backslash
          simp only [Option.bind_eq_bind, Option.bind_eq_some_iff] at found
          rcases found with ⟨⟨c', rest'⟩, escaped, ⟨s', rest''⟩, later, same⟩
          cases same
          rcases readEscape_split escaped with ⟨token, rfl, nonempty, quoted⟩
          have before := (ih later).1
          dsimp only at before
          have short : (c' :: s').idxOf '"' < (c :: (token ++ rest')).idxOf '"' := by
            rw [List.idxOf_cons_ne _ notQuote]
            by_cases isQuote : c' = '"'
            · rw [isQuote, List.idxOf_cons_self]
              exact Nat.succ_pos _
            · have noQuote : '"' ∉ token := fun mem => isQuote (quoted mem)
              rw [List.idxOf_cons_ne _ isQuote, List.idxOf_append_of_notMem noQuote]
              have := List.length_pos_iff.mpr nonempty
              omega
          exact ⟨Nat.le_of_lt short, fun same => absurd same (Nat.ne_of_lt short)⟩
        · rename_i notBackslash
          split at found
          · cases found
          · rename_i printable
            simp only [Option.bind_eq_bind, Option.bind_eq_some_iff] at found
            rcases found with ⟨⟨s', rest'⟩, later, same⟩
            cases same
            rcases ih later with ⟨before, together⟩
            rw [List.idxOf_cons_ne _ notQuote, List.idxOf_cons_ne _ notQuote]
            refine ⟨Nat.succ_le_succ before, fun same => ?_⟩
            rcases together (Nat.succ.inj same) with ⟨rfl, plain⟩
            refine ⟨rfl, fun d mem => ?_⟩
            rcases List.mem_cons.mp mem with rfl | mem
            · exact ⟨notQuote, notBackslash, Nat.le_of_not_lt printable⟩
            · exact plain d mem

/-- Only a string whose characters stand for themselves is read from its own characters. -/
theorem plain_of_readChars {fuel : Nat} {s rest rest' : List Char}
    (found : readChars fuel (s ++ '"' :: rest) = some (s, rest')) :
    rest' = rest ∧ ∀ c ∈ s, Plain c := by
  have first : (s ++ '"' :: rest).idxOf '"' = s.idxOf '"' := by
    by_cases mem : '"' ∈ s
    · rw [List.idxOf_append_of_mem mem]
    · rw [List.idxOf_append_of_notMem mem, List.idxOf_cons_self, List.idxOf_eq_length mem,
        Nat.add_zero]
  rcases (readChars_quote fuel found).2 first.symm with ⟨same, plain⟩
  exact ⟨(List.cons.inj (List.append_cancel_left same)).2.symm, plain⟩

theorem readChars_plain {s rest : List Char} (plain : ∀ c ∈ s, Plain c) :
    ∀ {fuel}, s.length < fuel → readChars fuel (s ++ '"' :: rest) = some (s, rest) := by
  induction s with
  | nil =>
    intro fuel enough
    cases fuel with
    | zero => cases enough
    | succ fuel => simp only [readChars, List.nil_append, if_true]
  | cons c s ih =>
    intro fuel enough
    cases fuel with
    | zero => cases enough
    | succ fuel =>
      rcases plain c List.mem_cons_self with ⟨notQuote, notBackslash, printable⟩
      rw [List.cons_append, readChars, if_neg notQuote, if_neg notBackslash,
        if_neg (Nat.not_lt_of_le printable),
        ih (fun d mem => plain d (List.mem_cons_of_mem _ mem)) (Nat.lt_of_succ_lt_succ enough)]
      rfl

/-! ### Numbers in their place -/

/-- A text is over, or goes on with what may follow a number. -/
def Stops (rest : List Char) : Prop := ∀ c ∈ rest.head?, isDelim c = true

theorem takeWhile_token {t rest : List Char} (token : ∀ c ∈ t, isDelim c = false)
    (stops : Stops rest) :
    (t ++ rest).takeWhile (fun c => !isDelim c) = t ∧
      (t ++ rest).dropWhile (fun c => !isDelim c) = rest := by
  have all : ∀ c ∈ t, (!isDelim c) = true := fun c mem => by rw [token c mem]; rfl
  rw [List.takeWhile_append_of_pos all, List.dropWhile_append_of_pos all]
  cases rest with
  | nil => simp
  | cons c rest => simp [stops c rfl]

/-! ### Steps of the reader -/

theorem skipWs_cons {c : Char} (notWs : isWs c = false) (rest : List Char) :
    skipWs (c :: rest) = c :: rest := by
  rw [skipWs, List.dropWhile_cons_of_neg (by rw [notWs]; exact Bool.false_ne_true)]

section Steps

variable {ν : Type} {number : List Char → Option ν} {fuel depth : Nat}

theorem read_number {t rest : List Char} (token : ∀ c ∈ t, isNumberChar c = true)
    (nonempty : t ≠ []) (all : ∀ c ∈ t, isDelim c = false) (stops : Stops rest) :
    read number (fuel + 1) depth (t ++ rest) = (number t).map fun x => (.num x, rest) := by
  cases t with
  | nil => exact absurd rfl nonempty
  | cons c t =>
    rcases takeWhile_token all stops with ⟨taken, dropped⟩
    rw [List.cons_append] at taken dropped ⊢
    rw [read, if_pos (token c List.mem_cons_self), taken, dropped]
    cases number (c :: t) <;> rfl

theorem read_other {c : Char} (notNumber : isNumberChar c = false) (rest : List Char) :
    read number (fuel + 1) depth (c :: rest) = readOther number fuel depth (c :: rest) := by
  rw [read, if_neg (by rw [notNumber]; exact Bool.false_ne_true)]

theorem readOther_string (rest : List Char) :
    readOther number fuel depth ('"' :: rest) =
      (readChars fuel rest).map fun p => (.str p.1, p.2) := by
  cases fuel <;> cases depth <;> simp only [readOther] <;> cases readChars _ rest <;> rfl

theorem readOther_not_num {document : Json ν} {input after : List Char}
    (found : readOther number fuel depth input = some (document, after)) (x : ν) :
    document ≠ .num x := by
  rintro rfl
  unfold readOther at found
  split at found
  · cases found
  · cases found
  · cases found
  · simp only [Option.bind_eq_bind, Option.bind_eq_some_iff] at found
    rcases found with ⟨_, _, same⟩
    cases same
  · split at found
    · cases found
    · simp only [Option.bind_eq_bind, Option.bind_eq_some_iff] at found
      rcases found with ⟨_, _, same⟩
      cases same
  · split at found
    · cases found
    · simp only [Option.bind_eq_bind, Option.bind_eq_some_iff] at found
      rcases found with ⟨_, _, same⟩
      cases same
  · cases found

theorem readOther_array {document : Json ν} {rest after : List Char}
    (found : readOther number fuel depth ('[' :: rest) = some (document, after)) :
    2 ≤ depth ∧
      ((skipWs rest = ']' :: after ∧ document = .arr []) ∨
        (∀ rest', skipWs rest ≠ ']' :: rest') ∧ ∃ fuel' items,
          readItems number fuel' (depth - 1) (skipWs rest) = some (items, after) ∧
            document = .arr items) := by
  rcases fuel with _ | fuel
  · simp [readOther] at found
  · rcases depth with _ | _ | depth
    · simp [readOther] at found
    · simp [readOther] at found
    · refine ⟨by omega, ?_⟩
      simp only [readOther] at found
      split at found
      · rename_i rest' closes
        cases found
        exact .inl ⟨closes, rfl⟩
      · rename_i goes
        simp only [Option.bind_eq_bind, Option.bind_eq_some_iff] at found
        rcases found with ⟨⟨items, after'⟩, read, same⟩
        cases same
        exact .inr ⟨goes, fuel, items, read, rfl⟩

theorem readOther_object {document : Json ν} {rest after : List Char}
    (found : readOther number fuel depth ('\x7b' :: rest) = some (document, after)) :
    2 ≤ depth ∧
      ((skipWs rest = '\x7d' :: after ∧ document = .obj []) ∨
        (∀ rest', skipWs rest ≠ '\x7d' :: rest') ∧ ∃ fuel' members,
          readMembers number fuel' (depth - 1) (skipWs rest) = some (members, after) ∧
            document = .obj members) := by
  rcases fuel with _ | fuel
  · simp [readOther] at found
  · rcases depth with _ | _ | depth
    · simp [readOther] at found
    · simp [readOther] at found
    · refine ⟨by omega, ?_⟩
      simp only [readOther] at found
      split at found
      · rename_i rest' closes
        cases found
        exact .inl ⟨closes, rfl⟩
      · rename_i goes
        simp only [Option.bind_eq_bind, Option.bind_eq_some_iff] at found
        rcases found with ⟨⟨members, after'⟩, read, same⟩
        cases same
        exact .inr ⟨goes, fuel, members, read, rfl⟩

theorem readOther_items {rest : List Char} (goes : ∀ rest', skipWs rest ≠ ']' :: rest') :
    readOther number (fuel + 1) (depth + 2) ('[' :: rest) =
      (readItems number fuel (depth + 1) (skipWs rest)).map fun p => (.arr p.1, p.2) := by
  simp only [readOther]
  cases readItems number fuel (depth + 1) (skipWs rest) <;> rfl

theorem readOther_members {rest : List Char} (goes : ∀ rest', skipWs rest ≠ '\x7d' :: rest') :
    readOther number (fuel + 1) (depth + 2) ('\x7b' :: rest) =
      (readMembers number fuel (depth + 1) (skipWs rest)).map fun p => (.obj p.1, p.2) := by
  simp only [readOther]
  cases readMembers number fuel (depth + 1) (skipWs rest) <;> rfl

theorem readItems_cases {items : List (Json ν)} {input after : List Char}
    (found : readItems number fuel depth input = some (items, after)) :
    ∃ fuel' item rest, fuel = fuel' + 1 ∧
      read number fuel' depth (skipWs input) = some (item, rest) ∧
      ((∃ rest' items', skipWs rest = ',' :: rest' ∧
          readItems number fuel' depth rest' = some (items', after) ∧ items = item :: items') ∨
        skipWs rest = ']' :: after ∧ items = [item]) := by
  cases fuel with
  | zero => simp only [readItems, reduceCtorEq] at found
  | succ fuel =>
    simp only [readItems, Option.bind_eq_bind, Option.bind_eq_some_iff] at found
    rcases found with ⟨⟨item, rest⟩, read, found⟩
    refine ⟨fuel, item, rest, rfl, read, ?_⟩
    split at found
    · rename_i rest' comma
      rcases Option.bind_eq_some_iff.mp found with ⟨⟨items', after'⟩, later, same⟩
      cases same
      exact .inl ⟨rest', items', comma, later, rfl⟩
    · rename_i rest' closes
      cases found
      exact .inr ⟨closes, rfl⟩
    · cases found

theorem readMembers_cases {members : List (List Char × Json ν)} {input after : List Char}
    (found : readMembers number fuel depth input = some (members, after)) :
    ∃ fuel' body key rest value rest', fuel = fuel' + 1 ∧ skipWs input = '"' :: body ∧
      (∃ afterKey, readChars fuel' body = some (key, afterKey) ∧ skipWs afterKey = ':' :: rest) ∧
      read number fuel' depth (skipWs rest) = some (value, rest') ∧
      ((∃ rest'' members', skipWs rest' = ',' :: rest'' ∧
          readMembers number fuel' depth rest'' = some (members', after) ∧
            members = (key, value) :: members') ∨
        skipWs rest' = '\x7d' :: after ∧ members = [(key, value)]) := by
  cases fuel with
  | zero => simp only [readMembers, reduceCtorEq] at found
  | succ fuel =>
    simp only [readMembers] at found
    split at found
    · rename_i body quote
      simp only [Option.bind_eq_bind, Option.bind_eq_some_iff] at found
      rcases found with ⟨⟨key, afterKey⟩, readKey, found⟩
      split at found
      · rename_i rest colon
        simp only [Option.bind_eq_some_iff] at found
        rcases found with ⟨⟨value, rest'⟩, readValue, found⟩
        refine ⟨fuel, body, key, rest, value, rest', rfl, quote, ⟨afterKey, readKey, colon⟩,
          readValue, ?_⟩
        split at found
        · rename_i rest'' comma
          rcases Option.bind_eq_some_iff.mp found with ⟨⟨members', after'⟩, later, same⟩
          cases same
          exact .inl ⟨rest'', members', comma, later, rfl⟩
        · rename_i rest'' closes
          cases found
          exact .inr ⟨closes, rfl⟩
        · cases found
      · cases found
    · cases found

end Steps

end Json

end LispRlm.Foundation
