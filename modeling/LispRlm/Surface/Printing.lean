import LispRlm.Surface.SourceLayouts
import LispRlm.Bytecode.JsonPrinting

/-! The texts that values are printed as, and which values the reader reads back from theirs. -/

namespace LispRlm.Surface.Reader

open Bytecode (LispVal display displayAll)
open Bytecode.JsonPrinting (decimal decimal_eq decimal_ne_nil)

/-! ### Strings -/

theorem backslash_of_mem {c : Char} (mem : 92 ∈ String.utf8EncodeChar c) : c = '\\' := by
  have byte {n : Nat} (low : 128 ≤ n) (high : n < 256) : (92 : UInt8) ≠ UInt8.ofNat n := by
    intro same
    have value := congrArg UInt8.toNat same
    rw [UInt8.toNat_ofNat_of_lt' high] at value
    have small : (92 : UInt8).toNat = 92 := rfl
    omega
  rw [String.utf8EncodeChar.eq_1] at mem
  split at mem
  · rename_i small
    have same : (92 : UInt8) = UInt8.ofNat c.val.toNat := List.mem_singleton.mp mem
    have value := congrArg UInt8.toNat same
    have byte : c.val.toNat < 256 := by omega
    rw [UInt8.toNat_ofNat_of_lt' byte] at value
    exact Char.toNat_inj.mp value.symm
  split at mem
  · exfalso
    simp only [List.mem_cons, List.not_mem_nil, or_false] at mem
    rcases mem with same | same
    · exact byte (by omega) (by omega) same
    · exact byte (by omega) (by omega) same
  split at mem
  · exfalso
    simp only [List.mem_cons, List.not_mem_nil, or_false] at mem
    rcases mem with same | same | same
    · exact byte (by omega) (by omega) same
    · exact byte (by omega) (by omega) same
    · exact byte (by omega) (by omega) same
  · exfalso
    simp only [List.mem_cons, List.not_mem_nil, or_false] at mem
    rcases mem with same | same | same | same
    · exact byte (by omega) (by omega) same
    · exact byte (by omega) (by omega) same
    · exact byte (by omega) (by omega) same
    · exact byte (by omega) (by omega) same

theorem unescape_plain {bytes : List UInt8} (plain : 92 ∉ bytes) : unescape bytes = bytes := by
  induction bytes with
  | nil => rw [unescape]
  | cons b rest ih =>
    have first : ¬ b = 92 := fun same => plain (same ▸ List.mem_cons_self)
    rw [unescape, if_neg first, if_neg first]
    dsimp only
    rw [ih fun mem => plain (List.mem_cons_of_mem b mem)]

/-- A text without backslashes stands for itself between quotes. -/
theorem literal_string {lib : Library} {s : String} (plain : '\\' ∉ s.toList)
    (lossless : lib.fromUtf8Lossy (s.toList.flatMap String.utf8EncodeChar) = s) :
    literal lib ('"' :: (s.toList ++ ['"'])) = .ok (.str s) := by
  have bytes : (92 : UInt8) ∉ s.toList.flatMap String.utf8EncodeChar := by
    intro mem
    rcases List.mem_flatMap.mp mem with ⟨c, inside, byte⟩
    exact plain (backslash_of_mem byte ▸ inside)
  have inner : quoted ('"' :: (s.toList ++ ['"'])) = .ok s.toList := by
    rw [quoted, List.tail_cons, List.getLast?_concat, List.dropLast_concat]
    rfl
  rw [literal, stripPrefix, if_neg (by simp)]
  dsimp only
  rw [if_neg (by simp), if_neg (by simp), if_neg (by simp), if_pos List.head?_cons,
    stringLiteral, inner]
  dsimp only
  rw [unescape_plain bytes, lossless]

/-! ### Numbers -/

theorem digitsValue_eq {digits : List Char} (each : ∀ c ∈ digits, c.isDigit = true) (acc : Nat) :
    digitsValue 10 acc digits = some (Nat.ofDigitChars 10 digits acc) := by
  induction digits generalizing acc with
  | nil => rfl
  | cons c digits ih =>
    have digit := each c List.mem_cons_self
    have bound : c.toNat - 48 < 10 := by
      rw [Char.isDigit_iff_toNat] at digit
      have nine : '9'.toNat = 57 := rfl
      omega
    rw [digitsValue, digitValue, if_pos digit]
    dsimp only
    rw [if_pos bound, ih fun d mem => each d (List.mem_cons_of_mem c mem), Nat.ofDigitChars_cons,
      Nat.mul_comm]
    rfl

theorem natural_toDigits (n : Nat) : natural 10 (Nat.toDigits 10 n) = some n := by
  have each (c : Char) (mem : c ∈ Nat.toDigits 10 n) : c.isDigit = true :=
    Nat.isDigit_of_mem_toDigits (by decide) (by decide) mem
  have some_ : Nat.toDigits 10 n ≠ [] := Nat.toDigits_ne_nil
  rw [natural.eq_def]
  split
  · rename_i empty
    exact absurd empty some_
  · rw [digitsValue_eq each, Nat.ofDigitChars_ten_toDigits]

theorem special_eq_none {s : List Char} (plain : 'n' ∉ s) : special s = none := by
  have other (t : List Char) (mem : 'n' ∈ t) : s ≠ t := by
    intro same
    rw [same] at plain
    exact plain mem
  rw [special, if_neg, if_neg, if_neg]
  all_goals
    rw [not_or, not_or]
    exact ⟨other _ (by decide), other _ (by decide), other _ (by decide)⟩

theorem fraction_eq_none (lib : Library) {s : List Char} (plain : '/' ∉ s) :
    fraction lib s = none := by
  rw [fraction, List.splitOn_eq_singleton plain]

theorem suffixed_eq_none {s : List Char} (plain : 'u' ∉ s) : suffixed s = none := by
  rw [suffixed, stripSuffix, if_neg]
  intro suffix
  apply plain
  exact (List.isSuffixOf_iff_suffix.mp suffix).subset (by decide)

theorem decimal_chars (n : Int64) : ∀ c ∈ decimal n, c.isDigit = true ∨ c = '-' := by
  have digits (m : Nat) (c : Char) (mem : c ∈ Nat.toDigits 10 m) : c.isDigit = true :=
    Nat.isDigit_of_mem_toDigits (by decide) (by decide) mem
  intro c mem
  rw [decimal_eq] at mem
  split at mem
  · exact .inl (digits _ c mem)
  · rcases List.mem_cons.mp mem with same | mem
    · exact .inr same
    · exact .inl (digits _ c mem)

theorem parseI64_decimal (n : Int64) : parseI64 (decimal n) = some n := by
  have low := n.le_toInt
  have high := n.toInt_lt
  rw [decimal_eq]
  split
  · rename_i nonneg
    have first : ∀ c ∈ Nat.toDigits 10 n.toInt.toNat, c.isDigit = true := fun c mem =>
      Nat.isDigit_of_mem_toDigits (by decide) (by decide) mem
    have noSign : ∀ digits, Nat.toDigits 10 n.toInt.toNat ≠ '-' :: digits := by
      intro digits same
      exact absurd (first '-' (same ▸ List.mem_cons_self)) (by decide)
    have noPlus : ¬ (Nat.toDigits 10 n.toInt.toNat).head? = some '+' := by
      intro same
      exact absurd (first '+' (List.mem_of_head? same)) (by decide)
    rw [parseI64.eq_2 _ noSign, if_neg noPlus, natural_toDigits]
    dsimp only
    rw [if_pos (by omega)]
    congr 1
    apply Int64.toInt_inj.mp
    rw [Int64.toInt_ofNat_of_lt (by omega)]
    omega
  · rename_i negative
    rw [parseI64, natural_toDigits]
    dsimp only
    rw [if_pos (by omega)]
    congr 1
    apply Int64.toInt_inj.mp
    rw [Int64.toInt_ofInt_of_le (by omega) (by omega)]
    omega

theorem atom_decimal (lib : Library) (n : Int64) : atom lib (decimal n) = .num n := by
  have free (c : Char) (digit : c.isDigit = false) (minus : c ≠ '-') : c ∉ decimal n := by
    intro mem
    rcases decimal_chars n c mem with yes | same
    · rw [digit] at yes
      cases yes
    · exact minus same
  rw [atom, special_eq_none (free 'n' rfl (by decide)), fraction_eq_none lib
    (free '/' rfl (by decide)), suffixed_eq_none (free 'u' rfl (by decide)), parseI64_decimal]

theorem atom_unsigned (lib : Library) (n : UInt64) :
    atom lib (Nat.toDigits 10 n.toNat ++ "u64".toList) = .u64 n := by
  have each (c : Char) (mem : c ∈ Nat.toDigits 10 n.toNat) : c.isDigit = true :=
    Nat.isDigit_of_mem_toDigits (by decide) (by decide) mem
  have free (c : Char) (digit : c.isDigit = false) (other : c ∉ "u64".toList) :
      c ∉ Nat.toDigits 10 n.toNat ++ "u64".toList := by
    intro mem
    rcases List.mem_append.mp mem with inside | suffix
    · rw [each c inside] at digit
      cases digit
    · exact other suffix
  have some_ : Nat.toDigits 10 n.toNat ≠ [] := Nat.toDigits_ne_nil
  have noPlus : ¬ (Nat.toDigits 10 n.toNat).head? = some '+' := by
    intro same
    exact absurd (each '+' (List.mem_of_head? same)) (by decide)
  have noHex (t : List Char) (x : Char) (mem : x ∈ t) (letter : x.isDigit = false) :
      stripPrefix t (Nat.toDigits 10 n.toNat) = none := by
    rw [stripPrefix, if_neg]
    intro starts
    rw [each x ((List.isPrefixOf_iff_prefix.mp starts).subset mem)] at letter
    cases letter
  have stripped : stripSuffix "u64".toList (Nat.toDigits 10 n.toNat ++ "u64".toList) =
      some (Nat.toDigits 10 n.toNat) := by
    rw [stripSuffix, if_pos (List.isSuffixOf_iff_suffix.mpr (List.suffix_append _ _)),
      List.length_append, Nat.add_sub_cancel, List.take_left]
  have value : suffixed (Nat.toDigits 10 n.toNat ++ "u64".toList) = some n := by
    rw [suffixed, stripped]
    dsimp only
    rw [if_neg (by simp), noHex "0x".toList 'x' (by decide) rfl,
      noHex "0X".toList 'X' (by decide) rfl]
    dsimp only
    rw [parseU64, if_neg noPlus, natural_toDigits]
    dsimp only
    rw [if_pos n.toNat_lt, UInt64.ofNat_toNat]
  rw [atom, special_eq_none (free 'n' rfl (by decide)),
    fraction_eq_none lib (free '/' rfl (by decide)), value]

/-- What begins like no other literal is an atom. -/
theorem literal_atom (lib : Library) {s : List Char} {c : Char} (first : s.head? = some c)
    (other : c ∉ ['#', 'n', 't', 'f', '"']) : literal lib s = .ok (atom lib s) := by
  have differs {t : List Char} {d : Char} (starts : t.head? = some d)
      (mem : d ∈ ['#', 'n', 't', 'f', '"']) : s ≠ t := by
    intro same
    rw [same, starts] at first
    exact other (Option.some.inj first ▸ mem)
  have noChar : ¬ "#char:".toList.isPrefixOf s = true := by
    intro starts
    rcases List.isPrefixOf_iff_prefix.mp starts with ⟨rest, same⟩
    exact differs (d := '#') (t := "#char:".toList ++ rest) rfl (by decide) same.symm
  have noString : ¬ s.head? = some '"' := by
    rw [first]
    intro same
    rw [Option.some.inj same] at other
    exact other (by decide)
  rw [literal, stripPrefix, if_neg noChar]
  dsimp only
  rw [if_neg (differs (d := 'n') rfl (by decide)), if_neg (differs (d := 't') rfl (by decide)),
    if_neg (differs (d := 'f') rfl (by decide)), if_neg noString]

/-! ### Words -/

theorem isPlain_of_toNat {c : Char}
    (range : c = '-' ∨ 48 ≤ c.toNat ∧ c.toNat ≤ 57 ∨ 97 ≤ c.toNat ∧ c.toNat ≤ 122) :
    isPlain c = true := by
  have other (d : Char) (apart : d.toNat < 45 ∨ d.toNat = 59 ∨ 91 ≤ d.toNat ∧ d.toNat ≤ 96) :
      c ≠ d := by
    intro same
    rw [same] at range
    rcases range with minus | digit | letter
    · rw [minus] at apart
      exact absurd apart (by decide)
    · omega
    · omega
  have noQuote : ['"', ';', '\'', '`', ','].contains c = false := by
    simp only [List.contains_eq_mem, List.mem_cons, List.not_mem_nil, or_false, not_or,
      decide_eq_false_iff_not]
    exact ⟨other _ (by decide), other _ (by decide), other _ (by decide), other _ (by decide),
      other _ (by decide)⟩
  have noBracket : isBracket c = false := by
    simp only [isBracket, not_or, decide_eq_false_iff_not]
    exact ⟨other _ (by decide), other _ (by decide), other _ (by decide), other _ (by decide)⟩
  have noSpace : isWhitespace c = false := by
    have minus : '-'.toNat = 45 := rfl
    simp only [isWhitespace, decide_eq_false_iff_not]
    rcases range with same | digit | letter
    · rw [same]
      decide
    · omega
    · omega
  rw [isPlain, noQuote, noBracket, noSpace]
  rfl

/-- A text that is one token, which stands for the value. -/
structure Word (lib : Library) (w : List Char) (v : LispVal) : Prop where
  lexeme : ∃ l : Lexeme, l.chars = w ∧ l.text = w ∧ ∀ rest, endsAtom rest = true → l.Apart rest
  first : w.head? ≠ some ';'
  whole : abbreviated w = none
  open_ : w ≠ ['('] ∧ w ≠ ['[']
  close : w ≠ [')'] ∧ w ≠ [']']
  literal : literal lib w = .ok v

theorem word_of_plain {lib : Library} {w : List Char} {v : LispVal} (some_ : w ≠ [])
    (plain : ∀ c ∈ w, isPlain c = true) (noHash : '#' ∉ w)
    (literal_ : literal lib w = .ok v) : Word lib w v where
  lexeme := by
    have free : ¬ ['#', '\\'] <:+: w := fun infix_ => noHash (infix_.subset List.mem_cons_self)
    exact ⟨.atom w some_ plain free, rfl, rfl, fun rest ends => ends⟩
  first same := absurd (plain ';' (List.mem_of_head? same)) (by decide)
  whole := by
    have other (t : List Char) (mem : '#' ∈ t) : w ≠ t := by
      intro same
      rw [same] at noHash
      exact noHash mem
    rw [abbreviated, if_neg (other _ (by decide)), if_neg (other _ (by decide)),
      if_neg (other _ (by decide)), if_neg (other _ (by decide))]
  open_ := by
    constructor
    · intro same
      exact absurd (plain '(' (same ▸ List.mem_cons_self)) (by decide)
    · intro same
      exact absurd (plain '[' (same ▸ List.mem_cons_self)) (by decide)
  close := by
    constructor
    · intro same
      exact absurd (plain ')' (same ▸ List.mem_cons_self)) (by decide)
    · intro same
      exact absurd (plain ']' (same ▸ List.mem_cons_self)) (by decide)
  literal := literal_

/-- A number's text is one token. -/
theorem word_number {lib : Library} {w : List Char} {v : LispVal} (some_ : w ≠ [])
    (chars : ∀ c ∈ w, c.isDigit = true ∨ c = '-' ∨ c = 'u') (value : atom lib w = v) :
    Word lib w v := by
  apply word_of_plain some_
  · intro d mem
    apply isPlain_of_toNat
    rcases chars d mem with digit | minus | u
    · have nine : '9'.toNat = 57 := rfl
      have zero : '0'.toNat = 48 := rfl
      rw [Char.isDigit_iff_toNat] at digit
      omega
    · exact .inl minus
    · rw [u]
      decide
  · intro mem
    rcases chars '#' mem with digit | minus | u
    · cases digit
    · exact absurd minus (by decide)
    · exact absurd u (by decide)
  · cases whole : w with
    | nil => exact absurd whole some_
    | cons c rest =>
      have none_ : ['#', 'n', 't', 'f', '"'].all
          (fun d => ¬ (d.isDigit ∨ d = '-' ∨ d = 'u')) = true := rfl
      have first : w.head? = some c := by
        rw [whole]
        rfl
      rw [← whole, literal_atom lib first, value]
      intro mem
      exact of_decide_eq_true (List.all_eq_true.mp none_ c mem)
        (chars c (List.mem_of_head? first))

theorem word_decimal (lib : Library) (n : Int64) : Word lib (decimal n) (.num n) := by
  apply word_number (decimal_ne_nil n) _ (atom_decimal lib n)
  intro c mem
  rcases decimal_chars n c mem with digit | minus
  · exact .inl digit
  · exact .inr (.inl minus)

theorem word_unsigned (lib : Library) (n : UInt64) :
    Word lib (Nat.toDigits 10 n.toNat ++ "u64".toList) (.u64 n) := by
  have suffix : "u64".toList.all (fun c => c.isDigit ∨ c = '-' ∨ c = 'u') = true := rfl
  apply word_number _ _ (atom_unsigned lib n)
  · exact List.append_ne_nil_of_right_ne_nil _ (by decide)
  · intro c mem
    rcases List.mem_append.mp mem with inside | last
    · exact .inl (Nat.isDigit_of_mem_toDigits (by decide) (by decide) inside)
    · exact of_decide_eq_true (List.all_eq_true.mp suffix c last)

theorem word_string {lib : Library} {s : String} (noQuote : '"' ∉ s.toList)
    (noEscape : '\\' ∉ s.toList)
    (lossless : lib.fromUtf8Lossy (s.toList.flatMap String.utf8EncodeChar) = s) :
    Word lib ('"' :: (s.toList ++ ['"'])) (.str s) where
  lexeme := by
    have closed {body : List Char} (noQuote : '"' ∉ body) (noEscape : '\\' ∉ body) :
        closedBody body = true := by
      induction body with
      | nil => rw [closedBody]
      | cons c body ih =>
        have escape : ¬ c = '\\' := fun same => noEscape (same ▸ List.mem_cons_self)
        have quote : c ≠ '"' := fun same => noQuote (same ▸ List.mem_cons_self)
        have rest := ih (fun mem => noQuote (List.mem_cons_of_mem c mem))
          (fun mem => noEscape (List.mem_cons_of_mem c mem))
        rw [closedBody.eq_def]
        dsimp only
        rw [if_neg escape, rest, Bool.and_true]
        exact decide_eq_true quote
    exact ⟨.string s.toList (closed noQuote noEscape), rfl, rfl, fun _ _ => trivial⟩
  first := by simp
  whole := by
    rw [abbreviated, if_neg (by simp), if_neg (by simp), if_neg (by simp), if_neg (by simp)]
  open_ := by simp
  close := by simp
  literal := literal_string noEscape lossless

/-! ### Printed values -/

/-- A name that is one token and stands for the symbol. -/
def IsName (lib : Library) (name : String) : Prop :=
  name ≠ "" ∧ (∀ c ∈ name.toList, isPlain c = true) ∧ '#' ∉ name.toList ∧
    literal lib name.toList = .ok (.sym name)

/-- The values that are printed as the token they are read from: literals with a syntax of their
own, strings without quotes and backslashes, and names. -/
inductive IsLiteral (lib : Library) : LispVal → Prop
  | nil : IsLiteral lib .nil
  | bool (b : Bool) : IsLiteral lib (.bool b)
  | num (n : Int64) : IsLiteral lib (.num n)
  | u64 (n : UInt64) : IsLiteral lib (.u64 n)
  | str {s : String} : '"' ∉ s.toList → '\\' ∉ s.toList →
      lib.fromUtf8Lossy (s.toList.flatMap String.utf8EncodeChar) = s → IsLiteral lib (.str s)
  | sym {name : String} : IsName lib name → IsLiteral lib (.sym name)

inductive Readable (lib : Library) : LispVal → Prop
  | literal {v : LispVal} : IsLiteral lib v → Readable lib v
  | list {vals : List LispVal} : (∀ v ∈ vals, Readable lib v) → Readable lib (.list vals)
  | vec {vals : List LispVal} : (∀ v ∈ vals, Readable lib v) → Readable lib (.vec vals)

mutual

/-- The texts of the tokens of a printed value. -/
def valueWords : LispVal → List (List Char)
  | .list vals => ['('] :: (valueWordsAll vals ++ [[')']])
  | .vec vals => ['['] :: (valueWordsAll vals ++ [[']']])
  | v => [(display v).toList]

def valueWordsAll : List LispVal → List (List Char)
  | [] => []
  | v :: vals => valueWords v ++ valueWordsAll vals

end

/-- A text that is read as those words, wherever it stands before the end of an atom. -/
def ReadAs (text : List Char) (ws : List (List Char)) : Prop :=
  text.head? ≠ some ';' ∧ text ≠ [] ∧ ∀ rest, endsAtom rest = true →
    reading false [] (text ++ rest) = ws ++ reading false [] rest

theorem readAs_word {lib : Library} {w : List Char} {v : LispVal} (word : Word lib w v) :
    ReadAs w [w] := by
  rcases word.lexeme with ⟨l, chars, text, apart⟩
  refine ⟨word.first, ?_, ?_⟩
  · intro empty
    have nonempty : l.chars ≠ [] := by
      cases l <;> simp [Lexeme.chars, *]
    exact nonempty (chars.trans empty)
  · intro rest ends
    have read := reading_lexeme (apart rest ends)
    rw [chars, text] at read
    exact read

theorem reading_close {close : Char} (bracket : close = ')' ∨ close = ']') (rest : List Char) :
    endsAtom (close :: rest) = true ∧
      reading false [] (close :: rest) = [close] :: reading false [] rest := by
  have known : isBracket close = true ∧ endsAtom (close :: rest) = true := by
    rcases bracket with same | same
    · rw [same]
      exact ⟨rfl, rfl⟩
    · rw [same]
      exact ⟨rfl, rfl⟩
  have apart : (Lexeme.bracket close known.1).Apart rest := by
    intro both
    rcases bracket with same | same
    · exact absurd (same.symm.trans both.1) (by decide)
    · exact absurd (same.symm.trans both.1) (by decide)
  exact ⟨known.2, reading_lexeme apart⟩

theorem readAs_joined {texts : List (List Char × List (List Char))}
    (each : ∀ t ∈ texts, ReadAs t.1 t.2) {rest : List Char} (ends : endsAtom rest = true) :
    reading false [] ([' '].intercalate (texts.map Prod.fst) ++ rest) =
      (texts.map Prod.snd).flatten ++ reading false [] rest := by
  induction texts with
  | nil => rfl
  | cons t texts ih =>
    have first := each t List.mem_cons_self
    cases texts with
    | nil =>
      rw [List.map_cons, List.map_nil, List.intercalate_singleton, first.2.2 _ ends]
      exact congrArg (· ++ _) (List.append_nil t.2).symm
    | cons t' texts =>
      have later := ih fun u mem => each u (List.mem_cons_of_mem t mem)
      have whole : [' '].intercalate ((t :: t' :: texts).map Prod.fst) ++ rest =
          t.1 ++ ' ' :: ([' '].intercalate ((t' :: texts).map Prod.fst) ++ rest) := by
        rw [List.map_cons, List.map_cons, List.intercalate_cons_cons, List.append_assoc,
          List.append_assoc]
        rfl
      have space : branch false ' ' ([' '].intercalate ((t' :: texts).map Prod.fst) ++ rest) =
          .space := @branch_space ' ' rfl _
      have step : reading false [] (' ' :: ([' '].intercalate ((t' :: texts).map Prod.fst) ++
          rest)) = reading false [] ([' '].intercalate ((t' :: texts).map Prod.fst) ++ rest) := by
        rw [reading_cons, space]
        rfl
      calc reading false [] ([' '].intercalate ((t :: t' :: texts).map Prod.fst) ++ rest)
        _ = t.2 ++ (((t' :: texts).map Prod.snd).flatten ++ reading false [] rest) := by
          rw [whole, first.2.2 _ rfl, step, later]
        _ = t.2 ++ ((t' :: texts).map Prod.snd).flatten ++ reading false [] rest :=
          (List.append_assoc _ _ _).symm
        _ = ((t :: t' :: texts).map Prod.snd).flatten ++ reading false [] rest := rfl

/-! ### Values are read back -/

theorem displayAll_eq (vals : List LispVal) : displayAll vals = vals.map display := by
  induction vals with
  | nil => rfl
  | cons v vals ih => rw [displayAll, ih, List.map_cons]

theorem valueWordsAll_eq (vals : List LispVal) :
    valueWordsAll vals = (vals.map valueWords).flatten := by
  induction vals with
  | nil => rfl
  | cons v vals ih => rw [valueWordsAll, ih, List.map_cons, List.flatten_cons]

theorem readAs_values {vals : List LispVal}
    (each : ∀ v ∈ vals, ReadAs (display v).toList (valueWords v)) {rest : List Char}
    (ends : endsAtom rest = true) :
    reading false [] ((" ".intercalate (displayAll vals)).toList ++ rest) =
      valueWordsAll vals ++ reading false [] rest := by
  have texts : (" ".intercalate (displayAll vals)).toList =
      [' '].intercalate ((vals.map fun v => ((display v).toList, valueWords v)).map Prod.fst) := by
    rw [displayAll_eq, List.map_map, String.toList_intercalate, List.map_map]
    rfl
  have flat : valueWordsAll vals = ((vals.map fun v => ((display v).toList, valueWords v)).map
      Prod.snd).flatten := by
    rw [valueWordsAll_eq, List.map_map]
    rfl
  rw [texts, flat]
  apply readAs_joined _ ends
  intro t mem
  rcases List.mem_map.mp mem with ⟨v, inside, same⟩
  rw [← same]
  exact each v inside

theorem head_values {vals : List LispVal}
    (each : ∀ v ∈ vals, ReadAs (display v).toList (valueWords v)) {close : Char}
    (bracket : close = ')' ∨ close = ']') (rest : List Char) :
    ((" ".intercalate (displayAll vals)).toList ++ close :: rest).head? ≠ some ';' := by
  cases vals with
  | nil =>
    intro same
    rcases bracket with first | first
    · rw [first] at same
      exact absurd (Option.some.inj same) (by decide)
    · rw [first] at same
      exact absurd (Option.some.inj same) (by decide)
  | cons v vals =>
    have first := each v List.mem_cons_self
    have starts : ∃ more, (" ".intercalate (displayAll (v :: vals))).toList =
        (display v).toList ++ more := by
      rw [displayAll, String.toList_intercalate, List.map_cons]
      cases (displayAll vals).map String.toList with
      | nil => exact ⟨[], by rw [List.intercalate_singleton, List.append_nil]⟩
      | cons t texts =>
        rw [List.intercalate_cons_cons, List.append_assoc]
        exact ⟨_, rfl⟩
    rcases starts with ⟨more, same⟩
    rw [same, List.append_assoc, List.head?_append_of_ne_nil _ first.2.1]
    exact first.1

/-- A form in brackets, of values that are read as their words. -/
theorem readAs_bracketed {vals : List LispVal}
    (each : ∀ v ∈ vals, ReadAs (display v).toList (valueWords v)) {b close : Char}
    (opening : isBracket b = true) (bracket : close = ')' ∨ close = ']') :
    ReadAs (b :: ((" ".intercalate (displayAll vals)).toList ++ [close]))
      ([b] :: (valueWordsAll vals ++ [[close]])) := by
  refine ⟨?_, List.cons_ne_nil _ _, ?_⟩
  · intro same
    rw [Option.some.inj same] at opening
    cases opening
  · intro rest ends
    have apart : (Lexeme.bracket b opening).Apart
        ((" ".intercalate (displayAll vals)).toList ++ close :: rest) :=
      fun both => head_values each bracket rest both.2
    have read := reading_lexeme apart
    have closes := reading_close bracket rest
    rw [readAs_values each closes.1, closes.2] at read
    rw [List.cons_append, List.append_assoc, List.singleton_append, List.cons_append,
      List.append_assoc, List.singleton_append]
    exact read

theorem word_name {lib : Library} {text : String} {v : LispVal} (some_ : text.toList ≠ [])
    (letters : text.toList.all (fun c => 97 ≤ c.toNat ∧ c.toNat ≤ 122) = true)
    (value : literal lib text.toList = .ok v) : Word lib text.toList v := by
  have each (c : Char) (mem : c ∈ text.toList) : 97 ≤ c.toNat ∧ c.toNat ≤ 122 :=
    of_decide_eq_true (List.all_eq_true.mp letters c mem)
  apply word_of_plain some_ _ _ value
  · intro c mem
    exact isPlain_of_toNat (.inr (.inr (each c mem)))
  · intro mem
    exact absurd (each '#' mem).1 (by decide)

theorem word_literal {lib : Library} {v : LispVal} (known : IsLiteral lib v) :
    valueWords v = [(display v).toList] ∧ Word lib (display v).toList v := by
  have alone {v : LispVal} (noList : ∀ vals, v ≠ .list vals) (noVec : ∀ vals, v ≠ .vec vals) :
      valueWords v = [(display v).toList] := valueWords.eq_3 v noList noVec
  cases known with
  | nil =>
    have word : Word lib "nil".toList .nil := word_name (by decide) rfl rfl
    exact ⟨alone (fun _ same => by cases same) (fun _ same => by cases same), by rwa [display]⟩
  | bool b =>
    have word (b : Bool) : Word lib (if b then "true" else "false").toList (.bool b) := by
      cases b with
      | false => exact word_name (by decide) rfl rfl
      | true => exact word_name (by decide) rfl rfl
    exact ⟨alone (fun _ same => by cases same) (fun _ same => by cases same),
      by rw [display]; exact word b⟩
  | num n =>
    exact ⟨alone (fun _ same => by cases same) (fun _ same => by cases same),
      by rw [display]; exact word_decimal lib n⟩
  | u64 n =>
    have text : (toString n.toNat ++ "u64").toList =
        Nat.toDigits 10 n.toNat ++ "u64".toList := by
      rw [String.toList_append]
      exact congrArg (· ++ "u64".toList) Nat.toList_repr
    exact ⟨alone (fun _ same => by cases same) (fun _ same => by cases same),
      by rw [display, text]; exact word_unsigned lib n⟩
  | @str s noQuote noEscape lossless =>
    have text : ("\"" ++ s ++ "\"").toList = '"' :: (s.toList ++ ['"']) := by
      rw [String.toList_append, String.toList_append]
      rfl
    exact ⟨alone (fun _ same => by cases same) (fun _ same => by cases same),
      by rw [display, text]; exact word_string noQuote noEscape lossless⟩
  | @sym name isName =>
    have some_ : name.toList ≠ [] := fun empty => isName.1 (String.toList_eq_nil_iff.mp empty)
    exact ⟨alone (fun _ same => by cases same) (fun _ same => by cases same),
      by rw [display]; exact word_of_plain some_ isName.2.1 isName.2.2.1 isName.2.2.2⟩

theorem text_list (vals : List LispVal) : (display (.list vals)).toList =
    '(' :: ((" ".intercalate (displayAll vals)).toList ++ [')']) := by
  rw [display, String.toList_append, String.toList_append]
  rfl

theorem text_vec (vals : List LispVal) : (display (.vec vals)).toList =
    '[' :: ((" ".intercalate (displayAll vals)).toList ++ [']']) := by
  rw [display, String.toList_append, String.toList_append]
  rfl

theorem readAs_display {lib : Library} {v : LispVal} (readable : Readable lib v) :
    ReadAs (display v).toList (valueWords v) := by
  induction readable with
  | literal known =>
    have word := word_literal known
    rw [word.1]
    exact readAs_word word.2
  | list _ ih =>
    rw [text_list, valueWords]
    exact readAs_bracketed ih rfl (.inl rfl)
  | vec _ ih =>
    rw [text_vec, valueWords]
    exact readAs_bracketed ih rfl (.inr rfl)

/-! ### The words are parsed -/

/-- The words of the value, whatever follows them, are parsed to it. -/
def ParsesAs (lib : Library) (v : LispVal) : Prop :=
  (∃ w ws, valueWords v = w :: ws ∧ w ≠ [')'] ∧ w ≠ [']']) ∧
    ∀ tokens more, texts tokens = valueWords v ++ more →
      ∃ rest, parse lib tokens = .ok (v, rest) ∧ texts rest.left = more

theorem cons_of_texts {tokens : List Token} {w : List Char} {more : List (List Char)}
    (same : texts tokens = w :: more) :
    ∃ token left, tokens = token :: left ∧ token.text = w ∧ texts left = more := by
  cases tokens with
  | nil => cases same
  | cons token left =>
    rw [texts, List.map_cons, List.cons.injEq] at same
    exact ⟨token, left, rfl, same.1, same.2⟩

theorem parseItems_words {lib : Library} {vals : List LispVal}
    (each : ∀ v ∈ vals, ParsesAs lib v) {close : Char} (bracket : close = ')' ∨ close = ']')
    (opening : Token) {tokens : List Token} {more : List (List Char)}
    (same : texts tokens = valueWordsAll vals ++ [close] :: more) :
    ∃ rest, parseItems lib close opening tokens = .ok (vals, rest) ∧ texts rest.left = more := by
  induction vals generalizing tokens with
  | nil =>
    rcases cons_of_texts same with ⟨token, left, cons, text, later⟩
    subst cons
    rw [parseItems, if_pos text]
    exact ⟨_, rfl, later⟩
  | cons v vals ih =>
    rcases each v List.mem_cons_self with ⟨⟨w, ws, starts, noClose⟩, parses⟩
    rw [valueWordsAll, List.append_assoc] at same
    rcases parses _ _ same with ⟨rest, parsed, later⟩
    rw [starts, List.cons_append] at same
    rcases cons_of_texts same with ⟨token, left, cons, text, _⟩
    subst cons
    have open_ : token.text ≠ [close] := by
      rw [text]
      rcases bracket with closes | closes
      · rw [closes]
        exact noClose.1
      · rw [closes]
        exact noClose.2
    rcases ih (fun u mem => each u (List.mem_cons_of_mem v mem)) later with ⟨rest', items, ends⟩
    rw [parseItems, if_neg open_, parsed]
    dsimp only
    rw [items]
    exact ⟨_, rfl, ends⟩

theorem parsesAs_readable {lib : Library} {v : LispVal} (readable : Readable lib v) :
    ParsesAs lib v := by
  induction readable with
  | @literal v known =>
    have ⟨alone, word⟩ := word_literal known
    rw [ParsesAs, alone]
    refine ⟨⟨_, _, rfl, word.close⟩, ?_⟩
    intro tokens more same
    rcases cons_of_texts same with ⟨token, left, cons, text, later⟩
    subst cons
    rw [parse, text, if_neg word.open_.1, if_neg word.open_.2,
      if_neg (not_or.mpr word.close), word.whole]
    dsimp only
    rw [word.literal]
    exact ⟨_, rfl, later⟩
  | @list vals _ ih =>
    rw [ParsesAs, valueWords]
    refine ⟨⟨_, _, rfl, by decide, by decide⟩, ?_⟩
    intro tokens more same
    rw [List.cons_append, List.append_assoc, List.singleton_append] at same
    rcases cons_of_texts same with ⟨token, left, cons, text, later⟩
    rcases parseItems_words ih (.inl rfl) token later with ⟨rest, items, ends⟩
    subst cons
    rw [parse, if_pos text, items]
    exact ⟨_, rfl, ends⟩
  | @vec vals _ ih =>
    rw [ParsesAs, valueWords]
    refine ⟨⟨_, _, rfl, by decide, by decide⟩, ?_⟩
    intro tokens more same
    rw [List.cons_append, List.append_assoc, List.singleton_append] at same
    rcases cons_of_texts same with ⟨token, left, cons, text, later⟩
    rcases parseItems_words ih (.inr rfl) token later with ⟨rest, items, ends⟩
    have other : ¬ token.text = ['('] := by
      rw [text]
      decide
    subst cons
    rw [parse, if_neg other, if_pos text, items]
    exact ⟨_, rfl, ends⟩

theorem parseForms_words {lib : Library} {vals : List LispVal}
    (each : ∀ v ∈ vals, ParsesAs lib v) {tokens : List Token}
    (same : texts tokens = valueWordsAll vals) : parseForms lib tokens = .ok vals := by
  induction vals generalizing tokens with
  | nil =>
    cases tokens with
    | nil => rw [parseForms]
    | cons => cases same
  | cons v vals ih =>
    rcases each v List.mem_cons_self with ⟨⟨w, ws, starts, _⟩, parses⟩
    rw [valueWordsAll] at same
    rcases parses _ _ same with ⟨rest, parsed, later⟩
    rw [starts, List.cons_append] at same
    rcases cons_of_texts same with ⟨token, left, cons, _, _⟩
    subst cons
    rw [parseForms, parsed]
    dsimp only
    rw [ih (fun u mem => each u (List.mem_cons_of_mem v mem)) later]

/-- Readable values that are printed one after another are read back, up to the lowering of the
loops among them. -/
theorem parseAll_display {lib : Library} {vals : List LispVal}
    (readable : ∀ v ∈ vals, Readable lib v) :
    parseAll lib (" ".intercalate (displayAll vals)).toList =
      .ok (Dotimes.desugarItems 0 vals).1 := by
  have read := readAs_values (fun v mem => readAs_display (readable v mem))
    (rfl : endsAtom [] = true)
  rw [List.append_nil, reading_nil, held, if_pos List.isEmpty_nil, List.append_nil] at read
  have parsed : parseForms lib (tokenize (" ".intercalate (displayAll vals)).toList) = .ok vals :=
    parseForms_words (fun v mem => parsesAs_readable (readable v mem))
      ((texts_tokenize _).trans read)
  rw [parseAll, parsed]

theorem isName_plus (lib : Library) : IsName lib "+" := by
  have plain : "+".toList.all isPlain = true := rfl
  exact ⟨by decide, List.all_eq_true.mp plain, by decide, rfl⟩

/-- `(+ 1 -2) ""` -/
theorem parseAll_display_sum :
    (∀ v ∈ [.list [.sym "+", .num 1, .num (-2)], .str ""], Readable plainLibrary v) ∧
      parseAll plainLibrary "(+ 1 -2) \"\"".toList =
        .ok [.list [.sym "+", .num 1, .num (-2)], .str ""] := by
  have sum : ∀ v ∈ [.sym "+", .num 1, .num (-2)], Readable plainLibrary v := by
    intro v mem
    simp only [List.mem_cons, List.not_mem_nil, or_false] at mem
    rcases mem with same | same | same
    · rw [same]
      exact .literal (.sym (isName_plus _))
    · rw [same]
      exact .literal (.num 1)
    · rw [same]
      exact .literal (.num (-2))
  have readable : ∀ v ∈ [.list [.sym "+", .num 1, .num (-2)], .str ""],
      Readable plainLibrary v := by
    intro v mem
    simp only [List.mem_cons, List.not_mem_nil, or_false] at mem
    rcases mem with same | same
    · rw [same]
      exact .list sum
    · rw [same]
      exact .literal (.str (by decide) (by decide) rfl)
  exact ⟨readable, parseAll_display readable⟩

end LispRlm.Surface.Reader
