import LispRlm.Bytecode.Values
import LispRlm.Foundation.JsonText

/-! `to-json`, `json-parse` and `json-quote`: which values come back from their text. -/

namespace LispRlm.Bytecode

open LispRlm.Foundation

namespace JsonPrinting

/-! ### The conversions -/

/-- A JSON number, as `as_i64` and then `as_f64` give it. -/
inductive Number
  | int (n : Int64)
  | float (bits : UInt64)

mutual

/-- A map's entries are listed in the order of the text. -/
def jsonToLisp : Json Number → LispVal
  | .null => .nil
  | .bool b => .bool b
  | .num (.int n) => .num n
  | .num (.float f) => .float f
  | .str s => .str (String.ofList s)
  | .arr items => .list (jsonToLispAll items)
  | .obj members => .map (jsonToLispMembers members)

def jsonToLispAll : List (Json Number) → List LispVal
  | [] => []
  | item :: items => jsonToLisp item :: jsonToLispAll items

def jsonToLispMembers : List (List Char × Json Number) → List (String × LispVal)
  | [] => []
  | (key, value) :: members => (String.ofList key, jsonToLisp value) :: jsonToLispMembers members

end

/-! ### The printers -/

def decimal (n : Int64) : List Char := (toString n.toInt).toList

/-- What is not under the source: how `f64` prints, what a JSON number token denotes, and the reader
of texts, which reads JSON up to the depth 127. -/
structure Externals where
  floatText : UInt64 → List Char
  floatText_ne : ∀ f, floatText f ≠ []
  floatText_token : ∀ f, ∀ c ∈ floatText f, Json.isDelim c = false
  number : List Char → Option Number
  number_token : ∀ {t x}, number t = some x → t ≠ [] ∧ ∀ c ∈ t, Json.isNumberChar c = true
  number_decimal : ∀ n, number (decimal n) = some (.int n)
  fromStr : List Char → Except String (Json Number)
  fromStr_ok : ∀ t j, fromStr t = .ok j ↔ Json.readText number 128 t = some j

/-- `join(",")` -/
def commas : List (List Char) → List Char
  | [] => []
  | [t] => t
  | t :: ts => t ++ ',' :: commas ts

def quoted (s : List Char) : List Char := '"' :: s ++ ['"']

section Printers

variable (E : Externals)

mutual

def toJson : LispVal → List Char
  | .num n => decimal n
  | .float f => E.floatText f
  | .str s => quoted s.toList
  | .bool b => if b then ['t', 'r', 'u', 'e'] else ['f', 'a', 'l', 's', 'e']
  | .nil => ['n', 'u', 'l', 'l']
  | .list l => '[' :: commas (toJsonAll l) ++ [']']
  | .map d => '\x7b' :: commas (toJsonEntries d) ++ ['\x7d']
  | other => quoted (display other).toList

def toJsonAll : List LispVal → List (List Char)
  | [] => []
  | v :: vs => toJson v :: toJsonAll vs

def toJsonEntries : List (String × LispVal) → List (List Char)
  | [] => []
  | (k, v) :: d => (quoted k.toList ++ ':' :: toJson v) :: toJsonEntries d

end

/-- `to-json` -/
def evalToJson (args : List LispVal) : LispVal :=
  .str (String.ofList (toJson E (args.head?.getD .nil)))

theorem evalToJson_singleton (v : LispVal) :
    evalToJson E [v] = .str (String.ofList (toJson E v)) := rfl

/-- The text of a string, a symbol or a number. -/
def asStr : LispVal → Except String (List Char)
  | .str s => .ok s.toList
  | .sym s => .ok s.toList
  | .num n => .ok (decimal n)
  | .float f => .ok (E.floatText f)
  | v => .error ("expected string, got " ++ display v)

/-- `json-parse` -/
def jsonParse (arg : LispVal) : Except String LispVal := do
  match E.fromStr (← asStr E arg) with
  | .ok v => .ok (jsonToLisp v)
  | .error e => .error ("json-parse: " ++ e)

end Printers

def hexDigit (n : Nat) : Char := if n < 10 then Char.ofNat (48 + n) else Char.ofNat (87 + n)

/-- `format!("\\u{:04x}", c as u32)` of a control character. -/
def controlEscape (c : Char) : List Char :=
  ['\\', 'u', '0', '0', hexDigit (c.toNat / 16), hexDigit (c.toNat % 16)]

def escapeChar (c : Char) : List Char :=
  if c = '"' then ['\\', '"']
  else if c = '\\' then ['\\', '\\']
  else if c = '\n' then ['\\', 'n']
  else if c = '\t' then ['\\', 't']
  else if c = '\r' then ['\\', 'r']
  else if c.toNat < 0x20 then controlEscape c
  else [c]

/-- `json-quote` -/
def jsonQuote : List LispVal → LispVal
  | .str s :: _ => .str (String.ofList (quoted (s.toList.flatMap escapeChar)))
  | .num n :: _ => .str (String.ofList (decimal n))
  | .bool b :: _ => .str (if b then "true" else "false")
  | _ => .str "null"

/-! ### Where `to-json` is read back -/

section Reading

variable (E : Externals)

mutual

/-- No character of a string or of a key needs an escape, no float's text is read as anything else,
and the value is built of what JSON has, to a depth that is read. -/
def Good (depth : Nat) : LispVal → Prop
  | .num _ => True
  | .float f => E.number (E.floatText f) = some (.float f)
  | .str s => ∀ c ∈ s.toList, Json.Plain c
  | .bool _ => True
  | .nil => True
  | .list l => 2 ≤ depth ∧ GoodAll (depth - 1) l
  | .map d => 2 ≤ depth ∧ GoodEntries (depth - 1) d
  | _ => False

def GoodAll (depth : Nat) : List LispVal → Prop
  | [] => True
  | v :: vs => Good depth v ∧ GoodAll depth vs

def GoodEntries (depth : Nat) : List (String × LispVal) → Prop
  | [] => True
  | (k, v) :: d => (∀ c ∈ k.toList, Json.Plain c) ∧ Good depth v ∧ GoodEntries depth d

end

variable {E}

theorem notDelim_of_number {c : Char} (number : Json.isNumberChar c = true) :
    Json.isDelim c = false := by
  by_contra delim
  rw [Bool.not_eq_false] at delim
  simp only [Json.isDelim, Json.isWs, decide_eq_true_eq, Bool.decide_or, Bool.or_eq_true] at delim
  rcases delim with same | same | same | same | same | same | same
  all_goals
    subst same
    revert number
    decide

theorem decimal_token (E : Externals) (n : Int64) :
    decimal n ≠ [] ∧ ∀ c ∈ decimal n, Json.isNumberChar c = true :=
  E.number_token (E.number_decimal n)

theorem notWs_of_notDelim {c : Char} (notDelim : Json.isDelim c = false) :
    Json.isWs c = false ∧ c ≠ ']' ∧ c ≠ '\x7d' := by
  simp only [Json.isDelim, decide_eq_false_iff_not, not_or, Bool.not_eq_true] at notDelim
  exact ⟨notDelim.2.2.2, notDelim.2.1, notDelim.2.2.1⟩

/-- A printed value begins with no space and no delimiter. -/
theorem toJson_head (v : LispVal) : ∃ c cs, toJson E v = c :: cs ∧ Json.isDelim c = false := by
  have token {t : List Char} (nonempty : t ≠ []) (all : ∀ c ∈ t, Json.isDelim c = false) :
      ∃ c cs, t = c :: cs ∧ Json.isDelim c = false := by
    cases t with
    | nil => exact absurd rfl nonempty
    | cons c cs => exact ⟨c, cs, rfl, all c List.mem_cons_self⟩
  cases v with
  | num n =>
    simp only [toJson]
    rcases decimal_token E n with ⟨nonempty, all⟩
    exact token nonempty fun c mem => notDelim_of_number (all c mem)
  | float f =>
    simp only [toJson]
    exact token (E.floatText_ne f) (E.floatText_token f)
  | bool b => cases b <;> simp only [toJson] <;> exact ⟨_, _, rfl, by decide⟩
  | _ =>
    simp only [toJson]
    exact ⟨_, _, rfl, by decide⟩

/-- What is printed is not skipped. -/
theorem skipWs_toJson (v : LispVal) (rest : List Char) :
    Json.skipWs (toJson E v ++ rest) = toJson E v ++ rest := by
  rcases toJson_head v with ⟨c, cs, same, notDelim⟩
  rw [same, List.cons_append, Json.skipWs_cons (notWs_of_notDelim notDelim).1]

/-- A value that is read back from its text, whatever follows, was printed without a loss. -/
def ReadsGood (E : Externals) (v : LispVal) : Prop :=
  ∀ fuel depth document rest rest',
    Json.read E.number fuel depth (toJson E v ++ rest) = some (document, rest') →
      Json.Stops rest → jsonToLisp document = v → rest' = rest ∧ Good E depth v

theorem commas_cons (t : List Char) (ts : List (List Char)) (rest : List Char) :
    commas (t :: ts) ++ rest = t ++ (if ts = [] then rest else ',' :: (commas ts ++ rest)) := by
  cases ts with
  | nil => rfl
  | cons t' ts => simp [commas]

theorem skipWs_items (v : LispVal) (vs : List LispVal) (rest : List Char) :
    Json.skipWs (commas (toJsonAll E (v :: vs)) ++ rest) =
      commas (toJsonAll E (v :: vs)) ++ rest := by
  simp only [toJsonAll, commas_cons]
  exact skipWs_toJson v _

theorem skipWs_entries (entry : String × LispVal) (d : List (String × LispVal))
    (rest : List Char) :
    Json.skipWs (commas (toJsonEntries E (entry :: d)) ++ rest) =
      commas (toJsonEntries E (entry :: d)) ++ rest := by
  rcases entry with ⟨k, v⟩
  simp only [toJsonEntries, commas_cons, quoted, List.cons_append]
  exact Json.skipWs_cons (by decide) _

theorem stops_cons {c : Char} (delim : Json.isDelim c = true) (rest : List Char) :
    Json.Stops (c :: rest) := by
  rintro d ⟨⟩
  exact delim

theorem good_of_items {vs : List LispVal} (each : ∀ v ∈ vs, ReadsGood E v) :
    ∀ {fuel depth items rest rest'},
      Json.readItems E.number fuel depth (commas (toJsonAll E vs) ++ ']' :: rest) =
        some (items, rest') →
      vs ≠ [] → jsonToLispAll items = vs → rest' = rest ∧ GoodAll E depth vs := by
  induction vs with
  | nil => exact fun _ nonempty => absurd rfl nonempty
  | cons v vs ih =>
    intro fuel depth items rest rest' found _ same
    simp only [toJsonAll, commas_cons] at found
    rcases Json.readItems_cases found with ⟨fuel', item, after, rfl, read, ends⟩
    rw [skipWs_toJson] at read
    simp only [GoodAll]
    have stops : Json.Stops (if toJsonAll E vs = [] then ']' :: rest else
        ',' :: (commas (toJsonAll E vs) ++ ']' :: rest)) := by
      split <;> exact stops_cons (by decide) _
    rcases ends with ⟨rest₁, items', comma, later, rfl⟩ | ⟨closes, rfl⟩
    · simp only [jsonToLispAll, List.cons.injEq] at same
      rcases each v List.mem_cons_self _ _ _ _ _ read stops same.1 with ⟨rfl, good⟩
      cases vs with
      | nil =>
        simp only [toJsonAll, if_true] at comma
        rw [Json.skipWs_cons (by decide)] at comma
        cases (List.cons.inj comma).1
      | cons w ws =>
        simp only [toJsonAll, reduceCtorEq, if_false] at comma
        rw [Json.skipWs_cons (by decide)] at comma
        cases comma
        rcases ih (fun v mem => each v (List.mem_cons_of_mem _ mem)) later (List.cons_ne_nil _ _)
          same.2 with ⟨same, goodAll⟩
        exact ⟨same, good, goodAll⟩
    · simp only [jsonToLispAll, List.cons.injEq] at same
      rcases each v List.mem_cons_self _ _ _ _ _ read stops same.1 with ⟨rfl, good⟩
      cases same.2
      simp only [toJsonAll, if_true] at closes
      rw [Json.skipWs_cons (by decide)] at closes
      exact ⟨(List.cons.inj closes).2.symm, good, trivial⟩

theorem good_of_members {d : List (String × LispVal)}
    (each : ∀ k v, (k, v) ∈ d → ReadsGood E v) :
    ∀ {fuel depth members rest rest'},
      Json.readMembers E.number fuel depth (commas (toJsonEntries E d) ++ '\x7d' :: rest) =
        some (members, rest') →
      d ≠ [] → jsonToLispMembers members = d → rest' = rest ∧ GoodEntries E depth d := by
  induction d with
  | nil => exact fun _ nonempty => absurd rfl nonempty
  | cons entry d ih =>
    intro fuel depth members rest rest' found _ same
    rcases entry with ⟨k, v⟩
    simp only [toJsonEntries, commas_cons, quoted, List.append_assoc, List.cons_append,
      List.nil_append] at found
    rcases Json.readMembers_cases found with
      ⟨fuel', body, key, afterColon, value, after, rfl, quote, ⟨afterKey, readKey, colon⟩, read,
        ends⟩
    rw [Json.skipWs_cons (by decide)] at quote
    cases quote
    simp only [GoodEntries]
    have stops : Json.Stops (if toJsonEntries E d = [] then '\x7d' :: rest else
        ',' :: (commas (toJsonEntries E d) ++ '\x7d' :: rest)) := by
      split <;> exact stops_cons (by decide) _
    have head : String.ofList key = k ∧ jsonToLisp value = v := by
      rcases ends with ⟨_, _, _, _, rfl⟩ | ⟨_, rfl⟩ <;>
        simp only [jsonToLispMembers, List.cons.injEq, Prod.mk.injEq] at same <;>
        exact same.1
    rcases head with ⟨rfl, valueSame⟩
    rw [String.toList_ofList] at readKey ⊢
    rcases Json.plain_of_readChars readKey with ⟨rfl, plain⟩
    rw [Json.skipWs_cons (by decide)] at colon
    cases colon
    rw [skipWs_toJson] at read
    rcases each _ v List.mem_cons_self _ _ _ _ _ read stops valueSame with ⟨rfl, good⟩
    rcases ends with ⟨rest₁, members', comma, later, rfl⟩ | ⟨closes, rfl⟩
    · simp only [jsonToLispMembers, List.cons.injEq] at same
      cases d with
      | nil =>
        simp only [toJsonEntries, if_true] at comma
        rw [Json.skipWs_cons (by decide)] at comma
        cases (List.cons.inj comma).1
      | cons entry' d =>
        simp only [toJsonEntries, reduceCtorEq, if_false] at comma
        rw [Json.skipWs_cons (by decide)] at comma
        cases comma
        rcases ih (fun k v mem => each k v (List.mem_cons_of_mem _ mem)) later
          (List.cons_ne_nil _ _) same.2 with ⟨restSame, goodAll⟩
        exact ⟨restSame, plain, good, goodAll⟩
    · simp only [jsonToLispMembers, List.cons.injEq] at same
      cases same.2
      simp only [toJsonEntries, if_true] at closes
      rw [Json.skipWs_cons (by decide)] at closes
      exact ⟨(List.cons.inj closes).2.symm, plain, good, trivial⟩

theorem number_of_toLisp {document : Json Number} {f : UInt64}
    (same : jsonToLisp document = .float f) : document = .num (.float f) := by
  cases document with
  | num x =>
    cases x with
    | int n => simp only [jsonToLisp, reduceCtorEq] at same
    | float g =>
      simp only [jsonToLisp, LispVal.float.injEq] at same
      rw [same]
  | _ => simp only [jsonToLisp, reduceCtorEq] at same

theorem readsGood_float {f : UInt64} {fuel depth : Nat} {document : Json Number}
    {rest rest' : List Char}
    (found : Json.read E.number (fuel + 1) depth (toJson E (.float f) ++ rest) =
      some (document, rest'))
    (stops : Json.Stops rest) (same : jsonToLisp document = .float f) :
    rest' = rest ∧ Good E depth (.float f) := by
  rcases Json.takeWhile_token (E.floatText_token f) stops with ⟨taken, dropped⟩
  have document_eq := number_of_toLisp same
  subst document_eq
  simp only [toJson] at found
  simp only [Good]
  rcases split : E.floatText f with _ | ⟨c, cs⟩
  · exact absurd split (E.floatText_ne f)
  · rw [split, List.cons_append] at found taken dropped
    by_cases numeric : Json.isNumberChar c = true
    · rw [Json.read, if_pos numeric, taken, dropped] at found
      rcases Option.bind_eq_some_iff.mp found with ⟨x, number, ends⟩
      cases ends
      exact ⟨rfl, number⟩
    · rw [Json.read, if_neg numeric] at found
      exact absurd rfl (Json.readOther_not_num found _)

theorem readsGood (v : LispVal) : ReadsGood E v := by
  induction v using LispVal.nested_induct with
  | list l each =>
    intro fuel depth document rest rest' found stops same
    cases fuel with
    | zero => simp only [Json.read, reduceCtorEq] at found
    | succ fuel =>
      simp only [toJson, List.append_assoc, List.cons_append, List.nil_append] at found
      rw [Json.read_other (by decide)] at found
      rcases Json.readOther_array found with ⟨deep, ends⟩
      simp only [Good]
      cases l with
      | nil =>
        simp only [toJsonAll, commas, List.nil_append] at ends
        rw [Json.skipWs_cons (by decide)] at ends
        rcases ends with ⟨closes, -⟩ | ⟨goes, -⟩
        · exact ⟨(List.cons.inj closes).2.symm, deep, trivial⟩
        · exact absurd rfl (goes _)
      | cons v vs =>
        rw [skipWs_items] at ends
        rcases ends with ⟨-, rfl⟩ | ⟨-, fuel', items, read, rfl⟩
        · simp only [jsonToLisp, jsonToLispAll, LispVal.list.injEq, reduceCtorEq] at same
        · simp only [jsonToLisp, LispVal.list.injEq] at same
          rcases good_of_items each read (List.cons_ne_nil _ _) same with ⟨restSame, good⟩
          exact ⟨restSame, deep, good⟩
  | map d each =>
    intro fuel depth document rest rest' found stops same
    cases fuel with
    | zero => simp only [Json.read, reduceCtorEq] at found
    | succ fuel =>
      simp only [toJson, List.append_assoc, List.cons_append, List.nil_append] at found
      rw [Json.read_other (by decide)] at found
      rcases Json.readOther_object found with ⟨deep, ends⟩
      simp only [Good]
      cases d with
      | nil =>
        simp only [toJsonEntries, commas, List.nil_append] at ends
        rw [Json.skipWs_cons (by decide)] at ends
        rcases ends with ⟨closes, -⟩ | ⟨goes, -⟩
        · exact ⟨(List.cons.inj closes).2.symm, deep, trivial⟩
        · exact absurd rfl (goes _)
      | cons entry d =>
        rw [skipWs_entries] at ends
        rcases ends with ⟨-, rfl⟩ | ⟨-, fuel', members, read, rfl⟩
        · simp only [jsonToLisp, jsonToLispMembers, LispVal.map.injEq, reduceCtorEq] at same
        · simp only [jsonToLisp, LispVal.map.injEq] at same
          rcases good_of_members each read (List.cons_ne_nil _ _) same with ⟨restSame, good⟩
          exact ⟨restSame, deep, good⟩
  | other v notList notMap =>
    intro fuel depth document rest rest' found stops same
    cases fuel with
    | zero => simp only [Json.read, reduceCtorEq] at found
    | succ fuel =>
      have text {t : List Char}
          (found : Json.read E.number (fuel + 1) depth (quoted t ++ rest) =
            some (document, rest')) :
          ∃ s, document = .str s ∧ Json.readChars fuel (t ++ '"' :: rest) = some (s, rest') := by
        simp only [quoted, List.append_assoc, List.cons_append, List.nil_append] at found
        rw [Json.read_other (by decide), Json.readOther_string] at found
        rcases Option.map_eq_some_iff.mp found with ⟨⟨s, after⟩, read, same⟩
        cases same
        exact ⟨s, rfl, read⟩
      cases v with
      | list l => exact absurd rfl (notList l)
      | map d => exact absurd rfl (notMap d)
      | num n =>
        simp only [toJson] at found
        simp only [Good]
        rcases decimal_token E n with ⟨nonempty, all⟩
        rw [Json.read_number all nonempty (fun c mem => notDelim_of_number (all c mem)) stops,
          E.number_decimal] at found
        cases found
        exact ⟨rfl, trivial⟩
      | float f => exact readsGood_float found stops same
      | str s =>
        simp only [toJson] at found
        simp only [Good]
        rcases text found with ⟨s', rfl, read⟩
        simp only [jsonToLisp, LispVal.str.injEq] at same
        subst same
        rw [String.toList_ofList] at read ⊢
        exact Json.plain_of_readChars read
      | bool b =>
        simp only [Good]
        cases b with
        | true =>
          simp only [toJson, if_true, List.cons_append, List.nil_append] at found
          rw [Json.read_other (by decide)] at found
          simp only [Json.readOther] at found
          cases found
          exact ⟨rfl, trivial⟩
        | false =>
          simp only [toJson, Bool.false_eq_true, if_false, List.cons_append, List.nil_append]
            at found
          rw [Json.read_other (by decide)] at found
          simp only [Json.readOther] at found
          cases found
          exact ⟨rfl, trivial⟩
      | nil =>
        simp only [Good]
        simp only [toJson, List.cons_append, List.nil_append] at found
        rw [Json.read_other (by decide)] at found
        simp only [Json.readOther] at found
        cases found
        exact ⟨rfl, trivial⟩
      | _ =>
        simp only [toJson] at found
        rcases text found with ⟨s', rfl, -⟩
        simp only [jsonToLisp, reduceCtorEq] at same

/-- What is printed without a loss is read back, whatever follows. -/
def ReadsBack (E : Externals) (v : LispVal) : Prop :=
  ∀ fuel depth rest, Good E depth v → 2 * (toJson E v).length < fuel → Json.Stops rest →
    ∃ document, Json.read E.number fuel depth (toJson E v ++ rest) = some (document, rest) ∧
      jsonToLisp document = v

theorem length_commas_cons (t : List Char) (ts : List (List Char)) :
    (commas (t :: ts)).length = t.length + if ts = [] then 0 else (commas ts).length + 1 := by
  have same := congrArg List.length (commas_cons t ts [])
  simp only [List.append_nil, List.length_append] at same
  rw [same]
  split <;> simp

theorem items_of_good {vs : List LispVal} (each : ∀ v ∈ vs, ReadsBack E v) :
    ∀ fuel rest {depth}, GoodAll E depth vs → vs ≠ [] →
      2 * (commas (toJsonAll E vs)).length + 1 < fuel →
      ∃ items, Json.readItems E.number fuel depth (commas (toJsonAll E vs) ++ ']' :: rest) =
          some (items, rest) ∧
        jsonToLispAll items = vs := by
  induction vs with
  | nil => exact fun _ _ _ _ nonempty => absurd rfl nonempty
  | cons v vs ih =>
    intro fuel rest depth good _ enough
    simp only [GoodAll] at good
    simp only [toJsonAll, length_commas_cons] at enough
    cases fuel with
    | zero => omega
    | succ fuel =>
      have stops : Json.Stops (if toJsonAll E vs = [] then ']' :: rest else
          ',' :: (commas (toJsonAll E vs) ++ ']' :: rest)) := by
        split <;> exact stops_cons (by decide) _
      rcases each v List.mem_cons_self fuel depth _ good.1 (by omega) stops with
        ⟨item, read, itemSame⟩
      simp only [toJsonAll, commas_cons, Json.readItems, skipWs_toJson, read]
      cases vs with
      | nil =>
        refine ⟨[item], ?_, by simp only [jsonToLispAll, itemSame]⟩
        have closes : Json.skipWs (']' :: rest) = ']' :: rest := Json.skipWs_cons (by decide) _
        simp only [toJsonAll, if_true, Option.bind_eq_bind, Option.bind_some, closes]
      | cons w ws =>
        simp only [toJsonAll, reduceCtorEq, if_false] at enough
        rcases ih (fun v mem => each v (List.mem_cons_of_mem _ mem)) fuel rest good.2
          (List.cons_ne_nil _ _) (by simp only [toJsonAll]; omega) with ⟨items, later, itemsSame⟩
        refine ⟨item :: items, ?_, by simp only [jsonToLispAll, itemSame, itemsSame]⟩
        simp only [toJsonAll] at later
        simp only [toJsonAll, reduceCtorEq, if_false, Option.bind_eq_bind, Option.bind_some]
        rw [Json.skipWs_cons (by decide)]
        simp only [later, Option.bind_some]

theorem members_of_good {d : List (String × LispVal)}
    (each : ∀ k v, (k, v) ∈ d → ReadsBack E v) :
    ∀ fuel rest {depth}, GoodEntries E depth d → d ≠ [] →
      2 * (commas (toJsonEntries E d)).length + 1 < fuel →
      ∃ members, Json.readMembers E.number fuel depth
          (commas (toJsonEntries E d) ++ '\x7d' :: rest) = some (members, rest) ∧
        jsonToLispMembers members = d := by
  induction d with
  | nil => exact fun _ _ _ _ nonempty => absurd rfl nonempty
  | cons entry d ih =>
    rcases entry with ⟨k, v⟩
    intro fuel rest depth good _ enough
    simp only [GoodEntries] at good
    simp only [toJsonEntries, length_commas_cons, quoted, List.length_append, List.length_cons,
      List.length_nil] at enough
    cases fuel with
    | zero => omega
    | succ fuel =>
      have stops : Json.Stops (if toJsonEntries E d = [] then '\x7d' :: rest else
          ',' :: (commas (toJsonEntries E d) ++ '\x7d' :: rest)) := by
        split <;> exact stops_cons (by decide) _
      rcases each k v List.mem_cons_self fuel depth _ good.2.1 (by omega) stops with
        ⟨value, read, valueSame⟩
      have readKey (rest : List Char) :
          Json.readChars fuel (k.toList ++ '"' :: rest) = some (k.toList, rest) :=
        Json.readChars_plain good.1 (by omega)
      simp only [toJsonEntries, commas_cons, quoted, List.append_assoc, List.cons_append,
        List.nil_append, Json.readMembers]
      rw [Json.skipWs_cons (by decide)]
      simp only [readKey, Option.bind_eq_bind, Option.bind_some]
      rw [Json.skipWs_cons (by decide)]
      simp only [skipWs_toJson, read, Option.bind_some]
      cases d with
      | nil =>
        refine ⟨[(k.toList, value)], ?_, by
          simp only [jsonToLispMembers, valueSame, String.ofList_toList]⟩
        have closes : Json.skipWs ('\x7d' :: rest) = '\x7d' :: rest :=
          Json.skipWs_cons (by decide) _
        simp only [toJsonEntries, if_true, closes]
      | cons entry' d =>
        simp only [toJsonEntries, reduceCtorEq, if_false] at enough
        rcases ih (fun k v mem => each k v (List.mem_cons_of_mem _ mem)) fuel rest good.2.2
          (List.cons_ne_nil _ _) (by simp only [toJsonEntries]; omega) with
          ⟨members, later, membersSame⟩
        refine ⟨(k.toList, value) :: members, ?_, by
          simp only [jsonToLispMembers, valueSame, membersSame, String.ofList_toList]⟩
        simp only [toJsonEntries] at later
        simp only [toJsonEntries, reduceCtorEq, if_false]
        rw [Json.skipWs_cons (by decide)]
        simp only [later, Option.bind_some]

theorem readsBack (v : LispVal) : ReadsBack E v := by
  induction v using LispVal.nested_induct with
  | list l each =>
    intro fuel depth rest good enough stops
    simp only [Good] at good
    simp only [toJson, List.length_append, List.length_cons, List.length_nil] at enough
    rcases fuel with _ | _ | fuel
    · omega
    · omega
    · rcases Nat.exists_eq_add_of_le' good.1 with ⟨depth, rfl⟩
      simp only [toJson, List.append_assoc, List.cons_append, List.nil_append]
      rw [Json.read_other (by decide)]
      cases l with
      | nil =>
        refine ⟨.arr [], ?_, rfl⟩
        have closes : Json.skipWs (']' :: rest) = ']' :: rest := Json.skipWs_cons (by decide) _
        simp only [toJsonAll, commas, List.nil_append, Json.readOther, closes]
      | cons v vs =>
        have goodAll : GoodAll E (depth + 1) (v :: vs) := good.2
        rcases items_of_good each fuel rest goodAll (List.cons_ne_nil _ _) (by omega) with
          ⟨items, read, same⟩
        refine ⟨.arr items, ?_, by simp only [jsonToLisp, same]⟩
        have goes (rest' : List Char) :
            Json.skipWs (commas (toJsonAll E (v :: vs)) ++ ']' :: rest) ≠ ']' :: rest' := by
          rw [skipWs_items]
          simp only [toJsonAll, commas_cons]
          rcases toJson_head (E := E) v with ⟨c, cs, same, notDelim⟩
          rw [same, List.cons_append]
          intro closes
          exact (notWs_of_notDelim notDelim).2.1 (List.cons.inj closes).1
        rw [Json.readOther_items goes, skipWs_items, read]
        rfl
  | map d each =>
    intro fuel depth rest good enough stops
    simp only [Good] at good
    simp only [toJson, List.length_append, List.length_cons, List.length_nil] at enough
    rcases fuel with _ | _ | fuel
    · omega
    · omega
    · rcases Nat.exists_eq_add_of_le' good.1 with ⟨depth, rfl⟩
      simp only [toJson, List.append_assoc, List.cons_append, List.nil_append]
      rw [Json.read_other (by decide)]
      cases d with
      | nil =>
        refine ⟨.obj [], ?_, rfl⟩
        have closes : Json.skipWs ('\x7d' :: rest) = '\x7d' :: rest :=
          Json.skipWs_cons (by decide) _
        simp only [toJsonEntries, commas, List.nil_append, Json.readOther, closes]
      | cons entry d =>
        have goodAll : GoodEntries E (depth + 1) (entry :: d) := good.2
        rcases members_of_good each fuel rest goodAll (List.cons_ne_nil _ _) (by omega) with
          ⟨members, read, same⟩
        refine ⟨.obj members, ?_, by simp only [jsonToLisp, same]⟩
        have goes (rest' : List Char) :
            Json.skipWs (commas (toJsonEntries E (entry :: d)) ++ '\x7d' :: rest) ≠
              '\x7d' :: rest' := by
          rw [skipWs_entries]
          rcases entry with ⟨k, v⟩
          simp only [toJsonEntries, commas_cons, quoted, List.cons_append]
          intro closes
          cases (List.cons.inj closes).1
        rw [Json.readOther_members goes, skipWs_entries, read]
        rfl
  | other v notList notMap =>
    intro fuel depth rest good enough stops
    rcases fuel with _ | fuel
    · omega
    · cases v with
      | list l => exact absurd rfl (notList l)
      | map d => exact absurd rfl (notMap d)
      | num n =>
        simp only [toJson]
        rcases decimal_token E n with ⟨nonempty, all⟩
        refine ⟨.num (.int n), ?_, rfl⟩
        rw [Json.read_number all nonempty (fun c mem => notDelim_of_number (all c mem)) stops,
          E.number_decimal]
        rfl
      | float f =>
        simp only [Good] at good
        simp only [toJson]
        rcases E.number_token good with ⟨nonempty, all⟩
        refine ⟨.num (.float f), ?_, rfl⟩
        rw [Json.read_number all nonempty (E.floatText_token f) stops, good]
        rfl
      | str s =>
        simp only [Good] at good
        simp only [toJson, quoted, List.length_append, List.length_cons] at enough
        simp only [toJson, quoted, List.append_assoc, List.cons_append, List.nil_append]
        refine ⟨.str s.toList, ?_, by simp only [jsonToLisp, String.ofList_toList]⟩
        rw [Json.read_other (by decide), Json.readOther_string,
          Json.readChars_plain good (by omega)]
        rfl
      | bool b =>
        refine ⟨.bool b, ?_, rfl⟩
        cases b with
        | true =>
          simp only [toJson, if_true, List.cons_append, List.nil_append]
          rw [Json.read_other (by decide)]
          simp only [Json.readOther]
        | false =>
          simp only [toJson, Bool.false_eq_true, if_false, List.cons_append, List.nil_append]
          rw [Json.read_other (by decide)]
          simp only [Json.readOther]
      | nil =>
        refine ⟨.null, ?_, rfl⟩
        simp only [toJson, List.cons_append, List.nil_append]
        rw [Json.read_other (by decide)]
        simp only [Json.readOther]
      | _ => simp only [Good] at good

/-! ### Both printers -/

theorem hexValue_hexDigit : ∀ n < 16, Json.hexValue (hexDigit n) = some n := by decide

theorem readEscape_control {c : Char} (control : c.toNat < 0x20) (rest : List Char) :
    Json.readEscape ((controlEscape c).tail ++ rest) = some (c, rest) := by
  have high := hexValue_hexDigit (c.toNat / 16) (by omega)
  have low := hexValue_hexDigit (c.toNat % 16) (by omega)
  have zero : Json.hexValue '0' = some 0 := by decide
  have code : ((0 * 16 + 0) * 16 + c.toNat / 16) * 16 + c.toNat % 16 = c.toNat := by omega
  simp only [controlEscape, List.tail_cons, List.cons_append, List.nil_append, Json.readEscape,
    if_true, Json.readUnicode, Json.hex4, zero, high, low, Option.bind_eq_bind, Option.bind_some,
    code]
  rw [if_pos (by omega), Char.ofNat_toNat]

/-- A quoted string is read as the string. -/
theorem readChars_escaped (s rest : List Char) :
    ∀ fuel, s.length < fuel →
      Json.readChars fuel (s.flatMap escapeChar ++ '"' :: rest) = some (s, rest) := by
  induction s with
  | nil =>
    intro fuel enough
    cases fuel with
    | zero => cases enough
    | succ fuel => simp only [Json.readChars, List.flatMap_nil, List.nil_append, if_true]
  | cons c s ih =>
    intro fuel enough
    cases fuel with
    | zero => cases enough
    | succ fuel =>
      have later := ih fuel (Nat.lt_of_succ_lt_succ enough)
      have escaped (e : List Char) (start : escapeChar c = '\\' :: e)
          (reads : ∀ rest, Json.readEscape (e ++ rest) = some (c, rest)) :
          Json.readChars (fuel + 1) ((c :: s).flatMap escapeChar ++ '"' :: rest) =
            some (c :: s, rest) := by
        rw [List.flatMap_cons, start, List.append_assoc, List.cons_append, Json.readChars,
          if_neg (by decide), if_pos rfl, reads]
        simp only [Option.bind_eq_bind, Option.bind_some, later]
      by_cases quote : c = '"'
      · subst quote
        exact escaped ['"'] rfl fun rest => rfl
      by_cases backslash : c = '\\'
      · subst backslash
        exact escaped ['\\'] rfl fun rest => rfl
      by_cases newline : c = '\n'
      · subst newline
        exact escaped ['n'] rfl fun rest => rfl
      by_cases tab : c = '\t'
      · subst tab
        exact escaped ['t'] rfl fun rest => rfl
      by_cases ret : c = '\r'
      · subst ret
        exact escaped ['r'] rfl fun rest => rfl
      by_cases control : c.toNat < 0x20
      · refine escaped (controlEscape c).tail ?_ (readEscape_control control)
        rw [escapeChar, if_neg quote, if_neg backslash, if_neg newline, if_neg tab, if_neg ret,
          if_pos control]
        rfl
      · rw [List.flatMap_cons, escapeChar, if_neg quote, if_neg backslash, if_neg newline,
          if_neg tab, if_neg ret, if_neg control, List.append_assoc, List.cons_append,
          List.nil_append, Json.readChars, if_neg quote, if_neg backslash, if_neg control, later]
        rfl

theorem escapeChar_plain {c : Char} (plain : Json.Plain c) : escapeChar c = [c] := by
  rcases plain with ⟨notQuote, notBackslash, printable⟩
  have not (d : Char) (low : d.toNat < 0x20) : c ≠ d := by
    rintro rfl
    omega
  rw [escapeChar, if_neg notQuote, if_neg notBackslash, if_neg (not '\n' (by decide)),
    if_neg (not '\t' (by decide)), if_neg (not '\r' (by decide)),
    if_neg (Nat.not_lt_of_le printable)]

theorem flatMap_plain {s : List Char} (plain : ∀ c ∈ s, Json.Plain c) :
    s.flatMap escapeChar = s := by
  induction s with
  | nil => rfl
  | cons c s ih =>
    rw [List.flatMap_cons, escapeChar_plain (plain c List.mem_cons_self),
      ih fun d mem => plain d (List.mem_cons_of_mem _ mem)]
    rfl

theorem length_le_escaped (s : List Char) : s.length ≤ (s.flatMap escapeChar).length := by
  have one (c : Char) : 1 ≤ (escapeChar c).length := by
    unfold escapeChar controlEscape
    split_ifs <;> simp
  induction s with
  | nil => exact Nat.le_refl _
  | cons c s ih =>
    rw [List.flatMap_cons, List.length_append, List.length_cons]
    have := one c
    omega

/-- Every string's quoted text is a literal of the string. -/
theorem quoted_read (s : List Char) :
    E.fromStr (quoted (s.flatMap escapeChar)) = .ok (.str s) := by
  have enough : s.length < 2 * (s.flatMap escapeChar ++ ['"']).length + 1 := by
    have := length_le_escaped s
    simp only [List.length_append]
    omega
  have skipped (cs : List Char) : Json.skipWs ('"' :: cs) = '"' :: cs :=
    Json.skipWs_cons (by decide) cs
  rw [E.fromStr_ok, quoted, List.cons_append, Json.readText, skipped, List.length_cons,
    Nat.mul_succ, Nat.add_right_comm, Json.read_other (by decide), Json.readOther_string,
    readChars_escaped s [] _ (by omega)]
  rfl

theorem jsonParse_iff {v : LispVal} {s : List Char} :
    jsonParse E (.str (String.ofList s)) = .ok v ↔
      ∃ document, Json.readText E.number 128 s = some document ∧ jsonToLisp document = v := by
  have text : asStr E (.str (String.ofList s)) = .ok s := by
    simp only [asStr, String.toList_ofList]
  simp only [jsonParse, text, bind, Except.bind, ← E.fromStr_ok]
  cases E.fromStr s with
  | ok document => simp
  | error e => simp

theorem readText_iff {v : LispVal} {document : Json Number} :
    Json.readText E.number 128 (toJson E v) = some document ↔
      ∃ rest, Json.read E.number (2 * (toJson E v).length + 1) 128 (toJson E v) =
        some (document, rest) ∧ Json.skipWs rest = [] := by
  have skipped : Json.skipWs (toJson E v) = toJson E v := by
    have same := skipWs_toJson (E := E) v []
    rwa [List.append_nil] at same
  rw [Json.readText, skipped]
  constructor
  · intro found
    rcases Option.bind_eq_some_iff.mp found with ⟨⟨document', rest⟩, read, ends⟩
    by_cases blank : Json.skipWs rest = []
    · simp only [blank, if_true, Option.some.injEq] at ends
      exact ⟨rest, ends ▸ read, blank⟩
    · simp only [blank, if_false, reduceCtorEq] at ends
  · rintro ⟨rest, read, blank⟩
    simp only [read, Option.bind_eq_bind, Option.bind_some, blank, if_true]

variable (E)

/-- `to-json` is read back, `json-quote` gives a literal of its string, and the two agree on
strings. -/
structure Agrees (v : LispVal) : Prop where
  readBack : jsonParse E (evalToJson E [v]) = .ok v
  quotes : ∀ s, ∃ t, jsonQuote [.str s] = .str (String.ofList t) ∧
    E.fromStr t = .ok (.str s.toList)
  same : ∀ s, v = .str s → evalToJson E [v] = jsonQuote [v]

variable {E}

theorem good_of_readBack {v : LispVal} (back : jsonParse E (evalToJson E [v]) = .ok v) :
    Good E 128 v := by
  rw [evalToJson_singleton] at back
  rcases jsonParse_iff.mp back with ⟨document, found, same⟩
  rcases readText_iff.mp found with ⟨rest, read, -⟩
  rw [← List.append_nil (toJson E v)] at read
  have stops : Json.Stops [] := by rintro c ⟨⟩
  exact (readsGood v _ _ _ [] rest read stops same).2

theorem readBack_of_good {v : LispVal} (good : Good E 128 v) :
    jsonParse E (evalToJson E [v]) = .ok v := by
  have stops : Json.Stops [] := by rintro c ⟨⟩
  rcases readsBack v (2 * (toJson E v).length + 1) 128 [] good (Nat.lt_succ_self _) stops with
    ⟨document, read, same⟩
  rw [List.append_nil] at read
  rw [evalToJson_singleton]
  exact jsonParse_iff.mpr ⟨document, readText_iff.mpr ⟨[], read, rfl⟩, same⟩

/-- Texts are read back exactly where no string or key needs an escape, each float's text is read as
the float, and no value is nested too deep. -/
theorem agrees_iff (E : Externals) (v : LispVal) : Agrees E v ↔ Good E 128 v := by
  constructor
  · exact fun agrees => good_of_readBack agrees.readBack
  · intro good
    refine ⟨readBack_of_good good, fun s => ⟨_, rfl, quoted_read s.toList⟩, ?_⟩
    rintro s rfl
    simp only [Good] at good
    simp only [evalToJson_singleton, jsonQuote, toJson, flatMap_plain good]

end Reading

/-! ### Whole numbers -/

def wholeNumber : List Char → Int
  | '-' :: digits => -(Nat.ofDigitChars 10 digits 0 : Int)
  | digits => Nat.ofDigitChars 10 digits 0

theorem decimal_eq (n : Int64) :
    decimal n = if 0 ≤ n.toInt then Nat.toDigits 10 n.toInt.toNat
      else '-' :: Nat.toDigits 10 (-n.toInt).toNat := by
  rw [decimal, Int.toString_eq_repr, Int.repr_eq_if]
  split
  · exact Nat.toList_repr
  · rw [String.toList_append, Nat.toList_repr]
    rfl

theorem isNumberChar_of_digit {c : Char} (digit : c.isDigit = true) :
    Json.isNumberChar c = true := by
  simp only [Json.isNumberChar, digit, true_or, decide_true]

theorem decimal_isNumberChar (n : Int64) : ∀ c ∈ decimal n, Json.isNumberChar c = true := by
  have digits {m : Nat} {c : Char} (mem : c ∈ Nat.toDigits 10 m) : Json.isNumberChar c = true :=
    isNumberChar_of_digit (Nat.isDigit_of_mem_toDigits (by decide) (by decide) mem)
  intro c mem
  rw [decimal_eq] at mem
  split at mem
  · exact digits mem
  · rcases List.mem_cons.mp mem with rfl | mem
    · decide
    · exact digits mem

theorem decimal_ne_nil (n : Int64) : decimal n ≠ [] := by
  rw [decimal_eq]
  split
  · exact Nat.toDigits_ne_nil
  · exact List.cons_ne_nil _ _

theorem wholeNumber_decimal (n : Int64) : wholeNumber (decimal n) = n.toInt := by
  rw [decimal_eq]
  split
  · rename_i nonneg
    have noSign : ∀ digits, Nat.toDigits 10 n.toInt.toNat ≠ '-' :: digits := by
      intro digits same
      have minus : ('-' : Char) ∈ Nat.toDigits 10 n.toInt.toNat := by
        rw [same]
        exact List.mem_cons_self
      exact absurd (Nat.isDigit_of_mem_toDigits (by decide) (by decide) minus) (by decide)
    rw [wholeNumber.eq_2 _ noSign, Nat.ofDigitChars_ten_toDigits]
    omega
  · rw [wholeNumber, Nat.ofDigitChars_ten_toDigits]
    omega

def readWhole (t : List Char) : Option Number :=
  let n := Int64.ofInt (wholeNumber t)
  if decimal n = t then some (.int n) else none

/-- A reader of `i64`s, which knows no floats. -/
def wholeNumbers : Externals where
  floatText _ := ['N', 'a', 'N']
  floatText_ne _ := List.cons_ne_nil _ _
  floatText_token _ c mem := by
    simp only [List.mem_cons, List.not_mem_nil, or_false] at mem
    rcases mem with rfl | rfl | rfl <;> decide
  number := readWhole
  number_token {t x} found := by
    simp only [readWhole, Option.ite_none_right_eq_some] at found
    rw [← found.1]
    exact ⟨decimal_ne_nil _, decimal_isNumberChar _⟩
  number_decimal n := by
    simp only [readWhole, wholeNumber_decimal, Int64.ofInt_toInt, if_true]
  fromStr t :=
    match Json.readText readWhole 128 t with
    | some j => .ok j
    | none => .error "expected value"
  fromStr_ok t j := by
    split <;> simp_all

/-- A quote is printed as it is. -/
theorem quote_not_agrees : ¬∀ E v, Agrees E v := by
  intro all
  have good := good_of_readBack (all wholeNumbers (.str "\"")).readBack
  simp only [Good] at good
  exact (good '"' (by decide)).1 rfl

end JsonPrinting

end LispRlm.Bytecode
