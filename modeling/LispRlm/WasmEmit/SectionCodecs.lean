import LispRlm.WasmEmit.CustomSections

/-! The custom sections are read back as they were written, and where the decoders are total. -/

namespace LispRlm.WasmEmit.CustomSections

/-! ### Faults -/

def NoFault {α : Type} (r : Except Stop α) : Prop := ∀ f, r ≠ .error (.fault f)

theorem noFault_ok {α : Type} (a : α) : NoFault (.ok a : Except Stop α) := fun _ => nofun

theorem noFault_none {α : Type} : NoFault (.error .none : Except Stop α) := fun _ => nofun

theorem not_noFault {α : Type} (f : Fault) : ¬ NoFault (.error (.fault f) : Except Stop α) :=
  fun safe => safe f rfl

theorem noFault_error_iff {α β : Type} {e : Stop} :
    NoFault (.error e : Except Stop α) ↔ NoFault (.error e : Except Stop β) := by
  cases e with
  | none => exact iff_of_true noFault_none noFault_none
  | fault f => exact iff_of_false (not_noFault f) (not_noFault f)

/-- A loop that looks at the shift ends before it is too far. -/
theorem readLeb_noFault {shift acc : Nat} (bytes : List UInt8) (short : shift ≤ 35) :
    NoFault (readLeb true shift acc bytes) := by
  induction bytes generalizing shift acc with
  | nil => exact noFault_none
  | cons b bytes ih =>
    rw [readLeb, if_neg (by omega)]
    dsimp only
    split
    · exact noFault_ok _
    split
    · exact noFault_none
    · rename_i next
      exact ih (by simpa using next)

theorem readSize_noFault (bytes : List UInt8) : NoFault (readSize bytes) :=
  readLeb_noFault bytes (Nat.zero_le _)

theorem readLebU32_noFault (bytes : List UInt8) : NoFault (readLebU32 bytes) := by
  have safe : NoFault (readLeb true 0 0 bytes) := readLeb_noFault bytes (Nat.zero_le 35)
  intro f
  rw [readLebU32]
  cases read : readLeb true 0 0 bytes with
  | ok found =>
    intro same
    cases same
  | error e =>
    intro same
    cases same
    exact safe f read

/-- A number ends within ten bytes, or the bytes do. -/
def Ends (bytes : List UInt8) : Prop := bytes.length ≤ 10 ∨ ∃ b ∈ bytes.take 10, b.toNat < 128

theorem readLeb_noFault_iff {k : Nat} (acc : Nat) (bytes : List UInt8) (within : k ≤ 10) :
    NoFault (readLeb false (7 * k) acc bytes) ↔
      bytes.length ≤ 10 - k ∨ ∃ b ∈ bytes.take (10 - k), b.toNat < 128 := by
  induction bytes generalizing k acc with
  | nil => exact iff_of_true noFault_none (.inl (Nat.zero_le _))
  | cons b bytes ih =>
    rw [readLeb]
    rcases Nat.eq_or_lt_of_le within with rfl | less
    · exact iff_of_false (not_noFault _) (by simp)
    obtain ⟨m, left⟩ : ∃ m, 10 - k = m + 1 := ⟨10 - (k + 1), by omega⟩
    rw [if_neg (by omega), left, List.take_succ_cons, List.exists_mem_cons_iff, List.length_cons]
    dsimp only
    by_cases last : b.toNat < 128
    · rw [if_pos ((and_high b).mpr last)]
      exact iff_of_true (noFault_ok _) (.inr (.inl last))
    · have onward := ih (k := k + 1) (acc ||| ((b &&& 0x7f).toNat <<< (7 * k)) % 2 ^ 64) less
      have left' : 10 - (k + 1) = m := by rw [Nat.sub_add_eq, left, Nat.add_sub_cancel]
      rw [left'] at onward
      rw [if_neg (fun ends => last ((and_high b).mp ends)), if_neg (by simp), or_iff_right last,
        Nat.add_le_add_iff_right]
      exact onward

theorem readNumber_noFault_iff (bytes : List UInt8) : NoFault (readNumber bytes) ↔ Ends bytes :=
  readLeb_noFault_iff 0 bytes (Nat.zero_le 10)

theorem slice_noFault_iff (len n : Nat) (rest : List UInt8) :
    NoFault (slice len n rest) ↔ len - rest.length + n < 2 ^ 64 := by
  rw [slice]
  split
  · rename_i far
    exact iff_of_false (not_noFault _) (Nat.not_lt.mpr far)
  · rename_i near
    refine iff_of_true ?_ (Nat.not_le.mp near)
    split
    · exact noFault_none
    · exact noFault_ok _

theorem slice_ok {len n : Nat} {rest taken after : List UInt8}
    (cut : slice len n rest = .ok (taken, after)) :
    n ≤ rest.length ∧ taken = rest.take n ∧ after = rest.drop n := by
  rw [slice] at cut
  split at cut
  · cases cut
  split at cut
  · cases cut
  · rename_i enough
    cases cut
    exact ⟨Nat.not_lt.mp enough, rfl, rfl⟩

theorem slice_of_le {len n : Nat} {rest : List UInt8} (near : len - rest.length + n < 2 ^ 64)
    (enough : n ≤ rest.length) : slice len n rest = .ok (rest.take n, rest.drop n) := by
  rw [slice, if_neg (Nat.not_le.mpr near), if_neg (Nat.not_lt.mpr enough)]

/-- A run that ends where its first part does has a fault if and only if that part has. -/
theorem noFault_error {α β : Type} {r : Except Stop α} {e : Stop} {P : Prop}
    (ends : r = .error e) (first : NoFault r ↔ P) : NoFault (.error e : Except Stop β) ↔ P := by
  rw [← first, ends, noFault_error_iff]

theorem holds_of_ok {α : Type} {r : Except Stop α} {a : α} {P : Prop} (ends : r = .ok a)
    (first : NoFault r ↔ P) : P := by
  rw [← first, ends]
  exact noFault_ok a

/-! ### Where the keys are read without a fault -/

/-- Each length ends within ten bytes and within the places there are. -/
def KeysFit (len : Nat) : Nat → List UInt8 → Prop
  | 0, _ => True
  | count + 1, rest => Ends rest ∧ ∀ klen more, readNumber rest = .ok (klen, more) →
      len - more.length + klen < 2 ^ 64 ∧
        (klen ≤ more.length → KeysFit len count (more.drop klen))

theorem decodeKeys_noFault_iff (replaced : List UInt8 → String) (len count : Nat)
    (rest : List UInt8) :
    NoFault (decodeKeys replaced len count rest) ↔ KeysFit len count rest := by
  induction count generalizing rest with
  | zero => exact iff_of_true (noFault_ok _) trivial
  | succ count ih =>
    have first := readNumber_noFault_iff rest
    rw [decodeKeys, KeysFit]
    cases read : readNumber rest with
    | error e => exact (noFault_error read first).trans (and_iff_left nofun).symm
    | ok found =>
      rcases found with ⟨klen, more⟩
      have second := slice_noFault_iff len klen more
      rw [and_iff_right (holds_of_ok read first)]
      dsimp only
      trans len - more.length + klen < 2 ^ 64 ∧
        (klen ≤ more.length → KeysFit len count (more.drop klen))
      · cases cut : slice len klen more with
        | error e =>
          refine (noFault_error cut second).trans (and_iff_left_of_imp ?_).symm
          intro near enough
          rw [slice_of_le near enough] at cut
          cases cut
        | ok both =>
          rcases both with ⟨key, after⟩
          rcases slice_ok cut with ⟨enough, _, rfl⟩
          rw [and_iff_right (holds_of_ok cut second), forall_prop_of_true enough, ← ih]
          dsimp only
          cases keys : decodeKeys replaced len count (more.drop klen) with
          | error e => exact noFault_error_iff
          | ok keys => exact iff_of_true (noFault_ok _) (noFault_ok _)
      · constructor
        · intro fits klen' more' same
          cases same
          exact fits
        · intro fits
          exact fits klen more rfl

/-- The same for what is read of a custom section before its keys. -/
def CountFits (payload : List UInt8) : Prop :=
  Ends payload ∧ ∀ nlen rest, readNumber payload = .ok (nlen, rest) →
    payload.length - rest.length + nlen < 2 ^ 64 ∧
      (nlen ≤ rest.length → rest.take nlen = paramsName → Ends (rest.drop nlen))

theorem paramsCount_noFault_iff (payload : List UInt8) :
    NoFault (paramsCount payload) ↔ CountFits payload := by
  have first := readNumber_noFault_iff payload
  rw [paramsCount, CountFits]
  cases read : readNumber payload with
  | error e => exact (noFault_error read first).trans (and_iff_left nofun).symm
  | ok found =>
    rcases found with ⟨nlen, rest⟩
    have second := slice_noFault_iff payload.length nlen rest
    rw [and_iff_right (holds_of_ok read first)]
    dsimp only
    trans payload.length - rest.length + nlen < 2 ^ 64 ∧
      (nlen ≤ rest.length → rest.take nlen = paramsName → Ends (rest.drop nlen))
    · cases cut : slice payload.length nlen rest with
      | error e =>
        refine (noFault_error cut second).trans (and_iff_left_of_imp ?_).symm
        intro near enough
        rw [slice_of_le near enough] at cut
        cases cut
      | ok both =>
        rcases both with ⟨name, after⟩
        rcases slice_ok cut with ⟨enough, rfl, rfl⟩
        have third := readNumber_noFault_iff (rest.drop nlen)
        rw [and_iff_right (holds_of_ok cut second), forall_prop_of_true enough]
        dsimp only
        by_cases named : rest.take nlen = paramsName
        · rw [if_pos named, forall_prop_of_true named]
          cases count : readNumber (rest.drop nlen) with
          | error e => exact noFault_error count third
          | ok counted => exact iff_of_true (noFault_ok _) (holds_of_ok count third)
        · rw [if_neg named]
          exact iff_of_true (noFault_ok _) fun same => absurd same named
    · constructor
      · intro fits nlen' rest' same
        cases same
        exact fits
      · intro fits
        exact fits nlen rest rfl

/-! ### The sections that the decoder of the keys reads -/

/-- The custom sections up to the one that it ends at. -/
def customs : List UInt8 → List (List UInt8)
  | [] => []
  | id :: rest =>
      match _read : readSize rest with
      | .error _ => []
      | .ok (size, rest) =>
          if id = 0 then
            rest.take size ::
              match paramsCount (rest.take size) with
              | .ok none => customs (rest.drop size)
              | _ => []
          else customs (rest.drop size)
termination_by bytes => bytes.length
decreasing_by
  all_goals
    have := readLeb_shorter _read
    simp only [List.length_drop, List.length_cons]
    omega

theorem readLeb_lt {shift acc v : Nat} {bytes rest : List UInt8} (short : shift ≤ 35)
    (low : acc < 2 ^ 42) (read : readLeb true shift acc bytes = .ok (v, rest)) : v < 2 ^ 42 := by
  induction bytes generalizing shift acc with
  | nil => cases read
  | cons b bytes ih =>
    have next : acc ||| ((b &&& 0x7f).toNat <<< shift) % 2 ^ 64 < 2 ^ 42 := by
      apply Nat.or_lt_two_pow low
      have digit : (b &&& 0x7f).toNat < 128 := by
        rw [and_low]
        exact Nat.mod_lt _ (by decide)
      have power := Nat.pow_le_pow_right (n := 2) (by decide) short
      have product := Nat.mul_le_mul (Nat.le_of_lt_succ digit) power
      rw [Nat.shiftLeft_eq]
      exact Nat.lt_of_le_of_lt (Nat.mod_le _ _) (by omega)
    rw [readLeb, if_neg (by omega)] at read
    dsimp only at read
    split at read
    · cases read
      exact next
    split at read
    · cases read
    · rename_i onward
      exact ih (by simpa using onward) next read

/-- The end of a section is a place: there are fewer bytes than places. -/
theorem size_near {len size : Nat} {bytes rest : List UInt8} (short : len < 2 ^ 63)
    (read : readSize bytes = .ok (size, rest)) : ¬ 2 ^ 64 ≤ len - rest.length + size := by
  have small := readLeb_lt (Nat.zero_le 35) (by decide) read
  omega

theorem paramsHeader_error {len : Nat} {id : UInt8} {rest : List UInt8} {e : Stop}
    (read : readSize rest = .error e) : paramsHeader len (id :: rest) = .error e := by
  rw [paramsHeader]
  split
  · rename_i same
    rw [read] at same
    cases same
    rfl
  · rename_i same
    rw [read] at same
    cases same

theorem paramsHeader_ok {len size : Nat} {id : UInt8} {rest after : List UInt8}
    (read : readSize rest = .ok (size, after)) (near : ¬ 2 ^ 64 ≤ len - after.length + size) :
    paramsHeader len (id :: rest) =
      if id = 0 then
        match paramsCount (after.take size) with
        | .error e => .error e
        | .ok (some counted) => .ok counted
        | .ok none => paramsHeader len (after.drop size)
      else paramsHeader len (after.drop size) := by
  rw [paramsHeader]
  split
  · rename_i same
    rw [read] at same
    cases same
  · rename_i same
    rw [read] at same
    cases same
    exact if_neg near

theorem customs_error {id : UInt8} {rest : List UInt8} {e : Stop}
    (read : readSize rest = .error e) : customs (id :: rest) = [] := by
  rw [customs]
  split
  · rfl
  · rename_i same
    rw [read] at same
    cases same

theorem customs_ok {size : Nat} {id : UInt8} {rest after : List UInt8}
    (read : readSize rest = .ok (size, after)) :
    customs (id :: rest) =
      if id = 0 then
        after.take size ::
          match paramsCount (after.take size) with
          | .ok none => customs (after.drop size)
          | _ => []
      else customs (after.drop size) := by
  rw [customs]
  split
  · rename_i same
    rw [read] at same
    cases same
  · rename_i same
    rw [read] at same
    cases same
    rfl

/-- By induction on the sections: the decoder's faults before it reserves room are those of the
custom sections that it reads, and it reserves room for what one of them counts. -/
theorem paramsHeader_customs {len : Nat} (short : len < 2 ^ 63) (bytes : List UInt8) :
    (NoFault (paramsHeader len bytes) ↔ ∀ payload ∈ customs bytes, CountFits payload) ∧
    ∀ c, paramsHeader len bytes = .ok c ↔
      ∃ payload ∈ customs bytes, paramsCount payload = .ok (some c) := by
  induction bytes using paramsHeader.induct len with
  | case1 =>
    rw [paramsHeader, customs]
    exact ⟨iff_of_true noFault_none nofun, fun c => iff_of_false nofun (by simp)⟩
  | case2 id rest e read =>
    have safe := readSize_noFault rest
    rw [paramsHeader_error read, customs_error read]
    rw [read] at safe
    exact ⟨iff_of_true (noFault_error_iff.mp safe) nofun, fun c => iff_of_false nofun (by simp)⟩
  | case3 id rest size after read far => exact absurd far (size_near short read)
  | case4 rest size after read near e count =>
    have fits := noFault_error (β := Counted) count (paramsCount_noFault_iff (after.take size))
    rw [paramsHeader_ok read near, customs_ok read, if_pos rfl, if_pos rfl, count]
    exact ⟨by simpa using fits, fun c => iff_of_false nofun (by simp [count])⟩
  | case5 rest size after read near counted count =>
    have fits := holds_of_ok count (paramsCount_noFault_iff (after.take size))
    rw [paramsHeader_ok read near, customs_ok read, if_pos rfl, if_pos rfl, count]
    refine ⟨iff_of_true (noFault_ok _) (by simpa using fits), fun c => ?_⟩
    simp [count]
  | case6 rest size after read near count ih =>
    have fits := holds_of_ok count (paramsCount_noFault_iff (after.take size))
    rw [paramsHeader_ok read near, customs_ok read, if_pos rfl, if_pos rfl, count]
    dsimp only
    rw [List.forall_mem_cons, and_iff_right fits]
    refine ⟨ih.1, fun c => ?_⟩
    rw [ih.2 c, List.exists_mem_cons_iff, count]
    exact (or_iff_right nofun).symm
  | case7 id rest size after read near other ih =>
    rw [paramsHeader_ok read near, customs_ok read, if_neg other, if_neg other]
    exact ih

/-- What the decoder of the keys does to be total: it has no fault and reserves room for no more
keys than there are bytes. -/
def ParamsTotal (replaced : List UInt8 → String) (wasm : List UInt8) : Prop :=
  NoFault (decodeParamsSection replaced wasm) ∧
    ∀ c, paramsHeader wasm.length (wasm.drop 8) = .ok c → c.count ≤ wasm.length

/-- In the custom sections up to that of the parameters, each number that is read ends within ten
bytes and stays within the places there are, and there are no more keys than bytes. -/
def ParamsFit (wasm : List UInt8) : Prop :=
  ∀ payload ∈ customs (wasm.drop 8), CountFits payload ∧
    ∀ c, paramsCount payload = .ok (some c) →
      c.count ≤ wasm.length ∧ KeysFit c.len c.count c.rest

theorem paramsTotal_iff (replaced : List UInt8 → String) {wasm : List UInt8}
    (short : wasm.length < 2 ^ 63) : ParamsTotal replaced wasm ↔ ParamsFit wasm := by
  rcases paramsHeader_customs short (wasm.drop 8) with ⟨fault, found⟩
  have body : NoFault (decodeParamsSection replaced wasm) ↔
      NoFault (paramsHeader wasm.length (wasm.drop 8)) ∧
        ∀ c, paramsHeader wasm.length (wasm.drop 8) = .ok c → KeysFit c.len c.count c.rest := by
    rw [decodeParamsSection]
    cases header : paramsHeader wasm.length (wasm.drop 8) with
    | error e =>
      rw [and_iff_left nofun]
      exact noFault_error_iff
    | ok c =>
      dsimp only
      rw [decodeKeys_noFault_iff, and_iff_right (noFault_ok c)]
      constructor
      · intro fits c' same
        cases same
        exact fits
      · intro fits
        exact fits c rfl
  rw [ParamsTotal, body, fault]
  constructor
  · rintro ⟨⟨counts, keys⟩, rooms⟩ payload mem
    refine ⟨counts payload mem, fun c count => ?_⟩
    have header := (found c).mpr ⟨payload, mem, count⟩
    exact ⟨rooms c header, keys c header⟩
  · intro fit
    refine ⟨⟨fun payload mem => (fit payload mem).1, fun c header => ?_⟩, fun c header => ?_⟩
    · rcases (found c).mp header with ⟨payload, mem, count⟩
      exact ((fit payload mem).2 c count).2
    · rcases (found c).mp header with ⟨payload, mem, count⟩
      exact ((fit payload mem).2 c count).1

/-! ### The decoder of the names -/

theorem readLebU32_lt {v : Nat} {bytes rest : List UInt8}
    (read : readLebU32 bytes = .ok (v, rest)) : v < 2 ^ 32 := by
  rw [readLebU32] at read
  cases inner : readLeb true 0 0 bytes with
  | error e =>
    rw [inner] at read
    cases read
  | ok found =>
    rw [inner] at read
    cases read
    exact Nat.mod_lt _ (by decide)

theorem slice_noFault {len n : Nat} (short : len < 2 ^ 63) (small : n < 2 ^ 32)
    (rest : List UInt8) : NoFault (slice len n rest) :=
  (slice_noFault_iff len n rest).mpr (by omega)

theorem noFault_of_error {α β : Type} {r : Except Stop α} {e : Stop} (ends : r = .error e)
    (safe : NoFault r) : NoFault (.error e : Except Stop β) :=
  (noFault_error ends (iff_of_true safe trivial)).mpr trivial

theorem decodeNames_noFault {len : Nat} (short : len < 2 ^ 63)
    (replaced : List UInt8 → String) (count : Nat) (rest : List UInt8) :
    NoFault (decodeNames replaced len count rest) := by
  induction count generalizing rest with
  | zero => exact noFault_ok _
  | succ count ih =>
    rw [decodeNames]
    split
    · rename_i read
      exact noFault_of_error read (readLebU32_noFault _)
    split
    · rename_i read
      exact noFault_of_error read (readLebU32_noFault _)
    rename_i read
    split
    · rename_i cut
      exact noFault_of_error cut (slice_noFault short (readLebU32_lt read) _)
    split
    · rename_i names
      exact noFault_of_error names (ih _)
    · exact noFault_ok _

theorem subsections_noFault {len : Nat} (short : len < 2 ^ 63) (bytes : List UInt8) :
    NoFault (subsections len bytes) := by
  induction size : bytes.length using Nat.strong_induction_on generalizing bytes with
  | _ n ih =>
  cases bytes with
  | nil =>
    rw [subsections]
    exact noFault_ok _
  | cons sub rest =>
    rw [subsections]
    split
    · rename_i read
      exact noFault_of_error read (readLebU32_noFault _)
    rename_i read
    have small := readLebU32_lt read
    have shorter := readLebU32_shorter read
    rw [if_neg (by omega)]
    split
    · split
      · rename_i count
        exact noFault_of_error count (readLebU32_noFault _)
      · exact noFault_ok _
    · refine ih _ ?_ _ rfl
      rw [List.length_drop, ← size, List.length_cons]
      omega

theorem namesCount_noFault {payload : List UInt8} (short : payload.length < 2 ^ 63) :
    NoFault (namesCount payload) := by
  rw [namesCount]
  split
  · rename_i read
    exact noFault_of_error read (readLebU32_noFault _)
  rename_i read
  split
  · rename_i cut
    exact noFault_of_error cut (slice_noFault short (readLebU32_lt read) _)
  split
  · exact subsections_noFault short _
  · exact noFault_ok _

theorem sections_error {len : Nat} {id : UInt8} {rest : List UInt8} {e : Stop}
    (read : readLebU32 rest = .error e) : sections len (id :: rest) = .ok [] := by
  rw [sections]
  split
  · rfl
  · rename_i same
    rw [read] at same
    cases same

theorem sections_ok {len size : Nat} {id : UInt8} {rest after : List UInt8}
    (short : len < 2 ^ 63) (read : readLebU32 rest = .ok (size, after)) :
    sections len (id :: rest) =
      match sections len (after.drop size) with
      | .error e => .error e
      | .ok more => .ok ((id, after.take size) :: more) := by
  have small := readLebU32_lt read
  rw [sections]
  split
  · rename_i same
    rw [read] at same
    cases same
  · rename_i same
    rw [read] at same
    cases same
    exact if_neg (by omega)

/-- The sections of any bytes, each shorter than what they are read from. -/
theorem sections_total {len : Nat} (short : len < 2 ^ 63) (bytes : List UInt8) :
    ∃ found, sections len bytes = .ok found ∧ ∀ s ∈ found, s.2.length ≤ bytes.length := by
  induction size : bytes.length using Nat.strong_induction_on generalizing bytes with
  | _ n ih =>
  cases bytes with
  | nil =>
    rw [sections]
    exact ⟨[], rfl, fun s mem => absurd mem List.not_mem_nil⟩
  | cons id rest =>
    rw [List.length_cons] at size
    cases read : readLebU32 rest with
    | error e => exact ⟨[], sections_error read, fun s mem => absurd mem List.not_mem_nil⟩
    | ok both =>
      rcases both with ⟨n', after⟩
      have shorter := readLebU32_shorter read
      have less : (after.drop n').length < n := by
        rw [List.length_drop]
        omega
      rcases ih _ less (after.drop n') rfl with ⟨more, found, within⟩
      refine ⟨(id, after.take n') :: more, by rw [sections_ok short read, found], ?_⟩
      intro s mem
      rcases List.mem_cons.mp mem with rfl | mem
      · rw [List.length_take]
        omega
      · exact Nat.le_of_lt (Nat.lt_of_le_of_lt (within s mem) less)

theorem namesHeader_noFault {found : List (UInt8 × List UInt8)}
    (short : ∀ s ∈ found, s.2.length < 2 ^ 63) : NoFault (namesHeader found) := by
  induction found with
  | nil => exact noFault_none
  | cons s found ih =>
    rcases List.forall_mem_cons.mp short with ⟨first, later⟩
    rw [namesHeader]
    split
    · exact ih later
    split
    · rename_i count
      exact noFault_of_error count (namesCount_noFault first)
    · exact noFault_ok _
    · exact ih later

theorem subsections_len {len : Nat} (bytes : List UInt8) {c : Counted}
    (count : subsections len bytes = .ok (some c)) : c.len = len := by
  induction size : bytes.length using Nat.strong_induction_on generalizing bytes with
  | _ n ih =>
  cases bytes with
  | nil =>
    rw [subsections] at count
    cases count
  | cons sub rest =>
    rw [subsections] at count
    split at count
    · cases count
    rename_i read
    have shorter := readLebU32_shorter read
    split at count
    · cases count
    split at count
    · split at count
      · cases count
      · cases count
        rfl
    · refine ih _ ?_ _ count rfl
      rw [List.length_drop, ← size, List.length_cons]
      omega

theorem namesCount_len {payload : List UInt8} {c : Counted}
    (count : namesCount payload = .ok (some c)) : c.len = payload.length := by
  rw [namesCount] at count
  split at count
  · cases count
  split at count
  · cases count
  split at count
  · exact subsections_len _ count
  · cases count

theorem namesHeader_len {found : List (UInt8 × List UInt8)} {c : Counted}
    (header : namesHeader found = .ok c) : ∃ s ∈ found, c.len = s.2.length := by
  induction found with
  | nil => cases header
  | cons s found ih =>
    rw [namesHeader] at header
    split at header
    · rcases ih header with ⟨t, mem, same⟩
      exact ⟨t, List.mem_cons_of_mem _ mem, same⟩
    split at header
    · cases header
    · rename_i count
      cases header
      exact ⟨s, List.mem_cons_self, namesCount_len count⟩
    · rcases ih header with ⟨t, mem, same⟩
      exact ⟨t, List.mem_cons_of_mem _ mem, same⟩

/-- The decoder of the names has no fault on any bytes. -/
theorem decodeFunctionNames_noFault (replaced : List UInt8 → String) {wasm : List UInt8}
    (short : wasm.length < 2 ^ 63) : NoFault (decodeFunctionNames replaced wasm) := by
  rcases sections_total short (wasm.drop 8) with ⟨found, read, within⟩
  have small : ∀ s ∈ found, s.2.length < 2 ^ 63 := by
    intro s mem
    have := within s mem
    rw [List.length_drop] at this
    omega
  rw [decodeFunctionNames, namesRoom, read]
  dsimp only
  split
  · rename_i header
    exact noFault_of_error header (namesHeader_noFault small)
  · rename_i header
    rcases namesHeader_len header with ⟨s, mem, same⟩
    exact decodeNames_noFault (by rw [same]; exact small s mem) _ _ _

/-! ### Round trips -/

theorem fromUtf8Lossy_bytesOf (replaced : List UInt8 → String) (s : String) :
    fromUtf8Lossy replaced (bytesOf s) = s := by
  have same : (⟨(bytesOf s).toArray⟩ : ByteArray) = s.toByteArray := by rw [bytesOf]
  rw [fromUtf8Lossy, dif_pos (by rw [same]; exact s.isValidUTF8)]
  exact String.toByteArray_inj.mp same

theorem readNumber_leb {v : Nat} (small : v < 2 ^ 32) (rest : List UInt8) :
    readNumber (leb v ++ rest) = .ok (v, rest) := by
  have read : readLeb false 0 0 (leb v ++ rest) = .ok (0 + v * 2 ^ 0, rest) :=
    readLeb_leb false rest (by decide) (Nat.zero_le _) (by omega)
  rwa [Nat.pow_zero, Nat.mul_one, Nat.zero_add] at read

theorem readSize_leb {v : Nat} (small : v < 2 ^ 32) (rest : List UInt8) :
    readSize (leb v ++ rest) = .ok (v, rest) := by
  have read : readLeb true 0 0 (leb v ++ rest) = .ok (0 + v * 2 ^ 0, rest) :=
    readLeb_leb true rest (by decide) (Nat.zero_le _) (by omega)
  rwa [Nat.pow_zero, Nat.mul_one, Nat.zero_add] at read

theorem readLebU32_leb {v : Nat} (small : v < 2 ^ 32) (rest : List UInt8) :
    readLebU32 (leb v ++ rest) = .ok (v, rest) := by
  have read := readSize_leb small rest
  rw [readSize] at read
  rw [readLebU32, read]
  exact congrArg (fun n => Except.ok (n, rest)) (Nat.mod_eq_of_lt small)

theorem slice_append {len : Nat} (short : len < 2 ^ 63) {taken : List UInt8}
    (small : taken.length < 2 ^ 32) (rest : List UInt8) :
    slice len taken.length (taken ++ rest) = .ok (taken, rest) := by
  rw [slice_of_le (by omega) (by simp), List.take_left, List.drop_left]

theorem leb_pos (v : Nat) : 1 ≤ (leb v).length := by
  rw [leb]
  split <;> simp

theorem length_encodeKey (key : String) : (bytesOf key).length + 1 ≤ (encodeKey key).length := by
  have := leb_pos ((bytesOf key).length % 2 ^ 32)
  rw [encodeKey, List.length_append]
  omega

/-- There are no more keys than bytes of the keys, and each is shorter. -/
theorem length_keys (keys : List String) :
    keys.length ≤ (keys.flatMap encodeKey).length ∧
      ∀ key ∈ keys, (bytesOf key).length ≤ (keys.flatMap encodeKey).length := by
  induction keys with
  | nil => exact ⟨Nat.le_refl 0, nofun⟩
  | cons key keys ih =>
    have := length_encodeKey key
    rw [List.flatMap_cons, List.length_append, List.length_cons]
    refine ⟨by omega, ?_⟩
    intro k mem
    rcases List.mem_cons.mp mem with rfl | mem
    · omega
    · exact Nat.le_trans (ih.2 k mem) (Nat.le_add_left _ _)

theorem decodeKeys_encode (replaced : List UInt8 → String) {len : Nat} (short : len < 2 ^ 63)
    {keys : List String} (small : ∀ key ∈ keys, (bytesOf key).length < 2 ^ 32) :
    decodeKeys replaced len keys.length (keys.flatMap encodeKey) = .ok keys := by
  induction keys with
  | nil => rfl
  | cons key keys ih =>
    rcases List.forall_mem_cons.mp small with ⟨first, later⟩
    rw [List.length_cons, decodeKeys, List.flatMap_cons, encodeKey, Nat.mod_eq_of_lt first,
      List.append_assoc, readNumber_leb first]
    simp only [slice_append short first, ih later, fromUtf8Lossy_bytesOf]

theorem paramsCount_payload {keys : List String} (small : (paramsPayload keys).length < 2 ^ 32) :
    paramsCount (paramsPayload keys) =
      .ok (some ⟨keys.length, (paramsPayload keys).length, keys.flatMap encodeKey⟩) := by
  have name : paramsName.length < 2 ^ 32 := by decide
  have counted := (length_keys keys).1
  have within : (keys.flatMap encodeKey).length ≤ (paramsPayload keys).length := by
    rw [paramsPayload, List.length_append]
    exact Nat.le_add_left _ _
  have count : keys.length < 2 ^ 32 := by omega
  have split : paramsPayload keys = leb paramsName.length ++
      (paramsName ++ (leb keys.length ++ keys.flatMap encodeKey)) := by
    rw [paramsPayload, Nat.mod_eq_of_lt name, Nat.mod_eq_of_lt count]
    simp only [List.append_assoc]
  have first : readNumber (paramsPayload keys) =
      .ok (paramsName.length, paramsName ++ (leb keys.length ++ keys.flatMap encodeKey)) := by
    rw [split]
    exact readNumber_leb name _
  have short : (paramsPayload keys).length < 2 ^ 63 := by omega
  rw [paramsCount, first]
  simp only [slice_append short name, if_true, readNumber_leb count]

theorem encodeParamsSection_eq {keys : List String}
    (small : (paramsPayload keys).length < 2 ^ 32) (rest : List UInt8) :
    encodeParamsSection keys ++ rest =
      0 :: (leb (paramsPayload keys).length ++ (paramsPayload keys ++ rest)) := by
  rw [encodeParamsSection, Nat.mod_eq_of_lt small]
  simp only [List.cons_append, List.append_assoc]

/-- Keys that were appended are read back. -/
theorem decodeParamsSection_append (replaced : List UInt8 → String) {wasm : List UInt8}
    {keys : List String} (header : 8 ≤ wasm.length ∧ wasm.take 4 = magic) (some : keys ≠ [])
    (small : (paramsPayload keys).length < 2 ^ 32)
    (held : (appendParamsSection wasm keys).length < 2 ^ 63) :
    decodeParamsSection replaced (appendParamsSection wasm keys) = .ok keys := by
  have appended : appendParamsSection wasm keys =
      wasm.take 8 ++ encodeParamsSection keys ++ wasm.drop 8 := by
    rw [appendParamsSection, if_neg]
    simp [some, header.1, header.2]
  have eight : (wasm.take 8).length = 8 := List.length_take_of_le header.1
  have body : (appendParamsSection wasm keys).drop 8 =
      0 :: (leb (paramsPayload keys).length ++ (paramsPayload keys ++ wasm.drop 8)) := by
    rw [appended, List.append_assoc, List.drop_left' eight, encodeParamsSection_eq small]
  have read := readSize_leb small (paramsPayload keys ++ wasm.drop 8)
  have keysSmall : ∀ key ∈ keys, (bytesOf key).length < 2 ^ 32 := by
    intro key mem
    have within := (length_keys keys).2 key mem
    have whole : (keys.flatMap encodeKey).length ≤ (paramsPayload keys).length := by
      rw [paramsPayload, List.length_append]
      exact Nat.le_add_left _ _
    omega
  rw [decodeParamsSection, body, paramsHeader_ok read (size_near held read), if_pos rfl,
    List.take_left, paramsCount_payload small]
  exact decodeKeys_encode replaced (by dsimp only; omega) keysSmall

/-- What is left when the appended section is taken out. -/
theorem append_removed {wasm : List UInt8} {keys : List String}
    (header : 8 ≤ wasm.length ∧ wasm.take 4 = magic) (some : keys ≠ []) :
    (appendParamsSection wasm keys).take 8 ++
      (appendParamsSection wasm keys).drop (8 + (encodeParamsSection keys).length) = wasm := by
  have eight : (wasm.take 8).length = 8 := List.length_take_of_le header.1
  rw [appendParamsSection, if_neg (by simp [some, header.1, header.2])]
  have front : (wasm.take 8 ++ encodeParamsSection keys).length =
      8 + (encodeParamsSection keys).length := by rw [List.length_append, eight]
  rw [← front, List.drop_left, List.append_assoc, List.take_append_of_le_length (by omega),
    List.take_take, Nat.min_self, List.take_append_drop]

/-! ### The names of functions -/

/-- One name, as `wasm_encoder` writes it. -/
def encodeName (entry : Nat × String) : List UInt8 :=
  leb entry.1 ++ (leb (bytesOf entry.2).length ++ bytesOf entry.2)

def functionNames (names : List (Nat × String)) : List UInt8 :=
  leb names.length ++ names.flatMap encodeName

/-- The payload of a name section as the format prescribes it: its name and the subsection of
functions. -/
def namePayload (names : List (Nat × String)) : List UInt8 :=
  leb sectionName.length ++ (sectionName ++
    1 :: (leb (functionNames names).length ++ functionNames names))

/-- A section of a module. -/
def section_ (s : UInt8 × List UInt8) : List UInt8 := s.1 :: (leb s.2.length ++ s.2)

/-- A section that the decoder passes: a custom one has a name, which is not `name`. -/
def Passed (s : UInt8 × List UInt8) : Prop :=
  s.2.length < 2 ^ 32 ∧ (s.1 = 0 → ∃ name data, s.2 = leb name.length ++ (name ++ data) ∧
    name.length < 2 ^ 32 ∧ name ≠ sectionName)

theorem decodeNames_encode (replaced : List UInt8 → String) {len : Nat} (short : len < 2 ^ 63)
    {names : List (Nat × String)}
    (small : ∀ e ∈ names, e.1 < 2 ^ 32 ∧ (bytesOf e.2).length < 2 ^ 32) (rest : List UInt8) :
    decodeNames replaced len names.length (names.flatMap encodeName ++ rest) = .ok names := by
  induction names with
  | nil => rfl
  | cons entry names ih =>
    rcases List.forall_mem_cons.mp small with ⟨⟨idx, name⟩, later⟩
    rw [List.length_cons, decodeNames, List.flatMap_cons, encodeName]
    simp only [List.append_assoc, readLebU32_leb idx, readLebU32_leb name, slice_append short name,
      ih later, fromUtf8Lossy_bytesOf]

theorem namesCount_passed {payload name data : List UInt8}
    (split : payload = leb name.length ++ (name ++ data)) (short : payload.length < 2 ^ 32)
    (small : name.length < 2 ^ 32) (other : name ≠ sectionName) :
    namesCount payload = .ok none := by
  have first : readLebU32 payload = .ok (name.length, name ++ data) := by
    rw [split]
    exact readLebU32_leb small _
  have held : payload.length < 2 ^ 63 := by omega
  rw [namesCount, first]
  simp only [slice_append held small, if_neg other]

theorem subsections_first {len size count : Nat} {rest after more : List UInt8}
    (short : len < 2 ^ 63) (read : readLebU32 rest = .ok (size, after))
    (counted : readLebU32 after = .ok (count, more)) :
    subsections len (1 :: rest) = .ok (some ⟨count, len, more⟩) := by
  have small := readLebU32_lt read
  rw [subsections]
  split
  · rename_i same
    rw [read] at same
    cases same
  · rename_i same
    rw [read] at same
    cases same
    rw [if_neg (by omega), if_pos rfl, counted]

theorem length_names (names : List (Nat × String)) :
    names.length ≤ (names.flatMap encodeName).length ∧
      ∀ e ∈ names, (bytesOf e.2).length ≤ (names.flatMap encodeName).length := by
  induction names with
  | nil => exact ⟨Nat.le_refl 0, nofun⟩
  | cons entry names ih =>
    have := leb_pos entry.1
    rw [List.flatMap_cons, encodeName, List.length_append, List.length_append, List.length_append,
      List.length_cons]
    refine ⟨by omega, ?_⟩
    intro e mem
    rcases List.mem_cons.mp mem with rfl | mem
    · omega
    · exact Nat.le_trans (ih.2 e mem) (Nat.le_add_left _ _)

theorem length_functionNames (names : List (Nat × String)) :
    (names.flatMap encodeName).length ≤ (functionNames names).length ∧
      (functionNames names).length ≤ (namePayload names).length := by
  simp only [functionNames, namePayload, List.length_append, List.length_cons]
  omega

theorem namesCount_namePayload {names : List (Nat × String)}
    (short : (namePayload names).length < 2 ^ 32) :
    namesCount (namePayload names) =
      .ok (some ⟨names.length, (namePayload names).length, names.flatMap encodeName⟩) := by
  rcases length_functionNames names with ⟨entries, functions⟩
  have counts := (length_names names).1
  have name : sectionName.length < 2 ^ 32 := by decide
  have held : (namePayload names).length < 2 ^ 63 := by omega
  have first : readLebU32 (namePayload names) = .ok (sectionName.length, sectionName ++
      1 :: (leb (functionNames names).length ++ functionNames names)) := readLebU32_leb name _
  have size : (functionNames names).length < 2 ^ 32 := by omega
  have count : names.length < 2 ^ 32 := by omega
  have inner : readLebU32 (functionNames names) = .ok (names.length, names.flatMap encodeName) :=
    readLebU32_leb count _
  rw [namesCount, first]
  simp only [slice_append held name, if_true]
  exact subsections_first held (readLebU32_leb size _) inner

theorem sections_section {len : Nat} (short : len < 2 ^ 63) {s : UInt8 × List UInt8}
    (small : s.2.length < 2 ^ 32) {rest : List UInt8} {more : List (UInt8 × List UInt8)}
    (read : sections len rest = .ok more) :
    sections len (section_ s ++ rest) = .ok (s :: more) := by
  have size : readLebU32 (leb s.2.length ++ (s.2 ++ rest)) = .ok (s.2.length, s.2 ++ rest) :=
    readLebU32_leb small _
  rw [section_, List.cons_append, List.append_assoc, sections_ok short size, List.drop_left, read,
    List.take_left]

theorem sections_passed {len : Nat} (short : len < 2 ^ 63) {before : List (UInt8 × List UInt8)}
    (passed : ∀ s ∈ before, Passed s) {rest : List UInt8} {more : List (UInt8 × List UInt8)}
    (read : sections len rest = .ok more) :
    sections len (before.flatMap section_ ++ rest) = .ok (before ++ more) := by
  induction before with
  | nil => exact read
  | cons s before ih =>
    rcases List.forall_mem_cons.mp passed with ⟨first, later⟩
    rw [List.flatMap_cons, List.append_assoc]
    exact sections_section short first.1 (ih later)

theorem namesHeader_passed {before more : List (UInt8 × List UInt8)}
    (passed : ∀ s ∈ before, Passed s) : namesHeader (before ++ more) = namesHeader more := by
  induction before with
  | nil => rfl
  | cons s before ih =>
    rcases List.forall_mem_cons.mp passed with ⟨⟨short, custom⟩, later⟩
    rw [List.cons_append, namesHeader]
    split
    · exact ih later
    · rename_i zero
      rcases custom (not_not.mp zero) with ⟨name, data, split, small, other⟩
      rw [namesCount_passed split short small other]
      exact ih later

/-- The names of a module's name section are read back, wherever it stands. -/
theorem decodeFunctionNames_module (replaced : List UInt8 → String) {header : List UInt8}
    (eight : header.length = 8) {before : List (UInt8 × List UInt8)}
    (passed : ∀ s ∈ before, Passed s) {names : List (Nat × String)}
    (indices : ∀ e ∈ names, e.1 < 2 ^ 32) (short : (namePayload names).length < 2 ^ 32)
    (after : List UInt8) {wasm : List UInt8}
    (carries : wasm = header ++ (before.flatMap section_ ++
      (section_ (0, namePayload names) ++ after)))
    (held : wasm.length < 2 ^ 63) : decodeFunctionNames replaced wasm = .ok names := by
  rcases sections_total held after with ⟨more, read, -⟩
  have body : wasm.drop 8 =
      before.flatMap section_ ++ (section_ (0, namePayload names) ++ after) := by
    rw [carries, List.drop_left' eight]
  have found := sections_passed held passed
    (sections_section held (s := (0, namePayload names)) short read)
  have counted := namesCount_namePayload short
  have room : namesRoom wasm =
      .ok ⟨names.length, (namePayload names).length, names.flatMap encodeName⟩ := by
    rw [namesRoom, body, found]
    simp only [namesHeader_passed passed, namesHeader, counted]
    rfl
  have small : ∀ e ∈ names, e.1 < 2 ^ 32 ∧ (bytesOf e.2).length < 2 ^ 32 := by
    intro e mem
    have within := (length_names names).2 e mem
    have whole := length_functionNames names
    exact ⟨indices e mem, by omega⟩
  have decoded := decodeNames_encode replaced (show (namePayload names).length < 2 ^ 63 by omega)
    small []
  rw [List.append_nil] at decoded
  rw [decodeFunctionNames, room]
  exact decoded

/-! ### The codecs as a whole -/

/-- The same as `ParamsTotal` for the decoder of the names. -/
def NamesTotal (replaced : List UInt8 → String) (wasm : List UInt8) : Prop :=
  NoFault (decodeFunctionNames replaced wasm) ∧
    ∀ c, namesRoom wasm = .ok c → c.count ≤ wasm.length

/-- Lists of keys and of names are read back, a list without keys adds no section, and the decoders
are total where the numbers that they read are small. `nameSection` gives the payload that
`wasm_encoder` writes for names. -/
theorem codecs_exact (replaced : List UInt8 → String)
    (nameSection : List (Nat × String) → List UInt8)
    (documented : ∀ names, (namePayload names).length < 2 ^ 32 →
      nameSection names = namePayload names) :
    (∀ (wasm : List UInt8) (keys : List String), 8 ≤ wasm.length ∧ wasm.take 4 = magic →
      keys ≠ [] → (paramsPayload keys).length < 2 ^ 32 →
      (appendParamsSection wasm keys).length < 2 ^ 63 →
      decodeParamsSection replaced (appendParamsSection wasm keys) = .ok keys ∧
        (appendParamsSection wasm keys).take 8 ++
          (appendParamsSection wasm keys).drop (8 + (encodeParamsSection keys).length) = wasm) ∧
    (∀ wasm : List UInt8, appendParamsSection wasm [] = wasm) ∧
    (∀ (header after wasm : List UInt8) (before : List (UInt8 × List UInt8))
      (names : List (Nat × String)), header.length = 8 → (∀ s ∈ before, Passed s) →
      (∀ e ∈ names, e.1 < 2 ^ 32) → (namePayload names).length < 2 ^ 32 →
      wasm = header ++ (before.flatMap section_ ++ (section_ (0, nameSection names) ++ after)) →
      wasm.length < 2 ^ 63 → decodeFunctionNames replaced wasm = .ok names) ∧
    ∀ wasm : List UInt8, wasm.length < 2 ^ 63 →
      (ParamsTotal replaced wasm ↔ ParamsFit wasm) ∧
      NoFault (decodeFunctionNames replaced wasm) ∧
      (NamesTotal replaced wasm ↔ ∀ c, namesRoom wasm = .ok c → c.count ≤ wasm.length) := by
  refine ⟨?_, ?_, ?_, ?_⟩
  · intro wasm keys header some small held
    exact ⟨decodeParamsSection_append replaced header some small held, append_removed header some⟩
  · intro wasm
    exact if_pos (.inl rfl)
  · intro header after wasm before names eight passed indices short carries held
    rw [documented names short] at carries
    exact decodeFunctionNames_module replaced eight passed indices short after carries held
  · intro wasm held
    have safe := decodeFunctionNames_noFault replaced held
    exact ⟨paramsTotal_iff replaced held, safe, and_iff_right safe⟩

/-- The header of a module. -/
def emptyModule : List UInt8 := magic ++ [1, 0, 0, 0]

theorem codecs_exact_key :
    decodeParamsSection (fun _ => "") (appendParamsSection emptyModule ["amount"]) =
      .ok ["amount"] := by
  have key : (bytesOf "amount").length = 6 := by decide
  have name : paramsName.length = 11 := by decide
  have small : (paramsPayload ["amount"]).length < 2 ^ 32 := by
    simp [paramsPayload, encodeKey, key, name, leb]
  have held : (appendParamsSection emptyModule ["amount"]).length < 2 ^ 63 := by
    simp [appendParamsSection, encodeParamsSection, paramsPayload, encodeKey, key, name, leb,
      emptyModule, magic]
  have exact_ := codecs_exact (fun _ => "") namePayload fun _ _ => rfl
  exact (exact_.1 emptyModule ["amount"] (by decide) (by decide) small held).1

/-- A custom section whose name's length takes eleven bytes. -/
def longNumber : List UInt8 := List.replicate 10 0x80 ++ [0]

theorem longNumber_faults : ¬ ∀ (replaced : List UInt8 → String) (wasm : List UInt8),
    wasm.length < 2 ^ 63 → ParamsTotal replaced wasm := by
  intro total
  have size : readSize (11 :: longNumber) = .ok (11, longNumber) := rfl
  have read : longNumber ∈ customs ((emptyModule ++ 0 :: 11 :: longNumber).drop 8) := by
    have body : (emptyModule ++ 0 :: 11 :: longNumber).drop 8 = 0 :: 11 :: longNumber := rfl
    rw [body, customs_ok size, if_pos rfl]
    exact List.mem_cons_self
  have short : (emptyModule ++ 0 :: 11 :: longNumber).length < 2 ^ 63 := by decide
  have fit := (paramsTotal_iff (fun _ => "") short).mp (total (fun _ => "") _ short)
  have ends := (fit longNumber read).1.1
  rw [Ends] at ends
  exact absurd ends (by decide)

end LispRlm.WasmEmit.CustomSections
