import Mathlib.Data.List.DropRight
import Schemata.Proofs.Json.Tokens

/-! The reader without its bookkeeping: what a value, the members of an object and the elements of an
array are read as, given what their parts are read as. -/
namespace Schemata.Json

/-- What was read and what is left, without the proof that this is shorter. -/
def seen {t : Text} (read : Except Stop (Read α t)) : Except Stop (α × Text) :=
  read.map fun read => (read.result, read.rest)

variable {t r rest text s : Text} {b : UInt8} {sign : Bool} {v : Value} {items : List Value}
  {fields all : Fields Value}

theorem seen_value (start : skipSpace t = b :: r) : seen (value t) =
    if b = 123 then
      match skipSpace r with
      | 125 :: rest => .ok (.object [], rest)
      | _ => (seen (members [] r)).map fun (fields, rest) => (.object fields, rest)
    else if b = 91 then
      match skipSpace r with
      | 93 :: rest => .ok (.array [], rest)
      | _ => (seen (elements r)).map fun (items, rest) => (.array items, rest)
    else if b = 34 then (stringBody r).map fun (s, rest) => (.string s, rest)
    else if b = 45 ∨ Text.isDigit b then number (b :: r)
    else
      match literal? (b :: r) with
      | some (v, rest) => .ok (v, rest)
      | none => .error ⟨.unexpectedToken, b :: r⟩ := by
  unfold value
  split
  · rename_i none
    cases none.symm.trans start
  rename_i b' r' start'
  cases start'.symm.trans start
  dsimp only
  by_cases brace : b = 123
  · rw [if_pos brace, if_pos brace]
    split
    · rename_i rest first
      simp only [first]
      rfl
    · rename_i other
      have rhs (o : Except Stop (Value × Text)) : (match skipSpace r with
          | 125 :: rest => .ok (.object [], rest)
          | _ => o) = o := by
        split
        · exact (other _ ‹_›).elim
        · rfl
      rw [rhs]
      cases members [] r <;> rfl
  rw [if_neg brace, if_neg brace]
  by_cases bracket : b = 91
  · rw [if_pos bracket, if_pos bracket]
    split
    · rename_i rest first
      simp only [first]
      rfl
    · rename_i other
      have rhs (o : Except Stop (Value × Text)) : (match skipSpace r with
          | 93 :: rest => .ok (.array [], rest)
          | _ => o) = o := by
        split
        · exact (other _ ‹_›).elim
        · rfl
      rw [rhs]
      cases elements r <;> rfl
  rw [if_neg bracket, if_neg bracket]
  by_cases quote : b = 34
  · rw [if_pos quote, if_pos quote]
    split
    all_goals
      rename_i read
      simp only [read]
      rfl
  rw [if_neg quote, if_neg quote]
  by_cases numeral : b = 45 ∨ Text.isDigit b = true
  · rw [if_pos numeral, if_pos numeral]
    split
    all_goals
      rename_i read
      exact read.symm
  rw [if_neg numeral, if_neg numeral]
  split
  all_goals
    rename_i found
    simp only [found]
    rfl

/-- No value begins at the end of a text. -/
theorem seen_value_nil (start : skipSpace t = []) :
    seen (value t) = .error ⟨.unexpectedToken, []⟩ := by
  unfold value
  split
  · rfl
  · rename_i found
    cases found.symm.trans start

/-- A key and the colon behind it. -/
def memberKey (t : Text) : Except Stop (Text × Text) :=
  match skipSpace t with
  | 34 :: r =>
    match stringBody r with
    | .error stop => .error stop
    | .ok (key, afterKey) =>
      match skipSpace afterKey with
      | 58 :: afterColon => .ok (key, afterColon)
      | stopped => .error ⟨.expected 58, stopped⟩
  | stopped => .error ⟨.expectedKey, stopped⟩

theorem memberKey_keyless (missing : ∀ r, skipSpace t ≠ 34 :: r) :
    memberKey t = .error ⟨.expectedKey, skipSpace t⟩ := by
  unfold memberKey
  split
  · exact (missing _ ‹_›).elim
  · rfl

theorem memberKey_colonless {key afterKey : Text} (start : skipSpace t = 34 :: r)
    (read : stringBody r = .ok (key, afterKey)) (missing : ∀ r, skipSpace afterKey ≠ 58 :: r) :
    memberKey t = .error ⟨.expected 58, skipSpace afterKey⟩ := by
  simp only [memberKey, start, read]

theorem seen_members_key : seen (members fields t) =
    match memberKey t with
    | .error stop => .error stop
    | .ok (key, afterColon) =>
      match seen (value afterColon) with
      | .error stop => .error stop
      | .ok (v, afterValue) =>
        match skipSpace afterValue with
        | 44 :: rest => seen (members (Fields.insert key v fields) rest)
        | 125 :: rest => .ok (Fields.insert key v fields, rest)
        | stopped => .error ⟨.expected 125, stopped⟩ := by
  rw [members]
  split
  · rename_i start
    split
    · rename_i read
      simp only [memberKey, start, read]
      rfl
    rename_i key afterKey read
    split
    · rename_i afterColon colon
      simp only [memberKey, start, read, colon]
      cases value afterColon with
      | error => rfl
      | ok inner =>
        obtain ⟨v, afterValue, shorter⟩ := inner
        change seen _ = match skipSpace afterValue with
          | 44 :: rest => seen (members (Fields.insert key v fields) rest)
          | 125 :: rest => .ok (Fields.insert key v fields, rest)
          | stopped => .error ⟨.expected 125, stopped⟩
        dsimp only
        split
        · rename_i rest next
          simp only [next]
          cases members (Fields.insert key v fields) rest <;> rfl
        · rename_i rest next
          simp only [next]
          rfl
        · rename_i comma brace
          split
          · exact (comma _ ‹_›).elim
          · exact (brace _ ‹_›).elim
          · rfl
    · rename_i missing
      rw [memberKey_colonless start read missing]
      rfl
  · rename_i missing
    rw [memberKey_keyless missing]
    rfl

theorem seen_members (start : skipSpace t = 34 :: r) {key afterKey afterColon : Text}
    (read : stringBody r = .ok (key, afterKey)) (colon : skipSpace afterKey = 58 :: afterColon) :
    seen (members fields t) =
      match seen (value afterColon) with
      | .error stop => .error stop
      | .ok (v, afterValue) =>
        match skipSpace afterValue with
        | 44 :: rest => seen (members (Fields.insert key v fields) rest)
        | 125 :: rest => .ok (Fields.insert key v fields, rest)
        | stopped => .error ⟨.expected 125, stopped⟩ := by
  rw [seen_members_key]
  simp only [memberKey, start, read, colon]

theorem seen_elements : seen (elements t) =
    match seen (value t) with
    | .error stop => .error stop
    | .ok (v, afterValue) =>
      match skipSpace afterValue with
      | 44 :: rest => (seen (elements rest)).map fun (items, rest) => (v :: items, rest)
      | 93 :: rest => .ok ([v], rest)
      | stopped => .error ⟨.expected 93, stopped⟩ := by
  rw [elements]
  cases value t with
  | error stop => rfl
  | ok inner =>
    obtain ⟨v, afterValue, shorter⟩ := inner
    change seen _ = match skipSpace afterValue with
      | 44 :: rest => (seen (elements rest)).map fun (items, rest) => (v :: items, rest)
      | 93 :: rest => .ok ([v], rest)
      | stopped => .error ⟨.expected 93, stopped⟩
    dsimp only
    split
    · rename_i rest next
      simp only [next]
      cases elements rest <;> rfl
    · rename_i rest next
      simp only [next]
      rfl
    · rename_i comma bracket
      split
      · exact (comma _ ‹_›).elim
      · exact (bracket _ ‹_›).elim
      · rfl

/-- Blanks in front are skipped by whatever comes first. -/
theorem skipSpace_skipSpace (t : Text) : skipSpace (skipSpace t) = skipSpace t :=
  List.dropWhile_idempotent _ _

theorem seen_value_skipSpace (t : Text) : seen (value (skipSpace t)) = seen (value t) := by
  cases start : skipSpace t with
  | nil => rw [seen_value_nil start, seen_value_nil rfl]
  | cons b r =>
    have again := skipSpace_skipSpace t
    rw [start] at again
    rw [seen_value start, seen_value again]

theorem seen_members_skipSpace (fields : Fields Value) (t : Text) :
    seen (members fields (skipSpace t)) = seen (members fields t) := by
  rw [seen_members_key, seen_members_key, memberKey, memberKey, skipSpace_skipSpace]

theorem seen_elements_skipSpace (t : Text) : seen (elements (skipSpace t)) = seen (elements t) := by
  rw [seen_elements, seen_elements, seen_value_skipSpace]

/-- A value is read at the beginning of a text and `rest` is left behind it. -/
def Reads (t : Text) (v : Value) (rest : Text) : Prop := seen (value t) = .ok (v, rest)

/-- Members are read up to the closing brace and set one after the other in `fields`. -/
def ReadsMembers (fields : Fields Value) (t : Text) (all : Fields Value) (rest : Text) : Prop :=
  seen (members fields t) = .ok (all, rest)

/-- A name, a colon and a value are read and `after` is left behind them. -/
def ReadsMember (t key : Text) (v : Value) (after : Text) : Prop :=
  ∃ r afterKey afterColon, skipSpace t = 34 :: r ∧ stringBody r = .ok (key, afterKey) ∧
    skipSpace afterKey = 58 :: afterColon ∧ Reads afterColon v after

/-- Elements are read up to the closing bracket. -/
def ReadsElements (t : Text) (items : List Value) (rest : Text) : Prop :=
  seen (elements t) = .ok (items, rest)

/-- What is read as members begins with a name and a colon. -/
theorem ReadsMembers.opens (inside : ReadsMembers fields t all rest) :
    ∃ r key afterKey afterColon, skipSpace t = 34 :: r ∧ stringBody r = .ok (key, afterKey) ∧
      skipSpace afterKey = 58 :: afterColon := by
  unfold ReadsMembers at inside
  rw [members] at inside
  split at inside
  · rename_i r start
    split at inside
    · cases inside
    rename_i key afterKey name
    split at inside
    · rename_i afterColon colon
      exact ⟨r, key, afterKey, afterColon, start, name, colon⟩
    · cases inside
  · cases inside

theorem ReadsElements.opens (inside : ReadsElements t items rest) : skipSpace t ≠ 93 :: r := by
  intro start
  rw [ReadsElements, seen_elements, seen_value start] at inside
  cases inside

theorem reads_emptyObject (start : skipSpace t = 123 :: r) (closed : skipSpace r = 125 :: rest) :
    Reads t (.object []) rest := by
  rw [Reads, seen_value start, if_pos rfl]
  simp only [closed]

theorem reads_object (start : skipSpace t = 123 :: r) (inside : ReadsMembers [] r fields rest) :
    Reads t (.object fields) rest := by
  obtain ⟨r', _, _, _, opened, _⟩ := inside.opens
  rw [Reads, seen_value start, if_pos rfl, show seen (members [] r) = _ from inside]
  simp only [opened]
  rfl

theorem reads_emptyArray (start : skipSpace t = 91 :: r) (closed : skipSpace r = 93 :: rest) :
    Reads t (.array []) rest := by
  rw [Reads, seen_value start, if_neg (by decide), if_pos rfl]
  simp only [closed]

theorem reads_array (start : skipSpace t = 91 :: r) (inside : ReadsElements r items rest) :
    Reads t (.array items) rest := by
  rw [Reads, seen_value start, if_neg (by decide), if_pos rfl]
  split
  · rename_i closed
    exact absurd closed inside.opens
  · exact congrArg (Except.map fun (items, rest) => (Value.array items, rest)) inside

theorem reads_string (start : skipSpace t = 34 :: r) (read : stringBody r = .ok (s, rest)) :
    Reads t (.string s) rest := by
  rw [Reads, seen_value start, if_neg (by decide), if_neg (by decide), if_pos rfl, read]
  rfl

theorem reads_number (start : skipSpace t = b :: r) (first : b = 45 ∨ Text.isDigit b = true)
    (read : number (b :: r) = .ok (v, rest)) : Reads t v rest := by
  have ne (c : UInt8) (other : ¬ (c = 45 ∨ Text.isDigit c = true)) : b ≠ c := by
    rintro rfl
    exact other first
  rw [Reads, seen_value start, if_neg (ne 123 (by decide)), if_neg (ne 91 (by decide)),
    if_neg (ne 34 (by decide)), if_pos first, read]

theorem ReadsNumber.begins (read : ReadsNumber sign text v) :
    ∃ b t, text = b :: t ∧ Text.isDigit b = true := by
  have alone := read [] ends_nil
  rw [List.append_nil] at alone
  obtain ⟨_, scanned, _⟩ := ok_of_bind_ok alone
  cases text with
  | nil => cases scanned
  | cons b t =>
    refine ⟨b, t, rfl, ?_⟩
    by_contra other
    rw [digits, List.takeWhile_cons_of_neg other] at scanned
    cases scanned

theorem reads_signed (read : ReadsNumber sign text v) (ends : Ends rest) :
    Reads ((if sign then 45 :: text else text) ++ rest) v rest := by
  cases sign with
  | true => exact reads_number (skipSpace_cons (by decide)) (.inl rfl) (read rest ends)
  | false =>
    obtain ⟨b, t, rfl, digit⟩ := read.begins
    have plain : b ≠ 45 := by
      rintro rfl
      cases digit
    have solid := Text.isSpace_eq_false_of_isDigit digit
    refine reads_number (skipSpace_cons solid) (.inr digit) ?_
    unfold number
    split
    · rename_i t' same
      exact absurd (List.cons.inj same).1 plain
    · exact read rest ends

theorem reads_null (rest : Text) : Reads (Text.ofString "null" ++ rest) .null rest := by
  rw [Reads, seen_value (r := [117, 108, 108] ++ rest) (b := 110) rfl]
  rfl

theorem reads_bool (b : Bool) (rest : Text) :
    Reads (Text.ofString (if b then "true" else "false") ++ rest) (.bool b) rest := by
  cases b with
  | true =>
    rw [Reads, seen_value (r := [114, 117, 101] ++ rest) (b := 116) rfl]
    rfl
  | false =>
    rw [Reads, seen_value (r := [97, 108, 115, 101] ++ rest) (b := 102) rfl]
    rfl

theorem Reads.starts (read : Reads t v rest) : ∃ b r, skipSpace t = b :: r := by
  unfold Reads at read
  rw [value] at read
  split at read
  · cases read
  · exact ⟨_, _, ‹_›⟩

theorem Reads.behind_blank (read : Reads t v rest) {blank : Text}
    (all : ∀ b ∈ blank, Text.isSpace b = true) : Reads (blank ++ t) v rest := by
  obtain ⟨b, r, start⟩ := read.starts
  rw [Reads, seen_value start] at read
  rw [Reads, seen_value ((skipSpace_blank all).trans start)]
  exact read

theorem readsElements_last {after : Text} (read : Reads t v after)
    (closed : skipSpace after = 93 :: rest) : ReadsElements t [v] rest := by
  rw [ReadsElements, seen_elements, show seen (value t) = _ from read]
  simp only [closed]

theorem readsElements_more {after next : Text} (read : Reads t v after)
    (comma : skipSpace after = 44 :: next) (more : ReadsElements next items rest) :
    ReadsElements t (v :: items) rest := by
  rw [ReadsElements, seen_elements, show seen (value t) = _ from read]
  simp only [comma]
  exact congrArg _ more

theorem readsMembers_last {key after : Text} (member : ReadsMember t key v after)
    (closed : skipSpace after = 125 :: rest) :
    ReadsMembers fields t (Fields.insert key v fields) rest := by
  obtain ⟨r, afterKey, afterColon, start, name, colon, read⟩ := member
  rw [ReadsMembers, seen_members start name colon, show seen (value afterColon) = _ from read]
  simp only [closed]

theorem readsMembers_more {key after next : Text} (member : ReadsMember t key v after)
    (comma : skipSpace after = 44 :: next)
    (more : ReadsMembers (Fields.insert key v fields) next all rest) :
    ReadsMembers fields t all rest := by
  obtain ⟨r, afterKey, afterColon, start, name, colon, read⟩ := member
  rw [ReadsMembers, seen_members start name colon, show seen (value afterColon) = _ from read]
  simp only [comma]
  exact more

/-- A text is read as a value if the value is read at its beginning and only blanks are left. -/
theorem read_eq_ok_iff : read t = .ok v ↔ ∃ rest, Reads t v rest ∧ skipSpace rest = [] := by
  unfold read Reads
  cases value t with
  | error stop =>
    refine iff_of_false nofun ?_
    rintro ⟨rest, read, _⟩
    cases read
  | ok inner =>
    obtain ⟨result, rest, shorter⟩ := inner
    simp only [List.isEmpty_iff]
    constructor
    · intro read
      split at read
      · rename_i blank
        cases read
        exact ⟨rest, rfl, blank⟩
      · cases read
    · rintro ⟨rest', read, blank⟩
      cases read
      rw [if_pos blank]

end Schemata.Json
