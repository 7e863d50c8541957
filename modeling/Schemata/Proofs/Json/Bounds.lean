import Schemata.Proofs.Json.Scanning
import Schemata.Proofs.Json.Soundness

/-! Values, members and elements, and with them whole texts, read by the cursor. A value is read at the
beginning of the text or behind a bracket, a colon or a comma, and that is a byte which the cursor has gone
past. So the text that is left gets shorter from call to call, which bounds the calls and lets every reading
end. -/
namespace Schemata.Json.Cursor

open State Scan

variable {t rest r : Text} {s : State} {opening close : UInt8} {more : Scan Value}
  {expected : Except Stop (Value × Text)} {fuel : Nat}

section Brackets

/-- Between brackets is nothing, or what is read there from the first byte that is no blank. -/
theorem tracks_brackets {empty : Value} (enough : r.length + 1 < fuel)
    (stands : Stands t (opening :: r) s) (solid : Text.isSpace opening = false) (some : close ≠ 0)
    (closed : ∀ rest, Json.skipSpace r = close :: rest → expected = .ok (empty, rest))
    (inside : ∀ s, Onward t (Json.skipSpace r) s → (∀ rest, Json.skipSpace r ≠ close :: rest) →
      more.Tracks t s expected (Onward t)) :
    Tracks t (do
      expect t fuel opening
      skipSpace t fuel
      if ← pass t [close] then return empty else more) s expected (Onward t) := by
  have begins : Json.skipSpace (opening :: r) = opening :: r := skipSpace_cons solid
  refine (tracks_expect enough stands.still begins).followed fun s' moves => ?_
  refine (tracks_skipSpace (Nat.lt_of_succ_lt enough) moves).followed fun s' moves => ?_
  by_cases ends : ∃ rest, Json.skipSpace r = close :: rest
  · obtain ⟨rest, found⟩ := ends
    rw [closed rest found]
    rw [found] at moves
    refine (tracks_pass moves (by simp)).followed fun s' moves => ?_
    exact tracks_pure (moves.onward stands (Nat.lt_succ_of_lt (length_lt_of_skip found)))
  · have missing : ∀ rest, Json.skipSpace r ≠ close :: rest := fun rest found => ends ⟨rest, found⟩
    refine (tracks_missing moves missing some).followed fun s' moves => ?_
    rw [if_neg Bool.false_ne_true]
    refine inside s' (moves.onward stands ?_) missing
    exact Nat.lt_succ_of_le (length_skipSpace_le r)

/-- Behind a member or an element comes a comma and more, or the closing byte. -/
theorem tracks_separator {v : Value} (enough : rest.length < fuel) (onward : Onward t rest s)
    (some : close ≠ 0) (comma : ∀ next s, Json.skipSpace rest = 44 :: next → Onward t next s →
      more.Tracks t s expected (Onward t))
    (closed : ∀ r, Json.skipSpace rest = close :: r → close ≠ 44 → expected = .ok (v, r))
    (stopped : (∀ r, Json.skipSpace rest ≠ 44 :: r) → (∀ r, Json.skipSpace rest ≠ close :: r) →
      expected = .error ⟨.expected close, Json.skipSpace rest⟩) :
    Tracks t (do
      skipSpace t fuel
      if ← pass t [44] then more
      else
        expect t fuel close
        return v) s expected (Onward t) := by
  have again := skipSpace_skipSpace rest
  have enough' := Nat.lt_of_le_of_lt (length_skipSpace_le rest) enough
  refine (tracks_skipSpace enough onward.still).followed fun s' moves => ?_
  by_cases goes : ∃ next, Json.skipSpace rest = 44 :: next
  · obtain ⟨next, found⟩ := goes
    rw [found] at moves
    refine (tracks_pass moves rfl).followed fun s' moves => ?_
    rw [if_pos rfl]
    exact comma next s' found (moves.onward onward.toStands (length_lt_of_skip found))
  have commaless : ∀ r, Json.skipSpace rest ≠ 44 :: r := fun r found => goes ⟨r, found⟩
  refine (tracks_missing moves commaless (by decide)).followed fun s' moves => ?_
  rw [if_neg Bool.false_ne_true]
  by_cases ends : ∃ r, Json.skipSpace rest = close :: r
  · obtain ⟨r, found⟩ := ends
    rw [closed r found fun same => commaless r (same ▸ found)]
    refine (tracks_expect enough' moves (again.trans found)).followed fun s' moves => ?_
    exact tracks_pure (moves.onward onward.toStands (length_lt_of_skip found))
  · have missing : ∀ r, Json.skipSpace rest ≠ close :: r := fun r found => ends ⟨r, found⟩
    have broken := tracks_expect_missing enough' moves (by rwa [again]) some
    rw [again] at broken
    rw [stopped commaless missing]
    exact broken.stopped

end Brackets

theorem tracks_object (enough : r.length + 1 < fuel) (stands : Stands t (123 :: r) s)
    (ready : s.Ready .object)
    (inside : ∀ s, Onward t (Json.skipSpace r) s → (members t fuel (.object [])).Tracks t s
      ((seen (Json.members [] (Json.skipSpace r))).map fun (fields, rest) => (.object fields, rest))
      (Onward t)) :
    (object t (fuel + 1)).Tracks t s (seen (Json.value (123 :: r))) (Onward t) := by
  rw [object, seen_value (skipSpace_cons (by decide)), if_pos rfl]
  refine (tracks_call stands ready).followed fun s ⟨stands, _⟩ => ?_
  refine tracks_brackets enough stands (by decide) (by decide) ?_ fun s onward other => ?_
  · intro rest found
    simp only [found]
  · split
    · exact (other _ ‹_›).elim
    · exact seen_members_skipSpace [] r ▸ inside s onward

theorem tracks_array (enough : r.length + 1 < fuel) (stands : Stands t (91 :: r) s)
    (ready : s.Ready .array)
    (inside : ∀ s, Onward t (Json.skipSpace r) s → (elements t fuel (.array [])).Tracks t s
      ((seen (Json.elements (Json.skipSpace r))).map fun (items, rest) => (.array ([] ++ items), rest))
      (Onward t)) :
    (array t (fuel + 1)).Tracks t s (seen (Json.value (91 :: r))) (Onward t) := by
  rw [array, seen_value (skipSpace_cons (by decide)), if_neg (by decide), if_pos rfl]
  refine (tracks_call stands ready).followed fun s ⟨stands, _⟩ => ?_
  refine tracks_brackets enough stands (by decide) (by decide) ?_ fun s onward other => ?_
  · intro rest found
    simp only [found]
  · split
    · exact (other _ ‹_›).elim
    · exact seen_elements_skipSpace r ▸ inside s onward

theorem tracks_memberKey {origin : State} (enough : rest.length < fuel) (moves : Moves t origin rest s) :
    (memberKey t fuel).Tracks t s (Json.memberKey rest) (Moves t origin) := by
  refine (tracks_skipSpace enough moves).followed fun s moves => ?_
  refine (tracks_peek moves).followed fun s moves => ?_
  by_cases quote : ∃ r, Json.skipSpace rest = 34 :: r
  · obtain ⟨r, start⟩ := quote
    have enough := Nat.lt_trans (length_lt_of_skip start) enough
    rw [start] at moves ⊢
    rw [List.headD_cons, if_pos rfl]
    refine (tracks_string enough moves).step (fun stop read => ?_) fun key afterKey s read moves => ?_
    · simp only [Json.memberKey, start, read]
    have enough := Nat.lt_trans (length_stringBody read) enough
    by_cases colon : ∃ r, Json.skipSpace afterKey = 58 :: r
    · obtain ⟨afterColon, found⟩ := colon
      simp only [Json.memberKey, start, read, found]
      exact (tracks_expect enough moves found).followed fun s moves => tracks_pure moves
    · have missing : ∀ r, Json.skipSpace afterKey ≠ 58 :: r := fun r found => colon ⟨r, found⟩
      rw [memberKey_colonless start read missing]
      exact (tracks_expect_missing enough moves missing (by decide)).stopped
  · have missing : ∀ r, Json.skipSpace rest ≠ 34 :: r := fun r start => quote ⟨r, start⟩
    have other : (Json.skipSpace rest).headD 0 ≠ 34 := by
      cases start : Json.skipSpace rest with
      | nil => decide
      | cons b r => exact fun same => missing r (start.trans (congrArg (· :: r) same))
    rw [if_neg other, memberKey_keyless missing]
    exact tracks_fail moves

theorem length_memberKey {key : Text} (read : Json.memberKey t = .ok (key, rest)) :
    rest.length < t.length := by
  unfold Json.memberKey at read
  split at read
  · rename_i start
    have shorter := length_lt_of_skip start
    split at read
    · cases read
    rename_i string
    have shorterString := length_stringBody string
    split at read
    · rename_i colon
      have shorterColon := length_lt_of_skip colon
      cases read
      omega
    · cases read
  · cases read

-- By induction on the fuel. A level of nesting takes three units of it, and at each level a byte was passed:
-- the bracket in front of the first member or element, or the comma in front of the others.
mutual

theorem tracks_value (fuel : Nat) {rest : Text} {s : State} (enough : 3 * rest.length + 2 ≤ fuel)
    (onward : Onward t rest s) :
    (value t fuel).Tracks t s (seen (Json.value rest)) (Onward t) := by
  obtain ⟨fuel, rfl⟩ := Nat.exists_eq_add_one_of_ne_zero (Nat.ne_zero_of_lt enough)
  rw [value]
  refine (tracks_call onward.toStands onward.ready).followed fun s ⟨stands, hands⟩ => ?_
  refine (tracks_skipSpace (by omega) stands.still).followed fun s' moves => ?_
  refine (tracks_peek moves).followed fun s' moves => ?_
  cases start : Json.skipSpace rest with
  | nil =>
    rw [seen_value_nil start, List.headD_nil, if_neg (by decide), if_neg (by decide),
      if_neg (by decide), if_neg (by decide)]
    rw [start] at moves
    exact tracks_constant moves
  | cons b r =>
    have shorter := length_lt_of_skip start
    have again := skipSpace_skipSpace rest
    rw [start] at moves again
    rw [← seen_value_skipSpace, start, List.headD_cons]
    have shorterInside := length_skipSpace_le r
    obtain ⟨fuel, rfl⟩ := Nat.exists_eq_add_one_of_ne_zero (show fuel ≠ 0 by omega)
    by_cases brace : b = 123
    · subst b
      rw [if_pos rfl]
      have ready := moves.ready (hands rfl .object nofun)
      exact tracks_object (by omega) moves.toStands ready fun s onward =>
        tracks_members fuel [] (by omega) onward
    by_cases bracket : b = 91
    · subst b
      rw [if_neg (by decide), if_pos rfl]
      have ready := moves.ready (hands rfl .array nofun)
      exact tracks_array (by omega) moves.toStands ready fun s onward =>
        tracks_elements fuel [] (by omega) onward
    rw [seen_value again, if_neg brace, if_neg brace, if_neg bracket, if_neg bracket]
    by_cases quote : b = 34
    · rw [if_pos quote, if_pos quote]
      refine ((tracks_string (by omega) moves).map Value.string).mono fun v behind s' read moves => ?_
      obtain ⟨⟨str, after⟩, inside, same⟩ := ok_of_map_ok read
      cases same
      exact moves.onward stands (Nat.lt_trans (length_stringBody inside) shorter)
    rw [if_neg quote, if_neg quote]
    by_cases numeral : b = 45 ∨ Text.isDigit b = true
    · rw [if_pos numeral, if_pos numeral]
      refine (tracks_number (by grind) moves).mono fun v behind s' read moves => ?_
      exact moves.onward stands (Nat.lt_of_lt_of_le (length_number read) shorter)
    rw [if_neg numeral, if_neg numeral]
    refine (tracks_constant moves).mono fun v behind s' read moves => ?_
    split at read
    · rename_i found
      cases read
      exact moves.onward stands (Nat.lt_of_lt_of_le (length_literal? found) shorter)
    · cases read
termination_by fuel

theorem tracks_members (fuel : Nat) (fields : Fields Value) {rest : Text} {s : State}
    (enough : 3 * rest.length + 3 ≤ fuel) (onward : Onward t rest s) :
    (members t fuel (.object fields)).Tracks t s
      ((seen (Json.members fields rest)).map fun (fields, rest) => (.object fields, rest))
      (Onward t) := by
  obtain ⟨fuel, rfl⟩ := Nat.exists_eq_add_one_of_ne_zero (Nat.ne_zero_of_lt enough)
  rw [members, seen_members_key]
  refine (tracks_memberKey (by omega) onward.still).step (fun stop found => ?_)
    fun key afterColon s' found moves => ?_
  · simp only [found]
    rfl
  have shorterKey := length_memberKey found
  have onward := moves.onward onward.toStands shorterKey
  simp only [found]
  refine (tracks_value fuel (by omega) onward).step (fun stop read => ?_)
    fun v afterValue s' read onward => ?_
  · simp only [read]
    rfl
  have shorterValue := Reads.shorter read
  simp only [read]
  change Tracks t (pure (Value.object (Fields.insert key v fields)) >>= _) _ _ _
  rw [pure_bind]
  refine tracks_separator (by omega) onward (by decide) ?_ ?_ ?_
  · intro next s' comma onward
    have shorterNext := length_lt_of_skip comma
    simp only [comma]
    exact tracks_members fuel _ (by omega) onward
  · intro r closed _
    simp only [closed]
    rfl
  · intro comma closed
    split
    · exact (comma _ ‹_›).elim
    · exact (closed _ ‹_›).elim
    · rfl
termination_by fuel

theorem tracks_elements (fuel : Nat) (before : List Value) {rest : Text} {s : State}
    (enough : 3 * rest.length + 3 ≤ fuel) (onward : Onward t rest s) :
    (elements t fuel (.array before)).Tracks t s
      ((seen (Json.elements rest)).map fun (items, rest) => (.array (before ++ items), rest))
      (Onward t) := by
  obtain ⟨fuel, rfl⟩ := Nat.exists_eq_add_one_of_ne_zero (Nat.ne_zero_of_lt enough)
  rw [elements, seen_elements]
  refine (tracks_value fuel (by omega) onward).step (fun stop read => ?_)
    fun v afterValue s' read onward => ?_
  · simp only [read]
    rfl
  have shorterValue := Reads.shorter read
  simp only [read]
  change Tracks t (pure (Value.array (before ++ [v])) >>= _) _ _ _
  rw [pure_bind]
  refine tracks_separator (by omega) onward (by decide) ?_ ?_ ?_
  · intro next s' comma onward
    have shorterNext := length_lt_of_skip comma
    have others := tracks_elements fuel (before ++ [v]) (by omega) onward
    simp only [comma]
    cases more : seen (Json.elements next) with
    | error stop =>
      rw [more] at others
      exact others
    | ok read =>
      rw [more] at others
      change Tracks t _ s' (.ok (Value.array (before ++ [v] ++ read.1), read.2)) _ at others
      rw [List.append_assoc] at others
      exact others
  · intro r closed _
    simp only [closed]
    rfl
  · intro comma closed
    split
    · exact (comma _ ‹_›).elim
    · exact (closed _ ‹_›).elim
    · rfl
termination_by fuel

end

/-- What a text is read as: a value with nothing but blanks behind it. -/
def whole (t : Text) : Except Stop (Value × Text) :=
  match seen (Json.value t) with
  | .error stop => .error stop
  | .ok (v, rest) =>
    if Json.skipSpace rest = [] then .ok (v, []) else .error ⟨.extraData, Json.skipSpace rest⟩

theorem read_eq_whole (t : Text) : read t = match whole t with
    | .ok (v, _) => .ok v
    | .error stop => .error (stop.fault t) := by
  unfold read whole
  cases Json.value t with
  | error stop => rfl
  | ok inner =>
    simp only [seen, Except.map, List.isEmpty_iff]
    split
    · rfl
    · rfl

theorem tracks_document (enough : 3 * t.length + 2 ≤ fuel) (onward : Onward t t s) :
    (document t fuel).Tracks t s (whole t) (Stands t) := by
  unfold whole
  refine (tracks_value fuel enough onward).step (fun stop read => ?_) fun v rest s' read onward => ?_
  · simp only [read]
  have shorter := Reads.shorter read
  simp only [read]
  refine (tracks_skipSpace (by omega) onward.still).followed fun s' moves => ?_
  refine (answers_position s').tracks_bind ?_
  cases behind : Json.skipSpace rest with
  | nil =>
    rw [behind] at moves
    rw [if_pos rfl, if_neg moves.not_pos_lt]
    exact tracks_pure moves.toStands
  | cons b r =>
    rw [behind] at moves
    rw [if_neg (List.cons_ne_nil b r), if_pos moves.pos_lt]
    exact tracks_fail moves

/-- The cursor begins in front of the whole text. -/
theorem onward_start (t : Text) : Onward t t {} where
  inside := ⟨Nat.zero_le _, nofun, .nil⟩
  left := rfl
  ready := nofun

/-- On every text the cursor comes to an end and answers what is read of the text. It is inside the text all
the time, it touches nothing outside, and no text without digits is converted. Between two calls of routines
it has gone on, unless `value` hands its place on. What breaks it off is a runtime error. -/
theorem cursor_stays_inside (enough : 3 * t.length + 2 ≤ fuel) : ∃ answer last,
    run t fuel = some (answer, last) ∧ answer = (read t).mapError .fault ∧
    (∀ raised, answer = .error raised → raised.category = .runtimeError) ∧
    last.pos ≤ t.length ∧ (∀ m ∈ last.history, m.pos ≤ t.length ∧ m.act.Within t) ∧
    last.history.Pairwise Moment.Behind := by
  have tracks := tracks_document enough (onward_start t)
  have same := read_eq_whole t
  obtain ⟨answer, last, ends, told, inside⟩ : ∃ answer last, run t fuel = some (answer, last) ∧
      answer = (read t).mapError .fault ∧ last.Inside t := by
    cases expected : whole t with
    | ok inner =>
      rw [expected] at tracks same
      obtain ⟨last, answered, stands⟩ := tracks
      exact ⟨_, last, answered, by rw [same]; rfl, stands.inside⟩
    | error stop =>
      rw [expected] at tracks same
      obtain ⟨last, broken, inside⟩ := tracks
      exact ⟨_, last, broken, by rw [same]; rfl, inside⟩
  refine ⟨answer, last, ends, told, ?_, inside.here, ?_, inside.behind⟩
  · rintro raised rfl
    cases refused : read t with
    | ok v =>
      rw [refused] at told
      cases told
    | error fault =>
      rw [refused] at told
      cases told
      exact read_error_category refused
  · intro m member
    exact ⟨Nat.le_trans (inside.past m member).1 inside.here, (inside.past m member).2⟩

/-- A zero in the text and an end that comes too early. -/
theorem cursor_stays_inside_zero :
    let t : Text := [91, 0, 34]
    3 * t.length + 2 ≤ 11 ∧ ∃ answer last, run t 11 = some (answer, last) ∧
      answer = (read t).mapError .fault ∧
      (∀ raised, answer = .error raised → raised.category = .runtimeError) ∧
      last.pos ≤ t.length ∧ (∀ m ∈ last.history, m.pos ≤ t.length ∧ m.act.Within t) ∧
      last.history.Pairwise Moment.Behind :=
  ⟨by decide, cursor_stays_inside (by decide)⟩

end Schemata.Json.Cursor
