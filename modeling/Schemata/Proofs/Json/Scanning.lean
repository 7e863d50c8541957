import Schemata.Proofs.Json.Tracking
import Schemata.Proofs.Value.Numeral

/-! Blanks, words, strings and numbers, passed by the cursor. The byte that is peeked at is a zero at the
end of the text and may be one before; no routine goes on because of a zero, so each one goes past a byte
only where there is one. -/
namespace Schemata.Json.Cursor

open State Scan

variable {t rest r : Text} {origin s : State} {b : UInt8} {problem : Problem}
  {leaves : Text → State → Prop} {fuel : Nat}

section Places

theorem foldl_along (before : Text) : before.foldl along (1, 1) =
    (before.count 10 + 1, (before.reverse.takeWhile (· != 10)).length + 1) := by
  induction before using List.reverseRecOn with
  | nil => rfl
  | append_singleton before b ih =>
    rw [List.foldl_concat, ih, along]
    by_cases line : b = 10
    · subst b
      simp
    · simp [line, List.count_append]

theorem tracks_places {front back : Text} {index : Nat} (place : Nat × Nat)
    (moves : Moves t origin rest s) (left : t.drop index = front ++ back) :
    ((List.range' index front.length).foldlM
      (fun place index => byteAt t index >>= fun b => pure (along place b)) place).Tracks t s
      (.ok (front.foldl along place, rest)) (Moves t origin) := by
  induction front generalizing index place s with
  | nil => exact tracks_pure moves
  | cons b front ih =>
    have found : t[index]? = some b := by
      rw [← List.head?_drop, left]
      rfl
    have behind : t.drop (index + 1) = front ++ back := by
      rw [← List.drop_drop, left]
      rfl
    rw [List.length_cons, List.range'_succ, List.foldlM_cons, bind_assoc]
    exact (tracks_byteAt moves found).followed fun s moves => ih _ moves behind

theorem tracks_place (moves : Moves t origin rest s) :
    (place t).Tracks t s (.ok (Json.position t rest, rest)) (Moves t origin) := by
  have here := moves.inside.here
  have whole := moves.pos_add
  have passed : t.length - rest.length = s.pos := by omega
  have counted := tracks_places (1, 1) moves (t.drop_zero.trans (t.take_append_drop s.pos).symm)
  rw [List.length_take_of_le here, ← List.range_eq_range', foldl_along] at counted
  refine (answers_position s).tracks_bind ?_
  rw [Nat.min_eq_left here, Json.position, passed]
  exact counted

/-- A fault names the place of the cursor. -/
theorem tracks_fail (moves : Moves t origin rest s) :
    (fail t problem : Scan α).Tracks t s (.error ⟨problem, rest⟩) leaves := by
  obtain ⟨s', placed, moves'⟩ := tracks_place moves
  refine ⟨s', ?_, moves'.inside⟩
  rw [Breaks, fail, placed.outcome_bind]
  rfl

end Places

section Blanks

theorem tracks_peek (moves : Moves t origin rest s) :
    (peek t).Tracks t s (.ok (rest.headD 0, rest)) (Moves t origin) := by
  refine (answers_position s).tracks_bind ?_
  cases rest with
  | nil =>
    rw [if_neg moves.not_pos_lt]
    exact tracks_pure moves
  | cons b r =>
    rw [if_pos moves.pos_lt]
    exact tracks_byteAt moves moves.getElem?

theorem tracks_pass {bytes : List UInt8} (moves : Moves t origin (b :: rest) s)
    (listed : bytes.contains b = true) :
    (pass t bytes).Tracks t s (.ok (true, rest)) (Moves t origin) := by
  refine (tracks_peek moves).followed fun s moves => ?_
  rw [List.headD_cons, if_pos listed]
  refine (tracks_advance [b] moves rfl).followed fun s moves => ?_
  exact tracks_pure moves

theorem tracks_stay {bytes : List UInt8} (moves : Moves t origin rest s)
    (other : ∀ b ∈ bytes, ∀ r, rest ≠ b :: r) (zero : 0 ∉ bytes) :
    (pass t bytes).Tracks t s (.ok (false, rest)) (Moves t origin) := by
  refine (tracks_peek moves).followed fun s moves => ?_
  have absent : ¬ bytes.contains (rest.headD 0) = true := by
    rw [List.contains_iff_mem]
    cases rest with
    | nil => exact zero
    | cons b r => exact fun listed => other b listed r rfl
  rw [if_neg absent]
  exact tracks_pure moves

theorem tracks_missing (moves : Moves t origin rest s) (missing : ∀ r, rest ≠ b :: r) (some : b ≠ 0) :
    (pass t [b]).Tracks t s (.ok (false, rest)) (Moves t origin) := by
  refine tracks_stay moves ?_ (by simpa using some.symm)
  exact List.forall_mem_singleton.mpr missing

theorem tracks_skipSpace (enough : rest.length < fuel) (moves : Moves t origin rest s) :
    (skipSpace t fuel).Tracks t s (.ok ((), Json.skipSpace rest)) (Moves t origin) := by
  induction fuel generalizing rest s with
  | zero => cases enough
  | succ fuel ih =>
    refine (answers_position s).tracks_bind ?_
    cases rest with
    | nil =>
      rw [if_neg moves.not_pos_lt]
      exact tracks_pure moves
    | cons b rest =>
      rw [if_pos moves.pos_lt]
      refine (tracks_byteAt moves moves.getElem?).followed fun s moves => ?_
      rw [Json.skipSpace, List.dropWhile_cons]
      split
      · refine (tracks_advance [b] moves rfl).followed fun s moves => ?_
        exact ih (Nat.lt_of_succ_lt_succ enough) moves
      · exact tracks_pure moves

theorem tracks_expect (enough : rest.length < fuel) (moves : Moves t origin rest s)
    (found : Json.skipSpace rest = b :: r) :
    (expect t fuel b).Tracks t s (.ok ((), r)) (Moves t origin) := by
  refine (tracks_skipSpace enough moves).followed fun s moves => ?_
  rw [found] at moves
  refine (tracks_pass moves (by simp)).followed fun s moves => ?_
  exact tracks_pure moves

theorem tracks_expect_missing (enough : rest.length < fuel) (moves : Moves t origin rest s)
    (missing : ∀ r, Json.skipSpace rest ≠ b :: r) (some : b ≠ 0) :
    (expect t fuel b).Tracks t s (.error ⟨.expected b, Json.skipSpace rest⟩) (Moves t origin) := by
  refine (tracks_skipSpace enough moves).followed fun s moves => ?_
  refine (tracks_missing moves missing some).followed fun s moves => ?_
  exact tracks_fail moves

end Blanks

section Words

variable {word : Text}

theorem tracks_literal (moves : Moves t origin rest s) (found : Text.dropWord? word rest = some r) :
    (literal t word).Tracks t s (.ok (true, r)) (Moves t origin) := by
  rw [Text.dropWord?_eq_some_iff] at found
  refine (answers_position s).tracks_bind ?_
  refine (tracks_startsAt moves word).followed fun s moves => ?_
  rw [found] at moves ⊢
  rw [List.take_left, beq_self_eq_true, if_pos rfl]
  refine (tracks_advance _ moves rfl).followed fun s moves => ?_
  exact tracks_pure moves

theorem tracks_literal_missing (moves : Moves t origin rest s)
    (missing : Text.dropWord? word rest = none) :
    (literal t word).Tracks t s (.ok (false, rest)) (Moves t origin) := by
  have other : (rest.take word.length == word) = false := by
    refine beq_eq_false_iff_ne.mpr fun same => ?_
    have found : Text.dropWord? word rest = some (rest.drop word.length) := by
      rw [Text.dropWord?_eq_some_iff]
      conv_lhs => rw [← List.take_append_drop word.length rest, same]
    cases found.symm.trans missing
  refine (answers_position s).tracks_bind ?_
  refine (tracks_startsAt moves word).followed fun s moves => ?_
  rw [other, if_neg Bool.false_ne_true]
  exact tracks_pure moves

theorem tracks_constant (moves : Moves t origin rest s) : (constant t).Tracks t s
    (match literal? rest with
      | some (v, rest) => .ok (v, rest)
      | none => .error ⟨.unexpectedToken, rest⟩) (Moves t origin) := by
  unfold literal?
  cases null : Text.dropWord? (Text.ofString "null") rest with
  | some => exact (tracks_literal moves null).followed fun s moves => tracks_pure moves
  | none =>
    refine (tracks_literal_missing moves null).followed fun s moves => ?_
    cases yes : Text.dropWord? (Text.ofString "true") rest with
    | some => exact (tracks_literal moves yes).followed fun s moves => tracks_pure moves
    | none =>
      refine (tracks_literal_missing moves yes).followed fun s moves => ?_
      cases no : Text.dropWord? (Text.ofString "false") rest with
      | some => exact (tracks_literal moves no).followed fun s moves => tracks_pure moves
      | none => exact (tracks_literal_missing moves no).followed fun s moves => tracks_fail moves

end Words

section Strings

theorem tracks_next (moves : Moves t origin (b :: rest) s) :
    (next t problem).Tracks t s (.ok (b, rest)) (Moves t origin) := by
  refine (answers_position s).tracks_bind ?_
  rw [if_pos moves.pos_lt]
  refine (tracks_byteAt moves moves.getElem?).followed fun s moves => ?_
  refine (tracks_advance [b] moves rfl).followed fun s moves => ?_
  exact tracks_pure moves

theorem tracks_next_missing (moves : Moves t origin [] s) :
    (next t problem).Tracks t s (.error ⟨problem, []⟩) (Moves t origin) := by
  refine (answers_position s).tracks_bind ?_
  rw [if_neg moves.not_pos_lt]
  exact tracks_fail moves

theorem tracks_codeUnit (four : Text) (moves : Moves t origin (four ++ rest) s)
    (long : four.length = 4) : (codeUnit t).Tracks t s
      (match unitOfEscape? four with
        | some unit => .ok (unit, rest)
        | none => .error ⟨.invalidUnicode, four ++ rest⟩) (Moves t origin) := by
  have whole := moves.pos_add
  rw [List.length_append, long] at whole
  refine (answers_position s).tracks_bind ?_
  rw [if_pos (by omega)]
  refine (tracks_cut moves moves.left (congrArg _ long) (by omega)).followed fun s moves => ?_
  cases unitOfEscape? four with
  | some unit => exact (tracks_advance _ moves long).followed fun s moves => tracks_pure moves
  | none => exact tracks_fail moves

theorem tracks_codeUnit_missing (moves : Moves t origin rest s) (short : rest.length < 4) :
    (codeUnit t).Tracks t s (.error ⟨.unterminatedUnicode, rest⟩) (Moves t origin) := by
  have whole := moves.pos_add
  refine (answers_position s).tracks_bind ?_
  rw [if_neg (by omega)]
  exact tracks_fail moves

/-- What was read before stands in front of what is read. -/
theorem prepend_prepend (read bytes : Text) (body : Except Stop (Text × Text)) :
    prepend read (prepend bytes body) = prepend (read ++ bytes) body := by
  cases body with
  | error => rfl
  | ok => simp [prepend, Except.map]

theorem tracks_pieces_escape {letter : UInt8} {read : Text} {expected : Except Stop (Text × Text)}
    (moves : Moves t origin (92 :: letter :: rest) s)
    (behind : ∀ s, Moves t origin rest s →
      (escape t letter >>= fun bytes => pieces t fuel (read ++ bytes)).Tracks t s expected leaves) :
    (pieces t (fuel + 1) read).Tracks t s expected leaves := by
  refine (tracks_next moves).followed fun s moves => ?_
  rw [if_neg (by decide), if_pos rfl]
  exact (tracks_next moves).followed behind

theorem tracks_pieces (read : Text) (enough : rest.length < fuel) (moves : Moves t origin rest s) :
    (pieces t fuel read).Tracks t s (prepend read (stringBody rest)) (Moves t origin) := by
  induction fuel generalizing rest read s with
  | zero => cases enough
  | succ fuel ih =>
    -- The end, the quote and a backslash at the end; an escaped unit that is read, that is not, and that is
    -- cut off; an escaped letter that is known and one that is not; and a plain byte.
    fun_cases stringBody rest with
    | case1 => exact (tracks_next_missing moves).stopped
    | case2 rest =>
      refine (tracks_next moves).followed fun s moves => ?_
      rw [if_pos rfl, show prepend read (.ok ([], rest)) = .ok (read ++ [], rest) from rfl,
        List.append_nil]
      exact tracks_pure moves
    | case3 =>
      refine (tracks_next moves).followed fun s moves => ?_
      rw [if_neg (by decide), if_pos rfl]
      exact (tracks_next_missing moves).stopped
    | case4 h₁ h₂ h₃ h₄ rest unit number =>
      refine tracks_pieces_escape moves fun s moves => ?_
      have code := tracks_codeUnit [h₁, h₂, h₃, h₄] moves rfl
      rw [number] at code
      rw [escape, if_pos rfl, bind_assoc, prepend_prepend]
      simp only [List.length_cons] at enough
      exact code.followed fun s moves => ih _ (by omega) moves
    | case5 h₁ h₂ h₃ h₄ rest number =>
      refine tracks_pieces_escape moves fun s moves => ?_
      have code := tracks_codeUnit [h₁, h₂, h₃, h₄] moves rfl
      rw [number] at code
      rw [escape, if_pos rfl, bind_assoc]
      exact code.stopped
    | case6 rest short =>
      have few : rest.length < 4 := by
        match rest, short with
        | [], _ | [_], _ | [_, _], _ | [_, _, _], _ => simp
        | h₁ :: h₂ :: h₃ :: h₄ :: rest, long => exact (long h₁ h₂ h₃ h₄ rest rfl).elim
      refine tracks_pieces_escape moves fun s moves => ?_
      rw [escape, if_pos rfl, bind_assoc]
      exact (tracks_codeUnit_missing moves few).stopped
    | case7 letter rest short b known =>
      refine tracks_pieces_escape moves fun s moves => ?_
      rw [escape, if_neg short, known, pure_bind, prepend_prepend]
      exact ih _ (Nat.lt_of_succ_lt (Nat.lt_of_succ_lt_succ enough)) moves
    | case8 letter rest short unknown =>
      refine tracks_pieces_escape moves fun s moves => ?_
      have failed : (fail t .unsupportedEscape : Scan Text).Tracks t s _ (Moves t origin) :=
        tracks_fail moves
      rw [escape, if_neg short, unknown]
      exact failed.stopped
    | case9 b rest quote escape =>
      rw [prepend_prepend]
      refine (tracks_next moves).followed fun s moves => ?_
      rw [if_neg quote, if_neg escape]
      exact ih _ (Nat.lt_of_succ_lt_succ enough) moves

theorem tracks_string (enough : rest.length < fuel) (moves : Moves t origin (b :: rest) s) :
    (string t fuel).Tracks t s (stringBody rest) (Moves t origin) := by
  have body : prepend [] (stringBody rest) = stringBody rest := by
    cases stringBody rest <;> rfl
  refine (tracks_advance [b] moves rfl).followed fun s moves => ?_
  exact body ▸ tracks_pieces [] enough moves

end Strings

section Numbers

theorem tracks_moreDigits (enough : rest.length < fuel) (moves : Moves t origin rest s) :
    (moreDigits t fuel).Tracks t s (.ok ((), rest.dropWhile Text.isDigit)) (Moves t origin) := by
  induction fuel generalizing rest s with
  | zero => cases enough
  | succ fuel ih =>
    refine (tracks_peek moves).followed fun s moves => ?_
    cases rest with
    | nil =>
      rw [List.headD_nil, if_neg (by decide)]
      exact tracks_pure moves
    | cons b rest =>
      rw [List.headD_cons, List.dropWhile_cons]
      split
      · refine (tracks_advance [b] moves rfl).followed fun s moves => ?_
        exact ih (Nat.lt_of_succ_lt_succ enough) moves
      · exact tracks_pure moves

theorem tracks_digits (enough : rest.length < fuel) (moves : Moves t origin rest s) :
    (digits t fuel).Tracks t s ((Json.digits rest).map fun (_, rest) => ((), rest))
      (Moves t origin) := by
  refine (tracks_peek moves).followed fun s moves => ?_
  cases rest with
  | nil => exact tracks_fail moves
  | cons b rest =>
    rw [List.headD_cons, Json.digits]
    by_cases digit : Text.isDigit b = true
    · rw [if_pos digit, List.takeWhile_cons_of_pos digit]
      exact tracks_moreDigits enough moves
    · rw [if_neg digit, List.takeWhile_cons_of_neg digit]
      exact tracks_fail moves

/-- Digits that must be there, because of the byte in front of them. -/
theorem tracks_part (part : Text → β) (enough : rest.length < fuel) (moves : Moves t origin rest s) :
    (digits t fuel >>= fun _ => pure true).Tracks t s
      (((Json.digits rest).map fun (run, rest) => (some (part run), rest)).map
        fun (part, rest) => (part.isSome, rest)) (Moves t origin) := by
  have run := tracks_digits enough moves
  cases scanned : Json.digits rest with
  | error stop =>
    rw [scanned] at run
    exact run.stopped
  | ok read =>
    rw [scanned] at run
    exact run.followed fun s moves => tracks_pure moves

theorem tracks_fraction (enough : rest.length < fuel) (moves : Moves t origin rest s) :
    (fraction t fuel).Tracks t s ((Json.fraction rest).map fun (part, rest) => (part.isSome, rest))
      (Moves t origin) := by
  unfold Json.fraction
  cases point : Text.skip? 46 rest with
  | none =>
    have missing : ∀ r, rest ≠ 46 :: r := by
      rintro r rfl
      cases point
    refine (tracks_missing moves missing (by decide)).followed fun s moves => ?_
    exact tracks_pure moves
  | some r =>
    rw [Text.skip?_eq_some_iff] at point
    subst rest
    refine (tracks_pass moves rfl).followed fun s moves => ?_
    rw [if_pos rfl]
    exact tracks_part id (Nat.lt_of_succ_lt enough) moves

theorem tracks_exponent (enough : rest.length < fuel) (moves : Moves t origin rest s) :
    (exponent t fuel).Tracks t s
      ((Json.exponent rest).map fun (power, rest) => (power.isSome, rest)) (Moves t origin) := by
  unfold Json.exponent
  split
  · have ends : ∀ b ∈ [101, 69], ∀ r : Text, [] ≠ b :: r := fun b _ r => (List.cons_ne_nil b r).symm
    exact (tracks_stay moves ends (by decide)).followed fun s moves => tracks_pure moves
  · rename_i b rest
    split
    · rename_i letter
      have listed : [101, 69].contains b = true := by simpa using letter
      refine (tracks_pass moves listed).followed fun s moves => ?_
      have enough := Nat.lt_of_succ_lt enough
      rw [if_pos rfl]
      split
      · refine (tracks_pass moves rfl).followed fun s moves => ?_
        exact tracks_part (fun run => (Text.toNat run : Int)) (Nat.lt_of_succ_lt enough) moves
      · refine (tracks_pass moves rfl).followed fun s moves => ?_
        exact tracks_part (fun run => -(Text.toNat run : Int)) (Nat.lt_of_succ_lt enough) moves
      · rename_i plus minus
        have signless : ∀ b ∈ [43, 45], ∀ r, rest ≠ b :: r :=
          List.forall_mem_cons.mpr ⟨plus, List.forall_mem_singleton.mpr minus⟩
        refine (tracks_stay moves signless (by decide)).followed fun s moves => ?_
        exact tracks_part (fun run => (Text.toNat run : Int)) enough moves
    · rename_i letter
      have other : ∀ c ∈ [101, 69], ∀ r, b :: rest ≠ c :: r := by
        rintro c listed r ⟨⟩
        exact letter (by simpa using listed)
      exact (tracks_stay moves other (by decide)).followed fun s moves => tracks_pure moves

variable {n : Numeral}

theorem double_text (legal : n.Legal .lenient) : double n.text = n.decimal.toBinary64 := by
  rw [double, Value.splitSign_text legal]
  simp only [Value.decimal?_magnitude legal]
  rfl

/-- A number without point and exponent is converted, unless it needs more bits. -/
theorem outcome_integer (legal : n.Legal .lenient) (whole : n.IsWhole) :
    (integer n.text).outcome s = some
      (if Int64.minValue.toInt ≤ n.integer ∧ n.integer ≤ Int64.maxValue.toInt then
          .ok (Int64.ofInt n.integer)
        else .error .outOfRange,
      ⟨s.pos, ⟨s.pos, .integer n.text⟩ :: s.history⟩) := by
  have run : n.whole.takeWhile Text.isDigit = n.whole :=
    List.takeWhile_eq_self_iff.mpr (List.all_eq_true.mp legal.whole.2)
  simp only [integer, legal.skipSpace_text, Value.splitSign_text legal, whole.magnitude, run,
    if_neg legal.whole.1]
  rw [← Numeral.integer]
  split
  · rfl
  · rfl

theorem tracks_valueOfToken {integral : Bool} (legal : n.Legal .lenient)
    (whole : integral = true ↔ n.IsWhole) (moves : Moves t origin rest s) :
    (valueOfToken n.text integral).Tracks t s (.ok (n.value, rest)) (Moves t origin) := by
  unfold valueOfToken
  split
  · rename_i point
    have whole := whole.mp point
    have token := outcome_integer (s := s) legal whole
    have converted : Act.Within t (.integer n.text) := by
      rw [Act.Within, Value.splitSign_text legal, whole.magnitude]
      exact legal.whole
    have noted := moves.push (.integer n.text) (Nat.le_refl _) moves.inside.here moves.left converted
      nofun
    -- Out of range is all that the conversion can raise, and that is caught.
    split at token
    · rename_i fits
      rw [Numeral.value_of_fits ⟨whole, fits⟩]
      have answered := Answers.outcome_bind (f := fun n => pure (Value.int n)) token
      exact ⟨_, Answers.tryCatch answered, noted⟩
    · rename_i wide
      rw [Numeral.value_of_not_fits fun fits => wide fits.2, ← double_text legal]
      have broken : Scan.Breaks _ _ _ _ := token
      exact (broken.bind (f := fun n => pure (Value.int n))).tracks_tryCatch (tracks_pure noted)
  · rename_i point
    rw [Numeral.value_of_not_fits fun fits => point (whole.mpr fits.1), ← double_text legal]
    exact tracks_pure moves

/-- The token is what stands between its beginning and the place behind the exponent. -/
theorem tracks_unsigned {negative : Bool} {start : Nat} (enough : rest.length < fuel)
    (moves : Moves t origin rest s) (begins : t.drop start = if negative then 45 :: rest else rest) :
    (unsigned t fuel start).Tracks t s (Json.unsigned negative rest) (Moves t origin) := by
  refine (tracks_digits enough moves).bind (fun _ => ()) fun whole afterWhole s first moves => ?_
  have enough := Nat.lt_trans (length_digits first) enough
  refine (tracks_fraction enough moves).bind Option.isSome fun fraction afterFraction s second moves => ?_
  have enough := Nat.lt_of_le_of_lt (length_fraction second) enough
  refine (tracks_exponent enough moves).bind Option.isSome fun power rest s third behind => ?_
  obtain ⟨filled, rfl⟩ := spelling_of_digits first
  obtain ⟨filled', rfl⟩ := spelling_of_fraction second
  obtain ⟨exponent, legal, rfl, rfl⟩ := spelling_of_exponent third
  let n : Numeral := ⟨negative, whole, fraction, exponent⟩
  have legal : n.Legal .lenient := ⟨filled, rfl, filled', legal⟩
  have token : t.drop start = n.text ++ rest := by
    rw [begins, Numeral.text, Numeral.magnitude]
    cases negative <;> simp [n]
  have long : start + n.text.length = s.pos := by
    have filled : 0 < n.text.length := List.length_pos_iff.mpr legal.text_ne_nil
    have whole := behind.pos_add
    have length := congrArg List.length token
    rw [List.length_drop, List.length_append] at length
    omega
  refine (answers_position s).tracks_bind ?_
  refine (tracks_cut behind token long behind.inside.here).followed fun s behind => ?_
  dsimp only
  rw [numberValue_eq n]
  refine tracks_valueOfToken legal ?_ behind
  simp [n, Numeral.IsWhole]

theorem tracks_number (enough : rest.length < fuel) (moves : Moves t origin rest s) :
    (number t fuel).Tracks t s (Json.number rest) (Moves t origin) := by
  have left := moves.left
  refine (answers_position s).tracks_bind ?_
  unfold Json.number
  split
  · refine (tracks_pass moves rfl).followed fun s moves => ?_
    exact tracks_unsigned (Nat.lt_of_succ_lt enough) moves left
  · rename_i other
    refine (tracks_missing moves other (by decide)).followed fun s moves => ?_
    exact tracks_unsigned enough moves left

end Numbers

end Schemata.Json.Cursor
