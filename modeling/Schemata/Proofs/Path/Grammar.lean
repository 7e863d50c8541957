import Mathlib.Data.List.Forall2
import Mathlib.Data.List.Induction
import Mathlib.Data.Nat.Digits.Defs
import Schemata.Proofs.Path.Canonical

/-! The grammar of paths. A path is split from left to right into parts: indices in brackets, and
segments that end at a dot, in front of a bracket or at the end of the text. Each part names one
step. The main statement says that parsing accepts what can be split, with the steps that the parts
name, and that these steps, written with dots between them, are read back. -/
namespace Schemata

namespace Path

/-- The number that decimal digits denote. -/
def decimal (digits : Text) : Nat := Nat.ofDigits 10 (digits.reverse.map fun b => b.toNat - 48)

/-- One to nine decimal digits. -/
structure IsNumeral (t : Text) : Prop where
  least : 1 ≤ t.length
  most : t.length ≤ 9
  digits : ∀ b ∈ t, 48 ≤ b ∧ b ≤ 57

/-- A numeral that is zero or does not start with one. -/
def IsPlainNumeral (t : Text) : Prop := IsNumeral t ∧ (t = [48] ∨ t.head? ≠ some 48)

/-- A text that no dot and no bracket breaks. -/
structure IsSegment (t : Text) : Prop where
  ne_nil : t ≠ []
  dotless : 46 ∉ t
  bracketless : 91 ∉ t

inductive Part where
  | bracket (digits : Text)
  | segment (text : Text)

/-- The step that a part stands for. -/
inductive Part.Names : Part → Step → Prop where
  | bracket : Names (.bracket digits) (.index (decimal digits))
  | index : IsPlainNumeral text → Names (.segment text) (.index (decimal text))
  | key : ¬ IsPlainNumeral text → Names (.segment text) (.key text)

/-- A text as its parts from left to right. A dot may stand behind a bracket, and must stand between
two segments. -/
inductive Splits : Text → List Part → Prop where
  | nil : Splits [] []
  | bracket : IsNumeral digits → Splits rest parts →
      Splits (91 :: (digits ++ 93 :: rest)) (.bracket digits :: parts)
  | bracketDot : IsNumeral digits → Splits rest parts →
      Splits (91 :: (digits ++ 93 :: 46 :: rest)) (.bracket digits :: parts)
  | segment : IsSegment text → Splits text [.segment text]
  | segmentDot : IsSegment text → Splits rest parts →
      Splits (text ++ 46 :: rest) (.segment text :: parts)
  | segmentBracket : IsSegment text → Splits (91 :: rest) parts →
      Splits (text ++ 91 :: rest) (.segment text :: parts)

/-- A text that is not empty, has no dot at an end, and can be split. -/
structure WellFormed (path : Text) : Prop where
  ne_nil : path ≠ []
  leading : path.head? ≠ some 46
  trailing : path.getLast? ≠ some 46
  splits : ∃ parts, Splits path parts

/-- The step of a part as it is read. -/
def Part.step : Part → Step
  | bracket digits => .index digits.toNat
  | segment text => segmentStep text

section Parts

variable {t digits text rest path : Text} {part : Part} {parts : List Part} {step : Step}
  {steps : List Step}

theorem decimal_eq_toNat (digits : Text) : decimal digits = digits.toNat := by
  induction digits using List.reverseRecOn with
  | nil => rfl
  | append_singleton digits b ih =>
    rw [Text.toNat_concat, ← ih, decimal, List.reverse_append, List.reverse_singleton,
      List.singleton_append, List.map_cons, Nat.ofDigits_cons, decimal]
    omega

theorem isIndexText_iff : isIndexText t = true ↔ IsNumeral t := by
  simp only [isIndexText, Text.isDigit, Bool.and_eq_true, Bool.not_eq_true', List.isEmpty_eq_false_iff,
    decide_eq_true_eq, List.all_eq_true, ← List.length_pos_iff]
  constructor
  · rintro ⟨⟨least, most⟩, digits⟩
    exact ⟨least, most, digits⟩
  · rintro ⟨least, most, digits⟩
    exact ⟨⟨least, most⟩, digits⟩

theorem IsNumeral.plain_iff (numeral : IsNumeral t) :
    (t.length == 1 || t.head? != some 48) = true ↔ t = [48] ∨ t.head? ≠ some 48 := by
  simp only [Bool.or_eq_true, beq_iff_eq, bne_iff_ne]
  constructor
  · rintro (single | plain)
    · obtain ⟨b, rfl⟩ := List.length_eq_one_iff.mp single
      by_cases zero : b = 48
      · exact .inl (by rw [zero])
      · exact .inr (by simpa using zero)
    · exact .inr plain
  · rintro (rfl | plain)
    · exact .inl rfl
    · exact .inr plain

theorem Part.names_iff : part.Names step ↔ part.step = step := by
  cases part with
  | bracket digits =>
    rw [Part.step, ← decimal_eq_toNat]
    constructor
    · intro names
      cases names
      rfl
    · rintro rfl
      exact .bracket
  | segment text =>
    have plain : (isIndexText text && (text.length == 1 || text.head? != some 48)) = true ↔
        IsPlainNumeral text := by
      rw [Bool.and_eq_true, isIndexText_iff]
      exact and_congr_right IsNumeral.plain_iff
    rw [Part.step, segmentStep, ← decimal_eq_toNat]
    constructor
    · intro names
      cases names with
      | index numeral => rw [if_pos (plain.mpr numeral)]
      | key other => rw [if_neg (plain.not.mpr other)]
    · split
      · rintro rfl
        exact .index (plain.mp ‹_›)
      · rintro rfl
        exact .key (plain.not.mp ‹_›)

theorem forall₂_names_iff : List.Forall₂ Part.Names parts steps ↔ parts.map Part.step = steps := by
  have names : Part.Names = fun part step => part.step = step := by
    funext part step
    exact propext Part.names_iff
  have mapped := List.forall₂_map_left_iff (R := Eq) (f := Part.step) (l := parts) (u := steps)
  rw [names, ← mapped, List.forall₂_eq_eq_eq]

end Parts

section Reading

variable {t digits text rest path : Text} {parts : List Part} {step : Step} {steps : List Step}

theorem IsNumeral.unclosed (numeral : IsNumeral digits) : 93 ∉ digits := by
  intro member
  have upper := (numeral.digits 93 member).2
  exact absurd upper (by decide)

theorem IsSegment.unbroken (segment : IsSegment t) : ∀ b ∈ t, endsSegment b = false := by
  intro b member
  simp only [endsSegment, Bool.or_eq_false_iff, beq_eq_false_iff_ne]
  constructor
  · rintro rfl
    exact segment.dotless member
  · rintro rfl
    exact segment.bracketless member

theorem IsSegment.canonical (segment : IsSegment t) : (segmentStep t).Canonical :=
  segmentStep_canonical segment.ne_nil segment.unbroken

theorem IsNumeral.canonical (numeral : IsNumeral t) : (Step.index t.toNat).Canonical :=
  index_canonical (toNat_lt_of_isIndexText (isIndexText_iff.mpr numeral))

theorem isSegment_of_unbroken (ne_nil : t ≠ []) (unbroken : ∀ b ∈ t, endsSegment b = false) :
    IsSegment t := by
  refine ⟨ne_nil, ?_, ?_⟩
  · intro member
    exact absurd (unbroken 46 member) (by decide)
  · intro member
    exact absurd (unbroken 91 member) (by decide)

theorem eq_of_endsSegment {b : UInt8} (ends : endsSegment b = true) : b = 46 ∨ b = 91 := by
  simpa [endsSegment] using ends

theorem isSegment_takeWhile {b : UInt8} (notBracket : b ≠ 91) (notDot : b ≠ 46) :
    IsSegment (b :: t.takeWhile fun c => !endsSegment c) := by
  refine isSegment_of_unbroken (List.cons_ne_nil _ _) fun c inside => ?_
  rcases List.mem_cons.mp inside with rfl | inside
  · simp [endsSegment, notBracket, notDot]
  · simpa using List.mem_takeWhile_imp inside

theorem endsSegment_of_dropWhile {b : UInt8}
    (left : (t.dropWhile fun c => !endsSegment c) = b :: rest) : endsSegment b = true := by
  have first := List.head?_dropWhile_not (fun c => !endsSegment c) t
  rw [left] at first
  simpa using first

theorem Splits.of_nil (splits : Splits [] parts) : parts = [] := by
  generalize empty : ([] : Text) = t at splits
  cases splits with
  | nil => rfl
  | bracket | bracketDot => cases empty
  | segment segment => exact absurd empty.symm segment.ne_nil
  | segmentDot | segmentBracket => simp at empty

/-- What can be split does not start with a dot. -/
theorem Splits.head?_ne (splits : Splits t parts) : t.head? ≠ some 46 := by
  have first {text : Text} (segment : IsSegment text) (rest : Text) :
      (text ++ rest).head? ≠ some 46 := by
    obtain ⟨b, others, rfl⟩ := List.exists_cons_of_ne_nil segment.ne_nil
    intro dot
    obtain rfl : b = 46 := Option.some.inj dot
    exact segment.dotless List.mem_cons_self
  cases splits with
  | nil => exact nofun
  | bracket | bracketDot => simp
  | segment segment => simpa using first segment []
  | segmentDot segment | segmentBracket segment => exact first segment _

theorem Splits.ne_nil (splits : Splits t parts) (more : t ≠ []) : parts ≠ [] := by
  cases splits with
  | nil => exact absurd rfl more
  | _ => exact List.cons_ne_nil _ _

/-- All parts of a path stand for canonical steps. -/
theorem Splits.canonical (splits : Splits t parts) : ∀ part ∈ parts, part.step.Canonical := by
  induction splits with
  | nil => exact nofun
  | bracket numeral _ ih | bracketDot numeral _ ih =>
    exact List.forall_mem_cons.mpr ⟨numeral.canonical, ih⟩
  | segment segment => exact List.forall_mem_singleton.mpr segment.canonical
  | segmentDot segment _ ih | segmentBracket segment _ ih =>
    exact List.forall_mem_cons.mpr ⟨segment.canonical, ih⟩

theorem dropDot_of_head? (undotted : t.head? ≠ some 46) : dropDot t = t := by
  unfold dropDot
  split
  · exact absurd rfl undotted
  · rfl

/-- A bracket is read up to its end. -/
theorem readSteps_bracket (numeral : IsNumeral digits) :
    readSteps path (91 :: (digits ++ 93 :: rest)) =
      (readSteps path (dropDot rest)).map (.index digits.toNat :: ·) := by
  have inside : ∀ b ∈ digits, (b != 93) = true := by
    intro b member
    rw [bne_iff_ne]
    rintro rfl
    exact numeral.unclosed member
  have taken : (digits ++ 93 :: rest).takeWhile (· != 93) = digits := by
    rw [List.takeWhile_append_of_pos inside]
    simp
  have left : (digits ++ 93 :: rest).dropWhile (· != 93) = 93 :: rest := by
    rw [List.dropWhile_append_of_pos inside]
    simp
  rw [readSteps, if_pos rfl]
  split
  · rename_i closing
    rw [left] at closing
    cases closing
  · rename_i closing
    rw [left] at closing
    cases closing
    rw [taken, if_pos (isIndexText_iff.mpr numeral)]

/-- A segment is read up to the byte that ends it. -/
theorem readSteps_segment (segment : IsSegment text)
    (ended : ∀ b ∈ rest.head?, endsSegment b = true) :
    readSteps path (text ++ rest) =
      (readSteps path (dropDot rest)).map (segmentStep text :: ·) := by
  obtain ⟨b, t, rfl⟩ := List.exists_cons_of_ne_nil segment.ne_nil
  have notBracket : b ≠ 91 := by
    rintro rfl
    exact segment.bracketless List.mem_cons_self
  have notDot : b ≠ 46 := by
    rintro rfl
    exact segment.dotless List.mem_cons_self
  have inside : ∀ c ∈ t, (!endsSegment c) = true := by
    intro c member
    rw [segment.unbroken c (List.mem_cons_of_mem b member)]
    rfl
  have stops : rest.takeWhile (fun c => !endsSegment c) = [] ∧
      rest.dropWhile (fun c => !endsSegment c) = rest := by
    cases rest with
    | nil => exact ⟨rfl, rfl⟩
    | cons c behind => simp [ended c rfl]
  rw [List.cons_append, readSteps, if_neg notBracket, if_neg notDot,
    List.takeWhile_append_of_pos inside, List.dropWhile_append_of_pos inside, stops.1, stops.2,
    List.append_nil]

theorem readSteps_of_splits (splits : Splits t parts) :
    readSteps path t = .ok (parts.map Part.step) := by
  induction splits with
  | nil => rw [readSteps]; rfl
  | bracket numeral splits ih =>
    rw [readSteps_bracket numeral, dropDot_of_head? splits.head?_ne, ih]
    rfl
  | bracketDot numeral _ ih =>
    rw [readSteps_bracket numeral, dropDot, ih]
    rfl
  | @segment text segment =>
    have read : readSteps path (text ++ []) =
        (readSteps path (dropDot [])).map (segmentStep text :: ·) :=
      readSteps_segment segment (by simp)
    rw [List.append_nil, dropDot_of_head? (by simp)] at read
    rw [read, readSteps]
    rfl
  | segmentDot segment _ ih =>
    rw [readSteps_segment segment (by simp [endsSegment]), dropDot, ih]
    rfl
  | segmentBracket segment _ ih =>
    rw [readSteps_segment segment (by simp [endsSegment]), dropDot_of_head? (by simp), ih]
    rfl

theorem Splits.steps_unique {others : List Part} (splits : Splits t parts) (again : Splits t others) :
    parts.map Part.step = others.map Part.step := by
  have read : readSteps t t = .ok (parts.map Part.step) := readSteps_of_splits splits
  rw [readSteps_of_splits again] at read
  exact (Except.ok.inj read).symm

/-- What is read has been split. -/
theorem exists_splits (read : readSteps path t = .ok steps) :
    ∃ parts, Splits t parts ∧ parts.map Part.step = steps := by
  fun_induction readSteps path t generalizing steps with
  | case1 =>
    cases read
    exact ⟨[], .nil, rfl⟩
  | case2 | case4 | case5 => cases read
  | case3 t c rest closing inner index =>
    rename_i ih
    obtain ⟨more, after, rfl⟩ := map_eq_ok_iff.mp read
    obtain ⟨parts, splits, rfl⟩ := ih after
    have numeral := isIndexText_iff.mp index
    have closed : c = 93 := by
      have first := List.head?_dropWhile_not (· != 93) t
      rw [closing] at first
      simpa using first
    have whole : t = inner ++ 93 :: rest := by
      rw [← closed, ← closing]
      exact List.takeWhile_append_dropWhile.symm
    refine ⟨.bracket inner :: parts, ?_, rfl⟩
    rw [whole]
    unfold dropDot at splits
    split at splits
    · exact .bracketDot numeral splits
    · exact .bracket numeral splits
  | case6 b t notBracket notDot segment =>
    rename_i ih
    obtain ⟨more, after, rfl⟩ := map_eq_ok_iff.mp read
    obtain ⟨parts, splits, rfl⟩ := ih after
    have unbroken : IsSegment segment := isSegment_takeWhile notBracket notDot
    have whole : b :: t = segment ++ t.dropWhile fun c => !endsSegment c := by
      rw [List.cons_append, List.takeWhile_append_dropWhile]
    rw [whole]
    cases rest : t.dropWhile fun c => !endsSegment c with
    | nil =>
      rw [rest, dropDot_of_head? (by simp)] at splits
      rw [splits.of_nil, List.append_nil]
      exact ⟨[.segment segment], .segment unbroken, rfl⟩
    | cons c behind =>
      rw [rest] at splits
      refine ⟨.segment segment :: parts, ?_, rfl⟩
      rcases eq_of_endsSegment (endsSegment_of_dropWhile rest) with rfl | rfl
      · exact .segmentDot unbroken splits
      · exact .segmentBracket unbroken splits

theorem readSteps_eq_ok_iff :
    readSteps path t = .ok steps ↔ ∃ parts, Splits t parts ∧ parts.map Part.step = steps := by
  constructor
  · exact exists_splits
  · rintro ⟨parts, splits, rfl⟩
    exact readSteps_of_splits splits

theorem parse_eq_ok_iff : parse path = .ok steps ↔ path ≠ [] ∧ path.head? ≠ some 46 ∧
    path.getLast? ≠ some 46 ∧ ∃ parts, Splits path parts ∧ parts.map Part.step = steps := by
  rw [← @readSteps_eq_ok_iff path path, parse]
  by_cases empty : path = []
  · simp [empty]
  · rw [if_neg (by simpa using empty)]
    by_cases leading : path.head? = some 46
    · simp [leading]
    · rw [if_neg leading]
      by_cases trailing : path.getLast? = some 46
      · simp [trailing]
      · simp [empty, leading, trailing]

theorem exists_parse_iff : (∃ steps, parse path = .ok steps) ↔ WellFormed path := by
  constructor
  · rintro ⟨steps, parsed⟩
    obtain ⟨ne_nil, leading, trailing, parts, splits, _⟩ := parse_eq_ok_iff.mp parsed
    exact ⟨ne_nil, leading, trailing, parts, splits⟩
  · rintro ⟨ne_nil, leading, trailing, parts, splits⟩
    exact ⟨_, parse_eq_ok_iff.mpr ⟨ne_nil, leading, trailing, parts, splits, rfl⟩⟩

theorem parse_ne_nil (parsed : parse path = .ok steps) : steps ≠ [] := by
  obtain ⟨ne_nil, _, _, parts, splits, rfl⟩ := parse_eq_ok_iff.mp parsed
  exact mt List.map_eq_nil_iff.mp (splits.ne_nil ne_nil)

/-- Everything that is read off a path is canonical. -/
theorem parse_canonical (parsed : parse path = .ok steps) : ∀ step ∈ steps, step.Canonical := by
  obtain ⟨_, _, _, parts, splits, rfl⟩ := parse_eq_ok_iff.mp parsed
  intro step member
  obtain ⟨part, inside, rfl⟩ := List.mem_map.mp member
  exact splits.canonical part inside

end Reading

section Joining

variable {step : Step} {steps : List Step}

theorem Step.Canonical.segment (canonical : step.Canonical) : IsSegment step.text :=
  isSegment_of_unbroken canonical.ne_nil canonical.unbroken

/-- The texts of canonical steps with dots between them are segments, each of which is read back. -/
theorem splits_joined (canonical : ∀ step ∈ steps, step.Canonical) :
    Splits ([46].intercalate (steps.map Step.text)) (steps.map fun step => .segment step.text) := by
  induction steps with
  | nil => exact .nil
  | cons first others ih =>
    obtain ⟨here, later⟩ := List.forall_mem_cons.mp canonical
    cases others with
    | nil =>
      rw [List.map_singleton, List.intercalate_singleton]
      exact .segment here.segment
    | cons second others =>
      rw [List.map_cons, List.map_cons, List.intercalate_cons_cons, List.append_assoc]
      exact .segmentDot here.segment (ih later)

theorem getLast?_joined (canonical : ∀ step ∈ steps, step.Canonical) :
    ([46].intercalate (steps.map Step.text)).getLast? ≠ some 46 := by
  induction steps with
  | nil => exact nofun
  | cons first others ih =>
    obtain ⟨here, later⟩ := List.forall_mem_cons.mp canonical
    cases others with
    | nil =>
      rw [List.map_singleton, List.intercalate_singleton]
      intro last
      exact here.segment.dotless (List.mem_of_getLast? last)
    | cons second others =>
      have more : [46].intercalate ((second :: others).map Step.text) ≠ [] := by
        intro empty
        have splits := splits_joined later
        rw [empty] at splits
        exact List.cons_ne_nil _ _ splits.of_nil
      have last := ih later
      rw [List.map_cons] at more last ⊢
      rwa [List.map_cons, List.intercalate_cons_cons, List.getLast?_append_of_ne_nil _ more]

/-- Canonical steps with dots between them are read back. -/
theorem parse_joined (some : steps ≠ []) (canonical : ∀ step ∈ steps, step.Canonical) :
    parse ([46].intercalate (steps.map Step.text)) = .ok steps := by
  have splits := splits_joined canonical
  have same : (steps.map fun step => Part.segment step.text).map Part.step = steps := by
    rw [List.map_map]
    have back : ∀ step ∈ steps, (Part.step ∘ fun step => .segment step.text) step = id step :=
      fun step member => (canonical step member).reads_back
    rw [List.map_congr_left back, List.map_id]
  refine parse_eq_ok_iff.mpr ⟨?_, splits.head?_ne, getLast?_joined canonical, _, splits, same⟩
  intro empty
  rw [empty] at splits
  exact some (List.map_eq_nil_iff.mp splits.of_nil)

/-- The text of a canonical step is a path of that step alone. -/
theorem parse_text (canonical : step.Canonical) : parse step.text = .ok [step] := by
  have joined := parse_joined (List.cons_ne_nil step []) (List.forall_mem_singleton.mpr canonical)
  rwa [List.map_singleton, List.intercalate_singleton] at joined

end Joining

/-- A path is read exactly when it is well formed, and every other text is refused as a malformed
argument. What is taken for an index fits a signed word of 32 bits. There is at least one step and
one for each part, the one that the part names; and the steps, keys and decimal indices with dots
between them, are read back. -/
theorem parse_exactly (path : Text) :
    ((∃ steps, parse path = .ok steps) ↔ WellFormed path) ∧
      (¬ WellFormed path → ∃ fault, parse path = .error fault ∧ fault.category = .invalidArgument) ∧
      (∀ t, isIndexText t = true → (t.toNat : Int) ≤ Int32.maxValue.toInt) ∧
      ∀ steps, parse path = .ok steps → steps ≠ [] ∧
        (∀ parts, Splits path parts → List.Forall₂ Part.Names parts steps) ∧
          parse ([46].intercalate (steps.map Step.text)) = .ok steps := by
  refine ⟨exists_parse_iff, ?_, ?_, ?_⟩
  · intro malformed
    cases parsed : parse path with
    | ok steps => exact absurd (exists_parse_iff.mp ⟨steps, parsed⟩) malformed
    | error fault => exact ⟨fault, rfl, parse_error parsed⟩
  · intro t index
    have small := toNat_lt_of_isIndexText index
    have word : Int32.maxValue.toInt = 2147483647 := by decide
    have billion : Nat.pow 10 9 = 1000000000 := by decide
    omega
  · intro steps parsed
    refine ⟨parse_ne_nil parsed, ?_, parse_joined (parse_ne_nil parsed) (parse_canonical parsed)⟩
    intro parts splits
    obtain ⟨_, _, _, others, again, rfl⟩ := parse_eq_ok_iff.mp parsed
    exact forall₂_names_iff.mpr (splits.steps_unique again)

/-- An index behind zeros, a stray bracket, and a run of digits that is too long for an index. -/
def mixedParts : List Part :=
  [.segment (Text.ofString "a"), .bracket (Text.ofString "007"), .segment (Text.ofString "b]c"),
    .segment (Text.ofString "10"), .segment (Text.ofString "0123456789")]

theorem splits_mixed : Splits (Text.ofString "a.[007]b]c.10.0123456789") mixedParts := by
  have segment (t : Text) (plain : t ≠ [] ∧ 46 ∉ t ∧ 91 ∉ t) : IsSegment t :=
    ⟨plain.1, plain.2.1, plain.2.2⟩
  have numeral : IsNumeral (Text.ofString "007") := isIndexText_iff.mp (by decide)
  apply Splits.segmentDot (segment (Text.ofString "a") (by decide))
  apply Splits.bracket numeral
  apply Splits.segmentDot (segment (Text.ofString "b]c") (by decide))
  apply Splits.segmentDot (segment (Text.ofString "10") (by decide))
  exact .segment (segment (Text.ofString "0123456789") (by decide))

theorem parse_exactly_mixed :
    parse (Text.ofString "a.[007]b]c.10.0123456789") = .ok [.key (Text.ofString "a"), .index 7,
        .key (Text.ofString "b]c"), .index 10, .key (Text.ofString "0123456789")] ∧
      parse (Text.ofString "a.7.b]c.10.0123456789") = .ok [.key (Text.ofString "a"), .index 7,
        .key (Text.ofString "b]c"), .index 10, .key (Text.ofString "0123456789")] := by
  have steps : mixedParts.map Part.step = [.key (Text.ofString "a"), .index 7,
      .key (Text.ofString "b]c"), .index 10, .key (Text.ofString "0123456789")] := by decide
  have parsed : parse (Text.ofString "a.[007]b]c.10.0123456789") = .ok [.key (Text.ofString "a"),
      .index 7, .key (Text.ofString "b]c"), .index 10, .key (Text.ofString "0123456789")] :=
    parse_eq_ok_iff.mpr ⟨by decide, by decide, by decide, mixedParts, splits_mixed, steps⟩
  have joined : [46].intercalate ([.key (Text.ofString "a"), .index 7, .key (Text.ofString "b]c"),
      .index 10, .key (Text.ofString "0123456789")].map Step.text) =
        Text.ofString "a.7.b]c.10.0123456789" := by cbv
  have exactly := (parse_exactly (Text.ofString "a.[007]b]c.10.0123456789")).2.2.2 _ parsed
  exact ⟨parsed, joined ▸ exactly.2.2⟩

end Path
end Schemata
