import Schemata.Proofs.Json.Reading

/-! Every text of a syntax tree is read as the value of the tree. The induction is over the tree; the
tokens behind it are left to the reader of what encloses it, and all of these begin with a separator or a
closing bracket, so that a number ends where its token does. -/
namespace Schemata.Json

variable {tree : Tree} {token : Text} {tokens : List Text} {t : Text} {b : UInt8}

/-- A token that begins with a solid byte is found behind the blanks in front of it. -/
theorem Spaced.skip (spaced : Spaced Text.isSpace ((b :: token) :: tokens) t)
    (solid : Text.isSpace b = false) :
    ∃ rest, skipSpace t = b :: (token ++ rest) ∧ Spaced Text.isSpace tokens rest := by
  cases spaced with
  | @token _ _ rest _ blanks behind =>
    refine ⟨rest, ?_, behind⟩
    rw [skipSpace_blank (List.all_eq_true.mp blanks), List.cons_append, skipSpace_cons solid]

/-- The tokens begin with a comma or a closing bracket, or there are none. -/
def Closing (tokens : List Text) : Prop :=
  ∀ token ∈ tokens.head?, token ∈ ([[44], [93], [125]] : List Text)

theorem closing_nil : Closing [] := fun _ none => by cases none

theorem closing_cons (closes : token ∈ ([[44], [93], [125]] : List Text)) :
    Closing (token :: tokens) := by
  rintro _ ⟨⟩
  exact closes

theorem Closing.ends (closing : Closing tokens) (spaced : Spaced Text.isSpace tokens t) : Ends t := by
  have blank {blanks behind : Text} (all : blanks.all Text.isSpace = true) (ends : Ends behind) :
      Ends (blanks ++ behind) := by
    cases blanks with
    | nil => exact ends
    | cons b blanks => exact ends_space (List.all_eq_true.mp all b List.mem_cons_self)
  cases spaced with
  | done all =>
    rw [← List.append_nil t]
    exact blank all ends_nil
  | @token _ token rest _ all _ =>
    refine blank all ?_
    have closes := closing token rfl
    simp only [List.mem_cons, List.not_mem_nil, or_false] at closes
    rcases closes with rfl | rfl | rfl <;>
      exact ends_cons (by decide) (by decide) (by decide) (by decide)

/-- In front of closing tokens the tree is read as its value. -/
def Tree.Readable (tree : Tree) : Prop := ∀ {tokens t}, Closing tokens →
  Spaced Text.isSpace (tree.tokens ++ tokens) t →
    ∃ rest, Reads t tree.value rest ∧ Spaced Text.isSpace tokens rest

/-- One token that is read as a value wherever it ends. -/
theorem read_token (single : tree.tokens = [token])
    (read : ∀ rest, Ends rest → Reads (token ++ rest) tree.value rest) : tree.Readable := by
  intro tokens t closing spaced
  rw [single] at spaced
  cases spaced with
  | @token _ _ rest _ blanks behind =>
    exact ⟨rest, (read rest (closing.ends behind)).behind_blank (List.all_eq_true.mp blanks), behind⟩

theorem read_elements {items : List Tree} {item : Tree}
    (each : ∀ tree ∈ item :: items, tree.Readable)
    (spaced : Spaced Text.isSpace
      ([[44]].intercalate ((item :: items).map Tree.tokens) ++ [93] :: tokens) t) :
    ∃ rest, ReadsElements t ((item :: items).map Tree.value) rest ∧
      Spaced Text.isSpace tokens rest := by
  obtain ⟨first, others⟩ := List.forall_mem_cons.mp each
  induction items generalizing item t with
  | nil =>
    rw [List.map_singleton, List.intercalate_singleton] at spaced
    obtain ⟨after, read, spaced⟩ := first (closing_cons (by decide)) spaced
    obtain ⟨rest, closed, spaced⟩ := spaced.skip (by decide)
    exact ⟨rest, readsElements_last read closed, spaced⟩
  | cons next items ih =>
    rw [List.map_cons, List.map_cons, List.intercalate_cons_cons, List.append_assoc,
      List.append_assoc] at spaced
    obtain ⟨after, read, spaced⟩ := first (closing_cons (by decide)) spaced
    obtain ⟨behind, comma, spaced⟩ := spaced.skip (by decide)
    obtain ⟨nextRead, othersRead⟩ := List.forall_mem_cons.mp others
    obtain ⟨rest, more, spaced⟩ := ih others spaced nextRead othersRead
    exact ⟨rest, readsElements_more read comma more, spaced⟩

theorem read_member {member : List Piece × Tree}
    (name : ∀ piece ∈ member.1, piece.Legal .lenient) (inner : member.2.Readable)
    (closing : Closing tokens)
    (spaced : Spaced Text.isSpace (Tree.memberTokens member ++ tokens) t) :
    ∃ rest, ReadsMember t (meant member.1) member.2.value rest ∧ Spaced Text.isSpace tokens rest := by
  obtain ⟨afterName, quote, spaced⟩ := spaced.skip (by decide)
  obtain ⟨afterColon, colon, spaced⟩ := spaced.skip (by decide)
  obtain ⟨rest, read, spaced⟩ := inner closing spaced
  rw [List.append_assoc, List.singleton_append] at quote
  exact ⟨rest, ⟨_, _, _, quote, stringBody_pieces name, colon, read⟩, spaced⟩

theorem read_members {members : List (List Piece × Tree)} {member : List Piece × Tree}
    {fields : Fields Value}
    (names : ∀ member' ∈ member :: members, ∀ piece ∈ member'.1, piece.Legal .lenient)
    (each : ∀ member' ∈ member :: members, member'.2.Readable)
    (spaced : Spaced Text.isSpace
      ([[44]].intercalate ((member :: members).map Tree.memberTokens) ++ [125] :: tokens) t) :
    ∃ rest, ReadsMembers fields t (((member :: members).map Tree.entry).foldl
        (fun fields e => Fields.insert e.1 e.2 fields) fields) rest ∧
      Spaced Text.isSpace tokens rest := by
  obtain ⟨name, otherNames⟩ := List.forall_mem_cons.mp names
  obtain ⟨first, others⟩ := List.forall_mem_cons.mp each
  induction members generalizing member t fields with
  | nil =>
    rw [List.map_singleton, List.intercalate_singleton] at spaced
    obtain ⟨after, read, spaced⟩ := read_member name first (closing_cons (by decide)) spaced
    obtain ⟨rest, closed, spaced⟩ := spaced.skip (by decide)
    exact ⟨rest, readsMembers_last read closed, spaced⟩
  | cons next members ih =>
    rw [List.map_cons, List.map_cons, List.intercalate_cons_cons, List.append_assoc,
      List.append_assoc] at spaced
    obtain ⟨after, read, spaced⟩ := read_member name first (closing_cons (by decide)) spaced
    obtain ⟨behind, comma, spaced⟩ := spaced.skip (by decide)
    obtain ⟨nextName, laterNames⟩ := List.forall_mem_cons.mp otherNames
    obtain ⟨nextRead, laterRead⟩ := List.forall_mem_cons.mp others
    obtain ⟨rest, more, spaced⟩ := ih otherNames others spaced nextName laterNames nextRead laterRead
    exact ⟨rest, readsMembers_more read comma more, spaced⟩

theorem Tree.Legal.readable (legal : tree.Legal .lenient) : tree.Readable := by
  induction legal with
  | null =>
    refine read_token (by rw [Tree.tokens]) fun rest _ => ?_
    rw [Tree.value]
    exact reads_null rest
  | bool b =>
    refine read_token (by rw [Tree.tokens]) fun rest _ => ?_
    rw [Tree.value]
    exact reads_bool b rest
  | number legal =>
    refine read_token (by rw [Tree.tokens]) fun rest ends => ?_
    rw [Tree.value]
    exact reads_signed (readsNumber_numeral legal) ends
  | @string pieces legal =>
    refine read_token (by rw [Tree.tokens]) fun rest _ => ?_
    rw [Tree.value, quoted, List.cons_append, List.append_assoc, List.singleton_append]
    exact reads_string (skipSpace_cons (by decide)) (stringBody_pieces legal)
  | @array items _ each =>
    intro tokens t _ spaced
    rw [Tree.tokens_array, List.cons_append, List.append_assoc, List.singleton_append] at spaced
    obtain ⟨inside, bracket, spaced⟩ := spaced.skip (by decide)
    rw [Tree.value]
    cases items with
    | nil =>
      obtain ⟨rest, closed, spaced⟩ := spaced.skip (by decide)
      exact ⟨rest, reads_emptyArray bracket closed, spaced⟩
    | cons item items =>
      obtain ⟨rest, elements, spaced⟩ := read_elements each spaced
      exact ⟨rest, reads_array bracket elements, spaced⟩
  | @object members names _ each =>
    intro tokens t _ spaced
    rw [Tree.tokens_object, List.cons_append, List.append_assoc, List.singleton_append] at spaced
    obtain ⟨inside, brace, spaced⟩ := spaced.skip (by decide)
    rw [Tree.value_object]
    cases members with
    | nil =>
      obtain ⟨rest, closed, spaced⟩ := spaced.skip (by decide)
      exact ⟨rest, reads_emptyObject brace closed, spaced⟩
    | cons member members =>
      obtain ⟨rest, fields, spaced⟩ := read_members names each spaced
      exact ⟨rest, reads_object brace fields, spaced⟩

/-- A text that renders a tree is read as the value of the tree. -/
theorem read_eq_value (renders : Renders .lenient tree t) : read t = .ok tree.value := by
  obtain ⟨legal, spaced⟩ := renders
  rw [← List.append_nil tree.tokens] at spaced
  obtain ⟨rest, reads, behind⟩ := legal.readable closing_nil spaced
  refine read_eq_ok_iff.mpr ⟨rest, reads, ?_⟩
  cases behind with
  | done blanks => exact List.dropWhile_eq_nil_iff.mpr (List.all_eq_true.mp blanks)

/-- Every text of the standard grammar is read as what its tree means. -/
theorem read_of_renders (renders : Renders .standard tree t) : read t = .ok tree.value :=
  read_eq_value (renders.mono standard_within_lenient)

/-- A name that is spelled in two ways, with the later value, and blanks between the tokens. -/
theorem read_member_twice :
    let t := Text.ofString "\x7b\"a\":1, \"\\u0061\" : \"\\u00e9\"\x7d "
    let tree : Tree := .object [([⟨[97], [97]⟩], .number ⟨false, [49], none, none⟩),
      ([⟨Text.ofString "\\u0061", [97]⟩], .string [⟨Text.ofString "\\u00e9", [0xC3, 0xA9]⟩])]
    Renders .standard tree t ∧ read t = .ok (.object [([97], .string [0xC3, 0xA9])]) := by
  intro t tree
  have hex {four bytes : Text} (n : Nat) (long : four.length = 4) (number : hexDigits? four = some n)
      (same : bytes = unitBytes n) : Piece.Legal .standard ⟨92 :: 117 :: four, bytes⟩ :=
    .unit long ⟨n, hexDigits?_eq_some_iff.mp number, same⟩
  have plain : Piece.Legal .standard ⟨[97], [97]⟩ := .plain (by decide) (by decide) (by decide)
  have escaped : Piece.Legal .standard ⟨Text.ofString "\\u0061", [97]⟩ :=
    @hex [48, 48, 54, 49] _ 0x61 (by decide) (by decide) (by decide)
  have accent : Piece.Legal .standard ⟨Text.ofString "\\u00e9", [0xC3, 0xA9]⟩ :=
    @hex [48, 48, 101, 57] _ 0xE9 (by decide) (by decide) (by decide)
  have one : Numeral.Legal .standard ⟨false, [49], none, none⟩ :=
    ⟨⟨nofun, by decide⟩, by decide, nofun, nofun⟩
  have legal : tree.Legal .standard := by
    refine .object ?_ ?_
    · simp [plain, escaped]
    · simp only [List.forall_mem_cons]
      exact ⟨.number one, .string (by simp [accent]), nofun⟩
  have tokens : tree.tokens = ["\x7b", "\"a\"", ":", "1", ",", "\"\\u0061\"", ":", "\"\\u00e9\"",
      "\x7d"].map Text.ofString := by
    rw [Tree.tokens_object]
    simp only [List.map_cons, Tree.memberTokens, Tree.tokens]
    decide
  have spaced : Spaced Dialect.standard.blank tree.tokens t := by
    rw [tokens]
    have behind (blanks : Text) {token rest : Text} {tokens : List Text}
        (blank : blanks.all Dialect.standard.blank = true)
        (later : Spaced Dialect.standard.blank tokens rest) :
        Spaced Dialect.standard.blank (token :: tokens) (blanks ++ (token ++ rest)) :=
      .token blank later
    exact behind [] rfl <| behind [] rfl <| behind [] rfl <| behind [] rfl <| behind [] rfl <|
      behind [32] rfl <| behind [32] rfl <| behind [32] rfl <| behind [] rfl <| @Spaced.done _ [32] rfl
  have renders : Renders .standard tree t := ⟨legal, spaced⟩
  refine ⟨renders, (read_of_renders renders).trans ?_⟩
  rw [Tree.value_object]
  simp only [List.map_cons, Tree.entry, Tree.value]
  rfl

end Schemata.Json
