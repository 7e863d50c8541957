import Schemata.Proofs.Json.Completeness
import Schemata.Proofs.Lists

/-! Nothing is read but the texts of syntax trees. What the reader finds at the beginning of a text is
taken apart the way the reader went, and a tree is put together from the trees of the parts; since every
part stands in a shorter text, the induction is on the length. A text is thus accepted exactly if it
renders a tree of the lenient dialect, and each other text is refused with a runtime error. The lenient
dialect goes beyond the relaxed one in the four bytes behind `\u` alone. -/
namespace Schemata.Json

variable {t r rest token key after : Text} {b : UInt8} {v : Value} {tokens others : List Text}
  {fields all : Fields Value} {items : List Value}

/-- The ways to read a value. -/
inductive Reading (t : Text) : Value → Text → Prop where
  | emptyObject {r rest : Text} : skipSpace t = 123 :: r → skipSpace r = 125 :: rest →
      Reading t (.object []) rest
  | object {r rest : Text} {fields : Fields Value} : skipSpace t = 123 :: r →
      ReadsMembers [] r fields rest → Reading t (.object fields) rest
  | emptyArray {r rest : Text} : skipSpace t = 91 :: r → skipSpace r = 93 :: rest →
      Reading t (.array []) rest
  | array {r rest : Text} {items : List Value} : skipSpace t = 91 :: r →
      ReadsElements r items rest → Reading t (.array items) rest
  | string {r s rest : Text} : skipSpace t = 34 :: r → stringBody r = .ok (s, rest) →
      Reading t (.string s) rest
  | number {v : Value} {rest : Text} : number (skipSpace t) = .ok (v, rest) → Reading t v rest
  | literal {v : Value} {rest : Text} : literal? (skipSpace t) = some (v, rest) → Reading t v rest

theorem Reads.reading (read : Reads t v rest) : Reading t v rest := by
  obtain ⟨b, r, start⟩ := read.starts
  rw [Reads, seen_value start] at read
  split_ifs at read with brace bracket quote numeral
  · subst b
    split at read
    · rename_i closed
      cases read
      exact .emptyObject start closed
    · obtain ⟨⟨fields, rest⟩, inside, same⟩ := ok_of_map_ok read
      cases same
      exact .object start inside
  · subst b
    split at read
    · rename_i closed
      cases read
      exact .emptyArray start closed
    · obtain ⟨⟨items, rest⟩, inside, same⟩ := ok_of_map_ok read
      cases same
      exact .array start inside
  · subst b
    obtain ⟨⟨s, rest⟩, inside, same⟩ := ok_of_map_ok read
    cases same
    exact .string start inside
  · exact .number (start ▸ read)
  · split at read
    · rename_i found
      cases read
      exact .literal (start ▸ found)
    · cases read

theorem length_lt_of_skip (found : skipSpace t = b :: r) : r.length < t.length := by
  have shortened := length_skipSpace_le t
  rw [found, List.length_cons] at shortened
  omega

theorem Reads.shorter (read : Reads t v rest) : rest.length < t.length := by
  obtain ⟨inner, _, same⟩ := ok_of_map_ok read
  cases same
  exact inner.shorter

/-- After an element comes the closing bracket, or a comma and further elements. -/
theorem ReadsElements.split (read : ReadsElements t items rest) : ∃ v after, Reads t v after ∧
    (skipSpace after = 93 :: rest ∧ items = [v] ∨
      ∃ next others, skipSpace after = 44 :: next ∧ ReadsElements next others rest ∧
        items = v :: others) := by
  rw [ReadsElements, seen_elements] at read
  split at read
  · cases read
  rename_i v after first
  refine ⟨v, after, first, ?_⟩
  split at read
  · rename_i next comma
    obtain ⟨⟨others, rest⟩, more, same⟩ := ok_of_map_ok read
    cases same
    exact .inr ⟨next, others, comma, more, rfl⟩
  · rename_i closed
    cases read
    exact .inl ⟨closed, rfl⟩
  · cases read

/-- After a member comes the closing brace, or a comma and further members. -/
theorem ReadsMembers.split (read : ReadsMembers fields t all rest) :
    ∃ key v after, ReadsMember t key v after ∧
      (skipSpace after = 125 :: rest ∧ all = Fields.insert key v fields ∨
        ∃ next, skipSpace after = 44 :: next ∧
          ReadsMembers (Fields.insert key v fields) next all rest) := by
  obtain ⟨r, key, afterKey, afterColon, start, name, colon⟩ := read.opens
  rw [ReadsMembers, seen_members start name colon] at read
  split at read
  · cases read
  rename_i v after value
  refine ⟨key, v, after, ⟨r, afterKey, afterColon, start, name, colon, value⟩, ?_⟩
  split at read
  · rename_i next comma
    exact .inr ⟨next, comma, read⟩
  · rename_i closed
    cases read
    exact .inl ⟨closed, rfl⟩
  · cases read

/-- The tokens and the blanks in front of them are the beginning of the text, up to `rest`. -/
def Writes (tokens : List Text) (t rest : Text) : Prop :=
  ∀ behind, Spaced Text.isSpace behind rest → Spaced Text.isSpace (tokens ++ behind) t

theorem Writes.append (first : Writes tokens t r) (second : Writes others r rest) :
    Writes (tokens ++ others) t rest := by
  intro behind spaced
  rw [List.append_assoc]
  exact first _ (second _ spaced)

/-- A token that is found behind blanks. -/
theorem writes_token (found : skipSpace t = token ++ rest) : Writes [token] t rest := by
  intro behind spaced
  obtain ⟨_, blanks, parts⟩ := exists_blanks t
  rw [parts, found]
  exact .token blanks spaced

theorem writes_mark (found : skipSpace t = b :: rest) : Writes [[b]] t rest :=
  writes_token found

theorem writes_quoted {pieces : List Piece} (start : skipSpace t = 34 :: r)
    (spelled : r = pieces.flatMap Piece.written ++ 34 :: rest) : Writes [quoted pieces] t rest := by
  refine writes_token ?_
  rw [start, spelled, quoted, List.cons_append, List.append_assoc, List.singleton_append]

/-- A tree with a value is written in front of `rest`. -/
def Derives (t : Text) (v : Value) (rest : Text) : Prop :=
  ∃ tree : Tree, tree.Legal .lenient ∧ tree.value = v ∧ Writes tree.tokens t rest

/-- One element or more and the closing bracket. -/
def DerivesElements (t : Text) (items : List Value) (rest : Text) : Prop :=
  ∃ (tree : Tree) (trees : List Tree), (∀ item ∈ tree :: trees, item.Legal .lenient) ∧
    (tree :: trees).map Tree.value = items ∧
    Writes ([[44]].intercalate ((tree :: trees).map Tree.tokens) ++ [[93]]) t rest

def DerivesMember (t key : Text) (v : Value) (rest : Text) : Prop :=
  ∃ member : List Piece × Tree, (∀ piece ∈ member.1, piece.Legal .lenient) ∧
    member.2.Legal .lenient ∧ Tree.entry member = (key, v) ∧ Writes (Tree.memberTokens member) t rest

/-- One member or more and the closing brace. -/
def DerivesMembers (fields : Fields Value) (t : Text) (all : Fields Value) (rest : Text) : Prop :=
  ∃ (member : List Piece × Tree) (members : List (List Piece × Tree)),
    (∀ member' ∈ member :: members, ∀ piece ∈ member'.1, piece.Legal .lenient) ∧
    (∀ member' ∈ member :: members, member'.2.Legal .lenient) ∧
    ((member :: members).map Tree.entry).foldl
      (fun fields e => Fields.insert e.1 e.2 fields) fields = all ∧
    Writes ([[44]].intercalate ((member :: members).map Tree.memberTokens) ++ [[125]]) t rest

theorem derives_literal (read : literal? (skipSpace t) = some (v, rest)) : Derives t v rest := by
  have word {tree : Tree} {token : Text} (legal : tree.Legal .lenient)
      (single : tree.tokens = [token]) (value : tree.value = v)
      (found : Text.dropWord? token (skipSpace t) = some rest) : Derives t v rest :=
    ⟨tree, legal, value, single ▸ writes_token (Text.dropWord?_eq_some_iff.mp found)⟩
  unfold literal? at read
  split at read
  · rename_i found
    cases read
    exact word .null (by rw [Tree.tokens]) (by rw [Tree.value]) found
  split at read
  · rename_i found
    cases read
    exact word (.bool true) (by rw [Tree.tokens]; rfl) (by rw [Tree.value]) found
  · obtain ⟨_, found, same⟩ := Option.map_eq_some_iff.mp read
    cases same
    exact word (.bool false) (by rw [Tree.tokens]; rfl) (by rw [Tree.value]) found

theorem derives_number (read : number (skipSpace t) = .ok (v, rest)) : Derives t v rest := by
  obtain ⟨n, legal, value, spelled⟩ := spelling_of_number read
  refine ⟨.number n, .number legal, by rw [Tree.value, value], ?_⟩
  rw [Tree.tokens]
  exact writes_token spelled

theorem derives_string {s : Text} (start : skipSpace t = 34 :: r)
    (read : stringBody r = .ok (s, rest)) : Derives t (.string s) rest := by
  obtain ⟨pieces, legal, spelled, rfl⟩ := isString_of_stringBody read
  refine ⟨.string pieces, .string legal, by rw [Tree.value], ?_⟩
  rw [Tree.tokens]
  exact writes_quoted start spelled

theorem derives_emptyArray (start : skipSpace t = 91 :: r) (closed : skipSpace r = 93 :: rest) :
    Derives t (.array []) rest := by
  refine ⟨.array [], .array nofun, by rw [Tree.value]; rfl, ?_⟩
  rw [Tree.tokens_array]
  exact (writes_mark start).append (writes_mark closed)

theorem derives_array (start : skipSpace t = 91 :: r) (inside : DerivesElements r items rest) :
    Derives t (.array items) rest := by
  obtain ⟨tree, trees, legal, values, written⟩ := inside
  refine ⟨.array (tree :: trees), .array legal, by rw [Tree.value, values], ?_⟩
  rw [Tree.tokens_array]
  exact (writes_mark start).append written

theorem derives_emptyObject (start : skipSpace t = 123 :: r) (closed : skipSpace r = 125 :: rest) :
    Derives t (.object []) rest := by
  refine ⟨.object [], .object nofun nofun, by rw [Tree.value]; rfl, ?_⟩
  rw [Tree.tokens_object]
  exact (writes_mark start).append (writes_mark closed)

theorem derives_object (start : skipSpace t = 123 :: r)
    (inside : DerivesMembers [] r fields rest) : Derives t (.object fields) rest := by
  obtain ⟨member, members, names, legal, entries, written⟩ := inside
  refine ⟨.object (member :: members), .object names legal, ?_, ?_⟩
  · rw [Tree.value_object, ← entries]
    rfl
  · rw [Tree.tokens_object]
    exact (writes_mark start).append written

theorem derivesElements_last (element : Derives t v after) (closed : skipSpace after = 93 :: rest) :
    DerivesElements t [v] rest := by
  obtain ⟨tree, legal, rfl, written⟩ := element
  refine ⟨tree, [], List.forall_mem_singleton.mpr legal, rfl, ?_⟩
  rw [List.map_singleton, List.intercalate_singleton]
  exact written.append (writes_mark closed)

theorem derivesElements_more {next : Text} (element : Derives t v after)
    (comma : skipSpace after = 44 :: next) (more : DerivesElements next items rest) :
    DerivesElements t (v :: items) rest := by
  obtain ⟨tree, legal, rfl, written⟩ := element
  obtain ⟨tree', trees, others, rfl, behind⟩ := more
  refine ⟨tree, tree' :: trees, List.forall_mem_cons.mpr ⟨legal, others⟩, rfl, ?_⟩
  rw [List.map_cons, List.map_cons, List.intercalate_cons_cons, List.append_assoc, List.append_assoc]
  exact written.append ((writes_mark comma).append behind)

theorem derivesMember {afterKey afterColon : Text} (start : skipSpace t = 34 :: r)
    (name : stringBody r = .ok (key, afterKey)) (colon : skipSpace afterKey = 58 :: afterColon)
    (inner : Derives afterColon v after) : DerivesMember t key v after := by
  obtain ⟨pieces, legal, spelled, rfl⟩ := isString_of_stringBody name
  obtain ⟨tree, inside, rfl, written⟩ := inner
  refine ⟨(pieces, tree), legal, inside, rfl, ?_⟩
  exact (writes_quoted start spelled).append ((writes_mark colon).append written)

theorem derivesMembers_last (member : DerivesMember t key v after)
    (closed : skipSpace after = 125 :: rest) :
    DerivesMembers fields t (Fields.insert key v fields) rest := by
  obtain ⟨member, name, legal, entry, written⟩ := member
  refine ⟨member, [], List.forall_mem_singleton.mpr name, List.forall_mem_singleton.mpr legal, ?_, ?_⟩
  · rw [List.map_singleton, entry]
    rfl
  · rw [List.map_singleton, List.intercalate_singleton]
    exact written.append (writes_mark closed)

theorem derivesMembers_more {next : Text} (member : DerivesMember t key v after)
    (comma : skipSpace after = 44 :: next)
    (more : DerivesMembers (Fields.insert key v fields) next all rest) :
    DerivesMembers fields t all rest := by
  obtain ⟨member, name, legal, entry, written⟩ := member
  obtain ⟨member', members, names, others, rfl, behind⟩ := more
  refine ⟨member, member' :: members, List.forall_mem_cons.mpr ⟨name, names⟩,
    List.forall_mem_cons.mpr ⟨legal, others⟩, ?_, ?_⟩
  · rw [List.map_cons, entry]
    rfl
  · rw [List.map_cons, List.map_cons, List.intercalate_cons_cons, List.append_assoc,
      List.append_assoc]
    exact written.append ((writes_mark comma).append behind)

-- Each part is read from a text that is shorter, except the first element of an array, which is read
-- where the elements begin; so an array's elements weigh more than a value at the same place.
mutual

theorem Reads.derives {t v rest} (read : Reads t v rest) : Derives t v rest := by
  cases read.reading with
  | @emptyObject r _ start closed => exact derives_emptyObject start closed
  | @object r _ _ start inside =>
    have shorter := length_lt_of_skip start
    exact derives_object start inside.derives
  | emptyArray start closed => exact derives_emptyArray start closed
  | @array r _ _ start inside =>
    have shorter := length_lt_of_skip start
    exact derives_array start inside.derives
  | string start read => exact derives_string start read
  | number read => exact derives_number read
  | literal read => exact derives_literal read
termination_by (t.length, 0)

theorem ReadsElements.derives {t items rest} (read : ReadsElements t items rest) :
    DerivesElements t items rest := by
  obtain ⟨v, after, first, closed | more⟩ := read.split
  · obtain ⟨closed, rfl⟩ := closed
    exact derivesElements_last first.derives closed
  · obtain ⟨next, others, comma, more, rfl⟩ := more
    have shorter : next.length < t.length := by
      have := first.shorter
      have := length_lt_of_skip comma
      omega
    exact derivesElements_more first.derives comma more.derives
termination_by (t.length, 1)

theorem ReadsMembers.derives {fields t all rest} (read : ReadsMembers fields t all rest) :
    DerivesMembers fields t all rest := by
  obtain ⟨key, v, after, ⟨r, afterKey, afterColon, start, name, colon, inner⟩, behind⟩ := read.split
  have shorter : afterColon.length < t.length := by
    have := length_lt_of_skip start
    have := length_stringBody name
    have := length_lt_of_skip colon
    omega
  have member : DerivesMember t key v after := derivesMember start name colon inner.derives
  rcases behind with ⟨closed, rfl⟩ | ⟨next, comma, more⟩
  · exact derivesMembers_last member closed
  · have shorter : next.length < t.length := by
      have := inner.shorter
      have := length_lt_of_skip comma
      omega
    exact derivesMembers_more member comma more.derives
termination_by (t.length, 1)

end

theorem renders_of_read (accepted : read t = .ok v) :
    ∃ tree, Renders .lenient tree t ∧ tree.value = v := by
  obtain ⟨rest, reads, behind⟩ := read_eq_ok_iff.mp accepted
  obtain ⟨tree, legal, value, written⟩ := reads.derives
  have blank : rest.all Text.isSpace = true :=
    List.all_eq_true.mpr (List.dropWhile_eq_nil_iff.mp behind)
  have spaced := written [] (.done blank)
  rw [List.append_nil] at spaced
  exact ⟨tree, ⟨legal, spaced⟩, value⟩

theorem read_error_category {fault : Fault} (refused : read t = .error fault) :
    fault.category = .runtimeError := by
  unfold read at refused
  split at refused
  · cases refused
    rfl
  · dsimp only at refused
    split at refused
    · cases refused
    · cases refused
      rfl

section Strict

/-- Wherever `\u` and four bytes stand in the text, these are hexadecimal digits. -/
def StrictEscapes (t : Text) : Prop :=
  ∀ four : Text, four.length = 4 → 92 :: 117 :: four <:+: t → ∃ n, HexNumber four n

theorem StrictEscapes.within {s : Text} (strict : StrictEscapes t) (inside : s <:+: t) :
    StrictEscapes s :=
  fun four long found => strict four long (found.trans inside)

theorem Spaced.contains {blank : UInt8 → Bool} (spaced : Spaced blank tokens t)
    (member : token ∈ tokens) : token <:+: t := by
  induction spaced with
  | done => cases member
  | @token blanks first rest _ _ _ ih =>
    rcases List.mem_cons.mp member with rfl | later
    · exact ⟨blanks, rest, List.append_assoc ..⟩
    · exact (ih later).trans ⟨blanks ++ first, [], by simp⟩

theorem Piece.Legal.strict {piece : Piece} (legal : piece.Legal .lenient)
    (strict : StrictEscapes piece.written) : piece.Legal .relaxed := by
  cases legal with
  | plain allowed quote escape => exact .plain allowed quote escape
  | short listed => exact .short listed
  | @unit four _ long allowed =>
    obtain ⟨u, lenient, rfl⟩ := allowed
    obtain ⟨n, number⟩ := strict four long (List.infix_refl _)
    rw [lenient.eq_ofNat number, encodeUnit_ofNat (number.lt_of_four long)]
    exact .unit long ⟨n, number, rfl⟩

theorem strict_pieces {pieces : List Piece} (legal : ∀ piece ∈ pieces, piece.Legal .lenient)
    (strict : StrictEscapes (quoted pieces)) : ∀ piece ∈ pieces, piece.Legal .relaxed := by
  intro piece member
  have inside : pieces.flatMap Piece.written <:+: quoted pieces := ⟨[34], [34], rfl⟩
  have part : piece.written <:+: pieces.flatMap Piece.written :=
    List.infix_of_mem_flatten (List.mem_map_of_mem member)
  exact (legal piece member).strict (strict.within (part.trans inside))

theorem Tree.Legal.strict {tree : Tree} (legal : tree.Legal .lenient)
    (strict : ∀ token ∈ tree.tokens, StrictEscapes token) : tree.Legal .relaxed := by
  induction legal with
  | null => exact .null
  | bool b => exact .bool b
  | number legal => exact .number ⟨legal.whole, rfl, legal.fraction, legal.exponent⟩
  | string legal =>
    rw [Tree.tokens, List.forall_mem_singleton] at strict
    exact .string (strict_pieces legal strict)
  | @array items _ ih =>
    rw [Tree.tokens_array] at strict
    refine .array fun item listed => ih item listed fun token member => strict token ?_
    have inside : token ∈ [[44]].intercalate (items.map Tree.tokens) :=
      subset_intercalate (List.mem_map_of_mem listed) member
    exact List.mem_cons_of_mem _ (List.mem_append_left _ inside)
  | @object members names _ ih =>
    rw [Tree.tokens_object] at strict
    have each {member : List Piece × Tree} (listed : member ∈ members) :
        ∀ token ∈ Tree.memberTokens member, StrictEscapes token := by
      intro token found
      have inside : token ∈ [[44]].intercalate (members.map Tree.memberTokens) :=
        subset_intercalate (List.mem_map_of_mem listed) found
      exact strict token (List.mem_cons_of_mem _ (List.mem_append_left _ inside))
    refine .object (fun member listed => ?_) (fun member listed => ?_)
    · exact strict_pieces (names member listed) (each listed _ List.mem_cons_self)
    · refine ih member listed fun token found => each listed token ?_
      exact List.mem_cons_of_mem _ (List.mem_cons_of_mem _ found)

/-- Where hexadecimal digits stand behind every `\u`, the lenient dialect allows nothing more. -/
theorem Renders.strict {tree : Tree} (renders : Renders .lenient tree t) (strict : StrictEscapes t) :
    Renders .relaxed tree t where
  legal := renders.legal.strict fun _ member => strict.within (renders.spaced.contains member)
  spaced := renders.spaced

end Strict

/-- A text is read exactly if it renders a tree of the lenient dialect, and then as the value of the
tree; any other text is refused with a runtime error. If hexadecimal digits stand behind every `\u`,
the tree is one of the relaxed dialect. -/
theorem read_exactly (t : Text) :
    (∀ v, read t = .ok v ↔ ∃ tree, Renders .lenient tree t ∧ tree.value = v) ∧
    (∀ fault, read t = .error fault → fault.category = .runtimeError) ∧
    (StrictEscapes t → ∀ v, read t = .ok v ↔ ∃ tree, Renders .relaxed tree t ∧ tree.value = v) := by
  refine ⟨fun v => ⟨renders_of_read, ?_⟩, fun fault => read_error_category, fun strict v => ⟨?_, ?_⟩⟩
  · rintro ⟨tree, renders, rfl⟩
    exact read_eq_value renders
  · intro accepted
    obtain ⟨tree, renders, value⟩ := renders_of_read accepted
    exact ⟨tree, renders.strict strict, value⟩
  · rintro ⟨tree, renders, rfl⟩
    exact read_eq_value (renders.mono relaxed_within_lenient)

/-- Zeros in front of a number, and no escape at all. -/
theorem read_exactly_zeros :
    let t := Text.ofString "[007]"
    StrictEscapes t ∧ ∃ tree, Renders .relaxed tree t ∧ tree.value = .array [.int 7] := by
  intro t
  have strict : StrictEscapes t := by
    have bare : 92 ∉ t := by decide
    exact fun _ _ inside => absurd (inside.subset List.mem_cons_self) bare
  have seven : Reads [48, 48, 55, 93] (.int 7) [93] := reads_number rfl (.inr rfl) rfl
  have accepted : read t = .ok (.array [.int 7]) :=
    read_eq_ok_iff.mpr ⟨[], reads_array rfl (readsElements_last seven rfl), rfl⟩
  exact ⟨strict, ((read_exactly t).2.2 strict _).mp accepted⟩

/-- A sign among the four bytes of an escape is read, though no relaxed text has one there. -/
theorem read_signed_escape :
    let t := Text.ofString "\"\\u+041\""
    read t = .ok (.string [65]) ∧ ¬ ∃ tree, Renders .relaxed tree t := by
  intro t
  have body : stringBody [92, 117, 43, 48, 52, 49, 34] = .ok ([65], []) := by
    have digits : unitOfEscape? [43, 48, 52, 49] = some 65 := by decide
    exact (stringBody_unit rfl digits).trans (congrArg (prepend _) (stringBody_end []))
  have accepted : read t = .ok (.string [65]) :=
    read_eq_ok_iff.mpr ⟨[], reads_string rfl body, rfl⟩
  refine ⟨accepted, ?_⟩
  rintro ⟨tree, renders⟩
  have value : tree.value = .string [65] :=
    Except.ok.inj ((read_eq_value (renders.mono relaxed_within_lenient)).symm.trans accepted)
  obtain ⟨legal, spaced⟩ := renders
  -- Only a string has this value, and none of its pieces can be what stands behind the quote.
  cases legal with
  | null | bool | array | object =>
    rw [Tree.value] at value
    cases value
  | @number n _ =>
    rw [Tree.value, Numeral.value] at value
    split at value <;> cases value
  | @string pieces legal =>
    rw [Tree.tokens] at spaced
    obtain ⟨rest, found, _⟩ := spaced.skip (by decide)
    have inner : [92, 117, 43, 48, 52, 49, 34] = pieces.flatMap Piece.written ++ [34] ++ rest :=
      (List.cons.inj found).2
    cases pieces with
    | nil => cases inner
    | cons piece pieces =>
      rw [List.flatMap_cons, List.append_assoc, List.append_assoc] at inner
      cases legal piece List.mem_cons_self with
      | plain _ _ escape => exact escape (List.cons.inj inner).1.symm
      | short listed => exact short_ne listed (List.cons.inj (List.cons.inj inner).2).1.symm
      | @unit four _ long allowed =>
        obtain ⟨n, number, _⟩ := allowed
        have same : [43, 48, 52, 49] = four :=
          List.append_inj_left (List.cons.inj (List.cons.inj inner).2).2 long.symm
        rw [← same] at number
        cases hexDigits?_eq_some_iff.mpr number

end Schemata.Json
