import Schemata.Proofs.Schema.RoundTrip

/-! Parsing twice. Where every property is read at the key that it is written at, an output is an input
of the same schema, and it comes out as it went in. A container must not lose by that what a rule of
its own has counted: arrays lose nothing, sets and objects have no rules here, and maps never do. -/
namespace Schemata.Schema

variable {d : Definition} {o : Option Transform} {s element key value : Schema} {x y : Value}

theorem stable_array (fitting : Fitting (array d o element)) (stable : element.Stable) :
    (array d o element).Stable := by
  intro x y accepted
  rcases accepts_array fitting accepted with nullish | ⟨items, results, _, checked, found, rfl⟩
  · exact settles_nullish nullish
  · have sized : d.constraint.violations (.array results) = .ok [] :=
      fitting.2.constraint.violations_of_size (v := .array items) rfl found.length_eq rfl checked
    exact settles_array fitting sized (settles_kept stable found fun _ member => member)

theorem stable_map (fitting : Fitting (map d o key value)) (keys : key.Stable)
    (values : value.Stable) (expected : d.constraint.expected = .kind .map) :
    (map d o key value).Stable := by
  intro x y accepted
  rcases accepts_map fitting accepted with nullish | ⟨_, all, parsed, _, _, found, rfl⟩
  · exact settles_nullish nullish
  · obtain ⟨kept, built, distinct, ofKeys, ofValues⟩ := Value.ofEntries_spec parsed
    have checked : d.constraint.violations (.map kept) = .ok [] :=
      Constraint.violations_of_kind expected
        (fitting.2.constraint.rules_of_unsuited Constraint.Family.map_unsuited)
    have parts : List.Forall₂
        (fun e r => key.safeParse.Settles e.1 r.1 ∧ value.safeParse.Settles e.2 r.2) kept kept := by
      apply List.forall₂_same.mpr
      intro e member
      obtain ⟨⟨k, ofKey⟩, v, ofValue⟩ := accepts_kept found ofKeys ofValues e member
      exact ⟨keys k e.1 ofKey, values v e.2 ofValue⟩
    have settled := settles_map fitting checked parts
    rw [built]
    rwa [Value.ofEntries_of_distinct distinct] at settled

/-- What has been written is read again at the same keys, with the same results. -/
theorem carries_again {all : List (Property Schema)} {written : List (Text × Value)}
    (stable : ∀ p ∈ all, p.node.Stable) (unmoved : ∀ p ∈ all, p.input = p.output)
    (found : ∀ w ∈ written, y.lookup w.1 = .ok w.2)
    (parts : List.Forall₂ (Property.Carries (fun s => s.safeParse.Accepts) x) all written) :
    List.Forall₂ (Property.Carries (fun s => s.safeParse.Settles) y) all written := by
  induction parts with
  | nil => exact .nil
  | @cons p w _ _ first _ ih =>
    obtain ⟨here, stable⟩ := List.forall_mem_cons.mp stable
    obtain ⟨same, unmoved⟩ := List.forall_mem_cons.mp unmoved
    obtain ⟨read, found⟩ := List.forall_mem_cons.mp found
    obtain ⟨output, part, _, accepted⟩ := first
    refine .cons ⟨output, w.2, ?_, here part w.2 accepted⟩ (ih stable unmoved found)
    rw [same, ← output]
    exact read

theorem stable_object {all : List (Property Schema)} (fitting : Fitting (object d o all))
    (free : d.constraint.rules = []) (unmoved : ∀ p ∈ all, p.input = p.output)
    (apart : (all.map Property.output).Pairwise Path.KeysApart)
    (stable : ∀ p ∈ all, p.node.Stable) : (object d o all).Stable := by
  intro x y accepted
  rcases accepts_object fitting accepted with nullish | ⟨written, parts, assigned⟩
  · exact settles_nullish nullish
  · obtain ⟨rfl, fits, shape, remap, listed⟩ := fitting
    have names := map_eq_map_of_forall₂ (parts.imp fun _ _ part => part.1)
    have paths := (Shape.proper_of_properties listed).unnested.paths
    obtain ⟨_, same, ⟨fields, rfl, _⟩, found⟩ :=
      Edit.assignAll_emptyObject (names ▸ apart) (names ▸ paths)
    cases assigned.symm.trans same
    have checked : d.constraint.violations (.object fields) = .ok [] :=
      Constraint.violations_of_kind (fits.constraint.expected rfl (by decide)) free
    exact settles_object fits rfl checked (carries_again stable unmoved found parts) assigned

/-- What a node needs for parsing twice to be parsing once. Elements and keys may be schemas of any
form, as they are stable themselves. -/
def Unmoving : Schema → Prop
  | leaf _ _ | array _ _ _ => True
  | set d _ _ => d.constraint.expected = .kind .set ∧ d.constraint.rules = []
  | map d _ _ _ => d.constraint.expected = .kind .map
  | object d _ all => d.constraint.rules = [] ∧ (∀ p ∈ all, p.input = p.output) ∧
      (all.map Property.output).Pairwise Path.KeysApart

theorem stable_of_unmoving (everywhere : Everywhere (fun s => Fitting s ∧ Unmoving s) s) :
    s.Stable := by
  induction everywhere with
  | leaf here => exact stable_of_isLeaf here.1 trivial
  | array here _ ih => exact stable_array here.1 ih
  | set here _ ih => exact stable_set here.1 ih here.2.1 here.2.2
  | map here _ _ ihKey ihValue => exact stable_map here.1 ihKey ihValue here.2
  | object here _ ih =>
    obtain ⟨fitting, free, unmoved, apart⟩ := here
    exact stable_object fitting free unmoved apart ih

/-- Whatever a schema that moves nothing accepts, it accepts again, in any session, and leaves it as it
is. -/
theorem safeParse_idempotent (made : s.Made) (unmoving : Everywhere Unmoving s)
    (accepted : s.safeParse.Accepts x y) : s.safeParse.Settles y y :=
  stable_of_unmoving (made.fitting.and unmoving) x y accepted

/-- The properties of a score sheet, each of which coerces: a nested name, a set of numbers, and a map
from texts to arrays of numbers. -/
def sheetShape : Shape Schema :=
  let coerce : Options := ⟨true, none⟩
  let text := ofLeaf .string (.ofKind .string) coerce
  let number := ofLeaf .number (.ofKind .number) coerce
  [(Text.ofString "name.first", text), (Text.ofString "levels", setOf number (.ofKind .set) coerce),
    (Text.ofString "scores",
      mapOf text (arrayOf number (.ofKind .array) coerce) (.ofKind .map) coerce)]

def sheet : Schema :=
  object ⟨.ofKind .object, none, none⟩ none
    (sheetShape.map fun named => ⟨named.1, named.1, named.2⟩)

theorem sheet_made : sheet.Made := by
  have text : Made (ofLeaf .string (.ofKind .string) ⟨true, none⟩) := .leaf .string _ (.ofKind rfl)
  have number : Made (ofLeaf .number (.ofKind .number) ⟨true, none⟩) :=
    .leaf .number _ (.ofKind rfl)
  have row : Made (arrayOf _ (.ofKind .array) ⟨true, none⟩) := .array _ number (.ofKind rfl)
  have shaped : objectOf sheetShape [] (.ofKind .object) none = .ok sheet := by cbv
  refine .object none ?_ (.ofKind rfl) shaped
  simp only [sheetShape, List.forall_mem_cons, List.not_mem_nil, false_imp_iff, implies_true,
    and_true]
  exact ⟨text, .set _ number (.ofKind rfl), .map _ text row (.ofKind rfl)⟩

theorem sheet_unmoving : Everywhere Unmoving sheet := by
  have name : Path.parse (Text.ofString "name.first") =
      .ok [.key (Text.ofString "name"), .key (Text.ofString "first")] := by cbv
  have levels : Path.parse (Text.ofString "levels") = .ok [.key (Text.ofString "levels")] := by cbv
  have scores : Path.parse (Text.ofString "scores") = .ok [.key (Text.ofString "scores")] := by cbv
  refine .object ⟨rfl, ?_, ?_⟩ ?_
  · simp only [List.forall_mem_map, implies_true]
  · simp only [sheetShape, List.map_cons, List.map_nil, List.pairwise_cons, List.forall_mem_cons,
      List.not_mem_nil, false_imp_iff, implies_true, and_true, List.Pairwise.nil]
    refine ⟨⟨?_, ?_⟩, ?_⟩
    · exact ⟨_, _, name, levels, [], _, _, _, _, rfl, rfl, by decide, rfl⟩
    · exact ⟨_, _, name, scores, [], _, _, _, _, rfl, rfl, by decide, rfl⟩
    · exact ⟨_, _, levels, scores, [], _, _, _, _, rfl, rfl, by decide, rfl⟩
  · simp only [sheetShape, List.map_cons, List.map_nil, List.forall_mem_cons, List.not_mem_nil,
      false_imp_iff, implies_true, and_true]
    exact ⟨.leaf trivial, .set ⟨rfl, rfl⟩ (.leaf trivial),
      .map rfl (.leaf trivial) (.array trivial (.leaf trivial))⟩

/-- A sheet as it comes in: two levels are one number, and two keys are one text. -/
def sheetInput : Value :=
  .object [(Text.ofString "levels", .array [.int 7, .bool true, .int 1]),
    (Text.ofString "name", .object [(Text.ofString "first", .int 12)]),
    (Text.ofString "scores", .map [(.int 1, .array [.bool false]),
      (.string (Text.ofString "1"), .set [.int 31, .bool true]),
      (.bool true, .array [])])]

/-- The sheet as it goes out. -/
def sheetOutput : Value :=
  .object [(Text.ofString "levels", .set [.int 7, .int 1]),
    (Text.ofString "name", .object [(Text.ofString "first", .string (Text.ofString "12"))]),
    (Text.ofString "scores", .map [(.string (Text.ofString "1"), .array [.int 31, .int 1]),
      (.string (Text.ofString "true"), .array [])])]

theorem sheet_accepts : sheet.safeParse.Accepts sheetInput sheetOutput := by
  refine ⟨{}, {}, ?_⟩
  unfold Run.Answers
  cbv

theorem safeParse_idempotent_sheet : sheet.Made ∧ Everywhere Unmoving sheet ∧
    sheet.safeParse.Accepts sheetInput sheetOutput ∧
      sheet.safeParse.Settles sheetOutput sheetOutput :=
  ⟨sheet_made, sheet_unmoving, sheet_accepts,
    safeParse_idempotent sheet_made sheet_unmoving sheet_accepts⟩

end Schemata.Schema
