import Schemata.Proofs.Schema.Making
import Schemata.Proofs.Schema.Transforms

/-! What the nodes of made schemas accept, form by form, in terms of what their parts accept. What a
node accepts is nullish, or has gone through the transform of its form; and a node accepts whatever
passes its constraint if the parts accept theirs. -/
namespace Schemata

theorem Definition.Fits.fixed {d : Definition} {family : Constraint.Family}
    {coercion : Option Coercion}
    (fits : d.Fits family coercion) (other : coercion ≠ some .symbol) :
    d.coercion ≠ some .symbol := by
  rcases fits.coercion with none | own
  · rw [none]
    nofun
  · rwa [own]

/-- What the coercion of a definition would leave alone, the definition leaves alone. -/
theorem Definition.Fits.coerced_self {d : Definition} {family : Constraint.Family}
    {coercion : Coercion}
    {v : Value} (fits : d.Fits family (some coercion)) (kept : (coercion.apply v).Always v) :
    (d.coerced v).Always v := by
  apply Definition.coerced_self
  intro own wanted
  rcases fits.coercion with none | same
  · cases none.symm.trans wanted
  · cases same.symm.trans wanted
    exact kept

namespace Schema

variable {d : Definition} {o : Option Transform} {element key value : Schema}
  {all : List (Property Schema)} {x y : Value}

/-- Of an object, no two properties are written at one key, inside one another, or so that one would
need an object where the other needs an array. -/
def OutputsApart : Schema → Prop
  | object _ _ all => (all.map Property.output).Pairwise Path.KeysApart
  | _ => True

theorem parsers_eq (all : List (Property Schema)) :
    parsers all = all.map fun p => ⟨p.output, p.input, p.node.safeParse⟩ := by
  induction all with
  | nil => rfl
  | cons p rest ih => rw [parsers, ih, List.map_cons]

theorem outputs_parsers : (parsers all).map Property.output = all.map Property.output := by
  rw [parsers_eq, List.map_map]
  rfl

theorem carries_parsers {holds : Parser → Value → Value → Prop} {written : List (Text × Value)} :
    List.Forall₂ (Property.Carries holds x) (parsers all) written ↔
      List.Forall₂ (Property.Carries (fun s => holds s.safeParse) x) all written := by
  rw [parsers_eq, List.forall₂_map_left_iff]
  rfl

theorem accepts_leaf (fitting : Fitting (leaf d o)) (accepted : (leaf d o).safeParse.Accepts x y) :
    d.constraint.violations y = .ok [] := by
  obtain ⟨rfl, _⟩ := fitting
  exact (Definition.safeParse_accepts accepted).checked

theorem accepts_array (fitting : Fitting (array d o element))
    (accepted : (array d o element).safeParse.Accepts x y) :
    d.PassesNullish y ∨ ∃ items results, (d.coerced x).Always (.array items) ∧
      d.constraint.violations (.array items) = .ok [] ∧
        List.Forall₂ element.safeParse.Accepts items results ∧ y = .array results := by
  obtain ⟨rfl, fits⟩ := fitting
  have accepted := Definition.safeParse_accepts accepted
  rcases accepted.nullish_or_transformed (fits.fixed nofun) with
    nullish | ⟨input, outcome, σ, τ, coerced, checked, defined, answered, succeeded, rfl⟩
  · exact .inl nullish
  · obtain ⟨met, _⟩ := (Constraint.violations_eq_nil_of_defined defined).mp checked
    have kind : input.kind = .array := by rwa [fits.constraint.expected rfl (by decide)] at met
    obtain ⟨items, results, listed, parts, built⟩ :=
      Transform.list_answers defined answered succeeded
    cases input with
    | array =>
      cases listed
      exact .inr ⟨_, results, coerced, checked, parts, built⟩
    | _ => cases kind

theorem accepts_set (fitting : Fitting (set d o element))
    (accepted : (set d o element).safeParse.Accepts x y) :
    d.PassesNullish y ∨ ∃ input items results, (d.coerced x).Always input ∧
      input.elements = .ok items ∧ List.Forall₂ element.safeParse.Accepts items results ∧
        y = Value.ofItems results := by
  obtain ⟨rfl, fits⟩ := fitting
  have accepted := Definition.safeParse_accepts accepted
  rcases accepted.nullish_or_transformed (fits.fixed nofun) with
    nullish | ⟨input, outcome, σ, τ, coerced, checked, defined, answered, succeeded, rfl⟩
  · exact .inl nullish
  · obtain ⟨items, results, listed, parts, built⟩ :=
      Transform.list_answers defined answered succeeded
    exact .inr ⟨input, items, results, coerced, listed, parts, built⟩

theorem accepts_map (fitting : Fitting (map d o key value))
    (accepted : (map d o key value).safeParse.Accepts x y) :
    d.PassesNullish y ∨ ∃ input all parsed, (d.coerced x).Always input ∧
      Transform.entriesOf input = some all ∧
        List.Forall₂ (fun e r => key.safeParse.Accepts e.1 r.1 ∧ value.safeParse.Accepts e.2 r.2)
          all parsed ∧ y = Value.ofEntries parsed := by
  obtain ⟨rfl, fits⟩ := fitting
  have accepted := Definition.safeParse_accepts accepted
  rcases accepted.nullish_or_transformed (fits.fixed nofun) with
    nullish | ⟨input, outcome, σ, τ, coerced, checked, defined, answered, succeeded, rfl⟩
  · exact .inl nullish
  · obtain ⟨all, parsed, listed, parts, built⟩ := Transform.map_answers defined answered succeeded
    exact .inr ⟨input, all, parsed, coerced, listed, parts, built⟩

theorem accepts_object (fitting : Fitting (object d o all))
    (accepted : (object d o all).safeParse.Accepts x y) :
    d.PassesNullish y ∨ ∃ written,
      List.Forall₂ (Property.Carries (fun s => s.safeParse.Accepts) x) all written ∧
        Edit.assignAll written (.object []) = .ok y := by
  obtain ⟨rfl, fits, _⟩ := fitting
  have accepted := Definition.safeParse_accepts accepted
  rcases accepted.nullish_or_transformed (fits.fixed nofun) with
    nullish | ⟨input, outcome, σ, τ, coerced, checked, defined, answered, succeeded, rfl⟩
  · exact .inl nullish
  · obtain ⟨written, parts, assigned⟩ := Transform.object_answers answered succeeded
    obtain ⟨_, plain⟩ := Definition.coerced_of_none (v := x) (fits.coercion.elim id id) {}
    obtain rfl := coerced.unique plain
    exact .inr ⟨written, carries_parsers.mp parts, assigned⟩

theorem settles_nullish {s : Schema} (passes : s.definition.PassesNullish y) :
    s.safeParse.Settles y y := by
  cases s <;> exact passes.settles

/-- A leaf accepts again what has passed its constraint: coercing to a kind leaves the kind alone. -/
theorem settles_leaf (fitting : Fitting (leaf d o)) (checked : d.constraint.violations y = .ok []) :
    (leaf d o).safeParse.Settles y y := by
  obtain ⟨rfl, kind, fits⟩ := fitting
  cases defined : y.isNullish with
  | true => exact Definition.PassesNullish.settles ⟨defined, checked⟩
  | false =>
    refine Definition.safeParse_plain (Definition.coerced_self ?_) checked defined
    intro coercion wanted
    have own : kind.coercion = some coercion := by
      rcases fits.coercion with none | own
      · cases none.symm.trans wanted
      · exact own.symm.trans wanted
    obtain ⟨met, _⟩ := (Constraint.violations_eq_nil_of_defined defined).mp checked
    have ofKind {k : Kind} (plain : kind.family.kind? = some k)
        (rigid : kind.family ≠ .set ∧ kind.family ≠ .map) : y.kind = k := by
      rwa [fits.constraint.expected plain rigid] at met
    cases kind with
    | null | undefined | any => cases own
    | string | boolean | symbol | date =>
      cases own
      have kind := ofKind rfl (by decide)
      cases y <;> cases kind
      exact Run.always_pure
    | number =>
      cases own
      have kind := ofKind rfl (by decide)
      cases y <;> cases kind <;> exact Run.always_pure

theorem settles_array {items results : List Value} (fitting : Fitting (array d o element))
    (checked : d.constraint.violations (.array items) = .ok [])
    (parts : List.Forall₂ element.safeParse.Settles items results) :
    (array d o element).safeParse.Settles (.array items) (.array results) := by
  obtain ⟨rfl, fits⟩ := fitting
  have transformed : (Transform.array element.safeParse (.array items)).Always
      (.success (.array results)) :=
    Transform.list_always rfl parts
  exact Definition.safeParse_transformed rfl (fits.coerced_self Run.always_pure) checked rfl
    transformed

theorem settles_set {items results : List Value} (fitting : Fitting (set d o element))
    (checked : d.constraint.violations (.set items) = .ok [])
    (parts : List.Forall₂ element.safeParse.Settles items results) :
    (set d o element).safeParse.Settles (.set items) (Value.ofItems results) := by
  obtain ⟨rfl, fits⟩ := fitting
  have transformed : (Transform.set element.safeParse (.set items)).Always
      (.success (Value.ofItems results)) :=
    Transform.list_always rfl parts
  exact Definition.safeParse_transformed rfl (fits.coerced_self Run.always_pure) checked rfl
    transformed

theorem settles_map {entries parsed : List (Value × Value)} (fitting : Fitting (map d o key value))
    (checked : d.constraint.violations (.map entries) = .ok [])
    (parts : List.Forall₂
      (fun e r => key.safeParse.Settles e.1 r.1 ∧ value.safeParse.Settles e.2 r.2)
      entries parsed) :
    (map d o key value).safeParse.Settles (.map entries) (Value.ofEntries parsed) := by
  obtain ⟨rfl, fits⟩ := fitting
  have transformed : (Transform.map key.safeParse value.safeParse (.map entries)).Always
      (.success (Value.ofEntries parsed)) :=
    Transform.map_always rfl parts
  exact Definition.safeParse_transformed rfl (fits.coerced_self Run.always_pure) checked rfl
    transformed

theorem settles_object {written : List (Text × Value)} (fits : d.Fits .object none)
    (defined : x.isNullish = false) (checked : d.constraint.violations x = .ok [])
    (parts : List.Forall₂ (Property.Carries (fun s => s.safeParse.Settles) x) all written)
    (assigned : Edit.assignAll written (.object []) = .ok y) :
    (object d none all).safeParse.Settles x y :=
  Definition.safeParse_transformed defined (Definition.coerced_of_none (fits.coercion.elim id id))
    checked defined (Transform.object_always (carries_parsers.mpr parts) assigned)

theorem contact_outputsApart : Everywhere OutputsApart contact := by
  have email : Path.parse (Text.ofString "email") = .ok [.key (Text.ofString "email")] := by cbv
  have line : Path.parse (Text.ofString "lines.0") =
      .ok [.key (Text.ofString "lines"), .index 0] := by cbv
  have codes : Path.parse (Text.ofString "codes") = .ok [.key (Text.ofString "codes")] := by cbv
  refine .object ?_ ?_
  · simp only [OutputsApart, List.map_cons, List.map_nil, List.pairwise_cons, List.forall_mem_cons,
      List.not_mem_nil, false_imp_iff, implies_true, and_true, List.Pairwise.nil]
    refine ⟨⟨?_, ?_⟩, ?_⟩
    · exact ⟨_, _, email, line, [], _, _, _, _, rfl, rfl, by decide, rfl⟩
    · exact ⟨_, _, email, codes, [], _, _, _, _, rfl, rfl, by decide, rfl⟩
    · exact ⟨_, _, line, codes, [], _, _, _, _, rfl, rfl, by decide, rfl⟩
  · simp only [List.forall_mem_cons, List.not_mem_nil, false_imp_iff, implies_true, and_true]
    exact ⟨.leaf trivial, .leaf trivial, .set trivial (.leaf trivial)⟩

/-- A contact as it comes in. Its codes are an array of two values that are one number. -/
def contactInput : Value :=
  .object [(Text.ofString "address", .object [
      (Text.ofString "email", .string (Text.ofString "a@b.c")),
      (Text.ofString "line", .string (Text.ofString "Main Street 1"))]),
    (Text.ofString "codes", .array [.bool true, .int 1])]

/-- The contact as it goes out. -/
def contactOutput : Value :=
  .object [(Text.ofString "codes", .set [.int 1]),
    (Text.ofString "email", .string (Text.ofString "a@b.c")),
    (Text.ofString "lines", .array [.string (Text.ofString "Main Street 1")])]

theorem contact_accepts : contact.safeParse.Accepts contactInput contactOutput := by
  refine ⟨{}, {}, ?_⟩
  unfold Run.Answers
  cbv

end Schema
end Schemata
