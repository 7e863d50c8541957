import Schemata.Schema.Shape
import Schemata.Proofs.Fields
import Schemata.Proofs.Path.Canonical

/-! Which shapes make up properties. The main statement is an equivalence: `properties` answers
exactly for distinct names that the remap keeps to, keys that are paths, and names of which none
leads inside another. -/
namespace Schemata.Shape

/-- All keys are paths, and none leads inside another. -/
structure Unnested (keys : List Text) : Prop where
  paths : ∀ key ∈ keys, ∃ steps, Path.parse key = .ok steps
  apart : ∀ outer ∈ keys, ∀ inner ∈ keys, ∀ p q, Path.parse outer = .ok p →
    Path.parse inner = .ok q → isInside p q = false

theorem Unnested.tail {key : Text} {keys : List Text} (unnested : Unnested (key :: keys)) :
    Unnested keys where
  paths other member := unnested.paths other (List.mem_cons_of_mem key member)
  apart outer outside inner inside := unnested.apart outer (List.mem_cons_of_mem key outside) inner
    (List.mem_cons_of_mem key inside)

/-- The property of a name. -/
def property (remap : Remap) (named : Text × α) : Property α :=
  ⟨named.1, inputKey remap named.1, named.2⟩

theorem firstRepeated?_eq_none_iff {seen names : List Text} :
    firstRepeated? seen names = none ↔ names.Nodup ∧ ∀ name ∈ names, name ∉ seen := by
  induction names generalizing seen with
  | nil => simp [firstRepeated?]
  | cons name names ih =>
    simp only [firstRepeated?, List.nodup_cons, List.forall_mem_cons]
    by_cases repeated : name ∈ seen
    · simp [repeated]
    · simp only [List.contains_iff_mem, repeated, if_false, ih, List.mem_cons, not_or]
      grind

theorem parsePaths_eq_ok_iff {keys : List Text} {paths : List (Text × List Path.Step)} :
    parsePaths keys = .ok paths ↔
      paths.map Prod.fst = keys ∧ ∀ path ∈ paths, Path.parse path.1 = .ok path.2 := by
  induction keys generalizing paths with
  | nil => cases paths <;> simp [parsePaths]
  | cons key keys ih =>
    simp only [parsePaths, bind_eq_ok_iff, pure_eq_ok_iff]
    constructor
    · rintro ⟨steps, parsed, rest, others, rfl⟩
      obtain ⟨names, parses⟩ := ih.mp others
      exact ⟨by rw [List.map_cons, names], List.forall_mem_cons.mpr ⟨parsed, parses⟩⟩
    · cases paths with
      | nil => simp
      | cons path paths =>
        rintro ⟨names, parses⟩
        obtain ⟨rfl, others⟩ := List.cons.inj names
        rw [List.forall_mem_cons] at parses
        exact ⟨path.2, parses.1, paths, ih.mpr ⟨others, parses.2⟩, rfl⟩

theorem parsePaths_exists {keys : List Text}
    (paths : ∀ key ∈ keys, ∃ steps, Path.parse key = .ok steps) :
    ∃ parsed, parsePaths keys = .ok parsed := by
  induction keys with
  | nil => exact ⟨[], rfl⟩
  | cons key keys ih =>
    rw [List.forall_mem_cons] at paths
    obtain ⟨steps, parsed⟩ := paths.1
    obtain ⟨rest, others⟩ := ih paths.2
    exact ⟨(key, steps) :: rest, by simp [parsePaths, parsed, others]⟩

theorem firstNested?_eq_none_iff {paths : List (Text × List Path.Step)} :
    firstNested? paths = none ↔ ∀ outer ∈ paths, ∀ inner ∈ paths, isInside outer.2 inner.2 =
      false := by
  simp [firstNested?]

theorem nestedKeys?_eq_none_iff {keys : List Text} : nestedKeys? keys = .ok none ↔ Unnested keys :=
    by
  simp only [nestedKeys?, map_eq_ok_iff, parsePaths_eq_ok_iff, firstNested?_eq_none_iff]
  constructor
  · rintro ⟨paths, ⟨rfl, parses⟩, apart⟩
    refine ⟨fun key member => ?_, fun outer outside inner inside p q left right => ?_⟩
    · obtain ⟨path, listed, rfl⟩ := List.mem_map.mp member
      exact ⟨path.2, parses path listed⟩
    · obtain ⟨first, around, rfl⟩ := List.mem_map.mp outside
      obtain ⟨second, within, rfl⟩ := List.mem_map.mp inside
      cases left.symm.trans (parses first around)
      cases right.symm.trans (parses second within)
      exact apart first around second within
  · intro unnested
    obtain ⟨paths, parsed⟩ := parsePaths_exists unnested.paths
    obtain ⟨names, parses⟩ := parsePaths_eq_ok_iff.mp parsed
    subst names
    refine ⟨paths, ⟨rfl, parses⟩, fun outer outside inner inside => ?_⟩
    exact unnested.apart _ (List.mem_map_of_mem outside) _ (List.mem_map_of_mem inside) _ _
      (parses outer outside) (parses inner inside)

theorem entries_eq_ok_iff {remap : Remap} {shape : Shape α} {all : List (Property α)} :
    entries remap shape = .ok all ↔ all = shape.map (property remap) ∧
      ∀ p ∈ all, (∃ steps, Path.parse p.output = .ok steps) ∧
        ∃ steps, Path.parse p.input = .ok steps := by
  induction shape generalizing all with
  | nil =>
    simp only [entries, Except.ok.injEq, List.map_nil]
    constructor
    · rintro rfl
      simp
    · exact fun h => h.1.symm
  | cons named shape ih =>
    obtain ⟨name, node⟩ := named
    simp only [entries, bind_eq_ok_iff, pure_eq_ok_iff, List.map_cons]
    constructor
    · rintro ⟨steps, output, steps', input, rest, others, rfl⟩
      obtain ⟨rfl, parses⟩ := ih.mp others
      exact ⟨rfl, List.forall_mem_cons.mpr ⟨⟨⟨steps, output⟩, steps', input⟩, parses⟩⟩
    · rintro ⟨rfl, parses⟩
      obtain ⟨⟨⟨steps, output⟩, steps', input⟩, parses⟩ := List.forall_mem_cons.mp parses
      exact ⟨steps, output, steps', input, _, ih.mpr ⟨rfl, parses⟩, rfl⟩

/-- A shape and a remap that make up properties. -/
structure Fitting (shape : Shape α) (remap : Remap) : Prop where
  distinct : (shape.map Prod.fst).Nodup
  known : ∀ key ∈ Fields.keys remap, key ∈ shape.map Prod.fst
  unnested : Unnested (shape.map Prod.fst)
  inputs : ∀ p ∈ shape.map (property remap), ∃ steps, Path.parse p.input = .ok steps

/-- Whether a shape goes with a remap is a matter of its names alone. -/
theorem Fitting.of_names {shape : Shape α} {other : Shape β} {remap : Remap}
    (fitting : Fitting shape remap)
    (names : other.map Prod.fst = shape.map Prod.fst) : Fitting other remap := by
  refine ⟨names ▸ fitting.distinct, names ▸ fitting.known, names ▸ fitting.unnested,
    fun p member => ?_⟩
  obtain ⟨named, listed, rfl⟩ := List.mem_map.mp member
  obtain ⟨same, there, name⟩ := List.mem_map.mp (names ▸ List.mem_map_of_mem (f := Prod.fst) listed)
  have read := fitting.inputs _ (List.mem_map_of_mem there)
  rwa [property, name] at read

theorem Fitting.perm {shape other : Shape α} {remap : Remap} (fitting : Fitting shape remap)
    (order : shape.Perm other) : Fitting other remap := by
  have names {key : Text} : key ∈ other.map Prod.fst ↔ key ∈ shape.map Prod.fst :=
    (order.map Prod.fst).mem_iff.symm
  refine ⟨(order.map Prod.fst).nodup_iff.mp fitting.distinct,
    fun key listed => names.mpr (fitting.known key listed), ⟨?_, ?_⟩, ?_⟩
  · exact fun key listed => fitting.unnested.paths key (names.mp listed)
  · exact fun outer outside inner inside =>
      fitting.unnested.apart outer (names.mp outside) inner (names.mp inside)
  · exact fun p member => fitting.inputs p ((order.map _).mem_iff.mpr member)

theorem properties_eq_ok_iff {shape : Shape α} {remap : Remap} {all : List (Property α)} :
    properties shape remap = .ok all ↔ Fitting shape remap ∧ all = shape.map (property remap) := by
  unfold properties
  dsimp only
  cases repeated : firstRepeated? [] (shape.map Prod.fst) with
  | some name =>
    constructor
    · intro accepted
      cases accepted
    · rintro ⟨fitting, _⟩
      rw [firstRepeated?_eq_none_iff.mpr ⟨fitting.distinct, by simp⟩] at repeated
      cases repeated
  | none =>
    cases unknown : (Fields.keys remap).find? fun key => !(shape.map Prod.fst).contains key with
    | some key =>
      constructor
      · intro accepted
        cases accepted
      · rintro ⟨fitting, _⟩
        have strange := List.find?_some unknown
        have known := fitting.known key (List.mem_of_find?_eq_some unknown)
        simp [known] at strange
    | none =>
      have distinct := (firstRepeated?_eq_none_iff.mp repeated).1
      have known : ∀ key ∈ Fields.keys remap, key ∈ shape.map Prod.fst := by
        simpa using unknown
      simp only [bind_eq_ok_iff]
      constructor
      · rintro ⟨listed, made, nested, unnested, answered⟩
        obtain ⟨rfl, parses⟩ := entries_eq_ok_iff.mp made
        cases nested with
        | some pair => cases answered
        | none =>
          cases answered
          exact ⟨⟨distinct, known, nestedKeys?_eq_none_iff.mp unnested,
            fun p member => (parses p member).2⟩, rfl⟩
      · rintro ⟨fitting, rfl⟩
        refine ⟨_, entries_eq_ok_iff.mpr ⟨rfl, fun p member => ⟨?_, fitting.inputs p member⟩⟩,
          none, nestedKeys?_eq_none_iff.mpr fitting.unnested, rfl⟩
        obtain ⟨named, listed, rfl⟩ := List.mem_map.mp member
        exact fitting.unnested.paths _ (List.mem_map_of_mem listed)

/-- What holds of the properties that a shape and a remap make up. -/
structure Proper (all : List (Property α)) : Prop where
  distinct : (all.map Property.output).Nodup
  unnested : Unnested (all.map Property.output)
  inputs : ∀ p ∈ all, ∃ steps, Path.parse p.input = .ok steps

theorem proper_of_properties {shape : Shape α} {remap : Remap} {all : List (Property α)}
    (accepted : shape.properties remap = .ok all) : Proper all := by
  obtain ⟨fitting, rfl⟩ := properties_eq_ok_iff.mp accepted
  have names : (shape.map (property remap)).map Property.output = shape.map Prod.fst := by
    rw [List.map_map]
    rfl
  exact ⟨names ▸ fitting.distinct, names ▸ fitting.unnested, fitting.inputs⟩

theorem Proper.outputs {all : List (Property α)} (proper : Proper all) :
    ∀ p ∈ all, ∃ steps, Path.parse p.output = .ok steps :=
  fun _ member => proper.unnested.paths _ (List.mem_map_of_mem member)

end Schemata.Shape
