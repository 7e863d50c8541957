import Mathlib
import Schemata.Schema.Basic
import Schemata.Proofs.Constraint.Families
import Schemata.Proofs.Shapes

/-! The schemas that can be made. `Made` follows the ways of making nodes; `Fitting` is what it comes
to at a single node, so that proofs go by the tree and not by the history of a node. -/
namespace Schemata

/-- A definition with a constraint of the family and no coercion but the one that goes with it. -/
structure Definition.Fits (d : Definition) (family : Constraint.Family)
    (coercion : Option Coercion) : Prop where
  constraint : Constraint.Fits family d.constraint
  coercion : d.coercion = none ∨ d.coercion = coercion

namespace Schema

/-- The family of the constraints that a kind of leaf is made with. -/
def LeafKind.family : LeafKind → Constraint.Family
  | string => .string
  | number => .number
  | boolean => .boolean
  | symbol => .symbol
  | date => .date
  | null => .null
  | undefined => .nullish
  | any => .any

/-- The schemas that can be made of leaves and containers with any rules of their families, and the
nodes that are made nullable or nullish or described afterwards. -/
inductive Made : Schema → Prop where
  | leaf (kind : LeafKind) (o : Options) : Constraint.Made kind.family c → Made (ofLeaf kind c o)
  | array (o : Options) : Made element → Constraint.Made .array c → Made (arrayOf element c o)
  | set (o : Options) : Made element → Constraint.Made .set c → Made (setOf element c o)
  | map (o : Options) : Made key → Made value → Constraint.Made .map c → Made (mapOf key value c o)
  | object (description : Option Text) : (∀ named ∈ shape, Made named.2) →
      Constraint.Made .object c → objectOf shape remap c description = .ok s → Made s
  | nullable : Made s → Made s.nullable
  | nullish : Made s → Made s.nullish
  | describe (description : Text) : Made s → Made (s.describe description)

/-- Every node of a schema, the schema itself among them. -/
inductive Everywhere (holds : Schema → Prop) : Schema → Prop where
  | leaf : holds (leaf d o) → Everywhere holds (leaf d o)
  | array : holds (array d o element) → Everywhere holds element →
      Everywhere holds (array d o element)
  | set : holds (set d o element) → Everywhere holds element → Everywhere holds (set d o element)
  | map : holds (map d o key value) → Everywhere holds key → Everywhere holds value →
      Everywhere holds (map d o key value)
  | object : holds (object d o all) → (∀ p ∈ all, Everywhere holds p.node) →
      Everywhere holds (object d o all)

variable {holds more : Schema → Prop} {s : Schema}

theorem Everywhere.here (everywhere : Everywhere holds s) : holds s := by
  cases everywhere <;> assumption

theorem Everywhere.imp (everywhere : Everywhere holds s) (weaker : ∀ s, holds s → more s) :
    Everywhere more s := by
  induction everywhere with
  | leaf here => exact .leaf (weaker _ here)
  | array here _ ih => exact .array (weaker _ here) ih
  | set here _ ih => exact .set (weaker _ here) ih
  | map here _ _ ihKey ihValue => exact .map (weaker _ here) ihKey ihValue
  | object here _ ih => exact .object (weaker _ here) ih

theorem Everywhere.and (first : Everywhere holds s) (second : Everywhere more s) :
    Everywhere (fun s => holds s ∧ more s) s := by
  induction first with
  | leaf here => exact .leaf ⟨here, second.here⟩
  | array here _ ih =>
    cases second with
    | array also element => exact .array ⟨here, also⟩ (ih element)
  | set here _ ih =>
    cases second with
    | set also element => exact .set ⟨here, also⟩ (ih element)
  | map here _ _ ihKey ihValue =>
    cases second with
    | map also key value => exact .map ⟨here, also⟩ (ihKey key) (ihValue value)
  | object here _ ih =>
    cases second with
    | object also parts => exact .object ⟨here, also⟩ fun p member => ih p member (parts p member)

theorem Everywhere.withDefinition {d : Definition} (everywhere : Everywhere holds s)
    (changed : holds (s.withDefinition d)) : Everywhere holds (s.withDefinition d) := by
  cases everywhere with
  | leaf => exact .leaf changed
  | array _ element => exact .array changed element
  | set _ element => exact .set changed element
  | map _ key value => exact .map changed key value
  | object _ parts => exact .object changed parts

/-- What holds of a single node that is made. -/
def Fitting : Schema → Prop
  | leaf d o => o = none ∧ ∃ kind : LeafKind, d.Fits kind.family kind.coercion
  | array d o _ => o = none ∧ d.Fits .array (some .array)
  | set d o _ => o = none ∧ d.Fits .set (some .set)
  | map d o _ _ => o = none ∧ d.Fits .map (some .map)
  | object d o all => o = none ∧ d.Fits .object none ∧
      ∃ (shape : Shape Schema) (remap : Remap), shape.properties remap = .ok all

theorem Fitting.withDefinition {d : Definition} (fitting : Fitting s)
    (constraint : ∀ family, Constraint.Fits family s.definition.constraint →
      Constraint.Fits family d.constraint)
    (coercion : d.coercion = s.definition.coercion) : Fitting (s.withDefinition d) := by
  have kept {family wanted} (fits : s.definition.Fits family wanted) : d.Fits family wanted :=
    ⟨constraint family fits.constraint, coercion ▸ fits.coercion⟩
  cases s with
  | leaf =>
    obtain ⟨own, kind, fits⟩ := fitting
    exact ⟨own, kind, kept fits⟩
  | array | set | map => exact ⟨fitting.1, kept fitting.2⟩
  | object => exact ⟨fitting.1, kept fitting.2.1, fitting.2.2⟩

theorem Options.definition_fits {o : Options} {c : Constraint} {family : Constraint.Family}
    {coercion : Option Coercion} (made : Constraint.Made family c) :
    (o.definition c coercion).Fits family coercion := by
  refine ⟨made.fits, ?_⟩
  unfold Options.definition
  split
  · exact .inr rfl
  · exact .inl rfl

theorem Made.fitting (made : Made s) : Everywhere Fitting s := by
  induction made with
  | leaf kind o constraint => exact .leaf ⟨rfl, kind, Options.definition_fits constraint⟩
  | array o _ constraint ih => exact .array ⟨rfl, Options.definition_fits constraint⟩ ih
  | set o _ constraint ih => exact .set ⟨rfl, Options.definition_fits constraint⟩ ih
  | map o _ _ constraint ihKey ihValue =>
    exact .map ⟨rfl, Options.definition_fits constraint⟩ ihKey ihValue
  | object description _ constraint accepted ih =>
    obtain ⟨all, listed, rfl⟩ := map_eq_ok_iff.mp accepted
    refine .object ⟨rfl, ⟨constraint.fits, .inl rfl⟩, _, _, listed⟩ fun p member => ?_
    obtain ⟨_, rfl⟩ := Shape.properties_eq_ok_iff.mp listed
    obtain ⟨named, inShape, rfl⟩ := List.mem_map.mp member
    exact ih named inShape
  | nullable _ ih => exact ih.withDefinition (ih.here.withDefinition (fun _ => .nullable) rfl)
  | nullish _ ih => exact ih.withDefinition (ih.here.withDefinition (fun _ => .nullish) rfl)
  | describe description _ ih =>
    exact ih.withDefinition (ih.here.withDefinition (fun _ fits => fits) rfl)

/-- A contact whose lines are collected from its address and whose codes become a set of numbers. -/
def contact : Schema :=
  let plain (c : Constraint) : Definition := ⟨c, none, none⟩
  object (plain (.ofKind .object)) none
    [⟨Text.ofString "email", Text.ofString "address.email", leaf (plain (.ofKind .string)) none⟩,
      ⟨Text.ofString "lines.0", Text.ofString "address.line",
        leaf (plain (Constraint.ofKind .string).nullish) none⟩,
      ⟨Text.ofString "codes", Text.ofString "codes",
        set ⟨.ofKind .set, some .set, none⟩ none (leaf ⟨.ofKind .number, some .number, none⟩ none)⟩]

theorem contact_made : contact.Made := by
  have text : Made (ofLeaf .string (.ofKind .string) ⟨false, none⟩) := .leaf .string _ (.ofKind rfl)
  have number : Made (ofLeaf .number (.ofKind .number) ⟨true, none⟩) :=
    .leaf .number _ (.ofKind rfl)
  have codes :
      Made (setOf (ofLeaf .number (.ofKind .number) ⟨true, none⟩) (.ofKind .set) ⟨true, none⟩) :=
    .set _ number (.ofKind rfl)
  have remapped : objectOf
      [(Text.ofString "email", ofLeaf .string (.ofKind .string) ⟨false, none⟩),
        (Text.ofString "lines.0", (ofLeaf .string (.ofKind .string) ⟨false, none⟩).nullish),
        (Text.ofString "codes", setOf (ofLeaf .number (.ofKind .number) ⟨true, none⟩)
          (.ofKind .set) ⟨true, none⟩)]
      [(Text.ofString "email", Text.ofString "address.email"),
        (Text.ofString "lines.0", Text.ofString "address.line")]
      (.ofKind .object) none = .ok contact := by cbv
  refine .object none ?_ (.ofKind rfl) remapped
  simp only [List.forall_mem_cons, List.not_mem_nil, false_imp_iff, implies_true, and_true]
  exact ⟨text, text.nullish, codes⟩

end Schema
end Schemata
