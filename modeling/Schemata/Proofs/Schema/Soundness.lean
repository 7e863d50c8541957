import Schemata.Proofs.Lists
import Schemata.Proofs.Value.Distinct
import Schemata.Proofs.Schema.Nodes

/-! Outputs are well typed. Well typed is said of an output beside the input that it was made of, as
an array is as long as the array it came from and a property is made of what lay at its input key.
Objects are sound when the keys they are written at are apart: then no write hides an earlier one. -/
namespace Schemata

/-- Undefined or null, and let through by the flags of the constraint or by what it expects. -/
def Definition.GrantsNullish (d : Definition) (y : Value) : Prop :=
  y.isNullish = true ∧ (d.constraint.admits y = true ∨ d.constraint.expected.Met y)

theorem Definition.PassesNullish.grants {d : Definition} {y : Value} (passes : d.PassesNullish y) :
    d.GrantsNullish y := by
  refine ⟨passes.nullish, ?_⟩
  rcases Constraint.violations_eq_nil_iff.mp passes.checked with admitted | ⟨met, _⟩
  · exact .inl admitted
  · exact .inr met

namespace Schema

mutual

/-- An output `y` of the schema for an input `x` is of the right form throughout. -/
def WellTyped : Schema → Value → Value → Prop
  | leaf d _, _, y => d.GrantsNullish y ∨ y.isNullish = false ∧
      d.constraint.expected.Met y ∧ ∀ r ∈ d.constraint.rules, r.check.accepts y = .ok true
  | array d _ element, x, y => d.GrantsNullish y ∨ ∃ items results,
      (d.coerced x).Always (.array items) ∧ y = .array results ∧
        List.Forall₂ (WellTyped element) items results
  | set d _ element, x, y => d.GrantsNullish y ∨ ∃ input items kept,
      (d.coerced x).Always input ∧ input.elements = .ok items ∧ y = .set kept ∧
        Value.Distinct kept ∧ ∀ v ∈ kept, ∃ item ∈ items, WellTyped element item v
  | map d _ key value, x, y => d.GrantsNullish y ∨ ∃ input all kept,
      (d.coerced x).Always input ∧ Transform.entriesOf input = some all ∧ y = .map kept ∧
        Value.Distinct (kept.map Prod.fst) ∧
          (∀ k ∈ kept.map Prod.fst, ∃ e ∈ all, WellTyped key e.1 k) ∧
            ∀ v ∈ kept.map Prod.snd, ∃ e ∈ all, WellTyped value e.2 v
  | object d _ all, x, y => d.GrantsNullish y ∨
      (∃ fields, y = .object fields) ∧ WellTypedFields all x y

/-- What lies at the output key of each property is well typed for what lay at its input key. -/
def WellTypedFields : List (Property Schema) → Value → Value → Prop
  | [], _, _ => True
  | p :: rest, x, y => (∃ part field, x.lookup p.input = .ok part ∧ y.lookup p.output = .ok field ∧
      WellTyped p.node part field) ∧ WellTypedFields rest x y

end

variable {s : Schema} {x y : Value}

theorem wellTypedFields_iff {all : List (Property Schema)} : WellTypedFields all x y ↔
    ∀ p ∈ all, ∃ part field, x.lookup p.input = .ok part ∧ y.lookup p.output = .ok field ∧
      WellTyped p.node part field := by
  induction all with
  | nil => simp [WellTypedFields]
  | cons p rest ih => rw [WellTypedFields, ih, List.forall_mem_cons]

theorem wellTyped_of_fitting (everywhere : Everywhere (fun s => Fitting s ∧ OutputsApart s) s)
    (accepted : s.safeParse.Accepts x y) : s.WellTyped x y := by
  induction everywhere generalizing x y with
  | leaf here =>
    have checked := accepts_leaf here.1 accepted
    cases defined : y.isNullish with
    | true => exact .inl (Definition.PassesNullish.grants ⟨defined, checked⟩)
    | false => exact .inr ⟨defined, (Constraint.violations_eq_nil_of_defined defined).mp checked⟩
  | array here _ ih =>
    rcases accepts_array here.1 accepted with nullish | ⟨items, results, coerced, _, parts, rfl⟩
    · exact .inl nullish.grants
    · exact .inr ⟨items, results, coerced, rfl, parts.imp fun _ _ => ih⟩
  | set here _ ih =>
    rcases accepts_set here.1 accepted with nullish |
      ⟨input, items, results, coerced, listed, parts, rfl⟩
    · exact .inl nullish.grants
    · obtain ⟨kept, built, distinct, origin⟩ := Value.ofItems_spec results
      refine .inr ⟨input, items, kept, coerced, listed, built, distinct, ?_⟩
      intro v member
      obtain ⟨item, listed, typed⟩ := exists_related_left parts (origin v member)
      exact ⟨item, listed, ih typed⟩
  | map here _ _ ihKey ihValue =>
    rcases accepts_map here.1 accepted with nullish |
      ⟨input, all, parsed, coerced, listed, parts, rfl⟩
    · exact .inl nullish.grants
    · obtain ⟨kept, built, distinct, keys, values⟩ := Value.ofEntries_spec parsed
      refine .inr ⟨input, all, kept, coerced, listed, built, distinct, ?_, ?_⟩
      · intro k member
        obtain ⟨r, parsed, rfl⟩ := List.mem_map.mp (keys k member)
        obtain ⟨e, given, key, _⟩ := exists_related_left parts parsed
        exact ⟨e, given, ihKey key⟩
      · intro v member
        obtain ⟨r, parsed, rfl⟩ := List.mem_map.mp (values v member)
        obtain ⟨e, given, _, value⟩ := exists_related_left parts parsed
        exact ⟨e, given, ihValue value⟩
  | object here _ ih =>
    obtain ⟨fitting, apart⟩ := here
    rcases accepts_object fitting accepted with nullish | ⟨written, parts, assigned⟩
    · exact .inl nullish.grants
    · obtain ⟨_, _, shape, remap, listed⟩ := fitting
      have names := map_eq_map_of_forall₂ (parts.imp fun _ _ part => part.1)
      have paths := (Shape.proper_of_properties listed).unnested.paths
      obtain ⟨after, same, ⟨fields, object, _⟩, found⟩ :=
        Edit.assignAll_emptyObject (names ▸ apart) (names ▸ paths)
      cases assigned.symm.trans same
      refine .inr ⟨⟨fields, object⟩, wellTypedFields_iff.mpr ?_⟩
      intro p member
      obtain ⟨w, written, output, part, read, accepted⟩ := exists_related_right parts member
      exact ⟨part, w.2, read, output ▸ found w written, ih p member accepted⟩

/-- Whatever a schema that can be made accepts, it makes into something well typed, in any session. -/
theorem safeParse_wellTyped (made : s.Made) (apart : Everywhere OutputsApart s)
    (accepted : s.safeParse.Accepts x y) : s.WellTyped x y :=
  wellTyped_of_fitting (made.fitting.and apart) accepted

theorem safeParse_wellTyped_contact : contact.Made ∧ Everywhere OutputsApart contact ∧
    contact.safeParse.Accepts contactInput contactOutput ∧
      contact.WellTyped contactInput contactOutput :=
  ⟨contact_made, contact_outputsApart, contact_accepts,
    safeParse_wellTyped contact_made contact_outputsApart contact_accepts⟩

end Schema
end Schemata
