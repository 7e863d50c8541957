import Schemata.Proofs.Schema.Replies
import Schemata.Proofs.Schema.Nodes

/-! Objects are parsed exactly. Where the output keys are apart, an object fails to parse when and only
when one of its properties rejects what the input has for it; and if none does, every output can be
read at its key and there is nothing else to be read. -/
namespace Schemata

/-- The data of properties that all accepted: an object with every output at its key. Whatever can be
read from it lies on the way to an output that is not undefined, at it or inside it. -/
structure ExactData (all : List (Property α)) (given : List Reply) (data : Value) : Prop where
  object : ∃ fields, data = .object fields
  found : List.Forall₂ (fun p reply => ∃ result, reply = .accepted result ∧
    data.lookup p.output = .ok result) all given
  nothing_else : ∀ path part, data.lookup path = .ok part → part ≠ .undefined →
    ∃ steps, Path.parse path = .ok steps ∧ ∃ p result, (p, .accepted result) ∈ all.zip given ∧
      result ≠ .undefined ∧ ∃ q, Path.parse p.output = .ok q ∧ (steps <+: q ∨ q <+: steps)

namespace Transform

variable {input data : Value} {all : List (Property Parser)} {given : List Reply}
  {σ ρ : Session} {fault : Fault}

/-- Outputs at keys that are apart can be written, and make up exact data if nothing was rejected. -/
theorem exactData_of_apart {replied : Property α → Reply → Prop} {all : List (Property α)}
    (parts : List.Forall₂ replied all given)
    (apart : (all.map Property.output).Pairwise Path.KeysApart)
    (paths : ∀ p ∈ all, ∃ steps, Path.parse p.output = .ok steps) :
    ∃ data, Edit.assignAll (outputs all given) (.object []) = .ok data ∧
      ((∀ problem, .rejected problem ∉ given) → ExactData all given data) := by
  have sublist := outputs_sublist all given
  have parsed : ∀ key ∈ (outputs all given).map Prod.fst, ∃ steps, Path.parse key = .ok steps := by
    intro key member
    obtain ⟨p, listed, rfl⟩ := List.mem_map.mp (sublist.subset member)
    exact paths p listed
  obtain ⟨data, assigned, segmented, found⟩ :=
    Edit.assignAll_emptyObject (apart.sublist sublist) parsed
  refine ⟨data, assigned, fun silent => ⟨?_, forall_outputs parts silent found, ?_⟩⟩
  · obtain ⟨fields, object, _⟩ := segmented
    exact ⟨fields, object⟩
  · intro path part read defined
    obtain ⟨steps, parsed, rfl⟩ := segmented.follow_of_lookup read
    have canonical := Path.parse_canonical parsed
    rcases Edit.exists_reaches_of_defined assigned canonical defined with
      ⟨w, member, there, q, place, along⟩ | before
    · obtain ⟨p, replied, output⟩ := mem_outputs member
      exact ⟨steps, parsed, p, w.2, replied, there, q, output ▸ place, along.symm⟩
    · obtain ⟨step, steps, rfl⟩ := List.exists_cons_of_ne_nil (Path.parse_ne_nil parsed)
      rw [Value.follow_cons, Value.step_object] at before
      exact absurd (Value.follow_undefined steps) before

/-- An object answers what the replies of its properties come to. The session afterwards is another
when errors are traced. -/
theorem object_of_replies (root : Text) (replied : (replies input all).Answers σ given ρ)
    (written : Edit.assignAll (outputs all given) (.object []) = .ok data) :
    ∃ outcome τ, (object all root input).Answers σ outcome τ ∧
      (outcome.failed = true ↔ ∃ problem, .rejected problem ∈ given) ∧
        (outcome.failed = false → outcome.data = data) := by
  have parsed : (properties root input all (.object []) []).Answers σ
      (data, complaints root all given []) ρ :=
    properties_answers_iff.mpr ⟨given, replied, written, rfl⟩
  have silent : complaints root all given [] = [] ↔ _ :=
    complaints_eq_nil_iff (replies_answers replied)
  obtain ⟨τ, settled⟩ := always_settled (complaints root all given []).isEmpty data
    (.object (complaints root all given []))
    (failures root (complaints root all given []).length "properties") ρ
  refine ⟨_, τ, Run.answers_bind_iff.mpr ⟨_, ρ, parsed, settled⟩, ?_, ?_⟩
  · rw [Outcome.failed_settled_iff, List.isEmpty_eq_false_iff, ne_eq, silent]
    simp
  · intro succeeded
    exact (Outcome.settled_of_succeeded succeeded).2

end Transform

namespace Schema

variable {shape : Shape Schema} {remap : Remap} {all : List (Property Schema)}

theorem outputs_parsers_eq (all : List (Property Schema)) (given : List Reply) :
    Transform.outputs (parsers all) given = Transform.outputs all given := by
  rw [parsers_eq]
  exact Transform.outputs_map fun _ => rfl

/-- The object that a shape and a remap make up parses exactly when its output keys are apart. In any
session, either a property is at fault itself, and then so is the object; or all properties reply, one
after the other, and the object fails if and only if one of them rejects what the input has at its
input key. If it does not fail, its data are exact. -/
theorem object_exact (listed : shape.properties remap = .ok all)
    (apart : (all.map Property.output).Pairwise Path.KeysApart) (root : Text) (input : Value)
    (σ : Session) :
    (∃ p ∈ all, ∃ part ρ fault, input.lookup p.input = .ok part ∧
      (p.node.safeParse part).Faults ρ fault ∧
        (Transform.object (parsers all) root input).Faults σ fault) ∨
    ∃ given ρ outcome τ, (Transform.replies input (parsers all)).Answers σ given ρ ∧
      (Transform.object (parsers all) root input).Answers σ outcome τ ∧
        (outcome.failed = true ↔ ∃ problem, .rejected problem ∈ given) ∧
          (outcome.failed = false → ExactData all given outcome.data) := by
  have proper := Shape.proper_of_properties listed
  have inputs : ∀ p ∈ parsers all, ∃ steps, Path.parse p.input = .ok steps := by
    rw [parsers_eq, List.forall_mem_map]
    exact proper.inputs
  cases run : (Transform.replies input (parsers all)).outcome σ with
  | mk answer ρ =>
    cases answer with
    | error fault =>
      refine .inl ?_
      have refused : (Transform.replies input (parsers all)).Faults σ fault := ⟨ρ, run⟩
      obtain ⟨q, member, part, ρ', read, own⟩ := Transform.replies_faults inputs refused
      rw [parsers_eq] at member
      obtain ⟨p, listed, rfl⟩ := List.mem_map.mp member
      refine ⟨p, listed, part, ρ', fault, read, own, ?_⟩
      have unnested := proper.unnested
      have ordered := Path.ordered_of_apart apart
      rw [← outputs_parsers] at unnested ordered
      exact Run.faults_bind_iff.mpr (.inl (Transform.properties_faults unnested ordered
        (Value.ready_emptyObject unnested.paths) refused))
    | ok given =>
      refine .inr ?_
      have replied : (Transform.replies input (parsers all)).Answers σ given ρ := run
      have parts := Transform.replies_answers replied
      rw [parsers_eq, List.forall₂_map_left_iff] at parts
      obtain ⟨data, written, exact⟩ := Transform.exactData_of_apart parts apart proper.outputs
      rw [← outputs_parsers_eq] at written
      obtain ⟨outcome, τ, answered, fails, succeeds⟩ :=
        Transform.object_of_replies root replied written
      refine ⟨given, ρ, outcome, τ, replied, answered, fails, fun succeeded => ?_⟩
      rw [succeeds succeeded]
      refine exact fun problem rejected => ?_
      rw [fails.mpr ⟨problem, rejected⟩] at succeeded
      cases succeeded

/-- The properties of a contact. -/
def contactProperties : List (Property Schema) :=
  match contact with
  | object _ _ all => all
  | _ => []

theorem object_exact_contact :
    Shape.properties (contactProperties.map fun p => (p.output, p.node))
        [(Text.ofString "email", Text.ofString "address.email"),
          (Text.ofString "lines.0", Text.ofString "address.line")] = .ok contactProperties ∧
      (contactProperties.map Property.output).Pairwise Path.KeysApart ∧
      ∃ given τ, (Transform.object (parsers contactProperties) Transform.defaultRoot
          contactInput).Answers {} (.success contactOutput) τ ∧
        ExactData contactProperties given contactOutput := by
  have listed : Shape.properties (contactProperties.map fun p => (p.output, p.node))
      [(Text.ofString "email", Text.ofString "address.email"),
        (Text.ofString "lines.0", Text.ofString "address.line")] = .ok contactProperties := by cbv
  have apart : (contactProperties.map Property.output).Pairwise Path.KeysApart :=
    contact_outputsApart.here
  have parsed : (Transform.object (parsers contactProperties) Transform.defaultRoot
      contactInput).Answers {} (.success contactOutput) {} := by
    unfold Run.Answers
    cbv
  refine ⟨listed, apart, ?_⟩
  rcases object_exact listed apart Transform.defaultRoot contactInput {} with
    ⟨_, _, _, _, fault, _, _, refused⟩ | ⟨given, _, outcome, τ, _, answered, _, exact⟩
  · exact absurd refused parsed.not_faults
  · obtain ⟨rfl, rfl⟩ := answered.unique parsed
    exact ⟨given, _, answered, exact rfl⟩

end Schema
end Schemata
