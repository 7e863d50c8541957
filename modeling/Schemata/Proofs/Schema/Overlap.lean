import Schemata.Proofs.Path.Spelling
import Schemata.Proofs.Schema.Reversal
import Schemata.Proofs.Schema.Totality

/-! Which keys of an object may stand side by side. The output keys of properties that a shape and a
remap make up, and the input keys of properties that can be turned around, are told apart: no key
leads inside the place of another, and two of them lead to one place only if they are different
spellings of it. These are let through, so the later of two properties overwrites the earlier one. -/
namespace Schemata

open Schemata.Path (Separate Respelled)

namespace Shape

variable {keys : List Text}

/-- Two keys of which neither leads inside the place of the other. -/
def Unrelated (key other : Text) : Prop :=
  ∀ p q, Path.parse key = .ok p → Path.parse other = .ok q →
    isInside p q = false ∧ isInside q p = false

theorem Unrelated.of_told {key other : Text} (told : Separate key other ∨ Respelled key other) :
    Unrelated key other := by
  intro p q left right
  rcases told with ⟨p', q', left', right', _, inner, outer⟩ | ⟨_, r, left', right'⟩
  · cases left.symm.trans left'
    cases right.symm.trans right'
    exact ⟨inner, outer⟩
  · cases left.symm.trans left'
    cases right.symm.trans right'
    exact ⟨isInside_self p, isInside_self p⟩

/-- Keys that are different texts and not nested are just the keys that are told apart. -/
theorem nodup_and_unnested_iff : keys.Nodup ∧ Unnested keys ↔
    (∀ key ∈ keys, ∃ steps, Path.parse key = .ok steps) ∧
      keys.Pairwise fun key other => Separate key other ∨ Respelled key other := by
  constructor
  · rintro ⟨distinct, unnested⟩
    refine ⟨unnested.paths, distinct.imp_of_mem fun {key other} here there different => ?_⟩
    obtain ⟨p, left⟩ := unnested.paths key here
    obtain ⟨q, right⟩ := unnested.paths other there
    have inner := unnested.apart key here other there p q left right
    have outer := unnested.apart other there key here q p right left
    by_cases same : p = q
    · subst same
      exact .inr ⟨different, p, left, right⟩
    · exact .inl ⟨p, q, left, right, same, inner, outer⟩
  · rintro ⟨paths, told⟩
    have distinct : keys.Nodup := by
      refine told.imp ?_
      rintro key _ (⟨p, q, left, right, apart, _⟩ | ⟨different, _⟩) rfl
      · exact apart (Except.ok.inj (left.symm.trans right))
      · exact different rfl
    have symmetric : Std.Symm Unrelated :=
      ⟨fun key other unrelated p q left right => (unrelated q p right left).symm⟩
    have itself : ∀ key ∈ keys, Unrelated key key := by
      intro key _ p q left right
      cases left.symm.trans right
      exact ⟨isInside_self p, isInside_self p⟩
    have unrelated := (told.imp Unrelated.of_told).forall_of_forall itself
    refine ⟨distinct, paths, fun outer outside inner inside p q left right => ?_⟩
    exact (unrelated outside inside p q left right).1

end Shape

namespace Schema

variable {shape : Shape Schema} {remap : Remap} {all : List (Property Schema)} {σ τ : Session}
  {reversed : Shape Schema × Remap} {fault : Fault}

theorem reverseOfShape_answers (listed : shape.properties remap = .ok all)
    (answered : (reverseOfShape shape remap).Answers σ reversed τ) :
    (all.map Property.input).Nodup ∧ Shape.Unnested (all.map Property.input) := by
  simp only [reverseOfShape, listed, Run.answers_bind_iff, Run.answers_lift_iff] at answered
  obtain ⟨_, _, ⟨same, rfl⟩, _, _, ⟨checked, rfl⟩, turned, _, nodes, _⟩ := answered
  cases same
  exact ⟨(reverseShape_answers nodes).1, checkInputs_eq_ok_iff.mp checked⟩

theorem reverseOfShape_faults (made : ∀ named ∈ shape, named.2.Made)
    (listed : shape.properties remap = .ok all)
    (refused : (reverseOfShape shape remap).Faults σ fault) : fault.category = .logicError := by
  have proper := Shape.proper_of_properties listed
  obtain ⟨_, rfl⟩ := Shape.properties_eq_ok_iff.mp listed
  simp only [reverseOfShape, listed, Run.faults_bind_iff, Run.faults_lift_iff,
    Run.answers_lift_iff, Run.not_faults_pure, and_false, exists_false, or_false, reduceCtorEq,
    false_or] at refused
  obtain ⟨_, _, ⟨same, rfl⟩, checked | ⟨_, _, ⟨checked, rfl⟩, nodes⟩⟩ := refused
  · cases same
    exact checkInputs_logicError proper.inputs checked
  · cases same
    rcases reverseShape_faults nodes with logic | ⟨p, member, _, node⟩
    · exact logic
    · obtain ⟨named, inShape, rfl⟩ := List.mem_map.mp member
      exact reverse_faults (made named inShape).fitting node

/-- Keys overlap in one way only. The properties that a shape and a remap make up have output keys of
which any two are separate, or spell one place differently with a bracket in one of them; and so do
their input keys if they can be turned around. Where input keys overlap in any other way, turning
the properties around is refused as a wrong use, in every session. -/
theorem overlap_only_respelled (listed : shape.properties remap = .ok all) :
    all.Pairwise (fun p q => Separate p.output q.output ∨
      Respelled p.output q.output ∧ (91 ∈ p.output ∨ 91 ∈ q.output)) ∧
    (∀ σ reversed τ, (reverseOfShape shape remap).Answers σ reversed τ →
      all.Pairwise fun p q => Separate p.input q.input ∨
        Respelled p.input q.input ∧ (91 ∈ p.input ∨ 91 ∈ q.input)) ∧
    ((∀ named ∈ shape, named.2.Made) →
      ¬ all.Pairwise (fun p q => Separate p.input q.input ∨ Respelled p.input q.input) →
        (reverseOfShape shape remap).Refused .logicError) := by
  have bracketed {key other : Text} (told : Separate key other ∨ Respelled key other) :
      Separate key other ∨ Respelled key other ∧ (91 ∈ key ∨ 91 ∈ other) :=
    told.imp_right fun respelled => ⟨respelled, respelled.bracketed⟩
  have inputs {σ reversed τ} (answered : (reverseOfShape shape remap).Answers σ reversed τ) :
      all.Pairwise fun p q => Separate p.input q.input ∨ Respelled p.input q.input :=
    List.pairwise_map.mp (Shape.nodup_and_unnested_iff.mp (reverseOfShape_answers listed answered)).2
  refine ⟨?_, fun σ reversed τ answered => (inputs answered).imp bracketed, ?_⟩
  · have proper := Shape.proper_of_properties listed
    have told := (Shape.nodup_and_unnested_iff.mp ⟨proper.distinct, proper.unnested⟩).2
    exact (List.pairwise_map.mp told).imp bracketed
  · intro made overlapping σ
    cases outcome : (reverseOfShape shape remap).outcome σ with
    | mk answer τ =>
      cases answer with
      | ok reversed => exact absurd (inputs outcome) overlapping
      | error fault =>
        have refused : (reverseOfShape shape remap).Faults σ fault := ⟨τ, outcome⟩
        exact ⟨fault, reverseOfShape_faults made listed refused, refused⟩

/-- Two properties that read one place. -/
def namesakes : List (Property Schema) :=
  [⟨Text.ofString "name", Text.ofString "name", anything⟩,
    ⟨Text.ofString "title", Text.ofString "name", anything⟩]

theorem overlap_only_respelled_namesakes :
    Shape.properties (namesakes.map fun p => (p.output, p.node))
        [(Text.ofString "title", Text.ofString "name")] = .ok namesakes ∧
      namesakes.Pairwise (fun p q => Separate p.output q.output ∨
        Respelled p.output q.output ∧ (91 ∈ p.output ∨ 91 ∈ q.output)) ∧
      (reverseOfShape (namesakes.map fun p => (p.output, p.node))
        [(Text.ofString "title", Text.ofString "name")]).Refused .logicError := by
  have listed : Shape.properties (namesakes.map fun p => (p.output, p.node))
      [(Text.ofString "title", Text.ofString "name")] = .ok namesakes := by cbv
  have made : ∀ named ∈ namesakes.map fun p => (p.output, p.node), named.2.Made := by
    simpa [namesakes] using anything_made
  have overlapping : ¬ namesakes.Pairwise fun p q =>
      Separate p.input q.input ∨ Respelled p.input q.input := by
    intro told
    rcases (List.pairwise_cons.mp told).1 _ List.mem_cons_self with
      ⟨p, q, left, right, apart, _⟩ | ⟨different, _⟩
    · exact apart (Except.ok.inj (left.symm.trans right))
    · exact different rfl
  exact ⟨listed, (overlap_only_respelled listed).1, (overlap_only_respelled listed).2.2 made
    overlapping⟩

/-- An index with and without brackets. -/
def indexSpellings : List Text := [Text.ofString "a.0", Text.ofString "a[0]"]

/-- Two spellings of one place pass for the keys that properties write and for those they read. -/
theorem respelled_not_refused :
    (∃ all, Shape.properties (indexSpellings.map fun name => (name, anything)) [] = .ok all ∧
      ¬ all.Pairwise fun p q => Separate p.output q.output) ∧
    ∃ all reversed,
      Shape.properties [(Text.ofString "x", anything), (Text.ofString "y", anything)]
        [(Text.ofString "x", Text.ofString "a.0"), (Text.ofString "y", Text.ofString "a[0]")] =
          .ok all ∧
      (reverseOfShape [(Text.ofString "x", anything), (Text.ofString "y", anything)]
        [(Text.ofString "x", Text.ofString "a.0"),
          (Text.ofString "y", Text.ofString "a[0]")]).Answers {} reversed {} ∧
      ¬ all.Pairwise fun p q => Separate p.input q.input := by
  have dotted : Path.parse (Text.ofString "a.0") = .ok [.key (Text.ofString "a"), .index 0] := by cbv
  have bracketed : Path.parse (Text.ofString "a[0]") = .ok [.key (Text.ofString "a"), .index 0] := by
    cbv
  have overlapping : ¬ Separate (Text.ofString "a.0") (Text.ofString "a[0]") := by
    rintro ⟨p, q, left, right, apart, _⟩
    cases left.symm.trans dotted
    cases right.symm.trans bracketed
    exact apart rfl
  constructor
  · refine ⟨indexSpellings.map fun name => ⟨name, name, anything⟩, by cbv, fun separate => ?_⟩
    exact overlapping ((List.pairwise_cons.mp separate).1 _ List.mem_cons_self)
  · refine ⟨[⟨Text.ofString "x", Text.ofString "a.0", anything⟩,
      ⟨Text.ofString "y", Text.ofString "a[0]", anything⟩],
      ([(Text.ofString "a.0", anything), (Text.ofString "a[0]", anything)],
        [(Text.ofString "a.0", Text.ofString "x"), (Text.ofString "a[0]", Text.ofString "y")]),
      by cbv, ?_, fun separate => ?_⟩
    · unfold Run.Answers
      cbv
    · exact overlapping ((List.pairwise_cons.mp separate).1 _ List.mem_cons_self)

end Schema
end Schemata
