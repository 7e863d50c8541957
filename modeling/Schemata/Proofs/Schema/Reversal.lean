import Schemata.Schema.Reverse
import Schemata.Proofs.Lists
import Schemata.Proofs.Schema.Making

/-! What reversing answers. The reverse of an object turns each property around and reverses its
node; reversing it again turns the properties back, so reversing twice gives the schema itself. A
schema that can be made is only ever refused its reverse because two properties read one place or a
place inside another. -/
namespace Schemata

/-- A property that reads where another writes and writes where it reads, with a node related to the
other's. -/
structure Property.Turned (related : α → β → Prop) (p : Property α) (q : Property β) : Prop where
  output : q.output = p.input
  input : q.input = p.output
  node : related p.node q.node

namespace Schema

variable {d : Definition} {o : Option Transform} {s r : Schema} {σ τ : Session} {fault : Fault}

/-- In some session the reverse of `s` is `r`. -/
def ReversesTo (s r : Schema) : Prop := ∃ σ τ, (reverse s).Answers σ r τ

/-- The remap with the output key of a property under its input key, where they differ. -/
def remapBack (remap : Remap) (p : Property α) : Remap :=
  if p.input = p.output then remap else Fields.insert p.input p.output remap

theorem mem_keys_remapBack {p : Property α} {remap : Remap} {key : Text}
    (present : key ∈ Fields.keys (remapBack remap p)) :
    key = p.input ∨ key ∈ Fields.keys remap := by
  unfold remapBack at present
  split at present
  · exact .inr present
  · exact Fields.mem_keys_of_mem_insert present

theorem mem_keys_foldl_remapBack {all : List (Property α)} {remap : Remap} {key : Text}
    (present : key ∈ Fields.keys (all.foldl remapBack remap)) :
    key ∈ all.map Property.input ∨ key ∈ Fields.keys remap := by
  induction all generalizing remap with
  | nil => exact .inr present
  | cons p rest ih =>
    rcases ih present with later | before
    · exact .inl (List.mem_cons_of_mem _ later)
    · rcases mem_keys_remapBack before with rfl | old
      · exact .inl List.mem_cons_self
      · exact .inr old

theorem find?_foldl_remapBack {all : List (Property α)} {remap : Remap} {key : Text}
    (absent : key ∉ all.map Property.input) :
    Fields.find? key (all.foldl remapBack remap) = Fields.find? key remap := by
  induction all generalizing remap with
  | nil => rfl
  | cons p rest ih =>
    simp only [List.map_cons, List.mem_cons, not_or] at absent
    rw [List.foldl_cons, ih absent.2, remapBack]
    split
    · rfl
    · exact Fields.find?_insert_of_ne absent.1

/-- The reversed remap leads from the input key of a property back to its output key. -/
theorem inputKey_reverseRemap {all : List (Property α)} {p : Property α}
    (distinct : (all.map Property.input).Nodup) (member : p ∈ all) :
    Shape.inputKey (reverseRemap all) p.input = p.output := by
  have general : ∀ remap : Remap, p.input ∉ Fields.keys remap →
      (Fields.find? p.input (all.foldl remapBack remap)).getD p.input = p.output := by
    induction all with
    | nil => cases member
    | cons first rest ih =>
      intro remap fresh
      obtain ⟨once, distinct⟩ := List.nodup_cons.mp distinct
      rw [List.foldl_cons]
      rcases List.mem_cons.mp member with rfl | later
      · rw [find?_foldl_remapBack once, remapBack]
        split
        · rename_i same
          rw [Fields.find?_eq_none_of_not_mem fresh]
          exact same
        · rw [Fields.find?_insert_self]
          rfl
      · refine ih distinct later _ fun present => ?_
        rcases mem_keys_remapBack present with same | old
        · exact once (same ▸ List.mem_map_of_mem later)
        · exact fresh old
  exact general [] (by simp [Fields.keys])

/-- Nodes named by the input keys make up properties with the reversed remap. -/
theorem properties_reverseRemap {all : List (Property α)} {shape : Shape β}
    (names : shape.map Prod.fst = all.map Property.input)
    (distinct : (all.map Property.input).Nodup) (unnested : Shape.Unnested (all.map Property.input))
    (outputs : ∀ p ∈ all, ∃ steps, Path.parse p.output = .ok steps) :
    shape.properties (reverseRemap all) = .ok (shape.map (Shape.property (reverseRemap all))) := by
  refine Shape.properties_eq_ok_iff.mpr ⟨⟨names ▸ distinct, fun key present => ?_, names ▸ unnested,
    fun q member => ?_⟩, rfl⟩
  · rcases mem_keys_foldl_remapBack present with known | old
    · exact names ▸ known
    · cases old
  · obtain ⟨named, listed, rfl⟩ := List.mem_map.mp member
    have known : named.1 ∈ all.map Property.input := names ▸ List.mem_map_of_mem listed
    obtain ⟨p, member, same⟩ := List.mem_map.mp known
    rw [Shape.property, ← same, inputKey_reverseRemap distinct member]
    exact outputs p member

theorem turned_property {related : α → β → Prop} {all : List (Property α)} {shape : Shape β}
    (distinct : (all.map Property.input).Nodup)
    (parts : List.Forall₂ (fun p named => named.1 = p.input ∧ related p.node named.2) all shape) :
    List.Forall₂ (Property.Turned related) all
      (shape.map (Shape.property (reverseRemap all))) := by
  rw [List.forall₂_map_right_iff]
  have listed := (List.forall₂_and_left all shape).mpr ⟨fun p member => member, parts⟩
  refine listed.imp fun p named => ?_
  rintro ⟨member, name, node⟩
  refine ⟨name, ?_, node⟩
  rw [Shape.property, name, inputKey_reverseRemap distinct member]

theorem checkInputs_eq_ok_iff {all : List (Property α)} :
    checkInputs all = .ok () ↔ Shape.Unnested (all.map Property.input) := by
  rw [← Shape.nestedKeys?_eq_none_iff]
  simp only [checkInputs, bind_eq_ok_iff]
  constructor
  · rintro ⟨nested, checked, answered⟩
    cases nested with
    | none => exact checked
    | some pair => cases answered
  · exact fun checked => ⟨none, checked, rfl⟩

theorem reverseShape_answers {seen : List Text} {all : List (Property Schema)}
    {shape : Shape Schema} (answered : (reverseShape seen all).Answers σ shape τ) :
    (all.map Property.input).Nodup ∧ (∀ p ∈ all, p.input ∉ seen) ∧
      List.Forall₂ (fun p named => named.1 = p.input ∧ p.node.ReversesTo named.2) all shape := by
  induction all generalizing seen shape σ with
  | nil =>
    obtain ⟨rfl, _⟩ := Run.answers_pure_iff.mp answered
    exact ⟨.nil, by simp, .nil⟩
  | cons p rest ih =>
    unfold reverseShape at answered
    split at answered
    · simp at answered
    · rename_i fresh
      simp only [Run.answers_bind_iff, Run.answers_pure_iff] at answered
      obtain ⟨node, ρ, reversed, others, _, answered, rfl, rfl⟩ := answered
      obtain ⟨distinct, unseen, parts⟩ := ih answered
      simp only [List.contains_iff_mem] at fresh
      refine ⟨List.nodup_cons.mpr ⟨fun again => ?_, distinct⟩, ?_,
        .cons ⟨rfl, _, _, reversed⟩ parts⟩
      · obtain ⟨q, member, same⟩ := List.mem_map.mp again
        exact unseen q member (by simp [same])
      · refine List.forall_mem_cons.mpr ⟨fresh, fun q member known => ?_⟩
        exact unseen q member (List.mem_cons_of_mem _ known)

theorem reverseShape_always {seen : List Text} {all targets : List (Property Schema)}
    (distinct : (all.map Property.input).Nodup) (unseen : ∀ p ∈ all, p.input ∉ seen)
    (parts : List.Forall₂ (Property.Turned fun a b => (reverse a).Always b) all targets) :
    (reverseShape seen all).Always (targets.map fun q => (q.output, q.node)) := by
  induction parts generalizing seen with
  | nil => exact Run.always_pure
  | @cons p q rest others part _ ih =>
    obtain ⟨once, distinct⟩ := List.nodup_cons.mp distinct
    obtain ⟨fresh, unseen⟩ := List.forall_mem_cons.mp unseen
    have later : ∀ other ∈ rest, other.input ∉ p.input :: seen := by
      intro other member
      simp only [List.mem_cons, not_or]
      exact ⟨fun same => once (same ▸ List.mem_map_of_mem member), unseen other member⟩
    unfold reverseShape
    rw [if_neg (by simpa using fresh)]
    refine part.node.bind ((ih distinct later).bind ?_)
    rw [List.map_cons, part.output]
    exact Run.always_pure

theorem reversesTo_leaf (reversed : ReversesTo (leaf d o) r) : r = leaf d o := by
  obtain ⟨σ, τ, answered⟩ := reversed
  simp only [reverse, Run.answers_bind_iff, Run.answers_pure_iff] at answered
  obtain ⟨_, _, _, same, _⟩ := answered
  exact same.symm

theorem reversesTo_array (reversed : ReversesTo (array d o s) r) :
    ∃ target, s.ReversesTo target ∧ r = array d none target := by
  obtain ⟨σ, τ, answered⟩ := reversed
  simp only [reverse, Run.answers_bind_iff, Run.answers_pure_iff] at answered
  obtain ⟨_, _, _, target, _, element, rfl, _⟩ := answered
  exact ⟨target, ⟨_, _, element⟩, rfl⟩

theorem reversesTo_set (reversed : ReversesTo (set d o s) r) :
    ∃ target, s.ReversesTo target ∧ r = set d none target := by
  obtain ⟨σ, τ, answered⟩ := reversed
  simp only [reverse, Run.answers_bind_iff, Run.answers_pure_iff] at answered
  obtain ⟨_, _, _, target, _, element, rfl, _⟩ := answered
  exact ⟨target, ⟨_, _, element⟩, rfl⟩

theorem reversesTo_map {key : Schema} (reversed : ReversesTo (map d o key s) r) :
    ∃ target, s.ReversesTo target ∧ r = map d none key target := by
  obtain ⟨σ, τ, answered⟩ := reversed
  simp only [reverse, Run.answers_bind_iff, Run.answers_pure_iff] at answered
  obtain ⟨_, _, _, target, _, value, rfl, _⟩ := answered
  exact ⟨target, ⟨_, _, value⟩, rfl⟩

theorem reversesTo_object {all : List (Property Schema)}
    (paths : ∀ p ∈ all, ∃ steps, Path.parse p.output = .ok steps)
    (reversed : ReversesTo (object d o all) r) :
    ∃ targets, r = object (reverseDefinition d) none targets ∧
      (all.map Property.input).Nodup ∧ Shape.Unnested (all.map Property.input) ∧
      List.Forall₂ (Property.Turned ReversesTo) all targets := by
  obtain ⟨σ, τ, answered⟩ := reversed
  simp only [reverse, Run.answers_bind_iff, Run.answers_lift_iff] at answered
  obtain ⟨_, _, _, _, _, ⟨checked, rfl⟩, shape, _, reversed, made, rfl⟩ := answered
  have unnested := checkInputs_eq_ok_iff.mp checked
  obtain ⟨distinct, _, parts⟩ := reverseShape_answers reversed
  have names : shape.map Prod.fst = all.map Property.input :=
    map_eq_map_of_forall₂ (parts.imp fun _ _ part => part.1)
  rw [objectWith, properties_reverseRemap names distinct unnested paths] at made
  cases made
  exact ⟨_, rfl, distinct, unnested, turned_property distinct parts⟩

theorem reverse_object_always {all targets : List (Property Schema)}
    (paths : ∀ p ∈ all, ∃ steps, Path.parse p.output = .ok steps)
    (distinct : (all.map Property.input).Nodup) (unnested : Shape.Unnested (all.map Property.input))
    (parts : List.Forall₂ (Property.Turned fun a b => (reverse a).Always b) all targets) :
    (reverse (object d o all)).Always (object (reverseDefinition d) none targets) := by
  unfold reverse
  refine (Run.always_trace _).bind ((Run.always_lift (checkInputs_eq_ok_iff.mpr unnested)).bind
    ((reverseShape_always distinct (by simp) parts).bind (Run.always_lift ?_)))
  have names : (targets.map fun q => (q.output, q.node)).map Prod.fst = all.map Property.input := by
    rw [List.map_map]
    exact map_eq_map_of_forall₂ (parts.imp fun _ _ part => part.output)
  have same : ∀ q ∈ targets, Shape.property (reverseRemap all) (q.output, q.node) = q := by
    intro q member
    obtain ⟨p, listed, part⟩ := exists_related_left parts member
    rw [Shape.property, part.output, inputKey_reverseRemap distinct listed, ← part.output,
      ← part.input]
  rw [objectWith, properties_reverseRemap names distinct unnested paths, List.map_map]
  exact congrArg (fun turned => Except.ok (object (reverseDefinition d) none turned))
    ((List.map_congr_left same).trans (List.map_id targets))

/-- An object without rules; nodes of other forms may carry any. -/
def RuleFree : Schema → Prop
  | object d _ _ => d.constraint.rules = []
  | _ => True

theorem reverseDefinition_self (fits : d.Fits .object none) (free : d.constraint.rules = []) :
    reverseDefinition d = d := by
  obtain ⟨⟨expected, convert, rules, allowsNull, allowsUndefined⟩, coercion, description⟩ := d
  obtain ⟨⟨expects, _, _, standard, flags⟩, _⟩ := fits
  cases standard (by decide)
  cases free
  cases expected with
  | predicate => cases expects
  | kind kind =>
    cases expects
    cases allowsUndefined with
    | true => cases flags rfl; rfl
    | false => cases allowsNull <;> rfl

/-- Reversed twice, a schema without rules on its objects is itself again. -/
theorem reverse_of_reverse (everywhere : Everywhere (fun s => Fitting s ∧ RuleFree s) s)
    (reversed : s.ReversesTo r) : (reverse r).Always s := by
  induction everywhere generalizing r with
  | leaf =>
    obtain rfl := reversesTo_leaf reversed
    unfold reverse
    exact (Run.always_trace _).bind Run.always_pure
  | array here _ ih =>
    obtain ⟨target, element, rfl⟩ := reversesTo_array reversed
    unfold reverse
    rw [here.1.1]
    exact (Run.always_trace _).bind ((ih element).bind Run.always_pure)
  | set here _ ih =>
    obtain ⟨target, element, rfl⟩ := reversesTo_set reversed
    unfold reverse
    rw [here.1.1]
    exact (Run.always_trace _).bind ((ih element).bind Run.always_pure)
  | map here _ _ _ ih =>
    obtain ⟨target, value, rfl⟩ := reversesTo_map reversed
    unfold reverse
    rw [here.1.1]
    exact (Run.always_trace _).bind ((ih value).bind Run.always_pure)
  | object here _ ih =>
    rename_i d o all _
    obtain ⟨⟨rfl, fits, shape, remap, accepted⟩, free⟩ := here
    have proper := Shape.proper_of_properties accepted
    obtain ⟨targets, rfl, distinct, unnested, parts⟩ := reversesTo_object proper.outputs reversed
    have listed := (List.forall₂_and_left all targets).mpr ⟨fun p member => member, parts⟩
    have inputs : targets.map Property.input = all.map Property.output :=
      map_eq_map_of_forall₂ (parts.imp fun _ _ part => part.input)
    have paths : ∀ q ∈ targets, ∃ steps, Path.parse q.output = .ok steps := by
      intro q member
      obtain ⟨p, found, part⟩ := exists_related_left parts member
      exact part.output ▸ proper.inputs p found
    have back : List.Forall₂ (Property.Turned fun a b => (reverse a).Always b) targets all := by
      refine List.Forall₂.flip (listed.imp ?_)
      rintro p q ⟨member, part⟩
      exact ⟨part.input.symm, part.output.symm, ih p member part.node⟩
    have same := reverseDefinition_self fits free
    have answered := reverse_object_always (d := d) (o := none) paths (inputs ▸ proper.distinct)
      (inputs ▸ proper.unnested) back
    rwa [same] at answered ⊢

theorem checkInputs_logicError {all : List (Property α)}
    (paths : ∀ p ∈ all, ∃ steps, Path.parse p.input = .ok steps)
    (refused : checkInputs all = .error fault) : fault.category = .logicError := by
  have keys : ∀ key ∈ all.map Property.input, ∃ steps, Path.parse key = .ok steps := by
    intro key listed
    obtain ⟨p, member, rfl⟩ := List.mem_map.mp listed
    exact paths p member
  obtain ⟨parsed, read⟩ := Shape.parsePaths_exists keys
  simp only [checkInputs, Shape.nestedKeys?, read, Except.map] at refused
  cases nested : Shape.firstNested? parsed with
  | none =>
    rw [nested] at refused
    cases refused
  | some pair =>
    rw [nested] at refused
    cases refused
    rfl

theorem reverseShape_faults {seen : List Text} {all : List (Property Schema)}
    (refused : (reverseShape seen all).Faults σ fault) :
    fault.category = .logicError ∨ ∃ p ∈ all, ∃ ρ, (reverse p.node).Faults ρ fault := by
  induction all generalizing seen σ with
  | nil => exact absurd refused Run.not_faults_pure
  | cons p rest ih =>
    unfold reverseShape at refused
    split at refused
    · simp only [Run.faults_bind_iff, Run.faults_throw_iff, Run.not_answers_throw, false_and,
        exists_false, or_false] at refused
      subst refused
      exact .inl rfl
    · simp only [Run.faults_bind_iff, Run.not_faults_pure, and_false, exists_false,
        or_false] at refused
      rcases refused with node | ⟨_, _, _, others⟩
      · exact .inr ⟨p, List.mem_cons_self, _, node⟩
      · rcases ih others with logic | ⟨q, member, reversed⟩
        · exact .inl logic
        · exact .inr ⟨q, List.mem_cons_of_mem p member, reversed⟩

/-- A schema that can be made is refused its reverse for no other reason than what its properties
read. -/
theorem reverse_faults (everywhere : Everywhere Fitting s) (refused : (reverse s).Faults σ fault) :
    fault.category = .logicError := by
  induction everywhere generalizing σ with
  | leaf =>
    simp only [reverse, Run.faults_bind_iff, Run.not_faults_trace, Run.not_faults_pure, false_or,
      and_false, exists_false] at refused
  | array _ _ ih | set _ _ ih | map _ _ _ _ ih =>
    simp only [reverse, Run.faults_bind_iff, Run.not_faults_trace, Run.not_faults_pure, false_or,
      and_false, exists_false, or_false] at refused
    obtain ⟨_, _, _, element⟩ := refused
    exact ih element
  | object here _ ih =>
    obtain ⟨_, _, shape, remap, accepted⟩ := here
    have proper := Shape.proper_of_properties accepted
    simp only [reverse, Run.faults_bind_iff, Run.not_faults_trace, Run.faults_lift_iff,
      Run.answers_lift_iff, false_or] at refused
    obtain ⟨_, _, _, checked | ⟨_, _, ⟨checked, rfl⟩, reversed | ⟨shape', _, answered, made⟩⟩⟩ :=
      refused
    · exact checkInputs_logicError proper.inputs checked
    · rcases reverseShape_faults reversed with logic | ⟨p, member, _, node⟩
      · exact logic
      · exact ih p member node
    · obtain ⟨distinct, _, parts⟩ := reverseShape_answers answered
      have names := map_eq_map_of_forall₂ (parts.imp fun _ _ part => part.1)
      rw [objectWith, properties_reverseRemap names distinct (checkInputs_eq_ok_iff.mp checked)
        proper.outputs] at made
      cases made

/-- Reversing is an involution. Of a schema that can be made, no more than an ambiguous read stands
against a reverse; and if its objects carry no rules, the reverse can itself be reversed, in every
session, into a schema that replies to every input as the first one does. -/
theorem reverse_involutive (made : s.Made) :
    (∀ σ fault, (reverse s).Faults σ fault → fault.category = .logicError) ∧
      (Everywhere RuleFree s → ∀ σ r τ, (reverse s).Answers σ r τ →
        ∃ back, (reverse r).Always back ∧
          ∀ v ρ, (back.safeParse v).outcome ρ = (s.safeParse v).outcome ρ) := by
  constructor
  · intro σ fault refused
    exact reverse_faults made.fitting refused
  · intro free σ r τ answered
    exact ⟨s, reverse_of_reverse (made.fitting.and free) ⟨σ, τ, answered⟩, fun _ _ => rfl⟩

/-- The reverse of a contact writes what the contact reads. -/
def contactReverse : Schema :=
  let plain (c : Constraint) : Definition := ⟨c, none, none⟩
  object (plain (.ofKind .object)) none
    [⟨Text.ofString "address.email", Text.ofString "email", leaf (plain (.ofKind .string)) none⟩,
      ⟨Text.ofString "address.line", Text.ofString "lines.0",
        leaf (plain (Constraint.ofKind .string).nullish) none⟩,
      ⟨Text.ofString "codes", Text.ofString "codes",
        set ⟨.ofKind .set, some .set, none⟩ none (leaf ⟨.ofKind .number, some .number, none⟩ none)⟩]

theorem contact_reverse : (reverse contact).Answers {} contactReverse {} := by
  unfold Run.Answers
  cbv

theorem contact_ruleFree : Everywhere RuleFree contact := by
  refine .object rfl ?_
  simp only [List.forall_mem_cons, List.not_mem_nil, false_imp_iff, implies_true, and_true]
  exact ⟨.leaf trivial, .leaf trivial, .set trivial (.leaf trivial)⟩

theorem reverse_involutive_contact : contact.Made ∧ Everywhere RuleFree contact ∧
    (reverse contact).Answers {} contactReverse {} ∧
      ∃ back, (reverse contactReverse).Always back ∧
        ∀ v ρ, (back.safeParse v).outcome ρ = (contact.safeParse v).outcome ρ :=
  ⟨contact_made, contact_ruleFree, contact_reverse,
    (reverse_involutive contact_made).2 contact_ruleFree _ _ _ contact_reverse⟩

end Schema
end Schemata
