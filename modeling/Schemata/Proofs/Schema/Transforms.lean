import Schemata.Proofs.Path.Sequence
import Schemata.Proofs.Schema.Parsing
import Schemata.Proofs.Value.Keyed

/-! What the transforms of containers come to. A transform succeeds exactly when every part is
accepted, and then its output is put together from the parts' outputs, in order. For elements, entries
and properties there are three statements each, as there are for a definition. -/
namespace Schemata

/-- A result under the output key of a property, for what the input has at its input key. -/
def Property.Carries (holds : α → Value → Value → Prop) (input : Value) (p : Property α)
    (w : Text × Value) : Prop :=
  w.1 = p.output ∧ ∃ part, input.lookup p.input = .ok part ∧ holds p.node part w.2

namespace Outcome

variable {silent : Bool} {data errors : Value}

/-- What a container comes to once all parts have replied. -/
def settled (silent : Bool) (data errors : Value) : Outcome :=
  if silent then .success data else .failure errors

theorem failed_settled : (settled silent data errors).failed = !silent := by
  cases silent <;> rfl

theorem failed_settled_iff : (settled silent data errors).failed = true ↔ silent = false := by
  rw [failed_settled, Bool.not_eq_true']

theorem settled_of_succeeded (succeeded : (settled silent data errors).failed = false) :
    silent = true ∧ (settled silent data errors).data = data := by
  rw [failed_settled, Bool.not_eq_false'] at succeeded
  subst succeeded
  exact ⟨rfl, rfl⟩

/-- The errors do not depend on the data. -/
theorem errors_settled (silent : Bool) (data other errors : Value) :
    (settled silent data errors).errors = (settled silent other errors).errors := by
  cases silent <;> rfl

theorem settled_of_failed (failed : (settled silent data errors).failed = true) :
    settled silent data errors = .failure errors := by
  rw [failed_settled_iff.mp failed]
  rfl

end Outcome

namespace Transform

variable {element key value : Parser} {index : Nat} {items results : List Value}
  {input : Value} {outcome : Outcome} {σ τ : Session}

/-- How the transform of a container ends: with the data if nothing failed, and else with the errors
and a line about them. -/
theorem always_settled (silent : Bool) (data errors : Value) (line : Text) :
    (if silent then return .success data
      else do
        Run.trace line
        return .failure errors : Run Outcome).Always (.settled silent data errors) := by
  unfold Outcome.settled
  split
  · exact Run.always_pure
  · exact (Run.always_trace line).bind Run.always_pure

theorem elements_answers (answered : (elements element index items).Answers σ (results, []) τ) :
    List.Forall₂ element.Accepts items results := by
  induction items generalizing index results σ τ with
  | nil =>
    obtain ⟨same, _⟩ := Run.answers_pure_iff.mp answered
    cases same
    exact .nil
  | cons v vs ih =>
    simp only [elements, Run.answers_bind_iff] at answered
    obtain ⟨reply, ρ, first, ⟨others, errors⟩, ρ', rest, answered⟩ := answered
    cases reply with
    | accepted data =>
      obtain ⟨same, _⟩ := Run.answers_pure_iff.mp answered
      cases same
      exact .cons ⟨σ, ρ, first⟩ (ih rest)
    | rejected problem =>
      obtain ⟨same, _⟩ := Run.answers_pure_iff.mp answered
      exact absurd (congrArg Prod.snd same) Fields.insert_ne_nil

theorem elements_always (parts : List.Forall₂ element.Settles items results) :
    (elements element index items).Always (results, []) := by
  induction parts generalizing index with
  | nil => exact Run.always_pure
  | cons first _ ih =>
    unfold elements
    exact first.bind (ih.bind Run.always_pure)

theorem elements_total (answers : ∀ v, (element v).Total) : (elements element index items).Total :=
    by
  induction items generalizing index with
  | nil => exact Run.total_pure
  | cons v vs ih =>
    unfold elements
    refine (answers v).bind fun reply _ _ _ => ih.bind fun found _ _ _ => ?_
    cases reply <;> exact Run.total_pure

section List

variable {kind : Kind} {build : List Value → Value}

theorem list_answers (defined : input.isNullish = false)
    (answered : (list kind build element input).Answers σ outcome τ)
      (succeeded : outcome.failed = false) :
    ∃ items results, input.elements = .ok items ∧ List.Forall₂ element.Accepts items results ∧
      outcome.data = build results := by
  unfold list at answered
  cases input with
  | undefined | null => cases defined
  | array items | set items =>
    simp only [Run.answers_bind_iff] at answered
    obtain ⟨⟨results, errors⟩, ρ, parsed, answered⟩ := answered
    obtain rfl := (always_settled _ _ _ _).unique answered
    obtain ⟨silent, data⟩ := Outcome.settled_of_succeeded succeeded
    obtain rfl : errors = [] := List.isEmpty_iff.mp silent
    exact ⟨items, results, rfl, elements_answers parsed, data⟩
  | _ =>
    obtain ⟨rfl, _⟩ := Run.answers_pure_iff.mp answered
    cases succeeded

theorem list_always (listed : input.elements = .ok items)
    (parts : List.Forall₂ element.Settles items results) :
    (list kind build element input).Always (.success (build results)) := by
  unfold list
  cases input with
  | array | set =>
    cases listed
    exact (elements_always parts).bind Run.always_pure
  | _ => cases listed

theorem list_total (answers : ∀ v, (element v).Total) : (list kind build element input).Total := by
  unfold list
  cases input with
  | array | set =>
    exact (elements_total answers).bind fun _ _ _ _ => (always_settled _ _ _ _).total
  | _ => exact Run.total_pure

end List

section Map

variable {all parsed : List (Value × Value)}

theorem entries_answers (answered : (entries key value all).Answers σ (parsed, []) τ) :
    List.Forall₂ (fun e r => key.Accepts e.1 r.1 ∧ value.Accepts e.2 r.2) all parsed := by
  induction all generalizing parsed σ τ with
  | nil =>
    obtain ⟨same, _⟩ := Run.answers_pure_iff.mp answered
    cases same
    exact .nil
  | cons e rest ih =>
    simp only [entries, Run.answers_bind_iff] at answered
    obtain ⟨keyReply, ρ, first, valueReply, ρ', second, ⟨others, errors⟩, ρ'', remaining,
      answered⟩ := answered
    cases keyReply <;> cases valueReply
    case accepted.accepted =>
      obtain ⟨same, _⟩ := Run.answers_pure_iff.mp answered
      cases same
      exact .cons ⟨⟨_, _, first⟩, _, _, second⟩ (ih remaining)
    all_goals
      obtain ⟨same, _⟩ := Run.answers_pure_iff.mp answered
      cases same

theorem entries_always
    (parts : List.Forall₂ (fun e r => key.Settles e.1 r.1 ∧ value.Settles e.2 r.2) all parsed) :
    (entries key value all).Always (parsed, []) := by
  induction parts with
  | nil => exact Run.always_pure
  | cons first _ ih =>
    unfold entries
    exact first.1.bind (first.2.bind (ih.bind Run.always_pure))

theorem entries_total (keys : ∀ v, (key v).Total) (values : ∀ v, (value v).Total) :
    (entries key value all).Total := by
  induction all with
  | nil => exact Run.total_pure
  | cons e rest ih =>
    unfold entries
    refine (keys e.1).bind fun keyReply _ _ _ => (values e.2).bind fun valueReply _ _ _ =>
      ih.bind fun found _ _ _ => ?_
    cases keyReply <;> cases valueReply <;> exact Run.total_pure

/-- The entries that an input has for a map: those of a map, or those of an object by its keys. -/
def entriesOf : Value → Option (List (Value × Value))
  | .map all => some all
  | .object fields => some (fields.map fun (k, v) => (.string k, v))
  | _ => none

/-- The entries that an input has for a map are of different keys. -/
theorem distinct_entriesOf (once : input.KeysOnce) (listed : entriesOf input = some all) :
    Value.Distinct (all.map Prod.fst) := by
  cases input with
  | map entries =>
    cases listed
    exact once
  | object fields =>
    cases listed
    have distinct := Value.distinct_strings once
    rw [Fields.keys, List.map_map] at distinct
    rw [List.map_map]
    exact distinct
  | _ => cases listed

theorem map_answers (defined : input.isNullish = false)
    (answered : (map key value input).Answers σ outcome τ) (succeeded : outcome.failed = false) :
    ∃ all parsed, entriesOf input = some all ∧
      List.Forall₂ (fun e r => key.Accepts e.1 r.1 ∧ value.Accepts e.2 r.2) all parsed ∧
        outcome.data = Value.ofEntries parsed := by
  unfold map at answered
  cases input with
  | undefined | null => cases defined
  | map all | object fields =>
    simp only [Run.answers_bind_iff] at answered
    obtain ⟨⟨parsed, errors⟩, ρ, found, answered⟩ := answered
    obtain rfl := (always_settled _ _ _ _).unique answered
    obtain ⟨silent, data⟩ := Outcome.settled_of_succeeded succeeded
    obtain rfl : errors = [] := List.isEmpty_iff.mp silent
    exact ⟨_, parsed, rfl, entries_answers found, data⟩
  | _ =>
    obtain ⟨rfl, _⟩ := Run.answers_pure_iff.mp answered
    cases succeeded

theorem map_always (listed : entriesOf input = some all)
    (parts : List.Forall₂ (fun e r => key.Settles e.1 r.1 ∧ value.Settles e.2 r.2) all parsed) :
    (map key value input).Always (.success (Value.ofEntries parsed)) := by
  unfold map
  cases input with
  | map | object =>
    cases listed
    exact (entries_always parts).bind Run.always_pure
  | _ => cases listed

theorem map_total (keys : ∀ v, (key v).Total) (values : ∀ v, (value v).Total) :
    (map key value input).Total := by
  unfold map
  cases input with
  | map | object =>
    exact (entries_total keys values).bind fun _ _ _ _ => (always_settled _ _ _ _).total
  | _ => exact Run.total_pure

end Map

section Object

variable {root : Text} {data after : Value} {all : List (Property Parser)}
  {written : List (Text × Value)} {errors : Fields Value}

theorem properties_answers
    (answered : (properties root input all data errors).Answers σ (after, []) τ) :
    errors = [] ∧ ∃ written, List.Forall₂ (Property.Carries Parser.Accepts input) all written ∧
      Edit.assignAll written data = .ok after := by
  induction all generalizing data errors σ τ with
  | nil =>
    obtain ⟨same, _⟩ := Run.answers_pure_iff.mp answered
    cases same
    exact ⟨rfl, [], .nil, rfl⟩
  | cons p rest ih =>
    simp only [properties, Run.answers_bind_iff, Run.answers_lift_iff] at answered
    obtain ⟨part, _, ⟨found, rfl⟩, reply, ρ, replied, answered⟩ := answered
    split at answered
    · exact absurd (ih answered).1 Fields.insert_ne_nil
    · obtain ⟨none, written, parts, assigned⟩ := ih answered
      exact ⟨none, (p.output, .undefined) :: written, .cons
        ⟨rfl, part, found, _, _, replied⟩ parts, assigned⟩
    · rename_i result defined
      simp only [Run.answers_bind_iff, Run.answers_lift_iff] at answered
      obtain ⟨_, _, ⟨done, rfl⟩, answered⟩ := answered
      obtain ⟨none, written, parts, assigned⟩ := ih answered
      refine ⟨none, (p.output, result) :: written, .cons ⟨rfl, part, found, _, _, replied⟩ parts,
        ?_⟩
      have first : Edit.assign p.output result data =
        (.ok (), (Edit.assign p.output result data).2) := by
        rw [← done]
      rw [Edit.assignAll_cons defined first, assigned]

theorem properties_always (parts : List.Forall₂ (Property.Carries Parser.Settles input) all written)
    (assigned : Edit.assignAll written data = .ok after) :
    (properties root input all data []).Always (after, []) := by
  induction parts generalizing data with
  | nil =>
    cases assigned
    exact Run.always_pure
  | @cons p w rest others first _ ih =>
    obtain ⟨key, result⟩ := w
    obtain ⟨rfl, part, found, settled⟩ := first
    unfold properties
    refine (Run.always_lift found).bind (settled.bind ?_)
    cases result with
    | undefined => exact ih assigned
    | _ =>
      simp only [Edit.assignAll] at assigned
      split at assigned
      · rename_i next done
        simp only [done]
        exact (Run.always_lift rfl).bind (ih assigned)
      · cases assigned

/-- The properties leave no write to fail when the object stays ready for those to come. -/
theorem properties_total (answers : ∀ p ∈ all, ∀ v, (p.node v).Total)
    (inputs : ∀ p ∈ all, ∃ steps, Path.parse p.input = .ok steps)
    (unnested : Shape.Unnested (all.map Property.output))
    (ordered : Path.Ordered (all.map Property.output))
      (ready : data.Ready (all.map Property.output)) :
    (properties root input all data errors).Total := by
  induction all generalizing data errors with
  | nil => exact Run.total_pure
  | cons p rest ih =>
    obtain ⟨first, answers⟩ := List.forall_mem_cons.mp answers
    obtain ⟨⟨steps, parsed⟩, inputs⟩ := List.forall_mem_cons.mp inputs
    have later {next : Value} {errors : Fields Value}
      (ready : next.Ready (rest.map Property.output)) :
        (properties root input rest next errors).Total :=
      ih answers inputs unnested.tail (List.pairwise_cons.mp ordered).2 ready
    obtain ⟨part, found⟩ := Value.lookup_answers input parsed
    unfold properties
    refine (Run.always_lift found).total.bind fun _ _ _ answered => ?_
    refine (first _).bind fun reply _ _ _ => ?_
    split
    · exact later ready.tail
    · exact later ready.tail
    · rename_i result _
      obtain ⟨next, assigned, ready⟩ := ready.assign unnested ordered
      rw [assigned]
      exact (Run.always_lift rfl).total.bind fun _ _ _ _ => later ready

theorem object_answers (answered : (object all root input).Answers σ outcome τ)
    (succeeded : outcome.failed = false) :
    ∃ written, List.Forall₂ (Property.Carries Parser.Accepts input) all written ∧
      Edit.assignAll written (.object []) = .ok outcome.data := by
  simp only [object, Run.answers_bind_iff] at answered
  obtain ⟨⟨after, errors⟩, ρ, found, answered⟩ := answered
  obtain rfl := (always_settled _ _ _ _).unique answered
  obtain ⟨silent, data⟩ := Outcome.settled_of_succeeded succeeded
  obtain rfl : errors = [] := List.isEmpty_iff.mp silent
  rw [data]
  exact (properties_answers found).2

theorem object_always (parts : List.Forall₂ (Property.Carries Parser.Settles input) all written)
    (assigned : Edit.assignAll written (.object []) = .ok after) :
    (object all root input).Always (.success after) := by
  unfold object
  exact (properties_always parts assigned).bind Run.always_pure

theorem object_total (answers : ∀ p ∈ all, ∀ v, (p.node v).Total)
    (inputs : ∀ p ∈ all, ∃ steps, Path.parse p.input = .ok steps)
    (unnested : Shape.Unnested (all.map Property.output))
    (ordered : Path.Ordered (all.map Property.output)) : (object all root input).Total := by
  unfold object
  have ready := Value.ready_emptyObject unnested.paths
  exact (properties_total answers inputs unnested ordered ready).bind
    fun _ _ _ _ => (always_settled _ _ _ _).total

end Object

end Transform
end Schemata
