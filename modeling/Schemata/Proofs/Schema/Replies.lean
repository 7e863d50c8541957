import Schemata.Proofs.Path.Extent
import Schemata.Proofs.Schema.Transforms

/-! What an object makes of the replies of its properties. The parsers of the properties run one after
the other, whatever the earlier ones replied; the outputs of those that accepted are written, and the
errors of the others are kept under their input keys. The main statement takes the two apart. -/
namespace Schemata

/-- In some session the property replies so to what the input has at its input key. -/
def Property.Replies (input : Value) (p : Property Parser) (reply : Reply) : Prop :=
  ∃ part, input.lookup p.input = .ok part ∧ ∃ σ τ, (p.node part).Answers σ reply τ

namespace Transform

/-- The replies of the properties, one after the other. -/
def replies (input : Value) : List (Property Parser) → Run (List Reply)
  | [] => return []
  | p :: rest => do
    let part ← Run.lift (input.lookup p.input)
    let reply ← p.node part
    return reply :: (← replies input rest)

/-- What is written where. -/
def outputs : List (Property α) → List Reply → List (Text × Value)
  | p :: all, .accepted result :: replies => (p.output, result) :: outputs all replies
  | _ :: all, .rejected _ :: replies => outputs all replies
  | _, _ => []

/-- The errors that are kept, on top of earlier ones. -/
def complaints (root : Text) : List (Property α) → List Reply → Fields Value → Fields Value
  | p :: all, .rejected problem :: replies, errors =>
    complaints root all replies (Fields.insert (root ++ 46 :: p.input) problem errors)
  | _ :: all, .accepted _ :: replies, errors => complaints root all replies errors
  | _, _, errors => errors

variable {root : Text} {input data after : Value} {all : List (Property Parser)}
  {given : List Reply} {errors failed : Fields Value} {σ τ : Session} {fault : Fault}

theorem replies_answers (answered : (replies input all).Answers σ given τ) :
    List.Forall₂ (Property.Replies input) all given := by
  induction all generalizing given σ with
  | nil =>
    obtain ⟨rfl, _⟩ := Run.answers_pure_iff.mp answered
    exact .nil
  | cons p rest ih =>
    simp only [replies, Run.answers_bind_iff, Run.answers_lift_iff, Run.answers_pure_iff] at answered
    obtain ⟨part, _, ⟨found, rfl⟩, reply, ρ, first, others, _, remaining, rfl, rfl⟩ := answered
    exact .cons ⟨part, found, _, _, first⟩ (ih remaining)

theorem replies_faults (inputs : ∀ p ∈ all, ∃ steps, Path.parse p.input = .ok steps)
    (refused : (replies input all).Faults σ fault) :
    ∃ p ∈ all, ∃ part ρ, input.lookup p.input = .ok part ∧ (p.node part).Faults ρ fault := by
  induction all generalizing σ with
  | nil => exact absurd refused Run.not_faults_pure
  | cons p rest ih =>
    obtain ⟨⟨steps, parsed⟩, inputs⟩ := List.forall_mem_cons.mp inputs
    obtain ⟨part, found⟩ := Value.lookup_answers input parsed
    simp only [replies, found, Run.faults_bind_iff, Run.faults_lift_iff, Run.answers_lift_iff,
      Run.not_faults_pure, and_false, exists_false, or_false, reduceCtorEq, false_or,
      Except.ok.injEq] at refused
    obtain ⟨_, _, ⟨rfl, rfl⟩, first | ⟨_, _, _, later⟩⟩ := refused
    · exact ⟨p, List.mem_cons_self, part, _, found, first⟩
    · obtain ⟨q, member, found⟩ := ih inputs later
      exact ⟨q, List.mem_cons_of_mem p member, found⟩

/-- One property at a time: its reply decides what is written and what is kept. -/
theorem properties_cons (p : Property Parser) (rest : List (Property Parser)) :
    properties root input (p :: rest) data errors = (do
      let part ← Run.lift (input.lookup p.input)
      let reply ← p.node part
      let next ← Run.lift (Edit.assignAll (outputs [p] [reply]) data)
      properties root input rest next (complaints root [p] [reply] errors)) := by
  rw [properties]
  congr 1
  funext part
  congr 1
  funext reply
  cases reply with
  | rejected problem => rfl
  | accepted result =>
    by_cases omitted : result = .undefined
    · subst omitted
      rfl
    · simp only [outputs, complaints]
      cases written : Edit.assign p.output result data with
      | mk answer next =>
        cases answer with
        | ok =>
          rw [Edit.assignAll_cons omitted written]
          cases result <;> first | exact absurd rfl omitted | rfl
        | error fault =>
          rw [Edit.assignAll_cons_error omitted written]
          cases result <;> first | exact absurd rfl omitted | rfl

theorem outputs_cons (p : Property α) (rest : List (Property α)) (reply : Reply) :
    outputs (p :: rest) (reply :: given) = outputs [p] [reply] ++ outputs rest given := by
  cases reply <;> rfl

theorem outputs_sublist (all : List (Property α)) (given : List Reply) :
    ((outputs all given).map Prod.fst).Sublist (all.map Property.output) := by
  induction all generalizing given with
  | nil => exact .slnil
  | cons p rest ih =>
    match given with
    | [] => exact List.nil_sublist _
    | .rejected _ :: given => exact (ih given).cons _
    | .accepted _ :: given => exact (ih given).cons_cons _

/-- What is written depends on the output keys of the properties and not on their nodes. -/
theorem outputs_map {all : List (Property α)} {f : Property α → Property β}
    (outputs_eq : ∀ p, (f p).output = p.output) : outputs (all.map f) given = outputs all given := by
  induction all generalizing given with
  | nil => rfl
  | cons p rest ih =>
    match given with
    | [] => rfl
    | .rejected _ :: given => exact ih
    | .accepted _ :: given =>
      simp only [List.map_cons, outputs, outputs_eq, ih]

theorem mem_outputs {all : List (Property α)} {w : Text × Value} (member : w ∈ outputs all given) :
    ∃ p, (p, .accepted w.2) ∈ all.zip given ∧ p.output = w.1 := by
  induction all generalizing given with
  | nil => cases member
  | cons p rest ih =>
    match given with
    | [] => cases member
    | .rejected _ :: given =>
      obtain ⟨q, later, output⟩ := ih member
      exact ⟨q, List.mem_cons_of_mem _ later, output⟩
    | .accepted _ :: given =>
      rcases List.mem_cons.mp member with rfl | member
      · exact ⟨p, List.mem_cons_self, rfl⟩
      · obtain ⟨q, later, output⟩ := ih member
        exact ⟨q, List.mem_cons_of_mem _ later, output⟩

/-- Where nothing is rejected, all there is is written. -/
theorem forall_outputs {holds : Text × Value → Prop} {replied : Property α → Reply → Prop}
    {all : List (Property α)} (parts : List.Forall₂ replied all given)
    (silent : ∀ problem, .rejected problem ∉ given) (written : ∀ w ∈ outputs all given, holds w) :
    List.Forall₂ (fun p reply => ∃ result, reply = .accepted result ∧ holds (p.output, result))
      all given := by
  induction parts with
  | nil => exact .nil
  | @cons p reply rest given _ _ ih =>
    have later : ∀ problem, .rejected problem ∉ given :=
      fun problem member => silent problem (List.mem_cons_of_mem _ member)
    cases reply with
    | rejected problem => exact absurd List.mem_cons_self (silent problem)
    | accepted result =>
      obtain ⟨first, written⟩ := List.forall_mem_cons.mp written
      exact .cons ⟨result, rfl, first⟩ (ih later written)

theorem complaints_cons (p : Property α) (rest : List (Property α)) (reply : Reply) :
    complaints root (p :: rest) (reply :: given) errors =
      complaints root rest given (complaints root [p] [reply] errors) := by
  cases reply <;> rfl

/-- What is kept depends on their input keys alone. -/
theorem complaints_map {all : List (Property α)} {f : Property α → Property β}
    (inputs_eq : ∀ p, (f p).input = p.input) :
    complaints root (all.map f) given errors = complaints root all given errors := by
  induction all generalizing given errors with
  | nil => rfl
  | cons p rest ih =>
    match given with
    | [] => rfl
    | .accepted _ :: given => exact ih
    | .rejected _ :: given =>
      simp only [List.map_cons, complaints, inputs_eq]
      exact ih

theorem complaints_eq_nil_iff {replied : Property α → Reply → Prop} {all : List (Property α)}
    (parts : List.Forall₂ replied all given) :
    complaints root all given errors = [] ↔ errors = [] ∧ ∀ problem, .rejected problem ∉ given := by
  induction parts generalizing errors with
  | nil => simp [complaints]
  | @cons p reply rest given _ _ ih =>
    cases reply with
    | rejected problem =>
      simp only [complaints, ih, Fields.insert_ne_nil, false_and, false_iff, not_and]
      exact fun _ silent => silent problem List.mem_cons_self
    | accepted result => simp [complaints, ih]

/-- The properties are parsed exactly when all reply and the outputs can be written. -/
theorem properties_answers_iff :
    (properties root input all data errors).Answers σ (after, failed) τ ↔
      ∃ given, (replies input all).Answers σ given τ ∧
        Edit.assignAll (outputs all given) data = .ok after ∧
          failed = complaints root all given errors := by
  induction all generalizing data errors σ with
  | nil =>
    simp only [properties, replies, Run.answers_pure_iff, Prod.mk.injEq]
    constructor
    · rintro ⟨⟨rfl, rfl⟩, rfl⟩
      exact ⟨[], ⟨rfl, rfl⟩, rfl, rfl⟩
    · rintro ⟨_, ⟨rfl, rfl⟩, written, rfl⟩
      cases written
      exact ⟨⟨rfl, rfl⟩, rfl⟩
  | cons p rest ih =>
    simp only [properties_cons, replies, Run.answers_bind_iff, Run.answers_lift_iff,
      Run.answers_pure_iff, ih]
    constructor
    · rintro ⟨part, _, ⟨found, rfl⟩, reply, ρ, replied, next, _, ⟨first, rfl⟩, given, others,
        written, rfl⟩
      refine ⟨_, ⟨part, _, ⟨found, rfl⟩, reply, ρ, replied, given, _, others, rfl, rfl⟩, ?_,
        (complaints_cons p rest reply).symm⟩
      rw [outputs_cons, Edit.assignAll_append, first]
      exact written
    · rintro ⟨_, ⟨part, _, ⟨found, rfl⟩, reply, ρ, replied, given, _, others, rfl, rfl⟩, written,
        rfl⟩
      rw [outputs_cons, Edit.assignAll_append, bind_eq_ok_iff] at written
      obtain ⟨next, first, written⟩ := written
      exact ⟨part, _, ⟨found, rfl⟩, reply, ρ, replied, next, _, ⟨first, rfl⟩, given, others, written,
        complaints_cons p rest reply⟩

theorem outputs_ready {p : Property Parser} {keys : List Text} (reply : Reply)
    (ready : data.Ready (p.output :: keys)) (unnested : Shape.Unnested (p.output :: keys))
    (ordered : Path.Ordered (p.output :: keys)) :
    ∃ next, Edit.assignAll (outputs [p] [reply]) data = .ok next ∧ next.Ready keys := by
  cases reply with
  | rejected problem => exact ⟨data, rfl, ready.tail⟩
  | accepted result =>
    by_cases omitted : result = .undefined
    · subst omitted
      exact ⟨data, rfl, ready.tail⟩
    · obtain ⟨next, assigned, ready⟩ := ready.assign unnested ordered
      exact ⟨next, Edit.assignAll_cons omitted assigned, ready⟩

/-- Where nothing stands in the way of a write, only a property can be at fault. -/
theorem properties_faults (unnested : Shape.Unnested (all.map Property.output))
    (ordered : Path.Ordered (all.map Property.output)) (ready : data.Ready (all.map Property.output))
    (refused : (replies input all).Faults σ fault) :
    (properties root input all data errors).Faults σ fault := by
  induction all generalizing data errors σ with
  | nil => exact absurd refused Run.not_faults_pure
  | cons p rest ih =>
    simp only [replies, Run.faults_bind_iff, Run.not_faults_pure, and_false, exists_false,
      or_false] at refused
    rw [properties_cons]
    simp only [Run.faults_bind_iff]
    rcases refused with unread | ⟨part, _, found, first | ⟨reply, ρ, replied, later⟩⟩
    · exact .inl unread
    · exact .inr ⟨part, _, found, .inl first⟩
    · obtain ⟨next, written, ready⟩ := outputs_ready reply ready unnested ordered
      refine .inr ⟨part, _, found, .inr ⟨reply, ρ, replied, .inr ⟨next, ρ, ?_, ?_⟩⟩⟩
      · exact Run.answers_lift_iff.mpr ⟨written, rfl⟩
      · exact ih unnested.tail (List.pairwise_cons.mp ordered).2 ready later

end Transform
end Schemata
