import Schemata.Report
import Schemata.Proofs.Schema.Nodes
import Schemata.Proofs.Schema.Replies

/-! What an object tells of properties that fail. Errors are kept under input keys, and of several
rejections under one key the last one stays. A property that fails is thus told of in full unless a
later one reads at the same key and fails as well; then nothing of its errors is left. -/
namespace Schemata

namespace Transform

/-- No property that reads at the input key rejects. -/
def Silent (all : List (Property α)) (given : List Reply) (name : Text) : Prop :=
  ∀ e ∈ all.zip given, e.1.input = name → ∃ data, e.2 = .accepted data

/-- A property that reads at the input key rejects with these errors, and no later one does. -/
def LastRejection (all : List (Property α)) (given : List Reply) (name : Text) (problem : Value) :
    Prop :=
  ∃ before p after, all.zip given = before ++ (p, .rejected problem) :: after ∧ p.input = name ∧
    ∀ e ∈ after, e.1.input = name → ∃ data, e.2 = .accepted data

variable {root name : Text} {problem : Value} {p : Property α} {all : List (Property α)}
  {reply : Reply} {given : List Reply} {errors : Fields Value}

theorem silent_cons_iff : Silent (p :: all) (reply :: given) name ↔
    (p.input = name → ∃ data, reply = .accepted data) ∧ Silent all given name := by
  rw [Silent, List.zip_cons_cons, List.forall_mem_cons]
  rfl

theorem lastRejection_cons_iff : LastRejection (p :: all) (reply :: given) name problem ↔
    LastRejection all given name problem ∨
      reply = .rejected problem ∧ p.input = name ∧ Silent all given name := by
  rw [LastRejection, List.zip_cons_cons]
  constructor
  · rintro ⟨before, q, after, split, own, silent⟩
    cases before with
    | nil =>
      obtain ⟨same, rfl⟩ := List.cons.inj split
      cases same
      exact .inr ⟨rfl, own, silent⟩
    | cons first before =>
      obtain ⟨rfl, later⟩ := List.cons.inj split
      exact .inl ⟨before, q, after, later, own, silent⟩
  · rintro (⟨before, q, after, split, own, silent⟩ | ⟨rfl, own, silent⟩)
    · exact ⟨(p, reply) :: before, q, after, by rw [split, List.cons_append], own, silent⟩
    · exact ⟨[], p, all.zip given, rfl, own, silent⟩

/-- Under an input key lie the errors of the last property that rejected there, or what lay there
before if none did. -/
theorem find?_complaints {replied : Property α → Reply → Prop}
    (parts : List.Forall₂ replied all given) :
    Fields.find? (root ++ 46 :: name) (complaints root all given errors) = some problem ↔
      LastRejection all given name problem ∨
        Fields.find? (root ++ 46 :: name) errors = some problem ∧ Silent all given name := by
  induction parts generalizing errors with
  | nil => simp [complaints, LastRejection, Silent]
  | @cons p reply rest given _ _ ih =>
    rw [lastRejection_cons_iff, silent_cons_iff]
    cases reply with
    | accepted data =>
      rw [complaints, ih]
      simp
    | rejected other =>
      rw [complaints, ih]
      by_cases own : p.input = name
      · subst own
        simp
      · have apart : root ++ 46 :: name ≠ root ++ 46 :: p.input := by
          intro same
          exact own (List.cons.inj (List.append_cancel_left same)).2.symm
        rw [Fields.find?_insert_of_ne apart]
        simp [own]

theorem mem_keys_complaints {key : Text}
    (listed : key ∈ Fields.keys (complaints root all given errors)) :
    key ∈ Fields.keys errors ∨ ∃ p ∈ all, key = root ++ 46 :: p.input := by
  induction all generalizing given errors with
  | nil => exact .inl listed
  | cons p rest ih =>
    match given with
    | [] => exact .inl listed
    | .accepted _ :: given =>
      rcases ih listed with before | ⟨q, member, same⟩
      · exact .inl before
      · exact .inr ⟨q, List.mem_cons_of_mem p member, same⟩
    | .rejected _ :: given =>
      rcases ih listed with before | ⟨q, member, same⟩
      · rcases Fields.mem_keys_of_mem_insert before with own | old
        · exact .inr ⟨p, List.mem_cons_self, own⟩
        · exact .inl old
      · exact .inr ⟨q, List.mem_cons_of_mem p member, same⟩

theorem ascending_complaints (ascending : Fields.Ascending errors) :
    Fields.Ascending (complaints root all given errors) := by
  induction all generalizing given errors with
  | nil => exact ascending
  | cons p rest ih =>
    match given with
    | [] => exact ascending
    | .accepted _ :: given => exact ih ascending
    | .rejected _ :: given => exact ih ascending.insert

/-- An object fails with the errors that its properties leave, once all have replied. -/
theorem object_failed {all : List (Property Parser)} {input : Value} {outcome : Outcome}
    {σ τ : Session} (answered : (object all root input).Answers σ outcome τ)
    (failed : outcome.failed = true) :
    ∃ given ρ, (replies input all).Answers σ given ρ ∧
      outcome.errors = .object (complaints root all given []) ∧ complaints root all given [] ≠ [] := by
  simp only [object, Run.answers_bind_iff] at answered
  obtain ⟨⟨data, errors⟩, ρ, found, answered⟩ := answered
  obtain ⟨given, replied, _, rfl⟩ := properties_answers_iff.mp found
  obtain rfl := (always_settled _ _ _ _).unique answered
  refine ⟨given, ρ, replied, ?_, ?_⟩
  · rw [Outcome.settled_of_failed failed]
    rfl
  · exact List.isEmpty_eq_false_iff.mp (Outcome.failed_settled_iff.mp failed)

end Transform

namespace Schema

variable {all : List (Property Schema)} {root : Text} {input : Value} {outcome : Outcome}
  {σ τ : Session}

theorem complaints_parsers_eq (given : List Reply) (errors : Fields Value) :
    Transform.complaints root (parsers all) given errors =
      Transform.complaints root all given errors := by
  rw [parsers_eq]
  exact Transform.complaints_map fun _ => rfl

/-- An object that fails keeps, under the root and an input key, the errors of the last property
that rejects what the input has there, as they are, and it keeps nothing else. What an earlier
property rejects at the same key is lost. -/
theorem object_reports_last
    (answered : (Transform.object (parsers all) root input).Answers σ outcome τ)
    (failed : outcome.failed = true) :
    ∃ given ρ errors, (Transform.replies input (parsers all)).Answers σ given ρ ∧
      outcome.errors = .object errors ∧ errors ≠ [] ∧ Fields.Ascending errors ∧
        (∀ key ∈ Fields.keys errors, ∃ p ∈ all, key = root ++ 46 :: p.input) ∧
          ∀ name problem, Fields.find? (root ++ 46 :: name) errors = some problem ↔
            Transform.LastRejection all given name problem := by
  obtain ⟨given, ρ, replied, kept, some⟩ := Transform.object_failed answered failed
  rw [complaints_parsers_eq] at kept some
  have parts := Transform.replies_answers replied
  rw [parsers_eq, List.forall₂_map_left_iff] at parts
  refine ⟨given, ρ, _, replied, kept, some, Transform.ascending_complaints .nil, ?_, ?_⟩
  · intro key listed
    exact (Transform.mem_keys_complaints listed).resolve_left List.not_mem_nil
  · intro name problem
    rw [Transform.find?_complaints parts]
    simp [Fields.find?]

/-- A number and a text that are read at one key. -/
def readings : List (Property Schema) :=
  [⟨Text.ofString "count", Text.ofString "value", ofLeaf .number (.ofKind .number) ⟨false, none⟩⟩,
    ⟨Text.ofString "label", Text.ofString "value", ofLeaf .string (.ofKind .string) ⟨false, none⟩⟩]

/-- Neither a number nor a text. -/
def readingsInput : Value := .object [(Text.ofString "value", .bool true)]

def notNumber : Text := Text.ofString "Value must be of type number, boolean given"

def notText : Text := Text.ofString "Value must be of type string, boolean given"

theorem readings_fail : (Transform.object (parsers readings) Transform.defaultRoot
    readingsInput).Answers {}
      (.failure (.object [(Text.ofString "root$.value", .array [.string notText])])) {} := by
  unfold Run.Answers
  cbv

theorem object_reports_last_readings :
    (Transform.object (parsers readings) Transform.defaultRoot readingsInput).Answers {}
        (.failure (.object [(Text.ofString "root$.value", .array [.string notText])])) {} ∧
      ∃ given, Transform.LastRejection readings given (Text.ofString "value")
        (.array [.string notText]) := by
  refine ⟨readings_fail, ?_⟩
  obtain ⟨given, _, errors, _, kept, _, _, _, last⟩ := object_reports_last readings_fail rfl
  obtain rfl : [(Text.ofString "root$.value", .array [.string notText])] = errors :=
    Value.object.inj kept
  exact ⟨given, (last _ _).mp (by cbv)⟩

/-- The shape and the remap are in order and both properties reject, but one of them is not told of. -/
theorem earlier_rejection_lost :
    Shape.properties (readings.map fun p => (p.output, p.node))
        [(Text.ofString "count", Text.ofString "value"),
          (Text.ofString "label", Text.ofString "value")] = .ok readings ∧
      (Transform.replies readingsInput (parsers readings)).Answers {}
        [.rejected (.array [.string notNumber]), .rejected (.array [.string notText])] {} ∧
      ∃ errors, (Transform.object (parsers readings) Transform.defaultRoot readingsInput).Answers {}
        (.failure errors) {} ∧ ∀ e ∈ Report.entries errors, e.message ≠ notNumber := by
  refine ⟨by cbv, ?_, _, readings_fail, ?_⟩
  · unfold Run.Answers
    cbv
  · have told : Report.entries
        (.object [(Text.ofString "root$.value", .array [.string notText])]) =
          [⟨Text.ofString "root$/value", notText⟩] := by cbv
    rw [told, List.forall_mem_singleton]
    decide

end Schema
end Schemata
