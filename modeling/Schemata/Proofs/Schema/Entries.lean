import Mathlib
import Schemata.Proofs.Schema.Failures
import Schemata.Proofs.Value.Retained

/-! Maps are parsed exactly. The key and the value of every entry are parsed one after the other,
whatever the earlier ones replied, and the errors of an entry lie under its own key. No key of an
input equals a later one, so entries that fail are told of one by one. Parsed keys may be equal, and
then the last value stays. -/
namespace Schemata

def Reply.isRejected : Reply → Bool
  | .accepted _ => false
  | .rejected _ => true

/-- Outcomes are made in one way, so those that failed have errors. -/
def Outcome.Made (outcome : Outcome) : Prop :=
  ∃ data failed errors aborted, outcome = .of data failed errors aborted

theorem Outcome.made_settled (silent : Bool) (data errors : Value) :
    (Outcome.settled silent data errors).Made := by
  unfold settled
  split <;> exact ⟨_, _, _, _, rfl⟩

theorem Outcome.Made.errors_ne {outcome : Outcome} (made : outcome.Made)
    (failed : outcome.failed = true) : outcome.errors ≠ .undefined := by
  obtain ⟨data, _, errors, aborted, rfl⟩ := made
  obtain rfl := failed
  cases errors <;> exact nofun

/-- A transform all outcomes of which are made so. -/
def Transform.Proper (t : Transform) : Prop := ∀ v, (t v).Ends Outcome.Made

namespace Schema

/-- A transform that a node is given instead of its own is proper. -/
def Proper (s : Schema) : Prop := ∀ t, s.override = some t → t.Proper

end Schema

namespace Transform

variable {kind : Kind} {build : List Value → Value} {element key value : Parser}
  {all parsed : List (Value × Value)} {given : List (Reply × Reply)} {input : Value}
  {σ ρ : Session} {fault : Fault}

theorem list_proper : (list kind build element).Proper := by
  intro v
  unfold list
  cases v with
  | array | set => exact .bind fun _ => (always_settled _ _ _ _).ends (Outcome.made_settled _ _ _)
  | _ => exact Run.always_pure.ends ⟨_, _, _, _, rfl⟩

theorem map_proper : (map key value).Proper := by
  intro v
  unfold map
  cases v with
  | map | object => exact .bind fun _ => (always_settled _ _ _ _).ends (Outcome.made_settled _ _ _)
  | _ => exact Run.always_pure.ends ⟨_, _, _, _, rfl⟩

theorem object_proper {all : List (Property Parser)} {root : Text} : (object all root).Proper :=
  fun _ => .bind fun _ => (always_settled _ _ _ _).ends (Outcome.made_settled _ _ _)

/-- The replies for the key and for the value of an entry. -/
def replyPair (key value : Parser) (e : Value × Value) : Run (Reply × Reply) := do
  let keyReply ← key e.1
  let valueReply ← value e.2
  return (keyReply, valueReply)

/-- An entry fails if its key or its value does. -/
def pairFails (pair : Reply × Reply) : Bool := pair.1.isRejected || pair.2.isRejected

/-- The entries both sides of which were accepted, parsed. -/
def parsedEntries (given : List (Reply × Reply)) : List (Value × Value) :=
  given.filterMap fun
    | (.accepted k, .accepted v) => some (k, v)
    | _ => none

/-- The entries that failed in their order: the key as it was given, with the errors of both sides. -/
def failedEntries (all : List (Value × Value)) (given : List (Reply × Reply)) :
    List (Value × Value) :=
  ((all.zip given).filter fun e => pairFails e.2).map fun e =>
    (e.1.1, .array [e.2.1.problem, e.2.2.problem])

theorem entries_eq_mapM : entries key value all = (do
    let given ← all.mapM (replyPair key value)
    return (parsedEntries given, failedEntries all given)) := by
  induction all with
  | nil => rfl
  | cons e rest ih =>
    rw [entries, List.mapM_cons]
    simp only [ih, replyPair, bind_assoc, pure_bind]
    -- Both sides ask for the same replies in the same order; what is made of them is compared.
    congr 1
    funext keyReply
    congr 1
    funext valueReply
    congr 1
    funext given
    cases keyReply <;> cases valueReply <;> rfl

theorem map_eq_mapM (listed : entriesOf input = some all) : map key value input = (do
    let given ← all.mapM (replyPair key value)
    if (failedEntries all given).isEmpty then
      return .success (Value.ofEntries (parsedEntries given))
    else
      let errors := Value.ofEntries (failedEntries all given)
      Run.trace (failures Kind.map.name errors.size "entries")
      return .failure errors) := by
  cases input with
  | map | object =>
    cases listed
    rw [map]
    simp only [entries_eq_mapM, bind_assoc, pure_bind]
  | _ => cases listed

/-- What a map makes of the replies of its entries. -/
def mapOutcome (all : List (Value × Value)) (given : List (Reply × Reply)) : Outcome :=
  .settled (failedEntries all given).isEmpty (Value.ofEntries (parsedEntries given))
    (Value.ofEntries (failedEntries all given))

theorem map_answers_of_mapM (listed : entriesOf input = some all)
    (replied : (all.mapM (replyPair key value)).Answers σ given ρ) :
    ∃ τ, (map key value input).Answers σ (mapOutcome all given) τ := by
  obtain ⟨τ, settled⟩ := always_settled (failedEntries all given).isEmpty
    (Value.ofEntries (parsedEntries given)) (Value.ofEntries (failedEntries all given))
    (failures Kind.map.name (Value.ofEntries (failedEntries all given)).size "entries") ρ
  rw [map_eq_mapM listed]
  exact ⟨τ, Run.answers_bind_iff.mpr ⟨given, ρ, replied, settled⟩⟩

theorem map_faults_of_mapM (listed : entriesOf input = some all)
    (refused : (all.mapM (replyPair key value)).Faults σ fault) :
    (map key value input).Faults σ fault := by
  rw [map_eq_mapM listed]
  exact Run.faults_bind_iff.mpr (.inl refused)

theorem failedEntries_eq_nil_iff (parts : List.Forall₂ related all given) :
    failedEntries all given = [] ↔ ∀ pair ∈ given, pairFails pair = false := by
  rw [failedEntries, List.map_eq_nil_iff, List.filter_eq_nil_iff]
  induction parts with
  | nil => simp
  | cons _ _ ih =>
    rw [List.zip_cons_cons, List.forall_mem_cons, List.forall_mem_cons, ih, Bool.not_eq_true]

theorem failed_mapOutcome_iff (parts : List.Forall₂ related all given) :
    (mapOutcome all given).failed = true ↔ ∃ pair ∈ given, pairFails pair = true := by
  rw [mapOutcome, Outcome.failed_settled_iff, List.isEmpty_eq_false_iff, ne_eq,
    failedEntries_eq_nil_iff parts]
  simp

theorem silent_of_mapOutcome (parts : List.Forall₂ related all given)
    (succeeded : (mapOutcome all given).failed = false) :
    ∀ pair ∈ given, pairFails pair = false := by
  intro pair member
  by_contra fails
  rw [(failed_mapOutcome_iff parts).mpr ⟨pair, member, by simpa using fails⟩] at succeeded
  cases succeeded

theorem data_mapOutcome (parts : List.Forall₂ related all given)
    (silent : ∀ pair ∈ given, pairFails pair = false) :
    (mapOutcome all given).data = Value.ofEntries (parsedEntries given) := by
  rw [mapOutcome, (failedEntries_eq_nil_iff parts).mpr silent]
  rfl

theorem parsed_of_silent (silent : ∀ pair ∈ given, pairFails pair = false) :
    given = (parsedEntries given).map fun e => (.accepted e.1, .accepted e.2) := by
  induction given with
  | nil => rfl
  | cons pair given ih =>
    obtain ⟨here, later⟩ := List.forall_mem_cons.mp silent
    obtain ⟨keyReply, valueReply⟩ := pair
    cases keyReply with
    | rejected => cases here
    | accepted k =>
      cases valueReply with
      | rejected => cases here
      | accepted v =>
        have step : parsedEntries ((.accepted k, .accepted v) :: given) =
            (k, v) :: parsedEntries given := rfl
        rw [step, List.map_cons, ← ih later]

/-- Keys that failed come from the input, one entry from another. -/
theorem keys_failedEntries_sublist (all : List (Value × Value)) (given : List (Reply × Reply)) :
    ((failedEntries all given).map Prod.fst).Sublist (all.map Prod.fst) := by
  induction all generalizing given with
  | nil => exact List.nil_sublist _
  | cons e rest ih =>
    cases given with
    | nil => exact List.nil_sublist _
    | cons pair given =>
      have later := ih given
      rw [failedEntries, List.zip_cons_cons, List.filter_cons]
      split
      · exact later.cons_cons e.1
      · exact later.cons e.1

/-- The errors of a map that failed, none of them under the key of another. -/
theorem errors_mapOutcome (distinct : Value.Distinct (all.map Prod.fst))
    (failed : (mapOutcome all given).failed = true) :
    (mapOutcome all given).errors = .map (failedEntries all given) := by
  have apart := distinct.sublist (keys_failedEntries_sublist all given)
  rw [mapOutcome, Outcome.settled_of_failed failed, Value.ofEntries_of_distinct apart]
  rfl

end Transform

/-- An error payload is never undefined where no transform but a proper one is supplied. -/
theorem Definition.errors_ne {d : Definition} {transform : Option Transform} {v errors : Value}
    {σ τ : Session} (proper : ∀ t, transform = some t → t.Proper)
    (answered : (d.safeParse transform v).Answers σ (.rejected errors) τ) :
    errors ≠ .undefined := by
  cases safeParse_rejects answered with
  | objected => exact nofun
  | failed _ _ _ _ ran failed => exact (proper _ rfl _ _ _ _ ran).errors_ne failed

namespace Schema

variable {s key value : Schema} {v errors input : Value} {all : List (Value × Value)}
  {σ τ : Session}

theorem Proper.errors_ne (proper : s.Proper)
    (answered : (s.safeParse v).Answers σ (.rejected errors) τ) : errors ≠ .undefined := by
  cases s with
  | leaf d o => exact Definition.errors_ne proper answered
  | array d o | set d o => exact Definition.errors_ne (forall_transform Transform.list_proper proper) answered
  | map d o => exact Definition.errors_ne (forall_transform Transform.map_proper proper) answered
  | object d o => exact Definition.errors_ne (forall_transform Transform.object_proper proper) answered

theorem Proper.problem_eq_undefined_iff {reply : Reply} (proper : s.Proper)
    (answered : (s.safeParse v).Answers σ reply τ) :
    reply.problem = .undefined ↔ ∃ data, reply = .accepted data := by
  cases reply with
  | accepted data => exact ⟨fun _ => ⟨data, rfl⟩, fun _ => rfl⟩
  | rejected errors => exact ⟨fun none => absurd none (proper.errors_ne answered), nofun⟩

/-- What parsing a map comes to, given the replies of its entries. Every entry that failed has an
entry of its own among the errors, in which a side is undefined if and only if it was accepted. -/
structure MapExact (all : List (Value × Value)) (given : List (Reply × Reply)) (outcome : Outcome) :
    Prop where
  failed_iff : outcome.failed = true ↔ ∃ pair ∈ given, Transform.pairFails pair = true
  errors : outcome.failed = true → outcome.errors = .map (Transform.failedEntries all given)
  apart : Value.Distinct ((Transform.failedEntries all given).map Prod.fst)
  sides : ∀ pair ∈ given, (pair.1.problem = .undefined ↔ ∃ data, pair.1 = .accepted data) ∧
    (pair.2.problem = .undefined ↔ ∃ data, pair.2 = .accepted data)
  data : outcome.failed = false → ∃ parsed kept,
    given = parsed.map (fun e => (.accepted e.1, .accepted e.2)) ∧ outcome.data = .map kept ∧
      Value.ofEntries parsed = .map kept ∧ Value.LastsOf parsed kept

/-- A map is parsed exactly. In any session, either a key or a value is at fault itself, and then so is
the map; or all entries reply, one after the other, and these replies decide what is made of them. -/
theorem map_exact (listed : Transform.entriesOf input = some all) (once : input.KeysOnce)
    (keyProper : key.Proper) (valueProper : value.Proper) (σ : Session) :
    (∃ fault, (∃ e ∈ all, ∃ ρ, (Transform.replyPair key.safeParse value.safeParse e).Faults ρ fault) ∧
      (Transform.map key.safeParse value.safeParse input).Faults σ fault) ∨
    ∃ given ρ outcome τ,
      (all.mapM (Transform.replyPair key.safeParse value.safeParse)).Answers σ given ρ ∧
        (Transform.map key.safeParse value.safeParse input).Answers σ outcome τ ∧
          MapExact all given outcome := by
  rcases Run.faults_or_answers (all.mapM (Transform.replyPair key.safeParse value.safeParse)) σ with
    ⟨fault, refused⟩ | ⟨given, ρ, replied⟩
  · exact .inl ⟨fault, Run.exists_faults_of_mapM refused, Transform.map_faults_of_mapM listed refused⟩
  · obtain ⟨τ, answered⟩ := Transform.map_answers_of_mapM listed replied
    have parts := Run.forall₂_of_mapM replied
    have distinct := Transform.distinct_entriesOf once listed
    refine .inr ⟨given, ρ, _, τ, replied, answered, ?_⟩
    constructor
    · exact Transform.failed_mapOutcome_iff parts
    · exact Transform.errors_mapOutcome distinct
    · exact distinct.sublist (Transform.keys_failedEntries_sublist all given)
    · intro pair member
      obtain ⟨e, _, _, _, paired⟩ := exists_related_left parts member
      simp only [Transform.replyPair, Run.answers_bind_iff, Run.answers_pure_iff] at paired
      obtain ⟨_, _, ofKey, _, _, ofValue, rfl, _⟩ := paired
      exact ⟨keyProper.problem_eq_undefined_iff ofKey, valueProper.problem_eq_undefined_iff ofValue⟩
    · intro succeeded
      have silent := Transform.silent_of_mapOutcome parts succeeded
      exact ⟨_, _, Transform.parsed_of_silent silent, Transform.data_mapOutcome parts silent, rfl,
        Value.lastsOf_foldl _⟩

/-- A node that refuses whatever is there and does not say why. -/
def refusing : Schema :=
  (ofLeaf .any .anyValue ⟨false, none⟩).withOverride fun _ => return .failure .undefined

theorem refusing_proper : refusing.Proper := by
  intro t supplied v
  cases supplied
  exact Run.always_pure.ends ⟨_, _, _, _, rfl⟩

def note : Schema := ofLeaf .string (.ofKind .string) ⟨false, none⟩

theorem note_proper : note.Proper := nofun

/-- Two keys that differ from themselves, so each may stand beside the other. -/
def noted : List (Value × Value) :=
  [(.double .nan, .int 1), (.double .nan, .string (Text.ofString "x"))]

def notedErrors : List (Value × Value) :=
  [(.double .nan, .array [.array [],
      .array [.string (Text.ofString "Value must be of type string, number given")]]),
    (.double .nan, .array [.array [], .undefined])]

theorem map_exact_noted :
    Transform.entriesOf (.map noted) = some noted ∧ (Value.map noted).KeysOnce ∧ refusing.Proper ∧
      note.Proper ∧ ∃ given, MapExact noted given (.failure (.map notedErrors)) ∧
        Transform.failedEntries noted given = notedErrors := by
  have once : (Value.map noted).KeysOnce := by
    simp [Value.KeysOnce, Value.Distinct, noted, Value.eq, Binary64.equal, Binary64.place?]
  have parsed : (Transform.map refusing.safeParse note.safeParse (.map noted)).Answers {}
      (.failure (.map notedErrors)) {} := by
    unfold Run.Answers
    cbv
  refine ⟨rfl, once, refusing_proper, note_proper, ?_⟩
  rcases map_exact rfl once refusing_proper note_proper {} with
    ⟨fault, _, refused⟩ | ⟨given, _, outcome, _, _, answered, exactly⟩
  · exact absurd refused parsed.not_faults
  · obtain ⟨rfl, _⟩ := answered.unique parsed
    exact ⟨given, exactly, (Value.map.inj (exactly.errors rfl)).symm⟩

end Schema
end Schemata
