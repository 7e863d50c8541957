import Schemata.Proofs.Schema.Failures
import Schemata.Proofs.Schema.Steadiness

/-! Objects read as maps. A map node takes an object in two ways: it coerces it to a map beforehand, or it
has a constraint that lets objects through and goes by their fields while it parses. Both read the same
entries in the same order, so they reply alike, and maps are read as by any other map node. -/
namespace Schemata

namespace Value

/-- The fields of an object as the entries of a map: nothing is lost, merged or moved, as no key
occurs twice. -/
theorem toMap_object {fields : List (Text × Value)} (once : KeysOnce (object fields)) :
    (object fields).toMap = map (fields.map fun (k, v) => (string k, v)) :=
  ofEntries_of_distinct (Transform.distinct_entriesOf once rfl)

end Value

/-- Behind a computation that is always settled, what is answered depends on the first answer alone. -/
theorem Run.answer_bind {m : Run α} {f : α → Run β} {g : α → β} (settled : ∀ a, (f a).Always (g a))
    (σ : Session) : ((m >>= f).outcome σ).1 = (m.outcome σ).1.map g := by
  rw [outcome_bind]
  cases m.outcome σ with
  | mk answer τ =>
    cases answer with
    | error fault => rfl
    | ok a =>
      obtain ⟨ρ, last⟩ := settled a τ
      exact congrArg Prod.fst last

namespace Definition

variable {d : Definition} {t : Transform} {v input : Value}

/-- A node that coerces its input to one that its constraint lets through replies what its transform
comes to. Of the definition, nothing else matters. -/
theorem answer_safeParse (coerced : d.coerced v = pure input) (given : v.isNullish = false)
    (checked : d.constraint.violations input = .ok []) (defined : input.isNullish = false)
    (σ : Session) :
    ((d.safeParse (some t) v).outcome σ).1 = ((t input).outcome σ).1.map Outcome.reply := by
  have transformed : d.safeParse (some t) v = (do
      let outcome ← t input
      if outcome.failed then
        Run.trace (d.label ++ Text.ofString ": children failed " ++ outcome.errors.dump)
        return .rejected outcome.errors
      else return .accepted outcome.data) := by
    rw [safeParse, if_neg (by simp [Constraint.admits_eq_false given]), coerced, pure_bind, checked]
    change (pure [] >>= _) = _
    simp only [pure_bind, List.isEmpty_nil, Bool.not_true, Bool.false_eq_true, if_false, defined]
  rw [transformed]
  refine Run.answer_bind (fun outcome => ?_) σ
  unfold Outcome.reply
  split
  · exact (Run.always_trace _).bind Run.always_pure
  · exact Run.always_pure

end Definition

namespace Schema

variable {key value : Schema} {accepts : Value → Bool} {c : Constraint} {entries : List (Value × Value)}
  {input : Value}

/-- What the entries of an input come to when they are parsed by these nodes. -/
def mapAnswer (key value : Schema) (entries : List (Value × Value)) (σ : Session) : Except Fault Reply :=
  ((Transform.map key.safeParse value.safeParse (.map entries)).outcome σ).1.map Outcome.reply

/-- A map node replies what the entries of its input come to, be it a map or not. -/
theorem answer_mapOf {o : Options} {v : Value}
    (coerced : (o.definition c (some .map)).coerced input = pure v) (given : input.isNullish = false)
    (checked : c.violations v = .ok []) (listed : Transform.entriesOf v = some entries) (σ : Session) :
    (((mapOf key value c o).safeParse input).outcome σ).1 = mapAnswer key value entries σ := by
  cases v with
  | map | object =>
    cases listed
    exact Definition.answer_safeParse coerced given checked rfl σ
  | _ => cases listed

theorem violations_ofPredicate (made : Constraint.ofPredicate (some accepts) = .ok c) {v : Value}
    (accepted : accepts v = true) : c.violations v = .ok [] := by
  cases made
  simp [Constraint.violations, Constraint.mismatch?, Constraint.ofExpectation, accepted,
    Constraint.ruleViolations]

/-- Two nodes give one answer to an input, be it a reply or a fault: in any session, and from one session
to the other if no part of the key and value nodes takes anything from the session. -/
structure ReadAlike (key value s t : Schema) (input : Value) : Prop where
  answer : ∀ σ, ((s.safeParse input).outcome σ).1 = ((t.safeParse input).outcome σ).1
  steady : Everywhere Sessionless key → Everywhere Sessionless value → ∀ σ τ,
    ((s.safeParse input).outcome σ).1 = ((t.safeParse input).outcome τ).1

theorem mapOf_sessionless {o : Options} (ofKey : Everywhere Sessionless key)
    (ofValue : Everywhere Sessionless value) : Everywhere Sessionless (mapOf key value c o) := by
  refine .map ⟨fun same => ?_, fun t override => ?_⟩ ofKey ofValue
  · obtain ⟨coerce, description⟩ := o
    cases coerce <;> cases same
  · cases override

theorem ReadAlike.of_answers {s : Schema} {o : Options} {answer : Session → Except Fault Reply}
    (left : ∀ σ, ((s.safeParse input).outcome σ).1 = answer σ)
    (right : ∀ σ, (((mapOf key value c o).safeParse input).outcome σ).1 = answer σ) :
    ReadAlike key value s (mapOf key value c o) input where
  answer σ := (left σ).trans (right σ).symm
  steady ofKey ofValue σ τ := by
    rw [left σ, ← right σ]
    exact safeParse_steady (mapOf_sessionless ofKey ofValue) input σ τ

/-- An object is read alike by a map node that coerces and by one whose predicate accepts objects: as the
map of its fields is read without either. And all three read maps alike. -/
theorem map_readings_agree (key value : Schema) (predicate : Constraint.ofPredicate (some accepts) = .ok c)
    (lets : ∀ v, v.kind = .map ∨ v.kind = .object → accepts v = true)
    (ofCoercing ofAccepting ofPlain : Option Text) :
    let coercing := mapOf key value (.ofKind .map) ⟨true, ofCoercing⟩
    let accepting := mapOf key value c ⟨false, ofAccepting⟩
    let plain := mapOf key value (.ofKind .map) ⟨false, ofPlain⟩
    (∀ fields, (Value.object fields).KeysOnce →
      ReadAlike key value coercing accepting (.object fields) ∧
      ∀ σ, ((accepting.safeParse (.object fields)).outcome σ).1 =
        ((plain.safeParse (.map (fields.map fun (k, v) => (.string k, v)))).outcome σ).1) ∧
    ∀ entries, ReadAlike key value coercing plain (.map entries) ∧
      ReadAlike key value accepting plain (.map entries) := by
  intro coercing accepting plain
  have plainly (entries : List (Value × Value)) (σ : Session) :
      ((plain.safeParse (.map entries)).outcome σ).1 = mapAnswer key value entries σ :=
    answer_mapOf rfl rfl rfl rfl σ
  have accepted (v : Value) (container : v.kind = .map ∨ v.kind = .object) {entries}
      (listed : Transform.entriesOf v = some entries) (σ : Session) :
      ((accepting.safeParse v).outcome σ).1 = mapAnswer key value entries σ := by
    have defined : v.isNullish = false := by
      cases v with
      | map | object => rfl
      | _ => cases listed
    exact answer_mapOf rfl defined (violations_ofPredicate predicate (lets v container)) listed σ
  constructor
  · intro fields once
    have direct := accepted (.object fields) (.inr rfl) rfl
    have coerced : ((Options.mk true ofCoercing).definition (.ofKind .map) (some .map)).coerced
        (.object fields) = pure (.map (fields.map fun (k, v) => (.string k, v))) :=
      congrArg pure (Value.toMap_object once)
    refine ⟨.of_answers (answer_mapOf coerced rfl rfl rfl) direct, fun σ => ?_⟩
    rw [direct σ, plainly]
  · intro entries
    refine ⟨.of_answers ?_ (plainly entries), .of_answers ?_ (plainly entries)⟩
    · exact answer_mapOf rfl rfl rfl rfl
    · exact accepted (.map entries) (.inl rfl) rfl

/-- Counts by name. One of them is no number. -/
def tally : List (Text × Value) :=
  [(Text.ofString "a", .int 1), (Text.ofString "b", .string (Text.ofString "x"))]

def tallyErrors : Value :=
  .map [(.string (Text.ofString "b"), .array [.undefined,
    .array [.string (Text.ofString "Value must be of type number, string given")]])]

theorem map_readings_agree_tally :
    let name := ofLeaf .string (.ofKind .string) ⟨false, none⟩
    let count := ofLeaf .number (.ofKind .number) ⟨false, none⟩
    let accepts : Value → Bool := fun v => v.kind = .map || v.kind = .object
    let accepting := mapOf name count (.ofExpectation (.predicate accepts)) ⟨false, none⟩
    Constraint.ofPredicate (some accepts) = .ok (.ofExpectation (.predicate accepts)) ∧
      (Value.object tally).KeysOnce ∧
      ∀ σ, ((accepting.safeParse (.object tally)).outcome σ).1 = .ok (.rejected tallyErrors) := by
  intro name count accepts accepting
  have once : (Value.object tally).KeysOnce := by
    change (Fields.keys tally).Nodup
    decide
  have lets : ∀ v, v.kind = .map ∨ v.kind = .object → accepts v = true := by simp [accepts]
  obtain ⟨objects, _⟩ := map_readings_agree name count rfl lets none none none
  have coerced : (((mapOf name count (.ofKind .map) ⟨true, none⟩).safeParse (.object tally)).outcome {}).1 =
      .ok (.rejected tallyErrors) := by
    cbv
  have steady := (objects tally once).1.steady (.leaf .ofLeaf) (.leaf .ofLeaf) {}
  exact ⟨rfl, once, fun σ => (steady σ).symm.trans coerced⟩

end Schema
end Schemata
