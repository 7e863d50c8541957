import Mathlib.Tactic.Choose
import Schemata.Proofs.Path.Commuting
import Schemata.Proofs.Schema.Replies
import Schemata.Proofs.Schema.Steadiness

/-! The order of a shape. Properties that reply the same at any time, are read at different keys and are
written at keys that are apart, make one object in whatever order they come: the same outputs are
written and the same errors kept, only in another order, and neither order is to be seen afterwards. -/
namespace Schemata

/-- In every session the property replies so to what the input has at its input key. -/
def Property.Told (input : Value) (p : Property Parser) (reply : Reply) : Prop :=
  ∃ part, input.lookup p.input = .ok part ∧ (p.node part).Always reply

namespace Transform

variable {root : Text} {input data : Value} {all others : List (Property α)} {errors : Fields Value}

theorem outputs_perm (order : all.Perm others) (reply : Property α → Reply) :
    (outputs all (all.map reply)).Perm (outputs others (others.map reply)) := by
  induction order with
  | nil => exact .refl _
  | cons p _ ih =>
    simp only [List.map_cons]
    cases reply p with
    | accepted => exact ih.cons _
    | rejected => exact ih
  | swap p q rest =>
    simp only [List.map_cons]
    cases reply p <;> cases reply q <;> first | exact .refl _ | exact .swap _ _ _
  | trans _ _ ih ih' => exact ih.trans ih'

/-- The errors of rejections at different input keys are kept in any order. -/
theorem complaints_perm (order : all.Perm others) (inputs : (all.map Property.input).Nodup)
    (reply : Property α → Reply) : complaints root all (all.map reply) errors =
      complaints root others (others.map reply) errors := by
  induction order generalizing errors with
  | nil => rfl
  | cons p _ ih =>
    obtain ⟨_, inputs⟩ := List.nodup_cons.mp inputs
    simp only [List.map_cons]
    cases reply p <;> exact ih inputs
  | swap p q rest =>
    simp only [List.map_cons, List.nodup_cons, List.mem_cons, not_or] at inputs
    have different : root ++ 46 :: p.input ≠ root ++ 46 :: q.input := by
      intro same
      exact inputs.1.1 (List.cons.inj (List.append_cancel_left same)).2.symm
    simp only [List.map_cons]
    cases reply p <;> cases reply q <;> simp only [complaints]
    rw [Fields.insert_comm different]
  | trans first _ ih ih' =>
    exact (ih inputs).trans (ih' ((first.map _).nodup_iff.mp inputs))

section Object

variable {all others : List (Property Parser)} {reply : Property Parser → Reply}
  {p : Property Parser}

theorem replies_always (told : ∀ p ∈ all, p.Told input (reply p)) :
    (replies input all).Always (all.map reply) := by
  induction all with
  | nil => exact Run.always_pure
  | cons p rest ih =>
    obtain ⟨⟨part, found, settled⟩, told⟩ := List.forall_mem_cons.mp told
    exact (Run.always_lift found).bind (settled.bind ((ih told).bind Run.always_pure))

/-- An object whose properties all reply settles on what is written of their replies. -/
theorem object_settles (told : ∀ p ∈ all, p.Told input (reply p))
    (written : Edit.assignAll (outputs all (all.map reply)) (.object []) = .ok data) :
    (object all root input).Always (.settled (complaints root all (all.map reply) []).isEmpty data
      (.object (complaints root all (all.map reply) []))) := by
  have parsed : (properties root input all (.object []) []).Always
      (data, complaints root all (all.map reply) []) := by
    intro σ
    obtain ⟨τ, replied⟩ := replies_always told σ
    exact ⟨τ, properties_answers_iff.mpr ⟨_, replied, written, rfl⟩⟩
  exact parsed.bind (always_settled _ _ _ _)

/-- A property that is refused takes the object with it. -/
theorem object_fails {part : Value} (member : p ∈ all) (found : input.lookup p.input = .ok part)
    (fails : (p.node part).Fails) : (object all root input).Fails := by
  intro σ
  rcases Run.faults_or_answers (object all root input) σ with refused | ⟨outcome, τ, answered⟩
  · exact refused
  · obtain ⟨⟨data, errors⟩, _, parsed, _⟩ := Run.answers_bind_iff.mp answered
    obtain ⟨given, replied, _⟩ := properties_answers_iff.mp parsed
    obtain ⟨reply, _, part, found', ρ, ρ', own⟩ :=
      exists_related_right (replies_answers replied) member
    cases found.symm.trans found'
    obtain ⟨fault, refused⟩ := fails ρ
    exact absurd refused own.not_faults

/-- Properties that are read at different keys and written at keys that are apart may come in any
order: the object replies the same, unless one of them is refused. -/
theorem object_agree (order : all.Perm others) (steady : ∀ p ∈ all, ∀ v, (p.node v).Steady)
    (inputs : (all.map Property.input).Nodup)
    (apart : (all.map Property.output).Pairwise Path.KeysApart)
    (paths : ∀ p ∈ all, (∃ steps, Path.parse p.output = .ok steps) ∧
      ∃ steps, Path.parse p.input = .ok steps) (root : Text) (input : Value) :
    (object all root input).Agree
      (∃ p ∈ all, ∃ part, input.lookup p.input = .ok part ∧ (p.node part).Fails)
      (object others root input) := by
  -- What a property replies does not depend on when it is asked, so the replies can be told beforehand,
  -- in whatever order they are then asked for; or some property has none.
  by_cases told : ∀ p ∈ all, ∃ reply, p.Told input reply
  · have : Nonempty Reply := ⟨.accepted .undefined⟩
    choose! reply told using told
    have keys : ∀ w ∈ outputs all (all.map reply), ∃ steps, Path.parse w.1 = .ok steps := by
      intro w member
      obtain ⟨p, listed, output⟩ := List.mem_map.mp
        ((outputs_sublist all _).subset (List.mem_map_of_mem member))
      exact output ▸ (paths p listed).1
    have apart := apart.sublist (outputs_sublist all (all.map reply))
    obtain ⟨data, written, _⟩ := Edit.assignAll_emptyObject apart (List.forall_mem_map.mpr keys)
    have same := Edit.assignAll_perm (outputs_perm order reply) apart fun w member =>
      (keys w member).imp fun steps parsed => ⟨parsed, Value.writable_emptyObject steps⟩
    have left : (object all root input).Always _ := object_settles told written
    have right : (object others root input).Always _ :=
      object_settles (fun p member => told p (order.mem_iff.mpr member)) (same.symm.trans written)
    rw [← complaints_perm order inputs reply] at right
    exact .inl ⟨_, left, right⟩
  · push Not at told
    obtain ⟨p, member, silent⟩ := told
    obtain ⟨steps, parsed⟩ := (paths p member).2
    obtain ⟨part, found⟩ := Value.lookup_answers input parsed
    rcases (steady p member part).always_or_fails with ⟨reply, settled⟩ | fails
    · exact absurd ⟨part, found, settled⟩ (silent reply)
    · exact .inr ⟨⟨p, member, part, found, fails⟩, object_fails member found fails,
        object_fails (order.mem_iff.mp member) found fails⟩

end Object

end Transform

namespace Definition

variable {d : Definition} {t t' : Transform} {v : Value} {cause : Prop}

/-- Behind a definition that does not coerce, two transforms that agree reply the same. -/
theorem safeParse_agree (plain : d.coercion = none)
    (checks : ∀ fault, d.constraint.violations v = .error fault → cause)
    (agree : (t v).Agree cause (t' v)) :
    (d.safeParse (some t) v).Agree cause (d.safeParse (some t') v) := by
  unfold safeParse
  split
  · exact (Run.always_trace _).bind_agree Run.always_pure.agree
  · refine (coerced_of_none plain).bind_agree ?_
    cases checked : d.constraint.violations v with
    | error fault =>
      have fails (f : List Text → Run Reply) : (Run.lift (.error fault) >>= f).Fails :=
        Run.Fails.bind fun σ => ⟨fault, Run.faults_lift_iff.mpr rfl⟩
      exact .inr ⟨checks fault checked, fails _, fails _⟩
    | ok messages =>
      refine (Run.always_lift rfl).bind_agree ?_
      dsimp only
      split
      · exact (Run.always_trace _).bind_agree Run.always_pure.agree
      · split
        · exact Run.always_pure.agree
        · refine agree.bind fun outcome => ?_
          split
          · exact ⟨_, (Run.always_trace _).bind Run.always_pure⟩
          · exact ⟨_, Run.always_pure⟩

end Definition

namespace Schema

variable {shape shape' : Shape Schema} {remap : Remap} {c : Constraint} {description : Option Text}
  {s : Schema}

theorem parsers_property (shape : Shape Schema) (remap : Remap) :
    parsers (shape.map (Shape.property remap)) =
      shape.map fun named => ⟨named.1, Shape.inputKey remap named.1, named.2.safeParse⟩ := by
  rw [parsers_eq, List.map_map]
  rfl

/-- The order of a shape does not matter where its properties are independent. If the input keys are
different and the output keys apart, and no child depends on the session, every order of the shape makes
an object that replies the same to every input, in whatever session: the same data if it is accepted,
and the same errors if not. Only where the constraint or a child is refused itself, there is no reply,
and then there is none in any order. -/
theorem objectOf_perm (made : objectOf shape remap c description = .ok s) (order : shape.Perm shape')
    (inputs : (shape.map fun named => Shape.inputKey remap named.1).Nodup)
    (apart : (shape.map Prod.fst).Pairwise Path.KeysApart)
    (sessionless : ∀ named ∈ shape, Everywhere Sessionless named.2) :
    ∃ s', objectOf shape' remap c description = .ok s' ∧ ∀ input, (s.safeParse input).Agree
      ((∃ fault, c.violations input = .error fault) ∨
        ∃ named ∈ shape, ∃ part, input.lookup (Shape.inputKey remap named.1) = .ok part ∧
          (named.2.safeParse part).Fails)
      (s'.safeParse input) := by
  obtain ⟨all, listed, rfl⟩ := map_eq_ok_iff.mp made
  obtain ⟨fitting, rfl⟩ := Shape.properties_eq_ok_iff.mp listed
  have listed' := Shape.properties_eq_ok_iff.mpr ⟨fitting.perm order, rfl⟩
  refine ⟨_, map_eq_ok_iff.mpr ⟨_, listed', rfl⟩, fun input => ?_⟩
  refine Definition.safeParse_agree rfl (fun fault refused => .inl ⟨fault, refused⟩) ?_
  simp only [Option.getD_none]
  rw [parsers_property, parsers_property]
  refine (Transform.object_agree (order.map _) ?_ ?_ ?_ ?_ _ input).weaken ?_
  · exact List.forall_mem_map.mpr fun named member => safeParse_steady (sessionless named member)
  · rwa [List.map_map]
  · rwa [List.map_map]
  · refine List.forall_mem_map.mpr fun named member => ⟨?_, ?_⟩
    · exact fitting.unnested.paths _ (List.mem_map_of_mem member)
    · exact fitting.inputs _ (List.mem_map_of_mem member)
  · rintro ⟨p, member, part, found, fails⟩
    obtain ⟨named, listed, rfl⟩ := List.mem_map.mp member
    exact .inr ⟨named, listed, part, found, fails⟩

/-- The winners of a year, the last slot before the first. -/
def podium : Shape Schema :=
  let text := ofLeaf .string (.ofKind .string) ⟨false, none⟩
  [(Text.ofString "places.2", text), (Text.ofString "year", ofLeaf .number (.ofKind .number)
    ⟨false, none⟩), (Text.ofString "places.0", text)]

def podiumRemap : Remap :=
  [(Text.ofString "places.0", Text.ofString "first"), (Text.ofString "places.2", Text.ofString "third")]

def podiumInput : Value :=
  .object [(Text.ofString "first", .string (Text.ofString "x")),
    (Text.ofString "third", .string (Text.ofString "z")), (Text.ofString "year", .int 1999)]

/-- Between the two slots there is a hole. -/
def podiumOutput : Value :=
  .object [(Text.ofString "places", .array [.string (Text.ofString "x"), .undefined,
    .string (Text.ofString "z")]), (Text.ofString "year", .int 1999)]

theorem podium_apart : (podium.map Prod.fst).Pairwise Path.KeysApart := by
  have third : Path.parse (Text.ofString "places.2") =
      .ok [.key (Text.ofString "places"), .index 2] := by cbv
  have first : Path.parse (Text.ofString "places.0") =
      .ok [.key (Text.ofString "places"), .index 0] := by cbv
  have year : Path.parse (Text.ofString "year") = .ok [.key (Text.ofString "year")] := by cbv
  simp only [podium, List.map_cons, List.map_nil, List.pairwise_cons, List.forall_mem_cons,
    List.not_mem_nil, false_imp_iff, implies_true, and_true, List.Pairwise.nil]
  refine ⟨⟨?_, ?_⟩, ?_⟩
  · exact ⟨_, _, third, year, [], _, _, _, _, rfl, rfl, by decide, rfl⟩
  · exact ⟨_, _, third, first, [_], _, _, _, _, rfl, rfl, by decide, rfl⟩
  · exact ⟨_, _, year, first, [], _, _, _, _, rfl, rfl, by decide, rfl⟩

theorem objectOf_perm_podium : ∃ s s',
    objectOf podium podiumRemap (.ofKind .object) none = .ok s ∧
    objectOf podium.reverse podiumRemap (.ofKind .object) none = .ok s' ∧
    (s.safeParse podiumInput).Always (.accepted podiumOutput) ∧
    (s'.safeParse podiumInput).Always (.accepted podiumOutput) := by
  have made : objectOf podium podiumRemap (.ofKind .object) none =
      .ok (object ⟨.ofKind .object, none, none⟩ none (podium.map (Shape.property podiumRemap))) := by
    cbv
  have parsed : ((object ⟨.ofKind .object, none, none⟩ none
      (podium.map (Shape.property podiumRemap))).safeParse podiumInput).Answers {}
        (.accepted podiumOutput) {} := by
    unfold Run.Answers
    cbv
  have sessionless : ∀ named ∈ podium, Everywhere Sessionless named.2 := by
    simp only [podium, List.forall_mem_cons, List.not_mem_nil, false_imp_iff, implies_true, and_true]
    exact ⟨.leaf .ofLeaf, .leaf .ofLeaf, .leaf .ofLeaf⟩
  obtain ⟨s', made', agree⟩ := objectOf_perm made podium.reverse_perm.symm (by decide) podium_apart
    sessionless
  rcases agree podiumInput with ⟨reply, left, right⟩ | ⟨_, left, _⟩
  · obtain rfl := left.unique parsed
    exact ⟨_, s', made, made', left, right⟩
  · obtain ⟨fault, refused⟩ := left {}
    exact absurd refused parsed.not_faults

end Schema
end Schemata
