import Mathlib
import Schemata.Proofs.Path.Extent
import Schemata.Proofs.Path.Spelling
import Schemata.Proofs.Value.Mutation

/-! What an assignment changes. One that goes through is read back at its own path and leaves every
path as it is that leads neither there nor inside nor on the way; one that is refused leaves the whole
value as it is. The second rests on where a refusal can come: from a place where nothing is yet, every
path can be made, so each step before the refusal has led to something that was already there. -/
namespace Schemata

open Schemata.Path (Step)

namespace Path

theorem segmentStep_of_unbroken {path : Text} {steps : List Step} (parsed : parse path = .ok steps)
    (undotted : 46 ∉ path) (unbracketed : 91 ∉ path) : steps = [segmentStep path] := by
  have unbroken : ∀ b ∈ path, endsSegment b = false := by
    intro b member
    have dot : b ≠ 46 := fun same => undotted (same ▸ member)
    have bracket : b ≠ 91 := fun same => unbracketed (same ▸ member)
    simp [endsSegment, dot, bracket]
  have alone := parse_text (segmentStep_canonical (parse_eq_ok_iff.mp parsed).1 unbroken)
  rw [text_segmentStep, parsed, Except.ok.injEq] at alone
  exact alone

end Path

namespace Value

variable {v new part child : Value} {fields : Fields Value} {p : List Step} {step : Step}
  {path other key : Text}

/-- The field under a text taken as one key, whatever path the text spells. -/
def literal? : Value → Text → Option Value
  | object fields, key => Fields.find? key fields
  | _, _ => none

theorem has_eq (v : Value) (key : Text) : v.has key = (v.literal? key).isSome := by
  cases v <;> rfl

theorem lookup_eq (v : Value) (path : Text) : v.lookup path =
    match v.literal? path with
    | some child => .ok child
    | none => (Path.parse path).map v.follow := by
  cases v <;> rfl

theorem step_of_literal? (found : v.literal? step.text = some child) : v.step step = child := by
  cases v with
  | object fields =>
    rw [step_object, show Fields.find? step.text fields = some child from found]
    rfl
  | _ => cases found

/-- Only the field of the step itself comes in. -/
theorem literal?_writeStep_of_ne (different : key ≠ step.text) :
    (v.writeStep step part).literal? key = v.literal? key := by
  cases v with
  | object fields => exact Fields.find?_insert_of_ne different
  | undefined =>
    cases step with
    | key name =>
      have absent : name ≠ key := Ne.symm different
      simp [writeStep, literal?, Fields.find?, absent]
    | index n => rfl
  | array items => cases step <;> rfl
  | _ => cases step <;> rfl

theorem lookup_write_own (parsed : Path.parse path = .ok p) (writable : v.Writable p)
    (plain : v.literal? path = none ∨ 46 ∉ path ∧ 91 ∉ path) :
    (v.write p new).lookup path = .ok new := by
  obtain ⟨step, steps, rfl⟩ := List.exists_cons_of_ne_nil (Path.parse_ne_nil parsed)
  rw [lookup_eq, parsed]
  split
  · rename_i child found
    have own : path = step.text := by
      by_contra different
      rw [write, literal?_writeStep_of_ne different] at found
      rcases plain with absent | ⟨undotted, unbracketed⟩
      · cases absent.symm.trans found
      · obtain ⟨rfl, rfl⟩ := List.cons.inj (Path.segmentStep_of_unbroken parsed undotted unbracketed)
        exact different (Path.text_segmentStep path).symm
    subst own
    have canonical := Path.parse_canonical parsed step List.mem_cons_self
    obtain rfl : steps = [] := by
      rw [Path.parse_text canonical, Except.ok.injEq] at parsed
      exact (List.cons.inj parsed).2.symm
    rw [write] at found
    rw [← step_of_literal? found, step_writeStep_self writable.1]
    rfl
  · rw [Except.map, follow_write_self writable]

theorem lookup_write_elsewhere (parsed : Path.parse path = .ok p) (writable : v.Writable p)
    (apart : ∀ q, Path.parse other = .ok q → ¬ p <+: q ∧ ¬ q <+: p) :
    (v.write p new).lookup other = v.lookup other := by
  have left := Path.parse_canonical parsed
  have literal : (v.write p new).literal? other = v.literal? other := by
    obtain ⟨step, steps, rfl⟩ := List.exists_cons_of_ne_nil (Path.parse_ne_nil parsed)
    refine literal?_writeStep_of_ne fun own => ?_
    have alone := Path.parse_text (left step List.mem_cons_self)
    exact (apart [step] (own ▸ alone)).2 (List.prefix_append [step] steps)
  rw [lookup_eq, lookup_eq, literal]
  cases v.literal? other with
  | some child => rfl
  | none =>
    cases parsed' : Path.parse other with
    | error fault => rfl
    | ok q =>
      obtain ⟨inner, outer⟩ := apart q parsed'
      rcases prefix_or_parted p q with (along | back) | ⟨stem, a, b, p', q', rfl, rfl, different⟩
      · exact absurd along inner
      · exact absurd back outer
      · have right := Path.parse_canonical parsed'
        have texts : b.text ≠ a.text := fun same =>
          different ((left a (by simp)).eq_of_text_eq (right b (by simp)) same.symm)
        rw [Except.map, Except.map, follow_write_of_parted writable texts]

/-- The keys of an object ascend. -/
def KeysAscend : Value → Prop
  | object fields => Fields.Ascending fields
  | _ => True

/-- Objects with ascending keys at every depth, as all objects are. -/
abbrev Sorted : Value → Prop := Throughout KeysAscend

theorem sorted_step (sorted : Sorted v) (step : Step) : Sorted (v.step step) := by
  rcases step_mem_parts v step with nowhere | member
  · rw [nowhere]
    exact .intro trivial fun _ none => absurd none List.not_mem_nil
  · exact sorted.part member

theorem writeStep_step (sorted : Sorted v) (takes : v.takes step = true)
    (there : v.step step ≠ undefined) : v.writeStep step (v.step step) = v := by
  cases v with
  | undefined => exact absurd (step_undefined step) there
  | object fields =>
    rw [step_object] at there ⊢
    cases found : Fields.find? step.text fields with
    | none => exact absurd (by rw [found]; rfl) there
    | some child => exact congrArg object (sorted.here.insert_of_find? found)
  | array items =>
    cases step with
    | key name => cases takes
    | index n =>
      change items[n]?.getD undefined ≠ undefined at there
      have inside : n < items.length := by
        by_contra outside
        rw [List.getElem?_eq_none (Nat.not_lt.mp outside)] at there
        exact there rfl
      have kept : Edit.grow items (n + 1) = items := by
        rw [Edit.grow, Nat.sub_eq_zero_of_le inside, List.replicate_zero, List.append_nil]
      simp only [writeStep, Value.step, kept, List.getElem?_eq_getElem inside, Option.getD_some,
        List.set_getElem_self]
  | _ => cases step <;> cases takes

end Value

namespace Edit

variable {v new after : Value} {path : Text} {steps : List Step} {fault : Fault}

/-- Where the steps cannot all be taken, none of them has made anything. -/
theorem assignSteps_unchanged (sorted : v.Sorted) (blocked : ¬ v.Writable steps) :
    (assignSteps path new steps v).2 = v := by
  induction steps generalizing v with
  | nil => exact absurd trivial blocked
  | cons step steps ih =>
    cases takes : v.takes step with
    | false =>
      obtain ⟨fault, _, refused⟩ := assignSteps_refused path new v step steps takes
      rw [refused]
    | true =>
      have blocked' : ¬ (v.step step).Writable steps := fun writable => blocked ⟨takes, writable⟩
      -- Behind a step that leads nowhere nothing would be in the way.
      have there : v.step step ≠ .undefined := by
        intro nowhere
        rw [nowhere] at blocked'
        exact blocked' (Value.writable_undefined steps)
      rw [assignSteps_cons path new v step steps takes, ih (Value.sorted_step sorted step) blocked',
        Value.writeStep_step sorted takes there]

/-- What an assignment that goes through leaves to be read: the new value at its own path, unless the
whole path was a key already and is not the one step that it spells, and what was there before at every
path that is no beginning of the written one and does not begin with it. A text that is no path is a
key or nothing, as before. -/
theorem lookup_assign (assigned : assign path new v = (.ok (), after)) :
    (v.has path = false ∨ 46 ∉ path ∧ 91 ∉ path → after.lookup path = .ok new) ∧
    ∀ other, (∀ p q, Path.parse path = .ok p → Path.parse other = .ok q → ¬ p <+: q ∧ ¬ q <+: p) →
      after.lookup other = v.lookup other := by
  obtain ⟨steps, parsed, writable, rfl⟩ := assign_eq_ok assigned
  constructor
  · rw [Value.has_eq, Option.isSome_eq_false_iff, Option.isNone_iff_eq_none]
    exact Value.lookup_write_own parsed writable
  · intro other apart
    exact Value.lookup_write_elsewhere parsed writable fun q => apart steps q parsed

/-- A write into the second slot of a hole, past a key with a dot in it. -/
theorem lookup_assign_hole :
    let before := Value.object [(Text.ofString "a.b", .int 1), (Text.ofString "list", .array [.null])]
    let after := Value.object [(Text.ofString "a.b", .int 1), (Text.ofString "list",
      .array [.null, .undefined, .object [(Text.ofString "x", .bool true)]])]
    assign (Text.ofString "list[2].x") (.bool true) before = (.ok (), after) ∧
    after.lookup (Text.ofString "list[2].x") = .ok (.bool true) ∧
    after.lookup (Text.ofString "list.1") = before.lookup (Text.ofString "list.1") ∧
    after.lookup (Text.ofString "a.b") = before.lookup (Text.ofString "a.b") := by
  intro before after
  have own : Path.parse (Text.ofString "list[2].x") =
      .ok [.key (Text.ofString "list"), .index 2, .key (Text.ofString "x")] := by cbv
  have hole : Path.parse (Text.ofString "list.1") = .ok [.key (Text.ofString "list"), .index 1] := by
    cbv
  have dotted : Path.parse (Text.ofString "a.b") =
      .ok [.key (Text.ofString "a"), .key (Text.ofString "b")] := by cbv
  have assigned : assign (Text.ofString "list[2].x") (.bool true) before = (.ok (), after) := by
    cbv
  obtain ⟨written, others⟩ := lookup_assign assigned
  refine ⟨assigned, written (.inl (by cbv)), others _ ?_, others _ ?_⟩
  · rw [own, hole]
    rintro p q ⟨⟩ ⟨⟩
    decide
  · rw [own, dotted]
    rintro p q ⟨⟩ ⟨⟩
    decide

/-- A refused assignment leaves the value as it was. It is refused because its path is malformed or
because a step meets a value of a kind that does not take it. -/
theorem assign_error (sorted : v.Sorted) (refused : assign path new v = (.error fault, after)) :
    after = v ∧ (Path.parse path = .error fault ∧ fault.category = .invalidArgument ∨
      ∃ steps, Path.parse path = .ok steps ∧ ¬ v.Writable steps ∧ fault.category = .logicError) := by
  cases parsed : Path.parse path with
  | error problem =>
    rw [assign, parsed, Prod.mk.injEq, Except.error.injEq] at refused
    obtain ⟨rfl, rfl⟩ := refused
    exact ⟨rfl, .inl ⟨rfl, Path.parse_error parsed⟩⟩
  | ok steps =>
    have blocked : ¬ v.Writable steps := by
      intro writable
      rw [assign_of_writable parsed writable] at refused
      cases refused
    obtain ⟨problem, category, outcome⟩ : ∃ fault, fault.category = .logicError ∧
        (assign path new v).1 = .error fault := assign_of_not_writable parsed blocked
    rw [refused, Except.error.injEq] at outcome
    have kept : (assign path new v).2 = v := by
      rw [assign, parsed]
      exact assignSteps_unchanged sorted blocked
    rw [refused] at kept
    exact ⟨kept, .inr ⟨steps, rfl, blocked, outcome ▸ category⟩⟩

/-- A key refused by a number two steps inside. -/
theorem assign_error_scalar :
    let v := Value.object [(Text.ofString "a", .object [(Text.ofString "b", .int 1)])]
    (assign (Text.ofString "a.b.c.d") .null v).1 = .error (.keyIntoKind (Text.ofString "c")
      (Text.ofString "a.b.c.d") .number) ∧ (assign (Text.ofString "a.b.c.d") .null v).2 = v := by
  intro v
  have refused : (assign (Text.ofString "a.b.c.d") .null v).1 = .error (.keyIntoKind
      (Text.ofString "c") (Text.ofString "a.b.c.d") .number) := by cbv
  have sorted : v.Sorted := by
    refine .intro (List.pairwise_singleton _ _) (List.forall_mem_singleton.mpr ?_)
    refine .intro (List.pairwise_singleton _ _) (List.forall_mem_singleton.mpr ?_)
    exact .intro trivial fun _ none => absurd none List.not_mem_nil
  exact ⟨refused, (assign_error sorted (Prod.ext refused rfl)).1⟩

end Edit
end Schemata
