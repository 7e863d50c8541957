import Schemata.Proofs.Path.Sequence

/-! How far writes reach. A write is seen on the way to its place, at it and inside it, and nowhere
else; so whatever there is to be read after several writes into an empty object lies on the way to
the place of one of them, at it or inside it. -/
namespace Schemata

open Schemata.Path (Step)

namespace Value

variable {v new part : Value} {p q : List Step} {path : Text}

theorem follow_write_of_defined (writable : v.Writable p) (left : ∀ step ∈ p, step.Canonical)
    (right : ∀ step ∈ q, step.Canonical) (defined : (v.write p new).follow q ≠ undefined) :
    (p <+: q ∨ q <+: p) ∨ v.follow q ≠ undefined := by
  rcases prefix_or_parted p q with along | ⟨stem, a, b, p', q', rfl, rfl, different⟩
  · exact .inl along
  · refine .inr ?_
    have texts : b.text ≠ a.text := fun same =>
      different ((left a (by simp)).eq_of_text_eq (right b (by simp)) same.symm)
    rwa [follow_write_of_parted writable texts] at defined

/-- An object of such keys has nothing under a key that is no path. -/
theorem Segmented.follow_of_lookup (segmented : v.Segmented) (found : v.lookup path = .ok part) :
    ∃ steps, Path.parse path = .ok steps ∧ v.follow steps = part := by
  cases parsed : Path.parse path with
  | ok steps =>
    rw [lookup_of_segmented segmented parsed, Except.ok.injEq] at found
    exact ⟨steps, rfl, found⟩
  | error fault =>
    exfalso
    obtain ⟨fields, rfl, keys⟩ := segmented
    simp only [lookup, parsed] at found
    split at found
    · rename_i child there
      obtain ⟨step, canonical, rfl⟩ := keys path (Fields.mem_keys_of_find? there)
      cases parsed.symm.trans (Path.parse_text canonical)
    · cases found

end Value

namespace Edit

variable {results first rest : List (Text × Value)} {key : Text} {fault : Fault}
  {result data next after : Value} {q : List Step}

theorem assignAll_cons_error (defined : result ≠ .undefined)
    (refused : assign key result data = (.error fault, next)) :
    assignAll ((key, result) :: rest) data = .error fault := by
  cases result with
  | undefined => exact absurd rfl defined
  | _ => simp only [assignAll, refused]

theorem assignAll_append :
    assignAll (first ++ rest) data = assignAll first data >>= assignAll rest := by
  induction first generalizing data with
  | nil => rfl
  | cons w later ih =>
    obtain ⟨key, result⟩ := w
    by_cases omitted : result = .undefined
    · subst omitted
      exact ih
    · rw [List.cons_append]
      cases written : assign key result data with
      | mk answer next =>
        cases answer with
        | ok => rw [assignAll_cons omitted written, assignAll_cons omitted written, ih]
        | error fault =>
          rw [assignAll_cons_error omitted written, assignAll_cons_error omitted written]
          rfl

theorem assign_eq_ok (assigned : assign key result data = (.ok (), next)) :
    ∃ steps, Path.parse key = .ok steps ∧ data.Writable steps ∧ next = data.write steps result := by
  cases parsed : Path.parse key with
  | error fault =>
    rw [assign, parsed] at assigned
    cases assigned
  | ok steps =>
    by_cases writable : data.Writable steps
    · rw [assign_of_writable parsed writable] at assigned
      exact ⟨steps, rfl, writable, (Prod.mk.inj assigned).2.symm⟩
    · obtain ⟨fault, _, refused⟩ := assign_of_not_writable parsed writable
      rw [assigned] at refused
      cases refused

/-- A result that is there and was written at a place on the way of `q`, or inside it. -/
def Reaches (q : List Step) (w : Text × Value) : Prop :=
  w.2 ≠ .undefined ∧ ∃ p, Path.parse w.1 = .ok p ∧ (p <+: q ∨ q <+: p)

theorem exists_reaches_of_defined (assigned : assignAll results data = .ok after)
    (canonical : ∀ step ∈ q, step.Canonical) (defined : after.follow q ≠ .undefined) :
    (∃ w ∈ results, Reaches q w) ∨ data.follow q ≠ .undefined := by
  -- What is there in the end was there before, or some write has put it there.
  induction results generalizing data with
  | nil =>
    cases assigned
    exact .inr defined
  | cons w rest ih =>
    obtain ⟨key, result⟩ := w
    by_cases omitted : result = .undefined
    · subst omitted
      rcases ih assigned with ⟨w, later, reaches⟩ | before
      · exact .inl ⟨w, List.mem_cons_of_mem _ later, reaches⟩
      · exact .inr before
    · cases first : assign key result data with
      | mk answer next =>
        cases answer with
        | error fault =>
          rw [assignAll_cons_error omitted first] at assigned
          cases assigned
        | ok =>
          rw [assignAll_cons omitted first] at assigned
          rcases ih assigned with ⟨w, later, reaches⟩ | between
          · exact .inl ⟨w, List.mem_cons_of_mem _ later, reaches⟩
          · obtain ⟨p, parsed, writable, rfl⟩ := assign_eq_ok first
            have left := Path.parse_canonical parsed
            rcases Value.follow_write_of_defined writable left canonical between with along | before
            · exact .inl ⟨_, List.mem_cons_self, omitted, p, parsed, along⟩
            · exact .inr before

end Edit
end Schemata
