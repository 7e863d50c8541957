import Mathlib.Logic.Function.Basic
import Schemata.Proofs.Value.Mutation

/-! What a change leaves behind when it is refused. An operation on a value that is refused has not
touched it, with one exception: an undefined value that is asked for a negative slot has become an empty
array before the index is looked at. Behind references the same holds of the operation that refuses, and
all that is left of the change is what the references on the way to it have made. -/
namespace Schemata

namespace Edit

open Value

variable {v child item : Value} {key : Text} {index : Int} {fault : Fault}
  {reference : Edit Unit → Edit Unit} {edit other : Edit Unit}

/-- At `v` the reference leads to `child`, and what an edit makes of `child` is put where it was. -/
def LeadsTo (reference : Edit Unit → Edit Unit) (v child : Value) : Prop :=
  ∃ put : Value → Value, put.Injective ∧ ∀ edit, reference edit v = ((edit child).1, put (edit child).2)

/-- At `v` the reference leads nowhere, and `left` is there afterwards. -/
def Breaks (reference : Edit Unit → Edit Unit) (v left : Value) : Prop :=
  ∃ fault, ∀ edit, reference edit v = (.error fault, left)

theorem LeadsTo.outcome (leads : LeadsTo reference v child) : (reference edit v).1 = (edit child).1 := by
  obtain ⟨put, _, same⟩ := leads
  rw [same]

theorem LeadsTo.left_iff (leads : LeadsTo reference v child) :
    (reference edit v).2 = (reference other v).2 ↔ (edit child).2 = (other child).2 := by
  obtain ⟨put, injective, same⟩ := leads
  rw [same, same]
  exact injective.eq_iff

theorem Breaks.left {left : Value} (breaks : Breaks reference v left) : (reference edit v).2 = left := by
  obtain ⟨fault, same⟩ := breaks
  rw [same]

theorem insert_injective (key : Text) (fields : Fields Value) :
    Function.Injective fun child => Value.object (Fields.insert key child fields) := by
  intro a b same
  have found := congrArg (Fields.find? key) (object.inj same)
  simpa only [Fields.find?_insert_self, Option.some.injEq] using found

theorem set_injective {items : List Value} {n : Nat} (present : n < items.length) :
    Function.Injective fun item => items.set n item := by
  intro a b same
  have found := congrArg (fun all => all[n]?) same
  simpa only [List.getElem?_set_self present, Option.some.injEq] using found

theorem leadsTo_inKey (found : v.atKey key = .ok child) : LeadsTo (inKey key) v child := by
  cases v with
  | object fields =>
    simp only [atKey] at found
    split at found
    · rename_i first present
      cases found
      exact ⟨_, insert_injective key fields, fun edit => by simp only [inKey, present]⟩
    · cases found
  | _ => cases found

theorem breaks_inKey (missing : v.atKey key = .error fault) : Breaks (inKey key) v v := by
  cases v with
  | object fields =>
    simp only [atKey] at missing
    split at missing
    · cases missing
    · rename_i absent
      exact ⟨fault, fun edit => by simp only [inKey, absent]; cases missing; rfl⟩
  | _ => exact ⟨_, fun edit => rfl⟩

theorem leadsTo_inField (v : Value) (key : Text) : LeadsTo (inField key) v (v.fieldOrUndefined key) := by
  cases v with
  | object fields => exact ⟨_, insert_injective key fields, fun edit => rfl⟩
  | _ => exact ⟨_, insert_injective key [], fun edit => rfl⟩

theorem leadsTo_inIndex (found : v.atIndex index = .ok item) : LeadsTo (inIndex index) v item := by
  cases v with
  | array items =>
    have present := (List.getElem?_eq_some_iff.mp ((atIndex_eq_ok_iff rfl).mp found).2).1
    refine ⟨fun item => .array (items.set index.toNat item), ?_, fun edit => by simp only [inIndex, found]⟩
    exact fun a b same => set_injective present (array.inj same)
  | set items =>
    have present := (List.getElem?_eq_some_iff.mp ((atIndex_eq_ok_iff rfl).mp found).2).1
    refine ⟨fun item => .set (items.set index.toNat item), ?_, fun edit => by simp only [inIndex, found]⟩
    exact fun a b same => set_injective present (set.inj same)
  | _ => cases found

theorem breaks_inIndex (missing : v.atIndex index = .error fault) : Breaks (inIndex index) v v :=
  ⟨fault, fun edit => by simp only [inIndex, missing]⟩

theorem leadsTo_inSlot (chosen : v.slot? index = some item) : LeadsTo (inSlot index) v item := by
  cases v with
  | undefined =>
    simp only [slot?, Option.ite_none_left_eq_some, Option.some.injEq] at chosen
    obtain ⟨nonneg, rfl⟩ := chosen
    refine ⟨fun item => .array ((grow [] (index.toNat + 1)).set index.toNat item), ?_, fun edit => ?_⟩
    · exact fun a b same => set_injective lt_length_grow (array.inj same)
    · simp only [inSlot, if_neg nonneg]
      rfl
  | array items =>
    simp only [slot?, Option.ite_none_left_eq_some, Option.some.injEq] at chosen
    obtain ⟨nonneg, rfl⟩ := chosen
    refine ⟨fun item => .array ((grow items (index.toNat + 1)).set index.toNat item), ?_, fun edit => ?_⟩
    · exact fun a b same => set_injective lt_length_grow (array.inj same)
    · simp only [inSlot, if_neg nonneg]
      rfl
  | _ => cases chosen

/-- What a slot that is not there leaves behind. -/
def withoutSlot : Value → Value
  | .undefined => .array []
  | v => v

theorem breaks_inSlot (missing : v.slot? index = none) : Breaks (inSlot index) v (withoutSlot v) := by
  cases v with
  | undefined | array =>
    have negative : index < 0 := by simpa [slot?] using missing
    exact ⟨.negativeSlot, fun edit => by simp only [inSlot, if_pos negative, withoutSlot]⟩
  | _ => exact ⟨_, fun edit => rfl⟩

theorem withoutSlot_eq_iff : withoutSlot v = v ↔ v ≠ .undefined := by
  cases v with
  | undefined => simp [withoutSlot]
  | _ => exact iff_of_true rfl nofun

variable {new entryKey : Value}

theorem push_refused (refused : (push new v).1 = .error fault) : (push new v).2 = v := by
  cases v with
  | undefined | array => cases refused
  | _ => rfl

theorem add_refused (refused : (add new v).1 = .error fault) : (add new v).2 = v := by
  cases v with
  | undefined | set => cases refused
  | _ => rfl

theorem put_refused (refused : (put entryKey new v).1 = .error fault) :
    (put entryKey new v).2 = v := by
  cases v with
  | undefined | map => cases refused
  | _ => rfl

end Edit

namespace Mutation

open Value

variable {v : Value} {m rest : Mutation} {fault : Fault}

/-- No part of the change is an assignment by path. -/
def Pathless : Mutation → Prop
  | assign _ _ => False
  | inKey _ rest | inField _ rest | inIndex _ rest | inSlot _ rest => rest.Pathless
  | _ => True

/-- One operation on the value itself. A reference is followed for no more than to read or to set what
is there. -/
def Single : Mutation → Prop
  | inKey _ rest | inField _ rest | inIndex _ rest | inSlot _ rest =>
    rest = keep ∨ ∃ new, rest = replace new
  | assign _ _ => False
  | _ => True

/-- The references of the change that lead somewhere, with nothing done behind them. -/
def followed : Mutation → Value → Mutation
  | inKey key rest, v =>
    match v.atKey key with
    | .ok child => inKey key (rest.followed child)
    | .error _ => keep
  | inField key rest, v => inField key (rest.followed (v.fieldOrUndefined key))
  | inIndex index rest, v =>
    match v.atIndex index with
    | .ok item => inIndex index (rest.followed item)
    | .error _ => keep
  | inSlot index rest, v =>
    match v.slot? index with
    | some item => inSlot index (rest.followed item)
    | none => keep
  | _, _ => keep

/-- Somewhere on its way the change asks an undefined value for a slot that cannot be. -/
def Stumbles : Mutation → Value → Prop
  | inKey key rest, v => ∃ child, v.atKey key = .ok child ∧ rest.Stumbles child
  | inField key rest, v => rest.Stumbles (v.fieldOrUndefined key)
  | inIndex index rest, v => ∃ item, v.atIndex index = .ok item ∧ rest.Stumbles item
  | inSlot index rest, v =>
    v = undefined ∧ index < 0 ∨ ∃ item, v.slot? index = some item ∧ rest.Stumbles item
  | _, _ => False

theorem undefined_negative_iff {index : Int} (missing : v.slot? index = none) :
    v = undefined ∧ index < 0 ↔ v = undefined := by
  refine and_iff_left_of_imp fun undefined => ?_
  subst undefined
  simpa [slot?] using missing

theorem not_negative_of_slot? {index : Int} {item : Value} (chosen : v.slot? index = some item) :
    ¬ (v = undefined ∧ index < 0) := by
  rintro ⟨rfl, negative⟩
  simp [slot?, negative] at chosen

theorem followed_accepted (m : Mutation) (v : Value) : ((m.followed v).edit v).1 = .ok () := by
  induction m generalizing v with
  | inKey key rest ih =>
    rw [followed]
    split
    · rename_i child found
      exact (Edit.leadsTo_inKey found).outcome.trans (ih child)
    · rfl
  | inField key rest ih => exact (Edit.leadsTo_inField v key).outcome.trans (ih _)
  | inIndex index rest ih =>
    rw [followed]
    split
    · rename_i item found
      exact (Edit.leadsTo_inIndex found).outcome.trans (ih item)
    · rfl
  | inSlot index rest ih =>
    rw [followed]
    split
    · rename_i item chosen
      exact (Edit.leadsTo_inSlot chosen).outcome.trans (ih item)
    · rfl
  | _ => rfl

theorem arguments_followed (m : Mutation) (v : Value) : (m.followed v).arguments = [] := by
  induction m generalizing v with
  | inField key rest ih => exact ih _
  | inKey key rest ih | inIndex index rest ih | inSlot index rest ih =>
    rw [followed]
    split
    · exact ih _
    · rfl
  | _ => rfl

/-- A refused operation leaves what the references before it have made, unless it stumbles. -/
theorem after_eq_followed_iff (pathless : m.Pathless) (refused : (m.edit v).1 = .error fault) :
    m.after v = (m.followed v).after v ↔ ¬ m.Stumbles v := by
  induction m generalizing v with
  | keep | replace => cases refused
  | erase => cases v <;> cases refused
  | push => exact iff_of_true (Edit.push_refused refused) not_false
  | add => exact iff_of_true (Edit.add_refused (map_eq_error_iff.mp refused)) not_false
  | put => exact iff_of_true (Edit.put_refused refused) not_false
  | assign => exact pathless.elim
  | inKey key rest ih =>
    cases found : v.atKey key with
    | error missing =>
      simp only [followed, Stumbles, found, reduceCtorEq, false_and, exists_false, not_false_eq_true]
      exact iff_true_intro (Edit.breaks_inKey found).left
    | ok child =>
      have leads := Edit.leadsTo_inKey found
      simp only [followed, Stumbles, found, Except.ok.injEq, exists_eq_left']
      exact leads.left_iff.trans (ih pathless (leads.outcome.symm.trans refused))
  | inField key rest ih =>
    have leads := Edit.leadsTo_inField v key
    exact leads.left_iff.trans (ih pathless (leads.outcome.symm.trans refused))
  | inIndex index rest ih =>
    cases found : v.atIndex index with
    | error missing =>
      simp only [followed, Stumbles, found, reduceCtorEq, false_and, exists_false, not_false_eq_true]
      exact iff_true_intro (Edit.breaks_inIndex found).left
    | ok item =>
      have leads := Edit.leadsTo_inIndex found
      simp only [followed, Stumbles, found, Except.ok.injEq, exists_eq_left']
      exact leads.left_iff.trans (ih pathless (leads.outcome.symm.trans refused))
  | inSlot index rest ih =>
    cases chosen : v.slot? index with
    | none =>
      simp only [followed, Stumbles, chosen, reduceCtorEq, false_and, exists_false, or_false]
      rw [undefined_negative_iff chosen, ← ne_eq, ← Edit.withoutSlot_eq_iff]
      exact Eq.congr_left (Edit.breaks_inSlot chosen).left
    | some item =>
      have leads := Edit.leadsTo_inSlot chosen
      simp only [followed, Stumbles, chosen, Option.some.injEq, exists_eq_left']
      rw [or_iff_right (not_negative_of_slot? chosen)]
      exact leads.left_iff.trans (ih pathless (leads.outcome.symm.trans refused))

theorem followed_of_single (single : m.Single) (refused : (m.edit v).1 = .error fault) :
    m.followed v = keep := by
  cases m with
  | inKey key rest =>
    cases found : v.atKey key with
    | error missing => simp only [followed, found]
    | ok child =>
      have inner := (Edit.leadsTo_inKey found).outcome.symm.trans refused
      rcases single with rfl | ⟨new, rfl⟩ <;> cases inner
  | inField key rest =>
    have inner := (Edit.leadsTo_inField v key).outcome.symm.trans refused
    rcases single with rfl | ⟨new, rfl⟩ <;> cases inner
  | inIndex index rest =>
    cases found : v.atIndex index with
    | error missing => simp only [followed, found]
    | ok item =>
      have inner := (Edit.leadsTo_inIndex found).outcome.symm.trans refused
      rcases single with rfl | ⟨new, rfl⟩ <;> cases inner
  | inSlot index rest =>
    cases chosen : v.slot? index with
    | none => simp only [followed, chosen]
    | some item =>
      have inner := (Edit.leadsTo_inSlot chosen).outcome.symm.trans refused
      rcases single with rfl | ⟨new, rfl⟩ <;> cases inner
  | _ => rfl

theorem Single.pathless (single : m.Single) : m.Pathless := by
  cases m with
  | inKey | inField | inIndex | inSlot => rcases single with rfl | ⟨new, rfl⟩ <;> trivial
  | assign => exact single
  | _ => trivial

/-- A single operation can stumble in one way. -/
theorem stumbles_of_single (single : m.Single) :
    m.Stumbles v ↔ v = undefined ∧ ∃ index rest, m = inSlot index rest ∧ index < 0 := by
  cases m with
  | inSlot index rest =>
    have smooth (item : Value) : ¬ rest.Stumbles item := by
      rcases single with rfl | ⟨new, rfl⟩ <;> exact not_false
    simp [Stumbles, smooth]
  | inKey | inField | inIndex => rcases single with rfl | ⟨new, rfl⟩ <;> simp [Stumbles]
  | _ => simp [Stumbles]

/-- An operation that is refused leaves the value as it was, unless a negative slot is asked of an
undefined value: that has become an empty array. Where the operation stands behind references, just what
following these makes is left, unless it, or one of them, is such a request. -/
theorem value_after_refusal (refused : (m.edit v).1 = .error fault) :
    (m.Single →
      (m.after v = v ↔ ¬ (v = undefined ∧ ∃ index rest, m = inSlot index rest ∧ index < 0)) ∧
      (m.after v ≠ v → m.after v = array [] ∧ fault = .negativeSlot)) ∧
    (m.Pathless → (m.after v = (m.followed v).after v ↔ ¬ m.Stumbles v) ∧
      ((m.followed v).edit v).1 = .ok () ∧ (m.followed v).arguments = []) := by
  constructor
  · intro single
    have kept := after_eq_followed_iff single.pathless refused
    rw [followed_of_single single refused, stumbles_of_single single] at kept
    refine ⟨kept, fun changed => ?_⟩
    obtain ⟨rfl, index, rest, rfl, negative⟩ := not_not.mp fun sure => changed (kept.mpr sure)
    have request : (inSlot index rest).edit undefined = (.error .negativeSlot, array []) := if_pos negative
    rw [request] at refused
    exact ⟨congrArg Prod.snd request, (Except.error.inj refused).symm⟩
  · intro pathless
    exact ⟨after_eq_followed_iff pathless refused, followed_accepted m v, arguments_followed m v⟩

/-- A key that is not there behind a field that is made, and an index behind the end. -/
theorem value_after_refusal_missing :
    let a := Text.ofString "a"
    let deep := inField a (inKey (Text.ofString "b") (replace null))
    (deep.edit (int 5)).1 = .error (.missingKey (Text.ofString "b") []) ∧
    deep.after (int 5) = object [(a, undefined)] ∧
    (inIndex 1 (replace null)).after (set [int 5]) = set [int 5] := by
  intro a deep
  have first : (deep.edit (int 5)).1 = .error (.missingKey (Text.ofString "b") []) := rfl
  have made := ((value_after_refusal first).2 trivial).1.mpr fun stumbles => by
    obtain ⟨_, found, _⟩ := stumbles
    cases found
  have second : ((inIndex 1 (replace null)).edit (set [int 5])).1 = .error .indexOutOfRange := rfl
  have kept := ((value_after_refusal second).1 (.inr ⟨null, rfl⟩)).1.mpr fun request => by
    cases request.1
  exact ⟨first, made, kept⟩

/-- The request for a negative slot is refused, and what was undefined is an array. -/
theorem undefined_changed_by_refusal :
    let request := inSlot (-1) (replace (int 1))
    request.Single ∧ (request.edit undefined).1 = .error .negativeSlot ∧
      request.after undefined = array [] ∧ request.after undefined ≠ undefined :=
  ⟨.inr ⟨int 1, rfl⟩, rfl, rfl, nofun⟩

end Mutation
end Schemata
