import Schemata.Proofs.Path.Assignment
import Schemata.Proofs.Value.Keyed

/-! Values changed in place, step after step. No element of a set equals a later one and no key of a
map equals a later key: what builds a value sees to it, and so does every change except one. A
reference to an element of a set lets anything be left there, and nobody compares it with the others.
`Mutation.Careful` says when such a write does no harm, and the last theorem that nothing else can. -/
namespace Schemata

/-- What holds of a value and of all values inside it. -/
inductive Throughout (holds : Value → Prop) : Value → Prop where
  | intro : holds v → (∀ part ∈ v.parts, Throughout holds part) → Throughout holds v

namespace Throughout

variable {holds : Value → Prop} {v inner : Value}

theorem here (all : Throughout holds v) : holds v := by
  cases all
  assumption

theorem part (all : Throughout holds v) (member : inner ∈ v.parts) : Throughout holds inner := by
  cases all with
  | intro _ inside => exact inside inner member

theorem iff : Throughout holds v ↔ holds v ∧ ∀ part ∈ v.parts, Throughout holds part := by
  constructor
  · intro all
    exact ⟨all.here, fun _ member => all.part member⟩
  · rintro ⟨here, inside⟩
    exact .intro here inside

end Throughout

/-- Asks nothing of what is undefined, of arrays and of objects, but of what is inside them. -/
structure Lenient (holds : Value → Prop) : Prop where
  undefined : holds .undefined
  array : ∀ items, holds (.array items)
  object : ∀ fields, holds (.object fields)

namespace Value

/-- No element of a set equals a later one, no key of a map a later key. -/
def Unrepeated : Value → Prop
  | set items => Distinct items
  | map entries => Distinct (entries.map Prod.fst)
  | _ => True

abbrev Sound : Value → Prop := Throughout Unrepeated

/-- An element left at the place of another: no element before it equals it, and it equals none
behind it. -/
def FreshAt (items : List Value) (index : Nat) (item : Value) : Prop :=
  (∀ earlier ∈ items.take index, eq earlier item = false) ∧
    ∀ later ∈ items.drop (index + 1), eq item later = false

section Parts

variable {v item key value : Value} {items : List Value} {entries : List (Value × Value)}
  {fields : List (Text × Value)} {name : Text} {index : Nat}

section Lenient

variable {holds : Value → Prop} (lenient : Lenient holds)

include lenient

theorem throughout_undefined : Throughout holds undefined :=
  .intro lenient.undefined fun _ member => by cases member

theorem throughout_array_iff :
    Throughout holds (array items) ↔ ∀ item ∈ items, Throughout holds item := by
  rw [Throughout.iff]
  exact and_iff_right (lenient.array items)

theorem throughout_object_iff :
    Throughout holds (object fields) ↔ ∀ field ∈ fields, Throughout holds field.2 := by
  rw [Throughout.iff, and_iff_right (lenient.object fields)]
  exact List.forall_mem_map

theorem throughout_find? (all : Throughout holds (object fields)) :
    Throughout holds ((Fields.find? name fields).getD undefined) := by
  rcases find?_mem_parts with nowhere | member
  · rw [nowhere]
    exact throughout_undefined lenient
  · exact all.part member

theorem throughout_getElem? (inside : ∀ item ∈ items, Throughout holds item) :
    Throughout holds (items[index]?.getD undefined) := by
  rcases getElem?_mem_parts index with nowhere | member
  · rw [nowhere]
    exact throughout_undefined lenient
  · exact inside _ member

theorem throughout_insert_iff (all : Throughout holds (object fields)) :
    Throughout holds (object (Fields.insert name value fields)) ↔ Throughout holds value := by
  rw [throughout_object_iff lenient] at all ⊢
  constructor
  · intro inside
    exact inside (name, value) (Fields.mem_of_find? Fields.find?_insert_self)
  · intro new field member
    rcases Fields.mem_of_mem_insert member with rfl | old
    · exact new
    · exact all field old

end Lenient

theorem lenient_unrepeated : Lenient Unrepeated := ⟨trivial, fun _ => trivial, fun _ => trivial⟩

theorem sound_array_iff : Sound (array items) ↔ ∀ item ∈ items, Sound item :=
  throughout_array_iff lenient_unrepeated

theorem sound_set_iff : Sound (set items) ↔ Distinct items ∧ ∀ item ∈ items, Sound item :=
  Throughout.iff

theorem sound_map_iff : Sound (map entries) ↔ Distinct (entries.map Prod.fst) ∧
    (∀ key ∈ entries.map Prod.fst, Sound key) ∧ ∀ value ∈ entries.map Prod.snd, Sound value := by
  rw [Sound, Throughout.iff]
  refine and_congr_right fun _ => ?_
  simp only [parts, List.mem_append, or_imp, forall_and]

theorem sound_object_iff : Sound (object fields) ↔ ∀ field ∈ fields, Sound field.2 :=
  throughout_object_iff lenient_unrepeated

theorem sound_ofItems (inside : ∀ item ∈ items, Sound item) : Sound (ofItems items) := by
  obtain ⟨kept, built, distinct, origin⟩ := ofItems_spec items
  rw [built, sound_set_iff]
  exact ⟨distinct, fun item member => inside item (origin item member)⟩

theorem sound_ofEntries (inside : ∀ e ∈ entries, Sound e.1 ∧ Sound e.2) :
    Sound (ofEntries entries) := by
  obtain ⟨kept, built, distinct, keys, values⟩ := ofEntries_spec entries
  rw [built, sound_map_iff]
  refine ⟨distinct, fun key member => ?_, fun value member => ?_⟩
  · obtain ⟨e, listed, rfl⟩ := List.mem_map.mp (keys key member)
    exact (inside e listed).1
  · obtain ⟨e, listed, rfl⟩ := List.mem_map.mp (values value member)
    exact (inside e listed).2

theorem sound_ofFields (inside : ∀ field ∈ fields, Sound field.2) : Sound (ofFields fields) :=
  sound_object_iff.mpr fun field member => inside field (Fields.mem_of_mem_ofList member)

theorem forall_mem_set_iff {holds : Value → Prop} (inside : ∀ item ∈ items, holds item)
    (present : index < items.length) :
    (∀ other ∈ items.set index item, holds other) ↔ holds item := by
  constructor
  · intro all
    exact all item (List.mem_set present item)
  · intro new other member
    rcases List.mem_or_eq_of_mem_set member with old | rfl
    · exact inside other old
    · exact new

/-- Where an element may be left without repeating another. -/
theorem distinct_set_iff (distinct : Distinct items) (present : index < items.length) :
    Distinct (items.set index item) ↔ FreshAt items index item := by
  have around := List.take_append_drop index items
  rw [List.drop_eq_getElem_cons present] at around
  have apart : Distinct (items.take index ++ items[index] :: items.drop (index + 1)) :=
    around.symm ▸ distinct
  obtain ⟨before, behind, across⟩ := List.pairwise_append.mp apart
  rw [List.set_eq_take_append_cons_drop, if_pos present, Distinct, List.pairwise_append,
    List.pairwise_cons]
  constructor
  · rintro ⟨_, ⟨later, _⟩, earlier⟩
    exact ⟨fun other member => earlier other member item List.mem_cons_self, later⟩
  · rintro ⟨earlier, later⟩
    refine ⟨before, ⟨later, (List.pairwise_cons.mp behind).2⟩, fun other member => ?_⟩
    rw [List.forall_mem_cons]
    exact ⟨earlier other member, fun _ beyond =>
      across other member _ (List.mem_cons_of_mem _ beyond)⟩

end Parts

section References

/-- The field that an edit of it starts from; undefined in what is no object. -/
def fieldOrUndefined : Value → Text → Value
  | object fields, key => (Fields.find? key fields).getD undefined
  | _, _ => undefined

/-- The element that an edit of a slot starts from, where there can be one. -/
def slot? : Value → Int → Option Value
  | undefined, index => if index < 0 then none else some undefined
  | array items, index => if index < 0 then none else some (items[index.toNat]?.getD undefined)
  | _, _ => none

variable {v item : Value} {key : Text} {index : Int}

section Lenient

variable {holds : Value → Prop} (lenient : Lenient holds)

include lenient

theorem throughout_fieldOrUndefined (all : Throughout holds v) :
    Throughout holds (v.fieldOrUndefined key) := by
  cases v with
  | object fields => exact throughout_find? lenient all
  | _ => exact throughout_undefined lenient

theorem throughout_of_mem_slot? (all : Throughout holds v) (chosen : item ∈ v.slot? index) :
    Throughout holds item := by
  cases v with
  | undefined =>
    simp only [slot?, Option.mem_def, Option.ite_none_left_eq_some, Option.some.injEq] at chosen
    exact chosen.2 ▸ throughout_undefined lenient
  | array items =>
    simp only [slot?, Option.mem_def, Option.ite_none_left_eq_some, Option.some.injEq] at chosen
    exact chosen.2 ▸ throughout_getElem? lenient ((throughout_array_iff lenient).mp all)
  | _ => cases chosen

end Lenient

theorem atIndex_eq_ok_iff {items : List Value} (listed : v.elements = .ok items) :
    v.atIndex index = .ok item ↔ 0 ≤ index ∧ items[index.toNat]? = some item := by
  simp only [atIndex, bind_eq_ok_iff, listed, Except.ok.injEq, exists_eq_left']
  by_cases negative : index < 0
  · rw [if_pos negative]
    simp only [reduceCtorEq, false_iff, not_and]
    omega
  · rw [if_neg negative, and_iff_right (Int.not_lt.mp negative)]
    cases items[index.toNat]? with
    | none => simp only [reduceCtorEq]
    | some found => simp only [Except.ok.injEq, Option.some.injEq]

theorem sound_of_atIndex (sound : Sound v) (found : v.atIndex index = .ok item) : Sound item := by
  cases v with
  | array items =>
    exact sound_array_iff.mp sound item (List.mem_of_getElem? ((atIndex_eq_ok_iff rfl).mp found).2)
  | set items =>
    obtain ⟨_, inside⟩ := sound_set_iff.mp sound
    exact inside item (List.mem_of_getElem? ((atIndex_eq_ok_iff rfl).mp found).2)
  | _ => cases found

theorem sound_of_atKey (sound : Sound v) (found : v.atKey key = .ok item) : Sound item := by
  cases v with
  | object fields =>
    simp only [atKey] at found
    split at found
    · rename_i child present
      cases found
      exact sound_object_iff.mp sound _ (Fields.mem_of_find? present)
    · cases found
  | _ => cases found

end References

end Value

/-! The edits that reach into a value, for any edit of the part. -/
namespace Edit

open Value

variable {v new : Value} {items : List Value} {key : Text} {index : Int} {edit : Edit α}
  {steps : List Path.Step}

theorem sound_inKey_iff (sound : Sound v) :
    Sound (inKey key edit v).2 ↔ ∀ child, v.atKey key = .ok child → Sound (edit child).2 := by
  cases v with
  | object fields =>
    simp only [inKey, atKey]
    cases Fields.find? key fields with
    | none => simpa using sound
    | some child => simpa using throughout_insert_iff lenient_unrepeated sound
  | _ => simpa [inKey, atKey] using sound

section Lenient

variable {holds : Value → Prop} (lenient : Lenient holds)

include lenient

theorem throughout_inField_iff (all : Throughout holds v) :
    Throughout holds (inField key edit v).2 ↔ Throughout holds (edit (v.fieldOrUndefined key)).2 := by
  cases v with
  | object fields => exact throughout_insert_iff lenient all
  | _ =>
    exact throughout_insert_iff lenient
      ((throughout_object_iff lenient).mpr fun _ member => absurd member List.not_mem_nil)

theorem throughout_inGrown_iff {index : Nat} (inside : ∀ item ∈ items, Throughout holds item) :
    Throughout holds (inGrown items index edit).2 ↔
      Throughout holds (edit (items[index]?.getD undefined)).2 := by
  have grown : ∀ item ∈ grow items (index + 1), Throughout holds item := by
    intro item member
    rcases List.mem_append.mp member with old | new
    · exact inside item old
    · rw [List.eq_of_mem_replicate new]
      exact throughout_undefined lenient
  exact (throughout_array_iff lenient).trans (forall_mem_set_iff grown lt_length_grow)

theorem throughout_inSlot_iff (all : Throughout holds v) : Throughout holds (inSlot index edit v).2 ↔
    ∀ item ∈ v.slot? index, Throughout holds (edit item).2 := by
  have none : ∀ item ∈ ([] : List Value), Throughout holds item :=
    fun _ member => absurd member List.not_mem_nil
  cases v with
  | undefined =>
    simp only [inSlot, slot?]
    split
    · simpa using (throughout_array_iff lenient).mpr none
    · simpa using throughout_inGrown_iff lenient none
  | array items =>
    simp only [inSlot, slot?]
    split
    · simpa using all
    · simpa using throughout_inGrown_iff lenient ((throughout_array_iff lenient).mp all)
  | _ => simpa [inSlot, slot?] using all

theorem throughout_assignSteps {path : Text} (all : Throughout holds v) (part : Throughout holds new) :
    Throughout holds (assignSteps path new steps v).2 := by
  induction steps generalizing v with
  | nil => exact part
  | cons step steps ih =>
    cases step with
    | key name =>
      cases v with
      | object | undefined =>
        exact (throughout_inField_iff lenient all).mpr (ih (throughout_fieldOrUndefined lenient all))
      | _ => exact all
    | index n =>
      cases v with
      | object =>
        exact (throughout_inField_iff lenient all).mpr (ih (throughout_fieldOrUndefined lenient all))
      | undefined | array =>
        refine (throughout_inSlot_iff lenient all).mpr fun item chosen => ih ?_
        exact throughout_of_mem_slot? lenient all chosen
      | _ => exact all

/-- An assignment only makes objects and arrays on its way, and enters neither a set nor a map. -/
theorem throughout_assign {path : Text} (all : Throughout holds v) (part : Throughout holds new) :
    Throughout holds (assign path new v).2 := by
  unfold assign
  split
  · exact all
  · exact throughout_assignSteps lenient all part

end Lenient

theorem sound_inIndex_iff (sound : Sound v) : Sound (inIndex index edit v).2 ↔
    ∀ item, v.atIndex index = .ok item → Sound (edit item).2 ∧
      ∀ items, v = set items → FreshAt items index.toNat (edit item).2 := by
  cases found : v.atIndex index with
  | error fault => simpa [inIndex, found] using sound
  | ok item =>
    simp only [inIndex, found, Except.ok.injEq, forall_eq']
    cases v with
    | array items =>
      obtain ⟨_, present⟩ := (atIndex_eq_ok_iff rfl).mp found
      have here := (List.getElem?_eq_some_iff.mp present).1
      rw [sound_array_iff, forall_mem_set_iff (sound_array_iff.mp sound) here]
      simp only [reduceCtorEq, false_implies, implies_true, and_true]
    | set items =>
      obtain ⟨_, present⟩ := (atIndex_eq_ok_iff rfl).mp found
      have here := (List.getElem?_eq_some_iff.mp present).1
      obtain ⟨distinct, inside⟩ := sound_set_iff.mp sound
      rw [sound_set_iff, forall_mem_set_iff inside here, distinct_set_iff distinct here]
      simp only [set.injEq, forall_eq', and_comm]
    | _ => cases found

theorem sound_erase (sound : Sound v) : Sound (erase key v).2 := by
  cases v with
  | object fields =>
    exact sound_object_iff.mpr fun field member =>
      sound_object_iff.mp sound field (Fields.mem_of_mem_erase member)
  | _ => exact sound

theorem sound_push (sound : Sound v) (part : Sound new) : Sound (push new v).2 := by
  cases v with
  | undefined => exact sound_array_iff.mpr (List.forall_mem_singleton.mpr part)
  | array items =>
    refine sound_array_iff.mpr fun other member => ?_
    rcases List.mem_append.mp member with old | last
    · exact sound_array_iff.mp sound other old
    · exact List.mem_singleton.mp last ▸ part
  | _ => exact sound

theorem sound_add (sound : Sound v) (part : Sound new) : Sound (add new v).2 := by
  cases v with
  | undefined =>
    exact sound_set_iff.mpr ⟨List.pairwise_singleton _ _, List.forall_mem_singleton.mpr part⟩
  | set items =>
    obtain ⟨distinct, inside⟩ := sound_set_iff.mp sound
    refine sound_set_iff.mpr ⟨distinct.addItem, fun other member => ?_⟩
    rcases mem_addItem member with old | rfl
    · exact inside other old
    · exact part
  | _ => exact sound

theorem sound_put {entryKey : Value} (sound : Sound v) (first : Sound entryKey)
    (second : Sound new) : Sound (put entryKey new v).2 := by
  cases v with
  | undefined =>
    exact sound_map_iff.mpr ⟨List.pairwise_singleton _ _, List.forall_mem_singleton.mpr first,
      List.forall_mem_singleton.mpr second⟩
  | map entries =>
    obtain ⟨distinct, keys, values⟩ := sound_map_iff.mp sound
    refine sound_map_iff.mpr ⟨?_, fun other member => ?_, fun other member => ?_⟩
    · rw [keys_putEntry]
      exact distinct.addItem
    · rw [keys_putEntry] at member
      rcases mem_addItem member with old | rfl
      · exact keys other old
      · exact first
    · rcases mem_values_putEntry member with old | rfl
      · exact values other old
      · exact second
  | _ => exact sound

end Edit

/-- A change of a value. The last four follow a reference into the value and change what is there:
a field that must be there, a field that is made if need be, an element of an array or a set, and a
slot of an array, which grows to have it. -/
inductive Mutation where
  | keep
  | replace (new : Value)
  | erase (key : Text)
  | push (item : Value)
  | add (item : Value)
  | put (key value : Value)
  | assign (path : Text) (new : Value)
  | inKey (key : Text) (rest : Mutation)
  | inField (key : Text) (rest : Mutation)
  | inIndex (index : Int) (rest : Mutation)
  | inSlot (index : Int) (rest : Mutation)

namespace Mutation

open Value

def edit : Mutation → Edit Unit
  | keep => fun v => (.ok (), v)
  | replace new => Edit.replace new
  | erase key => Edit.erase key
  | push item => Edit.push item
  | add item => fun v => ((Edit.add item v).1.map fun _ => (), (Edit.add item v).2)
  | put key value => Edit.put key value
  | assign path new => Edit.assign path new
  | inKey key rest => Edit.inKey key rest.edit
  | inField key rest => Edit.inField key rest.edit
  | inIndex index rest => Edit.inIndex index rest.edit
  | inSlot index rest => Edit.inSlot index rest.edit

/-- What is there afterwards, also when the change is refused on its way. -/
def after (m : Mutation) (v : Value) : Value := (m.edit v).2

/-- The values that a change brings along. -/
def arguments : Mutation → List Value
  | replace new | assign _ new => [new]
  | push item | add item => [item]
  | put key value => [key, value]
  | inKey _ rest | inField _ rest | inIndex _ rest | inSlot _ rest => rest.arguments
  | keep | erase _ => []

/-- What the change leaves behind a reference to an element of a set, at any depth, is fresh there. -/
def Careful : Mutation → Value → Prop
  | inKey key rest, v => ∀ child, v.atKey key = .ok child → rest.Careful child
  | inField key rest, v => rest.Careful (v.fieldOrUndefined key)
  | inIndex index rest, v => ∀ item, v.atIndex index = .ok item → rest.Careful item ∧
      ∀ items, v = set items → FreshAt items index.toNat (rest.after item)
  | inSlot index rest, v => ∀ item ∈ v.slot? index, rest.Careful item
  | _, _ => True

/-- No reference to an element of a list that is already there is followed. -/
def Indexless : Mutation → Prop
  | inIndex _ _ => False
  | inKey _ rest | inField _ rest | inSlot _ rest => rest.Indexless
  | _ => True

theorem Indexless.careful {m : Mutation} (indexless : m.Indexless) (v : Value) : m.Careful v := by
  induction m generalizing v with
  | inKey key rest ih => exact fun child _ => ih indexless child
  | inField key rest ih => exact ih indexless _
  | inIndex index rest ih => exact indexless.elim
  | inSlot index rest ih => exact fun item _ => ih indexless item
  | _ => trivial

variable {v : Value} {m : Mutation} {ms : List Mutation}

/-- A change keeps a value sound exactly when it is careful. -/
theorem sound_after_iff (sound : Sound v) (arguments : ∀ a ∈ m.arguments, Sound a) :
    Sound (m.after v) ↔ m.Careful v := by
  induction m generalizing v with
  | keep => exact iff_of_true sound trivial
  | replace new => exact iff_of_true (arguments new List.mem_cons_self) trivial
  | erase key => exact iff_of_true (Edit.sound_erase sound) trivial
  | push item => exact iff_of_true (Edit.sound_push sound (arguments item List.mem_cons_self)) trivial
  | add item => exact iff_of_true (Edit.sound_add sound (arguments item List.mem_cons_self)) trivial
  | put key value =>
    obtain ⟨newKey, newValue⟩ : Sound key ∧ Sound value := by
      simpa [Mutation.arguments] using arguments
    exact iff_of_true (Edit.sound_put sound newKey newValue) trivial
  | assign path new =>
    have part := arguments new List.mem_cons_self
    exact iff_of_true (Edit.throughout_assign lenient_unrepeated sound part) trivial
  | inKey key rest ih =>
    refine (Edit.sound_inKey_iff sound).trans (forall₂_congr fun child found => ?_)
    exact ih (sound_of_atKey sound found) arguments
  | inField key rest ih =>
    exact (Edit.throughout_inField_iff lenient_unrepeated sound).trans
      (ih (throughout_fieldOrUndefined lenient_unrepeated sound) arguments)
  | inIndex index rest ih =>
    refine (Edit.sound_inIndex_iff sound).trans (forall₂_congr fun item found => ?_)
    exact and_congr_left' (ih (sound_of_atIndex sound found) arguments)
  | inSlot index rest ih =>
    refine (Edit.throughout_inSlot_iff lenient_unrepeated sound).trans
      (forall₂_congr fun item chosen => ?_)
    exact ih (throughout_of_mem_slot? lenient_unrepeated sound chosen) arguments

/-- The values that a run of changes passes through, the first and the last among them. -/
def states : Value → List Mutation → List Value
  | v, [] => [v]
  | v, m :: ms => v :: states (m.after v) ms

def AllCareful : Value → List Mutation → Prop
  | _, [] => True
  | v, m :: ms => m.Careful v ∧ AllCareful (m.after v) ms

theorem Indexless.allCareful (indexless : ∀ m ∈ ms, m.Indexless) (v : Value) : AllCareful v ms := by
  induction ms generalizing v with
  | nil => trivial
  | cons m ms ih =>
    obtain ⟨first, rest⟩ := List.forall_mem_cons.mp indexless
    exact ⟨first.careful v, ih rest (m.after v)⟩

theorem mem_states_self : v ∈ states v ms := by
  cases ms <;> exact List.mem_cons_self

/-- A run passes through sound values alone exactly when each change is careful where it is made. -/
theorem sound_states_iff (sound : Sound v) (arguments : ∀ m ∈ ms, ∀ a ∈ m.arguments, Sound a) :
    (∀ u ∈ states v ms, Sound u) ↔ AllCareful v ms := by
  induction ms generalizing v with
  | nil => exact iff_of_true (List.forall_mem_singleton.mpr sound) trivial
  | cons m ms ih =>
    obtain ⟨first, rest⟩ := List.forall_mem_cons.mp arguments
    rw [states, List.forall_mem_cons, AllCareful, ← sound_after_iff sound first]
    constructor
    · rintro ⟨_, all⟩
      have next := all (m.after v) mem_states_self
      exact ⟨next, (ih next rest).mp all⟩
    · rintro ⟨next, careful⟩
      exact ⟨sound, (ih next rest).mpr careful⟩

end Mutation

namespace Value

/-- What the factories and careful changes make of values that were obtained before, and what is
read out of those. -/
inductive Obtained : Value → Prop where
  | undefined : Obtained undefined
  | null : Obtained null
  | bool (b : Bool) : Obtained (bool b)
  | int (n : Int64) : Obtained (int n)
  | double (x : Binary64) : Obtained (double x)
  | string (s : Text) : Obtained (string s)
  | symbol (identity : Nat) (description : Text) : Obtained (symbol identity description)
  | date (millis : Binary64) : Obtained (date millis)
  | array {items : List Value} : (∀ item ∈ items, Obtained item) → Obtained (array items)
  | ofItems {items : List Value} : (∀ item ∈ items, Obtained item) → Obtained (ofItems items)
  | ofEntries {entries : List (Value × Value)} : (∀ e ∈ entries, Obtained e.1) →
      (∀ e ∈ entries, Obtained e.2) → Obtained (ofEntries entries)
  | ofFields {fields : List (Text × Value)} : (∀ field ∈ fields, Obtained field.2) →
      Obtained (ofFields fields)
  | changed {v : Value} {m : Mutation} : Obtained v → (∀ a ∈ m.arguments, Obtained a) →
      m.Careful v → Obtained (m.after v)
  | inside {v part : Value} : Obtained v → part ∈ v.parts → Obtained part

theorem Obtained.sound {v : Value} (obtained : Obtained v) : Sound v := by
  induction obtained with
  | array _ ih => exact sound_array_iff.mpr ih
  | ofItems _ ih => exact sound_ofItems ih
  | ofEntries _ _ keys values => exact sound_ofEntries fun e member => ⟨keys e member, values e member⟩
  | ofFields _ ih => exact sound_ofFields ih
  | changed _ _ careful sound arguments => exact (Mutation.sound_after_iff sound arguments).mpr careful
  | inside _ member sound => exact sound.part member
  | _ => exact .intro trivial fun _ member => absurd member List.not_mem_nil

end Value

namespace Mutation

open Value

variable {v : Value} {ms : List Mutation}

/-- Along every run of changes, no set repeats an element and no map a key, at any depth, exactly
when each change that follows a reference to an element of a set leaves a fresh one there. Without
such references this is always so. -/
theorem unrepeated_throughout_run (obtained : Obtained v)
    (arguments : ∀ m ∈ ms, ∀ a ∈ m.arguments, Obtained a) :
    ((∀ u ∈ states v ms, Throughout Unrepeated u) ↔ AllCareful v ms) ∧
      ((∀ m ∈ ms, m.Indexless) → ∀ u ∈ states v ms, Throughout Unrepeated u) := by
  have exactly : (∀ u ∈ states v ms, Sound u) ↔ AllCareful v ms :=
    sound_states_iff obtained.sound fun m member a brought => (arguments m member a brought).sound
  exact ⟨exactly, fun indexless => exactly.mpr (Indexless.allCareful indexless v)⟩

theorem unrepeated_throughout_run_renumbered :
    states (ofItems [int 1, int 2]) [.inIndex 0 (.replace (int 3)), .add (int 1)] =
      [set [int 1, int 2], set [int 3, int 2], set [int 3, int 2, int 1]] ∧
    Throughout Unrepeated (set [int 3, int 2, int 1]) := by
  have run := @unrepeated_throughout_run (ofItems [int 1, int 2])
    [.inIndex 0 (.replace (int 3)), .add (int 1)] (.ofItems (by simp [Obtained.int]))
    (by simp [Mutation.arguments, Obtained.int])
  have apart : Distinct [int 1, int 2] := by simp [Distinct, eq]
  have added : addItem [int 3, int 2] (int 1) = [int 3, int 2, int 1] := by simp [addItem, eq]
  have passed : states (ofItems [int 1, int 2]) [.inIndex 0 (.replace (int 3)), .add (int 1)] =
      [set [int 1, int 2], set [int 3, int 2], set [int 3, int 2, int 1]] := by
    rw [ofItems_of_distinct apart, ← added]
    rfl
  refine ⟨passed, ?_⟩
  rw [passed, ofItems_of_distinct apart] at run
  refine run.1.mpr ⟨?_, trivial, trivial⟩ _ (by simp)
  rintro item -
  refine ⟨trivial, ?_⟩
  rintro items ⟨⟩
  simp [FreshAt, after, edit, Edit.replace, eq]

/-- An element of a set that is set to another one of its elements. -/
theorem element_repeated_through_reference : Obtained (ofItems [int 1, int 2]) ∧
    (inIndex 0 (replace (int 2))).after (ofItems [int 1, int 2]) = set [int 2, int 2] ∧
    ¬ Throughout Unrepeated (set [int 2, int 2]) := by
  refine ⟨.ofItems (by simp [Obtained.int]), ?_, ?_⟩
  · have apart : Distinct [int 1, int 2] := by simp [Distinct, eq]
    rw [ofItems_of_distinct apart]
    rfl
  · intro all
    have distinct : Distinct [int 2, int 2] := all.here
    simp [Distinct, eq] at distinct

end Mutation
end Schemata
