import Mathlib.Data.Set.Basic
import Schemata.Proofs.Value.Mutation

/-! The symbols in a value, at any depth. Containers are built, converted, read and written without
any symbol that was not there before. -/
namespace Schemata

theorem Throughout.mono {holds more : Value → Prop} {v : Value} (all : Throughout holds v)
    (weaker : ∀ v, holds v → more v) : Throughout more v := by
  induction all with
  | intro here _ ih => exact .intro (weaker _ here) ih

namespace Value

/-- All symbols in the value are of known identities. -/
abbrev DrawnFrom (known : Set Nat) (v : Value) : Prop :=
  Throughout (fun v => ∀ identity description, v = symbol identity description → identity ∈ known) v

variable {known more : Set Nat} {v inner key new : Value} {items : List Value}
  {entries : List (Value × Value)} {fields : List (Text × Value)} {identity : Nat} {text : Text}

theorem DrawnFrom.mono (drawn : v.DrawnFrom known) (grown : known ⊆ more) : v.DrawnFrom more :=
  Throughout.mono drawn fun _ here identity description same => grown (here identity description same)

theorem drawn_pair_iff : (∀ v ∈ [inner, new], v.DrawnFrom known) ↔
    inner.DrawnFrom known ∧ new.DrawnFrom known := by
  rw [List.forall_mem_cons, List.forall_mem_singleton]

theorem drawn_symbol_iff : (symbol identity text).DrawnFrom known ↔ identity ∈ known := by
  constructor
  · intro drawn
    exact drawn.here identity text rfl
  · intro member
    refine .intro ?_ fun _ inside => absurd inside List.not_mem_nil
    rintro _ _ ⟨⟩
    exact member

/-- A value that is no symbol has the symbols of its parts. -/
theorem drawn_iff_parts (other : v.form ≠ .symbol) :
    v.DrawnFrom known ↔ ∀ part ∈ v.parts, part.DrawnFrom known := by
  rw [DrawnFrom, Throughout.iff, and_iff_right_iff_imp]
  rintro _ identity description rfl
  exact absurd rfl other

theorem drawn_of_alone (other : v.form ≠ .symbol) (alone : v.parts = []) : v.DrawnFrom known :=
  (drawn_iff_parts other).mpr fun _ member => absurd (alone ▸ member) List.not_mem_nil

theorem lenient_drawn : Lenient fun v =>
    ∀ identity description, v = symbol identity description → identity ∈ known where
  undefined _ _ same := by cases same
  array _ _ _ same := by cases same
  object _ _ _ same := by cases same

theorem drawn_undefined : undefined.DrawnFrom known := throughout_undefined lenient_drawn

theorem drawn_string (s : Text) : (string s).DrawnFrom known :=
  drawn_of_alone Form.noConfusion rfl

theorem drawn_emptyObject : (object []).DrawnFrom known := drawn_of_alone Form.noConfusion rfl

theorem drawn_array_iff : (array items).DrawnFrom known ↔ ∀ item ∈ items, item.DrawnFrom known :=
  throughout_array_iff lenient_drawn

theorem drawn_set_iff : (set items).DrawnFrom known ↔ ∀ item ∈ items, item.DrawnFrom known :=
  drawn_iff_parts Form.noConfusion

theorem drawn_map_iff : (map entries).DrawnFrom known ↔
    ∀ part ∈ entries.map Prod.fst ++ entries.map Prod.snd, part.DrawnFrom known :=
  drawn_iff_parts Form.noConfusion

theorem drawn_map_cons_iff {entry : Value × Value} : (map (entry :: entries)).DrawnFrom known ↔
    (entry.1.DrawnFrom known ∧ entry.2.DrawnFrom known) ∧ (map entries).DrawnFrom known := by
  simp only [drawn_map_iff, List.map_cons, List.cons_append, List.mem_cons, List.mem_append, or_imp,
    forall_and, forall_eq]
  grind

theorem drawn_object_iff : (object fields).DrawnFrom known ↔
    ∀ part ∈ fields.map Prod.snd, part.DrawnFrom known :=
  drawn_iff_parts Form.noConfusion

theorem drawn_ofItems (inside : ∀ item ∈ items, item.DrawnFrom known) :
    (ofItems items).DrawnFrom known := by
  obtain ⟨kept, built, _, origin⟩ := ofItems_spec items
  rw [built, drawn_set_iff]
  exact fun item member => inside item (origin item member)

theorem drawn_ofEntries
    (inside : ∀ part ∈ entries.map Prod.fst ++ entries.map Prod.snd, part.DrawnFrom known) :
    (ofEntries entries).DrawnFrom known := by
  obtain ⟨kept, built, _, keys, values⟩ := ofEntries_spec entries
  rw [built, drawn_map_iff]
  intro part member
  rcases List.mem_append.mp member with key | value
  · exact inside part (List.mem_append_left _ (keys part key))
  · exact inside part (List.mem_append_right _ (values part value))

theorem drawn_insert (inside : ∀ part ∈ fields.map Prod.snd, part.DrawnFrom known)
    (drawn : new.DrawnFrom known) (name : Text) :
    ∀ part ∈ (Fields.insert name new fields).map Prod.snd, part.DrawnFrom known :=
  drawn_object_iff.mp ((throughout_insert_iff lenient_drawn (drawn_object_iff.mpr inside)).mpr drawn)

theorem DrawnFrom.lookup {path : Text} (drawn : v.DrawnFrom known)
    (found : v.lookup path = .ok inner) : inner.DrawnFrom known :=
  lookup_of_parts drawn_undefined (fun _ _ => Throughout.part) drawn found

theorem DrawnFrom.assign {path : Text} (drawn : v.DrawnFrom known) (part : new.DrawnFrom known) :
    (Edit.assign path new v).2.DrawnFrom known :=
  Edit.throughout_assign lenient_drawn drawn part

theorem isNumber_int_or_double (p : Prop) [Decidable p] (n : Int64) (x : Binary64) :
    (if p then int n else double x).isNumber = true := by
  split <;> rfl

theorem isNumber_ofNumeral (t : Text) : (ofNumeral t).isNumber = true := by
  unfold ofNumeral
  dsimp only
  split
  · rfl
  · split
    · rfl
    · split
      · exact isNumber_int_or_double _ _ _
      · split
        · exact isNumber_int_or_double _ _ _
        · split <;> rfl

theorem isNumber_toNumber (v : Value) : v.toNumber.isNumber = true := by
  cases v with
  | string s => exact isNumber_ofNumeral _
  | array items => exact isNumber_ofNumeral _
  | _ => rfl

theorem drawn_toNumber (v : Value) : v.toNumber.DrawnFrom known := by
  have number := isNumber_toNumber v
  cases toNumber : v.toNumber with
  | int | double => exact drawn_of_alone Form.noConfusion rfl
  | _ =>
    rw [toNumber] at number
    cases number

theorem drawn_toDate (v : Value) : v.toDate.DrawnFrom known := by
  cases v <;> exact drawn_of_alone Form.noConfusion rfl

theorem DrawnFrom.toArray (drawn : v.DrawnFrom known) : v.toArray.DrawnFrom known := by
  cases v with
  | set items => exact drawn_array_iff.mpr (drawn_set_iff.mp drawn)
  | _ => exact drawn

theorem DrawnFrom.toSet (drawn : v.DrawnFrom known) : v.toSet.DrawnFrom known := by
  cases v with
  | array items => exact drawn_ofItems (drawn_array_iff.mp drawn)
  | _ => exact drawn

/-- The fields of an object as entries under texts. -/
theorem drawn_entries_of_fields (drawn : (object fields).DrawnFrom known) :
    ∀ part ∈ (fields.map fun (k, v) => (string k, v)).map Prod.fst ++
      (fields.map fun (k, v) => (string k, v)).map Prod.snd, part.DrawnFrom known := by
  simp only [List.map_map, List.mem_append, List.mem_map, Function.comp_apply]
  rintro part (⟨field, _, rfl⟩ | ⟨field, member, rfl⟩)
  · exact drawn_string field.1
  · exact drawn_object_iff.mp drawn field.2 (List.mem_map_of_mem member)

theorem DrawnFrom.toMap (drawn : v.DrawnFrom known) : v.toMap.DrawnFrom known := by
  cases v with
  | object fields => exact drawn_ofEntries (drawn_entries_of_fields drawn)
  | _ => exact drawn

end Value
end Schemata
