import Schemata.Coercion
import Schemata.Path.Lookup
import Schemata.Proofs.Fields
import Schemata.Proofs.Runs
import Schemata.Proofs.Value.Distinct

/-! Values in which no key occurs twice, neither in an object nor in a map, however deep. All values
are: putting an entry replaces the one that is there, so the sets, maps and objects that are built of
keyed values are keyed. Reading at a path and coercing stay among them. -/
namespace Schemata.Value

/-- The values directly inside a value, the keys of a map among them. -/
def parts : Value → List Value
  | array items | set items => items
  | map entries => entries.map Prod.fst ++ entries.map Prod.snd
  | object fields => fields.map Prod.snd
  | _ => []

/-- No field has the key of another, and no key of a map equals a later one. -/
def KeysOnce : Value → Prop
  | map entries => Distinct (entries.map Prod.fst)
  | object fields => (Fields.keys fields).Nodup
  | _ => True

inductive Keyed : Value → Prop where
  | intro : KeysOnce v → (∀ part ∈ parts v, Keyed part) → Keyed v

variable {v inner : Value} {items : List Value} {entries : List (Value × Value)}
  {fields : List (Text × Value)} {key : Text}

theorem Keyed.once (keyed : Keyed v) : KeysOnce v := by
  cases keyed
  assumption

theorem Keyed.part (keyed : Keyed v) (member : inner ∈ parts v) : Keyed inner := by
  cases keyed with
  | intro _ inside => exact inside inner member

theorem keyed_of_alone (once : KeysOnce v) (alone : parts v = []) : Keyed v :=
  .intro once fun _ member => absurd (alone ▸ member) List.not_mem_nil

theorem keyed_undefined : Keyed undefined := keyed_of_alone trivial rfl

theorem keyed_string (s : Text) : Keyed (string s) := keyed_of_alone trivial rfl

theorem keyed_array_iff : Keyed (array items) ↔ ∀ item ∈ items, Keyed item :=
  ⟨fun keyed _ member => keyed.part member, fun inside => .intro trivial inside⟩

theorem keyed_set_iff : Keyed (set items) ↔ ∀ item ∈ items, Keyed item :=
  ⟨fun keyed _ member => keyed.part member, fun inside => .intro trivial inside⟩

theorem Keyed.elements (keyed : Keyed v) (listed : v.elements = .ok items) :
    ∀ item ∈ items, Keyed item := by
  cases v with
  | array | set =>
    cases listed
    exact fun item member => keyed.part member
  | _ => cases listed

theorem distinct_strings {keys : List Text} (once : keys.Nodup) : Distinct (keys.map string) := by
  refine List.pairwise_map.mpr (once.imp fun different => ?_)
  rw [eq]
  exact beq_false_of_ne different

theorem keyed_ofItems (inside : ∀ item ∈ items, Keyed item) : Keyed (ofItems items) := by
  obtain ⟨kept, built, _, origin⟩ := ofItems_spec items
  rw [built, keyed_set_iff]
  exact fun item member => inside item (origin item member)

theorem keyed_ofEntries (inside : ∀ e ∈ entries, Keyed e.1 ∧ Keyed e.2) :
    Keyed (ofEntries entries) := by
  obtain ⟨kept, built, distinct, keys, values⟩ := ofEntries_spec entries
  rw [built]
  refine .intro distinct fun part member => ?_
  rcases List.mem_append.mp member with key | value
  · obtain ⟨e, listed, rfl⟩ := List.mem_map.mp (keys part key)
    exact (inside e listed).1
  · obtain ⟨e, listed, rfl⟩ := List.mem_map.mp (values part value)
    exact (inside e listed).2

theorem keyed_ofFields (inside : ∀ field ∈ fields, Keyed field.2) : Keyed (ofFields fields) := by
  refine .intro (Fields.ascending_ofList fields).nodup fun part member => ?_
  obtain ⟨field, listed, rfl⟩ := List.mem_map.mp member
  exact inside field (Fields.mem_of_mem_ofList listed)

theorem find?_mem_parts : (Fields.find? key fields).getD undefined = undefined ∨
    (Fields.find? key fields).getD undefined ∈ parts (object fields) := by
  cases found : Fields.find? key fields with
  | none => exact .inl rfl
  | some child => exact .inr (List.mem_map_of_mem (Fields.mem_of_find? found))

theorem getElem?_mem_parts (index : Nat) : items[index]?.getD undefined = undefined ∨
    items[index]?.getD undefined ∈ items := by
  cases found : items[index]? with
  | none => exact .inl rfl
  | some item => exact .inr (List.mem_of_getElem? found)

theorem get_mem_parts (sought : Value) : (map entries).get sought = undefined ∨
    (map entries).get sought ∈ parts (map entries) := by
  simp only [Value.get, entryUnder?]
  cases found : entries.find? fun e => eq e.1 sought with
  | none => exact .inl rfl
  | some e =>
    refine .inr (List.mem_append_right _ ?_)
    exact List.mem_map_of_mem (List.mem_of_find?_eq_some found)

/-- A step leads to a part of the value or nowhere. -/
theorem step_mem_parts (v : Value) (step : Path.Step) :
    v.step step = undefined ∨ v.step step ∈ v.parts := by
  cases step with
  | key name =>
    cases v with
    | object fields => exact find?_mem_parts
    | map entries => exact get_mem_parts _
    | _ => exact .inl rfl
  | index n =>
    cases v with
    | object fields => exact find?_mem_parts
    | array items | set items => exact getElem?_mem_parts n
    | map entries =>
      simp only [Value.step]
      split
      · exact get_mem_parts _
      · exact get_mem_parts _
    | _ => exact .inl rfl

section Reading

variable {holds : Value → Prop}

/-- What undefined has, and the parts of whatever has it, is had by all that steps lead to. -/
theorem follow_of_parts (nowhere : holds undefined)
    (inside : ∀ v inner, holds v → inner ∈ v.parts → holds inner) (steps : List Path.Step)
    (here : holds v) : holds (v.follow steps) := by
  induction steps generalizing v with
  | nil => exact here
  | cons step steps ih =>
    simp only [Value.follow]
    split
    · exact nowhere
    · refine ih ?_
      rcases step_mem_parts v step with none | member
      · exact none ▸ nowhere
      · exact inside v _ here member

theorem lookup_of_parts {path : Text} (nowhere : holds undefined)
    (inside : ∀ v inner, holds v → inner ∈ v.parts → holds inner) (here : holds v)
    (found : v.lookup path = .ok inner) : holds inner := by
  have followed (read : (Path.parse path).map v.follow = .ok inner) : holds inner := by
    obtain ⟨steps, _, rfl⟩ := map_eq_ok_iff.mp read
    exact follow_of_parts nowhere inside steps here
  unfold Value.lookup at found
  split at found
  · rename_i fields
    split at found
    · rename_i child present
      obtain rfl : child = inner := Except.ok.inj found
      exact inside _ _ here (List.mem_map_of_mem (Fields.mem_of_find? present))
    · exact followed found
  · exact followed found

end Reading

/-- What a keyed value has at a path is keyed. -/
theorem Keyed.lookup {path : Text} (keyed : Keyed v) (found : v.lookup path = .ok inner) :
    Keyed inner :=
  lookup_of_parts keyed_undefined (fun _ _ => Keyed.part) keyed found

theorem Keyed.toArray (keyed : Keyed v) : Keyed v.toArray := by
  cases v with
  | set items => exact keyed_array_iff.mpr (keyed_set_iff.mp keyed)
  | _ => exact keyed

theorem Keyed.toSet (keyed : Keyed v) : Keyed v.toSet := by
  cases v with
  | array items => exact keyed_ofItems (keyed_array_iff.mp keyed)
  | _ => exact keyed

theorem Keyed.toMap (keyed : Keyed v) : Keyed v.toMap := by
  cases v with
  | object fields =>
    refine keyed_ofEntries fun e member => ?_
    obtain ⟨field, listed, rfl⟩ := List.mem_map.mp member
    exact ⟨keyed_string _, keyed.part (List.mem_map_of_mem listed)⟩
  | _ => exact keyed

end Schemata.Value
