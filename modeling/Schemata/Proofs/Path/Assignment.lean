import Schemata.Path.Lookup
import Schemata.Proofs.Fields
import Schemata.Proofs.Path.Grammar

/-! Reading after writing. `Value.write` is what an assignment that goes through comes to, and
`Value.Writable` says exactly when it does. Writes that part at different steps do not see each
other; they may still stand in each other's way, as the first one decides between object and array. -/
namespace Schemata

open Schemata.Path (Step)

namespace Value

/-- Whether a write can take a step into the value. -/
def takes : Value → Step → Bool
  | undefined, _ | object _, _ | array _, .index _ => true
  | _, _ => false

/-- The value with another part behind a step that it takes. -/
def writeStep (v : Value) (step : Step) (part : Value) : Value :=
  match v, step with
  | object fields, step => object (Fields.insert step.text part fields)
  | undefined, .key name => object [(name, part)]
  | undefined, .index n => array ((Edit.grow [] (n + 1)).set n part)
  | array items, .index n => array ((Edit.grow items (n + 1)).set n part)
  | v, _ => v

/-- The value with another part behind several steps. -/
def write : Value → List Step → Value → Value
  | _, [], part => part
  | v, step :: steps, part => v.writeStep step ((v.step step).write steps part)

/-- Every value on the way takes the next step. -/
def Writable : Value → List Step → Prop
  | _, [] => True
  | v, step :: steps => v.takes step = true ∧ (v.step step).Writable steps

theorem step_undefined (step : Step) : undefined.step step = undefined := by
  cases step <;> rfl

@[simp] theorem step_object (fields : Fields Value) (step : Step) :
    (object fields).step step = (Fields.find? step.text fields).getD undefined := by
  cases step <;> rfl

theorem follow_undefined (steps : List Step) : undefined.follow steps = undefined := by
  cases steps with
  | nil => rfl
  | cons step steps => rw [follow, step_undefined]; rfl

theorem follow_cons (v : Value) (step : Step) (steps : List Step) :
    v.follow (step :: steps) = (v.step step).follow steps := by
  rw [follow]
  cases v.step step <;> first | rfl | exact (follow_undefined steps).symm

theorem writable_undefined (steps : List Step) : undefined.Writable steps := by
  induction steps with
  | nil => trivial
  | cons step steps ih => exact ⟨by cases step <;> rfl, by rwa [step_undefined]⟩

theorem writable_emptyObject (steps : List Step) : (object []).Writable steps := by
  cases steps with
  | nil => trivial
  | cons step steps =>
    refine ⟨by cases step <;> rfl, ?_⟩
    rw [step_object]
    exact writable_undefined steps

/-- Grown items are undefined where there was nothing. -/
theorem getElem?_grow_eq (items : List Value) (n m : Nat) : (Edit.grow items n)[m]? =
    if m < n then some (items[m]?.getD undefined) else items[m]? := by
  unfold Edit.grow
  by_cases inside : m < items.length
  · rw [List.getElem?_append_left inside, List.getElem?_eq_getElem inside, Option.getD_some, ite_self]
  · have absent : items[m]? = none := List.getElem?_eq_none (Nat.le_of_not_lt inside)
    rw [List.getElem?_append_right (Nat.le_of_not_lt inside), List.getElem?_replicate, absent,
      Option.getD_none]
    congr 1
    simp only [eq_iff_iff]
    omega

theorem getElem?_grow {items : List Value} {n m : Nat} :
    (Edit.grow items n)[m]?.getD undefined = items[m]?.getD undefined := by
  rw [getElem?_grow_eq]
  split <;> rfl

theorem lt_length_grow {items : List Value} {n : Nat} : n < (Edit.grow items (n + 1)).length := by
  simp only [Edit.grow, List.length_append, List.length_replicate]
  omega

theorem step_writeStep_self {v part : Value} {step : Step} (takes : v.takes step = true) :
    (v.writeStep step part).step step = part := by
  cases v with
  | undefined =>
    cases step with
    | key name => simp [writeStep, Fields.find?, Step.text]
    | index n => simp [writeStep, Value.step, lt_length_grow]
  | object fields => simp [writeStep]
  | array items =>
    cases step with
    | key name => cases takes
    | index n => simp [writeStep, Value.step, lt_length_grow]
  | _ => cases step <;> cases takes

theorem step_writeStep_of_ne {v part : Value} {step other : Step}
    (different : other.text ≠ step.text) : (v.writeStep step part).step other = v.step other := by
  have apart (n m : Nat) (items : List Value) (ne : Text.ofNat m ≠ Text.ofNat n) :
      ((Edit.grow items (n + 1)).set n part)[m]?.getD undefined = items[m]?.getD undefined := by
    rw [List.getElem?_set_ne (by rintro rfl; exact ne rfl), getElem?_grow]
  cases v with
  | object fields => simp [writeStep, Fields.find?_insert_of_ne different]
  | undefined =>
    cases step with
    | key name =>
      have absent : name ≠ other.text := Ne.symm different
      simp [step_undefined, writeStep, Fields.find?, absent]
    | index n =>
      cases other with
      | key name => rfl
      | index m => exact apart n m [] different
  | array items =>
    cases step with
    | key name => rfl
    | index n =>
      cases other with
      | key name => rfl
      | index m => exact apart n m items different
  | _ => cases step <;> rfl

/-- A step taken leaves the way open for every other step, unless it makes an array of an undefined
value and the other step is a key. -/
theorem takes_writeStep {v part : Value} {step other : Step} (takes : v.takes step = true)
    (ready : v.takes other = true) (fit : v = undefined → other.isKey = true → step.isKey = true) :
    (v.writeStep step part).takes other = true := by
  cases v with
  | object fields => cases other <;> rfl
  | undefined =>
    cases step with
    | key name => cases other <;> rfl
    | index n =>
      cases other with
      | key name => cases fit rfl rfl
      | index m => rfl
  | array items =>
    cases step with
    | key name => cases takes
    | index n =>
      cases other with
      | key name => cases ready
      | index m => rfl
  | _ => cases step <;> cases takes

theorem follow_write_self {new v : Value} {steps : List Step} (writable : v.Writable steps) :
    (v.write steps new).follow steps = new := by
  induction steps generalizing v with
  | nil => rfl
  | cons step steps ih =>
    rw [follow_cons, write, step_writeStep_self writable.1]
    exact ih writable.2

/-- What is written behind one step is not seen behind a step of another text. -/
theorem follow_write_of_parted {new v : Value} {stem : List Step} {a b : Step} {p q : List Step}
    (writable : v.Writable (stem ++ a :: p)) (different : b.text ≠ a.text) :
    (v.write (stem ++ a :: p) new).follow (stem ++ b :: q) = v.follow (stem ++ b :: q) := by
  induction stem generalizing v with
  | nil =>
    simp only [List.nil_append]
    rw [follow_cons, follow_cons, write, step_writeStep_of_ne different]
  | cons step stem ih =>
    simp only [List.cons_append]
    rw [follow_cons, follow_cons, write, step_writeStep_self writable.1]
    exact ih writable.2

theorem Writable.write_of_parted {new v : Value} {stem : List Step} {a b : Step} {p q : List Step}
    (writable : v.Writable (stem ++ a :: p)) (ready : v.Writable (stem ++ b :: q))
    (different : b.text ≠ a.text) (sort : b.isKey = true → a.isKey = true) :
    (v.write (stem ++ a :: p) new).Writable (stem ++ b :: q) := by
  induction stem generalizing v with
  | nil =>
    refine ⟨takes_writeStep writable.1 ready.1 fun _ => sort, ?_⟩
    rw [List.nil_append, write, step_writeStep_of_ne different]
    exact ready.2
  | cons step stem ih =>
    refine ⟨takes_writeStep writable.1 ready.1 fun _ key => key, ?_⟩
    rw [List.cons_append, write, step_writeStep_self writable.1]
    exact ih writable.2 ready.2

end Value

namespace Edit

theorem assignSteps_cons (path : Text) (new v : Value) (step : Step) (steps : List Step)
    (takes : v.takes step = true) : assignSteps path new (step :: steps) v =
      ((assignSteps path new steps (v.step step)).1,
        v.writeStep step (assignSteps path new steps (v.step step)).2) := by
  cases step with
  | key name =>
    cases v with
    | object fields | undefined => rfl
    | _ => cases takes
  | index n =>
    cases v with
    | object fields => rfl
    | undefined | array items =>
      have inside : ¬ (n : Int) < 0 := by omega
      simp only [assignSteps, inSlot, if_neg inside, inGrown, Int.toNat_natCast]
      rfl
    | _ => cases takes

theorem assignSteps_refused (path : Text) (new v : Value) (step : Step) (steps : List Step)
    (takes : v.takes step = false) : ∃ fault, fault.category = .logicError ∧
      assignSteps path new (step :: steps) v = (.error fault, v) := by
  cases step with
  | key name =>
    cases v with
    | object fields | undefined => cases takes
    | _ => exact ⟨_, rfl, rfl⟩
  | index n =>
    cases v with
    | object fields | undefined | array items => cases takes
    | _ => exact ⟨_, rfl, rfl⟩

theorem assignSteps_of_writable {path : Text} {new v : Value} {steps : List Step}
    (writable : v.Writable steps) : assignSteps path new steps v = (.ok (), v.write steps new) := by
  induction steps generalizing v with
  | nil => rfl
  | cons step steps ih => rw [assignSteps_cons path new v step steps writable.1, ih writable.2]; rfl

theorem assignSteps_of_not_writable {path : Text} {new v : Value} {steps : List Step}
    (blocked : ¬ v.Writable steps) :
    ∃ fault, fault.category = .logicError ∧ (assignSteps path new steps v).1 = .error fault := by
  induction steps generalizing v with
  | nil => exact absurd trivial blocked
  | cons step steps ih =>
    cases takes : v.takes step with
    | false =>
      obtain ⟨fault, category, refused⟩ := assignSteps_refused path new v step steps takes
      exact ⟨fault, category, by rw [refused]⟩
    | true =>
      rw [assignSteps_cons path new v step steps takes]
      exact ih fun writable => blocked ⟨takes, writable⟩

theorem assign_of_writable {path : Text} {new v : Value} {steps : List Step}
    (parsed : Path.parse path = .ok steps) (writable : v.Writable steps) :
    assign path new v = (.ok (), v.write steps new) := by
  rw [assign, parsed]
  exact assignSteps_of_writable writable

theorem assign_of_not_writable {path : Text} {new v : Value} {steps : List Step}
    (parsed : Path.parse path = .ok steps) (blocked : ¬ v.Writable steps) :
    ∃ fault, fault.category = .logicError ∧ (assign path new v).1 = .error fault := by
  rw [assign, parsed]
  exact assignSteps_of_not_writable blocked

theorem category_of_assign_refused {path : Text} {new v : Value} {fault : Fault}
    (refused : (assign path new v).1 = .error fault) :
    fault.category = .invalidArgument ∨ fault.category = .logicError := by
  cases parsed : Path.parse path with
  | error problem =>
    rw [assign, parsed, Except.error.injEq] at refused
    exact .inl (refused ▸ Path.parse_error parsed)
  | ok steps =>
    by_cases writable : v.Writable steps
    · rw [assign_of_writable parsed writable] at refused
      cases refused
    · obtain ⟨problem, category, same⟩ : ∃ fault, fault.category = .logicError ∧
          (assign path new v).1 = .error fault := assign_of_not_writable parsed writable
      obtain rfl := Except.error.inj (same.symm.trans refused)
      exact .inr category

end Edit

namespace Path

/-- Two paths that part at two different steps of one sort, keys or indices: neither leads to the
place of the other or inside it, and no value would have to be both an object and an array. -/
def Apart (p q : List Step) : Prop :=
  ∃ stem a b p' q', p = stem ++ a :: p' ∧ q = stem ++ b :: q' ∧ a ≠ b ∧ a.isKey = b.isKey

/-- Two keys that are paths apart from each other. -/
def KeysApart (key other : Text) : Prop :=
  ∃ p q, parse key = .ok p ∧ parse other = .ok q ∧ Apart p q

theorem Apart.symm {p q : List Step} (apart : Apart p q) : Apart q p := by
  obtain ⟨stem, a, b, p', q', left, right, different, sort⟩ := apart
  exact ⟨stem, b, a, q', p', right, left, Ne.symm different, sort.symm⟩

theorem KeysApart.symm {key other : Text} (apart : KeysApart key other) : KeysApart other key := by
  obtain ⟨p, q, left, right, apart⟩ := apart
  exact ⟨q, p, right, left, apart.symm⟩

theorem KeysApart.apart {key other : Text} {p q : List Step} (apart : KeysApart key other)
    (left : parse key = .ok p) (right : parse other = .ok q) : Apart p q := by
  obtain ⟨p', q', left', right', apart⟩ := apart
  cases left.symm.trans left'
  cases right.symm.trans right'
  exact apart

end Path

namespace Value

variable {new v : Value} {p q : List Step}

theorem follow_write_of_apart (writable : v.Writable p) (apart : Path.Apart p q)
    (left : ∀ step ∈ p, step.Canonical) (right : ∀ step ∈ q, step.Canonical) :
    (v.write p new).follow q = v.follow q := by
  obtain ⟨stem, a, b, p', q', rfl, rfl, different, _⟩ := apart
  refine follow_write_of_parted writable fun same => different ?_
  exact (left a (by simp)).eq_of_text_eq (right b (by simp)) same.symm

theorem Writable.write_of_apart (writable : v.Writable p) (ready : v.Writable q)
    (apart : Path.Apart p q) (left : ∀ step ∈ p, step.Canonical)
    (right : ∀ step ∈ q, step.Canonical) : (v.write p new).Writable q := by
  obtain ⟨stem, a, b, p', q', rfl, rfl, different, sort⟩ := apart
  refine writable.write_of_parted ready (fun same => different ?_) fun key => sort.trans key
  exact (left a (by simp)).eq_of_text_eq (right b (by simp)) same.symm

theorem lookup_answers (v : Value) {path : Text} (parsed : Path.parse path = .ok p) :
    ∃ part, v.lookup path = .ok part := by
  unfold lookup
  rw [parsed]
  cases v with
  | object fields =>
    simp only
    split <;> exact ⟨_, rfl⟩
  | _ => exact ⟨_, rfl⟩

theorem category_of_lookup_refused {path : Text} {fault : Fault}
    (refused : v.lookup path = .error fault) : fault.category = .invalidArgument := by
  have malformed (read : (Path.parse path).map v.follow = .error fault) :
      fault.category = .invalidArgument := Path.parse_error (map_eq_error_iff.mp read)
  unfold lookup at refused
  split at refused
  · split at refused
    · cases refused
    · exact malformed refused
  · exact malformed refused

/-- An object all of whose keys are texts of canonical steps. -/
def Segmented (v : Value) : Prop :=
  ∃ fields, v = object fields ∧
    ∀ key ∈ Fields.keys fields, ∃ step : Step, step.Canonical ∧ step.text = key

theorem segmented_emptyObject : Segmented (object []) := ⟨[], rfl, by simp [Fields.keys]⟩

theorem Segmented.write (segmented : v.Segmented) (ne_nil : p ≠ [])
    (canonical : ∀ step ∈ p, step.Canonical) : (v.write p new).Segmented := by
  obtain ⟨fields, rfl, keys⟩ := segmented
  obtain ⟨step, steps, rfl⟩ := List.exists_cons_of_ne_nil ne_nil
  refine ⟨_, rfl, fun key member => ?_⟩
  rcases Fields.mem_keys_of_mem_insert member with rfl | old
  · exact ⟨step, canonical step List.mem_cons_self, rfl⟩
  · exact keys key old

/-- A literal key of such an object is the one step that its text parses to. -/
theorem lookup_of_segmented {path : Text} (segmented : v.Segmented)
    (parsed : Path.parse path = .ok p) : v.lookup path = .ok (v.follow p) := by
  obtain ⟨fields, rfl, keys⟩ := segmented
  simp only [lookup]
  split
  · rename_i child found
    obtain ⟨step, canonical, rfl⟩ := keys path (Fields.mem_keys_of_find? found)
    have only := parsed.symm.trans (Path.parse_text canonical)
    cases only
    rw [follow_cons, step_object, found]
    rfl
  · rw [parsed]
    rfl

end Value
end Schemata
