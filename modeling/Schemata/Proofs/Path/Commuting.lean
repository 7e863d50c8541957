import Mathlib.Data.List.Basic
import Schemata.Proofs.Path.Sequence

/-! Writing in another order. Two writes that part at different steps of one sort come to the same in
either order: the fields of an object keep their own order, an array ends behind its last slot whichever
was filled first, and what lies on the way to both places is made by the first write as it would be by
the second. So results at keys that are apart may be written in any order. -/
namespace Schemata

open Schemata.Path (Step)

namespace Value

variable {v : Value} {a b step : Step} {p q : List Step} {n m : Nat}

theorem getElem?_set_grow (items : List Value) (n m : Nat) (part : Value) :
    ((Edit.grow items (n + 1)).set n part)[m]? =
      if m = n then some part else if m < n then some (items[m]?.getD undefined) else items[m]? := by
  by_cases same : m = n
  · subst same
    rw [List.getElem?_set_self lt_length_grow, if_pos rfl]
  · have within : m < n + 1 ↔ m < n := by omega
    rw [List.getElem?_set_ne (Ne.symm same), getElem?_grow_eq, if_neg same]
    simp only [within]

/-- Of two items put in one slot the second stays. -/
theorem slots_self (items : List Value) (n : Nat) (first second : Value) :
    (Edit.grow ((Edit.grow items (n + 1)).set n first) (n + 1)).set n second =
      (Edit.grow items (n + 1)).set n second := by
  apply List.ext_getElem?
  intro k
  simp only [getElem?_set_grow]
  grind

/-- Two slots are filled in either order: the array ends behind the later one. -/
theorem slots_comm (items : List Value) (different : n ≠ m) (first second : Value) :
    (Edit.grow ((Edit.grow items (n + 1)).set n first) (m + 1)).set m second =
      (Edit.grow ((Edit.grow items (m + 1)).set m second) (n + 1)).set n first := by
  apply List.ext_getElem?
  intro k
  simp only [getElem?_set_grow]
  grind

theorem writeStep_self (first second : Value) :
    (v.writeStep step first).writeStep step second = v.writeStep step second := by
  cases v with
  | object fields => simp only [writeStep, Fields.insert_insert_self]
  | undefined =>
    cases step with
    | key name => exact congrArg object (@Fields.insert_insert_self _ [] name _ _)
    | index n => exact congrArg array (slots_self [] n first second)
  | array items =>
    cases step with
    | key name => rfl
    | index n => exact congrArg array (slots_self items n first second)
  | _ => cases step <;> rfl

theorem writeStep_comm (different : a.text ≠ b.text) (sort : a.isKey = b.isKey) (first second : Value) :
    (v.writeStep a first).writeStep b second = (v.writeStep b second).writeStep a first := by
  cases v with
  | object fields =>
    simp only [writeStep]
    rw [Fields.insert_comm (Ne.symm different)]
  | undefined =>
    cases a with
    | key name =>
      cases b with
      | key other => exact congrArg object (@Fields.insert_comm _ [] _ _ (Ne.symm different) _ _)
      | index => cases sort
    | index n =>
      cases b with
      | key => cases sort
      | index m =>
        exact congrArg array (slots_comm _ (fun same => different (by rw [same])) _ _)
  | array items =>
    cases a with
    | key name =>
      cases b with
      | key other => rfl
      | index => cases sort
    | index n =>
      cases b with
      | key => cases sort
      | index m =>
        exact congrArg array (slots_comm _ (fun same => different (by rw [same])) _ _)
  | _ => cases a <;> cases b <;> rfl

/-- A value that does not take a step is left as it is. -/
theorem writeStep_of_not_takes (refuses : v.takes step = false) (part : Value) :
    v.writeStep step part = v := by
  cases v with
  | undefined | object => cases step <;> cases refuses
  | array =>
    cases step with
    | key => rfl
    | index => cases refuses
  | _ => cases step <;> rfl

/-- Writes that part at two steps of one sort may be made in either order. -/
theorem write_comm_of_parted {stem : List Step} (different : a.text ≠ b.text)
    (sort : a.isKey = b.isKey) (x y : Value) :
    (v.write (stem ++ a :: p) x).write (stem ++ b :: q) y =
      (v.write (stem ++ b :: q) y).write (stem ++ a :: p) x := by
  induction stem generalizing v with
  | nil =>
    simp only [List.nil_append, write]
    rw [step_writeStep_of_ne (Ne.symm different), step_writeStep_of_ne different,
      writeStep_comm different sort]
  | cons step stem ih =>
    simp only [List.cons_append, write]
    cases takes : v.takes step with
    | false => simp only [writeStep_of_not_takes takes]
    | true => rw [step_writeStep_self takes, step_writeStep_self takes, writeStep_self,
        writeStep_self, ih]

theorem write_comm (apart : Path.Apart p q) (left : ∀ step ∈ p, step.Canonical)
    (right : ∀ step ∈ q, step.Canonical) (x y : Value) :
    (v.write p x).write q y = (v.write q y).write p x := by
  obtain ⟨stem, a, b, p', q', rfl, rfl, different, sort⟩ := apart
  refine write_comm_of_parted (fun same => different ?_) sort x y
  exact (left a (by simp)).eq_of_text_eq (right b (by simp)) same

/-- The value with a result put at a place, unless it is undefined. -/
def put (v : Value) (steps : List Step) (result : Value) : Value :=
  if result.isUndefined then v else v.write steps result

theorem put_comm (apart : Path.Apart p q) (left : ∀ step ∈ p, step.Canonical)
    (right : ∀ step ∈ q, step.Canonical) (x y : Value) :
    (v.put p x).put q y = (v.put q y).put p x := by
  unfold put
  split
  · rfl
  · split
    · rfl
    · exact write_comm apart left right x y

theorem Writable.put (writable : v.Writable p) (ready : v.Writable q) (apart : Path.Apart p q)
    (left : ∀ step ∈ p, step.Canonical) (right : ∀ step ∈ q, step.Canonical) (x : Value) :
    (v.put p x).Writable q := by
  unfold Value.put
  split
  · exact ready
  · exact writable.write_of_apart ready apart left right

end Value

namespace Edit

variable {results others rest : List (Text × Value)} {data : Value} {key : Text} {p : List Step}

theorem assignAll_put (parsed : Path.parse key = .ok p) (writable : data.Writable p) (x : Value) :
    assignAll ((key, x) :: rest) data = assignAll rest (data.put p x) := by
  unfold Value.put
  split
  · rename_i omitted
    cases x with
    | undefined => rfl
    | _ => cases omitted
  · rename_i defined
    exact assignAll_cons (fun same => defined (same ▸ rfl)) (assign_of_writable parsed writable)

/-- In whatever order results at keys that are apart are written, they come to the same. -/
theorem assignAll_perm (order : results.Perm others)
    (apart : (results.map Prod.fst).Pairwise Path.KeysApart)
    (ways : ∀ w ∈ results, ∃ steps, Path.parse w.1 = .ok steps ∧ data.Writable steps) :
    assignAll results data = assignAll others data := by
  -- Each exchange of neighbours is made in the data that the results before them have left.
  induction order generalizing data with
  | nil => rfl
  | cons w _ ih =>
    obtain ⟨first, apart⟩ := List.pairwise_cons.mp apart
    obtain ⟨⟨p, parsed, writable⟩, ways⟩ := List.forall_mem_cons.mp ways
    rw [assignAll_put parsed writable, assignAll_put parsed writable]
    refine ih apart fun w' member => ?_
    obtain ⟨q, parsed', ready⟩ := ways w' member
    have parted := (first w'.1 (List.mem_map_of_mem member)).apart parsed parsed'
    exact ⟨q, parsed', writable.put ready parted (Path.parse_canonical parsed)
      (Path.parse_canonical parsed') w.2⟩
  | swap a b rest =>
    obtain ⟨first, _⟩ := List.pairwise_cons.mp apart
    obtain ⟨⟨p, parsed, writable⟩, ways⟩ := List.forall_mem_cons.mp ways
    obtain ⟨⟨q, parsed', ready⟩, _⟩ := List.forall_mem_cons.mp ways
    have parted := (first _ List.mem_cons_self).apart parsed parsed'
    have left := Path.parse_canonical parsed
    have right := Path.parse_canonical parsed'
    rw [assignAll_put parsed writable, assignAll_put parsed' ready,
      assignAll_put parsed' (writable.put ready parted left right b.2),
      assignAll_put parsed (ready.put writable parted.symm right left a.2),
      Value.put_comm parted left right]
  | trans first _ ih ih' =>
    have still : (List.map Prod.fst _).Pairwise Path.KeysApart :=
      (first.map Prod.fst).pairwise apart Path.KeysApart.symm
    exact (ih apart ways).trans (ih' still fun w member => ways w (first.mem_iff.mpr member))

end Edit
end Schemata
