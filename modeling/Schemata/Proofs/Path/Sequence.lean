import Schemata.Proofs.Lists
import Schemata.Proofs.Shapes
import Schemata.Proofs.Path.Assignment

/-! Writing one value after the other into an object. At keys that are apart from each other every
value is there to be read in the end. For the writes to go through, less will do: no key leads inside
another, and no index makes an array where a later key needs an object. -/
namespace Schemata

open Schemata.Path (Step)

namespace Edit

/-- A value with results written at their keys in turn; undefined results are left out. -/
def assignAll : List (Text × Value) → Value → Except Fault Value
  | [], data => .ok data
  | (_, .undefined) :: rest, data => assignAll rest data
  | (key, result) :: rest, data =>
    match assign key result data with
    | (.ok (), next) => assignAll rest next
    | (.error fault, _) => .error fault

variable {key : Text} {result data next : Value} {rest : List (Text × Value)}

theorem assignAll_cons (defined : result ≠ .undefined)
    (assigned : assign key result data = (.ok (), next)) :
    assignAll ((key, result) :: rest) data = assignAll rest next := by
  cases result with
  | undefined => exact absurd rfl defined
  | _ => simp only [assignAll, assigned]

/-- At a place that can be written, one result is either left out or put there. -/
theorem assignAll_step (result : Value) (rest : List (Text × Value)) {steps : List Step}
    (parsed : Path.parse key = .ok steps) (writable : data.Writable steps) : ∃ next,
      assignAll ((key, result) :: rest) data = assignAll rest next ∧
        (next = data ∧ result = .undefined ∨ next = data.write steps result) := by
  by_cases defined : result = .undefined
  · subst defined
    exact ⟨data, rfl, .inl ⟨rfl, rfl⟩⟩
  · exact ⟨_, assignAll_cons defined (assign_of_writable parsed writable), .inr rfl⟩

end Edit

namespace Value

variable {data next new : Value} {key other : Text} {keys : List Text} {p q : List Step}

/-- Nothing is at the key, and something can be put there. -/
def Vacant (data : Value) (key : Text) : Prop :=
  ∃ steps, Path.parse key = .ok steps ∧ data.Writable steps ∧ data.follow steps = undefined

theorem vacant_emptyObject (parsed : Path.parse key = .ok p) : Vacant (object []) key := by
  refine ⟨p, parsed, writable_emptyObject p, ?_⟩
  obtain ⟨step, steps, rfl⟩ := List.exists_cons_of_ne_nil (Path.parse_ne_nil parsed)
  rw [follow_cons, step_object]
  exact follow_undefined steps

theorem Vacant.write (vacant : Vacant data other) (parsed : Path.parse key = .ok p)
    (writable : data.Writable p) (apart : Path.KeysApart key other) :
    Vacant (data.write p new) other := by
  obtain ⟨q, parsed', ready, nothing⟩ := vacant
  have parted := apart.apart parsed parsed'
  have left := Path.parse_canonical parsed
  have right := Path.parse_canonical parsed'
  refine ⟨q, parsed', writable.write_of_apart ready parted left right, ?_⟩
  rw [follow_write_of_apart writable parted left right, nothing]

theorem lookup_write_self (segmented : data.Segmented) (parsed : Path.parse key = .ok p)
    (writable : data.Writable p) : (data.write p new).lookup key = .ok new := by
  have written : (data.write p new).Segmented :=
    segmented.write (Path.parse_ne_nil parsed) (Path.parse_canonical parsed)
  rw [lookup_of_segmented written parsed, follow_write_self writable]

theorem lookup_write_of_apart (segmented : data.Segmented) (parsed : Path.parse key = .ok p)
    (writable : data.Writable p) (apart : Path.KeysApart key other) :
    (data.write p new).lookup other = data.lookup other := by
  have ⟨_, q, _, parsed', _⟩ := apart
  have left := Path.parse_canonical parsed
  have written : (data.write p new).Segmented := segmented.write (Path.parse_ne_nil parsed) left
  rw [lookup_of_segmented written parsed', lookup_of_segmented segmented parsed',
    follow_write_of_apart writable (apart.apart parsed parsed') left (Path.parse_canonical parsed')]

end Value

namespace Edit

variable {results : List (Text × Value)} {data : Value}

/-- Results at keys that are apart are all there in the end, and nothing else has changed. -/
theorem assignAll_of_apart (apart : (results.map Prod.fst).Pairwise Path.KeysApart)
    (vacant : ∀ w ∈ results, data.Vacant w.1) (segmented : data.Segmented) :
    ∃ after, assignAll results data = .ok after ∧ after.Segmented ∧
      (∀ w ∈ results, after.lookup w.1 = .ok w.2) ∧
        ∀ key, (∀ w ∈ results, Path.KeysApart w.1 key) → after.lookup key = data.lookup key := by
  -- The data varies: the write at hand must leave the later places vacant and the keys in segments.
  induction results generalizing data with
  | nil => exact ⟨data, rfl, segmented, nofun, fun _ _ => rfl⟩
  | cons w rest ih =>
    obtain ⟨key, result⟩ := w
    obtain ⟨first, apart⟩ := List.pairwise_cons.mp apart
    obtain ⟨⟨steps, parsed, writable, nothing⟩, vacant⟩ := List.forall_mem_cons.mp vacant
    have later : ∀ w ∈ rest, Path.KeysApart key w.1 :=
      fun w member => first w.1 (List.mem_map_of_mem member)
    obtain ⟨next, assigned, written⟩ := assignAll_step result rest parsed writable
    have segmented' : next.Segmented := by
      rcases written with ⟨rfl, _⟩ | rfl
      · exact segmented
      · exact segmented.write (Path.parse_ne_nil parsed) (Path.parse_canonical parsed)
    have vacant' : ∀ w ∈ rest, next.Vacant w.1 := by
      intro w member
      rcases written with ⟨rfl, _⟩ | rfl
      · exact vacant w member
      · exact (vacant w member).write parsed writable (later w member)
    have here : next.lookup key = .ok result := by
      rcases written with ⟨rfl, rfl⟩ | rfl
      · rw [Value.lookup_of_segmented segmented parsed, nothing]
      · exact Value.lookup_write_self segmented parsed writable
    have elsewhere : ∀ other, Path.KeysApart key other → next.lookup other = data.lookup other := by
      intro other apart
      rcases written with ⟨rfl, _⟩ | rfl
      · rfl
      · exact Value.lookup_write_of_apart segmented parsed writable apart
    obtain ⟨after, others, segmented, found, frame⟩ := ih apart vacant' segmented'
    refine ⟨after, assigned.trans others, segmented, List.forall_mem_cons.mpr ⟨?_, found⟩, ?_⟩
    · exact (frame key fun w member => (later w member).symm).trans here
    · intro other apart
      obtain ⟨own, apart⟩ := List.forall_mem_cons.mp apart
      exact (frame other apart).trans (elsewhere other own)

theorem assignAll_emptyObject (apart : (results.map Prod.fst).Pairwise Path.KeysApart)
    (paths : ∀ key ∈ results.map Prod.fst, ∃ steps, Path.parse key = .ok steps) :
    ∃ after, assignAll results (.object []) = .ok after ∧ after.Segmented ∧
      ∀ w ∈ results, after.lookup w.1 = .ok w.2 := by
  have vacant : ∀ w ∈ results, (Value.object []).Vacant w.1 := by
    intro w member
    obtain ⟨steps, parsed⟩ := paths w.1 (List.mem_map_of_mem member)
    exact Value.vacant_emptyObject parsed
  obtain ⟨after, assigned, segmented, found, _⟩ :=
    assignAll_of_apart apart vacant Value.segmented_emptyObject
  exact ⟨after, assigned, segmented, found⟩

end Edit

namespace Path

/-- Behind a common beginning the first path takes an index and the second a key. A write at the
first makes an array where the second needs an object, except at the root, which is one. -/
def Obstructs (p q : List Step) : Prop :=
  ∃ stem n name p' q', stem ≠ [] ∧ p = stem ++ .index n :: p' ∧ q = stem ++ .key name :: q'

/-- Keys in an order in which none obstructs a later one. -/
def Ordered (keys : List Text) : Prop :=
  keys.Pairwise fun earlier later =>
    ∀ p q, parse earlier = .ok p → parse later = .ok q → ¬ Obstructs p q

theorem Apart.not_obstructs {p q : List Step} (apart : Apart p q) : ¬ Obstructs p q := by
  obtain ⟨stem, a, b, p', q', rfl, rfl, different, sort⟩ := apart
  rintro ⟨other, n, name, p'', q'', ne_nil, left, right⟩
  clear ne_nil
  induction stem generalizing other with
  | nil =>
    cases other with
    | nil =>
      cases left
      cases right
      cases sort
    | cons step other =>
      cases left
      cases right
      exact different rfl
  | cons step stem ih =>
    cases other with
    | nil =>
      cases left
      cases right
    | cons step other =>
      exact ih other (List.cons.inj left).2 (List.cons.inj right).2

/-- Keys that are apart may come in any order. -/
theorem ordered_of_apart {keys : List Text} (apart : keys.Pairwise KeysApart) : Ordered keys :=
  apart.imp fun apart _ _ left right => (apart.apart left right).not_obstructs

theorem eq_of_along {p q : List Step} (along : p <+: q) (inner : Shape.isInside p q = false) :
    p = q := by
  have begins : p.isPrefixOf q = true := List.isPrefixOf_iff_prefix.mpr along
  simp only [Shape.isInside, begins, Bool.and_true, decide_eq_false_iff_not, Nat.not_lt] at inner
  exact along.eq_of_length_le inner

/-- Of two paths of which neither leads inside the other, the steps are the same or part somewhere. -/
theorem eq_or_parted {p q : List Step} (inner : Shape.isInside p q = false)
    (outer : Shape.isInside q p = false) :
    p = q ∨ ∃ stem a b p' q', p = stem ++ a :: p' ∧ q = stem ++ b :: q' ∧ a ≠ b := by
  rcases prefix_or_parted p q with (along | back) | parted
  · exact .inl (eq_of_along along inner)
  · exact .inl (eq_of_along back outer).symm
  · exact .inr parted

end Path

namespace Value

variable {new data : Value} {fields : Fields Value} {p q : List Step} {key : Text}
  {keys : List Text}

theorem Writable.write_self (writable : data.Writable p) : (data.write p new).Writable p := by
  induction p generalizing data with
  | nil => trivial
  | cons step steps ih =>
    refine ⟨takes_writeStep writable.1 writable.1 fun _ key => key, ?_⟩
    rw [write, step_writeStep_self writable.1]
    exact ih writable.2

theorem Writable.write_of_unobstructed (writable : (object fields).Writable p)
    (ready : (object fields).Writable q) (left : ∀ step ∈ p, step.Canonical)
    (right : ∀ step ∈ q, step.Canonical) (inner : Shape.isInside p q = false)
    (outer : Shape.isInside q p = false) (free : ¬ Path.Obstructs p q) :
    ((object fields).write p new).Writable q := by
  rcases Path.eq_or_parted inner outer with rfl | ⟨stem, a, b, p', q', rfl, rfl, different⟩
  · exact writable.write_self
  · have texts : b.text ≠ a.text := fun same =>
      different ((left a (by simp)).eq_of_text_eq (right b (by simp)) same.symm)
    cases stem with
    | nil =>
      -- The root stays an object, whatever is written into it.
      refine ⟨by cases b <;> rfl, ?_⟩
      rw [List.nil_append, write, step_writeStep_of_ne texts]
      exact ready.2
    | cons first stem =>
      refine writable.write_of_parted ready texts fun key => ?_
      cases a with
      | key => rfl
      | index n =>
        cases b with
        | index => cases key
        | key name => exact absurd ⟨first :: stem, n, name, p', q', by simp, rfl, rfl⟩ free

/-- Behind a beginning that leads nowhere yet, a write that takes an index turns keys away. -/
theorem not_writable_write_undefined {stem : List Step} {n : Nat} {name : Text}
    {p' q' : List Step} :
    ¬ (undefined.write (stem ++ .index n :: p') new).Writable (stem ++ .key name :: q') := by
  induction stem with
  | nil => exact fun writable => nomatch writable.1
  | cons step stem ih =>
    rintro ⟨_, writable⟩
    rw [List.cons_append, write, step_writeStep_self (by cases step <;> rfl),
      step_undefined] at writable
    exact ih writable

theorem not_writable_of_obstructs (obstructs : Path.Obstructs p q) :
    ¬ ((object []).write p new).Writable q := by
  obtain ⟨stem, n, name, p', q', ne_nil, rfl, rfl⟩ := obstructs
  obtain ⟨step, stem, rfl⟩ := List.exists_cons_of_ne_nil ne_nil
  rintro ⟨_, writable⟩
  rw [List.cons_append, write, step_writeStep_self (by cases step <;> rfl), step_object] at writable
  exact not_writable_write_undefined writable

/-- An object into which something can be put at each of the keys. -/
structure Ready (data : Value) (keys : List Text) : Prop where
  object : ∃ fields, data = object fields
  ways : ∀ key ∈ keys, ∃ steps, Path.parse key = .ok steps ∧ data.Writable steps

theorem ready_emptyObject (paths : ∀ key ∈ keys, ∃ steps, Path.parse key = .ok steps) :
    Ready (Value.object []) keys := by
  refine ⟨⟨[], rfl⟩, fun key member => ?_⟩
  obtain ⟨steps, parsed⟩ := paths key member
  exact ⟨steps, parsed, writable_emptyObject steps⟩

theorem Ready.tail (ready : data.Ready (key :: keys)) : data.Ready keys :=
  ⟨ready.object, fun other member => ready.ways other (List.mem_cons_of_mem key member)⟩

/-- Where nothing is obstructed, a write at the first key leaves the object ready for the others. -/
theorem Ready.assign (ready : data.Ready (key :: keys)) (unnested : Shape.Unnested (key :: keys))
    (ordered : Path.Ordered (key :: keys)) :
    ∃ next, Edit.assign key new data = (.ok (), next) ∧ next.Ready keys := by
  obtain ⟨⟨fields, rfl⟩, ways⟩ := ready
  obtain ⟨⟨p, parsed, writable⟩, ways⟩ := List.forall_mem_cons.mp ways
  have free := (List.pairwise_cons.mp ordered).1
  refine ⟨_, Edit.assign_of_writable parsed writable, ?_, fun other member => ?_⟩
  · obtain ⟨step, steps, rfl⟩ := List.exists_cons_of_ne_nil (Path.parse_ne_nil parsed)
    exact ⟨_, rfl⟩
  · obtain ⟨q, parsed', possible⟩ := ways other member
    have here : key ∈ key :: keys := List.mem_cons_self
    have there : other ∈ key :: keys := List.mem_cons_of_mem key member
    exact ⟨q, parsed', writable.write_of_unobstructed possible (Path.parse_canonical parsed)
      (Path.parse_canonical parsed') (unnested.apart key here other there p q parsed parsed')
      (unnested.apart other there key here q p parsed' parsed)
      (free other member p q parsed parsed')⟩

end Value
end Schemata
