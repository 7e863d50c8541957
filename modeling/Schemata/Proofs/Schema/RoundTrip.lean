import Schemata.Proofs.Value.Distinct
import Schemata.Proofs.Schema.Nodes
import Schemata.Proofs.Schema.Reversal

/-! There and back. An output goes through the reverse of its schema to something that the schema
makes into the very same output. Leaves and whatever loses elements must give back their own outputs
for that: a set or a map that is parsed again must not lose any more of them. -/
namespace Schemata.Schema

variable {d : Definition} {o : Option Transform} {s r element target key value : Schema}
  {x y : Value}

/-- Whatever `s` accepts, `r` sends back to something that `s` makes into the same output. -/
def RoundTrips (s r : Schema) : Prop := ∀ x y, s.safeParse.Accepts x y →
  ∃ back, r.safeParse.Settles y back ∧ s.safeParse.Settles back y

/-- Whatever the schema accepts, it leaves as it is the second time. -/
def Stable (s : Schema) : Prop := ∀ x y, s.safeParse.Accepts x y → s.safeParse.Settles y y

def IsLeaf : Schema → Prop
  | leaf _ _ => True
  | _ => False

theorem stable_of_isLeaf (fitting : Fitting s) (leaf : s.IsLeaf) : s.Stable := by
  intro x y accepted
  cases s with
  | leaf => exact settles_leaf fitting (accepts_leaf fitting accepted)
  | _ => cases leaf

theorem roundTrips_array (fitting : Fitting (array d o element))
    (parts : RoundTrips element target) :
    RoundTrips (array d o element) (array d none target) := by
  intro x y accepted
  rcases accepts_array fitting accepted with nullish | ⟨items, results, _, checked, found, rfl⟩
  · exact ⟨y, settles_nullish nullish, settles_nullish nullish⟩
  · obtain ⟨sources, forth, back⟩ := exists_between found fun item result => parts item result
    have sized : ∀ others : List Value, items.length = others.length →
        d.constraint.violations (.array others) = .ok [] :=
      fun others length => fitting.2.constraint.violations_of_size
        (v := .array items) rfl length rfl checked
    exact ⟨.array sources,
      settles_array ⟨rfl, fitting.2⟩ (sized results found.length_eq) forth,
      settles_array fitting (sized sources (found.length_eq.trans forth.length_eq)) back⟩

/-- Results that a stable parser has let through stay as they are, and so do some of them. -/
theorem settles_kept {items results kept : List Value} (stable : element.Stable)
    (found : List.Forall₂ element.safeParse.Accepts items results)
    (origin : ∀ v ∈ kept, v ∈ results) : List.Forall₂ element.safeParse.Settles kept kept := by
  apply List.forall₂_same.mpr
  intro v member
  obtain ⟨item, _, accepted⟩ := exists_related_left found (origin v member)
  exact stable item v accepted

theorem stable_set (fitting : Fitting (set d o element)) (stable : element.Stable)
    (expected : d.constraint.expected = .kind .set) (free : d.constraint.rules = []) :
    (set d o element).Stable := by
  intro x y accepted
  rcases accepts_set fitting accepted with nullish | ⟨_, items, results, _, _, found, rfl⟩
  · exact settles_nullish nullish
  · obtain ⟨kept, built, distinct, origin⟩ := Value.ofItems_spec results
    have checked : d.constraint.violations (.set kept) = .ok [] :=
      Constraint.violations_of_kind expected free
    have settled := settles_set fitting checked (settles_kept stable found origin)
    rw [built]
    rwa [Value.ofItems_of_distinct distinct] at settled

theorem roundTrips_set (fitting : Fitting (set d o element)) (stable : element.Stable)
    (expected : d.constraint.expected = .kind .set) (free : d.constraint.rules = []) :
    RoundTrips (set d o element) (set d none element) := by
  intro x y accepted
  have again := stable_set fitting stable expected free x y accepted
  obtain ⟨rfl, _⟩ := fitting
  exact ⟨y, again, again⟩

/-- Keys and values of the entries that are left have each been let through. -/
theorem accepts_kept {all parsed kept : List (Value × Value)}
    (found : List.Forall₂
      (fun e r => key.safeParse.Accepts e.1 r.1 ∧ value.safeParse.Accepts e.2 r.2) all parsed)
    (keys : ∀ k ∈ kept.map Prod.fst, k ∈ parsed.map Prod.fst)
    (values : ∀ v ∈ kept.map Prod.snd, v ∈ parsed.map Prod.snd) :
    ∀ e ∈ kept, (∃ k, key.safeParse.Accepts k e.1) ∧ ∃ v, value.safeParse.Accepts v e.2 := by
  intro e member
  constructor
  · obtain ⟨r, listed, same⟩ := List.mem_map.mp (keys e.1 (List.mem_map_of_mem member))
    obtain ⟨given, _, accepted, _⟩ := exists_related_left found listed
    exact ⟨given.1, same ▸ accepted⟩
  · obtain ⟨r, listed, same⟩ := List.mem_map.mp (values e.2 (List.mem_map_of_mem member))
    obtain ⟨given, _, _, accepted⟩ := exists_related_left found listed
    exact ⟨given.2, same ▸ accepted⟩

/-- Entries whose keys stay and whose values go to where they came from. -/
theorem entries_between {kept : List (Value × Value)} (stable : key.Stable)
    (parts : RoundTrips value target)
    (accepted : ∀ e ∈ kept,
      (∃ k, key.safeParse.Accepts k e.1) ∧ ∃ v, value.safeParse.Accepts v e.2) :
    ∃ sources : List (Value × Value),
      List.Forall₂ (fun e source => source.1 = e.1 ∧ key.safeParse.Settles e.1 source.1 ∧
        target.safeParse.Settles e.2 source.2) kept sources ∧
      List.Forall₂ (fun source e => key.safeParse.Settles source.1 e.1 ∧
        value.safeParse.Settles source.2 e.2) sources kept := by
  have paired : List.Forall₂ (fun e e' => e = e' ∧ e ∈ kept) kept kept :=
    List.forall₂_same.mpr fun e member => ⟨rfl, member⟩
  refine exists_between paired ?_
  rintro e _ ⟨rfl, member⟩
  obtain ⟨⟨k, ofKey⟩, v, ofValue⟩ := accepted e member
  obtain ⟨back, forth, again⟩ := parts v e.2 ofValue
  exact ⟨(e.1, back), ⟨rfl, stable k e.1 ofKey, forth⟩, stable k e.1 ofKey, again⟩

theorem roundTrips_map (fitting : Fitting (map d o key value)) (stable : key.Stable)
    (parts : RoundTrips value target) (expected : d.constraint.expected = .kind .map) :
    RoundTrips (map d o key value) (map d none key target) := by
  intro x y accepted
  rcases accepts_map fitting accepted with nullish | ⟨_, all, parsed, _, _, found, rfl⟩
  · exact ⟨y, settles_nullish nullish, settles_nullish nullish⟩
  · obtain ⟨kept, built, distinct, keys, values⟩ := Value.ofEntries_spec parsed
    have accepted := accepts_kept found keys values
    obtain ⟨sources, forth, back⟩ := entries_between stable parts accepted
    have columns := map_eq_map_of_forall₂ (forth.imp fun _ _ part => part.1)
    have checked : ∀ entries, d.constraint.violations (.map entries) = .ok [] :=
      fun entries => Constraint.violations_of_kind expected
        (fitting.2.constraint.rules_of_unsuited Constraint.Family.map_unsuited)
    have reversed : Fitting (map d none key target) := ⟨rfl, fitting.2⟩
    have there := settles_map reversed (checked kept) (forth.imp fun _ _ part => part.2)
    have again := settles_map fitting (checked sources) back
    rw [Value.ofEntries_of_distinct (columns ▸ distinct)] at there
    rw [Value.ofEntries_of_distinct distinct] at again
    -- Neither way merges entries: the keys are the same on both sides, and distinct.
    rw [built]
    exact ⟨.map sources, there, again⟩

/-- What lies at the output keys goes back to where it came from. The sources are the results of the
reversed properties; whoever has them at the input keys gets the same results again. -/
theorem exists_sources {all targets : List (Property Schema)} {written : List (Text × Value)}
    (turned : List.Forall₂ (Property.Turned RoundTrips) all targets)
    (carried : List.Forall₂ (Property.Carries (fun s => s.safeParse.Accepts) x) all written)
    (found : ∀ w ∈ written, y.lookup w.1 = .ok w.2) :
    ∃ sources : List (Text × Value), sources.map Prod.fst = all.map Property.input ∧
      List.Forall₂ (Property.Carries (fun s => s.safeParse.Settles) y) targets sources ∧
        ∀ back : Value, (∀ source ∈ sources, back.lookup source.1 = .ok source.2) →
          List.Forall₂ (Property.Carries (fun s => s.safeParse.Settles) back) all written := by
  induction turned generalizing written with
  | nil =>
    cases carried
    exact ⟨[], rfl, .nil, fun _ _ => .nil⟩
  | @cons p q _ _ turn _ ih =>
    cases carried with
    | @cons _ w _ rest first others =>
      obtain ⟨output, part, _, accepted⟩ := first
      obtain ⟨here, found⟩ := List.forall_mem_cons.mp found
      obtain ⟨source, forth, again⟩ := turn.node part w.2 accepted
      obtain ⟨sources, names, parts, back⟩ := ih others found
      have read : y.lookup q.input = .ok w.2 := by rw [turn.input, ← output, here]
      refine ⟨(p.input, source) :: sources, by rw [List.map_cons, List.map_cons, names],
        .cons ⟨turn.output.symm, w.2, read, forth⟩ parts, fun whole given => ?_⟩
      obtain ⟨there, given⟩ := List.forall_mem_cons.mp given
      exact .cons ⟨output, source, there, again⟩ (back whole given)

theorem roundTrips_object {all targets : List (Property Schema)}
    (fitting : Fitting (object d o all))
    (free : d.constraint.rules = []) (outputs : (all.map Property.output).Pairwise Path.KeysApart)
    (inputs : (all.map Property.input).Pairwise Path.KeysApart)
    (turned : List.Forall₂ (Property.Turned RoundTrips) all targets) :
    RoundTrips (object d o all) (object (reverseDefinition d) none targets) := by
  intro x y accepted
  rcases accepts_object fitting accepted with nullish | ⟨written, parts, assigned⟩
  · rw [reverseDefinition_self fitting.2.1 free]
    exact ⟨y, settles_nullish nullish, settles_nullish nullish⟩
  · obtain ⟨rfl, fits, shape, remap, listed⟩ := fitting
    have proper := Shape.proper_of_properties listed
    have names := map_eq_map_of_forall₂ (parts.imp fun _ _ part => part.1)
    obtain ⟨_, same, ⟨fields, rfl, _⟩, found⟩ :=
      Edit.assignAll_emptyObject (names ▸ outputs) (names ▸ proper.unnested.paths)
    cases assigned.symm.trans same
    obtain ⟨sources, columns, forth, again⟩ := exists_sources turned parts found
    have paths : ∀ key ∈ all.map Property.input, ∃ steps, Path.parse key = .ok steps :=
      List.forall_mem_map.mpr proper.inputs
    obtain ⟨back, gathered, ⟨_, rfl, _⟩, given⟩ :=
      Edit.assignAll_emptyObject (columns ▸ inputs) (columns ▸ paths)
    have checked : ∀ fields, d.constraint.violations (.object fields) = .ok [] :=
      fun fields => Constraint.violations_of_kind (fits.constraint.expected rfl (by decide)) free
    rw [reverseDefinition_self fits free]
    exact ⟨_, settles_object fits rfl (checked _) forth gathered,
      settles_object fits rfl (checked _) (again _ given) assigned⟩

/-- What a node needs for the way there and back. Sets and maps may lose elements, so that no rule
may count them and their elements and keys must not change again. -/
def Invertible : Schema → Prop
  | leaf _ _ | array _ _ _ => True
  | set d _ element => element.IsLeaf ∧ d.constraint.expected = .kind .set ∧ d.constraint.rules = []
  | map d _ key _ => key.IsLeaf ∧ d.constraint.expected = .kind .map
  | object d _ all => d.constraint.rules = [] ∧
      (all.map Property.output).Pairwise Path.KeysApart ∧
        (all.map Property.input).Pairwise Path.KeysApart

theorem roundTrips_of_reversesTo (everywhere : Everywhere (fun s => Fitting s ∧ Invertible s) s)
    (reversed : s.ReversesTo r) : RoundTrips s r := by
  induction everywhere generalizing r with
  | leaf here =>
    obtain rfl := reversesTo_leaf reversed
    intro x y accepted
    have again := stable_of_isLeaf here.1 trivial x y accepted
    exact ⟨y, again, again⟩
  | array here _ ih =>
    obtain ⟨target, element, rfl⟩ := reversesTo_array reversed
    exact roundTrips_array here.1 (ih element)
  | set here element =>
    obtain ⟨fitting, leaf, expected, free⟩ := here
    obtain ⟨target, same, rfl⟩ := reversesTo_set reversed
    cases element with
    | leaf own =>
      obtain rfl := reversesTo_leaf same
      exact roundTrips_set fitting (stable_of_isLeaf own.1 leaf) expected free
    | _ => cases leaf
  | map here key _ _ ih =>
    obtain ⟨fitting, leaf, expected⟩ := here
    obtain ⟨target, value, rfl⟩ := reversesTo_map reversed
    exact roundTrips_map fitting (stable_of_isLeaf key.here.1 leaf) (ih value) expected
  | object here _ ih =>
    rename_i all _
    obtain ⟨fitting, free, outputs, inputs⟩ := here
    obtain ⟨_, _, shape, remap, listed⟩ := id fitting
    obtain ⟨targets, rfl, _, _, parts⟩ :=
      reversesTo_object (Shape.proper_of_properties listed).outputs reversed
    have members := (List.forall₂_and_left all targets).mpr ⟨fun p member => member, parts⟩
    refine roundTrips_object fitting free outputs inputs (members.imp ?_)
    rintro p q ⟨member, part⟩
    exact ⟨part.output, part.input, ih p member part.node⟩

/-- Every output goes through the reverse and comes back: the reverse accepts it, whatever the session,
and what it makes of it the schema accepts with the same output. -/
theorem reverse_roundTrips (made : s.Made) (invertible : Everywhere Invertible s)
    (reversed : s.ReversesTo r)
    (accepted : s.safeParse.Accepts x y) :
    ∃ back, r.safeParse.Settles y back ∧ s.safeParse.Settles back y :=
  roundTrips_of_reversesTo (made.fitting.and invertible) reversed x y accepted

theorem contact_invertible : Everywhere Invertible contact := by
  have email : Path.parse (Text.ofString "address.email") =
      .ok [.key (Text.ofString "address"), .key (Text.ofString "email")] := by cbv
  have line : Path.parse (Text.ofString "address.line") =
      .ok [.key (Text.ofString "address"), .key (Text.ofString "line")] := by cbv
  have codes : Path.parse (Text.ofString "codes") = .ok [.key (Text.ofString "codes")] := by cbv
  refine .object ⟨rfl, contact_outputsApart.here, ?_⟩ ?_
  · simp only [List.map_cons, List.map_nil, List.pairwise_cons, List.forall_mem_cons,
      List.not_mem_nil, false_imp_iff, implies_true, and_true, List.Pairwise.nil]
    refine ⟨⟨?_, ?_⟩, ?_⟩
    · exact ⟨_, _, email, line, [.key (Text.ofString "address")], _, _, _, _, rfl, rfl,
        by decide, rfl⟩
    · exact ⟨_, _, email, codes, [], _, _, _, _, rfl, rfl, by decide, rfl⟩
    · exact ⟨_, _, line, codes, [], _, _, _, _, rfl, rfl, by decide, rfl⟩
  · simp only [List.forall_mem_cons, List.not_mem_nil, false_imp_iff, implies_true, and_true]
    exact ⟨.leaf trivial, .leaf trivial, .set ⟨trivial, rfl, rfl⟩ (.leaf trivial)⟩

theorem reverse_roundTrips_contact : contact.Made ∧ Everywhere Invertible contact ∧
    contact.ReversesTo contactReverse ∧ contact.safeParse.Accepts contactInput contactOutput ∧
      ∃ back, contactReverse.safeParse.Settles contactOutput back ∧
        contact.safeParse.Settles back contactOutput :=
  ⟨contact_made, contact_invertible, ⟨_, _, contact_reverse⟩, contact_accepts,
    reverse_roundTrips contact_made contact_invertible ⟨_, _, contact_reverse⟩ contact_accepts⟩

end Schemata.Schema
