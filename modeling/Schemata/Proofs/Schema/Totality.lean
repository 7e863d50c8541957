import Schemata.Proofs.Schema.Nodes

/-! When parsing is total. A reply can only fail to come when a property cannot be written: the
properties of an object are written in the order of its shape, and an index written first makes an
array where a later key needs an object. Where the keys come in a better order there is always a
reply; where they do not, the shape can be filled with nodes so that there is none. -/
namespace Schemata.Schema

/-- The way in which the node places dates in time has an answer for every date. -/
def Timed (s : Schema) : Prop :=
  ∀ millis, ∃ instant, s.definition.constraint.convert (.date millis) = .ok instant

/-- The output keys of an object come in an order in which none obstructs a later one. -/
def OutputsOrdered : Schema → Prop
  | object _ _ all => Path.Ordered (all.map Property.output)
  | _ => True

variable {s : Schema}

theorem OutputsApart.ordered (apart : OutputsApart s) : OutputsOrdered s := by
  cases s with
  | object => exact Path.ordered_of_apart apart
  | _ => trivial

theorem total_of_ordered
    (everywhere : Everywhere (fun s => Fitting s ∧ Timed s ∧ OutputsOrdered s) s)
    (v : Value) : (s.safeParse v).Total := by
  induction everywhere generalizing v with
  | leaf here =>
    obtain ⟨⟨rfl, kind, fits⟩, timed, _⟩ := here
    exact Definition.safeParse_total (fits.constraint.violations_answer timed) nofun
  | array here _ ih | set here _ ih =>
    obtain ⟨⟨rfl, fits⟩, timed, _⟩ := here
    refine Definition.safeParse_total (fits.constraint.violations_answer timed) ?_
    rintro _ input ⟨⟩
    exact Transform.list_total ih
  | map here _ _ ihKey ihValue =>
    obtain ⟨⟨rfl, fits⟩, timed, _⟩ := here
    refine Definition.safeParse_total (fits.constraint.violations_answer timed) ?_
    rintro _ input ⟨⟩
    exact Transform.map_total ihKey ihValue
  | object here _ ih =>
    -- Only here can more go wrong than a part that does not reply.
    obtain ⟨⟨rfl, fits, shape, remap, listed⟩, timed, ordered⟩ := here
    have proper := Shape.proper_of_properties listed
    refine Definition.safeParse_total (fits.constraint.violations_answer timed) ?_
    rintro _ input ⟨⟩
    refine Transform.object_total ?_ ?_ (outputs_parsers ▸ proper.unnested)
      (outputs_parsers ▸ ordered)
    · rw [parsers_eq, List.forall_mem_map]
      exact ih
    · rw [parsers_eq, List.forall_mem_map]
      exact proper.inputs

section Clash

variable {first second root : Text} {input data next part : Value} {p : Property Parser}
  {rest : List (Property Parser)} {all : List (Property Schema)} {fault : Fault}

/-- The properties come to a write that cannot be made. -/
def Halts (root : Text) (input : Value) (all : List (Property Parser)) (data : Value) : Prop :=
  ∀ errors, (Transform.properties root input all data errors).Refused .logicError

theorem halts_of_rejected {problem : Value} (found : input.lookup p.input = .ok part)
    (rejected : (p.node part).Always (.rejected problem)) (later : Halts root input rest data) :
    Halts root input (p :: rest) data := by
  intro errors
  unfold Transform.properties
  exact (Run.always_lift found).bind_refused (rejected.bind_refused (later _))

theorem halts_of_written {n : Int64} (found : input.lookup p.input = .ok part)
    (accepted : (p.node part).Always (.accepted (.int n)))
    (assigned : Edit.assign p.output (.int n) data = (.ok (), next))
    (later : Halts root input rest next) :
    Halts root input (p :: rest) data := by
  intro errors
  unfold Transform.properties
  refine (Run.always_lift found).bind_refused (accepted.bind_refused ?_)
  simp only [assigned]
  exact (Run.always_lift rfl).bind_refused (later errors)

theorem halts_of_blocked {n : Int64} (found : input.lookup p.input = .ok part)
    (accepted : (p.node part).Always (.accepted (.int n))) (sort : fault.category = .logicError)
    (blocked : (Edit.assign p.output (.int n) data).1 = .error fault) :
    Halts root input (p :: rest) data := by
  intro errors
  unfold Transform.properties
  refine (Run.always_lift found).bind_refused (accepted.bind_refused ?_)
  rw [← sort]
  exact (Run.refused_lift blocked).bind

/-- A leaf that accepts everything. -/
def anything : Schema := leaf ⟨.anyValue, none, none⟩ none

/-- A node that accepts nothing. -/
def nothing : Schema := set ⟨.ofExpectation (.predicate fun _ => false), none, none⟩ none anything

theorem anything_made : Made anything := .leaf .any ⟨false, none⟩ .anyValue

theorem nothing_made : Made nothing := by
  have rejecting : Constraint.ofPredicate (some fun _ => false) =
      .ok (.ofExpectation (.predicate fun _ => false)) := rfl
  exact .set ⟨false, none⟩ anything_made (.ofPredicate (.inl rfl) rejecting)

theorem anything_accepts (n : Int64) : anything.safeParse.Settles (.int n) (.int n) :=
  settles_leaf anything_made.fitting.here rfl

theorem nothing_rejects (v : Value) : ∃ problem, (nothing.safeParse v).Always (.rejected problem) :=
  ⟨_, Definition.safeParse_rejected (Definition.coerced_of_none rfl) rfl
    (List.cons_ne_nil _ []) rfl⟩

/-- A property of an object that is to fail: at the two keys a number comes through, at all others
nothing does. -/
def Staged (first second : Text) (input : Value) (p : Property Schema) : Prop :=
  if p.output = first ∨ p.output = second then
    p.node = anything ∧ input.lookup p.input = .ok (.int 1)
  else p.node = nothing ∧ ∃ part, input.lookup p.input = .ok part

theorem halts_at_second (staged : ∀ p ∈ all, Staged first second input p)
    (present : second ∈ all.map Property.output) (gone : first ∉ all.map Property.output)
    (sort : fault.category = .logicError)
    (blocked : (Edit.assign second (.int 1) data).1 = .error fault) :
    Halts root input (parsers all) data := by
  induction all with
  | nil => cases present
  | cons p rest ih =>
    obtain ⟨here, staged⟩ := List.forall_mem_cons.mp staged
    simp only [List.map_cons, List.mem_cons, not_or] at present gone
    rw [parsers]
    unfold Staged at here
    by_cases same : p.output = second
    · rw [if_pos (.inr same)] at here
      obtain ⟨node, found⟩ := here
      have accepted := anything_accepts 1
      rw [← node] at accepted
      exact halts_of_blocked found accepted sort (same ▸ blocked)
    · rw [if_neg (not_or.mpr ⟨Ne.symm gone.1, same⟩)] at here
      obtain ⟨node, part, found⟩ := here
      obtain ⟨problem, rejected⟩ := nothing_rejects part
      rw [← node] at rejected
      exact halts_of_rejected found rejected
        (ih staged (present.resolve_left (Ne.symm same)) gone.2)

theorem halts_at_first (staged : ∀ p ∈ all, Staged first second input p)
    (distinct : (all.map Property.output).Nodup)
    (order : [first, second].Sublist (all.map Property.output))
    (assigned : Edit.assign first (.int 1) data = (.ok (), next))
    (sort : fault.category = .logicError)
    (blocked : (Edit.assign second (.int 1) next).1 = .error fault) :
    Halts root input (parsers all) data := by
  induction all with
  | nil => cases order
  | cons p rest ih =>
    obtain ⟨here, others⟩ := List.forall_mem_cons.mp staged
    obtain ⟨once, distinct⟩ := List.nodup_cons.mp distinct
    rw [List.map_cons, List.cons_sublist_cons'] at order
    rw [parsers]
    unfold Staged at here
    by_cases same : p.output = first
    · subst same
      rw [if_pos (.inl rfl)] at here
      obtain ⟨node, found⟩ := here
      have later : second ∈ rest.map Property.output := by
        rcases order with deeper | ⟨_, later⟩
        · exact absurd (deeper.subset List.mem_cons_self) once
        · exact List.singleton_sublist.mp later
      have accepted := anything_accepts 1
      rw [← node] at accepted
      exact halts_of_written found accepted assigned
        (halts_at_second others later once sort blocked)
    · have deeper := order.resolve_right fun found => same found.1.symm
      have different : p.output ≠ second := fun same =>
        once (same ▸ deeper.subset (List.mem_cons_of_mem _ List.mem_cons_self))
      rw [if_neg (not_or.mpr ⟨same, different⟩)] at here
      obtain ⟨node, part, found⟩ := here
      obtain ⟨problem, rejected⟩ := nothing_rejects part
      rw [← node] at rejected
      exact halts_of_rejected found rejected (ih others distinct deeper)

/-- The shape for names that is to fail. -/
def stagedShape (names : List Text) (first second : Text) : Shape Schema :=
  names.map fun name => (name, if name = first ∨ name = second then anything else nothing)

/-- The input with a number at two keys. -/
def stagedInput (first second : Text) : Value :=
  .object (Fields.insert first (.int 1) (Fields.insert second (.int 1) []))

theorem lookup_stagedInput {key : Text} (named : key = first ∨ key = second) :
    (stagedInput first second).lookup key = .ok (.int 1) := by
  have found : Fields.find? key (Fields.insert first (.int 1) (Fields.insert second (.int 1) [])) =
      some (Value.int 1) := by
    by_cases same : key = first
    · rw [same, Fields.find?_insert_self]
    · rw [Fields.find?_insert_of_ne same, named.resolve_left same, Fields.find?_insert_self]
  rw [stagedInput, Value.lookup, found]

theorem staged_properties {remap : Remap} {names : List Text}
    (inputs : ∀ p ∈ (stagedShape names first second).map (Shape.property remap),
      ∃ steps, Path.parse p.input = .ok steps) :
    ∀ p ∈ (stagedShape names first second).map (Shape.property remap), Staged first second
      (stagedInput (Shape.inputKey remap first) (Shape.inputKey remap second)) p := by
  intro p member
  obtain ⟨steps, parsed⟩ := inputs p member
  rw [stagedShape, List.map_map] at member
  obtain ⟨name, _, rfl⟩ := List.mem_map.mp member
  unfold Staged
  simp only [Function.comp_apply, Shape.property] at parsed ⊢
  split
  · rename_i named
    refine ⟨rfl, lookup_stagedInput ?_⟩
    exact named.imp (congrArg _) (congrArg _)
  · exact ⟨rfl, Value.lookup_answers _ parsed⟩

theorem staged_nodes {names : List Text} : ∀ named ∈ stagedShape names first second,
    named.2.Made ∧ Everywhere Timed named.2 ∧ Everywhere OutputsOrdered named.2 := by
  intro named member
  obtain ⟨name, _, rfl⟩ := List.mem_map.mp member
  have timed (c : Definition) (convert : c.constraint.convert = .standard) :
      ∀ millis, ∃ instant, c.constraint.convert (.date millis) = .ok instant :=
    fun millis => ⟨millis, by rw [convert]; rfl⟩
  dsimp only
  split
  · exact ⟨anything_made, .leaf (timed _ rfl), .leaf trivial⟩
  · exact ⟨nothing_made, .set (timed _ rfl) (.leaf (timed _ rfl)), .set trivial (.leaf trivial)⟩

end Clash

/-- Of keys that are not in order, some index obstructs a later key. -/
theorem exists_obstructed {keys : List Text} (unordered : ¬ Path.Ordered keys) :
    ∃ first second p q, [first, second].Sublist keys ∧ Path.parse first = .ok p ∧
      Path.parse second = .ok q ∧ Path.Obstructs p q := by
  unfold Path.Ordered at unordered
  rw [List.pairwise_iff_forall_sublist] at unordered
  push Not at unordered
  obtain ⟨first, second, order, p, q, parsed, parsed', obstructs⟩ := unordered
  exact ⟨first, second, p, q, order, parsed, parsed', obstructs⟩

/-- The object node of a shape with these names, the nodes of which reply to every input. -/
def FilledFrom (names : List Text) (remap : Remap) (s : Schema) : Prop :=
  ∃ shape : Shape Schema, shape.map Prod.fst = names ∧
    (∀ named ∈ shape, named.2.Made ∧ Everywhere Timed named.2 ∧ Everywhere OutputsOrdered named.2) ∧
      objectOf shape remap (.ofKind .object) none = .ok s

/-- Names that are not in order can be given nodes so that an input has no reply. -/
theorem exists_refused {names : List Text} {remap : Remap}
    (fitting : Shape.Fitting (names.map fun name => (name, ())) remap)
    (unordered : ¬ Path.Ordered names) :
    ∃ s v, FilledFrom names remap s ∧ (s.safeParse v).Refused .logicError := by
  obtain ⟨first, second, p, q, order, parsed, parsed', obstructs⟩ := exists_obstructed unordered
  have columns : (stagedShape names first second).map Prod.fst = names := by
    simp [stagedShape, Function.comp_def]
  have same : (names.map fun name => (name, ())).map Prod.fst = names := by simp [Function.comp_def]
  have fits := fitting.of_names (columns.trans same.symm)
  have listed := Shape.properties_eq_ok_iff.mpr ⟨fits, rfl⟩
  have outputs :
      ((stagedShape names first second).map (Shape.property remap)).map Property.output = names := by
    rw [List.map_map]
    exact columns
  have distinct :
      (((stagedShape names first second).map (Shape.property remap)).map Property.output).Nodup := by
    rw [outputs, ← same]
    exact fitting.distinct
  have full : ¬ ((Value.object []).write p (.int 1)).Writable q :=
    Value.not_writable_of_obstructs obstructs
  obtain ⟨fault, sort, blocked⟩ : ∃ fault : Fault, fault.category = .logicError ∧
      (Edit.assign second (.int 1) ((Value.object []).write p (.int 1))).1 = .error fault :=
    Edit.assign_of_not_writable parsed' full
  refine ⟨_, stagedInput (Shape.inputKey remap first) (Shape.inputKey remap second),
    ⟨stagedShape names first second, columns, staged_nodes,
      by rw [objectOf, objectWith, listed]; rfl⟩, ?_⟩
  refine Definition.safeParse_refused rfl (Definition.coerced_of_none rfl)
    (Constraint.violations_of_kind rfl rfl) ?_
  have halts : Halts Transform.defaultRoot _ _ _ :=
    halts_at_first (staged_properties fits.inputs) distinct (outputs.symm ▸ order)
      (Edit.assign_of_writable parsed (Value.writable_emptyObject p)) sort blocked
  exact (halts []).bind

/-- The order of the output keys decides. Where it is good at every object, every input of a schema
that can be made has a reply in every session; and names that make up properties, but in an order
that is not good, can be given nodes, each good in itself, so that an input has none in any. -/
theorem safeParse_total_exactly_ordered (s : Schema) (names : List Text) (remap : Remap) :
    (s.Made → Everywhere Timed s → Everywhere OutputsOrdered s → ∀ v, (s.safeParse v).Total) ∧
      ∀ all : List (Property Unit), Shape.properties (names.map fun name => (name, ())) remap =
        .ok all →
        ¬ Path.Ordered names →
          ∃ filled v, FilledFrom names remap filled ∧ (filled.safeParse v).Refused .logicError := by
  constructor
  · intro made timed ordered
    exact total_of_ordered (made.fitting.and (timed.and ordered))
  · intro all listed unordered
    exact exists_refused (Shape.properties_eq_ok_iff.mp listed).1 unordered

theorem contact_timed : Everywhere Timed contact := by
  refine .object (fun millis => ⟨millis, rfl⟩) ?_
  simp only [List.forall_mem_cons, List.not_mem_nil, false_imp_iff, implies_true, and_true]
  exact ⟨.leaf fun millis => ⟨millis, rfl⟩, .leaf fun millis => ⟨millis, rfl⟩,
    .set (fun millis => ⟨millis, rfl⟩) (.leaf fun millis => ⟨millis, rfl⟩)⟩

/-- Two names in one place, the index first. -/
def indexBeforeKey : List Text := [Text.ofString "a.0", Text.ofString "a.x"]

theorem indexBeforeKey_properties : Shape.properties
    (indexBeforeKey.map fun name => (name, ())) [] =
    .ok (indexBeforeKey.map fun name => ⟨name, name, ()⟩) := by
  cbv

theorem indexBeforeKey_not_ordered : ¬ Path.Ordered indexBeforeKey := by
  have index : Path.parse (Text.ofString "a.0") = .ok [.key (Text.ofString "a"), .index 0] := by cbv
  have key : Path.parse (Text.ofString "a.x") =
      .ok [.key (Text.ofString "a"), .key (Text.ofString "x")] := by cbv
  intro ordered
  have free := (List.pairwise_cons.mp ordered).1 _ List.mem_cons_self _ _ index key
  exact free ⟨[.key (Text.ofString "a")], 0, Text.ofString "x", [], [], by simp, rfl, rfl⟩

theorem safeParse_total_exactly_ordered_contact :
    (contact.Made ∧ Everywhere Timed contact ∧ Everywhere OutputsOrdered contact ∧
      ∀ v, (contact.safeParse v).Total) ∧
    Shape.properties (indexBeforeKey.map fun name => (name, ())) [] =
        .ok (indexBeforeKey.map fun name => ⟨name, name, ()⟩) ∧
      ¬ Path.Ordered indexBeforeKey ∧
        ∃ filled v, FilledFrom indexBeforeKey [] filled ∧
          (filled.safeParse v).Refused .logicError := by
  have ordered := contact_outputsApart.imp fun _ apart => apart.ordered
  have both := safeParse_total_exactly_ordered contact indexBeforeKey []
  refine ⟨⟨contact_made, contact_timed, ordered, ?_⟩, indexBeforeKey_properties,
    indexBeforeKey_not_ordered, ?_⟩
  · exact both.1 contact_made contact_timed ordered
  · exact both.2 _ indexBeforeKey_properties indexBeforeKey_not_ordered

/-- An object that anything may be written into, but not in this order. -/
theorem indexBeforeKey_refused : ∃ s : Schema, s.Made ∧
    objectOf (indexBeforeKey.map fun name => (name, anything)) [] (.ofKind .object) none = .ok s ∧
      (s.safeParse
        (.object [(Text.ofString "a.0", .int 1), (Text.ofString "a.x", .int 2)])).outcome {} =
        (.error (.keyIntoKind (Text.ofString "x") (Text.ofString "a.x") .array), {}) := by
  have accepted : objectOf (indexBeforeKey.map fun name => (name, anything)) []
    (.ofKind .object) none =
      .ok (object ⟨.ofKind .object, none, none⟩ none
        (indexBeforeKey.map fun name => ⟨name, name, anything⟩)) := by cbv
  refine ⟨_, .object none ?_ (.ofKind rfl) accepted, accepted, by cbv⟩
  rw [List.forall_mem_map]
  exact fun _ _ => anything_made

end Schemata.Schema
