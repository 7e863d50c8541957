import Schemata.Proofs.Schema.Nodes
import Schemata.Proofs.Supply

/-! The symbols that come out of parsing. Whatever a schema replies to an input, and whatever a fault
of it carries, has no symbols but those of the input and those that were made on the way. A transform
that takes the place of a node's own and a converter of dates are the user's and asked for the same. -/
namespace Schemata

def Reply.values : Reply → List Value
  | .accepted data => [data]
  | .rejected errors => [errors]

def Outcome.values (outcome : Outcome) : List Value := [outcome.data, outcome.errors]

theorem Fault.values_eq_nil {fault : Fault} (other : fault.category ≠ .parseError) :
    fault.values = [] := by
  cases fault with
  | rejected errors description => exact absurd rfl other
  | _ => rfl

variable {known : Set Nat}

/-- A fault hands on no symbols unless it is for the errors of a parsed input. -/
theorem Run.gives_lift_of {α : Type} {values : α → List Value} {x : Except Fault α}
    (answers : ∀ a, x = .ok a → ∀ v ∈ values a, v.DrawnFrom known)
    (other : ∀ fault, x = .error fault → fault.category ≠ .parseError) :
    (Run.lift x).Gives known values := by
  refine Run.gives_lift fun v member => ?_
  cases x with
  | ok a => exact answers a rfl v member
  | error fault =>
    rw [Run.found, Fault.values_eq_nil (other fault rfl)] at member
    cases member

theorem Value.toSymbol_gives {v : Value} (drawn : v.DrawnFrom known) :
    v.toSymbol.Gives known fun w => [w] := by
  cases v with
  | symbol identity description => exact Run.gives_pure_one rfl drawn
  | _ => exact Run.gives_freshSymbol _

theorem Coercion.apply_gives (c : Coercion) {v : Value} (drawn : v.DrawnFrom known) :
    (c.apply v).Gives known fun w => [w] := by
  cases c with
  | symbol => exact Value.toSymbol_gives drawn
  | string => exact Run.gives_pure_one rfl (Value.drawn_string _)
  | number => exact Run.gives_pure_one rfl (Value.drawn_toNumber v)
  | boolean => exact Run.gives_pure_one rfl (Value.drawn_of_alone Form.noConfusion rfl)
  | date => exact Run.gives_pure_one rfl (Value.drawn_toDate v)
  | array => exact Run.gives_pure_one rfl drawn.toArray
  | set => exact Run.gives_pure_one rfl drawn.toSet
  | map => exact Run.gives_pure_one rfl drawn.toMap

/-- The converters of dates that a constraint asks bring no symbols along. -/
def Constraint.Honest (known : Set Nat) (c : Constraint) : Prop :=
  ∀ rule ∈ c.rules, ∀ convert, converter? rule.check = some convert →
    Run.Honest known (fun _ => []) fun v => Run.lift (convert v)

theorem Constraint.Honest.violations {c : Constraint} (honest : c.Honest known) :
    Run.Honest known (fun _ => []) fun v => Run.lift (c.violations v) := by
  intro more grown v drawn
  refine Run.gives_lift fun u member => ?_
  cases refused : c.violations v with
  | ok messages =>
    rw [refused] at member
    cases member
  | error fault =>
    rw [refused] at member
    obtain ⟨rule, listed, refused⟩ := violations_error refused
    rcases accepts_error refused with reading | ⟨convert, wanted, refused⟩
    · rw [Run.found, Fault.values_eq_nil (by simp [reading])] at member
      cases member
    · refine Run.gives_lift_iff.mp (honest rule listed convert wanted more grown v drawn) u ?_
      rw [refused]
      exact member

namespace Definition

variable {d : Definition} {transform : Option Transform} {v : Value}

theorem coerced_gives (drawn : v.DrawnFrom known) : (d.coerced v).Gives known fun w => [w] := by
  unfold coerced
  split
  · exact Run.gives_pure_one rfl drawn
  · split
    · exact Run.gives_pure_one rfl drawn
    · exact Coercion.apply_gives _ drawn

theorem safeParse_honest (checks : d.constraint.Honest known)
    (transforms : ∀ t, transform = some t → Run.Honest known Outcome.values t) :
    Run.Honest known Reply.values (d.safeParse transform) := by
  intro more grown v drawn
  unfold safeParse
  split
  · refine (Run.gives_trace _).bind fun most wider _ _ => ?_
    exact Run.gives_pure_one rfl (drawn.mono wider)
  · refine (coerced_gives drawn).bind fun most wider input found => ?_
    have here := List.forall_mem_singleton.mp found
    have grown := grown.trans wider
    refine (checks.violations most grown input here).bind fun most wider messages _ => ?_
    have here := here.mono wider
    have grown := grown.trans wider
    dsimp only
    split
    · refine (Run.gives_trace _).bind fun most wider _ _ => Run.gives_pure_one rfl ?_
      rw [Value.drawn_array_iff, List.forall_mem_map]
      exact fun message _ => Value.drawn_string message
    · split
      · exact Run.gives_pure_one rfl here
      · split
        · exact Run.gives_pure_one rfl here
        · rename_i t
          refine (transforms t rfl most grown input here).bind fun most _ outcome found => ?_
          obtain ⟨data, errors⟩ := Value.drawn_pair_iff.mp found
          split
          · refine (Run.gives_trace _).bind fun most wider _ _ => ?_
            exact Run.gives_pure_one rfl (errors.mono wider)
          · exact Run.gives_pure_one rfl data

end Definition

namespace Transform

variable {element key value : Parser} {input data problems : Value} {line : Text}

theorem success_gives (drawn : data.DrawnFrom known) :
    (pure (.success data) : Run Outcome).Gives known Outcome.values :=
  Run.gives_pure_two rfl drawn Value.drawn_undefined

theorem failure_gives (drawn : problems.DrawnFrom known) :
    (pure (.failure problems) : Run Outcome).Gives known Outcome.values := by
  refine Run.gives_pure_two rfl Value.drawn_undefined ?_
  simp only [Outcome.failure, Outcome.of]
  split
  · exact Value.drawn_of_alone Form.noConfusion rfl
  · exact drawn

theorem settled_gives {silent : Bool} (success : data.DrawnFrom known)
    (failure : problems.DrawnFrom known) :
    (if silent then return .success data
      else do
        Run.trace line
        return .failure problems : Run Outcome).Gives known Outcome.values := by
  split
  · exact success_gives success
  · exact (Run.gives_trace line).bind fun most wider _ _ => failure_gives (failure.mono wider)

theorem unsupported_gives (kind : Kind) (input : Value) :
    (pure (unsupported kind input) : Run Outcome).Gives known Outcome.values :=
  failure_gives (Value.drawn_array_iff.mpr (List.forall_mem_singleton.mpr (Value.drawn_string _)))

theorem elements_gives (honest : Run.Honest known Reply.values element) (index : Nat)
    {items : List Value} (drawn : ∀ item ∈ items, item.DrawnFrom known) :
    (elements element index items).Gives known fun found =>
      [Value.array found.1, Value.object found.2] := by
  induction items generalizing known index with
  | nil => exact Run.gives_pure_two rfl (Value.drawn_array_iff.mpr drawn) Value.drawn_emptyObject
  | cons v vs ih =>
    obtain ⟨first, rest⟩ := List.forall_mem_cons.mp drawn
    unfold elements
    refine (honest known subset_rfl v first).bind fun more grown reply replied => ?_
    have rest : ∀ item ∈ vs, item.DrawnFrom more := fun item member => (rest item member).mono grown
    refine (ih (honest.mono grown) (index + 1) rest).bind fun most wider found others => ?_
    obtain ⟨results, errors⟩ := Value.drawn_pair_iff.mp others
    cases reply with
    | accepted data =>
      have data := (List.forall_mem_singleton.mp replied).mono wider
      refine Run.gives_pure_two rfl ?_ errors
      exact Value.drawn_array_iff.mpr
        (List.forall_mem_cons.mpr ⟨data, Value.drawn_array_iff.mp results⟩)
    | rejected problem =>
      have problem := (List.forall_mem_singleton.mp replied).mono wider
      refine Run.gives_pure_two rfl results (Value.drawn_object_iff.mpr ?_)
      exact Value.drawn_insert (Value.drawn_object_iff.mp errors) problem _

theorem list_honest {kind : Kind} {build : List Value → Value}
    (honest : Run.Honest known Reply.values element)
    (builds : ∀ more items, (∀ item ∈ items, item.DrawnFrom more) → (build items).DrawnFrom more) :
    Run.Honest known Outcome.values (list kind build element) := by
  intro more grown input drawn
  unfold list
  cases input with
  | undefined | null =>
    exact success_gives (builds more [] fun _ none => absurd none List.not_mem_nil)
  | array items | set items =>
    have inside : ∀ item ∈ items, item.DrawnFrom more := fun item member => drawn.part member
    refine (elements_gives (honest.mono grown) 0 inside).bind fun most _ found parts => ?_
    obtain ⟨results, errors⟩ := Value.drawn_pair_iff.mp parts
    exact settled_gives (builds most found.1 (Value.drawn_array_iff.mp results)) errors
  | _ => exact unsupported_gives kind _

theorem entries_gives (keys : Run.Honest known Reply.values key)
    (values : Run.Honest known Reply.values value) {all : List (Value × Value)}
    (drawn : (Value.map all).DrawnFrom known) :
    (entries key value all).Gives known fun found => [Value.map found.1, Value.map found.2] := by
  induction all generalizing known with
  | nil => exact Run.gives_pure_two rfl drawn drawn
  | cons e rest ih =>
    obtain ⟨⟨first, second⟩, rest⟩ := Value.drawn_map_cons_iff.mp drawn
    unfold entries
    refine (keys known subset_rfl e.1 first).bind fun more grown keyReply keyed => ?_
    refine (values more grown e.2 (second.mono grown)).bind fun most wider valueReply valued => ?_
    have grown' := grown.trans wider
    refine (ih (keys.mono grown') (values.mono grown') (rest.mono grown')).bind
      fun last widest found others => ?_
    obtain ⟨results, errors⟩ := Value.drawn_pair_iff.mp others
    have first := (first.mono grown').mono widest
    have keyed := fun v member => ((keyed v member).mono wider).mono widest
    have valued := fun v member => (valued v member).mono widest
    cases keyReply with
    | accepted k =>
      have k := List.forall_mem_singleton.mp keyed
      cases valueReply with
      | accepted v =>
        have v := List.forall_mem_singleton.mp valued
        exact Run.gives_pure_two rfl (Value.drawn_map_cons_iff.mpr ⟨⟨k, v⟩, results⟩) errors
      | rejected v =>
        have v := List.forall_mem_singleton.mp valued
        refine Run.gives_pure_two rfl results (Value.drawn_map_cons_iff.mpr ⟨⟨first, ?_⟩, errors⟩)
        exact Value.drawn_array_iff.mpr (Value.drawn_pair_iff.mpr ⟨Value.drawn_undefined, v⟩)
    | rejected k =>
      have k := List.forall_mem_singleton.mp keyed
      cases valueReply with
      | accepted v =>
        refine Run.gives_pure_two rfl results (Value.drawn_map_cons_iff.mpr ⟨⟨first, ?_⟩, errors⟩)
        exact Value.drawn_array_iff.mpr (Value.drawn_pair_iff.mpr ⟨k, Value.drawn_undefined⟩)
      | rejected v =>
        have v := List.forall_mem_singleton.mp valued
        refine Run.gives_pure_two rfl results (Value.drawn_map_cons_iff.mpr ⟨⟨first, ?_⟩, errors⟩)
        exact Value.drawn_array_iff.mpr (Value.drawn_pair_iff.mpr ⟨k, v⟩)

theorem drawn_entriesOf {all : List (Value × Value)} (drawn : input.DrawnFrom known)
    (listed : entriesOf input = some all) : (Value.map all).DrawnFrom known := by
  cases input with
  | map =>
    cases listed
    exact drawn
  | object =>
    cases listed
    exact Value.drawn_map_iff.mpr (Value.drawn_entries_of_fields drawn)
  | _ => cases listed

theorem map_honest (keys : Run.Honest known Reply.values key)
    (values : Run.Honest known Reply.values value) :
    Run.Honest known Outcome.values (map key value) := by
  intro more grown input drawn
  unfold map
  cases input with
  | undefined | null => exact success_gives (Value.drawn_of_alone Form.noConfusion rfl)
  | map | object =>
    have inside := drawn_entriesOf drawn rfl
    refine (entries_gives (keys.mono grown) (values.mono grown) inside).bind
      fun most _ found parts => ?_
    obtain ⟨results, errors⟩ := Value.drawn_pair_iff.mp parts
    exact settled_gives (Value.drawn_ofEntries (Value.drawn_map_iff.mp results))
      (Value.drawn_ofEntries (Value.drawn_map_iff.mp errors))
  | _ => exact unsupported_gives .map _

theorem lookup_gives (given : input.DrawnFrom known) (path : Text) :
    (Run.lift (input.lookup path)).Gives known fun part => [part] := by
  refine Run.gives_lift_of (fun part found => List.forall_mem_singleton.mpr (given.lookup found)) ?_
  intro fault refused
  rw [Value.category_of_lookup_refused refused]
  exact Category.noConfusion

theorem assign_gives (path : Text) (new data : Value) :
    (Run.lift (Edit.assign path new data).1).Gives known fun _ => [] := by
  refine Run.gives_lift_of (fun _ _ => List.forall_mem_nil _) fun fault refused => ?_
  rcases Edit.category_of_assign_refused refused with sort | sort <;> rw [sort] <;>
    exact Category.noConfusion

theorem properties_gives {all : List (Property Parser)}
    (honest : ∀ p ∈ all, Run.Honest known Reply.values p.node) {root : Text} {errors : Fields Value}
    (given : input.DrawnFrom known) (written : data.DrawnFrom known)
    (failed : (Value.object errors).DrawnFrom known) :
    (properties root input all data errors).Gives known fun found =>
      [found.1, Value.object found.2] := by
  induction all generalizing known data errors with
  | nil => exact Run.gives_pure_two rfl written failed
  | cons p rest ih =>
    obtain ⟨first, honest⟩ := List.forall_mem_cons.mp honest
    unfold properties
    refine (lookup_gives given p.input).bind fun more grown part found => ?_
    have part_drawn := List.forall_mem_singleton.mp found
    refine (first more grown part part_drawn).bind fun most wider reply replied => ?_
    have grown' := grown.trans wider
    have honest : ∀ p ∈ rest, Run.Honest most Reply.values p.node :=
      fun p member => (honest p member).mono grown'
    have given := given.mono grown'
    have written := written.mono grown'
    have failed := failed.mono grown'
    split
    · have problem := List.forall_mem_singleton.mp replied
      refine ih honest given written (Value.drawn_object_iff.mpr ?_)
      exact Value.drawn_insert (Value.drawn_object_iff.mp failed) problem _
    · exact ih honest given written failed
    · rename_i result _
      have result_drawn := List.forall_mem_singleton.mp replied
      refine (assign_gives p.output result data).bind fun last widest _ _ => ?_
      exact ih (fun p member => (honest p member).mono widest) (given.mono widest)
        ((written.assign result_drawn).mono widest) (failed.mono widest)

theorem object_honest {all : List (Property Parser)}
    (honest : ∀ p ∈ all, Run.Honest known Reply.values p.node) (root : Text) :
    Run.Honest known Outcome.values (object all root) := by
  intro more grown input drawn
  unfold object
  refine (properties_gives (fun p member => (honest p member).mono grown) drawn
    Value.drawn_emptyObject Value.drawn_emptyObject).bind fun most _ found parts => ?_
  obtain ⟨data, errors⟩ := Value.drawn_pair_iff.mp parts
  exact settled_gives data errors

end Transform

namespace Schema

variable {s : Schema}

/-- The parts of a node that come from the user bring no symbols along but known ones: the converters
of dates that its constraint asks, and a transform that takes the place of its own. -/
structure Honest (known : Set Nat) (s : Schema) : Prop where
  checks : s.definition.constraint.Honest known
  override : ∀ t, s.override = some t → Run.Honest known Outcome.values t

theorem safeParse_honest (honest : Everywhere (Honest known) s) :
    Run.Honest known Reply.values s.safeParse := by
  induction honest with
  | leaf here => exact Definition.safeParse_honest here.checks here.override
  | array here _ ih =>
    refine Definition.safeParse_honest here.checks (forall_transform ?_ here.override)
    exact Transform.list_honest ih fun _ _ => Value.drawn_array_iff.mpr
  | set here _ ih =>
    refine Definition.safeParse_honest here.checks (forall_transform ?_ here.override)
    exact Transform.list_honest ih fun _ _ => Value.drawn_ofItems
  | map here _ _ ihKey ihValue =>
    exact Definition.safeParse_honest here.checks
      (forall_transform (Transform.map_honest ihKey ihValue) here.override)
  | object here _ ih =>
    refine Definition.safeParse_honest here.checks
      (forall_transform (Transform.object_honest ?_ _) here.override)
    rw [parsers_eq, List.forall_mem_map]
    exact ih

theorem parse_honest (honest : Everywhere (Honest known) s) :
    Run.Honest known (fun data => [data]) s.parse := by
  intro more grown v drawn
  refine (safeParse_honest honest more grown v drawn).bind fun most _ reply replied => ?_
  cases reply with
  | accepted data => exact Run.gives_pure replied
  | rejected errors => exact Run.gives_throw replied

/-- The standard converter has no symbols to hand on. -/
theorem standard_honest :
    Run.Honest known (fun _ => []) fun v => Run.lift (DateConverter.standard v) := by
  intro more _ v _
  refine Run.gives_lift_of (fun _ _ => List.forall_mem_nil _) fun fault refused => ?_
  cases v <;> cases refused <;> exact Category.noConfusion

/-- A node that is made has no transform but its own and asks no converter but that of its dates. -/
theorem Fitting.honest (fitting : Fitting s)
    (converter : Run.Honest known (fun _ => []) fun v =>
      Run.lift (s.definition.constraint.convert v)) : Honest known s := by
  have checks {family : Constraint.Family} (fits : Constraint.Fits family s.definition.constraint) :
      s.definition.constraint.Honest known := by
    intro rule listed convert wanted
    rw [fits.converts rule listed convert wanted]
    exact converter
  cases s with
  | leaf =>
    obtain ⟨rfl, kind, fits⟩ := fitting
    exact ⟨checks fits.constraint, fun _ none => by cases none⟩
  | array | set | map =>
    obtain ⟨rfl, fits⟩ := fitting
    exact ⟨checks fits.constraint, fun _ none => by cases none⟩
  | object =>
    obtain ⟨rfl, fits, _⟩ := fitting
    exact ⟨checks fits.constraint, fun _ none => by cases none⟩

theorem Made.honest (made : Made s)
    (converters : Everywhere (fun s => Run.Honest known (fun _ => []) fun v =>
      Run.lift (s.definition.constraint.convert v)) s) : Everywhere (Honest known) s :=
  (made.fitting.and converters).imp fun _ both => both.1.honest both.2

end Schema
end Schemata
