import Schemata.Proofs.Schema.Failures
import Schemata.Proofs.Schema.Nodes
import Schemata.Proofs.Value.Keyed

/-! Reports are complete and invent nothing. What fails is defined by recursion over the schema, apart
from any payload: a node fails by what its constraint says against the input, or else by what fails in
its parts. The report of a rejected input lists just these failures, and it is never empty. -/
namespace Schemata

open Constraint (Family)

namespace Definition

variable {d : Definition} {transform : Option Transform} {parts : Value → List Failure} {v y : Value}
  {σ τ : Session}

/-- The input as the constraint sees it in a session of its own. -/
def preview (d : Definition) (v : Value) : Value :=
  match ((d.coerced v).outcome {}).1 with
  | .ok input => input
  | .error _ => v

/-- What the constraint says against an input or, if it says nothing, what fails in the parts. -/
def failures (d : Definition) (parts : Value → List Failure) (v : Value) : List Failure :=
  if d.constraint.admits v then []
  else
    let input := d.preview v
    match d.constraint.violations input with
    | .ok [] => if input.isNullish then [] else parts input
    | .ok messages => messages.map (Failure.mk [])
    | .error _ => []

theorem preview_of_answers (answered : (d.coerced v).Answers {} y τ) : d.preview v = y := by
  rw [preview, show _ = _ from answered]

theorem preview_of_always (coerced : (d.coerced v).Always y) : d.preview v = y := by
  obtain ⟨τ, answered⟩ := coerced {}
  exact preview_of_answers answered

theorem exists_coerced (fixed : d.coercion ≠ some .symbol) : ∃ y, (d.coerced v).Always y := by
  obtain ⟨y, τ, answered⟩ := coerced_total d v {}
  exact ⟨y, coerced_always fixed answered⟩

/-- A node is explained by its constraint and its parts if these are. -/
theorem safeParse_explained (coerced : (d.coerced v).Always y) (plain : transform = none → parts y = [])
    (transformed : ∀ t, transform = some t → y.isNullish = false →
      d.constraint.violations y = .ok [] → ∀ σ outcome τ, (t y).Answers σ outcome τ →
        outcome.reply.ExplainedBy (parts y)) :
    Parser.ExplainedBy (d.safeParse transform) v (d.failures parts v) := by
  intro σ reply τ answered
  cases reply with
  | accepted data =>
    have silent : d.failures parts v = [] := by
      unfold failures
      split
      · rfl
      · rw [preview_of_always coerced]
        cases safeParse_accepts ⟨σ, τ, answered⟩ with
        | admitted admitted => contradiction
        | nullish seen checked nullish =>
          obtain rfl := coerced.unique seen
          simp only [checked, nullish, if_true]
        | plain seen checked defined =>
          obtain rfl := coerced.unique seen
          simp only [checked, plain rfl, ite_self]
        | transformed seen checked defined ran succeeded =>
          obtain rfl := coerced.unique seen
          have explained := transformed _ rfl defined checked _ _ _ ran
          have none := explained.accepted_iff.mpr ⟨_, if_neg (Bool.not_eq_true _ ▸ succeeded)⟩
          simp only [checked, none, ite_self]
    rw [silent]
    exact Reply.explained_accepted data
  | rejected errors =>
    unfold failures
    rw [preview_of_always coerced]
    cases safeParse_rejects answered with
    | objected messages unadmitted seen checked some =>
      obtain rfl := coerced.unique seen
      cases messages with
      | nil => contradiction
      | cons first rest =>
        simp only [unadmitted, Bool.false_eq_true, if_false, checked]
        exact Reply.explained_rejected (Report.tells_messages _) (List.cons_ne_nil _ _)
    | failed unadmitted seen checked defined ran failed =>
      obtain rfl := coerced.unique seen
      have explained := transformed _ rfl defined checked _ _ _ ran
      rw [Outcome.reply, if_pos failed] at explained
      simpa only [unadmitted, Bool.false_eq_true, if_false, checked, defined] using explained

theorem safeParse_explained_none (settled : (d.coerced v).Always y) :
    Parser.ExplainedBy (d.safeParse none) v (d.failures (fun _ => []) v) := by
  refine safeParse_explained settled (fun _ => rfl) ?_
  intro t some
  cases some

theorem safeParse_explained_some {t : Transform} (settled : (d.coerced v).Always y)
    (transformed : y.isNullish = false → ∀ σ outcome τ, (t y).Answers σ outcome τ →
      outcome.reply.ExplainedBy (parts y)) :
    Parser.ExplainedBy (d.safeParse (some t)) v (d.failures parts v) := by
  refine safeParse_explained settled ?_ ?_
  · intro none
    cases none
  · intro _ same defined _ σ outcome τ ran
    cases same
    exact transformed defined σ outcome τ ran

/-- A coercion between containers keeps a value keyed. -/
theorem Fits.keyed_of_coerced {family : Family} {coercion : Coercion}
    (fits : d.Fits family (some coercion))
    (structural : coercion = .array ∨ coercion = .set ∨ coercion = .map) (keyed : v.Keyed)
    (settled : (d.coerced v).Always y) : y.Keyed := by
  obtain ⟨τ, answered⟩ := settled {}
  unfold coerced at answered
  rcases fits.coercion with none | own
  · rw [none] at answered
    exact (Run.answers_pure_iff.mp answered).1 ▸ keyed
  · rw [own] at answered
    dsimp only at answered
    split at answered
    · exact (Run.answers_pure_iff.mp answered).1 ▸ keyed
    · rcases structural with rfl | rfl | rfl
      · exact (Run.answers_pure_iff.mp answered).1 ▸ keyed.toArray
      · exact (Run.answers_pure_iff.mp answered).1 ▸ keyed.toSet
      · exact (Run.answers_pure_iff.mp answered).1 ▸ keyed.toMap

/-- Whatever symbol is made of an input, a constraint for symbols accepts it. -/
theorem Fits.violations_of_symbol (fits : d.Fits .symbol (some .symbol))
    (wanted : d.coercion = some .symbol) (defined : v.isNullish = false)
    (answered : (d.coerced v).Answers σ y τ) : d.constraint.violations y = .ok [] := by
  have kind : y.kind = .symbol := by
    simp only [coerced, wanted, defined, Bool.false_eq_true, if_false] at answered
    cases v <;> (cases answered; rfl)
  refine Constraint.violations_of_kind ?_ ?_
  · rw [fits.constraint.expected rfl (by decide), kind]
  · exact fits.constraint.rules_of_unsuited Family.symbol_unsuited

theorem safeParse_explained_of_symbol (fits : d.Fits .symbol (some .symbol))
    (wanted : d.coercion = some .symbol) (defined : v.isNullish = false) :
    Parser.ExplainedBy (d.safeParse none) v (d.failures (fun _ => []) v) := by
  obtain ⟨first, _, made⟩ := coerced_total d v {}
  have silent : d.failures (fun _ => []) v = [] := by
    unfold failures
    rw [preview_of_answers made]
    simp only [fits.violations_of_symbol wanted defined made, ite_self]
  rw [silent]
  intro σ reply τ answered
  cases reply with
  | accepted data => exact Reply.explained_accepted data
  | rejected errors =>
    cases safeParse_rejects answered with
    | objected messages _ seen checked some =>
      have passed := fits.violations_of_symbol wanted defined seen
      exact absurd (Except.ok.inj (checked.symm.trans passed)) some

end Definition

/-- What a value has at a path; undefined if that is no path. -/
def Value.found (v : Value) (path : Text) : Value := (v.lookup path).toOption.getD .undefined

namespace Schema

mutual

/-- The failures of an input, each with its place and message. -/
def failures : Schema → Value → List Failure
  | leaf d _ => d.failures fun _ => []
  | array d _ element => d.failures (Failure.ofList .array (failures element))
  | set d _ element => d.failures (Failure.ofList .set (failures element))
  | map d _ key value => d.failures (Failure.ofMap (failures key) (failures value))
  | object d _ all => d.failures (propertyFailures all)

def propertyFailures : List (Property Schema) → Value → List Failure
  | [], _ => []
  | p :: rest, x =>
    Failure.ofProperty (failures p.node (x.found p.input)) p.input ++ propertyFailures rest x

end

/-- Of an object, no two properties are read at one key. -/
def InputsDistinct : Schema → Prop
  | object _ _ all => (all.map Property.input).Nodup
  | _ => True

variable {s : Schema} {x : Value}

theorem propertyFailures_eq_flatMap (all : List (Property Schema)) (x : Value) :
    propertyFailures all x =
      all.flatMap fun p => Failure.ofProperty (failures p.node (x.found p.input)) p.input := by
  induction all with
  | nil => rfl
  | cons p rest ih => rw [propertyFailures, ih, List.flatMap_cons]

/-- The entries that a keyed value has for a map are of different keys. -/
theorem keyed_entriesOf {all : List (Value × Value)} (keyed : x.Keyed)
    (listed : Transform.entriesOf x = some all) :
    Value.Distinct (all.map Prod.fst) ∧ ∀ e ∈ all, e.1.Keyed ∧ e.2.Keyed := by
  refine ⟨Transform.distinct_entriesOf keyed.once listed, fun e member => ?_⟩
  cases x with
  | map entries =>
    cases listed
    refine ⟨keyed.part ?_, keyed.part ?_⟩
    · exact List.mem_append_left _ (List.mem_map_of_mem member)
    · exact List.mem_append_right _ (List.mem_map_of_mem member)
  | object fields =>
    cases listed
    obtain ⟨field, found, rfl⟩ := List.mem_map.mp member
    exact ⟨Value.keyed_string _, keyed.part (List.mem_map_of_mem found)⟩
  | _ => cases listed

/-- An array or a set of explained elements is explained. -/
theorem explained_list {d : Definition} {family : Family} {coercion : Coercion} {kind : Kind}
    {build : List Value → Value} {element : Parser} {told : Value → List Failure}
    (fits : d.Fits family (some coercion)) (structural : coercion = .array ∨ coercion = .set)
    (keyed : x.Keyed) (elements : ∀ v, v.Keyed → element.ExplainedBy v (told v)) :
    Parser.ExplainedBy (d.safeParse (some (Transform.list kind build element))) x
      (d.failures (Failure.ofList kind told) x) := by
  have container : coercion = .array ∨ coercion = .set ∨ coercion = .map := by
    rcases structural with rfl | rfl
    · exact .inl rfl
    · exact .inr (.inl rfl)
  have fixed : some coercion ≠ some Coercion.symbol := by
    rcases structural with rfl | rfl <;> decide
  obtain ⟨y, settled⟩ := Definition.exists_coerced (fits.fixed fixed)
  have inside := fits.keyed_of_coerced container keyed settled
  refine Definition.safeParse_explained_some settled fun defined σ outcome τ ran => ?_
  refine Transform.list_explained defined (fun items listed v member => ?_) ran
  exact elements v (inside.elements listed v member)

theorem explained_of_fitting (everywhere : Everywhere (fun s => Fitting s ∧ InputsDistinct s) s)
    (keyed : x.Keyed) : s.safeParse.ExplainedBy x (s.failures x) := by
  induction everywhere generalizing x with
  | leaf here =>
    rename_i d o
    obtain ⟨rfl, kind, fits⟩ := here.1
    rw [safeParse, failures]
    by_cases fresh : d.coercion = some .symbol ∧ x.isNullish = false
    · have own : kind = .symbol := by
        rcases fits.coercion with none | own
        · cases none.symm.trans fresh.1
        · have same := own.symm.trans fresh.1
          cases kind <;> first | rfl | cases same
      subst own
      exact Definition.safeParse_explained_of_symbol fits fresh.1 fresh.2
    · have settled : ∃ y, (d.coerced x).Always y := by
        by_cases fixed : d.coercion = some .symbol
        · exact ⟨x, Definition.coerced_nullish (by simpa using fun other => fresh ⟨fixed, other⟩)⟩
        · exact Definition.exists_coerced fixed
      obtain ⟨y, settled⟩ := settled
      exact Definition.safeParse_explained_none settled
  | array here _ ih =>
    obtain ⟨⟨rfl, fits⟩, _⟩ := here
    rw [safeParse, failures]
    exact explained_list fits (.inl rfl) keyed fun v inside => ih inside
  | set here _ ih =>
    obtain ⟨⟨rfl, fits⟩, _⟩ := here
    rw [safeParse, failures]
    exact explained_list fits (.inr rfl) keyed fun v inside => ih inside
  | map here _ _ ihKey ihValue =>
    obtain ⟨⟨rfl, fits⟩, _⟩ := here
    obtain ⟨y, settled⟩ := Definition.exists_coerced (fits.fixed (by decide))
    have inside := fits.keyed_of_coerced (.inr (.inr rfl)) keyed settled
    rw [safeParse, failures]
    refine Definition.safeParse_explained_some settled fun defined σ outcome τ ran => ?_
    refine Transform.map_explained defined (fun all listed => ?_) ran
    obtain ⟨distinct, parts⟩ := keyed_entriesOf inside listed
    exact ⟨distinct, fun e member => ⟨ihKey (parts e member).1, ihValue (parts e member).2⟩⟩
  | object here _ ih =>
    obtain ⟨⟨rfl, fits, _⟩, distinct⟩ := here
    have settled := Definition.coerced_of_none (v := x) (fits.coercion.elim id id)
    rw [safeParse, failures, parsers_eq]
    refine Definition.safeParse_explained_some settled fun defined σ outcome τ ran => ?_
    rw [propertyFailures_eq_flatMap]
    refine Transform.object_explained distinct (fun p member part read => ?_) ran
    rw [Value.found, read]
    exact ih p member (keyed.lookup read)

/-- The report of a rejected input is what fails in it, in some order, and not empty. Of an accepted
input nothing fails. -/
theorem safeParse_reports_failures (made : s.Made) (distinct : Everywhere InputsDistinct s)
    (keyed : x.Keyed) :
    (∀ σ errors τ, (s.safeParse x).Answers σ (.rejected errors) τ →
      (Report.entries errors).Perm ((s.failures x).map Failure.entry) ∧
        Report.entries errors ≠ []) ∧
      ∀ σ data τ, (s.safeParse x).Answers σ (.accepted data) τ → s.failures x = [] := by
  have explained := explained_of_fitting (made.fitting.and distinct) keyed
  constructor
  · intro σ errors τ rejected
    have told := explained σ _ τ rejected
    have same := told.tells.entries
    refine ⟨same, fun none => told.ne_nil ?_⟩
    rw [Reply.problem, none] at same
    exact List.map_eq_nil_iff.mp same.nil_eq.symm
  · intro σ data τ accepted
    exact (explained σ _ τ accepted).accepted_iff.mpr ⟨data, rfl⟩

/-- Rows of numbers under names. -/
def ledgerRows : Schema :=
  mapOf (ofLeaf .string (.ofKind .string) ⟨false, none⟩)
    (arrayOf (ofLeaf .number (.ofKind .number) ⟨false, none⟩) (.ofKind .array) ⟨false, none⟩)
    (.ofKind .map) ⟨false, none⟩

theorem ledgerRows_made : ledgerRows.Made := by
  have name : Made (ofLeaf .string (.ofKind .string) ⟨false, none⟩) := .leaf .string _ (.ofKind rfl)
  have number : Made (ofLeaf .number (.ofKind .number) ⟨false, none⟩) :=
    .leaf .number _ (.ofKind rfl)
  exact .map _ name (.array _ number (.ofKind rfl)) (.ofKind rfl)

/-- Rows that come from further inside. -/
def ledger : Schema :=
  object ⟨.ofKind .object, none, none⟩ none
    [⟨Text.ofString "rows", Text.ofString "data.rows", ledgerRows⟩]

theorem ledger_made : ledger.Made := by
  have remapped : objectOf [(Text.ofString "rows", ledgerRows)]
      [(Text.ofString "rows", Text.ofString "data.rows")] (.ofKind .object) none = .ok ledger := by
    cbv
  exact .object none (List.forall_mem_singleton.mpr ledgerRows_made) (.ofKind rfl) remapped

theorem ledger_inputsDistinct : Everywhere InputsDistinct ledger := by
  have rows : Everywhere InputsDistinct ledgerRows :=
    .map trivial (.leaf trivial) (.array trivial (.leaf trivial))
  exact .object (List.nodup_singleton _) (List.forall_mem_singleton.mpr rows)

/-- One row has a text among its numbers, the other a number for a name. -/
def ledgerInput : Value :=
  .object [(Text.ofString "data", .object [(Text.ofString "rows",
    .map [(.string (Text.ofString "a"), .array [.int 1, .string (Text.ofString "x")]),
      (.int 2, .array [])])])]

theorem ledgerInput_keyed : ledgerInput.Keyed := by
  have number (n : Int64) : (Value.int n).Keyed := Value.keyed_of_alone trivial rfl
  have under {key : Text} {v : Value} (keyed : v.Keyed) : (Value.ofFields [(key, v)]).Keyed :=
    Value.keyed_ofFields (List.forall_mem_singleton.mpr keyed)
  refine under (under (.intro ?_ ?_))
  · simp [Value.KeysOnce, Value.Distinct, Value.eq]
  · simp only [Value.parts, List.map_cons, List.map_nil, List.cons_append, List.nil_append,
      List.forall_mem_cons, List.not_mem_nil, false_imp_iff, implies_true, and_true]
    refine ⟨Value.keyed_string _, number 2, Value.keyed_array_iff.mpr ?_,
      Value.keyed_of_alone trivial rfl⟩
    simp only [List.forall_mem_cons, List.not_mem_nil, false_imp_iff, implies_true, and_true]
    exact ⟨number 1, Value.keyed_string _⟩

def ledgerErrors : Value :=
  .object [(Text.ofString "root$.data.rows",
    .map [(.string (Text.ofString "a"), .array [.undefined, .object [(Text.ofString "*.1",
        .array [.string (Text.ofString "Value must be of type number, string given")])]]),
      (.int 2, .array [.array [.string (Text.ofString "Value must be of type string, number given")],
        .undefined])])]

theorem ledger_rejects : (ledger.safeParse ledgerInput).Answers {} (.rejected ledgerErrors) {} := by
  unfold Run.Answers
  cbv

theorem ledger_failures : (ledger.failures ledgerInput).map Failure.entry =
    [⟨Text.ofString "root$/data/rows/a/value/*/1",
        Text.ofString "Value must be of type number, string given"⟩,
      ⟨Text.ofString "root$/data/rows/2/key",
        Text.ofString "Value must be of type string, number given"⟩] := by
  cbv

theorem safeParse_reports_failures_ledger :
    ledger.Made ∧ Everywhere InputsDistinct ledger ∧ ledgerInput.Keyed ∧
      (ledger.safeParse ledgerInput).Answers {} (.rejected ledgerErrors) {} ∧
        (Report.entries ledgerErrors).Perm
          [⟨Text.ofString "root$/data/rows/a/value/*/1",
              Text.ofString "Value must be of type number, string given"⟩,
            ⟨Text.ofString "root$/data/rows/2/key",
              Text.ofString "Value must be of type string, number given"⟩] ∧
          Report.entries ledgerErrors ≠ [] := by
  have reported := (safeParse_reports_failures ledger_made ledger_inputsDistinct
    ledgerInput_keyed).1 {} ledgerErrors {} ledger_rejects
  rw [ledger_failures] at reported
  exact ⟨ledger_made, ledger_inputsDistinct, ledgerInput_keyed, ledger_rejects, reported⟩

end Schema
end Schemata
