import Mathlib
import Schemata.Proofs.Schema.Failures
import Schemata.Proofs.Value.Retained

/-! Arrays and sets are parsed exactly. All elements are parsed one after the other, whatever the
earlier ones replied; the replies alone decide about the outcome, which is the same for an array and
a set but for the repetitions that a set drops. -/
namespace Schemata

namespace Transform

variable {kind : Kind} {build : List Value → Value} {element : Parser} {items : List Value}
  {index : Nat} {given : List Reply} {input : Value} {key : Text} {problem : Value}
  {σ ρ : Session} {fault : Fault}

/-- The data of the replies that accepted, in order. -/
def accepted : List Reply → List Value
  | [] => []
  | .accepted data :: given => data :: accepted given
  | .rejected _ :: given => accepted given

/-- The errors of the replies that rejected, under the indices from `index` on. -/
def elementErrors : Nat → List Reply → Fields Value
  | _, [] => []
  | index, .accepted _ :: given => elementErrors (index + 1) given
  | index, .rejected problem :: given =>
    Fields.insert (elementKey index) problem (elementErrors (index + 1) given)

theorem elements_eq_mapM : elements element index items = (do
    let given ← items.mapM element
    return (accepted given, elementErrors index given)) := by
  induction items generalizing index with
  | nil => rfl
  | cons v vs ih =>
    rw [elements, List.mapM_cons]
    simp only [ih, bind_assoc, pure_bind]
    congr 1
    funext reply
    congr 1
    funext given
    cases reply <;> rfl

theorem list_eq_mapM (listed : input.elements = .ok items) : list kind build element input = (do
    let given ← items.mapM element
    if (elementErrors 0 given).isEmpty then return .success (build (accepted given))
    else
      Run.trace (failures kind.name (elementErrors 0 given).length "items")
      return .failure (.object (elementErrors 0 given))) := by
  cases input with
  | array | set =>
    cases listed
    rw [list]
    simp only [elements_eq_mapM, bind_assoc, pure_bind]
  | _ => cases listed

theorem accepted_of_silent (silent : ∀ problem, .rejected problem ∉ given) :
    given = (accepted given).map .accepted := by
  induction given with
  | nil => rfl
  | cons reply given ih =>
    have later := ih fun problem member => silent problem (List.mem_cons_of_mem reply member)
    cases reply with
    | accepted data => rw [accepted, List.map_cons, ← later]
    | rejected problem => exact absurd List.mem_cons_self (silent problem)

/-- Each index that was rejected has its errors under a key of its own. -/
theorem find?_elementErrors : Fields.find? key (elementErrors index given) = some problem ↔
    ∃ i, given[i]? = some (.rejected problem) ∧ key = elementKey (index + i) := by
  induction given generalizing index with
  | nil => simp [elementErrors, Fields.find?]
  | cons reply given ih =>
    have shift (i : Nat) : index + 1 + i = index + (i + 1) := by omega
    have later : Fields.find? key (elementErrors (index + 1) given) = some problem ↔
        ∃ i, given[i]? = some (.rejected problem) ∧ key = elementKey (index + (i + 1)) := by
      simp only [ih, shift]
    simp only [← Nat.or_exists_add_one, List.getElem?_cons_zero, List.getElem?_cons_succ,
      Option.some.injEq, Nat.add_zero, ← later]
    cases reply with
    | accepted data => simp [elementErrors]
    | rejected other =>
      rw [elementErrors]
      by_cases own : key = elementKey index
      · have absent : Fields.find? key (elementErrors (index + 1) given) ≠ some problem := by
          intro found
          obtain ⟨i, _, same⟩ := later.mp found
          have := elementKey_injective (own.symm.trans same)
          omega
        subst own
        simp [absent]
      · rw [Fields.find?_insert_of_ne own]
        simp [own]

theorem ascending_elementErrors (index : Nat) (given : List Reply) :
    Fields.Ascending (elementErrors index given) := by
  induction given generalizing index with
  | nil => exact .nil
  | cons reply given ih =>
    cases reply with
    | accepted data => exact ih (index + 1)
    | rejected problem => exact (ih (index + 1)).insert

theorem elementErrors_eq_nil_iff :
    elementErrors index given = [] ↔ ∀ problem, .rejected problem ∉ given := by
  induction given generalizing index with
  | nil => simp [elementErrors]
  | cons reply given ih =>
    cases reply with
    | accepted data => simp [elementErrors, ih]
    | rejected problem =>
      refine iff_of_false Fields.insert_ne_nil fun silent => ?_
      exact silent problem List.mem_cons_self

/-- What an array or a set makes of the replies of its elements. -/
def listOutcome (build : List Value → Value) (given : List Reply) : Outcome :=
  .settled (elementErrors 0 given).isEmpty (build (accepted given)) (.object (elementErrors 0 given))

theorem list_answers_of_mapM (kind : Kind) (build : List Value → Value)
    (listed : input.elements = .ok items)
    (replied : (items.mapM element).Answers σ given ρ) :
    ∃ τ, (list kind build element input).Answers σ (listOutcome build given) τ := by
  obtain ⟨τ, settled⟩ := always_settled (elementErrors 0 given).isEmpty (build (accepted given))
    (.object (elementErrors 0 given)) (failures kind.name (elementErrors 0 given).length "items") ρ
  rw [list_eq_mapM listed]
  exact ⟨τ, Run.answers_bind_iff.mpr ⟨given, ρ, replied, settled⟩⟩

theorem list_faults_of_mapM (listed : input.elements = .ok items)
    (refused : (items.mapM element).Faults σ fault) :
    (list kind build element input).Faults σ fault := by
  rw [list_eq_mapM listed]
  exact Run.faults_bind_iff.mpr (.inl refused)

theorem failed_listOutcome_iff : (listOutcome build given).failed = true ↔
    ∃ problem, .rejected problem ∈ given := by
  rw [listOutcome, Outcome.failed_settled_iff, List.isEmpty_eq_false_iff, ne_eq,
    elementErrors_eq_nil_iff, not_forall_not]

/-- Objects of errors that hold, for each index that was rejected and no other, its errors under its
own key. -/
def ErrorsByIndex (given : List Reply) (errors : Value) : Prop :=
  ∃ fields, errors = .object fields ∧ Fields.Ascending fields ∧ ∀ key problem,
    Fields.find? key fields = some problem ↔
      ∃ i, given[i]? = some (.rejected problem) ∧ key = elementKey i

theorem errors_listOutcome (failed : (listOutcome build given).failed = true) :
    ErrorsByIndex given (listOutcome build given).errors := by
  refine ⟨elementErrors 0 given, ?_, ascending_elementErrors 0 given, ?_⟩
  · rw [listOutcome, Outcome.settled_of_failed failed]
    rfl
  · intro key problem
    simp only [find?_elementErrors, Nat.zero_add]

theorem silent_of_listOutcome (succeeded : (listOutcome build given).failed = false) :
    ∀ problem, .rejected problem ∉ given := by
  intro problem member
  rw [failed_listOutcome_iff.mpr ⟨problem, member⟩] at succeeded
  cases succeeded

theorem data_listOutcome (silent : ∀ problem, .rejected problem ∉ given) :
    (listOutcome build given).data = build (accepted given) := by
  rw [listOutcome, elementErrors_eq_nil_iff.mpr silent]
  rfl

/-- An array and a set are parsed exactly and alike. In any session, either an element is at fault
itself, and then so are both; or all elements reply, one after the other, and both fail if and only
if one of them is rejected, with the same errors: those of each rejected element under its index. If
none is, the data are the array of the results, in order, and the set of them, which keeps the first
of those that are equal. -/
theorem array_set_exact (element : Parser) (listed : input.elements = .ok items) (σ : Session) :
    (∃ fault, (∃ v ∈ items, ∃ ρ, (element v).Faults ρ fault) ∧
      (array element input).Faults σ fault ∧ (set element input).Faults σ fault) ∨
    ∃ given ρ ofArray τ ofSet τ', (items.mapM element).Answers σ given ρ ∧
      (array element input).Answers σ ofArray τ ∧ (set element input).Answers σ ofSet τ' ∧
        (ofArray.failed = true ↔ ∃ problem, .rejected problem ∈ given) ∧
        (ofArray.failed = true → ErrorsByIndex given ofArray.errors) ∧
        (ofArray.failed = false → ∃ results kept, given = results.map .accepted ∧
          ofArray.data = .array results ∧ ofSet.data = Value.ofItems results ∧
            Value.ofItems results = .set kept ∧ Value.FirstsOf results kept) ∧
          ofSet.failed = ofArray.failed ∧ ofSet.errors = ofArray.errors := by
  rcases Run.faults_or_answers (items.mapM element) σ with ⟨fault, refused⟩ | ⟨given, ρ, replied⟩
  · refine .inl ⟨fault, Run.exists_faults_of_mapM refused, ?_, ?_⟩
    · exact list_faults_of_mapM listed refused
    · exact list_faults_of_mapM listed refused
  · obtain ⟨τ, ofArray⟩ := list_answers_of_mapM .array Value.array listed replied
    obtain ⟨τ', ofSet⟩ := list_answers_of_mapM .set Value.ofItems listed replied
    refine .inr ⟨given, ρ, _, τ, _, τ', replied, ofArray, ofSet, failed_listOutcome_iff,
      errors_listOutcome, ?_, ?_, ?_⟩
    · intro succeeded
      have silent := silent_of_listOutcome succeeded
      exact ⟨accepted given, _, accepted_of_silent silent, data_listOutcome silent,
        data_listOutcome silent, rfl, Value.firstsOf_foldl _⟩
    · rw [listOutcome, listOutcome, Outcome.failed_settled, Outcome.failed_settled]
    · exact Outcome.errors_settled ..

/-- Everything is spelled as a text. -/
def spelled : Parser := (Schema.ofLeaf .string (.ofKind .string) ⟨true, none⟩).safeParse

/-- A number and a text that are spelled alike. -/
def alikeInput : Value := .set [.int 1, .string (Text.ofString "1"), .bool true]

theorem array_set_exact_alike :
    alikeInput.elements = .ok [.int 1, .string (Text.ofString "1"), .bool true] ∧
      (array spelled alikeInput).Answers {} (.success (.array [.string (Text.ofString "1"),
        .string (Text.ofString "1"), .string (Text.ofString "true")])) {} ∧
      ∃ outcome τ, (set spelled alikeInput).Answers {} outcome τ ∧ outcome.failed = false ∧
        outcome.data = .set [.string (Text.ofString "1"), .string (Text.ofString "true")] := by
  have listed : alikeInput.elements = .ok [.int 1, .string (Text.ofString "1"), .bool true] := rfl
  have parsed : (array spelled alikeInput).Answers {} (.success (.array [.string (Text.ofString "1"),
      .string (Text.ofString "1"), .string (Text.ofString "true")])) {} := by
    unfold Run.Answers
    cbv
  have kept : Value.ofItems [.string (Text.ofString "1"), .string (Text.ofString "1"),
      .string (Text.ofString "true")] =
        .set [.string (Text.ofString "1"), .string (Text.ofString "true")] := by
    cbv
  refine ⟨listed, parsed, ?_⟩
  rcases array_set_exact spelled listed {} with ⟨fault, _, refused, _⟩ |
    ⟨given, _, ofArray, _, ofSet, τ, _, answered, ofSet_answered, _, _, data, failed, _⟩
  · exact absurd refused parsed.not_faults
  · obtain ⟨rfl, _⟩ := answered.unique parsed
    obtain ⟨results, _, _, same, set, _⟩ := data rfl
    obtain rfl := Value.array.inj same
    exact ⟨ofSet, τ, ofSet_answered, failed, set.trans kept⟩

end Transform

end Schemata
