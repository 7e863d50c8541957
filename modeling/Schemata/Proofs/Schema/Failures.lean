import Schemata.Proofs.Report
import Schemata.Proofs.Schema.Replies
import Schemata.Proofs.Value.Distinct

/-! The failures of the parts of a container. A reply is explained by a list of failures if it is
accepted exactly when the list is empty, and tells of these failures if it is not. Where the replies of
the parts are explained, so is the reply that a transform makes of them. -/
namespace Schemata

/-- The errors of a reply; undefined if there are none. -/
def Reply.problem : Reply → Value
  | .accepted _ => .undefined
  | .rejected errors => errors

structure Reply.ExplainedBy (reply : Reply) (told : List Failure) : Prop where
  tells : Report.Tells reply.problem told
  accepted_iff : told = [] ↔ ∃ data, reply = .accepted data

/-- What a schema replies when its transform ended so. -/
def Outcome.reply (outcome : Outcome) : Reply :=
  if outcome.failed then .rejected outcome.errors else .accepted outcome.data

/-- Whatever the session, the reply of the parser is explained by these failures. -/
def Parser.ExplainedBy (p : Parser) (v : Value) (told : List Failure) : Prop :=
  ∀ σ reply τ, (p v).Answers σ reply τ → reply.ExplainedBy told

theorem Reply.explained_accepted (data : Value) : (Reply.accepted data).ExplainedBy [] :=
  ⟨Report.tells_undefined, fun _ => ⟨data, rfl⟩, fun _ => rfl⟩

theorem Reply.explained_rejected {errors : Value} {told : List Failure}
    (tells : Report.Tells errors told) (some : told ≠ []) :
    (Reply.rejected errors).ExplainedBy told :=
  ⟨tells, fun none => absurd none some, nofun⟩

/-- Once all parts have replied, a container is explained by what its errors tell of. -/
theorem Outcome.explained_settled {silent : Bool} {errors : Value} {told : List Failure}
    (tells : Report.Tells errors told) (defined : errors.isUndefined = false)
    (empty : told = [] ↔ silent = true) (data : Value) :
    (Outcome.settled silent data errors).reply.ExplainedBy told := by
  cases silent with
  | true =>
    rw [empty.mpr rfl]
    exact Reply.explained_accepted data
  | false =>
    have kept : (Outcome.settled false data errors).reply = .rejected errors := by
      simp [settled, failure, of, reply, defined]
    rw [kept]
    exact Reply.explained_rejected tells fun none => Bool.false_ne_true (empty.mp none)

theorem Reply.ExplainedBy.ne_nil {errors : Value} {told : List Failure}
    (explained : (Reply.rejected errors).ExplainedBy told) : told ≠ [] := by
  intro none
  obtain ⟨_, accepted⟩ := explained.accepted_iff.mp none
  cases accepted

namespace Failure

/-- The failure of an input that is no container of the expected kind. -/
def unsupported (expected : Kind) (input : Value) : Failure :=
  ⟨[], Text.ofString "Value must be of type " ++ expected.name ++ Text.ofString ", " ++
    input.kind.name ++ Text.ofString " given"⟩

/-- Those of each element, under its index. -/
def ofElements (told : Value → List Failure) (items : List Value) (first : Nat) : List Failure :=
  (items.zipIdx first).flatMap fun (v, i) =>
    (told v).map (under [Text.ofString "*/" ++ Text.ofNat i])

/-- Those of each entry, under its key as it was given. -/
def ofEntries (ofKey ofValue : Value → List Failure) (entries : List (Value × Value)) :
    List Failure :=
  entries.flatMap fun (k, v) =>
    (ofKey k).map (under [k.text, Text.ofString "key"]) ++
      (ofValue v).map (under [k.text, Text.ofString "value"])

/-- Those of an array or a set of elements. -/
def ofList (kind : Kind) (told : Value → List Failure) : Value → List Failure
  | .array items | .set items => ofElements told items 0
  | input => [unsupported kind input]

/-- Those of a map, or of an object by its keys. -/
def ofMap (ofKey ofValue : Value → List Failure) (input : Value) : List Failure :=
  match Transform.entriesOf input with
  | some entries => ofEntries ofKey ofValue entries
  | none => [unsupported .map input]

/-- Those of a property, under the root and its input key, the dots of which become slashes. -/
def ofProperty (told : List Failure) (input : Text) : List Failure :=
  told.map (under [Text.ofString "root$/" ++ Report.segment input])

end Failure

namespace Transform

variable {element key value : Parser} {told ofKey ofValue : Value → List Failure}
  {items results : List Value} {index : Nat} {errors : Fields Value} {input : Value}
  {outcome : Outcome} {kind : Kind} {build : List Value → Value} {σ τ : Session}

theorem segment_elementKey (index : Nat) :
    Report.segment (elementKey index) = Text.ofString "*/" ++ Text.ofNat index := by
  rw [elementKey, Report.segment_append, Report.segment_ofNat]
  rfl

theorem segment_propertyKey (input : Text) : Report.segment (defaultRoot ++ 46 :: input) =
    Text.ofString "root$/" ++ Report.segment input := by
  rw [Report.segment_append]
  rfl

theorem elementKey_injective {i j : Nat} (same : elementKey i = elementKey j) : i = j := by
  have digits := congrArg Text.toNat (List.append_cancel_left same)
  rwa [Text.toNat_ofNat, Text.toNat_ofNat] at digits

theorem explained_unsupported (kind : Kind) (input : Value) :
    (unsupported kind input).reply.ExplainedBy [Failure.unsupported kind input] :=
  Reply.explained_rejected (Report.tells_messages [_]) (List.cons_ne_nil _ _)

/-- The errors of elements are kept under their indices, each of which is met once. -/
theorem elements_explained (parts : ∀ v ∈ items, element.ExplainedBy v (told v))
    (answered : (elements element index items).Answers σ (results, errors) τ) :
    Report.Tells (.object errors) (Failure.ofElements told items index) ∧
      (Failure.ofElements told items index = [] ↔ errors = []) ∧
        ∀ k ∈ Fields.keys errors, ∃ i, index ≤ i ∧ k = elementKey i := by
  induction items generalizing index results errors σ τ with
  | nil =>
    obtain ⟨same, _⟩ := Run.answers_pure_iff.mp answered
    cases same
    exact ⟨fun _ => List.Perm.refl _, ⟨fun _ => rfl, fun _ => rfl⟩, nofun⟩
  | cons v vs ih =>
    obtain ⟨first, parts⟩ := List.forall_mem_cons.mp parts
    simp only [elements, Run.answers_bind_iff] at answered
    obtain ⟨reply, ρ, replied, ⟨others, failed⟩, ρ', rest, answered⟩ := answered
    have explained := first σ reply ρ replied
    obtain ⟨tells, empty, keys⟩ := ih parts rest
    have split : Failure.ofElements told (v :: vs) index =
        (told v).map (.under [Report.segment (elementKey index)]) ++
          Failure.ofElements told vs (index + 1) := by
      rw [segment_elementKey]
      rfl
    rw [split]
    cases reply with
    | accepted data =>
      obtain ⟨same, _⟩ := Run.answers_pure_iff.mp answered
      cases same
      rw [explained.accepted_iff.mpr ⟨data, rfl⟩]
      refine ⟨tells, empty, fun k listed => ?_⟩
      obtain ⟨i, later, rfl⟩ := keys k listed
      exact ⟨i, Nat.le_of_succ_le later, rfl⟩
    | rejected problem =>
      obtain ⟨same, _⟩ := Run.answers_pure_iff.mp answered
      cases same
      have fresh : elementKey index ∉ Fields.keys failed := by
        intro listed
        obtain ⟨i, later, same⟩ := keys _ listed
        have := elementKey_injective same
        omega
      refine ⟨explained.tells.insert tells fresh, ?_, fun k listed => ?_⟩
      · simp [explained.ne_nil]
      · rcases Fields.mem_keys_of_mem_insert listed with rfl | old
        · exact ⟨index, le_refl _, rfl⟩
        · obtain ⟨i, later, rfl⟩ := keys k old
          exact ⟨i, Nat.le_of_succ_le later, rfl⟩

theorem list_explained (defined : input.isNullish = false)
    (parts : ∀ items, input.elements = .ok items → ∀ v ∈ items, element.ExplainedBy v (told v))
    (answered : (list kind build element input).Answers σ outcome τ) :
    outcome.reply.ExplainedBy (Failure.ofList kind told input) := by
  unfold list at answered
  cases input with
  | undefined | null => cases defined
  | array items | set items =>
    simp only [Run.answers_bind_iff] at answered
    obtain ⟨⟨results, errors⟩, ρ, parsed, answered⟩ := answered
    obtain ⟨tells, empty, _⟩ := elements_explained (parts items rfl) parsed
    obtain rfl := (always_settled _ _ _ _).unique answered
    exact Outcome.explained_settled tells rfl (empty.trans List.isEmpty_iff.symm) _
  | _ =>
    obtain ⟨rfl, _⟩ := Run.answers_pure_iff.mp answered
    exact explained_unsupported kind _

/-- The errors of entries are kept under the keys that failed, in order. -/
theorem entries_explained {all parsed failed : List (Value × Value)}
    (keys : ∀ e ∈ all, key.ExplainedBy e.1 (ofKey e.1))
    (values : ∀ e ∈ all, value.ExplainedBy e.2 (ofValue e.2))
    (answered : (entries key value all).Answers σ (parsed, failed) τ) :
    Report.Tells (.map failed) (Failure.ofEntries ofKey ofValue all) ∧
      (Failure.ofEntries ofKey ofValue all = [] ↔ failed = []) ∧
        (failed.map Prod.fst).Sublist (all.map Prod.fst) := by
  induction all generalizing parsed failed σ τ with
  | nil =>
    obtain ⟨same, _⟩ := Run.answers_pure_iff.mp answered
    cases same
    exact ⟨fun _ => List.Perm.refl _, ⟨fun _ => rfl, fun _ => rfl⟩, .slnil⟩
  | cons e rest ih =>
    obtain ⟨k, v⟩ := e
    obtain ⟨firstKey, keys⟩ := List.forall_mem_cons.mp keys
    obtain ⟨firstValue, values⟩ := List.forall_mem_cons.mp values
    simp only [entries, Run.answers_bind_iff] at answered
    obtain ⟨inKey, _, replied, inValue, _, answer, ⟨others, errors⟩, _, remaining,
      answered⟩ := answered
    have explainedKey := firstKey _ _ _ replied
    have explainedValue := firstValue _ _ _ answer
    obtain ⟨tells, empty, sublist⟩ := ih keys values remaining
    have failing (some : ofKey k ≠ [] ∨ ofValue v ≠ [])
        (same : failed = (k, .array [inKey.problem, inValue.problem]) :: errors) :
        Report.Tells (.map failed) (Failure.ofEntries ofKey ofValue ((k, v) :: rest)) ∧
          (Failure.ofEntries ofKey ofValue ((k, v) :: rest) = [] ↔ failed = []) ∧
            (failed.map Prod.fst).Sublist (((k, v) :: rest).map Prod.fst) := by
      subst same
      refine ⟨explainedKey.tells.entry explainedValue.tells tells, ⟨fun none => ?_, nofun⟩,
        sublist.cons_cons k⟩
      simp only [Failure.ofEntries, List.flatMap_cons, List.append_eq_nil_iff,
        List.map_eq_nil_iff] at none
      rcases some with inKey | inValue
      · exact absurd none.1.1 inKey
      · exact absurd none.1.2 inValue
    cases inKey with
    | rejected inKey =>
      have some := explainedKey.ne_nil
      cases inValue <;>
        exact failing (.inl some) (congrArg Prod.snd (Run.answers_pure_iff.mp answered).1).symm
    | accepted k' =>
      cases inValue with
      | rejected inValue =>
        have some := explainedValue.ne_nil
        exact failing (.inr some) (congrArg Prod.snd (Run.answers_pure_iff.mp answered).1).symm
      | accepted v' =>
        obtain ⟨same, _⟩ := Run.answers_pure_iff.mp answered
        cases same
        have silentKey : ofKey k = [] := explainedKey.accepted_iff.mpr ⟨k', rfl⟩
        have silentValue : ofValue v = [] := explainedValue.accepted_iff.mpr ⟨v', rfl⟩
        have split : Failure.ofEntries ofKey ofValue ((k, v) :: rest) =
            Failure.ofEntries ofKey ofValue rest := by
          simp [Failure.ofEntries, silentKey, silentValue]
        rw [split]
        exact ⟨tells, empty, sublist.cons k⟩

/-- Keys that differ keep their errors apart. -/
theorem map_explained (defined : input.isNullish = false)
    (parts : ∀ all, entriesOf input = some all → Value.Distinct (all.map Prod.fst) ∧
      ∀ e ∈ all, key.ExplainedBy e.1 (ofKey e.1) ∧ value.ExplainedBy e.2 (ofValue e.2))
    (answered : (map key value input).Answers σ outcome τ) :
    outcome.reply.ExplainedBy (Failure.ofMap ofKey ofValue input) := by
  unfold map at answered
  cases input with
  | undefined | null => cases defined
  | map all | object fields =>
    simp only [Run.answers_bind_iff] at answered
    obtain ⟨⟨parsed, failed⟩, ρ, found, answered⟩ := answered
    obtain ⟨distinct, explained⟩ := parts _ rfl
    obtain ⟨tells, empty, sublist⟩ := entries_explained (fun e member => (explained e member).1)
      (fun e member => (explained e member).2) found
    obtain rfl := (always_settled _ _ _ _).unique answered
    rw [Value.ofEntries_of_distinct (distinct.sublist sublist)]
    exact Outcome.explained_settled tells rfl (empty.trans List.isEmpty_iff.symm) _
  | _ =>
    obtain ⟨rfl, _⟩ := Run.answers_pure_iff.mp answered
    exact explained_unsupported .map _

section Object

variable {all : List (Property α)} {given : List Reply} {told : Property α → List Failure}

theorem propertyKey_injective {input other : Text}
    (same : defaultRoot ++ 46 :: input = defaultRoot ++ 46 :: other) : input = other :=
  (List.cons.inj (List.append_cancel_left same)).2

/-- The errors of properties are kept under their input keys, on top of earlier ones. -/
theorem complaints_explained {before : List Failure}
    (parts : List.Forall₂ (fun p reply => reply.ExplainedBy (told p)) all given)
    (distinct : (all.map Property.input).Nodup)
    (fresh : ∀ p ∈ all, defaultRoot ++ 46 :: p.input ∉ Fields.keys errors)
    (tells : Report.Tells (.object errors) before) :
    Report.Tells (.object (complaints defaultRoot all given errors))
        (before ++ all.flatMap fun p => Failure.ofProperty (told p) p.input) ∧
      (complaints defaultRoot all given errors = [] ↔
        errors = [] ∧ all.flatMap (fun p => Failure.ofProperty (told p) p.input) = []) := by
  induction parts generalizing errors before with
  | nil => simpa [complaints] using tells
  | @cons p reply rest given explained _ ih =>
    obtain ⟨once, distinct⟩ := List.nodup_cons.mp distinct
    obtain ⟨absent, fresh⟩ := List.forall_mem_cons.mp fresh
    rw [List.flatMap_cons]
    cases reply with
    | accepted data =>
      have silent : Failure.ofProperty (told p) p.input = [] := by
        rw [explained.accepted_iff.mpr ⟨data, rfl⟩]
        rfl
      rw [silent]
      exact ih distinct fresh tells
    | rejected problem =>
      have later : ∀ q ∈ rest, defaultRoot ++ 46 :: q.input ∉
          Fields.keys (Fields.insert (defaultRoot ++ 46 :: p.input) problem errors) := by
        intro q member listed
        rcases Fields.mem_keys_of_mem_insert listed with same | old
        · exact once (propertyKey_injective same ▸ List.mem_map_of_mem member)
        · exact fresh q member old
      have added := (explained.tells.insert tells absent).perm List.perm_append_comm
      rw [segment_propertyKey] at added
      obtain ⟨tells, empty⟩ := ih distinct later added
      refine ⟨List.append_assoc .. ▸ tells, fun none => ?_, fun none => ?_⟩
      · exact absurd (empty.mp none).1 Fields.insert_ne_nil
      · have silent := (List.append_eq_nil_iff.mp none.2).1
        exact absurd (List.map_eq_nil_iff.mp silent) explained.ne_nil

/-- Input keys that differ keep their errors apart, whatever the outputs do. -/
theorem object_explained {parse : α → Parser} (distinct : (all.map Property.input).Nodup)
    (parts : ∀ p ∈ all, ∀ part, input.lookup p.input = .ok part →
      (parse p.node).ExplainedBy part (told p))
    (answered : (object (all.map fun p => ⟨p.output, p.input, parse p.node⟩) defaultRoot
      input).Answers σ outcome τ) :
    outcome.reply.ExplainedBy (all.flatMap fun p => Failure.ofProperty (told p) p.input) := by
  simp only [object, Run.answers_bind_iff] at answered
  obtain ⟨⟨data, errors⟩, ρ, found, answered⟩ := answered
  obtain ⟨given, replied, _, kept⟩ := properties_answers_iff.mp found
  obtain rfl : errors = complaints defaultRoot all given [] :=
    kept.trans (complaints_map fun _ => rfl)
  have listed := (List.forall₂_and_left all given).mpr
    ⟨fun p member => member, List.forall₂_map_left_iff.mp (replies_answers replied)⟩
  have explained : List.Forall₂ (fun p reply => reply.ExplainedBy (told p)) all given := by
    refine listed.imp fun p reply => ?_
    rintro ⟨member, part, read, _, _, answer⟩
    exact parts p member part read _ _ _ answer
  obtain ⟨tells, empty⟩ :=
    complaints_explained explained distinct (fun _ _ => List.not_mem_nil) Report.tells_emptyObject
  rw [List.nil_append] at tells
  obtain rfl := (always_settled _ _ _ _).unique answered
  refine Outcome.explained_settled tells rfl ?_ data
  rw [List.isEmpty_iff, empty]
  simp

end Object

end Transform
end Schemata
