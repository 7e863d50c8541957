import Schemata.Proofs.Constraint.Families
import Schemata.Proofs.Lists

/-! The registry of rules that a constraint keeps. Registrations leave, under each name, the rule that
was registered last, at the place where the name first came up. The rules are asked in that order, and
all of them are heard unless one of them faults. -/
namespace Schemata

namespace Rule

variable {r : Rule} {v : Value}

/-- The message against a value that the rule turns down. -/
def complaint? (r : Rule) (v : Value) : Option Text :=
  match r.check.accepts v with
  | .ok false => some (if r.message.isEmpty then r.check.message v else r.message)
  | _ => none

/-- The rule accepts the value or turns it down, and does not fault. -/
def Answers (r : Rule) (v : Value) : Prop := ∃ accepted, r.check.accepts v = .ok accepted

theorem violation?_of_answers (answers : r.Answers v) : r.violation? v = .ok (r.complaint? v) := by
  obtain ⟨accepted, checked⟩ := answers
  simp only [violation?, complaint?, checked]
  cases accepted <;> rfl

theorem answers_of_violation? {message : Option Text} (said : r.violation? v = .ok message) :
    r.Answers v := by
  obtain ⟨accepted, checked, _⟩ := bind_eq_ok_iff.mp said
  exact ⟨accepted, checked⟩

end Rule

namespace Constraint

/-- The rules in force after registrations: under every name the one registered last, in the order in
which the names first came up. -/
def inForce (registered : List Rule) : List Rule :=
  (registered.map Rule.name).eraseDups.filterMap fun name =>
    registered.reverse.find? fun r => r.name = name

/-- The messages of the rules in front of the first one that faults. -/
def messagesUpToFault (v : Value) : List Rule → List Text
  | [] => []
  | r :: rules =>
    match r.violation? v with
    | .ok message => message.toList ++ messagesUpToFault v rules
    | .error _ => []

section Registering

variable {rule : Rule} {rules registered : List Rule} {name : Text}

theorem setRule_of_new (new : rule.name ∉ rules.map Rule.name) :
    setRule rule rules = rules ++ [rule] := by
  induction rules with
  | nil => rfl
  | cons r rest ih =>
    rw [List.map_cons, List.mem_cons, not_or] at new
    rw [setRule, if_neg (Ne.symm new.1), ih new.2, List.cons_append]

/-- A rule takes the place of the one of its name. -/
theorem setRule_of_known (known : rule.name ∈ rules.map Rule.name)
    (once : (rules.map Rule.name).Nodup) :
    setRule rule rules = rules.map fun r => if r.name = rule.name then rule else r := by
  induction rules with
  | nil => cases known
  | cons r rest ih =>
    obtain ⟨alone, once⟩ := List.nodup_cons.mp once
    rw [setRule, List.map_cons]
    by_cases same : r.name = rule.name
    · have others : rest.map (fun r => if r.name = rule.name then rule else r) = rest := by
        refine List.map_congr_left (fun other member => if_neg fun equal => ?_) |>.trans rest.map_id
        exact alone (List.mem_map.mpr ⟨other, member, equal.trans same.symm⟩)
      rw [if_pos same, if_pos same, others]
    · rcases List.mem_cons.mp known with here | later
      · exact absurd here.symm same
      · rw [if_neg same, if_neg same, ih later once]

/-- One more registration is the last one under its own name and no other. -/
theorem find?_reverse_concat : (registered ++ [rule]).reverse.find? (fun r => r.name = name) =
    if rule.name = name then some rule else registered.reverse.find? fun r => r.name = name := by
  rw [List.reverse_concat, List.find?_cons]
  by_cases same : rule.name = name <;> simp [same]

theorem exists_find?_reverse (known : name ∈ registered.map Rule.name) : ∃ r,
    (registered.reverse.find? fun r => r.name = name) = some r ∧ r.name = name := by
  obtain ⟨r, member, rfl⟩ := List.mem_map.mp known
  have found : (registered.reverse.find? fun other => other.name = r.name).isSome = true :=
    List.find?_isSome.mpr ⟨r, List.mem_reverse.mpr member, decide_eq_true rfl⟩
  obtain ⟨last, same⟩ := Option.isSome_iff_exists.mp found
  have named := List.find?_some same
  exact ⟨last, same, of_decide_eq_true named⟩

/-- The rules in force have every name once, in the order of the first registrations. -/
theorem names_inForce (registered : List Rule) :
    (inForce registered).map Rule.name = (registered.map Rule.name).eraseDups := by
  rw [inForce, List.map_filterMap]
  refine (List.filterMap_congr fun name listed => ?_).trans List.filterMap_some
  obtain ⟨r, found, same⟩ := exists_find?_reverse (List.mem_eraseDups.mp listed)
  rw [found, Option.map_some, same]

/-- What registering one more rule preserves. -/
theorem inForce_concat (registered : List Rule) (rule : Rule) :
    inForce (registered ++ [rule]) = setRule rule (inForce registered) := by
  have names := names_inForce registered
  by_cases known : rule.name ∈ registered.map Rule.name
  · rw [setRule_of_known (by rwa [names, List.mem_eraseDups]) (names ▸ nodup_eraseDups _),
      inForce, inForce, List.map_filterMap, List.map_append, List.map_singleton,
      eraseDups_concat_of_mem known]
    refine List.filterMap_congr fun name listed => ?_
    obtain ⟨r, found, same⟩ := exists_find?_reverse (List.mem_eraseDups.mp listed)
    rw [find?_reverse_concat, found, Option.map_some, same]
    by_cases own : name = rule.name
    · rw [if_pos own.symm, if_pos own]
    · rw [if_neg (Ne.symm own), if_neg own]
  · rw [setRule_of_new (by rwa [names, List.mem_eraseDups]), inForce, inForce, List.map_append,
      List.map_singleton, eraseDups_concat_of_not_mem known, List.filterMap_append]
    congr 1
    · refine List.filterMap_congr fun name listed => ?_
      rw [find?_reverse_concat, if_neg]
      rintro rfl
      exact known (List.mem_eraseDups.mp listed)
    · rw [List.filterMap_cons, find?_reverse_concat, if_pos rfl, List.filterMap_nil]

end Registering

section Judging

variable {v : Value} {rules : List Rule}

theorem ruleViolations_of_answers (answers : ∀ r ∈ rules, r.Answers v) :
    ruleViolations v rules = .ok (rules.filterMap (Rule.complaint? · v)) := by
  induction rules with
  | nil => rfl
  | cons r rest ih =>
    obtain ⟨first, others⟩ := List.forall_mem_cons.mp answers
    rw [ruleViolations, Rule.violation?_of_answers first, ih others, List.filterMap_cons]
    cases r.complaint? v <;> rfl

theorem answers_of_ruleViolations {messages : List Text}
    (judged : ruleViolations v rules = .ok messages) : ∀ r ∈ rules, r.Answers v := by
  induction rules generalizing messages with
  | nil => exact fun r none => absurd none List.not_mem_nil
  | cons r rest ih =>
    obtain ⟨message, said, judged⟩ := bind_eq_ok_iff.mp judged
    obtain ⟨others, judged, _⟩ := bind_eq_ok_iff.mp judged
    exact List.forall_mem_cons.mpr ⟨Rule.answers_of_violation? said, ih judged⟩

theorem messagesUpToFault_eq {fault : Fault} (judged : ruleViolations v rules = .error fault) :
    ∃ front r back, rules = front ++ r :: back ∧ (∀ r ∈ front, r.Answers v) ∧ ¬ r.Answers v ∧
      messagesUpToFault v rules = front.filterMap (Rule.complaint? · v) := by
  induction rules with
  | nil => cases judged
  | cons r rest ih =>
    by_cases answers : r.Answers v
    · have said := Rule.violation?_of_answers answers
      have later : ruleViolations v rest = .error fault := by
        rw [ruleViolations, said] at judged
        cases others : ruleViolations v rest with
        | ok messages =>
          rw [others] at judged
          cases judged
        | error other =>
          rw [others] at judged
          exact judged
      obtain ⟨front, silent, back, rfl, before, faults, messages⟩ := ih later
      refine ⟨r :: front, silent, back, rfl, List.forall_mem_cons.mpr ⟨answers, before⟩, faults, ?_⟩
      rw [messagesUpToFault, said, messages, List.filterMap_cons]
      cases r.complaint? v <;> rfl
    · refine ⟨[], r, rest, rfl, fun r none => absurd none List.not_mem_nil, answers, ?_⟩
      rw [messagesUpToFault]
      cases said : r.violation? v with
      | ok message => exact absurd (Rule.answers_of_violation? said) answers
      | error fault => rfl

/-- What a constraint says that expects a kind and has one rule. -/
theorem violations_alone {kind : Kind} {check : Check} {answer : Bool} (same : v.kind = kind)
    (checked : check.accepts v = .ok answer) (message : Text) :
    ∃ c, (ofKind kind).register (.check check) message = .ok c ∧ c.violations v =
      .ok (if answer then [] else [if message.isEmpty then check.message v else message]) := by
  refine ⟨_, rfl, ?_⟩
  simp only [violations, admits, mismatch?, same, ofKind, ofExpectation, setRule, ruleViolations,
    Rule.violation?, checked]
  cases answer <;> rfl

end Judging

end Constraint
end Schemata
