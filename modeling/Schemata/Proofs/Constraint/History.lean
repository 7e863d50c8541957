import Mathlib.Data.List.Induction
import Schemata.Proofs.Constraint.Registry

/-! Checkers and their histories. One more act keeps a checker in step with its history, and so does a
run of calls on any number of checkers: a clone begins with the history of its original and goes on with
its own, and what is done to the one is not in the history of the other. -/
namespace Schemata

namespace Constraint

/-- The constraints that a family begins with. -/
inductive New : Family → Constraint → Prop where
  | ofKind : family.kind? = some kind → New family (ofKind kind)
  | ofPredicate : family = .set ∨ family = .map → ofPredicate accepts = .ok c → New family c
  | ofDates (convert : DateConverter) : New .date (ofDates convert)
  | anyValue : New .any anyValue
  | nullishValue : New .nullish nullishValue

variable {family : Family} {c : Constraint}

theorem New.made (new : New family c) : Made family c := by
  cases new with
  | ofKind same => exact .ofKind same
  | ofPredicate which accepted => exact .ofPredicate which accepted
  | ofDates convert => exact .ofDates convert
  | anyValue => exact .anyValue
  | nullishValue => exact .nullishValue

/-- A new constraint has no rules and admits nothing unchecked. -/
theorem New.bare (new : New family c) :
    c.rules = [] ∧ c.allowsNull = false ∧ c.allowsUndefined = false := by
  cases new with
  | ofPredicate which accepted =>
    rename_i accepts
    cases accepts with
    | none => cases accepted
    | some accepts =>
      cases accepted
      exact ⟨rfl, rfl, rfl⟩
  | _ => exact ⟨rfl, rfl, rfl⟩

end Constraint

namespace Checker

open Constraint

/-- Something that is done to a checker. -/
inductive Act where
  | register (request : Rule.Request) (message : Text)
  | nullable
  | nullish
  | apply (v : Value)

namespace Act

/-- What an act leaves, also when it is refused. A registration that is refused changes nothing; an
application that faults has forgotten the messages from before and leaves those of the rules so far. -/
def after (checker : Checker) : Act → Checker
  | register request message =>
    match checker.register request message with
    | .ok registered => registered
    | .error _ => checker
  | nullable => checker.nullable
  | nullish => checker.nullish
  | apply v =>
    match checker.apply v with
    | .ok checked => checked
    | .error _ => { checker with errors := messagesUpToFault v checker.constraint.rules }

/-- The rule that an act registers, if it does and is not refused. -/
def rule? (convert : DateConverter) : Act → Option Rule
  | register request message => (checkOf convert request).toOption.map fun check => ⟨check, message⟩
  | _ => none

/-- The family offers the rule that is asked for. -/
def OfferedBy (family : Family) : Act → Prop
  | register request _ => family.offers request = true
  | _ => True

end Act

/-- The rules that were registered, in order and with repetitions. -/
def registered (convert : DateConverter) (history : List Act) : List Rule :=
  history.filterMap (Act.rule? convert)

/-- The value is null or undefined, and was admitted as such. -/
def Admitted (history : List Act) (v : Value) : Prop :=
  v = .null ∧ (.nullable ∈ history ∨ .nullish ∈ history) ∨ v = .undefined ∧ .nullish ∈ history

/-- What there is to say against a value after a history that began with the constraint: nothing if
the value is admitted, one message if it is of another kind or not supported, and otherwise the messages
of the rules in force that turn it down. -/
inductive Says (c : Constraint) (history : List Act) (v : Value) : List Text → Prop where
  | admitted : Admitted history v → Says c history v []
  | wrongKind {k : Kind} : ¬ Admitted history v → c.expected = .kind k → v.kind ≠ k →
      Says c history v [Text.ofString "Value must be of type " ++ k.name ++ Text.ofString ", " ++
        v.kind.name ++ Text.ofString " given"]
  | unsupported {accepts : Value → Bool} : ¬ Admitted history v → c.expected = .predicate accepts →
      accepts v = false → Says c history v [Text.ofString "Unsupported type " ++ v.kind.name]
  | judged : ¬ Admitted history v → c.expected.Met v →
      (∀ r ∈ inForce (registered c.convert history), r.Answers v) →
      Says c history v ((inForce (registered c.convert history)).filterMap (Rule.complaint? · v))

/-- The messages that a history leaves: those against the value that was applied last, whatever was done
afterwards. Of an application that faults at some rule, those of the rules in front of it. -/
inductive Leaves (c : Constraint) : List Act → List Text → Prop where
  | new : Leaves c [] []
  | applied {history : List Act} {v : Value} {messages : List Text} : Says c history v messages →
      Leaves c (history ++ [.apply v]) messages
  | interrupted {history : List Act} {v : Value} {front back : List Rule} {r : Rule} :
      ¬ Admitted history v → c.expected.Met v →
      inForce (registered c.convert history) = front ++ r :: back → (∀ r ∈ front, r.Answers v) →
      ¬ r.Answers v → Leaves c (history ++ [.apply v]) (front.filterMap (Rule.complaint? · v))
  | kept {history : List Act} {act : Act} {messages : List Text} : Leaves c history messages →
      (∀ v, act ≠ .apply v) → Leaves c (history ++ [act]) messages

/-- The checker is what a history has made of a checker of the constraint. -/
structure Follows (c : Constraint) (history : List Act) (checker : Checker) : Prop where
  expected : checker.constraint.expected = c.expected
  convert : checker.constraint.convert = c.convert
  rules : checker.constraint.rules = inForce (registered c.convert history)
  allowsNull : checker.constraint.allowsNull = true ↔ .nullable ∈ history ∨ .nullish ∈ history
  allowsUndefined : checker.constraint.allowsUndefined = true ↔ .nullish ∈ history
  errors : Leaves c history checker.errors

variable {c : Constraint} {history : List Act} {checker : Checker} {act : Act} {v : Value}

theorem registered_concat (convert : DateConverter) (history : List Act) (act : Act) :
    registered convert (history ++ [act]) =
      registered convert history ++ (act.rule? convert).toList := by
  rw [registered, registered, List.filterMap_append, List.filterMap_cons]
  cases act.rule? convert <;> rfl

/-- An act that registers nothing leaves the rules in force. -/
theorem registered_of_none (none : act.rule? c.convert = none) :
    registered c.convert (history ++ [act]) = registered c.convert history := by
  rw [registered_concat, none, Option.toList_none, List.append_nil]

theorem admits_iff (follows : Follows c history checker) :
    checker.constraint.admits v = true ↔ Admitted history v := by
  have null := follows.allowsNull
  have undefined := follows.allowsUndefined
  unfold admits Admitted
  cases v with
  | null | undefined => simp [Value.isNull, Value.isNullish, null, undefined]
  | _ => simp [Value.isNull, Value.isNullish]

theorem says_of_mismatch? {message : Text} (follows : Follows c history checker)
    (plain : ¬ Admitted history v) (wrong : checker.constraint.mismatch? v = some message) :
    Says c history v [message] := by
  unfold mismatch? at wrong
  rw [follows.expected] at wrong
  split at wrong
  · rename_i k expected
    split at wrong
    · cases wrong
    · rename_i other
      cases wrong
      exact .wrongKind plain expected other
  · rename_i accepts expected
    split at wrong
    · cases wrong
    · rename_i refused
      cases wrong
      exact .unsupported plain expected (Bool.eq_false_iff.mpr refused)

theorem says_of_violations {messages : List Text} (follows : Follows c history checker)
    (said : checker.constraint.violations v = .ok messages) : Says c history v messages := by
  have rules := follows.rules
  unfold violations at said
  split at said
  · rename_i admitted
    cases said
    exact .admitted ((admits_iff follows).mp admitted)
  · rename_i refused
    have plain := mt (admits_iff follows).mpr refused
    split at said
    · rename_i wrong
      cases said
      exact says_of_mismatch? follows plain wrong
    · rename_i expected
      have met := follows.expected ▸ mismatch?_eq_none_iff.mp expected
      have answers := answers_of_ruleViolations said
      rw [ruleViolations_of_answers answers] at said
      cases said
      rw [rules] at answers ⊢
      exact .judged plain met answers

theorem leaves_of_fault {fault : Fault} (follows : Follows c history checker)
    (said : checker.constraint.violations v = .error fault) :
    Leaves c (history ++ [.apply v]) (messagesUpToFault v checker.constraint.rules) := by
  unfold violations at said
  split at said
  · cases said
  · rename_i refused
    have plain := mt (admits_iff follows).mpr refused
    split at said
    · cases said
    · rename_i expected
      have met := follows.expected ▸ mismatch?_eq_none_iff.mp expected
      obtain ⟨front, r, back, parts, before, faults, messages⟩ := messagesUpToFault_eq said
      rw [messages]
      exact .interrupted plain met (follows.rules ▸ parts) before faults

/-- What an application leaves, whether it answers or faults. -/
theorem leaves_apply (follows : Follows c history checker) (v : Value) :
    Leaves c (history ++ [.apply v]) ((Act.apply v).after checker).errors := by
  cases said : checker.constraint.violations v with
  | ok messages =>
    have errors : ((Act.apply v).after checker).errors = messages := by
      simp only [Act.after, apply, said]
      rfl
    rw [errors]
    exact .applied (says_of_violations follows said)
  | error fault =>
    have errors : ((Act.apply v).after checker).errors =
        messagesUpToFault v checker.constraint.rules := by
      simp only [Act.after, apply, said]
      rfl
    rw [errors]
    exact leaves_of_fault follows said

theorem constraint_apply (v : Value) :
    ((Act.apply v).after checker).constraint = checker.constraint := by
  simp only [Act.after, apply]
  cases checker.constraint.violations v <;> rfl

/-- A registration changes the rules alone, and a refused one not even those. -/
theorem after_register (request : Rule.Request) (message : Text) :
    (Act.register request message).after checker = { checker with
      constraint := { checker.constraint with
        rules := match (Act.register request message).rule? checker.constraint.convert with
          | some rule => setRule rule checker.constraint.rules
          | none => checker.constraint.rules } } := by
  simp only [Act.after, Act.rule?, Checker.register, Constraint.register]
  cases checkOf checker.constraint.convert request <;> rfl

/-- One more act keeps a checker in step with its history. -/
theorem Follows.step (follows : Follows c history checker) (act : Act) :
    Follows c (history ++ [act]) (act.after checker) := by
  cases act with
  | register request message =>
    rw [after_register, follows.convert]
    refine ⟨follows.expected, follows.convert, ?_, ?_, ?_, .kept follows.errors nofun⟩
    · rw [registered_concat]
      cases (Act.register request message).rule? c.convert with
      | none => rw [Option.toList_none, List.append_nil, ← follows.rules]
      | some rule => rw [Option.toList_some, inForce_concat, ← follows.rules]
    · simpa using follows.allowsNull
    · simpa using follows.allowsUndefined
  | nullable =>
    refine ⟨follows.expected, follows.convert, ?_, ?_, ?_, .kept follows.errors nofun⟩
    · rw [registered_of_none rfl]
      exact follows.rules
    · simp [Act.after, Checker.nullable, Constraint.nullable]
    · simpa [Act.after, Checker.nullable, Constraint.nullable] using follows.allowsUndefined
  | nullish =>
    refine ⟨follows.expected, follows.convert, ?_, ?_, ?_, .kept follows.errors nofun⟩
    · rw [registered_of_none rfl]
      exact follows.rules
    · simp [Act.after, Checker.nullish, Constraint.nullish]
    · simp [Act.after, Checker.nullish, Constraint.nullish]
  | apply v =>
    refine ⟨?_, ?_, ?_, ?_, ?_, leaves_apply follows v⟩
    · rw [constraint_apply, follows.expected]
    · rw [constraint_apply, follows.convert]
    · rw [constraint_apply, registered_of_none rfl, follows.rules]
    · simpa [constraint_apply] using follows.allowsNull
    · simpa [constraint_apply] using follows.allowsUndefined

theorem follows_new {family : Family} (new : New family c) : Follows c [] (ofConstraint c) := by
  obtain ⟨rules, allowsNull, allowsUndefined⟩ := new.bare
  refine ⟨rfl, rfl, rules, ?_, ?_, .new⟩
  · simp [ofConstraint, allowsNull]
  · simp [ofConstraint, allowsUndefined]

/-- No act leads out of the family, as long as it offers what is asked for. -/
theorem made_after {family : Family} (made : Made family checker.constraint)
    (offered : act.OfferedBy family) : Made family (act.after checker).constraint := by
  cases act with
  | register request message =>
    cases registered : checker.constraint.register request message with
    | error fault =>
      simp only [Act.after, Checker.register, registered]
      exact made
    | ok changed =>
      simp only [Act.after, Checker.register, registered]
      exact made.register offered registered
  | nullable => exact made.nullable
  | nullish => exact made.nullish
  | apply v => rwa [constraint_apply]

/-- A call on one of several checkers. A clone is put behind all others. -/
inductive Call where
  | act (index : Nat) (act : Act)
  | clone (index : Nat)

/-- What a call makes of the checkers, or of whatever else there is for each of them. -/
def Call.perform (step : α → Act → α) : List α → Call → List α
  | all, .act index act => all.modify index (step · act)
  | all, .clone index => all ++ all[index]?.toList

/-- The checkers after some calls, the first of which find one new checker. -/
def checkersAfter (c : Constraint) (calls : List Call) : List Checker :=
  calls.foldl (Call.perform Act.after) [ofConstraint c]

/-- What was done to each of the checkers and, before it was cloned, to its original. -/
def histories (calls : List Call) : List (List Act) :=
  calls.foldl (Call.perform fun history act => history ++ [act]) [[]]

section Calls

variable {related : α → β → Prop} {f : α → Act → α} {g : β → Act → β} {as : List α} {bs : List β}

/-- A call keeps what every act keeps. -/
theorem Call.perform_forall₂ (step : ∀ a b act, related a b → related (f a act) (g b act))
    (parts : List.Forall₂ related as bs) (call : Call) :
    List.Forall₂ related (call.perform f as) (call.perform g bs) := by
  cases call with
  | act index act =>
    rw [Call.perform, Call.perform]
    induction parts generalizing index with
    | nil =>
      rw [List.modify_nil, List.modify_nil]
      exact .nil
    | cons first others ih =>
      cases index with
      | zero => exact .cons (step _ _ act first) others
      | succ index => exact .cons first (ih index)
  | clone index =>
    rw [Call.perform, Call.perform]
    refine List.rel_append parts ?_
    induction parts generalizing index with
    | nil => exact .nil
    | cons first others ih =>
      cases index with
      | zero => exact .cons first .nil
      | succ index => exact ih index

theorem forall₂_foldl_perform (step : ∀ a b act, related a b → related (f a act) (g b act))
    (parts : List.Forall₂ related as bs) (calls : List Call) :
    List.Forall₂ related (calls.foldl (Call.perform f) as) (calls.foldl (Call.perform g) bs) := by
  induction calls generalizing as bs with
  | nil => exact parts
  | cons call calls ih => exact ih (Call.perform_forall₂ step parts call)

end Calls

/-- Whatever is called on a new checker of a family and on its clones, in whatever order, each of them is
what its own history says. It asks the rules under the names of its successful registrations, in the
order in which they first came up; and if the family offers what was asked for, it answers whatever it is
applied to, unless a converter of dates does not. -/
theorem checkers_follow_histories {family : Family} (new : New family c) (calls : List Call) :
    List.Forall₂ (fun history checker => Follows c history checker ∧
      checker.constraint.ruleNames = ((registered c.convert history).map Rule.name).eraseDups ∧
      ((∀ act ∈ history, act.OfferedBy family) →
        (∀ millis, ∃ instant, c.convert (.date millis) = .ok instant) →
        ∀ v, ∃ checked, checker.apply v = .ok checked))
      (histories calls) (checkersAfter c calls) := by
  have run : List.Forall₂ (fun history checker => Follows c history checker ∧
      ((∀ act ∈ history, act.OfferedBy family) → Made family checker.constraint))
      (histories calls) (checkersAfter c calls) := by
    refine forall₂_foldl_perform ?_ (.cons ⟨follows_new new, fun _ => new.made⟩ .nil) calls
    rintro history checker act ⟨follows, made⟩
    refine ⟨follows.step act, fun offered => ?_⟩
    rw [List.forall_mem_append, List.forall_mem_singleton] at offered
    exact made_after (made offered.1) offered.2
  refine run.imp fun history checker follows => ⟨follows.1, ?_, fun offered timed v => ?_⟩
  · rw [ruleNames, follows.1.rules, names_inForce]
  · obtain ⟨messages, said⟩ :=
      (follows.2 offered).fits.violations_answer (follows.1.convert ▸ timed) v
    exact ⟨_, map_eq_ok_iff.mpr ⟨messages, said, rfl⟩⟩

/-- An array checker that is cloned between two registrations under one name. -/
def clonedCalls : List Call :=
  [.act 0 (.register (.check (.minSize .array 1)) []), .act 0 (.register (.check (.maxSize .array 5)) []),
    .clone 0, .act 0 (.register (.check (.minSize .array 3)) (Text.ofString "too short")),
    .act 1 .nullable,
    .act 0 (.apply (.array [.null, .null])), .act 1 (.apply .null)]

theorem checkers_follow_histories_cloned : New .array (ofKind .array) ∧
    ((checkersAfter (ofKind .array) clonedCalls).map fun checker =>
      (checker.constraint.ruleNames, checker.constraint.allowsNull, checker.errors)) =
      [([Text.ofString "min", Text.ofString "max"], false, [Text.ofString "too short"]),
        ([Text.ofString "min", Text.ofString "max"], true, [])] ∧
    ∀ checker ∈ checkersAfter (ofKind .array) clonedCalls, ∀ v,
      ∃ checked, checker.apply v = .ok checked := by
  have new : New .array (ofKind .array) := .ofKind rfl
  have offered : ∀ history ∈ histories clonedCalls, ∀ act ∈ history, act.OfferedBy .array := by
    simp [histories, clonedCalls, Call.perform, Act.OfferedBy, Family.offers, Family.suits]
  refine ⟨new, by decide, fun checker member => ?_⟩
  have run := checkers_follow_histories new clonedCalls
  obtain ⟨history, listed, _, _, answers⟩ := exists_related_left run member
  exact answers (offered history listed) fun millis => ⟨millis, rfl⟩

end Checker
end Schemata
