import Schemata.Constraint.Basic
import Schemata.Proofs.Fields
import Schemata.Proofs.Lists

/-! Required keys. The names that an object lacks are joined one after the other, and what they come to
decides both whether the rule turns the object down and what it says. An empty name adds nothing as long
as no other name is there, so empty names in front are not seen, and an object that lacks no other name
is accepted. -/
namespace Schemata

section Joined

variable {sep : List α} {parts : List (List α)}

/-- Joined without the empty parts in front, parts come to nothing only if they are all empty. -/
theorem intercalate_dropWhile_eq_nil_iff :
    sep.intercalate (parts.dropWhile List.isEmpty) = [] ↔ ∀ part ∈ parts, part = [] := by
  induction parts with
  | nil => simp
  | cons part rest ih =>
    cases part with
    | nil => simpa using ih
    | cons a part => cases rest <;> simp [List.intercalate_cons_cons]

theorem length_intercalate_dropWhile_le :
    (sep.intercalate (parts.dropWhile List.isEmpty)).length ≤ (sep.intercalate parts).length := by
  induction parts with
  | nil => exact Nat.le_refl 0
  | cons part rest ih =>
    cases part with
    | nil =>
      refine Nat.le_trans ih ?_
      cases rest with
      | nil => exact Nat.le_refl 0
      | cons second rest =>
        rw [List.intercalate_cons_cons, List.length_append]
        exact Nat.le_add_left _ _
    | cons a part => exact Nat.le_refl _

end Joined

/-- The names that are not keys of the fields, in their order. -/
def absent (names : List Text) (fields : Fields Value) : List Text :=
  names.filter (· ∉ Fields.keys fields)

/-- The message about names that an object lacks. -/
def lacking (names : List Text) : Text :=
  Text.ofString "Missing object properties " ++ (Text.ofString ", ").intercalate names

variable {names : List Text} {fields : Fields Value}

theorem missingKeys_eq (names : List Text) (fields : Fields Value) :
    Check.missingKeys names (.object fields) =
      (Text.ofString ", ").intercalate ((absent names fields).dropWhile List.isEmpty) := by
  have filled : ∀ missing name : Text, missing ≠ [] →
      (if missing.isEmpty then missing else missing ++ [44, 32]) ++ name =
        missing ++ Text.ofString ", " ++ name := by
    intro missing name some
    rw [if_neg (by simpa using some)]
    rfl
  rw [← foldl_join_nil filled (fun name => rfl), absent, List.foldl_filter, Check.missingKeys]
  congr 1
  funext missing name
  rw [Value.has]
  by_cases there : name ∈ Fields.keys fields
  · simp [Fields.contains_iff.mpr there, there]
  · simp [mt Fields.contains_iff.mp there, there]

theorem accepts_required : (Check.required names).accepts (.object fields) =
    .ok (decide (∀ name ∈ absent names fields, name = [])) := by
  rw [Check.accepts, missingKeys_eq]
  refine congrArg _ (Bool.eq_iff_iff.mpr ?_)
  rw [List.isEmpty_iff, decide_eq_true_eq, intercalate_dropWhile_eq_nil_iff]

theorem violation?_required (names : List Text) (message : Text) (fields : Fields Value) :
    Rule.violation? ⟨.required names, message⟩ (.object fields) =
      .ok (if ∀ name ∈ absent names fields, name = [] then none
        else some (if message = [] then lacking ((absent names fields).dropWhile List.isEmpty)
          else message)) := by
  rw [Rule.violation?, accepts_required]
  by_cases empty : ∀ name ∈ absent names fields, name = []
  · rw [if_pos empty, decide_eq_true empty]
    rfl
  · rw [if_neg empty, decide_eq_false empty, lacking, ← missingKeys_eq]
    cases message <;> rfl

/-- An empty name in front shows in the message if it is not left out. -/
theorem lacking_dropWhile_ne {rest : List Text} (some : ∃ name ∈ rest, name ≠ []) :
    lacking (rest.dropWhile List.isEmpty) ≠ lacking ([] :: rest) := by
  intro same
  have joined := List.append_cancel_left same
  cases rest with
  | nil => simp at some
  | cons second rest =>
    have long := congrArg List.length joined
    have short := @length_intercalate_dropWhile_le _ (Text.ofString ", ") (second :: rest)
    have gap : (Text.ofString ", ").length = 2 := rfl
    rw [List.intercalate_cons_cons, List.length_append, List.length_append, gap] at long
    simp only [List.length_nil] at long
    omega

/-- The rule that `required` registers turns an object down if it lacks a name that is not empty, and
then says which names these are, without empty ones in front. So it says which names are lacking, all
of them and no more, exactly if the first of these is not empty. -/
theorem required_reports (c : Constraint) (names : List Text) (message : Text)
    (fields : Fields Value) :
    c.register (.check (.required names)) message =
      .ok { c with rules := Constraint.setRule ⟨.required names, message⟩ c.rules } ∧
    Rule.violation? ⟨.required names, message⟩ (.object fields) =
      .ok (if ∀ name ∈ absent names fields, name = [] then none
        else some (if message = [] then lacking ((absent names fields).dropWhile List.isEmpty)
          else message)) ∧
    (Rule.violation? ⟨.required names, []⟩ (.object fields) =
      .ok (if absent names fields = [] then none else some (lacking (absent names fields))) ↔
        (absent names fields).head? ≠ some []) := by
  refine ⟨rfl, violation?_required names message fields, ?_⟩
  rw [violation?_required, if_pos rfl]
  cases absent names fields with
  | nil => simp
  | cons first rest =>
    cases first with
    | cons b first => simp
    | nil =>
      refine iff_of_false ?_ (fun other => other rfl)
      rw [if_neg (List.cons_ne_nil _ _), List.dropWhile_cons_of_pos rfl]
      split
      · simp
      · rename_i some
        have some : ∃ name ∈ rest, name ≠ [] := by simpa using some
        simpa using lacking_dropWhile_ne some

/-- A required key with an empty name, and an object without it. -/
theorem emptyName_not_missed : ∃ c, (Constraint.ofKind .object).register (.check (.required [[]])) [] =
    .ok c ∧ absent [[]] [] = [[]] ∧ c.violations (.object []) = .ok [] :=
  ⟨_, rfl, rfl, rfl⟩

end Schemata
