import Mathlib.Data.List.Forall2
import Schemata.Schema.Basic
import Schemata.Proofs.Constraint.Families

/-! Parsing step by step. For a definition and for each transform of elements and entries there are
three statements: what an accepted input has gone through, what suffices for the same reply in every
session, and that nothing faults if no part does. -/
namespace Schemata

/-- In some session the parser accepts `v` with the output `r`. -/
def Parser.Accepts (p : Parser) (v r : Value) : Prop := ∃ σ τ, (p v).Answers σ (.accepted r) τ

/-- In every session the parser accepts `v` with the output `r`. -/
def Parser.Settles (p : Parser) (v r : Value) : Prop := (p v).Always (.accepted r)

/-- What takes the place of the node's own transform. -/
def Schema.override : Schema → Option Transform
  | leaf _ o | array _ o _ | set _ o _ | map _ o _ _ | object _ o _ => o

/-- What holds of a node's own transform, and of one that takes its place, holds of the one it has. -/
theorem Schema.forall_transform {holds : Transform → Prop} {o : Option Transform} {own : Transform}
    (here : holds own) (given : ∀ t, o = some t → holds t) :
    ∀ t, some (o.getD own) = some t → holds t := by
  rintro _ ⟨⟩
  cases o with
  | none => exact here
  | some t => exact given t rfl

/-- The ways for a parser with a definition and a transform to accept an input. -/
inductive Definition.Accepts (d : Definition) : Option Transform → Value → Value → Prop where
  | admitted : d.constraint.admits v = true → Accepts d transform v v
  | nullish : (d.coerced v).Answers σ y τ → d.constraint.violations y = .ok [] →
      y.isNullish = true → Accepts d transform v y
  | plain : (d.coerced v).Answers σ y τ → d.constraint.violations y = .ok [] →
      y.isNullish = false → Accepts d none v y
  | transformed {t : Transform} {outcome : Outcome} : (d.coerced v).Answers σ input ρ →
      d.constraint.violations input = .ok [] → input.isNullish = false →
      (t input).Answers ρ outcome τ → outcome.failed = false → Accepts d (some t) v outcome.data

/-- The ways for a parser with a definition and a transform to reject an input. -/
inductive Definition.Rejects (d : Definition) : Option Transform → Value → Value → Prop where
  | objected (messages : List Text) : d.constraint.admits v = false →
      (d.coerced v).Answers σ input τ → d.constraint.violations input = .ok messages →
        messages ≠ [] → Rejects d transform v (.array (messages.map .string))
  | failed {t : Transform} {outcome : Outcome} : d.constraint.admits v = false →
      (d.coerced v).Answers σ input ρ → d.constraint.violations input = .ok [] →
        input.isNullish = false → (t input).Answers ρ outcome τ → outcome.failed = true →
          Rejects d (some t) v outcome.errors

/-- All that a parser with a definition and a transform can reply, session by session. -/
inductive Definition.Replies (d : Definition) (v : Value) :
    Option Transform → Session → Reply → Session → Prop where
  | admitted : d.constraint.admits v = true →
      (Run.trace (d.label ++ Text.ofString ": accepted " ++ v.form.name ++
        Text.ofString " as is")).Answers σ () τ → Replies d v transform σ (.accepted v) τ
  | objected : d.constraint.admits v = false → (d.coerced v).Answers σ input ρ →
      d.constraint.violations input = .ok messages → messages ≠ [] →
      (Run.trace (d.label ++ Text.ofString ": rejected " ++ input.dump ++
        32 :: (Value.array (messages.map .string)).dump)).Answers ρ () τ →
        Replies d v transform σ (.rejected (.array (messages.map .string))) τ
  | nullish : d.constraint.admits v = false → (d.coerced v).Answers σ input τ →
      d.constraint.violations input = .ok [] → input.isNullish = true →
        Replies d v transform σ (.accepted input) τ
  | plain : d.constraint.admits v = false → (d.coerced v).Answers σ input τ →
      d.constraint.violations input = .ok [] → input.isNullish = false →
        Replies d v none σ (.accepted input) τ
  | transformed {t : Transform} {outcome : Outcome} : d.constraint.admits v = false →
      (d.coerced v).Answers σ input ρ → d.constraint.violations input = .ok [] →
      input.isNullish = false → (t input).Answers ρ outcome τ → outcome.failed = false →
        Replies d v (some t) σ (.accepted outcome.data) τ
  | failed {t : Transform} {outcome : Outcome} : d.constraint.admits v = false →
      (d.coerced v).Answers σ input ρ → d.constraint.violations input = .ok [] →
      input.isNullish = false → (t input).Answers ρ outcome ρ' → outcome.failed = true →
      (Run.trace (d.label ++ Text.ofString ": children failed " ++
        outcome.errors.dump)).Answers ρ' () τ → Replies d v (some t) σ (.rejected outcome.errors) τ

theorem Coercion.apply_total (c : Coercion) (v : Value) : (c.apply v).Total := by
  cases c with
  | symbol =>
    intro σ
    cases v <;> exact ⟨_, _, rfl⟩
  | _ => exact Run.total_pure

namespace Definition

variable {d : Definition} {transform : Option Transform} {v y : Value} {reply : Reply}
  {σ τ : Session}

theorem coerced_total (d : Definition) (v : Value) : (d.coerced v).Total := by
  unfold coerced
  split
  · exact Run.total_pure
  · split
    · exact Run.total_pure
    · exact Coercion.apply_total _ v

theorem coerced_nullish (nullish : v.isNullish = true) : (d.coerced v).Always v := by
  unfold coerced
  split
  · exact Run.always_pure
  · rw [if_pos nullish]
    exact Run.always_pure

/-- No coercion but the one to symbols depends on the session. -/
theorem coerced_always (fixed : d.coercion ≠ some .symbol)
    (answered : (d.coerced v).Answers σ y τ) :
    (d.coerced v).Always y := by
  unfold coerced at answered ⊢
  split at answered
  · obtain ⟨rfl, _⟩ := Run.answers_pure_iff.mp answered
    exact Run.always_pure
  · rename_i coercion wanted
    split at answered
    · obtain ⟨rfl, _⟩ := Run.answers_pure_iff.mp answered
      rw [if_pos ‹_›]
      exact Run.always_pure
    · rw [if_neg ‹_›]
      cases coercion with
      | symbol => exact absurd wanted fixed
      | _ =>
        obtain ⟨rfl, _⟩ := Run.answers_pure_iff.mp answered
        exact Run.always_pure

theorem coerced_of_none (none : d.coercion = none) : (d.coerced v).Always v := by
  unfold coerced
  rw [none]
  exact Run.always_pure

theorem coerced_self (kept : ∀ coercion, d.coercion = some coercion → (coercion.apply v).Always v) :
    (d.coerced v).Always v := by
  unfold coerced
  split
  · exact Run.always_pure
  · split
    · exact Run.always_pure
    · exact kept _ ‹_›

theorem answers_iff :
    (d.safeParse transform v).Answers σ reply τ ↔ d.Replies v transform σ reply τ := by
  constructor
  · intro answered
    unfold safeParse at answered
    split at answered
    · rename_i admitted
      simp only [Run.answers_bind_iff, Run.answers_pure_iff] at answered
      obtain ⟨_, _, traced, rfl, rfl⟩ := answered
      exact .admitted admitted traced
    · rename_i unadmitted
      simp only [Bool.not_eq_true] at unadmitted
      simp only [Run.answers_bind_iff, Run.answers_lift_iff] at answered
      obtain ⟨input, ρ, coerced, messages, _, ⟨checked, rfl⟩, answered⟩ := answered
      split at answered
      · rename_i loud
        simp only [Run.answers_bind_iff, Run.answers_pure_iff] at answered
        obtain ⟨_, _, traced, rfl, rfl⟩ := answered
        exact .objected unadmitted coerced checked (by simpa using loud) traced
      · rename_i silent
        obtain rfl : messages = [] := by simpa using silent
        split at answered
        · obtain ⟨rfl, rfl⟩ := Run.answers_pure_iff.mp answered
          exact .nullish unadmitted coerced checked ‹_›
        · rename_i defined
          simp only [Bool.not_eq_true] at defined
          split at answered
          · obtain ⟨rfl, rfl⟩ := Run.answers_pure_iff.mp answered
            exact .plain unadmitted coerced checked defined
          · simp only [Run.answers_bind_iff] at answered
            obtain ⟨outcome, ρ', transformed, answered⟩ := answered
            split at answered
            · simp only [Run.answers_bind_iff, Run.answers_pure_iff] at answered
              obtain ⟨_, _, traced, rfl, rfl⟩ := answered
              exact .failed unadmitted coerced checked defined transformed ‹_› traced
            · rename_i succeeded
              obtain ⟨rfl, rfl⟩ := Run.answers_pure_iff.mp answered
              exact .transformed unadmitted coerced checked defined transformed
                (by simpa using succeeded)
  · intro replies
    unfold safeParse
    cases replies with
    | admitted admitted traced =>
      rw [if_pos admitted]
      exact traced.bind (Run.answers_pure_iff.mpr ⟨rfl, rfl⟩)
    | objected unadmitted coerced checked loud traced =>
      rw [if_neg (by simp [unadmitted])]
      refine coerced.bind ((Run.answers_lift_iff.mpr ⟨checked, rfl⟩).bind ?_)
      rw [if_pos (by simpa using loud)]
      exact traced.bind (Run.answers_pure_iff.mpr ⟨rfl, rfl⟩)
    | nullish unadmitted coerced checked nullish =>
      rw [if_neg (by simp [unadmitted])]
      refine coerced.bind ((Run.answers_lift_iff.mpr ⟨checked, rfl⟩).bind ?_)
      simp only [List.isEmpty_nil, Bool.not_true, Bool.false_eq_true, if_false, nullish, if_true]
      exact Run.answers_pure_iff.mpr ⟨rfl, rfl⟩
    | plain unadmitted coerced checked defined =>
      rw [if_neg (by simp [unadmitted])]
      refine coerced.bind ((Run.answers_lift_iff.mpr ⟨checked, rfl⟩).bind ?_)
      simp only [List.isEmpty_nil, Bool.not_true, Bool.false_eq_true, if_false, defined]
      exact Run.answers_pure_iff.mpr ⟨rfl, rfl⟩
    | transformed unadmitted coerced checked defined transformed succeeded =>
      rw [if_neg (by simp [unadmitted])]
      refine coerced.bind ((Run.answers_lift_iff.mpr ⟨checked, rfl⟩).bind ?_)
      simp only [List.isEmpty_nil, Bool.not_true, Bool.false_eq_true, if_false, defined]
      refine transformed.bind ?_
      rw [if_neg (by simp [succeeded])]
      exact Run.answers_pure_iff.mpr ⟨rfl, rfl⟩
    | failed unadmitted coerced checked defined transformed failed traced =>
      rw [if_neg (by simp [unadmitted])]
      refine coerced.bind ((Run.answers_lift_iff.mpr ⟨checked, rfl⟩).bind ?_)
      simp only [List.isEmpty_nil, Bool.not_true, Bool.false_eq_true, if_false, defined]
      refine transformed.bind ?_
      rw [if_pos failed]
      exact traced.bind (Run.answers_pure_iff.mpr ⟨rfl, rfl⟩)

theorem safeParse_accepts (accepted : Parser.Accepts (d.safeParse transform) v y) :
    d.Accepts transform v y := by
  obtain ⟨σ, τ, answered⟩ := accepted
  cases answers_iff.mp answered with
  | admitted admitted => exact .admitted admitted
  | nullish _ coerced checked nullish => exact .nullish coerced checked nullish
  | plain _ coerced checked defined => exact .plain coerced checked defined
  | transformed _ coerced checked defined transformed succeeded =>
    exact .transformed coerced checked defined transformed succeeded

theorem safeParse_rejects {errors : Value}
    (answered : (d.safeParse transform v).Answers σ (.rejected errors) τ) :
    d.Rejects transform v errors := by
  cases answers_iff.mp answered with
  | objected unadmitted coerced checked loud => exact .objected _ unadmitted coerced checked loud
  | failed unadmitted coerced checked defined transformed failed =>
    exact .failed unadmitted coerced checked defined transformed failed

/-- A nullish value that has passed the constraint. -/
structure PassesNullish (d : Definition) (v : Value) : Prop where
  nullish : v.isNullish = true
  checked : d.constraint.violations v = .ok []

/-- Whatever a definition without a transform accepts has passed its constraint. -/
theorem Accepts.checked (accepted : d.Accepts none v y) : d.constraint.violations y = .ok [] := by
  cases accepted with
  | admitted admitted => exact Constraint.violations_eq_nil_iff.mpr (.inl admitted)
  | nullish _ checked | plain _ checked => exact checked

/-- What is accepted behind a transform is nullish and has passed the constraint, or it comes of an
input that is not and has. -/
theorem Accepts.nullish_or_transformed {t : Transform} (accepted : d.Accepts (some t) v y)
    (fixed : d.coercion ≠ some .symbol) :
    d.PassesNullish y ∨
      ∃ input outcome σ τ, (d.coerced v).Always input ∧ d.constraint.violations input = .ok [] ∧
        input.isNullish = false ∧ (t input).Answers σ outcome τ ∧ outcome.failed = false ∧
          outcome.data = y := by
  cases accepted with
  | admitted admitted =>
    exact .inl ⟨Constraint.nullish_of_admits admitted,
      Constraint.violations_eq_nil_iff.mpr (.inl admitted)⟩
  | nullish _ checked nullish => exact .inl ⟨nullish, checked⟩
  | transformed coerced checked defined transformed succeeded =>
    exact .inr
      ⟨_, _, _, _, coerced_always fixed coerced, checked, defined, transformed, succeeded, rfl⟩

theorem safeParse_admitted (admitted : d.constraint.admits v = true) :
    Parser.Settles (d.safeParse transform) v v := by
  intro σ
  obtain ⟨τ, traced⟩ := Run.always_trace _ σ
  exact ⟨τ, answers_iff.mpr (.admitted admitted traced)⟩

/-- A nullish output is accepted again as it is, whatever the transform. -/
theorem PassesNullish.settles (passes : d.PassesNullish v) :
    Parser.Settles (d.safeParse transform) v v := by
  obtain ⟨nullish, checked⟩ := passes
  cases admitted : d.constraint.admits v with
  | true => exact safeParse_admitted admitted
  | false =>
    intro σ
    obtain ⟨τ, coerced⟩ := coerced_nullish nullish σ
    exact ⟨τ, answers_iff.mpr (.nullish admitted coerced checked nullish)⟩

theorem safeParse_plain (coerced : (d.coerced v).Always v)
    (checked : d.constraint.violations v = .ok []) (defined : v.isNullish = false) :
    Parser.Settles (d.safeParse none) v v := by
  intro σ
  obtain ⟨τ, coerced⟩ := coerced σ
  exact ⟨τ, answers_iff.mpr (.plain (Constraint.admits_eq_false defined) coerced checked defined)⟩

theorem safeParse_transformed {t : Transform} {input : Value} (given : v.isNullish = false)
    (coerced : (d.coerced v).Always input) (checked : d.constraint.violations input = .ok [])
    (defined : input.isNullish = false)
    (answered : (t input).Always (.success y)) : Parser.Settles (d.safeParse (some t)) v y := by
  intro σ
  obtain ⟨ρ, coerced⟩ := coerced σ
  obtain ⟨τ, answered⟩ := answered ρ
  exact ⟨τ, answers_iff.mpr
    (.transformed (Constraint.admits_eq_false given) coerced checked defined answered rfl)⟩

theorem safeParse_rejected {messages : List Text} (coerced : (d.coerced v).Always y)
    (checked : d.constraint.violations y = .ok messages) (some : messages ≠ [])
    (refused : d.constraint.admits v = false) :
    (d.safeParse transform v).Always (.rejected (.array (messages.map .string))) := by
  intro σ
  obtain ⟨ρ, coerced⟩ := coerced σ
  obtain ⟨τ, traced⟩ := Run.always_trace _ ρ
  exact ⟨τ, answers_iff.mpr (.objected refused coerced checked some traced)⟩

theorem safeParse_refused {t : Transform} {category : Category} (defined : v.isNullish = false)
    (coerced : (d.coerced v).Always v) (checked : d.constraint.violations v = .ok [])
    (refused : (t v).Refused category) : (d.safeParse (some t) v).Refused category := by
  unfold safeParse
  rw [if_neg (by simp [Constraint.admits_eq_false defined])]
  refine coerced.bind_refused ((Run.always_lift checked).bind_refused ?_)
  simp only [List.isEmpty_nil, Bool.not_true, Bool.false_eq_true, if_false, defined]
  exact refused.bind

theorem safeParse_total (checks : ∀ input, ∃ messages, d.constraint.violations input = .ok messages)
    (answers : ∀ t input, transform = some t → (t input).Total) :
    (d.safeParse transform v).Total := by
  unfold safeParse
  split
  · exact (Run.always_trace _).total.bind fun _ _ _ _ => Run.total_pure
  · refine (coerced_total d v).bind fun input _ _ _ => ?_
    obtain ⟨messages, checked⟩ := checks input
    refine (Run.always_lift checked).total.bind fun found _ _ _ => ?_
    split
    · exact (Run.always_trace _).total.bind fun _ _ _ _ => Run.total_pure
    · split
      · exact Run.total_pure
      · split
        · exact Run.total_pure
        · refine (answers _ _ rfl).bind fun outcome _ _ _ => ?_
          split
          · exact (Run.always_trace _).total.bind fun _ _ _ _ => Run.total_pure
          · exact Run.total_pure

end Definition
end Schemata
