import Mathlib.Data.List.Forall2
import Schemata.Session

/-! Runs of computations in a session, as relations between the sessions before and after. `Always`,
`Total` and `Steady` quantify over the session: tracing and the symbols given out so far are of no
account to them. -/
namespace Schemata

@[simp] theorem map_eq_ok_iff {x : Except ε α} {f : α → β} {b : β} :
    x.map f = .ok b ↔ ∃ a, x = .ok a ∧ f a = b := by
  cases x <;> simp [Except.map]

theorem map_eq_error_iff {x : Except ε α} {f : α → β} {e : ε} :
    x.map f = .error e ↔ x = .error e := by
  cases x <;> simp [Except.map]

@[simp] theorem bind_eq_ok_iff {x : Except ε α} {f : α → Except ε β} {b : β} :
    x >>= f = .ok b ↔ ∃ a, x = .ok a ∧ f a = .ok b := by
  cases x <;> simp [bind, Except.bind]

theorem bind_eq_error_iff {x : Except ε α} {f : α → Except ε β} {e : ε} :
    x >>= f = .error e ↔ x = .error e ∨ ∃ a, x = .ok a ∧ f a = .error e := by
  cases x <;> simp [bind, Except.bind]

@[simp] theorem pure_eq_ok_iff {a b : α} : (pure a : Except ε α) = .ok b ↔ a = b := by
  simp [pure, Except.pure]

namespace Run

/-- What a computation comes to in a session, and the session that it leaves. -/
def outcome (m : Run α) (s : Session) : Except Fault α × Session := StateT.run (ExceptT.run m) s

/-- Started in `s`, the computation answers `a` and leaves `t`. -/
def Answers (m : Run α) (s : Session) (a : α) (t : Session) : Prop := m.outcome s = (.ok a, t)

/-- Started in `s`, the computation is refused. -/
def Faults (m : Run α) (s : Session) (fault : Fault) : Prop := ∃ t, m.outcome s = (.error fault, t)

/-- The answer in every session. -/
def Always (m : Run α) (a : α) : Prop := ∀ s, ∃ t, m.Answers s a t

/-- There is an answer in every session. -/
def Total (m : Run α) : Prop := ∀ s, ∃ a t, m.Answers s a t

/-- The answer, or the fault, is the same in every session. -/
def Steady (m : Run α) : Prop := ∀ s t, (m.outcome s).1 = (m.outcome t).1

/-- Whatever the computation answers, it has the property. -/
def Ends (m : Run α) (holds : α → Prop) : Prop := ∀ s a t, m.Answers s a t → holds a

/-- In every session the computation is refused. -/
def Fails (m : Run α) : Prop := ∀ s, ∃ fault, m.Faults s fault

/-- Both computations have one answer, in every session, or both are refused, for the cause. -/
def Agree (cause : Prop) (m m' : Run α) : Prop :=
  (∃ a, m.Always a ∧ m'.Always a) ∨ cause ∧ m.Fails ∧ m'.Fails

/-- In every session the computation is refused for a reason of the category. -/
def Refused (m : Run α) (category : Category) : Prop :=
  ∀ s, ∃ fault, fault.category = category ∧ m.Faults s fault

variable {m : Run α} {f : α → Run β} {a b : α} {s t u : Session} {fault : Fault}

theorem Answers.unique (first : m.Answers s a t) (second : m.Answers s b u) : a = b ∧ t = u := by
  have same := first.symm.trans second
  simpa only [Prod.mk.injEq, Except.ok.injEq] using same

theorem Answers.not_faults (answered : m.Answers s a t) : ¬ m.Faults s fault := by
  rintro ⟨u, refused⟩
  have same := answered.symm.trans refused
  simp only [Prod.mk.injEq, reduceCtorEq, false_and] at same

theorem Always.unique (settled : m.Always a) (answered : m.Answers s b t) : b = a := by
  obtain ⟨u, expected⟩ := settled s
  exact (answered.unique expected).1

theorem Always.total (settled : m.Always a) : m.Total := fun s => ⟨a, settled s⟩

@[simp] theorem answers_pure_iff : (pure a : Run α).Answers s b t ↔ a = b ∧ s = t := by
  change ((Except.ok a, s) : Except Fault α × Session) = (.ok b, t) ↔ _
  simp only [Prod.mk.injEq, Except.ok.injEq]

theorem outcome_bind : (m >>= f).outcome s =
    match m.outcome s with
    | (.ok a, t) => (f a).outcome t
    | (.error fault, t) => (.error fault, t) := by
  change (match m.outcome s with
    | (answer, t) => StateT.run (ExceptT.bindCont f answer) t) = _
  obtain ⟨_ | a, t⟩ := m.outcome s <;> rfl

@[simp] theorem answers_bind_iff {b : β} :
    (m >>= f).Answers s b u ↔ ∃ a t, m.Answers s a t ∧ (f a).Answers t b u := by
  simp only [Answers, outcome_bind]
  obtain ⟨refused | a, t⟩ := m.outcome s <;> simp [and_assoc]

theorem Answers.bind {b : β} (first : m.Answers s a t) (next : (f a).Answers t b u) :
    (m >>= f).Answers s b u :=
  answers_bind_iff.mpr ⟨a, t, first, next⟩

@[simp] theorem faults_bind_iff : (m >>= f).Faults s fault ↔
    m.Faults s fault ∨ ∃ a t, m.Answers s a t ∧ (f a).Faults t fault := by
  simp only [Faults, Answers, outcome_bind]
  obtain ⟨refused | a, t⟩ := m.outcome s <;> simp [and_assoc]

@[simp] theorem not_faults_pure : ¬ (pure a : Run α).Faults s fault :=
  (answers_pure_iff.mpr ⟨rfl, rfl⟩).not_faults

@[simp] theorem answers_lift_iff {x : Except Fault α} :
    (Run.lift x).Answers s a t ↔ x = .ok a ∧ s = t := by
  change ((x, s) : Except Fault α × Session) = (.ok a, t) ↔ _
  simp only [Prod.mk.injEq]

@[simp] theorem faults_lift_iff {x : Except Fault α} :
    (Run.lift x).Faults s fault ↔ x = .error fault := by
  change (∃ t, ((x, s) : Except Fault α × Session) = (.error fault, t)) ↔ _
  simp

@[simp] theorem not_answers_throw : ¬ (throw fault : Run α).Answers s a t := by
  change ¬ ((Except.error fault, s) : Except Fault α × Session) = (.ok a, t)
  simp

@[simp] theorem faults_throw_iff {expected : Fault} :
    (throw fault : Run α).Faults s expected ↔ fault = expected := by
  change (∃ t, ((Except.error fault, s) : Except Fault α × Session) = (.error expected, t)) ↔ _
  simp

theorem always_pure : (pure a : Run α).Always a :=
  fun s => ⟨s, answers_pure_iff.mpr ⟨rfl, rfl⟩⟩

theorem Always.bind {b : β} (first : m.Always a) (next : (f a).Always b) : (m >>= f).Always b := by
  intro s
  obtain ⟨t, first⟩ := first s
  obtain ⟨u, next⟩ := next t
  exact ⟨u, answers_bind_iff.mpr ⟨a, t, first, next⟩⟩

theorem Refused.bind {category : Category} (first : m.Refused category) :
    (m >>= f).Refused category := by
  intro s
  obtain ⟨fault, sort, refused⟩ := first s
  exact ⟨fault, sort, faults_bind_iff.mpr (.inl refused)⟩

theorem Always.bind_refused {category : Category} (first : m.Always a)
    (next : (f a).Refused category) :
    (m >>= f).Refused category := by
  intro s
  obtain ⟨t, answered⟩ := first s
  obtain ⟨fault, sort, refused⟩ := next t
  exact ⟨fault, sort, faults_bind_iff.mpr (.inr ⟨a, t, answered, refused⟩)⟩

theorem refused_lift {x : Except Fault α} (error : x = .error fault) :
    (Run.lift x).Refused fault.category :=
  fun _ => ⟨fault, rfl, faults_lift_iff.mpr error⟩

theorem always_lift {x : Except Fault α} (ok : x = .ok a) : (Run.lift x).Always a :=
  fun s => ⟨s, answers_lift_iff.mpr ⟨ok, rfl⟩⟩

theorem always_trace (line : Text) : (Run.trace line).Always () := fun _ => ⟨_, rfl⟩

theorem Total.bind (first : m.Total) (next : ∀ a s t, m.Answers s a t → (f a).Total) :
    (m >>= f).Total := by
  intro s
  obtain ⟨a, t, answered⟩ := first s
  obtain ⟨b, u, last⟩ := next a s t answered t
  exact ⟨b, u, answers_bind_iff.mpr ⟨a, t, answered, last⟩⟩

theorem total_pure : (pure a : Run α).Total := always_pure.total

theorem not_faults_trace (line : Text) : ¬ (Run.trace line).Faults s fault := by
  obtain ⟨t, traced⟩ := always_trace line s
  exact traced.not_faults

theorem Always.steady (settled : m.Always a) : m.Steady := by
  intro s t
  obtain ⟨s', left⟩ := settled s
  obtain ⟨t', right⟩ := settled t
  rw [left, right]

theorem steady_pure (a : α) : (pure a : Run α).Steady := fun _ _ => rfl

theorem steady_throw (fault : Fault) : (throw fault : Run α).Steady := fun _ _ => rfl

theorem steady_lift (answer : Except Fault α) : (Run.lift answer).Steady := fun _ _ => rfl

theorem steady_trace (line : Text) : (Run.trace line).Steady := fun _ _ => rfl

theorem Steady.bind (first : m.Steady) (next : ∀ a, (f a).Steady) : (m >>= f).Steady := by
  intro s t
  have same := first s t
  rw [outcome_bind, outcome_bind]
  cases left : m.outcome s with
  | mk answer s' =>
    cases right : m.outcome t with
    | mk answer' t' =>
      rw [left, right] at same
      obtain rfl : answer = answer' := same
      cases answer with
      | error fault => rfl
      | ok a => exact next a s' t'

/-- One answer of a steady computation is its answer in every session. -/
theorem Steady.always (steady : m.Steady) (answered : m.Answers s a t) : m.Always a := by
  intro u
  have same := steady s u
  rw [show m.outcome s = (.ok a, t) from answered] at same
  exact ⟨(m.outcome u).2, Prod.ext same.symm rfl⟩

theorem Always.ends {holds : α → Prop} (settled : m.Always a) (here : holds a) : m.Ends holds := by
  intro s b t answered
  exact settled.unique answered ▸ here

theorem Ends.bind {holds : β → Prop} (next : ∀ a, (f a).Ends holds) : (m >>= f).Ends holds := by
  intro s b u answered
  obtain ⟨a, t, _, last⟩ := answers_bind_iff.mp answered
  exact next a t b u last

theorem faults_or_answers (m : Run α) (s : Session) :
    (∃ fault, m.Faults s fault) ∨ ∃ a t, m.Answers s a t := by
  cases run : m.outcome s with
  | mk answer t =>
    cases answer with
    | error fault => exact .inl ⟨fault, t, run⟩
    | ok a => exact .inr ⟨a, t, run⟩

theorem Steady.always_or_fails (steady : m.Steady) : (∃ a, m.Always a) ∨ m.Fails := by
  rcases faults_or_answers m {} with ⟨fault, t, refused⟩ | ⟨a, t, answered⟩
  · refine .inr fun s => ⟨fault, (m.outcome s).2, ?_⟩
    have same := steady {} s
    rw [refused] at same
    exact Prod.ext same.symm rfl
  · exact .inl ⟨a, steady.always answered⟩

section Agreement

variable {m' : Run α} {f' : α → Run β} {cause weaker : Prop}

theorem Fails.bind (fails : m.Fails) : (m >>= f).Fails := by
  intro s
  obtain ⟨fault, refused⟩ := fails s
  exact ⟨fault, faults_bind_iff.mpr (.inl refused)⟩

theorem Always.bind_fails (first : m.Always a) (next : (f a).Fails) : (m >>= f).Fails := by
  intro s
  obtain ⟨t, answered⟩ := first s
  obtain ⟨fault, refused⟩ := next t
  exact ⟨fault, faults_bind_iff.mpr (.inr ⟨a, t, answered, refused⟩)⟩

theorem Always.agree (settled : m.Always a) : m.Agree cause m := .inl ⟨a, settled, settled⟩

theorem Agree.weaken (agree : m.Agree cause m') (weaker_of : cause → weaker) :
    m.Agree weaker m' :=
  Or.imp id (And.imp_left weaker_of) agree

/-- Behind one answer, two computations agree if what follows does. -/
theorem Always.bind_agree (first : m.Always a) (next : (f a).Agree cause (f' a)) :
    (m >>= f).Agree cause (m >>= f') := by
  rcases next with ⟨b, left, right⟩ | ⟨why, left, right⟩
  · exact .inl ⟨b, first.bind left, first.bind right⟩
  · exact .inr ⟨why, first.bind_fails left, first.bind_fails right⟩

/-- Computations that agree do so with the same answered behind them. -/
theorem Agree.bind (agree : m.Agree cause m') (next : ∀ a, ∃ b, (f a).Always b) :
    (m >>= f).Agree cause (m' >>= f) := by
  rcases agree with ⟨a, left, right⟩ | ⟨why, left, right⟩
  · obtain ⟨b, last⟩ := next a
    exact .inl ⟨b, left.bind last, right.bind last⟩
  · exact .inr ⟨why, left.bind, right.bind⟩

end Agreement

section Lists

variable {items : List α} {answers : List β}

/-- A run over a list is refused only where an item is. -/
theorem exists_faults_of_mapM (refused : (items.mapM f).Faults s fault) :
    ∃ a ∈ items, ∃ t, (f a).Faults t fault := by
  induction items generalizing s with
  | nil => exact absurd refused not_faults_pure
  | cons first rest ih =>
    simp only [List.mapM_cons, faults_bind_iff, not_faults_pure, and_false, exists_false,
      or_false] at refused
    rcases refused with here | ⟨_, t, _, later⟩
    · exact ⟨first, List.mem_cons_self, s, here⟩
    · obtain ⟨a, member, there⟩ := ih later
      exact ⟨a, List.mem_cons_of_mem first member, there⟩

/-- A run over a list answers with what the items answer with, one by one. -/
theorem forall₂_of_mapM (answered : (items.mapM f).Answers s answers t) :
    List.Forall₂ (fun a b => ∃ s t, (f a).Answers s b t) items answers := by
  induction items generalizing s t answers with
  | nil =>
    obtain ⟨rfl, _⟩ := answers_pure_iff.mp answered
    exact .nil
  | cons first rest ih =>
    simp only [List.mapM_cons, answers_bind_iff, answers_pure_iff] at answered
    obtain ⟨b, u, here, others, _, later, rfl, _⟩ := answered
    exact .cons ⟨s, u, here⟩ (ih later)

end Lists

end Run
end Schemata
