import Mathlib.Data.Set.Basic
import Schemata.Proofs.Runs
import Schemata.Proofs.Value.Symbols

/-! The symbols that computations make. `Run.Issues` follows a computation step by step and writes
down the identity of every symbol that is made on its way, also when it is refused in the end. The
supply gives them out one after the other. `Run.Gives` says of a computation that it has no symbols
but those that are known and those that it makes. -/
namespace Schemata

/-- All numbers from `start` up to `stop`, in order. -/
def Consecutive (numbers : List Nat) (start stop : Nat) : Prop :=
  numbers = List.range' start numbers.length ∧ stop = start + numbers.length

namespace Consecutive

variable {numbers more : List Nat} {start middle stop : Nat}

theorem nil (start : Nat) : Consecutive [] start start := ⟨rfl, rfl⟩

theorem append (first : Consecutive numbers start middle) (later : Consecutive more middle stop) :
    Consecutive (numbers ++ more) start stop := by
  obtain ⟨front, rfl⟩ := first
  obtain ⟨back, rfl⟩ := later
  rw [Consecutive, List.length_append, ← List.range'_append_1, ← front, ← back]
  exact ⟨rfl, Nat.add_assoc _ _ _⟩

theorem mem_iff (consecutive : Consecutive numbers start stop) {n : Nat} :
    n ∈ numbers ↔ start ≤ n ∧ n < stop := by
  obtain ⟨listed, rfl⟩ := consecutive
  rw [listed, List.mem_range'_1, List.length_range']

theorem nodup (consecutive : Consecutive numbers start stop) : numbers.Nodup := by
  rw [consecutive.1]
  exact List.nodup_range'

theorem eq_range' (consecutive : Consecutive numbers start stop) :
    numbers = List.range' start (stop - start) := by
  obtain ⟨listed, rfl⟩ := consecutive
  rw [Nat.add_sub_cancel_left, ← listed]

end Consecutive

/-- The values that a fault carries. -/
def Fault.values : Fault → List Value
  | .rejected errors _ => [errors]
  | _ => []

namespace Run

/-- Started in a session, the computation makes symbols of these identities, one after the other,
comes to an answer or a fault, and leaves a session. -/
inductive Issues : {α : Type} → Run α → Session → List Nat → Except Fault α → Session → Prop where
  | lift (answer : Except Fault α) (σ : Session) : Issues (Run.lift answer) σ [] answer σ
  | trace (line : Text) (σ : Session) : Issues (Run.trace line) σ [] (.ok ())
      (if σ.tracing then { σ with trace := line :: σ.trace } else σ)
  | fresh (description : Text) (σ : Session) : Issues (Run.freshSymbol description) σ
      [σ.nextSymbol] (.ok (.symbol σ.nextSymbol description))
      { σ with nextSymbol := σ.nextSymbol + 1 }
  | bind {m : Run α} {f : α → Run β} : Issues m σ first (.ok a) ρ → Issues (f a) ρ later answer τ →
      Issues (m >>= f) σ (first ++ later) answer τ
  | stop {m : Run α} {f : α → Run β} : Issues m σ issued (.error fault) τ →
      Issues (m >>= f) σ issued (.error fault) τ

/-- The values in what a computation comes to. -/
def found (values : α → List Value) : Except Fault α → List Value
  | .ok a => values a
  | .error fault => fault.values

/-- In every session the computation comes to an answer or a fault, and no symbols are in its values
but those that are known and those that it makes. -/
def Gives (known : Set Nat) (values : α → List Value) (m : Run α) : Prop :=
  ∀ σ, ∃ issued answer τ, m.Issues σ issued answer τ ∧
    ∀ v ∈ found values answer, v.DrawnFrom (known ∪ {identity | identity ∈ issued})

/-- Whatever symbols are known by then, the answer for a value with no others has none but those and
the ones that are made on the way to it. -/
def Honest (known : Set Nat) (values : α → List Value) (f : Value → Run α) : Prop :=
  ∀ more, known ⊆ more → ∀ v, v.DrawnFrom more → (f v).Gives more values

variable {m : Run α} {f : α → Run β} {σ τ : Session} {issued : List Nat} {answer : Except Fault α}
  {a : α} {known : Set Nat} {values : α → List Value} {others : β → List Value}

theorem Issues.outcome (issues : m.Issues σ issued answer τ) : m.outcome σ = (answer, τ) := by
  induction issues with
  | lift | trace | fresh => rfl
  | bind _ _ first next =>
    rw [outcome_bind, first]
    exact next
  | stop _ first => rw [outcome_bind, first]

/-- The supply counts: the symbols that are made are those from the next one on. -/
theorem Issues.consecutive (issues : m.Issues σ issued answer τ) :
    Consecutive issued σ.nextSymbol τ.nextSymbol := by
  induction issues with
  | lift => exact .nil _
  | trace line σ =>
    split
    · exact .nil _
    · exact .nil _
  | fresh => exact ⟨rfl, rfl⟩
  | bind _ _ first later => exact first.append later
  | stop _ ih => exact ih

theorem nextSymbol_of_trace {line : Text} (traced : (Run.trace line).Answers σ () τ) :
    τ.nextSymbol = σ.nextSymbol := by
  have issues := Issues.trace line σ
  obtain ⟨_, rfl⟩ := Prod.mk.inj (issues.outcome.symm.trans traced)
  exact issues.consecutive.2

theorem issues_pure (a : α) (σ : Session) : (pure a : Run α).Issues σ [] (.ok a) σ := .lift (.ok a) σ

section Gives

theorem gives_lift {x : Except Fault α} (drawn : ∀ v ∈ found values x, v.DrawnFrom known) :
    (Run.lift x).Gives known values :=
  fun σ => ⟨[], x, σ, .lift x σ, fun v member => (drawn v member).mono Set.subset_union_left⟩

theorem gives_lift_iff {x : Except Fault α} :
    (Run.lift x).Gives known values ↔ ∀ v ∈ found values x, v.DrawnFrom known := by
  refine ⟨fun gives => ?_, gives_lift⟩
  obtain ⟨issued, answer, τ, issues, drawn⟩ := gives {}
  obtain ⟨rfl, rfl⟩ : x = answer ∧ ({} : Session) = τ := Prod.mk.inj issues.outcome
  obtain rfl : issued = [] := List.eq_nil_iff_forall_not_mem.mpr fun identity member =>
    Nat.not_lt_zero identity (issues.consecutive.mem_iff.mp member).2
  simpa using drawn

theorem gives_pure (drawn : ∀ v ∈ values a, v.DrawnFrom known) : (pure a : Run α).Gives known values :=
  gives_lift (x := .ok a) drawn

theorem gives_pure_one {v : Value} (one : values a = [v]) (drawn : v.DrawnFrom known) :
    (pure a : Run α).Gives known values :=
  gives_pure (one ▸ List.forall_mem_singleton.mpr drawn)

theorem gives_pure_two {v w : Value} (two : values a = [v, w]) (first : v.DrawnFrom known)
    (second : w.DrawnFrom known) : (pure a : Run α).Gives known values :=
  gives_pure (two ▸ List.forall_mem_cons.mpr ⟨first, List.forall_mem_singleton.mpr second⟩)

theorem gives_throw {fault : Fault} (drawn : ∀ v ∈ fault.values, v.DrawnFrom known) :
    (throw fault : Run α).Gives known values :=
  gives_lift (x := .error fault) drawn

theorem gives_trace (line : Text) : (Run.trace line).Gives known fun _ => [] :=
  fun σ => ⟨[], .ok (), _, .trace line σ, fun _ member => absurd member List.not_mem_nil⟩

theorem gives_freshSymbol (description : Text) :
    (Run.freshSymbol description).Gives known fun v => [v] := by
  intro σ
  refine ⟨_, _, _, .fresh description σ, List.forall_mem_singleton.mpr ?_⟩
  exact Value.drawn_symbol_iff.mpr (.inr List.mem_cons_self)

/-- The second computation may have the symbols of the first. -/
theorem Gives.bind (first : m.Gives known values)
    (next : ∀ more, known ⊆ more → ∀ a, (∀ v ∈ values a, v.DrawnFrom more) →
      (f a).Gives more others) : (m >>= f).Gives known others := by
  intro σ
  obtain ⟨issued, answer, ρ, issues, drawn⟩ := first σ
  cases answer with
  | error fault => exact ⟨issued, .error fault, ρ, issues.stop, drawn⟩
  | ok a =>
    obtain ⟨later, answer, τ, last, drawn⟩ := next _ Set.subset_union_left a drawn ρ
    refine ⟨issued ++ later, answer, τ, issues.bind last, fun v member => ?_⟩
    refine (drawn v member).mono fun identity => ?_
    simp only [Set.mem_union, Set.mem_ofPred_eq, List.mem_append, or_assoc, imp_self]

/-- What an answer has is known or has been made since. -/
theorem Gives.drawn (gives : m.Gives known values) (answered : m.Answers σ a τ) :
    ∀ v ∈ values a, v.DrawnFrom
      (known ∪ {identity | σ.nextSymbol ≤ identity ∧ identity < τ.nextSymbol}) := by
  obtain ⟨issued, answer, ρ, issues, drawn⟩ := gives σ
  obtain ⟨rfl, rfl⟩ := Prod.mk.inj (issues.outcome.symm.trans answered)
  intro v member
  refine (drawn v member).mono fun identity => ?_
  simp only [Set.mem_union, Set.mem_ofPred_eq, issues.consecutive.mem_iff, imp_self]

theorem Honest.mono {more : Set Nat} {f : Value → Run α} (honest : Honest known values f)
    (grown : known ⊆ more) : Honest more values f :=
  fun most wider => honest most (grown.trans wider)

end Gives

end Run
end Schemata
