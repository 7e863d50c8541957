import Mathlib.Data.List.Chain
import Schemata.Schema.Node
import Schemata.Proofs.Runs

/-! Nodes and the reverses that they keep. What reversing answers, or why it is refused, is the same in
every session, and making a node nullable or nullish before it is reversed comes to the same as
afterwards. So each level of a node stays the reverse of the level before: that is the invariant of all
that is done to a node, and by it a kept reverse is the one that would be built now. -/
namespace Schemata

namespace Schema

mutual

theorem reverse_steady : (s : Schema) → (reverse s).Steady
  | leaf d o => by
    unfold reverse
    exact (Run.steady_trace _).bind fun _ => Run.steady_pure _
  | array d o element => by
    unfold reverse
    exact (Run.steady_trace _).bind fun _ => (reverse_steady element).bind fun _ => Run.steady_pure _
  | set d o element => by
    unfold reverse
    exact (Run.steady_trace _).bind fun _ => (reverse_steady element).bind fun _ => Run.steady_pure _
  | map d o key value => by
    unfold reverse
    exact (Run.steady_trace _).bind fun _ => (reverse_steady value).bind fun _ => Run.steady_pure _
  | object d o all => by
    unfold reverse
    exact (Run.steady_trace _).bind fun _ => (Run.steady_lift _).bind fun _ =>
      (reverseShape_steady [] all).bind fun _ => Run.steady_lift _

theorem reverseShape_steady : (seen : List Text) → (all : List (Property Schema)) →
    (reverseShape seen all).Steady
  | _, [] => Run.steady_pure _
  | seen, p :: rest => by
    unfold reverseShape
    split
    · exact (Run.steady_throw _).bind fun _ => (reverse_steady p.node).bind fun _ =>
        (reverseShape_steady _ rest).bind fun _ => Run.steady_pure _
    · exact (reverse_steady p.node).bind fun _ =>
        (reverseShape_steady _ rest).bind fun _ => Run.steady_pure _

end

variable {s r : Schema} {change : Constraint → Constraint}

/-- The schema with its constraint changed. -/
def amend (change : Constraint → Constraint) (s : Schema) : Schema :=
  s.withConstraint (change s.definition.constraint)

/-- A change that can be made before or after the definition of an object is reversed. -/
def Commutes (change : Constraint → Constraint) : Prop :=
  ∀ d : Definition, reverseDefinition { d with constraint := change d.constraint } =
    { reverseDefinition d with constraint := change (reverseDefinition d).constraint }

theorem commutes_nullable : Commutes Constraint.nullable := by
  rintro ⟨⟨expected, convert, rules, allowsNull, allowsUndefined⟩, coercion, description⟩
  cases allowsUndefined <;> cases allowsNull <;> rfl

theorem commutes_nullish : Commutes Constraint.nullish := by
  rintro ⟨⟨expected, convert, rules, allowsNull, allowsUndefined⟩, coercion, description⟩
  cases allowsUndefined <;> cases allowsNull <;> rfl

/-- A change of a node reaches its reverse: the reverse of the changed node is the changed reverse. -/
theorem reverse_amend (commutes : Commutes change) (reversed : (reverse s).Always r) :
    (reverse (s.amend change)).Always (r.amend change) := by
  intro σ
  obtain ⟨τ, answered⟩ := reversed σ
  refine ⟨τ, ?_⟩
  cases s with
  | leaf d o =>
    simp only [reverse, amend, withConstraint, withDefinition, definition, Run.answers_bind_iff,
      Run.answers_pure_iff] at answered ⊢
    obtain ⟨_, _, traced, rfl, same⟩ := answered
    exact ⟨_, _, traced, rfl, same⟩
  | array d o element | set d o element | map d o key element =>
    simp only [reverse, amend, withConstraint, withDefinition, definition, Run.answers_bind_iff,
      Run.answers_pure_iff] at answered ⊢
    obtain ⟨_, _, traced, target, _, part, rfl, same⟩ := answered
    exact ⟨_, _, traced, target, _, part, rfl, same⟩
  | object d o all =>
    simp only [reverse, amend, withConstraint, withDefinition, definition, Run.answers_bind_iff,
      Run.answers_lift_iff] at answered ⊢
    obtain ⟨_, _, traced, _, _, checked, shape, _, parts, made, same⟩ := answered
    obtain ⟨targets, listed, rfl⟩ := map_eq_ok_iff.mp made
    refine ⟨_, _, traced, _, _, checked, shape, _, parts, ?_, same⟩
    rw [commutes d, objectWith, listed]
    rfl

/-- The reverse of the reverse, and so on, this many times over, each built from the one before. -/
def reverseTimes : Nat → Schema → Run Schema
  | 0, s => return s
  | times + 1, s => do reverse (← reverseTimes times s)

end Schema

namespace Node

variable {n m : Node} {depth : Nat} {s r : Schema} {change : Constraint → Constraint}
  {σ τ ρ : Session}

/-- The reverse of one of the levels of a node: the one that is kept or, at the last level, a new
one, which is kept from then on. -/
def reverseAt (n : Node) (depth : Nat) : Run (Schema × Node) :=
  match n.reverses[depth]? with
  | some kept => return (kept, n)
  | none => do
    let extended ← n.extend
    return (extended.last, extended)

/-- Each level is what the level before it comes to when it is reversed. -/
def UpToDate (n : Node) : Prop := n.levels.IsChain fun s r => (Schema.reverse s).Always r

theorem levels_getLast? (n : Node) : n.levels.getLast? = some n.last := by
  rw [levels, last, List.getLast?_cons]

theorem upToDate_ofSchema (s : Schema) : (ofSchema s).UpToDate := .singleton s

theorem UpToDate.mapLevels (current : n.UpToDate) (commutes : Schema.Commutes change) :
    (n.mapLevels (Schema.amend change)).UpToDate := by
  unfold UpToDate
  rw [show (n.mapLevels (Schema.amend change)).levels = n.levels.map (Schema.amend change) from rfl]
  exact List.isChain_map_of_isChain _ (fun _ _ reversed => Schema.reverse_amend commutes reversed)
    current

theorem UpToDate.nullable (current : n.UpToDate) : n.nullable.UpToDate :=
  current.mapLevels Schema.commutes_nullable

theorem UpToDate.nullish (current : n.UpToDate) : n.nullish.UpToDate :=
  current.mapLevels Schema.commutes_nullish

theorem extend_answers (answered : n.extend.Answers σ m τ) :
    ∃ r, (Schema.reverse n.last).Answers σ r τ ∧ m.levels = n.levels ++ [r] := by
  simp only [extend, Run.answers_bind_iff, Run.answers_pure_iff] at answered
  obtain ⟨r, _, reversed, rfl, rfl⟩ := answered
  exact ⟨r, reversed, rfl⟩

theorem UpToDate.extend (current : n.UpToDate) (answered : n.extend.Answers σ m τ) :
    m.UpToDate := by
  obtain ⟨r, reversed, levels⟩ := extend_answers answered
  unfold UpToDate
  rw [levels]
  refine current.append (.singleton r) ?_
  simp only [levels_getLast?, Option.mem_def, Option.some.injEq, List.head?_cons]
  rintro _ rfl _ rfl
  exact (Schema.reverse_steady _).always reversed

theorem UpToDate.reverseAt (current : n.UpToDate)
    (answered : (n.reverseAt depth).Answers σ (r, m) τ) : m.UpToDate := by
  unfold Node.reverseAt at answered
  split at answered
  · simp only [Run.answers_pure_iff, Prod.mk.injEq] at answered
    obtain ⟨⟨_, rfl⟩, _⟩ := answered
    exact current
  · simp only [Run.answers_bind_iff, Run.answers_pure_iff, Prod.mk.injEq] at answered
    obtain ⟨_, _, extended, ⟨_, rfl⟩, _⟩ := answered
    exact current.extend extended

/-- A level that is kept is what building it from the node itself gives. -/
theorem UpToDate.level (current : n.UpToDate) (kept : n.levels[depth]? = some s) :
    (Schema.reverseTimes depth n.schema).Always s := by
  induction depth generalizing s with
  | zero =>
    obtain rfl : n.schema = s := Option.some.inj kept
    exact Run.always_pure
  | succ depth ih =>
    obtain ⟨inside, rfl⟩ := List.getElem?_eq_some_iff.mp kept
    have before := ih (List.getElem?_eq_getElem (Nat.lt_of_succ_lt inside))
    exact before.bind (current.getElem depth inside)

theorem length_levels_of_absent (inside : depth < n.levels.length)
    (absent : n.reverses[depth]? = none) : depth + 1 = n.levels.length := by
  have outside := List.getElem?_eq_none_iff.mp absent
  simp only [levels, List.length_cons] at inside ⊢
  omega

theorem getElem?_of_absent (inside : depth < n.levels.length)
    (absent : n.reverses[depth]? = none) : n.levels[depth]? = some n.last := by
  rw [← levels_getLast?, List.getLast?_eq_getElem?, ← length_levels_of_absent inside absent]
  rfl

/-- What is asked of a level for its reverse is answered, or refused, as if all were built now. -/
theorem UpToDate.reverseAt_eq (current : n.UpToDate) (inside : depth < n.levels.length)
    (σ τ : Session) : ((Prod.fst <$> n.reverseAt depth).outcome σ).1 =
      ((Schema.reverseTimes (depth + 1) n.schema).outcome τ).1 := by
  unfold Node.reverseAt
  split
  · rename_i kept found
    have later : n.levels[depth + 1]? = some kept := found
    obtain ⟨ρ, answered⟩ := current.level later τ
    rw [show _ = _ from answered]
    rfl
  · rename_i absent
    have outer := current.level (getElem?_of_absent inside absent)
    obtain ⟨ρ, answered⟩ := outer τ
    have grown : (Prod.fst <$> do
        let extended ← n.extend
        return (extended.last, extended)) = Schema.reverse n.last := by
      rw [Node.extend]
      simp [last]
    rw [grown, Schema.reverseTimes, Run.outcome_bind, show _ = _ from answered]
    exact Schema.reverse_steady n.last σ ρ

/-- The reverse that a level answers with is the one that is kept from then on. -/
theorem reverseAt_kept (inside : depth < n.levels.length)
    (answered : (n.reverseAt depth).Answers σ (r, m) τ) : m.levels[depth + 1]? = some r := by
  unfold Node.reverseAt at answered
  split at answered
  · rename_i kept found
    simp only [Run.answers_pure_iff, Prod.mk.injEq] at answered
    obtain ⟨⟨rfl, rfl⟩, _⟩ := answered
    exact found
  · rename_i absent
    simp only [Run.answers_bind_iff, Run.answers_pure_iff, Prod.mk.injEq] at answered
    obtain ⟨_, _, grown, ⟨rfl, rfl⟩, _⟩ := answered
    obtain ⟨_, _, levels⟩ := extend_answers grown
    rw [← levels_getLast?, List.getLast?_eq_getElem?, levels, List.length_append,
      ← length_levels_of_absent inside absent]
    rfl

end Node
end Schemata
