import Schemata.Proofs.Path.Grammar
import Schemata.Schema.Shape

/-! How many spellings a path has. Without brackets there is one: such a path is the texts of its
steps with dots between them. With brackets there are more, as an index may stand in them with zeros
in front of it or be a segment of its own. Keys are told apart by their texts and nested by their
steps, so two spellings of one path are neither the same key nor one inside the other. -/
namespace Schemata

namespace Path

theorem text_segmentStep (segment : Text) : (segmentStep segment).text = segment := by
  unfold segmentStep
  split
  · rename_i index
    simp only [Bool.and_eq_true, isIndexText, Bool.not_eq_true', List.isEmpty_eq_false_iff,
      decide_eq_true_eq, Bool.or_eq_true, beq_iff_eq, bne_iff_ne] at index
    obtain ⟨⟨⟨ne_nil, _⟩, run⟩, plain⟩ := index
    exact Text.ofNat_toNat run ne_nil plain
  · rfl

/-- A text without brackets is the texts of its steps with dots between them. -/
theorem Splits.joined {t : Text} {parts : List Part} (splits : Splits t parts) (dotted : 91 ∉ t)
    (closed : t.getLast? ≠ some 46) :
    [46].intercalate (parts.map fun part => part.step.text) = t := by
  induction splits with
  | nil => rfl
  | bracket | bracketDot => exact absurd List.mem_cons_self dotted
  | segment => rw [List.map_singleton, List.intercalate_singleton, Part.step, text_segmentStep]
  | @segmentDot text rest parts _ splits ih =>
    have more : rest ≠ [] := by
      rintro rfl
      simp at closed
    have closed' : rest.getLast? ≠ some 46 := by
      intro trailing
      rw [List.getLast?_append, List.getLast?_cons, trailing] at closed
      exact closed rfl
    have dotted' : 91 ∉ rest :=
      fun member => dotted (List.mem_append_right _ (List.mem_cons_of_mem _ member))
    have joined := ih dotted' closed'
    obtain ⟨first, others, rfl⟩ := List.exists_cons_of_ne_nil (splits.ne_nil more)
    rw [List.map_cons] at joined
    rw [List.map_cons, List.map_cons, List.intercalate_cons_cons, joined, Part.step,
      text_segmentStep, List.append_assoc]
    rfl
  | segmentBracket => exact absurd (List.mem_append_right _ List.mem_cons_self) dotted

theorem intercalate_of_parse {path : Text} {steps : List Step} (parsed : parse path = .ok steps)
    (dotted : 91 ∉ path) : [46].intercalate (steps.map Step.text) = path := by
  obtain ⟨_, _, closed, parts, splits, rfl⟩ := parse_eq_ok_iff.mp parsed
  rw [List.map_map]
  exact splits.joined dotted closed

/-- Keys of two places of which neither is the other or lies inside it. -/
def Separate (key other : Text) : Prop :=
  ∃ p q, parse key = .ok p ∧ parse other = .ok q ∧ p ≠ q ∧ Shape.isInside p q = false ∧
    Shape.isInside q p = false

/-- Two keys of one place. -/
def Respelled (key other : Text) : Prop :=
  key ≠ other ∧ ∃ steps, parse key = .ok steps ∧ parse other = .ok steps

/-- Of two spellings of a path one at least has a bracket. -/
theorem Respelled.bracketed {key other : Text} (respelled : Respelled key other) :
    91 ∈ key ∨ 91 ∈ other := by
  obtain ⟨different, steps, left, right⟩ := respelled
  by_contra dotted
  rw [not_or] at dotted
  apply different
  rw [← intercalate_of_parse left dotted.1, ← intercalate_of_parse right dotted.2]

end Path

namespace Shape

theorem isInside_self (steps : List Path.Step) : isInside steps steps = false := by
  simp [isInside]

end Shape
end Schemata
