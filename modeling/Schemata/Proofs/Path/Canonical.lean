import Mathlib.Data.List.TakeWhile
import Schemata.Path.Basic
import Schemata.Proofs.Runs
import Schemata.Proofs.Text

/-! Steps and their texts. Canonical steps are those that their own text, taken as a segment, reads
back as; different ones have different texts. An index below a billion is canonical, and so is what a
segment is read as. -/
namespace Schemata

namespace Path

/-- A step as a path of its own; the key that it stands for in an object. -/
def Step.text : Step → Text
  | .key name => name
  | .index n => Text.ofNat n

/-- Steps that their own text reads back as. -/
structure Step.Canonical (step : Step) : Prop where
  reads_back : segmentStep step.text = step
  ne_nil : step.text ≠ []
  unbroken : ∀ b ∈ step.text, endsSegment b = false

theorem Step.Canonical.eq_of_text_eq {a b : Step} (ha : a.Canonical) (hb : b.Canonical)
    (same : a.text = b.text) : a = b := by
  rw [← ha.reads_back, ← hb.reads_back, same]

theorem segmentStep_ofNat {n : Nat} (small : n < Nat.pow 10 9) :
    segmentStep (Text.ofNat n) = .index n := by
  have short := Text.length_ofNat_le (k := 8) small
  have index : isIndexText (Text.ofNat n) = true := by
    simp [isIndexText, Text.ofNat_ne_nil, Text.all_isDigit_ofNat, short]
  have plain : ((Text.ofNat n).length == 1 || (Text.ofNat n).head? != some 48) = true := by
    by_cases large : 10 ≤ n
    · simp [Text.head?_ofNat_ne_zero large]
    · rw [Text.ofNat, if_pos (by omega)]
      rfl
  rw [segmentStep, index, plain, Text.toNat_ofNat]
  rfl

theorem endsSegment_eq_false_of_isDigit {b : UInt8} (digit : Text.isDigit b = true) :
    endsSegment b = false := by
  simp only [Text.isDigit, Bool.and_eq_true, decide_eq_true_eq, UInt8.le_iff_toNat_le] at digit
  have lower : 48 ≤ b.toNat := digit.1
  have upper : b.toNat ≤ 57 := digit.2
  simp only [endsSegment, Bool.or_eq_false_iff, beq_eq_false_iff_ne, ne_eq]
  constructor
  · rintro rfl
    exact absurd lower (by decide)
  · rintro rfl
    exact absurd upper (by decide)

theorem index_canonical {n : Nat} (small : n < Nat.pow 10 9) : (Step.index n).Canonical where
  reads_back := segmentStep_ofNat small
  ne_nil := Text.ofNat_ne_nil n
  unbroken := fun b member => endsSegment_eq_false_of_isDigit
    (List.all_eq_true.mp (Text.all_isDigit_ofNat n) b member)

theorem toNat_lt_of_isIndexText {t : Text} (index : isIndexText t = true) :
    t.toNat < Nat.pow 10 9 := by
  simp only [isIndexText, Bool.and_eq_true, decide_eq_true_eq] at index
  exact Nat.lt_of_lt_of_le (Text.toNat_lt t index.2)
    (Nat.pow_le_pow_right (by decide) index.1.2)

theorem segmentStep_canonical {segment : Text} (ne_nil : segment ≠ [])
    (unbroken : ∀ b ∈ segment, endsSegment b = false) : (segmentStep segment).Canonical := by
  unfold segmentStep
  split
  · rename_i index
    simp only [Bool.and_eq_true] at index
    exact index_canonical (toNat_lt_of_isIndexText index.1)
  · rename_i key
    exact ⟨by rw [Step.text, segmentStep, if_neg key], ne_nil, unbroken⟩

theorem readSteps_error {path t : Text} {fault : Fault} (refused : readSteps path t = .error fault) :
    fault.category = .invalidArgument := by
  fun_induction readSteps path t with
  | case1 => cases refused
  | case2 | case4 | case5 =>
    cases refused
    rfl
  | case3 | case6 =>
    rename_i ih
    exact ih (map_eq_error_iff.mp refused)

/-- A path that is refused is malformed. -/
theorem parse_error {path : Text} {fault : Fault} (refused : parse path = .error fault) :
    fault.category = .invalidArgument := by
  unfold parse at refused
  split at refused
  · cases refused
    rfl
  · split at refused
    · cases refused
      rfl
    · split at refused
      · cases refused
        rfl
      · exact readSteps_error refused

end Path
end Schemata
