import Schemata.Proofs.Constraint.Registry

/-! Lengths of strings. A length counts the bytes that do not continue a UTF-8 sequence. Every character
is encoded by one such byte and up to three that continue it, so the length of an encoded text is how
many characters it has, and the rules on lengths ask about that number. -/
namespace Schemata

namespace Text

theorem codePoints_append (s t : Text) : (s ++ t).codePoints = s.codePoints + t.codePoints :=
  List.countP_append

/-- The bytes that continue a sequence are those from 128 up to 191. -/
theorem continues_iff (b : UInt8) : b &&& 0xC0 = 0x80 ↔ 128 ≤ b.toNat ∧ b.toNat < 192 := by
  have all : ∀ k < 256, UInt8.ofNat k &&& 0xC0 = 0x80 ↔ 128 ≤ k ∧ k < 192 := by decide +kernel
  have here := all b.toNat b.toNat_lt
  rwa [UInt8.ofNat_toNat] at here

theorem codePoints_leading {k : Nat} (byte : k < 256) (leading : k < 128 ∨ 192 ≤ k) (t : Text) :
    codePoints (.ofNat k :: t) = codePoints t + 1 := by
  refine List.countP_cons_of_pos ?_
  rw [bne_iff_ne, ne_eq, continues_iff, UInt8.toNat_ofNat_of_lt' byte]
  omega

theorem codePoints_continuing {k : Nat} (least : 128 ≤ k) (most : k < 192) (t : Text) :
    codePoints (.ofNat k :: t) = codePoints t := by
  refine List.countP_cons_of_neg ?_
  rw [bne_iff_ne, ne_eq, not_not, continues_iff, UInt8.toNat_ofNat_of_lt' (show k < 256 by omega)]
  exact ⟨least, most⟩

/-- Whether it takes one, two, three or four bytes, a character is one code point. -/
theorem codePoints_utf8EncodeChar (c : Char) : codePoints (String.utf8EncodeChar c) = 1 := by
  unfold String.utf8EncodeChar
  generalize c.val.toNat = v
  dsimp only
  have tail (k : Nat) (t : Text) : codePoints (.ofNat (k % 64 + 128) :: t) = codePoints t :=
    codePoints_continuing (by omega) (by omega) t
  split_ifs with one two three
  · rw [codePoints_leading (by omega) (by omega)]
    rfl
  · rw [codePoints_leading (by omega) (by omega), tail]
    rfl
  · rw [codePoints_leading (by omega) (by omega), tail, tail]
    rfl
  · rw [codePoints_leading (by omega) (by omega), tail, tail, tail]
    rfl

theorem codePoints_encoded (cs : List Char) :
    codePoints (cs.flatMap String.utf8EncodeChar) = cs.length := by
  induction cs with
  | nil => rfl
  | cons c cs ih =>
    rw [List.flatMap_cons, codePoints_append, codePoints_utf8EncodeChar, ih, List.length_cons,
      Nat.add_comm]

end Text

/-- A constraint on strings that has this rule alone says nothing against the text if the condition holds.
Else it says just the rule's message, or the check's own if that is empty. -/
def Check.Demands (check : Check) (t : Text) (condition : Prop) : Prop :=
  ∀ message, ∃ c, (Constraint.ofKind .string).register (.check check) message = .ok c ∧
    (condition → c.violations (.string t) = .ok []) ∧
    (¬ condition → c.violations (.string t) =
      .ok [if message.isEmpty then check.message (.string t) else message])

theorem Check.demands_of_accepts {check : Check} {t : Text} {condition : Prop} [Decidable condition]
    (checked : check.accepts (.string t) = .ok (decide condition)) : check.Demands t condition := by
  intro message
  obtain ⟨c, registered, judged⟩ := Constraint.violations_alone rfl checked message
  refine ⟨c, registered, fun holds => ?_, fun fails => ?_⟩
  · rw [judged, decide_eq_true holds]
    rfl
  · rw [judged, decide_eq_false fails]
    rfl

/-- Lengths count characters: an encoded text is as long as its list of characters, and the three rules
compare that number with theirs. The lengths of any two texts, encoded or not, add up. -/
theorem lengths_count_characters :
    (∀ cs : List Char, Text.codePoints (cs.flatMap String.utf8EncodeChar) = cs.length) ∧
    (∀ (cs : List Char) (n : Nat),
      (Check.minLength n).Demands (cs.flatMap String.utf8EncodeChar) (n ≤ cs.length) ∧
      (Check.maxLength n).Demands (cs.flatMap String.utf8EncodeChar) (cs.length ≤ n) ∧
      (Check.exactLength n).Demands (cs.flatMap String.utf8EncodeChar) (cs.length = n)) ∧
    (∀ s t : Text, (s ++ t).codePoints = s.codePoints + t.codePoints) := by
  refine ⟨Text.codePoints_encoded, fun cs n => ?_, Text.codePoints_append⟩
  have counted := Text.codePoints_encoded cs
  refine ⟨Check.demands_of_accepts ?_, Check.demands_of_accepts ?_, Check.demands_of_accepts ?_⟩
  · rw [Check.accepts, Value.asString, ← counted]
    rfl
  · rw [Check.accepts, Value.asString, ← counted]
    rfl
  · rw [Check.accepts, Value.asString, ← counted]
    rfl

end Schemata
