import Schemata.Pattern
import Schemata.Proofs.Text

/-! Reading a source part by part. A part stands for its tokens whatever follows it, so the tokens of a
source are those of its parts. An interval then puts copies in the place of the term before it, as long
as there is room for them. -/
namespace Schemata.Regex

/-- Whatever follows the part, it stands for the tokens. -/
def Scans (ignoreCase : Bool) (part : Text) (tokens : List Token) : Prop :=
  ∀ n rest more, tokens? ignoreCase n rest = some more →
    tokens? ignoreCase (n + part.length) (part ++ rest) = some (tokens ++ more)

variable {ignoreCase : Bool} {part part' rest : Text} {tokens tokens' more : List Token}

/-- More steps than are needed change nothing. -/
theorem tokens?_add {n : Nat} (scanned : tokens? ignoreCase n rest = some tokens) (k : Nat) :
    tokens? ignoreCase (n + k) rest = some tokens := by
  induction n generalizing rest tokens with
  | zero =>
    cases rest with
    | nil => cases k <;> exact scanned
    | cons b t => cases scanned
  | succ n ih =>
    rw [Nat.succ_add]
    cases rest with
    | nil => exact scanned
    | cons b t =>
      rw [tokens?] at scanned ⊢
      cases found : token? ignoreCase b t with
      | none => rw [found] at scanned; cases scanned
      | some first =>
        rw [found] at scanned
        obtain ⟨others, behind, joined⟩ := Option.map_eq_some_iff.mp scanned
        exact Option.map_eq_some_iff.mpr ⟨others, ih behind, joined⟩

namespace Scans

theorem append (first : Scans ignoreCase part tokens) (second : Scans ignoreCase part' tokens') :
    Scans ignoreCase (part ++ part') (tokens ++ tokens') := by
  intro n rest more scanned
  rw [List.append_assoc, List.append_assoc, List.length_append, Nat.add_comm part.length,
    ← Nat.add_assoc]
  exact first _ _ _ (second n rest more scanned)

/-- One token, if the bytes behind it do not matter. -/
theorem token {b : UInt8} {t : Text} {token : Token}
    (found : ∀ rest, token? ignoreCase b (t ++ rest) = some (token, rest)) :
    Scans ignoreCase (b :: t) [token] := by
  intro n rest more scanned
  rw [List.length_cons, ← Nat.add_assoc, List.cons_append, tokens?, found]
  exact congrArg (Option.map _) (tokens?_add scanned t.length)

/-- A count in braces. -/
theorem interval (ignoreCase : Bool) (n : Nat) :
    Scans ignoreCase (123 :: (Text.ofNat n ++ [125])) [.interval n (some n)] := by
  refine token fun rest => ?_
  have digits := Text.all_isDigit_ofNat n
  have ends : ∀ b ∈ (125 :: rest : Text).head?, Text.isDigit b = false := by
    rintro _ ⟨⟩
    decide
  have counted : count? (Text.ofNat n ++ 125 :: rest) = some (n, 125 :: rest) := by
    rw [count?, Text.takeWhile_isDigit_append digits ends, Text.dropWhile_isDigit_append digits ends,
      Text.toNat_ofNat]
    exact if_neg (by simpa using Text.ofNat_ne_nil n)
  rw [List.append_assoc, List.singleton_append]
  exact congrArg (Option.bind · _) counted

theorem scan?_append (scans : Scans ignoreCase part tokens)
    (scanned : scan? ignoreCase rest = some more) :
    scan? ignoreCase (part ++ rest) = some (tokens ++ more) := by
  rw [scan?, List.length_append, Nat.add_comm]
  exact scans _ rest more scanned

end Scans

theorem Progress.repeat?_push (p : Progress) (accepts : ByteSet) (n : Nat) :
    (p.push (byte accepts) true).repeat? false n (some n) =
      if n + 3 + p.replaced ≤ stateLimit then
        some { p.push (repeated false (byte accepts) n (some n)) true with
          replaced := p.replaced + 1 }
      else none := by
  have room : repeatedStates 1 n (some n) + (p.replaced + 1) ≤ stateLimit ↔
      n + 3 + p.replaced ≤ stateLimit := by
    rw [repeatedStates]
    omega
  simp only [repeat?, push, Frame.push, quantify?, states, Nat.le_refl, decide_true, Bool.true_and,
    room, decide_eq_true_eq]

theorem states_repeated_byte (accepts : ByteSet) (n : Nat) :
    (repeated false (byte accepts) n (some n)).states = n + 2 := by
  have copies : ((List.replicate n (byte accepts)).foldr seq empty).states = n + 1 := by
    induction n with
    | zero => rfl
    | succ n ih =>
      rw [List.replicate_succ, List.foldr_cons, states, ih, states]
      omega
  rw [repeated, Nat.sub_self, atMost, states, copies, states]
  omega

end Schemata.Regex
