import Schemata.Proofs.Regex.Scanning

/-! The expressions that the patterns for date-times compile to. Whatever the number of digits of the
fraction, the source is read as the terms for a date and a time of day, a fraction and a zone, between
two anchors; the pattern does not compile only where the digits take more states than there are. -/
namespace Schemata.Pattern.Datetime

open Regex

/-- As many digits. -/
def digits (n : Nat) : Regex := .repeated false (.byte Text.isDigit) n (some n)

def byte (b : UInt8) : Regex := .byte (.single false b)

def sign : ByteSet := .union (.union (fun _ => false) (.single false 43)) (.single false 45)

/-- The date and the time of day to the second. -/
def stem : List Regex :=
  [digits 4, byte 45, digits 2, byte 45, digits 2, byte 84, digits 2, byte 58, digits 2, byte 58,
    digits 2]

def fraction : FractionDigits → List Regex
  | .any =>
    [seq
      (optional false (group 1 (Regex.sequence [byte 46, plus false (.byte Text.isDigit)]))) empty]
  | .exactly n => if 0 < n then [byte 46, digits n.toNat] else []

/-- How many captures have begun before the zone, the whole match among them. -/
def captures : FractionDigits → Nat
  | .any => 2
  | .exactly _ => 1

def zone (captures : Nat) : Bool → List Regex
  | true =>
    [group captures (alt
      (Regex.sequence [group (captures + 1) (Regex.sequence [.byte sign, digits 2, byte 58, digits 2])])
      (Regex.sequence [byte 90]))]
  | false => [byte 90]

def terms (fractionDigits : FractionDigits) (offset : Bool) : List Regex :=
  stem ++ fraction fractionDigits ++ zone (captures fractionDigits) offset

def expression (fractionDigits : FractionDigits) (offset : Bool) : Regex :=
  Regex.sequence (.lineStart :: (terms fractionDigits offset ++ [.lineEnd]))

section Scanning

def digitsSource (n : Nat) : Text := [92, 100] ++ 123 :: (Text.ofNat n ++ [125])

def stemSource : Text :=
  [94] ++ (digitsSource 4 ++ ([45] ++ (digitsSource 2 ++ ([45] ++ (digitsSource 2 ++ ([84] ++
    (digitsSource 2 ++ ([58] ++ (digitsSource 2 ++ ([58] ++ digitsSource 2))))))))))

def zoneSource (offset : Bool) : Text :=
  Text.ofString (if offset then "(([+-]\\d\x7b2\x7d:\\d\x7b2\x7d)|Z)$" else "Z$")

def digitsTokens (n : Nat) : List Token := [.byte Text.isDigit, .interval n (some n)]

def byteToken (b : UInt8) : Token := .byte (.single false b)

def stemTokens : List Token :=
  [.lineStart] ++ (digitsTokens 4 ++ ([byteToken 45] ++ (digitsTokens 2 ++ ([byteToken 45] ++
    (digitsTokens 2 ++ ([byteToken 84] ++ (digitsTokens 2 ++ ([byteToken 58] ++ (digitsTokens 2 ++
      ([byteToken 58] ++ digitsTokens 2))))))))))

def fractionTokens (n : Nat) : List Token := [byteToken 46] ++ digitsTokens n

def zoneTokens : Bool → List Token
  | true =>
    [.opening .capture, .opening .capture, .byte sign] ++ digitsTokens 2 ++ [byteToken 58] ++
      digitsTokens 2 ++ [.closing, .bar, byteToken 90, .closing, .lineEnd]
  | false => [byteToken 90, .lineEnd]

theorem scans_digits (n : Nat) : Scans false (digitsSource n) (digitsTokens n) :=
  (Scans.token (t := [100]) fun _ => rfl).append (.interval false n)

theorem scans_stem : Scans false stemSource stemTokens := by
  have start : Scans false [94] [.lineStart] := .token fun _ => rfl
  have dash : Scans false [45] [byteToken 45] := .token fun _ => rfl
  have letter : Scans false [84] [byteToken 84] := .token fun _ => rfl
  have colon : Scans false [58] [byteToken 58] := .token fun _ => rfl
  have two := scans_digits 2
  exact start.append ((scans_digits 4).append (dash.append (two.append (dash.append (two.append
    (letter.append (two.append (colon.append (two.append (colon.append two))))))))))

theorem scans_fraction (n : Nat) : Scans false ([92, 46] ++ digitsSource n) (fractionTokens n) :=
  (Scans.token (t := [46]) fun _ => rfl).append (scans_digits n)

theorem scan?_zone (offset : Bool) :
    scan? false (zoneSource offset) = some (zoneTokens offset) := by
  cases offset <;> rfl

variable {n : Nat}

theorem source_exactly (positive : 0 < n) (offset : Bool) :
    (datetime (.exactly n) offset).source =
      stemSource ++ ([92, 46] ++ digitsSource n ++ zoneSource offset) := by
  have stem : Text.ofString
      "^\\d\x7b4\x7d-\\d\x7b2\x7d-\\d\x7b2\x7dT\\d\x7b2\x7d:\\d\x7b2\x7d:\\d\x7b2\x7d" =
        stemSource := by
    cbv
  have point : Text.ofString "\\.\\d\x7b" = [92, 46] ++ [92, 100] ++ [123] := by cbv
  have natural : Text.ofInt n = Text.ofNat n := if_neg (Int.not_lt.mpr (Int.natCast_nonneg n))
  simp only [datetime, FractionDigits.source, if_pos (Int.natCast_pos.mpr positive), stem, point,
    natural, digitsSource, zoneSource, List.append_assoc, List.cons_append, List.nil_append]

theorem scan?_exactly (positive : 0 < n) (offset : Bool) :
    scan? false (datetime (.exactly n) offset).source =
      some (stemTokens ++ (fractionTokens n ++ zoneTokens offset)) := by
  rw [source_exactly positive]
  exact scans_stem.scan?_append ((scans_fraction n).scan?_append (scan?_zone offset))

end Scanning

section Compiling

variable {n : Nat} {offset : Bool}

/-- The longest fraction that there is room for. -/
def longest : Bool → Nat
  | true => 99931
  | false => 99952

/-- After the point of the fraction. -/
def pointProgress : Progress :=
  ⟨⟨.plain, 0, none, byte 46 :: (.lineStart :: stem).reverse, true⟩, [], 1, 6⟩

/-- The states that intervals have replaced, each by a copy for every repetition. -/
def replaced : Bool → Nat
  | true => 9
  | false => 7

theorem fraction_exactly (positive : 0 < n) : fraction (.exactly n) = [byte 46, digits n] := by
  rw [fraction, if_pos (Int.natCast_pos.mpr positive), Int.toNat_natCast]

theorem fits_iff (positive : 0 < n) (offset : Bool) :
    (expression (.exactly n) offset).states + replaced offset + 3 ≤ stateLimit ↔
      n ≤ longest offset := by
  cases offset <;>
    simp [expression, terms, fraction_exactly positive, stem, zone, Regex.sequence, digits, byte,
      Regex.states, states_repeated_byte, replaced, longest, stateLimit] <;>
    omega

/-- The zone is read behind any terms in the same way. -/
theorem read?_zone (f : Frame) (offset : Bool) :
    Progress.read? ⟨f, [], 1, 7⟩ (zoneTokens offset) = Progress.finish?
      ⟨((zone 1 offset).foldl (fun f term => f.push term true) f).push .lineEnd false, [],
        if offset then 3 else 1, replaced offset⟩ := by
  cases offset <;> rfl

theorem read?_ending (positive : 0 < n) (offset : Bool) :
    Progress.read? ⟨pointProgress.frame.push (digits n) true, [], 1, 7⟩ (zoneTokens offset) =
      if n ≤ longest offset then some (expression (.exactly n) offset) else none := by
  have whole : Frame.body (((zone 1 offset).foldl (fun f term => f.push term true)
      (pointProgress.frame.push (digits n) true)).push .lineEnd false) =
        expression (.exactly n) offset := by
    rw [expression, terms, fraction_exactly positive]
    cases offset <;> rfl
  rw [read?_zone, Progress.finish?]
  simp only [whole, fits_iff positive, List.isEmpty_nil, Bool.true_and, decide_eq_true_eq]

theorem read?_exactly (positive : 0 < n) (offset : Bool) :
    Progress.start.read? (stemTokens ++ (fractionTokens n ++ zoneTokens offset)) =
      if n ≤ longest offset then some (expression (.exactly n) offset) else none := by
  have reading : Progress.start.read? (stemTokens ++ (fractionTokens n ++ zoneTokens offset)) =
      ((pointProgress.push (.byte Text.isDigit) true).repeat? false n (some n)).bind fun p =>
        p.read? (zoneTokens offset) := by
    cases offset <;> rfl
  rw [reading, Progress.repeat?_push]
  by_cases fits : n + 3 + pointProgress.replaced ≤ stateLimit
  · rw [if_pos fits]
    exact read?_ending positive offset
  · have long : ¬ n ≤ longest offset := by
      cases offset <;> simp [longest, pointProgress, stateLimit] at fits ⊢ <;> omega
    rw [if_neg fits, if_neg long, Option.bind_none]

theorem compile_any (offset : Bool) :
    (datetime .any offset).compile = .ok (expression .any offset) := by
  cases offset <;> rfl

theorem compile_exactly (positive : 0 < n) (offset : Bool) :
    (datetime (.exactly n) offset).compile =
      if n ≤ longest offset then .ok (expression (.exactly n) offset)
      else .error (.invalidPattern (datetime (.exactly n) offset).source) := by
  have parsed : parse? (datetime (.exactly n) offset).ignoreCase
      (datetime (.exactly n) offset).source =
        if n ≤ longest offset then some (expression (.exactly n) offset) else none := by
    change parse? false _ = _
    rw [parse?, scan?_exactly positive, Option.bind_some, read?_exactly positive]
  rw [compile, parsed]
  by_cases fits : n ≤ longest offset
  · rw [if_pos fits, if_pos fits]
  · rw [if_neg fits, if_neg fits]

theorem compile_without {n : Int} (none : ¬ 0 < n) (offset : Bool) :
    (datetime (.exactly n) offset).compile = .ok (expression (.exactly n) offset) := by
  have source : datetime (.exactly n) offset = datetime (.exactly 0) offset := by
    simp [datetime, FractionDigits.source, none]
  have same : expression (.exactly n) offset = expression (.exactly 0) offset := by
    simp [expression, terms, fraction, none, captures]
  rw [source, same]
  cases offset <;> rfl

/-- If the pattern compiles, then to its expression. -/
theorem eq_expression {fractionDigits : FractionDigits} {e : Regex}
    (compiled : (datetime fractionDigits offset).compile = .ok e) :
    e = expression fractionDigits offset := by
  cases fractionDigits with
  | any =>
    rw [compile_any] at compiled
    exact (Except.ok.inj compiled).symm
  | exactly n =>
    by_cases positive : 0 < n
    · obtain ⟨n, rfl⟩ := Int.eq_ofNat_of_zero_le (Int.le_of_lt positive)
      rw [compile_exactly (Int.natCast_pos.mp positive)] at compiled
      split at compiled
      · exact (Except.ok.inj compiled).symm
      · cases compiled
    · rw [compile_without positive] at compiled
      exact (Except.ok.inj compiled).symm

end Compiling
end Schemata.Pattern.Datetime
