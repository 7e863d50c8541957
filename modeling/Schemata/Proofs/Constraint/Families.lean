import Schemata.Constraint.Basic
import Schemata.Proofs.Runs

/-! Families of constraints. A constraint is made for a family, which fixes what it expects and which
rules can be registered; nothing that is done to it afterwards leads out of its family. A check of
the family never faults on a value that the constraint expects. -/
namespace Schemata

/-- The value is of the kind, or the predicate accepts it. -/
def Expectation.Met : Expectation → Value → Prop
  | .kind k, v => v.kind = k
  | .predicate accepts, v => accepts v = true

namespace Constraint

inductive Family where
  | string | number | boolean | symbol | date | array | set | map | object | any | null | nullish
deriving DecidableEq

namespace Family

/-- The kind that a family expects unless told otherwise. -/
def kind? : Family → Option Kind
  | string => some .string
  | number => some .number
  | boolean => some .boolean
  | symbol => some .symbol
  | date => some .date
  | array => some .array
  | set => some .set
  | map => some .map
  | object => some .object
  | null => some .null
  | any | nullish => none

/-- The checks that rules of a family make. -/
def suits : Family → Check → Bool
  | string, .minLength _ | string, .maxLength _ | string, .exactLength _ | string, .pattern ..
  | string, .startsWith _ | string, .endsWith _ | string, .notBlank => true
  | number, .atLeast _ | number, .atMost _ | number, .positive | number, .negative
  | number, .integer | number, .floating | number, .finite | number, .between .. => true
  | date, .notBefore .. | date, .notAfter .. => true
  | array, .minSize .array _ | array, .maxSize .array _ | array, .exactSize _
  | array, .nonempty .array => true
  | set, .minSize .set _ | set, .maxSize .set _ | set, .nonempty .set => true
  | object, .required _ => true
  | _, _ => false

/-- The requests for rules that a family offers. Patterns and date bounds are only ever asked for in
a form that is still to be looked at. -/
def offers : Family → Rule.Request → Bool
  | string, .pattern _ | date, .notBefore _ | date, .notAfter _ => true
  | _, .check (.pattern ..) | _, .check (.notBefore ..) | _, .check (.notAfter ..) => false
  | family, .check check => family.suits check
  | _, _ => false

/-- What constraints of a family may expect. -/
def Expects : Family → Expectation → Prop
  | set, .predicate _ | map, .predicate _ => True
  | any, .predicate accepts => ∀ v, accepts v = true
  | nullish, .predicate accepts => accepts = Value.isNullish
  | family, .kind k => family.kind? = some k
  | _, _ => False

end Family

/-- The constraints of a family: new ones, and what registering rules and admitting nullish values
make of them. -/
inductive Made : Family → Constraint → Prop where
  | ofKind : family.kind? = some kind → Made family (ofKind kind)
  | ofPredicate : family = .set ∨ family = .map → ofPredicate accepts = .ok c → Made family c
  | ofDates (convert : DateConverter) : Made .date (ofDates convert)
  | anyValue : Made .any anyValue
  | nullishValue : Made .nullish nullishValue
  | register : Made family c → family.offers request = true →
      c.register request message = .ok registered → Made family registered
  | nullable : Made family c → Made family c.nullable
  | nullish : Made family c → Made family c.nullish

/-- The converter that a check places values in time with. -/
def converter? : Check → Option DateConverter
  | .notBefore convert _ | .notAfter convert _ => some convert
  | _ => none

/-- What holds of every constraint of a family. -/
structure Fits (family : Family) (c : Constraint) : Prop where
  expects : family.Expects c.expected
  suits : ∀ r ∈ c.rules, family.suits r.check = true
  converts : ∀ r ∈ c.rules, ∀ convert, converter? r.check = some convert → convert = c.convert
  standard : family ≠ .date → c.convert = .standard
  flags : c.allowsUndefined = true → c.allowsNull = true

variable {family : Family} {c registered : Constraint} {request : Rule.Request} {message : Text}

theorem mem_setRule {rule r : Rule} {rules : List Rule} (member : r ∈ setRule rule rules) :
    r = rule ∨ r ∈ rules := by
  induction rules with
  | nil => simpa [setRule] using member
  | cons first rest ih =>
    simp only [setRule] at member
    split at member
    · rcases List.mem_cons.mp member with new | old
      · exact .inl new
      · exact .inr (List.mem_cons_of_mem _ old)
    · rcases List.mem_cons.mp member with rfl | later
      · exact .inr List.mem_cons_self
      · rcases ih later with new | old
        · exact .inl new
        · exact .inr (List.mem_cons_of_mem _ old)

theorem checkOf_suits {convert : DateConverter} {check : Check}
    (offered : family.offers request = true)
    (looked : checkOf convert request = .ok check) :
    family.suits check = true ∧ ∀ used, converter? check = some used → used = convert := by
  cases request with
  | check plain =>
    cases looked
    cases check with
    | pattern | notBefore | notAfter => cases family <;> cases offered
    | _ => exact ⟨by cases family <;> exact offered, fun used none => nomatch none⟩
  | pattern p =>
    obtain ⟨expression, _, rfl⟩ := map_eq_ok_iff.mp looked
    exact ⟨by cases family <;> (first | rfl | cases offered), fun used none => nomatch none⟩
  | notBefore bound | notAfter bound =>
    obtain ⟨millis, _, rfl⟩ := map_eq_ok_iff.mp looked
    refine ⟨by cases family <;> (first | rfl | cases offered), fun used same => ?_⟩
    exact (Option.some.inj same).symm

theorem Fits.nullable (fits : Fits family c) : Fits family c.nullable :=
  ⟨fits.expects, fits.suits, fits.converts, fits.standard, fun _ => rfl⟩

theorem Fits.nullish (fits : Fits family c) : Fits family c.nullish :=
  ⟨fits.expects, fits.suits, fits.converts, fits.standard, fun _ => rfl⟩

theorem Made.fits (made : Made family c) : Fits family c := by
  induction made with
  | ofKind same =>
    rename_i kind family
    refine ⟨?_, by simp [Constraint.ofKind, ofExpectation],
      by simp [Constraint.ofKind, ofExpectation],
      fun _ => rfl, nofun⟩
    cases family <;> exact same
  | ofPredicate which accepted =>
    rename_i family accepts c
    cases accepts with
    | none => cases accepted
    | some accepts =>
      cases accepted
      refine ⟨?_, by simp [ofExpectation], by simp [ofExpectation], fun _ => rfl, nofun⟩
      rcases which with rfl | rfl <;> trivial
  | ofDates convert =>
    exact ⟨rfl, by simp [Constraint.ofDates, Constraint.ofKind, ofExpectation],
      by simp [Constraint.ofDates, Constraint.ofKind, ofExpectation],
      fun other => absurd rfl other, nofun⟩
  | anyValue => exact ⟨fun _ => rfl, nofun, nofun, fun _ => rfl, nofun⟩
  | nullishValue => exact ⟨rfl, nofun, nofun, fun _ => rfl, nofun⟩
  | register made offered accepted ih =>
    obtain ⟨check, looked, rfl⟩ := map_eq_ok_iff.mp accepted
    obtain ⟨suits, converts⟩ := checkOf_suits offered looked
    refine ⟨ih.expects, fun r member => ?_, fun r member used same => ?_, ih.standard, ih.flags⟩
    · rcases mem_setRule member with rfl | old
      · exact suits
      · exact ih.suits r old
    · rcases mem_setRule member with rfl | old
      · exact converts used same
      · exact ih.converts r old used same
  | nullable _ ih => exact ih.nullable
  | nullish _ ih => exact ih.nullish

theorem mismatch?_eq_none_iff {v : Value} : c.mismatch? v = none ↔ c.expected.Met v := by
  unfold mismatch?
  cases c.expected <;> simp [Expectation.Met]

/-- A family without predicates expects its kind. -/
theorem Fits.expected {k : Kind} (fits : Fits family c) (plain : family.kind? = some k)
    (rigid : family ≠ .set ∧ family ≠ .map) : c.expected = .kind k := by
  have expects := fits.expects
  cases form : c.expected with
  | kind wanted =>
    rw [form] at expects
    have same : family.kind? = some wanted := by cases family <;> exact expects
    cases plain.symm.trans same
    rfl
  | predicate accepts =>
    rw [form] at expects
    cases family with
    | set => exact absurd rfl rigid.1
    | map => exact absurd rfl rigid.2
    | any | nullish => cases plain
    | _ => cases expects

/-- A check is at fault where it reads a value as what it is not, or else where its converter is. -/
theorem accepts_error {check : Check} {v : Value} {fault : Fault}
    (refused : check.accepts v = .error fault) : fault.category = .runtimeError ∨
      ∃ convert, converter? check = some convert ∧ convert v = .error fault := by
  have text (refused : v.asString = .error fault) : fault.category = .runtimeError := by
    cases v <;> cases refused <;> rfl
  have number (refused : v.asDouble = .error fault) : fault.category = .runtimeError := by
    cases v <;> cases refused <;> rfl
  have reading {α : Type} {read : Except Fault α} {f : α → Bool}
      (refused : (do return f (← read)) = Except.error fault) : read = .error fault := by
    rcases bind_eq_error_iff.mp refused with refused | ⟨_, _, refused⟩
    · exact refused
    · cases refused
  cases check with
  | minLength | maxLength | exactLength | pattern | startsWith | endsWith | notBlank =>
    exact .inl (text (reading refused))
  | atLeast | atMost | positive | negative | floating | between =>
    exact .inl (number (reading refused))
  | finite =>
    cases v with
    | int n => cases refused
    | _ => exact .inl (number (reading refused))
  | notBefore convert | notAfter convert => exact .inr ⟨convert, rfl, reading refused⟩
  | integer | minSize | maxSize | exactSize | nonempty | required => cases refused

theorem Fits.check_answers {v : Value} {r : Rule} (fits : Fits family c)
    (timed : ∀ millis, ∃ instant, c.convert (.date millis) = .ok instant) (member : r ∈ c.rules)
    (met : c.expected.Met v) : ∃ accepted, r.check.accepts v = .ok accepted := by
  have suits := fits.suits r member
  have converts := fits.converts r member
  have ofKind {k : Kind} (plain : family.kind? = some k) (rigid : family ≠ .set ∧ family ≠ .map) :
      v.kind = k := by
    rwa [fits.expected plain rigid] at met
  generalize r.check = check at suits converts ⊢
  cases check with
  | minLength | maxLength | exactLength | pattern | startsWith | endsWith | notBlank =>
    cases family <;> cases suits
    have kind := ofKind rfl (by decide)
    cases v <;> cases kind
    exact ⟨_, rfl⟩
  | atLeast | atMost | positive | negative | floating | finite | between =>
    cases family <;> cases suits
    have kind := ofKind rfl (by decide)
    cases v <;> cases kind <;> exact ⟨_, rfl⟩
  | notBefore convert bound | notAfter convert bound =>
    cases family <;> cases suits
    have kind := ofKind rfl (by decide)
    cases v <;> cases kind
    rename_i millis
    obtain ⟨instant, converted⟩ := timed millis
    rw [← converts convert rfl] at converted
    simp only [Check.accepts, converted]
    exact ⟨_, rfl⟩
  | integer | minSize | maxSize | exactSize | nonempty | required => exact ⟨_, rfl⟩

theorem ruleViolations_answers {v : Value} {rules : List Rule}
    (answers : ∀ r ∈ rules, ∃ accepted, r.check.accepts v = .ok accepted) :
    ∃ messages, ruleViolations v rules = .ok messages := by
  induction rules with
  | nil => exact ⟨[], rfl⟩
  | cons r rest ih =>
    obtain ⟨accepted, checked⟩ := answers r List.mem_cons_self
    obtain ⟨messages, others⟩ :=
      ih fun other member => answers other (List.mem_cons_of_mem r member)
    simp only [ruleViolations, Rule.violation?, checked, others]
    cases accepted <;> exact ⟨_, rfl⟩

theorem ruleViolations_error {v : Value} {rules : List Rule} {fault : Fault}
    (refused : ruleViolations v rules = .error fault) :
    ∃ r ∈ rules, r.check.accepts v = .error fault := by
  induction rules with
  | nil => cases refused
  | cons r rest ih =>
    rw [ruleViolations, bind_eq_error_iff] at refused
    rcases refused with here | ⟨_, _, refused⟩
    · refine ⟨r, List.mem_cons_self, ?_⟩
      rcases bind_eq_error_iff.mp here with refused | ⟨accepted, _, refused⟩
      · exact refused
      · cases accepted <;> cases refused
    · rcases bind_eq_error_iff.mp refused with later | ⟨_, _, refused⟩
      · obtain ⟨other, member, refused⟩ := ih later
        exact ⟨other, List.mem_cons_of_mem r member, refused⟩
      · cases refused

theorem violations_error {v : Value} {fault : Fault} (refused : c.violations v = .error fault) :
    ∃ r ∈ c.rules, r.check.accepts v = .error fault := by
  unfold violations at refused
  split at refused
  · cases refused
  · split at refused
    · cases refused
    · exact ruleViolations_error refused

theorem Fits.violations_answer (fits : Fits family c)
    (timed : ∀ millis, ∃ instant, c.convert (.date millis) = .ok instant) (v : Value) :
    ∃ messages, c.violations v = .ok messages := by
  unfold violations
  split
  · exact ⟨[], rfl⟩
  · split
    · exact ⟨_, rfl⟩
    · rename_i expected
      exact ruleViolations_answers fun r member =>
        fits.check_answers timed member (mismatch?_eq_none_iff.mp expected)

theorem ruleViolations_eq_nil_iff {v : Value} {rules : List Rule} :
    ruleViolations v rules = .ok [] ↔ ∀ r ∈ rules, r.check.accepts v = .ok true := by
  induction rules with
  | nil => simp [ruleViolations]
  | cons r rest ih =>
    rw [List.forall_mem_cons, ← ih]
    simp only [ruleViolations, Rule.violation?]
    cases checked : r.check.accepts v with
    | error fault => simp [bind, Except.bind]
    | ok accepted =>
      cases accepted <;> cases ruleViolations v rest <;> simp [bind, Except.bind, pure, Except.pure]

/-- A constraint has nothing to say against what it admits, and against what it expects and all its
rules accept. -/
theorem violations_eq_nil_iff {v : Value} : c.violations v = .ok [] ↔ c.admits v = true ∨
    c.expected.Met v ∧ ∀ r ∈ c.rules, r.check.accepts v = .ok true := by
  rw [← mismatch?_eq_none_iff]
  unfold violations
  cases admitted : c.admits v with
  | true => simp
  | false =>
    cases wrong : c.mismatch? v with
    | some message => simp
    | none => simpa using ruleViolations_eq_nil_iff

theorem admits_eq_false {v : Value} (defined : v.isNullish = false) : c.admits v = false := by
  have notNull : v.isNull = false := by cases v <;> first | rfl | cases defined
  simp only [admits, notNull, defined, Bool.and_false, Bool.or_self]

theorem nullish_of_admits {v : Value} (admitted : c.admits v = true) : v.isNullish = true := by
  by_contra defined
  rw [admits_eq_false (by simpa using defined)] at admitted
  cases admitted

theorem violations_eq_nil_of_defined {v : Value} (defined : v.isNullish = false) :
    c.violations v = .ok [] ↔ c.expected.Met v ∧ ∀ r ∈ c.rules, r.check.accepts v = .ok true := by
  rw [violations_eq_nil_iff, admits_eq_false defined]
  simp

/-- Without rules it is enough to be of the expected kind. -/
theorem violations_of_kind {v : Value} (expected : c.expected = .kind v.kind)
    (free : c.rules = []) :
    c.violations v = .ok [] := by
  refine violations_eq_nil_iff.mpr (.inr ⟨?_, ?_⟩)
  · rw [expected]
    rfl
  · rw [free]
    nofun

/-- The rules of arrays see nothing of an array but its size. -/
theorem Fits.violations_of_size {v w : Value} (fits : Fits .array c) (kind : w.kind = .array)
    (size : v.size = w.size) (defined : v.isNullish = false) (checked : c.violations v = .ok []) :
    c.violations w = .ok [] := by
  have passed := (violations_eq_nil_of_defined defined).mp checked
  refine violations_eq_nil_iff.mpr (.inr ⟨?_, fun r member => ?_⟩)
  · rw [fits.expected rfl (by decide)]
    exact kind
  · have suits := fits.suits r member
    have accepted := passed.2 r member
    generalize r.check = check at suits accepted ⊢
    cases check with
    | minSize | maxSize | exactSize => simpa only [Check.accepts, size] using accepted
    | nonempty => simpa only [Check.accepts, Value.isEmpty, size] using accepted
    | _ => cases suits

/-- A family without checks leaves its constraints without rules. -/
theorem Fits.rules_of_unsuited (fits : Fits family c)
    (unsuited : ∀ check, family.suits check = false) : c.rules = [] := by
  refine List.eq_nil_iff_forall_not_mem.mpr fun r member => ?_
  cases (unsuited r.check).symm.trans (fits.suits r member)

theorem Family.map_unsuited (check : Check) : Family.map.suits check = false := by
  cases check <;> rfl

theorem Family.symbol_unsuited (check : Check) : Family.symbol.suits check = false := by
  cases check <;> rfl

end Constraint
end Schemata
