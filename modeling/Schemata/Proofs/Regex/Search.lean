import Mathlib.Algebra.BigOperators.Group.List.Basic
import Mathlib.Computability.Language
import Schemata.Regex.Matcher

/-! What backtracking search finds. An expression without assertions and references, whose repeated
parts take a byte at least, denotes a language. The ways through it take the texts of this language,
and the counts of starts never stop one: a repeated part only starts again behind the place where it
started last. So such terms, anchored at both ends, are found in the texts of their language and in no
others. -/
namespace Schemata.Regex

open scoped Computability

/-- The texts that ways through the expression take, assertions and references aside. -/
def language : Regex → Language UInt8
  | byte accepts => {t | ∃ b, accepts b = true ∧ t = [b]}
  | group _ body => body.language
  | seq first second => first.language * second.language
  | alt first second => first.language + second.language
  | optional _ body => 1 + body.language
  | star _ body => body.language∗
  | plus _ body => body.language * body.language∗
  | _ => 1

section Language

variable (accepts : ByteSet) (index : Nat) (lazy : Bool) (first second body : Regex)

@[simp] theorem language_empty : empty.language = 1 := rfl

theorem mem_language_byte {t : Text} :
    t ∈ (byte accepts).language ↔ ∃ b, accepts b = true ∧ t = [b] := Iff.rfl

@[simp] theorem language_group : (group index body).language = body.language := rfl

@[simp] theorem language_seq :
    (seq first second).language = first.language * second.language := rfl

@[simp] theorem language_alt :
    (alt first second).language = first.language + second.language := rfl

@[simp] theorem language_optional : (optional lazy body).language = 1 + body.language := rfl

@[simp] theorem language_star : (star lazy body).language = body.language∗ := rfl

@[simp] theorem language_plus :
    (plus lazy body).language = body.language * body.language∗ := rfl

theorem language_sequence (terms : List Regex) :
    (sequence terms).language = (terms.map language).prod := by
  induction terms with
  | nil => rfl
  | cons term terms ih =>
    rw [List.map_cons, List.prod_cons, ← ih]
    rfl

theorem repeated_exactly (lazy : Bool) (body : Regex) (n : Nat) :
    repeated lazy body n (some n) = seq empty (sequence (List.replicate n body)) := by
  rw [repeated, sequence, Nat.sub_self, atMost]

theorem language_repeated (lazy : Bool) (body : Regex) (n : Nat) :
    (repeated lazy body n (some n)).language = body.language ^ n := by
  rw [repeated_exactly, language_seq, language_empty, one_mul, language_sequence,
    List.map_replicate, List.prod_replicate]

theorem mem_language_byte_pow {n : Nat} {t : Text} :
    t ∈ (byte accepts).language ^ n ↔ t.length = n ∧ t.all accepts = true := by
  induction n generalizing t with
  | zero =>
    rw [pow_zero, Language.mem_one, List.length_eq_zero_iff]
    refine ⟨?_, And.left⟩
    rintro rfl
    exact ⟨rfl, rfl⟩
  | succ n ih =>
    rw [pow_succ', Language.mem_mul]
    constructor
    · rintro ⟨_, ⟨b, accepted, rfl⟩, rest, taken, rfl⟩
      obtain ⟨long, all⟩ := ih.mp taken
      simp [long, all, accepted]
    · rintro ⟨long, all⟩
      cases t with
      | nil => cases long
      | cons b rest =>
        rw [List.all_cons, Bool.and_eq_true] at all
        exact ⟨[b], ⟨b, all.1, rfl⟩, rest, ih.mpr ⟨Nat.succ.inj long, all.2⟩, rfl⟩

end Language

/-- No assertions and no references, and repeated parts take a byte at least. -/
inductive Plain : Regex → Prop where
  | empty : Plain empty
  | byte (accepts : ByteSet) : Plain (byte accepts)
  | group (index : Nat) : Plain body → Plain (group index body)
  | seq : Plain first → Plain second → Plain (seq first second)
  | alt : Plain first → Plain second → Plain (alt first second)
  | optional (lazy : Bool) : Plain body → [] ∉ body.language → Plain (optional lazy body)
  | star (lazy : Bool) : Plain body → [] ∉ body.language → Plain (star lazy body)
  | plus (lazy : Bool) : Plain body → [] ∉ body.language → Plain (plus lazy body)

theorem Plain.sequence {terms : List Regex} (plain : ∀ term ∈ terms, term.Plain) :
    (Regex.sequence terms).Plain := by
  induction terms with
  | nil => exact .empty
  | cons term terms ih =>
    obtain ⟨first, others⟩ := List.forall_mem_cons.mp plain
    exact .seq first (ih others)

theorem Plain.repeated {body : Regex} (plain : body.Plain) (lazy : Bool) (n : Nat) :
    (Regex.repeated lazy body n (some n)).Plain := by
  rw [repeated_exactly]
  exact .seq .empty (.sequence fun term copy => List.eq_of_mem_replicate copy ▸ plain)

def Verdict.Found : Verdict → Prop
  | .found _ => True
  | .refused _ => False

namespace Trail

/-- Where a way that took `front` from `t` has come. What has started on it lies behind. -/
structure Leads (t : Trail) (front : Text) (u : Trail) : Prop where
  rest : t.rest = front ++ u.rest
  offset : u.offset = t.offset + front.length
  visits : ∀ visit ∈ u.visits, visit ∈ t.visits ∨ visit.2.1 < u.offset

/-- At this point no quantifier at the place or inside it has started; those around it may have. -/
def Clear (t : Trail) (place : Place) : Prop :=
  ∀ visit ∈ t.visits, visit.2.1 < t.offset ∨ (visit.1 <:+ place ∧ visit.1 ≠ place)

/-- A quantifier at the place starts, and nothing else happens. -/
structure Enters (t : Trail) (place : Place) (u : Trail) : Prop where
  rest : u.rest = t.rest
  offset : u.offset = t.offset
  visits : ∀ visit ∈ u.visits, visit ∈ t.visits ∨ (visit.1 = place ∧ visit.2.1 = t.offset)

variable {t u w : Trail} {place : Place} {front more : Text}

theorem Leads.refl (t : Trail) : t.Leads [] t := ⟨rfl, rfl, fun _ => .inl⟩

theorem Leads.trans (first : t.Leads front u) (second : u.Leads more w) :
    t.Leads (front ++ more) w := by
  refine ⟨by rw [first.rest, second.rest, List.append_assoc],
    by rw [second.offset, first.offset, List.length_append, Nat.add_assoc], fun visit member => ?_⟩
  rcases second.visits visit member with earlier | behind
  · refine (first.visits visit earlier).imp_right fun behind => ?_
    exact Nat.lt_of_lt_of_le behind (second.offset ▸ Nat.le_add_right _ _)
  · exact .inr behind

theorem Leads.byte {b : UInt8} {rest : Text} (next : t.rest = b :: rest) :
    t.Leads [b] (t.advance b rest) := ⟨next, rfl, fun _ => .inl⟩

theorem Clear.leads (clear : t.Clear place) (leads : t.Leads front u) : u.Clear place := by
  intro visit member
  rcases leads.visits visit member with earlier | behind
  · refine (clear visit earlier).imp_left fun behind => ?_
    exact Nat.lt_of_lt_of_le behind (leads.offset ▸ Nat.le_add_right _ _)
  · exact .inl behind

theorem suffix_inside {outer : Place} (turn : Bool) (around : outer <:+ place) :
    outer <:+ turn :: place ∧ outer ≠ turn :: place := by
  refine ⟨around.trans (List.suffix_cons turn place), ?_⟩
  rintro rfl
  exact absurd around.length_le (by simp)

theorem Clear.inside (clear : t.Clear place) (turn : Bool) : t.Clear (turn :: place) :=
  fun visit member => (clear visit member).imp_right fun around => suffix_inside turn around.1

theorem Enters.clear (enters : t.Enters place u) (clear : t.Clear place) (turn : Bool) :
    u.Clear (turn :: place) := by
  intro visit member
  rcases enters.visits visit member with earlier | ⟨rfl, _⟩
  · rw [enters.offset]
    exact clear.inside turn visit earlier
  · exact .inr (suffix_inside turn (List.suffix_refl _))

/-- Behind its start, a quantifier is like any other that has started. -/
theorem Enters.leads (enters : t.Enters place u) (some : front ≠ []) (leads : u.Leads front w) :
    t.Leads front w := by
  refine ⟨enters.rest ▸ leads.rest, enters.offset ▸ leads.offset, fun visit member => ?_⟩
  rcases leads.visits visit member with earlier | behind
  · refine (enters.visits visit earlier).imp_right fun ⟨_, start⟩ => ?_
    have := List.length_pos_iff.mpr some
    rw [start, leads.offset, enters.offset]
    omega
  · exact .inr behind

theorem Clear.enter? (clear : t.Clear place) : ∃ u, t.enter? place = some u ∧ t.Enters place u := by
  have enters : ∀ times, t.Enters place { t with
      visits := (place, t.offset, times + 1) :: t.visits.filter (·.1 != place) } := by
    refine fun times => ⟨rfl, rfl, fun visit member => ?_⟩
    rcases List.mem_cons.mp member with rfl | earlier
    · exact .inr ⟨rfl, rfl⟩
    · exact .inl (List.mem_of_mem_filter earlier)
  -- What is known of the quantifier itself is from an earlier offset, so it counts from the beginning.
  cases known : t.visits.lookup place with
  | none => exact ⟨_, by rw [Trail.enter?, known]; rfl, enters 0⟩
  | some last =>
    obtain ⟨before, behind, parts, _⟩ := List.lookup_eq_some_iff.mp known
    have other : last.1 ≠ t.offset := by
      rcases clear (place, last) (by simp [parts]) with earlier | ⟨_, other⟩
      · exact Nat.ne_of_lt earlier
      · exact absurd rfl other
    exact ⟨_, by rw [Trail.enter?, known]; exact if_pos (by simp [other]), enters _⟩

end Trail

variable {scope : Scope} {e body : Regex} {place : Place} {k more less : Trail → Verdict} {t : Trail}
  {M : Language UInt8} {P Q : Prop}

theorem Verdict.found_orElse {first : Verdict} {second : Captures → Verdict}
    (other : ∀ captures, (second captures).Found ↔ Q) :
    (first.orElse second).Found ↔ first.Found ∨ Q := by
  cases first with
  | found captures => exact iff_of_true trivial (.inl trivial)
  | refused captures => exact (other captures).trans ⟨.inr, fun found => found.resolve_left id⟩

theorem found_endCapture (index : Nat) (content : Text) : (endCapture index content k t).Found ↔
    (k (t.withCaptures (t.captures.set index (some content)))).Found := by
  rw [endCapture]
  cases k (t.withCaptures (t.captures.set index (some content))) <;> exact Iff.rfl

theorem found_onceMore (lazy : Bool) (clear : t.Clear place)
    (through : ∀ u, t.Enters place u → ((more u).Found ↔ P))
    (on : ∀ captures, (less (t.withCaptures captures)).Found ↔ Q) :
    (onceMore lazy place more less t).Found ↔ P ∨ Q := by
  choose u started enters using fun captures =>
    Trail.Clear.enter? (t := t.withCaptures captures) clear
  have more captures : (more (u captures)).Found ↔ P :=
    through _ ⟨(enters captures).rest, (enters captures).offset, (enters captures).visits⟩
  have here : t.enter? place = some (u t.captures) := started t.captures
  cases lazy with
  | true =>
    simp only [onceMore, started, if_true]
    exact (Verdict.found_orElse more).trans ((or_congr_left (on t.captures)).trans or_comm)
  | false =>
    simp only [onceMore, here, Bool.false_eq_true, if_false]
    exact (Verdict.found_orElse on).trans (or_congr_left (more t.captures))

/-- As far as `k` finds what is left of texts of `L` in `M`. -/
def Decides (k : Trail → Verdict) (t : Trail) (L M : Language UInt8) : Prop :=
  ∀ front u, front ∈ L → t.Leads front u → ((k u).Found ↔ u.rest ∈ M)

/-- The ways through the expression take the texts of its language. -/
def Explored (scope : Scope) (e : Regex) : Prop :=
  ∀ place k (t : Trail) M, t.Clear place → Decides k t e.language M →
    ((run scope e place k t).Found ↔ t.rest ∈ e.language * M)

variable {L : Language UInt8}

theorem Decides.here (decides : Decides k t L M) (nil : [] ∈ L) (captures : Captures) :
    (k (t.withCaptures captures)).Found ↔ t.rest ∈ M :=
  decides [] _ nil ⟨rfl, rfl, fun _ => .inl⟩

theorem kstar_mul_eq (L M : Language UInt8) : L∗ * M = L * (L∗ * M) + M := by
  rw [← mul_assoc]
  nth_rewrite 1 [← Language.one_add_self_mul_kstar_eq_kstar]
  rw [add_mul, one_mul, add_comm]

theorem found_iterate (explored : Explored scope body) (solid : [] ∉ body.language) (lazy : Bool)
    {n : Nat} (clear : t.Clear place) (enough : t.rest.length < n)
    (decides : Decides k t body.language∗ M) :
    (iterate lazy place (run scope body (true :: place)) k n t).Found ↔
      t.rest ∈ body.language∗ * M := by
  induction n generalizing t with
  | zero => exact absurd enough (Nat.not_lt_zero _)
  | succ n ih =>
    rw [iterate, kstar_mul_eq, Language.mem_add]
    refine found_onceMore lazy clear (fun u enters => ?_) (decides.here (Language.nil_mem_kstar _))
    rw [← enters.rest]
    refine explored _ _ _ _ (enters.clear clear true) fun front w taken leads => ?_
    have some : front ≠ [] := fun none => solid (none ▸ taken)
    have leads := enters.leads some leads
    refine ih (clear.leads leads) ?_ fun more x others onward => ?_
    · have := List.length_pos_iff.mpr some
      rw [leads.rest, List.length_append] at enough
      omega
    · have again := mul_kstar_le_kstar (a := body.language) (Language.append_mem_mul taken others)
      exact decides (front ++ more) x again (leads.trans onward)

/-- Through a plain expression every way is tried that its language leaves open, and no other. -/
theorem Plain.explored (plain : e.Plain) (scope : Scope) : Explored scope e := by
  induction plain with
  | empty =>
    intro place k t M clear decides
    rw [run, language_empty, one_mul]
    exact decides [] t rfl (.refl t)
  | byte accepts =>
    intro place k t M clear decides
    rw [run, Language.mem_mul]
    cases next : t.rest with
    | nil => 
      refine iff_of_false id ?_
      rintro ⟨_, ⟨b, _, rfl⟩, more, _, same⟩
      cases same
    | cons b rest =>
      dsimp only
      by_cases accepted : accepts b = true
      · rw [if_pos accepted, decides [b] _ ⟨b, accepted, rfl⟩ (.byte next)]
        refine ⟨fun found => ⟨[b], ⟨b, accepted, rfl⟩, rest, found, rfl⟩, ?_⟩
        rintro ⟨_, ⟨c, _, rfl⟩, more, found, same⟩
        exact (List.cons.inj same).2 ▸ found
      · rw [if_neg accepted]
        refine iff_of_false id ?_
        rintro ⟨_, ⟨c, other, rfl⟩, more, _, same⟩
        exact accepted ((List.cons.inj same).1 ▸ other)
  | group index plain ih =>
    intro place k t M clear decides
    rw [run, language_group]
    refine ih _ _ _ _ (clear.inside true) fun front u taken leads => ?_
    rw [found_endCapture]
    exact decides front _ taken ⟨leads.rest, leads.offset, leads.visits⟩
  | seq plain plain' ih ih' =>
    intro place k t M clear decides
    rw [run, language_seq, mul_assoc]
    refine ih _ _ _ _ (clear.inside true) fun front u taken leads => ?_
    refine ih' _ _ _ _ ((clear.leads leads).inside false) fun more w others onward => ?_
    exact decides (front ++ more) w (Language.append_mem_mul taken others) (leads.trans onward)
  | alt plain plain' ih ih' =>
    intro place k t M clear decides
    rw [run, language_alt, add_mul, Language.mem_add]
    refine (Verdict.found_orElse fun captures => ?_).trans (or_congr_left ?_)
    · exact ih' _ _ (t.withCaptures captures) _ (clear.inside false) fun front u taken leads =>
        decides front u (.inr taken) ⟨leads.rest, leads.offset, leads.visits⟩
    · exact ih _ _ _ _ (clear.inside true) fun front u taken leads =>
        decides front u (.inl taken) leads
  | optional lazy plain solid ih =>
    intro place k t M clear decides
    rw [run, language_optional, add_mul, one_mul, add_comm, Language.mem_add]
    refine found_onceMore lazy clear (fun u enters => ?_) (decides.here (.inl rfl))
    rw [← enters.rest]
    refine ih _ _ _ _ (enters.clear clear true) fun front w taken leads => ?_
    exact decides front w (.inr taken) (enters.leads (fun none => solid (none ▸ taken)) leads)
  | star lazy plain solid ih =>
    intro place k t M clear decides
    rw [run, language_star]
    exact found_iterate ih solid lazy clear (by rw [startsWithin]; omega) decides
  | plus lazy plain solid ih =>
    intro place k t M clear decides
    rw [run, language_plus, mul_assoc]
    refine ih _ _ _ _ (clear.inside true) fun front u taken leads => ?_
    refine found_iterate ih solid lazy (clear.leads leads) (by rw [startsWithin]; omega) ?_
    exact fun more w others onward =>
      decides (front ++ more) w (Language.append_mem_mul taken others) (leads.trans onward)

/-- Plain terms in front of an expression take their texts one after the other. -/
theorem found_terms {terms : List Regex} (plain : ∀ term ∈ terms, term.Plain)
    (clear : t.Clear place) (behind : ∀ front u place, t.Leads front u → u.Clear place →
      ((run scope e place k u).Found ↔ u.rest ∈ M)) :
    (run scope (terms.foldr seq e) place k t).Found ↔ t.rest ∈ (sequence terms).language * M := by
  induction terms generalizing place t with
  | nil =>
    rw [sequence, List.foldr_nil, List.foldr_nil, language_empty, one_mul]
    exact behind [] t place (.refl t) clear
  | cons term terms ih =>
    obtain ⟨first, others⟩ := List.forall_mem_cons.mp plain
    rw [List.foldr_cons, run, sequence, List.foldr_cons, language_seq, mul_assoc]
    refine first.explored scope _ _ _ _ (clear.inside true) fun front u taken leads => ?_
    exact ih others ((clear.leads leads).inside false) fun more w place onward clear =>
      behind (front ++ more) w place (leads.trans onward) clear

variable {ignoreCase : Bool} {offset : Nat} {previous : Option UInt8} {text : Text}

theorem matchesAt_iff : matchesAt ignoreCase e offset previous text = true ↔
    (run ⟨ignoreCase, offset, offset != 0⟩ e [] (fun inner => .found inner.captures)
      (.start offset previous text)).Found := by
  rw [matchesAt]
  split <;> simp_all [Verdict.Found]

/-- Only at the very beginning of a text does a line start. -/
theorem matchesAt_lineStart (behind : 0 < offset) :
    matchesAt ignoreCase (seq lineStart e) offset previous text = false := by
  rw [matchesAt, run, run, Trail.atStart, bne_iff_ne.mpr (Nat.ne_of_gt behind), Bool.not_true,
    Bool.and_false]
  rfl

theorem searchFrom_lineStart (behind : 0 < offset) :
    searchFrom ignoreCase (seq lineStart e) offset previous text = false := by
  induction text generalizing offset previous with
  | nil => exact matchesAt_lineStart behind
  | cons b text ih =>
    rw [searchFrom, matchesAt_lineStart behind, ih (Nat.succ_pos offset), Bool.or_false]

theorem search_lineStart : search ignoreCase (seq lineStart e) text =
    matchesAt ignoreCase (seq lineStart e) 0 none text := by
  cases text with
  | nil => rfl
  | cons b text => rw [search, searchFrom, searchFrom_lineStart (Nat.succ_pos 0), Bool.or_false]

/-- Plain terms that are anchored at both ends are found in the texts of their language. -/
theorem search_anchored_iff {terms : List Regex} (plain : ∀ term ∈ terms, term.Plain) :
    search ignoreCase (sequence (lineStart :: (terms ++ [lineEnd]))) text = true ↔
      text ∈ (sequence terms).language := by
  rw [sequence, List.foldr_cons, search_lineStart, matchesAt_iff, List.foldr_append, run, run]
  refine (found_terms (M := 1) plain (fun _ none => absurd none List.not_mem_nil)
    fun front u place leads clear => ?_).trans (by rw [mul_one]; rfl)
  rw [List.foldr_cons, run, run, Language.mem_one]
  split
  · exact iff_of_true trivial (List.isEmpty_iff.mp ‹_›)
  · exact iff_of_false id (mt List.isEmpty_iff.mpr ‹_›)

end Schemata.Regex
