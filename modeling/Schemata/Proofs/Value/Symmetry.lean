import Schemata.Proofs.Value.Equality

/-! Equality and the order of its operands. Numbers, texts and dates compare alike both ways, and so do
arrays and objects of such. But of two sets only the elements of the first are looked for in the second:
where one element of the second equals two of the first, an element of the second may be left without a
partner, and the sets are equal one way only. So equality is symmetric as long as no value inside the one
operand equals two elements of a set, or two keys of a map, inside the other. No value does, if all integers
are within 2^53. -/
namespace Schemata

theorem Binary64.equal_comm (x y : Binary64) : x.equal y = y.equal x := by
  have turned {x y : Binary64} (same : x.equal y = true) : y.equal x = true := by
    obtain ⟨p, first, second⟩ := equal_iff.mp same
    exact equal_iff.mpr ⟨p, second, first⟩
  exact Bool.eq_iff_iff.mpr ⟨turned, turned⟩

namespace Value

variable {a b w x y : Value} {xs ys : List Value} {es fs : List (Value × Value)}
  {gs hs : List (Text × Value)}

/-- No value inside `b` equals both. -/
def ToldApart (b x y : Value) : Prop := Throughout (fun w => ¬ (Equal w x ∧ Equal w y)) b

/-- No two elements of a set, nor two keys of a map, are equal to one value inside `b`. -/
def PartsApart (b : Value) : Value → Prop
  | set items => items.Pairwise (ToldApart b)
  | map entries => (entries.map Prod.fst).Pairwise (ToldApart b)
  | _ => True

/-- No value inside `b` equals two elements of a set or two keys of a map inside `a`. -/
def Discerned (b a : Value) : Prop := Throughout (PartsApart b) a

theorem ToldApart.part (told : ToldApart b x y) (member : w ∈ b.parts) : ToldApart w x y :=
  Throughout.part told member

theorem ToldApart.not_equal (told : ToldApart b x y) (member : w ∈ b.parts) :
    Equal w x → ¬ Equal w y :=
  fun first second => (Throughout.part told member).here ⟨first, second⟩

theorem PartsApart.part (apart : PartsApart b a) (member : w ∈ b.parts) : PartsApart w a := by
  cases a with
  | set | map => exact List.Pairwise.imp (fun told => told.part member) apart
  | _ => trivial

theorem Discerned.left (discerned : Discerned b a) (member : w ∈ b.parts) : Discerned w a := by
  induction discerned with
  | intro here _ ih => exact .intro (here.part member) ih

theorem Discerned.parts (discerned : Discerned b a) (first : y ∈ b.parts) (second : x ∈ a.parts) :
    Discerned y x := by
  have whole : Discerned b x := Throughout.part discerned second
  exact whole.left first

section Step

theorem equal_numbers_turned (equal : Equal a b) (number : a.isNumber = true)
    (number' : b.isNumber = true) : Equal b a := by
  cases a with
  | int n =>
    cases b with
    | int m =>
      simp only [Equal, eq, beq_iff_eq] at equal ⊢
      exact equal.symm
    | double y =>
      simp only [Equal, eq] at equal ⊢
      rwa [Binary64.equal_comm]
    | _ => cases number'
  | double x =>
    cases b with
    | int m | double y =>
      simp only [Equal, eq] at equal ⊢
      rwa [Binary64.equal_comm]
    | _ => cases number'
  | _ => cases number

/-- Lists that are related side by side stay so when the relation is turned for their elements. -/
theorem forall₂_turned {as bs : List α} {R : α → α → Prop} (same : List.Forall₂ R as bs)
    (turned : ∀ a ∈ as, ∀ b ∈ bs, R a b → R b a) : List.Forall₂ R bs as := by
  induction same with
  | nil => exact .nil
  | cons here _ ih =>
    refine .cons (turned _ List.mem_cons_self _ List.mem_cons_self here) (ih fun a first b second => ?_)
    exact turned a (List.mem_cons_of_mem _ first) b (List.mem_cons_of_mem _ second)

/-- Equality of maps may be turned if that of their keys and values may: as no key of the second operand
equals two of the first, every key of it has its partner, and the first key that it equals is that one. -/
theorem equal_maps_turned (told : es.Pairwise fun e e' => ToldApart (map fs) e.1 e'.1)
    (keys : ∀ e ∈ es, ∀ f ∈ fs, Equal e.1 f.1 ↔ Equal f.1 e.1)
    (values : ∀ e ∈ es, ∀ f ∈ fs, Equal e.2 f.2 ↔ Equal f.2 e.2) (cover : Covers EqualEntries es fs) :
    Equal (map fs) (map es) := by
  have single {f : Value × Value} (member : f ∈ fs) {e e' : Value × Value}
      (told : ToldApart (map fs) e.1 e'.1) : Equal f.1 e.1 → ¬ Equal f.1 e'.1 :=
    told.not_equal (List.mem_append_left _ (List.mem_map_of_mem member))
  have apart : es.Pairwise fun e e' => ∀ f ∈ fs, EqualEntries f e → ¬ EqualEntries f e' :=
    told.imp fun told f member same same' => single member told same.1 same'.1
  obtain ⟨_, back⟩ := exists_related_back cover.2 apart
  refine equal_map_iff.mpr ⟨cover.1.symm, fun f member => ?_⟩
  obtain ⟨e, listed, partner⟩ := back cover.1.ge f member
  refine ⟨e, ?_, (values e listed f member).mpr partner.2⟩
  obtain ⟨before, behind, rfl⟩ := List.append_of_mem listed
  refine List.find?_eq_some_iff_append.mpr
    ⟨(keys e listed f member).mpr partner.1, before, behind, rfl, fun e' earlier => ?_⟩
  rw [Bool.not_eq_true', Bool.eq_false_iff]
  intro found
  have same := (keys e' (List.mem_append_left _ earlier) f member).mp found
  have different := (List.pairwise_append.mp told).2.2 e' earlier e List.mem_cons_self
  exact single member different same partner.1

/-- Equality of sets may be turned if that of their elements may. -/
theorem equal_sets_turned (told : xs.Pairwise (ToldApart (set ys)))
    (items : ∀ x ∈ xs, ∀ y ∈ ys, Equal x y ↔ Equal y x) (cover : Covers Equal xs ys) :
    Equal (set ys) (set xs) := by
  have apart : xs.Pairwise fun x x' => ∀ y ∈ ys, Equal y x → ¬ Equal y x' :=
    told.imp fun told y member => told.not_equal (show y ∈ (set ys).parts from member)
  obtain ⟨_, back⟩ := exists_related_back cover.2 apart
  refine equal_set_iff.mpr ⟨cover.1.symm, fun y member => ?_⟩
  obtain ⟨x, listed, partner⟩ := back cover.1.ge y member
  exact ⟨x, listed, (items x listed y member).mpr partner⟩

/-- Equality may be turned if that of the parts may. -/
theorem equal_turned (discerned : Discerned b a)
    (parts : ∀ x ∈ a.parts, ∀ y ∈ b.parts, Equal x y ↔ Equal y x) (equal : Equal a b) : Equal b a := by
  cases alike_of_equal equal with
  | undefined | null | bool | string => exact equal
  | number first second =>
    exact equal_numbers_turned equal (isNumber_of_place? first) (isNumber_of_place? second)
  | symbol =>
    rw [Equal, eq]
    exact beq_self_eq_true _
  | date same => exact equal_dates_iff.mpr same.symm
  | array same =>
    exact equal_array_iff.mpr (forall₂_turned same fun x first y second => (parts x first y second).mp)
  | object same =>
    refine equal_object_iff.mpr (forall₂_turned same fun f first g second equal => ⟨equal.1.symm, ?_⟩)
    exact (parts f.2 (List.mem_map_of_mem first) g.2 (List.mem_map_of_mem second)).mp equal.2
  | set cover => exact equal_sets_turned discerned.here parts cover
  | map cover =>
    refine equal_maps_turned (List.pairwise_map.mp discerned.here) (fun e first f second => ?_)
      (fun e first f second => ?_) cover
    · exact parts e.1 (List.mem_append_left _ (List.mem_map_of_mem first)) f.1
        (List.mem_append_left _ (List.mem_map_of_mem second))
    · exact parts e.2 (List.mem_append_right _ (List.mem_map_of_mem first)) f.2
        (List.mem_append_right _ (List.mem_map_of_mem second))

end Step

/-- Equality is symmetric where no partner is shared, by induction on the sizes of both operands. -/
theorem equal_comm (forth : Discerned b a) (back : Discerned a b) : Equal a b ↔ Equal b a := by
  have bounded : ∀ n a b, sizeOf a + sizeOf b < n → Discerned b a → Discerned a b →
      (Equal a b ↔ Equal b a) := by
    intro n
    induction n with
    | zero => exact fun _ _ small => absurd small (Nat.not_lt_zero _)
    | succ n ih =>
      intro a b small forth back
      have parts : ∀ x ∈ a.parts, ∀ y ∈ b.parts, Equal x y ↔ Equal y x := by
        intro x first y second
        have := sizeOf_part first
        have := sizeOf_part second
        exact ih x y (by omega) (forth.parts second first) (back.parts first second)
      exact ⟨equal_turned forth parts,
        equal_turned back fun y second x first => (parts x first y second).symm⟩
  exact bounded _ a b (Nat.lt_succ_self _) forth back

section Precise

theorem told_of_precise (precise : Precise b) (first : Precise x) (second : Precise y)
    (different : ¬ Equal x y) : ToldApart b x y := by
  obtain ⟨sound, exact⟩ := precise
  induction sound with
  | @intro w here inside ih =>
    refine .intro ?_ fun part member => ih part member (exact.part member)
    rintro ⟨left, right⟩
    have precise : Precise w := ⟨.intro here inside, exact⟩
    have turned := precise_laws.symm w x precise first left
    exact different (precise_laws.trans x w y first precise second turned right)

/-- Where integers are exact, equal partners are equal to each other. -/
theorem discerned_of_precise (left : Precise a) (right : Precise b) : Discerned b a := by
  obtain ⟨sound, exact⟩ := left
  induction sound with
  | @intro v here inside ih =>
    have precise {part : Value} (member : part ∈ v.parts) : Precise part :=
      ⟨inside part member, exact.part member⟩
    refine .intro ?_ fun part member => ih part member (exact.part member)
    cases v with
    | set items =>
      refine List.Pairwise.imp_of_mem (fun first second different => ?_) here
      exact told_of_precise right (precise first) (precise second) (Bool.eq_false_iff.mp different)
    | map entries =>
      refine List.Pairwise.imp_of_mem (fun first second different => ?_) here
      exact told_of_precise right (precise (List.mem_append_left _ first))
        (precise (List.mem_append_left _ second)) (Bool.eq_false_iff.mp different)
    | _ => trivial

end Precise

theorem throughout_of_forall {holds : Value → Prop} (all : ∀ v, holds v) (v : Value) :
    Throughout holds v :=
  .intro (all v) fun part _ => throughout_of_forall all part
termination_by sizeOf v
decreasing_by exact sizeOf_part ‹_›

theorem not_equal_nan (v : Value) : ¬ Equal v (double .nan) := by
  intro equal
  cases alike_of_equal equal with
  | number _ placed => cases placed

/-- Two elements that one value equals make a set that is equal to another one way only. -/
theorem eq_one_way (first : Equal w x) (second : Equal w y) :
    eq (set [x, y]) (set [w, double .nan]) = true ∧
      eq (set [w, double .nan]) (set [x, y]) = false := by
  constructor
  · exact equal_set_iff.mpr ⟨rfl, List.forall_mem_cons.mpr ⟨⟨w, List.mem_cons_self, first⟩,
      List.forall_mem_singleton.mpr ⟨w, List.mem_cons_self, second⟩⟩⟩
  · rw [Bool.eq_false_iff]
    intro equal
    obtain ⟨_, cover⟩ := equal_set_iff.mp equal
    obtain ⟨partner, _, same⟩ := cover (double .nan) (by simp)
    exact not_equal_nan partner same

/-- Equality is symmetric as long as no value inside the one operand equals two elements of a set or two keys
of a map inside the other, so it is for all values that come to be without integers beyond 2^53,
not-a-number among them. Any two elements that one value equals, on the other hand, make sets that are
equal in one order of the operands and not in the other. -/
theorem eq_symmetric_unless_shared (a b : Value) :
    (Discerned a b → Discerned b a → eq a b = eq b a) ∧
    (Obtained a → Obtained b → Throughout Exact a → Throughout Exact b → eq a b = eq b a) ∧
    ∀ w, eq w a = true → eq w b = true → eq (set [a, b]) (set [w, double .nan]) = true ∧
      eq (set [w, double .nan]) (set [a, b]) = false := by
  refine ⟨fun back forth => Bool.eq_iff_iff.mpr (equal_comm forth back), ?_,
    fun w first second => eq_one_way first second⟩
  intro obtainedA obtainedB exactA exactB
  have preciseA : Precise a := ⟨obtainedA.sound, exactA⟩
  have preciseB : Precise b := ⟨obtainedB.sound, exactB⟩
  exact Bool.eq_iff_iff.mpr
    (equal_comm (discerned_of_precise preciseA preciseB) (discerned_of_precise preciseB preciseA))

theorem eq_symmetric_unless_shared_turned :
    eq (set [int (2 ^ 60), double .nan]) (set [double .nan, int (2 ^ 60)]) =
      eq (set [double .nan, int (2 ^ 60)]) (set [int (2 ^ 60), double .nan]) := by
  have leaf {b v : Value} (alone : v.parts = []) (apart : PartsApart b v) : Discerned b v :=
    .intro apart fun part member => absurd (alone ▸ member) List.not_mem_nil
  have first (b : Value) : Discerned b (set [int (2 ^ 60), double .nan]) := by
    refine .intro (List.pairwise_pair.mpr ?_) ?_
    · exact throughout_of_forall (fun w both => not_equal_nan w both.2) b
    · exact List.forall_mem_cons.mpr ⟨leaf rfl trivial, List.forall_mem_singleton.mpr (leaf rfl trivial)⟩
  have second (b : Value) : Discerned b (set [double .nan, int (2 ^ 60)]) := by
    refine .intro (List.pairwise_pair.mpr ?_) ?_
    · exact throughout_of_forall (fun w both => not_equal_nan w both.1) b
    · exact List.forall_mem_cons.mpr ⟨leaf rfl trivial, List.forall_mem_singleton.mpr (leaf rfl trivial)⟩
  exact (eq_symmetric_unless_shared _ _).1 (second _) (first _)

/-- The double 2^53 equals both integers of the first set, and 5 equals neither. -/
theorem eq_of_sets_one_way :
    Obtained (ofItems [int (2 ^ 53), int (2 ^ 53 + 1)]) ∧
    Obtained (ofItems [double (.ofInt (2 ^ 53)), int 5]) ∧
    eq (ofItems [int (2 ^ 53), int (2 ^ 53 + 1)]) (ofItems [double (.ofInt (2 ^ 53)), int 5]) = true ∧
    eq (ofItems [double (.ofInt (2 ^ 53)), int 5]) (ofItems [int (2 ^ 53), int (2 ^ 53 + 1)]) = false := by
  have same : eq (double (.ofInt (2 ^ 53))) (int (2 ^ 53)) = true := by
    rw [eq]
    decide +kernel
  have same' : eq (double (.ofInt (2 ^ 53))) (int (2 ^ 53 + 1)) = true := by
    rw [eq]
    decide +kernel
  have apart : eq (double (.ofInt (2 ^ 53))) (int 5) = false := by
    rw [eq]
    decide +kernel
  have five {n : Int64} (other : n ≠ 5) : eq (int n) (int 5) = false := by
    rw [eq]
    exact beq_false_of_ne other
  have integers : Distinct [int (2 ^ 53), int (2 ^ 53 + 1)] := by
    refine List.pairwise_pair.mpr ?_
    rw [eq]
    decide
  refine ⟨.ofItems (by simp [Obtained.int]), .ofItems (by simp [Obtained.int, Obtained.double]), ?_⟩
  rw [ofItems_of_distinct integers, ofItems_of_distinct (List.pairwise_pair.mpr apart)]
  constructor
  · exact equal_set_iff.mpr ⟨rfl, List.forall_mem_cons.mpr ⟨⟨_, List.mem_cons_self, same⟩,
      List.forall_mem_singleton.mpr ⟨_, List.mem_cons_self, same'⟩⟩⟩
  · rw [Bool.eq_false_iff]
    intro equal
    obtain ⟨_, cover⟩ := equal_set_iff.mp equal
    obtain ⟨partner, listed, found⟩ := cover (int 5) (by simp)
    rcases List.mem_pair.mp listed with rfl | rfl
    · exact absurd found (Bool.eq_false_iff.mp (five (by decide)))
    · exact absurd found (Bool.eq_false_iff.mp (five (by decide)))

end Value
end Schemata
