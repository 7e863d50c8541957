import Schemata.Proofs.Matching
import Schemata.Proofs.Number.Reals
import Schemata.Proofs.Value.Mutation

/-! Equality is an equivalence relation on ordinary values, which hold no not-a-number and no integer
that a double cannot tell from its neighbours; with not-a-number it is symmetric and transitive still.
Equality of containers is equality of their parts side by side or in any order, so the laws of the parts
are lifted to the whole, and an induction on the size of values closes the circle. -/
namespace Schemata

namespace Binary64

theorem place?_eq_none_iff {x : Binary64} : x.place? = none ↔ x.isNaN = true := by
  cases x with
  | nan => exact iff_of_true rfl rfl
  | _ => exact iff_of_false nofun nofun

theorem equal_iff {x y : Binary64} : x.equal y = true ↔ ∃ p, x.place? = some p ∧ y.place? = some p := by
  unfold equal
  cases x.place? with
  | none => simp
  | some p =>
    cases y.place? with
    | none => simp
    | some q =>
      rw [beq_iff_eq]
      constructor
      · rintro rfl
        exact ⟨p, rfl, rfl⟩
      · rintro ⟨_, ⟨⟩, ⟨⟩⟩
        rfl

end Binary64

namespace Value

/-- The equality of values as a relation. -/
def Equal (a b : Value) : Prop := eq a b = true

/-- The place of a number on the number line. -/
def place? : Value → Option Int
  | int n => (ofInt64 n).place?
  | double x => x.place?
  | _ => none

/-- No integer beyond 2^53. -/
def Exact : Value → Prop
  | int n => -2 ^ 53 ≤ n.toInt ∧ n.toInt ≤ 2 ^ 53
  | _ => True

/-- No double that is not a number, and no integer beyond 2^53. -/
def Ordinary : Value → Prop
  | int n => -2 ^ 53 ≤ n.toInt ∧ n.toInt ≤ 2 ^ 53
  | double x => x.isNaN = false
  | _ => True

/-- Entries equal in key and value. -/
def EqualEntries (e f : Value × Value) : Prop := Equal e.1 f.1 ∧ Equal e.2 f.2

/-- Fields of one name with equal values. -/
def EqualFields (f g : Text × Value) : Prop := f.1 = g.1 ∧ Equal f.2 g.2

/-- The ways in which values are equal. -/
inductive Alike : Value → Value → Prop where
  | undefined : Alike undefined undefined
  | null : Alike null null
  | bool (b : Bool) : Alike (bool b) (bool b)
  | number {a b : Value} {p : Int} : a.place? = some p → b.place? = some p → Alike a b
  | string (s : Text) : Alike (string s) (string s)
  | symbol (identity : Nat) (description other : Text) :
      Alike (symbol identity description) (symbol identity other)
  | date {x y : Binary64} : x.place? = y.place? → Alike (date x) (date y)
  | array {xs ys : List Value} : List.Forall₂ Equal xs ys → Alike (array xs) (array ys)
  | set {xs ys : List Value} : Covers Equal xs ys → Alike (set xs) (set ys)
  | map {es fs : List (Value × Value)} : Covers EqualEntries es fs → Alike (map es) (map fs)
  | object {fs gs : List (Text × Value)} : List.Forall₂ EqualFields fs gs →
      Alike (object fs) (object gs)

section Containers

variable {xs ys : List Value} {es fs : List (Value × Value)} {gs hs : List (Text × Value)}
  {e f : Value × Value} {k : Value}

theorem equal_array_iff : Equal (array xs) (array ys) ↔ List.Forall₂ Equal xs ys := by
  rw [Equal, eq, List.forall₂_iff_zip]
  simp [Equal]

theorem equal_object_iff : Equal (object gs) (object hs) ↔ List.Forall₂ EqualFields gs hs := by
  rw [Equal, eq, List.forall₂_iff_zip]
  simp [EqualFields, Equal]

theorem equal_set_iff : Equal (set xs) (set ys) ↔ Covers Equal xs ys := by
  rw [Equal, eq]
  simp [Covers, Equal]

theorem findSome?_attach {g : α → Option β} (as : List α) :
    (as.attach.findSome? fun a => g a.1) = as.findSome? g := by
  rw [← Function.comp_def g Subtype.val, ← List.findSome?_map, List.attach_map_subtype_val]

theorem findSome?_ite {test : α → Bool} {g : α → β} (as : List α) :
    (as.findSome? fun a => if test a then some (g a) else none) = (as.find? test).map g := by
  induction as with
  | nil => rfl
  | cons a as ih =>
    rw [List.findSome?_cons, List.find?_cons, ih]
    cases test a <;> rfl

theorem equal_map_iff : Equal (map es) (map fs) ↔ es.length = fs.length ∧
    ∀ e ∈ es, ∃ f, entryUnder? e.1 fs = some f ∧ Equal f.2 e.2 := by
  have found (k v : Value) :
      (fs.attach.findSome? fun f => if eq f.1.1 k then some (eq f.1.2 v) else none) =
        (entryUnder? k fs).map fun f => eq f.2 v :=
    (findSome?_attach (g := fun f : Value × Value => if eq f.1 k then some (eq f.2 v) else none)
      fs).trans (findSome?_ite fs)
  have held (answer : Option (Value × Value)) (v : Value) :
      (answer.map fun f => eq f.2 v).getD false = true ↔ ∃ f, answer = some f ∧ Equal f.2 v := by
    cases answer <;> simp [Equal]
  have sides : eq (map es) (map fs) =
      (es.length == fs.length && es.attach.all fun e =>
        (fs.attach.findSome? fun f =>
          if eq f.1.1 e.1.1 then some (eq f.1.2 e.1.2) else none).getD false) := by
    rw [eq]
  rw [Equal, sides]
  simp only [found, Bool.and_eq_true, beq_iff_eq, List.all_eq_true, List.mem_attach, true_imp_iff,
    Subtype.forall, held]

end Containers

section Laws

variable {a b : Value} {n : Int64} {P : Value → Prop}

theorem Ordinary.exact (ordinary : Ordinary a) : Exact a := by
  cases a with
  | int n => exact ordinary
  | _ => trivial

theorem place?_int (exact : Exact (int n)) :
    (int n).place? = some (n.toInt * Binary64.unitsPerOne) := by
  refine Binary64.place?_ofInt ?_
  obtain ⟨least, most⟩ := exact
  omega

theorem equal_integers_iff {m : Int64} (exact : Exact (int n)) (exact' : Exact (int m)) :
    Equal (int n) (int m) ↔ ∃ p, (int n).place? = some p ∧ (int m).place? = some p := by
  rw [Equal, eq, beq_iff_eq, place?_int exact, place?_int exact']
  constructor
  · rintro rfl
    exact ⟨_, rfl, rfl⟩
  · rintro ⟨p, first, second⟩
    have same := Option.some.inj (first.trans second.symm)
    have unit : (Binary64.unitsPerOne : Int) ≠ 0 := by
      exact_mod_cast Binary64.unitsPerOne_pos.ne'
    exact Int64.toInt_inj.mp (Int.eq_of_mul_eq_mul_right unit same)

theorem equal_integer_double_iff {x : Binary64} :
    Equal (int n) (double x) ↔ (ofInt64 n).equal x = true := by
  rw [Equal, eq]

theorem equal_doubles_iff {x y : Binary64} : Equal (double x) (double y) ↔ x.equal y = true := by
  rw [Equal, eq]

theorem equal_numbers_iff (exactA : Exact a) (exactB : Exact b)
    (number : a.isNumber = true) (number' : b.isNumber = true) :
    Equal a b ↔ ∃ p, a.place? = some p ∧ b.place? = some p := by
  cases a with
  | int n =>
    cases b with
    | int m => exact equal_integers_iff exactA exactB
    | double y => exact equal_integer_double_iff.trans Binary64.equal_iff
    | _ => cases number'
  | double x =>
    cases b with
    | int m =>
      rw [Equal, eq]
      exact Binary64.equal_iff
    | double y => exact equal_doubles_iff.trans Binary64.equal_iff
    | _ => cases number'
  | _ => cases number

theorem isNumber_of_place? {p : Int} (placed : a.place? = some p) : a.isNumber = true := by
  cases a with
  | int | double => rfl
  | _ => cases placed

theorem equal_dates_iff {x y : Binary64} : Equal (date x) (date y) ↔ x.place? = y.place? := by
  rw [Equal, eq, Bool.or_eq_true, Bool.and_eq_true, ← Binary64.place?_eq_none_iff,
    ← Binary64.place?_eq_none_iff, Binary64.equal_iff]
  cases x.place? <;> cases y.place? <;> simp [eq_comm]

/-- Numbers that are equal are in one place, however large they are. -/
theorem alike_numbers (equal : Equal a b) (number : a.isNumber = true) (number' : b.isNumber = true) :
    Alike a b := by
  rw [Equal] at equal
  cases a with
  | int n =>
    cases b with
    | int m =>
      rw [eq, beq_iff_eq] at equal
      obtain ⟨p, place⟩ := Binary64.exists_place?_ofInt n.toInt
      exact .number place (equal ▸ place)
    | double y =>
      rw [eq] at equal
      obtain ⟨p, first, second⟩ := Binary64.equal_iff.mp equal
      exact .number first second
    | _ => cases number'
  | double x =>
    cases b with
    | int m | double y =>
      rw [eq] at equal
      obtain ⟨p, first, second⟩ := Binary64.equal_iff.mp equal
      exact .number first second
    | _ => cases number'
  | _ => cases number

theorem alike_of_equal (equal : Equal a b) : Alike a b := by
  have numbers := alike_numbers equal
  fun_cases eq a b
  case case1 => exact .undefined
  case case2 => exact .null
  case case3 x y =>
    rw [Equal, eq, beq_iff_eq] at equal
    exact equal ▸ .bool x
  case case4 | case5 | case6 | case7 => exact numbers rfl rfl
  case case8 s t =>
    rw [Equal, eq, beq_iff_eq] at equal
    exact equal ▸ .string s
  case case9 i d j e =>
    rw [Equal, eq, beq_iff_eq] at equal
    exact equal ▸ .symbol i d e
  case case10 => exact .date (equal_dates_iff.mp equal)
  case case11 => exact .array (equal_array_iff.mp equal)
  case case12 => exact .set (equal_set_iff.mp equal)
  case case13 =>
    obtain ⟨long, cover⟩ := equal_map_iff.mp equal
    refine .map ⟨long, fun e member => ?_⟩
    obtain ⟨f, found, value⟩ := cover e member
    have key := List.find?_some found
    exact ⟨f, List.mem_of_find?_eq_some found, key, value⟩
  case case14 => exact .object (equal_object_iff.mp equal)
  case case15 =>
    have different : eq a b = false := by rw [eq] <;> assumption
    cases different.symm.trans equal

/-- What of a value decides its equality with others, with a property that the parts have. -/
def Comparable (P : Value → Prop) (v : Value) : Prop :=
  Exact v ∧ Unrepeated v ∧ ∀ part ∈ v.parts, P part

theorem Comparable.set {xs : List Value} (comparable : Comparable P (set xs)) :
    (∀ x ∈ xs, P x) ∧ xs.Pairwise fun x y => ¬ Equal x y := by
  obtain ⟨_, distinct, inside⟩ := comparable
  exact ⟨inside, distinct.imp fun different => by simp [Equal, different]⟩

theorem Comparable.map {es : List (Value × Value)} (comparable : Comparable P (map es)) :
    (∀ e ∈ es, P e.1 ∧ P e.2) ∧ es.Pairwise fun e f => ¬ EqualEntries e f := by
  obtain ⟨_, distinct, inside⟩ := comparable
  refine ⟨fun e member => ⟨inside e.1 ?_, inside e.2 ?_⟩, ?_⟩
  · exact List.mem_append_left _ (List.mem_map_of_mem member)
  · exact List.mem_append_right _ (List.mem_map_of_mem member)
  · exact (List.pairwise_map.mp distinct).imp fun different => by
      simp [EqualEntries, Equal, different]

theorem Comparable.object {fs : List (Text × Value)} (comparable : Comparable P (object fs)) :
    ∀ f ∈ fs, True ∧ P f.2 := by
  obtain ⟨_, _, inside⟩ := comparable
  exact fun f member => ⟨trivial, inside f.2 (List.mem_map_of_mem member)⟩

/-- In a map without repeated keys the entry under a key is the one with an equal key. -/
theorem entryUnder?_of_mem (laws : PartialEquivalenceOn P Equal) {k : Value} {f : Value × Value}
    {fs : List (Value × Value)} (comparable : Comparable P (Value.map fs)) (key : P k)
    (member : f ∈ fs) (same : Equal f.1 k) : entryUnder? k fs = some f := by
  obtain ⟨inside, _⟩ := comparable.map
  obtain ⟨before, behind, rfl⟩ := List.append_of_mem member
  refine List.find?_eq_some_iff_append.mpr ⟨same, before, behind, rfl, fun e earlier => ?_⟩
  have different : eq e.1 f.1 = false := by
    have distinct := List.pairwise_map.mp comparable.2.1
    exact (List.pairwise_append.mp distinct).2.2 e earlier f List.mem_cons_self
  rw [Bool.not_eq_true', Bool.eq_false_iff]
  intro found
  have left := (inside e (List.mem_append_left _ earlier)).1
  have right := (inside f member).1
  have back := laws.symm _ _ right key same
  exact Bool.eq_false_iff.mp different (laws.trans _ _ _ left key right found back)

theorem equal_of_alike (laws : PartialEquivalenceOn P Equal) (left : Comparable P a)
    (right : Comparable P b) (alike : Alike a b) : Equal a b := by
  cases alike with
  | undefined | null => rw [Equal, eq]
  | bool | string | symbol =>
    rw [Equal, eq]
    exact beq_self_eq_true _
  | number first second =>
    exact (equal_numbers_iff left.1 right.1 (isNumber_of_place? first)
      (isNumber_of_place? second)).mpr ⟨_, first, second⟩
  | date same => exact equal_dates_iff.mpr same
  | array same => exact equal_array_iff.mpr same
  | set cover => exact equal_set_iff.mpr cover
  | object same => exact equal_object_iff.mpr same
  | map cover =>
    refine equal_map_iff.mpr ⟨cover.1, fun e member => ?_⟩
    obtain ⟨f, found, key, value⟩ := cover.2 e member
    exact ⟨f, entryUnder?_of_mem laws right (left.map.1 e member).1 found key, value⟩

theorem alike_laws (laws : PartialEquivalenceOn P Equal) : PartialEquivalenceOn (Comparable P) Alike where
  symm a b left right alike := by
    cases alike with
    | undefined => exact .undefined
    | null => exact .null
    | bool b => exact .bool b
    | number first second => exact .number second first
    | string s => exact .string s
    | symbol i d e => exact .symbol i e d
    | date same => exact .date same.symm
    | array same => exact .array (laws.forall₂.symm _ _ left.2.2 right.2.2 same)
    | set cover => exact .set (laws.covers.symm _ _ left.set right.set cover)
    | map cover => exact .map ((laws.prod laws).covers.symm _ _ left.map right.map cover)
    | object same =>
      exact .object ((EquivalenceOn.eq.prod laws).forall₂.symm _ _ left.object right.object same)
  trans a b c left middle right first second := by
    cases first with
    | undefined | null | bool | string => exact second
    | number p q =>
      cases second with
      | number r s => exact .number p (r.symm.trans q ▸ s)
      | _ => cases q
    | symbol i d e =>
      cases second with
      | number r s => cases r
      | symbol _ _ f => exact .symbol i d f
    | date same =>
      cases second with
      | number r s => cases r
      | date same' => exact .date (same.trans same')
    | array same =>
      cases second with
      | number r s => cases r
      | array same' =>
        exact .array (laws.forall₂.trans _ _ _ left.2.2 middle.2.2 right.2.2 same same')
    | set cover =>
      cases second with
      | number r s => cases r
      | set cover' => exact .set (laws.covers.trans _ _ _ left.set middle.set right.set cover cover')
    | map cover =>
      cases second with
      | number r s => cases r
      | map cover' =>
        exact .map ((laws.prod laws).covers.trans _ _ _ left.map middle.map right.map cover cover')
    | object same =>
      cases second with
      | number r s => cases r
      | object same' =>
        exact .object ((EquivalenceOn.eq.prod laws).forall₂.trans _ _ _ left.object middle.object
          right.object same same')

/-- Laws of the parts are laws of the whole. -/
theorem equal_laws (laws : PartialEquivalenceOn P Equal) : PartialEquivalenceOn (Comparable P) Equal where
  symm a b left right same :=
    equal_of_alike laws right left ((alike_laws laws).symm a b left right (alike_of_equal same))
  trans a b c left middle right first second :=
    equal_of_alike laws left right ((alike_laws laws).trans a b c left middle right
      (alike_of_equal first) (alike_of_equal second))

/-- A value without not-a-number is equal to itself if its parts are. -/
theorem equal_self (laws : PartialEquivalenceOn P Equal) (comparable : Comparable P a)
    (ordinary : Ordinary a) (same : ∀ part ∈ a.parts, Equal part part) : Equal a a := by
  refine equal_of_alike laws comparable comparable ?_
  cases a with
  | undefined => exact .undefined
  | null => exact .null
  | bool b => exact .bool b
  | int n => exact .number (place?_int comparable.1) (place?_int comparable.1)
  | double x =>
    cases placed : x.place? with
    | none => exact absurd (Binary64.place?_eq_none_iff.mp placed) (Bool.eq_false_iff.mp ordinary)
    | some p => exact .number placed placed
  | string s => exact .string s
  | symbol i d => exact .symbol i d d
  | date x => exact .date rfl
  | array xs => exact .array (List.forall₂_same.mpr same)
  | set xs => exact .set ⟨rfl, fun x member => ⟨x, member, same x member⟩⟩
  | map es =>
    refine .map ⟨rfl, fun e member => ⟨e, member, same e.1 ?_, same e.2 ?_⟩⟩
    · exact List.mem_append_left _ (List.mem_map_of_mem member)
    · exact List.mem_append_right _ (List.mem_map_of_mem member)
  | object fs =>
    exact .object (List.forall₂_same.mpr fun f member => ⟨rfl, same f.2 (List.mem_map_of_mem member)⟩)

end Laws

section Bounded

variable {v inner : Value}

theorem sizeOf_part (member : inner ∈ v.parts) : sizeOf inner < sizeOf v := by
  cases v with
  | array items | set items =>
    have smaller := List.sizeOf_lt_of_mem (show inner ∈ items from member)
    simp only [array.sizeOf_spec, set.sizeOf_spec]
    omega
  | map entries =>
    rw [map.sizeOf_spec]
    rcases List.mem_append.mp member with key | value
    · obtain ⟨e, listed, rfl⟩ := List.mem_map.mp key
      have smaller := List.sizeOf_lt_of_mem listed
      rw [Prod.mk.sizeOf_spec] at smaller
      omega
    · obtain ⟨e, listed, rfl⟩ := List.mem_map.mp value
      have smaller := List.sizeOf_lt_of_mem listed
      rw [Prod.mk.sizeOf_spec] at smaller
      omega
  | object fields =>
    rw [object.sizeOf_spec]
    obtain ⟨field, listed, rfl⟩ := List.mem_map.mp member
    have smaller := List.sizeOf_lt_of_mem listed
    rw [Prod.mk.sizeOf_spec] at smaller
    omega
  | _ => cases member

/-- Nothing repeated where it must not be, and no integer beyond 2^53. -/
def Precise (v : Value) : Prop := Sound v ∧ Throughout Exact v

theorem Precise.comparable (inside : Precise v) : Comparable Precise v :=
  ⟨inside.2.here, inside.1.here, fun _ member => ⟨inside.1.part member, inside.2.part member⟩⟩

/-- The laws of equality without reflexivity, by induction on the size of the values. -/
theorem precise_laws : PartialEquivalenceOn Precise Equal := by
  apply PartialEquivalenceOn.by_size fun v : Value => sizeOf v
  intro n smaller
  refine (equal_laws smaller).mono fun v bounded => ?_
  obtain ⟨inside, small⟩ := bounded
  obtain ⟨exact, unrepeated, parts⟩ := inside.comparable
  refine ⟨exact, unrepeated, fun part member => ⟨parts part member, ?_⟩⟩
  have less := sizeOf_part member
  omega

/-- Nothing repeated where it must not be, no not-a-number and no integer beyond 2^53. -/
def Regular (v : Value) : Prop := Sound v ∧ Throughout Ordinary v

theorem Regular.part (regular : Regular v) (member : inner ∈ v.parts) : Regular inner :=
  ⟨regular.1.part member, regular.2.part member⟩

theorem throughout_exact (ordinary : Throughout Ordinary v) : Throughout Exact v := by
  induction ordinary with
  | intro here _ ih => exact .intro here.exact ih

theorem Regular.comparable (regular : Regular v) : Comparable Regular v :=
  ⟨regular.2.here.exact, regular.1.here, fun _ member => regular.part member⟩

theorem Regular.equal_self (regular : Regular v) : Equal v v := by
  obtain ⟨sound, ordinary⟩ := regular
  induction ordinary with
  | intro here inside ih =>
    have comparable : Precise _ := ⟨sound, throughout_exact (.intro here inside)⟩
    exact Value.equal_self precise_laws comparable.comparable here fun part member =>
      ih part member (sound.part member)

/-- The laws of equality on regular values. -/
theorem regular_laws : EquivalenceOn Regular Equal where
  toPartialEquivalenceOn := precise_laws.mono fun _ regular =>
    ⟨regular.1, throughout_exact regular.2⟩
  refl _ regular := regular.equal_self

end Bounded

section Characterized

variable {a b c k : Value} {xs ys : List Value} {es fs : List (Value × Value)}

theorem includes_set_iff : (set xs).includes k = true ↔ ∃ x ∈ xs, Equal x k := by
  simp only [includes, List.any_eq_true, Equal]

theorem hasKey_map_iff : (map es).hasKey k = true ↔ ∃ e ∈ es, Equal e.1 k := by
  simp only [hasKey, entryUnder?, List.find?_isSome, Equal]

/-- Sets are equal when each includes every element of the other. -/
theorem equal_sets_iff (left : Regular (set xs)) (right : Regular (set ys)) :
    Equal (set xs) (set ys) ↔
      (∀ x ∈ xs, (set ys).includes x = true) ∧ ∀ y ∈ ys, (set xs).includes y = true := by
  obtain ⟨insideX, apartX⟩ := left.comparable.set
  obtain ⟨insideY, apartY⟩ := right.comparable.set
  simp only [includes_set_iff]
  rw [equal_set_iff, regular_laws.covers_iff insideX insideY apartX apartY, and_comm]

/-- Maps are equal when they have the same keys and equal values under equal keys. -/
theorem equal_maps_iff (left : Regular (map es)) (right : Regular (map fs)) :
    Equal (map es) (map fs) ↔ (∀ e ∈ es, (map fs).hasKey e.1 = true) ∧
      (∀ f ∈ fs, (map es).hasKey f.1 = true) ∧
        ∀ e ∈ es, ∀ f ∈ fs, Equal e.1 f.1 → Equal e.2 f.2 := by
  obtain ⟨insideE, apartE⟩ := left.comparable.map
  obtain ⟨insideF, apartF⟩ := right.comparable.map
  have single := regular_laws.toPartialEquivalenceOn
  have laws := single.prod single
  simp only [hasKey_map_iff]
  constructor
  · intro same
    obtain ⟨_, found⟩ := equal_map_iff.mp same
    have cover : Covers EqualEntries es fs := by
      cases alike_of_equal same with
      | map cover => exact cover
      | number placed => cases placed
    obtain ⟨back, forth⟩ := (laws.covers_iff insideE insideF apartE apartF).mp cover
    refine ⟨fun e member => ?_, fun f member => ?_, fun e listed f listed' key => ?_⟩
    · obtain ⟨f, listed, key, _⟩ := forth e member
      exact ⟨f, listed, key⟩
    · obtain ⟨e, listed, key, _⟩ := back f member
      exact ⟨e, listed, key⟩
    · have regularE := insideE e listed
      have regularF := insideF f listed'
      obtain ⟨g, under, value⟩ := found e listed
      have only := entryUnder?_of_mem single right.comparable regularE.1 listed'
        (regular_laws.symm _ _ regularE.1 regularF.1 key)
      obtain rfl : g = f := Option.some.inj (under.symm.trans only)
      exact regular_laws.symm _ _ regularF.2 regularE.2 value
  · rintro ⟨forth, back, values⟩
    refine equal_of_alike single left.comparable right.comparable (.map ?_)
    refine (laws.covers_iff insideE insideF apartE apartF).mpr ⟨fun f member => ?_, fun e member => ?_⟩
    · obtain ⟨e, listed, key⟩ := back f member
      exact ⟨e, listed, key, values e listed f member key⟩
    · obtain ⟨f, listed, key⟩ := forth e member
      have regularE := insideE e member
      have regularF := insideF f listed
      have value := values e member f listed (regular_laws.symm _ _ regularF.1 regularE.1 key)
      exact ⟨f, listed, key, regular_laws.symm _ _ regularE.2 regularF.2 value⟩

/-- Equality is an equivalence relation on the values that come to be without not-a-number and
without integers beyond 2^53; of sets it is inclusion both ways, of maps the same keys with equal
values, in whatever order. -/
theorem equality_of_ordinary (obtainedA : Obtained a) (obtainedB : Obtained b)
    (obtainedC : Obtained c) (ordinaryA : Throughout Ordinary a) (ordinaryB : Throughout Ordinary b)
    (ordinaryC : Throughout Ordinary c) :
    eq a a = true ∧ (eq a b = true → eq b a = true) ∧
    (eq a b = true → eq b c = true → eq a c = true) ∧
    (∀ xs ys, a = set xs → b = set ys → (eq a b = true ↔
      (∀ x ∈ xs, b.includes x = true) ∧ ∀ y ∈ ys, a.includes y = true)) ∧
    ∀ es fs, a = map es → b = map fs → (eq a b = true ↔
      (∀ e ∈ es, b.hasKey e.1 = true) ∧ (∀ f ∈ fs, a.hasKey f.1 = true) ∧
        ∀ e ∈ es, ∀ f ∈ fs, eq e.1 f.1 = true → eq e.2 f.2 = true) := by
  have regularA : Regular a := ⟨obtainedA.sound, ordinaryA⟩
  have regularB : Regular b := ⟨obtainedB.sound, ordinaryB⟩
  have regularC : Regular c := ⟨obtainedC.sound, ordinaryC⟩
  refine ⟨?reflexive, ?symmetric, ?transitive, ?sets, ?maps⟩
  case reflexive => exact regular_laws.refl a regularA
  case symmetric => exact regular_laws.symm a b regularA regularB
  case transitive => exact regular_laws.trans a b c regularA regularB regularC
  case sets =>
    rintro xs ys rfl rfl
    exact equal_sets_iff regularA regularB
  case maps =>
    rintro es fs rfl rfl
    exact equal_maps_iff regularA regularB

theorem equality_of_ordinary_turned :
    eq (ofItems [int 1, date .nan]) (ofItems [date .nan, int 1]) = true := by
  have apart : Distinct [int 1, date .nan] := by simp [Distinct, eq]
  have turned : Distinct [date .nan, int 1] := by simp [Distinct, eq]
  have ordinary {items : List Value} (inside : ∀ item ∈ items, item = int 1 ∨ item = date .nan) :
      Throughout Ordinary (set items) := by
    refine .intro trivial fun item member => ?_
    rcases inside item member with rfl | rfl
    · exact .intro ⟨by decide, by decide⟩ fun _ none => by cases none
    · exact .intro trivial fun _ none => by cases none
  have first : Obtained (ofItems [int 1, date .nan]) := .ofItems (by simp [Obtained.int, Obtained.date])
  have second : Obtained (ofItems [date .nan, int 1]) := .ofItems (by simp [Obtained.int, Obtained.date])
  rw [ofItems_of_distinct apart] at first ⊢
  rw [ofItems_of_distinct turned] at second ⊢
  obtain ⟨_, _, _, sets, _⟩ := equality_of_ordinary first second first (ordinary (by simp))
    (ordinary (by simp)) (ordinary (by simp))
  rw [sets _ _ rfl rfl]
  simp [includes, eq, Binary64.isNaN]

end Characterized

end Value
end Schemata
