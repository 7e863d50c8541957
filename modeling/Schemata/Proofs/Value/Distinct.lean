import Schemata.Value.Basic

/-! Sets without repeated elements and maps without repeated keys. `eq` is neither reflexive nor
transitive - not-a-number differs from itself, an integer is rounded to meet a double - so all that
can be kept is that no earlier element equals a later one. -/
namespace Schemata.Value

variable {items seen : List Value} {item v key value : Value} {all entries : List (Value × Value)}

/-- No element equals a later one. -/
def Distinct (items : List Value) : Prop := items.Pairwise fun earlier later => eq earlier later =
    false

theorem mem_addItem (member : item ∈ addItem items v) : item ∈ items ∨ item = v := by
  unfold addItem at member
  split at member
  · exact .inl member
  · simpa using member

theorem Distinct.addItem (distinct : Distinct items) : Distinct (addItem items v) := by
  unfold Value.addItem
  split
  · exact distinct
  · rename_i fresh
    refine List.pairwise_append.mpr ⟨distinct, List.pairwise_singleton _ _, ?_⟩
    simpa using fresh

theorem mem_foldl_addItem (member : item ∈ items.foldl addItem seen) :
    item ∈ seen ∨ item ∈ items := by
  induction items generalizing seen with
  | nil => exact .inl member
  | cons first rest ih =>
    rcases ih member with before | later
    · rcases mem_addItem before with old | rfl
      · exact .inl old
      · exact .inr List.mem_cons_self
    · exact .inr (List.mem_cons_of_mem first later)

theorem Distinct.foldl_addItem (distinct : Distinct seen) : Distinct
    (items.foldl Value.addItem seen) := by
  induction items generalizing seen with
  | nil => exact distinct
  | cons first rest ih => exact ih distinct.addItem

/-- Items that no earlier one equals stay, whatever becomes of the others. -/
theorem filter_foldl_addItem {p : Value → Bool}
    (apart : (seen ++ items).Pairwise fun earlier later => p later = true → eq earlier later = false) :
    (items.foldl addItem seen).filter p = (seen ++ items).filter p := by
  induction items generalizing seen with
  | nil => simp
  | cons first rest ih =>
    rw [List.foldl_cons, addItem]
    split
    · rename_i repeated
      rw [ih (apart.sublist ((List.sublist_cons_self first rest).append_left seen))]
      cases chosen : p first with
      | false => simp [chosen]
      | true =>
        obtain ⟨item, member, equal⟩ := List.any_eq_true.mp repeated
        have unequal := (List.pairwise_append.mp apart).2.2 item member first List.mem_cons_self chosen
        exact absurd equal (by simp [unequal])
    · rw [ih (by simpa using apart), List.append_assoc, List.singleton_append]

theorem foldl_addItem_of_distinct (distinct : Distinct (seen ++ items)) :
    items.foldl addItem seen = seen ++ items := by
  have whole (l : List Value) : l.filter (fun _ => true) = l := List.filter_eq_self.mpr fun _ _ => rfl
  have kept := filter_foldl_addItem (p := fun _ => true) (distinct.imp fun apart _ => apart)
  rwa [whole, whole] at kept

/-- The keys of a map change as the elements of a set do. -/
theorem keys_putEntry : (putEntry key value all).map Prod.fst = addItem (all.map Prod.fst) key := by
  induction all with
  | nil => rfl
  | cons entry rest ih =>
    obtain ⟨k, v⟩ := entry
    simp only [putEntry, addItem, List.map_cons, List.any_cons] at ih ⊢
    cases eq k key with
    | true => rfl
    | false =>
      simp only [Bool.false_eq_true, if_false, List.map_cons, ih, Bool.false_or]
      split <;> rfl

theorem keys_foldl_putEntry : (entries.foldl (fun all e => putEntry e.1 e.2 all) all).map Prod.fst =
    (entries.map Prod.fst).foldl addItem (all.map Prod.fst) := by
  induction entries generalizing all with
  | nil => rfl
  | cons entry rest ih => rw [List.foldl_cons, ih, keys_putEntry]; rfl

theorem mem_values_putEntry (member : v ∈ (putEntry key value all).map Prod.snd) :
    v ∈ all.map Prod.snd ∨ v = value := by
  induction all with
  | nil => simpa [putEntry] using member
  | cons entry rest ih =>
    simp only [putEntry, List.map_cons, List.mem_cons] at member ⊢
    split at member
    · simp only [List.map_cons, List.mem_cons] at member
      grind
    · simp only [List.map_cons, List.mem_cons] at member
      grind

theorem mem_values_foldl_putEntry
    (member : v ∈ (entries.foldl (fun all e => putEntry e.1 e.2 all) all).map Prod.snd) :
    v ∈ all.map Prod.snd ∨ v ∈ entries.map Prod.snd := by
  induction entries generalizing all with
  | nil => exact .inl member
  | cons entry rest ih =>
    rcases ih member with before | later
    · rcases mem_values_putEntry before with old | rfl
      · exact .inl old
      · exact .inr List.mem_cons_self
    · exact .inr (List.mem_cons_of_mem _ later)

theorem putEntry_of_fresh (fresh : ∀ e ∈ all, eq e.1 key = false) :
    putEntry key value all = all ++ [(key, value)] := by
  induction all with
  | nil => rfl
  | cons entry rest ih =>
    obtain ⟨first, others⟩ := List.forall_mem_cons.mp fresh
    rw [putEntry, if_neg (by simp [first]), ih others]
    rfl

theorem foldl_putEntry_of_distinct (distinct : Distinct ((all ++ entries).map Prod.fst)) :
    entries.foldl (fun all e => putEntry e.1 e.2 all) all = all ++ entries := by
  induction entries generalizing all with
  | nil => simp
  | cons entry rest ih =>
    have fresh : ∀ e ∈ all, eq e.1 entry.1 = false := by
      rw [List.map_append] at distinct
      exact fun e member => (List.pairwise_append.mp distinct).2.2 e.1 (List.mem_map_of_mem member)
        entry.1 List.mem_cons_self
    rw [List.foldl_cons, putEntry_of_fresh fresh, ih (by simpa using distinct)]
    simp

/-- A set as it is built. -/
theorem ofItems_spec (items : List Value) :
    ∃ kept, ofItems items = set kept ∧ Distinct kept ∧ ∀ v ∈ kept, v ∈ items := by
  refine ⟨_, rfl, Distinct.foldl_addItem List.Pairwise.nil, fun v member => ?_⟩
  rcases mem_foldl_addItem member with old | new
  · cases old
  · exact new

theorem ofItems_of_distinct (distinct : Distinct items) : ofItems items = set items := by
  have behind : Distinct ([] ++ items) := distinct
  rw [ofItems, foldl_addItem_of_distinct behind]
  rfl

/-- A map as it is built. -/
theorem ofEntries_spec (entries : List (Value × Value)) :
    ∃ kept, ofEntries entries = map kept ∧ Distinct (kept.map Prod.fst) ∧
    (∀ k ∈ kept.map Prod.fst, k ∈ entries.map Prod.fst) ∧
      ∀ v ∈ kept.map Prod.snd, v ∈ entries.map Prod.snd := by
  refine ⟨_, rfl, ?_, fun k member => ?_, fun v member => ?_⟩
  · rw [keys_foldl_putEntry]
    exact Distinct.foldl_addItem List.Pairwise.nil
  · rw [keys_foldl_putEntry] at member
    rcases mem_foldl_addItem member with old | new
    · cases old
    · exact new
  · rcases mem_values_foldl_putEntry member with old | new
    · cases old
    · exact new

theorem ofEntries_of_distinct (distinct : Distinct (entries.map Prod.fst)) :
    ofEntries entries = map entries := by
  have behind : Distinct (([] ++ entries).map Prod.fst) := distinct
  rw [ofEntries, foldl_putEntry_of_distinct behind]
  rfl

end Schemata.Value
