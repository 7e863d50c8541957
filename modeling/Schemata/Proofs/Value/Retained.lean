import Mathlib.Data.List.Induction
import Schemata.Proofs.Value.Distinct

/-! What is retained of items that are added to a set one after the other, and of entries that are
put into a map. A set keeps the first of equal items, and a map the first of equal keys, but with the
value that was put there last. `eq` is not transitive: an item may equal several that are kept, and an
entry is put under the first such key. -/
namespace Schemata.Value

variable {items kept : List Value} {last key value k v : Value} {entries all : List (Value × Value)}

/-- The items without those that an earlier kept one equals, in their order. -/
structure FirstsOf (items kept : List Value) : Prop where
  sublist : kept.Sublist items
  distinct : Distinct kept
  covered : ∀ before v after, items = before ++ v :: after →
    v ∈ kept ∨ ∃ earlier ∈ before, earlier ∈ kept ∧ eq earlier v = true

theorem mem_addItem_of_mem (member : v ∈ kept) : v ∈ addItem kept last := by
  unfold addItem
  split
  · exact member
  · exact List.mem_append_left _ member

theorem mem_addItem_or_equal (items : List Value) (last : Value) :
    last ∈ addItem items last ∨ ∃ earlier ∈ items, eq earlier last = true := by
  unfold addItem
  split
  · exact .inr (List.any_eq_true.mp ‹_›)
  · exact .inl (List.mem_append_right _ List.mem_cons_self)

/-- One more item behind the others. -/
theorem FirstsOf.concat (firsts : FirstsOf items kept) (last : Value) :
    FirstsOf (items ++ [last]) (addItem kept last) where
  sublist := by
    unfold addItem
    split
    · exact firsts.sublist.trans (List.sublist_append_left items [last])
    · exact firsts.sublist.append (List.Sublist.refl [last])
  distinct := firsts.distinct.addItem
  covered := by
    intro before v after split
    rcases List.eq_nil_or_concat after with rfl | ⟨others, w, rfl⟩
    · obtain ⟨rfl, same⟩ := List.append_inj' split rfl
      obtain rfl : last = v := List.head_eq_of_cons_eq same
      rcases mem_addItem_or_equal kept last with new | ⟨earlier, member, equal⟩
      · exact .inl new
      · exact .inr ⟨earlier, firsts.sublist.subset member, mem_addItem_of_mem member, equal⟩
    · have shorter : items ++ [last] = (before ++ v :: others) ++ [w] := by
        rw [split, List.concat_eq_append, List.append_assoc, List.cons_append]
      obtain ⟨same, _⟩ := List.append_inj' shorter rfl
      rcases firsts.covered before v others same with member | ⟨earlier, inside, member, equal⟩
      · exact .inl (mem_addItem_of_mem member)
      · exact .inr ⟨earlier, inside, mem_addItem_of_mem member, equal⟩

theorem firstsOf_foldl (items : List Value) : FirstsOf items (items.foldl addItem []) := by
  induction items using List.reverseRecOn with
  | nil => exact ⟨.slnil, .nil, fun before v after split => by simp at split⟩
  | append_singleton items last ih =>
    rw [List.foldl_append, List.foldl_cons, List.foldl_nil]
    exact ih.concat last

/-- The value is that of the last entry whose key equals this one and none in front of it. -/
def LastUnder (entries : List (Value × Value)) (front : List Value) (k v : Value) : Prop :=
  ∃ before k' after, entries = before ++ (k', v) :: after ∧ (k' = k ∨ eq k k' = true) ∧
    ∀ e ∈ after, eq k e.1 = true → ∃ f ∈ front, eq f e.1 = true

theorem lastUnder_concat_self {front : List Value} (own : key = k ∨ eq k key = true) :
    LastUnder (entries ++ [(key, value)]) front k value :=
  ⟨entries, key, [], rfl, own, nofun⟩

theorem LastUnder.concat {front : List Value} (under : LastUnder entries front k v)
    (elsewhere : eq k key = true → ∃ f ∈ front, eq f key = true) :
    LastUnder (entries ++ [(key, value)]) front k v := by
  obtain ⟨before, k', after, rfl, own, later⟩ := under
  refine ⟨before, k', after ++ [(key, value)], ?_, own, ?_⟩
  · rw [List.append_assoc, List.cons_append]
  · intro e member
    rcases List.mem_append.mp member with old | new
    · exact later e old
    · obtain rfl := List.mem_singleton.mp new
      exact elsewhere

/-- The entries with the first of equal keys, each with the value that was put there last. -/
structure LastsOf (entries kept : List (Value × Value)) : Prop where
  keys : FirstsOf (entries.map Prod.fst) (kept.map Prod.fst)
  values : ∀ front k v back, kept = front ++ (k, v) :: back →
    LastUnder entries (front.map Prod.fst) k v

/-- An entry replaces the value of the first key that equals its own, or else it comes last. -/
theorem putEntry_cases (key value : Value) (all : List (Value × Value)) :
    (∃ front k old back, all = front ++ (k, old) :: back ∧ (∀ f ∈ front, eq f.1 key = false) ∧
      eq k key = true ∧ putEntry key value all = front ++ (k, value) :: back) ∨
    ((∀ e ∈ all, eq e.1 key = false) ∧ putEntry key value all = all ++ [(key, value)]) := by
  induction all with
  | nil => exact .inr ⟨nofun, rfl⟩
  | cons entry rest ih =>
    obtain ⟨k, old⟩ := entry
    rw [putEntry]
    split
    · exact .inl ⟨[], k, old, rest, rfl, nofun, ‹_›, rfl⟩
    · have apart : eq k key = false := by simpa using ‹¬ eq k key = true›
      rcases ih with ⟨front, k', old', back, rfl, before, equal, put⟩ | ⟨fresh, put⟩
      · refine .inl ⟨(k, old) :: front, k', old', back, rfl, ?_, equal, by rw [put]; rfl⟩
        exact List.forall_mem_cons.mpr ⟨apart, before⟩
      · exact .inr ⟨List.forall_mem_cons.mpr ⟨apart, fresh⟩, by rw [put]; rfl⟩

/-- The two ends of one list, each with an item behind it, meet or lie one in front of the other. -/
theorem append_cons_cases {first rest front back : List α} {a b : α}
    (same : first ++ a :: rest = front ++ b :: back) :
    (front = first ∧ a = b ∧ rest = back) ∨ (∃ between, first = front ++ b :: between) ∨
      ∃ between, front = first ++ a :: between ∧ rest = between ++ b :: back := by
  rcases List.append_eq_append_iff.mp same with ⟨between, rfl, tail⟩ | ⟨between, rfl, tail⟩
  · cases between with
    | nil =>
      obtain ⟨rfl, rfl⟩ := List.cons.inj tail
      exact .inl ⟨List.append_nil first, rfl, rfl⟩
    | cons c between =>
      obtain ⟨rfl, rfl⟩ := List.cons.inj tail
      exact .inr (.inr ⟨between, rfl, rfl⟩)
  · cases between with
    | nil =>
      obtain ⟨rfl, rfl⟩ := List.cons.inj tail
      exact .inl ⟨(List.append_nil front).symm, rfl, rfl⟩
    | cons c between =>
      obtain ⟨rfl, rfl⟩ := List.cons.inj tail
      exact .inr (.inl ⟨between, rfl⟩)

theorem LastsOf.concat (lasts : LastsOf entries all) (key value : Value) :
    LastsOf (entries ++ [(key, value)]) (putEntry key value all) where
  keys := by
    rw [keys_putEntry, List.map_append]
    exact lasts.keys.concat key
  values := by
    intro front k v back split
    rcases putEntry_cases key value all with
      ⟨first, k', old, rest, rfl, before, equal, put⟩ | ⟨fresh, put⟩
    · rw [put] at split
      rcases append_cons_cases split with
        ⟨rfl, same, _⟩ | ⟨between, rfl⟩ | ⟨between, rfl, rfl⟩
      -- The entry is put under this key, under a later one, or under an earlier one.
      · cases same
        exact lastUnder_concat_self (.inr equal)
      · have apart := before (k, v) (List.mem_append_right _ List.mem_cons_self)
        rw [List.append_assoc, List.cons_append] at lasts
        refine (lasts.values front k v _ rfl).concat fun equal => ?_
        rw [apart] at equal
        cases equal
      · have under := lasts.values (first ++ (k', old) :: between) k v back
          (by rw [List.append_assoc, List.cons_append])
        rw [List.map_append, List.map_cons] at under ⊢
        exact under.concat fun _ => ⟨k', List.mem_append_right _ List.mem_cons_self, equal⟩
    · rw [put] at split
      rcases List.eq_nil_or_concat back with rfl | ⟨others, w, rfl⟩
      · obtain ⟨rfl, same⟩ := List.append_inj' split rfl
        cases same
        exact lastUnder_concat_self (.inl rfl)
      · have shorter : all ++ [(key, value)] = (front ++ (k, v) :: others) ++ [w] := by
          rw [split, List.concat_eq_append, List.append_assoc, List.cons_append]
        obtain ⟨rfl, _⟩ := List.append_inj' shorter rfl
        have apart := fresh (k, v) (List.mem_append_right _ List.mem_cons_self)
        refine (lasts.values front k v others rfl).concat fun equal => ?_
        rw [apart] at equal
        cases equal

/-- A map of entries keeps the first of equal keys and the last value under each. -/
theorem lastsOf_foldl (entries : List (Value × Value)) :
    LastsOf entries (entries.foldl (fun all e => putEntry e.1 e.2 all) []) := by
  induction entries using List.reverseRecOn with
  | nil => exact ⟨firstsOf_foldl [], fun front k v back split => by simp at split⟩
  | append_singleton entries last ih =>
    rw [List.foldl_append, List.foldl_cons, List.foldl_nil]
    exact ih.concat last.1 last.2

end Schemata.Value
