import Schemata.Proofs.Value.Equality
import Schemata.Proofs.Value.Retained

/-! Maps and sets as finite maps and finite sets. Without integers beyond 2^53 equality is symmetric and
transitive, so an entry that is put into a map takes the place of the one with an equal key, and all others
stay as they are and where they are. A map of entries then has each key where it first occurs with the value
of the last entry under an equal key, and a set each item where it first occurs. Not-a-number, which equals
nothing, is a new key and a new item every time. -/
namespace Schemata.Value

variable {items kept : List Value} {entries : List (Value × Value)} {key value k v last : Value}

/-- The items that no earlier one equals in their keys, in their order. -/
def firstOccurrences (keyOf : α → Value) (items : List α) : List α :=
  (items.zipIdx.filter fun p => !(items.take p.2).any fun earlier => eq (keyOf earlier) (keyOf p.1)).map
    Prod.fst

/-- The value of the last entry under an equal key, or else the entry's own. -/
def lastValue (entries : List (Value × Value)) (e : Value × Value) : Value :=
  ((entries.reverse.find? fun f => eq e.1 f.1).getD e).2

/-- The keys where they first occur, each with its last value. -/
def lastEntries (entries : List (Value × Value)) : List (Value × Value) :=
  (firstOccurrences Prod.fst entries).map fun e => (e.1, lastValue entries e)

theorem firstOccurrences_concat (keyOf : α → Value) (items : List α) (last : α) :
    firstOccurrences keyOf (items ++ [last]) = firstOccurrences keyOf items ++
      if (items.any fun item => eq (keyOf item) (keyOf last)) = true then [] else [last] := by
  have inside : ∀ p ∈ items.zipIdx, (items ++ [last]).take p.2 = items.take p.2 := by
    intro p member
    have small := (List.mem_zipIdx member).2.1
    exact List.take_append_of_le_length (by omega)
  have front : items.zipIdx.filter
        (fun p => !((items ++ [last]).take p.2).any fun e => eq (keyOf e) (keyOf p.1)) =
      items.zipIdx.filter fun p => !(items.take p.2).any fun e => eq (keyOf e) (keyOf p.1) :=
    List.filter_congr fun p member => by rw [inside p member]
  have whole : (items ++ [last]).take items.length = items := List.take_left
  rw [firstOccurrences, List.zipIdx_append, List.filter_append, front, List.map_append,
    ← firstOccurrences]
  cases found : items.any fun item => eq (keyOf item) (keyOf last) <;> simp [whole, found]

theorem lastValue_concat (entries : List (Value × Value)) (last e : Value × Value) :
    lastValue (entries ++ [last]) e = if eq e.1 last.1 = true then last.2 else lastValue entries e := by
  rw [lastValue, List.reverse_append, List.reverse_singleton, List.singleton_append, List.find?_cons]
  cases found : eq e.1 last.1 <;> simp [lastValue]

section Precise

theorem Regular.precise (regular : Regular v) : Precise v := ⟨regular.1, throughout_exact regular.2⟩

theorem Precise.eq_comm (first : Precise k) (second : Precise key) : eq k key = eq key k :=
  Bool.eq_iff_iff.mpr ⟨precise_laws.symm k key first second, precise_laws.symm key k second first⟩

theorem Precise.eq_trans (first : Precise k) (second : Precise v) (third : Precise key)
    (near : eq k v = true) (far : eq v key = true) : eq k key = true :=
  precise_laws.trans k v key first second third near far

/-- The kept items have one that equals a precise value if any of the items does. -/
theorem FirstsOf.any_eq (firsts : FirstsOf items kept) (precise : ∀ item ∈ items, Precise item)
    (own : Precise last) : (kept.any fun item => eq item last) = items.any fun item => eq item last := by
  rw [Bool.eq_iff_iff, List.any_eq_true, List.any_eq_true]
  constructor
  · rintro ⟨item, member, same⟩
    exact ⟨item, firsts.sublist.subset member, same⟩
  · rintro ⟨item, member, same⟩
    obtain ⟨before, after, split⟩ := List.append_of_mem member
    rcases firsts.covered before item after split with inside | ⟨first, _, inside, equal⟩
    · exact ⟨item, inside, same⟩
    · have listed := precise first (firsts.sublist.subset inside)
      exact ⟨first, inside, listed.eq_trans (precise item member) own equal same⟩

theorem foldl_addItem_eq (precise : ∀ item ∈ items, Precise item) :
    items.foldl addItem [] = firstOccurrences id items := by
  induction items using List.reverseRecOn with
  | nil => rfl
  | append_singleton items last ih =>
    obtain ⟨before, own⟩ := List.forall_mem_append.mp precise
    have firsts := firstsOf_foldl items
    rw [ih before] at firsts
    rw [List.foldl_append, List.foldl_cons, List.foldl_nil, ih before, firstOccurrences_concat, addItem,
      firsts.any_eq before (own last List.mem_cons_self)]
    simp only [id_eq]
    split <;> simp

/-- A set has exactly the first occurrences of its items. -/
theorem ofItems_eq (precise : ∀ item ∈ items, Precise item) :
    ofItems items = set (firstOccurrences id items) := by
  rw [ofItems, foldl_addItem_eq precise]

/-- Precise keys, none of which equals a later one. -/
structure PreciseKeys (entries : List (Value × Value)) : Prop where
  precise : ∀ e ∈ entries, Precise e.1
  distinct : Distinct (entries.map Prod.fst)

theorem preciseKeys_of_sound (sound : Sound (map entries))
    (exact : ∀ e ∈ entries, Throughout Exact e.1) : PreciseKeys entries where
  precise e member :=
    ⟨sound.part (List.mem_append_left _ (List.mem_map_of_mem member)), exact e member⟩
  distinct := (sound_map_iff.mp sound).1

theorem preciseKeys_of_firsts {others : List (Value × Value)} (precise : ∀ e ∈ entries, Precise e.1)
    (firsts : FirstsOf (entries.map Prod.fst) (others.map Prod.fst)) : PreciseKeys others where
  precise e member := by
    have listed : ∀ k ∈ entries.map Prod.fst, Precise k := List.forall_mem_map.mpr precise
    exact listed e.1 (firsts.sublist.subset (List.mem_map_of_mem member))
  distinct := firsts.distinct

theorem PreciseKeys.put (keys : PreciseKeys entries) (own : Precise key) (value : Value) :
    PreciseKeys (putEntry key value entries) where
  precise e member := by
    have inside : e.1 ∈ addItem (entries.map Prod.fst) key := by
      rw [← keys_putEntry]
      exact List.mem_map_of_mem member
    rcases mem_addItem inside with old | new
    · exact List.forall_mem_map.mpr keys.precise e.1 old
    · exact new ▸ own
  distinct := by
    rw [keys_putEntry]
    exact keys.distinct.addItem

/-- An entry that is put takes the place of the one with an equal key, or else the last place. -/
theorem putEntry_eq (keys : PreciseKeys entries) (own : Precise key) (value : Value) :
    putEntry key value entries =
      entries.map (fun e => (e.1, if eq e.1 key = true then value else e.2)) ++
        if (entries.any fun e => eq e.1 key) = true then [] else [(key, value)] := by
  have kept {part : List (Value × Value)} (apart : ∀ e ∈ part, eq e.1 key = false) :
      part.map (fun e => (e.1, if eq e.1 key = true then value else e.2)) = part := by
    refine (List.map_congr_left fun e member => ?_).trans (List.map_id part)
    rw [if_neg (Bool.eq_false_iff.mp (apart e member))]
    rfl
  rcases putEntry_cases key value entries with
    ⟨front, k, old, back, rfl, before, same, put⟩ | ⟨fresh, put⟩
  · have present : (front ++ (k, old) :: back).any (fun e => eq e.1 key) = true :=
      List.any_eq_true.mpr ⟨(k, old), by simp, same⟩
    have behind : ∀ e ∈ back, eq e.1 key = false := by
      intro e member
      have preciseK := keys.precise (k, old) (by simp)
      have preciseE := keys.precise e (by simp [member])
      have distinct := List.pairwise_map.mp keys.distinct
      have apart := (List.pairwise_cons.mp (List.pairwise_append.mp distinct).2.1).1 e member
      refine Bool.eq_false_iff.mpr fun equal => Bool.eq_false_iff.mp apart ?_
      exact preciseK.eq_trans own preciseE same (own.eq_comm preciseE ▸ equal)
    rw [put, if_pos present, List.append_nil, List.map_append, List.map_cons, kept before, kept behind,
      if_pos same]
  · have absent : ¬ (entries.any fun e => eq e.1 key) = true := by simpa using fresh
    rw [put, if_neg absent, kept fresh]

theorem entryUnder?_put_self (same : eq key key = true) (value : Value)
    (entries : List (Value × Value)) :
    ∃ k, entryUnder? key (putEntry key value entries) = some (k, value) := by
  rcases putEntry_cases key value entries with
    ⟨front, k, old, back, rfl, before, found, put⟩ | ⟨fresh, put⟩
  · refine ⟨k, put ▸ List.find?_eq_some_iff_append.mpr ⟨found, front, back, rfl, fun e member => ?_⟩⟩
    rw [before e member]
    rfl
  · refine ⟨key, put ▸ List.find?_eq_some_iff_append.mpr
      ⟨same, entries, [], rfl, fun e member => ?_⟩⟩
    rw [fresh e member]
    rfl

/-- An entry that is put leaves what is under any other key. -/
theorem entryUnder?_put_other (keys : PreciseKeys entries) (own : Precise key) (other : Precise k)
    (different : eq k key = false) (value : Value) :
    entryUnder? k (putEntry key value entries) = entryUnder? k entries := by
  rcases putEntry_cases key value entries with
    ⟨front, first, old, back, rfl, _, same, put⟩ | ⟨_, put⟩
  · have apart : eq first k = false := by
      refine Bool.eq_false_iff.mpr fun equal => Bool.eq_false_iff.mp different ?_
      have precise := keys.precise (first, old) (by simp)
      exact other.eq_trans precise own (precise.eq_comm other ▸ equal) same
    rw [put, entryUnder?, entryUnder?]
    simp only [List.find?_append, List.find?_cons, apart]
  · have apart : eq key k = false := own.eq_comm other ▸ different
    rw [put, entryUnder?, entryUnder?]
    simp only [List.find?_append, List.find?_cons, apart, List.find?_nil, Option.or_none]

/-- What becomes of the entries of a map when one is put there: its key has the value, all other keys have
what they had, one more entry is there unless the key was, and the old ones keep their places. -/
structure Put (key value : Value) (before after : List (Value × Value)) : Prop where
  found : (map after).get key = value
  present : (map after).hasKey key = true
  others : ∀ k, Precise k → eq k key = false →
    (map after).get k = (map before).get k ∧ (map after).hasKey k = (map before).hasKey k
  size : (map after).size = (map before).size + if (map before).hasKey key = true then 0 else 1
  places : ∀ (i : Nat) (k v : Value), before[i]? = some (k, v) →
    ∃ v' : Value, after[i]? = some (k, v') ∧ (eq k key = false → v' = v)

theorem put_putEntry (keys : PreciseKeys entries) (regular : Regular key) (value : Value) :
    Put key value entries (putEntry key value entries) where
  found := by
    obtain ⟨k, under⟩ := entryUnder?_put_self regular.equal_self value entries
    rw [get, under]
    rfl
  present := by
    obtain ⟨k, under⟩ := entryUnder?_put_self regular.equal_self value entries
    rw [hasKey, under]
    rfl
  others k other different := by
    have same := entryUnder?_put_other keys regular.precise other different value
    exact ⟨by rw [get, get, same], by rw [hasKey, hasKey, same]⟩
  size := by
    have known : (map entries).hasKey key = entries.any fun e => eq e.1 key :=
      Bool.eq_iff_iff.mpr (hasKey_map_iff.trans List.any_eq_true.symm)
    rw [putEntry_eq keys regular.precise, known]
    split <;> simp [size]
  places i k v there := by
    refine ⟨if eq k key = true then value else v, ?_, fun different => if_neg (by simp [different])⟩
    have inside : i < entries.length := (List.getElem?_eq_some_iff.mp there).1
    rw [putEntry_eq keys regular.precise, List.getElem?_append_left (by simpa using inside),
      List.getElem?_map, there]
    rfl

/-- One more entry is put into its place. -/
theorem lastEntries_concat (precise : ∀ e ∈ entries, Precise e.1)
    (firsts : FirstsOf (entries.map Prod.fst) ((lastEntries entries).map Prod.fst))
    (own : Precise key) (value : Value) :
    lastEntries (entries ++ [(key, value)]) = putEntry key value (lastEntries entries) := by
  have keys : PreciseKeys (lastEntries entries) := preciseKeys_of_firsts precise firsts
  have listed : ∀ k ∈ entries.map Prod.fst, Precise k := List.forall_mem_map.mpr precise
  have present : ((lastEntries entries).any fun e => eq e.1 key) = entries.any fun e => eq e.1 key := by
    have same := firsts.any_eq listed own
    rwa [List.any_map, List.any_map] at same
  rw [putEntry_eq keys own, present, lastEntries, firstOccurrences_concat, List.map_append, lastEntries,
    List.map_map]
  congr 1
  · exact List.map_congr_left fun e _ => by rw [lastValue_concat]; rfl
  · cases found : entries.any fun e => eq e.1 key with
    | true => rfl
    | false =>
      have absent : (entries.reverse.find? fun f => eq key f.1) = none := by
        refine List.find?_eq_none.mpr fun f member => ?_
        have inside := List.mem_reverse.mp member
        rw [own.eq_comm (precise f inside)]
        exact List.any_eq_false.mp found f inside
      have new : lastValue (entries ++ [(key, value)]) (key, value) = value := by
        rw [lastValue_concat, lastValue, absent]
        exact ite_self value
      simp [new]

theorem foldl_putEntry_eq (precise : ∀ e ∈ entries, Precise e.1) :
    entries.foldl (fun all e => putEntry e.1 e.2 all) [] = lastEntries entries := by
  induction entries using List.reverseRecOn with
  | nil => rfl
  | append_singleton entries last ih =>
    obtain ⟨before, own⟩ := List.forall_mem_append.mp precise
    have lasts := lastsOf_foldl entries
    rw [ih before] at lasts
    rw [List.foldl_append, ih before, List.foldl_cons, List.foldl_nil]
    exact (lastEntries_concat before lasts.keys (own last List.mem_cons_self) last.2).symm

/-- A map of entries has each key where it first occurs, with its last value. -/
theorem ofEntries_eq (precise : ∀ e ∈ entries, Precise e.1) :
    ofEntries entries = map (lastEntries entries) := by
  rw [ofEntries, foldl_putEntry_eq precise]

end Precise

/-- A third key that equals two keys which differ is put under the first, and the second has no part in it. -/
theorem ofEntries_shared {x y z : Value} (apart : eq x y = false) (first : eq x z = true)
    (second : eq y z = true) (a b c : Value) :
    ofEntries [(x, a), (y, b), (z, c)] = map [(x, c), (y, b)] ∧
      lastEntries [(x, a), (y, b), (z, c)] = [(x, c), (y, c)] := by
  constructor
  · simp only [ofEntries, List.foldl_cons, List.foldl_nil, putEntry, apart, first, if_true,
      Bool.false_eq_true, if_false]
  · simp [lastEntries, lastValue, firstOccurrences, apart, first, second]

/-- Maps and sets are finite maps and finite sets as far as their keys and items are without integers
beyond 2^53 and without repetitions inside. All that is obtained is without repetitions, and an entry that
is put leaves the keys so; nothing is asked of the values. With larger integers an entry may equal several
keys that are kept, and its value is put under the first of them only. -/
theorem finite_map_laws :
    (∀ v, Obtained v → Sound v) ∧
    (∀ entries, Sound (map entries) → (∀ e ∈ entries, Throughout Exact e.1) → PreciseKeys entries) ∧
    (∀ entries key value, PreciseKeys entries → Regular key → ∃ after,
      Edit.put key value (map entries) = (.ok (), map after) ∧ Put key value entries after ∧
        PreciseKeys after) ∧
    (∀ entries, (∀ e ∈ entries, Precise e.1) →
      ofEntries entries = map (lastEntries entries) ∧ PreciseKeys (lastEntries entries)) ∧
    (∀ items, (∀ item ∈ items, Precise item) → ofItems items = set (firstOccurrences id items)) ∧
    ∀ entries, ∃ kept, ofEntries entries = map kept ∧ LastsOf entries kept := by
  refine ⟨fun _ => Obtained.sound, fun _ => preciseKeys_of_sound, ?put, ?entries, fun _ => ofItems_eq,
    fun entries => ⟨_, rfl, lastsOf_foldl entries⟩⟩
  case put =>
    intro entries key value keys regular
    exact ⟨putEntry key value entries, rfl, put_putEntry keys regular value,
      keys.put regular.precise value⟩
  case entries =>
    intro entries precise
    have lasts := lastsOf_foldl entries
    rw [foldl_putEntry_eq precise] at lasts
    exact ⟨ofEntries_eq precise, preciseKeys_of_firsts precise lasts.keys⟩

/-- A value of the first map is a set that repeats an element. -/
theorem finite_map_laws_integers :
    (∃ after, Edit.put (int 2) (bool true) (map [(int 1, set [null, null])]) = (.ok (), map after) ∧
      (map after).get (int 2) = bool true ∧ (map after).get (int 1) = set [null, null] ∧
      (map after).size = 2) ∧
    ofEntries [(int 1, null), (int 2, null), (int 1, bool true)] =
      map [(int 1, bool true), (int 2, null)] ∧
    ofItems [int 1, int 2, int 1] = set [int 1, int 2] := by
  obtain ⟨sound, _, puts, entries, items, _⟩ := finite_map_laws
  have regular {n : Int64} (small : n = 1 ∨ n = 2) : Regular (int n) := by
    refine ⟨sound _ (.int n), .intro ?_ fun _ none => by cases none⟩
    rcases small with rfl | rfl <;> exact ⟨by decide, by decide⟩
  have one : Precise (int 1) := (regular (.inl rfl)).precise
  have two : Precise (int 2) := (regular (.inr rfl)).precise
  have apart : eq (int 1) (int 2) = false := by simp [eq]
  have alone : PreciseKeys [(int 1, set [null, null])] :=
    ⟨List.forall_mem_singleton.mpr one, List.pairwise_singleton _ _⟩
  refine ⟨?_, ?_, ?_⟩
  · obtain ⟨after, put, laws, _⟩ := puts _ (int 2) (bool true) alone (regular (.inr rfl))
    refine ⟨after, put, laws.found, ?_, ?_⟩
    · rw [(laws.others (int 1) one apart).1]
      simp [get, entryUnder?, eq]
    · rw [laws.size]
      simp [size, hasKey, entryUnder?, apart]
  · rw [(entries _ (by simp [one, two])).1]
    simp [lastEntries, lastValue, firstOccurrences, eq]
  · rw [items _ (by simp [one, two])]
    simp [firstOccurrences, eq]

/-- The last entry has a key that equals both integers, but its value is put under the first of them only. -/
theorem ofEntries_under_first_key :
    ofEntries [(int (2 ^ 53), int 1), (int (2 ^ 53 + 1), int 2), (double (.ofInt (2 ^ 53)), int 3)] =
      map [(int (2 ^ 53), int 3), (int (2 ^ 53 + 1), int 2)] ∧
    lastEntries [(int (2 ^ 53), int 1), (int (2 ^ 53 + 1), int 2), (double (.ofInt (2 ^ 53)), int 3)] =
      [(int (2 ^ 53), int 3), (int (2 ^ 53 + 1), int 3)] := by
  have same : eq (int (2 ^ 53)) (double (.ofInt (2 ^ 53))) = true := by
    rw [eq]
    decide +kernel
  have same' : eq (int (2 ^ 53 + 1)) (double (.ofInt (2 ^ 53))) = true := by
    rw [eq]
    decide +kernel
  have apart : eq (int (2 ^ 53)) (int (2 ^ 53 + 1)) = false := by
    rw [eq]
    decide
  exact ofEntries_shared apart same same' (int 1) (int 2) (int 3)

end Schemata.Value
