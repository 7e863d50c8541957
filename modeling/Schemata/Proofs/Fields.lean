import Schemata.Fields

/-! What is found in fields after a write. None of it needs the keys to ascend: `insert` puts a new
entry before any later one of its key and replaces the first one that is there. Keys that ascend go on
to do so, and then none occurs twice. -/
namespace Schemata.Fields

variable {fields : Fields α} {key other : Text} {value : α}

@[simp] theorem find?_insert_self : find? key (insert key value fields) = some value := by
  induction fields with
  | nil => simp [insert, find?]
  | cons entry rest ih =>
    obtain ⟨k, v⟩ := entry
    simp only [insert]
    split
    · simp [find?]
    · split
      · simp [find?]
      · rename_i different
        simpa only [find?, if_neg (Ne.symm different)] using ih

theorem find?_insert_of_ne (different : other ≠ key) :
    find? other (insert key value fields) = find? other fields := by
  induction fields with
  | nil => simp [insert, find?, Ne.symm different]
  | cons entry rest ih =>
    obtain ⟨k, v⟩ := entry
    simp only [insert]
    split
    · simp only [find?, if_neg (Ne.symm different)]
    · split
      · rename_i same
        subst same
        simp only [find?, if_neg (Ne.symm different)]
      · simp only [find?, ih]

/-- Of two entries set under one key the second stays. -/
theorem insert_insert_self (first second : α) :
    insert key second (insert key first fields) = insert key second fields := by
  induction fields with
  | nil => simp [insert, Std.lt_irrefl]
  | cons entry rest ih =>
    obtain ⟨k, v⟩ := entry
    simp only [insert]
    split
    · simp [insert, Std.lt_irrefl]
    · split
      · simp [insert, Std.lt_irrefl]
      · rename_i before different
        rw [insert, if_neg before, if_neg different, ih]

/-- Entries under two keys may be set in either order. -/
theorem insert_comm (different : key ≠ other) (first second : α) :
    insert key first (insert other second fields) = insert other second (insert key first fields) := by
  induction fields with
  | nil =>
    simp [insert]
    grind
  | cons entry rest ih =>
    obtain ⟨k, v⟩ := entry
    simp only [insert]
    grind [insert]

@[simp] theorem insert_ne_nil : insert key value fields ≠ [] := by
  cases fields with
  | nil => simp [insert]
  | cons entry rest =>
    simp only [insert]
    split
    · simp
    · split <;> simp

/-- A new key adds its entry and leaves the others. -/
theorem insert_perm (fresh : key ∉ keys fields) :
    (insert key value fields).Perm ((key, value) :: fields) := by
  induction fields with
  | nil => exact List.Perm.refl _
  | cons entry rest ih =>
    obtain ⟨k, v⟩ := entry
    simp only [keys, List.map_cons, List.mem_cons, not_or] at fresh
    simp only [insert, if_neg fresh.1]
    split
    · exact List.Perm.refl _
    · exact ((ih fresh.2).cons (k, v)).trans (List.Perm.swap (key, value) (k, v) rest)

theorem mem_of_mem_insert {e : Text × α} (member : e ∈ insert key value fields) :
    e = (key, value) ∨ e ∈ fields := by
  induction fields with
  | nil => exact .inl (List.mem_singleton.mp member)
  | cons entry rest ih =>
    obtain ⟨k, v⟩ := entry
    simp only [insert] at member
    split at member
    · exact List.mem_cons.mp member
    · split at member
      · rcases List.mem_cons.mp member with new | later
        · exact .inl new
        · exact .inr (List.mem_cons_of_mem _ later)
      · rcases List.mem_cons.mp member with rfl | later
        · exact .inr List.mem_cons_self
        · rcases ih later with new | old
          · exact .inl new
          · exact .inr (List.mem_cons_of_mem _ old)

theorem mem_keys_of_mem_insert (present : other ∈ keys (insert key value fields)) :
    other = key ∨ other ∈ keys fields := by
  obtain ⟨e, member, rfl⟩ := List.mem_map.mp present
  rcases mem_of_mem_insert member with rfl | old
  · exact .inl rfl
  · exact .inr (List.mem_map_of_mem old)

theorem mem_of_find? (found : find? key fields = some value) : (key, value) ∈ fields := by
  induction fields with
  | nil => cases found
  | cons entry rest ih =>
    obtain ⟨k, v⟩ := entry
    simp only [find?] at found
    split at found
    · rename_i same
      cases found
      exact same ▸ List.mem_cons_self
    · exact List.mem_cons_of_mem _ (ih found)

theorem mem_keys_of_find? (found : find? key fields = some value) : key ∈ keys fields :=
  List.mem_map.mpr ⟨_, mem_of_find? found, rfl⟩

theorem find?_eq_none_of_not_mem (absent : key ∉ keys fields) : find? key fields = none := by
  cases found : find? key fields with
  | none => rfl
  | some value => exact absurd (mem_keys_of_find? found) absent

theorem contains_iff : contains key fields = true ↔ key ∈ keys fields := by
  rw [contains, Option.isSome_iff_exists]
  constructor
  · rintro ⟨value, found⟩
    exact mem_keys_of_find? found
  · intro listed
    induction fields with
    | nil => cases listed
    | cons entry rest ih =>
      obtain ⟨k, v⟩ := entry
      rw [find?]
      split
      · exact ⟨v, rfl⟩
      · rename_i other
        exact ih ((List.mem_cons.mp listed).resolve_left (Ne.symm other))

theorem mem_of_mem_erase {e : Text × α} (member : e ∈ erase key fields) : e ∈ fields := by
  induction fields with
  | nil => exact member
  | cons entry rest ih =>
    simp only [erase] at member
    split at member
    · exact List.mem_cons_of_mem entry member
    · rcases List.mem_cons.mp member with rfl | later
      · exact List.mem_cons_self
      · exact List.mem_cons_of_mem entry (ih later)

theorem Ascending.insert (ascending : Ascending fields) : Ascending (insert key value fields) := by
  induction fields with
  | nil => exact List.pairwise_singleton _ _
  | cons entry rest ih =>
    obtain ⟨k, v⟩ := entry
    obtain ⟨first, later⟩ := List.pairwise_cons.mp ascending
    simp only [Fields.insert]
    split
    · rename_i before
      refine List.pairwise_cons.mpr ⟨List.forall_mem_cons.mpr ⟨before, ?_⟩, ascending⟩
      exact fun e member => Std.lt_trans before (first e member)
    · rename_i reached
      split
      · rename_i same
        subst same
        exact List.pairwise_cons.mpr ⟨first, later⟩
      · rename_i different
        have behind : k < key :=
          Std.lt_of_le_of_ne (List.not_lt.mp reached) (Ne.symm different)
        refine List.pairwise_cons.mpr ⟨fun e member => ?_, ih later⟩
        rcases mem_of_mem_insert member with rfl | old
        · exact behind
        · exact first e old

/-- Where the keys ascend, setting what is there already changes nothing. -/
theorem Ascending.insert_of_find? (ascending : Ascending fields)
    (found : find? key fields = some value) : Fields.insert key value fields = fields := by
  induction fields with
  | nil => cases found
  | cons entry rest ih =>
    obtain ⟨k, v⟩ := entry
    obtain ⟨first, later⟩ := List.pairwise_cons.mp ascending
    rw [find?] at found
    by_cases same : k = key
    · subst same
      rw [if_pos rfl, Option.some.injEq] at found
      rw [Fields.insert, if_neg (Std.lt_irrefl (a := k)), if_pos rfl, found]
    · rw [if_neg same] at found
      have behind : k < key := first _ (mem_of_find? found)
      have apart : ¬ key < k := fun back => Std.lt_irrefl (Std.lt_trans behind back)
      rw [Fields.insert, if_neg apart, if_neg (Ne.symm same), ih later found]

theorem ascending_ofList (entries : List (Text × α)) : Ascending (ofList entries) := by
  have general : ∀ fields : Fields α, Ascending fields →
      Ascending (entries.foldl (fun fields e => Fields.insert e.1 e.2 fields) fields) := by
    induction entries with
    | nil => exact fun _ ascending => ascending
    | cons entry rest ih => exact fun _ ascending => ih _ ascending.insert
  exact general [] .nil

theorem Ascending.nodup (ascending : Ascending fields) : (keys fields).Nodup := by
  refine List.pairwise_map.mpr (ascending.imp fun before same => ?_)
  exact Std.lt_irrefl (same ▸ before)

theorem mem_foldl_insert {entries : List (Text × α)} {e : Text × α}
    (member : e ∈ entries.foldl (fun fields e => insert e.1 e.2 fields) fields) :
    e ∈ fields ∨ e ∈ entries := by
  induction entries generalizing fields with
  | nil => exact .inl member
  | cons entry rest ih =>
    rcases ih member with before | later
    · rcases mem_of_mem_insert before with rfl | old
      · exact .inr List.mem_cons_self
      · exact .inl old
    · exact .inr (List.mem_cons_of_mem entry later)

theorem mem_of_mem_ofList {entries : List (Text × α)} {e : Text × α}
    (member : e ∈ ofList entries) : e ∈ entries :=
  (mem_foldl_insert member).resolve_left List.not_mem_nil

end Schemata.Fields
