import Mathlib.Data.List.Basic
import Schemata.Report
import Schemata.Proofs.Fields
import Schemata.Proofs.Lists
import Schemata.Proofs.Path.Canonical

/-! What a payload says. A payload reports failures if it lists each of them, and nothing else, under
whatever path it is put. Messages side by side, fields under keys and the entries of a map report the
failures of their parts. -/
namespace Schemata

/-- A message and the segments of the path to its place, the outermost first. -/
structure Failure where
  place : List Text
  message : Text

namespace Failure

/-- The segments with slashes between them. An empty segment at the front is not seen. -/
def path (f : Failure) : Text := [47].intercalate (f.place.dropWhile List.isEmpty)

def entry (f : Failure) : Report.Entry := ⟨f.path, f.message⟩

/-- The entry of a failure in what lies at a path. -/
def entryAt (path : Text) (f : Failure) : Report.Entry := ⟨f.place.foldl Report.join path, f.message⟩

/-- The failure as seen from further out. -/
def under (segments : List Text) (f : Failure) : Failure := ⟨segments ++ f.place, f.message⟩

end Failure

namespace Report

variable {told others : List Failure} {problem : Value} {fields : Fields Value} {key path : Text}

theorem foldl_join (segments : List Text) :
    segments.foldl join [] = [47].intercalate (segments.dropWhile List.isEmpty) := by
  refine foldl_join_nil (fun path segment ne_nil => ?_) (fun segment => rfl) segments
  simp [join, ne_nil]

theorem entryAt_nil (f : Failure) : f.entryAt [] = f.entry := by
  rw [Failure.entryAt, foldl_join]
  rfl

theorem entryAt_under (segments : List Text) (f : Failure) :
    (f.under segments).entryAt path = f.entryAt (segments.foldl join path) := by
  simp only [Failure.entryAt, Failure.under, List.foldl_append]

/-- The payload lists these failures in some order, wherever it lies. -/
def Tells (payload : Value) (told : List Failure) : Prop :=
  ∀ path, (entriesAt path payload).Perm (told.map (Failure.entryAt path))

theorem Tells.entries (tells : Tells problem told) :
    (Report.entries problem).Perm (told.map Failure.entry) := by
  have same : told.map (Failure.entryAt []) = told.map Failure.entry :=
    List.map_congr_left fun f _ => entryAt_nil f
  exact same ▸ tells []

theorem Tells.perm (tells : Tells problem told) (same : told.Perm others) : Tells problem others :=
  fun path => (tells path).trans (same.map _)

theorem tells_undefined : Tells .undefined [] := fun _ => List.Perm.refl _

theorem tells_emptyObject : Tells (.object []) [] := fun _ => List.Perm.refl _

theorem tells_messages (messages : List Text) :
    Tells (.array (messages.map .string)) (messages.map (Failure.mk [])) := by
  intro path
  rw [entriesAt]
  induction messages with
  | nil => exact List.Perm.refl _
  | cons message rest ih => exact ih.cons _

/-- What a part tells, it tells under the segments that lead to it. -/
theorem Tells.under (tells : Tells problem told) (segments : List Text) :
    (entriesAt (segments.foldl join path) problem).Perm
      ((told.map (Failure.under segments)).map (Failure.entryAt path)) := by
  have same : (told.map (Failure.under segments)).map (Failure.entryAt path) =
      told.map (Failure.entryAt (segments.foldl join path)) := by
    rw [List.map_map]
    exact List.map_congr_left fun f _ => entryAt_under segments f
  rw [same]
  exact tells _

theorem fieldsAt_eq_flatMap : fieldsAt path fields =
    fields.flatMap fun field => entriesAt (join path (segment field.1)) field.2 := by
  induction fields with
  | nil => rfl
  | cons field rest ih => rw [fieldsAt, ih, List.flatMap_cons]

/-- A new field adds what its payload tells, under the key as a segment. -/
theorem Tells.insert (tells : Tells problem told) (rest : Tells (.object fields) others)
    (fresh : key ∉ Fields.keys fields) :
    Tells (.object (Fields.insert key problem fields))
      (told.map (.under [segment key]) ++ others) := by
  intro path
  have inserted : (entriesAt path (.object (Fields.insert key problem fields))).Perm
      (entriesAt (join path (segment key)) problem ++ entriesAt path (.object fields)) := by
    simp only [entriesAt, fieldsAt_eq_flatMap]
    exact (Fields.insert_perm fresh).flatMap_right _
  rw [List.map_append]
  exact inserted.trans ((tells.under [segment key]).append (rest path))

/-- An entry adds what the payloads of its key and its value tell. -/
theorem Tells.entry {inKey inValue k : Value} {ofKey ofValue : List Failure}
    {entries : List (Value × Value)} (key : Tells inKey ofKey) (value : Tells inValue ofValue)
    (rest : Tells (.map entries) others) :
    Tells (.map ((k, .array [inKey, inValue]) :: entries))
      (ofKey.map (.under [k.text, Text.ofString "key"]) ++
        ofValue.map (.under [k.text, Text.ofString "value"]) ++ others) := by
  intro path
  simp only [entriesAt, mapAt, List.map_append]
  exact ((key.under [k.text, Text.ofString "key"]).append
    (value.under [k.text, Text.ofString "value"])).append (rest path)

theorem segment_append (first last : Text) :
    segment (first ++ last) = segment first ++ segment last := List.map_append

theorem segment_ofNat (n : Nat) : segment (Text.ofNat n) = Text.ofNat n := by
  have digits := List.all_eq_true.mp (Text.all_isDigit_ofNat n)
  refine (List.map_congr_left fun b member => if_neg ?_).trans (List.map_id _)
  rintro rfl
  exact absurd (digits 46 member) (by decide)

end Report
end Schemata
