import Mathlib.Data.List.Forall2
import Mathlib.Data.List.Induction
import Mathlib.Data.List.Nodup

/-! Lists related element by element: from an element to its partner, and from partners to columns
that are the same. And where two lists part, what lists joined by a separator hold and how they come to
be joined, and the first occurrences in a list that grows. -/
namespace Schemata

variable {related : α → β → Prop} {as : List α} {bs : List β} {a : α} {b : β}

theorem exists_related_left (parts : List.Forall₂ related as bs) (member : b ∈ bs) :
    ∃ a ∈ as, related a b := by
  induction parts with
  | nil => cases member
  | cons first _ ih =>
    rcases List.mem_cons.mp member with rfl | later
    · exact ⟨_, List.mem_cons_self, first⟩
    · obtain ⟨a, found, related⟩ := ih later
      exact ⟨a, List.mem_cons_of_mem _ found, related⟩

theorem exists_related_right (parts : List.Forall₂ related as bs) (member : a ∈ as) :
    ∃ b ∈ bs, related a b :=
  exists_related_left (List.Forall₂.flip parts) member

theorem map_eq_map_of_forall₂ {f : α → γ} {g : β → γ}
    (parts : List.Forall₂ (fun a b => g b = f a) as bs) : bs.map g = as.map f := by
  induction parts with
  | nil => rfl
  | cons same _ ih => rw [List.map_cons, List.map_cons, same, ih]

/-- Where every related pair has something to go between, there is a list of such. -/
theorem exists_between {forth : β → γ → Prop} {back : γ → β → Prop}
    (parts : List.Forall₂ related as bs)
    (between : ∀ a b, related a b → ∃ c, forth b c ∧ back c b) :
    ∃ cs, List.Forall₂ forth bs cs ∧ List.Forall₂ back cs bs := by
  induction parts with
  | nil => exact ⟨[], .nil, .nil⟩
  | cons first _ ih =>
    obtain ⟨c, goes, returns⟩ := between _ _ first
    obtain ⟨cs, forth, back⟩ := ih
    exact ⟨c :: cs, .cons goes forth, .cons returns back⟩

/-- Of two lists one begins the other, or they part somewhere. -/
theorem prefix_or_parted [DecidableEq α] (p q : List α) :
    (p <+: q ∨ q <+: p) ∨ ∃ stem a b p' q', p = stem ++ a :: p' ∧ q = stem ++ b :: q' ∧ a ≠ b := by
  induction p generalizing q with
  | nil => exact .inl (.inl q.nil_prefix)
  | cons a p ih =>
    cases q with
    | nil => exact .inl (.inr (List.nil_prefix))
    | cons b q =>
      by_cases same : a = b
      · subst same
        rcases ih q with along | ⟨stem, c, d, p', q', rfl, rfl, different⟩
        · simp only [List.prefix_cons_inj]
          exact .inl along
        · exact .inr ⟨a :: stem, c, d, p', q', rfl, rfl, different⟩
      · exact .inr ⟨[], a, b, p, q, rfl, rfl, same⟩

theorem subset_intercalate {sep part : List α} {parts : List (List α)} (member : part ∈ parts) :
    part ⊆ sep.intercalate parts := by
  induction parts with
  | nil => cases member
  | cons first others ih =>
    cases others with
    | nil =>
      obtain rfl := List.mem_singleton.mp member
      rw [List.intercalate_singleton]
      exact List.Subset.refl part
    | cons second others =>
      rw [List.intercalate_cons_cons]
      rcases List.mem_cons.mp member with rfl | later
      · exact List.subset_append_of_subset_left _ (List.subset_append_left part sep)
      · exact List.subset_append_of_subset_right _ (ih later)

section Joining

variable {join : List α → List α → List α} {sep joined : List α}
  (filled : ∀ joined part, joined ≠ [] → join joined part = joined ++ sep ++ part)

include filled

theorem foldl_join_of_ne_nil (ne_nil : joined ≠ []) (parts : List (List α)) :
    parts.foldl join joined = sep.intercalate (joined :: parts) := by
  induction parts generalizing joined with
  | nil => exact List.intercalate_singleton.symm
  | cons part rest ih =>
    have longer : joined ++ sep ++ part ≠ [] := by simp [ne_nil]
    rw [List.foldl_cons, filled joined part ne_nil, ih longer, List.intercalate_cons_cons]
    cases rest <;> simp

/-- Parts joined one after the other, with a separator behind whatever is there so far: empty parts at
the front are not seen. -/
theorem foldl_join_nil (empty : ∀ part, join [] part = part) (parts : List (List α)) :
    parts.foldl join [] = sep.intercalate (parts.dropWhile List.isEmpty) := by
  induction parts with
  | nil => rfl
  | cons part rest ih =>
    rw [List.foldl_cons, empty]
    cases part with
    | nil => exact ih
    | cons a part => exact foldl_join_of_ne_nil filled (List.cons_ne_nil a part) rest

end Joining

section FirstOccurrences

variable [BEq α] [LawfulBEq α]

theorem eraseDups_concat_of_mem (member : a ∈ as) : (as ++ [a]).eraseDups = as.eraseDups := by
  rw [List.eraseDups_append, List.removeAll, List.filter_singleton]
  simp [member]

theorem eraseDups_concat_of_not_mem (new : a ∉ as) :
    (as ++ [a]).eraseDups = as.eraseDups ++ [a] := by
  rw [List.eraseDups_append, List.removeAll, List.filter_singleton]
  simp [new, List.eraseDups_cons]

theorem nodup_eraseDups (as : List α) : as.eraseDups.Nodup := by
  induction as using List.reverseRecOn with
  | nil => exact List.nodup_nil
  | append_singleton as a ih =>
    by_cases member : a ∈ as
    · rwa [eraseDups_concat_of_mem member]
    · rw [eraseDups_concat_of_not_mem member]
      refine ih.append (List.nodup_singleton a) ?_
      rwa [List.disjoint_singleton, List.mem_eraseDups]

end FirstOccurrences

end Schemata
