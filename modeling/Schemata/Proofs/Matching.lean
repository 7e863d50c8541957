import Mathlib.Data.List.Perm.Subperm
import Schemata.Proofs.Lists

/-! Relations that are equivalences on some elements only, up to elements that are not related to
themselves, and what they make of pairs and lists. Two lists cover each other when they are as long and
every element of the one has a partner in the other; where no element of a list is related to a later
one, this is an equivalence again, as partners cannot be shared. -/
namespace Schemata

/-- A symmetric and transitive relation as far as the elements with the property go. -/
structure PartialEquivalenceOn (P : α → Prop) (R : α → α → Prop) : Prop where
  symm : ∀ a b, P a → P b → R a b → R b a
  trans : ∀ a b c, P a → P b → P c → R a b → R b c → R a c

/-- An equivalence relation as far as the elements with the property go. -/
structure EquivalenceOn (P : α → Prop) (R : α → α → Prop) : Prop extends PartialEquivalenceOn P R where
  refl : ∀ a, P a → R a a

/-- As many elements, and each of the first list has a partner in the second. -/
def Covers (R : α → α → Prop) (as bs : List α) : Prop :=
  as.length = bs.length ∧ ∀ a ∈ as, ∃ b ∈ bs, R b a

variable {P : α → Prop} {Q : β → Prop} {R : α → α → Prop} {S : β → β → Prop}
  {related : α → β → Prop} {as : List α} {bs : List β}

/-- Where no two elements share a partner, they have partners side by side. -/
theorem exists_matching (cover : ∀ a ∈ as, ∃ b ∈ bs, related a b)
    (apart : as.Pairwise fun a a' => ∀ b ∈ bs, related a b → ¬ related a' b) :
    ∃ partners, List.Forall₂ related as partners ∧ partners.Subperm bs := by
  induction as generalizing bs with
  | nil => exact ⟨[], .nil, List.nil_subperm⟩
  | cons a as ih =>
    obtain ⟨first, others⟩ := List.forall_mem_cons.mp cover
    obtain ⟨alone, apart⟩ := List.pairwise_cons.mp apart
    obtain ⟨b, member, holds⟩ := first
    obtain ⟨before, behind, rfl⟩ := List.append_of_mem member
    have remaining : ∀ a' ∈ as, ∃ b' ∈ before ++ behind, related a' b' := by
      intro a' listed
      obtain ⟨b', found, partner⟩ := others a' listed
      have different : b' ≠ b := by
        rintro rfl
        exact alone a' listed b' member holds partner
      simp only [List.mem_append, List.mem_cons, different, false_or] at found ⊢
      exact ⟨b', found, partner⟩
    obtain ⟨partners, matched, chosen⟩ := ih remaining (apart.imp fun split b' found => split b'
      (List.mem_append.mpr ((List.mem_append.mp found).imp_right (List.mem_cons_of_mem b))))
    refine ⟨b :: partners, .cons holds matched, ?_⟩
    exact ((List.subperm_cons b).mpr chosen).trans List.perm_middle.symm.subperm

/-- So the first list is no longer than the second, and if the second is not longer either, all of its
elements are partners. -/
theorem exists_related_back (cover : ∀ a ∈ as, ∃ b ∈ bs, related a b)
    (apart : as.Pairwise fun a a' => ∀ b ∈ bs, related a b → ¬ related a' b) :
    as.length ≤ bs.length ∧ (bs.length ≤ as.length → ∀ b ∈ bs, ∃ a ∈ as, related a b) := by
  obtain ⟨partners, matched, chosen⟩ := exists_matching cover apart
  have long : as.length = partners.length := matched.length_eq
  refine ⟨long ▸ chosen.length_le, fun short b member => ?_⟩
  have all := (chosen.perm_of_length_le (long ▸ short)).mem_iff.mpr member
  obtain ⟨a, listed, partner⟩ := exists_related_left matched all
  exact ⟨a, listed, partner⟩

namespace PartialEquivalenceOn

theorem mono {P' : α → Prop} (laws : PartialEquivalenceOn P R) (fewer : ∀ a, P' a → P a) :
    PartialEquivalenceOn P' R where
  symm a b ha hb := laws.symm a b (fewer a ha) (fewer b hb)
  trans a b c ha hb hc := laws.trans a b c (fewer a ha) (fewer b hb) (fewer c hc)

/-- A law for elements of every size, from the law for smaller ones. -/
theorem by_size (size : α → Nat) (step : ∀ n, PartialEquivalenceOn (fun a => P a ∧ size a < n) R →
    PartialEquivalenceOn (fun a => P a ∧ size a < n + 1) R) : PartialEquivalenceOn P R := by
  have bounded : ∀ n, PartialEquivalenceOn (fun a => P a ∧ size a < n) R := by
    intro n
    induction n with
    | zero =>
      constructor
      · intro a b small
        cases small.2
      · intro a b c small
        cases small.2
    | succ n ih => exact step n ih
  constructor
  · intro a b ha hb
    exact (bounded (size a + size b + 1)).symm a b ⟨ha, by omega⟩ ⟨hb, by omega⟩
  · intro a b c ha hb hc
    exact (bounded (size a + size b + size c + 1)).trans a b c ⟨ha, by omega⟩ ⟨hb, by omega⟩
      ⟨hc, by omega⟩

theorem prod (first : PartialEquivalenceOn P R) (second : PartialEquivalenceOn Q S) :
    PartialEquivalenceOn (fun e : α × β => P e.1 ∧ Q e.2) fun e f => R e.1 f.1 ∧ S e.2 f.2 where
  symm _ _ he hf related :=
    ⟨first.symm _ _ he.1 hf.1 related.1, second.symm _ _ he.2 hf.2 related.2⟩
  trans _ _ _ he hf hg ef fg :=
    ⟨first.trans _ _ _ he.1 hf.1 hg.1 ef.1 fg.1, second.trans _ _ _ he.2 hf.2 hg.2 ef.2 fg.2⟩

theorem forall₂ (laws : PartialEquivalenceOn P R) :
    PartialEquivalenceOn (fun as => ∀ a ∈ as, P a) (List.Forall₂ R) where
  symm as bs left right same := by
    induction same with
    | nil => exact .nil
    | cons here _ ih =>
      obtain ⟨a, as⟩ := List.forall_mem_cons.mp left
      obtain ⟨b, bs⟩ := List.forall_mem_cons.mp right
      exact .cons (laws.symm _ _ a b here) (ih as bs)
  trans as bs cs left middle right first second := by
    induction first generalizing cs with
    | nil => exact second
    | cons here _ ih =>
      obtain _ | ⟨next, rest⟩ := second
      obtain ⟨a, as⟩ := List.forall_mem_cons.mp left
      obtain ⟨b, bs⟩ := List.forall_mem_cons.mp middle
      obtain ⟨c, cs⟩ := List.forall_mem_cons.mp right
      exact .cons (laws.trans _ _ _ a b c here next) (ih _ as bs cs rest)

variable {as bs cs : List α}

/-- Elements that are not related have no partner in common. -/
theorem partners_apart (laws : PartialEquivalenceOn P R) (left : ∀ a ∈ as, P a)
    (right : ∀ b ∈ bs, P b) (apart : as.Pairwise fun a a' => ¬ R a a') :
    as.Pairwise fun a a' => ∀ b ∈ bs, R b a → ¬ R b a' := by
  refine apart.imp_of_mem fun {a a'} first second split b member near far => split ?_
  have back := laws.symm b a (right b member) (left a first) near
  exact laws.trans a b a' (left a first) (right b member) (left a' second) back far

/-- Partners one way make the lists as long, and partners the other way, once the other list has no
more elements. -/
theorem covers_back (laws : PartialEquivalenceOn P R) (left : ∀ a ∈ as, P a) (right : ∀ b ∈ bs, P b)
    (apart : as.Pairwise fun a a' => ¬ R a a') (cover : ∀ a ∈ as, ∃ b ∈ bs, R b a) :
    as.length ≤ bs.length ∧ (bs.length ≤ as.length → ∀ b ∈ bs, ∃ a ∈ as, R a b) := by
  obtain ⟨least, back⟩ := exists_related_back cover (laws.partners_apart left right apart)
  refine ⟨least, fun short b member => ?_⟩
  obtain ⟨a, listed, partner⟩ := back short b member
  exact ⟨a, listed, laws.symm b a (right b member) (left a listed) partner⟩

theorem covers (laws : PartialEquivalenceOn P R) :
    PartialEquivalenceOn (fun as => (∀ a ∈ as, P a) ∧ as.Pairwise fun a a' => ¬ R a a')
      (Covers R) where
  symm as bs left right covered := by
    obtain ⟨long, cover⟩ := covered
    obtain ⟨_, back⟩ := laws.covers_back left.1 right.1 left.2 cover
    exact ⟨long.symm, back (Nat.le_of_eq long.symm)⟩
  trans as bs cs left middle right first second := by
    refine ⟨first.1.trans second.1, fun a member => ?_⟩
    obtain ⟨b, found, near⟩ := first.2 a member
    obtain ⟨c, beyond, far⟩ := second.2 b found
    exact ⟨c, beyond, laws.trans c b a (right.1 c beyond) (middle.1 b found) (left.1 a member)
      far near⟩

/-- Lists without related elements cover each other when each has partners for the other. -/
theorem covers_iff (laws : PartialEquivalenceOn P R) (left : ∀ a ∈ as, P a) (right : ∀ b ∈ bs, P b)
    (apart : as.Pairwise fun a a' => ¬ R a a') (apart' : bs.Pairwise fun b b' => ¬ R b b') :
    Covers R as bs ↔ (∀ b ∈ bs, ∃ a ∈ as, R a b) ∧ ∀ a ∈ as, ∃ b ∈ bs, R b a := by
  constructor
  · rintro ⟨long, cover⟩
    exact ⟨(laws.covers_back left right apart cover).2 (Nat.le_of_eq long.symm), cover⟩
  · rintro ⟨back, cover⟩
    have most := (laws.covers_back left right apart cover).1
    have least := (laws.covers_back right left apart' back).1
    exact ⟨Nat.le_antisymm most least, cover⟩

end PartialEquivalenceOn

namespace EquivalenceOn

theorem eq : EquivalenceOn (fun _ : α => True) Eq where
  refl _ _ := rfl
  symm _ _ _ _ same := same.symm
  trans _ _ _ _ _ _ first second := first.trans second

end EquivalenceOn
end Schemata
