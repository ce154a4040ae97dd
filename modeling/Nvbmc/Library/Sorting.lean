import Mathlib.Data.List.Sort

/-!
# Sorting by two keys

A stable sort by one key, after a sort by another, sorts by both, the later key
first.
-/

namespace Nvbmc.Library

variable {α κ ι : Type} [LinearOrder κ] [LinearOrder ι] {first : α → κ}
  {second : α → ι} {items others : List α}

def byKeys (first : α → κ) (second : α → ι) (item other : α) : Bool :=
  first item < first other ∨ first item = first other ∧
    second item ≤ second other

theorem byKeys_iff {item other : α} : byKeys first second item other = true ↔
    first item < first other ∨ first item = first other ∧
      second item ≤ second other :=
  decide_eq_true_iff

theorem byKeys_trans (item middle other : α)
    (before : byKeys first second item middle)
    (after : byKeys first second middle other) :
    byKeys first second item other := by
  rw [byKeys_iff] at before after ⊢
  rcases before with less | ⟨same, le⟩
  · rcases after with more | ⟨also, _⟩
    · exact .inl (less.trans more)
    · exact .inl (also ▸ less)
  · rcases after with more | ⟨also, more⟩
    · exact .inl (same ▸ more)
    · exact .inr ⟨same.trans also, le.trans more⟩

theorem byKeys_total (item other : α) :
    byKeys first second item other || byKeys first second other item := by
  rw [Bool.or_eq_true, byKeys_iff, byKeys_iff]
  rcases lt_trichotomy (first item) (first other) with less | same | more
  · exact .inl (.inl less)
  · rcases le_total (second item) (second other) with le | ge
    · exact .inl (.inr ⟨same, le⟩)
    · exact .inr (.inr ⟨same.symm, ge⟩)
  · exact .inr (.inl more)

theorem eq_of_pairwise_byKeys
    (apart : ∀ item other : α, first item = first other →
      second item = second other →
      item = other) (sorted : items.Pairwise (byKeys first second · ·))
    (alsoSorted : others.Pairwise (byKeys first second · ·))
    (perm : items.Perm others) :
    items = others := by
  apply perm.eq_of_pairwise _ sorted alsoSorted
  intro item other _ _ before after
  rw [byKeys_iff] at before after
  rcases before with less | ⟨same, le⟩
  · rcases after with more | ⟨also, _⟩
    · exact absurd more (not_lt_of_gt less)
    · exact absurd less (also ▸ lt_irrefl _)
  · rcases after with more | ⟨_, ge⟩
    · exact absurd more (same ▸ lt_irrefl _)
    · exact apart item other same (le_antisymm le ge)

theorem pairwise_mergeSort_byKeys :
    (items.mergeSort (byKeys first second)).Pairwise
      (byKeys first second · ·) :=
  List.pairwise_mergeSort byKeys_trans byKeys_total items

theorem filter_mergeSort (key : κ) :
    (items.mergeSort fun item other => first item ≤ first other).filter
      (first · = key) = items.filter (first · = key) := by
  have ordered : (items.filter (first · = key)).Pairwise fun item other =>
      decide (first item ≤ first other) = true := by
    apply List.pairwise_of_forall_mem_list
    intro item member other alsoMember
    have isKey : first item = key := by
      simpa using (List.mem_filter.mp member).2
    have alsoKey : first other = key := by
      simpa using (List.mem_filter.mp alsoMember).2
    simp [isKey, alsoKey]
  have kept : (items.filter (first · = key)).Sublist
      (items.mergeSort fun item other => first item ≤ first other) := by
    apply List.sublist_mergeSort _ _ ordered List.filter_sublist
    · intro item middle other before after
      simp only [decide_eq_true_eq] at before after ⊢
      exact before.trans after
    · intro item other
      simpa using le_total (first item) (first other)
  have inside := kept.filter (first · = key)
  rw [List.filter_filter] at inside
  simp only [Bool.and_self] at inside
  apply (inside.eq_of_length _).symm
  exact ((List.mergeSort_perm items _).filter _).length_eq.symm

theorem pairwise_mergeSort_mergeSort :
    ((items.mergeSort fun item other => second item ≤ second other).mergeSort
        fun item other => first item ≤ first other).Pairwise
          (byKeys first second · ·) := by
  rw [List.pairwise_iff_forall_sublist]
  intro item other part
  have le : first item ≤ first other := by
    have sorted :=
      List.pairwise_mergeSort' (r := fun item other => first item ≤ first other)
      (items.mergeSort fun item other => second item ≤ second other)
    exact List.pairwise_iff_forall_sublist.mp sorted part
  rw [byKeys_iff]
  rcases lt_or_eq_of_le le with less | same
  · exact .inl less
  · refine .inr ⟨same, ?_⟩
    have group := part.filter (first · = first other)
    simp only [List.filter_cons, same, decide_true, if_true, List.filter_nil]
      at group
    rw [filter_mergeSort] at group
    have sorted :=
      List.pairwise_mergeSort' (r :=
        fun item other => second item ≤ second other) items
    exact List.pairwise_iff_forall_sublist.mp sorted
      (group.trans List.filter_sublist)

theorem head_map_eq_iff {key : α → κ} {item : α}
    (sorted : items.Pairwise fun item other => key item < key other)
    (member : item ∈ items) :
    items.head?.map key = some (key item) ↔ ∀ other ∈ items,
      key item ≤ key other := by
  cases items with
  | nil => cases member
  | cons head items =>
      have after :=
        fun other (later : other ∈ items) => List.rel_of_pairwise_cons sorted
          later
      rw [List.head?_cons, Option.map_some, Option.some_inj]
      constructor
      · intro same other isOther
        rcases List.mem_cons.mp isOther with rfl | later
        · exact same.ge
        · exact same ▸ (after other later).le
      · intro least
        rcases List.mem_cons.mp member with rfl | later
        · rfl
        · exact absurd (least head List.mem_cons_self) (after item later).not_ge

end Nvbmc.Library
