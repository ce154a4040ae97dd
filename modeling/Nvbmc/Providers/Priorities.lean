import Mathlib.Data.List.Sort
import Nvbmc.Library.Grouping
import Nvbmc.Library.Text

/-!
# File sets

The recipes of a package are put into sets by the priority of their files, the
highest priority first.  Within a set they are ordered by their default
preference.
-/

namespace Nvbmc.Providers

open Library

/-- The tables of the cache that choosing a provider looks at.  Files have names
that are not empty. -/
structure DataCache (File : Type) where
  /-- The name of the package. -/
  pkgFn : File → Text
  /-- Epoch, version and revision. -/
  pkgPepvpr : File → Text × Text × Text
  /-- The default preference. -/
  pkgDp : File → ℤ
  bbfilePriority : File → ℤ
  preferred : Dict Text Text

section Sets

variable {File : Type} (cache : DataCache File)

/-- `priorities[priority][preference].append(f)`. -/
def addFile (priorities : Dict ℤ (Dict ℤ (List File))) (f : File) :
    Dict ℤ (Dict ℤ (List File)) :=
  let priority := cache.bbfilePriority f
  priorities.set priority
    (((priorities.get? priority).getD []).push (cache.pkgDp f) f)

def preferenceOrder (preferences : Dict ℤ (List File)) : List File :=
  (preferences.keys.insertionSort (· ≤ ·)).flatMap fun pref =>
    (preferences.get? pref).getD []

/-- `sortPriorities`, for the files of a package. -/
def sortPriorities (files : List File) : List (List File) :=
  let priorities := files.foldl (addFile cache) []
  (priorities.keys.insertionSort (· ≤ ·)).foldl
    (fun tmpPn pri => preferenceOrder ((priorities.get? pri).getD []) :: tmpPn)
    []

variable {cache} {files : List File}

theorem foldl_addFile_concat (f : File) :
    (files ++ [f]).foldl (addFile cache) [] =
      addFile cache (files.foldl (addFile cache) []) f := by
  rw [List.foldl_append]
  rfl

theorem getD_foldl_addFile (pri : ℤ) :
    ((files.foldl (addFile cache) []).get? pri).getD [] =
      Dict.groups cache.pkgDp id
        (files.filter (cache.bbfilePriority · = pri)) := by
  induction files using List.reverseRecOn with
  | nil => rfl
  | append_singleton files f induction =>
      rw [foldl_addFile_concat, addFile, Dict.get?_set, List.filter_append]
      split_ifs with same
      · subst same
        rw [Option.getD_some, induction]
        simp only [decide_true, List.filter_cons_of_pos, List.filter_nil]
        rw [Dict.groups_append_singleton]
        rfl
      · have different : cache.bbfilePriority f ≠ pri := Ne.symm same
        simp [induction, different]

theorem mem_keys_foldl_addFile (pri : ℤ) :
    pri ∈ (files.foldl (addFile cache) []).keys ↔ ∃ f ∈ files,
      cache.bbfilePriority f = pri := by
  induction files using List.reverseRecOn with
  | nil => simp [Dict.keys]
  | append_singleton files f induction =>
      rw [foldl_addFile_concat, addFile, Dict.mem_keys_set, induction]
      constructor
      · rintro (same | ⟨other, member, isPri⟩)
        · exact ⟨f, by simp, same.symm⟩
        · exact ⟨other, by simp [member], isPri⟩
      · rintro ⟨other, member, isPri⟩
        rcases List.mem_append.mp member with earlier | last
        · exact .inr ⟨other, earlier, isPri⟩
        · rw [List.mem_singleton.mp last] at isPri
          exact .inl isPri.symm

theorem nodup_keys_foldl_addFile :
    (files.foldl (addFile cache) []).keys.Nodup := by
  induction files using List.reverseRecOn with
  | nil => simp [Dict.keys]
  | append_singleton files f induction =>
      rw [foldl_addFile_concat, addFile]
      exact Dict.nodup_keys_set induction ..

theorem mem_preferenceOrder {items : List File} {f : File} :
    f ∈ preferenceOrder (Dict.groups cache.pkgDp id items) ↔ f ∈ items := by
  rw [preferenceOrder, List.mem_flatMap]
  simp only [Dict.getD_groups, List.map_id, List.mem_filter, decide_eq_true_eq,
    List.mem_insertionSort, Dict.mem_keys_groups]
  constructor
  · rintro ⟨_, _, member, _⟩
    exact member
  · intro member
    exact ⟨cache.pkgDp f, ⟨f, member, rfl⟩, member, rfl⟩

theorem foldl_cons_eq {α β : Type} (make : α → β) (items : List α)
    (rest : List β) :
    items.foldl (fun made item => make item :: made) rest =
      (items.map make).reverse ++ rest := by
  induction items generalizing rest with
  | nil => rfl
  | cons item items induction => simp [induction]

theorem sortPriorities_eq :
    sortPriorities cache files =
      (((files.foldl (addFile cache) []).keys.insertionSort (· ≤ ·)).map
        fun pri =>
        preferenceOrder (Dict.groups cache.pkgDp id
          (files.filter (cache.bbfilePriority · = pri)))).reverse := by
  rw [sortPriorities, foldl_cons_eq, List.append_nil]
  simp only [getD_foldl_addFile]

theorem pairwise_sortPriorities :
    (sortPriorities cache files).Pairwise fun set later =>
      ∀ f ∈ set, ∀ g ∈ later, cache.bbfilePriority g <
        cache.bbfilePriority f := by
  rw [sortPriorities_eq, List.pairwise_reverse, List.pairwise_map]
  have sorted :
      ((files.foldl (addFile cache) []).keys.insertionSort (· ≤ ·)).Pairwise
      (· < ·) := by
    have ordered := List.pairwise_insertionSort (· ≤ ·)
      (files.foldl (addFile cache) []).keys
    have distinct :
        ((files.foldl (addFile cache) []).keys.insertionSort (· ≤ ·)).Nodup :=
      (List.perm_insertionSort (· ≤ ·) _).nodup_iff.mpr nodup_keys_foldl_addFile
    apply (ordered.and distinct).imp
    intro first second both
    exact lt_of_le_of_ne both.1 both.2
  apply sorted.imp
  intro first second less f memberF g memberG
  rw [mem_preferenceOrder, List.mem_filter, decide_eq_true_eq]
    at memberF memberG
  rw [memberF.2, memberG.2]
  exact less

theorem mem_sortPriorities {set : List File}
    (member : set ∈ sortPriorities cache files) :
    ∃ pri, (∃ f ∈ files, cache.bbfilePriority f = pri) ∧
      ∀ f, f ∈ set ↔ f ∈ files ∧ cache.bbfilePriority f = pri := by
  rw [sortPriorities_eq, List.mem_reverse, List.mem_map] at member
  obtain ⟨pri, isKey, rfl⟩ := member
  rw [List.mem_insertionSort, mem_keys_foldl_addFile] at isKey
  refine ⟨pri, isKey, ?_⟩
  intro f
  rw [mem_preferenceOrder, List.mem_filter, decide_eq_true_eq]

theorem exists_mem_sortPriorities {f : File} (member : f ∈ files) :
    ∃ set ∈ sortPriorities cache files, f ∈ set := by
  refine ⟨preferenceOrder (Dict.groups cache.pkgDp id
    (files.filter (cache.bbfilePriority · = cache.bbfilePriority f))), ?_, ?_⟩
  · rw [sortPriorities_eq, List.mem_reverse, List.mem_map]
    refine ⟨cache.bbfilePriority f, ?_, rfl⟩
    rw [List.mem_insertionSort, mem_keys_foldl_addFile]
    exact ⟨f, member, rfl⟩
  · rw [mem_preferenceOrder, List.mem_filter]
    exact ⟨member, by simp⟩

theorem head_sortPriorities {files : List File} (nonempty : files ≠ []) :
    ∃ set, (sortPriorities cache files).head? = some set ∧ set ≠ [] ∧
      ∀ f, f ∈ set ↔ f ∈ files ∧ ∀ g ∈ files,
        cache.bbfilePriority g ≤ cache.bbfilePriority f := by
  obtain ⟨first, rest, isFiles⟩ := List.exists_cons_of_ne_nil nonempty
  obtain ⟨set, member, _⟩ :=
    @exists_mem_sortPriorities _ cache files first (by simp [isFiles])
  cases sets : sortPriorities cache files with
  | nil => simp [sets] at member
  | cons head others =>
      have isHead : head ∈ sortPriorities cache files := by simp [sets]
      obtain ⟨pri, ⟨f, isFile, isPri⟩, inHead⟩ := mem_sortPriorities isHead
      have highest : ∀ g ∈ files, cache.bbfilePriority g ≤ pri := by
        intro g isG
        obtain ⟨other, isOther, inOther⟩ :=
          @exists_mem_sortPriorities _ cache files g isG
        have ordered := @pairwise_sortPriorities _ cache files
        rw [sets] at isOther ordered
        rcases List.mem_cons.mp isOther with rfl | later
        · exact ((inHead g).mp inOther).2.le
        · have less := List.rel_of_pairwise_cons ordered later f
            ((inHead f).mpr ⟨isFile, isPri⟩) g inOther
          exact (isPri ▸ less).le
      refine ⟨head, rfl, List.ne_nil_of_mem ((inHead f).mpr ⟨isFile, isPri⟩),
        ?_⟩
      intro g
      rw [inHead]
      constructor
      · rintro ⟨isG, same⟩
        exact ⟨isG, fun other isOther => same ▸ highest other isOther⟩
      · rintro ⟨isG, above⟩
        exact ⟨isG, le_antisymm (highest g isG) (isPri ▸ above f isFile)⟩

end Sets

end Nvbmc.Providers
