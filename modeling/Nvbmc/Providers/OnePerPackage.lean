import Nvbmc.Providers.Filter

/-!
# One recipe for each package

The loops of `_filterProviders` give one recipe for each package as long as no
required version is unavailable.  At the first one that is, the recipes found so
far are returned.
-/

namespace Nvbmc.Providers

open Library Versions

section Matches

variable {File : Type} (getVar : Text → Option Text) (cache : DataCache File)
variable (providers : List File)

/-- A recipe is a provider, and belongs to the package. -/
def Provides (pn : Text) (f : File) : Prop :=
  f ∈ providers ∧ cache.pkgFn f = pn

def Matches (pn : Text) (f : File) : Prop :=
  ∃ preferredV ≠ [], chosenVersion getVar pn = some preferredV ∧
    preferredVersionMatch (cache.pkgPepvpr f) (preferredParts preferredV) = true

/-- A version is required that no recipe of the package has. -/
def Unavailable (pn : Text) : Prop :=
  (versionVariableMatch getVar "REQUIRED".toList pn).isSome = true ∧
    ∀ f, Provides cache providers pn f → ¬ Matches getVar cache pn f

variable {getVar cache}

theorem not_matches_of_none {pn : Text} {f : File}
    (unset : chosenVersion getVar pn = none) : ¬ Matches getVar cache pn f := by
  rintro ⟨preferredV, _, chosen, _⟩
  rw [unset] at chosen
  cases chosen

theorem not_matches_of_nil {pn : Text} {f : File}
    (empty : chosenVersion getVar pn = some []) :
    ¬ Matches getVar cache pn f := by
  rintro ⟨preferredV, nonempty, chosen, _⟩
  rw [empty] at chosen
  exact nonempty (Option.some.inj chosen).symm

theorem matches_iff {pn preferredV : Text} {f : File}
    (nonempty : preferredV ≠ [])
    (chosen : chosenVersion getVar pn = some preferredV) :
    Matches getVar cache pn f ↔
      preferredVersionMatch (cache.pkgPepvpr f) (preferredParts preferredV) =
        true := by
  constructor
  · rintro ⟨other, _, isOther, passes⟩
    rw [chosen] at isOther
    rw [Option.some.inj isOther]
    exact passes
  · exact fun passes => ⟨preferredV, nonempty, chosen, passes⟩

end Matches

section Packages

variable {File : Type} [LinearOrder File]
variable (getVar : Text → Option Text) (cache : DataCache File)
  (providers : List File)

def filesOf (pn : Text) : List File :=
  (providers.insertionSort (· ≤ ·)).filter (cache.pkgFn · = pn)

/-- The recipe of the version that is required or preferred. -/
def preferredOf (pn : Text) : Option File :=
  (findPreferredProvider getVar cache pn
    (sortPriorities cache (filesOf cache providers pn))).preferredFile

def latestOf (pn : Text) : Option File :=
  ((sortPriorities cache (filesOf cache providers pn)).head?.bind
    (findLatestProvider cache)).bind (·.2)

/-- The recipe of a package. -/
def chosenOf (pn : Text) : Option File :=
  (preferredOf getVar cache providers pn).or (latestOf cache providers pn)

/-- The names of the packages, in their order. -/
def packages : List Text :=
  (Dict.groups cache.pkgFn id
    (providers.insertionSort (· ≤ ·))).keys.insertionSort (· ≤ ·)

variable {getVar cache providers} {pn : Text}

theorem mem_packages : pn ∈ packages cache providers ↔ ∃ p ∈ providers,
    cache.pkgFn p = pn := by
  rw [packages, List.mem_insertionSort, Dict.mem_keys_groups]
  simp only [List.mem_insertionSort]

theorem nodup_packages : (packages cache providers).Nodup :=
  (List.perm_insertionSort (· ≤ ·) _).nodup_iff.mpr Dict.nodup_keys_groups

theorem sorted_packages : (packages cache providers).Pairwise (· < ·) := by
  have ordered : (packages cache providers).Pairwise (· ≤ ·) :=
    List.pairwise_insertionSort (· ≤ ·) _
  apply (ordered.and nodup_packages).imp
  intro first second both
  exact lt_of_le_of_ne both.1 both.2

theorem mem_filesOf {f : File} :
    f ∈ filesOf cache providers pn ↔ f ∈ providers ∧ cache.pkgFn f = pn := by
  simp [filesOf]

theorem filesOf_ne_nil (member : pn ∈ packages cache providers) :
    filesOf cache providers pn ≠ [] := by
  obtain ⟨p, isProvider, isPn⟩ := mem_packages.mp member
  exact List.ne_nil_of_mem (mem_filesOf.mpr ⟨isProvider, isPn⟩)

theorem fileSets_groups (pn : Text) :
    fileSets cache
      (Dict.groups cache.pkgFn id (providers.insertionSort (· ≤ ·))) pn =
      sortPriorities cache (filesOf cache providers pn) := by
  rw [fileSets, Dict.getD_groups, List.map_id, filesOf]

theorem preferredOf_eq_none_iff :
    preferredOf getVar cache providers pn = none ↔
      ∀ f, Provides cache providers pn f → ¬ Matches getVar cache pn f := by
  cases chosen : chosenVersion getVar pn with
  | none =>
      have unset : preferredOf getVar cache providers pn = none := by
        rw [preferredOf, findPreferredProvider, chosen]
      exact ⟨fun _ _ _ => not_matches_of_none chosen, fun _ => unset⟩
  | some preferredV =>
      by_cases nonempty : preferredV = []
      · subst nonempty
        have unset : preferredOf getVar cache providers pn = none :=
          Preference.findPreferredProvider_of_nil chosen
        exact ⟨fun _ _ _ => not_matches_of_nil chosen, fun _ => unset⟩
      · rw [preferredOf, Preference.findPreferredProvider_of_ne chosen nonempty,
          ← Option.not_isSome_iff_eq_none, isSome_findSome_iff]
        simp only [matches_iff nonempty chosen, not_exists, not_and, Provides,
          mem_filesOf]

theorem preferredOf_spec {f : File}
    (found : preferredOf getVar cache providers pn = some f) :
    Provides cache providers pn f ∧ Matches getVar cache pn f ∧
      ∀ g, Provides cache providers pn g → Matches getVar cache pn g →
        cache.bbfilePriority g ≤ cache.bbfilePriority f := by
  cases chosen : chosenVersion getVar pn with
  | none => simp [preferredOf, findPreferredProvider, chosen] at found
  | some preferredV =>
      by_cases nonempty : preferredV = []
      · subst nonempty
        rw [preferredOf, Preference.findPreferredProvider_of_nil chosen]
          at found
        cases found
      · rw [preferredOf, Preference.findPreferredProvider_of_ne chosen nonempty]
          at found
        obtain ⟨member, passes, highest⟩ := findSome_eq_some found
        refine ⟨mem_filesOf.mp member, (matches_iff nonempty chosen).mpr passes,
          ?_⟩
        intro g provides isMatch
        exact highest g (mem_filesOf.mpr provides)
          ((matches_iff nonempty chosen).mp isMatch)

theorem unavailable_iff :
    Unavailable getVar cache providers pn ↔
      (versionVariableMatch getVar "REQUIRED".toList pn).isSome = true ∧
        preferredOf getVar cache providers pn = none := by
  rw [Unavailable, preferredOf_eq_none_iff]

/-- The latest recipe of a package: of the highest priority, and no recipe of
this priority is above it. -/
theorem latestOf_spec (comparable : Comparable cache providers)
    (member : pn ∈ packages cache providers) :
    ∃ f set ver, (sortPriorities cache (filesOf cache providers pn)).head? =
      some set ∧ findLatestProvider cache set = some (ver, some f) ∧
      latestOf cache providers pn = some f ∧ Provides cache providers pn f ∧
      ∀ g, Provides cache providers pn g →
        cache.bbfilePriority g < cache.bbfilePriority f ∨
        cache.bbfilePriority g = cache.bbfilePriority f ∧
          NotAbove cache g f := by
  obtain ⟨set, isHead, nonempty, inSet⟩ := @head_sortPriorities _ cache _
    (filesOf_ne_nil member)
  have comparableSet : Comparable cache set := by
    intro f isFile
    exact comparable f (mem_filesOf.mp ((inSet f).mp isFile).1).1
  obtain ⟨best, isBest, ran, bounds⟩ :=
    findLatestProvider_maximal comparableSet nonempty
  obtain ⟨isFile, highest⟩ := (inSet best).mp isBest
  refine ⟨best, set, _, isHead, ran, by rw [latestOf, isHead]; simp [ran],
    mem_filesOf.mp isFile, ?_⟩
  intro g provides
  have isG := mem_filesOf.mpr provides
  rcases (highest g isG).lt_or_eq with less | same
  · exact .inl less
  · refine .inr ⟨same, bounds g ((inSet g).mpr ⟨isG, ?_⟩)⟩
    intro other isOther
    rw [same]
    exact highest other isOther

/-- The dictionary after the first loop. -/
def preferredDict (getVar : Text → Option Text) (cache : DataCache File)
    (providers : List File) (names : List Text) (d : Dict Text (Option File)) :
    Dict Text (Option File) :=
  names.foldl (fun d pn => d.set pn (preferredOf getVar cache providers pn)) d

variable {names : List Text}

theorem get?_preferredDict {d : Dict Text (Option File)} (member : pn ∈ names) :
    (preferredDict getVar cache providers names d).get? pn =
      some (preferredOf getVar cache providers pn) := by
  induction names using List.reverseRecOn with
  | nil => cases member
  | append_singleton names last induction =>
      rw [preferredDict, List.foldl_append, List.foldl_cons, List.foldl_nil,
        Dict.get?_set]
      split_ifs with same
      · rw [same]
      · apply induction
        rcases List.mem_append.mp member with earlier | isLast
        · exact earlier
        · exact absurd (List.mem_singleton.mp isLast) same

theorem addPreferred_of_available (filtering : Filtering File)
    (available : ∀ pn ∈ names, ¬ Unavailable getVar cache providers pn) :
    addPreferred getVar cache
      (Dict.groups cache.pkgFn id (providers.insertionSort (· ≤ ·)))
        names filtering =
      (false, ⟨filtering.eligible ++
        names.filterMap (preferredOf getVar cache providers),
        preferredDict getVar cache providers names
          filtering.preferredVersions⟩) := by
  induction names generalizing filtering with
  | nil => simp [addPreferred, preferredDict]
  | cons pn names induction =>
      have goesOn := available pn List.mem_cons_self
      rw [unavailable_iff, ← required_eq, preferredOf, ← fileSets_groups]
        at goesOn
      rw [addPreferred, if_neg goesOn, induction _ fun other member =>
        available other (List.mem_cons_of_mem _ member),
        fileSets_groups, ← preferredOf]
      cases found : preferredOf getVar cache providers pn with
      | none => simp [found, preferredDict]
      | some f => simp [found, preferredDict]

theorem addPreferred_of_unavailable {before : List Text} (after : List Text)
    (filtering : Filtering File)
    (available : ∀ pn ∈ before, ¬ Unavailable getVar cache providers pn)
    (unavailable : Unavailable getVar cache providers pn) :
    (addPreferred getVar cache
      (Dict.groups cache.pkgFn id (providers.insertionSort (· ≤ ·)))
        (before ++ pn :: after) filtering).1 = true ∧
    (addPreferred getVar cache
      (Dict.groups cache.pkgFn id (providers.insertionSort (· ≤ ·)))
        (before ++ pn :: after) filtering).2.eligible =
      filtering.eligible ++
        before.filterMap (preferredOf getVar cache providers) := by
  induction before generalizing filtering with
  | nil =>
      rw [unavailable_iff, ← required_eq, preferredOf, ← fileSets_groups]
        at unavailable
      rw [List.nil_append, addPreferred, if_pos unavailable]
      simp
  | cons other before induction =>
      have goesOn := available other List.mem_cons_self
      rw [unavailable_iff, ← required_eq, preferredOf, ← fileSets_groups]
        at goesOn
      rw [List.cons_append, addPreferred, if_neg goesOn]
      have rest := induction
        ⟨filtering.eligible ++
          (findPreferredProvider getVar cache other (fileSets cache
            (Dict.groups cache.pkgFn id (providers.insertionSort (· ≤ ·)))
            other)).preferredFile.toList,
          filtering.preferredVersions.set other
            (findPreferredProvider getVar cache other
            (fileSets cache
              (Dict.groups cache.pkgFn id (providers.insertionSort (· ≤ ·)))
            other)).preferredFile⟩
        fun name member => available name (List.mem_cons_of_mem _ member)
      refine ⟨rest.1, rest.2.trans ?_⟩
      rw [fileSets_groups, ← preferredOf]
      cases found : preferredOf getVar cache providers other with
      | none => simp [found]
      | some f => simp [found]

theorem addLatest_eq (comparable : Comparable cache providers)
    (unique : names.Nodup) (members : names ⊆ packages cache providers)
    (filtering : Filtering File)
    (preferred : ∀ pn ∈ names, filtering.preferredVersions.get? pn =
      some (preferredOf getVar cache providers pn)) :
    ∃ after, addLatest cache
      (Dict.groups cache.pkgFn id (providers.insertionSort (· ≤ ·)))
        names filtering = some after ∧
      after.eligible = filtering.eligible ++
        (names.filter fun name =>
          (preferredOf getVar cache providers name).isNone).filterMap
          (latestOf cache providers) ∧
      (∀ pn ∈ names, after.preferredVersions.get? pn =
        some (chosenOf getVar cache providers pn)) ∧
      ∀ pn ∉ names, after.preferredVersions.get? pn =
        filtering.preferredVersions.get? pn := by
  induction names generalizing filtering with
  | nil => exact ⟨filtering, rfl, by simp, by simp, fun _ _ => rfl⟩
  | cons pn names induction =>
      obtain ⟨missing, unique⟩ := List.nodup_cons.mp unique
      obtain ⟨member, members⟩ := List.cons_subset.mp members
      have isPreferred := preferred pn List.mem_cons_self
      rw [addLatest, isPreferred, Option.getD_some]
      cases found : preferredOf getVar cache providers pn with
      | some f =>
          rw [if_pos (Option.isSome_some)]
          obtain ⟨after, ran, isEligible, inNames, outside⟩ :=
            induction unique members
            filtering fun other isName =>
              preferred other (List.mem_cons_of_mem _ isName)
          refine ⟨after, ran, by simp [isEligible, found], ?_, ?_⟩
          · intro other isName
            rcases List.mem_cons.mp isName with rfl | later
            · rw [outside other missing, isPreferred, chosenOf, found]
              rfl
            · exact inNames other later
          · intro other notName
            exact outside other fun later =>
              notName (List.mem_cons_of_mem _ later)
      | none =>
          obtain ⟨f, set, ver, isHead, ran, isLatest, _⟩ :=
            latestOf_spec comparable member
          rw [if_neg (by simp), fileSets_groups, isHead]
          simp only [Option.bind_eq_bind, Option.bind_some, ran]
          obtain ⟨after, ranLater, isEligible, inNames, outside⟩ :=
            induction unique members
            ⟨filtering.eligible ++ [f], filtering.preferredVersions.set pn
              (some f)⟩ (by
              intro other isName
              have different : other ≠ pn := fun same => missing (same ▸ isName)
              rw [Dict.get?_set_of_ne _ _ different]
              exact preferred other (List.mem_cons_of_mem _ isName))
          refine ⟨after,
            ranLater, by simp [isEligible, found, isLatest], ?_, ?_⟩
          · intro other isName
            rcases List.mem_cons.mp isName with rfl | later
            · rw [outside other missing, Dict.get?_set_self, chosenOf, found,
                isLatest]
              rfl
            · exact inNames other later
          · intro other notName
            have different : other ≠ pn :=
              fun same => notName (same ▸ List.mem_cons_self)
            rw [outside other fun later =>
              notName (List.mem_cons_of_mem _ later),
              Dict.get?_set_of_ne _ _ different]

end Packages

end Nvbmc.Providers
