import Nvbmc.Library.Sorting
import Nvbmc.Providers.OnePerPackage

/-!
# The choice of providers

`filterProviders` is meant to give one recipe for each package that is
available, with the preferred provider in front.  It does so when no required
version is unavailable.  Otherwise the packages that come later by name are
lost, and no latest recipes are added.
-/

namespace Nvbmc.Providers

open Library

section Choice

variable {File : Type} [LinearOrder File]
variable (getVar : Text → Option Text) (cache : DataCache File)
  (providers : List File)

/-- A package of the providers whose required version, if there is one, is among
them. -/
def Available (pn : Text) : Prop :=
  (∃ f, Provides cache providers pn f) ∧ ¬ Unavailable getVar cache providers pn

/-- The recipe for a package: one of the version that is asked for, or else the
latest one. -/
structure IsChoice (pn : Text) (f : File) : Prop where
  provides : Provides cache providers pn f
  preferred : (∃ g, Provides cache providers pn g ∧ Matches getVar cache pn g) →
    Matches getVar cache pn f ∧
      ∀ g, Provides cache providers pn g → Matches getVar cache pn g →
        cache.bbfilePriority g ≤ cache.bbfilePriority f
  latest : (∀ g, Provides cache providers pn g → ¬ Matches getVar cache pn g) →
    ∀ g, Provides cache providers pn g →
      cache.bbfilePriority g < cache.bbfilePriority f ∨
      cache.bbfilePriority g = cache.bbfilePriority f ∧ NotAbove cache g f

/-- `dataCache.preferred[item]`, as `filterProviders` reads it. -/
def preferredProvider (item : Text) : Option Text :=
  (updatePreferred getVar cache item).get? item

/-- The list that is meant: one recipe for each available package, the preferred
provider first, or else the package that is named as the item. -/
structure OnePerPackage (item : Text) (eligible : List File) : Prop where
  one : ∀ pn, Available getVar cache providers pn →
    ∃ f, eligible.filter (cache.pkgFn · = pn) = [f] ∧
      IsChoice getVar cache providers pn f
  others : ∀ f ∈ eligible, Available getVar cache providers (cache.pkgFn f)
  preferredFirst : ∀ pn, preferredProvider getVar cache item = some pn →
    Available getVar cache providers pn →
      eligible.head?.map cache.pkgFn = some pn
  itemFirst : Available getVar cache providers item →
    (∀ pn, preferredProvider getVar cache item = some pn →
      ¬ Available getVar cache providers pn) →
    eligible.head?.map cache.pkgFn = some item

structure ProviderChoice (item : Text) : Prop where
  latest : ∀ fileSet ≠ [], fileSet ⊆ providers →
    ∃ best ∈ fileSet, findLatestProvider cache fileSet =
        some (some (cache.pkgPepvpr best), some best) ∧
      ∀ f ∈ fileSet, NotAbove cache f best
  anyOrder : ∀ others : List File, others.Perm providers →
    filterProviders getVar cache others item =
      filterProviders getVar cache providers item
  onePerPackage : ∃ eligible foundUnique preferred,
    filterProviders getVar cache providers item =
      some (eligible, foundUnique, preferred) ∧
      OnePerPackage getVar cache providers item eligible

/-- Where a required version is unavailable: all available packages are before
it by name and have the version that is asked for, and a package that has to
come first does. -/
structure EarlyEndSuffices (item : Text) : Prop where
  matched : ∀ pn, Available getVar cache providers pn →
    ∃ f, Provides cache providers pn f ∧ Matches getVar cache pn f
  before : ∀ pn, Available getVar cache providers pn →
    ∀ other, (∃ f, Provides cache providers other f) →
      Unavailable getVar cache providers other → pn < other
  first : Available getVar cache providers item →
    (∃ pn, preferredProvider getVar cache item = some pn ∧
      Available getVar cache providers pn) ∨
    ∀ pn, Available getVar cache providers pn → item ≤ pn

variable {getVar cache providers}

variable {pn : Text}

theorem mem_packages_iff :
    pn ∈ packages cache providers ↔ ∃ f, Provides cache providers pn f :=
  mem_packages

theorem isChoice_preferredOf {f : File}
    (found : preferredOf getVar cache providers pn = some f) :
    IsChoice getVar cache providers pn f := by
  obtain ⟨provides, isMatch, highest⟩ := preferredOf_spec found
  exact ⟨provides, fun _ => ⟨isMatch, highest⟩, fun unmatched =>
    absurd isMatch (unmatched f provides)⟩

theorem isChoice_chosenOf (comparable : Comparable cache providers)
    (member : pn ∈ packages cache providers) :
    ∃ f, chosenOf getVar cache providers pn = some f ∧
      IsChoice getVar cache providers pn f := by
  cases found : preferredOf getVar cache providers pn with
  | some f =>
      exact ⟨f, by rw [chosenOf, found]; rfl, isChoice_preferredOf found⟩
  | none =>
      obtain ⟨f, _, _, _, _, isLatest, provides, highest⟩ :=
        latestOf_spec comparable member
      refine ⟨f, by rw [chosenOf, found, isLatest]; rfl, provides, ?_,
        fun _ => highest⟩
      rintro ⟨g, provides, isMatch⟩
      exact absurd isMatch (preferredOf_eq_none_iff.mp found g provides)

theorem pkgFn_of_chosenOf {f : File} (comparable : Comparable cache providers)
    (member : pn ∈ packages cache providers)
    (chosen : chosenOf getVar cache providers pn = some f) :
    cache.pkgFn f = pn := by
  obtain ⟨g, isChosen, isChoice⟩ :=
    @isChoice_chosenOf _ _ getVar _ _ _ comparable member
  rw [chosen] at isChosen
  rw [Option.some.inj isChosen]
  exact isChoice.provides.2

variable {eligible : List File}

theorem perm_moveToFront {fn : File} (member : fn ∈ eligible) :
    (moveToFront fn eligible).Perm eligible :=
  (List.perm_cons_erase member).symm

theorem moveToFront_moveToFront (fn : File) (eligible : List File) :
    moveToFront fn (moveToFront fn eligible) = moveToFront fn eligible := by
  rw [moveToFront, moveToFront, List.erase_cons_head]

variable {item : Text} {preferredVersions : Dict Text (Option File)}

theorem preferItem_concat (items : List File) (p : File)
    (eligible : List File) :
    preferItem cache item preferredVersions (items ++ [p]) eligible =
      preferItem cache item preferredVersions [p]
        (preferItem cache item preferredVersions items eligible) := by
  rw [preferItem, List.foldl_append]
  rfl

theorem preferItem_singleton {fn p : File}
    (chosen : preferredVersions.get? item = some (some fn))
    (isItem : cache.pkgFn p = item) (eligible : List File) :
    preferItem cache item preferredVersions [p] eligible =
      if fn ∈ eligible then moveToFront fn eligible else eligible := by
  subst isItem
  simp [preferItem, chosen]

theorem preferItem_eq {fn : File}
    (chosen : preferredVersions.get? item = some (some fn))
    (member : fn ∈ eligible) (items : List File) :
    preferItem cache item preferredVersions items eligible =
      if ∃ p ∈ items, cache.pkgFn p = item then moveToFront fn eligible
      else eligible := by
  induction items using List.reverseRecOn with
  | nil => simp [preferItem]
  | append_singleton items p induction =>
      rw [preferItem_concat, induction]
      by_cases isItem : cache.pkgFn p = item
      · rw [preferItem_singleton chosen isItem, if_pos (⟨p, by simp, isItem⟩ :
          ∃ q ∈ items ++ [p], cache.pkgFn q = item)]
        split_ifs with earlier inFront
        · exact moveToFront_moveToFront fn eligible
        · exact absurd List.mem_cons_self inFront
        · rfl
      · simp [preferItem, isItem]

theorem preferItem_nil
    (items : List File) : preferItem cache item preferredVersions items [] =
      [] := by
  induction items using List.reverseRecOn with
  | nil => rfl
  | append_singleton items p induction =>
      rw [preferItem_concat, induction]
      by_cases isItem : cache.pkgFn p = item
      · cases chosen : (preferredVersions.get? (cache.pkgFn p)).getD none with
        | none => simp [preferItem, chosen]
        | some fn => simp [preferItem, chosen]
      · simp [preferItem, isItem]

theorem preferItem_of_not_mem
    {items : List File} (missing : ∀ p ∈ items, cache.pkgFn p ≠ item)
    (eligible : List File) :
    preferItem cache item preferredVersions items eligible = eligible := by
  induction items generalizing eligible with
  | nil => rfl
  | cons p items induction =>
      rw [preferItem, List.foldl_cons, if_pos (missing p List.mem_cons_self)]
      exact induction (fun q member =>
        missing q (List.mem_cons_of_mem _ member)) eligible

theorem preferProvider_perm (preferred : Option Text) (eligible : List File) :
    (preferProvider cache preferred eligible).1.Perm eligible := by
  cases preferred with
  | none => exact .refl _
  | some pn =>
      rw [preferProvider]
      cases found : eligible.find? fun p => cache.pkgFn p = pn with
      | none => exact .refl _
      | some p => exact perm_moveToFront (List.mem_of_find?_eq_some found)

theorem head_preferProvider {p : File} (member : p ∈ eligible)
    (isPn : cache.pkgFn p = pn) :
    (preferProvider cache (some pn) eligible).1.head?.map cache.pkgFn =
      some pn := by
  rw [preferProvider]
  cases found : eligible.find? fun p => cache.pkgFn p = pn with
  | none =>
      exact absurd isPn (by simpa using List.find?_eq_none.mp found p member)
  | some q =>
      have isQ := List.find?_some found
      simpa [moveToFront] using isQ

theorem preferProvider_of_not_mem {preferred : Option Text}
    (missing : ∀ pn, preferred = some pn → ∀ p ∈ eligible, cache.pkgFn p ≠ pn) :
    (preferProvider cache preferred eligible).1 = eligible := by
  cases preferred with
  | none => rfl
  | some pn =>
      have unfound : (eligible.find? fun p => cache.pkgFn p = pn) = none := by
        rw [List.find?_eq_none]
        intro p member
        simpa using missing pn rfl p member
      rw [preferProvider, unfound]

theorem filterEligible_of_available (comparable : Comparable cache providers)
    (available : ∀ pn ∈ packages cache providers,
      ¬ Unavailable getVar cache providers pn)
    (item : Text) :
    ∃ eligible, filterEligible getVar cache providers item = some eligible ∧
      eligible.Perm
        ((packages cache providers).filterMap
          (chosenOf getVar cache providers)) ∧
      (item ∈ packages cache providers →
        eligible.head?.map cache.pkgFn = some item) := by
  have first := addPreferred_of_available ⟨[], []⟩ available
  obtain ⟨after, ran, isEligible, inNames, _⟩ :=
    addLatest_eq comparable nodup_packages
    (List.Subset.refl (packages cache providers))
    ⟨[] ++ (packages cache providers).filterMap
      (preferredOf getVar cache providers),
      preferredDict getVar cache providers (packages cache providers) []⟩
    fun pn member => get?_preferredDict member
  have permuted : after.eligible.Perm
      ((packages cache providers).filterMap
        (chosenOf getVar cache providers)) := by
    rw [isEligible, List.nil_append]
    exact perm_filterMap_or _
  have ends : filterEligible getVar cache providers item =
      some (preferItem cache item after.preferredVersions
        (providers.insertionSort (· ≤ ·)) after.eligible) := by
    rw [packages] at first ran
    rw [filterEligible]
    simp only [first, ran, Option.bind_eq_bind, Option.bind_some]
    split_ifs with empty
    · rw [empty, preferItem_nil]
      rfl
    · rfl
  rw [ends]
  by_cases isPackage : item ∈ packages cache providers
  · obtain ⟨fn, chosen, isChoice⟩ :=
      @isChoice_chosenOf _ _ getVar _ _ _ comparable isPackage
    have member : fn ∈ after.eligible :=
      permuted.mem_iff.mpr (List.mem_filterMap.mpr ⟨item, isPackage, chosen⟩)
    have stands : ∃ p ∈ providers.insertionSort (· ≤ ·), cache.pkgFn p = item :=
      ⟨fn, (List.mem_insertionSort _).mpr isChoice.provides.1,
        isChoice.provides.2⟩
    rw [preferItem_eq (by rw [inNames item isPackage, chosen]) member,
      if_pos stands]
    refine ⟨_, rfl, (perm_moveToFront member).trans permuted, fun _ => ?_⟩
    simp [moveToFront, isChoice.provides.2]
  · have missing : ∀ p ∈ providers.insertionSort (· ≤ ·), cache.pkgFn p ≠
        item := by
      intro p member isItem
      exact isPackage
        (mem_packages.mpr ⟨p, (List.mem_insertionSort _).mp member, isItem⟩)
    rw [preferItem_of_not_mem missing]
    exact ⟨_, rfl, permuted, fun member => absurd member isPackage⟩

theorem filterEligible_of_unavailable {before after : List Text}
    (isNames : packages cache providers = before ++ pn :: after)
    (available : ∀ pn ∈ before, ¬ Unavailable getVar cache providers pn)
    (unavailable : Unavailable getVar cache providers pn) (item : Text) :
    filterEligible getVar cache providers item =
      some (before.filterMap (preferredOf getVar cache providers)) := by
  obtain ⟨ended, isEligible⟩ := addPreferred_of_unavailable after ⟨[], []⟩
    available unavailable
  rw [← isNames, packages] at ended isEligible
  rw [filterEligible]
  split
  · rename_i filtering ran
    rw [ran] at isEligible
    rw [isEligible]
    rfl
  · rename_i filtering ran
    rw [ran] at ended
    cases ended

theorem filterProviders_of_eligible
    (ran : filterEligible getVar cache providers item = some eligible) :
    filterProviders getVar cache providers item =
      some ((preferProvider cache (preferredProvider getVar cache item)
        eligible).1,
        (preferProvider cache (preferredProvider getVar cache item) eligible).2,
        updatePreferred getVar cache item) := by
  rw [filterProviders, ran]
  rfl

theorem filterProviders_perm {others : List File}
    (permutation : others.Perm providers) (item : Text) :
    filterProviders getVar cache others item =
      filterProviders getVar cache providers item := by
  have sorted : others.insertionSort (· ≤ ·) =
      providers.insertionSort (· ≤ ·) := by
    have permuted :=
      ((List.perm_insertionSort (· ≤ ·) others).trans permutation).trans
      (List.perm_insertionSort (· ≤ ·) providers).symm
    exact permuted.eq_of_pairwise' (List.pairwise_insertionSort (· ≤ ·) others)
      (List.pairwise_insertionSort (· ≤ ·) providers)
  rw [filterProviders, filterEligible, sorted]
  rfl

theorem head_of_preferred {item pn : Text} {f : File}
    (isPreferred : preferredProvider getVar cache item = some pn)
    (member : f ∈ eligible)
    (isPn : cache.pkgFn f = pn) :
    (preferProvider cache (preferredProvider getVar cache item)
      eligible).1.head?.map cache.pkgFn = some pn := by
  rw [isPreferred]
  exact head_preferProvider member isPn

theorem onePerPackage_of_available (comparable : Comparable cache providers)
    (available : ∀ pn ∈ packages cache providers,
      ¬ Unavailable getVar cache providers pn)
    (permuted : eligible.Perm
      ((packages cache providers).filterMap (chosenOf getVar cache providers)))
    (first : item ∈ packages cache providers →
      eligible.head?.map cache.pkgFn = some item) :
    OnePerPackage getVar cache providers item
      (preferProvider cache (preferredProvider getVar cache item)
        eligible).1 := by
  have moved :
      (preferProvider cache (preferredProvider getVar cache item)
        eligible).1.Perm
      ((packages cache providers).filterMap
        (chosenOf getVar cache providers)) :=
    (preferProvider_perm _ _).trans permuted
  have keyed : ∀ pn ∈ packages cache providers, ∀ f,
      chosenOf getVar cache providers pn = some f → cache.pkgFn f = pn :=
    fun pn member f => pkgFn_of_chosenOf comparable member
  have isAvailable : ∀ f ∈ eligible, Available getVar cache providers
      (cache.pkgFn f) := by
    intro f member
    obtain ⟨pn, isPackage, chosen⟩ :=
      List.mem_filterMap.mp (permuted.mem_iff.mp member)
    rw [keyed pn isPackage f chosen]
    exact ⟨mem_packages_iff.mp isPackage, available pn isPackage⟩
  constructor
  · intro pn isPn
    have member := mem_packages_iff.mpr isPn.1
    obtain ⟨f, chosen, isChoice⟩ :=
      @isChoice_chosenOf _ _ getVar _ _ _ comparable member
    exact ⟨f, filter_eq_singleton_of_perm keyed nodup_packages moved member
      chosen, isChoice⟩
  · intro f member
    exact isAvailable f ((preferProvider_perm _ _).mem_iff.mp member)
  · intro pn isPreferred isPn
    have member := mem_packages_iff.mpr isPn.1
    obtain ⟨f, chosen, isChoice⟩ :=
      @isChoice_chosenOf _ _ getVar _ _ _ comparable member
    exact head_of_preferred isPreferred
      (permuted.mem_iff.mpr (List.mem_filterMap.mpr ⟨pn, member, chosen⟩))
      isChoice.provides.2
  · intro isItem unpreferred
    rw [preferProvider_of_not_mem]
    · exact first (mem_packages_iff.mpr isItem.1)
    · intro pn isPreferred f member isPn
      exact unpreferred pn isPreferred (isPn ▸ isAvailable f member)

section Early

variable {before after : List Text} {unavailablePn : Text}
  (isNames : packages cache providers = before ++ unavailablePn :: after)
include isNames

/-- The available packages are those before the one that ends the search, and
some of those behind it. -/
theorem available_of_mem_before
    (available : ∀ pn ∈ before, ¬ Unavailable getVar cache providers pn)
    {pn : Text} (member : pn ∈ before) :
    Available getVar cache providers pn := by
  refine ⟨mem_packages_iff.mp ?_, available pn member⟩
  rw [isNames]
  exact List.mem_append_left _ member

theorem lt_of_mem_before {pn other : Text} (member : pn ∈ before)
    (behind : other ∈ unavailablePn :: after) : pn < other := by
  have sorted : (packages cache providers).Pairwise (· < ·) := sorted_packages
  rw [isNames] at sorted
  exact (List.pairwise_append.mp sorted).2.2 pn member other behind

theorem mem_before_iff
    (available : ∀ pn ∈ before, ¬ Unavailable getVar cache providers pn)
    {f : File} :
    f ∈ before.filterMap (preferredOf getVar cache providers) ↔
      Available getVar cache providers (cache.pkgFn f) ∧
        cache.pkgFn f ∈ before ∧
        preferredOf getVar cache providers (cache.pkgFn f) = some f := by
  rw [List.mem_filterMap]
  constructor
  · rintro ⟨pn, isBefore, found⟩
    obtain rfl := (preferredOf_spec found).1.2
    exact ⟨available_of_mem_before isNames available isBefore, isBefore, found⟩
  · rintro ⟨_, isBefore, found⟩
    exact ⟨_, isBefore, found⟩

theorem sorted_filterMap_preferredOf :
    (before.filterMap (preferredOf getVar cache providers)).Pairwise
      fun f g => cache.pkgFn f < cache.pkgFn g := by
  have sorted : (packages cache providers).Pairwise (· < ·) := sorted_packages
  rw [isNames] at sorted
  rw [List.pairwise_filterMap]
  apply (List.pairwise_append.mp sorted).1.imp
  intro first second less f foundFirst g foundSecond
  rw [(preferredOf_spec foundFirst).1.2, (preferredOf_spec foundSecond).1.2]
  exact less

omit isNames

theorem preferProvider_of_not_available {item : Text} {eligible : List File}
    (isAvailable : ∀ f ∈ eligible, Available getVar cache providers
      (cache.pkgFn f))
    (unpreferred : ∀ pn, preferredProvider getVar cache item = some pn →
      ¬ Available getVar cache providers pn) :
    (preferProvider cache (preferredProvider getVar cache item) eligible).1 =
      eligible := by
  apply preferProvider_of_not_mem
  intro pn isPreferred f member isPn
  exact unpreferred pn isPreferred (isPn ▸ isAvailable f member)

theorem earlyEndSuffices_of_onePerPackage {item : Text}
    (isNames : packages cache providers = before ++ unavailablePn :: after)
    (available : ∀ pn ∈ before, ¬ Unavailable getVar cache providers pn)
    (meant : OnePerPackage getVar cache providers item
      (preferProvider cache (preferredProvider getVar cache item)
        (before.filterMap (preferredOf getVar cache providers))).1) :
    EarlyEndSuffices getVar cache providers item := by
  have inList : ∀ pn, Available getVar cache providers pn →
      ∃ f ∈ before.filterMap (preferredOf getVar cache providers),
      cache.pkgFn f = pn := by
    intro pn isPn
    obtain ⟨f, isOnly, _⟩ := meant.one pn isPn
    obtain ⟨member, named⟩ :=
      List.mem_filter.mp (isOnly ▸ List.mem_singleton_self f)
    exact ⟨f, (preferProvider_perm _ _).mem_iff.mp member, by simpa using named⟩
  constructor
  · intro pn isPn
    obtain ⟨f, member, rfl⟩ := inList pn isPn
    obtain ⟨_, _, found⟩ := (mem_before_iff isNames available).mp member
    exact ⟨f, (preferredOf_spec found).1, (preferredOf_spec found).2.1⟩
  · intro pn isPn other provided isUnavailable
    obtain ⟨f, member, rfl⟩ := inList pn isPn
    obtain ⟨_, isBefore, _⟩ := (mem_before_iff isNames available).mp member
    have isPackage := mem_packages_iff.mpr provided
    rw [isNames] at isPackage
    rcases List.mem_append.mp isPackage with earlier | behind
    · exact absurd isUnavailable (available other earlier)
    · exact lt_of_mem_before isNames isBefore behind
  · intro isItem
    by_cases preferred : ∃ pn, preferredProvider getVar cache item = some pn ∧
        Available getVar cache providers pn
    · exact .inl preferred
    · refine .inr ?_
      have unpreferred : ∀ pn, preferredProvider getVar cache item = some pn →
          ¬ Available getVar cache providers pn :=
        fun pn isPreferred isPn => preferred ⟨pn, isPreferred, isPn⟩
      have isFirst := meant.itemFirst isItem unpreferred
      rw [preferProvider_of_not_available
        (fun f member => ((mem_before_iff isNames available).mp member).1)
        unpreferred] at isFirst
      obtain ⟨f, member, rfl⟩ := inList item isItem
      intro pn isPn
      obtain ⟨g, isG, rfl⟩ := inList pn isPn
      exact (head_map_eq_iff (sorted_filterMap_preferredOf isNames) member).mp
        isFirst g isG

theorem onePerPackage_of_earlyEndSuffices {item : Text}
    (isNames : packages cache providers = before ++ unavailablePn :: after)
    (available : ∀ pn ∈ before, ¬ Unavailable getVar cache providers pn)
    (unavailable : Unavailable getVar cache providers unavailablePn)
    (enough : EarlyEndSuffices getVar cache providers item) :
    OnePerPackage getVar cache providers item
      (preferProvider cache (preferredProvider getVar cache item)
        (before.filterMap (preferredOf getVar cache providers))).1 := by
  have permuted : (preferProvider cache (preferredProvider getVar cache item)
      (before.filterMap (preferredOf getVar cache providers))).1.Perm
      (before.filterMap (preferredOf getVar cache providers)) :=
        preferProvider_perm _ _
  have nodup : (packages cache providers).Nodup := nodup_packages
  rw [isNames] at nodup
  have unique : before.Nodup := (List.nodup_append.mp nodup).1
  have keyed : ∀ pn ∈ before, ∀ f, preferredOf getVar cache providers pn =
      some f →
      cache.pkgFn f = pn := fun pn _ f found => (preferredOf_spec found).1.2
  have isBefore : ∀ pn, Available getVar cache providers pn → pn ∈ before := by
    intro pn isPn
    have isPackage := mem_packages_iff.mpr isPn.1
    have isEnd : unavailablePn ∈ packages cache providers := by simp [isNames]
    have less := enough.before pn isPn _ (mem_packages_iff.mp isEnd) unavailable
    have sorted : (packages cache providers).Pairwise (· < ·) := sorted_packages
    rw [isNames] at isPackage sorted
    rcases List.mem_append.mp isPackage with earlier | behind
    · exact earlier
    · rcases List.mem_cons.mp behind with rfl | later
      · exact absurd less (lt_irrefl _)
      · have greater :=
          List.rel_of_pairwise_cons (List.pairwise_append.mp sorted).2.1 later
        exact absurd less greater.not_gt
  have inList : ∀ pn, Available getVar cache providers pn →
      ∃ f ∈ before.filterMap (preferredOf getVar cache providers),
        preferredOf getVar cache providers pn = some f := by
    intro pn isPn
    obtain ⟨g, provides, isMatch⟩ := enough.matched pn isPn
    cases found : preferredOf getVar cache providers pn with
    | none => exact absurd isMatch (preferredOf_eq_none_iff.mp found g provides)
    | some f =>
        exact ⟨f, List.mem_filterMap.mpr ⟨pn, isBefore pn isPn, found⟩, rfl⟩
  constructor
  · intro pn isPn
    obtain ⟨f, _, found⟩ := inList pn isPn
    exact ⟨f, filter_eq_singleton_of_perm keyed unique permuted
      (isBefore pn isPn) found, isChoice_preferredOf found⟩
  · intro f member
    exact ((mem_before_iff isNames available).mp (permuted.mem_iff.mp member)).1
  · intro pn isPreferred isPn
    obtain ⟨f, member, found⟩ := inList pn isPn
    exact head_of_preferred isPreferred member (preferredOf_spec found).1.2
  · intro isItem unpreferred
    rw [preferProvider_of_not_available
      (fun f member => ((mem_before_iff isNames available).mp member).1)
      unpreferred]
    obtain ⟨f, member, found⟩ := inList item isItem
    rcases enough.first isItem with ⟨pn, isPreferred, isPn⟩ | smallest
    · exact absurd isPn (unpreferred pn isPreferred)
    · obtain rfl := (preferredOf_spec found).1.2
      rw [head_map_eq_iff (sorted_filterMap_preferredOf isNames) member]
      intro g isG
      exact smallest _ ((mem_before_iff isNames available).mp isG).1

end Early

/-- `filterProviders` chooses as it is meant to exactly when no required version
is unavailable, or its early end leaves nothing out. -/
theorem providerChoice_iff (item : Text)
    (comparable : Comparable cache providers) :
    ProviderChoice getVar cache providers item ↔
      (∀ pn f, Provides cache providers pn f →
        ¬ Unavailable getVar cache providers pn) ∨
        EarlyEndSuffices getVar cache providers item := by
  classical
  have latest : ∀ fileSet ≠ [], fileSet ⊆ providers →
      ∃ best ∈ fileSet, findLatestProvider cache fileSet =
          some (some (cache.pkgPepvpr best), some best) ∧
        ∀ f ∈ fileSet, NotAbove cache f best := by
    intro fileSet nonempty inProviders
    exact findLatestProvider_maximal
      (fun f member => comparable f (inProviders member)) nonempty
  have anyOrder : ∀ others : List File, others.Perm providers →
      filterProviders getVar cache others item =
        filterProviders getVar cache providers item :=
    fun others permutation => filterProviders_perm permutation item
  rcases List.exists_or_eq_self_of_eraseP
      (fun pn => decide (Unavailable getVar cache providers pn))
      (packages cache providers) with
    unchanged | ⟨unavailablePn, before, after, unfound, found, isNames, _⟩
  · have available : ∀ pn ∈ packages cache providers,
        ¬ Unavailable getVar cache providers pn := by
      simpa using List.eraseP_eq_self_iff.mp unchanged
    have isAvailable : ∀ pn f, Provides cache providers pn f →
        ¬ Unavailable getVar cache providers pn :=
      fun pn f provides => available pn (mem_packages_iff.mpr ⟨f, provides⟩)
    obtain ⟨eligible, ran, permuted, first⟩ :=
      filterEligible_of_available comparable available item
    exact ⟨fun _ => .inl isAvailable, fun _ => ⟨latest, anyOrder, _, _, _,
      filterProviders_of_eligible ran,
      onePerPackage_of_available comparable available permuted first⟩⟩
  · have unavailable := of_decide_eq_true found
    have available : ∀ pn ∈ before, ¬ Unavailable getVar cache providers
        pn := by
      simpa using unfound
    have isEnd : unavailablePn ∈ packages cache providers := by simp [isNames]
    have ran := filterProviders_of_eligible
      (filterEligible_of_unavailable isNames available unavailable item)
    constructor
    · rintro ⟨_, _, eligible, foundUnique, preferred, result, meant⟩
      rw [ran] at result
      cases result
      exact .inr (earlyEndSuffices_of_onePerPackage isNames available meant)
    · rintro (isAvailable | enough)
      · obtain ⟨f, provides⟩ := mem_packages_iff.mp isEnd
        exact absurd unavailable (isAvailable _ f provides)
      · exact ⟨latest, anyOrder, _, _, _, ran,
          onePerPackage_of_earlyEndSuffices isNames available unavailable
            enough⟩

end Choice

/-- Two recipes of the version 1, for the packages `a` and `b`. -/
def twoPackages : DataCache ℕ :=
  ⟨fun f => if f = 0 then "a".toList else "b".toList, fun _ =>
    ([], "1".toList, "r0".toList), fun _ => 0, fun _ => 0, []⟩

theorem comparable_twoPackages (files : List ℕ) :
    Comparable twoPackages files :=
  fun _ _ => ⟨⟨0, "1".toList, "r0".toList⟩, rfl, by decide, by decide⟩

theorem providerChoice_twoPackages :
    ProviderChoice (fun _ => none) twoPackages [0, 1] "b".toList := by
  apply (providerChoice_iff "b".toList (comparable_twoPackages [0, 1])).mpr
  refine .inl fun pn f _ unavailable => ?_
  exact absurd unavailable.1 (by simp [versionVariableMatch, isUnset])

/-- A required version of `a` that is unavailable hides the package `b`. -/
theorem unavailable_hides_package :
    ¬ ProviderChoice
      (fun name => if name = "REQUIRED_VERSION_a".toList then some "2".toList
                   else none)
      twoPackages [0, 1] "b".toList := by
  intro choice
  obtain ⟨eligible, foundUnique, preferred, ran, meant⟩ := choice.onePerPackage
  have isEmpty : filterProviders
      (fun name => if name = "REQUIRED_VERSION_a".toList then some "2".toList
                   else none)
      twoPackages [0, 1] "b".toList = some ([], false, []) := by decide
  rw [isEmpty] at ran
  cases ran
  obtain ⟨f, isOnly, _⟩ :=
    meant.one "b".toList ⟨⟨1, by decide, by decide⟩, fun unavailable =>
    absurd unavailable.1 (by decide)⟩
  cases isOnly

end Nvbmc.Providers
