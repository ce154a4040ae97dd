import Nvbmc.Providers.Latest
import Nvbmc.Providers.PreferredVersion

/-!
# Filtering providers

The providers of an item are put together by the names of their packages.  Each
package gives its preferred recipe, or else its latest one, and the packages
that are preferred for the item come first.
-/

namespace Nvbmc.Providers

open Library

section Filter

variable {File : Type} [LinearOrder File]
variable (getVar : Text → Option Text) (cache : DataCache File)

/-- The lists that `_filterProviders` builds: the eligible recipes, and the one
of each package. -/
structure Filtering (File : Type) where
  eligible : List File
  preferredVersions : Dict Text (Option File)

def fileSets (pkgPn : Dict Text (List File)) (pn : Text) : List (List File) :=
  sortPriorities cache ((pkgPn.get? pn).getD [])

/-- The first loop of `_filterProviders`, and whether it returns: a required
version that is not available ends it. -/
def addPreferred (pkgPn : Dict Text (List File)) :
    List Text → Filtering File → Bool × Filtering File
  | [], filtering => (false, filtering)
  | pn :: names, filtering =>
      let found :=
        findPreferredProvider getVar cache pn (fileSets cache pkgPn pn)
      if found.required = true ∧ found.preferredFile = none then
        (true, filtering)
      else
        addPreferred pkgPn names
          ⟨filtering.eligible ++ found.preferredFile.toList,
            filtering.preferredVersions.set pn found.preferredFile⟩

/-- The second loop.  No package is without files, and no file set is empty. -/
def addLatest (pkgPn : Dict Text (List File)) :
    List Text → Filtering File → Option (Filtering File)
  | [], filtering => some filtering
  | pn :: names, filtering =>
      if ((filtering.preferredVersions.get? pn).getD none).isSome then
        addLatest pkgPn names filtering
      else do
        let fileSet ← (fileSets cache pkgPn pn).head?
        let found ← findLatestProvider cache fileSet
        addLatest pkgPn names
          ⟨filtering.eligible ++ found.2.toList,
            filtering.preferredVersions.set pn found.2⟩

/-- `eligible.remove(fn)` and `[fn] + eligible`. -/
def moveToFront (fn : File) (eligible : List File) : List File :=
  fn :: eligible.erase fn

/-- The third loop: the package that is named as the item comes first. -/
def preferItem (item : Text) (preferredVersions : Dict Text (Option File))
    (providers eligible : List File) : List File :=
  providers.foldl
    (fun eligible p =>
      if cache.pkgFn p ≠ item then eligible
      else
        match (preferredVersions.get? (cache.pkgFn p)).getD none with
        | none => eligible
        | some fn =>
            if fn ∈ eligible then moveToFront fn eligible else eligible)
    eligible

/-- `_filterProviders`. -/
def filterEligible (providers : List File) (item : Text) : Option (List File) :=
  let providers := providers.insertionSort (· ≤ ·)
  let pkgPn := Dict.groups cache.pkgFn id providers
  let names := pkgPn.keys.insertionSort (· ≤ ·)
  match addPreferred getVar cache pkgPn names ⟨[], []⟩ with
  | (true, filtering) => some filtering.eligible
  | (false, filtering) => do
      let filtering ← addLatest cache pkgPn names filtering
      if filtering.eligible = [] then pure []
      else
        pure (preferItem cache item filtering.preferredVersions providers
          filtering.eligible)

/-- `dataCache.preferred`, with the preferred provider of the configuration. -/
def updatePreferred (item : Text) : Dict Text Text :=
  match getVar ("PREFERRED_PROVIDER_".toList ++ item) with
  | none => cache.preferred
  | some [] => cache.preferred
  | some prefervar => cache.preferred.set item prefervar

/-- The loop of `filterProviders` over the eligible recipes, and `foundUnique`.
-/
def preferProvider (preferred : Option Text) (eligible : List File) :
    List File × Bool :=
  match preferred with
  | none => (eligible, false)
  | some pn =>
      match eligible.find? fun p => cache.pkgFn p = pn with
      | none => (eligible, false)
      | some p => (moveToFront p eligible, true)

/-- `filterProviders`: the eligible recipes, `foundUnique` and
`dataCache.preferred`. -/
def filterProviders (providers : List File) (item : Text) :
    Option (List File × Bool × Dict Text Text) := do
  let eligible ← filterEligible getVar cache providers item
  let preferred := updatePreferred getVar cache item
  let found := preferProvider cache (preferred.get? item) eligible
  pure (found.1, found.2, preferred)

end Filter

end Nvbmc.Providers
