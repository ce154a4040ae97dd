import Nvbmc.Providers.Priorities
import Nvbmc.Versions.Order

/-!
# The latest provider

`findLatestProvider` walks along the files of a set and keeps one with the
highest default preference, and among those one with the highest version.
-/

namespace Nvbmc.Providers

open Library Versions

/-- `int(ea or 0)`. -/
def epochValue (pe : Text) : Option ℤ :=
  if pe = [] then some 0 else int? pe

/-- The tuple of the cache as `vercmp` takes it. -/
def versionOf (pepvpr : Text × Text × Text) : Option Version :=
  (epochValue pepvpr.1).map fun pe => ⟨pe, pepvpr.2.1, pepvpr.2.2⟩

/-- `utils.vercmp`. -/
def vercmpTuple (ta tb : Text × Text × Text) : Option ℤ := do
  let first ← versionOf ta
  let second ← versionOf tb
  vercmp first second

section Latest

variable {File : Type} (cache : DataCache File)

/-- What the loop of `findLatestProvider` keeps. -/
structure Latest (File : Type) where
  latest : Option (Text × Text × Text)
  latestP : ℤ
  latestF : Option File

/-- One round of the loop. -/
def Latest.step (state : Latest File) (fileName : File) :
    Option (Latest File) :=
  let taken : Latest File :=
    ⟨some (cache.pkgPepvpr fileName), cache.pkgDp fileName, some fileName⟩
  match state.latest with
  | none => some taken
  | some latest => do
      let newer ←
        if state.latestP = cache.pkgDp fileName then
          (vercmpTuple latest (cache.pkgPepvpr fileName)).map fun result =>
            decide (result < 0)
        else some false
      pure (if newer = true ∨ state.latestP < cache.pkgDp fileName then taken
            else state)

/-- `findLatestProvider`. -/
def findLatestProvider (fileSet : List File) :
    Option (Option (Text × Text × Text) × Option File) :=
  (fileSet.foldlM (Latest.step cache) ⟨none, 0, none⟩).map fun state =>
    (state.latest, state.latestF)

def Comparable (files : List File) : Prop :=
  ∀ f ∈ files, ∃ version, versionOf (cache.pkgPepvpr f) = some version ∧
    version.Plain

/-- A file is not above another one in default preference and version. -/
def NotAbove (f best : File) : Prop :=
  cache.pkgDp f < cache.pkgDp best ∨
    cache.pkgDp f = cache.pkgDp best ∧
      ∃ result ≤ 0, vercmpTuple (cache.pkgPepvpr f) (cache.pkgPepvpr best) =
        some result

variable {cache} {files : List File}

def fileKey (cache : DataCache File) (f : File) :
    ℤ ×ₗ ℤ ×ₗ List PieceKey ×ₗ List PieceKey :=
  toLex (cache.pkgDp f, ((versionOf (cache.pkgPepvpr f)).getD ⟨0, [], []⟩).key)

theorem vercmpTuple_agrees (comparable : Comparable cache files) {f g : File}
    (memberF : f ∈ files) (memberG : g ∈ files) :
    ∃ result, vercmpTuple (cache.pkgPepvpr f) (cache.pkgPepvpr g) =
      some result ∧
      Agrees result ((versionOf (cache.pkgPepvpr f)).getD ⟨0, [], []⟩).key
        ((versionOf (cache.pkgPepvpr g)).getD ⟨0, [], []⟩).key := by
  obtain ⟨first, isFirst, plainFirst⟩ := comparable f memberF
  obtain ⟨second, isSecond, plainSecond⟩ := comparable g memberG
  obtain ⟨result, compared, agrees⟩ := vercmp_agrees plainFirst plainSecond
  refine ⟨result, ?_, by simpa [isFirst, isSecond] using agrees⟩
  rw [vercmpTuple, isFirst, isSecond]
  exact compared

theorem notAbove_iff (comparable : Comparable cache files) {f best : File}
    (memberF : f ∈ files) (memberBest : best ∈ files) :
    NotAbove cache f best ↔ fileKey cache f ≤ fileKey cache best := by
  obtain ⟨result, compared, agrees⟩ :=
    vercmpTuple_agrees comparable memberF memberBest
  rw [NotAbove, compared, fileKey, fileKey,
    Prod.Lex.toLex_le_toLex, ← agrees.nonpos_iff]
  simp

def Latest.of (cache : DataCache File) (f : File) : Latest File :=
  ⟨some (cache.pkgPepvpr f), cache.pkgDp f, some f⟩

variable (comparable : Comparable cache files)
include comparable

theorem step_of {kept f : File} (memberKept : kept ∈ files)
    (memberF : f ∈ files) : Latest.step cache (.of cache kept) f =
      some (.of cache (if fileKey cache kept < fileKey cache f then f
                       else kept)) := by
  obtain ⟨result, compared, agrees⟩ :=
    vercmpTuple_agrees comparable memberKept memberF
  have less : fileKey cache kept < fileKey cache f ↔
      cache.pkgDp kept < cache.pkgDp f ∨ cache.pkgDp kept = cache.pkgDp f ∧
        result < 0 := by
    rw [fileKey, fileKey, Prod.Lex.toLex_lt_toLex, agrees.neg_iff]
  rw [Latest.step, Latest.of]
  simp only [compared]
  by_cases same : cache.pkgDp kept = cache.pkgDp f
  · by_cases newer : result < 0
    · simp [same, newer, less, Latest.of]
    · simp [same, newer, less, Latest.of]
  · by_cases above : cache.pkgDp kept < cache.pkgDp f
    · simp [same, above, less, Latest.of]
    · simp [same, above, less, Latest.of]

theorem foldlM_step {kept : File} {rest : List File}
    (memberKept : kept ∈ files) (members : rest ⊆ files) :
    ∃ best ∈ kept :: rest, rest.foldlM (Latest.step cache) (.of cache kept) =
        some (.of cache best) ∧
      ∀ f ∈ kept :: rest, fileKey cache f ≤ fileKey cache best := by
  induction rest generalizing kept with
  | nil => exact ⟨kept, List.mem_cons_self, rfl, by simp⟩
  | cons next rest induction =>
      obtain ⟨memberNext, membersRest⟩ := List.cons_subset.mp members
      rw [List.foldlM_cons, step_of comparable memberKept memberNext]
      simp only [Option.bind_eq_bind, Option.bind_some]
      split_ifs with greater
      · obtain ⟨best, member, ran, bounds⟩ := induction memberNext membersRest
        refine ⟨best, List.mem_cons_of_mem _ member, ran, ?_⟩
        intro f isFile
        rcases List.mem_cons.mp isFile with rfl | later
        · exact greater.le.trans (bounds next List.mem_cons_self)
        · exact bounds f later
      · obtain ⟨best, member, ran, bounds⟩ := induction memberKept membersRest
        refine ⟨best, ?_, ran, ?_⟩
        · rcases List.mem_cons.mp member with rfl | later
          · exact List.mem_cons_self
          · exact List.mem_cons_of_mem _ (List.mem_cons_of_mem _ later)
        · intro f isFile
          rcases List.mem_cons.mp isFile with rfl | later
          · exact bounds f List.mem_cons_self
          · rcases List.mem_cons.mp later with rfl | later
            · exact (not_lt.mp greater).trans (bounds kept List.mem_cons_self)
            · exact bounds f (List.mem_cons_of_mem _ later)

theorem findLatestProvider_maximal (nonempty : files ≠ []) :
    ∃ best ∈ files,
      findLatestProvider cache files =
        some (some (cache.pkgPepvpr best), some best) ∧
      ∀ f ∈ files, NotAbove cache f best := by
  obtain ⟨first, rest, rfl⟩ := List.exists_cons_of_ne_nil nonempty
  obtain ⟨best, member, ran, bounds⟩ :=
    foldlM_step comparable List.mem_cons_self (List.subset_cons_self first rest)
  refine ⟨best, member, ?_, fun f isFile => ?_⟩
  · rw [findLatestProvider, List.foldlM_cons]
    exact congrArg (Option.map _) ran
  · exact (notAbove_iff comparable isFile member).mpr (bounds f isFile)

end Latest

end Nvbmc.Providers
