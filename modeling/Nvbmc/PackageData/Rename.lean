import Nvbmc.DepVersions.Accepted
import Nvbmc.Library.Split

/-!
# Renamed packages

`runtime_mapping_rename` reads the dependencies of a variable, maps their names
and writes them again.  The constraints are kept in a dictionary by the new
names, so that of several dependencies that are mapped to one name the last one
decides.
-/

namespace Nvbmc.PackageData

open Library DepVersions

/-- What `get_package_mapping` reads: the new names and the provided names of
packages, and whether the recipe is for all architectures and has variants. -/
structure RenameData where
  table : Text → Option Text
  rprovides : Text → Option Text
  allarch : Bool
  multilib : Bool
  named : ∀ package new, table package = some new → IsName new
  accepted : ∀ package provided, rprovides package = some provided →
    (explodeDepVersions2 provided true).isSome = true

/-- `get_package_mapping`; `none` when the provided names are not accepted. -/
def getPackageMapping (data : RenameData) (basepkg : Text)
    (package : Option Text) (depversions : List Text) : Option (Option Text) :=
  match package.bind data.table with
  | none => some package
  | some new =>
      if data.allarch ∧ ¬ data.multilib ∧ new = basepkg then some package
      else if depversions = [] then
        match package.bind data.rprovides with
        | none => some (some new)
        | some provided =>
            (explodeDepVersions2 provided true).map fun provides =>
            if provides.contains package then package else some new
      else some (some new)

/-- The new dependencies. -/
def renamedDeps (data : RenameData) (basepkg : Text) (deps : Deps) :
    Option Deps :=
  deps.foldlM (fun newDepends entry => do
    let newDepend ← getPackageMapping data basepkg entry.1 entry.2
    pure (newDepends.set newDepend entry.2)) []

/-- `runtime_mapping_rename`: the new value of the variable. -/
def runtimeMappingRename (data : RenameData) (basepkg depends : Text) :
    Option Text := do
  let deps ← explodeDepVersions2 depends true
  let newDepends ← renamedDeps data basepkg deps
  joinDeps (listed newDepends) false

def MapsTo (data : RenameData) (basepkg : Text)
    (entry : Option Text × List Text) (name : Option Text) : Prop :=
  getPackageMapping data basepkg entry.1 entry.2 = some name

/-- No name is mapped to another one. -/
def MapsNone (data : RenameData) (basepkg : Text) (deps : Deps) : Prop :=
  ∀ entry ∈ deps, MapsTo data basepkg entry entry.1

/-- The new dependencies have the mapped names and no others, each with exactly
the constraints of the dependencies that are mapped to it; and where no name is
mapped to another one, they are the same when they are renamed again. -/
structure Keeps (data : RenameData) (basepkg : Text) (deps : Deps) (text : Text)
    (after : Deps) : Prop where
  read : explodeDepVersions2 text true = some after
  names : ∀ name, name ∈ after.keys ↔ ∃ entry ∈ deps,
    MapsTo data basepkg entry name
  constraints : ∀ entry ∈ after, ∀ constraint, constraint ∈ entry.2 ↔
    ∃ dep ∈ deps, MapsTo data basepkg dep entry.1 ∧ constraint ∈ dep.2
  again : ∀ data', MapsNone data' basepkg after → ∃ text',
    runtimeMappingRename data' basepkg text = some text' ∧
      explodeDepVersions2 text' true = some after

/-- The constraints of a dependency are among those of the last one that is
mapped to the same name. -/
def NoneLost (data : RenameData) (basepkg : Text) (deps : Deps) : Prop :=
  ∀ before entry middle last after name,
    deps = before ++ entry :: (middle ++ last :: after) →
    MapsTo data basepkg entry name → MapsTo data basepkg last name →
    (∀ other ∈ after, ¬ MapsTo data basepkg other name) → entry.2 ⊆ last.2

section Mapped

variable {data : RenameData} {basepkg : Text}

theorem exists_mapsTo {name : Text} (isName : IsName name)
    (versions : List Text) :
    ∃ new, IsName new ∧ MapsTo data basepkg (some name, versions)
      (some new) := by
  cases isMapped : data.table name with
  | none =>
      refine ⟨name, isName, ?_⟩
      rw [MapsTo, getPackageMapping, Option.bind_some, isMapped]
  | some new =>
      have isNew := data.named name new isMapped
      by_cases isBase : data.allarch = true ∧ ¬ data.multilib = true ∧
        new = basepkg
      · refine ⟨name, isName, ?_⟩
        rw [MapsTo, getPackageMapping, Option.bind_some, isMapped]
        exact if_pos isBase
      · have mapped : getPackageMapping data basepkg (some name) versions =
            if versions = [] then
              match data.rprovides name with
              | none => some (some new)
              | some provided =>
                  (explodeDepVersions2 provided true).map fun provides =>
                  if provides.contains (some name) then some name else some new
            else some (some new) := by
          rw [getPackageMapping, Option.bind_some, isMapped]
          exact if_neg isBase
        by_cases unversioned : versions = []
        · rw [if_pos unversioned] at mapped
          cases isProvided : data.rprovides name with
          | none =>
              rw [isProvided] at mapped
              exact ⟨new, isNew, mapped⟩
          | some provided =>
              obtain ⟨provides, isRead⟩ :=
                Option.isSome_iff_exists.mp
                  (data.accepted name provided isProvided)
              simp only [isProvided, isRead, Option.map_some] at mapped
              by_cases member : provides.contains (some name) = true
              · rw [if_pos member] at mapped
                exact ⟨name, isName, mapped⟩
              · rw [if_neg member] at mapped
                exact ⟨new, isNew, mapped⟩
        · rw [if_neg unversioned] at mapped
          exact ⟨new, isNew, mapped⟩

def newName (data : RenameData) (basepkg : Text) (entry : Text × List Text) :
    Text :=
  ((getPackageMapping data basepkg (some entry.1) entry.2).bind id).getD []

theorem mapsTo_newName {entry : Text × List Text} (isName : IsName entry.1) :
    IsName (newName data basepkg entry) ∧
      ∀ name, MapsTo data basepkg (some entry.1, entry.2) name ↔
        name = some (newName data basepkg entry) := by
  obtain ⟨new, isNew, maps⟩ :=
    @exists_mapsTo data basepkg entry.1 isName entry.2
  have mapped : getPackageMapping data basepkg (some entry.1) entry.2 =
      some (some new) := maps
  have isNewName : newName data basepkg entry = new := by
    rw [newName, mapped]
    rfl
  rw [isNewName]
  refine ⟨isNew, ?_⟩
  intro name
  rw [MapsTo, mapped]
  exact ⟨fun same => (Option.some.inj same).symm, fun same => by rw [same]⟩

def newDeps (data : RenameData) (basepkg : Text)
    (deps : List (Text × List Text)) : Dict Text (List Text) :=
  Dict.collect (fun entry => some (newName data basepkg entry, entry.2)) deps

theorem newDeps_concat (deps : List (Text × List Text))
    (entry : Text × List Text) : newDeps data basepkg (deps ++ [entry]) =
      (newDeps data basepkg deps).set (newName data basepkg entry) entry.2 :=
  Dict.collect_concat deps entry

theorem named_set (deps : Dict Text (List Text)) (name : Text)
    (versions : List Text) :
    named (deps.set name versions) = Dict.set (named deps)
      (some name) versions := by
  induction deps with
  | nil => rfl
  | cons entry deps induction =>
      by_cases same : entry.1 = name
      · simp [named, Dict.set, same]
      · rw [named] at induction
        simp [named, Dict.set, same, induction]

variable {deps : List (Text × List Text)}

theorem renamedDeps_named (areNames : ∀ entry ∈ deps, IsName entry.1) :
    renamedDeps data basepkg (named deps) =
      some (named (newDeps data basepkg deps)) := by
  induction deps using List.reverseRecOn with
  | nil => rfl
  | append_singleton deps entry induction =>
      have earlier :=
        induction fun other member =>
          areNames other (List.mem_append_left _ member)
      have isName := areNames entry (by simp)
      have mapped : getPackageMapping data basepkg (some entry.1) entry.2 =
          some (some (newName data basepkg entry)) :=
        ((@mapsTo_newName data basepkg entry isName).2 _).mpr rfl
      rw [renamedDeps] at earlier
      rw [renamedDeps, named, List.map_append, List.foldlM_append, ← named,
        earlier, List.map_singleton, newDeps_concat, named_set]
      simp only [Option.bind_eq_bind, Option.bind_some, List.foldlM_cons,
        List.foldlM_nil, mapped]
      rfl

theorem isMapping_newDeps (isMapping : IsMapping deps) :
    IsMapping (newDeps data basepkg deps) := by
  have unique := Dict.nodup_keys_collect
    (fun entry : Text × List Text => some (newName data basepkg entry, entry.2))
    deps
  have comes : ∀ entry ∈ newDeps data basepkg deps, ∃ dep ∈ deps,
      newName data basepkg dep = entry.1 ∧ dep.2 = entry.2 := by
    intro entry member
    have isFound : (newDeps data basepkg deps).get? entry.1 = some entry.2 :=
      Dict.get?_of_mem unique member
    obtain ⟨dep, isDep, same⟩ := Dict.exists_of_get?_collect isFound
    have parts := Prod.mk.inj (Option.some.inj same)
    exact ⟨dep, isDep, parts.1, parts.2⟩
  constructor
  · exact unique
  · intro entry member
    obtain ⟨dep, isDep, isNew, _⟩ := comes entry member
    rw [← isNew]
    exact (mapsTo_newName (isMapping.names dep isDep)).1
  · intro entry member constraint isConstraint
    obtain ⟨dep, isDep, _, same⟩ := comes entry member
    exact isMapping.constraints dep isDep constraint (same ▸ isConstraint)

theorem runtimeMappingRename_named {depends : Text}
    (isMapping : IsMapping deps)
    (isRead : explodeDepVersions2 depends true = some (named deps)) :
    ∃ text, runtimeMappingRename data basepkg depends = some text ∧
      joinDeps (listed (named (newDeps data basepkg deps))) false = some text ∧
      explodeDepVersions2 text true =
        some (named (sortedNames (newDeps data basepkg deps))) := by
  have joined := joinDeps_named (newDeps data basepkg deps) false
  have isNew := @isMapping_newDeps data basepkg _ isMapping
  have readAgain := explodeDepVersions2_joinDeps isNew false true
  rw [joined, Option.bind_some, if_pos rfl, sortItems_named] at readAgain
  refine ⟨_, ?_, joined, readAgain⟩
  rw [runtimeMappingRename, isRead, Option.bind_eq_bind, Option.bind_some,
    renamedDeps_named isMapping.names]
  exact joined

end Mapped

section Kept

variable {data : RenameData} {basepkg : Text} {deps : List (Text × List Text)}

theorem mapsTo_iff (areNames : ∀ entry ∈ deps, IsName entry.1)
    {entry : Text × List Text} (member : entry ∈ deps) (name : Option Text) :
    MapsTo data basepkg (some entry.1, entry.2) name ↔
      name = some (newName data basepkg entry) :=
  (mapsTo_newName (areNames entry member)).2 name

variable {versions : List Text}

theorem mem_named {name : Option Text} :
    (name, versions) ∈ named deps ↔ ∃ entry ∈ deps, name = some entry.1 ∧
      versions = entry.2 := by
  rw [named, List.mem_map]
  constructor
  · intro exist
    obtain ⟨entry, member, same⟩ := exist
    cases same
    exact ⟨entry, member, rfl, rfl⟩
  · intro exist
    obtain ⟨entry, member, isName, isVersions⟩ := exist
    exact ⟨entry, member, by rw [isName, isVersions]⟩

theorem mem_sortedNames {deps : List (Text × List Text)}
    {entry : Text × List Text} : entry ∈ sortedNames deps ↔ entry ∈ deps :=
  List.mem_insertionSort _

theorem mem_newDeps_iff {name : Text} :
    (name, versions) ∈ newDeps data basepkg deps ↔
      (newDeps data basepkg deps).get? name = some versions :=
  ⟨Dict.get?_of_mem (Dict.nodup_keys_collect _ _), Dict.mem_of_get?⟩

theorem mem_keys_newDeps {name : Text} :
    name ∈ (newDeps data basepkg deps).keys ↔ ∃ entry ∈ deps,
      newName data basepkg entry = name := by
  constructor
  · intro member
    obtain ⟨⟨other, versions⟩, isEntry, same⟩ := List.mem_map.mp member
    obtain ⟨entry, isDep, isNew⟩ :=
      Dict.exists_of_get?_collect (mem_newDeps_iff.mp isEntry)
    have parts := Prod.mk.inj (Option.some.inj isNew)
    exact ⟨entry, isDep, parts.1.trans same⟩
  · intro exist
    obtain ⟨entry, isDep, same⟩ := exist
    have isSome : ((newDeps data basepkg deps).get? name).isSome = true :=
      Dict.isSome_get?_collect isDep (by rw [same])
    exact Dict.get?_ne_none_iff.mp (Option.isSome_iff_ne_none.mp isSome)

theorem get?_newDeps_iff {name : Text} :
    (newDeps data basepkg deps).get? name = some versions ↔
      ∃ before last after, deps = before ++ last :: after ∧
        newName data basepkg last = name ∧
        last.2 = versions ∧ ∀ other ∈ after,
          newName data basepkg other ≠ name := by
  constructor
  · intro isFound
    obtain ⟨before, last, after, split, same, none⟩ :=
      Dict.exists_last_of_get?_collect isFound
    have parts := Prod.mk.inj (Option.some.inj same)
    refine ⟨before, last, after, split, parts.1, parts.2, ?_⟩
    intro other member isName
    exact none other member other.2 (by rw [isName])
  · intro exist
    obtain ⟨before, last, after, split, isName, isVersions, none⟩ := exist
    rw [split]
    apply Dict.get?_collect_last
    · rw [isName, isVersions]
    · intro other member later same
      exact none other member (Prod.mk.inj (Option.some.inj same)).1

theorem constraints_iff (areNames : ∀ entry ∈ deps, IsName entry.1) :
    (∀ entry ∈ newDeps data basepkg deps, ∀ constraint, constraint ∈ entry.2 ↔
      ∃ dep ∈ deps, newName data basepkg dep = entry.1 ∧ constraint ∈ dep.2) ↔
      NoneLost data basepkg (named deps) := by
  constructor
  · intro constraints before entry middle last after name split mapsEntry
      mapsLast mapsNone
    obtain ⟨before', behind, isDeps, isBefore, isBehind⟩ :=
      List.map_eq_append_iff.mp split
    obtain ⟨entry', rest, isRest, isEntry, isMiddle⟩ :=
      List.map_eq_cons_iff.mp isBehind
    obtain ⟨middle', behind', isRest', isMiddle', isLast'⟩ :=
      List.map_eq_append_iff.mp isMiddle
    obtain ⟨last', after', isAfter', isLast, isAfter⟩ :=
      List.map_eq_cons_iff.mp isLast'
    have whole : deps = (before' ++ entry' :: middle') ++ last' :: after' := by
      rw [isDeps, isRest, isRest', isAfter', List.append_assoc,
        List.cons_append]
    have memberEntry : entry' ∈ deps := by
      rw [whole]
      simp
    have memberLast : last' ∈ deps := by
      rw [whole]
      simp
    rw [← isEntry] at mapsEntry ⊢
    rw [← isLast] at mapsLast ⊢
    have isNew := (mapsTo_iff areNames memberEntry name).mp mapsEntry
    have isNewLast := (mapsTo_iff areNames memberLast name).mp mapsLast
    have sameName : newName data basepkg entry' = newName data basepkg last' :=
      Option.some.inj (isNew.symm.trans isNewLast)
    have isFound : (newDeps data basepkg deps).get?
        (newName data basepkg last') = some last'.2 := by
      apply get?_newDeps_iff.mpr
      refine ⟨_, last', after', whole, rfl, rfl, ?_⟩
      intro other member isName
      have memberOther : other ∈ deps := by
        rw [whole]
        simp [member]
      apply mapsNone (some other.1, other.2)
      · rw [← isAfter]
        exact List.mem_map_of_mem member
      · rw [isNewLast, ← isName]
        exact (mapsTo_iff areNames memberOther _).mpr rfl
    intro constraint isConstraint
    apply (constraints _ (mem_newDeps_iff.mpr isFound) constraint).mpr
    exact ⟨entry', memberEntry, sameName, isConstraint⟩
  · intro noneLost entry member constraint
    obtain ⟨before, last, after, split, isName, isVersions, none⟩ :=
      get?_newDeps_iff.mp (mem_newDeps_iff.mp member)
    have memberLast : last ∈ deps := by
      rw [split]
      simp
    constructor
    · intro isConstraint
      exact ⟨last, memberLast, isName, isVersions ▸ isConstraint⟩
    · intro exist
      obtain ⟨dep, isDep, isNew, isConstraint⟩ := exist
      rw [← isVersions]
      rw [split] at isDep
      have behind : dep ∉ after := fun inAfter => none dep inAfter isNew
      rcases List.mem_append.mp isDep with inBefore | inRest
      · obtain ⟨front, middle, isBefore⟩ := List.append_of_mem inBefore
        have areBefore : ∀ other ∈ after, other ∈ deps := by
          intro other inAfter
          rw [split]
          simp [inAfter]
        apply @noneLost (named front) (some dep.1, dep.2) (named middle)
          (some last.1, last.2) (named after) (some entry.1)
        · rw [split, isBefore]
          simp [named]
        · rw [← isNew]
          apply (mapsTo_iff areNames _ _).mpr rfl
          rw [split, isBefore]
          simp
        · rw [← isName]
          exact (mapsTo_iff areNames memberLast _).mpr rfl
        · intro other inAfter maps
          obtain ⟨plain, isPlain, sameName, sameVersions⟩ :=
            mem_named.mp inAfter
          have isOther : other = (some plain.1, plain.2) :=
            Prod.ext sameName sameVersions
          rw [isOther] at maps
          have isNewOther :=
            (mapsTo_iff areNames (areBefore plain isPlain) _).mp maps
          exact none plain isPlain (Option.some.inj isNewOther).symm
        · exact isConstraint
      · rcases List.mem_cons.mp inRest with isLast | inAfter
        · rwa [← isLast]
        · exact absurd inAfter behind

theorem isMapping_sortedNames (isMapping : IsMapping deps) :
    IsMapping (sortedNames deps) := by
  have permuted : (sortedNames deps).Perm deps := List.perm_insertionSort _ _
  constructor
  · exact (permuted.map Prod.fst).nodup_iff.mpr isMapping.unique
  · exact fun entry member => isMapping.names entry (permuted.mem_iff.mp member)
  · exact fun entry member => isMapping.constraints entry
      (permuted.mem_iff.mp member)

theorem newDeps_of_mapsNone (isMapping : IsMapping deps)
    (mapsNone : MapsNone data basepkg (named deps)) :
    newDeps data basepkg deps = deps := by
  have same : ∀ entry ∈ deps, newName data basepkg entry = entry.1 := by
    intro entry member
    have maps := mapsNone (some entry.1, entry.2) (List.mem_map_of_mem member)
    have isNew := (mapsTo_iff isMapping.names member _).mp maps
    exact (Option.some.inj isNew).symm
  have folded : newDeps data basepkg deps =
      deps.foldl (fun d entry => Dict.set d entry.1 entry.2) [] := by
    rw [newDeps, Dict.collect]
    apply List.foldl_ext
    intro d entry member
    rw [same entry member]
  rw [folded, Dict.foldl_set_of_nodup]
  · rfl
  · exact isMapping.unique

end Kept

theorem keeps_iff_noneLost (data : RenameData) (basepkg : Text) {depends : Text}
    {deps : Deps}
    (accepted : explodeDepVersions2 depends true = some deps)
    (plain : IsPlain deps) :
    (∃ text after, runtimeMappingRename data basepkg depends = some text ∧
      Keeps data basepkg deps text after) ↔ NoneLost data basepkg deps := by
  obtain ⟨scan, _, holds, _, permuted⟩ := exists_scan_of_accepted accepted
  obtain ⟨list, isMapping, isNamed⟩ := exists_mapping holds permuted plain
  rw [isNamed] at accepted ⊢
  obtain ⟨text, renamed, joined, isRead⟩ :=
    @runtimeMappingRename_named data basepkg _ _ isMapping accepted
  rw [← constraints_iff isMapping.names]
  have isAfter : ∀ after, explodeDepVersions2 text true = some after →
      after = named (sortedNames (newDeps data basepkg list)) := by
    intro after isAfter
    exact Option.some.inj (isAfter.symm.trans isRead)
  constructor
  · intro exist entry member constraint
    obtain ⟨text', after, renamed', keeps⟩ := exist
    rw [renamed] at renamed'
    cases renamed'
    have inAfter : (some entry.1, entry.2) ∈ after := by
      rw [isAfter after keeps.read]
      exact List.mem_map_of_mem (mem_sortedNames.mpr member)
    rw [keeps.constraints _ inAfter]
    constructor
    · intro exist
      obtain ⟨⟨name, versions⟩, isDep, maps, isConstraint⟩ := exist
      obtain ⟨dep, isMember, isName, isVersions⟩ := mem_named.mp isDep
      rw [isName, isVersions] at maps
      have isNew := (mapsTo_iff isMapping.names isMember _).mp maps
      exact ⟨dep, isMember, (Option.some.inj isNew).symm, isVersions ▸
        isConstraint⟩
    · intro exist
      obtain ⟨dep, isMember, isNew, isConstraint⟩ := exist
      refine ⟨(some dep.1, dep.2), List.mem_map_of_mem isMember, ?_,
        isConstraint⟩
      exact (mapsTo_iff isMapping.names isMember _).mpr (by rw [isNew])
  · intro constraints
    refine ⟨text, _, renamed, isRead, ?_, ?_, ?_⟩
    · intro name
      constructor
      · intro member
        obtain ⟨⟨name', versions⟩, inAfter, same⟩ := List.mem_map.mp member
        obtain ⟨entry, isEntry, isName, _⟩ := mem_named.mp inAfter
        have isKey : entry.1 ∈ (newDeps data basepkg list).keys :=
          List.mem_map_of_mem (mem_sortedNames.mp isEntry)
        obtain ⟨dep, isMember, isNew⟩ := mem_keys_newDeps.mp isKey
        refine ⟨(some dep.1, dep.2), List.mem_map_of_mem isMember, ?_⟩
        apply (mapsTo_iff isMapping.names isMember _).mpr
        rw [isNew, ← isName]
        exact same.symm
      · intro exist
        obtain ⟨⟨name', versions⟩, isDep, maps⟩ := exist
        obtain ⟨dep, isMember, isName, isVersions⟩ := mem_named.mp isDep
        rw [isName, isVersions] at maps
        have isNew := (mapsTo_iff isMapping.names isMember _).mp maps
        obtain ⟨entry, isEntry, same⟩ := List.mem_map.mp
          (mem_keys_newDeps.mpr
            ⟨dep, isMember, (rfl : newName data basepkg dep = _)⟩)
        rw [isNew, ← same]
        exact List.mem_map_of_mem
          (List.mem_map_of_mem (mem_sortedNames.mpr isEntry))
    · intro entry member constraint
      obtain ⟨plainEntry, isEntry, isName, isVersions⟩ := mem_named.mp member
      rw [isVersions, constraints plainEntry (mem_sortedNames.mp isEntry)]
      constructor
      · intro exist
        obtain ⟨dep, isMember, isNew, isConstraint⟩ := exist
        refine ⟨(some dep.1, dep.2), List.mem_map_of_mem isMember, ?_,
          isConstraint⟩
        exact (mapsTo_iff isMapping.names isMember _).mpr
          (by rw [isNew, isName])
      · intro exist
        obtain ⟨⟨name, versions⟩, isDep, maps, isConstraint⟩ := exist
        obtain ⟨dep, isMember, isDepName, isDepVersions⟩ := mem_named.mp isDep
        rw [isDepName, isDepVersions, isName] at maps
        have isNew := (mapsTo_iff isMapping.names isMember _).mp maps
        exact ⟨dep, isMember, (Option.some.inj isNew).symm, isDepVersions ▸
          isConstraint⟩
    · intro data' mapsNone
      have isNew := @isMapping_newDeps data basepkg _ isMapping
      have isSorted := isMapping_sortedNames isNew
      obtain ⟨text', renamed', _, isRead'⟩ :=
        @runtimeMappingRename_named data' basepkg _ _ isSorted isRead
      refine ⟨text', renamed', ?_⟩
      rw [isRead', newDeps_of_mapsNone isSorted mapsNone, sortedNames_of_sorted]
      exact sortItems_named _

/-- The text of the variable does not change when it is renamed again and no
name is mapped to another one. -/
def Unmoved (data : RenameData) (basepkg depends : Text) : Prop :=
  ∃ text after, runtimeMappingRename data basepkg depends = some text ∧
    explodeDepVersions2 text true = some after ∧
    ∀ data', MapsNone data' basepkg after →
      runtimeMappingRename data' basepkg text = some text

/-- The mapped names stand in their order where each comes first. -/
def InOrder (data : RenameData) (basepkg : Text) (deps : Deps) : Prop :=
  (deps.filterMap fun entry =>
    (getPackageMapping data basepkg entry.1 entry.2).join).eraseDups.Pairwise
      (· ≤ ·)

section Order

variable {data : RenameData} {basepkg : Text} {deps : List (Text × List Text)}

theorem keys_newDeps (areNames : ∀ entry ∈ deps, IsName entry.1) :
    (newDeps data basepkg deps).keys = ((named deps).filterMap fun entry =>
      (getPackageMapping data basepkg entry.1 entry.2).join).eraseDups := by
  have names : ((named deps).filterMap fun entry =>
      (getPackageMapping data basepkg entry.1 entry.2).join) =
        deps.map (newName data basepkg) := by
    rw [named, List.filterMap_map, ← List.filterMap_eq_map]
    apply List.filterMap_congr
    intro entry member
    have mapped : getPackageMapping data basepkg (some entry.1) entry.2 =
        some (some (newName data basepkg entry)) :=
          (mapsTo_iff areNames member _).mpr rfl
    exact congrArg Option.join mapped
  rw [names]
  refine (Dict.keys_collect (newName data basepkg) Prod.snd deps).trans ?_
  congr 1
  exact lawful_beq_subsingleton _ _

theorem sortedNames_eq_self_iff :
    sortedNames deps = deps ↔ (deps.map Prod.fst).Pairwise (· ≤ ·) := by
  rw [List.pairwise_map]
  constructor
  · intro same
    rw [← same]
    exact List.pairwise_insertionSort _ _
  · exact List.Pairwise.insertionSort_eq

theorem eq_of_joinDeps {other : List (Text × List Text)} {text : Text}
    (isMapping : IsMapping deps) (isOther : IsMapping other)
    (joined : joinDeps (listed (named deps)) false = some text)
    (joinedOther : joinDeps (listed (named other)) false = some text) :
    deps = other := by
  have first := explodeDepVersions2_joinDeps isMapping false false
  have second := explodeDepVersions2_joinDeps isOther false false
  rw [joined, Option.bind_some] at first
  rw [joinedOther, Option.bind_some, first] at second
  have same : named deps = named other := Option.some.inj second
  apply List.map_injective_iff.mpr _ same
  intro entry entry' isSame
  obtain ⟨sameName, sameVersions⟩ := Prod.mk.inj isSame
  exact Prod.ext (Option.some.inj sameName) sameVersions

/-- Nothing is renamed. -/
def emptyData : RenameData where
  table := fun _ => none
  rprovides := fun _ => none
  allarch := false
  multilib := false
  named := nofun
  accepted := nofun

theorem mapsNone_emptyData (deps : Deps) : MapsNone emptyData basepkg deps := by
  intro entry _
  rw [MapsTo, getPackageMapping]
  cases entry.1 with
  | none => rfl
  | some name => rfl

end Order

theorem unmoved_iff_inOrder (data : RenameData) (basepkg : Text)
    {depends : Text} {deps : Deps}
    (accepted : explodeDepVersions2 depends true = some deps)
    (plain : IsPlain deps) :
    Unmoved data basepkg depends ↔ InOrder data basepkg deps := by
  obtain ⟨scan, _, holds, _, permuted⟩ := exists_scan_of_accepted accepted
  obtain ⟨list, isMapping, isNamed⟩ := exists_mapping holds permuted plain
  rw [isNamed] at accepted ⊢
  obtain ⟨text, renamed, joined, isRead⟩ :=
    @runtimeMappingRename_named data basepkg _ _ isMapping accepted
  have isNew := @isMapping_newDeps data basepkg _ isMapping
  have isSorted := isMapping_sortedNames isNew
  rw [InOrder, ← keys_newDeps isMapping.names]
  refine Iff.trans ?_ sortedNames_eq_self_iff
  constructor
  · intro unmoved
    obtain ⟨text', after, renamed', isAfter, again⟩ := unmoved
    rw [renamed] at renamed'
    cases renamed'
    have mapsNone := @mapsNone_emptyData basepkg
    obtain ⟨next, isNext, joinedNext, _⟩ :=
      @runtimeMappingRename_named emptyData basepkg _ _ isSorted isRead
    rw [again emptyData (mapsNone after)] at isNext
    cases isNext
    rw [newDeps_of_mapsNone isSorted (mapsNone _)] at joinedNext
    exact eq_of_joinDeps isSorted isNew joinedNext joined
  · intro same
    refine ⟨text, _, renamed, isRead, ?_⟩
    intro data' mapsNone
    obtain ⟨next, isNext, joinedNext, _⟩ :=
      @runtimeMappingRename_named data' basepkg _ _ isSorted isRead
    rw [newDeps_of_mapsNone isSorted mapsNone, same, joined] at joinedNext
    rw [isNext, joinedNext]

/-- The constraints are kept if and only if none is lost, and the text is the
same when it is renamed again if and only if the mapped names are in order. -/
theorem renames_iff (data : RenameData) (basepkg : Text) {depends : Text}
    {deps : Deps}
    (accepted : explodeDepVersions2 depends true = some deps)
    (plain : IsPlain deps) :
    ((∃ text after, runtimeMappingRename data basepkg depends = some text ∧
        Keeps data basepkg deps text after) ↔ NoneLost data basepkg deps) ∧
      (Unmoved data basepkg depends ↔ InOrder data basepkg deps) :=
  ⟨keeps_iff_noneLost data basepkg accepted plain,
    unmoved_iff_inOrder data basepkg accepted plain⟩

theorem isName_of_renamed : ∀ package new : Text,
    (if package = ['a'] then some ['c'] else none) = some new → IsName new := by
  intro package new isNew
  split_ifs at isNew
  cases isNew
  simp only [IsName, isWord_iff_all]
  decide

/-- The package `a` is renamed to `c`. -/
def oneRenamed : RenameData where
  table := fun package => if package = ['a'] then some ['c'] else none
  rprovides := fun _ => none
  allarch := false
  multilib := false
  named := isName_of_renamed
  accepted := nofun

theorem renames_one : ((∃ text after,
      runtimeMappingRename oneRenamed [] "a (>= 1) b".toList = some text ∧
        Keeps oneRenamed [] [(some ['a'], [">= 1".toList]), (some ['b'], [])]
          text after) ↔
      NoneLost oneRenamed []
        [(some ['a'], [">= 1".toList]), (some ['b'], [])]) ∧
    (Unmoved oneRenamed [] "a (>= 1) b".toList ↔
      InOrder oneRenamed []
        [(some ['a'], [">= 1".toList]), (some ['b'], [])]) := by
  apply renames_iff oneRenamed [] (by decide)
  constructor
  · decide
  · intro entry member op isOperator version isConstraint
    have noBlank : ∀ op ∈ operators, ' ' ∉ op := by decide
    rcases List.mem_cons.mp member with first | second
    · rw [first] at isConstraint
      have isSplit := splitOnce_eq_some.mpr
        ⟨(List.mem_singleton.mp isConstraint).symm, noBlank op isOperator⟩
      have isRead : splitOnce ' ' ">= 1".toList =
          some (">=".toList, ['1']) := by decide
      rw [isRead] at isSplit
      cases isSplit
      decide
    · rw [List.mem_singleton.mp second] at isConstraint
      cases isConstraint

/-- Of two packages with one new name the constraint of the first is lost. -/
theorem not_keeps_collision : ¬ ∃ text after,
    runtimeMappingRename oneRenamed [] "a (>= 1) c (<= 2)".toList = some text ∧
      Keeps oneRenamed []
        [(some ['a'], [">= 1".toList]), (some ['c'], ["<= 2".toList])] text
          after := by
  intro exist
  obtain ⟨text, after, renamed, keeps⟩ := exist
  have isText : runtimeMappingRename oneRenamed [] "a (>= 1) c (<= 2)".toList =
      some "c (<= 2)".toList := by decide
  rw [isText] at renamed
  cases renamed
  have isAfter : explodeDepVersions2 "c (<= 2)".toList true =
      some [(some ['c'], ["<= 2".toList])] := by decide
  have read := keeps.read
  rw [isAfter] at read
  cases read
  have kept :=
    keeps.constraints (some ['c'], ["<= 2".toList]) (by decide) ">= 1".toList
  have isLost : ">= 1".toList ∈ ["<= 2".toList] :=
    kept.mpr ⟨(some ['a'], [">= 1".toList]), by decide, rfl, by decide⟩
  exact absurd isLost (by decide)

end Nvbmc.PackageData
