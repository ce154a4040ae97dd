import Nvbmc.PackageData.EscapeCodec

/-!
# Reading package data

The file of a package is read as it was written, and its variables are collapsed
to those of the data, exactly when no value begins with a space and the name of
the package, behind a colon, stands in no variable.
-/

namespace Nvbmc.PackageData

open Library

def valueOf (d : Text → Option Text) (pkg var : Text) : Option Text :=
  match (d (keyOf pkg var)).filter (· ≠ []) with
  | some val => some val
  | none => (d var).filter (· ≠ [])

/-- What was written is read, and collapsed to the values of the variables. -/
structure RoundTrips (codec : UnicodeEscape) (d : Text → Option Text)
    (pkg : Text) (variableNames : List Text) : Prop where
  names : ∀ name val,
    (readPkgdatafile codec (pkgdataFile codec d pkg variableNames)).get? name =
      some val ↔ ∃ var ∈ variableNames, written d pkg var = some (name, val)
  collapsed : ∀ var ∈ variableNames,
    (readSubpkgdataDict codec pkg (pkgdataFile codec d pkg variableNames)).get?
      var = valueOf d pkg var

/-- No value begins with a space, and the name of the package stands behind no
colon in a variable. -/
def Plain (d : Text → Option Text) (pkg : Text) (variableNames : List Text) :
    Prop :=
  ∀ var ∈ variableNames, ∀ val, valueOf d pkg var = some val →
    val.head? ≠ some ' ' ∧ ¬ (':' :: pkg) <:+: var

section Written

variable {codec : UnicodeEscape} {d : Text → Option Text} {pkg var : Text}
  {variableNames : List Text} {val : Text}

theorem valueOf_of_written {name : Text}
    (isWritten : written d pkg var = some (name, val)) :
    valueOf d pkg var = some val := by
  rw [written] at isWritten
  rw [valueOf]
  cases isOwn : (d (keyOf pkg var)).filter (· ≠ []) with
  | some own =>
      rw [isOwn] at isWritten
      cases isWritten
      rfl
  | none =>
      rw [isOwn] at isWritten
      obtain ⟨common, isCommon, same⟩ := Option.map_eq_some_iff.mp isWritten
      cases same
      exact isCommon

theorem exists_written (isValue : valueOf d pkg var = some val) :
    ∃ name, written d pkg var = some (name, val) := by
  rw [valueOf] at isValue
  rw [written]
  cases isOwn : (d (keyOf pkg var)).filter (· ≠ []) with
  | some own =>
      rw [isOwn] at isValue
      cases isValue
      exact ⟨_, rfl⟩
  | none =>
      rw [isOwn] at isValue
      exact ⟨var, congrArg (Option.map fun val => (var, val)) isValue⟩

theorem mem_entriesOf {entry : Text × Text} :
    entry ∈ entriesOf d pkg variableNames ↔
      ∃ var ∈ variableNames, written d pkg var = some entry :=
  List.mem_filterMap

theorem get?_readPkgdatafile (isPkg : IsWord pkg)
    (areVars : ∀ var ∈ variableNames, IsWord var) (name : Text) :
    (readPkgdatafile codec (pkgdataFile codec d pkg variableNames)).get? name =
      some val ↔
      ∃ var ∈ variableNames, ∃ whole, written d pkg var = some (name, whole) ∧
        val = whole.dropWhile (· = ' ') := by
  rw [readPkgdatafile_pkgdataFile isPkg areVars, Dict.get?_collect_iff]
  · constructor
    · intro exist
      obtain ⟨⟨other, whole⟩, member, same⟩ := exist
      cases same
      obtain ⟨var, isVar, isWritten⟩ := mem_entriesOf.mp member
      exact ⟨var, isVar, whole, isWritten, rfl⟩
    · intro exist
      obtain ⟨var, isVar, whole, isWritten, isVal⟩ := exist
      exact ⟨(name, whole),
        mem_entriesOf.mpr ⟨var, isVar, isWritten⟩, by rw [isVal]⟩
  · -- the name tells the value that the data has for it
    intro first isFirst second isSecond left right isLeft isRight
    obtain ⟨var, _, isWritten⟩ := mem_entriesOf.mp isFirst
    obtain ⟨other, _, isOther⟩ := mem_entriesOf.mp isSecond
    have firstValue := (written_eq_some isWritten).1
    have secondValue := (written_eq_some isOther).1
    cases isLeft
    simp only [Option.some.injEq, Prod.mk.injEq] at isRight
    rw [isRight.1, firstValue] at secondValue
    rw [← isRight.2, Option.some.inj secondValue]

theorem dropWhile_space_iff : val.dropWhile (· = ' ') = val ↔
    val.head? ≠ some ' ' := by
  cases val with
  | nil => exact ⟨fun _ => nofun, fun _ => rfl⟩
  | cons char rest =>
      by_cases isSpace : char = ' '
      · rw [List.dropWhile_cons_of_pos (by simpa using isSpace)]
        constructor
        · intro same
          have shorter := List.length_dropWhile_le (· = ' ') rest
          rw [same, List.length_cons] at shorter
          omega
        · intro other
          exact absurd (congrArg some isSpace) other
      · rw [List.dropWhile_cons_of_neg (by simpa using isSpace)]
        exact ⟨fun _ same => isSpace (Option.some.inj same), fun _ => rfl⟩

theorem names_iff (isPkg : IsWord pkg)
    (areVars : ∀ var ∈ variableNames, IsWord var) : (∀ name val,
      (readPkgdatafile codec (pkgdataFile codec d pkg variableNames)).get?
        name = some val ↔
        ∃ var ∈ variableNames, written d pkg var = some (name, val)) ↔
      ∀ var ∈ variableNames, ∀ val, valueOf d pkg var = some val →
        val.head? ≠ some ' ' := by
  constructor
  · intro names var isVar val isValue
    obtain ⟨name, isWritten⟩ := exists_written isValue
    have isRead := (names name val).mpr ⟨var, isVar, isWritten⟩
    have isDropped :=
      (@get?_readPkgdatafile codec _ _ _ _ isPkg areVars name).mpr
      ⟨var, isVar, val, isWritten, rfl⟩
    exact dropWhile_space_iff.mp (Option.some.inj (isDropped.symm.trans isRead))
  · intro unspaced name val
    rw [get?_readPkgdatafile isPkg areVars]
    constructor
    · intro exist
      obtain ⟨var, isVar, whole, isWritten, isVal⟩ := exist
      have whole' := dropWhile_space_iff.mpr
        (unspaced var isVar whole (valueOf_of_written isWritten))
      exact ⟨var, isVar, by rw [isVal, whole']; exact isWritten⟩
    · intro exist
      obtain ⟨var, isVar, isWritten⟩ := exist
      have whole' := dropWhile_space_iff.mpr
        (unspaced var isVar val (valueOf_of_written isWritten))
      exact ⟨var, isVar, val, isWritten, whole'.symm⟩

end Written

section Collapse

variable {d : Text → Option Text} {pkg var name val : Text}

theorem replaceAll_written (noColon : ':' ∉ pkg)
    (isWritten : written d pkg var = some (name, val)) :
    replaceAll (':' :: pkg) [] name = replaceAll (':' :: pkg) [] var := by
  rcases (written_eq_some isWritten).2.2 with isKey | ⟨isName, _⟩
  · rw [isKey, keyOf, replaceAll_append_needle noColon, List.append_nil]
  · rw [isName]

/-- A dictionary with the entries that were written. -/
structure Reads (d : Text → Option Text) (pkg : Text)
    (variableNames : List Text) (subd : Dict Text Text) : Prop where
  unique : subd.keys.Nodup
  entries : ∀ name val, subd.get? name = some val ↔
    ∃ var ∈ variableNames, written d pkg var = some (name, val)

variable {variableNames : List Text} {subd : Dict Text Text}

theorem Reads.mem_iff (reads : Reads d pkg variableNames subd) :
    (name, val) ∈ subd ↔ ∃ var ∈ variableNames,
      written d pkg var = some (name, val) := by
  rw [← reads.entries]
  exact ⟨Dict.get?_of_mem reads.unique, Dict.mem_of_get?⟩

def collapse (pkg : Text) (subd : Dict Text Text) : Dict Text Text :=
  Dict.collect (fun entry => (collapsed pkg subd entry.1).map fun newvar =>
    (newvar, entry.2)) subd

theorem collapsed_eq_some {newvar : Text}
    (isCollapsed : collapsed pkg subd name = some newvar) :
    newvar = replaceAll (':' :: pkg) [] name := by
  rw [collapsed] at isCollapsed
  split_ifs at isCollapsed
  exact (Option.some.inj isCollapsed).symm

variable (reads : Reads d pkg variableNames subd)
include reads

theorem collapsed_written (noColon : ':' ∉ pkg)
    (absent : ∀ var ∈ variableNames, ∀ val, valueOf d pkg var = some val →
      ¬ (':' :: pkg) <:+: var)
    (isVar : var ∈ variableNames)
    (isWritten : written d pkg var = some (name, val)) :
    collapsed pkg subd name = some var := by
  have isAbsent := absent var isVar val (valueOf_of_written isWritten)
  have isNew : replaceAll (':' :: pkg) [] name = var := by
    rw [replaceAll_written noColon isWritten, replaceAll_of_absent isAbsent]
  have kept : ¬ (var = name ∧ subd.contains (keyOf pkg name) = true) := by
    intro both
    obtain ⟨isName, contained⟩ := both
    obtain ⟨own, isOwn⟩ := Option.isSome_iff_exists.mp contained
    obtain ⟨other, isOther, isWrittenOther⟩ := (reads.entries _ own).mp isOwn
    rcases (written_eq_some isWrittenOther).2.2 with isKey | ⟨isKey, _⟩
    · -- the package's value would have been written for the variable itself
      rcases (written_eq_some isWritten).2.2 with isOwnKey | ⟨_, isNone⟩
      · have long := congrArg List.length (isName.trans isOwnKey)
        simp only [keyOf, List.length_append, List.length_cons] at long
        omega
      · have found := written_eq_some isWrittenOther
        rw [← isName] at found
        have isSome : (d (keyOf pkg var)).filter (· ≠ []) = some own := by
          rw [found.1, Option.filter_some]
          simp [found.2.1]
        rw [isNone] at isSome
        cases isSome
    · apply absent other isOther own (valueOf_of_written isWrittenOther)
      rw [← isKey]
      exact (List.suffix_append name (':' :: pkg)).isInfix
  rw [collapsed, isNew]
  exact if_neg kept

theorem get?_collapse (noColon : ':' ∉ pkg)
    (absent : ∀ var ∈ variableNames, ∀ val, valueOf d pkg var = some val →
      ¬ (':' :: pkg) <:+: var)
    (isVar : var ∈ variableNames) : (collapse pkg subd).get? var =
      valueOf d pkg var := by
  have only : ∀ val, (collapse pkg subd).get? var = some val →
      valueOf d pkg var = some val := by
    intro val isFound
    obtain ⟨⟨name, found⟩, member, isEntry⟩ :=
      Dict.exists_of_get?_collect isFound
    obtain ⟨newvar, isCollapsed, same⟩ := Option.map_eq_some_iff.mp isEntry
    obtain ⟨other, isOther, isWritten⟩ := reads.mem_iff.mp member
    rw [collapsed_written reads noColon absent isOther isWritten] at isCollapsed
    cases isCollapsed
    cases same
    exact valueOf_of_written isWritten
  cases isValue : valueOf d pkg var with
  | none =>
      cases isFound : (collapse pkg subd).get? var with
      | none => rfl
      | some val =>
          rw [only val isFound] at isValue
          cases isValue
  | some val =>
      obtain ⟨name, isWritten⟩ := exists_written isValue
      have member := reads.mem_iff.mpr ⟨var, isVar, isWritten⟩
      have isEntry : (collapsed pkg subd name).map
          (fun newvar => (newvar, val)) = some (var, val) := by
        rw [collapsed_written reads noColon absent isVar isWritten]
        rfl
      have isSome : ((collapse pkg subd).get? var).isSome = true :=
        Dict.isSome_get?_collect member isEntry
      obtain ⟨found, isFound⟩ := Option.isSome_iff_exists.mp isSome
      rw [← isValue, only found isFound]
      exact isFound

/-- If every variable is found, none of them has the package in it: the longest
one that has would have to come from a longer one. -/
theorem absent_of_collapse (noColon : ':' ∉ pkg)
    (collapses : ∀ var ∈ variableNames, (collapse pkg subd).get? var =
      valueOf d pkg var) :
    ∀ var ∈ variableNames, ∀ val, valueOf d pkg var = some val →
      ¬ (':' :: pkg) <:+: var := by
  have nonempty : ':' :: pkg ≠ [] := List.cons_ne_nil _ _
  intro var isVar
  induction size : variableNames.flatten.length -
    var.length using Nat.strong_induction_on generalizing var with
  | _ count induction =>
      intro val isValue occurs
      have isFound := (collapses var isVar).trans isValue
      obtain ⟨⟨name, found⟩, member, isEntry⟩ :=
        Dict.exists_of_get?_collect isFound
      obtain ⟨newvar, isCollapsed, same⟩ := Option.map_eq_some_iff.mp isEntry
      obtain ⟨other, isOther, isWritten⟩ := reads.mem_iff.mp member
      cases same
      have isNew :=
        (collapsed_eq_some isCollapsed).trans
          (replaceAll_written noColon isWritten)
      have hasNeedle : (':' :: pkg) <:+: other := by
        by_contra isAbsent
        rw [replaceAll_of_absent isAbsent] at isNew
        have shorter := length_replaceAll_nil nonempty occurs
        have isOwn := (collapsed_eq_some isCollapsed).trans
          (replaceAll_written noColon isWritten)
        rw [← isNew] at isOwn
        rw [← isOwn] at shorter
        exact absurd shorter (lt_irrefl _)
      have longer := length_replaceAll_nil nonempty hasNeedle
      rw [← isNew] at longer
      have within := (List.sublist_flatten_of_mem isOther).length_le
      apply induction _ _ other isOther rfl _ (valueOf_of_written isWritten)
        hasNeedle
      omega

end Collapse

variable {codec : UnicodeEscape} {d : Text → Option Text} {pkg : Text}
  {variableNames : List Text}

/-- Package data is read as it was written if and only if it is plain. -/
theorem roundTrips_iff_plain (isPkg : IsWord pkg) (noColon : ':' ∉ pkg)
    (areVars : ∀ var ∈ variableNames, IsWord var) :
    RoundTrips codec d pkg variableNames ↔ Plain d pkg variableNames := by
  have reads : (∀ name val,
      (readPkgdatafile codec (pkgdataFile codec d pkg variableNames)).get?
        name = some val ↔
        ∃ var ∈ variableNames, written d pkg var = some (name, val)) →
      Reads d pkg variableNames
        (readPkgdatafile codec (pkgdataFile codec d pkg variableNames)) := by
    intro names
    refine ⟨?_, names⟩
    exact Dict.nodup_keys_collect _ _
  constructor
  · intro roundTrips var isVar val isValue
    have unspaced := (names_iff isPkg areVars).mp roundTrips.names
    have absent :=
      absent_of_collapse (reads roundTrips.names) noColon roundTrips.collapsed
    exact ⟨unspaced var isVar val isValue, absent var isVar val isValue⟩
  · intro plain
    have names :=
      (@names_iff codec _ _ _ isPkg areVars).mpr fun var isVar val isValue =>
      (plain var isVar val isValue).1
    refine ⟨names, ?_⟩
    intro var isVar
    exact get?_collapse (reads names) noColon
      (fun other isOther val isValue => (plain other isOther val isValue).2)
      isVar

/-- A variable with a value of the package. -/
theorem roundTrips_own : RoundTrips unicodeEscape
    (fun name => if name = ['V', ':', 'p'] then some ['a', '\n'] else none)
    ['p'] [['V']] := by
  have isPkg : IsWord ['p'] := IsWord.of_all (by decide) (by decide)
  have isVar : IsWord ['V'] := IsWord.of_all (by decide) (by decide)
  apply (roundTrips_iff_plain isPkg (by decide) _).mpr
  · intro var member val isValue
    rw [List.mem_singleton.mp member] at isValue ⊢
    cases isValue
    exact ⟨by decide, by decide⟩
  · intro var member
    rw [List.mem_singleton.mp member]
    exact isVar

/-- The space at the beginning of a value is lost. -/
theorem not_roundTrips_space : ¬ RoundTrips unicodeEscape
    (fun name => if name = ['V'] then some [' ', 'a'] else none) ['p']
    [['V']] := by
  have isPkg : IsWord ['p'] := IsWord.of_all (by decide) (by decide)
  have isVar : IsWord ['V'] := IsWord.of_all (by decide) (by decide)
  intro roundTrips
  have unspaced := (names_iff isPkg fun var member => by
    rw [List.mem_singleton.mp member]
    exact isVar).mp roundTrips.names
  exact unspaced ['V'] List.mem_cons_self [' ', 'a'] rfl rfl

end Nvbmc.PackageData
