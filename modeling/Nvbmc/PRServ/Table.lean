import Nvbmc.PRServ.Revision

/-!
# The PR table

`PRTable` keeps the revisions of the packages, one row for each revision that
was given to a checksum.  SQLite may return the rows of a `SELECT` in any
order; `RowOrder` is one such order.
-/

namespace Nvbmc.PRServ

open Nvbmc.Library

structure Package where
  version : Text
  pkgarch : Text
  deriving DecidableEq

def examplePackage : Package where
  version := "1.0".toList
  pkgarch := "arm".toList

structure Row where
  package : Package
  checksum : Text
  value : Revision
  deriving DecidableEq

/-- The order in which the rows of a `SELECT` are returned. -/
structure RowOrder where
  order : List Row → List Row
  perm : ∀ rows, (order rows).Perm rows

def RowOrder.inserted : RowOrder where
  order := id
  perm := .refl

/-- `value LIKE '<base>.%'`. -/
def like (base value : Revision) : Bool :=
  (base.text ++ ['.']).isPrefixOf value.text

/-- `PRTable` with the rows of its table. -/
structure PRTable where
  readOnly : Bool
  rows : List Row

/-- A request to `get_value`. -/
structure Request where
  package : Package
  checksum : Text
  history : Bool

namespace PRTable

variable (ordering : RowOrder) (table : PRTable)

/-- `SELECT value FROM ... WHERE ...`. -/
def select (condition : Row → Bool) : List Revision :=
  (ordering.order (table.rows.filter condition)).map (·.value)

/-- `test_package`. -/
def testPackage (package : Package) : Bool :=
  (table.select ordering (·.package = package)).head?.isSome

/-- `test_checksum_value`. -/
def testChecksumValue (package : Package) (checksum : Text)
    (value : Revision) : Bool :=
  (table.select ordering fun row => row.package = package ∧
    row.checksum = checksum ∧ row.value = value).head?.isSome

/-- `find_package_max_value`. -/
def findPackageMaxValue (package : Package) : Option Revision :=
  extremum revisionGreater (table.select ordering (·.package = package))

def selectChecksum (package : Package) (checksum : Text) : List Revision :=
  table.select ordering fun row =>
    row.package = package ∧ row.checksum = checksum

/-- `find_max_value`. -/
def findMaxValue (package : Package) (checksum : Text) : Option Revision :=
  extremum revisionGreater (table.selectChecksum ordering package checksum)

/-- `find_min_value`. -/
def findMinValue (package : Package) (checksum : Text) : Option Revision :=
  extremum revisionSmaller (table.selectChecksum ordering package checksum)

/-- `find_value`. -/
def findValue (package : Package) (checksum : Text) (history : Bool) :
    Option Revision :=
  if history then table.findMinValue ordering package checksum
  else table.findMaxValue ordering package checksum

/-- The greatest `<base>.y` value that `find_new_subvalue` finds. -/
def findMaxSubvalue (package : Package) (base : Revision) : Option Revision :=
  extremum revisionGreater (table.select ordering fun row =>
    row.package = package ∧ like base row.value)

/-- `find_new_subvalue`. -/
def findNewSubvalue (package : Package) (base : Revision) : Revision :=
  match table.findMaxSubvalue ordering package base with
  | some value => value.increase
  | none => base.dotZero

/-- `store_value`. -/
def storeValue (package : Package) (checksum : Text) (value : Revision) :
    PRTable :=
  if table.readOnly = false ∧
      table.testChecksumValue ordering package checksum value = false then
    { table with rows := table.rows ++ [⟨package, checksum, value⟩] }
  else table

/-- `_get_value`: the value without storing it. -/
def valueFor (package : Package) (checksum : Text) (history : Bool) :
    Revision :=
  match table.findPackageMaxValue ordering package with
  | none => .initial
  | some maxValue =>
      match table.findValue ordering package checksum history with
      | none => maxValue.increase
      | some value =>
          if history then value
          -- the texts are compared, not the numbers
          else if value.text < maxValue.text then maxValue.increase
          else value

/-- `get_value`: the value and the table it is stored in. -/
def getValue (package : Package) (checksum : Text) (history : Bool) :
    Revision × PRTable :=
  let value := table.valueFor ordering package checksum history
  if table.readOnly then (value, table)
  else (value, table.storeValue ordering package checksum value)

def stored (package : Package) : Set Revision :=
  {value | ∃ row ∈ table.rows, row.package = package ∧ row.value = value}

def storedFor (package : Package) (checksum : Text) : Set Revision :=
  {value | ⟨package, checksum, value⟩ ∈ table.rows}

variable {ordering table} {package : Package} {checksum : Text}

theorem storedFor_subset :
    table.storedFor package checksum ⊆ table.stored package :=
  fun _ member => ⟨_, member, rfl, rfl⟩

variable {value : Revision}

theorem mem_select {condition : Row → Bool} :
    value ∈ table.select ordering condition ↔
      ∃ row ∈ table.rows, condition row ∧ row.value = value := by
  simp only [select, List.mem_map, (ordering.perm _).mem_iff, List.mem_filter,
    and_assoc]

theorem mem_select_package :
    value ∈ table.select ordering (·.package = package) ↔
      value ∈ table.stored package := by
  simp [mem_select, stored]

theorem mem_selectChecksum :
    value ∈ table.selectChecksum ordering package checksum ↔
      value ∈ table.storedFor package checksum := by
  simp only [selectChecksum, mem_select, decide_eq_true_eq, storedFor,
    Set.mem_ofPred_eq]
  constructor
  · rintro ⟨⟨_, _, _⟩, member, ⟨rfl, rfl⟩, rfl⟩
    exact member
  · intro member
    exact ⟨_, member, ⟨rfl, rfl⟩, rfl⟩

def PrefixFree (values : Set Revision) : Prop :=
  ∀ first ∈ values, ∀ second ∈ values, ¬ ProperPrefix first second

theorem PrefixFree.mono {values wider : Set Revision}
    (prefixFree : PrefixFree wider) (included : values ⊆ wider) :
    PrefixFree values := fun first firstMember second secondMember =>
  prefixFree first (included firstMember) second (included secondMember)

theorem findPackageMaxValue_eq_none :
    table.findPackageMaxValue ordering package = none ↔
      table.stored package = ∅ := by
  rw [findPackageMaxValue, extremum_eq_none, List.eq_nil_iff_forall_not_mem,
    Set.eq_empty_iff_forall_notMem]
  simp [mem_select_package]

variable {history : Bool}

theorem findValue_eq_none :
    table.findValue ordering package checksum history = none ↔
      table.storedFor package checksum = ∅ := by
  have nothing : table.selectChecksum ordering package checksum = [] ↔
      table.storedFor package checksum = ∅ := by
    rw [List.eq_nil_iff_forall_not_mem, Set.eq_empty_iff_forall_notMem]
    simp [mem_selectChecksum]
  cases history with
  | false => simpa [findValue, findMaxValue, extremum_eq_none] using nothing
  | true => simpa [findValue, findMinValue, extremum_eq_none] using nothing

theorem findPackageMaxValue_mem
    (found : table.findPackageMaxValue ordering package = some value) :
    value ∈ table.stored package :=
  mem_select_package.mp (extremum_mem found)

theorem findPackageMaxValue_isGreatest
    (prefixFree : PrefixFree (table.stored package))
    (found : table.findPackageMaxValue ordering package = some value) :
    IsGreatest (table.stored package) value := by
  have greatest := extremum_isGreatest (fun first firstMember second
      secondMember => ?_) found
  · simpa only [mem_select_package, Set.ofPred_mem_eq] using greatest
  · rw [revisionGreater_iff, or_iff_left]
    exact prefixFree first (mem_select_package.mp firstMember) second
      (mem_select_package.mp secondMember)

theorem findMaxValue_isGreatest
    (prefixFree : PrefixFree (table.storedFor package checksum))
    (found : table.findMaxValue ordering package checksum = some value) :
    IsGreatest (table.storedFor package checksum) value := by
  have greatest := extremum_isGreatest (fun first firstMember second
      secondMember => ?_) found
  · simpa only [mem_selectChecksum, Set.ofPred_mem_eq] using greatest
  · rw [revisionGreater_iff, or_iff_left]
    exact prefixFree first (mem_selectChecksum.mp firstMember) second
      (mem_selectChecksum.mp secondMember)

theorem findMinValue_isLeast
    (prefixFree : PrefixFree (table.storedFor package checksum))
    (found : table.findMinValue ordering package checksum = some value) :
    IsLeast (table.storedFor package checksum) value := by
  have least := extremum_isLeast (fun first firstMember second
      secondMember => ?_) found
  · simpa only [mem_selectChecksum, Set.ofPred_mem_eq] using least
  · rw [revisionSmaller_iff, and_iff_left]
    exact prefixFree first (mem_selectChecksum.mp firstMember) second
      (mem_selectChecksum.mp secondMember)

theorem mem_storeValue {row : Row}
    (member : row ∈ (table.storeValue ordering package checksum value).rows) :
    row ∈ table.rows ∨ row = ⟨package, checksum, value⟩ := by
  rw [storeValue] at member
  split_ifs at member
  · simpa using member
  · exact .inl member

theorem mem_getValue {row : Row}
    (member : row ∈ (table.getValue ordering package checksum history).2.rows) :
    row ∈ table.rows ∨ row = ⟨package, checksum,
      table.valueFor ordering package checksum history⟩ := by
  rw [getValue] at member
  split_ifs at member
  · exact .inl member
  · exact mem_storeValue member

@[simp] theorem getValue_fst :
    (table.getValue ordering package checksum history).1 =
      table.valueFor ordering package checksum history := by
  rw [getValue]
  split_ifs <;> rfl

end PRTable

end Nvbmc.PRServ
