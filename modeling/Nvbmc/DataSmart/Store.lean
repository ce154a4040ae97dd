import Mathlib.Algebra.Ring.Nat
import Nvbmc.Library.Dict
import Nvbmc.Library.Raising
import Nvbmc.Library.Replace
import Nvbmc.Library.Text

/-!
# The data store

A store has a dictionary of its own and those of the stores it was copied from.
For each variable there is a dictionary of flags, with the value under
`_content`.  Names are split into a base and an operation, and into overrides;
the overrides that are active choose among the variants of a variable.
-/

namespace Nvbmc.DataSmart

open Library

/-- What a flag can hold. -/
inductive Value where
  | none
  | text (text : Text)
  | operations (entries : List (Text × Option Text))
  /-- A set of names that is held; copies of a store hold the same one. -/
  | cell (id : ℕ)
  | names (names : List Text)
  /-- Any other object; the first one counts as false. -/
  | object (tag : ℕ)
deriving DecidableEq, Repr

/-- `if value:`. -/
def Value.isTrue : Value → Bool
  | .none => false
  | .text held => held ≠ []
  | .operations entries => entries ≠ []
  | .cell _ => true
  | .names held => held ≠ []
  | .object tag => tag ≠ 0

abbrev Flags := Dict Text Value

def contentFlag : Text := "_content".toList

def defaultval : Text := "_defaultval".toList

def defaultvalFlag : Text := "_defaultval_flag_".toList

def appendKeyword : Text := ":append".toList

def prependKeyword : Text := ":prepend".toList

def removeKeyword : Text := ":remove".toList

/-- `__setvar_keyword__`. -/
def setvarKeywords : List Text :=
  [appendKeyword, prependKeyword, removeKeyword]

def overridesName : Text := "OVERRIDES".toList

/-- What has been set in a store, and in those it was copied from. -/
structure Data where
  dict : Dict Text Flags
  /-- The chain of `_data`, the nearest store first. -/
  parents : List (Dict Text Flags)
  /-- The sets that are held, by their places. -/
  cells : List (List Text)
  overridedata : Dict Text (List (Text × Text))
  overridevars : List Text
  /-- The keys of `_var_renames`. -/
  varRenames : List Text

structure VariableParse where
  value : Value
  unexpandedValue : Value
  references : List Text
  /-- The keys of `contains`. -/
  contains : List Text
  /-- Set when something was removed from the value. -/
  removes : Option (List Text)

/-- What a read changes. -/
structure Memo where
  overrides : Option (List Text)
  inoverride : Bool
  expandCache : Dict Text VariableParse

structure Store extends Data, Memo

/-- `DataSmart()`; `_var_renames` starts with the variables that BitBake
renamed. -/
def Store.new (varRenames : List Text) : Store :=
  { dict := []
    parents := []
    cells := []
    overridedata := []
    overridevars := [overridesName, "FILE".toList]
    varRenames := varRenames
    overrides := none
    inoverride := false
    expandCache := [] }

/-- `createCopy`. -/
def Store.createCopy (store : Store) : Store :=
  { store with
    dict := []
    parents := store.dict :: store.parents
    overrides := none
    inoverride := false
    expandCache := [] }

/-- `_findVar`. -/
def Data.findVar (data : Data) (var : Text) : Option Flags :=
  (data.dict :: data.parents).findSome? (·.get? var)

/-- `copy.copy`. -/
def Data.copied (data : Data) : Value → Value
  | .cell id => .names (data.cells.getD id [])
  | value => value

def heldFlag (flags : Flags) (flag : Text) (noweakdefault : Bool) :
    Option Value :=
  match flags.get? flag with
  | some value => some value
  | none =>
      if noweakdefault then none
      else
        match if flag = contentFlag then flags.get? defaultval else none with
        | some value => some value
        | none => flags.get? (defaultvalFlag ++ flag)

/-- The value of a flag of a variable itself. -/
def Data.ownValue (data : Data) (var flag : Text) (noweakdefault : Bool) :
    Value :=
  match (data.findVar var).bind (heldFlag · flag noweakdefault) with
  | some value => data.copied value
  | none => .none

/-- What stands behind a keyword: nothing, or a colon and an override without
capital letters. -/
def keywordEnd : Text → Option (Option Text)
  | [] => some none
  | ['\n'] => some none
  | ':' :: add => if add.any Char.isUpper then none else some (some add)
  | _ => none

/-- The keyword that a text starts with, when it goes on as it may. -/
def keywordAt (rest : Text) : Option (Text × Option Text) :=
  setvarKeywords.findSome? fun keyword =>
    if keyword.isPrefixOf rest then
      (keywordEnd (rest.drop keyword.length)).map fun add => (keyword, add)
    else none

/-- The groups of `__setvar_regexp__`: the base, the keyword and the override.
-/
def matchSetvar (base : Text) : Text → Option (Text × Text × Option Text)
  | [] => none
  | char :: rest =>
      match keywordAt (char :: rest) with
      | some (keyword, add) => some (base, keyword, add)
      | none => if char = '\n' then none else matchSetvar (base ++ [char]) rest

/-- `__override_regexp__.match`: the start of the text decides. -/
def matchesOverride : Text → Bool
  | [] => false
  | char :: _ => char.isLower || char.isDigit

/-- `var[var.rfind(':')+1:]` and `var[:var.rfind(':')]`.  Without a colon the
first one is the whole text and the second one lacks the last character. -/
def cutOverride (var : Text) : Text × Text :=
  if ':' ∈ var then
    ((var.reverse.takeWhile (· ≠ ':')).reverse,
      ((var.reverse.dropWhile (· ≠ ':')).drop 1).reverse)
  else (var, var.dropLast)

/-- The shorter names under which a variable is a variant, each with its
override.  The loop ends at a part that is no override, and where nothing is
left. -/
def shortvars (var : Text) : ℕ → Text → Text → List (Text × Text)
  | 0, _, _ => []
  | fuel + 1, override, shortvar =>
      if override ≠ [] ∧ matchesOverride override then
        (shortvar, override) ::
          if ':' ∈ shortvar then
            let (_, shorter) := cutOverride shortvar
            if shorter = [] then []
            else shortvars var fuel (var.drop (shorter.length + 1)) shorter
          else []
      else []

/-- The entries of `_setvar_update_overrides`; no loop is longer than the name.
-/
def overrideEntries (var : Text) : List (Text × Text) :=
  shortvars var (var.length + 1) (cutOverride var).1 (cutOverride var).2

def partsActive (overrides : List Text) (override : Text) : Bool :=
  (override.splitOn ':').all (· ∈ overrides)

def isActiveOverride (overrides : List Text) (override : Text) : Bool :=
  override ∈ overrides || (':' ∈ override && partsActive overrides override)

def activeOverrides (overrides : List Text) :
    List (Text × Text) → Dict Text Text → Dict Text Text
  | [], active => active
  | (variant, override) :: rest, active =>
      activeOverrides overrides rest
        (if isActiveOverride overrides override then active.set override variant
         else active)

/-- What the loop over the active overrides works on. -/
structure Selection where
  active : Dict Text Text
  chosen : Option Text
  mod : Bool

/-- One active override is looked at for one override of the list. -/
def Selection.look (override : Text) (selection : Selection) (key : Text) :
    Selection :=
  match selection.active.get? key with
  | none => selection
  | some variant =>
      if (':' :: override).isSuffixOf key then
        { selection with
          active := (selection.active.del key).set
            (replaceAll (':' :: override) [] key) variant
          mod := true }
      else if key = override then
        { selection with
          active := selection.active.del key
          chosen := some variant }
      else selection

def Selection.round (overrides : List Text) (selection : Selection) :
    Selection :=
  overrides.foldl (fun selection override =>
    selection.active.keys.foldl (Selection.look override) selection) selection

/-- `while mod:`. -/
def Selection.loop (overrides : List Text) : ℕ → Selection → Selection
  | 0, selection => selection
  | fuel + 1, selection =>
      let next := selection.round overrides
      if next.mod then Selection.loop overrides fuel { next with mod := false }
      else next

/-- The variant that is read in the place of a variable.  Each further round has
made a name shorter. -/
def overrideMatch (overrides : List Text) (overridedata : List (Text × Text)) :
    Option Text :=
  let active := activeOverrides overrides overridedata []
  let rounds := (active.keys.map List.length).sum + 1
  (Selection.loop overrides rounds ⟨active, none, false⟩).chosen.filter (· ≠ [])

/-- An entry of an operation counts when all parts of its override are active.
Without a list of overrides it cannot be told. -/
def isActive (overrides : Option (List Text)) : Option Text → Option Bool
  | none => some true
  | some [] => some true
  | some override =>
      overrides.map fun overrides => partsActive overrides override

end Nvbmc.DataSmart
