import Nvbmc.DataSmart.Read

/-!
# Writing to a store

The assignments and deletions of variables and flags.  A write goes to the
dictionary of the store itself, into a shadow copy of what is inherited, and
forgets what was expanded.
-/

namespace Nvbmc.DataSmart

open Library

namespace Data

variable (data : Data)

/-- `_makeShadowCopy`. -/
def makeShadowCopy (var : Text) : Data :=
  if var ∈ data.dict.keys then data
  else { data with dict := data.dict.set var ((data.findVar var).getD []) }

/-- The flags of a variable in the store itself. -/
def ownFlags (var : Text) : Flags :=
  (data.dict.get? var).getD []

/-- `self.dict[var] = flags`. -/
def setFlags (var : Text) (flags : Flags) : Data :=
  { data with dict := data.dict.set var flags }

/-- `_setvar_update_overrides`. -/
def setvarUpdateOverrides (var : Text) : Data :=
  { data with
    overridedata := (overrideEntries var).foldl
      (fun overridedata entry =>
        let variants := (overridedata.get? entry.1).getD []
        overridedata.set entry.1
          (if (var, entry.2) ∈ variants then variants
           else variants ++ [(var, entry.2)]))
      data.overridedata }

/-- `delVar`. -/
def delVar (var : Text) : Data :=
  let overridedata := data.overridedata.del var
  { data with
    dict := data.dict.set var []
    overridedata :=
      if ':' ∈ var then
        (overrideEntries var).foldl
          (fun overridedata entry =>
            match overridedata.get? entry.1 with
            | none => overridedata
            | some variants =>
                overridedata.set entry.1 (variants.erase (var, entry.2)))
          overridedata
      else overridedata }

/-- `getVarFlags`. -/
def getVarFlags (var : Text) (internalflags : Bool) : Option Flags :=
  let localVar := (data.findVar var).getD []
  let flags := localVar.foldl
    (fun (flags : Flags) entry =>
      if defaultvalFlag.isPrefixOf entry.1 && !internalflags then
        let flag := entry.1.drop defaultvalFlag.length
        if flag ∈ localVar.keys then flags
        else flags.set flag (data.copied entry.2)
      else
        if (['_'].isPrefixOf entry.1 || [':'].isPrefixOf entry.1) &&
          !internalflags then
        flags
      else flags.set entry.1 (data.copied entry.2)) []
  if flags = [] then none else some flags

/-- `delVarFlag`, behind the clearing of what was expanded. -/
def delVarFlag (var flag : Text) : Data :=
  if (data.findVar var).getD [] = [] then data
  else
    let copied := data.makeShadowCopy var
    let flags := copied.ownFlags var
    if flag ∈ flags.keys then
      copied.setFlags var ((flags.del flag).del (defaultvalFlag ++ flag))
    else copied

/-- `delVarFlags`, behind the clearing of what was expanded. -/
def delVarFlags (var : Text) : Data :=
  let copied := data.makeShadowCopy var
  match (copied.ownFlags var).get? contentFlag with
  | some content => copied.setFlags var [(contentFlag, content)]
  | none => { copied with dict := copied.dict.del var }

end Data

namespace Store

def reading {α : Type} (run : Data → Run Memo α) : Run Store α := fun store =>
  let (returned, memo) := run store.toData store.toMemo
  (returned, { store with toMemo := memo })

def change (write : Data → Data) : Run Store Unit :=
  Run.modify fun store => { store with toData := write store.toData }

/-- `self.expand_cache = {}`. -/
def clearCache : Run Store Unit :=
  Run.modify fun store => { store with expandCache := [] }

end Store

open Store

/-- `delVar`. -/
def delVar (var : Text) : Run Store Unit := do
  clearCache
  change fun data => data.delVar var

/-- `delVarFlag`. -/
def delVarFlag (var flag : Text) : Run Store Unit := do
  clearCache
  change fun data => data.delVarFlag var flag

/-- `delVarFlags`. -/
def delVarFlags (var : Text) : Run Store Unit := do
  clearCache
  change fun data => data.delVarFlags var

def failedMark : Text := "_FAILPARSINGERRORHANDLED".toList

def renamedVariables : Text := "BB_RENAMED_VARIABLES".toList

def exportlist : Text := "__exportlist".toList

def isOldSyntax (var : Text) : Bool :=
  !("__anon_".toList.isPrefixOf var) &&
    ("_append".toList <:+: var || "_prepend".toList <:+: var ||
      "_remove".toList <:+: var)

/-- `var.split(":", 1)[0]`. -/
def shortName (var : Text) : Text :=
  var.takeWhile (· ≠ ':')

def operationEntries (value : Value) : Option (List (Text × Option Text)) :=
  if value.isTrue then value.entries else some []

section Writes

variable (python : Python) (fuel : ℕ)

/-- The loop in `_setvar_update_overridevars`. -/
def overridevarsLoop : ℕ → List Text → Run Store Unit
  | rounds, new => do
      let store ← Run.get
      if new ⊆ store.overridevars then pure ()
      else
        match rounds with
        | 0 => Run.raise
        | rounds + 1 => do
            Run.modify fun store => { store with
              overridevars := store.overridevars ∪ new }
            let found ← Run.collect (fun name => do
              let value ← reading fun data => getVar python data fuel name
              let vardata ← reading fun data =>
                expandWithRefs (readContent python data fuel) python data
                  (some name) fuel value
              pure (vardata.references ∪ vardata.contains)) new
            overridevarsLoop rounds found.flatten

/-- `_setvar_update_overridevars`. -/
def setvarUpdateOverridevars (var : Text) (value : Value) : Run Store Unit := do
  let vardata ← reading fun data =>
    expandWithRefs (readContent python data fuel) python data (some var) fuel
      value
  overridevarsLoop python fuel fuel (vardata.references ∪ vardata.contains)
  Run.modify fun store => { store with overrides := none, expandCache := [] }

def dropVariants (var : Text) : Run Store Unit := do
  let store ← Run.get
  match store.overridedata.get? var with
  | none => pure ()
  | some variants => do
      reading fun data => needOverrides (readContent python data fuel)
      let store ← Run.get
      let overrides ← Run.ofOption store.overrides
      let active :=
        variants.filter fun variant => isActiveOverride overrides variant.2
      Run.forEach (fun variant => delVar variant.1) active
      change fun data => { data with overridedata := data.overridedata.del var }

/-- `setVar` of a name without an operation. -/
def setVarPlain (var : Text) (value : Value) (parsing : Bool) :
    Run Store Unit := do
  change fun data => data.makeShadowCopy var
  Run.when (parsing = false) do
    change fun data => data.setFlags var
      (setvarKeywords.foldl (fun flags keyword => flags.del keyword)
        (data.ownFlags var))
    dropVariants python fuel var
  Run.when (':' ∈ var) (change fun data => data.setvarUpdateOverrides var)
  change fun data =>
    data.setFlags var ((data.ownFlags var).set contentFlag value)
  let store ← Run.get
  Run.when (var ∈ store.overridevars)
    (setvarUpdateOverridevars python fuel var value)

/-- A variable with this name was renamed: the mark is set, by a call of
`setVar`. -/
def markRenamed (name : Text) : Run Store Unit := do
  let store ← Run.get
  if name ∈ store.varRenames then
    if failedMark ∈ store.varRenames then Run.raise
    else
      clearCache
      setVarPlain python fuel failedMark (.object 1) false
  else pure ()

/-- The set of exported names gets one more name. -/
def addExported (data : Data) (var : Text) : Option Data :=
  let copied := data.makeShadowCopy exportlist
  let flags := copied.ownFlags exportlist
  match flags.get? contentFlag with
  | none =>
      some { copied.setFlags exportlist
        (flags.set contentFlag (.cell copied.cells.length)) with
        cells := copied.cells ++ [[var]] }
  | some (.cell id) =>
      some { copied with
        cells := copied.cells.modify id fun names => names.insert var }
  | some _ => none

/-- `setVarFlag`. -/
def setVarFlag (var flag : Text) (value : Value) : Run Store Unit := do
  clearCache
  Run.when (var = renamedVariables)
    (Run.modify fun store => { store with
      varRenames := store.varRenames.insert flag })
  markRenamed python fuel var
  change fun data =>
    let copied := data.makeShadowCopy var
    copied.setFlags var ((copied.ownFlags var).set flag value)
  Run.when (flag = defaultval ∧ ':' ∈ var)
    (change fun data => data.setvarUpdateOverrides var)
  let store ← Run.get
  Run.when (flag = defaultval ∧ var ∈ store.overridevars)
    (setvarUpdateOverridevars python fuel var value)
  Run.when (flag = "export".toList ∨ flag = "unexport".toList) do
    let store ← Run.get
    let data ← Run.ofOption (addExported store.toData var)
    change fun _ => data

/-- `setVar` of an operation: the entry goes to the end of the list. -/
def setOperation (var base keyword : Text) (add : Option Text) (value : Value) :
    Run Store Unit := do
  let (held, _) ← reading fun data => getVarFlag python data fuel base keyword
    Mode.unexpanded
  let entries ← Run.ofOption (operationEntries held)
  match value with
  | .text text => do
      setVarFlag python fuel base keyword
        (.operations (entries ++ [(text, add)]))
      change fun data => data.setvarUpdateOverrides base
      let store ← Run.get
      Run.when (base ∈ store.overridevars)
        (setvarUpdateOverridevars python fuel var value)
  | _ => Run.raise

/-- `setVar`.  An operation takes a text. -/
def setVar (var : Text) (value : Value) (parsing : Bool) : Run Store Unit := do
  if isOldSyntax var then Run.raise
  else
    markRenamed python fuel (shortName var)
    clearCache
    match matchSetvar [] var with
    | some (base, keyword, add) =>
        setOperation python fuel var base keyword add value
    | none => setVarPlain python fuel var value parsing

end Writes

end Nvbmc.DataSmart
