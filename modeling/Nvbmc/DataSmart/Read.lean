import Nvbmc.DataSmart.Store

/-!
# Reading a variable

`getVarFlag` with all that it calls: the list of overrides is found by reading
`OVERRIDES`, and references in a value are expanded by reading other variables.
A read changes nothing but what the store remembers.  Each call inside a read
has one unit of fuel less, and a read without fuel raises, as one does that is
nested too deep.
-/

namespace Nvbmc.DataSmart

open Library

/-- How a variable is read. -/
structure Mode where
  expand : Bool
  noweakdefault : Bool
  parsing : Bool
  retparser : Bool

namespace Mode

/-- `getVar(var)`. -/
def expanded : Mode := ⟨true, false, false, false⟩

/-- `getVar(var, False)`. -/
def unexpanded : Mode := ⟨false, false, false, false⟩

/-- `getVarFlag(var, "_content", False, retparser=True)`. -/
def withParser : Mode := ⟨false, false, false, true⟩

end Mode

/-- One pass over the expressions in a text: for the data of the store, the
overrides and the name of the variable, the new text with the references and the
names that it is asked about.  The expressions are part of the values; they only
read the store. -/
abbrev Python :=
  Data → Option (List Text) → Option Text → Text →
    Option (Text × List Text × List Text)

abbrev Reader := Text → Mode → Run Memo (Value × Option VariableParse)

def isNameChar (char : Char) : Bool :=
  char.isAlphanum || char ∈ ['-', '_', '+', '.', '/', '~', ':']

/-- The name when the text starts with a reference. -/
def referenceAt : Text → Option Text
  | '$' :: '\x7b' :: rest =>
      let name := rest.takeWhile isNameChar
      if name ≠ [] ∧ rest[name.length]? = some '\x7d' then some name else none
  | _ => none

/-- `s.find('$...') != -1`. -/
def hasOpening (text : Text) : Bool :=
  "$\x7b".toList <:+: text

/-- A text with what is known of it. -/
structure Expansion where
  text : Text
  references : List Text
  contains : List Text

section Expand

variable (read : Reader) (python : Python) (data : Data) (varname : Option Text)

/-- `var_sub`. -/
def varSub (key : Text) : Run Memo Text := do
  if varname = some key then Run.raise
  else
    let (value, _) ← read key Mode.expanded
    match value with
    | .none => pure ("$\x7b".toList ++ key ++ "\x7d".toList)
    | .text text => pure text
    | _ => Run.raise

/-- The references of a text are replaced, and returned. -/
def subReferences : ℕ → Text → Run Memo (Text × List Text)
  | _, [] => pure ([], [])
  | skip + 1, _ :: rest => subReferences skip rest
  | 0, char :: rest =>
      match referenceAt (char :: rest) with
      | some key => do
          let new ← varSub read varname key
          let (text, references) ← subReferences (key.length + 2) rest
          pure (new ++ text, references.insert key)
      | none => do
          let (text, references) ← subReferences 0 rest
          pure (char :: text, references)

/-- One round of the loop in `expandWithRefs`. -/
def expandRound (expansion : Expansion) : Run Memo Expansion := do
  let (text, references) ← subReferences read varname 0 expansion.text
  let memo ← Run.get
  let (text, more, contains) ←
    Run.ofOption (python data memo.overrides varname text)
  pure ⟨text, expansion.references ∪ references ∪ more, expansion.contains ∪
    contains⟩

/-- The loop in `expandWithRefs`. -/
def expandLoop : ℕ → Expansion → Run Memo Expansion
  | rounds, expansion =>
      if hasOpening expansion.text then
        match rounds with
        | 0 => Run.raise
        | rounds + 1 => do
            let next ← expandRound read python data varname expansion
            if next.text = expansion.text then pure next
            else expandLoop rounds next
      else pure expansion

/-- `expandWithRefs`. -/
def expandWithRefs (rounds : ℕ) : Value → Run Memo VariableParse
  | .text text => do
      let expansion ← expandLoop read python data varname rounds ⟨text, [], []⟩
      pure ⟨.text expansion.text, .text text, expansion.references,
        expansion.contains, none⟩
  | value => pure ⟨value, value, [], [], none⟩

end Expand

/-- `(value or "").split(":")`. -/
def splitOverrides (value : Value) : Option (List Text) :=
  if value.isTrue then
    match value with
    | .text text => some (text.splitOn ':')
    | _ => none
  else some [[]]

section Overrides

variable (read : Reader)

/-- `OVERRIDES` as it is now. -/
def readOverrides : Run Memo (List Text) := do
  let (value, _) ← read overridesName Mode.expanded
  Run.ofOption (splitOverrides value)

/-- The loop in `need_overrides`; when it ends without a stable list it is
fatal. -/
def overridesLoop : ℕ → Run Memo Unit
  | 0 => Run.raise
  | count + 1 => do
      Run.modify fun memo => { memo with
        overrides := some [], inoverride := true }
      let overrides ← readOverrides read
      Run.modify fun memo =>
        { memo with
          overrides := some overrides, inoverride := false, expandCache := [] }
      let newoverrides ← readOverrides read
      if newoverrides = overrides then pure ()
      else
        Run.modify fun memo => { memo with overrides := some newoverrides }
        overridesLoop count

/-- `need_overrides`. -/
def needOverrides : Run Memo Unit := do
  let memo ← Run.get
  if memo.overrides.isSome || memo.inoverride then pure ()
  else overridesLoop read 5

end Overrides

def addText (combine : Text → Text → Text) (value : Value) (text : Text) :
    Option Value :=
  match value with
  | .none => some (.text (combine [] text))
  | .text old => some (.text (combine old text))
  | _ => none

/-- The active entries of an operation are put to a value. -/
def addEntries (combine : Text → Text → Text) (overrides : Option (List Text)) :
    List (Text × Option Text) → Value → Option Value
  | [], value => some value
  | (text, override) :: rest, value => do
      let active ← isActive overrides override
      let value ← if active then addText combine value text else some value
      addEntries combine overrides rest value

def activeTexts (overrides : Option (List Text)) : List (Text × Option Text) →
    List Text → Option (List Text)
  | [], texts => some texts
  | (text, override) :: rest, texts => do
      let active ← isActive overrides override
      activeTexts overrides rest
        (if active ∧ text ∉ texts then texts ++ [text] else texts)

def Value.entries : Value → Option (List (Text × Option Text))
  | .operations held => some held
  | _ => Option.none

def splitWords (text : Text) : List Text :=
  (text.splitOnP isspace).filter (· ≠ [])

/-- `__whitespace_split__.split`: words and blanks in turn. -/
def whitespaceSplit : Text → List Text
  | [] => [[]]
  | char :: rest =>
      if isspace char then [] :: [char] :: whitespaceSplit rest
      else
        match whitespaceSplit rest with
        | [] => [[char]]
        | word :: pieces => (char :: word) :: pieces

section GetVar

variable (read : Reader) (python : Python) (data : Data) (rounds : ℕ)

/-- What is remembered under a name, when it answers the read. -/
def cachedRead (memo : Memo) (cachename : Text) (mode : Mode) :
    Option (Value × Option VariableParse) :=
  match memo.expandCache.get? cachename with
  | none => none
  | some parse =>
      if !mode.expand && mode.retparser then
        some (parse.unexpandedValue, some parse)
      else if mode.expand then some (parse.value, none)
      else none

/-- The value of the active variant with the name of the variant and what its
parser removed, when there is an active variant. -/
def readVariant (var : Text) (parsing : Bool) :
    Run Memo (Value × Option (Text × List Text)) :=
  match if parsing then none else data.overridedata.get? var with
  | none => pure (.none, none)
  | some overridedata => do
      needOverrides read
      let memo ← Run.get
      let overrides ← Run.ofOption memo.overrides
      match overrideMatch overrides overridedata with
      | none => pure (.none, none)
      | some variant => do
          let (value, parser) ← read variant Mode.withParser
          pure (value, (parser.bind (·.removes)).map fun removes =>
            (variant, removes))

/-- The entries of an operation of a variable are put to the value. -/
def applyOperation (localVar : Option Flags) (keyword : Text) (parsing : Bool)
    (combine : Text → Text → Text) (value : Value) : Run Memo Value :=
  match if parsing then none else localVar.bind (·.get? keyword) with
  | none => pure value
  | some held => do
      needOverrides read
      let memo ← Run.get
      let entries ← Run.ofOption held.entries
      Run.ofOption (addEntries combine memo.overrides entries value)

/-- The parser of the variant and this read share one set of removes: what is
added to it here is added there. -/
def shareRemoves (variant : Option (Text × List Text)) (removes : List Text)
    (memo : Memo) : Memo :=
  match variant with
  | none => memo
  | some (name, shared) =>
      if removes = shared then memo
      else
        match memo.expandCache.get? name with
        | none => memo
        | some parse =>
            { memo with
              expandCache := memo.expandCache.set name { parse with
                removes := some removes } }

def activeRemoves (localVar : Option Flags) (parsing : Bool) (value : Value)
    (variant : Option (Text × List Text)) : Run Memo (List Text) := do
  let removes := (variant.map Prod.snd).getD []
  match if parsing || !value.isTrue then none
        else localVar.bind (·.get? removeKeyword) with
  | none => pure removes
  | some held => do
      needOverrides read
      let memo ← Run.get
      let entries ← Run.ofOption held.entries
      let removes ← Run.ofOption (activeTexts memo.overrides entries removes)
      Run.modify (shareRemoves variant removes)
      pure removes

/-- The words that a remove takes away. -/
def expandRemove (remove : Text) : Run Memo (Text × List Text) := do
  let parse ← expandWithRefs read python data none rounds (.text remove)
  match parse.value with
  | .text text => pure (remove, splitWords text)
  | _ => Run.raise

def removeWords (expanded : List (Text × List Text)) (parser : VariableParse) :
    Run Memo VariableParse :=
  match parser.value with
  | .text text =>
      let pieces := whitespaceSplit text
      let kept := pieces.filter fun piece => expanded.all fun remove =>
        piece ∉ remove.2
      let used := (expanded.filter fun remove => pieces.any (· ∈ remove.2)).map
        Prod.fst
      pure { parser with value := .text kept.flatten, removes := some used }
  | _ => Run.raise

/-- The words of the removes are taken out of a value that is not empty. -/
def applyRemoves (value : Value) (parsing : Bool) (removes : List Text)
    (parser : VariableParse) : Run Memo VariableParse :=
  if value.isTrue && !parsing && removes ≠ [] then do
    let expanded ← Run.collect (expandRemove read python data rounds) removes
    removeWords expanded parser
  else pure parser

/-- The end of `getVarFlag` of the content: the value is expanded and the words
of the removes are taken out. -/
def finishContent (var : Text) (mode : Mode) (value : Value)
    (variant : Option (Text × List Text)) :
    Run Memo (Value × Option VariableParse) :=
  if mode.expand || mode.retparser then do
    let parser ← expandWithRefs read python data (some var) rounds value
    let value := if mode.expand then parser.value else value
    let removes ← activeRemoves read (data.findVar var) mode.parsing value
      variant
    let parser ← applyRemoves read python data rounds value mode.parsing removes
      parser
    Run.modify fun memo => { memo with
      expandCache := memo.expandCache.set var parser }
    pure (if mode.expand then parser.value else value,
      if mode.retparser then some parser else none)
  else do
    let _ ← activeRemoves read (data.findVar var) mode.parsing value variant
    pure (value, none)

/-- `getVarFlag` of the content. -/
def getContent (var : Text) (mode : Mode) :
    Run Memo (Value × Option VariableParse) := do
  let memo ← Run.get
  match cachedRead memo var mode with
  | some found => pure found
  | none => do
      let localVar := data.findVar var
      let (chosen, variant) ← readVariant read data var mode.parsing
      let value :=
        if chosen = .none then data.ownValue var contentFlag mode.noweakdefault
        else chosen
      let value ← applyOperation read localVar appendKeyword mode.parsing
        (· ++ ·) value
      let value ← applyOperation read localVar prependKeyword mode.parsing
        (fun old new => new ++ old) value
      finishContent read python data rounds var mode value variant

end GetVar

section Fuel

variable (python : Python) (data : Data)

/-- `getVarFlag` of the content, with the depth that is left. -/
def readContent : ℕ → Reader
  | 0 => fun _ _ => Run.raise
  | fuel + 1 => getContent (readContent fuel) python data fuel

/-- `getVarFlag`. -/
def getVarFlag (fuel : ℕ) (var flag : Text) (mode : Mode) :
    Run Memo (Value × Option VariableParse) := do
  if flag = [] then pure (.none, none)
  else if flag = contentFlag then readContent python data fuel var mode
  else
    let cachename := var ++ '[' :: flag ++ [']']
    let memo ← Run.get
    match cachedRead memo cachename mode with
    | some found => pure found
    | none => do
        let value := data.ownValue var flag mode.noweakdefault
        if mode.expand || mode.retparser then
          let parser ←
            expandWithRefs (readContent python data fuel) python data
            (some cachename) fuel value
          Run.modify fun memo =>
            { memo with expandCache := memo.expandCache.set cachename parser }
          pure (if mode.expand then parser.value else value,
            if mode.retparser then some parser else none)
        else pure (value, none)

/-- `getVar(var)`. -/
def getVar (fuel : ℕ) (var : Text) : Run Memo Value := do
  let (value, _) ← getVarFlag python data fuel var contentFlag Mode.expanded
  pure value

/-- `getVar(var, False)`. -/
def getVarUnexpanded (fuel : ℕ) (var : Text) : Run Memo Value := do
  let (value, _) ← getVarFlag python data fuel var contentFlag Mode.unexpanded
  pure value

end Fuel

end Nvbmc.DataSmart
