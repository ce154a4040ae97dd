import Nvbmc.DataSmart.Write

/-!
# The statements of a file

An assignment is evaluated with one of eight operators, for a variable or for a
flag of it, and `unset` deletes a variable or a flag.  A weak default is kept
under a name of its own, beside the value.
-/

namespace Nvbmc.DataSmart

open Library Store

inductive Operator where
  /-- `=` -/
  | set
  /-- `?=` -/
  | ques
  /-- `??=` -/
  | lazyques
  /-- `:=` -/
  | colon
  /-- `+=` -/
  | append
  /-- `=+` -/
  | prepend
  /-- `.=` -/
  | postdot
  /-- `=.` -/
  | predot
deriving DecidableEq, Repr

structure Groupd where
  exp : Bool
  var : Text
  flag : Option Text
  operator : Operator
  value : Text

def exportFlag : Text := "export".toList

/-- The flag that an assignment goes to.  A weak default goes to a flag of its
own; what goes to no flag is the value of the variable. -/
def Groupd.targetFlag (groupd : Groupd) : Option Text :=
  let flag :=
    match groupd.flag with
    | some flag =>
        if groupd.operator = .lazyques then defaultvalFlag ++ flag else flag
    | none => if groupd.operator = .lazyques then defaultval else []
  if flag = [] then none else some flag

section Nodes

variable (python : Python) (str : Value → Text) (fuel : ℕ)

/-- `value or ""` in a text; an object is written by `str`. -/
def orEmpty (value : Value) : Text :=
  if value.isTrue then
    match value with
    | .text text => text
    | other => str other
  else []

/-- `getFunc`: what is set already, without the weak default. -/
def Groupd.getFunc (groupd : Groupd) : Run Store Value := do
  let (value, _) ←
    match groupd.flag with
    | some flag =>
        reading fun data => getVarFlag python data fuel groupd.var flag
          ⟨false, true, false, false⟩
    | none =>
        reading fun data =>
          getVarFlag python data fuel groupd.var contentFlag
            ⟨false, true, true, false⟩
  pure value

/-- `expand(text, varname)` of a copy of the store. -/
def expandInCopy (varname text : Text) : Run Store Value := do
  let store ← Run.get
  let copy := store.createCopy
  let parse ← Run.ofOption
    (expandWithRefs (readContent python copy.toData fuel) python copy.toData
      (some varname) fuel (.text text) copy.toMemo).1
  pure parse.value

/-- The name under which the text of `:=` is expanded. -/
def immediateName (var : Text) : Text :=
  var ++ "[:=]".toList

def Groupd.newValue (groupd : Groupd) : Run Store Value :=
  match groupd.operator with
  | .set | .lazyques => pure (.text groupd.value)
  | .ques => do
      let val ← groupd.getFunc python fuel
      pure (if val = .none then .text groupd.value else val)
  | .colon => expandInCopy python fuel (immediateName groupd.var) groupd.value
  | .append => do
      let val ← groupd.getFunc python fuel
      pure (.text (orEmpty str val ++ ' ' :: groupd.value))
  | .prepend => do
      let val ← groupd.getFunc python fuel
      pure (.text (groupd.value ++ ' ' :: orEmpty str val))
  | .postdot => do
      let val ← groupd.getFunc python fuel
      pure (.text (orEmpty str val ++ groupd.value))
  | .predot => do
      let val ← groupd.getFunc python fuel
      pure (.text (groupd.value ++ orEmpty str val))

/-- `DataNode.eval`.  A warning about an operator on an operation changes
nothing. -/
def Groupd.eval (groupd : Groupd) : Run Store Unit := do
  Run.when groupd.exp (setVarFlag python fuel groupd.var exportFlag (.object 1))
  let val ← groupd.newValue python str fuel
  match groupd.targetFlag with
  | some flag => setVarFlag python fuel groupd.var flag val
  | none => setVar python fuel groupd.var val true

/-- A statement: an assignment, `unset` of a variable or `unset` of a flag. -/
inductive Node where
  | data (groupd : Groupd)
  | unset (var : Text)
  | unsetFlag (var flag : Text)

/-- `eval`. -/
def Node.eval : Node → Run Store Unit
  | .data groupd => groupd.eval python str fuel
  | .unset var => delVar var
  | .unsetFlag var flag => delVarFlag var flag

end Nodes

end Nvbmc.DataSmart
