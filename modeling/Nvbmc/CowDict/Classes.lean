import Nvbmc.Library.Layers

/-!
# Copy-on-write dictionaries

`COWDictMeta` keeps a dictionary in the attributes of a class, and a copy is a
subclass.  An immutable value is the attribute `key`, a set or a dictionary is
the attribute `key__mutable__`; the empty tuple is the marker of a deleted key.
-/

namespace Nvbmc.CowDict

open Nvbmc.Library

inductive Immutable (ι : Type) where
  /-- `tuple()`, which is `__marker__`. -/
  | emptyTuple
  | other (value : ι)

inductive Value (ι δ : Type) where
  | immutable (value : Immutable ι)
  | mutable (content : δ)

/-- A set or dictionary, with the class and key it was stored under. -/
structure Object (κ δ : Type) where
  content : δ
  cls : ℕ
  key : κ

structure State (κ ι δ : Type) where
  /-- `__mro__` of each class. -/
  mros : List (List ℕ)
  /-- The attributes `key` of the classes. -/
  plain : Dict (ℕ × κ) (Immutable ι)
  /-- The attributes `key__mutable__` of the classes. -/
  mutables : Dict (ℕ × κ) ℕ
  heap : List (Object κ δ)

namespace State

variable {κ ι δ : Type}

/-- `COWDictBase`. -/
def initial : State κ ι δ where
  mros := [[0]]
  plain := []
  mutables := []
  heap := []

variable [DecidableEq κ] (state : State κ ι δ)

def mro (cls : ℕ) : List ℕ :=
  state.mros.getD cls []

def cow (cls : ℕ) : State κ ι δ :=
  { state with mros := state.mros ++ [state.mros.length :: state.mro cls] }

def setitem (cls : ℕ) (key : κ) : Value ι δ → State κ ι δ
  | .immutable value =>
      { state with plain := state.plain.set (cls, key) value }
  | .mutable content =>
      { state with
        mutables := state.mutables.set (cls, key) state.heap.length
        heap := state.heap ++ [⟨content, cls, key⟩] }

def content (ref : ℕ) : Option (Value ι δ) :=
  (state.heap[ref]?).map fun object => .mutable object.content

/-- `none` for a `KeyError`. -/
def getmutable (cls : ℕ) (key : κ) (readonly : Bool) :
    State κ ι δ × Option (Value ι δ) :=
  match state.mutables.get? (cls, key) with
  | some ref => (state, state.content ref)
  | none =>
      match (lookup state.mutables (state.mro cls) key).bind
          (state.heap[·]?) with
      | none => (state, none)
      | some object =>
          let value := .mutable object.content
          if readonly then (state, some value)
          else (state.setitem cls key value, some value)

def getitem (cls : ℕ) (key : κ) (readonly : Bool) :
    State κ ι δ × Option (Value ι δ) :=
  match lookup state.plain (state.mro cls) key with
  | some .emptyTuple => (state, none)
  | some (.other value) => (state, some (.immutable (.other value)))
  | none => state.getmutable cls key readonly

def delitem (cls : ℕ) (key : κ) : State κ ι δ :=
  state.setitem cls key (.immutable .emptyTuple)

def hasKey (cls : ℕ) (key : κ) : Bool :=
  (state.getitem cls key true).2.isSome

/-- The keys of the attributes of a class, in no particular order. -/
def dir (cls : ℕ) : List κ :=
  layerKeys state.plain (state.mro cls) ++
    layerKeys state.mutables (state.mro cls)

/-- The loop of `iter`: the state and the pairs that are yielded. -/
def iterFrom (cls : ℕ) (readonly : Bool) :
    State κ ι δ → List κ → State κ ι δ × List (κ × Value ι δ)
  | state, [] => (state, [])
  | state, key :: keys =>
      let got := state.getitem cls key readonly
      let rest := iterFrom cls readonly got.1 keys
      match got.2 with
      -- A `KeyError`, as for the keys that have been deleted.
      | none => rest
      | some value => (rest.1, (key, value) :: rest.2)

def iterkeys (cls : ℕ) : State κ ι δ × List κ :=
  ((iterFrom cls false state (state.dir cls)).1, state.dir cls)

def iteritems (cls : ℕ) (readonly : Bool) :
    State κ ι δ × List (κ × Value ι δ) :=
  iterFrom cls readonly state (state.dir cls)

/-- An in-place change of a set or dictionary. -/
def change (ref : ℕ) (edit : δ → δ) : State κ ι δ :=
  { state with
    heap := state.heap.modify ref fun object =>
      { object with content := edit object.content } }

end State

/-- An operation on the classes. -/
inductive Op (κ ι δ : Type) where
  | copy (cls : ℕ)
  | set (cls : ℕ) (key : κ) (value : Value ι δ)
  | delete (cls : ℕ) (key : κ)
  | get (cls : ℕ) (key : κ) (readonly : Bool)
  | contains (cls : ℕ) (key : κ)
  | iterkeys (cls : ℕ)
  | iteritems (cls : ℕ) (readonly : Bool)
  /-- Changes a value that has been stored or obtained with writable access. -/
  | change (ref : ℕ) (edit : δ → δ)

section Run

variable {κ ι δ : Type} [DecidableEq κ]

/-- The class an operation is called on. -/
def Op.cls? : Op κ ι δ → Option ℕ
  | .copy cls | .set cls _ _ | .delete cls _ | .get cls _ _ | .contains cls _
  | .iterkeys cls | .iteritems cls _ => some cls
  | .change _ _ => none

def State.perform (state : State κ ι δ) : Op κ ι δ → State κ ι δ
  | .copy cls => state.cow cls
  | .set cls key value => state.setitem cls key value
  | .delete cls key => state.delitem cls key
  | .get cls key readonly => (state.getitem cls key readonly).1
  | .contains _ _ => state
  | .iterkeys cls => (state.iterkeys cls).1
  | .iteritems cls readonly => (state.iteritems cls readonly).1
  | .change ref edit => state.change ref edit

end Run

section Ordinary

variable {κ ι δ : Type} [DecidableEq κ]

abbrev Dicts (κ ι δ : Type) := ℕ → κ → Option (Value ι δ)

def Dicts.update (dicts : Dicts κ ι δ) (cls : ℕ) (key : κ)
    (value : Option (Value ι δ)) : Dicts κ ι δ :=
  fun other name =>
    if other = cls ∧ name = key then value else dicts other name

def Dicts.perform (dicts : Dicts κ ι δ) (state : State κ ι δ) :
    Op κ ι δ → Dicts κ ι δ
  | .copy cls => fun other =>
      if other = state.mros.length then dicts cls else dicts other
  | .set cls key value => dicts.update cls key (some value)
  | .delete cls key => dicts.update cls key none
  | .change ref edit =>
      match state.heap[ref]? with
      | none => dicts
      | some object =>
          -- The dictionary may hold another object by now.
          if state.mutables.get? (object.cls, object.key) = some ref then
            dicts.update object.cls object.key
              (some (.mutable (edit object.content)))
          else dicts
  | _ => dicts

/-- Every class behaves as its dictionary. -/
structure Agrees (state : State κ ι δ) (dicts : Dicts κ ι δ) : Prop where
  get : ∀ cls < state.mros.length, ∀ key readonly,
    (state.getitem cls key readonly).2 = dicts cls key
  contains : ∀ cls < state.mros.length, ∀ key,
    state.hasKey cls key ↔ dicts cls key ≠ none
  keys : ∀ cls < state.mros.length, (state.iterkeys cls).2.Nodup ∧
    ∀ key, key ∈ (state.iterkeys cls).2 ↔ dicts cls key ≠ none
  items : ∀ cls < state.mros.length, ∀ readonly,
    ((state.iteritems cls readonly).2.map Prod.fst).Nodup ∧
    ∀ key value, (key, value) ∈ (state.iteritems cls readonly).2 ↔
      dicts cls key = some value

/-- The class of an operation exists. -/
def Op.Known (op : Op κ ι δ) (state : State κ ι δ) : Prop :=
  ∀ cls ∈ op.cls?, cls < state.mros.length

/-- The classes behave as dictionaries after every operation. -/
def AgreesAlong : State κ ι δ → Dicts κ ι δ → List (Op κ ι δ) → Prop
  | state, dicts, [] => Agrees state dicts
  | state, dicts, op :: ops =>
      Agrees state dicts ∧ (op.Known state →
        AgreesAlong (state.perform op) (dicts.perform state op) ops)

end Ordinary

end Nvbmc.CowDict
