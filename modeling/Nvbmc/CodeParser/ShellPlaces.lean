import Mathlib.Logic.Relation
import Nvbmc.CodeParser.ShellTrees

/-!
# The places of a shell text

A syntax tree is read as the places where commands can be: the simple commands,
the lists of words, the functions and the words that stand alone.  What a text
calls is said of its places and of those of the texts nested in it, and without
the walk of the parser.
-/

namespace Nvbmc.CodeParser

open Nvbmc.Library

inductive Place where
  | simple (words : Option CommandWords) (redirs : List Redirect)
      (assigns : List (Text × Text))
  | items (texts : List Text)
  | function (name : Text)
  | apart (texts : List Text)

def redirWords (redirs : List Redirect) : List Text :=
  redirs.filterMap fun redir =>
    match redir with
    | .file filename => some filename
    | .here _ _ => none

mutual

def Token.places : Token → List Place
  | .list tokens => placesOf tokens
  | .andOr left right => left.places ++ right.places
  | .async tokens => placesOf tokens
  | .braceGroup cmds => placesOf cmds
  | .forClause _ items cmds => placesOf cmds ++ [.items items]
  | .functionDefinition name body => .function name :: body.places
  | .ifClause cond ifCmds elseCmds =>
      placesOf cond ++ placesOf ifCmds ++ elseCmds.places
  | .pipeline commands => placesOf commands
  | .redirectList cmd redirs => cmd.places ++ [.apart (redirWords redirs)]
  | .subshell cmds => placesOf cmds
  | .whileClause condition cmds => placesOf condition ++ placesOf cmds
  | .untilClause condition cmds => placesOf condition ++ placesOf cmds
  | .simpleCommand words redirs assigns => [.simple words redirs assigns]
  | .caseClause name items =>
      casePlaces items ++
        [.items (items.flatMap CaseItem.patterns), .apart [name]]

def placesOf : List Token → List Place
  | [] => []
  | token :: tokens => token.places ++ placesOf tokens

def ElsePart.places : ElsePart → List Place
  | .cmds tokens => placesOf tokens
  | .elif cond ifCmds elseCmds =>
      placesOf cond ++ placesOf ifCmds ++ elseCmds.places

def CaseItem.places : CaseItem → List Place
  | .item _ cmds => placesOf cmds

def casePlaces : List CaseItem → List Place
  | [] => []
  | item :: items => item.places ++ casePlaces items

end

mutual

def WordTree.substitutions : WordTree → List Text
  | .text _ => []
  | .node opening inner _ =>
      if opening = "`".toList ∨ opening = "$(".toList then [WordTree.strs inner]
      else substitutionsOf inner

def substitutionsOf : List WordTree → List Text
  | [] => []
  | part :: parts => part.substitutions ++ substitutionsOf parts

end

mutual

/-- A word without its quotes; expansions are left as they are. -/
def WordTree.unquoted : WordTree → Text
  | .text chars => chars
  | .node opening inner closing =>
      if opening = "'".toList ∨ opening = "\"".toList ∨
        opening = "\\".toList then
        unquotedOf inner
      else opening ++ WordTree.strs inner ++ closing

def unquotedOf : List WordTree → Text
  | [] => []
  | part :: parts => part.unquoted ++ unquotedOf parts

end

def WordTree.isText : WordTree → Bool
  | .text _ => true
  | .node _ _ _ => false

def isAssignment (text : Text) : Bool :=
  '=' ∈ text ∧ text.head? ≠ some '=' ∧
    (text.takeWhile (· ≠ '=')).all fun char => char.isAlphanum || char = '_'

/-- The command of a list of words with its arguments. -/
def commandOf (texts : List Text) : Option (Text × List Text) :=
  match texts.dropWhile isAssignment with
  | [] => none
  | command :: args => some (command, args)

def CommandWords.texts (words : CommandWords) : List Text :=
  words.first :: words.suffix

def evalName : Text :=
  "eval".toList

namespace Place

/-- The words at a place, with the values that are assigned. -/
def spoken : Place → List Text
  | .simple words _ assigns =>
      words.elim [] CommandWords.texts ++ assigns.map Prod.snd
  | .items texts => texts
  | .function _ => []
  | .apart _ => []

/-- The words that stand alone: names of files and the word of a case. -/
def alone : Place → List Text
  | .simple _ redirs _ => redirWords redirs
  | .items _ => []
  | .function _ => []
  | .apart texts => texts

def command : Place → Option (Text × List Text)
  | .simple (some words) _ _ => commandOf words.texts
  | _ => none

def defined : Place → Option Text
  | .function name => some name
  | _ => none

section Splitter

variable (makeWordtree : Text → List WordTree)

/-- A word without quotes and expansions. -/
def Literal (text : Text) : Prop :=
  ∀ part ∈ makeWordtree text, part.isText = true

/-- The place calls a command by its literal name; `eval` is not counted, its
text is. -/
def Calls (place : Place) (name : Text) : Prop :=
  (∃ args, place.command = some (name, args)) ∧ Literal makeWordtree name ∧
    name ≠ evalName

/-- A text is nested at a place: substituted in a word or put together for
`eval`. -/
inductive Nested (place : Place) : Text → Prop where
  | substituted {word inner : Text} : word ∈ place.spoken ++ place.alone →
      inner ∈ substitutionsOf (makeWordtree word) → Nested place inner
  | eval {args : List Text} : place.command = some (evalName, args) →
      Nested place
        (joinWords (args.map fun arg => unquotedOf (makeWordtree arg)))

end Splitter

end Place

section Texts

variable (parse : Text → Except ShellError (List Token))
  (makeWordtree : Text → List WordTree)

def PlaceOf (text : Text) (place : Place) : Prop :=
  ∃ tokens, parse text = .ok tokens ∧ place ∈ placesOf tokens

def NestedIn (outer inner : Text) : Prop :=
  ∃ place, PlaceOf parse outer place ∧ place.Nested makeWordtree inner

def Within : Text → Text → Prop :=
  Relation.ReflTransGen (NestedIn parse makeWordtree)

def Called (text name : Text) : Prop :=
  ∃ inner, Within parse makeWordtree text inner ∧
    ∃ place, PlaceOf parse inner place ∧ place.Calls makeWordtree name

def Defined (text name : Text) : Prop :=
  ∃ inner, Within parse makeWordtree text inner ∧
    ∃ place, PlaceOf parse inner place ∧ place.defined = some name

/-- A text that the parser reads, with all texts in it, which are shorter. -/
structure Readable (text : Text) : Prop where
  parsed : ∀ inner, Within parse makeWordtree text inner → ∃ tokens,
    parse inner = .ok tokens
  shorter : ∀ outer inner, Within parse makeWordtree text outer →
    NestedIn parse makeWordtree outer inner → inner.length < outer.length

variable {parse makeWordtree}

theorem Readable.nested {text inner : Text}
    (readable : Readable parse makeWordtree text)
    (nested : NestedIn parse makeWordtree text inner) :
    Readable parse makeWordtree inner where
  parsed := fun other within => readable.parsed other (.head nested within)
  shorter := fun outer other within => readable.shorter outer other
    (.head nested within)

theorem within_iff {text other : Text} :
    Within parse makeWordtree text other ↔ text = other ∨
      ∃ inner, NestedIn parse makeWordtree text inner ∧
        Within parse makeWordtree inner other :=
  Relation.ReflTransGen.cases_head_iff

theorem called_iff {text name : Text} :
    Called parse makeWordtree text name ↔
      (∃ place, PlaceOf parse text place ∧ place.Calls makeWordtree name) ∨
      ∃ inner, NestedIn parse makeWordtree text inner ∧
        Called parse makeWordtree inner name := by
  constructor
  · intro called
    obtain ⟨other, within, calls⟩ := called
    rcases within_iff.mp within with same | ⟨inner, nested, within⟩
    · exact .inl (same ▸ calls)
    · exact .inr ⟨inner, nested, other, within, calls⟩
  · intro called
    rcases called with calls | ⟨inner, nested, other, within, calls⟩
    · exact ⟨text, .refl, calls⟩
    · exact ⟨other, .head nested within, calls⟩

theorem defined_iff {text name : Text} :
    Defined parse makeWordtree text name ↔
      (∃ place, PlaceOf parse text place ∧ place.defined = some name) ∨
      ∃ inner, NestedIn parse makeWordtree text inner ∧
        Defined parse makeWordtree inner name := by
  constructor
  · intro defined
    obtain ⟨other, within, defines⟩ := defined
    rcases within_iff.mp within with same | ⟨inner, nested, within⟩
    · exact .inl (same ▸ defines)
    · exact .inr ⟨inner, nested, other, within, defines⟩
  · intro defined
    rcases defined with defines | ⟨inner, nested, other, within, defines⟩
    · exact ⟨text, .refl, defines⟩
    · exact ⟨other, .head nested within, defines⟩

end Texts

section Walk

variable (makeWordtree : Text → List WordTree)
  (parseShell : Text → Found → Except ShellError Found)

def processPlace (found : Found) : Place → Except ShellError Found
  | .simple words _ assigns =>
      processWords makeWordtree parseShell (commandWords words assigns) found
  | .items texts =>
      processWords makeWordtree parseShell (tokenWords texts) found
  | .function name => .ok { found with funcdefs := name :: found.funcdefs }
  | .apart _ => .ok found

/-- The walk over places, one after the other. -/
def processPlaces (places : List Place) (found : Found) :
    Except ShellError Found :=
  places.foldlM (processPlace makeWordtree parseShell) found

theorem processPlaces_append (first second : List Place) (found : Found) :
    processPlaces makeWordtree parseShell (first ++ second) found =
      (processPlaces makeWordtree parseShell first found).bind
        (processPlaces makeWordtree parseShell second) := by
  exact List.foldlM_append ..

theorem processPlaces_singleton (place : Place) (found : Found) :
    processPlaces makeWordtree parseShell [place] found =
      processPlace makeWordtree parseShell found place := by
  exact List.foldlM_cons.trans (bind_pure _)

theorem bind_processPlaces_apart (result : Except ShellError Found)
    (texts : List Text) :
    result.bind (processPlaces makeWordtree parseShell [.apart texts]) =
      result := by
  cases result with
  | error error => rfl
  | ok found => rfl

end Walk

end Nvbmc.CodeParser
