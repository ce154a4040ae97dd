import Nvbmc.Library.Dict
import Nvbmc.Library.Words

/-!
# Commands of a shell text

`ShellParser` walks over the syntax tree of a text.  The parser and the splitter
of words are given: `parse` for `pyshyacc.parse` and `makeWordtree` for
`pyshlex.make_wordtree`.
-/

namespace Nvbmc.CodeParser

open Nvbmc.Library

inductive ShellError where
  | shellSyntaxError
  | recursionError
  deriving DecidableEq

inductive WordTree where
  | text (text : Text)
  | node (opening : Text) (inner : List WordTree) (closing : Text)

inductive Kind where
  | cmdName
  | cmdWord
  | token
  deriving DecidableEq

def Kind.label : Kind → Text
  | .cmdName => "cmd_name".toList
  | .cmdWord => "cmd_word".toList
  | .token => "TOKEN".toList

/-- A word, or an assignment, which is passed on in the same list. -/
inductive Word where
  | word (kind : Kind) (text : Text)
  | assign (name value : Text)
  deriving DecidableEq

def Word.label : Word → Text
  | .word kind _ => kind.label
  | .assign name _ => name

def Word.text : Word → Text
  | .word _ text => text
  | .assign _ value => value

def Word.isCommand (word : Word) : Bool :=
  word.label = Kind.cmdName.label ∨ word.label = Kind.cmdWord.label

structure CommandWords where
  isWord : Bool
  first : Text
  suffix : List Text

def CommandWords.kind (words : CommandWords) : Kind :=
  if words.isWord then .cmdWord else .cmdName

def tokenWords (texts : List Text) : List Word :=
  texts.map (Word.word .token)

def CommandWords.words (words : CommandWords) : List Word :=
  .word words.kind words.first :: tokenWords words.suffix

inductive Redirect where
  | file (filename : Text)
  | here (name content : Text)

mutual

/-- The syntax tree as `pyshyacc` makes it. -/
inductive Token where
  | list (tokens : List Token)
  | andOr (left right : Token)
  | async (tokens : List Token)
  | braceGroup (cmds : List Token)
  | forClause (name : Text) (items : List Text) (cmds : List Token)
  | functionDefinition (name : Text) (body : Token)
  | ifClause (cond ifCmds : List Token) (elseCmds : ElsePart)
  | pipeline (commands : List Token)
  | redirectList (cmd : Token) (redirs : List Redirect)
  | subshell (cmds : List Token)
  | whileClause (condition cmds : List Token)
  | untilClause (condition cmds : List Token)
  | simpleCommand (words : Option CommandWords) (redirs : List Redirect)
      (assigns : List (Text × Text))
  | caseClause (name : Text) (items : List CaseItem)

inductive ElsePart where
  | cmds (tokens : List Token)
  | elif (cond ifCmds : List Token) (elseCmds : ElsePart)

inductive CaseItem where
  | item (patterns : List Text) (cmds : List Token)

end

def CaseItem.patterns : CaseItem → List Text
  | .item patterns _ => patterns

mutual

/-- `wordtree_as_string`. -/
def WordTree.str : WordTree → Text
  | .text chars => chars
  | .node opening inner closing => opening ++ WordTree.strs inner ++ closing

def WordTree.strs : List WordTree → Text
  | [] => []
  | part :: parts => part.str ++ WordTree.strs parts

end

def WordTree.command? : WordTree → Option Text
  | .text _ => none
  | .node opening inner _ =>
      if opening = "`".toList ∨ opening = "$(".toList then
        some (WordTree.strs inner)
      else none

/-- The pieces that are looked at for a piece of a word: what is between double
quotes too. -/
def WordTree.candidates : WordTree → List WordTree
  | .text chars => [.text chars]
  | .node opening inner closing =>
      .node opening inner closing :: if opening = "\"".toList then inner else []

def commandsOf (wtree : List WordTree) : List Text :=
  (wtree.flatMap WordTree.candidates).filterMap WordTree.command?

structure Found where
  funcdefs : List Text
  allexecs : List Text

section Walk

variable (makeWordtree : Text → List WordTree)
  (parseShell : Text → Found → Except ShellError Found)

/-- A command word is taken from the list for each of its substitutions, as long
as an equal one is there. -/
def removeWord (word : Word) (commands : List Text) (words : List Word) :
    List Word :=
  if word.isCommand then commands.foldl (fun words _ => words.erase word) words
  else words

/-- The first loop of `process_words`, which takes words from the list that it
goes through: `index` is the place of the next word and `left` is not below the
number of words from there. -/
def scanWords : ℕ → ℕ → List Word → Found → Except ShellError
    (List Word × Found)
  | 0, _, words, found => .ok (words, found)
  | left + 1, index, words, found =>
      match words[index]? with
      | none => .ok (words, found)
      | some word =>
          let commands := commandsOf (makeWordtree word.text)
          match commands.foldlM (fun found command => parseShell command found)
            found with
          | .error error => .error error
          | .ok found =>
              scanWords left (index + 1) (removeWord word commands words) found

/-- The second loop of `process_words` over the words that are left. -/
def takeCommand (words : List Word) : Bool → List Word → Found →
    Except ShellError Found
  | _, [], found => .ok found
  | usetoken, word :: rest, found =>
      if word.isCommand ∨ (usetoken ∧ word.label = Kind.token.label) then
        if '=' ∈ word.text then takeCommand words true rest found
        else if word.text.head? = some '$' then .ok found
        else if word.text = "eval".toList then
          parseShell (joinWords ((words.drop 1).map Word.text)) found
        else .ok { found with allexecs := word.text :: found.allexecs }
      else takeCommand words usetoken rest found

/-- `process_words`. -/
def processWords (words : List Word) (found : Found) :
    Except ShellError Found :=
  match scanWords makeWordtree parseShell words.length 0 words found with
  | .error error => .error error
  | .ok (words, found) => takeCommand parseShell words false words found

def assignWords (assigns : List (Text × Text)) : List Word :=
  assigns.map fun assign => .assign assign.1 assign.2

def commandWords (words : Option CommandWords) (assigns : List (Text × Text)) :
    List Word :=
  (words.elim [] CommandWords.words) ++ assignWords assigns

mutual

/-- `process_tokens` for one token, with its handler: its tokens and then its
words. -/
def processToken : Token → Found → Except ShellError Found
  | .list tokens, found => processTokens tokens found
  | .andOr left right, found =>
      (processToken left found).bind (processToken right)
  | .async tokens, found => processTokens tokens found
  | .braceGroup cmds, found => processTokens cmds found
  | .forClause _ items cmds, found =>
      (processTokens cmds found).bind
        (processWords makeWordtree parseShell (tokenWords items))
  | .functionDefinition name body, found =>
      processToken body { found with funcdefs := name :: found.funcdefs }
  | .ifClause cond ifCmds elseCmds, found =>
      ((processTokens cond found).bind (processTokens ifCmds)).bind
        (processElse elseCmds)
  | .pipeline commands, found => processTokens commands found
  | .redirectList cmd _, found => processToken cmd found
  | .subshell cmds, found => processTokens cmds found
  | .whileClause condition cmds, found =>
      (processTokens condition found).bind (processTokens cmds)
  | .untilClause condition cmds, found =>
      (processTokens condition found).bind (processTokens cmds)
  | .simpleCommand words _ assigns, found =>
      processWords makeWordtree parseShell (commandWords words assigns) found
  | .caseClause _ items, found =>
      (processItems items found).bind
        (processWords makeWordtree parseShell
          (tokenWords (items.flatMap CaseItem.patterns)))

def processTokens : List Token → Found → Except ShellError Found
  | [], found => .ok found
  | token :: tokens, found =>
      (processToken token found).bind (processTokens tokens)

def processElse : ElsePart → Found → Except ShellError Found
  | .cmds tokens, found => processTokens tokens found
  | .elif cond ifCmds elseCmds, found =>
      ((processTokens cond found).bind (processTokens ifCmds)).bind
        (processElse elseCmds)

def processItem : CaseItem → Found → Except ShellError Found
  | .item _ cmds, found => processTokens cmds found

def processItems : List CaseItem → Found → Except ShellError Found
  | [], found => .ok found
  | item :: items, found => (processItem item found).bind (processItems items)

end

end Walk

section ParseShell

variable (parse : Text → Except ShellError (List Token))
  (makeWordtree : Text → List WordTree)

/-- `_parse_shell`, which is called again for the texts in a text; `depth` is
how often. -/
def parseNested : ℕ → Text → Found → Except ShellError Found
  | 0, _, _ => .error .recursionError
  | depth + 1, value, found =>
      match parse value with
      | .error error => .error error
      | .ok tokens =>
          processTokens makeWordtree (parseNested depth) tokens found

structure ShellCaches (Hash : Type) where
  shellcache : Dict Hash (List Text)
  shellcacheextras : Dict Hash (List Text)

/-- `parse_shell` of a new parser: the commands that are no functions. -/
def parseShell {Hash : Type} [DecidableEq Hash] (bbhash : Text → Hash)
    (depth : ℕ) (caches : ShellCaches Hash) (value : Text) :
    Except ShellError (List Text × ShellCaches Hash) :=
  match caches.shellcache.get? (bbhash value) with
  | some execs => .ok (execs, caches)
  | none =>
      match caches.shellcacheextras.get? (bbhash value) with
      | some execs => .ok (execs, caches)
      | none =>
          match parseNested parse makeWordtree depth value ⟨[], []⟩ with
          | .error error => .error error
          | .ok found =>
              let execs := found.allexecs.filter (· ∉ found.funcdefs)
              .ok (execs, { caches with
                shellcacheextras :=
                  caches.shellcacheextras.set (bbhash value) execs })

end ParseShell

end Nvbmc.CodeParser
