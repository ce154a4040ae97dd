import Nvbmc.CodeParser.ShellPlaces

/-!
# When all commands of a shell text are found

The walk finds the commands of a text if the substitutions are where it looks,
and if the first word of a command says what the command is.
-/

namespace Nvbmc.CodeParser

open Nvbmc.Library

section Walk

variable (makeWordtree : Text → List WordTree)
  (parseShell : Text → Found → Except ShellError Found)

mutual

theorem processToken_eq : ∀ (token : Token) (found : Found),
    processToken makeWordtree parseShell token found =
      processPlaces makeWordtree parseShell token.places found
  | .list tokens, found => by
      rw [processToken, Token.places, processTokens_eq tokens]
  | .andOr left right, found => by
      rw [processToken, Token.places, processPlaces_append,
        processToken_eq left]
      congr 1
      exact funext (processToken_eq right)
  | .async tokens, found => by
      rw [processToken, Token.places, processTokens_eq tokens]
  | .braceGroup cmds, found => by
      rw [processToken, Token.places, processTokens_eq cmds]
  | .forClause _ items cmds, found => by
      rw [processToken, Token.places, processPlaces_append,
        processTokens_eq cmds]
      congr 1
      funext found
      rw [processPlaces_singleton]
      rfl
  | .functionDefinition name body, found => by
      rw [processToken, Token.places, processToken_eq body]
      rfl
  | .ifClause cond ifCmds elseCmds, found => by
      rw [processToken, Token.places, processPlaces_append,
        processPlaces_append, processTokens_eq cond]
      congr 1
      · congr 1
        exact funext (processTokens_eq ifCmds)
      · exact funext (processElse_eq elseCmds)
  | .pipeline commands, found => by
      rw [processToken, Token.places, processTokens_eq commands]
  | .redirectList cmd redirs, found => by
      rw [processToken, Token.places, processPlaces_append, processToken_eq cmd,
        bind_processPlaces_apart]
  | .subshell cmds, found => by
      rw [processToken, Token.places, processTokens_eq cmds]
  | .whileClause condition cmds, found => by
      rw [processToken, Token.places, processPlaces_append,
        processTokens_eq condition]
      congr 1
      exact funext (processTokens_eq cmds)
  | .untilClause condition cmds, found => by
      rw [processToken, Token.places, processPlaces_append,
        processTokens_eq condition]
      congr 1
      exact funext (processTokens_eq cmds)
  | .simpleCommand words redirs assigns, found => by
      rw [processToken, Token.places, processPlaces_singleton]
      rfl
  | .caseClause name items, found => by
      rw [processToken, Token.places, processPlaces_append,
        processItems_eq items]
      congr 1
      funext found
      rw [← List.singleton_append, processPlaces_append,
        bind_processPlaces_apart, processPlaces_singleton]
      rfl

theorem processTokens_eq : ∀ (tokens : List Token) (found : Found),
    processTokens makeWordtree parseShell tokens found =
      processPlaces makeWordtree parseShell (placesOf tokens) found
  | [], found => rfl
  | token :: tokens, found => by
      rw [processTokens, placesOf, processPlaces_append, processToken_eq token]
      congr 1
      exact funext (processTokens_eq tokens)

theorem processElse_eq : ∀ (elseCmds : ElsePart) (found : Found),
    processElse makeWordtree parseShell elseCmds found =
      processPlaces makeWordtree parseShell elseCmds.places found
  | .cmds tokens, found => by
      rw [processElse, ElsePart.places, processTokens_eq tokens]
  | .elif cond ifCmds elseCmds, found => by
      rw [processElse, ElsePart.places, processPlaces_append,
        processPlaces_append, processTokens_eq cond]
      congr 1
      · congr 1
        exact funext (processTokens_eq ifCmds)
      · exact funext (processElse_eq elseCmds)

theorem processItem_eq : ∀ (item : CaseItem) (found : Found),
    processItem makeWordtree parseShell item found =
      processPlaces makeWordtree parseShell item.places found
  | .item _ cmds, found => by
      rw [processItem, CaseItem.places, processTokens_eq cmds]

theorem processItems_eq : ∀ (items : List CaseItem) (found : Found),
    processItems makeWordtree parseShell items found =
      processPlaces makeWordtree parseShell (casePlaces items) found
  | [], found => rfl
  | item :: items, found => by
      rw [processItems, casePlaces, processPlaces_append, processItem_eq item]
      congr 1
      exact funext (processItems_eq items)

end

end Walk

section Fine

variable (makeWordtree : Text → List WordTree)

/-- The substitutions of a word are at its top, or between double quotes there.
-/
def Seen (word : Text) : Prop :=
  ∀ inner ∈ substitutionsOf (makeWordtree word), inner ∈
    commandsOf (makeWordtree word)

/-- A command whose first word has a substitution: the word behind it has none,
and the command itself is not one that is found. -/
structure FineTaken (words : CommandWords) (assigns : List (Text × Text)) :
    Prop where
  next : ∀ next, (words.suffix ++ assigns.map Prod.snd).head? = some next →
    substitutionsOf (makeWordtree next) = []
  unnamed : ∀ name args, commandOf words.texts = some (name, args) →
    ¬ Place.Literal makeWordtree name ∧ name ≠ evalName

/-- A command that is looked for in the words: it has no equals sign and is
literal unless it starts with a dollar sign, and what is behind the first word
is the text that `eval` is to read. -/
structure FineKept (words : CommandWords) (assigns : List (Text × Text)) :
    Prop where
  plain : ∀ name args, commandOf words.texts = some (name, args) → '=' ∉ name ∧
    (Place.Literal makeWordtree name ↔ name.head? ≠ some '$')
  eval : ∀ args, commandOf words.texts = some (evalName, args) →
    joinWords (words.suffix ++ assigns.map Prod.snd) =
      joinWords (args.map fun arg => unquotedOf (makeWordtree arg))

/-- Assigned values whose variable has the name of a kind of words.  A value
that counts as a command has no substitution, and where no word is taken for the
command none is reached that counts as one; behind assignments a token does. -/
structure FineAssigned (words : Option CommandWords)
    (assigns : List (Text × Text)) : Prop where
  values : ∀ word ∈ assignWords assigns, word.isCommand = true →
    commandsOf (makeWordtree word.text) = []
  names : (∀ present ∈ words, commandOf present.texts = none ∨
      commandsOf (makeWordtree present.first) ≠ []) →
    ∀ word ∈ assignWords assigns, word.isCommand = false
  tokens : ∀ present ∈ words, commandOf present.texts = none →
    commandsOf (makeWordtree present.first) = [] →
      ∀ word ∈ assignWords assigns, word.label ≠ Kind.token.label

/-- A place at which all commands are found. -/
structure Fine (place : Place) : Prop where
  seen : ∀ word ∈ place.spoken, Seen makeWordtree word
  alone : ∀ word ∈ place.alone, substitutionsOf (makeWordtree word) = []
  assigned : ∀ words redirs assigns, place = .simple words redirs assigns →
    FineAssigned makeWordtree words assigns
  taken : ∀ words redirs assigns, place = .simple (some words) redirs assigns →
    commandsOf (makeWordtree words.first) ≠ [] →
      FineTaken makeWordtree words assigns
  kept : ∀ words redirs assigns, place = .simple (some words) redirs assigns →
    commandsOf (makeWordtree words.first) = [] →
      FineKept makeWordtree words assigns

end Fine

theorem substitutions_of_command? {part : WordTree} {inner : Text}
    (isCommand : part.command? = some inner) :
    part.substitutions = [inner] := by
  cases part with
  | text chars => cases isCommand
  | node opening parts closing =>
      rw [WordTree.command?] at isCommand
      split_ifs at isCommand with opens
      cases isCommand
      rw [WordTree.substitutions, if_pos opens]

theorem mem_substitutionsOf {parts : List WordTree} {inner : Text} :
    inner ∈ substitutionsOf parts ↔ ∃ part ∈ parts,
      inner ∈ part.substitutions := by
  induction parts with
  | nil => simp [substitutionsOf]
  | cons part parts induction => simp [substitutionsOf, induction]

theorem mem_substitutionsOf_of_mem_commandsOf {wtree : List WordTree}
    {inner : Text}
    (member : inner ∈ commandsOf wtree) : inner ∈ substitutionsOf wtree := by
  obtain ⟨candidate, isCandidate, isCommand⟩ := List.mem_filterMap.mp member
  obtain ⟨part, isPart, ofPart⟩ := List.mem_flatMap.mp isCandidate
  apply mem_substitutionsOf.mpr
  refine ⟨part, isPart, ?_⟩
  have inCandidate : inner ∈ candidate.substitutions := by
    rw [substitutions_of_command? isCommand]
    exact List.mem_singleton_self inner
  cases part with
  | text chars =>
      rw [WordTree.candidates, List.mem_singleton] at ofPart
      exact ofPart ▸ inCandidate
  | node opening parts closing =>
      rw [WordTree.candidates] at ofPart
      rcases List.mem_cons.mp ofPart with same | inside
      · exact same ▸ inCandidate
      · split_ifs at inside with quoted
        · rw [WordTree.substitutions, quoted, if_neg (by decide)]
          exact mem_substitutionsOf.mpr ⟨candidate, inside, inCandidate⟩
        · exact absurd inside List.not_mem_nil

theorem commandsOf_eq_nil {wtree : List WordTree}
    (none : substitutionsOf wtree = []) : commandsOf wtree = [] := by
  apply List.eq_nil_iff_forall_not_mem.mpr
  intro inner member
  have isSubstitution := mem_substitutionsOf_of_mem_commandsOf member
  rw [none] at isSubstitution
  exact List.not_mem_nil isSubstitution

structure Extends (found found' : Found) (execs funcs : Text → Prop) :
    Prop where
  execs : ∀ name, name ∈ found'.allexecs ↔ name ∈ found.allexecs ∨ execs name
  funcs : ∀ name, name ∈ found'.funcdefs ↔ name ∈ found.funcdefs ∨ funcs name

section Extends

variable {found found' found'' : Found}
  {execs execs' funcs funcs' : Text → Prop}

theorem Extends.refl (found : Found) : Extends found found (fun _ => False)
    (fun _ => False) where
  execs := fun _ => (or_false _).to_iff.symm
  funcs := fun _ => (or_false _).to_iff.symm

theorem Extends.trans (first : Extends found found' execs funcs)
    (second : Extends found' found'' execs' funcs') :
    Extends found found'' (fun name => execs name ∨ execs' name)
      (fun name => funcs name ∨ funcs' name) where
  execs := fun name => by rw [second.execs, first.execs, or_assoc]
  funcs := fun name => by rw [second.funcs, first.funcs, or_assoc]

theorem Extends.congr (extended : Extends found found' execs funcs)
    (sameExecs : ∀ name, execs name ↔ execs' name)
    (sameFuncs : ∀ name, funcs name ↔ funcs' name) :
    Extends found found' execs' funcs' where
  execs := fun name => by rw [extended.execs, sameExecs]
  funcs := fun name => by rw [extended.funcs, sameFuncs]

theorem extends_foldlM {α : Type} {step : Found → α → Except ShellError Found}
    {execsOf funcsOf : α → Text → Prop} {items : List α}
    (steps : ∀ item ∈ items, ∀ found, ∃ found', step found item = .ok found' ∧
      Extends found found' (execsOf item) (funcsOf item)) (found : Found) :
    ∃ found', items.foldlM step found = .ok found' ∧
      Extends found found' (fun name => ∃ item ∈ items, execsOf item name)
        (fun name => ∃ item ∈ items, funcsOf item name) := by
  induction items generalizing found with
  | nil => exact ⟨found, rfl, (Extends.refl found).congr (by simp) (by simp)⟩
  | cons item items induction =>
      rw [List.forall_mem_cons] at steps
      obtain ⟨next, isNext, first⟩ := steps.1 found
      obtain ⟨last, isLast, others⟩ := induction steps.2 next
      refine ⟨last, ?_, (first.trans others).congr (by simp) (by simp)⟩
      rw [List.foldlM_cons, isNext]
      exact isLast

end Extends

section Words

variable {makeWordtree : Text → List WordTree}
  {parseShell : Text → Found → Except ShellError Found}
  {execsOf funcsOf : Text → Text → Prop}

def parsedOf (makeWordtree : Text → List WordTree) (words : List Word) :
    List Text :=
  words.flatMap fun word => commandsOf (makeWordtree word.text)

theorem parsedOf_cons_of_nil {word : Word} {rest : List Word}
    (plain : commandsOf (makeWordtree word.text) = []) :
    parsedOf makeWordtree (word :: rest) = parsedOf makeWordtree rest := by
  rw [parsedOf, List.flatMap_cons, plain]
  rfl

theorem mem_parsedOf_cons {word : Word} {rest : List Word} {inner : Text}
    (member : inner ∈ parsedOf makeWordtree rest) :
    inner ∈ parsedOf makeWordtree (word :: rest) := by
  rw [parsedOf, List.flatMap_cons]
  exact List.mem_append_right _ member

/-- The nested texts are parsed as they should be. -/
def Parses (parseShell : Text → Found → Except ShellError Found)
    (execsOf funcsOf : Text → Text → Prop) (inner : Text) : Prop :=
  ∀ found, ∃ found', parseShell inner found = .ok found' ∧
    Extends found found' (execsOf inner) (funcsOf inner)

theorem removeWord_stays {word : Word} {commands : List Text}
    (stays : word.isCommand = true → commands = []) (words : List Word) :
    removeWord word commands words = words := by
  rw [removeWord]
  split_ifs with isCommand
  · rw [stays isCommand]
    rfl
  · rfl

theorem removeWord_head {word : Word} {commands : List Text} {rest : List Word}
    (isCommand : word.isCommand = true) (substitutes : commands ≠ [])
    (single : word ∉ rest) : removeWord word commands (word :: rest) =
      rest := by
  obtain ⟨command, commands, rfl⟩ := List.exists_cons_of_ne_nil substitutes
  rw [removeWord, if_pos isCommand, List.foldl_cons, List.erase_cons_head]
  induction commands with
  | nil => rfl
  | cons command commands induction =>
      rw [List.foldl_cons, List.erase_of_not_mem single]
      exact induction (List.cons_ne_nil _ _)

/-- The texts that are parsed for the words add their commands and
functions. -/
abbrev WordsExtend (makeWordtree : Text → List WordTree)
    (execsOf funcsOf : Text → Text → Prop) (words : List Word)
    (found found' : Found) : Prop :=
  Extends found found'
    (fun name => ∃ inner ∈ parsedOf makeWordtree words, execsOf inner name)
    (fun name => ∃ inner ∈ parsedOf makeWordtree words, funcsOf inner name)

theorem wordsExtend_nil (found : Found) :
    WordsExtend makeWordtree execsOf funcsOf [] found found :=
  (Extends.refl found).congr (by simp [parsedOf]) (by simp [parsedOf])

/-- The texts of the first word are parsed before those of the others. -/
theorem wordsExtend_cons {word : Word} {rest : List Word}
    (parses : ∀ inner ∈ parsedOf makeWordtree (word :: rest),
      Parses parseShell execsOf funcsOf inner) (found : Found) :
    ∃ middle, (commandsOf (makeWordtree word.text)).foldlM
        (fun found command => parseShell command found) found = .ok middle ∧
      ∀ last, WordsExtend makeWordtree execsOf funcsOf rest middle last →
        WordsExtend makeWordtree execsOf funcsOf (word :: rest) found last := by
  have parsed : parsedOf makeWordtree (word :: rest) =
      commandsOf (makeWordtree word.text) ++ parsedOf makeWordtree rest :=
    List.flatMap_cons ..
  rw [parsed, List.forall_mem_append] at parses
  obtain ⟨middle, isMiddle, first⟩ := @extends_foldlM _
    (fun found command => parseShell command found) execsOf funcsOf
    (commandsOf (makeWordtree word.text)) parses.1 found
  refine ⟨middle, isMiddle, fun last others => ?_⟩
  apply (first.trans others).congr
  · intro name
    simp [parsed, or_and_right, exists_or]
  · intro name
    simp [parsed, or_and_right, exists_or]

theorem scanWords_tokens {before rest : List Word} {left : ℕ}
    (enough : rest.length ≤ left)
    (stay : ∀ word ∈ rest, word.isCommand = true →
      commandsOf (makeWordtree word.text) = [])
    (parses : ∀ inner ∈ parsedOf makeWordtree rest,
      Parses parseShell execsOf funcsOf inner) (found : Found) :
    ∃ found', scanWords makeWordtree parseShell left before.length
        (before ++ rest) found = .ok (before ++ rest, found') ∧
      WordsExtend makeWordtree execsOf funcsOf rest found found' := by
  induction rest generalizing before left found with
  | nil =>
      refine ⟨found, ?_, wordsExtend_nil found⟩
      cases left with
      | zero => rfl
      | succ left =>
          rw [scanWords, List.append_nil, List.getElem?_eq_none le_rfl]
  | cons word rest induction =>
      cases left with
      | zero => cases enough
      | succ left =>
          rw [List.forall_mem_cons] at stay
          obtain ⟨next, isNext, extended⟩ := wordsExtend_cons parses found
          obtain ⟨last, isLast, others⟩ := @induction (before ++ [word]) left
            (Nat.le_of_succ_le_succ enough) stay.2
            (fun inner member => parses inner (mem_parsedOf_cons member)) next
          refine ⟨last, ?_, extended last others⟩
          have isWord : (before ++ word :: rest)[before.length]? =
              some word := by
            simp
          rw [scanWords, isWord]
          simp only [isNext, removeWord_stays stay.1]
          rw [List.append_assoc, List.singleton_append, List.length_append]
            at isLast
          exact isLast

theorem scanWords_kept {word : Word} {rest : List Word}
    (plain : commandsOf (makeWordtree word.text) = [])
    (stay : ∀ other ∈ rest, other.isCommand = true →
      commandsOf (makeWordtree other.text) = [])
    (parses : ∀ inner ∈ parsedOf makeWordtree rest,
      Parses parseShell execsOf funcsOf inner) (found : Found) :
    ∃ found', scanWords makeWordtree parseShell (word :: rest).length 0
        (word :: rest) found = .ok (word :: rest, found') ∧
      WordsExtend makeWordtree execsOf funcsOf rest found found' := by
  obtain ⟨last, isLast, extended⟩ := @scanWords_tokens makeWordtree parseShell
    execsOf funcsOf [word] rest rest.length le_rfl stay parses found
  refine ⟨last, ?_, extended⟩
  rw [List.length_cons, scanWords, List.getElem?_cons_zero]
  simp only [plain, removeWord_stays fun _ => rfl]
  exact isLast

theorem scanWords_taken {word : Word} {rest : List Word}
    (isCommand : word.isCommand = true)
    (substitutes : commandsOf (makeWordtree word.text) ≠ [])
    (next : ∀ other, rest.head? = some other →
      commandsOf (makeWordtree other.text) = [])
    (stay : ∀ other ∈ rest, other.isCommand = true →
      commandsOf (makeWordtree other.text) = [])
    (parses : ∀ inner ∈ parsedOf makeWordtree (word :: rest),
      Parses parseShell execsOf funcsOf inner) (found : Found) :
    ∃ found', scanWords makeWordtree parseShell (word :: rest).length 0
        (word :: rest) found = .ok (rest, found') ∧
      WordsExtend makeWordtree execsOf funcsOf (word :: rest) found found' := by
  obtain ⟨middle, isMiddle, extended⟩ := wordsExtend_cons parses found
  have later : ∃ last,
      scanWords makeWordtree parseShell rest.length 1 rest middle =
        .ok (rest, last) ∧
      WordsExtend makeWordtree execsOf funcsOf rest middle last := by
    cases rest with
    | nil => exact ⟨middle, rfl, wordsExtend_nil middle⟩
    | cons other rest =>
        simp only [WordsExtend, parsedOf_cons_of_nil (next other rfl)]
        rw [List.forall_mem_cons] at stay
        exact @scanWords_tokens makeWordtree parseShell execsOf funcsOf [other]
          rest (rest.length + 1) (Nat.le_succ _) stay.2
          (fun inner member => parses inner
            (mem_parsedOf_cons (mem_parsedOf_cons member))) middle
  obtain ⟨last, isLast, others⟩ := later
  refine ⟨last, ?_, extended last others⟩
  rw [List.length_cons, scanWords, List.getElem?_cons_zero]
  have single : word ∉ rest := fun member =>
    substitutes (stay word member isCommand)
  simp only [isMiddle, removeWord_head isCommand substitutes single]
  exact isLast

variable {words rest : List Word}

/-- The words count neither as commands nor, behind assignments, as tokens. -/
def Others (usetoken : Bool) (words : List Word) : Prop :=
  ∀ word ∈ words, word.isCommand = false ∧
    (usetoken = true → word.label ≠ Kind.token.label)

theorem takeCommand_others {usetoken : Bool} (found : Found)
    (others : Others usetoken rest) :
    takeCommand parseShell words usetoken rest found = .ok found := by
  induction rest with
  | nil => rfl
  | cons word rest induction =>
      rw [Others, List.forall_mem_cons] at others
      rw [takeCommand, others.1.1, if_neg (by simpa using others.1.2),
        induction others.2]

def takeWord (parseShell : Text → Found → Except ShellError Found)
    (words : List Word)
    (name : Text) (found : Found) : Except ShellError Found :=
  if name.head? = some '$' then .ok found
  else if name = evalName then
    parseShell (joinWords ((words.drop 1).map Word.text)) found
  else .ok { found with allexecs := name :: found.allexecs }

theorem takeCommand_cons {word : Word} {usetoken : Bool} (found : Found)
    (looked : word.isCommand = true ∨ usetoken = true ∧
      word.label = Kind.token.label) :
    takeCommand parseShell words usetoken (word :: rest) found =
      if '=' ∈ word.text then takeCommand parseShell words true rest found
      else takeWord parseShell words word.text found := by
  rw [takeCommand, if_pos (by simpa using looked)]
  rfl

theorem mem_of_isAssignment {text : Text}
    (assignment : isAssignment text = true) : '=' ∈ text := by
  rw [isAssignment, decide_eq_true_eq] at assignment
  exact assignment.1

theorem takeCommand_assignments {words others : List Word} {texts : List Text}
    (found : Found) (noWord : commandOf texts = none → Others true others)
    (plain : ∀ name args, commandOf texts = some (name, args) → '=' ∉ name) :
    takeCommand parseShell words true (tokenWords texts ++ others) found =
      match commandOf texts with
      | none => .ok found
      | some (name, _) => takeWord parseShell words name found := by
  induction texts with
  | nil => exact takeCommand_others found (noWord rfl)
  | cons text texts induction =>
      rw [tokenWords, List.map_cons, List.cons_append,
        takeCommand_cons found (.inr ⟨rfl, rfl⟩)]
      cases assignment : isAssignment text with
      | true =>
          have same : commandOf (text :: texts) = commandOf texts := by
            rw [commandOf, List.dropWhile_cons, if_pos assignment]
            rfl
          rw [same] at noWord plain ⊢
          rw [if_pos (by exact mem_of_isAssignment assignment)]
          exact induction noWord plain
      | false =>
          have isFirst : commandOf (text :: texts) = some (text, texts) := by
            rw [commandOf, List.dropWhile_cons, if_neg (by simp [assignment])]
          rw [isFirst, if_neg (by exact plain text texts isFirst)]
          rfl

theorem takeCommand_words {words : CommandWords} {others all : List Word}
    (found : Found) (noWord : commandOf words.texts = none → Others true others)
    (plain : ∀ name args, commandOf words.texts = some (name, args) →
      '=' ∉ name) :
    takeCommand parseShell all false (words.words ++ others) found =
      match commandOf words.texts with
      | none => .ok found
      | some (name, _) => takeWord parseShell all name found := by
  have isCommand : (Word.word words.kind words.first).isCommand = true := by
    rw [CommandWords.kind]
    cases words.isWord <;> rfl
  rw [CommandWords.words, List.cons_append,
    takeCommand_cons found (.inl isCommand)]
  rw [CommandWords.texts] at noWord plain ⊢
  cases assignment : isAssignment words.first with
  | true =>
      have same : commandOf (words.first :: words.suffix) =
          commandOf words.suffix := by
        rw [commandOf, List.dropWhile_cons, if_pos assignment]
        rfl
      rw [same] at noWord plain ⊢
      rw [if_pos (by exact mem_of_isAssignment assignment)]
      exact takeCommand_assignments found noWord plain
  | false =>
      have isFirst : commandOf (words.first :: words.suffix) =
          some (words.first, words.suffix) := by
        rw [commandOf, List.dropWhile_cons, if_neg (by simp [assignment])]
      rw [isFirst, if_neg (by exact plain words.first words.suffix isFirst)]
      rfl

end Words

section Places

variable {makeWordtree : Text → List WordTree}
  {parseShell : Text → Found → Except ShellError Found}
  {execsOf funcsOf : Text → Text → Prop}
  {place : Place} {words : List Word} {inner : Text}

theorem mem_parsedOf :
    inner ∈ parsedOf makeWordtree words ↔
      ∃ word ∈ words, inner ∈ commandsOf (makeWordtree word.text) :=
  List.mem_flatMap

theorem isCommand_tokenWords {texts : List Text} :
    ∀ word ∈ tokenWords texts, word.isCommand = false := by
  intro word member
  obtain ⟨text, -, same⟩ := List.mem_map.mp member
  rw [← same]
  rfl

theorem others_tokenWords {texts : List Text} :
    Others false (tokenWords texts) :=
  fun word member => ⟨isCommand_tokenWords word member, nofun⟩

theorem stay_tokenWords {texts : List Text} : ∀ word ∈ tokenWords texts,
    word.isCommand = true → commandsOf (makeWordtree word.text) = [] := by
  intro word member isCommand
  cases (isCommand_tokenWords word member).symm.trans isCommand

theorem mem_parsedOf_iff (seen : ∀ word ∈ words, Seen makeWordtree word.text) :
    inner ∈ parsedOf makeWordtree words ↔
      ∃ word ∈ words.map Word.text, inner ∈
        substitutionsOf (makeWordtree word) := by
  rw [mem_parsedOf]
  constructor
  · intro parsed
    obtain ⟨word, member, inside⟩ := parsed
    exact ⟨word.text, List.mem_map_of_mem member,
      mem_substitutionsOf_of_mem_commandsOf inside⟩
  · intro substituted
    obtain ⟨text, member, inside⟩ := substituted
    obtain ⟨word, isWord, same⟩ := List.mem_map.mp member
    exact ⟨word, isWord, seen word isWord inner (same ▸ inside)⟩

theorem map_text_tokenWords (texts : List Text) :
    (tokenWords texts).map Word.text = texts := by
  rw [tokenWords, List.map_map]
  exact List.map_id texts

theorem map_text_assignWords (assigns : List (Text × Text)) :
    (assignWords assigns).map Word.text = assigns.map Prod.snd := by
  rw [assignWords, List.map_map]
  rfl

theorem map_text_words (words : CommandWords) :
    words.words.map Word.text = words.texts := by
  rw [CommandWords.words, List.map_cons, map_text_tokenWords]
  rfl

theorem map_text_commandWords (words : Option CommandWords)
    (redirs : List Redirect) (assigns : List (Text × Text)) :
    (commandWords words assigns).map Word.text =
      (Place.simple words redirs assigns).spoken := by
  rw [commandWords, List.map_append, map_text_assignWords]
  cases words with
  | none => rfl
  | some words => exact congrArg (· ++ _) (map_text_words words)

/-- A nested text of a fine place stands in a word, or is that of `eval`. -/
theorem nested_iff (fine : Fine makeWordtree place) :
    place.Nested makeWordtree inner ↔
      (∃ word ∈ place.spoken, inner ∈ substitutionsOf (makeWordtree word)) ∨
      ∃ args, place.command = some (evalName, args) ∧
        inner = joinWords
          (args.map fun arg => unquotedOf (makeWordtree arg)) := by
  constructor
  · intro nested
    cases nested with
    | substituted isWord inside =>
        rcases List.mem_append.mp isWord with spoken | alone
        · exact .inl ⟨_, spoken, inside⟩
        · rw [fine.alone _ alone] at inside
          exact absurd inside List.not_mem_nil
    | eval isEval => exact .inr ⟨_, isEval, rfl⟩
  · intro nested
    rcases nested with ⟨word, spoken, inside⟩ | ⟨args, isEval, same⟩
    · exact .substituted (List.mem_append_left _ spoken) inside
    · exact same ▸ .eval isEval

theorem nested_iff_parsed (fine : Fine makeWordtree place)
    (same : words.map Word.text = place.spoken) :
    place.Nested makeWordtree inner ↔ inner ∈ parsedOf makeWordtree words ∨
      ∃ args, place.command = some (evalName, args) ∧
        inner = joinWords
          (args.map fun arg => unquotedOf (makeWordtree arg)) := by
  have seen : ∀ word ∈ words, Seen makeWordtree word.text := by
    intro word member
    exact fine.seen _ (same ▸ List.mem_map_of_mem member)
  rw [mem_parsedOf_iff seen, same, nested_iff fine]

theorem defined_of_command {command : Text × List Text}
    (isCommand : place.command = some command) : place.defined = none := by
  cases place with
  | function name => cases isCommand
  | _ => rfl

/-- What a place adds: its own command or function, and those of the texts
nested in it. -/
def PlaceExecs (makeWordtree : Text → List WordTree)
    (execsOf : Text → Text → Prop) (place : Place) (name : Text) : Prop :=
  place.Calls makeWordtree name ∨ ∃ inner, place.Nested makeWordtree inner ∧
    execsOf inner name

def PlaceFuncs (makeWordtree : Text → List WordTree)
    (funcsOf : Text → Text → Prop) (place : Place) (name : Text) : Prop :=
  place.defined = some name ∨ ∃ inner, place.Nested makeWordtree inner ∧
    funcsOf inner name

/-- The place is processed, and adds its commands and functions. -/
abbrev Processed (makeWordtree : Text → List WordTree)
    (parseShell : Text → Found → Except ShellError Found)
    (execsOf funcsOf : Text → Text → Prop) (place : Place) (found : Found) :
    Prop :=
  ∃ found', processPlace makeWordtree parseShell found place = .ok found' ∧
    Extends found found' (PlaceExecs makeWordtree execsOf place)
      (PlaceFuncs makeWordtree funcsOf place)

theorem extends_of_noCommand {found found' : Found}
    (fine : Fine makeWordtree place)
    (noCommand : ∀ name args, place.command = some (name, args) →
      ¬ Place.Literal makeWordtree name ∧ name ≠ evalName) (noFunction :
        place.defined = none)
    (same : words.map Word.text = place.spoken)
    (extended : WordsExtend makeWordtree execsOf funcsOf words found found') :
    Extends found found' (PlaceExecs makeWordtree execsOf place)
      (PlaceFuncs makeWordtree funcsOf place) := by
  have nested : ∀ inner, place.Nested makeWordtree inner ↔
      inner ∈ parsedOf makeWordtree words := by
    intro inner
    rw [nested_iff_parsed fine same]
    apply or_iff_left
    rintro ⟨args, isEval, -⟩
    exact (noCommand _ _ isEval).2 rfl
  apply extended.congr
  · intro name
    have noCall : ¬ place.Calls makeWordtree name := by
      intro calls
      obtain ⟨⟨args, isCommand⟩, literal, -⟩ := calls
      exact (noCommand name args isCommand).1 literal
    simp [PlaceExecs, nested, noCall]
  · intro name
    simp [PlaceFuncs, nested, noFunction]

theorem nested_of_mem_parsedOf
    (same : words.map Word.text = place.spoken)
    (parsed : inner ∈ parsedOf makeWordtree words) :
    place.Nested makeWordtree inner := by
  obtain ⟨word, member, inside⟩ := mem_parsedOf.mp parsed
  have spoken : word.text ∈ place.spoken := same ▸ List.mem_map_of_mem member
  exact .substituted (List.mem_append_left _ spoken)
    (mem_substitutionsOf_of_mem_commandsOf inside)

theorem processWords_of {words rest : List Word} {found middle last : Found}
    (scanned : scanWords makeWordtree parseShell words.length 0 words found =
      .ok (rest, middle))
    (taken : takeCommand parseShell rest false rest middle = .ok last) :
    processWords makeWordtree parseShell words found = .ok last := by
  rw [processWords, scanned]
  exact taken

theorem processPlace_items {texts : List Text}
    (fine : Fine makeWordtree (.items texts))
    (parses : ∀ inner, (Place.items texts).Nested makeWordtree inner →
      Parses parseShell execsOf funcsOf inner) (found : Found) :
    Processed makeWordtree parseShell execsOf funcsOf
      (.items texts) found := by
  have same : (tokenWords texts).map Word.text = (Place.items texts).spoken :=
    map_text_tokenWords texts
  obtain ⟨last, isLast, extended⟩ :=
    @scanWords_tokens makeWordtree parseShell execsOf funcsOf
    [] (tokenWords texts) _ le_rfl stay_tokenWords
    (fun inner parsed => parses inner (nested_of_mem_parsedOf same parsed))
    found
  refine ⟨last,
    processWords_of isLast (takeCommand_others last others_tokenWords), ?_⟩
  apply extends_of_noCommand fine _ rfl same extended
  intro name args isCommand
  cases isCommand

theorem extends_of_silent {found found' : Found} {funcs : Text → Prop}
    (fine : Fine makeWordtree place) (silent : place.spoken = [])
    (noCommand : place.command = none)
    (sameFuncs : ∀ name, funcs name ↔ place.defined = some name)
    (extended : Extends found found' (fun _ => False) funcs) :
    Extends found found' (PlaceExecs makeWordtree execsOf place)
      (PlaceFuncs makeWordtree funcsOf place) := by
  have noNested : ∀ inner, ¬ place.Nested makeWordtree inner := by
    intro inner nested
    rcases (nested_iff fine).mp nested with ⟨word, spoken, -⟩ |
      ⟨args, isEval, -⟩
    · rw [silent] at spoken
      exact List.not_mem_nil spoken
    · cases noCommand.symm.trans isEval
  apply extended.congr
  · simp [PlaceExecs, Place.Calls, noNested, noCommand]
  · simp [PlaceFuncs, noNested, sameFuncs]

theorem processPlace_assigns {redirs : List Redirect}
    {assigns : List (Text × Text)}
    (fine : Fine makeWordtree (.simple none redirs assigns))
    (parses : ∀ inner, (Place.simple none redirs assigns).Nested makeWordtree
      inner → Parses parseShell execsOf funcsOf inner) (found : Found) :
    Processed makeWordtree parseShell execsOf funcsOf
      (.simple none redirs assigns) found := by
  have same := map_text_commandWords none redirs assigns
  have assigned := fine.assigned none redirs assigns rfl
  have others : Others false (assignWords assigns) := fun word member =>
    ⟨assigned.names nofun word member, nofun⟩
  obtain ⟨last, isLast, extended⟩ :=
    @scanWords_tokens makeWordtree parseShell execsOf funcsOf
    [] (assignWords assigns) _ le_rfl assigned.values
    (fun inner parsed => parses inner (nested_of_mem_parsedOf same parsed))
    found
  refine ⟨last, processWords_of isLast (takeCommand_others last others), ?_⟩
  apply extends_of_noCommand fine _ rfl same extended
  intro name args isCommand
  cases isCommand

section Simple

variable {words : CommandWords} {redirs : List Redirect}
  {assigns : List (Text × Text)}

theorem stay_behind
    (fine : Fine makeWordtree (.simple (some words) redirs assigns)) :
    ∀ word ∈ tokenWords words.suffix ++ assignWords assigns,
      word.isCommand = true → commandsOf (makeWordtree word.text) = [] :=
  List.forall_mem_append.mpr ⟨stay_tokenWords,
    (fine.assigned (some words) redirs assigns rfl).values⟩

theorem processPlace_taken
    (fine : Fine makeWordtree (.simple (some words) redirs assigns))
    (parses : ∀ inner, (Place.simple (some words) redirs assigns).Nested
      makeWordtree inner → Parses parseShell execsOf funcsOf inner)
    (substitutes : commandsOf (makeWordtree words.first) ≠ []) (found : Found) :
    Processed makeWordtree parseShell execsOf funcsOf
      (.simple (some words) redirs assigns) found := by
  have same := map_text_commandWords (some words) redirs assigns
  have taken := fine.taken words redirs assigns rfl substitutes
  have isCommand : (Word.word words.kind words.first).isCommand = true := by
    rw [CommandWords.kind]
    cases words.isWord <;> rfl
  have next : ∀ other, (tokenWords words.suffix ++ assignWords assigns).head? =
      some other → commandsOf (makeWordtree other.text) = [] := by
    intro other isNext
    apply commandsOf_eq_nil
    apply taken.next other.text
    rw [← map_text_tokenWords
      words.suffix, ← map_text_assignWords, ← List.map_append,
      List.head?_map, isNext]
    rfl
  obtain ⟨last, isLast, extended⟩ :=
    @scanWords_taken makeWordtree parseShell execsOf funcsOf
    (.word words.kind words.first)
    (tokenWords words.suffix ++ assignWords assigns) isCommand
    substitutes next (stay_behind fine)
    (fun inner parsed => parses inner (nested_of_mem_parsedOf same parsed))
    found
  have others :
      Others false (tokenWords words.suffix ++ assignWords assigns) := by
    refine List.forall_mem_append.mpr ⟨others_tokenWords, fun word member => ?_⟩
    refine ⟨(fine.assigned (some words) redirs assigns rfl).names ?_ word
      member, nofun⟩
    rintro _ ⟨⟩
    exact .inr substitutes
  refine ⟨last, processWords_of isLast (takeCommand_others last others), ?_⟩
  exact extends_of_noCommand fine taken.unnamed rfl same extended

variable {args : List Text}

/-- The parsed texts and that of `eval` are the nested ones. -/
theorem extends_of_eval {found found' : Found} {listed : List Word}
    (fine : Fine makeWordtree place)
    (isCommand : place.command = some (evalName, args))
    (same : listed.map Word.text = place.spoken)
    (extended : Extends found found'
      (fun name =>
        (∃ inner ∈ parsedOf makeWordtree listed, execsOf inner name) ∨
        execsOf (joinWords (args.map fun arg => unquotedOf (makeWordtree arg)))
          name)
      (fun name =>
        (∃ inner ∈ parsedOf makeWordtree listed, funcsOf inner name) ∨
        funcsOf (joinWords (args.map fun arg => unquotedOf (makeWordtree arg)))
          name)) :
    Extends found found' (PlaceExecs makeWordtree execsOf place)
      (PlaceFuncs makeWordtree funcsOf place) := by
  have nested : ∀ inner, place.Nested makeWordtree inner ↔
      inner ∈ parsedOf makeWordtree listed ∨
        inner = joinWords
          (args.map fun arg => unquotedOf (makeWordtree arg)) := by
    intro inner
    rw [nested_iff_parsed fine same, isCommand]
    simp
  have noFunction := defined_of_command isCommand
  apply extended.congr
  · intro name
    have noCall : ¬ place.Calls makeWordtree name := by
      intro calls
      obtain ⟨⟨others, isOther⟩, -, notEval⟩ := calls
      cases isCommand.symm.trans isOther
      exact notEval rfl
    simp [PlaceExecs, nested, noCall, or_and_right, exists_or]
  · intro name
    simp [PlaceFuncs, nested, noFunction, or_and_right, exists_or]

theorem extends_of_named {found found' : Found} {listed : List Word}
    {name : Text} (fine : Fine makeWordtree place)
    (isCommand : place.command = some (name, args))
    (literal : Place.Literal makeWordtree name) (notEval : name ≠ evalName)
    (same : listed.map Word.text = place.spoken)
    (extended : WordsExtend makeWordtree execsOf funcsOf listed found found') :
    Extends found { found' with allexecs := name :: found'.allexecs }
      (PlaceExecs makeWordtree execsOf place)
      (PlaceFuncs makeWordtree funcsOf place) := by
  have nested : ∀ inner, place.Nested makeWordtree inner ↔
      inner ∈ parsedOf makeWordtree listed := by
    intro inner
    rw [nested_iff_parsed fine same, isCommand]
    simp [notEval]
  have noFunction := defined_of_command isCommand
  have calls : ∀ other, place.Calls makeWordtree other ↔ other = name := by
    intro other
    constructor
    · intro called
      obtain ⟨⟨others, isOther⟩, -⟩ := called
      cases isCommand.symm.trans isOther
      rfl
    · intro same
      exact same ▸ ⟨⟨args, isCommand⟩, literal, notEval⟩
  constructor
  · intro other
    rw [List.mem_cons, extended.execs]
    simp only [PlaceExecs, calls, nested]
    tauto
  · intro other
    rw [extended.funcs]
    simp [PlaceFuncs, nested, noFunction]

theorem processPlace_kept
    (fine : Fine makeWordtree (.simple (some words) redirs assigns))
    (parses : ∀ inner, (Place.simple (some words) redirs assigns).Nested
      makeWordtree inner → Parses parseShell execsOf funcsOf inner)
    (whole : commandsOf (makeWordtree words.first) = []) (found : Found) :
    Processed makeWordtree parseShell execsOf funcsOf
      (.simple (some words) redirs assigns) found := by
  have same := map_text_commandWords (some words) redirs assigns
  have kept := fine.kept words redirs assigns rfl whole
  have assigned := fine.assigned (some words) redirs assigns rfl
  have noWord (noCommand : commandOf words.texts = none) :
      Others true (assignWords assigns) := by
    intro word member
    refine ⟨assigned.names ?_ word member,
      fun _ => assigned.tokens words rfl noCommand whole word member⟩
    rintro _ ⟨⟩
    exact .inl noCommand
  have parsed : parsedOf makeWordtree (commandWords (some words) assigns) =
      parsedOf makeWordtree (tokenWords words.suffix ++ assignWords assigns) :=
    parsedOf_cons_of_nil whole
  obtain ⟨middle, isMiddle, extended⟩ :=
    @scanWords_kept makeWordtree parseShell execsOf funcsOf
    (.word words.kind words.first)
    (tokenWords words.suffix ++ assignWords assigns) whole
    (stay_behind fine)
    (fun inner inside =>
      parses inner (nested_of_mem_parsedOf same (parsed ▸ inside))) found
  rw [WordsExtend, ← parsed] at extended
  have isTaken := @takeCommand_words parseShell words (assignWords assigns)
    (commandWords (some words) assigns) middle noWord
    (fun name args isCommand =>
      (kept.plain name args isCommand).1)
  cases isCommand : commandOf words.texts with
  | none =>
      rw [isCommand] at isTaken
      refine ⟨middle, processWords_of isMiddle isTaken, ?_⟩
      apply extends_of_noCommand fine _ rfl same extended
      intro name args isSome
      cases isCommand.symm.trans isSome
  | some command =>
      obtain ⟨name, args⟩ := command
      rw [isCommand] at isTaken
      change _ = takeWord parseShell _ name middle at isTaken
      rw [takeWord] at isTaken
      have literal := (kept.plain name args isCommand).2
      by_cases isDollar : name.head? = some '$'
      · rw [if_pos isDollar] at isTaken
        refine ⟨middle, processWords_of isMiddle isTaken, ?_⟩
        apply extends_of_noCommand fine _ rfl same extended
        intro other others isOther
        cases isCommand.symm.trans isOther
        refine ⟨fun isLiteral => literal.mp isLiteral isDollar, ?_⟩
        intro isEval
        rw [isEval] at isDollar
        cases isDollar
      · rw [if_neg isDollar] at isTaken
        by_cases isEval : name = evalName
        · rw [if_pos isEval] at isTaken
          rw [isEval] at isCommand
          have behind : ((commandWords (some words) assigns).drop 1).map
              Word.text = words.suffix ++ assigns.map Prod.snd := by
            show (tokenWords words.suffix ++ assignWords assigns).map
              Word.text = _
            rw [List.map_append, map_text_tokenWords, map_text_assignWords]
          rw [behind, kept.eval args isCommand] at isTaken
          obtain ⟨last, isLast, evaluated⟩ := parses _ (.eval isCommand) middle
          refine ⟨last, processWords_of isMiddle (isTaken.trans isLast), ?_⟩
          exact extends_of_eval fine isCommand same (extended.trans evaluated)
        · rw [if_neg isEval] at isTaken
          refine ⟨_, processWords_of isMiddle isTaken, ?_⟩
          exact extends_of_named fine isCommand (literal.mpr isDollar) isEval
            same extended

end Simple

theorem processPlace_fine (fine : Fine makeWordtree place)
    (parses : ∀ inner, place.Nested makeWordtree inner →
      Parses parseShell execsOf funcsOf inner) (found : Found) :
    ∃ found', processPlace makeWordtree parseShell found place = .ok found' ∧
      Extends found found' (PlaceExecs makeWordtree execsOf place)
        (PlaceFuncs makeWordtree funcsOf place) := by
  cases place with
  | simple words redirs assigns =>
      cases words with
      | none => exact processPlace_assigns fine parses found
      | some words =>
          by_cases whole : commandsOf (makeWordtree words.first) = []
          · exact processPlace_kept fine parses whole found
          · exact processPlace_taken fine parses whole found
  | items texts => exact processPlace_items fine parses found
  | function name =>
      refine ⟨_, rfl, extends_of_silent fine rfl rfl (fun _ => Iff.rfl) ?_⟩
      constructor
      · simp
      · intro other
        simp [Place.defined, or_comm, eq_comm]
  | apart texts =>
      refine ⟨_, rfl, extends_of_silent fine rfl rfl (fun _ => ?_)
        (Extends.refl found)⟩
      simp [Place.defined]

end Places

end Nvbmc.CodeParser
