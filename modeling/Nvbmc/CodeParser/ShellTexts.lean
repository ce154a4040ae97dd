import Nvbmc.CodeParser.ShellCommands

/-!
# The commands of whole shell texts

Texts are parsed one after the other, with what was found kept under the hash of
the text.  The cache `shellcache` comes from earlier processes and is only read.
-/

namespace Nvbmc.CodeParser

open Nvbmc.Library

section Texts

variable {parse : Text → Except ShellError (List Token)}
  {makeWordtree : Text → List WordTree}

theorem parseNested_fine {depth : ℕ} {text : Text} (deep : text.length < depth)
    (readable : Readable parse makeWordtree text)
    (fine : ∀ inner, Within parse makeWordtree text inner → ∀ place,
      PlaceOf parse inner place → Fine makeWordtree place) :
    Parses (parseNested parse makeWordtree depth) (Called parse makeWordtree)
      (Defined parse makeWordtree) text := by
  induction depth generalizing text with
  | zero => exact absurd deep (Nat.not_lt_zero _)
  | succ depth induction =>
      intro found
      obtain ⟨tokens, isParsed⟩ := readable.parsed text .refl
      have isPlace : ∀ place, PlaceOf parse text place ↔
          place ∈ placesOf tokens := by
        intro place
        constructor
        · intro ofText
          obtain ⟨others, isOthers, member⟩ := ofText
          cases isParsed.symm.trans isOthers
          exact member
        · exact fun member => ⟨tokens, isParsed, member⟩
      have parses : ∀ place ∈ placesOf tokens, ∀ inner,
          place.Nested makeWordtree inner →
          Parses (parseNested parse makeWordtree depth)
            (Called parse makeWordtree) (Defined parse makeWordtree) inner := by
        intro place member inner nested
        have isNested : NestedIn parse makeWordtree text inner :=
          ⟨place, (isPlace place).mpr member, nested⟩
        have shorter := readable.shorter text inner .refl isNested
        exact induction (by omega) (readable.nested isNested)
          (fun other within => fine other (.head isNested within))
      obtain ⟨last, isLast, extended⟩ :=
        extends_foldlM (fun place member found =>
        processPlace_fine (fine text .refl place ((isPlace place).mpr member))
          (parses place member) found) found
      refine ⟨last, ?_, extended.congr ?_ ?_⟩
      · rw [parseNested, isParsed]
        exact (processTokens_eq makeWordtree _ tokens found).trans isLast
      · intro name
        rw [called_iff]
        simp only [NestedIn, isPlace, PlaceExecs]
        constructor
        · intro added
          obtain ⟨place, member, calls | ⟨inner, nested, called⟩⟩ := added
          · exact .inl ⟨place, member, calls⟩
          · exact .inr ⟨inner, ⟨place, member, nested⟩, called⟩
        · intro called
          rcases called with ⟨place, member, calls⟩ |
            ⟨inner, ⟨place, member, nested⟩, called⟩
          · exact ⟨place, member, .inl calls⟩
          · exact ⟨place, member, .inr ⟨inner, nested, called⟩⟩
      · intro name
        rw [defined_iff]
        simp only [NestedIn, isPlace, PlaceFuncs]
        constructor
        · intro added
          obtain ⟨place, member, defines | ⟨inner, nested, defined⟩⟩ := added
          · exact .inl ⟨place, member, defines⟩
          · exact .inr ⟨inner, ⟨place, member, nested⟩, defined⟩
        · intro defined
          rcases defined with ⟨place, member, defines⟩ |
            ⟨inner, ⟨place, member, nested⟩, defined⟩
          · exact ⟨place, member, .inl defines⟩
          · exact ⟨place, member, .inr ⟨inner, nested, defined⟩⟩

variable {Hash : Type} [DecidableEq Hash] {bbhash : Text → Hash} {depth : ℕ}

/-- What is stored for the hash of a text is what is found for it. -/
def ShellCaches.Honest (parse : Text → Except ShellError (List Token))
    (makeWordtree : Text → List WordTree) (bbhash : Text → Hash) (depth : ℕ)
    (caches : ShellCaches Hash) : Prop :=
  ∀ text execs, caches.shellcache.get? (bbhash text) = some execs ∨
      caches.shellcacheextras.get? (bbhash text) = some execs →
    ∃ found, parseNested parse makeWordtree depth text ⟨[], []⟩ = .ok found ∧
      execs = found.allexecs.filter (· ∉ found.funcdefs)

variable {caches : ShellCaches Hash}

theorem ShellCaches.honest_empty :
    (⟨[], []⟩ : ShellCaches Hash).Honest parse makeWordtree bbhash depth := by
  rintro text execs (known | known) <;> cases known

theorem parseShell_of_honest
    (honest : caches.Honest parse makeWordtree bbhash depth) (value : Text) :
    (parseShell parse makeWordtree bbhash depth caches value).map Prod.fst =
      (parseNested parse makeWordtree depth value ⟨[], []⟩).map
        fun found => found.allexecs.filter (· ∉ found.funcdefs) := by
  rw [parseShell]
  split
  · next execs stored =>
    obtain ⟨found, isFound, rfl⟩ := honest value execs (.inl stored)
    rw [isFound]
    rfl
  · split
    · next execs stored =>
      obtain ⟨found, isFound, rfl⟩ := honest value execs (.inr stored)
      rw [isFound]
      rfl
    · cases parseNested parse makeWordtree depth value ⟨[], []⟩ <;> rfl

theorem parseShell_honest {caches' : ShellCaches Hash} {value : Text}
    {execs : List Text} (injective : Function.Injective bbhash)
    (honest : caches.Honest parse makeWordtree bbhash depth)
    (returned : parseShell parse makeWordtree bbhash depth caches value =
      .ok (execs, caches')) :
    caches'.Honest parse makeWordtree bbhash depth := by
  rw [parseShell] at returned
  cases stored : caches.shellcache.get? (bbhash value) with
  | some known =>
      rw [stored] at returned
      cases returned
      exact honest
  | none =>
      simp only [stored] at returned
      split at returned
      · cases returned
        exact honest
      · cases isFound : parseNested parse makeWordtree depth value ⟨[], []⟩ with
        | error error =>
            simp only [isFound] at returned
            cases returned
        | ok found =>
            simp only [isFound] at returned
            cases returned
            intro text execs' known
            by_cases same : text = value
            · rw [same] at known ⊢
              refine ⟨found, isFound, ?_⟩
              rcases known with known | known
              · cases stored.symm.trans known
              · exact (Option.some.inj
                  ((Dict.get?_set_self _ _ _).symm.trans known)).symm
            · apply honest text execs'
              rcases known with known | known
              · exact .inl known
              · rw [Dict.get?_set_of_ne _ _ fun sameHash =>
                  same (injective sameHash)] at known
                exact .inr known

/-- The caches after texts have been parsed, some of them perhaps in vain. -/
def parseAll (parse : Text → Except ShellError (List Token))
    (makeWordtree : Text → List WordTree) (bbhash : Text → Hash) (depth : ℕ)
    (caches : ShellCaches Hash) : List Text → ShellCaches Hash
  | [] => caches
  | text :: texts =>
      match parseShell parse makeWordtree bbhash depth caches text with
      | .error _ => parseAll parse makeWordtree bbhash depth caches texts
      | .ok (_, caches) => parseAll parse makeWordtree bbhash depth caches texts

theorem honest_parseAll (injective : Function.Injective bbhash)
    (honest : caches.Honest parse makeWordtree bbhash depth)
    (texts : List Text) :
    (parseAll parse makeWordtree bbhash depth caches texts).Honest
      parse makeWordtree bbhash depth := by
  induction texts generalizing caches with
  | nil => exact honest
  | cons text texts induction =>
      rw [parseAll]
      cases returned : parseShell parse makeWordtree bbhash depth caches
        text with
      | error error => exact induction honest
      | ok result =>
          exact induction (parseShell_honest injective honest returned)

/-- The commands of a text of fine places: those that are called anywhere in it
and not defined as functions, with any caches and after any texts were parsed
before it. -/
theorem parseShell_of_fine (parse : Text → Except ShellError (List Token))
    (makeWordtree : Text → List WordTree) (bbhash : Text → Hash) (depth : ℕ)
    (caches : ShellCaches Hash) (earlier : List Text) (value : Text)
    (injective : Function.Injective bbhash)
    (honest : caches.Honest parse makeWordtree bbhash depth)
    (deep : value.length < depth) (readable : Readable parse makeWordtree value)
    (fine : ∀ inner, Within parse makeWordtree value inner →
      ∀ place, PlaceOf parse inner place → Fine makeWordtree place) :
    ∃ execs after, parseShell parse makeWordtree bbhash depth
        (parseAll parse makeWordtree bbhash depth caches earlier) value =
          .ok (execs, after) ∧
      ∀ name, name ∈ execs ↔ Called parse makeWordtree value name ∧
        ¬ Defined parse makeWordtree value name := by
  obtain ⟨found, isFound, extended⟩ :=
    parseNested_fine deep readable fine ⟨[], []⟩
  have returns := parseShell_of_honest
    (honest_parseAll injective honest earlier) value
  rw [isFound] at returns
  cases returned : parseShell parse makeWordtree bbhash depth
    (parseAll parse makeWordtree bbhash depth caches earlier) value with
  | error error =>
      rw [returned] at returns
      cases returns
  | ok result =>
      rw [returned] at returns
      obtain ⟨execs, after⟩ := result
      cases returns
      refine ⟨_, after, rfl, fun name => ?_⟩
      rw [List.mem_filter, decide_eq_true_eq, extended.execs, extended.funcs]
      simp

/-- With any caches, and after other texts, with results and errors, a text
gives what it gives by itself. -/
theorem parseShell_cached (injective : Function.Injective bbhash)
    (honest : caches.Honest parse makeWordtree bbhash depth)
    (earlier : List Text) (value : Text) :
    (parseShell parse makeWordtree bbhash depth
        (parseAll parse makeWordtree bbhash depth caches earlier) value).map
          Prod.fst =
      (parseShell parse makeWordtree bbhash depth ⟨[], []⟩ value).map
        Prod.fst :=
  (parseShell_of_honest (honest_parseAll injective honest earlier) value).trans
    (parseShell_of_honest ShellCaches.honest_empty value).symm

end Texts

section Sample

def sampleWords (text : Text) : List Text :=
  if text = "$(a) $(b)".toList then ["$(a)".toList, "$(b)".toList]
  else if text = "ls $(a)".toList then ["ls".toList, "$(a)".toList]
  else [text]

def sampleShell (text : Text) : Except ShellError (List Token) :=
  .ok [.list [.pipeline [.simpleCommand
    (some ⟨false, (sampleWords text).headI, (sampleWords text).tail⟩) [] []]]]

def sampleTree (word : Text) : List WordTree :=
  if word = "$(a)".toList then [.node "$(".toList [.text "a".toList] ")".toList]
  else if word = "$(b)".toList then
    [.node "$(".toList [.text "b".toList] ")".toList]
  else [.text word]

def samplePlace (text : Text) : Place :=
  .simple (some ⟨false, (sampleWords text).headI, (sampleWords text).tail⟩) []
    []

variable {text : Text}

theorem placeOf_sample {place : Place} :
    PlaceOf sampleShell text place ↔ place = samplePlace text := by
  constructor
  · intro isPlace
    obtain ⟨tokens, parsed, member⟩ := isPlace
    cases parsed
    rw [samplePlace]
    simpa [placesOf, Token.places] using member
  · intro same
    exact ⟨_, rfl, by simp [same, placesOf, Token.places, samplePlace]⟩

/-- A text of one word, which is the command. -/
structure Single (text : Text) : Prop where
  words : sampleWords text = [text]
  tree : sampleTree text = [.text text]
  command : commandOf [text] = some (text, [])
  notEval : text ≠ evalName
  plain : '=' ∉ text ∧ text.head? ≠ some '$'

theorem single_a : Single "a".toList := by
  constructor <;> first | rfl | decide

theorem single_b : Single "b".toList := by
  constructor <;> first | rfl | decide

theorem Single.place (single : Single text) :
    samplePlace text = .simple (some ⟨false, text, []⟩) [] [] := by
  rw [samplePlace, single.words]
  rfl

theorem Single.not_nested {text inner : Text} (single : Single text) :
    ¬ NestedIn sampleShell sampleTree text inner := by
  intro nestedIn
  obtain ⟨place, isPlace, nested⟩ := nestedIn
  rw [placeOf_sample.mp isPlace, single.place] at nested
  cases nested with
  | substituted isWord inside =>
      rw [List.mem_singleton.mp isWord, single.tree] at inside
      exact List.not_mem_nil inside
  | eval isEval =>
      cases single.command.symm.trans isEval
      exact single.notEval rfl

theorem Single.literal (single : Single text) :
    Place.Literal sampleTree text := by
  intro part member
  rw [single.tree, List.mem_singleton] at member
  rw [member]
  rfl

theorem fineAssigned_nil (words : Option CommandWords) :
    FineAssigned sampleTree words [] := by
  constructor <;> simp [assignWords]

theorem Single.fine (single : Single text) :
    Fine sampleTree (samplePlace text) := by
  rw [single.place]
  constructor
  · intro word member inner inside
    rw [List.mem_singleton.mp member, single.tree] at inside
    exact absurd inside List.not_mem_nil
  · intro word member
    exact absurd member List.not_mem_nil
  · intro words redirs assigns same
    cases same
    exact fineAssigned_nil _
  · intro words redirs assigns same substitutes
    cases same
    rw [single.tree] at substitutes
    exact absurd rfl substitutes
  · intro words redirs assigns same whole
    cases same
    constructor
    · intro name args isCommand
      cases single.command.symm.trans isCommand
      exact ⟨single.plain.1, fun _ => single.plain.2, fun _ => single.literal⟩
    · intro args isEval
      cases single.command.symm.trans isEval
      exact absurd rfl single.notEval

def sampleText : Text :=
  "ls $(a)".toList

theorem nested_sampleText {inner : Text}
    (nestedIn : NestedIn sampleShell sampleTree sampleText inner) :
    inner = "a".toList := by
  obtain ⟨place, isPlace, nested⟩ := nestedIn
  rw [placeOf_sample.mp isPlace] at nested
  cases nested with
  | @substituted word _ isWord inside =>
      have listed : word ∈ ["ls".toList, "$(a)".toList] := isWord
      rcases List.mem_pair.mp listed with same | same
      · rw [same] at inside
        exact absurd inside List.not_mem_nil
      · rw [same] at inside
        exact List.mem_singleton.mp inside
  | eval isEval => cases isEval

theorem within_sampleText {inner : Text}
    (within : Within sampleShell sampleTree sampleText inner) :
    inner = sampleText ∨ inner = "a".toList := by
  rcases within_iff.mp within with same | ⟨next, nested, within⟩
  · exact .inl same.symm
  · rw [nested_sampleText nested] at within
    rcases within_iff.mp within with same | ⟨other, nested, -⟩
    · exact .inr same.symm
    · exact absurd nested single_a.not_nested

theorem readable_sampleText : Readable sampleShell sampleTree sampleText where
  parsed := fun _ _ => ⟨_, rfl⟩
  shorter := by
    intro outer inner within nested
    rcases within_sampleText within with same | same
    · rw [same] at nested ⊢
      rw [nested_sampleText nested]
      decide
    · rw [same] at nested
      exact absurd nested single_a.not_nested

theorem fine_sampleText : Fine sampleTree (samplePlace sampleText) := by
  constructor
  · intro word member inner inside
    have listed : word ∈ ["ls".toList, "$(a)".toList] := member
    rcases List.mem_pair.mp listed with same | same
    · rw [same] at inside
      exact absurd inside List.not_mem_nil
    · rw [same] at inside ⊢
      exact inside
  · intro word member
    exact absurd member List.not_mem_nil
  · intro words redirs assigns same
    cases same
    exact fineAssigned_nil _
  · intro words redirs assigns same substitutes
    cases same
    exact absurd rfl substitutes
  · intro words redirs assigns same whole
    cases same
    constructor
    · intro name args isCommand
      cases isCommand
      refine ⟨by decide, fun _ => by decide, fun _ part member => ?_⟩
      rw [List.mem_singleton.mp member]
      rfl
    · intro args isEval
      cases isEval

def sampleShellCaches : ShellCaches Text :=
  ⟨[(sampleText, ["ls".toList, "a".toList])], []⟩

theorem honest_sampleShellCaches :
    sampleShellCaches.Honest sampleShell sampleTree id 8 := by
  rintro text execs (known | known)
  · obtain ⟨rfl, rfl⟩ : text = sampleText ∧
        execs = ["ls".toList, "a".toList] := by
      simpa [sampleShellCaches, Dict.get?, eq_comm] using known
    exact ⟨_, rfl, rfl⟩
  · cases known

/-- The text is answered from `shellcache`, after another one. -/
theorem parseShell_sampleText :
    ∃ execs after, parseShell sampleShell sampleTree id 8
        (parseAll sampleShell sampleTree id 8 sampleShellCaches ["a".toList])
        sampleText = .ok (execs, after) ∧
      ∀ name, name ∈ execs ↔ Called sampleShell sampleTree sampleText name ∧
        ¬ Defined sampleShell sampleTree sampleText name := by
  apply parseShell_of_fine sampleShell sampleTree id 8 sampleShellCaches
    ["a".toList] sampleText Function.injective_id honest_sampleShellCaches
  · decide
  · exact readable_sampleText
  · intro inner within place isPlace
    rw [placeOf_sample.mp isPlace]
    rcases within_sampleText within with same | same
    · rw [same]
      exact fine_sampleText
    · rw [same]
      exact single_a.fine

/-- A command that is substituted, with a second substitution behind it. -/
def skippedText : Text :=
  "$(a) $(b)".toList

theorem nested_skippedText {inner : Text} :
    NestedIn sampleShell sampleTree skippedText inner ↔
      inner = "a".toList ∨ inner = "b".toList := by
  constructor
  · intro nestedIn
    obtain ⟨place, isPlace, nested⟩ := nestedIn
    rw [placeOf_sample.mp isPlace] at nested
    cases nested with
    | @substituted word _ isWord inside =>
        have listed : word ∈ ["$(a)".toList, "$(b)".toList] := isWord
        rcases List.mem_pair.mp listed with same | same
        · rw [same] at inside
          exact .inl (List.mem_singleton.mp inside)
        · rw [same] at inside
          exact .inr (List.mem_singleton.mp inside)
    | eval isEval => cases isEval
  · intro isInner
    refine ⟨_, placeOf_sample.mpr rfl, ?_⟩
    rcases isInner with same | same
    · rw [same]
      exact @Place.Nested.substituted _ _ "$(a)".toList _ List.mem_cons_self
        (List.mem_singleton_self _)
    · rw [same]
      exact @Place.Nested.substituted _ _ "$(b)".toList _
        (.tail _ List.mem_cons_self) (List.mem_singleton_self _)

theorem readable_skippedText : Readable sampleShell sampleTree skippedText where
  parsed := fun _ _ => ⟨_, rfl⟩
  shorter := by
    intro outer inner within nested
    have single : ∀ text, text = "a".toList ∨ text = "b".toList →
        Single text := by
      intro text isText
      rcases isText with same | same
      · exact same ▸ single_a
      · exact same ▸ single_b
    rcases within_iff.mp within with same | ⟨next, first, within⟩
    · rw [← same] at nested ⊢
      rcases nested_skippedText.mp nested with isInner | isInner
      · rw [isInner]
        decide
      · rw [isInner]
        decide
    · have isNext := single next (nested_skippedText.mp first)
      rcases within_iff.mp within with same | ⟨other, later, -⟩
      · exact absurd nested (same ▸ isNext.not_nested)
      · exact absurd later isNext.not_nested

theorem called_skippedText :
    Called sampleShell sampleTree skippedText "b".toList := by
  refine ⟨"b".toList, .single (nested_skippedText.mpr (.inr rfl)),
    samplePlace "b".toList, placeOf_sample.mpr rfl, ?_⟩
  rw [single_b.place]
  exact ⟨⟨[], single_b.command⟩, single_b.literal, single_b.notEval⟩

theorem parseShell_cached_sample :
    (parseShell sampleShell sampleTree id 8
        (parseAll sampleShell sampleTree id 8 sampleShellCaches ["a".toList])
        sampleText).map Prod.fst =
      (parseShell sampleShell sampleTree id 8 ⟨[], []⟩ sampleText).map
        Prod.fst :=
  parseShell_cached Function.injective_id honest_sampleShellCaches _ _

/-- The second substitution is not looked at. -/
theorem not_parseShell_skipped :
    ¬ ∀ (parse : Text → Except ShellError (List Token))
      (makeWordtree : Text → List WordTree) (bbhash : Text → Text) (depth : ℕ)
      (caches : ShellCaches Text)
      (earlier : List Text) (value : Text), Function.Injective bbhash →
      caches.Honest parse makeWordtree bbhash depth →
      value.length < depth → Readable parse makeWordtree value →
      ∃ execs after, parseShell parse makeWordtree bbhash depth
          (parseAll parse makeWordtree bbhash depth caches earlier) value =
            .ok (execs, after) ∧
        ∀ name, name ∈ execs ↔
          Called parse makeWordtree value name ∧
            ¬ Defined parse makeWordtree value name := by
  intro found
  obtain ⟨execs, after, returned, complete⟩ :=
    found sampleShell sampleTree id 10
    ⟨[], []⟩ [] skippedText Function.injective_id ShellCaches.honest_empty
    (by decide) readable_skippedText
  have isExecs : execs = ["a".toList] := by
    have returns : parseShell sampleShell sampleTree id 10 ⟨[], []⟩
        skippedText =
        .ok (["a".toList], ⟨[], [(skippedText, ["a".toList])]⟩) := rfl
    cases returns.symm.trans returned
    rfl
  have notDefined : ¬ Defined sampleShell sampleTree skippedText
      "b".toList := by
    intro defined
    obtain ⟨inner, within, place, isPlace, isDefined⟩ := defined
    rw [placeOf_sample.mp isPlace] at isDefined
    cases isDefined
  have isFound := (complete "b".toList).mpr ⟨called_skippedText, notDefined⟩
  rw [isExecs, List.mem_singleton] at isFound
  cases isFound

end Sample

end Nvbmc.CodeParser
