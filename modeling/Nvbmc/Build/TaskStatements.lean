import Nvbmc.Build.Tasks
import Nvbmc.Library.Split

/-!
# Task statements

The feeder of the recipe parser splits what follows `addtask` at " before " and
at " after ", and the nodes of the statements call `addtask` and `deltask`.
-/

namespace Nvbmc.Build

open Nvbmc.Library

def setvarKeywords : List Text :=
  [":append".toList, ":prepend".toList, ":remove".toList]

/-- Group 1 of `keyword\s+([^#\n]+)(?P<comment>#.*|.*?)`. -/
def taskGroup (keyword s : Text) : Option Text :=
  if keyword <+: s then
    let rest := s.drop keyword.length
    let blanks := rest.takeWhile isspace
    let group := (rest.dropWhile isspace).takeWhile fun char => char ≠
      '#' && char ≠ '\n'
    if blanks = [] then none
    else if group ≠ [] then some group
    -- one of the blanks is left to the group
    else (blanks.tail.filter (· ≠ '\n')).getLast?.map ([·])
  else none

/-- The pieces behind the first one, for each piece of the other kind, joined
one to the other. -/
def gathered (outer inner group : Text) : Text :=
  ((splitText outer group).map fun exp =>
    joinWords (splitText inner exp).tail).flatten

structure AddTaskNode where
  tasks : Text
  before : Text
  after : Text

inductive TaskNode where
  | addTask (node : AddTaskNode)
  | delTask (tasks : Text)

/-- The statement on a line, if it is one of the two; a name with a keyword in
it is an error. -/
def feeder (s : Text) : Except Text (Option TaskNode) :=
  match taskGroup "addtask".toList s with
  | some group =>
      let tasks := (splitText " after ".toList
        ((splitText " before ".toList group).headD [])).headD []
      let after := gathered " before ".toList " after ".toList group
      let before := gathered " after ".toList " before ".toList group
      match (words s).find? fun te =>
        setvarKeywords.any fun keyword => keyword ++ ['_'] <:+: te with
      | some te => .error te
      | none => .ok (some (.addTask ⟨tasks, before, after⟩))
  | none =>
      match taskGroup "deltask".toList s with
      | some group => .ok (some (.delTask group))
      | none => .ok none

/-- `eval` of the nodes. -/
def TaskNode.eval (expand : Text → Text) (d : TaskData) : TaskNode → TaskData
  | .addTask node =>
      (words node.tasks).foldl
        (fun d task => d.addtask task (some node.before) (some node.after)) d
  | .delTask tasks => (words (expand tasks)).foldl TaskData.deltask d

def evaluate (expand : Text → Text) (d : TaskData) (line : Text) :
    Except Text TaskData :=
  (feeder line).map fun node => node.elim d (TaskNode.eval expand d)

inductive Kind where
  | after
  | before
  deriving DecidableEq

def Kind.word : Kind → Text
  | .after => "after".toList
  | .before => "before".toList

structure Clause where
  kind : Kind
  names : List Text

inductive Statement where
  | addtask (tasks : List Text) (clauses : List Clause)
  | deltask (tasks : List Text)

def clauseWords (clauses : List Clause) : List Text :=
  clauses.flatMap fun clause => clause.kind.word :: clause.names

def Statement.line : Statement → Text
  | .addtask tasks clauses =>
      joinWords ("addtask".toList :: (tasks ++ clauseWords clauses))
  | .deltask tasks => joinWords ("deltask".toList :: tasks)

/-- A word that is a name of a task wherever it stands, and nothing else. -/
structure IsName (name : Text) : Prop where
  word : IsWord name
  notKind : ∀ kind : Kind, name ≠ kind.word
  noComment : '#' ∉ name
  literal : '$' ∉ name
  /-- The line is not taken for the start of a function, nor does it go on. -/
  noFunction : name.head? ≠ some '('
  noContinuation : name.getLast? ≠ some '\\'
  noKeyword : ∀ keyword ∈ setvarKeywords, ¬ keyword ++ ['_'] <:+: name

structure AreNames (names : List Text) : Prop where
  nonempty : names ≠ []
  areNames : ∀ name ∈ names, IsName name

def Statement.Valid : Statement → Prop
  | .addtask tasks clauses =>
      AreNames tasks ∧ ∀ clause ∈ clauses, AreNames clause.names
  | .deltask tasks => AreNames tasks

/-- The clauses of one kind end sections: the names that come first, and the
clauses after. -/
def sections (kind : Kind) (head : List Text) (inner : List Clause) :
    List Clause → List (List Text × List Clause)
  | [] => [(head, inner)]
  | clause :: clauses =>
      if clause.kind = kind then
        (head, inner) :: sections kind clause.names [] clauses
      else sections kind head (inner ++ [clause]) clauses

def Kind.separator (kind : Kind) : Text :=
  ' ' :: kind.word ++ [' ']

section Split

variable {kind other : Kind} {head names : List Text} {word : Text}
  {clause : Clause} {inner clauses : List Clause} {rest : Text}

theorem Kind.isWord (kind : Kind) : IsWord kind.word := by
  cases kind with
  | after => exact .of_all (List.cons_ne_nil _ _) (by decide)
  | before => exact .of_all (List.cons_ne_nil _ _) (by decide)

theorem Kind.word_injective (same : kind.word = other.word) : kind = other := by
  cases kind <;> cases other <;> first | rfl | exact absurd same (by decide)

theorem eq_of_append_blank {first second tail : Text} (unblank : ' ' ∉ first)
    (unblank' : ' ' ∉ second) (ends : rest = [] ∨ rest.head? = some ' ')
    (same : first ++ ' ' :: tail = second ++ rest) : first = second := by
  induction first generalizing second with
  | nil =>
      cases second with
      | nil => rfl
      | cons char second =>
          have isChar := (List.cons.inj same).1
          rw [← isChar] at unblank'
          exact absurd List.mem_cons_self unblank'
  | cons char first induction =>
      cases second with
      | nil =>
          rcases ends with empty | isBlank
          · rw [empty] at same
            cases same
          · have isChar : rest.head? = some char := by
              rw [← List.nil_append rest, ← same]
              rfl
            have blank := Option.some.inj (isChar.symm.trans isBlank)
            rw [blank] at unblank
            exact absurd List.mem_cons_self unblank
      | cons char' second =>
          obtain ⟨isChar, tails⟩ := List.cons.inj same
          rw [isChar, induction (fun member => unblank (.tail _ member))
            (fun member => unblank' (.tail _ member)) tails]

theorem not_mem_blank (isWord : IsWord word) : ' ' ∉ word := by
  intro member
  exact absurd (isWord.unblank ' ' member) (by decide)

theorem splitText_word (isWord : IsWord word) :
    splitText kind.separator (word ++ rest) =
    (splitText kind.separator rest).modifyHead (word ++ ·) := by
  apply splitText_append
  intro behind nonempty isSuffix isPrefix
  obtain ⟨char, more, isCons⟩ := List.exists_cons_of_ne_nil nonempty
  rw [isCons] at isPrefix isSuffix
  have isBlank : ' ' = char := (List.cons_prefix_cons.mp isPrefix).1
  have inWord : char ∈ word := isSuffix.subset List.mem_cons_self
  rw [← isBlank] at inWord
  exact not_mem_blank isWord inWord

theorem splitText_blank (isWord : IsWord word) (different : word ≠ kind.word)
    (ends : rest = [] ∨ rest.head? = some ' ') :
    splitText kind.separator (' ' :: (word ++ rest)) =
      (splitText kind.separator rest).modifyHead (' ' :: word ++ ·) := by
  have apart : ¬ kind.separator <+: ' ' :: (word ++ rest) := by
    intro isPrefix
    obtain ⟨tail, isTail⟩ := (List.cons_prefix_cons.mp isPrefix).2
    apply different
    symm
    apply @eq_of_append_blank rest kind.word word tail
      (not_mem_blank kind.isWord) (not_mem_blank isWord) ends
    rw [← isTail]
    simp
  rw [splitText_cons apart, splitText_word isWord]
  generalize splitText kind.separator rest = pieces
  cases pieces with
  | nil => rfl
  | cons piece pieces => rfl

theorem joinWords_eq (word : Text) (names : List Text) :
    joinWords (word :: names) = word ++ names.flatMap (' ' :: ·) := by
  induction names generalizing word with
  | nil => simp [joinWords]
  | cons name names induction =>
      rw [joinWords_cons (List.cons_ne_nil _ _), induction]
      rfl

theorem head?_flatMap_blank (ends : rest = [] ∨ rest.head? = some ' ') :
    names.flatMap (' ' :: ·) ++ rest = [] ∨
      (names.flatMap (' ' :: ·) ++ rest).head? = some ' ' := by
  cases names with
  | nil => exact ends
  | cons name names => exact .inr rfl

theorem splitText_blanks (areWords : ∀ word ∈ names, IsWord word)
    (different : ∀ word ∈ names, word ≠ kind.word)
    (ends : rest = [] ∨ rest.head? = some ' ') :
    splitText kind.separator (names.flatMap (' ' :: ·) ++ rest) =
      (splitText kind.separator rest).modifyHead
        (names.flatMap (' ' :: ·) ++ ·) := by
  induction names with
  | nil =>
      rw [List.flatMap_nil, List.nil_append]
      generalize splitText kind.separator rest = pieces
      cases pieces with
      | nil => rfl
      | cons piece pieces => rfl
  | cons name names induction =>
      have further :=
        induction (fun other member => areWords other (.tail _ member))
        (fun other member => different other (.tail _ member))
      have blank :=
        @splitText_blank kind name (names.flatMap (' ' :: ·) ++ rest)
        (areWords name List.mem_cons_self) (different name List.mem_cons_self)
        (head?_flatMap_blank ends)
      rw [List.flatMap_cons, List.cons_append, List.cons_append,
        List.append_assoc, blank, further]
      generalize splitText kind.separator rest = pieces
      cases pieces with
      | nil => rfl
      | cons piece pieces => simp

theorem splitText_joinWords (nonempty : head ≠ [])
    (areWords : ∀ word ∈ head, IsWord word)
    (different : ∀ word ∈ head, word ≠ kind.word)
    (ends : rest = [] ∨ rest.head? = some ' ') :
    splitText kind.separator (joinWords head ++ rest) =
      (splitText kind.separator rest).modifyHead (joinWords head ++ ·) := by
  obtain ⟨word, names, isCons⟩ := List.exists_cons_of_ne_nil nonempty
  subst isCons
  rw [joinWords_eq, List.append_assoc,
    splitText_word (areWords word List.mem_cons_self),
    splitText_blanks (fun other member => areWords other (.tail _ member))
      (fun other member => different other (.tail _ member)) ends]
  generalize splitText kind.separator rest = pieces
  cases pieces with
  | nil => rfl
  | cons piece pieces => simp

theorem isWord_of_mem_clauseWords
    (valid : ∀ clause ∈ clauses, AreNames clause.names) :
    ∀ word ∈ clauseWords clauses, IsWord word := by
  intro word member
  obtain ⟨clause, isClause, inside⟩ := List.mem_flatMap.mp member
  rcases List.mem_cons.mp inside with isKind | isName
  · rw [isKind]
    exact clause.kind.isWord
  · exact ((valid clause isClause).areNames word isName).word

theorem ne_of_mem_clauseWords
    (valid : ∀ clause ∈ clauses, AreNames clause.names)
    (apart : ∀ clause ∈ clauses, clause.kind ≠ kind) :
    ∀ word ∈ clauseWords clauses, word ≠ kind.word := by
  intro word member
  obtain ⟨clause, isClause, inside⟩ := List.mem_flatMap.mp member
  rcases List.mem_cons.mp inside with isKind | isName
  · rw [isKind]
    intro same
    exact apart clause isClause (Kind.word_injective same)
  · exact ((valid clause isClause).areNames word isName).notKind kind

/-- What is between two separators. -/
structure IsSection (kind : Kind) (head : List Text) (inner : List Clause) :
    Prop where
  head : AreNames head
  valid : ∀ clause ∈ inner, AreNames clause.names
  apart : ∀ clause ∈ inner, clause.kind ≠ kind

namespace IsSection

variable (isSection : IsSection kind head inner)
include isSection

theorem concat (valid : AreNames clause.names)
    (apart : clause.kind ≠ kind) : IsSection kind head (inner ++ [clause]) := by
  constructor
  · exact isSection.head
  · intro other member
    rcases List.mem_append.mp member with isInner | isLast
    · exact isSection.valid other isInner
    · rw [List.mem_singleton.mp isLast]
      exact valid
  · intro other member
    rcases List.mem_append.mp member with isInner | isLast
    · exact isSection.apart other isInner
    · rw [List.mem_singleton.mp isLast]
      exact apart

theorem nonempty : head ++ clauseWords inner ≠ [] := by
  intro empty
  exact isSection.head.nonempty (List.append_eq_nil_iff.mp empty).1

theorem splitText_eq (ends : rest = [] ∨ rest.head? = some ' ') :
    splitText kind.separator (joinWords (head ++ clauseWords inner) ++ rest) =
      (splitText kind.separator rest).modifyHead
        (joinWords (head ++ clauseWords inner) ++ ·) := by
  apply splitText_joinWords isSection.nonempty _ _ ends
  · intro word member
    rcases List.mem_append.mp member with isHead | isInner
    · exact (isSection.head.areNames word isHead).word
    · exact isWord_of_mem_clauseWords isSection.valid word isInner
  · intro word member
    rcases List.mem_append.mp member with isHead | isInner
    · exact (isSection.head.areNames word isHead).notKind kind
    · exact ne_of_mem_clauseWords isSection.valid isSection.apart word isInner

end IsSection

theorem clauseWords_append : clauseWords (inner ++ clauses) =
    clauseWords inner ++ clauseWords clauses :=
  List.flatMap_append

theorem joinWords_clause (nonempty : head ++ clauseWords inner ≠ [])
    (names : clause.names ≠ []) :
    joinWords (head ++ clauseWords (inner ++ clause :: clauses)) =
      joinWords (head ++ clauseWords inner) ++ (clause.kind.separator ++
        joinWords (clause.names ++ clauseWords clauses)) := by
  have more : clause.names ++ clauseWords clauses ≠ [] := by
    intro empty
    exact names (List.append_eq_nil_iff.mp empty).1
  have isClause : clauseWords (clause :: clauses) =
      clause.kind.word :: (clause.names ++ clauseWords clauses) := rfl
  rw [clauseWords_append, ← List.append_assoc, isClause,
    joinWords_append nonempty (List.cons_ne_nil _ _), joinWords_cons more,
    Kind.separator]
  simp

theorem splitText_sections (isSection : IsSection kind head inner)
    (valid : ∀ clause ∈ clauses, AreNames clause.names) :
    splitText kind.separator
      (joinWords (head ++ clauseWords (inner ++ clauses))) =
      (sections kind head inner clauses).map fun part =>
        joinWords (part.1 ++ clauseWords part.2) := by
  induction clauses generalizing head inner with
  | nil =>
      have whole :=
        @IsSection.splitText_eq kind head inner [] isSection (.inl rfl)
      rw [List.append_nil] at whole
      rw [List.append_nil, whole, sections]
      simp [splitText_nil]
  | cons clause clauses induction =>
      obtain ⟨here, later⟩ := List.forall_mem_cons.mp valid
      rw [sections]
      split_ifs with isKind
      · have further :=
          @induction clause.names [] ⟨here, by simp, by simp⟩ later
        rw [List.nil_append] at further
        rw [joinWords_clause isSection.nonempty here.nonempty, isKind,
          isSection.splitText_eq (.inr rfl),
          splitText_separator (by simp [Kind.separator]),
          further]
        simp
      · have further := induction (isSection.concat here isKind) later
        rw [List.append_assoc, List.singleton_append] at further
        exact further

/-- The clauses of a kind are next to each other, and so are those of the other
kind. -/
def Grouped (clauses : List Clause) : Prop :=
  ∃ kind front back, clauses = front ++ back ∧
    (∀ clause ∈ front, clause.kind = kind) ∧ ∀ clause ∈ back, clause.kind ≠ kind

def collected (kind : Kind) (head : List Text) (inner clauses : List Clause) :
    Text :=
  ((sections kind head inner clauses).map fun part =>
    joinWords (part.2.flatMap Clause.names)).flatten

theorem collected_of_apart (apart : ∀ clause ∈ clauses, clause.kind ≠ kind) :
    collected kind head inner clauses =
      joinWords ((inner ++ clauses).flatMap Clause.names) := by
  induction clauses generalizing inner with
  | nil => simp [collected, sections]
  | cons clause clauses induction =>
      obtain ⟨here, later⟩ := List.forall_mem_cons.mp apart
      have further := @induction (inner ++ [clause]) later
      rw [List.append_assoc, List.singleton_append] at further
      rw [← further, collected, sections, if_neg here]
      rfl

theorem collected_cons (isKind : clause.kind = kind) :
    collected kind head inner (clause :: clauses) =
      joinWords (inner.flatMap Clause.names) ++ collected kind clause.names []
        clauses := by
  rw [collected, sections, if_pos isKind]
  rfl

theorem collected_of_same (same : ∀ clause ∈ clauses, clause.kind = kind) :
    collected kind head inner clauses =
      joinWords (inner.flatMap Clause.names) := by
  induction clauses generalizing head inner with
  | nil => simp [collected, sections]
  | cons clause clauses induction =>
      obtain ⟨here, later⟩ := List.forall_mem_cons.mp same
      rw [collected_cons here, induction later]
      simp [joinWords]

theorem collected_append (apart : ∀ clause ∈ clauses, clause.kind ≠ kind)
    (more : List Clause) : collected kind head inner (clauses ++ more) =
      collected kind head (inner ++ clauses) more := by
  induction clauses generalizing inner with
  | nil => rw [List.append_nil, List.nil_append]
  | cons clause clauses induction =>
      obtain ⟨here, later⟩ := List.forall_mem_cons.mp apart
      have further := @induction (inner ++ [clause]) later
      rw [List.append_assoc, List.singleton_append] at further
      rw [← further, List.cons_append, collected, sections, if_neg here]
      rfl

theorem collected_same_append (same : ∀ clause ∈ inner, clause.kind = kind)
    (apart : ∀ clause ∈ clauses, clause.kind ≠ kind) :
    collected kind head [] (inner ++ clauses) =
      joinWords (clauses.flatMap Clause.names) := by
  induction inner generalizing head with
  | nil => exact collected_of_apart apart
  | cons clause inner induction =>
      obtain ⟨here, later⟩ := List.forall_mem_cons.mp same
      rw [List.cons_append, collected_cons here, induction later]
      simp [joinWords]

theorem collected_of_grouped (grouped : Grouped clauses) :
    collected kind head [] clauses =
    joinWords ((clauses.filter fun clause => clause.kind ≠ kind).flatMap
      Clause.names) := by
  obtain ⟨first, front, back, split, same, apart⟩ := grouped
  have inFront : ∀ clause ∈ front, (clause.kind ≠ kind ↔ first ≠ kind) := by
    intro clause member
    rw [same clause member]
  by_cases isKind : first = kind
  · subst isKind
    rw [split, collected_same_append same apart, List.filter_append,
      List.filter_eq_nil_iff.mpr (by simpa using same),
      List.filter_eq_self.mpr (by simpa using apart), List.nil_append]
  · have other : ∀ clause ∈ back, clause.kind = kind := by
      intro clause member
      have notFirst := apart clause member
      generalize clause.kind = third at notFirst
      cases first <;> cases kind <;> cases third <;> first | rfl | contradiction
    rw [split, collected_append
      (fun clause member => (inFront clause member).mpr isKind),
      List.nil_append, collected_of_same other, List.filter_append,
      List.filter_eq_self.mpr (by simpa [isKind] using inFront),
      List.filter_eq_nil_iff.mpr (by simpa using other), List.append_nil]

theorem joinWords_map_joinWords {parts : List (List Text)}
    (nonempty : ∀ part ∈ parts, part ≠ []) :
    joinWords (parts.map joinWords) = joinWords parts.flatten := by
  induction parts with
  | nil => rfl
  | cons part parts induction =>
      obtain ⟨here, later⟩ := List.forall_mem_cons.mp nonempty
      have others := induction later
      cases parts with
      | nil => simp [joinWords_singleton]
      | cons other parts =>
          have more : (other :: parts).flatten ≠ [] := by
            intro empty
            exact later other List.mem_cons_self
              (List.append_eq_nil_iff.mp empty).1
          have isFlat : (part :: other :: parts).flatten =
              part ++ (other :: parts).flatten := rfl
          rw [List.map_cons, joinWords_cons (by simp), others, isFlat,
            joinWords_append here more]

theorem isSection_of_mem_sections (isSection : IsSection kind head inner)
    (valid : ∀ clause ∈ clauses, AreNames clause.names) :
    ∀ part ∈ sections kind head inner clauses,
      IsSection kind part.1 part.2 := by
  induction clauses generalizing head inner with
  | nil =>
      intro part member
      rw [List.mem_singleton.mp member]
      exact isSection
  | cons clause clauses induction =>
      obtain ⟨here, later⟩ := List.forall_mem_cons.mp valid
      rw [sections]
      split_ifs with isKind
      · intro part member
        rcases List.mem_cons.mp member with isFirst | isLater
        · rw [isFirst]
          exact isSection
        · exact induction ⟨here, by simp, by simp⟩ later part isLater
      · exact induction (isSection.concat here isKind) later

theorem sections_of_same (same : ∀ clause ∈ clauses, clause.kind = kind) :
    sections kind head inner clauses =
      (head, inner) :: clauses.map fun clause => (clause.names, []) := by
  induction clauses generalizing head inner with
  | nil => rfl
  | cons clause clauses induction =>
      obtain ⟨here, later⟩ := List.forall_mem_cons.mp same
      rw [sections, if_pos here, induction later]
      rfl

theorem Kind.eq_of_ne_of_ne {third : Kind} (first : kind ≠ other)
    (second : third ≠ kind) : third = other := by
  cases kind <;> cases other <;> cases third <;> first | rfl | contradiction

theorem splitText_section (different : kind ≠ other)
    (isSection : IsSection kind head inner) :
    splitText other.separator (joinWords (head ++ clauseWords inner)) =
      joinWords head :: inner.map fun clause => joinWords clause.names := by
  have same : ∀ clause ∈ inner, clause.kind = other := by
    intro clause member
    exact Kind.eq_of_ne_of_ne different (isSection.apart clause member)
  have split :=
    @splitText_sections other head [] inner ⟨isSection.head, by simp, by simp⟩
    isSection.valid
  rw [List.nil_append, sections_of_same same] at split
  rw [split]
  simp [clauseWords, Function.comp_def]

theorem gathered_eq (different : kind ≠ other) (areHead : AreNames head)
    (valid : ∀ clause ∈ clauses, AreNames clause.names) :
    gathered kind.separator other.separator
      (joinWords (head ++ clauseWords clauses)) =
      collected kind head [] clauses := by
  have isFirst : IsSection kind head [] := ⟨areHead, by simp, by simp⟩
  have split := splitText_sections isFirst valid
  rw [List.nil_append] at split
  rw [gathered, split, collected, List.map_map]
  apply congrArg List.flatten
  apply List.map_congr_left
  intro part member
  have isSection := isSection_of_mem_sections isFirst valid part member
  have flat := @joinWords_map_joinWords (part.2.map Clause.names) (by
    intro names isNames
    obtain ⟨clause, isClause, isThese⟩ := List.mem_map.mp isNames
    rw [← isThese]
    exact (isSection.valid clause isClause).nonempty)
  rw [Function.comp_apply, splitText_section different isSection,
    List.tail_cons]
  rw [List.map_map] at flat
  exact flat

theorem head_sections : ∃ inner' parts,
    sections kind head inner clauses = (head, inner') :: parts := by
  induction clauses generalizing inner with
  | nil => exact ⟨inner, [], rfl⟩
  | cons clause clauses induction =>
      rw [sections]
      split_ifs
      · exact ⟨inner, _, rfl⟩
      · exact induction

theorem tasks_eq (areHead : AreNames head)
    (valid : ∀ clause ∈ clauses, AreNames clause.names) :
    (splitText Kind.after.separator ((splitText Kind.before.separator
      (joinWords (head ++ clauseWords clauses))).headD [])).headD [] =
        joinWords head := by
  have isFirst : IsSection .before head [] := ⟨areHead, by simp, by simp⟩
  have split := splitText_sections isFirst valid
  obtain ⟨inner, parts, isCons⟩ := @head_sections .before head [] clauses
  have isSection := isSection_of_mem_sections isFirst valid (head, inner)
    (isCons ▸ List.mem_cons_self)
  rw [List.nil_append, isCons] at split
  rw [split, List.map_cons, List.headD_cons,
    splitText_section (by decide) isSection, List.headD_cons]

theorem taskGroup_eq {keyword : Text} (nonempty : names ≠ [])
    (areWords : ∀ word ∈ names, IsWord word)
    (noComment : ∀ word ∈ names, '#' ∉ word) :
    taskGroup keyword (keyword ++ ' ' :: joinWords names) =
      some (joinWords names) := by
  obtain ⟨word, more, isCons⟩ := List.exists_cons_of_ne_nil nonempty
  have isWord := areWords word (isCons ▸ List.mem_cons_self)
  obtain ⟨char, chars, isChars⟩ := List.exists_cons_of_ne_nil isWord.nonempty
  obtain ⟨rest, begins⟩ : ∃ rest, joinWords names = char :: rest := by
    rw [isCons, joinWords_eq, isChars]
    exact ⟨_, rfl⟩
  have notBlank : isspace char = false :=
    isWord.unblank char (isChars ▸ List.mem_cons_self)
  have whole : (joinWords names).takeWhile (fun char => char ≠ '#' && char ≠
      '\n') = joinWords names := by
    apply List.takeWhile_eq_self_iff.mpr
    intro char member
    rcases mem_intercalate member with isBlank | ⟨name, isName, inside⟩
    · rw [isBlank]
      decide
    · have notComment : char ≠ '#' :=
        fun same => noComment name isName (same ▸ inside)
      have notEnd : char ≠ '\n' := by
        intro same
        have unblank := (areWords name isName).unblank char inside
        rw [same] at unblank
        exact absurd unblank (by decide)
      simp [notComment, notEnd]
  have blanks : (' ' :: joinWords names).takeWhile isspace = [' '] := by
    rw [begins, List.takeWhile_cons_of_pos (by decide),
      List.takeWhile_cons_of_neg (by simp [notBlank])]
  have behind : (' ' :: joinWords names).dropWhile isspace =
      joinWords names := by
    rw [begins, List.dropWhile_cons_of_pos (by decide),
      List.dropWhile_cons_of_neg (by simp [notBlank])]
  rw [taskGroup, if_pos (List.prefix_append _ _), List.drop_left]
  dsimp only
  rw [blanks, behind, whole, if_neg (List.cons_ne_nil _ _), if_pos]
  rw [begins]
  exact List.cons_ne_nil _ _

end Split

def Statement.names : Statement → List Text
  | .addtask tasks clauses => tasks ++ clauseWords clauses
  | .deltask tasks => tasks

variable {statement : Statement}

theorem Statement.word_of_mem_names (valid : statement.Valid) :
    ∀ word ∈ statement.names, IsWord word ∧ '#' ∉ word ∧
      ∀ keyword ∈ setvarKeywords, ¬ keyword ++ ['_'] <:+: word := by
  have name : ∀ word, IsName word → IsWord word ∧ '#' ∉ word ∧
      ∀ keyword ∈ setvarKeywords, ¬ keyword ++ ['_'] <:+: word :=
    fun word isName => ⟨isName.word, isName.noComment, isName.noKeyword⟩
  intro word member
  cases statement with
  | deltask tasks => exact name word (valid.areNames word member)
  | addtask tasks clauses =>
      rcases List.mem_append.mp member with isTask | isClause
      · exact name word (valid.1.areNames word isTask)
      · obtain ⟨clause, among, inside⟩ := List.mem_flatMap.mp isClause
        rcases List.mem_cons.mp inside with isKind | isName
        · rw [isKind]
          cases clause.kind
          · exact ⟨Kind.after.isWord, by decide, by decide⟩
          · exact ⟨Kind.before.isWord, by decide, by decide⟩
        · exact name word ((valid.2 clause among).areNames word isName)

theorem Statement.names_ne_nil (valid : statement.Valid) :
    statement.names ≠ [] := by
  cases statement with
  | deltask tasks => exact valid.nonempty
  | addtask tasks clauses =>
      intro empty
      exact valid.1.nonempty (List.append_eq_nil_iff.mp empty).1

def Statement.node : Statement → TaskNode
  | .addtask tasks clauses =>
      .addTask ⟨joinWords tasks, collected .after tasks [] clauses,
        collected .before tasks [] clauses⟩
  | .deltask tasks => .delTask (joinWords tasks)

theorem feeder_line (valid : statement.Valid) :
    feeder statement.line = .ok (some statement.node) := by
  have areWords := Statement.word_of_mem_names valid
  have nonempty := Statement.names_ne_nil valid
  have noComment : ∀ word ∈ statement.names, '#' ∉ word :=
    fun word member => (areWords word member).2.1
  have isGroup : ∀ keyword,
      taskGroup keyword (keyword ++ ' ' :: joinWords statement.names) =
      some (joinWords statement.names) :=
    fun keyword =>
      taskGroup_eq nonempty (fun word member => (areWords word member).1)
        noComment
  cases statement with
  | deltask tasks =>
      have isLine : (Statement.deltask tasks).line =
          "deltask".toList ++ ' ' :: joinWords tasks := joinWords_cons nonempty
      have notAdd : taskGroup "addtask".toList (Statement.deltask tasks).line =
          none := by
        rw [isLine, taskGroup, if_neg]
        intro isPrefix
        cases (List.cons_prefix_cons.mp isPrefix).1
      have isDel : taskGroup "deltask".toList (Statement.deltask tasks).line =
          some (joinWords tasks) := by
        rw [isLine]
        exact isGroup _
      rw [feeder, notAdd]
      dsimp only
      rw [isDel]
      rfl
  | addtask tasks clauses =>
      have isLine : (Statement.addtask tasks clauses).line =
          "addtask".toList ++ ' ' :: joinWords (tasks ++ clauseWords clauses) :=
        joinWords_cons nonempty
      have isAdd : taskGroup "addtask".toList
          (Statement.addtask tasks clauses).line =
          some (joinWords (tasks ++ clauseWords clauses)) := by
        rw [isLine]
        exact isGroup _
      have areItsWords : words (Statement.addtask tasks clauses).line =
          "addtask".toList :: (tasks ++ clauseWords clauses) := by
        apply words_joinWords
        intro word member
        rcases List.mem_cons.mp member with isKeyword | isName
        · rw [isKeyword]
          exact .of_all (List.cons_ne_nil _ _) (by decide)
        · exact (areWords word isName).1
      have noKeyword : (words (Statement.addtask tasks clauses).line).find?
          (fun te =>
          setvarKeywords.any fun keyword => keyword ++ ['_'] <:+: te) =
            none := by
        rw [areItsWords, List.find?_eq_none]
        intro word member
        simp only [List.any_eq_true, decide_eq_true_eq, not_exists, not_and]
        rcases List.mem_cons.mp member with isKeyword | isName
        · rw [isKeyword]
          decide
        · exact (areWords word isName).2.2
      obtain ⟨areTasks, areClauses⟩ := valid
      have isAfter : gathered " before ".toList " after ".toList
          (joinWords (tasks ++ clauseWords clauses)) =
            collected .before tasks [] clauses :=
        @gathered_eq .before .after tasks clauses (by decide) areTasks
          areClauses
      have isBefore : gathered " after ".toList " before ".toList
          (joinWords (tasks ++ clauseWords clauses)) =
            collected .after tasks [] clauses :=
        @gathered_eq .after .before tasks clauses (by decide) areTasks
          areClauses
      have areFirst : (splitText " after ".toList ((splitText " before ".toList
          (joinWords (tasks ++ clauseWords clauses))).headD [])).headD [] =
            joinWords tasks :=
        tasks_eq areTasks areClauses
      rw [feeder, isAdd]
      dsimp only
      rw [noKeyword, isAfter, isBefore, areFirst]
      rfl

end Nvbmc.Build
