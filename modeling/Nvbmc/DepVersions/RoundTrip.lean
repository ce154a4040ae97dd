import Nvbmc.DepVersions.Parse

/-!
# What is joined is read back

The words of a joined text are those of its items.  A name is read from one
word, and a constraint from three: the name, the comparison behind its
parenthesis, and the version.
-/

namespace Nvbmc.DepVersions

open Library

def IsWord (text : Text) : Prop :=
  text ≠ [] ∧ ∀ char ∈ text, isspace char = false ∧ char ≠ ','

/-- A word that does not begin with a parenthesis. -/
def IsName (name : Text) : Prop :=
  IsWord name ∧ name.head? ≠ some '('

def operators : List Text :=
  longOperators ++ shortOperators

/-- A comparison, a blank and a version that is a word and begins with no
parenthesis. -/
def IsConstraint (constraint : Text) : Prop :=
  ∃ op ∈ operators, ∃ version, constraint = op ++ ' ' :: version ∧
    IsName version

/-- Names and their constraints, each name once. -/
structure IsMapping (deps : List (Text × List Text)) : Prop where
  unique : (deps.map Prod.fst).Nodup
  names : ∀ entry ∈ deps, IsName entry.1
  constraints : ∀ entry ∈ deps, ∀ constraint ∈ entry.2, IsConstraint constraint

/-- The mapping as the parser has it. -/
def named (deps : List (Text × List Text)) : Deps :=
  deps.map fun entry => (some entry.1, entry.2)

def itemWords (item : Text) : List Text :=
  words (item.filter (· ≠ ','))

variable {text : Text}

theorem filter_of_isWord (isWord : IsWord text) :
    text.filter (· ≠ ',') = text := by
  rw [List.filter_eq_self]
  intro char member
  simpa using (isWord.2 char member).2

theorem words_of_isWord (isWord : IsWord text) : words text = [text] :=
  words_of_unblank isWord.1 fun char member => (isWord.2 char member).1

theorem isWord_iff_all : IsWord text ↔
    text ≠ [] ∧ text.all (fun char => !isspace char && char != ',') = true := by
  simp [IsWord]

theorem isWord_of_mem_operators {op : Text} (isOperator : op ∈ operators) :
    IsWord op := by
  have all : ∀ op ∈ operators,
      op ≠ [] ∧ op.all (fun char => !isspace char && char != ',') = true := by
    decide
  exact isWord_iff_all.mpr (all op isOperator)

theorem splitOperator_of_mem {op : Text} (isOperator : op ∈ operators) :
    splitOperator op = some (op, []) := by
  have all : ∀ op ∈ operators, splitOperator op = some (op, []) := by decide
  exact all op isOperator

theorem IsWord.cons {char : Char} (unblank : isspace char = false)
    (noComma : char ≠ ',') (isWord : IsWord text) : IsWord (char :: text) := by
  refine ⟨by simp, ?_⟩
  intro other member
  rcases List.mem_cons.mp member with rfl | inText
  · exact ⟨unblank, noComma⟩
  · exact isWord.2 other inText

theorem IsWord.concat {char : Char} (unblank : isspace char = false)
    (noComma : char ≠ ',') (isWord : IsWord text) :
    IsWord (text ++ [char]) := by
  refine ⟨by simp, ?_⟩
  intro other member
  rcases List.mem_append.mp member with inText | isLast
  · exact isWord.2 other inText
  · rw [List.mem_singleton.mp isLast]
    exact ⟨unblank, noComma⟩

theorem itemWords_constrained {name op version : Text} (isName : IsWord name)
    (isOperator : op ∈ operators) (isVersion : IsWord version) :
    itemWords (constrained name (op ++ ' ' :: version)) =
      [name, '(' :: op, version ++ [')']] := by
  have isOpened : IsWord ('(' :: op) :=
    (isWord_of_mem_operators isOperator).cons (by decide) (by decide)
  have isClosed : IsWord (version ++ [')']) :=
    isVersion.concat (by decide) (by decide)
  have split : (constrained name (op ++ ' ' :: version)).filter (· ≠ ',') =
      name ++ ' ' :: ('(' :: op ++ ' ' :: (version ++ [')'])) := by
    have pieces : constrained name (op ++ ' ' :: version) =
        name ++ ([' '] ++ (('(' :: op) ++ ([' '] ++ (version ++ [')'])))) := by
      simp [constrained]
    rw [pieces]
    simp only [List.filter_append, filter_of_isWord isName,
      filter_of_isWord isOpened]
    rw [← List.filter_append, filter_of_isWord isClosed]
    rfl
  rw [itemWords, split, words_append_cons _ _ (by decide),
    words_append_cons _ _ (by decide),
    words_of_isWord isName, words_of_isWord isOpened, words_of_isWord isClosed]
  rfl

theorem words_intercalate (commasep : Bool) (items : List Text) :
    words (((if commasep then ", ".toList else " ".toList).intercalate
      items).filter (· ≠ ',')) = items.flatMap itemWords := by
  have separator : (if commasep then ", ".toList else " ".toList).filter
      (· ≠ ',') = [' '] := by
    cases commasep <;> decide
  induction items with
  | nil => simp [List.intercalate]
  | cons item items induction =>
      cases items with
      | nil => simp [List.intercalate, itemWords]
      | cons next items =>
          rw [List.intercalate_cons_cons, List.filter_append,
            List.filter_append, separator,
            List.append_assoc, List.singleton_append,
            words_append_cons _ _ (by decide), induction]
          rfl

/-- The parser stands between two items. -/
def Scan.Between (scan : Scan) : Prop :=
  scan.incmp = false ∧ scan.inversion = false

section Read

variable {scan : Scan} {name : Text}

/-- The constraints that a name has so far. -/
def Scan.held (scan : Scan) (name : Text) : List Text :=
  (scan.r.get? (some name)).getD []

theorem step_name (between : scan.Between) (isName : IsName name) :
    scan.step name = some (scan.readName name) := by
  rw [Scan.step, if_neg isName.2, Scan.read, between.1, between.2]
  rfl

theorem between_readName (between : scan.Between) :
    (scan.readName name).Between := between

theorem held_readName : (scan.readName name).held name = scan.held name := by
  rw [Scan.held, Scan.readName, Scan.held]
  split_ifs with empty
  · rw [Dict.get?_set_self, empty]
    rfl
  · rfl

theorem set_readName (constraints : List Text) :
    (scan.readName name).r.set (some name) constraints =
      scan.r.set (some name) constraints := by
  rw [Scan.readName]
  split_ifs with empty
  · exact Dict.set_set _ _ _ _
  · rfl

theorem readVersion_closed {version : Text} (nonempty : version ≠ [])
    (fresh : scan.lastver = []) : scan.readVersion (version ++ [')']) =
      { scan with
        inversion := false
        lastver := version
        r := scan.r.push scan.lastdep (scan.lastcmp ++ ' ' :: version) } := by
  simp [Scan.readVersion, nonempty, fresh]

theorem foldlM_constraint {op version : Text} (between : scan.Between)
    (isName : IsName name)
    (isOperator : op ∈ operators) (isVersion : IsName version) :
    ∃ after, [name, '(' :: op, version ++ [')']].foldlM Scan.step scan =
      some after ∧ after.Between ∧
      after.r = scan.r.set (some name)
        (scan.held name ++ [op ++ ' ' :: version]) := by
  have opened : (scan.readName name).step ('(' :: op) =
      some { scan.readName name with
        incmp := false, inversion := true, lastcmp := op } := by
    rw [Scan.step, if_pos (by rfl), List.tail_cons,
      if_neg (isWord_of_mem_operators isOperator).1, Scan.read, if_pos rfl,
      splitOperator_of_mem isOperator]
    rfl
  have head : (version ++ [')']).head? ≠ some '(' := by
    obtain ⟨char, rest, rfl⟩ := List.exists_cons_of_ne_nil isVersion.1.1
    exact isVersion.2
  refine ⟨Scan.readVersion { scan.readName name with
    incmp := false, inversion := true, lastcmp := op } (version ++ [')']), ?_,
      ?_, ?_⟩
  · rw [List.foldlM_cons, step_name between isName]
    simp only [Option.bind_eq_bind, Option.bind_some]
    rw [List.foldlM_cons, opened]
    simp only [Option.bind_eq_bind, Option.bind_some]
    rw [List.foldlM_cons, Scan.step, if_neg head]
    rfl
  · rw [readVersion_closed isVersion.1.1 rfl]
    exact ⟨rfl, rfl⟩
  · rw [readVersion_closed isVersion.1.1 rfl]
    show (scan.readName name).r.set (some name) _ = _
    rw [set_readName]
    exact congrArg (fun held =>
      scan.r.set (some name) (held ++ [op ++ ' ' :: version])) held_readName

theorem foldlM_constraints (isName : IsName name) {constraint : Text}
    {constraints : List Text}
    (proper : ∀ other ∈ constraint :: constraints, IsConstraint other)
    (between : scan.Between) :
    ∃ after, (((constraint :: constraints).map (constrained name)).flatMap
      itemWords).foldlM Scan.step scan = some after ∧
      after.Between ∧
      after.r = scan.r.set (some name)
        (scan.held name ++ constraint :: constraints) := by
  induction constraints generalizing scan constraint with
  | nil =>
      obtain ⟨op, isOperator, version, rfl, isVersion⟩ :=
        proper constraint List.mem_cons_self
      obtain ⟨after, ran, isBetween, isAfter⟩ :=
        foldlM_constraint between isName isOperator isVersion
      refine ⟨after, ?_, isBetween, isAfter⟩
      rw [List.map_singleton, List.flatMap_singleton,
        itemWords_constrained isName.1 isOperator isVersion.1]
      exact ran
  | cons next constraints induction =>
      obtain ⟨op, isOperator, version, rfl, isVersion⟩ :=
        proper constraint List.mem_cons_self
      obtain ⟨middle, ran, isBetween, isMiddle⟩ :=
        foldlM_constraint between isName isOperator isVersion
      obtain ⟨after, ranRest, betweenAfter, isAfter⟩ := induction
        (fun other member => proper other (List.mem_cons_of_mem _ member))
        isBetween
      refine ⟨after, ?_, betweenAfter, ?_⟩
      · rw [List.map_cons, List.flatMap_cons,
          itemWords_constrained isName.1 isOperator isVersion.1,
          List.foldlM_append, ran]
        exact ranRest
      · rw [isAfter, Scan.held, isMiddle, Dict.get?_set_self, Dict.set_set]
        simp

theorem foldlM_depItems (isName : IsName name) {constraints : List Text}
    (proper : ∀ constraint ∈ constraints, IsConstraint constraint)
    (between : scan.Between)
    (missing : some name ∉ scan.r.keys) :
    ∃ after, ((depItems name (.list constraints)).flatMap itemWords).foldlM
      Scan.step scan = some after ∧
      after.Between ∧ after.r = scan.r ++ [(some name, constraints)] := by
  have unheld : scan.r.get? (some name) = none := by
    by_contra found
    exact missing (Dict.get?_ne_none_iff.mp found)
  have isEmpty : scan.held name = [] := by
    rw [Scan.held, unheld]
    rfl
  cases constraints with
  | nil =>
      refine ⟨scan.readName name, ?_, between_readName between, ?_⟩
      · rw [depItems, List.flatMap_singleton, itemWords,
          filter_of_isWord isName.1,
          words_of_isWord isName.1, List.foldlM_cons, step_name between isName]
        rfl
      · rw [Scan.readName, ← Scan.held, if_pos isEmpty,
          Dict.set_of_not_mem _ missing]
  | cons constraint constraints =>
      obtain ⟨after, ran, isBetween, isAfter⟩ :=
        foldlM_constraints isName proper between
      refine ⟨after, ran, isBetween, ?_⟩
      rw [isAfter, isEmpty, Dict.set_of_not_mem _ missing]
      rfl

theorem foldlM_deps {deps : List (Text × List Text)}
    (isMapping : IsMapping deps)
    (between : scan.Between)
    (missing : ∀ entry ∈ deps, some entry.1 ∉ scan.r.keys) :
    ∃ after,
      ((deps.flatMap fun entry => depItems entry.1 (.list entry.2)).flatMap
        itemWords).foldlM Scan.step scan = some after ∧
          after.r = scan.r ++ named deps := by
  induction deps generalizing scan with
  | nil => exact ⟨scan, rfl, by simp [named]⟩
  | cons entry deps induction =>
      obtain ⟨newName, unique⟩ := List.nodup_cons.mp isMapping.unique
      have isRest : IsMapping deps :=
        ⟨unique, fun other member =>
          isMapping.names other (List.mem_cons_of_mem _ member),
          fun other member => isMapping.constraints other
            (List.mem_cons_of_mem _ member)⟩
      obtain ⟨middle, ran, isBetween, isMiddle⟩ := foldlM_depItems
        (isMapping.names entry List.mem_cons_self)
        (isMapping.constraints entry List.mem_cons_self) between
        (missing entry List.mem_cons_self)
      have stillMissing : ∀ other ∈ deps, some other.1 ∉ middle.r.keys := by
        intro other member
        have different : other.1 ≠ entry.1 := by
          intro same
          exact newName (same ▸ List.mem_map_of_mem member)
        have before := missing other (List.mem_cons_of_mem _ member)
        rw [isMiddle]
        simpa [Dict.keys, different] using before
      obtain ⟨after, ranRest, isAfter⟩ :=
        induction isRest isBetween stillMissing
      refine ⟨after, ?_, ?_⟩
      · rw [List.flatMap_cons, List.flatMap_append, List.foldlM_append, ran]
        exact ranRest
      · rw [isAfter, isMiddle]
        simp [named]

end Read

theorem joinDeps_named (deps : List (Text × List Text)) (commasep : Bool) :
    joinDeps (listed (named deps)) commasep =
      some ((if commasep then ", ".toList else " ".toList).intercalate
        (deps.flatMap fun entry => depItems entry.1 (.list entry.2))) := by
  have items : (listed (named deps)).mapM
      (fun entry => entry.1.map fun dep => depItems dep entry.2) =
      some (deps.map fun entry => depItems entry.1 (.list entry.2)) := by
    induction deps with
    | nil => rfl
    | cons entry deps induction =>
        rw [listed, named] at induction ⊢
        simp only [List.map_cons, List.mapM_cons, induction]
        rfl
  rw [joinDeps, items, List.flatMap_def]
  rfl

theorem explodeDepVersions2_joinDeps {deps : List (Text × List Text)}
    (isMapping : IsMapping deps) (commasep sort : Bool) :
    (joinDeps (listed (named deps)) commasep).bind
      (explodeDepVersions2 · sort) =
      if sort then sortItems (named deps) else some (named deps) := by
  obtain ⟨after, ran, isAfter⟩ :=
    @foldlM_deps Scan.start deps isMapping ⟨rfl, rfl⟩ (by
    intro entry _ member
    cases member)
  have isResult : after.r = named deps := isAfter
  rw [joinDeps_named, Option.bind_some, explodeDepVersions2, words_intercalate,
    ran, ← isResult]
  rfl

def sortedNames (deps : List (Text × List Text)) : List (Text × List Text) :=
  deps.insertionSort fun first second => first.1 ≤ second.1

theorem sortItems_named (deps : List (Text × List Text)) :
    sortItems (named deps) = some (named (sortedNames deps)) := by
  have noNone : none ∉ (named deps).keys := by simp [named, Dict.keys]
  rw [sortItems, if_neg fun both => noNone both.1, sortedNames, named, named]
  refine congrArg some (List.map_insertionSort _ _ _ deps ?_).symm
  intro first _ second _
  rfl

end Nvbmc.DepVersions
