import Nvbmc.Build.TaskStatements
import Nvbmc.Library.Folding

/-!
# Sequences of task statements

The tasks and their dependencies after a sequence of statements, against what
the statements declare since the last deletions.
-/

namespace Nvbmc.Build

open Nvbmc.Library

namespace Statement

def added : Statement → List Text
  | .addtask tasks _ => tasks.map ensureTaskPrefix
  | .deltask _ => []

def deleted : Statement → List Text
  | .addtask _ _ => []
  | .deltask tasks => tasks.map ensureTaskPrefix

def namesOf (kind : Kind) : Statement → List Text
  | .addtask _ clauses =>
      ((clauses.filter fun clause => clause.kind = kind).flatMap
        Clause.names).map ensureTaskPrefix
  | .deltask _ => []

def Declares (statement : Statement) (dep task : Text) : Prop :=
  task ∈ statement.added ∧ dep ∈ statement.namesOf .after ∨
    dep ∈ statement.added ∧ task ∈ statement.namesOf .before

end Statement

def Since (did undid : Statement → Prop) (history : List Statement) : Prop :=
  ∃ earlier statement later, history = earlier ++ statement :: later ∧
    did statement ∧ ∀ other ∈ later, ¬ undid other

def evaluateAll (expand : Text → Text) (history : List Statement) :
    Except Text TaskData :=
  history.foldlM (fun d statement => evaluate expand d statement.line) .empty

/-- The list has the tasks that were added since they were deleted, and each
depends on what was declared since one of the two was deleted, but on no deleted
task that is not there again. -/
structure Reflected (history : List Statement) (d : TaskData) : Prop where
  nodup : d.bbtasks.Nodup
  listed : ∀ task, task ∈ d.bbtasks ↔ Since (task ∈ ·.added) (task ∈ ·.deleted)
    history
  depends : ∀ task ∈ d.bbtasks, ∃ deps, d.deps task = some deps ∧ ∀ dep,
    dep ∈ deps ↔
    Since (·.Declares dep task) (fun other => dep ∈ other.deleted ∨
      task ∈ other.deleted) history
  clean : ∀ task ∈ d.bbtasks, ∀ dep ∈ d.depsOrNone task,
    (∃ statement ∈ history, dep ∈ statement.deleted) → dep ∈ d.bbtasks

/-- Clauses of a kind are next to each other, and nothing comes after a deleted
task that is not there; no task that is not in the list depends on what is
deleted. -/
def Fine (history : List Statement) (d : TaskData) : Statement → Prop
  | .addtask tasks clauses => Grouped clauses ∧
      ∀ dep ∈ (Statement.addtask tasks clauses).namesOf .after,
        (∃ statement ∈ history, dep ∈ statement.deleted) →
          dep ∈ d.bbtasks ∨ dep ∈ tasks.map ensureTaskPrefix
  | .deltask tasks =>
      ∀ dep ∈ tasks.map ensureTaskPrefix, ∀ task, task ∉ d.bbtasks →
      dep ∉ d.depsOrNone task

section Statements

variable {d : TaskData} {tasks : List Text} {before after : Option Text}
  {name dep : Text}

theorem wellFormed_foldl_addtask (wellFormed : d.WellFormed) :
    (tasks.foldl (fun d task => d.addtask task before after) d).WellFormed := by
  induction tasks generalizing d with
  | nil => exact wellFormed
  | cons task tasks induction => exact induction wellFormed.addtask

theorem mem_bbtasks_foldl_addtask :
    name ∈ (tasks.foldl (fun d task => d.addtask task before after) d).bbtasks ↔
      name ∈ d.bbtasks ∨ name ∈ tasks.map ensureTaskPrefix := by
  induction tasks generalizing d with
  | nil => simp
  | cons task tasks induction =>
      rw [List.foldl_cons, induction, TaskData.mem_bbtasks_addtask]
      simp [or_assoc]

theorem mem_depsOrNone_foldl_addtask :
    dep ∈ (tasks.foldl (fun d task => d.addtask task before after) d).depsOrNone
      name ↔ dep ∈ d.depsOrNone name ∨
        (name ∈ tasks.map ensureTaskPrefix ∧ dep ∈ TaskData.named after ∨
          dep ∈ tasks.map ensureTaskPrefix ∧ name ∈ TaskData.named before) := by
  induction tasks generalizing d with
  | nil => simp
  | cons task tasks induction =>
      rw [List.foldl_cons, induction, TaskData.mem_depsOrNone_addtask]
      simp only [List.map_cons, List.mem_cons]
      tauto

variable (wellFormed : d.WellFormed)
include wellFormed

theorem wellFormed_foldl_deltask :
    (tasks.foldl TaskData.deltask d).WellFormed := by
  induction tasks generalizing d with
  | nil => exact wellFormed
  | cons task tasks induction => exact induction wellFormed.deltask

theorem mem_bbtasks_foldl_deltask :
    name ∈ (tasks.foldl TaskData.deltask d).bbtasks ↔
      name ∈ d.bbtasks ∧ name ∉ tasks.map ensureTaskPrefix := by
  induction tasks generalizing d with
  | nil => simp
  | cons task tasks induction =>
      rw [List.foldl_cons, induction wellFormed.deltask,
        TaskData.mem_bbtasks_deltask wellFormed.nodup]
      simp [and_assoc]

theorem mem_depsOrNone_foldl_deltask
    (known : ∀ dep ∈ tasks.map ensureTaskPrefix, ∀ task, task ∉ d.bbtasks →
      dep ∉ d.depsOrNone task) :
    dep ∈ (tasks.foldl TaskData.deltask d).depsOrNone name ↔
      dep ∈ d.depsOrNone name ∧ dep ∉ tasks.map ensureTaskPrefix ∧
        name ∉ tasks.map ensureTaskPrefix := by
  induction tasks generalizing d with
  | nil => simp
  | cons task tasks induction =>
      have deleted := fun {dep name} =>
        @TaskData.mem_depsOrNone_deltask d task name dep wellFormed
      have still : ∀ dep ∈ tasks.map ensureTaskPrefix, ∀ name,
          name ∉ (d.deltask task).bbtasks →
            dep ∉ (d.deltask task).depsOrNone name := by
        intro dep isDep name unlisted depends
        obtain ⟨old, notTask, _⟩ := deleted.mp depends
        rw [TaskData.mem_bbtasks_deltask wellFormed.nodup] at unlisted
        have isListed : name ∉ d.bbtasks :=
          fun inList => unlisted ⟨inList, notTask⟩
        exact known dep (.tail _ isDep) name isListed old
      rw [List.foldl_cons, induction wellFormed.deltask still, deleted]
      simp only [List.map_cons, List.mem_cons, not_or]
      constructor
      · intro found
        obtain ⟨⟨old, notTask, notDropped⟩, notDep, notName⟩ := found
        refine ⟨old, ⟨?_, notDep⟩, notTask, notName⟩
        intro isTask
        by_cases inList : name ∈ d.bbtasks
        · exact notDropped ⟨isTask, inList⟩
        · exact known dep (by simp [isTask]) name inList old
      · intro found
        obtain ⟨old, ⟨notTask, notDep⟩, notName, notLater⟩ := found
        exact ⟨⟨old, notName, fun dropped => notTask dropped.1⟩, notDep,
          notLater⟩

end Statements

section Since

variable {did undid : Statement → Prop} {history : List Statement}
  {statement : Statement}

theorem not_since_nil : ¬ Since did undid [] := by
  intro since
  obtain ⟨earlier, statement, later, split, _⟩ := since
  simp at split

theorem since_concat : Since did undid (history ++ [statement]) ↔
    did statement ∨ Since did undid history ∧ ¬ undid statement := by
  constructor
  · intro since
    obtain ⟨earlier, first, later, split, isDone, kept⟩ := since
    rcases List.eq_nil_or_concat later with isNil | ⟨front, last, isConcat⟩
    · subst isNil
      have same := List.append_inj_right' split rfl
      rw [List.cons.injEq] at same
      rw [same.1]
      exact .inl isDone
    · rw [List.concat_eq_append] at isConcat
      subst isConcat
      rw [← List.cons_append, ← List.append_assoc] at split
      have isLast := List.append_inj_right' split rfl
      have isFront := List.append_inj_left' split rfl
      rw [List.cons.injEq] at isLast
      apply Or.inr
      refine ⟨⟨earlier, first, front, isFront, isDone, ?_⟩, ?_⟩
      · intro other member
        exact kept other (List.mem_append_left _ member)
      · rw [isLast.1]
        exact kept last (by simp)
  · intro found
    rcases found with isDone | ⟨since, notUndone⟩
    · exact ⟨history, statement, [], rfl, isDone, by simp⟩
    · obtain ⟨earlier, first, later, split, isDone, kept⟩ := since
      refine ⟨earlier, first, later ++ [statement], by simp [split], isDone, ?_⟩
      intro other member
      rcases List.mem_append.mp member with isLater | isLast
      · exact kept other isLater
      · rw [List.mem_singleton.mp isLast]
        exact notUndone

end Since

/-- What is known of every name, in the list or not. -/
structure Known (history : List Statement) (d : TaskData) : Prop where
  wellFormed : d.WellFormed
  listed : ∀ task, task ∈ d.bbtasks ↔ Since (task ∈ ·.added) (task ∈ ·.deleted)
    history
  depends : ∀ task dep, dep ∈ d.depsOrNone task ↔
    Since (·.Declares dep task) (fun other => dep ∈ other.deleted ∨
      task ∈ other.deleted) history
  clean : ∀ task, ∀ dep ∈ d.depsOrNone task,
    (∃ statement ∈ history, dep ∈ statement.deleted) → dep ∈ d.bbtasks

theorem Known.reflected {history : List Statement} {d : TaskData}
    (known : Known history d) : Reflected history d where
  nodup := known.wellFormed.nodup
  listed := known.listed
  depends := by
    intro task isListed
    obtain ⟨deps, isDeps⟩ :=
      Option.isSome_iff_exists.mp (known.wellFormed.hasDeps task isListed)
    refine ⟨deps, isDeps, ?_⟩
    intro dep
    rw [← known.depends, TaskData.depsOrNone, isDeps]
    rfl
  clean task _ := known.clean task

theorem known_empty : Known [] .empty where
  wellFormed := TaskData.wellFormed_empty
  listed task := by
    apply iff_of_false
    · exact List.not_mem_nil
    · exact not_since_nil
  depends task dep := by
    apply iff_of_false
    · exact List.not_mem_nil
    · exact not_since_nil
  clean task dep isDep := absurd isDep List.not_mem_nil

section Step

variable {expand : Text → Text} {history : List Statement}
  {statement : Statement} {d : TaskData} {tasks : List Text}

theorem eval_addtask {clauses : List Clause}
    (valid : (Statement.addtask tasks clauses).Valid)
    (grouped : Grouped clauses) :
    ∃ before after, (Statement.addtask tasks clauses).node.eval expand d =
        tasks.foldl (fun d task => d.addtask task before after) d ∧
      TaskData.named before = (Statement.addtask tasks clauses).namesOf
        .before ∧
      TaskData.named after = (Statement.addtask tasks clauses).namesOf
        .after := by
  have areTasks : words (joinWords tasks) = tasks :=
    words_joinWords fun word member => (valid.1.areNames word member).word
  have areNames : ∀ kind other : Kind, kind ≠ other →
      TaskData.named (some (collected kind tasks [] clauses)) =
        (Statement.addtask tasks clauses).namesOf other := by
    intro kind other different
    have sameKind : (fun clause : Clause => decide (clause.kind ≠ kind)) =
        fun clause => decide (clause.kind = other) := by
      funext clause
      apply decide_eq_decide.mpr
      constructor
      · exact Kind.eq_of_ne_of_ne different
      · intro same
        rw [same]
        exact different.symm
    rw [TaskData.named, Option.elim_some, collected_of_grouped grouped,
      sameKind, words_joinWords]
    · rfl
    · intro word member
      obtain ⟨clause, isClause, isName⟩ := List.mem_flatMap.mp member
      have among := List.mem_of_mem_filter isClause
      exact ((valid.2 clause among).areNames word isName).word
  refine ⟨some (collected .after tasks [] clauses),
    some (collected .before tasks [] clauses),
    ?_, areNames .after .before (by decide),
    areNames .before .after (by decide)⟩
  rw [Statement.node, TaskNode.eval]
  dsimp only
  rw [areTasks]

variable (known : Known history d)
include known

theorem known_addtask {clauses : List Clause}
    (valid : (Statement.addtask tasks clauses).Valid)
    (fine : Fine history d (.addtask tasks clauses)) :
    Known (history ++ [.addtask tasks clauses])
      ((Statement.addtask tasks clauses).node.eval expand d) := by
  obtain ⟨before, after, isEval, areBefore, areAfter⟩ :=
    @eval_addtask expand d tasks clauses valid fine.1
  rw [isEval]
  have inList :=
    fun name => @mem_bbtasks_foldl_addtask d tasks before after name
  have inDeps :=
    fun dep name => @mem_depsOrNone_foldl_addtask d tasks before after name dep
  rw [areBefore, areAfter] at inDeps
  constructor
  · exact wellFormed_foldl_addtask known.wellFormed
  · intro task
    rw [inList, since_concat, known.listed]
    simp [Statement.added, Statement.deleted, or_comm]
  · intro task dep
    rw [inDeps, since_concat, known.depends]
    simp [Statement.Declares, Statement.added, Statement.deleted, or_comm]
  · intro task dep isDep wasDeleted
    have isDeleted : ∃ statement ∈ history, dep ∈ statement.deleted := by
      obtain ⟨statement, member, inside⟩ := wasDeleted
      rcases List.mem_append.mp member with isOld | isNew
      · exact ⟨statement, isOld, inside⟩
      · rw [List.mem_singleton.mp isNew] at inside
        cases inside
    rw [inList]
    rcases (inDeps dep task).mp isDep with old | ⟨_, isAfter⟩ | ⟨isTask, _⟩
    · exact .inl (known.clean task dep old isDeleted)
    · exact fine.2 dep isAfter isDeleted
    · exact .inr isTask

theorem known_deltask (valid : (Statement.deltask tasks).Valid)
    (literal : ∀ text, '$' ∉ text → expand text = text)
    (fine : Fine history d (.deltask tasks)) :
    Known (history ++ [.deltask tasks])
      ((Statement.deltask tasks).node.eval expand d) := by
  have isLiteral : expand (joinWords tasks) = joinWords tasks := by
    apply literal
    intro member
    rcases mem_intercalate member with isBlank | ⟨name, isName, inside⟩
    · cases isBlank
    · exact (valid.areNames name isName).literal inside
  have areTasks : words (joinWords tasks) = tasks :=
    words_joinWords fun word member => (valid.areNames word member).word
  have isEval : (Statement.deltask tasks).node.eval expand d =
      tasks.foldl TaskData.deltask d := by
    rw [Statement.node, TaskNode.eval, isLiteral, areTasks]
  have inList :=
    fun name => @mem_bbtasks_foldl_deltask d tasks name known.wellFormed
  have inDeps := fun dep name =>
    @mem_depsOrNone_foldl_deltask d tasks name dep known.wellFormed fine
  rw [isEval]
  constructor
  · exact wellFormed_foldl_deltask known.wellFormed
  · intro task
    rw [inList, since_concat, known.listed]
    simp [Statement.added, Statement.deleted]
  · intro task dep
    rw [inDeps, since_concat, known.depends]
    simp [Statement.Declares, Statement.added, Statement.namesOf,
      Statement.deleted]
  · intro task dep isDep wasDeleted
    obtain ⟨old, notDep, _⟩ := (inDeps dep task).mp isDep
    refine (inList dep).mpr ⟨?_, notDep⟩
    apply known.clean task dep old
    obtain ⟨statement, member, inside⟩ := wasDeleted
    rcases List.mem_append.mp member with isOld | isNew
    · exact ⟨statement, isOld, inside⟩
    · rw [List.mem_singleton.mp isNew] at inside
      exact absurd inside notDep

theorem known_evaluate (valid : statement.Valid)
    (literal : ∀ text, '$' ∉ text → expand text = text)
    (fine : Fine history d statement) :
    ∃ after, evaluate expand d statement.line = .ok after ∧
      Known (history ++ [statement]) after := by
  refine ⟨statement.node.eval expand d, ?_, ?_⟩
  · rw [evaluate, feeder_line valid]
    rfl
  · cases statement with
    | addtask tasks clauses => exact known_addtask known valid fine
    | deltask tasks => exact known_deltask known valid literal fine

end Step

theorem evaluateAll_concat {expand : Text → Text} {history : List Statement}
    {statement : Statement} {d : TaskData}
    (isState : evaluateAll expand history = .ok d) :
    evaluateAll expand (history ++ [statement]) =
      evaluate expand d statement.line := by
  rw [evaluateAll] at isState
  rw [evaluateAll, List.foldlM_append, isState]
  exact bind_pure (evaluate expand d statement.line)

theorem known_evaluateAll {expand : Text → Text} {statements : List Statement}
    (literal : ∀ text, '$' ∉ text → expand text = text)
    (valid : ∀ statement ∈ statements, statement.Valid)
    (fine : ∀ earlier statement later d, statements = earlier ++ statement ::
      later → evaluateAll expand earlier = .ok d → Fine earlier d statement) :
    ∃ d, evaluateAll expand statements = .ok d ∧ Known statements d := by
  induction statements using List.reverseRecOn with
  | nil => exact ⟨.empty, rfl, known_empty⟩
  | append_singleton history statement induction =>
      obtain ⟨d, isState, known⟩ := induction
        (fun other member => valid other (List.mem_append_left _ member)) (by
          intro earlier other later state split
          apply fine earlier other (later ++ [statement])
          rw [split]
          simp)
      have isFine := fine history statement [] d rfl isState
      obtain ⟨after, evaluated, isKnown⟩ :=
        known_evaluate known (valid statement (by simp)) literal isFine
      exact ⟨after, (evaluateAll_concat isState).trans evaluated, isKnown⟩

/-- The tasks and their dependencies are what was declared, in every state of a
run of such statements. -/
theorem reflected_of_fine (expand : Text → Text) (statements : List Statement)
    (literal : ∀ text, '$' ∉ text → expand text = text)
    (valid : ∀ statement ∈ statements, statement.Valid)
    (fine : ∀ earlier statement later d, statements = earlier ++ statement ::
      later → evaluateAll expand earlier = .ok d → Fine earlier d statement) :
    ∀ earlier later, statements = earlier ++ later →
      ∃ d, evaluateAll expand earlier = .ok d ∧ Reflected earlier d := by
  intro earlier later split
  obtain ⟨d, isState, known⟩ := @known_evaluateAll expand earlier literal
    (fun other member => valid other (split ▸ List.mem_append_left _ member))
    (by
      intro first other between state part
      apply fine first other (between ++ later)
      rw [split, part]
      simp)
  exact ⟨d, isState, known.reflected⟩

section Sample

theorem isName_letter {char : Char} (member : char ∈ ['a', 'b', 'c', 'd']) :
    IsName [char] := by
  have plain : isspace char = false ∧ char ≠ '#' ∧ char ≠ '$' ∧ char ≠ '(' ∧
      char ≠ '\\' := by
    simp only [List.mem_cons, List.not_mem_nil, or_false] at member
    rcases member with isChar | isChar | isChar | isChar <;> rw [isChar] <;>
      decide
  have notKind : ∀ kind : Kind, kind.word.length ≠ 1 := by
    intro kind
    cases kind <;> decide
  constructor
  · exact .of_all (List.cons_ne_nil _ _) (by simp [plain.1])
  · intro kind same
    apply notKind kind
    rw [← same]
    rfl
  · simpa using Ne.symm plain.2.1
  · simpa using Ne.symm plain.2.2.1
  · simpa using plain.2.2.2.1
  · simpa using plain.2.2.2.2
  · intro keyword isKeyword inside
    have shorter := inside.length_le
    simp only [setvarKeywords, List.mem_cons, List.not_mem_nil, or_false]
      at isKeyword
    rcases isKeyword with same | same | same
    all_goals
      rw [same, List.length_singleton] at shorter
      exact absurd shorter (by decide)

theorem areNames_letter {char : Char} (member : char ∈ ['a', 'b', 'c', 'd']) :
    AreNames [[char]] := by
  constructor
  · exact List.cons_ne_nil _ _
  · intro name isName
    rw [List.mem_singleton.mp isName]
    exact isName_letter member

/-- `addtask b after a`. -/
def taskAfter : Statement :=
  .addtask [['b']] [⟨.after, [['a']]⟩]

/-- The task is deleted and comes back. -/
def againAfter : List Statement :=
  [taskAfter, .deltask [['b']], taskAfter]

theorem valid_againAfter : ∀ statement ∈ againAfter, statement.Valid := by
  have added : taskAfter.Valid := by
    refine ⟨areNames_letter (by decide), ?_⟩
    intro clause isClause
    rw [List.mem_singleton.mp isClause]
    exact areNames_letter (by decide)
  simp only [againAfter, List.forall_mem_cons, List.not_mem_nil, false_implies,
    implies_true, and_true]
  exact ⟨added, areNames_letter (by decide), added⟩

theorem fine_taskAfter {history : List Statement} {d : TaskData}
    (kept : ∀ statement ∈ history, "do_a".toList ∉ statement.deleted) :
    Fine history d taskAfter := by
  refine ⟨⟨.after, [⟨.after, [['a']]⟩], [], rfl, by simp, by simp⟩, ?_⟩
  rintro dep isAfter ⟨statement, member, wasDeleted⟩
  obtain rfl : dep = "do_a".toList := List.mem_singleton.mp isAfter
  exact absurd wasDeleted (kept statement member)

theorem reflected_againAfter :
    ∃ d, evaluateAll id againAfter = .ok d ∧ Reflected againAfter d := by
  apply reflected_of_fine id againAfter (fun _ _ => rfl) valid_againAfter _
    againAfter [] (List.append_nil _).symm
  intro earlier statement later d split isState
  match earlier with
  | [] =>
      cases split
      exact fine_taskAfter nofun
  | [_] =>
      cases split
      have isAfter : evaluateAll id [taskAfter] =
          .ok ⟨["do_b".toList],
            [("do_b".toList, ⟨true, some ["do_a".toList]⟩)]⟩ := rfl
      rw [isAfter] at isState
      cases isState
      intro dep isDep task unlisted depends
      have isOther := List.ne_of_not_mem_cons unlisted
      rw [TaskData.depsOrNone, TaskData.deps, TaskData.flagsOf, Dict.get?,
        if_neg (Ne.symm isOther)] at depends
      cases depends
  | [_, _] =>
      cases split
      apply fine_taskAfter
      decide
  | _ :: _ :: _ :: _ => simp [againAfter] at split

/-- `addtask a after b before c after d`. -/
def tornClauses : Statement :=
  .addtask [['a']] [⟨.after, [['b']]⟩, ⟨.before, [['c']]⟩, ⟨.after, [['d']]⟩]

/-- The name in the first clause and that in the third make one name. -/
theorem not_reflected_torn :
    ¬ ∀ (expand : Text → Text) (statements : List Statement),
      (∀ text, '$' ∉ text → expand text = text) →
      (∀ statement ∈ statements, statement.Valid) →
      ∃ d, evaluateAll expand statements = .ok d ∧ Reflected statements d := by
  intro claimed
  obtain ⟨d, isState, reflected⟩ :=
    claimed id [tornClauses] (fun _ _ => rfl) (by
    intro statement member
    rw [List.mem_singleton.mp member]
    refine ⟨areNames_letter (by decide), ?_⟩
    intro clause isClause
    simp only [List.mem_cons, List.not_mem_nil, or_false] at isClause
    rcases isClause with isClause | isClause | isClause <;> subst isClause <;>
      exact areNames_letter (by decide))
  have isDeps : (evaluateAll id [tornClauses]).map (·.deps "do_a".toList) =
      .ok (some ["do_bd".toList]) := by rfl
  rw [isState] at isDeps
  have isListed : "do_a".toList ∈ d.bbtasks := by
    apply (reflected.listed _).mpr
    exact ⟨[], tornClauses, [], rfl, by decide, by simp⟩
  obtain ⟨deps, areDeps, depends⟩ := reflected.depends _ isListed
  have areThese : deps = ["do_bd".toList] := by
    have both : d.deps "do_a".toList = some ["do_bd".toList] :=
      Except.ok.inj isDeps
    rw [areDeps] at both
    exact Option.some.inj both
  have isDep : "do_b".toList ∈ deps := by
    apply (depends _).mpr
    exact ⟨[], tornClauses, [], rfl, .inl (by decide), by simp⟩
  rw [areThese] at isDep
  exact absurd isDep (by decide)

end Sample

end Nvbmc.Build
