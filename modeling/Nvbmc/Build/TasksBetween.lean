import Mathlib.Data.List.Perm.Subperm
import Nvbmc.Build.Tasks
import Nvbmc.Library.Folding

/-!
# The tasks between two tasks

`tasksbetween` follows the tasks that depend on a task, depth first, with one
chain for all branches.
-/

namespace Nvbmc.Build

open Nvbmc.Library

/-- What ends the search early. -/
inductive Stop where
  /-- "Circular task dependencies as %s depends on itself via the chain %s" -/
  | fatal (task : Text) (chain : List Text)
  /-- The flag "deps" is not set. -/
  | typeError
  | deep
  deriving DecidableEq

structure Walk where
  chain : List Text
  outtasks : List Text

def addTask (outtasks : List Text) (ctask : Text) : List Text :=
  if ctask ∈ outtasks then outtasks else outtasks ++ [ctask]

variable (d : TaskData) (tasks : List Text) (endtask : Text)

/-- A round of the loop over the other tasks; `follow` is the recursive call. -/
def visitOther (follow : Text → Walk → Except Stop Walk) (task : Text)
    (walk : Walk) (othertask : Text) : Except Stop Walk :=
  if othertask = task then .ok walk
  else if task = endtask then
    .ok { walk with outtasks := walk.chain.foldl addTask walk.outtasks }
  else
    match d.deps othertask with
    | none => .error .typeError
    | some deps => if task ∈ deps then follow othertask walk else .ok walk

/-- `follow_chain`, with the chain that the branches share. -/
def followChain : ℕ → Text → Walk → Except Stop Walk
  | 0, _, _ => .error .deep
  | depth + 1, task, walk =>
      if task ∈ walk.chain then .error (.fatal task walk.chain)
      else
        (tasks.foldlM (visitOther d endtask (followChain depth) task)
          { walk with chain := walk.chain ++ [task] }).map fun walk =>
            { walk with chain := walk.chain.dropLast }

/-- `tasksbetween`; the names come in the order in which the datastore has them.
-/
def tasksbetween (names : List Text) (depth : ℕ) (taskStart taskEnd : Text) :
    Except Stop (List Text) :=
  (followChain d (names.filter d.isTask) taskEnd depth taskStart ⟨[], []⟩).map
    Walk.outtasks

def Dependent (task other : Text) : Prop :=
  other ∈ tasks ∧ task ∈ d.depsOrNone other

/-- A task that depends on itself, over however many others, is reached. -/
def CycleFrom (task : Text) : Prop :=
  ∃ other, Relation.ReflTransGen (Dependent d tasks) task other ∧
    Relation.TransGen (Dependent d tasks) other other

/-- The task is on a way that ends when it comes to the last one. -/
inductive OnWay : Text → Text → Prop where
  | stop : (∃ other ∈ tasks, other ≠ endtask) → OnWay endtask endtask
  | here {task next other : Text} : task ≠ endtask → next ≠ task →
      Dependent d tasks task next → OnWay next other → OnWay task task
  | later {task next other : Text} : task ≠ endtask → next ≠ task →
      Dependent d tasks task next → OnWay next other → OnWay task other

variable {d tasks endtask}

theorem OnWay.first {task other : Text}
    (onWay : OnWay d tasks endtask task other) :
    OnWay d tasks endtask task task := by
  cases onWay with
  | stop more => exact .stop more
  | here notEnd apart dependent next => exact .here notEnd apart dependent next
  | later notEnd apart dependent next => exact .here notEnd apart dependent next

def Adds (d : TaskData) (tasks : List Text) (endtask : Text) (chain : List Text)
    (task other : Text) : Prop :=
  other ∈ chain ∧ OnWay d tasks endtask task task ∨
    OnWay d tasks endtask task other

theorem adds_iff {chain : List Text} {task other : Text} :
    Adds d tasks endtask chain task other ↔ ∃ next ∈ tasks, next ≠ task ∧
      (task = endtask ∧ other ∈ chain ++ [task] ∨ task ≠ endtask ∧
        task ∈ d.depsOrNone next ∧
          Adds d tasks endtask (chain ++ [task]) next other) := by
  constructor
  · intro adds
    have way : ∀ {goal}, OnWay d tasks endtask task goal →
        (other ∈ chain ∨ goal = other) →
        ∃ next ∈ tasks, next ≠ task ∧
          (task = endtask ∧ other ∈ chain ++ [task] ∨
          task ≠ endtask ∧ task ∈ d.depsOrNone next ∧
            Adds d tasks endtask (chain ++ [task]) next other) := by
      intro goal onWay isOther
      cases onWay with
      | stop more =>
          obtain ⟨next, isTask, apart⟩ := more
          refine ⟨next, isTask, apart, .inl ⟨rfl, ?_⟩⟩
          simpa [eq_comm] using isOther
      | here notEnd apart dependent later =>
          refine ⟨_, dependent.1, apart,
            .inr ⟨notEnd, dependent.2, .inl ⟨?_, later.first⟩⟩⟩
          simpa [eq_comm] using isOther
      | later notEnd apart dependent later =>
          refine ⟨_, dependent.1, apart, .inr ⟨notEnd, dependent.2, ?_⟩⟩
          rcases isOther with inChain | rfl
          · exact .inl ⟨by simp [inChain], later.first⟩
          · exact .inr later
    rcases adds with ⟨inChain, onWay⟩ | onWay
    · exact way onWay (.inl inChain)
    · exact way onWay (.inr rfl)
  · rintro ⟨next, isTask, apart, ⟨rfl, inChain⟩ | ⟨notEnd, dependent, adds⟩⟩
    · have stop : OnWay d tasks task task task := .stop ⟨next, isTask, apart⟩
      rcases List.mem_append.mp inChain with inside | isTask
      · exact .inl ⟨inside, stop⟩
      · rw [List.mem_singleton.mp isTask]
        exact .inr stop
    · rcases adds with ⟨inChain, onWay⟩ | onWay
      · have here : OnWay d tasks endtask task task :=
          .here notEnd apart ⟨isTask, dependent⟩ onWay
        rcases List.mem_append.mp inChain with inside | isTask
        · exact .inl ⟨inside, here⟩
        · rw [List.mem_singleton.mp isTask]
          exact .inr here
      · exact .inr (.later notEnd apart ⟨isTask, dependent⟩ onWay)

theorem mem_foldl_addTask {chain outtasks : List Text} {task : Text} :
    task ∈ chain.foldl addTask outtasks ↔ task ∈ outtasks ∨ task ∈ chain := by
  induction chain generalizing outtasks with
  | nil => simp
  | cons first chain induction =>
      rw [List.foldl_cons, induction, addTask]
      split_ifs with present
      · simp only [List.mem_cons]
        constructor
        · rintro (old | later)
          · exact .inl old
          · exact .inr (.inr later)
        · rintro (old | rfl | later)
          · exact .inl old
          · exact .inl present
          · exact .inr later
      · simp [or_assoc]

theorem nodup_foldl_addTask {chain outtasks : List Text}
    (nodup : outtasks.Nodup) : (chain.foldl addTask outtasks).Nodup := by
  induction chain generalizing outtasks with
  | nil => exact nodup
  | cons first chain induction =>
      apply induction
      rw [addTask]
      split_ifs with present
      · exact nodup
      · exact List.Nodup.append nodup (List.nodup_singleton _)
          (by simpa using present)

/-- The search went back to the chain, and its tasks were added. -/
structure Followed (d : TaskData) (tasks : List Text) (endtask task : Text)
    (walk walk' : Walk) : Prop where
  chain : walk'.chain = walk.chain
  nodup : walk.outtasks.Nodup → walk'.outtasks.Nodup
  mem : ∀ other, other ∈ walk'.outtasks ↔
    other ∈ walk.outtasks ∨ Adds d tasks endtask walk.chain task other

/-- A chain whose tasks all lead to the task that follows. -/
structure Chained (d : TaskData) (tasks chain : List Text) (task : Text) :
    Prop where
  nodup : chain.Nodup
  subset : chain ⊆ tasks
  isTask : task ∈ tasks
  leads : ∀ other ∈ chain, Relation.TransGen (Dependent d tasks) other task

theorem Chained.next {chain : List Text} {task next : Text}
    (chained : Chained d tasks chain task)
    (fresh : task ∉ chain) (dependent : Dependent d tasks task next) :
    Chained d tasks (chain ++ [task]) next := by
  constructor
  · exact List.Nodup.append chained.nodup (List.nodup_singleton _)
      (by simpa using fresh)
  · intro other member
    rcases List.mem_append.mp member with inside | isTask
    · exact chained.subset inside
    · rw [List.mem_singleton.mp isTask]
      exact chained.isTask
  · exact dependent.1
  · intro other member
    rcases List.mem_append.mp member with inside | isTask
    · exact (chained.leads other inside).tail dependent
    · rw [List.mem_singleton.mp isTask]
      exact .single dependent

/-- Only a cycle ends the search early. -/
def Circular (d : TaskData) (tasks : List Text) (task : Text) (stop : Stop) :
    Prop :=
  (∃ other chain, stop = .fatal other chain) ∧ CycleFrom d tasks task

/-- What the rounds for some of the tasks have added. -/
structure Visited (d : TaskData) (tasks : List Text) (endtask task : Text)
    (walk : Walk) (done : List Text) (state : Walk) : Prop where
  chain : state.chain = walk.chain ++ [task]
  nodup : walk.outtasks.Nodup → state.outtasks.Nodup
  mem : ∀ other, other ∈ state.outtasks ↔ other ∈ walk.outtasks ∨
    ∃ next ∈ done, next ≠ task ∧
      (task = endtask ∧ other ∈ walk.chain ++ [task] ∨
      task ≠ endtask ∧ task ∈ d.depsOrNone next ∧
        Adds d tasks endtask (walk.chain ++ [task]) next other)

section Visited

variable {task next : Text} {walk state state' : Walk} {done : List Text}

theorem Visited.concat (visited : Visited d tasks endtask task walk done state)
    (chain : state'.chain = state.chain)
    (nodup : state.outtasks.Nodup → state'.outtasks.Nodup)
    (mem : ∀ other, other ∈ state'.outtasks ↔ other ∈ state.outtasks ∨
      next ≠ task ∧
      (task = endtask ∧ other ∈ walk.chain ++ [task] ∨ task ≠ endtask ∧
        task ∈ d.depsOrNone next ∧
          Adds d tasks endtask (walk.chain ++ [task]) next other)) :
    Visited d tasks endtask task walk (done ++ [next]) state' := by
  constructor
  · exact chain.trans visited.chain
  · exact nodup ∘ visited.nodup
  · intro other
    rw [mem, visited.mem]
    simp only [List.mem_append, List.mem_singleton, or_assoc]
    apply or_congr_right
    constructor
    · rintro (⟨earlier, isDone, found⟩ | found)
      · exact ⟨earlier, .inl isDone, found⟩
      · exact ⟨next, .inr rfl, found⟩
    · rintro ⟨earlier, isDone | rfl, found⟩
      · exact .inl ⟨earlier, isDone, found⟩
      · exact .inr found

theorem Visited.skip (visited : Visited d tasks endtask task walk done state)
    (nothing : next = task ∨ task ≠ endtask ∧ task ∉ d.depsOrNone next) :
    Visited d tasks endtask task walk (done ++ [next]) state := by
  apply visited.concat rfl id
  intro other
  rcases nothing with same | ⟨notEnd, independent⟩
  · simp [same]
  · simp [notEnd, independent]

end Visited

theorem visitOther_results (hasDeps : ∀ task ∈ tasks, (d.deps task).isSome)
    {follow : Text → Walk → Except Stop Walk} {task next : Text}
    {walk state : Walk} {done : List Text}
    (visited : Visited d tasks endtask task walk done state)
    (isTask : next ∈ tasks) (follows : Dependent d tasks task next →
      Results (Followed d tasks endtask next state) (Circular d tasks next)
        (follow next state)) :
    Results (Visited d tasks endtask task walk (done ++ [next]))
      (Circular d tasks task)
      (visitOther d endtask follow task state next) := by
  rw [visitOther]
  by_cases same : next = task
  · rw [if_pos same]
    exact visited.skip (.inl same)
  rw [if_neg same]
  by_cases isEnd : task = endtask
  · rw [if_pos isEnd]
    apply Visited.concat visited
    · rfl
    · exact nodup_foldl_addTask
    · intro other
      rw [mem_foldl_addTask, visited.chain]
      subst isEnd
      simp [same]
  rw [if_neg isEnd]
  obtain ⟨deps, isDeps⟩ := Option.isSome_iff_exists.mp (hasDeps next isTask)
  have orNone : d.depsOrNone next = deps := by
    rw [TaskData.depsOrNone, isDeps]
    rfl
  rw [isDeps]
  dsimp only
  by_cases depends : task ∈ deps
  · rw [if_pos depends]
    have dependent : Dependent d tasks task next := ⟨isTask, orNone ▸ depends⟩
    have further := follows dependent
    cases followed : follow next state with
    | ok state' =>
        rw [followed] at further
        apply visited.concat further.chain further.nodup
        intro other
        rw [further.mem, visited.chain]
        simp [same, isEnd, orNone, depends]
    | error stop =>
        rw [followed] at further
        obtain ⟨isFatal, other, reached, cycle⟩ := further
        exact ⟨isFatal, other, .head dependent reached, cycle⟩
  · rw [if_neg depends]
    exact visited.skip (.inr ⟨isEnd, orNone ▸ depends⟩)

theorem followChain_results (hasDeps : ∀ task ∈ tasks, (d.deps task).isSome)
    {depth : ℕ} {task : Text} {walk : Walk}
    (chained : Chained d tasks walk.chain task)
    (deep : tasks.length < depth + walk.chain.length) :
    Results (Followed d tasks endtask task walk) (Circular d tasks task)
      (followChain d tasks endtask depth task walk) := by
  induction depth generalizing task walk with
  | zero =>
      have short :=
        (List.subperm_of_subset chained.nodup chained.subset).length_le
      omega
  | succ depth induction =>
      rw [followChain]
      by_cases circular : task ∈ walk.chain
      · rw [if_pos circular]
        exact ⟨⟨_, _, rfl⟩, task, .refl, chained.leads task circular⟩
      rw [if_neg circular]
      have rounds : Results (Visited d tasks endtask task walk tasks)
          (Circular d tasks task)
          (tasks.foldlM
            (visitOther d endtask (followChain d tasks endtask depth) task)
            { walk with chain := walk.chain ++ [task] }) := by
        apply foldlM_results
        · exact ⟨rfl, id, by simp⟩
        · intro done next state isPart visited
          apply visitOther_results hasDeps visited (isPart.subset (by simp))
          intro dependent
          have chain := visited.chain
          apply induction (chain ▸ chained.next circular dependent)
          rw [chain, List.length_append, List.length_singleton]
          omega
      cases folded :
        tasks.foldlM (visitOther d endtask (followChain d tasks endtask depth)
          task) { walk with chain := walk.chain ++ [task] } with
      | error stop =>
          rw [folded] at rounds
          exact rounds
      | ok state =>
          rw [folded] at rounds
          apply Followed.mk
          · dsimp only
            rw [rounds.chain, List.dropLast_concat]
          · exact rounds.nodup
          · intro other
            dsimp only
            rw [rounds.mem, adds_iff]

theorem visitOther_congr {follow follow' : Text → Walk → Except Stop Walk}
    {task next : Text} {walk : Walk}
    (same : ∀ task walk, follow task walk ≠ .error .deep →
      follow' task walk = follow task walk)
    (ended : visitOther d endtask follow task walk next ≠ .error .deep) :
    visitOther d endtask follow' task walk next =
      visitOther d endtask follow task walk next := by
  rw [visitOther] at ended
  rw [visitOther, visitOther]
  by_cases isSelf : next = task
  · rw [if_pos isSelf, if_pos isSelf]
  by_cases isEnd : task = endtask
  · rw [if_neg isSelf, if_pos isEnd, if_neg isSelf, if_pos isEnd]
  rw [if_neg isSelf, if_neg isEnd] at ended ⊢
  rw [if_neg isSelf, if_neg isEnd]
  cases isDeps : d.deps next with
  | none => rfl
  | some deps =>
      rw [isDeps] at ended
      dsimp only at ended ⊢
      by_cases depends : task ∈ deps
      · rw [if_pos depends] at ended ⊢
        rw [if_pos depends]
        exact same next walk ended
      · rw [if_neg depends, if_neg depends]

theorem followChain_succ {depth : ℕ} {task : Text} {walk : Walk}
    (ended : followChain d tasks endtask depth task walk ≠ .error .deep) :
    followChain d tasks endtask (depth + 1) task walk =
      followChain d tasks endtask depth task walk := by
  induction depth generalizing task walk with
  | zero => exact absurd rfl ended
  | succ depth induction =>
      rw [followChain] at ended
      rw [followChain, followChain]
      by_cases circular : task ∈ walk.chain
      · rw [if_pos circular, if_pos circular]
      rw [if_neg circular] at ended ⊢
      rw [if_neg circular]
      have rounds :
          tasks.foldlM (visitOther d endtask (followChain d tasks endtask depth)
            task)
          { walk with chain := walk.chain ++ [task] } ≠ .error .deep := by
        intro cut
        rw [cut] at ended
        exact ended rfl
      rw [foldlM_congr_of_ne (fun state next => visitOther_congr fun _ _ =>
        induction) rounds]

theorem followChain_of_le {depth more : ℕ} {task : Text} {walk : Walk}
    (deeper : depth ≤ more)
    (ended : followChain d tasks endtask depth task walk ≠ .error .deep) :
    followChain d tasks endtask more task walk =
      followChain d tasks endtask depth task walk := by
  induction more, deeper using Nat.le_induction with
  | base => rfl
  | succ more deeper induction =>
      rw [followChain_succ, induction]
      rw [induction]
      exact ended

section Acyclic

variable {task next other : Text}

theorem CycleFrom.head (dependent : Dependent d tasks task next)
    (cycle : CycleFrom d tasks next) : CycleFrom d tasks task := by
  obtain ⟨other, reached, circular⟩ := cycle
  exact ⟨other, .head dependent reached, circular⟩

theorem ne_of_dependent (acyclic : ¬ CycleFrom d tasks task)
    (dependent : Dependent d tasks task next)
    (reached : Relation.ReflTransGen (Dependent d tasks) next other) :
    task ≠ other := by
  intro same
  apply acyclic
  refine ⟨task, .refl, .head' dependent ?_⟩
  rw [same]
  exact reached

theorem OnWay.dependent (onWay : OnWay d tasks endtask task other) :
    Relation.ReflTransGen (Dependent d tasks) task other ∧
      Relation.ReflTransGen (Dependent d tasks) other endtask := by
  induction onWay with
  | stop more => exact ⟨.refl, .refl⟩
  | here notEnd apart dependent later induction =>
      exact ⟨.refl, .head dependent (induction.1.trans induction.2)⟩
  | later notEnd apart dependent later induction =>
      exact ⟨.head dependent induction.1, induction.2⟩

theorem onWay_self (acyclic : ¬ CycleFrom d tasks task)
    (reaches : Relation.ReflTransGen (Dependent d tasks) task endtask)
    (more : ∃ other ∈ tasks, other ≠ endtask) :
    OnWay d tasks endtask task task := by
  induction reaches using Relation.ReflTransGen.head_induction_on with
  | refl => exact .stop more
  | head dependent later induction =>
      have onWay := induction (mt (CycleFrom.head dependent) acyclic)
      have apart := (ne_of_dependent acyclic dependent .refl).symm
      exact .here (ne_of_dependent acyclic dependent later) apart dependent
        onWay

theorem onWay_iff (acyclic : ¬ CycleFrom d tasks task)
    (more : ∃ other ∈ tasks, other ≠ endtask) :
    OnWay d tasks endtask task other ↔
      Relation.ReflTransGen (Dependent d tasks) task other ∧
        Relation.ReflTransGen (Dependent d tasks) other endtask := by
  constructor
  · exact OnWay.dependent
  · rintro ⟨reached, reaches⟩
    induction reached using Relation.ReflTransGen.head_induction_on with
    | refl => exact onWay_self acyclic reaches more
    | head dependent later induction =>
        have onWay := induction (mt (CycleFrom.head dependent) acyclic)
        have apart := (ne_of_dependent acyclic dependent .refl).symm
        have notEnd := ne_of_dependent acyclic dependent (later.trans reaches)
        exact .later notEnd apart dependent onWay

end Acyclic

/-- The search ends, however deep it may go.  Without a cycle the result has
each task on a chain of dependencies once, and only a cycle is fatal. -/
def Between (d : TaskData) (names : List Text) (taskStart taskEnd : Text) :
    Prop :=
  ∃ depth result, result ≠ .error .deep ∧
    (∀ more, depth ≤ more → tasksbetween d names more taskStart taskEnd =
      result) ∧
    (¬ CycleFrom d d.bbtasks taskStart → ∃ outtasks, result = .ok outtasks ∧
      outtasks.Nodup ∧ ∀ task, task ∈ outtasks ↔
        Relation.ReflTransGen (Dependent d d.bbtasks) taskStart task ∧
          Relation.ReflTransGen (Dependent d d.bbtasks) task taskEnd) ∧
    ∀ task chain, result = .error (.fatal task chain) →
      CycleFrom d d.bbtasks taskStart

section Between

variable {names : List Text} {taskStart taskEnd : Text}
  (wellFormed : d.WellFormed)
include wellFormed

theorem mem_tasks (order : names.Perm d.flags.keys) {task : Text} :
    task ∈ names.filter d.isTask ↔ task ∈ d.bbtasks := by
  rw [List.mem_filter, order.mem_iff, wellFormed.listed]
  apply and_iff_right_of_imp
  intro isListed
  have isTask := (wellFormed.listed task).mpr isListed
  by_contra unknown
  have noFlags := (not_iff_not.mpr Dict.get?_ne_none_iff).mpr unknown
  rw [not_not] at noFlags
  rw [TaskData.isTask, TaskData.flagsOf, noFlags] at isTask
  cases isTask

theorem tasksbetween_results (order : names.Perm d.flags.keys)
    (isStart : taskStart ∈ d.bbtasks)
    {depth : ℕ} (deep : (names.filter d.isTask).length < depth) :
    Results (fun outtasks => outtasks.Nodup ∧ ∀ task,
        task ∈ outtasks ↔ OnWay d (names.filter d.isTask) taskEnd taskStart
          task)
      (Circular d (names.filter d.isTask) taskStart)
      (tasksbetween d names depth taskStart taskEnd) := by
  have inTasks := fun task => @mem_tasks d names wellFormed order task
  have results := @followChain_results d (names.filter d.isTask) taskEnd
    (fun task isTask => wellFormed.hasDeps task ((inTasks task).mp isTask))
    depth taskStart ⟨[], []⟩
    ⟨List.nodup_nil, List.nil_subset _, (inTasks _).mpr isStart, by simp⟩
    (by simpa using deep)
  rw [tasksbetween]
  cases followed : followChain d (names.filter d.isTask) taskEnd depth taskStart
    ⟨[], []⟩ with
  | error stop =>
      rw [followed] at results
      exact results
  | ok walk =>
      rw [followed] at results
      refine ⟨results.nodup List.nodup_nil, ?_⟩
      intro task
      rw [results.mem]
      simp [Adds]

theorem dependent_filter (order : names.Perm d.flags.keys) :
    Dependent d (names.filter d.isTask) = Dependent d d.bbtasks := by
  funext task other
  rw [Dependent, Dependent, mem_tasks wellFormed order]

theorem between_of_more (order : names.Perm d.flags.keys)
    (isStart : taskStart ∈ d.bbtasks)
    (more : CycleFrom d d.bbtasks taskStart ∨ ∃ other ∈ d.bbtasks,
      other ≠ taskEnd) :
    Between d names taskStart taskEnd := by
  have results :=
    @tasksbetween_results d names taskStart taskEnd wellFormed order isStart _
    (Nat.lt_succ_self _)
  have sameEdges := @dependent_filter d names wellFormed order
  have ended : tasksbetween d names ((names.filter d.isTask).length + 1)
      taskStart taskEnd ≠ .error .deep := by
    intro cut
    rw [cut] at results
    obtain ⟨⟨_, _, isFatal⟩, _⟩ := results
    cases isFatal
  refine ⟨(names.filter d.isTask).length + 1, _, ended, ?_, ?_, ?_⟩
  · intro depth deeper
    rw [tasksbetween, tasksbetween, followChain_of_le deeper]
    intro cut
    rw [tasksbetween, cut] at ended
    exact ended rfl
  · intro acyclic
    have isAcyclic : ¬ CycleFrom d (names.filter d.isTask) taskStart := by
      rw [CycleFrom, sameEdges]
      exact acyclic
    cases isResult : tasksbetween d names ((names.filter d.isTask).length + 1)
      taskStart taskEnd with
    | error stop =>
        rw [isResult] at results
        exact absurd results.2 isAcyclic
    | ok outtasks =>
        rw [isResult] at results
        refine ⟨outtasks, rfl, results.1, ?_⟩
        intro task
        obtain ⟨other, isOther, apart⟩ := more.resolve_left acyclic
        have isTask := (mem_tasks wellFormed order).mpr isOther
        rw [results.2, onWay_iff isAcyclic ⟨other, isTask, apart⟩, sameEdges]
  · intro task chain isFatal
    rw [isFatal] at results
    rw [CycleFrom, ← sameEdges]
    exact results.2

end Between

/-- The search does what it should unless it starts at its end and that is the
only task. -/
theorem between_iff (calls : List TaskData.TaskCall) (names : List Text)
    (order : names.Perm (TaskData.run calls).flags.keys)
    (taskStart taskEnd : Text)
    (isStart : taskStart ∈ (TaskData.run calls).bbtasks)
    (isEnd : taskEnd ∈ (TaskData.run calls).bbtasks) :
    Between (TaskData.run calls) names taskStart taskEnd ↔
      taskStart ≠ taskEnd ∨
        (∃ other ∈ (TaskData.run calls).bbtasks, other ≠ taskStart) ∨
        taskStart ∈ (TaskData.run calls).depsOrNone taskStart := by
  have wellFormed := TaskData.wellFormed_run calls
  generalize TaskData.run calls = d at *
  constructor
  · intro between
    by_contra alone
    simp only [not_or, not_not, not_exists, not_and] at alone
    obtain ⟨rfl, only, independent⟩ := alone
    have acyclic : ¬ CycleFrom d d.bbtasks taskStart := by
      rintro ⟨other, reached, circular⟩
      have isOnly : other = taskStart := by
        rcases Relation.ReflTransGen.cases_tail reached with same |
          ⟨_, _, dependent⟩
        · exact same
        · exact only other dependent.1
      rw [isOnly] at circular
      obtain ⟨next, dependent, _⟩ := Relation.TransGen.head'_iff.mp circular
      have isSelf := only next dependent.1
      rw [isSelf] at dependent
      exact independent dependent.2
    obtain ⟨depth, result, _, ends, returns, _⟩ := between
    obtain ⟨outtasks, isOk, _, mem⟩ := returns acyclic
    have added := (mem taskStart).mpr ⟨.refl, .refl⟩
    let deeper := max depth ((names.filter d.isTask).length + 1)
    have results :=
      @tasksbetween_results d names taskStart taskStart wellFormed order isStart
      deeper (by omega)
    rw [ends deeper (le_max_left _ _), isOk] at results
    have onWay := (results.2 taskStart).mp added
    cases onWay with
    | stop more =>
        obtain ⟨other, isTask, apart⟩ := more
        exact apart (only other ((mem_tasks wellFormed order).mp isTask))
    | here notEnd => exact notEnd rfl
    | later notEnd => exact notEnd rfl
  · rintro (apart | ⟨other, isOther, apart⟩ | circular)
    · exact between_of_more wellFormed order isStart
        (.inr ⟨taskStart, isStart, apart⟩)
    · by_cases same : taskStart = taskEnd
      · exact between_of_more wellFormed order isStart
          (.inr ⟨other, isOther, same ▸ apart⟩)
      · exact between_of_more wellFormed order isStart
          (.inr ⟨taskStart, isStart, same⟩)
    · apply between_of_more wellFormed order isStart
      exact .inl ⟨taskStart, .refl, .single ⟨isStart, circular⟩⟩

section Sample

open TaskData

theorem between_two : Between
    (run [.addtask "a".toList none none,
      .addtask "b".toList none (some "a".toList)])
    ["do_b".toList, "do_a".toList] "do_a".toList "do_b".toList := by
  apply (between_iff [.addtask "a".toList none none,
    .addtask "b".toList none (some "a".toList)]
    ["do_b".toList, "do_a".toList] _ "do_a".toList "do_b".toList (by decide)
    (by decide)).mpr
  · exact .inl (by decide)
  · exact List.Perm.swap _ _ _

/-- Nothing is between the only task and itself. -/
theorem not_between_alone :
    ¬ ∀ (calls : List TaskCall) (names : List Text),
      names.Perm (run calls).flags.keys →
      ∀ taskStart ∈ (run calls).bbtasks, ∀ taskEnd ∈ (run calls).bbtasks,
        Between (run calls) names taskStart taskEnd := by
  intro claimed
  obtain ⟨depth, result, _, ends, returns, _⟩ :=
    claimed [.addtask "a".toList none none]
    ["do_a".toList] (List.Perm.refl _) "do_a".toList (by decide) "do_a".toList
    (by decide)
  have nothing : result = .ok [] := (ends (depth + 1) (Nat.le_succ _)).symm
  have independent : ∀ task other,
      ¬ Dependent (run [.addtask "a".toList none none]) ["do_a".toList] task
        other := by
    rintro task other ⟨isTask, depends⟩
    rw [List.mem_singleton.mp isTask] at depends
    exact absurd depends List.not_mem_nil
  have acyclic : ¬ CycleFrom (run [.addtask "a".toList none none])
      ["do_a".toList] "do_a".toList := by
    rintro ⟨other, _, circular⟩
    obtain ⟨next, dependent, _⟩ := Relation.TransGen.head'_iff.mp circular
    exact independent other next dependent
  obtain ⟨outtasks, isOk, _, mem⟩ := returns acyclic
  rw [nothing] at isOk
  cases isOk
  exact absurd ((mem "do_a".toList).mpr ⟨.refl, .refl⟩) List.not_mem_nil

end Sample

end Nvbmc.Build
