import Nvbmc.Library.Folding
import Nvbmc.Library.Grouping
import Nvbmc.Prepare.AddTasks

/-!
# What the task data hold

Task data without failed recipes have the tasks of the recipes that were added,
each with its own entry, and the `[mcdepends]` entries of all of them in one
list.
-/

namespace Nvbmc.Prepare

open Nvbmc.Library

namespace DataCache

/-- The names a recipe depends on. -/
def buildDeps (dataCache : DataCache) (fn : Text) : List Text :=
  (dataCache.deps.get? fn).getD []

/-- The names the packages of a recipe depend on or recommend. -/
def runtimeDeps (dataCache : DataCache) (fn : Text) : List Text :=
  (((dataCache.rundeps.get? fn).getD []).flatMap Prod.snd) ++
    (((dataCache.runrecs.get? fn).getD []).flatMap Prod.snd)

def FlagWord (dataCache : DataCache) (flag : TaskDeps → Dict Text Text)
    (tid : Tid) (word : Text) : Prop :=
  ∃ taskDeps, dataCache.taskDeps.get? tid.fn = some taskDeps ∧
    ∃ value, (flag taskDeps).get? tid.taskname = some value ∧ word ∈ words value

end DataCache

namespace TaskData

/-- What holds of task data without failed recipes. -/
structure Holds (dataCache : DataCache) (data : TaskData) : Prop where
  unfailed : data.failedFns = []
  unique : data.taskentries.keys.Nodup
  tasks : ∀ tid, tid ∈ data.taskentries.keys ↔ tid.fn ∈ data.seenfns ∧
    ∃ taskDeps, dataCache.taskDeps.get? tid.fn = some taskDeps ∧
      tid.taskname ∈ taskDeps.tasks
  entries : ∀ tid entry, data.taskentries.get? tid = some entry →
    ∃ taskDeps, dataCache.taskDeps.get? tid.fn = some taskDeps ∧
      taskEntry tid.fn taskDeps tid.taskname = .ok entry
  mcdepends : ∀ dep, dep ∈ data.mcdepends ↔
    ∃ tid ∈ data.taskentries.keys, dataCache.FlagWord TaskDeps.mcdepends tid dep
  depids : ∀ fn ids, data.depids.get? fn = some ids →
    ∀ name, name ∈ ids ↔ name ∈ dataCache.buildDeps fn
  rdepids : ∀ fn ids, data.rdepids.get? fn = some ids →
    ∀ name, name ∈ ids ↔ name ∈ dataCache.runtimeDeps fn
  listed : ∀ fn ∈ data.seenfns, data.depids.contains fn ∧
    data.rdepids.contains fn

variable {dataCache : DataCache} {data data' : TaskData} {fn task : Text}
  {taskDeps : TaskDeps}

theorem foldl_seenBuildTarget (names : List Text) (data : TaskData) :
    ∃ buildTargets, names.foldl seenBuildTarget data =
      { data with buildTargets := buildTargets } := by
  induction names generalizing data with
  | nil => exact ⟨data.buildTargets, rfl⟩
  | cons name rest induction =>
      obtain ⟨buildTargets, folded⟩ := induction (data.seenBuildTarget name)
      rw [List.foldl_cons, folded]
      refine ⟨buildTargets, ?_⟩
      rw [seenBuildTarget]
      split_ifs <;> rfl

theorem foldl_seenRunTarget (names : List Text) (data : TaskData) :
    ∃ runTargets, names.foldl seenRunTarget data = { data with
      runTargets := runTargets } := by
  induction names generalizing data with
  | nil => exact ⟨data.runTargets, rfl⟩
  | cons name rest induction =>
      obtain ⟨runTargets, folded⟩ := induction (data.seenRunTarget name)
      rw [List.foldl_cons, folded]
      refine ⟨runTargets, ?_⟩
      rw [seenRunTarget]
      split_ifs <;> rfl

/-- The list of `[mcdepends]` entries grows by the words of the flag. -/
theorem addMcdepends_eq
    (added : addMcdepends fn taskDeps data task = .ok data') :
    ∃ mcdepends, data' = { data with mcdepends := mcdepends } ∧
      ∀ dep, dep ∈ mcdepends ↔ dep ∈ data.mcdepends ∨
        ∃ value, taskDeps.mcdepends.get? task = some value ∧
          dep ∈ words value := by
  rw [addMcdepends] at added
  cases flag : taskDeps.mcdepends.get? task with
  | none =>
      rw [flag] at added
      cases added
      exact ⟨data.mcdepends, rfl, by simp⟩
  | some value =>
      rw [flag] at added
      have loop := foldlM_rule (motive := fun done now => ∃ mcdepends,
        now = { data with mcdepends := mcdepends } ∧
          ∀ dep, dep ∈ mcdepends ↔ dep ∈ data.mcdepends ∨ dep ∈ done)
        ⟨data.mcdepends, rfl, by simp⟩ ?_ added
      · obtain ⟨mcdepends, isData, mem⟩ := loop
        exact ⟨mcdepends, isData, by simpa using mem⟩
      · rintro done dep _ now _ ⟨mcdepends, rfl, mem⟩ ran
        split_ifs at ran with _ old
        · cases ran
          refine ⟨mcdepends, rfl, ?_⟩
          intro other
          rw [mem, List.mem_append, List.mem_singleton]
          have known := (mem dep).mp old
          grind
        · cases ran
          refine ⟨mcdepends ++ [dep], rfl, ?_⟩
          intro other
          rw [List.mem_append, mem, List.mem_append, or_assoc]

/-- One task adds its entry and its `[mcdepends]` entries. -/
theorem addTask_eq (added : addTask fn taskDeps data task = .ok data') :
    ∃ entry mcdepends, taskEntry fn taskDeps task = .ok entry ∧
      data'.seenfns = data.seenfns ∧ data'.failedFns = data.failedFns ∧
      data'.depids = data.depids ∧ data'.rdepids = data.rdepids ∧
      data'.taskentries = data.taskentries.set (Tid.of fn task) entry ∧
      data'.mcdepends = mcdepends ∧
      ∀ dep, dep ∈ mcdepends ↔ dep ∈ data.mcdepends ∨
        ∃ value, taskDeps.mcdepends.get? task = some value ∧
          dep ∈ words value := by
  rw [addTask] at added
  obtain ⟨entry, isEntry, added⟩ := bind_eq_ok.mp added
  obtain ⟨buildTargets, seen⟩ :=
    foldl_seenBuildTarget (entry.idepends.map Prod.fst)
    { data with taskentries := data.taskentries.set (Tid.of fn task) entry }
  obtain ⟨runTargets, seenRun⟩ :=
    foldl_seenRunTarget (entry.irdepends.map Prod.fst) { data with
      taskentries := data.taskentries.set (Tid.of fn task) entry
      buildTargets := buildTargets }
  simp only [seen, seenRun] at added
  obtain ⟨mcdepends, rfl, mem⟩ := addMcdepends_eq added
  exact ⟨entry, mcdepends, isEntry, rfl, rfl, rfl, rfl, rfl, rfl, mem⟩

/-- What the tasks of a recipe add so far. -/
structure Added (fn : Text) (taskDeps : TaskDeps) (done : List Text)
    (data data' : TaskData) : Prop where
  seenfns : data'.seenfns = data.seenfns
  failedFns : data'.failedFns = data.failedFns
  depids : data'.depids = data.depids
  rdepids : data'.rdepids = data.rdepids
  unique : data.taskentries.keys.Nodup → data'.taskentries.keys.Nodup
  tasks : ∀ tid, tid ∈ data'.taskentries.keys ↔
    tid ∈ data.taskentries.keys ∨ ∃ task ∈ done, tid = Tid.of fn task
  entries : ∀ tid entry, data'.taskentries.get? tid = some entry →
    data.taskentries.get? tid = some entry ∨
      ∃ task ∈ done, tid = Tid.of fn task ∧ taskEntry fn taskDeps task = .ok
        entry
  mcdepends : ∀ dep, dep ∈ data'.mcdepends ↔ dep ∈ data.mcdepends ∨
    ∃ task ∈ done, ∃ value, taskDeps.mcdepends.get? task = some value ∧
      dep ∈ words value

theorem Added.start : Added fn taskDeps [] data data :=
  ⟨rfl, rfl, rfl, rfl, id, by simp, fun _ _ => .inl, by simp⟩

theorem Added.step {done : List Text} {now : TaskData}
    (soFar : Added fn taskDeps done data now)
    (added : addTask fn taskDeps now task = .ok data') :
    Added fn taskDeps (done ++ [task]) data data' := by
  obtain ⟨entry, mcdepends, isEntry, seenfns, failedFns, depids, rdepids,
      entries, isList, mem⟩ :=
    addTask_eq added
  constructor
  · exact seenfns.trans soFar.seenfns
  · exact failedFns.trans soFar.failedFns
  · exact depids.trans soFar.depids
  · exact rdepids.trans soFar.rdepids
  · intro unique
    rw [entries]
    exact Dict.nodup_keys_set (soFar.unique unique) _ _
  · intro tid
    rw [entries, Dict.mem_keys_set, soFar.tasks]
    simp only [List.mem_append, List.mem_singleton]
    grind
  · intro tid found isFound
    rw [entries, Dict.get?_set] at isFound
    split_ifs at isFound with same
    · cases isFound
      exact .inr ⟨task, by simp, same, isEntry⟩
    · rcases soFar.entries tid found isFound with old |
        ⟨other, member, isTid, isOther⟩
      · exact .inl old
      · exact .inr ⟨other, List.mem_append_left _ member, isTid, isOther⟩
  · intro dep
    rw [isList, mem, soFar.mcdepends]
    simp only [List.mem_append, List.mem_singleton]
    grind

theorem seeDeps_eq {see : TaskData → Text → TaskData}
    {failed : TaskData → List Text}
    {deps : List Text}
    (changes : ∀ data name, ∃ buildTargets runTargets, see data name =
      { data with buildTargets := buildTargets, runTargets := runTargets })
    (ran : seeDeps fn see failed data deps = .ok data') :
    ∃ buildTargets runTargets,
      data' = { data with
        buildTargets := buildTargets, runTargets := runTargets } := by
  apply foldlM_rule (motive := fun _ now => ∃ buildTargets runTargets,
    now = { data with buildTargets := buildTargets, runTargets := runTargets })
    ⟨data.buildTargets, data.runTargets, rfl⟩ ?_ ran
  rintro _ dep now _ _ ⟨buildTargets, runTargets, rfl⟩ ran
  split_ifs at ran
  cases ran
  obtain ⟨laterBuild, laterRun, changed⟩ := changes _ dep
  exact ⟨laterBuild, laterRun, changed⟩

theorem seenBuildTarget_eq (data : TaskData) (name : Text) :
    ∃ buildTargets runTargets, data.seenBuildTarget name =
      { data with buildTargets := buildTargets, runTargets := runTargets } := by
  rw [seenBuildTarget]
  split_ifs
  · exact ⟨_, _, rfl⟩
  · exact ⟨_, data.runTargets, rfl⟩

theorem seenRunTarget_eq (data : TaskData) (name : Text) :
    ∃ buildTargets runTargets, data.seenRunTarget name =
      { data with buildTargets := buildTargets, runTargets := runTargets } := by
  rw [seenRunTarget]
  split_ifs
  · exact ⟨_, _, rfl⟩
  · exact ⟨data.buildTargets, _, rfl⟩

theorem get?_addIds {ids : Dict Text (List Text)} {names found : List Text}
    {other : Text}
    (isFound : (if ids.contains fn then ids else ids.set fn names).get? other =
      some found) :
    ids.get? other = some found ∨ (other = fn ∧ found = names) := by
  split_ifs at isFound with old
  · exact .inl isFound
  · rw [Dict.get?_set] at isFound
    split_ifs at isFound with same
    · cases isFound
      exact .inr ⟨same, rfl⟩
    · exact .inl isFound

theorem contains_addIds {ids : Dict Text (List Text)} {names : List Text}
    {other : Text} (isListed : ids.contains other ∨ other = fn) :
    (if ids.contains fn then ids else ids.set fn names).contains other := by
  split_ifs with old
  · rcases isListed with isListed | rfl
    · exact isListed
    · exact old
  · rw [Dict.contains_iff, Dict.mem_keys_set, ← Dict.contains_iff]
    exact isListed.symm

theorem Holds.new (dataCache : DataCache) : Holds dataCache new := by
  constructor <;> simp [TaskData.new, Dict.keys]

theorem Holds.addTasks (holds : Holds dataCache data)
    (added : data.addTasks dataCache fn = .ok data') :
    Holds dataCache data' := by
  rw [TaskData.addTasks] at added
  cases found : dataCache.taskDeps.get? fn with
  | none =>
      rw [found] at added
      cases added
  | some taskDeps =>
      have notFailed : fn ∉ data.failedFns := by simp [holds.unfailed]
      rw [found] at added
      simp only [if_neg notFailed] at added
      split_ifs at added with seen
      · cases added
        exact holds
      · obtain ⟨now, looped, added⟩ := bind_eq_ok.mp added
        obtain ⟨later, seenBuild, added⟩ := bind_eq_ok.mp added
        have grown : Added fn taskDeps taskDeps.tasks
            { data with seenfns := data.seenfns ++ [fn] } now :=
          foldlM_rule (motive := fun done now => Added fn taskDeps done
            { data with seenfns := data.seenfns ++ [fn] } now) .start
            (fun _ _ _ _ _ soFar ran => soFar.step ran) looped
        obtain ⟨_, _, rfl⟩ := seeDeps_eq seenBuildTarget_eq seenBuild
        obtain ⟨_, _, rfl⟩ := seeDeps_eq seenRunTarget_eq added
        constructor
        · exact grown.failedFns.trans holds.unfailed
        · exact grown.unique holds.unique
        · intro tid
          change tid ∈ now.taskentries.keys ↔ tid.fn ∈ now.seenfns ∧ _
          rw [grown.tasks, grown.seenfns, List.mem_append, List.mem_singleton]
          constructor
          · rintro (old | ⟨task, isTask, rfl⟩)
            · obtain ⟨isSeen, isKnown⟩ := (holds.tasks tid).mp old
              exact ⟨.inl isSeen, isKnown⟩
            · rw [Tid.of_of_not_mem fn (taskDeps.cut task isTask)]
              exact ⟨.inr rfl, taskDeps, found, isTask⟩
          · rintro ⟨isSeen | isNew, others, isKnown, isTask⟩
            · exact .inl
                ((holds.tasks tid).mpr ⟨isSeen, others, isKnown, isTask⟩)
            · rw [isNew, found] at isKnown
              cases isKnown
              exact .inr ⟨tid.taskname,
                isTask, by rw [← isNew, Tid.of_fn_taskname]⟩
        · intro tid entry isEntry
          rcases grown.entries tid entry isEntry with old |
            ⟨task, isTask, rfl, isNew⟩
          · exact holds.entries tid entry old
          · rw [Tid.of_of_not_mem fn (taskDeps.cut task isTask)]
            exact ⟨taskDeps, found, isNew⟩
        · intro dep
          change dep ∈ now.mcdepends ↔ ∃ tid ∈ now.taskentries.keys, _
          rw [grown.mcdepends]
          constructor
          · rintro (old | ⟨task, isTask, value, isValue, isWord⟩)
            · obtain ⟨tid, member, isWord⟩ := (holds.mcdepends dep).mp old
              exact ⟨tid, (grown.tasks tid).mpr (.inl member), isWord⟩
            · refine ⟨Tid.of fn task,
                (grown.tasks _).mpr (.inr ⟨task, isTask, rfl⟩), ?_⟩
              rw [Tid.of_of_not_mem fn (taskDeps.cut task isTask)]
              exact ⟨taskDeps, found, value, isValue, isWord⟩
          · rintro ⟨tid, member, isWord⟩
            rcases (grown.tasks tid).mp member with old | ⟨task, isTask, rfl⟩
            · exact .inl ((holds.mcdepends dep).mpr ⟨tid, old, isWord⟩)
            · rw [Tid.of_of_not_mem fn (taskDeps.cut task isTask)] at isWord
              obtain ⟨others, isKnown, value, isValue, isWord⟩ := isWord
              rw [found] at isKnown
              cases isKnown
              exact .inr ⟨task, isTask, value, isValue, isWord⟩
        · intro other ids isIds name
          rcases get?_addIds isIds with old | ⟨rfl, rfl⟩
          · rw [grown.depids] at old
            exact holds.depids other ids old name
          · exact List.mem_dedup
        · intro other ids isIds name
          rcases get?_addIds isIds with old | ⟨rfl, rfl⟩
          · rw [grown.rdepids] at old
            exact holds.rdepids other ids old name
          · exact List.mem_dedup
        · intro other member
          change other ∈ now.seenfns at member
          rw [grown.seenfns, List.mem_append, List.mem_singleton] at member
          have before := fun isSeen => holds.listed other isSeen
          have isListed : (now.depids.contains other ∨ other = fn) ∧
              (now.rdepids.contains other ∨ other = fn) := by
            rw [grown.depids, grown.rdepids]
            grind
          exact ⟨contains_addIds isListed.1, contains_addIds isListed.2⟩

theorem Built.holds (built : Built dataCache data) : Holds dataCache data := by
  induction built with
  | new => exact .new dataCache
  | addTasks _ added holds => exact holds.addTasks added
  | provide _ _ _ _ _ holds =>
      exact ⟨holds.unfailed, holds.unique, holds.tasks, holds.entries,
      holds.mcdepends, holds.depids, holds.rdepids, holds.listed⟩

/-- The task data after some recipes; those before the first error. -/
def ofRecipes (dataCache : DataCache) (fns : List Text) : TaskData :=
  fns.foldl (fun data fn => (data.addTasks dataCache fn).toOption.getD data) new

theorem Built.ofRecipes (dataCache : DataCache) (fns : List Text) :
    Built dataCache (ofRecipes dataCache fns) := by
  apply List.foldlRecOn fns _ Built.new
  intro data built fn _
  cases added : data.addTasks dataCache fn with
  | error error => exact built
  | ok data' => exact built.addTasks added

theorem mem_handleDeps {flag : Dict Text Text} {ids : List (Text × Text)}
    (ran : handleDeps fn task flag = .ok ids) (pair : Text × Text) :
    pair ∈ ids ↔ ∃ value, flag.get? task = some value ∧
      ∃ word ∈ words value, word.splitOn ':' = [pair.1, pair.2] := by
  rw [handleDeps] at ran
  cases found : flag.get? task with
  | none =>
      rw [found] at ran
      cases ran
      simp
  | some value =>
      rw [found] at ran
      rw [mapM_eq_ok ran]
      simp only [Option.some.injEq, exists_eq_left']
      apply exists_congr
      intro word
      apply and_congr_right
      intro _
      split
      · rename_i first second parts
        rw [parts]
        simp [Prod.ext_iff]
      · rename_i others
        constructor
        · intro failed
          cases failed
        · intro parts
          exact absurd parts (others _ _)

theorem taskEntry_spec {entry : TaskEntry}
    (isEntry : taskEntry fn taskDeps task = .ok entry) :
    ∃ parents, taskDeps.parents.get? task = some parents ∧
      entry.tdepends = (parents.filter (· ∈ taskDeps.tasks)).map (Tid.of fn) ∧
      handleDeps fn task taskDeps.depends = .ok entry.idepends ∧
      handleDeps fn task taskDeps.rdepends = .ok entry.irdepends := by
  rw [taskEntry] at isEntry
  split at isEntry
  · cases isEntry
  · rename_i parents found
    obtain ⟨idepends, isDepends, isEntry⟩ := bind_eq_ok.mp isEntry
    obtain ⟨irdepends, isRuntime, isEntry⟩ := bind_eq_ok.mp isEntry
    cases isEntry
    exact ⟨parents, found, rfl, isDepends, isRuntime⟩

end TaskData

end Nvbmc.Prepare
