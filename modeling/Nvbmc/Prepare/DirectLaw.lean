import Mathlib.Data.Option.Basic
import Nvbmc.Prepare.BuiltTasks
import Nvbmc.Prepare.DirectDepends

/-!
# The law of direct dependencies

Each task should depend on what its own recipe and flags name.
`add_mc_dependencies` goes through the `[mcdepends]` entries of all tasks, so
the law holds where the entries of other tasks add nothing.
-/

namespace Nvbmc.Prepare

open Nvbmc.Library

/-- The `[mcdepends]` entry is from this multiconfig and the task is that of the
first provider in the other one. -/
def Resolves (taskData : Dict Text TaskData) (mc dep : Text) (newdep : Tid) :
    Prop :=
  ∃ mcdep pn deptask,
    (∃ begins rest, dep.splitOn ':' = begins :: mc :: mcdep :: pn :: deptask ::
      rest) ∧
    ∃ data, taskData.get? mcdep = some data ∧
      ∃ fn, firstProvider data.buildTargets pn = some fn ∧
        newdep = Tid.of fn deptask

/-- What a task should depend on. -/
inductive Expected (multiconfigs : Multiconfigs) (mc : Text)
    (dataCache : DataCache) (data : TaskData) (tid : Tid) : Tid → Prop where
  /-- `addtask` -/
  | parent {taskDeps : TaskDeps} {parents : List Text} {dep : Text}
      (known : dataCache.taskDeps.get? tid.fn = some taskDeps)
      (found : taskDeps.parents.get? tid.taskname = some parents)
      (member : dep ∈ parents) (isTask : dep ∈ taskDeps.tasks) :
      Expected multiconfigs mc dataCache data tid (Tid.of tid.fn dep)
  | deptask {taskname depname fn : Text}
      (word : dataCache.FlagWord TaskDeps.deptask tid taskname)
      (dep : depname ∈ dataCache.buildDeps tid.fn)
      (first : firstProvider data.buildTargets depname = some fn)
      (isTask : Tid.of fn taskname ∈ data.taskentries.keys) :
      Expected multiconfigs mc dataCache data tid (Tid.of fn taskname)
  | rdeptask {taskname depname fn : Text}
      (word : dataCache.FlagWord TaskDeps.rdeptask tid taskname)
      (dep : depname ∈ dataCache.runtimeDeps tid.fn)
      (first : firstProvider data.runTargets depname = some fn)
      (isTask : Tid.of fn taskname ∈ data.taskentries.keys) :
      Expected multiconfigs mc dataCache data tid (Tid.of fn taskname)
  | depends {dep pn taskname fn : Text}
      (word : dataCache.FlagWord TaskDeps.depends tid dep)
      (parts : dep.splitOn ':' = [pn, taskname])
      (first : buildProvider data pn = some fn) :
      Expected multiconfigs mc dataCache data tid (Tid.of fn taskname)
  | rdepends {dep pn taskname fn : Text}
      (word : dataCache.FlagWord TaskDeps.rdepends tid dep)
      (parts : dep.splitOn ':' = [pn, taskname])
      (first : firstProvider data.runTargets pn = some fn) :
      Expected multiconfigs mc dataCache data tid (Tid.of fn taskname)
  | mcdepends {dep : Text} {newdep : Tid}
      (word : dataCache.FlagWord TaskDeps.mcdepends tid dep)
      (resolves : Resolves multiconfigs.taskData mc dep newdep) :
      Expected multiconfigs mc dataCache data tid newdep

section Loops

variable {targets : Dict Text (List Text)} {taskentries : Dict Tid TaskEntry}
  {depids tasknames : List Text} {depends : List Tid} {dep : Tid}

theorem mem_addTasknames {depdata : Text} :
    dep ∈ tasknames.foldl (fun depends taskname =>
      if taskentries.contains (Tid.of depdata taskname) then
        insert (Tid.of depdata taskname) depends else depends) depends ↔
      dep ∈ depends ∨ ∃ taskname ∈ tasknames,
        dep = Tid.of depdata taskname ∧ dep ∈ taskentries.keys := by
  induction tasknames generalizing depends with
  | nil => simp
  | cons taskname rest induction =>
      rw [List.foldl_cons, induction]
      split_ifs with isTask
      · rw [Dict.contains_iff] at isTask
        change dep ∈ List.insert _ _ ∨ _ ↔ _
        rw [List.mem_insert_iff]
        grind
      · rw [Dict.contains_iff] at isTask
        grind

theorem mem_addDependencies :
    dep ∈ addDependencies targets taskentries depids tasknames depends ↔
      dep ∈ depends ∨ ∃ depname ∈ depids, ∃ fn,
        firstProvider targets depname = some fn ∧
        ∃ taskname ∈ tasknames, dep = Tid.of fn taskname ∧
          dep ∈ taskentries.keys := by
  rw [addDependencies]
  induction depids generalizing depends with
  | nil => simp
  | cons depname rest induction =>
      rw [List.foldl_cons, induction]
      cases provider : firstProvider targets depname with
      | none => simp [provider]
      | some depdata =>
          simp only [mem_addTasknames, List.exists_mem_cons_iff, provider,
            Option.some.injEq, exists_eq_left', or_assoc]

theorem mem_resolveNamed {provider : Text → Option Text}
    {error : Text → Text → ResolveError} {idepends : List (Text × Text)}
    {resolved : List Tid}
    (ran : resolveNamed provider taskentries error depends idepends =
      .ok resolved) :
    dep ∈ resolved ↔ dep ∈ depends ∨ ∃ idepend ∈ idepends, ∃ fn,
      provider idepend.1 = some fn ∧ dep = Tid.of fn idepend.2 := by
  apply foldlM_rule (motive := fun done now => dep ∈ now ↔ dep ∈ depends ∨
    ∃ idepend ∈ done, ∃ fn, provider idepend.1 = some fn ∧
      dep = Tid.of fn idepend.2)
    (by simp) ?_ ran
  intro done idepend now next _ soFar ran
  have last : dep ∈ next ↔ dep ∈ now ∨
      ∃ fn, provider idepend.1 = some fn ∧ dep = Tid.of fn idepend.2 := by
    cases found : provider idepend.1 with
    | none =>
        rw [found] at ran
        cases ran
        simp
    | some depdata =>
        rw [found] at ran
        simp only at ran
        split_ifs at ran
        cases ran
        change dep ∈ List.insert _ _ ↔ _
        rw [List.mem_insert_iff]
        simp [or_comm]
  rw [last, soFar]
  simp [or_and_right, exists_or, or_assoc]

theorem lookup_eq_ok {α : Type} {d : Dict Text α} {key : Text} {value : α} :
    lookup d key = .ok value ↔ d.get? key = some value := by
  rw [lookup]
  cases d.get? key <;> simp

/-- The tasks of a flag in the first providers of some dependencies. -/
def Named (targets ids : Dict Text (List Text))
    (taskentries : Dict Tid TaskEntry)
    (flag : Option Text) (taskfn : Text) (dep : Tid) : Prop :=
  ∃ value, flag = some value ∧ ∃ depids, ids.get? taskfn = some depids ∧
    ∃ depname ∈ depids, ∃ fn, firstProvider targets depname = some fn ∧
      ∃ taskname ∈ words value, dep = Tid.of fn taskname ∧
        dep ∈ taskentries.keys

theorem mem_resolveFlag {ids : Dict Text (List Text)} {flag : Option Text}
    {taskfn : Text}
    {result : List Tid}
    (ran : resolveFlag (addDependencies targets taskentries) ids taskfn flag
      depends = .ok result) :
    dep ∈ result ↔ dep ∈ depends ∨ Named targets ids taskentries flag taskfn
      dep := by
  cases flag with
  | none =>
      cases ran
      simp [Named]
  | some value =>
      cases found : ids.get? taskfn with
      | none =>
          simp only [resolveFlag, lookup, found] at ran
          cases ran
      | some depids =>
          simp only [resolveFlag, lookup, found] at ran
          cases ran
          rw [mem_addDependencies, Named]
          simp [found]

theorem mem_directDepends {data : TaskData} {taskDeps : TaskDeps}
    {parts : TidParts} {entry : TaskEntry} {direct : List Tid}
    (ran : directDepends data taskDeps parts entry = .ok direct) :
    dep ∈ direct ↔
      dep ∈ (entry.tdepends.map fun t =>
        buildTid (splitTidMcfn t).mc (splitTidMcfn t).fn
          (splitTidMcfn t).taskname) ∨
      Named data.buildTargets data.depids data.taskentries
        (taskDeps.deptask.get? parts.taskname) parts.taskfn dep ∨
      Named data.runTargets data.rdepids data.taskentries
        (taskDeps.rdeptask.get? parts.taskname) parts.taskfn dep ∨
      (∃ idepend ∈ entry.idepends, ∃ fn, buildProvider data idepend.1 =
        some fn ∧ dep = Tid.of fn idepend.2) ∨
      ∃ idepend ∈ entry.irdepends, ∃ fn,
        firstProvider data.runTargets idepend.1 = some fn ∧
          dep = Tid.of fn idepend.2 := by
  rw [directDepends] at ran
  obtain ⟨first, ranFirst, ran⟩ := bind_eq_ok.mp ran
  obtain ⟨second, ranSecond, ran⟩ := bind_eq_ok.mp ran
  obtain ⟨third, ranThird, ranLast⟩ := bind_eq_ok.mp ran
  rw [mem_resolveNamed ranLast, mem_resolveNamed ranThird,
    mem_resolveFlag ranSecond,
    mem_resolveFlag ranFirst, or_assoc, or_assoc, or_assoc]

end Loops

/-- The task data differ at most in the `tdepends` of the tasks that are done.
-/
structure SameBut (done : List Tid) (data data' : TaskData) : Prop where
  rest : data' = { data with taskentries := data'.taskentries }
  keys : ∀ tid, tid ∈ data'.taskentries.keys ↔ tid ∈ data.taskentries.keys
  others : ∀ tid ∉ done, data'.taskentries.get? tid = data.taskentries.get? tid

def Follows (done : List Tid) (taskData taskData' : Dict Text TaskData) :
    Prop :=
  ∀ mc, Option.Rel (SameBut done) (taskData.get? mc) (taskData'.get? mc)

section Follows

variable {done : List Tid} {taskData taskData' taskData'' : Dict Text TaskData}
  {mc : Text} {tid : Tid}

theorem SameBut.refl (data : TaskData) : SameBut done data data :=
  ⟨rfl, fun _ => Iff.rfl, fun _ _ => rfl⟩

theorem SameBut.mono {data data' : TaskData} (same : SameBut done data data')
    {done' : List Tid}
    (more : ∀ tid ∈ done, tid ∈ done') : SameBut done' data data' :=
  ⟨same.rest, same.keys, fun other new => same.others other fun member =>
    new (more other member)⟩

theorem Follows.refl : Follows done taskData taskData := by
  intro mc
  cases taskData.get? mc with
  | none => exact .none
  | some data => exact .some (.refl data)

variable (follows : Follows done taskData taskData')
include follows

theorem Follows.mono {done' : List Tid}
    (more : ∀ tid ∈ done, tid ∈ done') : Follows done' taskData taskData' := by
  intro mc
  have related := follows mc
  generalize taskData.get? mc = first at related ⊢
  generalize taskData'.get? mc = second at related ⊢
  cases related with
  | none => exact .none
  | some same => exact .some (same.mono more)

theorem Follows.of_some {data' : TaskData}
    (found : taskData'.get? mc = some data') :
    ∃ data, taskData.get? mc = some data ∧ SameBut done data data' := by
  have related := follows mc
  rw [found] at related
  cases isData : taskData.get? mc with
  | none =>
      rw [isData] at related
      cases related
  | some data =>
      rw [isData] at related
      cases related with
      | some same => exact ⟨data, rfl, same⟩

/-- An entry of `[mcdepends]` is resolved as it is before step A. -/
theorem resolveMcdepends_spec {dep : Text}
    {result : Option Tid} (ran : resolveMcdepends taskData' mc dep = .ok result)
    (newdep : Tid) :
    result = some newdep ↔ Resolves taskData mc dep newdep := by
  rw [resolveMcdepends] at ran
  split at ran
  · rename_i begins frommc mcdep pn deptask rest parts
    split at ran
    · cases ran
    · rename_i data' found
      obtain ⟨data, isData, same⟩ := follows.of_some found
      have targets : data'.buildTargets = data.buildTargets := by rw [same.rest]
      rw [Resolves, parts]
      split_ifs at ran with isFrom
      · subst isFrom
        split at ran
        · cases ran
        · cases ran
        · rename_i fn fns providers
          simp only at ran
          split_ifs at ran
          cases ran
          have first : firstProvider data.buildTargets pn = some fn := by
            rw [firstProvider, ← targets, providers]
            rfl
          constructor
          · intro isNew
            cases isNew
            exact ⟨mcdep, pn, deptask, ⟨begins, rest, rfl⟩, data, isData, fn,
              first, rfl⟩
          · rintro ⟨_, _, _, ⟨_, _, same⟩, other, isOther, provider, isFirst,
              rfl⟩
            cases same
            rw [isData] at isOther
            cases isOther
            rw [first] at isFirst
            cases isFirst
            rfl
      · cases ran
        constructor
        · intro isNew
          cases isNew
        · rintro ⟨_, _, _, ⟨_, _, same⟩, _⟩
          cases same
          exact absurd rfl isFrom
  · cases ran

theorem resolveMcdepends_known {dep : Text}
    {newdep : Tid}
    (ran : resolveMcdepends taskData' mc dep = .ok (some newdep)) :
    ∃ mcdep data, taskData.get? mcdep = some data ∧
      newdep ∈ data.taskentries.keys := by
  rw [resolveMcdepends] at ran
  split at ran
  · rename_i begins frommc mcdep pn deptask rest parts
    split at ran
    · cases ran
    · rename_i data' found
      obtain ⟨data, isData, same⟩ := follows.of_some found
      split_ifs at ran
      · split at ran
        · cases ran
        · cases ran
        · rename_i fn fns providers
          simp only at ran
          split_ifs at ran with isTask
          cases ran
          exact ⟨mcdep, data, isData,
            (same.keys _).mp (Dict.contains_iff.mp isTask)⟩
      · cases ran
  · cases ran

omit follows

theorem appendTdepends_spec (follows : Follows (tid :: done) taskData taskData')
    {newdep : Tid}
    (ran : appendTdepends taskData' mc tid newdep = .ok taskData'') :
    Follows (tid :: done) taskData taskData'' ∧ ∃ data' entry,
      taskData'.get? mc = some data' ∧ data'.taskentries.get? tid = some entry ∧
      taskData''.get? mc = some { data' with
        taskentries := data'.taskentries.set tid
          { entry with tdepends := entry.tdepends ++ [newdep] } } := by
  rw [appendTdepends] at ran
  split at ran
  · cases ran
  · rename_i data' found
    split at ran
    · cases ran
    · rename_i entry isEntry
      cases ran
      refine ⟨?_, data', entry, found, isEntry, Dict.get?_set_self ..⟩
      intro other
      rw [Dict.get?_set]
      split_ifs with same
      · subst same
        obtain ⟨data, isData, kept⟩ := follows.of_some found
        rw [isData]
        apply Option.Rel.some
        constructor
        · rw [kept.rest]
        · intro key
          rw [Dict.mem_keys_set, kept.keys]
          have isKey := (kept.keys tid).mp (Dict.mem_keys_of_get? isEntry)
          grind
        · intro key new
          rw [Dict.get?_set,
            if_neg (fun isTid : key = tid => new (isTid ▸ List.mem_cons_self))]
          exact kept.others key new
      · exact follows other

/-- `add_mc_dependencies` adds what the entries of all tasks resolve to. -/
theorem addMcDependencies_spec (follows : Follows done taskData taskData')
    {data' : TaskData} (found : taskData'.get? mc = some data')
    {entry : TaskEntry} (isEntry : data'.taskentries.get? tid = some entry)
    (ran : addMcDependencies taskData' mc tid = .ok taskData'') :
    Follows (tid :: done) taskData taskData'' ∧ ∃ later entry',
      taskData''.get? mc = some later ∧
        later.taskentries.get? tid = some entry' ∧
      entry'.idepends = entry.idepends ∧ entry'.irdepends = entry.irdepends ∧
      (∀ dep, dep ∈ entry'.tdepends ↔
        dep ∈ entry.tdepends ∨ ∃ word ∈ data'.mcdepends,
          Resolves taskData mc word dep) ∧
      ∀ word ∈ data'.mcdepends, ∀ dep, Resolves taskData mc word dep →
        ∃ mcdep data, taskData.get? mcdep = some data ∧
          dep ∈ data.taskentries.keys := by
  rw [addMcDependencies, found] at ran
  apply foldlM_rule (motive :=
    fun words now => Follows (tid :: done) taskData now ∧
    ∃ later entry', now.get? mc = some later ∧
      later.taskentries.get? tid = some entry' ∧
      entry'.idepends = entry.idepends ∧ entry'.irdepends = entry.irdepends ∧
      (∀ dep, dep ∈ entry'.tdepends ↔
        dep ∈ entry.tdepends ∨ ∃ word ∈ words, Resolves taskData mc word dep) ∧
      ∀ word ∈ words, ∀ dep, Resolves taskData mc word dep →
        ∃ mcdep data, taskData.get? mcdep = some data ∧
          dep ∈ data.taskentries.keys)
    ⟨follows.mono fun _ => List.mem_cons_of_mem _, data', entry, found, isEntry,
      rfl, rfl, by simp, by simp⟩ ?_ ran
  rintro words word now next _
    ⟨nowFollows, later, entry', isLater, isNow, same, runtime, mem, known⟩ ran
  obtain ⟨result, resolved, ran⟩ := bind_eq_ok.mp ran
  have spec := resolveMcdepends_spec nowFollows resolved
  cases result with
  | none =>
      cases ran
      have nothing : ∀ dep, ¬ Resolves taskData mc word dep := by
        intro dep resolves
        cases (spec dep).mpr resolves
      refine ⟨nowFollows, later, entry', isLater, isNow, same, runtime, ?_, ?_⟩
      · intro dep
        rw [mem]
        simp [or_and_right, exists_or, nothing]
      · intro other member
        rcases List.mem_append.mp member with earlier | isLast
        · exact known other earlier
        · rw [List.mem_singleton.mp isLast]
          exact fun dep resolves => absurd resolves (nothing dep)
  | some newdep =>
      obtain ⟨nextFollows, data, old, isData, isTid, added⟩ :=
        appendTdepends_spec nowFollows ran
      rw [isLater] at isData
      cases isData
      rw [isNow] at isTid
      cases isTid
      refine ⟨nextFollows, _, _, added, Dict.get?_set_self .., same, runtime,
        ?_, ?_⟩
      · intro dep
        rw [List.mem_append, mem, List.mem_singleton]
        have isNew := spec dep
        rw [Option.some.injEq] at isNew
        simp only [List.mem_append, List.mem_singleton, or_and_right, exists_or,
          exists_eq_left, ← isNew]
        grind
      · intro other member
        rcases List.mem_append.mp member with earlier | isLast
        · exact known other earlier
        · rw [List.mem_singleton.mp isLast]
          intro dep resolves
          rw [← Option.some.inj ((spec dep).mpr resolves)]
          exact resolveMcdepends_known nowFollows resolved

end Follows

/-- The parsed recipes and task data of all multiconfigs, without failed
recipes. -/
structure Collected (multiconfigs : Multiconfigs) : Prop where
  unique : multiconfigs.taskData.keys.Nodup
  built : ∀ mc data, multiconfigs.taskData.get? mc = some data →
    ∃ dataCache, multiconfigs.dataCaches.get? mc = some dataCache ∧
      TaskData.Built dataCache data
  named : ∀ mc data, multiconfigs.taskData.get? mc = some data →
    ∀ fn ∈ data.seenfns, InMulticonfig mc fn

/-- The task has `[mcdepends]`. -/
def HasMcdepends (dataCache : DataCache) (tid : Tid) : Prop :=
  ∃ taskDeps, dataCache.taskDeps.get? tid.fn = some taskDeps ∧
    taskDeps.mcdepends.contains tid.taskname

/-- What a task with `[mcdepends]` also gets: what the entries of any task of
the multiconfig resolve to. -/
def Foreign (multiconfigs : Multiconfigs) (mc : Text) (dataCache : DataCache)
    (data : TaskData) (tid dep : Tid) : Prop :=
  HasMcdepends dataCache tid ∧ ∃ other ∈ data.taskentries.keys, ∃ word,
    dataCache.FlagWord TaskDeps.mcdepends other word ∧
      Resolves multiconfigs.taskData mc word dep

variable {multiconfigs : Multiconfigs} {mc : Text} {dataCache : DataCache}
  {data : TaskData} {tid dep : Tid} {taskDeps : TaskDeps}
  (isData : multiconfigs.taskData.get? mc = some data)
include isData

theorem Collected.holds (collected : Collected multiconfigs)
    (isCache : multiconfigs.dataCaches.get? mc = some dataCache) :
    TaskData.Holds dataCache data := by
  obtain ⟨other, isOther, built⟩ := collected.built mc data isData
  rw [isCache] at isOther
  cases isOther
  exact built.holds

theorem Collected.inMulticonfig (collected : Collected multiconfigs)
    (member : tid ∈ data.taskentries.keys) :
    InMulticonfig mc tid.fn := by
  obtain ⟨dataCache, isCache, built⟩ := collected.built mc data isData
  exact collected.named mc data isData tid.fn
    ((built.holds.tasks tid).mp member).1

theorem Collected.buildTid_self (collected : Collected multiconfigs)
    (member : tid ∈ data.taskentries.keys) :
    buildTid (splitTidMcfn tid).mc (splitTidMcfn tid).fn
      (splitTidMcfn tid).taskname = tid := by
  have inMc := collected.inMulticonfig isData member
  rw [buildTid_split inMc, (splitTidMcfn_mem inMc).2.1, Tid.of_fn_taskname]

omit isData

variable {flag : TaskDeps → Dict Text Text}

theorem named_iff {targets ids : Dict Text (List Text)}
    {taskentries : Dict Tid TaskEntry} {deps : Text → List Text}
    (known : dataCache.taskDeps.get? tid.fn = some taskDeps)
    (isListed : ids.contains tid.fn)
    (same : ∀ fn depids, ids.get? fn = some depids → ∀ name, name ∈ depids ↔
      name ∈ deps fn) :
    Named targets ids taskentries ((flag taskDeps).get? tid.taskname) tid.fn
      dep ↔
      ∃ taskname depname fn, dataCache.FlagWord flag tid taskname ∧
        depname ∈ deps tid.fn ∧
        firstProvider targets depname = some fn ∧ dep = Tid.of fn taskname ∧
        Tid.of fn taskname ∈ taskentries.keys := by
  obtain ⟨depids, found⟩ := Option.isSome_iff_exists.mp isListed
  simp only [Named, DataCache.FlagWord, known, found, Option.some.injEq,
    exists_eq_left', same tid.fn depids found]
  constructor
  · rintro ⟨value, isValue, depname, isDep, fn, first, taskname, isWord, rfl,
      isTask⟩
    exact ⟨taskname, depname, fn, ⟨value, isValue, isWord⟩, isDep, first, rfl,
      isTask⟩
  · rintro ⟨taskname, depname, fn, ⟨value, isValue, isWord⟩, isDep, first, rfl,
      isTask⟩
    exact ⟨value, isValue, depname, isDep, fn, first, taskname, isWord, rfl,
      isTask⟩

theorem expected_iff (known : dataCache.taskDeps.get? tid.fn = some taskDeps) :
    Expected multiconfigs mc dataCache data tid dep ↔
      (∃ parents, taskDeps.parents.get? tid.taskname = some parents ∧
        ∃ parent ∈ parents, parent ∈ taskDeps.tasks ∧
          dep = Tid.of tid.fn parent) ∨
      (∃ taskname depname fn, dataCache.FlagWord TaskDeps.deptask tid taskname ∧
        depname ∈ dataCache.buildDeps tid.fn ∧
        firstProvider data.buildTargets depname = some fn ∧
          dep = Tid.of fn taskname ∧
        Tid.of fn taskname ∈ data.taskentries.keys) ∨
      (∃ taskname depname fn, dataCache.FlagWord TaskDeps.rdeptask tid
        taskname ∧ depname ∈ dataCache.runtimeDeps tid.fn ∧
        firstProvider data.runTargets depname = some fn ∧
          dep = Tid.of fn taskname ∧
        Tid.of fn taskname ∈ data.taskentries.keys) ∨
      (∃ word pn taskname fn, dataCache.FlagWord TaskDeps.depends tid word ∧
        word.splitOn ':' = [pn, taskname] ∧ buildProvider data pn = some fn ∧
        dep = Tid.of fn taskname) ∨
      (∃ word pn taskname fn, dataCache.FlagWord TaskDeps.rdepends tid word ∧
        word.splitOn ':' = [pn, taskname] ∧
          firstProvider data.runTargets pn = some fn ∧
        dep = Tid.of fn taskname) ∨
      ∃ word, dataCache.FlagWord TaskDeps.mcdepends tid word ∧
        Resolves multiconfigs.taskData mc word dep := by
  constructor
  · intro expected
    cases expected with
    | parent isKnown found member isTask =>
        rw [known] at isKnown
        cases isKnown
        exact .inl ⟨_, found, _, member, isTask, rfl⟩
    | deptask word dep first isTask =>
        exact .inr (.inl ⟨_, _, _, word, dep, first, rfl, isTask⟩)
    | rdeptask word dep first isTask =>
        exact .inr (.inr (.inl ⟨_, _, _, word, dep, first, rfl, isTask⟩))
    | depends word parts first =>
        exact .inr (.inr (.inr (.inl ⟨_, _, _, _, word, parts, first, rfl⟩)))
    | rdepends word parts first =>
        exact .inr (.inr
          (.inr (.inr (.inl ⟨_, _, _, _, word, parts, first, rfl⟩))))
    | mcdepends word resolves =>
        exact .inr (.inr (.inr (.inr (.inr ⟨_, word, resolves⟩))))
  · rintro (⟨_, found, _, member, isTask, rfl⟩ | ⟨_, _, _, word, dep, first,
      rfl, isTask⟩ |
      ⟨_, _, _, word, dep, first, rfl, isTask⟩ | ⟨_, _, _, _, word, parts,
        first, rfl⟩ |
      ⟨_, _, _, _, word, parts, first, rfl⟩ | ⟨_, word, resolves⟩)
    · exact .parent known found member isTask
    · exact .deptask word dep first isTask
    · exact .rdeptask word dep first isTask
    · exact .depends word parts first
    · exact .rdepends word parts first
    · exact .mcdepends word resolves

theorem foreign_iff (holds : TaskData.Holds dataCache data) :
    Foreign multiconfigs mc dataCache data tid dep ↔
      HasMcdepends dataCache tid ∧
      ∃ word ∈ data.mcdepends, Resolves multiconfigs.taskData mc word dep := by
  simp only [Foreign, holds.mcdepends]
  apply and_congr_right
  intro _
  constructor
  · rintro ⟨other, member, word, isWord, resolves⟩
    exact ⟨word, ⟨other, member, isWord⟩, resolves⟩
  · rintro ⟨word, ⟨other, member, isWord⟩, resolves⟩
    exact ⟨other, member, word, isWord, resolves⟩

variable {done : List Tid} {parts : TidParts}

/-- The task's entry with the dependencies its `[mcdepends]` add: first those of
the recipe. -/
theorem resolveMulticonfig_spec (holds : TaskData.Holds dataCache data)
    (isData : multiconfigs.taskData.get? mc = some data)
    (known : dataCache.taskDeps.get? tid.fn = some taskDeps)
    {taskData taskData' : Dict Text TaskData}
    (follows : Follows done multiconfigs.taskData taskData) {now : TaskData}
    (isNow : taskData.get? mc = some now) {entry : TaskEntry}
    (isEntry : now.taskentries.get? tid = some entry) (isMc : parts.mc = mc)
    (name : parts.taskname = tid.taskname)
    (ran : resolveMulticonfig taskData taskDeps parts tid = .ok taskData') :
    Follows (tid :: done) multiconfigs.taskData taskData' ∧ ∃ later entry',
      taskData'.get? mc = some later ∧
        later.taskentries.get? tid = some entry' ∧
      entry'.idepends = entry.idepends ∧ entry'.irdepends = entry.irdepends ∧
      (∀ dep, dep ∈ entry'.tdepends ↔
        dep ∈ entry.tdepends ∨ Foreign multiconfigs mc dataCache data tid dep) ∧
      ∀ dep, Foreign multiconfigs mc dataCache data tid dep →
        ∃ mcdep data, multiconfigs.taskData.get? mcdep = some data ∧
          dep ∈ data.taskentries.keys := by
  have mcdepends : now.mcdepends = data.mcdepends := by
    obtain ⟨other, isOther, same⟩ := follows.of_some isNow
    rw [isData] at isOther
    cases isOther
    rw [same.rest]
  have has_iff : HasMcdepends dataCache tid ↔
      taskDeps.mcdepends.contains tid.taskname = true := by
    rw [HasMcdepends, known]
    simp
  simp only [foreign_iff holds, has_iff]
  rw [resolveMulticonfig, isMc, name] at ran
  split_ifs at ran with flagged
  · obtain ⟨later, data', entry', isLater, isThere, same, runtime, mem,
        exist⟩ :=
      addMcDependencies_spec follows isNow isEntry ran
    rw [mcdepends] at mem exist
    refine ⟨later, data', entry', isLater, isThere, same, runtime, ?_, ?_⟩
    · simpa [flagged] using mem
    · rintro dep ⟨_, word, isWord, resolves⟩
      exact exist word isWord dep resolves
  · cases ran
    refine ⟨follows.mono fun _ => List.mem_cons_of_mem _, now, entry, isNow,
      isEntry, rfl, rfl, by simp [flagged], ?_⟩
    rintro dep ⟨isFlagged, _⟩
    exact absurd isFlagged flagged

/-- The ids behind the task's `addtask` line and its `[mcdepends]`. -/
theorem mem_tdepends (collected : Collected multiconfigs)
    (holds : TaskData.Holds dataCache data)
    (isData : multiconfigs.taskData.get? mc = some data)
    (known : dataCache.taskDeps.get? tid.fn = some taskDeps)
    (member : tid ∈ data.taskentries.keys)
    {parents : List Text} {tdepends : List Tid} (mem : ∀ dep, dep ∈ tdepends ↔
      dep ∈ (parents.filter (· ∈ taskDeps.tasks)).map (Tid.of tid.fn) ∨
        Foreign multiconfigs mc dataCache data tid dep)
    (exist : ∀ dep, Foreign multiconfigs mc dataCache data tid dep →
      ∃ mcdep data, multiconfigs.taskData.get? mcdep = some data ∧
        dep ∈ data.taskentries.keys) :
    dep ∈ (tdepends.map fun t =>
        buildTid (splitTidMcfn t).mc (splitTidMcfn t).fn
          (splitTidMcfn t).taskname) ↔
      (∃ parent ∈ parents, parent ∈ taskDeps.tasks ∧
        dep = Tid.of tid.fn parent) ∨
        Foreign multiconfigs mc dataCache data tid dep := by
  have stays : ∀ t ∈ tdepends,
      buildTid (splitTidMcfn t).mc (splitTidMcfn t).fn
        (splitTidMcfn t).taskname = t := by
    intro t isTask
    rcases (mem t).mp isTask with own | foreign
    · obtain ⟨parent, isParent, rfl⟩ := List.mem_map.mp own
      have isListed : parent ∈ taskDeps.tasks := by
        simpa using (List.mem_filter.mp isParent).2
      apply collected.buildTid_self isData
      rw [Tid.of_of_not_mem tid.fn (taskDeps.cut parent isListed), holds.tasks]
      exact ⟨((holds.tasks tid).mp member).1, taskDeps, known, isListed⟩
    · obtain ⟨mcdep, other, isOther, isThere⟩ := exist t foreign
      exact collected.buildTid_self isOther isThere
  rw [List.map_congr_left stays, List.map_id', mem]
  apply or_congr_left
  simp only [List.mem_map, List.mem_filter, decide_eq_true_eq]
  constructor
  · rintro ⟨parent, ⟨isParent, isListed⟩, rfl⟩
    exact ⟨parent, isParent, isListed, rfl⟩
  · rintro ⟨parent, isParent, isListed, rfl⟩
    exact ⟨parent, ⟨isParent, isListed⟩, rfl⟩

theorem pairs_iff {ids : List (Text × Text)}
    {provider : Text → Option Text}
    (known : dataCache.taskDeps.get? tid.fn = some taskDeps)
    (ran : TaskData.handleDeps tid.fn tid.taskname (flag taskDeps) = .ok ids) :
    (∃ idepend ∈ ids, ∃ fn, provider idepend.1 = some fn ∧
      dep = Tid.of fn idepend.2) ↔
      ∃ word pn taskname fn, dataCache.FlagWord flag tid word ∧
        word.splitOn ':' = [pn, taskname] ∧ provider pn = some fn ∧
          dep = Tid.of fn taskname := by
  simp only [TaskData.mem_handleDeps ran, DataCache.FlagWord, known,
    Option.some.injEq, exists_eq_left']
  constructor
  · rintro ⟨⟨pn, taskname⟩, ⟨value, isValue, word, isWord, parts⟩, fn, first,
      rfl⟩
    exact ⟨word, pn, taskname, fn, ⟨value, isValue, isWord⟩, parts, first, rfl⟩
  · rintro ⟨word, pn, taskname, fn, ⟨value, isValue, isWord⟩, parts, first, rfl⟩
    exact ⟨⟨pn, taskname⟩, ⟨value, isValue, word, isWord, parts⟩, fn, first,
      rfl⟩

theorem mem_direct_iff (collected : Collected multiconfigs)
    (isData : multiconfigs.taskData.get? mc = some data)
    (isCache : multiconfigs.dataCaches.get? mc = some dataCache)
    (known : dataCache.taskDeps.get? tid.fn = some taskDeps)
    (member : tid ∈ data.taskentries.keys) {later : TaskData}
    (same : SameBut done data later) {entry entry' : TaskEntry}
    (isEntry : data.taskentries.get? tid = some entry)
    (idepends : entry'.idepends = entry.idepends)
    (irdepends : entry'.irdepends = entry.irdepends)
    (mem : ∀ dep, dep ∈ entry'.tdepends ↔
      dep ∈ entry.tdepends ∨ Foreign multiconfigs mc dataCache data tid dep)
    (exist : ∀ dep, Foreign multiconfigs mc dataCache data tid dep →
      ∃ mcdep data, multiconfigs.taskData.get? mcdep = some data ∧
        dep ∈ data.taskentries.keys) (name : parts.taskname = tid.taskname)
    (file : parts.taskfn = tid.fn) {direct : List Tid}
    (ran : directDepends later taskDeps parts entry' = .ok direct) :
    dep ∈ direct ↔ Expected multiconfigs mc dataCache data tid dep ∨
      Foreign multiconfigs mc dataCache data tid dep := by
  have holds := collected.holds isData isCache
  have isListed := holds.listed tid.fn ((holds.tasks tid).mp member).1
  have fields : later.buildTargets = data.buildTargets ∧
      later.runTargets = data.runTargets ∧
      later.depids = data.depids ∧ later.rdepids = data.rdepids ∧
      buildProvider later = buildProvider data := by
    rw [same.rest]
    exact ⟨rfl, rfl, rfl, rfl, rfl⟩
  obtain ⟨build, run, depids, rdepids, provider⟩ := fields
  obtain ⟨others, isKnown, made⟩ := holds.entries tid entry isEntry
  rw [known] at isKnown
  cases isKnown
  obtain ⟨parents, isParents, tdepends, isDepends, isRuntime⟩ :=
    TaskData.taskEntry_spec made
  rw [tdepends] at mem
  have own : (∃ word, dataCache.FlagWord TaskDeps.mcdepends tid word ∧
      Resolves multiconfigs.taskData mc word dep) →
        Foreign multiconfigs mc dataCache data tid dep := by
    rintro ⟨word, isWord, resolves⟩
    obtain ⟨others, isOther, value, isValue, _⟩ := id isWord
    exact ⟨⟨others, isOther, by rw [Dict.contains, isValue]; rfl⟩, tid, member,
      word, isWord, resolves⟩
  have flags : Named data.buildTargets data.depids later.taskentries
      (taskDeps.deptask.get? tid.taskname) tid.fn dep ↔ _ :=
    named_iff known isListed.1 holds.depids
  have runFlags : Named data.runTargets data.rdepids later.taskentries
      (taskDeps.rdeptask.get? tid.taskname) tid.fn dep ↔ _ :=
    named_iff known isListed.2 holds.rdepids
  rw [mem_directDepends ran, mem_tdepends collected holds isData known member
    mem exist, name,
    file, build, run, depids, rdepids, provider, idepends, irdepends, flags,
    runFlags,
    pairs_iff known isDepends, pairs_iff known isRuntime, expected_iff known]
  simp only [same.keys, isParents, Option.some.injEq, exists_eq_left']
  constructor
  · rintro ((parent | foreign) | deptask | rdeptask | depends | rdepends)
    · exact .inl (.inl parent)
    · exact .inr foreign
    · exact .inl (.inr (.inl deptask))
    · exact .inl (.inr (.inr (.inl rdeptask)))
    · exact .inl (.inr (.inr (.inr (.inl depends))))
    · exact .inl (.inr (.inr (.inr (.inr (.inl rdepends)))))
  · rintro
      ((parent | deptask | rdeptask | depends | rdepends | mcdepends) | foreign)
    · exact .inl (.inl parent)
    · exact .inr (.inl deptask)
    · exact .inr (.inr (.inl rdeptask))
    · exact .inr (.inr (.inr (.inl depends)))
    · exact .inr (.inr (.inr (.inr rdepends)))
    · exact .inl (.inr (own mcdepends))
    · exact .inl (.inr foreign)

theorem resolveRecursive_spec {depends depends' : List Tid}
    {state state' : Resolution}
    (ran : resolveRecursive data taskDeps parts tid depends state =
      .ok (depends', state')) :
    state'.taskData = state.taskData ∧ state'.direct = state.direct ∧
      state'.runtaskentries = state.runtaskentries ∧
      (taskDeps.recrdeptask.get? parts.taskname = none →
        depends' = depends) := by
  rw [resolveRecursive] at ran
  split at ran
  · cases ran
    exact ⟨rfl, rfl, rfl, fun _ => rfl⟩
  · rename_i value found
    obtain ⟨depids, _, ran⟩ := bind_eq_ok.mp ran
    obtain ⟨rdepids, _, ran⟩ := bind_eq_ok.mp ran
    cases ran
    exact ⟨rfl, rfl, rfl, fun none => absurd (found.symm.trans none)
      (Option.some_ne_none _)⟩

/-- The task has no `[recrdeptask]`. -/
def Plain (dataCache : DataCache) (tid : Tid) : Prop :=
  ∀ taskDeps, dataCache.taskDeps.get? tid.fn = some taskDeps →
    taskDeps.recrdeptask.get? tid.taskname = none

theorem resolveTask_spec (collected : Collected multiconfigs)
    (isData : multiconfigs.taskData.get? mc = some data)
    (isCache : multiconfigs.dataCaches.get? mc = some dataCache)
    (member : tid ∈ data.taskentries.keys) {state state' : Resolution}
    (follows : Follows done multiconfigs.taskData state.taskData)
    (new : tid ∉ done)
    (ran : resolveTask multiconfigs.dataCaches state tid = .ok state') :
    Follows (tid :: done) multiconfigs.taskData state'.taskData ∧
      ∃ direct depends, state'.direct = state.direct.set tid direct ∧
      state'.runtaskentries =
        state.runtaskentries.set tid ⟨depends.filter (· ≠ tid), []⟩ ∧
      (∀ dep, dep ∈ direct ↔ Expected multiconfigs mc dataCache data tid dep ∨
        Foreign multiconfigs mc dataCache data tid dep) ∧
      (Plain dataCache tid → depends = direct) := by
  have holds := collected.holds isData isCache
  obtain ⟨isMc, name, file⟩ :=
    splitTidMcfn_mem (collected.inMulticonfig isData member)
  rw [resolveTask] at ran
  obtain ⟨cache, isThere, ran⟩ := bind_eq_ok.mp ran
  rw [lookup_eq_ok, isMc, isCache] at isThere
  cases isThere
  obtain ⟨taskDeps, known, ran⟩ := bind_eq_ok.mp ran
  rw [lookup_eq_ok, file] at known
  obtain ⟨now, isNow, ran⟩ := bind_eq_ok.mp ran
  rw [lookup_eq_ok, isMc] at isNow
  obtain ⟨other, isOther, same⟩ := follows.of_some isNow
  rw [isData] at isOther
  cases isOther
  have notFailed : (splitTidMcfn tid).fn ∉ now.failedFns := by
    rw [same.rest, holds.unfailed]
    simp
  rw [if_neg notFailed] at ran
  obtain ⟨taskData, ranMc, ran⟩ := bind_eq_ok.mp ran
  obtain ⟨entry, isEntry⟩ :=
    Option.ne_none_iff_exists'.mp (Dict.get?_ne_none_iff.mpr member)
  have isEntryNow := (same.others tid new).trans isEntry
  obtain ⟨after, later, entry', isLater, isTid, idepends, irdepends, mem,
      exist⟩ :=
    resolveMulticonfig_spec holds isData known follows isNow isEntryNow isMc
      name ranMc
  obtain ⟨found, isFound, ran⟩ := bind_eq_ok.mp ran
  rw [lookup_eq_ok, isMc, isLater] at isFound
  cases isFound
  rw [isTid] at ran
  obtain ⟨direct, ranDirect, ran⟩ := bind_eq_ok.mp ran
  obtain ⟨⟨depends, last⟩, ranRecursive, ran⟩ := bind_eq_ok.mp ran
  cases ran
  obtain ⟨_, isDirect, isRun, plain⟩ := resolveRecursive_spec ranRecursive
  obtain ⟨first, isFirst, sameLater⟩ := after.of_some isLater
  rw [isData] at isFirst
  cases isFirst
  refine ⟨after, direct, depends, ?_, ?_, ?_, ?_⟩
  · rw [isDirect]
  · rw [isRun]
  · intro dep
    exact mem_direct_iff collected isData isCache known member sameLater isEntry
      idepends irdepends mem exist name file ranDirect
  · intro isPlain
    apply plain
    rw [name]
    exact isPlain taskDeps known

/-- Each task depends directly on what it should and on nothing else; `direct`
is what is stored for tasks without recursive dependencies. -/
def DirectLaw (multiconfigs : Multiconfigs) (resolution : Resolution) : Prop :=
  ∀ mc data dataCache, multiconfigs.taskData.get? mc = some data →
    multiconfigs.dataCaches.get? mc = some dataCache →
      ∀ tid ∈ data.taskentries.keys,
      ∃ direct, resolution.direct.get? tid = some direct ∧
        (Plain dataCache tid → resolution.runtaskentries.get? tid =
          some ⟨direct.filter (· ≠ tid), []⟩) ∧
        ∀ dep, (dep ∈ direct ∧ dep ≠ tid) ↔
          (Expected multiconfigs mc dataCache data tid dep ∧ dep ≠ tid)

/-- The `[mcdepends]` entries of the tasks of a multiconfig add nothing to its
other tasks with `[mcdepends]`. -/
def OwnEntries (multiconfigs : Multiconfigs) : Prop :=
  ∀ mc data dataCache, multiconfigs.taskData.get? mc = some data →
    multiconfigs.dataCaches.get? mc = some dataCache →
      ∀ tid ∈ data.taskentries.keys,
      HasMcdepends dataCache tid → ∀ other ∈ data.taskentries.keys, ∀ word,
        dataCache.FlagWord TaskDeps.mcdepends other word →
          ∀ newdep, Resolves multiconfigs.taskData mc word newdep →
            newdep = tid ∨ Expected multiconfigs mc dataCache data tid newdep

theorem InMulticonfig.unique {fn mc' : Text} (first : InMulticonfig mc fn)
    (second : InMulticonfig mc' fn) : mc = mc' := by
  have left : (splitTidMcfn ⟨fn, [], by simp⟩).mc = mc :=
    (splitTidMcfn_mem first).1
  have right : (splitTidMcfn ⟨fn, [], by simp⟩).mc = mc' :=
    (splitTidMcfn_mem second).1
  rw [← left, right]

theorem nodup_tasks (collected : Collected multiconfigs) :
    (multiconfigs.taskData.flatMap fun entry =>
      entry.2.taskentries.keys).Nodup := by
  rw [List.nodup_flatMap]
  constructor
  · rintro ⟨mc, data⟩ member
    have isData := Dict.get?_of_mem collected.unique member
    obtain ⟨dataCache, _, built⟩ := collected.built mc data isData
    exact built.holds.unique
  · have unique := collected.unique
    rw [Dict.keys, List.Nodup, List.pairwise_map] at unique
    refine List.Pairwise.imp_of_mem ?_ unique
    rintro ⟨mc, data⟩ ⟨mc', data'⟩ member member' differ tid inFirst inSecond
    have first := Dict.get?_of_mem collected.unique member
    have second := Dict.get?_of_mem collected.unique member'
    exact differ ((collected.inMulticonfig first inFirst).unique
      (collected.inMulticonfig second inSecond))

theorem resolveDirect_spec (collected : Collected multiconfigs)
    {resolution : Resolution}
    (ran : resolveDirect multiconfigs = .ok resolution)
    (isData : multiconfigs.taskData.get? mc = some data)
    (isCache : multiconfigs.dataCaches.get? mc = some dataCache)
    (member : tid ∈ data.taskentries.keys) :
    ∃ direct, resolution.direct.get? tid = some direct ∧
      (Plain dataCache tid → resolution.runtaskentries.get? tid =
        some ⟨direct.filter (· ≠ tid), []⟩) ∧
      ∀ dep, dep ∈ direct ↔ Expected multiconfigs mc dataCache data tid dep ∨
        Foreign multiconfigs mc dataCache data tid dep := by
  have loop := foldlM_rule (motive := fun done state =>
    Follows done multiconfigs.taskData state.taskData ∧
      ∀ tid ∈ done, ∀ mc data dataCache, multiconfigs.taskData.get? mc =
        some data →
        multiconfigs.dataCaches.get? mc = some dataCache →
          tid ∈ data.taskentries.keys →
        ∃ direct, state.direct.get? tid = some direct ∧
          (Plain dataCache tid → state.runtaskentries.get? tid =
            some ⟨direct.filter (· ≠ tid), []⟩) ∧
          ∀ dep, dep ∈ direct ↔ Expected multiconfigs mc dataCache data tid
            dep ∨ Foreign multiconfigs mc dataCache data tid dep)
    ⟨.refl, by simp⟩ ?_ ran
  · apply loop.2 tid
      (List.mem_flatMap.mpr ⟨(mc, data), Dict.mem_of_get? isData, member⟩) mc
      data dataCache isData isCache member
  · rintro done tid state state' isPart ⟨follows, soFar⟩ turn
    have new : tid ∉ done := by
      have unique := List.Nodup.sublist isPart.sublist (nodup_tasks collected)
      have first := (List.nodup_cons.mp (List.nodup_middle.mp unique)).1
      rwa [List.append_nil] at first
    obtain ⟨⟨mc, data⟩, isEntry, member⟩ :=
      List.mem_flatMap.mp
        (isPart.subset (List.mem_append_right _ (List.mem_singleton_self tid)))
    have isData := Dict.get?_of_mem collected.unique isEntry
    obtain ⟨dataCache, isCache, _⟩ := collected.built mc data isData
    obtain ⟨later, direct, depends, isDirect, isRun, mem, plain⟩ :=
      resolveTask_spec collected isData isCache member follows new turn
    refine ⟨later.mono (by grind), ?_⟩
    intro other isOther mc' data' dataCache' isData' isCache' member'
    rw [isDirect, isRun]
    simp only [Dict.get?_set]
    split_ifs with same
    · subst same
      have sameMc := (collected.inMulticonfig isData' member').unique
        (collected.inMulticonfig isData member)
      subst sameMc
      rw [isData] at isData'
      cases isData'
      rw [isCache] at isCache'
      cases isCache'
      exact ⟨direct, rfl, fun isPlain => by rw [plain isPlain], mem⟩
    · rcases List.mem_append.mp isOther with earlier | isLast
      · exact soFar other earlier mc' data' dataCache' isData' isCache' member'
      · exact absurd (List.mem_singleton.mp isLast) same

/-- The law of direct dependencies holds exactly when no `[mcdepends]` entry of
a task leads another task with `[mcdepends]` to something it should not depend
on. -/
theorem directLaw_iff_ownEntries (multiconfigs : Multiconfigs)
    (collected : Collected multiconfigs)
    {resolution : Resolution}
    (ran : resolveDirect multiconfigs = .ok resolution) :
    DirectLaw multiconfigs resolution ↔ OwnEntries multiconfigs := by
  constructor
  · intro law mc data dataCache isData isCache tid member flagged other isOther
      word isWord newdep resolves
    obtain ⟨direct, isDirect, _, mem⟩ :=
      resolveDirect_spec collected ran isData isCache member
    obtain ⟨direct', isDirect', _, exact'⟩ :=
      law mc data dataCache isData isCache tid member
    rw [isDirect] at isDirect'
    cases isDirect'
    by_cases same : newdep = tid
    · exact .inl same
    · have added :=
        (mem newdep).mpr
          (.inr ⟨flagged, other, isOther, word, isWord, resolves⟩)
      exact .inr ((exact' newdep).mp ⟨added, same⟩).1
  · intro own mc data dataCache isData isCache tid member
    obtain ⟨direct, isDirect, plain, mem⟩ :=
      resolveDirect_spec collected ran isData isCache member
    refine ⟨direct, isDirect, plain, ?_⟩
    intro dep
    apply and_congr_left
    intro differs
    rw [mem]
    constructor
    · rintro (expected | ⟨flagged, other, isOther, word, isWord, resolves⟩)
      · exact expected
      · rcases own mc data dataCache isData isCache tid member flagged other
          isOther word isWord dep resolves with same | expected
        · exact absurd same differs
        · exact expected
    · exact .inl

namespace TwoTargets

def oneTask (task : Text) (mcdepends : Dict Text Text) (cut : ':' ∉ task) :
    TaskDeps where
  tasks := [task]
  parents := [(task, [])]
  deptask := []
  rdeptask := []
  recrdeptask := []
  recideptask := []
  depends := []
  rdepends := []
  mcdepends := mcdepends
  cut := by simpa using cut

/-- Two images, each of which needs the firmware of the entry. -/
def images (first second : Text) : DataCache where
  taskDeps :=
    [("a.bb".toList, oneTask "do_image".toList [("do_image".toList, first)]
      (by decide)),
      ("b.bb".toList, oneTask "do_image".toList [("do_image".toList, second)]
        (by decide))]
  deps := []
  rundeps := []
  runrecs := []

/-- Two firmwares of another multiconfig. -/
def firmwares : DataCache where
  taskDeps :=
    [("mc:x:p.bb".toList, oneTask "do_deploy".toList [] (by decide)),
      ("mc:x:q.bb".toList, oneTask "do_deploy".toList [] (by decide))]
  deps := []
  rundeps := []
  runrecs := []

def recipes (first second : Text) : Multiconfigs where
  dataCaches := [([], images first second), ("x".toList, firmwares)]
  taskData :=
    [([], TaskData.ofRecipes (images first second)
      ["a.bb".toList, "b.bb".toList]),
      ("x".toList,
        { TaskData.ofRecipes firmwares
          ["mc:x:p.bb".toList, "mc:x:q.bb".toList] with
        buildTargets :=
          [("p".toList, ["mc:x:p.bb".toList]),
            ("q".toList, ["mc:x:q.bb".toList])] })]

def pEntry : Text := "mc::x:p:do_deploy".toList

def qEntry : Text := "mc::x:q:do_deploy".toList

def imageA : Tid := ⟨"a.bb".toList, "do_image".toList, by decide⟩

def deployQ : Tid := ⟨"mc:x:q.bb".toList, "do_deploy".toList, by decide⟩

theorem collected {second : Text}
    (isEntry : second = pEntry ∨ second = qEntry) :
    Collected (recipes pEntry second) := by
  constructor
  · have keys : (recipes pEntry second).taskData.keys = [[], "x".toList] := rfl
    rw [keys]
    decide
  · intro mc data isData
    rcases List.mem_cons.mp (Dict.mem_of_get? isData) with first | later
    · cases first
      exact ⟨_, rfl, .ofRecipes _ _⟩
    · cases List.mem_singleton.mp later
      exact ⟨firmwares, rfl, .provide (.ofRecipes _ _) _ _ _ _⟩
  · intro mc data isData fn member
    rcases List.mem_cons.mp (Dict.mem_of_get? isData) with first | later
    · cases first
      have isFile : fn ∈ ["a.bb".toList, "b.bb".toList] := by
        rcases isEntry with rfl | rfl <;> exact member
      left
      rcases List.mem_cons.mp isFile with rfl | isLast
      · exact ⟨rfl, by decide⟩
      · rw [List.mem_singleton.mp isLast]
        exact ⟨rfl, by decide⟩
    · cases List.mem_singleton.mp later
      have isFile : fn ∈ ["mc:x:p.bb".toList, "mc:x:q.bb".toList] := member
      right
      rcases List.mem_cons.mp isFile with rfl | isLast
      · exact ⟨by decide, by decide, "p.bb".toList, by decide⟩
      · rw [List.mem_singleton.mp isLast]
        exact ⟨by decide, by decide, "q.bb".toList, by decide⟩

theorem directLaw_iff_ownEntries_sameEntry :
    ∃ resolution, resolveDirect (recipes pEntry pEntry) = .ok resolution ∧
      (DirectLaw (recipes pEntry pEntry) resolution ↔
        OwnEntries (recipes pEntry pEntry)) := by
  obtain ⟨resolution, ran⟩ :
      ∃ resolution, resolveDirect (recipes pEntry pEntry) = .ok resolution :=
        ⟨_, rfl⟩
  exact ⟨resolution, ran, directLaw_iff_ownEntries _ (collected (.inl rfl)) ran⟩

/-- The image waits for the firmware that only the other image needs. -/
theorem other_entry_added : Collected (recipes pEntry qEntry) ∧
    ∃ resolution, resolveDirect (recipes pEntry qEntry) = .ok resolution ∧
      ¬ DirectLaw (recipes pEntry qEntry) resolution := by
  obtain ⟨resolution, ran, direct, isDirect, added⟩ : ∃ resolution,
      resolveDirect (recipes pEntry qEntry) = .ok resolution ∧ ∃ direct,
        resolution.direct.get? imageA = some direct ∧ deployQ ∈ direct :=
    ⟨_, rfl, _, rfl, by decide⟩
  refine ⟨collected (.inr rfl), resolution, ran, ?_⟩
  intro law
  obtain ⟨direct', isDirect', _, mem⟩ := law [] _ _ rfl rfl imageA (by decide)
  rw [isDirect] at isDirect'
  cases isDirect'
  have expected := ((mem deployQ).mp ⟨added, by decide⟩).1
  have known : (images pEntry qEntry).taskDeps.get? imageA.fn =
      some (oneTask "do_image".toList [("do_image".toList, pEntry)]
        (by decide)) := rfl
  have noWord : ∀ (flag : TaskDeps → Dict Text Text) word,
      flag (oneTask "do_image".toList [("do_image".toList, pEntry)]
        (by decide)) = [] →
        ¬ (images pEntry qEntry).FlagWord flag imageA word := by
    rintro flag word none ⟨taskDeps, isKnown, value, found, _⟩
    cases known.symm.trans isKnown
    rw [none] at found
    cases found
  rcases (expected_iff known).mp expected with
    ⟨parents, found, parent, isParent, _⟩ |
    ⟨_, _, _, word, _⟩ | ⟨_, _, _, word, _⟩ | ⟨_, _, _, _, word, _⟩ | ⟨_, _, _,
      _, word, _⟩ |
    ⟨word, isWord, mcdep, pn, deptask, ⟨begins, rest, parts⟩, data, isData, fn,
      first, isQ⟩
  · cases (show some [] = some parents from found)
    cases isParent
  · exact noWord _ _ rfl word
  · exact noWord _ _ rfl word
  · exact noWord _ _ rfl word
  · exact noWord _ _ rfl word
  · obtain ⟨taskDeps, isKnown, value, found, member⟩ := isWord
    cases known.symm.trans isKnown
    cases (show some pEntry = some value from found)
    have isEntry : word = pEntry := by
      have one : words pEntry = [pEntry] := by decide
      rw [one] at member
      exact List.mem_singleton.mp member
    have cut : pEntry.splitOn ':' =
        ["mc".toList, [], "x".toList, "p".toList,
          "do_deploy".toList] := by decide
    rw [isEntry, cut] at parts
    cases parts
    cases (show some _ = some data from isData)
    cases (show some "mc:x:p.bb".toList = some fn from first)
    revert isQ
    decide

end TwoTargets

end Nvbmc.Prepare
