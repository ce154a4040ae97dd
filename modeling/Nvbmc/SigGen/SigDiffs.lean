import Nvbmc.FileChecksums.Checksums
import Nvbmc.Library.Sorting
import Nvbmc.SigGen.Recompute
import Nvbmc.SigGen.SigFiles

/-!
# What a comparison reports

Two dumps are compared part by part, and a part is silent when what it looks at
is the same.  Where the hashes that are recorded are those of what is recorded,
two tasks with different hashes are never silently the same.  A comparison can
raise, though.
-/

namespace Nvbmc.SigGen

open Library

section DictDiff

variable {α : Type} [DecidableEq α] {a b : Dict Text α}
  {ignoredVars : Finset Text} {name : Text}

theorem mem_changed_iff : name ∈ (dictDiff a b ignoredVars).changed ↔
    (name ∈ a.keys ∧ name ∈ b.keys) ∧ a.get? name ≠ b.get? name ∧
      name ∉ ignoredVars := by
  rw [dictDiff, mem_sortedNames, Finset.mem_filter, Finset.mem_inter,
    List.mem_toFinset, List.mem_toFinset]

theorem mem_added_iff : name ∈ (dictDiff a b ignoredVars).added ↔
    name ∈ b.keys ∧ name ∉ a.keys := by
  rw [dictDiff, mem_sortedNames, Finset.mem_sdiff, List.mem_toFinset,
    List.mem_toFinset]

theorem mem_removed_iff : name ∈ (dictDiff a b ignoredVars).removed ↔
    name ∈ a.keys ∧ name ∉ b.keys := by
  rw [dictDiff, mem_sortedNames, Finset.mem_sdiff, List.mem_toFinset,
    List.mem_toFinset]

theorem mem_changed_of_get? {old new : α} (here : a.get? name = some old)
    (there : b.get? name = some new) (different : old ≠ new) :
    name ∈ (dictDiff a b ∅).changed := by
  rw [mem_changed_iff, here, there]
  refine ⟨⟨Dict.mem_keys_of_get? here, Dict.mem_keys_of_get? there⟩, ?_, ?_⟩
  · exact fun same => different (Option.some.inj same)
  · exact Finset.notMem_empty name

end DictDiff

structure SameGendeps (a b : Dict Text (Finset Text))
    (ignoredVars : Finset Text) : Prop where
  keys : ∀ name, name ∈ a.keys ↔ name ∈ b.keys
  values : ∀ name ∈ a.keys, name ∉ ignoredVars → a.get? name = b.get? name

theorem reportGendeps_eq_nil_iff {a b : Dict Text (Finset Text)}
    {ignoredVars : Finset Text} :
    reportGendeps a b ignoredVars = [] ↔ SameGendeps a b ignoredVars := by
  have split : reportGendeps a b ignoredVars = [] ↔
      ((∀ name, name ∉ (dictDiff a b ignoredVars).changed) ∧
        ∀ name, name ∉ (dictDiff a b ignoredVars).added) ∧
        ∀ name, name ∉ (dictDiff a b ignoredVars).removed := by
    simp only [reportGendeps, List.append_eq_nil_iff, List.map_eq_nil_iff,
      List.flatMap_eq_nil_iff, reduceCtorEq, imp_false]
    simp only [List.eq_nil_iff_forall_not_mem]
  rw [split]
  simp only [mem_changed_iff, mem_added_iff, mem_removed_iff]
  constructor
  · intro silent
    obtain ⟨⟨changed, added⟩, removed⟩ := silent
    have keys : ∀ name, name ∈ a.keys ↔ name ∈ b.keys := by
      intro name
      constructor
      · intro here
        by_contra missing
        exact removed name ⟨here, missing⟩
      · intro there
        by_contra missing
        exact added name ⟨there, missing⟩
    refine ⟨keys, fun name here notIgnored => ?_⟩
    by_contra different
    exact changed name ⟨⟨here, (keys name).mp here⟩, different, notIgnored⟩
  · intro same
    refine ⟨⟨fun name found => ?_, fun name found => ?_⟩, fun name found => ?_⟩
    · exact found.2.1 (same.values name found.1.1 found.2.2)
    · exact found.2 ((same.keys name).mpr found.1)
    · exact found.2 ((same.keys name).mp found.1)

theorem reportVarvals_eq_nil_iff {a b : Dict Text (Option Text)} :
    reportVarvals a b = [] ↔
      ∀ name ∈ a.keys, name ∈ b.keys → a.get? name = b.get? name := by
  rw [reportVarvals, List.map_eq_nil_iff, List.eq_nil_iff_forall_not_mem]
  simp only [mem_changed_iff, Finset.notMem_empty, not_false_iff, and_true,
    not_and, not_not, and_imp]

theorem value_mem_reportVarvals {a b : Dict Text (Option Text)} {name : Text}
    {old new : Option Text} (here : a.get? name = some old)
    (there : b.get? name = some new) (different : old ≠ new) :
    Difference.value name old new ∈ reportVarvals a b := by
  apply List.mem_map.mpr
  refine ⟨name, mem_changed_of_get? here there different, ?_⟩
  rw [here, there]
  rfl

/-- Each task that came has the hash of one that went, and the other way round.
-/
structure Renamed (a b : Dict Text Text) : Prop where
  came : ∀ dep ∈ b.keys, dep ∉ a.keys →
    ∃ other ∈ a.keys, other ∉ b.keys ∧ b.get? dep = a.get? other
  went : ∀ dep ∈ a.keys, dep ∉ b.keys →
    ∃ other ∈ b.keys, other ∉ a.keys ∧ b.get? other = a.get? dep

theorem reportTasks_eq_nil_iff {a b : Dict Text Text} :
    reportTasks a b = [] ↔ Renamed a b := by
  simp only [reportTasks, List.append_eq_nil_iff, List.map_eq_nil_iff,
    List.filter_eq_nil_iff, decide_eq_true_eq, mem_added_iff, mem_removed_iff,
    and_imp,
    not_forall, not_not, exists_prop]
  constructor
  · intro silent
    refine ⟨fun dep there missing => ?_, fun dep here missing => ?_⟩
    · obtain ⟨other, known, gone, same⟩ := silent.1 dep there missing
      exact ⟨other, known, gone, same⟩
    · obtain ⟨other, known, new, same⟩ := silent.2 dep here missing
      exact ⟨other, known, new, same⟩
  · intro renamed
    refine ⟨fun dep there missing => ?_, fun dep here missing => ?_⟩
    · obtain ⟨other, known, gone, same⟩ := renamed.came dep there missing
      exact ⟨other, known, gone, same⟩
    · obtain ⟨other, known, new, same⟩ := renamed.went dep here missing
      exact ⟨other, known, new, same⟩

theorem pairFiles_silent {gone came : List Checksum}
    (silent : reportFiles (pairFiles gone came) = []) :
    gone = [] ∧ came = [] := by
  cases gone with
  | nil =>
      rw [pairFiles, reportFiles] at silent
      simpa using silent
  | cons first gone =>
      rw [pairFiles] at silent
      cases found : came.find? (·.1 = first.1) with
      | some other =>
          rw [found] at silent
          simp [reportFiles] at silent
      | none =>
          rw [found] at silent
          simp [reportFiles] at silent

theorem reportFiles_eq_nil_iff {a b : List Checksum} :
    reportFiles (fileChecksumsDiff a b) = [] ↔ a.Perm b := by
  rw [← surplus_eq_nil_iff]
  constructor
  · exact pairFiles_silent
  · intro none
    rw [fileChecksumsDiff, none.1, none.2]
    rfl

theorem file_mem_reportFiles {a b rest : List Checksum} {name : Text}
    {old new : Option Text} (here : a.Perm ((name, old) :: rest))
    (there : b.Perm ((name, new) :: rest)) (different : old ≠ new) :
    Difference.file name old new ∈ reportFiles (fileChecksumsDiff a b) := by
  have gone : surplus (excess a b) a = [(name, old)] := by
    apply surplus_of_perm_cons _ here there
    exact fun same => different (Prod.mk.inj same).2
  have came : surplus (excess b a) b = [(name, new)] := by
    apply surplus_of_perm_cons _ there here
    exact fun same => different (Prod.mk.inj same).2.symm
  rw [fileChecksumsDiff, gone, came]
  simp [pairFiles, reportFiles]

/-- Each dependency has its hash. -/
def SigData.Placed (data : SigData) : Prop :=
  ∀ dep ∈ data.runtaskdeps, dep ∈ data.runtaskhashes.keys

theorem SigData.placedHashes_eq {data : SigData} {deps : List Text}
    (placed : ∀ dep ∈ deps, dep ∈ data.runtaskhashes.keys) :
    data.placedHashes deps =
      some (deps.map fun dep =>
        (dep, (data.runtaskhashes.get? dep).getD [])) := by
  induction deps with
  | nil => rfl
  | cons dep deps induction =>
      rw [List.forall_mem_cons] at placed
      obtain ⟨hash, known⟩ :=
        Option.ne_none_iff_exists'.mp (Dict.get?_ne_none_iff.mpr placed.1)
      simp [SigData.placedHashes, known, induction placed.2]

theorem filter_zip_eq_nil_iff {deps others : List (Text × Text)}
    (length : deps.length = others.length) :
    ((deps.zip others).filter fun place => place.1.2 ≠ place.2.2) = [] ↔
      deps.map Prod.snd = others.map Prod.snd := by
  induction deps generalizing others with
  | nil =>
      obtain rfl := List.length_eq_zero_iff.mp length.symm
      simp
  | cons dep deps induction =>
      cases others with
      | nil => cases length
      | cons other others =>
          have shorter := @induction others (Nat.succ.inj length)
          by_cases same : dep.2 = other.2
          · simp [same, ← shorter]
          · simp [same]

/-- The hashes of the dependencies, one behind the other. -/
def SigData.hashes (data : SigData) : List Text :=
  data.runtaskdeps.map fun dep => (data.runtaskhashes.get? dep).getD []

/-- Both look at their dependencies without raising, and say nothing when the
hashes are the same. -/
theorem compareRuntaskdeps_spec {a b : SigFile} (here : a.Placed)
    (there : b.Placed) : ∃ report, compareRuntaskdeps a b false = some report ∧
      (report = [] ↔ a.hashes = b.hashes) := by
  rw [compareRuntaskdeps, if_neg Bool.false_ne_true]
  by_cases length : a.runtaskdeps.length = b.runtaskdeps.length
  · rw [if_neg (not_not_intro length), SigData.placedHashes_eq here,
      SigData.placedHashes_eq there]
    have silent := @filter_zip_eq_nil_iff
      (a.runtaskdeps.map fun dep => (dep, (a.runtaskhashes.get? dep).getD []))
      (b.runtaskdeps.map fun dep => (dep, (b.runtaskhashes.get? dep).getD []))
      (by simpa using length)
    rw [List.map_map, List.map_map] at silent
    refine ⟨_, rfl, ?_⟩
    rw [SigData.hashes, SigData.hashes]
    split_ifs with none
    · exact ⟨fun _ => silent.mp none, fun _ => rfl⟩
    · refine ⟨fun wrong => ?_, fun same => ?_⟩
      · cases wrong
      · exact absurd (silent.mpr same) none
  · rw [if_pos length]
    refine ⟨_, rfl, fun wrong => ?_, fun same => ?_⟩
    · cases wrong
    · have lengths := congrArg List.length same
      rw [SigData.hashes, SigData.hashes, List.length_map, List.length_map]
        at lengths
      exact absurd lengths length

/-- The dictionaries of a dump are dictionaries when they are read again. -/
structure Readable (data : SigFile) : Prop where
  gendeps : setObject ∉ data.gendeps.keys
  varvals : setObject ∉ data.varvals.keys
  runtaskhashes : setObject ∉ data.runtaskhashes.keys

/-- Both dumps tell of tasks to ignore, and of different ones. -/
def IgnoreTasksClash (a b : SigFile) : Prop :=
  a.taskhashIgnoreTasks ≠ b.taskhashIgnoreTasks ∧
    textOf a.taskhashIgnoreTasks ≠ [] ∧ textOf b.taskhashIgnoreTasks ≠ []

/-- What is compared is the same in both dumps. -/
structure SameRecorded (a b : SigFile) : Prop where
  ignoreVars : a.basehashIgnoreVars = b.basehashIgnoreVars
  ignoreTasks : a.taskhashIgnoreTasks = b.taskhashIgnoreTasks
  taskdeps : a.taskdeps = b.taskdeps
  basehash : a.basehash = b.basehash
  gendeps : SameGendeps a.gendeps b.gendeps
    (a.basehashIgnoreVars ∩ b.basehashIgnoreVars)
  varvals : ∀ name ∈ a.varvals.keys, name ∈ b.varvals.keys →
    a.varvals.get? name = b.varvals.get? name
  files : a.fileChecksumValues.Perm b.fileChecksumValues
  hashes : a.hashes = b.hashes
  renamed : Renamed a.runtaskhashes b.runtaskhashes
  kept : ∀ dep ∈ a.runtaskhashes.keys, dep ∈ b.runtaskhashes.keys →
    a.runtaskhashes.get? dep = b.runtaskhashes.get? dep
  taint : a.taint = b.taint

theorem loadDict_eq_some_iff {α : Type} {written loaded : Dict Text α} :
    loadDict written = some loaded ↔ setObject ∉ written.keys ∧
      written = loaded := by
  rw [loadDict]
  split_ifs with isSet
  · constructor
    · intro wrong
      cases wrong
    · intro right
      exact absurd isSet right.1
  · constructor
    · intro same
      exact ⟨isSet, Option.some.inj same⟩
    · intro same
      rw [same.2]

theorem compareIgnoreVars_eq_nil_iff {a b : SigFile} :
    compareIgnoreVars a b = [] ↔
      a.basehashIgnoreVars = b.basehashIgnoreVars := by
  rw [compareIgnoreVars]
  by_cases same : a.basehashIgnoreVars = b.basehashIgnoreVars
  · rw [if_neg (not_not_intro same)]
    exact ⟨fun _ => same, fun _ => rfl⟩
  · rw [if_pos same]
    refine ⟨fun wrong => ?_, fun wrong => absurd wrong same⟩
    cases wrong

theorem compareIgnoreTasks_eq_some {a b : SigFile} {report : List Difference}
    (compared : compareIgnoreTasks a b = some report) :
    ¬ IgnoreTasksClash a b ∧
      (report = [] ↔ a.taskhashIgnoreTasks = b.taskhashIgnoreTasks) := by
  rw [compareIgnoreTasks] at compared
  split_ifs at compared with different clash
  · cases compared
    exact ⟨fun wrong => clash wrong.2, by simp [different]⟩
  · cases compared
    have same := not_not.mp different
    exact ⟨fun wrong => wrong.1 same, by simp [same]⟩

section Whole

variable {shown : Shown} {colors : Colors} {a b : SigFile}

theorem hashChanges_none (here there : Dict Text Text)
    (deps output : List Text) :
    hashChanges shown colors here there false none deps output =
      output ++ deps.map fun dep => Difference.message shown colors
        (.taskHash dep ((here.get? dep).getD [])
          ((there.get? dep).getD [])) := by
  induction deps generalizing output with
  | nil => simp [hashChanges]
  | cons dep deps induction => simp [hashChanges, induction]

/-- What is reported without a recursive comparison. -/
structure Reported (a b : SigFile) (ignoreTasks runtaskdeps : List Difference)
    (report : List Difference) : Prop where
  readable : Readable a ∧ Readable b
  clash : compareIgnoreTasks a b = some ignoreTasks
  places : compareRuntaskdeps a b false = some runtaskdeps
  report : report = compareIgnoreVars a b ++ ignoreTasks ++
    compareTaskdeps a b ++ compareBasehash a b false ++
    reportGendeps a.gendeps b.gendeps
      (a.basehashIgnoreVars ∩ b.basehashIgnoreVars) ++
    reportVarvals a.varvals b.varvals ++ compareFiles a b ++ runtaskdeps ++
    reportTasks a.runtaskhashes b.runtaskhashes ++
    ((dictDiff a.runtaskhashes b.runtaskhashes ∅).changed.map fun dep =>
      .taskHash dep ((a.runtaskhashes.get? dep).getD [])
        ((b.runtaskhashes.get? dep).getD [])) ++ compareTaint a b

theorem compareSigfiles_eq_some_iff {output : List Text} :
    compareSigfiles shown colors a b none false = some output ↔
      ∃ ignoreTasks runtaskdeps report, Reported a b ignoreTasks runtaskdeps
        report ∧ output = report.map (Difference.message shown colors) := by
  simp only [compareSigfiles, compareGendeps, compareVarvals, compareTasks,
    Option.bind_eq_bind, Option.bind_eq_some_iff, loadDict_eq_some_iff,
    Option.some.injEq]
  constructor
  · rintro ⟨ignoreTasks, clash, _, ⟨_, ⟨gendeps, rfl⟩, _, ⟨gendeps', rfl⟩, rfl⟩,
      _, ⟨_, ⟨varvals, rfl⟩, _, ⟨varvals', rfl⟩, rfl⟩, runtaskdeps, places,
      _, ⟨_, ⟨hashes, rfl⟩, _, ⟨hashes', rfl⟩, rfl⟩, rfl⟩
    refine ⟨ignoreTasks, runtaskdeps, _, ⟨⟨⟨gendeps, varvals, hashes⟩,
      ⟨gendeps', varvals', hashes'⟩⟩, clash, places, rfl⟩, ?_⟩
    rw [hashChanges_none]
    simp
  · rintro ⟨ignoreTasks, runtaskdeps, _, ⟨⟨here, there⟩, clash, places, rfl⟩,
      rfl⟩
    refine ⟨ignoreTasks, clash, _,
      ⟨_, ⟨here.gendeps, rfl⟩, _, ⟨there.gendeps, rfl⟩, rfl⟩,
      _, ⟨_, ⟨here.varvals, rfl⟩, _, ⟨there.varvals, rfl⟩, rfl⟩, runtaskdeps,
      places,
      _, ⟨_, ⟨here.runtaskhashes, rfl⟩, _, ⟨there.runtaskhashes, rfl⟩, rfl⟩, ?_⟩
    rw [hashChanges_none]
    simp

variable {ignoreTasks runtaskdeps report : List Difference}

theorem Reported.eq_nil_iff
    (reported : Reported a b ignoreTasks runtaskdeps report)
    (here : a.Placed) (there : b.Placed) : report = [] ↔ SameRecorded a b := by
  have tasks := (compareIgnoreTasks_eq_some reported.clash).2
  obtain ⟨places, found, samePlaces⟩ := compareRuntaskdeps_spec here there
  obtain rfl : places = runtaskdeps :=
    Option.some.inj (found.symm.trans reported.places)
  have kept : ((dictDiff a.runtaskhashes b.runtaskhashes ∅).changed = []) ↔
      ∀ dep ∈ a.runtaskhashes.keys, dep ∈ b.runtaskhashes.keys →
        a.runtaskhashes.get? dep = b.runtaskhashes.get? dep := by
    rw [List.eq_nil_iff_forall_not_mem]
    simp only [mem_changed_iff, Finset.notMem_empty, not_false_iff, and_true,
      not_and, not_not, and_imp]
  have taskdeps : compareTaskdeps a b = [] ↔ a.taskdeps = b.taskdeps := by
    simp [compareTaskdeps]
  have basehash : compareBasehash a b false = [] ↔ a.basehash = b.basehash := by
    simp [compareBasehash]
  have taint : compareTaint a b = [] ↔ a.taint = b.taint := by
    simp [compareTaint]
  rw [reported.report]
  simp only [List.append_eq_nil_iff, List.map_eq_nil_iff,
    compareIgnoreVars_eq_nil_iff,
    tasks, taskdeps, basehash, reportGendeps_eq_nil_iff,
    reportVarvals_eq_nil_iff,
    compareFiles, reportFiles_eq_nil_iff, samePlaces, reportTasks_eq_nil_iff,
    kept, taint]
  constructor
  · intro same
    obtain ⟨⟨⟨⟨⟨⟨⟨⟨⟨⟨ignoreVars, ignoreTasks⟩, taskdeps⟩, basehash⟩, gendeps⟩,
      varvals⟩, files⟩, hashes⟩, renamed⟩, kept⟩, taint⟩ := same
    exact ⟨ignoreVars, ignoreTasks, taskdeps, basehash, gendeps, varvals, files,
      hashes, renamed, kept, taint⟩
  · intro same
    exact ⟨⟨⟨⟨⟨⟨⟨⟨⟨⟨same.ignoreVars, same.ignoreTasks⟩, same.taskdeps⟩,
      same.basehash⟩,
      same.gendeps⟩, same.varvals⟩, same.files⟩, same.hashes⟩, same.renamed⟩,
        same.kept⟩,
      same.taint⟩

variable (shown colors a b)

/-- The differences are told: there are some, and one for each item that
differs. -/
structure Tells (output : List Text) : Prop where
  nonempty : output ≠ []
  hash : ∀ dep old new, a.runtaskhashes.get? dep = some old →
    b.runtaskhashes.get? dep = some new → old ≠ new →
      Difference.message shown colors (.taskHash dep old new) ∈ output
  file : ∀ name old new rest, a.fileChecksumValues.Perm ((name, old) :: rest) →
    b.fileChecksumValues.Perm ((name, new) :: rest) → old ≠ new →
      Difference.message shown colors (.file name old new) ∈ output
  value : ∀ name old new, a.varvals.get? name = some old →
    b.varvals.get? name = some new → old ≠ new →
      Difference.message shown colors (.value name old new) ∈ output
  taint : a.taint ≠ b.taint →
    Difference.message shown colors (.taint a.taint b.taint) ∈ output

/-- Two tasks with different hashes can be compared, and the differences are
told. -/
def Complete : Prop :=
  a.taskhash ≠ b.taskhash →
    ∃ output, compareSigfiles shown colors a b none false = some output ∧
      Tells shown colors a b output

/-- The comparison does not raise, and it has something to find. -/
structure Comparable : Prop where
  readable : Readable a ∧ Readable b
  clash : ¬ IgnoreTasksClash a b
  different : ¬ SameRecorded a b

variable {shown colors a b}

theorem Reported.tells
    (reported : Reported a b ignoreTasks runtaskdeps report)
    (nonempty : report ≠ []) :
    Tells shown colors a b (report.map (Difference.message shown colors)) := by
  have told : ∀ difference ∈ report,
      Difference.message shown colors difference ∈
        report.map (Difference.message shown colors) :=
    fun difference member => List.mem_map_of_mem member
  constructor
  · exact fun none => nonempty (List.map_eq_nil_iff.mp none)
  · intro dep old new here there different
    apply told
    rw [reported.report]
    apply List.mem_append_left
    apply List.mem_append_right
    apply List.mem_map.mpr
    refine ⟨dep, mem_changed_of_get? here there different, ?_⟩
    rw [here, there]
    rfl
  · intro name old new rest here there different
    apply told
    rw [reported.report]
    iterate 4 apply List.mem_append_left
    apply List.mem_append_right
    exact file_mem_reportFiles here there different
  · intro name old new here there different
    apply told
    rw [reported.report]
    iterate 5 apply List.mem_append_left
    apply List.mem_append_right
    exact value_mem_reportVarvals here there different
  · intro different
    apply told
    rw [reported.report]
    apply List.mem_append_right
    rw [compareTaint, if_pos different]
    exact List.mem_singleton_self _

theorem complete_iff (here : a.Placed) (there : b.Placed) :
    Complete shown colors a b ↔ (a.taskhash ≠ b.taskhash → Comparable a b) := by
  constructor
  · intro complete different
    obtain ⟨output, compared, tells⟩ := complete different
    obtain ⟨ignoreTasks, runtaskdeps, report, reported, rfl⟩ :=
      compareSigfiles_eq_some_iff.mp compared
    refine ⟨reported.readable, (compareIgnoreTasks_eq_some reported.clash).1,
      ?_⟩
    intro same
    apply tells.nonempty
    rw [(reported.eq_nil_iff here there).mpr same]
    rfl
  · intro comparable different
    obtain ⟨readable, clash, unequal⟩ := comparable different
    have compared : ∃ ignoreTasks, compareIgnoreTasks a b =
        some ignoreTasks := by
      rw [compareIgnoreTasks]
      split_ifs with other both
      · exact absurd ⟨other, both⟩ clash
      · exact ⟨_, rfl⟩
      · exact ⟨_, rfl⟩
    obtain ⟨ignoreTasks, compared⟩ := compared
    obtain ⟨places, found, _⟩ := compareRuntaskdeps_spec here there
    have reported : Reported a b ignoreTasks places _ :=
      ⟨readable, compared, found, rfl⟩
    refine ⟨_, compareSigfiles_eq_some_iff.mpr ⟨_, _, _, reported, rfl⟩, ?_⟩
    apply reported.tells
    exact fun none => unequal ((reported.eq_nil_iff here there).mp none)

end Whole

section Dumps

variable {sha256 : Text → Text} {ignored : Finset Text}
  {ignoreTasks : Option Text} {gen : Generator} {tid : Tid} {a b : SigFile}

theorem dumpSigfile_cases
    (dumped : gen.dumpSigfile ignored ignoreTasks tid = some a) :
    gen.dumpSigtask ignored tid = some a.toSigData ∧
      gen.taskhash tid = some a.taskhash ∧
      a.basehashIgnoreVars = ignored ∧ a.taskhashIgnoreTasks = ignoreTasks := by
  obtain ⟨recipe, _, dumped⟩ := Option.bind_eq_some_iff.mp dumped
  obtain ⟨inputs, _, dumped⟩ := Option.bind_eq_some_iff.mp dumped
  obtain ⟨data, written, dumped⟩ := Option.bind_eq_some_iff.mp dumped
  obtain ⟨taskhash, hashed, dumped⟩ := Option.bind_eq_some_iff.mp dumped
  obtain ⟨unihash, _, dumped⟩ := Option.bind_eq_some_iff.mp dumped
  obtain rfl := Option.some.inj dumped
  exact ⟨written, hashed, rfl, rfl⟩

theorem mem_keys_dumpHashes {deps : List (Text × Tid)}
    {hashes result : Dict Text Text}
    (dumped : gen.dumpHashes deps hashes = some result) :
    (∀ dep ∈ deps, dep.1 ∈ result.keys) ∧ ∀ name ∈ hashes.keys,
      name ∈ result.keys := by
  induction deps generalizing hashes with
  | nil =>
      obtain rfl := Option.some.inj dumped
      exact ⟨fun dep member => absurd member List.not_mem_nil,
        fun name member => member⟩
  | cons dep deps induction =>
      obtain ⟨unihash, _, dumped⟩ := Option.bind_eq_some_iff.mp dumped
      obtain ⟨inside, outside⟩ := induction dumped
      have first := outside dep.1 ((Dict.mem_keys_set ..).mpr (.inl rfl))
      refine ⟨List.forall_mem_cons.mpr ⟨first, inside⟩, fun name member => ?_⟩
      exact outside name ((Dict.mem_keys_set ..).mpr (.inr member))

theorem placed_of_dumped
    (dumped : gen.dumpSigfile ignored ignoreTasks tid = some a) : a.Placed := by
  obtain ⟨recipe, inputs, basehash, taskhash, deps, checksums, hashes, -, -, -,
    -, -, -, found, same⟩ := dumpSigtask_cases (dumpSigfile_cases dumped).1
  rw [same]
  intro name member
  obtain ⟨dep, there, rfl⟩ := List.mem_map.mp member
  exact (mem_keys_dumpHashes found).1 dep (mem_sortedDeps.mp there)

/-- The taskhash is the one that `calc_taskhash` gets from the dump. -/
def Rehashes (sha256 : Text → Text) (data : SigFile) : Prop :=
  data.taskhashText.map sha256 = some data.taskhash

/-- The checksums come in the order in which `get_checksums` gives them. -/
def InCacheOrder (gen : Generator) (tid : Tid) : Prop :=
  ∀ checksums, gen.fileChecksumValues tid = some checksums →
    checksums.Pairwise fun first second => textOf first.2 ≤ textOf second.2

def fileText (checksum : Checksum) : Text × Text :=
  (checksum.1, textOf checksum.2)

theorem pairwise_dumpChecksums {checksums : List Checksum}
    (sorted : checksums.Pairwise fun first second => textOf first.2 ≤
      textOf second.2) :
    ((dumpChecksums checksums).map fileText).Pairwise
      (byKeys Prod.fst Prod.snd · ·) := by
  have same : (dumpChecksums checksums).map fileText =
      (sortedChecksums checksums).map fun checksum =>
        (cleanChecksumFilePath checksum.1, textOf checksum.2) := by
    rw [dumpChecksums, List.map_map]
    rfl
  have already : checksums.mergeSort (fun first second => textOf first.2 ≤
      textOf second.2) = checksums := by
    apply List.mergeSort_of_pairwise
    exact sorted.imp fun le => decide_eq_true le
  have both := @pairwise_mergeSort_mergeSort _ _ _ _ _
    (fun checksum : Checksum => cleanChecksumFilePath checksum.1)
    (fun checksum => textOf checksum.2) checksums
  rw [already] at both
  rw [same, List.pairwise_map]
  exact both

theorem filesText_congr {files others : List Checksum}
    (same : files.map fileText = others.map fileText) :
    SigData.filesText files = SigData.filesText others := by
  induction files generalizing others with
  | nil =>
      obtain rfl := List.map_eq_nil_iff.mp same.symm
      rfl
  | cons file files induction =>
      cases others with
      | nil => cases same
      | cons other others =>
          rw [List.map_cons, List.map_cons, List.cons.injEq] at same
          obtain ⟨name, text⟩ := Prod.mk.inj same.1
          rw [SigData.filesText, SigData.filesText, induction same.2, name,
            text]

theorem hashesText_eq_placedHashes (data : SigData) (deps : List Text) :
    data.hashesText deps =
      (data.placedHashes deps).map fun places =>
        (places.map Prod.snd).flatten := by
  induction deps with
  | nil => rfl
  | cons dep deps induction =>
      rw [SigData.hashesText, SigData.placedHashes, induction]
      cases data.runtaskhashes.get? dep with
      | none => rfl
      | some hash => cases data.placedHashes deps <;> rfl

theorem hashesText_of_placed {data : SigData} {deps : List Text}
    (placed : ∀ dep ∈ deps, dep ∈ data.runtaskhashes.keys) :
    data.hashesText deps =
      some (deps.map fun dep => (data.runtaskhashes.get? dep).getD
        []).flatten := by
  rw [hashesText_eq_placedHashes, SigData.placedHashes_eq placed,
    Option.map_some, List.map_map]
  rfl

theorem SameRecorded.taskhashText_eq (same : SameRecorded a b) (here : a.Placed)
    (there : b.Placed)
    (files : SigData.filesText a.fileChecksumValues =
      SigData.filesText b.fileChecksumValues) :
    a.taskhashText = b.taskhashText := by
  have hashes := congrArg List.flatten same.hashes
  rw [SigData.hashes, SigData.hashes] at hashes
  rw [SigData.taskhashText, SigData.taskhashText, hashesText_of_placed here,
    hashesText_of_placed there, hashes, files, same.basehash, same.taint]

theorem filesText_of_perm {gen' : Generator} {tid' : Tid}
    {ignored' : Finset Text} {ignoreTasks' : Option Text}
    (here : gen.dumpSigfile ignored ignoreTasks tid = some a)
    (there : gen'.dumpSigfile ignored' ignoreTasks' tid' = some b)
    (ordered : InCacheOrder gen tid)
    (ordered' : InCacheOrder gen' tid')
    (files : a.fileChecksumValues.Perm b.fileChecksumValues) :
    SigData.filesText a.fileChecksumValues =
      SigData.filesText b.fileChecksumValues := by
  obtain ⟨_, _, _, _, _, checksums, _, _, _, _, _, _, summed, _, dataA⟩ :=
    dumpSigtask_cases (dumpSigfile_cases here).1
  obtain ⟨_, _, _, _, _, checksums', _, _, _, _, _, _, summed', _, dataB⟩ :=
    dumpSigtask_cases (dumpSigfile_cases there).1
  rw [dataA, dataB] at files ⊢
  apply filesText_congr
  apply eq_of_pairwise_byKeys _ (pairwise_dumpChecksums (ordered _ summed))
    (pairwise_dumpChecksums (ordered' _ summed')) (files.map _)
  intro item other first second
  exact Prod.ext first second

variable {shown : Shown} {colors : Colors}

/-- Of two dumps the differences are told exactly when the comparison does not
raise and has something to find.  It has, when the hashes are those of what is
dumped. -/
theorem complete_iff_comparable {gen' : Generator} {tid' : Tid}
    {ignored' : Finset Text} {ignoreTasks' : Option Text}
    (here : gen.dumpSigfile ignored ignoreTasks tid = some a)
    (there : gen'.dumpSigfile ignored' ignoreTasks' tid' = some b) :
    (Complete shown colors a b ↔ (a.taskhash ≠ b.taskhash → Comparable a b)) ∧
      (Rehashes sha256 a → Rehashes sha256 b → InCacheOrder gen tid →
        InCacheOrder gen' tid' → a.taskhash ≠ b.taskhash →
          ¬ SameRecorded a b) := by
  have placed := placed_of_dumped here
  have placed' := placed_of_dumped there
  refine ⟨complete_iff placed placed', ?_⟩
  intro rehashes rehashes' ordered ordered' different same
  have files := filesText_of_perm here there ordered ordered' same.files
  rw [Rehashes, same.taskhashText_eq placed placed' files, rehashes']
    at rehashes
  exact different (Option.some.inj rehashes).symm

end Dumps

def plainRecipe (value : Text) : Recipe :=
  { forcedRecipe with lookupcache := fun _ => some value }

def parsedPlain (value : Text) : Generator :=
  (Generator.new fun _ => none).parse id ∅ ['r'] (plainRecipe value)

def hashedPlain (value : Text) : Generator :=
  { parsedPlain value with
    basehash := Function.update (parsedPlain value).basehash forcedTid
      (some value)
    taskhash := Function.update (fun _ => none) forcedTid (some value)
    runtaskdeps := Function.update (fun _ => none) forcedTid (some [])
    fileChecksumValues := Function.update (fun _ => none) forcedTid (some [])
    taints := Function.update (fun _ => none) forcedTid none
    tidtopn := Function.update (fun _ => none) forcedTid (some ['p'])
    hashed := Function.update (fun _ => none) forcedTid (some value)
    prepared := Function.update (fun _ => none) forcedTid none }

variable (value : Text)

theorem inputs_plainRecipe : (plainRecipe value).inputs ∅ ['t'] =
    some ⟨some value, ∅, fun _ => some value⟩ := by
  rfl

theorem hashed_plainInputs :
    (TaskInputs.mk (some value) ∅ fun _ => some value).hashed = value := by
  simp [TaskInputs.hashed, TaskInputs.data]

theorem reachable_hashedPlain :
    Reachable Fresh (Steps id ∅) (fun _ _ => True) (hashedPlain value) := by
  have parse : Steps id ∅ (Generator.new fun _ => none)
      (.parse ['r'] (plainRecipe value)) (parsedPlain value) := rfl
  apply Reachable.step (.step (.start ⟨_, rfl⟩) trivial parse) trivial
  show (parsedPlain value).perform id ∅ (.prepare forcedTid ⟨[], [], []⟩) = _
  have pn : (plainRecipe value).pn = ['p'] := rfl
  have nostamp : (plainRecipe value).nostamp = ∅ := rfl
  simp [Generator.perform, Generator.prepTaskhash, Generator.getTaskhash,
    Generator.pnidDeps, Generator.taskText, Generator.depsText,
    Generator.prepTaint,
    Generator.readTaint, hashedPlain, parsedPlain, Generator.parse,
    Generator.new,
    inputs_plainRecipe, hashed_plainInputs, sortedDeps, sortedChecksums,
    checksumsText,
    taintText, forcedTid, pn, nostamp]

/-- What is dumped about the task. -/
def plainFile (value : Text) (ignoreTasks : Option Text) : SigFile :=
  { task := ['t']
    taskdeps := ∅
    basehash := value
    varvals := dumpVarvals ∅ ⟨some value, ∅, fun _ => some value⟩ ['t']
    runtaskdeps := []
    fileChecksumValues := []
    runtaskhashes := []
    taint := none
    basehashIgnoreVars := ∅
    taskhashIgnoreTasks := ignoreTasks
    gendeps := []
    taskhash := value
    unihash := value }

theorem dumpSigfile_plain (ignoreTasks : Option Text) :
    (hashedPlain value).dumpSigfile ∅ ignoreTasks forcedTid =
      some (plainFile value ignoreTasks) := by
  simp [Generator.dumpSigfile, Generator.dumpSigtask, hashedPlain, parsedPlain,
    Generator.parse, Generator.new, forcedTid, inputs_plainRecipe,
    Generator.dumpHashes,
    dumpChecksums, sortedDeps, sortedChecksums, Generator.dumpTaint,
    Generator.readTaint,
    Generator.getUnihash, plainFile, dumpGendeps, sortedNames]

theorem readable_plain (ignoreTasks : Option Text) :
    Readable (plainFile value ignoreTasks) := by
  constructor
  · exact List.not_mem_nil
  · intro member
    have isTask : setObject ∈ [['t']] := by
      simpa [plainFile, dumpVarvals, sortedNames, Dict.keys] using member
    exact absurd isTask (by decide)
  · exact List.not_mem_nil

/-- The differences of two tasks with different values are told. -/
theorem complete_plain :
    Complete ⟨fun _ => [], fun _ => [], fun _ _ => [], fun _ _ => []⟩
    ⟨[], [], [], []⟩ (plainFile ['v'] none) (plainFile ['w'] none) := by
  have both :=
    @complete_iff_comparable id ∅ none (hashedPlain ['v']) forcedTid _ _
    ⟨fun _ => [], fun _ => [], fun _ _ => [], fun _ _ => []⟩ ⟨[], [], [], []⟩
    (hashedPlain ['w']) forcedTid ∅ none (dumpSigfile_plain ['v'] none)
    (dumpSigfile_plain ['w'] none)
  apply both.1.mpr
  intro _
  refine ⟨⟨readable_plain _ _, readable_plain _ _⟩, fun clash => clash.1 rfl,
    fun same => ?_⟩
  have values : ['v'] = ['w'] := same.basehash
  exact absurd values (by decide)

/-- With other tasks to ignore the comparison raises. -/
theorem not_complete_ignoreTasks :
    ¬ ∀ (shown : Shown) (colors : Colors) (sha256 : Text → Text)
      (ignored : Finset Text) (ignoreTasks ignoreTasks' : Option Text)
      (gen gen' : Generator) (tid tid' : Tid) (a b : SigFile),
      Reachable Fresh (Steps sha256 ignored) (fun _ _ => True) gen →
      Reachable Fresh (Steps sha256 ignored) (fun _ _ => True) gen' →
      gen.dumpSigfile ignored ignoreTasks tid = some a →
      gen'.dumpSigfile ignored ignoreTasks' tid' = some b →
      Complete shown colors a b := by
  intro complete
  have told := complete ⟨fun _ => [], fun _ => [], fun _ _ => [], fun _ _ => []⟩
    ⟨[], [], [], []⟩ id ∅ (some ['a']) (some ['b']) _ _ _ _ _ _
    (reachable_hashedPlain ['v']) (reachable_hashedPlain ['w'])
    (dumpSigfile_plain ['v'] _)
    (dumpSigfile_plain ['w'] _)
  have different : (plainFile ['v'] (some ['a'])).taskhash ≠
      (plainFile ['w'] (some ['b'])).taskhash := by
    decide
  obtain ⟨output, compared, -⟩ := told different
  obtain ⟨ignoreTasks, runtaskdeps, report, reported, -⟩ :=
    compareSigfiles_eq_some_iff.mp compared
  apply (compareIgnoreTasks_eq_some reported.clash).1
  refine ⟨?_, ?_, ?_⟩ <;> decide

end Nvbmc.SigGen
