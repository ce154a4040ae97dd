import Nvbmc.SigGen.TaskHash

/-!
# Hashing what was dumped

A dump is made from the caches and the files as they are then, and a hash from
what they were when it was made.  Both texts are the same as long as no step
changes what a hashed task was hashed from, and as long as its taint is the one
in its file.
-/

namespace Nvbmc.SigGen

open Library

section Close

variable {recipe : Recipe} {ignored : Finset Text}

theorem closeDeps_not_ignored {fuel : ℕ} {newdeps seen deps : Finset Text}
    (new : Disjoint newdeps ignored) (old : Disjoint seen ignored)
    (closed : recipe.closeDeps ignored fuel newdeps seen = some deps) :
    Disjoint deps ignored := by
  induction fuel generalizing newdeps seen with
  | zero => cases closed
  | succ fuel induction =>
      rw [Recipe.closeDeps] at closed
      by_cases done : newdeps = ∅
      · rw [if_pos done] at closed
        cases closed
        exact old
      · rw [if_neg done] at closed
        apply induction _ _ closed
        · apply Finset.disjoint_left.mpr
          intro name member
          obtain ⟨dep, _, there⟩ :=
            Finset.mem_biUnion.mp (Finset.mem_sdiff.mp member).1
          exact (Finset.mem_sdiff.mp there).2
        · exact Finset.disjoint_union_left.mpr ⟨old, new⟩

theorem inputs_spec {task : Text} {inputs : TaskInputs}
    (known : recipe.inputs ignored task = some inputs) :
    inputs.value = recipe.lookupcache task ∧
      inputs.values = recipe.lookupcache ∧ Disjoint inputs.deps ignored := by
  unfold Recipe.inputs at known
  split_ifs at known
  obtain ⟨deps, closed, rfl⟩ := Option.map_eq_some_iff.mp known
  exact ⟨rfl, rfl, closeDeps_not_ignored Finset.sdiff_disjoint
    (Finset.disjoint_empty_left _) closed⟩

end Close

section Base

variable {recipe : Recipe} {ignored : Finset Text} {task : Text}
  {inputs : TaskInputs}

theorem get?_foldl_set {values : Text → Option Text} (names : List Text)
    (varvals : Dict Text (Option Text)) (name : Text) :
    (names.foldl (fun varvals dep => varvals.set dep (values dep)) varvals).get?
      name =
      if name ∈ names then some (values name) else varvals.get? name := by
  induction names generalizing varvals with
  | nil => rfl
  | cons head names induction =>
      rw [List.foldl_cons, induction, Dict.get?_set]
      by_cases here : name ∈ names
      · rw [if_pos here, if_pos (List.mem_cons_of_mem _ here)]
      · by_cases same : name = head
        · subst name
          simp [here]
        · simp [here, same]

theorem get?_dumpVarvals (known : recipe.inputs ignored task = some inputs)
    {name : Text} (member : name = task ∨ name ∈ inputs.deps) :
    (dumpVarvals ignored inputs task).get? name =
      some (recipe.lookupcache name) := by
  obtain ⟨value, values, disjoint⟩ := inputs_spec known
  have all : (sortedNames inputs.deps).filter (· ∉ ignored) =
      sortedNames inputs.deps := by
    apply List.filter_eq_self.mpr
    intro dep there
    simpa using Finset.disjoint_left.mp disjoint (mem_sortedNames.mp there)
  rw [dumpVarvals, all, get?_foldl_set, values]
  by_cases there : name ∈ inputs.deps
  · rw [if_pos (mem_sortedNames.mpr there)]
  · rw [if_neg fun sorted => there (mem_sortedNames.mp sorted)]
    obtain rfl : name = task := member.resolve_right there
    rw [value]
    exact if_pos rfl

theorem depsText_eq {data : SigData} {names : List Text}
    (known : ∀ name ∈ names, data.varvals.get? name =
      some (recipe.lookupcache name)) :
    data.depsText names =
      some (names.flatMap fun dep =>
        [dep, textOf (recipe.lookupcache dep)]).flatten := by
  induction names with
  | nil => rfl
  | cons name names induction =>
      rw [List.forall_mem_cons] at known
      simp [SigData.depsText, known.1, induction known.2]

/-- `calc_basehash` builds the text that was hashed. -/
theorem basehashText_eq {data : SigData}
    (known : recipe.inputs ignored task = some inputs) (same : data.task = task)
    (deps : data.taskdeps = inputs.deps)
    (varvals : data.varvals = dumpVarvals ignored inputs task) :
    data.basehashText = some inputs.hashed := by
  obtain ⟨value, values, _⟩ := inputs_spec known
  have rest : data.depsText (sortedNames inputs.deps) =
      some ((sortedNames inputs.deps).flatMap fun dep =>
        [dep, textOf (recipe.lookupcache dep)]).flatten := by
    apply depsText_eq
    intro name member
    rw [varvals]
    exact get?_dumpVarvals known (.inr (mem_sortedNames.mp member))
  rw [SigData.basehashText, same, deps, varvals,
    get?_dumpVarvals known (.inl rfl)]
  simp only [Option.bind_eq_bind, Option.bind_some, rest]
  rw [← flatten_pieces, TaskInputs.pieces, List.flatten_cons, value, values]
  rfl

end Base

/-- A name without its directories has no `./` in it. -/
theorem not_isInfix_basename (file : Text) :
    ¬ ['.', '/'] <:+: basename file := by
  intro inside
  have there : '/' ∈ basename file := inside.subset (by simp)
  rw [basename, List.mem_reverse] at there
  have different := List.mem_takeWhile_imp there
  simp at different

/-- `calc_taskhash` takes the files as `get_taskhash` did. -/
theorem filesText_dumpChecksums (checksums : List Checksum) :
    SigData.filesText (dumpChecksums checksums) =
      checksumsText (sortedChecksums checksums) := by
  rw [dumpChecksums]
  induction sortedChecksums checksums with
  | nil => rfl
  | cons checksum rest induction =>
      obtain ⟨file, value⟩ := checksum
      rw [List.map_cons, SigData.filesText, checksumsText, induction]
      by_cases marked : marker <:+: file
      · have relative : ['.', '/'] <:+: '.' :: '/' :: behindMarker file :=
          List.IsPrefix.isInfix ⟨behindMarker file, rfl⟩
        simp only [if_pos marked, if_pos relative]
      · simp only [if_neg marked, if_neg (not_isInfix_basename file)]

section Deps

variable {gen : Generator} {deps : List (Text × Tid)}

theorem get?_dumpHashes {hashes result : Dict Text Text}
    (distinct : (deps.map Prod.fst).Nodup)
    (dumped : gen.dumpHashes deps hashes = some result) :
    (∀ dep ∈ deps, result.get? dep.1 = gen.getUnihash dep.2) ∧
      ∀ pnid ∉ deps.map Prod.fst, result.get? pnid = hashes.get? pnid := by
  induction deps generalizing hashes with
  | nil =>
      cases dumped
      exact ⟨nofun, fun _ _ => rfl⟩
  | cons dep deps induction =>
      rw [List.map_cons, List.nodup_cons] at distinct
      obtain ⟨unihash, known, dumped⟩ := Option.bind_eq_some_iff.mp dumped
      obtain ⟨inside, outside⟩ := induction distinct.2 dumped
      constructor
      · intro other member
        rcases List.mem_cons.mp member with rfl | there
        · rw [outside _ distinct.1, Dict.get?_set, if_pos rfl, known]
        · exact inside other there
      · intro pnid missing
        rw [List.map_cons, List.mem_cons, not_or] at missing
        rw [outside _ missing.2, Dict.get?_set, if_neg missing.1]

/-- `calc_taskhash` takes the unihashes that are dumped. -/
theorem hashesText_eq {data : SigData}
    (known : ∀ dep ∈ deps, data.runtaskhashes.get? dep.1 =
      gen.getUnihash dep.2) :
    data.hashesText (deps.map Prod.fst) = gen.depsText deps := by
  induction deps with
  | nil => rfl
  | cons dep deps induction =>
      rw [List.forall_mem_cons] at known
      rw [List.map_cons, SigData.hashesText, Generator.depsText, known.1,
        induction known.2]

theorem mem_sortedDeps {dep : Text × Tid} :
    dep ∈ sortedDeps deps ↔ dep ∈ deps :=
  (List.mergeSort_perm _ _).mem_iff

end Deps

/-- A taint is one of a `nostamp` task when it has the mark in it. -/
def Marked (taint : Text) : Prop :=
  nostampMark <:+: taint → nostampMark <+: taint

/-- `if taint:`. -/
def nonempty (content : Option Text) : Option Text :=
  content.filter (· ≠ [])

theorem readTaint_eq (gen : Generator) (tid : Tid) :
    gen.readTaint tid = nonempty (gen.taintFile tid) := by
  rw [Generator.readTaint, nonempty]
  cases gen.taintFile tid with
  | none => rfl
  | some content =>
      by_cases empty : content = [] <;> simp [empty, Option.filter]

/-- The taint of a task, and what its file was, can be told from each other. -/
def TaintKept (taint content : Option Text) : Prop :=
  match nonempty content with
  | some text => taint = some text ∧ Marked text
  | none => ∀ text, taint = some text → nostampMark <+: text

variable {gen : Generator}

theorem dumpTaint_eq {tid : Tid}
    (kept : TaintKept (gen.taints tid) (gen.taintFile tid)) :
    gen.dumpTaint tid = gen.taints tid ∧
      ∀ taint, gen.taints tid = some taint → Marked taint := by
  rw [Generator.dumpTaint, readTaint_eq]
  rw [TaintKept] at kept
  cases content : nonempty (gen.taintFile tid) with
  | some text =>
      rw [content] at kept
      obtain ⟨same, marked⟩ := kept
      rw [same]
      refine ⟨ite_self _, fun taint equal => ?_⟩
      cases equal
      exact marked
  | none =>
      rw [content] at kept
      cases same : gen.taints tid with
      | none => exact ⟨rfl, nofun⟩
      | some text =>
          have first := kept text same
          refine ⟨if_pos first.isInfix, fun taint equal _ => ?_⟩
          cases equal
          exact first

/-- What `calc_taskhash` appends for a taint. -/
def dumpedTaintText : Option Text → Text
  | none => []
  | some taint =>
      if nostampMark <:+: taint then taint.drop nostampMark.length else taint

theorem dumpedTaintText_eq {taint : Option Text}
    (marked : ∀ text, taint = some text → Marked text) :
    dumpedTaintText taint = taintText taint := by
  cases taint with
  | none => rfl
  | some text =>
      have same : nostampMark <:+: text ↔ nostampMark <+: text :=
        ⟨marked text rfl, List.IsPrefix.isInfix⟩
      simp only [dumpedTaintText, taintText, same]

section Frame

variable {gen next : Generator} {tid : Tid}

theorem depsText_congr {deps : List (Text × Tid)}
    (same : ∀ dep ∈ deps, next.getUnihash dep.2 = gen.getUnihash dep.2) :
    next.depsText deps = gen.depsText deps := by
  induction deps with
  | nil => rfl
  | cons dep deps induction =>
      rw [List.forall_mem_cons] at same
      rw [Generator.depsText, Generator.depsText, same.1, induction same.2]

structure SameTask (gen next : Generator) (tid : Tid) : Prop where
  runtaskdeps : next.runtaskdeps tid = gen.runtaskdeps tid
  fileChecksumValues : next.fileChecksumValues tid = gen.fileChecksumValues tid
  taints : next.taints tid = gen.taints tid
  prepared : next.prepared tid = gen.prepared tid
  taskhash : next.taskhash tid = gen.taskhash tid
  hashed : next.hashed tid = gen.hashed tid

/-- What else goes into the hash of a task is the same. -/
structure Undisturbed (gen next : Generator) (tid : Tid) : Prop where
  basehash : next.basehash tid = gen.basehash tid
  unihashes : ∀ deps, gen.runtaskdeps tid = some deps →
    ∀ dep ∈ deps, next.getUnihash dep.2 = gen.getUnihash dep.2

theorem taskText_congr {checksums : Option (List Checksum)}
    (runtaskdeps : next.runtaskdeps tid = gen.runtaskdeps tid)
    (nextChecksums : next.fileChecksumValues tid = checksums)
    (genChecksums : gen.fileChecksumValues tid = checksums)
    (taints : next.taints tid = gen.taints tid)
    (undisturbed : Undisturbed gen next tid) :
    next.taskText tid = gen.taskText tid := by
  rw [Generator.taskText, Generator.taskText, undisturbed.basehash, runtaskdeps,
    nextChecksums, genChecksums, taints]
  cases known : gen.runtaskdeps tid with
  | none => rfl
  | some deps =>
      have same : next.depsText (sortedDeps deps) =
          gen.depsText (sortedDeps deps) :=
        depsText_congr fun dep member =>
          undisturbed.unihashes deps known dep (mem_sortedDeps.mp member)
      simp only [Option.bind_eq_bind, Option.bind_some, same]

end Frame

section Steps

variable {sha256 : Text → Text} {ignored : Finset Text}
variable {gen next : Generator} {tid : Tid}

/-- What `prep_taskhash` does when it comes to its end. -/
theorem prepTaskhash_cases {prep : Preparation}
    (done : gen.prepTaskhash sha256 ignored tid prep = some next) :
    ∃ recipe inputs deps, gen.recipes tid.mcfn = some recipe ∧
      recipe.inputs ignored tid.task = some inputs ∧
      gen.pnidDeps prep.deps = some deps ∧
      next = { gen with
        basehash := Function.update gen.basehash tid
          (some (sha256 inputs.hashed))
        runtaskdeps := Function.update gen.runtaskdeps tid (some deps)
        fileChecksumValues :=
          Function.update gen.fileChecksumValues tid (some prep.checksums)
        taints := Function.update gen.taints tid
          (gen.prepTaint tid recipe prep.uuid)
        tidtopn := Function.update gen.tidtopn tid (some recipe.pn)
        prepared := Function.update gen.prepared tid (gen.taintFile tid) } := by
  obtain ⟨recipe, parsed, done⟩ := Option.bind_eq_some_iff.mp done
  obtain ⟨inputs, known, done⟩ := Option.bind_eq_some_iff.mp done
  obtain ⟨deps, found, done⟩ := Option.bind_eq_some_iff.mp done
  exact ⟨recipe, inputs, deps, parsed, known, found,
    (Option.some.inj done).symm⟩

theorem getTaskhash_cases (done : gen.getTaskhash sha256 tid = some next) :
    ∃ text, gen.taskText tid = some text ∧
      next = { gen with
        taskhash := Function.update gen.taskhash tid (some (sha256 text))
        hashed := Function.update gen.hashed tid (some text) } := by
  obtain ⟨text, known, done⟩ := Option.bind_eq_some_iff.mp done
  exact ⟨text, known, (Option.some.inj done).symm⟩

def Action.hashedTask : Action → Option Tid
  | .prepare tid _ => some tid
  | .rehash tid => some tid
  | _ => none

variable {action : Action}

theorem sameTask_perform (other : action.hashedTask ≠ some tid)
    (done : gen.perform sha256 ignored action = some next) :
    SameTask gen next tid := by
  have hashing : ∀ (mid : Generator) (task : Tid), task ≠ tid →
      mid.getTaskhash sha256 task = some next → SameTask mid next tid := by
    intro mid task different done
    obtain ⟨text, -, rfl⟩ := getTaskhash_cases done
    constructor <;> simp [Function.update_of_ne different.symm]
  cases action with
  | parse mcfn recipe =>
      cases done
      constructor <;> rfl
  | prepare task prep =>
      have different : task ≠ tid := fun same => other (congrArg some same)
      obtain ⟨mid, prepared, done⟩ := Option.bind_eq_some_iff.mp done
      obtain ⟨recipe, inputs, deps, -, -, -, rfl⟩ := prepTaskhash_cases prepared
      obtain ⟨first, second, third, fourth, fifth, sixth⟩ :=
        hashing _ task different done
      constructor <;> simp_all [Function.update_of_ne different.symm]
  | rehash task =>
      exact hashing gen task (fun same => other (congrArg some same)) done
  | setUnihash task unihash =>
      obtain ⟨pn, -, done⟩ := Option.bind_eq_some_iff.mp done
      obtain ⟨taskhash, -, done⟩ := Option.bind_eq_some_iff.mp done
      cases done
      constructor <;> rfl
  | setSetsceneTasks tids =>
      cases done
      constructor <;> rfl
  | setTaintFile task content =>
      cases done
      constructor <;> rfl

theorem mem_of_pnidDeps {tids : List Tid} {deps : List (Text × Tid)}
    (found : gen.pnidDeps tids = some deps) {dep : Text × Tid}
    (member : dep ∈ deps) :
    dep.2 ∈ tids := by
  induction tids generalizing deps with
  | nil =>
      cases found
      cases member
  | cons head tids induction =>
      obtain ⟨recipe, -, found⟩ := Option.bind_eq_some_iff.mp found
      obtain ⟨taskhash, -, found⟩ := Option.bind_eq_some_iff.mp found
      obtain ⟨rest, later, same⟩ := Option.bind_eq_some_iff.mp found
      cases same
      rcases List.mem_cons.mp member with rfl | there
      · exact List.mem_cons_self
      · exact List.mem_cons_of_mem _ (induction later there)

/-- The base hash is the one of the recipe that was parsed last. -/
def Based (sha256 : Text → Text) (ignored : Finset Text) (gen : Generator) :
    Prop :=
  ∀ tid recipe inputs, gen.recipes tid.mcfn = some recipe →
    recipe.inputs ignored tid.task = some inputs →
    gen.basehash tid = some (sha256 inputs.hashed)

theorem based_perform (based : Based sha256 ignored gen)
    (done : gen.perform sha256 ignored action = some next) :
    Based sha256 ignored next := by
  cases action with
  | parse mcfn recipe =>
      cases done
      intro task other inputs parsed known
      by_cases same : task.mcfn = mcfn
      · obtain rfl : recipe = other := by
          simpa [Generator.parse, same] using parsed
        simp only [Generator.parse, if_pos same, known]
      · simp only [Generator.parse, Function.update_of_ne same] at parsed
        simpa only [Generator.parse, if_neg same] using based task other inputs
          parsed known
  | prepare tid prep =>
      obtain ⟨mid, prepared, done⟩ := Option.bind_eq_some_iff.mp done
      obtain ⟨recipe, inputs, deps, parsed, known, -, rfl⟩ :=
        prepTaskhash_cases prepared
      obtain ⟨text, -, rfl⟩ := getTaskhash_cases done
      intro task other values there found
      by_cases same : task = tid
      · subst same
        obtain rfl : recipe = other := Option.some.inj (parsed.symm.trans there)
        obtain rfl : inputs = values := Option.some.inj (known.symm.trans found)
        exact Function.update_self ..
      · exact (Function.update_of_ne same ..).trans
          (based task other values there found)
  | rehash tid =>
      obtain ⟨text, -, rfl⟩ := getTaskhash_cases done
      exact based
  | setUnihash tid unihash =>
      obtain ⟨pn, -, done⟩ := Option.bind_eq_some_iff.mp done
      obtain ⟨taskhash, -, done⟩ := Option.bind_eq_some_iff.mp done
      cases done
      exact based
  | setSetsceneTasks tids =>
      cases done
      exact based
  | setTaintFile tid content =>
      cases done
      exact based

/-- What a prepared task keeps: it does not depend on itself, and its taint and
its file were the same. -/
structure Prepared (gen : Generator) (tid : Tid) : Prop where
  irreflexive : ∀ deps, gen.runtaskdeps tid = some deps → ∀ dep ∈ deps,
    dep.2 ≠ tid
  kept : gen.runtaskdeps tid ≠ none →
    TaintKept (gen.taints tid) (gen.prepared tid)

/-- The taint that `prep_taskhash` leaves is the one in the file, or is marked.
-/
def TaintFits (gen : Generator) (tid : Tid) (recipe : Recipe) : Prop :=
  match gen.readTaint tid with
  | some taint => Marked taint
  | none => tid.task ∈ recipe.nostamp ∨
      ∀ taint, gen.taints tid = some taint → nostampMark <+: taint

theorem taintKept_prepTaint {recipe : Recipe} (fits : TaintFits gen tid recipe)
    (uuid : Text) : TaintKept (gen.prepTaint tid recipe uuid)
    (gen.taintFile tid) := by
  rw [TaintFits] at fits
  rw [Generator.prepTaint, TaintKept, ← readTaint_eq]
  cases file : gen.readTaint tid with
  | some taint =>
      rw [file] at fits
      exact ⟨rfl, fits⟩
  | none =>
      rw [file] at fits
      intro text same
      by_cases always : tid.task ∈ recipe.nostamp
      · simp only [if_pos always] at same
        split at same
        · split_ifs at same with first
          · cases same
            exact first
          · cases same
            exact List.prefix_append _ _
        · cases same
          exact List.prefix_append _ _
      · simp only [if_neg always] at same
        exact fits.resolve_left always text same

/-- The condition on a task that is prepared. -/
def Fits (gen : Generator) : Action → Prop
  | .prepare tid prep => tid ∉ prep.deps ∧
      ∀ recipe, gen.recipes tid.mcfn = some recipe → TaintFits gen tid recipe
  | _ => True

theorem SameTask.prepared_iff (same : SameTask gen next tid)
    (prepared : Prepared gen tid) : Prepared next tid := by
  constructor
  · rw [same.runtaskdeps]
    exact prepared.irreflexive
  · rw [same.runtaskdeps, same.taints, same.prepared]
    exact prepared.kept

theorem prepared_perform (fits : Fits gen action) (prepared : Prepared gen tid)
    (done : gen.perform sha256 ignored action = some next) :
    Prepared next tid := by
  by_cases other : action.hashedTask ≠ some tid
  · exact (sameTask_perform other done).prepared_iff prepared
  · rw [not_not] at other
    cases action with
    | parse mcfn recipe => cases other
    | prepare task prep =>
        cases other
        obtain ⟨mid, first, done⟩ := Option.bind_eq_some_iff.mp done
        obtain ⟨recipe, inputs, deps, parsed, -, found, rfl⟩ :=
          prepTaskhash_cases first
        obtain ⟨text, -, rfl⟩ := getTaskhash_cases done
        constructor
        · intro others known dep member same
          obtain rfl : deps = others := by simpa using known
          exact fits.1 (same ▸ mem_of_pnidDeps found member)
        · intro _
          simpa using taintKept_prepTaint (fits.2 recipe parsed) prep.uuid
    | rehash task =>
        obtain ⟨text, -, rfl⟩ := getTaskhash_cases done
        exact ⟨prepared.irreflexive, prepared.kept⟩
    | setUnihash task unihash => cases other
    | setSetsceneTasks tids => cases other
    | setTaintFile task content => cases other

structure HashedNow (sha256 : Text → Text) (gen : Generator) (tid : Tid) :
    Prop where
  taskhash : gen.taskhash tid = (gen.hashed tid).map sha256
  text : ∀ text, gen.hashed tid = some text → gen.taskText tid = some text

theorem hashedNow_getTaskhash
    (irreflexive : ∀ deps, gen.runtaskdeps tid = some deps → ∀ dep ∈ deps,
      dep.2 ≠ tid)
    (done : gen.getTaskhash sha256 tid = some next) :
    HashedNow sha256 next tid := by
  obtain ⟨text, known, rfl⟩ := getTaskhash_cases done
  constructor
  · simp
  · intro other same
    obtain rfl : text = other := by simpa using same
    rw [← known]
    refine taskText_congr rfl rfl rfl rfl ⟨rfl, fun deps found dep member => ?_⟩
    have different := irreflexive deps found dep member
    simp [Generator.getUnihash, Function.update_of_ne different]

/-- Steps do not change what a hashed task was hashed from. -/
structure Allowed (sha256 : Text → Text) (ignored : Finset Text)
    (gen : Generator) (action : Action) : Prop where
  fits : Fits gen action
  undisturbed : ∀ next, gen.perform sha256 ignored action = some next →
    ∀ tid, gen.hashed tid ≠ none → action.hashedTask ≠ some tid →
      Undisturbed gen next tid

theorem hashedNow_perform (allowed : Allowed sha256 ignored gen action)
    (prepared : Prepared gen tid) (held : HashedNow sha256 gen tid)
    (done : gen.perform sha256 ignored action = some next) :
    HashedNow sha256 next tid := by
  by_cases other : action.hashedTask ≠ some tid
  · have same := sameTask_perform other done
    constructor
    · rw [same.taskhash, same.hashed, held.taskhash]
    · intro text known
      rw [same.hashed] at known
      rw [← held.text text known]
      have undisturbed := allowed.undisturbed next done tid
        (Option.ne_none_iff_exists'.mpr ⟨text, known⟩) other
      exact taskText_congr same.runtaskdeps same.fileChecksumValues rfl
        same.taints undisturbed
  · rw [not_not] at other
    cases action with
    | parse mcfn recipe => cases other
    | prepare task prep =>
        cases other
        have still := (prepared_perform allowed.fits prepared done).irreflexive
        obtain ⟨mid, first, done⟩ := Option.bind_eq_some_iff.mp done
        apply hashedNow_getTaskhash _ done
        obtain ⟨text, -, rfl⟩ := getTaskhash_cases done
        exact still
    | rehash task =>
        cases other
        exact hashedNow_getTaskhash prepared.irreflexive done
    | setUnihash task unihash => cases other
    | setSetsceneTasks tids => cases other
    | setTaintFile task content => cases other

end Steps

section Dumps

variable {sha256 : Text → Text} {ignored : Finset Text}
variable {gen : Generator} {tid : Tid}

/-- What holds after steps that are allowed. -/
structure Sound (sha256 : Text → Text) (ignored : Finset Text)
    (gen : Generator) : Prop where
  based : Based sha256 ignored gen
  prepared : ∀ tid, Prepared gen tid
  hashed : ∀ tid, HashedNow sha256 gen tid

theorem sound_new (taintFile : Tid → Option Text) :
    Sound sha256 ignored (.new taintFile) :=
  ⟨nofun, fun _ => ⟨nofun, fun known => absurd rfl known⟩, fun _ =>
    ⟨rfl, nofun⟩⟩

def Steps (sha256 : Text → Text) (ignored : Finset Text) (gen : Generator)
    (action : Action) (next : Generator) : Prop :=
  gen.perform sha256 ignored action = some next

/-- The generators before anything is parsed. -/
def Fresh (gen : Generator) : Prop :=
  ∃ taintFile, gen = .new taintFile

theorem sound_of_reachable
    (reached : Reachable Fresh (Steps sha256 ignored) (Allowed sha256 ignored)
      gen) :
    Sound sha256 ignored gen := by
  apply reached.invariant
  · rintro _ ⟨taintFile, rfl⟩
    exact sound_new taintFile
  · intro gen action next sound allowed done
    constructor
    · exact based_perform sound.based done
    · exact fun tid => prepared_perform allowed.fits (sound.prepared tid) done
    · exact fun tid => hashedNow_perform allowed (sound.prepared tid)
        (sound.hashed tid) done

/-- The texts that are hashed from a dump. -/
structure Recomputes (sha256 : Text → Text) (ignored : Finset Text)
    (gen : Generator) (tid : Tid) (data : SigData) : Prop where
  basehash : ∃ recipe inputs, gen.recipes tid.mcfn = some recipe ∧
    recipe.inputs ignored tid.task = some inputs ∧
    data.basehashText = some inputs.hashed ∧
    gen.basehash tid = some (sha256 inputs.hashed)
  taskhash : (∀ deps, gen.runtaskdeps tid = some deps →
    (deps.map Prod.fst).Nodup) → gen.taintFile tid = gen.prepared tid →
    ∃ text, gen.hashed tid = some text ∧ data.taskhashText = some text ∧
      gen.taskhash tid = some (sha256 text)

/-- What `dump_sigtask` writes. -/
theorem dumpSigtask_cases {data : SigData}
    (dumped : gen.dumpSigtask ignored tid = some data) :
    ∃ recipe inputs basehash taskhash deps checksums hashes,
      gen.recipes tid.mcfn = some recipe ∧
      recipe.inputs ignored tid.task = some inputs ∧
      gen.basehash tid = some basehash ∧ gen.taskhash tid = some taskhash ∧
      gen.runtaskdeps tid = some deps ∧
      gen.fileChecksumValues tid = some checksums ∧
      gen.dumpHashes deps [] = some hashes ∧
      data =
        { task := tid.task
          taskdeps := inputs.deps
          basehash := basehash
          varvals := dumpVarvals ignored inputs tid.task
          runtaskdeps := (sortedDeps deps).map Prod.fst
          fileChecksumValues := dumpChecksums checksums
          runtaskhashes := hashes
          taint := gen.dumpTaint tid } := by
  obtain ⟨recipe, parsed, dumped⟩ := Option.bind_eq_some_iff.mp dumped
  obtain ⟨inputs, known, dumped⟩ := Option.bind_eq_some_iff.mp dumped
  obtain ⟨basehash, based, dumped⟩ := Option.bind_eq_some_iff.mp dumped
  obtain ⟨taskhash, hashed, dumped⟩ := Option.bind_eq_some_iff.mp dumped
  obtain ⟨deps, prepared, dumped⟩ := Option.bind_eq_some_iff.mp dumped
  obtain ⟨checksums, summed, dumped⟩ := Option.bind_eq_some_iff.mp dumped
  obtain ⟨hashes, found, dumped⟩ := Option.bind_eq_some_iff.mp dumped
  exact ⟨recipe, inputs, basehash, taskhash, deps, checksums, hashes, parsed,
    known,
    based, hashed, prepared, summed, found, (Option.some.inj dumped).symm⟩

/-- `calc_taskhash` builds the text that would be hashed now. -/
theorem taskhashText_eq {data : SigData}
    (dumped : gen.dumpSigtask ignored tid = some data)
    (distinct : ∀ deps, gen.runtaskdeps tid = some deps →
      (deps.map Prod.fst).Nodup)
    (kept : TaintKept (gen.taints tid) (gen.taintFile tid)) :
    data.taskhashText = gen.taskText tid := by
  obtain ⟨recipe, inputs, basehash, taskhash, deps, checksums, hashes, -, -,
    based, -, prepared, summed, found, rfl⟩ := dumpSigtask_cases dumped
  obtain ⟨taint, marked⟩ := dumpTaint_eq kept
  have unihashes : ∀ dep ∈ sortedDeps deps, hashes.get? dep.1 =
      gen.getUnihash dep.2 :=
    fun dep member => (get?_dumpHashes (distinct deps prepared) found).1 dep
      (mem_sortedDeps.mp member)
  have tail : dumpedTaintText (gen.dumpTaint tid) =
      taintText (gen.taints tid) := by
    rw [taint]
    exact dumpedTaintText_eq marked
  rw [SigData.taskhashText, hashesText_eq unihashes, Generator.taskText, based,
    prepared, summed]
  simp only [Option.bind_eq_bind, Option.bind_some,
    filesText_dumpChecksums, ← tail]
  rfl

/-- In every run whose steps leave what a hashed task was hashed from, the dump
of a task makes the texts that were hashed. -/
theorem recomputes_of_reachable {data : SigData}
    (reached : Reachable Fresh (Steps sha256 ignored) (Allowed sha256 ignored)
      gen)
    (dumped : gen.dumpSigtask ignored tid = some data) :
    Recomputes sha256 ignored gen tid data := by
  have sound := sound_of_reachable reached
  obtain ⟨recipe, inputs, basehash, taskhash, deps, checksums, hashes, parsed,
    known, -, hashed, prepared, -, -, same⟩ := dumpSigtask_cases dumped
  constructor
  · refine ⟨recipe, inputs, parsed, known, ?_,
      sound.based tid recipe inputs parsed known⟩
    subst same
    exact basehashText_eq known rfl rfl rfl
  · intro distinct unchanged
    obtain ⟨text, there, digest⟩ : ∃ text, gen.hashed tid = some text ∧
        sha256 text = taskhash := by
      rw [(sound.hashed tid).taskhash] at hashed
      exact Option.map_eq_some_iff.mp hashed
    refine ⟨text, there, ?_, digest ▸ hashed⟩
    have kept := (sound.prepared tid).kept (prepared ▸ Option.some_ne_none deps)
    rw [← (sound.hashed tid).text text there]
    exact taskhashText_eq dumped distinct (unchanged ▸ kept)

end Dumps

/-- A task, and one that it depends on. -/
def forcedTid : Tid :=
  ⟨[], ['r'], ['t']⟩

def neededTid : Tid :=
  ⟨[], ['r'], ['n']⟩

def forcedRecipe : Recipe :=
  { pn := ['p']
    tasks := {['t'], ['n']}
    references := fun _ => ∅
    lookupcache := fun _ => some ['v']
    names := ∅
    nostamp := ∅
    references_subset := fun _ => Finset.Subset.refl _ }

/-- Each of the tasks is hashed from its value. -/
def forcedInputs : TaskInputs :=
  ⟨some ['v'], ∅, fun _ => some ['v']⟩

theorem inputs_forcedRecipe {task : Text} (member : task ∈ forcedRecipe.tasks) :
    forcedRecipe.inputs ∅ task = some forcedInputs := by
  rw [Recipe.inputs, if_pos member]
  rfl

theorem hashed_forcedInputs : forcedInputs.hashed = ['v'] := by
  simp [forcedInputs, TaskInputs.hashed, TaskInputs.data]

def Generator.hashForced (gen : Generator) (tid : Tid)
    (deps : List (Text × Tid))
    (checksums : List Checksum) (unihashes : Text) : Generator :=
  let taint := gen.prepTaint tid forcedRecipe []
  let text := ['v'] ++ unihashes ++ checksumsText (sortedChecksums checksums) ++
    taintText taint
  { gen with
    basehash := Function.update gen.basehash tid (some ['v'])
    taskhash := Function.update gen.taskhash tid (some text)
    runtaskdeps := Function.update gen.runtaskdeps tid (some deps)
    fileChecksumValues :=
      Function.update gen.fileChecksumValues tid (some checksums)
    taints := Function.update gen.taints tid taint
    tidtopn := Function.update gen.tidtopn tid (some forcedRecipe.pn)
    hashed := Function.update gen.hashed tid (some text)
    prepared := Function.update gen.prepared tid (gen.taintFile tid) }

theorem perform_prepareForced {tid : Tid} {tids : List Tid}
    {deps : List (Text × Tid)} {unihashes : Text} (checksums : List Checksum)
    (parsed : gen.recipes tid.mcfn = some forcedRecipe)
    (member : tid.task ∈ forcedRecipe.tasks)
    (found : gen.pnidDeps tids = some deps) (other : ∀ dep ∈ deps, dep.2 ≠ tid)
    (known : gen.depsText (sortedDeps deps) = some unihashes) :
    gen.perform id ∅ (.prepare tid ⟨tids, checksums, []⟩) =
      some (gen.hashForced tid deps checksums unihashes) := by
  have same : ∀ next : Generator, next.taskhash = gen.taskhash →
      next.setscenetasks = gen.setscenetasks →
        next.unitaskhashes = gen.unitaskhashes →
      next.tidtopn = Function.update gen.tidtopn tid (some forcedRecipe.pn) →
      next.depsText (sortedDeps deps) = some unihashes := by
    intro next hashes setscene equivalent names
    rw [← known]
    apply depsText_congr
    intro dep member
    rw [Generator.getUnihash, hashes, setscene, equivalent, names,
      Function.update_of_ne (other dep (mem_sortedDeps.mp member))]
    rfl
  simp [Generator.perform, Generator.prepTaskhash, Generator.getTaskhash,
    Generator.taskText, Generator.hashForced, inputs_forcedRecipe member,
    hashed_forcedInputs, parsed, found, same]

def parsedForced : Generator :=
  (Generator.new (Function.update (fun _ => none) forcedTid (some ['x']))).parse
    id ∅ ['r'] forcedRecipe

theorem reachable_parsedForced {allowed : Generator → Action → Prop}
    (meets : ∀ gen, Fresh gen → allowed gen (.parse ['r'] forcedRecipe)) :
    Reachable Fresh (Steps id ∅) allowed parsedForced :=
  .step (.start ⟨_, rfl⟩) (meets _ ⟨_, rfl⟩) rfl

/-- What is dumped about the task. -/
def forcedData (deps : List (Text × Tid)) (checksums : List Checksum)
    (hashes : Dict Text Text) (taint : Option Text) : SigData :=
  { task := ['t']
    taskdeps := ∅
    basehash := ['v']
    varvals := dumpVarvals ∅ forcedInputs ['t']
    runtaskdeps := (sortedDeps deps).map Prod.fst
    fileChecksumValues := dumpChecksums checksums
    runtaskhashes := hashes
    taint := taint }

theorem dumpSigtask_forced {deps : List (Text × Tid)}
    {checksums : List Checksum} {hashes : Dict Text Text} {text : Text}
    (parsed : gen.recipes ['r'] = some forcedRecipe)
    (based : gen.basehash forcedTid = some ['v'])
    (hashed : gen.taskhash forcedTid = some text)
    (prepared : gen.runtaskdeps forcedTid = some deps)
    (summed : gen.fileChecksumValues forcedTid = some checksums)
    (found : gen.dumpHashes deps [] = some hashes) :
    gen.dumpSigtask ∅ forcedTid =
      some (forcedData deps checksums hashes (gen.dumpTaint forcedTid)) := by
  have known : forcedRecipe.inputs ∅ ['t'] = some forcedInputs :=
    inputs_forcedRecipe (by decide)
  rw [Generator.dumpSigtask, based, hashed, prepared, summed]
  simp [forcedTid, parsed, known, found, forcedData, forcedInputs]

/-- Both tasks have a file, and one depends on the other. -/
def neededDep : Text × Tid :=
  (['p', ':', 'n'], neededTid)

def neededFile : Checksum :=
  (['/', 'd', '/', '.', '/', 'a'], some ['1'])

def forcedFile : Checksum :=
  (['/', 'b'], some ['2'])

def hashedNeeded : Generator :=
  parsedForced.hashForced neededTid [] [neededFile] []

def neededHash : Text :=
  ['v', '.', '/', 'a', '1']

def hashedForced : Generator :=
  hashedNeeded.hashForced forcedTid [neededDep] [forcedFile] neededHash

theorem perform_prepareNeeded :
    parsedForced.perform id ∅ (.prepare neededTid ⟨[], [neededFile], []⟩) =
      some hashedNeeded :=
  perform_prepareForced _ rfl (by decide) rfl nofun
    (by simp [sortedDeps, Generator.depsText])

theorem getUnihash_hashedNeeded : hashedNeeded.getUnihash neededTid =
    some neededHash := by
  have hashed : hashedNeeded.taskhash neededTid = some neededHash := by
    simp [hashedNeeded, Generator.hashForced, sortedChecksums]
    decide
  rw [Generator.getUnihash, hashed]
  rfl

theorem perform_prepareForcedNeeding :
    hashedNeeded.perform id ∅
      (.prepare forcedTid ⟨[neededTid], [forcedFile], []⟩) =
      some hashedForced := by
  have unihash : hashedNeeded.getUnihash neededDep.2 = some neededHash :=
    getUnihash_hashedNeeded
  apply perform_prepareForced _ rfl (by decide) rfl
  · simp [neededDep, neededTid, forcedTid]
  · simp [sortedDeps, Generator.depsText, unihash]

/-- A forced task is dumped with its taint, its file and the hash of what it
needs. -/
theorem recomputes_forced :
    Recomputes id ∅ hashedForced forcedTid (forcedData [neededDep] [forcedFile]
      [(['p', ':', 'n'], neededHash)] (some ['x'])) := by
  have parsed : Reachable Fresh (Steps id ∅) (Allowed id ∅) parsedForced := by
    apply reachable_parsedForced
    rintro _ ⟨taintFile, rfl⟩
    exact ⟨trivial, fun _ _ _ hashed => absurd rfl hashed⟩
  have first : Allowed id ∅ parsedForced
      (.prepare neededTid ⟨[], [neededFile], []⟩) :=
    ⟨⟨List.not_mem_nil, fun _ _ => .inr nofun⟩, fun _ _ _ hashed =>
      absurd rfl hashed⟩
  have second : Allowed id ∅ hashedNeeded
      (.prepare forcedTid ⟨[neededTid], [forcedFile], []⟩) := by
    refine ⟨⟨by decide, fun recipe _ inside => ?_⟩, ?_⟩
    · exact absurd inside.length_le (by decide)
    · rintro _ done tid hashed -
      obtain rfl :=
        Option.some.inj (perform_prepareForcedNeeding.symm.trans done)
      obtain rfl : tid = neededTid := by
        by_contra other
        exact hashed (Function.update_of_ne other ..)
      refine ⟨rfl, fun deps known dep member => ?_⟩
      cases known
      cases member
  have unihash : hashedForced.getUnihash neededTid = some neededHash :=
    getUnihash_hashedNeeded
  have found : hashedForced.dumpHashes [neededDep] [] =
      some [(['p', ':', 'n'], neededHash)] := by
    rw [Generator.dumpHashes, show neededDep.2 = neededTid from rfl, unihash]
    rfl
  exact recomputes_of_reachable
    (.step (.step parsed first perform_prepareNeeded) second
      perform_prepareForcedNeeding)
    (dumpSigtask_forced rfl rfl rfl rfl rfl found)

/-- The generator when the task is hashed again without its taint file. -/
def hashedOnce : Generator :=
  parsedForced.hashForced forcedTid [] [] []

def staleForced : Generator :=
  Generator.hashForced { hashedOnce with
    taintFile := Function.update hashedOnce.taintFile forcedTid none } forcedTid
      [] [] []

/-- A taint whose file is gone is still hashed, and it is not dumped. -/
theorem not_recomputes_stale :
    ¬ ∀ (sha256 : Text → Text) (ignored : Finset Text) (gen : Generator)
      (tid : Tid) (data : SigData),
      Reachable Fresh (Steps sha256 ignored) (fun _ _ => True) gen →
      gen.dumpSigtask ignored tid = some data →
      Recomputes sha256 ignored gen tid data := by
  intro recomputes
  have hashing : ∀ gen : Generator, gen.recipes ['r'] = some forcedRecipe →
      gen.perform id ∅ (.prepare forcedTid ⟨[], [], []⟩) =
        some (gen.hashForced forcedTid [] [] []) := fun gen parsed =>
    perform_prepareForced _ parsed (by decide) rfl nofun
      (by simp [sortedDeps, Generator.depsText])
  have forced : Reachable Fresh (Steps id ∅) (fun _ _ => True) hashedOnce :=
    .step (reachable_parsedForced fun _ _ => trivial) trivial (hashing _ rfl)
  have removed := Reachable.step forced trivial
    (show Steps _ _ _ (.setTaintFile forcedTid none) _ from rfl)
  have stale := Reachable.step removed trivial (hashing _ rfl)
  have dumped : staleForced.dumpSigtask ∅ forcedTid =
      some (forcedData [] [] [] (staleForced.dumpTaint forcedTid)) :=
    dumpSigtask_forced rfl rfl rfl rfl rfl rfl
  have distinct : ∀ deps, staleForced.runtaskdeps forcedTid = some deps →
      (deps.map Prod.fst).Nodup := by
    intro deps known
    cases known
    exact List.nodup_nil
  obtain ⟨text, hashed, again, -⟩ :=
    (recomputes _ _ _ _ _ stale dumped).taskhash distinct rfl
  have tainted : some ['v', 'x'] = some text := by
    rw [← hashed]
    simp [Generator.hashForced, sortedChecksums]
    decide
  have plain : some ['v'] = some text := by
    rw [← again]
    simp [SigData.taskhashText, forcedData, sortedDeps, dumpChecksums,
      sortedChecksums]
    decide
  cases tainted.trans plain.symm

end Nvbmc.SigGen
