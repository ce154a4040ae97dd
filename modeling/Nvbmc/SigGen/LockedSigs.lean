import Nvbmc.SigGen.TaskHash

/-!
# Locked signatures

`get_taskhash` of the generator with locked signatures.  A recipe that depends
on an unlocked one is unlocked when one of its tasks is hashed, and the hash of
a task stays what it was when it was hashed first.
-/

namespace Nvbmc.SigGen

open Library

/-- What is known before the tasks are hashed. -/
structure Build where
  /-- `dataCaches[mc].pkg_fn`. -/
  pkgFn : Text → Text → Text
  deps : Tid → List Tid
  /-- The dependencies in `runtaskdeps`, sorted. -/
  runtaskdeps : Tid → List Tid
  basehash : Tid → Text
  behind : Tid → Text
  lockedsigs : Text → Text → Option (Text × Text)
  unihashmap : Text → Text → Option (Text × Text)
  /-- `get_cached_unihash` of the classes behind the mixin, for a task hash. -/
  cached : Tid → Text → Option Text
  runtaskdeps_subset : ∀ tid, runtaskdeps tid ⊆ deps tid

/-- The generator; `False` in `lockedhashes` is an empty text. -/
structure LockedSiggen where
  taskhash : Tid → Option Text
  lockedhashes : Tid → Option Text
  unlockedrecipes : List Text
  mismatchMsgs : List Text

namespace Build

variable (build : Build) (sha256 : Text → Text) (siggen : LockedSiggen)
  (tid : Tid)

def recipename : Text :=
  build.pkgFn tid.mc tid.mcfn

/-- `get_cached_unihash`, with `_internal`. -/
def getCachedUnihash (internal : Bool) : Option Text :=
  let lockedhash := (siggen.lockedhashes tid).getD []
  if lockedhash ≠ [] ∧ internal = false then some lockedhash
  else
    let rest := (siggen.taskhash tid).bind (build.cached tid)
    match build.unihashmap (build.recipename tid) tid.task with
    | none => rest
    | some (taskhash, unihash) =>
        if some taskhash = siggen.taskhash tid then some unihash else rest

/-- `get_unihash`. -/
def getUnihash (internal : Bool) : Option Text :=
  match build.getCachedUnihash siggen tid internal with
  | none => siggen.taskhash tid
  | some unihash => if unihash = [] then siggen.taskhash tid else some unihash

/-- The unihashes of the dependencies, one behind the other. -/
def unihashesText : List Tid → Option Text
  | [] => some []
  | dep :: deps => do
      let unihash ← build.getUnihash siggen dep false
      let rest ← unihashesText deps
      some (unihash ++ rest)

/-- `data` in `get_taskhash` of `SignatureGeneratorBasic`. -/
def taskText : Option Text := do
  let unihashes ← build.unihashesText siggen (build.runtaskdeps tid)
  some (build.basehash tid ++ unihashes ++ build.behind tid)

/-- `get_taskhash` of `SignatureGeneratorBasic`. -/
def superTaskhash : Option (Text × LockedSiggen) := do
  let text ← build.taskText siggen tid
  some (sha256 text, { siggen with
    taskhash := Function.update siggen.taskhash tid (some (sha256 text)) })

/-- `any(x in y for y in depnames for x in self.unlockedrecipes)`. -/
def dependsOnUnlocked : Bool :=
  (build.deps tid).any fun dep => tid.mc = dep.mc &&
    siggen.unlockedrecipes.any fun name => name <:+: build.recipename dep

/-- `unlocked`. -/
def unlocked : Bool :=
  build.recipename tid ∈ siggen.unlockedrecipes || build.dependsOnUnlocked
    siggen tid

/-- `self.unlockedrecipes[recipename] = ''`. -/
def unlock : LockedSiggen :=
  if build.recipename tid ∉ siggen.unlockedrecipes ∧
      build.dependsOnUnlocked siggen tid = true then
    { siggen with
      unlockedrecipes := siggen.unlockedrecipes ++ [build.recipename tid] }
  else siggen

/-- A signature that is locked and computed to be another one. -/
def mismatch (h hLocked var : Text) : Text :=
  "The ".toList ++ build.recipename tid ++ ':' :: tid.task ++
    " sig is computed to be ".toList ++ h ++
      ", but the sig is locked to ".toList ++
    hLocked ++ " in ".toList ++ var

/-- `get_taskhash` for a task that was not hashed before. -/
def firstTaskhash : Option (Text × LockedSiggen) := do
  let (h, hashed) ← build.superTaskhash sha256 siggen tid
  let siggen := build.unlock hashed tid
  match if build.unlocked hashed tid then none
      else build.lockedsigs (build.recipename tid) tid.task with
  | some (hLocked, var) => do
      let siggen := { siggen with
        lockedhashes := Function.update siggen.lockedhashes tid (some hLocked) }
      let unihash ← build.getUnihash siggen tid true
      some (hLocked, { siggen with
        mismatchMsgs := siggen.mismatchMsgs ++
          if h ≠ hLocked ∧ hLocked ≠ unihash then
            [build.mismatch tid h hLocked var]
          else [] })
  | none => some (h, { siggen with
      lockedhashes := Function.update siggen.lockedhashes tid (some []) })

/-- `get_taskhash`. -/
def getTaskhash : Option (Text × LockedSiggen) :=
  match siggen.lockedhashes tid with
  | none => build.firstTaskhash sha256 siggen tid
  | some lockedhash =>
      if lockedhash ≠ [] then some (lockedhash, siggen)
      else build.superTaskhash sha256 siggen tid

end Build

/-- The generator with what its calls have returned. -/
structure LockedRun where
  siggen : LockedSiggen
  returned : Tid → Option Text
  /-- Whether a task was treated as unlocked. -/
  unlocked : Tid → Option Bool

/-- A generator before a task is hashed. -/
def LockedRun.new (unlockedrecipes : List Text) : LockedRun :=
  { siggen := ⟨fun _ => none, fun _ => none, unlockedrecipes, []⟩
    returned := fun _ => none
    unlocked := fun _ => none }

section Calls

variable (build : Build) (sha256 : Text → Text)

/-- A task is hashed when its dependencies are, and may be hashed again. -/
def LockedRun.call (run : LockedRun) (tid : Tid) : Option LockedRun :=
  if ∀ dep ∈ build.deps tid, run.returned dep ≠ none then
    (build.getTaskhash sha256 run.siggen tid).map fun (hash, siggen) =>
      { siggen := siggen
        returned := Function.update run.returned tid (some hash)
        unlocked :=
          if run.siggen.lockedhashes tid = none then
            Function.update run.unlocked tid
              (some (build.unlocked run.siggen tid))
          else run.unlocked }
  else none

def Calls (run : LockedRun) (tid : Tid) (next : LockedRun) : Prop :=
  run.call build sha256 tid = some next

/-- The recipes that are unlocked: those in the list, and those with a task that
depends on one that is, in the same multiconfig. -/
inductive Unlocked (unlockedrecipes : List Text) : Text → Prop where
  | listed {name : Text} : name ∈ unlockedrecipes →
      Unlocked unlockedrecipes name
  | depends {tid dep : Tid} : dep ∈ build.deps tid → tid.mc = dep.mc →
      Unlocked unlockedrecipes (build.recipename dep) →
      Unlocked unlockedrecipes (build.recipename tid)

/-- The condition on a call. -/
structure InTime (unlockedrecipes : List Text) (run : LockedRun) (tid : Tid) :
    Prop where
  /-- A name that is part of another one unlocks no other recipe. -/
  names : run.siggen.lockedhashes tid = none →
    build.recipename tid ∉ run.siggen.unlockedrecipes →
    ∀ name ∈ run.siggen.unlockedrecipes, ∀ dep ∈ build.deps tid, tid.mc =
      dep.mc → name <:+: build.recipename dep →
      Unlocked build unlockedrecipes (build.recipename dep)
  locked : build.lockedsigs (build.recipename tid) tid.task ≠ none →
    Unlocked build unlockedrecipes (build.recipename tid) →
    build.unlocked run.siggen tid = true
  /-- No locked hash that is looked up is empty. -/
  again : run.siggen.lockedhashes tid ≠ none →
    ∀ var, build.lockedsigs (build.recipename tid) tid.task ≠ some ([], var)

end Calls

section Call

variable {build : Build} {sha256 : Text → Text} {siggen next : LockedSiggen}
  {tid : Tid}

theorem getUnihash_congr (taskhash : next.taskhash tid = siggen.taskhash tid)
    (lockedhashes : next.lockedhashes tid = siggen.lockedhashes tid)
    (internal : Bool) :
    build.getUnihash next tid internal =
      build.getUnihash siggen tid internal := by
  simp only [Build.getUnihash, Build.getCachedUnihash, taskhash, lockedhashes]

theorem unihashesText_congr {deps : List Tid}
    (same : ∀ dep ∈ deps, next.taskhash dep = siggen.taskhash dep ∧
      next.lockedhashes dep = siggen.lockedhashes dep) :
    build.unihashesText next deps = build.unihashesText siggen deps := by
  induction deps with
  | nil => rfl
  | cons dep deps induction =>
      rw [List.forall_mem_cons] at same
      rw [Build.unihashesText, Build.unihashesText,
        getUnihash_congr same.1.1 same.1.2, induction same.2]

theorem taskText_congr_deps
    (same : ∀ dep ∈ build.deps tid, next.taskhash dep = siggen.taskhash dep ∧
      next.lockedhashes dep = siggen.lockedhashes dep) :
    build.taskText next tid = build.taskText siggen tid := by
  rw [Build.taskText, Build.taskText, unihashesText_congr fun dep member =>
    same dep (build.runtaskdeps_subset tid member)]

def Build.lockedFor (build : Build) (unlocked : Bool) (tid : Tid) :
    Option Text :=
  (if unlocked then none
    else build.lockedsigs (build.recipename tid) tid.task).map Prod.fst

/-- A call for a task that was not hashed before. -/
structure FirstCall (build : Build) (sha256 : Text → Text) (run : LockedRun)
    (tid : Tid) (next : LockedRun) (text : Text) : Prop where
  made : build.taskText run.siggen tid = some text
  taskhash : next.siggen.taskhash =
    Function.update run.siggen.taskhash tid (some (sha256 text))
  lockedhashes : next.siggen.lockedhashes =
    Function.update run.siggen.lockedhashes tid
    (some ((build.lockedFor (build.unlocked run.siggen tid) tid).getD []))
  unlockedrecipes : next.siggen.unlockedrecipes =
    (build.unlock run.siggen tid).unlockedrecipes
  returned : next.returned = Function.update run.returned tid
    (some ((build.lockedFor (build.unlocked run.siggen tid) tid).getD
      (sha256 text)))
  unlocked : next.unlocked = Function.update run.unlocked tid
    (some (build.unlocked run.siggen tid))

@[simp] theorem unlock_taskhash : (build.unlock siggen tid).taskhash =
    siggen.taskhash := by
  rw [Build.unlock]
  split_ifs
  · rfl
  · rfl

@[simp] theorem unlock_lockedhashes :
    (build.unlock siggen tid).lockedhashes = siggen.lockedhashes := by
  rw [Build.unlock]
  split_ifs
  · rfl
  · rfl

theorem unlock_unlockedrecipes : (build.unlock siggen tid).unlockedrecipes =
    if build.recipename tid ∉ siggen.unlockedrecipes ∧
      build.dependsOnUnlocked siggen tid = true then
      siggen.unlockedrecipes ++ [build.recipename tid]
    else siggen.unlockedrecipes := by
  rw [Build.unlock]
  split_ifs
  · rfl
  · rfl

theorem firstTaskhash_eq_some {hash : Text}
    (done : build.firstTaskhash sha256 siggen tid = some (hash, next)) :
    ∃ text, build.taskText siggen tid = some text ∧
      next.taskhash = Function.update siggen.taskhash tid (some (sha256 text)) ∧
      next.lockedhashes = Function.update siggen.lockedhashes tid
        (some ((build.lockedFor (build.unlocked siggen tid) tid).getD [])) ∧
      next.unlockedrecipes = (build.unlock siggen tid).unlockedrecipes ∧
      hash = (build.lockedFor (build.unlocked siggen tid) tid).getD
        (sha256 text) := by
  obtain ⟨⟨h, hashed⟩, computed, done⟩ := Option.bind_eq_some_iff.mp done
  obtain ⟨text, made, computed⟩ := Option.bind_eq_some_iff.mp computed
  cases computed
  have same : build.unlocked { siggen with
      taskhash := Function.update siggen.taskhash tid (some (sha256 text)) }
        tid =
      build.unlocked siggen tid := by
    rfl
  have recipes : (build.unlock { siggen with
      taskhash := Function.update siggen.taskhash tid (some (sha256 text)) }
      tid).unlockedrecipes = (build.unlock siggen tid).unlockedrecipes := by
    rw [unlock_unlockedrecipes, unlock_unlockedrecipes]
    rfl
  dsimp only at done
  rw [same] at done
  refine ⟨text, made, ?_⟩
  cases locked : if build.unlocked siggen tid then none
      else build.lockedsigs (build.recipename tid) tid.task with
  | none =>
      have none : build.lockedFor (build.unlocked siggen tid) tid = none := by
        rw [Build.lockedFor, locked]
        rfl
      rw [locked] at done
      cases done
      simp [none, recipes]
  | some lockedsig =>
      have some : build.lockedFor (build.unlocked siggen tid) tid =
          some lockedsig.1 := by
        rw [Build.lockedFor, locked]
        rfl
      rw [locked] at done
      obtain ⟨unihash, -, done⟩ := Option.bind_eq_some_iff.mp done
      cases done
      simp [some, recipes]

theorem firstCall_of_call {run next : LockedRun}
    (called : run.call build sha256 tid = some next)
    (fresh : run.siggen.lockedhashes tid = none) :
    (∀ dep ∈ build.deps tid, run.returned dep ≠ none) ∧
      ∃ text, FirstCall build sha256 run tid next text := by
  rw [LockedRun.call, if_pos fresh] at called
  split_ifs at called with ready
  obtain ⟨⟨hash, siggen⟩, done, rfl⟩ := Option.map_eq_some_iff.mp called
  rw [Build.getTaskhash, fresh] at done
  obtain ⟨text, made, taskhash, lockedhashes, unlockedrecipes, rfl⟩ :=
    firstTaskhash_eq_some done
  exact ⟨ready, text, made, taskhash, lockedhashes, unlockedrecipes, rfl, rfl⟩

end Call

section Runs

variable {build : Build} {sha256 : Text → Text} {unlockedrecipes : List Text}

/-- The locked hash that a task should get. -/
structure Final (build : Build) (unlockedrecipes : List Text) (tid : Tid)
    (locked : Option Text) : Prop where
  unlocked : Unlocked build unlockedrecipes (build.recipename tid) →
    locked = none
  locked : ¬ Unlocked build unlockedrecipes (build.recipename tid) →
    locked = (build.lockedsigs (build.recipename tid) tid.task).map Prod.fst

variable {tid : Tid}

theorem Final.eq {locked other : Option Text}
    (first : Final build unlockedrecipes tid locked)
    (second : Final build unlockedrecipes tid other) : locked = other := by
  by_cases unlocked : Unlocked build unlockedrecipes (build.recipename tid)
  · rw [first.unlocked unlocked, second.unlocked unlocked]
  · rw [first.locked unlocked, second.locked unlocked]

/-- The hashes of a task are those of its dependencies and of its locked hash.
-/
structure Explained (build : Build) (sha256 : Text → Text)
    (unlockedrecipes : List Text) (run : LockedRun) (tid : Tid) : Prop where
  deps : ∀ dep ∈ build.deps tid, run.returned dep ≠ none
  hashes : ∃ text locked, Final build unlockedrecipes tid locked ∧
    build.taskText run.siggen tid = some text ∧
    run.siggen.taskhash tid = some (sha256 text) ∧
    run.siggen.lockedhashes tid = some (locked.getD []) ∧
    run.returned tid = some (locked.getD (sha256 text))

structure LockedSound (build : Build) (sha256 : Text → Text)
    (unlockedrecipes : List Text) (run : LockedRun) : Prop where
  recipes : ∀ name ∈ run.siggen.unlockedrecipes,
    Unlocked build unlockedrecipes name
  fresh : ∀ tid, run.returned tid = none → run.siggen.lockedhashes tid = none
  explained : ∀ tid, run.returned tid ≠ none →
    Explained build sha256 unlockedrecipes run tid
  exact : ∀ tid, run.unlocked tid = some true →
    Unlocked build unlockedrecipes (build.recipename tid)

theorem lockedSound_new : LockedSound build sha256 unlockedrecipes
    (.new unlockedrecipes) :=
  ⟨fun _ member => .listed member, fun _ _ => rfl, fun _ known =>
    absurd rfl known, fun _ known => by cases known⟩

variable {run : LockedRun}

theorem unlocked_of_treated
    (recipes : ∀ name ∈ run.siggen.unlockedrecipes,
      Unlocked build unlockedrecipes name)
    (inTime : InTime build unlockedrecipes run tid)
    (fresh : run.siggen.lockedhashes tid = none)
    (treated : build.unlocked run.siggen tid = true) :
    Unlocked build unlockedrecipes (build.recipename tid) := by
  rw [Build.unlocked, Bool.or_eq_true, decide_eq_true_eq] at treated
  by_cases listed : build.recipename tid ∈ run.siggen.unlockedrecipes
  · exact recipes _ listed
  · have depends := treated.resolve_left listed
    obtain ⟨dep, member, found⟩ := List.any_eq_true.mp depends
    rw [Bool.and_eq_true, decide_eq_true_eq] at found
    obtain ⟨name, known, inside⟩ := List.any_eq_true.mp found.2
    apply Unlocked.depends member found.1
    exact inTime.names fresh listed name known dep member found.1
      (of_decide_eq_true inside)

theorem mem_unlock {siggen : LockedSiggen} {name : Text}
    (member : name ∈ (build.unlock siggen tid).unlockedrecipes) :
    name ∈ siggen.unlockedrecipes ∨
      name = build.recipename tid ∧ build.unlocked siggen tid = true := by
  rw [unlock_unlockedrecipes] at member
  split_ifs at member with added
  · rcases List.mem_append.mp member with old | new
    · exact .inl old
    · apply Or.inr
      rw [Build.unlocked, added.2, Bool.or_true]
      exact ⟨List.mem_singleton.mp new, rfl⟩
  · exact .inl member

theorem final_lockedFor
    (recipes : ∀ name ∈ run.siggen.unlockedrecipes,
      Unlocked build unlockedrecipes name)
    (inTime : InTime build unlockedrecipes run tid)
    (fresh : run.siggen.lockedhashes tid = none) :
    Final build unlockedrecipes tid
      (build.lockedFor (build.unlocked run.siggen tid) tid) := by
  constructor
  · intro unlocked
    cases signature : build.lockedsigs (build.recipename tid) tid.task with
    | none => simp [Build.lockedFor, signature]
    | some locked =>
        rw [Build.lockedFor, inTime.locked (by simp [signature]) unlocked]
        rfl
  · intro locked
    rw [Build.lockedFor, if_neg]
    exact fun treated =>
      locked (unlocked_of_treated recipes inTime fresh treated)

variable {next : LockedRun}

theorem call_again (explained : Explained build sha256 unlockedrecipes run tid)
    (inTime : InTime build unlockedrecipes run tid)
    (called : run.call build sha256 tid = some next) : next = run := by
  obtain ⟨-, text, locked, final, made, taskhash, lockedhash, returned⟩ :=
    explained
  have known : run.siggen.lockedhashes tid ≠ none :=
    lockedhash ▸ Option.some_ne_none _
  have nonempty : locked ≠ some [] := by
    rintro rfl
    by_cases unlocked : Unlocked build unlockedrecipes (build.recipename tid)
    · cases final.unlocked unlocked
    · obtain ⟨⟨_, var⟩, signature, rfl⟩ :=
        Option.map_eq_some_iff.mp (final.locked unlocked).symm
      exact inTime.again known var signature
  rw [LockedRun.call, if_neg known] at called
  split_ifs at called
  obtain ⟨⟨hash, siggen⟩, done, rfl⟩ := Option.map_eq_some_iff.mp called
  obtain ⟨rfl, rfl⟩ : hash = locked.getD (sha256 text) ∧
      siggen = run.siggen := by
    rw [Build.getTaskhash, lockedhash] at done
    cases locked with
    | none =>
        dsimp only [Option.getD_none] at done
        rw [if_neg (not_not_intro rfl), Build.superTaskhash, made] at done
        cases done
        rw [← taskhash, Function.update_eq_self]
        exact ⟨rfl, rfl⟩
    | some hLocked =>
        dsimp only [Option.getD_some] at done
        rw [if_pos fun empty => nonempty (congrArg some empty)] at done
        cases done
        exact ⟨rfl, rfl⟩
  dsimp only
  rw [← returned, Function.update_eq_self]

theorem FirstCall.others {tid dep : Tid} {text : Text}
    (first : FirstCall build sha256 run tid next text) (different : dep ≠ tid) :
    next.siggen.taskhash dep = run.siggen.taskhash dep ∧
      next.siggen.lockedhashes dep = run.siggen.lockedhashes dep ∧
      next.returned dep = run.returned dep := by
  rw [first.taskhash, first.lockedhashes, first.returned]
  exact ⟨Function.update_of_ne different .., Function.update_of_ne different ..,
    Function.update_of_ne different ..⟩

theorem explained_firstCall {text : Text}
    (sound : LockedSound build sha256 unlockedrecipes run)
    (inTime : InTime build unlockedrecipes run tid)
    (new : run.returned tid = none)
    (ready : ∀ dep ∈ build.deps tid, run.returned dep ≠ none)
    (first : FirstCall build sha256 run tid next text) {task : Tid}
    (known : next.returned task ≠ none) :
    Explained build sha256 unlockedrecipes next task := by
  have kept : ∀ dep, run.returned dep ≠ none → dep ≠ tid := by
    rintro dep known rfl
    exact known new
  have texts : ∀ task, (∀ dep ∈ build.deps task, run.returned dep ≠ none) →
      build.taskText next.siggen task = build.taskText run.siggen task := by
    intro task known
    apply taskText_congr_deps
    intro dep member
    have same := first.others (kept dep (known dep member))
    exact ⟨same.1, same.2.1⟩
  have still : ∀ task, (∀ dep ∈ build.deps task, run.returned dep ≠ none) →
      ∀ dep ∈ build.deps task, next.returned dep ≠ none := by
    intro task known dep member
    rw [(first.others (kept dep (known dep member))).2.2]
    exact known dep member
  by_cases same : task = tid
  · subst same
    refine ⟨still task ready, text, _,
      final_lockedFor sound.recipes inTime (sound.fresh _ new),
      (texts task ready).trans first.made, ?_⟩
    rw [first.taskhash, first.lockedhashes, first.returned,
      Function.update_self, Function.update_self, Function.update_self]
    exact ⟨rfl, rfl, rfl⟩
  · obtain ⟨sameTaskhash, sameLocked, sameReturned⟩ := first.others same
    rw [sameReturned] at known
    obtain ⟨deps, text, locked, final, made, taskhash, lockedhash, returned⟩ :=
      sound.explained task known
    refine ⟨still task deps, text, locked, final, (texts task deps).trans made,
      ?_⟩
    rw [sameTaskhash, sameLocked, sameReturned]
    exact ⟨taskhash, lockedhash, returned⟩

theorem lockedSound_call (sound : LockedSound build sha256 unlockedrecipes run)
    (inTime : InTime build unlockedrecipes run tid)
    (called : run.call build sha256 tid = some next) :
    LockedSound build sha256 unlockedrecipes next := by
  by_cases new : run.returned tid = none
  · obtain ⟨ready, text, first⟩ :=
      firstCall_of_call called (sound.fresh tid new)
    have treated :=
      unlocked_of_treated sound.recipes inTime (sound.fresh tid new)
    constructor
    · rw [first.unlockedrecipes]
      intro name member
      rcases mem_unlock member with old | ⟨rfl, unlocked⟩
      · exact sound.recipes name old
      · exact treated unlocked
    · intro task unknown
      by_cases same : task = tid
      · subst same
        rw [first.returned, Function.update_self] at unknown
        cases unknown
      · rw [(first.others same).2.2] at unknown
        rw [(first.others same).2.1]
        exact sound.fresh task unknown
    · exact fun task => explained_firstCall sound inTime new ready first
    · intro task unlocked
      rw [first.unlocked] at unlocked
      by_cases same : task = tid
      · subst same
        rw [Function.update_self] at unlocked
        exact treated (Option.some.inj unlocked)
      · rw [Function.update_of_ne same] at unlocked
        exact sound.exact task unlocked
  · rw [call_again (sound.explained tid new) inTime called]
    exact sound

abbrev InOrder (build : Build) (sha256 : Text → Text)
    (unlockedrecipes : List Text) : LockedRun → Prop :=
  Reachable (· = .new unlockedrecipes) (Calls build sha256)
    (InTime build unlockedrecipes)

theorem lockedSound_of_inOrder
    (reached : InOrder build sha256 unlockedrecipes run) :
    LockedSound build sha256 unlockedrecipes run := by
  apply reached.invariant
  · rintro _ rfl
    exact lockedSound_new
  · exact fun _ _ _ sound inTime called => lockedSound_call sound inTime called

/-- A task that is hashed in both has the same hashes. -/
def Agree (first second : LockedRun) (tid : Tid) : Prop :=
  first.returned tid ≠ none → second.returned tid ≠ none →
    first.siggen.taskhash tid = second.siggen.taskhash tid ∧
      first.siggen.lockedhashes tid = second.siggen.lockedhashes tid ∧
      first.returned tid = second.returned tid

theorem agree_of_deps {first second : LockedRun}
    (firstSound : LockedSound build sha256 unlockedrecipes first)
    (secondSound : LockedSound build sha256 unlockedrecipes second)
    (deps : ∀ dep ∈ build.deps tid, Agree first second dep) :
    Agree first second tid := by
  intro known alsoKnown
  obtain ⟨ready, text, locked, final, made, taskhash, lockedhash, returned⟩ :=
    firstSound.explained tid known
  obtain ⟨alsoReady, other, alsoLocked, alsoFinal, alsoMade, taskhash',
    lockedhash', returned'⟩ := secondSound.explained tid alsoKnown
  have texts : build.taskText first.siggen tid =
      build.taskText second.siggen tid := by
    apply taskText_congr_deps
    intro dep member
    have agree := deps dep member (ready dep member) (alsoReady dep member)
    exact ⟨agree.1, agree.2.1⟩
  obtain rfl : text = other := by
    rw [made, alsoMade] at texts
    exact Option.some.inj texts
  obtain rfl : locked = alsoLocked := final.eq alsoFinal
  rw [taskhash, taskhash', lockedhash, lockedhash', returned, returned']
  exact ⟨rfl, rfl, rfl⟩

theorem agree_of_inOrder {first second : LockedRun}
    (firstReached : InOrder build sha256 unlockedrecipes first)
    (secondReached : InOrder build sha256 unlockedrecipes second) (tid : Tid) :
    Agree first second tid := by
  have secondSound := lockedSound_of_inOrder secondReached
  induction firstReached generalizing tid with
  | start started =>
      subst started
      exact fun known => absurd rfl known
  | @step run next task reached inTime called induction =>
      have sound := lockedSound_of_inOrder reached
      have nextSound := lockedSound_call sound inTime called
      by_cases new : run.returned task = none
      · obtain ⟨ready, text, first⟩ :=
          firstCall_of_call called (sound.fresh task new)
        have old : ∀ dep, dep ≠ task → Agree next second dep := by
          intro dep different
          rw [Agree, (first.others different).1, (first.others different).2.1,
            (first.others different).2.2]
          exact induction dep
        by_cases same : tid = task
        · subst same
          apply agree_of_deps nextSound secondSound
          intro dep member
          apply old
          rintro rfl
          exact ready dep member new
        · exact old tid same
      · rw [call_again (sound.explained task new) inTime called]
        exact induction tid

/-- What is claimed of two runs. -/
structure LockedExactly (build : Build) (unlockedrecipes : List Text)
    (first second : LockedRun) : Prop where
  same : ∀ tid hash other, first.returned tid = some hash →
    second.returned tid = some other → hash = other
  exact : ∀ tid, build.lockedsigs (build.recipename tid) tid.task ≠ none →
    first.unlocked tid = some true →
    Unlocked build unlockedrecipes (build.recipename tid)

/-- In orders in which each call is in time, every task has one hash, and only
the tasks of unlocked recipes are treated as unlocked. -/
theorem lockedExactly_of_inOrder {first second : LockedRun}
    (firstReached : InOrder build sha256 unlockedrecipes first)
    (secondReached : InOrder build sha256 unlockedrecipes second) :
    LockedExactly build unlockedrecipes first second := by
  constructor
  · intro tid hash other known alsoKnown
    have agree := agree_of_inOrder firstReached secondReached tid
      (known ▸ Option.some_ne_none hash) (alsoKnown ▸ Option.some_ne_none other)
    rw [known, alsoKnown] at agree
    exact Option.some.inj agree.2.2
  · exact fun tid _ => (lockedSound_of_inOrder firstReached).exact tid

end Runs

section Example

def depTid (name : Text) : Tid :=
  ⟨[], name, ['t']⟩

/-- The locked recipe `r` depends on the recipe `name`. -/
def dependsBuild (name : Text) : Build where
  pkgFn _ mcfn := mcfn
  deps tid := if tid = depTid ['r'] then [depTid name] else []
  runtaskdeps _ := []
  basehash tid := tid.mcfn
  behind _ := []
  lockedsigs recipename _ :=
    if recipename = ['r'] then some (['h'], ['v']) else none
  unihashmap _ _ := none
  cached _ _ := none
  runtaskdeps_subset _ := List.nil_subset _

/-- The recipe `a` is unlocked, and the dependency is hashed. -/
def hashedDep (name : Text) : LockedRun :=
  ((LockedRun.new [['a']]).call (dependsBuild name) id (depTid name)).getD
    (.new [])

def hashedBoth (name : Text) : LockedRun :=
  ((hashedDep name).call (dependsBuild name) id (depTid ['r'])).getD (.new [])

theorem inTime_hashedDep :
    InTime (dependsBuild ['a']) [['a']] (hashedDep ['a']) (depTid ['r']) := by
  constructor
  · intro _ _ name _ dep member _ _
    rw [List.mem_singleton.mp member]
    exact .listed (List.mem_singleton_self _)
  · exact fun _ _ => rfl
  · exact fun known => absurd rfl known

theorem lockedExactly_hashedBoth :
    LockedExactly (dependsBuild ['a']) [['a']] (hashedBoth ['a'])
      (hashedBoth ['a']) := by
  have dep : Calls (dependsBuild ['a']) id (.new [['a']]) (depTid ['a'])
    (hashedDep ['a']) := rfl
  have both : Calls (dependsBuild ['a']) id (hashedDep ['a']) (depTid ['r'])
    (hashedBoth ['a']) := rfl
  have start : InTime (dependsBuild ['a']) [['a']] (.new [['a']])
      (depTid ['a']) :=
    ⟨fun _ _ _ _ _ member => absurd member List.not_mem_nil, fun locked =>
      absurd rfl locked, fun known => absurd rfl known⟩
  have reached : InOrder (dependsBuild ['a']) id [['a']] (hashedBoth ['a']) :=
    .step (.step (.start rfl) start dep) inTime_hashedDep both
  exact lockedExactly_of_inOrder reached reached

/-- The name `a` is part of the name `ab`. -/
theorem not_lockedExactly_part :
    ¬ ∀ (build : Build) (sha256 : Text → Text) (unlockedrecipes : List Text)
      (first second : LockedRun),
      Reachable (· = .new unlockedrecipes) (Calls build sha256)
        (fun _ _ => True) first →
      Reachable (· = .new unlockedrecipes) (Calls build sha256)
        (fun _ _ => True) second →
      LockedExactly build unlockedrecipes first second := by
  intro exactly
  have dep : Calls (dependsBuild ['a', 'b']) id (.new [['a']])
      (depTid ['a', 'b']) (hashedDep ['a', 'b']) := rfl
  have both : Calls (dependsBuild ['a', 'b']) id (hashedDep ['a', 'b'])
      (depTid ['r']) (hashedBoth ['a', 'b']) := rfl
  have reached : Reachable (· = .new [['a']])
      (Calls (dependsBuild ['a', 'b']) id)
      (fun _ _ => True) (hashedBoth ['a', 'b']) :=
    .step (.step (.start rfl) trivial dep) trivial both
  have only : ∀ name, Unlocked (dependsBuild ['a', 'b']) [['a']] name →
      name = ['a'] := by
    intro name unlocked
    induction unlocked with
    | listed member => exact List.mem_singleton.mp member
    | @depends tid dep member _ _ induction =>
        simp only [dependsBuild] at member
        split_ifs at member
        · rw [List.mem_singleton.mp member] at induction
          cases induction
        · cases member
  have unlocked := (exactly _ _ _ _ _ reached reached).exact (depTid ['r'])
    (Option.some_ne_none _) rfl
  cases only _ unlocked

end Example

end Nvbmc.SigGen
