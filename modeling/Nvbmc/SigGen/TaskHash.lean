import Nvbmc.Library.Find
import Nvbmc.Library.Runs
import Nvbmc.SigGen.DependencyHash

/-!
# The hash of a task

The signature generator: recipes are parsed, tasks are prepared and hashed,
hashes of dependencies are replaced by equivalent ones, and taint files come and
go. `dump_sigtask` writes what is known about a task.  The hash function is
arbitrary.

Dictionaries are functions to options.  A step without a result is one that
raises.
-/

namespace Nvbmc.SigGen

open Library

/-- `mcfn` and the name of a task, with the multiconfig of the file. -/
structure Tid where
  mc : Text
  mcfn : Text
  task : Text
deriving DecidableEq, Repr

def Tid.text (tid : Tid) : Text :=
  tid.mcfn ++ ':' :: tid.task

structure Recipe where
  pn : Text
  tasks : Finset Text
  /-- The references that `build_dependencies` finds. -/
  references : Text → Finset Text
  lookupcache : Text → Option Text
  names : Finset Text
  nostamp : Finset Text
  references_subset : ∀ name, references name ⊆ names

namespace Recipe

variable (recipe : Recipe) (ignored : Finset Text)

/-- `gendeps`: each way out of `build_dependencies` takes the ignored ones away.
-/
def gendeps (name : Text) : Finset Text :=
  recipe.references name \ ignored

/-- The loop of `generate_dependency_hash` over the dependencies. -/
def closeDeps : ℕ → Finset Text → Finset Text → Option (Finset Text)
  | 0, _, _ => none
  | fuel + 1, newdeps, seen =>
      if newdeps = ∅ then some seen
      else
        let seen := seen ∪ newdeps
        closeDeps fuel (newdeps.biUnion (recipe.gendeps ignored) \ seen) seen

/-- `taskdeps`. -/
def taskdeps (task : Text) : Option (Finset Text) :=
  recipe.closeDeps ignored (recipe.names.card + 2) (recipe.gendeps ignored task)
    ∅

/-- What goes into the base hash of a task of the recipe. -/
def inputs (task : Text) : Option TaskInputs :=
  if task ∈ recipe.tasks then
    (recipe.taskdeps ignored task).map fun deps =>
      ⟨recipe.lookupcache task, deps, recipe.lookupcache⟩
  else none

end Recipe

/-- A directory that a checksum is relative to starts behind it. -/
def marker : Text :=
  ['/', '.', '/']

/-- `f.split("/./")[1]`. -/
def behindMarker (file : Text) : Text :=
  let rest := file.drop ((find marker file 0).getD 0 + marker.length)
  rest.take ((find marker rest 0).getD rest.length)

/-- `os.path.basename`. -/
def basename (file : Text) : Text :=
  (file.reverse.takeWhile (· ≠ '/')).reverse

/-- `clean_checksum_file_path`. -/
def cleanChecksumFilePath (file : Text) : Text :=
  if marker <:+: file then '.' :: '/' :: behindMarker file else basename file

abbrev Checksum := Text × Option Text

def sortedChecksums (checksums : List Checksum) : List Checksum :=
  checksums.mergeSort fun first second =>
    cleanChecksumFilePath first.1 ≤ cleanChecksumFilePath second.1

/-- The dependencies with their pnids, in the order in which they are hashed. -/
def sortedDeps (deps : List (Text × Tid)) : List (Text × Tid) :=
  deps.mergeSort fun first second =>
    first.1 < second.1 ∨ first.1 = second.1 ∧ first.2.text ≤ second.2.text

/-- `nostamp:`. -/
def nostampMark : Text :=
  ['n', 'o', 's', 't', 'a', 'm', 'p', ':']

/-- `build_pnid`. -/
def buildPnid (mc pn task : Text) : Text :=
  if mc = [] then pn ++ ':' :: task
  else ['m', 'c', ':'] ++ mc ++ ':' :: pn ++ ':' :: task

/-- The generator, the parsed recipes and the taint files. -/
structure Generator where
  /-- `siggen_varvals` and the other caches, by `mcfn`. -/
  recipes : Text → Option Recipe
  basehash : Tid → Option Text
  taskhash : Tid → Option Text
  runtaskdeps : Tid → Option (List (Text × Tid))
  fileChecksumValues : Tid → Option (List Checksum)
  taints : Tid → Option Text
  tidtopn : Tid → Option Text
  unitaskhashes : Text → Option (Text × Text)
  setscenetasks : Finset Tid
  taintFile : Tid → Option Text
  /-- The text that was hashed for a task, and the taint file when it was
  prepared; no code reads them. -/
  hashed : Tid → Option Text
  prepared : Tid → Option Text

/-- A generator before anything is parsed. -/
def Generator.new (taintFile : Tid → Option Text) : Generator :=
  { recipes := fun _ => none
    basehash := fun _ => none
    taskhash := fun _ => none
    runtaskdeps := fun _ => none
    fileChecksumValues := fun _ => none
    taints := fun _ => none
    tidtopn := fun _ => none
    unitaskhashes := fun _ => none
    setscenetasks := ∅
    taintFile := taintFile
    hashed := fun _ => none
    prepared := fun _ => none }

namespace Generator

variable (gen : Generator) (tid : Tid)

/-- The key of `unitaskhashes`. -/
def unihashKey (pn : Text) : Text :=
  tid.mc ++ ':' :: pn ++ ':' :: tid.task

/-- `get_unihash`, for a unihash that was not asked for before the task hash; an
answer of a server is set before it is read. -/
def getUnihash : Option Text := do
  let taskhash ← gen.taskhash tid
  if gen.setscenetasks ≠ ∅ ∧ tid ∉ gen.setscenetasks then some taskhash
  else
    match (gen.tidtopn tid).bind fun pn =>
      gen.unitaskhashes (unihashKey tid pn) with
    | none => some taskhash
    | some (key, unihash) =>
        if key = taskhash then some unihash else some taskhash

/-- `read_taint`, with `None` for an empty file. -/
def readTaint : Option Text :=
  match gen.taintFile tid with
  | none => none
  | some taint => if taint = [] then none else some taint

/-- The unihashes of the dependencies, one behind the other. -/
def depsText : List (Text × Tid) → Option Text
  | [] => some []
  | dep :: deps => do
      let unihash ← gen.getUnihash dep.2
      let rest ← depsText deps
      some (unihash ++ rest)

end Generator

/-- The loop of `get_taskhash` over the files. -/
def checksumsText : List Checksum → Text
  | [] => []
  | (file, checksum) :: rest =>
      (if textOf checksum = [] then []
        else
          (if marker <:+: file then '.' :: '/' :: behindMarker file else []) ++
            textOf checksum) ++ checksumsText rest

/-- The end of `get_taskhash`. -/
def taintText : Option Text → Text
  | none => []
  | some taint =>
      if nostampMark <+: taint then taint.drop nostampMark.length else taint

/-- `data` in `get_taskhash`. -/
def Generator.taskText (gen : Generator) (tid : Tid) : Option Text := do
  let basehash ← gen.basehash tid
  let deps ← gen.runtaskdeps tid
  let unihashes ← gen.depsText (sortedDeps deps)
  let checksums ← gen.fileChecksumValues tid
  some (basehash ++ unihashes ++ checksumsText (sortedChecksums checksums) ++
    taintText (gen.taints tid))

section Steps

variable (sha256 : Text → Text) (ignored : Finset Text)

/-- A parse: `finalise` hashes the tasks of the recipe. -/
def Generator.parse (gen : Generator) (mcfn : Text) (recipe : Recipe) :
    Generator :=
  { gen with
    recipes := Function.update gen.recipes mcfn (some recipe)
    basehash := fun tid =>
      if tid.mcfn = mcfn then
        match recipe.inputs ignored tid.task with
        | none => gen.basehash tid
        | some inputs => some (sha256 inputs.hashed)
      else gen.basehash tid }

/-- What `prep_taskhash` is called with, and what it gets from elsewhere. -/
structure Preparation where
  /-- The dependencies that `rundep_check` keeps. -/
  deps : List Tid
  checksums : List Checksum
  uuid : Text

/-- The entries of `runtaskdeps`. -/
def Generator.pnidDeps (gen : Generator) : List Tid → Option (List (Text × Tid))
  | [] => some []
  | dep :: deps => do
      let recipe ← gen.recipes dep.mcfn
      let _ ← gen.taskhash dep
      let rest ← pnidDeps gen deps
      some ((buildPnid dep.mc recipe.pn dep.task, dep) :: rest)

def Generator.prepTaint (gen : Generator) (tid : Tid) (recipe : Recipe)
    (uuid : Text) : Option Text :=
  match gen.readTaint tid with
  | some taint => some taint
  | none =>
      if tid.task ∈ recipe.nostamp then
        match gen.taints tid with
        | some taint =>
            if nostampMark <+: taint then some taint
            else some (nostampMark ++ uuid)
        | none => some (nostampMark ++ uuid)
      else gen.taints tid

/-- `prep_taskhash`. -/
def Generator.prepTaskhash (gen : Generator) (tid : Tid) (prep : Preparation) :
    Option Generator := do
  let recipe ← gen.recipes tid.mcfn
  let inputs ← recipe.inputs ignored tid.task
  let deps ← gen.pnidDeps prep.deps
  some { gen with
    basehash := Function.update gen.basehash tid (some (sha256 inputs.hashed))
    runtaskdeps := Function.update gen.runtaskdeps tid (some deps)
    fileChecksumValues :=
      Function.update gen.fileChecksumValues tid (some prep.checksums)
    taints := Function.update gen.taints tid
      (gen.prepTaint tid recipe prep.uuid)
    tidtopn := Function.update gen.tidtopn tid (some recipe.pn)
    prepared := Function.update gen.prepared tid (gen.taintFile tid) }

/-- `get_taskhash`. -/
def Generator.getTaskhash (gen : Generator) (tid : Tid) : Option Generator := do
  let text ← gen.taskText tid
  some { gen with
    taskhash := Function.update gen.taskhash tid (some (sha256 text))
    hashed := Function.update gen.hashed tid (some text) }

/-- `set_unihash`. -/
def Generator.setUnihash (gen : Generator) (tid : Tid) (unihash : Text) :
    Option Generator := do
  let pn ← gen.tidtopn tid
  let taskhash ← gen.taskhash tid
  some { gen with
    unitaskhashes :=
      Function.update gen.unitaskhashes (Generator.unihashKey tid pn)
      (some (taskhash, unihash)) }

/-- What can happen to a generator. -/
inductive Action where
  | parse (mcfn : Text) (recipe : Recipe)
  /-- The run queue calls `prep_taskhash` and `get_taskhash` together. -/
  | prepare (tid : Tid) (prep : Preparation)
  /-- A migration calls `get_taskhash` again. -/
  | rehash (tid : Tid)
  | setUnihash (tid : Tid) (unihash : Text)
  | setSetsceneTasks (tids : Finset Tid)
  /-- A task is invalidated or its stamps are removed. -/
  | setTaintFile (tid : Tid) (content : Option Text)

def Generator.perform (gen : Generator) : Action → Option Generator
  | .parse mcfn recipe => some (gen.parse sha256 ignored mcfn recipe)
  | .prepare tid prep =>
      (gen.prepTaskhash sha256 ignored tid prep).bind fun next =>
        next.getTaskhash sha256 tid
  | .rehash tid => gen.getTaskhash sha256 tid
  | .setUnihash tid unihash => gen.setUnihash tid unihash
  | .setSetsceneTasks tids => some { gen with setscenetasks := tids }
  | .setTaintFile tid content =>
      some { gen with taintFile := Function.update gen.taintFile tid content }

end Steps

/-- What is written about a task. -/
structure SigData where
  task : Text
  taskdeps : Finset Text
  basehash : Text
  varvals : Dict Text (Option Text)
  /-- Set for a task that has its hash. -/
  runtaskdeps : List Text
  fileChecksumValues : List Checksum
  runtaskhashes : Dict Text Text
  taint : Option Text

section Dump

variable (ignored : Finset Text) (gen : Generator) (tid : Tid)

/-- `data['varvals']`. -/
def dumpVarvals (inputs : TaskInputs) (task : Text) : Dict Text (Option Text) :=
  ((sortedNames inputs.deps).filter (· ∉ ignored)).foldl
    (fun varvals dep => varvals.set dep (inputs.values dep))
    [(task, inputs.value)]

/-- `data['file_checksum_values']`. -/
def dumpChecksums (checksums : List Checksum) : List Checksum :=
  (sortedChecksums checksums).map fun checksum =>
    (if marker <:+: checksum.1 then '.' :: '/' :: behindMarker checksum.1
      else basename checksum.1, checksum.2)

/-- `data['runtaskhashes']`. -/
def Generator.dumpHashes : List (Text × Tid) → Dict Text Text →
    Option (Dict Text Text)
  | [], hashes => some hashes
  | dep :: deps, hashes => do
      let unihash ← gen.getUnihash dep.2
      dumpHashes deps (hashes.set dep.1 unihash)

/-- `data['taint']`. -/
def Generator.dumpTaint : Option Text :=
  match gen.taints tid with
  | some taint =>
      if nostampMark <:+: taint then some taint else gen.readTaint tid
  | none => gen.readTaint tid

/-- `dump_sigtask` at run time, up to the file. -/
def Generator.dumpSigtask : Option SigData := do
  let recipe ← gen.recipes tid.mcfn
  let inputs ← recipe.inputs ignored tid.task
  let basehash ← gen.basehash tid
  let _ ← gen.taskhash tid
  let deps ← gen.runtaskdeps tid
  let checksums ← gen.fileChecksumValues tid
  let hashes ← gen.dumpHashes deps []
  some
    { task := tid.task
      taskdeps := inputs.deps
      basehash := basehash
      varvals := dumpVarvals ignored inputs tid.task
      runtaskdeps := (sortedDeps deps).map Prod.fst
      fileChecksumValues := dumpChecksums checksums
      runtaskhashes := hashes
      taint := gen.dumpTaint tid }

end Dump

namespace SigData

variable (data : SigData)

/-- The loop of `calc_basehash`. -/
def depsText : List Text → Option Text
  | [] => some []
  | dep :: deps => do
      let value ← data.varvals.get? dep
      let rest ← depsText deps
      some (dep ++ textOf value ++ rest)

/-- The text that `calc_basehash` hashes. -/
def basehashText : Option Text := do
  let value ← data.varvals.get? data.task
  let deps ← data.depsText (sortedNames data.taskdeps)
  some (textOf value ++ deps)

/-- The loop of `calc_taskhash` over the dependencies. -/
def hashesText : List Text → Option Text
  | [] => some []
  | dep :: deps => do
      let unihash ← data.runtaskhashes.get? dep
      let rest ← hashesText deps
      some (unihash ++ rest)

/-- The loop of `calc_taskhash` over the files. -/
def filesText : List Checksum → Text
  | [] => []
  | (file, checksum) :: rest =>
      (if textOf checksum = [] then []
        else (if ['.', '/'] <:+: file then file else []) ++ textOf checksum) ++
        filesText rest

/-- The text that `calc_taskhash` hashes. -/
def taskhashText : Option Text := do
  let hashes ← data.hashesText data.runtaskdeps
  let taint := match data.taint with
    | none => []
    | some taint =>
        if nostampMark <:+: taint then taint.drop nostampMark.length else taint
  some (data.basehash ++ hashes ++ filesText data.fileChecksumValues ++ taint)

end SigData

end Nvbmc.SigGen
