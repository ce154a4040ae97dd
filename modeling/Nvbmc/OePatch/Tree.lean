import Nvbmc.Library.Paths
import Nvbmc.Library.Raising
import Nvbmc.Library.Shell
import Nvbmc.Parse.LineReaders

/-!
# Patch trees

`PatchTree` applies patches with the `patch` program and writes what it applied
to a series file next to copies of the patches.  Names and strip levels are
joined to the command of a shell as they are.  Whether the program succeeds is
decided outside; the patches that the tree holds are recorded beside the files.
-/

namespace Nvbmc.OePatch

open Nvbmc.Library Nvbmc.Parse

/-- "strippath" of a patch: what the caller passed, or the number that is the
default. -/
inductive Strippath where
  | text (strippath : Text)
  | number (strippath : ℕ)

structure Patch where
  file : Option Text
  remote : Option Text
  strippath : Option Strippath
  filemd5 : Option Text

/-- `_current`. -/
inductive Current where
  | index (i : ℕ)
  | patch (patch : Patch)

/-- A patch that was applied: the path it was read from, its contents and its
strip level. -/
structure Applied where
  file : Text
  contents : Text
  strippath : Text
  deriving DecidableEq

/-- The files, and the patches that the tree holds in the order of their
application. -/
structure Host where
  files : Text → Option Text
  applied : List Applied

/-- `cat file | patch -p strippath`, with `-R` and `--dry-run`. -/
structure Application where
  file : Text
  strippath : Text
  reverse : Bool
  dryRun : Bool

def Application.isPlain (application : Application) : Bool :=
  isShellWord application.file && isShellWord application.strippath

def Application.command (application : Application) : Text :=
  "cat ".toList ++ application.file ++
    " | patch --no-backup-if-mismatch -p ".toList ++ application.strippath ++
    (if application.reverse then " -R".toList else []) ++
    (if application.dryRun then " --dry-run".toList else [])

/-- What is decided outside. -/
structure Outcome where
  /-- Whether the `patch` program succeeds. -/
  succeeds : Host → Application → Bool
  /-- What a command does in which the shell reads other words, and whether it
  succeeds. -/
  special : Host → Text → Bool × Host

inductive Failure where
  /-- "Applying '%s' failed:\n%s" -/
  | applying
  /-- `CmdError` of the command that copies a patch. -/
  | command
  /-- "Patch file must be specified in patch import." -/
  | noFile
  /-- `FileNotFoundError` of `md5_file`. -/
  | notFound
  | typeError
  | keyError
  | indexError
  deriving DecidableEq

structure PatchTree where
  patches : List Patch
  current : Option Current
  host : Host

variable (dir : Text)

namespace Host

def write (host : Host) (path contents : Text) : Host :=
  { host with files := Function.update host.files path (some contents) }

/-- A file as a command sees it, which runs in the directory of the tree. -/
def contents (host : Host) (file : Text) : Option Text :=
  host.files (joinPaths dir file)

/-- A patch in reverse takes the last one with its contents and strip level
away. -/
def patched (host : Host) (application : Application) : Host :=
  let contents := (host.contents dir application.file).getD []
  if application.reverse then
    { host with
      applied := (host.applied.reverse.eraseP fun applied =>
        applied.contents = contents ∧
          applied.strippath = application.strippath).reverse }
  else
    { host with
      applied := host.applied ++
        [⟨application.file, contents, application.strippath⟩] }

/-- `runcmd` of the command that `_applypatch` puts together, and whether it
succeeds. -/
def runcmd (host : Host) (outcome : Outcome) (application : Application) :
    Bool × Host :=
  if application.isPlain then
    if outcome.succeeds host application then
      (true, if application.dryRun then host else host.patched dir application)
    else (false, host)
  else outcome.special host application.command

end Host

/-- What `Import` needs to read a patch that is not at hand. -/
structure Fetcher where
  localpath : Text → Text
  expand : Text → Text
  md5 : Text → Text

def patchdir : Text :=
  joinPaths dir "patches".toList

def seriespath : Text :=
  joinPaths (joinPaths dir "patches".toList) "series".toList

def copypath (patch : Text) : Text :=
  patchdir dir ++ '/' :: pathBasename patch

def seriesLine (patch strippath : Text) : Text :=
  pathBasename patch ++ ',' :: strippath ++ ['\n']

namespace PatchTree

def appendPatchFile (outcome : Outcome) (patch strippath : Text)
    (tree : PatchTree) : Ending Failure PatchTree :=
  let series :=
    (tree.host.files (seriespath dir)).getD [] ++ seriesLine patch strippath
  let host := tree.host.write (seriespath dir) series
  if isShellWord patch && isShellWord (copypath dir patch) then
    let copy := joinPaths dir (copypath dir patch)
    -- the shell truncates the copy before `cat` reads the patch
    let host := host.write copy []
    match host.contents dir patch with
    | none => (.error .command, { tree with host := host })
    | some contents => (.ok (), { tree with host := host.write copy contents })
  else
    match outcome.special host ("cat ".toList ++ patch ++ " > ".toList ++
      copypath dir patch) with
    | (false, host) => (.error .command, { tree with host := host })
    | (true, host) => (.ok (), { tree with host := host })

def applypatch (outcome : Outcome) (patch : Patch) (force reverse : Bool)
    (tree : PatchTree) : Ending Failure PatchTree :=
  match patch.file, patch.strippath with
  | none, _ => (.error .keyError, tree)
  | some _, none => (.error .keyError, tree)
  -- a number cannot be joined with the words of the command
  | some _, some (.number _) => (.error .typeError, tree)
  | some file, some (.text strippath) =>
      match tree.host.runcmd dir outcome ⟨file, strippath, reverse, !force⟩ with
      | (false, host) => (.error .applying, { tree with host := host })
      | (true, host) =>
          if force then (.ok (), { tree with host := host })
          else
            match host.runcmd dir outcome ⟨file, strippath, reverse, false⟩ with
            | (false, host) => (.error .applying, { tree with host := host })
            | (true, host) =>
                if reverse then (.ok (), { tree with host := host })
                else
                  appendPatchFile dir outcome file strippath
                    { tree with host := host }

def removePatch (outcome : Outcome) (p : Text) (tree : PatchTree) :
    Ending Failure PatchTree :=
  match p.splitOn ',' with
  | file :: strippath :: _ =>
      applypatch dir outcome ⟨some file, none, some (.text strippath), none⟩
        false true tree
  | _ => (.error .indexError, tree)

def removePatchFile (outcome : Outcome) (all : Bool) (tree : PatchTree) :
    Ending Failure PatchTree :=
  let remove line :=
    removePatch dir outcome (joinPaths (patchdir dir) (strip line))
  match tree.host.files (seriespath dir) with
  | none => (.ok (), tree)
  | some series =>
      let patches := readlines series
      if all then
        match forEach remove patches.reverse tree with
        | (.error error, tree) => (.error error, tree)
        | (.ok _, tree) =>
            (.ok (), { tree with host := tree.host.write (seriespath dir) [] })
      else
        match patches.getLast? with
        | none => (.error .indexError, tree)
        | some last =>
            match remove last tree with
            | (.error error, tree) => (.error error, tree)
            | (.ok _, tree) =>
                (.ok (), { tree with
                  host := tree.host.write (seriespath dir)
                    patches.dropLast.flatten })

/-- The path that `PatchSet.Import` reads: that of a remote patch, or else its
file. -/
def importedPath (fetcher : Fetcher) (patch : Patch) : Option Text :=
  match patch.remote.filter (· ≠ []) with
  | some remote => some (fetcher.expand (fetcher.localpath remote))
  | none => patch.file.filter (· ≠ [])

def importedStrippath (patch : Patch) : Strippath :=
  match patch.strippath with
  | none | some (.text []) | some (.number 0) => .number 1
  | some strippath => strippath

/-- `PatchSet.Import`. -/
def fill (fetcher : Fetcher) (files : Text → Option Text) (patch : Patch) :
    Except Failure Patch :=
  match importedPath fetcher patch with
  | none => .error .noFile
  | some file =>
      match files file with
      | none => .error .notFound
      | some contents =>
          .ok ⟨some file, patch.remote, some (importedStrippath patch),
            some (fetcher.md5 contents)⟩

/-- `Import`. -/
def importPatch (fetcher : Fetcher) (patch : Patch) (tree : PatchTree) :
    Ending Failure PatchTree :=
  match fill fetcher tree.host.files patch with
  | .error error => (.error error, tree)
  | .ok patch =>
      match tree.current with
      | some (.patch _) => (.error .typeError, tree)
      | some (.index i) =>
          (.ok (), { tree with
            patches := tree.patches.insertIdx (i + 1) patch })
      | none =>
          (.ok (), { tree with patches := tree.patches.insertIdx 0 patch })

/-- One round of the loop of `Push` over all patches. -/
def pushRound (outcome : Outcome) (force : Bool) (patch : Patch)
    (tree : PatchTree) : Ending Failure PatchTree :=
  match applypatch dir outcome patch force false tree with
  | (.error error, tree) => (.error error, tree)
  | (.ok _, tree) => (.ok (), { tree with current := some (.patch patch) })

def push (outcome : Outcome) (force all : Bool) (tree : PatchTree) :
    Ending Failure PatchTree :=
  if all then forEach (pushRound dir outcome force) tree.patches tree
  else
    match tree.current with
    | some (.patch _) => (.error .typeError, tree)
    | some (.index i) => pushNext (i + 1)
    | none => pushNext 0
where
  pushNext (next : ℕ) : Ending Failure PatchTree :=
    match tree.patches[next]? with
    | none => (.error .indexError, tree)
    | some patch =>
        match applypatch dir outcome patch force false tree with
        | (.error error, tree) => (.error error, tree)
        | (.ok _, tree) => (.ok (), { tree with current := some (.index next) })

/-- What `Pop` does to the position at its end. -/
def stepBack (tree : PatchTree) : Ending Failure PatchTree :=
  match tree.current with
  | some (.patch _) => (.error .typeError, tree)
  | some (.index 0) => (.ok (), { tree with current := none })
  | some (.index (i + 1)) => (.ok (), { tree with current := some (.index i) })
  | none => (.ok (), tree)

def pop (outcome : Outcome) (all : Bool) (tree : PatchTree) :
    Ending Failure PatchTree :=
  match removePatchFile dir outcome all tree with
  | (.error error, tree) => (.error error, tree)
  | (.ok _, tree) =>
      stepBack (if all then { tree with current := none } else tree)

def clean (outcome : Outcome) (tree : PatchTree) : Ending Failure PatchTree :=
  pop dir outcome true tree

end PatchTree

end Nvbmc.OePatch
