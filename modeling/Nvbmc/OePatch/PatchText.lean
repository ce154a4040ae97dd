import Nvbmc.Library.Paths
import Nvbmc.Library.Words

/-!
# The files of a patch

`getPatchedFiles` looks at the start of each line and does not know where a hunk
begins or ends. The two names are variables that may not be set yet.
-/

namespace Nvbmc.OePatch

open Nvbmc.Library

/-- The change of a file: added, deleted or modified. -/
inductive Mode where
  | a
  | d
  | m
  deriving DecidableEq

inductive ScanError where
  | indexError
  | unboundLocalError
  deriving DecidableEq

/-- A variable of the function: not bound, `None` or a path. -/
inductive FileName where
  | unbound
  | absent
  | path (path : Text)
  deriving DecidableEq

structure Scan where
  copiedmode : Bool
  removedfile : FileName
  addedfile : FileName
  filelist : List (Text × Mode)

def devNull : Text :=
  "/dev/null".toList

def oldMark : Text :=
  "--- ".toList

def newMark : Text :=
  "+++ ".toList

def copiedMark : Text :=
  "*** ".toList

def stripPath (striplevel : ℕ) (path : Text) : Text :=
  ['/'].intercalate ((components path).drop striplevel)

/-- `patchedpath`; a strip level above the number of components is reported and
gives `None`. -/
def patchedpath (striplevel : ℕ) (patchline : Text) :
    Except ScanError (Option Text) :=
  match words patchline with
  | _ :: filepth :: _ =>
      if devNull <:+ filepth then .ok (some devNull)
      else if (components filepth).length < striplevel then .ok none
      else .ok (some (stripPath striplevel filepth))
  | _ => .error .indexError

/-- `os.path.abspath` in the directory `cwd`. -/
def abspath (cwd path : Text) : Text :=
  normpath (if isabs path then path else joinPaths cwd path)

/-- The path of an entry: below the source directory, if one is given. -/
def fullpath (cwd : Text) (srcdir : Option Text) (path : Text) : Text :=
  match srcdir.filter (· ≠ []) with
  | some srcdir => abspath cwd (joinPaths srcdir path)
  | none => path

section Scan

variable (cwd : Text) (striplevel : ℕ) (srcdir : Option Text)

/-- The end of a round: an entry is made if both names are set. -/
def record (scan : Scan) : Except ScanError Scan :=
  match scan.addedfile, scan.removedfile with
  | .unbound, _ => .error .unboundLocalError
  | .absent, _ => .ok scan
  | .path _, .unbound => .error .unboundLocalError
  | .path _, .absent => .ok scan
  | .path added, .path removed =>
      let mode :=
        if removed = devNull then .a else if added = devNull then .d else .m
      .ok { scan with
        filelist := scan.filelist ++ [(fullpath cwd srcdir added, mode)] }

/-- The names that a line sets; an empty path, or none, ends the loop. -/
def readNames (line : Text) (scan : Scan) : Except ScanError (Option Scan) :=
  if oldMark <+: line then
    (patchedpath striplevel line).map fun patchpth =>
      (patchpth.filter (· ≠ [])).map fun path =>
        if scan.copiedmode then { scan with addedfile := .path path }
        else { scan with removedfile := .path path }
  else if newMark <+: line then
    (patchedpath striplevel line).map fun patchpth =>
      (patchpth.filter (· ≠ [])).map fun path => { scan with
        addedfile := .path path }
  else if copiedMark <+: line then
    (patchedpath striplevel line).map fun patchpth =>
      (patchpth.filter (· ≠ [])).map fun path =>
        { scan with copiedmode := true, removedfile := .path path }
  else .ok (some { scan with removedfile := .absent, addedfile := .absent })

def scanLines : List Text → Scan → Except ScanError (List (Text × Mode))
  | [], scan => .ok scan.filelist
  | line :: lines, scan =>
      match readNames striplevel line scan with
      | .error error => .error error
      | .ok none => .ok scan.filelist
      | .ok (some scan) =>
          match record cwd srcdir scan with
          | .error error => .error error
          | .ok scan => scanLines lines scan

/-- `getPatchedFiles`, for the lines of the file. -/
def getPatchedFiles (lines : List Text) :
    Except ScanError (List (Text × Mode)) :=
  scanLines cwd striplevel srcdir lines ⟨false, .unbound, .unbound, []⟩

end Scan

/-- The tags of the lines of a hunk in unified form. -/
inductive Tag where
  | kept
  | removed
  | added
  | noNewline

def Tag.char : Tag → Char
  | .kept => ' '
  | .removed => '-'
  | .added => '+'
  | .noNewline => '\\'

structure UnifiedHunk where
  range : Text
  lines : List (Tag × Text)

/-- The tags of the lines of a hunk in context form. -/
inductive ContextTag where
  | kept
  | removed
  | added
  | changed
  | noNewline

def ContextTag.char : ContextTag → Char
  | .kept => ' '
  | .removed => '-'
  | .added => '+'
  | .changed => '!'
  | .noNewline => '\\'

structure ContextHunk where
  /-- What follows the stars, such as the name of a function. -/
  place : Text
  oldRange : Text
  oldLines : List (ContextTag × Text)
  newRange : Text
  newLines : List (ContextTag × Text)

/-- The hunks of a file, in one of the two forms. -/
inductive Hunks where
  | unified (first : UnifiedHunk) (hunks : List UnifiedHunk)
  | context (first : ContextHunk) (hunks : List ContextHunk)

/-- The two names of a file with what follows them, the hunks and the lines up
to the next file. -/
structure FileSection where
  old : Text
  oldRest : Text
  new : Text
  newRest : Text
  hunks : Hunks
  trailer : List Text

def UnifiedHunk.text (hunk : UnifiedHunk) : List Text :=
  ("@@ ".toList ++ hunk.range ++ ['\n']) ::
    hunk.lines.map fun line => line.1.char :: line.2 ++ ['\n']

def taggedLines (lines : List (ContextTag × Text)) : List Text :=
  lines.map fun line => line.1.char :: ' ' :: line.2 ++ ['\n']

def ContextHunk.text (hunk : ContextHunk) : List Text :=
  ("***************".toList ++ hunk.place ++ ['\n']) ::
    (copiedMark ++ hunk.oldRange ++ " ****\n".toList) ::
    (taggedLines hunk.oldLines ++
      (oldMark ++ hunk.newRange ++ " ----\n".toList) ::
        taggedLines hunk.newLines)

def Hunks.text : Hunks → List Text
  | .unified first hunks => (first :: hunks).flatMap UnifiedHunk.text
  | .context first hunks => (first :: hunks).flatMap ContextHunk.text

/-- Whether the names are marked as in context form. -/
def Hunks.copied : Hunks → Bool
  | .unified _ _ => false
  | .context _ _ => true

def oldMarkOf (copied : Bool) : Text :=
  if copied then copiedMark else oldMark

def newMarkOf (copied : Bool) : Text :=
  if copied then oldMark else newMark

def Unmarked (line : Text) : Prop :=
  ¬ oldMark <+: line ∧ ¬ newMark <+: line ∧ ¬ copiedMark <+: line

namespace FileSection

variable (file : FileSection)

def copied : Bool :=
  file.hunks.copied

def text : List Text :=
  (oldMarkOf file.copied ++ file.old ++ file.oldRest ++ ['\n']) ::
    (newMarkOf file.copied ++ file.new ++ file.newRest ++ ['\n']) ::
      (file.hunks.text ++ file.trailer)

/-- What the list should say about the file. -/
def entry (cwd : Text) (striplevel : ℕ) (srcdir : Option Text) : Text × Mode :=
  if file.old = devNull then
    (fullpath cwd srcdir (stripPath striplevel file.new), .a)
  else if file.new = devNull then
    (fullpath cwd srcdir (stripPath striplevel file.old), .d)
  else (fullpath cwd srcdir (stripPath striplevel file.new), .m)

def IsFileName (striplevel : ℕ) (path : Text) : Prop :=
  path = devNull ∨ path ≠ [] ∧ '\t' ∉ path ∧
    striplevel ≤ (components path).length

/-- The names of a file in a patch; what follows a name begins with a tab. -/
structure Valid (striplevel : ℕ) : Prop where
  old : IsFileName striplevel file.old
  new : IsFileName striplevel file.new
  isFile : file.old ≠ devNull ∨ file.new ≠ devNull
  oldRest : file.oldRest = [] ∨ file.oldRest.head? = some '\t'
  newRest : file.newRest = [] ∨ file.newRest.head? = some '\t'
  trailer : ∀ line ∈ file.trailer, Unmarked line

end FileSection

end Nvbmc.OePatch
