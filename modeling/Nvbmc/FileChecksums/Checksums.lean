import Nvbmc.FileChecksums.CacheMerge
import Nvbmc.FileChecksums.FileList
import Nvbmc.Library.Replace
import Nvbmc.SigGen.TaskHash

/-!
# Checksums of files and directories

`get_checksums` goes through a list of files.  Of a directory it takes the files
below it, and marks in their paths where the directory ends; `get_taskhash`
hashes what stands behind the mark.
-/

namespace Nvbmc.FileChecksums

open Nvbmc.Library SigGen

inductive Kind where
  | dir
  | linkedDir
  | file
deriving DecidableEq

/-- What `os.walk` finds below a directory, by names, the innermost first, and
in the order in which it finds it. -/
structure Tree where
  listdir : List Text → List Text
  kind : List Text → Kind
  plain : ∀ root, ∀ name ∈ listdir root, Plain name
  height : ℕ
  finite : ∀ root, height ≤ root.length → listdir root = []

namespace Tree

variable (tree : Tree)

def files (root : List Text) : List (List Text) :=
  ((tree.listdir root).map (· :: root)).filter (tree.kind · = .file)

/-- The directories that are walked through, without those whose names are
removed. -/
def subdirs (localdirsexclude : List Text) (root : List Text) :
    List (List Text) :=
  (((tree.listdir root).filter (· ∉ localdirsexclude)).map (· :: root)).filter
    (tree.kind · = .dir)

/-- The files that `os.walk` gives, at most so many directories deep. -/
def walk (localdirsexclude : List Text) : ℕ → List Text → List (List Text)
  | 0, _ => []
  | depth + 1, root =>
      tree.files root ++ (tree.subdirs localdirsexclude root).flatMap
        (walk localdirsexclude depth)

/-- All files, without those below an excluded directory. -/
def below (localdirsexclude : List Text) : List (List Text) :=
  tree.walk localdirsexclude (tree.height + 1) []

end Tree

/-- The file system, and what the configuration excludes. -/
structure Host where
  isdir : Text → Bool
  islink : Text → Bool
  glob : Text → List Text
  tree : Text → Tree
  files : Files
  cache : FileChecksumCache
  localdirsexclude : List Text

namespace Host

variable (host : Host)

/-- `checksum_file`; other files that were asked for before change nothing, as
`getChecksum_after` says. -/
def checksumFile (file : Text) : Option Text :=
  (getChecksum host.files host.cache file).1

def record (file : Text) : Option (Text × Text) :=
  ((host.checksumFile file).filter (· ≠ [])).map fun checksum =>
    (file, checksum)

/-- The path of names below a directory, as `os.walk` and `os.path.join` give
it. -/
def walkPath (pth : Text) : List Text → Text
  | [] => pth
  | name :: names => joinPaths (walkPath pth names) name

/-- `fullpth`. -/
def markedPath (pth : Text) (names : List Text) : Text :=
  replaceAll pth (joinPaths pth dot) (walkPath pth names)

/-- `pth.rstrip("/")`. -/
def rstripSlashes (pth : Text) : Text :=
  pth.rdropWhile (· = '/')

/-- `checksum_dir`; nothing for the fatal error. -/
def checksumDir (pth : Text) : Option (List (Text × Text)) :=
  if pth = ['/'] then none
  else
    let pth := rstripSlashes pth
    -- nothing is found below a directory without a name
    if pth = [] then some []
    else some (((host.tree pth).below host.localdirsexclude).filterMap
      fun names =>
      host.record (markedPath pth names))

/-- A path of the list, or one that a pattern of the list stands for. -/
def checksumPath (pth : Text) : Option (List (Text × Text)) :=
  if host.isdir pth then
    if host.islink pth then some [] else host.checksumDir pth
  else some (host.record pth).toList

/-- The paths that an item of the list stands for. -/
def expand (item : Text × Text) : List Text :=
  if item.2 = boolText false then []
  else if '*' ∈ item.1 then host.glob item.1
  else [item.1]

/-- The checksums before they are sorted. -/
def gather : List Text → Option (List (Text × Text))
  | [] => some []
  | pth :: paths => do
      let checksums ← host.checksumPath pth
      let rest ← gather paths
      some (checksums ++ rest)

/-- `get_checksums` for the items of a list. -/
def getChecksums (items : List (Text × Text)) : Option (List (Text × Text)) :=
  (host.gather (items.flatMap host.expand)).map fun checksums =>
    checksums.mergeSort fun first second => first.2 ≤ second.2

/-- What the files contribute to the text that `get_taskhash` hashes. -/
def filesText (items : List (Text × Text)) : Option Text :=
  (host.getChecksums items).map fun checksums =>
    checksumsText
      (sortedChecksums
        (checksums.map fun checksum => (checksum.1, some checksum.2)))

end Host

end Nvbmc.FileChecksums
