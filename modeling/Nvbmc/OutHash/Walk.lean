import Mathlib.Data.Char
import Mathlib.Data.List.Infix
import Mathlib.Data.List.Lex
import Mathlib.Data.List.Sort
import Mathlib.Data.Rat.Defs
import Nvbmc.Library.Columns

/-!
# The text of an output directory

`OEOuthashBasic` without file map entries: the paths that `os.walk` visits, in
the order in which they are processed, and the line that is hashed for each of
them.
-/

namespace Nvbmc.OutHash

open Library

/-- The type of a file, with what is hashed for this type only. -/
inductive Kind (Content : Type) where
  | dir
  | chr (major minor : ℕ)
  | blk (major minor : ℕ)
  | sock
  | lnk (target : Text)
  | fifo
  | reg (content : Content)
deriving DecidableEq

/-- The type with something else in the place of the contents. -/
def Kind.map {Content Digest : Type} (digest : Content → Digest) :
    Kind Content → Kind Digest
  | .dir => .dir
  | .chr major minor => .chr major minor
  | .blk major minor => .blk major minor
  | .sock => .sock
  | .lnk target => .lnk target
  | .fifo => .fifo
  | .reg content => .reg (digest content)

/-- `os.lstat`, with the contents of a file and the target of a link. -/
structure Inode where
  kind : Kind (List UInt8)
  /-- The permission bits of `st_mode`. -/
  mode : ℕ
  /-- The name of the owner, unless `getpwuid` knows none. -/
  owner : Option Text
  group : Option Text
  mtime : ℚ

/-- A mask of `stat`. -/
def Inode.has (inode : Inode) (mask : ℕ) : Bool :=
  mask &&& inode.mode ≠ 0

/-- `os.path.join` of a path and a name. -/
def joinPath (root name : Text) : Text :=
  root ++ '/' :: name

/-- What the calls on paths below an output directory answer. -/
structure Listing where
  listdir : Text → List Text
  lstat : Text → Inode
  /-- `os.path.isdir` of a symbolic link; this depends on where the tree is. -/
  leads : Text → Bool

namespace Listing

variable (listing : Listing)

def isdir (path : Text) : Bool :=
  match (listing.lstat path).kind with
  | .dir => true
  | .lnk _ => listing.leads path
  | _ => false

def islink (path : Text) : Bool :=
  match (listing.lstat path).kind with
  | .lnk _ => true
  | _ => false

/-- A path in so many directories below the output directory. -/
inductive Inside : ℕ → Text → Prop where
  | root : Inside 0 ['.']
  | entry {depth : ℕ} {path name : Text} : Inside depth path →
      (listing.lstat path).kind = .dir → name ∈ listing.listdir path →
      Inside (depth + 1) (joinPath path name)

/-- A path of the output directory. -/
def Contains (path : Text) : Prop :=
  ∃ depth, listing.Inside depth path

def sorted (names : List Text) : List Text :=
  names.mergeSort (· ≤ ·)

/-- `dirs`, sorted. -/
def dirs (root : Text) : List Text :=
  sorted ((listing.listdir root).filter fun name =>
    listing.isdir (joinPath root name))

/-- `files`, sorted. -/
def files (root : Text) : List Text :=
  sorted ((listing.listdir root).filter fun name =>
    !listing.isdir (joinPath root name))

def fixmepath : Text :=
  ['f', 'i', 'x', 'm', 'e', 'p', 'a', 't', 'h']

def processed (includeRoot : Bool) (root : Text) : List Text :=
  (if includeRoot || root ≠ ['.'] then [root] else []) ++
    ((listing.files root).filter (· ≠ fixmepath)).map (joinPath root) ++
    ((listing.dirs root).map (joinPath root)).filter listing.islink

/-- The directories that `os.walk` goes on with. -/
def subdirs (root : Text) : List Text :=
  ((listing.dirs root).map (joinPath root)).filter (!listing.islink ·)

/-- The paths that are processed, in order, at most so many directories deep. -/
def walk (includeRoot : Bool) : ℕ → Text → List Text
  | 0, _ => []
  | depth + 1, root => listing.processed includeRoot root ++
      (listing.subdirs root).flatMap (walk includeRoot depth)

end Listing

/-- An output directory. -/
structure Tree extends Listing where
  root_dir : (lstat ['.']).kind = .dir
  names : ∀ path, ∀ name ∈ listdir path, name ≠ [] ∧ '/' ∉ name
  /-- How deep the tree is. -/
  height : ℕ
  finite : ∀ path, toListing.Inside height path → (lstat path).kind ≠ .dir

/-- What `OEOuthashBasic` takes from the task, the configuration and the
environment. -/
structure Setting where
  task : Text
  /-- `PSEUDO_DISABLED`. -/
  pseudoDisabled : Option Text
  sourceDateEpoch : ℚ
  hashVersion : Option Text
  extraSigdata : Option Text
  sstatePkgspec : Text
  /-- `hexdigest` of `hashlib.sha256`. -/
  sha256 : List UInt8 → Text
  length_sha256 : ∀ content, (sha256 content).length = 64

namespace Setting

variable (setting : Setting)

def includeOwners : Bool :=
  setting.pseudoDisabled = some ['0'] &&
    !("package_write_".toList <:+: setting.task || setting.task =
      "package_qa".toList)

def includeTimestamps : Bool :=
  setting.task = "package".toList

def includeRoot : Bool :=
  setting.task ≠ "package".toList

def clamped (mtime : ℚ) : ℚ :=
  if mtime > setting.sourceDateEpoch then setting.sourceDateEpoch else mtime

end Setting

def typeChar {Content : Type} : Kind Content → Char
  | .dir => 'd'
  | .chr _ _ => 'c'
  | .blk _ _ => 'b'
  | .sock => 's'
  | .lnk _ => 'l'
  | .fifo => 'p'
  | .reg _ => '-'

namespace Inode

variable (inode : Inode)

/-- `add_perm`. -/
def addPerm (mask : ℕ) (on off : Char) : Char :=
  if inode.has mask then on else off

/-- The execute bit, with the set id bit of the same triple. -/
def addExec (special exec : ℕ) : Char :=
  if inode.has special then inode.addPerm exec 's' 'S'
  else inode.addPerm exec 'x' '-'

def userPerms : Text :=
  [inode.addPerm 0o400 'r' '-', inode.addPerm 0o200 'w' '-',
    inode.addExec 0o4000 0o100]

def otherPerms : Text :=
  [inode.addPerm 0o40 'r' '-', inode.addPerm 0o20 'w' '-',
    inode.addExec 0o2000 0o10,
    inode.addPerm 0o4 'r' '-', inode.addPerm 0o2 'w' '-',
    if inode.has 0o1000 then 't' else inode.addPerm 0o1 'x' '-']

/-- The permissions and the owners, `none` for the exception about an unknown
one. -/
def owners (includeOwners : Bool) : Option Text :=
  if includeOwners then do
    let owner ← inode.owner
    let group ← inode.group
    some (inode.otherPerms ++ ' ' :: padLeft 10 owner ++ ' ' ::
      padLeft 10 group)
  else some []

end Inode

/-- `%d` of a float. -/
def seconds (time : ℚ) : Text :=
  decimal (time.num.tdiv time.den)

def Setting.time (setting : Setting) (mtime : ℚ) : Text :=
  if setting.includeTimestamps then
    ' ' :: padLeft 10 (seconds (setting.clamped mtime))
  else []

def device : Kind (List UInt8) → Text
  | .chr major minor =>
      padLeft 9 (Nat.toDigits 10 major ++ '.' :: Nat.toDigits 10 minor)
  | .blk major minor =>
      padLeft 9 (Nat.toDigits 10 major ++ '.' :: Nat.toDigits 10 minor)
  | _ => List.replicate 9 ' '

/-- The size of a file and the hash of its contents. -/
def contents (sha256 : List UInt8 → Text) : Kind (List UInt8) → Text
  | .reg content =>
      padLeft 10 (Nat.toDigits 10 content.length) ++ ' ' :: sha256 content
  | _ => List.replicate 10 ' ' ++ ' ' :: List.replicate 64 ' '

def arrow : Kind (List UInt8) → Text
  | .lnk target => ' ' :: '-' :: '>' :: ' ' :: target
  | _ => []

/-- `process`. -/
def process (setting : Setting) (inode : Inode) (path : Text) : Option Text :=
  do
  let owners ← inode.owners setting.includeOwners
  some (typeChar inode.kind :: inode.userPerms ++ owners ++
    setting.time inode.mtime ++
    ' ' :: device inode.kind ++ ' ' :: contents setting.sha256 inode.kind ++
    ' ' :: path ++ arrow inode.kind ++ ['\n'])

def headerLine (value : Option Text) : Text :=
  if value.getD [] ≠ [] then value.getD [] ++ ['\n'] else []

def Setting.header (setting : Setting) : Text :=
  "OEOuthashBasic\n".toList ++ headerLine setting.hashVersion ++
    headerLine setting.extraSigdata ++
    "SSTATE_PKGSPEC=".toList ++ setting.sstatePkgspec ++ '\n' ::
      "task=".toList ++
    setting.task ++ ['\n']

def Listing.lines (setting : Setting) (listing : Listing) :
    List Text → Option Text
  | [] => some []
  | path :: paths => do
      let line ← process setting (listing.lstat path) path
      let rest ← lines setting listing paths
      some (line ++ rest)

/-- The text that `OEOuthashBasic` hashes, `none` when it raises. -/
def outhashText (setting : Setting) (tree : Tree) : Option Text := do
  let lines ← tree.lines setting
    (tree.walk setting.includeRoot (tree.height + 1) ['.'])
  some (setting.header ++ lines)

end Nvbmc.OutHash
