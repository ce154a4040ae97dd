import Nvbmc.OutHash.Lines

/-!
# Trees with the same text

The walk processes every path of an output directory once its depth is used up,
and two trees with the same text have the same paths.
-/

namespace Nvbmc.OutHash

open Library

section Walk

variable {tree : Tree} {includeRoot : Bool} {depth fuel : ℕ}
  {root path name : Text}

theorem joinPath_ne_root : joinPath root name ≠ ['.'] := by
  intro same
  have member : '/' ∈ joinPath root name := by simp [joinPath]
  rw [same] at member
  exact absurd member (by decide)

theorem inside_le (inside : tree.Inside depth path) : depth ≤ tree.height := by
  induction inside with
  | root => exact Nat.zero_le _
  | @entry depth path name inside isDir _ induction =>
      apply Nat.lt_of_le_of_ne induction
      rintro rfl
      exact tree.finite path inside isDir

theorem inside_lt_of_dir (inside : tree.Inside depth path)
    (isDir : (tree.lstat path).kind = .dir) : depth < tree.height := by
  apply Nat.lt_of_le_of_ne (inside_le inside)
  rintro rfl
  exact tree.finite path inside isDir

theorem isdir_of_dir (isDir : (tree.lstat path).kind = .dir) :
    tree.isdir path = true := by
  rw [Listing.isdir, isDir]

theorem not_islink_of_dir (isDir : (tree.lstat path).kind = .dir) :
    tree.islink path = false := by
  rw [Listing.islink, isDir]

theorem dir_of_isdir (isdir : tree.isdir path = true)
    (noLink : tree.islink path = false) : (tree.lstat path).kind = .dir := by
  rw [Listing.isdir] at isdir
  rw [Listing.islink] at noLink
  cases kind : (tree.lstat path).kind <;> rw [kind] at isdir noLink <;>
    first | rfl | cases isdir | cases noLink

theorem mem_dirs : name ∈ tree.dirs root ↔
    name ∈ tree.listdir root ∧ tree.isdir (joinPath root name) = true := by
  rw [Listing.dirs, Listing.sorted, List.mem_mergeSort, List.mem_filter]

theorem mem_files : name ∈ tree.files root ↔
    name ∈ tree.listdir root ∧ tree.isdir (joinPath root name) = false := by
  rw [Listing.files, Listing.sorted, List.mem_mergeSort, List.mem_filter,
    Bool.not_eq_true']

theorem mem_subdirs : path ∈ tree.subdirs root ↔
    ∃ name ∈ tree.listdir root, joinPath root name = path ∧
      (tree.lstat path).kind = .dir := by
  rw [Listing.subdirs, List.mem_filter, List.mem_map]
  constructor
  · rintro ⟨⟨name, member, rfl⟩, noLink⟩
    rw [mem_dirs] at member
    rw [Bool.not_eq_true'] at noLink
    exact ⟨name, member.1, rfl, dir_of_isdir member.2 noLink⟩
  · rintro ⟨name, member, rfl, isDir⟩
    refine ⟨⟨name, mem_dirs.mpr ⟨member, isdir_of_dir isDir⟩, rfl⟩, ?_⟩
    rw [not_islink_of_dir isDir]
    rfl

theorem mem_processed_self (included : includeRoot = true ∨ root ≠ ['.']) :
    root ∈ tree.processed includeRoot root := by
  rw [Listing.processed, if_pos (by simpa using included)]
  apply List.mem_append_left
  apply List.mem_append_left
  exact List.mem_singleton_self root

theorem mem_processed_entry (member : name ∈ tree.listdir root)
    (unskipped : name ≠ Listing.fixmepath)
    (noDir : (tree.lstat (joinPath root name)).kind ≠ .dir) :
    joinPath root name ∈ tree.processed includeRoot root := by
  rw [Listing.processed]
  cases isdir : tree.isdir (joinPath root name) with
  | false =>
      apply List.mem_append_left
      apply List.mem_append_right
      exact List.mem_map_of_mem (List.mem_filter.mpr
        ⟨mem_files.mpr ⟨member, isdir⟩, decide_eq_true unskipped⟩)
  | true =>
      apply List.mem_append_right
      apply List.mem_filter.mpr
      refine ⟨List.mem_map_of_mem (mem_dirs.mpr ⟨member, isdir⟩), ?_⟩
      by_contra noLink
      exact noDir (dir_of_isdir isdir (Bool.eq_false_of_not_eq_true noLink))

theorem inside_of_mem_processed (inside : tree.Inside depth root)
    (isDir : (tree.lstat root).kind = .dir)
    (member : path ∈ tree.processed includeRoot root) :
    tree.Contains path ∧ (includeRoot = true ∨ path ≠ ['.']) := by
  have entry : ∀ name ∈ tree.listdir root, tree.Contains (joinPath root name) ∧
      (includeRoot = true ∨ joinPath root name ≠ ['.']) :=
    fun name member =>
      ⟨⟨depth + 1, .entry inside isDir member⟩, .inr joinPath_ne_root⟩
  rw [Listing.processed, List.mem_append, List.mem_append] at member
  rcases member with (self | file) | link
  · split_ifs at self with included
    · rw [List.mem_singleton.mp self]
      exact ⟨⟨depth, inside⟩, by simpa using included⟩
    · cases self
  · obtain ⟨name, member, rfl⟩ := List.mem_map.mp file
    exact entry name (mem_files.mp (List.mem_of_mem_filter member)).1
  · obtain ⟨name, member, rfl⟩ := List.mem_map.mp (List.mem_of_mem_filter link)
    exact entry name (mem_dirs.mp member).1

theorem contains_of_mem_walk (inside : tree.Inside depth root)
    (isDir : (tree.lstat root).kind = .dir)
    (member : path ∈ tree.walk includeRoot fuel root) :
    tree.Contains path ∧ (includeRoot = true ∨ path ≠ ['.']) := by
  induction fuel generalizing depth root with
  | zero => cases member
  | succ fuel induction =>
      rcases List.mem_append.mp member with here | below
      · exact inside_of_mem_processed inside isDir here
      · obtain ⟨subdir, isSubdir, member⟩ := List.mem_flatMap.mp below
        obtain ⟨name, listed, rfl, isSubdir⟩ := mem_subdirs.mp isSubdir
        exact induction (.entry inside isDir listed) isSubdir member

theorem walk_subset (inside : tree.Inside depth path)
    (isDir : (tree.lstat path).kind = .dir) :
    tree.walk includeRoot (tree.height + 1 - depth) path ⊆
      tree.walk includeRoot (tree.height + 1) ['.'] := by
  induction inside with
  | root => exact List.Subset.refl _
  | @entry depth path name inside parentDir member induction =>
      apply List.Subset.trans _ (induction parentDir)
      have lower := inside_lt_of_dir inside parentDir
      obtain ⟨left, enough⟩ : ∃ left, tree.height + 1 - depth = left + 1 :=
        ⟨tree.height - depth, by omega⟩
      have rest : tree.height + 1 - (depth + 1) = left := by omega
      rw [rest, enough, Listing.walk]
      intro other processed
      apply List.mem_append_right
      exact List.mem_flatMap.mpr
        ⟨_, mem_subdirs.mpr ⟨name, member, rfl, isDir⟩, processed⟩

theorem processed_subset (inside : tree.Inside depth root)
    (isDir : (tree.lstat root).kind = .dir) :
    tree.processed includeRoot root ⊆ tree.walk includeRoot (tree.height + 1)
      ['.'] := by
  apply List.Subset.trans _ (walk_subset inside isDir)
  have lower := inside_lt_of_dir inside isDir
  obtain ⟨left, enough⟩ : ∃ left, tree.height + 1 - depth = left + 1 :=
    ⟨tree.height - depth, by omega⟩
  rw [enough, Listing.walk]
  exact List.subset_append_left _ _

/-- No name is the one that is skipped, and none has a line end. -/
def Named (tree : Tree) : Prop :=
  ∀ path, tree.Contains path → ∀ name ∈ tree.listdir path,
    '\n' ∉ name ∧ name ≠ Listing.fixmepath

theorem mem_walk (named : Named tree) :
    path ∈ tree.walk includeRoot (tree.height + 1) ['.'] ↔
      tree.Contains path ∧ (includeRoot = true ∨ path ≠ ['.']) := by
  constructor
  · exact contains_of_mem_walk .root tree.root_dir
  · rintro ⟨⟨depth, inside⟩, included⟩
    cases inside with
    | root =>
        exact processed_subset .root tree.root_dir (mem_processed_self included)
    | @entry depth root name inside isDir member =>
        by_cases entryDir : (tree.lstat (joinPath root name)).kind = .dir
        · exact processed_subset (.entry inside isDir member) entryDir
            (mem_processed_self included)
        · exact processed_subset inside isDir (mem_processed_entry member
            (named root ⟨depth, inside⟩ name member).2 entryDir)

theorem oneLine_of_contains (named : Named tree)
    (contains : tree.Contains path) : '\n' ∉ path := by
  obtain ⟨depth, inside⟩ := contains
  induction inside with
  | root => decide
  | @entry depth path name inside _ member induction =>
      rw [joinPath, List.mem_append, List.mem_cons]
      rintro (inPath | slash | inName)
      · exact induction inPath
      · exact absurd slash (by decide)
      · exact (named path ⟨depth, inside⟩ name member).1 inName

end Walk

section SameText

variable {setting : Setting} {first second : Tree}

structure SameTree (setting : Setting) (first second : Tree) : Prop where
  paths : ∀ path, first.Contains path ↔ second.Contains path
  alike : ∀ path, first.Contains path → setting.includeRoot = true ∨
    path ≠ ['.'] → Alike setting (first.lstat path) (second.lstat path)

/-- Every line that is written for a tree can be read back. -/
def ClearTree (setting : Setting) (tree : Tree) : Prop :=
  ∀ path, tree.Contains path → setting.includeRoot = true ∨ path ≠ ['.'] →
    Clear setting (tree.lstat path) path

theorem lines_inj {paths others : List Text} {text : Text}
    (clear : ∀ path ∈ paths, Clear setting (first.lstat path) path ∧
      '\n' ∉ path)
    (alsoClear : ∀ path ∈ others, Clear setting (second.lstat path) path ∧
      '\n' ∉ path)
    (lines : first.lines setting paths = some text)
    (alsoLines : second.lines setting others = some text) :
    paths = others ∧
      ∀ path ∈ paths, Alike setting (first.lstat path) (second.lstat path) := by
  have nonempty : ∀ {inode : Inode} {path line rest : Text},
      process setting inode path = some line → line ++ rest ≠ [] := by
    intro inode path line rest processed
    obtain ⟨owners, -, processed⟩ := Option.bind_eq_some_iff.mp processed
    cases processed
    exact List.cons_ne_nil _ _
  induction paths generalizing others text with
  | nil =>
      cases lines
      cases others with
      | nil => exact ⟨rfl, fun _ member => absurd member List.not_mem_nil⟩
      | cons other others =>
          obtain ⟨line, processed, alsoLines⟩ :=
            Option.bind_eq_some_iff.mp alsoLines
          obtain ⟨rest, -, whole⟩ := Option.bind_eq_some_iff.mp alsoLines
          exact absurd (Option.some.inj whole) (nonempty processed)
  | cons path paths induction =>
      obtain ⟨line, processed, lines⟩ := Option.bind_eq_some_iff.mp lines
      obtain ⟨rest, lines, whole⟩ := Option.bind_eq_some_iff.mp lines
      cases others with
      | nil =>
          cases alsoLines
          exact absurd (Option.some.inj whole) (nonempty processed)
      | cons other others =>
          obtain ⟨line', alsoProcessed, alsoLines⟩ :=
            Option.bind_eq_some_iff.mp alsoLines
          obtain ⟨behind, alsoLines, alsoWhole⟩ :=
            Option.bind_eq_some_iff.mp alsoLines
          rw [List.forall_mem_cons] at clear alsoClear
          obtain ⟨rfl, alike, rfl⟩ :=
            process_inj clear.1.1 alsoClear.1.1 clear.1.2
            alsoClear.1.2 processed alsoProcessed
            (Option.some.inj (whole.trans alsoWhole.symm))
          obtain ⟨rfl, others⟩ := induction clear.2 alsoClear.2 lines alsoLines
          exact ⟨rfl, List.forall_mem_cons.mpr ⟨alike, others⟩⟩

theorem sameTree_of_outhashText (named : Named first) (alsoNamed : Named second)
    (clear : ClearTree setting first) (alsoClear : ClearTree setting second)
    {text : Text} (hashed : outhashText setting first = some text)
    (alsoHashed : outhashText setting second = some text) :
    SameTree setting first second := by
  obtain ⟨lines, written, whole⟩ := Option.bind_eq_some_iff.mp hashed
  obtain ⟨lines', alsoWritten, alsoWhole⟩ :=
    Option.bind_eq_some_iff.mp alsoHashed
  obtain rfl : lines = lines' :=
    List.append_cancel_left (Option.some.inj (whole.trans alsoWhole.symm))
  have readable : ∀ {tree : Tree}, Named tree → ClearTree setting tree →
      ∀ path ∈ tree.walk setting.includeRoot (tree.height + 1) ['.'],
        Clear setting (tree.lstat path) path ∧ '\n' ∉ path := by
    intro tree named clear path member
    obtain ⟨contains, included⟩ := (mem_walk named).mp member
    exact ⟨clear path contains included, oneLine_of_contains named contains⟩
  obtain ⟨paths, alike⟩ :=
    lines_inj (readable named clear) (readable alsoNamed alsoClear)
    written alsoWritten
  constructor
  · intro path
    by_cases root : path = ['.']
    · subst root
      exact ⟨fun _ => ⟨0, .root⟩, fun _ => ⟨0, .root⟩⟩
    · have member : path ∈ first.walk setting.includeRoot (first.height + 1)
          ['.'] ↔ _ :=
        mem_walk named
      rw [paths, mem_walk alsoNamed] at member
      constructor
      · exact fun contains => (member.mpr ⟨contains, .inr root⟩).1
      · exact fun contains => (member.mp ⟨contains, .inr root⟩).1
  · exact fun path contains included =>
      alike path ((mem_walk named).mpr ⟨contains, included⟩)

end SameText

section Relisted

variable {setting : Setting} {tree other : Tree} {includeRoot : Bool}
  {depth : ℕ} {root path : Text}

/-- One tree, whose directories may be listed in another order and which may be
at another place. -/
structure Relisted (tree other : Tree) : Prop where
  lstat : ∀ path, tree.Contains path → other.lstat path = tree.lstat path
  listdir : ∀ path, tree.Contains path → (tree.lstat path).kind = .dir →
    (other.listdir path).Perm (tree.listdir path)

/-- The links lead to directories in both places or in none. -/
def SameLeads (tree other : Tree) : Prop :=
  ∀ path target, tree.Contains path → (tree.lstat path).kind = .lnk target →
    other.leads path = tree.leads path

theorem sorted_eq_of_perm {names others : List Text}
    (perm : names.Perm others) :
    Listing.sorted names = Listing.sorted others := by
  apply List.Perm.eq_of_pairwise' (r := (· ≤ ·))
  · exact List.pairwise_mergeSort' _ _
  · exact List.pairwise_mergeSort' _ _
  · exact ((List.mergeSort_perm _ _).trans perm).trans
      (List.mergeSort_perm _ _).symm

theorem isdir_relisted (relisted : Relisted tree other)
    (leads : SameLeads tree other)
    (contains : tree.Contains path) : other.isdir path = tree.isdir path := by
  rw [Listing.isdir, Listing.isdir, relisted.lstat path contains]
  cases kind : (tree.lstat path).kind with
  | lnk target => exact leads path target contains kind
  | _ => rfl

theorem islink_relisted (relisted : Relisted tree other)
    (contains : tree.Contains path) : other.islink path = tree.islink path := by
  rw [Listing.islink, Listing.islink, relisted.lstat path contains]

theorem contains_of_mem_dirs (inside : tree.Inside depth root)
    (isDir : (tree.lstat root).kind = .dir) :
    ∀ path ∈ (tree.dirs root).map (joinPath root), tree.Contains path := by
  intro path member
  obtain ⟨name, listed, rfl⟩ := List.mem_map.mp member
  exact ⟨depth + 1, .entry inside isDir (mem_dirs.mp listed).1⟩

section Directory

variable (relisted : Relisted tree other) (leads : SameLeads tree other)
  (inside : tree.Inside depth root) (isDir : (tree.lstat root).kind = .dir)

include relisted leads inside isDir

theorem dirs_relisted : other.dirs root = tree.dirs root := by
  have listed := relisted.listdir root ⟨depth, inside⟩ isDir
  apply sorted_eq_of_perm
  rw [List.filter_congr fun name member => isdir_relisted relisted leads
    ⟨depth + 1, .entry inside isDir (listed.mem_iff.mp member)⟩]
  exact listed.filter _

theorem files_relisted : other.files root = tree.files root := by
  have listed := relisted.listdir root ⟨depth, inside⟩ isDir
  apply sorted_eq_of_perm
  rw [List.filter_congr fun name member =>
    congrArg not (isdir_relisted relisted leads
    ⟨depth + 1, .entry inside isDir (listed.mem_iff.mp member)⟩)]
  exact listed.filter _

theorem processed_relisted :
    other.processed includeRoot root = tree.processed includeRoot root := by
  rw [Listing.processed, Listing.processed, files_relisted relisted leads inside
    isDir, dirs_relisted relisted leads inside isDir]
  congr 1
  exact List.filter_congr fun path member => islink_relisted relisted
    (contains_of_mem_dirs inside isDir path member)

theorem subdirs_relisted : other.subdirs root = tree.subdirs root := by
  rw [Listing.subdirs, Listing.subdirs, dirs_relisted relisted leads inside
    isDir]
  exact List.filter_congr fun path member =>
    congrArg not (islink_relisted relisted
    (contains_of_mem_dirs inside isDir path member))

end Directory

theorem walk_relisted (relisted : Relisted tree other)
    (leads : SameLeads tree other)
    (fuel : ℕ) (inside : tree.Inside depth root)
    (isDir : (tree.lstat root).kind = .dir) :
    other.walk includeRoot fuel root = tree.walk includeRoot fuel root := by
  induction fuel generalizing depth root with
  | zero => rfl
  | succ fuel induction =>
      rw [Listing.walk, Listing.walk, processed_relisted relisted leads inside
        isDir, subdirs_relisted relisted leads inside isDir]
      congr 1
      apply List.flatMap_congr
      intro path member
      obtain ⟨name, listed, rfl, subDir⟩ := mem_subdirs.mp member
      exact induction (.entry inside isDir listed) subDir

theorem walk_eq_of_enough {fuel more : ℕ} (enough : tree.height < fuel + depth)
    (alsoEnough : tree.height < more + depth) (inside : tree.Inside depth root)
    (isDir : (tree.lstat root).kind = .dir) :
    tree.walk includeRoot fuel root = tree.walk includeRoot more root := by
  induction fuel generalizing depth root more with
  | zero =>
      have lower := inside_lt_of_dir inside isDir
      omega
  | succ fuel induction =>
      cases more with
      | zero =>
          have lower := inside_lt_of_dir inside isDir
          omega
      | succ more =>
          rw [Listing.walk, Listing.walk]
          congr 1
          apply List.flatMap_congr
          intro path member
          obtain ⟨name, listed, rfl, subDir⟩ := mem_subdirs.mp member
          exact induction (by omega) (by omega) (.entry inside isDir listed)
            subDir

theorem lines_relisted (relisted : Relisted tree other) {paths : List Text}
    (contained : ∀ path ∈ paths, tree.Contains path) :
    other.lines setting paths = tree.lines setting paths := by
  induction paths with
  | nil => rfl
  | cons path paths induction =>
      rw [List.forall_mem_cons] at contained
      rw [Listing.lines, Listing.lines, relisted.lstat path contained.1,
        induction contained.2]

theorem outhashText_relisted (relisted : Relisted tree other)
    (leads : SameLeads tree other) :
    outhashText setting other = outhashText setting tree := by
  have walk : other.walk setting.includeRoot (other.height + 1) ['.'] =
      tree.walk setting.includeRoot (tree.height + 1) ['.'] := by
    let more := max other.height tree.height + 1
    calc
      other.walk setting.includeRoot (other.height + 1) ['.'] =
          other.walk setting.includeRoot more ['.'] :=
        walk_eq_of_enough (by omega) (by omega) .root other.root_dir
      _ = tree.walk setting.includeRoot more ['.'] :=
        walk_relisted relisted leads more .root tree.root_dir
      _ = tree.walk setting.includeRoot (tree.height + 1) ['.'] :=
        walk_eq_of_enough (by omega) (by omega) .root tree.root_dir
  rw [outhashText, outhashText, walk, lines_relisted relisted]
  intro path member
  exact (contains_of_mem_walk .root tree.root_dir member).1

end Relisted

/-- The text tells the trees apart that meet a condition, and is the same for
one tree. -/
structure Encodes (setting : Setting) (fine : Tree → Prop)
    (settled : Tree → Tree → Prop) : Prop where
  injective : ∀ first second text, Named first → Named second → fine first →
    fine second →
    outhashText setting first = some text →
      outhashText setting second = some text →
    SameTree setting first second
  stable : ∀ tree other, Relisted tree other → settled tree other →
    outhashText setting other = outhashText setting tree

section Example

/-- An output directory with one file. -/
def soleTree (name : Text) (entry : Inode) (rootTime : ℚ)
    (ok : name ≠ [] ∧ '/' ∉ name) (noDir : entry.kind ≠ .dir) : Tree where
  listdir path := if path = ['.'] then [name] else []
  lstat path :=
    if path = ['.'] then ⟨.dir, 0o777, none, none, rootTime⟩ else entry
  leads _ := false
  root_dir := rfl
  names path other member := by
    split_ifs at member
    · rw [List.mem_singleton.mp member]
      exact ok
    · cases member
  height := 1
  finite path inside := by
    cases inside with
    | entry =>
        rw [if_neg joinPath_ne_root]
        exact noDir

/-- An output directory with one symbolic link. -/
def linkTree (name target : Text) (ok : name ≠ [] ∧ '/' ∉ name) : Tree :=
  soleTree name ⟨.lnk target, 0o777, none, none, 0⟩ 0 ok nofun

def plainSetting : Setting where
  task := ['t']
  pseudoDisabled := none
  sourceDateEpoch := 0
  hashVersion := none
  extraSigdata := none
  sstatePkgspec := []
  sha256 _ := List.replicate 64 '0'
  length_sha256 _ := List.length_replicate

section Sole

variable {name path : Text} {entry : Inode} {rootTime : ℚ}
  {ok : name ≠ [] ∧ '/' ∉ name} {noDir : entry.kind ≠ .dir}

theorem contains_soleTree
    (contains : (soleTree name entry rootTime ok noDir).Contains path) :
    path = ['.'] ∨ path = joinPath ['.'] name := by
  obtain ⟨depth, inside⟩ := contains
  cases inside with
  | root => exact .inl rfl
  | @entry depth root other inside isDir member =>
      simp only [soleTree] at member
      split_ifs at member with isRoot
      · rw [isRoot, List.mem_singleton.mp member]
        exact .inr rfl
      · cases member

theorem lstat_soleTree :
    (soleTree name entry rootTime ok noDir).lstat (joinPath ['.'] name) =
      entry := by
  simp [soleTree, joinPath_ne_root]

theorem walk_soleTree (includeRoot : Bool)
    (unskipped : name ≠ Listing.fixmepath) :
    (soleTree name entry rootTime ok noDir).walk includeRoot 2 ['.'] =
      (if includeRoot then [['.']] else []) ++ [joinPath ['.'] name] := by
  have notDir : (soleTree name entry rootTime ok noDir).isdir
      (joinPath ['.'] name) = false := by
    rw [Listing.isdir, lstat_soleTree]
    cases kind : entry.kind with
    | dir => exact absurd kind noDir
    | _ => rfl
  have listed : (soleTree name entry rootTime ok noDir).listdir ['.'] =
      [name] := by
    simp [soleTree]
  have files : (soleTree name entry rootTime ok noDir).files ['.'] =
      [name] := by
    simp [Listing.files, Listing.sorted, listed, notDir]
  have dirs : (soleTree name entry rootTime ok noDir).dirs ['.'] = [] := by
    simp [Listing.dirs, Listing.sorted, listed, notDir]
  rw [Listing.walk, Listing.processed, Listing.subdirs, files, dirs]
  simp [unskipped]

theorem outhashText_soleTree (setting : Setting)
    (unskipped : name ≠ Listing.fixmepath) :
    outhashText setting (soleTree name entry rootTime ok noDir) =
      ((soleTree name entry rootTime ok noDir).lines setting
        ((if setting.includeRoot then [['.']] else []) ++
          [joinPath ['.'] name])).map (setting.header ++ ·) := by
  have walk : (soleTree name entry rootTime ok noDir).walk setting.includeRoot
      ((soleTree name entry rootTime ok noDir).height + 1) ['.'] = _ :=
    walk_soleTree setting.includeRoot unskipped
  rw [outhashText, walk]
  cases (soleTree name entry rootTime ok noDir).lines setting _ with
  | none => rfl
  | some lines => rfl

theorem named_soleTree (plain : '\n' ∉ name ∧ name ≠ Listing.fixmepath) :
    Named (soleTree name entry rootTime ok noDir) := by
  intro path _ other member
  simp only [soleTree] at member
  split_ifs at member
  · rw [List.mem_singleton.mp member]
    exact plain
  · cases member

end Sole

/-- The owners and the times of a package are considered. -/
def packageSetting : Setting :=
  { plainSetting with
    task := "package".toList
    pseudoDisabled := some ['0']
    sourceDateEpoch := 5 }

/-- A package with a file from after the epoch. -/
def packageTree (rootTime mtime : ℚ) : Tree :=
  soleTree ['a'] ⟨.reg [1, 2], 0o644, some "root".toList, some "users".toList,
    mtime⟩ rootTime ⟨by simp, by simp⟩ nofun

theorem clear_packageTree {rootTime mtime : ℚ} (late : 5 < mtime) :
    ClearTree packageSetting (packageTree rootTime mtime) := by
  rintro path contains (isRoot | notRoot)
  · cases isRoot
  obtain rfl := (contains_soleTree contains).resolve_left notRoot
  rw [packageTree, lstat_soleTree]
  constructor
  · exact nofun
  · intro _ sticky
    exact absurd sticky (by simp [Inode.has])
  · intro _
    constructor
    · rintro _ ⟨⟩
      exact ⟨by decide, by decide⟩
    · rintro _ ⟨⟩
      exact ⟨by decide, by decide⟩
  · intro _
    rw [Setting.clamped, if_pos (by exact late)]
    rfl

/-- The link `a -> b` to `c`. -/
def arrowTree : Tree :=
  linkTree ['a', ' ', '-', '>', ' ', 'b'] ['c'] ⟨by simp, by simp⟩

/-- The link `a` to `b -> c`. -/
def targetTree : Tree :=
  linkTree ['a'] ['b', ' ', '-', '>', ' ', 'c'] ⟨by simp, by simp⟩

end Example

end Nvbmc.OutHash
