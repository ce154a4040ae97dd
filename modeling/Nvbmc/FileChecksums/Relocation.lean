import Nvbmc.FileChecksums.Marks
import Nvbmc.Library.Sorting

/-!
# Moving a tree

What the files contribute to a task hash depends on names and checksums only, as
long as the path of a listed directory can be told from the paths below it.
-/

namespace Nvbmc.FileChecksums

open Nvbmc.Library SigGen

section Normpath

variable {path other pth slashes : Text} {names : List Text}

/-- Components that a normal form keeps, or that it goes up with. -/
def counts (component : Text) : Bool :=
  component ≠ [] && component ≠ dot

theorem foldl_counts {absolute : Bool} (parts kept : List Text) :
    (parts.filter counts).foldl (normComponent absolute) kept =
      parts.foldl (normComponent absolute) kept := by
  induction parts generalizing kept with
  | nil => rfl
  | cons part parts induction =>
      by_cases counted : counts part = true
      · rw [List.filter_cons_of_pos counted, List.foldl_cons, List.foldl_cons,
          induction]
      · have skipped : part = [] ∨ part = dot := by
          simp only [counts, Bool.and_eq_true, decide_eq_true_eq, not_and_or,
            not_not] at counted
          exact counted
        rw [List.filter_cons_of_neg counted, List.foldl_cons, induction,
          normComponent, if_pos skipped]

theorem normpath_congr (start : initialSlashes path = initialSlashes other)
    (same : (components path).filter counts =
      (components other).filter counts) :
    normpath path = normpath other := by
  have absolute : isabs path = isabs other := by
    have here := @initialSlashes_eq_nil path
    have there := @initialSlashes_eq_nil other
    rw [start] at here
    rw [Bool.eq_iff_iff, ← Bool.not_eq_false, ← Bool.not_eq_false, ← here,
      ← there]
  rw [normpath, normpath, start, absolute, ← foldl_counts, same, foldl_counts]

theorem initialSlashes_append (nonempty : pth ≠ [])
    (last : pth.getLast? ≠ some '/')
    (rest : Text) : initialSlashes (pth ++ rest) = initialSlashes pth := by
  have other : ∀ first text, first ≠ '/' →
      initialSlashes (first :: text) = [] := by
    intro first text noSlash
    rw [initialSlashes_eq_nil]
    simp [isabs, noSlash]
  obtain _ | ⟨first, _ | ⟨second, _ | ⟨third, more⟩⟩⟩ := pth
  · exact absurd rfl nonempty
  · have noSlash : first ≠ '/' := by simpa using last
    rw [List.singleton_append, other first _ noSlash, other first _ noSlash]
  · have noSlash : second ≠ '/' := by simpa using last
    by_cases slash : first = '/'
    · simp [initialSlashes, slash, noSlash]
    · rw [List.cons_append, other first _ slash, other first _ slash]
  · by_cases slash : first = '/'
    · by_cases also : second = '/'
      · by_cases third = '/' <;> simp [initialSlashes, *]
      · simp [initialSlashes, slash, also]
    · rw [List.cons_append, other first _ slash, other first _ slash]

theorem filter_components_slashes (isSlash : ∀ char ∈ slashes, char = '/') :
    (components slashes).filter counts = [] := by
  induction slashes with
  | nil => decide
  | cons char slashes induction =>
      rw [List.forall_mem_cons] at isSlash
      rw [isSlash.1, components_slash, List.filter_cons_of_neg (by decide)]
      exact induction isSlash.2

theorem normpath_between (nonempty : pth ≠ []) (last : pth.getLast? ≠ some '/')
    (isSlash : ∀ char ∈ slashes, char = '/') (rest : Text) :
    normpath (pth ++ slashes ++ '/' :: rest) =
      normpath (pth ++ marker ++ rest) := by
  have between : (components (pth ++ slashes)).filter counts =
      (components pth).filter counts := by
    cases slashes with
    | nil => rw [List.append_nil]
    | cons char slashes =>
        rw [List.forall_mem_cons] at isSlash
        rw [isSlash.1, components_append, List.filter_append,
          filter_components_slashes isSlash.2, List.append_nil]
  have marked : pth ++ marker ++ rest = pth ++ '/' :: (dot ++ '/' :: rest) := by
    simp [marker, dot]
  have dotSkipped : (components dot).filter counts = [] := by decide
  apply normpath_congr
  · rw [List.append_assoc, List.append_assoc,
      initialSlashes_append nonempty last, initialSlashes_append nonempty last]
  · rw [marked, components_append, components_append, components_append,
      List.filter_append,
      List.filter_append, List.filter_append, between, dotSkipped,
      List.nil_append]

theorem rstripSlashes_append (pth : Text) : ∃ slashes,
    pth = Host.rstripSlashes pth ++ slashes ∧ ∀ char ∈ slashes, char = '/' := by
  induction pth using List.reverseRecOn with
  | nil => exact ⟨[], rfl, by simp⟩
  | append_singleton pth last induction =>
      by_cases slash : last = '/'
      · obtain ⟨slashes, split, isSlash⟩ := induction
        refine ⟨slashes ++ [last], ?_, ?_⟩
        · rw [Host.rstripSlashes, List.rdropWhile_concat_pos _ _ _
            (by simpa using slash), ← List.append_assoc]
          exact congrArg (· ++ [last]) split
        · intro char member
          rcases List.mem_append.mp member with earlier | isLast
          · exact isSlash char earlier
          · exact (List.mem_singleton.mp isLast).trans slash
      · refine ⟨[], ?_, by simp⟩
        rw [Host.rstripSlashes, List.rdropWhile_concat_neg _ _ _
          (by simpa using slash), List.append_nil]

theorem getLast_rstripSlashes (pth : Text) : (Host.rstripSlashes pth).getLast? ≠
    some '/' := by
  intro slash
  have nonempty : Host.rstripSlashes pth ≠ [] := by
    intro empty
    rw [empty] at slash
    cases slash
  have last := List.rdropWhile_last_not (· = '/') pth nonempty
  rw [List.getLast?_eq_some_getLast nonempty, Option.some.injEq] at slash
  exact last (decide_eq_true slash)

theorem walkPath_listed (nonempty : Host.rstripSlashes pth ≠ [])
    (plain : ∀ name ∈ names, Plain name) (some : names ≠ []) :
    ∃ slashes, Host.walkPath pth names =
        Host.rstripSlashes pth ++ slashes ++ '/' :: relPath names ∧
      ∀ char ∈ slashes, char = '/' := by
  obtain ⟨slashes, split, isSlash⟩ := rstripSlashes_append pth
  rcases List.eq_nil_or_concat slashes with empty | ⟨front, last, concat⟩
  · rw [empty, List.append_nil] at split
    have stands : Stands pth pth [] :=
      .base (split ▸ nonempty) (split ▸ getLast_rstripSlashes pth)
    refine ⟨[], ?_, by simp⟩
    rw [walkPath_stands stands plain some, pathBelow_eq some, ← split,
      List.append_nil]
  · rw [List.concat_eq_append] at concat
    have lastSlash : last = '/' := isSlash last (by simp [concat])
    have stands : Stands (Host.rstripSlashes pth ++ front) pth [] := by
      have whole : pth = Host.rstripSlashes pth ++ front ++ ['/'] := by
        rw [List.append_assoc, ← lastSlash, ← concat, ← split]
      generalize Host.rstripSlashes pth ++ front = base at whole
      rw [whole]
      exact .root
    refine ⟨front, ?_, ?_⟩
    · rw [walkPath_stands stands plain some, pathBelow_eq some]
    · intro char member
      exact isSlash char (by simp [concat, member])

end Normpath

namespace Host

variable (host : Host)

def named (file name : Text) : Option (Text × Text) :=
  ((host.checksumFile file).filter (· ≠ [])).map fun checksum =>
    (name, checksum)

def readable (file : Text) : Prop :=
  (host.checksumFile file).filter (· ≠ []) ≠ none

def entryBelow (pth : Text) (names : List Text) : Option (Text × Text) :=
  host.named (walkPath pth names) ('.' :: '/' :: relPath names)

def entryOf (file : Text) : Option (Text × Text) :=
  host.named file (basename file)

def found (pth : Text) : List (List Text) :=
  (host.tree (rstripSlashes pth)).below host.localdirsexclude

/-- The relative paths and base names, with checksums, that a path of the list
stands for. -/
def collectPath (pth : Text) : List (Text × Text) :=
  if host.isdir pth then
    if host.islink pth then []
    else (host.found pth).filterMap (host.entryBelow pth)
  else (host.entryOf pth).toList

def collection (items : List (Text × Text)) : List (Text × Text) :=
  (items.flatMap host.expand).flatMap host.collectPath

/-- What stands for a file below a listed directory in the hash. -/
def put (pth : Text) (names : List Text) : Option (Text × Text) :=
  if rstripSlashes pth = [] then none
  else
    let fullpth := markedPath (rstripSlashes pth) names
    host.named fullpth (cleanChecksumFilePath fullpth)

/-- Each file below a directory is put down with its whole path relative to it,
and a single file with its base name. -/
def PutDown (pth : Text) : Prop :=
  if host.isdir pth then
    host.islink pth = true ∨
      (pth ≠ ['/'] ∧ ∀ names ∈ host.found pth,
        host.put pth names = host.entryBelow pth names)
  else host.named pth (cleanChecksumFilePath pth) = host.entryOf pth

/-- The paths of the files that can be read are legible. -/
def Legible (pth : Text) : Prop :=
  if host.isdir pth then
    host.islink pth = true ∨
      (pth ≠ ['/'] ∧ ∀ names ∈ host.found pth,
        host.readable (walkPath pth names) ∨ (rstripSlashes pth ≠ [] ∧
          host.readable (markedPath (rstripSlashes pth) names)) →
        LegibleBelow (rstripSlashes pth) names)
  else host.readable pth → ¬ marker <:+: pth

end Host

def canonicalText (collection : List (Text × Text)) : Text :=
  ((collection.mergeSort (byKeys Prod.fst Prod.snd)).map fun entry =>
    (if ['.', '/'].isPrefixOf entry.1 then entry.1 else []) ++ entry.2).flatten

section PutDown

variable {host : Host} {pth file other name : Text} {names root : List Text}

theorem checksumFile_congr (same : normpath file = normpath other) :
    host.checksumFile file = host.checksumFile other := by
  rw [Host.checksumFile, Host.checksumFile, getChecksum_fst, getChecksum_fst,
    same]

theorem plain_of_mem_walk {tree : Tree} {excluded : List Text} {depth : ℕ}
    (plain : ∀ name ∈ root, Plain name)
    (member : names ∈ tree.walk excluded depth root) :
    names ≠ [] ∧ ∀ name ∈ names, Plain name := by
  induction depth generalizing root with
  | zero => cases member
  | succ depth induction =>
      rw [Tree.walk] at member
      rcases List.mem_append.mp member with here | further
      · obtain ⟨isEntry, -⟩ := List.mem_filter.mp here
        obtain ⟨name, listed, same⟩ := List.mem_map.mp isEntry
        rw [← same]
        exact ⟨List.cons_ne_nil _ _,
          List.forall_mem_cons.mpr ⟨tree.plain root name listed, plain⟩⟩
      · obtain ⟨subdir, isSubdir, deeper⟩ := List.mem_flatMap.mp further
        obtain ⟨isEntry, -⟩ := List.mem_filter.mp isSubdir
        obtain ⟨name, listed, same⟩ := List.mem_map.mp isEntry
        apply @induction subdir _ deeper
        rw [← same]
        exact List.forall_mem_cons.mpr
          ⟨tree.plain root name (List.mem_filter.mp listed).1, plain⟩

theorem plain_of_mem_found (member : names ∈ host.found pth) :
    names ≠ [] ∧ ∀ name ∈ names, Plain name :=
  plain_of_mem_walk (by simp) member

theorem named_eq_none : host.named file name = none ↔ ¬ host.readable file := by
  rw [Host.named, Option.map_eq_none_iff, Host.readable, not_not]

theorem fst_of_named {entry : Text × Text}
    (put : host.named file name = some entry) : entry.1 = name := by
  obtain ⟨checksum, -, same⟩ := Option.map_eq_some_iff.mp put
  rw [← same]

theorem not_legibleBelow_nil : ¬ LegibleBelow [] names :=
  fun legible => legible.once List.nil_infix

theorem put_eq_iff (some : names ≠ []) (plain : ∀ name ∈ names, Plain name) :
    host.put pth names = host.entryBelow pth names ↔
      (host.readable (Host.walkPath pth names) ∨ (Host.rstripSlashes pth ≠ [] ∧
          host.readable (Host.markedPath (Host.rstripSlashes pth) names)) →
        LegibleBelow (Host.rstripSlashes pth) names) := by
  rw [Host.put]
  by_cases empty : Host.rstripSlashes pth = []
  · rw [if_pos empty, empty, eq_comm, Host.entryBelow, named_eq_none]
    have never := @not_legibleBelow_nil names
    simp only [ne_eq, not_true_eq_false, false_and, or_false]
    tauto
  · rw [if_neg empty]
    have last := getLast_rstripSlashes pth
    have clean := cleanChecksumFilePath_markedPath empty last plain some
    dsimp only
    constructor
    · intro right canRead
      by_contra illegible
      have different : cleanChecksumFilePath
          (Host.markedPath (Host.rstripSlashes pth) names) ≠ '.' :: '/' ::
            relPath names :=
        fun same => illegible (clean.mp same)
      have notRead : ¬ host.readable (Host.walkPath pth names) ∧
          ¬ host.readable (Host.markedPath (Host.rstripSlashes pth) names) := by
        rw [Host.entryBelow] at right
        rw [← @named_eq_none _ _ ('.' :: '/' :: relPath names), ← right,
          named_eq_none, and_self, ← @named_eq_none _ _ (cleanChecksumFilePath
            (Host.markedPath (Host.rstripSlashes pth) names))]
        cases put : host.named (Host.markedPath (Host.rstripSlashes pth) names)
            (cleanChecksumFilePath
              (Host.markedPath (Host.rstripSlashes pth) names)) with
        | none => rfl
        | some entry =>
            rw [put] at right
            exact absurd
              ((fst_of_named put).symm.trans (fst_of_named right.symm))
              different
      rcases canRead with reads | ⟨-, reads⟩
      · exact notRead.1 reads
      · exact notRead.2 reads
    · intro legibleIfRead
      by_cases legible : LegibleBelow (Host.rstripSlashes pth) names
      · obtain ⟨slashes, walked, isSlash⟩ := walkPath_listed empty plain some
        have marked := markedPath_of_once empty last plain some legible.once
        have sameFile :
            host.checksumFile (Host.markedPath (Host.rstripSlashes pth) names) =
            host.checksumFile (Host.walkPath pth names) := by
          apply checksumFile_congr
          rw [marked, walked, normpath_between empty last isSlash]
        rw [clean.mpr legible, Host.entryBelow, Host.named, Host.named,
          sameFile]
      · have noneReads := mt legibleIfRead legible
        rw [not_or, not_and] at noneReads
        rw [Host.entryBelow, named_eq_none.mpr noneReads.1,
          named_eq_none.mpr (noneReads.2 empty)]

theorem noSlash_basename (file : Text) : '/' ∉ basename file := by
  rw [basename, List.mem_reverse]
  intro member
  simpa using List.mem_takeWhile_imp member

theorem putDown_iff : host.PutDown pth ↔ host.Legible pth := by
  rw [Host.PutDown, Host.Legible]
  split_ifs with isDirectory
  · apply or_congr_right
    apply and_congr_right
    intro _
    apply forall₂_congr
    intro names member
    obtain ⟨some, plain⟩ := plain_of_mem_found member
    exact put_eq_iff some plain
  · rw [Host.entryOf]
    constructor
    · intro same canRead marked
      obtain ⟨entry, put⟩ := Option.ne_none_iff_exists'.mp
        (mt (@named_eq_none host pth (basename pth)).mp (not_not.mpr canRead))
      rw [put] at same
      have name := (fst_of_named same).symm.trans (fst_of_named put)
      rw [cleanChecksumFilePath, if_pos marked] at name
      apply noSlash_basename pth
      rw [← name]
      simp
    · intro unmarked
      by_cases canRead : host.readable pth
      · rw [cleanChecksumFilePath, if_neg (unmarked canRead)]
      · rw [named_eq_none.mpr canRead, named_eq_none.mpr canRead]

/-- A record as it is sorted and hashed. -/
def cleaned (record : Text × Text) : Text × Text :=
  (cleanChecksumFilePath record.1, record.2)

theorem map_cleaned_record :
    (host.record file).map cleaned =
      host.named file (cleanChecksumFilePath file) := by
  rw [Host.record, Host.named, Option.map_map]
  rfl

theorem checksum_ne_nil {record : Text × Text}
    (member : host.record file = some record) : record.2 ≠ [] := by
  obtain ⟨checksum, found, same⟩ := Option.map_eq_some_iff.mp member
  rw [← same]
  simpa using (Option.filter_eq_some_iff.mp found).2

theorem checksumPath_of_putDown (right : host.PutDown pth) :
    ∃ records, host.checksumPath pth = some records ∧
      records.map cleaned = host.collectPath pth ∧ ∀ record ∈ records,
        record.2 ≠ [] := by
  rw [Host.PutDown] at right
  rw [Host.checksumPath, Host.collectPath]
  split_ifs at right ⊢ with isDirectory isLink
  · exact ⟨[], rfl, rfl, by simp⟩
  · obtain ⟨notRoot, eachPut⟩ := right.resolve_left isLink
    rw [Host.checksumDir, if_neg notRoot]
    dsimp only
    split_ifs with empty
    · refine ⟨[], rfl, ?_, by simp⟩
      rw [List.map_nil, eq_comm, List.filterMap_eq_nil_iff]
      intro names member
      rw [← eachPut names member, Host.put, if_pos empty]
    · refine ⟨_, rfl, ?_, ?_⟩
      · rw [List.map_filterMap]
        apply List.filterMap_congr
        intro names member
        rw [map_cleaned_record, ← eachPut names member, Host.put, if_neg empty]
      · intro record member
        obtain ⟨names, _, recorded⟩ := List.mem_filterMap.mp member
        exact checksum_ne_nil recorded
  · refine ⟨_, rfl, ?_, ?_⟩
    · rw [← right, ← map_cleaned_record]
      cases host.record pth <;> rfl
    · intro record member
      exact checksum_ne_nil (Option.mem_toList.mp member)

theorem gather_of_putDown {paths : List Text}
    (right : ∀ pth ∈ paths, host.PutDown pth) :
    ∃ records, host.gather paths = some records ∧
      records.map cleaned = paths.flatMap host.collectPath ∧
      ∀ record ∈ records, record.2 ≠ [] := by
  induction paths with
  | nil => exact ⟨[], rfl, rfl, by simp⟩
  | cons pth paths induction =>
      rw [List.forall_mem_cons] at right
      obtain ⟨first, found, firstClean, firstSome⟩ :=
        checksumPath_of_putDown right.1
      obtain ⟨rest, gathered, restClean, restSome⟩ := induction right.2
      refine ⟨first ++ rest, ?_, ?_, ?_⟩
      · rw [Host.gather, found, gathered]
        rfl
      · rw [List.map_append, firstClean, restClean, List.flatMap_cons]
      · intro record member
        rcases List.mem_append.mp member with here | later
        · exact firstSome record here
        · exact restSome record later

theorem pieceText_cleaned (record : Text × Text) :
    (if ['.', '/'].isPrefixOf (cleaned record).1 then (cleaned record).1
     else []) ++ (cleaned record).2 =
      (if marker <:+: record.1 then '.' :: '/' :: behindMarker record.1
       else []) ++ record.2 := by
  rw [cleaned, cleanChecksumFilePath]
  by_cases marked : marker <:+: record.1
  · rw [if_pos marked, if_pos marked, if_pos]
    rfl
  · rw [if_neg marked, if_neg marked, if_neg]
    rw [List.isPrefixOf_iff_prefix]
    intro starts
    exact noSlash_basename record.1 (starts.subset (by simp))

theorem checksumsText_eq {records : List (Text × Text)}
    (some : ∀ record ∈ records, record.2 ≠ []) :
    checksumsText (records.map fun record => (record.1, Option.some record.2)) =
      ((records.map cleaned).map fun entry =>
        (if ['.', '/'].isPrefixOf entry.1 then entry.1 else []) ++
          entry.2).flatten := by
  induction records with
  | nil => rfl
  | cons record records induction =>
      rw [List.forall_mem_cons] at some
      rw [List.map_cons, checksumsText, induction some.2, List.map_cons,
        List.map_cons,
        List.flatten_cons, pieceText_cleaned, textOf, Option.getD_some,
        if_neg some.1]

theorem map_cleaned_sorted (records : List (Text × Text)) :
    ((records.mergeSort fun first second => first.2 ≤ second.2).mergeSort
        fun first second => cleanChecksumFilePath first.1 ≤
          cleanChecksumFilePath second.1).map cleaned =
      (records.map cleaned).mergeSort (byKeys Prod.fst Prod.snd) := by
  apply @eq_of_pairwise_byKeys _ _ _ _ _ Prod.fst Prod.snd
  · intro item other sameName sameChecksum
    exact Prod.ext sameName sameChecksum
  · rw [List.pairwise_map]
    exact pairwise_mergeSort_mergeSort
  · exact pairwise_mergeSort_byKeys
  · apply List.Perm.trans _ (List.mergeSort_perm _ _).symm
    exact ((List.mergeSort_perm _ _).trans (List.mergeSort_perm _ _)).map
      cleaned

theorem filesText_of_gather {items : List (Text × Text)}
    {records : List (Text × Text)}
    (gathered : host.gather (items.flatMap host.expand) = some records)
    (some : ∀ record ∈ records, record.2 ≠ []) :
    host.filesText items =
      Option.some (canonicalText (records.map cleaned)) := by
  have sortedSome : ∀ record ∈ (records.mergeSort fun first second =>
      first.2 ≤ second.2).mergeSort fun first second =>
        cleanChecksumFilePath first.1 ≤ cleanChecksumFilePath second.1,
        record.2 ≠ [] := by
    intro record member
    rw [List.mem_mergeSort, List.mem_mergeSort] at member
    exact some record member
  have sorted : sortedChecksums ((records.mergeSort fun first second =>
        first.2 ≤ second.2).map fun record =>
          (record.1, Option.some record.2)) =
      ((records.mergeSort fun first second => first.2 ≤ second.2).mergeSort
        fun first second =>
        cleanChecksumFilePath first.1 ≤ cleanChecksumFilePath second.1).map
          fun record => (record.1, Option.some record.2) := by
    rw [sortedChecksums, eq_comm]
    apply List.map_mergeSort
    intro first _ second _
    rfl
  rw [Host.filesText, Host.getChecksums, gathered, Option.map_some,
    Option.map_some, sorted,
    checksumsText_eq sortedSome, map_cleaned_sorted, canonicalText]

theorem canonicalText_perm {collection others : List (Text × Text)}
    (perm : collection.Perm others) :
    canonicalText collection = canonicalText others := by
  have sameOrder : collection.mergeSort (byKeys Prod.fst Prod.snd) =
      others.mergeSort (byKeys Prod.fst Prod.snd) := by
    apply @eq_of_pairwise_byKeys _ _ _ _ _ Prod.fst Prod.snd
    · intro item other sameName sameChecksum
      exact Prod.ext sameName sameChecksum
    · exact pairwise_mergeSort_byKeys
    · exact pairwise_mergeSort_byKeys
    · exact ((List.mergeSort_perm _ _).trans perm).trans
        (List.mergeSort_perm _ _).symm
  rw [canonicalText, canonicalText, sameOrder]

/-- Each file has its place in the text, which is that of the collection in any
order. -/
structure Faithful (host : Host) (items : List (Text × Text)) : Prop where
  putDown : ∀ pth ∈ items.flatMap host.expand, host.PutDown pth
  determined : ∀ collection : List (Text × Text),
    collection.Perm (host.collection items) →
    host.filesText items = some (canonicalText collection)

theorem faithful_of_legible {items : List (Text × Text)}
    (legible : ∀ pth ∈ items.flatMap host.expand, host.Legible pth) :
    Faithful host items := by
  have right : ∀ pth ∈ items.flatMap host.expand, host.PutDown pth :=
    fun pth member => putDown_iff.mpr (legible pth member)
  refine ⟨right, ?_⟩
  intro collection perm
  obtain ⟨records, gathered, clean, some⟩ := gather_of_putDown right
  rw [filesText_of_gather gathered some, clean, canonicalText_perm perm]
  rfl

/-- The files contribute a text that their collection determines, with the whole
relative path of each, if and only if the paths of all of them are legible. -/
theorem filesText_faithful_iff (host : Host) (items : List (Text × Text)) :
    Faithful host items ↔ ∀ pth ∈ items.flatMap host.expand,
      host.Legible pth := by
  constructor
  · intro faithful pth member
    exact putDown_iff.mp (faithful.putDown pth member)
  · exact faithful_of_legible

end PutDown

/-- The tree with the one file `x/a/y`. -/
def nestedTree : Tree where
  listdir root :=
    if root = [] then [['x']]
    else if root = [['x']] then [['a']]
    else if root = [['a'], ['x']] then [['y']]
    else []
  kind names := if names.length = 3 then .file else .dir
  plain := by
    intro root name member
    have isName : name = ['x'] ∨ name = ['a'] ∨ name = ['y'] := by
      split_ifs at member <;> simp_all
    rcases isName with same | same | same <;> subst same <;>
      exact ⟨by decide, by decide, by decide, by decide⟩
  height := 3
  finite := by
    intro root deep
    match root with
    | [] | [_] | [_, _] => simp at deep
    | _ :: _ :: _ :: _ => simp

/-- A file system in which that tree stands at `/a`. -/
def nestedHost : Host where
  isdir pth := pth = "/a".toList
  islink _ := false
  glob _ := []
  tree _ := nestedTree
  files := ⟨fun _ => some 1, fun file =>
    if file = "/a/x/a/y".toList then some ['c'] else none⟩
  cache := ⟨createCachedata, createCachedata, []⟩
  localdirsexclude := []

/-- The file is put down as `x/a`. -/
theorem not_faithful_nested :
    ¬ Faithful nestedHost [("/a".toList, boolText true)] := by
  intro faithful
  have right := faithful.putDown "/a".toList (by decide)
  rw [Host.PutDown, if_pos (by decide)] at right
  have eachPut :=
    (right.resolve_left (by decide)).2 [['y'], ['a'], ['x']] (by decide)
  have put : nestedHost.put "/a".toList [['y'], ['a'], ['x']] =
      some ("./x/a".toList, ['c']) := by
    decide +kernel
  have entry : nestedHost.entryBelow "/a".toList [['y'], ['a'], ['x']] =
      some ("./x/a/y".toList, ['c']) := by
    decide +kernel
  rw [put, entry] at eachPut
  exact absurd eachPut (by decide)

end Nvbmc.FileChecksums
