import Nvbmc.OePatch.PatchText

/-!
# When the files of a patch are found

The scan is right as long as no line of a hunk is taken for the name of a file,
or such lines do no harm, and the names are read as they were written.
-/

namespace Nvbmc.OePatch

open Nvbmc.Library

/-- What the scan takes a line for, in the form of the file it belongs to. -/
inductive Look where
  | plain
  | old
  | new
  deriving DecidableEq

def look (copied : Bool) (line : Text) : Look :=
  if oldMarkOf copied <+: line then .old
  else if newMarkOf copied <+: line then .new
  else .plain

def readWord (name rest : Text) : Option Text :=
  (words (name ++ rest)).head?

/-- A word from which a path is read. -/
structure Proper (striplevel : ℕ) (word : Text) : Prop where
  notNull : ¬ devNull <:+ word
  long : striplevel ≤ (components word).length
  nonempty : stripPath striplevel word ≠ []

structure FileSection.Readable (file : FileSection) (striplevel : ℕ) :
    Prop where
  remains : file.new ≠ devNull
  old : file.old = devNull ∨
    ∃ word, readWord file.old file.oldRest = some word ∧ Proper striplevel word
  new : ∃ word, readWord file.new file.newRest = some word ∧
    Proper striplevel word ∧
    stripPath striplevel word = stripPath striplevel file.new

/-- Lines after a file's names whose look does no harm, with the look of the
line before: an old and a new name are not next to each other, and the scan is
not ended before the last file. -/
inductive Quiet (striplevel : ℕ) (copied final : Bool) :
    Look → List Text → Prop where
  | nil {last : Look} : final = true ∨ last ≠ .new →
      Quiet striplevel copied final last []
  | plain {last : Look} {line : Text} {lines : List Text} :
      look copied line = .plain → Quiet striplevel copied final .plain lines →
      Quiet striplevel copied final last (line :: lines)
  | name {last : Look} {line path : Text} {lines : List Text} :
      look copied line ≠ .plain → last = .plain ∨ last = look copied line →
      patchedpath striplevel line = .ok (some path) → path ≠ [] →
      Quiet striplevel copied final (look copied line) lines →
      Quiet striplevel copied final last (line :: lines)
  | stop {last : Look} {line : Text} {patchpth : Option Text}
      {lines : List Text} :
      final = true → look copied line ≠ .plain →
        patchedpath striplevel line = .ok patchpth →
      patchpth.filter (· ≠ []) = none →
        Quiet striplevel copied final last (line :: lines)

/-- Files that the scan finds, and whether a file before them was in context
form. -/
def Tame (striplevel : ℕ) : Bool → List FileSection → Prop
  | _, [] => True
  | copied, file :: files =>
      file.Readable striplevel ∧ (copied = true → file.copied = true) ∧
        Quiet striplevel file.copied files.isEmpty .plain
          (file.hunks.text ++ file.trailer) ∧
        Tame striplevel file.copied files

section Marks

variable {copied : Bool} {line : Text}

theorem head_of_oldMark (marked : oldMark <+: line) :
    line.head? = some '-' := by
  obtain ⟨rest, same⟩ := marked
  rw [← same]
  rfl

theorem head_of_newMark (marked : newMark <+: line) :
    line.head? = some '+' := by
  obtain ⟨rest, same⟩ := marked
  rw [← same]
  rfl

theorem head_of_copiedMark (marked : copiedMark <+: line) :
    line.head? = some '*' := by
  obtain ⟨rest, same⟩ := marked
  rw [← same]
  rfl

def Fits (copied : Bool) (line : Text) : Prop :=
  ¬ (if copied then newMark else copiedMark) <+: line

theorem unmarked_of_plain (fits : Fits copied line)
    (isPlain : look copied line = .plain) : Unmarked line := by
  rw [look] at isPlain
  split_ifs at isPlain with isOld isNew
  cases copied with
  | false => exact ⟨isOld, isNew, fits⟩
  | true => exact ⟨isNew, fits, isOld⟩

theorem fits_of_unmarked (unmarked : Unmarked line) : Fits copied line := by
  cases copied with
  | false => exact unmarked.2.2
  | true => exact unmarked.2.1

theorem look_of_unmarked (unmarked : Unmarked line) :
    look copied line = .plain := by
  cases copied with
  | false => exact (if_neg unmarked.1).trans (if_neg unmarked.2.1)
  | true => exact (if_neg unmarked.2.2).trans (if_neg unmarked.1)

end Marks

section Lines

variable {cwd line path : Text} {striplevel : ℕ} {srcdir : Option Text}
  {copied : Bool} {scan : Scan}

theorem readNames_of_unmarked (unmarked : Unmarked line) :
    readNames striplevel line scan =
      .ok (some { scan with
        removedfile := .absent, addedfile := .absent }) := by
  rw [readNames, if_neg unmarked.1, if_neg unmarked.2.1, if_neg unmarked.2.2]

theorem map_path {update : Text → Scan}
    (isPath : patchedpath striplevel line = .ok (some path))
    (nonempty : path ≠ []) :
    ((patchedpath striplevel line).map fun patchpth =>
      (patchpth.filter (· ≠ [])).map update) = .ok (some (update path)) := by
  rw [isPath]
  simp [Except.map, nonempty]

theorem readNames_of_old (isOld : look copied line = .old)
    (mode : scan.copiedmode = true → copied = true)
    (isPath : patchedpath striplevel line = .ok (some path))
    (nonempty : path ≠ []) :
    readNames striplevel line scan =
      .ok (some { scan with
        copiedmode := copied, removedfile := .path path }) := by
  have marked : oldMarkOf copied <+: line := by
    rw [look] at isOld
    split_ifs at isOld with marked
    exact marked
  cases copied with
  | false =>
      have notCopied : scan.copiedmode = false := by
        simpa using mode
      rw [readNames, if_pos (by exact marked), map_path isPath nonempty,
        notCopied]
      rfl
  | true =>
      have head := head_of_copiedMark marked
      have notOld : ¬ oldMark <+: line := by
        intro isMarked
        cases head.symm.trans (head_of_oldMark isMarked)
      have notNew : ¬ newMark <+: line := by
        intro isMarked
        cases head.symm.trans (head_of_newMark isMarked)
      rw [readNames, if_neg notOld, if_neg notNew, if_pos (by exact marked),
        map_path isPath nonempty]

theorem readNames_of_new (isNew : look copied line = .new)
    (mode : scan.copiedmode = copied)
    (isPath : patchedpath striplevel line = .ok (some path))
    (nonempty : path ≠ []) :
    readNames striplevel line scan =
      .ok (some { scan with addedfile := .path path }) := by
  have marked : newMarkOf copied <+: line := by
    rw [look] at isNew
    split_ifs at isNew with isOld marked
    exact marked
  cases copied with
  | false =>
      have notOld : ¬ oldMark <+: line := by
        intro isMarked
        cases (head_of_newMark marked).symm.trans (head_of_oldMark isMarked)
      rw [readNames, if_neg notOld, if_pos (by exact marked),
        map_path isPath nonempty]
  | true =>
      rw [readNames, if_pos (by exact marked), map_path isPath nonempty, mode]
      rfl

theorem readNames_of_named (named : look copied line ≠ .plain) :
    ∃ update : Text → Scan, readNames striplevel line scan =
      (patchedpath striplevel line).map fun patchpth =>
        (patchpth.filter (· ≠ [])).map update := by
  by_cases isOld : oldMark <+: line
  · exact ⟨_, if_pos isOld⟩
  · by_cases isNew : newMark <+: line
    · exact ⟨_, (if_neg isOld).trans (if_pos isNew)⟩
    · by_cases isCopied : copiedMark <+: line
      · exact ⟨_, (if_neg isOld).trans ((if_neg isNew).trans (if_pos isCopied))⟩
      · exact absurd (look_of_unmarked ⟨isOld, isNew, isCopied⟩) named

theorem readNames_of_empty {patchpth : Option Text}
    (named : look copied line ≠ .plain)
    (isPath : patchedpath striplevel line = .ok patchpth)
    (empty : patchpth.filter (· ≠ []) = none) : readNames striplevel line scan =
      .ok none := by
  obtain ⟨update, isUpdate⟩ := @readNames_of_named _ striplevel _ scan named
  rw [isUpdate, isPath]
  show Except.ok ((patchpth.filter (· ≠ [])).map update) = _
  rw [empty]
  rfl

theorem record_of_absent (absent : scan.addedfile = .absent) :
    record cwd srcdir scan = .ok scan := by
  rw [record, absent]

theorem record_of_removed (absent : scan.removedfile = .absent)
    (added : scan.addedfile = .path path) :
    record cwd srcdir scan = .ok scan := by
  rw [record, absent, added]

theorem scanLines_cons {lines : List Text} {named scanned : Scan}
    (isNamed : readNames striplevel line scan = .ok (some named))
    (isRecorded : record cwd srcdir named = .ok scanned) :
    scanLines cwd striplevel srcdir (line :: lines) scan =
      scanLines cwd striplevel srcdir lines scanned := by
  rw [scanLines, isNamed]
  simp only [isRecorded]

theorem scanLines_unmarked {lines : List Text} (unmarked : Unmarked line) :
    scanLines cwd striplevel srcdir (line :: lines) scan =
      scanLines cwd striplevel srcdir lines
        { scan with removedfile := .absent, addedfile := .absent } :=
  scanLines_cons (readNames_of_unmarked unmarked) (record_of_absent rfl)

end Lines

/-- The variables after a line of some look: only that look's name can be set.
-/
structure Stands (last : Look) (scan : Scan) : Prop where
  removed : last ≠ .old → scan.removedfile = .absent
  added : last ≠ .new → scan.addedfile = .absent

section Quiet

variable {cwd : Text} {striplevel : ℕ} {srcdir : Option Text}
  {copied final : Bool} {last : Look} {lines rest : List Text} {scan : Scan}

/-- A line that looks like a name, after a line that does not or looks the same,
makes no entry. -/
theorem scanLines_named {line path : Text} (named : look copied line ≠ .plain)
    (follows : last = .plain ∨ last = look copied line)
    (isPath : patchedpath striplevel line = .ok (some path))
    (nonempty : path ≠ [])
    (stands : Stands last scan) (mode : scan.copiedmode = copied) :
    ∃ scanned, Stands (look copied line) scanned ∧ scanned.copiedmode = copied ∧
      scanned.filelist = scan.filelist ∧
      scanLines cwd striplevel srcdir (line :: lines) scan =
        scanLines cwd striplevel srcdir lines scanned := by
  cases isLook : look copied line with
  | plain => exact absurd isLook named
  | old =>
      have notNew : last ≠ .new := by
        intro isNew
        rw [isLook, isNew] at follows
        rcases follows with same | same <;> cases same
      have absent := stands.added notNew
      have isNamed := @readNames_of_old _ _ striplevel _ scan isLook
        (fun isCopied => mode.symm.trans isCopied) isPath nonempty
      refine ⟨{ scan with copiedmode := copied, removedfile := .path path },
        ⟨fun other => absurd rfl other, fun _ => absent⟩, rfl, rfl, ?_⟩
      exact scanLines_cons isNamed (record_of_absent absent)
  | new =>
      have notOld : last ≠ .old := by
        intro isOld
        rw [isLook, isOld] at follows
        rcases follows with same | same <;> cases same
      have absent := stands.removed notOld
      have isNamed :=
        @readNames_of_new _ _ striplevel _ scan isLook mode isPath nonempty
      have isRecorded : record cwd srcdir { scan with
          addedfile := .path path } = .ok _ :=
        @record_of_removed _ path _ { scan with
          addedfile := .path path } absent rfl
      exact ⟨{ scan with addedfile := .path path },
        ⟨fun _ => absent, fun other => absurd rfl other⟩, mode, rfl,
        scanLines_cons isNamed isRecorded⟩

theorem scanLines_quiet (quiet : Quiet striplevel copied final last lines)
    (fits : ∀ line ∈ lines, Fits copied line) (stands : Stands last scan)
    (mode : scan.copiedmode = copied) (isLast : final = true → rest = []) :
    (final = true ∧ scanLines cwd striplevel srcdir (lines ++ rest) scan = .ok
      scan.filelist) ∨
      ∃ scanned, scanned.addedfile = .absent ∧ scanned.copiedmode = copied ∧
        scanned.filelist = scan.filelist ∧
        scanLines cwd striplevel srcdir (lines ++ rest) scan =
          scanLines cwd striplevel srcdir rest scanned := by
  induction quiet generalizing scan with
  | nil ends =>
      rcases ends with isFinal | notNew
      · rw [isLast isFinal]
        exact .inl ⟨isFinal, rfl⟩
      · exact .inr ⟨scan, stands.added notNew, mode, rfl, rfl⟩
  | @plain last line lines isPlain quiet induction =>
      rw [List.forall_mem_cons] at fits
      rw [List.cons_append,
        scanLines_unmarked (unmarked_of_plain fits.1 isPlain)]
      exact induction fits.2 ⟨fun _ => rfl, fun _ => rfl⟩ mode
  | @name last line path lines named follows isPath nonempty quiet induction =>
      rw [List.forall_mem_cons] at fits
      obtain ⟨scanned, stands', mode', same, isScan⟩ :=
        @scanLines_named cwd _ srcdir _ _
        (lines ++ rest) scan _ _ named follows isPath nonempty stands mode
      rw [List.cons_append, isScan, ← same]
      exact induction fits.2 stands' mode'
  | @stop last line patchpth lines isFinal named isPath empty =>
      rw [List.cons_append, scanLines, readNames_of_empty named isPath empty]
      exact .inl ⟨isFinal, rfl⟩

end Quiet

section Names

variable {striplevel : ℕ} {name rest word : Text}

theorem suffix_intercalate_drop (separator : Text) (pieces : List Text)
    (count : ℕ) :
    separator.intercalate (pieces.drop count) <:+ separator.intercalate
      pieces := by
  induction pieces generalizing count with
  | nil => simp
  | cons piece pieces induction =>
      cases count with
      | zero => exact List.suffix_rfl
      | succ count =>
          apply (induction count).trans
          cases pieces with
          | nil => simp
          | cons next pieces =>
              rw [List.intercalate_cons_of_ne_nil (List.cons_ne_nil _ _)]
              exact List.suffix_append _ _

theorem stripPath_suffix (path : Text) :
    stripPath striplevel path <:+ path := by
  have whole : ['/'].intercalate (components path) = path :=
    List.intercalate_splitOn '/'
  have isEnd := suffix_intercalate_drop ['/'] (components path) striplevel
  rwa [whole] at isEnd

theorem Proper.stripPath_ne (proper : Proper striplevel word) :
    stripPath striplevel word ≠ devNull := by
  intro same
  exact proper.notNull (same ▸ stripPath_suffix word)

theorem words_of_all {text : Text} (nonempty : text ≠ [])
    (unblank : (text.all fun char => !isspace char) = true) :
    words text = [text] := by
  apply words_of_unblank nonempty
  intro char member
  simpa using List.all_eq_true.mp unblank char member

theorem words_marked (mark text : Text) :
    words (mark ++ ' ' :: text ++ ['\n']) = words mark ++ words text := by
  rw [words_append_cons _ _ (by decide), words_append_cons _ _ (by decide),
    words_nil, List.append_nil]

theorem readWord_devNull (isRest : rest = [] ∨ rest.head? = some '\t') :
    readWord devNull rest = some devNull := by
  have alone : words devNull = [devNull] :=
    words_of_all (List.cons_ne_nil _ _) (by decide)
  rw [readWord]
  cases rest with
  | nil => rw [List.append_nil, alone, List.head?_cons]
  | cons char rest =>
      have isTab : char = '\t' := by
        rcases isRest with absent | isTab
        · cases absent
        · exact Option.some.inj isTab
      rw [isTab, words_append_cons _ _ (by decide), alone]
      rfl

theorem patchedpath_marked {mark : Text}
    (isMark : ∃ first, words mark = [first])
    (isRead : readWord name rest = some word) :
    patchedpath striplevel (mark ++ ' ' :: (name ++ rest) ++ ['\n']) =
      if devNull <:+ word then .ok (some devNull)
      else if (components word).length < striplevel then .ok none
      else .ok (some (stripPath striplevel word)) := by
  obtain ⟨first, isFirst⟩ := isMark
  obtain ⟨more, areWords⟩ := List.head?_eq_some_iff.mp isRead
  rw [patchedpath, words_marked, isFirst, areWords]
  rfl

theorem patchedpath_of_proper {mark : Text}
    (isMark : ∃ first, words mark = [first])
    (isRead : readWord name rest = some word)
    (proper : Proper striplevel word) :
    patchedpath striplevel (mark ++ ' ' :: (name ++ rest) ++ ['\n']) =
      .ok (some (stripPath striplevel word)) := by
  rw [patchedpath_marked isMark isRead, if_neg proper.notNull,
    if_neg (not_lt.mpr proper.long)]

end Names

section Sections

variable {cwd : Text} {striplevel : ℕ} {srcdir : Option Text}
  {file : FileSection} {scan : Scan} (copied : Bool)

theorem exists_stem_old :
    ∃ stem, oldMarkOf copied = stem ++ [' '] ∧ ∃ first,
      words stem = [first] := by
  cases copied with
  | false =>
      exact ⟨"---".toList, rfl, _, words_of_all (List.cons_ne_nil _ _)
        (by decide)⟩
  | true =>
      exact ⟨"***".toList, rfl, _, words_of_all (List.cons_ne_nil _ _)
        (by decide)⟩

theorem exists_stem_new :
    ∃ stem, newMarkOf copied = stem ++ [' '] ∧ ∃ first,
      words stem = [first] := by
  cases copied with
  | false =>
      exact ⟨"+++".toList, rfl, _, words_of_all (List.cons_ne_nil _ _)
        (by decide)⟩
  | true =>
      exact ⟨"---".toList, rfl, _, words_of_all (List.cons_ne_nil _ _)
        (by decide)⟩

theorem look_old (rest : Text) : look copied (oldMarkOf copied ++ rest) =
    .old :=
  if_pos (List.prefix_append _ _)

theorem look_new (rest : Text) : look copied (newMarkOf copied ++ rest) =
    .new := by
  have marked : newMarkOf copied <+: newMarkOf copied ++ rest :=
    List.prefix_append _ _
  have notOld : ¬ oldMarkOf copied <+: newMarkOf copied ++ rest := by
    intro isOld
    cases copied with
    | false => cases (head_of_newMark marked).symm.trans (head_of_oldMark isOld)
    | true =>
        cases (head_of_oldMark marked).symm.trans (head_of_copiedMark isOld)
  rw [look, if_neg notOld, if_pos marked]

theorem exists_old (valid : file.Valid striplevel)
    (readable : file.Readable striplevel) :
    ∃ path, path ≠ [] ∧ (path = devNull ↔ file.old = devNull) ∧
      patchedpath striplevel
        (oldMarkOf file.copied ++ (file.old ++ file.oldRest ++ ['\n'])) =
        .ok (some path) := by
  obtain ⟨stem, isStem, isWord⟩ := exists_stem_old file.copied
  have sameLine : oldMarkOf file.copied ++
      (file.old ++ file.oldRest ++ ['\n']) =
      stem ++ ' ' :: (file.old ++ file.oldRest) ++ ['\n'] := by
    simp [isStem]
  rw [sameLine]
  by_cases isNull : file.old = devNull
  · refine ⟨devNull, List.cons_ne_nil _ _, by simp [isNull], ?_⟩
    rw [isNull, patchedpath_marked isWord (readWord_devNull valid.oldRest),
      if_pos List.suffix_rfl]
  · obtain ⟨word, isRead, proper⟩ := readable.old.resolve_left isNull
    refine ⟨stripPath striplevel word, proper.nonempty, ?_,
      patchedpath_of_proper isWord isRead proper⟩
    simp [proper.stripPath_ne, isNull]

theorem new_read (readable : file.Readable striplevel) :
    stripPath striplevel file.new ≠ [] ∧
      stripPath striplevel file.new ≠ devNull ∧
      patchedpath striplevel
        (newMarkOf file.copied ++ (file.new ++ file.newRest ++ ['\n'])) =
        .ok (some (stripPath striplevel file.new)) := by
  obtain ⟨stem, isStem, isWord⟩ := exists_stem_new file.copied
  obtain ⟨word, isRead, proper, same⟩ := readable.new
  have sameLine : newMarkOf file.copied ++
      (file.new ++ file.newRest ++ ['\n']) =
      stem ++ ' ' :: (file.new ++ file.newRest) ++ ['\n'] := by
    simp [isStem]
  rw [sameLine, ← same]
  exact ⟨proper.nonempty, proper.stripPath_ne,
    patchedpath_of_proper isWord isRead proper⟩

theorem scanLines_names (valid : file.Valid striplevel)
    (readable : file.Readable striplevel) (absent : scan.addedfile = .absent)
    (mode : scan.copiedmode = true → file.copied = true)
    (rest : List Text) :
    ∃ scanned, scanned.copiedmode = file.copied ∧
      scanned.filelist = scan.filelist ++ [file.entry cwd striplevel srcdir] ∧
      scanLines cwd striplevel srcdir (file.text ++ rest) scan =
        scanLines cwd striplevel srcdir
          (file.hunks.text ++ file.trailer ++ rest) scanned := by
  obtain ⟨old, oldNonempty, isNull, oldPath⟩ := exists_old valid readable
  obtain ⟨newNonempty, notNull, newPath⟩ := new_read readable
  have isOld :=
    @readNames_of_old _ _ _ _ scan (look_old file.copied _) mode oldPath
      oldNonempty
  have isNew := @readNames_of_new _ _ _ _
    { scan with copiedmode := file.copied, removedfile := .path old }
    (look_new file.copied _) rfl newPath newNonempty
  refine ⟨⟨file.copied, .path old, .path (stripPath striplevel file.new),
    scan.filelist ++ [file.entry cwd striplevel srcdir]⟩, rfl, rfl, ?_⟩
  have isEntry : record cwd srcdir
      ⟨file.copied, .path old, .path (stripPath striplevel file.new),
        scan.filelist⟩ =
      .ok ⟨file.copied, .path old, .path (stripPath striplevel file.new),
        scan.filelist ++ [file.entry cwd striplevel srcdir]⟩ := by
    rw [record, FileSection.entry, if_neg readable.remains]
    simp only [notNull, isNull, if_false]
    split_ifs <;> rfl
  have sameLines : file.text ++ rest =
      (oldMarkOf file.copied ++ (file.old ++ file.oldRest ++ ['\n'])) ::
        (newMarkOf file.copied ++ (file.new ++ file.newRest ++ ['\n'])) ::
          (file.hunks.text ++ file.trailer ++ rest) := by
    simp [FileSection.text]
  rw [sameLines, scanLines_cons isOld (record_of_absent absent),
    scanLines_cons isNew isEntry]

theorem fits_hunks (hunks : Hunks) :
    ∀ line ∈ hunks.text, Fits hunks.copied line := by
  intro line member
  cases hunks with
  | unified first hunks =>
      -- The context mark starts with a star, no line of a unified hunk does.
      intro marked
      have head := head_of_copiedMark marked
      obtain ⟨hunk, -, inside⟩ := List.mem_flatMap.mp member
      rcases List.mem_cons.mp inside with isRange | isLine
      · cases (isRange ▸ head)
      · obtain ⟨⟨tag, text⟩, -, same⟩ := List.mem_map.mp isLine
        rw [← same, List.cons_append, List.head?_cons] at head
        cases tag <;> cases head
  | context first hunks =>
      intro marked
      obtain ⟨hunk, -, inside⟩ := List.mem_flatMap.mp member
      have noTagged : ∀ lines, line ∉ taggedLines lines := by
        intro lines isLine
        obtain ⟨⟨tag, text⟩, -, same⟩ := List.mem_map.mp isLine
        obtain ⟨rest, isMarked⟩ := marked
        rw [← same] at isMarked
        cases tag <;> cases isMarked
      have head := head_of_newMark marked
      rcases List.mem_cons.mp inside with isStars | inside
      · rw [isStars] at head
        cases head
      · rcases List.mem_cons.mp inside with isRange | inside
        · rw [isRange] at head
          cases head
        · rcases List.mem_append.mp inside with isLine | inside
          · exact noTagged _ isLine
          · rcases List.mem_cons.mp inside with isRange | isLine
            · rw [isRange] at head
              cases head
            · exact noTagged _ isLine

theorem hunks_begin (hunks : Hunks) :
    ∃ line lines, hunks.text = line :: lines ∧ Unmarked line := by
  cases hunks with
  | unified first hunks =>
      refine ⟨_, _, rfl, ?_, ?_, ?_⟩
      · intro marked
        cases head_of_oldMark marked
      · intro marked
        cases head_of_newMark marked
      · intro marked
        cases head_of_copiedMark marked
  | context first hunks =>
      refine ⟨_, _, rfl, ?_, ?_, ?_⟩
      · intro marked
        cases head_of_oldMark marked
      · intro marked
        cases head_of_newMark marked
      · intro marked
        obtain ⟨rest, same⟩ := marked
        cases same

end Sections

section Patches

variable {cwd : Text} {striplevel : ℕ} {srcdir : Option Text}
  {file : FileSection} {header : List Text} {files : List FileSection}
  {copied final : Bool} {scan : Scan}

theorem scanLines_file {rest : List Text} (valid : file.Valid striplevel)
    (readable : file.Readable striplevel)
    (quiet : Quiet striplevel file.copied final .plain
      (file.hunks.text ++ file.trailer))
    (absent : scan.addedfile = .absent)
    (mode : scan.copiedmode = true → file.copied = true)
    (isLast : final = true → rest = []) :
    (final = true ∧ scanLines cwd striplevel srcdir (file.text ++ rest) scan =
        .ok (scan.filelist ++ [file.entry cwd striplevel srcdir])) ∨
      ∃ scanned, scanned.addedfile = .absent ∧
        scanned.copiedmode = file.copied ∧
        scanned.filelist = scan.filelist ++ [file.entry cwd striplevel srcdir] ∧
        scanLines cwd striplevel srcdir (file.text ++ rest) scan =
          scanLines cwd striplevel srcdir rest scanned := by
  obtain ⟨named, namedMode, namedList, isNamed⟩ :=
    @scanLines_names cwd _ srcdir _ _ valid readable absent mode rest
  obtain ⟨first, lines, areLines, unmarked⟩ := hunks_begin file.hunks
  have fits : ∀ line ∈ first :: (lines ++ file.trailer),
      Fits file.copied line := by
    intro line member
    rw [← List.cons_append, ← areLines, List.mem_append] at member
    rcases member with inHunks | inTrailer
    · exact fits_hunks file.hunks line inHunks
    · exact fits_of_unmarked (valid.trailer line inTrailer)
  rw [areLines, List.cons_append] at quiet
  -- The names are forgotten at the first line behind them.
  have later : Quiet striplevel file.copied final .plain
      (lines ++ file.trailer) := by
    cases quiet with
    | plain isPlain quiet => exact quiet
    | name named => exact absurd (look_of_unmarked unmarked) named
    | stop isFinal named => exact absurd (look_of_unmarked unmarked) named
  have atEnd := @scanLines_quiet cwd _ srcdir _ _ _ _ rest
    { named with removedfile := .absent, addedfile := .absent } later
    (fun line member => fits line (.tail _ member)) ⟨fun _ => rfl, fun _ => rfl⟩
    namedMode isLast
  rw [isNamed, areLines, List.cons_append, List.cons_append,
    scanLines_unmarked unmarked, ← namedList]
  exact atEnd

theorem scanLines_files (valid : ∀ file ∈ files, file.Valid striplevel)
    (tame : Tame striplevel copied files) (absent : scan.addedfile = .absent)
    (mode : scan.copiedmode = copied) :
    scanLines cwd striplevel srcdir (files.flatMap FileSection.text) scan =
      .ok (scan.filelist ++
        files.map (FileSection.entry · cwd striplevel srcdir)) := by
  induction files generalizing copied scan with
  | nil => rw [List.flatMap_nil, scanLines, List.map_nil, List.append_nil]
  | cons file files induction =>
      rw [List.forall_mem_cons] at valid
      obtain ⟨readable, form, quiet, others⟩ := tame
      have isLast : files.isEmpty = true →
          files.flatMap FileSection.text = [] := by
        intro isEmpty
        rw [List.isEmpty_iff.mp isEmpty, List.flatMap_nil]
      rw [List.flatMap_cons, List.map_cons]
      rcases @scanLines_file cwd _ srcdir _ _ _ _ valid.1 readable quiet absent
        (fun isCopied => form (mode.symm.trans isCopied)) isLast with
        ⟨isFinal, isScan⟩ | ⟨scanned, absent', mode', isList, isScan⟩
      · rw [isScan, List.isEmpty_iff.mp isFinal, List.map_nil]
      · rw [isScan, induction valid.2 others absent' mode', isList,
          List.append_assoc, List.singleton_append]

theorem scanLines_header {lines : List Text}
    (plain : ∀ line ∈ header, Unmarked line) (nonempty : header ≠ []) :
    scanLines cwd striplevel srcdir (header ++ lines) scan =
      scanLines cwd striplevel srcdir lines
        { scan with removedfile := .absent, addedfile := .absent } := by
  induction header generalizing scan with
  | nil => exact absurd rfl nonempty
  | cons line header induction =>
      rw [List.forall_mem_cons] at plain
      rw [List.cons_append, scanLines_unmarked plain.1]
      cases header with
      | nil => rfl
      | cons next header => exact induction plain.2 (List.cons_ne_nil _ _)

theorem getPatchedFiles_ne_of_named (named : files ≠ []) :
    getPatchedFiles cwd striplevel srcdir (files.flatMap FileSection.text) ≠
      .ok (files.map (FileSection.entry · cwd striplevel srcdir)) := by
  cases files with
  | nil => exact absurd rfl named
  | cons file files =>
      have isOld := look_old file.copied (file.old ++ file.oldRest ++ ['\n'])
      have sameLines : (file :: files).flatMap FileSection.text =
          (oldMarkOf file.copied ++ (file.old ++ file.oldRest ++ ['\n'])) ::
            (file.text.tail ++ files.flatMap FileSection.text) := by
        simp [FileSection.text]
      rw [getPatchedFiles, sameLines, scanLines]
      generalize oldMarkOf file.copied ++ (file.old ++ file.oldRest ++ ['\n']) =
        line at isOld
      have isNamed : look file.copied line ≠ .plain := by
        rw [isOld]
        exact Look.noConfusion
      cases isPath : patchedpath striplevel line with
      | error error =>
          obtain ⟨update, isUpdate⟩ := @readNames_of_named _ striplevel _
            ⟨false, .unbound, .unbound, []⟩ isNamed
          rw [isUpdate, isPath]
          intro same
          cases same
      | ok patchpth =>
          cases isPatch : patchpth.filter (· ≠ []) with
          | none =>
              rw [readNames_of_empty isNamed isPath isPatch]
              intro same
              cases same
          | some path =>
              obtain ⟨isSome, nonempty⟩ := Option.filter_eq_some_iff.mp isPatch
              rw [isSome] at isPath
              rw [readNames_of_old isOld
                (fun isTrue => absurd isTrue Bool.false_ne_true) isPath
                (by simpa using nonempty)]
              intro same
              cases same

end Patches

section Sample

/-- One file, with a removed line that looks like its name. -/
def sampleFile : FileSection where
  old := "a/f".toList
  oldRest := []
  new := "b/f".toList
  newRest := []
  hunks := .unified
    ⟨"-1,2 +1 @@".toList, [(.removed, "-- a/g".toList), (.kept, [])]⟩ []
  trailer := []

theorem valid_sampleFile : sampleFile.Valid 1 where
  old := .inr ⟨List.cons_ne_nil _ _, by decide, by decide⟩
  new := .inr ⟨List.cons_ne_nil _ _, by decide, by decide⟩
  isFile := .inl (by decide)
  oldRest := .inl rfl
  newRest := .inl rfl
  trailer := fun _ member => absurd member List.not_mem_nil

theorem proper_sample (word : Text)
    (isName : word = "a/f".toList ∨ word = "b/f".toList) : Proper 1 word := by
  rcases isName with same | same <;> rw [same] <;> constructor <;> decide

theorem tame_sampleFile : Tame 1 false [sampleFile] := by
  refine ⟨⟨by decide,
    .inr ⟨"a/f".toList, by decide, proper_sample _ (.inl rfl)⟩,
    "b/f".toList, by decide, proper_sample _ (.inr rfl), by decide⟩,
    fun isTrue => isTrue, ?_, trivial⟩
  apply Quiet.plain
  · decide
  · apply @Quiet.name 1 false true _ _ "g".toList
    · decide
    · exact .inl rfl
    · decide
    · decide
    · apply Quiet.plain
      · decide
      · exact .nil (.inl rfl)

end Sample

end Nvbmc.OePatch
