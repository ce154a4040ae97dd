import Nvbmc.OePatch.Tree

/-!
# Runs of a patch tree

The position, the series file and the applied patches over a sequence of calls.
-/

namespace Nvbmc.OePatch

open Nvbmc.Library Nvbmc.Parse

inductive Call where
  | importPatch (patch : Patch)
  | push (outcome : Outcome) (force all : Bool)
  | pop (outcome : Outcome) (all : Bool)
  | clean (outcome : Outcome)

variable (dir : Text) (fetcher : Fetcher)

namespace PatchTree

def perform (tree : PatchTree) : Call → Ending Failure PatchTree
  | .importPatch patch => importPatch fetcher patch tree
  | .push outcome force all => push dir outcome force all tree
  | .pop outcome all => pop dir outcome all tree
  | .clean outcome => clean dir outcome tree

def performAll (tree : PatchTree) (calls : List Call) : PatchTree :=
  calls.foldl (fun tree call => (tree.perform dir fetcher call).2) tree

def series (tree : PatchTree) : List Text :=
  (tree.host.files (seriespath dir)).elim [] readlines

/-- A tree with nothing imported and nothing applied. -/
structure Fresh (tree : PatchTree) : Prop where
  absolute : isabs dir = true
  patches : tree.patches = []
  current : tree.current = none
  applied : tree.host.applied = []
  series : tree.host.files (seriespath dir) = none ∨
    tree.host.files (seriespath dir) = some []

end PatchTree

def Applied.line (applied : Applied) : Text :=
  seriesLine applied.file applied.strippath

def Applied.Of (applied : Applied) (patch : Patch) : Prop :=
  patch.file = some applied.file ∧
    patch.strippath = some (.text applied.strippath)

/-- The position and the series file say what is applied. -/
structure Listed (tree : PatchTree) : Prop where
  unapplied : tree.host.applied = [] → tree.current = none
  position : ∀ earlier last, tree.host.applied = earlier ++ [last] →
    ∃ i patch, tree.current = some (.index i) ∧ tree.patches[i]? = some patch ∧
      last.Of patch
  series : tree.series dir = tree.host.applied.map Applied.line

/-- There is no patch to push, or none to pop. -/
def BeyondEnd (tree : PatchTree) : Call → Prop
  | .push _ _ false => tree.patches.length ≤ tree.host.applied.length
  | .pop _ false => tree.host.applied = []
  | _ => False

/-- What a call does in a tree is as promised. -/
structure Lawful (tree : PatchTree) (call : Call) : Prop where
  listed : Listed dir (tree.perform dir fetcher call).2
  popped : ∀ outcome, call = .pop outcome false →
    (tree.perform dir fetcher call).1 = .ok () →
    (tree.perform dir fetcher call).2.host.applied = tree.host.applied.dropLast
  failed : (tree.perform dir fetcher call).1 = .error .applying →
    (tree.perform dir fetcher call).2.current = tree.current ∧
      (tree.perform dir fetcher call).2.series dir = tree.series dir
  raised : ∀ error, (tree.perform dir fetcher call).1 = .error error →
    error = .applying ∨ error = .indexError ∧ BeyondEnd tree call

def Applies (outcome : Outcome) (host : Host) (file strippath : Text)
    (force reverse : Bool) : Prop :=
  outcome.succeeds host ⟨file, strippath, reverse, !force⟩ = true ∧
    (force = false →
      outcome.succeeds host ⟨file, strippath, reverse, false⟩ = true)

/-- The copy can be made and is not the series file, and the line is one line.
-/
structure Writable (file strippath : Text) : Prop where
  absolute : isabs file = true
  word : isShellWord (copypath dir file) = true
  copy : pathBasename file ≠ "series".toList
  newline : '\n' ∉ pathBasename file ++ strippath
  carriage : '\r' ∉ pathBasename file ++ strippath

/-- What `Pop` reads in a line of the series file. -/
def lineFields (line : Text) : List Text :=
  (joinPaths (patchdir dir) (strip line)).splitOn ','

def Legible (applied : Applied) : Prop :=
  ∀ file strippath rest, lineFields dir applied.line = file :: strippath ::
    rest → isShellWord file = true ∧ isShellWord strippath = true

/-- If the reversal of what its line names succeeds, it is the reversal of this
patch. -/
def Restorable (host : Host) (applied : Applied) : Prop :=
  ∀ file strippath rest, lineFields dir applied.line = file :: strippath ::
    rest → (host.contents dir file).getD [] = applied.contents ∧
      strippath = applied.strippath

def Reverts (outcome : Outcome) (host : Host) (applied : Applied) : Prop :=
  ∀ file strippath rest, lineFields dir applied.line = file :: strippath ::
    rest → Applies outcome host file strippath false true

/-- Each reversal succeeds, and is that of the patch, once the later patches are
reverted. -/
def RevertsAll (outcome : Outcome) (host : Host) : Prop :=
  ∀ front applied behind, host.applied = front ++ applied :: behind →
    Legible dir applied ∧ Restorable dir host applied ∧
      Reverts dir outcome { host with applied := front ++ [applied] } applied

/-- A call that the tree handles as promised. -/
def Harmless (tree : PatchTree) : Call → Prop
  | .importPatch patch =>
      ∃ file, PatchTree.importedPath fetcher patch = some file ∧
      (tree.host.files file).isSome
  | .push outcome force false =>
      ∀ patch, tree.patches[tree.host.applied.length]? = some patch →
        ∃ file strippath, patch.file = some file ∧
          patch.strippath = some (.text strippath) ∧
          isShellWord file = true ∧ isShellWord strippath = true ∧
          (Applies outcome tree.host file strippath force false →
            force = false ∧ Writable dir file strippath)
  | .push outcome force true =>
      ∀ patch rest, tree.patches = patch :: rest →
        ∃ file strippath, patch.file = some file ∧
          patch.strippath = some (.text strippath) ∧
          isShellWord file = true ∧ isShellWord strippath = true ∧
          ¬ Applies outcome tree.host file strippath force false
  | .pop outcome false =>
      ∀ earlier last, tree.host.applied = earlier ++ [last] →
        Legible dir last ∧
          (Reverts dir outcome tree.host last → Restorable dir tree.host last)
  | .pop outcome true | .clean outcome =>
      ∀ earlier last, tree.host.applied = earlier ++ [last] →
        Legible dir last ∧
          (Reverts dir outcome tree.host last →
            RevertsAll dir outcome tree.host)

/-- The position of the last of so many patches. -/
def positionOf : ℕ → Option Current
  | 0 => none
  | n + 1 => some (.index n)

/-- The applied patches are the first ones of the list, and the series file has
their lines. -/
structure Tracked (tree : PatchTree) : Prop where
  absolute : isabs dir = true
  current : tree.current = positionOf tree.host.applied.length
  front : ∀ (i : ℕ) (applied : Applied), tree.host.applied[i]? = some applied →
    ∃ patch, tree.patches[i]? = some patch ∧ applied.Of patch
  present : ∀ patch ∈ tree.patches, ∃ file strippath, patch.file = some file ∧
    patch.strippath = some strippath ∧ (tree.host.files file).isSome
  series : tree.host.files (seriespath dir) =
      some (tree.host.applied.map Applied.line).flatten ∨
    tree.host.files (seriespath dir) = none ∧ tree.host.applied = []
  writable : ∀ applied ∈ tree.host.applied,
    Writable dir applied.file applied.strippath

variable {dir fetcher} {tree : PatchTree} {outcome : Outcome}

theorem readlines_lines {applied : List Applied}
    (writable : ∀ entry ∈ applied, Writable dir entry.file entry.strippath) :
    readlines (applied.map Applied.line).flatten =
      applied.map Applied.line := by
  have asLines : applied.map Applied.line =
      (applied.map fun entry => pathBasename entry.file ++ ',' ::
        entry.strippath).map (· ++ ['\n']) := by
    simp [Applied.line, seriesLine, Function.comp_def]
  rw [asLines]
  apply readlines_flatten
  intro line member
  obtain ⟨entry, isEntry, same⟩ := List.mem_map.mp member
  have clean := writable entry isEntry
  have newline := clean.newline
  have carriage := clean.carriage
  simp only [List.mem_append, not_or] at newline carriage
  rw [← same]
  simp [newline, carriage]

namespace Tracked

variable (tracked : Tracked dir tree)
include tracked

theorem length_le : tree.host.applied.length ≤ tree.patches.length := by
  by_contra long
  obtain ⟨patch, found, _⟩ :=
    tracked.front tree.patches.length _
      (List.getElem?_eq_getElem (not_le.mp long))
  simp at found

theorem series_eq : tree.series dir = tree.host.applied.map Applied.line := by
  rw [PatchTree.series]
  rcases tracked.series with isLines | ⟨isNone, unapplied⟩
  · rw [isLines]
    exact readlines_lines tracked.writable
  · rw [isNone, unapplied]
    rfl

theorem listed : Listed dir tree := by
  constructor
  · intro unapplied
    rw [tracked.current, unapplied]
    rfl
  · intro earlier last isLast
    have isEntry : tree.host.applied[earlier.length]? = some last := by
      simp [isLast]
    obtain ⟨patch, found, isOf⟩ := tracked.front _ _ isEntry
    refine ⟨earlier.length, patch, ?_, found, isOf⟩
    rw [tracked.current, isLast, List.length_append]
    rfl
  · exact tracked.series_eq

end Tracked

theorem joinPaths_of_isabs {path name : Text} (absolute : isabs name = true) :
    joinPaths path name = name :=
  if_pos absolute

theorem isabs_copypath (absolute : isabs dir = true) (file : Text) :
    isabs (copypath dir file) = true := by
  obtain ⟨char, rest, rfl⟩ : ∃ char rest, dir = char :: rest := by
    cases dir with
    | nil => cases absolute
    | cons char rest => exact ⟨char, rest, rfl⟩
  have relative : isabs "patches".toList = false := by decide
  rw [copypath, patchdir, joinPaths, relative, if_neg Bool.false_ne_true]
  split <;> exact absolute

theorem copypath_ne {file : Text}
    (clean : pathBasename file ≠ "series".toList) :
    copypath dir file ≠ seriespath dir := by
  have ends : (patchdir dir).getLast? = some 's' := by
    rw [patchdir, joinPaths]
    split_ifs <;> simp
  have below : seriespath dir = patchdir dir ++ '/' :: "series".toList := by
    have nonempty : patchdir dir ≠ [] := by
      intro empty
      rw [empty] at ends
      cases ends
    have noSlash : (patchdir dir).getLast? ≠ some '/' := by
      rw [ends]
      decide
    have relative : isabs "series".toList = false := by decide
    rw [seriespath, joinPaths, ← patchdir]
    simp only [relative, nonempty, noSlash]
    simp
  rw [below, copypath]
  simpa using clean

theorem isSome_write {host : Host} {path path' contents : Text}
    (isFile : (host.files path).isSome) :
    ((host.write path' contents).files path).isSome := by
  rw [Host.write]
  by_cases same : path = path'
  · subst same
    simp
  · simpa [Function.update_of_ne same] using isFile

namespace PatchTree

theorem appendPatchFile_spec {file strippath : Text}
    (isFile : (tree.host.files file).isSome) (absolute : isabs dir = true)
    (word : isShellWord file = true) (writable : Writable dir file strippath) :
    ∃ host : Host, appendPatchFile dir outcome file strippath tree =
        (.ok (), { tree with host := host }) ∧
      host.applied = tree.host.applied ∧
      host.files (seriespath dir) =
        some ((tree.host.files (seriespath dir)).getD [] ++
          seriesLine file strippath) ∧
      ∀ path, (tree.host.files path).isSome → (host.files path).isSome := by
  have other := (@copypath_ne dir file writable.copy).symm
  let opened := (tree.host.write (seriespath dir)
    ((tree.host.files (seriespath dir)).getD [] ++
      seriesLine file strippath)).write (copypath dir file) []
  have kept : (opened.files file).isSome := isSome_write (isSome_write isFile)
  obtain ⟨contents, isContents⟩ := Option.isSome_iff_exists.mp kept
  refine ⟨opened.write (copypath dir file) contents, ?_, rfl, ?_, ?_⟩
  · rw [appendPatchFile]
    simp only [opened] at isContents
    simp only [word, writable.word, Bool.and_self, if_true, Host.contents,
      joinPaths_of_isabs writable.absolute,
      joinPaths_of_isabs (isabs_copypath absolute file), isContents]
    rfl
  · simp [opened, Host.write, Function.update_of_ne other]
  · intro path isPath
    apply isSome_write
    exact isSome_write (isSome_write isPath)

variable {patch : Patch} {file strippath : Text} {force : Bool}
  (isFile : patch.file = some file) (word : isShellWord file = true)
  (level : isShellWord strippath = true)
include isFile word level

theorem applypatch_error
    (isStrippath : patch.strippath = some (.text strippath)) {reverse : Bool}
    (fails : ¬ Applies outcome tree.host file strippath force reverse) :
    applypatch dir outcome patch force reverse tree =
      (.error .applying, tree) := by
  rw [applypatch]
  simp only [isFile, isStrippath, Host.runcmd, Application.isPlain, word, level,
    Bool.and_self, if_true]
  rw [Applies, not_and_or] at fails
  rcases fails with trial | second
  · simp [trial]
  · cases force with
    | true => simp at second
    | false =>
        have second :
            outcome.succeeds tree.host ⟨file, strippath, reverse, false⟩ =
              false := by
          simpa using second
        by_cases trial :
          outcome.succeeds tree.host ⟨file, strippath, reverse, true⟩ = true
        · simp [trial, second]
        · simp [trial]

theorem applypatch_ok (isStrippath : patch.strippath = some (.text strippath))
    (applies : Applies outcome tree.host file strippath false false) :
    applypatch dir outcome patch false false tree =
      appendPatchFile dir outcome file strippath { tree with
        host := tree.host.patched dir ⟨file, strippath, false, false⟩ } := by
  have trial : outcome.succeeds tree.host ⟨file, strippath, false, true⟩ =
      true :=
    applies.1
  have second := applies.2 rfl
  rw [applypatch]
  simp only [isFile, isStrippath, Host.runcmd, Application.isPlain, word, level,
    Bool.and_self, if_true]
  simp [trial, second]

theorem applypatch_reverse
    (isStrippath : patch.strippath = some (.text strippath))
    (applies : Applies outcome tree.host file strippath false true) :
    applypatch dir outcome patch false true tree =
      (.ok (), { tree with
        host := tree.host.patched dir ⟨file, strippath, true, false⟩ }) := by
  have trial : outcome.succeeds tree.host ⟨file, strippath, true, true⟩ =
      true :=
    applies.1
  have second := applies.2 rfl
  rw [applypatch]
  simp only [isFile, isStrippath, Host.runcmd, Application.isPlain, word, level,
    Bool.and_self, if_true]
  simp [trial, second]

end PatchTree

theorem mem_joinPaths {char : Char} {path name : Text} (member : char ∈ name) :
    char ∈ joinPaths path name := by
  rw [joinPaths]
  split_ifs <;> simp [member]

theorem mem_strip {char : Char} {text : Text} (inner : isspace char = false)
    (member : char ∈ text) : char ∈ strip text := by
  obtain ⟨front, back, split, areFront, areBack⟩ :=
    exists_eq_stripOf isspace text
  rw [split] at member
  simp only [List.mem_append] at member
  rcases member with (isFront | inside) | isBack
  · simp [areFront char isFront] at inner
  · exact inside
  · simp [areBack char isBack] at inner

theorem exists_lineFields (applied : Applied) : ∃ file strippath rest,
    lineFields dir applied.line = file :: strippath :: rest := by
  have inLine : ',' ∈ applied.line := by simp [Applied.line, seriesLine]
  have inPath : ',' ∈ joinPaths (patchdir dir) (strip applied.line) := by
    apply mem_joinPaths
    exact mem_strip (by decide) inLine
  obtain ⟨front, back, split⟩ := List.append_of_mem inPath
  rw [lineFields, split, List.splitOn_append_cons_self]
  obtain ⟨file, others, isFront⟩ :=
    List.exists_cons_of_ne_nil (List.splitOn_ne_nil ',' front)
  obtain ⟨first, rest, isBack⟩ :=
    List.exists_cons_of_ne_nil (List.splitOn_ne_nil ',' back)
  rw [isFront, isBack]
  cases others with
  | nil => exact ⟨_, _, _, rfl⟩
  | cons other others => exact ⟨_, _, _, rfl⟩

theorem patched_reverse {host : Host} {earlier : List Applied} {last : Applied}
    {file strippath : Text} (isLast : host.applied = earlier ++ [last])
    (contents : (host.contents dir file).getD [] = last.contents)
    (same : strippath = last.strippath) :
    host.patched dir ⟨file, strippath, true, false⟩ =
      { host with applied := earlier } := by
  rw [Host.patched]
  simp [isLast, contents, same]

namespace PatchTree

theorem removePatch_error {last : Applied} (legible : Legible dir last)
    (fails : ¬ Reverts dir outcome tree.host last) :
    removePatch dir outcome (joinPaths (patchdir dir) (strip last.line)) tree =
      (.error .applying, tree) := by
  obtain ⟨file, strippath, rest, fields⟩ := @exists_lineFields dir last
  have notApplies : ¬ Applies outcome tree.host file strippath false true := by
    intro applies
    apply fails
    intro file' strippath' rest' fields'
    rw [fields] at fields'
    cases fields'
    exact applies
  obtain ⟨word, level⟩ := legible _ _ _ fields
  rw [lineFields] at fields
  rw [removePatch, fields]
  exact applypatch_error rfl word level rfl notApplies

theorem removePatch_ok {earlier : List Applied} {last : Applied}
    (isLast : tree.host.applied = earlier ++ [last])
    (legible : Legible dir last)
    (restorable : Restorable dir tree.host last)
    (reverts : Reverts dir outcome tree.host last) :
    removePatch dir outcome (joinPaths (patchdir dir) (strip last.line)) tree =
      (.ok (), { tree with
        host := { tree.host with applied := earlier } }) := by
  obtain ⟨file, strippath, rest, fields⟩ := @exists_lineFields dir last
  obtain ⟨contents, same⟩ := restorable _ _ _ fields
  obtain ⟨word, level⟩ := legible _ _ _ fields
  have applies := reverts _ _ _ fields
  rw [lineFields] at fields
  rw [removePatch, fields]
  dsimp only
  rw [applypatch_reverse rfl word level rfl applies,
    patched_reverse isLast contents same]

theorem removePatches_ok {applied : List Applied}
    (all : tree.host.applied = applied)
    (reverts : ∀ front entry behind, applied = front ++ entry :: behind →
      Legible dir entry ∧ Restorable dir tree.host entry ∧
        Reverts dir outcome { tree.host with
          applied := front ++ [entry] } entry) :
    forEach (fun line =>
      removePatch dir outcome (joinPaths (patchdir dir) (strip line)))
        (applied.map Applied.line).reverse tree =
      (.ok (), { tree with host := { tree.host with applied := [] } }) := by
  induction applied using List.reverseRecOn generalizing tree with
  | nil =>
      have same : { tree.host with applied := [] } = tree.host := by rw [← all]
      rw [same]
      rfl
  | append_singleton earlier last induction =>
      obtain ⟨legible, restorable, revertsLast⟩ := reverts earlier last [] rfl
      rw [← all] at revertsLast
      have removed := removePatch_ok all legible restorable revertsLast
      have others := @induction
        { tree with host := { tree.host with applied := earlier } } rfl (by
          intro front entry behind split
          apply reverts front entry (behind ++ [last])
          rw [split]
          simp)
      rw [List.map_append, List.reverse_append]
      simp only [List.map_cons, List.map_nil, List.reverse_singleton,
        List.singleton_append, forEach, removed]
      exact others

end PatchTree

def Kept (dir : Text) (fetcher : Fetcher) (tree : PatchTree) (call : Call) :
    Prop :=
  Tracked dir (tree.perform dir fetcher call).2 ∧ Lawful dir fetcher tree call

section Kept

variable {call : Call} {after : PatchTree}

theorem kept_of_ok (performed : tree.perform dir fetcher call = (.ok (), after))
    (tracked : Tracked dir after)
    (popped : ∀ outcome, call = .pop outcome false →
      after.host.applied = tree.host.applied.dropLast) : Kept dir fetcher tree
        call := by
  have isAfter : (tree.perform dir fetcher call).2 = after := by rw [performed]
  refine ⟨isAfter ▸ tracked, isAfter ▸ tracked.listed, ?_, ?_, ?_⟩
  · intro outcome isPop _
    rw [isAfter]
    exact popped outcome isPop
  · intro failed
    rw [performed] at failed
    cases failed
  · intro error raised
    rw [performed] at raised
    cases raised

theorem kept_of_error {error : Failure} (tracked : Tracked dir tree)
    (performed : tree.perform dir fetcher call = (.error error, tree))
    (allowed : error = .applying ∨ error = .indexError ∧ BeyondEnd tree call) :
    Kept dir fetcher tree call := by
  have isAfter : (tree.perform dir fetcher call).2 = tree := by rw [performed]
  refine ⟨by rw [isAfter]; exact tracked,
    by rw [isAfter]; exact tracked.listed, ?_, ?_, ?_⟩
  · intro outcome _ succeeded
    rw [performed] at succeeded
    cases succeeded
  · intro _
    rw [isAfter]
    exact ⟨rfl, rfl⟩
  · intro other raised
    rw [performed] at raised
    cases raised
    exact allowed

end Kept

theorem kept_importPatch {patch : Patch} (tracked : Tracked dir tree)
    (harmless : Harmless dir fetcher tree (.importPatch patch)) :
    Kept dir fetcher tree (.importPatch patch) := by
  obtain ⟨file, isFile, isThere⟩ := harmless
  obtain ⟨contents, isContents⟩ := Option.isSome_iff_exists.mp isThere
  obtain ⟨filled, filledFile, filledStrippath, isFilled⟩ : ∃ filled : Patch,
      filled.file = some file ∧
      filled.strippath = some (PatchTree.importedStrippath patch) ∧
      PatchTree.fill fetcher tree.host.files patch = .ok filled := by
    refine ⟨⟨some file, patch.remote, some (PatchTree.importedStrippath patch),
      some (fetcher.md5 contents)⟩, rfl, rfl, ?_⟩
    rw [PatchTree.fill, isFile]
    dsimp only
    rw [isContents]
  have performed : tree.perform dir fetcher (.importPatch patch) = (.ok (),
      { tree with
        patches := tree.patches.insertIdx tree.host.applied.length
          filled }) := by
    rw [PatchTree.perform, PatchTree.importPatch, isFilled, tracked.current]
    dsimp only
    cases tree.host.applied.length with
    | zero => rfl
    | succ n => rfl
  apply kept_of_ok performed
  · constructor
    · exact tracked.absolute
    · exact tracked.current
    · intro i applied isApplied
      obtain ⟨other, found, isOf⟩ := tracked.front i applied isApplied
      have below : i < tree.host.applied.length := by
        by_contra beyond
        rw [List.getElem?_eq_none (not_lt.mp beyond)] at isApplied
        cases isApplied
      refine ⟨other, ?_, isOf⟩
      rw [← found]
      exact List.getElem?_insertIdx_of_lt below
    · intro other member
      rcases (List.mem_insertIdx tracked.length_le).mp member with isFilled |
        isOld
      · subst isFilled
        exact ⟨file, _, filledFile, filledStrippath, isThere⟩
      · exact tracked.present other isOld
    · exact tracked.series
    · exact tracked.writable
  · intro outcome isPop
    cases isPop

theorem Tracked.concat {patch : Patch} {entry : Applied} {host : Host}
    (tracked : Tracked dir tree)
    (found : tree.patches[tree.host.applied.length]? = some patch)
    (isOf : entry.Of patch) (writable : Writable dir entry.file entry.strippath)
    (isEntry : host.applied = tree.host.applied ++ [entry])
    (series : host.files (seriespath dir) =
      some ((tree.host.files (seriespath dir)).getD [] ++ entry.line))
    (kept : ∀ path, (tree.host.files path).isSome → (host.files path).isSome) :
    Tracked dir
      { tree with
        host := host, current := some (.index tree.host.applied.length) } := by
  constructor
  · exact tracked.absolute
  · dsimp only
    rw [isEntry, List.length_append]
    rfl
  · intro i applied isApplied
    dsimp only at isApplied ⊢
    rw [isEntry] at isApplied
    rcases lt_trichotomy i tree.host.applied.length with before | isLast |
      beyond
    · rw [List.getElem?_append_left before] at isApplied
      exact tracked.front i applied isApplied
    · subst isLast
      rw [List.getElem?_concat_length] at isApplied
      cases isApplied
      exact ⟨patch, found, isOf⟩
    · rw [List.getElem?_eq_none (by simp; omega)] at isApplied
      cases isApplied
  · intro other member
    obtain ⟨path, level, isPath, isLevel, isThere⟩ :=
      tracked.present other member
    exact ⟨path, level, isPath, isLevel, kept path isThere⟩
  · apply Or.inl
    have before : (tree.host.files (seriespath dir)).getD [] =
        (tree.host.applied.map Applied.line).flatten := by
      rcases tracked.series with isLines | ⟨isNone, unapplied⟩
      · rw [isLines]
        rfl
      · rw [isNone, unapplied]
        rfl
    dsimp only
    rw [series, isEntry, before]
    simp
  · intro applied member
    dsimp only at member
    rw [isEntry] at member
    rcases List.mem_append.mp member with isOld | isNew
    · exact tracked.writable applied isOld
    · rw [List.mem_singleton.mp isNew]
      exact writable

theorem push_eq (tracked : Tracked dir tree) (force : Bool) :
    PatchTree.push dir outcome force false tree =
      PatchTree.push.pushNext dir outcome force tree
        tree.host.applied.length := by
  rw [PatchTree.push, tracked.current]
  cases tree.host.applied.length with
  | zero => rfl
  | succ n => rfl

theorem kept_push {force : Bool} (tracked : Tracked dir tree)
    (harmless : Harmless dir fetcher tree (.push outcome force false)) :
    Kept dir fetcher tree (.push outcome force false) := by
  have isNext := @push_eq dir tree outcome tracked force
  cases found : tree.patches[tree.host.applied.length]? with
  | none =>
      apply @kept_of_error _ _ _ _ .indexError tracked
      · rw [PatchTree.perform, isNext, PatchTree.push.pushNext, found]
      · exact .inr ⟨rfl, List.getElem?_eq_none_iff.mp found⟩
  | some patch =>
      obtain ⟨file, strippath, isFile, isStrippath, word, level, applied⟩ :=
        harmless patch found
      by_cases applies : Applies outcome tree.host file strippath force false
      · obtain ⟨notForced, writable⟩ := applied applies
        subst notForced
        obtain ⟨other, _, isOther, _, present⟩ :=
          tracked.present patch (List.mem_of_getElem? found)
        have sameFile : file = other :=
          Option.some.inj (isFile.symm.trans isOther)
        subst sameFile
        let entry : Applied :=
          ⟨file, (tree.host.contents dir file).getD [], strippath⟩
        obtain ⟨host, written, nowApplied, series, kept⟩ :=
          @PatchTree.appendPatchFile_spec dir { tree with
              host := tree.host.patched dir ⟨file, strippath, false, false⟩ }
            outcome file strippath present tracked.absolute word writable
        have isEntry : host.applied = tree.host.applied ++ [entry] := nowApplied
        apply @kept_of_ok _ _ _ _
          { tree with
            host := host, current := some (.index tree.host.applied.length) }
        · rw [PatchTree.perform, isNext, PatchTree.push.pushNext, found]
          dsimp only
          rw [PatchTree.applypatch_ok isFile word level isStrippath applies,
            written]
        · exact tracked.concat found ⟨isFile, isStrippath⟩ writable isEntry
            series kept
        · intro outcome isPop
          cases isPop
      · apply @kept_of_error _ _ _ _ .applying tracked
        · rw [PatchTree.perform, isNext, PatchTree.push.pushNext, found]
          dsimp only
          rw [PatchTree.applypatch_error isFile word level isStrippath applies]
        · exact .inl rfl

theorem kept_pushAll {force : Bool} (tracked : Tracked dir tree)
    (harmless : Harmless dir fetcher tree (.push outcome force true)) :
    Kept dir fetcher tree (.push outcome force true) := by
  cases isAll : tree.patches with
  | nil =>
      apply kept_of_ok _ tracked (by intro _ isPop; cases isPop)
      rw [PatchTree.perform, PatchTree.push, isAll]
      rfl
  | cons patch rest =>
      obtain ⟨file, strippath, isFile, isStrippath, word, level, fails⟩ :=
        harmless patch rest isAll
      apply kept_of_error tracked _ (.inl rfl)
      rw [PatchTree.perform, PatchTree.push, isAll]
      simp only [forEach, PatchTree.pushRound, if_pos]
      rw [PatchTree.applypatch_error isFile word level isStrippath fails]

theorem Tracked.shorten {earlier behind : List Applied}
    (tracked : Tracked dir tree)
    (split : tree.host.applied = earlier ++ behind) :
    Tracked dir { tree with
      current := positionOf earlier.length
      host := Host.write { tree.host with applied := earlier } (seriespath dir)
        (earlier.map Applied.line).flatten } := by
  constructor
  · exact tracked.absolute
  · rfl
  · intro i applied isApplied
    apply tracked.front i applied
    have isEntry : earlier[i]? = some applied := isApplied
    have inside : i < earlier.length := by
      by_contra beyond
      rw [List.getElem?_eq_none (not_lt.mp beyond)] at isEntry
      cases isEntry
    rw [split, List.getElem?_append_left inside]
    exact isEntry
  · intro patch member
    obtain ⟨path, level, isPath, isLevel, isThere⟩ :=
      tracked.present patch member
    exact ⟨path, level, isPath, isLevel, isSome_write isThere⟩
  · apply Or.inl
    simp [Host.write]
  · intro applied member
    apply tracked.writable applied
    rw [split]
    exact List.mem_append_left _ member

theorem Tracked.series_of_concat {earlier : List Applied} {last : Applied}
    (tracked : Tracked dir tree)
    (isLast : tree.host.applied = earlier ++ [last]) :
    ∃ series, tree.host.files (seriespath dir) = some series ∧
      readlines series = earlier.map Applied.line ++ [last.line] := by
  rcases tracked.series with isLines | ⟨_, unapplied⟩
  · refine ⟨_, isLines, ?_⟩
    rw [readlines_lines tracked.writable, isLast, List.map_append]
    rfl
  · rw [isLast] at unapplied
    simp at unapplied

theorem kept_pop (tracked : Tracked dir tree)
    (harmless : Harmless dir fetcher tree (.pop outcome false)) :
    Kept dir fetcher tree (.pop outcome false) := by
  rcases List.eq_nil_or_concat tree.host.applied with unapplied |
    ⟨earlier, last, isLast⟩
  · have atStart : tree.current = none := by
      rw [tracked.current, unapplied]
      rfl
    cases isSeries : tree.host.files (seriespath dir) with
    | none =>
        apply kept_of_ok _ tracked (by simp [unapplied])
        rw [PatchTree.perform, PatchTree.pop, PatchTree.removePatchFile,
          isSeries]
        simp [PatchTree.stepBack, atStart]
    | some series =>
        have lines := tracked.series_eq
        rw [PatchTree.series, isSeries, unapplied] at lines
        have noLines : readlines series = [] := lines
        apply @kept_of_error _ _ _ _ .indexError tracked
        · rw [PatchTree.perform, PatchTree.pop, PatchTree.removePatchFile,
            isSeries]
          simp [noLines]
        · exact .inr ⟨rfl, unapplied⟩
  · rw [List.concat_eq_append] at isLast
    obtain ⟨series, isSeries, lines⟩ := tracked.series_of_concat isLast
    obtain ⟨legible, restorable⟩ := harmless earlier last isLast
    by_cases reverts : Reverts dir outcome tree.host last
    · have removed :=
        PatchTree.removePatch_ok isLast legible (restorable reverts) reverts
      apply kept_of_ok _ (tracked.shorten isLast)
      · intro _ _
        rw [isLast, List.dropLast_concat]
        rfl
      · rw [PatchTree.perform, PatchTree.pop, PatchTree.removePatchFile,
          isSeries]
        simp only [lines, List.getLast?_concat, removed, List.dropLast_concat]
        have position := tracked.current
        rw [isLast, List.length_append] at position
        simp only [PatchTree.stepBack, position]
        cases earlier.length with
        | zero => rfl
        | succ n => rfl
    · apply kept_of_error tracked _ (.inl rfl)
      have failed := PatchTree.removePatch_error legible reverts
      rw [PatchTree.perform, PatchTree.pop, PatchTree.removePatchFile, isSeries]
      simp [lines, failed]

/-- `Pop` of all patches, as `Clean` does it too. -/
theorem pop_all (tracked : Tracked dir tree)
    (harmless : ∀ earlier last, tree.host.applied = earlier ++ [last] →
      Legible dir last ∧
        (Reverts dir outcome tree.host last →
          RevertsAll dir outcome tree.host)) :
    PatchTree.pop dir outcome true tree = (.error .applying, tree) ∨
      ∃ after, PatchTree.pop dir outcome true tree = (.ok (), after) ∧
        Tracked dir after := by
  rcases List.eq_nil_or_concat tree.host.applied with unapplied |
    ⟨earlier, last, isLast⟩
  · apply Or.inr
    cases isSeries : tree.host.files (seriespath dir) with
    | none =>
        have atStart : tree.current = none := by
          rw [tracked.current, unapplied]
          rfl
        have same : { tree with current := none } = tree := by rw [← atStart]
        refine ⟨tree, ?_, tracked⟩
        rw [PatchTree.pop, PatchTree.removePatchFile, isSeries]
        simp only [if_true, same]
        rw [PatchTree.stepBack, atStart]
    | some series =>
        have lines := tracked.series_eq
        rw [PatchTree.series, isSeries, unapplied] at lines
        have noLines : readlines series = [] := lines
        have same : { tree.host with applied := [] } = tree.host := by
          rw [← unapplied]
        have isTracked := @Tracked.shorten dir tree [] [] tracked unapplied
        rw [same] at isTracked
        refine ⟨_, ?_, isTracked⟩
        rw [PatchTree.pop, PatchTree.removePatchFile, isSeries]
        simp only [noLines]
        rfl
  · rw [List.concat_eq_append] at isLast
    obtain ⟨series, isSeries, lines⟩ := tracked.series_of_concat isLast
    obtain ⟨legible, revertsAll⟩ := harmless earlier last isLast
    by_cases reverts : Reverts dir outcome tree.host last
    · apply Or.inr
      have removed := @PatchTree.removePatches_ok dir tree outcome _ rfl
        (revertsAll reverts)
      refine ⟨_, ?_, @Tracked.shorten dir tree [] _ tracked rfl⟩
      rw [PatchTree.pop, PatchTree.removePatchFile, isSeries]
      have all : readlines series = tree.host.applied.map Applied.line := by
        rw [lines, isLast, List.map_append]
        rfl
      simp only [all, removed]
      rfl
    · apply Or.inl
      have failed := PatchTree.removePatch_error legible reverts
      rw [PatchTree.pop, PatchTree.removePatchFile, isSeries]
      simp [lines, forEach, failed]

theorem kept_of_harmless {call : Call} (tracked : Tracked dir tree)
    (harmless : Harmless dir fetcher tree call) :
    Kept dir fetcher tree call := by
  cases call with
  | importPatch patch => exact kept_importPatch tracked harmless
  | push outcome force all =>
      cases all with
      | false => exact kept_push tracked harmless
      | true => exact kept_pushAll tracked harmless
  | pop outcome all =>
      cases all with
      | false => exact kept_pop tracked harmless
      | true =>
          rcases pop_all tracked harmless with failed |
            ⟨after, popped, isTracked⟩
          · exact kept_of_error tracked failed (.inl rfl)
          · exact kept_of_ok popped isTracked (by intro _ isPop; cases isPop)
  | clean outcome =>
      rcases pop_all tracked harmless with failed | ⟨after, popped, isTracked⟩
      · exact kept_of_error tracked failed (.inl rfl)
      · exact kept_of_ok popped isTracked (by intro _ isPop; cases isPop)

theorem PatchTree.Fresh.tracked (fresh : tree.Fresh dir) :
    Tracked dir tree := by
  obtain ⟨absolute, patches, current, applied, series⟩ := fresh
  constructor
  · exact absolute
  · rw [current, applied]
    rfl
  · intro i entry isEntry
    rw [applied] at isEntry
    cases isEntry
  · intro patch member
    rw [patches] at member
    cases member
  · rw [applied]
    rcases series with isNone | isEmpty
    · exact .inr ⟨isNone, rfl⟩
    · exact .inl isEmpty
  · intro entry member
    rw [applied] at member
    cases member

theorem tracked_performAll {calls : List Call} (tracked : Tracked dir tree)
    (harmless : ∀ earlier call later, calls = earlier ++ call :: later →
      Harmless dir fetcher (tree.performAll dir fetcher earlier) call) :
    Tracked dir (tree.performAll dir fetcher calls) := by
  induction calls using List.reverseRecOn with
  | nil => exact tracked
  | append_singleton calls call induction =>
      have before := induction (by
        intro earlier other later split
        apply harmless earlier other (later ++ [call])
        rw [split]
        simp)
      have kept := kept_of_harmless before (harmless calls call [] rfl)
      rw [PatchTree.performAll, List.foldl_concat]
      exact kept.1

section Sample

/-- One patch file, which the caller names with strip level 1. -/
def samplePatch : Patch :=
  ⟨some "/a".toList, none, some (.text "1".toList), none⟩

def sampleTree : PatchTree where
  patches := []
  current := none
  host := ⟨fun path => if path = "/a".toList then some "x".toList else none, []⟩

def sampleFetcher : Fetcher :=
  ⟨id, id, id⟩

def succeeding : Outcome where
  succeeds := fun _ _ => true
  special := fun host _ => (false, host)

theorem sampleTree_fresh : sampleTree.Fresh "/w".toList := by
  refine ⟨rfl, rfl, rfl, rfl, .inl ?_⟩
  decide

end Sample

end Nvbmc.OePatch
