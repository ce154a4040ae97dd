import Nvbmc.Library.Split
import Nvbmc.Library.Text

/-!
# Lists of files

`get_checksum_file_list` writes paths, each with a mark that says whether it
exists, with a blank between them.  The checksums and the recipe cache read such
a list again, each in its own way.
-/

namespace Nvbmc.FileChecksums

open Nvbmc.Library

/-- `str(exists)`. -/
def boolText (value : Bool) : Text :=
  if value then ['T', 'r', 'u', 'e'] else ['F', 'a', 'l', 's', 'e']

/-- A path with its mark. -/
def fileItem (item : Text × Bool) : Text :=
  item.1 ++ ':' :: boolText item.2

def joinItems (items : List (Text × Bool)) : Text :=
  [' '].intercalate (items.map fileItem)

/-- `get_checksum_file_list`, with the search paths of the local entries of
`SRC_URI`; nothing for the fatal error that no path of an entry exists. -/
def getChecksumFileList (pathExists : Text → Bool)
    (searchpaths : List (List Text)) : Option Text :=
  if searchpaths.all (·.any pathExists) then
    some (joinItems (searchpaths.flatten.map fun path =>
      (path, pathExists path)))
  else none

/-- `str.strip`. -/
def strip (text : Text) : Text :=
  rstrip (text.dropWhile isspace)

/-- What the regular expression looks behind for.  It cannot stand across the
blanks before the piece. -/
def marked (piece : Text) : Bool :=
  [':', 'T', 'r', 'u', 'e'].isSuffixOf piece ||
    [':', 'F', 'a', 'l', 's', 'e'].isSuffixOf piece

/-- `filelist_regex.split`, for the rest of a text behind a piece or among the
blanks that are left out. -/
def splitFilelist (piece : Text) (skipping : Bool) : Text → List Text
  | [] => [piece]
  | char :: rest =>
      if isspace char && skipping then splitFilelist piece true rest
      else if isspace char && marked piece then
        piece :: splitFilelist [] true rest
      else splitFilelist (piece ++ [char]) false rest

/-- One turn of the loop of `get_checksums`: the path and the mark.  An error is
an `IndexError`. -/
def checksumsItem (piece : Text) : Except Unit (Option (Text × Text)) :=
  let pth := strip piece
  if pth = [] then .ok none
  else
    match pth.splitOn ':' with
    | path :: exist :: _ => .ok (some (path, exist))
    | _ => .error ()

def collect (item : Text → Except Unit (Option (Text × Text))) :
    List Text → Except Unit (List (Text × Text))
  | [] => .ok []
  | piece :: pieces => do
      let found ← item piece
      let rest ← collect item pieces
      .ok (found.toList ++ rest)

/-- The paths and marks that `FileChecksumCache.get_checksums` goes through. -/
def checksumsItems (filelist : Text) : Except Unit (List (Text × Text)) :=
  collect checksumsItem (splitFilelist [] false filelist)

/-- One turn of the loop of `cacheValidUpdate`; an error is a `ValueError`. -/
def cacheItem (piece : Text) : Except Unit (Option (Text × Text)) :=
  if piece = [] then .ok none
  else
    match rsplitOnce ':' piece with
    | some item => .ok (some item)
    | none => .error ()

/-- The paths and marks that `Cache.cacheValidUpdate` goes through. -/
def cacheItems (fl : Text) : Except Unit (List (Text × Text)) :=
  if strip fl = [] then .ok []
  else collect cacheItem (splitFilelist [] false (strip fl))

section Items

variable {path piece text rest : Text} {items : List (Text × Bool)}

/-- A path that can be told from what stands around it. -/
structure Clean (path : Text) : Prop where
  noColon : ':' ∉ path
  noBlank : ∀ char ∈ path.head?, isspace char = false

theorem marked_of_noColon (noColon : ':' ∉ piece) : marked piece = false := by
  have noSuffix : ∀ value, (':' :: boolText value).isSuffixOf piece =
      false := by
    intro value
    rw [Bool.eq_false_iff, ne_eq, List.isSuffixOf_iff_suffix]
    intro suffix
    exact noColon (suffix.subset (List.mem_cons_self ..))
  rw [marked, Bool.or_eq_false_iff]
  exact ⟨noSuffix true, noSuffix false⟩

theorem splitFilelist_noColon (noColon : ':' ∉ piece ++ text) :
    splitFilelist piece false (text ++ rest) =
      splitFilelist (piece ++ text) false rest := by
  induction text generalizing piece with
  | nil => simp
  | cons char text induction =>
      have unmarked : marked piece = false := by
        apply marked_of_noColon
        intro member
        exact noColon (List.mem_append_left _ member)
      have regroup : piece ++ char :: text = piece ++ [char] ++ text := by
        simp
      rw [regroup] at noColon ⊢
      rw [List.cons_append, splitFilelist, unmarked, Bool.and_false,
        if_neg Bool.false_ne_true, if_neg Bool.false_ne_true]
      exact induction noColon

theorem splitFilelist_mark (value : Bool) :
    splitFilelist piece false (':' :: boolText value ++ rest) =
      splitFilelist (piece ++ ':' :: boolText value) false rest := by
  cases value <;> simp [boolText, splitFilelist, isspace]

variable {item : Text × Bool}

theorem splitFilelist_item (clean : Clean item.1) (skipping : Bool) :
    splitFilelist [] skipping (fileItem item ++ rest) =
      splitFilelist (fileItem item) false rest := by
  have awake : splitFilelist [] skipping (fileItem item ++ rest) =
      splitFilelist [] false (fileItem item ++ rest) := by
    rw [fileItem]
    cases start : item.1 with
    | nil => simp [splitFilelist, isspace]
    | cons char path =>
        have noBlank := clean.noBlank char (by simp [start])
        simp [splitFilelist, noBlank]
  rw [awake, fileItem, List.append_assoc, splitFilelist_noColon clean.noColon,
    splitFilelist_mark]
  rfl

theorem marked_fileItem (item : Text × Bool) :
    marked (fileItem item) = true := by
  have suffix : (':' :: boolText item.2) <:+ fileItem item :=
    List.suffix_append ..
  rw [← List.isSuffixOf_iff_suffix] at suffix
  rw [marked, Bool.or_eq_true]
  cases value : item.2 with
  | true => exact .inl (by simpa [value, boolText] using suffix)
  | false => exact .inr (by simpa [value, boolText] using suffix)

theorem splitFilelist_joinItems (clean : ∀ other ∈ item :: items, Clean other.1)
    (skipping : Bool) :
    splitFilelist [] skipping (joinItems (item :: items)) =
      (item :: items).map fileItem := by
  induction items generalizing item skipping with
  | nil =>
      have read := @splitFilelist_item [] item (clean item (by simp)) skipping
      rw [List.append_nil] at read
      simp [joinItems, read, splitFilelist]
  | cons next items induction =>
      have join : joinItems (item :: next :: items) =
          fileItem item ++ ' ' :: joinItems (next :: items) := by
        simp [joinItems, List.intercalate]
      have later : ∀ other ∈ next :: items, Clean other.1 :=
        fun other member => clean other (List.mem_cons_of_mem _ member)
      rw [join, splitFilelist_item (clean item (by simp)), splitFilelist,
        Bool.and_false,
        if_neg Bool.false_ne_true, marked_fileItem, induction later]
      simp [isspace]

theorem strip_eq_self {text : Text}
    (first : ∀ char ∈ text.head?, isspace char = false)
    (last : ∀ char ∈ text.getLast?, isspace char = false) :
    strip text = text := by
  have noneDropped : text.dropWhile isspace = text := by
    cases text with
    | nil => rfl
    | cons char text => simp [first char (by simp)]
  rw [strip, noneDropped]
  apply rstrip_eq_self
  intro char isLast
  simp [last char isLast]

theorem head_fileItem (clean : Clean item.1) :
    ∀ char ∈ (fileItem item ++ rest).head?, isspace char = false := by
  rw [fileItem]
  cases start : item.1 with
  | nil => simp [isspace]
  | cons char path => simpa [start] using clean.noBlank

theorem getLast_joinItems (item : Text × Bool) :
    (joinItems (item :: items)).getLast? = some 'e' := by
  induction items generalizing item with
  | nil => cases value : item.2 <;> simp [joinItems, fileItem, boolText, value]
  | cons next items induction =>
      have join : joinItems (item :: next :: items) =
          fileItem item ++ [' '] ++ joinItems (next :: items) := by
        simp [joinItems, List.intercalate]
      rw [join, List.getLast?_append, induction, Option.some_or]

theorem strip_joinItems (clean : Clean item.1) :
    strip (joinItems (item :: items)) = joinItems (item :: items) := by
  apply strip_eq_self
  · cases items with
    | nil => simpa [joinItems] using @head_fileItem [] item clean
    | cons next items =>
        have join : joinItems (item :: next :: items) =
            fileItem item ++ ' ' :: joinItems (next :: items) := by
          simp [joinItems, List.intercalate]
        rw [join]
        exact head_fileItem clean
  · rw [getLast_joinItems]
    simp [isspace]

def readItem (item : Text × Bool) : Text × Text :=
  (item.1, boolText item.2)

theorem checksumsItem_fileItem (clean : Clean item.1) :
    checksumsItem (fileItem item) = .ok (some (readItem item)) := by
  have single : joinItems [item] = fileItem item := by
    simp [joinItems]
  have stripped : strip (fileItem item) = fileItem item := by
    rw [← single]
    exact strip_joinItems clean
  have nonempty : fileItem item ≠ [] := by
    simp [fileItem]
  have parts : (fileItem item).splitOn ':' = [item.1, boolText item.2] := by
    have noColon : ':' ∉ boolText item.2 := by
      cases item.2 <;> simp [boolText]
    rw [fileItem, List.splitOn_append_cons_self_of_not_mem clean.noColon,
      List.splitOn_eq_singleton noColon]
  simp [checksumsItem, stripped, nonempty, parts, readItem]

theorem cacheItem_fileItem (item : Text × Bool) :
    cacheItem (fileItem item) = .ok (some (readItem item)) := by
  have nonempty : fileItem item ≠ [] := by
    simp [fileItem]
  have parts : rsplitOnce ':' (fileItem item) = some (readItem item) := by
    rw [readItem, rsplitOnce_eq_some]
    refine ⟨rfl, ?_⟩
    cases item.2 <;> simp [boolText]
  rw [cacheItem, if_neg nonempty, parts]

variable {reader : Text → Except Unit (Option (Text × Text))}

theorem collect_map
    (reads : ∀ item ∈ items, reader (fileItem item) =
      .ok (some (readItem item))) :
    collect reader (items.map fileItem) = .ok (items.map readItem) := by
  induction items with
  | nil => rfl
  | cons item items induction =>
      have rest :=
        induction fun other member =>
          reads other (List.mem_cons_of_mem _ member)
      rw [List.map_cons, collect, reads item (List.mem_cons_self ..), rest]
      rfl

theorem mem_collect {pieces : List Text}
    {found : List (Text × Text)} (read : collect reader pieces = .ok found)
    {item : Text × Text} (member : item ∈ found) :
    ∃ piece, reader piece = .ok (some item) := by
  induction pieces generalizing found with
  | nil =>
      cases read
      cases member
  | cons piece pieces induction =>
      rw [collect] at read
      cases first : reader piece with
      | error => simp [first, bind, Except.bind] at read
      | ok one =>
          cases rest : collect reader pieces with
          | error => simp [first, rest, bind, Except.bind] at read
          | ok others =>
              simp only [first, rest, bind, Except.bind, Except.ok.injEq]
                at read
              subst read
              rcases List.mem_append.mp member with isFirst | later
              · refine ⟨piece, ?_⟩
                rw [first, Option.mem_toList.mp isFirst]
              · exact induction rest later

theorem head_strip {text : Text} : ∀ char ∈ (strip text).head?, isspace char =
    false := by
  intro char isHead
  obtain ⟨blanks, split, -⟩ := rstrip_append (text.dropWhile isspace)
  have isFirst : (text.dropWhile isspace).head? = some char := by
    rw [split, List.head?_append, ← strip, Option.mem_def.mp isHead,
      Option.some_or]
  have kept := List.head?_dropWhile_not isspace text
  rw [isFirst] at kept
  simpa using kept

theorem clean_of_checksumsItem {item : Text × Text}
    (read : checksumsItem piece = .ok (some item)) : Clean item.1 := by
  rw [checksumsItem] at read
  by_cases empty : strip piece = []
  · simp [empty] at read
  · by_cases colon : ':' ∈ strip piece
    · obtain ⟨before, after, split, noColon⟩ := List.eq_append_cons_of_mem colon
      obtain ⟨exist, others, parts⟩ :=
        List.exists_cons_of_ne_nil (List.splitOn_ne_nil ':' after)
      have isItem : item = (before, exist) := by
        rw [split, List.splitOn_append_cons_self_of_not_mem noColon, parts]
          at read
        simpa using read.symm
      rw [isItem]
      refine ⟨noColon, ?_⟩
      intro char isHead
      apply head_strip char
      rw [split, List.head?_append, Option.mem_def.mp isHead]
      rfl
    · rw [List.splitOn_eq_singleton colon] at read
      simp [empty] at read

def ReadBack (items : List (Text × Bool)) (text : Text) : Prop :=
  checksumsItems text = .ok (items.map readItem) ∧
    cacheItems text = .ok (items.map readItem)

theorem clean_of_readBack (read : ReadBack items (joinItems items)) :
    ∀ item ∈ items, Clean item.1 := by
  intro item member
  obtain ⟨piece, itemRead⟩ := mem_collect read.1 (List.mem_map_of_mem member)
  exact clean_of_checksumsItem itemRead

theorem readBack_of_clean (clean : ∀ item ∈ items, Clean item.1) :
    ReadBack items (joinItems items) := by
  cases items with
  | nil => exact ⟨by decide, by decide⟩
  | cons item items =>
      have pieces := splitFilelist_joinItems clean false
      have stripped :=
        @strip_joinItems items item (clean item (List.mem_cons_self ..))
      have nonempty : joinItems (item :: items) ≠ [] := by
        intro empty
        have last := @getLast_joinItems items item
        rw [empty] at last
        cases last
      constructor
      · rw [checksumsItems, pieces]
        exact collect_map fun other member =>
          checksumsItem_fileItem (clean other member)
      · rw [cacheItems, stripped, if_neg nonempty, pieces]
        exact collect_map fun other _ => cacheItem_fileItem other

/-- Both readers give back what was written if and only if no path has a colon
and none starts with a blank. -/
theorem items_read_iff (items : List (Text × Bool)) :
    (checksumsItems (joinItems items) = .ok (items.map readItem) ∧
      cacheItems (joinItems items) = .ok (items.map readItem)) ↔
    ∀ item ∈ items, ':' ∉ item.1 ∧ ∀ char ∈ item.1.head?,
      isspace char = false := by
  constructor
  · intro read item member
    have clean := clean_of_readBack read item member
    exact ⟨clean.noColon, clean.noBlank⟩
  · intro allowed
    exact readBack_of_clean fun item member =>
      ⟨(allowed item member).1, (allowed item member).2⟩

/-- A path with a colon is cut off at it by one reader, though no mark stands in
the path. -/
theorem items_not_read :
    (∀ value, ¬ (':' :: boolText value) <:+: "/a:b".toList) ∧
    ¬ (checksumsItems (joinItems [("/a:b".toList, true)]) =
          .ok ([("/a:b".toList, true)].map readItem) ∧
        cacheItems (joinItems [("/a:b".toList, true)]) =
          .ok ([("/a:b".toList, true)].map readItem)) := by
  decide

theorem getChecksumFileList_read_iff {pathExists : Text → Bool}
    {searchpaths : List (List Text)} {text : Text}
    (built : getChecksumFileList pathExists searchpaths = some text) :
    ReadBack (searchpaths.flatten.map fun path => (path, pathExists path))
      text ↔ ∀ paths ∈ searchpaths, ∀ path ∈ paths, Clean path := by
  rw [getChecksumFileList] at built
  split_ifs at built
  obtain rfl := Option.some.inj built
  constructor
  · intro read paths member path inside
    exact clean_of_readBack read _
      (List.mem_map_of_mem (List.mem_flatten_of_mem member inside))
  · intro clean
    apply readBack_of_clean
    intro item member
    obtain ⟨path, searched, rfl⟩ := List.mem_map.mp member
    obtain ⟨paths, among, inside⟩ := List.mem_flatten.mp searched
    exact clean paths among path inside

end Items

end Nvbmc.FileChecksums
