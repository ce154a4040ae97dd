import Mathlib.Data.Int.Order.Basic
import Nvbmc.Library.Dict
import Nvbmc.Library.Paths

/-!
# The cache of file checksums

A checksum stands in the cache beside the modification time that its file had.
What a process adds goes to a file of its own, and `save_merge` merges these
files into the cache in the order in which the directory lists them.
-/

namespace Nvbmc.FileChecksums

open Nvbmc.Library

/-- `(mtime, hashval)`. -/
structure Entry where
  mtime : ℤ
  hashval : Text
deriving DecidableEq

/-- What `create_cachedata` makes: a list with one dictionary. -/
structure CacheData where
  entries : Dict Text Entry

def createCachedata : CacheData := ⟨[]⟩

/-- Something that can be looked for in a list of dictionaries. -/
inductive Item where
  | path (path : Text)
  | table (entries : Dict Text Entry)
deriving DecidableEq

def CacheData.items (data : CacheData) : List Item :=
  [.table data.entries]

structure FileChecksumCache where
  cachedata : CacheData
  cachedataExtras : CacheData
  mtimeCache : Dict Text ℤ

/-- `os.stat` and `md5_file`; nothing for an `OSError`. -/
structure Files where
  mtime : Text → Option ℤ
  md5File : Text → Option Text

/-- `cached_mtime`. -/
def cachedMtime (files : Files) (mtimeCache : Dict Text ℤ) (file : Text) :
    Option (ℤ × Dict Text ℤ) :=
  match mtimeCache.get? file with
  | some mtime => some (mtime, mtimeCache)
  | none =>
      (files.mtime file).map fun mtime => (mtime, mtimeCache.set file mtime)

/-- The checksum of a file that has this modification time. -/
def checksumAt (files : Files) (cache : FileChecksumCache) (file : Text)
    (cmtime : ℤ) : Option Text × FileChecksumCache :=
  let entry := (cache.cachedata.entries.get? file).filter fun entry =>
    entry.mtime = cmtime
  match entry, files.md5File file with
  | some entry, _ => (some entry.hashval, cache)
  | none, none => (none, cache)
  | none, some hashval => (some hashval, { cache with
      cachedataExtras :=
        ⟨cache.cachedataExtras.entries.set file ⟨cmtime, hashval⟩⟩ })

/-- `get_checksum`; no checksum for an `OSError`. -/
def getChecksum (files : Files) (cache : FileChecksumCache) (file : Text) :
    Option Text × FileChecksumCache :=
  match cachedMtime files cache.mtimeCache (normpath file) with
  | none => (none, cache)
  | some (cmtime, mtimeCache) =>
      checksumAt files { cache with
        mtimeCache := mtimeCache } (normpath file) cmtime

section GetChecksum

variable {files : Files} {cache : FileChecksumCache} {file : Text} {cmtime : ℤ}

theorem checksumAt_fst : (checksumAt files cache file cmtime).1 =
    (((cache.cachedata.entries.get? file).filter fun entry => entry.mtime =
      cmtime).map Entry.hashval).or (files.md5File file) := by
  rw [checksumAt]
  generalize ((cache.cachedata.entries.get? file).filter fun entry =>
    entry.mtime = cmtime) = entry
  cases entry with
  | some entry => rfl
  | none => cases files.md5File file <;> rfl

/-- The modification time that a file is taken to have. -/
def seenMtime (files : Files) (cache : FileChecksumCache) (file : Text) :
    Option ℤ :=
  (cache.mtimeCache.get? file).or (files.mtime file)

theorem getChecksum_fst : (getChecksum files cache file).1 =
    (seenMtime files cache (normpath file)).bind fun cmtime =>
      (((cache.cachedata.entries.get? (normpath file)).filter
        fun entry => entry.mtime = cmtime).map Entry.hashval).or
          (files.md5File (normpath file)) := by
  rw [getChecksum, cachedMtime, seenMtime]
  cases cache.mtimeCache.get? (normpath file) with
  | some mtime => exact checksumAt_fst
  | none =>
      cases files.mtime (normpath file) with
      | none => rfl
      | some mtime => exact checksumAt_fst

theorem checksumAt_snd :
    (checksumAt files cache file cmtime).2.cachedata = cache.cachedata ∧
      (checksumAt files cache file cmtime).2.mtimeCache = cache.mtimeCache := by
  rw [checksumAt]
  split <;> exact ⟨rfl, rfl⟩

theorem getChecksum_snd :
    (getChecksum files cache file).2.cachedata = cache.cachedata ∧
      ∀ other, seenMtime files (getChecksum files cache file).2 other =
        seenMtime files cache other := by
  rw [getChecksum, cachedMtime]
  cases cached : cache.mtimeCache.get? (normpath file) with
  | some mtime =>
      obtain ⟨entries, times⟩ :=
        @checksumAt_snd files cache (normpath file) mtime
      exact ⟨entries, fun other => by simp only [seenMtime, times]⟩
  | none =>
      cases stat : files.mtime (normpath file) with
      | none => exact ⟨rfl, fun _ => rfl⟩
      | some mtime =>
          obtain ⟨entries, times⟩ := @checksumAt_snd files
            { cache with
              mtimeCache := cache.mtimeCache.set (normpath file) mtime }
            (normpath file) mtime
          refine ⟨entries, fun other => ?_⟩
          simp only [Option.map_some, seenMtime, times, Dict.get?_set]
          by_cases same : other = normpath file
          · rw [if_pos same, same, cached, stat, Option.some_or, Option.none_or]
          · rw [if_neg same]

theorem getChecksum_after (other : Text) :
    (getChecksum files (getChecksum files cache other).2 file).1 =
      (getChecksum files cache file).1 := by
  obtain ⟨entries, times⟩ := @getChecksum_snd files cache other
  rw [getChecksum_fst, getChecksum_fst, times, entries]

end GetChecksum

def cacheVersion : ℕ := 1

/-- The file of a process: what could be loaded from it. -/
inductive ExtraFile where
  /-- `IOError` or `EOFError`. -/
  | unreadable
  | dumped (extradata : CacheData) (version : ℕ)

/-- One turn of `merge_data`.  The path is looked for among the items of the
list, not among the keys of the dictionary. -/
def mergeEntry (dest : CacheData) (path : Text) (new : Entry) : CacheData :=
  if Item.path path ∈ dest.items then
    match dest.entries.get? path with
    | some old =>
        if new.mtime > old.mtime then ⟨dest.entries.set path new⟩ else dest
    | none => dest
  else ⟨dest.entries.set path new⟩

def mergeData (source dest : CacheData) : CacheData :=
  source.entries.keys.foldl (fun dest path =>
    match source.entries.get? path with
    | some new => mergeEntry dest path new
    | none => dest) dest

structure Saving where
  data : CacheData
  haveData : Bool

def mergeFile (saving : Saving) : ExtraFile → Saving
  | .unreadable => saving
  | .dumped extradata version =>
      if version ≠ cacheVersion then saving
      else ⟨mergeData extradata saving.data, true⟩

/-- `save_merge` of a cache with a cache file, for the other files in the order
in which they are listed. -/
def saveMerge (cachedata : CacheData) (files : List ExtraFile) : Saving :=
  files.foldl mergeFile ⟨cachedata, false⟩

def written (saving : Saving) : Option (CacheData × ℕ) :=
  if saving.haveData then some (saving.data, cacheVersion) else none

/-- The entry that a file of this version has for a path. -/
def ExtraFile.mention (path : Text) : ExtraFile → Option Entry
  | .unreadable => none
  | .dumped extradata version =>
      if version = cacheVersion then extradata.entries.get? path else none

section Merge

variable {cachedata source dest : CacheData} {files order : List ExtraFile}
  {path : Text}

theorem mergeEntry_eq (new : Entry) :
    mergeEntry dest path new = ⟨dest.entries.set path new⟩ := by
  have absent : Item.path path ∉ dest.items := by
    simp [CacheData.items]
  rw [mergeEntry, if_neg absent]

theorem get?_foldl_mergeEntry (paths : List Text) :
    (paths.foldl (fun dest path =>
        match source.entries.get? path with
        | some new => mergeEntry dest path new
        | none => dest) dest).entries.get? path =
      if path ∈ paths then
        (source.entries.get? path).or (dest.entries.get? path)
      else dest.entries.get? path := by
  induction paths generalizing dest with
  | nil => simp
  | cons first paths induction =>
      rw [List.foldl_cons, induction]
      cases found : source.entries.get? first with
      | none =>
          by_cases same : path = first
          · subst same
            simp [found]
          · simp [same]
      | some new =>
          simp only [mergeEntry_eq, Dict.get?_set]
          by_cases same : path = first
          · subst same
            simp [found]
          · simp [same]

theorem get?_mergeData : (mergeData source dest).entries.get? path =
    (source.entries.get? path).or (dest.entries.get? path) := by
  rw [mergeData, get?_foldl_mergeEntry]
  split_ifs with isKey
  · rfl
  · rw [← Dict.get?_ne_none_iff, not_not] at isKey
    rw [isKey, Option.none_or]

def lastMention (files : List ExtraFile) (path : Text) : Option Entry :=
  (files.filterMap (·.mention path)).getLast?

theorem get?_mergeFile (saving : Saving) (file : ExtraFile) :
    (mergeFile saving file).data.entries.get? path =
      (file.mention path).or (saving.data.entries.get? path) := by
  cases file with
  | unreadable => rfl
  | dumped extradata version =>
      rw [mergeFile, ExtraFile.mention]
      by_cases current : version = cacheVersion
      · rw [if_neg (not_not.mpr current), if_pos current, get?_mergeData]
      · rw [if_pos current, if_neg current, Option.none_or]

theorem get?_foldl_mergeFile (saving : Saving) :
    (files.foldl mergeFile saving).data.entries.get? path =
      (lastMention files path).or (saving.data.entries.get? path) := by
  induction files using List.reverseRecOn with
  | nil => rfl
  | append_singleton files file induction =>
      rw [List.foldl_append, List.foldl_cons, List.foldl_nil, get?_mergeFile,
        induction, lastMention, lastMention, List.filterMap_append]
      cases mention : file.mention path with
      | none => simp [mention]
      | some entry => simp [mention]

theorem get?_saveMerge : (saveMerge cachedata files).data.entries.get? path =
    (lastMention files path).or (cachedata.entries.get? path) :=
  get?_foldl_mergeFile _

def Mentioned (cachedata : CacheData) (files : List ExtraFile) (path : Text)
    (entry : Entry) : Prop :=
  cachedata.entries.get? path = some entry ∨ ∃ file ∈ files,
  file.mention path = some entry

/-- For each path that is mentioned there is an entry that is mentioned, and
none is newer. -/
structure Newest (cachedata : CacheData) (files : List ExtraFile)
    (merged : CacheData) : Prop where
  mentioned : ∀ path entry, merged.entries.get? path = some entry →
    Mentioned cachedata files path entry
  newest : ∀ path entry, Mentioned cachedata files path entry →
    ∃ kept, merged.entries.get? path = some kept ∧ entry.mtime ≤ kept.mtime

def LastIsNewest (cachedata : CacheData) (files : List ExtraFile) : Prop :=
  ∀ path entry, lastMention files path = some entry →
    ∀ other, Mentioned cachedata files path other → other.mtime ≤ entry.mtime

theorem mentioned_of_lastMention {entry : Entry}
    (last : lastMention files path = some entry) :
    Mentioned cachedata files path entry := by
  obtain ⟨file, member, mention⟩ :=
    List.mem_filterMap.mp (List.mem_of_getLast? last)
  exact .inr ⟨file, member, mention⟩

theorem lastMention_eq_none : lastMention files path = none ↔
    ∀ file ∈ files, file.mention path = none := by
  rw [lastMention, List.getLast?_eq_none_iff, List.filterMap_eq_nil_iff]

theorem newest_saveMerge_iff :
    Newest cachedata files (saveMerge cachedata files).data ↔
      LastIsNewest cachedata files := by
  constructor
  · intro right path entry last other mentioned
    obtain ⟨kept, found, bound⟩ := right.newest path other mentioned
    rw [get?_saveMerge, last, Option.some_or] at found
    cases found
    exact bound
  · intro lastIsNewest
    constructor
    · intro path entry found
      rw [get?_saveMerge] at found
      cases last : lastMention files path with
      | none =>
          rw [last, Option.none_or] at found
          exact .inl found
      | some newer =>
          rw [last, Option.some_or] at found
          cases found
          exact mentioned_of_lastMention last
    · intro path entry mentioned
      rw [get?_saveMerge]
      cases last : lastMention files path with
      | none =>
          rcases mentioned with cached | ⟨file, member, mention⟩
          · exact ⟨entry, cached, le_refl _⟩
          · rw [lastMention_eq_none.mp last file member] at mention
            cases mention
      | some newer =>
          exact ⟨newer, rfl, lastIsNewest path newer last entry mentioned⟩

theorem mentioned_perm (perm : order.Perm files) {entry : Entry} :
    Mentioned cachedata order path entry ↔
      Mentioned cachedata files path entry := by
  simp only [Mentioned, perm.mem_iff]

/-- Equal modification times come with equal checksums. -/
def Agree (cachedata : CacheData) (files : List ExtraFile) : Prop :=
  ∀ path first second, Mentioned cachedata files path first →
    Mentioned cachedata files path second → first.mtime = second.mtime →
      first = second

theorem Newest.get?_le {merged other : CacheData}
    (agree : Agree cachedata files) (newest : Newest cachedata files merged)
    (otherNewest : Newest cachedata files other)
    {entry : Entry} (found : merged.entries.get? path = some entry) :
    other.entries.get? path = some entry := by
  have mentioned := newest.mentioned path entry found
  obtain ⟨kept, otherFound, later⟩ := otherNewest.newest path entry mentioned
  have otherMentioned := otherNewest.mentioned path kept otherFound
  obtain ⟨again, foundAgain, earlier⟩ := newest.newest path kept otherMentioned
  have same : entry = again := Option.some.inj (found.symm.trans foundAgain)
  rw [← same] at earlier
  rw [otherFound, agree path entry kept mentioned otherMentioned
    (le_antisymm later earlier)]

/-- The merge keeps the newest entries if and only if the last files have them,
and where it does so in two orders it gives the same cache. -/
theorem saveMerge_newest_iff (cachedata : CacheData) (files : List ExtraFile) :
    (Newest cachedata files (saveMerge cachedata files).data ↔
      LastIsNewest cachedata files) ∧
    ∀ order, order.Perm files → LastIsNewest cachedata files →
      LastIsNewest cachedata order → Agree cachedata files → ∀ path,
        (saveMerge cachedata order).data.entries.get? path =
          (saveMerge cachedata files).data.entries.get? path := by
  refine ⟨newest_saveMerge_iff, ?_⟩
  intro order perm lastIsNewest lastOfOrder agree path
  have newest := newest_saveMerge_iff.mpr lastIsNewest
  have newestOfOrder :
      Newest cachedata files (saveMerge cachedata order).data := by
    obtain ⟨mentioned, newest⟩ := newest_saveMerge_iff.mpr lastOfOrder
    simp only [mentioned_perm perm] at mentioned newest
    exact ⟨mentioned, newest⟩
  apply Option.ext
  intro entry
  exact ⟨newestOfOrder.get?_le agree newest, newest.get?_le agree newestOfOrder⟩

theorem newest_written {data : CacheData} {version : ℕ}
    (isWritten : written (saveMerge cachedata files) = some (data, version))
    (lastIsNewest : LastIsNewest cachedata files) :
    Newest cachedata files data := by
  rw [written] at isWritten
  split_ifs at isWritten
  obtain ⟨rfl, -⟩ := Prod.mk.inj (Option.some.inj isWritten)
  exact newest_saveMerge_iff.mpr lastIsNewest

theorem lastIsNewest_of_files (newest : ∀ file ∈ files, ∀ path entry,
    file.mention path = some entry →
      ∀ other, Mentioned cachedata files path other →
        other.mtime ≤ entry.mtime) :
    LastIsNewest cachedata files := by
  intro path entry last
  obtain ⟨file, member, mention⟩ :=
    List.mem_filterMap.mp (List.mem_of_getLast? last)
  exact newest file member path entry mention

end Merge

section Example

/-- Two processes have seen the file `f` after it was cached, and one of them
another. -/
def cachedFile : CacheData :=
  ⟨[(['f'], ⟨1, ['a']⟩)]⟩

def seenOnce : ExtraFile :=
  .dumped ⟨[(['f'], ⟨2, ['b']⟩)]⟩ cacheVersion

def seenBoth : ExtraFile :=
  .dumped ⟨[(['g'], ⟨3, ['c']⟩), (['f'], ⟨2, ['b']⟩)]⟩ cacheVersion

theorem mention_seen {file : ExtraFile}
    (member : file = seenOnce ∨ file = seenBoth)
    {path : Text} {entry : Entry} (mention : file.mention path = some entry) :
    path = ['f'] ∧ entry = ⟨2, ['b']⟩ ∨ path = ['g'] ∧ entry = ⟨3, ['c']⟩ := by
  have found : ∀ entries : Dict Text Entry, entries.get? path = some entry →
      (path, entry) ∈ entries := fun entries => Dict.mem_of_get?
  rcases member with rfl | rfl
  · exact .inl (by simpa using found _ mention)
  · simpa [or_comm] using found _ mention

theorem mentioned_seen {files : List ExtraFile}
    (among : ∀ file ∈ files, file = seenOnce ∨ file = seenBoth) {path : Text}
    {entry : Entry}
    (mentioned : Mentioned cachedFile files path entry) :
    path = ['f'] ∧ (entry = ⟨1, ['a']⟩ ∨ entry = ⟨2, ['b']⟩) ∨
      path = ['g'] ∧ entry = ⟨3, ['c']⟩ := by
  rcases mentioned with cached | ⟨file, member, mention⟩
  · have found := Dict.mem_of_get? cached
    simp [cachedFile] at found
    exact .inl ⟨found.1, .inl found.2⟩
  · rcases mention_seen (among file member) mention with ⟨here, same⟩ | other
    · exact .inl ⟨here, .inr same⟩
    · exact .inr other

theorem lastIsNewest_seen {files : List ExtraFile}
    (among : ∀ file ∈ files, file = seenOnce ∨ file = seenBoth) :
    LastIsNewest cachedFile files := by
  apply lastIsNewest_of_files
  intro file member path entry mention other mentioned
  rcases mention_seen (among file member) mention with ⟨rfl, rfl⟩ |
    ⟨rfl, rfl⟩ <;>
    rcases mentioned_seen among mentioned with ⟨here, rfl | rfl⟩ |
      ⟨here, rfl⟩ <;>
    first | exact absurd here (by decide) | decide

/-- Both have the file, and either may be listed last. -/
theorem saveMerge_newest_iff_order :
    (saveMerge cachedFile [seenBoth, seenOnce]).data.entries.get? ['f'] =
      (saveMerge cachedFile [seenOnce, seenBoth]).data.entries.get? ['f'] := by
  apply (saveMerge_newest_iff cachedFile [seenOnce, seenBoth]).2
  · exact List.Perm.swap ..
  · exact lastIsNewest_seen (by simp)
  · exact lastIsNewest_seen (by simp)
  · intro path first second firstIn secondIn same
    have isFirst := mentioned_seen (by simp) firstIn
    have isSecond := mentioned_seen (by simp) secondIn
    rcases isFirst with ⟨rfl, rfl | rfl⟩ | ⟨rfl, rfl⟩ <;>
      rcases isSecond with ⟨here, rfl | rfl⟩ | ⟨here, rfl⟩ <;>
      first | rfl | exact absurd same (by decide)

/-- Two processes have seen a file at different times, and the older entry is
listed last. -/
theorem saveMerge_not_newest :
    ¬ Newest createCachedata
      [.dumped ⟨[("/f".toList, ⟨2, "new".toList⟩)]⟩ 1,
        .dumped ⟨[("/f".toList, ⟨1, "old".toList⟩)]⟩ 1]
      (saveMerge createCachedata
        [.dumped ⟨[("/f".toList, ⟨2, "new".toList⟩)]⟩ 1,
          .dumped ⟨[("/f".toList, ⟨1, "old".toList⟩)]⟩ 1]).data := by
  intro right
  have mentioned : Mentioned createCachedata
      [.dumped ⟨[("/f".toList, ⟨2, "new".toList⟩)]⟩ 1,
        .dumped ⟨[("/f".toList, ⟨1, "old".toList⟩)]⟩ 1]
      "/f".toList ⟨2, "new".toList⟩ :=
    .inr ⟨_, List.mem_cons_self .., by decide⟩
  obtain ⟨kept, found, later⟩ := right.newest _ _ mentioned
  have old : (saveMerge createCachedata
      [.dumped ⟨[("/f".toList, ⟨2, "new".toList⟩)]⟩ 1,
        .dumped ⟨[("/f".toList, ⟨1, "old".toList⟩)]⟩ 1]).data.entries.get?
          "/f".toList =
      some ⟨1, "old".toList⟩ := by
    decide
  rw [old] at found
  cases found
  exact absurd later (by decide)

end Example

end Nvbmc.FileChecksums
