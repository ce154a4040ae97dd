import Nvbmc.Library.Overwrite
import Nvbmc.Wic.Filemap

/-!
# Copying a sparse file

`sparse_copy` copies what is in the mapped ranges of a file and skips the rest.
A copy that got to a position of the source has the bytes up to there; over a
hole it gets on without writing, since the bytes there are zero in both files.

The source does not change while it is copied, so its ranges are made before.
-/

namespace Nvbmc.Wic

open Library

section Model

/-- `write` of a file at a position, which may be behind its end. -/
def writeAt (file : List Byte) (position : ℕ) (chunk : List Byte) : List Byte :=
  if chunk = [] then file
  else
    overwrite (file ++ List.replicate (position - file.length) 0) position chunk

/-- The two files while a range is copied. -/
structure Progress where
  dst : List Byte
  source : ℕ
  /-- Where the destination is written next. -/
  target : ℕ
  written : ℕ

/-- A chunk is written that was read for a number of bytes. -/
def Progress.write (progress : Progress) (chunk : List Byte) (size : ℕ) :
    Progress :=
  { dst := writeAt progress.dst progress.target chunk
    source := progress.source + chunk.length
    target := progress.target + chunk.length
    written := progress.written + size }

variable (image : Image) (skip seek length : ℕ)

def openDst : Option (List Byte) → List Byte
  | some content => content
  | none =>
      List.replicate
        (if length ≠ 0 then length + seek else image.imageSize + seek - skip) 0

/-- The inner loop, and whether it ends the copy. -/
def copyChunks (toRead : ℕ) : ℕ → ℕ → ℕ → Progress →
    Except Failure (Progress × Bool)
  | 0, _, _, _ => .error .outOfFuel
  | fuel + 1, chunkSize, read, progress =>
      if toRead ≤ read then .ok (progress, false)
      else
        let chunkSize :=
          if toRead < read + chunkSize then toRead - read else chunkSize
        let size :=
          if length ≠ 0 ∧ length < progress.written + chunkSize then
            length - progress.written
          else chunkSize
        let chunk := (image.content.drop progress.source).take size
        let progress := progress.write chunk size
        if progress.written = length then .ok (progress, true)
        else copyChunks toRead fuel chunkSize (read + size) progress

/-- The outer loop. -/
def copyRanges : List Range → List Byte → Except Failure (List Byte)
  | [], dst => .ok dst
  | range :: ranges, dst =>
      let stop := range.stop * image.blockSize
      if stop ≤ skip then copyRanges ranges dst
      else
        let start := range.first * image.blockSize
        let start := if start < skip ∧ skip < stop then skip else start
        -- What was written before is added and taken away again.
        let written := start - skip
        if length ≠ 0 ∧ length ≤ written then .ok dst
        else do
          let toRead := stop - start
          let (progress, done) ← copyChunks image length toRead (toRead + 1)
            (1024 * 1024) 0 ⟨dst, start, seek + start - skip, written⟩
          if done then .ok progress.dst else copyRanges ranges progress.dst

/-- `sparse_copy`. -/
def sparseCopy (api : Api) (dst : Option (List Byte)) :
    Except Failure (List Byte) := do
  let ranges ← getMappedRanges image api 0 image.blocksCnt
  copyRanges image skip seek length ranges (openDst image skip seek length dst)

end Model

section Copied

variable {image : Image} {skip seek length : ℕ} {dst : List Byte}

/-- How much is to be copied. -/
def copyLength (image : Image) (skip length : ℕ) : ℕ :=
  if length ≠ 0 then length else image.imageSize - skip

/-- A region that is there and zero. -/
def Blank (dst : List Byte) (seek count : ℕ) : Prop :=
  ∀ offset, seek ≤ offset → offset < seek + count → dst[offset]? = some 0

def copied (image : Image) (skip seek : ℕ) (dst : List Byte) (position : ℕ) :
    List Byte :=
  overwrite dst seek ((image.content.drop skip).take (position - skip))

variable {position : ℕ}

theorem copied_of_le (before : position ≤ skip) :
    copied image skip seek dst position = dst := by
  rw [copied, Nat.sub_eq_zero_of_le before, List.take_zero, overwrite_nil]

theorem copied_of_size_le (behind : image.imageSize ≤ position) :
    copied image skip seek dst position =
      copied image skip seek dst image.imageSize := by
  have all : ∀ other, image.imageSize ≤ other →
      (image.content.drop skip).take (other - skip) =
        image.content.drop skip := by
    intro other reaches
    apply List.take_of_length_le
    rw [List.length_drop]
    exact Nat.sub_le_sub_right reaches skip
  rw [copied, copied, all position behind, all _ (le_refl _)]

variable {size : ℕ}

theorem overwrite_copied (behind : skip ≤ position)
    (inside : position ≤ image.imageSize) (within : seek ≤ dst.length) :
    overwrite (copied image skip seek dst position) (seek + (position - skip))
        ((image.content.drop position).take size) =
      copied image skip seek dst (position + size) := by
  have done : ((image.content.drop skip).take (position - skip)).length =
      position - skip := by
    rw [List.length_take, List.length_drop]
    exact Nat.min_eq_left (Nat.sub_le_sub_right inside skip)
  have further : position + size - skip = position - skip + size := by omega
  have rest : (image.content.drop skip).drop (position - skip) =
      image.content.drop position := by
    rw [List.drop_drop, Nat.add_sub_of_le behind]
  have both :=
    overwrite_append ((image.content.drop skip).take (position - skip))
    ((image.content.drop position).take size) within
  rw [done] at both
  rw [copied, copied, both, further, List.take_add, rest]

theorem Blank.within {count : ℕ} (blank : Blank dst seek count)
    (positive : 0 < count) : seek + count ≤ dst.length := by
  have last := blank (seek + count - 1) (by omega) (by omega)
  have inside := (List.getElem?_eq_some_iff.mp last).1
  omega

def Reachable (image : Image) (skip length position : ℕ) : Prop :=
  min position image.imageSize ≤ skip + copyLength image skip length

variable (blank : Blank dst seek (copyLength image skip length))
include blank

theorem length_copied (reachable : Reachable image skip length position) :
    (copied image skip seek dst position).length = dst.length := by
  rw [Reachable] at reachable
  have count : ((image.content.drop skip).take (position - skip)).length ≤
      copyLength image skip length := by
    rw [List.length_take, List.length_drop]
    have size : image.imageSize = image.content.length := rfl
    omega
  by_cases empty : ((image.content.drop skip).take (position - skip)) = []
  · rw [copied, empty, overwrite_nil]
  · have positive := List.length_pos_iff.mpr empty
    have within := blank.within (by omega)
    exact length_overwrite (by omega)

theorem writeAt_copied (behind : skip ≤ position)
    (reachable : Reachable image skip length (position + size)) :
    writeAt (copied image skip seek dst position) (seek + (position - skip))
        ((image.content.drop position).take size) =
      copied image skip seek dst (position + size) := by
  have here : Reachable image skip length position := by
    rw [Reachable] at reachable ⊢
    omega
  by_cases inside : position < image.imageSize
  · by_cases none : size = 0
    · rw [none, List.take_zero]
      exact if_pos rfl
    · have some : (image.content.drop position).take size ≠ [] := by
        rw [← List.length_pos_iff, List.length_take, List.length_drop]
        exact lt_min (Nat.pos_of_ne_zero none) (Nat.sub_pos_of_lt inside)
      have within : seek + copyLength image skip length ≤ dst.length := by
        apply blank.within
        rw [Reachable] at reachable
        omega
      have before : seek + (position - skip) ≤ dst.length := by
        rw [Reachable] at here
        omega
      rw [writeAt, if_neg some, length_copied blank here,
        Nat.sub_eq_zero_of_le before, List.replicate_zero, List.append_nil]
      exact overwrite_copied behind inside.le (by omega)
  · have reaches := not_lt.mp inside
    have none : (image.content.drop position).take size = [] := by
      rw [List.drop_eq_nil_of_le reaches, List.take_nil]
    rw [writeAt, if_pos none, copied_of_size_le reaches,
      copied_of_size_le (reaches.trans (Nat.le_add_right ..))]

theorem copied_of_hole {position other : ℕ} (behind : skip ≤ position)
    (ahead : position ≤ other) (reachable : Reachable image skip length other)
    (hole : ∀ offset, position ≤ offset → offset < other →
      image.content.getD offset 0 = 0) :
    copied image skip seek dst other = copied image skip seek dst position := by
  rw [Reachable] at reachable
  obtain ⟨size, rfl⟩ := Nat.exists_eq_add_of_le ahead
  by_cases inside : position < image.imageSize ∧ 0 < size
  · have within : seek + copyLength image skip length ≤ dst.length := by
      apply blank.within
      omega
    have done : ((image.content.drop skip).take (position - skip)).length =
        position - skip := by
      rw [List.length_take, List.length_drop]
      exact Nat.min_eq_left (Nat.sub_le_sub_right inside.1.le skip)
    have rest : (copied image skip seek dst position).drop
        (seek + (position - skip)) = dst.drop (seek + (position - skip)) := by
      have inFile : seek ≤ dst.length := by omega
      have dropped := drop_overwrite
        ((image.content.drop skip).take (position - skip)) inFile
      rwa [done] at dropped
    rw [← overwrite_copied behind inside.1.le (by omega)]
    apply overwrite_self
    rw [rest]
    apply List.ext_getElem?
    intro index
    have size_eq : image.imageSize = image.content.length := rfl
    by_cases less : index <
        ((image.content.drop position).take size).length
    · rw [List.length_take, List.length_drop] at less
      have zero := hole (position + index) (by omega) (by omega)
      have source : image.content[position + index]? = some 0 := by
        have inFile : position + index < image.content.length := by omega
        rw [List.getD_eq_getElem?_getD, List.getElem?_eq_getElem inFile,
          Option.getD_some] at zero
        rw [List.getElem?_eq_getElem inFile, zero]
      have target :=
        blank (seek + (position - skip) + index) (by omega) (by omega)
      rw [List.getElem?_take_of_lt (by simpa using less), List.getElem?_drop,
        target, List.getElem?_take_of_lt (by omega), List.getElem?_drop, source]
    · rw [List.getElem?_take_eq_none (not_lt.mp less),
        List.getElem?_eq_none (not_lt.mp less)]
  · by_cases none : size = 0
    · rw [none, Nat.add_zero]
    · have reaches : image.imageSize ≤ position := by omega
      rw [copied_of_size_le reaches,
        copied_of_size_le (reaches.trans (Nat.le_add_right ..))]

theorem copied_of_gap {position other : ℕ}
    (ahead : position ≤ other) (reachable : Reachable image skip length other)
    (hole : ∀ offset, position ≤ offset → offset < other →
      image.content.getD offset 0 = 0) :
    copied image skip seek dst position = copied image skip seek dst other := by
  by_cases behind : skip ≤ position
  · exact (copied_of_hole blank behind ahead reachable hole).symm
  · rw [copied_of_le (by omega)]
    by_cases before : other ≤ skip
    · rw [copied_of_le before]
    · rw [copied_of_hole blank (le_refl skip) (by omega) reachable,
        copied_of_le (le_refl skip)]
      exact fun offset reaches less => hole offset (by omega) less

omit blank

theorem reachable_of_le (within : length ≠ 0 → position ≤ skip + length) :
    Reachable image skip length position := by
  rw [Reachable, copyLength]
  split_ifs with all
  · have := within all
    omega
  · omega

/-- The copy has got to a position: the files are there too, or the source is at
its end. -/
structure Progress.At (image : Image) (skip seek : ℕ) (dst : List Byte)
    (position : ℕ) (progress : Progress) : Prop where
  dst : progress.dst = copied image skip seek dst position
  written : progress.written = position - skip
  files : progress.source = position ∧
    progress.target = seek + (position - skip) ∨
    image.imageSize ≤ progress.source ∧ image.imageSize ≤ position

include blank

theorem Progress.At.write {progress : Progress}
    (arrived : Progress.At image skip seek dst position progress)
    (behind : skip ≤ position)
    (reachable : Reachable image skip length (position + size)) :
    Progress.At image skip seek dst (position + size)
      (progress.write ((image.content.drop progress.source).take size)
        size) := by
  have further : progress.written + size = position + size - skip := by
    rw [arrived.written]
    omega
  rcases arrived.files with ⟨source, target⟩ | ⟨ended, reaches⟩
  · refine ⟨?_, further, ?_⟩
    · simp only [Progress.write]
      rw [arrived.dst, source, target]
      exact writeAt_copied blank behind reachable
    · simp only [Progress.write, source, target, List.length_take,
        List.length_drop]
      have size_eq : image.imageSize = image.content.length := rfl
      omega
  · have none : (image.content.drop progress.source).take size = [] := by
      rw [List.drop_eq_nil_of_le ended, List.take_nil]
    refine ⟨?_, further, .inr ⟨?_, by omega⟩⟩
    · simp only [Progress.write]
      rw [none, writeAt, if_pos rfl, arrived.dst, copied_of_size_le reaches,
        copied_of_size_le (reaches.trans (Nat.le_add_right ..))]
    · exact ended.trans (Nat.le_add_right ..)

theorem copyChunks_spec {start toRead fuel chunkSize read : ℕ}
    {progress : Progress} (behind : skip ≤ start)
    (arrived : Progress.At image skip seek dst (start + read) progress)
    (short : length ≠ 0 → progress.written < length) (within : read ≤ toRead)
    (positive : 0 < chunkSize) (enough : toRead < fuel + read) :
    ∃ last done,
      copyChunks image length toRead fuel chunkSize read progress =
        .ok (last, done) ∧
      (done = true → length ≠ 0 ∧
        last.dst = copied image skip seek dst (skip + length)) ∧
      (done = false → last.dst = copied image skip seek dst (start + toRead) ∧
        (length ≠ 0 → start + toRead ≤ skip + length)) := by
  induction fuel generalizing chunkSize read progress with
  | zero => omega
  | succ fuel induction =>
      rw [copyChunks]
      have written := arrived.written
      by_cases whole : toRead ≤ read
      · rw [if_pos whole]
        obtain rfl : read = toRead := le_antisymm within whole
        refine ⟨_, _, rfl, nofun, fun _ => ⟨arrived.dst, fun all => ?_⟩⟩
        have := short all
        omega
      · rw [if_neg whole]
        simp only
        generalize chunk_eq :
          (if toRead < read + chunkSize then toRead - read else chunkSize) =
            chunk
        have chunk_pos : 0 < chunk := by
          rw [← chunk_eq]
          split_ifs <;> omega
        have chunk_le : read + chunk ≤ toRead := by
          rw [← chunk_eq]
          split_ifs <;> omega
        generalize size_eq :
          (if length ≠ 0 ∧ length < progress.written + chunk then
          length - progress.written else chunk) = size
        have size_pos : 0 < size := by
          rw [← size_eq]
          split_ifs with cut
          · have := short cut.1
            omega
          · exact chunk_pos
        have size_le : size ≤ chunk ∧
            (length ≠ 0 → progress.written + size ≤ length) := by
          rw [← size_eq]
          split_ifs with cut
          · have := short cut.1
            omega
          · omega
        have next : Progress.At image skip seek dst (start + read + size) _ :=
          arrived.write blank (by omega)
            (reachable_of_le fun all => by have := size_le.2 all; omega)
        have nextWritten : (progress.write
          ((image.content.drop progress.source).take size) size).written =
            progress.written + size := rfl
        split_ifs with full
        · have all : length ≠ 0 := by omega
          refine ⟨_, _, rfl, fun _ => ⟨all, ?_⟩, nofun⟩
          have position : start + read + size = skip + length := by omega
          rw [next.dst, position]
        · rw [Nat.add_assoc] at next
          apply induction next _ (by omega) chunk_pos (by omega)
          intro all
          have := size_le.2 all
          omega

theorem copied_of_unmapped {block position : ℕ}
    (ahead : block * image.blockSize ≤ position)
    (reachable : Reachable image skip length position)
    (unmapped : ∀ other, block ≤ other → other * image.blockSize < position →
      image.mapped other = false) :
    copied image skip seek dst (block * image.blockSize) =
      copied image skip seek dst position := by
  apply copied_of_gap blank ahead reachable
  intro offset behind before
  apply getD_of_not_mapped
  apply unmapped
  · rw [Nat.le_div_iff_mul_le image.blockSize_pos]
    exact behind
  · exact (Nat.div_mul_le_self ..).trans_lt before

omit blank

theorem copyLength_spec (fits : skip + length ≤ image.imageSize) :
    skip + copyLength image skip length ≤ image.imageSize ∧
      (length = 0 → skip + copyLength image skip length = image.imageSize) ∧
      (length ≠ 0 → copyLength image skip length = length) := by
  rw [copyLength]
  split_ifs with all <;> omega

theorem copied_of_rest {block : ℕ}
    (blank : Blank dst seek (copyLength image skip length))
    (fits : skip + length ≤ image.imageSize)
    (unmapped : ∀ other, block ≤ other → other < image.blocksCnt →
      image.mapped other = false)
    (short : length ≠ 0 → block * image.blockSize ≤ skip + length) :
    copied image skip seek dst (block * image.blockSize) =
      copied image skip seek dst (skip + copyLength image skip length) := by
  obtain ⟨inside, rest, all⟩ := copyLength_spec fits
  by_cases ahead : block * image.blockSize ≤ skip + copyLength image skip length
  · apply copied_of_unmapped blank ahead
    · apply reachable_of_le
      intro limited
      rw [all limited]
    · intro other behind less
      exact unmapped other behind (lt_blocksCnt.mpr (by omega))
  · have whole := rest (by omega)
    rw [copied_of_size_le (by omega), whole]

theorem copyRanges_spec {ranges : List Range} {block : ℕ}
    (blank : Blank dst seek (copyLength image skip length))
    (fits : skip + length ≤ image.imageSize)
    (covers : Covers image.mapped image.blocksCnt block ranges)
    (short : length ≠ 0 → block * image.blockSize ≤ skip + length) :
    copyRanges image skip seek length ranges
        (copied image skip seek dst (block * image.blockSize)) =
      .ok (copied image skip seek dst
        (skip + copyLength image skip length)) := by
  induction ranges generalizing block with
  | nil => rw [copyRanges, copied_of_rest blank fits covers short]
  | cons range ranges induction =>
      obtain ⟨behind, order, within, gap, later⟩ := covers
      have low := Nat.mul_le_mul_right image.blockSize behind
      have high := Nat.mul_le_mul_right image.blockSize order
      have unmapped : ∀ other, block ≤ other →
          other * image.blockSize < range.first * image.blockSize →
          image.mapped other = false := fun other reaches less =>
        gap other reaches (Nat.lt_of_mul_lt_mul_right less)
      rw [copyRanges]
      simp only
      by_cases skipped : range.stop * image.blockSize ≤ skip
      · rw [if_pos skipped, ← induction later (by omega),
          copied_of_le (by omega), copied_of_le skipped]
      · rw [if_neg skipped]
        generalize start_eq : (if range.first * image.blockSize < skip ∧
          skip < range.stop * image.blockSize then skip
          else range.first * image.blockSize) = start
        have start_cases : start = range.first * image.blockSize ∧
            skip ≤ start ∨
            start = skip ∧ range.first * image.blockSize ≤ skip := by
          rw [← start_eq]
          split_ifs <;> omega
        by_cases ends : length ≠ 0 ∧ length ≤ start - skip
        · have all := (copyLength_spec fits).2.2 ends.1
          rw [if_pos ends, all, copied_of_unmapped blank (short ends.1)]
          · exact reachable_of_le fun _ => le_refl _
          · exact fun other reaches less => unmapped other reaches (by omega)
        · have gone : copied image skip seek dst (block * image.blockSize) =
              copied image skip seek dst start := by
            rcases start_cases with ⟨rfl, _⟩ | ⟨rfl, before⟩
            · apply copied_of_unmapped blank low _ unmapped
              exact reachable_of_le (by omega)
            · rw [copied_of_le (by omega), copied_of_le (le_refl _)]
          have target : seek + start - skip = seek + (start - skip) := by omega
          have arrived : Progress.At image skip seek dst (start + 0)
              ⟨copied image skip seek dst start, start, seek + start - skip,
                start - skip⟩ := ⟨rfl, rfl, .inl ⟨rfl, target⟩⟩
          have inside : length ≠ 0 → start - skip < length := by omega
          have megabyte : 0 < 1024 * 1024 := by decide
          obtain ⟨last, done, runs, full, part⟩ :=
            copyChunks_spec blank (by omega) arrived inside
              (Nat.zero_le (range.stop * image.blockSize - start)) megabyte
              (Nat.lt_succ_self _)
          rw [if_neg ends, gone]
          simp only [bind, Except.bind, runs]
          cases done with
          | true =>
              obtain ⟨limited, same⟩ := full rfl
              rw [if_pos rfl, same, (copyLength_spec fits).2.2 limited]
          | false =>
              obtain ⟨same, before⟩ := part rfl
              have stop_eq : start + (range.stop * image.blockSize - start) =
                  range.stop * image.blockSize := by omega
              rw [stop_eq] at same before
              rw [if_neg Bool.false_ne_true, same]
              exact induction later before

end Copied

section Copy

variable {image : Image} {api : Api} {skip seek length : ℕ}
  {dst : Option (List Byte)}

theorem blank_openDst (fits : skip + length ≤ image.imageSize)
    (blank : ∀ content, dst = some content →
      Blank content seek (copyLength image skip length)) :
    Blank (openDst image skip seek length dst) seek
      (copyLength image skip length) := by
  cases dst with
  | some content => exact blank content rfl
  | none =>
      intro offset behind before
      rw [openDst, List.getElem?_replicate, if_pos]
      rw [copyLength] at before
      split_ifs at before ⊢ <;> omega

/-- A copy is one unless FIEMAP is used for a file without a mapped block. -/
theorem sparseCopy_iff_begins (fits : skip + length ≤ image.imageSize)
    (blank : ∀ content, dst = some content →
      Blank content seek (copyLength image skip length)) :
    sparseCopy image skip seek length api dst =
        .ok (overwrite (openDst image skip seek length dst) seek
          ((image.content.drop skip).take (copyLength image skip length))) ↔
      Begins image api := by
  constructor
  · intro copies
    by_contra empty
    rw [sparseCopy, getMappedRanges_of_not_begins empty] at copies
    cases copies
  · intro begins
    obtain ⟨ranges, runs, covers⟩ := getMappedRanges_covers begins
    have copies := copyRanges_spec (blank_openDst fits blank) fits covers
      (by rw [Nat.zero_mul]; exact fun _ => Nat.zero_le _)
    rw [Nat.zero_mul, copied_of_le (Nat.zero_le _)] at copies
    rw [sparseCopy, runs]
    simp only [bind, Except.bind, copies]
    rw [copied, Nat.add_sub_cancel_left]

end Copy

section Files

theorem nonempty_data : ∀ extent ∈ [Extent.mk 0 2], 0 < extent.count := by
  intro extent member
  rw [List.mem_singleton.mp member]
  decide

theorem ordered_data : [Extent.mk 0 2].Pairwise fun first second =>
    first.stop ≤ second.block :=
  List.pairwise_singleton _ _

theorem hole_data (offset : ℕ) (outside : ∀ extent ∈ [Extent.mk 0 2],
      ¬ (extent.block ≤ offset / 2 ∧ offset / 2 < extent.stop)) :
    ([1, 2, 3, 4, 0] : List Byte).getD offset 0 = 0 := by
  have behind := outside ⟨0, 2⟩ List.mem_cons_self
  simp only [Extent.stop, Nat.zero_le, true_and, not_lt] at behind
  obtain ⟨rest, rfl⟩ : ∃ rest, offset = rest + 4 := ⟨offset - 4, by omega⟩
  cases rest <;> rfl

/-- Four bytes of data and a hole. -/
def dataImage : Image :=
  { content := [1, 2, 3, 4, 0]
    blockSize := 2
    extents := [⟨0, 2⟩]
    blockSize_pos := Nat.zero_lt_two
    nonempty := nonempty_data
    ordered := ordered_data
    hole := hole_data }

/-- Two bytes from the middle of the data. -/
theorem sparseCopy_data :
    sparseCopy dataImage 1 1 2 .fiemap (some [7, 0, 0, 9]) =
      .ok [7, 2, 3, 9] := by
  refine (sparseCopy_iff_begins (by decide) ?_).mpr fun _ =>
    ⟨0, by decide, by decide⟩
  intro content same
  cases same
  intro offset behind before
  have before : offset < 1 + 2 := before
  obtain rfl | rfl : offset = 1 ∨ offset = 2 := by omega
  · rfl
  · rfl

/-- A file with nothing but a hole. -/
def holeImage : Image :=
  { content := [0]
    blockSize := 4096
    extents := []
    blockSize_pos := by decide
    nonempty := by decide
    ordered := by decide
    hole := fun offset _ => by cases offset <;> rfl }

/-- The hole is not copied. -/
theorem not_copies_hole :
    ¬ ∀ (image : Image) (api : Api) (skip seek length : ℕ)
      (dst : Option (List Byte)),
      skip + length ≤ image.imageSize →
      (∀ content, dst = some content →
        Blank content seek (copyLength image skip length)) →
      sparseCopy image skip seek length api dst =
        .ok (overwrite (openDst image skip seek length dst) seek
          ((image.content.drop skip).take (copyLength image skip length))) := by
  intro copies
  have copy := copies holeImage .fiemap 0 0 0 none (by decide) nofun
  cases copy

end Files

end Nvbmc.Wic
