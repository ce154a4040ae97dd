import Mathlib.Data.List.Basic
import Mathlib.Order.MinMax
import Mathlib.Order.Nat

/-!
# Mapped blocks of a file

The three ways to get the mapped blocks of a file.  A file has extents of mapped
blocks, and what is in none of them is zero.  `lseek` and the FIEMAP `ioctl` are
given by the extents, as the kernel documents them.

A range is kept with the block behind it, so that an empty range is one too.
The loops have a bound on their turns; the ranges are right also in that it is
never reached.
-/

namespace Nvbmc.Wic

abbrev Byte := UInt8

/-- How a range generator or a copy can end without a result. -/
inductive Failure where
  /-- `bad block number`. -/
  | badBlock
  /-- A generator that ends inside another one. -/
  | runtimeError
  /-- The bound on the turns of a loop is reached. -/
  | outOfFuel
deriving DecidableEq, Repr

/-- Mapped blocks that follow each other. -/
structure Extent where
  block : ℕ
  count : ℕ
deriving DecidableEq, Repr

def Extent.stop (extent : Extent) : ℕ :=
  extent.block + extent.count

/-- A file with its blocks. -/
structure Image where
  content : List Byte
  blockSize : ℕ
  /-- In the order of the file. -/
  extents : List Extent
  blockSize_pos : 0 < blockSize
  nonempty : ∀ extent ∈ extents, 0 < extent.count
  ordered : extents.Pairwise fun first second => first.stop ≤ second.block
  hole : ∀ offset, (∀ extent ∈ extents,
    ¬ (extent.block ≤ offset / blockSize ∧ offset / blockSize < extent.stop)) →
    content.getD offset 0 = 0

namespace Image

variable (image : Image)

def imageSize : ℕ :=
  image.content.length

def blocksCnt : ℕ :=
  (image.imageSize + image.blockSize - 1) / image.blockSize

def mapped (block : ℕ) : Bool :=
  image.extents.any fun extent => extent.block ≤ block ∧ block < extent.stop

/-- `_lseek` to data, `none` when there is no more. -/
def lseekData (offset : ℕ) : Option ℕ :=
  (List.range image.imageSize).find? fun data =>
    offset ≤ data ∧ image.mapped (data / image.blockSize)

/-- `_lseek` to a hole; the end of the file is one. -/
def lseekHole (offset : ℕ) : Option ℕ :=
  if image.imageSize ≤ offset then none
  else
    some (((List.range image.imageSize).find? fun hole =>
      offset ≤ hole ∧ ¬ image.mapped (hole / image.blockSize)).getD
        image.imageSize)

/-- `_fiemap_extent_cnt`. -/
def fiemapExtentCnt : ℕ :=
  (256 * 1024 - 32) / 56

/-- The FIEMAP `ioctl`: the extents in an area, as many as fit into the buffer.
-/
def fiemap (block count : ℕ) : List Extent :=
  (image.extents.filter fun extent =>
    block < extent.stop ∧ extent.block < block + count).take fiemapExtentCnt

/-- `_invoke_fiemap`. -/
def invokeFiemap (block count : ℕ) : Except Failure (List Extent) :=
  if image.blocksCnt ≠ 0 ∧ image.blocksCnt ≤ block then .error .badBlock
  else .ok (image.fiemap block count)

end Image

/-- The blocks from the first one up to the one before `stop`. -/
structure Range where
  first : ℕ
  stop : ℕ
deriving DecidableEq, Repr

inductive Api where
  | fiemap
  | seek
  | nobmap
deriving DecidableEq, Repr

section Ranges

variable (image : Image)

/-- The loop of `FilemapSeek._get_ranges` for data, from an offset on. -/
def seekRanges (limit : ℕ) : ℕ → ℕ → Except Failure (List Range)
  | 0, _ => .error .outOfFuel
  | fuel + 1, offset =>
      match image.lseekData offset with
      | none => .ok []
      | some start =>
          if limit ≤ start ∨ start = image.imageSize then .ok []
          else do
            let hole := image.lseekHole start
            let full :=
              if hole = none ∨ hole = some image.imageSize then
                image.blocksCnt * image.blockSize
              else hole.getD 0
            let stop := min full limit
            let later ← seekRanges limit fuel stop
            .ok (⟨start / image.blockSize, stop / image.blockSize⟩ :: later)

/-- The inner loop of `_do_get_mapped_ranges`, and whether it ends the outer
one. -/
def extentRanges (limit block : ℕ) : List Extent → List Range × Bool
  | [] => ([], false)
  | extent :: extents =>
      if limit ≤ extent.block then ([], true)
      else
        let later := extentRanges limit block extents
        (⟨max extent.block block, min extent.stop limit⟩ :: later.1, later.2)

/-- The outer loop of `_do_get_mapped_ranges`. -/
def doGetMappedRanges (limit count : ℕ) : ℕ → ℕ → Except Failure (List Range)
  | 0, _ => .error .outOfFuel
  | fuel + 1, block =>
      if limit ≤ block then .ok []
      else do
        let extents ← image.invokeFiemap block count
        match extents.getLast? with
        | none => .ok []
        | some last =>
            let ranges := extentRanges limit block extents
            if ranges.2 then .ok ranges.1
            else do
              let later ← doGetMappedRanges limit count fuel last.stop
              .ok (ranges.1 ++ later)

/-- The loop of `FilemapFiemap.get_mapped_ranges`. -/
def mergeRanges : Range → List Range → List Range
  | previous, [] => [previous]
  | previous, range :: ranges =>
      if previous.stop = range.first then
        mergeRanges ⟨previous.first, range.stop⟩ ranges
      else previous :: mergeRanges range ranges

/-- `get_mapped_ranges`. -/
def getMappedRanges (api : Api) (start count : ℕ) :
    Except Failure (List Range) :=
  match api with
  | .nobmap => .ok [⟨start, start + count⟩]
  | .seek =>
      let offset := start * image.blockSize
      let limit := offset + count * image.blockSize
      seekRanges image limit (count + 1) offset
  | .fiemap => do
      let ranges ← doGetMappedRanges image (start + count) count (count + 1)
        start
      match ranges with
      | [] => .error .runtimeError
      | range :: ranges => .ok (mergeRanges range ranges)

end Ranges

section Covers

variable {mapped : ℕ → Bool} {limit block : ℕ} {ranges : List Range}

/-- From a block on the ranges are in order, and up to the limit no mapped block
is between them. -/
def Covers (mapped : ℕ → Bool) (limit : ℕ) : ℕ → List Range → Prop
  | block, [] => ∀ other, block ≤ other → other < limit → mapped other = false
  | block, range :: ranges =>
      block ≤ range.first ∧ range.first ≤ range.stop ∧ range.stop ≤ limit ∧
        (∀ other, block ≤ other → other < range.first → mapped other = false) ∧
          Covers mapped limit range.stop ranges

theorem Covers.min (covers : Covers mapped limit block ranges) :
    Covers mapped limit (min block limit) ranges := by
  by_cases inside : block ≤ limit
  · rwa [Nat.min_eq_left inside]
  · cases ranges with
    | nil =>
        intro other behind before
        omega
    | cons range ranges =>
        obtain ⟨_, _, _, _⟩ := covers
        omega

theorem Covers.mergeRanges {range : Range}
    (covers : Covers mapped limit block (range :: ranges)) :
    Covers mapped limit block (mergeRanges range ranges) := by
  induction ranges generalizing range block with
  | nil => exact covers
  | cons next ranges induction =>
      obtain ⟨behind, order, within, gap, later⟩ := covers
      rw [Wic.mergeRanges]
      split_ifs with joined
      · obtain ⟨_, order', within', _, later'⟩ := later
        have whole : range.first ≤ next.stop :=
          order.trans (joined.le.trans order')
        exact induction ⟨behind, whole, within', gap, later'⟩
      · exact ⟨behind, order, within, gap, induction later⟩

end Covers

section Image

variable {image : Image}

theorem mapped_iff {block : ℕ} : image.mapped block = true ↔
    ∃ extent ∈ image.extents, extent.block ≤ block ∧ block < extent.stop := by
  simp [Image.mapped]

theorem getD_of_not_mapped {offset : ℕ}
    (unmapped : image.mapped (offset / image.blockSize) = false) :
    image.content.getD offset 0 = 0 := by
  apply image.hole
  intro extent member inside
  have mapped := mapped_iff.mpr ⟨extent, member, inside⟩
  rw [unmapped] at mapped
  cases mapped

theorem lt_blocksCnt {block : ℕ} :
    block < image.blocksCnt ↔ block * image.blockSize < image.imageSize := by
  have positive := image.blockSize_pos
  rw [Image.blocksCnt, Nat.lt_div_iff_mul_lt positive]
  omega

theorem lseekData_some {offset data : ℕ}
    (found : image.lseekData offset = some data) :
    offset ≤ data ∧ data < image.imageSize ∧
      image.mapped (data / image.blockSize) = true ∧
      ∀ other, offset ≤ other → other < data →
        image.mapped (other / image.blockSize) = false := by
  rw [Image.lseekData, List.find?_range_eq_some] at found
  obtain ⟨here, below, before⟩ := found
  simp only [decide_eq_true_eq] at here
  refine ⟨here.1, List.mem_range.mp below, here.2, fun other behind less => ?_⟩
  simpa [behind] using before other less

theorem lseekData_none {offset : ℕ} (missing : image.lseekData offset = none)
    {other : ℕ} (behind : offset ≤ other) (within : other < image.imageSize) :
    image.mapped (other / image.blockSize) = false := by
  rw [Image.lseekData, List.find?_range_eq_none] at missing
  simpa [behind] using missing other within

/-- The first hole behind data is at the end of the file, or it is where an
unmapped block starts. -/
theorem lseekHole_some {start : ℕ} (within : start < image.imageSize) :
    ∃ hole, image.lseekHole start = some hole ∧ (hole = image.imageSize ∨
      start ≤ hole ∧ hole < image.imageSize ∧
        image.mapped (hole / image.blockSize) = false ∧
        ∀ other, start ≤ other → other < hole →
          image.mapped (other / image.blockSize) = true) := by
  refine ⟨_, if_neg (by omega), ?_⟩
  cases found : (List.range image.imageSize).find? fun hole =>
    start ≤ hole ∧ ¬ image.mapped (hole / image.blockSize) with
  | none => exact .inl rfl
  | some hole =>
      rw [List.find?_range_eq_some] at found
      obtain ⟨here, below, before⟩ := found
      simp only [Bool.not_eq_true, decide_eq_true_eq] at here
      refine .inr ⟨here.1, List.mem_range.mp below, here.2, ?_⟩
      intro other behind less
      simpa [behind] using before other less

theorem hole_aligned {start hole : ℕ} (behind : start ≤ hole)
    (unmapped : image.mapped (hole / image.blockSize) = false)
    (data : ∀ other, start ≤ other → other < hole →
      image.mapped (other / image.blockSize) = true)
    (mapped : image.mapped (start / image.blockSize) = true) :
    hole / image.blockSize * image.blockSize = hole := by
  have positive := image.blockSize_pos
  have below := Nat.div_mul_le_self hole image.blockSize
  by_contra inside
  have less : hole / image.blockSize * image.blockSize < hole := by omega
  have same : hole / image.blockSize * image.blockSize / image.blockSize =
      hole / image.blockSize := Nat.mul_div_cancel _ positive
  by_cases front : start ≤ hole / image.blockSize * image.blockSize
  · have contrary := data _ front less
    rw [same, unmapped] at contrary
    cases contrary
  · have block : start / image.blockSize = hole / image.blockSize := by
      apply le_antisymm (Nat.div_le_div_right behind)
      rw [Nat.le_div_iff_mul_le positive]
      omega
    rw [block, unmapped] at mapped
    cases mapped

/-- Where `seekRanges` ends a range: at the end of a block behind the data. -/
theorem exists_stop {start limit : ℕ} (within : start < image.imageSize)
    (mapped : image.mapped (start / image.blockSize) = true)
    (before : start < limit * image.blockSize)
    (fits : limit ≤ image.blocksCnt) :
    ∃ stop, start / image.blockSize < stop ∧ stop ≤ limit ∧
      min (if image.lseekHole start = none ∨
          image.lseekHole start = some image.imageSize then
          image.blocksCnt * image.blockSize
        else (image.lseekHole start).getD 0) (limit * image.blockSize) =
          stop * image.blockSize := by
  have positive := image.blockSize_pos
  have first : start / image.blockSize < limit := by
    rw [Nat.div_lt_iff_lt_mul positive]
    exact before
  obtain ⟨hole, found, rfl | ⟨behind, inside, unmapped, data⟩⟩ :=
    lseekHole_some within
  · refine ⟨limit, first, le_refl _, ?_⟩
    simp only [found, or_true, if_true]
    exact Nat.min_eq_right (Nat.mul_le_mul_right _ fits)
  · have aligned := hole_aligned behind unmapped data mapped
    refine ⟨min (hole / image.blockSize) limit, ?_, Nat.min_le_right .., ?_⟩
    · apply lt_min _ first
      apply lt_of_le_of_ne (Nat.div_le_div_right behind)
      intro same
      rw [same, unmapped] at mapped
      cases mapped
    · have other : ¬ (image.lseekHole start = none ∨
          image.lseekHole start = some image.imageSize) := by
        rw [found]
        simp only [reduceCtorEq, Option.some.injEq, false_or]
        omega
      rw [if_neg other, found, Option.getD_some, ← Nat.mul_min_mul_right,
        aligned]

/-- `FilemapSeek` yields ranges that cover what is mapped. -/
theorem seekRanges_covers {limit fuel block : ℕ}
    (fits : limit ≤ image.blocksCnt)
    (inside : block ≤ limit) (enough : limit < fuel + block) :
    ∃ ranges, seekRanges image (limit * image.blockSize) fuel
        (block * image.blockSize) = .ok ranges ∧
      Covers image.mapped limit block ranges := by
  have positive := image.blockSize_pos
  have inFile : ∀ other, other < limit →
      other * image.blockSize < image.imageSize :=
    fun other less => lt_blocksCnt.mp (Nat.lt_of_lt_of_le less fits)
  have start_of : ∀ other, other * image.blockSize / image.blockSize = other :=
    fun other => Nat.mul_div_cancel other positive
  induction fuel generalizing block with
  | zero => omega
  | succ fuel induction =>
      rw [seekRanges]
      cases found : image.lseekData (block * image.blockSize) with
      | none =>
          refine ⟨[], rfl, fun other behind less => ?_⟩
          rw [← start_of other]
          exact lseekData_none found (Nat.mul_le_mul_right _ behind)
            (inFile other less)
      | some start =>
          obtain ⟨behind, within, mapped, before⟩ := lseekData_some found
          have gap : ∀ other, block ≤ other → other * image.blockSize < start →
              image.mapped other = false := by
            intro other after less
            rw [← start_of other]
            exact before _ (Nat.mul_le_mul_right _ after) less
          simp only
          by_cases ends : limit * image.blockSize ≤ start ∨
            start = image.imageSize
          · rw [if_pos ends]
            refine ⟨[], rfl, fun other after less => gap other after ?_⟩
            have under := Nat.mul_lt_mul_of_pos_right less positive
            omega
          · rw [if_neg ends]
            rw [not_or, Nat.not_le] at ends
            obtain ⟨stop, larger, atMost, same⟩ :=
              exists_stop within mapped ends.1 fits
            simp only [same, start_of]
            have first : block ≤ start / image.blockSize := by
              rw [Nat.le_div_iff_mul_le positive]
              exact behind
            obtain ⟨later, runs, covers⟩ := induction atMost (by omega)
            rw [runs]
            refine ⟨_, rfl, first, larger.le, atMost, ?_, covers⟩
            intro other after less
            apply gap other after
            exact Nat.lt_of_lt_of_le (Nat.mul_lt_mul_of_pos_right less positive)
              (Nat.div_mul_le_self start image.blockSize)

variable (image) in
/-- The extents an `ioctl` gives for an area: those that reach into it, in
order, up to one behind which it has no answer. -/
theorem fiemap_spec (block count : ℕ) : (∀ extent ∈ image.fiemap block count,
      extent ∈ image.extents ∧ block < extent.stop) ∧
    ((image.fiemap block count).Pairwise fun first second =>
      first.stop ≤ second.block) ∧
    ∀ other, block ≤ other → other < block + count →
      image.mapped other = true →
      (∃ extent ∈ image.fiemap block count,
        extent.block ≤ other ∧ other < extent.stop) ∨
      image.fiemap block count ≠ [] ∧
        ∀ extent ∈ image.fiemap block count, extent.stop ≤ other := by
  have ordered := image.ordered.filter fun extent =>
    decide (block < extent.stop ∧ extent.block < block + count)
  refine ⟨?_, ordered.sublist (List.take_sublist ..), ?_⟩
  · intro extent member
    have kept := List.mem_filter.mp (List.mem_of_mem_take member)
    simp only [decide_eq_true_eq] at kept
    exact ⟨kept.1, kept.2.1⟩
  · intro other behind before mapped
    obtain ⟨extent, member, low, high⟩ := mapped_iff.mp mapped
    have kept : extent ∈ image.extents.filter fun extent =>
        decide (block < extent.stop ∧ extent.block < block + count) := by
      rw [List.mem_filter]
      simp only [decide_eq_true_eq]
      exact ⟨member, by omega, by omega⟩
    unfold Image.fiemap
    rw [← List.take_append_drop Image.fiemapExtentCnt (image.extents.filter _)]
      at kept ordered
    rcases List.mem_append.mp kept with taken | dropped
    · exact .inl ⟨extent, taken, low, high⟩
    · right
      constructor
      · intro empty
        rw [List.take_eq_nil_iff] at empty
        rcases empty with none | none
        · exact absurd none (by decide)
        · rw [none, List.drop_nil] at dropped
          cases dropped
      · intro first taken
        exact ((List.pairwise_append.mp ordered).2.2 first taken extent
          dropped).trans low

/-- Extents behind the blocks that are done, with every mapped block up to where
the last one ends. -/
structure Answer (mapped : ℕ → Bool) (limit block reached : ℕ)
    (extents : List Extent) : Prop where
  behind : block ≤ reached
  within : block ≤ limit
  ordered : extents.Pairwise fun first second => first.stop ≤ second.block
  nonempty : ∀ extent ∈ extents, extent.block < extent.stop
  next : ∀ extent ∈ extents, block < extent.stop ∧
    (reached = block ∨ reached ≤ extent.block)
  known : ∀ other, reached ≤ other → other < limit → mapped other = true →
    (∃ extent ∈ extents, extent.block ≤ other ∧ other < extent.stop) ∨
      ∀ extent ∈ extents, extent.stop ≤ other

section Answer

variable {mapped : ℕ → Bool} {limit block reached : ℕ} {extent : Extent}
  {extents : List Extent}

theorem Answer.gap
    (answer : Answer mapped limit block reached (extent :: extents)) {other : ℕ}
    (behind : reached ≤ other) (within : other < limit)
    (before : other < extent.block) : mapped other = false := by
  rw [← Bool.not_eq_true]
  intro known
  have nonempty := answer.nonempty extent List.mem_cons_self
  rcases answer.known other behind within known with
    ⟨holder, member, low, _⟩ | stops
  · rcases List.mem_cons.mp member with rfl | later
    · omega
    · have := List.rel_of_pairwise_cons answer.ordered later
      omega
  · have := stops extent List.mem_cons_self
    omega

theorem Answer.tail
    (answer : Answer mapped limit block reached (extent :: extents)) :
    Answer mapped limit block (min extent.stop limit) extents := by
  refine ⟨?_, answer.within, answer.ordered.of_cons, ?_, ?_, ?_⟩
  · have next := answer.next extent List.mem_cons_self
    have within := answer.within
    omega
  · exact fun other later =>
      answer.nonempty other (List.mem_cons_of_mem _ later)
  · intro other later
    refine ⟨(answer.next other (List.mem_cons_of_mem _ later)).1, .inr ?_⟩
    exact (Nat.min_le_left ..).trans
      (List.rel_of_pairwise_cons answer.ordered later)
  · intro other reaches within known
    have stopped : extent.stop ≤ other := by omega
    have nonempty := answer.nonempty extent List.mem_cons_self
    have next := answer.next extent List.mem_cons_self
    have behind := answer.behind
    rcases answer.known other (by omega) within known with
      ⟨holder, member, low, high⟩ | stops
    · rcases List.mem_cons.mp member with rfl | later
      · omega
      · exact .inl ⟨holder, later, low, high⟩
    · exact .inr fun other later => stops other (List.mem_cons_of_mem _ later)

end Answer

theorem covers_extentRanges {mapped : ℕ → Bool} {limit block reached : ℕ}
    {extents : List Extent} (answer : Answer mapped limit block reached extents)
    (tail : List Range) (covers : (extentRanges limit block extents).2 = false →
      Covers mapped limit ((extents.getLast?.map (·.stop)).getD reached) tail) :
    Covers mapped limit reached ((extentRanges limit block extents).1 ++
      if (extentRanges limit block extents).2 then [] else tail) := by
  induction extents generalizing reached with
  | nil => simpa [extentRanges] using covers
  | cons extent extents induction =>
      rw [extentRanges] at covers ⊢
      by_cases far : limit ≤ extent.block
      · rw [if_pos far]
        intro other behind within
        exact answer.gap behind within (by omega)
      · rw [if_neg far] at covers ⊢
        have next := answer.next extent List.mem_cons_self
        have nonempty := answer.nonempty extent List.mem_cons_self
        have behind := answer.behind
        have within := answer.within
        have first : reached ≤ max extent.block block := by omega
        have order : max extent.block block ≤ min extent.stop limit := by omega
        refine ⟨first, order, Nat.min_le_right .., ?_, ?_⟩
        · intro other reaches before
          simp only at before
          exact answer.gap reaches (by omega) (by omega)
        · apply induction answer.tail
          intro continues
          cases extents with
          | nil => exact (covers continues).min
          | cons next extents => exact covers continues

theorem fiemap_answer {limit block count : ℕ} (before : block < limit)
    (area : limit ≤ block + count) :
    Answer image.mapped limit block block (image.fiemap block count) := by
  obtain ⟨members, ordered, known⟩ := fiemap_spec image block count
  refine ⟨le_refl _, before.le, ordered, ?_, ?_, ?_⟩
  · intro extent member
    have positive := image.nonempty extent (members extent member).1
    rw [Extent.stop]
    omega
  · exact fun extent member => ⟨(members extent member).2, .inl rfl⟩
  · intro other behind within mapped
    rcases known other behind (by omega) mapped with inside | ⟨_, stops⟩
    · exact .inl inside
    · exact .inr stops

/-- `_do_get_mapped_ranges` yields ranges that cover what is mapped. -/
theorem doGetMappedRanges_covers {limit count fuel block : ℕ}
    (fits : limit ≤ image.blocksCnt) (area : limit ≤ block + count)
    (positive : 0 < fuel) (enough : limit < fuel + block) :
    ∃ ranges, doGetMappedRanges image limit count fuel block = .ok ranges ∧
      Covers image.mapped limit block ranges := by
  induction fuel generalizing block with
  | zero => omega
  | succ fuel induction =>
      rw [doGetMappedRanges]
      by_cases done : limit ≤ block
      · rw [if_pos done]
        refine ⟨[], rfl, fun other behind before => ?_⟩
        omega
      · have invoked : image.invokeFiemap block count =
            .ok (image.fiemap block count) := if_neg (by omega)
        rw [if_neg done, invoked]
        have answer : Answer image.mapped limit block block _ :=
          fiemap_answer (not_le.mp done) area
        simp only [bind, Except.bind]
        cases found : (image.fiemap block count).getLast? with
        | none =>
            rw [List.getLast?_eq_none_iff] at found
            refine ⟨[], rfl, fun other behind before => ?_⟩
            rw [← Bool.not_eq_true]
            intro mapped
            rcases (fiemap_spec image block count).2.2 other behind (by omega)
              mapped with
              ⟨_, member, _⟩ | ⟨nonempty, _⟩
            · rw [found] at member
              cases member
            · exact nonempty found
        | some last =>
            have ahead := (answer.next last (List.mem_of_getLast? found)).1
            cases ends :
              (extentRanges limit block (image.fiemap block count)).2 with
            | true =>
                refine ⟨_, rfl, ?_⟩
                have covers := covers_extentRanges answer []
                  fun continues => by rw [ends] at continues; cases continues
                rwa [if_pos ends, List.append_nil] at covers
            | false =>
                have advances : limit < fuel + last.stop := by omega
                obtain ⟨later, runs, covers⟩ :=
                  induction (by omega) (by omega) advances
                simp only [runs]
                refine ⟨_, rfl, ?_⟩
                have whole := covers_extentRanges answer later
                  fun _ => by rwa [found]
                rwa [if_neg (by rw [ends]; decide)] at whole

theorem doGetMappedRanges_of_unmapped {limit count fuel block : ℕ}
    (fits : limit ≤ image.blocksCnt)
    (unmapped : ∀ other, block ≤ other → other < limit →
      image.mapped other = false) :
    doGetMappedRanges image limit count (fuel + 1) block = .ok [] := by
  rw [doGetMappedRanges]
  by_cases done : limit ≤ block
  · rw [if_pos done]
  · have invoked : image.invokeFiemap block count =
        .ok (image.fiemap block count) := if_neg (by omega)
    rw [if_neg done, invoked]
    simp only [bind, Except.bind]
    cases found : image.fiemap block count with
    | nil => rfl
    | cons extent extents =>
        have answer := (fiemap_spec image block count).1 extent
          (found ▸ List.mem_cons_self)
        have far : limit ≤ extent.block := by
          by_contra near
          have positive := image.nonempty extent answer.1
          have inside : max extent.block block < extent.stop := by
            apply max_lt _ answer.2
            rw [Extent.stop]
            omega
          have mapped : image.mapped (max extent.block block) = true :=
            mapped_iff.mpr ⟨extent, answer.1, Nat.le_max_left .., inside⟩
          rw [unmapped _ (Nat.le_max_right ..) (by omega)] at mapped
          cases mapped
        have ends : extentRanges limit block (extent :: extents) = ([], true) :=
          if_pos far
        rw [ends]
        cases last : (extent :: extents).getLast? with
        | none => rfl
        | some last => rfl

/-- `FilemapFiemap` has nothing to begin with when no block is mapped. -/
def Begins (image : Image) (api : Api) : Prop :=
  api = .fiemap → ∃ block < image.blocksCnt, image.mapped block = true

theorem getMappedRanges_covers {api : Api} (begins : Begins image api) :
    ∃ ranges, getMappedRanges image api 0 image.blocksCnt = .ok ranges ∧
      Covers image.mapped image.blocksCnt 0 ranges := by
  cases api with
  | nobmap =>
      refine ⟨_, rfl, le_refl _, ?_, ?_, ?_, ?_⟩
      · exact Nat.le_add_right ..
      · exact (Nat.zero_add _).le
      · intro other _ before
        cases before
      · intro other behind before
        simp only at behind
        omega
  | seek =>
      obtain ⟨ranges, runs, covers⟩ : ∃ ranges, seekRanges image
          (image.blocksCnt * image.blockSize) (image.blocksCnt + 1)
          (0 * image.blockSize) = .ok ranges ∧
          Covers image.mapped image.blocksCnt 0 ranges :=
        seekRanges_covers (le_refl _) (Nat.zero_le _) (by omega)
      refine ⟨ranges, ?_, covers⟩
      rw [Nat.zero_mul] at runs
      simpa only [getMappedRanges, Nat.zero_mul, Nat.zero_add] using runs
  | fiemap =>
      obtain ⟨ranges, runs, covers⟩ : ∃ ranges, doGetMappedRanges image
          image.blocksCnt image.blocksCnt (image.blocksCnt + 1) 0 = .ok ranges ∧
          Covers image.mapped image.blocksCnt 0 ranges :=
        doGetMappedRanges_covers (le_refl _) (by omega) (by omega) (by omega)
      obtain ⟨block, before, mapped⟩ := begins rfl
      cases ranges with
      | nil =>
          rw [covers block (Nat.zero_le _) before] at mapped
          cases mapped
      | cons range ranges =>
          refine ⟨mergeRanges range ranges, ?_, covers.mergeRanges⟩
          simp only [getMappedRanges, Nat.zero_add, runs]
          rfl

theorem getMappedRanges_of_not_begins {api : Api} (empty : ¬ Begins image api) :
    getMappedRanges image api 0 image.blocksCnt = .error .runtimeError := by
  simp only [Begins, Classical.not_imp, not_exists, not_and,
    Bool.not_eq_true] at empty
  obtain ⟨rfl, unmapped⟩ := empty
  simp only [getMappedRanges, Nat.zero_add, doGetMappedRanges_of_unmapped
    (le_refl _) fun other _ before => unmapped other before]
  rfl

end Image

end Nvbmc.Wic
