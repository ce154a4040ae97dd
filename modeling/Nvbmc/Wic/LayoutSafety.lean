import Mathlib.Data.List.Nodup
import Nvbmc.Wic.PartitionNumbers

/-!
# Where the partitions are

The offset of the layout only goes on when the sizes and the alignments are
whole sectors, so the partitions are one behind the other.  The extended
partition has its size from a count of its own, which goes along with the offset
as long as the logical partitions follow each other.
-/

namespace Nvbmc.Wic

/-- The sector behind a partition. -/
def Placed.stop (placed : Placed) : ℤ :=
  placed.start + placed.sizeSec

/-- A layout that can be written to a disk. -/
structure Safe (format : TableFormat) (sectorSize : ℤ) (disk : DiskLayout) :
    Prop where
  behindTable : ∀ placed ∈ disk.placed, overhead format ≤ placed.start
  apart : disk.placed.Pairwise fun first second =>
    first.stop ≤ second.start ∨ second.stop ≤ first.start
  atOffset : ∀ placed ∈ disk.placed, ∀ bytes, placed.part.offset = some bytes →
    placed.start * sectorSize = bytes
  aligned : ∀ placed ∈ disk.placed, placed.part.offset = none →
    ∀ align, placed.part.align = some align → align ≠ 0 →
      align * 1024 ∣ placed.start * sectorSize
  holds : ∀ placed ∈ disk.placed, 0 ≤ placed.sizeSec ∧
    placed.part.diskSize * 1024 ≤ placed.sizeSec * sectorSize
  within : ∀ placed ∈ disk.placed,
    (placed.stop + backup format) * sectorSize ≤ disk.minSize
  logical : format = .msdos → ∀ placed ∈ disk.placed,
    placed.numbered.logical = true →
      ∃ start size, extendedPartition format disk = some (start, size) ∧
        start ≤ placed.start - 2 ∧ placed.stop ≤ start + size
  primary : format = .msdos → ∀ placed ∈ disk.placed,
    placed.numbered.primary = true →
      ∀ start size, extendedPartition format disk = some (start, size) →
        placed.stop ≤ start ∨ start + size ≤ placed.start

/-- The sizes of a partition are whole sectors. -/
structure Fits (sectorSize : ℤ) (part : Partition) : Prop where
  size : 0 ≤ part.diskSize
  sectors : sectorSize ∣ part.diskSize * 1024
  align : ∀ align, part.align = some align → align ≠ 0 →
    0 < align * 1024 / sectorSize ∧
      (part.offset = none → sectorSize ∣ align * 1024)

/-- The `--offset` of a partition, if it has one, leaves no gap before it. -/
def Flush (format : TableFormat) (sectorSize : ℤ) (numReal : ℕ)
    (layout : Layout) (part : Partition) : Prop :=
  ∀ bytes, part.offset = some bytes → ∀ align,
    alignSectors sectorSize part (freeSector format numReal layout part) =
        .ok align →
      bytes = (freeSector format numReal layout part + align) * sectorSize

/-- No sector and no primary partition is between the last logical partition and
the next one, if there was none before the partition. -/
def follows (numReal : ℕ) (layout next : Layout) (part : Partition)
    (behind : Bool) : Bool :=
  decide (InExtended .msdos numReal layout.counters part) ||
    (behind && part.noTable && decide (next.offset = layout.offset))

/-- Each partition whose turn comes is refused or fits, and each logical
partition behind the first one follows the last one without a gap. -/
def FitAlong (format : TableFormat) (sectorSize : ℤ) (numReal : ℕ) :
    Layout → Bool → List Partition → Prop
  | _, _, [] => True
  | layout, behind, part :: parts =>
      (∃ text, placePart format sectorSize numReal layout part =
        .error (.wicError text)) ∨
      Fits sectorSize part ∧
      (InExtended format numReal layout.counters part →
        layout.counters.extendedpart ≠ 0 →
          behind = true ∧ Flush format sectorSize numReal layout part) ∧
      ∀ next placed,
        placePart format sectorSize numReal layout part = .ok (next, placed) →
          FitAlong format sectorSize numReal next
            (follows numReal layout next part behind) parts

section Turn

variable {format : TableFormat} {sectorSize : ℤ} {numReal : ℕ} {layout : Layout}
  {part : Partition}

/-- The first sector that no partition and no table uses. -/
def Layout.base (format : TableFormat) (layout : Layout) : ℤ :=
  if layout.counters.numpart = 0 then layout.offset + overhead format
  else layout.offset

theorem freeSector_eq :
    freeSector format numReal layout part = layout.base format +
        if format = .msdos ∧
          placedType format numReal layout.counters part =
            .logical then 2 else 0 := by
  simp only [freeSector, Layout.base, Nat.add_eq_right]
  split_ifs <;> simp

theorem exists_more {unit : ℤ} (positive : 0 < unit) (free : ℤ) :
    ∃ more, (if free.fmod unit = 0 then Except.ok 0
        else .ok (unit - free.fmod unit) : Except LayoutError ℤ) = .ok more ∧
      0 ≤ more ∧ unit ∣ free + more := by
  have less := Int.fmod_lt_of_pos free positive
  by_cases exact : free.fmod unit = 0
  · refine ⟨0, if_pos exact, le_refl _, ?_⟩
    rw [Int.add_zero]
    exact Int.dvd_of_fmod_eq_zero exact
  · refine ⟨unit - free.fmod unit, if_neg exact, by omega, ?_⟩
    have same : free + (unit - free.fmod unit) = free - free.fmod unit +
        unit := by
      omega
    rw [same]
    exact Int.dvd_add Int.dvd_self_sub_fmod (Int.dvd_refl _)

theorem alignSectors_ok (fits : Fits sectorSize part) (free : ℤ) :
    ∃ more, alignSectors sectorSize part free = .ok more ∧ 0 ≤ more ∧
      ∀ align, part.align = some align → align ≠ 0 →
        align * 1024 / sectorSize ∣ free + more := by
  unfold alignSectors
  cases given : part.align with
  | none => exact ⟨0, rfl, le_refl _, nofun⟩
  | some align =>
      by_cases zero : align = 0
      · refine ⟨0, if_pos zero, le_refl _, fun other same nonzero => ?_⟩
        cases same
        exact absurd zero nonzero
      · have positive := (fits.align align given zero).1
        obtain ⟨more, aligned, atLeast, divides⟩ := exists_more positive free
        refine ⟨more, ?_, atLeast, fun other same _ => ?_⟩
        · simp only [if_neg zero, if_neg positive.ne']
          exact aligned
        · cases same
          exact divides

theorem startSector_ok {numpart : ℕ} {free start : ℤ}
    (started : startSector sectorSize part numpart free = .ok start) :
    free ≤ start ∧ (part.offset = none → start = free) ∧
      ∀ bytes, part.offset = some bytes → start * sectorSize = bytes := by
  unfold startSector at started
  cases given : part.offset with
  | none =>
      rw [given] at started
      cases started
      exact ⟨le_refl _, fun _ => rfl, nofun⟩
  | some bytes =>
      rw [given] at started
      by_cases whole : bytes / sectorSize * sectorSize = bytes
      · by_cases before : bytes / sectorSize - free < 0
        · simp only [whole, ne_eq, not_true_eq_false, if_false, if_pos before]
            at started
          cases started
        · simp only [whole, ne_eq, not_true_eq_false, if_false,
            if_neg before] at started
          cases started
          refine ⟨by omega, nofun, fun other same => ?_⟩
          cases same
          exact whole
      · simp only [ne_eq, whole, not_false_eq_true, if_true] at started
        cases started

structure Turn (format : TableFormat) (sectorSize : ℤ) (numReal : ℕ)
    (layout next : Layout) (part : Partition) (placed : Placed) : Prop where
  placed_part : placed.part = part
  type : placed.type = placedType format numReal layout.counters part
  num : placed.num = (numberPart format numReal layout.counters part).2
  counters : next.counters = (numberPart format numReal layout.counters part).1
  size : 0 ≤ placed.sizeSec
  holds : part.diskSize * 1024 = placed.sizeSec * sectorSize
  offset : next.offset = placed.stop
  behind : layout.base format ≤ placed.start
  reserved : format = .msdos → placed.type = .logical →
    layout.base format + 2 ≤ placed.start
  atOffset : ∀ bytes, part.offset = some bytes →
    placed.start * sectorSize = bytes
  aligned : part.offset = none → ∀ align, part.align = some align → align ≠ 0 →
    align * 1024 ∣ placed.start * sectorSize
  others : ¬ InExtended format numReal layout.counters part →
    next.extendedSizeSec = layout.extendedSizeSec
  first : InExtended format numReal layout.counters part →
    layout.counters.extendedpart = 0 →
    next.extendedSizeSec = layout.extendedSizeSec + placed.sizeSec + 2
  more : InExtended format numReal layout.counters part →
    layout.counters.extendedpart ≠ 0 →
    Flush format sectorSize numReal layout part →
    next.extendedSizeSec =
      layout.extendedSizeSec + (next.offset - layout.base format)

theorem placePart_turn (positive : 0 < sectorSize) (fits : Fits sectorSize part)
    {next : Layout} {placed : Placed}
    (turn : placePart format sectorSize numReal layout part =
      .ok (next, placed)) :
    Turn format sectorSize numReal layout next part placed := by
  obtain ⟨align, start, aligned, started, rfl, rfl⟩ := placePart_ok turn
  obtain ⟨more, same, atLeast, divides⟩ :=
    alignSectors_ok fits (freeSector format numReal layout part)
  rw [same] at aligned
  cases aligned
  have free : freeSector format numReal layout part = layout.base format +
      if format = .msdos ∧
        placedType format numReal layout.counters part =
          .logical then 2 else 0 :=
    freeSector_eq
  have unmoved (flush : Flush format sectorSize numReal layout part) :
      start = freeSector format numReal layout part + align := by
    cases given : part.offset with
    | none => exact (startSector_ok started).2.1 given
    | some bytes =>
        have exact := (startSector_ok started).2.2 bytes given
        rw [flush bytes given align same] at exact
        exact Int.eq_of_mul_eq_mul_right positive.ne' exact
  have sectors : part.sizeSec sectorSize * sectorSize = part.diskSize * 1024 :=
    Int.ediv_mul_cancel fits.sectors
  have size : 0 ≤ part.sizeSec sectorSize := by
    apply Int.ediv_nonneg _ positive.le
    have := fits.size
    omega
  obtain ⟨atMost, unset, set⟩ := startSector_ok started
  have reserve : layout.base format ≤ freeSector format numReal layout
      part := by
    rw [free]
    split_ifs <;> omega
  refine ⟨rfl, rfl, rfl, rfl, size, sectors.symm, rfl, ?_, ?_, set, ?_, ?_, ?_,
    ?_⟩
  · simp only
    omega
  · intro msdos logical
    rw [if_pos ⟨msdos, logical⟩] at free
    simp only
    omega
  · intro none align given nonzero
    have unit := divides align given nonzero
    have whole := (fits.align align given nonzero).2 none
    simp only
    rw [unset none, ← Int.ediv_mul_cancel whole]
    exact Int.mul_dvd_mul_right _ unit
  · intro other
    exact if_neg other
  · intro inside first
    simp only [extendedSize, if_pos inside, if_pos first]
    omega
  · intro inside known flush
    rw [if_pos ⟨inside.1, inside.2.2⟩] at free
    simp only [extendedSize, if_pos inside, if_neg known]
    rw [unmoved flush]
    omega

theorem numberPart_numpart {counters : Counters} :
    (numberPart format numReal counters part).1.numpart = counters.numpart +
      1 := by
  simp only [numberPart, countPart]
  split_ifs <;> rfl

theorem Turn.base {next : Layout} {placed : Placed}
    (turn : Turn format sectorSize numReal layout next part placed) :
    next.base format = placed.stop := by
  rw [Layout.base, turn.counters, numberPart_numpart,
    if_neg (Nat.succ_ne_zero _), turn.offset]

/-- Only `WicError` ends a turn. -/
theorem placePart_ne_zeroDivision (fits : Fits sectorSize part) :
    placePart format sectorSize numReal layout part ≠ .error .zeroDivision := by
  obtain ⟨more, aligned, _, _⟩ :=
    alignSectors_ok fits (freeSector format numReal layout part)
  have started : startSector sectorSize part (layout.counters.numpart + 1)
      (freeSector format numReal layout part + more) ≠
        .error .zeroDivision := by
    unfold startSector
    split
    · nofun
    · simp only
      split_ifs <;> nofun
  have checked : checkPart format part ≠ .error .zeroDivision := by
    unfold checkPart
    split_ifs <;> nofun
  intro failed
  unfold placePart at failed
  cases check : checkPart format part with
  | error failure =>
      rw [check] at failed
      cases failed
      exact checked check
  | ok _ =>
      simp only [check, bind, Except.bind, aligned] at failed
      cases start : startSector sectorSize part (layout.counters.numpart + 1)
        (freeSector format numReal layout part + more) with
      | error failure =>
          rw [start] at failed
          cases failed
          exact started start
      | ok start' =>
          rw [start] at failed
          cases failed

end Turn

section Run

variable {format : TableFormat} {sectorSize : ℤ} {numReal : ℕ}
  {layout last : Layout} {parts : List Partition} {placed : List Placed}

theorem FitAlong.cons_ok {behind : Bool} {part : Partition} {next : Layout}
    {first : Placed}
    (fit : FitAlong format sectorSize numReal layout behind (part :: parts))
    (step : placePart format sectorSize numReal layout part =
      .ok (next, first)) :
    Fits sectorSize part ∧
      (InExtended format numReal layout.counters part →
        layout.counters.extendedpart ≠ 0 →
          behind = true ∧ Flush format sectorSize numReal layout part) ∧
      FitAlong format sectorSize numReal next
        (follows numReal layout next part behind) parts := by
  rcases fit with ⟨text, refused⟩ | ⟨fits, allowed, later⟩
  · rw [refused] at step
    cases step
  · exact ⟨fits, allowed, later next first step⟩

theorem FitAlong.fits {behind : Bool}
    (fit : FitAlong format sectorSize numReal layout behind parts)
    (run : placeParts format sectorSize numReal layout parts =
      .ok (last, placed)) :
    ∀ part ∈ parts, Fits sectorSize part := by
  induction parts generalizing layout behind placed with
  | nil => nofun
  | cons part parts induction =>
      obtain ⟨next, first, later, step, rest, _⟩ := placeParts_cons_ok run
      obtain ⟨fits, _, laterFit⟩ := fit.cons_ok step
      exact List.forall_mem_cons.mpr ⟨fits, induction laterFit rest⟩

theorem FitAlong.ne_zeroDivision {behind : Bool}
    (fit : FitAlong format sectorSize numReal layout behind parts) :
    placeParts format sectorSize numReal layout parts ≠
      .error .zeroDivision := by
  induction parts generalizing layout behind with
  | nil => nofun
  | cons part parts induction =>
      rw [placeParts]
      intro failed
      cases turn : placePart format sectorSize numReal layout part with
      | error failure =>
          rw [turn] at failed
          cases failed
          rcases fit with ⟨text, refused⟩ | ⟨fits, _⟩
          · rw [refused] at turn
            cases turn
          · exact placePart_ne_zeroDivision fits turn
      | ok step =>
          obtain ⟨next, first⟩ := step
          simp only [turn, bind, Except.bind] at failed
          cases rest : placeParts format sectorSize numReal next parts with
          | error failure =>
              rw [rest] at failed
              cases failed
              exact induction (fit.cons_ok turn).2.2 rest
          | ok done =>
              rw [rest] at failed
              cases failed

/-- What holds of each partition by itself. -/
structure Alone (sectorSize : ℤ) (placed : Placed) : Prop where
  atOffset : ∀ bytes, placed.part.offset = some bytes →
    placed.start * sectorSize = bytes
  aligned : placed.part.offset = none →
    ∀ align, placed.part.align = some align → align ≠ 0 →
      align * 1024 ∣ placed.start * sectorSize
  size : 0 ≤ placed.sizeSec
  holds : placed.part.diskSize * 1024 = placed.sizeSec * sectorSize

theorem placeParts_ordered (positive : 0 < sectorSize)
    (fits : ∀ part ∈ parts, Fits sectorSize part)
    (run : placeParts format sectorSize numReal layout parts =
      .ok (last, placed)) :
    (∀ one ∈ placed, layout.base format ≤ one.start ∧ one.stop ≤ last.offset ∧
      Alone sectorSize one) ∧
    placed.Pairwise (fun first second => first.stop ≤ second.start) ∧
    (layout.counters.numpart ≠ 0 → layout.offset ≤ last.offset) := by
  induction parts generalizing layout placed with
  | nil =>
      cases run
      refine ⟨fun one member => ?_, .nil, fun _ => le_refl _⟩
      cases member
  | cons part parts induction =>
      rw [List.forall_mem_cons] at fits
      obtain ⟨next, first, later, step, rest, rfl⟩ := placeParts_cons_ok run
      have turn := placePart_turn positive fits.1 step
      obtain ⟨places, ordered, grows⟩ := induction fits.2 rest
      have counted : next.counters.numpart ≠ 0 := by
        rw [turn.counters, numberPart_numpart]
        exact Nat.succ_ne_zero _
      have base := turn.base
      have size := turn.size
      have behind := turn.behind
      have further := grows counted
      rw [turn.offset] at further
      refine ⟨?_, List.Pairwise.cons ?_ ordered, fun known => ?_⟩
      · intro one member
        rcases List.mem_cons.mp member with rfl | inside
        · refine ⟨behind, further, ?_⟩
          have same := turn.placed_part
          exact ⟨same ▸ turn.atOffset, same ▸ turn.aligned, size,
            same ▸ turn.holds⟩
        · obtain ⟨front, stops, alone⟩ := places one inside
          refine ⟨?_, stops, alone⟩
          rw [base] at front
          unfold Placed.stop at front
          omega
      · intro one inside
        rw [← base]
        exact (places one inside).1
      · rw [Layout.base, if_neg known] at behind
        unfold Placed.stop at further
        omega

end Run

section Extended

variable {sectorSize : ℤ} {numReal : ℕ} {layout next last : Layout}
  {part : Partition} {parts : List Partition} {placed : List Placed}
  {one : Placed} {behind : Bool}
  (turn : Turn .msdos sectorSize numReal layout next part one)
include turn

theorem logical_iff :
    one.numbered.logical = true ↔
      InExtended .msdos numReal layout.counters part := by
  simp [Placed.numbered, Numbered.logical, InExtended, turn.placed_part,
    turn.type]

theorem extendedpart_next
    (other : ¬ InExtended .msdos numReal layout.counters part ∨
      layout.counters.extendedpart ≠ 0) :
    next.counters.extendedpart = layout.counters.extendedpart := by
  rw [turn.counters]
  cases absent : part.noTable with
  | true => rw [numberPart_noTable absent]
  | false =>
      cases type : placedType .msdos numReal layout.counters part with
      | primary => rw [numberPart_primary absent type]
      | logical =>
          rcases other with outside | known
          · exact absurd ⟨rfl, absent, type⟩ outside
          · rw [numberPart_logical absent type known]

theorem extendedpart_first
    (inside : InExtended .msdos numReal layout.counters part)
    (first : layout.counters.extendedpart = 0) :
    next.counters.extendedpart = one.num ∧ one.num ≠ 0 := by
  rw [turn.counters, turn.num, numberPart_first_logical inside.2.1 inside.2.2
    first]
  exact ⟨rfl, Nat.succ_ne_zero _⟩

theorem numpart_next : next.counters.numpart ≠ 0 := by
  rw [turn.counters, numberPart_numpart]
  exact Nat.succ_ne_zero _

omit turn

/-- Logical partitions are in the extended one, and no primary one is. -/
structure Encloses (start : ℤ) (last : Layout) (placed : List Placed) :
    Prop where
  logical : ∀ one ∈ placed, one.numbered.logical = true →
    start ≤ one.start - 2 ∧ one.stop ≤ start + last.extendedSizeSec
  primary : ∀ one ∈ placed, one.numbered.primary = true →
    one.stop ≤ start ∨ start + last.extendedSizeSec ≤ one.start

theorem not_primary_of_logical {numbered : Numbered}
    (logical : numbered.logical = true) : numbered.primary ≠ true := by
  intro primary
  simp only [Numbered.logical, Numbered.primary, Bool.and_eq_true,
    decide_eq_true_eq] at logical primary
  rw [logical.2] at primary
  cases primary.2

theorem Encloses.cons {start : ℤ} (encloses : Encloses start last placed)
    (logical : one.numbered.logical = true →
      start ≤ one.start - 2 ∧ one.stop ≤ start + last.extendedSizeSec)
    (primary : one.numbered.primary = true →
      one.stop ≤ start ∨ start + last.extendedSizeSec ≤ one.start) :
    Encloses start last (one :: placed) where
  logical := List.forall_mem_cons.mpr ⟨logical, encloses.logical⟩
  primary := List.forall_mem_cons.mpr ⟨primary, encloses.primary⟩

/-- Behind the first logical partition the size of the extended one goes along
with the offset while logical partitions follow. -/
theorem encloses_known (positive : 0 < sectorSize)
    (run : placeParts .msdos sectorSize numReal layout parts =
      .ok (last, placed))
    (fit : FitAlong .msdos sectorSize numReal layout behind parts)
    (known : layout.counters.extendedpart ≠ 0)
    (counted : layout.counters.numpart ≠ 0) {start : ℤ}
    (size : 0 ≤ layout.extendedSizeSec)
    (ends : start + layout.extendedSizeSec ≤ layout.offset)
    (joined : behind = true → start + layout.extendedSizeSec = layout.offset) :
    layout.extendedSizeSec ≤ last.extendedSizeSec ∧
      (behind = false → last.extendedSizeSec = layout.extendedSizeSec) ∧
      last.counters.extendedpart = layout.counters.extendedpart ∧
      Encloses start last placed := by
  induction parts generalizing layout placed behind with
  | nil =>
      cases run
      refine ⟨le_refl _, fun _ => rfl, rfl, ?_, ?_⟩
      · intro one member
        cases member
      · intro one member
        cases member
  | cons part parts induction =>
      obtain ⟨next, first, later, step, rest, rfl⟩ := placeParts_cons_ok run
      obtain ⟨fits, allowed, laterFit⟩ := fit.cons_ok step
      have turn := placePart_turn positive fits step
      have fixed := extendedpart_next turn (.inr known)
      have more := numpart_next turn
      have base : layout.base .msdos = layout.offset := if_neg counted
      have front := turn.behind
      have offset := turn.offset
      have length := turn.size
      have stop : first.stop = first.start + first.sizeSec := rfl
      rw [follows] at laterFit
      by_cases inside : InExtended .msdos numReal layout.counters part
      · obtain ⟨rfl, flush⟩ := allowed inside known
        have grows := turn.more inside known flush
        have here := joined rfl
        have reserved := turn.reserved rfl (turn.type.trans inside.2.2)
        have flush : start + next.extendedSizeSec = next.offset := by omega
        rw [decide_eq_true inside, Bool.true_or] at laterFit
        obtain ⟨atLeast, _, same, encloses⟩ :=
          induction rest laterFit (fixed ▸ known) more (by omega)
            flush.le fun _ => flush
        refine ⟨by omega, nofun, same.trans fixed,
          encloses.cons (fun _ => by omega) ?_⟩
        intro primary
        exact absurd primary
          (not_primary_of_logical ((logical_iff turn).mpr inside))
      · have stays := turn.others inside
        rw [decide_eq_false inside, Bool.false_or] at laterFit
        obtain ⟨atLeast, final, same, encloses⟩ :=
          induction rest laterFit (fixed ▸ known) more (by omega) (by omega) (by
            intro continued
            simp only [Bool.and_eq_true, decide_eq_true_eq] at continued
            rw [stays, continued.2]
            exact joined continued.1.1)
        have notLogical : first.numbered.logical ≠ true :=
          fun logical => inside ((logical_iff turn).mp logical)
        refine ⟨by omega, fun ended => ?_, same.trans fixed,
          encloses.cons (fun logical => absurd logical notLogical)
            fun primary => ?_⟩
        · have done := final (by simp [ended])
          omega
        · have present : part.noTable = false := by
            simp only [Numbered.primary, Placed.numbered, turn.placed_part,
              Bool.and_eq_true, Bool.not_eq_true'] at primary
            exact primary.1
          have done := final (by simp [present])
          exact .inr (by omega)

theorem encloses_run (positive : 0 < sectorSize)
    (run : placeParts .msdos sectorSize numReal layout parts =
      .ok (last, placed))
    (fit : FitAlong .msdos sectorSize numReal layout behind parts)
    (unknown : layout.counters.extendedpart = 0)
    (size : layout.extendedSizeSec = 0) :
    (last.counters.extendedpart = 0 ∧
      ∀ one ∈ placed, one.numbered.logical ≠ true) ∨
    ∃ first ∈ placed, first.num = last.counters.extendedpart ∧ first.num ≠ 0 ∧
      layout.base .msdos ≤ first.start - 2 ∧
      Encloses (first.start - 2) last placed := by
  induction parts generalizing layout placed behind with
  | nil =>
      cases run
      refine .inl ⟨unknown, fun one member => ?_⟩
      cases member
  | cons part parts induction =>
      obtain ⟨next, head, later, step, rest, rfl⟩ := placeParts_cons_ok run
      obtain ⟨fits, _, laterFit⟩ := fit.cons_ok step
      have turn := placePart_turn positive fits step
      have more := numpart_next turn
      have front := turn.behind
      have base := turn.base
      have length := turn.size
      have stop : head.stop = head.start + head.sizeSec := rfl
      rw [follows] at laterFit
      by_cases inside : InExtended .msdos numReal layout.counters part
      · right
        obtain ⟨num, nonzero⟩ := extendedpart_first turn inside unknown
        have grows := turn.first inside unknown
        have offset := turn.offset
        have reserved := turn.reserved rfl (turn.type.trans inside.2.2)
        have flush : head.start - 2 + next.extendedSizeSec = next.offset := by
          omega
        obtain ⟨atLeast, _, same, encloses⟩ :=
          encloses_known positive rest laterFit (num ▸ nonzero) more
            (by omega) flush.le fun _ => flush
        refine ⟨head, List.mem_cons_self, by rw [same, num], nonzero, by omega,
          encloses.cons (fun _ => by omega) fun primary => ?_⟩
        exact absurd primary
          (not_primary_of_logical ((logical_iff turn).mpr inside))
      · have fixed := extendedpart_next turn (.inl inside)
        have stays := turn.others inside
        rcases induction rest laterFit (fixed.trans unknown)
          (stays.trans size) with ⟨none, others⟩ | ⟨first, there, num, nonzero,
            low, encloses⟩
        · refine .inl ⟨none, fun one member logical => ?_⟩
          rcases List.mem_cons.mp member with rfl | there
          · exact inside ((logical_iff turn).mp logical)
          · exact others one there logical
        · right
          rw [base] at low
          refine ⟨first, List.mem_cons_of_mem _ there, num, nonzero, by omega,
            encloses.cons (fun logical => ?_) fun _ => .inl low⟩
          exact absurd ((logical_iff turn).mp logical) inside

end Extended

section Layout

variable {format : TableFormat} {sectorSize extraSpace : ℤ}
  {parts : List Partition} {disk : DiskLayout}

theorem eq_of_num {placed : List Placed}
    (distinct : ((placed.map (·.num)).filter (· ≠ 0)).Nodup)
    {first second : Placed} (here : first ∈ placed) (there : second ∈ placed)
    (same : first.num = second.num) (nonzero : first.num ≠ 0) :
    first = second := by
  rw [List.filter_map] at distinct
  have counted : ∀ one ∈ placed, one.num ≠ 0 →
      one ∈ placed.filter ((fun num => decide (num ≠ 0)) ∘ fun one =>
        one.num) := by
    intro one member positive
    exact List.mem_filter.mpr ⟨member, by simpa using positive⟩
  exact List.inj_on_of_nodup_map distinct (counted first here nonzero)
    (counted second there (same ▸ nonzero)) same

theorem extendedPartition_of_mem
    (run : layoutPartitions .msdos sectorSize extraSpace parts = .ok disk)
    {first : Placed} (member : first ∈ disk.placed)
    (num : first.num = disk.layout.counters.extendedpart)
    (nonzero : first.num ≠ 0) :
    extendedPartition .msdos disk =
      some (first.start - 2, disk.layout.extendedSizeSec) := by
  have count : Counters.zero.realpart + numRealPartitions parts =
      numRealPartitions parts := Nat.zero_add _
  have distinct := (follow_numberParts sound_zero count).distinct
  have numbers := placeParts_numbered (layoutPartitions_ok run).1
  rw [Layout.new] at numbers
  rw [← numbers, List.map_map] at distinct
  rw [extendedPartition, if_pos rfl]
  cases found : disk.placed.find? fun placed =>
    placed.num ≠ 0 ∧ placed.num = disk.layout.counters.extendedpart with
  | none =>
      rw [List.find?_eq_none] at found
      exact absurd (by simpa using ⟨nonzero, num⟩) (found first member)
  | some other =>
      have known := List.find?_some found
      simp only [decide_eq_true_eq] at known
      have same : first = other := eq_of_num distinct member
        (List.mem_of_find?_eq_some found) (num.trans known.2.symm) nonzero
      rw [same]
      rfl

theorem extendedPartition_none (none : disk.layout.counters.extendedpart = 0) :
    extendedPartition .msdos disk = Option.none := by
  rw [extendedPartition, if_pos rfl, Option.map_eq_none_iff, List.find?_eq_none]
  intro placed _ known
  simp only [decide_eq_true_eq] at known
  exact known.1 (known.2.trans none)

theorem extended_safe (positive : 0 < sectorSize)
    (fit : FitAlong .msdos sectorSize (numRealPartitions parts) .new false
      parts)
    (run : layoutPartitions .msdos sectorSize extraSpace parts = .ok disk) :
    ∀ placed ∈ disk.placed,
      (placed.numbered.logical = true →
        ∃ start size, extendedPartition .msdos disk = some (start, size) ∧
          start ≤ placed.start - 2 ∧ placed.stop ≤ start + size) ∧
      (placed.numbered.primary = true →
        ∀ start size, extendedPartition .msdos disk = some (start, size) →
          placed.stop ≤ start ∨ start + size ≤ placed.start) := by
  intro placed member
  rcases encloses_run positive (layoutPartitions_ok run).1 fit rfl rfl with
    ⟨none, others⟩ | ⟨first, there, num, nonzero, _, encloses⟩
  · refine ⟨fun logical => absurd logical (others placed member), ?_⟩
    intro _ start size known
    rw [extendedPartition_none none] at known
    cases known
  · rw [extendedPartition_of_mem run there num nonzero]
    refine ⟨fun logical => ⟨_, _, rfl, encloses.logical placed member logical⟩,
      ?_⟩
    intro primary start size known
    cases known
    exact encloses.primary placed member primary

theorem exists_placed {layout last : Layout} {numReal : ℕ}
    {placed : List Placed}
    (run : placeParts format sectorSize numReal layout parts =
      .ok (last, placed)) :
    ∀ part ∈ parts, ∃ one ∈ placed,
      one.part = part ∧ one.sizeSec = part.sizeSec sectorSize := by
  induction parts generalizing layout placed with
  | nil =>
      intro part member
      cases member
  | cons part parts induction =>
      obtain ⟨next, first, later, step, rest, rfl⟩ := placeParts_cons_ok run
      obtain ⟨_, _, _, _, _, rfl⟩ := placePart_ok step
      intro other member
      rcases List.mem_cons.mp member with rfl | there
      · exact ⟨_, List.mem_cons_self, rfl, rfl⟩
      · obtain ⟨one, inside, same⟩ := induction rest other there
        exact ⟨one, List.mem_cons_of_mem _ inside, same⟩

theorem Safe.sectors (positive : 0 < sectorSize)
    (safe : Safe format sectorSize disk)
    (run : layoutPartitions format sectorSize extraSpace parts = .ok disk) :
    ∀ part ∈ parts, 0 ≤ part.diskSize ∧ sectorSize ∣ part.diskSize * 1024 := by
  intro part member
  obtain ⟨one, there, rfl, size⟩ :=
    exists_placed (layoutPartitions_ok run).1 part member
  obtain ⟨nonneg, holds⟩ := safe.holds one there
  have below := Int.ediv_mul_le (one.part.diskSize * 1024) positive.ne'
  rw [size, Partition.sizeSec] at holds nonneg
  have whole := le_antisymm holds below
  have kilobytes := Int.mul_nonneg nonneg positive.le
  exact ⟨by omega, Dvd.intro_left _ whole.symm⟩

end Layout

/-- A partition of three kB for boot files. -/
def small : Partition :=
  { megabyte .primary with
    align := some 4
    size := 3 }

theorem fits_small (offset : Option ℤ) :
    Fits 512 { small with offset := offset } where
  size := (by decide : 0 ≤ small.diskSize)
  sectors := (by decide : 512 ∣ small.diskSize * 1024)
  align := by
    rintro _ ⟨⟩ _
    exact ⟨by decide, fun _ => by decide⟩

theorem fits_megabyte : Fits 512 (megabyte .primary) where
  size := by decide
  sectors := by decide
  align := nofun

/-- Three primary partitions and two logical ones, of which the second has its
offset where the first one ends. -/
def fiveParts : List Partition :=
  [megabyte .primary, small, megabyte .primary, megabyte .primary,
    { small with offset := some (6168 * 512) }]

/-- The layout of the five partitions is not refused. -/
example : (layoutPartitions .msdos 512 0 fiveParts).isOk = true := by
  decide +kernel

end Nvbmc.Wic
