import Mathlib.Algebra.Order.Ring.Int
import Nvbmc.Wic.MappedRuns

/-!
# The layout of a disk image

`PartitionedImage`: the numbers that the partitions get when the object is made,
and the loop of `layout_partitions`, which numbers them again and gives them a
place. Sectors, sizes and offsets are integers, since the options are; a sector
size is positive, so that dividing by it rounds down as in the source.
-/

namespace Nvbmc.Wic

inductive TableFormat where
  | msdos
  | gpt
  | gptHybrid
deriving DecidableEq, Repr

/-- `--type`. -/
inductive PartType where
  | primary
  | logical
deriving DecidableEq, Repr

/-- A partition as `prepare` leaves it: what the layout reads of it. -/
structure Partition where
  disk : String
  partName : Option String
  partType : Option String
  mbr : Bool
  noTable : Bool
  type : PartType
  /-- In kB. -/
  align : Option ℤ
  /-- In bytes. -/
  offset : Option ℤ
  /-- In kB, as `fixedSize`. -/
  size : ℤ
  fixedSize : ℤ
deriving DecidableEq, Repr

def given (option : Option String) : Bool :=
  option.getD "" ≠ ""

def Partition.diskSize (part : Partition) : ℤ :=
  if part.fixedSize ≠ 0 then part.fixedSize else part.size

/-- `part.size_sec`. -/
def Partition.sizeSec (sectorSize : ℤ) (part : Partition) : ℤ :=
  part.diskSize * 1024 / sectorSize

/-- What `layout_partitions` raises. -/
inductive LayoutError where
  /-- The texts of `WicError`. -/
  | wicError (text : String)
  | zeroDivision
deriving DecidableEq, Repr

/-- `num_real_partitions`. -/
def numRealPartitions (parts : List Partition) : ℕ :=
  (parts.filter fun part => !part.noTable).length

/-- The loop over `part.realnum`, behind as many partitions of the table. -/
def realnums (format : TableFormat) (numReal : ℕ) : ℕ → List Partition → List ℕ
  | _, [] => []
  | realnum, part :: parts =>
      if part.noTable then 0 :: realnums format numReal realnum parts
      else
        (if format = .msdos ∧ 3 < realnum + 1 ∧ 4 < numReal then realnum + 1 + 1
          else realnum + 1) :: realnums format numReal (realnum + 1) parts

/-- The counters of a `PartitionedImage`. -/
structure Counters where
  numpart : ℕ
  realpart : ℕ
  primaryPartNum : ℕ
  extendedpart : ℕ
  logicalPartCnt : ℕ
deriving DecidableEq, Repr

def Counters.zero : Counters :=
  ⟨0, 0, 0, 0, 0⟩

section Numbers

variable (format : TableFormat) (numReal : ℕ) (counters : Counters)
  (part : Partition)

/-- `part.type` when the partition is placed. -/
def placedType : PartType :=
  if format = .msdos ∧ (3 < counters.primaryPartNum ∨
      counters.extendedpart = 0 ∧ 3 ≤ counters.primaryPartNum ∧
        4 < numReal) then
    .logical
  else part.type

def InExtended : Prop :=
  format = .msdos ∧ part.noTable = false ∧
    placedType format numReal counters part = .logical

instance : Decidable (InExtended format numReal counters part) :=
  inferInstanceAs (Decidable (_ ∧ _ ∧ _))

def countPart : Counters :=
  { counters with
    numpart := counters.numpart + 1
    realpart := if part.noTable then counters.realpart
                else counters.realpart + 1 }

/-- The counters and `part.num` at the end of the loop. -/
def numberPart : Counters × ℕ :=
  let type := placedType format numReal counters part
  let counters := countPart counters part
  if part.noTable then (counters, 0)
  else if format = .msdos then
    if type = .logical then
      let num := counters.logicalPartCnt + 1 + 4
      if counters.extendedpart = 0 then
        ({ counters with
            logicalPartCnt := counters.logicalPartCnt + 1
            primaryPartNum := counters.primaryPartNum + 1
            extendedpart := num }, num)
      else ({ counters with logicalPartCnt := counters.logicalPartCnt + 1 },
        num)
    else
      ({ counters with primaryPartNum := counters.primaryPartNum + 1 },
        counters.primaryPartNum + 1)
  else (counters, counters.realpart)

end Numbers

/-- `MBR_OVERHEAD` and `GPT_OVERHEAD`. -/
def overhead : TableFormat → ℤ
  | .msdos => 1
  | .gpt => 34
  | .gptHybrid => 34

def backup : TableFormat → ℤ
  | .msdos => 0
  | .gpt => 34
  | .gptHybrid => 34

/-- A `PartitionedImage` while its partitions are placed. -/
structure Layout where
  counters : Counters
  /-- The next free sector. -/
  offset : ℤ
  extendedSizeSec : ℤ
deriving DecidableEq, Repr

def Layout.new : Layout :=
  ⟨Counters.zero, 0, 0⟩

/-- A partition with what the layout sets. -/
structure Placed where
  part : Partition
  type : PartType
  start : ℤ
  sizeSec : ℤ
  num : ℕ
deriving DecidableEq, Repr

section Places

variable (format : TableFormat) (sectorSize : ℤ) (numReal : ℕ) (layout : Layout)
  (part : Partition)

def checkPart : Except LayoutError Unit :=
  if format = .msdos ∧ given part.partName then
    .error (.wicError ("setting custom partition name is not " ++
      "implemented for msdos partitions"))
  else if format = .msdos ∧ given part.partType then
    .error (.wicError ("setting custom partition type is not " ++
      "implemented for msdos partitions"))
  else if part.mbr ∧ format ≠ .gptHybrid then
    .error (.wicError ("Partition may only be included in MBR with " ++
      "a gpt-hybrid partition table"))
  else .ok ()

def freeSector : ℤ :=
  let offset :=
    if layout.counters.numpart + 1 = 1 then layout.offset + overhead format
    else layout.offset
  if format = .msdos ∧
      placedType format numReal layout.counters part = .logical then
    offset + 2
  else offset

/-- `align_sectors`. -/
def alignSectors (offset : ℤ) : Except LayoutError ℤ :=
  match part.align with
  | none => .ok 0
  | some align =>
      if align = 0 then .ok 0
      else
        let unit := align * 1024 / sectorSize
        if unit = 0 then .error .zeroDivision
        else
          let off := offset.fmod unit
          if off = 0 then .ok 0 else .ok (unit - off)

/-- Where the partition starts, with its `--offset`. -/
def startSector (numpart : ℕ) (offset : ℤ) : Except LayoutError ℤ :=
  match part.offset with
  | none => .ok offset
  | some bytes =>
      let sector := bytes / sectorSize
      if sector * sectorSize ≠ bytes then
        .error (.wicError
          ("Could not place " ++ part.disk ++ toString numpart ++
          " at offset " ++ toString bytes ++ " with sector size " ++
          toString sectorSize))
      else if sector - offset < 0 then
        .error (.wicError
          ("Could not place " ++ part.disk ++ toString numpart ++
          " at offset " ++ toString bytes ++ ": next free sector is " ++
          toString offset ++ " (delta: " ++ toString (sector - offset) ++ ")"))
      else .ok sector

/-- `extended_size_sec` behind the partition. -/
def extendedSize (align : ℤ) : ℤ :=
  if InExtended format numReal layout.counters part then
    (if layout.counters.extendedpart = 0 then layout.extendedSizeSec
      else layout.extendedSizeSec + align) + (part.sizeSec sectorSize + 2)
  else layout.extendedSizeSec

/-- One turn of the loop. -/
def placePart : Except LayoutError (Layout × Placed) := do
  checkPart format part
  let free := freeSector format numReal layout part
  let align ← alignSectors sectorSize part free
  let start ← startSector sectorSize part (layout.counters.numpart + 1)
    (free + align)
  let numbered := numberPart format numReal layout.counters part
  .ok (
    { counters := numbered.1
      offset := start + part.sizeSec sectorSize
      extendedSizeSec :=
        extendedSize format sectorSize numReal layout part align },
    { part := part
      type := placedType format numReal layout.counters part
      start := start
      sizeSec := part.sizeSec sectorSize
      num := numbered.2 })

def placeParts : Layout → List Partition → Except LayoutError
    (Layout × List Placed)
  | layout, [] => .ok (layout, [])
  | layout, part :: parts => do
      let (next, placed) ← placePart format sectorSize numReal layout part
      let (last, later) ← placeParts next parts
      .ok (last, placed :: later)

end Places

/-- An image whose partitions are placed. -/
structure DiskLayout where
  layout : Layout
  placed : List Placed
  /-- In bytes. -/
  minSize : ℤ
deriving DecidableEq, Repr

/-- `layout_partitions`. -/
def layoutPartitions (format : TableFormat) (sectorSize extraSpace : ℤ)
    (parts : List Partition) : Except LayoutError DiskLayout := do
  let (layout, placed) ←
    placeParts format sectorSize (numRealPartitions parts) .new parts
  .ok {
    layout := layout
    placed := placed
    minSize := (layout.offset + backup format) * sectorSize + extraSpace }

/-- The start and the size of the extended partition that `create` makes. -/
def extendedPartition (format : TableFormat) (laid : DiskLayout) :
    Option (ℤ × ℤ) :=
  if format = .msdos then
    (laid.placed.find? fun placed =>
      placed.num ≠ 0 ∧ placed.num = laid.layout.counters.extendedpart).map
        fun placed => (placed.start - 2, laid.layout.extendedSizeSec)
  else none

section Turns

variable {format : TableFormat} {sectorSize : ℤ} {numReal : ℕ}
  {layout next last : Layout} {part : Partition} {parts : List Partition}
  {placed : Placed} {laid : List Placed}

theorem placePart_ok
    (turn : placePart format sectorSize numReal layout part =
      .ok (next, placed)) :
    ∃ align start,
      alignSectors sectorSize part (freeSector format numReal layout part) =
        .ok align ∧
      startSector sectorSize part (layout.counters.numpart + 1)
        (freeSector format numReal layout part + align) = .ok start ∧
      next = {
        counters := (numberPart format numReal layout.counters part).1
        offset := start + part.sizeSec sectorSize
        extendedSizeSec :=
          extendedSize format sectorSize numReal layout part align } ∧
      placed = {
        part := part
        type := placedType format numReal layout.counters part
        start := start
        sizeSec := part.sizeSec sectorSize
        num := (numberPart format numReal layout.counters part).2 } := by
  unfold placePart at turn
  cases checked : checkPart format part with
  | error failure =>
      rw [checked] at turn
      cases turn
  | ok _ =>
      rw [checked] at turn
      simp only [bind, Except.bind] at turn
      cases aligned : alignSectors sectorSize part
        (freeSector format numReal layout part) with
      | error failure =>
          rw [aligned] at turn
          cases turn
      | ok align =>
          simp only [aligned] at turn
          cases started : startSector sectorSize part
            (layout.counters.numpart + 1)
            (freeSector format numReal layout part + align) with
          | error failure =>
              rw [started] at turn
              cases turn
          | ok start =>
              rw [started] at turn
              cases turn
              exact ⟨align, start, rfl, started, rfl, rfl⟩

theorem placeParts_cons_ok
    (run : placeParts format sectorSize numReal layout (part :: parts) =
      .ok (last, laid)) :
    ∃ next placed later,
      placePart format sectorSize numReal layout part = .ok (next, placed) ∧
      placeParts format sectorSize numReal next parts = .ok (last, later) ∧
      laid = placed :: later := by
  rw [placeParts] at run
  cases turn : placePart format sectorSize numReal layout part with
  | error failure =>
      rw [turn] at run
      cases run
  | ok step =>
      obtain ⟨next, placed⟩ := step
      simp only [turn, bind, Except.bind] at run
      cases rest : placeParts format sectorSize numReal next parts with
      | error failure =>
          rw [rest] at run
          cases run
      | ok done =>
          rw [rest] at run
          cases run
          exact ⟨next, placed, done.2, rfl, rest, rfl⟩

theorem layoutPartitions_ok {extraSpace : ℤ} {disk : DiskLayout}
    (run : layoutPartitions format sectorSize extraSpace parts = .ok disk) :
    placeParts format sectorSize (numRealPartitions parts) .new parts =
        .ok (disk.layout, disk.placed) ∧
      disk.minSize =
        (disk.layout.offset + backup format) * sectorSize + extraSpace := by
  unfold layoutPartitions at run
  cases rest : placeParts format sectorSize (numRealPartitions parts) .new
    parts with
  | error failure =>
      rw [rest] at run
      cases run
  | ok done =>
      rw [rest] at run
      cases run
      exact ⟨rfl, rfl⟩

end Turns

end Nvbmc.Wic
