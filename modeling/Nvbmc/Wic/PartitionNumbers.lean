import Nvbmc.Wic.Layout

/-!
# The numbers of the partitions

A partition has a number from when the image is made, which goes into the file
system table, and one from the layout, which goes into the partition table.  The
counters of the layout are followed alone, since no size or place changes them.
-/

namespace Nvbmc.Wic

structure Numbered where
  part : Partition
  type : PartType
  num : ℕ
deriving DecidableEq, Repr

def Placed.numbered (placed : Placed) : Numbered :=
  ⟨placed.part, placed.type, placed.num⟩

def Numbered.logical (numbered : Numbered) : Bool :=
  !numbered.part.noTable && numbered.type = .logical

def Numbered.primary (numbered : Numbered) : Bool :=
  !numbered.part.noTable && numbered.type = .primary

/-- The counters of the layout over all partitions. -/
def numberParts (format : TableFormat) (numReal : ℕ) :
    Counters → List Partition → List Numbered
  | _, [] => []
  | counters, part :: parts =>
      ⟨part, placedType format numReal counters part,
        (numberPart format numReal counters part).2⟩ ::
          numberParts format numReal (numberPart format numReal counters part).1
            parts

/-- The numbers are the same twice, and they can be those of a table. -/
structure NumbersAgree (format : TableFormat) (parts : List Partition)
    (numbers : List Numbered) : Prop where
  agree : numbers.map (·.num) = realnums format (numRealPartitions parts) 0
    parts
  distinct : ((numbers.map (·.num)).filter (· ≠ 0)).Nodup
  primaries : format = .msdos →
    (numbers.filter Numbered.primary).length +
      (if numbers.any Numbered.logical then 1 else 0) ≤ 4
  logicals : format = .msdos →
    (numbers.filter Numbered.logical).map (·.num) =
      List.range' 5 (numbers.filter Numbered.logical).length

/-- Which partitions the source makes primary, whatever they are declared. -/
def firstParts (parts : List Partition) : List Partition :=
  (parts.filter fun part => !part.noTable).take
    (if 4 < numRealPartitions parts then 3 else 4)

section Placed

variable {format : TableFormat} {sectorSize : ℤ} {numReal : ℕ}

theorem placeParts_numbered {layout last : Layout} {parts : List Partition}
    {placed : List Placed}
    (run : placeParts format sectorSize numReal layout parts =
      .ok (last, placed)) :
    placed.map Placed.numbered =
      numberParts format numReal layout.counters parts := by
  induction parts generalizing layout placed with
  | nil =>
      cases run
      rfl
  | cons part parts induction =>
      obtain ⟨next, first, later, turn, rest, rfl⟩ := placeParts_cons_ok run
      obtain ⟨align, start, _, _, rfl, rfl⟩ := placePart_ok turn
      rw [List.map_cons, induction rest]
      rfl

end Placed

section Turn

variable {format : TableFormat} {numReal : ℕ} {counters : Counters}
  {part : Partition}

theorem numberPart_noTable (absent : part.noTable = true) :
    numberPart format numReal counters part =
      ({ counters with numpart := counters.numpart + 1 }, 0) := by
  simp [numberPart, countPart, absent]

theorem numberPart_of_not_msdos (other : format ≠ .msdos)
    (present : part.noTable = false) : numberPart format numReal counters part =
      ({ counters with
          numpart := counters.numpart + 1
          realpart := counters.realpart + 1 }, counters.realpart + 1) := by
  simp [numberPart, countPart, present, other]

theorem numberPart_primary (present : part.noTable = false)
    (primary : placedType .msdos numReal counters part = .primary) :
    numberPart .msdos numReal counters part =
      ({ counters with
          numpart := counters.numpart + 1
          realpart := counters.realpart + 1
          primaryPartNum := counters.primaryPartNum + 1 },
        counters.primaryPartNum + 1) := by
  simp [numberPart, countPart, present, primary]

theorem numberPart_first_logical (present : part.noTable = false)
    (logical : placedType .msdos numReal counters part = .logical)
    (first : counters.extendedpart = 0) :
    numberPart .msdos numReal counters part =
      ({ numpart := counters.numpart + 1
         realpart := counters.realpart + 1
         primaryPartNum := counters.primaryPartNum + 1
         extendedpart := counters.logicalPartCnt + 5
         logicalPartCnt := counters.logicalPartCnt + 1 },
        counters.logicalPartCnt + 5) := by
  simp [numberPart, countPart, present, logical, first]

theorem numberPart_logical (present : part.noTable = false)
    (logical : placedType .msdos numReal counters part = .logical)
    (more : counters.extendedpart ≠ 0) :
    numberPart .msdos numReal counters part =
      ({ counters with
          numpart := counters.numpart + 1
          realpart := counters.realpart + 1
          logicalPartCnt := counters.logicalPartCnt + 1 },
        counters.logicalPartCnt + 5) := by
  simp [numberPart, countPart, present, logical, more]

variable {parts : List Partition}

theorem filter_noTable (absent : part.noTable = true) :
    ((part :: parts).filter fun part => !part.noTable) =
      parts.filter fun part => !part.noTable := by
  simp [absent]

theorem filter_cons (present : part.noTable = false) :
    ((part :: parts).filter fun part => !part.noTable) =
      part :: parts.filter fun part => !part.noTable := by
  simp [present]

theorem numRealPartitions_noTable (absent : part.noTable = true) :
    numRealPartitions (part :: parts) = numRealPartitions parts := by
  simp [numRealPartitions, absent]

theorem numRealPartitions_cons (present : part.noTable = false) :
    numRealPartitions (part :: parts) = numRealPartitions parts + 1 := by
  simp [numRealPartitions, present]

end Turn

section Msdos

variable {numReal : ℕ} {counters : Counters} {part : Partition}
  {parts : List Partition}

/-- Up to the extended partition there are only primary ones, and room for it.
-/
structure Counters.Sound (numReal : ℕ) (counters : Counters) : Prop where
  atMost : counters.primaryPartNum ≤ 4
  before : counters.extendedpart = 0 → counters.logicalPartCnt = 0 ∧
    counters.primaryPartNum = counters.realpart ∧
    (4 < numReal → counters.primaryPartNum ≤ 3)

/-- What the numbers from some counters on are. -/
structure Follow (counters : Counters) (numbers : List Numbered) : Prop where
  bounds : ∀ numbered ∈ numbers, numbered.num = 0 ∨
    counters.primaryPartNum < numbered.num ∧ numbered.num ≤ 4 ∨
    counters.logicalPartCnt + 5 ≤ numbered.num
  distinct : ((numbers.map (·.num)).filter (· ≠ 0)).Nodup
  primaries : counters.primaryPartNum +
    (numbers.filter Numbered.primary).length +
    (if counters.extendedpart = 0 ∧ numbers.any Numbered.logical then 1
     else 0) ≤ 4
  logicals : (numbers.filter Numbered.logical).map (·.num) =
    List.range' (counters.logicalPartCnt + 5)
      (numbers.filter Numbered.logical).length

theorem placedType_primary
    (primary : placedType .msdos numReal counters part = .primary) :
    counters.primaryPartNum ≤ 3 ∧
      (counters.extendedpart = 0 → 4 < numReal →
        counters.primaryPartNum < 3) := by
  unfold placedType at primary
  split_ifs at primary with implicit
  simp only [true_and] at implicit
  omega

variable {numbers : List Numbered}

theorem distinct_cons {numbered : Numbered}
    (new : ∀ other ∈ numbers, other.num ≠ numbered.num)
    (distinct : ((numbers.map (·.num)).filter (· ≠ 0)).Nodup) :
    (((numbered :: numbers).map (·.num)).filter (· ≠ 0)).Nodup := by
  rw [List.map_cons, List.filter_cons]
  split_ifs with counted
  · refine List.nodup_cons.mpr ⟨fun member => ?_, distinct⟩
    obtain ⟨other, inside, same⟩ :=
      List.mem_map.mp (List.mem_filter.mp member).1
    exact new other inside same
  · exact distinct

theorem follow_noTable {type : PartType} (absent : part.noTable = true)
    (follow : Follow { counters with
      numpart := counters.numpart + 1 } numbers) :
    Follow counters (⟨part, type, 0⟩ :: numbers) := by
  obtain ⟨bounds, distinct, primaries, logicals⟩ := follow
  refine ⟨?_, ?_, ?_, ?_⟩
  · intro numbered member
    rcases List.mem_cons.mp member with rfl | later
    · exact .inl rfl
    · exact bounds numbered later
  · simpa using distinct
  · simpa [Numbered.primary, Numbered.logical, absent] using primaries
  · simpa [Numbered.logical, absent] using logicals

theorem follow_primary (present : part.noTable = false)
    (room : counters.primaryPartNum ≤ 3) (follow : Follow { counters with
      numpart := counters.numpart + 1
      realpart := counters.realpart + 1
      primaryPartNum := counters.primaryPartNum + 1 } numbers) :
    Follow counters
      (⟨part, .primary, counters.primaryPartNum + 1⟩ :: numbers) := by
  obtain ⟨bounds, distinct, primaries, logicals⟩ := follow
  simp only at bounds primaries logicals
  refine ⟨?_, distinct_cons ?_ distinct, ?_, ?_⟩
  · intro numbered member
    rcases List.mem_cons.mp member with rfl | later
    · exact .inr (.inl ⟨by simp only; omega, by simp only; omega⟩)
    · have := bounds numbered later
      omega
  · intro numbered later
    have := bounds numbered later
    simp only
    omega
  · have counted : Numbered.primary
        ⟨part, .primary, counters.primaryPartNum + 1⟩ = true := by
      simp [Numbered.primary, present]
    have other : Numbered.logical
        ⟨part, .primary, counters.primaryPartNum + 1⟩ = false := by
      simp [Numbered.logical]
    change counters.primaryPartNum + 1 + _ +
      (if counters.extendedpart = 0 ∧ _ then 1 else 0) ≤ 4 at primaries
    rw [List.filter_cons_of_pos counted, List.length_cons, List.any_cons, other,
      Bool.false_or]
    omega
  · simpa [Numbered.logical] using logicals

theorem follow_logical (present : part.noTable = false) {next : Counters}
    (count : next.logicalPartCnt = counters.logicalPartCnt + 1)
    (room : counters.primaryPartNum +
      (if counters.extendedpart = 0 then 1 else 0) ≤
      next.primaryPartNum) (follow : Follow next numbers) :
    Follow counters
      (⟨part, .logical, counters.logicalPartCnt + 5⟩ :: numbers) := by
  obtain ⟨bounds, distinct, primaries, logicals⟩ := follow
  refine ⟨?_, distinct_cons ?_ distinct, ?_, ?_⟩
  · intro numbered member
    rcases List.mem_cons.mp member with rfl | later
    · exact .inr (.inr (le_refl _))
    · have := bounds numbered later
      omega
  · intro numbered later
    have := bounds numbered later
    simp only
    omega
  · simp only [List.filter_cons, List.any_cons, Numbered.primary,
      Numbered.logical,
      present, Bool.not_false, Bool.true_and, decide_true, reduceCtorEq,
      decide_false, Bool.true_or, and_true, Bool.false_eq_true,
      if_false] at primaries ⊢
    omega
  · simp only [List.filter_cons, Numbered.logical, present, Bool.not_false,
      Bool.true_and, decide_true, if_true, List.map_cons, List.length_cons,
      List.range'_succ] at logicals ⊢
    rw [logicals, count]

theorem follow_numberParts (sound : Counters.Sound numReal counters)
    (count : counters.realpart + numRealPartitions parts = numReal) :
    Follow counters (numberParts .msdos numReal counters parts) := by
  induction parts generalizing counters with
  | nil =>
      refine ⟨fun _ member => absurd member List.not_mem_nil, List.nodup_nil,
        ?_, rfl⟩
      simpa [numberParts] using sound.atMost
  | cons part parts induction =>
      rw [numberParts]
      cases absent : part.noTable with
      | true =>
          rw [numRealPartitions_noTable absent] at count
          rw [numberPart_noTable absent]
          exact follow_noTable absent
            (induction ⟨sound.atMost, sound.before⟩ count)
      | false =>
          rw [numRealPartitions_cons absent] at count
          cases type : placedType .msdos numReal counters part with
          | primary =>
              obtain ⟨room, free⟩ := placedType_primary type
              rw [numberPart_primary absent type]
              apply follow_primary absent room
              apply induction _ (by simp only; omega)
              refine ⟨by simp only; omega, fun none => ?_⟩
              have := sound.before none
              have := free none
              simp only
              omega
          | logical =>
              by_cases first : counters.extendedpart = 0
              · have before := sound.before first
                rw [numberPart_first_logical absent type first]
                refine follow_logical absent ?_ ?_
                  (induction ⟨?_, fun none => absurd none (Nat.succ_ne_zero _)⟩
                    ?_)
                · rfl
                · simp [first]
                · simp only
                  omega
                · simp only
                  omega
              · rw [numberPart_logical absent type first]
                refine follow_logical absent ?_ ?_
                  (induction ⟨sound.atMost, fun none => absurd none first⟩ ?_)
                · rfl
                · simp [first]
                · simp only
                  omega

/-- The counters when the first partitions are primary, as the source expects.
-/
structure Counters.Regular (numReal : ℕ) (counters : Counters) : Prop where
  early : counters.realpart ≤ 3 ∨ numReal ≤ 4 →
    counters.primaryPartNum = counters.realpart ∧ counters.extendedpart = 0 ∧
      counters.logicalPartCnt = 0
  late : 3 < counters.realpart → 4 < numReal →
    counters.primaryPartNum = 4 ∧ counters.extendedpart ≠ 0 ∧
      counters.logicalPartCnt + 3 = counters.realpart

/-- Among the first partitions the type is the declared one, and one that is
logical gets a number that it did not have. -/
theorem numberPart_early (regular : Counters.Regular numReal counters)
    (present : part.noTable = false)
    (early : counters.realpart < if 4 < numReal then 3 else 4) :
    placedType .msdos numReal counters part = part.type ∧
      (part.type = .logical →
        (numberPart .msdos numReal counters part).2 = 5) := by
  have range : counters.realpart ≤ 3 := by
    split_ifs at early <;> omega
  obtain ⟨count, none, zero⟩ := regular.early (.inl range)
  have type : placedType .msdos numReal counters part = part.type := by
    apply if_neg
    split_ifs at early <;> simp only [true_and] <;> omega
  refine ⟨type, fun logical => ?_⟩
  rw [logical] at type
  rw [numberPart_first_logical present type none, zero]

theorem numberPart_late (regular : Counters.Regular numReal counters)
    (present : part.noTable = false) (late : 3 ≤ counters.realpart)
    (many : 4 < numReal) :
    (numberPart .msdos numReal counters part).2 = counters.realpart + 1 + 1 ∧
      (numberPart .msdos numReal counters part).1.realpart =
        counters.realpart + 1 ∧
      Counters.Regular numReal (numberPart .msdos numReal counters part).1 := by
  by_cases first : counters.realpart = 3
  · obtain ⟨count, none, zero⟩ := regular.early (.inl first.le)
    have type : placedType .msdos numReal counters part = .logical := by
      apply if_pos
      simp only [true_and]
      omega
    rw [numberPart_first_logical present type none]
    refine ⟨by simp only; omega, rfl, fun early => ?_, fun _ _ => ?_⟩
    · simp only at early
      omega
    · simp only
      omega
  · obtain ⟨count, known, rest⟩ := regular.late (by omega) many
    have type : placedType .msdos numReal counters part = .logical := by
      apply if_pos
      simp only [true_and]
      omega
    rw [numberPart_logical present type known]
    refine ⟨by simp only; omega, rfl, fun early => ?_, fun _ _ => ?_⟩
    · simp only at early
      omega
    · simp only
      omega

theorem take_firstParts_cons {limit done : ℕ} (inside : done < limit)
    (present : part.noTable = false) :
    (((part :: parts).filter fun part => !part.noTable).take (limit - done)) =
      part :: ((parts.filter fun part => !part.noTable).take
        (limit - (done + 1))) := by
  obtain ⟨rest, rfl⟩ := Nat.exists_eq_add_of_lt inside
  have here : done + rest + 1 - done = rest + 1 := by omega
  have next : done + rest + 1 - (done + 1) = rest := by omega
  rw [filter_cons present, here, next, List.take_succ_cons]

/-- The numbers are the same if and only if the first partitions are declared
primary. -/
theorem agree_iff (regular : Counters.Regular numReal counters)
    (count : counters.realpart + numRealPartitions parts = numReal) :
    (numberParts .msdos numReal counters parts).map (·.num) =
        realnums .msdos numReal counters.realpart parts ↔
      ∀ part ∈ ((parts.filter fun part => !part.noTable).take
        ((if 4 < numReal then 3 else 4) - counters.realpart)),
        part.type = .primary := by
  induction parts generalizing counters with
  | nil => simp [numberParts, realnums]
  | cons part parts induction =>
      rw [numberParts, realnums, List.map_cons]
      cases absent : part.noTable with
      | true =>
          rw [numRealPartitions_noTable absent] at count
          rw [numberPart_noTable absent, filter_noTable absent, if_pos rfl,
            List.cons_inj_right]
          exact induction ⟨regular.early, regular.late⟩ count
      | false =>
          rw [numRealPartitions_cons absent] at count
          rw [if_neg Bool.false_ne_true, List.cons.injEq]
          by_cases early : counters.realpart < if 4 < numReal then 3 else 4
          · obtain ⟨type, differs⟩ := numberPart_early regular absent early
            have range : counters.realpart ≤ 3 := by
              split_ifs at early <;> omega
            have plain : ¬ (3 < counters.realpart + 1 ∧ 4 < numReal) := by
              split_ifs at early <;> omega
            rw [take_firstParts_cons early absent, List.forall_mem_cons]
            simp only [true_and, if_neg plain]
            cases declared : part.type with
            | primary =>
                rw [declared] at type
                have start := regular.early (.inl range)
                have step := numberPart_primary absent type
                rw [step, start.1]
                simp only [true_and]
                apply induction ⟨fun _ => ?_, fun late many => ?_⟩
                  (by simp only; omega)
                · exact ⟨rfl, start.2.1, start.2.2⟩
                · simp only at late
                  rw [if_pos many] at early
                  omega
            | logical =>
                rw [differs declared]
                simp only [reduceCtorEq, false_and, iff_false, not_and]
                intro same
                split_ifs at early <;> omega
          · by_cases many : 4 < numReal
            · rw [if_pos many] at early
              obtain ⟨num, realpart, next⟩ :=
                numberPart_late regular absent (not_lt.mp early) many
              have rest := induction next (by omega)
              have none : ∀ done, 3 ≤ done →
                  (if 4 < numReal then 3 else 4) - done = 0 := by
                intro done behind
                rw [if_pos many]
                omega
              rw [realpart, none _ (by omega), List.take_zero] at rest
              have skipped : 3 < counters.realpart + 1 ∧ 4 < numReal := by omega
              rw [none _ (by omega), List.take_zero]
              simpa [num, skipped] using rest
            · rw [if_neg many] at early
              omega

end Msdos

section Agree

variable {format : TableFormat} {numReal : ℕ} {counters : Counters}
  {parts : List Partition}

theorem numberParts_of_not_msdos (other : format ≠ .msdos) :
    (numberParts format numReal counters parts).map (·.num) =
        realnums format numReal counters.realpart parts ∧
      (((numberParts format numReal counters parts).map (·.num)).filter
        (· ≠ 0)).Nodup ∧
      ∀ numbered ∈ numberParts format numReal counters parts,
        numbered.num = 0 ∨ counters.realpart < numbered.num := by
  induction parts generalizing counters with
  | nil =>
      exact ⟨rfl, List.nodup_nil, fun _ member =>
        absurd member List.not_mem_nil⟩
  | cons part parts induction =>
      rw [numberParts, realnums]
      cases absent : part.noTable with
      | true =>
          rw [numberPart_noTable absent]
          obtain ⟨same, distinct, bounds⟩ := @induction
            { counters with numpart := counters.numpart + 1 }
          refine ⟨?_, ?_, ?_⟩
          · rw [List.map_cons, same, if_pos rfl]
          · simpa using distinct
          · intro numbered member
            rcases List.mem_cons.mp member with rfl | later
            · exact .inl rfl
            · exact bounds numbered later
      | false =>
          have plain : ¬ (format = .msdos ∧ 3 < counters.realpart + 1 ∧
              4 < numReal) := fun both => other both.1
          rw [numberPart_of_not_msdos other absent, if_neg Bool.false_ne_true,
            if_neg plain]
          obtain ⟨same, distinct, bounds⟩ := @induction
            { counters with
              numpart := counters.numpart + 1
              realpart := counters.realpart + 1 }
          refine ⟨?_, distinct_cons ?_ distinct, ?_⟩
          · rw [List.map_cons, same]
          · intro numbered later
            have := bounds numbered later
            simp only at this ⊢
            omega
          · intro numbered member
            rcases List.mem_cons.mp member with rfl | later
            · exact .inr (Nat.lt_succ_self _)
            · have := bounds numbered later
              simp only at this
              omega

theorem sound_zero : Counters.Sound numReal .zero :=
  ⟨by decide, fun _ => ⟨rfl, rfl, fun _ => by decide⟩⟩

theorem regular_zero : Counters.Regular numReal .zero :=
  ⟨fun _ => ⟨rfl, rfl, rfl⟩, nofun⟩

/-- The numbers of an image agree if and only if no partition is declared
logical that is one of the first. -/
theorem numbersAgree_iff {sectorSize extraSpace : ℤ} {disk : DiskLayout}
    (run : layoutPartitions format sectorSize extraSpace parts = .ok disk) :
    NumbersAgree format parts (disk.placed.map Placed.numbered) ↔
      (format = .msdos → ∀ part ∈ firstParts parts, part.type = .primary) := by
  rw [placeParts_numbered (layoutPartitions_ok run).1]
  have count : Counters.zero.realpart + numRealPartitions parts =
      numRealPartitions parts := Nat.zero_add _
  by_cases msdos : format = .msdos
  · subst format
    have same := agree_iff regular_zero count
    have follow := follow_numberParts sound_zero count
    constructor
    · exact fun agree _ => same.mp agree.agree
    · intro first
      refine ⟨same.mpr (first rfl), follow.distinct, fun _ => ?_, fun _ => ?_⟩
      · simpa [Counters.zero, Layout.new] using follow.primaries
      · simpa [Counters.zero, Layout.new] using follow.logicals
  · obtain ⟨same, distinct, _⟩ := @numberParts_of_not_msdos format
      (numRealPartitions parts) .zero parts msdos
    exact ⟨fun _ absurd => (msdos absurd).elim, fun _ => ⟨same, distinct,
      fun absurd => (msdos absurd).elim, fun absurd => (msdos absurd).elim⟩⟩

end Agree

def megabyte (type : PartType) : Partition :=
  { disk := "sda"
    partName := none
    partType := none
    mbr := false
    noTable := false
    type := type
    align := none
    offset := none
    size := 1024
    fixedSize := 0 }

theorem numbersAgree_five :
    ∃ disk, layoutPartitions .msdos 512 0
      (List.replicate 5 (megabyte .primary)) = .ok disk ∧
      NumbersAgree .msdos (List.replicate 5 (megabyte .primary))
        (disk.placed.map Placed.numbered) :=
  ⟨_, rfl, (numbersAgree_iff rfl).mpr fun _ => by decide⟩

/-- A partition that is declared logical is the first one and the fifth. -/
theorem not_numbersAgree_logical :
    ¬ ∀ (format : TableFormat) (sectorSize extraSpace : ℤ)
      (parts : List Partition) (disk : DiskLayout),
      layoutPartitions format sectorSize extraSpace parts = .ok disk →
      NumbersAgree format parts (disk.placed.map Placed.numbered) := by
  intro agrees
  have both := (agrees .msdos 512 0 [megabyte .logical] _ rfl).agree
  revert both
  decide

end Nvbmc.Wic
