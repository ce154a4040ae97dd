import Nvbmc.FpgaRegtbl.AlertBits

/-!
# The alert files of a dump

Which files `dump_all_alerts` leaves in an empty cache.  A register whose value
has bit 63 is negative and has no alerts, and the files of a register are
removed by a later one whose pattern they match.
-/

namespace Nvbmc.FpgaRegtbl

open Nvbmc.Library

/-- The names are distinct, and each mask has as many ones as the module has
devices. -/
structure WellFormed (rows : List Register) : Prop where
  distinct : (rows.map Register.name).Nodup
  hasBytes : ∀ row ∈ rows, 0 < row.byteLen
  contiguous : ∀ row ∈ rows, row.bitMask = (2 ^ row.devPerModule - 1) *
    2 ^ row.shift

def Register.Shows (register : Register) (dump : List (BitVec 8)) (index : ℕ) :
    Prop :=
  index < register.devPerModule ∧
    (register.value dump).testBit (register.shift + index)

def Register.Alerted (register : Register) (primary secondary : List (BitVec 8))
    (device : ℕ) : Prop :=
  register.Shows primary device ∨
    ∃ index, device = register.devPerModule + index ∧
      register.Shows secondary index

/-- The dump ends, and the files are those of the alerts.  Without a secondary
dump it is empty. -/
def Exact (glob : Globbing) (rows : List Register)
    (primary secondary : List (BitVec 8)) : Prop :=
  ∃ fuel files,
    dumpAllAlerts glob fuel rows (dumpText primary) (dumpText secondary) [] =
      some files ∧
    ∀ file, file ∈ files ↔
      ∃ row ∈ rows, ∃ device, row.Alerted primary secondary device ∧
        file = alertFile row.name device

/-- The alerts of a module are bits of a positive number. -/
def Register.Fits (register : Register) (dump : List (BitVec 8)) : Prop :=
  ∀ index, register.Shows dump index → register.shift + index < 63

/-- The lowest bit of each mask and all alerts are bits of a positive number,
and the file of no alert matches the pattern of a later register. -/
structure Readable (glob : Globbing) (rows : List Register)
    (primary secondary : List (BitVec 8)) : Prop where
  ends : ∀ row ∈ rows, row.shift < 64
  primaryFits : ∀ row ∈ rows, row.Fits primary
  secondaryFits : ∀ row ∈ rows, row.Fits secondary
  kept : ∀ row later, row :: later <:+ rows →
    ∀ device, row.Alerted primary secondary device → ∀ other ∈ later,
      ¬ glob.takes (alertPattern other.name) (alertFile row.name device)

section Loops

variable {word : BitVec 64}

theorem and_one_ne_zero : word &&& 1 ≠ 0 ↔ word.getLsbD 0 = true := by
  have isBit : (word &&& 1).toNat = word.toNat % 2 := by
    rw [BitVec.toNat_and]
    exact Nat.and_one_is_mod _
  have isZero : (0 : BitVec 64).toNat = 0 := rfl
  rw [Ne, ← BitVec.toNat_inj, isBit, isZero, BitVec.getLsbD, Nat.testBit_zero,
    decide_eq_true_eq]
  omega

theorem getLsbD_sshiftRight_of_lt {shift index : ℕ}
    (inside : shift + index < 64) :
    (word.sshiftRight shift).getLsbD index = word.getLsbD (shift + index) := by
  have notOut : ¬ 64 ≤ index := by omega
  rw [BitVec.getLsbD_sshiftRight, if_pos inside, decide_eq_false notOut]
  rfl

theorem getLsbD_sshiftRight_of_msb (positive : word.msb = false)
    (shift index : ℕ) :
    (word.sshiftRight shift).getLsbD index = word.getLsbD (shift + index) := by
  by_cases inside : shift + index < 64
  · exact getLsbD_sshiftRight_of_lt inside
  · rw [BitVec.getLsbD_sshiftRight, if_neg inside, positive, Bool.and_false,
      BitVec.getLsbD_of_ge _ _ (by omega)]

variable {mask primary secondary : BitVec 64}

theorem shiftLoop_of_lowest {fuel shift : ℕ} (isSet : mask.getLsbD shift = true)
    (lowest : ∀ index < shift, mask.getLsbD index = false)
    (enough : shift ≤ fuel) :
    shiftLoop fuel mask primary secondary =
      some (primary.sshiftRight shift, secondary.sshiftRight shift) := by
  induction shift generalizing mask primary secondary fuel with
  | zero =>
      rw [shiftLoop.eq_def, if_pos (and_one_ne_zero.mpr isSet),
        BitVec.sshiftRight_zero, BitVec.sshiftRight_zero]
  | succ shift induction =>
      have below := BitVec.lt_of_getLsbD isSet
      have notSet : ¬ mask &&& 1 ≠ 0 := by
        intro isLow
        have isLow := and_one_ne_zero.mp isLow
        rw [lowest 0 (by omega)] at isLow
        cases isLow
      cases fuel with
      | zero => omega
      | succ fuel =>
          rw [shiftLoop.eq_def, if_neg notSet, Nat.add_comm shift 1,
            BitVec.sshiftRight_add, BitVec.sshiftRight_add]
          apply induction _ _ (by omega)
          · rw [getLsbD_sshiftRight_of_lt (by omega), Nat.add_comm]
            exact isSet
          · intro index isBelow
            rw [getLsbD_sshiftRight_of_lt (by omega)]
            exact lowest _ (by omega)

theorem shiftLoop_of_fuel_lt {fuel shift : ℕ}
    (lowest : ∀ index < shift, mask.getLsbD index = false) (inWord : shift < 64)
    (short : fuel < shift) : shiftLoop fuel mask primary secondary = none := by
  have notSet : ¬ mask &&& 1 ≠ 0 := by
    intro isLow
    have isLow := and_one_ne_zero.mp isLow
    rw [lowest 0 (by omega)] at isLow
    cases isLow
  induction fuel generalizing mask primary secondary shift with
  | zero => rw [shiftLoop.eq_def, if_neg notSet]
  | succ fuel induction =>
      have later : ∀ index < shift - 1, (mask.sshiftRight 1).getLsbD index =
          false := by
        intro index isBelow
        rw [getLsbD_sshiftRight_of_lt (by omega)]
        exact lowest _ (by omega)
      rw [shiftLoop.eq_def, if_neg notSet]
      apply induction later (by omega) (by omega)
      intro isLow
      have isLow := and_one_ne_zero.mp isLow
      rw [later 0 (by omega)] at isLow
      cases isLow

theorem shiftLoop_zero (fuel : ℕ) (primary secondary : BitVec 64) :
    shiftLoop fuel 0 primary secondary = none := by
  induction fuel generalizing primary secondary with
  | zero => rfl
  | succ fuel induction => exact induction _ _

theorem toInt_pos_iff {work : BitVec 64} : 0 < work.toInt ↔ work.msb = false ∧
    work ≠ 0 := by
  have isNegative : work.msb = decide (work.toInt < 0) := BitVec.msb_eq_toInt
  have isZero : work = 0 ↔ work.toInt = 0 := by
    rw [← BitVec.toInt_inj]
    rfl
  rw [isNegative, decide_eq_false_iff_not, Ne, isZero]
  omega

variable {limit : Option ℕ}

theorem not_found_of_ended {device found : ℕ} {work : BitVec 64}
    (ended : ¬ (0 < work.toInt ∧ limit.all (device < ·) = true)) :
    ¬ ∃ index, found = device + index ∧ limit.all (found < ·) = true ∧
      work.msb = false ∧ work.getLsbD index = true := by
  intro ⟨index, same, below, positive, isSet⟩
  apply ended
  constructor
  · apply toInt_pos_iff.mpr ⟨positive, ?_⟩
    intro isZero
    rw [isZero, BitVec.ofNat_eq_ofNat, BitVec.getLsbD_zero] at isSet
    cases isSet
  · cases limit with
    | none => rfl
    | some limit =>
        rw [Option.all_some, decide_eq_true_eq] at below ⊢
        omega

variable {fuel device : ℕ}

theorem devicesLoop_cases {work : BitVec 64}
    {devices : List ℕ}
    (isFound : devicesLoop limit fuel work device = some devices) :
    (¬ (0 < work.toInt ∧ limit.all (device < ·) = true) ∧ devices = []) ∨
    (0 < work.toInt ∧ limit.all (device < ·) = true) ∧ ∃ rest later,
      fuel = rest + 1 ∧
      devicesLoop limit rest (work.sshiftRight 1) (device + 1) = some later ∧
      devices = if work &&& 1 ≠ 0 then device :: later else later := by
  rw [devicesLoop.eq_def] at isFound
  by_cases more : 0 < work.toInt ∧ limit.all (device < ·) = true
  · rw [if_pos more] at isFound
    cases fuel with
    | zero => cases isFound
    | succ rest =>
        obtain ⟨later, isLater, isDevices⟩ := Option.bind_eq_some_iff.mp isFound
        refine .inr ⟨more, rest, later, rfl, isLater, ?_⟩
        rw [← apply_ite some] at isDevices
        exact (Option.some.inj isDevices).symm
  · rw [if_neg more] at isFound
    exact .inl ⟨more, (Option.some.inj isFound).symm⟩

theorem mem_devicesLoop {work : BitVec 64}
    {devices : List ℕ}
    (isFound : devicesLoop limit fuel work device = some devices) (found : ℕ) :
    found ∈ devices ↔ ∃ index, found = device + index ∧
      limit.all (found < ·) = true ∧
      work.msb = false ∧ work.getLsbD index = true := by
  induction fuel generalizing work device devices with
  | zero =>
      rcases devicesLoop_cases isFound with ⟨ended, rfl⟩ |
        ⟨_, _, _, impossible, _⟩
      · exact iff_of_false List.not_mem_nil (not_found_of_ended ended)
      · cases impossible
  | succ fuel induction =>
      rcases devicesLoop_cases isFound with ⟨ended, rfl⟩ |
        ⟨more, rest, later, isRest, isLater, rfl⟩
      · exact iff_of_false List.not_mem_nil (not_found_of_ended ended)
      · cases isRest
        have positive := (toInt_pos_iff.mp more.1).1
        have shifted : (work.sshiftRight 1).msb = false := by
          rw [BitVec.msb_sshiftRight]
          exact positive
        have first : found = device → limit.all (found < ·) = true :=
          fun same => same ▸ more.2
        have isMember : found ∈
            (if work &&& 1 ≠ 0 then device :: later else later) ↔
            (found = device ∧ work.getLsbD 0 = true) ∨ found ∈ later := by
          by_cases isSet : work &&& 1 ≠ 0
          · rw [if_pos isSet, List.mem_cons,
              and_iff_left (and_one_ne_zero.mp isSet)]
          · have notSet : ¬ work.getLsbD 0 = true :=
              fun isBit => isSet (and_one_ne_zero.mpr isBit)
            rw [if_neg isSet, or_iff_right (fun both => notSet both.2)]
        rw [isMember, induction isLater]
        simp only [shifted, getLsbD_sshiftRight_of_msb positive, positive]
        constructor
        · intro member
          rcases member with ⟨same, isSet⟩ | ⟨index, same, below, _, isSet⟩
          · exact ⟨0, same, first same, trivial, isSet⟩
          · exact ⟨1 + index, by omega, below, trivial, isSet⟩
        · intro ⟨index, same, below, _, isSet⟩
          cases index with
          | zero => exact .inl ⟨same, isSet⟩
          | succ index =>
              exact .inr
                ⟨index, by omega, below, trivial, Nat.add_comm index 1 ▸ isSet⟩

theorem devicesLoop_terminates {work : BitVec 64}
    (enough : work.toNat < 2 ^ fuel) :
    ∃ devices, devicesLoop limit fuel work device = some devices := by
  induction fuel generalizing work device with
  | zero =>
      have isZero : work = 0 := by
        apply BitVec.eq_of_toNat_eq
        have none : (0 : BitVec 64).toNat = 0 := rfl
        omega
      refine ⟨[], ?_⟩
      rw [devicesLoop.eq_def, if_neg]
      intro ⟨positive, _⟩
      exact (toInt_pos_iff.mp positive).2 isZero
  | succ fuel induction =>
      rw [devicesLoop.eq_def]
      by_cases more : 0 < work.toInt ∧ limit.all (device < ·) = true
      · rw [if_pos more]
        have positive := (toInt_pos_iff.mp more.1).1
        have half : (work.sshiftRight 1).toNat = work.toNat / 2 := by
          rw [BitVec.sshiftRight_eq_of_msb_false positive,
            BitVec.toNat_ushiftRight, Nat.shiftRight_one]
        have smaller : (work.sshiftRight 1).toNat < 2 ^ fuel := by
          rw [Nat.pow_succ] at enough
          omega
        obtain ⟨later, isLater⟩ := @induction (device + 1) _ smaller
        refine ⟨if work &&& 1 ≠ 0 then device :: later else later, ?_⟩
        rw [apply_ite some]
        simp only [isLater, Option.bind_eq_bind, Option.bind_some]
      · rw [if_neg more]
        exact ⟨[], rfl⟩

end Loops

/-- The bit for a device is read in a masked value, which is positive. -/
def Register.Reads (register : Register) (word : BitVec 64) (index : ℕ) :
    Prop :=
  word.msb = false ∧ word.getLsbD (register.shift + index) = true

/-- The device is found in one of the dumps. -/
def Register.Finds (register : Register) (primary secondary : List (BitVec 8))
    (device : ℕ) : Prop :=
  (device < register.devPerModule ∧
    register.Reads (register.masked (dumpText primary)) device) ∨
  ∃ index, device = register.devPerModule + index ∧ secondary ≠ [] ∧
    register.Reads (register.masked (dumpText secondary)) index

section Rows

variable {register : Register} {primary secondary dump : List (BitVec 8)}

theorem not_testBit_of_lt_maskShift {fuel mask index : ℕ}
    (below : index < maskShift fuel mask) : mask.testBit index = false := by
  induction fuel generalizing mask index with
  | zero => cases below
  | succ fuel induction =>
      rw [maskShift] at below
      split_ifs at below with even
      · cases index with
        | zero =>
            rw [Nat.testBit_zero, decide_eq_false_iff_not]
            omega
        | succ index =>
            rw [Nat.testBit_succ]
            exact induction (by omega)
      · cases below

theorem getLsbD_mask64 (index : ℕ) : register.mask64.getLsbD index =
    (decide (index < 64) && register.bitMask.testBit index) :=
  BitVec.getLsbD_ofNat _ _ _

theorem shiftLoop_mask64 {fuel : ℕ} {first second : BitVec 64} :
    shiftLoop fuel register.mask64 first second =
      if register.shift < 64 ∧ register.shift ≤ fuel then
        some (first.sshiftRight register.shift,
          second.sshiftRight register.shift)
      else none := by
  have lowest : ∀ index < register.shift, register.mask64.getLsbD index =
      false := by
    intro index below
    rw [getLsbD_mask64, not_testBit_of_lt_maskShift below, Bool.and_false]
  by_cases inWord : register.shift < 64
  · have isSet : register.mask64.getLsbD register.shift = true := by
      rw [getLsbD_mask64, Register.shift, testBit_maskShift register.bitMask_pos
        le_rfl, ← Register.shift, decide_eq_true inWord]
      rfl
    by_cases enough : register.shift ≤ fuel
    · rw [if_pos ⟨inWord, enough⟩]
      exact shiftLoop_of_lowest isSet lowest enough
    · rw [if_neg (fun both => enough both.2)]
      exact shiftLoop_of_fuel_lt lowest inWord (not_le.mp enough)
  · have isZero : register.mask64 = 0 := by
      apply BitVec.eq_of_getLsbD_eq
      intro index below
      rw [lowest index (by omega), BitVec.ofNat_eq_ofNat, BitVec.getLsbD_zero]
    rw [if_neg (fun both => inWord both.1), isZero, shiftLoop_zero]

theorem dumpText_ne_nil : dumpText dump ≠ [] ↔ dump ≠ [] := by
  cases dump with
  | nil => simp [dumpText]
  | cons byte dump =>
      cases dump with
      | nil => simp [dumpText_singleton, byteText]
      | cons next dump => simp [dumpText_cons, byteText]

theorem mem_devicesLoop_shifted {limit : Option ℕ} {fuel : ℕ} {word : BitVec 64}
    {devices : List ℕ}
    (isFound : devicesLoop limit fuel (word.sshiftRight register.shift) 0 =
      some devices)
    (found : ℕ) :
    found ∈ devices ↔ limit.all (found < ·) = true ∧
      register.Reads word found := by
  rw [mem_devicesLoop isFound, Register.Reads, BitVec.msb_sshiftRight]
  constructor
  · intro ⟨index, same, below, positive, isSet⟩
    rw [Nat.zero_add] at same
    rw [getLsbD_sshiftRight_of_msb positive, ← same] at isSet
    exact ⟨below, positive, isSet⟩
  · intro ⟨below, positive, isSet⟩
    exact ⟨found, (Nat.zero_add found).symm, below, positive,
      (getLsbD_sshiftRight_of_msb positive _ _).trans isSet⟩

theorem mem_alertDevices {fuel : ℕ} {devices : List ℕ}
    (isFound : register.alertDevices fuel (dumpText primary)
      (dumpText secondary) = some devices) :
    register.shift < 64 ∧
      ∀ device, device ∈ devices ↔ register.Finds primary secondary device := by
  rw [Register.alertDevices] at isFound
  obtain ⟨⟨first, second⟩, isShifted, isFound⟩ :=
    Option.bind_eq_some_iff.mp isFound
  rw [shiftLoop_mask64] at isShifted
  obtain ⟨⟨inWord, _⟩, isPair⟩ := Option.ite_none_right_eq_some.mp isShifted
  refine ⟨inWord, ?_⟩
  cases isPair
  obtain ⟨own, isOwn, isFound⟩ := Option.bind_eq_some_iff.mp isFound
  intro device
  rw [Register.Finds]
  have inOwn := mem_devicesLoop_shifted isOwn device
  rw [Option.all_some, decide_eq_true_eq] at inOwn
  by_cases hasSecond : secondary ≠ []
  · rw [if_pos (dumpText_ne_nil.mpr hasSecond)] at isFound
    obtain ⟨others, isOthers, isDevices⟩ := Option.bind_eq_some_iff.mp isFound
    cases isDevices
    rw [if_pos (dumpText_ne_nil.mpr hasSecond)] at isOthers
    have inOthers := mem_devicesLoop_shifted isOthers
    simp only [Option.all_none, true_and] at inOthers
    rw [List.mem_append, inOwn, List.mem_map]
    apply or_congr_right
    constructor
    · intro ⟨index, isIndex, same⟩
      exact ⟨index, same.symm, hasSecond, (inOthers index).mp isIndex⟩
    · intro ⟨index, same, _, reads⟩
      exact ⟨index, (inOthers index).mpr reads, same.symm⟩
  · rw [if_neg (fun isText => hasSecond (dumpText_ne_nil.mp isText))] at isFound
    cases isFound
    rw [inOwn, or_iff_left]
    intro ⟨_, _, isSecond, _⟩
    exact hasSecond isSecond

theorem alertDevices_terminates (inWord : register.shift < 64)
    (curData secData : Text) :
    ∃ devices, register.alertDevices 64 curData secData = some devices := by
  have ends (limit : Option ℕ) (work : BitVec 64) :
      ∃ devices, devicesLoop limit 64 work 0 = some devices :=
    devicesLoop_terminates work.isLt
  rw [Register.alertDevices, shiftLoop_mask64, if_pos ⟨inWord, inWord.le⟩,
    Option.bind_eq_bind, Option.bind_some]
  obtain ⟨own, isOwn⟩ := ends (some register.devPerModule)
    ((register.masked curData).sshiftRight register.shift)
  simp only [isOwn, Option.bind_eq_bind, Option.bind_some]
  split_ifs with hasSecond
  · obtain ⟨others, isOthers⟩ :=
      ends none ((register.masked secData).sshiftRight register.shift)
    rw [isOthers]
    exact ⟨_, rfl⟩
  · exact ⟨_, rfl⟩

end Rows

section Files

variable {rows : List Register} {register : Register}
  {primary secondary dump : List (BitVec 8)} (isRow : register ∈ rows)
include isRow

variable (wellFormed : WellFormed rows)
include wellFormed

theorem WellFormed.testBit_bitMask (position : ℕ) :
    register.bitMask.testBit position = (decide (register.shift ≤ position) &&
        decide (position - register.shift < register.devPerModule)) := by
  rw [wellFormed.contiguous register isRow, Nat.testBit_mul_two_pow,
    Nat.testBit_two_pow_sub_one]

theorem WellFormed.getLsbD_masked
    (position : ℕ) : (register.masked (dumpText dump)).getLsbD position = true ↔
      position < 64 ∧ ∃ index, position = register.shift + index ∧
        register.Shows dump index := by
  rw [register.masked_dumpText (wellFormed.hasBytes register isRow),
    BitVec.getLsbD_and,
    BitVec.getLsbD_ofNat, getLsbD_mask64, wellFormed.testBit_bitMask isRow]
  simp only [Bool.and_eq_true, decide_eq_true_eq, Register.Shows]
  constructor
  · intro ⟨⟨inWord, isSet⟩, _, above, below⟩
    have same : register.shift + (position - register.shift) = position := by
      omega
    exact ⟨inWord, position - register.shift, same.symm,
      below, by rw [same]; exact isSet⟩
  · intro ⟨inWord, index, same, below, isSet⟩
    rw [← same] at isSet
    exact ⟨⟨inWord, isSet⟩, inWord, by omega, by omega⟩

theorem WellFormed.reads_iff (index : ℕ) :
    register.Reads (register.masked (dumpText dump)) index ↔
      (∀ other, register.Shows dump other → register.shift + other ≠ 63) ∧
        register.shift + index < 64 ∧ register.Shows dump index := by
  have isSign : (register.masked (dumpText dump)).msb = false ↔
      ∀ other, register.Shows dump other → register.shift + other ≠ 63 := by
    rw [BitVec.msb_eq_getLsbD_last, ← Bool.not_eq_true,
      wellFormed.getLsbD_masked isRow]
    constructor
    · intro noSign other shows isLast
      exact noSign ⟨by decide, other, isLast.symm, shows⟩
    · intro noSign ⟨_, other, isLast, shows⟩
      exact noSign other shows isLast.symm
  rw [Register.Reads, isSign, wellFormed.getLsbD_masked isRow]
  constructor
  · intro ⟨positive, inWord, other, same, shows⟩
    have isOther : other = index := by omega
    exact ⟨positive, inWord, isOther ▸ shows⟩
  · intro ⟨positive, inWord, shows⟩
    exact ⟨positive, inWord, index, rfl, shows⟩

theorem WellFormed.fits_iff :
    register.Fits dump ↔ ∀ index, register.Shows dump index →
      register.Reads (register.masked (dumpText dump)) index := by
  constructor
  · intro fits index shows
    apply (wellFormed.reads_iff isRow index).mpr
    refine ⟨fun other isOther => ?_, ?_, shows⟩
    · have below := fits other isOther
      omega
    · have below := fits index shows
      omega
  · intro reads index shows
    obtain ⟨noSign, inWord, _⟩ :=
      (wellFormed.reads_iff isRow index).mp (reads index shows)
    have notLast := noSign index shows
    omega

omit wellFormed

omit isRow

theorem not_shows_nil (register : Register) (index : ℕ) :
    ¬ register.Shows [] index := by
  intro ⟨_, isSet⟩
  rw [Register.value, List.drop_nil, List.take_nil, littleEndian,
    List.foldr_nil, Nat.zero_testBit] at isSet
  cases isSet

theorem WellFormed.alerted_of_mem (wellFormed : WellFormed rows)
    (isRow : register ∈ rows) {fuel device : ℕ} {devices : List ℕ}
    (isFound : register.alertDevices fuel (dumpText primary)
      (dumpText secondary) = some devices)
    (member : device ∈ devices) :
    register.Alerted primary secondary device := by
  rcases ((mem_alertDevices isFound).2 device).mp member with
    ⟨_, reads⟩ | ⟨index, same, _, reads⟩
  · exact .inl ((wellFormed.reads_iff isRow device).mp reads).2.2
  · exact .inr ⟨index, same, ((wellFormed.reads_iff isRow index).mp reads).2.2⟩

theorem WellFormed.found_iff (wellFormed : WellFormed rows)
    (isRow : register ∈ rows) {fuel : ℕ} {devices : List ℕ}
    (isFound : register.alertDevices fuel (dumpText primary)
      (dumpText secondary) = some devices) :
    (∀ device, register.Alerted primary secondary device → device ∈ devices) ↔
      register.Fits primary ∧ register.Fits secondary := by
  have inDevices := (mem_alertDevices isFound).2
  rw [wellFormed.fits_iff isRow, wellFormed.fits_iff isRow]
  constructor
  · intro found
    constructor
    · intro index shows
      rcases (inDevices index).mp (found index (.inl shows)) with ⟨_, reads⟩ |
        ⟨other, same, _⟩
      · exact reads
      · have below := shows.1
        omega
    · intro index shows
      rcases (inDevices _).mp (found _ (.inr ⟨index, rfl, shows⟩)) with
        ⟨below, _⟩ | ⟨other, same, _, reads⟩
      · omega
      · exact Nat.add_left_cancel same ▸ reads
  · intro ⟨first, second⟩ device alerted
    apply (inDevices device).mpr
    rcases alerted with shows | ⟨index, same, shows⟩
    · exact .inl ⟨shows.1, first device shows⟩
    · refine .inr ⟨index, same, ?_, second index shows⟩
      intro isEmpty
      exact not_shows_nil register index (isEmpty ▸ shows)

theorem dumpAllAlerts_eq_some {glob : Globbing} {fuel : ℕ}
    {curData secData : Text} {files result : List Text} :
    dumpAllAlerts glob fuel rows curData secData files = some result ↔
      (∀ row ∈ rows, ∃ devices,
        row.alertDevices fuel curData secData = some devices) ∧
      result = runAll glob files (rows.flatMap fun row =>
        alertCommands row.name
          ((row.alertDevices fuel curData secData).getD [])) := by
  induction rows generalizing files with
  | nil => simp [dumpAllAlerts, runAll, eq_comm]
  | cons row rows induction =>
      rw [dumpAllAlerts, List.foldlM_cons]
      cases isFound : row.alertDevices fuel curData secData with
      | none => simp [isFound]
      | some devices =>
          rw [Option.map_some, Option.bind_eq_bind, Option.bind_some]
          change dumpAllAlerts glob fuel rows curData secData _ = some result ↔
            _
          rw [induction, List.flatMap_cons, isFound, Option.getD_some, runAll,
            runAll, runAll, List.foldl_append]
          simp [isFound]

theorem WellFormed.later_unique (wellFormed : WellFormed rows)
    {row other : Register} {later later' : List Register}
    (isPart : row :: later <:+ rows)
    (isOther : other :: later' <:+ rows) (sameName : other.name = row.name) :
    other = row ∧ later' = later := by
  have unique {first second : Register} {after before : List Register}
      (inside : first :: after <:+ second :: before)
      (isSecond : second :: before <:+ rows)
      (same : first.name = second.name) : first = second ∧ after = before := by
    rcases List.suffix_cons_iff.mp inside with isSame | deeper
    · exact List.cons.inj isSame
    · have nodup :=
        wellFormed.distinct.sublist (isSecond.sublist.map Register.name)
      rw [List.map_cons, List.nodup_cons] at nodup
      have member := deeper.mem List.mem_cons_self
      exact absurd (same ▸ List.mem_map_of_mem member) nodup.1
  rcases List.suffix_or_suffix_of_suffix isPart isOther with inside | inside
  · obtain ⟨isRow, isLater⟩ := unique inside isOther sameName.symm
    exact ⟨isRow.symm, isLater.symm⟩
  · exact unique inside isPart sameName

end Files

variable {glob : Globbing} {primary secondary : List (BitVec 8)}

theorem Exact.readable {rows : List Register}
    (isExact : Exact glob rows primary secondary)
    (wellFormed : WellFormed rows) :
    Readable glob rows primary secondary := by
  obtain ⟨fuel, files, isDump, isExact⟩ := isExact
  obtain ⟨ends, isResult⟩ := dumpAllAlerts_eq_some.mp isDump
  have inFiles {file : Text} := isResult ▸
    @mem_runAll_alertCommands glob [] rows file fun row =>
      (row.alertDevices fuel (dumpText primary) (dumpText secondary)).getD []
  -- an alert of a row is found in it, and its file is not removed
  have found : ∀ row later, row :: later <:+ rows → ∀ device,
      row.Alerted primary secondary device →
      device ∈ (row.alertDevices fuel (dumpText primary)
        (dumpText secondary)).getD [] ∧
      ∀ other ∈ later,
        ¬ glob.takes (alertPattern other.name) (alertFile row.name device) := by
    intro row later isPart device alerted
    have isRow := isPart.mem List.mem_cons_self
    have isFile := (isExact _).mpr ⟨row, isRow, device, alerted, rfl⟩
    rcases inFiles.mp isFile with
      ⟨impossible, _⟩ | ⟨row', later', isPart', isTouched, kept⟩
    · cases impossible
    · obtain ⟨device', isDevice, sameFile⟩ := isTouched
      obtain ⟨sameName, sameDevice⟩ := alertFile_inj.mp sameFile
      obtain ⟨rfl, rfl⟩ := wellFormed.later_unique isPart isPart' sameName.symm
      exact ⟨sameDevice ▸ isDevice, kept⟩
  have foundIn : ∀ row ∈ rows, ∃ devices,
      row.alertDevices fuel (dumpText primary) (dumpText secondary) =
        some devices ∧
        ∀ device, row.Alerted primary secondary device → device ∈ devices := by
    intro row isRow
    obtain ⟨devices, isFound⟩ := ends row isRow
    obtain ⟨before, later, split⟩ := List.append_of_mem isRow
    refine ⟨devices, isFound, fun device alerted => ?_⟩
    have member := (found row later ⟨before, split.symm⟩ device alerted).1
    rwa [isFound] at member
  constructor
  · intro row isRow
    obtain ⟨devices, isFound, _⟩ := foundIn row isRow
    exact (mem_alertDevices isFound).1
  · intro row isRow
    obtain ⟨devices, isFound, all⟩ := foundIn row isRow
    exact ((wellFormed.found_iff isRow isFound).mp all).1
  · intro row isRow
    obtain ⟨devices, isFound, all⟩ := foundIn row isRow
    exact ((wellFormed.found_iff isRow isFound).mp all).2
  · intro row later isPart device alerted
    exact (found row later isPart device alerted).2

theorem Readable.exact {rows : List Register}
    (readable : Readable glob rows primary secondary)
    (wellFormed : WellFormed rows) : Exact glob rows primary secondary := by
  have ends : ∀ row ∈ rows, ∃ devices,
      row.alertDevices 64 (dumpText primary) (dumpText secondary) =
        some devices :=
    fun row isRow => alertDevices_terminates (readable.ends row isRow) _ _
  refine ⟨64, _, dumpAllAlerts_eq_some.mpr ⟨ends, rfl⟩, fun file => ?_⟩
  rw [mem_runAll_alertCommands]
  constructor
  · intro member
    rcases member with
      ⟨impossible, _⟩ | ⟨row, later, isPart, ⟨device, isDevice, isFile⟩, _⟩
    · cases impossible
    · have isRow := isPart.mem List.mem_cons_self
      obtain ⟨devices, isFound⟩ := ends row isRow
      rw [isFound, Option.getD_some] at isDevice
      exact ⟨row, isRow, device, wellFormed.alerted_of_mem isRow isFound
        isDevice, isFile⟩
  · intro ⟨row, isRow, device, alerted, isFile⟩
    obtain ⟨before, later, split⟩ := List.append_of_mem isRow
    obtain ⟨devices, isFound⟩ := ends row isRow
    have fits := (wellFormed.found_iff isRow isFound).mpr
      ⟨readable.primaryFits row isRow, readable.secondaryFits row isRow⟩
    have isPart : row :: later <:+ rows := ⟨before, split.symm⟩
    refine .inr ⟨row, later, isPart, ⟨device, ?_, isFile⟩, ?_⟩
    · rw [isFound]
      exact fits device alerted
    · rw [isFile]
      exact readable.kept row later isPart device alerted

/-- The files are those of the alerts exactly if all registers are readable. -/
theorem exact_iff_readable (glob : Globbing) {rows : List Register}
    (wellFormed : WellFormed rows) (primary secondary : List (BitVec 8)) :
    Exact glob rows primary secondary ↔ Readable glob rows primary secondary :=
  ⟨fun isExact => isExact.readable wellFormed,
    fun readable => readable.exact wellFormed⟩

theorem takes_alertPattern {name file : Text} (isFile : '/' ∉ file)
    (plain : ∀ char ∈ name, char ∉ "*?[]\\()".toList) :
    glob.takes (alertPattern name) file ↔ (name ++ ['_']) <+: file := by
  have isPattern : alertPattern name = name ++ ['_'] ++ ['*'] := by
    simp [alertPattern]
  rw [isPattern]
  apply glob.takes_star (by simp) isFile
  intro char member
  rcases List.mem_append.mp member with inName | isLast
  · exact plain char inName
  · rw [List.mem_singleton.mp isLast]
    decide

namespace LongerName

/-- `A_B` has an alert, and `A` comes after it. -/
def rows : List Register :=
  [⟨"A_B".toList, 0, 1, 1, (0, 0), none, by decide, by decide⟩,
    ⟨"A".toList, 1, 1, 1, (0, 0), none, by decide, by decide⟩]

theorem wellFormed : WellFormed rows where
  distinct := by decide
  hasBytes := by decide
  contiguous := by decide

theorem exact_iff_readable_rows :
    Exact .literal rows [1, 0] [] ↔ Readable .literal rows [1, 0] [] :=
  exact_iff_readable .literal wellFormed [1, 0] []

/-- However the shell treats special characters. -/
theorem alert_removed : ¬ ∃ glob, Exact glob rows [1, 0] [] := by
  rintro ⟨glob, isExact⟩
  have readable := isExact.readable wellFormed
  have alerted : (rows.head (by decide)).Alerted [1, 0] [] 0 :=
    .inl ⟨by decide, by decide⟩
  apply readable.kept (rows.head (by decide)) rows.tail List.suffix_rfl 0
    alerted
  · exact List.mem_cons_self
  · exact (takes_alertPattern (by decide)
      (List.forall_mem_singleton.mpr (by decide))).mpr (by decide)

end LongerName

end Nvbmc.FpgaRegtbl
