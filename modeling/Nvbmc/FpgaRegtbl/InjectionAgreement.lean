import Nvbmc.FpgaRegtbl.Injection

/-!
# Injection and readout

`einj_error` and `einj_clear` write the bit of a device that `dump_all_alerts`
reads, unless the dump does not read it: the device is not below
`dev_per_module`, or the mask has bit 63.  For a device out of the mask they
fail only if the shifted mask leaves the bytes of the register.
-/

namespace Nvbmc.FpgaRegtbl

open Nvbmc.Library

/-- A register of the table with a contiguous mask, which lies in an injection
table of that size, and a device. -/
structure Target (rows : List Register) (size : ℕ) where
  name : Text
  register : Register
  /-- The number of mask bits. -/
  width : ℕ
  device : ℕ
  isRow : lookupReg rows name = some register
  contiguous : register.bitMask = (2 ^ width - 1) * 2 ^ register.shift
  hasBytes : 0 < register.byteLen
  inRegister : register.shift + width ≤ 8 * register.byteLen
  inTable : register.byteOff + register.byteLen ≤ size

inductive Secondary where
  | absent
  | own (dump : List (BitVec 8))
  | copied

def Secondary.dump (table : List (BitVec 8)) : Secondary → List (BitVec 8)
  | .absent => []
  | .own dump => dump
  | .copied => table

/-- `dump_all_alerts` takes the bit for the device. -/
def Register.ReadsAs (register : Register) (device position : ℕ) : Prop :=
  ∀ (secondary : Secondary) (table : List (BitVec 8)), ∃ fuel devices,
    register.alertDevices fuel (dumpText table)
      (dumpText (secondary.dump table)) = some devices ∧
    (device ∈ devices ↔ bitAt table position = true)

inductive Injection where
  | error
  | clear

/-- What is written for a bit. -/
def Injection.value : Injection → Bool
  | .error => true
  | .clear => false

variable {rows : List Register} {size : ℕ}

/-- The call for a target. -/
def Injection.run (overlong : BitVec 64 → ℕ → BitVec 64) (injection : Injection)
    (target : Target rows size) (file : List (BitVec 8)) :
    ℕ × List (BitVec 8) :=
  match injection with
  | .error => einjError overlong rows target.device [target.name] file
  | .clear => einjClear overlong rows target.device [target.name] file

/-- The call returns 0, and only this bit of the table is written. -/
structure Writes (file : List (BitVec 8)) (result : ℕ × List (BitVec 8))
    (position : ℕ) (value : Bool) : Prop where
  code : result.1 = 0
  sameLength : result.2.length = (injectionTable file).length
  bits : ∀ other, bitAt result.2 other =
    if other = position then value else bitAt (injectionTable file) other

/-- Injection and readout agree on the device of the target. -/
structure Agrees (overlong : BitVec 64 → ℕ → BitVec 64)
    (target : Target rows size) (file : List (BitVec 8)) : Prop where
  inMask : target.device < target.width → ∃ position,
    target.register.ReadsAs target.device position ∧
      ∀ injection : Injection,
        Writes file (injection.run overlong target file) position
          injection.value
  outside : target.width ≤ target.device →
    ∀ injection : Injection, injection.run overlong target file = (1, file)

/-- Injections and clears of the two targets commute. -/
def Commute (overlong : BitVec 64 → ℕ → BitVec 64)
    (first second : Target rows size) (file : List (BitVec 8)) : Prop :=
  ∀ one other : Injection,
    (other.run overlong second (one.run overlong first file).2).2 =
      (one.run overlong first (other.run overlong second file).2).2

/-- The pairs have different registers or devices, and both have a bit. -/
def Apart (first second : Target rows size) : Prop :=
  first.device < first.width ∧ second.device < second.width ∧
    (first.name, first.device) ≠ (second.name, second.device)

structure Law (overlong : BitVec 64 → ℕ → BitVec 64)
    (first second : Target rows size) (file : List (BitVec 8)) : Prop where
  agreesFirst : Agrees overlong first file
  agreesSecond : Agrees overlong second file
  commute : Apart first second → Commute overlong first second file

/-- The dump reads the device in the primary module and the mask is below bit
63, or the lowest bit of the shifted mask is out of `byte_len/2` bytes. -/
structure Target.Sound (overlong : BitVec 64 → ℕ → BitVec 64)
    (target : Target rows size) : Prop where
  inMask : target.device < target.width →
    target.device < target.register.devPerModule ∧
      target.register.shift + target.width ≤ 63
  outside : target.width ≤ target.device →
    ∀ position, IsLowest (shiftedMask overlong target.register target.device)
      position → target.register.charLen / 2 ≤ position / 8

/-- Both targets are sound, and different pairs have different bits. -/
structure SoundPair (overlong : BitVec 64 → ℕ → BitVec 64)
    (first second : Target rows size) : Prop where
  soundFirst : first.Sound overlong
  soundSecond : second.Sound overlong
  differ : Apart first second →
    first.register.bit first.device ≠ second.register.bit second.device

section Read

variable {table : List (BitVec 8)} (position : ℕ)

theorem testBit_littleEndian (bytes : List (BitVec 8)) :
    (littleEndian bytes).testBit position = bitAt bytes position := by
  induction bytes generalizing position with
  | nil => simp [littleEndian, bitAt]
  | cons byte bytes induction =>
      have isLittle : littleEndian (byte :: bytes) =
          2 ^ 8 * littleEndian bytes + byte.toNat := by
        rw [littleEndian, List.foldr_cons, ← littleEndian]
        omega
      rw [isLittle, Nat.testBit_two_pow_mul_add _ byte.isLt]
      by_cases inByte : position < 8
      · have isZero : position / 8 = 0 := by omega
        rw [if_pos inByte, bitAt, isZero, Nat.mod_eq_of_lt inByte]
        rfl
      · have isLater : position / 8 = (position - 8) / 8 + 1 := by omega
        have sameBit : position % 8 = (position - 8) % 8 := by omega
        rw [if_neg inByte, induction, bitAt, bitAt, isLater, sameBit]
        rfl

theorem Register.testBit_value (register : Register) :
    (register.value table).testBit position =
      (decide (position < 8 * register.byteLen) &&
        bitAt table (8 * register.byteOff + position)) := by
  have isByte : (8 * register.byteOff + position) / 8 = register.byteOff +
      position / 8 := by
    omega
  have isBit : (8 * register.byteOff + position) % 8 = position % 8 := by omega
  rw [value, testBit_littleEndian, bitAt, bitAt, isByte, isBit,
    List.getElem?_take]
  by_cases inside : position / 8 < register.byteLen
  · have isInside : position < 8 * register.byteLen := by omega
    rw [if_pos inside, List.getElem?_drop, decide_eq_true isInside,
      Bool.true_and]
  · have isOutside : ¬ position < 8 * register.byteLen := by omega
    rw [if_neg inside, decide_eq_false isOutside, Bool.false_and,
      Option.getD_none, BitVec.ofNat_eq_ofNat, BitVec.getLsbD_zero]

variable (target : Target rows size)

theorem Target.testBit_bitMask :
    target.register.bitMask.testBit position =
      (decide (target.register.shift ≤ position) &&
        decide (position - target.register.shift < target.width)) := by
  rw [target.contiguous, Nat.testBit_mul_two_pow, Nat.testBit_two_pow_sub_one]

theorem Target.getLsbD_masked :
    (target.register.masked (dumpText table)).getLsbD position = true ↔
      position < 64 ∧ target.register.shift ≤ position ∧
        position < target.register.shift + target.width ∧
        bitAt table (8 * target.register.byteOff + position) = true := by
  have inRegister := target.inRegister
  rw [target.register.masked_dumpText target.hasBytes, BitVec.getLsbD_and,
    BitVec.getLsbD_ofNat,
    getLsbD_mask64, target.testBit_bitMask, target.register.testBit_value]
  simp only [Bool.and_eq_true, decide_eq_true_eq]
  constructor
  · intro ⟨⟨inWord, _, isSet⟩, _, above, below⟩
    exact ⟨inWord, above, by omega, isSet⟩
  · intro ⟨inWord, above, below, isSet⟩
    exact ⟨⟨inWord, by omega, isSet⟩, inWord, above, by omega⟩

theorem Target.readsAs_bit (inMask : target.device < target.width)
    (sound : target.device < target.register.devPerModule ∧
      target.register.shift + target.width ≤ 63) :
    target.register.ReadsAs target.device
      (target.register.bit target.device) := by
  intro secondary table
  obtain ⟨isPrimary, positive⟩ := sound
  have inWord : target.register.shift < 64 := by omega
  obtain ⟨devices, isFound⟩ :=
    alertDevices_terminates inWord (dumpText table)
      (dumpText (secondary.dump table))
  have noSign : (target.register.masked (dumpText table)).msb = false := by
    rw [BitVec.msb_eq_getLsbD_last, ← Bool.not_eq_true, target.getLsbD_masked]
    omega
  have isBit : 8 * target.register.byteOff +
      (target.register.shift + target.device) =
      target.register.bit target.device := by
    rw [Register.bit]
    omega
  refine ⟨64, devices, isFound, ?_⟩
  rw [(mem_alertDevices isFound).2, Register.Finds, Register.Reads,
    target.getLsbD_masked, isBit]
  constructor
  · intro found
    rcases found with ⟨_, _, _, _, _, isSet⟩ | ⟨index, same, _⟩
    · exact isSet
    · omega
  · intro isSet
    exact .inl ⟨isPrimary, noSign, by omega, by omega, by omega, isSet⟩

def ones (position : ℕ) : List (BitVec 8) :=
  List.replicate (position / 8 + 1) (BitVec.allOnes 8)

theorem bitAt_ones {position other : ℕ} (before : other ≤ position) :
    bitAt (ones position) other = true := by
  have inside : other / 8 < position / 8 + 1 := by omega
  have inByte : other % 8 < 8 := Nat.mod_lt _ (by decide)
  rw [bitAt, ones, List.getElem?_replicate, if_pos inside, Option.getD_some,
    BitVec.getLsbD_allOnes, decide_eq_true inByte]

theorem Target.sound_of_readsAs {position : ℕ}
    (readsAs : target.register.ReadsAs target.device position) :
    target.device < target.register.devPerModule ∧
      target.register.shift + target.width ≤ 63 := by
  -- a table in which this bit and the sign are set
  let last := max position (8 * target.register.byteOff + 63)
  have isSet : bitAt (ones last) position = true :=
    bitAt_ones (Nat.le_max_left _ _)
  have isSign : bitAt (ones last) (8 * target.register.byteOff + 63) = true :=
    bitAt_ones (Nat.le_max_right _ _)
  obtain ⟨fuel, devices, isFound, isRead⟩ := readsAs .absent (ones last)
  obtain ⟨inWord, inDevices⟩ := mem_alertDevices isFound
  rcases (inDevices _).mp (isRead.mpr isSet) with ⟨isPrimary, reads⟩ |
    ⟨_, _, impossible, _⟩
  · refine ⟨isPrimary, ?_⟩
    by_contra isLong
    have noSign := reads.1
    rw [BitVec.msb_eq_getLsbD_last, ← Bool.not_eq_true, target.getLsbD_masked]
      at noSign
    exact noSign ⟨by decide, by omega, by omega, isSign⟩
  · exact absurd rfl impossible

end Read

section Write

variable {overlong : BitVec 64 → ℕ → BitVec 64} {target : Target rows size}
  {file : List (BitVec 8)} {injection : Injection}

theorem Target.einj_eq (target : Target rows size)
    (change : BitVec 8 → BitVec 8 → BitVec 8) :
    einj overlong rows change target.device [target.name] file =
      match injectionPoint overlong target.register target.device with
      | none => (1, file)
      | some (byte, devVal) =>
          (0, changeByte (injectionTable file) byte
            (change · (devVal.setWidth 8))) := by
  rw [einj, einjLoop, target.isRow]
  dsimp only
  cases injectionPoint overlong target.register target.device with
  | none => rfl
  | some point => rfl

theorem run_of_none
    (isNone : injectionPoint overlong target.register target.device = none) :
    injection.run overlong target file = (1, file) := by
  cases injection with
  | error => rw [Injection.run, einjError, target.einj_eq, isNone]
  | clear => rw [Injection.run, einjClear, target.einj_eq, isNone]

theorem code_of_some {point : ℕ × BitVec 64}
    (isSome : injectionPoint overlong target.register target.device =
      some point) :
    (injection.run overlong target file).1 = 0 := by
  cases injection with
  | error => rw [Injection.run, einjError, target.einj_eq, isSome]
  | clear => rw [Injection.run, einjClear, target.einj_eq, isSome]

theorem run_of_point {position : ℕ}
    (inside : position / 8 < (injectionTable file).length)
    (isPoint : injectionPoint overlong target.register target.device =
      some (position / 8, BitVec.twoPow 64 (position % 8))) :
    injection.run overlong target file =
      (0, writeBit (injectionTable file) position injection.value) := by
  cases injection with
  | error =>
      rw [Injection.run, einjError, target.einj_eq, isPoint]
      simp only [changeByte_or inside]
      rfl
  | clear =>
      rw [Injection.run, einjClear, target.einj_eq, isPoint]
      simp only [changeByte_andNot inside]
      rfl

theorem Target.isLowest (target : Target rows size)
    (inWord : target.register.shift + target.device < 64) :
    IsLowest (shiftedMask overlong target.register target.device)
      (target.register.shift + target.device) := by
  rw [shiftedMask, if_pos (by omega)]
  constructor
  · have isSet := testBit_maskShift target.register.bitMask_pos le_rfl
    have inMask : target.register.shift < 64 := by omega
    have notBelow : ¬ target.register.shift + target.device <
        target.device := by omega
    rw [BitVec.getLsbD_shiftLeft, decide_eq_true inWord,
      decide_eq_false notBelow,
      Nat.add_sub_cancel, getLsbD_mask64, decide_eq_true inMask, Register.shift,
      isSet]
    rfl
  · intro index below
    rw [BitVec.getLsbD_shiftLeft]
    by_cases isShifted : index < target.device
    · simp [isShifted]
    · have isBelow : index - target.device < target.register.shift := by omega
      have isZero : target.register.bitMask.testBit (index - target.device) =
          false :=
        not_testBit_of_lt_maskShift isBelow
      rw [getLsbD_mask64, isZero, Bool.and_false, Bool.and_false]

theorem Target.run_eq (target : Target rows size)
    (inMask : target.device < target.width)
    (isSize : (injectionTable file).length = size)
    (positive : target.register.shift + target.width ≤ 63) :
    injection.run overlong target file =
      (0, writeBit (injectionTable file) (target.register.bit target.device)
        injection.value) := by
  have inRegister := target.inRegister
  have inTable := target.inTable
  have hasBytes := target.hasBytes
  have isByte : target.register.bit target.device / 8 =
      target.register.byteOff + (target.register.shift + target.device) /
        8 := by
    rw [Register.bit]
    omega
  have isBit : target.register.bit target.device % 8 =
      (target.register.shift + target.device) % 8 := by
    rw [Register.bit]
    omega
  have before : (target.register.shift + target.device) / 8 <
      target.register.charLen / 2 := by
    rw [Register.charLen]
    omega
  apply run_of_point
  · rw [isByte]
    omega
  · rw [injectionPoint_of_lowest hasBytes (target.isLowest (by omega)),
      if_pos before, isByte, isBit]

theorem writes_writeBit {position : ℕ} {value : Bool}
    (inside : position / 8 < (injectionTable file).length) :
    Writes file (0, writeBit (injectionTable file) position value) position
      value :=
  ⟨rfl, length_writeBit, bitAt_writeBit inside⟩

theorem Target.bit_inside (target : Target rows size)
    (inMask : target.device < target.width) :
    target.register.bit target.device / 8 < size := by
  have inRegister := target.inRegister
  have inTable := target.inTable
  rw [Register.bit]
  omega

theorem agrees_iff (isSize : (injectionTable file).length = size) :
    Agrees overlong target file ↔ target.Sound overlong := by
  constructor
  · intro agrees
    constructor
    · intro inMask
      obtain ⟨position, readsAs, _⟩ := agrees.inMask inMask
      exact target.sound_of_readsAs readsAs
    · intro outside
      apply (injectionPoint_eq_none target.hasBytes).mp
      cases isPoint : injectionPoint overlong target.register target.device with
      | none => rfl
      | some point =>
          have isZero := @code_of_some _ _ _ _ file .error _ isPoint
          rw [agrees.outside outside .error] at isZero
          cases isZero
  · intro sound
    constructor
    · intro inMask
      obtain ⟨isPrimary, positive⟩ := sound.inMask inMask
      refine ⟨_, target.readsAs_bit inMask ⟨isPrimary, positive⟩,
        fun injection => ?_⟩
      rw [target.run_eq inMask isSize positive]
      exact writes_writeBit (isSize ▸ target.bit_inside inMask)
    · intro outside injection
      exact run_of_none
        ((injectionPoint_eq_none target.hasBytes).mpr (sound.outside outside))

theorem injectionTable_of_length {table : List (BitVec 8)}
    (nonempty : 0 < table.length) : injectionTable table = table :=
  if_neg (List.ne_nil_of_length_pos nonempty)

theorem length_injectionTable_pos : 0 < (injectionTable file).length := by
  rw [injectionTable]
  split_ifs with isEmpty
  · rw [List.length_replicate]
    exact Nat.succ_pos _
  · exact List.length_pos_of_ne_nil isEmpty

theorem run_run {first second : Target rows size} {one other : Injection}
    (isSize : (injectionTable file).length = size)
    (firstIn : first.device < first.width)
    (secondIn : second.device < second.width)
    (firstSound : first.Sound overlong) (secondSound : second.Sound overlong) :
    (other.run overlong second (one.run overlong first file).2).2 =
      writeBit (writeBit (injectionTable file) (first.register.bit first.device)
        one.value) (second.register.bit second.device) other.value := by
  have sameTable : injectionTable (writeBit (injectionTable file)
      (first.register.bit first.device) one.value) =
      writeBit (injectionTable file) (first.register.bit first.device)
        one.value :=
    injectionTable_of_length (by simpa using length_injectionTable_pos)
  rw [first.run_eq firstIn isSize (firstSound.inMask firstIn).2,
    second.run_eq secondIn (by rw [sameTable, length_writeBit, isSize])
      (secondSound.inMask secondIn).2, sameTable]

end Write

/-- Injections agree with the readout and commute exactly for sound targets
whose bits differ. -/
theorem law_iff (overlong : BitVec 64 → ℕ → BitVec 64) {file : List (BitVec 8)}
    (first second : Target rows (injectionTable file).length) :
    Law overlong first second file ↔ SoundPair overlong first second := by
  constructor
  · intro law
    have firstSound := (agrees_iff rfl).mp law.agreesFirst
    have secondSound := (agrees_iff rfl).mp law.agreesSecond
    refine ⟨firstSound, secondSound, fun apart sameBit => ?_⟩
    have ⟨firstIn, secondIn, _⟩ := apart
    have order := law.commute apart .error .clear
    rw [run_run rfl firstIn secondIn firstSound secondSound,
      run_run rfl secondIn firstIn secondSound firstSound, sameBit] at order
    have inside := second.bit_inside secondIn
    have insideWritten : second.register.bit second.device / 8 <
        (writeBit (injectionTable file) (second.register.bit second.device)
          Injection.error.value).length := by
      rwa [length_writeBit]
    have insideWritten' : second.register.bit second.device / 8 <
        (writeBit (injectionTable file) (second.register.bit second.device)
          Injection.clear.value).length := by
      rwa [length_writeBit]
    have isBit := congrArg (bitAt · (second.register.bit second.device)) order
    simp only [bitAt_writeBit insideWritten, bitAt_writeBit insideWritten',
      if_true] at isBit
    cases isBit
  · intro sound
    refine ⟨(agrees_iff rfl).mpr sound.soundFirst,
      (agrees_iff rfl).mpr sound.soundSecond, ?_⟩
    intro apart one other
    have ⟨firstIn, secondIn, _⟩ := apart
    rw [run_run rfl firstIn secondIn sound.soundFirst sound.soundSecond,
      run_run rfl secondIn firstIn sound.soundSecond sound.soundFirst]
    exact writeBit_comm (first.bit_inside firstIn) (second.bit_inside secondIn)
      (.inl (sound.differ apart))

namespace NextBit

/-- The mask has one bit of the byte. -/
def register : Register :=
  ⟨"A".toList, 0, 1, 1, (0, 0), none, Nat.one_pos, isFileName_sample⟩

/-- A device above the mask. -/
def target : Target [register] (injectionTable []).length where
  name := "A".toList
  register := register
  width := 1
  device := 1
  isRow := rfl
  contiguous := by decide
  hasBytes := by decide
  inRegister := by decide
  inTable := length_injectionTable_pos

theorem injected : ¬ Law (fun _ _ => 0) target target [] := by
  intro law
  have sound := (agrees_iff rfl).mp law.agreesFirst
  have isLowest := @Target.isLowest _ _ (fun _ _ => 0) target (by decide)
  have outside := sound.outside (by decide) _ isLowest
  exact absurd outside (by decide)

end NextBit

end Nvbmc.FpgaRegtbl
