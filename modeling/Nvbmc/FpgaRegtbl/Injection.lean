import Mathlib.Data.Nat.Find
import Nvbmc.FpgaRegtbl.AlertFiles
import Nvbmc.Library.BitTable

/-!
# Error injection

`einj_error` and `einj_clear`: how they find the byte and the bit of a device.
The copy of the table that `einj_error` keeps is left out.
-/

namespace Nvbmc.FpgaRegtbl

open Nvbmc.Library

/-- `lookup_reg` -/
def lookupReg (rows : List Register) (regName : Text) : Option Register :=
  rows.find? (·.name = regName)

/-- `$((bit_mask << dev_id))`.  What the machine makes of a shift by 64 or more
is given. -/
def shiftedMask (overlong : BitVec 64 → ℕ → BitVec 64) (register : Register)
    (devId : ℕ) : BitVec 64 :=
  if devId < 64 then register.mask64 <<< devId
  else overlong register.mask64 devId

/-- The loop that walks the mask, with the byte and the value of the bit that it
finds. -/
def findBit (byteEnd : ℕ) (bitMask devVal : BitVec 64) (bitCount byte : ℕ) :
    Option (ℕ × BitVec 64) :=
  if 0 < (bitMask &&& devVal).toInt then some (byte, devVal)
  else if bitCount + 1 > 7 then
    if byte + 1 ≥ byteEnd then none
    else findBit byteEnd (bitMask.sdiv 256) 1 0 (byte + 1)
  else findBit byteEnd bitMask (devVal <<< 1) (bitCount + 1) byte
termination_by (byteEnd - byte, 8 - bitCount)

/-- The byte of a device in the table, and the value of its bit. -/
def injectionPoint (overlong : BitVec 64 → ℕ → BitVec 64) (register : Register)
    (devId : ℕ) : Option (ℕ × BitVec 64) :=
  let byteOff := register.charOff / 3
  let byteLen := register.charLen / 2
  findBit (byteOff + byteLen) (shiftedMask overlong register devId) 1 0 byteOff

/-- `regtbl[$byte]=...`, of an array that may have no such byte. -/
def changeByte (regtbl : List (BitVec 8)) (byte : ℕ)
    (change : BitVec 8 → BitVec 8) : List (BitVec 8) :=
  match regtbl[byte]? with
  | some regVal => regtbl.set byte (change regVal)
  | none => regtbl ++ [change 0]

/-- The loop over the errors, with what is done with a value and the value of a
bit. -/
def einjLoop (overlong : BitVec 64 → ℕ → BitVec 64) (rows : List Register)
    (devId : ℕ) (change : BitVec 8 → BitVec 8 → BitVec 8) :
    List Text → List (BitVec 8) → Option (List (BitVec 8))
  | [], regtbl => some regtbl
  | error :: errors, regtbl =>
      match lookupReg rows error with
      | none => einjLoop overlong rows devId change errors regtbl
      | some register =>
          match injectionPoint overlong register devId with
          | none => none
          | some (byte, devVal) =>
              einjLoop overlong rows devId change errors
                (changeByte regtbl byte (change · (devVal.setWidth 8)))

def injectionTable (file : List (BitVec 8)) : List (BitVec 8) :=
  if file = [] then List.replicate 1024 0 else file

/-- What both commands do, with the return code and the file after them. -/
def einj (overlong : BitVec 64 → ℕ → BitVec 64) (rows : List Register)
    (change : BitVec 8 → BitVec 8 → BitVec 8) (devId : ℕ) (errors : List Text)
    (file : List (BitVec 8)) : ℕ × List (BitVec 8) :=
  match einjLoop overlong rows devId change errors (injectionTable file) with
  | none => (1, file)
  | some regtbl => (0, regtbl)

/-- `einj_error` -/
def einjError (overlong : BitVec 64 → ℕ → BitVec 64) (rows : List Register)
    (devId : ℕ)
    (errors : List Text) (file : List (BitVec 8)) : ℕ × List (BitVec 8) :=
  einj overlong rows (fun regVal devVal => regVal ||| devVal) devId errors file

/-- `einj_clear` -/
def einjClear (overlong : BitVec 64 → ℕ → BitVec 64) (rows : List Register)
    (devId : ℕ)
    (errors : List Text) (file : List (BitVec 8)) : ℕ × List (BitVec 8) :=
  einj overlong rows (fun regVal devVal => regVal &&& ~~~ devVal) devId errors
    file

def IsLowest (word : BitVec 64) (position : ℕ) : Prop :=
  word.getLsbD position = true ∧ ∀ index < position, word.getLsbD index = false

section Found

variable {byteEnd byte position : ℕ} {bitMask : BitVec 64}

theorem and_twoPow_pos {bit : ℕ} (inByte : bit < 8) :
    0 < (bitMask &&& BitVec.twoPow 64 bit).toInt ↔
      bitMask.getLsbD bit = true := by
  have positive : ∀ bit < 8, 0 < (BitVec.twoPow 64 bit).toInt := by decide
  rw [BitVec.and_twoPow]
  cases bitMask.getLsbD bit with
  | true => simpa using positive bit inByte
  | false => simp

theorem twoPow_shiftLeft_one (bit : ℕ) :
    BitVec.twoPow 64 bit <<< 1 = BitVec.twoPow 64 (bit + 1) := by
  rw [BitVec.twoPow_eq, BitVec.twoPow_eq, BitVec.shiftLeft_add]

theorem sdiv_eq_sshiftRight
    (zeros : ∀ index < 8, bitMask.getLsbD index = false) :
    bitMask.sdiv 256 = bitMask.sshiftRight 8 := by
  have remainder : bitMask.toNat % 2 ^ 8 = 0 := by
    apply Nat.eq_of_testBit_eq
    intro index
    rw [Nat.testBit_mod_two_pow, Nat.zero_testBit]
    by_cases below : index < 8
    · have isZero : bitMask.toNat.testBit index = false := zeros index below
      rw [isZero, Bool.and_false]
    · simp [below]
  have divides : (256 : ℤ) ∣ bitMask.toInt := by
    rw [BitVec.toInt_eq_toNat_cond]
    split_ifs
    · omega
    · omega
  have isQuotient : bitMask.toInt.tdiv (256 : BitVec 64).toInt =
      (bitMask.sshiftRight 8).toInt := by
    rw [BitVec.toInt_sshiftRight, Int.shiftRight_eq_div_pow]
    exact Int.tdiv_eq_ediv_of_dvd divides
  rw [← BitVec.toInt_inj, BitVec.toInt_sdiv, isQuotient,
    BitVec.toInt_bmod_cancel]

theorem findBit_of_here {count : ℕ}
    (isSet : bitMask.getLsbD (position + count) = true)
    (lowest : ∀ index < position + count, bitMask.getLsbD index = false)
    (inByte : position + count < 8) :
    findBit byteEnd bitMask (BitVec.twoPow 64 position) position byte =
      some (byte, BitVec.twoPow 64 (position + count)) := by
  induction count generalizing position with
  | zero =>
      rw [Nat.add_zero] at isSet inByte ⊢
      rw [findBit, if_pos ((and_twoPow_pos inByte).mpr isSet)]
  | succ count induction =>
      have notSet : ¬ 0 < (bitMask &&& BitVec.twoPow 64 position).toInt := by
        rw [and_twoPow_pos (by omega), lowest position (by omega)]
        exact Bool.false_ne_true
      have next : position + (count + 1) = position + 1 + count := by omega
      rw [next] at isSet lowest inByte
      rw [findBit, if_neg notSet, if_neg (by omega), twoPow_shiftLeft_one, next]
      exact induction isSet lowest inByte

theorem findBit_of_none {count : ℕ} (isEight : position + count = 7)
    (zeros : ∀ index < 8, bitMask.getLsbD index = false) :
    findBit byteEnd bitMask (BitVec.twoPow 64 position) position byte =
      if byte + 1 ≥ byteEnd then none
      else findBit byteEnd (bitMask.sshiftRight 8) 1 0 (byte + 1) := by
  have notSet : ¬ 0 < (bitMask &&& BitVec.twoPow 64 position).toInt := by
    rw [and_twoPow_pos (by omega), zeros position (by omega)]
    exact Bool.false_ne_true
  induction count generalizing position with
  | zero =>
      rw [findBit, if_neg notSet, if_pos (by omega), sdiv_eq_sshiftRight zeros]
  | succ count induction =>
      rw [findBit, if_neg notSet, if_neg (by omega), twoPow_shiftLeft_one]
      apply induction (by omega)
      rw [and_twoPow_pos (by omega), zeros (position + 1) (by omega)]
      exact Bool.false_ne_true

theorem IsLowest.sshiftRight (isLowest : IsLowest bitMask (8 + position)) :
    IsLowest (bitMask.sshiftRight 8) position := by
  have inWord := BitVec.lt_of_getLsbD isLowest.1
  constructor
  · rw [getLsbD_sshiftRight_of_lt inWord]
    exact isLowest.1
  · intro index below
    rw [getLsbD_sshiftRight_of_lt (by omega)]
    exact isLowest.2 _ (by omega)

/-- The lowest bit of the mask is found, unless it is in a later byte and that
is out of the register. -/
theorem findBit_of_lowest (isLowest : IsLowest bitMask position) :
    findBit byteEnd bitMask 1 0 byte =
      if position < 8 ∨ byte + position / 8 < byteEnd then
        some (byte + position / 8, BitVec.twoPow 64 (position % 8))
      else none := by
  induction isQuotient : position / 8 generalizing position bitMask byte with
  | zero =>
      have inByte : position < 8 := by omega
      have here := @findBit_of_here byteEnd byte 0 bitMask position
      rw [Nat.zero_add] at here
      rw [if_pos (.inl inByte), Nat.mod_eq_of_lt inByte]
      exact here isLowest.1 isLowest.2 inByte
  | succ bytes induction =>
      obtain ⟨rest, isRest⟩ : ∃ rest, position = 8 + rest :=
        ⟨position - 8, by omega⟩
      subst isRest
      have zeros : ∀ index < 8, bitMask.getLsbD index = false :=
        fun index below => isLowest.2 index (by omega)
      have skipped := @findBit_of_none byteEnd byte 0 bitMask 7 rfl zeros
      have isBytes : rest / 8 = bytes := by omega
      have sameBit : (8 + rest) % 8 = rest % 8 := by omega
      have later : findBit byteEnd (bitMask.sshiftRight 8) 1 0 (byte + 1) =
          if rest < 8 ∨ byte + 1 + bytes < byteEnd then
            some (byte + 1 + bytes, BitVec.twoPow 64 (rest % 8))
          else none := induction isLowest.sshiftRight isBytes
      change findBit byteEnd bitMask (BitVec.twoPow 64 0) 0 byte = _
      rw [skipped, later, sameBit]
      by_cases isEnd : byte + 1 ≥ byteEnd
      · rw [if_pos isEnd, if_neg (by omega)]
      · rw [if_neg isEnd]
        have sameEnd : (rest < 8 ∨ byte + (bytes + 1) < byteEnd) ↔
            (8 + rest < 8 ∨ byte + (bytes + 1) < byteEnd) := by
          omega
        have sameByte : byte + 1 + bytes = byte + (bytes + 1) := by omega
        simp only [sameByte, sameEnd]

theorem findBit_zero : findBit byteEnd 0 1 0 byte = none := by
  induction isLeft : byteEnd - byte generalizing byte with
  | zero =>
      have skipped := @findBit_of_none byteEnd byte 0 0 7 rfl
        (fun index _ => BitVec.getLsbD_zero)
      change findBit byteEnd 0 (BitVec.twoPow 64 0) 0 byte = _
      rw [skipped, if_pos (by omega)]
  | succ left induction =>
      have skipped := @findBit_of_none byteEnd byte 0 0 7 rfl
        (fun index _ => BitVec.getLsbD_zero)
      have isZero : (0 : BitVec 64).sshiftRight 8 = 0 := by decide
      change findBit byteEnd 0 (BitVec.twoPow 64 0) 0 byte = _
      rw [skipped, isZero, induction (by omega), ite_self]

theorem exists_lowest (notZero : bitMask ≠ 0) :
    ∃ position, IsLowest bitMask position := by
  have isSet : ∃ position, bitMask.getLsbD position = true := by
    by_contra none
    apply notZero
    apply BitVec.eq_of_getLsbD_eq
    intro index _
    rw [BitVec.ofNat_eq_ofNat, BitVec.getLsbD_zero]
    exact Bool.not_eq_true _ ▸ fun isBit => none ⟨index, isBit⟩
  refine ⟨Nat.find isSet, Nat.find_spec isSet, fun index below => ?_⟩
  exact Bool.not_eq_true _ ▸ Nat.find_min isSet below

end Found

section Point

variable {overlong : BitVec 64 → ℕ → BitVec 64} {register : Register}
  {devId position : ℕ}

/-- The lowest bit of the shifted mask is found if it is before `byte_len/2`
bytes. -/
theorem injectionPoint_of_lowest (hasBytes : 0 < register.byteLen)
    (isLowest : IsLowest (shiftedMask overlong register devId) position) :
    injectionPoint overlong register devId =
      if position / 8 < register.charLen / 2 then
        some (register.byteOff + position / 8, BitVec.twoPow 64 (position % 8))
      else none := by
  have isOff : register.charOff / 3 = register.byteOff :=
    Nat.mul_div_cancel_left _ (by decide)
  have hasChars : 0 < register.charLen / 2 := by
    rw [Register.charLen]
    omega
  have inside : (position < 8 ∨
      register.byteOff + position / 8 < register.byteOff +
        register.charLen / 2) ↔ position / 8 < register.charLen / 2 := by
    omega
  rw [injectionPoint, isOff]
  simp only [findBit_of_lowest isLowest, inside]

theorem injectionPoint_of_zero
    (isZero : shiftedMask overlong register devId = 0) :
    injectionPoint overlong register devId = none := by
  rw [injectionPoint, isZero]
  exact findBit_zero

theorem injectionPoint_eq_none (hasBytes : 0 < register.byteLen) :
    injectionPoint overlong register devId = none ↔
      ∀ position, IsLowest (shiftedMask overlong register devId) position →
        register.charLen / 2 ≤ position / 8 := by
  constructor
  · intro isNone position isLowest
    rw [injectionPoint_of_lowest hasBytes isLowest] at isNone
    by_contra inside
    rw [if_pos (not_le.mp inside)] at isNone
    cases isNone
  · intro outside
    by_cases isZero : shiftedMask overlong register devId = 0
    · exact injectionPoint_of_zero isZero
    · obtain ⟨position, isLowest⟩ := exists_lowest isZero
      rw [injectionPoint_of_lowest hasBytes isLowest,
        if_neg (not_lt.mpr (outside position isLowest))]

end Point

section Change

variable {regtbl : List (BitVec 8)} {position : ℕ}

theorem setWidth_twoPow : ∀ bit < 8, (BitVec.twoPow 64 bit).setWidth 8 =
    BitVec.twoPow 8 bit := by
  decide

theorem changeByte_eq_modify {byte : ℕ} (inside : byte < regtbl.length)
    (change : BitVec 8 → BitVec 8) : changeByte regtbl byte change =
      regtbl.modify byte change := by
  rw [changeByte, List.getElem?_eq_getElem inside]
  apply List.ext_getElem?
  intro index
  rw [List.getElem?_modify]
  by_cases same : byte = index
  · rw [← same]
    simp [inside]
  · simp [same]

theorem changeByte_or (inside : position / 8 < regtbl.length) :
    changeByte regtbl (position / 8)
        (· ||| (BitVec.twoPow 64 (position % 8)).setWidth 8) =
      writeBit regtbl position true := by
  rw [changeByte_eq_modify inside, setWidth_twoPow _ (Nat.mod_lt _ (by decide))]
  rfl

theorem changeByte_andNot (inside : position / 8 < regtbl.length) :
    changeByte regtbl (position / 8)
        (· &&& ~~~ (BitVec.twoPow 64 (position % 8)).setWidth 8) =
      writeBit regtbl position false := by
  rw [changeByte_eq_modify inside, setWidth_twoPow _ (Nat.mod_lt _ (by decide))]
  rfl

end Change

end Nvbmc.FpgaRegtbl
