import Mathlib.Data.List.Basic

/-!
# Bits of a table of bytes

A table of bytes as a table of bits, the first byte and its lowest bit first.
Writes of two bits commute if the bits differ.
-/

namespace Nvbmc.Library

def bitAt (table : List (BitVec 8)) (position : ℕ) : Bool :=
  (table[position / 8]?.getD 0).getLsbD (position % 8)

def writeBitOf (byte : BitVec 8) (position : ℕ) (value : Bool) : BitVec 8 :=
  if value then byte ||| BitVec.twoPow 8 position
  else byte &&& ~~~ BitVec.twoPow 8 position

def writeBit (table : List (BitVec 8)) (position : ℕ) (value : Bool) :
    List (BitVec 8) :=
  table.modify (position / 8) (writeBitOf · (position % 8) value)

variable {table first second : List (BitVec 8)} {position other : ℕ}
  {value : Bool}

theorem getLsbD_writeBitOf (byte : BitVec 8) (below : position < 8)
    (index : ℕ) : (writeBitOf byte position value).getLsbD index =
      if index = position then value else byte.getLsbD index := by
  by_cases inByte : index < 8
  · cases value with
    | true =>
        rw [writeBitOf, if_pos rfl, BitVec.getLsbD_or, BitVec.getLsbD_twoPow]
        by_cases same : index = position
        · simp [same, below]
        · have different : position ≠ index := Ne.symm same
          simp [same, different]
    | false =>
        rw [writeBitOf, if_neg Bool.false_ne_true, BitVec.getLsbD_and,
          BitVec.getLsbD_not, BitVec.getLsbD_twoPow]
        by_cases same : index = position
        · simp [same, below]
        · have different : position ≠ index := Ne.symm same
          simp [same, different, inByte]
  · rw [BitVec.getLsbD_of_ge _ _ (by omega),
      BitVec.getLsbD_of_ge _ _ (by omega), if_neg (by omega)]

@[simp] theorem length_writeBit : (writeBit table position value).length =
    table.length :=
  List.length_modify _ _ _

theorem bitAt_writeBit (inside : position / 8 < table.length) (other : ℕ) :
    bitAt (writeBit table position value) other =
      if other = position then value else bitAt table other := by
  have below : position % 8 < 8 := Nat.mod_lt _ (by decide)
  rw [bitAt, writeBit, List.getElem?_modify]
  by_cases sameByte : position / 8 = other / 8
  · obtain ⟨byte, isByte⟩ : ∃ byte, table[other / 8]? = some byte :=
      ⟨_, List.getElem?_eq_getElem (sameByte ▸ inside)⟩
    have samePosition : other % 8 = position % 8 ↔ other = position := by omega
    rw [bitAt, isByte]
    simp only [sameByte, if_true, Option.map_eq_map, Option.map_some,
      Option.getD_some, getLsbD_writeBitOf byte below, samePosition]
  · have different : other ≠ position := fun same => sameByte (by rw [same])
    simp [sameByte, different, bitAt]

theorem ext_of_bitAt (sameLength : first.length = second.length)
    (sameBits : ∀ position, bitAt first position = bitAt second position) :
    first = second := by
  apply List.ext_getElem sameLength
  intro index inFirst inSecond
  apply BitVec.eq_of_getLsbD_eq
  intro bit inByte
  have sameBit := sameBits (8 * index + bit)
  have isByte : (8 * index + bit) / 8 = index := by omega
  have isBit : (8 * index + bit) % 8 = bit := by omega
  rwa [bitAt, bitAt, isByte, isBit, List.getElem?_eq_getElem inFirst,
    List.getElem?_eq_getElem inSecond, Option.getD_some,
    Option.getD_some] at sameBit

theorem writeBit_comm {value' : Bool} (inside : position / 8 < table.length)
    (inside' : other / 8 < table.length)
    (apart : position ≠ other ∨ value = value') :
    writeBit (writeBit table position value) other value' =
      writeBit (writeBit table other value') position value := by
  apply ext_of_bitAt
  · simp
  · intro index
    rw [bitAt_writeBit (by simpa using inside'), bitAt_writeBit inside,
      bitAt_writeBit (by simpa using inside), bitAt_writeBit inside']
    by_cases isFirst : index = position
    · by_cases isSecond : index = other
      · rcases apart with different | sameValue
        · exact absurd (isFirst.symm.trans isSecond) different
        · rw [if_pos isSecond, if_pos isFirst, sameValue]
      · simp only [if_neg isSecond]
    · simp only [if_neg isFirst]

end Nvbmc.Library
