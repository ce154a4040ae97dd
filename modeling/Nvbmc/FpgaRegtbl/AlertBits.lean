import Nvbmc.FpgaRegtbl.Registers

/-!
# The bits of the alerts

How `dump_all_alerts` finds the devices of a register: the bytes of the dump are
put together as a text, and the arithmetic has 64 bits and a sign.  A loop that
runs out of fuel has no result.
-/

namespace Nvbmc.FpgaRegtbl

open Nvbmc.Library

/-- A byte as `%02x` shows it. -/
def byteText (byte : BitVec 8) : Text :=
  [Nat.digitChar (byte.toNat / 16), Nat.digitChar (byte.toNat % 16)]

def dumpText (dump : List (BitVec 8)) : Text :=
  [' '].intercalate (dump.map byteText)

/-- The bytes as one number, the first lowest. -/
def littleEndian (bytes : List (BitVec 8)) : ℕ :=
  bytes.foldr (fun byte value => byte.toNat + 256 * value) 0

namespace Register

variable (register : Register)

def value (dump : List (BitVec 8)) : ℕ :=
  littleEndian ((dump.drop register.byteOff).take register.byteLen)

/-- `byte_off` as the table has it. -/
def charOff : ℕ :=
  3 * register.byteOff

/-- `byte_len` as the table has it. -/
def charLen : ℕ :=
  3 * register.byteLen - 1

/-- `${data:$byte_off:$byte_len}` -/
def regBytes (data : Text) : Text :=
  (data.drop register.charOff).take register.charLen

def regNumeral (data : Text) : Text :=
  (shellWords (register.regBytes data)).foldl (fun value byte => byte ++ value)
    []

/-- `bit_mask` -/
def mask64 : BitVec 64 :=
  BitVec.ofNat 64 register.bitMask

/-- `$((0x$reg_value & $bit_mask))` -/
def masked (data : Text) : BitVec 64 :=
  BitVec.ofNat 64 (hexadecimal (register.regNumeral data)) &&& register.mask64

end Register

/-- The loop that moves the valid bits down. -/
def shiftLoop (fuel : ℕ) (mask primary secondary : BitVec 64) :
    Option (BitVec 64 × BitVec 64) :=
  if mask &&& 1 ≠ 0 then some (primary, secondary)
  else
    match fuel with
    | 0 => none
    | fuel + 1 =>
        shiftLoop fuel (mask.sshiftRight 1) (primary.sshiftRight 1)
          (secondary.sshiftRight 1)

def devicesLoop (limit : Option ℕ) (fuel : ℕ) (work : BitVec 64) (device : ℕ) :
    Option (List ℕ) :=
  if 0 < work.toInt ∧ limit.all (device < ·) then
    match fuel with
    | 0 => none
    | fuel + 1 => do
        let later ← devicesLoop limit fuel (work.sshiftRight 1) (device + 1)
        if work &&& 1 ≠ 0 then some (device :: later) else some later
  else some []

/-- The devices whose alert files are touched for a register.  Without a
secondary dump its data are empty. -/
def Register.alertDevices (register : Register) (fuel : ℕ)
    (curData secData : Text) : Option (List ℕ) := do
  let secondary := if secData ≠ [] then register.masked secData else 0
  let (primary, secondary) ←
    shiftLoop fuel register.mask64 (register.masked curData) secondary
  let first ← devicesLoop (some register.devPerModule) fuel primary 0
  if secData ≠ [] then
    let second ← devicesLoop none fuel secondary 0
    some (first ++ second.map (register.devPerModule + ·))
  else some first

/-- `dump_all_alerts`, with the files in the cache before it. -/
def dumpAllAlerts (glob : Globbing) (fuel : ℕ) (rows : List Register)
    (curData secData : Text) (files : List Text) : Option (List Text) :=
  rows.foldlM (fun files row =>
    (row.alertDevices fuel curData secData).map fun devices =>
      runAll glob files (alertCommands row.name devices)) files

section Numeral

theorem hexValue_digitChar : ∀ digit < 16, hexValue (Nat.digitChar digit) =
    digit := by
  decide

theorem digitChar_ne_blank : ∀ digit < 16, Nat.digitChar digit ≠ ' ' ∧
    Nat.digitChar digit ≠ '\t' ∧ Nat.digitChar digit ≠ '\n' := by
  decide

theorem dumpText_cons (byte next : BitVec 8) (dump : List (BitVec 8)) :
    dumpText (byte :: next :: dump) = byteText byte ++ ' ' ::
      dumpText (next :: dump) := by
  simp [dumpText, List.intercalate]

theorem dumpText_singleton (byte : BitVec 8) :
    dumpText [byte] = byteText byte := by
  simp [dumpText, List.intercalate]

theorem drop_dumpText (dump : List (BitVec 8)) (count : ℕ) :
    (dumpText dump).drop (3 * count) = dumpText (dump.drop count) := by
  induction count generalizing dump with
  | zero => rfl
  | succ count induction =>
      have more : 3 * (count + 1) = 3 * count + 2 + 1 := by omega
      cases dump with
      | nil => simp [dumpText]
      | cons byte dump =>
          cases dump with
          | nil =>
              rw [dumpText_singleton, byteText, more]
              simp [dumpText]
          | cons next dump =>
              rw [dumpText_cons, byteText, more]
              simpa using induction (next :: dump)

theorem take_dumpText (dump : List (BitVec 8)) (count : ℕ) :
    (dumpText dump).take (3 * (count + 1) - 1) =
      dumpText (dump.take (count + 1)) := by
  induction count generalizing dump with
  | zero =>
      cases dump with
      | nil => rfl
      | cons byte dump =>
          cases dump with
          | nil => rfl
          | cons next dump =>
              rw [dumpText_cons]
              rfl
  | succ count induction =>
      have more : 3 * (count + 1 + 1) - 1 = 3 * (count + 1) - 1 + 1 + 1 +
          1 := by omega
      cases dump with
      | nil => simp [dumpText]
      | cons byte dump =>
          cases dump with
          | nil =>
              rw [dumpText_singleton, byteText, more]
              rfl
          | cons next dump =>
              have later := induction (next :: dump)
              rw [List.take_succ_cons] at later ⊢
              rw [List.take_succ_cons, dumpText_cons, dumpText_cons, ← later,
                byteText, more]
              rfl

theorem shellWords_dumpText (dump : List (BitVec 8)) :
    shellWords (dumpText dump) = dump.map byteText := by
  have unblank (byte : BitVec 8) : ∀ char ∈ byteText byte,
      (char = ' ' || char = '\t' || char = '\n') = false := by
    intro char member
    have bound := byte.isLt
    have isDigit : ∃ digit < 16, char = Nat.digitChar digit := by
      rcases List.mem_cons.mp member with isHigh | member
      · exact ⟨_, by omega, isHigh⟩
      · exact ⟨_, by omega, List.mem_singleton.mp member⟩
    obtain ⟨digit, below, rfl⟩ := isDigit
    obtain ⟨noBlank, noTab, noNewline⟩ := digitChar_ne_blank digit below
    simp [noBlank, noTab, noNewline]
  induction dump with
  | nil => rfl
  | cons byte dump induction =>
      cases dump with
      | nil =>
          rw [dumpText_singleton, shellWords,
            List.splitOnP_eq_singleton (unblank byte)]
          rfl
      | cons next dump =>
          rw [dumpText_cons, shellWords,
            List.splitOnP_append_cons_of_forall_mem (unblank byte) ' '
              (by simp),
            List.filter_cons_of_pos (by simp [byteText]), ← shellWords,
            induction]
          rfl

theorem foldl_numeral (words : List Text) (start : Text) :
    words.foldl (fun value byte => byte ++ value) start =
      words.foldl (fun value byte => byte ++ value) [] ++ start := by
  induction words generalizing start with
  | nil => rfl
  | cons word words induction =>
      rw [List.foldl_cons, List.foldl_cons, induction, induction (word ++ [])]
      simp

theorem hexadecimal_bytes (bytes : List (BitVec 8)) :
    hexadecimal ((bytes.map byteText).foldl (fun value byte => byte ++ value)
      []) = littleEndian bytes := by
  induction bytes with
  | nil => rfl
  | cons byte bytes induction =>
      have bound := byte.isLt
      have isLittle : littleEndian (byte :: bytes) = byte.toNat + 256 *
          littleEndian bytes := rfl
      rw [List.map_cons, List.foldl_cons, List.append_nil, foldl_numeral,
        hexadecimal,
        List.foldl_append, ← hexadecimal, induction, byteText, isLittle]
      simp only [List.foldl_cons, List.foldl_nil]
      rw [hexValue_digitChar _ (by omega), hexValue_digitChar _ (by omega)]
      omega

theorem Register.masked_dumpText {register : Register}
    (hasBytes : 0 < register.byteLen) (dump : List (BitVec 8)) :
    register.masked (dumpText dump) =
      BitVec.ofNat 64 (register.value dump) &&& register.mask64 := by
  obtain ⟨more, isLen⟩ : ∃ more, register.byteLen = more + 1 :=
    ⟨register.byteLen - 1, by omega⟩
  rw [masked, regNumeral, regBytes, charOff, charLen, drop_dumpText, isLen,
    take_dumpText, shellWords_dumpText, hexadecimal_bytes, value, isLen]

end Numeral

end Nvbmc.FpgaRegtbl
