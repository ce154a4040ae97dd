import Mathlib.Algebra.Ring.Nat
import Nvbmc.Library.Dict
import Nvbmc.MctpVdm.Answer

/-!
# `mctp_access`

The commands that are answered from `query_boot_status`, whose output is kept in
a file for each endpoint.  The dry run and the commands that go past the cache
are left out.
-/

namespace Nvbmc.MctpVdm

open Nvbmc.Library

def activeAuthStatus : Text :=
  "active_auth_status".toList

def queryBootStatus : Text :=
  "query_boot_status".toList

/-- `MCTP_CMD_LIST`, in pairs. -/
def mctpCmdList : List (Text × Text) :=
  [("EC_TAG0_AUTH_ERROR", "query_boot_status,0"),
    ("EC_TAG1_COPY_ERROR", "query_boot_status,1"),
    ("EC_OTP_MISMATCH_ERROR", "query_boot_status,2"),
    ("EC_SET_KEY_REVOKE", "query_boot_status,3"),
    ("EC_SET_ROLLBACK_PROTECTION", "query_boot_status,4"),
    ("EC_RECEIVE_AP0_BOOT_COMPLETE", "query_boot_status,5"),
    ("AP0_PRIMARY_FW_AUTHENTICATION_STATUS", "query_boot_status,8-11"),
    ("AP0_SECONDARY_FW_AUTHENTICATION_STATUS", "query_boot_status,12-15"),
    ("AP0_RECOVERY_FW_AUTHENTICATION_STATUS", "query_boot_status,16-19"),
    ("AP0_ACTIVE_SLOT", "query_boot_status,20"),
    ("AP0_SPI_READ_FAILURE", "query_boot_status,21"),
    ("AP0_POWER_GOOD", "query_boot_status,22"),
    ("AP0_RESET_ON_HOLD", "query_boot_status,23"),
    ("AP0_SPI_ACCESS_VIOLCATION_OPCODE", "query_boot_status,24"),
    ("AP0_SPI_ACCESS_VIOLATION_RANGE", "query_boot_status,25"),
    ("AP0_HEARTBEAT_TIMEOUT", "query_boot_status,26"),
    ("AP0_BOOTCOMPLETE_TIMEOUT", "query_boot_status,27"),
    ("active_auth_status", "query_boot_status,")].map fun (prettyCmd, info) =>
      (prettyCmd.toList, info.toList)

/-- `mctp_cmd_lookup`, with its return code. -/
def mctpCmdLookup (special : Text → Text) (target : Text) : Text × ℕ :=
  match mctpCmdList.find? (·.1 = target) with
  | some (_, info) => (info, 0)
  | none => (echoed special target, 1)

/-- What `mctp-vdm-util` is asked for. -/
def mctpCmd (special : Text → Text) (prettyCmd : Text) : Text :=
  beforeLast ',' (mctpCmdLookup special prettyCmd).1

/-- `bits`, unless `skip_bitmask` is set. -/
def commandBits (special : Text → Text) (prettyCmd : Text) : Option Text :=
  let (info, rc) := mctpCmdLookup special prettyCmd
  let bits := afterFirst ',' info
  if rc = 0 ∧ bits ≠ [] then some bits else none

/-- `${bits%%-*}` -/
def bitMin (bits : Text) : ℕ :=
  numeral (bits.takeWhile (· ≠ '-'))

/-- `${bits##*-}` -/
def bitMax (bits : Text) : ℕ :=
  numeral (bits.rtakeWhile (· ≠ '-'))

/-- As many ones as there are bits. -/
def bitmask (bitMin bitMax : ℕ) : BitVec 64 :=
  BitVec.ofNat 64 (Nat.ofDigitChars 2 (List.replicate (bitMax + 1 - bitMin) '1')
    0)

/-- `get_active_auth_status` -/
def getActiveAuthStatus (value : BitVec 64) : BitVec 64 :=
  let slotId := value.sshiftRight 20 &&& 1
  if slotId = 1 then value.sshiftRight 12 &&& 0xF
  else value.sshiftRight 8 &&& 0xF

/-- `ext_cmd_handler`, `none` for a command without handler. -/
def extCmdHandler (prettyCmd : Text) (value : BitVec 64) : Option (BitVec 64) :=
  if prettyCmd = activeAuthStatus then some (getActiveAuthStatus value)
  else none

/-- The number that is printed for the data. -/
def commandValue (special : Text → Text) (prettyCmd : Text)
    (value : BitVec 64) : ℤ :=
  match commandBits special prettyCmd with
  | none => ((extCmdHandler prettyCmd value).getD value).toInt
  | some bits =>
      (value.sshiftRight (bitMin bits) &&& bitmask (bitMin bits)
        (bitMax bits)).toInt

/-- The exit code, and what is printed. -/
abbrev Result := ℕ × Option ℤ

/-- The part of `mctp_access` after `output` has been found. -/
def parseOutput (special : Text → Text) (prettyCmd output : Text) : Result :=
  match responseData (echoed special output) with
  | none => (1, none)
  | some data =>
      (0, some (commandValue special prettyCmd
        (BitVec.ofNat 64 (hexadecimal data))))

/-- A call for a command that is answered from the boot status, with the time
and what the tool answers if it is asked. -/
structure Call where
  devEid : Text
  prettyCmd : Text
  special : Text → Text
  monotonicTime : ℕ
  rc : ℕ
  output : Text
  isEndpoint : devEid ≠ []
  isBootStatus : mctpCmd special prettyCmd = queryBootStatus

/-- `"%s\n%s\n%s"` of the time, the exit code and the output. -/
def entryText (time rc : ℕ) (output : Text) : Text :=
  Nat.toDigits 10 time ++ '\n' :: (Nat.toDigits 10 rc ++ '\n' :: output)

/-- `head -n 1` -/
def firstLine (text : Text) : Text :=
  (text.splitOn '\n').headD []

/-- `head -n 2 | tail -n 1` -/
def secondLine (text : Text) : Text :=
  ((text.splitOn '\n').take 2).getLastD []

/-- `tail -n +3` -/
def laterLines (text : Text) : Text :=
  substituted (['\n'].intercalate ((text.splitOn '\n').drop 2))

structure Outcome where
  isQueried : Bool
  result : Result

/-- `mctp_access`, with the files of the cache. -/
def mctpAccess (cacheStaleAge : ℕ) (cache : Dict Text Text) (call : Call) :
    Outcome × Dict Text Text :=
  let cachefile := (cache.get? call.devEid).getD []
  let fileData := substituted cachefile
  let fileTime := if cachefile ≠ [] then numeral (firstLine fileData) else 0
  let age := (call.monotonicTime : ℤ) - fileTime
  if age > cacheStaleAge ∨ fileTime = 0 then
    let output := substituted call.output
    let cache :=
      cache.set call.devEid (entryText call.monotonicTime call.rc output)
    -- `file_rc` stays 0
    (⟨true, parseOutput call.special call.prettyCmd output⟩, cache)
  else
    let fileRc := numeral (secondLine fileData)
    let output := laterLines fileData
    if fileRc ≠ 0 then (⟨false, fileRc, none⟩, cache)
    else (⟨false, parseOutput call.special call.prettyCmd output⟩, cache)

section Bits

theorem ofDigitChars_ones (count init : ℕ) :
    Nat.ofDigitChars 2 (List.replicate count '1') init + 1 = (init + 1) *
      2 ^ count := by
  induction count generalizing init with
  | zero => simp
  | succ count induction =>
      rw [List.replicate_succ, Nat.ofDigitChars_cons, induction, Nat.pow_succ']
      have isOne : '1'.toNat - '0'.toNat = 1 := rfl
      have twice : 2 * init + 1 + 1 = (init + 1) * 2 := by omega
      rw [isOne, twice, Nat.mul_assoc]

def bitsBetween (bitMin bitMax value : ℕ) : ℕ :=
  value / 2 ^ bitMin % 2 ^ (bitMax + 1 - bitMin)

theorem toInt_shift_and_mask {bitMin bitMax : ℕ} (ordered : bitMin ≤ bitMax)
    (small : bitMax < 63) (value : ℕ) :
    ((BitVec.ofNat 64 value).sshiftRight bitMin &&& bitmask bitMin
      bitMax).toInt = bitsBetween bitMin bitMax value := by
  have ones := ofDigitChars_ones (bitMax + 1 - bitMin) 0
  have below : 2 ^ (bitMax + 1 - bitMin) ≤ 2 ^ 63 :=
    Nat.pow_le_pow_right (by decide) (by omega)
  have isMask : (bitmask bitMin bitMax).toNat = 2 ^ (bitMax + 1 - bitMin) -
      1 := by
    rw [bitmask, BitVec.toNat_ofNat]
    omega
  have isNat :
      ((BitVec.ofNat 64 value).sshiftRight bitMin &&& bitmask bitMin
        bitMax).toNat = bitsBetween bitMin bitMax value := by
    rw [BitVec.toNat_and, isMask, Nat.and_two_pow_sub_one_eq_mod, bitsBetween]
    apply Nat.eq_of_testBit_eq
    intro bit
    rw [Nat.testBit_mod_two_pow, Nat.testBit_mod_two_pow,
      Nat.testBit_div_two_pow]
    by_cases inside : bit < bitMax + 1 - bitMin
    · have isBit :=
        BitVec.getLsbD_sshiftRight (BitVec.ofNat 64 value) bitMin bit
      rw [BitVec.getLsbD_ofNat, if_pos (by omega)] at isBit
      simp only [BitVec.getLsbD] at isBit
      rw [isBit]
      have first : ¬ 64 ≤ bit := by omega
      have second : bitMin + bit < 64 := by omega
      simp [first, second, Nat.add_comm]
    · simp [inside]
  have fits : bitsBetween bitMin bitMax value < 2 ^ (bitMax + 1 - bitMin) :=
    Nat.mod_lt _ (Nat.two_pow_pos _)
  rw [BitVec.toInt_eq_toNat_of_lt, isNat]
  omega

/-- The bits of a command of the table. -/
theorem commandBits_bounds {special : Text → Text} {prettyCmd bits : Text}
    (hasBits : commandBits special prettyCmd = some bits) :
    bitMin bits ≤ bitMax bits ∧ bitMax bits < 63 := by
  have rows : ∀ row ∈ mctpCmdList, afterFirst ',' row.2 ≠ [] →
      bitMin (afterFirst ',' row.2) ≤ bitMax (afterFirst ',' row.2) ∧
        bitMax (afterFirst ',' row.2) < 63 := by
    decide
  rw [commandBits, mctpCmdLookup] at hasBits
  cases isFound : mctpCmdList.find? (·.1 = prettyCmd) with
  | none =>
      rw [isFound] at hasBits
      cases hasBits
  | some row =>
      rw [isFound] at hasBits
      simp only [true_and, Option.ite_none_right_eq_some, Option.some.injEq]
        at hasBits
      obtain ⟨nonempty, rfl⟩ := hasBits
      exact rows row (List.mem_of_find?_eq_some isFound) nonempty

end Bits

section Lines

variable {output : Text} (time rc : ℕ) (clean : Clean output)
include clean

theorem splitOn_entryText :
    (substituted (entryText time rc output)).splitOn '\n' =
      Nat.toDigits 10 time :: Nat.toDigits 10 rc ::
        (if output = [] then [] else output.splitOn '\n') := by
  have noNull (value : ℕ) : '\x00' ∉ Nat.toDigits 10 value :=
    not_mem_toDigits (by decide) value
  have noNewline (value : ℕ) : '\n' ∉ Nat.toDigits 10 value :=
    not_mem_toDigits (by decide) value
  have twoLines : Clean (Nat.toDigits 10 time ++ '\n' :: Nat.toDigits 10 rc) :=
    clean_append_cons (noNull time) (by decide) (clean_toDigits rc)
      Nat.toDigits_ne_nil
  by_cases empty : output = []
  · have isText : substituted (entryText time rc output) =
        Nat.toDigits 10 time ++ '\n' :: Nat.toDigits 10 rc := by
      have split : entryText time rc output =
          (Nat.toDigits 10 time ++ '\n' :: Nat.toDigits 10 rc) ++ ['\n'] := by
        simp [entryText, empty]
      have filtered : (['\n'] : Text).filter (· ≠ '\x00') = ['\n'] := by decide
      rw [split, substituted, List.filter_append, filtered,
        List.rdropWhile_concat_pos _ _ _ (by simp)]
      exact substituted_of_clean twoLines
    rw [isText, List.splitOn_append_cons_self_of_not_mem (noNewline time),
      List.splitOn_eq_singleton (noNewline rc), if_pos empty]
  · have whole : Clean (entryText time rc output) := by
      apply clean_append_cons (noNull time) (by decide)
      · exact clean_append_cons (noNull rc) (by decide) clean empty
      · simp
    rw [substituted_of_clean whole, entryText,
      List.splitOn_append_cons_self_of_not_mem (noNewline time),
      List.splitOn_append_cons_self_of_not_mem (noNewline rc), if_neg empty]

theorem firstLine_entryText :
    firstLine (substituted (entryText time rc output)) =
      Nat.toDigits 10 time := by
  rw [firstLine, splitOn_entryText time rc clean, List.headD_cons]

theorem secondLine_entryText :
    secondLine (substituted (entryText time rc output)) =
      Nat.toDigits 10 rc := by
  rw [secondLine, splitOn_entryText time rc clean, List.take_succ_cons,
    List.take_succ_cons, List.take_zero]
  rfl

theorem laterLines_entryText :
    laterLines (substituted (entryText time rc output)) = output := by
  rw [laterLines, splitOn_entryText time rc clean, List.drop_succ_cons,
    List.drop_succ_cons, List.drop_zero]
  by_cases empty : output = []
  · rw [if_pos empty, empty]
    decide
  · rw [if_neg empty, List.intercalate_splitOn, substituted_of_clean clean]

omit clean

theorem entryText_ne_nil (output : Text) : entryText time rc output ≠ [] := by
  simp [entryText]

end Lines

end Nvbmc.MctpVdm
