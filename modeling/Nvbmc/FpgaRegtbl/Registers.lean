import Mathlib.Data.Nat.Bitwise
import Mathlib.Data.List.Infix
import Nvbmc.Library.Shell

/-!
# Alert registers

The rows of `REG_LIST`, their bits in the register table and the file commands
of `dump_all_alerts`.
-/

namespace Nvbmc.FpgaRegtbl

open Nvbmc.Library

/-- `byte_off` and `byte_len` count the characters of a dump, three for each
byte; here they count bytes. -/
structure Register where
  name : Text
  byteOff : ℕ
  byteLen : ℕ
  bitMask : ℕ
  bitRange : ℕ × ℕ
  devPerModule? : Option ℕ
  /-- Without it the valid bits are never at the low end. -/
  bitMask_pos : 0 < bitMask
  isFileName : '/' ∉ name

theorem isFileName_sample : '/' ∉ "A".toList := by decide

inductive Module where
  | primary
  | secondary
  deriving DecidableEq

/-- The two register tables, each as the number its bytes stand for, the first
byte lowest. -/
structure Memory where
  primary : ℕ
  secondary : ℕ

def Memory.data (memory : Memory) : Module → ℕ
  | .primary => memory.primary
  | .secondary => memory.secondary

/-- How far a mask is shifted until it has a low bit. -/
def maskShift : (fuel mask : ℕ) → ℕ
  | 0, _ => 0
  | fuel + 1, mask => if mask % 2 = 0 then maskShift fuel (mask / 2) + 1 else 0

namespace Register

variable (register : Register)

def devPerModule : ℕ :=
  register.devPerModule?.getD (register.bitRange.2 - register.bitRange.1 + 1)

def shift : ℕ :=
  maskShift register.bitMask register.bitMask

def bit (index : ℕ) : ℕ :=
  8 * register.byteOff + register.shift + index

def HasBit (index : ℕ) : Prop :=
  register.shift + index < 8 * register.byteLen ∧
    register.bitMask.testBit (register.shift + index)

instance decidableHasBit (index : ℕ) : Decidable (register.HasBit index) :=
  inferInstanceAs (Decidable (_ ∧ _))

def slot (device : ℕ) : Module × ℕ :=
  if device < register.devPerModule then (.primary, device)
  else (.secondary, device - register.devPerModule)

def HasDevice (device : ℕ) : Prop :=
  register.HasBit (register.slot device).2

instance decidableHasDevice (device : ℕ) :
    Decidable (register.HasDevice device) :=
  inferInstanceAs (Decidable (register.HasBit _))

def IsSet (memory : Memory) (device : ℕ) : Prop :=
  (memory.data (register.slot device).1).testBit
    (register.bit (register.slot device).2)

end Register

/-- `${reg_name}_${dev_id}`. -/
def alertFile (name : Text) (device : ℕ) : Text :=
  name ++ '_' :: Nat.toDigits 10 device

/-- `${reg_name}_*`, which is not quoted. -/
def alertPattern (name : Text) : Text :=
  name ++ "_*".toList

inductive FileCommand where
  /-- `rm -f` of a pattern. -/
  | removeAll (pattern : Text)
  | touch (file : Text)

def FileCommand.run (glob : Globbing) (files : List Text) :
    FileCommand → List Text
  | .removeAll pattern => files.filter fun file => ¬ glob.takes pattern file
  | .touch file => files.insert file

def runAll (glob : Globbing) (files : List Text) (commands : List FileCommand) :
    List Text :=
  commands.foldl (FileCommand.run glob) files

/-- The commands for a register whose devices have been found. -/
def alertCommands (name : Text) (devices : List ℕ) : List FileCommand :=
  .removeAll (alertPattern name) ::
    devices.map fun device => .touch (alertFile name device)

section Bits

theorem testBit_maskShift {fuel mask : ℕ} (positive : 0 < mask)
    (enough : mask ≤ fuel) : mask.testBit (maskShift fuel mask) := by
  induction fuel generalizing mask with
  | zero => omega
  | succ fuel next =>
      rw [maskShift]
      split_ifs with even
      · rw [Nat.testBit_succ]
        exact next (by omega) (by omega)
      · rw [Nat.testBit_zero, decide_eq_true_eq]
        omega

end Bits

section Files

theorem alertFile_inj {name other : Text} {device otherDevice : ℕ} :
    alertFile name device = alertFile other otherDevice ↔
      name = other ∧ device = otherDevice := by
  have inside {before : Text} {number : ℕ} {digits : List Char}
      (same : Nat.toDigits 10 number = before ++ '_' :: digits) : False := by
    apply @Nat.underscore_not_in_toDigits number
    rw [same]
    simp
  constructor
  · intro same
    have names : name = other ∧
        Nat.toDigits 10 device = Nat.toDigits 10 otherDevice := by
      rcases List.append_eq_append_iff.mp same with
        ⟨between, longer, rest⟩ | ⟨between, longer, rest⟩
      · cases between with
        | nil =>
            rw [List.append_nil] at longer
            exact ⟨longer.symm, (List.cons.inj rest).2⟩
        | cons char between => exact (inside (List.cons.inj rest).2).elim
      · cases between with
        | nil =>
            rw [List.append_nil] at longer
            exact ⟨longer, (List.cons.inj rest).2.symm⟩
        | cons char between => exact (inside (List.cons.inj rest).2).elim
    refine ⟨names.1, ?_⟩
    rw [← @Nat.ofDigitChars_ten_toDigits device, names.2,
      Nat.ofDigitChars_ten_toDigits]
  · rintro ⟨rfl, rfl⟩
    rfl

variable {glob : Globbing} {files : List Text} {rows : List Register}
  {file : Text}

theorem mem_alertCommands (name : Text) (devices : List ℕ) :
    file ∈ runAll glob files (alertCommands name devices) ↔
      (file ∈ files ∧ ¬ glob.takes (alertPattern name) file) ∨
        ∃ device ∈ devices, file = alertFile name device := by
  have touched (devices : List ℕ) (files : List Text) :
      file ∈ runAll glob files
          (devices.map fun device => .touch (alertFile name device)) ↔
        file ∈ files ∨ ∃ device ∈ devices, file = alertFile name device := by
    induction devices generalizing files with
    | nil => simp [runAll]
    | cons device devices next =>
        rw [List.map_cons, runAll, List.foldl_cons, ← runAll, next,
          FileCommand.run, List.mem_insert_iff]
        simp only [List.mem_cons, exists_eq_or_imp]
        tauto
  rw [alertCommands, runAll, List.foldl_cons, ← runAll, touched,
    FileCommand.run, List.mem_filter, decide_eq_true_eq]

/-- What is left after the commands for all rows, whatever devices are found in
them. -/
theorem mem_runAll_alertCommands (devices : Register → List ℕ) :
    file ∈ runAll glob files
        (rows.flatMap fun row => alertCommands row.name (devices row)) ↔
      (file ∈ files ∧
        ∀ row ∈ rows, ¬ glob.takes (alertPattern row.name) file) ∨
        ∃ row later, row :: later <:+ rows ∧
          (∃ device ∈ devices row, file = alertFile row.name device) ∧
          ∀ other ∈ later, ¬ glob.takes (alertPattern other.name) file := by
  induction rows generalizing files with
  | nil => simp [runAll]
  | cons first rows next =>
      rw [List.flatMap_cons, runAll, List.foldl_append, ← runAll, ← runAll,
        next, mem_alertCommands]
      simp only [List.suffix_cons_iff, List.mem_cons, forall_eq_or_imp,
        List.cons.injEq]
      constructor
      · rintro (⟨⟨old, kept⟩ | touched, others⟩ | ⟨row, later, part, rest⟩)
        · exact .inl ⟨old, kept, others⟩
        · exact .inr ⟨first, rows, .inl ⟨rfl, rfl⟩, touched, others⟩
        · exact .inr ⟨row, later, .inr part, rest⟩
      · rintro (⟨old, kept, others⟩ | ⟨row, later, ⟨rfl, rfl⟩ | part, rest⟩)
        · exact .inl ⟨.inl ⟨old, kept⟩, others⟩
        · exact .inl ⟨.inr rest.1, rest.2⟩
        · exact .inr ⟨row, later, part, rest⟩

end Files

end Nvbmc.FpgaRegtbl
