import Nvbmc.OutHash.Walk

/-!
# Reading a line back

A line has padded columns, a path and, for a link, its target.  What was hashed
is known from the line when a path does not look like a link with its target.
-/

namespace Nvbmc.OutHash

open Library

/-- The size of a file and the hash of its contents. -/
def Setting.digest (setting : Setting) (content : List UInt8) : ℕ × Text :=
  (content.length, setting.sha256 content)

/-- The permission bits that are considered. -/
def Setting.masks (setting : Setting) : List ℕ :=
  [0o400, 0o200, 0o4000, 0o100] ++
    if setting.includeOwners then
      [0o40, 0o20, 0o2000, 0o10, 0o4, 0o2, 0o1000, 0o1]
    else []

/-- Two files that are the same as far as they are considered. -/
structure Alike (setting : Setting) (first second : Inode) : Prop where
  kind : first.kind.map setting.digest = second.kind.map setting.digest
  mode : ∀ mask ∈ setting.masks, first.has mask = second.has mask
  owners : setting.includeOwners = true →
    first.owner = second.owner ∧ first.group = second.group
  mtime : setting.includeTimestamps = true →
    setting.clamped first.mtime = setting.clamped second.mtime

/-- A file whose line can be read back. -/
structure Clear (setting : Setting) (inode : Inode) (path : Text) : Prop where
  /-- No line end is in a target, and no arrow in the path of a link. -/
  target : ∀ target, inode.kind = .lnk target →
    '\n' ∉ target ∧ ¬ [' ', '-', '>', ' '] <:+: path ++ [' ']
  /-- A sticky bit stands with the execute bit for others. -/
  sticky : setting.includeOwners = true → inode.has 0o1000 = true →
    inode.has 0o1 = true
  words : setting.includeOwners = true →
    (∀ owner ∈ inode.owner, Word owner) ∧ ∀ group ∈ inode.group, Word group
  whole : setting.includeTimestamps = true →
    (setting.clamped inode.mtime).den = 1

section Permissions

variable {first second : Inode}

theorem addPerm_inj {mask : ℕ} {on off : Char} (different : on ≠ off)
    (same : first.addPerm mask on off = second.addPerm mask on off) :
    first.has mask = second.has mask := by
  rw [Inode.addPerm, Inode.addPerm] at same
  cases one : first.has mask with
  | true =>
      cases other : second.has mask with
      | true => rfl
      | false => exact absurd (by simpa [one, other] using same) different
  | false =>
      cases other : second.has mask with
      | true => exact absurd (by simpa [one, other] using same.symm) different
      | false => rfl

theorem exec_inj : ∀ special exec otherSpecial otherExec : Bool,
    (if special then (if exec then 's' else 'S')
      else if exec then 'x' else '-') =
    (if otherSpecial then (if otherExec then 's' else 'S')
      else if otherExec then 'x' else '-') →
    special = otherSpecial ∧ exec = otherExec := by
  decide

theorem sticky_inj : ∀ sticky exec otherSticky otherExec : Bool,
    (sticky = true → exec = true) → (otherSticky = true → otherExec = true) →
    (if sticky then 't' else if exec then 'x' else '-') =
      (if otherSticky then 't' else if otherExec then 'x' else '-') →
    sticky = otherSticky ∧ exec = otherExec := by
  decide

theorem addExec_inj {special exec : ℕ}
    (same : first.addExec special exec = second.addExec special exec) :
    first.has special = second.has special ∧ first.has exec = second.has exec :=
  exec_inj _ _ _ _ same

theorem userPerms_inj (same : first.userPerms = second.userPerms) :
    ∀ mask ∈ [0o400, 0o200, 0o4000, 0o100], first.has mask =
      second.has mask := by
  obtain ⟨read, same⟩ := List.cons.inj same
  obtain ⟨write, same⟩ := List.cons.inj same
  obtain ⟨exec, -⟩ := List.cons.inj same
  have both := addExec_inj exec
  simp only [List.forall_mem_cons]
  exact ⟨addPerm_inj (by decide) read, addPerm_inj (by decide) write, both.1,
    both.2, fun _ member => absurd member List.not_mem_nil⟩

theorem otherPerms_inj (sticky : first.has 0o1000 = true → first.has 0o1 = true)
    (alsoSticky : second.has 0o1000 = true → second.has 0o1 = true)
    (same : first.otherPerms = second.otherPerms) :
    ∀ mask ∈ [0o40, 0o20, 0o2000, 0o10, 0o4, 0o2, 0o1000, 0o1],
      first.has mask = second.has mask := by
  obtain ⟨groupRead, same⟩ := List.cons.inj same
  obtain ⟨groupWrite, same⟩ := List.cons.inj same
  obtain ⟨groupExec, same⟩ := List.cons.inj same
  obtain ⟨read, same⟩ := List.cons.inj same
  obtain ⟨write, same⟩ := List.cons.inj same
  obtain ⟨exec, -⟩ := List.cons.inj same
  have group := addExec_inj groupExec
  have others := sticky_inj _ _ _ _ sticky alsoSticky exec
  simp only [List.forall_mem_cons]
  exact ⟨addPerm_inj (by decide) groupRead, addPerm_inj (by decide) groupWrite,
    group.1,
    group.2, addPerm_inj (by decide) read, addPerm_inj (by decide) write,
    others.1,
    others.2, fun _ member => absurd member List.not_mem_nil⟩

end Permissions

inductive SameType {Content : Type} : Kind Content → Kind Content → Prop where
  | dir : SameType .dir .dir
  | chr (major minor major' minor' : ℕ) : SameType (.chr major minor)
      (.chr major' minor')
  | blk (major minor major' minor' : ℕ) : SameType (.blk major minor)
      (.blk major' minor')
  | sock : SameType .sock .sock
  | lnk (target target' : Text) : SameType (.lnk target) (.lnk target')
  | fifo : SameType .fifo .fifo
  | reg (content content' : Content) : SameType (.reg content) (.reg content')

theorem sameType_of_typeChar {Content : Type} {first second : Kind Content}
    (same : typeChar first = typeChar second) : SameType first second := by
  cases first <;> cases second <;> first | constructor | simp [typeChar] at same

section Columns

variable {setting : Setting} {first second : Kind (List UInt8)}
  {rest behind : Text}

theorem deviceNumbers_inj {major minor major' minor' : ℕ}
    (same : padLeft 9 (Nat.toDigits 10 major ++ '.' :: Nat.toDigits 10 minor) ++
      ' ' :: rest =
      padLeft 9 (Nat.toDigits 10 major' ++ '.' :: Nat.toDigits 10 minor') ++
        ' ' :: behind) :
    major = major' ∧ minor = minor' ∧ rest = behind := by
  have words (major minor : ℕ) :
      Word (Nat.toDigits 10 major ++ '.' :: Nat.toDigits 10 minor) := by
    constructor
    · simp
    · rw [List.mem_append, List.mem_cons]
      rintro (digit | dot | digit)
      · exact (word_toDigits major).solid digit
      · exact absurd dot (by decide)
      · exact (word_toDigits minor).solid digit
  obtain ⟨numbers, rest⟩ := padLeft_append_inj (words _ _) (words _ _) same
  obtain ⟨majors, minors⟩ := append_separator_inj (not_mem_toDigits rfl _)
    (not_mem_toDigits rfl _) numbers
  exact ⟨toDigits_injective majors, toDigits_injective minors, rest⟩

theorem contents_inj {content content' : List UInt8}
    (same : contents setting.sha256 (.reg content) ++ rest =
      contents setting.sha256 (.reg content') ++ behind) :
    setting.digest content = setting.digest content' ∧ rest = behind := by
  simp only [contents, List.append_assoc, List.cons_append] at same
  obtain ⟨size, same⟩ :=
    padLeft_append_inj (word_toDigits _) (word_toDigits _) same
  obtain ⟨hash, rest⟩ := List.append_inj same (by
    rw [setting.length_sha256, setting.length_sha256])
  rw [Setting.digest, Setting.digest, toDigits_injective size, hash]
  exact ⟨rfl, rest⟩

theorem columns_inj (sameType : SameType first second)
    (same : device first ++ ' ' :: (contents setting.sha256 first ++ rest) =
      device second ++ ' ' :: (contents setting.sha256 second ++ behind)) :
    rest = behind ∧ (arrow first = arrow second →
      first.map setting.digest = second.map setting.digest) := by
  cases sameType with
  | chr major minor major' minor' =>
      obtain ⟨rfl, rfl, same⟩ := deviceNumbers_inj same
      exact ⟨List.append_cancel_left same, fun _ => rfl⟩
  | blk major minor major' minor' =>
      obtain ⟨rfl, rfl, same⟩ := deviceNumbers_inj same
      exact ⟨List.append_cancel_left same, fun _ => rfl⟩
  | reg content content' =>
      obtain ⟨-, same⟩ := List.cons.inj (List.append_cancel_left same)
      obtain ⟨digest, rest⟩ := contents_inj same
      exact ⟨rest, fun _ => congrArg Kind.reg digest⟩
  | lnk target target' =>
      obtain ⟨-, same⟩ := List.cons.inj (List.append_cancel_left same)
      refine ⟨List.append_cancel_left same, fun targets => ?_⟩
      have same : [' ', '-', '>', ' '] ++ target = [' ', '-', '>', ' '] ++
          target' := targets
      rw [List.append_cancel_left same]
  | dir =>
      obtain ⟨-, same⟩ := List.cons.inj (List.append_cancel_left same)
      exact ⟨List.append_cancel_left same, fun _ => rfl⟩
  | sock =>
      obtain ⟨-, same⟩ := List.cons.inj (List.append_cancel_left same)
      exact ⟨List.append_cancel_left same, fun _ => rfl⟩
  | fifo =>
      obtain ⟨-, same⟩ := List.cons.inj (List.append_cancel_left same)
      exact ⟨List.append_cancel_left same, fun _ => rfl⟩

end Columns

section Targets

variable {path other target target' : Text}

theorem eq_nil_of_arrow
    (noArrow : ¬ [' ', '-', '>', ' '] <:+: path ++ other ++ [' '])
    (same : arrow (.lnk target) = other ++ arrow (.lnk target')) :
    other = [] := by
  match other with
  | [] => rfl
  | [_] => simp [arrow] at same
  | [_, _] => simp [arrow] at same
  | [a, b, c] =>
      simp only [arrow, List.cons_append, List.nil_append, List.cons.injEq]
        at same
      obtain ⟨rfl, rfl, rfl, -⟩ := same
      exact absurd ⟨path, [], by simp⟩ noArrow
  | a :: b :: c :: d :: rest =>
      simp only [arrow, List.cons_append, List.cons.injEq] at same
      obtain ⟨rfl, rfl, rfl, rfl, -⟩ := same
      exact absurd ⟨path, rest ++ [' '], by simp⟩ noArrow

theorem arrow_inj (clear : ¬ [' ', '-', '>', ' '] <:+: path ++ [' '])
    (alsoClear : ¬ [' ', '-', '>', ' '] <:+: other ++ [' '])
    (same : path ++ arrow (.lnk target) = other ++ arrow (.lnk target')) :
    path = other ∧ arrow (.lnk target) = arrow (.lnk target') := by
  rcases List.append_eq_append_iff.mp same with ⟨more, rfl, targets⟩ |
    ⟨more, rfl, targets⟩
  · have none : more = [] := eq_nil_of_arrow alsoClear targets
    subst none
    exact ⟨(List.append_nil _).symm, targets⟩
  · have none : more = [] := eq_nil_of_arrow clear targets
    subst none
    exact ⟨List.append_nil _, targets.symm⟩

end Targets

section Line

variable {setting : Setting} {first second : Inode}
  {path other line line' : Text} {rest behind : Text}

theorem owners_inj (clear : Clear setting first path)
    (alsoClear : Clear setting second other)
    (written : first.owners setting.includeOwners = some line)
    (alsoWritten : second.owners setting.includeOwners = some line')
    (same : line ++ ' ' :: rest = line' ++ ' ' :: behind) :
    (setting.includeOwners = true →
      (∀ mask ∈ [0o40, 0o20, 0o2000, 0o10, 0o4, 0o2, 0o1000, 0o1],
        first.has mask = second.has mask) ∧
      first.owner = second.owner ∧ first.group = second.group) ∧
        rest = behind := by
  cases included : setting.includeOwners with
  | false =>
      rw [included] at written alsoWritten
      cases written
      cases alsoWritten
      exact ⟨fun absurd => (Bool.false_ne_true absurd).elim,
        (List.cons.inj same).2⟩
  | true =>
      rw [included, Inode.owners, if_pos rfl] at written alsoWritten
      obtain ⟨owner, known, written⟩ := Option.bind_eq_some_iff.mp written
      obtain ⟨group, groupKnown, written⟩ := Option.bind_eq_some_iff.mp written
      obtain ⟨owner', known', alsoWritten⟩ :=
        Option.bind_eq_some_iff.mp alsoWritten
      obtain ⟨group', groupKnown', alsoWritten⟩ :=
        Option.bind_eq_some_iff.mp alsoWritten
      cases written
      cases alsoWritten
      obtain ⟨ownerWord, groupWord⟩ := clear.words included
      obtain ⟨ownerWord', groupWord'⟩ := alsoClear.words included
      simp only [List.append_assoc, List.cons_append] at same
      obtain ⟨perms, same⟩ := List.append_inj same rfl
      obtain ⟨-, same⟩ := List.cons.inj same
      obtain ⟨rfl, groups⟩ := padLeft_append_inj (ownerWord owner known)
        (ownerWord' owner' known') same
      obtain ⟨rfl, rest⟩ := padLeft_append_inj (groupWord group groupKnown)
        (groupWord' group' groupKnown') groups
      refine ⟨fun _ =>
        ⟨?_, known.trans known'.symm, groupKnown.trans groupKnown'.symm⟩, rest⟩
      exact otherPerms_inj (clear.sticky included) (alsoClear.sticky included)
        perms

theorem seconds_inj {time time' : ℚ} (whole : time.den = 1)
    (alsoWhole : time'.den = 1)
    (same : seconds time = seconds time') : time = time' := by
  have numbers := decimal_injective same
  rw [whole, alsoWhole, Int.natCast_one, Int.tdiv_one, Int.tdiv_one] at numbers
  exact Rat.ext numbers (whole.trans alsoWhole.symm)

theorem time_inj (clear : Clear setting first path)
    (alsoClear : Clear setting second other)
    (same : setting.time first.mtime ++ ' ' :: rest =
      setting.time second.mtime ++ ' ' :: behind) :
    (setting.includeTimestamps = true →
      setting.clamped first.mtime = setting.clamped second.mtime) ∧
        rest = behind := by
  cases included : setting.includeTimestamps with
  | false =>
      rw [Setting.time, Setting.time, included] at same
      exact ⟨fun absurd => (Bool.false_ne_true absurd).elim,
        (List.cons.inj same).2⟩
  | true =>
      rw [Setting.time, Setting.time, included, if_pos rfl, if_pos rfl] at same
      obtain ⟨-, same⟩ := List.cons.inj same
      obtain ⟨times, rest⟩ :=
        padLeft_append_inj (word_decimal _) (word_decimal _) same
      exact ⟨fun _ => seconds_inj (clear.whole included)
        (alsoClear.whole included) times, rest⟩

theorem time_blank (setting : Setting) (mtime : ℚ) (rest : Text) :
    ∃ more, setting.time mtime ++ ' ' :: rest = ' ' :: more := by
  rw [Setting.time]
  split_ifs
  · exact ⟨_, rfl⟩
  · exact ⟨_, rfl⟩

theorem path_inj (clear : Clear setting first path)
    (alsoClear : Clear setting second other) (oneLine : '\n' ∉ path)
    (alsoOneLine : '\n' ∉ other)
    (sameType : SameType first.kind second.kind)
    (same : path ++ arrow first.kind ++ '\n' :: rest =
      other ++ arrow second.kind ++ '\n' :: behind) :
    path = other ∧ arrow first.kind = arrow second.kind ∧ rest = behind := by
  have targets : ∀ {inode : Inode} {path : Text}, Clear setting inode path →
      '\n' ∉ path → '\n' ∉ path ++ arrow inode.kind := by
    intro inode path clear oneLine member
    rcases List.mem_append.mp member with inPath | inTarget
    · exact oneLine inPath
    · cases kind : inode.kind with
      | lnk target =>
          have free := (clear.target target kind).1
          rw [kind, arrow] at inTarget
          simp [free] at inTarget
      | _ =>
          rw [kind] at inTarget
          cases inTarget
  obtain ⟨named, rest⟩ := append_separator_inj (targets clear oneLine)
    (targets alsoClear alsoOneLine) same
  cases kind : first.kind with
  | lnk target =>
      rw [kind] at sameType named
      cases kind' : second.kind with
      | lnk target' =>
          rw [kind'] at named
          obtain ⟨paths, arrows⟩ := arrow_inj (clear.target target kind).2
            (alsoClear.target target' kind').2 named
          exact ⟨paths, arrows, rest⟩
      | _ =>
          rw [kind'] at sameType
          cases sameType
  | _ =>
      rw [kind] at sameType named
      cases kind' : second.kind <;>
        rw [kind'] at sameType named <;> cases sameType
      exact ⟨List.append_cancel_right named, rfl, rest⟩

theorem process_inj (clear : Clear setting first path)
    (alsoClear : Clear setting second other) (oneLine : '\n' ∉ path)
    (alsoOneLine : '\n' ∉ other)
    (processed : process setting first path = some line)
    (alsoProcessed : process setting second other = some line')
    (same : line ++ rest = line' ++ behind) :
    path = other ∧ Alike setting first second ∧ rest = behind := by
  obtain ⟨owners, written, processed⟩ := Option.bind_eq_some_iff.mp processed
  obtain ⟨owners', alsoWritten, alsoProcessed⟩ :=
    Option.bind_eq_some_iff.mp alsoProcessed
  cases processed
  cases alsoProcessed
  simp only [List.append_assoc, List.cons_append, List.nil_append] at same
  obtain ⟨types, same⟩ := List.cons.inj same
  have sameType := sameType_of_typeChar types
  obtain ⟨perms, same⟩ := List.append_inj same rfl
  obtain ⟨more, blank⟩ := time_blank setting first.mtime
    (device first.kind ++ ' ' :: (contents setting.sha256 first.kind ++
      ' ' :: (path ++ (arrow first.kind ++ '\n' :: rest))))
  obtain ⟨more', blank'⟩ := time_blank setting second.mtime
    (device second.kind ++ ' ' :: (contents setting.sha256 second.kind ++
      ' ' :: (other ++ (arrow second.kind ++ '\n' :: behind))))
  rw [blank, blank'] at same
  obtain ⟨owned, same⟩ := owners_inj clear alsoClear written alsoWritten same
  have times := blank.trans ((congrArg _ same).trans blank'.symm)
  obtain ⟨clamped, same⟩ := time_inj clear alsoClear times
  obtain ⟨same, kinds⟩ := columns_inj sameType same
  obtain ⟨-, same⟩ := List.cons.inj same
  rw [← List.append_assoc, ← List.append_assoc] at same
  obtain ⟨paths, arrows, rest⟩ :=
    path_inj clear alsoClear oneLine alsoOneLine sameType same
  refine ⟨paths,
    ⟨kinds arrows, ?_, fun included => (owned included).2, clamped⟩, rest⟩
  intro mask member
  rcases List.mem_append.mp member with user | other
  · exact userPerms_inj perms mask user
  · split_ifs at other with included
    · exact (owned included).1 mask other
    · cases other

end Line

end Nvbmc.OutHash
