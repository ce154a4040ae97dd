import Nvbmc.Providers.Priorities
import Nvbmc.Versions.Compare

/-!
# The preferred version

`PREFERRED_VERSION` and `REQUIRED_VERSION` are cut into an epoch, a version and
a revision by one regular expression.  Its second group takes everything up to
the end of the line, so there is never a revision, and what is written for one
belongs to the version.
-/

namespace Nvbmc.Providers

open Library Versions

/-- `not ver`. -/
def isUnset (ver : Option Text) : Bool :=
  ver = none || ver = some []

/-- `versionVariableMatch`; the configuration is asked for a variable at a time.
-/
def versionVariableMatch (getVar : Text → Option Text) (keyword pn : Text) :
    Option Text :=
  let ver := getVar (keyword ++ "_VERSION:pn-".toList ++ pn)
  let ver := if isUnset ver then getVar (keyword ++ "_VERSION_".toList ++ pn)
             else ver
  if isUnset ver then getVar (keyword ++ "_VERSION".toList) else ver

/-- `(\d+:)*`: the last number with a colon behind it, and the rest. -/
def matchEpochs : ℕ → Option Text → Text → Option Text × Text
  | 0, epoch, text => (epoch, text)
  | fuel + 1, epoch, text =>
      match text.takeWhile isDecimal, text.dropWhile isDecimal with
      | digit :: digits, ':' :: rest =>
          matchEpochs fuel (some (digit :: digits)) rest
      | _, _ => (epoch, text)

/-- `(_.*)*`, behind the end of a line or of the text: what stands behind the
underscore. -/
def matchRevision : Text → Option Text
  | '_' :: rest => some (rest.takeWhile (· ≠ '\n'))
  | _ => none

/-- The groups of the regular expression. -/
def preferredParts (preferredV : Text) : Option Text × Text × Option Text :=
  let (epoch, rest) := matchEpochs preferredV.length none preferredV
  (epoch, rest.takeWhile (· ≠ '\n'), matchRevision (rest.dropWhile (· ≠ '\n')))

/-- `preferredVersionMatch`. -/
def preferredVersionMatch (pepvpr : Text × Text × Text)
    (preferred : Option Text × Text × Option Text) : Bool :=
  let (pe, pv, pr) := pepvpr
  let (preferredE, preferredV, preferredR) := preferred
  (some pr = preferredR || preferredR = none) &&
    (some pe = preferredE || preferredE = none) &&
    (preferredV =
      pv || (['%'].isSuffixOf preferredV && preferredV.dropLast.isPrefixOf pv))

section Find

variable {File : Type} (getVar : Text → Option Text) (cache : DataCache File)

/-- What `findPreferredProvider` returns. -/
structure PreferredProvider (File : Type) where
  preferredVer : Option (Text × Text × Text)
  preferredFile : Option File
  required : Bool

/-- The variable that counts: a required version takes precedence. -/
def chosenVersion (pn : Text) : Option Text :=
  (versionVariableMatch getVar "REQUIRED".toList pn).or
    (versionVariableMatch getVar "PREFERRED".toList pn)

/-- `findPreferredProvider`. -/
def findPreferredProvider (pn : Text) (pkgPn : List (List File)) :
    PreferredProvider File :=
  let required := (versionVariableMatch getVar "REQUIRED".toList pn).isSome
  match chosenVersion getVar pn with
  | none => ⟨none, none, required⟩
  | some [] => ⟨none, none, required⟩
  | some preferredV =>
      let preferredFile := pkgPn.findSome? fun fileSet =>
        fileSet.find? fun f =>
          preferredVersionMatch (cache.pkgPepvpr f) (preferredParts preferredV)
      ⟨preferredFile.map cache.pkgPepvpr, preferredFile, required⟩

variable {getVar cache}

theorem required_eq {pn : Text} {sets : List (List File)} :
    (findPreferredProvider getVar cache pn sets).required =
      (versionVariableMatch getVar "REQUIRED".toList pn).isSome := by
  rw [findPreferredProvider]
  split <;> rfl

end Find

/-- An epoch, a version and a revision as they are written in the variables. -/
structure Preference where
  epoch : Option Text
  version : Text
  revision : Option Text
  isEpoch : ∀ e ∈ epoch, e ≠ [] ∧ ∀ char ∈ e, isDecimal char
  isVersion : '_' ∉ version ∧ ':' ∉ version
  isRevision : ∀ r ∈ revision, '_' ∉ r ∧ ':' ∉ r

namespace Preference

variable (preference : Preference)

/-- `v_r`, or `v`. -/
def versionText : Text :=
  match preference.revision with
  | none => preference.version
  | some r => preference.version ++ '_' :: r

/-- `e:v_r`, with the parts that are given. -/
def text : Text :=
  match preference.epoch with
  | none => preference.versionText
  | some e => e ++ ':' :: preference.versionText

/-- The version is the one that is written, or begins with what is written
before `%`. -/
def VersionTest (version pv : Text) : Prop :=
  if ['%'] <:+ version then version.dropLast <+: pv else pv = version

def Wants (pepvpr : Text × Text × Text) : Prop :=
  (∀ e ∈ preference.epoch, pepvpr.1 = e) ∧
    VersionTest preference.version pepvpr.2.1 ∧
    ∀ r ∈ preference.revision, pepvpr.2.2 = r

/-- For all recipes of a package: one is selected when one is wanted, and it is
a wanted one of the highest priority. -/
def SelectionLaw : Prop :=
  ∀ (File : Type) (cache : DataCache File) (files : List File)
    (getVar : Text → Option Text) (pn : Text),
    chosenVersion getVar pn = some preference.text →
    let selected :=
      (findPreferredProvider getVar cache pn
        (sortPriorities cache files)).preferredFile
    (selected.isSome ↔ ∃ f ∈ files, preference.Wants (cache.pkgPepvpr f)) ∧
    ∀ f ∈ selected, f ∈ files ∧ preference.Wants (cache.pkgPepvpr f) ∧
      ∀ g ∈ files, preference.Wants (cache.pkgPepvpr g) →
        cache.bbfilePriority g ≤ cache.bbfilePriority f

theorem colon_not_mem_versionText : ':' ∉ preference.versionText := by
  rw [versionText]
  cases found : preference.revision with
  | none => exact preference.isVersion.2
  | some r =>
      have noColon := (preference.isRevision r found).2
      simp [preference.isVersion.2, noColon]

theorem matchEpochs_of_not_mem {text : Text} (noColon : ':' ∉ text) (fuel : ℕ)
    (epoch : Option Text) : matchEpochs fuel epoch text = (epoch, text) := by
  cases fuel with
  | zero => rfl
  | succ fuel =>
      rw [matchEpochs]
      split
      · rename_i rest _ dropped
        have member : ':' ∈ text.dropWhile isDecimal := by simp [dropped]
        exact absurd ((List.dropWhile_sublist isDecimal).mem member) noColon
      · rfl

theorem matchEpochs_epoch {e rest : Text} (nonempty : e ≠ [])
    (decimal : ∀ char ∈ e, isDecimal char) (noColon : ':' ∉ rest) (fuel : ℕ) :
    matchEpochs (fuel + 1) none (e ++ ':' :: rest) = (some e, rest) := by
  have stops : isDecimal ':' = false := by decide
  have taken : (e ++ ':' :: rest).takeWhile isDecimal = e := by
    rw [List.takeWhile_append_of_pos decimal,
      List.takeWhile_cons_of_neg (by simp [stops]), List.append_nil]
  have dropped : (e ++ ':' :: rest).dropWhile isDecimal = ':' :: rest := by
    rw [List.dropWhile_append_of_pos decimal,
      List.dropWhile_cons_of_neg (by simp [stops])]
  obtain ⟨digit, digits, rfl⟩ := List.exists_cons_of_ne_nil nonempty
  rw [matchEpochs, taken, dropped]
  exact matchEpochs_of_not_mem noColon fuel _

theorem matchRevision_dropWhile (text : Text) :
    matchRevision (text.dropWhile (· ≠ '\n')) = none := by
  rw [matchRevision.eq_def]
  split
  · rename_i rest dropped
    have head :=
      List.head?_dropWhile_not (fun char => decide (char ≠ '\n')) text
    rw [dropped] at head
    simp at head
  · rfl

theorem preferredParts_text :
    preferredParts preference.text =
      (preference.epoch, preference.versionText.takeWhile (· ≠ '\n'),
        none) := by
  rw [preferredParts, text]
  cases found : preference.epoch with
  | none =>
      simp only [matchEpochs_of_not_mem preference.colon_not_mem_versionText,
        matchRevision_dropWhile]
  | some e =>
      obtain ⟨nonempty, decimal⟩ := preference.isEpoch e found
      have length : (e ++ ':' :: preference.versionText).length =
          e.length + preference.versionText.length + 1 := by
        simp only [List.length_append, List.length_cons]
        omega
      simp only [length, matchEpochs_epoch nonempty decimal
        preference.colon_not_mem_versionText, matchRevision_dropWhile]

end Preference

section First

variable {File : Type} {cache : DataCache File} {files : List File}
  {wanted : File → Bool}

theorem isSome_findSome_iff :
    ((sortPriorities cache files).findSome? (·.find? wanted)).isSome ↔
      ∃ f ∈ files, wanted f := by
  rw [List.findSome?_isSome_iff]
  constructor
  · rintro ⟨set, member, found⟩
    obtain ⟨f, isFound⟩ := Option.isSome_iff_exists.mp found
    obtain ⟨pri, _, inSet⟩ := mem_sortPriorities member
    exact ⟨f, ((inSet f).mp (List.mem_of_find?_eq_some isFound)).1,
      List.find?_some isFound⟩
  · rintro ⟨f, member, holds⟩
    obtain ⟨set, isSet, inSet⟩ :=
      @exists_mem_sortPriorities _ cache files f member
    exact ⟨set, isSet, List.find?_isSome.mpr ⟨f, inSet, holds⟩⟩

theorem findSome_eq_some {f : File}
    (found : (sortPriorities cache files).findSome? (·.find? wanted) = some f) :
    f ∈ files ∧ wanted f ∧
      ∀ g ∈ files, wanted g → cache.bbfilePriority g ≤ cache.bbfilePriority
        f := by
  obtain ⟨before, set, after, split, isFound, unfound⟩ :=
    List.findSome?_eq_some_iff.mp found
  have member : set ∈ sortPriorities cache files := by simp [split]
  have inSet := List.mem_of_find?_eq_some isFound
  obtain ⟨pri, _, isPri⟩ := mem_sortPriorities member
  refine ⟨((isPri f).mp inSet).1, List.find?_some isFound, ?_⟩
  intro g memberG holds
  obtain ⟨other, isOther, inOther⟩ :=
    @exists_mem_sortPriorities _ cache files g memberG
  have ordered := @pairwise_sortPriorities _ cache files
  rw [split] at isOther ordered
  rcases List.mem_append.mp isOther with earlier | later
  · exact absurd holds (List.find?_eq_none.mp (unfound other earlier) g inOther)
  · rcases List.mem_cons.mp later with rfl | behind
    · rw [((isPri f).mp inSet).2, ((isPri g).mp inOther).2]
    · have sorted := (List.pairwise_append.mp ordered).2.1
      exact (List.rel_of_pairwise_cons sorted behind f inSet g inOther).le

end First

namespace Preference

variable (preference : Preference)

theorem findPreferredProvider_of_ne {File : Type} {getVar : Text → Option Text}
    {cache : DataCache File} {pn preferredV : Text} {pkgPn : List (List File)}
    (chosen : chosenVersion getVar pn = some preferredV)
    (nonempty : preferredV ≠ []) :
    (findPreferredProvider getVar cache pn pkgPn).preferredFile =
      pkgPn.findSome? fun fileSet => fileSet.find? fun f =>
        preferredVersionMatch (cache.pkgPepvpr f)
          (preferredParts preferredV) := by
  rw [findPreferredProvider, chosen]
  cases preferredV with
  | nil => exact absurd rfl nonempty
  | cons char rest => rfl

theorem findPreferredProvider_of_nil {File : Type} {getVar : Text → Option Text}
    {cache : DataCache File} {pn : Text} {pkgPn : List (List File)}
    (chosen : chosenVersion getVar pn = some []) :
    (findPreferredProvider getVar cache pn pkgPn).preferredFile = none := by
  rw [findPreferredProvider, chosen]

theorem chosenVersion_const (value pn : Text) :
    chosenVersion (fun _ => some value) pn = some value := by
  simp [chosenVersion, versionVariableMatch]

theorem wants_of_text_nil (empty : preference.text = []) :
    preference.Wants ([], [], []) := by
  rw [text] at empty
  cases isEpoch : preference.epoch with
  | some e => simp [isEpoch] at empty
  | none =>
      simp only [isEpoch, versionText] at empty
      cases isRevision : preference.revision with
      | some r => simp [isRevision] at empty
      | none =>
          simp only [isRevision] at empty
          refine ⟨by simp [isEpoch], ?_, by simp [isRevision]⟩
          simp [VersionTest, empty]

theorem selectionLaw_iff_match :
    preference.SelectionLaw ↔ preference.text ≠ [] ∧ ∀ pepvpr,
      preferredVersionMatch pepvpr (preferredParts preference.text) = true ↔
        preference.Wants pepvpr := by
  constructor
  · intro law
    -- one recipe is enough to tell
    have single := fun pepvpr : Text × Text × Text =>
      (law Unit ⟨fun _ => [], fun _ => pepvpr, fun _ => 0, fun _ => 0, []⟩ [()]
        (fun _ => some preference.text) [] (chosenVersion_const _ _)).1
    have nonempty : preference.text ≠ [] := by
      intro empty
      have selected := (single ([], [], [])).mpr
        ⟨(), List.mem_cons_self, preference.wants_of_text_nil empty⟩
      rw [findPreferredProvider_of_nil (empty ▸ chosenVersion_const _ _)]
        at selected
      cases selected
    refine ⟨nonempty, fun pepvpr => ?_⟩
    have decided := single pepvpr
    rw [findPreferredProvider_of_ne (chosenVersion_const _ _) nonempty,
      isSome_findSome_iff] at decided
    simpa using decided
  · rintro ⟨nonempty, matches_iff⟩ File cache files getVar pn chosen
    simp only [findPreferredProvider_of_ne chosen nonempty]
    constructor
    · rw [isSome_findSome_iff]
      simp only [matches_iff]
    · intro f found
      obtain ⟨member, holds, highest⟩ := findSome_eq_some found
      refine ⟨member, (matches_iff _).mp holds, ?_⟩
      intro g memberG wanted
      exact highest g memberG ((matches_iff _).mpr wanted)

theorem match_iff (pepvpr : Text × Text × Text) :
    preferredVersionMatch pepvpr (preferredParts preference.text) = true ↔
      (∀ e ∈ preference.epoch, pepvpr.1 = e) ∧
        (preference.versionText.takeWhile (· ≠ '\n') = pepvpr.2.1 ∨
          ['%'] <:+ preference.versionText.takeWhile (· ≠ '\n') ∧
            (preference.versionText.takeWhile (· ≠ '\n')).dropLast <+:
              pepvpr.2.1) := by
  obtain ⟨pe, pv, pr⟩ := pepvpr
  rw [preferredParts_text, preferredVersionMatch]
  cases preference.epoch with
  | none => simp
  | some e => simp

theorem takeWhile_self {text : Text} (noNewline : '\n' ∉ text) :
    text.takeWhile (· ≠ '\n') = text := by
  rw [List.takeWhile_eq_self_iff]
  intro char member
  have different : char ≠ '\n' := fun same => noNewline (same ▸ member)
  simpa using different

theorem versionTest_iff (version pv : Text) :
    VersionTest version pv ↔
      version = pv ∨ ['%'] <:+ version ∧ version.dropLast <+: pv := by
  rw [VersionTest]
  split_ifs with percent
  · constructor
    · exact fun begins => .inr ⟨percent, begins⟩
    · rintro (rfl | ⟨_, begins⟩)
      · exact List.dropLast_prefix version
      · exact begins
  · constructor
    · exact fun same => .inl same.symm
    · rintro (same | ⟨percent', _⟩)
      · exact same.symm
      · exact absurd percent' percent

theorem exists_versionTest (version : Text) : ∃ pv, VersionTest version pv ∧
    pv <+: version := by
  by_cases percent : ['%'] <:+ version
  · exact ⟨version.dropLast, by simp [VersionTest, percent],
      List.dropLast_prefix version⟩
  · exact ⟨version, by simp [VersionTest, percent], List.prefix_refl version⟩

theorem mem_dropLast_of_percent {char : Char} {text : Text}
    (percent : ['%'] <:+ text)
    (member : char ∈ text) (different : char ≠ '%') : char ∈ text.dropLast := by
  obtain ⟨front, rfl⟩ := percent
  rw [List.dropLast_concat]
  rcases List.mem_append.mp member with inFront | isLast
  · exact inFront
  · exact absurd (List.mem_singleton.mp isLast) different

theorem noNewline_of_match
    (matches_iff : ∀ pepvpr,
      preferredVersionMatch pepvpr (preferredParts preference.text) =
      true ↔ preference.Wants pepvpr) : '\n' ∉ preference.version := by
  intro newline
  have absent : '\n' ∉ preference.versionText.takeWhile (· ≠ '\n') := by
    intro member
    simpa using List.mem_takeWhile_imp member
  have wanted := (matches_iff (preference.epoch.getD [],
    preference.versionText.takeWhile (· ≠ '\n'),
    preference.revision.getD [])).mp (by
      rw [match_iff]
      refine ⟨?_, .inl rfl⟩
      intro e isEpoch
      rw [isEpoch]
      rfl)
  rcases (versionTest_iff _ _).mp wanted.2.1 with same | ⟨percent, begins⟩
  · rw [same] at newline
    exact absent newline
  · have inside := mem_dropLast_of_percent percent newline (by decide)
    exact absent (begins.subset inside)

theorem noRevision_of_match
    (matches_iff : ∀ pepvpr,
      preferredVersionMatch pepvpr (preferredParts preference.text) =
      true ↔ preference.Wants pepvpr) (noNewline : '\n' ∉ preference.version) :
    preference.revision = none := by
  by_contra given
  obtain ⟨r, isRevision⟩ := Option.ne_none_iff_exists'.mp given
  obtain ⟨pv, passes, begins⟩ := exists_versionTest preference.version
  have line : preference.versionText.takeWhile (· ≠ '\n') =
      preference.version ++ '_' :: r.takeWhile (· ≠ '\n') := by
    have plain : ∀ char ∈ preference.version, decide (char ≠ '\n') = true := by
      intro char member
      have different : char ≠ '\n' := fun same => noNewline (same ▸ member)
      simpa using different
    rw [versionText, isRevision]
    show (preference.version ++ '_' :: r).takeWhile _ = _
    rw [List.takeWhile_append_of_pos plain,
      List.takeWhile_cons_of_pos (by decide)]
  have absent : '_' ∉ pv :=
    fun member => preference.isVersion.1 (begins.subset member)
  have underscore : '_' ∈ preference.versionText.takeWhile (· ≠ '\n') := by
    rw [line]
    simp
  have wanted := (matches_iff (preference.epoch.getD [], pv, r)).mpr (by
    refine ⟨?_, passes, ?_⟩
    · intro e isEpoch
      rw [isEpoch]
      rfl
    · intro other isOther
      rw [isRevision] at isOther
      exact Option.some.inj isOther)
  rw [match_iff] at wanted
  rcases wanted.2 with same | ⟨percent, starts⟩
  · rw [same] at underscore
    exact absent underscore
  · exact absent
      (starts.subset (mem_dropLast_of_percent percent underscore (by decide)))

/-- The law holds for the preferences of one line without a revision, and for no
others. -/
theorem selectionLaw_iff :
    preference.SelectionLaw ↔
      preference.revision = none ∧ '\n' ∉ preference.version ∧
        preference.text ≠ [] := by
  rw [selectionLaw_iff_match]
  constructor
  · rintro ⟨nonempty, matches_iff⟩
    have noNewline := preference.noNewline_of_match matches_iff
    exact ⟨preference.noRevision_of_match matches_iff noNewline, noNewline,
      nonempty⟩
  · rintro ⟨noRevision, noNewline, nonempty⟩
    refine ⟨nonempty, fun pepvpr => ?_⟩
    have isVersion : preference.versionText = preference.version := by
      rw [versionText, noRevision]
    rw [match_iff, Wants, isVersion, takeWhile_self noNewline, versionTest_iff,
      noRevision]
    simp

end Preference

/-- A recipe with the version and the revision that are asked for is not
selected. -/
theorem revision_not_selected :
    (findPreferredProvider
        (fun name =>
          if name = "PREFERRED_VERSION_a".toList then some "1.0_r0".toList
          else none)
        (⟨fun _ => "a".toList, fun _ => ([], "1.0".toList, "r0".toList),
          fun _ => 0, fun _ => 0, []⟩ : DataCache ℕ)
        "a".toList [[0]]).preferredFile = none := by
  decide

end Nvbmc.Providers
