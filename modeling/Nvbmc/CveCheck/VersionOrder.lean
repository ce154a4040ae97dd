import Nvbmc.CveCheck.Version

/-!
# The order of versions

The key orders all versions totally.  It is compared with the order of what a
version says: its release, its patch and the kind and the number of a
pre-release.
-/

namespace Nvbmc.CveCheck

open Library

/-- The first field that differs is less; fields that are missing count as zero.
-/
def ReleaseBefore (release other : List ℕ) : Prop :=
  ∃ field, (∀ earlier < field, release.getD earlier 0 = other.getD earlier 0) ∧
    release.getD field 0 < other.getD field 0

/-- The releases differ in zeros at the end only. -/
def SameRelease (release other : List ℕ) : Prop :=
  ∀ field, release.getD field 0 = other.getD field 0

/-- The release without zeros at its end. -/
def trimmed (release : List ℕ) : List ℕ :=
  release.rdropWhile (· = 0)

section Release

variable {release other : List ℕ}

theorem trimmed_cons (field : ℕ) (release : List ℕ) :
    trimmed (field :: release) =
    if field = 0 ∧ trimmed release = [] then []
    else field :: trimmed release := by
  rw [trimmed, trimmed, List.rdropWhile, List.rdropWhile, List.reverse_cons,
    List.dropWhile_append]
  generalize release.reverse.dropWhile _ = kept
  cases kept with
  | nil => by_cases isZero : field = 0 <;> simp [isZero]
  | cons last kept => simp

theorem trimmed_eq (same : SameRelease release other) :
    trimmed release = trimmed other := by
  induction release generalizing other with
  | nil =>
      induction other with
      | nil => rfl
      | cons second others induction =>
          have first : 0 = second := same 0
          rw [trimmed_cons, ← induction fun field => same (field + 1), ← first]
          rfl
  | cons first release induction =>
      cases other with
      | nil =>
          have isZero : first = 0 := same 0
          have rest : trimmed release = trimmed [] :=
            induction fun field => same (field + 1)
          rw [trimmed_cons, rest, isZero]
          rfl
      | cons second others =>
          have firsts : first = second := same 0
          have rest : trimmed release = trimmed others :=
            induction fun field => same (field + 1)
          rw [trimmed_cons, trimmed_cons, rest, firsts]

theorem trimmed_lt (before : ReleaseBefore release other) :
    trimmed release < trimmed other := by
  obtain ⟨field, equal, less⟩ := before
  induction field generalizing release other with
  | zero =>
      cases other with
      | nil => exact absurd less (Nat.not_lt_zero _)
      | cons second others =>
          have positive : second ≠ 0 := Nat.ne_zero_of_lt less
          rw [trimmed_cons second, if_neg fun zero => positive zero.1]
          cases release with
          | nil => exact List.nil_lt_cons _ _
          | cons first release =>
              rw [trimmed_cons]
              split_ifs
              · exact List.nil_lt_cons _ _
              · exact List.cons_lt_cons_iff.mpr (.inl less)
  | succ field induction =>
      cases other with
      | nil => exact absurd less (Nat.not_lt_zero _)
      | cons second others =>
          have rest : trimmed release.tail < trimmed others := by
            cases release <;> exact induction
              (fun earlier below =>
                equal (earlier + 1) (Nat.succ_lt_succ below)) less
          have nonempty : trimmed others ≠ [] :=
            fun isNil => List.not_lt_nil _ (isNil ▸ rest)
          rw [trimmed_cons second, if_neg fun zero => nonempty zero.2]
          cases release with
          | nil => exact List.nil_lt_cons _ _
          | cons first release =>
              rw [trimmed_cons]
              split_ifs
              · exact List.nil_lt_cons _ _
              · exact List.cons_lt_cons_iff.mpr
                  (.inr ⟨equal 0 (Nat.succ_pos field), rest⟩)

theorem releases_cases (release other : List ℕ) :
    SameRelease release other ∨ ReleaseBefore release other ∨
      ReleaseBefore other release := by
  by_cases same : SameRelease release other
  · exact .inl same
  · simp only [SameRelease, not_forall] at same
    have least : ∀ earlier < Nat.find same, release.getD earlier 0 =
        other.getD earlier 0 :=
      fun earlier below => not_not.mp (Nat.find_min same below)
    rcases Nat.lt_or_gt_of_ne (Nat.find_spec same) with less | more
    · exact .inr (.inl ⟨Nat.find same, least, less⟩)
    · exact .inr
        (.inr ⟨Nat.find same, fun earlier below => (least earlier below).symm,
          more⟩)

end Release

/-- The alternatives of `pre_l` when none hides another one. -/
def kindsOf : List PreKind :=
  [.preview, .rc, .alpha, .beta, .pre, .dev]

/-- The release, the patch and the pre-release that a version names. -/
structure Reading (suffix : Suffix) where
  release : List ℕ
  patch : Option (Patch suffix)
  pre : Option Pre

/-- A pre-release that follows the release is no patch. -/
def reading (suffix : Suffix) (version : Text) : Option (Reading suffix) :=
  (matchRelease version).map fun (release, after) =>
    match preGroup kindsOf after with
    | some (pre, _) => ⟨Version.fields release, none, some pre⟩
    | none =>
        let patch := patchGroup suffix after
        ⟨Version.fields release, patch.1,
          (preGroup kindsOf patch.2).map Prod.fst⟩

def Patch.rank {suffix : Suffix} : Patch suffix → ℕ
  | letter char => (upper char).toNat
  | number value => intOf value.digits

def Pre.value (pre : Pre) : WithBot ℕ :=
  match pre.number with
  | some number => (intOf number.digits : ℕ)
  | none => ⊥

/-- Kinds whose order is known. -/
def PreKind.Before : PreKind → PreKind → Prop
  | alpha, beta | alpha, rc | beta, rc => True
  | _, _ => False

instance (kind other : PreKind) : Decidable (kind.Before other) := by
  cases kind <;> cases other <;> unfold PreKind.Before <;> infer_instance

/-- Every pre-release is before the final release; pre-releases are ordered by
kind, and then by number. -/
def PreBefore : Option Pre → Option Pre → Prop
  | some pre, some other =>
      pre.kind.Before other.kind ∨ pre.kind = other.kind ∧
        pre.value < other.value
  | some _, none => True
  | none, _ => False

def SamePre : Option Pre → Option Pre → Prop
  | some pre, some other => pre.kind = other.kind ∧ pre.value = other.value
  | none, none => True
  | _, _ => False

namespace Reading

variable {suffix : Suffix}

def rank (reading : Reading suffix) : WithBot ℕ :=
  match reading.patch with
  | some patch => (patch.rank : ℕ)
  | none => ⊥

def Before (reading other : Reading suffix) : Prop :=
  ReleaseBefore reading.release other.release ∨
    SameRelease reading.release other.release ∧
    (reading.rank < other.rank ∨ reading.rank = other.rank ∧
      PreBefore reading.pre other.pre)

def Same (reading other : Reading suffix) : Prop :=
  SameRelease reading.release other.release ∧ reading.rank = other.rank ∧
    SamePre reading.pre other.pre

end Reading

/-- The first letter of a kind, in upper case. -/
def PreKind.initial : PreKind → Char
  | rc => 'R'
  | alpha => 'A'
  | beta => 'B'
  | pre | preview => 'P'
  | dev => 'D'

/-- The number of a pre-release as it is compared; that of a preview is not
read. -/
def Pre.weight (pre : Pre) : Weight :=
  match pre.number with
  | some number =>
      if pre.kind = .preview then ⊥ else (float (intOf number.digits) : Weight)
  | none => ⊥

def weightOf : Option Pre → Weight
  | some pre => pre.weight
  | none => ⊤

namespace Reading

variable {suffix : Suffix}

/-- The pre-release whose first letter is taken for a patch. -/
def hidden (reading : Reading suffix) : Option Pre :=
  if suffix = .alphabetical ∧ reading.patch.isNone then reading.pre else none

def text (reading : Reading suffix) : Text :=
  ((reading.patch.map Patch.text).getD []).map upper

/-- The key that a version gets. -/
def seen (reading : Reading suffix) : Key :=
  match reading.hidden with
  | some pre => toLex (trimmed reading.release, toLex ([pre.kind.initial], ⊤))
  | none =>
      toLex (trimmed reading.release,
        toLex (reading.text, weightOf reading.pre))

end Reading

section Pattern

variable {suffix : Suffix} {word text rest : Text} {kind : PreKind}

theorem behind_eq_some : behind word text = some rest ↔
    ∃ front, text = front ++ rest ∧ front.map folded = word := by
  constructor
  · intro found
    fun_induction behind word text with
    | case1 text => exact ⟨[], Option.some.inj found, rfl⟩
    | case2 word char text induction =>
        obtain ⟨front, isText, isWord⟩ := induction found
        exact ⟨char ::
          front, by rw [isText]; rfl, by rw [List.map_cons, isWord]⟩
    | case3 | case4 => cases found
  · rintro ⟨front, rfl, rfl⟩
    induction front with
    | nil => rfl
    | cons char front induction => simpa [behind] using induction

theorem folded_cases (char : Char) :
    char.toNat < 128 ∨ folded char ∈ ['i', 'k', 's'] ∨ folded char = char := by
  unfold folded
  split_ifs with first second third
  · exact .inr (.inl (by decide))
  · exact .inr (.inl (by decide))
  · exact .inr (.inl (by decide))
  · by_cases upperCase : char.val ≥ 'A'.val ∧ char.val ≤ 'Z'.val
    · have below : char.toNat ≤ 90 := upperCase.2
      exact .inl (by omega)
    · exact .inr (.inr (dif_neg upperCase))

theorem upper_of_folded {char : Char}
    (fits : some (folded char) = kind.text.head?) :
    upper char = kind.initial := by
  have ascii : ∀ code < 128, ∀ kind ∈ kindsOf,
      some (folded (Char.ofNat code)) = kind.text.head? →
        upper (Char.ofNat code) = kind.initial := by
    decide
  have isKind : kind ∈ kindsOf := by cases kind <;> decide
  rcases folded_cases char with below | letter | same
  · have known := ascii char.toNat below kind isKind
    rw [Char.ofNat_toNat] at known
    exact known fits
  · have other : ∀ kind ∈ kindsOf, kind.text.head? ∉ ['i', 'k', 's'].map
        some := by
      decide
    exact absurd (fits ▸ List.mem_map_of_mem letter) (other kind isKind)
  · rw [same] at fits
    have small : ∀ kind ∈ kindsOf, kind.text.head?.all (·.toNat < 128) := by
      decide
    have below := small kind isKind
    rw [← fits, Option.all_some, decide_eq_true_eq] at below
    have known := ascii char.toNat below kind isKind
    rw [Char.ofNat_toNat, ← fits, same] at known
    exact known rfl

theorem isDigit_mem {char : Char} (digit : char.isDigit = true) :
    char ∈ ['0', '1', '2', '3', '4', '5', '6', '7', '8', '9'] := by
  have low : 48 ≤ char.toNat := by
    simp only [Char.isDigit, Bool.and_eq_true, decide_eq_true_eq] at digit
    exact digit.1
  have high : char.toNat ≤ 57 := by
    simp only [Char.isDigit, Bool.and_eq_true, decide_eq_true_eq] at digit
    exact digit.2
  have digits : ∀ code < 58, 48 ≤ code →
      Char.ofNat code ∈ ['0', '1', '2', '3', '4', '5', '6', '7', '8', '9'] := by
    decide
  rw [← Char.ofNat_toNat char]
  exact digits char.toNat (by omega) low

theorem not_isDigit_of_folded {char : Char}
    (letter : (folded char).isLower = true) :
    char.isDigit = false ∧ isMark char = false := by
  constructor
  · by_contra digit
    have member := isDigit_mem (Bool.eq_true_of_not_eq_false digit)
    have none : ['0', '1', '2', '3', '4', '5', '6', '7', '8', '9'].all
        fun digit => !(folded digit).isLower := by
      decide
    simpa [letter] using List.all_eq_true.mp none char member
  · by_contra mark
    have member : char ∈ ['-', '_', '.'] := by
      simpa [isMark] using Bool.eq_true_of_not_eq_false mark
    have none : ['-', '_', '.'].all fun mark => !(folded mark).isLower := by
      decide
    simpa [letter] using List.all_eq_true.mp none char member

theorem patchGroup_of_behind
    (found : behind kind.text (skipMark text) = some rest) :
    patchGroup .patch text = (none, text) ∧
      ∃ char tail, patchGroup .alphabetical text = (some (.letter char), tail) ∧
        upper char = kind.initial ∧ preGroup kindsOf tail = none := by
  obtain ⟨front, isText, isWord⟩ := behind_eq_some.mp found
  obtain _ | ⟨first, _ | ⟨second, front⟩⟩ := front
  · cases kind <;> simp [PreKind.text] at isWord
  · cases kind <;> simp [PreKind.text] at isWord
  rw [List.map_cons, List.map_cons] at isWord
  have isInitial : upper first = kind.initial :=
    upper_of_folded (by rw [← isWord]; rfl)
  have lower : (folded first).isLower = true ∧
      (folded second).isLower = true := by
    cases kind <;> simp only [PreKind.text, List.cons.injEq] at isWord <;>
      rw [isWord.1, isWord.2.1] <;> decide
  have notDigit := (not_isDigit_of_folded lower.2).1
  have notMark := (not_isDigit_of_folded lower.2).2
  constructor
  · have noNumber : patchNumber (skipMark text) = none := by
      rw [isText]
      cases kind <;> simp only [PreKind.text, List.cons.injEq] at isWord <;>
        simp [patchNumber, behind, isWord.1, isWord.2.1, numeral, notDigit]
    rw [patchGroup, noNumber]
  · refine ⟨first, second :: (front ++ rest), ?_, isInitial, ?_⟩
    · rw [patchGroup, isText]
      simp [lower.1]
    · have unmarked : skipMark (second :: (front ++ rest)) =
          second :: (front ++ rest) := by
        simp [skipMark, notMark]
      rw [preGroup, unmarked]
      cases kind <;> simp only [PreKind.text, List.cons.injEq] at isWord
      case pre | preview =>
        obtain _ | ⟨third, front⟩ := front
        · cases isWord.2.2
        · rw [List.map_cons, List.cons.injEq] at isWord
          simp [kindsOf, PreKind.text, behind, isWord.2.1, isWord.2.2.1]
      all_goals simp [kindsOf, PreKind.text, behind, isWord.2.1]

theorem patchGroup_none (noPatch : (patchGroup suffix text).1 = none) :
    (patchGroup suffix text).2 = text := by
  cases suffix with
  | alphabetical =>
      rw [patchGroup] at noPatch ⊢
      split at noPatch
      · split_ifs at noPatch ⊢
        rfl
      · rfl
  | patch =>
      rw [patchGroup] at noPatch ⊢
      split at noPatch
      · cases noPatch
      · rfl
  | other => rfl

theorem preGroup_of_noPreview
    (none : behind PreKind.preview.text (skipMark text) = Option.none) :
    preGroup alternatives text = preGroup kindsOf text := by
  simp only [preGroup, alternatives, kindsOf, List.findSome?_cons, none,
    Option.map_none]

theorem kind_ne_preview {pre : Pre}
    (none : behind PreKind.preview.text (skipMark text) = Option.none)
    (found : preGroup kindsOf text = some (pre, rest)) :
    pre.kind ≠ .preview := by
  intro isPreview
  obtain ⟨kind, -, fits⟩ := List.exists_of_findSome?_eq_some found
  obtain ⟨after, isAfter, same⟩ := Option.map_eq_some_iff.mp fits
  have isKind : kind = pre.kind := congrArg (fun result => result.1.kind) same
  rw [isKind, isPreview, none] at isAfter
  cases isAfter

/-- The number of a preview is not read, as `pre` is the alternative before it.
-/
theorem preGroup_of_preview
    (found : behind PreKind.preview.text (skipMark text) = some rest) :
    ∃ tail, preGroup alternatives text = some (⟨.pre, none⟩, tail) := by
  obtain ⟨front, isText, isWord⟩ := behind_eq_some.mp found
  obtain ⟨p, _, rfl, isP, isWord⟩ := List.map_eq_cons_iff.mp isWord
  obtain ⟨r, _, rfl, isR, isWord⟩ := List.map_eq_cons_iff.mp isWord
  obtain ⟨e, _, rfl, isE, isWord⟩ := List.map_eq_cons_iff.mp isWord
  obtain ⟨v, front, rfl, isV, -⟩ := List.map_eq_cons_iff.mp isWord
  have unread : v.isDigit = false ∧ isMark v = false :=
    not_isDigit_of_folded (by rw [isV]; decide)
  refine ⟨v :: (front ++ rest), ?_⟩
  rw [preGroup, isText]
  simp [alternatives, PreKind.text, behind, isP, isR, isE, skipMark, unread,
    numeral]

theorem cmpkey_preGroup (release : List ℕ) (patchL text : Text) :
    cmpkey release patchL ((preGroup alternatives text).map (·.1.kind))
        ((preGroup alternatives text).bind (·.1.number)) =
      toLex (trimmed release, toLex (patchL.map upper,
        weightOf ((preGroup kindsOf text).map Prod.fst))) := by
  cases isPreview : behind PreKind.preview.text (skipMark text) with
  | some rest =>
      obtain ⟨tail, isPre⟩ := preGroup_of_preview isPreview
      have named : ∃ pre rest, preGroup kindsOf text = some (pre, rest) ∧
          pre.kind = .preview := by
        simp [preGroup, kindsOf, isPreview]
      obtain ⟨pre, rest, isNamed, kind⟩ := named
      rw [isPre, isNamed]
      cases number : pre.number with
      | none => simp [cmpkey, weightOf, Pre.weight, number, trimmed]
      | some value => simp [cmpkey, weightOf, Pre.weight, number, kind, trimmed]
  | none =>
      rw [preGroup_of_noPreview isPreview]
      cases isNamed : preGroup kindsOf text with
      | none => simp [cmpkey, weightOf, trimmed]
      | some found =>
          have other := kind_ne_preview isPreview isNamed
          cases number : found.1.number with
          | none => simp [cmpkey, weightOf, Pre.weight, number, trimmed]
          | some value =>
              simp [cmpkey, weightOf, Pre.weight, number, other, trimmed]

theorem key_of_init {version : Version}
    (accepted : Version.init suffix text = .ok version) :
    ∃ named, reading suffix text = some named ∧ version.key = named.seen := by
  rw [Version.init] at accepted
  cases matched : matchRelease text with
  | none => rw [matched] at accepted; cases accepted
  | some found =>
      obtain ⟨release, after⟩ := found
      rw [matched] at accepted
      dsimp only at accepted
      split_ifs at accepted
      cases accepted
      rw [reading, matched, Option.map_some]
      refine ⟨_, rfl, ?_⟩
      rw [Version.key, cmpkey_preGroup]
      dsimp only
      cases direct : preGroup kindsOf after with
      | none =>
          have shown :
              (Reading.mk (Version.fields release) (patchGroup suffix after).1
              ((preGroup kindsOf (patchGroup suffix after).2).map
                Prod.fst)).hidden = none := by
            rw [Reading.hidden]
            split_ifs with masked
            · have noPatch := Option.isNone_iff_eq_none.mp masked.2
              rw [patchGroup_none noPatch, direct]
              rfl
            · rfl
          rw [Reading.seen, shown]
          rfl
      | some found =>
          obtain ⟨kind, -, fits⟩ := List.exists_of_findSome?_eq_some direct
          obtain ⟨rest, isRest, rfl⟩ := Option.map_eq_some_iff.mp fits
          obtain ⟨noNumber, char, tail, isLetter, isInitial, noPre⟩ :=
            patchGroup_of_behind isRest
          cases suffix with
          | alphabetical =>
              rw [isLetter, noPre, Option.map_some, Option.getD_some,
                Patch.text, List.map_singleton, isInitial]
              rfl
          | patch =>
              rw [noNumber, direct]
              rfl
          | other =>
              rw [patchGroup, direct]
              rfl

end Pattern

section Weights

variable {pre other : Pre} {after : Option Pre}

theorem float_mono {value next : ℕ} (ordered : value ≤ next) :
    float value ≤ float next := by
  have rounded : roundBits 53 value ≤ roundBits 53 next :=
    roundBits_mono (by decide) ordered
  rw [float, float]
  by_cases finite : roundBits 53 next < 2 ^ 1024
  · rw [if_pos finite, if_pos (rounded.trans_lt finite)]
    exact WithTop.coe_le_coe.mpr rounded
  · rw [if_neg finite]
    exact le_top

/-- The weights of two pre-releases of a kind have the order of their numbers,
if they differ. -/
theorem weight_mono (kind : pre.kind = other.kind)
    (ordered : pre.value ≤ other.value) : pre.weight ≤ other.weight := by
  rw [Pre.value, Pre.value] at ordered
  rw [Pre.weight, Pre.weight, kind]
  cases number : pre.number with
  | none => exact bot_le
  | some value =>
      cases after : other.number with
      | none =>
          rw [number, after] at ordered
          exact absurd ordered (WithBot.not_coe_le_bot _)
      | some next =>
          rw [number, after] at ordered
          dsimp only
          split_ifs
          · exact le_rfl
          · exact WithBot.coe_le_coe.mpr
              (float_mono (WithBot.coe_le_coe.mp ordered))

theorem weight_congr (kind : pre.kind = other.kind)
    (same : pre.value = other.value) : pre.weight = other.weight := by
  exact le_antisymm (weight_mono kind same.le) (weight_mono kind.symm same.ge)

end Weights

/-- The weights of two pre-releases differ with their numbers, and are in the
order of their kinds; no pre-release has the weight of a final release. -/
def PreFaithful : Option Pre → Option Pre → Prop
  | some pre, some other =>
      (pre.kind = other.kind → pre.value = other.value ∨
        pre.weight ≠ other.weight) ∧
        (pre.kind.Before other.kind → pre.weight < other.weight) ∧
        (other.kind.Before pre.kind → other.weight < pre.weight)
  | some pre, none | none, some pre => pre.weight ≠ ⊤
  | none, none => True

namespace Reading

variable {suffix : Suffix}

/-- Where the releases are the same, a pre-release that is taken for a patch is
compared with a later letter, or with one of the same number if the kind is the
same; the texts of the patches are in the order of their numbers; and the
pre-releases of one patch are weighed faithfully. Texts of one number that
differ have the order of the pre-releases. -/
def Faithful (reading other : Reading suffix) : Prop :=
  SameRelease reading.release other.release →
    match reading.hidden, other.hidden with
    | some pre, some after => pre.kind = after.kind → pre.value = after.value
    | some pre, none => ∃ char ∈ other.text, pre.kind.initial < char
    | none, some pre => ∃ char ∈ reading.text, pre.kind.initial < char
    | none, none =>
        (reading.rank < other.rank → reading.text < other.text) ∧
        (other.rank < reading.rank → other.text < reading.text) ∧
        (reading.rank = other.rank →
          if reading.text = other.text then PreFaithful reading.pre other.pre
          else (PreBefore reading.pre other.pre → reading.text < other.text) ∧
            (PreBefore other.pre reading.pre → other.text < reading.text) ∧
            ¬ SamePre reading.pre other.pre)

end Reading

section Agreement

variable {suffix : Suffix}

theorem preFaithful_iff (pre after : Option Pre) : PreFaithful pre after ↔
    (PreBefore pre after → weightOf pre < weightOf after) ∧
      (PreBefore after pre → weightOf after < weightOf pre) ∧
      (SamePre pre after → weightOf pre = weightOf after) := by
  cases pre with
  | none =>
      cases after with
      | none => simp [PreFaithful, PreBefore]
      | some after =>
          simp [PreFaithful, PreBefore, SamePre, weightOf, lt_top_iff_ne_top]
  | some pre =>
      cases after with
      | none =>
          simp [PreFaithful, PreBefore, SamePre, weightOf, lt_top_iff_ne_top]
      | some after =>
          constructor
          · rintro ⟨numbers, before, behind⟩
            refine ⟨?_, ?_, fun same => weight_congr same.1 same.2⟩
            · rintro (kind | ⟨kind, less⟩)
              · exact before kind
              · exact lt_of_le_of_ne (weight_mono kind less.le)
                  ((numbers kind).resolve_left less.ne)
            · rintro (kind | ⟨kind, less⟩)
              · exact behind kind
              · exact lt_of_le_of_ne (weight_mono kind less.le)
                  ((numbers kind.symm).resolve_left less.ne').symm
          · rintro ⟨before, behind, -⟩
            refine ⟨?_, fun kind => before (.inl kind), fun kind =>
              behind (.inl kind)⟩
            intro kind
            rcases lt_trichotomy pre.value after.value with less | same | more
            · exact .inr (before (.inr ⟨kind, less⟩)).ne
            · exact .inl same
            · exact .inr (behind (.inr ⟨kind.symm, more⟩)).ne'

end Agreement

namespace Reading

variable {suffix : Suffix}

/-- Two keys are in the order that is named. -/
structure Ordered (reading other : Reading suffix) (key after : Key) :
    Prop where
  before : reading.Before other → key < after
  behind : other.Before reading → after < key
  same : reading.Same other → key = after

theorem key_lt_iff {release after : List ℕ} (same : SameRelease release after)
    (text other : Text) (weight next : Weight) :
    toLex (trimmed release, toLex (text, weight)) <
      toLex (trimmed after, toLex (other, next)) ↔
      text < other ∨ text = other ∧ weight < next := by
  rw [trimmed_eq same, Prod.Lex.toLex_lt_toLex, Prod.Lex.toLex_lt_toLex]
  simp

theorem key_eq_iff {release after : List ℕ} (same : SameRelease release after)
    (text other : Text) (weight next : Weight) :
    toLex (trimmed release, toLex (text, weight)) =
      toLex (trimmed after, toLex (other, next)) ↔
      text = other ∧ weight = next := by
  rw [trimmed_eq same]
  simp [Prod.ext_iff]

variable {reading other : Reading suffix}

theorem ordered_iff (same : SameRelease reading.release other.release)
    {key after : Key} : reading.Ordered other key after ↔
      (reading.rank < other.rank ∨
          reading.rank = other.rank ∧ PreBefore reading.pre other.pre →
            key < after) ∧
        (other.rank < reading.rank ∨
          other.rank = reading.rank ∧ PreBefore other.pre reading.pre →
            after < key) ∧
        (reading.rank = other.rank ∧ SamePre reading.pre other.pre →
          key = after) := by
  have sameOther : SameRelease other.release reading.release :=
    fun field => (same field).symm
  have notBefore : ∀ {release after : List ℕ}, SameRelease release after →
      ¬ ReleaseBefore release after := by
    rintro release after equal ⟨field, -, less⟩
    exact absurd (equal field) less.ne
  constructor
  · rintro ⟨before, behind, equal⟩
    exact ⟨fun less => before (.inr ⟨same, less⟩), fun less =>
      behind (.inr ⟨sameOther, less⟩), fun named => equal ⟨same, named⟩⟩
  · rintro ⟨before, behind, equal⟩
    exact ⟨fun less => before ((less.resolve_left (notBefore same)).2),
      fun less => behind ((less.resolve_left (notBefore sameOther)).2),
      fun named => equal named.2⟩

variable {pre : Pre}

theorem hidden_eq_some (hides : reading.hidden = some pre) :
    reading.rank = ⊥ ∧ reading.pre = some pre := by
  rw [hidden] at hides
  split_ifs at hides with masked
  rw [rank, Option.isNone_iff_eq_none.mp masked.2]
  exact ⟨rfl, hides⟩

theorem seen_of_hidden (hides : reading.hidden = some pre) :
    reading.seen =
      toLex (trimmed reading.release, toLex ([pre.kind.initial], ⊤)) := by
  rw [seen, hides]

theorem seen_of_shown (shown : reading.hidden = none) :
    reading.seen =
      toLex (trimmed reading.release,
        toLex (reading.text, weightOf reading.pre)) := by
  rw [seen, shown]

theorem singleton_lt_iff {char letter : Char} : ([char] : Text) < [letter] ↔
    char < letter := by
  rw [List.cons_lt_cons_iff]
  simp

theorem text_number (release : List ℕ) (value : Numeral) (pre : Option Pre) :
    (Reading.mk release (some (.number value)) pre).text = value.digits := by
  have same : ∀ char ∈ value.digits, upper char = char := by
    intro char member
    have digits : ['0', '1', '2', '3', '4', '5', '6', '7', '8', '9'].all
        fun digit => upper digit = digit := by
      decide
    exact of_decide_eq_true
      (List.all_eq_true.mp digits char
        (isDigit_mem (value.areDigits char member)))
  exact (List.map_congr_left same).trans (List.map_id _)

theorem rank_congr (same : reading.text = other.text) :
    reading.rank = other.rank := by
  obtain ⟨release, patch, pre⟩ := reading
  obtain ⟨after, last, next⟩ := other
  cases patch with
  | none =>
      cases last with
      | none => rfl
      | some last =>
          cases last with
          | letter char => cases same
          | number value =>
              rw [text_number] at same
              exact absurd same.symm value.nonempty
  | some patch =>
      cases patch with
      | letter char =>
          cases last with
          | none => cases same
          | some last =>
              cases last with
              | letter letter =>
                  have isLetter : upper char = upper letter :=
                    List.singleton_inj.mp same
                  simp [rank, Patch.rank, isLetter]
      | number value =>
          cases last with
          | none =>
              rw [text_number] at same
              exact absurd same value.nonempty
          | some last =>
              cases last with
              | number next =>
                  rw [text_number, text_number] at same
                  simp [rank, Patch.rank, same]

theorem shown_cases (hides : reading.hidden = some pre)
    (shown : other.hidden = none) :
    (other.rank = ⊥ ∧ other.pre = none ∧ other.text = []) ∨
      ∃ letter, ⊥ < other.rank ∧ other.text = [letter] := by
  rw [hidden] at hides shown
  split_ifs at hides with masked
  obtain ⟨after, last, next⟩ := other
  cases last with
  | none =>
      rw [if_pos ⟨masked.1, rfl⟩] at shown
      exact .inl ⟨rfl, shown, rfl⟩
  | some last =>
      cases last with
      | letter char => exact .inr ⟨upper char, WithBot.bot_lt_coe _, rfl⟩
      | number value => exact absurd masked.1 (by decide)

theorem ordered_hidden_iff (same : SameRelease reading.release other.release)
    (hides : reading.hidden = some pre) (shown : other.hidden = none) :
    reading.Ordered other reading.seen other.seen ↔
      ∃ char ∈ other.text, pre.kind.initial < char := by
  obtain ⟨isBottom, isPre⟩ := hidden_eq_some hides
  rw [ordered_iff same, seen_of_hidden hides, seen_of_shown shown,
    key_lt_iff same,
    key_lt_iff (fun field => (same field).symm), key_eq_iff same, isBottom,
    isPre]
  rcases shown_cases hides shown with ⟨isNone, noPre, noText⟩ |
    ⟨letter, above, isText⟩
  · rw [isNone, noPre, noText]
    constructor
    · rintro ⟨before, -, -⟩
      have less := before (.inr ⟨rfl, trivial⟩)
      simp at less
    · rintro ⟨char, member, -⟩
      cases member
  · rw [isText]
    constructor
    · rintro ⟨before, -, -⟩
      refine ⟨letter, List.mem_singleton_self letter, ?_⟩
      exact singleton_lt_iff.mp ((before (.inl above)).resolve_right (by simp))
    · rintro ⟨char, member, less⟩
      rw [List.mem_singleton.mp member] at less
      refine ⟨fun _ => .inl (singleton_lt_iff.mpr less), ?_, ?_⟩
      · rintro (below | ⟨equal, -⟩)
        · exact absurd below not_lt_bot
        · exact absurd equal above.ne'
      · rintro ⟨equal, -⟩
        exact absurd equal above.ne

theorem Ordered.swap {key after : Key}
    (ordered : reading.Ordered other key after) :
    other.Ordered reading after key := by
  refine ⟨ordered.behind, ordered.before, ?_⟩
  rintro ⟨release, rank, pre⟩
  have same : SamePre reading.pre other.pre := by
    cases isPre : reading.pre <;> cases isOther : other.pre <;>
      rw [isPre, isOther]
        at pre <;> first | exact pre | exact ⟨pre.1.symm, pre.2.symm⟩
  exact (ordered.same ⟨fun field => (release field).symm, rank.symm, same⟩).symm

theorem ordered_hidden_both_iff {pre after : Pre}
    (same : SameRelease reading.release other.release)
    (hides : reading.hidden = some pre)
    (hidesOther : other.hidden = some after) :
    reading.Ordered other reading.seen other.seen ↔
      (pre.kind = after.kind → pre.value = after.value) := by
  have initials : ∀ {kind next : PreKind}, kind.Before next →
      kind.initial < next.initial := by
    intro kind next before
    cases kind <;> cases next <;> first | exact before.elim | decide
  obtain ⟨isBottom, isPre⟩ := hidden_eq_some hides
  obtain ⟨otherBottom, otherPre⟩ := hidden_eq_some hidesOther
  rw [ordered_iff same, seen_of_hidden hides, seen_of_hidden hidesOther,
    key_lt_iff same,
    key_lt_iff (fun field => (same field).symm), key_eq_iff same, isBottom,
    otherBottom, isPre,
    otherPre, singleton_lt_iff, singleton_lt_iff]
  constructor
  · rintro ⟨before, behind, -⟩ kind
    rcases lt_trichotomy pre.value after.value with less | equal | more
    · have less := before (.inr ⟨rfl, .inr ⟨kind, less⟩⟩)
      simp [kind] at less
    · exact equal
    · have less := behind (.inr ⟨rfl, .inr ⟨kind.symm, more⟩⟩)
      simp [kind] at less
  · intro numbers
    refine ⟨?_, ?_, fun named => ⟨by rw [named.2.1], rfl⟩⟩
    · rintro (less | ⟨-, kind | ⟨kind, less⟩⟩)
      · exact absurd less (lt_irrefl _)
      · exact .inl (initials kind)
      · exact absurd (numbers kind) less.ne
    · rintro (less | ⟨-, kind | ⟨kind, less⟩⟩)
      · exact absurd less (lt_irrefl _)
      · exact .inl (initials kind)
      · exact absurd (numbers kind.symm) less.ne'

theorem ordered_shown_iff (same : SameRelease reading.release other.release)
    (shown : reading.hidden = none) (shownOther : other.hidden = none) :
    reading.Ordered other reading.seen other.seen ↔
      (reading.rank < other.rank → reading.text < other.text) ∧
      (other.rank < reading.rank → other.text < reading.text) ∧
      (reading.rank = other.rank →
        if reading.text = other.text then PreFaithful reading.pre other.pre
        else (PreBefore reading.pre other.pre → reading.text < other.text) ∧
          (PreBefore other.pre reading.pre → other.text < reading.text) ∧
          ¬ SamePre reading.pre other.pre) := by
  rw [ordered_iff same, seen_of_shown shown, seen_of_shown shownOther,
    key_lt_iff same,
    key_lt_iff (fun field => (same field).symm), key_eq_iff same,
    preFaithful_iff]
  by_cases texts : reading.text = other.text
  · have ranks := rank_congr texts
    simp [texts, ranks]
  · have apart : ¬ other.text = reading.text := fun equal => texts equal.symm
    rcases lt_trichotomy reading.rank other.rank with less | equal | more
    · simp [texts, apart, less, less.ne, less.ne', less.not_gt]
    · simp [texts, apart, equal]
    · simp [texts, apart, more, more.ne, more.ne', more.not_gt]

theorem seen_lt (before : ReleaseBefore reading.release other.release) :
    reading.seen < other.seen := by
  have parts : ∀ named : Reading suffix,
      ∃ rest, named.seen = toLex (trimmed named.release, rest) := by
    intro named
    rw [seen]
    split
    · exact ⟨_, rfl⟩
    · exact ⟨_, rfl⟩
  obtain ⟨rest, isSeen⟩ := parts reading
  obtain ⟨after, isAfter⟩ := parts other
  rw [isSeen, isAfter, Prod.Lex.toLex_lt_toLex]
  exact .inl (trimmed_lt before)

theorem ordered_of_releaseBefore
    (before : ReleaseBefore reading.release other.release) :
    reading.Ordered other reading.seen other.seen := by
  have notSame : ¬ SameRelease reading.release other.release := by
    intro same
    exact absurd (trimmed_eq same) (trimmed_lt before).ne
  have notSameOther : ¬ SameRelease other.release reading.release := by
    intro same
    exact absurd (trimmed_eq same) (trimmed_lt before).ne'
  refine ⟨fun _ => seen_lt before, ?_, fun named => absurd named.1 notSame⟩
  rintro (behind | ⟨same, -⟩)
  · exact absurd (trimmed_lt behind) (trimmed_lt before).not_gt
  · exact absurd same notSameOther

/-- The keys are in the order that is named if and only if the versions are
compared faithfully. -/
theorem ordered_iff_faithful (reading other : Reading suffix) :
    reading.Ordered other reading.seen other.seen ↔ reading.Faithful other := by
  rcases releases_cases reading.release other.release with same | before |
    behind
  · rw [Faithful, imp_iff_right same]
    have sameOther : SameRelease other.release reading.release :=
      fun field => (same field).symm
    cases hides : reading.hidden with
    | none =>
        cases hidesOther : other.hidden with
        | none => exact ordered_shown_iff same hides hidesOther
        | some after =>
            have swapped := ordered_hidden_iff sameOther hidesOther hides
            exact ⟨fun ordered => swapped.mp ordered.swap, fun later =>
              (swapped.mpr later).swap⟩
    | some pre =>
        cases hidesOther : other.hidden with
        | none => exact ordered_hidden_iff same hides hidesOther
        | some after => exact ordered_hidden_both_iff same hides hidesOther
  · have notSame : ¬ SameRelease reading.release other.release := by
      intro same
      exact absurd (trimmed_eq same) (trimmed_lt before).ne
    exact ⟨fun _ same => absurd same notSame, fun _ => ordered_of_releaseBefore
      before⟩
  · have notSame : ¬ SameRelease reading.release other.release := by
      intro same
      exact absurd (trimmed_eq same) (trimmed_lt behind).ne'
    exact ⟨fun _ same => absurd same notSame, fun _ =>
      (ordered_of_releaseBefore behind).swap⟩

end Reading

namespace Version

variable {version other : Version}

theorem eq_iff : version.eq other = true ↔ version.key = other.key := by
  simp [eq]

theorem lt_iff : version.lt other = true ↔ version.key < other.key := by
  simp only [lt, gt, eq, Bool.and_eq_true, Bool.not_eq_true',
    decide_eq_false_iff_not, not_lt]
  exact lt_iff_le_and_ne.symm

theorem gt_iff : version.gt other = true ↔ other.key < version.key := by
  simp [gt]

end Version

/-- The comparisons order the versions totally, up to equality. -/
structure IsTotal : Prop where
  irreflexive (version : Version) : version.lt version = false
  transitive (version other next : Version) :
    version.lt other = true → other.lt next = true → version.lt next = true
  congruent (version other next : Version) : version.eq other = true →
    version.lt next = other.lt next ∧ next.lt version = next.lt other
  /-- One of the three comparisons holds. -/
  one (version other : Version) :
    (version.lt other = true ∨ version.eq other = true ∨
      version.gt other = true) ∧
      ¬ (version.lt other = true ∧ version.eq other = true) ∧
      ¬ (version.lt other = true ∧ version.gt other = true) ∧
      ¬ (version.eq other = true ∧ version.gt other = true)

theorem isTotal : IsTotal where
  irreflexive version := by
    rw [← Bool.not_eq_true, Version.lt_iff]
    exact lt_irrefl _
  transitive version other next := by
    simp only [Version.lt_iff]
    exact lt_trans
  congruent version other next same := by
    have keys := Version.eq_iff.mp same
    constructor
    · rw [Bool.eq_iff_iff, Version.lt_iff, Version.lt_iff, keys]
    · rw [Bool.eq_iff_iff, Version.lt_iff, Version.lt_iff, keys]
  one version other := by
    simp only [Version.lt_iff, Version.eq_iff, Version.gt_iff]
    exact ⟨lt_trichotomy _ _, fun both => both.1.ne both.2, fun both =>
      both.1.asymm both.2, fun both => both.2.ne' both.1⟩

/-- The versions are compared as they are named. -/
structure Follows {suffix : Suffix} (version other : Version)
    (named after : Reading suffix) : Prop where
  before : named.Before after → version.lt other = true
  behind : after.Before named → other.lt version = true
  same : named.Same after → version.eq other = true

/-- All versions are ordered totally; two are compared as they are named if and
only if they are compared faithfully. -/
theorem compares_iff {suffix : Suffix} {first second : Text}
    {version other : Version}
    (accepted : Version.init suffix first = .ok version)
    (acceptedOther : Version.init suffix second = .ok other) :
    IsTotal ∧ ∃ named after, reading suffix first = some named ∧
      reading suffix second = some after ∧
      (Follows version other named after ↔ named.Faithful after) := by
  obtain ⟨named, isNamed, key⟩ := key_of_init accepted
  obtain ⟨after, isAfter, keyOther⟩ := key_of_init acceptedOther
  refine ⟨isTotal, named, after, isNamed, isAfter, ?_⟩
  rw [← named.ordered_iff_faithful after, ← key, ← keyOther]
  constructor
  · rintro ⟨before, behind, same⟩
    exact ⟨fun less => Version.lt_iff.mp (before less), fun more =>
      Version.lt_iff.mp (behind more),
      fun equal => Version.eq_iff.mp (same equal)⟩
  · rintro ⟨before, behind, same⟩
    exact ⟨fun less => Version.lt_iff.mpr (before less),
      fun more => Version.lt_iff.mpr (behind more), fun equal =>
        Version.eq_iff.mpr (same equal)⟩

/-- A release candidate is before its final release. -/
theorem compares_candidate : ∃ version other,
    Version.init .other ['1', '.', '0', '-', 'r', 'c', '1'] = .ok version ∧
      Version.init .other ['1'] = .ok other ∧ version.lt other = true := by
  refine ⟨_, _, rfl, rfl, ?_⟩
  obtain ⟨-, named, after, isNamed, isAfter, iff⟩ :=
    @compares_iff .other ['1', '.', '0', '-', 'r', 'c', '1'] ['1'] _ _ rfl rfl
  cases isNamed
  cases isAfter
  have release : SameRelease [1, 0] [1] := by
    intro field
    cases field with
    | zero => rfl
    | succ field => cases field <;> rfl
  have weighed : Pre.weight ⟨.rc, numeral ['1']⟩ ≠ ⊤ := by decide +kernel
  have follows := iff.mpr fun _ => ⟨fun less => absurd less (by decide),
    fun less => absurd less (by decide), fun _ => weighed⟩
  exact follows.before (.inr ⟨release, .inr ⟨rfl, trivial⟩⟩)

/-- A second alpha version is not before the first release candidate. -/
theorem not_follows_alpha : ∃ version other named after,
    Version.init .other ['1', '.', '0', '-', 'a', 'l', 'p', 'h', 'a', '2'] =
      .ok version ∧
      Version.init .other ['1', '.', '0', '-', 'r', 'c', '1'] = .ok other ∧
      reading .other ['1', '.', '0', '-', 'a', 'l', 'p', 'h', 'a', '2'] =
        some named ∧
      reading .other ['1', '.', '0', '-', 'r', 'c', '1'] = some after ∧
      ¬ Follows version other named after := by
  refine ⟨_, _, _, _, rfl, rfl, rfl, rfl, ?_⟩
  intro follows
  have less := follows.before (.inr ⟨fun _ => rfl, .inr ⟨rfl, .inl trivial⟩⟩)
  exact absurd less (by decide +kernel)

end Nvbmc.CveCheck
