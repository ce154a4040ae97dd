import Mathlib.Data.Char
import Mathlib.Data.List.Sort
import Nvbmc.Library.Alternation
import Nvbmc.Library.Dict
import Nvbmc.Library.Folding

/-!
# Source revisions

`_get_srcrev`.  What the fetchers do is given by its outcomes; they do not touch
the variable that guards against recursion.
-/

namespace Nvbmc.Fetch2

open Nvbmc.Library

/-- What a variable is set to. -/
inductive Value where
  | text (text : Text)
  | true
  deriving DecidableEq

/-- `if value:` -/
def Value.isTrue : Value → Bool
  | .text held => held ≠ []
  | .true => Bool.true

/-- The variables of the data store; `setVar`, `getVar` and `delVar` are those
of a dictionary. -/
abbrev DataStore := Dict Text Value

/-- `__BBSRCREV_SEEN` -/
def srcrevSeen : Text :=
  "__BBSRCREV_SEEN".toList

/-- `"1"` -/
def seen : Value :=
  .text "1".toList

/-- `__BBINSRCREV` -/
def inSrcrev : Text :=
  "__BBINSRCREV".toList

inductive SrcrevError (ε : Type) where
  /-- "There are recursive references in fetcher variables, likely through
  SRC_URI" -/
  | recursive
  /-- "The SRCREV_FORMAT variable must be set when multiple SCMs are used.\nThe
  SCMs are:\n%s" -/
  | noFormat (scms : List Text)
  | raised (error : ε)

structure UrlData (ε : Type) where
  name : Text
  supportsSrcrev : Bool
  revision : Except ε (Bool × Text)

/-- The outcomes of the calls: the words of `SRC_URI`, the fetch data and
`SRCREV_FORMAT`. -/
structure Fetchers (ε : Type) where
  srcUri : Except ε (List Text)
  fetch : List Text → Except ε (Dict Text (UrlData ε))
  srcrevFormat : Except ε (Option Text)

variable {ε : Type}

/-- The revision, or its first ten characters. -/
def abbreviate (rev : Text) : Text :=
  if rev.length > 10 then rev.take 10 else rev

def autoincMark : Text :=
  "AUTOINC+".toList

/-- What the loop over several SCMs fills in. -/
structure Revisions where
  revs : List Text
  seenautoinc : Bool
  nameToRev : Dict Text Text

/-- One round of the loop over several SCMs. -/
def addRevision (state : Revisions) (ud : UrlData ε) : Except ε Revisions :=
  ud.revision.map fun (autoinc, rev) =>
    { revs := state.revs ++ [rev]
      seenautoinc := state.seenautoinc || autoinc
      nameToRev := state.nameToRev.set ud.name (abbreviate rev) }

/-- `sorted(name_to_rev, key=len, reverse=True)`. -/
def namesDescendingLen (nameToRev : Dict Text Text) : List Text :=
  nameToRev.keys.mergeSort fun first second => second.length ≤ first.length

def formatRevisions (format : Text) (state : Revisions) : Text :=
  let format := substitute (namesDescendingLen state.nameToRev)
    (fun name => (state.nameToRev.get? name).getD []) format
  if state.seenautoinc then autoincMark ++ format else format

/-- `_get_srcrev`, with the data store after it. -/
def getSrcrev (fetchers : Fetchers ε) (d : DataStore) :
    Except (SrcrevError ε) (Text × List Text) × DataStore :=
  let d := d.set srcrevSeen seen
  if (d.get? inSrcrev).any Value.isTrue then (.error .recursive, d)
  else
    let d := d.set inSrcrev .true
    match fetchers.srcUri with
    | .error error => (.error (.raised error), d)
    | .ok urls =>
        match fetchers.fetch urls with
        | .error error => (.error (.raised error), d)
        | .ok urldata =>
            match urldata.filter (·.2.supportsSrcrev) with
            | [] => (.ok ([], []), d.del inSrcrev)
            | [(_, ud)] =>
                match ud.revision with
                | .error error => (.error (.raised error), d)
                | .ok (autoinc, rev) =>
                    let d := d.del inSrcrev
                    if autoinc then
                      (.ok (autoincMark ++ abbreviate rev, [rev]), d)
                    else (.ok (abbreviate rev, [rev]), d)
            | scms =>
                match fetchers.srcrevFormat with
                | .error error => (.error (.raised error), d)
                | .ok none => (.error (.noFormat (Dict.keys scms)), d)
                | .ok (some []) => (.error (.noFormat (Dict.keys scms)), d)
                | .ok (some format) =>
                    match (scms.map Prod.snd).foldlM addRevision
                      ⟨[], false, []⟩ with
                    | .error error => (.error (.raised error), d)
                    | .ok state =>
                        (.ok (formatRevisions format state, state.revs),
                          d.del inSrcrev)

/-- The abbreviated revision of an SCM, unless its method raised. -/
def ownRevision (ud : UrlData ε) : Option Text :=
  match ud.revision with
  | .error _ => none
  | .ok found => some (abbreviate found.2)

/-- After the loop each name has the revision of the last SCM with that name. -/
structure Collected (scms : List (UrlData ε)) (state : Revisions) : Prop where
  returned : ∀ ud ∈ scms, ∃ found, ud.revision = .ok found
  names : ∀ name, name ∈ state.nameToRev.keys ↔ ∃ ud ∈ scms, ud.name = name
  own : ∀ name rev, state.nameToRev.get? name = some rev →
    ∃ ud ∈ scms, ud.name = name ∧ ownRevision ud = some rev

theorem foldlM_addRevision_error {scms : List (UrlData ε)} {state : Revisions}
    {error : ε}
    (failed : scms.foldlM addRevision state = .error error) :
    ∃ ud ∈ scms, ∀ found, ud.revision ≠ .ok found := by
  induction scms generalizing state with
  | nil => cases failed
  | cons ud scms induction =>
      rw [List.foldlM_cons, addRevision] at failed
      cases isRevision : ud.revision with
      | error raised => exact ⟨ud, List.mem_cons_self, by simp [isRevision]⟩
      | ok found =>
          rw [isRevision] at failed
          obtain ⟨other, member, raises⟩ := induction failed
          exact ⟨other, List.mem_cons_of_mem _ member, raises⟩

theorem collected_foldlM {scms : List (UrlData ε)} {last : Revisions}
    (ran : scms.foldlM addRevision ⟨[], false, []⟩ = .ok last) :
    Collected scms last := by
  apply foldlM_rule (motive := fun done state => Collected done state) ?_ ?_ ran
  · constructor
    · simp
    · simp [Dict.keys]
    · simp
  · intro done ud state state' _ collected visited
    rw [addRevision] at visited
    cases isRevision : ud.revision with
    | error raised =>
        rw [isRevision] at visited
        cases visited
    | ok found =>
        rw [isRevision] at visited
        cases visited
        constructor
        · intro other member
          rcases List.mem_append.mp member with earlier | isLast
          · exact collected.returned other earlier
          · rw [List.mem_singleton.mp isLast]
            exact ⟨found, isRevision⟩
        · intro name
          change name ∈ (state.nameToRev.set ud.name _).keys ↔ _
          rw [Dict.mem_keys_set, collected.names]
          simp [or_comm, or_and_right, exists_or, eq_comm]
        · intro name rev isRev
          change (state.nameToRev.set ud.name _).get? name = some rev at isRev
          rw [Dict.get?_set] at isRev
          split_ifs at isRev with same
          · cases isRev
            refine ⟨ud, by simp, same.symm, ?_⟩
            rw [ownRevision, isRevision]
          · obtain ⟨other, member, isName, isOwn⟩ :=
              collected.own name rev isRev
            exact ⟨other, List.mem_append_left _ member, isName, isOwn⟩

theorem pairwise_namesDescendingLen (nameToRev : Dict Text Text) :
    (namesDescendingLen nameToRev).Pairwise fun first second => second.length ≤
      first.length := by
  have sorted := @List.pairwise_mergeSort Text
    (fun first second => decide (second.length ≤ first.length))
    (by
      intro first second third before after
      simp only [decide_eq_true_eq] at before after ⊢
      exact after.trans before)
    (by
      intro first second
      simp only [Bool.or_eq_true, decide_eq_true_eq]
      exact le_total _ _) nameToRev.keys
  exact sorted.imp fun isLe => of_decide_eq_true isLe

def Fetchers.scms (fetchers : Fetchers ε) : List (UrlData ε) :=
  match fetchers.srcUri with
  | .error _ => []
  | .ok urls =>
      match fetchers.fetch urls with
      | .error _ => []
      | .ok urldata => (urldata.filter (·.2.supportsSrcrev)).map Prod.snd

/-- The revision of several SCMs is the format with each name, the longest
first, replaced by the revision of any SCM of that name. -/
def OwnRevisions (fetchers : Fetchers ε) (revision : Text) : Prop :=
  ∃ format tokens own, ∃ mark ∈ [[], autoincMark],
    fetchers.srcrevFormat = .ok (some format) ∧
    Tokens (fetchers.scms.map UrlData.name) format tokens ∧
    revision = mark ++ tokens.flatMap (Token.render own) ∧
    ∀ name, .found name ∈ tokens → ∀ ud ∈ fetchers.scms, ud.name = name →
      ownRevision ud = some (own name)

/-- `__BBINSRCREV` has the value it had before, and the names in `SRCREV_FORMAT`
were replaced by their own revisions. -/
def LeavesNoTrace (fetchers : Fetchers ε) (d : DataStore) : Prop :=
  (getSrcrev fetchers d).2.get? inSrcrev = d.get? inSrcrev ∧
    ∀ revision revs, (getSrcrev fetchers d).1 = .ok (revision, revs) →
      1 < fetchers.scms.length → OwnRevisions fetchers revision

/-- No call raises, and there is a format if there are several SCMs. -/
structure Succeeds (fetchers : Fetchers ε) : Prop where
  fetched : ∃ urls urldata, fetchers.srcUri = .ok urls ∧
    fetchers.fetch urls = .ok urldata
  returned : ∀ ud ∈ fetchers.scms, ∃ found, ud.revision = .ok found
  formatted : 1 < fetchers.scms.length → ∃ format,
    fetchers.srcrevFormat = .ok (some format) ∧ format ≠ []

/-- SCMs that share a name which is found in the format have the same
abbreviated revision. -/
def Unambiguous (fetchers : Fetchers ε) : Prop :=
  1 < fetchers.scms.length → ∀ format tokens,
  fetchers.srcrevFormat = .ok (some format) →
    Tokens (fetchers.scms.map UrlData.name) format tokens →
    ∀ first ∈ fetchers.scms, ∀ second ∈ fetchers.scms, .found first.name ∈
      tokens → second.name = first.name → ownRevision first = ownRevision second

/-- How a call of `_get_srcrev` ends. -/
inductive Ends (fetchers : Fetchers ε) (d : DataStore) : Prop
  | recursive {value : Value} (isValue : d.get? inSrcrev = some value)
    (holds : value.isTrue) (result : getSrcrev fetchers d =
        (.error .recursive, d.set srcrevSeen seen))
  | raised (clear : (d.get? inSrcrev).any Value.isTrue = false)
      (fails : ¬ Succeeds fetchers)
      {error : SrcrevError ε} (result : getSrcrev fetchers d =
        (.error error, (d.set srcrevSeen seen).set inSrcrev .true))
  | few (clear : (d.get? inSrcrev).any Value.isTrue = false)
      (succeeds : Succeeds fetchers)
      (isFew : fetchers.scms.length ≤ 1) {outcome : Text × List Text}
      (result : getSrcrev fetchers d =
        (.ok outcome, ((d.set srcrevSeen seen).set inSrcrev .true).del
          inSrcrev))
  | several (clear : (d.get? inSrcrev).any Value.isTrue = false)
      (succeeds : Succeeds fetchers)
      (isMany : 1 < fetchers.scms.length) {format : Text} {state : Revisions}
      (isFormat : fetchers.srcrevFormat = .ok (some format))
      (collected : Collected fetchers.scms state)
      (result : getSrcrev fetchers d =
        (.ok (formatRevisions format state, state.revs),
        ((d.set srcrevSeen seen).set inSrcrev .true).del inSrcrev))

theorem ends_of_urldata {fetchers : Fetchers ε} {d : DataStore}
    {urls : List Text} {urldata : Dict Text (UrlData ε)}
    (clear : (d.get? inSrcrev).any Value.isTrue = false)
    (isUri : fetchers.srcUri = .ok urls)
    (isFetch : fetchers.fetch urls = .ok urldata)
    (isScms : fetchers.scms = (urldata.filter (·.2.supportsSrcrev)).map
      Prod.snd) :
    Ends fetchers d := by
  have guard : (d.set srcrevSeen seen).get? inSrcrev = d.get? inSrcrev :=
    Dict.get?_set_of_ne d _ (by decide)
  have fetched : ∃ urls urldata, fetchers.srcUri = .ok urls ∧
      fetchers.fetch urls = .ok urldata :=
    ⟨urls, urldata, isUri, isFetch⟩
  cases kept : urldata.filter (·.2.supportsSrcrev) with
  | nil =>
      rw [kept] at isScms
      have result : getSrcrev fetchers d = (.ok ([], []),
          ((d.set srcrevSeen seen).set inSrcrev .true).del inSrcrev) := by
        simp [getSrcrev, guard, clear, isUri, isFetch, kept]
      refine .few clear ⟨fetched, ?_, ?_⟩ (by simp [isScms]) result
      · simp [isScms]
      · simp [isScms]
  | cons first rest =>
      cases rest with
      | nil =>
          rw [kept] at isScms
          cases isRevision : first.2.revision with
          | error error =>
              have result : getSrcrev fetchers d = (.error (.raised error),
                  (d.set srcrevSeen seen).set inSrcrev .true) := by
                simp [getSrcrev, guard, clear, isUri, isFetch, kept, isRevision]
              refine .raised clear ?_ result
              intro succeeds
              obtain ⟨found, isFound⟩ :=
                succeeds.returned first.2 (by simp [isScms])
              rw [isRevision] at isFound
              cases isFound
          | ok found =>
              have result : ∃ outcome, getSrcrev fetchers d = (.ok outcome,
                  ((d.set srcrevSeen seen).set inSrcrev .true).del
                    inSrcrev) := by
                by_cases autoinc : found.1 <;>
                  simp [getSrcrev, guard, clear, isUri, isFetch, kept,
                    isRevision, autoinc]
              obtain ⟨outcome, result⟩ := result
              refine .few clear ⟨fetched, ?_, ?_⟩ (by simp [isScms]) result
              · intro ud member
                rw [isScms] at member
                rw [List.mem_singleton.mp member]
                exact ⟨found, isRevision⟩
              · simp [isScms]
      | cons second rest =>
          have isMany : 1 < fetchers.scms.length := by
            rw [isScms, kept]
            simp
          cases isFormat : fetchers.srcrevFormat with
          | error error =>
              have result : getSrcrev fetchers d = (.error (.raised error),
                  (d.set srcrevSeen seen).set inSrcrev .true) := by
                simp [getSrcrev, guard, clear, isUri, isFetch, kept, isFormat]
              refine .raised clear ?_ result
              intro succeeds
              obtain ⟨format, formatOk, _⟩ := succeeds.formatted isMany
              rw [isFormat] at formatOk
              cases formatOk
          | ok found =>
              by_cases isSet : found = none ∨ found = some []
              · have result : ∃ error, getSrcrev fetchers d = (.error error,
                    (d.set srcrevSeen seen).set inSrcrev .true) := by
                  rcases isSet with isNone | isEmpty
                  · simp [getSrcrev, guard, clear, isUri, isFetch, kept,
                      isFormat, isNone]
                  · simp [getSrcrev, guard, clear, isUri, isFetch, kept,
                      isFormat, isEmpty]
                obtain ⟨error, result⟩ := result
                refine .raised clear ?_ result
                intro succeeds
                obtain ⟨format, formatOk, nonempty⟩ := succeeds.formatted isMany
                rw [isFormat] at formatOk
                cases formatOk
                rcases isSet with isNone | isEmpty
                · cases isNone
                · exact nonempty (Option.some.inj isEmpty)
              · rw [not_or] at isSet
                obtain ⟨format, rfl⟩ := Option.ne_none_iff_exists'.mp isSet.1
                have nonempty : format ≠ [] :=
                  fun isNil => isSet.2 (congrArg some isNil)
                obtain ⟨char, chars, rfl⟩ := List.exists_cons_of_ne_nil nonempty
                have isList : fetchers.scms =
                    (first :: second :: rest).map Prod.snd := by
                  rw [isScms, kept]
                cases ran : fetchers.scms.foldlM addRevision
                  ⟨[], false, []⟩ with
                | error error =>
                    have result : getSrcrev fetchers d =
                        (.error (.raised error),
                          (d.set srcrevSeen seen).set inSrcrev .true) := by
                      rw [isList] at ran
                      simp only [getSrcrev, guard, clear, isUri, isFetch, kept,
                        isFormat, ran, Bool.false_eq_true, if_false]
                    refine .raised clear ?_ result
                    intro succeeds
                    obtain ⟨ud, member, raises⟩ := foldlM_addRevision_error ran
                    obtain ⟨found, isFound⟩ := succeeds.returned ud member
                    exact raises found isFound
                | ok state =>
                    have collected := collected_foldlM ran
                    have result : getSrcrev fetchers d =
                        (.ok (formatRevisions (char :: chars) state,
                          state.revs),
                          ((d.set srcrevSeen seen).set inSrcrev .true).del
                            inSrcrev) := by
                      rw [isList] at ran
                      simp only [getSrcrev, guard, clear, isUri, isFetch, kept,
                        isFormat, ran, Bool.false_eq_true, if_false]
                    exact .several clear ⟨fetched, collected.returned,
                      fun _ => ⟨_, isFormat, nonempty⟩⟩ isMany isFormat
                        collected result

theorem getSrcrev_ends (fetchers : Fetchers ε) (d : DataStore) :
    Ends fetchers d := by
  have other : inSrcrev ≠ srcrevSeen := by decide
  have guard : (d.set srcrevSeen seen).get? inSrcrev = d.get? inSrcrev :=
    Dict.get?_set_of_ne d _ other
  cases clear : (d.get? inSrcrev).any Value.isTrue with
  | true =>
      obtain ⟨value, isValue, holds⟩ := (Option.any_eq_true _ _).mp clear
      refine .recursive isValue holds ?_
      rw [getSrcrev]
      simp only [guard, clear, if_true]
  | false =>
      cases isUri : fetchers.srcUri with
      | error error =>
          have result : getSrcrev fetchers d = (.error (.raised error),
              (d.set srcrevSeen seen).set inSrcrev .true) := by
            simp [getSrcrev, guard, clear, isUri]
          refine .raised clear ?_ result
          intro succeeds
          obtain ⟨urls, urldata, uriOk, _⟩ := succeeds.fetched
          rw [isUri] at uriOk
          cases uriOk
      | ok urls =>
          cases isFetch : fetchers.fetch urls with
          | error error =>
              have result : getSrcrev fetchers d = (.error (.raised error),
                  (d.set srcrevSeen seen).set inSrcrev .true) := by
                simp [getSrcrev, guard, clear, isUri, isFetch]
              refine .raised clear ?_ result
              intro succeeds
              obtain ⟨urls', urldata, uriOk, fetchOk⟩ := succeeds.fetched
              rw [isUri] at uriOk
              cases uriOk
              rw [isFetch] at fetchOk
              cases fetchOk
          | ok urldata =>
              have isScms : fetchers.scms =
                  (urldata.filter (·.2.supportsSrcrev)).map Prod.snd := by
                simp only [Fetchers.scms, isUri, isFetch]
              exact ends_of_urldata clear isUri isFetch isScms

theorem ownRevisions_iff {fetchers : Fetchers ε}
    (isMany : 1 < fetchers.scms.length) {format : Text}
    (isFormat : fetchers.srcrevFormat = .ok (some format)) {state : Revisions}
    (collected : Collected fetchers.scms state) :
    OwnRevisions fetchers (formatRevisions format state) ↔
      Unambiguous fetchers := by
  constructor
  · intro ⟨format', tokens, own, mark, _, isFormat', cuts, _, owns⟩ _ format''
      tokens'' isFormat'' cuts'' first isFirst second isSecond found sameName
    rw [isFormat'] at isFormat''
    cases isFormat''
    rw [← cuts.unique cuts''] at found
    rw [owns first.name found first isFirst rfl,
      owns first.name found second isSecond sameName]
  · intro unambiguous
    have sameNames : ∀ name, name ∈ namesDescendingLen state.nameToRev ↔
        name ∈ fetchers.scms.map UrlData.name := by
      intro name
      rw [namesDescendingLen, List.mem_mergeSort, collected.names, List.mem_map]
    have cuts :=
      (tokens_scan (pairwise_namesDescendingLen state.nameToRev) format).congr
        sameNames
    refine ⟨format, _, fun name => (state.nameToRev.get? name).getD [],
      if state.seenautoinc then autoincMark else [], ?_, isFormat, cuts, ?_, ?_⟩
    · by_cases autoinc : state.seenautoinc <;> simp [autoinc]
    · rw [formatRevisions]
      by_cases autoinc : state.seenautoinc <;> simp [autoinc, substitute]
    · intro name found ud member isName
      have isKey : name ∈ state.nameToRev.keys :=
        (collected.names name).mpr ⟨ud, member, isName⟩
      obtain ⟨rev, isRev⟩ :=
        Option.ne_none_iff_exists'.mp (Dict.get?_ne_none_iff.mpr isKey)
      obtain ⟨other, isOther, sameName, isOwn⟩ := collected.own name rev isRev
      change ownRevision ud = some ((state.nameToRev.get? name).getD [])
      rw [isRev, Option.getD_some, ← isOwn]
      exact unambiguous isMany format _ isFormat cuts ud member other isOther
        (isName ▸ found) (sameName.trans isName.symm)

theorem get?_inSrcrev_del (d : DataStore) : (d.del inSrcrev).get? inSrcrev =
    none :=
  Dict.get?_del_self d inSrcrev

/-- The lookup leaves no trace if it reports recursion, or if the guard was not
set and nothing raises. -/
theorem leavesNoTrace_iff (fetchers : Fetchers ε) (d : DataStore) :
    LeavesNoTrace fetchers d ↔
      (∃ value, d.get? inSrcrev = some value ∧ value.isTrue) ∨
      (d.get? inSrcrev = none ∧ Succeeds fetchers ∧ Unambiguous fetchers) := by
  have notTrue : (d.get? inSrcrev).any Value.isTrue = false →
      ¬ ∃ value, d.get? inSrcrev = some value ∧ value.isTrue := by
    intro clear ⟨value, isValue, holds⟩
    rw [isValue, Option.any_some, holds] at clear
    cases clear
  rw [LeavesNoTrace]
  cases getSrcrev_ends fetchers d with
  | recursive isValue holds result =>
      rw [result]
      refine iff_of_true ⟨?_, ?_⟩ (.inl ⟨_, isValue, holds⟩)
      · exact Dict.get?_set_of_ne d _ (by decide)
      · intro revision revs impossible
        cases impossible
  | raised clear fails result =>
      rw [result]
      refine iff_of_false ?_ ?_
      · intro ⟨same, _⟩
        rw [Dict.get?_set_self] at same
        exact notTrue clear ⟨.true, same.symm, rfl⟩
      · intro condition
        rcases condition with holds | ⟨_, succeeds, _⟩
        · exact notTrue clear holds
        · exact fails succeeds
  | few clear succeeds isFew result =>
      rw [result, get?_inSrcrev_del]
      constructor
      · intro ⟨same, _⟩
        exact .inr ⟨same.symm, succeeds, fun isMany => absurd isMany (by omega)⟩
      · intro condition
        rcases condition with holds | ⟨isNone, _⟩
        · exact absurd holds (notTrue clear)
        · exact ⟨isNone.symm, fun _ _ _ isMany => absurd isMany (by omega)⟩
  | several clear succeeds isMany isFormat collected result =>
      have isOwn := ownRevisions_iff isMany isFormat collected
      rw [result, get?_inSrcrev_del]
      constructor
      · intro ⟨same, owns⟩
        exact .inr ⟨same.symm, succeeds, isOwn.mp (owns _ _ rfl isMany)⟩
      · intro condition
        rcases condition with holds | ⟨isNone, _, unambiguous⟩
        · exact absurd holds (notTrue clear)
        · refine ⟨isNone.symm, fun revision revs isResult _ => ?_⟩
          cases isResult
          exact isOwn.mpr unambiguous

namespace NoFormat

/-- Two git repositories, and no `SRCREV_FORMAT`. -/
def fetchers : Fetchers Unit where
  srcUri := .ok ["git://a;name=a".toList, "git://b;name=b".toList]
  fetch _ := .ok [
    ("git://a;name=a".toList, ⟨"a".toList, true, .ok (false, "1f".toList)⟩),
    ("git://b;name=b".toList, ⟨"b".toList, true, .ok (false, "2e".toList)⟩)]
  srcrevFormat := .ok none

theorem guard_left : ¬ LeavesNoTrace fetchers [] := by
  intro ⟨same, _⟩
  have left : (getSrcrev fetchers []).2.get? inSrcrev = some .true := rfl
  rw [left] at same
  cases same

end NoFormat

end Nvbmc.Fetch2
