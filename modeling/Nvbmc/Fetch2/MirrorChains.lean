import Mathlib.Data.List.Forall2
import Nvbmc.Fetch2.MirrorUris

/-!
# Chains of mirrors

Each URI is found by a chain of replacements that uses a mirror line at most
once, as long as no round goes on with the object of an earlier round.  The
recursion ends in any case.
-/

namespace Nvbmc.Fetch2

open Nvbmc.Library

variable {α ε : Type} {calls : Calls α ε} {origud : FetchData α}
  {mirrors : List Line}

/-- The object was made for the URI. -/
def BuiltFrom (calls : Calls α ε) (uri : Text) (ud : FetchData α) : Prop :=
  ∃ call, calls.fetchData call uri = .ok ud ∨
    calls.fetchData call uri = .noLocalpath ud

def Replaces (calls : Calls α ε) (origud ud : FetchData α) (line : Line)
    (newuri : Text) : Prop :=
  ∃ find replace tarball, line = [find, replace] ∧
    calls.uriReplace ud find replace (replacements origud) tarball =
      .ok (some newuri)

/-- A chain of replacements to an object, and the lines that it has left. -/
inductive Chain (calls : Calls α ε) (origud : FetchData α)
    (mirrors : List Line) : List Line → FetchData α → Prop where
  | origin : Chain calls origud mirrors mirrors origud
  | step {remaining : List Line} {ud newud : FetchData α} {line : Line}
      {newuri : Text}
      (before : Chain calls origud mirrors remaining ud)
      (left : line ∈ remaining)
      (replaces : Replaces calls origud ud line newuri)
      (built : BuiltFrom calls newuri newud) :
      Chain calls origud mirrors (remaining.erase line) newud

/-- A chain of replacements ends with the URI. -/
def Obtained (calls : Calls α ε) (origud : FetchData α) (mirrors : List Line)
    (uri : Text) : Prop :=
  ∃ remaining ud line, Chain calls origud mirrors remaining ud ∧
    line ∈ remaining ∧ Replaces calls origud ud line uri

/-- The two lists are as they should be. -/
structure Expanded (calls : Calls α ε) (origud : FetchData α)
    (mirrors : List Line) (state : MirrorState α ε) : Prop where
  sameLength : state.uris.length = state.uds.length
  built : List.Forall₂ (fun uri ud => ∃ call, calls.fetchData call uri = .ok ud)
    state.uris state.uds
  distinct : state.uris.Nodup
  notOrigin : origud.url ∉ state.uris
  trusted : ∀ uri ∈ state.uris, trustedNetwork calls uri = .ok true
  obtained : ∀ uri ∈ state.uris, Obtained calls origud mirrors uri

/-- A call that does not raise, but a `FetchData` may fail where `newud` has no
object of an earlier round. -/
def Step.Sound : Step α ε → Prop
  | .replaced outcome => ∃ newuri, outcome = .ok newuri
  | .trusted outcome => ∃ isTrusted, outcome = .ok isTrusted
  | .fetched newud outcome =>
      (∀ error, outcome ≠ .raised error) ∧ (outcome = .noObject → newud = none)

def SoundRun (calls : Calls α ε) (origud : FetchData α) (mirrors : List Line) :
    Prop :=
  ∀ step ∈ (buildMirroruris calls origud mirrors).2.steps, step.Sound

/-- The recursion ends, and in a sound run with the lists as they should be. -/
structure Lawful (calls : Calls α ε) (origud : FetchData α)
    (mirrors : List Line) : Prop where
  ends : (buildMirroruris calls origud mirrors).1 ≠ .error .outOfFuel
  returns : SoundRun calls origud mirrors →
    (buildMirroruris calls origud mirrors).1 = .ok () ∧
    Expanded calls origud mirrors (buildMirroruris calls origud mirrors).2

def Broken (state : MirrorState α ε) : Prop :=
  ∃ step ∈ state.steps, ¬ step.Sound

def Kept (calls : Calls α ε) (origud : FetchData α) (mirrors : List Line)
    (extra : Prop) (state : MirrorState α ε) : Prop :=
  Broken state ∨ (Expanded calls origud mirrors state ∧ extra)

/-- Where an error is raised a call was not sound. -/
def Escapes (error : MirrorError ε) (state : MirrorState α ε) : Prop :=
  error ≠ .outOfFuel ∧ Broken state

section Rounds

variable {state : MirrorState α ε} {step : Step α ε} {extra : Prop}

theorem Broken.note (broken : Broken state) (step : Step α ε) :
    Broken (state.note step) := by
  obtain ⟨unsound, member, isUnsound⟩ := broken
  exact ⟨unsound, List.mem_append_left _ member, isUnsound⟩

theorem broken_note (unsound : ¬ step.Sound) : Broken (state.note step) :=
  ⟨step, List.mem_append_right _ List.mem_cons_self, unsound⟩

theorem Expanded.note (expanded : Expanded calls origud mirrors state)
    (step : Step α ε) : Expanded calls origud mirrors (state.note step) :=
  ⟨expanded.sameLength, expanded.built, expanded.distinct, expanded.notOrigin,
    expanded.trusted, expanded.obtained⟩

theorem Kept.note (kept : Kept calls origud mirrors extra state)
    (step : Step α ε) : Kept calls origud mirrors extra (state.note step) := by
  rcases kept with broken | ⟨expanded, holds⟩
  · exact .inl (broken.note step)
  · exact .inr ⟨expanded.note step, holds⟩

variable {newud : FetchData α}

theorem Expanded.append (expanded : Expanded calls origud mirrors state)
    {newuri : Text} {call : ℕ} (isNew : newuri ∉ state.uris)
    (notOrigin : newuri ≠ origud.url)
    (isTrusted : trustedNetwork calls newuri = .ok true)
    (isBuilt : calls.fetchData call newuri = .ok newud)
    (isObtained : Obtained calls origud mirrors newuri) :
    Expanded calls origud mirrors (state.append newuri newud) := by
  constructor
  · simp [MirrorState.append, expanded.sameLength]
  · exact List.rel_append expanded.built (.cons ⟨call, isBuilt⟩ .nil)
  · apply List.nodup_append.mpr ⟨expanded.distinct, List.pairwise_singleton _ _,
      ?_⟩
    intro uri earlier other isLast same
    rw [same, List.mem_singleton.mp isLast] at earlier
    exact isNew earlier
  · simp only [MirrorState.append, List.mem_append, List.mem_singleton, not_or]
    exact ⟨expanded.notOrigin, Ne.symm notOrigin⟩
  · intro uri member
    rcases List.mem_append.mp member with earlier | isLast
    · exact expanded.trusted uri earlier
    · exact List.mem_singleton.mp isLast ▸ isTrusted
  · intro uri member
    rcases List.mem_append.mp member with earlier | isLast
    · exact expanded.obtained uri earlier
    · exact List.mem_singleton.mp isLast ▸ isObtained

theorem escapes_note (unsound : ¬ step.Sound) (error : Raised ε) :
    Escapes (.raised error) (state.note step) := by
  refine ⟨fun impossible => ?_, broken_note unsound⟩
  cases impossible

variable {remaining : List Line}

theorem Kept.chain {ud newud : FetchData α} {line : Line} {newuri : Text}
    (kept : Kept calls origud mirrors (Chain calls origud mirrors remaining ud ∧
      extra) state)
    (left : line ∈ remaining) (replaces : Replaces calls origud ud line newuri)
    (built : BuiltFrom calls newuri newud) :
    Kept calls origud mirrors
      (Chain calls origud mirrors (remaining.erase line) newud ∧
      Chain calls origud mirrors remaining ud ∧ extra) state := by
  rcases kept with broken | ⟨expanded, chain, holds⟩
  · exact .inl broken
  · exact .inr ⟨expanded, chain.step left replaces built, chain, holds⟩

theorem Kept.append {ud newud : FetchData α} {line : Line} {newuri : Text}
    {call : ℕ}
    (kept : Kept calls origud mirrors (Chain calls origud mirrors remaining ud ∧
      extra) state)
    (left : line ∈ remaining) (replaces : Replaces calls origud ud line newuri)
    (isNew : newuri ∉ state.uris) (notOrigin : newuri ≠ origud.url)
    (isTrusted : trustedNetwork calls newuri = .ok true)
    (isBuilt : calls.fetchData call newuri = .ok newud) :
    Kept calls origud mirrors (Chain calls origud mirrors remaining ud ∧ extra)
      (state.append newuri newud) := by
  rcases kept with broken | ⟨expanded, chain, holds⟩
  · exact .inl broken
  · have isObtained : Obtained calls origud mirrors newuri :=
      ⟨_, _, _, chain, left, replaces⟩
    exact .inr ⟨expanded.append isNew notOrigin isTrusted isBuilt isObtained,
      chain, holds⟩

/-- What a recursive call keeps if it starts from the end of a chain. -/
def Sustains (calls : Calls α ε) (origud : FetchData α) (mirrors : List Line)
    (recursion : Recursion α ε) (remaining : List Line) : Prop :=
  ∀ (extra : Prop) ud state,
    Kept calls origud mirrors (Chain calls origud mirrors remaining ud ∧ extra)
      state →
    EndsWith (Kept calls origud mirrors extra) Escapes
      (recursion ud remaining state)

variable {recursion : Recursion α ε}

theorem endsWith_descend
    (sustains : Sustains calls origud mirrors recursion remaining)
    (kept : Kept calls origud mirrors
      (Chain calls origud mirrors remaining newud ∧ extra) state) :
    EndsWith (fun frame => Kept calls origud mirrors extra frame.state)
      (fun error frame => Escapes error frame.state)
      (descend recursion newud remaining state) := by
  have ends := sustains extra newud state kept
  rw [descend]
  rcases isRun : recursion newud remaining state with ⟨result, after⟩
  rw [isRun] at ends
  cases result with
  | ok value => exact ends
  | error error => exact ends

theorem endsWith_descendCaught
    (sustains : Sustains calls origud mirrors recursion remaining)
    (kept : Kept calls origud mirrors
      (Chain calls origud mirrors remaining newud ∧ extra) state) :
    EndsWith (fun frame => Kept calls origud mirrors extra frame.state)
      (fun error frame => Escapes error frame.state)
      (descendCaught recursion newud remaining state) := by
  have ends := endsWith_descend sustains kept
  rw [descendCaught]
  rcases isRun : descend recursion newud remaining state with ⟨result, frame⟩
  rw [isRun] at ends
  cases result with
  | ok value => exact ends
  | error error =>
      cases error with
      | outOfFuel => exact ends
      | raised raisedError =>
          cases raisedError with
          | unboundLocal => exact .inl ends.2
          | other error => exact ends

/-- A round keeps the lists, and the chain that its call of `adduri` has. -/
theorem endsWith_tryMirror {ud : FetchData α} {line : Line}
    {find replace : Text} (isPair : line = [find, replace])
    (left : line ∈ remaining)
    (sustains : Sustains calls origud mirrors recursion (remaining.erase line))
    (tarball : Option Text) (frame : Frame α ε)
    (kept : Kept calls origud mirrors (Chain calls origud mirrors remaining ud ∧
      extra) frame.state) :
    EndsWith
      (fun frame => Kept calls origud mirrors
        (Chain calls origud mirrors remaining ud ∧ extra) frame.state)
      (fun error frame => Escapes error frame.state)
      (tryMirror calls origud recursion ud remaining line find replace tarball
        frame) := by
  rw [tryMirror]
  cases isReplaced : calls.uriReplace ud find replace (replacements origud)
    tarball with
  | error error =>
      have unsound : ¬ (Step.replaced (.error error) : Step α ε).Sound := by
        intro ⟨_, impossible⟩
        cases impossible
      exact escapes_note unsound error
  | ok found =>
      have noted := kept.note (.replaced (.ok found))
      dsimp only
      by_cases skipped : found.getD [] = [] ∨ found.getD [] ∈
          (frame.state.note (.replaced (.ok found))).uris ∨
            found.getD [] = origud.url
      · rw [if_pos skipped]
        exact noted
      · rw [if_neg skipped]
        simp only [not_or] at skipped
        obtain ⟨nonempty, isNew, notOrigin⟩ := skipped
        cases isTrusted : trustedNetwork calls (found.getD []) with
        | error error =>
            have unsound :
                ¬ (Step.trusted (.error error) : Step α ε).Sound := by
              intro ⟨_, impossible⟩
              cases impossible
            exact escapes_note unsound error
        | ok trusted =>
            have noted := noted.note (.trusted (.ok trusted))
            cases trusted with
            | false => exact noted
            | true =>
                have isFound : found = some (found.getD []) := by
                  cases found with
                  | none => exact absurd rfl nonempty
                  | some newuri => rfl
                have replaces : Replaces calls origud ud line (found.getD []) :=
                  ⟨find, replace, tarball, isPair, isFound ▸ isReplaced⟩
                dsimp only
                cases isBuilt : calls.fetchData _ (found.getD []) with
                | ok newud =>
                    have appended :=
                      (noted.note (.fetched frame.newud (.ok newud))).append
                        left replaces isNew notOrigin isTrusted isBuilt
                    exact endsWith_descend sustains
                      (appended.chain left replaces ⟨_, .inl isBuilt⟩)
                | noLocalpath newud =>
                    have noted :=
                      noted.note (.fetched frame.newud (.noLocalpath newud))
                    exact endsWith_descendCaught sustains
                      (noted.chain left replaces ⟨_, .inr isBuilt⟩)
                | noObject =>
                    have noted := noted.note (.fetched frame.newud .noObject)
                    dsimp only
                    cases isOlder : frame.newud with
                    | none =>
                        rw [isOlder] at noted
                        exact noted
                    | some newud =>
                        have unsound : ¬ (Step.fetched (some newud) .noObject :
                            Step α ε).Sound := by
                          intro ⟨_, isNone⟩
                          cases isNone rfl
                        exact endsWith_descendCaught sustains
                          (.inl (broken_note unsound))
                | raised error =>
                    have unsound : ¬ (Step.fetched frame.newud (.raised error) :
                        Step α ε).Sound := by
                      intro ⟨notRaised, _⟩
                      exact notRaised error rfl
                    exact escapes_note unsound error

/-- A call of `adduri` with enough fuel keeps the lists. -/
theorem sustains_adduri (tarballs : List (Option Text)) {fuel : ℕ}
    (enough : remaining.length < fuel) :
    Sustains calls origud mirrors (adduri calls origud tarballs fuel)
      remaining := by
  induction fuel generalizing remaining with
  | zero => cases enough
  | succ fuel induction =>
      intro extra ud state kept
      have rounds : ∀ line ∈ remaining, ∀ frame : Frame α ε,
          Kept calls origud mirrors (Chain calls origud mirrors remaining ud ∧
            extra) frame.state →
          EndsWith
            (fun frame => Kept calls origud mirrors
              (Chain calls origud mirrors remaining ud ∧ extra) frame.state)
            (fun error frame => Escapes error frame.state)
            (tryLine calls origud tarballs (adduri calls origud tarballs fuel)
              ud remaining line frame) := by
        intro line left frame keptFrame
        have shorter : (remaining.erase line).length < fuel := by
          have nonempty := List.length_pos_of_mem left
          rw [List.length_erase_of_mem left]
          omega
        rw [tryLine.eq_def]
        split
        · exact forEach_invariant (fun tarball _ frame keptFrame =>
            endsWith_tryMirror rfl left (induction shorter) tarball frame
              keptFrame) keptFrame
        · exact keptFrame
      have ends := @forEach_invariant _ _ _ _ _ _ _ rounds ⟨state, none⟩ kept
      rw [adduri]
      rcases isLoop :
        forEach (tryLine calls origud tarballs
          (adduri calls origud tarballs fuel)
        ud remaining) remaining ⟨state, none⟩ with ⟨result, frame⟩
      rw [isLoop] at ends
      simp only [isLoop]
      cases result with
      | ok value =>
          rcases ends with broken | ⟨expanded, _, holds⟩
          · exact .inl broken
          · exact .inr ⟨expanded, holds⟩
      | error error => exact ends

end Rounds

theorem expanded_nil : Expanded calls origud mirrors ⟨[], [], []⟩ where
  sameLength := rfl
  built := .nil
  distinct := .nil
  notOrigin := List.not_mem_nil
  trusted _ member := by cases member
  obtained _ member := by cases member

/-- The expansion of the mirrors ends, and a sound one gives the lists as they
should be. -/
theorem lawful (calls : Calls α ε) (origud : FetchData α)
    (mirrors : List Line) : Lawful calls origud mirrors := by
  have start : Kept calls origud mirrors
      (Chain calls origud mirrors mirrors origud ∧ True) ⟨[], [], []⟩ :=
    .inr ⟨expanded_nil, .origin, trivial⟩
  have ends : EndsWith (Kept calls origud mirrors True) Escapes
      (buildMirroruris calls origud mirrors) :=
    sustains_adduri _ (Nat.lt_succ_self _) True origud _ start
  rcases isRun : buildMirroruris calls origud mirrors with ⟨result, state⟩
  rw [isRun] at ends
  have notBroken : SoundRun calls origud mirrors → ¬ Broken state := by
    intro sound ⟨step, member, unsound⟩
    rw [SoundRun, isRun] at sound
    exact unsound (sound step member)
  cases result with
  | ok value =>
      constructor
      · rw [isRun]
        intro impossible
        cases impossible
      · intro sound
        rw [isRun]
        rcases ends with broken | ⟨expanded, _⟩
        · exact absurd broken (notBroken sound)
        · exact ⟨rfl, expanded⟩
  | error error =>
      constructor
      · rw [isRun]
        intro isFuel
        cases isFuel
        exact ends.1 rfl
      · intro sound
        exact absurd ends.2 (notBroken sound)

theorem Chain.sublist {remaining : List Line} {ud : FetchData α}
    (chain : Chain calls origud mirrors remaining ud) :
    remaining.Sublist mirrors := by
  induction chain with
  | origin => exact List.Sublist.refl _
  | step _ _ _ _ induction => exact List.erase_sublist.trans induction

namespace EarlierObject

def object (url : Text) : FetchData Unit :=
  ⟨[], [], [], url, [], ()⟩

/-- The first line gives `a` for the origin and `c` for `a`, the second gives
`b`, for which there is no object. -/
def outcomes : Calls Unit Unit where
  uriReplace ud find _ _ _ :=
    if ud.url = ['o'] ∧ find = ['f'] then .ok (some ['a'])
    else if ud.url = ['o'] ∧ find = ['g'] then .ok (some ['b'])
    else if ud.url = ['a'] ∧ find = ['f'] then .ok (some ['c'])
    else .ok none
  network _ := .ok []
  vars := ⟨true, [], [], [], id⟩
  fetchData _ uri := if uri = ['b'] then .noObject else .ok (object uri)

def lines : List Line :=
  [[['f'], ['x']], [['g'], ['y']]]

theorem replaces_iff {ud : FetchData Unit} {line : Line} {newuri : Text}
    (replaces : Replaces outcomes (object ['o']) ud line newuri) :
    (newuri = ['a'] → ∃ replace, line = [['f'], replace]) ∧
    (newuri = ['c'] → ud.url = ['a'] ∧ ∃ replace, line = [['f'], replace]) := by
  obtain ⟨find, replace, tarball, isLine, isReplaced⟩ := replaces
  simp only [outcomes] at isReplaced
  split_ifs at isReplaced with first second third
  · cases isReplaced
    exact ⟨fun _ => ⟨replace, first.2 ▸ isLine⟩, fun impossible =>
      absurd impossible (by decide)⟩
  · cases isReplaced
    exact ⟨fun impossible => absurd impossible (by decide),
      fun impossible => absurd impossible (by decide)⟩
  · cases isReplaced
    exact ⟨fun impossible => absurd impossible (by decide),
      fun _ => ⟨third.1, replace, third.2 ▸ isLine⟩⟩
  · cases isReplaced

theorem url_of_builtFrom {uri : Text} {ud : FetchData Unit}
    (built : BuiltFrom outcomes uri ud) : ud.url = uri := by
  obtain ⟨call, isOk | isBuilt⟩ := built
  · simp only [outcomes] at isOk
    split_ifs at isOk
    cases isOk
    rfl
  · simp only [outcomes] at isBuilt
    split_ifs at isBuilt

/-- The chain to `a` has used the first line. -/
theorem not_obtained : ¬ Obtained outcomes (object ['o']) lines ['c'] := by
  intro ⟨remaining, ud, line, chain, left, replaces⟩
  obtain ⟨isA, replace, isLine⟩ := (replaces_iff replaces).2 rfl
  cases chain with
  | origin => cases isA
  | step before wasLeft earlier built =>
      rename_i remaining' ud' line' newuri
      have isUri := (url_of_builtFrom built).symm.trans isA
      obtain ⟨replace', isLine'⟩ := (replaces_iff earlier).1 isUri
      have first : ∀ replace, [['f'], replace] ∈ lines → replace = ['x'] := by
        intro replace member
        simpa [lines] using member
      have unique : remaining'.Nodup := before.sublist.nodup (by decide)
      have inMirrors := before.sublist.mem wasLeft
      have inMirrors' := before.sublist.mem (List.mem_of_mem_erase left)
      rw [isLine'] at inMirrors
      rw [isLine] at inMirrors'
      have same : line = line' := by
        rw [isLine, isLine', first replace inMirrors', first replace' inMirrors]
      rw [same] at left
      exact unique.not_mem_erase left

theorem line_used_twice :
    ¬ Expanded outcomes (object ['o']) lines
      (buildMirroruris outcomes (object ['o']) lines).2 := by
  intro expanded
  have isResult : (buildMirroruris outcomes (object ['o']) lines).2.uris =
      [['a'], ['c']] := by
    rfl
  apply not_obtained
  apply expanded.obtained
  rw [isResult]
  exact List.mem_cons_of_mem _ List.mem_cons_self

end EarlierObject

end Nvbmc.Fetch2
