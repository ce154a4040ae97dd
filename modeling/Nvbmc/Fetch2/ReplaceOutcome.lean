import Nvbmc.Fetch2.MirrorReplace

/-!
# What becomes of the URL of a mirror

Where the patterns and templates of a mirror entry are valid and the URL has the
parameters that are to be found, `uri_replace` returns nothing exactly if the
entry does not apply, or the URL that comes out is the one that went in.
-/

namespace Nvbmc.Fetch2

open Nvbmc.Library

variable (tokens : MirrorTokens)

@[simp] theorem get_set (text : Text) (part : Part) :
    (tokens.set text part).get part = text := by
  cases part <;> rfl

theorem get_set_of_ne (text : Text) {part other : Part}
    (different : other ≠ part) : (tokens.set text part).get other =
      tokens.get other := by
  cases part <;> cases other <;> first | rfl | exact absurd rfl different

@[simp] theorem set_p (text : Text) (part : Part) :
    (tokens.set text part).p = tokens.p := by
  cases part <;> rfl

@[simp] theorem get_with_p (params : Dict Text Text) (part : Part) :
    ({ tokens with p := params } : MirrorTokens).get part =
      tokens.get part := by
  cases part <;> rfl

theorem tokens_ext {first second : MirrorTokens}
    (parts : ∀ part, first.get part = second.get part)
    (params : first.p = second.p) : first = second := by
  rw [MirrorTokens.mk.injEq]
  exact ⟨parts .type, parts .host, parts .path, parts .user, parts .pswd,
    params⟩

/-- What the patterns of an entry come to: whether they match, and what the
templates make of the components. -/
structure Outcomes where
  matched : Part → Bool
  text : Part → Text

/-- The patterns and the templates that are used are valid. -/
structure Outcomes.Of {ε : Type} (outcomes : Outcomes) (re : Regexes ε)
    (replacements : Dict Text Text) (uri find replace : MirrorTokens) :
    Prop where
  isMatch : ∀ part, re.isMatch (find.regexp part) (uri.get part) =
    .ok (outcomes.matched part)
  sub : ∀ part, outcomes.matched part = true → replace.get part ≠ [] →
    re.sub (find.regexp part) (replaceEach replacements (replace.get part))
      (uri.get part) = .ok (outcomes.text part)

def straight (replace : MirrorTokens) (part : Part) : Prop :=
  (part = .user ∨ part = .pswd) ∧ replace.get part ≠ []

instance (replace : MirrorTokens) (part : Part) :
    Decidable (straight replace part) :=
  inferInstanceAs (Decidable (_ ∧ _))

def Outcomes.component (outcomes : Outcomes) (replace : MirrorTokens)
    (part : Part) : Text :=
  if straight replace part then replace.get part
  else if replace.get part = [] then []
  else outcomes.text part

section Expected

variable (ud : MirrorData) (replacements : Dict Text Text)
  (mirrortarball : Text) (outcomes : Outcomes) (uri find replace : MirrorTokens)

def dropsParams : Prop :=
  uri.type ≠ replaceEach replacements replace.type ∧ mirrortarball ≠ []

instance : Decidable (dropsParams replacements mirrortarball uri replace) :=
  inferInstanceAs (Decidable (_ ∧ _))

def mirrorName : Text :=
  if dropsParams replacements mirrortarball uri replace then
    osBasename mirrortarball
  else if ud.localpath ≠ [] ∧ ud.supportsChecksum then osBasename ud.localpath
  else []

def expectedPath : Text :=
  let name := mirrorName ud replacements mirrortarball uri replace
  if name = [] then outcomes.component replace .path
  else rebased name (osBasename uri.path) (outcomes.component replace .path)

/-- The tokens of the URL for the mirror. -/
def expected : MirrorTokens where
  type := outcomes.component replace .type
  host := outcomes.component replace .host
  path := expectedPath ud replacements mirrortarball outcomes uri replace
  user := outcomes.component replace .user
  pswd := outcomes.component replace .pswd
  p := overwriteParams replacements
    (if dropsParams replacements mirrortarball uri replace then [] else uri.p)
    replace.p

structure Applies : Prop where
  parts : ∀ part, straight replace part ∨ outcomes.matched part = true
  params : dropsParams replacements mirrortarball uri replace ∨
    ∀ param ∈ find.p, uri.p.get? param.1 = some param.2

/-- The URL has the parameters that are to be found. -/
def Present : Prop :=
  dropsParams replacements mirrortarball uri replace ∨
    ∀ param ∈ find.p, uri.p.get? param.1 ≠ none

end Expected

section Rounds

variable (ud : MirrorData) (replacements : Dict Text Text)
  (mirrortarball : Text) (outcomes : Outcomes)

def matchedState (part : Part) (state : Replacing) : Replacing :=
  if state.replace.get part = [] then
    { state with result := state.result.set [] part }
  else { state with
    replace := state.replace.set
      (replaceEach replacements (state.replace.get part)) part
    result := state.result.set (outcomes.text part) part }

def roundState (part : Part) (state : Replacing) : Replacing :=
  if straight state.replace part then
    { state with result := state.result.set (state.replace.get part) part }
  else if part = .path then
    pathRound ud mirrortarball (matchedState replacements outcomes part state)
  else matchedState replacements outcomes part state

/-- The component is still as it was decoded. -/
structure Fresh (uri find replace : MirrorTokens) (part : Part)
    (state : Replacing) : Prop where
  uri : state.uri.get part = uri.get part
  regexp : state.find.regexp part = find.regexp part
  replace : state.replace.get part = replace.get part

end Rounds

section RoundFacts

variable {ε : Type} {re : Regexes ε} {ud : MirrorData}
  {replacements : Dict Text Text} {mirrortarball : Text} {outcomes : Outcomes}
  {uri find replace : MirrorTokens} {part : Part} {state : Replacing}

theorem partRound_eq (isOf : outcomes.Of re replacements uri find replace)
    (fresh : Fresh uri find replace part state) :
    partRound re ud replacements mirrortarball part state =
      .ok (if straight replace part ∨ outcomes.matched part = true then
        some (roundState ud replacements mirrortarball outcomes part state) else
          none) := by
  have sameStraight : straight state.replace part ↔ straight replace part := by
    rw [straight, straight, fresh.replace]
  by_cases taken : straight replace part
  · have stateTaken := sameStraight.mpr taken
    have passes : straight replace part ∨ outcomes.matched part = true :=
      .inl taken
    rw [if_pos passes, roundState, if_pos stateTaken, partRound]
    exact if_pos stateTaken
  · have notTaken := mt sameStraight.mp taken
    have unfolded :
        ¬ ((part = .user ∨ part = .pswd) ∧ state.replace.get part ≠ []) :=
          notTaken
    rw [partRound, if_neg unfolded, fresh.regexp, fresh.uri, isOf.isMatch,
      roundState, if_neg notTaken]
    cases isMatched : outcomes.matched part with
    | false =>
        have stops : ¬ (straight replace part ∨ false = true) := by
          simpa using taken
        rw [if_neg stops]
    | true =>
        have matched : matchedRound re replacements part state =
            .ok (matchedState replacements outcomes part state) := by
          rw [matchedRound, matchedState]
          split_ifs with empty
          · rfl
          · rw [fresh.replace] at empty
            rw [fresh.regexp, fresh.uri, fresh.replace]
            simp only [isOf.sub part isMatched empty]
        have passes : straight replace part ∨ true = true := .inr rfl
        rw [matched, if_pos passes]

@[simp] theorem uri_get_roundState (part other : Part) (state : Replacing) :
    (roundState ud replacements mirrortarball outcomes part state).uri.get
      other = state.uri.get other := by
  simp only [roundState, matchedState, pathRound]
  split_ifs <;> rfl

@[simp] theorem regexp_roundState (part other : Part) (state : Replacing) :
    (roundState ud replacements mirrortarball outcomes part state).find.regexp
      other = state.find.regexp other := by
  simp only [roundState, matchedState, pathRound]
  split_ifs <;> rfl

variable {other : Part}

theorem replace_roundState (different : other ≠ part) (state : Replacing) :
    (roundState ud replacements mirrortarball outcomes part state).replace.get
      other = state.replace.get other := by
  have kept := get_set_of_ne state.replace
    (replaceEach replacements (state.replace.get part)) different
  simp only [roundState, matchedState, pathRound]
  split_ifs <;> first | rfl | exact kept

theorem result_matchedState (different : other ≠ part) (state : Replacing) :
    (matchedState replacements outcomes part state).result.get other =
      state.result.get other := by
  rw [matchedState]
  split_ifs
  · exact get_set_of_ne _ _ different
  · exact get_set_of_ne _ _ different

theorem result_pathRound {other : Part} (different : other ≠ .path)
    (state : Replacing) :
    (pathRound ud mirrortarball state).result.get other =
      state.result.get other := by
  have kept := fun text => get_set_of_ne state.result text different
  simp only [pathRound]
  split_ifs
  · rfl
  · rfl
  · exact kept _
  · exact kept _

theorem result_roundState (different : other ≠ part) (state : Replacing) :
    (roundState ud replacements mirrortarball outcomes part state).result.get
      other = state.result.get other := by
  rw [roundState]
  split_ifs with taken isPath
  · exact get_set_of_ne _ _ different
  · subst isPath
    rw [result_pathRound different, result_matchedState different]
  · exact result_matchedState different state

theorem Fresh.roundState (fresh : Fresh uri find replace other state)
    (different : other ≠ part) : Fresh uri find replace other
      (roundState ud replacements mirrortarball outcomes part state) where
  uri := by rw [uri_get_roundState, fresh.uri]
  regexp := by rw [regexp_roundState, fresh.regexp]
  replace := by rw [replace_roundState different, fresh.replace]

theorem partRounds_eq (isOf : outcomes.Of re replacements uri find replace)
    {parts : List Part} (nodup : parts.Nodup)
    (fresh : ∀ part ∈ parts, Fresh uri find replace part state) :
    partRounds re ud replacements mirrortarball parts state =
      .ok (if ∀ part ∈ parts,
          straight replace part ∨ outcomes.matched part = true then
        some (parts.foldl (fun state part =>
          roundState ud replacements mirrortarball outcomes part state) state)
      else none) := by
  induction parts generalizing state with
  | nil => rfl
  | cons part parts induction =>
      obtain ⟨absent, nodup⟩ := List.nodup_cons.mp nodup
      have still : ∀ other ∈ parts, Fresh uri find replace other
          (roundState ud replacements mirrortarball outcomes part state) := by
        intro other member
        apply (fresh other (List.mem_cons_of_mem _ member)).roundState
        rintro rfl
        exact absent member
      have later := induction nodup still
      rw [partRounds, partRound_eq isOf (fresh part List.mem_cons_self),
        List.foldl_cons]
      by_cases passes : straight replace part ∨ outcomes.matched part = true
      · rw [if_pos passes]
        simp only [later, List.forall_mem_cons, passes, true_and]
      · rw [if_neg passes]
        simp only [List.forall_mem_cons, passes, false_and, if_false]

theorem result_matchedState_self
    (fresh : Fresh uri find replace part state)
    (notTaken : ¬ straight replace part) :
    (matchedState replacements outcomes part state).result.get part =
      outcomes.component replace part := by
  rw [matchedState, Outcomes.component, if_neg notTaken, fresh.replace]
  split_ifs
  · exact get_set ..
  · exact get_set ..

theorem result_roundState_self
    (fresh : Fresh uri find replace part state) (notPath : part ≠ .path) :
    (roundState ud replacements mirrortarball outcomes part state).result.get
      part = outcomes.component replace part := by
  have sameStraight : straight state.replace part ↔ straight replace part := by
    rw [straight, straight, fresh.replace]
  rw [roundState]
  by_cases taken : straight replace part
  · rw [if_pos (sameStraight.mpr taken), Outcomes.component,
      if_pos taken, ← fresh.replace]
    exact get_set ..
  · rw [if_neg (mt sameStraight.mp taken), if_neg notPath]
    exact result_matchedState_self fresh taken

theorem replace_type_roundState (fresh : Fresh uri find replace .type state) :
    (roundState ud replacements mirrortarball outcomes .type
      state).replace.type = replaceEach replacements replace.type := by
  have notTaken : ¬ straight state.replace .type := by simp [straight]
  have notPath : Part.type ≠ .path := by decide
  have same : state.replace.type = replace.type := fresh.replace
  rw [roundState, if_neg notTaken, if_neg notPath, matchedState]
  split_ifs with empty
  · have nothing : replace.type = [] := same ▸ empty
    rw [nothing, replaceEach_nil]
    exact empty
  · rw [← same]
    rfl

theorem newBasename_eq (sameUri : state.uri = uri)
    (type : state.replace.type = replaceEach replacements replace.type) :
    newBasename ud mirrortarball state =
      (mirrorName ud replacements mirrortarball uri replace,
      decide (dropsParams replacements mirrortarball uri replace)) := by
  have same : (state.uri.type ≠ state.replace.type ∧ mirrortarball ≠ []) ↔
      dropsParams replacements mirrortarball uri replace := by
    rw [dropsParams, sameUri, type]
  rw [newBasename, mirrorName]
  by_cases drops : dropsParams replacements mirrortarball uri replace
  · rw [if_pos (same.mpr drops), if_pos drops, decide_eq_true drops]
  · rw [if_neg (mt same.mp drops), if_neg drops, decide_eq_false drops]
    split_ifs <;> rfl

theorem roundState_path (fresh : Fresh uri find replace .path state)
    (sameUri : state.uri = uri)
    (type : state.replace.type = replaceEach replacements replace.type) :
    let after := roundState ud replacements mirrortarball outcomes .path state
    after.result.path = expectedPath ud replacements mirrortarball outcomes uri
      replace ∧
    after.uri.p = (if dropsParams replacements mirrortarball uri replace then []
                   else uri.p) ∧
    after.find.p =
      (if dropsParams replacements mirrortarball uri replace then []
      else state.find.p) := by
  have notTaken : ¬ straight state.replace .path := by simp [straight]
  have component :
      (matchedState replacements outcomes .path state).result.path =
      outcomes.component replace .path :=
        result_matchedState_self fresh (by simp [straight])
  have parts : (matchedState replacements outcomes .path state).uri = uri ∧
      (matchedState replacements outcomes .path state).find = state.find ∧
      (matchedState replacements outcomes .path state).replace.type =
        replaceEach replacements replace.type := by
    rw [matchedState]
    split_ifs
    · exact ⟨sameUri, rfl, type⟩
    · exact ⟨sameUri, rfl, type⟩
  have name :=
    @newBasename_eq ud replacements mirrortarball uri replace _ parts.1
      parts.2.2
  rw [roundState, if_neg notTaken, if_pos rfl, pathRound, name, expectedPath]
  by_cases drops : dropsParams replacements mirrortarball uri replace
  · simp only [drops, decide_true, if_true]
    split_ifs with noName
    · exact ⟨component, rfl, rfl⟩
    · exact ⟨by rw [component, parts.1], rfl, rfl⟩
  · simp only [drops, decide_false, Bool.false_eq_true, if_false]
    split_ifs with noName
    · exact ⟨component, by rw [parts.1], by rw [parts.2.1]⟩
    · exact ⟨by rw [component, parts.1], by rw [parts.1], by rw [parts.2.1]⟩

theorem params_roundState (notPath : part ≠ .path) (state : Replacing) :
    (roundState ud replacements mirrortarball outcomes part state).uri.p =
      state.uri.p ∧
    (roundState ud replacements mirrortarball outcomes part state).find.p =
      state.find.p := by
  rw [roundState, if_neg notPath, matchedState]
  split_ifs <;> exact ⟨rfl, rfl⟩

theorem uri_roundState (notPath : part ≠ .path) (state : Replacing) :
    (roundState ud replacements mirrortarball outcomes part state).uri =
      state.uri :=
  tokens_ext (fun other => uri_get_roundState part other state)
    (params_roundState notPath state).1

theorem replace_p_roundState (part : Part) (state : Replacing) :
    (roundState ud replacements mirrortarball outcomes part state).replace.p =
      state.replace.p := by
  simp only [roundState, matchedState, pathRound]
  split_ifs <;> first | rfl | exact set_p ..

end RoundFacts

theorem findParams_eq {ε : Type} {uri find : Dict Text Text}
    (present : ∀ param ∈ find, uri.get? param.1 ≠ none) :
    findParams uri find =
      (.ok (decide (∀ param ∈ find, uri.get? param.1 = some param.2)) :
      Except (ReplaceError ε) Bool) := by
  induction find with
  | nil => rfl
  | cons param find induction =>
      obtain ⟨name, value⟩ := param
      obtain ⟨found, isFound⟩ :=
        Option.ne_none_iff_exists'.mp (present (name, value) (by simp))
      have later :=
        induction fun other member =>
          present other (List.mem_cons_of_mem _ member)
      simp only [findParams, isFound]
      split_ifs with same
      · have differs : ¬ ∀ param ∈ (name, value) :: find, uri.get? param.1 =
            some param.2 := by
          intro all
          have here := all (name, value) List.mem_cons_self
          rw [isFound] at here
          exact same (Option.some.inj here)
        rw [decide_eq_false differs]
      · have equal : found = value := not_not.mp same
        rw [later]
        simp [isFound, equal]

section Outcome

variable {ε : Type} {re : Regexes ε} {ud : MirrorData}
  {replacements : Dict Text Text} {mirrortarball : Text} {outcomes : Outcomes}
  {uri find replace : MirrorTokens}

/-- The state after the rounds of the five texts. -/
def lastState (ud : MirrorData) (replacements : Dict Text Text)
    (mirrortarball : Text)
    (outcomes : Outcomes) (uri find replace : MirrorTokens) : Replacing :=
  [Part.type, .host, .path, .user, .pswd].foldl
    (fun state part => roundState ud replacements mirrortarball outcomes part
      state)
    ⟨uri, find, replace, noTokens⟩

theorem lastState_spec :
    let last := lastState ud replacements mirrortarball outcomes uri find
      replace
    last.uri.p = (if dropsParams replacements mirrortarball uri replace then []
                  else uri.p) ∧
    last.find.p = (if dropsParams replacements mirrortarball uri replace then []
                   else find.p) ∧
    { last.result with
      p := overwriteParams replacements last.uri.p last.replace.p } =
      expected ud replacements mirrortarball outcomes uri replace := by
  have start : ∀ part,
      Fresh uri find replace part ⟨uri, find, replace, noTokens⟩ :=
    fun part => ⟨rfl, rfl, rfl⟩
  let round :=
    fun part state => roundState ud replacements mirrortarball outcomes part
      state
  let first := round .type ⟨uri, find, replace, noTokens⟩
  let second := round .host first
  let third := round .path second
  let fourth := round .user third
  let fifth := round .pswd fourth
  have freshFirst : ∀ part, part ≠ .type → Fresh uri find replace part first :=
    fun part different => (start part).roundState different
  have freshSecond : ∀ part, part ≠ .type → part ≠ .host →
      Fresh uri find replace part second :=
    fun part one two => (freshFirst part one).roundState two
  have freshThird : ∀ part, part = .user ∨ part = .pswd →
      Fresh uri find replace part third := by
    rintro part (rfl | rfl)
    · exact (freshSecond .user (by decide) (by decide)).roundState (by decide)
    · exact (freshSecond .pswd (by decide) (by decide)).roundState (by decide)
  have freshFourth : Fresh uri find replace .pswd fourth :=
    (freshThird .pswd (.inr rfl)).roundState (by decide)
  have sameUri : second.uri = uri := by
    rw [uri_roundState (by decide), uri_roundState (by decide)]
  have sameFind : second.find.p = find.p := by
    rw [(params_roundState (by decide) first).2,
      (params_roundState (by decide) _).2]
  have type : second.replace.type = replaceEach replacements replace.type := by
    have kept : second.replace.get .type = first.replace.get .type :=
      replace_roundState (by decide) first
    exact kept.trans (replace_type_roundState (start .type))
  obtain ⟨path, uriParams, findParams⟩ :=
    roundState_path (freshSecond .path (by decide) (by decide)) sameUri type
  have later : fifth.uri.p = third.uri.p ∧ fifth.find.p = third.find.p := by
    rw [(params_roundState (by decide) fourth).1,
      (params_roundState (by decide) fourth).2,
      (params_roundState (by decide) third).1,
      (params_roundState (by decide) third).2]
    exact ⟨rfl, rfl⟩
  have isUri : fifth.uri.p =
      if dropsParams replacements mirrortarball uri replace then []
      else uri.p :=
    later.1.trans uriParams
  have isFind : fifth.find.p =
      if dropsParams replacements mirrortarball uri replace then []
      else find.p := by
    rw [later.2, ← sameFind]
    exact findParams
  have isReplace : fifth.replace.p = replace.p := by
    simp only [fifth, fourth, third, second, first, round, replace_p_roundState]
  refine ⟨isUri, isFind, ?_⟩
  apply tokens_ext
  · intro part
    cases part with
    | type =>
        have kept : fifth.result.get .type = first.result.get .type := by
          rw [result_roundState (by decide) fourth,
            result_roundState (by decide) third,
            result_roundState (by decide) second,
            result_roundState (by decide) first]
        exact kept.trans (result_roundState_self (start .type) (by decide))
    | host =>
        have kept : fifth.result.get .host = second.result.get .host := by
          rw [result_roundState (by decide) fourth,
            result_roundState (by decide) third,
            result_roundState (by decide) second]
        exact kept.trans
          (result_roundState_self (freshFirst .host (by decide)) (by decide))
    | path =>
        have kept : fifth.result.get .path = third.result.get .path := by
          rw [result_roundState (by decide) fourth,
            result_roundState (by decide) third]
        exact kept.trans path
    | user =>
        have kept : fifth.result.get .user = fourth.result.get .user :=
          result_roundState (by decide) fourth
        exact kept.trans
          (result_roundState_self (freshThird .user (.inl rfl)) (by decide))
    | pswd => exact result_roundState_self freshFourth (by decide)
  · rw [expected, ← isUri, ← isReplace]
    rfl

/-- The loop over the components ends with what is expected if the entry
applies, and with nothing if not. -/
theorem replaced_eq (isOf : outcomes.Of re replacements uri find replace)
    (present : Present replacements mirrortarball uri find replace) :
    (Applies replacements mirrortarball outcomes uri find replace →
      replaced re ud replacements mirrortarball uri find replace =
        .ok (some (expected ud replacements mirrortarball outcomes uri
          replace))) ∧
    (¬ Applies replacements mirrortarball outcomes uri find replace →
      replaced re ud replacements mirrortarball uri find replace =
        .ok none) := by
  have fresh : ∀ part ∈ [Part.type, .host, .path, .user, .pswd],
      Fresh uri find replace part ⟨uri, find, replace, noTokens⟩ :=
    fun part _ => ⟨rfl, rfl, rfl⟩
  have rounds : partRounds re ud replacements mirrortarball
      [.type, .host, .path, .user, .pswd] ⟨uri, find, replace, noTokens⟩ =
      .ok (if ∀ part ∈ [Part.type, .host, .path, .user, .pswd],
          straight replace part ∨ outcomes.matched part = true then
        some (lastState ud replacements mirrortarball outcomes uri find
          replace) else none) :=
    partRounds_eq isOf (by decide) fresh
  obtain ⟨uriParams, findIs, isExpected⟩ :=
    @lastState_spec ud replacements mirrortarball outcomes uri find replace
  have everyPart : (∀ part ∈ [Part.type, .host, .path, .user, .pswd],
      straight replace part ∨ outcomes.matched part = true) ↔
      ∀ part, straight replace part ∨ outcomes.matched part = true := by
    constructor
    · intro all part
      exact all part (by cases part <;> simp)
    · exact fun all part _ => all part
  have params : findParams
      (lastState ud replacements mirrortarball outcomes uri find replace).uri.p
      (lastState ud replacements mirrortarball outcomes uri find
        replace).find.p =
      (.ok (decide (dropsParams replacements mirrortarball uri replace ∨
        ∀ param ∈ find.p, uri.p.get? param.1 = some param.2)) : Except
          (ReplaceError ε) Bool) := by
    rw [uriParams, findIs]
    by_cases drops : dropsParams replacements mirrortarball uri replace
    · simp [drops, findParams]
    · rw [if_neg drops, if_neg drops,
        findParams_eq (present.resolve_left drops)]
      simp [drops]
  rw [replaced, rounds]
  constructor
  · intro applies
    rw [if_pos (everyPart.mpr applies.parts)]
    simp only [paramsRound, params, decide_eq_true applies.params, isExpected]
  · intro out
    by_cases parts : ∀ part, straight replace part ∨
      outcomes.matched part = true
    · have differ : ¬ (dropsParams replacements mirrortarball uri replace ∨
          ∀ param ∈ find.p, uri.p.get? param.1 = some param.2) :=
        fun params => out ⟨parts, params⟩
      rw [if_pos (everyPart.mpr parts)]
      simp only [paramsRound, params, decide_eq_false differ]
    · rw [if_neg (mt everyPart.mp parts)]

end Outcome

/-- The user part of an URL that is no file begins with a colon, so that there
is no user name. -/
def UnnamedUser (lib : Urllib) (url : Text) : Prop :=
  ∃ groups, matchMirror url = some groups ∧ lib.lower groups.type ≠ file ∧
    (groups.user.getD []).head? = some ':'

theorem splitName_cases (user : Text) :
    (∃ pswd, (splitName user).2 = some pswd) ∨ user.head? = some ':' := by
  rw [splitName]
  split_ifs with empty
  · exact .inl ⟨[], rfl⟩
  · rw [matchName]
    obtain ⟨before, after, split, _, parts⟩ | ⟨_, parts⟩ :=
      partition_cases ':' user
    · rw [parts]
      by_cases unnamed : before = []
      · right
        rw [split, unnamed]
        rfl
      · simp only [if_neg unnamed]
        exact .inl ⟨_, rfl⟩
    · rw [parts]
      simp only [if_neg empty]
      exact .inl ⟨_, rfl⟩

theorem malformed_of_decodemirrorurl {ε : Type} {lib : Urllib} {url : Text}
    {error : ReplaceError ε} (named : ¬ UnnamedUser lib url)
    (raised : decodemirrorurl lib url = .error error) :
    error = .malformedUrl := by
  rw [decodemirrorurl] at raised
  cases matched : matchMirror url with
  | none =>
      simp only [matched] at raised
      exact (Except.error.inj raised).symm
  | some groups =>
      have user : (groups.place lib).2.2.head? ≠ some ':' := by
        intro colon
        simp only [Groups.place] at colon
        by_cases isFile : lib.lower groups.type = file
        · rw [if_pos isFile] at colon
          cases colon
        · rw [if_neg isFile] at colon
          apply named
          refine ⟨groups, matched, isFile, ?_⟩
          rcases parts : partition '/' groups.location with ⟨host, path⟩
          rw [parts] at colon
          cases path with
          | none => exact colon
          | some path => exact colon
      obtain ⟨pswd, isPswd⟩ := (splitName_cases _).resolve_right user
      simp only [matched, isPswd] at raised
      cases params : mirrorParams (groups.parm.getD []) with
      | none =>
          simp only [params] at raised
          exact (Except.error.inj raised).symm
      | some params' =>
          simp only [params] at raised
          cases raised

section Outcome

variable {ε : Type} {re : Regexes ε} {ud : MirrorData}
  {replacements : Dict Text Text} {mirrortarball : Text} {outcomes : Outcomes}
  {lib : Urllib} {findUrl replaceUrl : Text} {uri find replace : MirrorTokens}

theorem ne_nil_of_decodemirrorurl {url : Text} {tokens : MirrorTokens}
    (accepted : decodemirrorurl lib url =
      (.ok tokens : Except (ReplaceError ε) MirrorTokens)) :
    url ≠ [] := by
  rintro rfl
  cases accepted

theorem uriReplace_eq
    (isUri : decodemirrorurl lib ud.url =
      (.ok uri : Except (ReplaceError ε) MirrorTokens))
    (isFind : decodemirrorurl lib findUrl =
      (.ok find : Except (ReplaceError ε) MirrorTokens))
    (isReplace : decodemirrorurl lib replaceUrl =
      (.ok replace : Except (ReplaceError ε) MirrorTokens)) {result :
      Option MirrorTokens}
    (outcome : replaced re ud replacements mirrortarball uri find replace =
      .ok result) :
    uriReplace re ud replacements mirrortarball lib findUrl replaceUrl =
      match result with
      | none => .ok none
      | some tokens =>
          match encodeurl lib tokens.toDecoded with
          | none => .error .missingParameter
          | some text => .ok (if text = ud.url then none else some text) := by
  have given : ¬ (ud.url = [] ∨ findUrl = [] ∨ replaceUrl = []) := by
    rintro (empty | empty | empty)
    · exact ne_nil_of_decodemirrorurl isUri empty
    · exact ne_nil_of_decodemirrorurl isFind empty
    · exact ne_nil_of_decodemirrorurl isReplace empty
  rw [uriReplace, if_neg given, isUri, isFind, isReplace]
  simp only [bind, Except.bind, outcome]
  cases result with
  | none => rfl
  | some tokens => cases encodeurl lib tokens.toDecoded <;> rfl

/-- `uri_replace` returns nothing where the entry does not apply, or if the
result is the URL itself, and else the URL that is expected; it raises only if
that has no type.  A text that is brought in by a replacement is not replaced
again, unless a later token occurs in it or with its neighbours.
`decodemirrorurl` raises only `MalformedUrl`, if there is a user name before a
colon. -/
theorem uriReplace_outcome
    (isUri : decodemirrorurl lib ud.url =
      (.ok uri : Except (ReplaceError ε) MirrorTokens))
    (isFind : decodemirrorurl lib findUrl =
      (.ok find : Except (ReplaceError ε) MirrorTokens))
    (isReplace : decodemirrorurl lib replaceUrl =
      (.ok replace : Except (ReplaceError ε) MirrorTokens))
    (isOf : outcomes.Of re replacements uri find replace)
    (present : Present replacements mirrortarball uri find replace) :
    (¬ Applies replacements mirrortarball outcomes uri find replace →
      uriReplace re ud replacements mirrortarball lib findUrl replaceUrl =
        .ok none) ∧
    (Applies replacements mirrortarball outcomes uri find replace →
      uriReplace re ud replacements mirrortarball lib findUrl replaceUrl =
        match encodeurl lib
          (expected ud replacements mirrortarball outcomes uri
            replace).toDecoded with
        | none => .error .missingParameter
        | some text => .ok (if text = ud.url then none else some text)) ∧
    (∀ template, EachUntouched replacements (original template) →
      replaceEach replacements template =
        erased (replaceEachOriginal replacements (original template))) ∧
    ∀ url, ¬ UnnamedUser lib url → ∀ error,
      decodemirrorurl lib url =
        (.error error : Except (ReplaceError ε) MirrorTokens) →
      error = .malformedUrl := by
  obtain ⟨applies, out⟩ :=
    @replaced_eq ε re ud replacements mirrortarball outcomes uri find replace
      isOf present
  refine ⟨?_, ?_, ?_, ?_⟩
  · exact fun noMatch => uriReplace_eq isUri isFind isReplace (out noMatch)
  · exact fun isMatch => uriReplace_eq isUri isFind isReplace (applies isMatch)
  · intro template untouched
    have same := replaceEach_eq untouched
    rwa [erased_original] at same
  · exact fun url named error raised => malformed_of_decodemirrorurl named
      raised

end Outcome

/-- Patterns of letters, digits and slashes, perhaps with a `$` at the end, and
templates without a backslash. -/
def literalRegexes : Regexes Unit where
  isMatch := fun pattern text => .ok <|
    if pattern.getLast? = some '$' then decide (text = pattern.dropLast)
    else pattern.isPrefixOf text
  sub := fun pattern template text => .ok <|
    if pattern.getLast? = some '$' then template
    else template ++ text.drop pattern.length

/-- `git://h/a;x=1` -/
def gitMirrored : Text :=
  ['g', 'i', 't', ':', '/', '/', 'h', '/', 'a', ';', 'x', '=', '1']

/-- `git://h/;x=1` -/
def gitFind : Text :=
  ['g', 'i', 't', ':', '/', '/', 'h', '/', ';', 'x', '=', '1']

/-- `http://m/HOST/` -/
def hostReplace : Text :=
  ['h', 't', 't', 'p', ':', '/', '/', 'm', '/', 'H', 'O', 'S', 'T', '/']

/-- The replacement of `HOST` only. -/
def hostReplacement : Dict Text Text :=
  [(['H', 'O', 'S', 'T'], ['h'])]

theorem uriReplace_outcome_git :
    uriReplace literalRegexes ⟨gitMirrored, [], false⟩ hostReplacement []
      plainUrllib gitFind hostReplace = .ok (some
        ['h', 't', 't', 'p', ':', '/', '/', 'm', '/', 'h', '/', 'a', ';', 'x',
          '=', '1']) := by
  let outcomes : Outcomes := ⟨fun _ => true, fun part =>
    match part with
    | .type => ['h', 't', 't', 'p']
    | .host => ['m']
    | .path => ['/', 'h', '/', 'a']
    | _ => []⟩
  have outcome :=
    @uriReplace_outcome Unit literalRegexes ⟨gitMirrored, [], false⟩
    hostReplacement [] outcomes plainUrllib gitFind hostReplace
    ⟨git, ['h'], ['/', 'a'], [], [], [(['x'], ['1'])]⟩
    ⟨git, ['h'], ['/'], [], [], [(['x'], ['1'])]⟩
    ⟨['h', 't', 't', 'p'], ['m'], ['/', 'H', 'O', 'S', 'T', '/'], [], [], []⟩
    (by decide) (by decide) (by decide)
    ⟨fun part => by cases part <;> rfl, fun part _ _ => by cases part <;> rfl⟩
    (.inr (by decide))
  rw [outcome.2.1 ⟨fun part => .inr rfl, .inr (by decide)⟩]
  decide

/-- `http://a@h/p` -/
def namedMirrored : Text :=
  ['h', 't', 't', 'p', ':', '/', '/', 'a', '@', 'h', '/', 'p']

/-- `http://b@h/p` -/
def otherFind : Text :=
  ['h', 't', 't', 'p', ':', '/', '/', 'b', '@', 'h', '/', 'p']

/-- `http://c@m/p` -/
def namedReplace : Text :=
  ['h', 't', 't', 'p', ':', '/', '/', 'c', '@', 'm', '/', 'p']

/-- The user name that is to be found is another one, but that of the
replacement is taken as it is. -/
theorem uriReplace_other_user : ∃ uri find replace,
    decodemirrorurl plainUrllib namedMirrored =
      (.ok uri : Except (ReplaceError Unit) MirrorTokens) ∧
    decodemirrorurl plainUrllib otherFind =
      (.ok find : Except (ReplaceError Unit) MirrorTokens) ∧
    decodemirrorurl plainUrllib namedReplace =
      (.ok replace : Except (ReplaceError Unit) MirrorTokens) ∧
    literalRegexes.isMatch find.user uri.user = .ok false ∧
    uriReplace literalRegexes ⟨namedMirrored, [], false⟩ []
      [] plainUrllib otherFind namedReplace ≠ .ok none := by
  refine ⟨⟨['h', 't', 't', 'p'], ['h'], ['/', 'p'], ['a'], [], []⟩,
    ⟨['h', 't', 't', 'p'], ['h'], ['/', 'p'], ['b'], [], []⟩,
    ⟨['h', 't', 't', 'p'], ['m'], ['/', 'p'], ['c'], [], []⟩, ?_, ?_, ?_, ?_,
    ?_⟩
  · decide
  · decide
  · decide
  · decide
  · decide

end Nvbmc.Fetch2
