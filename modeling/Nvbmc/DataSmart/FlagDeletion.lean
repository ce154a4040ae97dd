import Nvbmc.DataSmart.SameReads

/-!
# Deleting flags

`delVarFlag` deletes a weak default only along with the flag itself, and
`delVarFlags` deletes a variable that has no content from the dictionary of the
store, so that what is inherited shows again.
-/

namespace Nvbmc.DataSmart

open Library Store

namespace Data

variable (data : Data) (var : Text)

theorem findVar_setFlags (flags : Flags) (other : Text) :
    (data.setFlags var flags).findVar other =
      if other = var then some flags else data.findVar other := by
  rw [findVar, setFlags]
  simp only [List.findSome?_cons, Dict.get?_set]
  split_ifs
  · rfl
  · rfl

theorem ownFlags_makeShadowCopy :
    (data.makeShadowCopy var).ownFlags var = (data.findVar var).getD [] := by
  rw [makeShadowCopy, ownFlags, findVar]
  split_ifs with own
  · obtain ⟨flags, held⟩ :=
      Option.ne_none_iff_exists'.mp (Dict.get?_ne_none_iff.mpr own)
    simp [held]
  · simp

theorem findVar_makeShadowCopy (other : Text) (different : other ≠ var) :
    (data.makeShadowCopy var).findVar other = data.findVar other := by
  rw [makeShadowCopy]
  split_ifs
  · rfl
  · rw [findVar, findVar]
    simp only [List.findSome?_cons, Dict.get?_set, if_neg different]
    rfl

theorem findVar_makeShadowCopy_self :
    ((data.makeShadowCopy var).findVar var).getD [] =
      (data.findVar var).getD [] := by
  rw [makeShadowCopy]
  split_ifs
  · rfl
  · simp [findVar, Dict.get?_set_self]

/-- What a variable has in the stores that this one was copied from. -/
def inherited : Option Flags :=
  data.parents.findSome? (·.get? var)

/-- What `delVarFlags` leaves of a variable. -/
def flagsLeft : Option Flags :=
  match ((data.findVar var).getD []).get? contentFlag with
  | some content => some [(contentFlag, content)]
  | none => data.inherited var

theorem parents_makeShadowCopy : (data.makeShadowCopy var).parents =
    data.parents := by
  rw [makeShadowCopy]
  split_ifs
  · rfl
  · rfl

theorem findVar_delVarFlags (other : Text) :
    (data.delVarFlags var).findVar other =
      if other = var then data.flagsLeft var else data.findVar other := by
  rw [delVarFlags, flagsLeft]
  simp only [ownFlags_makeShadowCopy]
  cases ((data.findVar var).getD []).get? contentFlag with
  | some content =>
      simp only [findVar_setFlags]
      split_ifs with same
      · rfl
      · exact data.findVar_makeShadowCopy var other same
  | none =>
      simp only [inherited, findVar, List.findSome?_cons, Dict.get?_del,
        parents_makeShadowCopy]
      split_ifs with same
      · rw [same]
      · have copied := data.findVar_makeShadowCopy var other same
        rw [findVar, findVar] at copied
        simpa only [List.findSome?_cons, parents_makeShadowCopy] using copied

/-- `getVarFlags` shows a name of the dictionary: a weak default as its flag,
when the flag itself is not set, and else what is not internal. -/
def isShown (flags : Flags) (name : Text) : Bool :=
  if defaultvalFlag.isPrefixOf name then
    decide (name.drop defaultvalFlag.length ∉ flags.keys)
  else !(['_'].isPrefixOf name || [':'].isPrefixOf name)

def showsNone (flags : Flags) : Bool :=
  flags.all fun entry => !isShown flags entry.1

theorem set_ne_nil (flags : Flags) (flag : Text) (value : Value) :
    flags.set flag value ≠ [] := by
  cases flags with
  | nil => simp [Dict.set]
  | cons entry rest =>
      rw [Dict.set]
      split_ifs
      · simp
      · simp

theorem foldl_eq_nil_iff {step : Flags → Text × Value → Flags}
    {adds : Text × Value → Bool}
    (each : ∀ shown entry, step shown entry = [] ↔ shown = [] ∧
      adds entry = false)
    (entries shown : Flags) :
    entries.foldl step shown = [] ↔ shown = [] ∧ ∀ entry ∈ entries,
      adds entry = false := by
  induction entries generalizing shown with
  | nil => simp
  | cons entry rest induction =>
      rw [List.foldl_cons, induction, each, List.forall_mem_cons, and_assoc]

/-- `getVarFlags` returns `None` when no flag is shown. -/
theorem getVarFlags_eq_none_iff :
    data.getVarFlags var false = none ↔ showsNone ((data.findVar var).getD []) =
      true := by
  rw [getVarFlags, showsNone]
  generalize (data.findVar var).getD [] = flags
  simp only [ite_eq_left_iff, reduceCtorEq, imp_false, Decidable.not_not]
  rw [foldl_eq_nil_iff]
  · simp only [true_and, List.all_eq_true, Bool.not_eq_eq_eq_not, Bool.not_true]
    exact Iff.rfl
  · intro shown entry
    rw [isShown]
    by_cases default : defaultvalFlag.isPrefixOf entry.1
    · by_cases set : entry.1.drop defaultvalFlag.length ∈ flags.keys
      · simp [default, set]
      · simp [default, set, set_ne_nil]
    · by_cases internal :
        (['_'].isPrefixOf entry.1 || [':'].isPrefixOf entry.1) = true
      · simp [default, internal]
      · simp [default, internal, set_ne_nil]

theorem ownValue_eq_none_iff (flag : Text) :
    data.ownValue var flag false = .none ↔
      (((data.findVar var).bind (heldFlag · flag false)).getD .none) =
        .none := by
  rw [ownValue]
  cases (data.findVar var).bind (heldFlag · flag false) with
  | none => simp
  | some value => cases value <;> simp [copied]

theorem heldFlag_of_ne {flag : Text} (different : flag ≠ contentFlag)
    (flags : Flags) :
    heldFlag flags flag false =
      (flags.get? flag).or (flags.get? (defaultvalFlag ++ flag)) := by
  rw [heldFlag]
  cases flags.get? flag with
  | some value => rfl
  | none => simp [different]

theorem findVar_delVarFlag (flag : Text) :
    ((data.delVarFlag var flag).findVar var).getD [] =
      if flag ∈ ((data.findVar var).getD []).keys then
        (((data.findVar var).getD []).del flag).del (defaultvalFlag ++ flag)
      else (data.findVar var).getD [] := by
  rw [delVarFlag]
  simp only [ownFlags_makeShadowCopy]
  by_cases empty : (data.findVar var).getD [] = []
  · simp [empty, Dict.keys]
  · rw [if_neg empty]
    split_ifs
    · simp [findVar_setFlags]
    · exact data.findVar_makeShadowCopy_self var

end Data

section Read

variable (python : Python) (fuel : ℕ)

/-- `getVarFlag(var, flag)` in a store. -/
def readFlag (var flag : Text) : Run Store Value := do
  let (value, _) ← reading fun data => getVarFlag python data fuel var flag
    Mode.expanded
  pure value

/-- `getVar(var)` in a store. -/
def readVar (var : Text) : Run Store Value :=
  reading fun data => getVar python data fuel var

end Read

section Flag

variable {python : Python} {fuel : ℕ} {read : Reader} {data : Data}

theorem expandWithRefs_text {varname : Option Text} {rounds : ℕ} {text : Text}
    {parse : VariableParse} {memo after : Memo}
    (returned : expandWithRefs read python data varname rounds (.text text)
      memo = (some parse, after)) :
    ∃ expanded, parse.value = .text expanded := by
  obtain ⟨expansion, between, _, last⟩ := Run.bind_eq_some_iff.mp returned
  simp only [Run.pure_apply, Prod.mk.injEq, Option.some.injEq] at last
  exact ⟨expansion.text, by rw [← last.1]⟩

theorem expandWithRefs_eq_none_iff (varname : Option Text) (rounds : ℕ)
    (value : Value) (memo : Memo) :
    (expandWithRefs read python data varname rounds value memo).1.map
      (·.value) = some .none ↔ value = .none := by
  cases value with
  | text text =>
      constructor
      · intro nothing
        obtain ⟨parse, returned, isNone⟩ := Option.map_eq_some_iff.mp nothing
        obtain ⟨expanded, isText⟩ := expandWithRefs_text (Prod.ext returned rfl)
        rw [isNone] at isText
        cases isText
      · intro isNone
        cases isNone
  | none => simp [expandWithRefs]
  | operations entries => simp [expandWithRefs]
  | cell id => simp [expandWithRefs]
  | names names => simp [expandWithRefs]
  | object tag => simp [expandWithRefs]

variable {store : Store}

theorem readFlag_eq_none_iff {var flag : Text} (isFlag : flag ≠ contentFlag)
    (empty : store.expandCache = []) :
    (readFlag python fuel var flag store).1 = some .none ↔
      flag = [] ∨ store.ownValue var flag false = .none := by
  have expanded :=
    @expandWithRefs_eq_none_iff python (readContent python store.toData fuel)
    store.toData (some (var ++ '[' :: flag ++ [']'])) fuel
      (store.ownValue var flag false)
    store.toMemo
  rw [readFlag, Run.bind_fst fun _ _ => rfl]
  by_cases unset : flag = []
  · simp [reading, getVarFlag, unset]
  · rw [← expanded]
    simp only [reading, getVarFlag, unset, isFlag, if_false, false_or,
      Run.get_bind_apply, cachedRead, empty, Dict.get?_nil]
    rw [if_pos (show (Mode.expanded.expand || Mode.expanded.retparser) =
      true from rfl)]
    rw [@Run.bind_fst _ _ _ _ _ _ (fun parser : VariableParse =>
      (parser.value, (none : Option VariableParse))) (fun _ _ => rfl),
        Option.map_map]
    exact Iff.rfl

def contentIn (flags : Option Flags) : Value :=
  (flags.bind (heldFlag · contentFlag false)).getD .none

variable (var : Text)

theorem ownValue_content :
    data.ownValue var contentFlag false =
      data.copied (contentIn (data.findVar var)) := by
  rw [Data.ownValue, contentIn]
  cases (data.findVar var).bind (heldFlag · contentFlag false) with
  | none => rfl
  | some value => rfl

/-- The flags hold the same value and the same operations; only the active
entries count where the list of overrides is known. -/
def SameContent (overrides : Option (List Text)) (flags left : Option Flags) :
    Prop :=
  contentIn flags = contentIn left ∧
    ((∀ keyword ∈ setvarKeywords, flags.bind (·.get? keyword) =
      left.bind (·.get? keyword)) ∨
      ∃ active, overrides = some active ∧ ∀ keyword ∈ setvarKeywords,
        activeOperation active flags keyword =
          activeOperation active left keyword)

theorem delVarFlags_overridedata : (data.delVarFlags var).overridedata =
    data.overridedata := by
  rw [Data.delVarFlags, Data.makeShadowCopy]
  split_ifs
  all_goals
    split
    all_goals rfl

theorem delVarFlags_cells : (data.delVarFlags var).cells = data.cells := by
  rw [Data.delVarFlags, Data.makeShadowCopy]
  split_ifs
  all_goals
    split
    all_goals rfl

theorem ownValue_delVarFlags {var : Text}
    (content : contentIn (data.findVar var) = contentIn (data.flagsLeft var))
    (other : Text) :
    data.ownValue other contentFlag false =
      (data.delVarFlags var).ownValue other contentFlag false := by
  have copied : ∀ value, (data.delVarFlags var).copied value =
      data.copied value := by
    intro value
    cases value with
    | cell id => simp only [Data.copied, delVarFlags_cells]
    | _ => rfl
  rw [ownValue_content, ownValue_content, copied, Data.findVar_delVarFlags]
  split_ifs with same
  · rw [same, content]
  · rfl

theorem contentFlag_ne_nil : contentFlag ≠ [] := by decide

theorem readVar_fst (store : Store) :
    (readVar python fuel var store).1 =
      (readContent python store.toData fuel var Mode.expanded
        store.toMemo).1.map Prod.fst := by
  show (getVar python store.toData fuel var store.toMemo).1 = _
  rw [getVar, Run.bind_fst fun _ _ => rfl, getVarFlag,
    if_neg contentFlag_ne_nil, if_pos rfl]

/-- The value that is read does not depend on what the expressions answer to a
text where the other data have another answer. -/
def Unasked (python : Python) (fuel : ℕ) (store : Store) (other : Data)
    (var : Text) : Prop :=
  ∀ answers : Python, (∀ overrides varname text,
      answers store.toData overrides varname text =
          python store.toData overrides varname text ∨
        python store.toData overrides varname text ≠
          python other overrides varname text) →
    ((clearCache >>= fun _ => readVar answers fuel var) store).1 =
      ((clearCache >>= fun _ => readVar python fuel var) store).1

theorem readVar_congr {var : Text} {answers : Python}
    (samePython : answers store.toData = python store.toData) :
    ((clearCache >>= fun _ => readVar answers fuel var) store).1 =
      ((clearCache >>= fun _ => readVar python fuel var) store).1 := by
  have sameReads : SameReads (fun _ => True) store.toData store.toData :=
    .of_held (fun _ => rfl) (fun _ => rfl) fun _ _ _ => rfl
  have agree :=
    (readContent_agree samePython sameReads fuel var _ plain_expanded
    { store.toMemo with expandCache := [] } trivial).1
  show (readVar answers fuel var _).1 = (readVar python fuel var _).1
  rw [readVar_fst, readVar_fst]
  exact congrArg (fun run => run.1.map Prod.fst) agree

theorem Unasked.of_same {other : Data} {var : Text}
    (samePython : python store.toData = python other) :
    Unasked python fuel store other var := by
  intro answers answered
  apply readVar_congr
  funext overrides varname text
  exact (answered overrides varname text).resolve_right
    (not_not_intro (by rw [samePython]))

theorem getVar_delVarFlags {var : Text}
    (unasked : Unasked python fuel store (store.toData.delVarFlags var) var)
    (same : SameContent store.overrides (store.findVar var)
      (store.flagsLeft var)) :
    ((delVarFlags var >>= fun _ => readVar python fuel var) store).1 =
      ((clearCache >>= fun _ => readVar python fuel var) store).1 := by
  obtain ⟨content, operations⟩ := same
  -- these answer in the store as they do after the deletion
  let answers : Python := fun _ => python (store.toData.delVarFlags var)
  have asAfter : answers store.toData = python (store.toData.delVarFlags var) :=
    rfl
  rw [← unasked answers fun _ _ _ => (eq_or_ne _ _).imp Eq.symm id]
  have variants : ∀ other, store.overridedata.get? other =
      (store.toData.delVarFlags var).overridedata.get? other := by
    intro other
    rw [delVarFlags_overridedata]
  have agree : (readContent answers store.toData fuel var Mode.expanded
        { store.toMemo with expandCache := [] }) =
      readContent python (store.toData.delVarFlags var) fuel var Mode.expanded
        { store.toMemo with expandCache := [] } := by
    rcases operations with held | ⟨overrides, known, active⟩
    · have sameReads : SameReads (fun _ => True) store.toData
          (store.toData.delVarFlags var) := by
        apply SameReads.of_held variants (ownValue_delVarFlags content)
        intro other keyword member
        rw [Data.findVar_delVarFlags]
        split_ifs with same
        · rw [same, held keyword member]
        · rfl
      exact (readContent_agree asAfter sameReads fuel var _ plain_expanded _
        trivial).1
    · have sameReads : SameReads (Known overrides) store.toData
          (store.toData.delVarFlags var) := by
        apply SameReads.of_active variants (ownValue_delVarFlags content)
        intro other keyword member
        rw [Data.findVar_delVarFlags]
        split_ifs with same
        · rw [same, active keyword member]
        · rfl
      exact (readContent_agree asAfter sameReads fuel var _ plain_expanded
        { store.toMemo with expandCache := [] } known).1
  show (readVar python fuel var _).1 = (readVar answers fuel var _).1
  rw [readVar_fst, readVar_fst]
  exact congrArg (fun run => run.1.map Prod.fst) agree.symm

theorem readFlag_delVarFlag_iff {var flag : Text}
    (isFlag : flag ≠ contentFlag) :
    ((delVarFlag var flag >>= fun _ => readFlag python fuel var flag) store).1 =
      some .none ↔ flag = [] ∨ flag ∈ ((store.findVar var).getD []).keys ∨
        (((store.findVar var).getD []).get? (defaultvalFlag ++ flag)).getD
          .none = .none := by
  show (readFlag python fuel var flag
    { store with
      toData := store.toData.delVarFlag var flag, expandCache := [] }).1 = _ ↔ _
  rw [readFlag_eq_none_iff isFlag rfl]
  apply or_congr Iff.rfl
  rw [Data.ownValue_eq_none_iff]
  have held : ∀ flags : Option Flags, (flags.bind (heldFlag · flag false)).getD
      .none = (((flags.getD []).get? flag).or
        ((flags.getD []).get? (defaultvalFlag ++ flag))).getD .none := by
    intro flags
    cases flags with
    | none => rfl
    | some flags =>
        rw [Option.bind_some, Data.heldFlag_of_ne isFlag]
        rfl
  rw [held, Data.findVar_delVarFlag]
  by_cases present : flag ∈ ((store.findVar var).getD []).keys
  · simp [present, Dict.get?_del]
  · have absent : ((store.findVar var).getD []).get? flag = none := by
      by_contra found
      exact present (Dict.get?_ne_none_iff.mp found)
    rw [if_neg present, absent]
    simp [present]

theorem showsNone_content (value : Value) :
    Data.showsNone [(contentFlag, value)] = true := by
  have noDefault : ¬ defaultvalFlag <+: contentFlag := by decide
  have internal : ['_'] <+: contentFlag := by decide
  simp [Data.showsNone, Data.isShown, noDefault, internal]

theorem getVarFlags_delVarFlags_iff {var : Text} :
    (delVarFlags var store).2.getVarFlags var false = none ↔
      contentFlag ∈ ((store.findVar var).getD []).keys ∨
        Data.showsNone ((store.inherited var).getD []) = true := by
  show (store.toData.delVarFlags var).getVarFlags var false = none ↔ _
  rw [Data.getVarFlags_eq_none_iff, Data.findVar_delVarFlags, if_pos rfl,
    Data.flagsLeft]
  cases content : ((store.findVar var).getD []).get? contentFlag with
  | some value =>
      simp [showsNone_content, Dict.mem_keys_of_get? content]
  | none =>
      have absent : contentFlag ∉ ((store.findVar var).getD []).keys := by
        intro member
        exact Dict.get?_ne_none_iff.mpr member content
      simp [absent]

/-- The expressions are left as they are. -/
def plainPython : Python :=
  fun _ _ _ text => some (text, [], [])

def flagPython : Python :=
  fun data _ _ text =>
    match data.ownValue "A".toList "f".toList false with
    | .text value => some (value, [], [])
    | _ => some (text, [], [])

/-- A store with a variable that has a flag, a weak default of the flag and a
value, copied from one where the variable has another flag. -/
def flaggedStore : Store :=
  { (Store.new []) with
    dict :=
      [("A".toList,
        [(contentFlag, .text "x".toList), ("f".toList, .text "1".toList),
      (defaultvalFlag ++ "f".toList, .text "2".toList)])]
    parents := [[("A".toList, [("g".toList, .text "3".toList)])]] }

theorem readVar_flaggedStore (python : Python) :
    ((clearCache >>= fun _ => readVar python 3 "A".toList) flaggedStore).1 =
      some (.text "x".toList) := by
  rfl

end Flag

end Nvbmc.DataSmart
