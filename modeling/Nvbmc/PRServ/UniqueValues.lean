import Nvbmc.PRServ.Server

/-!
# No value for two checksums

A value is stored for a second checksum of a package only where it is not
computed from the greatest local value at the moment it is stored: a value taken
over from the upstream server that was given locally before, a value behind the
upstream maximum that another request stored while this one waited, or an
increased value when the search for the greatest value was misled by a prefix.
`Handler.Clear` rules these out before a handler resumes.
-/

namespace Nvbmc.PRServ

open Nvbmc.Library

/-- No value of the set differs from `value` only in a greater last number. -/
def TopSibling (values : Set Revision) (value : Revision) : Prop :=
  ∀ other ∈ values, other.lead = value.lead → other.last ≤ value.last

theorem TopSibling.increase_not_mem {values : Set Revision} {value : Revision}
    (top : TopSibling values value) : value.increase ∉ values := by
  intro member
  have bound := top _ member rfl
  simp only [Revision.increase] at bound
  omega

theorem topSibling_of_isGreatest {values : Set Revision} {value : Revision}
    (greatest : IsGreatest values value) : TopSibling values value := by
  intro other member leads
  by_contra above
  have less := lt_of_last_lt leads.symm (not_le.mp above)
  exact absurd (greatest.2 member) less.not_ge

/-- Storing the value for the checksum adds no second checksum for it. -/
def FreshFor (rows : List Row) (package : Package) (checksum : Text)
    (value : Revision) : Prop :=
  ∀ row ∈ rows, row.package = package → row.value = value →
    row.checksum = checksum

theorem UniqueValues.append {rows : List Row} {row : Row}
    (unique : UniqueValues rows)
    (fresh : FreshFor rows row.package row.checksum row.value) :
    UniqueValues (rows ++ [row]) := by
  intro first firstMember second secondMember packages values
  rw [List.mem_append, List.mem_singleton] at firstMember secondMember
  rcases firstMember with firstOld | rfl
  · rcases secondMember with secondOld | rfl
    · exact unique first firstOld second secondOld packages values
    · exact fresh first firstOld packages values
  · rcases secondMember with secondOld | rfl
    · exact (fresh second secondOld packages.symm values.symm).symm
    · rfl

namespace PRTable

variable {ordering : RowOrder} {table : PRTable} {package : Package}
  {checksum : Text} {value : Revision}

theorem freshFor_of_not_mem (absent : value ∉ table.stored package) :
    FreshFor table.rows package checksum value :=
  fun row member ofPackage hasValue =>
    absurd ⟨row, member, ofPackage, hasValue⟩ absent

theorem freshFor_own (unique : UniqueValues table.rows)
    (own : value ∈ table.storedFor package checksum) :
    FreshFor table.rows package checksum value :=
  fun row member ofPackage hasValue =>
    unique row member _ own ofPackage hasValue

theorem storeValue_unique (unique : UniqueValues table.rows)
    (fresh : FreshFor table.rows package checksum value) :
    UniqueValues (table.storeValue ordering package checksum value).rows := by
  rw [storeValue]
  split_ifs
  · exact unique.append fresh
  · exact unique

theorem findValue_mem {history : Bool}
    (found : table.findValue ordering package checksum history = some value) :
    value ∈ table.storedFor package checksum := by
  rw [findValue] at found
  split_ifs at found
  · exact mem_selectChecksum.mp (extremum_mem found)
  · exact mem_selectChecksum.mp (extremum_mem found)

/-- What `_get_value` computes is fresh when the greatest value it finds has no
greater sibling, and in any case when it returns a historical value. -/
theorem valueFor_fresh {history : Bool} (unique : UniqueValues table.rows)
    (top : (history = true ∧ (table.storedFor package checksum).Nonempty) ∨
      ∀ localMax,
        table.findPackageMaxValue ordering package = some localMax →
          TopSibling (table.stored package) localMax) :
    FreshFor table.rows package checksum
      (table.valueFor ordering package checksum history) := by
  rw [valueFor]
  split
  · next missing =>
      apply freshFor_of_not_mem
      rw [findPackageMaxValue_eq_none.mp missing]
      exact Set.notMem_empty _
  · next localMax found =>
      have increased : ¬ (history = true ∧
          (table.storedFor package checksum).Nonempty) →
          FreshFor table.rows package checksum localMax.increase :=
        fun notHistorical => freshFor_of_not_mem
          ((top.resolve_left notHistorical) localMax found).increase_not_mem
      split
      · next missing =>
          apply increased
          rintro ⟨_, known⟩
          exact known.ne_empty (findValue_eq_none.mp missing)
      · next value known =>
          have own := freshFor_own unique (findValue_mem known)
          split_ifs with historical
          · exact own
          · exact increased fun both => historical both.1
          · exact own

theorem like_dotZero (base : Revision) : like base base.dotZero := by
  rw [like, base.dotZero_text, List.isPrefixOf_iff_prefix]
  exact ⟨['0'], by simp⟩

theorem findNewSubvalue_fresh {base : Revision}
    (top : ∀ value, table.findMaxSubvalue ordering package base = some value →
      TopSibling (table.stored package) value) :
    FreshFor table.rows package checksum
      (table.findNewSubvalue ordering package base) := by
  rw [findNewSubvalue]
  split
  · next value found =>
      exact freshFor_of_not_mem (top value found).increase_not_mem
  · next missing =>
      apply freshFor_of_not_mem
      rintro ⟨row, member, ofPackage, isDotZero⟩
      rw [findMaxSubvalue, extremum_eq_none,
        List.eq_nil_iff_forall_not_mem] at missing
      apply missing row.value
      rw [mem_select]
      exact ⟨row, member, by simp [ofPackage, isDotZero, like_dotZero], rfl⟩

end PRTable

/-- The condition on an answered handler before it resumes. -/
def Handler.Clear (ordering : RowOrder) (table : PRTable)
    (upstreamRows : List Row) : Handler → Prop
  | ⟨.maxPackage request (some value), some upstreamMax⟩ =>
      request.history = false → ∀ localMax,
        table.findPackageMaxValue ordering request.package = some localMax →
          revisionSmaller value localMax →
            ∀ base, upstreamMax = some base →
              ¬ revisionSmaller localMax.increase base →
                TopSibling (table.stored request.package) localMax
  | ⟨.testKnown request _ upstreamMax, some _⟩ =>
      ∀ other ∈ table.stored request.package, other < upstreamMax
  | ⟨.testPackage request, some known⟩ =>
      known = false → ∀ localMax,
        table.findPackageMaxValue ordering request.package = some localMax →
          TopSibling (table.stored request.package) localMax
  | ⟨.testNew request, some upstreamValue⟩ =>
      ∀ value, upstreamValue = some value → ∀ row ∈ table.rows,
        row.package = request.package → row.value = value →
          row.checksum = request.checksum ∨ row ∈ upstreamRows
  | ⟨.maxNew request, some upstreamMax⟩ =>
      ∀ base, upstreamMax = some base → ∀ value,
        table.findMaxSubvalue ordering request.package base = some value →
          TopSibling (table.stored request.package) value
  | _ => True

/-- What a waiting handler remembers is still so. -/
def Handler.Backed (table : PRTable) (upstreamRows : List Row) :
    Handler → Prop
  | ⟨.maxPackage request (some value), _⟩ =>
      value ∈ table.storedFor request.package request.checksum
  | ⟨.testNew request, some upstreamValue⟩ =>
      ∀ value, upstreamValue = some value →
        ⟨request.package, request.checksum, value⟩ ∈ upstreamRows
  | _ => True

theorem Handler.Backed.mono {table wider : PRTable}
    {upstreamRows widerRows : List Row} {handler : Handler}
    (tableGrows : table.rows ⊆ wider.rows)
    (upstreamGrows : upstreamRows ⊆ widerRows)
    (backed : handler.Backed table upstreamRows) :
    handler.Backed wider widerRows := by
  obtain ⟨waiting, answer⟩ := handler
  cases waiting with
  | maxPackage request value =>
      cases value with
      | none => trivial
      | some value => exact tableGrows backed
  | testKnown request existingValue upstreamMax => trivial
  | testPackage request => trivial
  | testNew request =>
      cases answer with
      | none => trivial
      | some upstreamValue =>
          exact fun value isValue => upstreamGrows (backed value isValue)
  | maxNew request => trivial

namespace PRTable

variable {ordering : RowOrder} {table : PRTable}

structure Extends (table wider : PRTable) : Prop where
  grows : table.rows ⊆ wider.rows
  unique : UniqueValues wider.rows

theorem Extends.refl (unique : UniqueValues table.rows) : Extends table table :=
  ⟨List.Subset.refl _, unique⟩

theorem extends_storeValue {package : Package} {checksum : Text}
    {value : Revision} (unique : UniqueValues table.rows)
    (fresh : FreshFor table.rows package checksum value) :
    Extends table (table.storeValue ordering package checksum value) where
  grows := by
    rw [storeValue]
    split_ifs
    · exact List.subset_append_left _ _
    · exact List.Subset.refl _
  unique := storeValue_unique unique fresh

end PRTable

/-- An outcome leaves no value for two checksums. -/
def Outcome.Keeps (table : PRTable) (upstreamRows : List Row) :
    Outcome → Prop
  | .done _ after => table.Extends after
  | .waits waiting => (⟨waiting, none⟩ : Handler).Backed table upstreamRows
  | .failed => True

namespace PRTable

variable {ordering : RowOrder} {table : PRTable} {upstreamRows : List Row}
  {request : Request} (unique : UniqueValues table.rows)
include unique

theorem storeDone_keeps {value : Revision}
    (fresh : FreshFor table.rows request.package request.checksum value) :
    (table.storeDone ordering request value).Keeps table upstreamRows := by
  rw [storeDone]
  split_ifs
  · exact .refl unique
  · exact extends_storeValue unique fresh

theorem getValueDone_keeps
    (fresh : FreshFor table.rows request.package request.checksum
      (table.valueFor ordering request.package request.checksum
        request.history)) :
    (table.getValueDone ordering request).Keeps table upstreamRows := by
  rw [getValueDone, getValue]
  split_ifs
  · exact .refl unique
  · exact extends_storeValue unique fresh

theorem knownDone_keeps {existingValue value : Revision}
    (fresh : value ≠ existingValue →
      FreshFor table.rows request.package request.checksum value) :
    (table.knownDone ordering request existingValue value).Keeps table
      upstreamRows := by
  rw [knownDone]
  split_ifs with changed
  · exact storeDone_keeps unique (fresh changed)
  · exact .refl unique

theorem noHistory_keeps {value : Revision} {upstreamMax : Option Revision}
    (clear : ∀ localMax,
      table.findPackageMaxValue ordering request.package = some localMax →
        revisionSmaller value localMax → ∀ base, upstreamMax = some base →
          ¬ revisionSmaller localMax.increase base →
            TopSibling (table.stored request.package) localMax) :
    (table.noHistory ordering request value upstreamMax).Keeps table
      upstreamRows := by
  cases upstreamMax with
  | none => trivial
  | some upstreamMax =>
      rw [noHistory]
      split
      · trivial
      · next localMax found =>
          dsimp only
          split_ifs with behindLocal behindUpstream behindUpstream
          · trivial
          · have top := clear localMax found behindLocal upstreamMax rfl
              (by simpa using behindUpstream)
            exact knownDone_keeps unique fun _ =>
              freshFor_of_not_mem top.increase_not_mem
          · trivial
          · exact knownDone_keeps unique fun changed => absurd rfl changed

theorem resume_keeps {waiting : Waiting} {answer : waiting.Answer}
    (upstreamUnique : UniqueValues upstreamRows)
    (clear : Handler.Clear ordering table upstreamRows ⟨waiting, some answer⟩)
    (backed : Handler.Backed table upstreamRows ⟨waiting, some answer⟩) :
    (table.resume ordering waiting answer).Keeps table upstreamRows := by
  cases waiting with
  | maxPackage request value =>
      cases value with
      | none => trivial
      | some value =>
          rw [resume]
          split_ifs with historical
          · apply getValueDone_keeps unique
            exact valueFor_fresh unique (.inl ⟨historical, value, backed⟩)
          · exact noHistory_keeps unique (clear (by simpa using historical))
  | testKnown request existingValue upstreamMax =>
      have freshMax : upstreamMax ∉ table.stored request.package :=
        fun member => lt_irrefl _ (clear _ member)
      have freshZero : upstreamMax.dotZero ∉ table.stored request.package :=
        fun member => (clear _ member).asymm upstreamMax.lt_dotZero
      cases answer with
      | none =>
          exact knownDone_keeps unique fun _ => freshFor_of_not_mem freshZero
      | some upstreamValue =>
          exact knownDone_keeps unique fun _ => freshFor_of_not_mem freshMax
  | testPackage request =>
      cases answer with
      | false =>
          exact getValueDone_keeps unique
            (valueFor_fresh unique (.inr (clear rfl)))
      | true => trivial
  | testNew request =>
      cases answer with
      | none => trivial
      | some value =>
          apply storeDone_keeps unique
          intro row member ofPackage hasValue
          rcases clear value rfl row member ofPackage hasValue with
            same | upstream
          · exact same
          · exact upstreamUnique row upstream _ (backed value rfl) ofPackage
              hasValue
  | maxNew request =>
      cases answer with
      | none => trivial
      | some base =>
          exact storeDone_keeps unique (findNewSubvalue_fresh (clear base rfl))

theorem beginGetPr_keeps {hasUpstream : Bool}
    (flat : hasUpstream = false → Flat table) :
    (table.beginGetPr ordering hasUpstream request).Keeps table
      upstreamRows := by
  rw [beginGetPr]
  split_ifs with upstream
  · cases found : table.findValue ordering request.package request.checksum
        request.history with
    | none => trivial
    | some value => exact findValue_mem found
  · apply getValueDone_keeps unique
    apply valueFor_fresh unique (.inr _)
    intro localMax found
    apply topSibling_of_isGreatest
    apply findPackageMaxValue_isGreatest _ found
    exact (flat (by simpa using upstream)).prefixFree

end PRTable

namespace ServerState

variable {ordering upstreamOrdering : RowOrder} {state next : ServerState}

def upstreamRows (state : ServerState) : List Row :=
  match state.upstream with
  | none => []
  | some upstream => upstream.rows

/-- The condition on a step. -/
def Clear (ordering : RowOrder) (state : ServerState) : Action → Prop
  | .resume index => ∀ handler ∈ state.handlers[index]?,
      handler.Clear ordering state.table state.upstreamRows
  | _ => True

structure Coherent (state : ServerState) : Prop where
  unique : UniqueValues state.table.rows
  upstreamUnique : UniqueValues state.upstreamRows
  backed : ∀ handler ∈ state.handlers,
    handler.Backed state.table state.upstreamRows
  /-- Without an upstream server nothing waits. -/
  alone : state.upstream = none →
    PRTable.Flat state.table ∧ state.handlers = []

theorem Coherent.start (started : Start state) : Coherent state where
  unique := by simp [UniqueValues, started.empty]
  upstreamUnique := by
    rw [upstreamRows]
    split
    · simp [UniqueValues]
    · next upstream isUpstream => exact started.unique upstream isUpstream
  backed := by simp [started.idle]
  alone := fun _ => ⟨by simp [PRTable.Flat, started.empty], started.idle⟩

variable (coherent : Coherent state)
include coherent

theorem Coherent.settle {before after : List Handler}
    {outcome : Outcome} (beforeHandlers : before ⊆ state.handlers)
    (afterHandlers : after ⊆ state.handlers)
    (keeps : outcome.Keeps state.table state.upstreamRows)
    (alone : state.upstream = none →
      PRTable.Flat (state.settle before after outcome).table ∧
        (state.settle before after outcome).handlers = []) :
    Coherent (state.settle before after outcome) := by
  cases outcome with
  | done value table =>
      refine ⟨keeps.unique, coherent.upstreamUnique, ?_, alone⟩
      intro handler member
      have old : handler ∈ state.handlers := by
        rcases List.mem_append.mp member with early | late
        · exact beforeHandlers early
        · exact afterHandlers late
      exact (coherent.backed handler old).mono keeps.grows
        (List.Subset.refl _)
  | waits waiting =>
      refine ⟨coherent.unique, coherent.upstreamUnique, ?_, alone⟩
      intro handler member
      rcases List.mem_append.mp member with early | late
      · exact coherent.backed handler (beforeHandlers early)
      · rcases List.mem_cons.mp late with isNew | late
        · exact isNew ▸ keeps
        · exact coherent.backed handler (afterHandlers late)
  | failed =>
      refine ⟨coherent.unique, coherent.upstreamUnique, ?_, alone⟩
      intro handler member
      rcases List.mem_append.mp member with early | late
      · exact coherent.backed handler (beforeHandlers early)
      · exact coherent.backed handler (afterHandlers late)

theorem Coherent.request (request : Request) :
    Coherent (state.settle state.handlers []
      (state.table.beginGetPr ordering state.upstream.isSome request)) := by
  apply coherent.settle (List.Subset.refl _) (List.nil_subset _)
  · apply PRTable.beginGetPr_keeps coherent.unique
    intro noUpstream
    exact (coherent.alone (by simpa using noUpstream)).1
  · intro noUpstream
    obtain ⟨flat, idle⟩ := coherent.alone noUpstream
    simp only [noUpstream, Option.isSome_none, PRTable.beginGetPr,
      Bool.false_eq_true, if_false, PRTable.getValueDone, idle]
    refine ⟨?_, rfl⟩
    intro row member
    rcases PRTable.mem_getValue member with earlier | rfl
    · exact flat row earlier
    · exact flat.valueFor request.history

theorem Coherent.answer {upstream : PRTable}
    (isUpstream : state.upstream = some upstream) {index : ℕ}
    {waiting : Waiting}
    (found : state.handlers[index]? = some ⟨waiting, none⟩) :
    Coherent { state with
      handlers := state.handlers.set index
        ⟨waiting, some (upstream.ask upstreamOrdering waiting)⟩ } := by
  have rows : state.upstreamRows = upstream.rows := by
    simp [upstreamRows, isUpstream]
  refine ⟨coherent.unique, coherent.upstreamUnique, ?_, by simp [isUpstream]⟩
  intro handler member
  rcases List.mem_or_eq_of_mem_set member with old | rfl
  · exact coherent.backed handler old
  · have before := coherent.backed _ (List.mem_of_getElem? found)
    cases waiting with
    | maxPackage request value =>
        cases value with
        | none => trivial
        | some value => exact before
    | testKnown request existingValue upstreamMax => trivial
    | testPackage request => trivial
    | testNew request =>
        intro value isValue
        change _ ∈ state.upstreamRows
        rw [rows]
        exact PRTable.findValue_mem isValue
    | maxNew request => trivial

theorem Coherent.resume {index : ℕ}
    {waiting : Waiting} {answer : waiting.Answer}
    (found : state.handlers[index]? = some ⟨waiting, some answer⟩)
    (clear : Handler.Clear ordering state.table state.upstreamRows
      ⟨waiting, some answer⟩) :
    Coherent (state.settle (state.handlers.take index)
      (state.handlers.drop (index + 1))
      (state.table.resume ordering waiting answer)) := by
  have member := List.mem_of_getElem? found
  apply coherent.settle (List.take_subset _ _) (List.drop_subset _ _)
  · exact PRTable.resume_keeps coherent.unique coherent.upstreamUnique clear
      (coherent.backed _ member)
  · intro noUpstream
    rw [(coherent.alone noUpstream).2] at member
    cases member

theorem Coherent.upstreamStores {upstream : PRTable}
    (isUpstream : state.upstream = some upstream) {row : Row}
    (unique : UniqueValues (upstream.rows ++ [row])) :
    Coherent { state with
      upstream := some { upstream with rows := upstream.rows ++ [row] } } := by
  refine ⟨coherent.unique, unique, ?_, by simp⟩
  intro handler member
  apply (coherent.backed handler member).mono (List.Subset.refl _)
  simp [upstreamRows, isUpstream]

theorem Coherent.step {action : Action} (clear : Clear ordering state action)
    (stepped : Step ordering upstreamOrdering state action next) :
    Coherent next := by
  cases action with
  | request request =>
      cases stepped
      exact coherent.request request
  | answer index =>
      simp only [Step, perform] at stepped
      split at stepped
      · next waiting upstream found isUpstream =>
          cases stepped
          exact coherent.answer isUpstream found
      · cases stepped
  | resume index =>
      simp only [Step, perform] at stepped
      split at stepped
      · next waiting answer found =>
          cases stepped
          exact coherent.resume found (clear _ found)
      · cases stepped
  | upstreamStores row =>
      simp only [Step, perform] at stepped
      split at stepped
      · next upstream isUpstream =>
          split_ifs at stepped with unique
          cases stepped
          exact coherent.upstreamStores isUpstream unique
      · cases stepped

omit coherent

theorem unique_values
    (reached : Reachable Start (Step ordering upstreamOrdering)
      (Clear ordering) state) :
    UniqueValues state.table.rows :=
  (reached.invariant (fun _ started => Coherent.start started)
    fun _ _ _ coherent clear stepped => coherent.step clear stepped).unique

theorem unique_values_alone
    (reached : Reachable Start (Step ordering upstreamOrdering)
      (fun state _ => state.upstream = none) state) :
    UniqueValues state.table.rows := by
  refine (reached.invariant (fun _ started => Coherent.start started)
    fun state action _ coherent noUpstream stepped => ?_).unique
  apply coherent.step _ stepped
  cases action with
  | resume index =>
      intro handler found
      simp [(coherent.alone noUpstream).2] at found
  | request request => trivial
  | answer index => trivial
  | upstreamStores row => trivial

theorem clear_of_empty (empty : state.table.rows = []) (action : Action) :
    Clear ordering state action := by
  have nothing : ∀ package, state.table.stored package = ∅ := by
    intro package
    rw [Set.eq_empty_iff_forall_notMem]
    rintro value ⟨row, member, _⟩
    simp [empty] at member
  have top : ∀ package value, TopSibling (state.table.stored package)
      value := by
    intro package value other member
    simp [nothing] at member
  cases action with
  | resume index =>
      intro handler _
      obtain ⟨waiting, answer⟩ := handler
      cases answer with
      | none =>
          cases waiting with
          | maxPackage request value => cases value <;> trivial
          | _ => trivial
      | some answer =>
          cases waiting with
          | maxPackage request value =>
              cases value with
              | none => trivial
              | some value => exact fun _ _ _ _ _ _ _ => top _ _
          | testKnown request existingValue upstreamMax =>
              intro other member
              simp [nothing] at member
          | testPackage request => exact fun _ _ _ => top _ _
          | testNew request =>
              intro value _ row member
              simp [empty] at member
          | maxNew request => exact fun _ _ _ _ => top _ _
  | request request => trivial
  | answer index => trivial
  | upstreamStores row => trivial

section Runs

def requestFor (checksum : String) : Action :=
  .request ⟨examplePackage, checksum.toList, false⟩

/-- A server whose upstream server knows the package with checksum `b`. -/
def known : ServerState where
  table := PRTable.emptyTable false
  upstream := some ⟨false, [⟨examplePackage, "b".toList, .initial⟩]⟩
  handlers := []

/-- Another checksum of the package gets a value behind the upstream one. -/
theorem unique_values_subvalue :
    UniqueValues [⟨examplePackage, "a".toList, Revision.initial.dotZero⟩] := by
  have started : Start known := ⟨rfl, rfl, by
    rintro upstream ⟨⟩
    decide⟩
  have followed : follow (perform .inserted .inserted)
      (fun state _ => state.table.rows = [])
      [requestFor "a", .answer 0, .resume 0, .answer 0, .resume 0, .answer 0,
        .resume 0, .answer 0, .resume 0] known =
      some { known with
        table :=
          ⟨false,
            [⟨examplePackage, "a".toList, Revision.initial.dotZero⟩]⟩ } := by
    rfl
  have reached : Reachable Start (Step .inserted .inserted)
      (fun state _ => state.table.rows = []) _ :=
    .follow (fun _ _ _ performed => performed) _ (.start started) followed
  have cleared : Reachable Start (Step .inserted .inserted) (Clear .inserted)
      _ :=
    reached.mono fun _ action empty => clear_of_empty empty action
  exact unique_values cleared

/-- A server whose upstream server does not know the package yet. -/
def unknown : ServerState where
  table := PRTable.emptyTable false
  upstream := some (PRTable.emptyTable false)
  handlers := []

/-- Checksum `a` is given 0 locally; then the upstream server gives 0 to
checksum `b`, and a local request for `b` takes it over. -/
theorem not_unique_values_upstream :
    ∃ state, Reachable Start (Step .inserted .inserted)
      (fun _ _ => True) state ∧ ¬ UniqueValues state.table.rows := by
  have started : Start unknown := ⟨rfl, rfl, by
    rintro upstream ⟨⟩
    decide⟩
  have followed : follow (perform .inserted .inserted) (fun _ _ => True)
      [requestFor "a", .answer 0, .resume 0, .answer 0, .resume 0,
        .upstreamStores ⟨examplePackage, "b".toList, .initial⟩,
        requestFor "b", .answer 0, .resume 0, .answer 0, .resume 0, .answer 0,
        .resume 0] unknown =
      some { known with
        table := ⟨false, [⟨examplePackage, "a".toList, .initial⟩,
          ⟨examplePackage, "b".toList, .initial⟩]⟩ } := by
    rfl
  exact ⟨_, .follow (fun _ _ _ performed => performed) _ (.start started)
    followed, by decide⟩

theorem unique_values_alone_second :
    UniqueValues [⟨examplePackage, "a".toList, .initial⟩,
      ⟨examplePackage, "b".toList, Revision.initial.increase⟩] := by
  have started : Start { known with upstream := none } := ⟨rfl, rfl, nofun⟩
  have followed : follow (perform .inserted .inserted)
      (fun state _ => state.upstream = none) [requestFor "a", requestFor "b"]
      { known with upstream := none } = some
        ⟨⟨false, [⟨examplePackage, "a".toList, .initial⟩,
          ⟨examplePackage, "b".toList, Revision.initial.increase⟩]⟩, none,
            []⟩ := by
    rfl
  exact unique_values_alone (.follow (fun _ _ _ performed => performed) _
    (.start started) followed)

end Runs

end ServerState

end Nvbmc.PRServ
