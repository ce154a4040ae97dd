import Nvbmc.DataSmart.PlainStores

/-!
# The values of a sequence of assignments

A store holds what the assignments have built as long as a flag that is unset is
not only a weak default, and an assignment sets no mark in one of the variables.
-/

namespace Nvbmc.DataSmart

open Library Store

def expandedText (python : Python) (fuel : ℕ) (data : Data)
    (varname text : Text) : Option Value :=
  (expandWithRefs (readContent python data fuel) python data (some varname) fuel
    (.text text) ⟨none, false, []⟩).1.map (·.value)

/-- What the text of `:=` is expanded to, in the state before the statement. -/
def Node.expanded (python : Python) (fuel : ℕ) (store : Store) : Node → Text
  | .data groupd =>
      match expandedText python fuel store.toData (immediateName groupd.var)
        groupd.value with
      | some (.text text) => text
      | _ => []
  | _ => []

/-- `getVar(v, False)` and `getVarFlag(v, f, False)` are what was built. -/
def Agrees (python : Python) (names : Set Text) (table : Table)
    (store : Store) : Prop :=
  ∀ var ∈ names, ∀ fuel,
    (getVarUnexpanded python store.toData (fuel + 1) var store.toMemo).1 =
      some (table var none).shown ∧
    ∀ flag, IsFlag flag →
      (getVarFlag python store.toData (fuel + 1) var flag Mode.unexpanded
        store.toMemo).1.map Prod.fst = some (table var (some flag)).shown

structure Holds (names : Set Text) (table : Table) (data : Data) : Prop where
  plain : data.Plain
  value : ∀ var ∈ names, ∀ flag, IsTarget flag →
    data.held var (valueKey flag) = (table var flag).value.map .text
  weak : ∀ var ∈ names, ∀ flag, IsTarget flag →
    data.held var (weakKey flag) = (table var flag).weak.map .text
  noWeakContent : ∀ var ∈ names, data.held var (defaultvalFlag ++ contentFlag) =
    none

section States

variable {python : Python} {str : Value → Text} {fuel : ℕ} {names : Set Text}
  {table : Table} {store after : Store} {var : Text} {flag : Option Text}
  {data : Data} {value : Value}

theorem ownValue_of_held {key : Text}
    (isHeld : data.held var key = some value) (noweakdefault : Bool) :
    data.ownValue var key noweakdefault = data.copied value := by
  obtain ⟨flags, isFound, isValue⟩ := Option.bind_eq_some_iff.mp isHeld
  have first : heldFlag flags key noweakdefault = some value := by
    rw [heldFlag, isValue]
  rw [Data.ownValue, isFound, Option.bind_some, first]

theorem getVarUnexpanded_fst (data : Data) (var : Text) (memo : Memo) :
    (getVarUnexpanded python data fuel var memo).1 =
      (getVarFlag python data fuel var contentFlag Mode.unexpanded memo).1.map
        Prod.fst := by
  rw [getVarUnexpanded]
  apply Run.bind_fst
  intro value after
  rfl

theorem read_plain (plain : store.Plain) (var : Text) {flag : Text}
    (named : flag ≠ []) :
    (getVarFlag python store.toData (fuel + 1) var flag Mode.unexpanded
      store.toMemo).1.map Prod.fst = some (store.ownValue var flag false) := by
  rw [getVarFlag_plain plain rfl rfl var named (fun _ => Nat.succ_ne_zero fuel)]
  rfl

theorem Holds.ownValue (holds : Holds names table data) (member : var ∈ names)
    (target : IsTarget flag) :
    data.ownValue var (valueKey flag) false = (table var flag).shown := by
  rw [ownValue_weak target (holds.noWeakContent var member),
    holds.value var member flag target, holds.weak var member flag target,
    Slot.shown]
  cases (table var flag).value with
  | some value => rfl
  | none =>
      cases (table var flag).weak with
      | some weak => rfl
      | none => rfl

theorem isTarget_none : IsTarget none :=
  fun _ member => nomatch member

theorem isTarget_some {name : Text} (isFlag : IsFlag name) :
    IsTarget (some name) := by
  intro other member
  cases member
  exact isFlag

theorem Holds.agrees (holds : Holds names table store.toData) :
    Agrees python names table store := by
  intro var member fuel
  constructor
  · rw [getVarUnexpanded_fst, read_plain holds.plain var contentFlag_ne_nil]
    exact congrArg some (holds.ownValue member isTarget_none)
  · intro flag isFlag
    rw [read_plain holds.plain var isFlag.1]
    exact congrArg some (holds.ownValue member (isTarget_some isFlag))

def Slot.newText (slot : Slot) (operator : Operator)
    (assigned expanded : Text) : Text :=
  match operator with
  | .set | .lazyques => assigned
  | .ques => slot.value.getD assigned
  | .colon => expanded
  | .append => slot.value.getD [] ++ ' ' :: assigned
  | .prepend => assigned ++ ' ' :: slot.value.getD []
  | .postdot => slot.value.getD [] ++ assigned
  | .predot => assigned ++ slot.value.getD []

theorem Slot.assign_eq (slot : Slot) (operator : Operator)
    (assigned expanded : Text) : slot.assign operator assigned expanded =
      if operator = .lazyques then
        { slot with weak := some (slot.newText operator assigned expanded) }
      else { slot with
        value := some (slot.newText operator assigned expanded) } := by
  cases operator <;> rfl

theorem reading_plain (plain : store.Plain) {mode : Mode}
    (unexpanded : mode.expand = false) (noParser : mode.retparser = false)
    {name flag : Text} (named : flag ≠ []) {parser : Option VariableParse}
    (returned : reading (fun data => getVarFlag python data fuel name flag mode)
      store = (some (value, parser), after)) :
    value = store.ownValue name flag mode.noweakdefault ∧ after = store := by
  have deep : flag = contentFlag → fuel ≠ 0 := by
    intro content none
    rw [reading, getVarFlag, if_neg named, if_pos content, none] at returned
    cases returned
  rw [reading, getVarFlag_plain plain unexpanded noParser name named deep]
    at returned
  cases returned
  exact ⟨rfl, rfl⟩

variable {groupd : Groupd}

theorem getFunc_eq {found : Value} (holds : Holds names table store.toData)
    (member : groupd.var ∈ names) (target : IsTarget groupd.flag)
    (returned : groupd.getFunc python fuel store = (some found, after)) :
    found = ((table groupd.var groupd.flag).value.map .text).getD .none ∧
      after = store := by
  have isRead : store.readAs (store.held groupd.var (valueKey groupd.flag)) =
      ((table groupd.var groupd.flag).value.map .text).getD .none := by
    rw [holds.value groupd.var member groupd.flag target]
    cases (table groupd.var groupd.flag).value with
    | none => rfl
    | some value => rfl
  rw [← isRead, ← ownValue_strict]
  rw [Groupd.getFunc] at returned
  cases isFlag : groupd.flag with
  | none =>
      rw [isFlag] at returned
      obtain ⟨⟨value, parser⟩, between, isValue, returned⟩ :=
        Run.bind_eq_some_iff.mp returned
      cases returned
      exact reading_plain holds.plain rfl rfl contentFlag_ne_nil isValue
  | some flag =>
      rw [isFlag] at returned
      obtain ⟨⟨value, parser⟩, between, isValue, returned⟩ :=
        Run.bind_eq_some_iff.mp returned
      cases returned
      exact reading_plain holds.plain rfl rfl (target flag isFlag).1 isValue

theorem orEmpty_text (str : Value → Text) (held : Option Text) :
    orEmpty str ((held.map .text).getD .none) = held.getD [] := by
  cases held with
  | none => rfl
  | some held =>
      cases held with
      | nil => rfl
      | cons char rest => rfl

theorem sameReads_createCopy (store : Store) :
    SameReads (fun _ => True) store.createCopy.toData store.toData := by
  apply SameReads.of_held
  · intro var
    rfl
  · intro var
    rfl
  · intro var keyword member
    rfl

theorem expandInCopy_eq {name text : Text} {found : Value}
    (samePython : python store.createCopy.toData = python store.toData)
    (returned : expandInCopy python fuel name text store =
      (some found, after)) :
    expandedText python fuel store.toData name text = some found ∧
      (∃ expanded, found = .text expanded) ∧ after = store := by
  rw [expandInCopy, Run.get_bind_apply] at returned
  obtain ⟨parse, between, isParse, returned⟩ := Run.bind_eq_some_iff.mp returned
  cases returned
  obtain ⟨isExpanded, isSame⟩ := Run.ofOption_eq_some_iff.mp isParse
  have agree := agree_expandWithRefs
    (readContent_agree samePython (sameReads_createCopy store) fuel) samePython
    (some name) fuel
    (.text text) ⟨none, false, []⟩ trivial
  refine ⟨?_, expandWithRefs_text (Prod.ext isExpanded rfl), isSame.symm⟩
  rw [expandedText, ← agree.1]
  exact congrArg (Option.map _) isExpanded

theorem newValue_eq {found : Value} (holds : Holds names table store.toData)
    (samePython : python store.createCopy.toData = python store.toData)
    (member : groupd.var ∈ names) (target : IsTarget groupd.flag)
    (returned : groupd.newValue python str fuel store = (some found, after)) :
    found = .text
      ((table groupd.var groupd.flag).newText groupd.operator groupd.value
      ((Node.data groupd).expanded python fuel store)) ∧ after = store := by
  rw [Groupd.newValue] at returned
  cases isOperator : groupd.operator with
  | set =>
      rw [isOperator] at returned
      cases returned
      exact ⟨rfl, rfl⟩
  | lazyques =>
      rw [isOperator] at returned
      cases returned
      exact ⟨rfl, rfl⟩
  | colon =>
      rw [isOperator] at returned
      obtain ⟨isExpanded, ⟨expanded, isText⟩, isSame⟩ :=
        expandInCopy_eq samePython returned
      refine ⟨?_, isSame⟩
      rw [Slot.newText, Node.expanded, isExpanded, isText]
  | ques =>
      rw [isOperator] at returned
      obtain ⟨value, between, isValue, returned⟩ :=
        Run.bind_eq_some_iff.mp returned
      obtain ⟨isRead, isSame⟩ := getFunc_eq holds member target isValue
      cases returned
      refine ⟨?_, isSame⟩
      rw [isRead, Slot.newText]
      cases (table groupd.var groupd.flag).value with
      | none => simp
      | some value => simp
  | append | prepend | postdot | predot =>
      rw [isOperator] at returned
      obtain ⟨value, between, isValue, returned⟩ :=
        Run.bind_eq_some_iff.mp returned
      obtain ⟨isRead, isSame⟩ := getFunc_eq holds member target isValue
      cases returned
      refine ⟨?_, isSame⟩
      rw [isRead, orEmpty_text, Slot.newText]

/-- The name under which an assignment puts its text. -/
def Groupd.key (groupd : Groupd) : Text :=
  if groupd.operator = .lazyques then weakKey groupd.flag
  else valueKey groupd.flag

/-- The renamed variables, once an assignment has set its flag. -/
def Groupd.renames (groupd : Groupd) (store : Store) : List Text :=
  match groupd.targetFlag with
  | some flag => renamesWith store groupd.var flag
  | none => store.varRenames

def Groupd.exports (groupd : Groupd) : Bool :=
  groupd.targetFlag.any isExport

theorem Groupd.targetFlag_eq (target : IsTarget groupd.flag) :
    groupd.targetFlag = some groupd.key ∨
      groupd.targetFlag = none ∧ groupd.key = contentFlag := by
  rw [Groupd.targetFlag, Groupd.key]
  cases isFlag : groupd.flag with
  | none =>
      by_cases weak : groupd.operator = .lazyques
      · left
        have named : defaultval ≠ [] := by decide
        rw [if_pos weak, if_pos weak]
        exact if_neg named
      · right
        rw [if_neg weak, if_neg weak]
        exact ⟨rfl, rfl⟩
  | some flag =>
      left
      by_cases weak : groupd.operator = .lazyques
      · simp only [if_pos weak]
        apply if_neg
        intro empty
        cases empty
      · simp only [if_neg weak]
        exact if_neg (target flag isFlag).1

theorem Groupd.key_not_keyword (target : IsTarget groupd.flag) :
    groupd.key ∉ setvarKeywords := by
  rw [Groupd.key]
  split_ifs
  · exact weak_not_keyword groupd.flag
  · exact target.value_not_keyword

theorem assigned_eval (holds : Holds names table store.toData)
    (samePython : python store.createCopy.toData = python store.toData)
    (member : groupd.var ∈ names) (target : IsTarget groupd.flag)
    (unexported : groupd.exp = false)
    (noColon : ':' ∉ groupd.var)
    (returned : groupd.eval python str fuel store = (some (), after)) :
    Assigned groupd.var groupd.key
      (.text ((table groupd.var groupd.flag).newText groupd.operator
        groupd.value ((Node.data groupd).expanded python fuel store)))
      (groupd.renames store) groupd.exports store after := by
  rw [Groupd.eval, unexported, Run.when, if_neg Bool.false_ne_true] at returned
  obtain ⟨_, _, isSame, returned⟩ := Run.bind_eq_some_iff.mp returned
  cases isSame
  obtain ⟨value, between, isValue, returned⟩ := Run.bind_eq_some_iff.mp returned
  obtain ⟨isText, isSame⟩ := newValue_eq holds samePython member target isValue
  rw [isSame, isText] at returned
  rw [Groupd.renames, Groupd.exports]
  rcases Groupd.targetFlag_eq target with isKey | ⟨isVar, isContent⟩
  · rw [isKey] at returned ⊢
    exact assigned_setVarFlag noColon holds.plain
      (Groupd.key_not_keyword target) returned
  · rw [isVar] at returned ⊢
    rw [isContent]
    exact assigned_setVar noColon holds.plain returned

/-- The statement is one of those that the slots are about. -/
def Node.InScope (names : Set Text) : Node → Prop
  | .data groupd =>
      groupd.exp = false ∧ groupd.var ∈ names ∧ IsTarget groupd.flag
  | .unset var => var ∈ names
  | .unsetFlag var flag => var ∈ names ∧ IsFlag flag

/-- A flag that is unset is set or has no weak default either.  The two
variables in which the store keeps marks of its own are no names when an
assignment sets such a mark. -/
def Node.Fine (names : Set Text) (store : Store) : Node → Prop
  | .data groupd =>
      (groupd.exports = true → exportlist ∉ names) ∧
        (groupd.var ∈ groupd.renames store → failedMark ∉ names)
  | .unset _ => True
  | .unsetFlag var flag =>
      store.held var flag ≠ none ∨ store.held var (defaultvalFlag ++ flag) =
        none

theorem held_assigned {key name : Text} {renames : List Text} {exported : Bool}
    (assigned : Assigned var key value renames exported store after)
    (member : name ∈ names) (noExport : exported = true → exportlist ∉ names)
    (noRenamed : var ∈ renames → failedMark ∉ names) (slot : Text) :
    after.held name slot = put store.held var key value name slot := by
  obtain ⟨id, isHeld⟩ := assigned.held
  have unexported :
      exportedHeld (put (markedHeld store.held (var ∈ renames)) var key value)
      exported id name slot =
        put (markedHeld store.held (var ∈ renames)) var key value name
          slot := by
    rw [exportedHeld]
    split_ifs with isExported
    · rw [put, if_neg]
      intro same
      exact noExport isExported (same.1 ▸ member)
    · rfl
  have unmarked : markedHeld store.held (var ∈ renames) name slot =
      store.held name slot := by
    rw [markedHeld]
    split_ifs with isRenamed
    · rw [put, if_neg]
      intro same
      exact noRenamed isRenamed (same.1 ▸ member)
    · rfl
  rw [isHeld, unexported, put, put, unmarked]

theorem Table.step_data (table : Table) (expanded : Text) (groupd : Groupd) :
    table.step expanded (.data groupd) groupd.var groupd.flag =
      (table groupd.var groupd.flag).assign groupd.operator groupd.value
        expanded :=
  if_pos ⟨rfl, rfl⟩

theorem Table.step_data_of_ne (table : Table) (expanded : Text) {name : Text}
    {flag : Option Text} (other : ¬ (name = groupd.var ∧ flag = groupd.flag)) :
    table.step expanded (.data groupd) name flag = table name flag :=
  if_neg other

theorem Holds.assign (holds : Holds names table store.toData)
    (samePython : python store.createCopy.toData = python store.toData)
    (inScope : (Node.data groupd).InScope names) (noColon : ':' ∉ groupd.var)
    (fine : (Node.data groupd).Fine names store)
    (returned : groupd.eval python str fuel store = (some (), after)) :
    Holds names (table.step ((Node.data groupd).expanded python fuel store)
      (.data groupd)) after.toData := by
  obtain ⟨unexported, member, target⟩ := inScope
  have assigned :=
    assigned_eval holds samePython member target unexported noColon returned
  have isHeld : ∀ name ∈ names, ∀ slot, after.held name slot = _ :=
    fun name isName slot =>
    held_assigned assigned isName fine.1 fine.2 slot
  refine ⟨assigned.plain, ?_, ?_, ?_⟩
  · intro name isName flag isTarget
    rw [isHeld name isName, put]
    by_cases same : name = groupd.var ∧ flag = groupd.flag
    · rw [same.1, same.2, Table.step_data, Slot.assign_eq, Groupd.key]
      by_cases weak : groupd.operator = .lazyques
      · rw [if_pos weak, if_pos weak, if_neg fun both =>
          target.value_ne_weak _ both.2]
        exact holds.value _ member _ target
      · rw [if_neg weak, if_neg weak, if_pos ⟨rfl, rfl⟩]
        rfl
    · rw [Table.step_data_of_ne table _ same, if_neg]
      · exact holds.value name isName flag isTarget
      · intro both
        rw [Groupd.key] at both
        split_ifs at both
        · exact isTarget.value_ne_weak _ both.2
        · exact same ⟨both.1, isTarget.value_injective target both.2⟩
  · intro name isName flag isTarget
    rw [isHeld name isName, put]
    by_cases same : name = groupd.var ∧ flag = groupd.flag
    · rw [same.1, same.2, Table.step_data, Slot.assign_eq, Groupd.key]
      by_cases weak : groupd.operator = .lazyques
      · rw [if_pos weak, if_pos weak, if_pos ⟨rfl, rfl⟩]
        rfl
      · rw [if_neg weak, if_neg weak, if_neg fun both =>
          target.value_ne_weak _ both.2.symm]
        exact holds.weak _ member _ target
    · rw [Table.step_data_of_ne table _ same, if_neg]
      · exact holds.weak name isName flag isTarget
      · intro both
        rw [Groupd.key] at both
        split_ifs at both
        · exact same ⟨both.1, weak_injective both.2⟩
        · exact target.value_ne_weak _ both.2.symm
  · intro name isName
    rw [isHeld name isName, put, if_neg]
    · exact holds.noWeakContent name isName
    · intro both
      have isWeak : weakKey (some contentFlag) = groupd.key := both.2
      rw [Groupd.key] at isWeak
      split_ifs at isWeak
      · have isContent := weak_injective isWeak
        exact (target contentFlag isContent.symm).2.1 rfl
      · exact target.value_ne_weak _ isWeak.symm

theorem Table.step_unset (table : Table) (expanded name var : Text)
    (flag : Option Text) : table.step expanded (.unset name) var flag =
      if var = name then Slot.start else table var flag := rfl

theorem Table.step_unsetFlag (table : Table) (expanded name unset var : Text)
    (flag : Option Text) :
    table.step expanded (.unsetFlag name unset) var flag =
      if var = name ∧ flag = some unset then Slot.start
      else table var flag := rfl

theorem plain_delVar (plain : data.Plain) (noColon : ':' ∉ var) :
    (data.delVar var).Plain where
  variants := by
    rw [Data.delVar]
    simp only [if_neg noColon, plain.variants]
    rfl
  operations := by
    intro name keyword member
    rw [held_delVar]
    split_ifs
    · rfl
    · exact plain.operations name keyword member

theorem Holds.unset (holds : Holds names table store.toData)
    (noColon : ':' ∉ var) (expanded : Text) :
    Holds names (table.step expanded (.unset var))
      (store.toData.delVar var) := by
  refine ⟨plain_delVar holds.plain noColon, ?_, ?_, ?_⟩
  · intro name isName flag isTarget
    rw [held_delVar, Table.step_unset]
    split_ifs
    · rfl
    · exact holds.value name isName flag isTarget
  · intro name isName flag isTarget
    rw [held_delVar, Table.step_unset]
    split_ifs
    · rfl
    · exact holds.weak name isName flag isTarget
  · intro name isName
    rw [held_delVar]
    split_ifs
    · rfl
    · exact holds.noWeakContent name isName

theorem plain_delVarFlag (plain : data.Plain) (flag : Text) :
    (data.delVarFlag var flag).Plain where
  variants := by
    rw [Data.delVarFlag]
    split
    · exact plain.variants
    · dsimp only
      split
      · exact (overridedata_makeShadowCopy data var).trans plain.variants
      · exact (overridedata_makeShadowCopy data var).trans plain.variants
  operations := by
    intro name keyword member
    rw [held_delVarFlag]
    split_ifs
    · rfl
    · exact plain.operations name keyword member

theorem Holds.unsetFlag {flag : Text} (holds : Holds names table store.toData)
    (isFlag : IsFlag flag) (fine : (Node.unsetFlag var flag).Fine names store)
    (expanded : Text) :
    Holds names (table.step expanded (.unsetFlag var flag))
      (store.toData.delVarFlag var flag) := by
  have target := isTarget_some isFlag
  refine ⟨plain_delVarFlag holds.plain flag, ?_, ?_, ?_⟩
  · intro name isName other isTarget
    have isValue := holds.value name isName other isTarget
    rw [held_delVarFlag, Table.step_unsetFlag]
    by_cases same : name = var ∧ other = some flag
    · rw [if_pos same]
      by_cases isHeld : store.held var flag = none
      · rw [if_neg fun all => all.2.2 isHeld, same.1, same.2]
        exact isHeld
      · rw [if_pos ⟨same.1, .inl (congrArg valueKey same.2), isHeld⟩]
        rfl
    · rw [if_neg same, if_neg]
      · exact isValue
      · intro all
        rcases all.2.1 with isKey | isWeak
        · exact same ⟨all.1, isTarget.value_injective target isKey⟩
        · exact isTarget.value_ne_weak (some flag) isWeak
  · intro name isName other isTarget
    have isWeak := holds.weak name isName other isTarget
    rw [held_delVarFlag, Table.step_unsetFlag]
    by_cases same : name = var ∧ other = some flag
    · rw [if_pos same]
      by_cases isHeld : store.held var flag = none
      · rw [if_neg fun all => all.2.2 isHeld, same.1, same.2]
        exact fine.resolve_left fun isSet => isSet isHeld
      · rw [if_pos ⟨same.1, .inr (congrArg weakKey same.2), isHeld⟩]
        rfl
    · rw [if_neg same, if_neg]
      · exact isWeak
      · intro all
        rcases all.2.1 with isKey | isWeak
        · exact target.value_ne_weak other isKey.symm
        · exact same ⟨all.1, weak_injective isWeak⟩
  · intro name isName
    rw [held_delVarFlag]
    split_ifs
    · rfl
    · exact holds.noWeakContent name isName

theorem Holds.step {node : Node} (holds : Holds names table store.toData)
    (samePython : python store.createCopy.toData = python store.toData)
    (plainNames : ∀ name ∈ names, ':' ∉ name) (inScope : node.InScope names)
    (fine : node.Fine names store)
    (returned : node.eval python str fuel store = (some (), after)) :
    Holds names (table.step (node.expanded python fuel store) node)
      after.toData := by
  cases node with
  | data groupd =>
      exact holds.assign samePython inScope (plainNames _ inScope.2.1) fine
        returned
  | unset var =>
      cases returned
      exact holds.unset (plainNames var inScope) _
  | unsetFlag var flag =>
      cases returned
      exact holds.unsetFlag inScope.2 fine _

theorem not_agrees_of_held (plain : after.Plain) (member : var ∈ names)
    (isHeld : after.held var contentFlag = some value)
    (noText : ∀ slot : Slot, after.copied value ≠ slot.shown) :
    ¬ Agrees python names table after := by
  intro agrees
  have shown := (agrees var member 0).1
  rw [getVarUnexpanded_fst, read_plain plain var contentFlag_ne_nil,
    ownValue_of_held isHeld false] at shown
  exact noText _ (Option.some.inj shown)

theorem Holds.not_agrees {node : Node} (holds : Holds names table store.toData)
    (samePython : python store.createCopy.toData = python store.toData)
    (plainNames : ∀ name ∈ names, ':' ∉ name) (inScope : node.InScope names)
    (notFine : ¬ node.Fine names store)
    (returned : node.eval python str fuel store = (some (), after)) :
    ¬ Agrees python names (table.step (node.expanded python fuel store) node)
      after := by
  cases node with
  | data groupd =>
      obtain ⟨unexported, member, target⟩ := inScope
      have assigned := assigned_eval holds samePython member target unexported
        (plainNames _ member) returned
      obtain ⟨id, isHeld⟩ := assigned.held
      by_cases exported : groupd.exports = true ∧ exportlist ∈ names
      · apply @not_agrees_of_held _ _ _ after exportlist (.cell id)
          assigned.plain exported.2
        · rw [isHeld, exportedHeld, if_pos exported.1]
          exact if_pos ⟨rfl, rfl⟩
        · intro slot same
          rw [Slot.shown] at same
          split at same
          · cases same
          · cases same
      · have renamed : groupd.var ∈ groupd.renames store ∧
            failedMark ∈ names := by
          by_contra neither
          apply notFine
          exact ⟨fun isExport isName => exported ⟨isExport, isName⟩,
            fun isRenamed isName => neither ⟨isRenamed, isName⟩⟩
        apply @not_agrees_of_held _ _ _ after failedMark (.object 1)
          assigned.plain renamed.2
        · have different : failedMark ≠ exportlist := by decide
          have marked :
              put (markedHeld store.held (groupd.var ∈ groupd.renames store))
                groupd.var
              groupd.key (.text
                ((table groupd.var groupd.flag).newText groupd.operator
                groupd.value ((Node.data groupd).expanded python fuel store)))
              failedMark contentFlag = some (.object 1) := by
            rw [put, if_neg fun same => assigned.unmarked renamed.1 same.1.symm,
              markedHeld, if_pos renamed.1]
            exact if_pos ⟨rfl, rfl⟩
          rw [isHeld, exportedHeld]
          split_ifs
          · rw [put, if_neg fun same => different same.1, marked]
          · exact marked
        · intro slot same
          rw [Slot.shown] at same
          split at same
          · cases same
          · cases same
  | unset var => exact absurd trivial notFine
  | unsetFlag var flag =>
      cases returned
      obtain ⟨member, isFlag⟩ := inScope
      have target := isTarget_some isFlag
      obtain ⟨unset, weak⟩ := not_or.mp notFine
      have absent : store.held var flag = none := Decidable.not_not.mp unset
      have plain : (store.toData.delVarFlag var flag).Plain :=
        plain_delVarFlag holds.plain flag
      intro agrees
      have shown := (agrees var member 0).2 flag isFlag
      rw [@read_plain python 0 _ plain var flag isFlag.1] at shown
      have kept : ∀ slot, (store.toData.delVarFlag var flag).held var slot =
          store.held var slot := by
        intro slot
        rw [held_delVarFlag, if_neg fun all => all.2.2 absent]
      have isRead :=
        @ownValue_weak (store.toData.delVarFlag var flag) var _ target (by
        rw [kept]
        exact holds.noWeakContent var member)
      have isWeak := holds.weak var member (some flag) target
      have isStart := isRead.symm.trans (Option.some.inj shown)
      rw [kept, kept, valueKey, absent, Option.none_or, isWeak,
        Table.step_unsetFlag, if_pos ⟨rfl, rfl⟩] at isStart
      cases isText : (table var (some flag)).weak with
      | none =>
          apply weak
          rw [isText] at isWeak
          exact isWeak
      | some text =>
          rw [isText] at isStart
          cases isStart

section Runs

variable (python : Python) (str : Value → Text) (fuel : ℕ) (names : Set Text)

/-- In every state of the evaluation of the statements, the first one among
them, the values are those that were built. -/
def AgreesAlong : List Node → Store → Table → Prop
  | [], store, table => Agrees python names table store
  | node :: nodes, store, table =>
      Agrees python names table store ∧
        ∀ after, node.eval python str fuel store = (some (), after) →
          AgreesAlong nodes after
            (table.step (node.expanded python fuel store) node)

/-- Every statement that is evaluated is fine in the state before it. -/
def FineAlong : List Node → Store → Prop
  | [], _ => True
  | node :: nodes, store =>
      ∀ after, node.eval python str fuel store = (some (), after) →
        node.Fine names store ∧ FineAlong nodes after

end Runs

theorem AgreesAlong.here {nodes : List Node}
    (agrees : AgreesAlong python str fuel names nodes store table) :
    Agrees python names table store := by
  cases nodes with
  | nil => exact agrees
  | cons node nodes => exact agrees.1

theorem Holds.agreesAlong_iff {nodes : List Node}
    (holds : Holds names table store.toData)
    (samePython : ∀ store : Store, python store.createCopy.toData =
      python store.toData)
    (plainNames : ∀ name ∈ names, ':' ∉ name)
    (inScope : ∀ node ∈ nodes, node.InScope names) :
    AgreesAlong python str fuel names nodes store table ↔
      FineAlong python str fuel names nodes store := by
  induction nodes generalizing store table with
  | nil => exact ⟨fun _ => trivial, fun _ => holds.agrees⟩
  | cons node nodes induction =>
      have here := inScope node List.mem_cons_self
      have others : ∀ other ∈ nodes, other.InScope names := fun other member =>
        inScope other (List.mem_cons_of_mem _ member)
      constructor
      · intro agrees after returned
        have fine : node.Fine names store := by
          by_contra notFine
          exact holds.not_agrees (samePython store) plainNames here notFine
            returned (agrees.2 after returned).here
        have kept := holds.step (samePython store) plainNames here fine returned
        exact ⟨fine, (induction kept others).mp (agrees.2 after returned)⟩
      · intro fine
        refine ⟨holds.agrees, ?_⟩
        intro after returned
        have kept :=
          holds.step (samePython store) plainNames here (fine after returned).1
            returned
        exact (induction kept others).mpr (fine after returned).2

theorem holds_new (names : Set Text) (varRenames : List Text) :
    Holds names Table.start (Store.new varRenames).toData where
  plain := ⟨rfl, fun _ _ _ => rfl⟩
  value := fun _ _ _ _ => rfl
  weak := fun _ _ _ _ => rfl
  noWeakContent := fun _ _ => rfl

end States

section Sample

/-- An assignment to the flag `f` of `A`. -/
def flagNode (operator : Operator) (value : Text) : Node :=
  .data ⟨false, "A".toList, some "doc".toList, operator, value⟩

theorem inScope_flagNode (operator : Operator) (value : Text) :
    (flagNode operator value).InScope {"A".toList} :=
  ⟨rfl, rfl, isTarget_some (by decide)⟩

theorem fine_flagNode (operator : Operator) (value : Text) (store : Store) :
    (flagNode operator value).Fine {"A".toList} store := by
  have others : exportlist ≠ "A".toList ∧ failedMark ≠ "A".toList := by decide
  exact ⟨fun _ => others.1, fun _ => others.2⟩

/-- `unset A[doc]`. -/
def unsetNode : Node := .unsetFlag "A".toList "doc".toList

theorem inScope_unsetNode : unsetNode.InScope {"A".toList} := ⟨rfl, by decide⟩

end Sample

end Nvbmc.DataSmart
