import Nvbmc.CodeParser.PythonDeps
import Nvbmc.Library.Grouping

/-!
# When the dependencies are those of the single calls

A body is parsed if each of its calls is, and its sets are the unions of theirs
if no visitor code drops a value that was collected before.
-/

namespace Nvbmc.CodeParser

open Nvbmc.Library

variable {Expr : Type}

section Conditions

variable (around : Surroundings Expr)

/-- A warning of the argument raises nothing. -/
def WarnFine (arg : Arg Expr) : Prop :=
  warn around arg = .ok ()

def Const.IsStr : Const → Prop
  | .str _ => True
  | _ => False

def Const.SplitsFine : Const → Prop
  | .str _ => True
  | .bytes pieces _ => pieces = []
  | .other _ => False

/-- The arguments behind the name of a variable. -/
def NamedFine (name : Text) (rest : List (Arg Expr)) : Prop :=
  if name ∈ containsfuncs then
    match rest with
    | [] => False
    | .const value :: _ => value.IsStr
    | .expr _ :: _ => True
  else if name ∈ containsanyfuncs then
    match rest with
    | [] => False
    | .const value :: _ => value.SplitsFine
    | .expr _ :: _ => True
  else if endswith name getvarflags then
    match rest with
    | [] => False
    | .const _ :: _ => True
    | .expr expr :: _ => WarnFine around (.expr expr)
  else True

def GetterFine (name : Text) : List (Arg Expr) → Prop
  | [] => False
  | .const (.str _) :: rest => NamedFine around name rest
  | arg :: _ => WarnFine around arg

def ExpandFine : List (Arg Expr) → Prop
  | [] => False
  | .const (.str text) :: _ => ∃ parser, around.expandWithRefs text = .ok parser
  | _ :: _ => True

def ExecFine : List (Arg Expr) → Prop
  | [] => False
  | .const value :: _ => value.IsStr
  | .expr expr :: _ => WarnFine around (.expr expr)

/-- A call that is visited without an error: it has the positional arguments
that are looked at, and what is collected from them are texts. -/
def CallFine (call : Call Expr) : Prop :=
  match call.name with
  | none => True
  | some name =>
      match around.visitorcode name with
      | some visitor => ∃ visited, visitor call.args = .ok visited ∧
          ∀ arg, visited.warn = some arg → WarnFine around arg
      | none =>
          if isGetter name then GetterFine around name call.args
          else if endswith name [".expand".toList] then
            ExpandFine around call.args
          else if name ∈ execfuncs then ExecFine around call.args
          else True

def Collects (call : Call Expr) (varname : Text) (value : Const) : Prop :=
  ∃ added, visitCall around .empty call = .ok added ∧
    Holds added.contains varname value

/-- A call whose visitor code makes a new set for a variable. -/
def Overwrites (call : Call Expr) (varname : Text) : Prop :=
  ∃ name visitor visited, call.name = some name ∧
    around.visitorcode name = some visitor ∧
    visitor call.args = .ok visited ∧ varname ∈ visited.contains.keys

/-- What visitor code drops is collected by it again, or by a later call. -/
def Harmless (calls : List (Call Expr)) : Prop :=
  ∀ before call after, calls = before ++ call :: after → ∀ varname,
    Overwrites around call varname → ∀ earlier ∈ before, ∀ value,
      Collects around earlier varname value →
        Collects around call varname value ∨
        ∃ later ∈ after, Collects around later varname value

end Conditions

/-- The sets of a line are the unions of those of some lines. -/
structure IsUnion {Hash : Type} (line : PythonCacheLine Hash)
    (lines : List (PythonCacheLine Hash)) : Prop where
  references : ∀ name, name ∈ line.references ↔ ∃ part ∈ lines,
    name ∈ part.references
  execs : ∀ name, name ∈ line.execs ↔ ∃ part ∈ lines, name ∈ part.execs
  keys : ∀ varname, varname ∈ line.contains.keys ↔ ∃ part ∈ lines,
    varname ∈ part.contains.keys
  contains : ∀ varname value, Holds line.contains varname value ↔
    ∃ part ∈ lines, Holds part.contains varname value

/-- Calls are parsed, each of them is parsed alone, and the sets are the unions
of theirs and of those of a body without calls. -/
def Composed {Hash : Type} (around : Surroundings Expr) (func : Option VarDeps)
    (extra : Option Hash) (calls : List (Call Expr)) : Prop :=
  ∃ line base single, freshCalls around func extra calls = .ok line ∧
    freshCalls around func extra [] = .ok base ∧
    (∀ call ∈ calls, freshCalls around func extra [call] = .ok (single call)) ∧
    IsUnion line (base :: calls.map single)

section Walk

variable {around : Surroundings Expr} {calls : List (Call Expr)}
  {adds : Call Expr → Deps}

/-- The sets after calls of which it is known what each adds. -/
structure Summed (around : Surroundings Expr) (adds : Call Expr → Deps)
    (calls : List (Call Expr)) (deps : Deps) : Prop where
  references : deps.references = calls.flatMap fun call =>
    (adds call).references
  execs : deps.execs = calls.flatMap fun call => (adds call).execs
  varExecs : deps.varExecs = calls.flatMap fun call => (adds call).varExecs
  unique : deps.contains.keys.Nodup
  keys : ∀ varname, varname ∈ deps.contains.keys ↔
    ∃ call ∈ calls, varname ∈ (adds call).contains.keys
  holds : ∀ varname value, Holds deps.contains varname value ↔
    ∃ before call after, calls = before ++ call :: after ∧
      Holds (adds call).contains varname value ∧
      ∀ later ∈ after, isLibrary around later →
        varname ∉ (adds later).contains.keys

theorem Summed.nil : Summed around adds [] .empty where
  references := rfl
  execs := rfl
  varExecs := rfl
  unique := List.nodup_nil
  keys := fun varname => by simp [Deps.empty, Dict.keys]
  holds := fun varname value => by simp [Deps.empty, holds_nil]

theorem exists_split_append {call : Call Expr} {good : Call Expr → Prop}
    {bad : Call Expr → Prop} :
    (∃ before item after, calls ++ [call] = before ++ item :: after ∧
      good item ∧ ∀ later ∈ after, ¬ bad later) ↔
      good call ∨ ¬ bad call ∧ ∃ before item after,
        calls = before ++ item :: after ∧
        good item ∧ ∀ later ∈ after, ¬ bad later := by
  constructor
  · intro found
    obtain ⟨before, item, after, split, isGood, noBad⟩ := found
    induction after using List.reverseRecOn with
    | nil =>
        obtain ⟨-, same⟩ := List.append_inj' split rfl
        cases same
        exact .inl isGood
    | append_singleton after last _ =>
        rw [← List.cons_append, ← List.append_assoc] at split
        obtain ⟨same, isLast⟩ := List.append_inj' split rfl
        cases isLast
        refine .inr ⟨noBad call (by simp), before, item, after, same, isGood,
          ?_⟩
        intro later member
        exact noBad later (List.mem_append_left _ member)
  · intro either
    rcases either with isGood |
      ⟨notBad, before, item, after, split, isGood, noBad⟩
    · exact ⟨calls, call, [], rfl, isGood, fun later member =>
        absurd member List.not_mem_nil⟩
    · refine ⟨before, item, after ++ [call], ?_, isGood, ?_⟩
      · rw [split, List.append_assoc, List.cons_append]
      · intro later member
        rcases List.mem_append.mp member with inside | isLast
        · exact noBad later inside
        · rw [List.mem_singleton.mp isLast]
          exact notBad

theorem Summed.append {deps : Deps} {call : Call Expr}
    (summed : Summed around adds calls deps)
    (isAdd : visitCall around .empty call = .ok (adds call)) :
    ∃ deps', visitCall around deps call = .ok deps' ∧
      Summed around adds (calls ++ [call]) deps' := by
  have empty : Deps.empty.contains.keys.Nodup := List.nodup_nil
  have unique : (adds call).contains.keys.Nodup := nodup_visitCall empty isAdd
  by_cases library : isLibrary around call
  · have visited := @visitCall_of_library _ _ deps _ library
    rw [isAdd] at visited
    refine ⟨_, visited, ?_⟩
    constructor
    · simp [Deps.overwritten, summed.references]
    · simp [Deps.overwritten, summed.execs]
    · simp [Deps.overwritten, summed.varExecs]
    · exact nodup_visitCall summed.unique visited
    · intro varname
      simp only [Deps.overwritten, mem_keys_setAll, summed.keys]
      simp [or_and_right, exists_or]
    · intro varname value
      rw [Deps.overwritten, holds_setAll unique, summed.holds]
      have split := @exists_split_append _ calls call
        (fun call => Holds (adds call).contains varname value)
        (fun call => isLibrary around call ∧
          varname ∈ (adds call).contains.keys)
      simp only [not_and] at split
      rw [split]
      simp [library]
  · have visited := @visitCall_of_not_library _ _ deps _ library
    rw [isAdd] at visited
    refine ⟨_, visited, ?_⟩
    constructor
    · simp [Deps.plus, summed.references]
    · simp [Deps.plus, summed.execs]
    · simp [Deps.plus, summed.varExecs]
    · exact nodup_visitCall summed.unique visited
    · intro varname
      simp only [Deps.plus, mem_keys_addAll, summed.keys]
      simp [or_and_right, exists_or]
    · intro varname value
      rw [Deps.plus, holds_addAll unique, summed.holds]
      have split := @exists_split_append _ calls call
        (fun call => Holds (adds call).contains varname value)
        (fun call => isLibrary around call ∧
          varname ∈ (adds call).contains.keys)
      simp only [not_and] at split
      rw [split]
      simp only [library, false_implies, true_and]
      exact or_comm

theorem summed_of_adds
    (areAdds : ∀ call ∈ calls, visitCall around .empty call = .ok (adds call)) :
    ∃ deps, calls.foldlM (visitCall around) .empty = .ok deps ∧
      Summed around adds calls deps := by
  induction calls using List.reverseRecOn with
  | nil => exact ⟨.empty, rfl, .nil⟩
  | append_singleton calls call induction =>
      rw [List.forall_mem_append, List.forall_mem_singleton] at areAdds
      obtain ⟨deps, ran, summed⟩ := induction areAdds.1
      obtain ⟨deps', visited, summed'⟩ := summed.append areAdds.2
      refine ⟨deps', ?_, summed'⟩
      rw [List.foldlM_append, ran]
      exact (List.foldlM_cons.trans (bind_pure _)).trans visited

end Walk

section TextOnly

variable {around : Surroundings Expr} {call : Call Expr} {name : Text}
  {args : List (Arg Expr)} {deps : Deps}

structure TextOnly (deps : Deps) : Prop where
  execs : ∀ value ∈ deps.execs ++ deps.varExecs, value.IsStr
  contains : ∀ entry ∈ deps.contains, ∀ value ∈ entry.2, value.IsStr

theorem interned_iff {items : List Const} :
    interned items = true ↔ ∀ value ∈ items, value.IsStr := by
  rw [interned, List.all_eq_true]
  apply forall₂_congr
  intro value member
  cases value <;> simp [Const.IsStr]

theorem textOnly_empty : TextOnly .empty where
  execs := fun _ member => absurd member List.not_mem_nil
  contains := fun _ member => absurd member List.not_mem_nil

theorem isStr_of_mem_map {texts : List Text} {value : Const}
    (member : value ∈ texts.map Const.str) : value.IsStr := by
  obtain ⟨text, -, same⟩ := List.mem_map.mp member
  rw [← same]
  trivial

theorem textOnly_map {execs : List Text} {references : List Text}
    {contains : Dict Text (List Text)} :
    TextOnly ⟨references, execs.map .str, [],
      contains.map fun entry => (entry.1, entry.2.map Const.str)⟩ where
  execs := fun value member => by
    rw [List.append_nil] at member
    exact isStr_of_mem_map member
  contains := fun entry member value inside => by
    obtain ⟨found, -, same⟩ := List.mem_map.mp member
    rw [← same] at inside
    exact isStr_of_mem_map inside

theorem warned_iff {arg : Arg Expr} (textOnly : TextOnly deps) :
    (∃ added, (warn around arg).map (fun _ => deps) = .ok added ∧
      TextOnly added) ↔ WarnFine around arg := by
  rw [WarnFine]
  cases warn around arg with
  | error error =>
      constructor
      · intro ran
        obtain ⟨added, isAdd, -⟩ := ran
        cases isAdd
      · intro fine
        cases fine
  | ok done => exact ⟨fun _ => rfl, fun _ => ⟨deps, rfl, textOnly⟩⟩

theorem ok_iff {added : Deps} {good : Prop} (textOnly : TextOnly added ↔ good) :
    (∃ deps, (Except.ok added : Except PyError Deps) = .ok deps ∧
      TextOnly deps) ↔ good := by
  rw [← textOnly]
  constructor
  · intro ran
    obtain ⟨deps, same, isText⟩ := ran
    cases same
    exact isText
  · exact fun isText => ⟨added, rfl, isText⟩

theorem error_iff {error : PyError} :
    (∃ deps, (Except.error error : Except PyError Deps) = .ok deps ∧
      TextOnly deps) ↔ False := by
  constructor
  · intro ran
    obtain ⟨deps, same, -⟩ := ran
    cases same
  · exact False.elim

theorem textOnly_references {names : List Text} :
    TextOnly ⟨names, [], [], []⟩ where
  execs := fun _ member => absurd member List.not_mem_nil
  contains := fun _ member => absurd member List.not_mem_nil

theorem textOnly_contains {varname : Text} {items : List Const} :
    TextOnly ⟨[], [], [], [(varname, items)]⟩ ↔ ∀ value ∈ items,
      value.IsStr := by
  constructor
  · intro textOnly
    exact textOnly.contains _ (List.mem_singleton_self _)
  · intro areStr
    refine ⟨fun _ member => absurd member List.not_mem_nil, fun entry member =>
      ?_⟩
    rw [List.mem_singleton.mp member]
    exact areStr

theorem visitNamed_iff {varname : Text} :
    (∃ added, visitNamed around name varname args .empty = .ok added ∧
      TextOnly added) ↔ NamedFine around name args := by
  unfold visitNamed NamedFine
  split_ifs
  · cases args with
    | nil => exact error_iff
    | cons arg rest =>
        cases arg with
        | expr expr => exact ok_iff (iff_true_intro textOnly_references)
        | const value =>
            exact ok_iff ((@textOnly_contains varname [value]).trans (by simp))
  · cases args with
    | nil => exact error_iff
    | cons arg rest =>
        cases arg with
        | expr expr => exact ok_iff (iff_true_intro textOnly_references)
        | const value =>
            cases value with
            | str text =>
                apply ok_iff
                apply (@textOnly_contains varname ((words text).map .str)).trans
                apply iff_true_intro
                exact fun value member => isStr_of_mem_map member
            | other shown => exact error_iff
            | bytes pieces shown =>
                apply ok_iff
                apply (@textOnly_contains varname
                  (pieces.map fun piece => .bytes [piece] piece)).trans
                cases pieces with
                | nil =>
                    exact iff_of_true
                      (fun value member => absurd member List.not_mem_nil) rfl
                | cons piece pieces =>
                    apply iff_of_false _ (List.cons_ne_nil _ _)
                    exact fun areStr => areStr (.bytes [piece] piece)
                      List.mem_cons_self
  · cases args with
    | nil => exact error_iff
    | cons arg rest =>
        cases arg with
        | expr expr => exact warned_iff textOnly_empty
        | const value => exact ok_iff (iff_true_intro textOnly_references)
  · exact ok_iff (iff_true_intro textOnly_references)

theorem visitGetter_iff :
    (∃ added, visitGetter around name args .empty = .ok added ∧
      TextOnly added) ↔ GetterFine around name args := by
  cases args with
  | nil => exact error_iff
  | cons arg rest =>
      cases arg with
      | expr expr =>
          exact @warned_iff _ around .empty (.expr expr) textOnly_empty
      | const value =>
          cases value with
          | bytes pieces shown =>
              exact @warned_iff _ around .empty (.const (.bytes pieces shown))
                textOnly_empty
          | other shown =>
              exact @warned_iff _ around .empty (.const (.other shown))
                textOnly_empty
          | str varname => exact visitNamed_iff

theorem visitExpand_iff :
    (∃ added, visitExpand around args .empty = .ok added ∧ TextOnly added) ↔
      ExpandFine around args := by
  cases args with
  | nil => exact error_iff
  | cons arg rest =>
      cases arg with
      | expr expr => exact ok_iff (iff_true_intro textOnly_empty)
      | const value =>
          cases value with
          | bytes pieces shown => exact ok_iff (iff_true_intro textOnly_empty)
          | other shown => exact ok_iff (iff_true_intro textOnly_empty)
          | str text =>
              rw [visitExpand, ExpandFine]
              cases around.expandWithRefs text with
              | error error => simp [Except.map]
              | ok parser =>
                  have isAdd : parser.contains.foldl
                      (fun contains entry => addContains contains entry.1
                        (entry.2.map Const.str))
                        [] = parser.contains.map fun entry =>
                          (entry.1, entry.2.map Const.str) := by
                    have added :=
                      addAll_nil (keys_map parser.contains ▸ parser.nodup)
                    rw [addAll, List.foldl_map] at added
                    exact added
                  apply ok_iff
                  simp only [Deps.empty, isAdd]
                  exact ⟨fun _ => ⟨parser, rfl⟩, fun _ => textOnly_map⟩

theorem visitExec_iff :
    (∃ added, visitExec around args .empty = .ok added ∧ TextOnly added) ↔
      ExecFine around args := by
  cases args with
  | nil => exact error_iff
  | cons arg rest =>
      cases arg with
      | expr expr => exact warned_iff textOnly_empty
      | const value =>
          apply ok_iff
          constructor
          · intro textOnly
            exact textOnly.execs value (List.mem_singleton_self _)
          · intro isStr
            refine ⟨fun other member => ?_, fun _ member =>
              absurd member List.not_mem_nil⟩
            rw [List.mem_singleton.mp member]
            exact isStr

theorem contains_visitLibrary (visited : Visited Expr) :
    visited.contains.foldl
      (fun contains entry => contains.set entry.1 (entry.2.map Const.str))
        Deps.empty.contains =
      visited.contains.map fun entry => (entry.1, entry.2.map Const.str) := by
  have isSet := setAll_nil (keys_map visited.contains ▸ visited.nodup)
  rw [setAll, List.foldl_map] at isSet
  exact isSet

theorem visitLibrary_iff (visited : Visited Expr) :
    (∃ added, visitLibrary around visited .empty = .ok added ∧ TextOnly added) ↔
      ∀ arg, visited.warn = some arg → WarnFine around arg := by
  rw [visitLibrary, contains_visitLibrary]
  cases visited.warn with
  | none =>
      apply ok_iff
      exact iff_of_true textOnly_map fun arg isSome => by cases isSome
  | some arg =>
      apply (warned_iff textOnly_map).trans
      simp

theorem visitCall_iff :
    (∃ added, visitCall around .empty call = .ok added ∧ TextOnly added) ↔
      CallFine around call := by
  rw [visitCall, CallFine]
  cases call.name with
  | none => exact ok_iff (iff_true_intro textOnly_empty)
  | some name =>
      cases isVisitor : around.visitorcode name with
      | some visitor =>
          simp only [isVisitor]
          cases visitor call.args with
          | error error => simp [Except.bind]
          | ok visited =>
              apply (visitLibrary_iff visited).trans
              simp
      | none =>
          simp only [isVisitor]
          split_ifs
          · exact visitGetter_iff
          · exact visitExpand_iff
          · exact visitExec_iff
          · apply ok_iff
            apply iff_true_intro
            refine ⟨fun value member => ?_, fun _ member =>
              absurd member List.not_mem_nil⟩
            rw [List.mem_singleton.mp member]
            trivial

end TextOnly

section Bodies

variable {around : Surroundings Expr} {calls : List (Call Expr)}
  {adds : Call Expr → Deps} {func : Option VarDeps} {Hash : Type}
  {extra : Option Hash} {deps : Deps}

/-- The sets of a parser at its end. -/
def Deps.closed (func : Option VarDeps) (deps : Deps) : Deps :=
  { deps with
    references := match func with
      | none => deps.references
      | some func =>
          (deps.references ++ func.vardeps).filter (· ∉ func.vardepsexclude)
    execs := deps.execs ++ deps.varExecs }

def Deps.line (func : Option VarDeps) (extra : Option Hash) (deps : Deps) :
    PythonCacheLine Hash :=
  ⟨(deps.closed func).references, deps.execs ++ deps.varExecs, deps.contains,
    extra⟩

theorem freshCalls_eq_ok {line : PythonCacheLine Hash}
    (ran : calls.foldlM (visitCall around) Deps.empty = .ok deps) :
    freshCalls around func extra calls = .ok line ↔
      TextOnly deps ∧ line = deps.line func extra := by
  have isAll : visitAll around func calls = .ok (deps.closed func) := by
    rw [visitAll, ran]
    rfl
  rw [freshCalls, isAll]
  show newPythonCacheLine (deps.closed func) extra = .ok line ↔ _
  have text : (interned (deps.closed func).execs &&
      (deps.closed func).contains.all (interned ·.2)) = true ↔
        TextOnly deps := by
    rw [Bool.and_eq_true, interned_iff, List.all_eq_true]
    constructor
    · intro areText
      exact ⟨areText.1, fun entry member =>
        interned_iff.mp (areText.2 entry member)⟩
    · intro textOnly
      exact ⟨textOnly.execs, fun entry member =>
        interned_iff.mpr (textOnly.contains entry member)⟩
  rw [newPythonCacheLine]
  split_ifs with isText
  · constructor
    · intro same
      cases same
      exact ⟨text.mp isText, rfl⟩
    · intro both
      rw [both.2]
      rfl
  · constructor
    · intro same
      cases same
    · intro both
      exact absurd (text.mpr both.1) isText

theorem foldlM_single (call : Call Expr) :
    [call].foldlM (visitCall around) Deps.empty =
      visitCall around .empty call :=
  List.foldlM_cons.trans (bind_pure _)

variable {call : Call Expr}

theorem single_iff :
    (∃ line, freshCalls around func extra [call] = .ok line) ↔
      CallFine around call := by
  rw [← visitCall_iff]
  constructor
  · intro parsed
    obtain ⟨line, isLine⟩ := parsed
    cases ran : visitCall around .empty call with
    | error error =>
        have isAll : visitAll around func [call] = .error error := by
          rw [visitAll, foldlM_single, ran]
          rfl
        rw [freshCalls, isAll] at isLine
        cases isLine
    | ok added =>
        have both :=
          (freshCalls_eq_ok ((foldlM_single call).trans ran)).mp isLine
        exact ⟨added, rfl, both.1⟩
  · intro added
    obtain ⟨added, ran, textOnly⟩ := added
    exact ⟨_, (freshCalls_eq_ok ((foldlM_single call).trans ran)).mpr
      ⟨textOnly, rfl⟩⟩

variable {contains : Dict Text (List Const)}

theorem holds_of_mem (unique : contains.keys.Nodup)
    {entry : Text × List Const} (member : entry ∈ contains) {value : Const}
    (inside : value ∈ entry.2) : Holds contains entry.1 value :=
  ⟨entry.2, Dict.get?_of_mem unique member, inside⟩

variable {varname : Text}

theorem isStr_of_holds {value : Const}
    (areText : ∀ entry ∈ contains, ∀ value ∈ entry.2, value.IsStr)
    (holds : Holds contains varname value) : value.IsStr := by
  obtain ⟨items, isSome, inside⟩ := holds
  exact areText _ (Dict.mem_of_get? isSome) value inside

theorem Summed.textOnly (summed : Summed around adds calls deps)
    (areText : ∀ call ∈ calls, TextOnly (adds call)) : TextOnly deps where
  execs := by
    intro value member
    rw [summed.execs, summed.varExecs, List.mem_append, List.mem_flatMap,
      List.mem_flatMap] at member
    rcases member with ⟨call, isCall, inside⟩ | ⟨call, isCall, inside⟩
    · exact (areText call isCall).execs value (List.mem_append_left _ inside)
    · exact (areText call isCall).execs value (List.mem_append_right _ inside)
  contains := by
    intro entry member value inside
    have holds :=
      (summed.holds _ _).mp (holds_of_mem summed.unique member inside)
    obtain ⟨before, call, after, split, held, -⟩ := holds
    have isCall : call ∈ calls := by
      rw [split]
      exact List.mem_append_right _ List.mem_cons_self
    exact isStr_of_holds (areText call isCall).contains held

theorem collects_iff {added : Deps} {value : Const}
    (isAdd : visitCall around .empty call = .ok added) :
    Collects around call varname value ↔
      Holds added.contains varname value := by
  constructor
  · intro collects
    obtain ⟨other, isOther, holds⟩ := collects
    cases isAdd.symm.trans isOther
    exact holds
  · exact fun holds => ⟨added, isAdd, holds⟩

theorem keys_of_visitLibrary {visited : Visited Expr} {added : Deps}
    (ran : visitLibrary around visited .empty = .ok added) :
    added.contains.keys = visited.contains.keys := by
  rw [visitLibrary, contains_visitLibrary] at ran
  cases isWarn : visited.warn with
  | none =>
      rw [isWarn] at ran
      cases ran
      exact keys_map visited.contains
  | some arg =>
      rw [isWarn] at ran
      obtain ⟨done, -, same⟩ := map_eq_ok ran
      rw [← same]
      exact keys_map visited.contains

theorem overwrites_iff {added : Deps}
    (isAdd : visitCall around .empty call = .ok added) :
    Overwrites around call varname ↔
      isLibrary around call ∧ varname ∈ added.contains.keys := by
  have keys : ∀ name visitor visited, call.name = some name →
      around.visitorcode name = some visitor → visitor call.args = .ok visited →
      added.contains.keys = visited.contains.keys := by
    intro name visitor visited isName isVisitor isVisited
    rw [visitCall, isName] at isAdd
    simp only [isVisitor, isVisited] at isAdd
    exact keys_of_visitLibrary isAdd
  constructor
  · intro overwrites
    obtain ⟨name, visitor, visited, isName, isVisitor, isVisited, isKey⟩ :=
      overwrites
    rw [keys name visitor visited isName isVisitor isVisited]
    exact ⟨⟨name, visitor, isName, isVisitor⟩, isKey⟩
  · intro library
    obtain ⟨⟨name, visitor, isName, isVisitor⟩, isKey⟩ := library
    cases isVisited : visitor call.args with
    | error error =>
        rw [visitCall, isName] at isAdd
        simp only [isVisitor, isVisited] at isAdd
        cases isAdd
    | ok visited =>
        rw [keys name visitor visited isName isVisitor isVisited] at isKey
        exact ⟨name, visitor, visited, isName, isVisitor, isVisited, isKey⟩

theorem exists_last {α : Type} {good : α → Prop} {items : List α}
    (found : ∃ item ∈ items, good item) :
    ∃ before item after, items = before ++ item :: after ∧ good item ∧
      ∀ later ∈ after, ¬ good later := by
  induction items with
  | nil =>
      obtain ⟨item, member, -⟩ := found
      exact absurd member List.not_mem_nil
  | cons first items induction =>
      by_cases inside : ∃ item ∈ items, good item
      · obtain ⟨before, item, after, split, isGood, others⟩ := induction inside
        exact ⟨first :: before, item, after, by rw [split]; rfl, isGood, others⟩
      · obtain ⟨item, member, isGood⟩ := found
        rcases List.mem_cons.mp member with same | isLater
        · exact ⟨[], first, items, rfl, same ▸ isGood,
            fun later isLater isGood => inside ⟨later, isLater, isGood⟩⟩
        · exact absurd ⟨item, isLater, isGood⟩ inside

/-- Nothing is lost for good exactly if each value that is collected is still
there after its last call. -/
theorem harmless_iff
    (areAdds : ∀ call ∈ calls, visitCall around .empty call = .ok (adds call)) :
    Harmless around calls ↔ ∀ varname value,
      (∃ call ∈ calls, Holds (adds call).contains varname value) →
      ∃ before call after, calls = before ++ call :: after ∧
        Holds (adds call).contains varname value ∧
        ∀ later ∈ after, isLibrary around later →
          varname ∉ (adds later).contains.keys := by
  constructor
  · intro harmless varname value collected
    obtain ⟨before, call, after, split, holds, last⟩ := exists_last collected
    refine ⟨before, call, after, split, holds, ?_⟩
    intro later isLater library isKey
    obtain ⟨middle, rest, isSplit⟩ := List.append_of_mem isLater
    have whole : calls = (before ++ call :: middle) ++ later :: rest := by
      rw [split, isSplit, List.append_assoc, List.cons_append]
    have isAdd :=
      areAdds later
        (by rw [whole]; exact List.mem_append_right _ List.mem_cons_self)
    have isAdd' :=
      areAdds call
        (by rw [split]; exact List.mem_append_right _ List.mem_cons_self)
    rcases harmless _ later rest whole varname
      ((overwrites_iff isAdd).mpr ⟨library, isKey⟩) call
      (List.mem_append_right _ List.mem_cons_self) value
      ((collects_iff isAdd').mpr holds) with
      again | ⟨other, isOther, again⟩
    · exact last later isLater ((collects_iff isAdd).mp again)
    · have inAfter : other ∈ after := by
        rw [isSplit]
        exact List.mem_append_right _ (.tail _ isOther)
      have inCalls : other ∈ calls := by
        rw [split]
        exact List.mem_append_right _ (.tail _ inAfter)
      exact last other inAfter ((collects_iff (areAdds other inCalls)).mp again)
  · intro kept before call after split varname overwrites earlier isEarlier
      value collects
    have isCall : call ∈ calls := by
      rw [split]
      exact List.mem_append_right _ List.mem_cons_self
    have inCalls : earlier ∈ calls := by
      rw [split]
      exact List.mem_append_left _ isEarlier
    have holds := (collects_iff (areAdds earlier inCalls)).mp collects
    obtain ⟨before', holder, after', split', held, last⟩ :=
      kept varname value ⟨earlier, inCalls, holds⟩
    have isHolder : holder ∈ calls := by
      rw [split']
      exact List.mem_append_right _ List.mem_cons_self
    have holderCollects := (collects_iff (areAdds holder isHolder)).mpr held
    -- The call that the value is kept from does not come before the one that
    -- overwrites.
    rcases List.append_eq_append_iff.mp (split.symm.trans split') with
      ⟨between, -, isRest⟩ | ⟨between, -, isRest⟩
    · cases between with
      | nil =>
          cases isRest
          exact .inl holderCollects
      | cons first between =>
          obtain ⟨-, isAfter⟩ := List.cons.inj isRest
          refine .inr ⟨holder, ?_, holderCollects⟩
          rw [isAfter]
          exact List.mem_append_right _ List.mem_cons_self
    · cases between with
      | nil =>
          cases isRest
          exact .inl holderCollects
      | cons first between =>
          obtain ⟨-, isAfter⟩ := List.cons.inj isRest
          have isLater : call ∈ after' := by
            rw [isAfter]
            exact List.mem_append_right _ List.mem_cons_self
          obtain ⟨library, isKey⟩ :=
            (overwrites_iff (areAdds call isCall)).mp overwrites
          exact absurd isKey (last call isLater library)

theorem isUnion_iff (summed : Summed around adds calls deps) :
    IsUnion (deps.line func extra) (Deps.empty.line func extra ::
        calls.map fun call => (adds call).line func extra) ↔
      ∀ varname value,
        (∃ call ∈ calls, Holds (adds call).contains varname value) →
        Holds deps.contains varname value := by
  have parts : ∀ good : PythonCacheLine Hash → Prop,
      (∃ part ∈ Deps.empty.line func extra ::
        calls.map (fun call => (adds call).line func extra), good part) ↔
      good (Deps.empty.line func extra) ∨ ∃ call ∈ calls,
      good ((adds call).line func extra) := by
    intro good
    simp
  constructor
  · intro union varname value collected
    apply (union.contains varname value).mpr
    rw [parts]
    exact .inr collected
  · intro kept
    constructor
    · intro name
      rw [parts]
      cases func with
      | none => simp [Deps.line, Deps.closed, Deps.empty, summed.references]
      | some func =>
          simp only [Deps.line, Deps.closed, Deps.empty, summed.references,
            List.mem_filter,
            List.mem_append, List.mem_flatMap, List.not_mem_nil, false_or,
            decide_eq_true_eq]
          constructor
          · intro named
            obtain ⟨⟨call, isCall, inside⟩ | isDep, notExcluded⟩ := named
            · exact .inr ⟨call, isCall, .inl inside, notExcluded⟩
            · exact .inl ⟨isDep, notExcluded⟩
          · intro named
            rcases named with ⟨isDep, notExcluded⟩ |
              ⟨call, isCall, inside | isDep, notExcluded⟩
            · exact ⟨.inr isDep, notExcluded⟩
            · exact ⟨.inl ⟨call, isCall, inside⟩, notExcluded⟩
            · exact ⟨.inr isDep, notExcluded⟩
    · intro name
      rw [parts]
      simp only [Deps.line, Deps.empty, summed.execs, summed.varExecs,
        List.mem_append,
        List.mem_flatMap, List.append_nil, List.not_mem_nil, false_or]
      constructor
      · intro either
        rcases either with ⟨call, isCall, inside⟩ | ⟨call, isCall, inside⟩
        · exact ⟨call, isCall, .inl inside⟩
        · exact ⟨call, isCall, .inr inside⟩
      · intro either
        obtain ⟨call, isCall, inside | inside⟩ := either
        · exact .inl ⟨call, isCall, inside⟩
        · exact .inr ⟨call, isCall, inside⟩
    · intro varname
      rw [parts]
      exact (summed.keys varname).trans
        (by simp [Deps.line, Deps.empty, Dict.keys])
    · intro varname value
      rw [parts]
      have nothing : ¬ Holds (Deps.empty.line func extra).contains varname
          value := holds_nil
      rw [or_iff_right nothing]
      constructor
      · intro holds
        obtain ⟨before, call, after, split, held, -⟩ :=
          (summed.holds varname value).mp holds
        refine ⟨call, ?_, held⟩
        rw [split]
        exact List.mem_append_right _ List.mem_cons_self
      · exact kept varname value

theorem exists_adds (fine : ∀ call ∈ calls, CallFine around call) :
    ∃ adds : Call Expr → Deps, ∀ call ∈ calls,
      visitCall around .empty call = .ok (adds call) ∧
        TextOnly (adds call) := by
  have inhabited : Nonempty Deps := ⟨.empty⟩
  have each : ∀ call ∈ calls, ∃ added, visitCall around .empty call =
      .ok added ∧
      TextOnly added := fun call member => visitCall_iff.mpr (fine call member)
  choose! adds areAdds using each
  exact ⟨adds, areAdds⟩

theorem composed_iff :
    Composed around func extra calls ↔
      (∀ call ∈ calls, CallFine around call) ∧ Harmless around calls := by
  have isBase : freshCalls around func extra [] =
      .ok (Deps.empty.line func extra) :=
    (freshCalls_eq_ok rfl).mpr ⟨textOnly_empty, rfl⟩
  constructor
  · intro composed
    obtain ⟨line, base, single, isLine, isBase', areSingle, union⟩ := composed
    cases isBase.symm.trans isBase'
    have fine : ∀ call ∈ calls, CallFine around call :=
      fun call member => single_iff.mp ⟨single call, areSingle call member⟩
    obtain ⟨adds, areAdds⟩ := exists_adds fine
    obtain ⟨deps, ran, summed⟩ :=
      summed_of_adds fun call member => (areAdds call member).1
    obtain ⟨-, same⟩ := (freshCalls_eq_ok ran).mp isLine
    have sameSingle : calls.map single = calls.map fun call =>
        (adds call).line func extra := by
      apply List.map_congr_left
      intro call member
      have ran := (foldlM_single call).trans (areAdds call member).1
      exact ((freshCalls_eq_ok ran).mp (areSingle call member)).2
    rw [same, sameSingle] at union
    refine ⟨fine, (harmless_iff fun call member => (areAdds call member).1).mpr
      ?_⟩
    intro varname value collected
    exact (summed.holds varname value).mp
      ((isUnion_iff summed).mp union varname value collected)
  · intro condition
    obtain ⟨fine, harmless⟩ := condition
    obtain ⟨adds, areAdds⟩ := exists_adds fine
    obtain ⟨deps, ran, summed⟩ :=
      summed_of_adds fun call member => (areAdds call member).1
    have textOnly := summed.textOnly fun call member => (areAdds call member).2
    refine ⟨deps.line func extra, Deps.empty.line func extra,
      fun call => (adds call).line func extra,
      (freshCalls_eq_ok ran).mpr ⟨textOnly, rfl⟩, isBase,
      ?_, ?_⟩
    · intro call member
      have ran := (foldlM_single call).trans (areAdds call member).1
      exact (freshCalls_eq_ok ran).mpr ⟨(areAdds call member).2, rfl⟩
    · apply (isUnion_iff summed).mpr
      intro varname value collected
      apply (summed.holds varname value).mpr
      exact (harmless_iff fun call member => (areAdds call member).1).mp
        harmless varname value collected

end Bodies

end Nvbmc.CodeParser
