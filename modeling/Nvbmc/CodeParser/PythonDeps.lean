import Nvbmc.CodeParser.PythonCalls

/-!
# The dependencies are those of the single calls

What a call adds to the sets of a parser does not depend on them, except that a
library function with visitor code puts its sets in place of the others.
-/

namespace Nvbmc.CodeParser

open Nvbmc.Library

/-- A value is in the set of a variable. -/
def Holds (contains : Dict Text (List Const)) (varname : Text) (value : Const) :
    Prop :=
  ∃ items, contains.get? varname = some items ∧ value ∈ items

section Containers

variable {contains entries : Dict Text (List Const)} {varname other : Text}
  {value : Const} {items : List Const}

theorem holds_set : Holds (contains.set varname items) other value ↔
      if other = varname then value ∈ items
      else Holds contains other value := by
  rw [Holds, Holds, Dict.get?_set]
  split_ifs with same
  · simp
  · rfl

theorem holds_nil : ¬ Holds [] varname value := by
  intro holds
  obtain ⟨items, isSome, -⟩ := holds
  cases isSome

theorem holds_addContains :
    Holds (addContains contains varname items) other value ↔
      Holds contains other value ∨ other = varname ∧ value ∈ items := by
  rw [addContains, holds_set]
  split_ifs with same
  · rw [List.mem_append, Holds, same]
    cases contains.get? varname <;> simp
  · simp [same]

theorem mem_keys_addContains :
    other ∈ (addContains contains varname items).keys ↔
      other = varname ∨ other ∈ contains.keys := by
  rw [addContains, Dict.mem_keys_set]

/-- Sets are added to those of a dictionary. -/
def addAll (contains entries : Dict Text (List Const)) :
    Dict Text (List Const) :=
  entries.foldl (fun contains entry => addContains contains entry.1 entry.2)
    contains

/-- Sets take the place of those of a dictionary. -/
def setAll (contains entries : Dict Text (List Const)) :
    Dict Text (List Const) :=
  entries.foldl (fun contains entry => contains.set entry.1 entry.2) contains

theorem addAll_cons (contains : Dict Text (List Const))
    (entry : Text × List Const) :
    addAll contains (entry :: entries) =
      addAll (addContains contains entry.1 entry.2) entries :=
  rfl

theorem setAll_cons (contains : Dict Text (List Const))
    (entry : Text × List Const) :
    setAll contains (entry :: entries) = setAll (contains.set entry.1 entry.2)
      entries :=
  rfl

theorem mem_keys_cons {entry : Text × List Const} :
    other ∈ Dict.keys (entry :: entries) ↔ other = entry.1 ∨
      other ∈ Dict.keys entries := by
  rw [Dict.keys, Dict.keys, List.map_cons, List.mem_cons]

theorem holds_cons {entry : Text × List Const} :
    Holds (entry :: entries) varname value ↔
      if entry.1 = varname then value ∈ entry.2
      else Holds entries varname value := by
  rw [Holds, Holds, Dict.get?]
  split_ifs with same
  · simp
  · rfl

theorem mem_keys_addAll :
    other ∈ (addAll contains entries).keys ↔ other ∈ contains.keys ∨
      other ∈ entries.keys := by
  induction entries generalizing contains with
  | nil => simp [addAll, Dict.keys]
  | cons entry entries induction =>
      rw [addAll_cons, induction, mem_keys_addContains, mem_keys_cons]
      tauto

theorem mem_keys_setAll :
    other ∈ (setAll contains entries).keys ↔ other ∈ contains.keys ∨
      other ∈ entries.keys := by
  induction entries generalizing contains with
  | nil => simp [setAll, Dict.keys]
  | cons entry entries induction =>
      rw [setAll_cons, induction, Dict.mem_keys_set, mem_keys_cons]
      tauto

theorem not_holds_of_missing (missing : varname ∉ contains.keys) :
    ¬ Holds contains varname value := by
  intro holds
  obtain ⟨items, isSome, -⟩ := holds
  exact missing (Dict.mem_keys_of_get? isSome)

variable (unique : entries.keys.Nodup)
include unique

theorem holds_addAll :
    Holds (addAll contains entries) varname value ↔
      Holds contains varname value ∨ Holds entries varname value := by
  induction entries generalizing contains with
  | nil => simp [addAll, holds_nil]
  | cons entry entries induction =>
      obtain ⟨absent, unique⟩ := List.nodup_cons.mp unique
      rw [addAll_cons, induction unique, holds_addContains, holds_cons]
      split_ifs with same
      · have missing : ¬ Holds entries varname value :=
          not_holds_of_missing (same ▸ absent)
        simp [same, missing]
      · simp [Ne.symm same]

theorem holds_setAll :
    Holds (setAll contains entries) varname value ↔
      Holds entries varname value ∨ varname ∉ entries.keys ∧
        Holds contains varname value := by
  induction entries generalizing contains with
  | nil => simp [setAll, holds_nil, Dict.keys]
  | cons entry entries induction =>
      obtain ⟨absent, unique⟩ := List.nodup_cons.mp unique
      rw [setAll_cons, induction unique, holds_set, holds_cons, mem_keys_cons,
        not_or]
      by_cases same : entry.1 = varname
      · have missing : ¬ Holds entries varname value :=
          not_holds_of_missing (same ▸ absent)
        have notKey : varname ∉ Dict.keys entries := same ▸ absent
        simp [same, missing, notKey]
      · simp [same, Ne.symm same]

theorem addAll_nil : addAll [] entries = entries := by
  have general : ∀ done : Dict Text (List Const), (done ++ entries).keys.Nodup →
      addAll done entries = done ++ entries := by
    induction entries with
    | nil => exact fun done _ => (List.append_nil done).symm
    | cons entry entries induction =>
        intro done unique'
        have missing : entry.1 ∉ done.keys := by
          intro member
          rw [Dict.keys, List.map_append, List.nodup_append] at unique'
          exact unique'.2.2 entry.1 member entry.1 (by simp) rfl
        have absent : done.get? entry.1 = none := by
          cases found : done.get? entry.1 with
          | none => rfl
          | some items => exact absurd (Dict.mem_keys_of_get? found) missing
        have next : addContains done entry.1 entry.2 = done ++ [entry] := by
          rw [addContains, absent, Dict.set_of_not_mem _ missing]
          rfl
        rw [addAll_cons, next]
        have later := induction (List.nodup_cons.mp unique).2 (done ++ [entry])
          (by rw [List.append_assoc]; exact unique')
        rw [List.append_assoc] at later
        exact later
  exact general [] unique

theorem setAll_nil : setAll [] entries = entries :=
  Dict.foldl_set_of_nodup unique

omit unique

theorem keys_map (entries : Dict Text (List Text)) :
    Dict.keys (entries.map fun entry => (entry.1, entry.2.map Const.str)) =
      entries.keys := by
  rw [Dict.keys, List.map_map]
  rfl

end Containers

/-- The sets of a parser with those of a call. -/
def Deps.plus (deps added : Deps) : Deps :=
  ⟨deps.references ++ added.references, deps.execs ++ added.execs,
    deps.varExecs ++ added.varExecs, addAll deps.contains added.contains⟩

/-- The sets of a parser with those of a library function. -/
def Deps.overwritten (deps added : Deps) : Deps :=
  ⟨deps.references ++ added.references, deps.execs ++ added.execs,
    deps.varExecs ++ added.varExecs, setAll deps.contains added.contains⟩

section Calls

variable {Expr : Type} {around : Surroundings Expr} {deps : Deps}
  {args : List (Arg Expr)} {name : Text}

def isLibrary (around : Surroundings Expr) (call : Call Expr) : Prop :=
  ∃ name visitor, call.name = some name ∧ around.visitorcode name = some visitor

theorem visitLibrary_eq (visited : Visited Expr) :
    visitLibrary around visited deps =
      (visitLibrary around visited .empty).map deps.overwritten := by
  have sets : visited.contains.foldl
      (fun contains entry => contains.set entry.1 (entry.2.map Const.str))
      deps.contains =
      setAll deps.contains (visited.contains.foldl
        (fun contains entry => contains.set entry.1 (entry.2.map Const.str))
        []) := by
    have isSet : ∀ contains : Dict Text (List Const), visited.contains.foldl
        (fun contains entry => contains.set entry.1 (entry.2.map Const.str))
        contains =
        setAll contains (visited.contains.map fun entry =>
          (entry.1, entry.2.map Const.str)) := by
      intro contains
      rw [setAll, List.foldl_map]
    rw [isSet, isSet, setAll_nil (keys_map visited.contains ▸ visited.nodup)]
  rw [visitLibrary, visitLibrary]
  cases visited.warn with
  | none => simp [Except.map, Deps.overwritten, Deps.empty, sets]
  | some arg =>
      simp only []
      cases warn around arg with
      | error error => rfl
      | ok done => simp [Except.map, Deps.overwritten, Deps.empty, sets]

theorem warned_eq (arg : Arg Expr) :
    (warn around arg).map (fun _ => deps) =
      ((warn around arg).map fun _ => Deps.empty).map deps.plus := by
  cases warn around arg with
  | error error => rfl
  | ok done => simp [Except.map, Deps.plus, Deps.empty, addAll]

theorem visitNamed_eq (varname : Text) :
    visitNamed around name varname args deps =
      (visitNamed around name varname args .empty).map deps.plus := by
  unfold visitNamed
  split_ifs
  · cases args with
    | nil => rfl
    | cons arg rest =>
        cases arg <;> simp [Except.map, Deps.plus, Deps.empty, addAll,
          addContains, Dict.set]
  · cases args with
    | nil => rfl
    | cons arg rest =>
        cases arg with
        | expr expr => simp [Except.map, Deps.plus, Deps.empty, addAll]
        | const value =>
            simp only []
            cases value.split with
            | error error => rfl
            | ok items =>
                simp [Except.map, Deps.plus, Deps.empty, addAll, addContains,
                  Dict.set]
  · cases args with
    | nil => rfl
    | cons arg rest =>
        cases arg with
        | expr expr => exact warned_eq (.expr expr)
        | const value => simp [Except.map, Deps.plus, Deps.empty, addAll]
  · simp [Except.map, Deps.plus, Deps.empty, addAll]

theorem visitGetter_eq :
    visitGetter around name args deps =
      (visitGetter around name args .empty).map deps.plus := by
  cases args with
  | nil => rfl
  | cons arg rest =>
      cases arg with
      | expr expr => exact warned_eq (.expr expr)
      | const value =>
          cases value with
          | bytes pieces shown =>
              exact @warned_eq _ around deps (.const (.bytes pieces shown))
          | other shown =>
              exact @warned_eq _ around deps (.const (.other shown))
          | str varname => exact visitNamed_eq varname

theorem visitExpand_eq :
    visitExpand around args deps = (visitExpand around args .empty).map
      deps.plus := by
  cases args with
  | nil => rfl
  | cons arg rest =>
      have silent : Except.ok deps =
          (Except.ok Deps.empty : Except PyError Deps).map deps.plus := by
        simp [Except.map, Deps.plus, Deps.empty, addAll]
      cases arg with
      | expr expr => exact silent
      | const value =>
          cases value with
          | bytes pieces shown => exact silent
          | other shown => exact silent
          | str text =>
              rw [visitExpand, visitExpand]
              cases around.expandWithRefs text with
              | error error => rfl
              | ok parser =>
                  have isAdd : ∀ contains : Dict Text (List Const),
                      parser.contains.foldl
                      (fun contains entry => addContains contains entry.1
                        (entry.2.map Const.str)) contains =
                      addAll contains
                        (parser.contains.map fun entry =>
                          (entry.1, entry.2.map Const.str)) := by
                    intro contains
                    rw [addAll, List.foldl_map]
                  simp [Except.map, Deps.plus, Deps.empty, isAdd,
                    addAll_nil (keys_map parser.contains ▸ parser.nodup)]

theorem visitExec_eq :
    visitExec around args deps = (visitExec around args .empty).map
      deps.plus := by
  cases args with
  | nil => rfl
  | cons arg rest =>
      cases arg with
      | const value =>
          simp [visitExec, Except.map, Deps.plus, Deps.empty, addAll]
      | expr expr => exact warned_eq (.expr expr)

variable {call : Call Expr}

theorem visitCall_of_library (library : isLibrary around call) :
    visitCall around deps call = (visitCall around .empty call).map
      deps.overwritten := by
  obtain ⟨name, visitor, isName, isVisitor⟩ := library
  rw [visitCall, visitCall, isName]
  simp only [isVisitor]
  cases visitor call.args with
  | error error => rfl
  | ok visited => exact visitLibrary_eq visited

theorem visitCall_of_not_library (other : ¬ isLibrary around call) :
    visitCall around deps call = (visitCall around .empty call).map
      deps.plus := by
  rw [visitCall, visitCall]
  cases isName : call.name with
  | none => simp [Except.map, Deps.plus, Deps.empty, addAll]
  | some name =>
      have isNone : around.visitorcode name = none := by
        cases isVisitor : around.visitorcode name with
        | none => rfl
        | some visitor => exact absurd ⟨name, visitor, isName, isVisitor⟩ other
      simp only [isNone]
      split_ifs
      · exact visitGetter_eq
      · exact visitExpand_eq
      · exact visitExec_eq
      · simp [Except.map, Deps.plus, Deps.empty, addAll]

theorem map_eq_ok {α β ε : Type} {f : α → β} {x : Except ε α} {result : β}
    (ran : x.map f = .ok result) :
    ∃ value, x = .ok value ∧ f value = result := by
  cases x with
  | error error => cases ran
  | ok value =>
      cases ran
      exact ⟨value, rfl, rfl⟩

theorem nodup_addContains {contains : Dict Text (List Const)} (varname : Text)
    (items : List Const) (unique : contains.keys.Nodup) :
    (addContains contains varname items).keys.Nodup :=
  Dict.nodup_keys_set unique varname _

variable {deps' : Deps} (unique : deps.contains.keys.Nodup)
include unique

theorem nodup_visitNamed {varname : Text}
    (visited : visitNamed around name varname args deps = .ok deps') :
    deps'.contains.keys.Nodup := by
  unfold visitNamed at visited
  split_ifs at visited
  · cases args with
    | nil => cases visited
    | cons arg rest =>
        cases arg with
        | expr expr =>
            cases visited
            exact unique
        | const value =>
            cases visited
            exact nodup_addContains varname _ unique
  · cases args with
    | nil => cases visited
    | cons arg rest =>
        cases arg with
        | expr expr =>
            cases visited
            exact unique
        | const value =>
            obtain ⟨items, -, same⟩ := map_eq_ok visited
            rw [← same]
            exact nodup_addContains varname _ unique
  · cases args with
    | nil => cases visited
    | cons arg rest =>
        cases arg with
        | expr expr =>
            obtain ⟨done, -, same⟩ := map_eq_ok visited
            exact same ▸ unique
        | const value =>
            cases visited
            exact unique
  · cases visited
    exact unique

theorem nodup_visitGetter
    (visited : visitGetter around name args deps = .ok deps') :
    deps'.contains.keys.Nodup := by
  have warned : ∀ arg : Arg Expr, (warn around arg).map (fun _ => deps) =
      .ok deps' → deps'.contains.keys.Nodup := by
    intro arg ran
    obtain ⟨done, -, same⟩ := map_eq_ok ran
    exact same ▸ unique
  cases args with
  | nil => cases visited
  | cons arg rest =>
      cases arg with
      | expr expr => exact warned _ visited
      | const value =>
          cases value with
          | bytes pieces shown =>
              exact warned (.const (.bytes pieces shown)) visited
          | other shown => exact warned (.const (.other shown)) visited
          | str varname => exact nodup_visitNamed unique visited

theorem nodup_visitExpand
    (visited : visitExpand around args deps = .ok deps') :
    deps'.contains.keys.Nodup := by
  cases args with
  | nil => cases visited
  | cons arg rest =>
      cases arg with
      | expr expr =>
          cases visited
          exact unique
      | const value =>
          cases value with
          | bytes pieces shown =>
              cases visited
              exact unique
          | other shown =>
              cases visited
              exact unique
          | str text =>
              obtain ⟨parser, -, same⟩ := map_eq_ok visited
              rw [← same]
              exact List.foldlRecOn (motive :=
                fun contains : Dict Text (List Const) =>
                contains.keys.Nodup) parser.contains _ unique
                (fun contains unique entry _ => nodup_addContains _ _ unique)

theorem nodup_visitExec
    (visited : visitExec around args deps = .ok deps') :
    deps'.contains.keys.Nodup := by
  cases args with
  | nil => cases visited
  | cons arg rest =>
      cases arg with
      | const value =>
          cases visited
          exact unique
      | expr expr =>
          obtain ⟨done, -, same⟩ := map_eq_ok visited
          exact same ▸ unique

theorem nodup_visitLibrary {found : Visited Expr}
    (visited : visitLibrary around found deps = .ok deps') :
    deps'.contains.keys.Nodup := by
  have set : (found.contains.foldl
      (fun contains entry => contains.set entry.1 (entry.2.map Const.str))
        deps.contains).keys.Nodup :=
    List.foldlRecOn (motive :=
      fun contains : Dict Text (List Const) => contains.keys.Nodup)
      found.contains _ unique
        (fun contains unique entry _ => Dict.nodup_keys_set unique _ _)
  rw [visitLibrary] at visited
  cases isWarn : found.warn with
  | none =>
      rw [isWarn] at visited
      cases visited
      exact set
  | some arg =>
      rw [isWarn] at visited
      obtain ⟨done, -, same⟩ := map_eq_ok visited
      rw [← same]
      exact set

theorem nodup_visitCall
    (visited : visitCall around deps call = .ok deps') :
    deps'.contains.keys.Nodup := by
  rw [visitCall] at visited
  cases isName : call.name with
  | none =>
      rw [isName] at visited
      cases visited
      exact unique
  | some name =>
      rw [isName] at visited
      cases isVisitor : around.visitorcode name with
      | some visitor =>
          simp only [isVisitor] at visited
          cases ran : visitor call.args with
          | error error =>
              rw [ran] at visited
              cases visited
          | ok found =>
              rw [ran] at visited
              exact nodup_visitLibrary unique visited
      | none =>
          simp only [isVisitor] at visited
          split_ifs at visited
          · exact nodup_visitGetter unique visited
          · exact nodup_visitExpand unique visited
          · exact nodup_visitExec unique visited
          · cases visited
            exact unique

end Calls

end Nvbmc.CodeParser
