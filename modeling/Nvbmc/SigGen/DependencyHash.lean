import Mathlib.Algebra.Order.BigOperators.Group.Finset
import Mathlib.Data.Char
import Mathlib.Data.Finset.Sort
import Nvbmc.Library.Dict
import Nvbmc.Library.Pieces
import Nvbmc.Library.Text

/-!
# The base hash of a task

`generate_dependency_hash` puts the value of a task, and the names and values of
the variables it depends on, one behind the other and hashes the text.
`calc_basehash` does it again from what was written about the task.  Nothing
stands between the pieces, so a text can be cut into pieces in more than one
way.
-/

namespace Nvbmc.SigGen

open Library

/-- `sorted`. -/
def sortedNames (names : Finset Text) : List Text :=
  names.sort

theorem mem_sortedNames {names : Finset Text} {name : Text} :
    name ∈ sortedNames names ↔ name ∈ names :=
  Finset.mem_sort (· ≤ ·)

/-- What goes into the base hash of a task. -/
structure TaskInputs where
  value : Option Text
  /-- All the variables it depends on. -/
  deps : Finset Text
  values : Text → Option Text

/-- The text of a value; there is none for `None`. -/
def textOf (value : Option Text) : Text :=
  value.getD []

namespace TaskInputs

variable (task : TaskInputs)

/-- `data` in `generate_dependency_hash`. -/
def data : List Text :=
  task.value.toList ++ task.deps.sort.flatMap fun dep =>
    dep :: (task.values dep).toList

def hashed : Text :=
  task.data.flatten

def pieces : List Text :=
  textOf task.value :: task.deps.sort.flatMap fun dep =>
    [dep, textOf (task.values dep)]

end TaskInputs

theorem flatten_toList (value : Option Text) :
    value.toList.flatten = textOf value := by
  cases value with
  | none => rfl
  | some text => exact List.append_nil text

theorem flatten_pieces (task : TaskInputs) :
    task.pieces.flatten = task.hashed := by
  have rest : ∀ names : List Text,
      (names.flatMap fun dep => [dep, textOf (task.values dep)]).flatten =
        (names.flatMap fun dep => dep :: (task.values dep).toList).flatten := by
    intro names
    induction names with
    | nil => rfl
    | cons name names induction =>
        simp only [List.flatMap_cons, List.flatten_append, List.flatten_cons,
          List.flatten_nil, List.append_nil, flatten_toList, induction]
  rw [TaskInputs.pieces, List.flatten_cons, rest, TaskInputs.hashed,
    TaskInputs.data, List.flatten_append, flatten_toList]

structure SameTexts (first second : TaskInputs) : Prop where
  value : textOf first.value = textOf second.value
  deps : first.deps = second.deps
  values : ∀ dep ∈ first.deps,
    textOf (first.values dep) = textOf (second.values dep)

theorem sameTexts_of_pieces {first second : TaskInputs}
    (same : first.pieces = second.pieces) : SameTexts first second := by
  obtain ⟨value, rest⟩ := List.cons.inj same
  have pairs : ∀ names others : List Text,
      (names.flatMap fun dep => [dep, textOf (first.values dep)]) =
        (others.flatMap fun dep => [dep, textOf (second.values dep)]) →
      names = others ∧
        ∀ dep ∈ names, textOf (first.values dep) =
          textOf (second.values dep) := by
    intro names
    induction names with
    | nil =>
        intro others equal
        cases others with
        | nil => exact ⟨rfl, nofun⟩
        | cons other others => cases equal
    | cons name names induction =>
        intro others equal
        cases others with
        | nil => cases equal
        | cons other others =>
            simp only [List.flatMap_cons, List.cons_append, List.nil_append,
              List.cons.injEq] at equal
            obtain ⟨rfl, text, later⟩ := equal
            obtain ⟨rfl, texts⟩ := induction others later
            refine ⟨rfl, fun dep member => ?_⟩
            rcases List.mem_cons.mp member with rfl | there
            · exact text
            · exact texts dep there
  obtain ⟨names, texts⟩ := pairs _ _ rest
  refine ⟨value, ?_, fun dep member =>
    texts dep ((Finset.mem_sort (· ≤ ·)).mpr member)⟩
  rw [← Finset.sort_toFinset first.deps (· ≤ ·), names, Finset.sort_toFinset]

theorem length_hashed (task : TaskInputs) :
    task.hashed.length = (textOf task.value).length +
      ∑ dep ∈ task.deps, (dep.length + (textOf (task.values dep)).length) := by
  have rest : ∀ names : List Text,
      (names.flatMap fun dep =>
        [dep, textOf (task.values dep)]).flatten.length =
        (names.map fun dep => dep.length +
          (textOf (task.values dep)).length).sum := by
    intro names
    induction names with
    | nil => rfl
    | cons name names induction =>
        simp only [List.flatMap_cons, List.flatten_append, List.flatten_cons,
          List.flatten_nil, List.append_nil, List.length_append, induction,
          List.map_cons, List.sum_cons]
  rw [← flatten_pieces, TaskInputs.pieces, List.flatten_cons,
    List.length_append, rest]
  nth_rewrite 2 [← Finset.sort_toFinset task.deps (· ≤ ·)]
  rw [List.sum_toFinset _ (Finset.sort_nodup ..)]

theorem deps_eq_of_hashed_eq {first second : TaskInputs}
    (same : first.hashed = second.hashed) (named : [] ∉ second.deps)
    (fewer : first.deps ⊆ second.deps)
    (value : textOf first.value = textOf second.value)
    (values : ∀ dep ∈ first.deps,
      textOf (first.values dep) = textOf (second.values dep)) :
    first.deps = second.deps := by
  by_contra different
  have lengths := congrArg List.length same
  rw [length_hashed, length_hashed, value, Nat.add_left_cancel_iff,
    Finset.sum_congr rfl fun dep member => by rw [values dep member]] at lengths
  obtain ⟨dep, there, missing⟩ :=
    Finset.exists_of_ssubset (fewer.ssubset_of_ne different)
  have less := Finset.sum_lt_sum_of_subset fewer there missing
    (f := fun dep => dep.length + (textOf (second.values dep)).length) ?_ ?_
  · exact absurd lengths less.ne
  · have positive : 0 < dep.length := by
      apply List.length_pos_iff.mpr
      rintro rfl
      exact named there
    omega
  · exact fun _ _ _ => Nat.zero_le _

/-- Tasks with the same text differ in more than one place: names and texts are
the same when all their lengths are but one, and when one task only has more
variables. -/
theorem sameTexts_of_hashed_eq (first second : TaskInputs)
    (same : first.hashed = second.hashed) :
    (first.deps.card = second.deps.card → ∀ place,
      (∀ index : ℕ, index ≠ place →
        (first.pieces[index]?.map List.length) =
          second.pieces[index]?.map List.length) →
      SameTexts first second) ∧
    ([] ∉ second.deps → first.deps ⊆ second.deps →
      textOf first.value = textOf second.value →
      (∀ dep ∈ first.deps,
        textOf (first.values dep) = textOf (second.values dep)) →
      SameTexts first second) := by
  constructor
  · intro count place others
    have whole : first.pieces.flatten = second.pieces.flatten := by
      rw [flatten_pieces, flatten_pieces, same]
    have number : first.pieces.length = second.pieces.length := by
      simp [TaskInputs.pieces, count]
    have lengths := lengths_eq number (congrArg List.length whole) place others
    exact sameTexts_of_pieces (eq_of_flatten_eq lengths whole)
  · intro named fewer value values
    exact ⟨value, deps_eq_of_hashed_eq same named fewer value values, values⟩

def oneVariable (value : Option Text) : TaskInputs :=
  { value := value
    deps := {['V']}
    values := fun _ => some ['a'] }

/-- No value and an empty one are the same text. -/
theorem sameTexts_oneVariable :
    SameTexts (oneVariable none) (oneVariable (some [])) := by
  have same : (oneVariable none).hashed = (oneVariable (some [])).hashed := by
    simp [TaskInputs.hashed, TaskInputs.data, oneVariable]
  exact (sameTexts_of_hashed_eq (oneVariable none) (oneVariable (some []))
    same).1
    rfl 0 fun _ _ => rfl

/-- The name of a variable can be the end of the value of the task. -/
theorem not_injective_hashed :
    ¬ ∀ first second : TaskInputs, first.hashed = second.hashed →
      first.value = second.value ∧ first.deps = second.deps ∧
        ∀ dep ∈ first.deps, first.values dep = second.values dep := by
  intro injective
  have same : TaskInputs.hashed ⟨some ['a', 'V'], ∅, fun _ => none⟩ =
      TaskInputs.hashed ⟨some ['a'], {['V']}, fun _ => none⟩ := by
    simp [TaskInputs.hashed, TaskInputs.data]
  have value := (injective _ _ same).1
  simp at value

end Nvbmc.SigGen
