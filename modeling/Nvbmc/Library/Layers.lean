import Mathlib.Data.List.Dedup
import Nvbmc.Library.Dict

/-!
# Layers

A table of values by layer and key, looked up through a list of layers, the
nearest first.
-/

namespace Nvbmc.Library

variable {κ α : Type} [DecidableEq κ]

def lookup (table : Dict (ℕ × κ) α) (layers : List ℕ) (key : κ) : Option α :=
  layers.findSome? fun layer => table.get? (layer, key)

/-- A layer before `layer` has the key. -/
def Shadowed (table : Dict (ℕ × κ) α) (layers : List ℕ) (layer : ℕ) (key : κ) :
    Prop :=
  ∃ nearer ∈ layers.takeWhile (· ≠ layer), table.contains (nearer, key)

def layerKeys (table : Dict (ℕ × κ) α) (layers : List ℕ) : List κ :=
  (layers.flatMap fun layer =>
    table.keys.filterMap fun name =>
      if name.1 = layer then some name.2 else none).dedup

section Lookup

variable {table : Dict (ℕ × κ) α} {layers : List ℕ} {layer : ℕ} {key other : κ}
  {value : α}

theorem lookup_cons (nearest : ℕ) :
    lookup table (nearest :: layers) key =
      (table.get? (nearest, key)).or (lookup table layers key) := by
  rw [lookup, List.findSome?_cons]
  cases table.get? (nearest, key) <;> rfl

theorem lookup_eq_none_iff :
    lookup table layers key = none ↔
      ∀ layer ∈ layers, table.get? (layer, key) = none := by
  rw [lookup, List.findSome?_eq_none_iff]

theorem lookup_append (nearer : List ℕ) :
    lookup table (nearer ++ layers) key =
      (lookup table nearer key).or (lookup table layers key) := by
  induction nearer with
  | nil => rfl
  | cons first nearer next =>
      rw [List.cons_append, lookup_cons, lookup_cons, next, Option.or_assoc]

theorem mem_of_lookup (found : lookup table layers key = some value) :
    ∃ layer ∈ layers, table.get? (layer, key) = some value :=
  List.exists_of_findSome?_eq_some found

theorem lookup_set_of_ne_key (different : key ≠ other) :
    lookup (table.set (layer, other) value) layers key =
      lookup table layers key := by
  rw [lookup, lookup]
  congr 1
  funext nearer
  exact Dict.get?_set_of_ne _ _ fun same => different (congrArg Prod.snd same)

theorem lookup_set_of_not_mem (missing : layer ∉ layers) :
    lookup (table.set (layer, other) value) layers key =
      lookup table layers key := by
  induction layers with
  | nil => rfl
  | cons nearest layers next =>
      rw [List.mem_cons, not_or] at missing
      rw [lookup_cons, lookup_cons, next missing.2, Dict.get?_set_of_ne]
      exact fun same => missing.1 (congrArg Prod.fst same).symm

theorem shadowed_cons_self : ¬ Shadowed table (layer :: layers) layer key := by
  simp [Shadowed]

theorem shadowed_split {nearer : List ℕ} (missing : layer ∉ nearer) :
    Shadowed table (nearer ++ layer :: layers) layer key ↔
      ∃ value, lookup table nearer key = some value := by
  have before : (nearer ++ layer :: layers).takeWhile (· ≠ layer) = nearer := by
    rw [List.takeWhile_append_of_pos, List.takeWhile_cons]
    · simp
    · intro other member
      simp only [ne_eq, decide_not, Bool.not_eq_eq_eq_not, Bool.not_true,
        decide_eq_false_iff_not]
      rintro rfl
      exact missing member
  rw [Shadowed, before, ← Option.isSome_iff_exists, ← Option.ne_none_iff_isSome,
    ne_eq, lookup_eq_none_iff]
  simp [Dict.contains, Option.isSome_iff_ne_none]

theorem lookup_set_split {nearer : List ℕ} (missing : layer ∉ nearer) :
    lookup (table.set (layer, key) value) (nearer ++ layer :: layers) key =
      (lookup table nearer key).or (some value) := by
  rw [lookup_append, lookup_set_of_not_mem missing, lookup_cons,
    Dict.get?_set_self]
  rfl

theorem lookup_set_of_not_shadowed (member : layer ∈ layers)
    (visible : ¬ Shadowed table layers layer key) :
    lookup (table.set (layer, key) value) layers key = some value := by
  obtain ⟨nearer, farther, rfl, missing⟩ := List.eq_append_cons_of_mem member
  rw [shadowed_split missing, ← Option.ne_none_iff_exists', not_not] at visible
  rw [lookup_set_split missing, visible, Option.none_or]

theorem lookup_set_of_shadowed (shadowed : Shadowed table layers layer key) :
    lookup (table.set (layer, key) value) layers key =
      lookup table layers key := by
  by_cases member : layer ∈ layers
  · obtain ⟨nearer, farther, rfl, missing⟩ := List.eq_append_cons_of_mem member
    obtain ⟨found, isFound⟩ := (shadowed_split missing).mp shadowed
    rw [lookup_set_split missing, lookup_append, isFound]
    rfl
  · exact lookup_set_of_not_mem member

theorem lookup_set_cases (table : Dict (ℕ × κ) α) (layers : List ℕ) (layer : ℕ)
    (other key : κ) (value : α) :
    (key = other ∧ layer ∈ layers ∧ ¬ Shadowed table layers layer other ∧
        lookup (table.set (layer, other) value) layers key = some value) ∨
    (¬ (key = other ∧ layer ∈ layers ∧ ¬ Shadowed table layers layer other) ∧
      lookup (table.set (layer, other) value) layers key =
        lookup table layers key) := by
  by_cases different : key = other
  · subst different
    by_cases member : layer ∈ layers
    · by_cases shadowed : Shadowed table layers layer key
      · right
        exact ⟨fun visible => visible.2.2 shadowed,
          lookup_set_of_shadowed shadowed⟩
      · left
        exact ⟨rfl, member, shadowed,
          lookup_set_of_not_shadowed member shadowed⟩
    · right
      exact ⟨fun visible => member visible.2.1, lookup_set_of_not_mem member⟩
  · right
    exact ⟨fun visible => different visible.1, lookup_set_of_ne_key different⟩

theorem nodup_layerKeys : (layerKeys table layers).Nodup := List.nodup_dedup _

theorem mem_layerKeys :
    key ∈ layerKeys table layers ↔ lookup table layers key ≠ none := by
  have found (layer : ℕ) : (∃ name ∈ table.keys,
      (if name.1 = layer then some name.2 else none) = some key) ↔
        table.get? (layer, key) ≠ none := by
    rw [Dict.get?_ne_none_iff]
    constructor
    · rintro ⟨⟨other, found⟩, member, same⟩
      split_ifs at same with here
      cases same
      rwa [← here]
    · intro member
      exact ⟨_, member, if_pos rfl⟩
  rw [layerKeys, List.mem_dedup, ne_eq, lookup_eq_none_iff, List.mem_flatMap]
  simp only [List.mem_filterMap, found]
  push Not
  rfl

end Lookup

end Nvbmc.Library
