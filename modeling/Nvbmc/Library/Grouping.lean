import Mathlib.Data.List.Sublists
import Nvbmc.Library.Dict

/-!
# Groups

The items of a list under their keys, as a dictionary of lists and as a list in
which the items of one key stand next to each other.
-/

namespace Nvbmc.Library

variable {κ α β : Type} [DecidableEq κ]

/-- `d.setdefault(key, []).append(value)`. -/
def Dict.push (d : Dict κ (List β)) (key : κ) (value : β) : Dict κ (List β) :=
  d.set key ((d.get? key).getD [] ++ [value])

/-- Every item is put behind those of its key. -/
def Dict.groups (key : α → κ) (value : α → β) (items : List α) :
    Dict κ (List β) :=
  items.foldl (fun d item => d.push (key item) (value item)) []

section Position

variable (front back : List α) (item : α)

theorem insertIdx_length_append :
    (front ++ back).insertIdx front.length item = front ++ item :: back := by
  induction front with
  | nil => simp
  | cons head front induction =>
      rw [List.cons_append, List.length_cons, List.insertIdx_succ_cons,
        induction, List.cons_append]

theorem eraseIdx_length_append :
    (front ++ item :: back).eraseIdx front.length = front ++ back := by
  rw [List.eraseIdx_append_of_length_le (Nat.le_refl _), Nat.sub_self,
    List.eraseIdx_cons_zero]

end Position

section Groups

variable {key : α → κ} {value : α → β} {items : List α}

theorem Dict.groups_append_singleton (item : α) :
    groups key value (items ++ [item]) =
      (groups key value items).push (key item) (value item) := by
  rw [groups, List.foldl_append]
  rfl

theorem Dict.mem_keys_groups {name : κ} :
    name ∈ (groups key value items).keys ↔ ∃ item ∈ items, key item = name := by
  induction items using List.reverseRecOn with
  | nil => simp [groups, keys]
  | append_singleton items item induction =>
      rw [groups_append_singleton, push, mem_keys_set, induction]
      constructor
      · intro member
        rcases member with same | ⟨other, member, named⟩
        · exact ⟨item, by simp, same.symm⟩
        · exact ⟨other, by simp [member], named⟩
      · intro isNamed
        obtain ⟨other, member, named⟩ := isNamed
        rcases List.mem_append.mp member with earlier | last
        · exact .inr ⟨other, earlier, named⟩
        · rw [List.mem_singleton.mp last] at named
          exact .inl named.symm

theorem Dict.nodup_keys_groups : (groups key value items).keys.Nodup := by
  induction items using List.reverseRecOn with
  | nil => simp [groups, keys]
  | append_singleton items item induction =>
      rw [groups_append_singleton]
      exact nodup_keys_set induction ..

theorem Dict.getD_groups (name : κ) :
    ((groups key value items).get? name).getD [] =
      (items.filter (key · = name)).map value := by
  induction items using List.reverseRecOn with
  | nil => rfl
  | append_singleton items item induction =>
      rw [groups_append_singleton, push, get?_set, List.filter_append,
        List.map_append]
      split_ifs with same
      · subst same
        simp [induction]
      · have different : key item ≠ name := Ne.symm same
        simp [induction, different]

theorem Dict.eq_of_mem_groups {name : κ} {group : List β}
    (member : (name, group) ∈ groups key value items) :
    group = (items.filter (key · = name)).map value := by
  rw [← getD_groups, get?_of_mem nodup_keys_groups member]
  rfl

end Groups

variable {names : List κ}

theorem filter_filterMap_key {key : β → κ} {choice : κ → Option β}
    (keyed : ∀ name ∈ names, ∀ item, choice name = some item → key item = name)
    (unique : names.Nodup) (name : κ) :
    (names.filterMap choice).filter (key · = name) =
      if name ∈ names then (choice name).toList else [] := by
  induction names with
  | nil => rfl
  | cons other names induction =>
      obtain ⟨missing, unique⟩ := List.nodup_cons.mp unique
      have rest :=
        induction (fun name member =>
          keyed name (List.mem_cons_of_mem _ member)) unique
      cases chosen : choice other with
      | none =>
          rw [List.filterMap_cons_none chosen, rest]
          by_cases same : name = other
          · simp [same, chosen]
          · simp [same]
      | some item =>
          have isOther := keyed other List.mem_cons_self item chosen
          rw [List.filterMap_cons_some chosen]
          by_cases same : name = other
          · subst same
            simp [isOther, rest, missing, chosen]
          · have different : other ≠ name := Ne.symm same
            simp [isOther, rest, same, different]

theorem filter_eq_singleton_of_perm {key : β → κ} {choice : κ → Option β}
    {items : List β}
    (keyed : ∀ name ∈ names, ∀ item, choice name = some item → key item = name)
    (unique : names.Nodup) (permuted : items.Perm (names.filterMap choice))
    {name : κ} {item : β}
    (member : name ∈ names) (chosen : choice name = some item) :
    items.filter (key · = name) = [item] := by
  have filtered := permuted.filter fun other => decide (key other = name)
  rw [filter_filterMap_key keyed unique, if_pos member, chosen] at filtered
  exact List.perm_singleton.mp filtered

theorem perm_filterMap_or {first second : α → Option β} (names : List α) :
    (names.filterMap first ++
        (names.filter (fun name => (first name).isNone)).filterMap second).Perm
      (names.filterMap fun name => (first name).or (second name)) := by
  induction names with
  | nil => exact .refl _
  | cons name names induction =>
      cases chosen : first name with
      | some item =>
          simpa [List.filterMap_cons, chosen] using induction
      | none =>
          cases later : second name with
          | none => simpa [List.filterMap_cons, chosen, later] using induction
          | some item =>
              simp only [List.filterMap_cons, chosen, Option.isNone_none, later,
                List.filter_cons_of_pos, Option.none_or]
              exact List.perm_middle.trans (induction.cons item)

theorem flatMap_filter_of_notMem {key : α → κ} {items : List α} {name : κ}
    (absent : name ∉ names) :
    (names.flatMap fun other => (items.filter (key · ≠ name)).filter
      (key · = other)) =
      names.flatMap fun other => items.filter (key · = other) := by
  apply List.flatMap_congr
  intro other member
  have different : other ≠ name := fun same => absent (same ▸ member)
  rw [List.filter_filter]
  apply List.filter_congr
  intro item _
  by_cases inGroup : key item = other <;> simp [inGroup, different]

theorem perm_flatMap_filter {key : α → κ} {items : List α}
    (nodup : names.Nodup) (named : ∀ item ∈ items, key item ∈ names) :
    (names.flatMap fun name => items.filter (key · = name)).Perm items := by
  induction names generalizing items with
  | nil =>
      have empty : items = [] := by
        rw [List.eq_nil_iff_forall_not_mem]
        intro item member
        exact absurd (named item member) List.not_mem_nil
      simp [empty]
  | cons name names induction =>
      rw [List.nodup_cons] at nodup
      have others : ∀ item ∈ items.filter (key · ≠ name), key item ∈ names := by
        intro item member
        simp only [List.mem_filter, decide_eq_true_eq] at member
        exact (List.mem_cons.mp (named item member.1)).resolve_left member.2
      rw [List.flatMap_cons, ← flatMap_filter_of_notMem nodup.1]
      have split := List.filter_append_perm (key · = name) items
      simp only [← decide_not] at split
      exact ((induction nodup.2 others).append_left _).trans split

end Nvbmc.Library
