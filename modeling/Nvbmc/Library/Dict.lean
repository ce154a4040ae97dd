import Mathlib.Data.List.Basic
import Mathlib.Data.List.Induction

/-!
# Insertion-ordered dictionaries

Association lists with the update discipline of a Python `dict`: an assignment
to a present key keeps its position, a new key goes to the end.
-/

namespace Nvbmc.Library

abbrev Dict (κ α : Type*) := List (κ × α)

namespace Dict

variable {κ α : Type*} [DecidableEq κ]

/-- `d.get(key)`. -/
def get? : Dict κ α → κ → Option α
  | [], _ => none
  | (head, value) :: rest, key =>
      if head = key then some value else get? rest key

/-- `d[key] = value`. -/
def set : Dict κ α → κ → α → Dict κ α
  | [], key, value => [(key, value)]
  | (head, old) :: rest, key, value =>
      if head = key then (key, value) :: rest
      else (head, old) :: set rest key value

/-- `del d[key]`, for a key that may be absent. -/
def del : Dict κ α → κ → Dict κ α
  | [], _ => []
  | (head, value) :: rest, key =>
      if head = key then del rest key else (head, value) :: del rest key

def keys (d : Dict κ α) : List κ :=
  d.map Prod.fst

/-- `key in d`. -/
def contains (d : Dict κ α) (key : κ) : Bool :=
  (d.get? key).isSome

@[simp] theorem get?_nil (key : κ) : get? ([] : Dict κ α) key = none := rfl

@[simp] theorem get?_set_self (d : Dict κ α) (key : κ) (value : α) :
    (d.set key value).get? key = some value := by
  induction d with
  | nil => simp [set, get?]
  | cons head rest induction =>
      by_cases same : head.1 = key <;> simp [set, get?, same, induction]

theorem get?_set_of_ne (d : Dict κ α) {key other : κ} (value : α)
    (different : other ≠ key) :
    (d.set key value).get? other = d.get? other := by
  induction d with
  | nil => simp [set, get?, Ne.symm different]
  | cons entry rest induction =>
      obtain ⟨head, old⟩ := entry
      by_cases same : head = key
      · subst same
        simp [set, get?, Ne.symm different]
      · simp only [set, if_neg same, get?, induction]

theorem get?_set (d : Dict κ α) (key other : κ) (value : α) :
    (d.set key value).get? other =
      if other = key then some value else d.get? other := by
  by_cases same : other = key
  · subst same; simp
  · rw [get?_set_of_ne d value same, if_neg same]

theorem get?_del (d : Dict κ α) (key other : κ) :
    (d.del key).get? other = if other = key then none else d.get? other := by
  induction d with
  | nil => simp [del]
  | cons entry rest induction =>
      obtain ⟨head, old⟩ := entry
      by_cases same : head = key
      · subst same
        simp only [del, if_true, induction, get?]
        by_cases found : other = head
        · simp [found]
        · simp [found, Ne.symm found]
      · simp only [del, if_neg same, get?, induction]
        by_cases found : head = other
        · subst found
          simp [same]
        · simp [found]

@[simp] theorem get?_del_self (d : Dict κ α) (key : κ) :
    (d.del key).get? key = none := by
  simp [get?_del]

@[simp] theorem set_set (d : Dict κ α) (key : κ) (value later : α) :
    (d.set key value).set key later = d.set key later := by
  induction d with
  | nil => simp [set]
  | cons entry rest induction =>
      obtain ⟨head, old⟩ := entry
      by_cases same : head = key
      · simp [set, same]
      · simp [set, same, induction]

theorem mem_keys_set (d : Dict κ α) (key other : κ) (value : α) :
    other ∈ (d.set key value).keys ↔ other = key ∨ other ∈ d.keys := by
  induction d with
  | nil => simp [set, keys]
  | cons entry rest induction =>
      obtain ⟨head, old⟩ := entry
      simp only [keys, List.map_cons, List.mem_cons] at induction ⊢
      by_cases same : head = key
      · subst same
        simp [set]
      · simp only [set, if_neg same, List.map_cons, List.mem_cons, induction]
        grind

theorem mem_keys_del (d : Dict κ α) (key other : κ) :
    other ∈ (d.del key).keys ↔ other ≠ key ∧ other ∈ d.keys := by
  induction d with
  | nil => simp [del, keys]
  | cons entry rest induction =>
      obtain ⟨head, old⟩ := entry
      simp only [keys, List.map_cons, List.mem_cons] at induction ⊢
      by_cases same : head = key
      · subst same
        simp only [del, if_true, induction]
        grind
      · simp only [del, if_neg same, List.map_cons, List.mem_cons, induction]
        grind

variable {d : Dict κ α}

theorem mem_of_mem_set {key other : κ} {value found : α}
    (member : (other, found) ∈ d.set key value) :
    (other, found) ∈ d ∨ (other = key ∧ found = value) := by
  induction d with
  | nil => simpa [set] using member
  | cons entry rest induction =>
      obtain ⟨head, old⟩ := entry
      by_cases same : head = key
      · rw [set, if_pos same] at member
        rcases List.mem_cons.mp member with first | later
        · exact .inr (Prod.mk.injEq .. ▸ first)
        · exact .inl (List.mem_cons_of_mem _ later)
      · rw [set, if_neg same] at member
        rcases List.mem_cons.mp member with first | later
        · exact .inl (first ▸ List.mem_cons_self)
        · exact (induction later).imp_left (List.mem_cons_of_mem _)

variable {key : κ} {value : α}

theorem mem_keys_of_get? (found : d.get? key = some value) : key ∈ d.keys := by
  induction d with
  | nil => simp at found
  | cons head rest induction =>
      by_cases same : head.1 = key
      · exact same ▸ List.mem_cons_self
      · simp only [get?, if_neg same] at found
        exact List.mem_cons_of_mem _ (induction found)

theorem get?_ne_none_iff : d.get? key ≠ none ↔ key ∈ d.keys := by
  constructor
  · intro present
    obtain ⟨value, found⟩ := Option.ne_none_iff_exists'.mp present
    exact mem_keys_of_get? found
  · intro member
    induction d with
    | nil => cases member
    | cons head rest induction =>
        rw [get?]
        split_ifs with same
        · simp
        · rcases List.mem_cons.mp member with first | later
          · exact absurd first.symm same
          · exact induction later

theorem mem_of_get? (found : d.get? key = some value) : (key, value) ∈ d := by
  induction d with
  | nil => simp at found
  | cons head rest induction =>
      by_cases same : head.1 = key
      · simp only [get?, if_pos same, Option.some.injEq] at found
        subst same found
        exact List.mem_cons_self
      · simp only [get?, if_neg same] at found
        exact List.mem_cons_of_mem _ (induction found)

theorem set_of_not_mem (value : α)
    (new : key ∉ d.keys) : d.set key value = d ++ [(key, value)] := by
  induction d with
  | nil => rfl
  | cons entry rest induction =>
      obtain ⟨head, old⟩ := entry
      have different : head ≠ key := by
        rintro rfl
        exact new List.mem_cons_self
      rw [set, if_neg different, List.cons_append,
        induction fun member => new (List.mem_cons_of_mem _ member)]

theorem del_eq_filter (d : Dict κ α) (key : κ) :
    d.del key = d.filter (·.1 ≠ key) := by
  induction d with
  | nil => rfl
  | cons entry rest induction =>
      obtain ⟨head, value⟩ := entry
      by_cases same : head = key <;> simp [del, same, induction]

theorem get?_filter (d : Dict κ α) (keep : κ → Bool) (key : κ) :
    Dict.get? (d.filter fun entry => keep entry.1) key =
      if keep key then d.get? key else none := by
  induction d with
  | nil => simp
  | cons entry rest induction =>
      obtain ⟨head, value⟩ := entry
      by_cases kept : keep head <;> by_cases same : head = key
      · simp [kept, get?, ← same]
      · simp [kept, get?, same, induction]
      · subst same
        simp [kept, induction]
      · simp [kept, get?, same, induction]

theorem nodup_keys_del (unique : d.keys.Nodup) (key : κ) :
    (d.del key).keys.Nodup := by
  rw [del_eq_filter]
  exact unique.sublist (List.filter_sublist.map _)

theorem nodup_keys_set (unique : d.keys.Nodup) (key : κ)
    (value : α) : (d.set key value).keys.Nodup := by
  induction d with
  | nil => simp [set, keys]
  | cons entry rest induction =>
      obtain ⟨head, old⟩ := entry
      obtain ⟨missing, unique⟩ := List.nodup_cons.mp unique
      by_cases same : head = key
      · subst same
        rw [set, if_pos rfl]
        exact List.nodup_cons.mpr ⟨missing, unique⟩
      · rw [set, if_neg same]
        refine List.nodup_cons.mpr ⟨?_, induction unique⟩
        intro member
        rcases (mem_keys_set rest key head value).mp member with new | old
        · exact same new
        · exact missing old

theorem contains_iff : d.contains key = true ↔ key ∈ d.keys := by
  rw [contains, Option.isSome_iff_ne_none, get?_ne_none_iff]

theorem del_of_not_mem (missing : key ∉ d.keys) : d.del key = d := by
  rw [del_eq_filter, List.filter_eq_self]
  rintro entry member
  simp only [ne_eq, decide_eq_true_eq]
  rintro rfl
  exact missing (List.mem_map.mpr ⟨entry, member, rfl⟩)

theorem perm_cons_del (unique : d.keys.Nodup)
    (found : d.get? key = some value) : d.Perm ((key, value) :: d.del key) := by
  induction d with
  | nil => cases found
  | cons entry rest induction =>
      obtain ⟨head, old⟩ := entry
      obtain ⟨missing, unique⟩ := List.nodup_cons.mp unique
      by_cases same : head = key
      · subst same
        simp only [get?, if_true, Option.some.injEq] at found
        subst found
        rw [del, if_pos rfl, del_of_not_mem missing]
      · simp only [get?, if_neg same] at found
        rw [del, if_neg same]
        exact ((induction unique found).cons _).trans (List.Perm.swap _ _ _)

theorem get?_of_mem (unique : d.keys.Nodup)
    (member : (key, value) ∈ d) : d.get? key = some value := by
  induction d with
  | nil => cases member
  | cons entry rest induction =>
      obtain ⟨notRest, uniqueRest⟩ := List.nodup_cons.mp unique
      rcases List.mem_cons.mp member with isEntry | inRest
      · rw [← isEntry, get?, if_pos rfl]
      · have different : entry.1 ≠ key := by
          intro same
          exact notRest (same ▸ List.mem_map_of_mem inRest)
        rw [show entry = (entry.1, entry.2) from rfl, get?, if_neg different]
        exact induction uniqueRest inRest

theorem keys_set (d : Dict κ α) (key : κ) (value : α) :
    (d.set key value).keys =
      if key ∈ d.keys then d.keys else d.keys ++ [key] := by
  by_cases member : key ∈ d.keys
  · rw [if_pos member]
    induction d with
    | nil => cases member
    | cons entry rest induction =>
        by_cases same : entry.1 = key
        · simp [set, keys, same]
        · have later : key ∈ keys rest := by
            rcases List.mem_cons.mp member with isKey | inRest
            · exact absurd isKey.symm same
            · exact inRest
          have kept := induction later
          simp only [keys] at kept
          simp [set, keys, same, kept]
  · rw [if_neg member, set_of_not_mem value member]
    exact List.map_append

theorem foldl_set_of_nodup {d entries : Dict κ α}
    (unique : (d ++ entries).keys.Nodup) :
    entries.foldl (fun d entry => d.set entry.1 entry.2) d = d ++ entries := by
  induction entries generalizing d with
  | nil => simp
  | cons entry entries induction =>
      have new : entry.1 ∉ d.keys := by
        rw [keys, List.map_append, List.map_cons] at unique
        intro member
        exact (List.nodup_append.mp unique).2.2 _ member _ List.mem_cons_self
          rfl
      have together : d.set entry.1 entry.2 ++ entries = d ++ entry ::
          entries := by
        rw [set_of_not_mem entry.2 new, List.append_assoc,
          List.singleton_append]
      rw [List.foldl_cons, induction (by rwa [together]), together]

section Collect

variable {β : Type*} {entry : β → Option (κ × α)} {items : List β} {key : κ}
  {value : α}

/-- A loop that sets the entry of each item, if it has one. -/
def collect (entry : β → Option (κ × α)) (items : List β) : Dict κ α :=
  items.foldl (fun d item =>
    match entry item with
    | some (key, value) => d.set key value
    | none => d) []

theorem collect_concat (items : List β) (item : β) :
    collect entry (items ++ [item]) =
      match entry item with
      | some (key, value) => (collect entry items).set key value
      | none => collect entry items := by
  rw [collect, List.foldl_append]
  rfl

theorem exists_last_of_get?_collect
    (found : (collect entry items).get? key = some value) :
    ∃ before item after, items = before ++ item :: after ∧
      entry item = some (key, value) ∧
      ∀ other ∈ after, ∀ later, entry other ≠ some (key, later) := by
  induction items using List.reverseRecOn with
  | nil => cases found
  | append_singleton items last induction =>
      rw [collect_concat] at found
      have earlier : (∀ later, entry last ≠ some (key, later)) →
          (collect entry items).get? key = some value →
          ∃ before item after, items ++ [last] = before ++ item :: after ∧
            entry item = some (key, value) ∧
            ∀ other ∈ after, ∀ later, entry other ≠ some (key, later) := by
        intro notLast isEarlier
        obtain ⟨before, item, after, split, isEntry, none⟩ :=
          induction isEarlier
        refine ⟨before, item, after ++ [last], ?_, isEntry, ?_⟩
        · rw [split, List.append_assoc, List.cons_append]
        · intro other member
          rcases List.mem_append.mp member with inAfter | isLast
          · exact none other inAfter
          · rwa [List.mem_singleton.mp isLast]
      cases isEntry : entry last with
      | none =>
          rw [isEntry] at found
          exact earlier (fun later => by rw [isEntry]; exact nofun) found
      | some pair =>
          obtain ⟨other, set⟩ := pair
          rw [isEntry] at found
          simp only [get?_set] at found
          split_ifs at found with same
          · cases found
            exact ⟨items, last, [], rfl, same ▸ isEntry, fun _ member =>
              nomatch member⟩
          · apply earlier _ found
            intro later isLater
            rw [isEntry] at isLater
            cases isLater
            exact same rfl

theorem exists_of_get?_collect
    (found : (collect entry items).get? key = some value) :
    ∃ item ∈ items, entry item = some (key, value) := by
  obtain ⟨before, item, after, split, isEntry, _⟩ :=
    exists_last_of_get?_collect found
  exact ⟨item, by rw [split]; simp, isEntry⟩

theorem get?_collect_last {before after : List β} {item : β}
    (isEntry : entry item = some (key, value))
    (none : ∀ other ∈ after, ∀ later, entry other ≠ some (key, later)) :
    (collect entry (before ++ item :: after)).get? key = some value := by
  induction after using List.reverseRecOn with
  | nil =>
      rw [collect_concat, isEntry]
      exact get?_set_self _ _ _
  | append_singleton after last induction =>
      have shorter :=
        induction fun other member => none other (List.mem_append_left _ member)
      rw [← List.cons_append, ← List.append_assoc, collect_concat]
      cases isLast : entry last with
      | none => exact shorter
      | some pair =>
          have different : key ≠ pair.1 := by
            intro same
            apply none last (by simp) pair.2
            rw [isLast, same]
          exact (get?_set_of_ne _ _ different).trans shorter

theorem isSome_get?_collect {item : β} (member : item ∈ items)
    (isEntry : entry item = some (key, value)) :
    ((collect entry items).get? key).isSome = true := by
  induction items using List.reverseRecOn with
  | nil => cases member
  | append_singleton items last induction =>
      rw [collect_concat]
      have later : item ∈ items → ((match entry last with
          | some (key, value) => (collect entry items).set key value
          | none => collect entry items).get? key).isSome = true := by
        intro earlier
        cases entry last with
        | none => exact induction earlier
        | some pair =>
            simp only [get?_set]
            split_ifs
            · rfl
            · exact induction earlier
      rcases List.mem_append.mp member with earlier | isLast
      · exact later earlier
      · rw [List.mem_singleton] at isLast
        rw [← isLast, isEntry]
        simp

theorem get?_collect_iff
    (functional : ∀ first ∈ items, ∀ second ∈ items, ∀ left right,
      entry first = some (key, left) → entry second = some (key, right) →
        left = right) :
    (collect entry items).get? key = some value ↔
      ∃ item ∈ items, entry item = some (key, value) := by
  constructor
  · exact exists_of_get?_collect
  · intro exist
    obtain ⟨item, member, isEntry⟩ := exist
    obtain ⟨found, isFound⟩ :=
      Option.isSome_iff_exists.mp (isSome_get?_collect member isEntry)
    obtain ⟨other, isMember, isOther⟩ := exists_of_get?_collect isFound
    rw [isFound, functional other isMember item member found value isOther
      isEntry]

theorem keys_collect (name : β → κ) (content : β → α) (items : List β) :
    (collect (fun item => some (name item, content item)) items).keys =
      (items.map name).eraseDups := by
  induction items using List.reverseRecOn with
  | nil => rfl
  | append_singleton items item induction =>
      rw [collect_concat, List.map_append, List.eraseDups_append, ← induction]
      by_cases member : name item ∈ items.map name
      · have inKeys : name item ∈
            (collect (fun item => some (name item, content item))
              items).keys := by
          rw [induction]
          exact List.mem_eraseDups.mpr member
        simp only [keys_set, if_pos inKeys]
        simp [List.removeAll, List.mem_map.mp member]
      · have notInKeys : name item ∉
            (collect (fun item => some (name item, content item))
              items).keys := by
          rw [induction]
          exact fun inKeys => member (List.mem_eraseDups.mp inKeys)
        have alone : (List.map name [item]).removeAll (items.map name) =
            [name item] := by
          simpa [List.removeAll] using member
        simp only [keys_set, if_neg notInKeys, alone]
        rfl

theorem nodup_keys_collect (entry : β → Option (κ × α)) (items : List β) :
    (collect entry items).keys.Nodup := by
  induction items using List.reverseRecOn with
  | nil => exact List.nodup_nil
  | append_singleton items item induction =>
      rw [collect_concat]
      cases entry item with
      | none => exact induction
      | some pair => exact nodup_keys_set induction pair.1 pair.2

theorem collect_map {γ : Type*} (line : γ → β) (items : List γ) :
    collect entry (items.map line) = collect (fun item => entry (line item))
      items := by
  rw [collect, List.foldl_map]
  rfl

end Collect

end Dict

end Nvbmc.Library
