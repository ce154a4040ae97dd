import Mathlib.Data.List.Infix

/-!
# Searching in a sequence

Python's `find`, and where a needle can occur in a sequence put together from
parts.
-/

namespace Nvbmc.Library

variable {α : Type}

/-- The needle stands at a position. -/
def Occurs (needle sequence : List α) (index : ℕ) : Prop :=
  needle <+: sequence.drop index

section Occurrences

variable {needle sequence longer payload rest : List α} {index : ℕ}

theorem Occurs.of_longer (part : sequence <+: longer)
    (occurs : Occurs needle longer index)
    (fits : index + needle.length ≤ sequence.length) :
    Occurs needle sequence index := by
  apply List.prefix_of_prefix_length_le occurs (part.drop index)
  rw [List.length_drop]
  omega

variable (occurs : Occurs needle sequence index)
include occurs

theorem Occurs.mono (part : sequence <+: longer) : Occurs needle longer index :=
  occurs.trans (part.drop index)

theorem Occurs.getElem? {offset : ℕ} (inside : offset < needle.length) :
    sequence[index + offset]? = needle[offset]? := by
  obtain ⟨rest, split⟩ := occurs
  have item := congrArg (·[offset]?) split
  simp only [List.getElem?_drop] at item
  rw [← item, List.getElem?_append_left inside]

theorem Occurs.length_le (nonempty : needle ≠ []) :
    index + needle.length ≤ sequence.length := by
  have positive := List.length_pos_iff.mpr nonempty
  have length := List.IsPrefix.length_le occurs
  rw [List.length_drop] at length
  omega

theorem Occurs.within :
    needle <:+: sequence :=
  occurs.isInfix.trans (List.drop_suffix index sequence).isInfix

omit occurs

theorem exists_occurs_of_isInfix (inside : needle <:+: sequence) :
    ∃ index, index + needle.length ≤ sequence.length ∧
      Occurs needle sequence index := by
  obtain ⟨before, after, rfl⟩ := inside
  refine ⟨before.length, ?_, ?_⟩
  · simp
  · rw [Occurs, List.append_assoc, List.drop_left]
    exact List.prefix_append _ _

variable {header : List α}

/-- No occurrence begins in a header that disagrees with the needle at every
position. -/
theorem not_occurs_header
    (disagrees : ∀ index < header.length, ∃ offset < needle.length,
      index + offset < header.length ∧
        header[index + offset]? ≠ needle[offset]?)
    (inside : index < header.length) :
    ¬ Occurs needle (header ++ rest) index := by
  intro occurs
  obtain ⟨offset, short, within, different⟩ := disagrees index inside
  apply different
  rw [← occurs.getElem? short, List.getElem?_append_left within]

theorem Occurs.behind (occurs : Occurs needle (header ++ rest) index)
    (after : header.length ≤ index) :
    Occurs needle rest (index - header.length) := by
  rwa [Occurs, List.drop_append, List.drop_of_length_le after,
    List.nil_append] at occurs

theorem Occurs.ahead (occurs : Occurs needle rest index) (header : List α) :
    Occurs needle (header ++ rest) (header.length + index) := by
  rwa [Occurs, List.drop_append, List.drop_of_length_le (by omega),
    List.nil_append, Nat.add_sub_cancel_left]

/-- An occurrence before the end of the payload lies in the payload when the
needle starts with an item it does not have again. -/
theorem Occurs.inside_payload (single : ∀ offset < needle.length, 0 < offset →
      needle[offset]? ≠ needle[0]?)
    (occurs : Occurs needle (payload ++ (needle ++ rest)) index)
    (before : index < payload.length) : needle <:+: payload := by
  by_cases fits : index + needle.length ≤ payload.length
  · exact (occurs.of_longer (List.prefix_append _ _) fits).within
  · have inside : payload.length - index < needle.length := by omega
    have positive : 0 < payload.length - index := by omega
    have first := occurs.getElem? inside
    have position : index + (payload.length - index) = payload.length := by
      omega
    have start : 0 < needle.length := by omega
    rw [position, List.getElem?_append_right (le_refl _), Nat.sub_self,
      List.getElem?_append_left start] at first
    exact absurd first.symm (single _ inside positive)

theorem not_isInfix_append {item : α} {tail : List α}
    (single : ∀ offset < needle.length, 0 < offset →
      needle[offset]? ≠ some item) (absent : ¬ needle <:+: payload)
    (apart : ¬ needle <:+: item :: tail) :
    ¬ needle <:+: payload ++ item :: tail := by
  intro inside
  obtain ⟨index, fits, occurs⟩ := exists_occurs_of_isInfix inside
  by_cases before : index + needle.length ≤ payload.length
  · exact absent (occurs.of_longer (List.prefix_append _ _) before).within
  · by_cases behind : payload.length ≤ index
    · exact apart (occurs.behind behind).within
    · have across : payload.length - index < needle.length := by omega
      have read := occurs.getElem? across
      have position : index + (payload.length - index) = payload.length := by
        omega
      rw [position, List.getElem?_append_right le_rfl, Nat.sub_self,
        List.getElem?_cons_zero] at read
      exact single _ across (by omega) read.symm

private theorem not_shorter {first second later : List α}
    (single : ∀ offset < needle.length, 0 < offset →
      needle[offset]? ≠ needle[0]?) (free : ¬ needle <:+: second)
    (same : first ++ (needle ++ rest) = second ++ (needle ++ later)) :
    ¬ first.length < second.length := by
  intro shorter
  have occurs : Occurs needle (second ++ (needle ++ later)) first.length := by
    rw [← same, Occurs, List.drop_left]
    exact List.prefix_append _ _
  exact free (occurs.inside_payload single shorter)

theorem eq_of_cut {first second later : List α}
    (single : ∀ offset < needle.length, 0 < offset →
      needle[offset]? ≠ needle[0]?) (firstFree : ¬ needle <:+: first)
    (secondFree : ¬ needle <:+: second)
    (same : first ++ (needle ++ rest) = second ++ (needle ++ later)) :
    first = second ∧ rest = later := by
  have length : first.length = second.length := by
    have before := not_shorter single secondFree same
    have behind := not_shorter single firstFree same.symm
    omega
  obtain ⟨parts, rests⟩ := List.append_inj same length
  exact ⟨parts, List.append_cancel_left rests⟩

theorem slice_payload (part : sequence <+: header ++ (payload ++ rest))
    (after : header.length ≤ index) (within : index ≤ sequence.length)
    (before : index ≤ header.length + payload.length) :
    (sequence.take index).drop header.length =
      payload.take (index - header.length) := by
  obtain ⟨remaining, whole⟩ := part
  rw [← @List.take_append_of_le_length _ sequence remaining index within, whole,
    List.take_append, List.take_of_length_le after, List.drop_left,
    List.take_append_of_le_length (by omega)]

end Occurrences

section Find

variable [DecidableEq α]

/-- The first position from `start` on at which the needle stands. -/
def find (needle sequence : List α) (start : ℕ) : Option ℕ :=
  (List.range' start (sequence.length + 1 - start)).find? fun index =>
    needle.isPrefixOf (sequence.drop index)

variable {needle sequence : List α} {start index : ℕ}

structure FoundAt (needle sequence : List α) (start index : ℕ) : Prop where
  after : start ≤ index
  within : index ≤ sequence.length
  occurs : Occurs needle sequence index
  first : ∀ earlier, start ≤ earlier → earlier < index →
    ¬ Occurs needle sequence earlier

theorem foundAt_of_find (found : find needle sequence start = some index) :
    FoundAt needle sequence start index := by
  rw [find, List.find?_range'_eq_some] at found
  obtain ⟨occurs, member, before⟩ := found
  rw [List.mem_range'_1] at member
  constructor
  · exact member.1
  · omega
  · exact List.isPrefixOf_iff_prefix.mp occurs
  · intro earlier after less occurs
    have absent := before earlier after less
    simp [List.isPrefixOf_iff_prefix.mpr occurs] at absent

theorem find_ne_none (nonempty : needle ≠ []) (after : start ≤ index)
    (occurs : Occurs needle sequence index) :
    find needle sequence start ≠ none := by
  intro absent
  rw [find, List.find?_eq_none] at absent
  have length := occurs.length_le nonempty
  apply absent index
  · rw [List.mem_range'_1]
    omega
  · exact List.isPrefixOf_iff_prefix.mpr occurs

theorem find_eq_some (after : start ≤ index)
    (within : index ≤ sequence.length) (occurs : Occurs needle sequence index)
    (first : ∀ earlier, start ≤ earlier → earlier < index →
      ¬ Occurs needle sequence earlier) :
    find needle sequence start = some index := by
  rw [find, List.find?_range'_eq_some]
  refine ⟨List.isPrefixOf_iff_prefix.mpr occurs, ?_, ?_⟩
  · rw [List.mem_range'_1]
    omega
  · intro earlier after less
    rw [Bool.not_eq_true', ← Bool.not_eq_true, List.isPrefixOf_iff_prefix]
    exact first earlier after less

theorem find_eq_none (absent : ¬ needle <:+: sequence) (start : ℕ) :
    find needle sequence start = none := by
  rw [find, List.find?_eq_none]
  intro index _ found
  exact absent (Occurs.within (List.isPrefixOf_iff_prefix.mp found))

/-- How often a nonempty needle stands in a sequence, without overlaps. -/
def count (needle sequence : List α) : ℕ :=
  if _ : needle = [] then sequence.length + 1
  else
    match _ : find needle sequence 0 with
    | none => 0
    | some index => count needle (sequence.drop (index + needle.length)) + 1
termination_by sequence.length
decreasing_by
  rename_i nonempty found
  have positive := List.length_pos_iff.mpr nonempty
  have fits := (foundAt_of_find found).occurs.length_le nonempty
  rw [List.length_drop]
  omega

theorem count_eq_zero_iff (nonempty : needle ≠ []) :
    count needle sequence = 0 ↔ ¬ needle <:+: sequence := by
  rw [count, dif_neg nonempty]
  constructor
  · intro none inside
    obtain ⟨index, -, occurs⟩ := exists_occurs_of_isInfix inside
    obtain ⟨first, found⟩ := Option.ne_none_iff_exists'.mp
      (find_ne_none nonempty (Nat.zero_le index) occurs)
    split at none
    · rename_i absent
      rw [found] at absent
      cases absent
    · omega
  · intro absent
    split
    · rfl
    · rename_i found
      rw [find_eq_none absent] at found
      cases found

/-- A sequence that begins with the needle has it once if it does not stand in
the rest. -/
theorem count_eq_one_iff {rest : List α} (nonempty : needle ≠ []) :
    count needle (needle ++ rest) = 1 ↔ ¬ needle <:+: rest := by
  have first : find needle (needle ++ rest) 0 = some 0 :=
    find_eq_some le_rfl (Nat.zero_le _) (List.prefix_append _ _) (by omega)
  rw [← count_eq_zero_iff nonempty, count, dif_neg nonempty]
  split
  · rename_i absent
    rw [first] at absent
    cases absent
  · rename_i index found
    rw [first] at found
    cases found
    rw [Nat.zero_add, List.drop_left]
    omega

end Find

end Nvbmc.Library
