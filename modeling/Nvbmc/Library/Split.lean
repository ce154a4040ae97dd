import Mathlib.Data.List.Infix
import Mathlib.Data.List.TakeWhile

/-!
# Splitting once

Python's `split` and `rsplit` with at most one split: at the first separator or
at the last one.  `partition` has the whole text as its first part if there is
no separator.
-/

namespace Nvbmc.Library

variable {α : Type} [DecidableEq α]

/-- `sequence.split(separator, 1)`, nothing if there is no separator. -/
def splitOnce (separator : α) : List α → Option (List α × List α)
  | [] => none
  | item :: rest =>
      if item = separator then some ([], rest)
      else (splitOnce separator rest).map fun parts =>
        (item :: parts.1, parts.2)

/-- `sequence.rsplit(separator, 1)`, nothing if there is no separator. -/
def rsplitOnce (separator : α) (sequence : List α) : Option (List α × List α) :=
  (splitOnce separator sequence.reverse).map fun parts =>
    (parts.2.reverse, parts.1.reverse)

variable {separator : α} {sequence before after : List α}

theorem splitOnce_eq_some : splitOnce separator sequence =
    some (before, after) ↔
    sequence = before ++ separator :: after ∧ separator ∉ before := by
  induction sequence generalizing before with
  | nil => simp [splitOnce]
  | cons item rest induction =>
      rw [splitOnce]
      split_ifs with first
      · subst first
        constructor
        · intro found
          cases found
          simp
        · intro ⟨split, absent⟩
          cases before with
          | nil => simpa using (List.cons.inj split).2
          | cons other before =>
              have same := (List.cons.inj split).1
              exact absurd (same ▸ List.mem_cons_self) absent
      · cases before with
        | nil => simp [first]
        | cons other before =>
            have reversed : separator ≠ other ↔ other ≠ separator := ne_comm
            have tails := @induction before
            simp only [Option.map_eq_some_iff, Prod.mk.injEq, List.cons.injEq,
              Prod.exists, List.cons_append, List.mem_cons, not_or]
            constructor
            · intro ⟨front, back, found, ⟨head, tail⟩, rest⟩
              subst head tail rest
              have split := tails.mp found
              exact ⟨⟨rfl, split.1⟩, Ne.symm first, split.2⟩
            · intro ⟨⟨head, split⟩, _, absent⟩
              exact ⟨before, after, tails.mpr ⟨split, absent⟩, ⟨head, rfl⟩, rfl⟩

theorem splitOnce_isSome : (splitOnce separator sequence).isSome ↔
    separator ∈ sequence := by
  induction sequence with
  | nil => simp [splitOnce]
  | cons item rest induction =>
      rw [splitOnce]
      split_ifs with first
      · simp [first]
      · have reversed : separator ≠ item := Ne.symm first
        rw [Option.isSome_map, induction]
        simp [reversed]

theorem rsplitOnce_eq_some : rsplitOnce separator sequence =
    some (before, after) ↔
    sequence = before ++ separator :: after ∧ separator ∉ after := by
  rw [rsplitOnce]
  constructor
  · intro found
    obtain ⟨⟨front, back⟩, parts, same⟩ := Option.map_eq_some_iff.mp found
    obtain ⟨split, absent⟩ := splitOnce_eq_some.mp parts
    cases same
    refine ⟨?_, by simpa using absent⟩
    rw [← List.reverse_reverse sequence, split]
    simp
  · intro ⟨split, absent⟩
    have parts : splitOnce separator sequence.reverse =
        some (after.reverse, before.reverse) := by
      rw [splitOnce_eq_some]
      exact ⟨by simp [split], by simpa using absent⟩
    simp [parts]

theorem rsplitOnce_isSome : (rsplitOnce separator sequence).isSome ↔
    separator ∈ sequence := by
  rw [rsplitOnce, Option.isSome_map, splitOnce_isSome, List.mem_reverse]

theorem splitOnce_eq_none : splitOnce separator sequence = none ↔
    separator ∉ sequence := by
  rw [← splitOnce_isSome, Option.not_isSome_iff_eq_none]

theorem rsplitOnce_eq_none : rsplitOnce separator sequence = none ↔
    separator ∉ sequence := by
  rw [← rsplitOnce_isSome, Option.not_isSome_iff_eq_none]

/-- Induction from one separator to the next. -/
@[elab_as_elim]
theorem split_induction (separator : α) {motive : List α → Prop}
    (last : ∀ sequence, separator ∉ sequence → motive sequence)
    (next : ∀ before after, separator ∉ before → motive after →
      motive (before ++ separator :: after)) (sequence :
        List α) : motive sequence := by
  induction size : sequence.length using Nat.strong_induction_on
    generalizing sequence with
  | _ count induction =>
      by_cases member : separator ∈ sequence
      · obtain ⟨parts, found⟩ :=
          Option.isSome_iff_exists.mp (splitOnce_isSome.mpr member)
        obtain ⟨split, absent⟩ := splitOnce_eq_some.mp found
        have shorter : parts.2.length < count := by
          rw [← size, split]
          simp only [List.length_append, List.length_cons]
          omega
        rw [split]
        exact next parts.1 parts.2 absent (induction _ shorter parts.2 rfl)
      · exact last sequence member

/-- `sequence.split(separator, count)`. -/
def splitAtMost (separator : α) : ℕ → List α → List (List α)
  | 0, sequence => [sequence]
  | count + 1, sequence =>
      match splitOnce separator sequence with
      | some (before, after) => before :: splitAtMost separator count after
      | none => [sequence]

theorem splitAtMost_append (absent : separator ∉ before) (count : ℕ)
    (after : List α) :
    splitAtMost separator (count + 1) (before ++ separator :: after) =
      before :: splitAtMost separator count after := by
  rw [splitAtMost, splitOnce_eq_some.mpr ⟨rfl, absent⟩]

theorem splitAtMost_of_not_mem (absent : separator ∉ sequence) (count : ℕ) :
    splitAtMost separator count sequence = [sequence] := by
  cases count with
  | zero => rfl
  | succ count => rw [splitAtMost, splitOnce_eq_none.mpr absent]

/-- What stands before the first separator, and what stands after it if there is
one. -/
def partition (separator : α) (sequence : List α) : List α × Option (List α) :=
  match splitOnce separator sequence with
  | some (before, after) => (before, some after)
  | none => (sequence, none)

theorem partition_cases (separator : α) (sequence : List α) :
    (∃ before after, sequence = before ++ separator :: after ∧
      separator ∉ before ∧
      partition separator sequence = (before, some after)) ∨
    (separator ∉ sequence ∧
      partition separator sequence = (sequence, none)) := by
  cases found : splitOnce separator sequence with
  | none =>
      right
      exact ⟨splitOnce_eq_none.mp found, by rw [partition, found]⟩
  | some parts =>
      left
      obtain ⟨before, after⟩ := parts
      have split := splitOnce_eq_some.mp found
      exact ⟨before, after, split.1, split.2, by rw [partition, found]⟩

theorem partition_append (absent : separator ∉ before) (after : List α) :
    partition separator (before ++ separator :: after) =
      (before, some after) := by
  rw [partition, splitOnce_eq_some.mpr ⟨rfl, absent⟩]

theorem partition_of_not_mem (absent : separator ∉ sequence) :
    partition separator sequence = (sequence, none) := by
  rw [partition, splitOnce_eq_none.mpr absent]

theorem not_mem_partition_fst :
    separator ∉ (partition separator sequence).1 := by
  obtain ⟨before, after, _, absent, parts⟩ | ⟨absent, parts⟩ :=
    partition_cases separator sequence
  · rwa [parts]
  · rwa [parts]

theorem mem_of_mem_partition_fst {item : α}
    (member : item ∈ (partition separator sequence).1) : item ∈ sequence := by
  obtain ⟨before, after, split, _, parts⟩ | ⟨_, parts⟩ :=
    partition_cases separator sequence
  · rw [parts] at member
    rw [split]
    exact List.mem_append_left _ member
  · rwa [parts] at member

theorem mem_of_mem_partition_snd {item : α}
    (second : (partition separator sequence).2 = some after)
    (member : item ∈ after) :
    item ∈ sequence := by
  obtain ⟨before, last, split, _, parts⟩ | ⟨_, parts⟩ :=
    partition_cases separator sequence
  · rw [parts] at second
    cases second
    rw [split]
    exact List.mem_append_right _ (List.mem_cons_of_mem _ member)
  · rw [parts] at second
    cases second

omit [DecidableEq α] in
theorem mem_intercalate {item : α} {parts : List (List α)}
    (member : item ∈ [separator].intercalate parts) :
    item = separator ∨ ∃ part ∈ parts, item ∈ part := by
  induction parts with
  | nil => cases member
  | cons part parts induction =>
      by_cases last : parts = []
      · subst last
        rw [List.intercalate_singleton] at member
        exact .inr ⟨part, List.mem_cons_self, member⟩
      · rw [List.intercalate_cons_of_ne_nil last] at member
        simp only [List.mem_append, List.mem_singleton] at member
        obtain (here | isSeparator) | later := member
        · exact .inr ⟨part, List.mem_cons_self, here⟩
        · exact .inl isSeparator
        · obtain isSeparator | ⟨other, among, inside⟩ := induction later
          · exact .inl isSeparator
          · exact .inr ⟨other, List.mem_cons_of_mem _ among, inside⟩

/-- The pieces of the rest of a sequence, of which so many items belong to a
separator. -/
def splitTextFrom (separator : List α) : ℕ → List α → List (List α)
  | _, [] => [[]]
  | skip + 1, _ :: rest => splitTextFrom separator skip rest
  | 0, item :: rest =>
      if separator.isPrefixOf (item :: rest) then
        [] :: splitTextFrom separator (separator.length - 1) rest
      else (splitTextFrom separator 0 rest).modifyHead (item :: ·)

/-- `sequence.split(separator)`, for a separator that is not empty. -/
def splitText (separator sequence : List α) : List (List α) :=
  splitTextFrom separator 0 sequence

section SplitText

variable {separator : List α} {item : α} {front rest : List α}

theorem splitText_nil : splitText separator [] = [[]] := rfl

theorem splitText_cons (apart : ¬ separator <+: item :: rest) :
    splitText separator (item :: rest) = (splitText separator rest).modifyHead
      (item :: ·) := by
  have notPrefix : separator.isPrefixOf (item :: rest) = false := by
    rw [← Bool.not_eq_true, List.isPrefixOf_iff_prefix]
    exact apart
  rw [splitText, splitTextFrom, notPrefix]
  rfl

theorem splitTextFrom_append :
    splitTextFrom separator front.length (front ++ rest) =
    splitText separator rest := by
  induction front with
  | nil => rfl
  | cons item front induction => exact induction

theorem splitText_separator (nonempty : separator ≠ []) :
    splitText separator (separator ++ rest) =
      [] :: splitText separator rest := by
  obtain ⟨first, others, isCons⟩ := List.exists_cons_of_ne_nil nonempty
  have isPrefix : separator.isPrefixOf (first :: (others ++ rest)) = true := by
    rw [List.isPrefixOf_iff_prefix, isCons]
    exact List.prefix_append _ _
  have length : separator.length - 1 = others.length := by simp [isCons]
  have split : separator ++ rest = first :: (others ++ rest) := by
    rw [isCons]; rfl
  rw [split, splitText, splitTextFrom, isPrefix, if_pos rfl, length,
    splitTextFrom_append]

theorem splitText_append
    (apart : ∀ behind, behind ≠ [] → behind <:+ front →
      ¬ separator <+: behind ++ rest) :
    splitText separator (front ++ rest) = (splitText separator rest).modifyHead
      (front ++ ·) := by
  induction front with
  | nil =>
      rw [List.nil_append]
      generalize splitText separator rest = pieces
      cases pieces with
      | nil => rfl
      | cons piece pieces => rfl
  | cons item front induction =>
      have further := induction fun behind nonempty isSuffix =>
        apart behind nonempty (isSuffix.trans (List.suffix_cons _ _))
      have first : ¬ separator <+: item :: (front ++ rest) :=
        apart (item :: front) (by simp) List.suffix_rfl
      rw [List.cons_append, splitText_cons first, further]
      generalize splitText separator rest = pieces
      cases pieces with
      | nil => rfl
      | cons piece pieces => rfl

end SplitText

end Nvbmc.Library
