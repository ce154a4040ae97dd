import Mathlib.Data.List.Infix

/-!
# Replacing

Python's `str.replace` of a text that is not empty: its occurrences are replaced
from left to right, and an occurrence that overlaps the one before is not.
Replacing a pair by one again and again makes every run of an item a single one.
When texts are replaced one after the other, what one brought in is marked, so
that the next can leave it alone.
-/

namespace Nvbmc.Library

variable {α : Type} [DecidableEq α]

/-- The rest of a sequence, of which so many items belong to an occurrence. -/
def replaceFrom (needle new : List α) : ℕ → List α → List α
  | _, [] => []
  | skip + 1, _ :: rest => replaceFrom needle new skip rest
  | 0, item :: rest =>
      if needle.isPrefixOf (item :: rest) then
        new ++ replaceFrom needle new (needle.length - 1) rest
      else item :: replaceFrom needle new 0 rest

/-- `sequence.replace(needle, new)`. -/
def replaceAll (needle new sequence : List α) : List α :=
  replaceFrom needle new 0 sequence

variable {needle new sequence before after rest : List α}

theorem replaceFrom_skip (skipped rest : List α) :
    replaceFrom needle new skipped.length (skipped ++ rest) =
      replaceFrom needle new 0 rest := by
  induction skipped with
  | nil => rfl
  | cons item skipped induction => exact induction

theorem replaceAll_start (nonempty : needle ≠ []) (rest : List α) :
    replaceAll needle new (needle ++ rest) =
      new ++ replaceAll needle new rest := by
  cases needle with
  | nil => exact absurd rfl nonempty
  | cons item needle =>
      have here : (item :: needle).isPrefixOf (item :: (needle ++ rest)) =
          true := by
        rw [List.isPrefixOf_iff_prefix]
        exact List.prefix_append ..
      rw [replaceAll, List.cons_append, replaceFrom, if_pos here]
      simp only [List.length_cons, Nat.add_sub_cancel]
      rw [replaceFrom_skip, replaceAll]

theorem replaceAll_before (nonempty : needle ≠ [])
    (first : ∀ start < before.length, ¬ needle <+:
      (before ++ needle ++ after).drop start) :
    replaceAll needle new (before ++ needle ++ after) =
      before ++ new ++ replaceAll needle new after := by
  induction before with
  | nil => exact replaceAll_start nonempty after
  | cons item before induction =>
      have notHere : ¬ needle.isPrefixOf (item :: (before ++ needle ++ after)) =
          true := by
        rw [List.isPrefixOf_iff_prefix]
        exact first 0 (by simp)
      rw [replaceAll, List.cons_append, List.cons_append, replaceFrom,
        if_neg notHere]
      have later := induction fun start inside => by
        simpa using first (start + 1) (by simpa using inside)
      rw [replaceAll] at later
      rw [later]
      rfl

theorem replaceAll_of_absent (absent : ¬ needle <:+: sequence) :
    replaceAll needle new sequence = sequence := by
  induction sequence with
  | nil => rfl
  | cons item rest induction =>
      have notHere : ¬ needle.isPrefixOf (item :: rest) = true := by
        rw [List.isPrefixOf_iff_prefix]
        exact fun here => absent here.isInfix
      have later := induction fun inside =>
        absent (inside.trans (List.suffix_cons item rest).isInfix)
      rw [replaceAll] at later
      rw [replaceAll, replaceFrom, if_neg notHere, later]

theorem exists_first_occurrence (occurs : needle <:+: sequence) :
    ∃ before after, sequence = before ++ needle ++ after ∧
      ∀ start < before.length, ¬ needle <+: sequence.drop start := by
  induction sequence with
  | nil =>
      rw [List.infix_nil] at occurs
      subst occurs
      exact ⟨[], [], rfl, by simp⟩
  | cons item rest induction =>
      by_cases here : needle <+: item :: rest
      · obtain ⟨after, split⟩ := here
        exact ⟨[], after, split.symm, by simp⟩
      · have later := (List.infix_cons_iff.mp occurs).resolve_left here
        obtain ⟨before, after, split, first⟩ := induction later
        refine ⟨item :: before, after, by simp [split], ?_⟩
        intro start inside
        cases start with
        | zero => exact here
        | succ start => exact first start (by simpa using inside)

theorem length_replaceFrom_nil (skip : ℕ) (sequence : List α) :
    (replaceFrom needle [] skip sequence).length ≤ sequence.length := by
  induction sequence generalizing skip with
  | nil => simp [replaceFrom]
  | cons item rest induction =>
      cases skip with
      | succ skip => exact (induction skip).trans (Nat.le_succ _)
      | zero =>
          rw [replaceFrom]
          split_ifs
          · exact (induction _).trans (Nat.le_succ _)
          · exact Nat.succ_le_succ (induction 0)

theorem length_replaceAll_nil (nonempty : needle ≠ [])
    (occurs : needle <:+: sequence) :
    (replaceAll needle [] sequence).length < sequence.length := by
  obtain ⟨before, after, split, first⟩ := exists_first_occurrence occurs
  have positive := List.length_pos_iff.mpr nonempty
  have shorter := @length_replaceFrom_nil _ _ needle 0 after
  rw [split] at first ⊢
  rw [replaceAll_before nonempty first, replaceAll]
  simp only [List.length_append, List.length_nil]
  omega

theorem replaceAll_append_needle {item : α} {tail : List α} (once : item ∉ tail)
    (new sequence : List α) :
    replaceAll (item :: tail) new (sequence ++ item :: tail) =
      replaceAll (item :: tail) new sequence ++ new := by
  have here : ∀ front : List α, front ≠ [] →
      (item :: tail <+: front ++ item :: tail ↔ item :: tail <+: front) := by
    intro front nonempty
    constructor
    · intro isPrefix
      rcases List.prefix_or_prefix_of_prefix isPrefix
        (List.prefix_append front _) with
        within | beyond
      · exact within
      · obtain ⟨rest, split⟩ := beyond
        cases rest with
        | nil =>
            rw [List.append_nil] at split
            rw [split]
        | cons first rest =>
            rw [← split] at isPrefix
            have isFirst := List.prefix_append_right_inj front |>.mp isPrefix
            rw [split] at isFirst
            obtain ⟨same, _⟩ := List.cons_prefix_cons.mp isFirst
            cases front with
            | nil => exact absurd rfl nonempty
            | cons head front =>
                have inTail : first ∈ tail := by
                  rw [← (List.cons.inj split).2]
                  simp
                exact absurd (same ▸ inTail) once
    · exact fun isPrefix => isPrefix.trans (List.prefix_append front _)
  have all : ∀ skip, skip ≤ sequence.length →
      replaceFrom (item :: tail) new skip (sequence ++ item :: tail) =
        replaceFrom (item :: tail) new skip sequence ++ new := by
    induction sequence with
    | nil =>
        intro skip short
        rw [Nat.le_zero.mp short]
        have alone :=
          @replaceAll_start _ _ (item :: tail) new (List.cons_ne_nil _ _) []
        rw [List.append_nil] at alone
        rw [List.nil_append, ← replaceAll, alone]
        simp [replaceAll, replaceFrom]
    | cons first rest induction =>
        intro skip short
        cases skip with
        | succ skip => exact induction skip (Nat.le_of_succ_le_succ short)
        | zero =>
            have same := here (first :: rest) (List.cons_ne_nil _ _)
            rw [List.cons_append, ← List.isPrefixOf_iff_prefix] at same
            rw [List.cons_append, replaceFrom, replaceFrom]
            by_cases isHere : item :: tail <+: first :: rest
            · have long := isHere.length_le
              rw [if_pos (same.mpr isHere),
                if_pos (List.isPrefixOf_iff_prefix.mpr isHere),
                List.append_assoc, induction _ (by simpa using long)]
            · rw [if_neg (mt same.mp isHere),
                if_neg (mt List.isPrefixOf_iff_prefix.mp isHere),
                List.cons_append, induction 0 (Nat.zero_le _)]
  exact all 0 (Nat.zero_le _)

/-- Every run of the item is made a single one. -/
def squeezed (item : α) : List α → List α
  | [] => []
  | first :: rest =>
      if first = item ∧ rest.head? = some item then squeezed item rest
      else first :: squeezed item rest

section Squeezed

variable {item : α} {rest sequence : List α}

theorem squeezed_of_absent (absent : ¬ [item, item] <:+: sequence) :
    squeezed item sequence = sequence := by
  induction sequence with
  | nil => rfl
  | cons first rest induction =>
      have single : ¬ (first = item ∧ rest.head? = some item) := by
        rintro ⟨rfl, next⟩
        obtain ⟨tail, rfl⟩ := List.head?_eq_some_iff.mp next
        exact absent ⟨[], tail, rfl⟩
      have later : ¬ [item, item] <:+: rest :=
        fun inside =>
          absent (inside.trans (List.suffix_cons first rest).isInfix)
      rw [squeezed, if_neg single, induction later]

theorem head?_squeezed (sequence : List α) : (squeezed item sequence).head? =
    sequence.head? := by
  induction sequence with
  | nil => rfl
  | cons first rest induction =>
      rw [squeezed]
      split_ifs with pair
      · rw [induction, pair.1, pair.2]
        rfl
      · rfl

theorem squeezed_eq_nil : squeezed item sequence = [] ↔ sequence = [] := by
  rw [← List.head?_eq_none_iff, head?_squeezed, List.head?_eq_none_iff]

theorem replaceAll_pair (rest : List α) :
    replaceAll [item, item] [item] (item :: item :: rest) =
      item :: replaceAll [item, item] [item] rest :=
  replaceAll_start (List.cons_ne_nil _ _) rest

theorem replaceAll_single {first : α}
    (single : ¬ (first = item ∧ rest.head? = some item)) :
    replaceAll [item, item] [item] (first :: rest) =
      first :: replaceAll [item, item] [item] rest := by
  have notHere : ¬ [item, item].isPrefixOf (first :: rest) = true := by
    rw [List.isPrefixOf_iff_prefix]
    rintro ⟨tail, same⟩
    cases same
    exact single ⟨rfl, rfl⟩
  rw [replaceAll, replaceFrom, if_neg notHere, ← replaceAll]

theorem pair_cases (item : α) (sequence : List α) :
    sequence = [] ∨ (∃ rest, sequence = item :: item :: rest) ∨
    ∃ first rest, sequence = first :: rest ∧
      ¬ (first = item ∧ rest.head? = some item) := by
  cases sequence with
  | nil => exact .inl rfl
  | cons first rest =>
      right
      by_cases pair : first = item ∧ rest.head? = some item
      · obtain ⟨rfl, next⟩ := pair
        obtain ⟨tail, rfl⟩ := List.head?_eq_some_iff.mp next
        exact .inl ⟨tail, rfl⟩
      · exact .inr ⟨first, rest, rfl, pair⟩

theorem head?_replaceAll_pair (sequence : List α) :
    (replaceAll [item, item] [item] sequence).head? = sequence.head? := by
  obtain rfl | ⟨rest, rfl⟩ | ⟨first, rest, rfl, single⟩ :=
    pair_cases item sequence
  · rfl
  · rw [replaceAll_pair]
    rfl
  · rw [replaceAll_single single]
    rfl

theorem squeezed_replaceAll (sequence : List α) :
    squeezed item (replaceAll [item, item] [item] sequence) =
      squeezed item sequence := by
  induction size : sequence.length using Nat.strongRecOn
    generalizing sequence with
  | ind size induction =>
      subst size
      obtain rfl | ⟨rest, rfl⟩ | ⟨first, rest, rfl, single⟩ :=
        pair_cases item sequence
      · rfl
      · have shorter : rest.length < (item :: item :: rest).length := by
          rw [List.length_cons, List.length_cons]
          omega
        have later := induction rest.length shorter rest rfl
        have pair : squeezed item (item :: item :: rest) =
            squeezed item (item :: rest) := by
          rw [squeezed, if_pos ⟨rfl, rfl⟩]
        rw [replaceAll_pair, pair, squeezed, head?_replaceAll_pair, later,
          squeezed]
      · have later := induction rest.length (by simp) rest rfl
        rw [replaceAll_single single, squeezed, head?_replaceAll_pair, later,
          squeezed]

theorem length_replaceAll_pair (sequence : List α) :
    (replaceAll [item, item] [item] sequence).length ≤ sequence.length ∧
    ([item, item] <:+: sequence →
      (replaceAll [item, item] [item] sequence).length < sequence.length) := by
  induction size : sequence.length using Nat.strongRecOn
    generalizing sequence with
  | ind size induction =>
      subst size
      obtain rfl | ⟨rest, rfl⟩ | ⟨first, rest, rfl, single⟩ :=
        pair_cases item sequence
      · exact ⟨le_rfl, fun pair => absurd pair (by simp)⟩
      · have shorter : rest.length < (item :: item :: rest).length := by
          rw [List.length_cons, List.length_cons]
          omega
        have later := (induction rest.length shorter rest rfl).1
        rw [replaceAll_pair, List.length_cons, List.length_cons,
          List.length_cons]
        omega
      · have later := induction rest.length (by simp) rest rfl
        rw [replaceAll_single single, List.length_cons, List.length_cons]
        refine ⟨by omega, fun pair => ?_⟩
        obtain here | inside := List.infix_cons_iff.mp pair
        · obtain ⟨tail, same⟩ := here
          cases same
          exact absurd ⟨rfl, rfl⟩ single
        · have shorter := later.2 inside
          omega

end Squeezed

section Marked

/-- The sequence as it stands, nothing of it brought in. -/
def original (sequence : List α) : List (α × Bool) :=
  sequence.map fun item => (item, false)

def broughtIn (sequence : List α) : List (α × Bool) :=
  sequence.map fun item => (item, true)

/-- The sequence without its marks. -/
def erased (marked : List (α × Bool)) : List α :=
  marked.map Prod.fst

def replaceOriginal (needle new : List α) (marked : List (α × Bool)) :
    List (α × Bool) :=
  replaceAll (original needle) (broughtIn new) marked

/-- No occurrence has an item that was brought in. -/
def Untouched (needle : List α) (marked : List (α × Bool)) : Prop :=
  ∀ start, needle <+: (erased marked).drop start →
    original needle <+: marked.drop start

omit [DecidableEq α] in
@[simp] theorem erased_original (sequence : List α) :
    erased (original sequence) = sequence := by
  simp [erased, original, Function.comp_def]

omit [DecidableEq α] in
@[simp] theorem erased_broughtIn (sequence : List α) :
    erased (broughtIn sequence) = sequence := by
  simp [erased, broughtIn, Function.comp_def]

omit [DecidableEq α] in
theorem erased_append (first second : List (α × Bool)) :
    erased (first ++ second) = erased first ++ erased second :=
  List.map_append

variable {marked : List (α × Bool)}

omit [DecidableEq α] in
theorem Untouched.tail {item : α × Bool}
    (untouched : Untouched needle (item :: marked)) : Untouched needle marked :=
  fun start => untouched (start + 1)

private theorem erased_replaceFrom (untouched : Untouched needle marked)
    (skip : ℕ) :
    erased (replaceFrom (original needle) (broughtIn new) skip marked) =
      replaceFrom needle new skip (erased marked) := by
  induction marked generalizing skip with
  | nil => cases skip <;> rfl
  | cons item marked induction =>
      have later := induction untouched.tail
      cases skip with
      | succ skip => exact later skip
      | zero =>
          have split : erased (item :: marked) = item.1 :: erased marked := rfl
          have here : original needle <+: item :: marked ↔
              needle <+: item.1 :: erased marked := by
            constructor
            · rintro ⟨rest, same⟩
              exact ⟨erased
                rest, by rw [← split, ← same, erased_append, erased_original]⟩
            · exact untouched 0
          have length : (original needle).length = needle.length :=
            List.length_map _
          rw [replaceFrom, split, replaceFrom, length]
          simp only [List.isPrefixOf_iff_prefix, here]
          split_ifs
          · rw [erased_append, erased_broughtIn, later]
          · exact congrArg (item.1 :: ·) (later 0)

theorem erased_replaceOriginal (untouched : Untouched needle marked) :
    erased (replaceOriginal needle new marked) =
      replaceAll needle new (erased marked) :=
  erased_replaceFrom untouched 0

/-- Texts that are replaced one after the other. -/
def replaceEach (replacements : List (List α × List α)) (sequence : List α) :
    List α :=
  replacements.foldl (fun sequence pair => replaceAll pair.1 pair.2 sequence)
    sequence

@[simp] theorem replaceEach_nil (replacements : List (List α × List α)) :
    replaceEach replacements [] = [] := by
  induction replacements with
  | nil => rfl
  | cons pair replacements induction => exact induction

def replaceEachOriginal (replacements : List (List α × List α))
    (marked : List (α × Bool)) : List (α × Bool) :=
  replacements.foldl (fun marked pair => replaceOriginal pair.1 pair.2 marked)
    marked

/-- What is brought in by one replacement is not touched by the later ones. -/
def EachUntouched : List (List α × List α) → List (α × Bool) → Prop
  | [], _ => True
  | pair :: replacements, marked =>
      Untouched pair.1 marked ∧
        EachUntouched replacements (replaceOriginal pair.1 pair.2 marked)

theorem replaceEach_eq {replacements : List (List α × List α)}
    (untouched : EachUntouched replacements marked) :
    replaceEach replacements (erased marked) =
      erased (replaceEachOriginal replacements marked) := by
  induction replacements generalizing marked with
  | nil => rfl
  | cons pair replacements induction =>
      have first := @erased_replaceOriginal _ _ pair.1 pair.2 marked untouched.1
      have later := induction untouched.2
      rw [first] at later
      exact later

end Marked

end Nvbmc.Library
