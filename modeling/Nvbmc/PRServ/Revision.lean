import Mathlib.Data.List.Lex
import Mathlib.Data.Char
import Nvbmc.Library.Extremum
import Nvbmc.Library.Text

/-!
# Revisions

The table stores texts such as `"3"` or `"3.0.1"`.  A `Revision` is such a text
by its numbers, and `text` writes it; splitting the text at its dots and
reading the numbers gives the revision back, so that two revisions are equal
when their texts are.

Revisions are ordered by their numbers from the left, a shorter one below its
extensions.  `revisionSmaller` and `revisionGreater` are the comparisons of the
code; they differ from the order where one revision is a prefix of the other.
-/

namespace Nvbmc.PRServ

open Nvbmc.Library

structure Revision where
  lead : List ℕ
  last : ℕ
  deriving DecidableEq

namespace Revision

def fields (revision : Revision) : List ℕ :=
  revision.lead ++ [revision.last]

theorem fields_injective : Function.Injective fields := by
  intro first second same
  have parts := List.append_inj' same rfl
  cases first
  cases second
  simp_all

instance instLinearOrder : LinearOrder Revision :=
  LinearOrder.lift' fields fields_injective

theorem lt_iff {first second : Revision} :
    first < second ↔ first.fields < second.fields := by
  exact Iff.rfl

/-- `"0"`. -/
def initial : Revision :=
  ⟨[], 0⟩

/-- `base + ".0"`. -/
def dotZero (base : Revision) : Revision :=
  ⟨base.fields, 0⟩

/-- `increase_revision`. -/
def increase (revision : Revision) : Revision :=
  { revision with last := revision.last + 1 }

def text (revision : Revision) : Text :=
  ['.'].intercalate (revision.fields.map (Nat.toDigits 10))

/-- `str.split(".")`. -/
def splitDots : Text → List Text
  | [] => [[]]
  | char :: text =>
      if char = '.' then [] :: splitDots text
      else
        match splitDots text with
        | [] => [[char]]
        | field :: fields => (char :: field) :: fields

theorem splitDots_field {field : Text} (noDot : '.' ∉ field) :
    splitDots field = [field] := by
  induction field with
  | nil => simp [splitDots]
  | cons char field induction =>
      have notDot : char ≠ '.' := fun same => noDot (by simp [same])
      rw [splitDots, if_neg notDot,
        induction fun among => noDot (List.mem_cons_of_mem _ among)]

theorem splitDots_append {field : Text} (noDot : '.' ∉ field) (rest : Text) :
    splitDots (field ++ '.' :: rest) = field :: splitDots rest := by
  induction field with
  | nil => simp [splitDots]
  | cons char field induction =>
      have notDot : char ≠ '.' := fun same => noDot (by simp [same])
      rw [List.cons_append, splitDots, if_neg notDot,
        induction fun among => noDot (List.mem_cons_of_mem _ among)]

theorem splitDots_intercalate {texts : List Text} (nonempty : texts ≠ [])
    (noDot : ∀ field ∈ texts, '.' ∉ field) :
    splitDots (['.'].intercalate texts) = texts := by
  induction texts with
  | nil => exact absurd rfl nonempty
  | cons field texts induction =>
      cases texts with
      | nil =>
          simpa [List.intercalate] using splitDots_field (noDot field (by simp))
      | cons other texts =>
          have later := induction (by simp) fun text member =>
            noDot text (List.mem_cons_of_mem _ member)
          have split : ['.'].intercalate (field :: other :: texts) =
              field ++ '.' :: ['.'].intercalate (other :: texts) := by
            simp [List.intercalate]
          rw [split, splitDots_append (noDot field (by simp)), later]

theorem intercalate_concat {texts : List Text} (nonempty : texts ≠ [])
    (last : Text) : ['.'].intercalate (texts ++ [last]) =
      ['.'].intercalate texts ++ '.' :: last := by
  induction texts with
  | nil => exact absurd rfl nonempty
  | cons field texts induction =>
      cases texts with
      | nil => simp [List.intercalate]
      | cons other texts =>
          have later := induction (by simp)
          simp only [List.cons_append] at later ⊢
          simpa [List.intercalate] using later

theorem dotZero_text (base : Revision) :
    base.dotZero.text = base.text ++ ".0".toList := by
  have nonempty : base.fields.map (Nat.toDigits 10) ≠ [] := by
    simp [fields]
  have split := intercalate_concat nonempty (Nat.toDigits 10 0)
  simpa [text, dotZero, fields] using split

theorem lt_increase (revision : Revision) : revision < revision.increase := by
  rw [lt_iff]
  apply List.append_left_lt
  exact List.cons_lt_cons_iff.mpr (.inl (Nat.lt_succ_self _))

theorem lt_dotZero (base : Revision) : base < base.dotZero := by
  have extended : base.fields ++ [] < base.fields ++ [0] :=
    List.append_left_lt (List.nil_lt_cons 0 [])
  simpa [lt_iff, dotZero, fields] using extended

end Revision

/-- `_revision_greater_or_equal` on the numbers of the revisions. -/
def greaterOrEqualFields : List ℕ → List ℕ → Bool
  | [], _ => true
  | _ :: _, [] => true
  | first :: firsts, second :: seconds =>
      if second < first then true
      else if first < second then false
      else greaterOrEqualFields firsts seconds

def revisionGreaterOrEqual (first second : Revision) : Bool :=
  greaterOrEqualFields first.fields second.fields

/-- `revision_smaller`. -/
def revisionSmaller (first second : Revision) : Bool :=
  !revisionGreaterOrEqual first second

/-- `revision_greater`. -/
def revisionGreater (first second : Revision) : Bool :=
  revisionGreaterOrEqual first second && first ≠ second

theorem greaterOrEqualFields_eq_false (first second : List ℕ) :
    greaterOrEqualFields first second = false ↔
      first < second ∧ ¬ first <+: second := by
  induction first generalizing second with
  | nil => simp [greaterOrEqualFields]
  | cons head firsts induction =>
      cases second with
      | nil => simp [greaterOrEqualFields]
      | cons other seconds =>
          rw [greaterOrEqualFields, List.cons_lt_cons_iff,
            List.cons_prefix_cons]
          split_ifs with above below
          · simp
            omega
          · simp
            omega
          · have same : head = other := by omega
            simp [same, induction]

/-- One revision is the beginning of the other. -/
def ProperPrefix (first second : Revision) : Prop :=
  first ≠ second ∧ first.fields <+: second.fields

instance instDecidableProperPrefix (first second : Revision) :
    Decidable (ProperPrefix first second) :=
  inferInstanceAs (Decidable (first ≠ second ∧ first.fields <+: second.fields))

variable {first second : Revision}

theorem ProperPrefix.lt (properPrefix : ProperPrefix first second) :
    first < second := by
  obtain ⟨different, tail, extended⟩ := properPrefix
  rw [Revision.lt_iff, ← extended]
  cases tail with
  | nil =>
      rw [List.append_nil] at extended
      exact absurd (Revision.fields_injective extended) different
  | cons head tail =>
      have less : first.fields ++ [] < first.fields ++ head :: tail :=
        List.append_left_lt (List.nil_lt_cons head tail)
      simpa using less

theorem append_lt_of_lt {first second : List ℕ} (less : first < second)
    (noPrefix : ¬ first <+: second) (tail : List ℕ) :
    first ++ tail < second := by
  induction first generalizing second with
  | nil => exact absurd (List.nil_prefix) noPrefix
  | cons head first induction =>
      cases second with
      | nil => simp at less
      | cons other second =>
          rw [List.cons_lt_cons_iff] at less
          rw [List.cons_append, List.cons_lt_cons_iff]
          rcases less with below | ⟨same, below⟩
          · exact .inl below
          · refine .inr ⟨same, induction below fun isPrefix => noPrefix ?_⟩
            exact List.cons_prefix_cons.mpr ⟨same, isPrefix⟩

theorem ProperPrefix.lt_of_lt {first second other : Revision}
    (properPrefix : ProperPrefix first second) (less : first < other)
    (notPrefix : ¬ ProperPrefix first other) : second < other := by
  obtain ⟨_, tail, extended⟩ := properPrefix
  rw [Revision.lt_iff, ← extended]
  exact append_lt_of_lt less (fun isPrefix => notPrefix ⟨less.ne, isPrefix⟩)
    tail

theorem revisionSmaller_iff : revisionSmaller first second ↔
      first < second ∧ ¬ ProperPrefix first second := by
  simp only [revisionSmaller, Bool.not_eq_true', revisionGreaterOrEqual,
    greaterOrEqualFields_eq_false, Revision.lt_iff, ProperPrefix, not_and]
  constructor
  · rintro ⟨less, noPrefix⟩
    exact ⟨less, fun _ => noPrefix⟩
  · rintro ⟨less, noPrefix⟩
    refine ⟨less, noPrefix ?_⟩
    rintro rfl
    exact lt_irrefl _ less

theorem revisionGreater_iff :
    revisionGreater first second ↔
      second < first ∨ ProperPrefix first second := by
  have opposite : revisionGreaterOrEqual first second ↔
      ¬ revisionSmaller first second := by
    simp [revisionSmaller]
  simp only [revisionGreater, Bool.and_eq_true, decide_eq_true_eq, opposite,
    revisionSmaller_iff, not_and_not_right]
  constructor
  · rintro ⟨notLess, different⟩
    rcases lt_trichotomy first second with less | same | above
    · exact .inr (notLess less)
    · exact absurd same different
    · exact .inl above
  · rintro (above | properPrefix)
    · exact ⟨fun less => absurd less above.asymm, above.ne'⟩
    · exact ⟨fun _ => properPrefix, properPrefix.1⟩

theorem not_properPrefix_of_lead_eq
    (leads : first.lead = second.lead) : ¬ ProperPrefix first second := by
  rintro ⟨different, isPrefix⟩
  have lengths : first.fields.length = second.fields.length := by
    simp [Revision.fields, leads]
  exact different (Revision.fields_injective (isPrefix.eq_of_length lengths))

theorem lt_of_last_lt (leads : first.lead = second.lead)
    (less : first.last < second.last) :
    first < second := by
  rw [Revision.lt_iff, Revision.fields, Revision.fields, leads]
  exact List.append_left_lt (List.cons_lt_cons_iff.mpr (.inl less))

end Nvbmc.PRServ
