import Nvbmc.Library.Text

/-!
# Words

`str.split` without a separator: the pieces between blanks that are not empty.
-/

namespace Nvbmc.Library

/-- `str.split`. -/
def words (text : Text) : List Text :=
  (text.splitOnP isspace).filter (· ≠ [])

@[simp] theorem words_nil : words [] = [] := by
  simp [words]

theorem words_append_cons (first second : Text) {blank : Char}
    (isBlank : isspace blank = true) :
    words (first ++ blank :: second) = words first ++ words second := by
  rw [words, List.splitOnP_append_cons _ _ isBlank, List.filter_append]
  rfl

theorem words_of_unblank {word : Text} (nonempty : word ≠ [])
    (unblank : ∀ char ∈ word, isspace char = false) : words word = [word] := by
  rw [words, List.splitOnP_eq_singleton unblank]
  simp [nonempty]

theorem mem_of_mem_splitOnP {α : Type} {separates : α → Bool}
    {items piece : List α} (member : piece ∈ items.splitOnP separates) :
    ∀ item ∈ piece, separates item = false ∧ item ∈ items := by
  induction items generalizing piece with
  | nil =>
      rw [List.splitOnP_nil, List.mem_singleton] at member
      simp [member]
  | cons first items induction =>
      obtain ⟨head, pieces, isSplit⟩ :=
        List.exists_cons_of_ne_nil (List.splitOnP_ne_nil separates items)
      rw [List.splitOnP_cons_eq_if_modifyHead, isSplit] at member
      have later : ∀ other ∈ head :: pieces, ∀ item ∈ other,
          separates item = false ∧ item ∈ first :: items := by
        intro other isPiece item inside
        obtain ⟨isItem, inItems⟩ := induction (isSplit ▸ isPiece) item inside
        exact ⟨isItem, List.mem_cons_of_mem _ inItems⟩
      split_ifs at member with isSeparator
      · rcases List.mem_cons.mp member with rfl | isPiece
        · simp
        · exact later piece isPiece
      · rw [List.modifyHead_cons] at member
        rcases List.mem_cons.mp member with rfl | isPiece
        · intro item inside
          rcases List.mem_cons.mp inside with rfl | inHead
          · exact ⟨by simpa using isSeparator, List.mem_cons_self⟩
          · exact later head List.mem_cons_self item inHead
        · exact later piece (List.mem_cons_of_mem _ isPiece)

theorem mem_of_mem_words {text word : Text} (member : word ∈ words text) :
    word ≠ [] ∧ ∀ char ∈ word, isspace char = false ∧ char ∈ text := by
  obtain ⟨isPiece, nonempty⟩ := List.mem_filter.mp member
  exact ⟨by simpa using nonempty, mem_of_mem_splitOnP isPiece⟩

/-- `' '.join`. -/
def joinWords (items : List Text) : Text :=
  [' '].intercalate items

/-- A text without blanks that is not empty. -/
structure IsWord (word : Text) : Prop where
  nonempty : word ≠ []
  unblank : ∀ char ∈ word, isspace char = false

theorem IsWord.of_all {word : Text} (nonempty : word ≠ [])
    (all : (word.all fun char => !isspace char) = true) : IsWord word := by
  constructor
  · exact nonempty
  · intro char member
    simpa using List.all_eq_true.mp all char member

theorem joinWords_singleton (word : Text) : joinWords [word] = word := by
  simp [joinWords]

theorem joinWords_cons {word : Text} {items : List Text}
    (nonempty : items ≠ []) :
    joinWords (word :: items) = word ++ ' ' :: joinWords items := by
  rw [joinWords, List.intercalate_cons_of_ne_nil nonempty]
  simp [joinWords]

theorem joinWords_append {first second : List Text} (nonempty : first ≠ [])
    (nonempty' : second ≠ []) :
    joinWords (first ++ second) = joinWords first ++ ' ' ::
      joinWords second := by
  induction first with
  | nil => exact absurd rfl nonempty
  | cons word first induction =>
      cases first with
      | nil =>
          rw [List.singleton_append, joinWords_cons nonempty',
            joinWords_singleton]
      | cons other first =>
          rw [List.cons_append, joinWords_cons (by simp), induction (by simp),
            joinWords_cons (List.cons_ne_nil _ _), List.append_assoc,
            List.cons_append]

theorem words_joinWords {items : List Text}
    (areWords : ∀ word ∈ items, IsWord word) :
    words (joinWords items) = items := by
  induction items with
  | nil => exact words_nil
  | cons word items induction =>
      obtain ⟨nonempty, unblank⟩ := areWords word List.mem_cons_self
      have others :=
        induction fun other member => areWords other (.tail _ member)
      have isOne := words_of_unblank nonempty unblank
      cases items with
      | nil => rw [joinWords_singleton, isOne]
      | cons other items =>
          rw [joinWords_cons (List.cons_ne_nil _ _),
            words_append_cons _ _ (by decide), isOne, others]
          rfl

end Nvbmc.Library
