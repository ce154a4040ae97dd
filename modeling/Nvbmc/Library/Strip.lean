import Nvbmc.Library.Text

/-!
# Stripping on both sides

`str.strip`, of blanks or of some other characters.  What is left has none of
them at its ends, and a text with none there is left as it is.
-/

namespace Nvbmc.Library

def stripOf (outer : Char → Bool) (text : Text) : Text :=
  (text.dropWhile outer).rdropWhile outer

/-- `str.strip`. -/
def strip (text : Text) : Text :=
  stripOf isspace text

structure Bare (outer : Char → Bool) (text : Text) : Prop where
  head : ∀ char ∈ text.head?, outer char = false
  last : ∀ char ∈ text.getLast?, outer char = false

variable {outer : Char → Bool} {text : Text}

@[simp] theorem stripOf_nil : stripOf outer [] = [] := rfl

theorem stripOf_sublist : (stripOf outer text).Sublist text := by
  have front := List.rdropWhile_prefix outer (text.dropWhile outer)
  exact front.sublist.trans (List.dropWhile_sublist outer)

theorem mem_of_mem_stripOf {char : Char} (member : char ∈ stripOf outer text) :
    char ∈ text :=
  stripOf_sublist.mem member

theorem stripOf_of_bare (bare : Bare outer text) :
    stripOf outer text = text := by
  have front : text.dropWhile outer = text := by
    cases text with
    | nil => rfl
    | cons first rest =>
        have kept : outer first = false := bare.head first rfl
        rw [List.dropWhile_cons_of_neg (by simp [kept])]
  rw [stripOf, front]
  apply List.rdropWhile_eq_self_iff.mpr
  intro nonempty
  simpa using bare.last _ (List.getLast?_eq_some_getLast nonempty)

theorem bare_stripOf (text : Text) : Bare outer (stripOf outer text) := by
  constructor
  · intro char isHead
    have nonempty : stripOf outer text ≠ [] := by
      intro empty
      rw [empty] at isHead
      cases isHead
    have isPrefix := List.rdropWhile_prefix outer (text.dropWhile outer)
    obtain ⟨first, rest, isCons⟩ := List.exists_cons_of_ne_nil nonempty
    obtain ⟨behind, split⟩ := isPrefix
    change stripOf outer text ++ behind = text.dropWhile outer at split
    rw [isCons] at isHead split
    cases isHead
    have isFirst : (text.dropWhile outer).head? = some char := by
      rw [← split]
      rfl
    have dropped := List.head?_dropWhile_not outer text
    rw [isFirst] at dropped
    exact dropped
  · intro char isLast
    have nonempty : stripOf outer text ≠ [] := by
      intro empty
      rw [empty] at isLast
      cases isLast
    have kept := (text.dropWhile outer).rdropWhile_last_not outer nonempty
    rw [List.getLast?_eq_some_getLast nonempty] at isLast
    cases isLast
    exact Bool.eq_false_iff.mpr kept

theorem stripOf_eq_self : stripOf outer text = text ↔ Bare outer text := by
  constructor
  · intro same
    exact same ▸ bare_stripOf text
  · exact stripOf_of_bare

@[simp] theorem stripOf_stripOf : stripOf outer (stripOf outer text) =
    stripOf outer text :=
  stripOf_of_bare (bare_stripOf text)

theorem length_stripOf_le : (stripOf outer text).length ≤ text.length :=
  stripOf_sublist.length_le

theorem stripOf_eq_self_of_length
    (long : text.length ≤ (stripOf outer text).length) :
    stripOf outer text = text :=
  stripOf_sublist.eq_of_length_le long

theorem stripOf_cons {char : Char} (isOuter : outer char = true) :
    stripOf outer (char :: text) = stripOf outer text := by
  rw [stripOf, List.dropWhile_cons_of_pos isOuter, stripOf]

theorem stripOf_append_left {front : Text}
    (areOuter : ∀ char ∈ front, outer char = true) :
    stripOf outer (front ++ text) = stripOf outer text := by
  induction front with
  | nil => rfl
  | cons first rest induction =>
      rw [List.cons_append, stripOf_cons (areOuter first List.mem_cons_self)]
      exact induction fun char member =>
        areOuter char (List.mem_cons_of_mem _ member)

theorem stripOf_concat {char : Char} (isOuter : outer char = true) :
    stripOf outer (text ++ [char]) = stripOf outer text := by
  by_cases all : ∀ item ∈ text, outer item = true
  · have left : text ++ [char] = (text ++ [char]) ++ [] :=
      (List.append_nil _).symm
    have allOuter : ∀ item ∈ text ++ [char], outer item = true := by
      intro item member
      rcases List.mem_append.mp member with earlier | isLast
      · exact all item earlier
      · exact List.mem_singleton.mp isLast ▸ isOuter
    rw [left, stripOf_append_left allOuter, ← List.append_nil text,
      stripOf_append_left all]
  · have some : ¬ text.all outer := by simpa using all
    rw [stripOf, stripOf, List.dropWhile_append]
    have nonempty : text.dropWhile outer ≠ [] := by
      rw [Ne, List.dropWhile_eq_nil_iff]
      exact all
    rw [if_neg (by simpa using nonempty), List.rdropWhile_concat_pos _ _ _
      isOuter]

theorem stripOf_append_right {back : Text}
    (areOuter : ∀ char ∈ back, outer char = true) :
    stripOf outer (text ++ back) = stripOf outer text := by
  induction back using List.reverseRecOn with
  | nil => rw [List.append_nil]
  | append_singleton back last induction =>
      rw [← List.append_assoc, stripOf_concat (areOuter last (by simp))]
      exact induction fun char member => areOuter char (by simp [member])

theorem exists_eq_stripOf (outer : Char → Bool) (text : Text) :
    ∃ front back : Text,
    text = front ++ stripOf outer text ++ back ∧
      (∀ char ∈ front, outer char = true) ∧
      ∀ char ∈ back, outer char = true := by
  refine ⟨text.takeWhile outer, (text.dropWhile outer).rtakeWhile outer, ?_, ?_,
    ?_⟩
  · rw [List.append_assoc, stripOf, List.rdropWhile_append_rtakeWhile,
      List.takeWhile_append_dropWhile]
  · exact fun char member => List.mem_takeWhile_imp member
  · exact fun char member => List.mem_rtakeWhile_imp member

theorem stripOf_eq_nil : stripOf outer text = [] ↔ ∀ char ∈ text,
    outer char = true := by
  constructor
  · intro empty
    obtain ⟨front, back, split, frontOuter, backOuter⟩ :=
      exists_eq_stripOf outer text
    rw [empty, List.append_nil] at split
    intro char member
    rw [split] at member
    rcases List.mem_append.mp member with inFront | inBack
    · exact frontOuter char inFront
    · exact backOuter char inBack
  · intro all
    rw [← List.append_nil text, stripOf_append_left all, stripOf_nil]

section Pieces

variable {separator : Char} (inner : outer separator = false)

include inner

theorem map_stripOf_splitOn_append_left {front : Text}
    (areOuter : ∀ char ∈ front, outer char = true) (text : Text) :
    ((front ++ text).splitOn separator).map (stripOf outer) =
      (text.splitOn separator).map (stripOf outer) := by
  induction front with
  | nil => rfl
  | cons first rest induction =>
      have isOuter := areOuter first List.mem_cons_self
      have different : (first == separator) = false := by
        rw [beq_eq_false_iff_ne]
        intro same
        rw [same, inner] at isOuter
        cases isOuter
      rw [← induction fun char member =>
        areOuter char (List.mem_cons_of_mem _ member)]
      rw [List.cons_append, List.splitOn_cons_eq_if_modifyHead, different]
      obtain ⟨piece, pieces, split⟩ :=
        List.exists_cons_of_ne_nil
          (List.splitOn_ne_nil separator (rest ++ text))
      simp [split, stripOf_cons isOuter]

theorem map_stripOf_splitOn_append_right {back : Text}
    (areOuter : ∀ char ∈ back, outer char = true) (text : Text) :
    ((text ++ back).splitOn separator).map (stripOf outer) =
      (text.splitOn separator).map (stripOf outer) := by
  have absent : separator ∉ back := by
    intro member
    rw [areOuter separator member] at inner
    cases inner
  induction long : text.length using Nat.strongRecOn generalizing text with
  | ind length induction =>
      by_cases member : separator ∈ text
      · obtain ⟨before, after, split⟩ := List.append_of_mem member
        have shorter : after.length < length := by
          rw [← long, split, List.length_append, List.length_cons]
          omega
        rw [split, List.append_assoc, List.cons_append,
          List.splitOn_append_cons_self,
          List.splitOn_append_cons_self, List.map_append, List.map_append,
          induction _ shorter after rfl]
      · rw [List.splitOn_eq_singleton (by simp [member, absent]),
          List.splitOn_eq_singleton member,
          List.map_singleton, List.map_singleton, stripOf_append_right areOuter]

theorem map_stripOf_splitOn_stripOf (text : Text) :
    ((stripOf outer text).splitOn separator).map (stripOf outer) =
      (text.splitOn separator).map (stripOf outer) := by
  obtain ⟨front, back, split, frontOuter, backOuter⟩ :=
    exists_eq_stripOf outer text
  conv_rhs => rw [split]
  rw [map_stripOf_splitOn_append_right inner backOuter,
    map_stripOf_splitOn_append_left inner frontOuter]

theorem map_stripOf_splitOn_intercalate {before after : Text}
    (beforeOuter : ∀ char ∈ before, outer char = true)
    (afterOuter : ∀ char ∈ after, outer char = true) {texts : List Text}
    (nonempty : texts ≠ [])
    (absent : ∀ text ∈ texts, separator ∉ text) :
    (((before ++ separator :: after).intercalate texts).splitOn separator).map
      (stripOf outer) = texts.map (stripOf outer) := by
  have notBefore : separator ∉ before := by
    intro member
    rw [beforeOuter separator member] at inner
    cases inner
  induction texts with
  | nil => exact absurd rfl nonempty
  | cons text texts induction =>
      have notText := absent text List.mem_cons_self
      cases texts with
      | nil =>
          rw [List.intercalate_singleton, List.splitOn_eq_singleton notText]
      | cons next texts =>
          have joined : (before ++ separator :: after).intercalate
              (text :: next :: texts) = (text ++ before) ++ separator ::
                (after ++ (before ++ separator :: after).intercalate
                  (next :: texts)) := by
            rw [List.intercalate_cons_cons]
            simp
          rw [joined, List.splitOn_append_cons_self_of_not_mem
            (by simp [notText, notBefore]),
            List.map_cons, map_stripOf_splitOn_append_left inner afterOuter,
            induction (List.cons_ne_nil _ _) fun other member =>
              absent other (List.mem_cons_of_mem _ member),
            stripOf_append_right beforeOuter, ← List.map_cons]

end Pieces

end Nvbmc.Library
