import Nvbmc.Library.ThreeWay
import Nvbmc.Versions.Compare

/-!
# The order of versions

A piece has a key in a linear order, with the end marker among them, and the
pieces of a text with the end marker behind them are compared lexicographically.
So versions are compared by their keys, and the comparison is a total preorder.
-/

namespace Nvbmc.Versions

open Library

/-- The order of a piece, its number behind the end marker, and its characters.
-/
abbrev PieceKey := ℤ ×ₗ ℕ ×ₗ Text

namespace Piece

def key : Piece → PieceKey
  | tilde => toLex (-1, toLex (0, []))
  | number value => toLex (0, toLex (value + 1, []))
  | letters text => toLex (1, toLex (0, text))
  | other char => toLex (2, toLex (0, [char]))

end Piece

def endKey : PieceKey :=
  toLex (0, toLex (0, []))

def keys (pieces : List Piece) : List PieceKey :=
  pieces.map Piece.key ++ [endKey]

namespace Piece

theorem key_lt_of_order {first second : Piece}
    (less : first.order < second.order) :
    first.key < second.key := by
  cases first <;> cases second <;>
    simp_all [order, key, Prod.Lex.toLex_lt_toLex]

theorem key_lt_iff {first second : Piece} (same : first.order = second.order) :
    first.key < second.key ↔ first.contentLt second := by
  cases first <;> cases second <;>
    simp_all [order, key, contentLt, Prod.Lex.toLex_lt_toLex,
      List.cons_lt_cons_iff]

end Piece

theorem key_lt_endKey_iff (piece : Piece) :
    piece.key < endKey ↔ piece.order < 0 := by
  cases piece <;> simp [endKey, Piece.key, Piece.order, Prod.Lex.toLex_lt_toLex]

theorem endKey_lt_key_iff (piece : Piece) :
    endKey < piece.key ↔ ¬ piece.order < 0 := by
  cases piece <;> simp [endKey, Piece.key, Piece.order, Prod.Lex.toLex_lt_toLex]

theorem vercmpPieces_agrees (first second : List Piece) :
    Agrees (vercmpPieces first second) (keys first) (keys second) := by
  induction first generalizing second with
  | nil =>
      cases second with
      | nil => exact .of_eq rfl
      | cons second seconds =>
          rw [vercmpPieces]
          split_ifs with behind before
          · apply (Agrees.of_lt _
              ((endKey_lt_key_iff second).mpr _)).cons_of_ne <;> omega
          · apply (Agrees.of_gt _
              ((key_lt_endKey_iff second).mpr _)).cons_of_ne <;> omega
          · apply (Agrees.of_lt _
              ((endKey_lt_key_iff second).mpr _)).cons_of_ne <;> omega
  | cons first firsts induction =>
      cases second with
      | nil =>
          rw [vercmpPieces]
          split_ifs with before behind
          · apply (Agrees.of_lt _
              ((key_lt_endKey_iff first).mpr _)).cons_of_ne <;> omega
          · apply (Agrees.of_gt _
              ((endKey_lt_key_iff first).mpr _)).cons_of_ne <;> omega
          · apply (Agrees.of_gt _
              ((endKey_lt_key_iff first).mpr _)).cons_of_ne <;> omega
      | cons second seconds =>
          rw [vercmpPieces]
          split_ifs with below above less greater
          · apply (Agrees.of_lt _ (Piece.key_lt_of_order below)).cons_of_ne <;>
              omega
          · apply (Agrees.of_gt _ (Piece.key_lt_of_order above)).cons_of_ne <;>
              omega
          · have same : first.order = second.order := by omega
            apply (Agrees.of_lt _
              ((Piece.key_lt_iff same).mpr less)).cons_of_ne <;> omega
          · have same : second.order = first.order := by omega
            apply (Agrees.of_gt _
              ((Piece.key_lt_iff same).mpr greater)).cons_of_ne <;> omega
          · have same : first.order = second.order := by omega
            have notLess := mt (Piece.key_lt_iff same).mp less
            have notGreater := mt (Piece.key_lt_iff same.symm).mp greater
            have equal : first.key = second.key :=
              le_antisymm (not_lt.mp notGreater) (not_lt.mp notLess)
            have rest := (induction seconds).cons_of_eq first.key
            rw [keys, keys, List.map_cons, List.map_cons, List.cons_append,
              List.cons_append, ← equal]
            exact rest

variable {text : Text}

theorem restOfLine_of_not_mem (noNewline : '\n' ∉ text) :
    restOfLine text = some text := by
  exact if_pos noNewline

theorem not_mem_dropWhile {char : Char} (absent : char ∉ text)
    (test : Char → Bool) : char ∉ text.dropWhile test := by
  intro member
  exact absent ((List.dropWhile_sublist test).mem member)

/-- The pieces of a text without newlines. -/
def pieces : Text → List Piece
  | [] => []
  | char :: rest =>
      if char.isDigit then
        .number (runValue 0 (char :: rest.takeWhile isDecimal)) ::
          pieces (rest.dropWhile isDecimal)
      else if char.isAlpha then
        .letters (char :: rest.takeWhile Char.isAlpha) ::
          pieces (rest.dropWhile Char.isAlpha)
      else (if char = '~' then .tilde else .other char) :: pieces rest
termination_by text => text.length
decreasing_by
  · exact Nat.lt_succ_of_le (List.length_dropWhile_le _ _)
  · exact Nat.lt_succ_of_le (List.length_dropWhile_le _ _)
  · exact Nat.lt_succ_self _

theorem explodeLoop_eq (noNewline : '\n' ∉ text) {fuel : ℕ}
    (enough : text.length ≤ fuel) :
    explodeLoop fuel text = some (pieces text) := by
  induction fuel generalizing text with
  | zero =>
      rw [List.length_eq_zero_iff.mp (Nat.le_zero.mp enough), pieces]
      rfl
  | succ fuel induction =>
      cases text with
      | nil =>
          rw [pieces]
          rfl
      | cons char rest =>
          have noNewlineRest : '\n' ∉ rest := fun member =>
            noNewline (List.mem_cons_of_mem _ member)
          have enoughRest : rest.length ≤ fuel := Nat.le_of_succ_le_succ enough
          have dropped : ∀ test : Char → Bool,
              restOfLine (rest.dropWhile test) = some (rest.dropWhile test) ∧
              explodeLoop fuel (rest.dropWhile test) =
                some (pieces (rest.dropWhile test)) := by
            intro test
            have absent := not_mem_dropWhile noNewlineRest test
            exact ⟨restOfLine_of_not_mem absent,
              induction absent
                ((List.length_dropWhile_le test rest).trans enoughRest)⟩
          rw [explodeLoop, pieces]
          split_ifs
          · simp [dropped isDecimal]
          · simp [dropped Char.isAlpha]
          · simp [induction noNewlineRest enoughRest]
          · simp [induction noNewlineRest enoughRest]

theorem explodeVersion_eq (noNewline : '\n' ∉ text) :
    explodeVersion text = some (pieces text) := by
  exact explodeLoop_eq noNewline le_rfl

theorem vercmpPart_eq {first second : Text} (noFirst : '\n' ∉ first)
    (noSecond : '\n' ∉ second) :
    vercmpPart first second =
      some (vercmpPieces (pieces first) (pieces second)) := by
  rw [vercmpPart, explodeVersion_eq noFirst, explodeVersion_eq noSecond]
  rfl

namespace Version

/-- The texts of a version have no newline. -/
def Plain (version : Version) : Prop :=
  '\n' ∉ version.pv ∧ '\n' ∉ version.pr

def key (version : Version) : ℤ ×ₗ List PieceKey ×ₗ List PieceKey :=
  toLex (version.pe, toLex (keys (pieces version.pv), keys (pieces version.pr)))

end Version

theorem vercmp_agrees {first second : Version} (plainFirst : first.Plain)
    (plainSecond : second.Plain) :
    ∃ result, vercmp first second = some result ∧
      Agrees result first.key second.key := by
  have epochs := Agrees.sub first.pe second.pe
  have versions := vercmpPieces_agrees (pieces first.pv) (pieces second.pv)
  have revisions := vercmpPieces_agrees (pieces first.pr) (pieces second.pr)
  rw [vercmp, vercmpPart_eq plainFirst.1 plainSecond.1,
    vercmpPart_eq plainFirst.2 plainSecond.2, Version.key, Version.key]
  by_cases sameEpoch : first.pe - second.pe = 0
  · rw [if_pos sameEpoch, epochs.eq_zero_iff.mp sameEpoch]
    by_cases sameVersion : vercmpPieces (pieces first.pv) (pieces second.pv) = 0
    · refine ⟨vercmpPieces (pieces first.pr)
        (pieces second.pr), by simp [sameVersion], ?_⟩
      rw [versions.eq_zero_iff.mp sameVersion]
      exact (revisions.toLex_of_eq _).toLex_of_eq _
    · refine ⟨vercmpPieces (pieces first.pv)
        (pieces second.pv), by simp [sameVersion], ?_⟩
      exact (versions.toLex_of_ne sameVersion _ _).toLex_of_eq _
  · rw [if_neg sameEpoch]
    exact ⟨_, rfl, epochs.toLex_of_ne sameEpoch _ _⟩

end Nvbmc.Versions
