import Nvbmc.Progress.LineFilter

/-!
# Output in pieces

The lines depend on where the output was cut: a carriage return at the end of
what has arrived ends a line, and with the line feed behind it it would have
been a part of one.  They are the same exactly when no piece ends between the
two.
-/

namespace Nvbmc.Progress

open Library

/-- The lines that are taken when the pieces are put behind the buffer, one
after the other. -/
def cutPieces : Text → List Text → List Text
  | _, [] => []
  | linebuffer, string :: strings =>
      (cutLines (linebuffer ++ string)).1 ++
        cutPieces (cutLines (linebuffer ++ string)).2 strings

theorem foldl_write (writeline : Text → Bool) (handler : Handler)
    (strings : List Text) :
    (strings.foldl (Handler.write writeline) handler).lines =
        handler.lines ++ (cutPieces handler.linebuffer strings).map
          filterColor ∧
      (strings.foldl (Handler.write writeline) handler).outfile =
        handler.outfile ++
        (cutPieces handler.linebuffer strings).filter fun line =>
          writeline (filterColor line) := by
  induction strings generalizing handler with
  | nil => exact ⟨(List.append_nil _).symm, (List.append_nil _).symm⟩
  | cons string strings induction =>
      have written := loop_eq writeline
        { handler with linebuffer := handler.linebuffer ++ string }
      obtain ⟨lines, outfile⟩ := induction (handler.write writeline string)
      rw [List.foldl_cons, lines, outfile, Handler.write, written, cutPieces]
      simp only [List.map_append, List.filter_append, List.append_assoc,
        and_self]

/-- What stands behind the last line feed. -/
def unfinished (text : Text) : Text :=
  match rsplitOnce '\n' text with
  | some (_, rest) => rest
  | none => text

section Append

variable {front rest text : Text}

theorem unfinished_feed (front rest : Text) :
    unfinished (front ++ '\n' :: rest) = unfinished rest := by
  rw [unfinished, unfinished]
  cases found : rsplitOnce '\n' rest with
  | none =>
      rw [rsplitOnce_eq_some.mpr ⟨rfl, rsplitOnce_eq_none.mp found⟩]
  | some parts =>
      obtain ⟨split, absent⟩ := rsplitOnce_eq_some.mp found
      have whole : front ++ '\n' :: rest = (front ++ '\n' :: parts.1) ++ '\n' ::
          parts.2 := by
        rw [split, List.append_assoc, List.cons_append]
      rw [rsplitOnce_eq_some.mpr ⟨whole, absent⟩]

theorem unfinished_of_not_mem (noFeed : '\n' ∉ text) :
    unfinished text = text := by
  rw [unfinished, rsplitOnce_eq_none.mpr noFeed]

theorem unfinished_append (noFeed : '\n' ∉ rest) (text : Text) :
    unfinished (text ++ rest) = unfinished text ++ rest := by
  induction text using split_induction '\n' with
  | last text noFeedText =>
      rw [unfinished_of_not_mem noFeedText, unfinished_of_not_mem]
      simp [noFeed, noFeedText]
  | next front behind _ induction =>
      rw [List.append_assoc, List.cons_append, unfinished_feed, unfinished_feed,
        induction]

theorem cutLines_append (noFeed : '\n' ∉ rest) (text : Text) :
    cutLines (text ++ rest) =
      ((cutLines text).1 ++ (cutLines ((cutLines text).2 ++ rest)).1,
        (cutLines ((cutLines text).2 ++ rest)).2) := by
  induction text using split_induction '\n' with
  | last text noFeedText =>
      induction text using split_induction '\r' with
      | last text noReturn =>
          rw [cutLines_open noFeedText noReturn]
          rfl
      | next front behind noReturn induction =>
          have noFeedBehind : '\n' ∉ behind :=
            fun member => noFeedText (by simp [member])
          have noFeedAll : '\n' ∉ front ++ '\r' :: (behind ++ rest) := by
            simp only [List.mem_append, List.mem_cons, not_or] at noFeedText ⊢
            exact ⟨noFeedText.1, noFeedText.2.1, noFeedText.2.2, noFeed⟩
          rw [List.append_assoc, List.cons_append,
            cutLines_return noReturn noFeedAll,
            cutLines_return noReturn noFeedText, induction noFeedBehind,
            List.cons_append]
  | next front behind noFeedFront induction =>
      rw [List.append_assoc, List.cons_append, cutLines_feed noFeedFront,
        cutLines_feed noFeedFront, induction, List.cons_append]

theorem cutLines_append_of_unfinished (noReturn : '\r' ∉ unfinished text)
    (rest : Text) : cutLines (text ++ rest) =
      ((cutLines text).1 ++ (cutLines ((cutLines text).2 ++ rest)).1,
        (cutLines ((cutLines text).2 ++ rest)).2) := by
  induction text using split_induction '\n' with
  | last text noFeed =>
      rw [unfinished_of_not_mem noFeed] at noReturn
      rw [cutLines_open noFeed noReturn]
      rfl
  | next front behind noFeedFront induction =>
      rw [unfinished_feed] at noReturn
      rw [List.append_assoc, List.cons_append, cutLines_feed noFeedFront,
        cutLines_feed noFeedFront, induction noReturn, List.cons_append]

theorem length_cutLines_of_return (noFeed : '\n' ∉ text)
    (member : '\r' ∈ text) : 0 < (cutLines text).1.length := by
  obtain ⟨parts, found⟩ :=
    Option.isSome_iff_exists.mp (splitOnce_isSome.mpr member)
  obtain ⟨split, noReturn⟩ := splitOnce_eq_some.mp found
  rw [split] at noFeed ⊢
  rw [cutLines_return noReturn noFeed]
  exact Nat.succ_pos _

theorem length_cutLines_append (member : '\r' ∈ unfinished text)
    (feed : '\n' ∈ rest) : (cutLines (text ++ rest)).1.length <
      (cutLines text).1.length +
        (cutLines ((cutLines text).2 ++ rest)).1.length := by
  induction text using split_induction '\n' with
  | last text noFeed =>
      rw [unfinished_of_not_mem noFeed] at member
      obtain ⟨parts, found⟩ :=
        Option.isSome_iff_exists.mp (splitOnce_isSome.mpr feed)
      obtain ⟨split, noFeedFront⟩ := splitOnce_eq_some.mp found
      have line : ∀ start : Text, '\n' ∉ start →
          (cutLines (start ++ rest)).1.length = (cutLines parts.2).1.length +
            1 := by
        intro start noFeedStart
        have noFeedBoth : '\n' ∉ start ++ parts.1 := by
          simp [noFeedStart, noFeedFront]
        rw [split, ← List.append_assoc, cutLines_feed noFeedBoth,
          List.length_cons]
      have some := length_cutLines_of_return noFeed member
      rw [line text noFeed, line _ (cutLines_rest text).1]
      omega
  | next front behind noFeedFront induction =>
      rw [unfinished_feed] at member
      have shorter := induction member
      rw [List.append_assoc, List.cons_append, cutLines_feed noFeedFront,
        cutLines_feed noFeedFront]
      simp only [List.length_cons]
      omega

end Append

/-- No piece ends in a line behind a carriage return when the line feed of the
line comes in a later piece. -/
def Unbroken (strings : List Text) : Prop :=
  ∀ first second, strings = first ++ second → '\n' ∈ second.flatten →
    '\r' ∉ unfinished first.flatten

section Unbroken

variable {string linebuffer : Text} {strings : List Text}

/-- `Unbroken` for what comes behind the buffer. -/
def UnbrokenFrom (linebuffer : Text) (strings : List Text) : Prop :=
  ∀ first second, strings = first ++ second → '\n' ∈ second.flatten →
    '\r' ∉ unfinished (linebuffer ++ first.flatten)

theorem unfinished_cutLines (text rest : Text) :
    '\r' ∈ unfinished (text ++ rest) ↔
      '\r' ∈ unfinished ((cutLines text).2 ++ rest) ∨
        ('\n' ∉ rest ∧ '\r' ∈ unfinished text) := by
  obtain ⟨noFeed, noReturn⟩ := cutLines_rest text
  by_cases feed : '\n' ∈ rest
  · obtain ⟨parts, found⟩ :=
      Option.isSome_iff_exists.mp (splitOnce_isSome.mpr feed)
    obtain ⟨split, _⟩ := splitOnce_eq_some.mp found
    have behind : ∀ start, unfinished (start ++ rest) = unfinished parts.2 := by
      intro start
      rw [split, ← List.append_assoc, unfinished_feed]
    rw [behind, behind]
    simp [feed]
  · rw [unfinished_append feed, unfinished_append feed,
      unfinished_of_not_mem noFeed]
    simp only [List.mem_append, noReturn, false_or, feed, not_false_eq_true,
      true_and]
    exact or_comm

theorem unbrokenFrom_cons : UnbrokenFrom linebuffer (string :: strings) ↔
    ('\r' ∈ unfinished linebuffer → '\n' ∉ (string :: strings).flatten) ∧
      ('\r' ∈ unfinished (linebuffer ++ string) → '\n' ∉ strings.flatten) ∧
        UnbrokenFrom (cutLines (linebuffer ++ string)).2 strings := by
  constructor
  · intro unbroken
    refine ⟨?_, ?_, ?_⟩
    · intro member feed
      apply unbroken [] (string :: strings) rfl feed
      simpa using member
    · intro member feed
      apply unbroken [string] strings rfl feed
      simpa using member
    · intro first second split feed member
      apply unbroken (string :: first) second (by rw [split, List.cons_append])
        feed
      rw [List.flatten_cons, ← List.append_assoc]
      exact (unfinished_cutLines _ _).mpr (.inl member)
  · intro conditions first second split feed member
    obtain ⟨atStart, next, later⟩ := conditions
    cases first with
    | nil =>
        rw [List.nil_append] at split
        rw [List.flatten_nil, List.append_nil] at member
        exact atStart member (split ▸ feed)
    | cons head first =>
        obtain ⟨isHead, isRest⟩ := List.cons.inj split
        rw [← isHead, List.flatten_cons, ← List.append_assoc] at member
        rcases (unfinished_cutLines _ _).mp member with inRest | inLine
        · exact later first second isRest feed inRest
        · apply next inLine.2
          have flat : strings.flatten = first.flatten ++ second.flatten := by
            rw [isRest]
            exact List.flatten_append
          rw [flat]
          exact List.mem_append_right _ feed

/-- The pieces make the same lines as the whole where they are unbroken, and
more lines where they are not. -/
theorem cutPieces_cases (noFeed : '\n' ∉ linebuffer)
    (noReturn : '\r' ∉ linebuffer) (strings : List Text) :
    (UnbrokenFrom linebuffer strings ∧
        cutPieces linebuffer strings =
          (cutLines (linebuffer ++ strings.flatten)).1) ∨
      (¬ UnbrokenFrom linebuffer strings ∧
        (cutLines (linebuffer ++ strings.flatten)).1.length <
          (cutPieces linebuffer strings).length) := by
  induction strings generalizing linebuffer with
  | nil =>
      left
      constructor
      · intro first second split feed
        rw [(List.append_eq_nil_iff.mp split.symm).2] at feed
        cases feed
      · rw [List.flatten_nil, List.append_nil, cutLines_open noFeed noReturn]
        rfl
  | cons string strings induction =>
      obtain ⟨noFeedRest, noReturnRest⟩ := cutLines_rest (linebuffer ++ string)
      have atStart : '\r' ∉ unfinished linebuffer := by
        rwa [unfinished_of_not_mem noFeed]
      have isFrom := @unbrokenFrom_cons string linebuffer strings
      have later := induction noFeedRest noReturnRest
      rw [List.flatten_cons, ← List.append_assoc, cutPieces]
      by_cases broken : '\r' ∈ unfinished (linebuffer ++ string) ∧
        '\n' ∈ strings.flatten
      · right
        have more := length_cutLines_append broken.1 broken.2
        refine ⟨fun unbroken => (isFrom.mp unbroken).2.1 broken.1 broken.2, ?_⟩
        rw [List.length_append]
        rcases later with ⟨_, same⟩ | ⟨_, longer⟩
        · rwa [same]
        · omega
      · have whole : (cutLines (linebuffer ++ string ++ strings.flatten)).1 =
            (cutLines (linebuffer ++ string)).1 ++
              (cutLines ((cutLines (linebuffer ++ string)).2 ++
                strings.flatten)).1 := by
          by_cases feed : '\n' ∈ strings.flatten
          · rw [cutLines_append_of_unfinished fun member =>
              broken ⟨member, feed⟩]
          · rw [cutLines_append feed]
        rw [whole]
        rcases later with ⟨unbroken, same⟩ | ⟨isBroken, longer⟩
        · left
          refine ⟨isFrom.mpr ⟨fun member => absurd member atStart, ?_,
            unbroken⟩, ?_⟩
          · exact fun member feed => broken ⟨member, feed⟩
          · rw [same]
        · right
          refine ⟨fun unbroken => isBroken (isFrom.mp unbroken).2.2, ?_⟩
          rw [List.length_append, List.length_append]
          omega

theorem unbroken_iff_length : Unbroken strings ↔
    (cutPieces [] strings).length = (cutLines strings.flatten).1.length := by
  rcases @cutPieces_cases [] List.not_mem_nil List.not_mem_nil strings with
    ⟨unbroken, same⟩ | ⟨isBroken, longer⟩
  · exact ⟨fun _ => by rw [same]; rfl, fun _ => unbroken⟩
  · exact ⟨fun unbroken => absurd unbroken isBroken, fun same =>
      absurd same longer.ne'⟩

theorem cutPieces_of_unbroken (unbroken : Unbroken strings) :
    cutPieces [] strings = (cutLines strings.flatten).1 := by
  rcases @cutPieces_cases [] List.not_mem_nil List.not_mem_nil strings with
    ⟨_, same⟩ | ⟨isBroken, _⟩
  · exact same
  · exact absurd unbroken isBroken

end Unbroken

end Nvbmc.Progress
