import Nvbmc.Progress.Chunks

/-!
# What the log may leave out

A carriage return that no line feed follows lets the next text overwrite what
stands in front of it.  Nothing but that is left out of the log, and the lines
are the same however the output is cut, for exactly those outputs that have no
line feed behind a carriage return, end at an end of a line, and are not cut in
between.
-/

namespace Nvbmc.Progress

open Library

/-- The text is made of these lines and of what is overwritten: the text of a
line up to a carriage return that is not followed by a line feed. -/
inductive Accounts : List Text → Text → Prop where
  | nil : Accounts [] []
  | line {line rest : Text} {lines : List Text} :
      Accounts lines rest → Accounts (line :: lines) (line ++ rest)
  | overwritten {front line rest : Text} {lines : List Text} :
      '\n' ∉ front → (line ++ rest).head? ≠ some '\n' →
      Accounts lines rest →
        Accounts (line :: lines) (front ++ '\r' :: (line ++ rest))

/-- However the strings are cut, the same lines are passed and the same text is
logged, and only lines that were rejected and what was overwritten are missing.
-/
def Filters (strings : List Text) : Prop :=
  ∀ writeline : Text → Bool,
    (filtered writeline strings).lines =
      (filtered writeline [strings.flatten]).lines ∧
      (filtered writeline strings).outfile.flatten =
        (filtered writeline [strings.flatten]).outfile.flatten ∧
      ∃ lines, Accounts lines strings.flatten ∧
        (filtered writeline strings).lines = lines.map filterColor ∧
        (filtered writeline strings).outfile =
          lines.filter fun line => writeline (filterColor line)

/-- The text has no line feed directly behind a carriage return and ends with
one of them. -/
structure Settled (text : Text) : Prop where
  apart : ¬ ['\r', '\n'] <:+: text
  ends : ∀ char ∈ text.getLast?, char = '\n' ∨ char = '\r'

section Settled

variable {front rest : Text}

theorem ends_append_cons {char : Char} (isEnd : char = '\n' ∨ char = '\r') :
    (∀ last ∈ (front ++ char :: rest).getLast?, last = '\n' ∨ last = '\r') ↔
      ∀ last ∈ rest.getLast?, last = '\n' ∨ last = '\r' := by
  rw [List.getLast?_append_of_ne_nil _ (List.cons_ne_nil _ _)]
  cases rest with
  | nil => simpa using isEnd
  | cons next rest => rw [List.getLast?_cons_cons]

theorem pair_feed (noFeed : '\n' ∉ front) (rest : Text) :
    ['\r', '\n'] <:+: front ++ '\n' :: rest ↔
      front.getLast? = some '\r' ∨ ['\r', '\n'] <:+: rest := by
  constructor
  · intro pair
    obtain ⟨before, after, split⟩ := pair
    rw [List.append_assoc] at split
    rcases List.append_eq_append_iff.mp split with ⟨more, isFront, isRest⟩ |
      ⟨more, isBefore, isPair⟩
    · -- the pair begins in the line
      cases more with
      | nil =>
          cases (List.cons.inj isRest).1
      | cons first more =>
          obtain ⟨isFirst, isMore⟩ := List.cons.inj isRest
          cases more with
          | nil =>
              left
              rw [isFront, ← isFirst, List.getLast?_concat]
          | cons second more =>
              have inFront : '\n' ∈ front := by
                rw [isFront, ← (List.cons.inj isMore).1]
                simp
              exact absurd inFront noFeed
    · right
      cases more with
      | nil => cases (List.cons.inj isPair).1
      | cons first more =>
          exact ⟨more, after, by
            rw [List.append_assoc]
            exact (List.cons.inj isPair).2.symm⟩
  · intro either
    rcases either with isLast | later
    · obtain ⟨before, isFront⟩ : ∃ before, front = before ++ ['\r'] :=
        List.getLast?_eq_some_iff.mp isLast
      exact ⟨before, rest, by rw [isFront]; simp⟩
    · obtain ⟨before, after, split⟩ := later
      exact ⟨front ++ '\n' :: before, after, by rw [← split]; simp⟩

theorem settled_feed (noFeed : '\n' ∉ front) (rest : Text) :
    Settled (front ++ '\n' :: rest) ↔ front.getLast? ≠ some '\r' ∧
      Settled rest := by
  constructor
  · intro settled
    have apart := settled.apart
    rw [pair_feed noFeed, not_or] at apart
    exact ⟨apart.1, apart.2, (ends_append_cons (.inl rfl)).mp settled.ends⟩
  · intro both
    obtain ⟨notLast, settled⟩ := both
    constructor
    · rw [pair_feed noFeed, not_or]
      exact ⟨notLast, settled.apart⟩
    · exact (ends_append_cons (.inl rfl)).mpr settled.ends

end Settled

section Accounts

variable {text : Text}

theorem ends_shown (front : Text) : (shown (front ++ ['\n'])).getLast? =
    some '\n' := by
  by_cases member : '\r' ∈ front
  · obtain ⟨parts, found⟩ :=
      Option.isSome_iff_exists.mp (rsplitOnce_isSome.mpr member)
    obtain ⟨split, noReturn⟩ := rsplitOnce_eq_some.mp found
    rw [split, shown_of_return _ noReturn, List.getLast?_concat]
  · rw [shown_of_not_mem member, List.getLast?_concat]

theorem ends_of_mem_cutLines (text : Text) :
    ∀ line ∈ (cutLines text).1, line.getLast? = some '\n' ∨
      line.getLast? = some '\r' := by
  induction text using split_induction '\n' with
  | last text noFeed =>
      induction text using split_induction '\r' with
      | last text noReturn =>
          rw [cutLines_open noFeed noReturn]
          exact fun line member => absurd member List.not_mem_nil
      | next front rest noReturn induction =>
          rw [cutLines_return noReturn noFeed]
          intro line member
          rcases List.mem_cons.mp member with isLine | later
          · right
            rw [isLine, List.getLast?_concat]
          · exact induction (fun inRest => noFeed (by simp [inRest])) line later
  | next front rest noFeed induction =>
      rw [cutLines_feed noFeed]
      intro line member
      rcases List.mem_cons.mp member with isLine | later
      · left
        rw [isLine, ends_shown]
      · exact induction line later

theorem Accounts.ends {lines : List Text} (accounts : Accounts lines text)
    (areEnds : ∀ line ∈ lines, line.getLast? = some '\n' ∨
      line.getLast? = some '\r') :
    ∀ char ∈ text.getLast?, char = '\n' ∨ char = '\r' := by
  have behind : ∀ {line rest front : Text},
      line.getLast? = some '\n' ∨ line.getLast? = some '\r' →
      (∀ char ∈ rest.getLast?, char = '\n' ∨ char = '\r') →
      ∀ char ∈ (front ++ (line ++ rest)).getLast?, char = '\n' ∨
        char = '\r' := by
    intro line rest front isEnd restEnds char isLast
    have nonempty : line ≠ [] := by
      intro empty
      rw [empty] at isEnd
      cases isEnd with
      | inl none => cases none
      | inr none => cases none
    rw [List.getLast?_append_of_ne_nil _ (by simp [nonempty])] at isLast
    by_cases noRest : rest = []
    · rw [noRest, List.append_nil] at isLast
      rcases isEnd with feed | isReturn
      · left
        exact Option.some.inj (isLast.symm.trans feed)
      · right
        exact Option.some.inj (isLast.symm.trans isReturn)
    · rw [List.getLast?_append_of_ne_nil _ noRest] at isLast
      exact restEnds char isLast
  induction accounts with
  | nil => exact fun char isLast => nomatch isLast
  | @line line rest lines _ induction =>
      have later := induction fun other member => areEnds other (.tail _ member)
      exact @behind line rest [] (areEnds line (.head _)) later
  | @overwritten front line rest lines _ _ _ induction =>
      have later := induction fun other member => areEnds other (.tail _ member)
      have isLast :=
        @behind line rest (front ++ ['\r']) (areEnds line (.head _)) later
      rwa [List.append_assoc, List.singleton_append] at isLast

theorem feed_unique {front other rest behind : Text} (noFeed : '\n' ∉ front)
    (noOther : '\n' ∉ other)
    (same : front ++ '\n' :: rest = other ++ '\n' :: behind) :
    front = other ∧ rest = behind := by
  have first : splitOnce '\n' (front ++ '\n' :: rest) = some (front, rest) :=
    splitOnce_eq_some.mpr ⟨rfl, noFeed⟩
  have second := splitOnce_eq_some.mpr ⟨same, noOther⟩
  have parts := first.symm.trans second
  exact ⟨congrArg Prod.fst (Option.some.inj parts),
    congrArg Prod.snd (Option.some.inj parts)⟩

theorem accounts_feed {front rest : Text} {lines : List Text}
    (noFeed : '\n' ∉ front) :
    Accounts (shown (front ++ ['\n']) :: lines) (front ++ '\n' :: rest) ↔
      front.getLast? ≠ some '\r' ∧ Accounts lines rest := by
  by_cases member : '\r' ∈ front
  · obtain ⟨parts, found⟩ :=
      Option.isSome_iff_exists.mp (rsplitOnce_isSome.mpr member)
    obtain ⟨split, noReturn⟩ := rsplitOnce_eq_some.mp found
    obtain ⟨before, behind⟩ := parts
    have noFeedBefore : '\n' ∉ before :=
      fun inBefore => noFeed (by rw [split]; simp [inBefore])
    have noFeedBehind : '\n' ∉ behind :=
      fun inBehind => noFeed (by rw [split]; simp [inBehind])
    rw [split, shown_of_return _ noReturn]
    have isLast : (before ++ '\r' :: behind).getLast? ≠ some '\r' ↔
        behind ≠ [] := by
      rw [List.getLast?_append_of_ne_nil _ (List.cons_ne_nil _ _)]
      constructor
      · intro other empty
        rw [empty] at other
        exact other rfl
      · intro nonempty isLast
        rw [← List.singleton_append, List.getLast?_append_of_ne_nil _ nonempty]
          at isLast
        exact noReturn (List.mem_of_getLast? isLast)
    rw [isLast]
    constructor
    · intro accounts
      generalize isText : before ++ '\r' :: behind ++ '\n' :: rest =
        text at accounts
      cases accounts with
      | @line _ other _ accounts =>
          rw [List.append_assoc behind, List.singleton_append] at isText
          have noFeedAll : '\n' ∉ before ++ '\r' :: behind := by
            rwa [← split]
          obtain ⟨isFront, _⟩ := feed_unique noFeedAll noFeedBehind isText
          rw [← isFront] at noReturn
          exact absurd (by simp) noReturn
      | @overwritten start _ other _ noFeedStart notFeed accounts =>
          rw [List.append_assoc behind,
            List.singleton_append, ← List.cons_append,
            ← List.append_assoc start] at isText
          have noFeedAll : '\n' ∉ before ++ '\r' :: behind := by
            rwa [← split]
          have noFeedOther : '\n' ∉ start ++ '\r' :: behind := by
            simp [noFeedStart, noFeedBehind]
          obtain ⟨_, isRest⟩ := feed_unique noFeedAll noFeedOther isText
          refine ⟨?_, isRest ▸ accounts⟩
          intro empty
          rw [empty] at notFeed
          exact notFeed rfl
    · intro both
      obtain ⟨nonempty, accounts⟩ := both
      have isText : before ++ '\r' :: behind ++ '\n' :: rest =
          before ++ '\r' :: ((behind ++ ['\n']) ++ rest) := by
        simp
      rw [isText]
      apply Accounts.overwritten noFeedBefore _ accounts
      cases behind with
      | nil => exact absurd rfl nonempty
      | cons first behind =>
          intro isFeed
          have same : first = '\n' := Option.some.inj isFeed
          exact noFeedBehind (same ▸ List.mem_cons_self)
  · have notLast : front.getLast? ≠ some '\r' := fun isLast =>
      member (List.mem_of_getLast? isLast)
    have isText : front ++ '\n' :: rest = (front ++ ['\n']) ++ rest := by simp
    rw [shown_of_not_mem member]
    constructor
    · intro accounts
      refine ⟨notLast, ?_⟩
      generalize same : front ++ '\n' :: rest = text at accounts
      cases accounts with
      | @line _ other _ accounts =>
          rw [List.append_assoc, List.singleton_append] at same
          exact (feed_unique noFeed noFeed same).2 ▸ accounts
      | @overwritten start _ other _ noFeedStart _ accounts =>
          rw [List.append_assoc front,
            List.singleton_append, ← List.cons_append,
            ← List.append_assoc start] at same
          have noFeedOther : '\n' ∉ start ++ '\r' :: front := by
            simp [noFeedStart, noFeed]
          obtain ⟨isFront, _⟩ := feed_unique noFeed noFeedOther same
          exact absurd (by rw [isFront]; simp) member
    · intro both
      rw [isText]
      exact .line both.2

theorem accounts_open (noFeed : '\n' ∉ text)
    (ends : ∀ char ∈ text.getLast?, char = '\n' ∨ char = '\r') :
    Accounts (cutLines text).1 text := by
  induction text using split_induction '\r' with
  | last text noReturn =>
      rw [cutLines_open noFeed noReturn]
      cases isLast : text.getLast? with
      | none =>
          rw [List.getLast?_eq_none_iff.mp isLast]
          exact .nil
      | some char =>
          have member := List.mem_of_getLast? isLast
          rcases ends char isLast with isFeed | isReturn
          · exact absurd (isFeed ▸ member) noFeed
          · exact absurd (isReturn ▸ member) noReturn
  | next front rest noReturn induction =>
      have noFeedRest : '\n' ∉ rest := fun inRest => noFeed (by simp [inRest])
      have isText : front ++ '\r' :: rest = (front ++ ['\r']) ++ rest := by simp
      rw [cutLines_return noReturn noFeed, isText]
      exact .line (induction noFeedRest ((ends_append_cons (.inr rfl)).mp ends))

theorem accounts_cutLines_iff (text : Text) : Accounts (cutLines text).1 text ↔
    Settled text := by
  constructor
  · intro accounts
    refine ⟨?_, accounts.ends (ends_of_mem_cutLines text)⟩
    induction text using split_induction '\n' with
    | last text noFeed =>
        intro pair
        exact noFeed (pair.subset (by simp))
    | next front rest noFeed induction =>
        rw [cutLines_feed noFeed] at accounts
        obtain ⟨notLast, later⟩ := (accounts_feed noFeed).mp accounts
        rw [pair_feed noFeed, not_or]
        exact ⟨notLast, induction later⟩
  · intro settled
    induction text using split_induction '\n' with
    | last text noFeed => exact accounts_open noFeed settled.ends
    | next front rest noFeed induction =>
        obtain ⟨notLast, later⟩ := (settled_feed noFeed rest).mp settled
        rw [cutLines_feed noFeed]
        exact (accounts_feed noFeed).mpr ⟨notLast, induction later⟩

end Accounts

section Filters

variable {strings : List Text}

theorem filtered_lines (writeline : Text → Bool) (strings : List Text) :
    (filtered writeline strings).lines =
      (cutPieces [] strings).map filterColor := by
  rw [filtered, (foldl_write writeline Handler.start strings).1]
  rfl

theorem filtered_outfile (writeline : Text → Bool) (strings : List Text) :
    (filtered writeline strings).outfile =
      (cutPieces [] strings).filter fun line =>
        writeline (filterColor line) := by
  rw [filtered, (foldl_write writeline Handler.start strings).2]
  rfl

theorem cutPieces_singleton (text : Text) :
    cutPieces [] [text] = (cutLines text).1 := by
  rw [cutPieces, cutPieces, List.nil_append, List.append_nil]

theorem Filters.unbroken (filters : Filters strings) : Unbroken strings := by
  have sameLines := (filters fun _ => true).1
  rw [filtered_lines, filtered_lines, cutPieces_singleton] at sameLines
  have lengths := congrArg List.length sameLines
  rw [List.length_map, List.length_map] at lengths
  exact unbroken_iff_length.mpr lengths

theorem Filters.settled (filters : Filters strings) :
    Settled strings.flatten := by
  obtain ⟨_, _, lines, accounts, _, isLog⟩ := filters fun _ => true
  rw [filtered_outfile, List.filter_true, List.filter_true,
    cutPieces_of_unbroken filters.unbroken] at isLog
  rw [← isLog] at accounts
  exact (accounts_cutLines_iff _).mp accounts

/-- The cuts change nothing and nothing is lost if and only if no piece ends
between a carriage return and the line feed of the line, and the text is
settled. -/
theorem filters_iff : Filters strings ↔ Unbroken strings ∧
    Settled strings.flatten := by
  constructor
  · intro filters
    exact ⟨filters.unbroken, filters.settled⟩
  · intro both writeline
    obtain ⟨unbroken, settled⟩ := both
    have same := cutPieces_of_unbroken unbroken
    rw [filtered_lines, filtered_lines, filtered_outfile, filtered_outfile,
      cutPieces_singleton, same]
    exact ⟨rfl, rfl, _, (accounts_cutLines_iff _).mpr settled, rfl, rfl⟩

/-- A carriage return and the text that overwrites what stands in front of it,
in two pieces. -/
theorem not_filters_return : ¬ Filters [['1', '\r'], ['2', '\n']] := by
  intro filters
  have unbroken := filters.unbroken [['1', '\r']] [['2', '\n']] rfl
  exact unbroken (by decide) (by decide)

end Filters

end Nvbmc.Progress
