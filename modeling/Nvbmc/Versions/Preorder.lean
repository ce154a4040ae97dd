import Nvbmc.Versions.Order

/-!
# Versions are totally preordered

`vercmp_string` compares by keys, so its sign is that of a total preorder.  A
text that is continued with a tilde sorts before itself, and behind itself with
anything else, unless zeros go behind a number that is zero: those numbers are
equal.
-/

namespace Nvbmc.Versions

open Library

/-- How the pieces of a text change when it is continued. -/
inductive Continued (more : Text) : List Piece → List Piece → Prop where
  | fresh {piece : Piece} {rest : List Piece} :
      (piece = .tilde ↔ ∃ tail, more = '~' :: tail) →
      Continued more [] (piece :: rest)
  | number {value : ℕ} {digit : Char} {run tail : Text} {rest : List Piece} :
      isDecimal digit → more = digit :: tail →
      Continued more [.number value] (.number (runValue value (digit :: run)) ::
        rest)
  | letters {text tail : Text} {letter : Char} {rest : List Piece} :
      letter.isAlpha → more = letter :: tail →
      Continued more [.letters text]
        (.letters (text ++ letter :: tail.takeWhile Char.isAlpha) :: rest)
  | cons {piece : Piece} {before after : List Piece} :
      Continued more before after →
      Continued more (piece :: before) (piece :: after)

theorem runValue_append (value : ℕ) (first second : Text) :
    runValue value (first ++ second) =
      runValue (runValue value first) second := by
  exact List.foldl_append

variable {more : Text}

theorem continued_nil (nonempty : more ≠ []) : Continued more (pieces [])
    (pieces more) := by
  have emptyPieces : pieces [] = [] := by rw [pieces]
  rw [emptyPieces]
  cases more with
  | nil => exact absurd rfl nonempty
  | cons char tail =>
      rw [pieces]
      split_ifs with digit letter tilde
      · apply Continued.fresh
        have different : char ≠ '~' := by
          rintro rfl
          exact absurd digit (by decide)
        simp [different]
      · apply Continued.fresh
        have different : char ≠ '~' := by
          rintro rfl
          exact absurd letter (by decide)
        simp [different]
      · exact Continued.fresh (by simp [tilde])
      · exact Continued.fresh (by simp [tilde])

section Run

variable {test : Char → Bool} {rest : Text}

theorem takeWhile_append_of_dropWhile {more : Text}
    (stops : rest.dropWhile test ≠ []) :
    (rest ++ more).takeWhile test = rest.takeWhile test ∧
      (rest ++ more).dropWhile test = rest.dropWhile test ++ more := by
  constructor
  · rw [List.takeWhile_append, if_neg]
    intro whole
    have split :=
      congrArg List.length (@List.takeWhile_append_dropWhile _ test rest)
    rw [List.length_append, whole] at split
    exact stops (List.length_eq_zero_iff.mp (by omega))
  · rw [List.dropWhile_append, if_neg (by simpa using stops)]

theorem append_of_dropWhile_nil {more : Text}
    (whole : rest.dropWhile test = []) :
    (rest ++ more).takeWhile test = rest ++ more.takeWhile test ∧
      (rest ++ more).dropWhile test = more.dropWhile test ∧
        rest.takeWhile test = rest := by
  have all := List.dropWhile_eq_nil_iff.mp whole
  refine ⟨List.takeWhile_append_of_pos all, List.dropWhile_append_of_pos all,
    ?_⟩
  exact List.takeWhile_eq_self_iff.mpr all

end Run

theorem continued_pieces (text : Text) (nonempty : more ≠ []) :
    Continued more (pieces text) (pieces (text ++ more)) := by
  induction text using pieces.induct with
  | case1 => exact continued_nil nonempty
  | case2 char rest digit induction =>
      rw [List.cons_append, pieces, pieces, if_pos digit, if_pos digit]
      by_cases whole : rest.dropWhile isDecimal = []
      · obtain ⟨taken, dropped, self⟩ :=
          @append_of_dropWhile_nil isDecimal rest more whole
        rw [taken, dropped, self, whole]
        obtain ⟨next, tail, rfl⟩ := List.exists_cons_of_ne_nil nonempty
        by_cases decimal : isDecimal next
        · rw [List.takeWhile_cons_of_pos decimal, ← List.cons_append,
            runValue_append]
          have emptyPieces : pieces [] = [] := by rw [pieces]
          rw [emptyPieces]
          exact .number decimal rfl
        · rw [List.takeWhile_cons_of_neg decimal,
            List.dropWhile_cons_of_neg decimal, List.append_nil]
          exact (continued_nil nonempty).cons
      · obtain ⟨taken, dropped⟩ :=
          @takeWhile_append_of_dropWhile isDecimal rest more whole
        rw [taken, dropped]
        exact induction.cons
  | case3 char rest notDigit letter induction =>
      rw [List.cons_append, pieces, pieces, if_neg notDigit, if_neg notDigit,
        if_pos letter, if_pos letter]
      by_cases whole : rest.dropWhile Char.isAlpha = []
      · obtain ⟨taken, dropped, self⟩ :=
          @append_of_dropWhile_nil Char.isAlpha rest more whole
        rw [taken, dropped, self, whole]
        obtain ⟨next, tail, rfl⟩ := List.exists_cons_of_ne_nil nonempty
        by_cases alpha : next.isAlpha
        · rw [List.takeWhile_cons_of_pos alpha, ← List.cons_append]
          have emptyPieces : pieces [] = [] := by rw [pieces]
          rw [emptyPieces]
          exact .letters alpha rfl
        · rw [List.takeWhile_cons_of_neg alpha,
            List.dropWhile_cons_of_neg alpha, List.append_nil]
          exact (continued_nil nonempty).cons
      · obtain ⟨taken, dropped⟩ :=
          @takeWhile_append_of_dropWhile Char.isAlpha rest more whole
        rw [taken, dropped]
        exact induction.cons
  | case4 char rest notDigit notLetter induction =>
      rw [List.cons_append, pieces, pieces, if_neg notDigit, if_neg notDigit,
        if_neg notLetter, if_neg notLetter]
      exact induction.cons

theorem vercmpPieces_cons (piece : Piece) (first second : List Piece) :
    vercmpPieces (piece :: first) (piece :: second) =
      vercmpPieces first second := by
  have irreflexive : piece.contentLt piece = false := by
    cases piece <;> simp [Piece.contentLt]
  rw [vercmpPieces]
  simp [irreflexive]

theorem le_runValue (value : ℕ) (run : Text) : value ≤ runValue value run := by
  induction run generalizing value with
  | nil => exact le_rfl
  | cons char run induction =>
      have step := induction (10 * value + (digit? char).getD 0)
      rw [runValue, List.foldl_cons]
      exact le_trans (by omega) step

theorem lt_runValue {value : ℕ} {digit : Char} {run : Text}
    (notZeros : ¬ (value = 0 ∧ digit? digit = some 0))
    (decimal : isDecimal digit) :
    value < runValue value (digit :: run) := by
  have step := le_runValue (10 * value + (digit? digit).getD 0) run
  obtain ⟨found, isFound⟩ := Option.isSome_iff_exists.mp decimal
  rw [runValue, List.foldl_cons]
  rw [runValue] at step
  refine lt_of_lt_of_le ?_ step
  rw [isFound] at notZeros ⊢
  simp only [Option.some.injEq, Option.getD_some] at notZeros ⊢
  omega

theorem vercmpPieces_tilde {tail : Text} {before after : List Piece}
    (continued : Continued ('~' :: tail) before after) :
    vercmpPieces after before = -1 := by
  induction continued with
  | fresh isTilde =>
      rw [isTilde.mpr ⟨tail, rfl⟩]
      rfl
  | number decimal same =>
      cases same
      exact absurd decimal (by decide)
  | letters alpha same =>
      cases same
      exact absurd alpha (by decide)
  | cons _ induction => rw [vercmpPieces_cons, induction]

theorem vercmpPieces_continued {before after : List Piece}
    (continued : Continued more before after)
    (noTilde : ¬ ∃ tail, more = '~' :: tail)
    (notZeros : ∀ digit tail init, more = digit :: tail →
      before = init ++ [.number 0] →
      digit? digit ≠ some 0) : vercmpPieces after before = 1 := by
  induction continued with
  | @fresh piece rest isTilde =>
      have order : ¬ piece.order < 0 := by
        cases piece with
        | tilde => exact absurd (isTilde.mp rfl) noTilde
        | number value => simp [Piece.order]
        | letters text => simp [Piece.order]
        | other char => simp [Piece.order]
      rw [vercmpPieces, if_neg order]
      split_ifs <;> rfl
  | @number value digit run tail rest decimal same =>
      have greater : value < runValue value (digit :: run) := by
        apply lt_runValue _ decimal
        rintro ⟨rfl, zero⟩
        exact notZeros digit tail [] same rfl zero
      have notLess : ¬ runValue value (digit :: run) < value := by omega
      simp [vercmpPieces, Piece.order, Piece.contentLt, greater, notLess]
  | @letters text tail letter rest alpha same =>
      have greater : text < text ++ letter :: tail.takeWhile Char.isAlpha := by
        have extended : text ++ [] < text ++ letter ::
            tail.takeWhile Char.isAlpha :=
          List.append_left_lt (List.nil_lt_cons letter _)
        simpa using extended
      simp [vercmpPieces, Piece.order, Piece.contentLt, greater, greater.not_gt]
  | @cons piece before after _ induction =>
      rw [vercmpPieces_cons]
      apply induction
      intro digit tail init same isBefore
      exact notZeros digit tail (piece :: init) same
        (by rw [isBefore, List.cons_append])

structure ValidVersion (text : Text) : Prop where
  noNewline : '\n' ∉ text
  epoch : ∀ parts ∈ splitOnce ':' (strip text), (int? parts.1).isSome

theorem not_mem_strip {char : Char} {text : Text} (absent : char ∉ text) :
    char ∉ strip text := by
  intro member
  have prefixOf := List.rdropWhile_prefix isStripped (text.dropWhile isStripped)
  exact absent
    ((List.dropWhile_sublist isStripped).mem (prefixOf.sublist.mem member))

theorem splitRevision_plain {pe : ℤ} {text : Text} (noNewline : '\n' ∉ text) :
    (splitRevision pe text).Plain := by
  rw [splitRevision]
  cases found : rsplitOnce '-' text with
  | none => exact ⟨noNewline, by simp⟩
  | some parts =>
      obtain ⟨pv, pr⟩ := parts
      obtain ⟨split, _⟩ := rsplitOnce_eq_some.mp found
      constructor
      · intro member
        exact noNewline (by simp [split, show '\n' ∈ pv from member])
      · intro member
        exact noNewline (by simp [split, show '\n' ∈ pr from member])

theorem ValidVersion.split {text : Text} (valid : ValidVersion text) :
    ∃ version, splitVersion text = some version ∧ version.Plain := by
  have noNewline := not_mem_strip valid.noNewline
  rw [splitVersion]
  cases found : splitOnce ':' (strip text) with
  | none => exact ⟨_, rfl, splitRevision_plain noNewline⟩
  | some parts =>
      obtain ⟨epoch, rest⟩ := parts
      obtain ⟨split, _⟩ := splitOnce_eq_some.mp found
      obtain ⟨pe, isNumber⟩ :=
        Option.isSome_iff_exists.mp (valid.epoch (epoch, rest) found)
      refine ⟨splitRevision pe
        (rest.takeWhile (· ≠ ':')), by simp [isNumber], ?_⟩
      apply splitRevision_plain
      intro member
      have inRest : '\n' ∈ rest := (List.takeWhile_prefix _).sublist.mem member
      exact noNewline (by simp [split, inRest])

/-- Valid versions are compared by keys. -/
theorem vercmpString_agrees {first second : Text}
    (validFirst : ValidVersion first) (validSecond : ValidVersion second) :
    ∃ firstVersion secondVersion result,
      splitVersion first = some firstVersion ∧
        splitVersion second = some secondVersion ∧
      vercmpString first second = some result ∧
      Agrees result firstVersion.key secondVersion.key := by
  obtain ⟨firstVersion, isFirst, plainFirst⟩ := validFirst.split
  obtain ⟨secondVersion, isSecond, plainSecond⟩ := validSecond.split
  obtain ⟨result, compared, agrees⟩ := vercmp_agrees plainFirst plainSecond
  refine ⟨firstVersion, secondVersion, result, isFirst, isSecond, ?_, agrees⟩
  rw [vercmpString, isFirst, isSecond]
  exact compared

theorem vercmpString_agrees_candidate :
    ∃ firstVersion secondVersion result,
      splitVersion "1.0~rc1".toList = some firstVersion ∧
      splitVersion "1.0".toList = some secondVersion ∧
      vercmpString "1.0~rc1".toList "1.0".toList = some result ∧
      Agrees result firstVersion.key secondVersion.key :=
  vercmpString_agrees ⟨by decide, by decide⟩ ⟨by decide, by decide⟩

/-- What stands behind the last colon or dash: the revision, or the version
without one. -/
def finalPart (text : Text) : Text :=
  (strip text).rtakeWhile fun char => char ≠ ':' ∧ char ≠ '-'

theorem rtakeWhile_append {test : Char → Bool} {separator : Char}
    {front part : Text}
    (stops : ¬ test separator) (all : ∀ char ∈ part, test char) :
    (front ++ separator :: part).rtakeWhile test = part := by
  rw [List.rtakeWhile, List.reverse_append, List.reverse_cons,
    List.append_assoc, List.takeWhile_append_of_pos (by simpa using all)]
  simp [stops]

theorem rtakeWhile_self {test : Char → Bool} {part : Text}
    (all : ∀ char ∈ part, test char) : part.rtakeWhile test = part := by
  exact List.rtakeWhile_eq_self_iff.mpr all

theorem splitRevision_append (pe : ℤ) (text : Text) (noDash : '-' ∉ more) :
    ('-' ∉ text ∧ splitRevision pe text = ⟨pe, text, []⟩ ∧
      splitRevision pe (text ++ more) = ⟨pe, text ++ more, []⟩) ∨
    ∃ pv pr, text = pv ++ '-' :: pr ∧ '-' ∉ pr ∧
      splitRevision pe text = ⟨pe, pv, pr⟩ ∧
      splitRevision pe (text ++ more) = ⟨pe, pv, pr ++ more⟩ := by
  rw [splitRevision, splitRevision]
  cases found : rsplitOnce '-' text with
  | none =>
      have absent : '-' ∉ text := by
        intro member
        rw [← rsplitOnce_isSome, found] at member
        cases member
      have absentLater : rsplitOnce '-' (text ++ more) = none := by
        rw [← Option.not_isSome_iff_eq_none, rsplitOnce_isSome]
        simp [absent, noDash]
      rw [absentLater]
      exact .inl ⟨absent, rfl, rfl⟩
  | some parts =>
      obtain ⟨pv, pr⟩ := parts
      obtain ⟨split, absent⟩ := rsplitOnce_eq_some.mp found
      have later : rsplitOnce '-' (text ++ more) = some (pv, pr ++ more) := by
        rw [rsplitOnce_eq_some]
        exact ⟨by simp [split], by simp [absent, noDash]⟩
      rw [later]
      exact .inr ⟨pv, pr, split, absent, rfl, rfl⟩

/-- A continuation of the kind of `text` extends its last part. -/
structure Continues (text more : Text) : Prop where
  joined : strip (text ++ more) = strip text ++ more
  oneColon : (strip text).count ':' ≤ 1
  noNewline : '\n' ∉ more
  noColon : ':' ∉ more
  noDash : '-' ∉ more

theorem splitVersion_append {text more : Text} {version : Version}
    (continues : Continues text more)
    (split : splitVersion text = some version) :
    (version.pv = finalPart text ∧
      splitVersion (text ++ more) = some { version with
        pv := version.pv ++ more }) ∨
    (version.pr = finalPart text ∧
      splitVersion (text ++ more) = some { version with
        pr := version.pr ++ more }) := by
  have isPart : ∀ part : Text, ':' ∉ part → '-' ∉ part →
      ∀ char ∈ part, decide (char ≠ ':' ∧ char ≠ '-') = true := by
    intro part noColon noDash char member
    have notColon : char ≠ ':' := fun same => noColon (same ▸ member)
    have notDash : char ≠ '-' := fun same => noDash (same ▸ member)
    simp [notColon, notDash]
  rw [splitVersion] at split ⊢
  rw [continues.joined, finalPart]
  cases found : splitOnce ':' (strip text) with
  | none =>
      have absent : ':' ∉ strip text := by
        intro member
        rw [← splitOnce_isSome, found] at member
        cases member
      have absentLater : splitOnce ':' (strip text ++ more) = none := by
        rw [← Option.not_isSome_iff_eq_none, splitOnce_isSome]
        simp [absent, continues.noColon]
      rw [found] at split
      cases split
      rw [absentLater]
      rcases splitRevision_append 0 (strip text) continues.noDash with
        ⟨noDash, before, after⟩ | ⟨pv, pr, whole, noDash, before, after⟩
      · left
        rw [before, after, rtakeWhile_self (isPart _ absent noDash)]
        exact ⟨rfl, rfl⟩
      · right
        have noColon : ':' ∉ pr :=
          fun member => absent (by simp [whole, member])
        rw [before, after, whole,
          rtakeWhile_append (by decide) (isPart _ noColon noDash)]
        exact ⟨rfl, rfl⟩
  | some parts =>
      obtain ⟨epoch, rest⟩ := parts
      obtain ⟨whole, noColonEpoch⟩ := splitOnce_eq_some.mp found
      have noColon : ':' ∉ rest := by
        have atMost := continues.oneColon
        rw [whole, List.count_append, List.count_cons_self] at atMost
        exact List.count_eq_zero.mp (by omega)
      have later : splitOnce ':' (strip text ++ more) =
          some (epoch, rest ++ more) := by
        rw [splitOnce_eq_some]
        exact ⟨by simp [whole], noColonEpoch⟩
      have self : ∀ part : Text, ':' ∉ part →
          part.takeWhile (· ≠ ':') = part := by
        intro part absent
        rw [List.takeWhile_eq_self_iff]
        intro char member
        have different : char ≠ ':' := fun same => absent (same ▸ member)
        simpa using different
      rw [found] at split
      rw [later]
      simp only [Option.bind_eq_bind, Option.bind_eq_some_iff, Option.pure_def,
        Option.some.injEq] at split
      obtain ⟨pe, isNumber, rfl⟩ := split
      simp only [isNumber, Option.bind_eq_bind, Option.bind_some,
        Option.pure_def]
      rw [self rest noColon,
        self (rest ++ more) (by simp [noColon, continues.noColon])]
      rcases splitRevision_append pe rest continues.noDash with
        ⟨noDash, before, after⟩ | ⟨pv, pr, split, noDash, before, after⟩
      · left
        rw [before, after, whole,
          rtakeWhile_append (by decide) (isPart _ noColon noDash)]
        exact ⟨rfl, rfl⟩
      · right
        have noColonPart : ':' ∉ pr :=
          fun member => noColon (by simp [split, member])
        rw [before, after, whole,
          split, ← List.cons_append, ← List.append_assoc,
          rtakeWhile_append (by decide) (isPart _ noColonPart noDash)]
        exact ⟨rfl, rfl⟩

def EndsInZero (text : Text) : Prop :=
  ∃ init, explodeVersion text = some (init ++ [.number 0])

def StartsWithZero (text : Text) : Prop :=
  ∃ digit tail, text = digit :: tail ∧ digit? digit = some 0

theorem vercmpPart_append {part more : Text} (noNewline : '\n' ∉ part)
    (noNewlineMore : '\n' ∉ more) (nonempty : more ≠ []) :
    ((∃ tail, more = '~' :: tail) →
      vercmpPart (part ++ more) part = some (-1)) ∧
    ((¬ ∃ tail, more = '~' :: tail) →
      ¬ (EndsInZero part ∧ StartsWithZero more) →
      vercmpPart (part ++ more) part = some 1) := by
  have continued := continued_pieces part nonempty
  have absent : '\n' ∉ part ++ more := by simp [noNewline, noNewlineMore]
  rw [vercmpPart_eq absent noNewline]
  constructor
  · rintro ⟨tail, rfl⟩
    rw [vercmpPieces_tilde continued]
  · intro noTilde notZeros
    rw [vercmpPieces_continued continued noTilde]
    intro digit tail init same isPieces zero
    apply notZeros
    exact ⟨⟨init, by rw [explodeVersion_eq noNewline, isPieces]⟩, digit, tail,
      same, zero⟩

theorem vercmpPart_self {part : Text} (noNewline : '\n' ∉ part) :
    vercmpPart part part = some 0 := by
  rw [vercmpPart_eq noNewline noNewline,
    (vercmpPieces_agrees (pieces part) (pieces part)).eq_zero_iff.mpr rfl]

theorem vercmp_of_extended {version : Version} (plain : version.Plain)
    {result : ℤ} (nonzero : result ≠ 0) :
    (vercmpPart (version.pv ++ more) version.pv = some result →
      vercmp { version with pv := version.pv ++ more } version = some result) ∧
    (vercmpPart (version.pr ++ more) version.pr = some result →
      vercmp { version with pr := version.pr ++ more } version =
        some result) := by
  constructor
  · intro compared
    simp [vercmp, compared, nonzero]
  · intro compared
    simp [vercmp, compared, vercmpPart_self plain.1]

theorem vercmpString_append {text more : Text} (valid : ValidVersion text)
    (continues : Continues text more) (nonempty : more ≠ []) :
    ((∃ tail, more = '~' :: tail) →
      vercmpString (text ++ more) text = some (-1)) ∧
    ((¬ ∃ tail, more = '~' :: tail) →
      ¬ (EndsInZero (finalPart text) ∧ StartsWithZero more) →
      vercmpString (text ++ more) text = some 1) := by
  obtain ⟨version, split, plain⟩ := valid.split
  rw [vercmpString, split]
  rcases splitVersion_append continues split with ⟨isFinal, extended⟩ |
    ⟨isFinal, extended⟩
  · rw [extended, ← isFinal]
    have compared := vercmpPart_append plain.1 continues.noNewline nonempty
    constructor
    · intro tilde
      exact (vercmp_of_extended plain (by decide)).1 (compared.1 tilde)
    · intro noTilde notZeros
      exact (vercmp_of_extended plain (by decide)).1
        (compared.2 noTilde notZeros)
  · rw [extended, ← isFinal]
    have compared := vercmpPart_append plain.2 continues.noNewline nonempty
    constructor
    · intro tilde
      exact (vercmp_of_extended plain (by decide)).2 (compared.1 tilde)
    · intro noTilde notZeros
      exact (vercmp_of_extended plain (by decide)).2
        (compared.2 noTilde notZeros)

/-- `vercmp_string` returns for valid versions; it is reflexive, its sign is
antisymmetric and transitive, and a continued version stands on the side that
the tilde decides. -/
theorem vercmpString_total_preorder {first second third : Text}
    (validFirst : ValidVersion first) (validSecond : ValidVersion second)
    (validThird : ValidVersion third) :
    vercmpString first first = some 0 ∧
    (∃ forth back, vercmpString first second = some forth ∧
      vercmpString second first = some back ∧ forth.sign = -back.sign) ∧
    (∃ near far across, vercmpString first second = some near ∧
      vercmpString second third = some far ∧
        vercmpString first third = some across ∧
      (near ≤ 0 → far ≤ 0 → across ≤ 0 ∧ (across = 0 → near = 0 ∧ far = 0)) ∧
      (near = 0 → across.sign = far.sign) ∧
        (far = 0 → across.sign = near.sign)) ∧
    ∀ more, Continues first more → more ≠ [] →
      ((∃ tail, more = '~' :: tail) →
        vercmpString (first ++ more) first = some (-1)) ∧
      ((¬ ∃ tail, more = '~' :: tail) →
        ¬ (EndsInZero (finalPart first) ∧ StartsWithZero more) →
        vercmpString (first ++ more) first = some 1) := by
  obtain ⟨one, isOne, plainOne⟩ := validFirst.split
  obtain ⟨two, isTwo, plainTwo⟩ := validSecond.split
  obtain ⟨three, isThree, plainThree⟩ := validThird.split
  have compared : ∀ {left right : Text} {leftVersion rightVersion : Version},
      splitVersion left = some leftVersion →
        splitVersion right = some rightVersion →
      vercmpString left right = vercmp leftVersion rightVersion := by
    intro left right leftVersion rightVersion isLeft isRight
    rw [vercmpString, isLeft, isRight]
    rfl
  obtain ⟨self, ranSelf, agreesSelf⟩ := vercmp_agrees plainOne plainOne
  obtain ⟨near, ranNear, agreesNear⟩ := vercmp_agrees plainOne plainTwo
  obtain ⟨back, ranBack, agreesBack⟩ := vercmp_agrees plainTwo plainOne
  obtain ⟨far, ranFar, agreesFar⟩ := vercmp_agrees plainTwo plainThree
  obtain ⟨across, ranAcross, agreesAcross⟩ := vercmp_agrees plainOne plainThree
  refine ⟨?_, ⟨near, back, ?_, ?_, ?_⟩,
    ⟨near, far, across, ?_, ?_, ?_, ?_, ?_, ?_⟩, ?_⟩
  · rw [compared isOne isOne, ranSelf, agreesSelf.eq_zero_iff.mpr rfl]
  · rw [compared isOne isTwo, ranNear]
  · rw [compared isTwo isOne, ranBack]
  · exact agreesNear.sign_eq_neg agreesBack
  · rw [compared isOne isTwo, ranNear]
  · rw [compared isTwo isThree, ranFar]
  · rw [compared isOne isThree, ranAcross]
  · rw [agreesNear.nonpos_iff, agreesFar.nonpos_iff, agreesAcross.nonpos_iff,
      agreesAcross.eq_zero_iff, agreesNear.eq_zero_iff, agreesFar.eq_zero_iff]
    intro nearLe farLe
    refine ⟨nearLe.trans farLe, ?_⟩
    intro same
    have sameNear : one.key = two.key := le_antisymm nearLe (same ▸ farLe)
    exact ⟨sameNear, sameNear ▸ same⟩
  · intro zero
    rw [agreesNear.eq_zero_iff] at zero
    rw [zero] at agreesAcross
    exact agreesAcross.sign_eq agreesFar
  · intro zero
    rw [agreesFar.eq_zero_iff] at zero
    rw [← zero] at agreesAcross
    exact agreesAcross.sign_eq agreesNear
  · intro more continues nonempty
    exact vercmpString_append validFirst continues nonempty

theorem total_preorder_release :
    (∃ forth back, vercmpString "1.0~rc1".toList "1.0".toList = some forth ∧
      vercmpString "1.0".toList "1.0~rc1".toList = some back ∧
        forth.sign = -back.sign) ∧
    vercmpString ("1.0~rc1".toList ++ ".2".toList) "1.0~rc1".toList =
      some 1 := by
  have preorder :=
    @vercmpString_total_preorder "1.0~rc1".toList "1.0".toList "2:1-r0".toList
    ⟨by decide, by decide⟩ ⟨by decide, by decide⟩ ⟨by decide, by decide⟩
  refine ⟨preorder.2.1, ?_⟩
  have continued := preorder.2.2.2 ".2".toList
    ⟨by decide, by decide, by decide, by decide, by decide⟩ (by decide)
  apply continued.2
  · rintro ⟨tail, same⟩
    have heads := congrArg List.head? same
    rw [List.head?_cons] at heads
    exact absurd heads (by decide)
  · rintro ⟨_, digit, tail, same, zero⟩
    cases same
    exact absurd zero (by decide)

/-- Zeros behind a zero do not count, and a dash in what goes behind a tilde
begins another revision. -/
theorem not_behind_continuations :
    vercmpString ("1.0".toList ++ "0".toList) "1.0".toList = some 0 ∧
      vercmpString ("1-2".toList ++ "~a-3".toList) "1-2".toList = some 1 := by
  decide

end Nvbmc.Versions
