import Nvbmc.Library.Shell

/-!
# The answer of `mctp-vdm-util`

What `mctp_access` takes from the output of the tool: the last message pair in
it, and the data in the response after the request, which the response repeats
with another type byte.
-/

namespace Nvbmc.MctpVdm

open Nvbmc.Library

structure Byte where
  high : Char
  low : Char
  isHigh : isHexDigit high
  isLow : isHexDigit low
  deriving DecidableEq

/-- `00` -/
def Byte.zero : Byte where
  high := '0'
  low := '0'
  isHigh := by decide
  isLow := by decide

def Byte.value (byte : Byte) : ℕ :=
  16 * hexValue byte.high + hexValue byte.low

def bytesText : List Byte → Text
  | [] => []
  | byte :: bytes => ' ' :: byte.high :: byte.low :: bytesText bytes

def number (bytes : List Byte) : ℕ :=
  bytes.foldl (fun value byte => 256 * value + byte.value) 0

@[simp] theorem bytesText_append (first second : List Byte) :
    bytesText (first ++ second) = bytesText first ++ bytesText second := by
  induction first with
  | nil => rfl
  | cons byte first induction => simp [bytesText, induction]

theorem Byte.high_ne (byte : Byte) {other : Char}
    (notHex : isHexDigit other = false) : byte.high ≠ other :=
  isHexDigit_ne byte.isHigh notHex

theorem Byte.low_ne (byte : Byte) {other : Char}
    (notHex : isHexDigit other = false) : byte.low ≠ other :=
  isHexDigit_ne byte.isLow notHex

theorem Byte.ext_of_chars {first second : Byte}
    (high : first.high = second.high)
    (low : first.low = second.low) : first = second := by
  cases first
  cases second
  cases high
  cases low
  rfl

theorem mem_bytesText {bytes : List Byte} {char : Char}
    (member : char ∈ bytesText bytes) : char = ' ' ∨ isHexDigit char := by
  induction bytes with
  | nil => cases member
  | cons byte bytes induction =>
      simp only [bytesText, List.mem_cons] at member
      rcases member with isBlank | isHigh | isLow | later
      · exact .inl isBlank
      · exact .inr (isHigh ▸ byte.isHigh)
      · exact .inr (isLow ▸ byte.isLow)
      · exact induction later

theorem hexadecimal_append (value : ℕ) (bytes : List Byte) :
    ((bytesText bytes).filter (· ≠ ' ')).foldl
      (fun value digit => 16 * value + hexValue digit) value =
      bytes.foldl (fun value byte => 256 * value + byte.value) value := by
  induction bytes generalizing value with
  | nil => rfl
  | cons byte bytes induction =>
      have high : byte.high ≠ ' ' := byte.high_ne (by decide)
      have low : byte.low ≠ ' ' := byte.low_ne (by decide)
      have isValue : 16 * (16 * value + hexValue byte.high) +
          hexValue byte.low = 256 * value + byte.value := by
        rw [Byte.value]
        omega
      simp only [bytesText, ne_eq, not_true_eq_false, decide_false,
        Bool.false_eq_true,
        not_false_eq_true, List.filter_cons_of_neg, high, decide_true,
        List.filter_cons_of_pos,
        low, List.foldl_cons, isValue]
      exact induction _

/-- The bytes at the start of a text, as many as there are, and the rest. -/
def readBytes : Text → List Byte × Text
  | ' ' :: high :: low :: rest =>
      if isHex : isHexDigit high ∧ isHexDigit low then
        (⟨high, low, isHex.1, isHex.2⟩ :: (readBytes rest).1,
          (readBytes rest).2)
      else ([], ' ' :: high :: low :: rest)
  | text => ([], text)

/-- `TX:(([ ][0-9A-Fa-f]{2})+)\ RX:(([ ][0-9A-Fa-f]{2})+)` at the start of a
text. -/
def readPair : Text → Option (List Byte × List Byte)
  | 'T' :: 'X' :: ':' :: rest =>
      match readBytes rest with
      | (tx, ' ' :: 'R' :: 'X' :: ':' :: rest) =>
          let rx := (readBytes rest).1
          if tx ≠ [] ∧ rx ≠ [] then some (tx, rx) else none
      | _ => none
  | _ => none

/-- The two groups of `.*TX:(([ ][0-9A-Fa-f]{2})+)\ RX:(([ ][0-9A-Fa-f]{2})+)`:
the match begins at the start of the text and ends as late as it can. -/
def matchOutput : Text → Option (List Byte × List Byte)
  | [] => none
  | char :: rest =>
      match matchOutput rest with
      | some groups => some groups
      | none => readPair (char :: rest)

/-- A message pair in a text, with what comes before and after it. -/
structure Cut (text : Text) (tx rx : List Byte) (before after : Text) :
    Prop where
  tx_ne_nil : tx ≠ []
  rx_ne_nil : rx ≠ []
  split : text = before ++ ('T' :: 'X' :: ':' :: (bytesText tx ++
    (' ' :: 'R' :: 'X' :: ':' :: (bytesText rx ++ after))))

/-- The leftmost and longest match of the pattern has these groups. -/
def Matches (text : Text) (tx rx : List Byte) : Prop :=
  ∃ before after, Cut text tx rx before after ∧
    ∀ tx' rx' before' after', Cut text tx' rx' before' after' →
      after.length ≤ after'.length

section Reading

theorem readBytes_append (bytes : List Byte) (text : Text) :
    readBytes (bytesText bytes ++ text) =
      (bytes ++ (readBytes text).1, (readBytes text).2) := by
  induction bytes with
  | nil => rfl
  | cons byte bytes induction =>
      simp only [bytesText, List.cons_append, readBytes]
      rw [dif_pos ⟨byte.isHigh, byte.isLow⟩, induction]

theorem readBytes_split (text : Text) :
    text = bytesText (readBytes text).1 ++ (readBytes text).2 := by
  fun_induction readBytes text with
  | case1 high low rest isHex induction =>
      simpa [bytesText] using induction
  | case2 => rfl
  | case3 => rfl

theorem readBytes_rx (rest : Text) :
    readBytes (' ' :: 'R' :: 'X' :: ':' :: rest) =
      ([], ' ' :: 'R' :: 'X' :: ':' :: rest) := by
  rw [readBytes, dif_neg (by decide)]

theorem readPair_of_cut {text after : Text} {tx rx : List Byte}
    (cut : Cut text tx rx [] after) :
    ∃ more after', readPair text = some (tx, rx ++ more) ∧
      Cut text tx (rx ++ more) [] after' ∧
        after = bytesText more ++ after' := by
  obtain ⟨txNonempty, rxNonempty, split⟩ := cut
  refine ⟨(readBytes after).1, (readBytes after).2, ?_,
    ⟨txNonempty, by simp [rxNonempty], ?_⟩, readBytes_split after⟩
  · rw [split, List.nil_append, readPair, readBytes_append, readBytes_rx,
      List.append_nil]
    simp only [readBytes_append]
    rw [if_pos ⟨txNonempty, by simp [rxNonempty]⟩]
  · rw [bytesText_append, List.append_assoc, ← readBytes_split after]
    exact split

theorem cut_of_readPair {text : Text} {tx rx : List Byte}
    (isRead : readPair text = some (tx, rx)) :
    ∃ after, Cut text tx rx [] after := by
  rw [readPair.eq_def] at isRead
  split at isRead
  · rename_i rest
    split at isRead
    · rename_i txRead response isTx
      dsimp only at isRead
      split_ifs at isRead with nonempty
      cases isRead
      refine ⟨(readBytes response).2, nonempty.1, nonempty.2, ?_⟩
      have request := readBytes_split rest
      rw [isTx] at request
      rw [← readBytes_split response, ← request]
      rfl
    · cases isRead
  · cases isRead

end Reading

section Longest

variable {tx rx : List Byte}

/-- A message pair begins with the only `T` in it. -/
theorem Cut.after_of_drop {text after : Text} {char : Char}
    (cut : Cut (char :: text) tx rx [] after) :
    ∃ body : Text, text = body ++ after ∧ 'T' ∉ body := by
  obtain ⟨_, _, split⟩ := cut
  rw [List.nil_append] at split
  refine ⟨'X' :: ':' ::
    (bytesText tx ++ ' ' :: 'R' :: 'X' :: ':' :: bytesText rx), ?_, ?_⟩
  · simpa using (List.cons.inj split).2
  · have clean : ∀ bytes, 'T' ∉ bytesText bytes := by
      intro bytes member
      rcases mem_bytesText member with isBlank | isHex
      · exact absurd isBlank (by decide)
      · exact absurd isHex (by decide)
    simp [clean]

theorem Cut.cons {text before after : Text} (cut : Cut text tx rx before after)
    (char : Char) : Cut (char :: text) tx rx (char :: before) after :=
  ⟨cut.tx_ne_nil, cut.rx_ne_nil, by rw [cut.split, List.cons_append]⟩

theorem Cut.of_cons {text before after : Text} {char first : Char}
    (cut : Cut (char :: text) tx rx (first :: before) after) :
    Cut text tx rx before after :=
  ⟨cut.tx_ne_nil, cut.rx_ne_nil, (List.cons.inj cut.split).2⟩

theorem Cut.length_after_lt {text before after after' : Text} {char : Char}
    {tx rx tx' rx' : List Byte} (later : Cut text tx rx before after)
    (earlier : Cut (char :: text) tx' rx' [] after') :
    after.length < after'.length := by
  obtain ⟨body, split, clean⟩ := earlier.after_of_drop
  have same := split.symm.trans later.split
  rcases List.append_eq_append_iff.mp same with ⟨between, _, isAfter⟩ |
    ⟨between, isBody, isRest⟩
  · have lengths := congrArg List.length isAfter
    simp only [List.length_append, List.length_cons] at lengths
    omega
  · cases between with
    | nil =>
        rw [List.nil_append] at isRest
        have lengths := congrArg List.length isRest
        simp only [List.length_append, List.length_cons] at lengths
        omega
    | cons first between =>
        rw [List.cons_append] at isRest
        have isFirst := (List.cons.inj isRest).1
        apply absurd _ clean
        rw [isBody, ← isFirst]
        simp

theorem matchOutput_spec (text : Text) :
    match matchOutput text with
    | some (tx, rx) => Matches text tx rx
    | none => ∀ tx rx before after, ¬ Cut text tx rx before after := by
  induction text with
  | nil =>
      intro tx rx before after cut
      have split := congrArg List.length cut.split
      simp at split
  | cons char text induction =>
      rw [matchOutput]
      cases isLater : matchOutput text with
      | some groups =>
          rw [isLater] at induction
          obtain ⟨before, after, cut, latest⟩ := induction
          refine ⟨char :: before, after, cut.cons char, ?_⟩
          intro tx rx before' after' other
          cases before' with
          | nil => exact (cut.length_after_lt other).le
          | cons first before' => exact latest _ _ _ _ other.of_cons
      | none =>
          rw [isLater] at induction
          -- the only pairs are at the start of the text
          have atStart : ∀ {tx rx before after},
              Cut (char :: text) tx rx before after → before = [] := by
            intro tx rx before after cut
            cases before with
            | nil => rfl
            | cons first before => exact absurd cut.of_cons (induction _ _ _ _)
          cases isRead : readPair (char :: text) with
          | none =>
              intro tx rx before after cut
              cases atStart cut
              obtain ⟨more, _, isSome, _⟩ := readPair_of_cut cut
              rw [isRead] at isSome
              cases isSome
          | some groups =>
              obtain ⟨tx, rx⟩ := groups
              obtain ⟨after, cut⟩ := cut_of_readPair isRead
              obtain ⟨more, rest, isSome, longest, isAfter⟩ :=
                readPair_of_cut cut
              rw [isRead] at isSome
              have noMore : more = [] := by simpa using isSome
              refine ⟨[], after, cut, ?_⟩
              intro tx' rx' before' after' other
              cases atStart other
              obtain ⟨more', rest', isSome', longest', isAfter'⟩ :=
                readPair_of_cut other
              rw [isRead] at isSome'
              cases isSome'
              have sameRest := cut.split.symm.trans longest'.split
              simp only [List.nil_append, List.cons.injEq, true_and,
                List.append_cancel_left_eq] at sameRest
              rw [isAfter', sameRest, List.length_append]
              exact Nat.le_add_left _ _

theorem bytesText_injective {first second : List Byte}
    (same : bytesText first = bytesText second) : first = second := by
  have read := readBytes_append first []
  rw [same, readBytes_append second []] at read
  simpa [readBytes] using (congrArg Prod.fst read).symm

theorem Cut.unique {text before before' after after' : Text}
    {tx tx' rx rx' : List Byte} (cut : Cut text tx rx before after)
    (cut' : Cut text tx' rx' before' after')
    (sameEnd : after.length = after'.length) : tx = tx' ∧ rx = rx' := by
  induction text generalizing before before' with
  | nil =>
      have split := congrArg List.length cut.split
      simp at split
  | cons char text induction =>
      cases before with
      | nil =>
          cases before' with
          | nil =>
              obtain ⟨more, _, isRead, _⟩ := readPair_of_cut cut
              obtain ⟨more', _, isRead', _⟩ := readPair_of_cut cut'
              rw [isRead] at isRead'
              have sameTx : tx = tx' := by
                simp only [Option.some.injEq, Prod.mk.injEq] at isRead'
                exact isRead'.1
              have split := cut.split.symm.trans cut'.split
              simp only [List.nil_append, List.cons.injEq, true_and, sameTx,
                List.append_cancel_left_eq] at split
              exact ⟨sameTx,
                bytesText_injective (List.append_inj' split sameEnd).1⟩
          | cons first before' =>
              have shorter := cut'.of_cons.length_after_lt cut
              omega
      | cons first before =>
          cases before' with
          | nil =>
              have shorter := cut.of_cons.length_after_lt cut'
              omega
          | cons first' before' => exact induction cut.of_cons cut'.of_cons

theorem matches_iff {text : Text} :
    Matches text tx rx ↔ matchOutput text = some (tx, rx) := by
  have spec := matchOutput_spec text
  constructor
  · intro ⟨before, after, cut, latest⟩
    cases isMatch : matchOutput text with
    | none =>
        rw [isMatch] at spec
        exact absurd cut (spec _ _ _ _)
    | some groups =>
        rw [isMatch] at spec
        obtain ⟨before', after', cut', latest'⟩ := spec
        have sameEnd : after.length = after'.length :=
          le_antisymm (latest _ _ _ _ cut') (latest' _ _ _ _ cut)
        obtain ⟨sameTx, sameRx⟩ := cut.unique cut' sameEnd
        rw [sameTx, sameRx]
  · intro isMatch
    rw [isMatch] at spec
    exact spec

end Longest

/-- The data in the response, as a numeral without `0x`, unless the return code
is not `00`. -/
def responseData (output : Text) : Option Text :=
  let tx := bytesText ((matchOutput output).elim [] Prod.fst)
  let rx := bytesText ((matchOutput output).elim [] Prod.snd)
  let dataInfo :=
    removeStart (replaceFirst ['8', '0'] ['0', '0'] tx ++ [' ']) rx
  let retCode := dataInfo.takeWhile (· ≠ ' ')
  if retCode = ['0', '0'] then some ((afterFirst ' ' dataInfo).filter (· ≠ ' '))
  else none

def repeated : List Byte → List Byte
  | [] => []
  | byte :: bytes =>
      if byte.high = '8' ∧ byte.low = '0' then Byte.zero :: bytes
      else byte :: repeated bytes

/-- The output has a successful answer with these data: the response repeats the
request, and then come `00` and the data. -/
def Answers (output : Text) (data : List Byte) : Prop :=
  ∃ tx, Matches output tx (repeated tx ++ Byte.zero :: data)

section Data

theorem replaceFirst_bytesText (bytes : List Byte) :
    replaceFirst ['8', '0'] ['0', '0'] (bytesText bytes) =
      bytesText (repeated bytes) := by
  induction bytes with
  | nil => rfl
  | cons byte bytes induction =>
      have notLow : ¬ ['8', '0'] <+: byte.low :: bytesText bytes := by
        cases bytes with
        | nil => simp [bytesText, List.cons_prefix_cons]
        | cons next bytes => simp [bytesText, List.cons_prefix_cons]
      rw [bytesText, replaceFirst, if_neg (by simp [List.cons_prefix_cons]),
        replaceFirst, repeated]
      by_cases isType : byte.high = '8' ∧ byte.low = '0'
      · rw [if_pos (by simp [List.cons_prefix_cons, isType]), if_pos isType]
        rfl
      · have notHigh : ¬ ['8', '0'] <+: byte.high :: byte.low ::
            bytesText bytes := by
          intro isStart
          simp only [List.cons_prefix_cons, List.nil_prefix, and_true]
            at isStart
          exact isType ⟨isStart.1.symm, isStart.2.symm⟩
        rw [if_neg notHigh, replaceFirst, if_neg notLow, if_neg isType,
          induction, bytesText]

theorem bytesText_blank_isPrefix {start bytes : List Byte} :
    bytesText start ++ [' '] <+: bytesText bytes ↔ ∃ byte rest,
      bytes = start ++ byte :: rest := by
  induction start generalizing bytes with
  | nil =>
      cases bytes with
      | nil => simp [bytesText]
      | cons byte bytes => simp [bytesText, List.cons_prefix_cons]
  | cons first start induction =>
      cases bytes with
      | nil => simp [bytesText]
      | cons byte bytes =>
          simp only [bytesText, List.cons_append, List.cons_prefix_cons,
            true_and, induction, List.cons.injEq, exists_and_left]
          constructor
          · intro ⟨high, low, later⟩
            exact ⟨Byte.ext_of_chars high.symm low.symm, later⟩
          · intro ⟨same, later⟩
            cases same
            exact ⟨rfl, rfl, later⟩

variable (data : List Byte)

theorem dataInfo_of_more (start : List Byte) (byte : Byte) :
    removeStart (bytesText start ++ [' ']) (bytesText (start ++ byte :: data)) =
      byte.high :: byte.low :: bytesText data := by
  rw [removeStart, if_pos (bytesText_blank_isPrefix.mpr ⟨byte, data, rfl⟩),
    bytesText_append]
  have split : bytesText start ++ bytesText (byte :: data) =
      (bytesText start ++ [' ']) ++
        (byte.high :: byte.low :: bytesText data) := by
    simp [bytesText]
  rw [split, List.drop_left]

theorem retCode_eq (byte : Byte) :
    (byte.high :: byte.low :: bytesText data).takeWhile (· ≠ ' ') =
      [byte.high, byte.low] := by
  have high : byte.high ≠ ' ' := byte.high_ne (by decide)
  have low : byte.low ≠ ' ' := byte.low_ne (by decide)
  have none : (bytesText data).takeWhile (· ≠ ' ') = [] := by
    cases data with
    | nil => rfl
    | cons next data => simp [bytesText]
  rw [List.takeWhile_cons_of_pos (by simpa using high),
    List.takeWhile_cons_of_pos (by simpa using low), none]

theorem hexadecimal_data :
    hexadecimal ((afterFirst ' ' ('0' :: '0' :: bytesText data)).filter
      (· ≠ ' ')) = number data := by
  cases data with
  | nil => decide
  | cons byte data =>
      have isAfter : afterFirst ' ' ('0' :: '0' :: bytesText (byte :: data)) =
          byte.high :: byte.low :: bytesText data := by
        simp [afterFirst, bytesText]
      have noBlank : (bytesText (byte :: data)).filter (· ≠ ' ') =
          (byte.high :: byte.low :: bytesText data).filter (· ≠ ' ') := by
        simp [bytesText]
      rw [isAfter, hexadecimal, ← noBlank]
      exact hexadecimal_append 0 _

theorem responseData_of_match {output : Text} {tx rx : List Byte}
    (isMatch : matchOutput output = some (tx, rx)) :
    (∃ data digits, rx = repeated tx ++ Byte.zero :: data ∧
      responseData output = some digits ∧ hexadecimal digits = number data) ∨
    ((¬ ∃ data, rx = repeated tx ++ Byte.zero :: data) ∧
      responseData output = none) := by
  rw [responseData, isMatch]
  simp only [Option.elim_some, replaceFirst_bytesText]
  by_cases more : ∃ byte rest, rx = repeated tx ++ byte :: rest
  · obtain ⟨byte, data, isMore⟩ := more
    rw [isMore, dataInfo_of_more, retCode_eq]
    by_cases isZero : byte = Byte.zero
    · refine .inl ⟨data, _, by rw [isZero], if_pos (by rw [isZero]; rfl), ?_⟩
      rw [isZero]
      exact hexadecimal_data data
    · refine .inr ⟨?_, if_neg ?_⟩
      · intro ⟨other, same⟩
        exact isZero (List.cons.inj (List.append_cancel_left same)).1
      · intro same
        simp only [List.cons.injEq, and_true] at same
        exact isZero (Byte.ext_of_chars same.1 same.2)
  · refine .inr ⟨fun ⟨data, same⟩ => more ⟨_, _, same⟩, if_neg ?_⟩
    rw [removeStart,
      if_neg (fun isStart => more (bytesText_blank_isPrefix.mp isStart))]
    cases rx with
    | nil => decide
    | cons byte rx => simp [bytesText]

theorem responseData_spec (output : Text) :
    match responseData output with
    | some digits =>
        ∃ data, Answers output data ∧ hexadecimal digits = number data
    | none => ¬ ∃ data, Answers output data := by
  cases isMatch : matchOutput output with
  | none =>
      have nothing : responseData output = none := by
        rw [responseData, isMatch]
        decide
      rw [nothing]
      intro ⟨data, tx, matches'⟩
      rw [matches_iff, isMatch] at matches'
      cases matches'
  | some groups =>
      obtain ⟨tx, rx⟩ := groups
      rcases responseData_of_match isMatch with
        ⟨data, digits, isData, isDigits, isNumber⟩ | ⟨noData, nothing⟩
      · rw [isDigits]
        exact ⟨data, ⟨tx, matches_iff.mpr (isData ▸ isMatch)⟩, isNumber⟩
      · rw [nothing]
        intro ⟨data, other, matches'⟩
        rw [matches_iff, isMatch] at matches'
        cases matches'
        exact noData ⟨data, rfl⟩

theorem Answers.unique {output : Text} {first second : List Byte}
    (one : Answers output first)
    (other : Answers output second) : first = second := by
  obtain ⟨tx, isFirst⟩ := one
  obtain ⟨tx', isSecond⟩ := other
  rw [matches_iff] at isFirst isSecond
  rw [isFirst] at isSecond
  simp only [Option.some.injEq, Prod.mk.injEq] at isSecond
  obtain ⟨rfl, same⟩ := isSecond
  exact (List.cons.inj (List.append_cancel_left same)).2

end Data

end Nvbmc.MctpVdm
