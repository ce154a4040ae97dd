import Mathlib.Data.List.Infix
import Nvbmc.AsyncRpc.JsonText

/-!
# Messages on a line based stream

`StreamConnection` sends a message as one line, or, when it is too long for
one, as a header line, the pieces of its text on a line each and an empty line.
The stream is the text that was written and not read yet; a stream without a
complete line is at its end.

`json.loads` is a parameter.  `Reads` is what the receiver relies on: a message
is read back from its text, also when blanks between two tokens are missing,
and not when a blank of a string literal is.
-/

namespace Nvbmc.AsyncRpc

open Nvbmc.Library

/-- What `recv` and `recv_message` raise. -/
inductive RecvError where
  | connectionClosed
  | connectionError
  | lineTooLong
  | jsonDecodeError
  | typeError

def chunkStream : PyStr :=
  codes "chunk-stream"

def chunkHeader : Json :=
  .dict [(chunkStream, .null)]

def newline : Text := ['\n']

/-- `chunkify`. -/
def chunkify (message : Text) (maxChunk : ℕ) : List Text :=
  if message.length < maxChunk - 1 then [message ++ newline]
  else
    (dumps chunkHeader ++ newline) ::
      ((cut (maxChunk - 1) message).map (· ++ newline) ++ [newline])

/-- What `send_message` writes. -/
def sendMessage (maxChunk : ℕ) (message : Json) : Text :=
  (chunkify (dumps message) maxChunk).flatten

def sendMessages (maxChunk : ℕ) (messages : List Json) : Text :=
  messages.flatMap (sendMessage maxChunk)

/-- `StreamReader.readline`: the next line and what follows it. -/
def readline (limit : ℕ) (stream : Text) : Except RecvError (Text × Text) :=
  let line := stream.takeWhile (· ≠ '\n')
  if limit < line.length then .error .lineTooLong
  else
    match stream.dropWhile (· ≠ '\n') with
    | [] => .ok (line, [])
    | _ :: rest => .ok (line ++ newline, rest)

/-- `recv`, without its timeout. -/
def recv (limit : ℕ) (stream : Text) : Except RecvError (Text × Text) :=
  match readline limit stream with
  | .error error => .error error
  | .ok (line, rest) =>
      if line = [] then .error .connectionClosed
      else if line.getLast? = some '\n' then .ok (rstrip line, rest)
      else .error .connectionError

/-- `bool(m)`. -/
def Json.truthy : Json → Bool
  | .null => false
  | .bool value => value
  | .int value => value ≠ 0
  | .float value => !value.isZero
  | .str value => value ≠ []
  | .list items => !items.isEmpty
  | .dict items => !items.isEmpty

def Json.isChunkStream : Json → Bool
  | .str value => value = chunkStream
  | _ => false

/-- `"chunk-stream" in m`; `none` when `m` is no container. -/
def Json.hasChunkStream : Json → Option Bool
  | .str value => some (chunkStream <:+: value)
  | .list items => some (items.any Json.isChunkStream)
  | .dict items => some (items.any (·.1 = chunkStream))
  | _ => none

/-- The loop of `recv_message` over the lines of a long message.  Every line
takes at least one character of the stream. -/
def recvLines (limit : ℕ) : ℕ → Text → Except RecvError (List Text × Text)
  | 0, _ => .error .connectionClosed
  | fuel + 1, stream =>
      match recv limit stream with
      | .error error => .error error
      | .ok (line, rest) =>
          if line = [] then .ok ([], rest)
          else
            match recvLines limit fuel rest with
            | .error error => .error error
            | .ok (lines, rest) => .ok (line :: lines, rest)

section Receiver

variable (loads : Text → Option Json) (limit : ℕ)

def loadsText (text : Text) : Except RecvError Json :=
  match loads text with
  | none => .error .jsonDecodeError
  | some message => .ok message

/-- `recv_message` behind its header line. -/
def recvChunks (stream : Text) : Except RecvError (Json × Text) :=
  match recvLines limit (stream.length + 1) stream with
  | .error error => .error error
  | .ok (lines, rest) =>
      match loadsText loads lines.flatten with
      | .error error => .error error
      | .ok message => .ok (message, rest)

/-- `recv_message`. -/
def recvMessage (stream : Text) : Except RecvError (Json × Text) :=
  match recv limit stream with
  | .error error => .error error
  | .ok (line, rest) =>
      match loadsText loads line with
      | .error error => .error error
      | .ok message =>
          if message.truthy = false then .ok (message, rest)
          else
            match message.hasChunkStream with
            | none => .error .typeError
            | some false => .ok (message, rest)
            | some true => recvChunks loads limit rest

/-- `count` calls of `recv_message`, one after the other. -/
def recvMessages : ℕ → Text → Except RecvError (List Json × Text)
  | 0, stream => .ok ([], stream)
  | count + 1, stream =>
      match recvMessage loads limit stream with
      | .error error => .error error
      | .ok (message, rest) =>
          match recvMessages count rest with
          | .error error => .error error
          | .ok (messages, rest) => .ok (message :: messages, rest)

end Receiver

variable {limit : ℕ} (rest : Text)

theorem readline_line {line : Text}
    (oneLine : '\n' ∉ line) (short : line.length ≤ limit) :
    readline limit (line ++ newline ++ rest) = .ok (line ++ newline, rest) := by
  have within : ∀ char ∈ line, decide (char ≠ '\n') = true := by
    intro char member
    exact decide_eq_true fun same => oneLine (same ▸ member)
  have taken : (line ++ newline ++ rest).takeWhile (· ≠ '\n') = line := by
    rw [List.append_assoc, List.takeWhile_append_of_pos within]
    simp [newline]
  have dropped : (line ++ newline ++ rest).dropWhile (· ≠ '\n') =
      '\n' :: rest := by
    rw [List.append_assoc, List.dropWhile_append_of_pos within]
    simp [newline]
  simp only [readline, taken, dropped, if_neg (Nat.not_lt.mpr short)]

theorem isspace_of_mem_newline : ∀ char ∈ newline, isspace char := by
  intro char member
  rw [List.mem_singleton.mp member]
  decide

theorem recv_line {line : Text}
    (oneLine : '\n' ∉ line) (short : line.length ≤ limit) :
    recv limit (line ++ newline ++ rest) = .ok (rstrip line, rest) := by
  have nonempty : line ++ newline ≠ [] := by simp [newline]
  have complete : (line ++ newline).getLast? = some '\n' := by simp [newline]
  simp only [recv, readline_line rest oneLine short, if_neg nonempty,
    if_pos complete]
  rw [rstrip_append_blanks line newline isspace_of_mem_newline]

theorem recv_newline : recv limit (newline ++ rest) = .ok ([], rest) := by
  have received : recv limit ([] ++ newline ++ rest) = .ok (rstrip [], rest) :=
    recv_line rest (by simp) (by simp)
  exact received

theorem length_lt_of_readline {stream line rest : Text}
    (read : readline limit stream = .ok (line, rest)) (nonempty : line ≠ []) :
    rest.length < stream.length := by
  have whole := List.takeWhile_append_dropWhile (p := (· ≠ '\n')) (l := stream)
  have lengths := congrArg List.length whole
  rw [List.length_append] at lengths
  simp only [readline] at read
  split_ifs at read
  split at read
  · next ended =>
      cases read
      have positive := List.length_pos_iff.mpr nonempty
      simp only [List.length_nil]
      omega
  · next first after found =>
      cases read
      rw [found, List.length_cons] at lengths
      omega

theorem length_lt_of_recv {stream line rest : Text}
    (received : recv limit stream = .ok (line, rest)) :
    rest.length < stream.length := by
  simp only [recv] at received
  split at received
  · cases received
  · next read after found =>
      split_ifs at received with empty complete
      cases received
      exact length_lt_of_readline found empty

theorem length_lt_of_recvLines {limit fuel : ℕ} {stream rest : Text}
    {lines : List Text}
    (received : recvLines limit fuel stream = .ok (lines, rest)) :
    rest.length < stream.length := by
  induction fuel generalizing stream lines with
  | zero => cases received
  | succ fuel induction =>
      simp only [recvLines] at received
      split at received
      · cases received
      · next line after found =>
          have consumed := length_lt_of_recv found
          split_ifs at received with empty
          · cases received
            exact consumed
          · split at received
            · cases received
            · next later final others =>
                cases received
                exact (induction others).trans consumed

theorem length_lt_of_recvChunks {loads : Text → Option Json}
    {stream rest : Text} {message : Json}
    (received : recvChunks loads limit stream = .ok (message, rest)) :
    rest.length < stream.length := by
  simp only [recvChunks] at received
  split at received
  · cases received
  · next lines after found =>
      split at received
      · cases received
      · cases received
        exact length_lt_of_recvLines found

/-- The lines of a long message are received up to its empty line when every
piece has a character that is not blank. -/
theorem recvLines_pieces {limit fuel : ℕ} {pieces : List Text}
    (oneLine : ∀ piece ∈ pieces, '\n' ∉ piece)
    (short : ∀ piece ∈ pieces, piece.length ≤ limit)
    (unblank : ∀ piece ∈ pieces, rstrip piece ≠ [])
    (enough : pieces.length < fuel) :
    recvLines limit fuel
      ((pieces.map (· ++ newline)).flatten ++ newline ++ rest) =
        .ok (pieces.map rstrip, rest) := by
  induction pieces generalizing fuel with
  | nil =>
      obtain ⟨fuel, rfl⟩ := Nat.exists_eq_add_of_lt enough
      simp [recvLines, recv_newline]
  | cons piece pieces induction =>
      obtain ⟨fuel, rfl⟩ : ∃ before, fuel = before + 1 :=
        ⟨fuel - 1, by rw [List.length_cons] at enough; omega⟩
      have first := recv_line
        ((pieces.map (· ++ newline)).flatten ++ newline ++ rest)
        (oneLine piece (by simp)) (short piece (by simp))
      have later : recvLines limit fuel
          ((pieces.map (· ++ newline)).flatten ++ newline ++ rest) =
            .ok (pieces.map rstrip, rest) := by
        apply induction
        · exact fun other member => oneLine other (by simp [member])
        · exact fun other member => short other (by simp [member])
        · exact fun other member => unblank other (by simp [member])
        · rw [List.length_cons] at enough
          omega
      have split : ((piece :: pieces).map (· ++ newline)).flatten ++ newline ++
          rest = piece ++ newline ++
            ((pieces.map (· ++ newline)).flatten ++ newline ++ rest) := by
        simp [List.append_assoc]
      rw [split]
      simp only [recvLines, first, if_neg (unblank piece (by simp)), later,
        List.map_cons]

variable {pieces : List Text}

/-- A blank piece is taken for the empty line: the receiver stops before the
end of the message. -/
theorem recvLines_blank {limit fuel : ℕ} (rest : Text)
    (oneLine : ∀ piece ∈ pieces, '\n' ∉ piece)
    (short : ∀ piece ∈ pieces, piece.length ≤ limit)
    (blank : ∃ piece ∈ pieces, rstrip piece = []) {lines : List Text}
    {after : Text} (received : recvLines limit fuel
      ((pieces.map (· ++ newline)).flatten ++ newline ++ rest) =
        .ok (lines, after)) :
    rest.length < after.length := by
  induction pieces generalizing fuel lines with
  | nil => simp at blank
  | cons piece pieces induction =>
      cases fuel with
      | zero => cases received
      | succ fuel =>
      have first := recv_line
        ((pieces.map (· ++ newline)).flatten ++ newline ++ rest)
        (oneLine piece (by simp)) (short piece (by simp))
      have split : ((piece :: pieces).map (· ++ newline)).flatten ++ newline ++
          rest = piece ++ newline ++
            ((pieces.map (· ++ newline)).flatten ++ newline ++ rest) := by
        simp [List.append_assoc]
      rw [split] at received
      simp only [recvLines, first] at received
      split_ifs at received with stopped
      · cases received
        simp [newline]
        omega
      · split at received
        · cases received
        · next later final others =>
            cases received
            obtain ⟨witness, member, isBlank⟩ := blank
            rcases List.mem_cons.mp member with isFirst | isLater
            · exact absurd (isFirst ▸ isBlank) stopped
            · exact induction
                (fun other member => oneLine other (by simp [member]))
                (fun other member => short other (by simp [member]))
                ⟨witness, isLater, isBlank⟩ others

/-- `text` is `whole` without some of its blanks. -/
structure Thinned (whole text : Text) : Prop where
  sublist : text.Sublist whole
  unblank : text.filter (! isspace ·) = whole.filter (! isspace ·)

theorem Thinned.refl (text : Text) : Thinned text text := ⟨.refl text, by simp⟩

theorem Thinned.append {whole₁ whole₂ text₁ text₂ : Text}
    (left : Thinned whole₁ text₁) (right : Thinned whole₂ text₂) :
    Thinned (whole₁ ++ whole₂) (text₁ ++ text₂) where
  sublist := left.sublist.append right.sublist
  unblank := by
    rw [List.filter_append, List.filter_append, left.unblank, right.unblank]

theorem thinned_rstrip (text : Text) : Thinned text (rstrip text) := by
  obtain ⟨blanks, split, blank⟩ := rstrip_append text
  have none : blanks.filter (! isspace ·) = [] := by
    rw [List.filter_eq_nil_iff]
    intro char member
    simp [blank char member]
  constructor
  · have front := List.rdropWhile_prefix isspace text
    exact front.sublist
  · conv_rhs => rw [split, List.filter_append, none, List.append_nil]

theorem thinned_pieces (pieces : List Text) :
    Thinned pieces.flatten (pieces.map rstrip).flatten := by
  induction pieces with
  | nil => exact .refl []
  | cons piece pieces induction => exact (thinned_rstrip piece).append induction

variable {quoting : Quoting}

theorem scan_blanks {blanks : Text}
    (blank : ∀ char ∈ blanks, isspace char) (tidy : Tidy quoting blanks) :
    scan quoting blanks = quoting := by
  induction blanks with
  | nil => rfl
  | cons char blanks induction =>
      have isBlank := blank char (by simp)
      have stays := Quoting.next_of_isspace isBlank (tidy.1.2 isBlank)
      rw [scan_cons, stays]
      exact induction (fun other member => blank other (by simp [member]))
        (stays ▸ tidy.2)

theorem compact_blanks_outside {blanks : Text}
    (blank : ∀ char ∈ blanks, isspace char) : compact .outside blanks = [] := by
  induction blanks with
  | nil => rfl
  | cons char blanks induction =>
      rw [compact, if_pos ⟨rfl, blank char (by simp)⟩]
      exact induction fun other member => blank other (by simp [member])

theorem length_compact_inside {blanks : Text}
    (blank : ∀ char ∈ blanks, isspace char) (tidy : Tidy quoting blanks)
    (inside : quoting ≠ .outside) :
    (compact quoting blanks).length = blanks.length := by
  induction blanks with
  | nil => rfl
  | cons char blanks induction =>
      have isBlank := blank char (by simp)
      have stays := Quoting.next_of_isspace isBlank (tidy.1.2 isBlank)
      rw [compact, if_neg (fun dropped => inside dropped.1), stays,
        List.length_cons, List.length_cons]
      rw [induction (fun other member => blank other (by simp [member]))
        (stays ▸ tidy.2)]

theorem scan_rstrip {piece : Text}
    (tidy : Tidy quoting piece) : scan quoting (rstrip piece) =
      scan quoting piece := by
  obtain ⟨blanks, split, blank⟩ := rstrip_append piece
  rw [split] at tidy
  conv_rhs => rw [split, scan_append, scan_blanks blank tidy.right]

theorem compact_rstrip {piece : Text} (tidy : Tidy quoting piece) :
    ∃ lost, compact quoting piece = compact quoting (rstrip piece) ++ lost ∧
      (lost = [] ↔ (rstrip piece ≠ piece → scan quoting piece = .outside)) := by
  obtain ⟨blanks, split, blank⟩ := rstrip_append piece
  have behind : Tidy (scan quoting (rstrip piece)) blanks := by
    rw [split] at tidy
    exact tidy.right
  refine ⟨compact (scan quoting (rstrip piece)) blanks, ?_, ?_⟩
  · conv_lhs => rw [split, compact_append]
  · by_cases outside : scan quoting (rstrip piece) = .outside
    · have nothing := compact_blanks_outside blank
      simp [outside, nothing, ← scan_rstrip tidy]
    · have kept := length_compact_inside blank behind outside
      rw [← List.length_eq_zero_iff, kept, List.length_eq_zero_iff]
      rw [← scan_rstrip tidy]
      constructor
      · intro noBlanks changed
        rw [noBlanks, List.append_nil] at split
        exact absurd split.symm changed
      · intro unchanged
        have same : rstrip piece = piece := by
          by_contra changed
          exact outside (unchanged changed)
        rw [same] at split
        exact List.append_cancel_left (split.symm.trans (by simp))

theorem length_compact_stripped (tidy : Tidy quoting pieces.flatten) :
    (compact quoting (pieces.map rstrip).flatten).length ≤
      (compact quoting pieces.flatten).length := by
  induction pieces generalizing quoting with
  | nil => simp
  | cons piece pieces induction =>
      rw [List.flatten_cons] at tidy
      obtain ⟨lost, split, _⟩ := compact_rstrip tidy.left
      have later := induction tidy.right
      simp only [List.map_cons, List.flatten_cons, compact_append, split,
        scan_rstrip tidy.left, List.length_append]
      omega

/-- No piece ends with a blank of a string literal. -/
def KeepsBlanks : Quoting → List Text → Prop
  | _, [] => True
  | quoting, piece :: pieces =>
      (rstrip piece ≠ piece → scan quoting piece = .outside) ∧
        KeepsBlanks (scan quoting piece) pieces

instance instDecidableKeepsBlanks : (quoting : Quoting) →
    (pieces : List Text) → Decidable (KeepsBlanks quoting pieces)
  | _, [] => .isTrue trivial
  | quoting, piece :: pieces =>
      have := instDecidableKeepsBlanks (scan quoting piece) pieces
      inferInstanceAs (Decidable (
        (rstrip piece ≠ piece → scan quoting piece = .outside) ∧
          KeepsBlanks (scan quoting piece) pieces))

theorem compact_stripped_iff (tidy : Tidy quoting pieces.flatten) :
    compact quoting (pieces.map rstrip).flatten =
      compact quoting pieces.flatten ↔ KeepsBlanks quoting pieces := by
  induction pieces generalizing quoting with
  | nil => simp [KeepsBlanks]
  | cons piece pieces induction =>
      rw [List.flatten_cons] at tidy
      obtain ⟨lost, split, harmless⟩ := compact_rstrip tidy.left
      have shorter := length_compact_stripped tidy.right
      simp only [List.map_cons, List.flatten_cons, compact_append, split,
        scan_rstrip tidy.left, KeepsBlanks, List.append_assoc,
        List.append_cancel_left_eq, ← harmless, ← induction tidy.right]
      constructor
      · intro same
        have lengths := congrArg List.length same
        rw [List.length_append] at lengths
        have nothing : lost = [] := List.length_eq_zero_iff.mp (by omega)
        exact ⟨nothing, by rw [same, nothing, List.nil_append]⟩
      · rintro ⟨nothing, same⟩
        rw [nothing, same, List.nil_append]

/-- `json.loads` reads the message from its text as long as only blanks between
tokens are missing: those inside string literals belong to the message. -/
def Reads (loads : Text → Option Json) (message : Json) : Prop :=
  ∀ text, Thinned (dumps message) text →
    (loads text = some message ↔
      compact .outside text = compact .outside (dumps message))

theorem Reads.dumps {loads : Text → Option Json} {message : Json}
    (reads : Reads loads message) :
    loads (dumps message) = some message :=
  (reads _ (.refl _)).mpr rfl

def Json.ReadAsIs (message : Json) : Prop :=
  message.truthy = false ∨ message.hasChunkStream = some false

/-- The message survives its framing: on one line it is not taken for the
announcement of chunks; in pieces, no piece is blank and none ends with a blank
of a string literal. -/
def Framed (maxChunk : ℕ) (message : Json) : Prop :=
  if (dumps message).length < maxChunk - 1 then message.ReadAsIs
  else
    (∀ piece ∈ cut (maxChunk - 1) (dumps message), rstrip piece ≠ []) ∧
      KeepsBlanks .outside (cut (maxChunk - 1) (dumps message))

theorem newline_not_mem_dumps (message : Json) : '\n' ∉ dumps message := by
  intro member
  have printable := (token_dumps message).tidy.printable member
  exact absurd printable (by decide)

theorem rstrip_dumps (message : Json) :
    rstrip (dumps message) = dumps message := by
  obtain ⟨body, last, split, unblank⟩ := dumps_ends message
  apply rstrip_eq_self
  rw [split]
  simpa using unblank

section Framing

variable {loads : Text → Option Json} {limit maxChunk : ℕ}
  (headerFits : (dumps chunkHeader).length + 1 ≤ maxChunk)
  (limited : maxChunk ≤ limit)

include limited

variable {message : Json}

theorem recvMessage_line (reads : Reads loads message)
    (short : (dumps message).length < maxChunk - 1) (rest : Text) :
    recvMessage loads limit (sendMessage maxChunk message ++ rest) =
      .ok (message, rest) ↔ message.ReadAsIs := by
  have sent : sendMessage maxChunk message = dumps message ++ newline := by
    simp [sendMessage, chunkify, if_pos short]
  have received : recv limit (dumps message ++ newline ++ rest) =
      .ok (dumps message, rest) := by
    rw [recv_line rest (newline_not_mem_dumps message) (by omega), rstrip_dumps]
  simp only [sent, recvMessage, received, loadsText, reads.dumps]
  by_cases falsy : message.truthy = false
  · simp [falsy, Json.ReadAsIs]
  · simp only [Json.ReadAsIs, falsy]
    cases contains : message.hasChunkStream with
    | none => simp
    | some contained =>
        cases contained with
        | false => simp
        | true =>
            refine iff_of_false ?_ (by simp)
            intro chunks
            exact absurd (length_lt_of_recvChunks chunks) (lt_irrefl _)

omit limited in
theorem sendMessage_pieces (long : ¬ (dumps message).length < maxChunk - 1)
    (rest : Text) :
    sendMessage maxChunk message ++ rest = dumps chunkHeader ++ newline ++
      (((cut (maxChunk - 1) (dumps message)).map (· ++ newline)).flatten ++
        newline ++ rest) := by
  simp [sendMessage, chunkify, if_neg long]

omit limited in
theorem length_pieces_le (pieces : List Text) (rest : Text) :
    pieces.length ≤
      ((pieces.map (· ++ newline)).flatten ++ newline ++ rest).length := by
  induction pieces with
  | nil => simp
  | cons piece pieces induction =>
      simp only [List.map_cons, List.flatten_cons, List.length_append,
        List.length_cons] at induction ⊢
      have line : newline.length = 1 := rfl
      omega

include headerFits

theorem recvMessage_pieces (reads : Reads loads message)
    (readsHeader : Reads loads chunkHeader)
    (long : ¬ (dumps message).length < maxChunk - 1) (rest : Text) :
    recvMessage loads limit (sendMessage maxChunk message ++ rest) =
      .ok (message, rest) ↔
      (∀ piece ∈ cut (maxChunk - 1) (dumps message), rstrip piece ≠ []) ∧
        KeepsBlanks .outside (cut (maxChunk - 1) (dumps message)) := by
  have nonempty : 0 < (dumps chunkHeader).length := by decide
  have positive : 0 < maxChunk - 1 := by omega
  have whole := flatten_cut positive (dumps message)
  have tidy := (token_dumps message).tidy
  have oneLine : ∀ piece ∈ cut (maxChunk - 1) (dumps message),
      '\n' ∉ piece := fun piece member inside =>
    newline_not_mem_dumps message (mem_of_mem_cut positive member inside)
  have short : ∀ piece ∈ cut (maxChunk - 1) (dumps message),
      piece.length ≤ limit := by
    intro piece member
    have bounded := length_le_of_mem_cut positive member
    omega
  rw [sendMessage_pieces long]
  generalize cut (maxChunk - 1) (dumps message) = pieces at *
  have header : recv limit (dumps chunkHeader ++ newline ++
      ((pieces.map (· ++ newline)).flatten ++ newline ++ rest)) =
        .ok (dumps chunkHeader,
          (pieces.map (· ++ newline)).flatten ++ newline ++ rest) := by
    rw [recv_line _ (newline_not_mem_dumps chunkHeader) (by omega),
      rstrip_dumps]
  have truthy : chunkHeader.truthy = true := by decide
  have announces : chunkHeader.hasChunkStream = some true := by decide
  simp only [recvMessage, header, loadsText, readsHeader.dumps, truthy,
    announces, Bool.true_eq_false, if_false, recvChunks]
  by_cases unblank : ∀ piece ∈ pieces, rstrip piece ≠ []
  · have enough := Nat.lt_succ_of_le (length_pieces_le pieces rest)
    have thinned := thinned_pieces pieces
    rw [whole] at thinned
    rw [← whole] at tidy
    have same := reads _ thinned
    rw [← whole, compact_stripped_iff tidy] at same
    simp only [recvLines_pieces rest oneLine short unblank enough]
    rw [← same]
    constructor
    · intro received
      refine ⟨unblank, ?_⟩
      split at received
      · cases received
      · next found =>
          split at found
          · cases found
          · next loaded =>
              cases found
              cases received
              exact loaded
    · rintro ⟨_, loaded⟩
      simp [loaded]
  · refine iff_of_false ?_ fun framed => unblank framed.1
    intro received
    split at received
    · cases received
    · next lines after found =>
        split at received
        · cases received
        · cases received
          have blank : ∃ piece ∈ pieces, rstrip piece = [] := by
            simpa using unblank
          exact lt_irrefl _ (recvLines_blank rest oneLine short blank found)

theorem recvMessage_iff (reads : Reads loads message)
    (readsHeader : Reads loads chunkHeader) (rest : Text) :
    recvMessage loads limit (sendMessage maxChunk message ++ rest) =
      .ok (message, rest) ↔ Framed maxChunk message := by
  rw [Framed]
  split_ifs with short
  · exact recvMessage_line limited reads short rest
  · exact recvMessage_pieces headerFits limited reads readsHeader short rest

end Framing

/-- The successive calls of `recv_message` return the messages in order, and
each consumes what was sent for its message. -/
def DeliversExactly (loads : Text → Option Json) (limit maxChunk : ℕ)
    (messages : List Json) : Prop :=
  ∀ count ≤ messages.length,
    recvMessages loads limit count (sendMessages maxChunk messages) =
      .ok (messages.take count, sendMessages maxChunk (messages.drop count))

theorem delivers_exactly_iff {loads : Text → Option Json} {limit maxChunk : ℕ}
    (headerFits : (dumps chunkHeader).length + 1 ≤ maxChunk)
    (limited : maxChunk ≤ limit) {messages : List Json}
    (reads : ∀ message ∈ chunkHeader :: messages, Reads loads message) :
    DeliversExactly loads limit maxChunk messages ↔
      ∀ message ∈ messages, Framed maxChunk message := by
  have readsHeader := reads chunkHeader (by simp)
  induction messages with
  | nil =>
      simp [DeliversExactly, recvMessages]
  | cons message messages induction =>
      have readsFirst := reads message (by simp)
      have first := recvMessage_iff headerFits limited readsFirst readsHeader
        (sendMessages maxChunk messages)
      have later := induction fun other member => reads other (by
        rcases List.mem_cons.mp member with header | among
        · simp [header]
        · simp [among])
      have sent : sendMessages maxChunk (message :: messages) =
          sendMessage maxChunk message ++ sendMessages maxChunk messages := by
        simp [sendMessages]
      rw [List.forall_mem_cons, ← first]
      constructor
      · intro delivers
        have received : recvMessage loads limit
            (sendMessage maxChunk message ++ sendMessages maxChunk messages) =
              .ok (message, sendMessages maxChunk messages) := by
          have one := delivers 1 (by simp)
          rw [sent] at one
          simp only [recvMessages] at one
          split at one
          · cases one
          · next found =>
              obtain ⟨rfl, rfl⟩ : _ = message ∧
                _ = sendMessages maxChunk messages := by simpa using one
              exact found
        refine ⟨received, later.mp ?_⟩
        intro count bounded
        have more := delivers (count + 1) (by simpa using bounded)
        rw [sent] at more
        simp only [recvMessages, received] at more
        split at more
        · cases more
        · next found =>
            obtain ⟨rfl, rfl⟩ : _ = messages.take count ∧
              _ = sendMessages maxChunk (messages.drop count) := by
                simpa using more
            exact found
      · rintro ⟨received, framed⟩ count bounded
        cases count with
        | zero => simp [recvMessages]
        | succ count =>
            have others := later.mpr framed count (by simpa using bounded)
            simp [recvMessages, sent, received, others]

def readsOf (messages : List Json) (text : Text) : Option Json :=
  messages.find? fun message =>
    compact .outside text = compact .outside (dumps message)

theorem reads_readsOf {messages : List Json}
    (distinct : messages.Pairwise fun first second =>
      compact .outside (dumps first) ≠ compact .outside (dumps second))
    {message : Json} (member : message ∈ messages) :
    Reads (readsOf messages) message := by
  intro text _
  constructor
  · intro found
    simpa using List.find?_some found
  · intro same
    induction messages with
    | nil => simp at member
    | cons first messages induction =>
        obtain ⟨apart, distinct⟩ := List.pairwise_cons.mp distinct
        rcases List.mem_cons.mp member with isFirst | later
        · subst isFirst
          simp [readsOf, same]
        · have different := (apart message later).symm
          rw [← same] at different
          simpa [readsOf, different] using induction distinct later

/-- The pieces of this list end with the blank between two numbers. -/
def numbers : Json :=
  .list ([1, 2, 3, 4, 5, 6, 7, 8].map .int)

theorem delivers_exactly_numbers :
    DeliversExactly (readsOf [chunkHeader, numbers]) 65536 23 [numbers] :=
  (delivers_exactly_iff (by decide) (by decide) fun _ member =>
    reads_readsOf (by decide) member).mpr (by
      rw [List.forall_mem_singleton, Framed, if_neg (by decide)]
      exact ⟨by decide, by decide⟩)

/-- A dictionary whose value starts at the eighth character of its text. -/
def entry (value : String) : Json :=
  .dict [(codes "k", .str (codes value))]

/-- A blank at the end of the first piece is lost. -/
theorem not_delivers_exactly_entry :
    (∀ message ∈ [chunkHeader, entry "aaaaaaaaaaaaaa b"],
      Reads (readsOf [chunkHeader, entry "aaaaaaaaaaaaaa b",
        entry "aaaaaaaaaaaaaab"]) message) ∧
    (dumps chunkHeader).length + 1 ≤ 23 ∧
    recvMessage (readsOf [chunkHeader, entry "aaaaaaaaaaaaaa b",
      entry "aaaaaaaaaaaaaab"]) 65536
        (sendMessages 23 [entry "aaaaaaaaaaaaaa b"]) =
      .ok (entry "aaaaaaaaaaaaaab", []) ∧
    ¬ DeliversExactly (readsOf [chunkHeader, entry "aaaaaaaaaaaaaa b",
      entry "aaaaaaaaaaaaaab"]) 65536 23 [entry "aaaaaaaaaaaaaa b"] := by
  have received : recvMessage (readsOf [chunkHeader, entry "aaaaaaaaaaaaaa b",
      entry "aaaaaaaaaaaaaab"]) 65536
        (sendMessages 23 [entry "aaaaaaaaaaaaaa b"]) =
      .ok (entry "aaaaaaaaaaaaaab", []) := by
    rfl
  refine ⟨?_, by decide, received, ?_⟩
  · intro message member
    apply reads_readsOf (by decide)
    rcases List.mem_cons.mp member with header | only
    · simp [header]
    · simp [List.mem_singleton.mp only]
  · intro delivers
    have one := delivers 1 (by simp)
    simp only [recvMessages, received] at one
    have same : entry "aaaaaaaaaaaaaab" = entry "aaaaaaaaaaaaaa b" :=
      (by simpa using one : _ ∧ sendMessages 23 [] = []).1
    have texts := congrArg dumps same
    exact absurd texts (by decide)

end Nvbmc.AsyncRpc
