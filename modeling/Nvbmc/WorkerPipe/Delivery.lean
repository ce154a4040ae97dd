import Nvbmc.WorkerPipe.Read

/-!
# What a worker pipe delivers

The bytes of a list of frames may be read in any pieces.  Events are always
found; the search for the end of an exit code stops at the first end tag, which
may stand in the pickle.
-/

namespace Nvbmc.WorkerPipe

open Nvbmc.Library

inductive Frame (α : Type) where
  | event (object : α)
  | exitcode (object : α)

section Frames

variable {α : Type} (objects : Objects α)

def Frame.encode : Frame α → Bytes
  | .event object => eventStart ++ (objects.dumps object ++ eventEnd)
  | .exitcode object => exitcodeStart ++ (objects.dumps object ++ exitcodeEnd)

theorem Frame.encode_length_pos (frame : Frame α) :
    0 < (frame.encode objects).length := by
  have event : 0 < eventStart.length := by decide
  have exitcode : 0 < exitcodeStart.length := by decide
  cases frame <;> simp only [Frame.encode, List.length_append] <;> omega

def encodeAll (frames : List (Frame α)) : Bytes :=
  frames.flatMap (Frame.encode objects)

/-- What the run queue is to be handed for a frame. -/
def Pipe.delivery (pipe : Pipe α) : Frame α → Option (Delivery α)
  | .event object => some (.event object)
  | .exitcode object =>
      (objects.unpack object).bind fun (task, status) =>
        (splitTidMcfn task).map fun tid =>
          .exitcode task status (pipe.fakerootlog tid.mcfn)

def Frame.uniHashUpdate : Frame α → Option (Text × Text)
  | .event object => objects.uniHashUpdate object
  | .exitcode _ => none

/-- An exit code is unpickled up to its own end tag and names a task. -/
def Frame.Sound : Frame α → Prop
  | .event _ => True
  | .exitcode object =>
      ¬ exitcodeEnd <:+: objects.dumps object ∧
        ∃ task status, objects.unpack object = some (task, status) ∧
          (splitTidMcfn task).isSome

/-- The pipe has cut sound frames off its queue. -/
structure Cuts (done : List (Frame α)) (before after : Pipe α) : Prop where
  sound : ∀ frame ∈ done, frame.Sound objects
  queue : before.queue = encodeAll objects done ++ after.queue
  logs : after.fakerootlogs = before.fakerootlogs
  delivered : after.delivered.map some =
    before.delivered.map some ++ done.map (before.delivery objects)
  updated : after.updatedTaskhashQueue =
    before.updatedTaskhashQueue ++ done.filterMap (Frame.uniHashUpdate objects)

end Frames

namespace Cuts

variable {α : Type} {objects : Objects α} {done later : List (Frame α)}
  {before middle after : Pipe α}

theorem refl (pipe : Pipe α) : Cuts objects [] pipe pipe := by
  constructor <;> simp [encodeAll]

theorem trans (first : Cuts objects done before middle)
    (second : Cuts objects later middle after) :
    Cuts objects (done ++ later) before after := by
  have deliveries : middle.delivery objects = before.delivery objects := by
    funext frame
    cases frame with
    | event => rfl
    | exitcode => simp only [Pipe.delivery, Pipe.fakerootlog, first.logs]
  constructor
  · intro frame member
    rcases List.mem_append.mp member with member | member
    · exact first.sound frame member
    · exact second.sound frame member
  · rw [first.queue, second.queue, encodeAll, encodeAll, encodeAll,
      List.flatMap_append, List.append_assoc]
  · exact second.logs.trans first.logs
  · rw [second.delivered, first.delivered, deliveries, List.map_append,
      List.append_assoc]
  · rw [second.updated, first.updated, List.filterMap_append, List.append_assoc]

variable (cuts : Cuts objects done before after)
include cuts

theorem queue_part (part : before.queue <+: encodeAll objects (done ++ later)) :
    after.queue <+: encodeAll objects later := by
  rw [cuts.queue, encodeAll, encodeAll, List.flatMap_append] at part
  exact (List.prefix_append_right_inj _).mp part

theorem length_le : after.queue.length ≤ before.queue.length := by
  rw [cuts.queue, List.length_append]
  omega

theorem eq_nil (same : before.queue.length ≤ after.queue.length) :
    done = [] := by
  cases done with
  | nil => rfl
  | cons frame done =>
      have positive := frame.encode_length_pos objects
      have length := congrArg List.length cuts.queue
      simp only [encodeAll, List.flatMap_cons, List.length_append] at length
      omega

omit cuts

theorem event {object : α} {rest : Bytes}
    (queue : before.queue = (Frame.event object).encode objects ++ rest) :
    Cuts objects [.event object] before
        (before.fire objects object (7 + (objects.dumps object).length)) ∧
      (before.fire objects object (7 + (objects.dumps object).length)).queue =
        rest := by
  have length : 7 + (objects.dumps object).length + 8 =
      ((Frame.event object).encode objects).length := by
    have start : eventStart.length = 7 := by decide
    have stop : eventEnd.length = 8 := by decide
    simp only [Frame.encode, List.length_append, start, stop]
    omega
  have remaining : before.queue.drop
      (7 + (objects.dumps object).length + 8) = rest := by
    rw [queue, length, List.drop_left]
  refine ⟨?_, remaining⟩
  constructor
  · simp [Frame.Sound]
  · simp only [Pipe.fire, remaining]
    simp [queue, encodeAll]
  · rfl
  · simp [Pipe.fire, Pipe.delivery]
  · cases update : objects.uniHashUpdate object <;>
      simp [Pipe.fire, Frame.uniHashUpdate, update]

theorem exitcode {object : α} {rest : Bytes} {task : Text} {status : α}
    {tid : Tid}
    (queue : before.queue = (Frame.exitcode object).encode objects ++ rest)
    (free : ¬ exitcodeEnd <:+: objects.dumps object)
    (unpacked : objects.unpack object = some (task, status))
    (split : splitTidMcfn task = some tid) :
    Cuts objects [.exitcode object] before
        (before.processWaitpid task status tid.mcfn
          (10 + (objects.dumps object).length)) ∧
      (before.processWaitpid task status tid.mcfn
        (10 + (objects.dumps object).length)).queue = rest := by
  have length : 10 + (objects.dumps object).length + 11 =
      ((Frame.exitcode object).encode objects).length := by
    have start : exitcodeStart.length = 10 := by decide
    have stop : exitcodeEnd.length = 11 := by decide
    simp only [Frame.encode, List.length_append, start, stop]
    omega
  have remaining : before.queue.drop
      (10 + (objects.dumps object).length + 11) = rest := by
    rw [queue, length, List.drop_left]
  refine ⟨?_, remaining⟩
  constructor
  · simp [Frame.Sound, free, unpacked, split]
  · simp only [Pipe.processWaitpid, remaining]
    simp [queue, encodeAll]
  · rfl
  · simp [Pipe.processWaitpid, Pipe.delivery, unpacked, split]
  · simp [Pipe.processWaitpid, Frame.uniHashUpdate]

end Cuts

section Events

variable {α : Type} {objects : Objects α} {object : α} {queue rest : Bytes}

theorem eventEnd_disagrees : ∀ index < eventStart.length,
    ∃ offset < eventEnd.length, index + offset < eventStart.length ∧
      eventStart[index + offset]? ≠ eventEnd[offset]? := by
  decide

theorem eventEnd_length : eventEnd.length = 8 := by
  decide

theorem loads_event_truncated (lawful : objects.Lawful)
    (part : queue <+: (Frame.event object).encode objects ++ rest)
    {start index : ℕ} (found : FoundAt eventEnd queue start index)
    (before : index < 7 + (objects.dumps object).length) :
    objects.loads ((queue.take index).drop 7) = .truncated := by
  simp only [Frame.encode, List.append_assoc] at part
  have after : 7 ≤ index := by
    by_contra early
    exact not_occurs_header eventEnd_disagrees (Nat.lt_of_not_le early)
      (found.occurs.mono part)
  have slice := slice_payload part after found.within before.le
  have header : eventStart.length = 7 := by decide
  rw [header] at slice
  rw [slice]
  apply lawful.truncated
  · exact List.take_prefix _ _
  · intro same
    have length := congrArg List.length same
    rw [List.length_take] at length
    omega

theorem loadEvent_waiting (lawful : objects.Lawful)
    (part : queue <+: (Frame.event object).encode objects ++ rest)
    (short : queue.length < 7 + (objects.dumps object).length + 8)
    (start : ℕ) : loadEvent objects queue start = .waiting := by
  fun_induction loadEvent objects queue start with
  | case1 => rfl
  | case2 start index found event loaded =>
      have position := foundAt_of_find found
      have length := position.occurs.length_le (by decide)
      rw [eventEnd_length] at length
      have truncated := loads_event_truncated lawful part position (by omega)
      rw [truncated] at loaded
      cases loaded
  | case3 start index found _ induction => exact induction
  | case4 start index found failed =>
      have position := foundAt_of_find found
      have length := position.occurs.length_le (by decide)
      rw [eventEnd_length] at length
      have truncated := loads_event_truncated lawful part position (by omega)
      rw [truncated] at failed
      cases failed

theorem event_end
    (queueIs : queue = (Frame.event object).encode objects ++ rest) :
    (queue.take (7 + (objects.dumps object).length)).drop 7 =
        objects.dumps object ∧
      Occurs eventEnd queue (7 + (objects.dumps object).length) := by
  have header : eventStart.length = 7 := by decide
  have whole : queue = (eventStart ++ objects.dumps object) ++
      (eventEnd ++ rest) := by
    simp [queueIs, Frame.encode]
  have length : 7 + (objects.dumps object).length =
      (eventStart ++ objects.dumps object).length := by
    simp [header]
  rw [length, whole, List.take_left]
  constructor
  · rw [← header, List.drop_left]
  · rw [Occurs, List.drop_left]
    exact List.prefix_append _ _

theorem loadEvent_loaded (lawful : objects.Lawful)
    (queueIs : queue = (Frame.event object).encode objects ++ rest)
    {start : ℕ} (before : start ≤ 7 + (objects.dumps object).length) :
    loadEvent objects queue start =
      .loaded object (7 + (objects.dumps object).length) := by
  obtain ⟨slice, occurs⟩ := event_end queueIs
  have part : queue <+: (Frame.event object).encode objects ++ rest := by
    rw [queueIs]
  -- The first tag that is found is the last one or ends truncated data.
  have last {start index : ℕ} (found : FoundAt eventEnd queue start index)
      (before : start ≤ 7 + (objects.dumps object).length)
      (complete : objects.loads ((queue.take index).drop 7) ≠ .truncated) :
      index = 7 + (objects.dumps object).length := by
    by_contra different
    rcases Nat.lt_or_gt_of_ne different with less | more
    · exact complete (loads_event_truncated lawful part found less)
    · exact found.first _ before more occurs
  fun_induction loadEvent objects queue start with
  | case1 start missing =>
      exact absurd missing (find_ne_none (by decide) before occurs)
  | case2 start index found event loaded =>
      have position := last (foundAt_of_find found) before (by simp [loaded])
      rw [position, slice, lawful.complete] at loaded
      cases loaded
      rw [position]
  | case3 start index found truncated induction =>
      apply induction
      have position := foundAt_of_find found
      rcases Nat.lt_trichotomy index (7 + (objects.dumps object).length) with
        less | same | more
      · exact less
      · rw [same, slice, lawful.complete] at truncated
        cases truncated
      · exact absurd occurs (position.first _ before more)
  | case4 start index found failed =>
      have position := last (foundAt_of_find found) before (by simp [failed])
      rw [position, slice, lawful.complete] at failed
      cases failed

theorem not_event_of_exitcode
    (part : queue <+: (Frame.exitcode object).encode objects ++ rest) :
    ¬ eventStart <+: queue := by
  intro started
  have starts : eventStart <+: exitcodeStart := by
    apply List.prefix_of_prefix_length_le (started.trans part)
    · rw [Frame.encode, List.append_assoc]
      exact List.prefix_append _ _
    · decide
  revert starts
  decide

theorem exists_rest {first bytes : Bytes} (part : queue <+: first ++ bytes)
    (complete : first.length ≤ queue.length) :
    ∃ rest, queue = first ++ rest ∧ rest <+: bytes := by
  obtain ⟨rest, split⟩ := List.prefix_of_prefix_length_le
    (List.prefix_append first bytes) part complete
  refine ⟨rest, split.symm, ?_⟩
  rw [← split] at part
  exact (List.prefix_append_right_inj _).mp part

variable {pipe : Pipe α} (lawful : objects.Lawful)
include lawful

theorem readEvents_incomplete
    (part : pipe.queue <+: (Frame.event object).encode objects ++ rest)
    (short : pipe.queue.length < ((Frame.event object).encode objects).length) :
    pipe.readEvents objects = some pipe := by
  have header : eventStart.length = 7 := by decide
  simp only [Frame.encode, List.length_append, header, eventEnd_length] at short
  rw [Pipe.readEvents]
  split_ifs with started
  · rw [loadEvent_waiting lawful part (by omega)]
  · rfl

theorem readEvents_complete
    (queue : pipe.queue = (Frame.event object).encode objects ++ rest) :
    pipe.readEvents objects =
      (pipe.fire objects object
        (7 + (objects.dumps object).length)).readEvents objects := by
  have started : eventStart <+: pipe.queue := by
    rw [queue, Frame.encode, List.append_assoc]
    exact List.prefix_append _ _
  rw [Pipe.readEvents, dif_pos started,
    loadEvent_loaded lawful queue (Nat.zero_le _)]

theorem readEvents_spec {frames : List (Frame α)}
    (part : pipe.queue <+: encodeAll objects frames) :
    ∃ after done later, pipe.readEvents objects = some after ∧
      frames = done ++ later ∧ Cuts objects done pipe after ∧
      ∀ object rest, later = .event object :: rest →
        after.queue.length <
          ((Frame.event object).encode objects).length := by
  induction frames generalizing pipe with
  | nil =>
      have notStarted : ¬ eventStart <+: pipe.queue := by
        rw [List.prefix_nil.mp part]
        decide
      refine ⟨pipe, [], [], ?_, rfl, .refl pipe, by simp⟩
      rw [Pipe.readEvents, dif_neg notStarted]
  | cons frame frames next =>
      rw [encodeAll, List.flatMap_cons] at part
      cases frame with
      | exitcode object =>
          refine ⟨pipe, [], _, ?_, rfl, .refl pipe, by simp⟩
          rw [Pipe.readEvents, dif_neg (not_event_of_exitcode part)]
      | event object =>
          by_cases short : pipe.queue.length <
              ((Frame.event object).encode objects).length
          · refine ⟨pipe, [], _, readEvents_incomplete lawful part short, rfl,
              .refl pipe, ?_⟩
            rintro _ _ ⟨⟩
            exact short
          · obtain ⟨rest, queue, remains⟩ :=
              exists_rest part (Nat.le_of_not_lt short)
            obtain ⟨cut, left⟩ := Cuts.event queue
            rw [← left] at remains
            obtain ⟨after, done, later, reads, split, cuts, stops⟩ :=
              next remains
            refine ⟨after, .event object :: done, later, ?_, ?_, cut.trans cuts,
              stops⟩
            · rw [readEvents_complete lawful queue, reads]
            · rw [split, List.cons_append]

end Events

section Exitcodes

variable {α : Type} {objects : Objects α} {object : α} {queue rest : Bytes}

theorem exitcodeEnd_disagrees : ∀ index < exitcodeStart.length,
    ∃ offset < exitcodeEnd.length, index + offset < exitcodeStart.length ∧
      exitcodeStart[index + offset]? ≠ exitcodeEnd[offset]? := by
  decide

theorem exitcodeEnd_single : ∀ offset < exitcodeEnd.length, 0 < offset →
    exitcodeEnd[offset]? ≠ exitcodeEnd[0]? := by
  decide

theorem exitcodeEnd_length : exitcodeEnd.length = 11 := by
  decide

theorem exitcodeStart_length : exitcodeStart.length = 10 := by
  decide

theorem exitcode_early (lawful : objects.Lawful)
    (part : queue <+: (Frame.exitcode object).encode objects ++ rest)
    {index : ℕ} (found : FoundAt exitcodeEnd queue 0 index)
    (before : index < 10 + (objects.dumps object).length) :
    objects.loads ((queue.take index).drop 10) = .truncated ∧
      exitcodeEnd <:+: objects.dumps object := by
  simp only [Frame.encode, List.append_assoc] at part
  have occurs := found.occurs.mono part
  have after : exitcodeStart.length ≤ index := by
    by_contra early
    exact not_occurs_header exitcodeEnd_disagrees (Nat.lt_of_not_le early)
      occurs
  have slice := slice_payload part after found.within
    (by rw [exitcodeStart_length]; exact before.le)
  rw [exitcodeStart_length] at slice
  constructor
  · rw [slice]
    apply lawful.truncated
    · exact List.take_prefix _ _
    · intro same
      have length := congrArg List.length same
      rw [List.length_take] at length
      rw [exitcodeStart_length] at after
      omega
  · apply (occurs.behind after).inside_payload exitcodeEnd_single
    rw [exitcodeStart_length] at after ⊢
    omega

theorem exitcode_end
    (queueIs : queue = (Frame.exitcode object).encode objects ++ rest) :
    (queue.take (10 + (objects.dumps object).length)).drop 10 =
        objects.dumps object ∧
      Occurs exitcodeEnd queue (10 + (objects.dumps object).length) := by
  have whole : queue = (exitcodeStart ++ objects.dumps object) ++
      (exitcodeEnd ++ rest) := by
    simp [queueIs, Frame.encode]
  have length : 10 + (objects.dumps object).length =
      (exitcodeStart ++ objects.dumps object).length := by
    simp [exitcodeStart_length]
  rw [length, whole, List.take_left]
  constructor
  · rw [← exitcodeStart_length, List.drop_left]
  · rw [Occurs, List.drop_left]
    exact List.prefix_append _ _

theorem not_exitcode_of_event
    (part : queue <+: (Frame.event object).encode objects ++ rest) :
    ¬ exitcodeStart <+: queue := by
  intro started
  have starts : eventStart <+: exitcodeStart := by
    apply List.prefix_of_prefix_length_le _ (started.trans part)
    · decide
    · rw [Frame.encode, List.append_assoc]
      exact List.prefix_append _ _
  revert starts
  decide

variable {pipe : Pipe α} (lawful : objects.Lawful)
include lawful

/-- An incomplete exit code is left on the queue unless its pickle has an end
tag. -/
theorem readExitcodes_incomplete
    (part : pipe.queue <+: (Frame.exitcode object).encode objects ++ rest)
    (short : pipe.queue.length <
      ((Frame.exitcode object).encode objects).length) :
    pipe.readExitcodes objects = some pipe ∨
      pipe.readExitcodes objects = none ∧
        ¬ (Frame.exitcode object).Sound objects := by
  simp only [Frame.encode, List.length_append, exitcodeStart_length,
    exitcodeEnd_length] at short
  rw [Pipe.readExitcodes]
  split_ifs with started
  · cases search : find exitcodeEnd pipe.queue 0 with
    | none => exact .inl rfl
    | some index =>
        have found := foundAt_of_find search
        have length := found.occurs.length_le (by decide)
        rw [exitcodeEnd_length] at length
        obtain ⟨truncated, inside⟩ :=
          exitcode_early lawful part found (by omega)
        right
        simp only [truncated, true_and]
        exact fun sound => sound.1 inside
  · exact .inl rfl

theorem readExitcodes_complete
    (queue : pipe.queue = (Frame.exitcode object).encode objects ++ rest) :
    (pipe.readExitcodes objects = none ∧
      ¬ (Frame.exitcode object).Sound objects) ∨
    ¬ exitcodeEnd <:+: objects.dumps object ∧ ∃ task status tid,
      objects.unpack object = some (task, status) ∧
      splitTidMcfn task = some tid ∧
      pipe.readExitcodes objects =
        (pipe.processWaitpid task status tid.mcfn
          (10 + (objects.dumps object).length)).readExitcodes objects := by
  have started : exitcodeStart <+: pipe.queue := by
    rw [queue, Frame.encode, List.append_assoc]
    exact List.prefix_append _ _
  obtain ⟨slice, occurs⟩ := exitcode_end queue
  have part : pipe.queue <+: (Frame.exitcode object).encode objects ++
      rest := by
    rw [queue]
  rw [Pipe.readExitcodes, dif_pos started]
  cases search : find exitcodeEnd pipe.queue 0 with
  | none =>
      exact absurd search (find_ne_none (by decide) (Nat.zero_le _) occurs)
  | some index =>
      have found := foundAt_of_find search
      rcases Nat.lt_trichotomy index (10 + (objects.dumps object).length) with
        less | rfl | more
      · obtain ⟨truncated, inside⟩ := exitcode_early lawful part found less
        left
        simp only [truncated, true_and]
        exact fun sound => sound.1 inside
      · have free : ¬ exitcodeEnd <:+: objects.dumps object := by
          intro inside
          obtain ⟨index, fits, early⟩ := exists_occurs_of_isInfix inside
          rw [exitcodeEnd_length] at fits
          have ahead := (early.mono (List.prefix_append _
            (exitcodeEnd ++ rest))).ahead exitcodeStart
          rw [exitcodeStart_length] at ahead
          apply found.first (10 + index) (Nat.zero_le _) (by omega)
          rw [queue, Frame.encode, List.append_assoc, List.append_assoc]
          exact ahead
        simp only [slice, lawful.complete]
        cases unpacked : objects.unpack object with
        | none =>
            left
            simp [Frame.Sound, unpacked]
        | some both =>
            obtain ⟨task, status⟩ := both
            simp only
            cases split : splitTidMcfn task with
            | none =>
                left
                simp [Frame.Sound, unpacked, split]
            | some tid => exact .inr ⟨free, task, status, tid, rfl, split, rfl⟩
      · exact absurd occurs (found.first _ (Nat.zero_le _) more)

/-- The loop over exit codes ends before the first incomplete exit code or at
an unsound one. -/
theorem readExitcodes_spec {frames : List (Frame α)}
    {pipe : Pipe α} (part : pipe.queue <+: encodeAll objects frames) :
    (pipe.readExitcodes objects = none ∧
      ∃ frame ∈ frames, ¬ frame.Sound objects) ∨
    ∃ after done later, pipe.readExitcodes objects = some after ∧
      frames = done ++ later ∧ Cuts objects done pipe after ∧
      ∀ object rest, later = .exitcode object :: rest →
        after.queue.length <
          ((Frame.exitcode object).encode objects).length := by
  induction frames generalizing pipe with
  | nil =>
      have notStarted : ¬ exitcodeStart <+: pipe.queue := by
        rw [List.prefix_nil.mp part]
        decide
      right
      refine ⟨pipe, [], [], ?_, rfl, .refl pipe, by simp⟩
      rw [Pipe.readExitcodes, dif_neg notStarted]
  | cons frame frames next =>
      rw [encodeAll, List.flatMap_cons] at part
      cases frame with
      | event object =>
          right
          refine ⟨pipe, [], _, ?_, rfl, .refl pipe, by simp⟩
          rw [Pipe.readExitcodes, dif_neg (not_exitcode_of_event part)]
      | exitcode object =>
          by_cases short : pipe.queue.length <
              ((Frame.exitcode object).encode objects).length
          · rcases readExitcodes_incomplete lawful part short with
              reads | ⟨raises, unsound⟩
            · right
              refine ⟨pipe, [], _, reads, rfl, .refl pipe, ?_⟩
              rintro _ _ ⟨⟩
              exact short
            · exact .inl ⟨raises, _, List.mem_cons_self, unsound⟩
          · obtain ⟨rest, queue, remains⟩ :=
              exists_rest part (Nat.le_of_not_lt short)
            rcases readExitcodes_complete lawful queue with
              ⟨raises, unsound⟩ | ⟨free, task, status, tid, unpacked, split,
                reads⟩
            · exact .inl ⟨raises, _, List.mem_cons_self, unsound⟩
            · obtain ⟨cut, left⟩ := Cuts.exitcode queue free unpacked split
              rw [← left] at remains
              rw [reads]
              rcases next remains with ⟨raises, frame, member, unsound⟩ |
                ⟨after, done, later, result, parts, cuts, stops⟩
              · exact .inl ⟨raises, frame, List.mem_cons_of_mem _ member,
                  unsound⟩
              · right
                refine ⟨after, .exitcode object :: done, later, result, ?_,
                  cut.trans cuts, stops⟩
                rw [parts, List.cons_append]

end Exitcodes

section Reads

variable {α : Type} {objects : Objects α} {frames : List (Frame α)}
  {pipe : Pipe α}

/-- What a reading of a part of the frames may come to. -/
def Outcome (objects : Objects α) (frames : List (Frame α)) (pipe : Pipe α) :
    Option (Pipe α) → Prop
  | none => ∃ frame ∈ frames, ¬ frame.Sound objects
  | some after => ∃ done later, frames = done ++ later ∧
      Cuts objects done pipe after ∧
      ∀ first rest, later = first :: rest →
        after.queue.length < (first.encode objects).length

theorem Outcome.after {done later : List (Frame α)} {middle : Pipe α}
    {result : Option (Pipe α)} (outcome : Outcome objects later middle result)
    (cuts : Cuts objects done pipe middle) :
    Outcome objects (done ++ later) pipe result := by
  cases result with
  | none =>
      obtain ⟨frame, member, unsound⟩ := outcome
      exact ⟨frame, List.mem_append_right _ member, unsound⟩
  | some after =>
      obtain ⟨more, rest, rfl, moreCuts, stops⟩ := outcome
      exact ⟨done ++ more, rest, (List.append_assoc _ _ _).symm,
        cuts.trans moreCuts, stops⟩

theorem readFrames_outcome (lawful : objects.Lawful)
    (part : pipe.queue <+: encodeAll objects frames) :
    Outcome objects frames pipe (pipe.readFrames objects) := by
  induction size : pipe.queue.length using Nat.strong_induction_on
    generalizing pipe frames with
  | _ _ next =>
  subst size
  obtain ⟨middle, events, others, reads, rfl, cuts, eventStops⟩ :=
    readEvents_spec lawful part
  have remains := cuts.queue_part part
  rw [Pipe.readFrames, reads, Option.bind_some]
  rcases readExitcodes_spec lawful remains with
    ⟨raises, frame, member, unsound⟩ |
    ⟨after, exitcodes, later, result, rfl, moreCuts, exitcodeStops⟩
  · rw [raises]
    exact ⟨frame, List.mem_append_right _ member, unsound⟩
  · have both := cuts.trans moreCuts
    rw [result]
    simp only
    rw [← List.append_assoc] at part ⊢
    split_ifs with found
    · exact (next _ found (both.queue_part part) rfl).after both
    · have nothing := both.eq_nil (Nat.le_of_not_lt found)
      obtain ⟨noEvents, noExitcodes⟩ := List.append_eq_nil_iff.mp nothing
      refine ⟨_, later, rfl, both, ?_⟩
      rintro (object | object) rest first
      · have less := eventStops object rest (by rw [noExitcodes, first]; rfl)
        exact moreCuts.length_le.trans_lt less
      · exact exitcodeStops object rest first

def Pipe.extend (pipe : Pipe α) (bytes : Bytes) : Pipe α :=
  { pipe with queue := pipe.queue ++ bytes }

theorem Cuts.extend {done : List (Frame α)} {after : Pipe α}
    (cuts : Cuts objects done pipe after) (bytes : Bytes) :
    Cuts objects done (pipe.extend bytes) (after.extend bytes) := by
  constructor
  · exact cuts.sound
  · simp only [Pipe.extend]
    rw [cuts.queue, List.append_assoc]
  · exact cuts.logs
  · exact cuts.delivered
  · exact cuts.updated

theorem reads_outcome (lawful : objects.Lawful) (chunks : List Bytes)
    (part : pipe.queue ++ chunks.flatten <+: encodeAll objects frames)
    (stopped : ∀ first rest, frames = first :: rest →
      pipe.queue.length < (first.encode objects).length) :
    Outcome objects frames (pipe.extend chunks.flatten)
      (pipe.reads objects chunks) := by
  induction chunks generalizing pipe frames with
  | nil =>
      refine ⟨[], frames, rfl, ?_, stopped⟩
      simp only [Pipe.extend, List.flatten_nil, List.append_nil]
      exact .refl pipe
  | cons bytes later next =>
      rw [List.flatten_cons, ← List.append_assoc] at part
      have whole : pipe.extend (bytes :: later).flatten =
          (pipe.extend bytes).extend later.flatten := by
        simp [Pipe.extend]
      have outcome := @readFrames_outcome _ _ _ (pipe.extend bytes) lawful
        ((List.prefix_append _ _).trans part)
      rw [Pipe.reads, Pipe.read, ← Pipe.extend, whole]
      cases reads : (pipe.extend bytes).readFrames objects with
      | none =>
          rw [reads] at outcome
          exact outcome
      | some after =>
          rw [reads] at outcome
          obtain ⟨done, rest, rfl, cuts, stops⟩ := outcome
          have more := cuts.extend later.flatten
          exact (next (more.queue_part part) stops).after more

end Reads

section Delivered

variable {α : Type} (objects : Objects α)

def Pipe.opened (fakerootlogs : Option (Dict Text Text)) : Pipe α :=
  ⟨[], fakerootlogs, [], []⟩

/-- All frames have been handed on, in order, and nothing is left. -/
structure AllDelivered (frames : List (Frame α))
    (fakerootlogs : Option (Dict Text Text)) (after : Pipe α) : Prop where
  queue : after.queue = []
  delivered : after.delivered.map some =
    frames.map ((Pipe.opened fakerootlogs).delivery objects)
  updated : after.updatedTaskhashQueue =
    frames.filterMap (Frame.uniHashUpdate objects)

variable {objects} in
theorem eq_nil_of_encodeAll {frames : List (Frame α)}
    (empty : encodeAll objects frames = []) : frames = [] := by
  cases frames with
  | nil => rfl
  | cons frame frames =>
      have positive := frame.encode_length_pos objects
      have length := congrArg List.length empty
      simp only [encodeAll, List.flatMap_cons, List.length_append,
        List.length_nil] at length
      omega

variable {objects} in
theorem Cuts.rest {done later : List (Frame α)} {after : Pipe α}
    {fakerootlogs : Option (Dict Text Text)} {bytes : Bytes}
    (cuts : Cuts objects done ((Pipe.opened fakerootlogs).extend bytes) after)
    (stream : bytes = encodeAll objects (done ++ later)) :
    after.queue = encodeAll objects later := by
  have queue := cuts.queue
  simp only [Pipe.extend, Pipe.opened, List.nil_append, stream] at queue
  rw [encodeAll, encodeAll, List.flatMap_append] at queue
  exact (List.append_cancel_left queue).symm

variable {objects} {frames : List (Frame α)} {chunks : List Bytes}
  {fakerootlogs : Option (Dict Text Text)}

theorem opened_outcome (lawful : objects.Lawful)
    (stream : chunks.flatten = encodeAll objects frames) :
    Outcome objects frames ((Pipe.opened fakerootlogs).extend chunks.flatten)
      ((Pipe.opened fakerootlogs).reads objects chunks) := by
  apply reads_outcome lawful
  · rw [stream]
    exact List.prefix_refl _
  · intro first _ _
    exact first.encode_length_pos objects

theorem AllDelivered.sound {after : Pipe α} (lawful : objects.Lawful)
    (stream : chunks.flatten = encodeAll objects frames)
    (reads : (Pipe.opened fakerootlogs).reads objects chunks = some after)
    (delivered : AllDelivered objects frames fakerootlogs after) :
    ∀ frame ∈ frames, frame.Sound objects := by
  have outcome := @opened_outcome _ _ _ _ fakerootlogs lawful stream
  rw [reads] at outcome
  obtain ⟨done, later, rfl, cuts, -⟩ := outcome
  have rest := cuts.rest stream
  rw [delivered.queue] at rest
  rw [eq_nil_of_encodeAll rest.symm, List.append_nil]
  exact cuts.sound

theorem exists_allDelivered (lawful : objects.Lawful)
    (stream : chunks.flatten = encodeAll objects frames)
    (sound : ∀ frame ∈ frames, frame.Sound objects) :
    ∃ after, (Pipe.opened fakerootlogs).reads objects chunks = some after ∧
      AllDelivered objects frames fakerootlogs after := by
  have outcome := @opened_outcome _ _ _ _ fakerootlogs lawful stream
  cases reads : (Pipe.opened fakerootlogs).reads objects chunks with
  | none =>
      rw [reads] at outcome
      obtain ⟨frame, member, unsound⟩ := outcome
      exact absurd (sound frame member) unsound
  | some after =>
      rw [reads] at outcome
      obtain ⟨done, later, rfl, cuts, stops⟩ := outcome
      have rest := cuts.rest stream
      have nothing : later = [] := by
        cases later with
        | nil => rfl
        | cons first later =>
            have short := stops first later rfl
            rw [rest, encodeAll, List.flatMap_cons, List.length_append] at short
            omega
      rw [nothing] at rest ⊢
      rw [List.append_nil]
      exact ⟨after, rfl, rest, cuts.delivered, cuts.updated⟩

/-- All frames are delivered if and only if the exit codes are sound: none of
their pickles has an end tag of an exit code in it. -/
theorem reads_allDelivered_iff (lawful : objects.Lawful)
    (frames : List (Frame α)) (chunks : List Bytes)
    (stream : chunks.flatten = encodeAll objects frames)
    (fakerootlogs : Option (Dict Text Text)) :
    (∃ after, (Pipe.opened fakerootlogs).reads objects chunks = some after ∧
      AllDelivered objects frames fakerootlogs after) ↔
      ∀ frame ∈ frames, frame.Sound objects := by
  constructor
  · rintro ⟨after, reads, delivered⟩
    exact delivered.sound lawful stream reads
  · exact exists_allDelivered lawful stream

end Delivered

/-- `0`, `("a:b", 0)` and `("a</exitcode>:b", 0)`. -/
inductive Sample where
  | zero
  | finished
  | tagged

namespace Sample

def dumps : Sample → Bytes
  | zero => [128, 4, 75, 0, 46]
  | finished =>
      [128, 4, 149, 11, 0, 0, 0, 0, 0, 0, 0, 140, 3, 97, 58, 98, 148, 75, 0,
        134, 148, 46]
  | tagged =>
      [128, 4, 149, 22, 0, 0, 0, 0, 0, 0, 0, 140, 14, 97, 60, 47, 101, 120,
        105, 116, 99, 111, 100, 101, 62, 58, 98, 148, 75, 0, 134, 148, 46]

def all : List Sample :=
  [zero, finished, tagged]

def objects : Objects Sample where
  dumps := dumps
  loads bytes :=
    match all.find? fun object => object.dumps = bytes with
    | some object => .object object
    | none =>
        if ∃ object ∈ all, bytes <+: object.dumps then .truncated else .failed
  unpack
    | zero => none
    | finished => some ("a:b".toList, zero)
    | tagged => some ("a</exitcode>:b".toList, zero)
  uniHashUpdate _ := none

theorem mem_all (object : Sample) : object ∈ all := by
  cases object <;> simp [all]

theorem eq_of_dumps_part {object other : Sample}
    (part : object.dumps <+: other.dumps) : object = other := by
  cases object <;> cases other <;> first
    | rfl
    | exact absurd part (by decide)

theorem objects_lawful : objects.Lawful := by
  constructor
  · intro object
    cases object <;> rfl
  · intro object bytes part different
    have missing : (all.find? fun other => other.dumps = bytes) = none := by
      rw [List.find?_eq_none]
      intro other _ same
      simp only [decide_eq_true_eq] at same
      rw [← same] at part different
      exact different (congrArg dumps (eq_of_dumps_part part))
    simp only [objects, missing]
    exact if_pos ⟨object, mem_all object, part⟩

end Sample

theorem reads_allDelivered_split :
    ∃ after, (Pipe.opened none).reads Sample.objects
        [(encodeAll Sample.objects [.event .zero, .exitcode .finished]).take 15,
          (encodeAll Sample.objects [.event .zero, .exitcode .finished]).drop
            15] =
        some after ∧
      AllDelivered Sample.objects [.event .zero, .exitcode .finished] none
        after := by
  apply (reads_allDelivered_iff Sample.objects_lawful _ _ _ none).mpr
  · intro frame member
    simp only [List.mem_cons, List.not_mem_nil, or_false] at member
    rcases member with rfl | rfl
    · trivial
    · exact ⟨by decide, _, _, rfl, by decide⟩
  · simp

/-- The task id has the end tag in it. -/
theorem not_allDelivered_tagged :
    ¬ ∀ (objects : Objects Sample) (frames : List (Frame Sample))
      (chunks : List Bytes), objects.Lawful →
      chunks.flatten = encodeAll objects frames →
      ∃ after, (Pipe.opened none).reads objects chunks = some after ∧
        AllDelivered objects frames none after := by
  intro claimed
  have stream : [(Frame.exitcode Sample.tagged).encode Sample.objects].flatten =
      encodeAll Sample.objects [.exitcode .tagged] := by
    simp [encodeAll]
  obtain ⟨after, reads, delivered⟩ :=
    claimed Sample.objects _ _ Sample.objects_lawful stream
  have sound := delivered.sound Sample.objects_lawful stream reads
    (.exitcode .tagged) List.mem_cons_self
  exact sound.1 (by decide)

end Nvbmc.WorkerPipe
