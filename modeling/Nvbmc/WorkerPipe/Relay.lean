import Nvbmc.Library.Runs
import Nvbmc.WorkerPipe.HandleItem

/-!
# Relaying the events of tasks

Every task process writes its events to a pipe of its own.  The worker reads
the pipes in pieces, cuts frames off at the first end tag, asserts that each is
one event and puts it on the worker queue; when a task has ended it reads the
rest and puts the exit code behind.
-/

namespace Nvbmc.WorkerPipe

open Nvbmc.Library

/-- What a task writes for an event: `worker_child_fire`. -/
def eventFrame (pickle : Bytes) : Bytes :=
  eventStart ++ (pickle ++ eventEnd)

/-- The loop of `runQueueWorkerPipe.read`: the frames it puts on the worker
queue and the bytes it leaves, or none when an assertion fails. -/
def relayFrames (queue : Bytes) : List Bytes × Option Bytes :=
  match _ : find eventEnd queue 0 with
  | none => ([], some queue)
  | some index =>
      let msg := queue.take (index + 8)
      if eventStart <+: msg ∧ count eventStart msg = 1 then
        let (msgs, left) := relayFrames (queue.drop (index + 8))
        (msg :: msgs, left)
      else ([], none)
termination_by queue.length
decreasing_by
  rename_i found _
  have fits := (foundAt_of_find found).occurs.length_le (by decide)
  have length : eventEnd.length = 8 := by decide
  rw [List.length_drop]
  omega

/-- What `os.waitpid` reports of a task that has ended. -/
inductive WaitStatus where
  | exited (code : ℕ)
  | signaled (signal : ℕ)
deriving DecidableEq, Repr

/-- Per shell conventions for `$?`. -/
def WaitStatus.status : WaitStatus → ℕ
  | exited code => code
  | signaled signal => 128 + signal

inductive TaskState where
  | unstarted
  | running
  | ended (status : WaitStatus)
  /-- `process_waitpid` has taken its exit code. -/
  | reaped (status : WaitStatus)
deriving DecidableEq, Repr

def TaskState.exitcode : TaskState → Option ℕ
  | reaped status => some status.status
  | _ => none

/-- What is put on the worker queue, with the task it came from. -/
inductive Put (Pid : Type) where
  | event (pid : Pid) (msg : Bytes)
  | exitcode (pid : Pid) (msg : Bytes)

def Put.eventOf {Pid : Type} [DecidableEq Pid] (pid : Pid) :
    Put Pid → Option Bytes
  | event sender msg => if sender = pid then some msg else none
  | exitcode _ _ => none

/-- The tasks and their pipes. -/
structure Relay (Pid : Type) where
  states : Pid → TaskState
  /-- How many bytes the task has written. -/
  written : Pid → ℕ
  /-- How many of them the worker has read. -/
  taken : Pid → ℕ
  queues : Pid → Bytes
  workerQueue : List (Put Pid)
  failed : Bool

inductive RelayAction (Pid : Type) where
  | runtask (pid : Pid)
  | write (pid : Pid) (bytes : ℕ)
  | exit (pid : Pid) (status : WaitStatus)
  | read (pid : Pid) (bytes : ℕ)
  | waitpid (pid : Pid) (pieces : List Bytes)

namespace Relay

variable {Pid : Type} [DecidableEq Pid]

def started : Relay Pid where
  states := fun _ => .unstarted
  written := fun _ => 0
  taken := fun _ => 0
  queues := fun _ => []
  workerQueue := []
  failed := false

/-- `runQueueWorkerPipe.read`, with the bytes that are there to be read. -/
def read (pid : Pid) (relay : Relay Pid) (bytes : Bytes) : Relay Pid :=
  if relay.failed then relay
  else
    let (msgs, left) := relayFrames (relay.queues pid ++ bytes)
    { relay with
      taken := Function.update relay.taken pid (relay.taken pid + bytes.length)
      queues := Function.update relay.queues pid (left.getD [])
      workerQueue := relay.workerQueue ++ msgs.map (.event pid)
      failed := left.isNone }

/-- `runQueueWorkerPipe.close`: the rest is read in pieces, until nothing is
left to be read. -/
def close (pid : Pid) (pieces : List Bytes) (relay : Relay Pid) : Relay Pid :=
  (pieces ++ [[]]).foldl (read pid) relay

def events (relay : Relay Pid) (pid : Pid) : List Bytes :=
  relay.workerQueue.filterMap (Put.eventOf pid)

section Run

variable (pickles : Pid → List Bytes) (dumps : Pid → ℕ → Bytes)

/-- `process_waitpid` for a task that has ended; `dumps` gives the pickle of the
task with its status. -/
def processWaitpid (pid : Pid) (status : WaitStatus) (pieces : List Bytes)
    (relay : Relay Pid) : Relay Pid :=
  let relay := relay.close pid pieces
  if relay.failed then relay
  else
    { relay with
      states := Function.update relay.states pid (.reaped status)
      workerQueue := relay.workerQueue ++ [.exitcode pid
        (exitcodeStart ++ (dumps pid status.status ++ exitcodeEnd))] }

/-- The frames a task writes in its life. -/
def frames (pid : Pid) : List Bytes :=
  (pickles pid).map eventFrame

/-- The bytes in the pipe of a task. -/
def unread (relay : Relay Pid) (pid : Pid) : Bytes :=
  ((frames pickles pid).flatten.take (relay.written pid)).drop
    (relay.taken pid)

/-- One step of a task or of the worker, which does nothing more once an
assertion has failed. -/
inductive Step : Relay Pid → RelayAction Pid → Relay Pid → Prop where
  | runtask {relay : Relay Pid} {pid : Pid} : relay.failed = false →
      relay.states pid = .unstarted → Step relay (.runtask pid)
        { relay with states := Function.update relay.states pid .running }
  | write {relay : Relay Pid} {pid : Pid} {bytes : ℕ} :
      relay.states pid = .running →
      relay.written pid + bytes ≤ (frames pickles pid).flatten.length →
      Step relay (.write pid bytes) { relay with
        written :=
          Function.update relay.written pid (relay.written pid + bytes) }
  | exit {relay : Relay Pid} {pid : Pid} {status : WaitStatus} :
      relay.states pid = .running → Step relay (.exit pid status)
        { relay with
          states := Function.update relay.states pid (.ended status) }
  | read {relay : Relay Pid} {pid : Pid} {bytes : ℕ} :
      relay.failed = false → relay.states pid ≠ .unstarted →
      (relay.states pid).exitcode = none → Step relay (.read pid bytes)
        (relay.read pid ((unread pickles relay pid).take bytes))
  | waitpid {relay : Relay Pid} {pid : Pid} {status : WaitStatus}
      {pieces : List Bytes} :
      relay.failed = false → relay.states pid = .ended status →
      pieces.flatten = unread pickles relay pid →
      Step relay (.waitpid pid pieces)
        (relay.processWaitpid dumps pid status pieces)

end Run

end Relay

def wholeFrames : List Bytes → ℕ → List Bytes
  | [], _ => []
  | frame :: frames, bytes =>
      if frame.length ≤ bytes then
        frame :: wholeFrames frames (bytes - frame.length)
      else []

/-- No assertion has failed, and the worker queue has for every task the frames
it has sent, unmodified and in order; those behind which its exit code stands
are all the task has written. -/
structure Relays {Pid : Type} [DecidableEq Pid] (pickles : Pid → List Bytes)
    (relay : Relay Pid) : Prop where
  asserted : relay.failed = false
  ordered : ∀ pid, relay.events pid <+: Relay.frames pickles pid
  complete : ∀ pid msg, .exitcode pid msg ∈ relay.workerQueue →
    relay.events pid =
      wholeFrames (Relay.frames pickles pid) (relay.written pid)
  last : relay.workerQueue.Pairwise fun first later =>
    ∀ pid exitcode event, first = .exitcode pid exitcode →
      later ≠ .event pid event

theorem eventStart_length : eventStart.length = 7 := by
  decide

theorem eventEnd_single : ∀ offset < eventEnd.length, 0 < offset →
    eventEnd[offset]? ≠ eventEnd[0]? := by
  decide

theorem eventFrame_length (pickle : Bytes) :
    (eventFrame pickle).length = 7 + pickle.length + 8 := by
  simp only [eventFrame, List.length_append, eventStart_length, eventEnd_length]
  omega

structure TagFree (pickle : Bytes) : Prop where
  start : ¬ eventStart <:+: pickle
  stop : ¬ eventEnd <:+: pickle

/-- What passes the assertion at the first end tag is the frame of a pickle
without tags. -/
theorem exists_tagFree {queue : Bytes} {index : ℕ}
    (found : FoundAt eventEnd queue 0 index)
    (begins : eventStart <+: queue.take (index + 8))
    (once : count eventStart (queue.take (index + 8)) = 1) :
    ∃ pickle, queue.take (index + 8) = eventFrame pickle ∧ TagFree pickle := by
  have after : 7 ≤ index := by
    by_contra early
    obtain ⟨rest, split⟩ := begins.trans (List.take_prefix _ _)
    have occurs := found.occurs
    rw [← split] at occurs
    exact not_occurs_header eventEnd_disagrees (Nat.lt_of_not_le early) occurs
  obtain ⟨rest, split⟩ := begins
  obtain ⟨beyond, tail⟩ := found.occurs
  have parts : queue.take (index + 8) = queue.take index ++ eventEnd := by
    rw [List.take_add, ← tail, ← eventEnd_length, List.take_left]
  set pickle := (queue.take index).drop 7 with pickleIs
  have header : queue.take index = eventStart ++ pickle := by
    have begins : eventStart <+: queue.take index := by
      apply List.prefix_of_prefix_length_le (List.prefix_append eventStart rest)
      · rw [split]
        exact (List.take_prefix_take_left (Nat.le_add_right _ _))
      · rw [eventStart_length, List.length_take]
        have within := found.within
        omega
    obtain ⟨body, body_split⟩ := begins
    rw [pickleIs, ← body_split, ← eventStart_length, List.drop_left]
  have whole : queue.take (index + 8) = eventFrame pickle := by
    rw [parts, header, List.append_assoc, eventFrame]
  refine ⟨pickle, whole, ?_, ?_⟩
  · rw [whole, eventFrame, count_eq_one_iff (by decide)] at once
    exact fun inside => once (inside.trans (List.prefix_append _ _).isInfix)
  · intro inside
    obtain ⟨earlier, fits, occurs⟩ := exists_occurs_of_isInfix inside
    have length := congrArg List.length header
    have within := found.within
    rw [List.length_append, List.length_take, eventStart_length] at length
    rw [eventEnd_length] at fits
    have ahead := occurs.ahead eventStart
    rw [← header, eventStart_length] at ahead
    exact found.first (7 + earlier) (Nat.zero_le _) (by omega)
      (ahead.mono (List.take_prefix _ _))

theorem tagFree_of_relayed {queue msg : Bytes}
    (put : msg ∈ (relayFrames queue).1) :
    ∃ pickle, msg = eventFrame pickle ∧ TagFree pickle := by
  fun_induction relayFrames queue with
  | case1 => simp at put
  | case2 queue index found first passed msgs left later induction =>
      rcases List.mem_cons.mp put with rfl | put
      · exact exists_tagFree (foundAt_of_find found) passed.1 passed.2
      · exact induction (later ▸ put)
  | case3 => simp at put

section Clean

variable {pickle queue rest : Bytes}

theorem end_of_tagFree (free : TagFree pickle)
    (part : queue <+: eventFrame pickle ++ rest) {index : ℕ}
    (occurs : Occurs eventEnd queue index) : 7 + pickle.length ≤ index := by
  by_contra early
  have whole := occurs.mono part
  simp only [eventFrame, List.append_assoc] at whole
  have after : 7 ≤ index := by
    by_contra before
    exact not_occurs_header eventEnd_disagrees (Nat.lt_of_not_le before) whole
  have behind := whole.behind (eventStart_length ▸ after)
  rw [eventStart_length] at behind
  exact free.stop (behind.inside_payload eventEnd_single (by omega))

theorem relayFrames_none (missing : find eventEnd queue 0 = none) :
    relayFrames queue = ([], some queue) := by
  unfold relayFrames
  split
  · rfl
  · rename_i found
    rw [missing] at found
    cases found

theorem relayFrames_short (free : TagFree pickle)
    (part : queue <+: eventFrame pickle ++ rest)
    (short : queue.length < (eventFrame pickle).length) :
    relayFrames queue = ([], some queue) := by
  apply relayFrames_none
  apply find_eq_none
  intro inside
  obtain ⟨index, fits, occurs⟩ := exists_occurs_of_isInfix inside
  have late := end_of_tagFree free part occurs
  rw [eventFrame_length] at short
  rw [eventEnd_length] at fits
  omega

theorem relayFrames_frame (free : TagFree pickle) :
    relayFrames (eventFrame pickle ++ rest) =
      (eventFrame pickle :: (relayFrames rest).1, (relayFrames rest).2) := by
  have position : find eventEnd (eventFrame pickle ++ rest) 0 =
      some (7 + pickle.length) := by
    apply find_eq_some (Nat.zero_le _)
    · rw [List.length_append, eventFrame_length]
      omega
    · have header : 7 + pickle.length = (eventStart ++ pickle).length := by
        rw [List.length_append, eventStart_length]
      rw [Occurs, header, eventFrame, ← List.append_assoc, List.append_assoc,
        List.drop_left]
      exact List.prefix_append _ _
    · intro earlier _ less occurs
      have late := end_of_tagFree free (List.prefix_refl _) occurs
      omega
  have length := eventFrame_length pickle
  have taken : (eventFrame pickle ++ rest).take (7 + pickle.length + 8) =
      eventFrame pickle := by
    rw [← length, List.take_left]
  have left : (eventFrame pickle ++ rest).drop (7 + pickle.length + 8) =
      rest := by
    rw [← length, List.drop_left]
  have passes : eventStart <+: eventFrame pickle ∧
      count eventStart (eventFrame pickle) = 1 := by
    refine ⟨List.prefix_append _ _, ?_⟩
    rw [eventFrame, count_eq_one_iff (by decide)]
    exact not_isInfix_append (by decide) free.start (by decide)
  rw [relayFrames]
  split
  · rename_i missing
    rw [position] at missing
    cases missing
  · rename_i index found
    rw [position] at found
    cases found
    rw [taken, left, if_pos passes]

theorem relayFrames_spec {pickles : List Bytes}
    (free : ∀ pickle ∈ pickles, TagFree pickle)
    (part : queue <+: (pickles.map eventFrame).flatten) :
    ∃ done later left, pickles = done ++ later ∧
      relayFrames queue = (done.map eventFrame, some left) ∧
      queue = (done.map eventFrame).flatten ++ left ∧
      ∀ next ∈ later.head?, left.length < (eventFrame next).length := by
  induction pickles generalizing queue with
  | nil =>
      rw [List.prefix_nil.mp part]
      exact ⟨[], [], [], rfl, relayFrames_none (find_eq_none (by decide) 0),
        rfl, by simp⟩
  | cons pickle pickles induction =>
      have first := free pickle List.mem_cons_self
      rw [List.map_cons, List.flatten_cons] at part
      by_cases short : queue.length < (eventFrame pickle).length
      · exact ⟨[], pickle :: pickles, queue, rfl,
          relayFrames_short first part short, rfl, by simpa using short⟩
      · obtain ⟨rest, rfl, remains⟩ :=
          exists_rest part (Nat.le_of_not_lt short)
        obtain ⟨done, later, left, split, relayed, queue, stops⟩ := induction
          (fun other member => free other (List.mem_cons_of_mem _ member))
          remains
        refine ⟨pickle :: done, later, left, ?_, ?_, ?_, stops⟩
        · rw [split, List.cons_append]
        · rw [relayFrames_frame first, relayed, List.map_cons]
        · rw [queue, List.map_cons, List.flatten_cons, List.append_assoc]

end Clean

theorem wholeFrames_eq {done later : List Bytes} {left : ℕ}
    (short : ∀ next ∈ later.head?, left < next.length) :
    wholeFrames (done ++ later) (done.flatten.length + left) = done := by
  induction done with
  | nil =>
      cases later with
      | nil => rfl
      | cons next later =>
          have tooShort : ¬ next.length ≤ left := by
            simpa using short next
          rw [List.nil_append, List.flatten_nil, List.length_nil, Nat.zero_add,
            wholeFrames, if_neg tooShort]
  | cons frame done induction =>
      rw [List.cons_append, List.flatten_cons, List.length_append, wholeFrames,
        if_pos (by omega)]
      have rest : frame.length + done.flatten.length + left - frame.length =
          done.flatten.length + left := by
        omega
      rw [rest, induction]

namespace Relay

variable {Pid : Type} [DecidableEq Pid] {pickles : Pid → List Bytes}
  {dumps : Pid → ℕ → Bytes} {relay : Relay Pid} {pid : Pid}

/-- How far the events of a task have come: the frames that were put on the
worker queue, and the bytes of the next one. -/
structure Cut (pickles : Pid → List Bytes) (relay : Relay Pid) (pid : Pid)
    (done later : List Bytes) : Prop where
  split : pickles pid = done ++ later
  events : relay.events pid = done.map eventFrame
  bytes : (frames pickles pid).flatten.take (relay.taken pid) =
    (done.map eventFrame).flatten ++ relay.queues pid
  short : ∀ next ∈ later.head?,
    (relay.queues pid).length < (eventFrame next).length

/-- What every step keeps when no pickle has a tag in it. -/
structure Relaying (pickles : Pid → List Bytes) (relay : Relay Pid) : Prop where
  asserted : relay.failed = false
  taken : ∀ pid, relay.taken pid ≤ relay.written pid
  written : ∀ pid, relay.written pid ≤ (frames pickles pid).flatten.length
  cut : ∀ pid, ∃ done later, Cut pickles relay pid done later
  reaped : ∀ pid, (relay.states pid).exitcode ≠ none →
    relay.taken pid = relay.written pid
  exitcodes : ∀ pid msg, .exitcode pid msg ∈ relay.workerQueue →
    (relay.states pid).exitcode ≠ none
  last : relay.workerQueue.Pairwise fun first later =>
    ∀ pid exitcode event, first = .exitcode pid exitcode →
      later ≠ .event pid event

theorem started_relaying (pickles : Pid → List Bytes) :
    Relaying pickles (started : Relay Pid) where
  asserted := rfl
  taken := fun _ => le_rfl
  written := fun _ => Nat.zero_le _
  cut := fun pid => ⟨[], pickles pid, rfl, rfl, rfl, by
    intro next _
    rw [eventFrame_length, started, List.length_nil]
    omega⟩
  reaped := by simp [started, TaskState.exitcode]
  exitcodes := by simp [started]
  last := .nil

/-- The events of other tasks are not those of `pid`. -/
theorem filterMap_eventOf (sender : Pid) (msgs : List Bytes) :
    (msgs.map (Put.event sender)).filterMap (Put.eventOf pid) =
      if sender = pid then msgs else [] := by
  induction msgs with
  | nil => simp
  | cons msg msgs induction =>
      rw [List.map_cons, List.filterMap_cons, induction]
      by_cases same : sender = pid <;> simp [Put.eventOf, same]

omit [DecidableEq Pid] in
theorem take_of_unread {bytes : Bytes}
    (there : bytes <+: unread pickles relay pid) :
    (frames pickles pid).flatten.take (relay.taken pid + bytes.length) =
      (frames pickles pid).flatten.take (relay.taken pid) ++ bytes := by
  have behind : bytes <+: (frames pickles pid).flatten.drop (relay.taken pid) :=
    there.trans ((List.take_prefix _ _).drop _)
  rw [List.take_add, ← List.prefix_iff_eq_take.mp behind]

theorem read_spec (free : ∀ pickle ∈ pickles pid, TagFree pickle)
    (asserted : relay.failed = false) {bytes : Bytes}
    (there : bytes <+: unread pickles relay pid) {done later : List Bytes}
    (cut : Cut pickles relay pid done later) :
    ∃ more rest left, later = more ++ rest ∧
      relay.read pid bytes = { relay with
        taken := Function.update relay.taken pid
          (relay.taken pid + bytes.length)
        queues := Function.update relay.queues pid left
        workerQueue := relay.workerQueue ++
          (more.map eventFrame).map (.event pid) } ∧
      (frames pickles pid).flatten.take (relay.taken pid + bytes.length) =
        ((done ++ more).map eventFrame).flatten ++ left ∧
      ∀ next ∈ rest.head?, left.length < (eventFrame next).length := by
  have whole := take_of_unread there
  rw [cut.bytes, List.append_assoc] at whole
  have part : relay.queues pid ++ bytes <+: (later.map eventFrame).flatten := by
    have part := List.take_prefix (relay.taken pid + bytes.length)
      (frames pickles pid).flatten
    rw [whole, frames, cut.split, List.map_append, List.flatten_append] at part
    exact (List.prefix_append_right_inj _).mp part
  have laterFree : ∀ pickle ∈ later, TagFree pickle := fun pickle member =>
    free pickle (cut.split ▸ List.mem_append_right _ member)
  obtain ⟨more, rest, left, split, relayed, queue, short⟩ :=
    relayFrames_spec laterFree part
  refine ⟨more, rest, left, split, ?_, ?_, short⟩
  · simp only [read, asserted, Bool.false_eq_true, if_false, relayed,
      Option.getD_some, Option.isNone_some]
  · rw [whole, queue, List.map_append, List.flatten_append, List.append_assoc]

variable (relaying : Relaying pickles relay)
include relaying

theorem Relaying.read (free : ∀ pid, ∀ pickle ∈ pickles pid, TagFree pickle)
    {bytes : Bytes} (alive : (relay.states pid).exitcode = none)
    (there : bytes <+: unread pickles relay pid) :
    Relaying pickles (relay.read pid bytes) ∧
      (relay.read pid bytes).states = relay.states ∧
      (relay.read pid bytes).written = relay.written ∧
      (relay.read pid bytes).taken =
        Function.update relay.taken pid (relay.taken pid + bytes.length) := by
  obtain ⟨done, later, cut⟩ := relaying.cut pid
  obtain ⟨more, rest, left, split, same, whole, short⟩ :=
    read_spec (free pid) relaying.asserted there cut
  have room : relay.taken pid + bytes.length ≤ relay.written pid := by
    have length := there.length_le
    rw [unread, List.length_drop, List.length_take] at length
    have taken := relaying.taken pid
    omega
  rw [same]
  refine ⟨?_, rfl, rfl, rfl⟩
  constructor
  · exact relaying.asserted
  · intro other
    by_cases same : other = pid
    · subst same
      simpa using room
    · simpa [Function.update_of_ne same] using relaying.taken other
  · exact relaying.written
  · intro other
    by_cases same : other = pid
    · subst same
      refine ⟨done ++ more, rest, ?_, ?_, ?_, ?_⟩
      · rw [cut.split, split, List.append_assoc]
      · rw [events, List.filterMap_append, filterMap_eventOf, if_pos rfl,
          List.map_append]
        exact congrArg (· ++ more.map eventFrame) cut.events
      · simpa using whole
      · simpa using short
    · obtain ⟨done, later, cut⟩ := relaying.cut other
      refine ⟨done, later, cut.split, ?_, ?_, ?_⟩
      · rw [events, List.filterMap_append, filterMap_eventOf,
          if_neg (Ne.symm same), List.append_nil]
        exact cut.events
      · simpa [Function.update_of_ne same] using cut.bytes
      · simpa [Function.update_of_ne same] using cut.short
  · intro other reaped
    have different : other ≠ pid := by
      rintro rfl
      exact reaped alive
    simpa [Function.update_of_ne different] using relaying.reaped other reaped
  · intro other msg member
    rcases List.mem_append.mp member with earlier | new
    · exact relaying.exitcodes other msg earlier
    · simp at new
  · refine List.pairwise_append.mpr ⟨relaying.last, ?_, ?_⟩
    · rw [List.pairwise_map]
      exact List.pairwise_of_forall (by simp)
    · intro first earlier later new other exitcode event isExit isEvent
      subst isExit isEvent
      have reaped := relaying.exitcodes other exitcode earlier
      obtain ⟨_, _, sameEvent⟩ := List.mem_map.mp new
      cases sameEvent
      exact reaped alive

theorem Relaying.close (free : ∀ pid, ∀ pickle ∈ pickles pid, TagFree pickle)
    {pieces : List Bytes} (alive : (relay.states pid).exitcode = none)
    (there : pieces.flatten = unread pickles relay pid) :
    Relaying pickles (relay.close pid pieces) ∧
      (relay.close pid pieces).states = relay.states ∧
      (relay.close pid pieces).taken pid = relay.written pid ∧
      (relay.close pid pieces).written = relay.written := by
  have reads : ∀ (pieces : List Bytes) {relay : Relay Pid},
      Relaying pickles relay → (relay.states pid).exitcode = none →
      pieces.flatten = unread pickles relay pid →
      Relaying pickles (pieces.foldl (Relay.read pid) relay) ∧
        (pieces.foldl (Relay.read pid) relay).states = relay.states ∧
        (pieces.foldl (Relay.read pid) relay).taken pid = relay.written pid ∧
        (pieces.foldl (Relay.read pid) relay).written = relay.written := by
    intro pieces
    induction pieces with
    | nil =>
        intro relay relaying _ there
        refine ⟨relaying, rfl, ?_, rfl⟩
        have length := congrArg List.length there
        have taken := relaying.taken pid
        have written := relaying.written pid
        rw [unread, List.flatten_nil, List.length_drop, List.length_take,
          List.length_nil] at length
        show relay.taken pid = relay.written pid
        omega
    | cons piece pieces induction =>
        intro relay relaying alive there
        rw [List.flatten_cons] at there
        obtain ⟨next, states, written, taken⟩ :=
          relaying.read free alive ⟨_, there⟩
        have rest : pieces.flatten =
            unread pickles (relay.read pid piece) pid := by
          rw [unread, written, taken, Function.update_self, ← List.drop_drop]
          rw [unread] at there
          rw [← there, List.drop_left]
        obtain ⟨last, states', taken', written'⟩ :=
          induction next (states ▸ alive) rest
        exact ⟨last, states'.trans states,
          taken'.trans (congrFun written pid), written'.trans written⟩
  exact reads (pieces ++ [[]]) relaying alive (by simpa using there)

theorem Relaying.progress {states : Pid → TaskState} {written : Pid → ℕ}
    (more : ∀ pid, relay.written pid ≤ written pid)
    (within : ∀ pid, written pid ≤ (frames pickles pid).flatten.length)
    (sameReaped : ∀ pid, (states pid).exitcode = (relay.states pid).exitcode)
    (kept : ∀ pid, (relay.states pid).exitcode ≠ none →
      written pid = relay.written pid) :
    Relaying pickles { relay with states := states, written := written } where
  asserted := relaying.asserted
  taken := fun pid => (relaying.taken pid).trans (more pid)
  written := within
  cut := fun pid =>
    have ⟨done, later, cut⟩ := relaying.cut pid
    ⟨done, later, cut.split, cut.events, cut.bytes, cut.short⟩
  reaped := fun pid reaped => by
    have before := sameReaped pid ▸ reaped
    exact (relaying.reaped pid before).trans (kept pid before).symm
  exitcodes := fun pid msg member =>
    sameReaped pid ▸ relaying.exitcodes pid msg member
  last := relaying.last

theorem Relaying.move {state : TaskState}
    (before : (relay.states pid).exitcode = none)
    (after : state.exitcode = none) :
    Relaying pickles
      { relay with states := Function.update relay.states pid state } := by
  refine relaying.progress (fun _ => le_rfl) relaying.written ?_ fun _ _ => rfl
  intro other
  by_cases same : other = pid
  · subst same
    simp [before, after]
  · rw [Function.update_of_ne same]

theorem Relaying.reap (taken : relay.taken pid = relay.written pid)
    (status : WaitStatus) (msg : Bytes) :
    Relaying pickles { relay with
      states := Function.update relay.states pid (.reaped status)
      workerQueue := relay.workerQueue ++ [.exitcode pid msg] } := by
  constructor
  · exact relaying.asserted
  · exact relaying.taken
  · exact relaying.written
  · intro other
    obtain ⟨done, later, cut⟩ := relaying.cut other
    refine ⟨done, later, cut.split, ?_, cut.bytes, cut.short⟩
    rw [events, List.filterMap_append]
    exact (List.append_nil _).trans cut.events
  · dsimp only
    intro other reaped
    by_cases same : other = pid
    · rw [same]
      exact taken
    · rw [Function.update_of_ne same] at reaped
      exact relaying.reaped other reaped
  · dsimp only
    intro other event member
    by_cases same : other = pid
    · rw [same, Function.update_self]
      exact Option.some_ne_none _
    · rw [Function.update_of_ne same]
      rcases List.mem_append.mp member with earlier | new
      · exact relaying.exitcodes other event earlier
      · cases List.mem_singleton.mp new
        exact absurd rfl same
  · refine List.pairwise_append.mpr
      ⟨relaying.last, List.pairwise_singleton _ _, ?_⟩
    intro first _ later new other exitcode event _ isEvent
    subst isEvent
    cases List.mem_singleton.mp new

theorem Relaying.processWaitpid
    (free : ∀ pid, ∀ pickle ∈ pickles pid, TagFree pickle) {status : WaitStatus}
    {pieces : List Bytes} (alive : (relay.states pid).exitcode = none)
    (there : pieces.flatten = unread pickles relay pid) :
    Relaying pickles (relay.processWaitpid dumps pid status pieces) := by
  obtain ⟨closed, states, taken, written⟩ := relaying.close free alive there
  have reaped := closed.reap (taken.trans (congrFun written pid).symm) status
    (exitcodeStart ++ (dumps pid status.status ++ exitcodeEnd))
  unfold Relay.processWaitpid
  dsimp only
  split_ifs
  · exact closed
  · exact reaped

theorem Relaying.step (free : ∀ pid, ∀ pickle ∈ pickles pid, TagFree pickle)
    {action : RelayAction Pid}
    {next : Relay Pid} (step : Step pickles dumps relay action next) :
    Relaying pickles next := by
  cases step with
  | runtask _ unstarted => exact relaying.move (unstarted ▸ rfl) rfl
  | @write pid bytes running room =>
      refine relaying.progress ?_ ?_ (fun _ => rfl) ?_
      · intro other
        by_cases same : other = pid
        · subst same
          simp
        · rw [Function.update_of_ne same]
      · intro other
        by_cases same : other = pid
        · subst same
          simpa using room
        · rw [Function.update_of_ne same]
          exact relaying.written other
      · intro other reaped
        have different : other ≠ pid := by
          rintro rfl
          exact reaped (running ▸ rfl)
        exact Function.update_of_ne different _ _
  | exit running => exact relaying.move (running ▸ rfl) rfl
  | read _ _ alive =>
      exact (relaying.read free alive (List.take_prefix _ _)).1
  | waitpid _ ended there =>
      exact relaying.processWaitpid free (ended ▸ rfl) there

theorem Relaying.relays :
    Relays pickles relay where
  asserted := relaying.asserted
  ordered := fun pid => by
    obtain ⟨done, later, cut⟩ := relaying.cut pid
    rw [cut.events, frames, cut.split, List.map_append]
    exact List.prefix_append _ _
  complete := fun pid msg member => by
    obtain ⟨done, later, cut⟩ := relaying.cut pid
    have reaped := relaying.exitcodes pid msg member
    have length := congrArg List.length cut.bytes
    have within := relaying.written pid
    rw [List.length_take, List.length_append, relaying.reaped pid reaped,
      Nat.min_eq_left within] at length
    have short : ∀ next ∈ (later.map eventFrame).head?,
        (relay.queues pid).length < next.length := by
      intro next member
      rw [List.head?_map] at member
      obtain ⟨pickle, first, rfl⟩ := Option.map_eq_some_iff.mp member
      exact cut.short pickle first
    rw [cut.events, length, frames, cut.split, List.map_append,
      wholeFrames_eq short]
  last := relaying.last

omit relaying

/-- Every event that was put has passed the assertion. -/
def PutsTagFree (relay : Relay Pid) : Prop :=
  ∀ pid msg, .event pid msg ∈ relay.workerQueue →
    ∃ pickle, msg = eventFrame pickle ∧ TagFree pickle

theorem PutsTagFree.read (puts : PutsTagFree relay) (bytes : Bytes) :
    PutsTagFree (relay.read pid bytes) := by
  unfold Relay.read
  split_ifs
  · exact puts
  · intro other msg member
    rcases List.mem_append.mp member with earlier | new
    · exact puts other msg earlier
    · obtain ⟨_, relayed, same⟩ := List.mem_map.mp new
      cases same
      exact tagFree_of_relayed relayed

variable (status : WaitStatus) (pieces : List Bytes)

theorem PutsTagFree.processWaitpid (puts : PutsTagFree relay) :
    PutsTagFree (relay.processWaitpid dumps pid status pieces) := by
  have closed : PutsTagFree (relay.close pid pieces) :=
    List.foldlRecOn (motive := PutsTagFree) _ _ puts
      fun _ soFar piece _ => soFar.read piece
  unfold Relay.processWaitpid
  dsimp only
  split_ifs
  · exact closed
  · intro other msg member
    rcases List.mem_append.mp member with earlier | new
    · exact closed other msg earlier
    · cases List.mem_singleton.mp new

theorem putsTagFree_of_reachable
    (reached : Reachable (· = started) (Step pickles dumps)
      (fun _ _ => True) relay) : PutsTagFree relay := by
  refine reached.invariant ?_ ?_
  · rintro _ rfl pid msg member
    simp [started] at member
  · intro relay action next puts _ step
    cases step with
    | runtask => exact puts
    | write => exact puts
    | exit => exact puts
    | read => exact puts.read _
    | waitpid => exact puts.processWaitpid _ _

theorem processWaitpid_written :
    (relay.processWaitpid dumps pid status pieces).written = relay.written := by
  have closed : (relay.close pid pieces).written = relay.written := by
    refine List.foldlRecOn (motive := fun after : Relay Pid =>
      after.written = relay.written) _ _ rfl fun after soFar piece _ => ?_
    unfold Relay.read
    split_ifs <;> exact soFar
  unfold Relay.processWaitpid
  dsimp only
  split_ifs <;> exact closed

theorem processWaitpid_exitcode
    (asserted : (relay.processWaitpid dumps pid status pieces).failed = false) :
    ∃ msg, .exitcode pid msg ∈
      (relay.processWaitpid dumps pid status pieces).workerQueue := by
  unfold Relay.processWaitpid at asserted ⊢
  dsimp only at asserted ⊢
  split_ifs at asserted ⊢ with failed
  · rw [failed] at asserted
    cases asserted
  · exact ⟨_, List.mem_append_right _ (List.mem_singleton_self _)⟩

theorem exists_ended (pickles : Pid → List Bytes) (dumps : Pid → ℕ → Bytes)
    (pid : Pid) :
    ∃ relay, Reachable (· = started) (Step pickles dumps) (fun _ _ => True)
        relay ∧ relay.failed = false ∧
      relay.states pid = .ended (.exited 0) ∧
      relay.written pid = (frames pickles pid).flatten.length := by
  have begun : Step pickles dumps started (.runtask pid) _ := .runtask rfl rfl
  have wrote : Step pickles dumps
      { (started : Relay Pid) with
        states := Function.update started.states pid .running }
      (.write pid (frames pickles pid).flatten.length) _ :=
    .write (Function.update_self ..) (Nat.zero_add _).le
  have ended : Step pickles dumps
      { (started : Relay Pid) with
        states := Function.update started.states pid .running
        written := Function.update started.written pid
          (0 + (frames pickles pid).flatten.length) }
      (.exit pid (.exited 0)) _ :=
    .exit (Function.update_self ..)
  refine ⟨_, .step (.step (.step (.start rfl) trivial begun) trivial wrote)
    trivial ended, rfl, Function.update_self .., ?_⟩
  simp

theorem tagFree_of_relays {pickles : Pid → List Bytes} {dumps : Pid → ℕ → Bytes}
    (relays : ∀ relay, Reachable (· = started) (Step pickles dumps)
      (fun _ _ => True) relay → Relays pickles relay) :
    ∀ pid, ∀ pickle ∈ pickles pid, TagFree pickle := by
  intro pid pickle member
  obtain ⟨before, ran, asserted, ended, written⟩ :=
    exists_ended pickles dumps pid
  have waited : Step pickles dumps before
      (.waitpid pid [unread pickles before pid]) _ :=
    .waitpid asserted ended (List.append_nil _)
  have reached := Reachable.step ran trivial waited
  have relayed := relays _ reached
  obtain ⟨msg, put⟩ := processWaitpid_exitcode _ _ relayed.asserted
  have events := relayed.complete pid msg put
  have whole : wholeFrames (frames pickles pid)
      (frames pickles pid).flatten.length = frames pickles pid := by
    have nothing : ∀ next ∈ ([] : List Bytes).head?, 0 < next.length := by
      simp
    have all : wholeFrames (frames pickles pid ++ [])
        ((frames pickles pid).flatten.length + 0) = frames pickles pid :=
      wholeFrames_eq nothing
    rwa [List.append_nil] at all
  rw [processWaitpid_written, written, whole] at events
  have sent : eventFrame pickle ∈ frames pickles pid :=
    List.mem_map_of_mem member
  rw [← events] at sent
  obtain ⟨entry, queued, same⟩ := List.mem_filterMap.mp sent
  cases entry with
  | exitcode => simp [Put.eventOf] at same
  | event sender frame =>
      simp only [Put.eventOf, Option.ite_none_right_eq_some,
        Option.some.injEq] at same
      obtain ⟨rfl, rfl⟩ := same
      obtain ⟨other, frames, free⟩ :=
        putsTagFree_of_reachable reached sender _ queued
      have pickles : pickle = other :=
        List.append_cancel_right (List.append_cancel_left frames)
      exact pickles ▸ free

/-- The worker relays all events of all tasks in every run if and only if no
pickle has one of the two tags of an event in it. -/
theorem relays_iff_tagFree (pickles : Pid → List Bytes)
    (dumps : Pid → ℕ → Bytes) :
    (∀ relay, Reachable (· = started) (Step pickles dumps) (fun _ _ => True)
        relay → Relays pickles relay) ↔
      ∀ pid, ∀ pickle ∈ pickles pid, TagFree pickle := by
  constructor
  · exact tagFree_of_relays
  · intro free relay reached
    have relaying : Relaying pickles relay := by
      refine reached.invariant ?_ fun _ _ _ relaying _ step =>
        relaying.step free step
      rintro _ rfl
      exact started_relaying pickles
    exact relaying.relays

/-- The pickle of the text `</event>`. -/
def endTagPickle : Bytes :=
  [128, 4, 149, 12, 0, 0, 0, 0, 0, 0, 0, 140, 8] ++ ascii "</event>" ++
    [148, 46]

theorem not_relays_endTag :
    ¬ ∀ relay, Reachable (· = started)
        (Step (fun _ : Unit => [endTagPickle]) fun _ _ => [])
        (fun _ _ => True) relay →
      Relays (fun _ => [endTagPickle]) relay := by
  intro relays
  have free := tagFree_of_relays relays () endTagPickle
    (List.mem_singleton_self _)
  apply free.stop
  exact ⟨[128, 4, 149, 12, 0, 0, 0, 0, 0, 0, 0, 140, 8], [148, 46], by decide⟩

end Relay

end Nvbmc.WorkerPipe
