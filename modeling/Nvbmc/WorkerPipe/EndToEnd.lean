import Mathlib.Data.Set.List
import Nvbmc.WorkerPipe.Delivery
import Nvbmc.WorkerPipe.Relay

/-!
# From the tasks to the server

The worker puts the events and the exit codes of its tasks on one queue, whose
bytes the server reads in any pieces.
-/

namespace Nvbmc.WorkerPipe

open Nvbmc.Library

variable {α Pid : Type} {objects : Objects α}

def Put.bytes : Put Pid → Bytes
  | event _ msg | exitcode _ msg => msg

def Put.ofFrame (objects : Objects α) : Pid × Frame α → Put Pid
  | (pid, .event object) => .event pid ((Frame.event object).encode objects)
  | (pid, .exitcode object) =>
      .exitcode pid ((Frame.exitcode object).encode objects)

/-- What the worker puts on its queue for an exit code. -/
def exitcodeFrame (pickle : Bytes) : Bytes :=
  exitcodeStart ++ (pickle ++ exitcodeEnd)

/-- The frame of an exit code of the task. -/
def Put.exitcodeOf [DecidableEq Pid] (pid : Pid) : Put Pid → Option Bytes
  | exitcode sender msg => if sender = pid then some msg else none
  | event _ _ => none

theorem Put.bytes_ofFrame (sent : Pid × Frame α) :
    (ofFrame objects sent).bytes = sent.2.encode objects := by
  obtain ⟨pid, _ | _⟩ := sent <;> rfl

theorem Objects.Lawful.injective (lawful : objects.Lawful)
    (start stop : Bytes) : Function.Injective
      ((fun pickle => start ++ (pickle ++ stop)) ∘ objects.dumps) := by
  intro first second same
  have read := lawful.complete first
  rw [List.append_cancel_right (List.append_cancel_left same),
    lawful.complete second] at read
  cases read
  rfl

namespace Relay

variable [DecidableEq Pid] {relay : Relay Pid} {pickles : Pid → List Bytes}
  {dumps : Pid → ℕ → Bytes}

def eventOf (pid : Pid) : Pid × Frame α → Option α
  | (sender, .event object) => if sender = pid then some object else none
  | (_, .exitcode _) => none

def exitcodeOf (pid : Pid) : Pid × Frame α → Option α
  | (sender, .exitcode object) => if sender = pid then some object else none
  | (_, .event _) => none

/-- Every task whose exit code was taken has it on the worker queue, once. -/
def ExitcodesOf (dumps : Pid → ℕ → Bytes) (relay : Relay Pid) : Prop :=
  ∀ pid, relay.workerQueue.filterMap (Put.exitcodeOf pid) =
    ((relay.states pid).exitcode.map
      fun status => exitcodeFrame (dumps pid status)).toList

theorem ExitcodesOf.read (codes : ExitcodesOf dumps relay) (pid : Pid)
    (bytes : Bytes) : ExitcodesOf dumps (relay.read pid bytes) ∧
      (relay.read pid bytes).states = relay.states := by
  unfold Relay.read
  split_ifs
  · exact ⟨codes, rfl⟩
  · refine ⟨fun other => ?_, rfl⟩
    rw [List.filterMap_append, codes other, List.filterMap_map,
      List.filterMap_eq_nil_iff.mpr, List.append_nil]
    exact fun _ _ => rfl

theorem ExitcodesOf.move (codes : ExitcodesOf dumps relay) {pid : Pid}
    {state : TaskState} (before : (relay.states pid).exitcode = none)
    (after : state.exitcode = none) :
    ExitcodesOf dumps
      { relay with states := Function.update relay.states pid state } := by
  intro other
  rw [codes other]
  dsimp only
  by_cases same : other = pid
  · rw [same, Function.update_self, before, after]
  · rw [Function.update_of_ne same]

theorem ExitcodesOf.processWaitpid (codes : ExitcodesOf dumps relay) {pid : Pid}
    (alive : (relay.states pid).exitcode = none) (status : WaitStatus)
    (pieces : List Bytes) :
    ExitcodesOf dumps (relay.processWaitpid dumps pid status pieces) := by
  obtain ⟨closed, states⟩ : ExitcodesOf dumps (relay.close pid pieces) ∧
      (relay.close pid pieces).states = relay.states :=
    List.foldlRecOn (motive := fun after : Relay Pid =>
        ExitcodesOf dumps after ∧ after.states = relay.states)
      _ _ ⟨codes, rfl⟩ fun _ soFar piece _ =>
        ⟨(soFar.1.read _ piece).1, (soFar.1.read _ piece).2.trans soFar.2⟩
  unfold Relay.processWaitpid
  dsimp only
  split_ifs
  · exact closed
  · intro other
    rw [List.filterMap_append, closed other, states]
    dsimp only
    by_cases same : other = pid
    · subst same
      rw [alive, Function.update_self]
      simp [Put.exitcodeOf, TaskState.exitcode, exitcodeFrame]
    · rw [Function.update_of_ne same]
      simp [Put.exitcodeOf, Ne.symm same]

theorem exitcodesOf_of_reachable (reached : Reachable (· = started)
      (Step pickles dumps) (fun _ _ => True) relay) :
    ExitcodesOf dumps relay := by
  refine reached.invariant ?_ ?_
  · rintro _ rfl pid
    rfl
  · intro relay action next codes _ step
    cases step with
    | runtask _ unstarted => exact codes.move (unstarted ▸ rfl) rfl
    | write => exact codes
    | exit running => exact codes.move (running ▸ rfl) rfl
    | read => exact (codes.read _ _).1
    | waitpid _ ended => exact codes.processWaitpid (ended ▸ rfl) _ _

/-- The server has handed on what stands on the worker queue: of every task its
events in order, and the exit code that was taken, once; no event behind it, and
with it all events that were wholly written. -/
structure Arrives (objects : Objects α) (tasks : Pid → List α)
    (result : Pid → ℕ → α) (fakerootlogs : Option (Dict Text Text))
    (relay : Relay Pid) (sent : List (Pid × Frame α)) (after : Pipe α) :
    Prop where
  queued : sent.map (Put.ofFrame objects) = relay.workerQueue
  ordered : ∀ pid, sent.filterMap (eventOf pid) <+: tasks pid
  coded : ∀ pid, sent.filterMap (exitcodeOf pid) =
    ((relay.states pid).exitcode.map (result pid)).toList
  complete : ∀ pid object, (pid, .exitcode object) ∈ sent →
    (sent.filterMap (eventOf pid)).map (eventFrame ∘ objects.dumps) =
      wholeFrames ((tasks pid).map (eventFrame ∘ objects.dumps))
        (relay.written pid)
  last : sent.Pairwise fun first later => ∀ pid exitcode event,
    first = (pid, .exitcode exitcode) → later ≠ (pid, .event event)
  delivered : AllDelivered objects (sent.map Prod.snd) fakerootlogs after

section Sent

variable {tasks : Pid → List α} {sent : List (Pid × Frame α)}
  (relays : Relays (fun pid => (tasks pid).map objects.dumps) relay)

theorem events_ofFrame (sent : List (Pid × Frame α)) (pid : Pid) :
    (sent.map (Put.ofFrame objects)).filterMap (Put.eventOf pid) =
      (sent.filterMap (eventOf pid)).map (eventFrame ∘ objects.dumps) := by
  rw [List.filterMap_map, List.map_filterMap]
  congr 1
  funext ⟨sender, frame⟩
  cases frame with
  | event object =>
      simp only [eventOf, Function.comp_apply, Put.ofFrame, Put.eventOf]
      split_ifs <;> rfl
  | exitcode object => rfl

theorem exitcodes_ofFrame (sent : List (Pid × Frame α)) (pid : Pid) :
    (sent.map (Put.ofFrame objects)).filterMap (Put.exitcodeOf pid) =
      (sent.filterMap (exitcodeOf pid)).map
        (exitcodeFrame ∘ objects.dumps) := by
  rw [List.filterMap_map, List.map_filterMap]
  congr 1
  funext ⟨sender, frame⟩
  cases frame with
  | event object => rfl
  | exitcode object =>
      simp only [exitcodeOf, Function.comp_apply, Put.ofFrame, Put.exitcodeOf]
      split_ifs <;> rfl

variable {result : Pid → ℕ → α}
  (codes : ExitcodesOf (fun pid status => objects.dumps (result pid status))
    relay)

include codes

theorem exitcodes_sent (lawful : objects.Lawful)
    (isSent : sent.map (Put.ofFrame objects) = relay.workerQueue) (pid : Pid) :
    sent.filterMap (exitcodeOf pid) =
      ((relay.states pid).exitcode.map (result pid)).toList := by
  have coded := codes pid
  rw [← isSent, exitcodes_ofFrame] at coded
  apply List.map_injective_iff.mpr (lawful.injective exitcodeStart exitcodeEnd)
  refine coded.trans ?_
  cases (relay.states pid).exitcode <;> rfl

include relays

theorem exists_sent :
    ∃ sent : List (Pid × Frame α),
      sent.map (Put.ofFrame objects) = relay.workerQueue := by
  rw [← Set.mem_range, Set.range_list_map]
  intro put member
  cases put with
  | event pid msg =>
      have among : msg ∈ relay.events pid :=
        List.mem_filterMap.mpr ⟨_, member, if_pos rfl⟩
      obtain ⟨pickle, isPickle, rfl⟩ :=
        List.mem_map.mp ((relays.ordered pid).subset among)
      obtain ⟨object, -, rfl⟩ := List.mem_map.mp isPickle
      exact ⟨(pid, .event object), rfl⟩
  | exitcode pid msg =>
      have among : msg ∈ relay.workerQueue.filterMap (Put.exitcodeOf pid) :=
        List.mem_filterMap.mpr ⟨_, member, if_pos rfl⟩
      rw [codes pid, Option.mem_toList, Option.map_eq_some_iff] at among
      obtain ⟨status, -, rfl⟩ := among
      exact ⟨(pid, .exitcode (result pid status)), rfl⟩

theorem arrives_of_relays (lawful : objects.Lawful)
    (isSent : sent.map (Put.ofFrame objects) = relay.workerQueue)
    {fakerootlogs : Option (Dict Text Text)} {after : Pipe α}
    (delivered : AllDelivered objects (sent.map Prod.snd) fakerootlogs after) :
    Arrives objects tasks result fakerootlogs relay sent after := by
  have written (pid : Pid) :
      frames (fun pid => (tasks pid).map objects.dumps) pid =
        (tasks pid).map (eventFrame ∘ objects.dumps) := List.map_map
  refine ⟨isSent, fun pid => ?_, exitcodes_sent codes lawful isSent,
    fun pid object member => ?_, ?_, delivered⟩
  · have ordered := relays.ordered pid
    rw [Relay.events, ← isSent, events_ofFrame, written] at ordered
    exact (List.prefix_map_iff_of_injective
      (lawful.injective eventStart eventEnd)).mp ordered
  · rw [← events_ofFrame, isSent, ← written]
    exact relays.complete pid _ (isSent ▸ List.mem_map_of_mem member)
  · have last := relays.last
    rw [← isSent, List.pairwise_map] at last
    refine last.imp ?_
    rintro _ _ before pid exitcode event rfl rfl
    exact before pid _ _ rfl rfl

end Sent

/-- Whatever the worker reads, and however the server reads what the worker has
put on its queue, the events and exit codes of the tasks arrive. -/
theorem relayed_arrives (lawful : objects.Lawful) (tasks : Pid → List α)
    (result : Pid → ℕ → α)
    (free : ∀ pid, ∀ object ∈ tasks pid, TagFree (objects.dumps object))
    (sound : ∀ pid status, (Frame.exitcode (result pid status)).Sound objects)
    (reached : Reachable (· = started)
      (Step (fun pid => (tasks pid).map objects.dumps)
        fun pid status => objects.dumps (result pid status))
      (fun _ _ => True) relay)
    (chunks : List Bytes)
    (stream : chunks.flatten = relay.workerQueue.flatMap Put.bytes)
    (fakerootlogs : Option (Dict Text Text)) :
    ∃ sent after,
      (Pipe.opened fakerootlogs).reads objects chunks = some after ∧
      Arrives objects tasks result fakerootlogs relay sent after := by
  have relaying :
      Relaying (fun pid => (tasks pid).map objects.dumps) relay := by
    refine reached.invariant ?_ fun _ _ _ relaying _ step =>
      relaying.step (fun pid => by simpa using free pid) step
    rintro _ rfl
    exact started_relaying _
  have codes := exitcodesOf_of_reachable reached
  obtain ⟨sent, isSent⟩ := exists_sent relaying.relays codes
  have bytes : chunks.flatten = encodeAll objects (sent.map Prod.snd) := by
    rw [stream, ← isSent, encodeAll, List.flatMap_map, List.flatMap_map]
    simp only [Put.bytes_ofFrame]
  have sound : ∀ frame ∈ sent.map Prod.snd, frame.Sound objects := by
    simp only [List.mem_map, Prod.exists, exists_eq_right]
    rintro (_ | object) ⟨pid, member⟩
    · trivial
    · have among : object ∈ sent.filterMap (exitcodeOf pid) :=
        List.mem_filterMap.mpr ⟨_, member, if_pos rfl⟩
      rw [exitcodes_sent codes lawful isSent, Option.mem_toList,
        Option.map_eq_some_iff] at among
      obtain ⟨status, -, rfl⟩ := among
      exact sound pid status
  obtain ⟨after, reads, delivered⟩ := exists_allDelivered lawful bytes sound
  exact ⟨sent, after, reads,
    arrives_of_relays relaying.relays codes lawful isSent delivered⟩

theorem relayed_arrives_zero :
    ∃ relay sent after, Arrives Sample.objects (fun _ : Unit => [.zero])
      (fun _ _ => .finished) none relay sent after := by
  obtain ⟨before, ran, asserted, ended, -⟩ :=
    exists_ended (fun _ : Unit => [Sample.zero].map Sample.objects.dumps)
      (fun _ _ => Sample.objects.dumps .finished) ()
  have reached := ran.step trivial
    (@Step.waitpid _ _ _ _ _ _ _ [_] asserted ended (List.append_nil _))
  obtain ⟨sent, after, -, arrives⟩ :=
    relayed_arrives Sample.objects_lawful (fun _ => [.zero])
      (fun _ _ => .finished) (by
        intro _ object member
        rw [List.mem_singleton.mp member]
        exact ⟨by decide, by decide⟩)
      (fun _ _ => ⟨by decide, _, _, rfl, by decide⟩) reached
      [_] (List.append_nil _) none
  exact ⟨_, sent, after, arrives⟩

end Relay

end Nvbmc.WorkerPipe
