import Nvbmc.Events.ClassHandlers
import Nvbmc.Library.Runs
import Nvbmc.Library.StackMachine

/-!
# Events for the UI

Events that cannot be sent are queued: those from before the main UI has
registered, and those that are fired while another event is being sent.  The
queue is emptied in two places, by the loop of `fire` over its elements and by
the loop at the end of `fire_ui_handlers`, which takes them from its end.
-/

namespace Nvbmc.Events.Ui

open Nvbmc.Library

/-- What comes of an event at one UI handler. -/
structure Reaction (Call : Type) where
  /-- The filter lets the event through to the handler. -/
  accepted : Bool
  calls : List Call
  /-- The filter or the handler raises. -/
  failed : Bool

/-- The calls.  A call of `fire` stands where `fire_class_handlers` has
returned: the events that class handlers fire are calls of their own before it,
and there is none when a class handler raises. -/
inductive Call where
  | registerUIHandler (mainui : Bool)
  | unregisterUIHandler (handlerNum : ℕ) (mainui : Bool)
  | fire (event : ℕ → Reaction Call)
  | fireFromWorker (event : ℕ → Reaction Call)

/-- An event as the UI handlers take it. -/
abbrev Event := ℕ → Reaction Call

/-- An event and the number of its call. -/
abbrev Item := Event × ℕ

/-- What the UI handlers are concerned with, in the order in which it happens.
-/
inductive Happening where
  | registered (handler : ℕ)
  | unregistered (handler : ℕ)
  | sending (item : Item)

/-- The module variables about the UI, and behind these a record of the run. -/
structure State where
  uiready : Bool
  threadLock : Bool
  uiHandlerSeq : ℕ
  uiHandlers : List ℕ
  uiQueue : List Item
  /-- The events in the order of their calls. -/
  fired : List Event
  history : List Happening
  sent : List (Item × ℕ)

def State.initial : State := ⟨false, false, 0, [], [], [], [], []⟩

inductive Frame where
  | call (call : Call)
  /-- The loop of `fire` over the queue, at an index. -/
  | queueLoop (index : ℕ)
  | fireUiHandlers (item : Item)
  /-- The loop over the UI handlers. -/
  | send (item : Item) (handlers errors : List ℕ)
  /-- The loop at the end of `fire_ui_handlers`. -/
  | popLoop

/-- `register_UIHhandler` with the lock. -/
def State.register (s : State) (mainui : Bool) : State :=
  { s with
    uiHandlerSeq := s.uiHandlerSeq + 1
    uiHandlers := s.uiHandlers ++ [s.uiHandlerSeq + 1]
    uiready := s.uiready || mainui
    history := s.history ++ [.registered (s.uiHandlerSeq + 1)] }

/-- `unregister_UIHhandler` with the lock. -/
def State.unregister (s : State) (handlerNum : ℕ) : State :=
  { s with
    uiHandlers := s.uiHandlers.erase handlerNum
    history := s.history ++ [.unregistered handlerNum] }

/-- A handler gets an event when its filter accepts it. -/
def State.sendTo (s : State) (item : Item) (handler : ℕ) : State :=
  { s with
    sent := s.sent ++ if (item.1 handler).accepted then [(item, handler)]
      else [] }

/-- One step of the calls that are being executed. -/
def step (frame : Frame) (s : State) : List Frame × State :=
  match frame with
  | .call (.registerUIHandler mainui) =>
      -- Whoever holds the lock waits here until the process exits.
      if s.threadLock then ([frame], s) else ([], s.register mainui)
  | .call (.unregisterUIHandler handlerNum mainui) =>
      let s := { s with uiready := s.uiready && !mainui }
      if s.threadLock then ([frame], s) else ([], s.unregister handlerNum)
  | .call (.fire event) =>
      let item := (event, s.fired.length)
      let frames :=
        if s.uiready ∧ s.uiQueue ≠ [] then
          [.queueLoop 0, .fireUiHandlers item]
        else [.fireUiHandlers item]
      (frames, { s with fired := s.fired ++ [event] })
  | .call (.fireFromWorker event) =>
      let item := (event, s.fired.length)
      ([.fireUiHandlers item], { s with fired := s.fired ++ [event] })
  | .queueLoop index =>
      match s.uiQueue[index]? with
      | some item => ([.fireUiHandlers item, .queueLoop (index + 1)], s)
      | none => ([], { s with uiQueue := [] })
  | .fireUiHandlers item =>
      if ¬ s.uiready ∨ s.threadLock then
        ([], { s with uiQueue := s.uiQueue ++ [item] })
      else
        ([.send item s.uiHandlers [], .popLoop], { s with
          threadLock := true
          history := s.history ++ [.sending item] })
  | .send item (handler :: handlers) errors =>
      let reaction := item.1 handler
      let errors := if reaction.failed then errors ++ [handler] else errors
      (reaction.calls.map .call ++ [.send item handlers errors],
        s.sendTo item handler)
  | .send _ [] errors =>
      ([], { s with
        uiHandlers := s.uiHandlers.filter (· ∉ errors)
        threadLock := false })
  | .popLoop =>
      match s.uiQueue.getLast? with
      | some item =>
          ([.fireUiHandlers item, .popLoop],
            { s with uiQueue := s.uiQueue.dropLast })
      | none => ([], s)

/-- The states between calls that are made one after another, each in a state in
which it is allowed. -/
abbrev Run (allowed : State → Call → Prop) : State → Prop :=
  Reachable (· = .initial)
    (fun s call after => Returns step [.call call] s after) allowed

/-- UI handlers that get every event at once. -/
structure Receivers where
  handlers : List ℕ
  sent : List (Item × ℕ)

/-- An event goes to all handlers that accept it, and those that fail are
removed. -/
def Receivers.next (receivers : Receivers) : Happening → Receivers
  | .registered handler =>
      { receivers with handlers := receivers.handlers ++ [handler] }
  | .unregistered handler =>
      { receivers with handlers := receivers.handlers.erase handler }
  | .sending item =>
      { handlers := receivers.handlers.filter fun handler =>
          ¬ (item.1 handler).failed
        sent := receivers.sent ++ (receivers.handlers.filter fun handler =>
          (item.1 handler).accepted).map (item, ·) }

/-- The event that is sent. -/
def Happening.item? : Happening → Option Item
  | .sending item => some item
  | _ => none

/-- All events but those in the queue have been sent, once and in the order of
the calls. -/
structure Delivered (s : State) : Prop where
  ordered : s.history.filterMap Happening.item? ++ s.uiQueue = s.fired.zipIdx
  received : s.history.foldl Receivers.next ⟨[], []⟩ = ⟨s.uiHandlers, s.sent⟩

def Call.event? : Call → Option Event
  | .fire event => some event
  | .fireFromWorker event => some event
  | _ => none

/-- Events are delivered in all runs of allowed calls. -/
structure Delivers (allowed : State → Call → Prop) : Prop where
  delivered : ∀ s, Run allowed s → Delivered s
  returns : ∀ s call, Run allowed s → allowed s call →
    ∃ after, Returns step [.call call] s after
  empties : ∀ s call after, Run allowed s → allowed s call →
    call.event?.isSome →
    Returns step [.call call] s after → after.uiready → after.uiQueue = []

def nested (handlers : List ℕ) (event : Event) : List Event :=
  handlers.flatMap fun handler => (event handler).calls.filterMap Call.event?

/-- While the event is sent, and while those fired then are sent, no UI handler
registers and at most one event is fired. -/
inductive Calm : List ℕ → Event → Prop where
  | sent {handlers : List ℕ} {event : Event}
      (still : ∀ handler ∈ handlers, ∀ call ∈ (event handler).calls,
        call.event?.isSome)
      (few : (nested handlers event).length ≤ 1)
      (next : ∀ later ∈ nested handlers event,
        Calm (handlers.filter fun handler => ¬ (event handler).failed) later) :
      Calm handlers event

/-- With the UI ready nothing is queued when a call is made, and its event is
sent calmly. -/
def Undisturbed (s : State) (call : Call) : Prop :=
  ∀ event ∈ call.event?, s.uiready →
    s.uiQueue = [] ∧ Calm s.uiHandlers event

section Sending

variable {s : State} {item : Item} {event : Event}

/-- The state after calls that come while an event is sent. -/
def State.queueing (s : State) (events : List Event) : State :=
  { s with
    uiQueue := s.uiQueue ++ events.zipIdx s.fired.length
    fired := s.fired ++ events }

theorem queueing_nil : s.queueing [] = s := by
  simp [State.queueing]

theorem queueing_queueing (first second : List Event) :
    (s.queueing first).queueing second = s.queueing (first ++ second) := by
  simp [State.queueing, List.zipIdx_append, Nat.add_comm]

theorem queueing_cons (events : List Event) :
    (s.queueing [event]).queueing events = s.queueing (event :: events) :=
  queueing_queueing [event] events

theorem returns_call (locked : s.threadLock = true) {call : Call}
    (fires : call.event? = some event) (empty : s.uiQueue = []) :
    Returns step [.call call] s (s.queueing [event]) := by
  have queued : Returns step [.fireUiHandlers (event, s.fired.length)]
      { s with fired := s.fired ++ [event] } (s.queueing [event]) := by
    refine returns_frame ?_ (returns_nil _)
    simp only [step, locked, or_true, if_true, State.queueing,
      List.zipIdx_singleton]
  cases call with
  | registerUIHandler mainui => cases fires
  | unregisterUIHandler handlerNum mainui => cases fires
  | fire event' =>
      cases fires
      refine returns_frame ?_ queued
      simp [step, empty]
  | fireFromWorker event' =>
      cases fires
      exact returns_frame rfl queued

theorem returns_calls (locked : s.threadLock = true) {calls : List Call}
    (still : ∀ call ∈ calls, call.event?.isSome)
    (few : s.uiQueue.length + (calls.filterMap Call.event?).length ≤ 1) :
    Returns step (calls.map .call) s
      (s.queueing (calls.filterMap Call.event?)) := by
  induction calls generalizing s with
  | nil =>
      rw [List.filterMap_nil, queueing_nil]
      exact returns_nil s
  | cons call calls induction =>
      obtain ⟨event, fires⟩ := Option.isSome_iff_exists.mp
        (still call List.mem_cons_self)
      rw [List.filterMap_cons_some fires, List.length_cons] at few
      have empty : s.uiQueue = [] := List.length_eq_zero_iff.mp (by omega)
      rw [List.filterMap_cons_some fires, List.map_cons, ← queueing_cons]
      refine (returns_call locked fires empty).cons (induction locked ?_ ?_)
      · exact fun later member => still later (List.mem_cons_of_mem _ member)
      · simp only [State.queueing, List.length_append, List.length_zipIdx,
          List.length_singleton]
        omega

theorem nested_cons (handler : ℕ) (handlers : List ℕ) :
    nested (handler :: handlers) event =
      (event handler).calls.filterMap Call.event? ++ nested handlers event :=
  List.flatMap_cons ..

/-- The state behind the loop over the handlers. -/
def State.afterSend (s : State) (item : Item) (handlers errors : List ℕ) :
    State :=
  { s.queueing (nested handlers item.1) with
    uiHandlers := s.uiHandlers.filter (· ∉ errors ++
      handlers.filter fun handler => (item.1 handler).failed)
    sent := s.sent ++ (handlers.filter fun handler =>
      (item.1 handler).accepted).map (item, ·)
    threadLock := false }

theorem afterSend_cons (handler : ℕ) (handlers errors : List ℕ) :
    s.afterSend item (handler :: handlers) errors =
      ((s.sendTo item handler).queueing
        ((item.1 handler).calls.filterMap Call.event?)).afterSend item handlers
          (if (item.1 handler).failed then errors ++ [handler]
           else errors) := by
  simp only [State.afterSend, queueing_queueing, nested_cons]
  congr 1
  · cases failed : (item.1 handler).failed <;>
      simp [failed, State.sendTo, State.queueing]
  · cases accepted : (item.1 handler).accepted <;>
      simp [accepted, State.sendTo, State.queueing]

theorem returns_send (locked : s.threadLock = true) {handlers : List ℕ}
    (errors : List ℕ)
    (still : ∀ handler ∈ handlers, ∀ call ∈ (item.1 handler).calls,
      call.event?.isSome)
    (few : s.uiQueue.length + (nested handlers item.1).length ≤ 1) :
    Returns step [.send item handlers errors] s
      (s.afterSend item handlers errors) := by
  induction handlers generalizing s errors with
  | nil =>
      refine returns_frame ?_ (returns_nil _)
      simp [step, nested, State.queueing, State.afterSend]
  | cons handler handlers induction =>
      rw [nested_cons, List.length_append] at few
      rw [afterSend_cons]
      have held : (s.sendTo item handler).threadLock = true := locked
      have calls : Returns step ((item.1 handler).calls.map .call)
          (s.sendTo item handler) ((s.sendTo item handler).queueing
            ((item.1 handler).calls.filterMap Call.event?)) := by
        refine returns_calls held (still handler List.mem_cons_self) ?_
        simp only [State.sendTo]
        omega
      have after : ((s.sendTo item handler).queueing
          ((item.1 handler).calls.filterMap Call.event?)).threadLock = true :=
        locked
      refine returns_frame rfl (calls.append (induction after _ ?_ ?_))
      · exact fun other member => still other (List.mem_cons_of_mem _ member)
      · simp only [State.queueing, State.sendTo, List.length_append,
          List.length_zipIdx]
        omega

/-- Everything is delivered but an event that is about to be sent. -/
structure Awaiting (s : State) (item : Item) : Prop where
  unlocked : s.threadLock = false
  ready : s.uiready = true
  empty : s.uiQueue = []
  ordered : s.history.filterMap Happening.item? ++ [item] = s.fired.zipIdx
  received : s.history.foldl Receivers.next ⟨[], []⟩ = ⟨s.uiHandlers, s.sent⟩

/-- Everything is delivered and nobody is sending. -/
structure Idle (s : State) : Prop extends Delivered s where
  unlocked : s.threadLock = false

theorem filter_errors (handlers : List ℕ) :
    handlers.filter
      (· ∉ handlers.filter fun handler => (event handler).failed) =
      handlers.filter fun handler => ¬ (event handler).failed := by
  apply List.filter_congr
  intro handler member
  simp [member]

/-- The lock is taken and the event is sent to all handlers. -/
def State.sending (s : State) (item : Item) : State :=
  { s with
    threadLock := true
    history := s.history ++ [.sending item] }

theorem Awaiting.delivered (awaiting : Awaiting s item) :
    Delivered ((s.sending item).afterSend item s.uiHandlers []) := by
  constructor
  · simp only [State.afterSend, State.queueing, State.sending, awaiting.empty,
      List.nil_append, List.filterMap_append, List.zipIdx_append,
      ← awaiting.ordered]
    simp [Happening.item?]
  · simp only [State.afterSend, State.queueing, State.sending,
      List.foldl_append,
      awaiting.received, List.foldl_cons, List.foldl_nil, Receivers.next,
      List.nil_append, filter_errors]

theorem returns_popLoop (empty : s.uiQueue = []) :
    Returns step [.popLoop] s s := by
  refine returns_frame ?_ (returns_nil s)
  simp [step, empty]

theorem Awaiting.returns {number : ℕ} (awaiting : Awaiting s (event, number))
    (calm : Calm s.uiHandlers event) :
    ∃ after, Returns step [.fireUiHandlers (event, number)] s after ∧
      Idle after ∧ after.uiready = true ∧ after.uiQueue = [] := by
  generalize same : s.uiHandlers = handlers at calm
  induction calm generalizing s number with
  | @sent handlers event still few _ induction =>
      let item : Item := (event, number)
      let sent := (s.sending item).afterSend item handlers []
      have delivered : Delivered sent := by
        have := awaiting.delivered
        rwa [same] at this
      have starts : step (.fireUiHandlers item) s =
          ([.send item handlers [], .popLoop], s.sending item) := by
        simp [step, awaiting.ready, awaiting.unlocked, State.sending, same]
      have empty : (s.sending item).uiQueue = [] := awaiting.empty
      have loop : Returns step [.send item handlers []] (s.sending item)
          sent := by
        apply returns_send rfl [] still
        rw [empty]
        simpa using few
      have queue : sent.uiQueue =
          (nested handlers event).zipIdx s.fired.length := by
        simp [sent, State.afterSend, State.queueing, awaiting.empty,
          State.sending, item]
      match later : nested handlers event with
      | [] =>
          rw [later] at queue
          exact ⟨sent,
            returns_frame starts (loop.append (returns_popLoop queue)),
            ⟨delivered, rfl⟩, awaiting.ready, queue⟩
      | [next] =>
          rw [later, List.zipIdx_singleton] at queue
          let popped := { sent with uiQueue := [] }
          have pops : step .popLoop sent =
              ([.fireUiHandlers (next, s.fired.length), .popLoop], popped) := by
            simp [step, queue, popped]
          have waiting : Awaiting popped (next, s.fired.length) := by
            refine ⟨rfl, awaiting.ready, rfl, ?_, delivered.received⟩
            rw [← queue]
            exact delivered.ordered
          have left : popped.uiHandlers = handlers.filter fun handler =>
              ¬ (event handler).failed := by
            simp only [popped, sent, State.afterSend, State.sending, same,
              List.nil_append, item, filter_errors]
          obtain ⟨after, returns, idle, ready, none⟩ :=
            induction next (by simp [later]) waiting left
          refine ⟨after, returns_frame starts (loop.append (returns_frame pops
            (returns.cons (returns_popLoop none)))), idle, ready, none⟩
      | _ :: _ :: _ => simp [later] at few

end Sending

section Runs

variable {s : State} {call : Call}

theorem Idle.fires (idle : Idle s) {event : Event}
    (fires : call.event? = some event) (undisturbed : Undisturbed s call) :
    ∃ after, Returns step [.call call] s after ∧ Idle after ∧
      (after.uiready → after.uiQueue = []) := by
  let item : Item := (event, s.fired.length)
  let called := { s with fired := s.fired ++ [event] }
  have sends : ∃ after, Returns step [.fireUiHandlers item] called after ∧
      Idle after ∧ (after.uiready → after.uiQueue = []) := by
    by_cases ready : s.uiready
    · obtain ⟨empty, calm⟩ := undisturbed event fires ready
      have awaiting : Awaiting called item := by
        refine ⟨idle.unlocked, ready, empty, ?_, idle.received⟩
        have ordered := idle.ordered
        rw [empty, List.append_nil] at ordered
        simp [called, item, List.zipIdx_append, ordered]
      obtain ⟨after, returns, sent, _, drained⟩ := awaiting.returns calm
      exact ⟨after, returns, sent, fun _ => drained⟩
    · refine ⟨{ called with uiQueue := s.uiQueue ++ [item] },
        returns_frame ?_ (returns_nil _), ⟨⟨?_, idle.received⟩,
        idle.unlocked⟩, fun later => absurd later ready⟩
      · simp [step, called, ready]
      · simp [called, item, List.zipIdx_append, ← idle.ordered]
  obtain ⟨after, returns, result⟩ := sends
  refine ⟨after, ?_, result⟩
  cases call with
  | registerUIHandler mainui => cases fires
  | unregisterUIHandler handlerNum mainui => cases fires
  | fire event' =>
      cases fires
      have loops : ¬ (s.uiready ∧ s.uiQueue ≠ []) := fun ⟨ready, queued⟩ =>
        queued (undisturbed event rfl ready).1
      refine returns_frame ?_ returns
      simp only [step, if_neg loops]
      rfl
  | fireFromWorker event' =>
      cases fires
      exact returns_frame rfl returns

theorem Idle.registers (idle : Idle s) (silent : call.event? = none) :
    ∃ after, Returns step [.call call] s after ∧ Idle after := by
  have free := idle.unlocked
  cases call with
  | registerUIHandler mainui =>
      refine ⟨s.register mainui, returns_frame ?_ (returns_nil _), ?_⟩
      · simp [step, free]
      · refine ⟨⟨?_, ?_⟩, free⟩
        · simp [State.register, Happening.item?, ← idle.ordered]
        · simp [State.register, idle.received, Receivers.next]
  | unregisterUIHandler handlerNum mainui =>
      let unready := { s with uiready := s.uiready && !mainui }
      refine ⟨unready.unregister handlerNum,
        returns_frame ?_ (returns_nil _), ?_⟩
      · simp [step, free, unready]
      · refine ⟨⟨?_, ?_⟩, free⟩
        · simp [State.unregister, unready, Happening.item?, ← idle.ordered]
        · simp [State.unregister, unready, idle.received, Receivers.next]
  | fire event => cases silent
  | fireFromWorker event => cases silent

theorem Idle.returns (idle : Idle s) (undisturbed : Undisturbed s call) :
    ∃ after, Returns step [.call call] s after ∧ Idle after ∧
      (call.event?.isSome → after.uiready → after.uiQueue = []) := by
  match fires : call.event? with
  | some event =>
      obtain ⟨after, returns, idle, empties⟩ := idle.fires fires undisturbed
      exact ⟨after, returns, idle, fun _ => empties⟩
  | none =>
      obtain ⟨after, returns, idle⟩ := idle.registers fires
      exact ⟨after, returns, idle, by simp⟩

variable {allowed : State → Call → Prop}

theorem Run.idle (undisturbed : ∀ s call, allowed s call → Undisturbed s call)
    (run : Run allowed s) : Idle s := by
  refine run.invariant ?_ ?_
  · rintro _ rfl
    exact ⟨⟨rfl, rfl⟩, rfl⟩
  · intro s call after idle permitted returns
    obtain ⟨after', returns', idle, _⟩ :=
      idle.returns (undisturbed s call permitted)
    rwa [returns.unique returns']

/-- Undisturbed calls deliver every event. -/
theorem delivers_of_undisturbed
    (undisturbed : ∀ s call, allowed s call → Undisturbed s call) :
    Delivers allowed := by
  constructor
  · exact fun s run => (Run.idle undisturbed run).toDelivered
  · intro s call run permitted
    obtain ⟨after, returns, _⟩ := (Run.idle undisturbed run).returns
      (undisturbed s call permitted)
    exact ⟨after, returns⟩
  · intro s call after run permitted fires returns ready
    obtain ⟨after', returns', _, empties⟩ := (Run.idle undisturbed run).returns
      (undisturbed s call permitted)
    rw [returns.unique returns'] at ready ⊢
    exact empties fires ready

/-- An event that makes the main UI fire another one. -/
def outerEvent : Event :=
  fun _ => ⟨true, [.fire fun _ => ⟨true, [], false⟩], false⟩

theorem delivers_outerEvent :
    ∃ after, Delivered after ∧
      Returns step [.call (.fire outerEvent)] (State.initial.register true)
        after := by
  have delivers : Delivers Undisturbed := delivers_of_undisturbed fun _ _ => id
  have registers : Undisturbed .initial (.registerUIHandler true) := nofun
  have run : Run Undisturbed (State.initial.register true) :=
    .step (.start rfl) registers ⟨1, rfl⟩
  have undisturbed : Undisturbed (State.initial.register true)
      (.fire outerEvent) := by
    rintro _ ⟨⟩ _
    refine ⟨rfl, .sent ?_ (by decide) ?_⟩
    · simp [outerEvent, Call.event?]
    · intro later member
      obtain rfl := List.mem_singleton.mp member
      exact .sent (by simp) (by simp [nested]) (by simp [nested])
  obtain ⟨after, returns⟩ := delivers.returns _ _ run undisturbed
  exact ⟨after, delivers.delivered after (.step run undisturbed returns),
    returns⟩

end Runs

def afterCall (steps : ℕ) (call : Call) (s : State) : State :=
  ((stackStep step)^[steps] ([.call call], s)).2

theorem Run.afterCall {allowed : State → Call → Prop} {s : State}
    (run : Run allowed s) (steps : ℕ) {call : Call} (permitted : allowed s call)
    (ended : ((stackStep step)^[steps] ([.call call], s)).1 = []) :
    Run allowed (afterCall steps call s) :=
  .step run permitted ⟨steps, Prod.ext ended rfl⟩

/-- An event is fired, then the main UI registers, and another event is fired.
-/
def lateUi : State :=
  let event : Event := fun _ => ⟨true, [], false⟩
  afterCall 20 (.fire event)
    (afterCall 1 (.registerUIHandler true) (afterCall 2 (.fire event) .initial))

/-- The event from before the registration is sent twice. -/
theorem not_delivers_lateUi : ¬ Delivers fun _ _ => True := by
  intro delivers
  have run : Run (fun _ _ => True) lateUi := by
    refine Run.afterCall
      (Run.afterCall (Run.afterCall (.start rfl) 2 trivial ?_)
      1 trivial ?_) 20 trivial ?_
    all_goals rfl
  have lengths := congrArg List.length (delivers.delivered lateUi run).ordered
  exact absurd lengths (by decide)

end Nvbmc.Events.Ui
