import Nvbmc.Library.Numerals
import Nvbmc.WorkerPipe.Delivery

/-!
# Commands to a worker

`send_pickled_data` writes a command as a frame with a length.  `serve` collects
what it reads in a queue and tries the eight commands one after the other;
`handle_item` waits for about as many bytes as the length says and then ends the
payload at the first closing tag.
-/

namespace Nvbmc.WorkerPipe

open Nvbmc.Library

/-- The commands `serve` knows. -/
inductive Item where
  | cookerconfig
  | extraconfigdata
  | workerdata
  | newtaskhashes
  | runtask
  | finishnow
  | ping
  | quit
deriving DecidableEq, Repr

namespace Item

def name : Item → Bytes
  | cookerconfig => ascii "cookerconfig"
  | extraconfigdata => ascii "extraconfigdata"
  | workerdata => ascii "workerdata"
  | newtaskhashes => ascii "newtaskhashes"
  | runtask => ascii "runtask"
  | finishnow => ascii "finishnow"
  | ping => ascii "ping"
  | quit => ascii "quit"

/-- The order in which `serve` tries them. -/
def all : List Item :=
  [cookerconfig, extraconfigdata, workerdata, newtaskhashes, runtask, finishnow,
    ping, quit]

def openingTag (item : Item) : Bytes :=
  ascii "<" ++ item.name ++ ascii ">"

def closingTag (item : Item) : Bytes :=
  ascii "</" ++ item.name ++ ascii ">"

variable (item : Item)

theorem mem_all : item ∈ all := by
  cases item <;> simp [all]

theorem closingTag_length :
    item.closingTag.length = 2 + item.name.length + 1 := by
  have bracket : (ascii "</").length = 2 := by decide
  have close : (ascii ">").length = 1 := by decide
  simp only [closingTag, List.length_append, bracket, close]

theorem openingTag_length : item.openingTag.length = item.name.length + 2 := by
  have bracket : (ascii "<").length = 1 := by decide
  have close : (ascii ">").length = 1 := by decide
  simp only [openingTag, List.length_append, bracket, close]
  omega

theorem name_length : 4 ≤ item.name.length := by
  cases item <;> decide

theorem closingTag_disagrees :
    ∀ index < item.openingTag.length, ∃ offset < item.closingTag.length,
      index + offset < item.openingTag.length ∧
        item.openingTag[index + offset]? ≠ item.closingTag[offset]? := by
  cases item <;> decide

theorem closingTag_single :
    ∀ offset < item.closingTag.length, 0 < offset →
      item.closingTag[offset]? ≠ item.closingTag[0]? := by
  cases item <;> decide

theorem eq_of_openingTag_part {item other : Item}
    (part : item.openingTag <+: other.openingTag) : item = other := by
  cases item <;> cases other <;> first
    | rfl
    | exact absurd part (by decide)

theorem eq_of_openingTag {item other : Item} {bytes : Bytes}
    (begins : item.openingTag <+: bytes)
    (alsoBegins : other.openingTag <+: bytes) : item = other := by
  rcases List.prefix_or_prefix_of_prefix begins alsoBegins with part | part
  · exact eq_of_openingTag_part part
  · exact (eq_of_openingTag_part part).symm

end Item

/-- A command with its pickle. -/
structure Message where
  item : Item
  payload : Bytes
  fits : payload.length < 256 ^ 4

namespace Message

/-- What stands between the tags. -/
def body (message : Message) : Bytes :=
  toBytesBig 4 message.payload.length ++ message.payload

/-- `send_pickled_data`. -/
def send (message : Message) : Bytes :=
  message.item.openingTag ++ (message.body ++ message.item.closingTag)

def call (message : Message) : Item × Bytes :=
  (message.item, message.payload)

end Message

def sendAll (messages : List Message) : Bytes :=
  messages.flatMap Message.send

/-- A worker with the handlers it has called.  The handlers return, all but
`handle_quit`, which exits. -/
structure Worker where
  queue : Bytes
  calls : List (Item × Bytes)
  exited : Bool

namespace Worker

def started : Worker :=
  ⟨[], [], false⟩

/-- `func` is called on the bytes before the closing tag. -/
def call (worker : Worker) (item : Item) (index : ℕ) : Worker :=
  let data := (worker.queue.take index).drop (item.openingTag.length + 4)
  let calls := worker.calls ++ [(item, data)]
  if item = .quit then { worker with calls := calls, exited := true }
  else
    { worker with
      calls := calls
      queue := worker.queue.drop (index + (2 + item.name.length + 1)) }

/-- `handle_item`. -/
def handleItem (worker : Worker) (item : Item) : Worker :=
  let tagLen := item.openingTag.length
  if worker.exited then worker
  else if ¬ item.openingTag <+: worker.queue then worker
  else if worker.queue.length < tagLen + 4 then worker
  else
    let header := (worker.queue.take (tagLen + 4)).drop tagLen
    if worker.queue.length < tagLen * 2 + 1 + fromBytesBig header then worker
    else
      match find item.closingTag worker.queue 0 with
      | none => worker
      | some index => worker.call item index

/-- One round of `serve`, with the bytes it reads; none when the input is not
ready. -/
def round (worker : Worker) (bytes : Bytes) : Worker :=
  if worker.exited then worker
  else
    let worker := { worker with queue := worker.queue ++ bytes }
    if worker.queue = [] then worker else Item.all.foldl handleItem worker

def serve (worker : Worker) (pieces : List Bytes) : Worker :=
  pieces.foldl round worker

end Worker

/-- However the bytes of the messages are split into reads, the handlers are
called for the messages in order, each with the bytes that were sent and not
before its frame has arrived; every message is handled once all bytes are
read and `serve` has gone on for as many rounds as there are messages. -/
structure Delivers (messages : List Message) : Prop where
  ordered : ∀ pieces : List Bytes, pieces.flatten <+: sendAll messages →
    (Worker.started.serve pieces).calls <+: messages.map Message.call
  arrived : ∀ pieces : List Bytes, pieces.flatten <+: sendAll messages →
    sendAll (messages.take (Worker.started.serve pieces).calls.length) <+:
      pieces.flatten
  complete : ∀ pieces : List Bytes, pieces.flatten = sendAll messages →
    ((Worker.started.serve pieces).serve
        (List.replicate messages.length [])).calls =
      messages.map Message.call

/-- No payload, with its length before it, has the closing tag of its command
in it, and nothing is sent behind a `quit`. -/
structure Sendable (messages : List Message) : Prop where
  free : ∀ message ∈ messages, ¬ message.item.closingTag <:+: message.body
  last : ∀ message ∈ messages.dropLast, message.item ≠ .quit

/-- What a worker has taken for a frame: a command and the bytes up to the
first closing tag. -/
def rawFrame (frame : Item × Bytes) : Bytes :=
  frame.1.openingTag ++ (frame.2 ++ frame.1.closingTag)

/-- The bytes a worker has read are the frames it has called handlers for and
what is left on the queue. -/
structure Consumed (bytes : Bytes) (worker : Worker)
    (frames : List (Item × Bytes)) (left : Bytes) : Prop where
  calls : worker.calls = frames.map fun frame => (frame.1, frame.2.drop 4)
  free : ∀ frame ∈ frames, ¬ frame.1.closingTag <:+: frame.2
  split : bytes = frames.flatMap rawFrame ++ left
  queue : worker.exited = false → worker.queue = left

namespace Worker

/-- `handle_item` does nothing or calls the handler on the bytes in front of the
first closing tag. -/
theorem handleItem_cases (worker : Worker) (item : Item) :
    worker.handleItem item = worker ∨
      ∃ index, worker.exited = false ∧ item.openingTag <+: worker.queue ∧
        FoundAt item.closingTag worker.queue 0 index ∧
        worker.handleItem item = worker.call item index := by
  simp only [handleItem]
  split_ifs with exited begins header short
  · exact .inl rfl
  · exact .inl rfl
  · exact .inl rfl
  · split
    · exact .inl rfl
    · rename_i index found
      rw [Bool.not_eq_true] at exited
      exact .inr ⟨index, exited, begins, foundAt_of_find found, rfl⟩
  · exact .inl rfl

theorem call_calls (worker : Worker) (item : Item) (index : ℕ) :
    (worker.call item index).calls = worker.calls ++
      [(item, (worker.queue.take index).drop
        (item.openingTag.length + 4))] := by
  simp only [call]
  split_ifs <;> rfl

theorem exists_frame {item : Item} {queue : Bytes} {index : ℕ}
    (begins : item.openingTag <+: queue)
    (found : FoundAt item.closingTag queue 0 index) :
    ∃ body, queue = rawFrame (item, body) ++
        queue.drop (index + item.closingTag.length) ∧
      (queue.take index).drop (item.openingTag.length + 4) = body.drop 4 ∧
      ¬ item.closingTag <:+: body := by
  obtain ⟨behind, rfl⟩ := begins
  have after : item.openingTag.length ≤ index := by
    by_contra early
    exact not_occurs_header item.closingTag_disagrees
      (Nat.lt_of_not_le early) found.occurs
  have occurs := found.occurs.behind after
  set start := index - item.openingTag.length with startIs
  have position : index = item.openingTag.length + start := by omega
  refine ⟨behind.take start, ?_, ?_, ?_⟩
  · obtain ⟨rest, split⟩ := occurs
    have remaining : (item.openingTag ++ behind).drop
        (index + item.closingTag.length) = rest := by
      rw [position, Nat.add_assoc, List.drop_append, List.drop_of_length_le
        (by omega), List.nil_append, Nat.add_sub_cancel_left, ← List.drop_drop,
        ← split, List.drop_left]
    rw [remaining]
    simp only [rawFrame, List.append_assoc]
    rw [split, List.take_append_drop]
  · rw [position, List.take_append, List.take_of_length_le (by omega),
      Nat.add_sub_cancel_left, ← List.drop_drop, List.drop_left]
  · intro inside
    obtain ⟨earlier, fits, occurs⟩ := exists_occurs_of_isInfix inside
    have nonempty : 0 < item.closingTag.length := by
      rw [item.closingTag_length]
      omega
    have short := List.length_take_le start behind
    have early : item.openingTag.length + earlier < index := by omega
    exact found.first _ (Nat.zero_le _) early
      ((occurs.mono (List.take_prefix start behind)).ahead item.openingTag)

end Worker

namespace Consumed

variable {bytes piece left : Bytes} {worker : Worker}
  {frames : List (Item × Bytes)} (consumed : Consumed bytes worker frames left)
include consumed

theorem append :
    Consumed (bytes ++ piece) { worker with queue := worker.queue ++ piece }
      frames (left ++ piece) where
  calls := consumed.calls
  free := consumed.free
  split := by rw [consumed.split, List.append_assoc]
  queue := fun running => congrArg (· ++ piece) (consumed.queue running)

theorem handleItem (item : Item) :
    ∃ frames left, Consumed bytes (worker.handleItem item) frames left := by
  rcases worker.handleItem_cases item with
    same | ⟨index, running, begins, found, called⟩
  · rw [same]
    exact ⟨frames, left, consumed⟩
  · obtain ⟨body, split, data, free⟩ := Worker.exists_frame begins found
    refine ⟨frames ++ [(item, body)],
      worker.queue.drop (index + item.closingTag.length), ?_, ?_, ?_, ?_⟩
    · rw [called, worker.call_calls, consumed.calls, data]
      simp
    · intro frame member
      rcases List.mem_append.mp member with earlier | last
      · exact consumed.free frame earlier
      · rw [List.mem_singleton.mp last]
        exact free
    · rw [List.flatMap_append, List.flatMap_singleton, List.append_assoc,
        ← split, consumed.queue running]
      exact consumed.split
    · rw [called]
      simp only [Worker.call]
      split_ifs
      · simp
      · intro
        rw [item.closingTag_length]

theorem round (piece : Bytes) :
    ∃ frames left, Consumed (bytes ++ piece)
      (worker.round piece) frames left := by
  unfold Worker.round
  split_ifs with exited
  · exact ⟨frames, left ++ piece, consumed.calls, consumed.free, by
      rw [consumed.split, List.append_assoc], by simp [exited]⟩
  · dsimp only
    split_ifs
    · exact ⟨frames, left ++ piece, consumed.append⟩
    · refine List.foldlRecOn (motive := fun worker : Worker =>
        ∃ frames left, Consumed (bytes ++ piece) worker frames left)
        Item.all _ ⟨frames, left ++ piece, consumed.append⟩ ?_
      rintro before ⟨frames, left, consumed⟩ item _
      exact consumed.handleItem item

theorem serve (pieces : List Bytes) :
    ∃ frames left,
      Consumed (bytes ++ pieces.flatten) (worker.serve pieces) frames left := by
  induction pieces generalizing bytes worker frames left with
  | nil =>
      rw [List.flatten_nil, List.append_nil]
      exact ⟨frames, left, consumed⟩
  | cons piece pieces induction =>
      obtain ⟨frames, left, consumed⟩ := consumed.round piece
      rw [List.flatten_cons, ← List.append_assoc]
      exact induction consumed

end Consumed

theorem started_consumed (pieces : List Bytes) :
    ∃ frames left, Consumed pieces.flatten (Worker.started.serve pieces) frames
      left := by
  have start : Consumed [] Worker.started [] [] := by
    constructor <;> simp [Worker.started]
  exact start.serve pieces

theorem frame_eq {message : Message} {frame : Item × Bytes} {rest later : Bytes}
    (messageFree : ¬ message.item.closingTag <:+: message.body)
    (frameFree : ¬ frame.1.closingTag <:+: frame.2)
    (same : rawFrame frame ++ rest = message.send ++ later) :
    frame = (message.item, message.body) ∧ rest = later := by
  obtain ⟨item, body⟩ := frame
  simp only [rawFrame, Message.send, List.append_assoc] at same frameFree
  have items : item = message.item := by
    apply Item.eq_of_openingTag (List.prefix_append item.openingTag _)
    rw [same]
    exact List.prefix_append _ _
  subst items
  obtain ⟨bodies, rests⟩ := eq_of_cut message.item.closingTag_single frameFree
    messageFree (List.append_cancel_left same)
  exact ⟨Prod.ext rfl bodies, rests⟩

variable {messages : List Message}

theorem frames_eq {frames : List (Item × Bytes)} {left : Bytes}
    (messagesFree : ∀ message ∈ messages,
      ¬ message.item.closingTag <:+: message.body)
    (framesFree : ∀ frame ∈ frames, ¬ frame.1.closingTag <:+: frame.2)
    (part : frames.flatMap rawFrame ++ left <+: sendAll messages) :
    ∃ done later, messages = done ++ later ∧
      frames = done.map fun message => (message.item, message.body) := by
  induction frames generalizing messages with
  | nil => exact ⟨[], messages, rfl, rfl⟩
  | cons frame frames induction =>
      obtain ⟨beyond, whole⟩ := part
      simp only [List.flatMap_cons, List.append_assoc] at whole
      cases messages with
      | nil =>
          have length := congrArg List.length whole
          simp only [rawFrame, sendAll, List.flatMap_nil, List.length_append,
            List.length_nil, frame.1.openingTag_length] at length
          omega
      | cons message messages =>
          rw [sendAll, List.flatMap_cons] at whole
          obtain ⟨first, rest⟩ := frame_eq
            (messagesFree message List.mem_cons_self)
            (framesFree frame List.mem_cons_self) whole
          obtain ⟨done, later, split, frames⟩ := induction
            (fun other member =>
              messagesFree other (List.mem_cons_of_mem _ member))
            (fun other member =>
              framesFree other (List.mem_cons_of_mem _ member))
            ⟨beyond, by rw [List.append_assoc]; exact rest⟩
          refine ⟨message :: done, later, ?_, ?_⟩
          · rw [split, List.cons_append]
          · rw [first, frames, List.map_cons]

theorem Message.body_drop (message : Message) :
    message.body.drop 4 = message.payload := by
  have header := length_toBytesBig 4 message.payload.length
  rw [Message.body, ← header, header]
  exact List.drop_left' header

theorem Consumed.calls_eq {bytes left : Bytes}
    {worker : Worker} {frames : List (Item × Bytes)}
    (consumed : Consumed bytes worker frames left)
    (free : ∀ message ∈ messages, ¬ message.item.closingTag <:+: message.body)
    (part : bytes <+: sendAll messages) :
    ∃ done later, messages = done ++ later ∧
      worker.calls = done.map Message.call ∧
      bytes = sendAll done ++ left := by
  have split := consumed.split
  obtain ⟨done, later, messages, frames⟩ :=
    frames_eq free consumed.free (split ▸ part)
  refine ⟨done, later, messages, ?_, ?_⟩
  · rw [consumed.calls, frames, List.map_map]
    apply List.map_congr_left
    intro message _
    simp only [Function.comp_apply, message.body_drop, Message.call]
  · rw [split, frames, List.flatMap_map]
    rfl

/-- The worker exits with the call of `handle_quit`. -/
structure QuitsLast (worker : Worker) : Prop where
  earlier : ∀ call ∈ worker.calls.dropLast, call.1 ≠ .quit
  running : worker.exited = false → ∀ call ∈ worker.calls, call.1 ≠ .quit
  exited : worker.exited = true → ∃ call ∈ worker.calls, call.1 = .quit

namespace QuitsLast

variable {worker : Worker} (quits : QuitsLast worker)
include quits

theorem handleItem (item : Item) : QuitsLast (worker.handleItem item) := by
  rcases worker.handleItem_cases item with
    same | ⟨index, running, -, -, called⟩
  · rw [same]
    exact quits
  · rw [called]
    have calls := worker.call_calls item index
    constructor
    · rw [calls, List.dropLast_concat]
      exact quits.running running
    · intro goesOn call member
      rw [calls] at member
      rcases List.mem_append.mp member with earlier | last
      · exact quits.running running call earlier
      · rw [List.mem_singleton.mp last]
        rintro rfl
        simp [Worker.call] at goesOn
    · intro exits
      rw [calls]
      refine ⟨_, List.mem_append_right _ (List.mem_singleton_self _), ?_⟩
      by_contra other
      simp [Worker.call, running, other] at exits

theorem round (piece : Bytes) : QuitsLast (worker.round piece) := by
  have read : QuitsLast { worker with queue := worker.queue ++ piece } :=
    ⟨quits.earlier, quits.running, quits.exited⟩
  unfold Worker.round
  split_ifs
  · exact quits
  · dsimp only
    split_ifs
    · exact read
    · exact List.foldlRecOn (motive := QuitsLast) Item.all _ read
        fun before soFar item _ => soFar.handleItem item

theorem serve (pieces : List Bytes) :
    QuitsLast (worker.serve pieces) :=
  List.foldlRecOn (motive := QuitsLast) pieces _ quits
    fun _ soFar piece _ => soFar.round piece

end QuitsLast

theorem started_quitsLast (pieces : List Bytes) :
    QuitsLast (Worker.started.serve pieces) := by
  have start : QuitsLast Worker.started := by
    constructor <;> simp [Worker.started]
  exact start.serve pieces

namespace Worker

theorem handleItem_complete {worker : Worker} {message : Message}
    {rest : Bytes} (running : worker.exited = false)
    (queue : worker.queue = message.send ++ rest) :
    ∃ index, worker.handleItem message.item =
      worker.call message.item index := by
  have begins : message.item.openingTag <+: worker.queue := by
    rw [queue, Message.send, List.append_assoc]
    exact List.prefix_append _ _
  have length := congrArg List.length queue
  have size := length_toBytesBig 4 message.payload.length
  simp only [Message.send, Message.body, List.length_append, size,
    message.item.openingTag_length, message.item.closingTag_length] at length
  have header : fromBytesBig ((worker.queue.take
        (message.item.openingTag.length + 4)).drop
          message.item.openingTag.length) = message.payload.length := by
    rw [queue, Message.send, Message.body, List.append_assoc, List.append_assoc,
      List.take_length_add_append, List.drop_left, List.append_assoc,
      List.take_left' size]
    exact fromBytesBig_toBytesBig message.fits
  have occurs : Occurs message.item.closingTag worker.queue
      (message.item.openingTag ++ message.body).length := by
    rw [queue, Message.send, ← List.append_assoc, Occurs, List.append_assoc,
      List.drop_left]
    exact List.prefix_append _ _
  have nonempty : message.item.closingTag ≠ [] := by
    rw [← List.length_pos_iff, message.item.closingTag_length]
    omega
  obtain ⟨index, found⟩ := Option.ne_none_iff_exists'.mp
    (find_ne_none nonempty (Nat.zero_le _) occurs)
  refine ⟨index, ?_⟩
  have room : ¬ worker.queue.length < message.item.openingTag.length + 4 := by
    rw [message.item.openingTag_length]
    omega
  have arrived : ¬ worker.queue.length < message.item.openingTag.length * 2 +
      1 + message.payload.length := by
    rw [message.item.openingTag_length]
    omega
  simp only [handleItem, running, Bool.false_eq_true, if_false,
    not_true_eq_false, begins, if_neg room, header, if_neg arrived, found]

theorem foldl_handleItem (items : List Item) (worker : Worker) :
    (items.foldl handleItem worker = worker ∧
        ∀ item ∈ items, worker.handleItem item = worker) ∨
      worker.calls.length < (items.foldl handleItem worker).calls.length := by
  induction items generalizing worker with
  | nil => exact .inl ⟨rfl, by simp⟩
  | cons item items induction =>
      rw [List.foldl_cons]
      rcases worker.handleItem_cases item with same | ⟨index, -, -, -, called⟩
      · rw [same]
        rcases induction worker with ⟨unchanged, none⟩ | longer
        · refine .inl ⟨unchanged, fun other member => ?_⟩
          rcases List.mem_cons.mp member with rfl | later
          · exact same
          · exact none other later
        · exact .inr longer
      · have longer := congrArg List.length (worker.call_calls item index)
        rw [List.length_append, List.length_singleton] at longer
        rw [called]
        rcases induction (worker.call item index) with ⟨unchanged, -⟩ | further
        · rw [unchanged]
          omega
        · omega

theorem calls_length_le_round (worker : Worker) (piece : Bytes) :
    worker.calls.length ≤ (worker.round piece).calls.length := by
  unfold round
  split_ifs
  · exact le_rfl
  · dsimp only
    split_ifs
    · exact le_rfl
    · rcases foldl_handleItem Item.all
        { worker with queue := worker.queue ++ piece } with
        ⟨unchanged, -⟩ | longer
      · rw [unchanged]
      · exact longer.le

theorem round_longer {worker : Worker} {message : Message} {rest : Bytes}
    (running : worker.exited = false)
    (queue : worker.queue = message.send ++ rest) :
    worker.calls.length < (worker.round []).calls.length := by
  have nonempty : worker.queue ≠ [] := by
    rw [queue, Message.send]
    simp [Item.openingTag, ascii]
  have rounds : worker.round [] = Item.all.foldl handleItem worker := by
    simp only [round, running, Bool.false_eq_true, if_false, List.append_nil,
      if_neg nonempty]
    rw [← running]
  rw [rounds]
  rcases foldl_handleItem Item.all worker with ⟨-, none⟩ | longer
  · obtain ⟨index, called⟩ := handleItem_complete running queue
    have longer := congrArg List.length (worker.call_calls message.item index)
    rw [← called, none _ message.item.mem_all, List.length_append,
      List.length_singleton] at longer
    omega
  · exact longer

end Worker

namespace Sendable

variable {messages : List Message}

theorem running (sendable : Sendable messages) {worker : Worker}
    (quits : QuitsLast worker) {done later : List Message} {message : Message}
    (split : messages = done ++ message :: later)
    (calls : worker.calls = done.map Message.call) :
    worker.exited = false := by
  by_contra exited
  obtain ⟨call, member, quit⟩ := quits.exited (by simpa using exited)
  rw [calls] at member
  obtain ⟨last, among, rfl⟩ := List.mem_map.mp member
  apply sendable.last last _ quit
  rw [split, List.dropLast_append_cons]
  exact List.mem_append_left _ among

theorem serve_complete (sendable : Sendable messages) {rounds : ℕ}
    {worker : Worker} {frames : List (Item × Bytes)} {left : Bytes}
    (consumed : Consumed (sendAll messages) worker frames left)
    (quits : QuitsLast worker)
    (enough : messages.length ≤ worker.calls.length + rounds) :
    (worker.serve (List.replicate rounds [])).calls =
      messages.map Message.call := by
  obtain ⟨done, later, split, calls, bytes⟩ :=
    consumed.calls_eq sendable.free (List.prefix_refl _)
  have lengths := congrArg List.length split
  have handled := congrArg List.length calls
  simp only [List.length_append, List.length_map] at lengths handled
  induction rounds generalizing worker frames left done later with
  | zero =>
      have none : later = [] := by
        rw [← List.length_eq_zero_iff]
        omega
      rw [none, List.append_nil] at split
      rw [split]
      exact calls
  | succ rounds induction =>
      obtain ⟨_, _, next⟩ := consumed.round []
      rw [List.append_nil] at next
      obtain ⟨done', later', split', calls', bytes'⟩ :=
        next.calls_eq sendable.free (List.prefix_refl _)
      have lengths' := congrArg List.length split'
      have handled' := congrArg List.length calls'
      simp only [List.length_append, List.length_map] at lengths' handled'
      have more := worker.calls_length_le_round []
      refine induction next (quits.round []) ?_ done' later' split' calls'
        bytes' lengths' handled'
      cases later with
      | nil =>
          rw [List.length_nil] at lengths
          omega
      | cons message later =>
          have running := sendable.running quits split calls
          have queue : worker.queue = message.send ++ sendAll later := by
            rw [consumed.queue running]
            rw [split, sendAll, List.flatMap_append] at bytes
            exact (List.append_cancel_left bytes).symm
          have longer := Worker.round_longer running queue
          omega

end Sendable

theorem Sendable.delivers (sendable : Sendable messages) :
    Delivers messages := by
  have prefixes : ∀ pieces : List Bytes, pieces.flatten <+: sendAll messages →
      ∃ done later left, messages = done ++ later ∧
        (Worker.started.serve pieces).calls = done.map Message.call ∧
        pieces.flatten = sendAll done ++ left := by
    intro pieces part
    obtain ⟨_, left, consumed⟩ := started_consumed pieces
    obtain ⟨done, later, split, calls, bytes⟩ :=
      consumed.calls_eq sendable.free part
    exact ⟨done, later, left, split, calls, bytes⟩
  constructor
  · intro pieces part
    obtain ⟨done, later, _, split, calls, -⟩ := prefixes pieces part
    rw [calls, split, List.map_append]
    exact List.prefix_append _ _
  · intro pieces part
    obtain ⟨done, later, left, split, calls, bytes⟩ := prefixes pieces part
    rw [calls, List.length_map, split, List.take_left, bytes]
    exact List.prefix_append _ _
  · intro pieces whole
    obtain ⟨_, _, consumed⟩ := started_consumed pieces
    rw [whole] at consumed
    exact sendable.serve_complete consumed (started_quitsLast pieces)
      (Nat.le_add_left _ _)

namespace Delivers

variable {messages : List Message}

private theorem free_of_calls {frames : List (Item × Bytes)} {left : Bytes}
    (calls : messages.map Message.call =
      frames.map fun frame => (frame.1, frame.2.drop 4))
    (framesFree : ∀ frame ∈ frames, ¬ frame.1.closingTag <:+: frame.2)
    (same : sendAll messages = frames.flatMap rawFrame ++ left) :
    ∀ message ∈ messages, ¬ message.item.closingTag <:+: message.body := by
  induction messages generalizing frames with
  | nil => simp
  | cons message messages induction =>
      cases frames with
      | nil => simp at calls
      | cons frame frames =>
          obtain ⟨item, body⟩ := frame
          simp only [List.map_cons, List.cons.injEq, Message.call,
            Prod.mk.injEq] at calls
          obtain ⟨⟨rfl, payload⟩, calls⟩ := calls
          have frameFree := framesFree _ List.mem_cons_self
          simp only [sendAll, List.flatMap_cons, rawFrame, Message.send,
            List.append_assoc] at same
          have bodies := List.append_cancel_left same
          have size := congrArg List.length payload
          have header := length_toBytesBig 4 message.payload.length
          have whole : message.body.length = 4 + message.payload.length := by
            rw [Message.body, List.length_append, header]
          rw [List.length_drop] at size
          have messageFree : ¬ message.item.closingTag <:+: message.body := by
            intro inside
            by_cases short : body.length < 4
            · -- the payload is empty and the tag longer than its length
              have fits := inside.length_le
              have name := message.item.name_length
              rw [message.item.closingTag_length] at fits
              omega
            · have lengths : message.body.length = body.length := by omega
              rw [(List.append_inj bodies lengths).1] at inside
              exact frameFree inside
          obtain ⟨-, rest⟩ := eq_of_cut message.item.closingTag_single
            messageFree frameFree bodies
          intro other member
          rcases List.mem_cons.mp member with rfl | later
          · exact messageFree
          · exact induction calls
              (fun frame among =>
                framesFree frame (List.mem_cons_of_mem _ among))
              rest other later

theorem sendable (delivers : Delivers messages) : Sendable messages := by
  set pieces := sendAll messages :: List.replicate messages.length []
    with piecesAre
  have bytes : pieces.flatten = sendAll messages := by
    rw [piecesAre, List.flatten_cons, List.flatten_replicate_nil,
      List.append_nil]
  have calls : (Worker.started.serve pieces).calls =
      messages.map Message.call :=
    delivers.complete [sendAll messages] (List.append_nil _)
  obtain ⟨frames, left, consumed⟩ := started_consumed pieces
  rw [bytes] at consumed
  constructor
  · exact free_of_calls (calls.symm.trans consumed.calls) consumed.free
      consumed.split
  · intro message member quit
    apply (started_quitsLast pieces).earlier message.call _ quit
    rw [calls, ← List.map_dropLast]
    exact List.mem_map_of_mem member

end Delivers

/-- Messages are delivered whatever the reads are if and only if no closing tag
of a command stands in its own payload and nothing follows a `quit`. -/
theorem delivers_iff_sendable (messages : List Message) :
    Delivers messages ↔ Sendable messages :=
  ⟨Delivers.sendable, Sendable.delivers⟩

/-- The pickle of the text `</extraconfigdata>`. -/
def taggedPickle : Bytes :=
  [128, 4, 149, 22, 0, 0, 0, 0, 0, 0, 0, 140, 18] ++
    ascii "</extraconfigdata>" ++ [148, 46]

/-- The handler is called on a part of the pickle. -/
theorem not_delivers_tagged : ¬ ∀ messages, Delivers messages := by
  intro delivers
  have sendable := (delivers
    [⟨.extraconfigdata, taggedPickle, by decide⟩]).sendable
  apply sendable.free _ List.mem_cons_self
  exact ⟨toBytesBig 4 taggedPickle.length ++
      [128, 4, 149, 22, 0, 0, 0, 0, 0, 0, 0, 140, 18], [148, 46], by decide⟩

end Nvbmc.WorkerPipe
