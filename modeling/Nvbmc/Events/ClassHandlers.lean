import Mathlib.Data.Nat.Find
import Mathlib.Logic.Function.Iterate
import Nvbmc.Library.Dict
import Nvbmc.Library.Text

/-!
# Event handlers of recipes

`finalize` registers the event handlers of a recipe, fires events at them and
puts back the handlers there were before.  Which events a handler accepts is
kept in two other tables, and nothing is ever taken out of these.

The handlers, the anonymous functions and the rest of the finalisation are
programs that fire events and raise exceptions; what they do next is a function
of their state and of what has happened so far.
-/

namespace Nvbmc.Events

open Nvbmc.Library

/-- The tables of `bb.event` about class handlers. -/
structure Tables (Code : Type) where
  handlers : Dict Text Code
  unique : handlers.keys.Nodup
  catchallHandlers : List Text
  eventHandlerMap : Dict Text (List Text)

/-- The text of a handler as `register` finds it. -/
inductive HandlerText (Code : Type) where
  /-- The variable has no value. -/
  | missing
  | syntaxError
  | raises
  | code (code : Code)

/-- One entry of `__BBHANDLERS` with its flags. -/
structure Registration (Code : Type) where
  name : Text
  /-- The `filename` flag is set. -/
  defined : Bool
  handler : HandlerText Code
  eventmask : List Text

/-- What a program does next. -/
inductive CodeStep (σ : Type) where
  | fire (eid : Text) (next : σ)
  | done
  | raise

/-- What has happened in a finalisation; events are numbered. -/
inductive Entry where
  | called (event : ℕ) (name : Text)
  | raised
deriving DecidableEq, Repr

structure Behaviour (σ Code : Type) where
  noop : Code
  /-- The call of a handler with an event. -/
  body : Code → Text → σ
  next : σ → List Entry → CodeStep σ

/-- A recipe that is finalised: what `finalize` reads of its data store, and the
programs it runs between the events it fires. -/
structure Recipe (σ Code : Type) where
  /-- `_FAILPARSINGERRORHANDLED`. -/
  failed : Bool
  currentMc : Text
  /-- `__BBHANDLERS_MC` of the data store before handlers are registered. -/
  bbhandlersMc : List Text
  bbhandlers : List (Registration Code)
  expandKeys : σ
  runAnonFuncs : σ
  addTasks : σ

section Tables

variable {Code : Type}

/-- The name under which a handler is registered. -/
def mcName (currentMc name : Text) : Text :=
  currentMc.map (fun char => if char = '-' then '_' else char) ++ name

/-- `_handlers[name] = code`. -/
def Tables.setHandler (tables : Tables Code) (name : Text) (code : Code) :
    Tables Code :=
  { tables with
    handlers := tables.handlers.set name code
    unique := Dict.nodup_keys_set tables.unique name code }

/-- The events a handler accepts. -/
def addMask (name : Text) (mask : List Text) (tables : Tables Code) :
    Tables Code :=
  if mask = [] ∨ ['*'] ∈ mask then
    { tables with catchallHandlers := tables.catchallHandlers.insert name }
  else
    { tables with
      eventHandlerMap := mask.foldl
        (fun map eid => map.set eid (((map.get? eid).getD []).insert name))
        tables.eventHandlerMap }

/-- What `register` works on: the tables and `__BBHANDLERS_MC`. -/
structure Registering (Code : Type) where
  tables : Tables Code
  bbhandlersMc : List Text
  raised : Bool

/-- `register`, with the data store of a recipe. -/
def register (noop : Code) (name : Text) (handler : HandlerText Code)
    (mask : List Text) (s : Registering Code) : Registering Code :=
  if s.tables.handlers.contains name then
    { s with bbhandlersMc := s.bbhandlersMc.insert name }
  else
    match handler with
    | .missing => s
    | .raises => { s with raised := true }
    | .syntaxError =>
        { s with tables := s.tables.setHandler name noop }
    | .code code =>
        { s with
          tables := addMask name mask (s.tables.setHandler name code)
          bbhandlersMc := s.bbhandlersMc.insert name }

/-- One turn of the loop over `__BBHANDLERS`. -/
def registerOne (noop : Code) (currentMc : Text) (s : Registering Code)
    (var : Registration Code) : Registering Code :=
  if s.raised then s
  else if ¬ var.defined then { s with raised := true }
  else register noop (mcName currentMc var.name) var.handler var.eventmask s

/-- The name is in one of the two tables `fire_class_handlers` looks into. -/
def Tables.accepts (tables : Tables Code) (name eid : Text) : Bool :=
  name ∈ tables.catchallHandlers ∨
    name ∈ (tables.eventHandlerMap.get? eid).getD []

/-- The handlers `fire_class_handlers` calls for an event and a data store with
the given `__BBHANDLERS_MC`, none for no data store. -/
def Tables.classHandlers (tables : Tables Code) (eid : Text)
    (bbhandlersMc : Option (List Text)) : Dict Text Code :=
  tables.handlers.filter fun handler =>
    tables.accepts handler.1 eid && bbhandlersMc.all (handler.1 ∈ ·)

end Tables

section Finalize

variable {σ Code : Type} (behaviour : Behaviour σ Code)

namespace Recipe

/-- `finalize` up to its first event. -/
def registered (recipe : Recipe σ Code) (tables : Tables Code) :
    Registering Code :=
  if recipe.failed then ⟨tables, recipe.bbhandlersMc, true⟩
  else
    recipe.bbhandlers.foldl (registerOne behaviour.noop recipe.currentMc)
      ⟨tables, recipe.bbhandlersMc, false⟩

end Recipe

/-- `finalize` as a change of the tables: `set_handlers(saved_handlers)` is
executed in every case. -/
def finalize (tables : Tables Code) (recipe : Recipe σ Code) : Tables Code :=
  { (recipe.registered behaviour tables).tables with
    handlers := tables.handlers
    unique := tables.unique }

/-- What is left to be executed. -/
inductive Frame (σ Code : Type) where
  /-- `bb.event.fire`. -/
  | fire (eid : Text)
  | handlers (event : ℕ) (eid : Text) (rest : Dict Text Code)
  | code (state : σ)
  /-- A program whose event is being fired. -/
  | resume (state : σ)

/-- A finalisation at work. -/
structure Config (σ Code : Type) where
  frames : List (Frame σ Code)
  log : List Entry
  /-- How many events have been fired. -/
  fired : ℕ

/-- An exception ends everything up to the program that has fired the event. -/
def unwind : List (Frame σ Code) → List (Frame σ Code)
  | [] => []
  | .resume state :: frames => .resume state :: frames
  | _ :: frames => unwind frames

/-- One step, in which `calls` decides whether a handler is called for an
event. -/
def step (handlers : Dict Text Code) (calls : Text → Text → Bool)
    (config : Config σ Code) : Config σ Code :=
  match config.frames with
  | [] => config
  | .fire eid :: frames =>
      { config with
        frames := .handlers config.fired eid handlers :: frames
        fired := config.fired + 1 }
  | .handlers _ _ [] :: frames => { config with frames := frames }
  | .handlers event eid ((name, code) :: rest) :: frames =>
      if calls name eid then
        { config with
          frames := .code (behaviour.body code eid) ::
            .handlers event eid rest :: frames
          log := .called event name :: config.log }
      else { config with frames := .handlers event eid rest :: frames }
  | .code state :: frames =>
      match behaviour.next state config.log with
      | .fire eid next =>
          { config with frames := .fire eid :: .resume next :: frames }
      | .done => { config with frames := frames }
      | .raise =>
          { config with frames := unwind frames, log := .raised :: config.log }
  | .resume state :: frames => { config with frames := .code state :: frames }

namespace Recipe

variable (recipe : Recipe σ Code)

/-- `finalize` behind the loop that registers handlers. -/
def program (raised : Bool) : Config σ Code where
  frames :=
    if raised then []
    else
      [.fire "bb.event.RecipePreFinalise".toList, .code recipe.expandKeys,
        .fire "bb.event.RecipePostKeyExpansion".toList,
        .code recipe.runAnonFuncs,
        .fire "bb.event.RecipeTaskPreProcess".toList, .code recipe.addTasks,
        .fire "bb.event.RecipeParsed".toList]
  log := []
  fired := 0

def calls (tables : Tables Code) (name eid : Text) : Bool :=
  let registered := recipe.registered behaviour tables
  registered.tables.accepts name eid && decide (name ∈ registered.bbhandlersMc)

/-- The finalisation after a number of steps. -/
def run (tables : Tables Code) (steps : ℕ) : Config σ Code :=
  let registered := recipe.registered behaviour tables
  (step behaviour registered.tables.handlers
    (recipe.calls behaviour tables))^[steps] (recipe.program registered.raised)

def Calls (tables : Tables Code) (event : ℕ) (name : Text) : Prop :=
  ∃ steps, .called event name ∈ (recipe.run behaviour tables steps).log

/-- The finalisation comes to ask whether the handler is to be called for an
event of the kind. -/
def Asks (tables : Tables Code) (name eid : Text) : Prop :=
  ∃ steps event code rest frames,
    (recipe.run behaviour tables steps).frames =
      .handlers event eid ((name, code) :: rest) :: frames

end Recipe

/-- Finalising recipes in one process leaves no trace: the handlers called for
later events are those of before, and a recipe has the calls it has when it is
the first one. -/
structure Isolated (base : Tables Code) (history : List (Recipe σ Code))
    (recipe : Recipe σ Code) : Prop where
  restored : ∀ eid bbhandlersMc,
    (finalize behaviour (history.foldl (finalize behaviour) base)
        recipe).classHandlers eid bbhandlersMc =
      (history.foldl (finalize behaviour) base).classHandlers eid bbhandlersMc
  unaffected : ∀ event name,
    recipe.Calls behaviour (history.foldl (finalize behaviour) base) event
      name ↔ recipe.Calls behaviour base event name

/-- A handler that the recipe asks about accepts every event for which an
earlier recipe has registered one of its name. -/
def OwnMasks (base : Tables Code) (history : List (Recipe σ Code))
    (recipe : Recipe σ Code) : Prop :=
  ∀ name eid, recipe.Asks behaviour base name eid →
    name ∈ (recipe.registered behaviour base).bbhandlersMc →
    (∃ earlier ∈ history,
      (earlier.registered behaviour base).tables.accepts name eid = true) →
    (recipe.registered behaviour base).tables.accepts name eid = true

end Finalize

section Registering

variable {Code : Type} {tables : Tables Code} {name other eid : Text}

def Covers (mask : List Text) (eid : Text) : Prop :=
  mask = [] ∨ ['*'] ∈ mask ∨ eid ∈ mask

theorem accepts_iff : tables.accepts name eid = true ↔
    name ∈ tables.catchallHandlers ∨
      name ∈ (tables.eventHandlerMap.get? eid).getD [] := by
  simp [Tables.accepts]

private theorem mem_addNames (mask : List Text) (map : Dict Text (List Text)) :
    other ∈ ((mask.foldl (fun map eid => map.set eid
        (((map.get? eid).getD []).insert name)) map).get? eid).getD [] ↔
      other ∈ (map.get? eid).getD [] ∨ other = name ∧ eid ∈ mask := by
  induction mask generalizing map with
  | nil => simp
  | cons first mask induction =>
      rw [List.foldl_cons, induction, Dict.get?_set]
      by_cases same : eid = first
      · subst same
        simp only [if_true, Option.getD_some, List.mem_insert_iff,
          List.mem_cons, true_or, and_true]
        tauto
      · simp only [List.mem_cons, same, if_false, false_or]

theorem addMask_accepts (mask : List Text) :
    (addMask name mask tables).accepts other eid = true ↔
      tables.accepts other eid = true ∨ other = name ∧ Covers mask eid := by
  unfold addMask Covers
  split_ifs with all
  · simp only [accepts_iff, List.mem_insert_iff]
    tauto
  · rw [not_or] at all
    simp only [accepts_iff, mem_addNames, all.1, all.2, false_or]
    tauto

@[simp] theorem addMask_handlers (mask : List Text) :
    (addMask name mask tables).handlers = tables.handlers := by
  unfold addMask
  split_ifs <;> rfl

@[simp] theorem setHandler_accepts (code : Code) :
    (tables.setHandler name code).accepts other eid =
      tables.accepts other eid := rfl

/-- Registering from `tables` and from a poorer `base` goes the same way: what
is accepted in the end was accepted in `tables`, or is in the run from
`base`. -/
structure Alongside (tables : Tables Code) (s t : Registering Code) : Prop where
  handlers : s.tables.handlers = t.tables.handlers
  bbhandlersMc : s.bbhandlersMc = t.bbhandlersMc
  raised : s.raised = t.raised
  accepts : ∀ name eid, s.tables.accepts name eid = true ↔
    tables.accepts name eid = true ∨ t.tables.accepts name eid = true

variable (noop : Code)

theorem Alongside.register {s t : Registering Code}
    (alongside : Alongside tables s t) (handler : HandlerText Code)
    (mask : List Text) :
    Alongside tables (register noop name handler mask s)
      (register noop name handler mask t) := by
  have accepts := alongside.accepts
  unfold Events.register
  rw [alongside.handlers]
  split_ifs
  · exact ⟨alongside.handlers, congrArg (List.insert name)
      alongside.bbhandlersMc, alongside.raised, accepts⟩
  · cases handler with
    | missing => exact alongside
    | raises =>
        exact ⟨alongside.handlers, alongside.bbhandlersMc, rfl, accepts⟩
    | syntaxError =>
        exact ⟨congrArg (Dict.set · name noop) alongside.handlers,
          alongside.bbhandlersMc, alongside.raised, accepts⟩
    | code code =>
        refine ⟨?_, congrArg (List.insert name) alongside.bbhandlersMc,
          alongside.raised, ?_⟩
        · simp only [addMask_handlers]
          exact congrArg (Dict.set · name code) alongside.handlers
        · intro other eid
          simp only [addMask_accepts, setHandler_accepts, accepts]
          tauto

theorem Alongside.registerOne {s t : Registering Code}
    (alongside : Alongside tables s t) (currentMc : Text)
    (var : Registration Code) :
    Alongside tables (registerOne noop currentMc s var)
      (registerOne noop currentMc t var) := by
  unfold Events.registerOne
  rw [alongside.raised]
  split_ifs
  · exact alongside
  · exact alongside.register noop var.handler var.eventmask
  · exact ⟨alongside.handlers, alongside.bbhandlersMc, rfl, alongside.accepts⟩

/-- A registered handler keeps what it accepts. -/
structure Keeps (tables : Tables Code) (s : Registering Code) : Prop where
  handlers : tables.handlers.keys ⊆ s.tables.handlers.keys
  accepts : ∀ name ∈ tables.handlers.keys, ∀ eid,
    s.tables.accepts name eid = tables.accepts name eid

theorem Keeps.register {s : Registering Code} (keeps : Keeps tables s)
    (handler : HandlerText Code) (mask : List Text) :
    Keeps tables (register noop name handler mask s) := by
  unfold Events.register
  split_ifs with present
  · exact ⟨keeps.handlers, keeps.accepts⟩
  · have new : name ∉ tables.handlers.keys := fun member =>
      present (Dict.contains_iff.mpr (keeps.handlers member))
    have grows : ∀ code, tables.handlers.keys ⊆
        (s.tables.setHandler name code).handlers.keys :=
          fun code other member =>
      (Dict.mem_keys_set ..).mpr (.inr (keeps.handlers member))
    cases handler with
    | missing => exact keeps
    | raises => exact ⟨keeps.handlers, keeps.accepts⟩
    | syntaxError => exact ⟨grows noop, keeps.accepts⟩
    | code code =>
        refine ⟨?_, ?_⟩
        · simp only [addMask_handlers]
          exact grows code
        · intro other member eid
          have different : other ≠ name := by
            rintro rfl
            exact new member
          rw [Bool.eq_iff_iff, addMask_accepts, setHandler_accepts,
            keeps.accepts other member eid]
          simp [different]

theorem Keeps.registerOne {s : Registering Code} (keeps : Keeps tables s)
    (currentMc : Text) (var : Registration Code) :
    Keeps tables (registerOne noop currentMc s var) := by
  unfold Events.registerOne
  split_ifs
  · exact keeps
  · exact keeps.register noop var.handler var.eventmask
  · exact ⟨keeps.handlers, keeps.accepts⟩

end Registering

section History

variable {σ Code : Type} {behaviour : Behaviour σ Code}
  {base tables : Tables Code} (recipe : Recipe σ Code)

theorem Recipe.registered_keeps :
    Keeps tables (recipe.registered behaviour tables) := by
  have start : ∀ raised,
      Keeps tables ⟨tables, recipe.bbhandlersMc, raised⟩ := fun _ =>
    ⟨List.Subset.refl _, fun _ _ _ => rfl⟩
  unfold Recipe.registered
  split_ifs
  · exact start true
  · exact List.foldlRecOn (motive := Keeps tables) _ _ (start false)
      fun _ soFar var _ => soFar.registerOne _ _ var

theorem Recipe.registered_alongside (handlers : tables.handlers = base.handlers)
    (richer : ∀ name eid, base.accepts name eid = true →
      tables.accepts name eid = true) :
    Alongside tables (recipe.registered behaviour tables)
      (recipe.registered behaviour base) := by
  have start : ∀ raised, Alongside tables
      ⟨tables, recipe.bbhandlersMc, raised⟩
      ⟨base, recipe.bbhandlersMc, raised⟩ := fun _ =>
    ⟨handlers, rfl, rfl, fun name eid => by
      have included := richer name eid
      dsimp only
      tauto⟩
  unfold Recipe.registered
  split_ifs
  · exact start true
  · have both : ∀ (vars : List (Registration Code)) {s t : Registering Code},
        Alongside tables s t → Alongside tables
          (vars.foldl (registerOne behaviour.noop recipe.currentMc) s)
          (vars.foldl (registerOne behaviour.noop recipe.currentMc) t) := by
      intro vars
      induction vars with
      | nil => exact id
      | cons var vars induction =>
          exact fun alongside => induction (alongside.registerOne _ _ var)
    exact both recipe.bbhandlers (start false)

/-- After some recipes the handlers are those of before, and a name is accepted
when one of the recipes has made it so. -/
theorem history_tables (behaviour : Behaviour σ Code) (base : Tables Code)
    (history : List (Recipe σ Code)) :
    (history.foldl (finalize behaviour) base).handlers = base.handlers ∧
      ∀ name eid,
        (history.foldl (finalize behaviour) base).accepts name eid = true ↔
          base.accepts name eid = true ∨ ∃ earlier ∈ history,
            (earlier.registered behaviour base).tables.accepts name eid =
              true := by
  induction history using List.reverseRecOn with
  | nil => simp
  | append_singleton history recipe induction =>
      obtain ⟨handlers, accepts⟩ := induction
      have alongside : Alongside _ (recipe.registered behaviour _)
          (recipe.registered behaviour base) :=
        recipe.registered_alongside handlers
          fun name eid included => (accepts name eid).mpr (.inl included)
      rw [List.foldl_append]
      refine ⟨handlers, fun name eid => ?_⟩
      have last : (finalize behaviour
            (history.foldl (finalize behaviour) base) recipe).accepts name eid =
          (recipe.registered behaviour
            (history.foldl (finalize behaviour) base)).tables.accepts name
              eid := rfl
      simp only [List.foldl_cons, List.foldl_nil, last, alongside.accepts,
        accepts, List.mem_append, List.mem_singleton, or_and_right, exists_or,
        exists_eq_left, or_assoc]

theorem finalize_classHandlers (eid : Text)
    (bbhandlersMc : Option (List Text)) :
    (finalize behaviour tables recipe).classHandlers eid bbhandlersMc =
      tables.classHandlers eid bbhandlersMc := by
  have keeps : Keeps tables (recipe.registered behaviour tables) :=
    recipe.registered_keeps
  apply List.filter_congr
  intro handler member
  have registered : handler.1 ∈ tables.handlers.keys :=
    List.mem_map_of_mem member
  have same : (finalize behaviour tables recipe).accepts handler.1 eid =
      tables.accepts handler.1 eid := keeps.accepts handler.1 registered eid
  rw [same]

end History

section Runs

variable {σ Code : Type} {behaviour : Behaviour σ Code}
  {handlers : Dict Text Code} {calls : Text → Text → Bool}
  {config : Config σ Code}

/-- The handlers left for the events that are being fired. -/
structure WellNumbered (config : Config σ Code) : Prop where
  fired : ∀ event eid rest, .handlers event eid rest ∈ config.frames →
    event < config.fired ∧ rest.keys.Nodup
  logged : ∀ event name, .called event name ∈ config.log →
    event < config.fired ∧ ∀ eid rest,
      .handlers event eid rest ∈ config.frames → name ∉ rest.keys
  distinct : config.frames.Pairwise fun first later =>
    ∀ event eid rest, first = .handlers event eid rest →
      ∀ eid rest, later ≠ .handlers event eid rest

/-- The handler was asked about for the event and was not called. -/
structure Passed (event : ℕ) (name : Text) (config : Config σ Code) : Prop where
  fired : event < config.fired
  log : .called event name ∉ config.log
  frames : ∀ eid rest, .handlers event eid rest ∈ config.frames →
    name ∉ rest.keys

theorem unwind_sublist (frames : List (Frame σ Code)) :
    (unwind frames).Sublist frames := by
  induction frames with
  | nil => exact .slnil
  | cons frame frames induction =>
      cases frame with
      | resume => exact List.Sublist.refl _
      | _ => exact induction.cons _

variable {frames : List (Frame σ Code)} {log : List Entry}

theorem WellNumbered.sublist (numbered : WellNumbered config)
    (fewer : frames.Sublist config.frames)
    (sameCalls : ∀ event name, .called event name ∈ log →
      .called event name ∈ config.log) :
    WellNumbered { config with frames := frames, log := log } where
  fired := fun event eid rest member =>
    numbered.fired event eid rest (fewer.subset member)
  logged := fun event name member =>
    have ⟨fired, left⟩ := numbered.logged event name (sameCalls _ _ member)
    ⟨fired, fun eid rest among => left eid rest (fewer.subset among)⟩
  distinct := numbered.distinct.sublist fewer

variable {event : ℕ}

theorem Passed.sublist {name : Text} (passed : Passed event name config)
    (fewer : frames.Sublist config.frames)
    (sameCalls : ∀ event name, .called event name ∈ log →
      .called event name ∈ config.log) :
    Passed event name { config with frames := frames, log := log } where
  fired := passed.fired
  log := fun member => passed.log (sameCalls _ _ member)
  frames := fun eid rest member => passed.frames eid rest (fewer.subset member)

theorem WellNumbered.cons (numbered : WellNumbered config)
    {frame : Frame σ Code}
    (other : ∀ event eid rest, frame ≠ .handlers event eid rest) :
    WellNumbered { config with frames := frame :: config.frames } where
  fired := fun event eid rest member => by
    rcases List.mem_cons.mp member with same | later
    · exact absurd same.symm (other event eid rest)
    · exact numbered.fired event eid rest later
  logged := fun event name member => by
    obtain ⟨fired, left⟩ := numbered.logged event name member
    refine ⟨fired, fun eid rest among => ?_⟩
    rcases List.mem_cons.mp among with same | later
    · exact absurd same.symm (other event eid rest)
    · exact left eid rest later
  distinct := List.pairwise_cons.mpr
    ⟨fun _ _ event eid rest same => absurd same (other event eid rest),
      numbered.distinct⟩

theorem Passed.cons {name : Text}
    (passed : Passed event name config) {frame : Frame σ Code}
    (other : ∀ event eid rest, frame ≠ .handlers event eid rest) :
    Passed event name { config with frames := frame :: config.frames } where
  fired := passed.fired
  log := passed.log
  frames := fun eid rest member => by
    rcases List.mem_cons.mp member with same | later
    · exact absurd same.symm (other event eid rest)
    · exact passed.frames eid rest later

theorem WellNumbered.advance (numbered : WellNumbered config)
    {eid name : Text} {code : Code} {rest : Dict Text Code}
    (head : config.frames = .handlers event eid ((name, code) :: rest) ::
      frames)
    (calls : log = config.log ∨ log = .called event name :: config.log) :
    WellNumbered { config with
        frames := .handlers event eid rest :: frames, log := log } ∧
      (log = config.log → Passed event name { config with
          frames := .handlers event eid rest :: frames, log := log }) := by
  have distinct := numbered.distinct
  rw [head] at distinct
  obtain ⟨others, distinct⟩ := List.pairwise_cons.mp distinct
  obtain ⟨fired, unique⟩ :=
    numbered.fired event eid _ (head ▸ List.mem_cons_self)
  obtain ⟨new, unique⟩ := List.nodup_cons.mp unique
  have gone : ∀ eid' rest', Frame.handlers event eid' rest' ∈
      Frame.handlers event eid rest :: frames → name ∉ rest'.keys := by
    intro eid' rest' member
    rcases List.mem_cons.mp member with same | later
    · cases same
      exact new
    · exact absurd rfl (others _ later event eid _ rfl eid' rest')
  have before : ∀ event' name', .called event' name' ∈ config.log →
      event' < config.fired ∧ ∀ eid' rest', Frame.handlers event' eid' rest' ∈
        Frame.handlers event eid rest :: frames → name' ∉ rest'.keys := by
    intro event' name' member
    obtain ⟨fired, left⟩ := numbered.logged event' name' member
    rw [head] at left
    refine ⟨fired, fun eid' rest' among => ?_⟩
    rcases List.mem_cons.mp among with same | later
    · cases same
      exact fun inside => left _ _ List.mem_cons_self
        (List.mem_cons_of_mem _ inside)
    · exact left eid' rest' (List.mem_cons_of_mem _ later)
  constructor
  · constructor
    · intro event' eid' rest' member
      rcases List.mem_cons.mp member with same | later
      · cases same
        exact ⟨fired, unique⟩
      · exact numbered.fired event' eid' rest'
          (head ▸ List.mem_cons_of_mem _ later)
    · intro event' name' member
      rcases calls with rfl | rfl
      · exact before event' name' member
      · rcases List.mem_cons.mp member with same | earlier
        · cases same
          exact ⟨fired, gone⟩
        · exact before event' name' earlier
    · refine List.pairwise_cons.mpr ⟨?_, distinct⟩
      rintro other member _ _ _ ⟨⟩
      exact others other member event eid _ rfl
  · intro same
    refine ⟨fired, ?_, gone⟩
    rw [same]
    intro member
    exact (numbered.logged event name member).2 eid _
      (head ▸ List.mem_cons_self) List.mem_cons_self

theorem WellNumbered.step (numbered : WellNumbered config)
    (unique : handlers.keys.Nodup) :
    WellNumbered (step behaviour handlers calls config) := by
  have keep : ∀ event name, Entry.called event name ∈ config.log →
      .called event name ∈ config.log := fun _ _ => id
  unfold Events.step
  split
  · exact numbered
  · rename_i eid frames head
    have behind : frames.Sublist config.frames :=
      head ▸ List.sublist_cons_self ..
    have rest := numbered.sublist behind keep
    constructor
    · intro event' eid' rest' member
      rcases List.mem_cons.mp member with same | later
      · cases same
        exact ⟨Nat.lt_succ_self _, unique⟩
      · exact ((rest.fired event' eid' rest' later).imp_left
          (Nat.lt_succ_of_lt ·))
    · intro event' name' member
      obtain ⟨fired, left⟩ := rest.logged event' name' member
      refine ⟨Nat.lt_succ_of_lt fired, fun eid' rest' among => ?_⟩
      rcases List.mem_cons.mp among with same | later
      · cases same
        exact absurd fired (Nat.lt_irrefl _)
      · exact left eid' rest' later
    · refine List.pairwise_cons.mpr ⟨?_, rest.distinct⟩
      rintro other member _ _ _ ⟨⟩ eid' rest' rfl
      exact absurd (rest.fired _ _ _ member).1 (Nat.lt_irrefl _)
  · rename_i head
    exact numbered.sublist (head ▸ List.sublist_cons_self ..) keep
  · rename_i event eid name code rest frames head
    split_ifs
    · exact (numbered.advance head (.inr rfl)).1.cons (by simp)
    · exact (numbered.advance head (.inl rfl)).1
  · rename_i frames head
    have behind : frames.Sublist config.frames :=
      head ▸ List.sublist_cons_self ..
    split
    · exact ((numbered.sublist behind keep).cons (by simp)).cons (by simp)
    · exact numbered.sublist behind keep
    · exact numbered.sublist ((unwind_sublist frames).trans behind) (by simp)
  · rename_i frames head
    have behind : frames.Sublist config.frames :=
      head ▸ List.sublist_cons_self ..
    exact (numbered.sublist behind keep).cons (by simp)

theorem Passed.step {name : Text} (passed : Passed event name config) :
    Passed event name (step behaviour handlers calls config) := by
  have keep : ∀ event name, Entry.called event name ∈ config.log →
      .called event name ∈ config.log := fun _ _ => id
  unfold Events.step
  split
  · exact passed
  · rename_i eid frames head
    have behind : frames.Sublist config.frames :=
      head ▸ List.sublist_cons_self ..
    have rest := passed.sublist behind keep
    refine ⟨Nat.lt_succ_of_lt passed.fired, passed.log, ?_⟩
    intro eid' rest' member
    rcases List.mem_cons.mp member with same | later
    · cases same
      exact absurd passed.fired (Nat.lt_irrefl _)
    · exact rest.frames eid' rest' later
  · rename_i head
    exact passed.sublist (head ▸ List.sublist_cons_self ..) keep
  · rename_i event' eid name' code rest frames head
    have left : ∀ eid' rest', Frame.handlers event eid' rest' ∈
        Frame.handlers event' eid rest :: frames → name ∉ rest'.keys := by
      intro eid' rest' member
      rcases List.mem_cons.mp member with same | later
      · cases same
        have absent := passed.frames eid ((name', code) :: rest)
          (head ▸ List.mem_cons_self)
        exact fun inside => absent (List.mem_cons_of_mem _ inside)
      · exact passed.frames eid' rest' (head ▸ List.mem_cons_of_mem _ later)
    split_ifs
    · have advanced : Passed event name { config with
          frames := .handlers event' eid rest :: frames
          log := .called event' name' :: config.log } := by
        refine ⟨passed.fired, fun member => ?_, left⟩
        rcases List.mem_cons.mp member with same | earlier
        · cases same
          exact passed.frames eid _ (head ▸ List.mem_cons_self)
            List.mem_cons_self
        · exact passed.log earlier
      exact advanced.cons (by simp)
    · exact ⟨passed.fired, passed.log, left⟩
  · rename_i frames head
    have behind : frames.Sublist config.frames :=
      head ▸ List.sublist_cons_self ..
    split
    · exact ((passed.sublist behind keep).cons (by simp)).cons (by simp)
    · exact passed.sublist behind keep
    · exact passed.sublist ((unwind_sublist frames).trans behind) (by simp)
  · rename_i frames head
    have behind : frames.Sublist config.frames :=
      head ▸ List.sublist_cons_self ..
    exact (passed.sublist behind keep).cons (by simp)

theorem step_congr {other : Text → Text → Bool}
    (alike : ∀ event eid name code rest frames, config.frames =
      .handlers event eid ((name, code) :: rest) :: frames →
      calls name eid = other name eid) :
    step behaviour handlers calls config =
      step behaviour handlers other config := by
  unfold Events.step
  split
  · rfl
  · rfl
  · rfl
  · rename_i head
    rw [alike _ _ _ _ _ _ head]
  · rfl
  · rfl

end Runs

section Isolation

variable {σ Code : Type} {behaviour : Behaviour σ Code}
  {base tables : Tables Code} {recipe : Recipe σ Code}

theorem run_succ (steps : ℕ) :
    recipe.run behaviour tables (steps + 1) =
      step behaviour (recipe.registered behaviour tables).tables.handlers
        (recipe.calls behaviour tables) (recipe.run behaviour tables steps) :=
  Function.iterate_succ_apply' ..

theorem run_wellNumbered (steps : ℕ) :
    WellNumbered (recipe.run behaviour tables steps) := by
  induction steps with
  | zero =>
      have start : ∀ raised, WellNumbered (recipe.program raised) := by
        intro raised
        cases raised <;> constructor <;> simp [Recipe.program]
      exact start _
  | succ steps induction =>
      rw [run_succ]
      exact induction.step (recipe.registered behaviour tables).tables.unique

theorem calls_of_passed {event : ℕ} {name : Text} {steps : ℕ}
    (passed : Passed event name (recipe.run behaviour tables steps)) :
    ¬ recipe.Calls behaviour tables event name := by
  have later : ∀ more,
      Passed event name (recipe.run behaviour tables (steps + more)) := by
    intro more
    induction more with
    | zero => exact passed
    | succ more induction =>
        rw [← Nat.add_assoc, run_succ]
        exact induction.step
  have grows : ∀ start more, .called event name ∈
      (recipe.run behaviour tables start).log → .called event name ∈
        (recipe.run behaviour tables (start + more)).log := by
    intro start more called
    induction more with
    | zero => exact called
    | succ more induction =>
        rw [← Nat.add_assoc, run_succ]
        unfold step
        split
        · exact induction
        · exact induction
        · exact induction
        · split_ifs
          · exact List.mem_cons_of_mem _ induction
          · exact induction
        · split
          · exact induction
          · exact induction
          · exact List.mem_cons_of_mem _ induction
        · exact induction
  rintro ⟨start, called⟩
  have both := grows start steps called
  rw [Nat.add_comm] at both
  exact (later start).log both

variable (alongside : Alongside tables (recipe.registered behaviour tables)
  (recipe.registered behaviour base))

include alongside

theorem run_eq {steps : ℕ}
    (alike : ∀ earlier < steps, ∀ event eid name code rest frames,
      (recipe.run behaviour base earlier).frames =
        .handlers event eid ((name, code) :: rest) :: frames →
      recipe.calls behaviour tables name eid =
        recipe.calls behaviour base name eid) :
    recipe.run behaviour tables steps = recipe.run behaviour base steps := by
  induction steps with
  | zero => simp only [Recipe.run, Function.iterate_zero, id, alongside.raised]
  | succ steps induction =>
      rw [run_succ, run_succ, induction fun earlier less =>
        alike earlier (Nat.lt_succ_of_lt less), alongside.handlers]
      exact step_congr fun event eid name code rest frames head =>
        alike steps (Nat.lt_succ_self _) event eid name code rest frames head

omit alongside in
theorem differs_of_asks {steps : ℕ} {event : ℕ} {eid name : Text} {code : Code}
    {rest : Dict Text Code} {frames : List (Frame σ Code)}
    (same : recipe.run behaviour tables steps = recipe.run behaviour base steps)
    (head : (recipe.run behaviour base steps).frames =
      .handlers event eid ((name, code) :: rest) :: frames)
    (called : recipe.calls behaviour tables name eid = true)
    (passed : recipe.calls behaviour base name eid = false) :
    recipe.Calls behaviour tables event name ∧
      ¬ recipe.Calls behaviour base event name := by
  constructor
  · refine ⟨steps + 1, ?_⟩
    rw [run_succ, same]
    simp only [step, head, called, if_true]
    exact List.mem_cons_self
  · have skipped : Passed event name
        (recipe.run behaviour base (steps + 1)) := by
      have gone := ((run_wellNumbered steps).advance head (.inl rfl)).2 rfl
      rw [run_succ]
      simp only [step, head, passed, Bool.false_eq_true, if_false]
      exact gone
    exact calls_of_passed skipped

end Isolation

section Main

variable {σ Code : Type} {behaviour : Behaviour σ Code} {base : Tables Code}
  {history : List (Recipe σ Code)} {recipe : Recipe σ Code}

theorem history_alongside (behaviour : Behaviour σ Code) (base : Tables Code)
    (history : List (Recipe σ Code)) (recipe : Recipe σ Code) :
    Alongside (history.foldl (finalize behaviour) base)
      (recipe.registered behaviour (history.foldl (finalize behaviour) base))
      (recipe.registered behaviour base) := by
  have after := history_tables behaviour base history
  exact recipe.registered_alongside after.1
    fun name eid included => (after.2 name eid).mpr (.inl included)

/-- After other recipes a handler is also called when one of these has made
its name accepted. -/
theorem history_calls {name eid : Text} :
    recipe.calls behaviour (history.foldl (finalize behaviour) base) name eid =
        true ↔
      recipe.calls behaviour base name eid = true ∨
        name ∈ (recipe.registered behaviour base).bbhandlersMc ∧
          ∃ earlier ∈ history,
            (earlier.registered behaviour base).tables.accepts name eid =
              true := by
  have alongside := history_alongside behaviour base history recipe
  have after := (history_tables behaviour base history).2 name eid
  have included : base.accepts name eid = true →
      (recipe.registered behaviour base).tables.accepts name eid = true :=
    fun accepted => (recipe.registered_alongside rfl
      (fun _ _ => id) |>.accepts name eid).mpr (.inl accepted)
  simp only [Recipe.calls, alongside.bbhandlersMc, Bool.and_eq_true,
    alongside.accepts, after, decide_eq_true_eq]
  constructor
  · rintro ⟨(accepted | stale) | own, member⟩
    · exact .inl ⟨included accepted, member⟩
    · exact .inr ⟨member, stale⟩
    · exact .inl ⟨own, member⟩
  · rintro (⟨own, member⟩ | ⟨member, stale⟩)
    · exact ⟨.inr own, member⟩
    · exact ⟨.inl (.inr stale), member⟩

theorem isolated_of_ownMasks (own : OwnMasks behaviour base history recipe) :
    Isolated behaviour base history recipe := by
  have same : ∀ steps,
      recipe.run behaviour (history.foldl (finalize behaviour) base) steps =
        recipe.run behaviour base steps := by
    intro steps
    refine run_eq (history_alongside behaviour base history recipe) ?_
    intro earlier _ event eid name code rest frames head
    rw [Bool.eq_iff_iff, history_calls, or_iff_left_iff_imp]
    rintro ⟨member, stale⟩
    have accepted := own name eid ⟨earlier, event, code, rest, frames, head⟩
      member stale
    simp only [Recipe.calls, accepted, Bool.true_and, decide_eq_true_eq]
    exact member
  constructor
  · exact finalize_classHandlers recipe
  · intro event name
    simp only [Recipe.Calls, same]

theorem ownMasks_of_isolated
    (isolated : Isolated behaviour base history recipe) :
    OwnMasks behaviour base history recipe := by
  -- Take the first question that an earlier recipe changes the answer of.
  by_contra foreign
  have differs : ∃ steps, ∃ event eid name code rest frames,
      (recipe.run behaviour base steps).frames =
          .handlers event eid ((name, code) :: rest) :: frames ∧
        recipe.calls behaviour (history.foldl (finalize behaviour) base) name
          eid ≠ recipe.calls behaviour base name eid := by
    simp only [OwnMasks, not_forall] at foreign
    obtain ⟨name, eid, ⟨steps, event, code, rest, frames, head⟩, member, stale,
      refused⟩ := foreign
    refine ⟨steps, event, eid, name, code, rest, frames, head, ?_⟩
    rw [history_calls.mpr (.inr ⟨member, stale⟩)]
    simp [Recipe.calls, refused]
  classical
  obtain ⟨event, eid, name, code, rest, frames, head, different⟩ :=
    Nat.find_spec differs
  have same : recipe.run behaviour (history.foldl (finalize behaviour) base)
      (Nat.find differs) = recipe.run behaviour base (Nat.find differs) := by
    apply run_eq (history_alongside behaviour base history recipe)
    intro earlier less event eid name code rest frames head
    by_contra other
    exact Nat.find_min differs less
      ⟨event, eid, name, code, rest, frames, head, other⟩
  have passed : recipe.calls behaviour base name eid = false := by
    by_contra called
    rw [Bool.not_eq_false] at called
    exact different (by rw [called, history_calls.mpr (.inl called)])
  have called : recipe.calls behaviour
      (history.foldl (finalize behaviour) base) name eid = true := by
    rw [passed] at different
    simpa using different
  obtain ⟨calls, none⟩ := differs_of_asks same head called passed
  exact none ((isolated.unaffected event name).mp calls)

/-- Recipes that were finalised before make no difference if and only if the
handlers a recipe asks about accept everything that was registered for their
names. -/
theorem isolated_iff_ownMasks :
    Isolated behaviour base history recipe ↔
      OwnMasks behaviour base history recipe :=
  ⟨ownMasks_of_isolated, isolated_of_ownMasks⟩

/-- Programs that do nothing. -/
def silent : Behaviour Unit Unit where
  noop := ()
  body _ _ := ()
  next _ _ := .done

def Tables.empty : Tables Unit := ⟨[], List.nodup_nil, [], []⟩

/-- A recipe whose finalisation registers one handler. -/
def handling (mask : List Text) : Recipe Unit Unit where
  failed := false
  currentMc := []
  bbhandlersMc := []
  bbhandlers := [⟨"checker".toList, true, .code (), mask⟩]
  expandKeys := ()
  runAnonFuncs := ()
  addTasks := ()

/-- A recipe registers a handler for parsed recipes, and the next one registers
a handler of the same name for the start of the finalisation: that one is called
for the parsed recipe too. -/
theorem not_isolated_reusedName :
    ¬ Isolated silent Tables.empty
      [handling ["bb.event.RecipeParsed".toList]]
      (handling ["bb.event.RecipePreFinalise".toList]) := by
  intro isolated
  have called := (isolated.unaffected 3 "checker".toList).mp
    ⟨20, by decide +kernel⟩
  let own := handling ["bb.event.RecipePreFinalise".toList]
  have ended : (own.run silent Tables.empty 20).frames = [] := rfl
  have passed : Passed 3 "checker".toList
      (own.run silent Tables.empty 20) := by
    refine ⟨by decide +kernel, by decide +kernel, ?_⟩
    rw [ended]
    simp
  exact calls_of_passed passed called

end Main

end Nvbmc.Events
