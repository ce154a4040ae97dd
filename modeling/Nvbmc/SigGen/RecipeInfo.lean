import Nvbmc.Library.Dict

/-!
# Signature data between processes

`SiggenRecipeInfo` sends a value once for each stream; later messages only have
its number. The receiver numbers the values of each sender on its own and keeps
one store for all.
-/

namespace Nvbmc.SigGen

open Nvbmc.Library

/-- A dictionary of signature data. -/
@[ext]
structure Deps (κ α : Type) [DecidableEq κ] where
  entries : Dict κ (Option α)
  unique : entries.keys.Nodup

namespace Deps

variable {κ α : Type} [DecidableEq κ]

def empty : Deps κ α :=
  ⟨[], List.nodup_nil⟩

def set (deps : Deps κ α) (dep : κ) (fs : Option α) : Deps κ α :=
  ⟨deps.entries.set dep fs, Dict.nodup_keys_set deps.unique dep fs⟩

end Deps

/-- One of the tuples that `_save` returns. -/
inductive Ref (κ α : Type) where
  /-- `(dep, None, None)` -/
  | none (dep : κ)
  /-- `(dep, None, mapnum)` -/
  | again (dep : κ) (mapnum : ℕ)
  /-- `(dep, fs, mapnum)` -/
  | first (dep : κ) (fs : α) (mapnum : ℕ)

/-- The class attributes of `SiggenRecipeInfo` in a process. -/
structure RecipeInfo (Pid α : Type) [DecidableEq α] where
  store : Dict α α
  saveMap : Dict α ℕ
  saveCount : ℕ
  restoreMap : Dict Pid (Dict ℕ α)
  stored : ∀ {fs value : α}, store.get? fs = some value → value = fs

namespace RecipeInfo

variable {Pid κ α : Type} [DecidableEq κ] [DecidableEq α]

/-- `reset`. -/
def reset (info : RecipeInfo Pid α) : RecipeInfo Pid α :=
  { info with
    saveMap := []
    saveCount := 1
    restoreMap := [] }

/-- One round of the loop of `_save`. -/
def saveDep (state : RecipeInfo Pid α × List (Ref κ α)) (entry : κ × Option α) :
    RecipeInfo Pid α × List (Ref κ α) :=
  match entry.2 with
  | none => (state.1, state.2 ++ [.none entry.1])
  | some fs =>
      match state.1.saveMap.get? fs with
      | some mapnum => (state.1, state.2 ++ [.again entry.1 mapnum])
      | none =>
          ({ state.1 with
              saveMap := state.1.saveMap.set fs state.1.saveCount
              saveCount := state.1.saveCount + 1 },
            state.2 ++ [.first entry.1 fs state.1.saveCount])

/-- `_save`.  The empty dictionary, which is returned as it is, is an empty
list. -/
def save (info : RecipeInfo Pid α) : Option (Deps κ α) →
    RecipeInfo Pid α × Option (List (Ref κ α))
  | none => (info, none)
  | some deps =>
      let state := deps.entries.foldl saveDep (info, [])
      (state.1, some state.2)

/-- The value that the store has for one, which is put there if there is none.
-/
def intern (info : RecipeInfo Pid α) (fs : α) : RecipeInfo Pid α × α :=
  match info.store.get? fs with
  | some value => (info, value)
  | none =>
      ({ info with
          store := info.store.set fs fs
          stored := by
            intro other value found
            rw [Dict.get?_set] at found
            split_ifs at found with same
            · exact (Option.some.inj found).symm.trans same.symm
            · exact info.stored found }, fs)

/-- What the loop of `_restore` works on. -/
structure Restoring (Pid κ α : Type) [DecidableEq κ] [DecidableEq α] where
  info : RecipeInfo Pid α
  map : Dict ℕ α
  ret : Deps κ α

/-- One round of the loop of `_restore`; a number that is not known is a
`KeyError`. -/
def restoreRef (state : Restoring Pid κ α) :
    Ref κ α → Except ℕ (Restoring Pid κ α)
  | .none dep => .ok { state with ret := state.ret.set dep none }
  | .again dep mapnum =>
      match state.map.get? mapnum with
      | none => .error mapnum
      | some fs => .ok { state with ret := state.ret.set dep (some fs) }
  | .first dep fs mapnum =>
      let (info, fs) := state.info.intern fs
      .ok {
        info := info
        map := state.map.set mapnum fs
        ret := state.ret.set dep (some fs) }

variable [DecidableEq Pid]

/-- `cls.restore_map[pid]`. -/
def mapOf (info : RecipeInfo Pid α) (pid : Pid) : Dict ℕ α :=
  (info.restoreMap.get? pid).getD []

/-- `_restore`. -/
def restore (info : RecipeInfo Pid α) (pid : Pid) :
    Option (List (Ref κ α)) → Except ℕ (RecipeInfo Pid α × Option (Deps κ α))
  | none => .ok (info, none)
  | some [] => .ok (info, some .empty)
  | some (ref :: refs) => do
      let state ← (ref :: refs).foldlM restoreRef ⟨info, info.mapOf pid, .empty⟩
      return ({ state.info with
        restoreMap := state.info.restoreMap.set pid state.map }, some state.ret)

section Save

variable {Pid κ α : Type} [DecidableEq κ] [DecidableEq α]

/-- The receiver knows the values of a sender under their numbers. -/
structure Agrees (info : RecipeInfo Pid α) (map : Dict ℕ α) : Prop where
  below : ∀ {fs mapnum}, info.saveMap.get? fs = some mapnum →
    mapnum < info.saveCount
  known : ∀ {fs mapnum}, info.saveMap.get? fs = some mapnum →
    map.get? mapnum = some fs

variable (info : RecipeInfo Pid α)

theorem intern_snd (fs : α) : (info.intern fs).2 = fs := by
  rw [intern]
  split
  · rename_i value found
    exact info.stored found
  · rfl

theorem intern_restoreMap (fs : α) : (info.intern fs).1.restoreMap =
    info.restoreMap := by
  rw [intern]
  split <;> rfl

theorem agrees_reset (map : Dict ℕ α) : info.reset.Agrees map := by
  constructor
  · intro fs mapnum found
    cases found
  · intro fs mapnum found
    cases found

variable {info} {map : Dict ℕ α}

theorem Agrees.first (agrees : info.Agrees map) (fs : α) :
    Agrees { info with
      saveMap := info.saveMap.set fs info.saveCount
      saveCount := info.saveCount + 1 } (map.set info.saveCount fs) := by
  constructor
  · intro other mapnum found
    rw [Dict.get?_set] at found
    split_ifs at found with same
    · cases found
      exact Nat.lt_succ_self _
    · exact Nat.lt_succ_of_lt (agrees.below found)
  · intro other mapnum found
    rw [Dict.get?_set] at found
    split_ifs at found with same
    · cases found
      rw [Dict.get?_set_self, same]
    · have smaller := agrees.below found
      rw [Dict.get?_set_of_ne _ _ (Nat.ne_of_lt smaller)]
      exact agrees.known found

theorem saveDep_restoreRef (agrees : info.Agrees map)
    (refs : List (Ref κ α)) (entry : κ × Option α) : ∃ info' ref map',
      saveDep (info, refs) entry = (info', refs ++ [ref]) ∧ info'.Agrees map' ∧
      ∀ (receiver : RecipeInfo Pid α) (ret : Deps κ α), ∃ receiver',
        restoreRef ⟨receiver, map, ret⟩ ref =
          .ok ⟨receiver', map', ret.set entry.1 entry.2⟩ ∧
          receiver'.restoreMap = receiver.restoreMap := by
  obtain ⟨dep, fs⟩ := entry
  cases fs with
  | none =>
      exact ⟨info, .none dep, map, rfl, agrees, fun receiver ret =>
        ⟨receiver, rfl, rfl⟩⟩
  | some fs =>
      cases found : info.saveMap.get? fs with
      | some mapnum =>
          refine ⟨info, .again dep mapnum,
            map, by rw [saveDep]; simp [found], agrees, ?_⟩
          intro receiver ret
          refine ⟨receiver, ?_, rfl⟩
          simp [restoreRef, agrees.known found]
      | none =>
          refine ⟨_, .first dep fs info.saveCount,
            _, by rw [saveDep]; simp [found], agrees.first fs, ?_⟩
          intro receiver ret
          refine ⟨(receiver.intern fs).1, ?_, receiver.intern_restoreMap fs⟩
          simp [restoreRef, intern_snd]

theorem foldl_restoreRef (agrees : info.Agrees map)
    (refs : List (Ref κ α)) (entries : Dict κ (Option α)) : ∃ info' later map',
      entries.foldl saveDep (info, refs) = (info', refs ++ later) ∧
        info'.Agrees map' ∧
      later.length = entries.length ∧
      ∀ (receiver : RecipeInfo Pid α) (ret : Deps κ α), ∃ receiver',
        later.foldlM restoreRef ⟨receiver, map, ret⟩ =
          .ok ⟨receiver', map',
            entries.foldl (fun ret entry => ret.set entry.1 entry.2) ret⟩ ∧
          receiver'.restoreMap = receiver.restoreMap := by
  induction entries generalizing info map refs with
  | nil =>
      refine ⟨info, [], map, by simp, agrees, rfl, ?_⟩
      exact fun receiver ret => ⟨receiver, rfl, rfl⟩
  | cons entry entries induction =>
      obtain ⟨next, ref, map', saved, agreesNext, restored⟩ :=
        saveDep_restoreRef agrees refs entry
      obtain ⟨last, later, map'', savedLater, agreesLast, long,
          restoredLater⟩ :=
        induction agreesNext (refs ++ [ref])
      refine ⟨last, ref :: later, map'', ?_, agreesLast, by simp [long], ?_⟩
      · rw [List.foldl_cons, saved, savedLater, List.append_assoc,
          List.singleton_append]
      · intro receiver ret
        obtain ⟨receiver', first, kept⟩ := restored receiver ret
        obtain ⟨receiver'', rest, keptLater⟩ :=
          restoredLater receiver' (ret.set entry.1 entry.2)
        refine ⟨receiver'', ?_, keptLater.trans kept⟩
        rw [List.foldlM_cons, first]
        exact rest

omit [DecidableEq α] in
theorem foldl_set_entries (deps : Deps κ α) :
    deps.entries.foldl (fun ret entry => ret.set entry.1 entry.2) Deps.empty =
      deps := by
  have entriesOf : ∀ (entries : Dict κ (Option α)) (ret : Deps κ α),
      (entries.foldl (fun ret entry => ret.set entry.1 entry.2) ret).entries =
        entries.foldl (fun d entry => d.set entry.1 entry.2) ret.entries := by
    intro entries
    induction entries with
    | nil => exact fun ret => rfl
    | cons entry entries induction => exact fun ret => induction _
  apply Deps.ext
  rw [entriesOf]
  exact Dict.foldl_set_of_nodup deps.unique

end Save

def Stands (pid : Pid) (map : Dict ℕ α) (refs : Option (List (Ref κ α)))
    (deps : Option (Deps κ α)) (map' : Dict ℕ α) : Prop :=
  ∀ info : RecipeInfo Pid α, info.mapOf pid = map → ∃ info',
    info.restore pid refs = .ok (info', deps) ∧ info'.mapOf pid = map' ∧
      ∀ other ≠ pid, info'.mapOf other = info.mapOf other

/-- What `_save` returns stands for what it was given. -/
theorem save_stands {info : RecipeInfo Pid α} {map : Dict ℕ α}
    (agrees : info.Agrees map)
    (pid : Pid) (deps : Option (Deps κ α)) :
    ∃ map', (info.save deps).1.Agrees map' ∧
      Stands pid map (info.save deps).2 deps map' := by
  cases deps with
  | none =>
      exact ⟨map, agrees, fun receiver same =>
        ⟨receiver, rfl, same, fun _ _ => rfl⟩⟩
  | some deps =>
      obtain ⟨info', refs, map', saved, agrees', long, restored⟩ :=
        foldl_restoreRef agrees [] deps.entries
      have isSaved : info.save (some deps) = (info', some refs) := by
        rw [save]
        simp [saved]
      rw [isSaved]
      cases refs with
      | nil =>
          have noEntries : deps.entries = [] :=
            List.length_eq_zero_iff.mp long.symm
          have isEmpty : deps = .empty := Deps.ext noEntries
          subst isEmpty
          obtain ⟨_, nothing, _⟩ := restored info .empty
          have sameMap : map = map' :=
            congrArg Restoring.map (Except.ok.inj nothing)
          exact ⟨map', agrees', fun receiver same =>
            ⟨receiver, rfl, same.trans sameMap, fun _ _ => rfl⟩⟩
      | cons ref refs =>
          refine ⟨map', agrees', ?_⟩
          intro receiver same
          obtain ⟨receiver', ran, kept⟩ := restored receiver .empty
          rw [foldl_set_entries] at ran
          refine ⟨{ receiver' with
            restoreMap := receiver'.restoreMap.set pid map' }, ?_, ?_, ?_⟩
          · rw [restore, same, ran]
            rfl
          · simp [mapOf]
          · intro other different
            rw [mapOf, Dict.get?_set_of_ne _ _ different, kept, mapOf]

/-- Messages that are under way, with what they stand for. -/
inductive Pending (pid : Pid) :
    Dict ℕ α → List (Option (List (Ref κ α))) → List (Option (Deps κ α)) →
      Dict ℕ α → Prop
  | nil (map : Dict ℕ α) : Pending pid map [] [] map
  | cons {map map' last : Dict ℕ α} {refs : Option (List (Ref κ α))}
      {deps : Option (Deps κ α)}
      {messages : List (Option (List (Ref κ α)))}
      {values : List (Option (Deps κ α))}
      (stands : Stands pid map refs deps map')
      (later : Pending pid map' messages values last) :
      Pending pid map (refs :: messages) (deps :: values) last

variable {messages : List (Option (List (Ref κ α)))}
  {values : List (Option (Deps κ α))}

theorem Pending.snoc {pid : Pid} {map last last' : Dict ℕ α}
    {refs : Option (List (Ref κ α))} {deps : Option (Deps κ α)}
    (pending : Pending pid map messages values last)
    (stands : Stands pid last refs deps last') :
    Pending pid map (messages ++ [refs]) (values ++ [deps]) last' := by
  induction pending with
  | nil map => exact .cons stands (.nil last')
  | cons first later induction => exact .cons first (induction stands)

theorem Pending.length_eq {pid : Pid} {map last : Dict ℕ α}
    (pending : Pending pid map messages values last) :
    values.length = messages.length := by
  induction pending with
  | nil map => rfl
  | cons stands later induction =>
      rw [List.length_cons, List.length_cons, induction]

end RecipeInfo

open RecipeInfo

/-- The processes that send, the one that receives, and the messages under way.
What was sent and what was restored is kept beside them. -/
structure Streams (Pid κ α : Type) [DecidableEq κ] [DecidableEq α] where
  senders : Pid → RecipeInfo Pid α
  receiver : RecipeInfo Pid α
  messages : Pid → List (Option (List (Ref κ α)))
  sent : Pid → List (Option (Deps κ α))
  restored : Pid → List (Option (Deps κ α))

inductive StreamEvent (Pid κ α : Type) [DecidableEq κ] where
  | save (pid : Pid) (deps : Option (Deps κ α))
  | restore (pid : Pid)

namespace Streams

variable {Pid κ α : Type} [DecidableEq Pid] [DecidableEq κ] [DecidableEq α]

/-- Each sender has called `reset`, whatever it did before; so may the receiver
have. -/
def start (senders : Pid → RecipeInfo Pid α) (receiver : RecipeInfo Pid α) :
    Streams Pid κ α where
  senders pid := (senders pid).reset
  receiver := receiver
  messages _ := []
  sent _ := []
  restored _ := []

/-- A process saves a dictionary, or the receiver restores the oldest message of
a process. -/
def step (streams : Streams Pid κ α) :
    StreamEvent Pid κ α → Except ℕ (Streams Pid κ α)
  | .save pid deps =>
      let saved := (streams.senders pid).save deps
      .ok { streams with
        senders := Function.update streams.senders pid saved.1
        messages := Function.update streams.messages pid
          (streams.messages pid ++ [saved.2])
        sent := Function.update streams.sent pid (streams.sent pid ++ [deps]) }
  | .restore pid =>
      match streams.messages pid with
      | [] => .ok streams
      | refs :: messages => do
          let (receiver, deps) ← streams.receiver.restore pid refs
          return { streams with
            receiver := receiver
            messages := Function.update streams.messages pid messages
            restored := Function.update streams.restored pid
              (streams.restored pid ++ [deps]) }

/-- The messages under way from each process stand for what was sent and not yet
restored. -/
def InStep (streams : Streams Pid κ α) : Prop :=
  ∀ pid, ∃ values map, streams.sent pid = streams.restored pid ++ values ∧
    Pending pid (streams.receiver.mapOf pid) (streams.messages pid) values map ∧
    (streams.senders pid).Agrees map

theorem inStep_start (senders : Pid → RecipeInfo Pid α)
    (receiver : RecipeInfo Pid α) :
    (start senders receiver : Streams Pid κ α).InStep :=
  fun pid => ⟨[], receiver.mapOf pid, rfl, .nil _, agrees_reset _ _⟩

theorem InStep.step {streams : Streams Pid κ α} (inStep : streams.InStep)
    (event : StreamEvent Pid κ α) : ∃ next, streams.step event = .ok next ∧
      next.InStep := by
  cases event with
  | save pid deps =>
      refine ⟨_, rfl, ?_⟩
      intro other
      by_cases same : other = pid
      · subst same
        obtain ⟨values, map, sent, pending, agrees⟩ := inStep other
        obtain ⟨map', agrees', stands⟩ := save_stands agrees other deps
        refine ⟨values ++ [deps], map', ?_, ?_, ?_⟩
        · simp [sent]
        · simpa using pending.snoc stands
        · simpa using agrees'
      · simpa [same] using inStep other
  | restore pid =>
      obtain ⟨values, map, sent, pending, agrees⟩ := inStep pid
      cases found : streams.messages pid with
      | nil => exact ⟨streams, by simp [Streams.step, found], inStep⟩
      | cons refs messages =>
          rw [found] at pending
          cases pending with
          | cons stands later =>
              rename_i map' deps values
              obtain ⟨receiver, ran, isMap, others⟩ :=
                stands streams.receiver rfl
              refine ⟨_, by rw [Streams.step, found]; simp only [ran]; rfl, ?_⟩
              intro other
              by_cases same : other = pid
              · subst same
                refine ⟨values, map, ?_, ?_, agrees⟩
                · simp [sent]
                · simpa [isMap] using later
              · simpa [same, others other same] using inStep other

theorem InStep.run {streams : Streams Pid κ α} (inStep : streams.InStep)
    (events : List (StreamEvent Pid κ α)) :
    ∃ last, events.foldlM Streams.step streams = .ok last ∧ last.InStep := by
  induction events generalizing streams with
  | nil => exact ⟨streams, rfl, inStep⟩
  | cons event events induction =>
      obtain ⟨next, ran, inStepNext⟩ := inStep.step event
      obtain ⟨last, later, inStepLast⟩ := induction inStepNext
      refine ⟨last, ?_, inStepLast⟩
      rw [List.foldlM_cons, ran]
      exact later

/-- However the messages are sent and received, those of each process are
restored, in order and without an error, to what it saved, and what is not
restored yet is under way. -/
theorem restore_save (senders : Pid → RecipeInfo Pid α)
    (receiver : RecipeInfo Pid α)
    (events : List (StreamEvent Pid κ α)) : ∃ streams,
      events.foldlM step (start senders receiver) = .ok streams ∧
      ∀ pid, ∃ pending, streams.sent pid = streams.restored pid ++ pending ∧
        pending.length = (streams.messages pid).length := by
  obtain ⟨streams, ran, inStep⟩ := (inStep_start senders receiver).run events
  refine ⟨streams, ran, ?_⟩
  intro pid
  obtain ⟨pending, map, sent, underWay, _⟩ := inStep pid
  exact ⟨pending, sent, underWay.length_eq⟩

end Streams

end Nvbmc.SigGen
