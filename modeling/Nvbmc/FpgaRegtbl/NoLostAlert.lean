import Nvbmc.FpgaRegtbl.AlertStatus

/-!
# Lost alerts

`clear_all_alerts` clears every bit, the dump before it may have missed some. If
`clear_alerts` never fails, all assertions stay accounted for along a run if and
only if each clear finds only alerts that have been dumped and whose files no
later register of the table has removed.
-/

namespace Nvbmc.FpgaRegtbl

open Nvbmc.Library

def Phase.Removes (file : Text) : Phase → Prop
  | .removing query => query.file = file
  | _ => False

/-- The alerts of the hardware are being cached. -/
def Phase.Caches : Phase → Prop
  | .caching _ _ _ _ | .clearing _ _ _ => True
  | _ => False

/-- Where an assertion is. -/
inductive Standing (state : State) (assertion : Assertion) : Prop where
  | live (live : assertion.live = true)
      (held : assertion.held = true →
        state.phase.Caches ∧ assertion.file ∈ state.files)
      (answers : assertion.answers = 0)
      (isSet : assertion.register.IsSet state.hardware assertion.device)
  | held (live : assertion.live = false) (held : assertion.held = true)
      (file : assertion.file ∈ state.files)
      (waiting : ¬ state.phase.Removes assertion.file → assertion.answers = 0)
      (answered : state.phase.Removes assertion.file → assertion.answers = 1)
  | answered (live : assertion.live = false) (held : assertion.held = false)
      (answers : assertion.answers = 1)

theorem Standing.accounted {state : State} {assertion : Assertion}
    (standing : Standing state assertion) : Accounted state assertion := by
  cases standing with
  | live live _ answers isSet =>
      exact ⟨.inl ⟨live, isSet⟩, by omega⟩
  | held _ held file waiting answered =>
      refine ⟨.inr (.inl ⟨held, file⟩), ?_⟩
      by_cases removes : state.phase.Removes assertion.file
      · exact (answered removes).le
      · have answers := waiting removes
        omega
  | answered _ _ answers => exact ⟨.inr (.inr answers), answers.le⟩

def Phase.BeforeClear : Phase → Prop
  | .dumping _ _ _ _ | .caching _ _ _ _ | .clearing _ _ _ => True
  | _ => False

/-- The files that the rows of a table leave in an empty cache. -/
def Left (table : Table) (dump : Dump) (rows : List Register)
    (files : List Text) : Prop :=
  dumpAllAlerts table.glob 64 rows (dumpText dump.primary)
    (dumpText dump.secondary) [] = some files

def Cached (table : Table) (state : State) : Prop :=
  match state.phase with
  | .dumping _ _ _ _ => state.files = []
  | .caching _ dump rows commands =>
      ∃ done, done ++ rows = table.rows ∧
        Left table dump done (runAll table.glob state.files commands)
  | .clearing _ dump _ => Left table dump table.rows state.files
  | _ => True

/-- Before the clear no assertion is held by a file of an earlier one. -/
structure Tracked (table : Table) (monitored : Monitored) : Prop where
  standing : ∀ assertion ∈ monitored.assertions,
    Standing monitored.state assertion
  fresh : monitored.state.phase.BeforeClear →
    ∀ assertion ∈ monitored.assertions, assertion.held = true →
      assertion.live = true
  cached : Cached table monitored.state

theorem Tracked.initial (table : Table) : Tracked table .initial := by
  constructor
  · simp [Monitored.initial]
  · simp [Monitored.initial]
  · trivial

section Cache

variable {table : Table} {dump : Dump} {rows : List Register}
  {files : List Text}

theorem Left.append_row {row : Register} {devices : List ℕ}
    (left : Left table dump rows files)
    (isFound : row.alertDevices 64 (dumpText dump.primary)
      (dumpText dump.secondary) = some devices) :
    Left table dump (rows ++ [row])
      (runAll table.glob files (alertCommands row.name devices)) := by
  rw [Left, dumpAllAlerts] at left ⊢
  rw [List.foldlM_append, left]
  simp [isFound]

theorem Left.mem_iff (left : Left table dump table.rows files) {name : Text}
    {device : ℕ} :
    alertFile name device ∈ files ↔ Kept table dump name device := by
  obtain ⟨ends, rfl⟩ := dumpAllAlerts_eq_some.mp left
  have found {row : Register} (isRow : row ∈ table.rows) (device : ℕ) :
      device ∈ (row.alertDevices 64 (dumpText dump.primary)
          (dumpText dump.secondary)).getD [] ↔
        row.Finds dump.primary dump.secondary device := by
    obtain ⟨devices, isFound⟩ := ends row isRow
    rw [isFound, Option.getD_some]
    exact (mem_alertDevices isFound).2 device
  rw [mem_runAll_alertCommands, Kept]
  simp only [List.not_mem_nil, false_and, false_or, alertFile_inj]
  constructor
  · rintro ⟨row, later, part, ⟨_, shown, rfl, rfl⟩, others⟩
    have isRow := part.mem List.mem_cons_self
    exact ⟨row, later, part, rfl, (found isRow _).mp shown, others⟩
  · rintro ⟨row, later, part, rfl, shown, others⟩
    have isRow := part.mem List.mem_cons_self
    exact ⟨row, later, part, ⟨device, (found isRow _).mpr shown, rfl, rfl⟩,
      others⟩

end Cache

section Hardware

variable {memory : Memory} {register : Register} {device : ℕ}

theorem isSet_assert (isSet : register.IsSet memory device) (module : Module)
    (bit : ℕ) : register.IsSet (memory.assert module bit) device := by
  rw [Register.IsSet] at isSet ⊢
  cases module <;> cases memory <;>
    cases slot : (register.slot device).1 <;>
    simp_all [Memory.assert, Memory.data, Nat.testBit_or]

theorem isSet_assert_self :
    register.IsSet (memory.assert (register.slot device).1
      (register.bit (register.slot device).2)) device := by
  rw [Register.IsSet]
  cases slot : (register.slot device).1 <;>
    simp [Memory.assert, Memory.data, Nat.testBit_or, Nat.one_shiftLeft]

end Hardware

section Steps

variable {table : Table} {monitored : Monitored} {state after : State}
  {assertion : Assertion}

theorem Standing.of_same (standing : Standing state assertion)
    (isSet : assertion.register.IsSet state.hardware assertion.device →
      assertion.register.IsSet after.hardware assertion.device)
    (files : after.files = state.files)
    (caches : state.phase.Caches → assertion.file ∈ state.files →
      after.phase.Caches)
    (before : ¬ state.phase.Removes assertion.file)
    (now : ¬ after.phase.Removes assertion.file) :
    Standing after assertion := by
  cases standing with
  | live live held answers bit =>
      refine .live live (fun isHeld => ?_) answers (isSet bit)
      obtain ⟨isCached, file⟩ := held isHeld
      exact ⟨caches isCached file, by rwa [files]⟩
  | held live held file waiting _ =>
      refine .held live held (by rwa [files]) (fun _ => waiting before) ?_
      exact fun removes => absurd removes now
  | answered live held answers => exact .answered live held answers

theorem not_removes_nextPage (query : Query) (module : Module) (page : ℕ)
    (dump : Dump) (file : Text) :
    ¬ (table.nextPage query module page dump).Removes file := by
  rw [Table.nextPage]
  split_ifs <;> simp [Phase.Removes]

theorem cached_nextPage (empty : state.files = []) {query : Query}
    {module : Module} {page : ℕ} {dump : Dump}
    (phase : state.phase = table.nextPage query module page dump) :
    Cached table state := by
  rw [Cached, phase, Table.nextPage]
  split_ifs
  · exact empty
  · exact empty
  · refine ⟨[], rfl, ?_⟩
    rw [empty]
    rfl

variable (tracked : Tracked table monitored)
include tracked

theorem Tracked.assert (row device : ℕ) :
    Tracked table (monitored.perform table (.assert row device)) := by
  simp only [Monitored.perform, Table.perform]
  cases table.asserted row device with
  | none => exact tracked
  | some register =>
      simp only
      constructor
      · intro assertion member
        rcases List.mem_append.mp member with old | new
        · have standing := tracked.standing assertion old
          cases standing with
          | live live held answers isSet =>
              exact .live live held answers (isSet_assert isSet _ _)
          | held live held file waiting answered =>
              exact .held live held file waiting answered
          | answered live held answers => exact .answered live held answers
        · rw [List.mem_singleton.mp new]
          refine .live rfl ?_ rfl isSet_assert_self
          rintro ⟨⟩
      · intro before assertion member
        rcases List.mem_append.mp member with old | new
        · exact tracked.fresh before assertion old
        · rw [List.mem_singleton.mp new]
          exact fun _ => rfl
      · exact tracked.cached

theorem Tracked.held_of_empty (empty : monitored.state.files = [])
    {assertion : Assertion} (member : assertion ∈ monitored.assertions) :
    assertion.held = false := by
  rw [← Bool.not_eq_true]
  intro isHeld
  have file : assertion.file ∈ monitored.state.files := by
    cases tracked.standing assertion member with
    | live _ held => exact (held isHeld).2
    | held _ _ file => exact file
    | answered _ held => exact absurd (held.symm.trans isHeld) (by simp)
  rw [empty] at file
  cases file

theorem Tracked.query (query : Query) :
    Tracked table (monitored.perform table (.query query)) := by
  simp only [Monitored.perform, Table.perform]
  cases phase : monitored.state.phase with
  | idle =>
      have before (file : Text) : ¬ monitored.state.phase.Removes file := by
        simp [phase, Phase.Removes]
      have uncached : ¬ monitored.state.phase.Caches := by
        simp [phase, Phase.Caches]
      simp only
      split_ifs with empty
      · constructor
        · intro assertion member
          exact (tracked.standing assertion member).of_same id rfl
            (fun caches => absurd caches uncached) (before _)
            (not_removes_nextPage _ _ _ _ _)
        · intro _ assertion member held
          rw [tracked.held_of_empty empty member] at held
          cases held
        · exact cached_nextPage empty rfl
      · constructor
        · intro assertion member
          exact (tracked.standing assertion member).of_same id rfl
            (fun caches => absurd caches uncached) (before _)
            (by simp [Phase.Removes])
        · exact False.elim
        · trivial
  | _ => exact tracked

theorem Tracked.fail (clears : Clears monitored.state .fail) :
    Tracked table (monitored.perform table .fail) := by
  simp only [Monitored.perform, Table.perform]
  cases phase : monitored.state.phase with
  | dumping =>
      constructor
      · intro assertion member
        exact (tracked.standing assertion member).of_same id rfl
          (by simp [phase, Phase.Caches]) (by simp [phase, Phase.Removes])
          (by simp [Phase.Removes])
      · exact False.elim
      · trivial
  | clearing query dump attempt =>
      have retried : attempt < 3 := by simpa [Clears, phase] using clears
      simp only [if_pos retried]
      constructor
      · intro assertion member
        exact (tracked.standing assertion member).of_same id rfl
          (fun _ _ => trivial) (by simp [phase, Phase.Removes])
          (by simp [Phase.Removes])
      · intro _ assertion member
        exact tracked.fresh (by rw [phase]; trivial) assertion member
      · have left := tracked.cached
        simp only [Cached, phase] at left
        exact left
  | _ => exact tracked

theorem Tracked.cache {query : Query} {dump : Dump} {rows : List Register}
    {command : FileCommand} {commands : List FileCommand}
    (phase : monitored.state.phase =
      .caching query dump rows (command :: commands))
    {assertion : Assertion} (member : assertion ∈ monitored.assertions) :
    Standing (table.command monitored.state)
      (assertion.observe table.glob monitored.state) := by
  have fresh := tracked.fresh (by rw [phase]; trivial) assertion member
  have files : (table.command monitored.state).files =
      command.run table.glob monitored.state.files := by
    simp [Table.command, phase]
  have caches : (table.command monitored.state).phase.Caches := by
    simp [Table.command, phase, Phase.Caches]
  have hardware : (table.command monitored.state).hardware =
      monitored.state.hardware := by
    simp [Table.command, phase]
  cases tracked.standing assertion member with
  | live live held answers isSet =>
      cases command with
      | removeAll pattern =>
          simp only [Assertion.observe, phase]
          refine .live live (fun isHeld => ⟨caches, ?_⟩) answers
            (by rwa [hardware])
          simp only [Bool.and_eq_true, Bool.not_eq_true'] at isHeld
          rw [files, FileCommand.run, List.mem_filter, decide_eq_true_eq]
          exact ⟨(held isHeld.1).2, by simp [isHeld.2]⟩
      | touch file =>
          simp only [Assertion.observe, phase]
          refine .live live (fun isHeld => ⟨caches, ?_⟩) answers
            (by rwa [hardware])
          simp only [Bool.or_eq_true, Bool.and_eq_true, decide_eq_true_eq]
            at isHeld
          rw [files, FileCommand.run, List.mem_insert_iff]
          rcases isHeld with old | ⟨_, same⟩
          · exact .inr (held old).2
          · exact .inl same.symm
  | held dead held => exact absurd (dead.symm.trans (fresh held)) (by simp)
  | answered dead held answers =>
      cases command with
      | removeAll pattern =>
          simp only [Assertion.observe, phase, held]
          exact .answered dead rfl answers
      | touch file =>
          simp only [Assertion.observe, phase, held, dead]
          exact .answered rfl rfl answers

omit tracked

variable (standing : Standing state assertion)
include standing

theorem Standing.clear {query : Query} {dump : Dump} {attempt : ℕ}
    (fresh : assertion.held = true → assertion.live = true)
    (phase : state.phase = .clearing query dump attempt)
    (kept : assertion.live → assertion.file ∈ state.files) :
    Standing (table.command state) (assertion.observe table.glob state) := by
  have waits : ¬ (table.command state).phase.Removes assertion.file := by
    simp [Table.command, phase, Phase.Removes]
  simp only [Assertion.observe, phase]
  cases standing with
  | live live _ answers _ =>
      have file := kept live
      refine .held rfl (by simp [live, file]) ?_ (fun _ => answers)
        fun removes => absurd removes waits
      simp only [Table.command, phase]
      exact file
  | held dead held => exact absurd (dead.symm.trans (fresh held)) (by simp)
  | answered live held answers =>
      exact .answered rfl (by simp [live, held]) answers

theorem Standing.test {query : Query} (phase : state.phase = .testing query) :
    Standing (table.command state) (assertion.observe table.glob state) := by
  have removes_iff : (table.command state).phase.Removes assertion.file ↔
      query.file = assertion.file := by
    simp [Table.command, phase, Phase.Removes]
  simp only [Assertion.observe, phase]
  cases standing with
  | live live held answers isSet =>
      have unheld : ¬ assertion.held = true := by
        intro isHeld
        have caches := (held isHeld).1
        rw [phase] at caches
        exact caches
      rw [if_neg (fun asked => unheld asked.1)]
      refine .live live (fun isHeld => absurd isHeld unheld) answers ?_
      simp only [Table.command, phase]
      exact isSet
  | held live held file waiting _ =>
      have answers := waiting (by simp [phase, Phase.Removes])
      have remains : assertion.file ∈ (table.command state).files := by
        simp only [Table.command, phase]
        exact file
      split_ifs with asked
      · refine .held live held remains
          (fun waits => absurd (removes_iff.mpr asked.2.1) waits) fun _ => ?_
        simp only [answers]
      · refine .held live held remains (fun _ => answers) fun removes => ?_
        have same := removes_iff.mp removes
        exact absurd ⟨held, same, same ▸ file⟩ asked
  | answered live held answers =>
      rw [if_neg (by simp [held])]
      exact .answered live held answers

theorem Standing.remove {query : Query}
    (phase : state.phase = .removing query) :
    Standing (table.command state) (assertion.observe table.glob state) := by
  have idle : ¬ (table.command state).phase.Removes assertion.file := by
    simp [Table.command, phase, Phase.Removes]
  simp only [Assertion.observe, phase]
  cases standing with
  | live live held answers isSet =>
      have unchanged : (table.command state).hardware = state.hardware := by
        simp [Table.command, phase]
      have unheld : ¬ assertion.held = true := by
        intro isHeld
        have caches := (held isHeld).1
        rw [phase] at caches
        exact caches
      split_ifs
      · refine .live live ?_ answers (by rwa [unchanged])
        rintro ⟨⟩
      · exact .live live (fun isHeld => absurd isHeld unheld) answers
          (by rwa [unchanged])
  | held live held file waiting answered =>
      split_ifs with same
      · exact .answered live rfl (answered (by rw [phase]; exact same))
      · refine .held live held ?_ (fun _ => waiting ?_)
          fun removes => absurd removes idle
        · simp only [Table.command, phase, List.mem_filter, decide_eq_true_eq]
          exact ⟨file, fun other => same other.symm⟩
        · rw [phase]
          exact same
  | answered live held answers =>
      split_ifs
      · exact .answered live rfl answers
      · exact .answered live held answers

omit standing

include tracked

theorem Tracked.of_phase
    (observe : ∀ assertion : Assertion,
      assertion.observe table.glob monitored.state = assertion)
    (hardware : (table.command monitored.state).hardware =
      monitored.state.hardware)
    (files : (table.command monitored.state).files = monitored.state.files)
    (caches : monitored.state.phase.Caches → monitored.state.files ≠ [] →
      (table.command monitored.state).phase.Caches)
    (removes : ∀ file, ¬ monitored.state.phase.Removes file ∧
      ¬ (table.command monitored.state).phase.Removes file)
    (before : (table.command monitored.state).phase.BeforeClear →
      monitored.state.phase.BeforeClear)
    (cached : Cached table (table.command monitored.state)) :
    Tracked table (monitored.perform table .command) := by
  simp only [Monitored.perform, Table.perform, observe, List.map_id']
  constructor
  · intro assertion member
    apply (tracked.standing assertion member).of_same (hardware ▸ id) files _
      (removes _).1 (removes _).2
    intro isCached file
    apply caches isCached
    intro empty
    rw [empty] at file
    cases file
  · exact fun isBefore => tracked.fresh (before isBefore)
  · exact cached

theorem Tracked.command (caught : Caught table monitored .command) :
    Tracked table (monitored.perform table .command) := by
  cases phase : monitored.state.phase with
  | idle =>
      have same : monitored.perform table .command = monitored := by
        simp [Monitored.perform, Table.perform, Table.command,
          Assertion.observe, phase]
      rwa [same]
  | dumping query module page dump =>
      have empty := tracked.cached
      simp only [Cached, phase] at empty
      have next : (table.command monitored.state).phase =
          table.nextPage query module (page + 1)
            (dump.read monitored.state.hardware module page) := by
        simp only [Table.command, phase]
      apply tracked.of_phase
      · simp [Assertion.observe, phase]
      · simp [Table.command, phase]
      · simp [Table.command, phase]
      · simp [phase, Phase.Caches]
      · intro file
        rw [next]
        exact ⟨by simp [phase, Phase.Removes], not_removes_nextPage _ _ _ _ _⟩
      · simp [phase, Phase.BeforeClear]
      · apply cached_nextPage _ next
        simp only [Table.command, phase]
        exact empty
  | caching query dump rows commands =>
      have cached := tracked.cached
      simp only [Cached, phase] at cached
      obtain ⟨done, isTable, left⟩ := cached
      cases commands with
      | cons command commands =>
          constructor
          · intro assertion member
            obtain ⟨old, among, rfl⟩ := List.mem_map.mp member
            exact tracked.cache phase among
          · intro _ assertion member
            obtain ⟨old, among, rfl⟩ := List.mem_map.mp member
            have fresh := tracked.fresh (by rw [phase]; trivial) old among
            cases command <;>
              simp only [Assertion.observe, phase, Bool.and_eq_true,
                Bool.or_eq_true]
            · exact fun held => fresh held.1
            · exact fun held => held.elim fresh And.left
          · simp only [Monitored.perform, Table.perform, Cached, Table.command,
              phase]
            exact ⟨done, isTable, left⟩
      | nil =>
          cases rows with
          | cons row rows =>
              cases isFound : row.alertDevices 64 (dumpText dump.primary)
                  (dumpText dump.secondary) with
              | none =>
                  have same : monitored.perform table .command = monitored := by
                    simp [Monitored.perform, Table.perform, Table.command,
                      Assertion.observe, phase, isFound]
                  rwa [same]
              | some devices =>
                  have next : (table.command monitored.state).phase =
                      .caching query dump rows
                        (alertCommands row.name devices) := by
                    simp [Table.command, phase, isFound]
                  have files : (table.command monitored.state).files =
                      monitored.state.files := by
                    simp [Table.command, phase, isFound]
                  apply tracked.of_phase
                  · simp [Assertion.observe, phase]
                  · simp [Table.command, phase, isFound]
                  · exact files
                  · simp [next, Phase.Caches]
                  · simp [next, phase, Phase.Removes]
                  · simp [phase, Phase.BeforeClear]
                  · simp only [Cached, next, files]
                    refine ⟨done ++ [row], ?_, left.append_row isFound⟩
                    rw [List.append_assoc]
                    exact isTable
          | nil =>
              have next : (table.command monitored.state).phase =
                  if monitored.state.files = [] then .testing query
                  else .clearing query dump 1 := by
                simp [Table.command, phase]
              have files : (table.command monitored.state).files =
                  monitored.state.files := by
                simp [Table.command, phase]
              rw [List.append_nil] at isTable
              apply tracked.of_phase
              · simp [Assertion.observe, phase]
              · simp [Table.command, phase]
              · exact files
              · intro _ some
                rw [next, if_neg some]
                trivial
              · intro file
                rw [next]
                split_ifs <;> simp [phase, Phase.Removes]
              · simp [phase, Phase.BeforeClear]
              · rw [Cached, next]
                split_ifs
                · trivial
                · simp only [files]
                  exact isTable ▸ left
  | clearing query dump attempt =>
      have left := tracked.cached
      simp only [Cached, phase] at left
      simp only [Caught, phase] at caught
      constructor
      · intro assertion member
        obtain ⟨old, among, rfl⟩ := List.mem_map.mp member
        apply (tracked.standing old among).clear _ phase
        · exact fun live => left.mem_iff.mpr (caught old among live)
        · exact tracked.fresh (by rw [phase]; trivial) old among
      · simp [Monitored.perform, Table.perform, Table.command, phase,
          Phase.BeforeClear]
      · simp [Monitored.perform, Table.perform, Table.command, phase, Cached]
  | testing query =>
      constructor
      · intro assertion member
        obtain ⟨old, among, rfl⟩ := List.mem_map.mp member
        exact (tracked.standing old among).test phase
      · simp [Monitored.perform, Table.perform, Table.command, phase,
          Phase.BeforeClear]
      · simp [Monitored.perform, Table.perform, Table.command, phase, Cached]
  | removing query =>
      constructor
      · intro assertion member
        obtain ⟨old, among, rfl⟩ := List.mem_map.mp member
        exact (tracked.standing old among).remove phase
      · simp [Monitored.perform, Table.perform, Table.command, phase,
          Phase.BeforeClear]
      · simp [Monitored.perform, Table.perform, Table.command, phase, Cached]

theorem Tracked.perform {action : Action}
    (clears : Clears monitored.state action)
    (caught : Caught table monitored action) :
    Tracked table (monitored.perform table action) := by
  cases action with
  | assert row device => exact tracked.assert row device
  | query query => exact tracked.query query
  | command => exact tracked.command caught
  | fail => exact tracked.fail clears

/-- An asserted alert that has not been kept is lost when the alerts are
cleared. -/
theorem Tracked.caught {action : Action}
    (accounted : ∀ assertion ∈ (monitored.perform table action).assertions,
      Accounted (monitored.perform table action).state assertion) :
    Caught table monitored action := by
  cases action with
  | command =>
      cases phase : monitored.state.phase with
      | clearing query dump attempt =>
          have left := tracked.cached
          simp only [Cached, phase] at left
          simp only [Caught, phase]
          intro assertion member live
          apply left.mem_iff.mp
          have after := accounted (assertion.observe table.glob monitored.state)
            (List.mem_map_of_mem member)
          cases tracked.standing assertion member with
          | live _ held answers _ =>
              rcases after.somewhere with ⟨live, _⟩ | ⟨_, file⟩ | answered
              · simp [Assertion.observe, phase] at live
              · simpa [Monitored.perform, Table.perform, Table.command,
                  Assertion.observe, Assertion.file, phase] using file
              · simp [Assertion.observe, phase, answers] at answered
          | held dead => exact absurd (dead.symm.trans live) (by simp)
          | answered dead => exact absurd (dead.symm.trans live) (by simp)
      | _ => simp [Caught, phase]
  | _ => trivial

omit tracked

theorem AccountedAlong.here {actions : List Action}
    (along : AccountedAlong table monitored actions) :
    ∀ assertion ∈ monitored.assertions,
      Accounted monitored.state assertion := by
  cases actions with
  | nil => exact along
  | cons => exact along.1

theorem Tracked.accountedAlong_iff (tracked : Tracked table monitored)
    {actions : List Action}
    (clears : ClearsAlong table monitored.state actions) :
    AccountedAlong table monitored actions ↔
      CaughtAlong table monitored actions := by
  have accounted : ∀ assertion ∈ monitored.assertions,
      Accounted monitored.state assertion :=
    fun assertion member => (tracked.standing assertion member).accounted
  induction actions generalizing monitored with
  | nil => exact iff_of_true accounted trivial
  | cons action actions next =>
      rw [ClearsAlong, Bool.and_eq_true] at clears
      simp only [AccountedAlong, CaughtAlong]
      constructor
      · intro along
        have caught := tracked.caught along.2.here
        have after := tracked.perform clears.1 caught
        exact ⟨caught, (next after clears.2 along.2.here).mp along.2⟩
      · intro along
        have after := tracked.perform clears.1 along.1
        refine ⟨accounted, (next after clears.2 ?_).mpr along.2⟩
        exact fun assertion member =>
          (after.standing assertion member).accounted

end Steps

def twoDevices : Table where
  rows :=
    [⟨"A".toList, 0, 1, 0x30, (4, 5), none, by decide, isFileName_sample⟩]
  pages := 1
  secondary := false
  glob := .literal

def firstDevice : Query :=
  ⟨"A".toList, 0, isFileName_sample⟩

/-- Device 1 is asserted after the page has been read. -/
def lateAssertion : List Action :=
  [.assert 0 0, .query firstDevice, .command, .assert 0 1, .command,
    .command, .command, .command, .command]

theorem AccountedAlong.last {table : Table} {monitored : Monitored}
    {actions : List Action} (along : AccountedAlong table monitored actions) :
    let after := actions.foldl (Monitored.perform table) monitored
    ∀ assertion ∈ after.assertions, Accounted after.state assertion := by
  induction actions generalizing monitored with
  | nil => exact along
  | cons action actions next => exact next along.2

/-- An alert whose clear has failed is cached and answered once more. -/
example :
    let once : List Action := .query firstDevice :: .replicate 5 .command ++
      .replicate 3 .fail ++ .replicate 2 .command
    ((.assert 0 0 :: once ++ once).foldl (Monitored.perform twoDevices)
      .initial).assertions.map Assertion.answers = [2] := by
  decide +kernel

end Nvbmc.FpgaRegtbl
