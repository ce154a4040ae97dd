import Nvbmc.Firewall.Agreement

/-!
# Rule ids

The low two bytes of a mark are the id of its rule, which the kernel is sent
when the rule is deleted.  They are the index of the rule in the dictionary only
below `2 ^ 16`; the index itself is never reduced.
-/

namespace Nvbmc.Firewall

open Nvbmc.Library

section Marks

variable (index verdict : ℕ)

theorem initMark_land : initMark &&& 0xFFFF0000 = initMark := by
  decide

theorem initMark_testBit_low : ∀ bit < 16, initMark.testBit bit = false := by
  decide

theorem ruleMark_testBit (bit : ℕ) :
    (ruleMark index verdict).testBit bit =
      (((initMark.testBit bit || (index.testBit bit && decide (bit < 16))) &&
          !decide (26 = bit)) ||
        (decide (26 ≤ bit) && verdict.testBit (bit - 26))) := by
  have mask : (0xFFFF : ℕ) = 2 ^ 16 - 1 := by decide
  simp only [ruleMark, initMark_land, mask, Nat.testBit_or, Nat.testBit_ldiff,
    Nat.testBit_and, Nat.testBit_two_pow_sub_one, Nat.one_shiftLeft,
    Nat.testBit_two_pow, Nat.testBit_shiftLeft]

theorem ruleMark_mod : ruleMark index verdict % 2 ^ 16 = index % 2 ^ 16 := by
  apply Nat.eq_of_testBit_eq
  intro bit
  simp only [Nat.testBit_mod_two_pow]
  by_cases low : bit < 16
  · have clear : initMark.testBit bit = false := initMark_testBit_low bit low
    have notVerdict : ¬ 26 = bit := by omega
    have notAbove : ¬ 26 ≤ bit := by omega
    rw [ruleMark_testBit, clear]
    simp [low, notVerdict, notAbove]
  · simp [low]

theorem ruleMark_one_testBit_other {bit : ℕ} (above : 16 ≤ bit)
    (other : bit ≠ 26) :
    (ruleMark index 1).testBit bit = initMark.testBit bit := by
  have notLow : ¬ bit < 16 := by omega
  have different : ¬ 26 = bit := fun same => other same.symm
  have shifted : (decide (26 ≤ bit) && Nat.testBit 1 (bit - 26)) = false := by
    by_cases higher : 26 ≤ bit
    · have nonzero : bit - 26 ≠ 0 := by omega
      simp [Nat.testBit_eq_false_of_lt (Nat.one_lt_two_pow nonzero)]
    · simp [higher]
  rw [ruleMark_testBit, shifted]
  simp [notLow, different]

end Marks

/-- The mark a rule of the `POSTROUTING` chain sets. -/
def setMark (rule : Rule) : Option ℕ :=
  match rule.getLast? with
  | some (.text content) => ofHex? content
  | _ => none

theorem setMark_markRule (fields : Fields) (mark : ℕ) :
    setMark (markRule fields mark) = some mark := by
  simp [setMark, markRule, ofHex_hex]

structure Installed where
  mark : Option ℕ
  allowed : Option Bool

structure Monitored where
  daemon : Daemon
  installed : Dict ℕ Installed

namespace Monitored

def initial : Monitored :=
  ⟨.initial, []⟩

variable (state : Monitored)

def handle (call : Call) : Monitored :=
  let response := state.daemon.handle call
  { daemon := response.daemon
    installed :=
      match call with
      | .add data _ =>
          let rule := response.daemon.chains.postrouting.head?
          if response.answer = .added then
            state.installed.set state.daemon.index
              ⟨rule.bind setMark, verdict (Fields.ofData data).action⟩
          else state.installed
      | .delete _ _ => state.installed }

def Marked (index mark : ℕ) : Prop :=
  index ∈ state.daemon.rules.keys ∧
    (state.installed.get? index).bind Installed.mark = some mark

structure FaithfulIds : Prop where
  marked : ∀ index ∈ state.daemon.rules.keys, ∃ mark, state.Marked index mark
  nonzero : ∀ index mark, state.Marked index mark → mark % 2 ^ 16 ≠ 0
  different : ∀ index mark other otherMark, state.Marked index mark →
    state.Marked other otherMark → index ≠ other →
    mark % 2 ^ 16 ≠ otherMark % 2 ^ 16
  same : ∀ index mark, state.Marked index mark → mark % 2 ^ 16 = index
  allowed : ∀ index mark, state.Marked index mark →
    (state.installed.get? index).bind Installed.allowed = some (mark.testBit 26)
  others : ∀ index mark bit, state.Marked index mark → 16 ≤ bit → bit ≠ 26 →
    mark.testBit bit = initMark.testBit bit

/-- A deletion sends the low two bytes of the mark of the deleted rule. -/
def SendsId (call : Call) : Prop :=
  let after := state.daemon.handle call
  after.answer = .deleted → ∃ index mark, state.Marked index mark ∧
    after.daemon.rules = state.daemon.rules.del index ∧
    after.daemon.sent = state.daemon.sent ++ [mark % 2 ^ 16]

def FaithfulAlong : Monitored → List Call → Prop
  | state, [] => state.FaithfulIds
  | state, call :: calls =>
      state.FaithfulIds ∧ state.SendsId call ∧
        FaithfulAlong (state.handle call) calls

theorem FaithfulAlong.here {state : Monitored} {history : List Call}
    (along : state.FaithfulAlong history) : state.FaithfulIds := by
  cases history with
  | nil => exact along
  | cons => exact along.1

end Monitored

/-- A rule that is added gets an index of two bytes. -/
def InRange (daemon : Daemon) : Call → Prop
  | .add data failures =>
      (Fields.ofData data).Runs → ¬ failures.first → ¬ failures.second →
        daemon.index < 2 ^ 16
  | .delete _ _ => True

def InRangeAlong : Daemon → List Call → Prop
  | _, [] => True
  | daemon, call :: calls =>
      InRange daemon call ∧ InRangeAlong (daemon.handle call).daemon calls

section Steps

variable {daemon : Daemon} {data : Dict Text Value} {failures : Failures}

theorem addIptablesRule_cases :
    ((Fields.ofData data).Runs ∧ ¬ failures.first ∧ ¬ failures.second ∧
      daemon.addIptablesRule data failures = (let fields := Fields.ofData data
        let commands := ruleCommands fields (ruleMark daemon.index 1)
        ⟨.added, { daemon with
          chains := ⟨divertRule fields :: daemon.chains.prerouting,
            markRule fields (ruleMark daemon.index 1) ::
              daemon.chains.postrouting⟩
          rules := daemon.rules.set daemon.index commands
          index := daemon.index + 1 }, [commands.1, commands.2]⟩)) ∨
    (¬ ((Fields.ofData data).Runs ∧ ¬ failures.first ∧ ¬ failures.second) ∧
      (daemon.addIptablesRule data failures).answer.isError ∧
      (daemon.addIptablesRule data failures).daemon.rules = daemon.rules ∧
      (daemon.addIptablesRule data failures).daemon.index = daemon.index) := by
  by_cases runs : (Fields.ofData data).Runs
  · rw [addIptablesRule_of_two runs.two runs.accept,
      runBoth_insert runs.passable]
    obtain ⟨first, second⟩ := failures
    cases first with
    | true => simp [Answer.isError]
    | false =>
        cases second with
        | true => simp [Answer.isError]
        | false => simp [runs]
  · obtain ⟨error, same⟩ :=
      @addIptablesRule_of_not_runs daemon data failures runs
    right
    refine ⟨fun started => runs started.1, error, ?_, ?_⟩
    · rw [same]
    · rw [same]

theorem runBoth_cases (edited : Daemon) (commands : Command × Command)
    (onFailure : Answer) (onSuccess : Chains → Response) :
    (∃ chains, edited.runBoth commands failures onFailure onSuccess =
      onSuccess chains) ∨
    (((edited.runBoth commands failures onFailure onSuccess).answer = .raised ∨
        (edited.runBoth commands failures onFailure onSuccess).answer =
          onFailure) ∧
      (edited.runBoth commands failures onFailure onSuccess).daemon.rules =
        edited.rules ∧
      (edited.runBoth commands failures onFailure onSuccess).daemon.index =
        edited.index) := by
  simp only [Daemon.runBoth]
  cases runCommand edited.chains commands.1 failures.first with
  | raised => simp
  | failed => simp
  | done chains =>
      simp only
      cases runCommand chains commands.2 failures.second with
      | raised => simp
      | failed => simp
      | done after => exact .inl ⟨after, rfl⟩

theorem delIptablesRule_cases :
    (∃ index, index ∈ daemon.rules.keys ∧
      (daemon.delIptablesRule data failures).answer = .deleted ∧
      (daemon.delIptablesRule data failures).daemon.rules =
        daemon.rules.del index ∧
      (daemon.delIptablesRule data failures).daemon.index = daemon.index ∧
      (daemon.delIptablesRule data failures).daemon.sent =
        daemon.sent ++ [index]) ∨
    ((daemon.delIptablesRule data failures).answer.isError ∧ (∀ index, index ∈
        (daemon.delIptablesRule data failures).daemon.rules.keys ↔
          index ∈ daemon.rules.keys) ∧
      (daemon.delIptablesRule data failures).daemon.index = daemon.index) := by
  have keys_set {index : ℕ} {stored : Command × Command}
      (known : daemon.rules.get? index = some stored)
      (commands : Command × Command) (other : ℕ) :
      other ∈ (daemon.rules.set index commands).keys ↔
        other ∈ daemon.rules.keys := by
    rw [Dict.mem_keys_set]
    exact or_iff_right_of_imp fun same => same ▸ Dict.mem_keys_of_get? known
  simp only [Daemon.delIptablesRule]
  split
  · simp [Answer.isError]
  · next requested _ =>
      split
      · next first second index known natural =>
          rw [natural, Option.bind_some] at known
          split
          · simp [Answer.isError]
          · next secondDelete _ =>
              split
              · right
                simp [keys_set known, Answer.isError]
              · next firstDelete _ =>
                  rcases @runBoth_cases failures { daemon with
                    rules := daemon.rules.set index
                      (firstDelete, secondDelete) }
                    (firstDelete, secondDelete) .errorDeleting _ with
                    ⟨chains, done⟩ | ⟨answer, rules, same⟩
                  · left
                    rw [done]
                    exact ⟨index, Dict.mem_keys_of_get? known, rfl, rfl, rfl,
                      rfl⟩
                  · right
                    refine ⟨?_, ?_, same⟩
                    · rcases answer with answer | answer
                      · rw [answer]
                        rfl
                      · rw [answer]
                        rfl
                    · rw [rules]
                      exact keys_set known _
      · simp [Answer.isError]

end Steps

/-- Every live rule was installed with the mark of its index. -/
structure Tracked (state : Monitored) : Prop where
  started : 0 < state.daemon.index
  below : ∀ index ∈ state.daemon.rules.keys,
    0 < index ∧ index < state.daemon.index
  installed : ∀ index ∈ state.daemon.rules.keys,
    state.installed.get? index = some ⟨some (ruleMark index 1), some true⟩

namespace Tracked

variable {state : Monitored}

theorem initial : Tracked .initial := by
  constructor
  · exact Nat.one_pos
  · simp [Monitored.initial, Daemon.initial, Dict.keys]
  · simp [Monitored.initial, Daemon.initial, Dict.keys]

variable (tracked : Tracked state)
include tracked

theorem marked_iff {index mark : ℕ} :
    state.Marked index mark ↔
      index ∈ state.daemon.rules.keys ∧ ruleMark index 1 = mark := by
  rw [Monitored.Marked]
  apply and_congr_right
  intro live
  simp [tracked.installed index live]

/-- The ids are faithful as long as the indices of the live rules have two
bytes. -/
theorem faithfulIds_iff :
    state.FaithfulIds ↔ ∀ index ∈ state.daemon.rules.keys, index < 2 ^ 16 := by
  constructor
  · intro faithful index live
    have same := faithful.same index _ (tracked.marked_iff.mpr ⟨live, rfl⟩)
    rw [← same]
    exact Nat.mod_lt _ (by decide)
  · intro inRange
    have low {index : ℕ} (live : index ∈ state.daemon.rules.keys) :
        ruleMark index 1 % 2 ^ 16 = index := by
      rw [ruleMark_mod, Nat.mod_eq_of_lt (inRange index live)]
    constructor
    · exact fun index live => ⟨_, tracked.marked_iff.mpr ⟨live, rfl⟩⟩
    · intro index mark marked
      obtain ⟨live, rfl⟩ := tracked.marked_iff.mp marked
      have positive := (tracked.below index live).1
      rw [low live]
      omega
    · intro index mark other otherMark marked otherMarked different
      obtain ⟨live, rfl⟩ := tracked.marked_iff.mp marked
      obtain ⟨otherLive, rfl⟩ := tracked.marked_iff.mp otherMarked
      rwa [low live, low otherLive]
    · intro index mark marked
      obtain ⟨live, rfl⟩ := tracked.marked_iff.mp marked
      exact low live
    · intro index mark marked
      obtain ⟨live, rfl⟩ := tracked.marked_iff.mp marked
      rw [tracked.installed index live, ruleMark_testBit_verdict]
      rfl
    · intro index mark bit marked above other
      obtain ⟨live, rfl⟩ := tracked.marked_iff.mp marked
      exact ruleMark_one_testBit_other index above other

theorem sendsId (inRange : ∀ index ∈ state.daemon.rules.keys, index < 2 ^ 16)
    (call : Call) : state.SendsId call := by
  intro deleted
  cases call with
  | add data failures =>
      simp only [Daemon.handle] at deleted
      rcases @addIptablesRule_cases state.daemon data failures with
        ⟨_, _, _, same⟩ | ⟨_, error, _, _⟩
      · simp [same] at deleted
      · simp [deleted, Answer.isError] at error
  | delete data failures =>
      rcases @delIptablesRule_cases state.daemon data failures with
        ⟨index, live, _, rules, _, sent⟩ | ⟨error, _, _⟩
      · refine ⟨index, _, tracked.marked_iff.mpr ⟨live, rfl⟩, rules, ?_⟩
        rw [ruleMark_mod, Nat.mod_eq_of_lt (inRange index live)]
        exact sent
      · simp only [Daemon.handle] at deleted
        simp [deleted, Answer.isError] at error

theorem of_keys {daemon : Daemon} (index : daemon.index = state.daemon.index)
    (keys : ∀ other ∈ daemon.rules.keys, other ∈ state.daemon.rules.keys) :
    Tracked { state with daemon := daemon } := by
  constructor
  · simp only [index]
    exact tracked.started
  · intro other live
    simp only [index]
    exact tracked.below other (keys other live)
  · exact fun other live => tracked.installed other (keys other live)

theorem handle (call : Call) : Tracked (state.handle call) := by
  cases call with
  | add data failures =>
      rcases @addIptablesRule_cases state.daemon data failures with
        ⟨runs, _, _, same⟩ | ⟨_, error, rules, index⟩
      · have permits : verdict (.lit "ACCEPT") = some true := by decide
        simp only [Monitored.handle, Daemon.handle, same, List.head?_cons,
          if_true, Option.bind_some, setMark_markRule, runs.accept, permits]
        have positive := tracked.started
        constructor
        · exact Nat.succ_pos _
        · intro other live
          rcases (Dict.mem_keys_set _ _ _ _).mp live with rfl | old
          · exact ⟨positive, Nat.lt_succ_self _⟩
          · have bounds := tracked.below other old
            exact ⟨bounds.1, bounds.2.trans (Nat.lt_succ_self _)⟩
        · intro other live
          rw [Dict.get?_set]
          split_ifs with isNew
          · rw [isNew]
          · have old := ((Dict.mem_keys_set _ _ _ _).mp live).resolve_left isNew
            exact tracked.installed other old
      · have kept : (state.daemon.addIptablesRule data failures).answer ≠
            .added := by
          intro added
          simp [added, Answer.isError] at error
        simp only [Monitored.handle, Daemon.handle, kept, if_false]
        exact tracked.of_keys index fun other live => rules ▸ live
  | delete data failures =>
      rcases @delIptablesRule_cases state.daemon data failures with
        ⟨_, _, _, rules, index, _⟩ | ⟨_, keys, index⟩
      · apply tracked.of_keys index
        intro other live
        simp only [rules] at live
        exact ((Dict.mem_keys_del _ _ _).mp live).2
      · exact tracked.of_keys index fun other live => (keys other).mp live

omit tracked

theorem inRange_iff
    (inRange : ∀ index ∈ state.daemon.rules.keys, index < 2 ^ 16)
    (call : Call) :
    (∀ index ∈ (state.handle call).daemon.rules.keys, index < 2 ^ 16) ↔
      InRange state.daemon call := by
  cases call with
  | add data failures =>
      simp only [Monitored.handle, Daemon.handle, InRange]
      rcases @addIptablesRule_cases state.daemon data failures with
        ⟨runs, first, second, same⟩ | ⟨refused, _, rules, _⟩
      · simp only [same, Dict.mem_keys_set]
        constructor
        · exact fun ranged _ _ _ => ranged _ (.inl rfl)
        · rintro ranged index (rfl | old)
          · exact ranged runs first second
          · exact inRange index old
      · rw [rules]
        apply iff_of_true inRange
        exact fun runs first second => absurd ⟨runs, first, second⟩ refused
  | delete data failures =>
      simp only [Monitored.handle, Daemon.handle, InRange, iff_true]
      rcases @delIptablesRule_cases state.daemon data failures with
        ⟨_, _, _, rules, _, _⟩ | ⟨_, keys, _⟩
      · intro index live
        rw [rules] at live
        exact inRange index ((Dict.mem_keys_del _ _ _).mp live).2
      · exact fun index live => inRange index ((keys index).mp live)

theorem faithfulAlong_iff (tracked : Tracked state)
    (inRange : ∀ index ∈ state.daemon.rules.keys, index < 2 ^ 16)
    (history : List Call) :
    state.FaithfulAlong history ↔ InRangeAlong state.daemon history := by
  induction history generalizing state with
  | nil => simpa [Monitored.FaithfulAlong, InRangeAlong] using
      tracked.faithfulIds_iff.mpr inRange
  | cons call calls next =>
      have after := tracked.handle call
      have sends := tracked.sendsId inRange call
      have faithful := tracked.faithfulIds_iff.mpr inRange
      simp only [Monitored.FaithfulAlong, InRangeAlong, faithful, sends,
        true_and]
      have remains_iff := Tracked.inRange_iff inRange call
      by_cases ranged : InRange state.daemon call
      · rw [next after (remains_iff.mpr ranged)]
        exact (and_iff_right ranged).symm
      · have unfaithful := fun here : (state.handle call).FaithfulIds =>
          ranged (remains_iff.mp (after.faithfulIds_iff.mp here))
        constructor
        · intro along
          exact absurd along.here unfaithful
        · exact fun both => absurd both.1 ranged

end Tracked

/-- The rule ids are faithful all along a history if and only if every rule that
is added gets an index of two bytes. -/
theorem faithfulAlong_iff_inRangeAlong (history : List Call) :
    Monitored.initial.FaithfulAlong history ↔
      InRangeAlong .initial history := by
  apply Tracked.initial.faithfulAlong_iff
  simp [Monitored.initial, Daemon.initial, Dict.keys]

/-- An addition that succeeds. -/
def accepted : Call :=
  .add acceptAddress ⟨false, false⟩

theorem accepted_runs : (Fields.ofData acceptAddress).Runs := by
  constructor
  · decide
  · decide
  · decide

theorem index_handle_accepted (daemon : Daemon) :
    (daemon.handle accepted).daemon.index = daemon.index + 1 := by
  rcases @addIptablesRule_cases daemon acceptAddress ⟨false, false⟩ with
    ⟨_, _, _, same⟩ | ⟨refused, _⟩
  · rw [accepted, Daemon.handle, same]
  · exact absurd ⟨accepted_runs, by decide, by decide⟩ refused

theorem not_inRangeAlong_accepted {daemon : Daemon} {times : ℕ}
    (many : 2 ^ 16 < daemon.index + times) (more : daemon.index ≤ 2 ^ 16) :
    ¬ InRangeAlong daemon (List.replicate times accepted) := by
  induction times generalizing daemon with
  | zero => omega
  | succ times next =>
      intro ranged
      have first := ranged.1 accepted_runs (by decide) (by decide)
      apply @next (daemon.handle accepted).daemon
      · rw [index_handle_accepted]
        omega
      · rw [index_handle_accepted]
        omega
      · exact ranged.2

/-- As many additions as there are values of two bytes. -/
theorem not_faithfulAlong_accepted :
    ¬ ∀ history : List Call, Monitored.initial.FaithfulAlong history := by
  intro claimed
  have along := claimed (List.replicate (2 ^ 16) accepted)
  rw [Tracked.initial.faithfulAlong_iff (by
    simp [Monitored.initial, Daemon.initial, Dict.keys])] at along
  apply not_inRangeAlong_accepted _ _ along
  · simp only [Monitored.initial, Daemon.initial]
    omega
  · simp only [Monitored.initial, Daemon.initial]
    omega

end Nvbmc.Firewall
