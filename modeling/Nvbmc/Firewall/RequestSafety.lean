import Nvbmc.Firewall.Daemon

/-!
# What reaches iptables

A request is safe when it is answered, runs commands only with values that pass
their validators and gives the rule the verdict of the action.  The check of
`add_iptables_rule` counts: one valid field and a valid action are enough.
-/

namespace Nvbmc.Firewall

open Nvbmc.Library

/-- The fields that are matched, with their validators. -/
def Fields.checks (fields : Fields) :
    List ((Value → Option Bool) × Value) :=
  [(isValidIpv4, fields.dstIp), (isValidIpv4, fields.srcIp),
    (isValidProtocol, fields.proto), (isValidPort, fields.dstPort),
    (isValidPort, fields.srcPort)]

def Fields.Valid (fields : Fields) : Prop :=
  ∀ check ∈ fields.checks, check.2.given → check.1 check.2 = some true

/-- The verdict of an action, in any letter case. -/
def verdict (action : Value) : Option Bool :=
  match action with
  | .text action =>
      if upper action = "ACCEPT".toList then some true
      else if upper action = "DROP".toList then some false
      else none
  | _ => none

structure SafeRequest (data : Dict Text Value) : Prop where
  answered : ∀ daemon failures,
    (Daemon.addIptablesRule daemon data failures).answer ≠ .raised
  checked : ∀ daemon failures,
    (Daemon.addIptablesRule daemon data failures).ran ≠ [] →
      (Fields.ofData data).Valid
  carries : ∀ daemon failures allowed,
    isValidAction (Fields.ofData data).action = some true →
    verdict (Fields.ofData data).action = some allowed →
    (Daemon.addIptablesRule daemon data failures).answer = .added →
    ∃ mark, (Daemon.addIptablesRule daemon data
      failures).daemon.chains.postrouting =
      markRule (Fields.ofData data) mark :: daemon.chains.postrouting ∧
      mark.testBit 26 = allowed

/-- The requests that are safe. -/
structure Acceptable (fields : Fields) : Prop where
  texts : ∀ value ∈ [fields.dstIp, fields.srcIp, fields.proto, fields.action],
    value.given → value.isText
  finite : ∀ value ∈ [fields.dstPort, fields.srcPort], value ≠ .infinite
  complete : checkDataValidity fields = some 2 →
    fields.action = .lit "ACCEPT" ∧ fields.Valid ∧
      ∀ value ∈ [fields.dstPort, fields.srcPort], value.given → value.isText

section Validators

variable {value : Value}

theorem passable_of_int {text : Text} {result : ℤ}
    (read : int? text = some result) : (Value.text text).passable := by
  simp only [Value.passable, decide_eq_true_eq]
  intro member
  obtain blank | sign | digit := ofNumeral_of_int read _ member
  · revert blank
    decide
  · revert sign
    decide
  · revert digit
    decide

theorem passable_of_isValidIpv4 (valid : isValidIpv4 value = some true) :
    value.passable := by
  cases value with
  | text ip =>
      simp only [isValidIpv4] at valid
      split_ifs at valid
      · simp only [Option.some.injEq, List.all_eq_true] at valid
        simp only [Value.passable, decide_eq_true_eq]
        intro member
        obtain ⟨part, among, inside⟩ :=
          @exists_mem_splitOn '.' _ ip member (by decide)
        have octet := valid part among
        cases read : int? part with
        | none => simp [read] at octet
        | some result =>
            have passable := passable_of_int read
            simp only [Value.passable, decide_eq_true_eq] at passable
            exact passable inside
      · cases valid
  | _ => cases valid

theorem passable_of_isValidProtocol
    (valid : isValidProtocol value = some true) : value.passable := by
  cases value with
  | text protocol =>
      simp only [isValidProtocol, Option.some.injEq, decide_eq_true_eq] at valid
      simp only [Value.passable, decide_eq_true_eq]
      intro member
      have lowered : Char.ofNat 0 ∈ lower protocol :=
        List.mem_map.mpr ⟨_, member, by decide⟩
      have named : ∀ name ∈ protocols, Char.ofNat 0 ∉ name := by decide
      exact named _ valid lowered
  | _ => cases valid

theorem passable_of_isValidPort (valid : isValidPort value = some true)
    (isText : value.isText) : value.passable := by
  cases value with
  | text port =>
      simp only [isValidPort] at valid
      split at valid
      · next read => exact passable_of_int read
      · cases valid
  | _ => cases isText

end Validators

section Check

variable {fields : Fields}

theorem checkDataValidity_eq_some {flag : ℕ} :
    checkDataValidity fields = some flag ↔
      ∃ dstIp srcIp proto dstPort srcPort action,
        givenAnd isValidIpv4 fields.dstIp = some dstIp ∧
        givenAnd isValidIpv4 fields.srcIp = some srcIp ∧
        givenAnd isValidProtocol fields.proto = some proto ∧
        givenAnd isValidPort fields.dstPort = some dstPort ∧
        givenAnd isValidPort fields.srcPort = some srcPort ∧
        givenAnd isValidAction fields.action = some action ∧
        (if dstIp || srcIp || proto || dstPort || srcPort then 1 else 0) +
          (if action then 1 else 0) = flag := by
  simp only [checkDataValidity, Option.bind_eq_bind, Option.bind_eq_some_iff,
    Option.pure_def, Option.some.injEq]
  constructor
  · rintro ⟨dstIp, first, srcIp, second, proto, third, dstPort, fourth, srcPort,
      fifth, action, sixth, rfl⟩
    refine ⟨dstIp, srcIp, proto, dstPort, srcPort, action, first, second, third,
      fourth, fifth, sixth, ?_⟩
    cases action <;> simp
  · rintro ⟨dstIp, srcIp, proto, dstPort, srcPort, action, first, second, third,
      fourth, fifth, sixth, rfl⟩
    refine ⟨dstIp, first, srcIp, second, proto, third, dstPort, fourth, srcPort,
      fifth, action, sixth, ?_⟩
    cases action <;> simp

variable {value : Value}

theorem givenAnd_ne_none {valid : Value → Option Bool} :
    givenAnd valid value ≠ none ↔ (value.given → valid value ≠ none) := by
  rw [givenAnd]
  split_ifs with given <;> simp [given]

theorem isValidIpv4_ne_none : isValidIpv4 value ≠ none ↔ value.isText := by
  cases value with
  | text ip =>
      rw [isValidIpv4]
      split_ifs <;> simp [Value.isText]
  | _ => simp [isValidIpv4, Value.isText]

theorem isValidProtocol_ne_none :
    isValidProtocol value ≠ none ↔ value.isText := by
  cases value <;> simp [isValidProtocol, Value.isText]

theorem isValidAction_ne_none : isValidAction value ≠ none ↔ value.isText := by
  cases value <;> simp [isValidAction, Value.isText]

theorem isValidPort_ne_none : isValidPort value ≠ none ↔ value ≠ .infinite := by
  cases value with
  | text port =>
      rw [isValidPort]
      split <;> simp
  | _ => simp [isValidPort]

/-- The check raises no exception if and only if none of the validators
does. -/
theorem checkDataValidity_ne_none :
    checkDataValidity fields ≠ none ↔
      (∀ value ∈ [fields.dstIp, fields.srcIp, fields.proto, fields.action],
        value.given → value.isText) ∧
      ∀ value ∈ [fields.dstPort, fields.srcPort], value ≠ .infinite := by
  have port_iff (value : Value) :
      givenAnd isValidPort value ≠ none ↔ value ≠ .infinite := by
    rw [givenAnd_ne_none, isValidPort_ne_none]
    cases value <;> simp [Value.given]
  have separate : checkDataValidity fields ≠ none ↔
      givenAnd isValidIpv4 fields.dstIp ≠ none ∧
      givenAnd isValidIpv4 fields.srcIp ≠ none ∧
      givenAnd isValidProtocol fields.proto ≠ none ∧
      givenAnd isValidPort fields.dstPort ≠ none ∧
      givenAnd isValidPort fields.srcPort ≠ none ∧
      givenAnd isValidAction fields.action ≠ none := by
    simp only [Option.ne_none_iff_exists', checkDataValidity_eq_some]
    constructor
    · rintro ⟨_, _, _, _, _, _, _, first, second, third, fourth, fifth, sixth,
        -⟩
      exact ⟨⟨_, first⟩, ⟨_, second⟩, ⟨_, third⟩, ⟨_, fourth⟩, ⟨_, fifth⟩,
        ⟨_, sixth⟩⟩
    · rintro ⟨⟨_, first⟩, ⟨_, second⟩, ⟨_, third⟩, ⟨_, fourth⟩, ⟨_, fifth⟩,
        ⟨_, sixth⟩⟩
      exact ⟨_, _, _, _, _, _, _, first, second, third, fourth, fifth, sixth,
        rfl⟩
  rw [separate]
  simp only [port_iff, givenAnd_ne_none, isValidIpv4_ne_none,
    isValidProtocol_ne_none, isValidAction_ne_none, List.mem_cons,
    List.not_mem_nil, or_false, forall_eq_or_imp, forall_eq]
  tauto

theorem isValidAction_of_two (two : checkDataValidity fields = some 2) :
    isValidAction fields.action = some true := by
  obtain ⟨dstIp, srcIp, proto, dstPort, srcPort, action, -, -, -, -, -,
    isAction, sum⟩ := checkDataValidity_eq_some.mp two
  cases action with
  | true =>
      rw [givenAnd] at isAction
      split_ifs at isAction
      · exact isAction
      · cases isAction
  | false =>
      simp only [Bool.false_eq_true, if_false, add_zero] at sum
      split_ifs at sum
      omega

end Check

section Verdict

variable {action : Value}

theorem packetResult_eq_some {result : ℕ}
    (valid : isValidAction action = some true)
    (found : packetResult action = some result) :
    action = .lit "ACCEPT" ∧ result = 1 := by
  rw [packetResult] at found
  split_ifs at found with deny accept
  · subst deny
    exact absurd valid (by decide)
  · exact ⟨accept, (Option.some.inj found).symm⟩

theorem ruleMark_testBit_verdict (index : ℕ) :
    (ruleMark index 1).testBit 26 = true := by
  have shifted : Nat.testBit (1 <<< 26) 26 = true := by decide
  rw [ruleMark, Nat.testBit_or, shifted, Bool.or_true]

end Verdict

section Commands

variable (fields : Fields)

theorem passable_option {name : String} (literal : (Value.lit name).passable)
    (value : Value) :
    (option name value).all Value.passable ↔
      (value.given → value.passable) := by
  rw [option]
  split_ifs with given <;> simp [given, literal]

theorem passable_matchOptions :
    (matchOptions fields).all Value.passable ↔
      ∀ check ∈ fields.checks, check.2.given → check.2.passable := by
  have options (name : String) (literal : (Value.lit name).passable) :=
    passable_option literal
  simp only [matchOptions, List.all_append, Bool.and_eq_true,
    options "-d" (by decide), options "-s" (by decide),
    options "-p" (by decide),
    options "--dport" (by decide), options "--sport" (by decide),
    Fields.checks, List.mem_cons, List.not_mem_nil, or_false, forall_eq_or_imp,
    forall_eq]
  tauto

theorem passable_divertRule :
    (divertRule fields).all Value.passable =
      (matchOptions fields).all Value.passable := by
  have before : ([.lit "-i", .lit "eip0"] : Rule).all Value.passable := by
    decide
  have after : ([.lit "-j", .lit "DIVERT"] : Rule).all Value.passable := by
    decide
  simp only [divertRule, List.all_append, before, after, Bool.true_and,
    Bool.and_true]

theorem passable_markRule (mark : ℕ) :
    (markRule fields mark).all Value.passable =
      (matchOptions fields).all Value.passable := by
  have literals : ([.lit "-j", .lit "MARK", .lit "--set-mark"] : Rule).all
      Value.passable := by decide
  have number : (Value.text (hex mark)).passable := by
    simp only [Value.passable, decide_eq_true_eq]
    intro member
    rcases mem_hex member with first | second | ⟨digit, isDigit⟩
    · revert first
      decide
    · revert second
      decide
    · exact digitChar_ne_null digit isDigit.symm
  have split : markRule fields mark = matchOptions fields ++
      ([.lit "-j", .lit "MARK", .lit "--set-mark"] ++ [.text (hex mark)]) := rfl
  simp only [split, List.all_append, literals, List.all_cons, number,
    List.all_nil, Bool.and_self, Bool.and_true]

variable {fields}

theorem not_passable_ruleCommands
    (unpassable : ¬ (matchOptions fields).all Value.passable) (mark : ℕ) :
    ¬ (ruleCommands fields mark).1.all Value.passable := by
  rw [ruleCommands, passable_insertCommand, passable_divertRule]
  simp [unpassable]

end Commands

section Safe

variable {data : Dict Text Value} {daemon : Daemon} {failures : Failures}

theorem addIptablesRule_of_two
    (two : checkDataValidity (Fields.ofData data) = some 2)
    (accept : (Fields.ofData data).action = .lit "ACCEPT") :
    daemon.addIptablesRule data failures =
      (let commands := ruleCommands (Fields.ofData data)
        (ruleMark daemon.index 1)
      daemon.runBoth commands failures .errorAdding fun chains =>
        ⟨.added, { daemon with
          chains := chains
          rules := daemon.rules.set daemon.index commands
          index := daemon.index + 1 }, [commands.1, commands.2]⟩) := by
  have result : packetResult (.lit "ACCEPT") = some 1 := by decide
  simp only [Daemon.addIptablesRule, two, accept, result]

theorem runBoth_insert {fields : Fields} {mark : ℕ}
    (passable : (matchOptions fields).all Value.passable)
    (onSuccess : Chains → Response) :
    daemon.runBoth (ruleCommands fields mark) failures .errorAdding onSuccess =
      (let commands := ruleCommands fields mark
      let first := { daemon.chains with
        prerouting := divertRule fields :: daemon.chains.prerouting }
      if failures.first then ⟨.errorAdding, daemon, [commands.1]⟩
      else if failures.second then
        ⟨.errorAdding, { daemon with chains := first },
          [commands.1, commands.2]⟩
      else onSuccess { first with
        postrouting := markRule fields mark :: first.postrouting }) := by
  have firstPassable : (ruleCommands fields mark).1.all Value.passable := by
    rw [ruleCommands, passable_insertCommand, passable_divertRule, passable]
    decide
  have secondPassable : (ruleCommands fields mark).2.all Value.passable := by
    rw [ruleCommands, passable_insertCommand, passable_markRule, passable]
    decide
  obtain ⟨first, second⟩ := failures
  simp only [Daemon.runBoth]
  cases first with
  | true => simp [runCommand_failed _ firstPassable]
  | false =>
      rw [runCommand_done _ firstPassable (iptables_insert_prerouting _ _)]
      cases second with
      | true => simp [runCommand_failed _ secondPassable]
      | false =>
          simp only
          rw [runCommand_done _ secondPassable
            (iptables_insert_postrouting _ _)]
          simp

theorem passable_of_valid {fields : Fields} (valid : fields.Valid)
    (texts : ∀ value ∈ [fields.dstPort, fields.srcPort],
      value.given → value.isText) :
    (matchOptions fields).all Value.passable := by
  rw [passable_matchOptions]
  intro check member given
  have passes := valid check member given
  simp only [Fields.checks, List.mem_cons, List.not_mem_nil, or_false] at member
  rcases member with rfl | rfl | rfl | rfl | rfl
  · exact passable_of_isValidIpv4 passes
  · exact passable_of_isValidIpv4 passes
  · exact passable_of_isValidProtocol passes
  · exact passable_of_isValidPort passes (texts _ (by simp) given)
  · exact passable_of_isValidPort passes (texts _ (by simp) given)

theorem isText_of_passable {value : Value} (passable : value.passable) :
    value.isText := by
  cases value with
  | text content => rfl
  | _ => cases passable

theorem SafeRequest.acceptable (safe : SafeRequest data) :
    Acceptable (Fields.ofData data) := by
  have answered := safe.answered .initial ⟨false, false⟩
  have known : checkDataValidity (Fields.ofData data) ≠ none := by
    intro raised
    simp [Daemon.addIptablesRule, raised] at answered
  obtain ⟨texts, finite⟩ := checkDataValidity_ne_none.mp known
  refine ⟨texts, finite, fun two => ?_⟩
  have validAction := isValidAction_of_two two
  cases found : packetResult (Fields.ofData data).action with
  | none => simp [Daemon.addIptablesRule, two, found] at answered
  | some result =>
      obtain ⟨accept, -⟩ := packetResult_eq_some validAction found
      rw [addIptablesRule_of_two two accept] at answered
      have passable : (matchOptions (Fields.ofData data)).all
          Value.passable := by
        by_contra unpassable
        have raised := runCommand_raised ⟨[], []⟩ false
          (not_passable_ruleCommands unpassable (ruleMark 1 1))
        simp [Daemon.runBoth, Daemon.initial, raised] at answered
      refine ⟨accept, ?_, ?_⟩
      · apply safe.checked .initial ⟨false, false⟩
        rw [addIptablesRule_of_two two accept]
        simp [runBoth_insert passable]
      · intro value member given
        apply isText_of_passable
        rw [passable_matchOptions] at passable
        simp only [List.mem_cons, List.not_mem_nil, or_false] at member
        rcases member with rfl | rfl
        · exact passable (isValidPort, (Fields.ofData data).dstPort)
            (by simp [Fields.checks]) given
        · exact passable (isValidPort, (Fields.ofData data).srcPort)
            (by simp [Fields.checks]) given

theorem Acceptable.safeRequest (acceptable : Acceptable (Fields.ofData data)) :
    SafeRequest data := by
  have known := checkDataValidity_ne_none.mpr
    ⟨acceptable.texts, acceptable.finite⟩
  obtain ⟨flag, isFlag⟩ := Option.ne_none_iff_exists'.mp known
  by_cases two : flag = 2
  · subst two
    obtain ⟨accept, valid, texts⟩ := acceptable.complete isFlag
    have passable := passable_of_valid valid texts
    constructor
    · intro daemon failures
      rw [addIptablesRule_of_two isFlag accept, runBoth_insert passable]
      simp only
      split_ifs <;> simp
    · exact fun _ _ _ => valid
    · intro daemon failures allowed _ isAllowed
      rw [addIptablesRule_of_two isFlag accept, runBoth_insert passable]
      simp only
      split_ifs
      · simp
      · simp
      · intro _
        rw [accept] at isAllowed
        have permits : verdict (.lit "ACCEPT") = some true := by decide
        cases permits.symm.trans isAllowed
        exact ⟨_, rfl, ruleMark_testBit_verdict daemon.index⟩
  · have refused (daemon : Daemon) (failures : Failures) :
        daemon.addIptablesRule data failures =
          ⟨.needArguments, daemon, []⟩ := by
      simp only [Daemon.addIptablesRule, isFlag]
    constructor
    · intro daemon failures
      simp [refused]
    · intro daemon failures ran
      simp [refused] at ran
    · intro daemon failures allowed _ _ added
      simp [refused] at added

/-- A valid address with an invalid protocol. -/
def badProtocol : Dict Text Value :=
  [("dst_ip".toList, .lit "10.10.0.10"), ("proto".toList, .lit "none"),
    ("action".toList, .lit "ACCEPT")]

end Safe

end Nvbmc.Firewall
