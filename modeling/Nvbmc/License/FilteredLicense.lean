import Nvbmc.License.ManifestString

/-!
# The filtered license is well formed just when the license is regular

A bracket that is closed before it is written, or that has an operator behind
it, stays in the text, and no text with one is accepted again.
-/

namespace Nvbmc.License

open Library

/-- What a license requires, for each license whether it is met. -/
def Node.holds (met : Text → Prop) : Node → Prop
  | .str s => met s
  | .binOp left .bitAnd right => left.holds met ∧ right.holds met
  | .binOp left .bitOr right => left.holds met ∨ right.holds met
  | .tuple => True
  | .callNone func => func.holds met
  | .call func arg => func.holds met ∧ arg.holds met
  | .listNone => True
  | .list elt => elt.holds met
  | .subscript value slice => value.holds met ∧ slice.holds met

def moduleNames : Option Node → List Text
  | none => []
  | some node => node.names

/-- A license that is not filtered out. -/
def wanted (fnmatch : Text → Text → Bool) (spdx : Text → Option Text)
    (dontWantLicenses : List Text) (lic : Text) : Bool :=
  licenseOk fnmatch (canonicalLicense spdx lic) dontWantLicenses

/-- The text and the licenses fit each other and the license. -/
structure WellFormed (ok : Text → Bool) (module : Option Node)
    (licensestr : Text) (licenses : List Text) : Prop where
  kept : licenses = (moduleNames module).filter ok
  empty : licenses = [] → licensestr = []
  balanced : licenses ≠ [] → Balanced licensestr
  mentioned : licenses ≠ [] → licenseNames licensestr = licenses
  accepted : licenses ≠ [] → ∃ left, Accepts .square licensestr (some left)
  equivalent : licenses ≠ [] → (∀ name ∈ moduleNames module, ok name = true) →
    ∀ node ∈ module, ∃ left, Accepts .square licensestr (some left) ∧
      ∀ met, left.holds met ↔ node.holds met

/-- The condition on a license. -/
def RegularModule (ok : Text → Bool) : Option Node → Prop
  | none => True
  | some node => Regular ok false node

section Valid

variable {brackets : Brackets} {level : Level} {tokens : List Token}
  {node : Node}

theorem Parses.not_newline (parses : Parses brackets level tokens node) :
    ∀ name ∈ tokenNames tokens, '\n' ∉ name := by
  rw [← parses.names]
  induction parses with
  | str free => exact List.forall_mem_singleton.mpr free
  | tuple | listNone => exact fun _ member => absurd member List.not_mem_nil
  | group _ _ induction | callNone _ _ induction | list _ _ induction
  | operand _ induction | conjunction _ induction => exact induction
  | call _ _ _ first second | subscript _ _ _ first second
  | and _ _ first second | or _ _ first second =>
      exact List.forall_mem_append.mpr ⟨first, second⟩

theorem validName_of_matchesLicense {name : Text}
    (matched : matchesLicense name = true)
    (free : '\n' ∉ name) : ValidName name := by
  have last : name.getLast? ≠ some '\n' :=
    fun same => free (List.mem_of_getLast? same)
  simp only [matchesLicense, last, if_false, decide_eq_true_eq] at matched
  exact ⟨matched.1, List.all_eq_true.mp matched.2⟩

theorem validName_of_accepts {licensestr : Text}
    (accepts : Accepts brackets licensestr (some node)) :
    ∃ tokens, getElements licensestr = .ok tokens ∧
      Parses brackets .bitwiseOr tokens node ∧
      ∀ name ∈ tokenNames tokens, ValidName name := by
  obtain ⟨tokens, read, parsed⟩ := accepts
  cases parsed with
  | expr parses =>
      refine ⟨tokens, read, parses, fun name member => ?_⟩
      apply validName_of_matchesLicense _ (parses.not_newline name member)
      rw [names_of_getElements read] at member
      exact (List.mem_filter.mp member).2

end Valid

section Forward

variable {ok : Text → Bool} {node : Node}

theorem map_writeSquare {tokens : List Token}
    (valid : ∀ name ∈ tokenNames tokens, ValidName name) :
    (writeSquare tokens).map roundBracket = spell tokens := by
  induction tokens with
  | nil => rfl
  | cons token tokens induction =>
      rw [writeSquare, List.flatMap_cons, List.map_append, spell_cons]
      change _ ++ (writeSquare tokens).map roundBracket = _
      cases token with
      | name license =>
          rw [tokenNames, List.forall_mem_cons] at valid
          rw [induction valid.2]
          congr 1
          refine (List.map_congr_left fun char member => ?_).trans
            (List.map_id license)
          have plain := valid.1.chars char member
          have square : char ≠ '[' ∧ char ≠ ']' := by
            constructor <;> rintro rfl <;> revert plain <;> decide
          rw [roundBracket, if_neg square.1, if_neg square.2]
          rfl
      | _ =>
          rw [induction valid]
          rfl

theorem visit_new (regular : Regular ok false node) :
    (Manifest.new.visit ok node).licensestr =
      if keeps ok node then writeSquare (body ok node) else [] := by
  cases some : keeps ok node with
  | true =>
      have written := written_of_regular .new regular (by decide) some
      have none : ((lead ok node).map Operator.char).filter isBracket = [] := by
        rw [List.filter_eq_nil_iff]
        intro char member
        rw [isBracket_map _ char member]
        exact Bool.false_ne_true
      rw [written.licensestr]
      change [] ++ writeOps [] (collapse ([] ++ _)) ++ _ = _
      rw [List.nil_append, List.nil_append, writeOps_nil_collapse, none]
      rfl
  | false => rw [visit_of_not_keeps .new regular some]; rfl

theorem any_filter_ne_nil : node.names.filter ok ≠ [] ↔
    keeps ok node = true := by
  simp [keeps, List.filter_eq_nil_iff]

theorem any_filter_eq_nil : node.names.filter ok = [] ↔
    keeps ok node = false := by
  rw [← Bool.not_eq_true, ← any_filter_ne_nil, not_not]

theorem wellFormed_of_regular {licensestr : Text}
    (accepts : Accepts .square licensestr (some node))
    (regular : Regular ok false node) :
    WellFormed ok (some node)
      ((Manifest.new.visit ok node).licensestr.map roundBracket)
      (Manifest.new.visit ok node).licenses := by
  have licenses : (Manifest.new.visit ok node).licenses =
      node.names.filter ok :=
    licenses_visit .new node
  obtain ⟨tokens, read, parses, valid⟩ := validName_of_accepts accepts
  have names := tokenNames_body regular
  have validBody : ∀ name ∈ tokenNames (body ok node), ValidName name := by
    intro name member
    rw [names, parses.names] at member
    exact valid name (List.mem_filter.mp member).1
  have text : keeps ok node = true →
      (Manifest.new.visit ok node).licensestr.map roundBracket =
        spell (body ok node) := by
    intro some
    rw [visit_new regular, if_pos some, map_writeSquare validBody]
  have parsed : keeps ok node = true →
      ∃ left, Parses .square .bitwiseOr (body ok node) left :=
    parses_body (parses.names ▸ parses.not_newline) regular
  have accepted : keeps ok node = true → ∃ left,
      Accepts .square (spell (body ok node)) (some left) := by
    intro some
    obtain ⟨left, parsed⟩ := parsed some
    exact ⟨left, _, getElements_spell validBody parsed.apart, .expr parsed⟩
  rw [licenses]
  constructor
  · rfl
  · intro none
    rw [visit_new regular, if_neg fun some => any_filter_ne_nil.mpr some none]
    rfl
  · intro some
    obtain ⟨left, parsed⟩ := parsed (any_filter_ne_nil.mp some)
    rw [text (any_filter_ne_nil.mp some)]
    exact parsed.balanced validBody
  · intro some
    obtain ⟨left, parsed⟩ := parsed (any_filter_ne_nil.mp some)
    rw [text (any_filter_ne_nil.mp some), ← names,
      names_of_getElements (getElements_spell validBody parsed.apart)]
  · intro some
    rw [text (any_filter_ne_nil.mp some)]
    exact accepted (any_filter_ne_nil.mp some)
  · rintro some all _ ⟨⟩
    have same := (body_of_all parses regular all).1
    rw [text (any_filter_ne_nil.mp some), same]
    rw [same] at validBody
    exact ⟨node,
      ⟨tokens, getElements_spell validBody parses.apart, .expr parses⟩,
      fun _ => Iff.rfl⟩

end Forward

def Queued (operators : List Char) : Prop :=
  ∀ char ∈ operators, char = '[' ∨ ∃ op : Operator, char = op.char

section Queue

variable {ok : Text → Bool} {operators : List Char}

theorem queued_char (op : Operator) : Queued [op.char] :=
  List.forall_mem_singleton.mpr (.inr ⟨op, rfl⟩)

theorem queued_bracket : Queued ['['] :=
  List.forall_mem_singleton.mpr (.inl rfl)

theorem Queued.append {others : List Char} (first : Queued operators)
    (second : Queued others) : Queued (operators ++ others) :=
  List.forall_mem_append.mpr ⟨first, second⟩

theorem mem_pushOp {ops : List Char} {op char : Char}
    (member : char ∈ pushOp ops op) : char ∈ ops ++ [op] := by
  have inside : ∀ before : List Char, before <+: ops → char ∈ before ++ [op] →
      char ∈ ops ++ [op] := by
    intro before part there
    rw [List.mem_append] at there ⊢
    exact there.imp_left (part.subset ·)
  rw [pushOp] at member
  split_ifs at member
  · exact member
  · split at member
    · exact member
    · split_ifs at member
      · exact member
      · exact inside _ (List.dropLast_prefix ops) member

theorem Queued.collapse (queued : Queued operators) :
    Queued (collapse operators) := by
  induction operators using List.reverseRecOn with
  | nil => exact queued
  | append_singleton operators op induction =>
      obtain ⟨before, last⟩ := List.forall_mem_append.mp queued
      rw [collapse_append_singleton]
      intro char member
      rcases List.mem_append.mp (mem_pushOp member) with old | new
      · exact induction before char old
      · exact last char new

theorem exists_infix_of_last (queued : Queued operators)
    (opened : '[' ∈ operators) (last : operators.getLast? ≠ some '[') :
    ∃ op : Operator, ['[', op.char] <:+: operators := by
  induction operators using List.reverseRecOn with
  | nil => cases opened
  | append_singleton operators char induction =>
      rw [List.getLast?_concat] at last
      obtain ⟨before, final⟩ := List.forall_mem_append.mp queued
      rcases final char (List.mem_singleton.mpr rfl) with rfl | ⟨op, rfl⟩
      · exact absurd rfl last
      · have inside : '[' ∈ operators := by
          rcases List.mem_append.mp opened with old | new
          · exact old
          · exact absurd (congrArg some (List.mem_singleton.mp new).symm) last
        by_cases bracket : operators.getLast? = some '['
        · obtain ⟨rest, rfl⟩ := List.getLast?_eq_some_iff.mp bracket
          exact ⟨op, rest, [], by simp⟩
        · obtain ⟨other, found⟩ := induction before inside bracket
          exact ⟨other, found.trans (List.prefix_append _ _).isInfix⟩

theorem mem_collapse : '[' ∈ collapse operators ↔ '[' ∈ operators := by
  rw [← List.count_pos_iff, ← List.count_pos_iff, count_collapse '[' rfl]

theorem getLast?_pushOp (ops : List Char) (op : Char) :
    (pushOp ops op).getLast? = some op := by
  rw [pushOp]
  split_ifs
  · exact List.getLast?_concat
  · split
    · exact List.getLast?_concat
    · split_ifs
      · exact List.getLast?_concat
      · exact List.getLast?_concat

theorem queued_visit {manifest : Manifest} (queued : Queued manifest.operators)
    (node : Node) : Queued (manifest.visit ok node).operators := by
  induction node generalizing manifest with
  | str s =>
      rw [Manifest.visit]
      split_ifs
      · exact fun _ member => absurd member List.not_mem_nil
      · exact queued
  | binOp left op right first second =>
      exact second ((first queued).append (queued_char op))
  | tuple => exact queued
  | callNone func induction => exact induction queued
  | call func arg first second => exact second (first queued)
  | listNone => exact queued.append queued_bracket
  | list elt induction => exact induction (queued.append queued_bracket)
  | subscript value slice first second => exact second (first queued)

theorem prefix_visit (manifest : Manifest) (node : Node) :
    manifest.licensestr <+: (manifest.visit ok node).licensestr := by
  induction node generalizing manifest with
  | str s =>
      rw [Manifest.visit]
      split_ifs
      · rw [Manifest.write, List.append_assoc]
        exact List.prefix_append _ _
      · exact List.prefix_refl _
  | binOp left op right first second =>
      exact (first manifest).trans
        (second ((manifest.visit ok left).queue op.char))
  | tuple => exact List.prefix_append _ _
  | callNone func induction => exact induction manifest
  | call func arg first second => exact (first manifest).trans (second _)
  | listNone => exact List.prefix_append _ _
  | list elt induction =>
      exact (induction (manifest.queue '[')).trans (List.prefix_append _ _)
  | subscript value slice first second =>
      exact ((first manifest).trans (second _)).trans (List.prefix_append _ _)

end Queue

namespace Manifest

/-- A bracket is closed before anything else is written. -/
def Early (manifest : Manifest) : Prop :=
  manifest.licensestr.head? = some ']'

/-- An operator is written behind an opening bracket. -/
def Torn (manifest : Manifest) : Prop :=
  ∃ op : Operator, ['[', ' ', op.char, ' '] <:+: manifest.licensestr

/-- A bracket is queued behind a license. -/
def Dangling (manifest : Manifest) : Prop :=
  manifest.licenses ≠ [] ∧ '[' ∈ manifest.operators

/-- A bracket with an operator behind it is queued behind a license. -/
def Pending (manifest : Manifest) : Prop :=
  manifest.licenses ≠ [] ∧ ∃ op : Operator,
  ['[', op.char] <:+: collapse manifest.operators

/-- In front of the first license only brackets are closed. -/
def Begun (manifest : Manifest) : Prop :=
  manifest.Early ∨ (manifest.licenses = [] → manifest.licensestr = [])

end Manifest

section Torn

variable {ok : Text → Bool} {manifest : Manifest}

theorem early_visit (early : manifest.Early) (node : Node) :
    (manifest.visit ok node).Early := by
  obtain ⟨rest, same⟩ : manifest.licensestr <+:
      (manifest.visit ok node).licensestr :=
    prefix_visit manifest node
  obtain ⟨text, found⟩ := List.head?_eq_some_iff.mp early
  rw [Manifest.Early, ← same, found]
  rfl

theorem torn_visit (torn : manifest.Torn) (node : Node) :
    (manifest.visit ok node).Torn := by
  obtain ⟨op, found⟩ := torn
  exact ⟨op, found.trans (prefix_visit manifest node).isInfix⟩

theorem Manifest.Early.load (early : manifest.Early) : manifest.load.Early := by
  obtain ⟨text, found⟩ := List.head?_eq_some_iff.mp early
  rw [Manifest.Early, Manifest.load, found]
  rfl

theorem Manifest.Torn.load (torn : manifest.Torn) : manifest.load.Torn := by
  obtain ⟨op, found⟩ := torn
  exact ⟨op, found.trans (List.prefix_append _ _).isInfix⟩

theorem Manifest.Pending.dangling (pending : manifest.Pending) :
    manifest.Dangling := by
  obtain ⟨some, op, found⟩ := pending
  exact ⟨some, mem_collapse.mp (found.subset List.mem_cons_self)⟩

theorem Manifest.Dangling.queue (dangling : manifest.Dangling)
    (queued : Queued manifest.operators) (op : Operator) :
    (manifest.queue op.char).Pending := by
  refine ⟨dangling.1, ?_⟩
  have all := (queued.append (queued_char op)).collapse
  apply exists_infix_of_last all
  · exact mem_collapse.mpr (List.mem_append_left _ dangling.2)
  · have different : op.char ≠ '[' := by
      cases op <;> decide
    change (collapse (manifest.operators ++ [op.char])).getLast? ≠ _
    rw [collapse_append_singleton, getLast?_pushOp]
    exact fun same => different (Option.some.inj same)

theorem Manifest.Pending.bracket (pending : manifest.Pending) :
    (manifest.queue '[').Pending := by
  obtain ⟨some, op, found⟩ := pending
  refine ⟨some, op, ?_⟩
  change _ <:+: collapse (manifest.operators ++ ['['])
  rw [collapse_append_bracket]
  exact found.trans (List.prefix_append _ _).isInfix

theorem Manifest.Pending.write (pending : manifest.Pending) (lic : Text) :
    (manifest.write lic).Torn := by
  obtain ⟨some, op, before, behind, same⟩ := pending
  refine ⟨op, manifest.licensestr ++ writeOps manifest.licenses before,
    writeOps manifest.licenses behind ++ lic, ?_⟩
  have written : writeOps manifest.licenses ['[', op.char] =
      ['[', ' ', op.char, ' '] := by
    cases op <;> simp [writeOps, Operator.char, isBracket, some]
  rw [Manifest.write, ← same, writeOps_append, writeOps_append, written]
  simp

theorem pending_visit (queued : Queued manifest.operators)
    (pending : manifest.Pending ∨ manifest.Torn) (node : Node) :
    (manifest.visit ok node).Pending ∨ (manifest.visit ok node).Torn := by
  induction node generalizing manifest with
  | str s =>
      rw [Manifest.visit]
      split_ifs with good
      · rcases pending with pending | torn
        · exact .inr (pending.write s)
        · have still : (manifest.visit ok (.str s)).Torn :=
            torn_visit torn (.str s)
          rw [Manifest.visit, if_pos good] at still
          exact .inr still
      · exact pending
  | binOp left op right first second =>
      apply second ((queued_visit queued left).append (queued_char op))
      exact (first queued pending).imp_left fun pending =>
        pending.dangling.queue (queued_visit queued left) op
  | tuple => exact pending.imp_right fun torn => torn.load
  | callNone func induction => exact induction queued pending
  | call func arg first second =>
      exact second (queued_visit queued func) (first queued pending)
  | listNone =>
      exact pending.imp (fun pending => pending.bracket) fun torn => torn.load
  | list elt induction =>
      have inner :=
        @induction (manifest.queue '[') (queued.append queued_bracket)
        (pending.imp_left fun pending => pending.bracket)
      exact inner.imp_right fun torn => torn.load
  | subscript value slice first second =>
      have inner := second (queued_visit queued value) (first queued pending)
      exact inner.imp_right fun torn => torn.load

theorem begun_load (begun : manifest.Begun) : manifest.load.Begun := by
  rcases begun with early | clean
  · exact .inl early.load
  · by_cases none : manifest.licenses = []
    · left
      rw [Manifest.Early, Manifest.load, clean none]
      rfl
    · exact .inr fun absurd => (none absurd).elim

theorem begun_visit (begun : manifest.Begun) (node : Node) :
    (manifest.visit ok node).Begun := by
  induction node generalizing manifest with
  | str s =>
      rw [Manifest.visit]
      split_ifs
      · right
        exact fun absurd => (List.append_ne_nil_of_right_ne_nil _
          (List.cons_ne_nil _ _) absurd).elim
      · exact begun
  | binOp left op right first second => exact second (first begun)
  | tuple => exact begun_load begun
  | callNone func induction => exact induction begun
  | call func arg first second => exact second (first begun)
  | listNone => exact begun_load begun
  | list elt induction =>
      exact begun_load (@induction (manifest.queue '[') begun)
  | subscript value slice first second =>
      exact begun_load (second (first begun))

end Torn

section Irregular

variable {ok : Text → Bool} {manifest : Manifest} {level : Level}
  {tokens : List Token} {node : Node}

theorem dangling_operator (queued : Queued manifest.operators)
    (dangling : manifest.Torn ∨ manifest.Dangling) (op : Operator)
    (right : Node) :
    ((manifest.queue op.char).visit ok right).Torn ∨
      ((manifest.queue op.char).visit ok right).Dangling := by
  have pending : (manifest.queue op.char).Pending ∨
      (manifest.queue op.char).Torn :=
    dangling.symm.imp_left fun inside => inside.queue queued op
  exact (pending_visit (queued.append (queued_char op)) pending
    right).symm.imp_right fun inside => inside.dangling

theorem dangling_visit (parses : Parses .square level tokens node)
    (none : node.loads = 0) (queued : Queued manifest.operators)
    (dangling : manifest.Dangling)
    (unled : leads ok node = false) :
    (manifest.visit ok node).Torn ∨ (manifest.visit ok node).Dangling := by
  induction parses generalizing manifest with
  | @str s _ =>
      have bad : ok s = false := by
        simpa [leads, Node.names] using unled
      rw [Manifest.visit, bad]
      exact .inr dangling
  | listNone _ => exact .inr ⟨dangling.1, List.mem_append_left _ dangling.2⟩
  | list _ _ induction =>
      have inner :=
        @induction (manifest.queue '[') none (queued.append queued_bracket)
        ⟨dangling.1, List.mem_append_left _ dangling.2⟩ unled
      exact inner.imp_left fun torn => torn.load
  | operand _ induction | conjunction _ induction =>
      exact induction none queued dangling unled
  | @and _ _ left right _ _ first _ | @or _ _ left right _ _ first _ =>
      rw [Node.loads, Nat.add_eq_zero_iff] at none
      have before : leads ok left = false := by
        rw [leads, Node.names] at unled
        rw [leads]
        cases names : left.names with
        | nil => rfl
        | cons name rest => simpa [names] using unled
      exact dangling_operator (queued_visit queued left)
        (first none.1 queued dangling before) _ right
  | subscript => simp [Node.loads] at none
  | group round | tuple round | callNone round | call round => cases round

theorem front_visit {behind : Bool}
    (front : behind = true ↔ manifest.licenses ≠ []) :
    (behind || keeps ok node) = true ↔
      (manifest.visit ok node).licenses ≠ [] := by
  rw [licenses_visit, Bool.or_eq_true, front, ← any_filter_ne_nil, ne_eq, ne_eq,
    ne_eq, List.append_eq_nil_iff, not_and_or]

theorem visit_of_not_regular {behind : Bool}
    (parses : Parses .square level tokens node) (none : node.loads = 0)
    (queued : Queued manifest.operators) (begun : manifest.Begun)
    (front : behind = true ↔ manifest.licenses ≠ [])
    (irregular : ¬ Regular ok behind node) :
    (manifest.visit ok node).Early ∨ (manifest.visit ok node).Torn ∨
      (manifest.visit ok node).Dangling := by
  induction parses generalizing manifest behind with
  | str _ => exact absurd trivial irregular
  | listNone _ =>
      by_cases some : manifest.licenses = []
      · refine (begun_load begun).imp_right fun clean => ?_
        exact absurd (clean some)
          (List.append_ne_nil_of_right_ne_nil _ (List.cons_ne_nil _ _))
      · exact .inr (.inr ⟨some, List.mem_append_right _ List.mem_cons_self⟩)
  | @list _ elt _ inner induction =>
      have queuedInner := queued.append queued_bracket
      have opened : '[' ∈ (manifest.queue '[').operators :=
        List.mem_append_right _ List.mem_cons_self
      by_cases regular : Regular ok behind elt
      · by_cases some : manifest.licenses = []
        · -- The bracket is closed before it is written.
          have unwanted : keeps ok elt = false := by
            by_contra kept
            rw [Bool.not_eq_false] at kept
            exact irregular ⟨kept, fun absurd => (front.mp absurd some).elim,
              regular⟩
          have written : ((manifest.queue '[').visit ok elt).licenses = [] := by
            rw [licenses_visit, any_filter_eq_nil.mpr unwanted, List.append_nil]
            exact some
          left
          have inside : ((manifest.queue '[').visit ok elt).Begun :=
            begun_visit (show (manifest.queue '[').Begun from begun) elt
          rcases inside with early | clean
          · exact early.load
          · rw [Manifest.Early, Manifest.visit, Manifest.load, clean written]
            rfl
        · have unled : leads ok elt = false := by
            by_contra leading
            rw [Bool.not_eq_false] at leading
            exact irregular ⟨keeps_of_leads leading, fun _ => leading, regular⟩
          have torn :=
            @dangling_visit ok (manifest.queue '[') _ _ _ inner none queuedInner
            ⟨some, opened⟩ unled
          exact .inr (torn.imp_left fun torn => torn.load)
      · have inside :=
          @induction (manifest.queue '[') behind none queuedInner begun front
          regular
        exact inside.imp (fun early => early.load) fun rest =>
          rest.imp_left fun torn => torn.load
  | operand _ induction | conjunction _ induction =>
      exact induction none queued begun front irregular
  | @and _ _ left right _ _ first second
  | @or _ _ left right _ _ first second =>
      rw [Node.loads, Nat.add_eq_zero_iff] at none
      have still : Queued (manifest.visit ok left).operators :=
        queued_visit queued left
      by_cases regular : Regular ok behind left
      · have later :=
          fun op : Operator => @second ((manifest.visit ok left).queue op.char)
          (behind || keeps ok left) none.2 (still.append (queued_char op))
          (begun_visit begun left) (front_visit front) fun absurd =>
            irregular ⟨regular, absurd⟩
        exact later _
      · rcases first none.1 queued begun front regular with early | rest
        · have later : ∀ op : Operator,
              (((manifest.visit ok left).queue op.char).visit ok right).Early :=
            fun op => @early_visit ok ((manifest.visit ok left).queue op.char)
              early right
          exact .inl (later _)
        · exact .inr (dangling_operator still rest _ right)
  | subscript => simp [Node.loads] at none
  | group round | tuple round | callNone round | call round => cases round

end Irregular

section Accepted

variable {level : Level} {tokens : List Token} {node : Node}

def Token.isOperator : Token → Bool
  | .and => true
  | .or => true
  | _ => false

def Closed (first second : Token) : Prop :=
  first ≠ .opening ∨ second.isOperator = false

/-- How an expression begins and ends. -/
structure Framed (tokens : List Token) : Prop where
  nonempty : tokens ≠ []
  chain : tokens.IsChain Closed
  first : ∀ token ∈ tokens.head?, token.isOperator = false
  last : ∀ token ∈ tokens.getLast?, token ≠ .opening

theorem framed_name (name : Text) : Framed [.name name] :=
  ⟨List.cons_ne_nil _ _, List.isChain_singleton _,
    fun _ same => by cases same; rfl,
    fun _ same => by cases same; exact Token.noConfusion⟩

theorem Framed.around {token : Token} {left right : List Token}
    (first : Framed left) (other : token ≠ .opening) (second : Framed right) :
    Framed (left ++ token :: right) := by
  refine ⟨List.append_ne_nil_of_left_ne_nil first.nonempty _, ?_, ?_, ?_⟩
  · refine List.isChain_append.mpr ⟨first.chain, ?_, fun before last _ _ => ?_⟩
    · exact List.isChain_cons.mpr ⟨fun _ _ => .inl other, second.chain⟩
    · exact .inl (first.last before last)
  · rw [List.head?_append_of_ne_nil _ first.nonempty]
    exact first.first
  · rw [List.getLast?_append_of_ne_nil _ (List.cons_ne_nil _ _),
      List.getLast?_cons_of_ne_nil second.nonempty]
    exact second.last

theorem Framed.bracket {inner : List Token} (framed : Framed inner) :
    Framed (.opening :: inner ++ [.closing]) := by
  refine ⟨List.cons_ne_nil _ _, ?_, fun _ same => by cases same; rfl, ?_⟩
  · refine List.isChain_append.mpr ⟨List.isChain_cons.mpr ⟨?_, framed.chain⟩,
      List.isChain_singleton _, fun _ _ _ same => by cases same; exact .inr rfl⟩
    exact fun token head => .inr (framed.first token head)
  · rw [List.getLast?_concat]
    intro _ same
    cases same
    exact Token.noConfusion

theorem Framed.append {left right : List Token} (first : Framed left)
    (second : Framed right) : Framed (left ++ right) := by
  refine ⟨List.append_ne_nil_of_left_ne_nil first.nonempty _, ?_, ?_, ?_⟩
  · exact List.isChain_append.mpr ⟨first.chain, second.chain,
      fun before last _ _ => .inl (first.last before last)⟩
  · rw [List.head?_append_of_ne_nil _ first.nonempty]
    exact first.first
  · rw [List.getLast?_append_of_ne_nil _ second.nonempty]
    exact second.last

theorem framed_empty : Framed [.opening, .closing] :=
  ⟨List.cons_ne_nil _ _, by simp [Closed, Token.isOperator],
    fun _ same => by cases same; rfl,
    fun _ same => by cases same; exact Token.noConfusion⟩

theorem Parses.framed {brackets : Brackets}
    (parses : Parses brackets level tokens node) : Framed tokens := by
  induction parses with
  | str _ => exact framed_name _
  | tuple _ | listNone _ => exact framed_empty
  | group _ _ induction | list _ _ induction => exact induction.bracket
  | callNone _ _ induction => exact induction.append framed_empty
  | call _ _ _ first second | subscript _ _ _ first second =>
      rw [List.append_assoc]
      exact first.append second.bracket
  | operand _ induction | conjunction _ induction => exact induction
  | and _ _ first second | or _ _ first second =>
      exact first.around Token.noConfusion second

theorem infix_of_elementTokens {op : Operator} {previous : Text}
    {before behind : List Text}
    (read : elementTokens previous (before ++ ['('] :: [op.char] :: behind) =
      .ok tokens) :
    [.opening, op.token] <:+: tokens := by
  have plain : matchesLicense [op.char] = false := by
    cases op <;> decide
  have token : operatorToken [op.char] = .ok op.token := by
    cases op <;> rfl
  induction before generalizing previous tokens with
  | nil =>
      rw [List.nil_append, elementTokens, if_neg (by decide), elementTokens,
        plain, if_neg Bool.false_ne_true, token] at read
      cases rest : elementTokens [op.char] behind with
      | error failure =>
          rw [rest] at read
          cases read
      | ok others =>
          rw [rest] at read
          cases read
          exact ⟨[], others, rfl⟩
  | cons element before induction =>
      obtain ⟨later, others, ⟨_, rfl⟩ | ⟨_, token, _, rfl⟩⟩ :=
        elementTokens_cons_ok read
      · rw [List.append_cons]
        exact (induction others).trans (List.suffix_append _ _).isInfix
      · exact (induction others).trans (List.suffix_cons _ _).isInfix

theorem not_accepts_of_torn {brackets : Brackets} {op : Operator}
    {before behind : Text} :
    ¬ Accepts brackets (before ++ '(' :: ' ' :: op.char :: behind)
      (some node) := by
  rintro ⟨tokens, read, parsed⟩
  have operator : op.char ∈ operatorChars := by
    cases op <;> decide
  have pieces : elements (before ++ '(' :: ' ' :: op.char :: behind) =
      elements before ++ ['('] :: [op.char] :: elements behind := by
    rw [elements_append (by decide), elements_cons (by decide),
      elements_cons operator]
    cases op <;> simp [unblank, isspace, Operator.char]
  rw [getElements, pieces] at read
  cases parsed with
  | expr parses =>
      have chain := parses.framed.chain.infix (infix_of_elementTokens read)
      have closed := (List.isChain_cons_cons.mp chain).1
      cases op <;> simp [Closed, Operator.token, Token.isOperator] at closed

end Accepted

section Brackets

variable {ok : Text → Bool} {node : Node}

theorem forall_mem_pushOp {holds : Char → Prop} {operators : List Char}
    (all : ∀ char ∈ operators, holds char) : ∀ char ∈ collapse operators,
      holds char := by
  induction operators using List.reverseRecOn with
  | nil => exact all
  | append_singleton operators op induction =>
      rw [List.forall_mem_append] at all
      rw [collapse_append_singleton]
      intro char member
      rcases List.mem_append.mp (mem_pushOp member) with old | new
      · exact induction all.1 char old
      · exact all.2 char new

theorem forall_mem_visit {holds : Char → Prop}
    (fixed : ∀ char ∈ ['[', ']', ' ', '&', '|'], holds char)
    (names : ∀ name ∈ node.names, ∀ char ∈ name, holds char)
    {manifest : Manifest} (text : ∀ char ∈ manifest.licensestr, holds char)
    (queue : ∀ char ∈ manifest.operators, holds char) :
    (∀ char ∈ (manifest.visit ok node).licensestr, holds char) ∧
      ∀ char ∈ (manifest.visit ok node).operators, holds char := by
  have closing : ∀ {text : Text}, (∀ char ∈ text, holds char) →
      ∀ char ∈ text ++ [']'], holds char := fun all =>
    List.forall_mem_append.mpr
      ⟨all, List.forall_mem_singleton.mpr (fixed _ (by simp))⟩
  have opening : ∀ {operators : List Char}, (∀ char ∈ operators, holds char) →
      ∀ char ∈ operators ++ ['['], holds char := fun all =>
    List.forall_mem_append.mpr
      ⟨all, List.forall_mem_singleton.mpr (fixed _ (by simp))⟩
  induction node generalizing manifest with
  | str s =>
      rw [Manifest.visit]
      split_ifs
      · refine ⟨?_, fun _ member => absurd member List.not_mem_nil⟩
        simp only [Manifest.write, List.forall_mem_append]
        refine ⟨⟨text, ?_⟩, names s (List.mem_singleton.mpr rfl)⟩
        intro char member
        obtain ⟨op, inside, written⟩ := List.mem_flatMap.mp member
        have known := forall_mem_pushOp queue op inside
        split_ifs at written
        · exact List.mem_singleton.mp written ▸ known
        · have blank := fixed ' ' (by simp)
          simp only [List.mem_cons, List.not_mem_nil, or_false] at written
          rcases written with rfl | rfl | rfl
          · exact blank
          · exact known
          · exact blank
        · cases written
      · exact ⟨text, queue⟩
  | binOp left op right first second =>
      rw [Node.names, List.forall_mem_append] at names
      obtain ⟨before, queued⟩ := first names.1 text queue
      apply @second names.2 ((manifest.visit ok left).queue op.char) before
      refine List.forall_mem_append.mpr
        ⟨queued, List.forall_mem_singleton.mpr ?_⟩
      exact fixed _ (by cases op <;> decide)
  | tuple => exact ⟨closing text, queue⟩
  | callNone func induction => exact induction names text queue
  | call func arg first second =>
      rw [Node.names, List.forall_mem_append] at names
      obtain ⟨before, queued⟩ := first names.1 text queue
      exact second names.2 before queued
  | listNone => exact ⟨closing text, opening queue⟩
  | list elt induction =>
      obtain ⟨inner, queued⟩ :=
        @induction names (manifest.queue '[') text (opening queue)
      exact ⟨closing inner, queued⟩
  | subscript value slice first second =>
      rw [Node.names, List.forall_mem_append] at names
      obtain ⟨before, queued⟩ := first names.1 text queue
      obtain ⟨inner, later⟩ := second names.2 before queued
      exact ⟨closing inner, later⟩

theorem count_roundBracket {text : Text}
    (free : ∀ char ∈ text, char ≠ '(' ∧ char ≠ ')') :
    (text.map roundBracket).count '(' = text.count '[' ∧
      (text.map roundBracket).count ')' = text.count ']' := by
  induction text with
  | nil => exact ⟨rfl, rfl⟩
  | cons char text induction =>
      rw [List.forall_mem_cons] at free
      obtain ⟨opening, closing⟩ := induction free.2
      simp only [List.map_cons, List.count_cons, opening, closing]
      by_cases first : char = '['
      · subst first
        exact ⟨rfl, rfl⟩
      · by_cases second : char = ']'
        · subst second
          exact ⟨rfl, rfl⟩
        · have same : roundBracket char = char := by
            rw [roundBracket, if_neg first, if_neg second]
          simp [same, first, second, free.1.1, free.1.2]

theorem regular_of_no_lists {level : Level} {tokens : List Token}
    {behind : Bool} (parses : Parses .square level tokens node)
    (lists : node.lists = 0)
    (loads : node.loads = 0) : Regular ok behind node := by
  induction parses generalizing behind with
  | str _ => trivial
  | listNone | list => simp [Node.lists] at lists
  | subscript => simp [Node.loads] at loads
  | operand _ induction | conjunction _ induction => exact induction lists loads
  | and _ _ first second | or _ _ first second =>
      rw [Node.lists, Nat.add_eq_zero_iff] at lists
      rw [Node.loads, Nat.add_eq_zero_iff] at loads
      exact ⟨first lists.1 loads.1, second lists.2 loads.2⟩
  | group round | tuple round | callNone round | call round => cases round

end Brackets

theorem regular_of_wellFormed {ok : Text → Bool} {node : Node}
    {licensestr : Text}
    (accepts : Accepts .square licensestr (some node))
    (wellFormed : WellFormed ok (some node)
      ((Manifest.new.visit ok node).licensestr.map roundBracket)
      (Manifest.new.visit ok node).licenses) : Regular ok false node := by
  obtain ⟨tokens, -, parses, valid⟩ := validName_of_accepts accepts
  rw [← parses.names] at valid
  have chars : ∀ name ∈ node.names, ∀ char ∈ name, isLicenseChar char = true :=
    fun name member => (valid name member).chars
  have plain : ∀ name ∈ node.names, '[' ∉ name ∧ ']' ∉ name :=
    fun name member =>
    ⟨fun inside => absurd (chars name member _ inside) (by decide),
      fun inside => absurd (chars name member _ inside) (by decide)⟩
  have free : ∀ char ∈ (Manifest.new.visit ok node).licensestr, char ≠ '(' ∧
      char ≠ ')' := by
    refine (forall_mem_visit (by simp) (fun name member char inside => ?_)
      (fun _ absurd => by cases absurd) fun _ absurd => by cases absurd).1
    have letter := chars name member char inside
    constructor <;> rintro rfl <;> revert letter <;> decide
  have queued : Queued (Manifest.new.visit ok node).operators :=
    queued_visit (fun _ absurd => by cases absurd) node
  have shut : (Manifest.new.visit ok node).operators.count ']' = 0 := by
    rw [List.count_eq_zero]
    intro inside
    rcases queued _ inside with same | ⟨op, same⟩
    · revert same
      decide
    · cases op <;> revert same <;> decide
  obtain ⟨opening, closing⟩ := @count_visit ok node plain .new
  obtain ⟨roundOpening, roundClosing⟩ := count_roundBracket free
  rw [shut] at closing
  change _ = 0 + 0 + _ at opening
  change _ = 0 + 0 + _ at closing
  by_cases none : (Manifest.new.visit ok node).licenses = []
  · have empty := List.map_eq_nil_iff.mp (wellFormed.empty none)
    rw [empty, List.count_nil] at closing
    exact regular_of_no_lists parses (by omega) (by omega)
  · have balanced := wellFormed.balanced none
    have whole := balanced.whole
    rw [roundOpening, roundClosing] at whole
    by_contra irregular
    have broken := @visit_of_not_regular ok .new _ _ _ false parses (by omega)
      (fun _ absurd => by cases absurd) (.inr fun _ => rfl) (by decide)
      irregular
    rcases broken with early | torn | dangling
    · obtain ⟨rest, first⟩ := List.head?_eq_some_iff.mp early
      have early := balanced.before 1
      rw [first] at early
      exact absurd (show [')'].count ')' ≤ [')'].count '(' from early)
        (by decide)
    · obtain ⟨left, accepted⟩ := wellFormed.accepted none
      obtain ⟨op, before, behind, same⟩ := torn
      rw [← same, List.map_append, List.map_append] at accepted
      have operator : ['[', ' ', op.char, ' '].map roundBracket =
          ['(', ' ', op.char, ' '] := by
        cases op <;> rfl
      rw [operator, List.append_assoc] at accepted
      exact not_accepts_of_torn accepted
    · have inside := List.count_pos_iff.mpr dangling.2
      omega

/-- The filtered license is well formed just when the license is regular. -/
theorem wellFormed_iff_regular (fnmatch : Text → Text → Bool)
    (spdx : Text → Option Text) (dontWantLicenses : List Text)
    {licensestr : Text} {module : Option Node}
    (accepts : Accepts .square licensestr module) :
    WellFormed (wanted fnmatch spdx dontWantLicenses) module
        (manifestLicenses fnmatch spdx dontWantLicenses module).1
        (manifestLicenses fnmatch spdx dontWantLicenses module).2 ↔
      RegularModule (wanted fnmatch spdx dontWantLicenses) module := by
  cases module with
  | none =>
      refine iff_of_true ⟨rfl, fun _ => rfl, ?_, ?_, ?_, ?_⟩ trivial
      all_goals exact fun absurd => (absurd rfl).elim
  | some node =>
      exact ⟨regular_of_wellFormed accepts, wellFormed_of_regular accepts⟩

/-- A license that is not wanted stands in front of brackets. -/
theorem wellFormed_two :
    WellFormed (wanted plainMatch (fun _ => none) [['A']])
        (some (.binOp (.str ['A']) .bitOr (.list (.str ['B']))))
        (manifestLicenses plainMatch (fun _ => none) [['A']]
          (some (.binOp (.str ['A']) .bitOr (.list (.str ['B']))))).1
        (manifestLicenses plainMatch (fun _ => none) [['A']]
          (some (.binOp (.str ['A']) .bitOr (.list (.str ['B']))))).2 ↔
      RegularModule (wanted plainMatch (fun _ => none) [['A']])
        (some (.binOp (.str ['A']) .bitOr (.list (.str ['B'])))) := by
  have first : Parses .square .bitwiseOr [.name ['A']] (.str ['A']) :=
    .conjunction (.operand (.str (by decide)))
  have second : Parses .square .bitwiseOr [.name ['B']] (.str ['B']) :=
    .conjunction (.operand (.str (by decide)))
  have accepts : Accepts .square ['A', '|', '(', 'B', ')']
      (some (.binOp (.str ['A']) .bitOr (.list (.str ['B'])))) :=
    ⟨_, rfl, .expr (first.or (.operand (.list rfl second)))⟩
  exact wellFormed_iff_regular plainMatch (fun _ => none) [['A']] accepts

/-- Brackets around a license that is not wanted are closed and not opened. -/
theorem not_wellFormed_brackets :
    ¬ ∀ (fnmatch : Text → Text → Bool) (spdx : Text → Option Text)
      (dontWantLicenses : List Text) (licensestr : Text) (module : Option Node),
      Accepts .square licensestr module →
      WellFormed (wanted fnmatch spdx dontWantLicenses) module
        (manifestLicenses fnmatch spdx dontWantLicenses module).1
        (manifestLicenses fnmatch spdx dontWantLicenses module).2 := by
  intro wellFormed
  have first : Parses .square .bitwiseAnd [.name ['A']] (.str ['A']) :=
    .operand (.str (by decide))
  have second : Parses .square .bitwiseOr [.name ['B']] (.str ['B']) :=
    .conjunction (.operand (.str (by decide)))
  have accepts : Accepts .square ['A', '&', '(', 'B', ')']
      (some (.binOp (.str ['A']) .bitAnd (.list (.str ['B'])))) :=
    ⟨_, rfl, .expr (.conjunction (first.and (.list rfl second)))⟩
  have balanced :=
    (wellFormed plainMatch (fun _ => none) [['B']] _ _ accepts).balanced
    (by decide)
  exact absurd balanced.whole (by decide)

end Nvbmc.License
