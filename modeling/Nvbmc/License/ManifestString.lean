import Nvbmc.License.Manifest

/-!
# When the filtered license is well formed

Each pair of brackets has to have a wanted license, and behind a wanted license
the first one in the brackets has to be wanted.  Then the text is the tokens of
the license without those that are not wanted.
-/

namespace Nvbmc.License

open Library

section Left

variable (ok : Text → Bool)

/-- A license of the node is wanted. -/
def keeps (node : Node) : Bool :=
  node.names.any ok

/-- The first license of the node is wanted. -/
def leads (node : Node) : Bool :=
  node.names.head?.any ok

/-- The condition on a node, with whether a wanted license is in front of it. -/
def Regular : Bool → Node → Prop
  | _, .str _ => True
  | behind, .binOp left _ right =>
      Regular behind left ∧ Regular (behind || keeps ok left) right
  | behind, .list elt =>
      keeps ok elt = true ∧ (behind = true → leads ok elt = true) ∧
        Regular behind elt
  | _, _ => False

def operatorsOf : Node → List Operator
  | .binOp left op right => operatorsOf left ++ op :: operatorsOf right
  | _ => []

/-- The operators in front of the first license that is wanted. -/
def lead : Node → List Operator
  | .binOp left op right =>
      if keeps ok left then lead left else operatorsOf left ++ op :: lead right
  | _ => []

def Operator.token : Operator → Token
  | .bitAnd => .and
  | .bitOr => .or

/-- The tokens that are left. -/
def body : Node → List Token
  | .str s => if ok s then [.name s] else []
  | .binOp left op right =>
      if keeps ok left then
        if keeps ok right then
          body left ++ ((lead ok right).getLastD op).token :: body right
        else body left
      else body right
  | .list elt => .opening :: body elt ++ [.closing]
  | _ => []

end Left

section Names

variable {ok : Text → Bool} {behind : Bool} {left right : Node}

theorem keeps_binOp (op : Operator) :
    keeps ok (.binOp left op right) = (keeps ok left || keeps ok right) :=
  List.any_append

variable {node : Node}

theorem names_ne_nil (regular : Regular ok behind node) : node.names ≠ [] := by
  induction node generalizing behind with
  | str s => exact List.cons_ne_nil _ _
  | binOp left op right first second =>
      exact List.append_ne_nil_of_left_ne_nil (first regular.1) _
  | list elt induction => exact induction regular.2.2
  | tuple | callNone | call | listNone | subscript => cases regular

theorem leads_left {op : Operator} (regular : Regular ok behind left)
    (leading : leads ok (.binOp left op right) = true) :
    leads ok left = true := by
  obtain ⟨name, rest, names⟩ :=
    List.exists_cons_of_ne_nil (names_ne_nil regular)
  simpa [leads, Node.names, names] using leading

theorem keeps_of_leads (leading : leads ok node = true) :
    keeps ok node = true := by
  rw [leads] at leading
  cases names : node.names with
  | nil => simp [names] at leading
  | cons name rest =>
      rw [names] at leading
      simp only [List.head?_cons, Option.any_some] at leading
      simp [keeps, names, leading]

theorem lead_of_leads (regular : Regular ok behind node)
    (leading : leads ok node = true) : lead ok node = [] := by
  induction node generalizing behind with
  | binOp left op right first second =>
      have before := leads_left regular.1 leading
      rw [lead, if_pos (keeps_of_leads before)]
      exact first regular.1 before
  | _ => rfl

theorem tokenNames_body (regular : Regular ok behind node) :
    tokenNames (body ok node) = node.names.filter ok := by
  induction node generalizing behind with
  | str s =>
      rw [body, Node.names]
      split_ifs with wanted
      · rw [List.filter_cons_of_pos wanted]
        rfl
      · rw [List.filter_cons_of_neg wanted]
        rfl
  | binOp left op right first second =>
      have none : ∀ node : Node, keeps ok node = false →
          node.names.filter ok = [] := by
        intro node unwanted
        rw [List.filter_eq_nil_iff]
        simpa [keeps] using unwanted
      rw [body, Node.names, List.filter_append]
      split_ifs with before after
      · rw [tokenNames_append, ← first regular.1, ← second regular.2]
        cases (lead ok right).getLastD op <;> rfl
      · rw [none right (Bool.not_eq_true _ ▸ after), List.append_nil,
          first regular.1]
      · rw [none left (Bool.not_eq_true _ ▸ before), List.nil_append,
          second regular.2]
  | list elt induction =>
      rw [body, tokenNames_append]
      change tokenNames (body ok elt) ++ [] = _
      rw [List.append_nil, induction regular.2.2, Node.names]
  | tuple | callNone | call | listNone | subscript => cases regular

end Names

section Queue

variable (operators : List Char)

theorem collapse_append_singleton (op : Char) :
    collapse (operators ++ [op]) = pushOp (collapse operators) op := by
  rw [collapse, List.foldl_append]
  rfl

theorem collapse_append_bracket :
    collapse (operators ++ ['[']) = collapse operators ++ ['['] :=
  collapse_append_singleton operators '['

theorem collapse_operators {operators : List Char}
    (free : ∀ op ∈ operators, isBracket op = false) :
    collapse operators = operators.getLast?.toList := by
  induction operators using List.reverseRecOn with
  | nil => rfl
  | append_singleton operators op induction =>
      rw [List.forall_mem_append] at free
      rw [collapse_append_singleton, induction free.1, pushOp,
        free.2 op (List.mem_singleton.mpr rfl), List.getLast?_concat]
      cases last : operators.getLast? with
      | none => rfl
      | some char =>
          have plain := free.1 char (List.mem_of_getLast? last)
          simp [plain]

theorem filter_pushOp (ops : List Char) (op : Char) :
    (pushOp ops op).filter isBracket = (ops ++ [op]).filter isBracket := by
  rw [pushOp]
  split_ifs with here
  · rfl
  · cases last : ops.getLast? with
    | none => rfl
    | some char =>
        simp only
        split_ifs with inside
        · rfl
        · obtain ⟨before, rfl⟩ := List.getLast?_eq_some_iff.mp last
          simp [here, inside]

theorem writeOps_nil_collapse :
    writeOps [] (collapse operators) = operators.filter isBracket := by
  have brackets : ∀ ops : List Char, writeOps [] ops =
      ops.filter isBracket := by
    intro ops
    induction ops with
    | nil => rfl
    | cons op ops induction =>
        rw [← List.singleton_append, writeOps_append, induction,
          List.filter_append]
        congr 1
        rw [writeOps, List.flatMap_singleton]
        cases here : isBracket op <;> simp [here]
  rw [brackets]
  induction operators using List.reverseRecOn with
  | nil => rfl
  | append_singleton operators op induction =>
      rw [collapse_append_singleton, filter_pushOp, List.filter_append,
        induction, List.filter_append]

theorem isBracket_char (op : Operator) : isBracket op.char = false := by
  cases op <;> rfl

theorem isBracket_map (operators : List Operator) :
    ∀ char ∈ operators.map Operator.char, isBracket char = false := by
  rw [List.forall_mem_map]
  exact fun op _ => isBracket_char op

end Queue

/-- How a visitor writes a token. -/
def Token.square : Token → Text
  | .opening => ['[']
  | .closing => [']']
  | token => token.spelled

def writeSquare (tokens : List Token) : Text :=
  tokens.flatMap Token.square

section Text

variable {ok : Text → Bool} {behind : Bool} {node : Node}

theorem visit_of_not_keeps (manifest : Manifest)
    (regular : Regular ok behind node) (unwanted : keeps ok node = false) :
    manifest.visit ok node = { manifest with
      operators :=
        manifest.operators ++ (operatorsOf node).map Operator.char } := by
  induction node generalizing behind manifest with
  | str s =>
      have bad : ok s = false := by
        simpa [keeps, Node.names] using unwanted
      simp [Manifest.visit, bad, operatorsOf]
  | binOp left op right first second =>
      rw [keeps_binOp, Bool.or_eq_false_iff] at unwanted
      rw [Manifest.visit, first _ regular.1 unwanted.1,
        second _ regular.2 unwanted.2]
      simp [Manifest.queue, operatorsOf]
  | list elt induction =>
      rw [keeps, Node.names, ← keeps, regular.1] at unwanted
      cases unwanted
  | tuple | callNone | call | listNone | subscript => cases regular

/-- What is written for a node with a wanted license. -/
structure Written (ok : Text → Bool) (manifest : Manifest) (node : Node) :
    Prop where
  licensestr : (manifest.visit ok node).licensestr = manifest.licensestr ++
    writeOps manifest.licenses
      (collapse (manifest.operators ++ (lead ok node).map Operator.char)) ++
    writeSquare (body ok node)
  operators : ∀ op ∈ (manifest.visit ok node).operators, isBracket op = false

theorem writeOps_between {licenses : List Library.Text} (behind : licenses ≠ [])
    {operators : List Char} (free : ∀ op ∈ operators, isBracket op = false)
    (op : Operator) (others : List Operator) :
    writeOps licenses
        (collapse (operators ++ [op.char] ++ others.map Operator.char)) =
      (others.getLastD op).token.square := by
  have all : ∀ char ∈ operators ++ [op.char] ++ others.map Operator.char,
      isBracket char = false := by
    rw [List.forall_mem_append, List.forall_mem_append,
      List.forall_mem_singleton]
    exact ⟨⟨free, isBracket_char op⟩, isBracket_map others⟩
  have last : (operators ++ [op.char] ++ others.map Operator.char).getLast? =
      some (others.getLastD op).char := by
    rw [List.getLast?_append]
    cases others using List.reverseRecOn with
    | nil => simp
    | append_singleton others other => simp
  rw [collapse_operators all, last]
  have plain := isBracket_char (others.getLastD op)
  simp only [Option.toList_some, writeOps, List.flatMap_singleton, plain,
    behind, ne_eq, not_false_eq_true, if_true, Bool.false_eq_true, if_false]
  cases others.getLastD op <;> rfl

theorem written_of_regular (manifest : Manifest)
    (regular : Regular ok behind node)
    (front : behind = true ↔ manifest.licenses ≠ [])
    (wanted : keeps ok node = true) :
    Written ok manifest node := by
  induction node generalizing behind manifest with
  | str s =>
      have good : ok s = true := by
        simpa [keeps, Node.names] using wanted
      constructor
      · simp [Manifest.visit, good, Manifest.write, lead, body, writeSquare,
          Token.square, Token.spelled]
      · rw [Manifest.visit, if_pos good]
        exact fun _ member => absurd member List.not_mem_nil
  | binOp left op right first second =>
      cases before : keeps ok left with
      | true =>
          have written := first manifest regular.1 front before
          have behindLeft : (manifest.visit ok left).licenses ≠ [] := by
            rw [licenses_visit]
            apply List.append_ne_nil_of_right_ne_nil
            intro none
            rw [List.filter_eq_nil_iff] at none
            obtain ⟨name, member, good⟩ := List.any_eq_true.mp before
            exact none name member good
          cases after : keeps ok right with
          | true =>
              have later :=
                second ((manifest.visit ok left).queue op.char) regular.2
                (iff_of_true (by rw [before, Bool.or_true]) behindLeft) after
              constructor
              · rw [Manifest.visit, later.licensestr]
                change (manifest.visit ok left).licensestr ++
                  writeOps (manifest.visit ok left).licenses (collapse
                    ((manifest.visit ok left).operators ++ [op.char] ++ _)) ++
                      _ = _
                rw [written.licensestr,
                  writeOps_between behindLeft written.operators, lead,
                  if_pos before, body, if_pos before, if_pos after]
                simp [writeSquare]
              · exact later.operators
          | false =>
              have rest := visit_of_not_keeps
                ((manifest.visit ok left).queue op.char) regular.2 after
              constructor
              · rw [Manifest.visit, rest, lead, if_pos before, body,
                  if_pos before, after, if_neg Bool.false_ne_true]
                exact written.licensestr
              · rw [Manifest.visit, rest]
                simp only [Manifest.queue, List.forall_mem_append,
                  List.forall_mem_singleton]
                exact ⟨⟨written.operators, isBracket_char op⟩, isBracket_map _⟩
      | false =>
          rw [keeps_binOp, before, Bool.false_or] at wanted
          have behindLeft : (behind || keeps ok left) = true ↔
              ((manifest.visit ok left).queue op.char).licenses ≠ [] := by
            rw [before, Bool.or_false, front,
              visit_of_not_keeps manifest regular.1 before]
            rfl
          have later :=
            second ((manifest.visit ok left).queue op.char) regular.2
            behindLeft wanted
          constructor
          · rw [Manifest.visit, later.licensestr,
              visit_of_not_keeps manifest regular.1 before,
              lead, before, if_neg Bool.false_ne_true, body, before,
              if_neg Bool.false_ne_true]
            simp [Manifest.queue]
          · exact later.operators
  | list elt induction =>
      obtain ⟨inside, first, inner⟩ := regular
      have written := induction (manifest.queue '[') inner front inside
      have opened : writeOps manifest.licenses
          (collapse (manifest.operators ++ ['['] ++
            (lead ok elt).map Operator.char)) =
            writeOps manifest.licenses (collapse manifest.operators) ++
              ['['] := by
        by_cases none : manifest.licenses = []
        · have free : ((lead ok elt).map Operator.char).filter isBracket =
              [] := by
            rw [List.filter_eq_nil_iff]
            intro char member
            rw [isBracket_map _ char member]
            exact Bool.false_ne_true
          rw [none, writeOps_nil_collapse, writeOps_nil_collapse,
            List.filter_append, free, List.append_nil, List.filter_append]
          rfl
        · rw [lead_of_leads inner (first (front.mpr none)), List.map_nil,
            List.append_nil, collapse_append_bracket, writeOps_append]
          rfl
      constructor
      · rw [Manifest.visit, Manifest.load, written.licensestr]
        change manifest.licensestr ++ writeOps manifest.licenses (collapse
          (manifest.operators ++ ['['] ++ _)) ++ _ ++ [']'] = _
        rw [opened]
        simp [lead, body, writeSquare, Token.square]
      · exact written.operators
  | tuple | callNone | call | listNone | subscript => cases regular

end Text

section Join

variable {left right : List Token} {first second : Node}
  (before : Parses .square .bitwiseOr left first)
include before

theorem Parses.extend (operand : Parses .square .primary right second) :
    ∃ node, Parses .square .bitwiseOr (left ++ .and :: right) node := by
  cases before with
  | conjunction before => exact ⟨_, .conjunction (before.and operand)⟩
  | or earlier last =>
      rw [List.append_assoc, List.cons_append]
      exact ⟨_, .or earlier (last.and operand)⟩

theorem Parses.extend_operator (operand : Parses .square .primary right second)
    (op : Operator) :
    ∃ node, Parses .square .bitwiseOr (left ++ op.token :: right) node := by
  cases op with
  | bitAnd => exact before.extend operand
  | bitOr => exact ⟨_, .or before (.operand operand)⟩

theorem Parses.join {level : Level} (op : Operator)
    (behind : Parses .square level right second) :
    ∃ node, Parses .square .bitwiseOr (left ++ op.token :: right) node := by
  induction behind with
  | str free => exact before.extend_operator (.str free) op
  | listNone square => exact before.extend_operator (.listNone square) op
  | list square inner _ => exact before.extend_operator (.list square inner) op
  | subscript square value slice _ _ =>
      exact before.extend_operator (.subscript square value slice) op
  | operand _ induction => exact induction
  | conjunction _ induction => exact induction
  | and _ operand induction _ =>
      obtain ⟨node, joined⟩ := induction
      rw [← List.cons_append, ← List.append_assoc]
      exact joined.extend operand
  | or _ last induction _ =>
      obtain ⟨node, joined⟩ := induction
      rw [← List.cons_append, ← List.append_assoc]
      exact ⟨_, .or joined last⟩
  | group round | tuple round | callNone round | call round => cases round

end Join

section Body

variable {ok : Text → Bool} {behind : Bool} {node : Node}

theorem parses_body (free : ∀ name ∈ node.names, '\n' ∉ name)
    (regular : Regular ok behind node) (wanted : keeps ok node = true) :
    ∃ left, Parses .square .bitwiseOr (body ok node) left := by
  induction node generalizing behind with
  | str s =>
      have good : ok s = true := by
        simpa [keeps, Node.names] using wanted
      rw [body, if_pos good]
      exact ⟨_, .conjunction
        (.operand (.str (free s (List.mem_singleton.mpr rfl))))⟩
  | binOp left op right first second =>
      rw [Node.names, List.forall_mem_append] at free
      rw [keeps_binOp, Bool.or_eq_true] at wanted
      rw [body]
      split_ifs with before after
      · obtain ⟨one, parsed⟩ := first free.1 regular.1 before
        obtain ⟨other, later⟩ := second free.2 regular.2 after
        exact parsed.join _ later
      · exact first free.1 regular.1 before
      · exact second free.2 regular.2 (wanted.resolve_left before)
  | list elt induction =>
      obtain ⟨inner, parsed⟩ := induction free regular.2.2 regular.1
      exact ⟨_, .conjunction (.operand (.list rfl parsed))⟩
  | tuple | callNone | call | listNone | subscript => cases regular

theorem keeps_of_all (regular : Regular ok behind node)
    (all : ∀ name ∈ node.names, ok name = true) : keeps ok node = true := by
  obtain ⟨name, rest, names⟩ :=
    List.exists_cons_of_ne_nil (names_ne_nil regular)
  rw [names] at all
  rw [keeps, names, List.any_cons, all name List.mem_cons_self, Bool.true_or]

theorem body_of_all {level : Level} {tokens : List Token}
    (parses : Parses .square level tokens node)
    (regular : Regular ok behind node)
    (all : ∀ name ∈ node.names, ok name = true) :
    body ok node = tokens ∧ lead ok node = [] := by
  induction parses generalizing behind with
  | str _ =>
      refine ⟨?_, rfl⟩
      rw [body, if_pos (all _ (List.mem_singleton.mpr rfl))]
  | list _ _ induction =>
      refine ⟨?_, rfl⟩
      rw [body, (induction regular.2.2 all).1]
  | operand _ induction => exact induction regular all
  | conjunction _ induction => exact induction regular all
  | and _ _ first second | or _ _ first second =>
      rw [Node.names, List.forall_mem_append] at all
      obtain ⟨before, lead⟩ := first regular.1 all.1
      obtain ⟨later, none⟩ := second regular.2 all.2
      rw [body, License.lead, if_pos (keeps_of_all regular.1 all.1),
        if_pos (keeps_of_all regular.2 all.2),
        if_pos (keeps_of_all regular.1 all.1),
        before, later, none, lead]
      exact ⟨rfl, rfl⟩
  | listNone | subscript => cases regular
  | group round | tuple round | callNone round | call round => cases round

end Body

/-- As many brackets are closed as are opened, and none before it is opened. -/
structure Balanced (text : Text) : Prop where
  before : ∀ count, (text.take count).count ')' ≤ (text.take count).count '('
  whole : text.count ')' = text.count '('

section Balance

variable {first second text : Text}

theorem Balanced.append (left : Balanced first) (right : Balanced second) :
    Balanced (first ++ second) := by
  constructor
  · intro count
    rw [List.take_append, List.count_append, List.count_append]
    exact Nat.add_le_add (left.before _) (right.before _)
  · rw [List.count_append, List.count_append, left.whole, right.whole]

theorem Balanced.bracket (inner : Balanced text) :
    Balanced ('(' :: text ++ [')']) := by
  constructor
  · intro count
    cases count with
    | zero => exact le_refl _
    | succ count =>
        have inside := inner.before count
        have last : ([')'].take (count - text.length)).count ')' ≤ 1 :=
          List.count_le_length.trans (List.length_take_le' _ _)
        rw [List.cons_append, List.take_succ_cons, List.take_append,
          List.count_cons_of_ne (by decide), List.count_cons_self,
          List.count_append,
          List.count_append]
        omega
  · have same := inner.whole
    simp [same]

theorem balanced_of_free (opening : '(' ∉ text) (closing : ')' ∉ text) :
    Balanced text := by
  constructor
  · intro count
    rw [List.count_eq_zero.mpr fun member =>
      closing (List.mem_of_mem_take member)]
    exact Nat.zero_le _
  · rw [List.count_eq_zero.mpr opening, List.count_eq_zero.mpr closing]

theorem spell_append (left right : List Token) :
    spell (left ++ right) = spell left ++ spell right :=
  List.flatMap_append

theorem spell_cons (token : Token) (tokens : List Token) :
    spell (token :: tokens) = token.spelled ++ spell tokens :=
  List.flatMap_cons

theorem Parses.balanced {level : Level} {tokens : List Token} {node : Node}
    (parses : Parses .square level tokens node)
    (valid : ∀ name ∈ tokenNames tokens, ValidName name) :
    Balanced (spell tokens) := by
  have empty : Balanced [] := balanced_of_free List.not_mem_nil List.not_mem_nil
  induction parses with
  | str _ =>
      have chars := (valid _ (List.mem_singleton.mpr rfl)).chars
      rw [spell, List.flatMap_singleton]
      apply balanced_of_free
      · exact fun member => absurd (chars _ member) (by decide)
      · exact fun member => absurd (chars _ member) (by decide)
  | listNone _ => exact empty.bracket
  | list _ _ induction =>
      rw [tokenNames_append, List.forall_mem_append] at valid
      rw [spell_append, spell_cons]
      exact (induction valid.1).bracket
  | subscript _ _ _ first second =>
      rw [tokenNames_append, tokenNames_append, List.forall_mem_append,
        List.forall_mem_append] at valid
      rw [spell_append, spell_append, List.append_assoc, spell_cons]
      exact (first valid.1.1).append (second valid.1.2).bracket
  | operand _ induction => exact induction valid
  | conjunction _ induction => exact induction valid
  | and _ _ first second | or _ _ first second =>
      rw [tokenNames_append, List.forall_mem_append] at valid
      rw [spell_append, spell_cons]
      apply (first valid.1).append
      apply Balanced.append _ (second valid.2)
      exact balanced_of_free (by decide) (by decide)
  | group round | tuple round | callNone round | call round => cases round

end Balance

end Nvbmc.License
