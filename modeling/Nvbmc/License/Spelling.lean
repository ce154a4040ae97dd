import Mathlib.Data.List.Chain
import Nvbmc.License.Parse

/-!
# Writing tokens

Tokens without two names side by side, written with a blank around each
operator, are read as the same tokens.
-/

namespace Nvbmc.License

open Library

theorem splitOperators_append {char : Char} (operator : char ∈ operatorChars)
    (piece text rest : Text) :
    splitOperators piece (text ++ char :: rest) =
      splitOperators piece text ++ [char] :: splitOperators [] rest := by
  induction text generalizing piece with
  | nil =>
      rw [List.nil_append, splitOperators, splitOperators, if_pos operator]
      rfl
  | cons head text induction =>
      rw [List.cons_append, splitOperators, splitOperators]
      by_cases cut : head ∈ operatorChars
      · rw [if_pos cut, if_pos cut, induction]
        rfl
      · rw [if_neg cut, if_neg cut, induction]

theorem splitOperators_piece {text : Text}
    (free : ∀ char ∈ text, char ∉ operatorChars)
    (piece : Text) : splitOperators piece text = [piece ++ text] := by
  induction text generalizing piece with
  | nil => simp [splitOperators]
  | cons head text induction =>
      rw [List.forall_mem_cons] at free
      rw [splitOperators, if_neg free.1, induction free.2, List.append_assoc]
      rfl

theorem elements_append {char : Char} (operator : char ∈ operatorChars)
    (text rest : Text) : elements (text ++ char :: rest) =
      elements text ++ [[char]].filter unblank ++ elements rest := by
  simp only [elements, splitOperators_append operator, List.filter_append,
    List.append_assoc]
  rw [← List.singleton_append, List.filter_append]

@[simp] theorem elements_nil : elements [] = [] :=
  rfl

theorem elements_cons {char : Char} (operator : char ∈ operatorChars)
    (rest : Text) :
    elements (char :: rest) = [[char]].filter unblank ++ elements rest :=
  elements_append operator [] rest

structure ValidName (name : Text) : Prop where
  nonempty : name ≠ []
  chars : ∀ char ∈ name, isLicenseChar char = true

section Names

variable {name : Text} {char : Char}

theorem not_operator_of_isLicenseChar (valid : isLicenseChar char = true) :
    char ∉ operatorChars := by
  intro operator
  revert valid
  simp only [operatorChars, List.mem_cons, List.not_mem_nil, or_false]
    at operator
  rcases operator with rfl | rfl | rfl | rfl | rfl <;> decide

theorem code_of_range {low high : UInt32} (least : 33 ≤ low.toNat)
    (greatest : high.toNat ≤ 126) (above : low ≤ char.val)
    (below : char.val ≤ high) :
    33 ≤ char.toNat ∧ char.toNat ≤ 126 :=
  ⟨le_trans least (UInt32.le_iff_toNat_le.mp above),
    le_trans (UInt32.le_iff_toNat_le.mp below) greatest⟩

theorem code_of_isLicenseChar (valid : isLicenseChar char = true) :
    33 ≤ char.toNat ∧ char.toNat ≤ 126 := by
  rcases Bool.or_eq_true_iff.mp valid with alphanumeric | named
  · rcases Bool.or_eq_true_iff.mp alphanumeric with alphabetic | digit
    · rcases Bool.or_eq_true_iff.mp alphabetic with upper | lower
      · have range : 'A'.val ≤ char.val ∧ char.val ≤ 'Z'.val :=
          of_decide_eq_true upper
        exact code_of_range (by decide) (by decide) range.1 range.2
      · have range := Bool.and_eq_true_iff.mp lower
        exact code_of_range (by decide) (by decide) (of_decide_eq_true range.1)
          (of_decide_eq_true range.2)
    · have range := Bool.and_eq_true_iff.mp digit
      exact code_of_range (by decide) (by decide) (of_decide_eq_true range.1)
        (of_decide_eq_true range.2)
  · rw [decide_eq_true_eq] at named
    simp only [List.mem_cons, List.not_mem_nil, or_false] at named
    rcases named with rfl | rfl | rfl | rfl <;> decide

theorem not_isspace_of_isLicenseChar (valid : isLicenseChar char = true) :
    isspace char = false := by
  have code := code_of_isLicenseChar valid
  simp only [isspace, Bool.or_eq_false_iff, Bool.and_eq_false_iff,
    decide_eq_false_iff_not, beq_eq_false_iff_ne]
  omega

variable (valid : ValidName name)
include valid

theorem ValidName.unblank : unblank name = true := by
  obtain ⟨head, rest, rfl⟩ := List.exists_cons_of_ne_nil valid.nonempty
  have first :=
    not_isspace_of_isLicenseChar (valid.chars head List.mem_cons_self)
  simp [License.unblank, first]

theorem ValidName.elements : elements name = [name] := by
  rw [License.elements, splitOperators_piece fun char member =>
    not_operator_of_isLicenseChar (valid.chars char member)]
  simp [valid.unblank]

theorem ValidName.not_newline : '\n' ∉ name := by
  intro member
  exact absurd (valid.chars _ member) (by decide)

theorem ValidName.matchesLicense : matchesLicense name = true := by
  have last : name.getLast? ≠ some '\n' := fun same =>
    valid.not_newline (List.mem_of_getLast? same)
  simpa [License.matchesLicense, last] using ⟨valid.nonempty, valid.chars⟩

theorem ValidName.elements_append (operator : char ∈ operatorChars)
    (rest : Text) :
    License.elements (name ++ char :: rest) =
      name :: License.elements (char :: rest) := by
  rw [License.elements_append operator, valid.elements, elements_cons operator]
  rfl

end Names

/-- How `manifest_licenses` writes a token. -/
def Token.spelled : Token → Text
  | .name license => license
  | .and => [' ', '&', ' ']
  | .or => [' ', '|', ' ']
  | .opening => ['(']
  | .closing => [')']

def spell (tokens : List Token) : Text :=
  tokens.flatMap Token.spelled

def Token.element : Token → Text
  | .name license => license
  | .and => ['&']
  | .or => ['|']
  | .opening => ['(']
  | .closing => [')']

def Token.isName : Token → Bool
  | .name _ => true
  | _ => false

/-- No two names are side by side. -/
def Apart (tokens : List Token) : Prop :=
  tokens.IsChain fun first second => first.isName = false ∨
    second.isName = false

section Spell

variable {token : Token} {tokens : List Token}

theorem spelled_operator (operator : token.isName = false) :
    ∃ char rest, token.spelled = char :: rest ∧ char ∈ operatorChars := by
  cases token with
  | name license => cases operator
  | and => exact ⟨_, _, rfl, by decide⟩
  | or => exact ⟨_, _, rfl, by decide⟩
  | opening => exact ⟨_, _, rfl, by decide⟩
  | closing => exact ⟨_, _, rfl, by decide⟩

theorem elements_spelled (operator : token.isName = false) (rest : Text) :
    elements (token.spelled ++ rest) = token.element :: elements rest := by
  have blank : ∀ text : Text, elements (' ' :: text) = elements text :=
    fun text => elements_cons (by decide) text
  cases token with
  | name license => cases operator
  | and =>
      simp only [Token.spelled, List.cons_append, List.nil_append, blank]
      rw [elements_cons (by decide), blank]
      rfl
  | or =>
      simp only [Token.spelled, List.cons_append, List.nil_append, blank]
      rw [elements_cons (by decide), blank]
      rfl
  | opening => exact elements_cons (by decide) rest
  | closing => exact elements_cons (by decide) rest

theorem elements_spell (valid : ∀ name ∈ tokenNames tokens, ValidName name)
    (apart : Apart tokens) :
    elements (spell tokens) = tokens.map Token.element := by
  induction tokens with
  | nil => rfl
  | cons token tokens induction =>
      have later : Apart tokens := apart.tail
      rw [spell, List.flatMap_cons]
      change elements (token.spelled ++ spell tokens) = _
      cases named : token.isName with
      | false =>
          rw [elements_spelled named, induction _ later, List.map_cons]
          intro name member
          apply valid
          cases token <;> first | exact member | cases named
      | true =>
          obtain ⟨license, rfl⟩ : ∃ license, token = .name license := by
            cases token <;> first | exact ⟨_, rfl⟩ | cases named
          rw [tokenNames, List.forall_mem_cons] at valid
          rw [List.map_cons, ← induction valid.2 later]
          cases tokens with
          | nil =>
              rw [spell, List.flatMap_nil, List.append_nil]
              exact valid.1.elements
          | cons next tokens =>
              have operator : next.isName = false := by
                simpa [Token.isName] using List.isChain_cons_cons.mp apart |>.1
              obtain ⟨char, rest, spelled, cut⟩ := spelled_operator operator
              rw [spell, List.flatMap_cons, spelled, List.cons_append]
              exact valid.1.elements_append cut _

theorem matchesLicense_element (operator : token.isName = false) :
    matchesLicense token.element = false := by
  cases token <;> first | decide | cases operator

theorem elementTokens_map {previous : Text}
    (valid : ∀ name ∈ tokenNames tokens, ValidName name)
    (apart : Apart tokens) (first : matchesLicense previous = false ∨
      ∀ token ∈ tokens.head?, token.isName = false) :
    elementTokens previous (tokens.map Token.element) = .ok tokens := by
  induction tokens generalizing previous with
  | nil => rfl
  | cons token tokens induction =>
      rw [List.map_cons, elementTokens]
      cases token with
      | name license =>
          rw [tokenNames, List.forall_mem_cons] at valid
          have before : matchesLicense previous = false := by
            simpa [Token.isName] using first
          have next : ∀ token ∈ tokens.head?, token.isName = false := by
            intro next head
            simpa [Token.isName] using List.isChain_cons.mp apart |>.1 next head
          rw [Token.element, if_pos valid.1.matchesLicense,
            induction valid.2 apart.tail (.inr next), before]
          rfl
      | _ =>
          rw [matchesLicense_element rfl, if_neg Bool.false_ne_true,
            induction valid apart.tail (.inl (matchesLicense_element rfl))]
          rfl

theorem getElements_spell (valid : ∀ name ∈ tokenNames tokens, ValidName name)
    (apart : Apart tokens) : getElements (spell tokens) = .ok tokens := by
  rw [getElements, elements_spell valid apart]
  exact elementTokens_map valid apart (.inl rfl)

end Spell

theorem Apart.around {token : Token} (operator : token.isName = false)
    {left right : List Token} (first : Apart left) (second : Apart right) :
    Apart (left ++ token :: right) := by
  refine List.isChain_append.mpr ⟨first, ?_, fun _ _ next head => ?_⟩
  · exact List.isChain_cons.mpr ⟨fun _ _ => .inl operator, second⟩
  · cases head
    exact .inr operator

theorem Apart.bracket {left inner : List Token} (first : Apart left)
    (second : Apart inner) : Apart (left ++ .opening :: inner ++ [.closing]) :=
  Apart.around rfl (first.around rfl second) .nil

theorem Parses.apart {brackets : Brackets} {level : Level} {tokens : List Token}
    {node : Node} (parses : Parses brackets level tokens node) :
    Apart tokens := by
  induction parses with
  | str _ => exact List.isChain_singleton _
  | tuple _ => exact Apart.bracket .nil .nil
  | listNone _ => exact Apart.bracket .nil .nil
  | group _ _ induction => exact Apart.bracket .nil induction
  | list _ _ induction => exact Apart.bracket .nil induction
  | callNone _ _ induction =>
      exact induction.around rfl (List.isChain_singleton _)
  | call _ _ _ first second => exact first.bracket second
  | subscript _ _ _ first second => exact first.bracket second
  | operand _ induction => exact induction
  | conjunction _ induction => exact induction
  | and _ _ first second => exact first.around rfl second
  | or _ _ first second => exact first.around rfl second

end Nvbmc.License
