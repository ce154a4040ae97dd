import Nvbmc.Library.Text

/-!
# License expressions

The text of a license is cut at its operators, and `ast.parse` reads the pieces
as a Python expression.  The grammar is Python's for names, `&`, `|` and
brackets; its limits for the depth of an expression are left out.
-/

namespace Nvbmc.License

open Library

/-- `license_operator_chars`. -/
def operatorChars : Text :=
  ['&', '|', '(', ')', ' ']

/-- The characters of `license_pattern`. -/
def isLicenseChar (char : Char) : Bool :=
  char.isAlphanum || char ∈ ['.', '+', '_', '-']

/-- `license_pattern.match`; the `$` is also before a last line end. -/
def matchesLicense (element : Text) : Bool :=
  let name := if element.getLast? = some '\n' then element.dropLast else element
  name ≠ [] ∧ name.all isLicenseChar

/-- `license_operator.split`, with the characters since the last operator. -/
def splitOperators : Text → Text → List Text
  | piece, [] => [piece]
  | piece, char :: rest =>
      if char ∈ operatorChars then piece :: [char] :: splitOperators [] rest
      else splitOperators (piece ++ [char]) rest

/-- `x.strip()` is true. -/
def unblank (piece : Text) : Bool :=
  !piece.all isspace

/-- `elements` in `get_elements`. -/
def elements (licensestr : Text) : List Text :=
  (splitOperators [] licensestr).filter unblank

/-- What `get_elements` returns, with a name for its quoted text. -/
inductive Token where
  | name (name : Text)
  | and
  | or
  | opening
  | closing
deriving DecidableEq, Repr

inductive LicenseError where
  | invalidLicense (license : Text)
  | licenseSyntaxError
deriving DecidableEq, Repr

/-- An element that is not a name. -/
def operatorToken : Text → Except LicenseError Token
  | ['&'] => .ok .and
  | ['|'] => .ok .or
  | ['('] => .ok .opening
  | [')'] => .ok .closing
  | element => .error (.invalidLicense element)

/-- The loop of `get_elements`, with the element before. -/
def elementTokens : Text → List Text → Except LicenseError (List Token)
  | _, [] => .ok []
  | previous, element :: rest =>
      if matchesLicense element then do
        let tokens ← elementTokens element rest
        .ok ((if matchesLicense previous then [.and] else []) ++
          .name element :: tokens)
      else do
        let token ← operatorToken element
        let tokens ← elementTokens element rest
        .ok (token :: tokens)

/-- `get_elements`. -/
def getElements (licensestr : Text) : Except LicenseError (List Token) :=
  elementTokens [] (elements licensestr)

inductive Operator where
  | bitAnd
  | bitOr
deriving DecidableEq, Repr

inductive Node where
  | str (s : Text)
  | binOp (left : Node) (op : Operator) (right : Node)
  /-- `()`. -/
  | tuple
  | callNone (func : Node)
  | call (func arg : Node)
  /-- `[]`. -/
  | listNone
  | list (elt : Node)
  | subscript (value slice : Node)
deriving DecidableEq, Repr

/-- How the brackets of a license are written for `ast.parse`. -/
inductive Brackets where
  | round
  | square
deriving DecidableEq, Repr

inductive Level where
  | primary
  | bitwiseAnd
  | bitwiseOr
deriving DecidableEq, Repr

/-- The tokens are an expression of a level of the grammar. -/
inductive Parses (brackets : Brackets) : Level → List Token → Node → Prop where
  /-- A text ends before the end of its line. -/
  | str {name : Text} : '\n' ∉ name → Parses brackets .primary [.name name]
      (.str name)
  | group {tokens : List Token} {node : Node} : brackets = .round →
      Parses brackets .bitwiseOr tokens node →
      Parses brackets .primary (.opening :: tokens ++ [.closing]) node
  | tuple : brackets = .round → Parses brackets .primary [.opening, .closing]
      .tuple
  | callNone {tokens : List Token} {func : Node} : brackets = .round →
      Parses brackets .primary tokens func →
      Parses brackets .primary (tokens ++ [.opening, .closing]) (.callNone func)
  | call {tokens inner : List Token} {func arg : Node} : brackets = .round →
      Parses brackets .primary tokens func →
        Parses brackets .bitwiseOr inner arg →
      Parses brackets .primary (tokens ++ .opening :: inner ++ [.closing])
        (.call func arg)
  | listNone : brackets = .square →
      Parses brackets .primary [.opening, .closing] .listNone
  | list {tokens : List Token} {elt : Node} : brackets = .square →
      Parses brackets .bitwiseOr tokens elt →
      Parses brackets .primary (.opening :: tokens ++ [.closing]) (.list elt)
  | subscript {tokens inner : List Token} {value slice : Node} : brackets =
      .square →
      Parses brackets .primary tokens value →
        Parses brackets .bitwiseOr inner slice →
      Parses brackets .primary (tokens ++ .opening :: inner ++ [.closing])
        (.subscript value slice)
  | operand {tokens : List Token} {node : Node} : Parses brackets .primary
      tokens node → Parses brackets .bitwiseAnd tokens node
  | and {left right : List Token} {first second : Node} :
      Parses brackets .bitwiseAnd left first →
        Parses brackets .primary right second →
      Parses brackets .bitwiseAnd (left ++ .and :: right)
        (.binOp first .bitAnd second)
  | conjunction {tokens : List Token} {node : Node} :
      Parses brackets .bitwiseAnd tokens node →
        Parses brackets .bitwiseOr tokens node
  | or {left right : List Token} {first second : Node} :
      Parses brackets .bitwiseOr left first →
        Parses brackets .bitwiseAnd right second →
      Parses brackets .bitwiseOr (left ++ .or :: right)
        (.binOp first .bitOr second)

/-- `ast.parse`: there is no expression in an empty text. -/
inductive ParsesModule (brackets : Brackets) : List Token → Option Node →
    Prop where
  | empty : ParsesModule brackets [] none
  | expr {tokens : List Token} {node : Node} :
      Parses brackets .bitwiseOr tokens node →
        ParsesModule brackets tokens (some node)

def Accepts (brackets : Brackets) (licensestr : Text) (module : Option Node) :
    Prop :=
  ∃ tokens, getElements licensestr = .ok tokens ∧
    ParsesModule brackets tokens module

/-- The names in the order in which a visitor comes to them. -/
def Node.names : Node → List Text
  | .str s => [s]
  | .binOp left _ right => left.names ++ right.names
  | .tuple => []
  | .callNone func => func.names
  | .call func arg => func.names ++ arg.names
  | .listNone => []
  | .list elt => elt.names
  | .subscript value slice => value.names ++ slice.names

def tokenNames : List Token → List Text
  | [] => []
  | .name name :: tokens => name :: tokenNames tokens
  | _ :: tokens => tokenNames tokens

@[simp] theorem tokenNames_append (first second : List Token) :
    tokenNames (first ++ second) = tokenNames first ++ tokenNames second := by
  induction first with
  | nil => rfl
  | cons token first induction => cases token <;> simp [tokenNames, induction]

variable {tokens : List Token}

theorem Parses.names {brackets : Brackets} {level : Level}
    {node : Node} (parses : Parses brackets level tokens node) :
    node.names = tokenNames tokens := by
  induction parses <;> simp_all [Node.names, tokenNames]

def licenseNames (licensestr : Text) : List Text :=
  (elements licensestr).filter matchesLicense

/-- A turn of the loop of `get_elements` that does not raise. -/
theorem elementTokens_cons_ok {previous element : Text} {rest : List Text}
    (read : elementTokens previous (element :: rest) = .ok tokens) :
    ∃ later, elementTokens element rest = .ok later ∧
      ((matchesLicense element = true ∧
        tokens = (if matchesLicense previous then [.and] else []) ++
          .name element :: later) ∨
      (matchesLicense element = false ∧
        ∃ token, operatorToken element = .ok token ∧
          tokens = token :: later)) := by
  rw [elementTokens] at read
  cases named : matchesLicense element with
  | true =>
      rw [if_pos named] at read
      cases later : elementTokens element rest with
      | error failure =>
          rw [later] at read
          cases read
      | ok others =>
          rw [later] at read
          exact ⟨others, rfl, .inl ⟨rfl, (Except.ok.inj read).symm⟩⟩
  | false =>
      rw [named, if_neg Bool.false_ne_true] at read
      cases first : operatorToken element with
      | error failure =>
          rw [first] at read
          cases read
      | ok token =>
          rw [first] at read
          cases later : elementTokens element rest with
          | error failure =>
              rw [later] at read
              cases read
          | ok others =>
              rw [later] at read
              exact ⟨others, rfl,
                .inr ⟨rfl, token, rfl, (Except.ok.inj read).symm⟩⟩

theorem names_operatorToken {element : Text} {token : Token}
    (read : operatorToken element = .ok token) (tokens : List Token) :
    tokenNames (token :: tokens) = tokenNames tokens := by
  unfold operatorToken at read
  split at read <;> cases read <;> rfl

theorem names_elementTokens {previous : Text} {pieces : List Text}
    (read : elementTokens previous pieces = .ok tokens) :
    tokenNames tokens = pieces.filter matchesLicense := by
  induction pieces generalizing previous tokens with
  | nil =>
      cases read
      rfl
  | cons element rest induction =>
      obtain ⟨later, others, ⟨named, rfl⟩ | ⟨other, token, first, rfl⟩⟩ :=
        elementTokens_cons_ok read
      · rw [List.filter_cons_of_pos named, ← induction others]
        split_ifs <;> rfl
      · rw [List.filter_cons_of_neg (by rw [other]; exact Bool.false_ne_true),
          ← induction others, names_operatorToken first]

theorem names_of_getElements {licensestr : Text}
    (read : getElements licensestr = .ok tokens) :
    tokenNames tokens = licenseNames licensestr :=
  names_elementTokens read

end Nvbmc.License
