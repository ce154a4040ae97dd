import Mathlib.Data.List.Infix
import Nvbmc.Library.Text

/-!
# Substituting one of several texts

`re.sub` with a pattern that is one text or another: from left to right, the
first of the texts that matches is taken.  If longer texts come first, it is the
longest one.
-/

namespace Nvbmc.Library

/-- A match, or a character that is left as it is. -/
inductive Token where
  | found (name : Text)
  | char (char : Char)
  deriving DecidableEq

/-- The matches and characters of a text, of which so many characters belong to
a match.  An empty match is followed by a character. -/
def scanFrom (names : List Text) : ℕ → Text → List Token
  | 0, [] => if [] ∈ names then [.found []] else []
  | _ + 1, [] => []
  | skip + 1, _ :: rest => scanFrom names skip rest
  | 0, char :: rest =>
      match names.find? (·.isPrefixOf (char :: rest)) with
      | none => .char char :: scanFrom names 0 rest
      | some [] => .found [] :: .char char :: scanFrom names 0 rest
      | some name => .found name :: scanFrom names (name.length - 1) rest

def scan (names : List Text) (text : Text) : List Token :=
  scanFrom names 0 text

def Token.render (replace : Text → Text) : Token → Text
  | .found name => replace name
  | .char single => [single]

/-- `re.sub("|".join(re.escape(name) for name in names), replace, text)`. -/
def substitute (names : List Text) (replace : Text → Text) (text : Text) :
    Text :=
  (scan names text).flatMap (Token.render replace)

/-- A text cut into the longest matches, from left to right. -/
inductive Tokens (names : List Text) : Text → List Token → Prop
  | done (absent : [] ∉ names) : Tokens names [] []
  | last (isName : [] ∈ names) : Tokens names [] [.found []]
  | name {name rest : Text} {tokens : List Token} (isName : name ∈ names)
      (nonempty : name ≠ [])
      (longest : ∀ other ∈ names, other <+: name ++ rest →
        other.length ≤ name.length)
      (later : Tokens names rest tokens) : Tokens names (name ++ rest)
      (.found name :: tokens)
  | between {char : Char} {rest : Text} {tokens : List Token}
      (isName : [] ∈ names)
      (alone : ∀ other ∈ names, other <+: char :: rest → other = [])
      (later : Tokens names rest tokens) :
      Tokens names (char :: rest) (.found [] :: .char char :: tokens)
  | char {char : Char} {rest : Text} {tokens : List Token}
      (absent : ∀ other ∈ names, ¬ other <+: char :: rest)
      (later : Tokens names rest tokens) : Tokens names (char :: rest)
      (.char char :: tokens)

variable {names : List Text} {text : Text} {tokens others : List Token}

theorem scanFrom_skip (skipped rest : Text) :
    scanFrom names skipped.length (skipped ++ rest) =
      scanFrom names 0 rest := by
  induction skipped with
  | nil => rfl
  | cons char skipped induction => exact induction

theorem find?_longest
    (sorted : names.Pairwise fun first second => second.length ≤ first.length)
    {name : Text} (found : names.find? (·.isPrefixOf text) = some name) :
    name ∈ names ∧
      name <+: text ∧ ∀ other ∈ names, other <+: text →
        other.length ≤ name.length := by
  obtain ⟨isPrefix, before, after, split, notBefore⟩ :=
    List.find?_eq_some_iff_append.mp found
  refine ⟨by simp [split], List.isPrefixOf_iff_prefix.mp isPrefix, ?_⟩
  intro other member isOther
  rw [split] at member sorted
  rcases List.mem_append.mp member with earlier | later
  · have notOther := notBefore other earlier
    rw [Bool.not_eq_true', ← Bool.not_eq_true, List.isPrefixOf_iff_prefix]
      at notOther
    exact absurd isOther notOther
  · rcases List.mem_cons.mp later with rfl | behind
    · exact le_rfl
    · exact (List.pairwise_cons.mp (List.pairwise_append.mp sorted).2.1).1 other
        behind

theorem tokens_scan (sorted : names.Pairwise fun first second => second.length ≤
    first.length) (text : Text) : Tokens names text (scan names text) := by
  rw [scan]
  induction long : text.length using Nat.strongRecOn generalizing text with
  | ind length induction =>
      cases text with
      | nil =>
          rw [scanFrom]
          split_ifs with isName
          · exact .last isName
          · exact .done isName
      | cons char rest =>
          rw [List.length_cons] at long
          have behind := induction rest.length (by omega) rest rfl
          rw [scanFrom]
          split
          · rename_i missing
            apply Tokens.char _ behind
            intro other member isOther
            have notFound := List.find?_eq_none.mp missing other member
            exact notFound (List.isPrefixOf_iff_prefix.mpr isOther)
          · rename_i found
            obtain ⟨isName, _, longest⟩ := find?_longest sorted found
            apply Tokens.between isName _ behind
            intro other member isOther
            exact List.length_eq_zero_iff.mp
              (Nat.le_zero.mp (longest other member isOther))
          · rename_i name notEmpty found
            obtain ⟨isName, ⟨after, split⟩, longest⟩ :=
              find?_longest sorted found
            cases name with
            | nil => exact absurd rfl notEmpty
            | cons head tail =>
                rw [List.cons_append] at split
                obtain ⟨rfl, rfl⟩ := List.cons.inj split
                have shorter : after.length < length := by
                  rw [List.length_append] at long
                  omega
                rw [List.length_cons, Nat.add_sub_cancel]
                change Tokens names ((head :: tail) ++ after) _
                rw [scanFrom_skip]
                exact .name isName (List.cons_ne_nil _ _) longest
                  (induction _ shorter after rfl)

theorem Tokens.congr {names' : List Text}
    (same : ∀ name, name ∈ names ↔ name ∈ names')
    (cuts : Tokens names text tokens) : Tokens names' text tokens := by
  induction cuts with
  | done absent => exact .done fun member => absent ((same _).mpr member)
  | last isName => exact .last ((same _).mp isName)
  | name isName nonempty longest later induction =>
      exact .name ((same _).mp isName) nonempty
        (fun other member => longest other ((same other).mpr member)) induction
  | between isName alone later induction =>
      exact .between ((same _).mp isName)
        (fun other member => alone other ((same other).mpr member)) induction
  | char absent later induction =>
      exact .char (fun other member => absent other ((same other).mpr member))
        induction

theorem Tokens.nil_inv (cuts : Tokens names [] tokens) :
    tokens = if [] ∈ names then [.found []] else [] := by
  generalize same : ([] : Text) = text at cuts
  cases cuts with
  | done absent => rw [if_neg absent]
  | last isName => rw [if_pos isName]
  | name isName nonempty longest later =>
      exact absurd (List.append_eq_nil_iff.mp same.symm).1 nonempty
  | between isName alone later => cases same
  | char absent later => cases same

/-- How a text that is not empty begins. -/
inductive TokensStart (names : List Text) (char : Char) (rest : Text)
    (tokens : List Token) : Prop
  | name {name after : Text} {later : List Token} (isName : name ∈ names)
    (nonempty : name ≠ []) (split : name ++ after = char :: rest)
      (longest : ∀ other ∈ names, other <+: char :: rest →
        other.length ≤ name.length)
      (isTokens : tokens = .found name :: later)
      (cuts : Tokens names after later)
  | between {later : List Token} (isName : [] ∈ names)
      (alone : ∀ other ∈ names, other <+: char :: rest → other = [])
      (isTokens : tokens = .found [] :: .char char :: later)
      (cuts : Tokens names rest later)
  | char {later : List Token} (absent : ∀ other ∈ names, ¬ other <+: char ::
      rest)
      (isTokens : tokens = .char char :: later) (cuts : Tokens names rest later)

theorem Tokens.cons_inv {char : Char} {rest : Text}
    (cuts : Tokens names (char :: rest) tokens) :
    TokensStart names char rest tokens := by
  generalize same : char :: rest = text at cuts
  cases cuts with
  | done absent => cases same
  | last isName => cases same
  | name isName nonempty longest later =>
      exact .name isName nonempty same.symm (same ▸ longest) rfl later
  | between isName alone later =>
      cases same
      exact .between isName alone rfl later
  | char absent later =>
      cases same
      exact .char absent rfl later

theorem Tokens.unique (first : Tokens names text tokens)
    (second : Tokens names text others) : tokens = others := by
  induction long : text.length using Nat.strongRecOn generalizing text tokens
    others with
  | ind length induction =>
      cases text with
      | nil => rw [first.nil_inv, second.nil_inv]
      | cons char rest =>
          rw [List.length_cons] at long
          cases first.cons_inv with
          | name isName nonempty split longest isTokens cuts =>
              rename_i name after later
              have isPart : name <+: char :: rest := ⟨after, split⟩
              cases second.cons_inv with
              | name isName' nonempty' split' longest' isTokens' cuts' =>
                  rename_i name' after' later'
                  have sameLength : name.length = name'.length :=
                    le_antisymm (longest' name isName isPart)
                      (longest name' isName' ⟨after', split'⟩)
                  obtain ⟨rfl, rfl⟩ :=
                    List.append_inj (split.trans split'.symm) sameLength
                  have shorter : after.length < length := by
                    have positive := List.length_pos_iff.mpr nonempty
                    have total := congrArg List.length split
                    rw [List.length_append, List.length_cons] at total
                    omega
                  rw [isTokens, isTokens', induction _ shorter cuts cuts' rfl]
              | between _ alone _ _ =>
                  exact absurd (alone name isName isPart) nonempty
              | char absent _ _ => exact absurd isPart (absent name isName)
          | between isName alone isTokens cuts =>
              cases second.cons_inv with
              | name isName' nonempty' split' longest' isTokens' cuts' =>
                  exact absurd (alone _ isName' ⟨_, split'⟩) nonempty'
              | between _ _ isTokens' cuts' =>
                  rw [isTokens, isTokens', induction _ (by omega) cuts cuts'
                    rfl]
              | char absent _ _ =>
                  exact absurd (List.nil_prefix) (absent [] isName)
          | char absent isTokens cuts =>
              cases second.cons_inv with
              | name isName' nonempty' split' longest' isTokens' cuts' =>
                  exact absurd ⟨_, split'⟩ (absent _ isName')
              | between isName' _ _ _ =>
                  exact absurd (List.nil_prefix) (absent [] isName')
              | char _ isTokens' cuts' =>
                  rw [isTokens, isTokens', induction _ (by omega) cuts cuts'
                    rfl]

end Nvbmc.Library
