import Mathlib.Data.Char
import Mathlib.Data.Finset.Basic
import Mathlib.Data.List.Sort
import Nvbmc.License.Spelling

/-!
# The choice of licenses

`FlattenVisitor` picks a side of each `|` with a function that sees the licenses
that both sides have left.  `is_included` weighs them, and
`incompatible_pkg_license` takes the first side that fits.  `fnmatchcase` and
the variable flags are arbitrary.
-/

namespace Nvbmc.License

open Library

/-- `FlattenVisitor`. -/
def flatten (choose : List Text → List Text → List Text) : Node → List Text
  | .str s => [s]
  | .binOp left .bitOr right =>
      choose (flatten choose left) (flatten choose right)
  | .binOp left .bitAnd right => flatten choose left ++ flatten choose right
  | .tuple => []
  | .callNone func => flatten choose func
  | .call func arg => flatten choose func ++ flatten choose arg
  | .listNone => []
  | .list elt => flatten choose elt
  | .subscript value slice => flatten choose value ++ flatten choose slice

/-- `flattened_licenses`, from the syntax tree on. -/
def flattenedLicenses (choose : List Text → List Text → List Text) :
    Option Node → List Text
  | none => []
  | some node => flatten choose node

/-- `list_licenses`, from the syntax tree on. -/
def listLicenses : Option Node → Finset Text
  | none => ∅
  | some node => node.names.toFinset

section Functions

variable (fnmatch : Text → Text → Bool) (spdx : Text → Option Text)

/-- `include_license` and `exclude_license`. -/
def matchesAny (patterns : List Text) (license : Text) : Bool :=
  patterns.any (fnmatch license)

/-- `alpha_weight` and `beta_weight`. -/
def weight (includeLicenses excludeLicenses licenses : List Text) : ℤ :=
  (licenses.filter (matchesAny fnmatch includeLicenses)).length -
    1000 *
      if 0 < (licenses.filter (matchesAny fnmatch excludeLicenses)).length then
        1
      else 0

/-- `choose_licenses`. -/
def chooseLicenses (includeLicenses excludeLicenses alpha beta : List Text) :
    List Text :=
  if weight fnmatch includeLicenses excludeLicenses beta ≤
      weight fnmatch includeLicenses excludeLicenses alpha then alpha
  else beta

/-- `is_included`, with an empty list for `None`. -/
def isIncluded (module : Option Node)
    (includeLicenses excludeLicenses : List Text) : Bool × List Text :=
  let includeLicenses :=
    if includeLicenses = [] then [['*']] else includeLicenses
  let licenses :=
    flattenedLicenses (chooseLicenses fnmatch includeLicenses excludeLicenses)
      module
  let excluded := licenses.filter (matchesAny fnmatch excludeLicenses)
  if excluded ≠ [] then (false, excluded)
  else (true, licenses.filter (matchesAny fnmatch includeLicenses))

/-- `license_ok`. -/
def licenseOk (license : Text) (dontWantLicenses : List Text) : Bool :=
  !dontWantLicenses.any (fnmatch license)

/-- `canonical_license`. -/
def canonicalLicense (license : Text) : Text :=
  match spdx license with
  | none => license
  | some canonical => if canonical = [] then license else canonical

/-- `choose_lic_set`. -/
def chooseLicSet (dontWantLicenses a b : List Text) : List Text :=
  if a.all fun lic => licenseOk fnmatch (canonicalLicense spdx lic)
    dontWantLicenses then a
  else b

/-- `incompatible_pkg_license`. -/
def incompatiblePkgLicense (dontWantLicenses : List Text)
    (module : Option Node) : List Text :=
  let licenses :=
    flattenedLicenses (chooseLicSet fnmatch spdx dontWantLicenses) module
  ((licenses.map (canonicalLicense spdx)).filter fun license =>
    !licenseOk fnmatch license dontWantLicenses).mergeSort

end Functions

/-- The licenses that are left when a side of each `|` is picked. -/
inductive Picks : Node → List Text → Prop where
  | str {s : Text} : Picks (.str s) [s]
  | left {first second : Node} {picked : List Text} :
      Picks first picked → Picks (.binOp first .bitOr second) picked
  | right {first second : Node} {picked : List Text} :
      Picks second picked → Picks (.binOp first .bitOr second) picked
  | both {first second : Node} {picked others : List Text} :
      Picks first picked → Picks second others →
      Picks (.binOp first .bitAnd second) (picked ++ others)
  | tuple : Picks .tuple []
  | callNone {func : Node} {picked : List Text} :
      Picks func picked → Picks (.callNone func) picked
  | call {func arg : Node} {picked others : List Text} :
      Picks func picked → Picks arg others →
        Picks (.call func arg) (picked ++ others)
  | listNone : Picks .listNone []
  | list {elt : Node} {picked : List Text} : Picks elt picked →
      Picks (.list elt) picked
  | subscript {value slice : Node} {picked others : List Text} :
      Picks value picked → Picks slice others →
      Picks (.subscript value slice) (picked ++ others)

def PicksModule : Option Node → List Text → Prop
  | none, picked => picked = []
  | some node, picked => Picks node picked

section Flatten

variable {choose : List Text → List Text → List Text}

theorem picks_flatten (side : ∀ a b, choose a b = a ∨ choose a b = b)
    (node : Node) : Picks node (flatten choose node) := by
  induction node with
  | str s => exact .str
  | binOp left op right first second =>
      cases op with
      | bitAnd => exact .both first second
      | bitOr =>
          rw [flatten]
          rcases side (flatten choose left) (flatten choose right) with same |
            same
          · rw [same]
            exact .left first
          · rw [same]
            exact .right second
  | tuple => exact .tuple
  | callNone func induction => exact .callNone induction
  | call func arg first second => exact .call first second
  | listNone => exact .listNone
  | list elt induction => exact .list induction
  | subscript value slice first second => exact .subscript first second

theorem Picks.length_le {node : Node} {picked : List Text}
    (picks : Picks node picked) : picked.length ≤ node.names.length := by
  induction picks <;> simp only [Node.names, List.length_append] at * <;> grind

theorem forall_mem_flatten {good : Text → Prop} {limit : ℕ}
    (side : ∀ a b, choose a b = a ∨ choose a b = b)
    (prefers : ∀ a b, a.length + b.length < limit →
      (∀ license ∈ a, good license) ∨ (∀ license ∈ b, good license) →
      ∀ license ∈ choose a b, good license) {node : Node} {picked : List Text}
    (picks : Picks node picked) (all : ∀ license ∈ picked, good license)
    (few : node.names.length < limit) :
    ∀ license ∈ flatten choose node, good license := by
  have short : ∀ node : Node, (flatten choose node).length ≤
      node.names.length :=
    fun node => (picks_flatten side node).length_le
  induction picks with
  | str => exact all
  | left _ induction =>
      rw [Node.names, List.length_append] at few
      apply prefers
      · exact lt_of_le_of_lt (Nat.add_le_add (short _) (short _)) few
      · exact .inl (induction all (by omega))
  | right _ induction =>
      rw [Node.names, List.length_append] at few
      apply prefers
      · exact lt_of_le_of_lt (Nat.add_le_add (short _) (short _)) few
      · exact .inr (induction all (by omega))
  | both _ _ first second | call _ _ first second
  | subscript _ _ first second =>
      rw [Node.names, List.length_append] at few
      rw [List.forall_mem_append] at all
      rw [flatten, List.forall_mem_append]
      exact ⟨first all.1 (by omega), second all.2 (by omega)⟩
  | tuple => exact all
  | callNone _ induction => exact induction all few
  | listNone => exact all
  | list _ induction => exact induction all few

theorem forall_mem_flattenedLicenses {good : Text → Prop} {limit : ℕ}
    (side : ∀ a b, choose a b = a ∨ choose a b = b)
    (prefers : ∀ a b, a.length + b.length < limit →
      (∀ license ∈ a, good license) ∨ (∀ license ∈ b, good license) →
      ∀ license ∈ choose a b, good license) {module : Option Node}
    (few : ∀ node ∈ module, node.names.length < limit) :
    (∀ license ∈ flattenedLicenses choose module, good license) ↔
      ∃ picked, PicksModule module picked ∧ ∀ license ∈ picked,
        good license := by
  cases module with
  | none => exact ⟨fun all => ⟨[], rfl, all⟩, fun _ _ member => by cases member⟩
  | some node =>
      constructor
      · exact fun all => ⟨_, picks_flatten side node, all⟩
      · rintro ⟨picked, picks, all⟩
        exact forall_mem_flatten side prefers picks all (few node rfl)

end Flatten

section Choose

variable {fnmatch : Text → Text → Bool} {spdx : Text → Option Text}
variable {includeLicenses excludeLicenses dontWantLicenses : List Text}
  {licenses : List Text}

theorem filter_matchesAny_eq_nil :
    licenses.filter (matchesAny fnmatch excludeLicenses) = [] ↔
      ∀ license ∈ licenses, matchesAny fnmatch excludeLicenses license =
        false := by
  simp [List.filter_eq_nil_iff]

variable (includeLicenses) in
theorem weight_good
    (good : ∀ license ∈ licenses, matchesAny fnmatch excludeLicenses license =
      false) :
    0 ≤ weight fnmatch includeLicenses excludeLicenses licenses := by
  rw [weight, filter_matchesAny_eq_nil.mpr good]
  simp

variable (includeLicenses) in
theorem weight_bad (few : licenses.length < 1000)
    (bad : ¬ ∀ license ∈ licenses, matchesAny fnmatch excludeLicenses license =
      false) :
    weight fnmatch includeLicenses excludeLicenses licenses < 0 := by
  have some : 0 <
      (licenses.filter (matchesAny fnmatch excludeLicenses)).length :=
    List.length_pos_iff.mpr fun none => bad (filter_matchesAny_eq_nil.mp none)
  have length := licenses.length_filter_le (matchesAny fnmatch includeLicenses)
  rw [weight, if_pos some]
  omega

variable (fnmatch includeLicenses excludeLicenses) in
theorem chooseLicenses_side (alpha beta : List Text) :
    chooseLicenses fnmatch includeLicenses excludeLicenses alpha beta = alpha ∨
      chooseLicenses fnmatch includeLicenses excludeLicenses alpha beta =
        beta :=
  ite_eq_or_eq _ _ _

variable (fnmatch includeLicenses excludeLicenses) in
theorem chooseLicenses_prefers (alpha beta : List Text)
    (few : alpha.length + beta.length < 1000)
    (good : (∀ license ∈ alpha,
        matchesAny fnmatch excludeLicenses license = false) ∨
      ∀ license ∈ beta, matchesAny fnmatch excludeLicenses license = false) :
    ∀ license ∈
        chooseLicenses fnmatch includeLicenses excludeLicenses alpha beta,
      matchesAny fnmatch excludeLicenses license = false := by
  rw [chooseLicenses]
  split_ifs with first
  · by_contra bad
    have beta := weight_good includeLicenses (good.resolve_left bad)
    have alpha := weight_bad includeLicenses (by omega) bad
    omega
  · by_contra bad
    have alpha := weight_good includeLicenses (good.resolve_right bad)
    have beta := weight_bad includeLicenses (by omega) bad
    omega

theorem chooseLicSet_side (a b : List Text) :
    chooseLicSet fnmatch spdx dontWantLicenses a b = a ∨
      chooseLicSet fnmatch spdx dontWantLicenses a b = b :=
  ite_eq_or_eq _ _ _

theorem chooseLicSet_prefers (a b : List Text)
    (good : (∀ lic ∈ a, licenseOk fnmatch (canonicalLicense spdx lic)
      dontWantLicenses = true) ∨
      ∀ lic ∈ b, licenseOk fnmatch (canonicalLicense spdx lic)
        dontWantLicenses = true) :
    ∀ lic ∈ chooseLicSet fnmatch spdx dontWantLicenses a b,
      licenseOk fnmatch (canonicalLicense spdx lic) dontWantLicenses =
        true := by
  rw [chooseLicSet]
  split_ifs with first
  · exact List.all_eq_true.mp first
  · exact good.resolve_left fun all => first (List.all_eq_true.mpr all)

theorem incompatiblePkgLicense_eq_nil {module : Option Node} :
    incompatiblePkgLicense fnmatch spdx dontWantLicenses module = [] ↔
      ∀ lic ∈ flattenedLicenses
          (chooseLicSet fnmatch spdx dontWantLicenses) module,
        licenseOk fnmatch (canonicalLicense spdx lic) dontWantLicenses =
          true := by
  rw [incompatiblePkgLicense, ← List.length_eq_zero_iff, List.length_mergeSort,
    List.length_eq_zero_iff, List.filter_eq_nil_iff, List.forall_mem_map]
  simp

end Choose

/-- A text is given licenses from a pick that fits, whenever there is one. -/
structure RightChoice (fnmatch : Text → Text → Bool) (spdx : Text → Option Text)
    (excludeLicenses dontWantLicenses : List Text) (licensestr : Text)
    (module : Option Node) : Prop where
  included : (isIncluded fnmatch module [] excludeLicenses).1 = true ↔
    ∃ picked, PicksModule module picked ∧
      ∀ license ∈ picked, matchesAny fnmatch excludeLicenses license = false
  reported : (isIncluded fnmatch module [] excludeLicenses).1 = true →
    PicksModule module (isIncluded fnmatch module [] excludeLicenses).2 ∧
      ∀ license ∈ (isIncluded fnmatch module [] excludeLicenses).2,
        matchesAny fnmatch excludeLicenses license = false
  compatible : incompatiblePkgLicense fnmatch spdx dontWantLicenses module =
    [] ↔ ∃ picked, PicksModule module picked ∧ ∀ license ∈ picked,
      licenseOk fnmatch (canonicalLicense spdx license) dontWantLicenses = true
  listed : ∀ name, name ∈ listLicenses module ↔ name ∈ licenseNames licensestr

theorem names_of_accepts {brackets : Brackets} {licensestr : Text} {node : Node}
    (accepts : Accepts brackets licensestr (some node)) :
    node.names = licenseNames licensestr := by
  obtain ⟨tokens, read, parsed⟩ := accepts
  cases parsed with
  | expr parses => rw [parses.names, names_of_getElements read]

theorem names_of_accepts_none {brackets : Brackets} {licensestr : Text}
    (accepts : Accepts brackets licensestr none) :
    licenseNames licensestr = [] := by
  obtain ⟨tokens, read, parsed⟩ := accepts
  cases parsed
  exact (names_of_getElements read).symm

section Right

variable {fnmatch : Text → Text → Bool} {spdx : Text → Option Text}

theorem isIncluded_eq (excludeLicenses : List Text) (module : Option Node) :
    let licenses :=
      flattenedLicenses (chooseLicenses fnmatch [['*']] excludeLicenses) module
    ((isIncluded fnmatch module [] excludeLicenses).1 = true ↔
      ∀ license ∈ licenses, matchesAny fnmatch excludeLicenses license =
        false) ∧
    ((isIncluded fnmatch module [] excludeLicenses).1 = true →
      (isIncluded fnmatch module [] excludeLicenses).2 =
        licenses.filter (matchesAny fnmatch [['*']])) := by
  intro licenses
  rw [← filter_matchesAny_eq_nil]
  simp only [isIncluded, if_true]
  split_ifs with excluded
  · exact ⟨iff_of_false not_false excluded, fun absurd => by cases absurd⟩
  · exact ⟨iff_of_true rfl (not_not.mp excluded), fun _ => rfl⟩

/-- The choice is right for fewer than a thousand names. -/
theorem rightChoice_of_accepts
    (everything : ∀ license, fnmatch license ['*'] = true)
    (excludeLicenses dontWantLicenses : List Text) {licensestr : Text}
    {module : Option Node} (accepts : Accepts .round licensestr module)
    (few : (licenseNames licensestr).length < 1000) :
    RightChoice fnmatch spdx excludeLicenses dontWantLicenses licensestr
      module := by
  have fewNames : ∀ node ∈ module, node.names.length < 1000 := by
    rintro node rfl
    rwa [names_of_accepts accepts]
  have fits := forall_mem_flattenedLicenses
    (chooseLicenses_side fnmatch [['*']] excludeLicenses)
    (chooseLicenses_prefers fnmatch [['*']] excludeLicenses) fewNames
  obtain ⟨included, reported⟩ := isIncluded_eq excludeLicenses module
  constructor
  · exact included.trans fits
  · intro accepted
    have all := included.mp accepted
    have whole : matchesAny fnmatch [['*']] = fun _ => true := by
      funext license
      simp [matchesAny, everything]
    rw [reported accepted, whole, List.filter_true]
    refine ⟨?_, all⟩
    cases module with
    | none => rfl
    | some node =>
        exact picks_flatten
          (chooseLicenses_side fnmatch [['*']] excludeLicenses) node
  · rw [incompatiblePkgLicense_eq_nil]
    exact forall_mem_flattenedLicenses chooseLicSet_side
      (fun a b _ good => chooseLicSet_prefers a b good) fewNames
  · intro name
    cases module with
    | none => simp [listLicenses, names_of_accepts_none accepts]
    | some node =>
        rw [listLicenses, List.mem_toFinset, names_of_accepts accepts]

end Right

/-- A pattern without `?` and brackets, and with `*` only alone. -/
def plainMatch (license pattern : Text) : Bool :=
  pattern = ['*'] ∨ license = pattern

theorem rightChoice_two :
    RightChoice plainMatch (fun _ => none) [['A']] [['A']] ['A', '|', 'B']
      (some (.binOp (.str ['A']) .bitOr (.str ['B']))) := by
  have first : Parses .round .bitwiseOr [.name ['A']] (.str ['A']) :=
    .conjunction (.operand (.str (by decide)))
  have second : Parses .round .bitwiseAnd [.name ['B']] (.str ['B']) :=
    .operand (.str (by decide))
  exact rightChoice_of_accepts (fun _ => rfl) _ _
    ⟨_, rfl, .expr (first.or second)⟩ (by decide)

/-- The same license in nested brackets. -/
def nestedTokens : ℕ → List Token
  | 0 => [.name ['B']]
  | depth + 1 =>
      .opening :: (nestedTokens depth ++ .and :: nestedTokens depth) ++
        [.closing]

def nestedNode : ℕ → Node
  | 0 => .str ['B']
  | depth + 1 => .binOp (nestedNode depth) .bitAnd (nestedNode depth)

theorem parses_nested (depth : ℕ) :
    Parses .round .primary (nestedTokens depth) (nestedNode depth) := by
  induction depth with
  | zero => exact .str (by decide)
  | succ depth induction =>
      exact .group rfl (.conjunction (.and (.operand induction) induction))

/-- How often the license stands in the brackets. -/
def nestedCount : ℕ → ℕ
  | 0 => 1
  | depth + 1 => nestedCount depth + nestedCount depth

theorem names_nestedNode (depth : ℕ) :
    (nestedNode depth).names = List.replicate (nestedCount depth) ['B'] := by
  induction depth with
  | zero => rfl
  | succ depth induction =>
      rw [nestedNode, Node.names, induction, List.replicate_append_replicate,
        nestedCount]

theorem flatten_nestedNode (choose : List Text → List Text → List Text)
    (depth : ℕ) :
    flatten choose (nestedNode depth) = (nestedNode depth).names := by
  induction depth with
  | zero => rfl
  | succ depth induction => rw [nestedNode, flatten, induction, Node.names]

/-- One license that fits, or many that do not. -/
def crowdedTokens : List Token :=
  .name ['A'] :: .or :: nestedTokens 11

def crowdedNode : Node :=
  .binOp (.str ['A']) .bitOr (nestedNode 11)

theorem parses_crowded : Parses .round .bitwiseOr crowdedTokens crowdedNode :=
  have single : Parses .round .bitwiseOr [.name ['A']] (.str ['A']) :=
    .conjunction (.operand (.str (by decide)))
  single.or (.operand (parses_nested 11))

theorem accepts_crowded : Accepts .round (spell crowdedTokens)
    (some crowdedNode) := by
  refine ⟨crowdedTokens, getElements_spell ?_ parses_crowded.apart,
    .expr parses_crowded⟩
  intro name member
  rw [← parses_crowded.names, crowdedNode, Node.names, Node.names,
    names_nestedNode,
    List.singleton_append, List.mem_cons, List.mem_replicate] at member
  obtain rfl | ⟨_, rfl⟩ := member
  · exact ⟨List.cons_ne_nil _ _, List.all_eq_true.mp rfl⟩
  · exact ⟨List.cons_ne_nil _ _, List.all_eq_true.mp rfl⟩

theorem weight_replicate {count : ℕ} (positive : 0 < count) :
    weight plainMatch [['*']] [['B']] (List.replicate count ['B']) =
      count - 1000 := by
  simp [weight, matchesAny, plainMatch, positive]

theorem flatten_crowded :
    flatten (chooseLicenses plainMatch [['*']] [['B']]) crowdedNode =
      List.replicate (nestedCount 11) ['B'] := by
  have many := weight_replicate (show 0 < nestedCount 11 by decide)
  have few : weight plainMatch [['*']] [['B']] [['A']] = 1 := by
    decide
  rw [crowdedNode, flatten, flatten_nestedNode, names_nestedNode, flatten,
    chooseLicenses, many, few]
  exact if_neg (by decide)

/-- More than a thousand licenses that are excluded outweigh one that is not. -/
theorem not_rightChoice_crowded :
    ¬ ∀ (fnmatch : Text → Text → Bool) (spdx : Text → Option Text)
      (excludeLicenses dontWantLicenses : List Text) (licensestr : Text)
      (module : Option Node),
      (∀ license, fnmatch license ['*'] = true) →
        excludeLicenses.length < 1000 →
      Accepts .round licensestr module →
      RightChoice fnmatch spdx excludeLicenses dontWantLicenses licensestr
        module := by
  intro right
  have choice :=
    right plainMatch (fun _ => none) [['B']] [] _ _ (fun _ => rfl) (by decide)
    accepts_crowded
  have clean : ∃ picked, PicksModule (some crowdedNode) picked ∧
      ∀ license ∈ picked, matchesAny plainMatch [['B']] license = false :=
    ⟨[['A']], .left .str, by decide⟩
  have all := (isIncluded_eq _ _).1.mp (choice.included.mpr clean)
  rw [flattenedLicenses, flatten_crowded] at all
  have bad := all ['B'] (List.mem_replicate.mpr ⟨by decide, rfl⟩)
  revert bad
  decide

end Nvbmc.License
