import Mathlib.Data.Finset.Max
import Nvbmc.Library.Numerals
import Nvbmc.PRServ.Revision

/-!
# Revision texts

The comparisons of revisions as the code computes them on texts.  Each field is
read as an integer, so fields may be written in several ways.  Where one
revision begins with the fields of another, each is taken to be at least the
other.
-/

namespace Nvbmc.PRServ.OnTexts

open Nvbmc.Library
open Nvbmc.PRServ.Revision

/-- The loop of `_revision_greater_or_equal`; a field that is no integer raises.
-/
def greaterOrEqualFields : List Text → List Text → Option Bool
  | [], _ => some true
  | first :: firsts, seconds => do
      let val1 ← int? first
      match seconds with
      | [] => some true
      | second :: seconds => do
          let val2 ← int? second
          if val2 < val1 then some true
          else if val1 < val2 then some false
          else greaterOrEqualFields firsts seconds

/-- `_revision_greater_or_equal`. -/
def revisionGreaterOrEqual (rev1 rev2 : Text) : Option Bool :=
  greaterOrEqualFields (splitDots rev1) (splitDots rev2)

/-- `revision_smaller`. -/
def revisionSmaller (rev1 rev2 : Text) : Option Bool :=
  (revisionGreaterOrEqual rev1 rev2).map (!·)

/-- `revision_greater`. -/
def revisionGreater (rev1 rev2 : Text) : Option Bool :=
  (revisionGreaterOrEqual rev1 rev2).map (· && rev1 ≠ rev2)

/-- `increase_revision`. -/
def increaseRevision (ver : Text) : Option Text := do
  let fields := splitDots ver
  let last ← fields.getLast?
  let val ← int? last
  pure (['.'].intercalate (fields.dropLast ++ [decimal (val + 1)]))

/-- One round of `_extremum_value`. -/
def keepExtremum (isMax : Bool) (value : Option Text) (current : Text) :
    Option (Option Text) :=
  match value with
  | none => some (some current)
  | some value => do
      let isNewExtremum ←
        if isMax then revisionGreater current value
        else revisionSmaller current value
      pure (some (if isNewExtremum then current else value))

/-- `_extremum_value`. -/
def extremumValue (isMax : Bool) (rows : List Text) : Option (Option Text) :=
  rows.foldlM (keepExtremum isMax) none

def Dotted (revision : Text) : Prop :=
  ∀ field ∈ splitDots revision, (int? field).isSome

def numbers (revision : Text) : List ℤ :=
  (splitDots revision).map fun field => (int? field).getD 0

theorem le_of_beginning {first second : List ℤ} (beginning : first <+: second) :
    first ≤ second := by
  apply not_lt.mp
  intro less
  exact List.not_lt.mpr beginning.le less

theorem greaterOrEqualFields_eq {first second : List Text}
    (firstNumbers : ∀ field ∈ first, (int? field).isSome)
    (secondNumbers : ∀ field ∈ second, (int? field).isSome) :
    ∃ result, greaterOrEqualFields first second = some result ∧
      (result = false ↔
        first.map (fun field => (int? field).getD 0) <
            second.map (fun field => (int? field).getD 0) ∧
          ¬ first.map (fun field => (int? field).getD 0) <+:
            second.map (fun field => (int? field).getD 0)) := by
  induction first generalizing second with
  | nil => exact ⟨true, rfl, by simp⟩
  | cons head firsts induction =>
      obtain ⟨val1, isFirst⟩ := Option.isSome_iff_exists.mp
        (firstNumbers head List.mem_cons_self)
      cases second with
      | nil => exact ⟨true, by simp [greaterOrEqualFields, isFirst], by simp⟩
      | cons other seconds =>
          obtain ⟨val2, isSecond⟩ := Option.isSome_iff_exists.mp
            (secondNumbers other List.mem_cons_self)
          obtain ⟨rest, ran, decides⟩ := @induction seconds
            (fun field member =>
              firstNumbers field (List.mem_cons_of_mem _ member))
            (fun field member =>
              secondNumbers field (List.mem_cons_of_mem _ member))
          simp only [greaterOrEqualFields, isFirst, isSecond,
            Option.bind_eq_bind,
            Option.bind_some, List.map_cons, Option.getD_some,
            List.cons_lt_cons_iff,
            List.cons_prefix_cons]
          by_cases above : val2 < val1
          · exact ⟨true, if_pos above, by simp; omega⟩
          · by_cases below : val1 < val2
            · refine ⟨false, by rw [if_neg above, if_pos below], ?_⟩
              simp
              omega
            · have same : val1 = val2 := by omega
              refine ⟨rest, by rw [if_neg above, if_neg below, ran], ?_⟩
              rw [decides]
              simp [same]

section Compare

variable {rev1 rev2 : Text} (dotted1 : Dotted rev1) (dotted2 : Dotted rev2)

include dotted1 dotted2

/-- Dotted revisions are compared, and the comparison fails for a smaller one
that the other does not begin with. -/
theorem revisionGreaterOrEqual_eq :
    ∃ result, revisionGreaterOrEqual rev1 rev2 = some result ∧
      (result = false ↔ numbers rev1 < numbers rev2 ∧
        ¬ numbers rev1 <+: numbers rev2) :=
  greaterOrEqualFields_eq dotted1 dotted2

theorem revisionSmaller_iff : revisionSmaller rev1 rev2 = some true ↔
    numbers rev1 < numbers rev2 ∧ ¬ numbers rev1 <+: numbers rev2 := by
  obtain ⟨result, compared, decides⟩ :=
    revisionGreaterOrEqual_eq dotted1 dotted2
  rw [revisionSmaller, compared, ← decides]
  simp

theorem revisionGreater_iff : revisionGreater rev1 rev2 = some true ↔
    (numbers rev1 < numbers rev2 → numbers rev1 <+: numbers rev2) ∧
      rev1 ≠ rev2 := by
  obtain ⟨result, compared, decides⟩ :=
    revisionGreaterOrEqual_eq dotted1 dotted2
  rw [revisionGreater, compared]
  cases result with
  | true => simpa using fun _ => decides
  | false =>
      have smaller := decides.mp rfl
      simp [smaller]

theorem revisionGreater_isSome : (revisionGreater rev1 rev2).isSome := by
  obtain ⟨result, compared, _⟩ := revisionGreaterOrEqual_eq dotted1 dotted2
  simp [revisionGreater, compared]

theorem revisionSmaller_isSome : (revisionSmaller rev1 rev2).isSome := by
  obtain ⟨result, compared, _⟩ := revisionGreaterOrEqual_eq dotted1 dotted2
  simp [revisionSmaller, compared]

end Compare

/-- A strict total order on revisions up to their numbers. -/
structure StrictTotal (revisions : Set Text) (below : Text → Text → Prop) :
    Prop where
  irreflexive : ∀ x ∈ revisions, ∀ y ∈ revisions, numbers x = numbers y →
    ¬ below x y
  asymmetric : ∀ x ∈ revisions, ∀ y ∈ revisions, below x y → ¬ below y x
  transitive : ∀ x ∈ revisions, ∀ y ∈ revisions, ∀ z ∈ revisions,
    below x y → below y z → below x z
  total : ∀ x ∈ revisions, ∀ y ∈ revisions, numbers x ≠ numbers y → below x y ∨
    below y x

/-- The comparisons are strict total orders, and each is the converse of the
other. -/
structure OrderLaws (revisions : Set Text) : Prop where
  greater : StrictTotal revisions fun x y => revisionGreater x y = some true
  smaller : StrictTotal revisions fun x y => revisionSmaller x y = some true
  converse : ∀ x ∈ revisions, ∀ y ∈ revisions,
    revisionGreater x y = some true ↔ revisionSmaller y x = some true

def NoBeginning (revisions : Set Text) : Prop :=
  ∀ x ∈ revisions, ∀ y ∈ revisions, x ≠ y → ¬ numbers x <+: numbers y

variable {revisions : Set Text} {below : Text → Text → Prop}

theorem StrictTotal.of_lt
    (isLt : ∀ x ∈ revisions, ∀ y ∈ revisions, below x y ↔
      numbers x < numbers y) :
    StrictTotal revisions below := by
  constructor
  · intro x memberX y memberY same holds
    exact ((isLt x memberX y memberY).mp holds).ne same
  · intro x memberX y memberY forth back
    exact ((isLt x memberX y memberY).mp forth).asymm
      ((isLt y memberY x memberX).mp back)
  · intro x memberX y memberY z memberZ first second
    apply (isLt x memberX z memberZ).mpr
    exact ((isLt x memberX y memberY).mp first).trans
      ((isLt y memberY z memberZ).mp second)
  · intro x memberX y memberY different
    rcases lt_or_gt_of_ne different with less | greater
    · exact .inl ((isLt x memberX y memberY).mpr less)
    · exact .inr ((isLt y memberY x memberX).mpr greater)

theorem StrictTotal.of_gt
    (isGt : ∀ x ∈ revisions, ∀ y ∈ revisions, below x y ↔
      numbers y < numbers x) :
    StrictTotal revisions below := by
  have flipped :=
    @StrictTotal.of_lt revisions (fun x y => below y x)
      fun x memberX y memberY =>
    isGt y memberY x memberX
  constructor
  · intro x memberX y memberY same
    exact flipped.irreflexive y memberY x memberX same.symm
  · intro x memberX y memberY holds
    exact flipped.asymmetric y memberY x memberX holds
  · intro x memberX y memberY z memberZ first second
    exact flipped.transitive z memberZ y memberY x memberX second first
  · intro x memberX y memberY different
    exact (flipped.total x memberX y memberY different).symm

theorem orderLaws_iff (dotted : ∀ x ∈ revisions, Dotted x) :
    OrderLaws revisions ↔ NoBeginning revisions := by
  constructor
  · intro laws x memberX y memberY different beginning
    have forth : revisionGreater x y = some true :=
      (revisionGreater_iff (dotted x memberX) (dotted y memberY)).mpr
        ⟨fun _ => beginning, different⟩
    have back : revisionGreater y x = some true := by
      apply (revisionGreater_iff (dotted y memberY) (dotted x memberX)).mpr
      exact ⟨fun less => absurd less (not_lt.mpr (le_of_beginning beginning)),
        different.symm⟩
    exact laws.greater.asymmetric x memberX y memberY forth back
  · intro distinct
    have greater : ∀ x ∈ revisions, ∀ y ∈ revisions,
        revisionGreater x y = some true ↔ numbers y < numbers x := by
      intro x memberX y memberY
      rw [revisionGreater_iff (dotted x memberX) (dotted y memberY)]
      constructor
      · rintro ⟨notSmaller, different⟩
        have apart := distinct x memberX y memberY different
        have notLess := fun less => apart (notSmaller less)
        have notSame : numbers x ≠ numbers y :=
          fun same => apart (same ▸ List.prefix_refl _)
        exact lt_of_le_of_ne (not_lt.mp notLess) notSame.symm
      · intro above
        refine ⟨fun less => absurd less above.asymm, ?_⟩
        rintro rfl
        exact lt_irrefl _ above
    have smaller : ∀ x ∈ revisions, ∀ y ∈ revisions,
        revisionSmaller x y = some true ↔ numbers x < numbers y := by
      intro x memberX y memberY
      rw [revisionSmaller_iff (dotted x memberX) (dotted y memberY)]
      refine ⟨And.left, fun less => ⟨less, distinct x memberX y memberY ?_⟩⟩
      rintro rfl
      exact lt_irrefl _ less
    refine ⟨.of_gt greater, .of_lt smaller, ?_⟩
    intro x memberX y memberY
    rw [greater x memberX y memberY, smaller y memberY x memberX]

section Extremum

variable {rows : List Text}

/-- Whether a row takes the place of the value so far. -/
def Replaces (isMax : Bool) (current value : Text) : Prop :=
  if isMax then revisionGreater current value = some true
  else revisionSmaller current value = some true

variable (isMax : Bool)

theorem keepExtremum_eq {current value : Text} (dotted : Dotted current)
    (dottedValue : Dotted value) :
    (Replaces isMax current value ∧ keepExtremum isMax (some value) current =
      some (some current)) ∨
    (¬ Replaces isMax current value ∧ keepExtremum isMax (some value) current =
      some (some value)) := by
  rw [Replaces, keepExtremum]
  cases isMax with
  | true =>
      obtain ⟨better, compared⟩ := Option.isSome_iff_exists.mp
        (revisionGreater_isSome dotted dottedValue)
      cases better <;> simp [compared]
  | false =>
      obtain ⟨better, compared⟩ := Option.isSome_iff_exists.mp
        (revisionSmaller_isSome dotted dottedValue)
      cases better <;> simp [compared]

theorem foldlM_keepExtremum_of_holds {property : Text → Prop}
    (dotted : ∀ row ∈ rows, Dotted row)
    (stays : ∀ value ∈ rows, ∀ current ∈ rows, property value →
      Replaces isMax current value → property current) {value : Text} (member :
        value ∈ rows)
    {rest : List Text} (later : rest ⊆ rows) (holds : property value) :
    ∃ best ∈ rows, property best ∧
      rest.foldlM (keepExtremum isMax) (some value) = some (some best) := by
  induction rest generalizing value with
  | nil => exact ⟨value, member, holds, rfl⟩
  | cons current rest induction =>
      obtain ⟨currentMember, restMembers⟩ := List.cons_subset.mp later
      rw [List.foldlM_cons]
      rcases keepExtremum_eq isMax (dotted current currentMember)
        (dotted value member) with
        ⟨replaced, step⟩ | ⟨_, step⟩
      · rw [step]
        apply induction currentMember restMembers
        exact stays value member current currentMember holds replaced
      · rw [step]
        exact induction member restMembers holds

theorem foldlM_keepExtremum_of_occurs {property : Text → Prop}
    (dotted : ∀ row ∈ rows, Dotted row)
    (stays : ∀ value ∈ rows, ∀ current ∈ rows, property value →
      Replaces isMax current value → property current)
    (taken : ∀ value ∈ rows, ∀ current ∈ rows, ¬ property value →
      property current →
      Replaces isMax current value) {value : Text} (member :
        value ∈ rows) {rest : List Text}
    (later : rest ⊆ rows) (occurs : ∃ row ∈ value :: rest, property row) :
    ∃ best ∈ rows, property best ∧
      rest.foldlM (keepExtremum isMax) (some value) = some (some best) := by
  by_cases holds : property value
  · exact foldlM_keepExtremum_of_holds isMax dotted stays member later holds
  · induction rest generalizing value with
    | nil =>
        obtain ⟨row, isRow, rowHolds⟩ := occurs
        rw [List.mem_singleton.mp isRow] at rowHolds
        exact absurd rowHolds holds
    | cons current rest induction =>
        obtain ⟨currentMember, restMembers⟩ := List.cons_subset.mp later
        rw [List.foldlM_cons]
        by_cases currentHolds : property current
        · have replaced :=
            taken value member current currentMember holds currentHolds
          rcases keepExtremum_eq isMax (dotted current currentMember)
            (dotted value member) with ⟨_, step⟩ | ⟨kept, _⟩
          · rw [step]
            exact foldlM_keepExtremum_of_holds isMax dotted stays currentMember
              restMembers currentHolds
          · exact absurd replaced kept
        · have remains : ∃ row ∈ rest, property row := by
            obtain ⟨row, isRow, rowHolds⟩ := occurs
            rcases List.mem_cons.mp isRow with rfl | isRow
            · exact absurd rowHolds holds
            · rcases List.mem_cons.mp isRow with rfl | isRow
              · exact absurd rowHolds currentHolds
              · exact ⟨row, isRow, rowHolds⟩
          obtain ⟨row, isRow, rowHolds⟩ := remains
          rcases keepExtremum_eq isMax (dotted current currentMember)
            (dotted value member) with ⟨_, step⟩ | ⟨_, step⟩
          · rw [step]
            exact induction currentMember restMembers
              ⟨row, List.mem_cons_of_mem _ isRow, rowHolds⟩ currentHolds
          · rw [step]
            exact induction member restMembers
              ⟨row, List.mem_cons_of_mem _ isRow, rowHolds⟩ holds

/-- The greatest row, or the smallest one. -/
def IsExtremum (isMax : Bool) (rows : List Text) (best : Text) : Prop :=
  ∀ row ∈ rows, if isMax then numbers row ≤ numbers best
                else numbers best ≤ numbers row

def ExtremumLaw (isMax : Bool) (rows : List Text) : Prop :=
  ∀ order : List Text, order.Perm rows →
    ∃ best ∈ rows, extremumValue isMax order = some (some best) ∧
      IsExtremum isMax rows best

theorem exists_isExtremum (nonempty : rows ≠ []) :
    ∃ best ∈ rows, IsExtremum isMax rows best := by
  have isNonempty : rows.toFinset.Nonempty := by simpa using nonempty
  cases isMax with
  | true =>
      obtain ⟨best, member, bounds⟩ :=
        rows.toFinset.exists_max_image numbers isNonempty
      exact ⟨best, by simpa using member,
        fun row isRow => bounds row (by simpa using isRow)⟩
  | false =>
      obtain ⟨best, member, bounds⟩ :=
        rows.toFinset.exists_min_image numbers isNonempty
      exact ⟨best, by simpa using member,
        fun row isRow => bounds row (by simpa using isRow)⟩

theorem extremumLaw_of (dotted : ∀ row ∈ rows, Dotted row)
    (nonempty : rows ≠ [])
    (stays : ∀ value ∈ rows, ∀ current ∈ rows, IsExtremum isMax rows value →
      Replaces isMax current value → IsExtremum isMax rows current)
    (taken : ∀ value ∈ rows, ∀ current ∈ rows, ¬ IsExtremum isMax rows value →
      IsExtremum isMax rows current → Replaces isMax current value) :
    ExtremumLaw isMax rows := by
  intro order permuted
  cases order with
  | nil => exact absurd permuted.symm.eq_nil nonempty
  | cons first rest =>
      have members := permuted.subset
      obtain ⟨best, member, isBest⟩ := exists_isExtremum isMax nonempty
      obtain ⟨found, foundMember, isFound, ran⟩ :=
        foldlM_keepExtremum_of_occurs isMax dotted
        stays taken (members List.mem_cons_self)
        (fun row isRow => members (List.mem_cons_of_mem _ isRow))
        ⟨best, permuted.symm.subset member, isBest⟩
      exact ⟨found, foundMember, ran, isFound⟩

/-- No row is a beginning of the greatest one. -/
def MaxApart (rows : List Text) : Prop :=
  ∀ x ∈ rows, ∀ y ∈ rows, IsExtremum true rows y →
    numbers x <+: numbers y → numbers x = numbers y

/-- The smallest row is no beginning of another one. -/
def MinApart (rows : List Text) : Prop :=
  ∀ x ∈ rows, ∀ y ∈ rows, IsExtremum false rows x →
    numbers x <+: numbers y → numbers x = numbers y

variable (dotted : ∀ row ∈ rows, Dotted row)
include dotted

theorem maxLaw_of_apart (nonempty : rows ≠ []) (apart : MaxApart rows) :
    ExtremumLaw true rows := by
  apply extremumLaw_of true dotted nonempty
  · intro value isValue current isCurrent greatest replaced
    obtain ⟨notLess, _⟩ := (revisionGreater_iff (dotted current isCurrent)
      (dotted value isValue)).mp replaced
    have same : numbers current = numbers value := by
      rcases (greatest current isCurrent : numbers current ≤
        numbers value).lt_or_eq with
        less | same
      · exact apart current isCurrent value isValue greatest (notLess less)
      · exact same
    intro row isRow
    rw [if_pos rfl, same]
    exact greatest row isRow
  · intro value isValue current isCurrent notGreatest greatest
    have atMost : numbers value ≤ numbers current := greatest value isValue
    have less : numbers value < numbers current := by
      apply lt_of_le_of_ne atMost
      intro same
      apply notGreatest
      intro row isRow
      rw [if_pos rfl, same]
      exact greatest row isRow
    apply (revisionGreater_iff (dotted current isCurrent)
      (dotted value isValue)).mpr
    refine ⟨fun above => absurd above less.asymm, ?_⟩
    rintro rfl
    exact lt_irrefl _ less

theorem minLaw_of_apart (nonempty : rows ≠ [])
    (apart : MinApart rows) : ExtremumLaw false rows := by
  apply extremumLaw_of false dotted nonempty
  · intro value isValue current isCurrent smallest replaced
    obtain ⟨less, _⟩ := (revisionSmaller_iff (dotted current isCurrent)
      (dotted value isValue)).mp replaced
    exact absurd less (not_lt.mpr (smallest current isCurrent))
  · intro value isValue current isCurrent notSmallest smallest
    have atLeast : numbers current ≤ numbers value := smallest value isValue
    have different : numbers current ≠ numbers value := by
      intro same
      apply notSmallest
      intro row isRow
      rw [if_neg (by decide), ← same]
      exact smallest row isRow
    apply (revisionSmaller_iff (dotted current isCurrent)
      (dotted value isValue)).mpr
    refine ⟨lt_of_le_of_ne atLeast different, fun beginning => different ?_⟩
    exact apart current isCurrent value isValue smallest beginning

/-- Some row is the value at each time. -/
theorem foldlM_keepExtremum_isSome {order : List Text}
    (members : order ⊆ rows) :
    order.foldlM (keepExtremum isMax) none = some none ∨
      ∃ value ∈ rows, order.foldlM (keepExtremum isMax) none =
        some (some value) := by
  cases order with
  | nil => exact .inl rfl
  | cons first rest =>
      obtain ⟨value, member, _, ran⟩ := @foldlM_keepExtremum_of_holds rows isMax
        (fun _ => True) dotted (fun _ _ _ _ _ _ => trivial)
        first (members List.mem_cons_self)
        rest (fun row isRow => members (List.mem_cons_of_mem _ isRow)) trivial
      exact .inr ⟨value, member, ran⟩

theorem keepExtremum_greatest {state : Option Text}
    (isRow : ∀ value ∈ state, value ∈ rows)
    {greatest : Text} (member : greatest ∈ rows)
    (bounds : IsExtremum true rows greatest) :
    ∃ value ∈ rows, numbers value = numbers greatest ∧
      keepExtremum true state greatest = some (some value) := by
  cases state with
  | none => exact ⟨greatest, member, rfl, rfl⟩
  | some value =>
      have valueMember := isRow value rfl
      rcases keepExtremum_eq true (dotted greatest member)
        (dotted value valueMember) with
        ⟨_, step⟩ | ⟨kept, step⟩
      · exact ⟨greatest, member, rfl, step⟩
      · refine ⟨value, valueMember, ?_, step⟩
        have atMost : numbers value ≤ numbers greatest :=
          bounds value valueMember
        by_contra different
        apply kept
        apply (revisionGreater_iff (dotted greatest member)
          (dotted value valueMember)).mpr
        refine ⟨fun above => absurd above (not_lt.mpr atMost), ?_⟩
        rintro rfl
        exact different rfl

theorem apart_of_maxLaw (law : ExtremumLaw true rows) : MaxApart rows := by
  intro x memberX y memberY greatest beginning
  by_contra different
  have distinct : y ≠ x := fun same => different (same ▸ rfl)
  have memberErased : y ∈ rows.erase x :=
    (List.mem_erase_of_ne distinct).mpr memberY
  have permuted : ((rows.erase x).erase y ++ [y, x]).Perm rows := by
    calc
      ((rows.erase x).erase y ++ [y, x]).Perm
          ([y, x] ++ (rows.erase x).erase y) := List.perm_append_comm
      _ |>.Perm (x :: y :: (rows.erase x).erase y) := List.Perm.swap _ _ _
      _ |>.Perm (x :: rows.erase x) :=
          (List.perm_cons_erase memberErased).symm.cons x
      _ |>.Perm rows := (List.perm_cons_erase memberX).symm
  obtain ⟨best, memberBest, ran, isBest⟩ := law _ permuted
  have others : (rows.erase x).erase y ⊆ rows := fun row isRow =>
    List.mem_of_mem_erase (List.mem_of_mem_erase isRow)
  have last : ∀ value ∈ rows, numbers value = numbers y →
      keepExtremum true (some value) x = some (some x) := by
    intro value member same
    rcases keepExtremum_eq true (dotted x memberX) (dotted value member) with
      ⟨_, step⟩ | ⟨kept, _⟩
    · exact step
    · refine absurd ?_ kept
      apply (revisionGreater_iff (dotted x memberX) (dotted value member)).mpr
      refine ⟨fun _ => same ▸ beginning, ?_⟩
      rintro rfl
      exact different same
  have returned : ∀ state, (∀ value ∈ state, value ∈ rows) →
      ((rows.erase x).erase y).foldlM (keepExtremum true) none = some state →
      best = x := by
    intro state isRow reached
    obtain ⟨value, member, same, step⟩ :=
      keepExtremum_greatest dotted isRow memberY greatest
    rw [extremumValue, List.foldlM_append, reached] at ran
    simp only [Option.bind_eq_bind, Option.bind_some, List.foldlM_cons, step,
      last value member same, List.foldlM_nil, Option.pure_def,
      Option.some.injEq] at ran
    exact ran.symm
  have isX : best = x := by
    rcases foldlM_keepExtremum_isSome true dotted others with reached |
      ⟨value, member, reached⟩
    · exact returned none (by simp) reached
    · exact returned (some value) (by simpa using member) reached
  have above : numbers y ≤ numbers x := isX ▸ isBest y memberY
  exact different (le_antisymm (le_of_beginning beginning) above)

omit dotted

theorem prefix_of_between {first middle last : List ℤ}
    (beginning : first <+: last)
    (above : first ≤ middle) (below : middle ≤ last) : first <+: middle := by
  induction first generalizing middle last with
  | nil => exact List.nil_prefix
  | cons head rest induction =>
      cases last with
      | nil => simp at beginning
      | cons lastHead lastRest =>
          obtain ⟨rfl, later⟩ := List.cons_prefix_cons.mp beginning
          cases middle with
          | nil => exact absurd above (not_le.mpr (List.nil_lt_cons _ _))
          | cons middleHead middleRest =>
              have notAbove := not_lt.mpr above
              have notBelow := not_lt.mpr below
              rw [List.cons_lt_cons_iff, not_or, not_and, not_lt]
                at notAbove notBelow
              have same : head = middleHead := le_antisymm notAbove.1 notBelow.1
              apply List.cons_prefix_cons.mpr
              refine ⟨same, induction later ?_ ?_⟩
              · exact not_lt.mp (notAbove.2 same.symm)
              · exact not_lt.mp (notBelow.2 same)

/-- When the smallest row begins another one and the least of these comes first,
it is what is returned. -/
theorem apart_of_minLaw (dotted : ∀ row ∈ rows, Dotted row)
    (law : ExtremumLaw false rows) : MinApart rows := by
  intro x memberX y memberY smallest beginning
  by_contra different
  let longer := rows.toFinset.filter fun row =>
    numbers x <+: numbers row ∧ numbers x ≠ numbers row
  have mem_longer : ∀ row, row ∈ longer ↔
      row ∈ rows ∧ numbers x <+: numbers row ∧ numbers x ≠ numbers row := by
    simp [longer]
  obtain ⟨least, isLeast, bounds⟩ := longer.exists_min_image numbers
    ⟨y, (mem_longer y).mpr ⟨memberY, beginning, different⟩⟩
  obtain ⟨memberLeast, leastBegins, leastDiffers⟩ :=
    (mem_longer least).mp isLeast
  obtain ⟨best, _, ran, isBest⟩ := law (least :: rows.erase least)
    (List.perm_cons_erase memberLeast).symm
  obtain ⟨found, _, same, ranFound⟩ := @foldlM_keepExtremum_of_holds rows false
    (fun value => numbers value = numbers least) dotted
    (by
      intro value isValue current isCurrent sameValue replaced
      obtain ⟨less, notBeginning⟩ :=
        (revisionSmaller_iff (dotted current isCurrent)
        (dotted value isValue)).mp replaced
      rw [sameValue] at less notBeginning
      have above : numbers x ≤ numbers current := smallest current isCurrent
      have begins := prefix_of_between leastBegins above less.le
      have differs : numbers x ≠ numbers current := by
        intro sameX
        exact notBeginning (sameX ▸ leastBegins)
      have atLeast :=
        bounds current ((mem_longer current).mpr ⟨isCurrent, begins, differs⟩)
      exact absurd less (not_lt.mpr atLeast))
    least memberLeast (rows.erase least)
      (fun row isRow => List.mem_of_mem_erase isRow) rfl
  have isFound : best = found := by
    have whole : some (some found) = some (some best) := ranFound.symm.trans ran
    simpa using whole.symm
  have atMost : numbers least ≤ numbers x := by
    rw [← same, ← isFound]
    exact isBest x memberX
  exact leastDiffers (le_antisymm (le_of_beginning leastBegins) atMost)

end Extremum

theorem splitDots_ne_nil (text : Text) : splitDots text ≠ [] := by
  cases text with
  | nil => simp [splitDots]
  | cons char rest =>
      rw [splitDots]
      split_ifs
      · simp
      · cases splitDots rest <;> simp

theorem not_mem_splitDots {text field : Text}
    (member : field ∈ splitDots text) : '.' ∉ field := by
  induction text generalizing field with
  | nil =>
      rw [List.mem_singleton.mp member]
      simp
  | cons char rest induction =>
      rw [splitDots] at member
      split_ifs at member with isDot
      · rcases List.mem_cons.mp member with rfl | member
        · simp
        · exact induction member
      · cases split : splitDots rest with
        | nil => exact absurd split (splitDots_ne_nil rest)
        | cons first others =>
            rw [split] at member induction
            rcases List.mem_cons.mp member with rfl | member
            · rw [List.mem_cons, not_or]
              exact ⟨fun same => isDot same.symm, induction List.mem_cons_self⟩
            · exact induction (List.mem_cons_of_mem _ member)

theorem not_mem_decimal (value : ℤ) : '.' ∉ decimal value := by
  cases value with
  | ofNat magnitude => exact not_mem_toDigits rfl magnitude
  | negSucc magnitude =>
      rw [decimal, List.mem_cons, not_or]
      exact ⟨by decide, not_mem_toDigits rfl (magnitude + 1)⟩

theorem increaseRevision_greater {revision : Text} (dotted : Dotted revision) :
    ∃ increased, increaseRevision revision = some increased ∧ Dotted increased ∧
      ∀ other, Dotted other → numbers other ≤ numbers revision →
        revisionGreater increased other = some true := by
  have nonempty := splitDots_ne_nil revision
  have split := List.dropLast_append_getLast nonempty
  let lead := (splitDots revision).dropLast
  let last := (splitDots revision).getLast nonempty
  have fields : splitDots revision = lead ++ [last] := split.symm
  obtain ⟨val, isVal⟩ := Option.isSome_iff_exists.mp
    (dotted last (by simp [fields]))
  have noDot : ∀ field ∈ lead ++ [decimal (val + 1)], '.' ∉ field := by
    intro field member
    rcases List.mem_append.mp member with earlier | isLast
    · exact not_mem_splitDots
        (by rw [fields]; exact List.mem_append_left _ earlier)
    · rw [List.mem_singleton.mp isLast]
      exact not_mem_decimal (val + 1)
  let increased := ['.'].intercalate (lead ++ [decimal (val + 1)])
  have later : splitDots increased = lead ++ [decimal (val + 1)] :=
    splitDots_intercalate (by simp) noDot
  have isDotted : Dotted increased := by
    intro field member
    rw [later] at member
    rcases List.mem_append.mp member with earlier | isLast
    · exact dotted field (by rw [fields]; exact List.mem_append_left _ earlier)
    · rw [List.mem_singleton.mp isLast, int?_decimal]
      rfl
  have above : numbers revision < numbers increased := by
    rw [numbers, numbers, fields, later, List.map_append, List.map_append]
    apply List.append_left_lt
    simp only [List.map_cons, List.map_nil, isVal, int?_decimal,
      Option.getD_some]
    exact List.cons_lt_cons_iff.mpr (.inl (by omega))
  refine ⟨increased, ?_, isDotted, ?_⟩
  · simp [increaseRevision, fields, isVal, increased]
  · intro other dottedOther atMost
    have less := atMost.trans_lt above
    apply (revisionGreater_iff isDotted dottedOther).mpr
    refine ⟨fun below => absurd below less.asymm, ?_⟩
    rintro rfl
    exact lt_irrefl _ less

/-- When the comparisons of dotted revisions are orders, when the value that is
chosen from rows is an extremum in every order of the rows, and what an
increased revision is greater than. -/
theorem revision_order_iff (revisions : Set Text) (rows : List Text)
    (revision : Text) (dottedRevisions : ∀ x ∈ revisions, Dotted x)
    (dottedRows : ∀ row ∈ rows, Dotted row)
    (nonempty : rows ≠ []) (dotted : Dotted revision) :
    (OrderLaws revisions ↔ NoBeginning revisions) ∧
    (ExtremumLaw true rows ↔ MaxApart rows) ∧
    (ExtremumLaw false rows ↔ MinApart rows) ∧
    ∃ increased, increaseRevision revision = some increased ∧ Dotted increased ∧
      ∀ other, Dotted other → numbers other ≤ numbers revision →
        revisionGreater increased other = some true := by
  refine ⟨orderLaws_iff dottedRevisions, ?_, ?_,
    increaseRevision_greater dotted⟩
  · exact ⟨apart_of_maxLaw dottedRows, maxLaw_of_apart dottedRows nonempty⟩
  · exact ⟨apart_of_minLaw dottedRows, minLaw_of_apart dottedRows nonempty⟩

theorem revision_order_siblings :
    OrderLaws {x | x ∈ ["1.2".toList, "1.3".toList]} ∧
    ExtremumLaw true ["1.2".toList, "1.3".toList] ∧
    revisionGreater "1.3".toList "1.2".toList = some true := by
  have lengths : ∀ row ∈ ["1.2".toList, "1.3".toList],
      (numbers row).length = 2 := by decide
  have distinct : ∀ x ∈ ["1.2".toList, "1.3".toList],
      ∀ y ∈ ["1.2".toList, "1.3".toList], numbers x = numbers y → x = y := by
    decide
  have same {x y : Text} (memberX : x ∈ ["1.2".toList, "1.3".toList])
      (memberY : y ∈ ["1.2".toList, "1.3".toList])
      (beginning : numbers x <+: numbers y) : numbers x = numbers y :=
    beginning.eq_of_length ((lengths x memberX).trans (lengths y memberY).symm)
  have dotted : ∀ row ∈ ["1.2".toList, "1.3".toList], Dotted row := by
    simp only [Dotted]
    decide
  have laws := revision_order_iff {x | x ∈ ["1.2".toList, "1.3".toList]}
    ["1.2".toList, "1.3".toList] "1.2".toList dotted dotted (by simp)
    (by simp only [Dotted]; decide)
  have noBeginning : NoBeginning {x | x ∈ ["1.2".toList, "1.3".toList]} :=
    fun x memberX y memberY different beginning =>
      different (distinct x memberX y memberY (same memberX memberY beginning))
  have apart : MaxApart ["1.2".toList, "1.3".toList] :=
    fun x memberX y memberY _ => same memberX memberY
  refine ⟨laws.1.mpr noBeginning, laws.2.1.mpr apart, ?_⟩
  obtain ⟨increased, isIncreased, _, greater⟩ := laws.2.2.2
  have next : increaseRevision "1.2".toList = some "1.3".toList := by decide
  rw [next] at isIncreased
  cases isIncreased
  exact greater "1.2".toList (by simp only [Dotted]; decide) le_rfl

/-- Two revisions of which one begins with the other are each greater than the
other, none is smaller, and the last one in the list is taken for the greatest.
-/
theorem revision_order_fails :
    revisionGreater "1".toList "1.0".toList = some true ∧
    revisionGreater "1.0".toList "1".toList = some true ∧
    revisionSmaller "1".toList "1.0".toList = some false ∧
    extremumValue true ["1.0".toList, "1".toList] = some (some "1".toList) ∧
    extremumValue true ["1".toList, "1.0".toList] =
      some (some "1.0".toList) := by
  decide

section Texts

variable (first second : Revision)

theorem int?_toDigits (number : ℕ) : int? (Nat.toDigits 10 number) =
    some ↑number :=
  int?_decimal number

theorem splitDots_text :
    splitDots first.text = first.fields.map (Nat.toDigits 10) := by
  refine splitDots_intercalate (by simp [fields]) fun field member => ?_
  obtain ⟨number, -, rfl⟩ := List.mem_map.mp member
  exact not_mem_decimal number

theorem text_injective : Function.Injective text := by
  intro first second same
  apply fields_injective
  have split := congrArg splitDots same
  rw [splitDots_text, splitDots_text] at split
  refine List.map_injective_iff.mpr (fun number other written => ?_) split
  exact Int.ofNat_inj.mp (by simpa [int?_toDigits] using congrArg int? written)

theorem revisionGreaterOrEqual_text :
    revisionGreaterOrEqual first.text second.text =
    some (PRServ.revisionGreaterOrEqual first second) := by
  rw [revisionGreaterOrEqual, splitDots_text, splitDots_text,
    PRServ.revisionGreaterOrEqual]
  generalize first.fields = firsts, second.fields = seconds
  induction firsts generalizing seconds with
  | nil => rfl
  | cons head firsts induction =>
      cases seconds with
      | nil =>
          simp [greaterOrEqualFields, PRServ.greaterOrEqualFields,
            int?_toDigits]
      | cons other seconds =>
          simp only [List.map_cons, greaterOrEqualFields,
            PRServ.greaterOrEqualFields,
            int?_toDigits, Option.bind_eq_bind, Option.bind_some, Int.ofNat_lt,
            induction]
          split_ifs <;> rfl

theorem revisionSmaller_text : revisionSmaller first.text second.text =
    some (PRServ.revisionSmaller first second) := by
  rw [revisionSmaller, revisionGreaterOrEqual_text]
  rfl

theorem revisionGreater_text : revisionGreater first.text second.text =
    some (PRServ.revisionGreater first second) := by
  rw [revisionGreater, revisionGreaterOrEqual_text, PRServ.revisionGreater]
  simp [text_injective.ne_iff]

/-- The greatest and the smallest revision of a table and the revision behind
one are found on the texts as on the numbers. -/
theorem values_text (isMax : Bool) (rows : List Revision)
    (revision : Revision) :
    extremumValue isMax (rows.map text) = some ((extremum
      (if isMax then PRServ.revisionGreater else PRServ.revisionSmaller)
        rows).map text) ∧
      increaseRevision revision.text = some revision.increase.text := by
  constructor
  · rw [extremumValue, extremum, ← Option.map_none]
    generalize (none : Option Revision) = best
    induction rows generalizing best with
    | nil => rfl
    | cons row rows induction =>
        rw [List.map_cons, List.foldlM_cons, List.foldl_cons, ← induction]
        cases best with
        | none => rfl
        | some value =>
            cases isMax <;>
              simp [keepExtremum, keepBetter, revisionGreater_text,
              revisionSmaller_text] <;> split_ifs <;> rfl
  · rw [increaseRevision, splitDots_text]
    simp [fields, int?_toDigits, increase, text]
    rfl

end Texts

end Nvbmc.PRServ.OnTexts
