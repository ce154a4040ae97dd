import Nvbmc.PRServ.Table

/-!
# A server without an upstream server

Without an upstream server the table is filled by `get_value` only, so every
value is a single number.  A request without history must then never return
less than what the package already has.  It does, except where the numbers and
their texts are ordered differently.
-/

namespace Nvbmc.PRServ

open Nvbmc.Library

namespace PRTable

variable (ordering : RowOrder)

def emptyTable (readOnly : Bool) : PRTable where
  readOnly := readOnly
  rows := []

/-- The table after a sequence of `get_value` requests. -/
def tableAfter (readOnly : Bool) (requests : List Request) : PRTable :=
  requests.foldl
    (fun table request => (table.getValue ordering request.package
      request.checksum request.history).2)
    (emptyTable readOnly)

/-- The checksum has a value that no value of the package exceeds. -/
def OwnsGreatest (table : PRTable) (package : Package) (checksum : Text) :
    Prop :=
  ∃ own ∈ table.storedFor package checksum,
    own ∈ upperBounds (table.stored package)

/-- What a request must return. -/
structure NeverBackwards (table : PRTable) (request : Request)
    (value : Revision) : Prop where
  above : request.history = false →
    value ∈ upperBounds (table.stored request.package)
  strictly : request.history = false →
    ¬ OwnsGreatest table request.package request.checksum →
      ∀ other ∈ table.stored request.package, other < value
  least : request.history = true →
    (table.storedFor request.package request.checksum).Nonempty →
      IsLeast (table.storedFor request.package request.checksum) value

/-- The greatest value of the checksum is below the greatest of the package by
its number, but not by its text. -/
def Misordered (table : PRTable) (request : Request) : Prop :=
  request.history = false ∧ ∃ own greatest,
    IsGreatest (table.storedFor request.package request.checksum) own ∧
    IsGreatest (table.stored request.package) greatest ∧
    own < greatest ∧ ¬ own.text < greatest.text

/-- Every value is a single number. -/
def Flat (table : PRTable) : Prop :=
  ∀ row ∈ table.rows, row.value.lead = []

variable {ordering} {table : PRTable} {package : Package} {checksum : Text}

theorem Flat.prefixFree (flat : Flat table) :
    PrefixFree (table.stored package) := by
  rintro first ⟨firstRow, firstMember, _, rfl⟩ second
    ⟨secondRow, secondMember, _, rfl⟩
  apply not_properPrefix_of_lead_eq
  rw [flat firstRow firstMember, flat secondRow secondMember]

theorem Flat.valueFor (flat : Flat table) (history : Bool) :
    (table.valueFor ordering package checksum history).lead = [] := by
  have storedFlat : ∀ {value}, value ∈ table.stored package →
      value.lead = [] := by
    rintro _ ⟨row, member, _, rfl⟩
    exact flat row member
  rw [PRTable.valueFor]
  split
  · rfl
  · next maxValue found =>
      have maxFlat := storedFlat (findPackageMaxValue_mem found)
      split
      · exact maxFlat
      · next value known =>
          have ownFlat : value.lead = [] := by
            apply storedFlat
            apply storedFor_subset
            rw [findValue] at known
            split_ifs at known
            · exact mem_selectChecksum.mp (extremum_mem known)
            · exact mem_selectChecksum.mp (extremum_mem known)
          split_ifs
          · exact ownFlat
          · exact maxFlat
          · exact ownFlat

theorem flat_tableAfter (readOnly : Bool) (requests : List Request) :
    Flat (tableAfter ordering readOnly requests) := by
  induction requests using List.reverseRecOn with
  | nil => simp [Flat, tableAfter, emptyTable]
  | append_singleton requests request induction =>
      intro row member
      simp only [tableAfter, List.foldl_append, List.foldl_cons,
        List.foldl_nil] at member
      rcases mem_getValue member with earlier | rfl
      · exact induction row earlier
      · exact Flat.valueFor induction request.history

/-- On a table of single numbers a request returns what it must, exactly when
the text comparison does not mislead it. -/
theorem Flat.neverBackwards_iff (flat : Flat table) (request : Request) :
    NeverBackwards table request (table.valueFor ordering request.package
      request.checksum request.history) ↔ ¬ Misordered table request := by
  obtain ⟨package, checksum, history⟩ := request
  have prefixFree : PrefixFree (table.stored package) := flat.prefixFree
  have ownPrefixFree : PrefixFree (table.storedFor package checksum) :=
    prefixFree.mono storedFor_subset
  rw [PRTable.valueFor]
  split
  · next missing =>
      have none := findPackageMaxValue_eq_none.mp missing
      have ownNone : table.storedFor package checksum = ∅ :=
        Set.subset_eq_empty storedFor_subset none
      refine iff_of_true ⟨?_, ?_, ?_⟩ ?_
      · simp [none]
      · simp [none]
      · simp [ownNone]
      · rintro ⟨_, own, _, ownGreatest, _⟩
        simp [ownNone, IsGreatest] at ownGreatest
  · next maxValue found =>
      have greatest := findPackageMaxValue_isGreatest prefixFree found
      have belowIncreased : ∀ other ∈ table.stored package,
          other < maxValue.increase := fun other member =>
        (greatest.2 member).trans_lt maxValue.lt_increase
      split
      · next missing =>
          have ownNone := findValue_eq_none.mp missing
          refine iff_of_true ⟨?_, ?_, ?_⟩ ?_
          · exact fun _ other member => (belowIncreased other member).le
          · exact fun _ _ => belowIncreased
          · simp [ownNone]
          · rintro ⟨_, own, _, ownGreatest, _⟩
            simp [ownNone, IsGreatest] at ownGreatest
      · next value known =>
          cases history with
          | true =>
              have isMin : table.findMinValue ordering package checksum =
                  some value := by simpa [findValue] using known
              have least := findMinValue_isLeast ownPrefixFree isMin
              refine iff_of_true ⟨by simp, by simp, fun _ _ => least⟩ ?_
              rintro ⟨noHistory, _⟩
              cases noHistory
          | false =>
              have isMax : table.findMaxValue ordering package checksum =
                  some value := by simpa [findValue] using known
              have own := findMaxValue_isGreatest ownPrefixFree isMax
              have ownBelow := greatest.2 (storedFor_subset own.1)
              simp only [Bool.false_eq_true, if_false]
              split_ifs with textLess
              · refine iff_of_true ⟨?_, ?_, by simp⟩ ?_
                · exact fun _ other member => (belowIncreased other member).le
                · exact fun _ _ => belowIncreased
                · rintro ⟨_, otherOwn, otherGreatest, isOwn, isGreatest, _,
                    notText⟩
                  rw [isOwn.unique own, isGreatest.unique greatest] at notText
                  exact notText textLess
              · constructor
                · rintro backwards ⟨_, otherOwn, otherGreatest, isOwn,
                    isGreatest, less, _⟩
                  rw [isOwn.unique own, isGreatest.unique greatest] at less
                  exact absurd (backwards.above rfl greatest.1) less.not_ge
                · intro ordered
                  have same : value = maxValue := by
                    refine ownBelow.eq_of_not_lt fun less => ?_
                    exact ordered ⟨rfl, value, maxValue, own, greatest, less,
                      textLess⟩
                  refine ⟨?_, ?_, by simp⟩
                  · exact fun _ => same ▸ greatest.2
                  · exact fun _ notOwner => absurd ⟨value, own.1,
                      same ▸ greatest.2⟩ notOwner

theorem never_backwards_iff (readOnly : Bool) (requests : List Request)
    (request : Request) :
    NeverBackwards (tableAfter ordering readOnly requests) request
      ((tableAfter ordering readOnly requests).getValue ordering
        request.package request.checksum request.history).1 ↔
      ¬ Misordered (tableAfter ordering readOnly requests) request := by
  rw [getValue_fst]
  exact (flat_tableAfter readOnly requests).neverBackwards_iff request

def elevenChecksums : List Request :=
  (List.range 11).map fun number =>
    ⟨examplePackage, Nat.toDigits 10 number, true⟩

/-- The tenth checksum has the value 9; once the package is at 10 it gets 9
again. -/
theorem not_never_backwards_eleven :
    ¬ NeverBackwards (tableAfter .inserted false elevenChecksums)
      ⟨examplePackage, "9".toList, false⟩
      ((tableAfter .inserted false elevenChecksums).getValue .inserted
        examplePackage "9".toList false).1 := by
  intro backwards
  have atTen : (⟨[], 10⟩ : Revision) ∈
      (tableAfter .inserted false elevenChecksums).stored
        examplePackage :=
    ⟨⟨examplePackage, "10".toList, ⟨[], 10⟩⟩,
      by decide +kernel, rfl, rfl⟩
  have bound := backwards.above rfl atTen
  exact absurd bound (by decide +kernel)

end PRTable

end Nvbmc.PRServ
