import Mathlib.Order.Bounds.Basic
import Mathlib.Tactic.Common

/-!
# Picking an extremum from a list

`extremum better` walks along a list and keeps the best item seen so far.  When
`better` is a linear order on the items of the list, strictly or not at all,
the item it ends with bounds the list.
-/

namespace Nvbmc.Library

variable {α : Type*} (better : α → α → Bool)

def keepBetter (best : Option α) (item : α) : Option α :=
  match best with
  | none => some item
  | some value => if better item value then some item else some value

def extremum (items : List α) : Option α :=
  items.foldl (keepBetter better) none

variable {better}

private theorem foldl_keepBetter_some (items : List α) (value : α) :
    ∃ best, items.foldl (keepBetter better) (some value) = some best ∧
      (best = value ∨ best ∈ items) := by
  induction items generalizing value with
  | nil => exact ⟨value, rfl, .inl rfl⟩
  | cons item items induction =>
      rw [List.foldl_cons, keepBetter]
      split_ifs with replaced
      · obtain ⟨best, found, kept | among⟩ := induction item
        · exact ⟨best, found, .inr (by simp [kept])⟩
        · exact ⟨best, found, .inr (by simp [among])⟩
      · obtain ⟨best, found, kept | among⟩ := induction value
        · exact ⟨best, found, .inl kept⟩
        · exact ⟨best, found, .inr (by simp [among])⟩

theorem extremum_mem {items : List α} {best : α}
    (found : extremum better items = some best) : best ∈ items := by
  cases items with
  | nil => cases found
  | cons item items =>
      obtain ⟨other, same, kept | among⟩ :=
        @foldl_keepBetter_some _ better items item
      · cases found.symm.trans same
        simp [kept]
      · cases found.symm.trans same
        simp [among]

theorem extremum_eq_none {items : List α} :
    extremum better items = none ↔ items = [] := by
  cases items with
  | nil => simp [extremum]
  | cons item items =>
      obtain ⟨best, found, _⟩ := @foldl_keepBetter_some _ better items item
      have some_best : extremum better (item :: items) = some best := found
      simp [some_best]

section Bound

variable {below : α → α → Prop} (refl : ∀ x, below x x)
  (trans : ∀ x y z, below x y → below y z → below x z)
  {items : List α}
  (agrees : ∀ x ∈ items, ∀ y ∈ items,
    if better x y then below y x else below x y)

include refl trans agrees

private theorem foldl_keepBetter_bound {value best : α} {rest : List α}
    (valueMember : value ∈ items) (restMembers : rest ⊆ items)
    (found : rest.foldl (keepBetter better) (some value) = some best) :
    ∀ x ∈ value :: rest, below x best := by
  induction rest generalizing value with
  | nil =>
      cases found
      intro x member
      rw [List.mem_singleton.mp member]
      exact refl _
  | cons item rest induction =>
      obtain ⟨itemMember, restMembers⟩ := List.cons_subset.mp restMembers
      have compared := agrees item itemMember value valueMember
      rw [List.foldl_cons, keepBetter] at found
      split_ifs at found compared with replaced
      · have later := induction itemMember restMembers found
        intro x member
        rcases List.mem_cons.mp member with isValue | member
        · rw [isValue]
          exact trans _ _ _ compared (later item List.mem_cons_self)
        · exact later x member
      · have later := induction valueMember restMembers found
        have valueBelow := later value List.mem_cons_self
        intro x member
        rcases List.mem_cons.mp member with isValue | member
        · rw [isValue]
          exact valueBelow
        · rcases List.mem_cons.mp member with isItem | among
          · rw [isItem]
            exact trans _ _ _ compared valueBelow
          · exact later x (List.mem_cons_of_mem _ among)

/-- The item found bounds the list when `better` follows the order `below` on
its items. -/
theorem extremum_bound {best : α} (found : extremum better items = some best) :
    ∀ x ∈ items, below x best := by
  cases items with
  | nil => simp
  | cons item rest =>
      exact foldl_keepBetter_bound refl trans agrees List.mem_cons_self
        (List.subset_cons_self _ _) found

end Bound

section Joining

variable {β : Type*} (asymm : ∀ x y, better x y → ¬ better y x)
  (negTrans : ∀ x y z, ¬ better x y → ¬ better y z → ¬ better x z)
  {before after : β → Option α}
  (kept : ∀ b a, before b = some a → after b = some a)

include asymm negTrans

theorem extremum_not_better {items : List α} {best : α}
    (found : extremum better items = some best) :
    ∀ x ∈ items, ¬ better x best := by
  apply extremum_bound (fun x self => asymm x x self self) negTrans _ found
  intro x _ y _
  split_ifs with compared
  · exact asymm x y compared
  · exact compared

include kept

/-- The walks along the old list and along the new one keep the same item, or
the second one keeps an item that joined. -/
private theorem foldl_keepBetter_join (items : List β) {old new : Option α}
    {joined : α → Prop}
    (joins : ∀ b ∈ items, ∀ a, before b = none → after b = some a → joined a)
    (related : new = old ∨
      ∃ a, new = some a ∧ joined a ∧ ∀ b, old = some b → ¬ better b a) :
    let newBest := (items.filterMap after).foldl (keepBetter better) new
    let oldBest := (items.filterMap before).foldl (keepBetter better) old
    newBest = oldBest ∨
      ∃ a, newBest = some a ∧ joined a ∧ ∀ b, oldBest = some b →
        ¬ better b a := by
  induction items generalizing old new with
  | nil => exact related
  | cons item items induction =>
      have later := fun b member => joins b (List.mem_cons_of_mem _ member)
      cases oldItem : before item with
      | none =>
          cases newItem : after item with
          | none =>
              simp only [List.filterMap_cons, oldItem, newItem]
              exact induction later related
          | some a =>
              have isJoined := joins item List.mem_cons_self a oldItem newItem
              simp only [List.filterMap_cons, oldItem, newItem, List.foldl_cons]
              apply induction later
              rcases related with rfl | ⟨first, rfl, firstJoined, bound⟩
              · cases new with
                | none => exact .inr ⟨a, rfl, isJoined, by simp⟩
                | some value =>
                    rw [keepBetter]
                    split_ifs with replaced
                    · refine .inr ⟨a, rfl, isJoined, ?_⟩
                      rintro _ ⟨⟩
                      exact asymm _ _ replaced
                    · exact .inl rfl
              · rw [keepBetter]
                split_ifs with replaced
                · exact .inr ⟨a, rfl, isJoined, fun b isOld =>
                    negTrans b first a (bound b isOld) (asymm a first replaced)⟩
                · exact .inr ⟨first, rfl, firstJoined, bound⟩
      | some a =>
          have newItem := kept item a oldItem
          simp only [List.filterMap_cons, oldItem, newItem, List.foldl_cons]
          apply induction later
          rcases related with rfl | ⟨first, rfl, firstJoined, bound⟩
          · exact .inl rfl
          · rw [keepBetter]
            split_ifs with replaced
            · left
              cases old with
              | none => rfl
              | some b =>
                  have better_b : better a b := by
                    by_contra not_better
                    exact negTrans a b first not_better (bound b rfl) replaced
                  simp [keepBetter, better_b]
            · refine .inr ⟨first, rfl, firstJoined, fun b isOld => ?_⟩
              cases old with
              | none =>
                  cases isOld
                  exact replaced
              | some value =>
                  rw [keepBetter] at isOld
                  split_ifs at isOld
                  · cases isOld
                    exact replaced
                  · exact bound b isOld

/-- When items join a list, the best one is an item that joined or the one from
before. -/
theorem extremum_join {items : List β} {best : α}
    (found : extremum better (items.filterMap after) = some best) :
    (∃ b ∈ items, before b = none ∧ after b = some best) ∨
      extremum better (items.filterMap before) = some best := by
  have related := @foldl_keepBetter_join _ better _ asymm negTrans before after
    kept items none none
    (fun a => ∃ b ∈ items, before b = none ∧ after b = some a)
    (fun b member a old new => ⟨b, member, old, new⟩) (.inl rfl)
  simp only at related
  obtain same | ⟨a, new, joined, -⟩ := related
  · exact .inr (same.symm.trans found)
  · cases new.symm.trans found
    exact .inl joined

theorem extremum_join_worse {items : List β} {best : α}
    (found : extremum better (items.filterMap before) = some best)
    (worse : ∀ b ∈ items, ∀ a, before b = none → after b = some a →
      better best a) :
    extremum better (items.filterMap after) = some best := by
  obtain ⟨b, member, isBest⟩ := List.mem_filterMap.mp (extremum_mem found)
  have among : best ∈ items.filterMap after :=
    List.mem_filterMap.mpr ⟨b, member, kept b best isBest⟩
  cases new : extremum better (items.filterMap after) with
  | none =>
      rw [extremum_eq_none.mp new] at among
      cases among
  | some other =>
      obtain ⟨b, member, old, joined⟩ | same :=
        extremum_join asymm negTrans kept new
      · have bound := extremum_not_better asymm negTrans new best among
        exact absurd (worse b member other old joined) bound
      · exact same.symm.trans found

end Joining

section Linear

variable [LinearOrder α]

theorem extremum_isGreatest {items : List α} {best : α}
    (agrees : ∀ x ∈ items, ∀ y ∈ items, better x y = true ↔ y < x)
    (found : extremum better items = some best) :
    IsGreatest {x | x ∈ items} best := by
  refine ⟨extremum_mem found, ?_⟩
  apply extremum_bound le_refl (fun _ _ _ => le_trans) _ found
  intro x xMember y yMember
  split_ifs with better_x
  · exact ((agrees x xMember y yMember).mp better_x).le
  · exact not_lt.mp fun less => better_x ((agrees x xMember y yMember).mpr less)

theorem extremum_isLeast {items : List α} {best : α}
    (agrees : ∀ x ∈ items, ∀ y ∈ items, better x y = true ↔ x < y)
    (found : extremum better items = some best) :
    IsLeast {x | x ∈ items} best := by
  refine ⟨extremum_mem found, ?_⟩
  refine @extremum_bound _ _ (fun x y => y ≤ x) le_refl
    (fun _ _ _ first second => second.trans first) _ ?_ _ found
  intro x xMember y yMember
  split_ifs with better_x
  · exact ((agrees x xMember y yMember).mp better_x).le
  · exact not_lt.mp fun less => better_x ((agrees x xMember y yMember).mpr less)

end Linear

end Nvbmc.Library
