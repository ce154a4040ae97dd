import Mathlib.Data.Finset.Card

/-!
# Paths and ranks

An acyclic relation whose field lies in a finite carrier is well founded: the
number of carrier elements strictly below a point is a rank that decreases
along every edge.  The rank also bounds how often a worklist can move one
edge further.

`ReachVia edge inner a b` is a non-empty path from `a` to `b` all of whose
inner points satisfy `inner`; the end points are free.
-/

namespace Nvbmc.Library

variable {α : Type*}

/-- A non-empty path whose inner points satisfy `inner`. -/
inductive ReachVia (edge : α → α → Prop) (inner : α → Prop) (source : α) :
    α → Prop where
  | single {target : α} : edge source target →
      ReachVia edge inner source target
  | tail {middle target : α} : ReachVia edge inner source middle →
      inner middle → edge middle target →
      ReachVia edge inner source target

/-- No point reaches itself along one or more edges. -/
def Acyclic (edge : α → α → Prop) : Prop :=
  ∀ point, ¬ Relation.TransGen edge point point

variable {edge : α → α → Prop}

theorem Acyclic.of_lt (rank : α → ℕ)
    (decreasing : ∀ below above, edge below above → rank below < rank above) :
    Acyclic edge := by
  intro point cycle
  have lower : ∀ {below above}, Relation.TransGen edge below above →
      rank below < rank above := by
    intro below above path
    induction path with
    | single step => exact decreasing _ _ step
    | tail _ step reached => exact reached.trans (decreasing _ _ step)
  exact Nat.lt_irrefl _ (lower cycle)

open Classical in
noncomputable def rankIn (edge : α → α → Prop) (carrier : Finset α)
    (point : α) : ℕ :=
  (carrier.filter fun below => Relation.TransGen edge below point).card

theorem rankIn_le_card (edge : α → α → Prop) (carrier : Finset α)
    (point : α) : rankIn edge carrier point ≤ carrier.card := by
  classical
  exact Finset.card_filter_le _ _

theorem Acyclic.rankIn_lt {carrier : Finset α} (acyclic : Acyclic edge)
    {below above : α} (step : edge below above) (member : below ∈ carrier) :
    rankIn edge carrier below < rankIn edge carrier above := by
  classical
  apply Finset.card_lt_card
  refine Finset.ssubset_iff_of_subset ?_ |>.mpr ⟨below, ?_, ?_⟩
  · intro lower lowerMember
    simp only [Finset.mem_filter] at lowerMember ⊢
    exact ⟨lowerMember.1, lowerMember.2.tail step⟩
  · simp [member, Relation.TransGen.single step]
  · simp [acyclic below]

theorem Acyclic.wellFounded {carrier : Finset α} (acyclic : Acyclic edge)
    (supported : ∀ below above, edge below above → below ∈ carrier) :
    WellFounded edge :=
  Subrelation.wf
    (fun {below above} step =>
      acyclic.rankIn_lt step (supported below above step))
    (measure (rankIn edge carrier)).wf

theorem Acyclic.swap (acyclic : Acyclic edge) :
    Acyclic (Function.swap edge) := by
  intro point cycle
  exact acyclic point (Relation.transGen_swap.mp cycle)

end Nvbmc.Library
