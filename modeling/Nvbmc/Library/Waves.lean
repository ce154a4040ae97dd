import Mathlib.Order.WellFounded
import Nvbmc.Library.Marking
import Nvbmc.Library.Reachability

/-!
# Waves

What can be reached from some points is collected wave by wave: the successors
of the last wave that are new make up the next one.  On a finite carrier this
ends.
-/

namespace Nvbmc.Library

section Waves

variable {α : Type} [DecidableEq α] (successors : α → List α)

/-- Collects the waves, at most `fuel` of them. -/
def waves : ℕ → List α → List α → List α
  | 0, _, total => total
  | fuel + 1, next, total =>
      if next = [] then total
      else
        let total := next ∪ total
        waves fuel ((next.flatMap successors).dedup.filter (· ∉ total)) total

variable {successors} {next total carrier : List α} {point : α}

theorem nodup_waves {fuel : ℕ} (nodup : total.Nodup) :
    (waves successors fuel next total).Nodup := by
  induction fuel generalizing next total with
  | zero => exact nodup
  | succ fuel induction =>
      rw [waves]
      split_ifs
      · exact nodup
      · exact induction (nodup.union next)

omit [DecidableEq α] in
theorem reached_of_settled
    (settled : ∀ first ∈ total, ∀ second ∈ successors first, second ∈ total ∨
      second ∈ next)
    {first : α} (member : first ∈ total)
    (path : Relation.ReflTransGen (fun first second => second ∈
      successors first) first point) :
    point ∈ total ∨ ∃ second ∈ next,
      Relation.ReflTransGen (fun first second => second ∈ successors first)
        second point := by
  induction path with
  | refl => exact .inl member
  | tail _ step reached =>
      rcases reached with inTotal | ⟨second, inNext, path⟩
      · rcases settled _ inTotal _ step with inside | outside
        · exact .inl inside
        · exact .inr ⟨_, outside, .refl⟩
      · exact .inr ⟨second, inNext, path.tail step⟩

theorem mem_waves {fuel : ℕ}
    (inside : ∀ item ∈ next, item ∈ carrier ∧ item ∉ total)
    (closed : ∀ item ∈ carrier, ∀ other ∈ successors item, other ∈ carrier)
    (settled : ∀ first ∈ total, ∀ second ∈ successors first, second ∈ total ∨
      second ∈ next)
    (enough : (carrier.filter (· ∉ total)).length ≤ fuel) :
    point ∈ waves successors fuel next total ↔ point ∈ total ∨ ∃ first ∈ next,
      Relation.ReflTransGen (fun first second => second ∈ successors first)
        first point := by
  induction fuel generalizing next total with
  | zero =>
      have noneLeft : next = [] := by
        rw [List.eq_nil_iff_forall_not_mem]
        intro item member
        have missing : item ∈ carrier.filter (· ∉ total) := by
          simpa using inside item member
        rw [List.length_eq_zero_iff.mp (Nat.le_zero.mp enough)] at missing
        cases missing
      simp [waves, noneLeft]
  | succ fuel induction =>
      rw [waves]
      split_ifs with empty
      · simp [empty]
      · have later :
            ∀ item ∈ (next.flatMap successors).dedup.filter (· ∉ next ∪ total),
            item ∈ carrier ∧ item ∉ next ∪ total := by
          intro item member
          obtain ⟨isSuccessor, isNew⟩ := List.mem_filter.mp member
          obtain ⟨first, inNext, step⟩ :=
            List.mem_flatMap.mp (List.mem_dedup.mp isSuccessor)
          exact ⟨closed first (inside first inNext).1 item
            step, by simpa using isNew⟩
        have stillSettled : ∀ first ∈ next ∪ total, ∀ second ∈ successors first,
            second ∈ next ∪ total ∨
              second ∈ (next.flatMap successors).dedup.filter
                (· ∉ next ∪ total) := by
          intro first member second step
          by_cases known : second ∈ next ∪ total
          · exact .inl known
          · rcases List.mem_union_iff.mp member with inNext | inTotal
            · refine .inr (List.mem_filter.mpr ⟨?_, by simpa using known⟩)
              exact List.mem_dedup.mpr
                (List.mem_flatMap.mpr ⟨first, inNext, step⟩)
            · rcases settled first inTotal second step with inside | inNext
              · exact absurd (List.mem_union_iff.mpr (.inr inside)) known
              · exact absurd (List.mem_union_iff.mpr (.inl inNext)) known
        have fewer : (carrier.filter (· ∉ next ∪ total)).length ≤ fuel := by
          obtain ⟨item, member⟩ := List.exists_mem_of_ne_nil next empty
          obtain ⟨inCarrier, isNew⟩ := inside item member
          have shorter := length_filter_notMem_lt
            (fun other isOld => List.mem_union_iff.mpr (.inr isOld)) inCarrier
            isNew
            (List.mem_union_iff.mpr (.inl member))
          omega
        rw [induction later stillSettled fewer]
        constructor
        · rintro (known | ⟨second, isLater, path⟩)
          · rcases List.mem_union_iff.mp known with inNext | inTotal
            · exact .inr ⟨point, inNext, .refl⟩
            · exact .inl inTotal
          · obtain ⟨first, inNext, step⟩ := List.mem_flatMap.mp
              (List.mem_dedup.mp (List.mem_filter.mp isLater).1)
            exact .inr ⟨first, inNext, path.head step⟩
        · rintro (inTotal | ⟨first, inNext, path⟩)
          · exact .inl (List.mem_union_iff.mpr (.inr inTotal))
          · exact reached_of_settled stillSettled
              (List.mem_union_iff.mpr (.inl inNext)) path

end Waves

theorem Acyclic.exists_minimal {α : Type} {edge : α → α → Prop}
    (acyclic : Acyclic edge) {items : List α} (nonempty : items ≠ []) :
    ∃ item ∈ items, ∀ other ∈ items, ¬ edge other item := by
  classical
  obtain ⟨item, member, least⟩ :=
    (measure (rankIn edge items.toFinset)).wf.has_min
    {item | item ∈ items} (List.exists_mem_of_ne_nil items nonempty)
  refine ⟨item, member, fun other isOther step => ?_⟩
  exact least other isOther
    (acyclic.rankIn_lt step (List.mem_toFinset.mpr isOther))

end Nvbmc.Library
