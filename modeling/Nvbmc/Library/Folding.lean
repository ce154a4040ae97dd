import Mathlib.Data.List.Induction

/-!
# Loops that may fail

What a loop of steps that may fail has done when it comes to its end.
-/

namespace Nvbmc.Library

variable {ε α β σ : Type}

theorem bind_eq_ok {x : Except ε α} {f : α → Except ε β} {result : β} :
    (x >>= f) = .ok result ↔ ∃ value, x = .ok value ∧ f value = .ok result := by
  cases x with
  | error error =>
      constructor
      · intro succeeded
        cases succeeded
      · rintro ⟨value, isValue, _⟩
        cases isValue
  | ok value =>
      constructor
      · exact fun succeeded => ⟨value, rfl, succeeded⟩
      · rintro ⟨other, isValue, succeeded⟩
        cases isValue
        exact succeeded

variable {visit : σ → α → Except ε σ} {motive : List α → σ → Prop}
  {items : List α}

theorem foldlM_rule {first last : σ} (start : motive [] first)
    (step : ∀ done item state state', done ++ [item] <+: items →
      motive done state →
      visit state item = .ok state' → motive (done ++ [item]) state')
    (ran : items.foldlM visit first = .ok last) : motive items last := by
  induction items using List.reverseRecOn generalizing last with
  | nil =>
      cases ran
      exact start
  | append_singleton before item induction =>
      rw [List.foldlM_append] at ran
      obtain ⟨state, folded, ran⟩ := bind_eq_ok.mp ran
      rw [List.foldlM_cons] at ran
      obtain ⟨state', visited, ended⟩ := bind_eq_ok.mp ran
      cases ended
      have soFar := induction (fun done other now next isPart holds ran =>
        step done other now next (isPart.trans (List.prefix_append _ _)) holds
          ran) folded
      exact step before item state _ List.prefix_rfl soFar visited

theorem mapM_eq_ok {f : α → Except ε β} {results : List β}
    (ran : items.mapM f = .ok results) : ∀ result,
      result ∈ results ↔ ∃ item ∈ items, f item = .ok result := by
  induction items generalizing results with
  | nil =>
      rw [List.mapM_nil] at ran
      cases ran
      simp
  | cons item rest induction =>
      rw [List.mapM_cons] at ran
      obtain ⟨value, isValue, ran⟩ := bind_eq_ok.mp ran
      obtain ⟨values, areValues, ended⟩ := bind_eq_ok.mp ran
      cases ended
      intro result
      have reversed : value = result ↔ result = value := eq_comm
      simp [induction areValues, isValue, reversed]

def Results (returned : σ → Prop) (raised : ε → Prop) : Except ε σ → Prop
  | .ok state => returned state
  | .error error => raised error

theorem foldlM_results {raised : ε → Prop} {first : σ} (start : motive [] first)
    (step : ∀ done item state, done ++ [item] <+: items → motive done state →
      Results (motive (done ++ [item])) raised (visit state item)) :
    Results (motive items) raised (items.foldlM visit first) := by
  induction items using List.reverseRecOn with
  | nil => exact start
  | append_singleton before item induction =>
      have soFar := induction fun done other state isPart =>
        step done other state (isPart.trans (List.prefix_append _ _))
      rw [List.foldlM_append]
      cases folded : before.foldlM visit first with
      | error error =>
          rw [folded] at soFar
          exact soFar
      | ok state =>
          rw [folded] at soFar
          have last := step before item state List.prefix_rfl soFar
          change Results _ _ (visit state item >>= pure)
          rw [bind_pure]
          exact last

theorem foldlM_congr_of_ne {visit visit' : σ → α → Except ε σ} {stop : ε}
    (same : ∀ state item, visit state item ≠ .error stop →
      visit' state item = visit state item)
    {state : σ} (ended : items.foldlM visit state ≠ .error stop) :
    items.foldlM visit' state = items.foldlM visit state := by
  induction items generalizing state with
  | nil => rfl
  | cons item items induction =>
      rw [List.foldlM_cons] at ended
      rw [List.foldlM_cons, List.foldlM_cons]
      cases visited : visit state item with
      | error error =>
          have isSame := same state item (by
            intro cut
            rw [cut] at ended
            exact ended rfl)
          rw [isSame, visited]
          rfl
      | ok next =>
          rw [visited] at ended
          have isSame := same state item (by
            rw [visited]
            intro cut
            cases cut)
          rw [isSame, visited]
          exact induction ended

end Nvbmc.Library
