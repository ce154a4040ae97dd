import Mathlib.Logic.Relation
import Mathlib.Data.List.Basic

/-!
# Marking

Depth first marking of what can be reached from an item.  Whoever marks an item
first goes on to its successors, so the marks set in between are not yet closed;
what holds at every point is that each new item has all its successors marked
once its own call is over.
-/

namespace Nvbmc.Library

variable {α ε : Type} [DecidableEq α]

/-- Marks `item` and, unless it was marked before, goes on to its successors. -/
def mark (endless : ε) (successors : α → Except ε (List α)) :
    ℕ → α → List α → Except ε (List α)
  | 0, _, _ => .error endless
  | fuel + 1, item, marked =>
      if item ∈ marked then .ok marked
      else
        match successors item with
        | .error error => .error error
        | .ok items =>
            items.foldlM
              (fun marked item => mark endless successors fuel item marked)
              (item :: marked)

/-- What marking the items that are pending comes to. -/
structure Marks (next : α → List α) (pending marked marked' : List α) :
    Prop where
  kept : ∀ item ∈ marked, item ∈ marked'
  begun : ∀ item ∈ pending, item ∈ marked'
  reached : ∀ item ∈ marked', item ∈ marked ∨ ∃ first ∈ pending,
    Relation.ReflTransGen (fun first second => second ∈ next first) first item
  settled : ∀ item ∈ marked', item ∉ marked → ∀ other ∈ next item,
    other ∈ marked'

namespace Marks

variable {next : α → List α} {pending later marked marked' marked'' : List α}
  {item : α}

omit [DecidableEq α] in
theorem nil : Marks next [] marked marked :=
  ⟨fun _ => id, by simp, fun _ => .inl, fun _ member new => absurd member new⟩

omit [DecidableEq α] in
theorem of_mem (member : item ∈ marked) : Marks next [item] marked marked :=
  ⟨fun _ => id, by simpa using member, fun _ => .inl,
    fun _ member new => absurd member new⟩

theorem append (first : Marks next pending marked marked')
    (second : Marks next later marked' marked'') :
    Marks next (pending ++ later) marked marked'' := by
  constructor
  · exact fun item member => second.kept item (first.kept item member)
  · intro item member
    rcases List.mem_append.mp member with earlier | isLater
    · exact second.kept item (first.begun item earlier)
    · exact second.begun item isLater
  · intro item member
    rcases second.reached item member with old | ⟨start, isLater, path⟩
    · rcases first.reached item old with older | ⟨start, earlier, path⟩
      · exact .inl older
      · exact .inr ⟨start, List.mem_append_left _ earlier, path⟩
    · exact .inr ⟨start, List.mem_append_right _ isLater, path⟩
  · intro item member new other step
    by_cases old : item ∈ marked'
    · exact second.kept other (first.settled item old new other step)
    · exact second.settled item member old other step

theorem absorb (first : Marks next pending marked marked')
    (second : Marks next later marked' marked'')
    (again : ∀ item ∈ pending, item ∈ later) :
    Marks next later marked marked'' := by
  have both := first.append second
  constructor
  · exact both.kept
  · exact second.begun
  · intro item member
    rcases both.reached item member with old | ⟨start, isPending, path⟩
    · exact .inl old
    · rcases List.mem_append.mp isPending with earlier | isLater
      · exact .inr ⟨start, again start earlier, path⟩
      · exact .inr ⟨start, isLater, path⟩
  · exact both.settled

theorem visit (below : Marks next (next item) (item :: marked) marked') :
    Marks next [item] marked marked' := by
  have isMarked : item ∈ marked' := below.kept item List.mem_cons_self
  constructor
  · exact fun other member => below.kept other (List.mem_cons_of_mem _ member)
  · simpa using isMarked
  · intro other member
    rcases below.reached other member with old | ⟨first, step, path⟩
    · rcases List.mem_cons.mp old with same | older
      · exact .inr ⟨item, by simp, same ▸ .refl⟩
      · exact .inl older
    · exact .inr ⟨item, by simp, path.head step⟩
  · intro other member new
    by_cases same : other = item
    · subst same
      exact below.begun
    · exact below.settled other member (by simp [same, new])

omit [DecidableEq α] in
theorem closed (marks : Marks next pending marked marked')
    (before : ∀ item ∈ marked, ∀ other ∈ next item, other ∈ marked) :
    ∀ item ∈ marked', ∀ other ∈ next item, other ∈ marked' := by
  intro item member other step
  by_cases old : item ∈ marked
  · exact marks.kept other (before item old other step)
  · exact marks.settled item member old other step

omit [DecidableEq α] in
theorem mem_iff (marks : Marks next pending marked marked')
    (before : ∀ item ∈ marked, ∀ other ∈ next item, other ∈ marked) :
    item ∈ marked' ↔ item ∈ marked ∨ ∃ first ∈ pending,
      Relation.ReflTransGen (fun first second => second ∈ next first)
        first item := by
  constructor
  · exact marks.reached item
  · rintro (old | ⟨first, isPending, path⟩)
    · exact marks.kept item old
    · induction path with
      | refl => exact marks.begun first isPending
      | tail _ step member => exact marks.closed before _ member _ step

end Marks

omit [DecidableEq α] in
theorem mem_of_path {next : α → List α} {carrier : List α} {first item : α}
    (closed : ∀ item ∈ carrier, ∀ other ∈ next item, other ∈ carrier)
    (member : first ∈ carrier)
    (path : Relation.ReflTransGen (fun first second => second ∈ next first)
      first item) :
    item ∈ carrier := by
  induction path with
  | refl => exact member
  | tail _ step inside => exact closed _ inside _ step

theorem length_filter_notMem_lt {α : Type} [DecidableEq α]
    {carrier old new : List α} {item : α} (grows : ∀ other ∈ old, other ∈ new)
    (inside : item ∈ carrier) (isNew : item ∉ old)
    (added : item ∈ new) :
    (carrier.filter (· ∉ new)).length < (carrier.filter (· ∉ old)).length := by
  have again : carrier.filter (· ∉ new) = (carrier.filter (· ∉ old)).filter
      (· ∉ new) := by
    rw [List.filter_filter]
    apply List.filter_congr
    intro other _
    have kept := grows other
    by_cases isOld : other ∈ old <;> simp [isOld, kept]
  rw [again, List.length_filter_lt_length_iff_exists]
  exact ⟨item,
    List.mem_filter.mpr ⟨inside, by simpa using isNew⟩, by simpa using added⟩

section Total

variable {endless : ε} {successors : α → Except ε (List α)} {next : α → List α}
  {carrier pending marked : List α}

omit [DecidableEq α] in
theorem Marks.inside {marked' : List α}
    (marks : Marks next pending marked marked')
    (closed : ∀ item ∈ carrier, ∀ other ∈ next item, other ∈ carrier)
    (before : ∀ item ∈ marked, item ∈ carrier)
    (within : ∀ item ∈ pending, item ∈ carrier) :
    ∀ item ∈ marked', item ∈ carrier := by
  intro item member
  rcases marks.reached item member with old | ⟨first, isPending, path⟩
  · exact before item old
  · exact mem_of_path closed (within first isPending) path

theorem foldlM_marks {β : Type} {visit : List α → β → Except ε (List α)}
    (started : β → List α)
    (closed : ∀ item ∈ carrier, ∀ other ∈ next item, other ∈ carrier)
    {turns : List β} (before : ∀ item ∈ marked, item ∈ carrier)
    (within : ∀ turn ∈ turns, ∀ item ∈ started turn, item ∈ carrier)
    (each : ∀ turn ∈ turns, ∀ now, (∀ old ∈ marked, old ∈ now) →
      (∀ old ∈ now, old ∈ carrier) →
      ∃ marked', visit now turn = .ok marked' ∧
        Marks next (started turn) now marked') :
    ∃ marked', turns.foldlM visit marked = .ok marked' ∧
      Marks next (turns.flatMap started) marked marked' := by
  induction turns generalizing marked with
  | nil => exact ⟨marked, rfl, .nil⟩
  | cons turn rest induction =>
      obtain ⟨now, visited, marks⟩ :=
        each turn List.mem_cons_self marked (fun _ => id) before
      obtain ⟨marked', folded, later⟩ := induction
        (marks.inside closed before (within turn List.mem_cons_self))
        (fun other member => within other (List.mem_cons_of_mem _ member))
        (fun other member now' more =>
          each other (List.mem_cons_of_mem _ member) now'
          (fun old isOld => more old (marks.kept old isOld)))
      refine ⟨marked', ?_, marks.append later⟩
      rw [List.foldlM_cons, visited]
      exact folded

theorem mark_marks {item : α} {fuel : ℕ}
    (known : ∀ item ∈ carrier, successors item = .ok (next item))
    (closed : ∀ item ∈ carrier, ∀ other ∈ next item, other ∈ carrier)
    (before : ∀ item ∈ marked, item ∈ carrier) (isInside : item ∈ carrier)
    (enough : (carrier.filter (· ∉ marked)).length < fuel) :
    ∃ marked', mark endless successors fuel item marked = .ok marked' ∧
      Marks next [item] marked marked' := by
  induction fuel generalizing item marked with
  | zero => omega
  | succ fuel induction =>
      rw [mark]
      split_ifs with old
      · exact ⟨marked, rfl, .of_mem old⟩
      · rw [known item isInside]
        have nowBefore : ∀ other ∈ item :: marked, other ∈ carrier := by
          intro other member
          rcases List.mem_cons.mp member with same | older
          · exact same ▸ isInside
          · exact before other older
        have left : ∀ now : List α, (∀ other ∈ item :: marked, other ∈ now) →
            (carrier.filter (· ∉ now)).length < fuel := by
          intro now more
          have fewer := length_filter_notMem_lt
            (fun other isOld => more other (List.mem_cons_of_mem _ isOld))
            isInside old
            (more item List.mem_cons_self)
          omega
        obtain ⟨marked', folded, marks⟩ :=
          foldlM_marks (fun other => [other]) closed nowBefore
          (by simpa using closed item isInside)
          (fun other step now more nowInside =>
            induction nowInside (closed item isInside other step)
              (left now more))
        rw [List.flatMap_singleton'] at marks
        exact ⟨marked', folded, marks.visit⟩

end Total

end Nvbmc.Library
