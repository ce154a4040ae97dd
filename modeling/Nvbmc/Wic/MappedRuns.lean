import Nvbmc.Wic.SparseCopy

/-!
# The runs of mapped blocks

What `FilemapFiemap` yields for an area of a file.  The extents of the answers
make up pieces of mapped blocks, and pieces that touch are joined, so that a run
of blocks is yielded as a whole.
-/

namespace Nvbmc.Wic

/-- Mapped blocks of an area that cannot be extended. -/
structure IsRun (mapped : ℕ → Bool) (start limit : ℕ) (range : Range) :
    Prop where
  after : start ≤ range.first
  nonempty : range.first < range.stop
  within : range.stop ≤ limit
  inside : ∀ block, range.first ≤ block → block < range.stop →
    mapped block = true
  left : start < range.first → mapped (range.first - 1) = false
  right : range.stop < limit → mapped range.stop = false

def AreRuns (mapped : ℕ → Bool) (start limit : ℕ) (ranges : List Range) :
    Prop :=
  ranges.Pairwise (fun first second => first.stop ≤ second.first) ∧
    ∀ range, range ∈ ranges ↔ IsRun mapped start limit range

/-- The runs from a block on, each with the gap in front of it. -/
def RunsFrom (mapped : ℕ → Bool) (limit : ℕ) : ℕ → List Range → Prop
  | block, [] => ∀ other, block ≤ other → other < limit → mapped other = false
  | block, range :: ranges =>
      IsRun mapped block limit range ∧
        (∀ other, block ≤ other → other < range.first → mapped other = false) ∧
          RunsFrom mapped limit range.stop ranges

section Runs

variable {mapped : ℕ → Bool} {limit block : ℕ} {range other : Range}
  {ranges : List Range}

theorem isRun_iff (run : IsRun mapped block limit range)
    (gap : ∀ other, block ≤ other → other < range.first →
      mapped other = false) :
    IsRun mapped block limit other ↔
      other = range ∨ IsRun mapped range.stop limit other := by
  have length := run.nonempty
  have front := run.after
  have within := run.within
  constructor
  · intro found
    have length' := found.nonempty
    have within' := found.within
    have start : mapped other.first = true := found.inside _ (le_refl _) length'
    have behind : range.first ≤ other.first := by
      by_contra before
      rw [gap other.first found.after (not_le.mp before)] at start
      cases start
    by_cases apart : range.stop ≤ other.first
    · exact .inr ⟨apart, length', within', found.inside,
        fun _ => found.left (by omega), found.right⟩
    · left
      have first : other.first = range.first := by
        by_contra different
        have before := run.inside (other.first - 1) (by omega) (by omega)
        rw [found.left (by omega)] at before
        cases before
      have notBefore : ¬ other.stop < range.stop := by
        intro less
        have inside := run.inside other.stop (by omega) less
        rw [found.right (by omega)] at inside
        cases inside
      have notAfter : ¬ range.stop < other.stop := by
        intro less
        have inside := found.inside range.stop (by omega) less
        rw [run.right (by omega)] at inside
        cases inside
      have stop : other.stop = range.stop := by omega
      cases other
      cases range
      simp_all only
  · rintro (rfl | found)
    · exact run
    · have length' := found.nonempty
      have within' := found.within
      have apart := found.after
      refine ⟨by omega, length', within', found.inside, fun _ => ?_,
        found.right⟩
      by_cases touches : range.stop < other.first
      · exact found.left touches
      · have same : other.first = range.stop := by omega
        have start := found.inside _ (le_refl _) length'
        rw [same, run.right (by omega)] at start
        cases start

theorem RunsFrom.areRuns (runs : RunsFrom mapped limit block ranges) :
    AreRuns mapped block limit ranges := by
  induction ranges generalizing block with
  | nil =>
      refine ⟨List.Pairwise.nil, fun range => ⟨nofun, fun run => ?_⟩⟩
      have start := run.inside _ (le_refl _) run.nonempty
      rw [runs range.first run.after (run.nonempty.trans_le run.within)]
        at start
      cases start
  | cons range ranges induction =>
      obtain ⟨run, gap, later⟩ := runs
      obtain ⟨ordered, members⟩ := induction later
      refine ⟨List.Pairwise.cons ?_ ordered, fun other => ?_⟩
      · exact fun other member => ((members other).mp member).after
      · rw [List.mem_cons, members, isRun_iff run gap]

def Filled (mapped : ℕ → Bool) (ranges : List Range) : Prop :=
  ∀ range ∈ ranges, range.first < range.stop ∧
    ∀ block, range.first ≤ block → block < range.stop → mapped block = true

theorem filled_nil {mapped : ℕ → Bool} : Filled mapped [] :=
  fun _ member => absurd member List.not_mem_nil

theorem runsFrom_mergeRanges
    (covers : Covers mapped limit block (range :: ranges))
    (filled : Filled mapped (range :: ranges))
    (left : block < range.first → mapped (range.first - 1) = false) :
    RunsFrom mapped limit block (mergeRanges range ranges) := by
  induction ranges generalizing range block with
  | nil =>
      obtain ⟨behind, _, within, gap, rest⟩ := covers
      obtain ⟨length, inside⟩ := filled range List.mem_cons_self
      refine ⟨⟨behind, length, within, inside, left, ?_⟩, gap, rest⟩
      exact fun before => rest _ (le_refl _) before
  | cons next ranges induction =>
      obtain ⟨behind, _, within, gap, later⟩ := covers
      obtain ⟨length, inside⟩ := filled range List.mem_cons_self
      have filledLater : Filled mapped (next :: ranges) := fun other member =>
        filled other (List.mem_cons_of_mem _ member)
      rw [mergeRanges]
      by_cases joined : range.stop = next.first
      · rw [if_pos joined]
        obtain ⟨_, _, within', _, rest⟩ := later
        obtain ⟨length', inside'⟩ := filledLater next List.mem_cons_self
        have whole : range.first ≤ next.stop := by omega
        have joinedCovers : Covers mapped limit block
            (⟨range.first, next.stop⟩ :: ranges) :=
          ⟨behind, whole, within', gap, rest⟩
        apply induction joinedCovers _ left
        intro other member
        rcases List.mem_cons.mp member with rfl | member
        · refine ⟨by simp only; omega, fun block first stop => ?_⟩
          by_cases front : block < range.stop
          · exact inside block first front
          · exact inside' block (by omega) stop
        · exact filledLater other (List.mem_cons_of_mem _ member)
      · rw [if_neg joined]
        have apart := later.1
        have gap' := later.2.2.2.1
        have inRange := later.2.2.1
        have order' := later.2.1
        refine ⟨⟨behind, length, within, inside, left, fun before => ?_⟩, gap,
          induction later filledLater fun before => ?_⟩
        · exact gap' _ (le_refl _) (by omega)
        · exact gap' _ (by omega) (by omega)

end Runs

section Image

variable {image : Image} {limit block : ℕ}

theorem filled_extentRanges {extents : List Extent} (before : block < limit)
    (members : ∀ extent ∈ extents, extent ∈ image.extents ∧
      block < extent.stop) :
    Filled image.mapped (extentRanges limit block extents).1 := by
  induction extents with
  | nil => exact filled_nil
  | cons extent extents induction =>
      rw [extentRanges]
      by_cases far : limit ≤ extent.block
      · rw [if_pos far]
        exact filled_nil
      · rw [if_neg far]
        obtain ⟨known, ahead⟩ := members extent List.mem_cons_self
        have positive := image.nonempty extent known
        intro range member
        rcases List.mem_cons.mp member with rfl | later
        · constructor
          · simp only [Extent.stop] at ahead ⊢
            omega
          · intro other first stop
            simp only at first stop
            exact mapped_iff.mpr ⟨extent, known, by omega, by omega⟩
        · exact induction (fun other known =>
            members other (List.mem_cons_of_mem _ known)) range later

/-- Each range of `_do_get_mapped_ranges` is mapped. -/
theorem filled_doGetMappedRanges {count fuel : ℕ} {ranges : List Range}
    (fits : limit ≤ image.blocksCnt)
    (runs : doGetMappedRanges image limit count fuel block = .ok ranges) :
    Filled image.mapped ranges := by
  induction fuel generalizing block ranges with
  | zero => cases runs
  | succ fuel induction =>
      rw [doGetMappedRanges] at runs
      by_cases done : limit ≤ block
      · rw [if_pos done] at runs
        cases runs
        exact filled_nil
      · have invoked : image.invokeFiemap block count =
            .ok (image.fiemap block count) := if_neg (by omega)
        have filled := filled_extentRanges (not_le.mp done)
          (fiemap_spec image block count).1
        rw [if_neg done, invoked] at runs
        simp only [bind, Except.bind] at runs
        cases found : (image.fiemap block count).getLast? with
        | none =>
            rw [found] at runs
            cases runs
            exact filled_nil
        | some last =>
            rw [found] at runs
            by_cases ends : (extentRanges limit block
              (image.fiemap block count)).2 = true
            · simp only [ends, if_true] at runs
              cases runs
              exact filled
            · simp only [ends, Bool.false_eq_true, if_false] at runs
              cases later : doGetMappedRanges image limit count fuel
                last.stop with
              | error failure =>
                  rw [later] at runs
                  cases runs
              | ok rest =>
                  rw [later] at runs
                  cases runs
                  have filledLater := induction later
                  intro range member
                  rcases List.mem_append.mp member with here | there
                  · exact filled range here
                  · exact filledLater range there

/-- `FilemapFiemap` yields the runs of an area, unless there is none. -/
theorem getMappedRanges_runs_iff {start count : ℕ}
    (fits : start + count ≤ image.blocksCnt) :
    (∃ ranges, getMappedRanges image .fiemap start count = .ok ranges ∧
        AreRuns image.mapped start (start + count) ranges) ↔
      ∃ block, start ≤ block ∧ block < start + count ∧
        image.mapped block = true := by
  obtain ⟨pieces, runs, covers⟩ : ∃ ranges, doGetMappedRanges image
      (start + count) count (count + 1) start = .ok ranges ∧
      Covers image.mapped (start + count) start ranges :=
    doGetMappedRanges_covers fits (le_refl _) (Nat.succ_pos _) (by omega)
  have filled := filled_doGetMappedRanges fits runs
  constructor
  · rintro ⟨ranges, yields, _⟩
    by_contra none
    simp only [not_exists, not_and, Bool.not_eq_true] at none
    simp only [getMappedRanges, doGetMappedRanges_of_unmapped fits none]
      at yields
    cases yields
  · rintro ⟨block, behind, before, mapped⟩
    cases pieces with
    | nil =>
        rw [covers block behind before] at mapped
        cases mapped
    | cons range ranges =>
        refine ⟨mergeRanges range ranges, ?_, RunsFrom.areRuns
          (runsFrom_mergeRanges covers filled fun ahead => ?_)⟩
        · simp only [getMappedRanges, runs]
          rfl
        · exact covers.2.2.2.1 _ (by omega) (by omega)

end Image

/-- The blocks of data are one run. -/
theorem runs_data :
    ∃ ranges, getMappedRanges dataImage .fiemap 0 3 = .ok ranges ∧
      AreRuns dataImage.mapped 0 (0 + 3) ranges :=
  (getMappedRanges_runs_iff (by decide)).mpr
    ⟨1, by decide, by decide, by decide⟩

/-- The ranges of a hole do not end, they fail. -/
theorem not_yields_runs_hole :
    ¬ ∀ (image : Image) (start count : ℕ), start + count ≤ image.blocksCnt →
      ∃ ranges, getMappedRanges image .fiemap start count = .ok ranges ∧
        AreRuns image.mapped start (start + count) ranges := by
  intro yields
  obtain ⟨ranges, runs, _⟩ := yields holeImage 0 1 (by decide)
  cases runs

end Nvbmc.Wic
