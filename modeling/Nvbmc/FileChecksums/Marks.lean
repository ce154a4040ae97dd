import Nvbmc.FileChecksums.Checksums

/-!
# The mark in a path

Where the mark stands when a directory's path is replaced in the path of a file
below it, and what is found behind it.
-/

namespace Nvbmc.FileChecksums

open Nvbmc.Library SigGen

def relPath (names : List Text) : Text :=
  ['/'].intercalate names.reverse

/-- The directory's path has no mark of its own, or the relative path happens to
stand between its first mark and the next. -/
def FirstMark (pth rel : Text) : Prop :=
  ¬ marker <:+: pth ++ ['/', '.'] ∨
    ∃ front after, ¬ marker <:+: front ++ ['/', '.'] ∧
      pth ++ marker ++ rel = front ++ marker ++ (rel ++ marker ++ after)

structure LegibleBelow (pth : Text) (names : List Text) : Prop where
  first : FirstMark pth (relPath names)
  once : ¬ pth <:+: '/' :: relPath names

section Cut

variable {text before after : Text}

def cutAtMarker (text : Text) : Text :=
  text.take ((find marker text 0).getD text.length)

theorem cutAtMarker_isPrefix : cutAtMarker text <+: text := List.take_prefix ..

theorem length_cutAtMarker_le (marked : text = before ++ marker ++ after) :
    (cutAtMarker text).length ≤ before.length := by
  have occurs : Occurs marker text before.length := by
    rw [Occurs, marked, List.append_assoc, List.drop_left]
    exact List.prefix_append ..
  obtain ⟨index, found⟩ := Option.ne_none_iff_exists'.mp
    (find_ne_none (by simp [marker]) (Nat.zero_le _) occurs)
  have isFirst := (foundAt_of_find found).first before.length (Nat.zero_le _)
  rw [cutAtMarker, found, Option.getD_some, List.length_take]
  by_contra longer
  exact isFirst (by omega) occurs

theorem cutAtMarker_append : cutAtMarker text = text ∨
    ∃ rest, text = cutAtMarker text ++ marker ++ rest := by
  rw [cutAtMarker]
  cases found : find marker text 0 with
  | none => exact .inl (by simp)
  | some index =>
      right
      obtain ⟨rest, split⟩ := (foundAt_of_find found).occurs
      refine ⟨rest, ?_⟩
      rw [Option.getD_some, List.append_assoc, split, List.take_append_drop]

theorem behindMarker_eq (file : Text) : behindMarker file =
    cutAtMarker (file.drop ((find marker file 0).getD 0 + marker.length)) :=
  rfl

theorem find_marker (free : ¬ marker <:+: before ++ ['/', '.']) (rest : Text) :
    find marker (before ++ marker ++ rest) 0 = some before.length := by
  apply find_eq_some (Nat.zero_le _)
  · simp
  · rw [Occurs, List.append_assoc, List.drop_left]
    exact List.prefix_append ..
  · intro earlier _ less occurs
    have part : before ++ ['/', '.'] <+: before ++ marker ++ rest :=
      ⟨'/' :: rest, by simp [marker]⟩
    apply free (occurs.of_longer part _).within
    simp only [marker, List.length_append, List.length_cons, List.length_nil]
    omega

theorem behindMarker_append (free : ¬ marker <:+: before ++ ['/', '.'])
    (rest : Text) :
    behindMarker (before ++ marker ++ rest) = cutAtMarker rest := by
  have length : before.length + marker.length = (before ++ marker).length := by
    simp
  rw [behindMarker_eq, find_marker free, Option.getD_some, length,
    List.drop_left]

theorem cutAtMarker_marked (free : ¬ marker <:+: before ++ ['/', '.'])
    (rest : Text) : cutAtMarker (before ++ marker ++ rest) = before := by
  rw [cutAtMarker, find_marker free, Option.getD_some, List.append_assoc,
    List.take_left]

theorem cutAtMarker_of_free (free : ¬ marker <:+: text) :
    cutAtMarker text = text := by
  rw [cutAtMarker, find_eq_none free, Option.getD_none, List.take_length]

theorem exists_first_marker (inside : marker <:+: text) :
    ∃ front after, text = front ++ marker ++ after ∧
      ¬ marker <:+: front ++ ['/', '.'] := by
  obtain ⟨front, after, split, first⟩ := exists_first_occurrence inside
  refine ⟨front, after, split, fun earlier => ?_⟩
  obtain ⟨index, fits, occurs⟩ := exists_occurs_of_isInfix earlier
  have part : front ++ ['/', '.'] <+: text :=
    ⟨'/' :: after, by simp [split, marker]⟩
  simp only [marker, List.length_append, List.length_cons, List.length_nil]
    at fits
  exact first index (by omega) (occurs.trans (part.drop index))

theorem behindMarker_eq_iff {pth rel : Text}
    (plain : ¬ marker <:+: rel ++ ['/', '.']) :
    behindMarker (pth ++ marker ++ rel) = rel ↔ FirstMark pth rel := by
  constructor
  · intro right
    by_contra neither
    rw [FirstMark, not_or, not_not] at neither
    obtain ⟨own, coincides⟩ := neither
    have inside : marker <:+: pth ++ marker ++ rel :=
      ⟨pth, rel, rfl⟩
    obtain ⟨front, after, split, free⟩ := exists_first_marker inside
    rw [split, behindMarker_append free] at right
    rcases @cutAtMarker_append after with uncut | ⟨rest, cut⟩
    · have same : front = pth := by
        rw [uncut] at right
        rw [right] at split
        exact List.append_cancel_right (List.append_cancel_right split).symm
      exact free (same ▸ own)
    · rw [right] at cut
      exact coincides ⟨front, rest, free, by rw [split, ← cut]⟩
  · rintro (free | ⟨front, after, free, split⟩)
    · rw [behindMarker_append free]
      exact cutAtMarker_of_free fun inside =>
        plain (inside.trans (List.prefix_append ..).isInfix)
    · rw [split, behindMarker_append free, cutAtMarker_marked plain]

end Cut

section Names

variable {pth name : Text} {names : List Text}

theorem components_relPath (plain : ∀ name ∈ names, Plain name)
    (nonempty : names ≠ []) : components (relPath names) = names.reverse := by
  rw [components, relPath, List.splitOn_intercalate]
  · intro name member
    exact (plain name (List.mem_reverse.mp member)).noSlash
  · simpa using nonempty

theorem pathBelow_eq (nonempty : names ≠ []) :
    pathBelow pth names = pth ++ '/' :: relPath names := by
  induction names with
  | nil => exact absurd rfl nonempty
  | cons name names induction =>
      cases names with
      | nil => simp [pathBelow, relPath]
      | cons other names =>
          rw [pathBelow, induction (List.cons_ne_nil _ _), relPath, relPath,
            List.reverse_cons (a := name),
            intercalate_append_singleton (by simp)]
          simp

theorem walkPath_stands {base : Text} (stands : Stands base pth [])
    (plain : ∀ name ∈ names, Plain name) (nonempty : names ≠ []) :
    Host.walkPath pth names = pathBelow base names := by
  induction names with
  | nil => exact absurd rfl nonempty
  | cons name names induction =>
      rw [List.forall_mem_cons] at plain
      cases names with
      | nil => exact joinPaths_plain stands plain.2 plain.1
      | cons other names =>
          rw [Host.walkPath, induction plain.2 (List.cons_ne_nil _ _)]
          exact joinPaths_plain (.below other names) plain.2 plain.1

theorem joinPaths_dot (nonempty : pth ≠ []) (last : pth.getLast? ≠ some '/') :
    joinPaths pth dot = pth ++ ['/', '.'] := by
  rw [joinPaths, if_neg (by simp [isabs, dot]),
    if_neg (not_or.mpr ⟨nonempty, last⟩), dot]

theorem plain_of_mem_components (plain : ∀ name ∈ names, Plain name)
    (nonempty : names ≠ [])
    (member : name ∈ components (relPath names)) : Plain name := by
  rw [components_relPath plain nonempty, List.mem_reverse] at member
  exact plain name member

theorem marker_notIn_relPath (plain : ∀ name ∈ names, Plain name)
    (nonempty : names ≠ []) : ¬ marker <:+: '/' :: relPath names := by
  intro ⟨before, after, split⟩
  have inner : components ('/' :: relPath names) =
      components before ++ (components ['.'] ++ components after) := by
    rw [← components_append, ← components_append, ← split]
    simp [marker]
  have outer : components ('/' :: relPath names) =
      [] :: components (relPath names) :=
    components_slash _
  have isDot : dot ∈ components ('/' :: relPath names) := by
    rw [inner, @components_of_noSlash ['.'] (by decide)]
    simp [dot]
  rw [outer] at isDot
  rcases List.mem_cons.mp isDot with impossible | member
  · cases impossible
  · exact (plain_of_mem_components plain nonempty member).noDot rfl

theorem relPath_start (plain : ∀ name ∈ names, Plain name)
    (nonempty : names ≠ [])
    (rest : Text) : relPath names ≠ '.' :: '/' :: rest ∧
      relPath names ≠ ['.'] := by
  constructor
  · intro same
    have split : components ('.' :: '/' :: rest) = components dot ++
        components rest := by
      rw [← components_append]
      rfl
    have member : dot ∈ components (relPath names) := by
      rw [same, split, components_of_noSlash (by decide)]
      simp
    exact (plain_of_mem_components plain nonempty member).noDot rfl
  · intro same
    have member : dot ∈ components (relPath names) := by
      rw [same, components_of_noSlash (by decide)]
      simp [dot]
    exact (plain_of_mem_components plain nonempty member).noDot rfl

theorem relPath_ne_nil (plain : ∀ name ∈ names, Plain name)
    (nonempty : names ≠ []) : relPath names ≠ [] := by
  intro empty
  have member : [] ∈ components (relPath names) := by
    rw [empty, components_of_noSlash List.not_mem_nil]
    exact List.mem_singleton_self _
  exact (plain_of_mem_components plain nonempty member).nonempty rfl

theorem relPath_end (plain : ∀ name ∈ names, Plain name) (nonempty : names ≠ [])
    (front : Text) : relPath names ≠ front ++ ['/'] := by
  intro same
  have member : [] ∈ components (relPath names) := by
    rw [same, components_append,
      components_of_noSlash (@List.not_mem_nil _ '/')]
    simp
  exact (plain_of_mem_components plain nonempty member).nonempty rfl

theorem exists_of_marker_across (last : pth.getLast? ≠ some '/')
    (free : ¬ marker <:+: pth) (across : marker <:+: pth ++ ['/', '.']) :
    ∃ front, pth = front ++ ['/', '.'] := by
  obtain ⟨index, fits, occurs⟩ := exists_occurs_of_isInfix across
  have short : pth.length < index + marker.length := by
    by_contra inside
    exact free (occurs.of_longer (List.prefix_append ..) (by omega)).within
  simp only [marker, List.length_append, List.length_cons, List.length_nil]
    at fits short
  obtain ⟨rest, starts⟩ := occurs
  have split : pth = pth.take index ++ pth.drop index :=
    (List.take_append_drop ..).symm
  have length : (pth.drop index).length = pth.length - index := List.length_drop
  rw [List.drop_append_of_le_length (by omega)] at starts
  obtain ⟨dropped, tail⟩ : ∃ dropped, pth.drop index = dropped := ⟨_, rfl⟩
  rw [tail] at starts split length
  match dropped with
  | [] =>
      rw [List.length_nil] at length
      omega
  | [first] =>
      have isSlash : first = '/' := by
        simpa [marker] using (List.cons.inj starts).1.symm
      apply absurd _ last
      rw [split, isSlash]
      simp
  | first :: second :: more =>
      have noMore : more = [] := by
        simp only [List.length_cons] at length
        exact List.length_eq_zero_iff.mp (by omega)
      have isSlash : first = '/' := by
        simpa [marker] using (List.cons.inj starts).1.symm
      have isDot : second = '.' := by
        simpa [marker] using (List.cons.inj (List.cons.inj starts).2).1.symm
      exact ⟨pth.take index, by rw [← isSlash, ← isDot, ← noMore, ← split]⟩

theorem marker_notIn_end (plain : ∀ name ∈ names, Plain name)
    (nonempty : names ≠ []) : ¬ marker <:+: relPath names ++ ['/', '.'] := by
  intro across
  have free : ¬ marker <:+: relPath names := fun inside =>
    marker_notIn_relPath plain nonempty
      (inside.trans (List.suffix_cons ..).isInfix)
  have last : (relPath names).getLast? ≠ some '/' := by
    intro isSlash
    obtain ⟨front, split⟩ := List.getLast?_eq_some_iff.mp isSlash
    exact relPath_end plain nonempty front split
  obtain ⟨front, split⟩ := exists_of_marker_across last free across
  have member : dot ∈ components (relPath names) := by
    rw [split, show front ++ ['/', '.'] = front ++ '/' :: dot from rfl,
      components_append, @components_of_noSlash dot (by decide)]
    simp
  exact (plain_of_mem_components plain nonempty member).noDot rfl

theorem markedPath_eq (pthNonempty : pth ≠ []) (last : pth.getLast? ≠ some '/')
    (plain : ∀ name ∈ names, Plain name) (nonempty : names ≠ []) :
    Host.markedPath pth names =
      pth ++ ['/', '.'] ++ replaceAll pth (pth ++ ['/', '.'])
        ('/' :: relPath names) := by
  rw [Host.markedPath, walkPath_stands (.base pthNonempty last) plain nonempty,
    pathBelow_eq nonempty, joinPaths_dot pthNonempty last,
    replaceAll_start pthNonempty]

theorem markedPath_of_once (pthNonempty : pth ≠ [])
    (last : pth.getLast? ≠ some '/') (plain : ∀ name ∈ names, Plain name)
    (nonempty : names ≠ [])
    (once : ¬ pth <:+: '/' :: relPath names) :
    Host.markedPath pth names = pth ++ marker ++ relPath names := by
  rw [markedPath_eq pthNonempty last plain nonempty, replaceAll_of_absent once]
  simp [marker]

theorem replaceAll_slash (nonempty : pth ≠ []) (rest : Text) :
    ∃ after, replaceAll pth (pth ++ ['/', '.']) ('/' :: rest) =
      '/' :: after := by
  rw [replaceAll, replaceFrom]
  split_ifs with starts
  · rw [List.isPrefixOf_iff_prefix] at starts
    cases pth with
    | nil => exact absurd rfl nonempty
    | cons first pth =>
        have isSlash := (List.cons_prefix_cons.mp starts).1
        exact ⟨_, by rw [isSlash]; rfl⟩
  · exact ⟨_, rfl⟩

theorem cut_of_marked (plain : ∀ name ∈ names, Plain name)
    (nonempty : names ≠ [])
    {after : Text} : cutAtMarker ('.' :: '/' :: after) ≠ relPath names := by
  intro same
  have part := @cutAtMarker_isPrefix ('.' :: '/' :: after)
  rw [same] at part
  match found : relPath names with
  | [] => exact relPath_ne_nil plain nonempty found
  | [first] =>
      rw [found] at part
      have isDot := (List.cons_prefix_cons.mp part).1
      exact (relPath_start plain nonempty []).2 (by rw [found, isDot])
  | first :: second :: rest =>
      rw [found] at part
      obtain ⟨isDot, more⟩ := List.cons_prefix_cons.mp part
      have isSlash := (List.cons_prefix_cons.mp more).1
      exact (relPath_start plain nonempty rest).1
        (by rw [found, isDot, isSlash])

section Again

variable (pthNonempty : pth ≠ []) (plain : ∀ name ∈ names, Plain name)
  (nonempty : names ≠ [])
include pthNonempty plain nonempty

/-- The first mark is the one behind the directory, and another one follows:
what stands between them ends where the directory's path occurs again, or has a
dot more there. -/
theorem cut_of_again {front rest after : Text}
    (split : relPath names = front ++ rest)
    (replaced : after = replaceAll pth (pth ++ ['/', '.']) rest) :
    cutAtMarker (front ++ '/' :: '.' :: after) ≠ relPath names := by
  intro same
  have part : rest <+: '/' :: '.' :: after := by
    have whole : front ++ rest <+: front ++ '/' :: '.' :: after := by
      rw [← split, ← same]
      exact cutAtMarker_isPrefix
    exact (List.prefix_append_right_inj front).mp whole
  have length : (cutAtMarker (front ++ '/' :: '.' :: after)).length =
      front.length + rest.length := by
    rw [same, split, List.length_append]
  match rest with
  | [] =>
      have nothing : after = [] := replaced
      rcases @cutAtMarker_append (front ++ '/' :: '.' :: after) with uncut |
        ⟨more, cut⟩
      · rw [uncut] at length
        simp at length
      · have lengths := congrArg List.length cut
        rw [nothing] at lengths length
        simp only [List.length_append, length, marker, List.length_cons,
          List.length_nil] at lengths
        omega
  | [last] =>
      have isSlash := (List.cons_prefix_cons.mp part).1
      exact relPath_end plain nonempty front (by rw [split, isSlash])
  | first :: second :: rest =>
      have isSlash := (List.cons_prefix_cons.mp part).1
      obtain ⟨more, starts⟩ := replaceAll_slash pthNonempty (second :: rest)
      have marked : front ++ '/' :: '.' :: after = front ++ marker ++ more := by
        rw [replaced, isSlash, starts]
        simp [marker]
      have bound := length_cutAtMarker_le marked
      rw [length, List.length_cons] at bound
      omega

theorem not_again (last : pth.getLast? ≠ some '/')
    (right : behindMarker (Host.markedPath pth names) = relPath names) :
    ¬ pth <:+: '/' :: relPath names := by
  intro again
  obtain ⟨before, rest, split, first⟩ := exists_first_occurrence again
  obtain ⟨front, start⟩ : ∃ front, before ++ pth = '/' :: front := by
    rw [split] at again
    cases whole : before ++ pth with
    | nil => exact absurd (List.append_eq_nil_iff.mp whole).2 pthNonempty
    | cons char front =>
        rw [whole, List.cons_append] at split
        exact ⟨front, by rw [(List.cons.inj split).1]⟩
  have relSplit : relPath names = front ++ rest := by
    rw [start, List.cons_append] at split
    exact (List.cons.inj split).2
  rw [markedPath_eq pthNonempty last plain nonempty, split,
    replaceAll_before pthNonempty (split ▸ first), ← List.append_assoc before,
    start] at right
  by_cases marked : marker <:+: pth ++ ['/', '.']
  · have free : ¬ marker <:+: pth :=
      fun inside => marker_notIn_relPath plain nonempty (inside.trans again)
    obtain ⟨outer, ending⟩ := exists_of_marker_across last free marked
    rw [ending] at right free
    have regroup : ∀ text : Text, outer ++ ['/', '.'] ++ ['/', '.'] ++ '/' ::
        text = outer ++ marker ++ '.' :: '/' :: text := by
      simp [marker]
    rw [List.append_assoc ('/' :: front), List.cons_append, regroup,
      behindMarker_append free] at right
    exact cut_of_marked plain nonempty right
  · have regroup : ∀ text : Text, pth ++ ['/', '.'] ++
        ('/' :: front ++ ['/', '.'] ++ text) =
        pth ++ marker ++ (front ++ '/' :: '.' :: text) := by
      simp [marker]
    rw [regroup, behindMarker_append marked] at right
    exact cut_of_again pthNonempty plain nonempty relSplit rfl right

end Again

theorem cleanChecksumFilePath_markedPath (pthNonempty : pth ≠ [])
    (last : pth.getLast? ≠ some '/')
    (plain : ∀ name ∈ names, Plain name) (nonempty : names ≠ []) :
    cleanChecksumFilePath (Host.markedPath pth names) = '.' :: '/' ::
      relPath names ↔ LegibleBelow pth names := by
  have marked : marker <:+: Host.markedPath pth names := by
    obtain ⟨after, starts⟩ := replaceAll_slash pthNonempty (relPath names)
    rw [markedPath_eq pthNonempty last plain nonempty, starts]
    exact ⟨pth, after, by simp [marker]⟩
  have unmarked := marker_notIn_end plain nonempty
  rw [cleanChecksumFilePath, if_pos marked, List.cons_inj_right,
    List.cons_inj_right]
  constructor
  · intro right
    have once := not_again pthNonempty plain nonempty last right
    rw [markedPath_of_once pthNonempty last plain nonempty once] at right
    exact ⟨(behindMarker_eq_iff unmarked).mp right, once⟩
  · intro ⟨first, once⟩
    rw [markedPath_of_once pthNonempty last plain nonempty once]
    exact (behindMarker_eq_iff unmarked).mpr first

end Names

end Nvbmc.FileChecksums
