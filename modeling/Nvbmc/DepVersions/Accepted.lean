import Nvbmc.DepVersions.RoundTrip

/-!
# Accepted strings

What the loop of `explode_dep_versions2` keeps on every string that it accepts.
Its names are those that `explode_deps` takes, and its result is joined and read
back unchanged when every version is a single word and every constraint has a
name.
-/

namespace Nvbmc.DepVersions

open Library

theorem splitOperator_eq_some {i op rest : Text}
    (found : splitOperator i = some (op, rest)) :
    op ∈ operators ∧ i = op ++ rest := by
  rw [splitOperator] at found
  split_ifs at found with isLong isShort
  · cases found
    exact ⟨List.mem_append_left _ isLong, (List.take_append_drop 2 i).symm⟩
  · cases found
    exact ⟨List.mem_append_right _ isShort, (List.take_append_drop 1 i).symm⟩

namespace Scan

variable {scan after : Scan} {i : Text}

def compared (scan : Scan) (op : Text) : Scan :=
  { scan with incmp := false, inversion := true, lastcmp := op }

/-- What a round can do: open a parenthesis, read a comparison, and with it or
later a part of a version, or read a name. -/
theorem step_cases (ran : scan.step i = some after) :
    (i = ['('] ∧ after = { scan with incmp := true }) ∨
    (∃ op rest opening, op ∈ operators ∧ i = opening ++ (op ++ rest) ∧
      (scan.incmp = true ∨ i.head? = some '(') ∧
      after = if rest = [] then scan.compared op
              else (scan.compared op).readVersion rest) ∨
    (scan.incmp = false ∧ scan.inversion = true ∧ i.head? ≠ some '(' ∧
      after = scan.readVersion i) ∨
    (scan.Between ∧ i.head? ≠ some '(' ∧ after = scan.readName i) := by
  rw [step] at ran
  split_ifs at ran with opened alone
  · cases ran
    obtain ⟨rest, rfl⟩ := List.head?_eq_some_iff.mp opened
    exact .inl ⟨by rw [List.tail_cons] at alone; rw [alone], rfl⟩
  · obtain ⟨rest, rfl⟩ := List.head?_eq_some_iff.mp opened
    rw [read, if_pos rfl, List.tail_cons] at ran
    cases found : splitOperator rest with
    | none => simp [found] at ran
    | some split =>
        obtain ⟨op, behind⟩ := split
        obtain ⟨isOperator, isRest⟩ := splitOperator_eq_some found
        simp only [found, Option.bind_eq_bind, Option.bind_some] at ran
        cases ran
        exact .inr (.inl
          ⟨op, behind, ['('],
            isOperator, by rw [isRest]; rfl, .inr opened, rfl⟩)
  · rw [read] at ran
    split_ifs at ran with comparing versioning
    · cases found : splitOperator i with
      | none => simp [found] at ran
      | some split =>
          obtain ⟨op, behind⟩ := split
          obtain ⟨isOperator, isRest⟩ := splitOperator_eq_some found
          simp only [found, Option.bind_eq_bind, Option.bind_some] at ran
          cases ran
          exact .inr (.inl ⟨op, behind, [], isOperator, isRest, .inl comparing,
            rfl⟩)
    · cases ran
      exact .inr (.inr
        (.inl ⟨by simpa using comparing, versioning, opened, rfl⟩))
    · cases ran
      exact .inr (.inr
        (.inr ⟨⟨by simpa using comparing, by simpa using versioning⟩,
        opened, rfl⟩))

theorem readVersion_inversion :
    (scan.readVersion i).inversion =
      (scan.inversion && !decide (i.getLast? = some ')')) := by
  by_cases closed : i.getLast? = some ')'
  · simp [readVersion, closed, apply_ite Scan.inversion]
  · simp [readVersion, closed, apply_ite Scan.inversion]

theorem readVersion_incmp : (scan.readVersion i).incmp = scan.incmp := by
  rw [readVersion]
  split_ifs <;> rfl

theorem readVersion_lastdep : (scan.readVersion i).lastdep = scan.lastdep := by
  rw [readVersion]
  split_ifs <;> rfl

theorem readVersion_lastcmp : (scan.readVersion i).lastcmp = scan.lastcmp := by
  rw [readVersion]
  split_ifs <;> rfl

theorem readVersion_cases :
    ((scan.readVersion i).r = scan.r ∧
      (scan.readVersion i).lastver = scan.lastver) ∨
    ∃ version, version ≠ [] ∧
      (∀ char ∈ version, char ∈ scan.lastver ∨ char = ' ' ∨ char ∈ i) ∧
      (scan.readVersion i).lastver = version ∧
      (scan.readVersion i).r =
        scan.r.push scan.lastdep (scan.lastcmp ++ ' ' :: version) := by
  have inside : ∀ char ∈ i.dropLast, char ∈ i :=
    fun char => (List.dropLast_subset i ·)
  by_cases closed : i.getLast? = some ')'
  · by_cases empty : i.dropLast = []
    · exact .inl (by simp [readVersion, closed, empty])
    · refine .inr
        ⟨(if scan.lastver ≠ [] then scan.lastver ++ [' '] else scan.lastver) ++
        i.dropLast, by simp [empty], ?_, ?_, ?_⟩
      · intro char member
        rcases List.mem_append.mp member with earlier | isNew
        · split_ifs at earlier with more
          · rcases List.mem_append.mp earlier with old | isBlank
            · exact .inl old
            · exact .inr (.inl (List.mem_singleton.mp isBlank))
          · exact .inl earlier
        · exact .inr (.inr (inside char isNew))
      · simp [readVersion, closed, empty]
      · simp [readVersion, closed, empty]
  · by_cases empty : i = []
    · exact .inl (by simp [readVersion, empty])
    · refine .inr ⟨scan.lastver ++ i, by simp [empty], ?_, ?_, ?_⟩
      · intro char member
        rcases List.mem_append.mp member with old | isNew
        · exact .inl old
        · exact .inr (.inr isNew)
      · simp [readVersion, closed, empty]
      · simp [readVersion, closed, empty]

end Scan

/-- A text with blanks but no other spaces, and without commas. -/
def IsLoose (text : Text) : Prop :=
  ∀ char ∈ text, (char = ' ' ∨ isspace char = false) ∧ char ≠ ','

def IsRead (constraint : Text) : Prop :=
  ∃ op ∈ operators, ∃ version, constraint = op ++ ' ' :: version ∧
    version ≠ [] ∧ IsLoose version

/-- The invariant of the loop. -/
structure Scan.Holds (scan : Scan) : Prop where
  unique : scan.r.keys.Nodup
  names : ∀ name, some name ∈ scan.r.keys → IsName name
  lastName : ∀ name, scan.lastdep = some name → some name ∈ scan.r.keys
  comparison : scan.inversion = true → scan.lastcmp ∈ operators
  version : IsLoose scan.lastver
  constraints : ∀ entry ∈ scan.r, ∀ constraint ∈ entry.2, IsRead constraint

namespace Scan.Holds

variable {scan after : Scan} {i : Text}

theorem start : Scan.start.Holds := by
  constructor
  · simp [Scan.start, Dict.keys]
  · simp [Scan.start, Dict.keys]
  · simp [Scan.start]
  · simp [Scan.start]
  · simp [Scan.start, IsLoose]
  · simp [Scan.start]

theorem compared (holds : scan.Holds) {op : Text}
    (isOperator : op ∈ operators) : (scan.compared op).Holds :=
  ⟨holds.unique, holds.names, holds.lastName, fun _ => isOperator,
    holds.version, holds.constraints⟩

theorem mem_keys_push (holds : scan.Holds) (constraint name : Text) :
    some name ∈ (scan.r.push scan.lastdep constraint).keys ↔
      some name ∈ scan.r.keys := by
  rw [Dict.push, Dict.mem_keys_set]
  constructor
  · rintro (same | member)
    · exact holds.lastName name same.symm
    · exact member
  · exact .inr

theorem readVersion (holds : scan.Holds) (isVersion : scan.inversion = true)
    (isLoose : IsLoose i) : (scan.readVersion i).Holds := by
  have comparison := holds.comparison isVersion
  rcases @Scan.readVersion_cases scan i with ⟨sameR, sameVersion⟩ |
    ⟨version, nonempty, chars, isVersion, isR⟩
  · constructor
    · rw [sameR]
      exact holds.unique
    · rw [sameR]
      exact holds.names
    · rw [sameR, Scan.readVersion_lastdep]
      exact holds.lastName
    · rw [Scan.readVersion_lastcmp]
      exact fun _ => comparison
    · rw [sameVersion]
      exact holds.version
    · rw [sameR]
      exact holds.constraints
  · have loose : IsLoose version := by
      intro char member
      rcases chars char member with old | isBlank | isNew
      · exact holds.version char old
      · exact ⟨.inl isBlank, by rw [isBlank]; decide⟩
      · exact isLoose char isNew
    constructor
    · rw [isR, Dict.push]
      exact Dict.nodup_keys_set holds.unique ..
    · intro name
      rw [isR, holds.mem_keys_push]
      exact holds.names name
    · intro name
      rw [isR, holds.mem_keys_push, Scan.readVersion_lastdep]
      exact holds.lastName name
    · rw [Scan.readVersion_lastcmp]
      exact fun _ => comparison
    · rw [isVersion]
      exact loose
    · intro entry member constraint isConstraint
      rw [isR, Dict.push] at member
      obtain ⟨key, list⟩ := entry
      rcases Dict.mem_of_mem_set member with old | ⟨_, rfl⟩
      · exact holds.constraints _ old constraint isConstraint
      · rcases List.mem_append.mp isConstraint with earlier | isNew
        · cases found : scan.r.get? scan.lastdep with
          | none => simp [found] at earlier
          | some list =>
              rw [found] at earlier
              exact holds.constraints _ (Dict.mem_of_get? found) constraint
                earlier
        · exact ⟨_, comparison, version, List.mem_singleton.mp isNew, nonempty,
            loose⟩

theorem mem_keys_readName (key : Option Text) :
    key ∈ (scan.readName i).r.keys ↔ key = some i ∨ key ∈ scan.r.keys := by
  rw [Scan.readName]
  split_ifs with unheld
  · exact Dict.mem_keys_set ..
  · have known : some i ∈ scan.r.keys := by
      rw [← Dict.get?_ne_none_iff]
      intro missing
      exact unheld (by rw [missing]; rfl)
    constructor
    · exact .inr
    · rintro (rfl | member)
      · exact known
      · exact member

theorem readName (holds : scan.Holds) (between : scan.Between)
    (isName : IsName i) : (scan.readName i).Holds := by
  constructor
  · rw [Scan.readName]
    split_ifs
    · exact Dict.nodup_keys_set holds.unique ..
    · exact holds.unique
  · intro name member
    rcases (mem_keys_readName _).mp member with same | old
    · rw [Option.some.inj same]
      exact isName
    · exact holds.names name old
  · intro name same
    exact (mem_keys_readName _).mpr (.inl same.symm)
  · intro isVersion
    exact absurd (between.2.symm.trans isVersion) (by decide)
  · intro char member
    cases member
  · intro entry member constraint isConstraint
    rw [Scan.readName] at member
    split_ifs at member
    · obtain ⟨key, list⟩ := entry
      rcases Dict.mem_of_mem_set member with old | ⟨_, rfl⟩
      · exact holds.constraints _ old constraint isConstraint
      · cases isConstraint
    · exact holds.constraints _ member constraint isConstraint

theorem isLoose_of_isWord (isWord : IsWord i) {opening rest : Text}
    (split : i = opening ++ rest) : IsLoose rest := by
  intro char member
  obtain ⟨unblank, noComma⟩ :=
    isWord.2 char (by rw [split]; exact List.mem_append_right _ member)
  exact ⟨.inr unblank, noComma⟩

theorem step (holds : scan.Holds) (isWord : IsWord i)
    (ran : scan.step i = some after) : after.Holds := by
  rcases Scan.step_cases ran with ⟨_, rfl⟩ |
    ⟨op, rest, opening, isOperator, split, _, rfl⟩ |
    ⟨_, isVersion, _, rfl⟩ | ⟨between, unopened, rfl⟩
  · exact ⟨holds.unique, holds.names, holds.lastName, holds.comparison,
      holds.version, holds.constraints⟩
  · have loose : IsLoose rest :=
      isLoose_of_isWord isWord
        (split.trans (List.append_assoc opening op rest).symm)
    split_ifs
    · exact holds.compared isOperator
    · exact (holds.compared isOperator).readVersion rfl loose
  · exact holds.readVersion isVersion (@isLoose_of_isWord i isWord [] i rfl)
  · exact holds.readName between ⟨isWord, unopened⟩

theorem foldlM (holds : scan.Holds) {tokens : List Text}
    (areWords : ∀ i ∈ tokens, IsWord i)
    (ran : tokens.foldlM Scan.step scan = some after) : after.Holds := by
  induction tokens generalizing scan with
  | nil =>
      cases ran
      exact holds
  | cons i tokens induction =>
      rw [List.foldlM_cons] at ran
      obtain ⟨next, first, rest⟩ := Option.bind_eq_some_iff.mp ran
      exact induction (holds.step (areWords i List.mem_cons_self) first)
        (fun other member => areWords other (List.mem_cons_of_mem _ member))
        rest

end Scan.Holds

/-- `flag` is set inside of parentheses, and the names are the same. -/
structure Follows (state : List Text × Bool) (scan : Scan) : Prop where
  flag : state.2 = (scan.incmp || scan.inversion)
  names : ∀ name, name ∈ state.1 ↔ some name ∈ scan.r.keys

namespace Follows

variable {state : List Text × Bool} {scan after : Scan} {i : Text}

theorem not_closed_of_operator {op : Text} (isOperator : op ∈ operators)
    (opening : Text) : (opening ++ op).getLast? ≠ some ')' := by
  have all : ∀ op ∈ operators, op ≠ [] ∧ op.getLast? ≠ some ')' := by decide
  obtain ⟨nonempty, unclosed⟩ := all op isOperator
  rwa [List.getLast?_append_of_ne_nil _ nonempty]

theorem readVersion_keys (holds : scan.Holds) (name : Text) :
    some name ∈ (scan.readVersion i).r.keys ↔ some name ∈ scan.r.keys := by
  rcases @Scan.readVersion_cases scan i with ⟨sameR, _⟩ |
    ⟨version, _, _, _, isR⟩
  · rw [sameR]
  · rw [isR, holds.mem_keys_push]

variable (follows : Follows state scan)
include follows

theorem inside (isInside : (state.2 || decide (i.head? = some '(')) = true)
    (flag : (!decide (i.getLast? = some ')')) =
      (after.incmp || after.inversion))
    (keys : ∀ name, some name ∈ after.r.keys ↔ some name ∈ scan.r.keys) :
    Follows (explodeDepsStep state i) after := by
  rw [explodeDepsStep, isInside]
  exact ⟨flag, fun name => (follows.names name).trans (keys name).symm⟩

theorem step (holds : scan.Holds)
    (ran : scan.step i = some after) :
    Follows (explodeDepsStep state i) after := by
  rcases Scan.step_cases ran with ⟨rfl, rfl⟩ |
    ⟨op, rest, opening, isOperator, split, opened, rfl⟩ |
    ⟨noComparison, isVersion, unopened, rfl⟩ | ⟨between, unopened, rfl⟩
  · exact follows.inside (by simp) rfl fun _ => Iff.rfl
  · have isInside : (state.2 || decide (i.head? = some '(')) = true := by
      rw [follows.flag]
      rcases opened with comparing | isOpened
      · simp [comparing]
      · simp [isOpened]
    split_ifs with alone
    · refine follows.inside isInside ?_ fun _ => Iff.rfl
      have unclosed := not_closed_of_operator isOperator opening
      rw [split, alone, List.append_nil, decide_eq_false unclosed]
      rfl
    · refine follows.inside isInside ?_ fun name =>
        readVersion_keys (holds.compared isOperator) name
      rw [Scan.readVersion_incmp, Scan.readVersion_inversion,
        split, ← List.append_assoc, List.getLast?_append_of_ne_nil _ alone]
      rfl
  · refine follows.inside ?_ ?_ fun name => readVersion_keys holds name
    · simp [follows.flag, isVersion]
    · rw [Scan.readVersion_incmp, Scan.readVersion_inversion, noComparison,
        isVersion]
      simp
  · have outside : (state.2 || decide (i.head? = some '(')) = false := by
      simp [follows.flag, between.1, between.2, unopened]
    rw [explodeDepsStep, outside]
    constructor
    · simp [Scan.readName, between.1, between.2]
    · intro name
      rw [Scan.Holds.mem_keys_readName, ← follows.names name]
      simp [or_comm, eq_comm]

theorem foldl (holds : scan.Holds) {tokens : List Text}
    (areWords : ∀ i ∈ tokens, IsWord i)
    (ran : tokens.foldlM Scan.step scan = some after) :
    Follows (tokens.foldl explodeDepsStep state) after := by
  induction tokens generalizing state scan with
  | nil =>
      cases ran
      exact follows
  | cons i tokens induction =>
      rw [List.foldlM_cons] at ran
      obtain ⟨next, first, rest⟩ := Option.bind_eq_some_iff.mp ran
      exact induction (follows.step holds first)
        (holds.step (areWords i List.mem_cons_self) first)
        (fun other member => areWords other (List.mem_cons_of_mem _ member))
        rest

end Follows

/-- Every constraint has a name, and no version has a blank or begins with a
parenthesis. -/
structure IsPlain (r : Deps) : Prop where
  named : none ∉ r.keys
  versions : ∀ entry ∈ r, ∀ op ∈ operators, ∀ version, op ++ ' ' :: version ∈
    entry.2 → ' ' ∉ version ∧ version.head? ≠ some '('

theorem isWord_of_mem_words {s i : Text}
    (member : i ∈ words (s.filter (· ≠ ','))) : IsWord i := by
  obtain ⟨nonempty, chars⟩ := mem_of_mem_words member
  refine ⟨nonempty, fun char inWord => ?_⟩
  obtain ⟨unblank, inText⟩ := chars char inWord
  exact ⟨unblank, by simpa using (List.mem_filter.mp inText).2⟩

theorem isConstraint_of_isRead {constraint : Text} (isRead : IsRead constraint)
    (plain : ∀ op ∈ operators, ∀ version, constraint = op ++ ' ' :: version →
      ' ' ∉ version ∧ version.head? ≠ some '(') : IsConstraint constraint := by
  obtain ⟨op, isOperator, version, split, nonempty, loose⟩ := isRead
  obtain ⟨noBlank, unopened⟩ := plain op isOperator version split
  refine ⟨op, isOperator, version, split, ⟨nonempty, fun char member => ?_⟩,
    unopened⟩
  obtain ⟨isBlank | unblank, noComma⟩ := loose char member
  · exact absurd (isBlank ▸ member) noBlank
  · exact ⟨unblank, noComma⟩

theorem exists_mapping {scan : Scan} (holds : scan.Holds) {r : Deps}
    (permuted : r.Perm scan.r)
    (plain : IsPlain r) : ∃ deps, IsMapping deps ∧ r = named deps := by
  have same : named (r.map fun entry => (entry.1.getD [], entry.2)) = r := by
    rw [named, List.map_map]
    refine (List.map_congr_left fun entry member => ?_).trans (List.map_id r)
    obtain ⟨key, list⟩ := entry
    cases key with
    | none => exact absurd (List.mem_map_of_mem member) plain.named
    | some name => rfl
  have inScan : ∀ entry ∈ r.map fun entry => (entry.1.getD [], entry.2),
      (some entry.1, entry.2) ∈ r ∧ (some entry.1, entry.2) ∈ scan.r := by
    intro entry member
    have inNamed :=
      List.mem_map_of_mem (f := fun entry => (some entry.1, entry.2)) member
    rw [← named, same] at inNamed
    exact ⟨inNamed, permuted.mem_iff.mp inNamed⟩
  refine ⟨_, ⟨?_, ?_, ?_⟩, same.symm⟩
  · have keys : (r.map Prod.fst).Nodup :=
      (permuted.map Prod.fst).nodup_iff.mpr holds.unique
    rw [← same, named, List.map_map] at keys
    apply List.Nodup.of_map some
    rw [List.map_map]
    exact keys
  · intro entry member
    exact holds.names entry.1 (List.mem_map_of_mem (inScan entry member).2)
  · intro entry member constraint isConstraint
    obtain ⟨inR, inHeld⟩ := inScan entry member
    apply isConstraint_of_isRead
      (holds.constraints _ inHeld constraint isConstraint)
    rintro op isOperator version rfl
    exact plain.versions _ inR op isOperator version isConstraint

theorem sortedNames_of_sorted {deps : List (Text × List Text)} {r : Deps}
    (sorted : sortItems r = some (named deps)) :
    named (sortedNames deps) = named deps := by
  have before := sortItems_named deps
  rw [sortItems] at sorted before
  split_ifs at sorted before
  rw [← Option.some.inj before]
  apply List.Pairwise.insertionSort_eq
  rw [← Option.some.inj sorted]
  apply List.pairwise_insertionSort

theorem exists_scan_of_accepted {s : Text} {r : Deps}
    (accepted : explodeDepVersions2 s true = some r) :
    ∃ scan, (words (s.filter (· ≠ ','))).foldlM Scan.step .start = some scan ∧
      scan.Holds ∧ sortItems scan.r = some r ∧ r.Perm scan.r := by
  obtain ⟨scan, ran, sorted⟩ := Option.bind_eq_some_iff.mp accepted
  have holds : scan.Holds :=
    Scan.Holds.start.foldlM (fun i => isWord_of_mem_words) ran
  have permuted : r.Perm scan.r := by
    rw [if_pos rfl, sortItems] at sorted
    split_ifs at sorted
    cases sorted
    exact List.perm_insertionSort _ _
  exact ⟨scan, ran, holds, sorted, permuted⟩

/-- `explode_dep_versions2` reads back what `join_deps` writes of a mapping,
with the names sorted.  Of an accepted string it takes the names that
`explode_deps` takes of the string without its commas, and a plain result is
joined and read back unchanged. -/
theorem depVersions_roundTrip :
    (∀ deps, IsMapping deps → ∀ commasep,
      (joinDeps (listed (named deps)) commasep).bind
        (explodeDepVersions2 · true) = some (named (sortedNames deps))) ∧
    ∀ s r, explodeDepVersions2 s true = some r →
      (∀ name, name ∈ explodeDeps (s.filter (· ≠ ',')) ↔ some name ∈ r.keys) ∧
      (IsPlain r → ∀ commasep,
        (joinDeps (listed r) commasep).bind (explodeDepVersions2 · true) =
          some r) := by
  constructor
  · intro deps isMapping commasep
    rw [explodeDepVersions2_joinDeps isMapping, if_pos rfl, sortItems_named]
  · intro s r accepted
    obtain ⟨scan, ran, holds, sorted, permuted⟩ :=
      exists_scan_of_accepted accepted
    constructor
    · intro name
      have follows : Follows ([], false) Scan.start :=
        ⟨rfl, by simp [Scan.start, Dict.keys]⟩
      have names :=
        (follows.foldl Scan.Holds.start (fun i => isWord_of_mem_words)
          ran).names name
      exact names.trans (permuted.map Prod.fst).mem_iff.symm
    · intro plain commasep
      obtain ⟨deps, isMapping, rfl⟩ := exists_mapping holds permuted plain
      rw [explodeDepVersions2_joinDeps isMapping, if_pos rfl, sortItems_named,
        sortedNames_of_sorted sorted]

theorem depVersions_roundTrip_twoNames :
    (joinDeps (listed (named [("b".toList, ["<= 2".toList]), ("a".toList, [])]))
      true).bind (explodeDepVersions2 · true) =
      some (named [("a".toList, []), ("b".toList, ["<= 2".toList])]) ∧
    "b".toList ∈ explodeDeps ("b ( >= 1 ), a".toList.filter (· ≠ ',')) := by
  have isMapping :
      IsMapping [("b".toList, ["<= 2".toList]), ("a".toList, [])] := by
    refine ⟨by decide, by simp only [IsName, isWord_iff_all]; decide, ?_⟩
    intro entry member constraint isConstraint
    refine ⟨"<=".toList, by decide, "2".toList, ?_, by
      simp only [IsName, isWord_iff_all]; decide⟩
    rcases List.mem_cons.mp member with rfl | later
    · exact List.mem_singleton.mp isConstraint
    · rw [List.mem_singleton.mp later] at isConstraint
      cases isConstraint
  refine ⟨(depVersions_roundTrip.1 _ isMapping true).trans (by decide), ?_⟩
  have accepted : explodeDepVersions2 "b ( >= 1 ), a".toList true =
      some [(some "a".toList, []),
        (some "b".toList, [">= 1".toList])] := by decide
  exact ((depVersions_roundTrip.2 _ _ accepted).1 "b".toList).mpr (by decide)

/-- `explode_deps` knows no commas, and a version of two words is not read back.
-/
theorem commas_and_split_versions :
    (explodeDepVersions2 "a (>= 1), b".toList true).map Dict.keys =
      some [some "a".toList, some "b".toList] ∧
    explodeDeps "a (>= 1), b".toList = ["a".toList] ∧
    explodeDepVersions2 "a (>= 1 2)".toList true =
      some [(some "a".toList, [">= 1".toList, ">= 1 2".toList])] ∧
    (joinDeps (listed [(some "a".toList, [">= 1".toList, ">= 1 2".toList])])
      true).bind (explodeDepVersions2 · true) =
      some [(some "a".toList,
        [">= 1".toList, ">= 1".toList, ">= 1 2".toList])] := by
  decide

end Nvbmc.DepVersions
