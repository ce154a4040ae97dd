import Mathlib.Data.List.TakeDrop
import Nvbmc.FaultSpec.Cells
import Nvbmc.Library.Words

/-!
# Round trips of the fault catalog

There is no escaping: a reader cuts at every separator, so it undoes its writer
where the texts have none.
-/

namespace Nvbmc.FaultSpec

open Nvbmc.Library

/-- A text that is not empty and has no blank at its ends. -/
structure Plain (text : Text) : Prop where
  nonempty : text ≠ []
  bare : Bare isspace text

def FreeOf (separators : List Char) (text : Text) : Prop :=
  ∀ separator ∈ separators, separator ∉ text

/-- All keys and values. -/
def Accessor.All (holds : Text → Prop) (accessor : Accessor) : Prop :=
  ∀ entry ∈ accessor.entries, holds entry.1 ∧ holds entry.2

/-- A mapping of plain texts without a check. -/
structure Flat (accessor : Accessor) : Prop where
  noCheck : accessor.check = none
  noKey : checkKey ∉ accessor.entries.keys
  plain : accessor.All Plain

/-- `"[ {0} | {1} ]"` -/
def item (entry : Text × Text) : Text :=
  "[ ".toList ++ entry.1 ++ " | ".toList ++ entry.2 ++ " ]".toList

section Entry

variable {key value text : Text}

theorem strip_item (entry : Text × Text) : strip (item entry) = item entry := by
  apply stripOf_of_bare
  constructor
  · intro char isHead
    cases isHead
    rfl
  · intro char isLast
    rw [item, List.getLast?_append] at isLast
    cases isLast
    rfl

theorem stripOf_isBracket_item (entry : Text × Text) :
    stripOf isBracket (item entry) =
      (' ' :: entry.1 ++ [' ']) ++ '|' :: (' ' :: entry.2 ++ [' ']) := by
  have shape : item entry =
      "[".toList ++
        ((' ' :: entry.1 ++ [' ']) ++ '|' :: (' ' :: entry.2 ++ [' '])) ++
        "]".toList := by
    simp [item]
  rw [shape, stripOf_append_right (by simp [isBracket]),
    stripOf_append_left (by simp [isBracket])]
  apply stripOf_of_bare
  constructor
  · intro char isHead
    cases isHead
    rfl
  · intro char isLast
    rw [← List.cons_append, ← List.append_assoc, List.getLast?_append] at isLast
    cases isLast
    rfl

theorem isspace_of_mem_space : ∀ char ∈ [' '], isspace char = true := by
  intro char member
  rw [List.mem_singleton.mp member]
  rfl

theorem strip_spaced (bare : Bare isspace text) : strip (' ' :: text ++ [' ']) =
    text := by
  rw [strip, List.cons_append, stripOf_cons (by decide),
    stripOf_concat (by decide), stripOf_of_bare bare]

theorem keyValue_item (keyBare : Bare isspace key)
    (valueBare : Bare isspace value)
    (keyFree : '|' ∉ key) (valueFree : '|' ∉ value) :
    keyValue (item (key, value)) = some (key, value) := by
  rw [keyValue, strip_item, stripOf_isBracket_item,
    List.splitOn_append_cons_self_of_not_mem (by simp [keyFree]),
    List.splitOn_eq_singleton (by simp [valueFree])]
  change some (strip (' ' :: key ++ [' ']), strip (' ' :: value ++ [' '])) =
    some (key, value)
  rw [strip_spaced keyBare, strip_spaced valueBare]

theorem keyValue_strip (wd : Text) : keyValue (strip wd) = keyValue wd := by
  rw [keyValue, keyValue, strip, strip, stripOf_stripOf]

theorem of_keyValue {wd : Text} (read : keyValue wd = some (key, value)) :
    ∀ text ∈ [key, value], Bare isspace text ∧ '|' ∉ text ∧ ∀ char ∈ text,
      char ∈ wd := by
  rw [keyValue] at read
  split at read
  · rename_i first second rest split
    cases read
    have piece : ∀ part ∈ [first, second],
        Bare isspace (strip part) ∧ '|' ∉ strip part ∧ ∀ char ∈ strip part,
        char ∈ wd := by
      intro part among
      have member : part ∈ (stripOf isBracket (strip wd)).splitOnP
          (· == '|') := by
        rw [← List.splitOn_eq_splitOnP, split]
        rcases List.mem_cons.mp among with rfl | isSecond
        · exact List.mem_cons_self
        · rw [List.mem_singleton.mp isSecond]
          exact List.mem_cons_of_mem _ List.mem_cons_self
      refine ⟨bare_stripOf part, ?_, ?_⟩
      · intro inside
        have isPart :=
          (mem_of_mem_splitOnP member _ (mem_of_mem_stripOf inside)).1
        cases isPart
      · intro char inside
        have isPart :=
          (mem_of_mem_splitOnP member _ (mem_of_mem_stripOf inside)).2
        exact mem_of_mem_stripOf (mem_of_mem_stripOf isPart)
    simpa using piece
  · cases read

end Entry

theorem rdrop_flatMap_append (separator : Text) (texts : List Text) :
    (texts.flatMap (· ++ separator)).rdrop separator.length =
      separator.intercalate texts := by
  induction texts with
  | nil => simp [List.rdrop]
  | cons text texts induction =>
      cases texts with
      | nil => simp [List.rdrop]
      | cons next texts =>
          have enough : separator.length ≤
              ((next :: texts).flatMap (· ++ separator)).length := by
            rw [List.flatMap_cons, List.length_append, List.length_append]
            omega
          rw [List.flatMap_cons, List.intercalate_cons_cons, ← induction,
            List.rdrop, List.rdrop,
            List.length_append, Nat.add_sub_assoc enough,
            List.take_length_add_append]

def Accessor.written (accessor : Accessor) : List (Text × Text) :=
  accessor.entries.filter fun entry => entry.1 ≠ checkKey

theorem jsonAccToFcExpr_eq (accessor : Accessor) : jsonAccToFcExpr accessor =
    "; ".toList.intercalate (accessor.written.map item) := by
  have loop : ∀ (entries : List (Text × Text)) (output : Text),
      entries.foldl (fun output entry =>
        if entry.1 = checkKey then output
        else output ++
          ("[ ".toList ++ entry.1 ++ " | ".toList ++ entry.2 ++ " ]; ".toList))
        output =
      output ++ ((entries.filter fun entry => entry.1 ≠ checkKey).map
        item).flatMap (· ++ "; ".toList) := by
    intro entries
    induction entries with
    | nil => simp
    | cons entry entries induction =>
        intro output
        rw [List.foldl_cons, induction]
        split_ifs with isCheck
        · simp [isCheck]
        · simp [isCheck, item]
  rw [jsonAccToFcExpr, loop, List.nil_append, ← rdrop_flatMap_append]
  rfl

theorem jsonAccListToFcExpr_eq (accessors : List Accessor) :
    jsonAccListToFcExpr accessors =
    " : ".toList.intercalate (accessors.map jsonAccToFcExpr) := by
  have loop : ∀ (accessors : List Accessor) (output : Text),
      accessors.foldl (fun output acc => output ++ jsonAccToFcExpr acc ++
        " : ".toList) output =
        output ++ (accessors.map jsonAccToFcExpr).flatMap
          (· ++ " : ".toList) := by
    intro accessors
    induction accessors with
    | nil => simp
    | cons accessor accessors induction =>
        intro output
        rw [List.foldl_cons, induction]
        simp
  rw [jsonAccListToFcExpr, loop, List.nil_append, ← rdrop_flatMap_append]
  rfl

theorem readEntry_strip (output : Accessor) (wd : Text) :
    readEntry output (strip wd) = readEntry output wd := by
  rw [readEntry, readEntry, keyValue_strip]

theorem foldlM_readEntry {entries : List (Text × Text)} {output : Accessor}
    (tidy : ∀ entry ∈ entries, (Bare isspace entry.1 ∧ '|' ∉ entry.1) ∧
      Bare isspace entry.2 ∧ '|' ∉ entry.2) :
    (entries.map item).foldlM readEntry output =
      some (entries.foldl (fun output entry => output.set entry.1 entry.2)
        output) := by
  induction entries generalizing output with
  | nil => rfl
  | cons entry entries induction =>
      obtain ⟨⟨keyBare, keyFree⟩, valueBare, valueFree⟩ :=
        tidy entry List.mem_cons_self
      have first : readEntry output (item entry) =
          some (output.set entry.1 entry.2) := by
        rw [readEntry, keyValue_item keyBare valueBare keyFree valueFree]
        rfl
      rw [List.map_cons, List.foldlM_cons, first]
      exact induction fun other member =>
        tidy other (List.mem_cons_of_mem _ member)

theorem foldl_set_entries {accessor : Accessor}
    (noCheck : accessor.check = none) :
    accessor.entries.foldl (fun output entry => output.set entry.1 entry.2)
      .empty = accessor := by
  have parts : ∀ (entries : Dict Text Text) (output : Accessor), output.check =
      none →
      (entries.foldl (fun output entry => output.set entry.1 entry.2)
        output).entries =
        entries.foldl (fun d entry => d.set entry.1 entry.2) output.entries ∧
      (entries.foldl (fun output entry => output.set entry.1 entry.2)
        output).check = none := by
    intro entries
    induction entries with
    | nil => exact fun output isNone => ⟨rfl, isNone⟩
    | cons entry entries induction =>
        intro output isNone
        apply induction
        simp [Accessor.set, isNone]
  obtain ⟨isEntries, isNone⟩ := parts accessor.entries .empty rfl
  apply Accessor.ext
  · rw [isEntries]
    exact Dict.foldl_set_of_nodup accessor.unique
  · rw [isNone, noCheck]

theorem notMem_item {separator : Char} {entry : Text × Text}
    (notSpecial : separator ∉ "[ | ]".toList) (keyFree : separator ∉ entry.1)
    (valueFree : separator ∉ entry.2) : separator ∉ item entry := by
  simp at notSpecial
  simp [item, notSpecial, keyFree, valueFree]

theorem map_strip_splitOn_strip {separator : Char}
    (inner : isspace separator = false)
    (text : Text) : ((strip text).splitOn separator).map strip =
      (text.splitOn separator).map strip :=
  map_stripOf_splitOn_stripOf inner text

variable {text : Text}

theorem fcExprToJsonAcc_of_pieces (nonblank : strip text ≠ []) :
    fcExprToJsonAcc text [] = ((text.splitOn ';').map strip).foldlM readEntry
      .empty := by
  have strips : ∀ pieces : List Text,
      pieces.foldlM readEntry Accessor.empty =
        (pieces.map strip).foldlM readEntry .empty := by
    intro pieces
    rw [List.foldlM_map]
    simp only [readEntry_strip]
  rw [fcExprToJsonAcc, if_neg nonblank, strips,
    map_strip_splitOn_strip (by decide)]
  cases ((text.splitOn ';').map strip).foldlM readEntry .empty with
  | none => rfl
  | some output => rfl

theorem strip_ne_nil {char : Char} (member : char ∈ text)
    (inner : isspace char = false) : strip text ≠ [] := by
  intro empty
  rw [stripOf_eq_nil.mp empty char member] at inner
  cases inner

theorem bracket_mem (entry : Text × Text) (rest : List (Text × Text)) :
    '[' ∈ "; ".toList.intercalate ((entry :: rest).map item) := by
  rw [List.map_cons]
  cases rest with
  | nil => simp [item]
  | cons next rest => simp [List.intercalate_cons_cons, item]

/-- The texts of an accessor can be told apart when it is read. -/
def Readable (text : Text) : Prop :=
  Bare isspace text ∧ FreeOf [';', '|'] text

theorem read_write {accessor : Accessor} (noCheck : accessor.check = none)
    (noKey : checkKey ∉ accessor.entries.keys)
    (readable : accessor.All Readable) :
    fcExprToJsonAcc (jsonAccToFcExpr accessor) [] = some accessor := by
  have isWritten : accessor.written = accessor.entries := by
    rw [Accessor.written, List.filter_eq_self]
    intro entry member
    have isKey : entry.1 ∈ accessor.entries.keys := List.mem_map_of_mem member
    have different : entry.1 ≠ checkKey := fun same => noKey (same ▸ isKey)
    simpa using different
  rw [jsonAccToFcExpr_eq, isWritten]
  cases entries : accessor.entries with
  | nil =>
      have isEmpty : accessor = .empty := Accessor.ext entries noCheck
      rw [isEmpty]
      rfl
  | cons entry rest =>
      rw [← entries]
      have nonempty : accessor.entries.map item ≠ [] := by simp [entries]
      have bracket : '[' ∈
          "; ".toList.intercalate (accessor.entries.map item) := by
        rw [entries]
        exact bracket_mem entry rest
      have free : ∀ text ∈ accessor.entries.map item, ';' ∉ text := by
        intro text isItem
        obtain ⟨entry, member, rfl⟩ := List.mem_map.mp isItem
        obtain ⟨key, value⟩ := readable entry member
        exact notMem_item (by decide) (key.2 _ (by decide))
          (value.2 _ (by decide))
      have items :
          (("; ".toList.intercalate (accessor.entries.map item)).splitOn
            ';').map strip = (accessor.entries.map item).map strip :=
        @map_stripOf_splitOn_intercalate isspace ';' (by decide) [] [' ']
          (by simp) isspace_of_mem_space _ nonempty free
      have same : (accessor.entries.map item).map strip =
          accessor.entries.map item := by
        rw [List.map_map]
        apply List.map_congr_left
        exact fun entry _ => strip_item entry
      rw [fcExprToJsonAcc_of_pieces (strip_ne_nil bracket (by decide)), items,
        same, foldlM_readEntry, foldl_set_entries noCheck]
      intro entry member
      obtain ⟨key, value⟩ := readable entry member
      exact ⟨⟨key.1, key.2 _ (by decide)⟩, value.1, value.2 _ (by decide)⟩

theorem Accessor.All.set {holds : Text → Prop} {accessor : Accessor}
    (all : accessor.All holds)
    {key value : Text} (isKey : holds key) (isValue : holds value) :
    (accessor.set key value).All holds := by
  intro entry member
  rcases Dict.mem_of_mem_set member with old | ⟨sameKey, sameValue⟩
  · exact all entry old
  · exact ⟨sameKey ▸ isKey, sameValue ▸ isValue⟩

theorem all_foldlM_readEntry {pieces : List Text} {output last : Accessor}
    (inside : ∀ wd ∈ pieces, ∀ char ∈ wd, char ≠ ';' ∧ char ∈ text)
    (noCheck : output.check = none)
    (all : output.All fun part => Readable part ∧ ∀ char ∈ part, char ∈ text)
    (read : pieces.foldlM readEntry output = some last) :
    last.check = none ∧ last.All fun part => Readable part ∧ ∀ char ∈ part,
      char ∈ text := by
  induction pieces generalizing output with
  | nil =>
      cases read
      exact ⟨noCheck, all⟩
  | cons wd pieces induction =>
      rw [List.foldlM_cons] at read
      obtain ⟨next, first, later⟩ := Option.bind_eq_some_iff.mp read
      obtain ⟨⟨key, value⟩, isEntry, isNext⟩ := Option.map_eq_some_iff.mp first
      subst isNext
      have parts : ∀ part ∈ [key, value], Readable part ∧ ∀ char ∈ part,
          char ∈ text := by
        intro part among
        obtain ⟨bare, noBar, chars⟩ := of_keyValue isEntry part among
        refine ⟨⟨bare, ?_⟩, fun char member =>
          (inside wd List.mem_cons_self char (chars char member)).2⟩
        intro separator isSeparator member
        rcases List.mem_cons.mp isSeparator with rfl | isBar
        · exact (inside wd List.mem_cons_self _ (chars _ member)).1 rfl
        · rw [List.mem_singleton.mp isBar] at member
          exact noBar member
      apply induction (fun wd member =>
        inside wd (List.mem_cons_of_mem _ member)) _ _ later
      · simp [Accessor.set, noCheck]
      · exact all.set (parts key (by simp)) (parts value (by simp))

theorem readable_of_read {accessor : Accessor}
    (read : fcExprToJsonAcc text [] = some accessor) : accessor.check = none ∧
      accessor.All fun part => Readable part ∧ ∀ char ∈ part, char ∈ text := by
  by_cases blank : strip text = []
  · rw [fcExprToJsonAcc, if_pos blank] at read
    cases read
    exact ⟨rfl, fun entry member => absurd member List.not_mem_nil⟩
  · rw [fcExprToJsonAcc, if_neg blank] at read
    obtain ⟨output, folded, isLast⟩ := Option.bind_eq_some_iff.mp read
    cases isLast
    apply all_foldlM_readEntry _ rfl
      (fun entry member => absurd member List.not_mem_nil) folded
    intro wd member char inWd
    rw [List.splitOn_eq_splitOnP] at member
    obtain ⟨notSeparator, inText⟩ := mem_of_mem_splitOnP member char inWd
    exact ⟨by simpa using notSeparator, mem_of_mem_stripOf inText⟩

theorem Accessor.All.mono {holds holds' : Text → Prop} {accessor : Accessor}
    (all : accessor.All holds) (weaker : ∀ text, holds text → holds' text) :
    accessor.All holds' :=
  fun entry member =>
    ⟨weaker _ (all entry member).1, weaker _ (all entry member).2⟩

theorem Accessor.All.and {holds holds' : Text → Prop} {accessor : Accessor}
    (all : accessor.All holds) (all' : accessor.All holds') :
    accessor.All fun text => holds text ∧ holds' text :=
  fun entry member => ⟨⟨(all entry member).1, (all' entry member).1⟩,
    (all entry member).2, (all' entry member).2⟩

theorem read_write_iff {accessor : Accessor} (flat : Flat accessor) :
    fcExprToJsonAcc (jsonAccToFcExpr accessor) [] = some accessor ↔
      accessor.All (FreeOf [';', '|']) := by
  constructor
  · intro read
    exact (readable_of_read read).2.mono fun text readable => readable.1.2
  · intro free
    apply read_write flat.noCheck flat.noKey
    exact (flat.plain.and free).mono fun text both => ⟨both.1.bare, both.2⟩

theorem Accessor.nodup_del_checkKey (accessor : Accessor) :
    (accessor.entries.del checkKey).keys.Nodup :=
  Dict.nodup_keys_del accessor.unique checkKey

theorem Accessor.checkKey_not_mem_del (accessor : Accessor) :
    (none : Option (Text × Text)).isSome →
      checkKey ∉ (accessor.entries.del checkKey).keys := by
  intro isSome
  cases isSome

/-- The accessor without an entry that is named like the check. -/
def Accessor.uncheck (accessor : Accessor) : Accessor where
  entries := accessor.entries.del checkKey
  check := none
  unique := accessor.nodup_del_checkKey
  single := accessor.checkKey_not_mem_del

theorem jsonAccToFcExpr_uncheck (accessor : Accessor) :
    jsonAccToFcExpr accessor.uncheck = jsonAccToFcExpr accessor := by
  have sameWritten : accessor.uncheck.written = accessor.written := by
    change (accessor.entries.del checkKey).filter
      (fun entry => entry.1 ≠ checkKey) = _
    rw [Dict.del_eq_filter, List.filter_filter, Accessor.written]
    simp
  rw [jsonAccToFcExpr_eq, jsonAccToFcExpr_eq, sameWritten]

theorem Accessor.All.uncheck {holds : Text → Prop} {accessor : Accessor}
    (all : accessor.All holds) : accessor.uncheck.All holds := by
  intro entry member
  change entry ∈ accessor.entries.del checkKey at member
  rw [Dict.del_eq_filter] at member
  exact all entry (List.mem_filter.mp member).1

theorem checkKey_notMem_uncheck (accessor : Accessor) :
    checkKey ∉ accessor.uncheck.entries.keys := by
  intro member
  exact ((Dict.mem_keys_del _ _ _).mp member).1 rfl

theorem read_write_uncheck {accessor : Accessor}
    (readable : accessor.All Readable) :
    fcExprToJsonAcc (jsonAccToFcExpr accessor) [] = some accessor.uncheck := by
  rw [← jsonAccToFcExpr_uncheck]
  exact read_write rfl (checkKey_notMem_uncheck accessor) readable.uncheck

theorem uncheck_eq_self_iff {accessor : Accessor}
    (noCheck : accessor.check = none) :
    accessor.uncheck = accessor ↔ checkKey ∉ accessor.entries.keys := by
  constructor
  · intro same
    rw [← same]
    exact checkKey_notMem_uncheck accessor
  · intro noKey
    exact Accessor.ext (Dict.del_of_not_mem noKey) noCheck.symm

theorem rewrite_iff {accessor : Accessor}
    (read : fcExprToJsonAcc text [] = some accessor) :
    fcExprToJsonAcc (jsonAccToFcExpr accessor) [] = some accessor ↔
      checkKey ∉ accessor.entries.keys := by
  obtain ⟨noCheck, readable⟩ := readable_of_read read
  rw [read_write_uncheck (readable.mono fun text both => both.1),
    Option.some.injEq, uncheck_eq_self_iff noCheck]

theorem fcExprToJsonAcc_strip (text chk : Text) :
    fcExprToJsonAcc (strip text) chk = fcExprToJsonAcc text chk := by
  rw [fcExprToJsonAcc, fcExprToJsonAcc, strip, strip, stripOf_stripOf]

theorem fcExprToJsonAccList_of_pieces (nonblank : strip text ≠ []) :
    fcExprToJsonAccList text =
      ((text.splitOn ':').map strip).mapM fun acc =>
        fcExprToJsonAcc acc [] := by
  have strips : ∀ pieces : List Text,
      (pieces.mapM fun acc => fcExprToJsonAcc acc []) =
      (pieces.map strip).mapM fun acc => fcExprToJsonAcc acc [] := by
    intro pieces
    rw [List.mapM_map]
    simp only [Function.comp_def, fcExprToJsonAcc_strip]
  rw [fcExprToJsonAccList, if_neg nonblank, strips,
    map_strip_splitOn_strip (by decide)]

theorem mapM_map_eq_some {α β γ : Type} {write : α → β} {read : β → Option γ}
    {change : α → γ}
    {items : List α}
    (each : ∀ item ∈ items, read (write item) = some (change item)) :
    (items.map write).mapM read = some (items.map change) := by
  induction items with
  | nil => rfl
  | cons item items induction =>
      rw [List.map_cons, List.mapM_cons, each item List.mem_cons_self,
        induction fun other member =>
          each other (List.mem_cons_of_mem _ member)]
      rfl

theorem mem_jsonAccToFcExpr {accessor : Accessor} {char : Char}
    (notSpecial : char ∉ "[ | ]; ".toList)
    (free : accessor.All fun text => char ∉ text) :
    char ∉ jsonAccToFcExpr accessor := by
  have inFold : ∀ (entries : List (Text × Text)),
      (∀ entry ∈ entries, char ∉ entry.1 ∧ char ∉ entry.2) →
      char ∉ "; ".toList.intercalate (entries.map item) := by
    intro entries
    simp at notSpecial
    induction entries with
    | nil => simp
    | cons entry entries induction =>
        intro free
        obtain ⟨key, value⟩ := free entry List.mem_cons_self
        have isItem : char ∉ item entry := by
          simp [item, notSpecial, key, value]
        have later :=
          induction fun other member =>
            free other (List.mem_cons_of_mem _ member)
        cases entries with
        | nil => simpa using isItem
        | cons next entries =>
            rw [List.map_cons, List.map_cons, List.intercalate_cons_cons]
            intro member
            rcases List.mem_append.mp member with front | inLater
            · rcases List.mem_append.mp front with inItem | inSeparator
              · exact isItem inItem
              · simp [notSpecial] at inSeparator
            · exact later inLater
  rw [jsonAccToFcExpr_eq]
  apply inFold
  intro entry member
  exact free entry (List.mem_filter.mp member).1

variable {accessors : List Accessor}

theorem readList_writeList (nonempty : accessors ≠ [])
    (notBlank : strip (jsonAccListToFcExpr accessors) ≠ [])
    (free : ∀ accessor ∈ accessors, accessor.All fun text => ':' ∉ text) :
    fcExprToJsonAccList (jsonAccListToFcExpr accessors) =
      (accessors.map jsonAccToFcExpr).mapM fun acc =>
        fcExprToJsonAcc acc [] := by
  have pieces :
      ((" : ".toList.intercalate (accessors.map jsonAccToFcExpr)).splitOn
        ':').map strip = (accessors.map jsonAccToFcExpr).map strip := by
    apply @map_stripOf_splitOn_intercalate isspace ':' (by decide) [' '] [' ']
      isspace_of_mem_space isspace_of_mem_space
    · simpa using nonempty
    · intro text member
      obtain ⟨accessor, isAccessor, rfl⟩ := List.mem_map.mp member
      exact mem_jsonAccToFcExpr (by decide) (free accessor isAccessor)
  rw [fcExprToJsonAccList_of_pieces notBlank, jsonAccListToFcExpr_eq, pieces,
    List.mapM_map]
  simp only [Function.comp_def, fcExprToJsonAcc_strip]

theorem strip_writeList_eq_nil :
    strip (jsonAccListToFcExpr accessors) = [] ↔
      accessors = [] ∨ ∃ accessor, accessors = [accessor] ∧
        accessor.written = [] := by
  have single : ∀ accessor : Accessor,
      strip (jsonAccToFcExpr accessor) = [] ↔ accessor.written = [] := by
    intro accessor
    rw [jsonAccToFcExpr_eq]
    cases accessor.written with
    | nil => simp [strip]
    | cons entry rest =>
        refine iff_of_false ?_ (List.cons_ne_nil _ _)
        exact strip_ne_nil (bracket_mem entry rest) (by decide)
  rw [jsonAccListToFcExpr_eq]
  cases accessors with
  | nil => simp [strip]
  | cons accessor rest =>
      cases rest with
      | nil => simp [single]
      | cons next rest =>
          refine iff_of_false ?_ (by simp)
          have colon : ':' ∈ " : ".toList.intercalate
              ((accessor :: next :: rest).map jsonAccToFcExpr) := by
            rw [List.map_cons, List.map_cons, List.intercalate_cons_cons]
            simp
          exact strip_ne_nil colon (by decide)

theorem mem_of_mapM_eq_some {α β : Type} {read : α → Option β} {items : List α}
    {results : List β} (ran : items.mapM read = some results) :
    results.length = items.length ∧
      ∀ result ∈ results, ∃ item ∈ items, read item = some result := by
  induction items generalizing results with
  | nil =>
      cases ran
      exact ⟨rfl, by simp⟩
  | cons item items induction =>
      rw [List.mapM_cons] at ran
      obtain ⟨first, isFirst, ran⟩ := Option.bind_eq_some_iff.mp ran
      obtain ⟨others, areOthers, ended⟩ := Option.bind_eq_some_iff.mp ran
      cases ended
      obtain ⟨long, each⟩ := induction areOthers
      refine ⟨by rw [List.length_cons, List.length_cons, long], ?_⟩
      intro result member
      rcases List.mem_cons.mp member with rfl | later
      · exact ⟨item, List.mem_cons_self, isFirst⟩
      · obtain ⟨other, isItem, isResult⟩ := each result later
        exact ⟨other, List.mem_cons_of_mem _ isItem, isResult⟩

theorem readable_of_readList
    (read : fcExprToJsonAccList text = some accessors) : ∀ accessor ∈ accessors,
      accessor.check = none ∧ accessor.All fun part => Readable part ∧
        ':' ∉ part := by
  intro accessor member
  rw [fcExprToJsonAccList] at read
  split_ifs at read with blank
  · cases read
    cases member
  · obtain ⟨piece, isPiece, isRead⟩ :=
      (mem_of_mapM_eq_some read).2 accessor member
    obtain ⟨noCheck, readable⟩ := readable_of_read isRead
    refine ⟨noCheck, readable.mono fun part both => ⟨both.1, fun colon => ?_⟩⟩
    rw [List.splitOn_eq_splitOnP] at isPiece
    have notSeparator := (mem_of_mem_splitOnP isPiece _ (both.2 _ colon)).1
    cases notSeparator

theorem entries_eq_nil {accessor : Accessor} (nothing : accessor.written = [])
    (noKey : checkKey ∉ accessor.entries.keys) : accessor.entries = [] := by
  rw [Accessor.written, List.filter_eq_nil_iff] at nothing
  rw [List.eq_nil_iff_forall_not_mem]
  intro entry member
  have isCheck : entry.1 = checkKey := by simpa using nothing entry member
  exact noKey (isCheck ▸ List.mem_map_of_mem member)

/-- A list comes back when its texts have no separators and it is not the list
of one empty accessor. -/
theorem readList_write (noCheck : ∀ accessor ∈ accessors, accessor.check = none)
    (noKey : ∀ accessor ∈ accessors, checkKey ∉ accessor.entries.keys)
    (readable : ∀ accessor ∈ accessors, accessor.All fun part => Readable part ∧
      ':' ∉ part)
    (notSingle : accessors ≠ [.empty]) :
    fcExprToJsonAccList (jsonAccListToFcExpr accessors) = some accessors := by
  by_cases blank : strip (jsonAccListToFcExpr accessors) = []
  · rcases strip_writeList_eq_nil.mp blank with rfl | ⟨accessor, rfl, nothing⟩
    · rfl
    · have isMember : accessor ∈ [accessor] := List.mem_cons_self
      have isEmpty : accessor = .empty :=
        Accessor.ext (entries_eq_nil nothing (noKey accessor isMember))
          (noCheck accessor isMember)
      exact absurd (by rw [isEmpty]) notSingle
  · have nonempty : accessors ≠ [] := fun isNil =>
      blank (strip_writeList_eq_nil.mpr (.inl isNil))
    rw [readList_writeList nonempty blank fun accessor member =>
      (readable accessor member).mono fun part both => both.2]
    conv_rhs => rw [← List.map_id accessors]
    apply mapM_map_eq_some
    intro accessor member
    exact read_write (noCheck accessor member) (noKey accessor member)
      ((readable accessor member).mono fun part both => both.1)

theorem readList_write_iff (flat : ∀ accessor ∈ accessors, Flat accessor) :
    fcExprToJsonAccList (jsonAccListToFcExpr accessors) = some accessors ↔
      accessors ≠ [.empty] ∧ ∀ accessor ∈ accessors,
        accessor.All (FreeOf [';', '|', ':']) := by
  constructor
  · intro read
    constructor
    · intro single
      subst single
      cases read
    · intro accessor member
      refine (readable_of_readList read accessor member).2.mono fun part both =>
        ?_
      intro separator isSeparator
      rcases List.mem_cons.mp isSeparator with rfl | rest
      · exact both.1.2 _ (by decide)
      · rcases List.mem_cons.mp rest with rfl | isColon
        · exact both.1.2 _ (by decide)
        · rw [List.mem_singleton.mp isColon]
          exact both.2
  · intro ⟨notSingle, free⟩
    apply readList_write (fun accessor member => (flat accessor member).noCheck)
      (fun accessor member => (flat accessor member).noKey) _ notSingle
    intro accessor member
    refine ((flat accessor member).plain.and (free accessor member)).mono
      fun part both => ?_
    refine ⟨⟨both.1.bare, fun separator isSeparator => both.2 separator ?_⟩,
      both.2 _ (by decide)⟩
    exact List.mem_append_left [':'] isSeparator

theorem foldlM_readEntry_ne_nil {pieces : List Text} {output last : Accessor}
    (begun : pieces ≠ [] ∨ output.entries ≠ [])
    (read : pieces.foldlM readEntry output = some last) :
    last.entries ≠ [] := by
  induction pieces generalizing output with
  | nil =>
      cases read
      simpa using begun
  | cons wd pieces induction =>
      rw [List.foldlM_cons] at read
      obtain ⟨next, first, later⟩ := Option.bind_eq_some_iff.mp read
      obtain ⟨kv, _, rfl⟩ := Option.map_eq_some_iff.mp first
      apply induction (.inr _) later
      intro empty
      have member :=
        (Dict.mem_keys_set output.entries kv.1 kv.1 kv.2).mpr (.inl rfl)
      change output.entries.set kv.1 kv.2 = [] at empty
      rw [empty] at member
      cases member

theorem entries_ne_nil_of_read {accessor : Accessor}
    (nonblank : strip text ≠ [])
    (read : fcExprToJsonAcc text [] = some accessor) :
    accessor.entries ≠ [] := by
  rw [fcExprToJsonAcc_of_pieces nonblank] at read
  apply foldlM_readEntry_ne_nil (.inl _) read
  rw [Ne, List.map_eq_nil_iff]
  exact List.splitOn_ne_nil _ _

theorem readList_ne_single : fcExprToJsonAccList text ≠ some [.empty] := by
  intro read
  rw [fcExprToJsonAccList] at read
  split_ifs at read with blank
  · cases read
  · obtain ⟨long, each⟩ := mem_of_mapM_eq_some read
    obtain ⟨piece, isSplit⟩ := List.length_eq_one_iff.mp long.symm
    have isText : strip text = piece := by
      rw [← @List.intercalate_splitOn _ (strip text) _ _ ':', isSplit,
        List.intercalate_singleton]
    obtain ⟨other, member, isRead⟩ := each .empty List.mem_cons_self
    rw [isSplit, List.mem_singleton] at member
    subst member
    rw [← isText, fcExprToJsonAcc_strip] at isRead
    exact entries_ne_nil_of_read blank isRead rfl

theorem rewriteList_iff (read : fcExprToJsonAccList text = some accessors) :
    fcExprToJsonAccList (jsonAccListToFcExpr accessors) = some accessors ↔
      ∀ accessor ∈ accessors, checkKey ∉ accessor.entries.keys := by
  have readable := readable_of_readList read
  constructor
  · intro again
    by_cases blank : strip (jsonAccListToFcExpr accessors) = []
    · rw [fcExprToJsonAccList, if_pos blank] at again
      cases again
      simp
    · have nonempty : accessors ≠ [] := fun isNil =>
        blank (strip_writeList_eq_nil.mpr (.inl isNil))
      have each : ∀ accessor ∈ accessors,
          fcExprToJsonAcc (jsonAccToFcExpr accessor) [] =
            some accessor.uncheck :=
        fun accessor member => read_write_uncheck
          ((readable accessor member).2.mono fun part both => both.1)
      have unchecked :
          ((accessors.map jsonAccToFcExpr).mapM fun acc =>
            fcExprToJsonAcc acc []) =
          some (accessors.map Accessor.uncheck) := mapM_map_eq_some each
      rw [readList_writeList nonempty blank fun accessor member =>
        (readable accessor member).2.mono fun part both => both.2,
        unchecked] at again
      have same :=
        List.map_eq_map_iff.mp
          ((Option.some.inj again).trans accessors.map_id.symm)
      exact fun accessor member =>
        (uncheck_eq_self_iff (readable accessor member).1).mp
          (same accessor member)
  · intro noKey
    apply readList_write (fun accessor member => (readable accessor member).1)
      noKey fun accessor member => (readable accessor member).2
    intro single
    exact readList_ne_single (single ▸ read)

def cellText (text : Text) : Text :=
  stripOf isQuote (strip (stripOf isBracket (strip text)))

theorem length_cellText_le (text : Text) :
    (cellText text).length ≤ (stripOf isBracket (strip text)).length :=
  length_stripOf_le.trans length_stripOf_le

theorem cellText_eq_self_iff :
    cellText text = text ↔ Bare isspace text ∧ Bare isBracket text ∧
      Bare isQuote text := by
  constructor
  · intro same
    have long : text.length ≤ (stripOf isBracket (strip text)).length := by
      conv_lhs => rw [← same]
      exact length_cellText_le text
    have blanks : strip text = text :=
      stripOf_eq_self_of_length (long.trans length_stripOf_le)
    have brackets : stripOf isBracket text = text := by
      rw [blanks] at long
      exact stripOf_eq_self_of_length long
    rw [cellText, blanks, brackets, blanks] at same
    exact ⟨stripOf_eq_self.mp blanks, stripOf_eq_self.mp brackets,
      stripOf_eq_self.mp same⟩
  · intro ⟨blanks, brackets, quotes⟩
    rw [cellText, strip, strip, stripOf_of_bare blanks,
      stripOf_of_bare brackets, stripOf_of_bare blanks, stripOf_of_bare quotes]

theorem fcExprToJsonList_of_notMem (noComma : ',' ∉ text) :
    fcExprToJsonList text =
      if strip text = [] then [] else [cellText text] := by
  have absent : ',' ∉ stripOf isBracket (strip text) := fun member =>
    noComma (mem_of_mem_stripOf (mem_of_mem_stripOf member))
  rw [fcExprToJsonList, List.splitOn_eq_singleton absent]
  rfl

theorem mem_stripOf_iff {outer : Char → Bool} {char : Char}
    (inner : outer char = false) : char ∈ stripOf outer text ↔ char ∈ text := by
  constructor
  · exact mem_of_mem_stripOf
  · intro member
    obtain ⟨front, back, split, frontOuter, backOuter⟩ :=
      exists_eq_stripOf outer text
    rw [split] at member
    rcases List.mem_append.mp member with isFront | inBack
    · rcases List.mem_append.mp isFront with inFront | inside
      · rw [frontOuter char inFront] at inner
        cases inner
      · exact inside
    · rw [backOuter char inBack] at inner
      cases inner

/-- The list of one text comes back exactly when the text has no comma and no
bracket or quote at its ends. -/
theorem readSingle_iff (plain : Plain text) :
    fcExprToJsonList (jsonArrToFc [text]) = [text] ↔
      ',' ∉ text ∧ Bare isBracket text ∧ Bare isQuote text := by
  have nonblank : strip text ≠ [] := by
    rw [strip, stripOf_of_bare plain.bare]
    exact plain.nonempty
  rw [jsonArrToFc, List.intercalate_singleton]
  constructor
  · intro same
    have noComma : ',' ∉ text := by
      intro comma
      rw [fcExprToJsonList, if_neg nonblank] at same
      have long := congrArg List.length same
      have inside : ',' ∈ stripOf isBracket (strip text) := by
        rw [mem_stripOf_iff (by decide), strip, mem_stripOf_iff (by decide)]
        exact comma
      obtain ⟨before, after, split⟩ := List.append_of_mem inside
      have first := List.length_pos_iff.mpr (List.splitOn_ne_nil ',' before)
      have second := List.length_pos_iff.mpr (List.splitOn_ne_nil ',' after)
      rw [split, List.splitOn_append_cons_self, List.length_map,
        List.length_append, List.length_singleton] at long
      omega
    rw [fcExprToJsonList_of_notMem noComma, if_neg nonblank] at same
    exact ⟨noComma, (cellText_eq_self_iff.mp (List.singleton_inj.mp same)).2⟩
  · intro ⟨noComma, bare⟩
    rw [fcExprToJsonList_of_notMem noComma, if_neg nonblank,
      cellText_eq_self_iff.mpr ⟨plain.bare, bare⟩]

/-- What is read from a cell without a comma comes back exactly when nothing
more can be stripped from it. -/
theorem rereadSingle_iff (noComma : ',' ∉ text) :
    fcExprToJsonList (jsonArrToFc (fcExprToJsonList text)) =
      fcExprToJsonList text ↔
      strip text = [] ∨ Plain (cellText text) ∧
        Bare isBracket (cellText text) := by
  rw [fcExprToJsonList_of_notMem noComma]
  split_ifs with blank
  · exact iff_of_true rfl (.inl blank)
  · have absent : ',' ∉ cellText text := fun member =>
      noComma (mem_of_mem_stripOf (mem_of_mem_stripOf (mem_of_mem_stripOf
        (mem_of_mem_stripOf member))))
    have quotes : Bare isQuote (cellText text) := bare_stripOf _
    rw [jsonArrToFc, List.intercalate_singleton,
      fcExprToJsonList_of_notMem absent]
    constructor
    · intro same
      split_ifs at same with nothing
      have fixed := cellText_eq_self_iff.mp (List.singleton_inj.mp same)
      refine .inr ⟨⟨?_, fixed.1⟩, fixed.2.1⟩
      intro empty
      rw [empty] at nothing
      exact nothing rfl
    · intro condition
      rcases condition with isBlank | ⟨plain, brackets⟩
      · exact absurd isBlank blank
      · have nonblank : strip (cellText text) ≠ [] := by
          rw [strip, stripOf_of_bare plain.bare]
          exact plain.nonempty
        rw [if_neg nonblank,
          cellText_eq_self_iff.mpr ⟨plain.bare, brackets, quotes⟩]

/-- When the readers undo the writers, and when what they read is read again
from what is written for it. -/
theorem round_trips :
    (∀ accessor, Flat accessor →
      (fcExprToJsonAcc (jsonAccToFcExpr accessor) [] = some accessor ↔
        accessor.All (FreeOf [';', '|']))) ∧
    (∀ accessors, (∀ accessor ∈ accessors, Flat accessor) →
      (fcExprToJsonAccList (jsonAccListToFcExpr accessors) = some accessors ↔
        accessors ≠ [.empty] ∧ ∀ accessor ∈ accessors,
          accessor.All (FreeOf [';', '|', ':']))) ∧
    fcExprToJsonList (jsonArrToFc []) = [] ∧
    (∀ text, Plain text → (fcExprToJsonList (jsonArrToFc [text]) = [text] ↔
      ',' ∉ text ∧ Bare isBracket text ∧ Bare isQuote text)) ∧
    (∀ text accessor, fcExprToJsonAcc text [] = some accessor →
      (fcExprToJsonAcc (jsonAccToFcExpr accessor) [] = some accessor ↔
        checkKey ∉ accessor.entries.keys)) ∧
    (∀ text accessors, fcExprToJsonAccList text = some accessors →
      (fcExprToJsonAccList (jsonAccListToFcExpr accessors) = some accessors ↔
        ∀ accessor ∈ accessors, checkKey ∉ accessor.entries.keys)) ∧
    ∀ text, ',' ∉ text →
      (fcExprToJsonList (jsonArrToFc (fcExprToJsonList text)) =
        fcExprToJsonList text ↔
        strip text = [] ∨ Plain (cellText text) ∧
          Bare isBracket (cellText text)) := by
  refine ⟨fun accessor => read_write_iff, fun accessors => readList_write_iff,
    rfl, ?_, ?_, ?_, ?_⟩
  · exact fun text => readSingle_iff
  · exact fun text accessor => rewrite_iff
  · exact fun text accessors => rewriteList_iff
  · exact fun text => rereadSingle_iff

namespace Semicolon

/-- The value has a separator. -/
def accessor : Accessor :=
  Accessor.empty.set "object".toList "a;b".toList

theorem plain_of_ends {text : Text} (head : text.head?.any isspace = false)
    (last : text.getLast?.any isspace = false) (nonempty : text ≠ []) :
    Plain text := by
  refine ⟨nonempty, ?_, ?_⟩
  · intro char isHead
    rw [Option.mem_def.mp isHead] at head
    exact head
  · intro char isLast
    rw [Option.mem_def.mp isLast] at last
    exact last

theorem flat : Flat accessor := by
  constructor
  · rfl
  · decide
  · intro entry member
    rw [List.mem_singleton.mp member]
    exact ⟨plain_of_ends rfl rfl (by decide), plain_of_ends rfl rfl (by decide)⟩

theorem not_read : ¬ ∀ accessor, Flat accessor →
    fcExprToJsonAcc (jsonAccToFcExpr accessor) [] = some accessor := by
  intro undone
  cases undone accessor flat

theorem round_trips_semicolon :
    fcExprToJsonAcc (jsonAccToFcExpr accessor) [] ≠ some accessor := by
  intro read
  have free := (round_trips.1 accessor flat).mp read _ List.mem_cons_self
  exact absurd (free.2 ';' (by decide)) (by decide)

end Semicolon

end Nvbmc.FaultSpec
