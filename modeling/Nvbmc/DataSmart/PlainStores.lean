import Nvbmc.DataSmart.Slots

/-!
# Stores of plain variables

In a store where no variable has a variant or an operation a value is read as it
is held, and a write that returns holds one more value.  Two variables get marks
of the store itself: the one with the exported names, and the one that tells of
renamed variables.
-/

namespace Nvbmc.DataSmart

open Library Store

def Data.held (data : Data) (var key : Text) : Option Value :=
  (data.findVar var).bind (·.get? key)

def put (held : Text → Text → Option Value) (var key : Text) (value : Value) :
    Text → Text → Option Value :=
  fun name slot => if name = var ∧ slot = key then some value
                   else held name slot

structure Data.Plain (data : Data) : Prop where
  variants : data.overridedata = []
  operations : ∀ var, ∀ keyword ∈ setvarKeywords, data.held var keyword = none

section Held

variable {data : Data} {var key : Text} {value : Value}

theorem Data.Plain.put {after : Data} (plain : data.Plain)
    (ordinary : key ∉ setvarKeywords)
    (variants : after.overridedata = data.overridedata)
    (held : after.held = put data.held var key value) : after.Plain where
  variants := by rw [variants, plain.variants]
  operations := by
    intro name keyword member
    rw [held, DataSmart.put, if_neg, plain.operations name keyword member]
    intro same
    exact ordinary (same.2 ▸ member)

variable (data)

theorem held_eq_get? (var key : Text) :
    data.held var key = ((data.findVar var).getD []).get? key := by
  rw [Data.held]
  cases data.findVar var with
  | none => rfl
  | some flags => rfl

theorem held_setFlags (flags : Flags) (name slot : Text) :
    (data.setFlags var flags).held name slot =
      if name = var then flags.get? slot else data.held name slot := by
  rw [Data.held, Data.findVar_setFlags]
  split_ifs
  · rfl
  · rfl

theorem held_makeShadowCopy (var : Text) : (data.makeShadowCopy var).held =
    data.held := by
  funext name slot
  rw [held_eq_get?, held_eq_get?]
  by_cases same : name = var
  · rw [same, Data.findVar_makeShadowCopy_self]
  · rw [data.findVar_makeShadowCopy var name same]

theorem ownFlags_get? (var slot : Text) :
    ((data.makeShadowCopy var).ownFlags var).get? slot =
      data.held var slot := by
  rw [Data.ownFlags_makeShadowCopy, held_eq_get?]

theorem held_write (var key : Text) (value : Value) :
    ((data.makeShadowCopy var).setFlags var
      (((data.makeShadowCopy var).ownFlags var).set key value)).held =
      put data.held var key value := by
  funext name slot
  rw [held_setFlags, Dict.get?_set, ownFlags_get?, held_makeShadowCopy, put]
  by_cases same : name = var
  · by_cases here : slot = key
    · simp [same, here]
    · simp [same, here]
  · simp [same]

theorem overridedata_makeShadowCopy (var : Text) :
    (data.makeShadowCopy var).overridedata = data.overridedata := by
  rw [Data.makeShadowCopy]
  split_ifs
  · rfl
  · rfl

theorem held_delVar (var name slot : Text) :
    (data.delVar var).held name slot =
      if name = var then none else data.held name slot := by
  have found : (data.delVar var).findVar name =
      if name = var then some [] else data.findVar name := by
    rw [Data.findVar, Data.delVar, Data.findVar]
    simp only [List.findSome?_cons, Dict.get?_set]
    split_ifs
    · rfl
    · rfl
  rw [Data.held, found]
  split_ifs
  · rfl
  · rfl

theorem held_delVarFlag (var flag name slot : Text) :
    (data.delVarFlag var flag).held name slot =
      if name = var ∧ (slot = flag ∨ slot = defaultvalFlag ++ flag) ∧
          data.held var flag ≠ none then none
      else data.held name slot := by
  rw [held_eq_get?]
  by_cases same : name = var
  · rw [same, Data.findVar_delVarFlag, held_eq_get?, held_eq_get?]
    by_cases present : flag ∈ ((data.findVar var).getD []).keys
    · have isHeld := Dict.get?_ne_none_iff.mpr present
      simp only [if_pos present, Dict.get?_del]
      by_cases weak : slot = defaultvalFlag ++ flag
      · simp [weak, isHeld]
      · by_cases here : slot = flag
        · simp [here, isHeld]
        · simp [weak, here]
    · have absent : ((data.findVar var).getD []).get? flag = none := by
        by_contra isHeld
        exact present (Dict.get?_ne_none_iff.mp isHeld)
      simp [present, absent]
  · have kept : (data.delVarFlag var flag).findVar name =
        data.findVar name := by
      rw [Data.delVarFlag]
      split
      · rfl
      · dsimp only
        split
        · rw [Data.findVar_setFlags, if_neg same,
            data.findVar_makeShadowCopy var name same]
        · exact data.findVar_makeShadowCopy var name same
    rw [kept, ← held_eq_get?]
    simp [same]

end Held

section Reads

variable {python : Python} {data : Data} {fuel : ℕ} {memo : Memo} {mode : Mode}

theorem readContent_plain (plain : data.Plain)
    (unexpanded : mode.expand = false)
    (noParser : mode.retparser = false) (var : Text) :
    readContent python data (fuel + 1) var mode memo =
      (some (data.ownValue var contentFlag mode.noweakdefault, none),
        memo) := by
  have noVariant : data.overridedata.get? var = none := by
    rw [plain.variants]
    rfl
  have noOperation : ∀ keyword ∈ setvarKeywords,
      (data.findVar var).bind (·.get? keyword) = none := plain.operations var
  have uncached : cachedRead memo var mode = none := by
    rw [cachedRead]
    cases memo.expandCache.get? var with
    | none => rfl
    | some parse => simp [unexpanded, noParser]
  have variantless : readVariant (readContent python data fuel) data var
      mode.parsing =
      pure (.none, none) := by
    rw [readVariant, noVariant]
    simp
  have untouched : ∀ keyword ∈ setvarKeywords, ∀ combine value,
      applyOperation (readContent python data fuel) (data.findVar var) keyword
        mode.parsing combine value = pure value := by
    intro keyword member combine value
    rw [applyOperation, noOperation keyword member]
    simp
  have nothingRemoved : ∀ value,
      activeRemoves (readContent python data fuel) (data.findVar var)
        mode.parsing value none =
        pure [] := by
    intro value
    rw [activeRemoves, noOperation removeKeyword (by simp [setvarKeywords])]
    simp
  rw [readContent, getContent, Run.get_bind_apply, uncached]
  simp only [variantless]
  rw [Run.pure_bind_apply, untouched appendKeyword (by simp [setvarKeywords]),
    Run.pure_bind_apply, untouched prependKeyword (by simp [setvarKeywords]),
    Run.pure_bind_apply, finishContent, unexpanded, noParser, nothingRemoved]
  rfl

theorem getVarFlag_plain (plain : data.Plain) (unexpanded : mode.expand = false)
    (noParser : mode.retparser = false) (var : Text) {flag : Text}
    (named : flag ≠ [])
    (deep : flag = contentFlag → fuel ≠ 0) :
    getVarFlag python data fuel var flag mode memo =
      (some (data.ownValue var flag mode.noweakdefault, none), memo) := by
  rw [getVarFlag, if_neg named]
  by_cases content : flag = contentFlag
  · obtain ⟨depth, isDepth⟩ := Nat.exists_eq_succ_of_ne_zero (deep content)
    rw [if_pos content, content, isDepth]
    exact readContent_plain plain unexpanded noParser var
  · have uncached : cachedRead memo (var ++ '[' :: flag ++ [']']) mode =
        none := by
      rw [cachedRead]
      cases memo.expandCache.get? (var ++ '[' :: flag ++ [']']) with
      | none => rfl
      | some parse => simp [unexpanded, noParser]
    rw [if_neg content]
    simp only [Run.get_bind_apply, uncached, unexpanded, noParser]
    rfl

def Data.readAs (data : Data) : Option Value → Value
  | some value => data.copied value
  | none => .none

theorem ownValue_strict (data : Data) (var flag : Text) :
    data.ownValue var flag true = data.readAs (data.held var flag) := by
  have found : (data.findVar var).bind (heldFlag · flag true) =
      data.held var flag := by
    rw [Data.held]
    cases data.findVar var with
    | none => rfl
    | some flags =>
        show heldFlag flags flag true = flags.get? flag
        rw [heldFlag]
        cases flags.get? flag with
        | none => rfl
        | some value => rfl
  rw [Data.ownValue, found]
  rfl

theorem ownValue_weak {var : Text} {flag : Option Text} (target : IsTarget flag)
    (noWeakContent : data.held var (defaultvalFlag ++ contentFlag) = none) :
    data.ownValue var (valueKey flag) false =
      data.readAs ((data.held var (valueKey flag)).or
        (data.held var (weakKey flag))) := by
  have found : (data.findVar var).bind (heldFlag · (valueKey flag) false) =
      (data.held var (valueKey flag)).or (data.held var (weakKey flag)) := by
    rw [Data.held] at noWeakContent ⊢
    rw [Data.held]
    cases isFound : data.findVar var with
    | none => rfl
    | some flags =>
        rw [isFound] at noWeakContent
        simp only [Option.bind_some] at noWeakContent ⊢
        cases flag with
        | none =>
            show heldFlag flags contentFlag false =
              (flags.get? contentFlag).or (flags.get? defaultval)
            rw [heldFlag]
            cases flags.get? contentFlag with
            | some value => rfl
            | none =>
                show (match flags.get? defaultval with
                  | some value => some value
                  | none =>
                      flags.get? (defaultvalFlag ++ contentFlag)) =
                        flags.get? defaultval
                cases flags.get? defaultval with
                | some value => rfl
                | none => exact noWeakContent
        | some name =>
            apply Data.heldFlag_of_ne
            intro same
            exact (target name rfl).2.1 (congrArg List.head? same)
  rw [Data.ownValue, found]
  rfl

end Reads

section Writes

variable {python : Python} {fuel : ℕ} {store after : Store} {var key : Text}
  {value : Value}

def Data.bare (data : Data) : Data :=
  { data with overridevars := [] }

theorem bare_reading {α : Type} (base : Data) (read : Data → Run Memo α) :
    Run.AgreeOn (fun store : Store => store.bare = base) (reading read)
      (reading read) :=
  fun _ holds => ⟨rfl, holds⟩

theorem bare_overridevarsLoop (base : Data) (rounds : ℕ) (new : List Text) :
    Run.AgreeOn (fun store : Store => store.bare = base)
      (overridevarsLoop python fuel rounds new)
      (overridevarsLoop python fuel rounds new) := by
  induction rounds generalizing new with
  | zero =>
      rw [overridevarsLoop]
      apply Run.AgreeOn.get_bind
      intro store holds
      split
      · exact .pure ()
      · exact .raise
  | succ rounds induction =>
      rw [overridevarsLoop]
      apply Run.AgreeOn.get_bind
      intro store holds
      split
      · exact .pure ()
      · apply Run.AgreeOn.bind
        · apply Run.AgreeOn.modify
          intro _ holds
          exact holds
        intro _
        apply Run.AgreeOn.bind
        · apply Run.AgreeOn.collect
          intro name
          apply Run.AgreeOn.bind (bare_reading base _)
          intro value
          apply Run.AgreeOn.bind (bare_reading base _)
          intro vardata
          exact .pure _
        · intro found
          exact induction _

theorem bare_setvarUpdateOverridevars (store : Store) (var : Text)
    (value : Value) :
    (setvarUpdateOverridevars python fuel var value store).2.bare =
      store.bare := by
  have agree : Run.AgreeOn (fun other : Store => other.bare = store.bare)
      (setvarUpdateOverridevars python fuel var value)
      (setvarUpdateOverridevars python fuel var value) := by
    rw [setvarUpdateOverridevars]
    apply Run.AgreeOn.bind (bare_reading _ _)
    intro vardata
    apply Run.AgreeOn.bind (bare_overridevarsLoop _ _ _)
    intro _
    exact .modify fun _ holds => holds
  exact (agree store rfl).2

theorem bare_when_update {condition : Prop} [Decidable condition]
    (returned : Run.when condition
      (setvarUpdateOverridevars python fuel var value) store =
      (some (), after)) : after.bare = store.bare := by
  rw [Run.when] at returned
  split_ifs at returned
  · have kept := @bare_setvarUpdateOverridevars python fuel store var value
    rwa [returned] at kept
  · cases returned
    rfl

variable {data other : Data} (same : data.bare = other.bare)
include same

theorem held_of_bare : data.held = other.held := by
  show data.bare.held = other.bare.held
  rw [same]

theorem overridedata_of_bare : data.overridedata = other.overridedata := by
  show data.bare.overridedata = other.bare.overridedata
  rw [same]

theorem varRenames_of_bare : data.varRenames = other.varRenames := by
  show data.bare.varRenames = other.bare.varRenames
  rw [same]

omit same

/-- What a write of one value does: it is held from now on, and the names of the
renamed variables stay. -/
structure Wrote (var key : Text) (value : Value) (data after : Data) :
    Prop where
  held : after.held = put data.held var key value
  variants : after.overridedata = data.overridedata
  renames : after.varRenames = data.varRenames

theorem Wrote.of_bare {data between after : Data}
    (wrote : Wrote var key value data between)
    (same : after.bare = between.bare) : Wrote var key value data after where
  held := (held_of_bare same).trans wrote.held
  variants := (overridedata_of_bare same).trans wrote.variants
  renames := (varRenames_of_bare same).trans wrote.renames

theorem Wrote.plain {data after : Data} (wrote : Wrote var key value data after)
    (plain : data.Plain) (ordinary : key ∉ setvarKeywords) : after.Plain :=
  plain.put ordinary wrote.variants wrote.held

variable (data)

theorem varRenames_makeShadowCopy (var : Text) :
    (data.makeShadowCopy var).varRenames = data.varRenames := by
  rw [Data.makeShadowCopy]
  split_ifs
  · rfl
  · rfl

theorem wrote_setFlags (var key : Text) (value : Value) :
    Wrote var key value data ((data.makeShadowCopy var).setFlags var
      (((data.makeShadowCopy var).ownFlags var).set key value)) where
  held := held_write data var key value
  variants := overridedata_makeShadowCopy data var
  renames := varRenames_makeShadowCopy data var

theorem mem_foldl_del (flags : Flags) (keys : List Text) (slot : Text) :
    (keys.foldl (fun flags keyword => flags.del keyword) flags).get? slot =
      if slot ∈ keys then none else flags.get? slot := by
  induction keys generalizing flags with
  | nil => simp
  | cons key keys induction =>
      rw [List.foldl_cons, induction, Dict.get?_del]
      by_cases same : slot = key
      · simp [same]
      · simp [same]

theorem ownFlags_setFlags (var : Text) (flags : Flags) :
    (data.setFlags var flags).ownFlags var = flags := by
  simp [Data.ownFlags, Data.setFlags]

theorem held_strip {data : Data} (plain : data.Plain) (var : Text) :
    ((data.makeShadowCopy var).setFlags var
      (setvarKeywords.foldl (fun flags keyword => flags.del keyword)
        ((data.makeShadowCopy var).ownFlags var))).held = data.held := by
  funext name slot
  rw [held_setFlags, mem_foldl_del, ownFlags_get?, held_makeShadowCopy]
  by_cases same : name = var
  · by_cases isKeyword : slot ∈ setvarKeywords
    · rw [if_pos same, if_pos isKeyword, plain.operations name slot isKeyword]
    · rw [if_pos same, if_neg isKeyword, same]
  · rw [if_neg same]

theorem held_overwrite (var key : Text) (flags : Flags) (value : Value) :
    ((data.setFlags var flags).setFlags var
      (((data.setFlags var flags).ownFlags var).set key value)).held =
      put (data.setFlags var flags).held var key value := by
  funext name slot
  rw [held_setFlags, ownFlags_setFlags, Dict.get?_set, put, held_setFlags]
  by_cases same : name = var
  · by_cases here : slot = key
    · simp [same, here]
    · simp [same, here]
  · simp [same]

/-- The value of a variable is written, with or without the operations that
there are none of. -/
theorem wrote_setVarPlain (plain : store.Plain) (noColon : ':' ∉ var)
    {parsing : Bool}
    (returned : setVarPlain python fuel var value parsing store =
      (some (), after)) :
    Wrote var contentFlag value store.toData after.toData := by
  rw [setVarPlain] at returned
  obtain ⟨_, copied, isCopied, returned⟩ := Run.bind_eq_some_iff.mp returned
  cases isCopied
  obtain ⟨_, cleared, isCleared, returned⟩ := Run.bind_eq_some_iff.mp returned
  rw [Run.when, if_neg noColon] at returned
  obtain ⟨_, _, isSame, returned⟩ := Run.bind_eq_some_iff.mp returned
  cases isSame
  obtain ⟨_, written, isWritten, returned⟩ := Run.bind_eq_some_iff.mp returned
  cases isWritten
  rw [Run.get_bind_apply] at returned
  apply Wrote.of_bare _ (bare_when_update returned)
  cases parsing with
  | true =>
      cases isCleared
      exact wrote_setFlags store.toData var contentFlag value
  | false =>
      rw [Run.when, if_pos rfl] at isCleared
      obtain ⟨_, stripped, isStripped, dropped⟩ :=
        Run.bind_eq_some_iff.mp isCleared
      cases isStripped
      rw [dropVariants, Run.get_bind_apply] at dropped
      have noVariant : (store.toData.makeShadowCopy var).overridedata.get? var =
          none := by
        rw [overridedata_makeShadowCopy, plain.variants]
        rfl
      simp only [Data.setFlags, noVariant] at dropped
      cases dropped
      constructor
      · refine (held_overwrite (store.toData.makeShadowCopy var) var contentFlag
          _ value).trans ?_
        rw [held_strip plain]
      · exact overridedata_makeShadowCopy _ _
      · exact varRenames_makeShadowCopy _ _

def markedHeld (held : Text → Text → Option Value) (renamed : Prop)
    [Decidable renamed] : Text → Text → Option Value :=
  if renamed then put held failedMark contentFlag (.object 1) else held

theorem held_markRenamed (plain : store.Plain)
    (returned : markRenamed python fuel var store = (some (), after)) :
    after.held = markedHeld store.held (var ∈ store.varRenames) ∧ after.Plain ∧
      after.varRenames = store.varRenames ∧
        (var ∈ store.varRenames → var ≠ failedMark) := by
  rw [markRenamed, Run.get_bind_apply] at returned
  by_cases renamed : var ∈ store.varRenames
  · rw [if_pos renamed] at returned
    by_cases fatal : failedMark ∈ store.varRenames
    · rw [if_pos fatal] at returned
      cases returned
    · rw [if_neg fatal] at returned
      obtain ⟨_, forgotten, isForgotten, returned⟩ :=
        Run.bind_eq_some_iff.mp returned
      cases isForgotten
      have noColon : ':' ∉ failedMark := by decide
      have wrote := @wrote_setVarPlain python fuel { store with
          expandCache := [] } after
        failedMark (.object 1) plain noColon false returned
      refine ⟨?_, wrote.plain plain (by decide), wrote.renames, ?_⟩
      · rw [markedHeld, if_pos renamed]
        exact wrote.held
      · intro _ same
        exact fatal (same ▸ renamed)
  · rw [if_neg renamed] at returned
    cases returned
    refine ⟨?_, plain, rfl, fun isRenamed => absurd isRenamed renamed⟩
    rw [markedHeld, if_neg renamed]

/-- Flags that put the name of their variable to the exported names. -/
def isExport (key : Text) : Bool :=
  key = exportFlag || key = "unexport".toList

theorem isExport_iff : isExport key = true ↔ key = "export".toList ∨
    key = "unexport".toList := by
  rw [isExport, Bool.or_eq_true, decide_eq_true_iff, decide_eq_true_iff]
  exact Iff.rfl

theorem wrote_addExported {data changed : Data}
    (found : addExported data var = some changed) :
    ∃ id, Wrote exportlist contentFlag (.cell id) data changed := by
  rw [addExported] at found
  dsimp only at found
  have isHeld := ownFlags_get? data exportlist contentFlag
  split at found
  · cases found
    exact ⟨_, (wrote_setFlags data exportlist contentFlag _).held,
      overridedata_makeShadowCopy _ _, varRenames_makeShadowCopy _ _⟩
  · rename_i id isCell
    cases found
    refine ⟨id, ?_, overridedata_makeShadowCopy _ _,
      varRenames_makeShadowCopy _ _⟩
    show (data.makeShadowCopy exportlist).held = _
    rw [held_makeShadowCopy]
    funext name slot
    rw [put]
    split_ifs with same
    · rw [same.1, same.2, ← isHeld, isCell]
    · rfl
  · cases found

def exportedHeld (held : Text → Text → Option Value) (exported : Bool)
    (id : ℕ) : Text → Text → Option Value :=
  if exported then put held exportlist contentFlag (.cell id) else held

structure Assigned (var key : Text) (value : Value) (renames : List Text)
    (exported : Bool) (store after : Store) : Prop where
  held : ∃ id, after.held =
    exportedHeld (put (markedHeld store.held (var ∈ renames)) var key value)
      exported id
  plain : after.Plain
  unmarked : var ∈ renames → var ≠ failedMark

def renamesWith (store : Store) (var key : Text) : List Text :=
  if var = renamedVariables then store.varRenames.insert key
  else store.varRenames

variable (noColon : ':' ∉ var)
include noColon

theorem assigned_setVarFlag (plain : store.Plain)
    (ordinary : key ∉ setvarKeywords)
    (returned : setVarFlag python fuel var key value store = (some (), after)) :
    Assigned var key value (renamesWith store var key)
      (isExport key) store after := by
  rw [setVarFlag] at returned
  obtain ⟨_, forgotten, isForgotten, returned⟩ :=
    Run.bind_eq_some_iff.mp returned
  cases isForgotten
  obtain ⟨_, named, isNamed, returned⟩ := Run.bind_eq_some_iff.mp returned
  have sameData : named.held = store.held ∧ named.Plain ∧
      named.varRenames = renamesWith store var key := by
    rw [Run.when] at isNamed
    rw [renamesWith]
    split_ifs at isNamed ⊢
    · cases isNamed
      exact ⟨rfl, ⟨plain.variants, plain.operations⟩, rfl⟩
    · cases isNamed
      exact ⟨rfl, plain, rfl⟩
  obtain ⟨heldNamed, plainNamed, renamesNamed⟩ := sameData
  obtain ⟨_, marked, isMarked, returned⟩ := Run.bind_eq_some_iff.mp returned
  obtain ⟨heldMarked, plainMarked, _, unmarked⟩ :=
    held_markRenamed plainNamed isMarked
  rw [renamesNamed] at heldMarked unmarked
  obtain ⟨_, written, isWritten, returned⟩ := Run.bind_eq_some_iff.mp returned
  cases isWritten
  rw [Run.when, if_neg (fun both => noColon both.2)] at returned
  obtain ⟨_, _, isSame, returned⟩ := Run.bind_eq_some_iff.mp returned
  cases isSame
  rw [Run.get_bind_apply] at returned
  obtain ⟨_, updated, isUpdated, returned⟩ := Run.bind_eq_some_iff.mp returned
  have wrote : Wrote var key value marked.toData updated.toData :=
    (wrote_setFlags marked.toData var key value).of_bare
      (bare_when_update isUpdated)
  have heldUpdated : updated.held =
      put (markedHeld store.held (var ∈ renamesWith store var key)) var key
        value := by
    rw [wrote.held, heldMarked, heldNamed]
  by_cases exported : key = "export".toList ∨ key = "unexport".toList
  · have isExported : isExport key = true := isExport_iff.mpr exported
    rw [Run.when, if_pos exported, Run.get_bind_apply] at returned
    obtain ⟨data, _, isData, returned⟩ := Run.bind_eq_some_iff.mp returned
    obtain ⟨found, isSame⟩ := Run.ofOption_eq_some_iff.mp isData
    cases isSame
    cases returned
    obtain ⟨id, added⟩ := wrote_addExported found
    refine ⟨⟨id, ?_⟩, added.plain (wrote.plain plainMarked ordinary)
      (by decide), unmarked⟩
    rw [exportedHeld, if_pos isExported, ← heldUpdated]
    exact added.held
  · have isExported : isExport key = false := by
      rw [← Bool.not_eq_true, isExport_iff]
      exact exported
    rw [Run.when, if_neg exported] at returned
    cases returned
    refine ⟨⟨0, ?_⟩, wrote.plain plainMarked ordinary, unmarked⟩
    rw [exportedHeld, isExported, heldUpdated]
    rfl

theorem shortName_plain : shortName var = var := by
  rw [shortName, List.takeWhile_eq_self_iff]
  intro char member
  apply decide_eq_true
  intro same
  exact noColon (same ▸ member)

theorem matchSetvar_plain (base : Text) : matchSetvar base var = none := by
  have notKeyword : ∀ rest : Text, ':' ∉ rest → keywordAt rest = none := by
    intro rest noColon
    rw [keywordAt, List.findSome?_eq_none_iff]
    intro keyword member
    rw [if_neg]
    intro begins
    obtain ⟨behind, split⟩ := List.isPrefixOf_iff_prefix.mp begins
    have colon := head_keyword member
    cases keyword with
    | nil => cases colon
    | cons char keyword =>
        cases colon
        exact noColon (split ▸ List.mem_cons_self)
  induction var generalizing base with
  | nil => rfl
  | cons char rest induction =>
      rw [matchSetvar, notKeyword _ noColon]
      dsimp only
      split_ifs
      · rfl
      · exact induction (fun member => noColon (List.mem_cons_of_mem _ member))
          _

theorem assigned_setVar (plain : store.Plain) {parsing : Bool}
    (returned : setVar python fuel var value parsing store = (some (), after)) :
    Assigned var contentFlag value store.varRenames false store after := by
  rw [setVar] at returned
  split_ifs at returned
  · cases returned
  · rw [shortName_plain noColon] at returned
    obtain ⟨_, marked, isMarked, returned⟩ := Run.bind_eq_some_iff.mp returned
    obtain ⟨heldMarked, plainMarked, _, unmarked⟩ :=
      held_markRenamed plain isMarked
    obtain ⟨_, forgotten, isForgotten, returned⟩ :=
      Run.bind_eq_some_iff.mp returned
    cases isForgotten
    rw [matchSetvar_plain noColon] at returned
    have wrote := @wrote_setVarPlain python fuel { marked with
        expandCache := [] } after var value plainMarked noColon parsing returned
    refine ⟨⟨0, ?_⟩, wrote.plain plainMarked (by decide), unmarked⟩
    rw [exportedHeld, ← heldMarked]
    exact wrote.held

end Writes

end Nvbmc.DataSmart
