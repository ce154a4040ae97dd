import Nvbmc.DataSmart.Write

/-!
# Data that reads the same

A read looks at the variants of a variable, at the value that is held for it and
at its operations.  Data with the same of these is read with the same result.
While the list of overrides is known, only the active entries of the operations
count.
-/

namespace Nvbmc.DataSmart

open Library

def Known (overrides : List Text) (memo : Memo) : Prop :=
  memo.overrides = some overrides

/-- A default read, expanded or not. -/
def Mode.Plain (mode : Mode) : Prop :=
  mode.noweakdefault = false ∧ mode.parsing = false

section Parts

variable {read : Reader} {overrides : List Text} {memo : Memo}

theorem needOverrides_known (known : Known overrides memo) :
    needOverrides read memo = (some (), memo) := by
  have isKnown : memo.overrides = some overrides := known
  simp [needOverrides, isKnown]

end Parts

def activeEntries (overrides : List Text)
    (entries : List (Text × Option Text)) : List Text :=
  (entries.filter fun entry => isActive (some overrides) entry.2 =
    some true).map Prod.fst

/-- A text goes to the others unless it is there. -/
def addNew (texts : List Text) (text : Text) : List Text :=
  if text ∈ texts then texts else texts ++ [text]

variable (overrides : List Text)

theorem isActive_some (override : Option Text) :
    ∃ active, isActive (some overrides) override = some active := by
  cases override with
  | none => exact ⟨true, rfl⟩
  | some override =>
      cases override with
      | nil => exact ⟨true, rfl⟩
      | cons char rest => exact ⟨partsActive overrides (char :: rest), rfl⟩

variable (entries : List (Text × Option Text))

theorem addEntries_some (combine : Text → Text → Text) (value : Value) :
    addEntries combine (some overrides) entries value =
      (activeEntries overrides entries).foldlM (addText combine) value := by
  induction entries generalizing value with
  | nil => rfl
  | cons entry rest induction =>
      obtain ⟨active, decided⟩ := isActive_some overrides entry.2
      rw [addEntries, decided]
      simp only [Option.bind_eq_bind, Option.bind_some, induction,
        activeEntries, List.filter_cons, decided]
      cases active with
      | false => rfl
      | true => rfl

theorem activeTexts_some (texts : List Text) :
    activeTexts (some overrides) entries texts =
      some ((activeEntries overrides entries).foldl addNew texts) := by
  induction entries generalizing texts with
  | nil => rfl
  | cons entry rest induction =>
      obtain ⟨active, decided⟩ := isActive_some overrides entry.2
      rw [activeTexts, decided]
      simp only [Option.bind_eq_bind, Option.bind_some, induction,
        activeEntries, List.filter_cons, decided]
      cases active with
      | false => simp
      | true =>
          by_cases member : entry.1 ∈ texts
          · simp [addNew, member]
          · simp [addNew, member]

def activeOperation (overrides : List Text) (flags : Option Flags)
    (keyword : Text) : Option (List Text) :=
  match flags.bind (·.get? keyword) with
  | none => some []
  | some held => held.entries.map (activeEntries overrides)

section Parts

variable {read : Reader} {data : Data} {overrides : List Text} {memo : Memo}
  {var : Text} {value : Value}

theorem applyOperation_known {keyword : Text} {combine : Text → Text → Text}
    (known : Known overrides memo) :
    applyOperation read (data.findVar var) keyword false combine value memo =
      ((activeOperation overrides (data.findVar var) keyword).bind
        fun texts => texts.foldlM (addText combine) value, memo) := by
  have isKnown : memo.overrides = some overrides := known
  rw [applyOperation, activeOperation]
  simp only [Bool.false_eq_true, if_false]
  cases (data.findVar var).bind (·.get? keyword) with
  | none => rfl
  | some held =>
      simp only
      rw [Run.bind_apply_of_eq (needOverrides_known known), Run.get_bind_apply,
        isKnown]
      cases held.entries with
      | none => rfl
      | some entries =>
          show Run.ofOption (addEntries combine (some overrides) entries value)
            memo = _
          rw [addEntries_some]
          simp only [Option.map_some, Option.bind_some]
          cases (activeEntries overrides entries).foldlM (addText combine)
            value <;> rfl

def variantTexts (variant : Option (Text × List Text)) : List Text :=
  (variant.map Prod.snd).getD []

theorem shareRemoves_self (variant : Option (Text × List Text)) (memo : Memo) :
    shareRemoves variant (variantTexts variant) memo = memo := by
  cases variant with
  | none => rfl
  | some variant => exact if_pos rfl

variable {variant : Option (Text × List Text)}

theorem activeRemoves_known (known : Known overrides memo) :
    activeRemoves read (data.findVar var) false value variant memo =
      if value.isTrue then
        (Run.ofOption
          (activeOperation overrides (data.findVar var) removeKeyword) >>=
          fun texts => do
            let removes := texts.foldl addNew (variantTexts variant)
            Run.modify (shareRemoves variant removes)
            pure removes) memo
      else (some (variantTexts variant), memo) := by
  have isKnown : memo.overrides = some overrides := known
  rw [activeRemoves, activeOperation]
  cases value.isTrue with
  | false => rfl
  | true =>
      simp only [Bool.not_true, Bool.or_self, Bool.false_eq_true, if_false,
        if_true]
      cases (data.findVar var).bind (·.get? removeKeyword) with
      | none =>
          show _ = (some (variantTexts variant),
            shareRemoves _ (variantTexts variant) memo)
          rw [shareRemoves_self]
          rfl
      | some held =>
          simp only
          rw [Run.bind_apply_of_eq (needOverrides_known known),
            Run.get_bind_apply, isKnown]
          cases held.entries with
          | none => rfl
          | some entries =>
              show (Run.ofOption (activeTexts (some overrides) entries _) >>= _)
                memo = _
              rw [activeTexts_some]
              rfl

theorem exists_cache_shareRemoves {removes : List Text} :
    ∃ cache, shareRemoves variant removes memo = { memo with
      expandCache := cache } := by
  rcases variant with _ | ⟨name, shared⟩
  · exact ⟨memo.expandCache, rfl⟩
  · rw [shareRemoves]
    split_ifs
    · exact ⟨memo.expandCache, rfl⟩
    · cases memo.expandCache.get? name with
      | none => exact ⟨memo.expandCache, rfl⟩
      | some parse => exact ⟨_, rfl⟩

end Parts

def ReadsAgree (property : Memo → Prop) (read reading : Reader) : Prop :=
  ∀ var mode, mode.Plain → Run.AgreeOn property (read var mode)
    (reading var mode)

/-- What a read looks at is the same, on the states with a property that does
not depend on what is remembered of the texts. -/
structure SameReads (property : Memo → Prop) (data other : Data) : Prop where
  remember : ∀ memo cache, property memo → property { memo with
    expandCache := cache }
  variants : ∀ var, data.overridedata.get? var = other.overridedata.get? var
  contents : ∀ var,
    data.ownValue var contentFlag false = other.ownValue var contentFlag false
  needed : ∀ read reading, ReadsAgree property read reading →
    Run.AgreeOn property (needOverrides read) (needOverrides reading)
  operations : ∀ read reading, ReadsAgree property read reading →
    ∀ var, ∀ keyword ∈ setvarKeywords, ∀ combine value,
      Run.AgreeOn property
        (applyOperation read (data.findVar var) keyword false combine value)
        (applyOperation reading (other.findVar var) keyword false combine value)
  removes : ∀ read reading, ReadsAgree property read reading →
    ∀ var value variant,
      Run.AgreeOn property
        (activeRemoves read (data.findVar var) false value variant)
        (activeRemoves reading (other.findVar var) false value variant)

section Agree

variable {read reading : Reader} {python answers : Python} {data other : Data}
  {property : Memo → Prop}

theorem plain_expanded : Mode.expanded.Plain := ⟨rfl, rfl⟩

theorem plain_withParser : Mode.withParser.Plain := ⟨rfl, rfl⟩

variable (same : ReadsAgree property read reading)
include same

theorem agree_varSub (varname : Option Text) (key : Text) :
    Run.AgreeOn (property) (varSub read varname key)
      (varSub reading varname key) := by
  rw [varSub, varSub]
  split_ifs
  · exact .raise
  · apply Run.AgreeOn.bind (same key _ plain_expanded)
    rintro ⟨value, parser⟩
    cases value with
    | none => exact .pure _
    | text text => exact .pure _
    | operations entries => exact .raise
    | cell id => exact .raise
    | names names => exact .raise
    | object tag => exact .raise

theorem agree_subReferences (varname : Option Text) (skip : ℕ) (text : Text) :
    Run.AgreeOn (property) (subReferences read varname skip text)
      (subReferences reading varname skip text) := by
  induction text generalizing skip with
  | nil =>
      rw [subReferences, subReferences]
      exact .pure _
  | cons char rest induction =>
      cases skip with
      | succ skip =>
          rw [subReferences, subReferences]
          exact induction skip
      | zero =>
          rw [subReferences, subReferences]
          cases referenceAt (char :: rest) with
          | none =>
              apply Run.AgreeOn.bind (induction 0)
              intro found
              exact .pure _
          | some key =>
              apply Run.AgreeOn.bind (agree_varSub same varname key)
              intro new
              apply Run.AgreeOn.bind (induction _)
              intro found
              exact .pure _

variable (samePython : python data = answers other)
include samePython

theorem agree_expandLoop (varname : Option Text) (rounds : ℕ)
    (expansion : Expansion) :
    Run.AgreeOn (property)
      (expandLoop read python data varname rounds expansion)
      (expandLoop reading answers other varname rounds expansion) := by
  induction rounds generalizing expansion with
  | zero =>
      rw [expandLoop, expandLoop]
      split_ifs
      · exact .raise
      · exact .pure _
  | succ rounds induction =>
      rw [expandLoop, expandLoop]
      split_ifs
      · have round : Run.AgreeOn (property)
            (expandRound read python data varname expansion)
            (expandRound reading answers other varname expansion) := by
          apply Run.AgreeOn.bind
            (agree_subReferences same varname 0 expansion.text)
          rintro ⟨text, references⟩
          apply Run.AgreeOn.get_bind
          intro memo _
          rw [samePython]
          apply Run.AgreeOn.bind (.ofOption _)
          intro found
          exact .pure _
        apply Run.AgreeOn.bind round
        intro next
        split_ifs
        · exact .pure _
        · exact induction next
      · exact .pure _

theorem agree_expandWithRefs (varname : Option Text) (rounds : ℕ)
    (value : Value) :
    Run.AgreeOn (property)
      (expandWithRefs read python data varname rounds value)
      (expandWithRefs reading answers other varname rounds value) := by
  cases value with
  | text text =>
      apply Run.AgreeOn.bind (agree_expandLoop same samePython varname rounds _)
      intro expansion
      exact .pure _
  | none => exact .pure _
  | operations entries => exact .pure _
  | cell id => exact .pure _
  | names names => exact .pure _
  | object tag => exact .pure _

theorem agree_expandRemove (rounds : ℕ) (remove : Text) :
    Run.AgreeOn (property) (expandRemove read python data rounds remove)
      (expandRemove reading answers other rounds remove) := by
  apply Run.AgreeOn.bind (agree_expandWithRefs same samePython none rounds _)
  intro parse
  cases parse.value with
  | text text => exact .pure _
  | none => exact .raise
  | operations entries => exact .raise
  | cell id => exact .raise
  | names names => exact .raise
  | object tag => exact .raise

omit samePython

omit same

theorem agree_removeWords (expanded : List (Text × List Text))
    (parser : VariableParse) :
    Run.AgreeOn (property) (removeWords expanded parser)
      (removeWords expanded parser) := by
  rw [removeWords]
  cases parser.value with
  | text text => exact .pure _
  | none => exact .raise
  | operations entries => exact .raise
  | cell id => exact .raise
  | names names => exact .raise
  | object tag => exact .raise

include same

theorem agree_applyRemoves (samePython : python data = answers other)
    (rounds : ℕ) (value : Value)
    (removes : List Text) (parser : VariableParse) :
    Run.AgreeOn (property)
      (applyRemoves read python data rounds value false removes parser)
      (applyRemoves reading answers other rounds value false removes
        parser) := by
  rw [applyRemoves, applyRemoves]
  split_ifs
  · apply Run.AgreeOn.bind
    · exact .collect (agree_expandRemove same samePython rounds) removes
    · intro expanded
      exact agree_removeWords expanded parser
  · exact .pure _

theorem agree_finishContent (samePython : python data = answers other)
    (sameData : SameReads property data other) (rounds : ℕ) (var : Text)
    {mode : Mode}
    (plain : mode.Plain) (value : Value) (variant : Option (Text × List Text)) :
    Run.AgreeOn (property)
      (finishContent read python data rounds var mode value variant)
      (finishContent reading answers other rounds var mode value variant) := by
  rw [finishContent, finishContent, plain.2]
  split
  · apply Run.AgreeOn.bind (agree_expandWithRefs same samePython _ rounds value)
    intro parser
    apply Run.AgreeOn.bind (sameData.removes read reading same var _ variant)
    intro removes
    apply Run.AgreeOn.bind
      (agree_applyRemoves same samePython rounds _ removes parser)
    intro parser
    apply Run.AgreeOn.bind
    · apply Run.AgreeOn.modify
      intro memo holds
      exact sameData.remember memo _ holds
    · intro _
      exact .pure _
  · apply Run.AgreeOn.bind (sameData.removes read reading same var _ variant)
    intro _
    exact .pure _

theorem agree_readVariant (sameData : SameReads property data other)
    (var : Text) : Run.AgreeOn (property) (readVariant read data var false)
      (readVariant reading other var false) := by
  rw [readVariant, readVariant, sameData.variants]
  simp only [Bool.false_eq_true, if_false]
  cases other.overridedata.get? var with
  | none => exact .pure _
  | some variants =>
      apply Run.AgreeOn.bind (sameData.needed read reading same)
      · intro _
        apply Run.AgreeOn.get_bind
        intro memo _
        apply Run.AgreeOn.bind (.ofOption _)
        intro overrides
        cases overrideMatch overrides variants with
        | none => exact .pure _
        | some variant =>
            apply Run.AgreeOn.bind (same variant _ plain_withParser)
            intro found
            exact .pure _

theorem agree_getContent (samePython : python data = answers other)
    (sameData : SameReads property data other) (rounds : ℕ) :
    ReadsAgree property (getContent read python data rounds)
      (getContent reading answers other rounds) := by
  intro var mode plain
  rw [getContent, getContent]
  apply Run.AgreeOn.get_bind
  intro memo _
  cases cachedRead memo var mode with
  | some found => exact .pure _
  | none =>
      rw [plain.1, plain.2]
      apply Run.AgreeOn.bind (agree_readVariant same sameData var)
      intro found
      rw [sameData.contents]
      apply Run.AgreeOn.bind
        (sameData.operations read reading same var _ (by simp [setvarKeywords])
          _ _)
      intro appended
      apply Run.AgreeOn.bind
        (sameData.operations read reading same var _ (by simp [setvarKeywords])
          _ _)
      intro value
      exact agree_finishContent same samePython sameData rounds var plain value
        found.2

omit same

theorem readContent_agree (samePython : python data = answers other)
    (sameData : SameReads property data other) (fuel : ℕ) :
    ReadsAgree property (readContent python data fuel)
      (readContent answers other fuel) := by
  induction fuel with
  | zero =>
      intro var mode plain
      exact .raise
  | succ fuel induction =>
      exact agree_getContent induction samePython sameData fuel

theorem agree_overridesLoop (same : ReadsAgree (fun _ => True) read reading)
    (count : ℕ) :
    Run.AgreeOn (fun _ => True) (overridesLoop read count)
      (overridesLoop reading count) := by
  have agreeRead : Run.AgreeOn (fun _ => True) (readOverrides read)
      (readOverrides reading) := by
    apply Run.AgreeOn.bind (same _ _ plain_expanded)
    intro found
    exact .ofOption _
  induction count with
  | zero => exact .raise
  | succ count induction =>
      rw [overridesLoop, overridesLoop]
      apply Run.AgreeOn.bind (.modify fun _ _ => trivial)
      intro _
      apply Run.AgreeOn.bind agreeRead
      intro overrides
      apply Run.AgreeOn.bind (.modify fun _ _ => trivial)
      intro _
      apply Run.AgreeOn.bind agreeRead
      intro newoverrides
      split_ifs
      · exact .pure _
      · apply Run.AgreeOn.bind (.modify fun _ _ => trivial)
        intro _
        exact induction

theorem agree_needOverrides (same : ReadsAgree (fun _ => True) read reading) :
    Run.AgreeOn (fun _ => True) (needOverrides read)
      (needOverrides reading) := by
  apply Run.AgreeOn.get_bind
  intro memo _
  split_ifs
  · exact .pure _
  · exact agree_overridesLoop same 5

theorem SameReads.of_held
    (variants : ∀ var, data.overridedata.get? var = other.overridedata.get? var)
    (contents : ∀ var, data.ownValue var contentFlag false =
      other.ownValue var contentFlag false)
    (held : ∀ var, ∀ keyword ∈ setvarKeywords,
      (data.findVar var).bind (·.get? keyword) =
        (other.findVar var).bind (·.get? keyword)) :
    SameReads (fun _ => True) data other := by
  constructor
  · intro _ _ _
    trivial
  · exact variants
  · exact contents
  · intro read reading same
    exact agree_needOverrides same
  · intro read reading same var keyword member combine value
    rw [applyOperation, applyOperation, held var keyword member]
    simp only [Bool.false_eq_true, if_false]
    cases (other.findVar var).bind (·.get? keyword) with
    | none => exact .pure _
    | some entries =>
        apply Run.AgreeOn.bind (agree_needOverrides same)
        intro _
        apply Run.AgreeOn.get_bind
        intro memo _
        apply Run.AgreeOn.bind (.ofOption _)
        intro entries
        exact .ofOption _
  · intro read reading same var value variant
    rw [activeRemoves, activeRemoves,
      held var removeKeyword (by simp [setvarKeywords])]
    cases (if false || !value.isTrue then none
      else (other.findVar var).bind (·.get? removeKeyword)) with
    | none => exact .pure _
    | some entries =>
        apply Run.AgreeOn.bind (agree_needOverrides same)
        intro _
        apply Run.AgreeOn.get_bind
        intro memo _
        apply Run.AgreeOn.bind (.ofOption _)
        intro entries
        apply Run.AgreeOn.bind (.ofOption _)
        intro removes
        apply Run.AgreeOn.bind (.modify fun _ _ => trivial)
        intro _
        exact .pure _

theorem SameReads.of_active {overrides : List Text}
    (variants : ∀ var, data.overridedata.get? var = other.overridedata.get? var)
    (contents : ∀ var, data.ownValue var contentFlag false =
      other.ownValue var contentFlag false)
    (active : ∀ var, ∀ keyword ∈ setvarKeywords,
      activeOperation overrides (data.findVar var) keyword =
        activeOperation overrides (other.findVar var) keyword) :
    SameReads (Known overrides) data other := by
  constructor
  · intro memo cache known
    exact known
  · exact variants
  · exact contents
  · intro read reading same memo known
    rw [needOverrides_known known, needOverrides_known known]
    exact ⟨rfl, known⟩
  · intro read reading same var keyword member combine value memo known
    rw [applyOperation_known known, applyOperation_known known,
      active var keyword member]
    exact ⟨rfl, known⟩
  · intro read reading same var value variant memo known
    rw [activeRemoves_known known, activeRemoves_known known,
      active var removeKeyword (by simp [setvarKeywords])]
    refine ⟨rfl, ?_⟩
    split_ifs
    · cases activeOperation overrides (other.findVar var) removeKeyword with
      | none => exact known
      | some texts =>
          obtain ⟨cache, shared⟩ := @exists_cache_shareRemoves memo variant
            (texts.foldl addNew (variantTexts variant))
          show Known overrides (shareRemoves variant _ memo)
          rw [shared]
          exact known
    · exact known

end Agree

end Nvbmc.DataSmart
