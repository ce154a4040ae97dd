import Nvbmc.Library.Dict
import Nvbmc.Library.Folding
import Nvbmc.Library.Split
import Nvbmc.Library.Strip
import Nvbmc.Library.Words

/-!
# The status of a vulnerability

`CVE_STATUS` is written by hand.  A status is cut into its fields, a vendor and
a product are read if there are enough of them, and compared with the products
of the recipe.
-/

namespace Nvbmc.CveCheck

open Library

inductive StatusError where
  | indexError
  | keyError
deriving DecidableEq

/-- What `decode_cve_status` returns for a status. -/
structure Status where
  detail : Text
  vendor : Text
  product : Text
  description : Text
  mapping : Text
deriving DecidableEq

def star : Text :=
  ['*']

def cpeMark : Text :=
  ['c', 'p', 'e']

def unpatched : Text :=
  ['U', 'n', 'p', 'a', 't', 'c', 'h', 'e', 'd']

/-- The vendor, the product and the description in the fields of a status. -/
def cpeOf (status : Text) : Except StatusError (Text × Text × Text) :=
  let statusSplit := splitAtMost ':' 4 status
  let isCpe := statusSplit[1]?.any fun field => strip field = cpeMark
  if 4 ≤ statusSplit.length ∧ isCpe then
    match statusSplit[4]? with
    | some description =>
        .ok (strip (statusSplit.getD 2 []), strip (statusSplit.getD 3 []),
          strip description)
    | none => .error .indexError
  else if 2 ≤ statusSplit.length ∧ isCpe then .ok (star, star, [])
  else .ok (star, star, strip (((splitOnce ':' status).map Prod.snd).getD []))

/-- `decode_cve_status`: nothing for no status, also for an empty one. -/
def decodeCveStatus (statusmap : Text → Option Text) (status : Text) :
    Except StatusError (Option Status) :=
  if status = [] then .ok none
  else
    let detail := (splitAtMost ':' 4 status).headD []
    (cpeOf status).map fun (vendor, product, description) =>
      some ⟨detail, vendor, product, description,
        (statusmap detail).getD unpatched⟩

def splitProduct (entry : Text) : Text × Text :=
  (splitOnce ':' entry).getD (star, entry)

def Fits (decoded : Status) (entry : Text) : Prop :=
  ((splitProduct entry).1 = decoded.vendor ∨ decoded.vendor = star) ∧
    ((splitProduct entry).2 = decoded.product ∨ decoded.product = star)

instance (decoded : Status) (entry : Text) : Decidable (Fits decoded entry) :=
  inferInstanceAs (Decidable (_ ∧ _))

/-- The loop of `has_cve_product_match`; there is no key without a status. -/
def matchProducts : Option Status → List Text → Except StatusError Bool
  | _, [] => .ok false
  | none, _ :: _ => .error .keyError
  | some decoded, entry :: rest =>
      if Fits decoded entry then .ok true else matchProducts (some decoded) rest

/-- `has_cve_product_match`. -/
def hasCveProductMatch (decoded : Option Status) (products : Text) :
    Except StatusError Bool :=
  matchProducts decoded (words products)

/-- An entry of `get_patched_cves`. -/
inductive Patched where
  | files (resource : List Text)
  | status (decoded : Status)

/-- What `get_patched_cves` reads: the patch files with the identifiers in them,
the flags of `CVE_STATUS`, the map of the details and the products. -/
structure CveData where
  patches : List (Text × List Text)
  flags : Dict Text Text
  unique : flags.keys.Nodup
  statusmap : Text → Option Text
  products : Text

def addPatch (patchFile : Text) (patchedCves : Dict Text Patched)
    (cveId : Text) : Dict Text Patched :=
  match patchedCves.get? cveId with
  | some (.files resource) =>
      patchedCves.set cveId (.files (resource ++ [patchFile]))
  | some (.status _) => patchedCves
  | none => patchedCves.set cveId (.files [patchFile])

def patchFiles (patches : List (Text × List Text)) : Dict Text Patched :=
  patches.foldl (fun patchedCves patch => patch.2.foldl (addPatch patch.1)
    patchedCves) []

/-- A flag of `CVE_STATUS`. -/
def addStatus (statusmap : Text → Option Text) (products : Text)
    (patchedCves : Dict Text Patched) (flag : Text × Text) :
    Except StatusError (Dict Text Patched) := do
  let decoded ← decodeCveStatus statusmap flag.2
  let matched ← hasCveProductMatch decoded products
  if matched then
    match decoded with
    | some decoded => pure (patchedCves.set flag.1 (.status decoded))
    | none => throw .keyError
  else pure patchedCves

/-- `get_patched_cves`. -/
def getPatchedCves (data : CveData) : Except StatusError (Dict Text Patched) :=
  data.flags.foldlM (addStatus data.statusmap data.products)
    (patchFiles data.patches)

/-- The vendor, the product and the description of a status by its form.  A mark
of a vendor and a product with less than these two behind it leaves all three
unset. -/
inductive Form : Text → Text × Text × Text → Prop where
  | cpe {detail mark vendor product : Text} (description : Text) :
      ':' ∉ detail → ':' ∉ mark → ':' ∉ vendor → ':' ∉ product →
        strip mark = cpeMark →
      Form (detail ++ ':' ::
        (mark ++ ':' :: (vendor ++ ':' :: (product ++ ':' :: description))))
        (strip vendor, strip product, strip description)
  | malformed {detail mark rest : Text} :
      ':' ∉ detail → ':' ∉ mark → strip mark = cpeMark →
      (rest = mark ∨ ∃ vendor, ':' ∉ vendor ∧ rest = mark ++ ':' :: vendor) →
      Form (detail ++ ':' :: rest) (star, star, [])
  | described {detail field rest : Text} :
      ':' ∉ detail → ':' ∉ field → strip field ≠ cpeMark →
      (rest = field ∨ ∃ behind, rest = field ++ ':' :: behind) →
      Form (detail ++ ':' :: rest) (star, star, strip rest)
  | bare {status : Text} : ':' ∉ status → Form status (star, star, [])

/-- A vendor and a product without a description. -/
def Undescribed (status : Text) : Prop :=
  ∃ detail mark vendor product,
    ':' ∉ detail ∧ ':' ∉ mark ∧ ':' ∉ vendor ∧ ':' ∉ product ∧
      strip mark = cpeMark ∧
      status = detail ++ ':' :: (mark ++ ':' :: (vendor ++ ':' :: product))

section Form

variable {status : Text} {parts : Text × Text × Text}

theorem cpeOf_of_form (form : Form status parts) :
    cpeOf status = .ok parts := by
  cases form with
  | cpe description noDetail noMark noVendor noProduct isMark =>
      rw [cpeOf, splitAtMost_append noDetail, splitAtMost_append noMark,
        splitAtMost_append noVendor, splitAtMost_append noProduct, splitAtMost]
      simp [isMark]
  | malformed noDetail noMark isMark ends =>
      rw [cpeOf, splitAtMost_append noDetail]
      rcases ends with isRest | ⟨vendor, noVendor, isRest⟩
      · rw [isRest, splitAtMost_of_not_mem noMark]
        simp [isMark]
      · rw [isRest, splitAtMost_append noMark, splitAtMost_of_not_mem noVendor]
        simp [isMark]
  | @described detail field rest noDetail noField notMark ends =>
      have second : splitOnce ':' (detail ++ ':' :: rest) =
          some (detail, rest) :=
        splitOnce_eq_some.mpr ⟨rfl, noDetail⟩
      have isField : (splitAtMost ':' 4 (detail ++ ':' :: rest))[1]? =
          some field := by
        rw [splitAtMost_append noDetail]
        rcases ends with isRest | ⟨behind, isRest⟩
        · rw [isRest, splitAtMost_of_not_mem noField]
          rfl
        · rw [isRest, splitAtMost_append noField]
          rfl
      rw [cpeOf, isField, second]
      simp [notMark]
  | bare noColon =>
      rw [cpeOf, splitAtMost_of_not_mem noColon, splitOnce_eq_none.mpr noColon]
      rfl

theorem form_or_undescribed (status : Text) :
    (∃ parts, Form status parts) ∨ Undescribed status := by
  rcases partition_cases ':' status with ⟨detail, rest, isStatus, noDetail, _⟩ |
    ⟨noColon, _⟩
  · rw [isStatus]
    rcases partition_cases ':' rest with ⟨mark, behind, isRest, noMark, _⟩ |
      ⟨noColon, _⟩
    · by_cases isMark : strip mark = cpeMark
      · rcases partition_cases ':' behind with
          ⟨vendor, last, isBehind, noVendor, _⟩ | ⟨noColon, _⟩
        · rcases partition_cases ':' last with
            ⟨product, description, isLast, noProduct, _⟩ | ⟨noColon, _⟩
          · left
            rw [isRest, isBehind, isLast]
            exact ⟨_, .cpe description noDetail noMark noVendor noProduct
              isMark⟩
          · right
            exact ⟨detail, mark, vendor, last, noDetail, noMark, noVendor,
              noColon, isMark, by rw [isRest, isBehind]⟩
        · left
          exact ⟨_, .malformed noDetail noMark isMark
            (.inr ⟨behind, noColon, isRest⟩)⟩
      · left
        exact ⟨_, .described noDetail noMark isMark (.inr ⟨behind, isRest⟩)⟩
    · left
      by_cases isMark : strip rest = cpeMark
      · exact ⟨_, .malformed noDetail noColon isMark (.inl rfl)⟩
      · exact ⟨_, .described noDetail noColon isMark (.inl rfl)⟩
  · left
    exact ⟨_, .bare noColon⟩

end Form

structure Decodes (statusmap : Text → Option Text) (status : Text)
    (decoded : Status) : Prop where
  decode : decodeCveStatus statusmap status = .ok (some decoded)
  detail : decoded.detail = (partition ':' status).1
  form : Form status (decoded.vendor, decoded.product, decoded.description)
  mapping : decoded.mapping = (statusmap decoded.detail).getD unpatched

def Marks (decoded : Status) (products : Text) : Prop :=
  ∃ entry ∈ words products, Fits decoded entry

section Decode

variable {statusmap : Text → Option Text} {status : Text}

theorem headD_splitAtMost (count : ℕ) (status : Text) :
    (splitAtMost ':' (count + 1) status).headD [] =
      (partition ':' status).1 := by
  rw [splitAtMost, partition]
  cases splitOnce ':' status with
  | none => rfl
  | some parts => rfl

theorem exists_decodes (nonempty : status ≠ [])
    (described : ¬ Undescribed status) :
    ∃ decoded, Decodes statusmap status decoded := by
  rcases form_or_undescribed status with
    ⟨⟨vendor, product, description⟩, form⟩ | undescribed
  · have decode : decodeCveStatus statusmap status = .ok (some
        ⟨(splitAtMost ':' 4 status).headD [], vendor, product, description,
          (statusmap ((splitAtMost ':' 4 status).headD [])).getD
            unpatched⟩) := by
      rw [decodeCveStatus, if_neg nonempty, cpeOf_of_form form]
      rfl
    refine ⟨_, decode, ?_, form, ?_⟩
    · exact headD_splitAtMost 3 status
    · rfl
  · exact absurd undescribed described

theorem matchProducts_eq (decoded : Status) (entries : List Text) :
    ∃ matched, matchProducts (some decoded) entries = .ok matched ∧
      (matched = true ↔ ∃ entry ∈ entries, Fits decoded entry) := by
  induction entries with
  | nil => exact ⟨false, rfl, by simp⟩
  | cons entry rest induction =>
      rw [matchProducts]
      by_cases fits : Fits decoded entry
      · refine ⟨true, if_pos fits, ?_⟩
        simp [fits]
      · obtain ⟨matched, isMatch, marks⟩ := induction
        refine ⟨matched, (if_neg fits).trans isMatch, ?_⟩
        simp [marks, fits]

theorem hasCveProductMatch_eq (decoded : Status) (products : Text) :
    ∃ matched, hasCveProductMatch (some decoded) products = .ok matched ∧
      (matched = true ↔ Marks decoded products) :=
  matchProducts_eq decoded (words products)

end Decode

/-- The status can be decoded and compared: it is no vendor and product without
a description, and it is not empty when there are products. -/
def Regular (products status : Text) : Prop :=
  ¬ Undescribed status ∧ (status = [] → words products = [])

section Flags

variable {statusmap : Text → Option Text} {products status : Text}

theorem addStatus_eq (regular : Regular products status)
    (patchedCves : Dict Text Patched) (cveId : Text) :
    ∃ after, addStatus statusmap products patchedCves (cveId, status) =
      .ok after ∧
      (∀ other, other ≠ cveId → after.get? other = patchedCves.get? other) ∧
      ∀ decoded, Decodes statusmap status decoded →
        (Marks decoded products → after.get? cveId = some (.status decoded)) ∧
          (¬ Marks decoded products →
            after.get? cveId = patchedCves.get? cveId) := by
  by_cases empty : status = []
  · refine ⟨patchedCves, ?_, fun _ _ => rfl, ?_⟩
    · have unmatched : hasCveProductMatch none products = .ok false := by
        rw [hasCveProductMatch, regular.2 empty]
        rfl
      rw [addStatus, decodeCveStatus, if_pos empty]
      show (do
        let matched ← hasCveProductMatch none products
        if matched then throw StatusError.keyError else pure patchedCves) = _
      rw [unmatched]
      rfl
    · intro decoded decodes
      have decode := decodes.decode
      rw [decodeCveStatus, if_pos empty] at decode
      cases decode
  · obtain ⟨decoded, decodes⟩ := @exists_decodes statusmap _ empty regular.1
    obtain ⟨matched, isMatch, marks⟩ := hasCveProductMatch_eq decoded products
    have only : ∀ other, Decodes statusmap status other → other = decoded := by
      intro other isOther
      exact Option.some.inj (Except.ok.inj
        (isOther.decode.symm.trans decodes.decode))
    have ran : addStatus statusmap products patchedCves (cveId, status) =
        if matched then .ok (patchedCves.set cveId (.status decoded))
        else .ok patchedCves := by
      rw [addStatus, decodes.decode]
      show (do
        let matched ← hasCveProductMatch (some decoded) products
        if matched then pure (patchedCves.set cveId (.status decoded))
        else pure patchedCves) = _
      rw [isMatch]
      rfl
    cases matched with
    | true =>
        refine ⟨_, ran, ?_, ?_⟩
        · intro other different
          exact Dict.get?_set_of_ne _ _ different
        · intro other isOther
          rw [only other isOther]
          exact ⟨fun _ => Dict.get?_set_self _ _ _, fun none =>
            absurd (marks.mp rfl) none⟩
    | false =>
        refine ⟨_, ran, fun _ _ => rfl, ?_⟩
        intro other isOther
        rw [only other isOther]
        exact ⟨fun some => absurd (marks.mpr some) (by decide), fun _ => rfl⟩

theorem foldlM_addStatus (flags : Dict Text Text) (unique : flags.keys.Nodup)
    (regular : ∀ flag ∈ flags, Regular products flag.2)
    (patchedCves : Dict Text Patched) :
    ∃ after, flags.foldlM (addStatus statusmap products) patchedCves =
      .ok after ∧
      (∀ other ∉ flags.keys, after.get? other = patchedCves.get? other) ∧
      ∀ cveId status decoded, (cveId, status) ∈ flags →
        Decodes statusmap status decoded →
        (Marks decoded products → after.get? cveId = some (.status decoded)) ∧
          (¬ Marks decoded products →
            after.get? cveId = patchedCves.get? cveId) := by
  induction flags generalizing patchedCves with
  | nil =>
      refine ⟨patchedCves, rfl, fun _ _ => rfl, ?_⟩
      intro cveId status decoded member
      cases member
  | cons flag flags induction =>
      obtain ⟨notLater, uniqueRest⟩ := List.nodup_cons.mp unique
      obtain ⟨next, ran, others, marked⟩ :=
        @addStatus_eq statusmap products flag.2
        (regular flag List.mem_cons_self) patchedCves flag.1
      obtain ⟨after, ranRest, othersRest, markedRest⟩ := induction uniqueRest
        (fun flag member => regular flag (List.mem_cons_of_mem _ member)) next
      have kept : after.get? flag.1 = next.get? flag.1 :=
        othersRest flag.1 notLater
      refine ⟨after, ?_, ?_, ?_⟩
      · rw [List.foldlM_cons]
        exact (congrArg (· >>= _) ran).trans ranRest
      · intro other absent
        obtain ⟨different, absentRest⟩ :=
          not_or.mp (mt List.mem_cons.mpr absent)
        rw [othersRest other absentRest, others other different]
      · intro cveId status decoded member decodes
        rcases List.mem_cons.mp member with isFlag | later
        · rw [← isFlag] at kept marked
          obtain ⟨marks, unmarked⟩ := marked decoded decodes
          exact ⟨fun some => kept.trans (marks some), fun none =>
            kept.trans (unmarked none)⟩
        · obtain ⟨marks, unmarked⟩ :=
            markedRest cveId status decoded later decodes
          have different : cveId ≠ flag.1 := by
            intro same
            exact notLater (same ▸ List.mem_map_of_mem later)
          exact ⟨marks, fun none =>
            (unmarked none).trans (others cveId different)⟩

end Flags

theorem get?_patchFiles (patches : List (Text × List Text)) (cveId : Text)
    (decoded : Status) :
    (patchFiles patches).get? cveId ≠ some (.status decoded) := by
  have add :
      ∀ (patchFile : Text) (patchedCves : Dict Text Patched) (added : Text),
      (∀ cveId decoded, patchedCves.get? cveId ≠ some (.status decoded)) →
      ∀ cveId decoded, (addPatch patchFile patchedCves added).get? cveId ≠
        some (.status decoded) := by
    intro patchFile patchedCves added files cveId decoded
    rw [addPatch]
    split
    · rw [Dict.get?_set]
      split_ifs
      · simp
      · exact files cveId decoded
    · exact files cveId decoded
    · rw [Dict.get?_set]
      split_ifs
      · simp
      · exact files cveId decoded
  have addAll : ∀ (patch : Text × List Text) (patchedCves : Dict Text Patched),
      (∀ cveId decoded, patchedCves.get? cveId ≠ some (.status decoded)) →
      ∀ cveId decoded, (patch.2.foldl (addPatch patch.1) patchedCves).get?
        cveId ≠ some (.status decoded) := by
    intro patch patchedCves files
    exact List.foldlRecOn (motive := fun patchedCves : Dict Text Patched =>
      ∀ cveId decoded, patchedCves.get? cveId ≠ some (.status decoded))
      patch.2 _ files fun _ files added _ => add patch.1 _ added files
  have nothing : ∀ cveId decoded,
      Dict.get? ([] : Dict Text Patched) cveId ≠
        some (Patched.status decoded) := by
    simp
  exact List.foldlRecOn (motive := fun patchedCves : Dict Text Patched =>
    ∀ cveId decoded, patchedCves.get? cveId ≠ some (.status decoded))
    patches _ nothing (fun _ files patch _ => addAll patch _ files)
    cveId decoded

/-- Everything is decoded as it is written, and the flags mark what the products
have. -/
structure Precise (data : CveData) : Prop where
  decodes : ∀ status, status ≠ [] → ¬ Undescribed status →
    ∃ decoded, Decodes data.statusmap status decoded
  empty : decodeCveStatus data.statusmap [] = .ok none
  matched : ∀ (decoded : Status) (products : Text),
    ∃ matched, hasCveProductMatch (some decoded) products = .ok matched ∧
      (matched = true ↔ Marks decoded products)
  patched : (∀ flag ∈ data.flags, Regular data.products flag.2) →
    ∃ patchedCves, getPatchedCves data = .ok patchedCves ∧
      ∀ cveId status decoded, (cveId, status) ∈ data.flags →
        Decodes data.statusmap status decoded →
        (patchedCves.get? cveId = some (.status decoded) ↔
          Marks decoded data.products)

theorem precise (data : CveData) : Precise data := by
  constructor
  · intro status nonempty described
    exact exists_decodes nonempty described
  · rfl
  · exact hasCveProductMatch_eq
  · intro regular
    obtain ⟨after, ran, _, marked⟩ :=
      foldlM_addStatus data.flags data.unique regular (patchFiles data.patches)
    refine ⟨after, ran, ?_⟩
    intro cveId status decoded member decodes
    obtain ⟨marks, unmarked⟩ := marked cveId status decoded member decodes
    constructor
    · intro isStatus
      by_contra none
      rw [unmarked none] at isStatus
      exact get?_patchFiles data.patches cveId decoded isStatus
    · exact marks

/-- The text behind the first colon is no description when it is a mark and one
field. -/
theorem malformed_not_described : ∃ decoded,
    decodeCveStatus (fun _ => none) ['i', ':', ' ', 'c', 'p', 'e', ':', 'x'] =
      .ok (some decoded) ∧
      decoded.description ≠ strip [' ', 'c', 'p', 'e', ':', 'x'] := by
  refine ⟨⟨['i'], star, star, [], unpatched⟩, ?_, ?_⟩
  · decide
  · decide

end Nvbmc.CveCheck
