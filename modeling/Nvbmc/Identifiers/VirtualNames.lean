import Nvbmc.Library.Split
import Nvbmc.Library.Text

/-!
# Virtual file names

A recipe file, the class it is extended by and its multiconfig are one text,
`mc:name:virtual:class:file`.  It is put together in two ways, and taken apart
again.
-/

namespace Nvbmc.Identifiers

open Library

def mcStart : Text :=
  ['m', 'c', ':']

def virtualStart : Text :=
  ['v', 'i', 'r', 't', 'u', 'a', 'l', ':']

/-- `startswith('mc:')` and two colons at least. -/
def NamesMc (name : Text) : Prop :=
  mcStart <+: name ∧ 2 ≤ name.count ':'

instance (name : Text) : Decidable (NamesMc name) :=
  inferInstanceAs (Decidable (_ ∧ _))

/-- `":".join`. -/
def joinColons (parts : List Text) : Text :=
  [':'].intercalate parts

/-- `split_mc`: the multiconfig, and the rest of the name. -/
def splitMc (name : Text) : Text × Text :=
  if NamesMc name then
    ((splitOnce ':' name).bind fun parts => splitOnce ':' parts.2).getD
      ([], name)
  else ([], name)

/-- What `virtualfn2realfn` returns. -/
structure RealName where
  fn : Text
  cls : Text
  mc : Text
deriving DecidableEq

/-- `virtualfn2realfn`. -/
def virtualfn2realfn (virtualfn : Text) : RealName :=
  let (mc, fn) := splitMc virtualfn
  if virtualStart <+: fn then
    let elems := fn.splitOn ':'
    ⟨elems.getLastD [], joinColons elems.tail.dropLast, mc⟩
  else ⟨fn, [], mc⟩

/-- `realfn2virtual`. -/
def realfn2virtual (realfn cls mc : Text) : Text :=
  let realfn :=
    if cls = [] then realfn else virtualStart ++ cls ++ ':' :: realfn
  if mc = [] then realfn else mcStart ++ mc ++ ':' :: realfn

/-- `variant2virtual`. -/
def variant2virtual (realfn variant : Text) : Text :=
  if variant = [] then realfn
  else if NamesMc variant then
    let elems := variant.splitOn ':'
    let mc := elems.getD 1 []
    if elems.getD 2 [] = [] then mcStart ++ mc ++ ':' :: realfn
    else mcStart ++ mc ++ ':' :: virtualStart ++ joinColons (elems.drop 2) ++
      ':' :: realfn
  else virtualStart ++ variant ++ ':' :: realfn

section Multiconfig

variable {mc rest name : Text}

theorem mcStart_eq (mc rest : Text) :
    mcStart ++ mc ++ ':' :: rest = ['m', 'c'] ++ ':' ::
      (mc ++ ':' :: rest) := by
  simp [mcStart]

theorem namesMc_mc (mc rest : Text) :
    NamesMc (mcStart ++ mc ++ ':' :: rest) := by
  constructor
  · rw [List.append_assoc]
    exact List.prefix_append _ _
  · rw [mcStart_eq]
    simp only [List.count_append, List.count_cons_self]
    omega

theorem splitOn_mc (noColon : ':' ∉ mc) (rest : Text) :
    (mcStart ++ mc ++ ':' :: rest).splitOn ':' = ['m', 'c'] :: mc ::
      rest.splitOn ':' := by
  rw [mcStart_eq, List.splitOn_append_cons_self_of_not_mem (by decide),
    List.splitOn_append_cons_self_of_not_mem noColon]

theorem splitMc_mc (noColon : ':' ∉ mc) (rest : Text) :
    splitMc (mcStart ++ mc ++ ':' :: rest) = (mc, rest) := by
  have first : splitOnce ':' (mcStart ++ mc ++ ':' :: rest) =
      some (['m', 'c'], mc ++ ':' :: rest) :=
    splitOnce_eq_some.mpr ⟨mcStart_eq mc rest, by decide⟩
  have second : splitOnce ':' (mc ++ ':' :: rest) = some (mc, rest) :=
    splitOnce_eq_some.mpr ⟨rfl, noColon⟩
  rw [splitMc, if_pos (namesMc_mc mc rest), first]
  exact congrArg (Option.getD · _) second

theorem splitMc_of_not (isPlain : ¬ NamesMc name) : splitMc name = ([], name) :=
  if_neg isPlain

theorem not_namesMc_of_not_mem (noColon : ':' ∉ name) : ¬ NamesMc name := by
  intro named
  exact noColon (named.1.subset (by decide))

end Multiconfig

section Class

variable {mc cls fn : Text}

theorem joinColons_splitOn (text : Text) : joinColons (text.splitOn ':') =
    text :=
  List.intercalate_splitOn ':'

theorem not_namesMc_realfn2virtual (noColon : ':' ∉ fn) (cls : Text) :
    ¬ NamesMc (realfn2virtual fn cls []) := by
  by_cases noClass : cls = []
  · rw [noClass]
    exact not_namesMc_of_not_mem noColon
  · rw [realfn2virtual, if_neg noClass, if_pos rfl, List.append_assoc]
    intro named
    obtain ⟨rest, same⟩ := named.1
    cases (List.cons.inj same).1

theorem realfn2virtual_mc (isNamed : mc ≠ []) (fn cls : Text) :
    realfn2virtual fn cls mc = mcStart ++ mc ++ ':' :: realfn2virtual fn cls
      [] := by
  rw [realfn2virtual, if_neg isNamed]
  rfl

theorem splitMc_realfn2virtual (noColonMc : ':' ∉ mc) (noColon : ':' ∉ fn)
    (cls : Text) :
    splitMc (realfn2virtual fn cls mc) = (mc, realfn2virtual fn cls []) := by
  by_cases isDefault : mc = []
  · rw [isDefault]
    exact splitMc_of_not (not_namesMc_realfn2virtual noColon cls)
  · rw [realfn2virtual_mc isDefault]
    exact splitMc_mc noColonMc _

theorem splitOn_virtual (noColon : ':' ∉ fn) (cls : Text) :
    (virtualStart ++ cls ++ ':' :: fn).splitOn ':' =
      ['v', 'i', 'r', 't', 'u', 'a', 'l'] :: (cls.splitOn ':' ++ [fn]) := by
  have isName : virtualStart ++ cls ++ ':' :: fn =
      ['v', 'i', 'r', 't', 'u', 'a', 'l'] ++ ':' :: (cls ++ ':' :: fn) := by
    simp [virtualStart]
  rw [isName, List.splitOn_append_cons_self_of_not_mem (by decide),
    List.splitOn_append_cons_self, List.splitOn_eq_singleton noColon]

theorem virtualfn2realfn_realfn2virtual (noColonMc : ':' ∉ mc)
    (noColon : ':' ∉ fn)
    (cls : Text) : virtualfn2realfn (realfn2virtual fn cls mc) =
      ⟨fn, cls, mc⟩ := by
  rw [virtualfn2realfn, splitMc_realfn2virtual noColonMc noColon]
  by_cases noClass : cls = []
  · have notVirtual : ¬ virtualStart <+: fn := fun begins =>
      noColon (begins.subset (by decide))
    rw [noClass]
    exact if_neg notVirtual
  · have isVirtual : realfn2virtual fn cls [] = virtualStart ++ cls ++ ':' ::
        fn := by
      rw [realfn2virtual, if_neg noClass, if_pos rfl]
    have begins : virtualStart <+: virtualStart ++ cls ++ ':' :: fn := by
      rw [List.append_assoc]
      exact List.prefix_append _ _
    rw [isVirtual]
    simp only [if_pos begins, splitOn_virtual noColon, List.tail_cons,
      List.dropLast_concat, joinColons_splitOn]
    rw [← List.cons_append, List.getLastD_eq_getLast?, List.getLast?_concat]
    rfl

theorem variant2virtual_plain (isPlain : ¬ NamesMc cls) (fn : Text) :
    variant2virtual fn cls = realfn2virtual fn cls [] := by
  rw [variant2virtual, if_neg isPlain, realfn2virtual, if_pos rfl]

theorem splitOn_head (text : Text) :
    (text.splitOn ':').getD 0 [] = [] ↔ text = [] ∨ text.head? = some ':' := by
  cases text with
  | nil => exact ⟨fun _ => .inl rfl, fun _ => rfl⟩
  | cons char rest =>
      obtain ⟨first, others, isSplit⟩ :=
        List.exists_cons_of_ne_nil (List.splitOn_ne_nil ':' rest)
      rw [List.splitOn_cons_eq_if_modifyHead, isSplit]
      by_cases isColon : char = ':'
      · simp [isColon]
      · simp [isColon]

theorem variant2virtual_mc (noColonMc : ':' ∉ mc) (fn cls : Text) :
    variant2virtual fn (mcStart ++ mc ++ ':' :: cls) =
      if cls = [] ∨ cls.head? = some ':' then mcStart ++ mc ++ ':' :: fn
      else mcStart ++ mc ++ ':' :: virtualStart ++ cls ++ ':' :: fn := by
  have nonempty : mcStart ++ mc ++ ':' :: cls ≠ [] := by
    simp
  have third : (['m', 'c'] :: mc :: cls.splitOn ':').getD 2 [] =
      (cls.splitOn ':').getD 0 [] :=
    rfl
  have behind : (['m', 'c'] :: mc :: cls.splitOn ':').drop 2 =
      cls.splitOn ':' := rfl
  rw [variant2virtual, if_neg nonempty, if_pos (namesMc_mc mc cls),
    splitOn_mc noColonMc]
  simp only [third, behind, joinColons_splitOn, splitOn_head]
  rfl

theorem variant2virtual_mc_iff (isNamed : mc ≠ []) (noColonMc : ':' ∉ mc)
    (fn cls : Text) :
    variant2virtual fn (mcStart ++ mc ++ ':' :: cls) =
      realfn2virtual fn cls mc ↔ cls.head? ≠ some ':' := by
  rw [variant2virtual_mc noColonMc, realfn2virtual_mc isNamed, realfn2virtual,
    if_pos rfl]
  by_cases noClass : cls = []
  · rw [noClass]
    simp
  · rw [if_neg noClass]
    by_cases colon : cls.head? = some ':'
    · rw [if_pos (.inr colon)]
      constructor
      · intro same
        have lengths := congrArg List.length same
        simp only [List.length_append, List.length_cons] at lengths
        omega
      · exact fun other => absurd colon other
    · rw [if_neg (not_or.mpr ⟨noClass, colon⟩)]
      simp [colon]

end Class

end Nvbmc.Identifiers
