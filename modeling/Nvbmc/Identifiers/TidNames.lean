import Nvbmc.Identifiers.VirtualNames
import Nvbmc.WorkerPipe.Read

/-!
# Task ids and virtual file names

A task id is a file name, virtual or not, with the name of a task behind it.
What the different splitters take out of it is what it was built of.
-/

namespace Nvbmc.Identifiers

open Library
open WorkerPipe (splitTidMcfn)

/-- `build_tid`. -/
def buildTid (mc fn taskname : Text) : Text :=
  if mc = [] then fn ++ ':' :: taskname
  else mcStart ++ mc ++ ':' :: fn ++ ':' :: taskname

/-- `fn_from_tid`. -/
def fnFromTid (tid : Text) : Text :=
  ((rsplitOnce ':' tid).map Prod.fst).getD tid

/-- `taskname_from_tid`; `none` for an `IndexError`. -/
def tasknameFromTid (tid : Text) : Option Text :=
  (rsplitOnce ':' tid).map Prod.snd

/-- `mc_from_tid`. -/
def mcFromTid (tid : Text) : Text :=
  if NamesMc tid then (tid.splitOn ':').getD 1 [] else []

section Tids

variable {mc fn cls task : Text}

theorem rsplitOnce_tid (noColonTask : ':' ∉ task) (fn : Text) :
    rsplitOnce ':' (fn ++ ':' :: task) = some (fn, task) :=
  rsplitOnce_eq_some.mpr ⟨rfl, noColonTask⟩

theorem fnFromTid_append (noColonTask : ':' ∉ task) (fn : Text) :
    fnFromTid (fn ++ ':' :: task) = fn := by
  rw [fnFromTid, rsplitOnce_tid noColonTask]
  rfl

theorem tasknameFromTid_append (noColonTask : ':' ∉ task) (fn : Text) :
    tasknameFromTid (fn ++ ':' :: task) = some task := by
  rw [tasknameFromTid, rsplitOnce_tid noColonTask]
  rfl

theorem not_namesMc_tid (begins : ¬ mcStart <+: fn) (noColonTask : ':' ∉ task) :
    ¬ NamesMc (fn ++ ':' :: task) := by
  intro named
  rcases List.prefix_or_prefix_of_prefix named.1 (List.prefix_append fn _) with
    within | short
  · exact begins within
  · have noColon : ':' ∉ fn := by
      intro member
      have same : fn = mcStart := by
        have all : ∀ text ∈ mcStart.inits, ':' ∈ text → text = mcStart := by
          decide
        exact all fn ((List.mem_inits _ _).mpr short) member
      exact begins (same ▸ List.prefix_rfl)
    have colons := named.2
    rw [List.count_append, List.count_cons_self, List.count_eq_zero.mpr noColon,
      List.count_eq_zero.mpr noColonTask] at colons
    omega

theorem not_prefix_realfn2virtual (noColon : ':' ∉ fn) (cls : Text) :
    ¬ mcStart <+: realfn2virtual fn cls [] := by
  by_cases noClass : cls = []
  · rw [noClass]
    exact fun begins => noColon (begins.subset (by decide))
  · rw [realfn2virtual, if_neg noClass, if_pos rfl, List.append_assoc]
    intro begins
    obtain ⟨rest, same⟩ := begins
    cases (List.cons.inj same).1

theorem buildTid_eq (mc fn cls task : Text) :
    buildTid mc (realfn2virtual fn cls []) task = realfn2virtual fn cls mc ++
      ':' :: task := by
  rw [buildTid]
  by_cases isDefault : mc = []
  · rw [if_pos isDefault, isDefault]
  · rw [if_neg isDefault, realfn2virtual_mc isDefault]

theorem buildTid_rebuilt (mc fn cls task : Text) :
    buildTid [] (realfn2virtual fn cls mc) task =
      buildTid mc (realfn2virtual fn cls []) task := by
  rw [buildTid_eq, buildTid, if_pos rfl]

theorem splitTidMcfn_mc (noColonMc : ':' ∉ mc) (noColonTask : ':' ∉ task)
    (fn : Text) : splitTidMcfn (mcStart ++ mc ++ ':' :: fn ++ ':' :: task) =
      some ⟨mc, fn, task, mcStart ++ mc ++ ':' :: fn⟩ := by
  have isTid : mcStart ++ mc ++ ':' :: fn ++ ':' :: task =
      mcStart ++ mc ++ ':' :: (fn ++ ':' :: task) := by
    rw [List.append_assoc, List.cons_append]
  have elems : (mcStart ++ mc ++ ':' :: fn ++ ':' :: task).splitOn ':' =
      ['m', 'c'] :: mc :: (fn.splitOn ':' ++ [task]) := by
    rw [isTid, splitOn_mc noColonMc, List.splitOn_append_cons_self,
      List.splitOn_eq_singleton noColonTask]
  have named : NamesMc (mcStart ++ mc ++ ':' :: fn ++ ':' :: task) := by
    rw [isTid]
    exact namesMc_mc _ _
  have last : (['m', 'c'] :: mc :: (fn.splitOn ':' ++ [task])).getLastD [] =
      task := by
    rw [← List.cons_append, ← List.cons_append, List.getLastD_eq_getLast?,
      List.getLast?_concat]
    rfl
  rw [splitTidMcfn, elems]
  refine (if_pos named).trans ?_
  simp only [last, List.getD_cons_succ, List.getD_cons_zero,
    List.drop_succ_cons, List.drop_zero,
    List.dropLast_concat, List.intercalate_splitOn]
  simp [mcStart]

theorem splitTidMcfn_default (isPlain : ¬ NamesMc (fn ++ ':' :: task))
    (noColonTask : ':' ∉ task) : splitTidMcfn (fn ++ ':' :: task) =
      some ⟨[], fn, task, fn⟩ := by
  have elems : (fn ++ ':' :: task).splitOn ':' = fn.splitOn ':' ++ [task] := by
    rw [List.splitOn_append_cons_self, List.splitOn_eq_singleton noColonTask]
  have colon : ':' ∈ fn ++ ':' :: task := by simp
  rw [splitTidMcfn, elems]
  refine (if_neg isPlain).trans ?_
  simp only [if_pos colon, List.dropLast_concat, List.intercalate_splitOn,
    List.getLastD_eq_getLast?, List.getLast?_concat, Option.getD_some]

theorem mcFromTid_of_split {tid : Text} {parts : WorkerPipe.Tid}
    (split : splitTidMcfn tid = some parts) : mcFromTid tid = parts.mc := by
  rw [splitTidMcfn] at split
  rw [mcFromTid]
  split_ifs at split with named
  · cases split
    exact if_pos named
  · cases split
    exact if_neg named

theorem splitTidMcfn_buildTid (noColonMc : ':' ∉ mc) (noColon : ':' ∉ fn)
    (noColonTask : ':' ∉ task) (cls : Text) :
    splitTidMcfn (buildTid mc (realfn2virtual fn cls []) task) =
      some ⟨mc, realfn2virtual fn cls [], task, realfn2virtual fn cls mc⟩ := by
  by_cases isDefault : mc = []
  · rw [isDefault, buildTid, if_pos rfl]
    apply splitTidMcfn_default _ noColonTask
    exact not_namesMc_tid (not_prefix_realfn2virtual noColon cls) noColonTask
  · rw [buildTid, if_neg isDefault, realfn2virtual_mc isDefault]
    exact splitTidMcfn_mc noColonMc noColonTask _

end Tids

/-- What is put together of a multiconfig, a recipe file, a class and a task is
taken apart again. -/
structure RoundTrips (mc fn cls task : Text) : Prop where
  splitTid : splitTidMcfn (buildTid mc (realfn2virtual fn cls []) task) =
    some ⟨mc, realfn2virtual fn cls [], task, realfn2virtual fn cls mc⟩
  rebuilt : buildTid [] (realfn2virtual fn cls mc) task =
    buildTid mc (realfn2virtual fn cls []) task
  realName : virtualfn2realfn (realfn2virtual fn cls mc) = ⟨fn, cls, mc⟩
  plainVariant : ¬ NamesMc cls → variant2virtual fn cls = realfn2virtual fn cls
    []
  mcVariant : mc ≠ [] →
    variant2virtual fn (mcStart ++ mc ++ ':' :: cls) = realfn2virtual fn cls mc
  rsplit : ∃ tid, splitTidMcfn (buildTid mc (realfn2virtual fn cls []) task) =
    some tid ∧
    fnFromTid (buildTid mc (realfn2virtual fn cls []) task) = tid.mcfn ∧
    tasknameFromTid (buildTid mc (realfn2virtual fn cls []) task) =
      some tid.taskname

variable {mc fn cls task : Text}

/-- All of them agree, unless there is a multiconfig and the class begins with a
colon. -/
theorem roundTrips_iff (noColonMc : ':' ∉ mc) (noColon : ':' ∉ fn)
    (noColonTask : ':' ∉ task) :
    RoundTrips mc fn cls task ↔ (mc ≠ [] → cls.head? ≠ some ':') := by
  constructor
  · intro roundTrips isNamed
    have agree := roundTrips.mcVariant isNamed
    exact (variant2virtual_mc_iff isNamed noColonMc fn cls).mp agree
  · intro clear
    have parts := splitTidMcfn_buildTid noColonMc noColon noColonTask cls
    constructor
    · exact parts
    · exact buildTid_rebuilt mc fn cls task
    · exact virtualfn2realfn_realfn2virtual noColonMc noColon cls
    · intro isPlain
      exact variant2virtual_plain isPlain fn
    · intro isNamed
      exact (variant2virtual_mc_iff isNamed noColonMc fn cls).mpr
        (clear isNamed)
    · refine ⟨_, parts, ?_, ?_⟩
      · rw [buildTid_eq, fnFromTid_append noColonTask]
      · rw [buildTid_eq, tasknameFromTid_append noColonTask]

theorem roundTrips_multilib :
    RoundTrips ['m', 'c', '1'] ['a', '.', 'b', 'b']
      ['m', 'l', ':', 'l', 'i', 'b', '3', '2'] ['d', 'o', '_', 'x'] :=
  (roundTrips_iff (by decide) (by decide) (by decide)).mpr fun _ => by decide

theorem not_roundTrips_colon : ¬ RoundTrips ['m'] ['a'] [':', 'x'] ['t'] := by
  intro roundTrips
  exact absurd (roundTrips.mcVariant (by decide)) (by decide)

end Nvbmc.Identifiers
