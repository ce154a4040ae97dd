import Mathlib.Data.Char
import Nvbmc.Library.Dict
import Nvbmc.Library.Split
import Nvbmc.Library.Text

/-!
# Task ids

A task id is the text of a recipe file, a colon and a task name.  Everything
that reads one cuts it at its last colon, so it is kept as the two parts; the
name has no colon.
-/

namespace Nvbmc.Prepare

open Nvbmc.Library

/-- A text with a colon, cut at the last one. -/
@[ext]
structure Tid where
  fn : Text
  taskname : Text
  cut : ':' ∉ taskname
  deriving DecidableEq

namespace Tid

/-- `fn + ":" + task`, whatever `task` is. -/
def of (fn task : Text) : Tid :=
  match colons : rsplitOnce ':' task with
  | none => ⟨fn, task, by
      rw [← rsplitOnce_isSome, colons]
      simp⟩
  | some (before, after) =>
      ⟨fn ++ ':' :: before, after, (rsplitOnce_eq_some.mp colons).2⟩

def text (tid : Tid) : Text :=
  tid.fn ++ ':' :: tid.taskname

theorem of_of_not_mem (fn : Text) {task : Text} (cut : ':' ∉ task) :
    of fn task = ⟨fn, task, cut⟩ := by
  rw [of]
  split
  · rfl
  · rename_i before after colons
    exact absurd (rsplitOnce_isSome.mp (by rw [colons]; rfl)) cut

@[simp] theorem text_of (fn task : Text) :
    (of fn task).text = fn ++ ':' :: task := by
  rw [of, text]
  split
  · rfl
  · rename_i before after colons
    have parts := (rsplitOnce_eq_some.mp colons).1
    change (fn ++ ':' :: before) ++ ':' :: after = fn ++ ':' :: task
    rw [parts, List.append_assoc, List.cons_append]

@[simp] theorem of_fn_taskname (tid : Tid) : of tid.fn tid.taskname = tid :=
  of_of_not_mem tid.fn tid.cut

end Tid

/-- `fn_from_tid`. -/
def fnFromTid (tid : Tid) : Text :=
  tid.fn

/-- `taskname_from_tid`. -/
def tasknameFromTid (tid : Tid) : Text :=
  tid.taskname

/-- What `split_tid_mcfn` returns. -/
structure TidParts where
  mc : Text
  fn : Text
  taskname : Text
  taskfn : Text

/-- `split_tid_mcfn`. -/
def splitTidMcfn (tid : Tid) : TidParts :=
  if "mc:".toList <+: tid.text ∧ 2 ≤ tid.text.count ':' then
    let elems := tid.text.splitOn ':'
    let mc := elems.getD 1 []
    let fn := [':'].intercalate (elems.drop 2).dropLast
    ⟨mc, fn, elems.getLastD [], "mc:".toList ++ mc ++ ':' :: fn⟩
  else ⟨[], fnFromTid tid, tasknameFromTid tid, fnFromTid tid⟩

/-- `build_tid`. -/
def buildTid (mc fn taskname : Text) : Tid :=
  if mc = [] then Tid.of fn taskname
  else Tid.of ("mc:".toList ++ mc ++ ':' :: fn) taskname

def InMulticonfig (mc fn : Text) : Prop :=
  (mc = [] ∧ ¬ "mc:".toList <+: fn) ∨
    (mc ≠ [] ∧ ':' ∉ mc ∧ ∃ real, fn = "mc:".toList ++ mc ++ ':' :: real)

variable {tid : Tid}

theorem splitTidMcfn_default (isDefault : ¬ "mc:".toList <+: tid.fn) :
    splitTidMcfn tid = ⟨[], tid.fn, tid.taskname, tid.fn⟩ := by
  rw [splitTidMcfn]
  apply if_neg
  rintro ⟨begins, colons⟩
  rw [Tid.text, List.count_append, List.count_cons_self,
    List.count_eq_zero.mpr tid.cut] at colons
  have colon : ':' ∈ tid.fn := List.count_pos_iff.mp (by omega)
  rcases List.prefix_or_prefix_of_prefix begins
    (List.prefix_append tid.fn _) with within | short
  · exact isDefault within
  · have small : ∀ text ∈ "mc:".toList.inits, ':' ∈ text →
        text = "mc:".toList := by decide
    rw [small _ (List.mem_inits _ _ |>.mpr short) colon] at isDefault
    exact isDefault List.prefix_rfl

theorem splitTidMcfn_mc {mc real : Text} (noColon : ':' ∉ mc)
    (isFile : tid.fn = "mc:".toList ++ mc ++ ':' :: real) :
    splitTidMcfn tid = ⟨mc, real, tid.taskname, tid.fn⟩ := by
  have text : tid.text = "mc".toList ++ ':' ::
      (mc ++ ':' :: (real ++ ':' :: tid.taskname)) := by
    rw [Tid.text, isFile]
    simp
  have elems : tid.text.splitOn ':' =
      "mc".toList :: mc :: (real.splitOn ':' ++ [tid.taskname]) := by
    rw [text, List.splitOn_append_cons_self_of_not_mem (by decide),
      List.splitOn_append_cons_self_of_not_mem noColon,
      List.splitOn_append_cons_self,
      List.splitOn_eq_singleton tid.cut]
  have begins : "mc:".toList <+: tid.text := by
    rw [Tid.text, isFile, List.append_assoc, List.append_assoc]
    exact List.prefix_append _ _
  have colons : 2 ≤ tid.text.count ':' := by
    rw [text]
    simp only [List.count_append, List.count_cons_self]
    omega
  have last : ("mc".toList :: mc ::
      (real.splitOn ':' ++ [tid.taskname])).getLastD [] = tid.taskname := by
    rw [← List.cons_append, ← List.cons_append, List.getLastD_eq_getLast?,
      List.getLast?_concat]
    rfl
  rw [splitTidMcfn, if_pos ⟨begins, colons⟩, elems]
  simp only [last]
  simp [isFile]

theorem buildTid_split {mc : Text} (inMc : InMulticonfig mc tid.fn)
    (taskname : Text) :
    buildTid (splitTidMcfn tid).mc (splitTidMcfn tid).fn taskname =
      Tid.of tid.fn taskname := by
  rcases inMc with ⟨_, isDefault⟩ | ⟨some, noColon, real, isFile⟩
  · rw [splitTidMcfn_default isDefault]
    rfl
  · rw [splitTidMcfn_mc noColon isFile, buildTid, if_neg some, isFile]

theorem splitTidMcfn_mem {mc : Text} (inMc : InMulticonfig mc tid.fn) :
    (splitTidMcfn tid).mc = mc ∧ (splitTidMcfn tid).taskname = tid.taskname ∧
      (splitTidMcfn tid).taskfn = tid.fn := by
  rcases inMc with ⟨none, isDefault⟩ | ⟨_, noColon, real, isFile⟩
  · rw [splitTidMcfn_default isDefault]
    exact ⟨none.symm, rfl, rfl⟩
  · rw [splitTidMcfn_mc noColon isFile]
    exact ⟨rfl, rfl, rfl⟩

end Nvbmc.Prepare
