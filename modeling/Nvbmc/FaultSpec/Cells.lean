import Nvbmc.Library.Dict
import Nvbmc.Library.Strip

/-!
# Cells of the fault catalog

The writers and the readers of the cells that hold an accessor, a list of
accessors or a list of texts.
-/

namespace Nvbmc.FaultSpec

open Nvbmc.Library

/-- The key that the writers leave out. -/
def checkKey : Text :=
  "check".toList

/-- An accessor: a mapping of texts.  Under `check` it may have a mapping of its
own, which has one entry. -/
@[ext]
structure Accessor where
  entries : Dict Text Text
  check : Option (Text × Text)
  unique : entries.keys.Nodup
  single : check.isSome → checkKey ∉ entries.keys

namespace Accessor

def empty : Accessor where
  entries := []
  check := none
  unique := List.nodup_nil
  single := by simp

/-- `output[key] = value`. -/
def set (accessor : Accessor) (key value : Text) : Accessor where
  entries := accessor.entries.set key value
  check := if key = checkKey then none else accessor.check
  unique := Dict.nodup_keys_set accessor.unique key value
  single := by
    intro hasCheck
    rw [Dict.mem_keys_set]
    split_ifs at hasCheck with isCheck
    · cases hasCheck
    · simp [Ne.symm isCheck, accessor.single hasCheck]

/-- `output['check'] = {key: value}`. -/
def setCheck (accessor : Accessor) (key value : Text) : Accessor where
  entries := accessor.entries.del checkKey
  check := some (key, value)
  unique := Dict.nodup_keys_del accessor.unique checkKey
  single := by
    intro hasCheck
    simp [Dict.mem_keys_del]

end Accessor

/-- `json_acc_to_fc_expr`. -/
def jsonAccToFcExpr (accessor : Accessor) : Text :=
  (accessor.entries.foldl (fun output entry =>
    if entry.1 = checkKey then output
    else output ++
      ("[ ".toList ++ entry.1 ++ " | ".toList ++ entry.2 ++ " ]; ".toList))
    []).rdrop 2

/-- `json_acc_list_to_fc_expr`. -/
def jsonAccListToFcExpr (accessors : List Accessor) : Text :=
  (accessors.foldl (fun output acc => output ++ jsonAccToFcExpr acc ++
    " : ".toList) []).rdrop 3

/-- `json_arr_to_fc`. -/
def jsonArrToFc (json : List Text) : Text :=
  [';'].intercalate json

/-- `"]["`. -/
def isBracket (char : Char) : Bool :=
  char == ']' || char == '['

def isQuote (char : Char) : Bool :=
  char == '\''

/-- The key and the value of one entry; without a bar there is an `IndexError`.
-/
def keyValue (wd : Text) : Option (Text × Text) :=
  match (stripOf isBracket (strip wd)).splitOn '|' with
  | key :: value :: _ => some (strip key, strip value)
  | _ => none

/-- One round of the loop of `fc_expr_to_json_acc`. -/
def readEntry (output : Accessor) (wd : Text) : Option Accessor :=
  (keyValue wd).map fun kv => output.set kv.1 kv.2

/-- `fc_expr_to_json_acc`. -/
def fcExprToJsonAcc (acc chk : Text) : Option Accessor :=
  if strip acc = [] then some .empty
  else do
    let output ← ((strip acc).splitOn ';').foldlM readEntry .empty
    if chk = [] then some output
    else (keyValue chk).map fun kv => output.setCheck kv.1 kv.2

/-- `fc_expr_to_json_acc_list`. -/
def fcExprToJsonAccList (text : Text) : Option (List Accessor) :=
  if strip text = [] then some []
  else ((strip text).splitOn ':').mapM fun acc => fcExprToJsonAcc acc []

/-- `fc_expr_to_json_list`. -/
def fcExprToJsonList (text : Text) : List Text :=
  if strip text = [] then []
  else ((stripOf isBracket (strip text)).splitOn ',').map fun wd =>
    stripOf isQuote (strip wd)

end Nvbmc.FaultSpec
