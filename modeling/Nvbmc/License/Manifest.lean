import Nvbmc.License.Choice

/-!
# The filtered license

`ManifestVisitor` walks the syntax tree and queues operators and opening
brackets until a license is wanted.  The closing bracket of a node is written
when its `Load` is visited, whether its opening bracket was written or not.
-/

namespace Nvbmc.License

open Library

/-- A `ManifestVisitor`. -/
structure Manifest where
  operators : List Char
  licenses : List Text
  licensestr : Text
deriving DecidableEq, Repr

/-- `op == '[' or op == ']'`. -/
def isBracket (op : Char) : Bool :=
  op = '[' ∨ op = ']'

/-- A turn of the loop that makes `ops`. -/
def pushOp (ops : List Char) (op : Char) : List Char :=
  if isBracket op then ops ++ [op]
  else
    match ops.getLast? with
    | none => ops ++ [op]
    | some last => if isBracket last then ops ++ [op] else ops.dropLast ++ [op]

/-- `ops`. -/
def collapse (operators : List Char) : List Char :=
  operators.foldl pushOp []

/-- What the loop over `ops` writes. -/
def writeOps (licenses : List Text) (ops : List Char) : Text :=
  ops.flatMap fun op =>
    if isBracket op then [op] else if licenses ≠ [] then [' ', op, ' '] else []

namespace Manifest

variable (manifest : Manifest)

def new : Manifest :=
  ⟨[], [], []⟩

def queue (op : Char) : Manifest :=
  { manifest with operators := manifest.operators ++ [op] }

/-- A `Load` is visited. -/
def load : Manifest :=
  { manifest with licensestr := manifest.licensestr ++ [']'] }

/-- A license that is wanted. -/
def write (lic : Text) : Manifest :=
  { operators := []
    licenses := manifest.licenses ++ [lic]
    licensestr := manifest.licensestr ++
      writeOps manifest.licenses (collapse manifest.operators) ++ lic }

end Manifest

def Operator.char : Operator → Char
  | .bitAnd => '&'
  | .bitOr => '|'

section Visit

variable (ok : Text → Bool)

/-- `visit`, with what `generic_visit` does with the fields of a node. -/
def Manifest.visit : Manifest → Node → Manifest
  | manifest, .str lic => if ok lic then manifest.write lic else manifest
  | manifest, .binOp left op right =>
      ((manifest.visit left).queue op.char).visit right
  | manifest, .tuple => manifest.load
  | manifest, .callNone func => manifest.visit func
  | manifest, .call func arg => (manifest.visit func).visit arg
  | manifest, .listNone => (manifest.queue '[').load
  | manifest, .list elt => ((manifest.queue '[').visit elt).load
  | manifest, .subscript value slice =>
      ((manifest.visit value).visit slice).load

def Manifest.visitModule (manifest : Manifest) : Option Node → Manifest
  | none => manifest
  | some node => manifest.visit ok node

end Visit

def roundBracket (char : Char) : Char :=
  if char = '[' then '(' else if char = ']' then ')' else char

/-- `manifest_licenses`, from the syntax tree on. -/
def manifestLicenses (fnmatch : Text → Text → Bool) (spdx : Text → Option Text)
    (dontWantLicenses : List Text) (module : Option Node) : Text × List Text :=
  let manifest := Manifest.new.visitModule
    (fun lic => licenseOk fnmatch (canonicalLicense spdx lic) dontWantLicenses)
    module
  (manifest.licensestr.map roundBracket, manifest.licenses)

section Licenses

variable {ok : Text → Bool}

theorem licenses_visit (manifest : Manifest) (node : Node) :
    (manifest.visit ok node).licenses = manifest.licenses ++
      node.names.filter ok := by
  induction node generalizing manifest with
  | str s =>
      rw [Manifest.visit, Node.names]
      split_ifs with wanted
      · rw [List.filter_cons_of_pos wanted]
        rfl
      · rw [List.filter_cons_of_neg wanted, List.filter_nil, List.append_nil]
  | binOp left op right first second =>
      rw [Manifest.visit, second, Node.names,
        List.filter_append, ← List.append_assoc, ← first]
      rfl
  | tuple => exact (List.append_nil _).symm
  | callNone func induction => exact induction manifest
  | call func arg first second =>
      rw [Manifest.visit, second, first, Node.names, List.filter_append,
        List.append_assoc]
  | listNone => exact (List.append_nil _).symm
  | list elt induction => exact induction _
  | subscript value slice first second =>
      rw [Manifest.visit, Node.names,
        List.filter_append, ← List.append_assoc, ← first, ← second]
      rfl

end Licenses

section Counts

variable {ok : Text → Bool}

/-- The brackets that are queued and written for a node. -/
def Node.lists : Node → ℕ
  | .str _ => 0
  | .binOp left _ right => left.lists + right.lists
  | .tuple => 0
  | .callNone func => func.lists
  | .call func arg => func.lists + arg.lists
  | .listNone => 1
  | .list elt => elt.lists + 1
  | .subscript value slice => value.lists + slice.lists

def Node.loads : Node → ℕ
  | .str _ => 0
  | .binOp left _ right => left.loads + right.loads
  | .tuple => 1
  | .callNone func => func.loads
  | .call func arg => func.loads + arg.loads
  | .listNone => 0
  | .list elt => elt.loads
  | .subscript value slice => value.loads + slice.loads + 1

theorem count_pushOp (bracket : Char) (isBracket : isBracket bracket = true)
    (ops : List Char) (op : Char) :
    (pushOp ops op).count bracket = ops.count bracket + [op].count bracket := by
  rw [pushOp]
  by_cases here : License.isBracket op = true
  · rw [if_pos here, List.count_append]
  · have other : op ≠ bracket := fun same => here (same ▸ isBracket)
    rw [if_neg here]
    cases last : ops.getLast? with
    | none => rw [List.count_append]
    | some char =>
        simp only
        split_ifs with inside
        · rw [List.count_append]
        · obtain ⟨before, rfl⟩ := List.getLast?_eq_some_iff.mp last
          have different : char ≠ bracket :=
            fun same => inside (same ▸ isBracket)
          simp [different]

theorem count_collapse (bracket : Char) (isBracket : isBracket bracket = true)
    (operators : List Char) :
    (collapse operators).count bracket = operators.count bracket := by
  have general : ∀ ops : List Char, (operators.foldl pushOp ops).count bracket =
      ops.count bracket + operators.count bracket := by
    induction operators with
    | nil => exact fun _ => rfl
    | cons op operators induction =>
        intro ops
        rw [List.foldl_cons, induction, count_pushOp bracket isBracket,
          Nat.add_assoc, ← List.count_append, List.singleton_append]
  rw [collapse, general, List.count_nil, Nat.zero_add]

theorem writeOps_append (licenses : List Text) (first second : List Char) :
    writeOps licenses (first ++ second) =
      writeOps licenses first ++ writeOps licenses second :=
  List.flatMap_append

theorem count_writeOps (bracket : Char) (isBracket : isBracket bracket = true)
    (licenses : List Text) (ops : List Char) :
    (writeOps licenses ops).count bracket = ops.count bracket := by
  induction ops with
  | nil => rfl
  | cons op ops induction =>
      have first : (writeOps licenses [op]).count bracket =
          [op].count bracket := ?_
      · rw [← List.singleton_append, writeOps_append, List.count_append, first,
          induction, List.count_append]
      rw [writeOps, List.flatMap_singleton]
      by_cases here : License.isBracket op = true
      · rw [if_pos here]
      · have other : op ≠ bracket := fun same => here (same ▸ isBracket)
        have blank : ' ' ≠ bracket := by
          rintro rfl
          cases isBracket
        rw [if_neg here]
        split_ifs <;> simp [other, blank]

theorem count_visit {node : Node}
    (free : ∀ name ∈ node.names, '[' ∉ name ∧ ']' ∉ name)
    (manifest : Manifest) :
    (manifest.visit ok node).licensestr.count '[' +
        (manifest.visit ok node).operators.count '[' =
      manifest.licensestr.count '[' + manifest.operators.count '[' +
        node.lists ∧
    (manifest.visit ok node).licensestr.count ']' +
        (manifest.visit ok node).operators.count ']' =
      manifest.licensestr.count ']' + manifest.operators.count ']' +
        (node.lists + node.loads) := by
  induction node generalizing manifest with
  | str s =>
      obtain ⟨opening, closing⟩ := free s (List.mem_singleton.mpr rfl)
      rw [Manifest.visit]
      split_ifs
      · simp only [Manifest.write, List.count_append, count_writeOps '[' rfl,
          count_writeOps ']' rfl, count_collapse '[' rfl,
          count_collapse ']' rfl,
          List.count_eq_zero.mpr opening, List.count_eq_zero.mpr closing,
          Node.lists,
          Node.loads, List.count_nil, Nat.add_zero, and_self]
      · exact ⟨rfl, rfl⟩
  | binOp left op right first second =>
      rw [Node.names, List.forall_mem_append] at free
      have before := first free.1 manifest
      have behind := second free.2 ((manifest.visit ok left).queue op.char)
      have other : [op.char].count '[' = 0 ∧ [op.char].count ']' = 0 := by
        cases op <;> decide
      simp only [Manifest.visit, Manifest.queue, List.count_append, Node.lists,
        Node.loads] at *
      omega
  | tuple => simp [Manifest.visit, Manifest.load, Node.lists, Node.loads]; omega
  | callNone func induction => exact induction free manifest
  | call func arg first second =>
      rw [Node.names, List.forall_mem_append] at free
      have left := first free.1 manifest
      have right := second free.2 (manifest.visit ok func)
      simp only [Manifest.visit, Node.lists, Node.loads] at *
      omega
  | listNone =>
      simp [Manifest.visit, Manifest.load, Manifest.queue, Node.lists,
        Node.loads]
      omega
  | list elt induction =>
      have inner := induction free (manifest.queue '[')
      simp [Manifest.visit, Manifest.load, Manifest.queue, Node.lists,
        Node.loads] at *
      omega
  | subscript value slice first second =>
      rw [Node.names, List.forall_mem_append] at free
      have left := first free.1 manifest
      have right := second free.2 (manifest.visit ok value)
      simp [Manifest.visit, Manifest.load, Node.lists, Node.loads] at *
      omega

end Counts

end Nvbmc.License
