import Nvbmc.Library.Text

/-!
# Paths

`posixpath` as far as it works on texts: joining, the directory of a path and
its normal form.  The components of a path are what is between its slashes.
-/

namespace Nvbmc.Library

/-- `path.split('/')`. -/
def components (path : Text) : List Text :=
  path.splitOn '/'

/-- `os.path.isabs`. -/
def isabs (path : Text) : Bool :=
  path.head? = some '/'

/-- `os.path.join`. -/
def joinPaths (path name : Text) : Text :=
  if isabs name then name
  else if path = [] ∨ path.getLast? = some '/' then path ++ name
  else path ++ '/' :: name

/-- `os.path.basename`. -/
def pathBasename (path : Text) : Text :=
  path.rtakeWhile (· ≠ '/')

def dot : Text :=
  ['.']

/-- `os.path.pardir`. -/
def pardir : Text :=
  ['.', '.']

/-- The slashes that a normal form keeps at its start. -/
def initialSlashes : Text → Text
  | '/' :: '/' :: '/' :: _ => ['/']
  | '/' :: '/' :: _ => ['/', '/']
  | '/' :: _ => ['/']
  | _ => []

/-- One component behind the ones that are kept. -/
def normComponent (absolute : Bool) (kept : List Text) (component : Text) :
    List Text :=
  if component = [] ∨ component = dot then kept
  else if component ≠ pardir ∨ (absolute = false ∧ kept = []) ∨
      kept.getLast? = some pardir then kept ++ [component]
  else kept.dropLast

/-- `os.path.normpath`. -/
def normpath (path : Text) : Text :=
  let kept := (components path).foldl (normComponent (isabs path)) []
  let normal := initialSlashes path ++ ['/'].intercalate kept
  if normal = [] then dot else normal

/-- A component that names an entry of a directory. -/
structure Plain (name : Text) : Prop where
  nonempty : name ≠ []
  noDot : name ≠ dot
  noPardir : name ≠ pardir
  noSlash : '/' ∉ name

def pathBelow (base : Text) : List Text → Text
  | [] => base
  | name :: names => pathBelow base names ++ '/' :: name

section Components

variable {path other name : Text}

theorem components_append (path other : Text) :
    components (path ++ '/' :: other) = components path ++ components other :=
  List.splitOn_append_cons_self path other

theorem components_of_noSlash (noSlash : '/' ∉ name) :
    components name = [name] :=
  List.splitOn_eq_singleton noSlash

end Components

/-- A path that stands for names below a base; that of no name may end with a
slash. -/
inductive Stands (base : Text) : Text → List Text → Prop where
  | root : Stands base (base ++ ['/']) []
  | base : base ≠ [] → base.getLast? ≠ some '/' → Stands base base []
  | below (name : Text) (names : List Text) :
      Stands base (pathBelow base (name :: names)) (name :: names)

section Stands

variable {base path name : Text} {names : List Text}

theorem pathBelow_last (plain : Plain name) :
    pathBelow base (name :: names) ≠ [] ∧
      (pathBelow base (name :: names)).getLast? ≠ some '/' := by
  rw [pathBelow, List.getLast?_append_cons,
    List.getLast?_cons_of_ne_nil plain.nonempty]
  exact ⟨by simp, fun same => plain.noSlash (List.mem_of_getLast? same)⟩

theorem isabs_of_plain (plain : Plain name) : isabs name = false := by
  rw [isabs, decide_eq_false_iff_not]
  exact fun same => plain.noSlash (List.mem_of_head? same)

theorem joinPaths_plain (stands : Stands base path names)
    (plains : ∀ other ∈ names, Plain other) (plain : Plain name) :
    joinPaths path name = pathBelow base (name :: names) := by
  rw [joinPaths, isabs_of_plain plain, if_neg Bool.false_ne_true]
  cases stands with
  | root => rw [if_pos (.inr (by simp)), pathBelow, pathBelow]; simp
  | base nonempty last =>
      rw [if_neg (not_or.mpr ⟨nonempty, last⟩)]
      rfl
  | below other names =>
      rw [if_neg (not_or.mpr
        (pathBelow_last (plains other List.mem_cons_self)))]
      rfl

end Stands

section Normal

variable {path : Text} {kept : List Text}

theorem initialSlashes_eq_nil : initialSlashes path = [] ↔
    isabs path = false := by
  fun_cases initialSlashes path with
  | case1 | case2 | case3 => simp [isabs]
  | case4 path _ _ noSlash =>
      cases path with
      | nil => simp [isabs]
      | cons head path =>
          have other : head ≠ '/' := fun same => noSlash path (by rw [same])
          simp [isabs, other]

theorem intercalate_append_singleton (nonempty : kept ≠ []) (name : Text) :
    ['/'].intercalate (kept ++ [name]) = ['/'].intercalate kept ++ '/' ::
      name := by
  induction kept with
  | nil => exact absurd rfl nonempty
  | cons first kept induction =>
      by_cases none : kept = []
      · subst none
        simp
      · have more : kept ++ [name] ≠ [] :=
          List.append_ne_nil_of_left_ne_nil none _
        rw [List.cons_append, List.intercalate_cons_of_ne_nil more,
          List.intercalate_cons_of_ne_nil none, induction none]
        simp

theorem components_slash (path : Text) :
    components ('/' :: path) = [] :: components path :=
  components_append [] path

end Normal

end Nvbmc.Library
