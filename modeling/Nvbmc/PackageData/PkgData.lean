import Nvbmc.Library.Dict
import Nvbmc.Library.Replace
import Nvbmc.Library.Words
import Nvbmc.Parse.LineReaders

/-!
# Package data

`emit_pkgdata` writes one line for each variable of a package, with the name of
the package behind the variable where the value is one of the package.  The
readers split the lines again and take the name of the package away.
-/

namespace Nvbmc.PackageData

open Library Parse

/-- The codec `unicode_escape`: it writes one character after the other, a space
as it is and nothing else with a blank, and what it has written is decoded
again. -/
structure UnicodeEscape where
  escape : Char → Text
  decode : Text → Text
  decode_encode : ∀ text : Text, decode (text.flatMap escape) = text
  space : escape ' ' = [' ']
  unblank : ∀ char, char ≠ ' ' → ∀ mark ∈ escape char, isspace mark = false

namespace UnicodeEscape

variable (codec : UnicodeEscape)

def encode (text : Text) : Text :=
  text.flatMap codec.escape

theorem escape_ne_nil (char : Char) : codec.escape char ≠ [] := by
  intro empty
  have one := codec.decode_encode [char]
  rw [List.flatMap_singleton, empty] at one
  have none := codec.decode_encode []
  rw [List.flatMap_nil, one] at none
  cases none

theorem newline_encode (text : Text) :
    '\n' ∉ codec.encode text ∧ '\r' ∉ codec.encode text := by
  have clean : ∀ mark, isspace mark = true → mark ≠ ' ' →
      mark ∉ codec.encode text := by
    intro mark isBlank notSpace member
    obtain ⟨char, _, inEscape⟩ := List.mem_flatMap.mp member
    by_cases isSpace : char = ' '
    · rw [isSpace, codec.space] at inEscape
      exact notSpace (List.mem_singleton.mp inEscape)
    · rw [codec.unblank char isSpace mark inEscape] at isBlank
      cases isBlank
  exact ⟨clean _ (by decide) (by decide), clean _ (by decide) (by decide)⟩

theorem dropWhile_encode (text : Text) :
    (codec.encode text).dropWhile isspace =
      codec.encode (text.dropWhile (· = ' ')) := by
  induction text with
  | nil => rfl
  | cons char rest induction =>
      rw [encode, List.flatMap_cons]
      by_cases isSpace : char = ' '
      · have blank : isspace ' ' = true := by decide
        rw [isSpace, codec.space, List.singleton_append,
          List.dropWhile_cons_of_pos blank,
          List.dropWhile_cons_of_pos (by simp)]
        exact induction
      · obtain ⟨first, others, isCons⟩ :=
          List.exists_cons_of_ne_nil (codec.escape_ne_nil char)
        have unblank :=
          codec.unblank char isSpace first (isCons ▸ List.mem_cons_self)
        rw [List.dropWhile_cons_of_neg (by simpa using isSpace), isCons,
          List.cons_append,
          List.dropWhile_cons_of_neg (by simp [unblank]), encode,
          List.flatMap_cons, isCons,
          List.cons_append]

end UnicodeEscape

/-- The name of a variable of the package. -/
def keyOf (pkg var : Text) : Text :=
  var ++ ':' :: pkg

/-- The name and the value that are written for a variable. -/
def written (d : Text → Option Text) (pkg var : Text) : Option (Text × Text) :=
  match (d (keyOf pkg var)).filter (· ≠ []) with
  | some val => some (keyOf pkg var, val)
  | none => ((d var).filter (· ≠ [])).map fun val => (var, val)

/-- `'%s: %s\n' % (name, encode(val))`. -/
def lineOf (codec : UnicodeEscape) (entry : Text × Text) : Text :=
  entry.1 ++ [':', ' '] ++ codec.encode entry.2 ++ ['\n']

/-- What `write_if_exists` writes. -/
def writeIfExists (codec : UnicodeEscape) (d : Text → Option Text)
    (pkg var : Text) : Text :=
  ((written d pkg var).map (lineOf codec)).getD []

def pkgdataFile (codec : UnicodeEscape) (d : Text → Option Text) (pkg : Text)
    (variableNames : List Text) : Text :=
  variableNames.flatMap (writeIfExists codec d pkg)

/-- `(^.+?):\s+(.*)`, behind the part of the name that has been read. -/
def matchFrom (name : Text) : Text → Option (Text × Text)
  | [] => none
  | char :: rest =>
      if name ≠ [] ∧ char = ':' ∧ rest.head?.any isspace = true then
        some (name, (rest.dropWhile isspace).takeWhile (· ≠ '\n'))
      else if char = '\n' then none
      else matchFrom (name ++ [char]) rest

/-- `read_pkgdatafile`. -/
def readPkgdatafile (codec : UnicodeEscape) (content : Text) : Dict Text Text :=
  Dict.collect (fun line => (matchFrom [] line).map fun found =>
    (found.1, codec.decode found.2)) (readlines content)

/-- The name without the name of the package, unless there is a value of the
package too. -/
def collapsed (pkg : Text) (subd : Dict Text Text) (var : Text) : Option Text :=
  let newvar := replaceAll (':' :: pkg) [] var
  if newvar = var ∧ subd.contains (keyOf pkg var) then none else some newvar

/-- `read_subpkgdata_dict`. -/
def readSubpkgdataDict (codec : UnicodeEscape) (pkg content : Text) :
    Dict Text Text :=
  let subd := readPkgdatafile codec content
  Dict.collect (fun entry => (collapsed pkg subd entry.1).map fun newvar =>
    (newvar, entry.2)) subd

section Read

variable {codec : UnicodeEscape} {d : Text → Option Text} {pkg var name : Text}
  {variableNames : List Text}

theorem matchFrom_line {front : Text}
    (isWord : ∀ char ∈ name, isspace char = false)
    (nonempty : front ++ name ≠ []) (val : Text) :
    matchFrom front (name ++ [':', ' '] ++ val) =
      some (front ++ name, (val.dropWhile isspace).takeWhile (· ≠ '\n')) := by
  have blank : isspace ' ' = true := by decide
  induction name generalizing front with
  | nil =>
      rw [List.append_nil] at nonempty
      rw [List.nil_append, List.cons_append, matchFrom,
        if_pos ⟨nonempty, rfl, blank⟩,
        List.append_nil, List.cons_append, List.nil_append,
        List.dropWhile_cons_of_pos blank]
  | cons char rest induction =>
      have isChar := isWord char List.mem_cons_self
      have isRest : ∀ other ∈ rest, isspace other = false := fun other member =>
        isWord other (List.mem_cons_of_mem _ member)
      have notEnd : (rest ++ [':', ' '] ++ val).head?.any isspace ≠ true := by
        cases rest with
        | nil =>
            show isspace ':' ≠ true
            decide
        | cons next rest =>
            show isspace next ≠ true
            rw [isRest next List.mem_cons_self]
            decide
      have notNewline : char ≠ '\n' := by
        intro same
        rw [same] at isChar
        exact absurd isChar (by decide)
      rw [List.cons_append, List.cons_append, matchFrom, if_neg fun all =>
        notEnd all.2.2,
        if_neg notNewline, induction isRest (by simp), List.append_assoc,
        List.singleton_append]

theorem matchFrom_lineOf (isWord : IsWord name) (val : Text) :
    matchFrom [] (lineOf codec (name, val)) =
      some (name, codec.encode (val.dropWhile (· = ' '))) := by
  have noNewline : ∀ char ∈ codec.encode (val.dropWhile (· = ' ')),
      decide (char ≠ '\n') = true := by
    intro char member
    apply decide_eq_true
    intro same
    exact (codec.newline_encode _).1 (same ▸ member)
  have blank : isspace '\n' = true := by decide
  rw [lineOf, List.append_assoc,
    matchFrom_line isWord.unblank (by simpa using isWord.nonempty),
    List.nil_append]
  refine congrArg (fun found => some (name, found)) ?_
  have behind : (codec.encode val ++ ['\n']).dropWhile isspace =
      codec.encode (val.dropWhile (· = ' ')) ++ ['\n'] ∨
        (codec.encode val ++ ['\n']).dropWhile isspace = [] ∧
          codec.encode (val.dropWhile (· = ' ')) = [] := by
    rw [List.dropWhile_append, codec.dropWhile_encode]
    split_ifs with empty
    · right
      refine ⟨?_, by simpa using empty⟩
      rw [List.dropWhile_cons_of_pos blank]
      rfl
    · exact .inl rfl
  rcases behind with isBehind | ⟨isBehind, isEmpty⟩
  · rw [isBehind, List.takeWhile_append_of_pos noNewline]
    simp
  · rw [isBehind, isEmpty]
    rfl

def entriesOf (d : Text → Option Text) (pkg : Text)
    (variableNames : List Text) : List (Text × Text) :=
  variableNames.filterMap (written d pkg)

theorem pkgdataFile_eq (variableNames : List Text) :
    pkgdataFile codec d pkg variableNames =
      ((entriesOf d pkg variableNames).map (lineOf codec)).flatten := by
  induction variableNames with
  | nil => rfl
  | cons var variableNames induction =>
      rw [pkgdataFile, List.flatMap_cons, ← pkgdataFile, induction,
        writeIfExists, entriesOf, entriesOf, List.filterMap_cons]
      cases written d pkg var with
      | none => rfl
      | some entry => rfl

theorem isWord_keyOf (isPkg : IsWord pkg) (isVar : IsWord var) :
    IsWord (keyOf pkg var) := by
  constructor
  · simp [keyOf]
  · intro char member
    rcases List.mem_append.mp member with inVar | behind
    · exact isVar.unblank char inVar
    · rcases List.mem_cons.mp behind with isColon | inPkg
      · rw [isColon]
        decide
      · exact isPkg.unblank char inPkg

theorem written_eq_some {val : Text}
    (isWritten : written d pkg var = some (name, val)) :
    d name = some val ∧ val ≠ [] ∧ (name = keyOf pkg var ∨
      name = var ∧ (d (keyOf pkg var)).filter (· ≠ []) = none) := by
  rw [written] at isWritten
  split at isWritten
  · rename_i found isFound
    cases isWritten
    obtain ⟨isVal, nonempty⟩ := Option.filter_eq_some_iff.mp isFound
    exact ⟨isVal, by simpa using nonempty, .inl rfl⟩
  · rename_i isNone
    obtain ⟨found, isFound, same⟩ := Option.map_eq_some_iff.mp isWritten
    cases same
    obtain ⟨isVal, nonempty⟩ := Option.filter_eq_some_iff.mp isFound
    exact ⟨isVal, by simpa using nonempty, .inr ⟨rfl, isNone⟩⟩

theorem isWord_of_written {val : Text} (isPkg : IsWord pkg) (isVar : IsWord var)
    (isWritten : written d pkg var = some (name, val)) : IsWord name := by
  rcases (written_eq_some isWritten).2.2 with isKey | ⟨isName, _⟩
  · rw [isKey]
    exact isWord_keyOf isPkg isVar
  · rwa [isName]

theorem readPkgdatafile_pkgdataFile (isPkg : IsWord pkg)
    (areVars : ∀ var ∈ variableNames, IsWord var) :
    readPkgdatafile codec (pkgdataFile codec d pkg variableNames) =
      Dict.collect (fun entry => some (entry.1, entry.2.dropWhile (· = ' ')))
        (entriesOf d pkg variableNames) := by
  have areWords : ∀ entry ∈ entriesOf d pkg variableNames, IsWord entry.1 := by
    intro entry member
    obtain ⟨var, isVar, isWritten⟩ := List.mem_filterMap.mp member
    exact isWord_of_written isPkg (areVars var isVar) isWritten
  have lines : readlines (pkgdataFile codec d pkg variableNames) =
      (entriesOf d pkg variableNames).map (lineOf codec) := by
    have isLine : ∀ entry, lineOf codec entry =
        (entry.1 ++ [':', ' '] ++ codec.encode entry.2) ++ ['\n'] :=
          fun _ => rfl
    have clean : ∀ line ∈ (entriesOf d pkg variableNames).map
        (fun entry => entry.1 ++ [':', ' '] ++ codec.encode entry.2),
        '\n' ∉ line ∧ '\r' ∉ line := by
      intro line member
      obtain ⟨entry, isEntry, same⟩ := List.mem_map.mp member
      obtain ⟨noNewline, noReturn⟩ := codec.newline_encode entry.2
      have unblank : ∀ mark ∈ entry.1, isspace mark = false :=
        (areWords entry isEntry).unblank
      rw [← same]
      have notIn : ∀ mark, isspace mark = true → mark ∉ entry.1 := by
        intro mark isBlank member
        rw [unblank mark member] at isBlank
        cases isBlank
      have newline := notIn '\n' (by decide)
      have carriage := notIn '\r' (by decide)
      constructor
      · simp [newline, noNewline]
      · simp [carriage, noReturn]
    have read := readlines_flatten clean
    rw [List.map_map] at read
    rw [pkgdataFile_eq]
    exact read
  rw [readPkgdatafile, lines, Dict.collect_map]
  have same : ∀ entries : List (Text × Text),
      (∀ entry ∈ entries, IsWord entry.1) →
      Dict.collect (fun entry => (matchFrom [] (lineOf codec entry)).map
        fun found => (found.1, codec.decode found.2)) entries =
        Dict.collect (fun entry => some (entry.1, entry.2.dropWhile (· = ' ')))
          entries := by
    intro entries areNames
    induction entries using List.reverseRecOn with
    | nil => rfl
    | append_singleton entries entry induction =>
        have isName := areNames entry (by simp)
        rw [Dict.collect_concat, Dict.collect_concat,
          induction fun other member =>
            areNames other (List.mem_append_left _ member),
          show entry = (entry.1, entry.2) from rfl, matchFrom_lineOf isName]
        simp only [Option.map_some]
        rw [UnicodeEscape.encode, codec.decode_encode]
  exact same _ areWords

end Read

end Nvbmc.PackageData
