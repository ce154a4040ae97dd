import Nvbmc.Library.Numerals
import Nvbmc.Library.Split

/-!
# Splitting an URL

`urllib.parse.urlparse` of an URL without a semicolon, as its documentation
describes it. What `quote`, `unquote`, `str.lower` and NFKC come to is given.
-/

namespace Nvbmc.Fetch2

open Nvbmc.Library

/-- Line breaks and tabs, which `urlparse` removes. -/
def breaks : List Char := ['\t', '\n', '\r']

/-- The characters that end a part of an URL, or that are looked for in a part.
-/
def delimiters : List Char := ['/', '?', '#', '@', ':', '[', ']', '%', ';'] ++
    breaks

/-- `quote` leaves the character as it is. -/
def isSafe (char : Char) : Bool :=
  char.isAlphanum || char ∈ ['_', '.', '-', '~', '/']

/-- The functions on text that an URL goes through. -/
structure Urllib where
  quote : Text → Text
  unquote : Text → Text
  lower : Text → Text
  /-- The character decomposes under NFKC into a delimiter. -/
  refused : Char → Bool
  unquote_quote : ∀ path, unquote (quote path) = path
  quote_nil : quote [] = []
  quote_slash : ∀ path, quote ('/' :: path) = '/' :: quote path
  unquote_slash : ∀ path, unquote ('/' :: path) = '/' :: unquote path
  mem_quote : ∀ {path : Text} {char}, char ∈ quote path → isSafe char ∨
    char = '%'
  lower_lower : ∀ text, lower (lower text) = lower text
  mem_of_delimiter : ∀ {text : Text} {char}, char ∈ delimiters →
    char ∈ lower text → char ∈ text
  mem_of_refused : ∀ {text : Text} {char}, refused char → char ∈ lower text →
    char ∈ text
  not_refused : ∀ {char : Char}, char.toNat < 128 → refused char = false

structure Parsed where
  scheme : Text
  netloc : Text
  path : Text
  query : Text
deriving DecidableEq

/-- The URL without blanks and control characters in front, and without line
breaks. -/
def sanitised (url : Text) : Text :=
  (url.dropWhile fun char => char.toNat ≤ 32).filter fun char => char ∉ breaks

def ofScheme (char : Char) : Bool :=
  char.isAlphanum || char ∈ ['+', '-', '.']

def isScheme (scheme : Text) : Bool :=
  scheme.head?.any Char.isAlpha && scheme.all ofScheme

def splitScheme (url : Text) : Text × Text :=
  match splitOnce ':' url with
  | some (scheme, rest) =>
      if isScheme scheme then (scheme.map Char.toLower, rest) else ([], url)
  | none => ([], url)

def ofNetloc (char : Char) : Bool :=
  char ∉ ['/', '?', '#']

def splitNetloc : Text → Text × Text
  | '/' :: '/' :: rest => (rest.takeWhile ofNetloc, rest.dropWhile ofNetloc)
  | url => ([], url)

/-- The network location is not taken for an IPv6 address that is not closed,
and no part of it is a delimiter in disguise. -/
def Urllib.accepts (lib : Urllib) (netloc : Text) : Bool :=
  (decide ('[' ∈ netloc) == decide (']' ∈ netloc)) && !netloc.any lib.refused

/-- The path and the query in what follows the network location; the fragment is
not used. -/
def splitPath (rest : Text) : Text × Text :=
  let (path, query) := partition '?' (partition '#' rest).1
  (path, query.getD [])

/-- `urlparse`, `none` for its `ValueError`. -/
def Urllib.urlparse (lib : Urllib) (url : Text) : Option Parsed :=
  let (scheme, rest) := splitScheme (sanitised url)
  let (netloc, rest) := splitNetloc rest
  let (path, query) := splitPath rest
  if lib.accepts netloc then some ⟨scheme, netloc, path, query⟩ else none

/-- What stands before the last `@`, if there is one. -/
def userinfo? (netloc : Text) : Option Text :=
  (rsplitOnce '@' netloc).map Prod.fst

def hostinfo (netloc : Text) : Text :=
  match rsplitOnce '@' netloc with
  | some (_, host) => host
  | none => netloc

def username? (netloc : Text) : Option Text :=
  (userinfo? netloc).map fun info => (partition ':' info).1

def password? (netloc : Text) : Option Text :=
  (userinfo? netloc).bind fun info => (partition ':' info).2

def hostAndPort (netloc : Text) : Text × Option Text :=
  match splitOnce '[' (hostinfo netloc) with
  | some (_, bracketed) =>
      let (host, after) := partition ']' bracketed
      (host, (partition ':' (after.getD [])).2)
  | none => partition ':' (hostinfo netloc)

/-- The zone of an address is left as it is. -/
def Urllib.lowered (lib : Urllib) (host : Text) : Text :=
  match partition '%' host with
  | (name, some zone) => lib.lower name ++ '%' :: zone
  | (name, none) => lib.lower name

/-- The attribute `hostname`. -/
def Urllib.hostname? (lib : Urllib) (netloc : Text) : Option Text :=
  let host := (hostAndPort netloc).1
  if host = [] then none else some (lib.lowered host)

/-- The attribute `port`, `none` for its `ValueError`. -/
def port? (netloc : Text) : Option (Option ℕ) :=
  match (hostAndPort netloc).2 with
  | none => some none
  | some [] => some none
  | some digits =>
      if digits.all Char.isDigit ∧ Nat.ofDigitChars 10 digits 0 ≤ 65535 then
        some (some (Nat.ofDigitChars 10 digits 0))
      else none

private theorem lowered_ascii : ∀ code < 128,
    ((Char.ofNat code).isAlpha → (Char.ofNat code).toLower.isAlpha) ∧
    (ofScheme (Char.ofNat code) → ofScheme (Char.ofNat code).toLower) ∧
    (Char.ofNat code).toLower.toLower = (Char.ofNat code).toLower := by
  decide

variable {char : Char}

theorem ascii_of_isAlphanum (alphanum : char.isAlphanum) :
    char.toNat < 128 := by
  have ranges : char.isAlphanum =
      (decide ('A'.val ≤ char.val ∧ char.val ≤ 'Z'.val) ||
        (decide ('a'.val ≤ char.val) && decide (char.val ≤ 'z'.val)) ||
        (decide ('0'.val ≤ char.val) && decide (char.val ≤ '9'.val))) := rfl
  simp only [ranges, Bool.or_eq_true, Bool.and_eq_true, decide_eq_true_eq]
    at alphanum
  obtain (⟨_, upper⟩ | ⟨_, lower⟩) | ⟨_, digit⟩ := alphanum
  · exact Nat.lt_of_le_of_lt (UInt32.le_iff_toNat_le.mp upper) (by decide)
  · exact Nat.lt_of_le_of_lt (UInt32.le_iff_toNat_le.mp lower) (by decide)
  · exact Nat.lt_of_le_of_lt (UInt32.le_iff_toNat_le.mp digit) (by decide)

theorem ascii_of_ofScheme (inside : ofScheme char) : char.toNat < 128 := by
  simp only [ofScheme, Bool.or_eq_true, decide_eq_true_eq, List.mem_cons,
    List.not_mem_nil, or_false] at inside
  obtain alphanum | rfl | rfl | rfl := inside
  · exact ascii_of_isAlphanum alphanum
  · decide
  · decide
  · decide

theorem ascii_of_isSafe (safe : isSafe char) : char.toNat < 128 := by
  simp only [isSafe, Bool.or_eq_true, decide_eq_true_eq, List.mem_cons,
    List.not_mem_nil, or_false] at safe
  obtain alphanum | rfl | rfl | rfl | rfl | rfl := safe
  · exact ascii_of_isAlphanum alphanum
  · decide
  · decide
  · decide
  · decide
  · decide

/-- A scheme as `urlparse` returns it. -/
structure IsScheme (scheme : Text) : Prop where
  valid : isScheme scheme
  lower : scheme.map Char.toLower = scheme

theorem isScheme_toLower {scheme : Text} (valid : isScheme scheme) :
    IsScheme (scheme.map Char.toLower) := by
  rw [isScheme, Bool.and_eq_true, List.all_eq_true] at valid
  obtain ⟨start, inside⟩ := valid
  have ascii : ∀ char ∈ scheme, (char.isAlpha → char.toLower.isAlpha) ∧
      ofScheme char.toLower ∧ char.toLower.toLower = char.toLower := by
    intro char member
    obtain ⟨alpha, scheme, again⟩ :=
      lowered_ascii _ (ascii_of_ofScheme (inside char member))
    rw [Char.ofNat_toNat] at alpha scheme again
    exact ⟨alpha, scheme (inside char member), again⟩
  constructor
  · rw [isScheme, Bool.and_eq_true, List.all_eq_true]
    constructor
    · cases scheme with
      | nil => simp at start
      | cons char scheme =>
          simp only [List.head?_cons, Option.any_some] at start
          simpa using (ascii char List.mem_cons_self).1 start
    · intro char member
      obtain ⟨original, among, rfl⟩ := List.mem_map.mp member
      exact (ascii original among).2.1
  · rw [List.map_map]
    apply List.map_congr_left
    intro char member
    exact (ascii char member).2.2

section Schemes

variable {scheme : Text} (valid : isScheme scheme)

include valid

theorem ofScheme_of_mem {char : Char} (member : char ∈ scheme) :
    ofScheme char := by
  rw [isScheme, Bool.and_eq_true, List.all_eq_true] at valid
  exact valid.2 char member

theorem not_mem_scheme {char : Char} (outside : ofScheme char = false) :
    char ∉ scheme := by
  intro member
  rw [ofScheme_of_mem valid member] at outside
  cases outside

theorem exists_cons_scheme : ∃ char rest, scheme = char :: rest ∧
    char.isAlpha := by
  rw [isScheme, Bool.and_eq_true] at valid
  cases scheme with
  | nil => simp at valid
  | cons char rest => exact ⟨char, rest, rfl, by simpa using valid.1⟩

end Schemes

theorem splitNetloc_cases (url : Text) : (∃ rest, url = '/' :: '/' :: rest ∧
      splitNetloc url = (rest.takeWhile ofNetloc, rest.dropWhile ofNetloc)) ∨
    (¬ ['/', '/'] <+: url ∧ splitNetloc url = ([], url)) := by
  by_cases slashes : ['/', '/'] <+: url
  · obtain ⟨rest, rfl⟩ := slashes
    exact .inl ⟨rest, rfl, rfl⟩
  · refine .inr ⟨slashes, ?_⟩
    rw [splitNetloc]
    rintro rest rfl
    exact slashes ⟨rest, rfl⟩

theorem mem_of_mem_splitScheme {url : Text}
    (member : char ∈ (splitScheme url).2) : char ∈ url := by
  rw [splitScheme] at member
  cases found : splitOnce ':' url with
  | none => simpa [found] using member
  | some parts =>
      have split := (splitOnce_eq_some.mp found).1
      simp only [found] at member
      split_ifs at member
      · rw [split]
        exact List.mem_append_right _ (List.mem_cons_of_mem _ member)
      · exact member

theorem mem_sanitised {url : Text} (member : char ∈ sanitised url) :
    char ∈ url ∧ char ∉ breaks := by
  obtain ⟨kept, clean⟩ := List.mem_filter.mp member
  exact ⟨(List.dropWhile_sublist _).subset kept, by simpa using clean⟩

/-- What is said about the parts of an URL that `urlparse` returns. -/
structure Parsed.Splits (lib : Urllib) (url : Text) (parsed : Parsed) :
    Prop where
  scheme : parsed.scheme ≠ [] → IsScheme parsed.scheme
  accepted : lib.accepts parsed.netloc
  netloc : ∀ char ∈ parsed.netloc, ofNetloc char ∧ char ∈ url ∧ char ∉ breaks
  path : parsed.netloc ≠ [] → parsed.path = [] ∨ parsed.path.head? = some '/'
  query : ∀ char ∈ parsed.query, char ≠ '#' ∧ char ∈ url ∧ char ∉ breaks

variable {lib : Urllib} {url scheme rest later netloc path query : Text}
  {parsed : Parsed}

theorem isScheme_of_splitScheme (nonempty : (splitScheme url).1 ≠ []) :
    IsScheme (splitScheme url).1 := by
  rw [splitScheme] at nonempty ⊢
  cases found : splitOnce ':' url with
  | none => simp [found] at nonempty
  | some parts =>
      simp only [found] at nonempty ⊢
      split_ifs with valid
      · exact isScheme_toLower valid
      · simp [valid] at nonempty

theorem splitPath_fst_of_head
    (stop : ∀ char ∈ rest.head?, ofNetloc char = false) :
    (splitPath rest).1 = [] ∨ (splitPath rest).1.head? = some '/' := by
  rw [splitPath]
  cases rest with
  | nil => exact .inl rfl
  | cons char rest =>
      have ends : char = '/' ∨ char = '?' ∨ char = '#' := by
        have ends := stop char rfl
        simp only [ofNetloc, List.mem_cons, List.not_mem_nil, or_false, not_or,
          decide_eq_false_iff_not, not_and, not_not] at ends
        tauto
      have slash : ∀ separator ≠ '/', ∀ rest : Text,
          (partition separator ('/' :: rest)).1 =
            '/' :: (partition separator rest).1 := by
        intro separator different rest
        rw [partition, partition, splitOnce, if_neg (Ne.symm different)]
        cases splitOnce separator rest <;> rfl
      obtain rfl | rfl | rfl := ends
      · right
        rw [slash '#' (by decide), slash '?' (by decide)]
        rfl
      · left
        have head : (partition '#' ('?' :: rest)).1 =
            '?' :: (partition '#' rest).1 := by
          rw [partition, partition, splitOnce, if_neg (by decide)]
          cases splitOnce '#' rest <;> rfl
        rw [head]
        rfl
      · exact .inl rfl

/-- The two parts of `splitNetloc` are within the text. -/
theorem splitNetloc_spec (rest : Text) :
    (∀ char ∈ (splitNetloc rest).1, ofNetloc char ∧ char ∈ rest) ∧
    (∀ char ∈ (splitNetloc rest).2, char ∈ rest) ∧
    ((splitNetloc rest).1 ≠ [] → ∀ char ∈ (splitNetloc rest).2.head?,
      ofNetloc char = false) := by
  obtain ⟨tail, rfl, split⟩ | ⟨_, split⟩ := splitNetloc_cases rest
  · rw [split]
    refine ⟨?_, ?_, ?_⟩
    · intro char member
      have among := (List.takeWhile_prefix _).subset member
      exact ⟨List.mem_takeWhile_imp member, by simp [among]⟩
    · intro char member
      have among := (List.dropWhile_suffix _).subset member
      simp [among]
    · intro _ char first
      have stops := List.head?_dropWhile_not ofNetloc tail
      rw [Option.mem_def.mp first] at stops
      exact stops
  · rw [split]
    exact ⟨by simp, fun _ member => member, by simp⟩

theorem of_mem_splitPath_snd (member : char ∈ (splitPath rest).2) :
    char ≠ '#' ∧ char ∈ rest := by
  rw [splitPath] at member
  cases second : (partition '?' (partition '#' rest).1).2 with
  | none => simp [second] at member
  | some text =>
      simp only [second, Option.getD_some] at member
      have among := mem_of_mem_partition_snd second member
      refine ⟨?_, mem_of_mem_partition_fst among⟩
      rintro rfl
      exact not_mem_partition_fst among

theorem splits_of_urlparse (found : lib.urlparse url = some parsed) :
    parsed.Splits lib url := by
  have original : ∀ char ∈ (splitScheme (sanitised url)).2, char ∈ url ∧
      char ∉ breaks :=
    fun char member => mem_sanitised (mem_of_mem_splitScheme member)
  have valid := @isScheme_of_splitScheme (sanitised url)
  obtain ⟨inside, ofLater, stop⟩ :=
    splitNetloc_spec (splitScheme (sanitised url)).2
  simp only [Urllib.urlparse] at found
  split_ifs at found with accepted
  cases found
  constructor
  · exact valid
  · exact accepted
  · intro char member
    exact ⟨(inside char member).1, original char (inside char member).2⟩
  · intro nonempty
    exact splitPath_fst_of_head (stop nonempty)
  · intro char member
    obtain ⟨different, among⟩ := of_mem_splitPath_snd member
    exact ⟨different, original char (ofLater char among)⟩

def queryText (query : Text) : Text :=
  if query = [] then [] else '?' :: query

theorem splitNetloc_append (inside : ∀ char ∈ netloc, ofNetloc char)
    (stop : ∀ char ∈ later.head?, ofNetloc char = false) :
    splitNetloc ('/' :: '/' :: (netloc ++ later)) = (netloc, later) := by
  have none : later.takeWhile ofNetloc = [] ∧
      later.dropWhile ofNetloc = later := by
    cases later with
    | nil => exact ⟨rfl, rfl⟩
    | cons char later =>
        have here := stop char rfl
        exact ⟨List.takeWhile_cons_of_neg (by simp [here]),
          List.dropWhile_cons_of_neg (by simp [here])⟩
  rw [splitNetloc, List.takeWhile_append_of_pos inside,
    List.dropWhile_append_of_pos inside, none.1, none.2, List.append_nil]

theorem splitNetloc_of_not_slashes (slashes : ¬ ['/', '/'] <+: rest) :
    splitNetloc rest = ([], rest) := by
  obtain ⟨tail, rfl, _⟩ | ⟨_, split⟩ := splitNetloc_cases rest
  · exact absurd ⟨tail, rfl⟩ slashes
  · exact split

theorem splitPath_append (ofPath : ∀ char ∈ path, char ≠ '?' ∧ char ≠ '#')
    (ofQuery : '#' ∉ query) : splitPath (path ++ queryText query) =
      (path, query) := by
  have noMark : '?' ∉ path := fun member => (ofPath _ member).1 rfl
  have noHash : '#' ∉ path := fun member => (ofPath _ member).2 rfl
  rw [splitPath, queryText]
  split_ifs with empty
  · rw [List.append_nil, partition_of_not_mem noHash,
      partition_of_not_mem noMark, empty]
    rfl
  · have clean : '#' ∉ path ++ '?' :: query := by simp [noHash, ofQuery]
    rw [partition_of_not_mem clean, partition_append noMark]
    rfl

/-- `urlparse` finds the parts again. -/
theorem urlparse_append (isScheme : IsScheme scheme)
    (clean : ∀ char ∈ rest, char ∉ breaks)
    (location : splitNetloc rest = (netloc, later))
    (parts : splitPath later = (path, query))
    (accepted : lib.accepts netloc) :
    lib.urlparse (scheme ++ ':' :: rest) =
      some ⟨scheme, netloc, path, query⟩ := by
  have noColon : ':' ∉ scheme := not_mem_scheme isScheme.valid (by decide)
  have same : sanitised (scheme ++ ':' :: rest) = scheme ++ ':' :: rest := by
    obtain ⟨first, tail, rfl, alpha⟩ := exists_cons_scheme isScheme.valid
    have printed : ¬ first.toNat ≤ 32 := by
      intro low
      have code : ∀ code ≤ 32, ¬ (Char.ofNat code).isAlpha := by decide
      have := code _ low
      rw [Char.ofNat_toNat] at this
      exact this alpha
    rw [sanitised, List.cons_append,
      List.dropWhile_cons_of_neg (by simpa using printed),
      List.filter_eq_self, ← List.cons_append]
    intro char member
    rcases List.mem_append.mp member with inScheme | later
    · have ofScheme := ofScheme_of_mem isScheme.valid inScheme
      simp only [decide_eq_true_eq]
      intro isBreak
      simp only [breaks, List.mem_cons, List.not_mem_nil, or_false] at isBreak
      obtain rfl | rfl | rfl := isBreak <;> exact absurd ofScheme (by decide)
    · rcases List.mem_cons.mp later with rfl | later
      · decide
      · simpa using clean char later
  have first : splitOnce ':' (scheme ++ ':' :: rest) = some (scheme, rest) :=
    splitOnce_eq_some.mpr ⟨rfl, noColon⟩
  rw [Urllib.urlparse, same, splitScheme, first]
  simp only [isScheme.valid, if_true, isScheme.lower, location, parts, accepted]

/-- Decodes a character that is written as its code, of which so much has been
read. -/
def decodeFrom : Option ℕ → Text → Text
  | none, [] => []
  | none, char :: rest =>
      if char = '%' then decodeFrom (some 0) rest
      else char :: decodeFrom none rest
  | some _, [] => []
  | some code, char :: rest =>
      if char.isDigit then
        decodeFrom (some (10 * code + (char.toNat - 48))) rest
      else Char.ofNat code :: decodeFrom none rest

def encodeChar (char : Char) : Text :=
  if isSafe char then [char] else '%' :: (Nat.toDigits 10 char.toNat ++ ['.'])

theorem decodeFrom_digits {digits : Text}
    (areDigits : ∀ char ∈ digits, char.isDigit)
    (code : ℕ) (rest : Text) : decodeFrom (some code) (digits ++ '.' :: rest) =
      Char.ofNat (Nat.ofDigitChars 10 digits code) :: decodeFrom none rest := by
  induction digits generalizing code with
  | nil => simp [decodeFrom]
  | cons char digits induction =>
      have isDigit := areDigits char List.mem_cons_self
      rw [List.cons_append, decodeFrom, if_pos isDigit,
        induction (fun other member =>
          areDigits other (List.mem_cons_of_mem _ member)),
        Nat.ofDigitChars_cons]
      rfl

theorem decodeFrom_encodeChar (char : Char) (rest : Text) :
    decodeFrom none (encodeChar char ++ rest) =
      char :: decodeFrom none rest := by
  rw [encodeChar]
  split_ifs with safe
  · have different : char ≠ '%' := by
      rintro rfl
      exact absurd safe (by decide)
    rw [List.singleton_append, decodeFrom, if_neg different]
  · have areDigits : ∀ other ∈ Nat.toDigits 10 char.toNat, other.isDigit :=
      fun other member => Nat.isDigit_of_mem_toDigits (by decide) (by decide)
        member
    have decoded := decodeFrom_digits areDigits 0 rest
    rw [Nat.ofDigitChars_ten_toDigits, Char.ofNat_toNat] at decoded
    rw [List.cons_append, List.append_assoc, decodeFrom, if_pos rfl]
    exact decoded

theorem decodeFrom_flatMap (path : Text) :
    decodeFrom none (path.flatMap encodeChar) = path := by
  induction path with
  | nil => rfl
  | cons char path induction =>
      rw [List.flatMap_cons, decodeFrom_encodeChar, induction]

/-- Functions that leave text of lower case letters, digits and slashes as it
is, as those of `urllib` do.  Other characters are written as their codes. -/
def plainUrllib : Urllib where
  quote := fun path => path.flatMap encodeChar
  unquote := decodeFrom none
  lower := id
  refused := fun _ => false
  unquote_quote := decodeFrom_flatMap
  quote_nil := rfl
  quote_slash := fun _ => rfl
  unquote_slash := fun _ => rfl
  mem_quote := by
    intro path char member
    obtain ⟨original, _, inside⟩ := List.mem_flatMap.mp member
    rw [encodeChar] at inside
    split_ifs at inside with safe
    · exact .inl (List.mem_singleton.mp inside ▸ safe)
    · simp only [List.mem_cons, List.mem_append, List.not_mem_nil, or_false]
        at inside
      obtain rfl | digit | rfl := inside
      · exact .inr rfl
      · have isDigit : char.isDigit :=
          Nat.isDigit_of_mem_toDigits (by decide) (by decide) digit
        exact .inl (by simp [isSafe, Char.isAlphanum, isDigit])
      · exact .inl (by decide)
  lower_lower := fun _ => rfl
  mem_of_delimiter := fun _ member => member
  mem_of_refused := fun _ member => member
  not_refused := fun _ => rfl

end Nvbmc.Fetch2
