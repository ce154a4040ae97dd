import Nvbmc.CodeParser.PythonUnions

/-!
# Parsing texts with the caches

What was found for a text is kept under its hash, or under a key that names the
function of a module, and is taken from there when it is asked for again.  The
cache `pythoncache` comes from earlier processes and is only read here.
-/

namespace Nvbmc.CodeParser

open Nvbmc.Library

variable {Expr Hash : Type} [DecidableEq Hash] {around : Surroundings Expr}
  {bbhash : Text → Hash} {parse : Text → Except PyError (List (Call Expr))}

/-- A line is kept under a key in one of the two caches. -/
def PythonCaches.Keeps (caches : PythonCaches Hash) (key : Hash)
    (line : PythonCacheLine Hash) : Prop :=
  caches.pythoncache.get? key = some line ∨
    caches.pythoncacheextras.get? key = some line

/-- Each line is what was found for one of some requests, with this key. -/
def PythonCaches.Honest (around : Surroundings Expr) (bbhash : Text → Hash)
    (parse : Text → Except PyError (List (Call Expr)))
    (asked : List (Request Hash)) (caches : PythonCaches Hash) : Prop :=
  ∀ key line, caches.Keeps key line → ∃ request ∈ asked, ∃ text,
    request.node = some text ∧ request.key bbhash = key ∧
      freshLine around bbhash parse request text = .ok line

/-- Requests with the same key have the same text and the same function. -/
def Request.Alone (bbhash : Text → Hash) (request : Request Hash) (text : Text)
    (asked : List (Request Hash)) : Prop :=
  ∀ other ∈ asked, ∀ text', other.node = some text' →
    other.key bbhash = request.key bbhash →
      text' = text ∧ other.fixed = request.fixed

variable {asked earlier : List (Request Hash)} {caches : PythonCaches Hash}
  {request : Request Hash} {text : Text}

theorem honest_empty :
    (⟨[], []⟩ : PythonCaches Hash).Honest around bbhash parse asked := by
  rintro key line (isNone | isNone) <;> cases isNone

theorem PythonCaches.Honest.mono
    (honest : caches.Honest around bbhash parse asked)
    (more : asked ⊆ earlier) :
    caches.Honest around bbhash parse earlier := by
  intro key line keeps
  obtain ⟨request, member, found⟩ := honest key line keeps
  exact ⟨request, more member, found⟩

theorem parsePython_honest {caches' : PythonCaches Hash}
    {line : PythonCacheLine Hash}
    (honest : caches.Honest around bbhash parse asked)
    (isAsked : request ∈ asked)
    (returned : parsePython around bbhash parse caches request =
      .ok (line, caches')) : caches'.Honest around bbhash parse asked := by
  rw [parsePython] at returned
  split at returned
  · cases returned
    exact honest
  · cases stored : caches.pythoncache.get? (request.key bbhash) with
    | some found =>
        simp only [stored] at returned
        cases returned
        exact honest
    | none =>
        simp only [stored] at returned
        split at returned
        · cases returned
          exact honest
        · cases isText : request.node.filter (· ≠ []) with
          | none =>
              simp only [isText] at returned
              cases returned
          | some text =>
              simp only [isText] at returned
              obtain ⟨found, isFound, same⟩ := map_eq_ok returned
              cases same
              have isNode := (Option.filter_eq_some_iff.mp isText).1
              intro key other keeps
              by_cases same : key = request.key bbhash
              · rw [same] at keeps ⊢
                rcases keeps with kept | kept
                · cases stored.symm.trans kept
                · cases (Dict.get?_set_self _ _ _).symm.trans kept
                  exact ⟨request, isAsked, text, isNode, rfl, isFound⟩
              · apply honest key other
                rcases keeps with kept | kept
                · exact .inl kept
                · exact .inr ((Dict.get?_set_of_ne _ _ same).symm.trans kept)

/-- The caches after requests, some of them perhaps in vain. -/
def askAll (around : Surroundings Expr) (bbhash : Text → Hash)
    (parse : Text → Except PyError (List (Call Expr)))
    (caches : PythonCaches Hash) : List (Request Hash) → PythonCaches Hash
  | [] => caches
  | request :: requests =>
      match parsePython around bbhash parse caches request with
      | .error _ => askAll around bbhash parse caches requests
      | .ok (_, caches) => askAll around bbhash parse caches requests

theorem honest_askAll {requests : List (Request Hash)}
    (honest : caches.Honest around bbhash parse asked)
    (areAsked : requests ⊆ asked) :
    (askAll around bbhash parse caches requests).Honest around bbhash parse
      asked := by
  induction requests generalizing caches with
  | nil => exact honest
  | cons request requests induction =>
      obtain ⟨isAsked, areAsked⟩ := List.cons_subset.mp areAsked
      rw [askAll]
      cases returned : parsePython around bbhash parse caches request with
      | error error => exact induction honest areAsked
      | ok result =>
          exact induction (parsePython_honest honest isAsked returned) areAsked

theorem PythonCaches.Honest.askAll
    (honest : caches.Honest around bbhash parse asked)
    (earlier : List (Request Hash)) :
    (askAll around bbhash parse caches earlier).Honest around bbhash parse
      (asked ++ earlier) :=
  honest_askAll (honest.mono (List.subset_append_left _ _))
    (List.subset_append_right _ _)

omit [DecidableEq Hash] in
theorem exists_text (notBlank : request.blank = false) :
    ∃ text, request.node.filter (· ≠ []) = some text := by
  match isNode : request.node with
  | none | some [] => simp [Request.blank, isNode] at notBlank
  | some (char :: chars) => exact ⟨_, rfl⟩

/-- With honest caches a request returns what is found for its text, now or
before. -/
theorem parsePython_of_honest
    (honest : caches.Honest around bbhash parse asked)
    (isText : request.node.filter (· ≠ []) = some text)
    (notBlank : request.blank = false)
    (alone : request.Alone bbhash text asked) :
    (parsePython around bbhash parse caches request).map Prod.fst =
      freshLine around bbhash parse request text := by
  have stored (line : PythonCacheLine Hash)
      (keeps : caches.Keeps (request.key bbhash) line) :
      .ok line = freshLine around bbhash parse request text := by
    obtain ⟨known, isKnown, other, isOther, sameKey, isLine⟩ := honest _ _ keeps
    obtain ⟨rfl, sameFixed⟩ := alone known isKnown other isOther sameKey
    rw [freshLine, sameFixed] at isLine
    exact isLine.symm
  rw [parsePython, if_neg (by simp [notBlank]), isText]
  split
  · exact stored _ (.inl ‹_›)
  · split
    · exact stored _ (.inr ‹_›)
    · dsimp only
      cases freshLine around bbhash parse request text <;> rfl

/-- What a body should give with caches: nothing is raised, the result is the
one that is computed anew, and it is the union of those of the single calls. -/
def Lawful (around : Surroundings Expr) (bbhash : Text → Hash)
    (parse : Text → Except PyError (List (Call Expr)))
    (caches : PythonCaches Hash) (request : Request Hash) (text : Text)
    (calls : List (Call Expr)) : Prop :=
  ∃ line after, parsePython around bbhash parse caches request =
      .ok (line, after) ∧
    freshLine around bbhash parse request text = .ok line ∧
    Composed around (request.fixed.map Prod.snd)
      (request.fixed.map fun _ => bbhash text) calls

/-- A body is parsed as its calls are exactly if each is fine and none
overwrites for good, whatever the caches have from the requests they are of and
from later ones. -/
theorem lawful_iff (around : Surroundings Expr) (bbhash : Text → Hash)
    (parse : Text → Except PyError (List (Call Expr)))
    (caches : PythonCaches Hash) (asked earlier : List (Request Hash))
    (request : Request Hash) (text : Text) (calls : List (Call Expr))
    (honest : caches.Honest around bbhash parse asked)
    (isText : request.node = some text) (notBlank : request.blank = false)
    (parsed : parse text = .ok calls)
    (alone : request.Alone bbhash text (asked ++ earlier)) :
    Lawful around bbhash parse (askAll around bbhash parse caches earlier)
        request text calls ↔
      (∀ call ∈ calls, CallFine around call) ∧ Harmless around calls := by
  obtain ⟨text', isNode⟩ := exists_text notBlank
  cases isText.symm.trans (Option.filter_eq_some_iff.mp isNode).1
  rw [← @composed_iff _ around calls (request.fixed.map Prod.snd) Hash
    (request.fixed.map fun _ => bbhash text)]
  constructor
  · rintro ⟨line, after, -, -, composed⟩
    exact composed
  · intro composed
    obtain ⟨line, base, single, isLine, rest⟩ := composed
    have isFresh : freshLine around bbhash parse request text = .ok line := by
      rw [freshLine, parsed]
      exact isLine
    obtain ⟨⟨found, after⟩, returned, rfl⟩ := map_eq_ok
      ((parsePython_of_honest (honest.askAll earlier) isNode notBlank
        alone).trans isFresh)
    exact ⟨found, after, returned, isFresh, found, base, single, isLine, rest⟩

section Sample

theorem nodup_errors (items : List Text) :
    (Dict.keys [("ERROR_QA".toList, items),
      ("WARN_QA".toList, items)]).Nodup := by
  show ["ERROR_QA".toList, "WARN_QA".toList].Nodup
  decide

/-- `handle_error_visitorcode`. -/
def handleErrorVisitorcode (name : Text) (args : List (Arg Unit)) :
    Except PyError (Visited Unit) :=
  match args with
  | [] => .error .indexError
  | .const (.str value) :: _ =>
      .ok ⟨[("ERROR_QA".toList, [value]), ("WARN_QA".toList, [value])], [],
        none, nodup_errors [value]⟩
  | arg :: _ => .ok ⟨[], [name], some arg, List.nodup_nil⟩

def handleError : Text :=
  "oe.qa.handle_error".toList

def sampleAround : Surroundings Unit where
  visitorcode := fun name =>
    if name = handleError then some (handleErrorVisitorcode name) else none
  toSource := fun _ => none
  expandWithRefs := fun _ => .ok ⟨[], [], [], List.nodup_nil⟩

/-- `bb.utils.contains("ERROR_QA", "a", True, False, d)`. -/
def containsCall : Call Unit where
  name := some "bb.utils.contains".toList
  args := [.const (.str "ERROR_QA".toList), .const (.str "a".toList),
    .const (.other "True".toList), .const (.other "False".toList), .expr ()]

/-- `oe.qa.handle_error("b", "", d)`. -/
def errorCall : Call Unit where
  name := some handleError
  args := [.const (.str "b".toList), .const (.str []), .expr ()]

def sampleBody : Text :=
  "contains, error".toList

def sampleRequest : Request Text where
  node := some sampleBody
  fixed := none

/-- The line of the body that an earlier process has found. -/
def sampleLine : PythonCacheLine Text where
  references := []
  execs := []
  contains := [("ERROR_QA".toList, [.str "b".toList, .str "a".toList]),
    ("WARN_QA".toList, [.str "b".toList])]
  extra := none

def sampleCaches : PythonCaches Text :=
  ⟨[(sampleBody, sampleLine)], []⟩

def sampleParse (_ : Text) : Except PyError (List (Call Unit)) :=
  .ok [errorCall, containsCall]

theorem honest_sample :
    sampleCaches.Honest sampleAround id sampleParse [sampleRequest] := by
  rintro key line (kept | kept)
  · obtain ⟨rfl, rfl⟩ : key = sampleBody ∧ line = sampleLine := by
      simpa [sampleCaches, Dict.get?, eq_comm] using kept
    exact ⟨sampleRequest, List.mem_cons_self, sampleBody, rfl, rfl, rfl⟩
  · cases kept

theorem alone_sample {text : Text} (isText : sampleRequest.node = some text) :
    sampleRequest.Alone id text ([sampleRequest] ++ [sampleRequest]) := by
  intro other member text' isOther _
  obtain rfl : other = sampleRequest := by simpa using member
  exact ⟨Option.some.inj (isOther.symm.trans isText), rfl⟩

/-- The request is answered from `pythoncache`, and again. -/
theorem lawful_sample :
    Lawful sampleAround id sampleParse
        (askAll sampleAround id sampleParse sampleCaches [sampleRequest])
        sampleRequest sampleBody [errorCall, containsCall] ↔
      (∀ call ∈ [errorCall, containsCall], CallFine sampleAround call) ∧
        Harmless sampleAround [errorCall, containsCall] :=
  lawful_iff sampleAround id sampleParse sampleCaches [sampleRequest]
    [sampleRequest] sampleRequest sampleBody _ honest_sample rfl rfl rfl
    (alone_sample rfl)

theorem visitCall_containsCall : visitCall sampleAround .empty containsCall =
    .ok ⟨[], [], [], [("ERROR_QA".toList, [.str "a".toList])]⟩ :=
  rfl

theorem visitCall_errorCall : visitCall sampleAround .empty errorCall =
    .ok ⟨[], [], [], [("ERROR_QA".toList, [.str "b".toList]),
      ("WARN_QA".toList, [.str "b".toList])]⟩ :=
  rfl

/-- A value that was collected is dropped by the visitor code of a later call.
-/
theorem not_lawful_dropped :
    ¬ ∀ (around : Surroundings Unit) (bbhash : Text → Text)
      (parse : Text → Except PyError (List (Call Unit)))
      (caches : PythonCaches Text) (asked earlier : List (Request Text))
      (request : Request Text) (text : Text) (calls : List (Call Unit)),
      caches.Honest around bbhash parse asked → request.node = some text →
      request.blank = false → parse text = .ok calls →
      request.Alone bbhash text (asked ++ earlier) →
      Lawful around bbhash parse (askAll around bbhash parse caches earlier)
        request text calls := by
  intro lawful
  obtain ⟨line, after, -, -, composed⟩ := lawful sampleAround id
    (fun _ => .ok [containsCall, errorCall]) ⟨[], []⟩ [] [] sampleRequest
    sampleBody [containsCall, errorCall] honest_empty rfl rfl rfl
    fun other member => absurd member List.not_mem_nil
  obtain ⟨-, harmless⟩ := composed_iff.mp composed
  have overwrites : Overwrites sampleAround errorCall "ERROR_QA".toList :=
    (overwrites_iff visitCall_errorCall).mpr
      ⟨⟨handleError, handleErrorVisitorcode handleError, rfl, rfl⟩,
        List.mem_cons_self⟩
  have collects : Collects sampleAround containsCall "ERROR_QA".toList
      (.str "a".toList) :=
    ⟨_, visitCall_containsCall, [.str "a".toList], rfl, List.mem_cons_self⟩
  rcases harmless [containsCall] errorCall [] rfl "ERROR_QA".toList overwrites
    containsCall
    List.mem_cons_self (.str "a".toList) collects with again | ⟨later, member,
      -⟩
  · obtain ⟨items, isSome, inside⟩ :=
      (collects_iff visitCall_errorCall).mp again
    cases isSome
    cases List.mem_singleton.mp inside
  · exact List.not_mem_nil member

end Sample

end Nvbmc.CodeParser
