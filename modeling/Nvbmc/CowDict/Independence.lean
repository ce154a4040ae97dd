import Nvbmc.CowDict.Classes

/-!
# Independent copies

The classes behave as independent dictionaries as long as nothing is deleted, no
key changes between immutable and mutable values, and a class is only changed
where no copy still looks its value up.
-/

namespace Nvbmc.CowDict

open Nvbmc.Library

variable {κ ι δ : Type} [DecidableEq κ]

/-- The value of a key, `none` without a value. -/
def State.view (state : State κ ι δ) (cls : ℕ) (key : κ) : Option (Value ι δ) :=
  (state.getitem cls key true).2

/-- An operation after which the classes still agree with their dictionaries. -/
def Careful (state : State κ ι δ) : Op κ ι δ → Prop
  | .set cls key (.immutable value) =>
      value ≠ .emptyTuple ∧
        ∀ other < state.mros.length, cls ∈ state.mro other →
          lookup state.mutables (state.mro other) key = none ∧
          (other = cls ∨ Shadowed state.plain (state.mro other) cls key ∨
            state.view other key = some (.immutable value))
  | .set cls key (.mutable content) =>
      ∀ other < state.mros.length, cls ∈ state.mro other →
        lookup state.plain (state.mro other) key = none ∧
        (other = cls ∨ Shadowed state.mutables (state.mro other) cls key ∨
          state.view other key = some (.mutable content))
  | .delete _ _ => False
  | .change ref edit =>
      ∀ object, state.heap[ref]? = some object →
        state.mutables.get? (object.cls, object.key) = some ref →
        ∀ other < state.mros.length, object.cls ∈ state.mro other →
          other = object.cls ∨
          Shadowed state.mutables (state.mro other) object.cls object.key ∨
          edit object.content = object.content
  | _ => True

def CarefulAlong : State κ ι δ → List (Op κ ι δ) → Prop
  | _, [] => True
  | state, op :: ops =>
      op.Known state →
        Careful state op ∧ CarefulAlong (state.perform op) ops

structure Tree (state : State κ ι δ) : Prop where
  self : ∀ cls < state.mros.length, ∃ rest, state.mro cls = cls :: rest
  below : ∀ cls < state.mros.length, ∀ other ∈ state.mro cls,
    other < state.mros.length
  unique : ∀ cls < state.mros.length, (state.mro cls).Nodup
  suffix : ∀ cls < state.mros.length, ∀ other ∈ state.mro cls,
    state.mro other <:+ state.mro cls
  plain : ∀ name ∈ state.plain.keys, name.1 < state.mros.length
  mutables : ∀ name ∈ state.mutables.keys, name.1 < state.mros.length
  objects : ∀ cls key ref, state.mutables.get? (cls, key) = some ref →
    ∃ content, state.heap[ref]? = some ⟨content, cls, key⟩

/-- No key is deleted or has values of both kinds. -/
def Tidy (state : State κ ι δ) : Prop :=
  ∀ cls < state.mros.length, ∀ key,
    lookup state.plain (state.mro cls) key ≠ some .emptyTuple ∧
    (lookup state.plain (state.mro cls) key = none ∨
      lookup state.mutables (state.mro cls) key = none)

/-- The value of an attribute `key__mutable__`. -/
def State.found (state : State κ ι δ) (cls : ℕ) (key : κ) :
    Option (Value ι δ) :=
  (lookup state.mutables (state.mro cls) key).bind state.content

section Views

variable {state : State κ ι δ} {cls : ℕ} {key : κ}

/-- A class with its ancestors stands at the end of the ancestors of its
descendants. -/
theorem Tree.split (tree : Tree state) {other : ℕ}
    (known : other < state.mros.length) (member : cls ∈ state.mro other) :
    ∃ nearer, state.mro other = nearer ++ state.mro cls ∧ cls ∉ nearer := by
  obtain ⟨nearer, same⟩ := tree.suffix other known cls member
  refine ⟨nearer, same.symm, fun twice => ?_⟩
  obtain ⟨rest, self⟩ := tree.self cls (tree.below other known cls member)
  have unique := tree.unique other known
  rw [← same, self] at unique
  exact (List.disjoint_of_nodup_append unique) twice List.mem_cons_self

theorem getmutable_value (tree : Tree state) (known : cls < state.mros.length)
    (readonly : Bool) :
    (state.getmutable cls key readonly).2 = state.found cls key := by
  obtain ⟨rest, self⟩ := tree.self cls known
  rw [State.getmutable, State.found]
  cases own : state.mutables.get? (cls, key) with
  | some ref => simp [self, lookup_cons, own]
  | none =>
      simp only
      cases inherited : lookup state.mutables (state.mro cls) key with
      | none => rfl
      | some ref =>
          cases object : state.heap[ref]? with
          | none => simp [object, State.content]
          | some object =>
              cases readonly <;> simp_all [State.content]

theorem getitem_value (tree : Tree state) (known : cls < state.mros.length)
    (readonly : Bool) :
    (state.getitem cls key readonly).2 = state.view cls key := by
  rw [State.view, State.getitem, State.getitem]
  cases lookup state.plain (state.mro cls) key with
  | none =>
      simp only [getmutable_value tree known]
  | some value => cases value <;> rfl

theorem view_of_plain {value : Immutable ι}
    (found : lookup state.plain (state.mro cls) key = some value)
    (notEmpty : value ≠ .emptyTuple) :
    state.view cls key = some (.immutable value) := by
  rw [State.view, State.getitem, found]
  cases value with
  | emptyTuple => exact absurd rfl notEmpty
  | other => rfl

theorem view_of_emptyTuple
    (found : lookup state.plain (state.mro cls) key = some .emptyTuple) :
    state.view cls key = none := by
  rw [State.view, State.getitem, found]

variable (tree : Tree state)
include tree

theorem view_of_not_plain (known : cls < state.mros.length)
    (missing : lookup state.plain (state.mro cls) key = none) :
    state.view cls key = state.found cls key := by
  rw [State.view, State.getitem, missing]
  exact getmutable_value tree known true

theorem Tree.view_eq (known : cls < state.mros.length) : state.view cls key =
      match lookup state.plain (state.mro cls) key with
      | some .emptyTuple => none
      | some (.other value) => some (.immutable (.other value))
      | none => state.found cls key := by
  cases plain : lookup state.plain (state.mro cls) key with
  | none => exact view_of_not_plain tree known plain
  | some value =>
      cases value with
      | emptyTuple => exact view_of_emptyTuple plain
      | other value => exact view_of_plain plain (by simp)

theorem Tree.view_congr (known : cls < state.mros.length)
    {after : State κ ι δ} (treeAfter : Tree after) {other : ℕ}
    (knownAfter : other < after.mros.length)
    (plain : lookup after.plain (after.mro other) key =
      lookup state.plain (state.mro cls) key)
    (found : after.found other key = state.found cls key) :
    after.view other key = state.view cls key := by
  rw [tree.view_eq known, treeAfter.view_eq knownAfter, plain, found]

theorem Tree.found_ne_none_iff :
    state.found cls key ≠ none ↔
      lookup state.mutables (state.mro cls) key ≠ none := by
  rw [State.found]
  cases found : lookup state.mutables (state.mro cls) key with
  | none => simp
  | some ref =>
      obtain ⟨layer, -, own⟩ := mem_of_lookup found
      obtain ⟨content, object⟩ := tree.objects layer key ref own
      simp [State.content, object]

theorem mem_dir (tidy : Tidy state) (known : cls < state.mros.length) :
    key ∈ state.dir cls ↔ state.view cls key ≠ none := by
  rw [State.dir, List.mem_append, mem_layerKeys, mem_layerKeys]
  obtain ⟨present, kind⟩ := tidy cls known key
  cases plain : lookup state.plain (state.mro cls) key with
  | none =>
      rw [view_of_not_plain tree known plain, tree.found_ne_none_iff]
      simp
  | some value =>
      have notEmpty : value ≠ .emptyTuple := fun same => present (same ▸ plain)
      simp [view_of_plain plain notEmpty]

omit tree

theorem nodup_dir_iff :
    (state.dir cls).Nodup ↔
      ∀ key, lookup state.plain (state.mro cls) key = none ∨
        lookup state.mutables (state.mro cls) key = none := by
  rw [State.dir, List.nodup_append]
  simp only [nodup_layerKeys, mem_layerKeys, true_and]
  constructor
  · intro disjoint key
    by_contra both
    rw [not_or] at both
    exact disjoint key both.1 key both.2 rfl
  · rintro kind key plain other mutable rfl
    exact (kind key).elim plain mutable

end Views

theorem Tree.lookup_inherited {state : State κ ι δ} (tree : Tree state)
    {α : Type} {table : Dict (ℕ × κ) α} {cls other : ℕ} {key : κ}
    (known : other < state.mros.length) (member : cls ∈ state.mro other)
    (visible : ¬ Shadowed table (state.mro other) cls key) :
    lookup table (state.mro other) key = lookup table (state.mro cls) key := by
  obtain ⟨nearer, split, missing⟩ := tree.split known member
  obtain ⟨rest, self⟩ := tree.self cls (tree.below other known cls member)
  rw [split, self, shadowed_split missing, ← Option.ne_none_iff_exists',
    not_not] at visible
  rw [split, lookup_append, visible, Option.none_or]

section Store

variable {state : State κ ι δ} {cls : ℕ} {key : κ} (tree : Tree state)
include tree

theorem Tree.content_append {other : ℕ} {name : κ} {ref : ℕ}
    (found : lookup state.mutables (state.mro other) name = some ref)
    (objects : List (Object κ δ)) :
    ((state.heap ++ objects)[ref]?).map
        (fun object => (.mutable object.content : Value ι δ)) =
      state.content ref := by
  obtain ⟨layer, -, own⟩ := mem_of_lookup found
  obtain ⟨content, object⟩ := tree.objects layer name ref own
  have short : ref < state.heap.length :=
    (List.getElem?_eq_some_iff.mp object).1
  rw [List.getElem?_append_left short, State.content]

theorem Tree.setitem_immutable (known : cls < state.mros.length)
    (value : Immutable ι) :
    Tree (state.setitem cls key (.immutable value)) := by
  constructor
  · exact tree.self
  · exact tree.below
  · exact tree.unique
  · exact tree.suffix
  · intro name member
    rcases (Dict.mem_keys_set _ _ _ _).mp member with rfl | old
    · exact known
    · exact tree.plain name old
  · exact tree.mutables
  · exact tree.objects

theorem Tree.setitem_mutable (known : cls < state.mros.length) (content : δ) :
    Tree (state.setitem cls key (.mutable content)) := by
  constructor
  · exact tree.self
  · exact tree.below
  · exact tree.unique
  · exact tree.suffix
  · exact tree.plain
  · intro name member
    rcases (Dict.mem_keys_set _ _ _ _).mp member with rfl | old
    · exact known
    · exact tree.mutables name old
  · intro other name ref stored
    simp only [State.setitem, Dict.get?_set] at stored ⊢
    split_ifs at stored with same
    · cases stored
      cases same
      exact ⟨content, List.getElem?_concat_length⟩
    · obtain ⟨old, object⟩ := tree.objects other name ref stored
      have short : ref < state.heap.length :=
        (List.getElem?_eq_some_iff.mp object).1
      exact ⟨old, by rw [List.getElem?_append_left short, object]⟩

theorem Tree.found_setitem (content : δ) {other : ℕ} {name : κ} :
    (name = key ∧ cls ∈ state.mro other ∧
        ¬ Shadowed state.mutables (state.mro other) cls key ∧
        (state.setitem cls key (.mutable content)).found other name =
          some (.mutable content)) ∨
    (¬ (name = key ∧ cls ∈ state.mro other ∧
        ¬ Shadowed state.mutables (state.mro other) cls key) ∧
      (state.setitem cls key (.mutable content)).found other name =
        state.found other name) := by
  simp only [State.found, State.setitem, State.mro]
  rcases lookup_set_cases state.mutables (state.mros.getD other []) cls key name
      state.heap.length with
    ⟨same, member, visible, found⟩ | ⟨hidden, found⟩
  · left
    refine ⟨same, member, visible, ?_⟩
    rw [found]
    simp [State.content]
  · right
    refine ⟨hidden, ?_⟩
    rw [found]
    cases old : lookup state.mutables (state.mros.getD other []) name with
    | none => rfl
    | some ref => exact tree.content_append old _

end Store

/-- Nothing has changed that can be seen. -/
structure Same (before after : State κ ι δ) : Prop where
  tree : Tree after
  mros : after.mros = before.mros
  view : ∀ cls < before.mros.length, ∀ key,
    after.view cls key = before.view cls key
  tidy : Tidy before → Tidy after

theorem Same.refl {state : State κ ι δ} (tree : Tree state) :
    Same state state :=
  ⟨tree, rfl, fun _ _ _ => rfl, id⟩

theorem Same.trans {before middle after : State κ ι δ}
    (first : Same before middle) (second : Same middle after) :
    Same before after := by
  constructor
  · exact second.tree
  · exact second.mros.trans first.mros
  · intro cls known key
    rw [second.view cls (first.mros ▸ known), first.view cls known]
  · exact fun tidy => second.tidy (first.tidy tidy)

section Read

variable {state : State κ ι δ} {cls : ℕ} {key : κ}

theorem Tree.same_setitem (tree : Tree state) (known : cls < state.mros.length)
    {content : δ} (found : state.found cls key = some (.mutable content)) :
    Same state (state.setitem cls key (.mutable content)) := by
  have after := @Tree.setitem_mutable _ _ _ _ _ _ key tree known content
  -- The copy is only visible where the same content was found.
  have visible (other : ℕ) (known : other < state.mros.length) (name : κ) :
      (state.setitem cls key (.mutable content)).found other name =
        state.found other name := by
    rcases @Tree.found_setitem _ _ _ _ _ cls key tree content other name with
      ⟨rfl, member, notShadowed, copied⟩ | ⟨_, unchanged⟩
    · rw [copied, ← found, State.found, State.found,
        tree.lookup_inherited known member notShadowed]
    · exact unchanged
  constructor
  · exact after
  · rfl
  · intro other known name
    exact tree.view_congr known after known rfl (visible other known name)
  · intro tidy other known name
    obtain ⟨present, kind⟩ := tidy other known name
    refine ⟨present, ?_⟩
    rcases kind with plain | mutable
    · exact .inl plain
    · right
      by_contra stored
      have foundAfter := after.found_ne_none_iff.mpr stored
      rw [visible other known name, tree.found_ne_none_iff] at foundAfter
      exact foundAfter mutable

theorem Tree.same_getitem (tree : Tree state) (known : cls < state.mros.length)
    (readonly : Bool) : Same state (state.getitem cls key readonly).1 := by
  rw [State.getitem]
  split
  · exact .refl tree
  · exact .refl tree
  · rw [State.getmutable]
    split
    · exact .refl tree
    · split
      · exact .refl tree
      · next object inherited =>
          cases readonly with
          | true => exact .refl tree
          | false =>
              apply tree.same_setitem known
              obtain ⟨ref, found, isObject⟩ :=
                Option.bind_eq_some_iff.mp inherited
              simp [State.found, State.content, found, isObject]

theorem Tree.iterFrom (tree : Tree state) (known : cls < state.mros.length)
    (readonly : Bool) (keys : List κ) :
    Same state (State.iterFrom cls readonly state keys).1 ∧
      (State.iterFrom cls readonly state keys).2 = keys.filterMap fun key =>
        (state.view cls key).map fun value => (key, value) := by
  induction keys generalizing state with
  | nil => exact ⟨.refl tree, rfl⟩
  | cons first keys next =>
      have same := @Tree.same_getitem _ _ _ _ _ _ first tree known readonly
      obtain ⟨later, yields⟩ := next same.tree (same.mros ▸ known)
      have value := @getitem_value _ _ _ _ _ _ first tree known readonly
      have views : (keys.filterMap fun key =>
          ((state.getitem cls first readonly).1.view cls key).map
            fun value => (key, value)) =
          keys.filterMap fun key =>
            (state.view cls key).map fun value => (key, value) := by
        congr 1
        funext key
        rw [same.view cls known]
      rw [views] at yields
      rw [State.iterFrom, value, List.filterMap_cons]
      cases state.view cls first with
      | none => exact ⟨same.trans later, yields⟩
      | some found =>
          refine ⟨same.trans later, ?_⟩
          simp only [Option.map_some, yields]

end Read

section Agreement

variable {state : State κ ι δ} {dicts : Dicts κ ι δ} {cls : ℕ} {key : κ}

private theorem fst_filterMap_sublist {α β : Type} (value : α → Option β)
    (keys : List α) :
    ((keys.filterMap fun key =>
        (value key).map fun found => (key, found)).map Prod.fst).Sublist
          keys := by
  induction keys with
  | nil => exact .slnil
  | cons first keys next =>
      rw [List.filterMap_cons]
      cases value first with
      | none => exact next.cons first
      | some found => exact next.cons_cons first

/-- Classes agree with their dictionaries if they have the same values and no
key is deleted or has values of both kinds. -/
theorem Tree.agrees_iff (tree : Tree state) :
    Agrees state dicts ↔
      (∀ cls < state.mros.length, ∀ key,
        state.view cls key = dicts cls key) ∧ Tidy state := by
  constructor
  · intro agrees
    refine ⟨fun cls known key => agrees.get cls known key true, ?_⟩
    intro cls known key
    obtain ⟨unique, present⟩ := agrees.keys cls known
    refine ⟨fun deleted => ?_, nodup_dir_iff.mp unique key⟩
    have member : key ∈ state.dir cls := by
      rw [State.dir, List.mem_append, mem_layerKeys, deleted]
      exact .inl (by simp)
    apply (present key).mp member
    rw [← agrees.get cls known key true]
    exact view_of_emptyTuple deleted
  · rintro ⟨views, tidy⟩
    have unique (cls : ℕ) (known : cls < state.mros.length) :
        (state.dir cls).Nodup :=
      nodup_dir_iff.mpr fun key => (tidy cls known key).2
    constructor
    · intro cls known key readonly
      rw [getitem_value tree known, views cls known]
    · intro cls known key
      rw [← views cls known, State.hasKey, ← State.view,
        Option.isSome_iff_ne_none]
    · intro cls known
      refine ⟨unique cls known, fun key => ?_⟩
      rw [← views cls known]
      exact mem_dir tree tidy known
    · intro cls known readonly
      have yields := (tree.iterFrom known readonly (state.dir cls)).2
      rw [State.iteritems, yields]
      refine ⟨(unique cls known).sublist (fst_filterMap_sublist _ _),
        fun key value => ?_⟩
      rw [← views cls known, List.mem_filterMap]
      constructor
      · rintro ⟨name, _, found⟩
        obtain ⟨other, isOther, same⟩ := Option.map_eq_some_iff.mp found
        cases same
        exact isOther
      · intro found
        refine ⟨key, (mem_dir tree tidy known).mpr (by simp [found]), ?_⟩
        rw [found]
        rfl

theorem Agrees.same {after : State κ ι δ} (agrees : Agrees state dicts)
    (tree : Tree state) (same : Same state after) : Agrees after dicts := by
  obtain ⟨views, tidy⟩ := tree.agrees_iff.mp agrees
  apply same.tree.agrees_iff.mpr
  refine ⟨fun cls known key => ?_, same.tidy tidy⟩
  rw [same.mros] at known
  rw [same.view cls known, views cls known]

end Agreement

section Operations

variable {state : State κ ι δ} {dicts : Dicts κ ι δ} {cls : ℕ} {key : κ}

omit [DecidableEq κ] in
theorem State.mro_cow (cls other : ℕ) : (state.cow cls).mro other =
      if other = state.mros.length then state.mros.length :: state.mro cls
      else state.mro other := by
  simp only [State.mro, State.cow, List.getD_eq_getElem?_getD]
  rcases Nat.lt_trichotomy other state.mros.length with less | rfl | more
  · rw [if_neg (Nat.ne_of_lt less), List.getElem?_append_left less]
  · simp
  · rw [if_neg (Nat.ne_of_gt more), List.getElem?_eq_none (by simp; omega),
      List.getElem?_eq_none (by omega)]

theorem Tree.cow (tree : Tree state) (known : cls < state.mros.length) :
    Tree (state.cow cls) := by
  have size : (state.cow cls).mros.length = state.mros.length + 1 := by
    simp [State.cow]
  constructor
  · intro other isKnown
    rw [State.mro_cow]
    split_ifs with new
    · exact ⟨_, by rw [new]⟩
    · exact tree.self other (by omega)
  · intro other isKnown ancestor member
    rw [State.mro_cow] at member
    rw [size]
    split_ifs at member with new
    · rcases List.mem_cons.mp member with rfl | member
      · omega
      · have below := tree.below cls known ancestor member
        omega
    · have below := tree.below other (by omega) ancestor member
      omega
  · intro other isKnown
    rw [State.mro_cow]
    split_ifs with new
    · apply List.nodup_cons.mpr
      refine ⟨fun member => ?_, tree.unique cls known⟩
      exact Nat.lt_irrefl _ (tree.below cls known _ member)
    · exact tree.unique other (by omega)
  · intro other isKnown ancestor member
    have old (ancestor : ℕ) (before : ancestor < state.mros.length) :
        (state.cow cls).mro ancestor = state.mro ancestor := by
      rw [State.mro_cow, if_neg (by omega)]
    by_cases new : other = state.mros.length
    · subst new
      rw [State.mro_cow, if_pos rfl] at member
      rcases List.mem_cons.mp member with rfl | member
      · exact List.suffix_refl _
      · rw [old ancestor (tree.below cls known ancestor member),
          State.mro_cow, if_pos rfl]
        exact (tree.suffix cls known ancestor member).trans
          (List.suffix_cons _ _)
    · have before : other < state.mros.length := by omega
      rw [old other before] at member ⊢
      rw [old ancestor (tree.below other before ancestor member)]
      exact tree.suffix other before ancestor member
  · intro name member
    have before := tree.plain name member
    omega
  · intro name member
    have before := tree.mutables name member
    omega
  · exact tree.objects

theorem lookup_cow {α : Type} {table : Dict (ℕ × κ) α}
    (known : ∀ name ∈ table.keys, name.1 < state.mros.length) (other : ℕ) :
    lookup table ((state.cow cls).mro other) key =
      lookup table
        (state.mro (if other = state.mros.length then cls else other)) key := by
  rw [State.mro_cow]
  split_ifs with new
  · have missing : table.get? (state.mros.length, key) = none := by
      by_contra present
      exact Nat.lt_irrefl _ (known _ (Dict.get?_ne_none_iff.mp present))
    rw [lookup_cons, missing, Option.none_or]
  · rfl

theorem Tree.agrees_cow (tree : Tree state) (known : cls < state.mros.length)
    (agrees : Agrees state dicts) :
    Agrees (state.cow cls) (dicts.perform state (.copy cls)) := by
  obtain ⟨views, tidy⟩ := tree.agrees_iff.mp agrees
  apply (tree.cow known).agrees_iff.mpr
  have size : (state.cow cls).mros.length = state.mros.length + 1 := by
    simp [State.cow]
  have old (other : ℕ) (isKnown : other < (state.cow cls).mros.length) :
      (if other = state.mros.length then cls else other) <
        state.mros.length := by
    split_ifs
    · exact known
    · omega
  constructor
  · intro other isKnown name
    have plain := @lookup_cow _ _ _ _ state cls name _ _ tree.plain other
    have mutable := @lookup_cow _ _ _ _ state cls name _ _ tree.mutables other
    have view := tree.view_congr (old other isKnown) (tree.cow known) isKnown
      plain (congrArg (·.bind state.content) mutable)
    rw [view, views _ (old other isKnown)]
    simp only [Dicts.perform]
    split_ifs <;> rfl
  · intro other isKnown name
    have plain := @lookup_cow _ _ _ _ state cls name _ _ tree.plain other
    have mutable := @lookup_cow _ _ _ _ state cls name _ _ tree.mutables other
    have kept := tidy _ (old other isKnown) name
    rw [← plain, ← mutable] at kept
    exact kept

theorem Tree.self_visible (tree : Tree state) (known : cls < state.mros.length)
    {α : Type} (table : Dict (ℕ × κ) α) :
    cls ∈ state.mro cls ∧ ¬ Shadowed table (state.mro cls) cls key := by
  obtain ⟨rest, self⟩ := tree.self cls known
  rw [self]
  exact ⟨List.mem_cons_self, shadowed_cons_self⟩

theorem lookup_set_ne_none {α : Type} {table : Dict (ℕ × κ) α}
    {layers : List ℕ} (member : cls ∈ layers) (value : α) :
    lookup (table.set (cls, key) value) layers key ≠ none := by
  intro absent
  have own := lookup_eq_none_iff.mp absent cls member
  simp at own

variable (tree : Tree state)
include tree

theorem Tree.agrees_set_immutable (known : cls < state.mros.length)
    (agrees : Agrees state dicts) (value : Immutable ι) :
    Agrees (state.setitem cls key (.immutable value))
        (dicts.update cls key (some (.immutable value))) ↔
      Careful state (.set cls key (.immutable value)) := by
  obtain ⟨views, tidy⟩ := tree.agrees_iff.mp agrees
  have after := @Tree.setitem_immutable _ _ _ _ _ _ key tree known value
  rw [after.agrees_iff]
  have cases (other : ℕ) (name : κ) :=
    lookup_set_cases state.plain (state.mro other) cls key name value
  constructor
  · rintro ⟨viewsAfter, tidyAfter⟩
    have visible := @Tree.self_visible _ _ _ _ _ _ key tree known _ state.plain
    have notEmpty : value ≠ .emptyTuple := by
      intro empty
      apply (tidyAfter cls known key).1
      rw [← empty]
      exact lookup_set_of_not_shadowed visible.1 visible.2
    refine ⟨notEmpty, fun other isKnown member => ⟨?_, ?_⟩⟩
    · exact (tidyAfter other isKnown key).2.resolve_left
        (lookup_set_ne_none member value)
    · by_cases own : other = cls
      · exact .inl own
      · right
        by_cases shadowed : Shadowed state.plain (state.mro other) cls key
        · exact .inl shadowed
        · right
          have view := viewsAfter other isKnown key
          rw [Dicts.update, if_neg fun both => own both.1,
            ← views other isKnown] at view
          rw [← view]
          exact view_of_plain (lookup_set_of_not_shadowed member shadowed)
            notEmpty
  · rintro ⟨notEmpty, careful⟩
    constructor
    · intro other isKnown name
      rcases cases other name with
        ⟨rfl, member, visible, found⟩ | ⟨hidden, found⟩
      · have view : (state.setitem cls name (.immutable value)).view other
            name = some (.immutable value) := view_of_plain found notEmpty
        rw [view, Dicts.update]
        split_ifs with own
        · rfl
        · have kept := (careful other isKnown member).2.resolve_left
            fun same => own ⟨same, rfl⟩
          rw [← views other isKnown, kept.resolve_left visible]
      · have view : (state.setitem cls key (.immutable value)).view other name =
            state.view other name :=
          tree.view_congr isKnown after isKnown found rfl
        rw [view, views other isKnown, Dicts.update, if_neg]
        rintro ⟨rfl, rfl⟩
        exact hidden ⟨rfl, tree.self_visible known _⟩
    · intro other isKnown name
      rcases cases other name with
        ⟨rfl, member, visible, found⟩ | ⟨hidden, found⟩
      · constructor
        · intro deleted
          exact notEmpty (Option.some.inj (found.symm.trans deleted))
        · exact .inr (careful other isKnown member).1
      · have kept := tidy other isKnown name
        rw [← found] at kept
        exact kept

theorem Tree.agrees_set_mutable (known : cls < state.mros.length)
    (agrees : Agrees state dicts) (content : δ) :
    Agrees (state.setitem cls key (.mutable content))
        (dicts.update cls key (some (.mutable content))) ↔
      Careful state (.set cls key (.mutable content)) := by
  obtain ⟨views, tidy⟩ := tree.agrees_iff.mp agrees
  have after := @Tree.setitem_mutable _ _ _ _ _ _ key tree known content
  rw [after.agrees_iff]
  have cases (other : ℕ) (name : κ) :=
    @Tree.found_setitem _ _ _ _ _ cls key tree content other name
  constructor
  · rintro ⟨viewsAfter, tidyAfter⟩ other isKnown member
    have plain : lookup state.plain (state.mro other) key = none :=
      (tidyAfter other isKnown key).2.resolve_right
        (lookup_set_ne_none member _)
    refine ⟨plain, ?_⟩
    by_cases own : other = cls
    · exact .inl own
    · right
      by_cases shadowed : Shadowed state.mutables (state.mro other) cls key
      · exact .inl shadowed
      · right
        have view := viewsAfter other isKnown key
        rw [Dicts.update, if_neg fun both => own both.1,
          ← views other isKnown] at view
        rw [← view, view_of_not_plain after isKnown plain]
        rcases cases other key with ⟨_, _, _, found⟩ | ⟨hidden, _⟩
        · exact found
        · exact absurd ⟨rfl, member, shadowed⟩ hidden
  · intro careful
    constructor
    · intro other isKnown name
      rcases cases other name with
        ⟨rfl, member, visible, found⟩ | ⟨hidden, found⟩
      · have kept := careful other isKnown member
        have view : (state.setitem cls name (.mutable content)).view other
            name = some (.mutable content) := by
          rw [view_of_not_plain after isKnown kept.1, found]
        rw [view, Dicts.update]
        split_ifs with own
        · rfl
        · have inherited := kept.2.resolve_left fun same => own ⟨same, rfl⟩
          rw [← views other isKnown, inherited.resolve_left visible]
      · have view : (state.setitem cls key (.mutable content)).view other name =
            state.view other name :=
          tree.view_congr isKnown after isKnown rfl found
        rw [view, views other isKnown, Dicts.update, if_neg]
        rintro ⟨rfl, rfl⟩
        exact hidden ⟨rfl, tree.self_visible known _⟩
    · intro other isKnown name
      refine ⟨(tidy other isKnown name).1, ?_⟩
      rcases lookup_set_cases state.mutables (state.mro other) cls key name
          state.heap.length with ⟨rfl, member, _, _⟩ | ⟨_, found⟩
      · exact .inl (careful other isKnown member).1
      · have kept := (tidy other isKnown name).2
        rw [← found] at kept
        exact kept

theorem Tree.not_agrees_delete (known : cls < state.mros.length) :
    ¬ Agrees (state.delitem cls key) dicts := by
  intro agrees
  have after := @Tree.setitem_immutable _ _ _ _ _ _ key tree known .emptyTuple
  have visible := @Tree.self_visible _ _ _ _ _ _ key tree known _ state.plain
  apply ((after.agrees_iff.mp agrees).2 cls known key).1
  exact lookup_set_of_not_shadowed visible.1 visible.2

theorem Tree.owner {object : Object κ δ} {ref other : ℕ}
    {name : κ} (isObject : state.heap[ref]? = some object)
    (found : lookup state.mutables (state.mro other) name = some ref) :
    name = object.key ∧ object.cls ∈ state.mro other ∧
      ¬ Shadowed state.mutables (state.mro other) object.cls name ∧
      state.mutables.get? (object.cls, object.key) = some ref := by
  have owns {layer : ℕ} (own : state.mutables.get? (layer, name) = some ref) :
      object.cls = layer ∧ object.key = name := by
    obtain ⟨content, same⟩ := tree.objects layer name ref own
    cases same.symm.trans isObject
    exact ⟨rfl, rfl⟩
  obtain ⟨layer, member, own⟩ := mem_of_lookup found
  obtain ⟨rfl, rfl⟩ := owns own
  refine ⟨rfl, member, fun shadowed => ?_, own⟩
  obtain ⟨nearer, farther, split, missing⟩ := List.eq_append_cons_of_mem member
  rw [split] at shadowed found
  obtain ⟨first, isFirst⟩ := (shadowed_split missing).mp shadowed
  rw [lookup_append, isFirst] at found
  cases found
  obtain ⟨layer, inside, own⟩ := mem_of_lookup isFirst
  rw [← (owns own).1] at inside
  exact missing inside

theorem Tree.lookup_attached {ref other : ℕ}
    (attached : state.mutables.get? (cls, key) = some ref)
    (known : other < state.mros.length) (member : cls ∈ state.mro other)
    (visible : ¬ Shadowed state.mutables (state.mro other) cls key) :
    lookup state.mutables (state.mro other) key = some ref := by
  obtain ⟨rest, self⟩ := tree.self cls (tree.below other known cls member)
  rw [tree.lookup_inherited known member visible, self, lookup_cons, attached]
  rfl

theorem Tree.change (ref : ℕ) (edit : δ → δ) :
    Tree (state.change ref edit) := by
  constructor
  · exact tree.self
  · exact tree.below
  · exact tree.unique
  · exact tree.suffix
  · exact tree.plain
  · exact tree.mutables
  · intro cls key stored own
    obtain ⟨content, object⟩ := tree.objects cls key stored own
    simp only [State.change, List.getElem?_modify, object]
    split_ifs
    · exact ⟨edit content, rfl⟩
    · exact ⟨content, rfl⟩

omit tree

omit [DecidableEq κ] in
theorem content_change (ref stored : ℕ) (edit : δ → δ) :
    (state.change ref edit).content stored =
      if stored = ref then
        (state.heap[ref]?).map fun object => .mutable (edit object.content)
      else state.content stored := by
  simp only [State.change, State.content, List.getElem?_modify]
  by_cases same : stored = ref
  · subst same
    cases state.heap[stored]? <;> simp
  · have different : ¬ ref = stored := fun other => same other.symm
    cases state.heap[stored]? <;> simp [same, different]

theorem found_change (ref : ℕ) (edit : δ → δ) (other : ℕ) (name : κ) :
    (state.change ref edit).found other name =
      if lookup state.mutables (state.mro other) name = some ref then
        (state.heap[ref]?).map fun object => .mutable (edit object.content)
      else state.found other name := by
  have lookups : lookup (state.change ref edit).mutables
      ((state.change ref edit).mro other) name =
        lookup state.mutables (state.mro other) name := rfl
  rw [State.found, State.found, lookups]
  cases lookup state.mutables (state.mro other) name with
  | none => simp
  | some stored =>
      simp only [Option.bind_some, content_change, Option.some.injEq]

theorem Tree.agrees_change (tree : Tree state) (agrees : Agrees state dicts)
    (ref : ℕ) (edit : δ → δ) :
    Agrees (state.change ref edit) (dicts.perform state (.change ref edit)) ↔
      Careful state (.change ref edit) := by
  obtain ⟨views, tidy⟩ := tree.agrees_iff.mp agrees
  have after := tree.change ref edit
  have found := @found_change _ _ _ _ state ref edit
  have tidyAfter : Tidy (state.change ref edit) := tidy
  have view_of_ne {other : ℕ} (isKnown : other < state.mros.length) {name : κ}
      (different : lookup state.mutables (state.mro other) name ≠ some ref) :
      (state.change ref edit).view other name = state.view other name := by
    apply tree.view_congr isKnown after isKnown rfl
    rw [found, if_neg different]
  rw [after.agrees_iff, and_iff_left tidyAfter]
  simp only [Dicts.perform, Careful]
  cases isObject : state.heap[ref]? with
  | none =>
      apply iff_of_true
      · intro other isKnown name
        rw [view_of_ne isKnown, views other isKnown]
        intro stored
        obtain ⟨layer, -, own⟩ := mem_of_lookup stored
        obtain ⟨content, object⟩ := tree.objects layer name ref own
        simp [isObject] at object
      · simp
  | some object =>
      simp only [Option.some.injEq, forall_eq']
      split_ifs with attached
      · have inherits {other : ℕ} (isKnown : other < state.mros.length)
            (member : object.cls ∈ state.mro other)
            (visible : ¬ Shadowed state.mutables (state.mro other) object.cls
              object.key) :
            state.view other object.key = some (.mutable object.content) ∧
              (state.change ref edit).view other object.key =
                some (.mutable (edit object.content)) := by
          have stored := tree.lookup_attached attached isKnown member visible
          have plain := (tidy other isKnown object.key).2.resolve_right
            (by simp [stored])
          constructor
          · rw [view_of_not_plain tree isKnown plain, State.found, stored]
            simp [State.content, isObject]
          · rw [view_of_not_plain after isKnown plain, found, if_pos stored,
              isObject]
            rfl
        constructor
        · intro viewsAfter _ other isKnown member
          by_cases own : other = object.cls
          · exact .inl own
          · right
            by_cases shadowed : Shadowed state.mutables (state.mro other)
                object.cls object.key
            · exact .inl shadowed
            · right
              obtain ⟨before, now⟩ := inherits isKnown member shadowed
              have view := viewsAfter other isKnown object.key
              rw [now, Dicts.update, if_neg fun both => own both.1,
                ← views other isKnown, before] at view
              exact Value.mutable.inj (Option.some.inj view)
        · intro careful other isKnown name
          by_cases stored : lookup state.mutables (state.mro other) name =
              some ref
          · obtain ⟨rfl, member, visible, _⟩ := tree.owner isObject stored
            rw [(inherits isKnown member visible).2, Dicts.update]
            split_ifs with own
            · rfl
            · have kept := (careful attached other isKnown member).resolve_left
                fun same => own ⟨same, rfl⟩
              rw [kept.resolve_left visible, ← views other isKnown,
                (inherits isKnown member visible).1]
          · rw [view_of_ne isKnown stored, views other isKnown, Dicts.update,
              if_neg]
            rintro ⟨rfl, rfl⟩
            have visible := @Tree.self_visible _ _ _ _ _ _ object.key tree
              isKnown _ state.mutables
            exact stored
              (tree.lookup_attached attached isKnown visible.1 visible.2)
      · apply iff_of_true
        · intro other isKnown name
          rw [view_of_ne isKnown, views other isKnown]
          exact fun stored => attached (tree.owner isObject stored).2.2.2
        · exact fun own => absurd own attached

end Operations

section Runs

variable {state : State κ ι δ} {dicts : Dicts κ ι δ}

theorem Tree.initial : Tree (State.initial : State κ ι δ) := by
  have only (cls : ℕ)
      (known : cls < (State.initial : State κ ι δ).mros.length) : cls = 0 := by
    simpa [State.initial] using known
  have mro : (State.initial : State κ ι δ).mro 0 = [0] := rfl
  constructor
  · intro cls known
    rw [only cls known]
    exact ⟨[], mro⟩
  · intro cls known other member
    rw [only cls known, mro, List.mem_singleton] at member
    rw [member]
    exact Nat.one_pos
  · intro cls known
    rw [only cls known, mro]
    exact List.nodup_singleton 0
  · intro cls known other member
    have zero := only cls known
    subst zero
    rw [mro, List.mem_singleton] at member
    subst member
    exact List.suffix_refl _
  · simp [State.initial, Dict.keys]
  · simp [State.initial, Dict.keys]
  · simp [State.initial]

theorem Agrees.initial :
    Agrees (State.initial : State κ ι δ) fun _ _ => none := by
  apply Tree.initial.agrees_iff.mpr
  have nothing {α : Type} (layers : List ℕ) (key : κ) :
      lookup ([] : Dict (ℕ × κ) α) layers key = none := by
    rw [lookup_eq_none_iff]
    exact fun _ _ => rfl
  constructor
  · intro cls known key
    rw [view_of_not_plain Tree.initial known (nothing _ key), State.found]
    simp [State.initial, nothing]
  · intro cls known key
    simp [State.initial, nothing]

theorem Tree.perform (tree : Tree state) {op : Op κ ι δ}
    (known : op.Known state) : Tree (state.perform op) := by
  cases op with
  | copy cls => exact tree.cow (known cls rfl)
  | set cls key value =>
      cases value with
      | immutable value => exact tree.setitem_immutable (known cls rfl) value
      | mutable content => exact tree.setitem_mutable (known cls rfl) content
  | delete cls key => exact tree.setitem_immutable (known cls rfl) .emptyTuple
  | get cls key readonly =>
      exact (tree.same_getitem (known cls rfl) readonly).tree
  | contains => exact tree
  | iterkeys cls => exact (tree.iterFrom (known cls rfl) false _).1.tree
  | iteritems cls readonly =>
      exact (tree.iterFrom (known cls rfl) readonly _).1.tree
  | change ref edit => exact tree.change ref edit

theorem Tree.agrees_perform (tree : Tree state) (agrees : Agrees state dicts)
    {op : Op κ ι δ} (known : op.Known state) :
    Agrees (state.perform op) (dicts.perform state op) ↔ Careful state op := by
  cases op with
  | copy cls =>
      exact iff_of_true (tree.agrees_cow (known cls rfl) agrees) trivial
  | set cls key value =>
      cases value with
      | immutable value =>
          exact tree.agrees_set_immutable (known cls rfl) agrees value
      | mutable content =>
          exact tree.agrees_set_mutable (known cls rfl) agrees content
  | delete cls key =>
      exact iff_of_false (tree.not_agrees_delete (known cls rfl)) id
  | get cls key readonly =>
      exact iff_of_true
        (agrees.same tree (tree.same_getitem (known cls rfl) readonly)) trivial
  | contains => exact iff_of_true agrees trivial
  | iterkeys cls =>
      exact iff_of_true
        (agrees.same tree (tree.iterFrom (known cls rfl) false _).1) trivial
  | iteritems cls readonly =>
      exact iff_of_true
        (agrees.same tree (tree.iterFrom (known cls rfl) readonly _).1) trivial
  | change ref edit => exact tree.agrees_change agrees ref edit

theorem AgreesAlong.here {ops : List (Op κ ι δ)}
    (along : AgreesAlong state dicts ops) : Agrees state dicts := by
  cases ops with
  | nil => exact along
  | cons => exact along.1

theorem Tree.agreesAlong_iff (tree : Tree state) (agrees : Agrees state dicts)
    (ops : List (Op κ ι δ)) :
    AgreesAlong state dicts ops ↔ CarefulAlong state ops := by
  induction ops generalizing state dicts with
  | nil => exact iff_of_true agrees trivial
  | cons op ops next =>
      simp only [AgreesAlong, CarefulAlong, agrees, true_and]
      apply forall_congr'
      intro known
      have step := tree.agrees_perform agrees known
      constructor
      · intro along
        exact ⟨step.mp along.here,
          (next (tree.perform known) along.here).mp along⟩
      · rintro ⟨careful, along⟩
        exact (next (tree.perform known) (step.mpr careful)).mpr along

end Runs

/-- A set or dictionary is stored over an immutable value. -/
def otherKind : List (Op ℕ ℕ ℕ) :=
  [.copy 0, .set 1 0 (.immutable (.other 1)), .set 1 0 (.mutable 2)]

end Nvbmc.CowDict
