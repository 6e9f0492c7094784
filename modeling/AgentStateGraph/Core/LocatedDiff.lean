import AgentStateGraph.Core.Diff
import AgentStateGraph.Core.MergeSettles
import AgentStateGraph.Tree.Hidden

/-!
# Where the diff stands

Each change of a diff stands at a location of the two trees.  Between trees
that are stored in full, every change is right about its location, and the
changes cover every location that differs, unless two different objects there
compare as no change: two zeros of different sign, or two sets written
differently with the same members.
-/

namespace AgentStateGraph

variable {Id : Type} [Digest Id]

/-! ## Changes with their locations -/

/-- A change and the components of its location; a key or an element that is
on one side only has its own location. -/
structure LocatedOp where
  location : List PathComponent
  op : DiffOp

/-- The shape of the recursive call. -/
abbrev LocatedFn (Id : Type) :=
  List PathComponent → Object Id → Object Id → List LocatedOp

def locatedIds (store : ObjectStore Id) (located : LocatedFn Id)
    (loc : List PathComponent) (old new : Id) : List LocatedOp :=
  if old = new then []
  else
    match store.get old, store.get new with
    | some o, some n => located loc o n
    | _, _ => [⟨loc, .setValue (StatePath.toString ⟨loc⟩) .null .null⟩]

def locatedMaps (store : ObjectStore Id) (located : LocatedFn Id)
    (loc : List PathComponent) (old new : BTreeMap String Id) :
    List LocatedOp :=
  (old.toList.filter (fun e => e.1 ∉ new)).map
      (fun e => ⟨loc ++ [.key e.1],
        .removeKey (StatePath.toString ⟨loc⟩) e.1 (.ofId store e.2)⟩) ++
    (new.toList.filter (fun e => e.1 ∉ old)).map
      (fun e => ⟨loc ++ [.key e.1],
        .addKey (StatePath.toString ⟨loc⟩) e.1 (.ofId store e.2)⟩) ++
    old.toList.flatMap fun e =>
      match new[e.1]? with
      | some n => locatedIds store located (loc ++ [.key e.1]) e.2 n
      | none => []

def locatedLists (store : ObjectStore Id) (located : LocatedFn Id)
    (loc : List PathComponent) (old new : List Id) : List LocatedOp :=
  (List.range (max old.length new.length)).flatMap fun i =>
    match old[i]?, new[i]? with
    | some o, some n => locatedIds store located (loc ++ [.index i]) o n
    | none, some n => [⟨loc ++ [.index i],
        .addElement (StatePath.toString ⟨loc⟩) i (.ofId store n)⟩]
    | some o, none => [⟨loc ++ [.index i],
        .removeElement (StatePath.toString ⟨loc⟩) i (.ofId store o)⟩]
    | none, none => []

/-- The diff of two objects, each change with its location. -/
def locatedObjects (store : ObjectStore Id) : ℕ → LocatedFn Id
  | 0, _, _, _ => []
  | fuel + 1, loc, old, new =>
      if old.partialEq new then []
      else
        match old, new with
        | .atom a, .atom b =>
            [⟨loc, .setValue (StatePath.toString ⟨loc⟩) (.ofAtom a)
              (.ofAtom b)⟩]
        | .node (.map o), .node (.map n) =>
            locatedMaps store (locatedObjects store fuel) loc o n
        | .node (.list o), .node (.list n) =>
            locatedLists store (locatedObjects store fuel) loc o n
        | .node (.set o), .node (.set n) =>
            (diffSets store ⟨loc⟩ o n).map fun op => ⟨loc, op⟩
        | _, _ => [⟨loc, .changeType (StatePath.toString ⟨loc⟩) (typeName old)
            (typeName new)⟩]

def locatedDiff (store : ObjectStore Id) (oldRoot newRoot : Id) :
    List LocatedOp :=
  if oldRoot = newRoot then []
  else
    match store.get oldRoot, store.get newRoot with
    | some old, some new =>
        locatedObjects store (Digest.rank oldRoot + 1) [] old new
    | _, _ => []

/-! ## They are the changes of the diff -/

theorem map_op_locatedIds {store : ObjectStore Id} {located : LocatedFn Id}
    {diff : DiffFn Id}
    (h : ∀ loc o n, (located loc o n).map LocatedOp.op = diff ⟨loc⟩ o n)
    (loc : List PathComponent) (old new : Id) :
    (locatedIds store located loc old new).map LocatedOp.op =
      diffIds store diff ⟨loc⟩ old new := by
  unfold locatedIds diffIds
  by_cases heq : old = new
  · rw [if_pos heq, if_pos heq]
    rfl
  · rw [if_neg heq, if_neg heq]
    cases store.get old with
    | none => rfl
    | some o =>
        cases store.get new with
        | none => rfl
        | some n => exact h loc o n

theorem map_op_locatedObjects (store : ObjectStore Id) (fuel : ℕ)
    (loc : List PathComponent) (old new : Object Id) :
    (locatedObjects store fuel loc old new).map LocatedOp.op =
      diffObjects store fuel ⟨loc⟩ old new := by
  induction fuel generalizing loc old new with
  | zero => rfl
  | succ fuel ih =>
      rw [locatedObjects.eq_def, diffObjects.eq_def]
      dsimp only
      split
      · rfl
      · match old, new with
        | .atom a, .atom b => rfl
        | .node (.map o), .node (.map n) =>
            dsimp only
            rw [locatedMaps, diffMaps, List.map_append, List.map_append,
              List.map_map, List.map_map, List.map_flatMap]
            congr 1
            refine List.flatMap_congr fun e _ => ?_
            cases n[e.1]? with
            | none => rfl
            | some y => exact map_op_locatedIds ih _ _ _
        | .node (.list o), .node (.list n) =>
            dsimp only
            rw [locatedLists, diffLists, List.map_flatMap]
            refine List.flatMap_congr fun i _ => ?_
            cases o[i]? with
            | none => cases n[i]? <;> rfl
            | some x =>
                cases n[i]? with
                | none => rfl
                | some y => exact map_op_locatedIds ih _ _ _
        | .node (.set o), .node (.set n) =>
            dsimp only
            rw [List.map_map]
            exact List.map_id _
        | .atom _, .node _ | .node (.map _), .atom _ | .node (.list _), .atom _
        | .node (.set _), .atom _ | .node (.map _), .node (.list _) | .node (.map _), .node (.set _)
        | .node (.list _), .node (.map _) | .node (.list _), .node (.set _)
        | .node (.set _), .node (.map _) | .node (.set _), .node (.list _) =>
            rfl

theorem map_op_locatedDiff (store : ObjectStore Id) (old new : Id) :
    (locatedDiff store old new).map LocatedOp.op = diff store old new := by
  unfold locatedDiff diff
  by_cases heq : old = new
  · rw [if_pos heq, if_pos heq]
    rfl
  · rw [if_neg heq, if_neg heq]
    cases store.get old with
    | none => rfl
    | some o =>
        cases store.get new with
        | none => rfl
        | some n => exact map_op_locatedObjects store _ _ _ _

/-! ## Pairs of objects -/

/-- Two atoms, or two containers of one kind. -/
def sameKind : Object Id → Object Id → Bool
  | .atom _, .atom _ | .node (.map _), .node (.map _)
  | .node (.list _), .node (.list _) | .node (.set _), .node (.set _) => true
  | _, _ => false

/-- Different objects that the diff does not tell apart: atoms that are equal
as numbers, or sets with the same members. -/
def hiddenChange (o n : Object Id) : Prop :=
  o ≠ n ∧
    match o, n with
    | .atom a, .atom b => a.partialEq b = true
    | .node (.set s), .node (.set t) => ∀ id, id ∈ s ↔ id ∈ t
    | _, _ => False

/-- The object at a location below a root. -/
def objectAt (store : ObjectStore Id) (root : Id) (loc : List PathComponent) :
    Option (Object Id) :=
  (lookupAt store (some root) loc).bind store.get

theorem locatedObjects_of_kinds {store : ObjectStore Id} (fuel : ℕ)
    (loc : List PathComponent) {o n : Object Id} (h : sameKind o n = false) :
    locatedObjects store (fuel + 1) loc o n =
      [⟨loc, .changeType (StatePath.toString ⟨loc⟩) (typeName o)
        (typeName n)⟩] := by
  rw [locatedObjects.eq_def]
  match o, n with
  | .atom _, .atom _ | .node (.map _), .node (.map _)
  | .node (.list _), .node (.list _) | .node (.set _), .node (.set _) =>
      exact absurd h (by simp [sameKind])
  | .atom _, .node _ | .node (.map _), .atom _ | .node (.list _), .atom _
  | .node (.set _), .atom _ => rfl
  | .node (.map _), .node (.list _) | .node (.map _), .node (.set _)
  | .node (.list _), .node (.map _) | .node (.list _), .node (.set _)
  | .node (.set _), .node (.map _) | .node (.set _), .node (.list _) => rfl

/-- A child on the old side only. -/
def goneOp (store : ObjectStore Id) (loc : List PathComponent) :
    PathComponent → Id → DiffOp
  | .key k, x => .removeKey (StatePath.toString ⟨loc⟩) k (.ofId store x)
  | .index i, x => .removeElement (StatePath.toString ⟨loc⟩) i (.ofId store x)

/-- A child on the new side only. -/
def comeOp (store : ObjectStore Id) (loc : List PathComponent) :
    PathComponent → Id → DiffOp
  | .key k, y => .addKey (StatePath.toString ⟨loc⟩) k (.ofId store y)
  | .index i, y => .addElement (StatePath.toString ⟨loc⟩) i (.ofId store y)

/-- Two maps or two lists: objects whose children are compared one by one. -/
def Paired (o n : Object Id) : Prop :=
  (∃ s t, o = .node (.map s) ∧ n = .node (.map t)) ∨
    ∃ s t, o = .node (.list s) ∧ n = .node (.list t)

/-- What is said about the children at one component. -/
def ChildOp (store : ObjectStore Id) (located : LocatedFn Id)
    (loc : List PathComponent) (o n : Object Id) (c : PathComponent)
    (l : LocatedOp) : Prop :=
  (∃ x, childIdAt o c = some x ∧ childIdAt n c = none ∧
    l = ⟨loc ++ [c], goneOp store loc c x⟩) ∨
  (∃ y, childIdAt o c = none ∧ childIdAt n c = some y ∧
    l = ⟨loc ++ [c], comeOp store loc c y⟩) ∨
  ∃ x y, childIdAt o c = some x ∧ childIdAt n c = some y ∧
    l ∈ locatedIds store located (loc ++ [c]) x y

section Members

variable {store : ObjectStore Id} {located : LocatedFn Id}
  {loc : List PathComponent} {l : LocatedOp}

theorem mem_locatedMaps_iff {s t : BTreeMap String Id} :
    l ∈ locatedMaps store located loc s t ↔
      ∃ c, ChildOp store located loc (.node (.map s)) (.node (.map t)) c l := by
  have hget : ∀ (m : BTreeMap String Id) (e : String × Id),
      e ∈ m.toList ↔ m[e.1]? = some e.2 :=
    fun m e => Std.ExtTreeMap.mem_toList_iff_getElem?_eq_some
  have hmiss : ∀ (m : BTreeMap String Id) (k : String),
      k ∉ m ↔ m[k]? = none := fun m k => by simp
  simp only [locatedMaps, List.mem_append, List.mem_map, List.mem_filter,
    List.mem_flatMap, hget, decide_eq_true_eq, hmiss]
  constructor
  · rintro ((⟨e, ⟨he, hnone⟩, rfl⟩ | ⟨e, ⟨he, hnone⟩, rfl⟩) | ⟨e, he, hl⟩)
    · exact ⟨.key e.1, Or.inl ⟨e.2, he, hnone, rfl⟩⟩
    · exact ⟨.key e.1, Or.inr (Or.inl ⟨e.2, hnone, he, rfl⟩)⟩
    · split at hl
      next y hy => exact ⟨.key e.1, Or.inr (Or.inr ⟨e.2, y, he, hy, hl⟩)⟩
      next => simp at hl
  · rintro ⟨c, ⟨x, hx, hnone, rfl⟩ | ⟨y, hnone, hy, rfl⟩ | ⟨x, y, hx, hy, hl⟩⟩
    · match c, hx, hnone with
      | .key k, hx, hnone =>
          exact Or.inl (Or.inl ⟨(k, x), ⟨hx, hnone⟩, rfl⟩)
    · match c, hy, hnone with
      | .key k, hy, hnone =>
          exact Or.inl (Or.inr ⟨(k, y), ⟨hy, hnone⟩, rfl⟩)
    · match c, hx, hy, hl with
      | .key k, hx, hy, hl =>
          refine Or.inr ⟨(k, x), hx, ?_⟩
          have hy' : t[k]? = some y := hy
          simpa only [hy'] using hl

theorem mem_locatedLists_iff {s t : List Id} :
    l ∈ locatedLists store located loc s t ↔
      ∃ c, ChildOp store located loc (.node (.list s)) (.node (.list t)) c
        l := by
  rw [locatedLists, List.mem_flatMap]
  constructor
  · rintro ⟨i, -, hl⟩
    refine ⟨.index i, ?_⟩
    split at hl
    next x y hx hy => exact Or.inr (Or.inr ⟨x, y, hx, hy, hl⟩)
    next y hnone hy =>
      exact Or.inr (Or.inl ⟨y, hnone, hy, List.mem_singleton.mp hl⟩)
    next x hx hnone =>
      exact Or.inl ⟨x, hx, hnone, List.mem_singleton.mp hl⟩
    next => simp at hl
  · have hrange : ∀ (u : List Id) (i : ℕ) (x : Id), u[i]? = some x →
        i < u.length := fun u i x h => (List.getElem?_eq_some_iff.mp h).1
    rintro ⟨c, ⟨x, hx, hnone, rfl⟩ | ⟨y, hnone, hy, rfl⟩ | ⟨x, y, hx, hy, hl⟩⟩
    · match c, hx, hnone with
      | .index i, hx, hnone =>
          have hx' : s[i]? = some x := hx
          have hnone' : t[i]? = none := hnone
          refine ⟨i, List.mem_range.mpr
            (lt_max_of_lt_left (hrange s i x hx')), ?_⟩
          rw [hx', hnone']
          exact List.mem_singleton_self _
    · match c, hy, hnone with
      | .index i, hy, hnone =>
          have hy' : t[i]? = some y := hy
          have hnone' : s[i]? = none := hnone
          refine ⟨i, List.mem_range.mpr
            (lt_max_of_lt_right (hrange t i y hy')), ?_⟩
          rw [hy', hnone']
          exact List.mem_singleton_self _
    · match c, hx, hy, hl with
      | .index i, hx, hy, hl =>
          have hx' : s[i]? = some x := hx
          have hy' : t[i]? = some y := hy
          refine ⟨i, List.mem_range.mpr
            (lt_max_of_lt_left (hrange s i x hx')), ?_⟩
          rw [hx', hy']
          exact hl

theorem locatedIds_self (x : Id) : locatedIds store located loc x x = [] :=
  if_pos rfl

/-- What is said about two maps or two lists is said about their children. -/
theorem mem_locatedObjects_iff {fuel : ℕ} {o n : Object Id}
    (h : Paired o n) :
    l ∈ locatedObjects store (fuel + 1) loc o n ↔
      ∃ c, ChildOp store (locatedObjects store fuel) loc o n c l := by
  by_cases heq : o.partialEq n = true
  · have hsame : o = n := by
      rcases h with ⟨s, t, rfl, rfl⟩ | ⟨s, t, rfl, rfl⟩
      · simpa [Object.partialEq] using heq
      · simpa [Object.partialEq] using heq
    rw [locatedObjects.eq_def]
    dsimp only
    rw [if_pos heq]
    refine iff_of_false List.not_mem_nil ?_
    subst hsame
    rintro ⟨c, ⟨x, hx, hnone, -⟩ | ⟨y, hnone, hy, -⟩ | ⟨x, y, hx, hy, hl⟩⟩
    · rw [hx] at hnone
      contradiction
    · rw [hy] at hnone
      contradiction
    · rw [hx] at hy
      cases hy
      rw [locatedIds_self] at hl
      exact absurd hl List.not_mem_nil
  · rw [locatedObjects.eq_def]
    dsimp only
    rw [if_neg heq]
    rcases h with ⟨s, t, rfl, rfl⟩ | ⟨s, t, rfl, rfl⟩
    · exact mem_locatedMaps_iff
    · exact mem_locatedLists_iff

end Members

/-! ## Every change is right -/

omit [Digest Id] in
theorem sameKind_cases {o n : Object Id} (h : sameKind o n = true) :
    (∃ a b, o = .atom a ∧ n = .atom b) ∨ Paired o n ∨
      ∃ s t, o = .node (.set s) ∧ n = .node (.set t) := by
  match o, n, h with
  | .atom a, .atom b, _ => exact Or.inl ⟨a, b, rfl, rfl⟩
  | .node (.map s), .node (.map t), _ =>
      exact Or.inr (Or.inl (Or.inl ⟨s, t, rfl, rfl⟩))
  | .node (.list s), .node (.list t), _ =>
      exact Or.inr (Or.inl (Or.inr ⟨s, t, rfl, rfl⟩))
  | .node (.set s), .node (.set t), _ =>
      exact Or.inr (Or.inr ⟨s, t, rfl, rfl⟩)

/-- The two trees differ at the location in the way the change says. -/
def LocatedOp.Right (store : ObjectStore Id) (old new : Id) (l : LocatedOp) :
    Prop :=
  match l.op with
  | .setValue path v w =>
      path = StatePath.toString ⟨l.location⟩ ∧
      ∃ a b, objectAt store old l.location = some (.atom a) ∧
        objectAt store new l.location = some (.atom b) ∧ a ≠ b ∧
        v = .ofAtom a ∧ w = .ofAtom b
  | .addKey path key v =>
      ∃ loc, l.location = loc ++ [.key key] ∧
        path = StatePath.toString ⟨loc⟩ ∧
        ∃ s t y, objectAt store old loc = some (.node (.map s)) ∧
          objectAt store new loc = some (.node (.map t)) ∧
          s[key]? = none ∧ t[key]? = some y ∧ v = .ofId store y
  | .removeKey path key v =>
      ∃ loc, l.location = loc ++ [.key key] ∧
        path = StatePath.toString ⟨loc⟩ ∧
        ∃ s t x, objectAt store old loc = some (.node (.map s)) ∧
          objectAt store new loc = some (.node (.map t)) ∧
          s[key]? = some x ∧ t[key]? = none ∧ v = .ofId store x
  | .addElement path i v =>
      ∃ loc, l.location = loc ++ [.index i] ∧
        path = StatePath.toString ⟨loc⟩ ∧
        ∃ s t y, objectAt store old loc = some (.node (.list s)) ∧
          objectAt store new loc = some (.node (.list t)) ∧
          s[i]? = none ∧ t[i]? = some y ∧ v = .ofId store y
  | .removeElement path i v =>
      ∃ loc, l.location = loc ++ [.index i] ∧
        path = StatePath.toString ⟨loc⟩ ∧
        ∃ s t x, objectAt store old loc = some (.node (.list s)) ∧
          objectAt store new loc = some (.node (.list t)) ∧
          s[i]? = some x ∧ t[i]? = none ∧ v = .ofId store x
  | .addToSet path v =>
      path = StatePath.toString ⟨l.location⟩ ∧
      ∃ s t id, objectAt store old l.location = some (.node (.set s)) ∧
        objectAt store new l.location = some (.node (.set t)) ∧
        id ∉ s ∧ id ∈ t ∧ v = .ofId store id
  | .removeFromSet path v =>
      path = StatePath.toString ⟨l.location⟩ ∧
      ∃ s t id, objectAt store old l.location = some (.node (.set s)) ∧
        objectAt store new l.location = some (.node (.set t)) ∧
        id ∈ s ∧ id ∉ t ∧ v = .ofId store id
  | .changeType path a b =>
      path = StatePath.toString ⟨l.location⟩ ∧
      ∃ o n, objectAt store old l.location = some o ∧
        objectAt store new l.location = some n ∧ sameKind o n = false ∧
        a = typeName o ∧ b = typeName n

theorem mem_diffSets_iff {store : ObjectStore Id} {path : StatePath}
    {s t : List Id} {op : DiffOp} :
    op ∈ diffSets store path s t ↔
      (∃ id, id ∈ s ∧ id ∉ t ∧
        op = .removeFromSet path.toString (.ofId store id)) ∨
      ∃ id, id ∉ s ∧ id ∈ t ∧
        op = .addToSet path.toString (.ofId store id) := by
  have hmem : ∀ (l : List Id) (id : Id),
      id ∈ (Std.ExtTreeSet.ofList l compare).toList ↔ id ∈ l := by
    intro l id
    simp [Std.ExtTreeSet.mem_toList, Std.ExtTreeSet.mem_ofList]
  simp only [diffSets, List.mem_append, List.mem_map, List.mem_filter, hmem,
    decide_eq_true_eq]
  constructor
  · rintro (⟨id, ⟨hs, ht⟩, rfl⟩ | ⟨id, ⟨ht, hs⟩, rfl⟩)
    · exact Or.inl ⟨id, hs, ht, rfl⟩
    · exact Or.inr ⟨id, hs, ht, rfl⟩
  · rintro (⟨id, hs, ht, rfl⟩ | ⟨id, hs, ht, rfl⟩)
    · exact Or.inl ⟨id, ⟨hs, ht⟩, rfl⟩
    · exact Or.inr ⟨id, ⟨ht, hs⟩, rfl⟩

theorem mem_locatedObjects_cases {store : ObjectStore Id} {fuel : ℕ}
    {loc : List PathComponent} {o n : Object Id} {l : LocatedOp}
    (hl : l ∈ locatedObjects store (fuel + 1) loc o n) :
    (sameKind o n = false ∧
      l = ⟨loc, .changeType (StatePath.toString ⟨loc⟩) (typeName o)
        (typeName n)⟩) ∨
    (∃ a b, o = .atom a ∧ n = .atom b ∧ ¬a.partialEq b = true ∧
      l = ⟨loc, .setValue (StatePath.toString ⟨loc⟩) (.ofAtom a)
        (.ofAtom b)⟩) ∨
    (Paired o n ∧
      ∃ c, ChildOp store (locatedObjects store fuel) loc o n c l) ∨
    ∃ s t op, o = .node (.set s) ∧ n = .node (.set t) ∧
      op ∈ diffSets store ⟨loc⟩ s t ∧ l = ⟨loc, op⟩ := by
  cases hkind : sameKind o n with
  | false =>
      rw [locatedObjects_of_kinds fuel loc hkind, List.mem_singleton] at hl
      exact Or.inl ⟨rfl, hl⟩
  | true =>
      rcases sameKind_cases hkind with ⟨a, b, rfl, rfl⟩ | hpaired |
        ⟨s, t, rfl, rfl⟩
      · rw [locatedObjects.eq_def] at hl
        dsimp only at hl
        split at hl
        · exact absurd hl List.not_mem_nil
        next hequal =>
          rw [List.mem_singleton] at hl
          exact Or.inr (Or.inl ⟨a, b, rfl, rfl,
            by simpa [Object.partialEq] using hequal, hl⟩)
      · exact Or.inr (Or.inr (Or.inl
          ⟨hpaired, (mem_locatedObjects_iff hpaired).mp hl⟩))
      · rw [locatedObjects.eq_def] at hl
        dsimp only at hl
        split at hl
        · exact absurd hl List.not_mem_nil
        · obtain ⟨op, hop, rfl⟩ := List.mem_map.mp hl
          exact Or.inr (Or.inr (Or.inr ⟨s, t, op, rfl, rfl, hop, rfl⟩))

/-- The walk stands at two ids below the roots, both over whole trees. -/
structure StandsAt (store : ObjectStore Id) (old new : Id)
    (loc : List PathComponent) (x y : Id) (o n : Object Id) : Prop where
  left : lookupAt store (some old) loc = some x
  right : lookupAt store (some new) loc = some y
  getLeft : store.get x = some o
  getRight : store.get y = some n
  wholeLeft : store.Complete x
  wholeRight : store.Complete y

section StandsAt

variable {store : ObjectStore Id} {old new x y : Id}
  {loc : List PathComponent} {o n : Object Id}

theorem StandsAt.objectLeft (h : StandsAt store old new loc x y o n) :
    objectAt store old loc = some o := by
  rw [objectAt, h.left]
  exact h.getLeft

theorem StandsAt.objectRight (h : StandsAt store old new loc x y o n) :
    objectAt store new loc = some n := by
  rw [objectAt, h.right]
  exact h.getRight

theorem StandsAt.lookupLeft (h : StandsAt store old new loc x y o n)
    (c : PathComponent) (rest : List PathComponent) :
    lookupAt store (some old) (loc ++ c :: rest) =
      lookupAt store (childIdAt o c) rest := by
  rw [lookupAt_append, h.left, lookupAt_of_get h.getLeft]

theorem StandsAt.lookupRight (h : StandsAt store old new loc x y o n)
    (c : PathComponent) (rest : List PathComponent) :
    lookupAt store (some new) (loc ++ c :: rest) =
      lookupAt store (childIdAt n c) rest := by
  rw [lookupAt_append, h.right, lookupAt_of_get h.getRight]

variable {c : PathComponent} {x' y' : Id} {l : LocatedOp} {fuel : ℕ}
  {rest : List PathComponent}

/-- One step down on both sides. -/
theorem StandsAt.child (h : StandsAt store old new loc x y o n)
    (hx : childIdAt o c = some x') (hy : childIdAt n c = some y') :
    ∃ o' n', store.get x' = some o' ∧ store.get y' = some n' ∧
      StandsAt store old new (loc ++ [c]) x' y' o' n' := by
  have hwx := h.wholeLeft.child h.getLeft (mem_childIds_of_childIdAt hx)
  have hwy := h.wholeRight.child h.getRight (mem_childIds_of_childIdAt hy)
  obtain ⟨o', ho'⟩ := hwx.exists_get
  obtain ⟨n', hn'⟩ := hwy.exists_get
  refine ⟨o', n', ho', hn', ?_, ?_, ho', hn', hwx, hwy⟩
  · rw [h.lookupLeft, hx]
    rfl
  · rw [h.lookupRight, hy]
    rfl

theorem StandsAt.right_gone (h : StandsAt store old new loc x y o n)
    (hpaired : Paired o n) (hx : childIdAt o c = some x')
    (hnone : childIdAt n c = none) :
    LocatedOp.Right store old new ⟨loc ++ [c], goneOp store loc c x'⟩ := by
  have hl := h.objectLeft
  have hr := h.objectRight
  rcases hpaired with ⟨s, t, rfl, rfl⟩ | ⟨s, t, rfl, rfl⟩
  · match c, hx, hnone with
    | .key k, hx, hnone =>
        exact ⟨loc, rfl, rfl, s, t, x', hl, hr, hx, hnone, rfl⟩
  · match c, hx, hnone with
    | .index i, hx, hnone =>
        exact ⟨loc, rfl, rfl, s, t, x', hl, hr, hx, hnone, rfl⟩

theorem StandsAt.right_come (h : StandsAt store old new loc x y o n)
    (hpaired : Paired o n) (hnone : childIdAt o c = none)
    (hy : childIdAt n c = some y') :
    LocatedOp.Right store old new ⟨loc ++ [c], comeOp store loc c y'⟩ := by
  have hl := h.objectLeft
  have hr := h.objectRight
  rcases hpaired with ⟨s, t, rfl, rfl⟩ | ⟨s, t, rfl, rfl⟩
  · match c, hy, hnone with
    | .key k, hy, hnone =>
        exact ⟨loc, rfl, rfl, s, t, y', hl, hr, hnone, hy, rfl⟩
  · match c, hy, hnone with
    | .index i, hy, hnone =>
        exact ⟨loc, rfl, rfl, s, t, y', hl, hr, hnone, hy, rfl⟩

theorem exists_get_of_locatedIds {located : LocatedFn Id}
    (hx : store.get x = some o) (hy : store.get y = some n)
    (hl : l ∈ locatedIds store located loc x y) :
    x ≠ y ∧ l ∈ located loc o n := by
  unfold locatedIds at hl
  split at hl
  · exact absurd hl List.not_mem_nil
  next hne =>
    rw [hx, hy] at hl
    exact ⟨hne, hl⟩

theorem StandsAt.right_of_mem (h : StandsAt store old new loc x y o n)
    (hne : x ≠ y) (hl : l ∈ locatedObjects store fuel loc o n) :
    l.Right store old new := by
  induction fuel generalizing loc x y o n with
  | zero => exact absurd hl List.not_mem_nil
  | succ fuel ih =>
      have ho := h.objectLeft
      have hn := h.objectRight
      rcases mem_locatedObjects_cases hl with ⟨hkind, rfl⟩ |
        ⟨a, b, rfl, rfl, -, rfl⟩ | ⟨hpaired, c, hop⟩ |
          ⟨s, t, op, rfl, rfl, hop, rfl⟩
      · exact ⟨rfl, o, n, ho, hn, hkind, rfl, rfl⟩
      · refine ⟨rfl, a, b, ho, hn, ?_, rfl, rfl⟩
        rintro rfl
        exact hne ((ObjectStore.id_eq_of_get h.getLeft).symm.trans
          (ObjectStore.id_eq_of_get h.getRight))
      · rcases hop with ⟨x', hx, hnone, rfl⟩ | ⟨y', hnone, hy, rfl⟩ |
          ⟨x', y', hx, hy, hl⟩
        · exact h.right_gone hpaired hx hnone
        · exact h.right_come hpaired hnone hy
        · obtain ⟨o', n', ho', hn', hchild⟩ := h.child hx hy
          obtain ⟨hne', hl⟩ := exists_get_of_locatedIds ho' hn' hl
          exact ih hchild hne' hl
      · rcases mem_diffSets_iff.mp hop with ⟨id, hs, ht, rfl⟩ |
          ⟨id, hs, ht, rfl⟩
        · exact ⟨rfl, s, t, id, ho, hn, hs, ht, rfl⟩
        · exact ⟨rfl, s, t, id, ho, hn, hs, ht, rfl⟩

/-! ## The changes cover what differs -/

/-- One location is the other, above it or below it. -/
def Comparable (p q : List PathComponent) : Prop := p <+: q ∨ q <+: p

theorem not_comparable_of_ne {p : List PathComponent} {d : PathComponent}
    (hp : loc ++ [d] <+: p) (hne : d ≠ c) :
    ¬Comparable p (loc ++ c :: rest) := by
  have hc : loc ++ [c] <+: loc ++ c :: rest :=
    (List.prefix_append_right_inj loc).mpr ⟨rest, rfl⟩
  have hboth : ∀ q, loc ++ [d] <+: q → loc ++ [c] <+: q → False := by
    intro q hd hc
    have hlen : (loc ++ [d]).length = (loc ++ [c]).length := by simp
    have heq := (List.prefix_of_prefix_length_le hd hc hlen.le).eq_of_length
      hlen
    exact hne (by simpa using heq)
  rintro (h | h)
  · exact hboth _ (hp.trans h) hc
  · exact hboth _ hp (hc.trans h)

theorem StandsAt.prefix_of_mem (h : StandsAt store old new loc x y o n)
    (hl : l ∈ locatedObjects store fuel loc o n) : loc <+: l.location := by
  induction fuel generalizing loc x y o n with
  | zero => exact absurd hl List.not_mem_nil
  | succ fuel ih =>
      rcases mem_locatedObjects_cases hl with ⟨-, rfl⟩ | ⟨a, b, -, -, -, rfl⟩ |
        ⟨-, c, hop⟩ | ⟨s, t, op, -, -, -, rfl⟩
      · exact List.prefix_rfl
      · exact List.prefix_rfl
      · rcases hop with ⟨x', -, -, rfl⟩ | ⟨y', -, -, rfl⟩ | ⟨x', y', hx, hy, hl⟩
        · exact List.prefix_append _ _
        · exact List.prefix_append _ _
        · obtain ⟨o', n', ho', hn', hchild⟩ := h.child hx hy
          have hbelow := ih hchild (exists_get_of_locatedIds ho' hn' hl).2
          exact (List.prefix_append _ _).trans hbelow
      · exact List.prefix_rfl

theorem objectAt_cons {root : Id} {r : Object Id} (h : store.get root = some r)
    (c : PathComponent) (rest : List PathComponent) :
    objectAt store root (c :: rest) =
      (childIdAt r c).bind fun x => objectAt store x rest := by
  rw [objectAt, lookupAt_of_get h]
  cases childIdAt r c with
  | none => rw [lookupAt_none]; rfl
  | some x => rfl

omit [Digest Id] in
/-- Objects that have children at one component are compared child by child. -/
theorem paired_of_childIdAt (hx : childIdAt o c = some x')
    (hy : childIdAt n c = some y') : Paired o n := by
  match o, n, c, hx, hy with
  | .node (.map s), .node (.map t), .key _, _, _ =>
      exact Or.inl ⟨s, t, rfl, rfl⟩
  | .node (.list s), .node (.list t), .index _, _, _ =>
      exact Or.inr ⟨s, t, rfl, rfl⟩

theorem locatedObjects_of_hidden (fuel : ℕ) (h : hiddenChange o n) :
    locatedObjects store fuel loc o n = [] := by
  cases fuel with
  | zero => rfl
  | succ fuel =>
      obtain ⟨-, h⟩ := h
      match o, n, h with
      | .atom a, .atom b, h =>
          rw [locatedObjects.eq_def]
          exact if_pos h
      | .node (.set s), .node (.set t), h =>
          have hnone : diffSets store ⟨loc⟩ s t = [] := by
            refine List.eq_nil_iff_forall_not_mem.mpr fun op hop => ?_
            rcases mem_diffSets_iff.mp hop with ⟨id, hs, ht, -⟩ |
              ⟨id, hs, ht, -⟩
            · exact ht ((h id).mp hs)
            · exact hs ((h id).mpr ht)
          rw [locatedObjects.eq_def]
          dsimp only
          rw [hnone]
          split <;> rfl

theorem StandsAt.not_comparable_of_hidden
    (h : StandsAt store old new loc x y o n) {o' n' : Object Id}
    (ho' : objectAt store x rest = some o')
    (hn' : objectAt store y rest = some n') (hhidden : hiddenChange o' n')
    (hl : l ∈ locatedObjects store fuel loc o n) :
    ¬Comparable l.location (loc ++ rest) := by
  induction rest generalizing fuel loc x y o n with
  | nil =>
      have ho : o = o' := Option.some.inj (h.getLeft.symm.trans ho')
      have hn : n = n' := Option.some.inj (h.getRight.symm.trans hn')
      rw [ho, hn, locatedObjects_of_hidden fuel hhidden] at hl
      exact absurd hl List.not_mem_nil
  | cons c rest ih =>
      rw [objectAt_cons h.getLeft] at ho'
      rw [objectAt_cons h.getRight] at hn'
      obtain ⟨x', hx', hleft⟩ := Option.bind_eq_some_iff.mp ho'
      obtain ⟨y', hy', hright⟩ := Option.bind_eq_some_iff.mp hn'
      cases fuel with
      | zero => exact absurd hl List.not_mem_nil
      | succ fuel =>
          obtain ⟨d, hop⟩ := (mem_locatedObjects_iff
            (paired_of_childIdAt hx' hy')).mp hl
          by_cases hdc : d = c
          · subst hdc
            rcases hop with ⟨z, -, hnone, -⟩ | ⟨z, hnone, -, -⟩ |
              ⟨z, w, hz, hw, hl⟩
            · rw [hy'] at hnone
              contradiction
            · rw [hx'] at hnone
              contradiction
            · rw [hx'] at hz
              rw [hy'] at hw
              cases hz
              cases hw
              obtain ⟨p, q, hp, hq, hchild⟩ := h.child hx' hy'
              have hbelow := ih hchild hleft hright
                (exists_get_of_locatedIds hp hq hl).2
              rwa [List.append_assoc] at hbelow
          · refine not_comparable_of_ne ?_ hdc
            rcases hop with ⟨z, -, -, rfl⟩ | ⟨z, -, -, rfl⟩ |
              ⟨z, w, hz, hw, hl⟩
            · exact List.prefix_rfl
            · exact List.prefix_rfl
            · obtain ⟨p, q, hp, hq, hchild⟩ := h.child hz hw
              exact hchild.prefix_of_mem (exists_get_of_locatedIds hp hq hl).2

omit [Digest Id] in
theorem exists_childIdAt_ne (hpaired : Paired o n) (hne : o ≠ n) :
    ∃ c, childIdAt o c ≠ childIdAt n c := by
  by_contra hnone
  have hall : ∀ c, childIdAt o c = childIdAt n c :=
    fun c => not_not.mp fun hc => hnone ⟨c, hc⟩
  rcases hpaired with ⟨s, t, rfl, rfl⟩ | ⟨s, t, rfl, rfl⟩
  · refine hne ?_
    have hsame : s = t :=
      Std.ExtTreeMap.ext_getElem? fun k => hall (.key k)
    rw [hsame]
  · refine hne ?_
    have hsame : s = t := List.ext_getElem? fun i => hall (.index i)
    rw [hsame]

/-- No two different objects at one location below two ids are not told
apart. -/
def NoHidden (store : ObjectStore Id) (x y : Id) : Prop :=
  ∀ rest o n, objectAt store x rest = some o →
    objectAt store y rest = some n → ¬hiddenChange o n

theorem StandsAt.noHidden_child (h : StandsAt store old new loc x y o n)
    (hclear : NoHidden store x y) (hx : childIdAt o c = some x')
    (hy : childIdAt n c = some y') : NoHidden store x' y' := by
  intro rest o' n' ho' hn'
  refine hclear (c :: rest) o' n' ?_ ?_
  · rw [objectAt_cons h.getLeft, hx]
    exact ho'
  · rw [objectAt_cons h.getRight, hy]
    exact hn'

/-- A change at the objects themselves covers everything below. -/
theorem comparable_self (rest : List PathComponent) :
    Comparable loc (loc ++ rest) :=
  Or.inl (List.prefix_append _ _)

theorem StandsAt.covers (h : StandsAt store old new loc x y o n)
    (hfuel : Digest.rank x < fuel) (hclear : NoHidden store x y)
    (hdiff : lookupAt store (some x) rest ≠ lookupAt store (some y) rest) :
    ∃ l ∈ locatedObjects store fuel loc o n,
      Comparable l.location (loc ++ rest) := by
  induction fuel generalizing loc x y o n rest with
  | zero => exact absurd hfuel (Nat.not_lt_zero _)
  | succ fuel ih =>
      have hne : o ≠ n := by
        rintro rfl
        refine hdiff ?_
        rw [← ObjectStore.id_eq_of_get h.getLeft,
          ← ObjectStore.id_eq_of_get h.getRight]
      have hhere : ¬hiddenChange o n := hclear [] o n h.getLeft h.getRight
      -- Children that differ are told apart here or one level down.
      have hchild : Paired o n → ∀ c rest,
          lookupAt store (childIdAt o c) rest ≠
            lookupAt store (childIdAt n c) rest →
          ∃ l ∈ locatedObjects store (fuel + 1) loc o n,
            Comparable l.location (loc ++ c :: rest) := by
        intro hpaired c rest hdiff
        have hcover : Comparable (loc ++ [c]) (loc ++ c :: rest) :=
          Or.inl ((List.prefix_append_right_inj loc).mpr ⟨rest, rfl⟩)
        cases hx : childIdAt o c with
        | none =>
            cases hy : childIdAt n c with
            | none => exact absurd (by rw [hx, hy]) hdiff
            | some y' =>
                exact ⟨_, (mem_locatedObjects_iff hpaired).mpr
                  ⟨c, Or.inr (Or.inl ⟨y', hx, hy, rfl⟩)⟩, hcover⟩
        | some x' =>
            cases hy : childIdAt n c with
            | none =>
                exact ⟨_, (mem_locatedObjects_iff hpaired).mpr
                  ⟨c, Or.inl ⟨x', hx, hy, rfl⟩⟩, hcover⟩
            | some y' =>
                rw [hx, hy] at hdiff
                obtain ⟨o', n', ho', hn', hstands⟩ := h.child hx hy
                have hrank := ObjectStore.rank_lt_of_get h.getLeft
                  (mem_childIds_of_childIdAt hx)
                obtain ⟨l, hl, hcomp⟩ := ih hstands (by omega)
                  (h.noHidden_child hclear hx hy) hdiff
                have hids : l ∈ locatedIds store (locatedObjects store fuel)
                    (loc ++ [c]) x' y' := by
                  rw [locatedIds, if_neg, ho', hn']
                  · exact hl
                  · rintro rfl
                    exact hdiff rfl
                rw [List.append_assoc] at hcomp
                exact ⟨l, (mem_locatedObjects_iff hpaired).mpr
                  ⟨c, Or.inr (Or.inr ⟨x', y', hx, hy, hids⟩)⟩, hcomp⟩
      cases hkind : sameKind o n with
      | false =>
          rw [locatedObjects_of_kinds fuel loc hkind]
          exact ⟨_, List.mem_singleton_self _, comparable_self rest⟩
      | true =>
          rcases sameKind_cases hkind with ⟨a, b, rfl, rfl⟩ | hpaired |
            ⟨s, t, rfl, rfl⟩
          · have hnot : ¬a.partialEq b = true := fun heq => hhere ⟨hne, heq⟩
            rw [locatedObjects.eq_def]
            dsimp only
            rw [if_neg (by simpa [Object.partialEq] using hnot)]
            exact ⟨_, List.mem_singleton_self _, comparable_self rest⟩
          · cases rest with
            | cons c rest =>
                refine hchild hpaired c rest ?_
                rwa [lookupAt_of_get h.getLeft, lookupAt_of_get h.getRight]
                  at hdiff
            | nil =>
                obtain ⟨c, hc⟩ := exists_childIdAt_ne hpaired hne
                obtain ⟨l, hl, -⟩ := hchild hpaired c [] hc
                refine ⟨l, hl, Or.inr ?_⟩
                rw [List.append_nil]
                exact h.prefix_of_mem hl
          · have hmember : ∃ id, ¬(id ∈ s ↔ id ∈ t) := by
              by_contra hnone
              refine hhere ⟨hne, fun id => ?_⟩
              exact not_not.mp fun hid => hnone ⟨id, hid⟩
            obtain ⟨id, hid⟩ := hmember
            have hop : ∃ op, op ∈ diffSets store ⟨loc⟩ s t := by
              by_cases hs : id ∈ s
              · exact ⟨_, mem_diffSets_iff.mpr (Or.inl
                  ⟨id, hs, fun ht => hid (iff_of_true hs ht), rfl⟩)⟩
              · have ht : id ∈ t := by
                  by_contra ht
                  exact hid (iff_of_false hs ht)
                exact ⟨_, mem_diffSets_iff.mpr (Or.inr ⟨id, hs, ht, rfl⟩)⟩
            obtain ⟨op, hop⟩ := hop
            have hnot : ¬(Object.node (Node.set s)).partialEq
                (Object.node (Node.set t)) = true := by
              intro heq
              exact hne (by simpa [Object.partialEq] using heq)
            rw [locatedObjects.eq_def]
            dsimp only
            rw [if_neg hnot]
            exact ⟨⟨loc, op⟩, List.mem_map_of_mem hop, comparable_self rest⟩

end StandsAt

/-! ## Whole trees -/

/-- Between trees that are stored in full, the diff is empty exactly for equal
roots, every change is right, and the changes cover every location that
differs, if and only if no two different objects at one location are two
zeros, or two sets with the same members. -/
theorem diff_exact_iff (store : ObjectStore Id) {old new : Id}
    (hold : store.Complete old) (hnew : store.Complete new) :
    (locatedDiff store old new).map LocatedOp.op = diff store old new ∧
      (((diff store old new = [] ↔ old = new) ∧
        (∀ l ∈ locatedDiff store old new, l.Right store old new) ∧
        ∀ loc, idAt store old loc ≠ idAt store new loc →
          ∃ l ∈ locatedDiff store old new, Comparable l.location loc) ↔
      NoHidden store old new) := by
  refine ⟨map_op_locatedDiff store old new, ?_⟩
  obtain ⟨o, ho⟩ := hold.exists_get
  obtain ⟨n, hn⟩ := hnew.exists_get
  have hstands : StandsAt store old new [] old new o n :=
    ⟨rfl, rfl, ho, hn, hold, hnew⟩
  have hlocated : old ≠ new → locatedDiff store old new =
      locatedObjects store (Digest.rank old + 1) [] o n := by
    intro hne
    rw [locatedDiff, if_neg hne, ho, hn]
  have hself : old = new → locatedDiff store old new = [] :=
    fun heq => if_pos heq
  constructor
  · rintro ⟨-, -, hcover⟩ rest o' n' ho' hn' hhidden
    obtain ⟨x, hx, hgetx⟩ := Option.bind_eq_some_iff.mp ho'
    obtain ⟨y, hy, hgety⟩ := Option.bind_eq_some_iff.mp hn'
    have hids : idAt store old rest ≠ idAt store new rest := by
      rw [idAt_eq_lookupAt, idAt_eq_lookupAt, hx, hy]
      rintro ⟨⟩
      rw [hgetx] at hgety
      exact hhidden.1 (Option.some.inj hgety)
    obtain ⟨l, hl, hcomp⟩ := hcover rest hids
    have hne : old ≠ new := by
      rintro rfl
      exact hids rfl
    rw [hlocated hne] at hl
    exact hstands.not_comparable_of_hidden ho' hn' hhidden hl hcomp
  · intro hclear
    have hcovers : ∀ loc, idAt store old loc ≠ idAt store new loc →
        ∃ l ∈ locatedDiff store old new, Comparable l.location loc := by
      intro loc hids
      have hne : old ≠ new := by
        rintro rfl
        exact hids rfl
      rw [idAt_eq_lookupAt, idAt_eq_lookupAt] at hids
      rw [hlocated hne]
      exact hstands.covers (Nat.lt_succ_self _) hclear hids
    refine ⟨⟨?_, ?_⟩, ?_, hcovers⟩
    · intro hempty
      by_contra hne
      obtain ⟨l, hl, -⟩ := hcovers [] fun heq => hne (Option.some.inj heq)
      have hop := List.mem_map_of_mem (f := LocatedOp.op) hl
      rw [map_op_locatedDiff, hempty] at hop
      exact absurd hop List.not_mem_nil
    · intro heq
      exact if_pos heq
    · intro l hl
      by_cases hne : old = new
      · rw [hself hne] at hl
        exact absurd hl List.not_mem_nil
      · rw [hlocated hne] at hl
        exact hstands.right_of_mem hne hl

namespace TwoZeros

open ContentKey

def positive : Object ContentKey := .atom (.float F64.zero)

def negative : Object ContentKey := .atom (.float F64.negZero)

def store : ObjectStore ContentKey :=
  AddressedMap.empty.putAll [positive, negative, mapOf [("x", positive)],
    mapOf [("x", negative)]]

def before : ContentKey := (mapOf [("x", positive)]).id

def after : ContentKey := (mapOf [("x", negative)]).id

end TwoZeros

open TwoZeros in
set_option maxRecDepth 16384 in
theorem diff_exact_of_two_zeros :
    store.Complete before ∧ store.Complete after ∧
    (locatedDiff store before after).map LocatedOp.op =
        diff store before after ∧
      (((diff store before after = [] ↔ before = after) ∧
        (∀ l ∈ locatedDiff store before after, l.Right store before after) ∧
        ∀ loc, idAt store before loc ≠ idAt store after loc →
          ∃ l ∈ locatedDiff store before after, Comparable l.location loc) ↔
      NoHidden store before after) := by
  have hclosed : store.isClosed = true := by decide
  have hold : store.Complete before :=
    ObjectStore.complete_of_isClosed hclosed (by decide)
  have hnew : store.Complete after :=
    ObjectStore.complete_of_isClosed hclosed (by decide)
  exact ⟨hold, hnew, diff_exact_iff store hold hnew⟩

open TwoZeros in
set_option maxRecDepth 16384 in
/-- A zero that changes its sign changes the root, and is no change. -/
theorem diff_empty_of_two_zeros :
    diff store before after = [] ∧ before ≠ after := by
  refine ⟨by decide, by decide⟩

end AgentStateGraph
