import AgentStateGraph.Lib.Batches
import AgentStateGraph.Tree.Laws
import AgentStateGraph.Tree.Leaves

/-!
# Reads in batches

Walks over a subtree run on a store that has fetched some levels of it in
batches and falls back to the store behind it.  The objects at several paths
are fetched level by level, the paths side by side.  Both answer as single
reads do.
-/

namespace AgentStateGraph

open Batches

variable {Id : Type} [Digest Id]

/-- The most objects one `batch_get_objects` call asks for. -/
def PREFETCH_BATCH : ℕ := 1000

/-! ## A prefetched subtree -/

/-- Objects of a store, read ahead. -/
structure Prefetched (store : ObjectStore Id) where
  objects : BTreeMap Id (Object Id)
  stored : ∀ id o, objects[id]? = some o → store.get id = some o

namespace Prefetched

variable {store : ObjectStore Id}

def empty (store : ObjectStore Id) : Prefetched store where
  objects := ∅
  stored id o h := by simp at h

/-- One answer of a batch: an object is kept, an absent one is not. -/
def keep (prefetched : Prefetched store) (id : Id) : Prefetched store :=
  match hget : store.get id with
  | none => prefetched
  | some o =>
      { objects := prefetched.objects.insert id o
        stored := by
          intro id' o' h
          rw [Std.ExtTreeMap.getElem?_insert] at h
          split at h
          next heq =>
            rw [← compare_eq_iff_eq.mp heq, ← Option.some.inj h]
            exact hget
          next => exact prefetched.stored id' o' h }

/-- One level: the ids not held yet, each once, are fetched in batches, and
the children of what was found are the next level. -/
def loadLevel (prefetched : Prefetched store) (frontier : List Id) :
    Prefetched store × List Id :=
  let ids := distinct [] (frontier.filter fun id => prefetched.objects[id]?.isNone)
  (Marking.chunks PREFETCH_BATCH ids []).foldl
    (fun acc chunk =>
      (chunk.foldl keep acc.1,
        acc.2 ++ chunk.flatMap fun id => ((store.get id).map Object.childIds).getD []))
    (prefetched, [])

/-- `while !frontier.is_empty() && level < levels`. -/
def loadLevels : ℕ → Prefetched store → List Id → Prefetched store
  | 0, prefetched, _ => prefetched
  | _ + 1, prefetched, [] => prefetched
  | levels + 1, prefetched, frontier =>
      let (prefetched, next) := loadLevel prefetched frontier
      loadLevels levels prefetched next

/-- Load the objects in the levels below each of the roots. -/
def loadMany (store : ObjectStore Id) (roots : List (Object Id)) (levels : ℕ) :
    Prefetched store :=
  loadLevels levels (empty store) (roots.flatMap Object.childIds)

def load (store : ObjectStore Id) (root : Object Id) (levels : ℕ) :
    Prefetched store :=
  loadMany store [root] levels

/-- What is not held comes from the store behind. -/
def getObject (prefetched : Prefetched store) (id : Id) : Option (Object Id) :=
  match prefetched.objects[id]? with
  | some o => some o
  | none => store.get id

theorem getObject_eq (prefetched : Prefetched store) (id : Id) :
    prefetched.getObject id = store.get id := by
  unfold getObject
  cases h : prefetched.objects[id]? with
  | none => rfl
  | some o => exact (prefetched.stored id o h).symm

/-- `impl ObjectStore for Prefetched`: the objects read ahead, over the store
behind. -/
def toStore (prefetched : Prefetched store) : ObjectStore Id :=
  prefetched.objects.toList.foldl (fun s e => s.put e.2) store

theorem toStore_eq (prefetched : Prefetched store) :
    prefetched.toStore = store := by
  have hstored : ∀ e ∈ prefetched.objects.toList, store.put e.2 = store := by
    intro e he
    have hget := prefetched.stored e.1 e.2
      (Std.ExtTreeMap.mem_toList_iff_getElem?_eq_some.mp he)
    apply AddressedMap.put_of_get Object.id_injective
    rwa [ObjectStore.id_eq_of_get hget]
  unfold toStore
  generalize prefetched.objects.toList = entries at hstored ⊢
  induction entries with
  | nil => rfl
  | cons e es ih =>
      rw [List.foldl_cons, hstored e (by simp)]
      exact ih fun e he => hstored e (List.mem_cons_of_mem _ he)

theorem get_toStore (prefetched : Prefetched store) (id : Id) :
    prefetched.toStore.get id = prefetched.getObject id := by
  rw [toStore_eq, getObject_eq]

end Prefetched

/-! ## Several paths at once -/

namespace Batched

/-- The child a path wants at a level. -/
def childOf (level : ℕ) (slot : StatePath × Option (Object Id)) : Option Id :=
  match slot.1.components[level]? with
  | none => none
  | some component => slot.2.bind fun obj => childIdAt obj component

/-- The loop `for (i, path) in paths.iter().enumerate()`: the children wanted
with their slots, and the slots whose path leads nowhere emptied. -/
def want (level : ℕ) :
    List (StatePath × ℕ) → List (ℕ × Id) → List (Option (Object Id)) →
      List (ℕ × Id) × List (Option (Object Id))
  | [], wanted, current => (wanted, current)
  | (path, i) :: paths, wanted, current =>
      match path.components[level]? with
      | none => want level paths wanted current
      | some component =>
          match (current[i]?.join).bind fun obj => childIdAt obj component with
          | some id => want level paths (wanted ++ [(i, id)]) current
          | none => want level paths wanted (current.set i none)

/-- `for (i, id) in wanted`: the fetched objects go to their slots. -/
def assign (fetched : BTreeMap Id (Object Id)) (wanted : List (ℕ × Id))
    (current : List (Option (Object Id))) : List (Option (Object Id)) :=
  wanted.foldl (fun current e => current.set e.1 fetched[e.2]?) current

/-- One level of all paths. -/
def descend (store : ObjectStore Id) (paths : List StatePath)
    (current : List (Option (Object Id))) (level : ℕ) :
    Except (TreeError Id) (List (Option (Object Id))) := do
  let (wanted, current) := want level paths.zipIdx [] current
  let ids := distinct [] (wanted.map Prod.snd)
  let fetched ← fetch store.get TreeError.objectNotFound PREFETCH_BATCH ids
  .ok (assign fetched wanted current)

def treeGetMany (store : ObjectStore Id) (root : Id) (paths : List StatePath) :
    Except (TreeError Id) (List (Option (Object Id))) := do
  let rootObj ← store.require root
  let deepest := ((paths.map fun p => p.components.length).max?).getD 0
  (List.range deepest).foldlM (descend store paths)
    (List.replicate paths.length (some rootObj))

/-! ### One level, slot by slot -/

/-- What a level leaves in a slot before the children are fetched. -/
def kept (level : ℕ) (slot : StatePath × Option (Object Id)) :
    Option (Object Id) :=
  if slot.1.components[level]? = none ∨ (childOf level slot).isSome then slot.2
  else none

/-- What a level leaves in a slot. -/
def stepped (fetched : BTreeMap Id (Object Id)) (level : ℕ)
    (slot : StatePath × Option (Object Id)) : Option (Object Id) :=
  match childOf level slot with
  | some id => fetched[id]?
  | none => kept level slot

/-- The children wanted, with their slots. -/
def wantedOf (level : ℕ) (slots : List ((StatePath × Option (Object Id)) × ℕ)) :
    List (ℕ × Id) :=
  slots.filterMap fun e => (childOf level e.1).map fun id => (e.2, id)

omit [Digest Id] in
theorem want_eq (level : ℕ) (slots : List (StatePath × Option (Object Id)))
    (before : List (Option (Object Id))) (wanted : List (ℕ × Id)) :
    want level ((slots.map Prod.fst).zipIdx before.length) wanted
        (before ++ slots.map Prod.snd) =
      (wanted ++ wantedOf level (slots.zipIdx before.length),
        before ++ slots.map (kept level)) := by
  induction slots generalizing before wanted with
  | nil => simp [want, wantedOf]
  | cons slot slots ih =>
      obtain ⟨path, current⟩ := slot
      have hslot : (before ++ current :: slots.map Prod.snd)[before.length]?.join =
          current := by
        simp
      have hnext : ∀ kept' wanted',
          want level ((slots.map Prod.fst).zipIdx (before.length + 1)) wanted'
              (before ++ kept' :: slots.map Prod.snd) =
            (wanted' ++ wantedOf level (slots.zipIdx (before.length + 1)),
              before ++ kept' :: slots.map (kept level)) := by
        intro kept' wanted'
        have hih := ih (before ++ [kept']) wanted'
        simpa using hih
      simp only [List.map_cons, List.zipIdx_cons, want, hslot]
      cases hcomponent : path.components[level]? with
      | none =>
          simp only
          rw [hnext]
          simp [wantedOf, childOf, kept, hcomponent]
      | some component =>
          simp only
          cases hchild : current.bind fun obj => childIdAt obj component with
          | none =>
              have hset : (before ++ current :: slots.map Prod.snd).set
                  before.length none = before ++ none :: slots.map Prod.snd := by
                simp
              simp only [hset]
              rw [hnext]
              simp [wantedOf, childOf, kept, hcomponent, hchild]
          | some id =>
              simp only
              rw [hnext]
              simp [wantedOf, childOf, kept, hcomponent, hchild]

theorem assign_eq (fetched : BTreeMap Id (Object Id)) (level : ℕ)
    (slots : List (StatePath × Option (Object Id)))
    (before : List (Option (Object Id))) :
    assign fetched (wantedOf level (slots.zipIdx before.length))
        (before ++ slots.map (kept level)) =
      before ++ slots.map (stepped fetched level) := by
  induction slots generalizing before with
  | nil => simp [assign, wantedOf]
  | cons slot slots ih =>
      have hih := ih (before ++ [stepped fetched level slot])
      simp only [List.length_append, List.length_singleton, List.append_assoc,
        List.singleton_append] at hih
      rw [List.zipIdx_cons, List.map_cons, List.map_cons, ← hih]
      cases hchild : childOf level slot with
      | none =>
          simp [assign, wantedOf, hchild, stepped]
      | some id =>
          simp [assign, wantedOf, hchild, stepped]

omit [Digest Id] in
theorem map_snd_wantedOf (level : ℕ)
    (slots : List (StatePath × Option (Object Id))) (n : ℕ) :
    (wantedOf level (slots.zipIdx n)).map Prod.snd =
      slots.filterMap (childOf level) := by
  induction slots generalizing n with
  | nil => rfl
  | cons slot slots ih =>
      have hih := ih (n + 1)
      unfold wantedOf at hih ⊢
      cases hchild : childOf level slot <;> simp [hchild, hih]

/-- What a level finds for a slot, when every child that is wanted is
stored. -/
def found (store : ObjectStore Id) (level : ℕ)
    (slot : StatePath × Option (Object Id)) : Option (Object Id) :=
  match childOf level slot with
  | some id => store.get id
  | none => kept level slot

variable {store : ObjectStore Id} {level : ℕ}
  {slots : List (StatePath × Option (Object Id))}

theorem descend_ok
    (h : ∀ id ∈ slots.filterMap (childOf level), (store.get id).isSome = true) :
    descend store (slots.map Prod.fst) (slots.map Prod.snd) level =
      .ok (slots.map (found store level)) := by
  have hwant := want_eq level slots [] []
  simp only [List.length_nil, List.nil_append] at hwant
  have hids : ∀ id ∈ distinct [] (slots.filterMap (childOf level)),
      (store.get id).isSome = true := fun id hid => h id (mem_distinct.mp hid).1
  obtain ⟨fetched, hfetch, hfound⟩ := @exists_fetch Id (Object Id)
    (TreeError Id) _ store.get TreeError.objectNotFound PREFETCH_BATCH _ hids
  have hassign := assign_eq fetched level slots []
  simp only [List.length_nil, List.nil_append] at hassign
  rw [descend, hwant]
  simp only [map_snd_wantedOf, hfetch, Except.ok_bind, hassign]
  congr 1
  apply List.map_congr_left
  intro slot hslot
  unfold stepped found
  cases hchild : childOf level slot with
  | none => rfl
  | some id =>
      have hmem : id ∈ slots.filterMap (childOf level) :=
        List.mem_filterMap.mpr ⟨slot, hslot, hchild⟩
      exact hfound id (mem_distinct.mpr ⟨hmem, by simp⟩)

theorem descend_error {id : Id} (h : (slots.filterMap (childOf level)).find?
      (fun id => (store.get id).isNone) = some id) :
    descend store (slots.map Prod.fst) (slots.map Prod.snd) level =
      .error (.objectNotFound id) := by
  have hwant := want_eq level slots [] []
  simp only [List.length_nil, List.nil_append] at hwant
  rw [descend, hwant]
  simp only [map_snd_wantedOf]
  rw [fetch_eq_error, Except.error_bind]
  rw [find?_distinct _ (by simp), h]

/-! ### The same as path by path -/

theorem toOption_navigate (store : ObjectStore Id) (path : StatePath)
    (o : Object Id) (c : PathComponent) :
    (navigate store path o c).toOption = (childIdAt o c).bind store.get := by
  cases hstep : navigate store path o c with
  | ok child =>
      obtain ⟨id, hid, hget⟩ := navigate_eq_ok_iff.mp hstep
      rw [hid, Option.bind_some, hget]
      rfl
  | error e =>
      symm
      rw [Except.toOption, Option.bind_eq_none_iff]
      intro id hid
      by_contra hget
      obtain ⟨child, hchild⟩ := Option.ne_none_iff_exists'.mp hget
      have hok : navigate store path o c = .ok child :=
        navigate_eq_ok_iff.mpr ⟨id, hid, hchild⟩
      rw [hstep] at hok
      cases hok

/-- What `treeGet` finds below an object, an error as nothing. -/
theorem toOption_foldlM_navigate (store : ObjectStore Id) (path : StatePath)
    (comps : List PathComponent) (o : Object Id) :
    (comps.foldlM (navigate store path) o).toOption =
      followPath store comps (some o) := by
  have hnone : ∀ comps, followPath store comps none = none := by
    intro comps
    induction comps with
    | nil => rfl
    | cons c rest ih => exact ih
  induction comps generalizing o with
  | nil => rfl
  | cons c rest ih =>
      rw [List.foldlM_cons, followPath, Option.bind_some,
        ← toOption_navigate store path o c]
      cases navigate store path o c with
      | ok child => exact ih child
      | error e => exact (hnone rest).symm

/-- A slot as the components its path has left and where it is. -/
def pending (level : ℕ) (slot : StatePath × Option (Object Id)) :
    List PathComponent × Option (Object Id) :=
  (slot.1.components.drop level, slot.2)

theorem drop_components {path : StatePath} {component : PathComponent}
    (h : path.components[level]? = some component) :
    path.components.drop level =
      component :: path.components.drop (level + 1) := by
  obtain ⟨hlt, heq⟩ := List.getElem?_eq_some_iff.mp h
  rw [List.drop_eq_getElem_cons hlt, heq]

theorem descend_pending_none {slot : StatePath × Option (Object Id)}
    (h : childOf level slot = none) :
    AgentStateGraph.descend store (pending level slot) =
      .ok (pending (level + 1) (slot.1, kept level slot)) := by
  obtain ⟨path, current⟩ := slot
  cases hcomponent : path.components[level]? with
  | none =>
      have hlen : path.components.length ≤ level :=
        List.getElem?_eq_none_iff.mp hcomponent
      have hdrop : path.components.drop level = [] :=
        List.drop_eq_nil_of_le hlen
      have hdrop' : path.components.drop (level + 1) = [] :=
        List.drop_eq_nil_of_le (by omega)
      simp [pending, kept, hcomponent, hdrop, hdrop', AgentStateGraph.descend]
  | some component =>
      have hchild : (current.bind fun obj => childIdAt obj component) = none := by
        simpa [childOf, hcomponent] using h
      simp [pending, drop_components hcomponent, AgentStateGraph.descend, hchild,
        kept, hcomponent, childOf]

theorem descend_pending_some {slot : StatePath × Option (Object Id)} {id : Id}
    (h : childOf level slot = some id) :
    AgentStateGraph.descend store (pending level slot) =
      (store.require id).bind fun child =>
        .ok (pending (level + 1) (slot.1, some child)) := by
  obtain ⟨path, current⟩ := slot
  cases hcomponent : path.components[level]? with
  | none => simp [childOf, hcomponent] at h
  | some component =>
      have hchild : (current.bind fun obj => childIdAt obj component) = some id := by
        simpa [childOf, hcomponent] using h
      simp only [pending, drop_components hcomponent, AgentStateGraph.descend,
        hchild]
      rfl

theorem mapM_descend_ok
    (h : ∀ id ∈ slots.filterMap (childOf level), (store.get id).isSome = true) :
    (slots.map (pending level)).mapM (AgentStateGraph.descend store) =
      .ok (slots.map fun slot =>
        pending (level + 1) (slot.1, found store level slot)) := by
  rw [List.mapM_map]
  apply Except.mapM_eq_ok
  intro slot hslot
  rw [Function.comp_apply]
  unfold found
  cases hchild : childOf level slot with
  | none => exact descend_pending_none hchild
  | some id =>
      obtain ⟨o, ho⟩ := Option.isSome_iff_exists.mp
        (h id (List.mem_filterMap.mpr ⟨slot, hslot, hchild⟩))
      rw [descend_pending_some hchild, require_eq_ok_iff.mpr ho]
      simp only [ho]
      rfl

theorem mapM_descend_error {id : Id}
    (h : (slots.filterMap (childOf level)).find?
      (fun id => (store.get id).isNone) = some id) :
    (slots.map (pending level)).mapM (AgentStateGraph.descend store) =
      .error (.objectNotFound id) := by
  induction slots with
  | nil => simp at h
  | cons slot slots ih =>
      rw [List.map_cons, List.mapM_cons]
      cases hchild : childOf level slot with
      | none =>
          rw [List.filterMap_cons_none hchild] at h
          rw [descend_pending_none hchild, Except.ok_bind, ih h]
          rfl
      | some x =>
          rw [List.filterMap_cons_some hchild] at h
          rw [descend_pending_some hchild]
          cases hx : store.get x with
          | none =>
              rw [List.find?_cons_of_pos (by simp [hx])] at h
              obtain rfl := Option.some.inj h
              rw [ObjectStore.require, hx]
              rfl
          | some o =>
              rw [List.find?_cons_of_neg (by simp [hx])] at h
              rw [require_eq_ok_iff.mpr hx, ih h]
              rfl

theorem foldlM_descend (store : ObjectStore Id) (n level : ℕ)
    (slots : List (StatePath × Option (Object Id))) :
    (List.range' level n).foldlM (descend store (slots.map Prod.fst))
        (slots.map Prod.snd) =
      descendLevels store n (slots.map (pending level)) := by
  induction n generalizing level slots with
  | zero =>
      simp only [List.range'_zero, List.foldlM_nil, descendLevels, List.map_map]
      rfl
  | succ n ih =>
      rw [List.range'_succ, List.foldlM_cons, descendLevels]
      cases hmissing : (slots.filterMap (childOf level)).find?
          fun id => (store.get id).isNone with
      | some id =>
          rw [descend_error hmissing, mapM_descend_error hmissing]
          rfl
      | none =>
          have hall : ∀ id ∈ slots.filterMap (childOf level),
              (store.get id).isSome = true := by
            intro id hid
            have hnot := List.find?_eq_none.mp hmissing id hid
            simpa [Option.isSome_iff_ne_none] using hnot
          rw [descend_ok hall, mapM_descend_ok hall, Except.ok_bind,
            Except.ok_bind]
          have hih := ih (level + 1)
            (slots.map fun slot => (slot.1, found store level slot))
          simpa [List.map_map, Function.comp_def] using hih

theorem max?_getD (l : List ℕ) : l.max?.getD 0 = l.foldr max 0 := by
  induction l with
  | nil => rfl
  | cons n l ih => cases l <;> simp_all [List.max?_cons]

theorem treeGetMany_eq (store : ObjectStore Id) (root : Id)
    (paths : List StatePath) :
    treeGetMany store root paths =
      AgentStateGraph.treeGetMany store root paths := by
  unfold treeGetMany AgentStateGraph.treeGetMany
  congr 1
  funext rootObj
  have hslots := foldlM_descend store
    ((paths.map fun p => p.components.length).foldr max 0) 0
    (paths.map fun p => (p, some rootObj))
  simp only [List.map_map, Function.comp_def, List.map_id', pending,
    List.drop_zero] at hslots
  simp only [max?_getD, List.range_eq_range', ← hslots, List.map_const']

/-- The batched read of a tree stored in full is `treeGet` path by path, with
nothing for a path that fails. -/
theorem treeGetMany_eq_ok {root : Id} (h : store.Complete root)
    (paths : List StatePath) :
    treeGetMany store root paths =
      .ok (paths.map fun p => (treeGet store root p).toOption) := by
  obtain ⟨rootObj, hroot, -, hbelow⟩ := exists_require h
  have hdeep : ∀ p ∈ paths, p.components.length ≤
      (paths.map fun p => p.components.length).foldr max 0 := by
    intro p hp
    rw [← max?_getD]
    exact List.le_max?_getD_of_mem (List.mem_map_of_mem hp)
  rw [treeGetMany_eq, AgentStateGraph.treeGetMany, hroot, Except.ok_bind,
    descendLevels_eq_ok]
  · rw [List.map_map]
    congr 1
    apply List.map_congr_left
    intro p _
    rw [treeGet, hroot, Except.ok_bind, toOption_foldlM_navigate]
    rfl
  · intro x hx
    obtain ⟨p, hp, rfl⟩ := List.mem_map.mp hx
    refine ⟨hdeep p hp, ?_⟩
    rintro _ ⟨rfl⟩
    exact hbelow

end Batched

/-! ## Walks over a view -/

/-- Every walk over a subtree returns the same on both stores. -/
structure SameWalks (view store : ObjectStore Id) : Prop where
  json : ∀ fuel o, toJson view fuel o = toJson store fuel o
  jsons : ∀ objs, treesToJson view objs = treesToJson store objs
  capped : ∀ levels o, toJsonCapped view levels o = toJsonCapped store levels o
  paths : ∀ levels o current paths,
    collectPaths view levels o current paths =
      collectPaths store levels o current paths
  search : ∀ text query maxResults levels o current results,
    searchRecursive text query maxResults view levels o current results =
      searchRecursive text query maxResults store levels o current results
  leaves : ∀ text levels o current,
    collectLeaves text view levels o current =
      collectLeaves text store levels o current
  leafPaths : ∀ text levels o current,
    collectLeafPaths text view levels o current =
      collectLeafPaths text store levels o current

theorem Prefetched.sameWalks {store : ObjectStore Id}
    (prefetched : Prefetched store) : SameWalks prefetched.toStore store := by
  rw [prefetched.toStore_eq]
  exact ⟨fun _ _ => rfl, fun _ => rfl, fun _ _ => rfl, fun _ _ _ _ => rfl,
    fun _ _ _ _ _ _ _ => rfl, fun _ _ _ _ => rfl, fun _ _ _ _ => rfl⟩

/-! ## A limit that is not reached -/

/-- Every container below is above the depth limit. -/
def Covers (store : ObjectStore Id) : ℕ → Object Id → Prop
  | _, .atom _ => True
  | 0, .node _ => False
  | levels + 1, .node n =>
      ∀ id ∈ Object.childIds (.node n), ∀ child, store.get id = some child →
        Covers store levels child

theorem toJsonCapped_of_covers {store : ObjectStore Id} {levels : ℕ}
    {o : Object Id} (h : Covers store levels o) :
    toJsonCapped store levels o = treeToJson store o := by
  induction levels generalizing o with
  | zero =>
      cases o with
      | atom a => rfl
      | node n => exact h.elim
  | succ levels ih =>
      cases o with
      | atom a => rfl
      | node n =>
          rw [treeToJson, toJson_node, toJsonCapped_node]
          refine nodeToJson_congr fun id hid => ?_
          cases hc : store.require id with
          | error e => rfl
          | ok child =>
              have hget := require_eq_ok_iff.mp hc
              have hrank := Object.rank_lt_of_mem_childIds hid
              rw [← ObjectStore.id_eq_of_get hget] at hrank
              exact (ih (h id hid child hget)).trans
                (toJson_fuel store (Nat.lt_succ_self _) hrank)

/-! ## The reads together -/

/-- Batched reads are single reads: several paths at once as each alone, every
walk over what was read ahead as the walk over the store, and a capped read
that covers the tree as the read in full. -/
theorem batchedReads_eq (store : ObjectStore Id) :
    (∀ root, store.Complete root → ∀ paths,
      Batched.treeGetMany store root paths =
        .ok (paths.map fun p => (treeGet store root p).toOption)) ∧
    (∀ roots levels,
      (∀ id, (Prefetched.loadMany store roots levels).toStore.get id =
        (Prefetched.loadMany store roots levels).getObject id) ∧
      SameWalks (Prefetched.loadMany store roots levels).toStore store) ∧
    (∀ o levels, Covers store levels o →
      treeToJsonCapped (Prefetched.load store o levels).toStore o levels =
        treeToJson store o) := by
  refine ⟨?_, ?_, ?_⟩
  · intro root hcomplete paths
    exact Batched.treeGetMany_eq_ok hcomplete paths
  · intro roots levels
    exact ⟨Prefetched.get_toStore _, Prefetched.sameWalks _⟩
  · intro o levels hcovers
    rw [Prefetched.toStore_eq, treeToJsonCapped]
    exact toJsonCapped_of_covers hcovers

open TreeLaws.Sample in
theorem batchedReads_json :
    Batched.treeGetMany store root
        [⟨[.key "items", .index 1]⟩, ⟨[.key "later", .key "x"]⟩, ⟨[.key "items"]⟩] =
      .ok [(treeGet store root ⟨[.key "items", .index 1]⟩).toOption,
        (treeGet store root ⟨[.key "later", .key "x"]⟩).toOption,
        (treeGet store root ⟨[.key "items"]⟩).toOption] ∧
    treeToJsonCapped (Prefetched.load store Object.emptyMap 1).toStore
        Object.emptyMap 1 = treeToJson store Object.emptyMap := by
  obtain ⟨hmany, -, hcapped⟩ := batchedReads_eq store
  refine ⟨hmany root (complete_jsonToTree AddressedMap.empty value) _, ?_⟩
  apply hcapped
  intro id hid
  simp [Object.childIds] at hid

end AgentStateGraph
