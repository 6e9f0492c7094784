import AgentStateGraph.Core.PathText
import AgentStateGraph.Repo.Sessions
import AgentStateGraph.Tree.Values

/-!
# Path scopes of sessions

A session with a path scope may use the paths whose text starts with the text of
the scope.  A write is confined to the scope when the components of the path
start with those of the scope, and a deletion is when it also moves no list
element next to the scope.
-/

namespace AgentStateGraph

open AddressedMap

variable {Id : Type} [Digest Id]

namespace Sessions

inductive SessionError where
  | notFound (id : String)
  | outOfScope (path scope : String)
  | storage (e : StorageError)

/-- `check_scope`. -/
def checkScope (session : Session Id) (path : String) : Except SessionError Unit :=
  match session.pathScope with
  | some scope =>
      if startsWith path scope then .ok () else .error (.outOfScope path scope)
  | none => .ok ()

/-! ## Confinement -/

/-- Whatever was or was not at a location away from the scope still is. -/
def LeavesOutside (scope : StatePath) (root newRoot : Id)
    (store : ObjectStore Id) : Prop :=
  ∀ q, PathsDisjoint scope.components q → idAt store newRoot q = idAt store root q

/-- Every write that a path takes, in every tree, leaves what is outside the
scope. -/
structure Confined (Id : Type) [Digest Id] (scope : StatePath) (path : String) :
    Prop where
  set : ∀ p, StatePath.parse path = .ok p →
    ∀ (store store' : ObjectStore Id) (root newRoot : Id) (value : Object Id),
      treeSet store root p value = (.ok newRoot, store') →
        LeavesOutside scope root newRoot store'
  delete : ∀ p, StatePath.parse path = .ok p →
    ∀ (store store' : ObjectStore Id) (root newRoot : Id),
      treeDelete store root p = (.ok newRoot, store') →
        LeavesOutside scope root newRoot store'

/-- The path denotes a place at or below the scope, and not the scope itself
where that is a list element. -/
def Within (scope : StatePath) (path : String) : Prop :=
  ∀ p, StatePath.parse path = .ok p →
    scope.components <+: p.components ∧
      (p = scope → ∀ i, scope.components.getLast? ≠ some (.index i))

theorem pathsDisjoint_of_within {s p q : List PathComponent} (hsp : s <+: p)
    (hsq : PathsDisjoint s q) : PathsDisjoint p q := by
  refine ⟨fun hpq => hsq.1 (hsp.trans hpq), fun hqp => ?_⟩
  rcases List.prefix_or_prefix_of_prefix hsp hqp with h | h
  · exact hsq.1 h
  · exact hsq.2 h

/-- A deletion below the scope moves nothing outside it. -/
theorem not_shiftsPath {s p q : List PathComponent} (hsp : s <+: p)
    (hlast : p = s → ∀ i, s.getLast? ≠ some (.index i))
    (hsq : PathsDisjoint s q) : ¬ ShiftsPath p q := by
  rintro ⟨pre, c, c', post, rfl, rfl, i, j, rfl, -, -⟩
  rcases List.prefix_concat_iff.mp hsp with rfl | hpre
  · exact hlast rfl i (by simp)
  · exact hsq.1 (hpre.trans (List.prefix_append _ _))

theorem confined_of_within {scope : StatePath} {path : String}
    (h : Within scope path) : Confined Id scope path where
  set := by
    intro p hp store store' root newRoot value hset q hq
    exact treeSet_idAt hset (le_refl _) (pathsDisjoint_of_within (h p hp).1 hq)
  delete := by
    intro p hp store store' root newRoot hdelete q hq
    obtain ⟨hwithin, hlast⟩ := h p hp
    refine treeDelete_idAt hdelete (le_refl _)
      (pathsDisjoint_of_within hwithin hq) (not_shiftsPath hwithin ?_ hq)
    intro heq
    have hsame : p = scope := by
      cases p
      cases scope
      exact congrArg StatePath.mk heq
    exact hlast hsame

/-! ## Trees that have a path -/

/-- An object with one child under a component; a list has the child twice more
than the component needs. -/
def spine (c : PathComponent) (id : Id) : Object Id :=
  match c with
  | .key k => Object.map ((∅ : BTreeMap String Id).insert k id)
  | .index i => Object.list (List.replicate (i + 2) id)

omit [Digest Id] in
theorem childIdAt_spine (c : PathComponent) (id : Id) :
    childIdAt (spine c id) c = some id := by
  cases c with
  | key k => simp [spine, childIdAt, Object.map]
  | index i => simp [spine, childIdAt, Object.list]

omit [Digest Id] in
theorem exists_replaceChild_spine (c : PathComponent) (id id' : Id) :
    ∃ o, replaceChild (spine c id) c id' = some o := by
  cases c with
  | key k => exact ⟨_, rfl⟩
  | index i => exact ⟨_, if_pos (by simp)⟩

theorem lookup_spine {store : ObjectStore Id} {c : PathComponent}
    {below : Object Id} {rest : List PathComponent} (hrest : rest ≠ [])
    (hbelow : store.get below.id = some below) :
    lookup store (spine c below.id) (c :: rest) = lookup store below rest := by
  obtain ⟨d, rest, rfl⟩ := List.exists_cons_of_ne_nil hrest
  rw [lookup_cons_cons, childIdAt_spine]
  simp only [hbelow]

theorem exists_tree_set {path : List PathComponent} (hne : path ≠ [])
    (bottom : Object Id) :
    ∃ (store : ObjectStore Id) (root : Object Id),
      store.get root.id = some root ∧
      ∀ bigger : ObjectStore Id, store ≤ bigger →
        lookup bigger root path = some bottom.id ∧
        ∀ (valueId : Id) (depth : ℕ), ∃ new store',
          setRecursive bigger valueId path depth root = .ok (new, store') := by
  induction path with
  | nil => exact absurd rfl hne
  | cons c rest ih =>
      by_cases hrest : rest = []
      · subst hrest
        refine ⟨AddressedMap.empty.put (spine c bottom.id), spine c bottom.id,
          get_put_self _ _, ?_⟩
        intro bigger _
        refine ⟨childIdAt_spine c _, ?_⟩
        intro valueId depth
        obtain ⟨new, hnew⟩ := exists_replaceChild_spine c bottom.id valueId
        exact ⟨new, bigger, setRecursive_last hnew⟩
      · obtain ⟨store, below, hbelow, hgrows⟩ := ih hrest
        have hle := ObjectStore.le_put store (spine c below.id)
        refine ⟨store.put (spine c below.id), spine c below.id,
          get_put_self _ _, ?_⟩
        intro bigger hbigger
        have hstored : bigger.get below.id = some below :=
          hbigger _ _ (hle _ _ hbelow)
        obtain ⟨hlookup, hset⟩ := hgrows bigger (hle.trans hbigger)
        refine ⟨(lookup_spine hrest hstored).trans hlookup, ?_⟩
        intro valueId depth
        obtain ⟨newChild, store', hrec⟩ := hset valueId (depth + 1)
        obtain ⟨new, hnew⟩ := exists_replaceChild_spine c below.id newChild.id
        exact ⟨new, store'.put newChild, setRecursive_cons hrest
          (Or.inr ⟨below.id, childIdAt_spine c _, hstored⟩) hrec hnew⟩

theorem exists_tree_delete (above : List PathComponent) (i : ℕ)
    (bottom : Object Id) :
    ∃ (store : ObjectStore Id) (root : Object Id),
      store.get root.id = some root ∧
      ∀ bigger : ObjectStore Id, store ≤ bigger →
        lookup bigger root (above ++ [.index (i + 1)]) = some bottom.id ∧
        ∀ depth : ℕ, ∃ new store',
          deleteRecursive bigger (above ++ [.index i]) depth root =
            .ok (new, store') ∧
          ∀ view : ObjectStore Id, store' ≤ view →
            lookup view new (above ++ [.index (i + 1)]) = none := by
  induction above with
  | nil =>
      refine ⟨AddressedMap.empty.put (spine (.index i) bottom.id),
        spine (.index i) bottom.id, get_put_self _ _, ?_⟩
      intro bigger _
      refine ⟨by simp [lookup, spine, childIdAt, Object.list], ?_⟩
      intro depth
      have hremove : removeChild (spine (.index i) bottom.id) (.index i) =
          some (Object.list (List.replicate (i + 1) bottom.id)) := by
        rw [spine, Object.list, removeChild]
        rw [if_pos (by simp), List.eraseIdx_replicate, if_pos (by omega)]
        rfl
      refine ⟨_, bigger, deleteRecursive_last hremove, ?_⟩
      intro view _
      simp [lookup, childIdAt, Object.list]
  | cons c above ih =>
      obtain ⟨store, below, hbelow, hgrows⟩ := ih
      have hle := ObjectStore.le_put store (spine c below.id)
      refine ⟨store.put (spine c below.id), spine c below.id,
        get_put_self _ _, ?_⟩
      intro bigger hbigger
      have hstored : bigger.get below.id = some below :=
        hbigger _ _ (hle _ _ hbelow)
      obtain ⟨hlookup, hdelete⟩ := hgrows bigger (hle.trans hbigger)
      refine ⟨(lookup_spine (by simp) hstored).trans hlookup, ?_⟩
      intro depth
      obtain ⟨newChild, store', hrec, hgone⟩ := hdelete (depth + 1)
      obtain ⟨new, hnew⟩ := exists_replaceChild_spine c below.id newChild.id
      refine ⟨new, store'.put newChild, deleteRecursive_cons (by simp)
        (childIdAt_spine c _) hstored hrec hnew, ?_⟩
      intro view hview
      have hchild : view.get newChild.id = some newChild :=
        hview _ _ (get_put_self store' newChild)
      have hid : childIdAt new c = some newChild.id := by
        rw [childIdAt_replaceChild hnew, if_pos rfl]
      obtain ⟨d, rest, hrest⟩ :=
        List.exists_cons_of_ne_nil (show above ++ [.index (i + 1)] ≠ [] by simp)
      have hnone := hgone view ((ObjectStore.le_put store' newChild).trans hview)
      rw [hrest] at hnone
      rw [List.cons_append, hrest, lookup_cons_cons, hid]
      simp only [hchild, hnone]

/-! ## Texts that start with the scope -/

theorem length_splitOn_append (u t : List Char) :
    (u.splitOn '/').length ≤ ((u ++ t).splitOn '/').length := by
  induction hlen : u.length using Nat.strong_induction_on generalizing u with
  | _ n ih =>
      by_cases hmem : '/' ∈ u
      · obtain ⟨a, b, rfl⟩ := List.append_of_mem hmem
        have hb := ih b.length (by simp at hlen; omega) b rfl
        rw [List.append_assoc, List.cons_append, List.splitOn_append_cons_self,
          List.splitOn_append_cons_self, List.length_append, List.length_append]
        omega
      · rw [splitOn_slash_eq_singleton_iff.mpr hmem]
        exact List.length_pos_of_ne_nil (List.splitOn_ne_nil _ _)

theorem length_components_le {scope path : String} {s p : StatePath}
    (hs : StatePath.parse scope = .ok s) (hp : StatePath.parse path = .ok p)
    (h : startsWith path scope = true) :
    s.components.length ≤ p.components.length := by
  rcases StatePath.parse_eq_ok hs with ⟨-, rfl⟩ | ⟨hscope, hcomps, hne⟩
  · exact Nat.zero_le _
  obtain ⟨t, ht⟩ := (startsWith_iff _ _).mp h
  rcases StatePath.parse_eq_ok hp with ⟨hroot, -⟩ | ⟨-, hcomps', -⟩
  · -- a path as short as the root's does not go on after a segment
    have hshort : path.toList.length ≤ 1 := by
      rcases hroot with rfl | rfl <;> simp
    have hdrop : scope.toList.drop 1 = [] := by
      have hlen := congrArg List.length ht
      rw [List.length_append] at hlen
      apply List.drop_eq_nil_iff.mpr
      omega
    exact absurd rfl (hne [] (by simp [StatePath.segments, hdrop]))
  · have hdrop : path.toList.drop 1 = scope.toList.drop 1 ++ t := by
      rw [← ht]
      apply List.drop_append_of_le_length
      rw [hscope]
      simp
    rw [hcomps, hcomps', List.length_map, List.length_map, StatePath.segments,
      StatePath.segments, hdrop]
    exact length_splitOn_append _ _

/-! ## When a scope confines -/

/-- A value that is written somewhere else is seen there. -/
theorem not_confined_of_not_prefix {scope p : StatePath} {path : String}
    (hp : StatePath.parse path = .ok p)
    (hlength : scope.components.length ≤ p.components.length)
    (hwithin : ¬ scope.components <+: p.components) :
    ¬ Confined Id scope path := by
  intro hconfined
  have hdisjoint : PathsDisjoint scope.components p.components := by
    refine ⟨hwithin, fun h => hwithin ?_⟩
    rw [h.eq_of_length (Nat.le_antisymm h.length_le hlength)]
  have hne : p.components ≠ [] := by
    intro hnil
    rw [hnil, List.length_nil, Nat.le_zero, List.length_eq_zero_iff] at hlength
    rw [hlength] at hwithin
    exact hwithin List.nil_prefix
  obtain ⟨store, root, hroot, hgrows⟩ :=
    @exists_tree_set Id _ _ hne (.atom .null)
  obtain ⟨-, hset⟩ := hgrows (store.put Object.emptyMap)
    (ObjectStore.le_put store _)
  obtain ⟨new, store', hset⟩ := hset (Object.emptyMap : Object Id).id 0
  have hstored := require_eq_ok_iff.mpr (ObjectStore.le_put store
    (Object.emptyMap : Object Id) _ _ hroot)
  have hwrite : treeSet store root.id p Object.emptyMap =
      (.ok new.id, store'.put new) := by
    simp only [treeSet, StatePath.isRoot, List.isEmpty_iff, hne, if_false,
      hstored, Except.ok_bind, hset]
  have hsame := hconfined.set p hp _ _ _ _ _ hwrite p.components hdisjoint
  have hle : store ≤ store'.put new := by
    have h := le_treeSet store root.id p Object.emptyMap
    rwa [hwrite] at h
  rw [treeSet_idAt_self hwrite (le_refl _),
    idAt_of_get hne (hle _ _ hroot), (hgrows _ hle).1] at hsame
  exact absurd (Object.id_injective (Option.some.inj hsame)) (by
    simp [Object.emptyMap])

/-- Deleting the scope's own list element moves the one after it. -/
theorem not_confined_of_index {scope : StatePath} {path : String} {i : ℕ}
    (hp : StatePath.parse path = .ok scope)
    (hlast : scope.components.getLast? = some (.index i)) :
    ¬ Confined Id scope path := by
  intro hconfined
  obtain ⟨above, habove⟩ := List.getLast?_eq_some_iff.mp hlast
  obtain ⟨store, root, hroot, hgrows⟩ :=
    @exists_tree_delete Id _ above i (.atom .null)
  obtain ⟨new, store', hdelete, hgone⟩ := (hgrows store (le_refl _)).2 0
  have hne : scope.components ≠ [] := by simp [habove]
  have hdelete' : treeDelete store root.id scope =
      (.ok new.id, store'.put new) := by
    rw [← habove] at hdelete
    simp only [treeDelete, StatePath.isRoot, List.isEmpty_iff, hne, if_false,
      require_eq_ok_iff.mpr hroot, Except.ok_bind, hdelete]
  have hdisjoint : PathsDisjoint scope.components (above ++ [.index (i + 1)]) := by
    rw [habove]
    constructor <;>
    · intro h
      have heq := h.eq_of_length (by simp)
      simp at heq
  have hsame := hconfined.delete scope hp _ _ _ _ hdelete' _ hdisjoint
  have hle : store ≤ store'.put new := by
    have h := le_treeDelete store root.id scope
    rwa [hdelete'] at h
  have hne' : above ++ [PathComponent.index (i + 1)] ≠ [] := by simp
  rw [idAt_of_get hne' (get_put_self store' new),
    hgone _ (ObjectStore.le_put store' new),
    idAt_of_get hne' (hle _ _ hroot), (hgrows _ hle).1] at hsame
  cases hsame

/-- An accepted path is confined to the scope exactly when it denotes a place
at or below it, and not the scope itself where that is a list element. -/
theorem checkScope_confined_iff {session : Session Id} {scope path : String}
    {s : StatePath} (hscope : session.pathScope = some scope)
    (hs : StatePath.parse scope = .ok s)
    (hpath : checkScope session path = .ok ()) :
    Confined Id s path ↔ Within s path := by
  have hstarts : startsWith path scope = true := by
    rw [checkScope, hscope] at hpath
    dsimp only at hpath
    split at hpath
    · assumption
    · cases hpath
  refine ⟨?_, confined_of_within⟩
  intro hconfined p hp
  refine ⟨?_, ?_⟩
  · by_contra hwithin
    exact not_confined_of_not_prefix hp (length_components_le hs hp hstarts)
      hwithin hconfined
  · rintro rfl i hlast
    exact not_confined_of_index hp hlast hconfined

/-! ## A sibling of the scope -/

def storageScope : StatePath := ⟨[.key "config", .key "storage"]⟩

def storageSession : Session ContentKey :=
  newSession "test" "agent/storage" "agents/storage/workspace"
    (Object.emptyMap : Object ContentKey).id
    { parentSession := none
      delegatedIntent := none
      reportTo := none
      pathScope := some "/config/storage"
      scopeNamespace := none } 0

theorem checkScope_confined_iff_type :
    Confined ContentKey storageScope "/config/storage/type" ↔
      Within storageScope "/config/storage/type" :=
  checkScope_confined_iff (show storageSession.pathScope = some "/config/storage"
    from rfl) (by decide) (by rfl)

/-- The path of a sibling is accepted, and its writes are not confined. -/
theorem sibling_not_confined :
    checkScope storageSession "/config/storage2" = .ok () ∧
      ¬ Confined ContentKey storageScope "/config/storage2" := by
  refine ⟨by rfl, ?_⟩
  have hparse : StatePath.parse "/config/storage2" =
      .ok ⟨[.key "config", .key "storage2"]⟩ := by decide
  exact not_confined_of_not_prefix hparse (by decide) (by decide)

end Sessions

end AgentStateGraph
