import AgentStateGraph.Core.Digest
import AgentStateGraph.Lib.AddressedMap
import AgentStateGraph.Lib.Worklist

/-!
# Object and commit stores

Objects and commits are stored under their content addresses.  A store only
grows here, so whatever could be read once can be read again with the same
result.
-/

namespace AgentStateGraph

open AddressedMap

variable {Id : Type} [Digest Id]

/-- Objects by id. -/
abbrev ObjectStore (Id : Type) [Digest Id] :=
  AddressedMap Id (Object Id) Object.id

/-- Commits by id. -/
abbrev CommitStore (Id : Type) [Digest Id] :=
  AddressedMap Id (Commit Id) Commit.id

namespace ObjectStore

variable {store : ObjectStore Id} {id : Id}

theorem id_eq_of_get {o : Object Id} (h : store.get id = some o) : o.id = id :=
  address_eq h

theorem le_put (store : ObjectStore Id) (o : Object Id) : store ≤ store.put o :=
  AddressedMap.le_put Object.id_injective store o

theorem le_putAll (store : ObjectStore Id) (os : List (Object Id)) :
    store ≤ store.putAll os :=
  AddressedMap.le_putAll Object.id_injective store os

theorem rank_lt_of_get {c : Id} {o : Object Id} (h : store.get id = some o)
    (hc : c ∈ o.childIds) : Digest.rank c < Digest.rank id := by
  rw [← id_eq_of_get h]
  exact Object.rank_lt_of_mem_childIds hc

/-- The ids a stored object points at; none when the store lacks it. -/
def children (store : ObjectStore Id) (id : Id) : List Id :=
  match store.get id with
  | some o => o.childIds
  | none => []

theorem children_of_get {o : Object Id} (h : store.get id = some o) :
    store.children id = o.childIds := by
  simp [children, h]

/-- Every object of the tree at `id` is stored. -/
def Complete (store : ObjectStore Id) (id : Id) : Prop :=
  ∀ x, Worklist.Reaches store.children id x → (store.get x).isSome = true

theorem Complete.exists_get (h : store.Complete id) :
    ∃ o, store.get id = some o :=
  Option.isSome_iff_exists.mp (h id (Worklist.Reaches.refl _ id))

theorem Complete.child {c : Id} {o : Object Id} (h : store.Complete id)
    (hget : store.get id = some o) (hc : c ∈ o.childIds) :
    store.Complete c := by
  intro x hx
  have hstep : c ∈ store.children id := by rwa [children_of_get hget]
  exact h x ((Worklist.Reaches.single hstep).trans hx)

theorem complete_of_children {o : Object Id} (hget : store.get id = some o)
    (h : ∀ c ∈ o.childIds, store.Complete c) : store.Complete id := by
  intro x hx
  rcases Relation.ReflTransGen.cases_head hx with rfl | ⟨c, hc, hrest⟩
  · rw [hget]
    rfl
  · exact h c (by rwa [children_of_get hget] at hc) x hrest

/-- A whole tree stays whole. -/
theorem Complete.mono {s t : ObjectStore Id} (hle : s ≤ t) (h : s.Complete id) :
    t.Complete id := by
  intro x hx
  have hreach : Worklist.Reaches s.children id x := by
    induction hx with
    | refl => exact Worklist.Reaches.refl _ _
    | @tail y z _ hstep ih =>
        obtain ⟨o, ho⟩ := Option.isSome_iff_exists.mp (h y ih)
        refine ih.trans (.single ?_)
        rw [children_of_get ho]
        rwa [children_of_get (hle y o ho)] at hstep
  obtain ⟨o, ho⟩ := Option.isSome_iff_exists.mp (h x hreach)
  rw [hle x o ho]
  rfl

theorem complete_of_stored {store : ObjectStore Id} {os : List (Object Id)}
    (hstored : ∀ o ∈ os, store.get o.id = some o)
    (h : ∀ o ∈ os, ∀ c ∈ o.childIds,
      (∃ o' ∈ os, o'.id = c) ∨ store.Complete c) {o : Object Id} (ho : o ∈ os) :
    store.Complete o.id := by
  intro x hx
  have hkept : (∃ o' ∈ os, o'.id = x) ∨ store.Complete x := by
    induction hx with
    | refl => exact Or.inl ⟨o, ho, rfl⟩
    | tail _ hstep ih =>
        rcases ih with ⟨o', ho', rfl⟩ | hwhole
        · rw [children_of_get (hstored o' ho')] at hstep
          exact h o' ho' _ hstep
        · obtain ⟨o', ho'⟩ := hwhole.exists_get
          rw [children_of_get ho'] at hstep
          exact Or.inr (hwhole.child ho' hstep)
  rcases hkept with ⟨o', ho', rfl⟩ | hwhole
  · rw [hstored o' ho']
    rfl
  · exact hwhole x (Worklist.Reaches.refl _ _)

/-- No stored object points outside the store. -/
def isClosed (store : ObjectStore Id) : Bool :=
  store.entries.toList.all fun e =>
    e.2.childIds.all fun c => (store.get c).isSome

theorem complete_of_isClosed (h : store.isClosed = true)
    (hid : (store.get id).isSome = true) : store.Complete id := by
  intro x hx
  refine hx.mem_of_closed (P := fun y => (store.get y).isSome = true) ?_ hid
  intro y hy c hc
  obtain ⟨o, ho⟩ := Option.isSome_iff_exists.mp hy
  rw [children_of_get ho] at hc
  simp only [isClosed, List.all_eq_true] at h
  have hmem : (y, o) ∈ store.entries.toList :=
    Std.ExtTreeMap.mem_toList_iff_getElem?_eq_some.mpr ho
  exact h (y, o) hmem c hc

end ObjectStore

namespace CommitStore

variable {store : CommitStore Id} {id : Id}

theorem id_eq_of_get {c : Commit Id} (h : store.get id = some c) : c.id = id :=
  address_eq h

theorem le_put (store : CommitStore Id) (c : Commit Id) : store ≤ store.put c :=
  AddressedMap.le_put Commit.id_injective store c

/-- The recorded parents of a commit; none when the store lacks it. -/
def parents (store : CommitStore Id) (id : Id) : List Id :=
  match store.get id with
  | some c => c.parents
  | none => []

theorem parents_of_get {c : Commit Id} (h : store.get id = some c) :
    store.parents id = c.parents := by
  simp [parents, h]

theorem rank_lt_of_mem_parents {p : Id} (h : p ∈ store.parents id) :
    Digest.rank p < Digest.rank id := by
  unfold parents at h
  split at h
  next c hc =>
    rw [← id_eq_of_get hc]
    exact Commit.rank_lt_of_mem_parents h
  next => simp at h

theorem mem_parents_of_le {s t : CommitStore Id} (hle : s ≤ t) {p : Id}
    (h : p ∈ s.parents id) : p ∈ t.parents id := by
  unfold parents at h
  split at h
  next c hc => rwa [parents_of_get (hle id c hc)]
  next => simp at h

end CommitStore

end AgentStateGraph
