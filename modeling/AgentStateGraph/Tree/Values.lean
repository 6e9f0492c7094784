import AgentStateGraph.Core.MergeSettles
import AgentStateGraph.Control.Tree
import AgentStateGraph.Tree.Hidden
import AgentStateGraph.Tree.RoundTrip

/-!
# Values at paths

A state holds a JSON value at a path when the value's own tree stands there.
What is held reads back, stays held in every larger store, and survives writes
to disjoint paths.
-/

namespace AgentStateGraph

variable {Id : Type} [Digest Id]

/-! ## Reading a path -/

variable {store store' view s t objects : ObjectStore Id}
  {path : List PathComponent} {o : Object Id} {root newRoot : Id} {value : Json}

theorem navigate_eq_ok_iff {path : StatePath} {o' : Object Id}
    {c : PathComponent} :
    navigate store path o c = .ok o' ↔
      ∃ x, childIdAt o c = some x ∧ store.get x = some o' := by
  unfold navigate childIdAt
  split <;> (try split) <;> simp_all [require_eq_ok_iff]

theorem foldlM_navigate_eq_ok_iff {path : StatePath} {id : Id} {o' : Object Id}
    {comps : List PathComponent} (hget : store.get id = some o) :
    comps.foldlM (navigate store path) o = .ok o' ↔
      ∃ x, lookupAt store (some id) comps = some x ∧
        store.get x = some o' := by
  induction comps generalizing id o with
  | nil =>
      simp only [List.foldlM_nil, lookupAt_nil, Option.some.injEq,
        exists_eq_left', hget]
      exact Except.ok.injEq _ _ |>.to_iff
  | cons c comps ih =>
      rw [List.foldlM_cons, Except.bind_eq_ok_iff, lookupAt_of_get hget]
      constructor
      · rintro ⟨child, hnav, hrest⟩
        obtain ⟨x, hx, hchild⟩ := navigate_eq_ok_iff.mp hnav
        rw [hx]
        exact (ih hchild).mp hrest
      · rintro ⟨x, hx, ho'⟩
        cases hc : childIdAt o c with
        | none => simp [hc, lookupAt_none] at hx
        | some y =>
            rw [hc] at hx
            cases hy : store.get y with
            | none =>
                cases comps with
                | nil =>
                    simp only [lookupAt_nil, Option.some.injEq] at hx
                    simp [← hx, hy] at ho'
                | cons d comps => simp [lookupAt, hy] at hx
            | some child =>
                exact ⟨child, navigate_eq_ok_iff.mpr ⟨y, hc, hy⟩,
                  (ih hy).mpr ⟨x, hx, ho'⟩⟩

/-- A read succeeds exactly where an object stands at the path. -/
theorem treeGet_eq_ok_iff {path : StatePath} :
    treeGet store root path = .ok o ↔
      ∃ x, idAt store root path.components = some x ∧
        store.get x = some o := by
  unfold treeGet
  rw [Except.bind_eq_ok_iff, idAt_eq_lookupAt]
  constructor
  · rintro ⟨rootObj, hroot, hfold⟩
    exact (foldlM_navigate_eq_ok_iff (require_eq_ok_iff.mp hroot)).mp hfold
  · rintro ⟨x, hx, ho⟩
    cases hroot : store.get root with
    | none =>
        by_cases hnil : path.components = []
        · rw [hnil, lookupAt_nil, Option.some.injEq] at hx
          simp [← hx, hroot] at ho
        · simp [lookupAt, hnil, hroot] at hx
    | some rootObj =>
        exact ⟨rootObj, require_eq_ok_iff.mpr hroot,
          (foldlM_navigate_eq_ok_iff hroot).mpr ⟨x, hx, ho⟩⟩

/-! ## Writing a path -/

theorem setRecursive_lookup_self {valueId : Id} {comps : List PathComponent}
    {depth : ℕ} {current new : Object Id} (hne : comps ≠ [])
    (h : setRecursive store valueId comps depth current = .ok (new, store'))
    (hview : store' ≤ view) : lookup view new comps = some valueId := by
  induction comps generalizing depth current new store' with
  | nil => exact absurd rfl hne
  | cons c rest ih =>
      rw [lookup_cons]
      rcases setRecursive_cons_eq_ok h with
        ⟨rfl, hnew, -⟩ | ⟨child, newChild, store'', hrest, -, hrec, hnew, rfl⟩
      · rw [childIdAt_replaceChild hnew, if_pos rfl, lookupAt_nil]
      · have hstored : view.get newChild.id = some newChild :=
          hview _ _ (AddressedMap.get_put_self store'' newChild)
        have hbelow : lookup view newChild rest = some valueId :=
          ih hrest hrec ((ObjectStore.le_put store'' newChild).trans hview)
        rw [childIdAt_replaceChild hnew, if_pos rfl]
        simp [lookupAt, hrest, hstored, hbelow]

theorem treeSet_idAt_self {path : StatePath} {value : Object Id}
    (h : treeSet store root path value = (.ok newRoot, store'))
    (hview : store' ≤ view) :
    idAt view newRoot path.components = some value.id := by
  rcases treeSet_eq_ok h with
    ⟨hroot, rfl, -⟩ | ⟨rootObj, new, store'', hroot, hobj, hset, rfl, rfl⟩
  · simp [idAt, hroot]
  · have hnew : view.get new.id = some new :=
      hview _ _ (AddressedMap.get_put_self store'' new)
    rw [idAt_of_get hroot hnew]
    exact setRecursive_lookup_self hroot hset
      ((ObjectStore.le_put store'' new).trans hview)

/-! ## Held values -/

/-- The tree of a value stands at a path, and all its objects are stored. -/
structure HoldsAt (objects : ObjectStore Id) (root : Id)
    (path : List PathComponent) (value : Json) : Prop where
  id : idAt objects root path = some (jsonToObjects value : Object Id × _).1.id
  stored : Stored objects
    ((jsonToObjects value).2 ++ [(jsonToObjects value).1])

/-- Nothing stands at a path, whatever objects are added. -/
def AbsentAt (objects : ObjectStore Id) (root : Id)
    (path : List PathComponent) : Prop :=
  ∀ view, objects ≤ view → idAt view root path = none

theorem Stored.mono (hle : s ≤ t) {os : List (Object Id)} (h : Stored s os) :
    Stored t os :=
  fun o ho => hle _ _ (h o ho)

theorem HoldsAt.mono (hle : s ≤ t) (h : HoldsAt s root path value) :
    HoldsAt t root path value where
  id := by
    have hid := h.id
    rw [idAt_eq_lookupAt] at hid ⊢
    exact lookupAt_of_le hle hid
  stored := h.stored.mono hle

theorem AbsentAt.mono (hle : s ≤ t) (h : AbsentAt s root path) :
    AbsentAt t root path :=
  fun view hview => h view (hle.trans hview)

theorem HoldsAt.not_absentAt (h : HoldsAt objects root path value) :
    ¬AbsentAt objects root path := by
  intro habsent
  have hnone := habsent objects (le_refl _)
  rw [h.id] at hnone
  simp at hnone

theorem absentAt_of_complete (hcomplete : objects.Complete root)
    (h : idAt objects root path = none) : AbsentAt objects root path := by
  intro view hle
  rw [idAt_eq_lookupAt] at h ⊢
  induction path generalizing root with
  | nil => simp at h
  | cons c path ih =>
      obtain ⟨o, ho⟩ := hcomplete.exists_get
      rw [lookupAt_of_get ho] at h
      rw [lookupAt_of_get (hle _ _ ho)]
      cases hc : childIdAt o c with
      | none => rw [lookupAt_none]
      | some x =>
          rw [hc] at h
          exact ih (hcomplete.child ho (mem_childIds_of_childIdAt hc)) h

theorem HoldsAt.treeToJson (hc : value.isCanonical = true)
    (h : HoldsAt objects root path value) :
    AgentStateGraph.treeToJson objects (jsonToObjects value).1 = .ok value :=
  treeToJson_of_stored hc fun o ho => h.stored o (List.mem_append_left _ ho)

theorem holdsAt_treeSet {path : StatePath}
    (h : treeSet (jsonToTree store value).2 root path
      (jsonToObjects value).1 = (.ok newRoot, store')) (hview : store' ≤ view) :
    HoldsAt view newRoot path.components value where
  id := treeSet_idAt_self h hview
  stored := by
    have hle := le_treeSet (jsonToTree store value).2 root path
      (jsonToObjects value).1
    rw [h] at hle
    exact (stored_jsonToTree store value).mono (hle.trans hview)

/-- A write to a disjoint path keeps what is held. -/
theorem HoldsAt.of_idAt_eq (h : HoldsAt objects root path value)
    (heq : idAt objects newRoot path = idAt objects root path) :
    HoldsAt objects newRoot path value :=
  ⟨heq.trans h.id, h.stored⟩

/-! ## Read values -/

/-- The tree at a path reads as a value. -/
def ReadsAt (objects : ObjectStore Id) (root : Id) (path : List PathComponent)
    (value : Json) : Prop :=
  ∃ x o, idAt objects root path = some x ∧ objects.get x = some o ∧
    treeToJson objects o = .ok value

theorem HoldsAt.readsAt (hc : value.isCanonical = true)
    (h : HoldsAt objects root path value) : ReadsAt objects root path value :=
  ⟨_, _, h.id, h.stored _ (List.mem_append_right _ (by simp)),
    h.treeToJson hc⟩

end AgentStateGraph
