import AgentStateGraph.Repo.Refs

/-!
# Branches

A branch is created only where its name is free, and deleted by name; `main`
is never deleted.  `set_ref` moves a ref anywhere the epoch seals allow.
-/

namespace AgentStateGraph

variable {Id : Type} [Digest Id]

namespace Storage

variable (store : Storage Id)

/-- Create a ref where there is none; the answer says whether it was
created. -/
def createRef (ns name : String) (target : Id) :
    Except StorageError (Bool × Storage Id) :=
  if ns ∈ store.namespaces then
    if (store.refAt ns name).isSome then .ok (false, store)
    else .ok (true, store.putRef ns name target)
  else .error (.namespaceNotFound ns)

def eraseRef (ns name : String) : Storage Id :=
  { store with refs := store.refs.erase (toLex (ns, name)) }

def deleteRef (ns name : String) : Except StorageError (Bool × Storage Id) :=
  if ns ∈ store.namespaces then
    .ok ((store.refAt ns name).isSome, store.eraseRef ns name)
  else .error (.namespaceNotFound ns)

/-- Delete a ref only if it still points at `expected`. -/
def casDeleteRef (ns name : String) (expected : Id) :
    Except StorageError (Bool × Storage Id) :=
  if ns ∈ store.namespaces then
    if store.refAt ns name = some expected then
      .ok (true, store.eraseRef ns name)
    else .ok (false, store)
  else .error (.namespaceNotFound ns)

/-- The refs of a namespace whose names start with `pre`, in name order. -/
def refsIn (ns pre : String) : List (String × Id) :=
  (store.refs.toList.filter fun e =>
    (ofLex e.1).1 = ns && startsWith (ofLex e.1).2 pre).map
      fun e => ((ofLex e.1).2, e.2)

def listRefs (ns pre : String) : Except StorageError (List (String × Id)) :=
  if ns ∈ store.namespaces then .ok (store.refsIn ns pre)
  else .error (.namespaceNotFound ns)

instance : Std.LawfulEqCmp (compare : String ×ₗ String → _ → Ordering) :=
  ⟨fun h => compare_eq_iff_eq.mp h⟩

theorem mem_refsIn_iff {ns pre name : String} {target : Id} :
    (name, target) ∈ store.refsIn ns pre ↔
      store.refAt ns name = some target ∧ startsWith name pre = true := by
  simp only [refsIn, List.mem_map, List.mem_filter, Bool.and_eq_true,
    decide_eq_true_eq]
  constructor
  · rintro ⟨⟨key, target'⟩, ⟨hmem, hns, hpre⟩, heq⟩
    obtain ⟨rfl, rfl⟩ := Prod.mk.inj heq
    have hget := Std.ExtTreeMap.mem_toList_iff_getElem?_eq_some.mp hmem
    have hkey : toLex (ns, (ofLex key).2) = key := by
      rw [← hns]
      rfl
    exact ⟨by rw [refAt, hkey]; exact hget, hpre⟩
  · rintro ⟨href, hpre⟩
    exact ⟨(toLex (ns, name), target),
      ⟨Std.ExtTreeMap.mem_toList_iff_getElem?_eq_some.mpr href, rfl, hpre⟩, rfl⟩

theorem refAt_eraseRef (ns name ns' name' : String) :
    (store.eraseRef ns name).refAt ns' name' =
      if ns = ns' ∧ name = name' then none else store.refAt ns' name' := by
  simp only [refAt, eraseRef, Std.ExtTreeMap.getElem?_erase, compare_eq_iff_eq,
    EmbeddingLike.apply_eq_iff_eq, Prod.mk.injEq]

end Storage

namespace Repository

variable (repo : Repository)

def branch (store : Storage Id) (name source : String) : Outcome Id Id :=
  match (refuseReservedRef name : Except (RepoError Id) Unit) with
  | .error e => (.error e, store)
  | .ok () =>
      match liftStorage (store.getRef repo.activeNamespace name) with
      | .error e => (.error e, store)
      | .ok (some _) => (.error (.branchAlreadyExists name), store)
      | .ok none =>
          match repo.resolveRef store source with
          | .error e => (.error e, store)
          | .ok commitId =>
              match liftStorage
                  (store.createRef repo.activeNamespace name commitId) with
              | .error e => (.error e, store)
              | .ok (false, kept) => (.error (.branchAlreadyExists name), kept)
              | .ok (true, created) => (.ok commitId, created)

def refuseDeletingMain (name : String) : Except (RepoError Id) Unit :=
  if name = "main" then
    .error (.invalidOperation ("refusing to delete 'main': every branch forks " ++
      "from it, and the next init() would replace it with an empty one"))
  else .ok ()

def deleteBranch (store : Storage Id) (name : String) : Outcome Id Bool :=
  match (refuseDeletingMain name : Except (RepoError Id) Unit) with
  | .error e => (.error e, store)
  | .ok () =>
      match (refuseReservedRef name : Except (RepoError Id) Unit) with
      | .error e => (.error e, store)
      | .ok () =>
          match liftStorage (store.deleteRef repo.activeNamespace name) with
          | .error e => (.error e, store)
          | .ok (existed, kept) => (.ok existed, kept)

def setRef (store : Storage Id) (refName : String) (target : Id) :
    Outcome Id Unit :=
  match repo.guardedSetRef store refName target with
  | .error e => (.error e, store)
  | .ok moved => (.ok (), moved)

end Repository

end AgentStateGraph
