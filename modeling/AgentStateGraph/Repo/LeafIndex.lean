import AgentStateGraph.Lib.Programs
import AgentStateGraph.Repo.Reads
import AgentStateGraph.Tree.Leaves

/-!
# The leaf index

A backend that records roots keeps, for each namespace and ref, the rows of
one tree and the root of that tree.  A search builds the set when there is
none and moves it by a difference when it stands at another tree; a write that
moved a ref does the same.  Each of these moves checks the recorded root and
changes the rows in one transaction, but the difference was read before, from
a store that sweeps and pushes change meanwhile.
-/

namespace AgentStateGraph

variable {Id : Type} [Digest Id]

/-! ## Tables -/

structure LeafRow where
  namespace_ : String
  ref : String
  path : String
  value : String
deriving DecidableEq

/-- The row belongs to a set. -/
def LeafRow.isOf (row : LeafRow) (ns refName : String) : Bool :=
  row.namespace_ == ns && row.ref == refName

/-- The rows of all sets, and the sets that are built: each at a root, unless
that is unknown. -/
structure LeafIndex (Id : Type) where
  refs : BTreeMap (String ×ₗ String) (Option Id)
  rows : List LeafRow

/-- What the database decides of a query over values: which values match the
text, and in which order rows come. -/
structure ValueQuery where
  isMatch : String → String → Bool
  order : List (String × String) → List (String × String)
  order_perm : ∀ rows, (order rows).Perm rows

namespace LeafIndex

variable (index : LeafIndex Id) (ns refName : String)

def empty : LeafIndex Id := ⟨∅, []⟩

def leafIndexIsBuilt : Bool := index.refs.contains (toLex (ns, refName))

def leafIndexRoot : Option Id := index.refs[toLex (ns, refName)]?.join

/-- The rows of one set. -/
def rowsOf : List (String × String) :=
  (index.rows.filter fun row => row.isOf ns refName).map fun row =>
    (row.path, row.value)

def leafRows (entries : List (String × String)) : List LeafRow :=
  entries.map fun e => ⟨ns, refName, e.1, e.2⟩

def leafIndexBuildAt (root : Id) (entries : List (String × String)) :
    LeafIndex Id where
  refs := index.refs.insert (toLex (ns, refName)) (some root)
  rows := (index.rows.filter fun row => !row.isOf ns refName) ++
    leafRows ns refName entries

/-- Delete the rows at the removed paths and insert the added ones. -/
def leafSetApply (patch : RowPatch String String) : List LeafRow :=
  (index.rows.filter fun row =>
    !(row.isOf ns refName && decide (row.path ∈ patch.removed))) ++
    leafRows ns refName patch.added

/-- Only a set that is at `source` moves. -/
def leafIndexAdvance (source target : Id) (patch : RowPatch String String) :
    Bool × LeafIndex Id :=
  if index.leafIndexRoot ns refName = some source then
    (true,
      { refs := index.refs.insert (toLex (ns, refName)) (some target)
        rows := index.leafSetApply ns refName patch })
  else (false, index)

def leafIndexSearch (query : ValueQuery) (queryLower : String) (limit : ℕ) :
    Option (List (String × String)) :=
  if index.leafIndexIsBuilt ns refName then
    some ((query.order ((index.rowsOf ns refName).filter fun row =>
      query.isMatch queryLower row.2)).take limit)
  else none

/-! ## What the moves of a set do to the sets -/

section Sets

variable {index} {ns refName} {ns' name : String}

theorem filter_leafRows (entries : List (String × String)) :
    (leafRows ns refName entries).filter (fun row => row.isOf ns' name) =
      if ns = ns' ∧ refName = name then leafRows ns refName entries else [] := by
  split
  next h =>
    obtain ⟨rfl, rfl⟩ := h
    refine List.filter_eq_self.mpr ?_
    intro row hrow
    obtain ⟨e, -, rfl⟩ := List.mem_map.mp hrow
    simp [LeafRow.isOf]
  next h =>
    refine List.filter_eq_nil_iff.mpr ?_
    intro row hrow
    obtain ⟨e, -, rfl⟩ := List.mem_map.mp hrow
    simpa [LeafRow.isOf] using h

theorem isOf_iff {row : LeafRow} :
    row.isOf ns refName = true ↔ row.namespace_ = ns ∧ row.ref = refName := by
  simp [LeafRow.isOf]

omit [Digest Id] in
/-- What a table keeps of the rows of a set, when rows of another set are
dropped and rows are added to it. -/
theorem rowsOf_filter_append {keep : LeafRow → Bool}
    (hkeep : ∀ row, row.isOf ns refName = false → keep row = true)
    (entries : List (String × String))
    (refs : BTreeMap (String ×ₗ String) (Option Id)) :
    (⟨refs, index.rows.filter keep ++ leafRows ns refName entries⟩ :
        LeafIndex Id).rowsOf ns' name =
      if ns = ns' ∧ refName = name then
        ((index.rows.filter fun row => row.isOf ns refName).filter keep).map
          (fun row => (row.path, row.value)) ++ entries
      else index.rowsOf ns' name := by
  unfold rowsOf
  rw [List.filter_append, filter_leafRows, List.filter_filter]
  split
  next h =>
    obtain ⟨rfl, rfl⟩ := h
    rw [List.map_append, List.filter_filter]
    congr 1
    · congr 1
      refine List.filter_congr ?_
      intro row _
      exact Bool.and_comm _ _
    · simp [leafRows, Function.comp_def]
  next h =>
    rw [List.append_nil]
    congr 1
    refine List.filter_congr ?_
    intro row _
    by_cases hrow : row.isOf ns' name = true
    · have hother : row.isOf ns refName = false := by
        refine Bool.eq_false_iff.mpr ?_
        intro hmine
        obtain ⟨h₁, h₂⟩ := isOf_iff.mp hrow
        obtain ⟨h₃, h₄⟩ := isOf_iff.mp hmine
        exact h ⟨h₃.symm.trans h₁, h₄.symm.trans h₂⟩
      simp [hrow, hkeep row hother]
    · simp [hrow]

omit [Digest Id] in
theorem rowsOf_leafIndexBuildAt (root : Id) (entries : List (String × String)) :
    (index.leafIndexBuildAt ns refName root entries).rowsOf ns' name =
      if ns = ns' ∧ refName = name then entries
      else index.rowsOf ns' name := by
  rw [leafIndexBuildAt, rowsOf_filter_append fun row hrow => by simp [hrow]]
  simp [List.filter_filter]

omit [Digest Id] in
theorem leafIndexRoot_insert (root : Id) (rows : List LeafRow) :
    (⟨index.refs.insert (toLex (ns, refName)) (some root), rows⟩ :
        LeafIndex Id).leafIndexRoot ns' name =
      if ns = ns' ∧ refName = name then some root
      else index.leafIndexRoot ns' name := by
  unfold leafIndexRoot
  rw [Std.ExtTreeMap.getElem?_insert]
  simp only [compare_eq_iff_eq, toLex_inj, Prod.mk.injEq]
  split <;> rfl

omit [Digest Id] in
theorem rowsOf_leafSetApply (refs : BTreeMap (String ×ₗ String) (Option Id))
    (patch : RowPatch String String) :
    (⟨refs, index.leafSetApply ns refName patch⟩ : LeafIndex Id).rowsOf ns' name =
      if ns = ns' ∧ refName = name then patch.apply (index.rowsOf ns refName)
      else index.rowsOf ns' name := by
  rw [leafSetApply, rowsOf_filter_append fun row hrow => by simp [hrow]]
  refine if_congr Iff.rfl ?_ rfl
  rw [RowPatch.apply, rowsOf, List.filter_map, List.filter_filter,
    List.filter_filter]
  congr 2
  refine List.filter_congr ?_
  intro row _
  by_cases hrow : row.isOf ns refName = true
  · simp [hrow]
  · simp [hrow]

end Sets

end LeafIndex

/-! ## Processes -/

/-- A difference that was read: the store it was read from, and the trees. -/
structure LeafDiff (Id : Type) [Digest Id] where
  objects : ObjectStore Id
  old : Id
  new : Id

/-- The store, its index, and the differences read so far. -/
structure Indexed (Id : Type) [Digest Id] where
  store : Storage Id
  index : LeafIndex Id
  diffs : List (LeafDiff Id)

abbrev IndexProgram (Id α : Type) [Digest Id] := Program Unit (Indexed Id) α

namespace IndexProgram

variable {α : Type}

def observe (f : Indexed Id → α) : IndexProgram Id α := .read fun _ s => f s

/-- A change of the index. -/
def change (f : LeafIndex Id → LeafIndex Id) : IndexProgram Id Unit :=
  .call fun _ s => ((), { s with index := f s.index })

/-- A change of the store. -/
def edit (f : Storage Id → Except (RepoError Id) α × Storage Id) :
    IndexProgram Id (Except (RepoError Id) α) :=
  .call fun _ s => ((f s.store).1, { s with store := (f s.store).2 })

variable (text : TextTables)

/-- `tree_diff_leaves` on the store as it is. -/
def diffLeaves (old new : Id) :
    IndexProgram Id (Except (TreeError Id) (RowPatch String String)) :=
  .call fun _ s =>
    (treeDiffLeaves text s.store.objects (some old) new,
      { s with diffs := s.diffs ++ [⟨s.store.objects, old, new⟩] })

/-- Move a set by the difference of two trees, if it can be read. -/
def advanceBy (ns refName : String) (old new : Id) : IndexProgram Id Unit := do
  match ← diffLeaves text old new with
  | .ok patch =>
      change fun index => (index.leafIndexAdvance ns refName old new patch).2
  | .error _ => pure ()

def updateLeafIndex (ns refName : String) (oldRoot : Option Id)
    (newTarget : Id) : IndexProgram Id Unit := do
  let built ← observe fun s => s.index.leafIndexIsBuilt ns refName
  if built then
    let commit ← observe fun s => s.store.getCommit newTarget
    match commit, oldRoot with
    | some newCommit, some oldRoot =>
        advanceBy text ns refName oldRoot newCommit.stateRoot
    | _, _ => pure ()
  else pure ()

end IndexProgram

/-- The state root a stored ref points at. -/
def Storage.refStateRoot (store : Storage Id) (ns refName : String) :
    Except (RepoError Id) (Option Id) := do
  let head ← liftStorage (store.getRef ns refName)
  .ok (head.bind store.rootOf)

namespace Repository

open IndexProgram Program

variable (repo : Repository) (text : TextTables)

/-- Unreadable refs and commits count as none. -/
def outgoingRoot (store : Storage Id) (ns refName : String) : Option Id :=
  match store.refStateRoot ns refName with
  | .ok root => root
  | .error _ => none

def guardedSetRefIndexed (refName : String) (newTarget : Id) :
    IndexProgram Id (Except (RepoError Id) Unit) :=
  (observe fun s => do
    refuseReservedRef refName
    repo.enforceEpochSeals s.store refName newTarget).attempt fun _ => do
  let oldRoot ← observe fun s =>
    outgoingRoot s.store repo.activeNamespace refName
  (edit fun store =>
    match store.setRef repo.activeNamespace refName newTarget with
    | .ok store' => (.ok (), store')
    | .error e => (.error (.storage e), store)).attempt fun _ => do
  updateLeafIndex text repo.activeNamespace refName oldRoot newTarget
  pure (.ok ())

/-- The compare-and-swap of a ref, and the index after it. -/
def casRefIndexed (ns refName : String) (expected newTarget : Id) :
    IndexProgram Id (Except (RepoError Id) Bool) := do
  let oldRoot ← observe fun s => s.store.rootOf expected
  (edit fun store =>
    match store.casRef ns refName expected newTarget with
    | .ok (moved, store') => (.ok moved, store')
    | .error e => (.error (.storage e), store)).attempt fun moved => do
  if moved then
    updateLeafIndex text ns refName oldRoot newTarget
    pure (.ok true)
  else pure (.ok false)

def advanceRefIndexed (refName : String) (expected newTarget : Id) :
    IndexProgram Id (Except (RepoError Id) Bool) :=
  (observe fun s => do
    refuseReservedRef refName
    repo.enforceEpochSeals s.store refName newTarget).attempt fun _ =>
  casRefIndexed text repo.activeNamespace refName expected newTarget

def fastForwardRefIndexed (ns refName : String) (expected newTarget : Id) :
    IndexProgram Id (Except (RepoError Id) Bool) :=
  casRefIndexed text ns refName expected newTarget

/-- Whether the set now reflects the tree. -/
def leafIndexReflects (ns refName : String) (root : Id) :
    IndexProgram Id (Except (RepoError Id) Bool) :=
  observe fun s => .ok (decide (s.index.leafIndexRoot ns refName = some root))

def leafIndexCatchUp (ns refName : String) (root : Id) :
    IndexProgram Id (Except (RepoError Id) Bool) := do
  match ← observe fun s => s.index.leafIndexRoot ns refName with
  | some indexed =>
      if indexed = root then pure (.ok true)
      else
        (observe fun s => s.store.refStateRoot ns refName).attempt fun newest =>
          -- A write landed after the root was read; the set is not moved back.
          if newest = some indexed then pure (.ok true)
          else do
            advanceBy text ns refName indexed root
            leafIndexReflects ns refName root
  | none =>
      match ← observe fun s => treeCollectLeaves text s.store.objects root with
      | .ok leaves => do
          change fun index => index.leafIndexBuildAt ns refName root leaves
          leafIndexReflects ns refName root
      | .error _ => leafIndexReflects ns refName root

variable (values : ValueQuery)

/-- The part of a search that the index serves; none when it cannot. -/
def searchIndexed (refName query : String) (limit : ℕ) (root : Id) :
    IndexProgram Id (Except (RepoError Id) (Option (List (String × String)))) :=
  (leafIndexCatchUp text repo.activeNamespace refName root).attempt
    fun current => do
  if current then
    let hits ← observe fun s =>
      s.index.leafIndexSearch repo.activeNamespace refName values
        (text.toLowercase query) (min (limit * 4) LIST_PATHS_MAX_RESULTS)
    pure (.ok (hits.map fun rows =>
      (rows.filter fun r => !pathIsSecret r.1).take limit))
  else pure (.ok none)

def searchValuesIndexed (refName query : String) (maxResults : Option ℕ) :
    IndexProgram Id (Except (RepoError Id) (List (String × String))) :=
  (observe fun s => repo.headRoot s.store refName).attempt fun root =>
  (repo.searchIndexed text values refName query (maxResults.getD 50) root).attempt
    fun served =>
  match served with
  | some hits => pure (.ok hits)
  | none => observe fun s => do
      let results ← liftTree (treeSearchValues text s.store.objects root query
        (maxResults.getD 50))
      .ok (results.filter fun r => !pathIsSecret r.1)

end Repository

end AgentStateGraph
