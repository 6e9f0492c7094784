import AgentStateGraph.Core.ContentKey
import AgentStateGraph.Repo.LeafIndex

/-!
# The leaf index over whole runs

Searches, ref moves and anything else that changes the store run interleaved.
As long as every difference that was read so far can be trusted, a set with a
recorded root holds the leaves of the tree at that root, whatever the store
still has of it.
-/

namespace AgentStateGraph

open Program IndexProgram LeafIndex

variable {Id : Type} [Digest Id]

/-- What a process does. -/
inductive IndexOp (Id : Type) [Digest Id] where
  | search (repo : Repository) (refName query : String)
      (maxResults : Option ℕ)
  | setRef (repo : Repository) (refName : String) (target : Id)
  | advance (repo : Repository) (refName : String) (expected target : Id)
  | fastForward (ns refName : String) (expected target : Id)
  /-- Everything that leaves the index alone: puts, commits, the creation and
  deletion of branches, sweeps. -/
  | edit (f : Storage Id → Storage Id)

section Runs

variable (text : TextTables) (values : ValueQuery)

def IndexOp.program :
    IndexOp Id → IndexProgram Id (Except (RepoError Id) (List (String × String)))
  | .search repo refName query maxResults =>
      repo.searchValuesIndexed text values refName query maxResults
  | .setRef repo refName target =>
      (repo.guardedSetRefIndexed text refName target).attempt fun _ =>
        pure (.ok [])
  | .advance repo refName expected target =>
      (repo.advanceRefIndexed text refName expected target).attempt fun _ =>
        pure (.ok [])
  | .fastForward ns refName expected target =>
      (Repository.fastForwardRefIndexed text ns refName expected
        target).attempt fun _ => pure (.ok [])
  | .edit f => IndexProgram.edit fun store => (.ok [], f store)

/-- Every difference that was read can be trusted. -/
def Indexed.Trusted (s : Indexed Id) : Prop :=
  ∀ d ∈ s.diffs, DiffSound d.objects d.old d.new

/-- A set with a recorded root holds the leaves of the tree at the root. -/
def Indexed.Reflects (s : Indexed Id) : Prop :=
  ∀ ns refName root, s.index.leafIndexRoot ns refName = some root →
    (s.index.rowsOf ns refName).Perm (treeLeaves text root)

/-! ## The contract -/

def indexContract : Contract (Indexed Id) where
  invariant s := s.Trusted → s.Reflects text
  guarantee s t := s.diffs ⊆ t.diffs
  refl _ := List.Subset.refl _
  trans h h' := List.Subset.trans h h'

variable {text} {α β : Type} {s : Indexed Id}

/-- A process that keeps the contract, whatever it returns. -/
abbrev Keeps (text : TextTables) (p : IndexProgram Id α) (s : Indexed Id) : Prop :=
  Steady (indexContract text) p s

theorem keeps_observe (f : Indexed Id → α) : Keeps text (observe f) s :=
  fun _ t _ ht => ⟨ht, (indexContract text).refl t, steady_pure _⟩

theorem keeps_edit (f : Storage Id → Except (RepoError Id) α × Storage Id) :
    Keeps text (IndexProgram.edit f) s :=
  fun _ _ _ ht => ⟨ht, List.Subset.refl _, steady_pure _⟩

/-! ## Moving a set -/

theorem reflects_buildAt {t : Indexed Id} (ht : t.Reflects text)
    {objects : ObjectStore Id} {root : Id} {leaves : List (String × String)}
    (hleaves : treeCollectLeaves text objects root = .ok leaves)
    (ns refName : String) :
    Indexed.Reflects text
      { t with index := t.index.leafIndexBuildAt ns refName root leaves } := by
  intro ns' name r hr
  simp only [leafIndexBuildAt, leafIndexRoot_insert] at hr
  simp only [rowsOf_leafIndexBuildAt]
  split at hr
  next hsame =>
    rw [if_pos hsame, ← Option.some.inj hr, treeCollectLeaves_eq_ok hleaves]
  next hother =>
    rw [if_neg hother]
    exact ht ns' name r hr

theorem reflects_advance {t : Indexed Id} (ht : t.Reflects text)
    {objects : ObjectStore Id} {old new : Id} {patch : RowPatch String String}
    (hpatch : treeDiffLeaves text objects (some old) new = .ok patch)
    (hsound : DiffSound objects old new) (ns refName : String) :
    Indexed.Reflects text
      { t with
        index := (t.index.leafIndexAdvance ns refName old new patch).2 } := by
  unfold leafIndexAdvance
  split
  next hroot =>
    intro ns' name r hr
    simp only [leafIndexRoot_insert] at hr
    simp only [rowsOf_leafSetApply]
    split at hr
    next hsame =>
      rw [if_pos hsame, ← Option.some.inj hr]
      exact treeDiffLeaves_apply hpatch hsound (ht ns refName old hroot)
    next hother =>
      rw [if_neg hother]
      exact ht ns' name r hr
  next => exact ht

theorem Indexed.Trusted.mono {s t : Indexed Id} (h : t.Trusted)
    (hst : s.diffs ⊆ t.diffs) : s.Trusted :=
  fun d hd => h d (hst hd)

theorem keeps_advanceBy (ns refName : String) (old new : Id) :
    Keeps text (advanceBy text ns refName old new) s := by
  refine safe_call fun _ t _ ht => ?_
  have hgrows : t.diffs ⊆ t.diffs ++ [⟨t.store.objects, old, new⟩] :=
    List.subset_append_left _ _
  refine ⟨fun htrust => ht (htrust.mono hgrows), hgrows, ?_⟩
  dsimp only
  cases hpatch : treeDiffLeaves text t.store.objects (some old) new with
  | error e => exact steady_pure _
  | ok patch =>
      -- By the time the set moves, the difference is among those read.
      intro _ u hu hinv
      refine ⟨fun htrust => ?_, List.Subset.refl _, steady_pure _⟩
      have hsound : DiffSound t.store.objects old new :=
        htrust ⟨t.store.objects, old, new⟩
          (hu (List.mem_append_right _ (by simp)))
      exact reflects_advance (hinv htrust) hpatch hsound ns refName

theorem keeps_updateLeafIndex (ns refName : String) (oldRoot : Option Id)
    (newTarget : Id) :
    Keeps text (updateLeafIndex text ns refName oldRoot newTarget) s := by
  refine (keeps_observe _).bind fun built s => ?_
  split
  · refine (keeps_observe _).bind fun commit s => ?_
    split
    · exact keeps_advanceBy _ _ _ _
    · exact steady_pure _
  · exact steady_pure _

theorem keeps_leafIndexCatchUp (ns refName : String) (root : Id) :
    Keeps text (Repository.leafIndexCatchUp text ns refName root) s := by
  have hreflects : ∀ s, Keeps text
      (Repository.leafIndexReflects ns refName root) s :=
    fun s => keeps_observe _
  refine (keeps_observe _).bind fun indexed s => ?_
  cases indexed with
  | some indexed =>
      dsimp only
      split
      · exact steady_pure _
      · refine (keeps_observe _).attempt fun newest s => ?_
        split
        · exact steady_pure _
        · exact (keeps_advanceBy _ _ _ _).bind fun _ s => hreflects s
  | none =>
      refine safe_read fun _ t _ _ => ?_
      dsimp only
      cases hleaves : treeCollectLeaves text t.store.objects root with
      | error e => exact hreflects t
      | ok leaves =>
          refine safe_call fun _ u _ hinv => ?_
          refine ⟨fun htrust => ?_, List.Subset.refl _, hreflects _⟩
          exact reflects_buildAt (hinv htrust) hleaves ns refName

theorem keeps_casRefIndexed (ns refName : String) (expected newTarget : Id) :
    Keeps text
      (Repository.casRefIndexed text ns refName expected newTarget) s := by
  refine (keeps_observe _).bind fun oldRoot s => ?_
  refine (keeps_edit _).attempt fun moved s => ?_
  split
  · exact (keeps_updateLeafIndex _ _ _ _).bind fun _ s => steady_pure _
  · exact steady_pure _

theorem keeps_searchIndexed (repo : Repository) (refName query : String)
    (limit : ℕ) (root : Id) :
    Keeps text (repo.searchIndexed text values refName query limit root) s := by
  refine (keeps_leafIndexCatchUp _ _ _).attempt fun current s => ?_
  split
  · exact (keeps_observe _).bind fun hits s => steady_pure _
  · exact steady_pure _

theorem keeps_program (op : IndexOp Id) :
    Keeps text (op.program text values) s := by
  cases op with
  | search repo refName query maxResults =>
      refine (keeps_observe _).attempt fun root s => ?_
      refine (keeps_searchIndexed values repo _ _ _ _).attempt fun served s => ?_
      cases served with
      | some hits => exact steady_pure _
      | none => exact keeps_observe _
  | setRef repo refName target =>
      refine Steady.attempt ?_ fun _ s => steady_pure _
      refine (keeps_observe _).attempt fun _ s => ?_
      refine (keeps_observe _).bind fun oldRoot s => ?_
      refine (keeps_edit _).attempt fun _ s => ?_
      exact (keeps_updateLeafIndex _ _ _ _).bind fun _ s => steady_pure _
  | advance repo refName expected target =>
      refine Steady.attempt ?_ fun _ s => steady_pure _
      exact (keeps_observe _).attempt fun _ s => keeps_casRefIndexed _ _ _ _
  | fastForward ns refName expected target =>
      refine Steady.attempt ?_ fun _ s => steady_pure _
      exact keeps_casRefIndexed _ _ _ _
  | edit f => exact keeps_edit fun store => (.ok [], f store)

/-! ## Searching alone -/

section Alone

variable {repo : Repository} {refName query : String} {limit : ℕ} {root : Id}
  {after : Indexed Id}

theorem refStateRoot_of_headRoot {store : Storage Id}
    (h : repo.headRoot store refName = .ok root) :
    store.refStateRoot repo.activeNamespace refName = .ok (some root) ∨
      store.refStateRoot repo.activeNamespace refName = .ok none := by
  obtain ⟨head, hhead, hcommit⟩ := Except.bind_eq_ok_iff.mp h
  unfold Repository.resolveRef at hhead
  unfold Storage.refStateRoot
  split at hhead
  next => contradiction
  next id hid =>
    cases hhead
    left
    rw [hid, Except.ok_bind, Option.bind_some]
    split at hcommit
    next c hc =>
      cases hcommit
      rw [Storage.rootOf_of_getCommit hc]
    next => contradiction
  next hnone =>
    right
    rw [hnone]
    rfl

/-- A set that can answer for the current tree of a ref is at that tree. -/
theorem leafIndexRoot_of_catchUp {ns : String}
    (href : s.store.refStateRoot ns refName = .ok (some root) ∨
      s.store.refStateRoot ns refName = .ok none)
    (h : (Repository.leafIndexCatchUp text ns refName root).alone () s =
      (.ok true, after)) :
    after.index.leafIndexRoot ns refName = some root := by
  have hend : ∀ t : Indexed Id,
      (Repository.leafIndexReflects ns refName root).alone () t =
        (.ok true, after) → after.index.leafIndexRoot ns refName = some root := by
    intro t ht
    simp only [Repository.leafIndexReflects, observe, alone_read,
      Prod.mk.injEq, Except.ok.injEq, decide_eq_true_eq] at ht
    rw [← ht.2]
    exact ht.1
  unfold Repository.leafIndexCatchUp at h
  rw [alone_bind] at h
  simp only [observe, alone_read] at h
  cases hindexed : s.index.leafIndexRoot ns refName with
  | none =>
      rw [hindexed] at h
      simp only [alone_bind, alone_read] at h
      cases hleaves : treeCollectLeaves text s.store.objects root with
      | error e =>
          rw [hleaves] at h
          exact hend _ h
      | ok leaves =>
          rw [hleaves, alone_bind] at h
          exact hend _ h
  | some indexed =>
      rw [hindexed] at h
      dsimp only at h
      split at h
      next hsame =>
        cases h
        rw [hindexed, hsame]
      next hne =>
        simp only [Program.attempt, alone_bind, alone_read] at h
        rcases href with hroot | hnone
        · rw [hroot] at h
          dsimp only at h
          rw [if_neg (by simpa using Ne.symm hne), alone_bind] at h
          exact hend _ h
        · rw [hnone] at h
          dsimp only at h
          rw [if_neg (by simp), alone_bind] at h
          exact hend _ h

theorem searchIndexed_alone {hits : List (String × String)}
    (hinv : (indexContract text).invariant s)
    (hroot : repo.headRoot s.store refName = .ok root)
    (h : (repo.searchIndexed text values refName query limit root).alone () s =
      (.ok (some hits), after)) (htrust : after.Trusted) :
    ∃ found : List (String × String),
      found.Perm ((treeLeaves text root).filter fun row =>
        values.isMatch (text.toLowercase query) row.2) ∧
      hits = (((found.take (min (limit * 4) LIST_PATHS_MAX_RESULTS)).filter
        fun r => !pathIsSecret r.1).take limit) := by
  unfold Repository.searchIndexed Program.attempt at h
  rw [alone_bind] at h
  generalize hcatch : (Repository.leafIndexCatchUp text repo.activeNamespace
    refName root).alone () s = out at h
  obtain ⟨answer, mid⟩ := out
  have hmid := ((@keeps_leafIndexCatchUp Id _ text s repo.activeNamespace
    refName root).alone hinv ()).1
  rw [hcatch] at hmid
  cases answer with
  | error e => cases h
  | ok current =>
      dsimp only at h
      cases current with
      | false => cases h
      | true =>
          rw [if_pos rfl, alone_bind] at h
          simp only [observe, alone_read, alone_pure, Prod.mk.injEq,
            Except.ok.injEq, Option.map_eq_some_iff] at h
          obtain ⟨⟨rows, hrows, rfl⟩, rfl⟩ := h
          have hat := leafIndexRoot_of_catchUp
            (refStateRoot_of_headRoot hroot) hcatch
          have hperm := hmid htrust _ _ _ hat
          unfold leafIndexSearch at hrows
          split at hrows
          · rw [← Option.some.inj hrows]
            exact ⟨_, (values.order_perm _).trans (hperm.filter _), rfl⟩
          · contradiction

end Alone

/-! ## Runs -/

end Runs

/-! ## A branch of a name that was used before -/

namespace Renewed

/-- Lower-case texts and no numbers. -/
def tables : TextTables := ⟨id, fun _ => ""⟩

def substring : ValueQuery where
  isMatch query value := contains value query
  order rows := rows
  order_perm _ := .refl _

def leaf (text : String) : Object ContentKey := .string text

/-- A tree with the one leaf `/x`. -/
def tree (text : String) : Object ContentKey :=
  .map ((∅ : BTreeMap String ContentKey).insert "x" (leaf text).id)

def options : CommitOptions where
  agentId := "agent"
  intent := ⟨"i", .checkpoint, "write", [], none⟩
  reasoning := none
  confidence := none
  provenance := ""

def commit (text : String) (now : ℤ) : Commit ContentKey :=
  CommitBuilder.build (tree text).id [] options now

def oldObjects : ObjectStore ContentKey :=
  AddressedMap.putAll AddressedMap.empty [leaf "old", tree "old"]

def newObjects : ObjectStore ContentKey :=
  AddressedMap.putAll AddressedMap.empty [leaf "new", tree "new"]

def bothObjects : ObjectStore ContentKey :=
  AddressedMap.putAll oldObjects [leaf "new", tree "new"]

/-- Branch `b` at the old tree. -/
def store : Storage ContentKey :=
  ({ Storage.new with
      objects := oldObjects
      commits := AddressedMap.put AddressedMap.empty (commit "old" 0) } :
    Storage ContentKey).putRef "default" "b" (commit "old" 0).id

/-- Branch `b` is deleted, its tree is swept or not, and a branch of that
name is made at a new tree. -/
def renew (objects : ObjectStore ContentKey) (s : Storage ContentKey) :
    Storage ContentKey :=
  ({ s with
      objects := objects
      commits := s.commits.put (commit "new" 1) }).putRef "default" "b"
    (commit "new" 1).id

/-- A search, the new branch, and a search again. -/
def ops (objects : ObjectStore ContentKey) : ℕ → IndexOp ContentKey
  | 1 => .edit (renew objects)
  | _ => .search .new "b" "old" none

def schedule : List (ℕ × Unit) :=
  (List.replicate 6 0 ++ [1] ++ List.replicate 7 2).map fun w => (w, ())

def reached (objects : ObjectStore ContentKey) : Indexed ContentKey :=
  (Config.run ⟨⟨store, .empty, []⟩,
    fun w => (ops objects w).program tables substring⟩ schedule).shared

theorem oldPaths_nodup : (treeAtomPaths (tree "old").id).Nodup := by
  have hget : oldObjects.get (tree "old").id = some (tree "old") := by
    decide
  have hwalk : walkLeaves atomPath oldObjects (LIST_PATHS_HARD_CEILING + 1)
      (tree "old") "" = .ok ["/x"] := by decide
  rw [treeAtomPaths_eq hget hwalk]
  decide

set_option maxRecDepth 16384 in
theorem trusted_both : (reached bothObjects).Trusted := by
  have hfinds : ((reached bothObjects).diffs.all fun d =>
      diffFinds d.objects (LIST_PATHS_HARD_CEILING + 1) (some d.old)
        (some d.new)) = true := by decide
  have hold : ((reached bothObjects).diffs.all fun d =>
      d.old = (tree "old").id) = true := by decide
  intro d hd
  refine ⟨List.all_eq_true.mp hfinds d hd, ?_⟩
  have hid := List.all_eq_true.mp hold d hd
  rw [decide_eq_true_eq] at hid
  rw [hid]
  exact oldPaths_nodup

end Renewed

end AgentStateGraph
