import AgentStateGraph.Core.MergeStability
import AgentStateGraph.Repo.Writes

/-!
# Merging branches

A merge resolves its two refs, finds their merge base and merges the state
trees.  It lands a merge commit with both heads as parents, or moves the
target ref where the trees already decide the result.
-/

namespace AgentStateGraph

variable {Id : Type} [Digest Id]

/-! ## The integrity gate -/

/-- Pops a walk over a state tree can make. -/
def treeFuel (objects : ObjectStore Id) : ℕ :=
  (objects.entries.toList.map fun e => e.2.childIds.length).sum + 2

/-- The walk of `first_missing_reachable`: the first object that is referenced
but absent. -/
def missingLoop (objects : ObjectStore Id) : ℕ → List Id → List Id → Option Id
  | 0, _, _ => none
  | _ + 1, [], _ => none
  | fuel + 1, id :: stack, seen =>
      if id ∈ seen then missingLoop objects fuel stack seen
      else
        match objects.get id with
        | none => some id
        | some o =>
            missingLoop objects fuel (o.childIds.reverse ++ stack) (id :: seen)

def firstMissingReachable (objects : ObjectStore Id) (root : Id) : Option Id :=
  missingLoop objects (treeFuel objects) [root] []

/-! ## Computing a merge -/

structure MergeComputation (Id : Type) where
  sourceCommitId : Id
  targetCommitId : Id
  sourceStateRoot : Id
  targetStateRoot : Id
  result : MergeResult Id
  created : List (Object Id)

/-- The stored commit, or an error that names it. -/
def Storage.requireCommit (store : Storage Id) (id : Id) (name : String) :
    Except (RepoError Id) (Commit Id) :=
  match store.getCommit id with
  | some c => .ok c
  | none => .error (.refNotFound name)

/-- The merge base, or an error for disjoint histories. -/
def Storage.mergeBase (store : Storage Id) (a b : Id) :
    Except (RepoError Id) Id :=
  match findCommonAncestor store.commits a b with
  | some base => .ok base
  | none => .error (.refNotFound "no common ancestor between refs")

/-- The tree merge, a missing object being an integrity violation. -/
def mergeTrees (objects : ObjectStore Id) (base ours theirs root : Id) :
    Except (RepoError Id) (MergeResult Id × List (Object Id)) :=
  match tryThreeWayMergeCollect objects base ours theirs with
  | .ok r => .ok r
  | .error missing => .error (.integrityViolation root missing)

/-- The entries at the top of a state root. -/
def topLevelEntries (objects : ObjectStore Id) (root : Id) :
    BTreeMap String Id :=
  match objects.get root with
  | some o => o.mapEntries
  | none => ∅

/-- The top-level entries that a merge would take from the target. -/
def topLevelRemovals (objects : ObjectStore Id) (comp : MergeComputation Id) :
    List String :=
  let merged := match comp.result with
    | .success o | .conflicts o _ => o.mapEntries
    | .fastForward root => topLevelEntries objects root
  (topLevelEntries objects comp.targetStateRoot).keys.filter (· ∉ merged)

namespace Repository

variable (repo : Repository)

def computeMerge (store : Storage Id) (source target : String) :
    Except (RepoError Id) (MergeComputation Id) := do
  let sourceCommitId ← repo.resolveRef store source
  let targetCommitId ← repo.resolveRef store target
  let sourceCommit ← store.requireCommit sourceCommitId source
  let targetCommit ← store.requireCommit targetCommitId target
  let baseCommitId ← store.mergeBase sourceCommitId targetCommitId
  let baseCommit ← store.requireCommit baseCommitId "base"
  let (result, created) ← mergeTrees store.objects baseCommit.stateRoot
    targetCommit.stateRoot sourceCommit.stateRoot baseCommit.stateRoot
  .ok {
    sourceCommitId := sourceCommitId
    targetCommitId := targetCommitId
    sourceStateRoot := sourceCommit.stateRoot
    targetStateRoot := targetCommit.stateRoot
    result := result
    created := created }

/-- Move the target to `commit`; `none` when it had moved meanwhile. -/
def landMerge (store : Storage Id) (target : String) (expected : Id)
    (isBranch : Bool) (commit : Id) : Outcome Id (Option Id) :=
  match repo.moveRef store target expected isBranch commit with
  | .error e => (.error e, store)
  | .ok (moved, store') => (.ok (if moved then some commit else none), store')

/-- Store the merged tree and, when it reads back whole, its commit. -/
def landMerged (store : Storage Id) (target : String)
    (comp : MergeComputation Id) (isBranch : Bool) (merged : Object Id)
    (options : CommitOptions) (now : ℤ) : Outcome Id (Option Id) :=
  let stored :=
    store.withObjects (store.objects.putAll (comp.created ++ [merged]))
  match firstMissingReachable stored.objects merged.id with
  | some missing => (.error (.integrityViolation merged.id missing), stored)
  | none =>
      match repo.createCommit stored merged.id
          [comp.targetCommitId, comp.sourceCommitId] options now with
      | (.error e, committed) => (.error e, committed)
      | (.ok commit, committed) =>
          repo.landMerge committed target comp.targetCommitId isBranch commit.id

/-- One attempt of a merge. -/
def tryMergeChecked (source target : String) (options : CommitOptions)
    (allowDeletions : Bool) (now : ℤ) (store : Storage Id) :
    Outcome Id (Option Id) :=
  match repo.headForWrite store target with
  | .error e => (.error e, store)
  | .ok (_, targetIsBranch) =>
      match repo.computeMerge store source target with
      | .error e => (.error e, store)
      | .ok comp =>
          let removed := topLevelRemovals store.objects comp
          if !allowDeletions && !removed.isEmpty then
            (.error (.mergeWouldDelete removed), store)
          else
            match comp.result with
            | .success merged =>
                repo.landMerged store target comp targetIsBranch merged options
                  now
            | .fastForward ffId =>
                let ffCommit :=
                  if ffId = comp.sourceStateRoot then comp.sourceCommitId
                  else comp.targetCommitId
                repo.landMerge store target comp.targetCommitId targetIsBranch
                  ffCommit
            | .conflicts _ conflicts => (.error (.mergeConflicts conflicts), store)

def mergeChecked (store : Storage Id) (source target : String)
    (options : CommitOptions) (allowDeletions : Bool) (now : ℕ → ℤ) :
    Outcome Id Id :=
  casLoop (fun i => repo.tryMergeChecked source target options allowDeletions
    (now i)) store

def merge (store : Storage Id) (source target : String)
    (options : CommitOptions) (now : ℕ → ℤ) : Outcome Id Id :=
  repo.mergeChecked store source target options true now

/-! ## What a merge does -/

variable {store : Storage Id} {target : String}

theorem requireCommit_eq_ok_iff {id : Id} {name : String} {c : Commit Id} :
    store.requireCommit id name = .ok c ↔ store.getCommit id = some c := by
  unfold Storage.requireCommit
  cases store.getCommit id <;> simp

theorem computeMerge_eq_ok {source : String} {comp : MergeComputation Id}
    (h : repo.computeMerge store source target = .ok comp) :
    ∃ baseCommitId baseRoot,
      repo.resolveRef store source = .ok comp.sourceCommitId ∧
      repo.resolveRef store target = .ok comp.targetCommitId ∧
      store.rootOf comp.sourceCommitId = some comp.sourceStateRoot ∧
      store.rootOf comp.targetCommitId = some comp.targetStateRoot ∧
      findCommonAncestor store.commits comp.sourceCommitId
        comp.targetCommitId = some baseCommitId ∧
      store.rootOf baseCommitId = some baseRoot ∧
      tryThreeWayMergeCollect store.objects baseRoot comp.targetStateRoot
        comp.sourceStateRoot = .ok (comp.result, comp.created) := by
  obtain ⟨s, hs, h⟩ := Except.bind_eq_ok_iff.mp h
  obtain ⟨t, ht, h⟩ := Except.bind_eq_ok_iff.mp h
  obtain ⟨sc, hsc, h⟩ := Except.bind_eq_ok_iff.mp h
  obtain ⟨tc, htc, h⟩ := Except.bind_eq_ok_iff.mp h
  obtain ⟨b, hb, h⟩ := Except.bind_eq_ok_iff.mp h
  obtain ⟨bc, hbc, h⟩ := Except.bind_eq_ok_iff.mp h
  obtain ⟨⟨result, created⟩, hmerge, h⟩ := Except.bind_eq_ok_iff.mp h
  simp only [Except.ok.injEq] at h
  subst h
  have hbase : findCommonAncestor store.commits s t = some b := by
    unfold Storage.mergeBase at hb
    split at hb
    next base heq =>
      simp only [Except.ok.injEq] at hb
      rw [heq, hb]
    next => contradiction
  have htree : tryThreeWayMergeCollect store.objects bc.stateRoot tc.stateRoot
      sc.stateRoot = .ok (result, created) := by
    unfold mergeTrees at hmerge
    split at hmerge
    next r heq =>
      simp only [Except.ok.injEq] at hmerge
      rw [heq, hmerge]
    next => contradiction
  refine ⟨b, bc.stateRoot, hs, ht, ?_, ?_, hbase, ?_, htree⟩
  · simp [Storage.rootOf, requireCommit_eq_ok_iff.mp hsc]
  · simp [Storage.rootOf, requireCommit_eq_ok_iff.mp htc]
  · simp [Storage.rootOf, requireCommit_eq_ok_iff.mp hbc]

theorem landMerge_eq_ok {store' : Storage Id} {expected commit id : Id}
    {isBranch : Bool}
    (h : repo.landMerge store target expected isBranch commit =
      (.ok (some id), store')) :
    id = commit ∧ store' = store.putRef repo.activeNamespace target commit := by
  unfold landMerge at h
  split at h
  next => simp at h
  next moved kept hmove =>
    simp only [Prod.mk.injEq, Except.ok.injEq] at h
    obtain ⟨hmoved, rfl⟩ := h
    cases moved with
    | false => simp at hmoved
    | true =>
        simp only [if_true, Option.some.injEq] at hmoved
        exact ⟨hmoved.symm, (repo.moveRef_eq_ok_true hmove).1⟩

/-- A move whose ref stands at `expected` is not lost. -/
theorem landMerge_ne_none {store' : Storage Id} {expected commit : Id}
    {isBranch : Bool} (hbranch : isBranch = true →
      store.refAt repo.activeNamespace target = some expected) :
    repo.landMerge store target expected isBranch commit ≠
      (.ok none, store') := by
  intro h
  unfold landMerge at h
  split at h
  next => simp at h
  next moved kept hmove =>
    simp only [Prod.mk.injEq, Except.ok.injEq] at h
    cases moved with
    | true => simp at h
    | false =>
        unfold moveRef at hmove
        split at hmove
        next hb =>
          rcases repo.advanceRef_eq_ok hmove with ⟨ht, -, -⟩ | ⟨-, hne, -⟩
          · simp at ht
          · exact hne (hbranch hb)
        next =>
          obtain ⟨s, -, hmove⟩ := Except.bind_eq_ok_iff.mp hmove
          simp at hmove

end Repository

/-- How a merge moved its target: to a new commit over both heads, or to one
of the heads. -/
inductive MergeMove (ns target : String) (comp : MergeComputation Id)
    (s t : Storage Id) (id : Id) : Prop where
  | merged (stored : Storage Id) (c : Commit Id) (m : Object Id)
      (hresult : comp.result = .success m) (hadds : s.AddsObjects stored)
      (hcreated : ∀ o ∈ comp.created, stored.getObject o.id = some o)
      (hparents : c.parents = [comp.targetCommitId, comp.sourceCommitId])
      (hroot : c.stateRoot = m.id) (hid : id = c.id)
      (hlands : stored.Lands ns target c t)
  | fastForward (ffId : Id) (hresult : comp.result = .fastForward ffId)
      (hid : id = if ffId = comp.sourceStateRoot then comp.sourceCommitId
        else comp.targetCommitId)
      (hmove : t = s.putRef ns target id)

namespace Repository

variable (repo : Repository)

variable {store store' : Storage Id} {source target : String}
  {options : CommitOptions} {allowDeletions : Bool} {now : ℤ} {e : RepoError Id}

theorem tryMergeChecked_eq_ok {id : Id}
    (h : repo.tryMergeChecked source target options allowDeletions now store =
      (.ok (some id), store')) :
    ∃ head comp,
      repo.headForWrite store target = .ok head ∧
      repo.computeMerge store source target = .ok comp ∧
      MergeMove repo.activeNamespace target comp store store' id := by
  unfold tryMergeChecked at h
  split at h
  next => simp at h
  next head isBranch hhead =>
    split at h
    next => simp at h
    next comp hcomp =>
      refine ⟨(head, isBranch), comp, hhead, hcomp, ?_⟩
      simp only at h
      split at h
      next => simp at h
      next =>
        split at h
        next merged hresult =>
          unfold landMerged at h
          simp only at h
          split at h
          next => simp at h
          next =>
            split at h
            next => simp at h
            next c committed hcreate =>
              obtain ⟨rfl, hadds⟩ := repo.createCommit_eq_ok hcreate
              obtain ⟨rfl, rfl⟩ := repo.landMerge_eq_ok h
              exact .merged _ _ merged hresult
                (Storage.addsObjects_withObjects
                  (ObjectStore.le_putAll store.objects _))
                (fun o ho => AddressedMap.get_putAll_of_mem Object.id_injective
                  store.objects (List.mem_append_left _ ho))
                rfl rfl rfl (hadds.lands _ _)
        next ffId hresult =>
          obtain ⟨rfl, rfl⟩ := repo.landMerge_eq_ok h
          exact .fastForward ffId hresult rfl rfl
        next => simp at h

theorem tryMergeChecked_ne_none :
    repo.tryMergeChecked source target options allowDeletions now store ≠
      (.ok none, store') := by
  intro h
  unfold tryMergeChecked at h
  split at h
  next => simp at h
  next head isBranch hhead =>
    split at h
    next => simp at h
    next comp hcomp =>
      obtain ⟨-, -, -, htarget, -⟩ := repo.computeMerge_eq_ok hcomp
      have hbranch : isBranch = true →
          store.refAt repo.activeNamespace target =
            some comp.targetCommitId := by
        intro hb
        rcases repo.headForWrite_eq_ok hhead with ⟨-, href⟩ | ⟨hf, -, -⟩
        · have hres := repo.headForWrite_resolveRef hhead
          rw [htarget] at hres
          simp only [Except.ok.injEq] at hres
          rw [href, hres]
        · simp [hf] at hb
      simp only at h
      split at h
      next => simp at h
      next =>
        split at h
        next merged hresult =>
          unfold landMerged at h
          simp only at h
          split at h
          next => simp at h
          next =>
            split at h
            next => simp at h
            next c committed hcreate =>
              obtain ⟨-, hadds⟩ := repo.createCommit_eq_ok hcreate
              refine repo.landMerge_ne_none (fun hb => ?_) h
              rw [← hbranch hb]
              simp only [Storage.refAt, hadds.refs]
              rfl
        next ffId hresult => exact repo.landMerge_ne_none hbranch h
        next => simp at h

theorem landMerge_eq_error {expected commit : Id} {isBranch : Bool}
    (h : repo.landMerge store target expected isBranch commit =
      (.error e, store')) : store' = store := by
  unfold landMerge at h
  split at h
  next => exact (Prod.mk.inj h).2.symm
  next => simp at h

theorem tryMergeChecked_eq_error
    (h : repo.tryMergeChecked source target options allowDeletions now store =
      (.error e, store')) : store.Grows store' := by
  have hsame : ∀ {r : Except (RepoError Id) (Option Id)} {s : Storage Id},
      (r, s) = (.error e, store') → store.Grows s → store.Grows store' :=
    fun h hgrows => (Prod.mk.inj h).2 ▸ hgrows
  unfold tryMergeChecked at h
  split at h
  next => exact hsame h (Storage.Grows.refl store)
  next head isBranch hhead =>
    split at h
    next => exact hsame h (Storage.Grows.refl store)
    next comp hcomp =>
      simp only at h
      split at h
      next => exact hsame h (Storage.Grows.refl store)
      next =>
        split at h
        next merged hresult =>
          have hadds : store.Grows (store.withObjects
              (store.objects.putAll (comp.created ++ [merged]))) :=
            (Storage.addsObjects_withObjects
              (ObjectStore.le_putAll store.objects _)).grows
          unfold landMerged at h
          simp only at h
          split at h
          next => exact hsame h hadds
          next =>
            have hcommit := (repo.createCommit_addsCommit (store.withObjects
              (store.objects.putAll (comp.created ++ [merged]))) merged.id
              [comp.targetCommitId, comp.sourceCommitId] options now).grows
            split at h
            next e' committed hcreate =>
              rw [hcreate] at hcommit
              exact hsame h (hadds.trans hcommit)
            next c committed hcreate =>
              rw [hcreate] at hcommit
              rw [repo.landMerge_eq_error h]
              exact hadds.trans hcommit
        next ffId hresult =>
          rw [repo.landMerge_eq_error h]
          exact Storage.Grows.refl store
        next => exact hsame h (Storage.Grows.refl store)

theorem mergeChecked_eq_error {now : ℕ → ℤ}
    (h : repo.mergeChecked store source target options allowDeletions now =
      (.error e, store')) : store.Grows store' :=
  repo.tryMergeChecked_eq_error
    (casLoop_eq_error (fun _ => repo.tryMergeChecked_ne_none) h)

theorem mergeChecked_eq_ok {now : ℕ → ℤ} {id : Id}
    (h : repo.mergeChecked store source target options allowDeletions now =
      (.ok id, store')) :
    ∃ head comp,
      repo.headForWrite store target = .ok head ∧
      repo.computeMerge store source target = .ok comp ∧
      MergeMove repo.activeNamespace target comp store store' id :=
  repo.tryMergeChecked_eq_ok
    (casLoop_eq_ok (fun _ => repo.tryMergeChecked_ne_none) h)

end Repository

end AgentStateGraph
