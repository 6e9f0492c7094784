import AgentStateGraph.Core.MergeReads
import AgentStateGraph.Gc.Sweep
import AgentStateGraph.Repo.Integrity

/-!
# Merging after a sweep

A sweep keeps the trees of the ref tips, so a merge after it finds its two
sides.  Of the merge base it finds what another root happens to keep.
-/

namespace AgentStateGraph

variable {Id : Type} [Digest Id]

/-! ## What does not read objects -/

section Objects

variable (store : Storage Id) (objects : ObjectStore Id)

theorem Storage.setRef_withObjects (ns name : String) (target : Id) :
    (store.withObjects objects).setRef ns name target =
      (store.setRef ns name target).map fun s => s.withObjects objects := by
  by_cases hns : ns ∈ store.namespaces
  · have hns' : ns ∈ (store.withObjects objects).namespaces := hns
    rw [Storage.setRef, Storage.setRef, if_pos hns, if_pos hns']
    rfl
  · have hns' : ns ∉ (store.withObjects objects).namespaces := hns
    rw [Storage.setRef, Storage.setRef, if_neg hns, if_neg hns']
    rfl

theorem Storage.casRef_withObjects (ns name : String) (expected new : Id) :
    (store.withObjects objects).casRef ns name expected new =
      (store.casRef ns name expected new).map fun r =>
        (r.1, r.2.withObjects objects) := by
  by_cases hns : ns ∈ store.namespaces
  · have hns' : ns ∈ (store.withObjects objects).namespaces := hns
    rw [Storage.casRef, Storage.casRef, if_pos hns, if_pos hns']
    by_cases hexp : store.refAt ns name = some expected
    · have hexp' : (store.withObjects objects).refAt ns name =
          some expected := hexp
      rw [if_pos hexp, if_pos hexp']
      rfl
    · have hexp' : ¬ (store.withObjects objects).refAt ns name =
          some expected := hexp
      rw [if_neg hexp, if_neg hexp']
      rfl
  · have hns' : ns ∉ (store.withObjects objects).namespaces := hns
    rw [Storage.casRef, Storage.casRef, if_neg hns, if_neg hns']
    rfl

theorem Storage.setCommitEpoch_withObjects (commit : Id) (epochId : String) :
    (store.withObjects objects).setCommitEpoch commit epochId =
      (store.setCommitEpoch commit epochId).map fun s =>
        s.withObjects objects := by
  simp only [Storage.setCommitEpoch, Storage.withObjects]
  cases store.epochs.find? fun e => e.id = epochId with
  | none => rfl
  | some epoch =>
      by_cases hclosed : epoch.status = .sealed ∨ epoch.status = .archived
      · simp only [if_pos hclosed]
        rfl
      · simp only [if_neg hclosed]
        rfl

theorem Storage.setCommitSession_withObjects (commit : Id)
    (sessionId : String) :
    (store.withObjects objects).setCommitSession commit sessionId =
      (store.setCommitSession commit sessionId).map fun s =>
        s.withObjects objects := by
  simp only [Storage.setCommitSession, Storage.withObjects]
  cases store.sessions[sessionId]? with
  | none => rfl
  | some status => cases status <;> rfl

namespace Repository

variable (repo : Repository)

theorem associateEpoch_withObjects (commit : Id) :
    repo.associateEpoch (store.withObjects objects) commit =
      (repo.associateEpoch store commit).map fun s =>
        s.withObjects objects := by
  unfold associateEpoch
  cases repo.activeEpoch with
  | none => rfl
  | some e => exact store.setCommitEpoch_withObjects objects commit e

theorem associateSession_withObjects (commit : Id) :
    repo.associateSession (store.withObjects objects) commit =
      (repo.associateSession store commit).map fun s =>
        s.withObjects objects := by
  unfold associateSession
  cases repo.activeSession with
  | none => rfl
  | some s => exact store.setCommitSession_withObjects objects commit s

theorem createCommit_withObjects (stateRoot : Id) (parents : List Id)
    (options : CommitOptions) (now : ℤ) :
    repo.createCommit (store.withObjects objects) stateRoot parents options
        now =
      ((repo.createCommit store stateRoot parents options now).1,
        (repo.createCommit store stateRoot parents options
          now).2.withObjects objects) := by
  have hput : ∀ c, (store.withObjects objects).putCommit c =
      (store.putCommit c).withObjects objects := fun _ => rfl
  simp only [createCommit, hput, associateEpoch_withObjects]
  cases repo.associateEpoch (store.putCommit
      (CommitBuilder.build stateRoot parents options now))
      (CommitBuilder.build stateRoot parents options now).id with
  | error e => rfl
  | ok inEpoch =>
      simp only [Except.map, associateSession_withObjects]
      cases repo.associateSession inEpoch
          (CommitBuilder.build stateRoot parents options now).id <;> rfl

theorem moveRef_withObjects (refName : String) (expected : Id)
    (isBranch : Bool) (newTarget : Id) :
    repo.moveRef (store.withObjects objects) refName expected isBranch
        newTarget =
      (repo.moveRef store refName expected isBranch newTarget).map fun r =>
        (r.1, r.2.withObjects objects) := by
  have hseals : repo.enforceEpochSeals (store.withObjects objects) refName
      newTarget = repo.enforceEpochSeals store refName newTarget := rfl
  unfold moveRef
  split
  · simp only [advanceRef, hseals, Storage.casRef_withObjects]
    cases (refuseReservedRef refName : Except (RepoError Id) Unit) with
    | error e => rfl
    | ok _ =>
        cases repo.enforceEpochSeals store refName newTarget with
        | error e => rfl
        | ok _ =>
            simp only [Except.ok_bind]
            cases store.casRef repo.activeNamespace refName expected
              newTarget <;> rfl
  · simp only [guardedSetRef, hseals, Storage.setRef_withObjects]
    cases (refuseReservedRef refName : Except (RepoError Id) Unit) with
    | error e => rfl
    | ok _ =>
        cases repo.enforceEpochSeals store refName newTarget with
        | error e => rfl
        | ok _ =>
            simp only [Except.ok_bind]
            cases store.setRef repo.activeNamespace refName newTarget <;> rfl

theorem landMerge_withObjects (target : String) (expected : Id)
    (isBranch : Bool) (commit : Id) :
    repo.landMerge (store.withObjects objects) target expected isBranch
        commit =
      ((repo.landMerge store target expected isBranch commit).1,
        (repo.landMerge store target expected isBranch
          commit).2.withObjects objects) := by
  simp only [landMerge, moveRef_withObjects]
  cases repo.moveRef store target expected isBranch commit <;> rfl

end Repository

end Objects

/-! ## The gate after a sweep -/

section Gate

variable {store swept : ObjectStore Id} (hle : swept ≤ store) {P : Id → Prop}
  (hkept : ∀ x, P x → swept.get x = store.get x)
  (hclosed : ∀ x o, P x → store.get x = some o → ∀ c ∈ o.childIds, P c)
include hle hkept hclosed

/-- A tree over kept trees that passed the gate passes it after the sweep. -/
theorem complete_putAll_swept {os : List (Object Id)}
    (hos : ∀ c ∈ os, ∀ x ∈ c.childIds, Sourced P os x) {root : Object Id}
    (hroot : root ∈ os)
    (h : ObjectStore.Complete (store.putAll os) root.id) :
    ObjectStore.Complete (swept.putAll os) root.id := by
  have hput : ∀ {s : ObjectStore Id}, ∀ c ∈ os,
      (s.putAll os).get c.id = some c := fun c hc =>
    AddressedMap.get_putAll_of_mem Object.id_injective _ hc
  have hbig : swept.putAll os ≤ store.putAll os :=
    AddressedMap.putAll_mono hle os
  have hchildren : ∀ x y, y ∈ ObjectStore.children (swept.putAll os) x →
      y ∈ ObjectStore.children (store.putAll os) x := by
    intro x y hy
    unfold ObjectStore.children at hy ⊢
    cases hget : (swept.putAll os).get x with
    | none => simp [hget] at hy
    | some o =>
        rw [hget] at hy
        rw [hbig x o hget]
        exact hy
  intro x hreach
  have hsourced : Sourced P os x := by
    refine hreach.mem_of_closed ?_ (Or.inr ⟨root, hroot, rfl⟩)
    intro y hy z hz
    cases hget : (swept.putAll os).get y with
    | none => simp [ObjectStore.children, hget] at hz
    | some o =>
        rw [ObjectStore.children_of_get hget] at hz
        rcases AddressedMap.get_putAll hget with hold | hmem
        · rcases hy with hP | ⟨c, hc, rfl⟩
          · exact Or.inl (hclosed y o hP (hle y o hold) z hz)
          · rw [hput c hc, Option.some.injEq] at hget
            exact hos c hc z (hget ▸ hz)
        · exact hos o hmem z hz
  obtain ⟨o, ho⟩ := Option.isSome_iff_exists.mp
    (h x (hreach.mono hchildren))
  rcases hsourced with hP | ⟨c, hc, rfl⟩
  · rcases AddressedMap.get_putAll ho with hold | hmem
    · rw [← hkept x hP] at hold
      rw [ObjectStore.le_putAll swept os x o hold]
      rfl
    · have hid := ObjectStore.id_eq_of_get ho
      rw [← hid, hput o hmem]
      rfl
  · rw [hput c hc]
    rfl

end Gate

/-! ## Computing the merge after a sweep -/

namespace Repository

variable (repo : Repository)

section

variable {store : Storage Id} {found : List Conflict}

theorem resolveRef_ne_conflicts {refName : String} :
    repo.resolveRef store refName ≠ .error (.mergeConflicts found) := by
  unfold resolveRef resolveCommitRef liftStorage
  intro h
  grind

theorem headForWrite_ne_conflicts {refName : String} :
    repo.headForWrite store refName ≠ .error (.mergeConflicts found) := by
  intro h
  rcases Except.bind_eq_error_iff.mp h with h | ⟨-, -, h⟩
  · unfold refuseReservedRef at h
    split at h <;> cases h
  rcases Except.bind_eq_error_iff.mp h with h | ⟨branch, -, h⟩
  · unfold liftStorage at h
    split at h <;> cases h
  cases branch with
  | some id => cases h
  | none =>
      rcases Except.bind_eq_error_iff.mp h with h | ⟨id, -, h⟩
      · exact repo.resolveRef_ne_conflicts h
      · cases h

theorem computeMerge_ne_conflicts {source target : String} :
    repo.computeMerge store source target ≠ .error (.mergeConflicts found) := by
  have hcommit : ∀ {id name}, store.requireCommit id name ≠
      .error (.mergeConflicts found) := by
    intro id name h
    unfold Storage.requireCommit at h
    split at h <;> cases h
  intro h
  rcases Except.bind_eq_error_iff.mp h with h | ⟨s, -, h⟩
  · exact repo.resolveRef_ne_conflicts h
  rcases Except.bind_eq_error_iff.mp h with h | ⟨t, -, h⟩
  · exact repo.resolveRef_ne_conflicts h
  rcases Except.bind_eq_error_iff.mp h with h | ⟨sc, -, h⟩
  · exact hcommit h
  rcases Except.bind_eq_error_iff.mp h with h | ⟨tc, -, h⟩
  · exact hcommit h
  rcases Except.bind_eq_error_iff.mp h with h | ⟨b, -, h⟩
  · unfold Storage.mergeBase at h
    split at h <;> cases h
  rcases Except.bind_eq_error_iff.mp h with h | ⟨bc, -, h⟩
  · exact hcommit h
  rcases Except.bind_eq_error_iff.mp h with h | ⟨r, -, h⟩
  · unfold mergeTrees at h
    split at h <;> cases h
  · cases h

theorem computeMerge_withObjects {source target : String}
    {comp : MergeComputation Id}
    (h : repo.computeMerge store source target = .ok comp) :
    ∃ baseCommitId baseRoot,
      findCommonAncestor store.commits comp.sourceCommitId
        comp.targetCommitId = some baseCommitId ∧
      store.rootOf baseCommitId = some baseRoot ∧
      tryThreeWayMergeCollect store.objects baseRoot comp.targetStateRoot
        comp.sourceStateRoot = .ok (comp.result, comp.created) ∧
      ∀ objects, repo.computeMerge (store.withObjects objects) source target =
        match tryThreeWayMergeCollect objects baseRoot comp.targetStateRoot
          comp.sourceStateRoot with
        | .ok r => .ok { comp with result := r.1, created := r.2 }
        | .error missing => .error (.integrityViolation baseRoot missing) := by
  obtain ⟨b, root, hs, ht, hsc, htc, hbase, hbc, htree⟩ :=
    repo.computeMerge_eq_ok h
  refine ⟨b, root, hbase, hbc, htree, ?_⟩
  intro objects
  have hcommit : ∀ {id r : Id} (name : String), store.rootOf id = some r →
      ∃ c : Commit Id, (store.withObjects objects).requireCommit id name =
        .ok c ∧ c.stateRoot = r := by
    intro id r name hr
    obtain ⟨c, hc, hroot⟩ := Option.map_eq_some_iff.mp hr
    exact ⟨c, requireCommit_eq_ok_iff.mpr hc, hroot⟩
  have hresolve : ∀ name, repo.resolveRef (store.withObjects objects) name =
      repo.resolveRef store name := fun _ => rfl
  have hmergeBase : (store.withObjects objects).mergeBase comp.sourceCommitId
      comp.targetCommitId = .ok b := by
    simp only [Storage.mergeBase, Storage.withObjects, hbase]
  obtain ⟨sc, hsc, hscr⟩ := hcommit source hsc
  obtain ⟨tc, htc, htcr⟩ := hcommit target htc
  obtain ⟨bc, hbc, hbcr⟩ := hcommit "base" hbc
  have hobjects : (store.withObjects objects).objects = objects := rfl
  simp only [computeMerge, hresolve, hs, ht, Except.ok_bind, hsc, htc,
    hmergeBase, hbc, hscr, htcr, hbcr, mergeTrees, hobjects]
  cases tryThreeWayMergeCollect objects root comp.targetStateRoot
    comp.sourceStateRoot <;> rfl

end

section Swept

variable {store : Storage Id} {swept : ObjectStore Id}
  (hle : swept ≤ store.objects) {P : Id → Prop}
  (hkept : ∀ x, P x → swept.get x = store.objects.get x)
  (hclosed : ∀ x o, P x → store.objects.get x = some o →
    ∀ c ∈ o.childIds, P c)
  {source target : String} {comp : MergeComputation Id}
  (hcomp : repo.computeMerge store source target = .ok comp)
  (hours : P comp.targetStateRoot) (htheirs : P comp.sourceStateRoot)

include hkept hcomp hours htheirs in
/-- The guard against deletions reads kept objects only. -/
theorem topLevelRemovals_swept :
    topLevelRemovals swept comp = topLevelRemovals store.objects comp := by
  have hentries : ∀ x, P x →
      topLevelEntries swept x = topLevelEntries store.objects x := by
    intro x hx
    simp only [topLevelEntries, hkept x hx]
  obtain ⟨-, baseRoot, -, -, -, -, -, -, htree⟩ := repo.computeMerge_eq_ok hcomp
  have hff : ∀ root, comp.result = .fastForward root → P root := by
    intro root hroot
    rcases tryThreeWayMergeCollect_eq_ok htree with ⟨-, hr⟩ | ⟨-, -, hr⟩ |
      ⟨-, -, -, hr⟩ | ⟨-, -, -, bo, oo, th, -, -, -, -, -, hr⟩
    · rw [hroot] at hr
      cases hr
      exact htheirs
    · rw [hroot] at hr
      cases hr
      exact hours
    · rw [hroot] at hr
      cases hr
      exact hours
    · rw [hroot] at hr
      split at hr <;> cases hr
  unfold topLevelRemovals
  rw [hentries _ hours]
  cases hresult : comp.result with
  | success o => rfl
  | conflicts o found => rfl
  | fastForward root => simp only [hentries root (hff root hresult)]

include hle hkept hclosed hcomp hours htheirs

theorem landMerged_swept {isBranch : Bool} {merged : Object Id}
    (hresult : comp.result = .success merged) {options : CommitOptions}
    {now : ℤ} {r : Except (RepoError Id) (Option Id)} {landed : Storage Id}
    (hr : ∀ root missing, r ≠ .error (.integrityViolation root missing))
    (h : repo.landMerged store target comp isBranch merged options now =
      (r, landed)) :
    ∃ objects, repo.landMerged (store.withObjects swept) target comp isBranch
      merged options now = (r, landed.withObjects objects) := by
  obtain ⟨-, baseRoot, -, -, -, -, -, -, htree⟩ := repo.computeMerge_eq_ok hcomp
  rw [hresult] at htree
  have hsourced := sourced_of_success hclosed hours htheirs htree
  simp only [landMerged] at h ⊢
  cases hgate : firstMissingReachable (store.withObjects
      (store.objects.putAll (comp.created ++ [merged]))).objects merged.id with
  | some missing =>
      rw [hgate] at h
      cases h
      exact (hr merged.id missing rfl).elim
  | none =>
      rw [hgate] at h
      have hwhole := firstMissingReachable_eq_none_iff.mp hgate
      have hswept := complete_putAll_swept hle hkept hclosed hsourced
        (List.mem_append_right _ (List.mem_singleton_self merged)) hwhole
      have hgate' : firstMissingReachable ((store.withObjects
          swept).withObjects ((store.withObjects swept).objects.putAll
            (comp.created ++ [merged]))).objects merged.id = none :=
        firstMissingReachable_eq_none_iff.mpr hswept
      have hstored : (store.withObjects swept).withObjects
          ((store.withObjects swept).objects.putAll
            (comp.created ++ [merged])) =
          (store.withObjects (store.objects.putAll
            (comp.created ++ [merged]))).withObjects
              (swept.putAll (comp.created ++ [merged])) := rfl
      refine ⟨swept.putAll (comp.created ++ [merged]), ?_⟩
      rw [hgate', hstored]
      simp only [createCommit_withObjects] at h ⊢
      cases hcreate : (repo.createCommit store merged.id
          [comp.targetCommitId, comp.sourceCommitId] options now).1 with
      | error e =>
          rw [hcreate] at h
          cases h
          rfl
      | ok c =>
          rw [hcreate] at h
          simp only at h ⊢
          rw [landMerge_withObjects, h]

/-- An attempt that answered answers the same after the sweep, where the trees
merge the same. -/
theorem tryMergeChecked_swept
    (hsame : repo.computeMerge (store.withObjects swept) source target =
      .ok comp)
    {options : CommitOptions} {allowDeletions : Bool} {now : ℤ}
    {r : Except (RepoError Id) (Option Id)} {landed : Storage Id}
    (hr : ∀ root missing, r ≠ .error (.integrityViolation root missing))
    (h : repo.tryMergeChecked source target options allowDeletions now store =
      (r, landed)) :
    ∃ objects, repo.tryMergeChecked source target options allowDeletions now
      (store.withObjects swept) = (r, landed.withObjects objects) := by
  have hhead : repo.headForWrite (store.withObjects swept) target =
      repo.headForWrite store target := rfl
  have hremoved : topLevelRemovals (store.withObjects swept).objects comp =
      topLevelRemovals store.objects comp :=
    repo.topLevelRemovals_swept hkept hcomp hours htheirs
  unfold tryMergeChecked at h ⊢
  rw [hhead, hsame]
  rw [hcomp] at h
  cases hwrite : repo.headForWrite store target with
  | error e =>
      rw [hwrite] at h
      simp only [Prod.mk.injEq] at h
      exact ⟨swept, by rw [← h.1, ← h.2]⟩
  | ok head =>
      rw [hwrite] at h
      simp only [hremoved] at h ⊢
      split
      next hdelete =>
        rw [if_pos hdelete, Prod.mk.injEq] at h
        exact ⟨swept, by rw [← h.1, ← h.2]⟩
      next hdelete =>
        rw [if_neg hdelete] at h
        cases hresult : comp.result with
        | success merged =>
            simp only [hresult] at h ⊢
            exact repo.landMerged_swept hle hkept hclosed hcomp hours htheirs
              hresult hr h
        | fastForward root =>
            simp only [hresult] at h ⊢
            exact ⟨swept, by rw [landMerge_withObjects, h]⟩
        | conflicts merged found =>
            simp only [hresult, Prod.mk.injEq] at h ⊢
            exact ⟨swept, h.1, by rw [h.2]⟩

end Swept

/-! ## When a merge survives -/

theorem namespace_of_resolveRef {store : Storage Id} {refName : String}
    {id : Id} (h : repo.resolveRef store refName = .ok id) :
    repo.activeNamespace ∈ store.namespaces := by
  by_contra hns
  simp [resolveRef, Storage.getRef, hns, liftStorage] at h

/-- A merge answers: it succeeds or reports conflicts. -/
def MergeAnswers (outcome : Outcome Id Id) : Prop :=
  (∃ commit, outcome.1 = .ok commit) ∨
    ∃ found, outcome.1 = .error (.mergeConflicts found)

/-- The same commit with the same state root, or the same conflicts. -/
def SameMerge (before after : Outcome Id Id) : Prop :=
  after.1 = before.1 ∧ ∀ commit, before.1 = .ok commit →
    after.2.rootOf commit = before.2.rootOf commit

/-- The merge answers after as it answered before. -/
def MergeSurvives (before after : Storage Id) (source target : String)
    (options : CommitOptions) (allowDeletions : Bool) (now : ℕ → ℤ) : Prop :=
  let outcome := fun store =>
    repo.mergeChecked store source target options allowDeletions now
  MergeAnswers (outcome before) → SameMerge (outcome before) (outcome after)

/-- What a merge answers when its first attempt answers so. -/
def attemptResult : Except (RepoError Id) (Option Id) → Except (RepoError Id) Id
  | .ok (some commit) => .ok commit
  | .ok none => .error .writeConflict
  | .error e => .error e

theorem mergeChecked_eq (store : Storage Id) (source target : String)
    (options : CommitOptions) (allowDeletions : Bool) (now : ℕ → ℤ) :
    repo.mergeChecked store source target options allowDeletions now =
      (attemptResult (repo.tryMergeChecked source target options
        allowDeletions (now 0) store).1,
        (repo.tryMergeChecked source target options allowDeletions (now 0)
          store).2) := by
  have hne : ∀ store', repo.tryMergeChecked source target options
      allowDeletions (now 0) store ≠ (.ok none, store') :=
    fun _ => repo.tryMergeChecked_ne_none
  simp only [mergeChecked, casLoop, MAX_REF_CAS_ATTEMPTS]
  unfold retryFrom
  rcases hattempt : repo.tryMergeChecked source target options allowDeletions
    (now 0) store with ⟨_ | _ | commit, landed⟩
  · rfl
  · exact (hne landed hattempt).elim
  · rfl

theorem exists_computeMerge_of_answers {store : Storage Id}
    {source target : String} {options : CommitOptions} {allowDeletions : Bool}
    {now : ℕ → ℤ}
    (h : MergeAnswers (repo.mergeChecked store source target options
      allowDeletions now)) :
    ∃ comp, repo.computeMerge store source target = .ok comp := by
  rcases h with ⟨commit, h⟩ | ⟨found, h⟩
  · obtain ⟨-, comp, -, hcomp, -⟩ := repo.mergeChecked_eq_ok (Prod.ext h rfl)
    exact ⟨comp, hcomp⟩
  · rw [mergeChecked_eq] at h
    unfold tryMergeChecked at h
    cases hhead : repo.headForWrite store target with
    | error e =>
        simp only [hhead, attemptResult, Except.error.injEq] at h
        rw [h] at hhead
        exact (repo.headForWrite_ne_conflicts hhead).elim
    | ok head =>
        cases hcomp : repo.computeMerge store source target with
        | error e =>
            simp only [hhead, hcomp, attemptResult, Except.error.injEq] at h
            rw [h] at hcomp
            exact (repo.computeMerge_ne_conflicts hcomp).elim
        | ok comp => exact ⟨comp, rfl⟩

theorem sameMerge_swept_iff {store : Storage Id} {swept : ObjectStore Id}
    (hle : swept ≤ store.objects) {P : Id → Prop}
    (hkept : ∀ x, P x → swept.get x = store.objects.get x)
    (hclosed : ∀ x o, P x → store.objects.get x = some o →
      ∀ c ∈ o.childIds, P c)
    {source target : String} {options : CommitOptions} {allowDeletions : Bool}
    {now : ℕ → ℤ} {comp : MergeComputation Id} {base baseRoot : Id}
    (hcomp : repo.computeMerge store source target = .ok comp)
    (hbase : findCommonAncestor store.commits comp.sourceCommitId
      comp.targetCommitId = some base)
    (hroot : store.rootOf base = some baseRoot)
    (hours : P comp.targetStateRoot) (htheirs : P comp.sourceStateRoot)
    (h : MergeAnswers (repo.mergeChecked store source target options
      allowDeletions now)) :
    SameMerge
        (repo.mergeChecked store source target options allowDeletions now)
        (repo.mergeChecked (store.withObjects swept) source target options
          allowDeletions now) ↔
      ∀ x, ReadFromBase store.objects (some baseRoot)
        (some comp.targetStateRoot) (some comp.sourceStateRoot) x →
          (swept.get x).isSome = true := by
  obtain ⟨base', baseRoot', hbase', hroot', htree, hafter⟩ :=
    repo.computeMerge_withObjects hcomp
  obtain rfl : base' = base := Option.some.inj (hbase'.symm.trans hbase)
  obtain rfl : baseRoot' = baseRoot := Option.some.inj (hroot'.symm.trans hroot)
  have hiff := tryThreeWayMergeCollect_swept_iff hle hkept hclosed hours htheirs
    htree
  rw [← hiff]
  constructor
  · intro hsame
    cases hswept : tryThreeWayMergeCollect swept baseRoot' comp.targetStateRoot
        comp.sourceStateRoot with
    | ok r =>
        have hagain := tryThreeWayMergeCollect_mono hle hswept
        rw [← hagain, htree]
    | error missing =>
        -- the merge stops before it can answer
        exfalso
        have hstop := hafter swept
        rw [hswept] at hstop
        have hans : MergeAnswers (repo.mergeChecked (store.withObjects swept)
            source target options allowDeletions now) := by
          simpa only [MergeAnswers, hsame.1] using h
        obtain ⟨comp', hcomp'⟩ := repo.exists_computeMerge_of_answers hans
        rw [hstop] at hcomp'
        cases hcomp'
  · intro hswept
    have hsame := hafter swept
    rw [hswept] at hsame
    simp only [SameMerge, mergeChecked_eq] at h ⊢
    rcases hattempt : repo.tryMergeChecked source target options allowDeletions
      (now 0) store with ⟨r, landed⟩
    rw [hattempt] at h
    have hr : ∀ root missing, r ≠ .error (.integrityViolation root missing) := by
      rintro root missing rfl
      simp [MergeAnswers, attemptResult] at h
    obtain ⟨objects, hrun⟩ := repo.tryMergeChecked_swept hle hkept hclosed hcomp
      hours htheirs hsame hr hattempt
    rw [hrun]
    exact ⟨rfl, fun _ _ => rfl⟩

end Repository

/-- Every object of the merge base that a merge of two heads reads was written
after the cutoff, or is kept alive. -/
def Database.BaseKept (db : Database Id) (policy : RetentionPolicy)
    (now grace : ℤ) (source target : Id) : Prop :=
  ∀ base baseRoot ours theirs x,
    findCommonAncestor db.store.commits source target = some base →
    db.store.rootOf base = some baseRoot →
    db.store.rootOf target = some ours → db.store.rootOf source = some theirs →
    ReadFromBase db.store.objects (some baseRoot) (some ours) (some theirs) x →
    Database.sweepCutoff now grace ≤ db.writtenAt x ∨
      db.Live policy (now / 1000) x

/-- A merge of two refs of one namespace survives a sweep exactly when the
objects of the merge base that it reads are kept. -/
theorem mergeSurvives_gcSweep_iff (repo : Repository) {db swept : Database Id}
    {policy : RetentionPolicy} {limit : ℕ} {sel : Marking.Selection Id limit}
    {now grace : ℤ}
    (hsweep : db.gcSweep policy sel.choose now grace = .swept swept)
    {source target : String} {sourceHead targetHead : Id}
    (hsource : db.store.refAt repo.activeNamespace source = some sourceHead)
    (htarget : db.store.refAt repo.activeNamespace target = some targetHead)
    (options : CommitOptions) (allowDeletions : Bool) (times : ℕ → ℤ) :
    repo.MergeSurvives db.store swept.store source target options
        allowDeletions times ↔
      (Repository.MergeAnswers (repo.mergeChecked db.store source target
        options allowDeletions times) →
        db.BaseKept policy now grace sourceHead targetHead) := by
  have hfrom := db.sweptFrom_of_gcSweep hsweep
  have hstore : swept.store = db.store.withObjects swept.store.objects :=
    congrArg Database.store hfrom.eq
  rw [Repository.MergeSurvives]
  apply forall_congr'
  intro hanswers
  obtain ⟨comp, hcomp⟩ := repo.exists_computeMerge_of_answers hanswers
  obtain ⟨base, baseRoot, hs, ht, hsroot, htroot, hbase, hroot, htree⟩ :=
    repo.computeMerge_eq_ok hcomp
  have hns := repo.namespace_of_resolveRef hs
  rw [repo.resolveRef_of_refAt hns hsource, Except.ok.injEq] at hs
  rw [repo.resolveRef_of_refAt hns htarget, Except.ok.injEq] at ht
  subst hs ht
  -- what a ref tip reaches is kept, and what was not stored is not missed
  let P : Id → Prop := fun x =>
    db.store.objects.get x = none ∨ db.Live policy (now / 1000) x
  have hle := hfrom.objects_le
  have hkept : ∀ x, P x →
      swept.store.objects.get x = db.store.objects.get x := by
    rintro x (hnone | hlive)
    · rw [hnone]
      cases hget : swept.store.objects.get x with
      | none => rfl
      | some o =>
          rw [hle x o hget] at hnone
          cases hnone
    · exact hfrom.kept x (Or.inr hlive)
  have hclosed : ∀ x o, P x → db.store.objects.get x = some o →
      ∀ c ∈ o.childIds, P c := by
    rintro x o (hnone | hlive) hget c hc
    · rw [hget] at hnone
      cases hnone
    · exact Or.inr (hlive.child db hget hc)
  have htip : ∀ {name : String} {head root : Id},
      db.store.refAt repo.activeNamespace name = some head →
      db.store.rootOf head = some root → P root := by
    intro name head root href hfound
    cases hget : db.store.objects.get root with
    | none => exact Or.inl hget
    | some o =>
        exact Or.inr (Database.Live.of_keepRoot db (.tip href hfound)
          (by rw [hget]; rfl))
  have hread : ∀ x, ReadFromBase db.store.objects (some baseRoot)
      (some comp.targetStateRoot) (some comp.sourceStateRoot) x →
      (db.store.objects.get x).isSome = true :=
    (tryThreeWayMergeCollect_swept_iff (le_refl _) (fun _ _ => rfl) hclosed
      (htip htarget htroot) (htip hsource hsroot) htree).mp htree
  rw [hstore, repo.sameMerge_swept_iff hle hkept hclosed hcomp hbase hroot
    (htip htarget htroot) (htip hsource hsroot) hanswers]
  constructor
  · intro hall b broot ours theirs x hb hbroot hours htheirs hx
    obtain rfl := Option.some.inj (hbase.symm.trans hb)
    obtain rfl := Option.some.inj (hroot.symm.trans hbroot)
    obtain rfl := Option.some.inj (htroot.symm.trans hours)
    obtain rfl := Option.some.inj (hsroot.symm.trans htheirs)
    by_contra hdead
    rw [not_or, not_le] at hdead
    have hstored := hall x hx
    rw [hfrom.deleted x hdead.1 hdead.2] at hstored
    cases hstored
  · intro hall x hx
    rw [hfrom.kept x (hall _ _ _ _ x hbase hroot htroot hsroot hx)]
    exact hread x hx

/-! ## Two side branches -/

namespace SideBranches

open ContentKey

def old : Object ContentKey := Object.string "old"

def new : Object ContentKey := Object.string "new"

def blank : Object ContentKey := Object.emptyMap

def shared : Object ContentKey := mapOf [("p", old), ("q", old)]

def left : Object ContentKey := mapOf [("p", new), ("q", old)]

def right : Object ContentKey := mapOf [("p", old), ("q", new)]

/-- `main` stays here. -/
def start : Commit ContentKey := commitOf blank [] 0

/-- Where the two side branches part. -/
def fork : Commit ContentKey := commitOf shared [start] 1

def leftHead : Commit ContentKey := commitOf left [fork] 2

def rightHead : Commit ContentKey := commitOf right [fork] 3

def store : Storage ContentKey :=
  ((({ Storage.new with
      objects := AddressedMap.empty.putAll [old, new, blank, shared, left, right]
      commits := AddressedMap.empty.putAll [start, fork, leftHead, rightHead] } :
    Storage ContentKey).putRef "default" "main" start.id).putRef "default"
      "left" leftHead.id).putRef "default" "right" rightHead.id

/-- Everything was written long before the sweep. -/
def db : Database ContentKey where
  store := store
  writtenAt _ := 0
  commitRows := [rightHead.id, leftHead.id, fork.id, start.id]
  pendingRoots := []
  milestones := []
  undistilled := 0

def policy : RetentionPolicy where
  keepRecent := 2
  checkpointEvery := 0
  keepMilestones := true

def batch : Marking.Selection ContentKey 1000 :=
  .first (by decide)

def now : ℤ := 10000000

def grace : ℤ := 3600000

def swept : Database ContentKey :=
  (db.gcSweep policy batch.choose now grace).getD db

theorem gcSweep_eq : db.gcSweep policy batch.choose now grace = .swept swept := by
  have hends := db.gcSweep_ends policy batch now grace (lt_irrefl 0)
  exact Database.SweepOutcome.eq_swept_getD (hends.imp fun _ h => h.1)

def merged (store : Storage ContentKey) : Outcome ContentKey ContentKey :=
  Repository.new.mergeChecked store "left" "right" (options .merge) true
    fun _ => 4

set_option maxRecDepth 16384 in
theorem merged_before : (merged store).1.isOk = true := by decide

set_option maxRecDepth 16384 in
theorem merged_after : (merged swept.store).1 =
    .error (.integrityViolation shared.id shared.id) := by decide

end SideBranches

/-- The base of two side branches is no fork point with `main`: a merge of the
two that succeeds fails once the base is swept. -/
theorem mergeSurvives_sideBranches :
    SideBranches.db.gcSweep SideBranches.policy SideBranches.batch.choose
        SideBranches.now SideBranches.grace = .swept SideBranches.swept ∧
      ¬Repository.new.MergeSurvives SideBranches.db.store
        SideBranches.swept.store "left" "right" (ContentKey.options .merge) true
        fun _ => 4 := by
  refine ⟨SideBranches.gcSweep_eq, ?_⟩
  intro hsurvives
  have hok := SideBranches.merged_before
  cases hbefore : (SideBranches.merged SideBranches.store).1 with
  | error e => rw [hbefore] at hok; cases hok
  | ok commit =>
      have hsame := (hsurvives (Or.inl ⟨commit, hbefore⟩)).1
      have hfails := SideBranches.merged_after.symm.trans
        (hsame.trans hbefore)
      cases hfails

set_option maxRecDepth 16384 in
/-- The general statement on those branches. -/
theorem mergeSurvives_gcSweep_iff_sideBranches :
    Repository.new.MergeSurvives SideBranches.db.store SideBranches.swept.store
        "left" "right" (ContentKey.options .merge) true (fun _ => 4) ↔
      (Repository.MergeAnswers (SideBranches.merged SideBranches.store) →
        SideBranches.db.BaseKept SideBranches.policy SideBranches.now
          SideBranches.grace SideBranches.leftHead.id
          SideBranches.rightHead.id) :=
  mergeSurvives_gcSweep_iff Repository.new SideBranches.gcSweep_eq
    (by decide) (by decide) _ _ _

end AgentStateGraph
