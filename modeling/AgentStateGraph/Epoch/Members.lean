import AgentStateGraph.Repo.Interleaving

/-!
# Marking the members of an epoch

While an epoch is active, storing a commit makes it a member of the epoch.
That happens before the ref moves, so an attempt that loses its swap, or that
a seal refuses, leaves its commit in the membership table.  This module says
which ids each step of a write records, for the writers and for merges taken
in steps.
-/

namespace AgentStateGraph

variable {Id : Type} [Digest Id]

/-! ## The table of members -/

/-- What marking the commits as members of an epoch makes of the table. -/
def markAll (epochId : String) (table : List (Id × String)) (marked : List Id) :
    List (Id × String) :=
  marked.foldl
    (fun table id => table.filter (fun e => e.1 ≠ id) ++ [(id, epochId)]) table

@[simp] theorem markAll_nil (epochId : String) (table : List (Id × String)) :
    markAll epochId table [] = table := rfl

namespace Repository

variable (repo : Repository)

/-- The handle with this active epoch and session. -/
def associated (epoch session : Option String) : Repository :=
  { repo with activeEpoch := epoch, activeSession := session }

/-- The handle with nothing to associate commits with. -/
def unassociated : Repository := repo.associated none none

/-- The commits that storing `commit` records as members. -/
def marks (store : Storage Id) (commit : Id) : List Id :=
  match repo.activeEpoch with
  | none => []
  | some epochId =>
      match store.setCommitEpoch commit epochId with
      | .ok _ => [commit]
      | .error _ => []

/-- The active session, if there is one, still takes commits. -/
def SessionOpen (store : Storage Id) : Prop :=
  ∀ sessionId ∈ repo.activeSession, store.sessions[sessionId]? = some .active

instance (store : Storage Id) : Decidable (repo.SessionOpen store) :=
  inferInstanceAs (Decidable (∀ sessionId ∈ repo.activeSession,
    store.sessions[sessionId]? = some .active))

theorem associated_self :
    repo.associated repo.activeEpoch repo.activeSession = repo := rfl

theorem marks_congr {s t : Storage Id} (h : t.epochs = s.epochs) (commit : Id) :
    repo.marks t commit = repo.marks s commit := by
  unfold marks Storage.setCommitEpoch
  rw [h]
  cases repo.activeEpoch with
  | none => rfl
  | some epochId =>
      simp only
      cases s.epochs.find? fun e => e.id = epochId with
      | none => rfl
      | some epoch =>
          by_cases hsealed : epoch.status = .sealed ∨ epoch.status = .archived
          · simp only [if_pos hsealed]
          · simp only [if_neg hsealed]

theorem mem_marks {store : Storage Id} {commit id : Id}
    (h : id ∈ repo.marks store commit) : id = commit := by
  unfold marks at h
  split at h
  · simp at h
  · split at h
    · exact List.mem_singleton.mp h
    · simp at h

theorem associateSession_of_open {store : Storage Id}
    (hopen : repo.SessionOpen store) (commit : Id) :
    ∃ t, repo.associateSession store commit = .ok t := by
  unfold associateSession
  cases hsession : repo.activeSession with
  | none => exact ⟨store, rfl⟩
  | some sessionId =>
      simp only [Storage.setCommitSession, hopen sessionId hsession]
      exact ⟨_, rfl⟩

theorem associateSession_commitEpoch {store t : Storage Id} {commit : Id}
    (h : repo.associateSession store commit = .ok t) :
    t.commitEpoch = store.commitEpoch := by
  unfold associateSession at h
  split at h
  · rw [Except.ok.inj h]
  · unfold Storage.setCommitSession at h
    split at h
    · contradiction
    · contradiction
    · rw [← Except.ok.inj h]

theorem associateEpoch_cases (store : Storage Id) (commit : Id) :
    (∃ t, repo.associateEpoch store commit = .ok t ∧
        t.sessions = store.sessions ∧
        t.commitEpoch = markAll (repo.activeEpoch.getD "") store.commitEpoch
          (repo.marks store commit)) ∨
      (∃ e, repo.associateEpoch store commit = .error e ∧
        repo.marks store commit = []) := by
  unfold associateEpoch marks
  cases repo.activeEpoch with
  | none => exact Or.inl ⟨store, rfl, rfl, rfl⟩
  | some epochId =>
      simp only
      unfold Storage.setCommitEpoch
      split
      · exact Or.inr ⟨_, rfl, rfl⟩
      · split
        · exact Or.inr ⟨_, rfl, rfl⟩
        · exact Or.inl ⟨_, rfl, rfl, rfl⟩

variable {repo}

theorem createCommit_commitEpoch (store : Storage Id) (stateRoot : Id)
    (parents : List Id) (options : CommitOptions) (now : ℤ) :
    (repo.createCommit store stateRoot parents options now).2.commitEpoch =
      markAll (repo.activeEpoch.getD "") store.commitEpoch
        (repo.marks store
          (CommitBuilder.build stateRoot parents options now).id) := by
  have hmarks : ∀ id, repo.marks (store.putCommit
      (CommitBuilder.build stateRoot parents options now)) id =
        repo.marks store id :=
    fun id => repo.marks_congr
      (Repository.addsCommit_putCommit store _).epochs id
  unfold createCommit
  simp only
  rcases repo.associateEpoch_cases (store.putCommit
      (CommitBuilder.build stateRoot parents options now))
      (CommitBuilder.build stateRoot parents options now).id with
    ⟨inEpoch, hepoch, -, htable⟩ | ⟨e, hepoch, hnone⟩
  · rw [hmarks] at htable
    simp only [hepoch]
    split
    next => exact htable
    next inSession hsession =>
      rw [repo.associateSession_commitEpoch hsession]
      exact htable
  · rw [hmarks] at hnone
    simp only [hepoch, hnone]
    rfl

theorem createCommit_of_marks {store : Storage Id} {stateRoot : Id}
    {parents : List Id} {options : CommitOptions} {now : ℤ}
    (hopen : repo.SessionOpen store)
    (hmarks : repo.marks store
      (CommitBuilder.build stateRoot parents options now).id ≠ []) :
    (repo.createCommit store stateRoot parents options now).1 =
      .ok (CommitBuilder.build stateRoot parents options now) := by
  have hsame : ∀ id, repo.marks (store.putCommit
      (CommitBuilder.build stateRoot parents options now)) id =
        repo.marks store id :=
    fun id => repo.marks_congr
      (Repository.addsCommit_putCommit store _).epochs id
  unfold createCommit
  simp only
  rcases repo.associateEpoch_cases (store.putCommit
      (CommitBuilder.build stateRoot parents options now))
      (CommitBuilder.build stateRoot parents options now).id with
    ⟨inEpoch, hepoch, hsessions, -⟩ | ⟨e, hepoch, hnone⟩
  · have hopen' : repo.SessionOpen inEpoch := by
      intro sessionId hid
      rw [hsessions]
      exact hopen sessionId hid
    obtain ⟨t, ht⟩ := repo.associateSession_of_open hopen'
      (CommitBuilder.build stateRoot parents options now).id
    simp only [hepoch, ht]
  · rw [hsame] at hnone
    exact absurd hnone hmarks

@[simp] theorem createCommit_unassociated (store : Storage Id) (stateRoot : Id)
    (parents : List Id) (options : CommitOptions) (now : ℤ) :
    (repo.unassociated.createCommit store stateRoot parents options now).1 =
      .ok (CommitBuilder.build stateRoot parents options now) := rfl

/-! ## Operations that store one commit -/

/-- An operation that, whatever its handle associates commits with, fails with
objects added, or goes on to store the same commit. -/
def BuildsOne (repo : Repository) (store : Storage Id)
    (build : Repository → Outcome Id (Commit Id)) : Prop :=
  (∃ e t, store.AddsObjects t ∧
      ∀ epoch session, build (repo.associated epoch session) = (.error e, t)) ∨
    ∃ root parents options now built, store.AddsObjects built ∧
      ∀ epoch session, build (repo.associated epoch session) =
        (repo.associated epoch session).createCommit built root parents options
          now

/-- The members an operation records: its commit, if it stores one. -/
def marksOf (repo : Repository) (store : Storage Id)
    (build : Repository → Outcome Id (Commit Id)) : List Id :=
  match (build repo.unassociated).1 with
  | .ok c => repo.marks store c.id
  | .error _ => []

theorem isSome_of_mem_marksOf {store : Storage Id}
    {build : Repository → Outcome Id (Commit Id)} {id : Id}
    (h : id ∈ repo.marksOf store build) : repo.activeEpoch.isSome = true := by
  unfold marksOf marks at h
  cases hepoch : repo.activeEpoch with
  | none =>
      rw [hepoch] at h
      split at h <;> simp at h
  | some epochId => rfl

namespace BuildsOne

variable {store : Storage Id} {build : Repository → Outcome Id (Commit Id)}
  (h : BuildsOne repo store build)
include h

/-- What the operation records is what it does to the table. -/
theorem commitEpoch :
    (build repo).2.commitEpoch = markAll (repo.activeEpoch.getD "")
      store.commitEpoch (repo.marksOf store build) := by
  have hown := repo.associated_self
  rcases h with ⟨e, t, hadds, hbuild⟩ |
    ⟨root, parents, options, now, built, hadds, hbuild⟩
  · have hrepo := hbuild repo.activeEpoch repo.activeSession
    rw [hown] at hrepo
    rw [hrepo, marksOf, unassociated, hbuild, hadds.eq]
    rfl
  · have hrepo := hbuild repo.activeEpoch repo.activeSession
    rw [hown] at hrepo
    rw [hrepo, marksOf, unassociated, hbuild, createCommit_commitEpoch,
      repo.marks_congr hadds.epochs, hadds.eq]
    rfl

theorem grows : store.Grows (build repo).2 := by
  have hown := repo.associated_self
  rcases h with ⟨e, t, hadds, hbuild⟩ |
    ⟨root, parents, options, now, built, hadds, hbuild⟩
  · have hrepo := hbuild repo.activeEpoch repo.activeSession
    rw [hown] at hrepo
    rw [hrepo]
    exact hadds.grows
  · have hrepo := hbuild repo.activeEpoch repo.activeSession
    rw [hown] at hrepo
    rw [hrepo]
    exact hadds.grows.trans
      (repo.createCommit_addsCommit built root parents options now).grows

theorem ok_of_mem_marksOf {id : Id} (hopen : repo.SessionOpen store)
    (hid : id ∈ repo.marksOf store build) :
    ∃ c, (build repo).1 = .ok c ∧ c.id = id := by
  have hown := repo.associated_self
  rcases h with ⟨e, t, hadds, hbuild⟩ |
    ⟨root, parents, options, now, built, hadds, hbuild⟩
  · simp [marksOf, unassociated, hbuild] at hid
  · have hrepo := hbuild repo.activeEpoch repo.activeSession
    rw [hown] at hrepo
    have hnone := hbuild none none
    rw [← unassociated] at hnone
    simp only [marksOf, hnone, createCommit_unassociated] at hid
    rw [← repo.marks_congr hadds.epochs] at hid
    refine ⟨_, ?_, (repo.mem_marks hid).symm⟩
    rw [hrepo]
    refine createCommit_of_marks ?_ (List.ne_nil_of_mem hid)
    intro sessionId hsession
    rw [hadds.eq]
    exact hopen sessionId hsession

end BuildsOne

end Repository

/-! ## Writers -/

namespace Writer

variable (w : Writer Id)

/-- The commit of one round of the loop, built on the head that was read. -/
def buildOn (task : Task Id) (head : Id) (now : ℤ) (store : Storage Id)
    (repo : Repository) : Outcome Id (Commit Id) :=
  match store.rootOf head with
  | none => (.error (.refNotFound w.refName), store)
  | some root =>
      match w.build task store root with
      | (.error e, built) => (.error e, built)
      | (.ok newRoot, built) =>
          repo.createCommit built newRoot [head] (w.taskOptions task) now

/-- The commit of a strict operation, made through another handle. -/
def buildCasThrough (now : ℤ) (store : Storage Id) (repo : Repository) :
    Outcome Id (Commit Id) :=
  ({ w with repo := repo } : Writer Id).buildCas now store

/-- The members a step records. -/
def marks (now : ℤ) (store : Storage Id) : Pc Id → List Id
  | .building task _ head _ =>
      w.repo.marksOf store (w.buildOn task head now store)
  | .buildingCas => w.repo.marksOf store (w.buildCasThrough now store)
  | _ => []

theorem buildStep_eq (task : Task Id) (attempt : ℕ) (head : Id)
    (isBranch : Bool) (now : ℤ) (store : Storage Id) :
    w.buildStep task attempt head isBranch now store =
      match w.buildOn task head now store w.repo with
      | (.error e, stored) => (stored, .done (.error e))
      | (.ok c, stored) =>
          (stored, .landing task attempt head isBranch c.id) := by
  unfold buildStep buildOn
  cases store.rootOf head with
  | none => rfl
  | some root =>
      simp only
      cases w.build task store root with
      | mk result built =>
          cases result with
          | error e => rfl
          | ok newRoot => rfl

theorem buildOn_buildsOne (task : Task Id) (head : Id) (now : ℤ)
    (store : Storage Id) :
    w.repo.BuildsOne store (w.buildOn task head now store) := by
  unfold Repository.BuildsOne buildOn
  cases store.rootOf head with
  | none => exact Or.inl ⟨_, store, .refl store, fun _ _ => rfl⟩
  | some root =>
      have hadds := w.build_onlyAdds task store root
      simp only
      cases hbuild : w.build task store root with
      | mk result built =>
          rw [hbuild] at hadds
          cases result with
          | error e => exact Or.inl ⟨e, built, hadds, fun _ _ => rfl⟩
          | ok newRoot =>
              exact Or.inr ⟨newRoot, _, _, _, built, hadds, fun _ _ => rfl⟩

theorem buildCas_buildsOne (now : ℤ) (store : Storage Id) :
    w.repo.BuildsOne store (w.buildCasThrough now store) := by
  unfold Repository.BuildsOne buildCasThrough buildCas
  cases w.op with
  | setJsonCas refName expectedHead path value fired =>
      unfold Repository.buildOnExpected
      simp only
      cases store.rootOf expectedHead with
      | none => exact Or.inl ⟨_, store, .refl store, fun _ _ => rfl⟩
      | some root =>
          have hjson : store.AddsObjects
              (store.withObjects (jsonToTree store.objects value).2) :=
            Storage.addsObjects_withObjects (le_jsonToTree store.objects value)
          simp only
          cases (store.withObjects (jsonToTree store.objects value).2).getObject
              (jsonToTree store.objects value).1 with
          | none => exact Or.inl ⟨_, _, hjson, fun _ _ => rfl⟩
          | some o =>
              simp only
              cases (liftTree (parsePath path) :
                  Except (RepoError Id) StatePath) with
              | error e => exact Or.inl ⟨e, _, hjson, fun _ _ => rfl⟩
              | ok p =>
                  have hset := hjson.trans (setRoot_onlyAdds p o
                    (store.withObjects (jsonToTree store.objects value).2) root)
                  simp only
                  cases hbuild : setRoot p o (store.withObjects
                      (jsonToTree store.objects value).2) root with
                  | mk result built =>
                      rw [hbuild] at hset
                      cases result with
                      | error e => exact Or.inl ⟨e, built, hset, fun _ _ => rfl⟩
                      | ok newRoot =>
                          exact Or.inr ⟨newRoot, _, _, _, built, hset,
                            fun _ _ => rfl⟩
  | commitSpeculationCas spec expectedHead =>
      unfold Repository.buildSpeculation
      simp only
      cases store.rootOf expectedHead with
      | none => exact Or.inl ⟨_, store, .refl store, fun _ _ => rfl⟩
      | some root =>
          by_cases hbase : spec.baseRoot ≠ root
          · simp only [if_pos hbase]
            exact Or.inl ⟨_, store, .refl store, fun _ _ => rfl⟩
          · simp only [if_neg hbase]
            cases checkSpeculation store.objects spec w.options with
            | error e => exact Or.inl ⟨e, store, .refl store, fun _ _ => rfl⟩
            | ok =>
                have hsnd := landAsIs_snd store spec
                simp only
                cases hland : landAsIs store spec with
                | mk result kept =>
                    rw [hland] at hsnd
                    simp only at hsnd
                    subst hsnd
                    cases result with
                    | error e => exact Or.inl ⟨e, _, .refl _, fun _ _ => rfl⟩
                    | ok newRoot =>
                        exact Or.inr ⟨newRoot, _, _, _, _, .refl _,
                          fun _ _ => rfl⟩
  | set refName path value =>
      exact Or.inl ⟨_, store, .refl store, fun _ _ => rfl⟩
  | delete refName path =>
      exact Or.inl ⟨_, store, .refl store, fun _ _ => rfl⟩
  | commitSpeculation spec =>
      exact Or.inl ⟨_, store, .refl store, fun _ _ => rfl⟩

end Writer

/-! ## Merges in steps -/

/-- A merge of an agent. -/
structure Merger where
  repo : Repository
  source : String
  target : String
  options : CommitOptions
  allowDeletions : Bool

/-- Where a merge is. -/
inductive MergePc (Id : Type) where
  | reading (attempt : ℕ)
  | computing (attempt : ℕ) (isBranch : Bool)
  | landing (attempt : ℕ) (isBranch : Bool) (expected commit : Id)
  | done (result : Except (RepoError Id) Id)

def MergePc.isDone : MergePc Id → Bool
  | .done _ => true
  | _ => false

namespace Merger

variable (m : Merger)

/-- Compute the merge, or refuse it. -/
def compute (store : Storage Id) : Except (RepoError Id) (MergeComputation Id) :=
  match m.repo.computeMerge store m.source m.target with
  | .error e => .error e
  | .ok comp =>
      let removed := topLevelRemovals store.objects comp
      if !m.allowDeletions && !removed.isEmpty then
        .error (.mergeWouldDelete removed)
      else .ok comp

/-- The merge commit over a merged tree, when the tree reads back whole. -/
def buildMerged (comp : MergeComputation Id) (merged : Object Id) (now : ℤ)
    (store : Storage Id) (repo : Repository) : Outcome Id (Commit Id) :=
  let stored :=
    store.withObjects (store.objects.putAll (comp.created ++ [merged]))
  match firstMissingReachable stored.objects merged.id with
  | some missing => (.error (.integrityViolation merged.id missing), stored)
  | none =>
      repo.createCommit stored merged.id
        [comp.targetCommitId, comp.sourceCommitId] m.options now

/-- Compute a merge and store its commit; or find the head to move to. -/
def computeStep (attempt : ℕ) (isBranch : Bool) (now : ℤ)
    (store : Storage Id) : Storage Id × MergePc Id :=
  match m.compute store with
  | .error e => (store, .done (.error e))
  | .ok comp =>
      match comp.result with
      | .success merged =>
          match m.buildMerged comp merged now store m.repo with
          | (.error e, stored) => (stored, .done (.error e))
          | (.ok c, stored) =>
              (stored, .landing attempt isBranch comp.targetCommitId c.id)
      | .fastForward ffId =>
          let ffCommit :=
            if ffId = comp.sourceStateRoot then comp.sourceCommitId
            else comp.targetCommitId
          (store, .landing attempt isBranch comp.targetCommitId ffCommit)
      | .conflicts _ conflicts =>
          (store, .done (.error (.mergeConflicts conflicts)))

/-- One step of a merge, at time `now`. -/
def step (now : ℤ) (store : Storage Id) :
    MergePc Id → Storage Id × MergePc Id
  | .reading attempt =>
      if attempt < MAX_REF_CAS_ATTEMPTS then
        match m.repo.headForWrite store m.target with
        | .error e => (store, .done (.error e))
        | .ok (_, isBranch) => (store, .computing attempt isBranch)
      else (store, .done (.error .writeConflict))
  | .computing attempt isBranch => m.computeStep attempt isBranch now store
  | .landing attempt isBranch expected commit =>
      match m.repo.moveRef store m.target expected isBranch commit with
      | .error e => (store, .done (.error e))
      | .ok (true, moved) => (moved, .done (.ok commit))
      | .ok (false, kept) => (kept, .reading (attempt + 1))
  | .done r => (store, .done r)

/-- The members a step records. -/
def marks (now : ℤ) (store : Storage Id) : MergePc Id → List Id
  | .computing _ _ =>
      match m.compute store with
      | .error _ => []
      | .ok comp =>
          match comp.result with
          | .success merged =>
              m.repo.marksOf store (m.buildMerged comp merged now store)
          | _ => []
  | _ => []

theorem buildMerged_buildsOne (comp : MergeComputation Id) (merged : Object Id)
    (now : ℤ) (store : Storage Id) :
    m.repo.BuildsOne store (m.buildMerged comp merged now store) := by
  have hadds : store.AddsObjects
      (store.withObjects (store.objects.putAll (comp.created ++ [merged]))) :=
    Storage.addsObjects_withObjects (ObjectStore.le_putAll store.objects _)
  unfold Repository.BuildsOne buildMerged
  simp only
  cases firstMissingReachable (store.withObjects (store.objects.putAll
      (comp.created ++ [merged]))).objects merged.id with
  | some missing => exact Or.inl ⟨_, _, hadds, fun _ _ => rfl⟩
  | none => exact Or.inr ⟨_, _, _, _, _, hadds, fun _ _ => rfl⟩

theorem step_landing (attempt : ℕ) (isBranch : Bool) (expected commit : Id)
    (now : ℤ) (store : Storage Id) :
    m.step now store (.landing attempt isBranch expected commit) =
      match m.repo.landMerge store m.target expected isBranch commit with
      | (.error e, t) => (t, .done (.error e))
      | (.ok (some id), t) => (t, .done (.ok id))
      | (.ok none, t) => (t, .reading (attempt + 1)) := by
  simp only [step, Repository.landMerge]
  cases m.repo.moveRef store m.target expected isBranch commit with
  | error e => rfl
  | ok r =>
      obtain ⟨moved, t⟩ := r
      cases moved with
      | true => rfl
      | false => rfl

/-- An undisturbed attempt, step by step, is the attempt of
`merge_checked`. -/
theorem step_alone (attempt : ℕ) (hattempt : attempt < MAX_REF_CAS_ATTEMPTS)
    (now : ℤ) (store : Storage Id) :
    let read := m.step now store (.reading attempt)
    let computed := m.step now read.1 read.2
    m.step now computed.1 computed.2 =
      match m.repo.tryMergeChecked m.source m.target m.options
        m.allowDeletions now store with
      | (.error e, t) => (t, .done (.error e))
      | (.ok (some id), t) => (t, .done (.ok id))
      | (.ok none, t) => (t, .reading (attempt + 1)) := by
  intro read computed
  have hread : read = m.step now store (.reading attempt) := rfl
  have hcomputed : computed = m.step now read.1 read.2 := rfl
  unfold Repository.tryMergeChecked
  simp only [step, if_pos hattempt] at hread
  cases hhead : m.repo.headForWrite store m.target with
  | error e =>
      rw [hhead] at hread
      simp only [hcomputed, hread, step]
  | ok head =>
      obtain ⟨head, isBranch⟩ := head
      rw [hhead] at hread
      simp only [hread, step, computeStep, compute] at hcomputed
      cases hcomp : m.repo.computeMerge store m.source m.target with
      | error e =>
          rw [hcomp] at hcomputed
          simp only [hcomputed, step]
      | ok comp =>
          simp only [hcomp] at hcomputed
          by_cases hremoved : (!m.allowDeletions &&
              !(topLevelRemovals store.objects comp).isEmpty) = true
          · simp only [if_pos hremoved] at hcomputed
            simp only [hcomputed, step, if_pos hremoved]
          · simp only [if_neg hremoved] at hcomputed
            simp only [if_neg hremoved]
            cases hresult : comp.result with
            | conflicts o cs =>
                simp only [hresult] at hcomputed
                simp only [hcomputed, step]
            | fastForward ffId =>
                simp only [hresult] at hcomputed
                rw [hcomputed, step_landing]
            | success merged =>
                simp only [hresult, buildMerged] at hcomputed
                unfold Repository.landMerged
                simp only
                cases hmissing : firstMissingReachable (store.withObjects
                    (store.objects.putAll (comp.created ++ [merged]))).objects
                    merged.id with
                | some missing =>
                    simp only [hmissing] at hcomputed
                    simp only [hcomputed, step]
                | none =>
                    simp only [hmissing] at hcomputed
                    cases hcreate : m.repo.createCommit (store.withObjects
                        (store.objects.putAll (comp.created ++ [merged])))
                        merged.id [comp.targetCommitId, comp.sourceCommitId]
                        m.options now with
                    | mk result stored =>
                        cases result with
                        | error e =>
                            simp only [hcreate] at hcomputed
                            simp only [hcomputed, step]
                        | ok c =>
                            simp only [hcreate] at hcomputed
                            rw [hcomputed, step_landing]

end Merger

end AgentStateGraph
