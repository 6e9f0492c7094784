import AgentStateGraph.Repo.WriteThrough

/-!
# Commits against another writer

A write builds a new root on the head of its ref, stores a commit with the
active epoch and session, and lands it by compare-and-swap.  Another writer of
the branch can win the race; the commit is then rebuilt on the new head.  The
intent commit of a taint is such a write that changes no state.

A commit of a repository with an active epoch is itself a table write that goes
through to the control ref.
-/

namespace AgentStateGraph

variable {Id : Type} [Digest Id]

/-! ## Commits with their epoch -/

namespace Repository

variable (repo : Repository) (env : CallEnv Id)

/-- Associate a commit with the active epoch; `i` is the attempt it is made
in. -/
def joinEpoch (i : ℕ) (commit : Id) (stored : Storage Id) : Outcome Id Unit :=
  match repo.activeEpoch with
  | none => (.ok (), stored)
  | some epochId =>
      env.writeThrough (i + 1) (.member epochId commit)
        (env.systemOptions .checkpoint
          ("epoch " ++ epochId ++ ": add " ++ displayId commit)) (env.now i)
        (fun marked =>
          match liftStorage (marked.setCommitEpoch commit epochId) with
          | .error e => (.error e, marked)
          | .ok joined => (.ok (), joined)) stored

/-- `create_commit`: store a commit, associate it with the active epoch and
session. -/
def commitThrough (i : ℕ) (stateRoot : Id) (parents : List Id)
    (options : CommitOptions) (store : Storage Id) : Outcome Id (Commit Id) :=
  let commit := CommitBuilder.build stateRoot parents options (env.now i)
  match repo.joinEpoch env i commit.id (store.putCommit commit) with
  | (.error e, left) => (.error e, left)
  | (.ok (), inEpoch) =>
      match liftStorage (repo.associateSession inEpoch commit.id) with
      | .error e => (.error e, inEpoch)
      | .ok inSession => (.ok commit, inSession)

/-- Another writer's move of the branch. -/
def moveRival (refName : String) (target : Option Id) (store : Storage Id) :
    Storage Id :=
  match target with
  | none => store
  | some id => store.putRef repo.activeNamespace refName id

/-- Attempt `i` at a write; `none` when another writer moved the branch. -/
def attemptThrough (refName : String) (build : BuildRoot Id)
    (options : CommitOptions) (i : ℕ) (store : Storage Id) :
    Outcome Id (Option Id) :=
  match repo.headForWrite store refName with
  | .error e => (.error e, store)
  | .ok (parent, isBranch) =>
      match store.rootOf parent with
      | none => (.error (.refNotFound refName), store)
      | some root =>
          match build store root with
          | (.error e, built) => (.error e, built)
          | (.ok newRoot, built) =>
              match repo.commitThrough env i newRoot [parent] options built with
              | (.error e, left) => (.error e, left)
              | (.ok commit, stored) =>
                  let raced := repo.moveRival refName (env.rival i) stored
                  match repo.moveRef raced refName parent isBranch commit.id with
                  | .error e => (.error e, raced)
                  | .ok (true, moved) => (.ok (some commit.id), moved)
                  | .ok (false, kept) => (.ok none, kept)

def writeThroughLoop (refName : String) (build : BuildRoot Id)
    (options : CommitOptions) (store : Storage Id) : Outcome Id Id :=
  casLoop (repo.attemptThrough env refName build options) store

/-- `write_taint_intent`, against another writer. -/
def intentThrough (refName : String) (options : CommitOptions)
    (store : Storage Id) : Outcome Id Id :=
  repo.writeThroughLoop env refName sameRoot options store

end Repository

/-! ## Which commits are taken -/

namespace Repository

variable (repo : Repository)

/-- The active epoch takes members, and their control commit can be
marked. -/
def EpochTakes (s : Storage Id) : Prop :=
  ∀ epochId, repo.activeEpoch = some epochId →
    defaultNs ∈ s.namespaces ∧
      ∃ e, s.epochs.find? (fun e => e.id = epochId) = some e ∧
        e.status = .active

/-- The active session has not ended. -/
def SessionTakes (s : Storage Id) : Prop :=
  ∀ sessionId, repo.activeSession = some sessionId →
    s.sessions[sessionId]? = some .active

def TakesCommits (s : Storage Id) : Prop :=
  repo.EpochTakes s ∧ repo.SessionTakes s

variable {repo}

theorem TakesCommits.of_tables {s t : Storage Id} (h : s.TablesKept t) :
    repo.TakesCommits t ↔ repo.TakesCommits s := by
  simp only [TakesCommits, EpochTakes, SessionTakes, h.namespaces, h.epochs,
    h.sessions]

variable (repo) (env : CallEnv Id)

theorem setCommitEpoch_ok_iff {s : Storage Id} (commit : Id)
    (epochId : String) :
    (∃ t, s.setCommitEpoch commit epochId = .ok t) ↔
      ∃ e, s.epochs.find? (fun e => e.id = epochId) = some e ∧
        e.status = .active := by
  unfold Storage.setCommitEpoch
  split
  next hnone => simp [hnone]
  next e hsome =>
    rw [hsome]
    cases hstatus : e.status <;> simp [hstatus]

theorem setCommitSession_ok_iff {s : Storage Id} {commit : Id}
    {sessionId : String} :
    (∃ t, s.setCommitSession commit sessionId = .ok t) ↔
      s.sessions[sessionId]? = some .active := by
  unfold Storage.setCommitSession
  split
  next h => simp [h]
  next h => simp [h]
  next h => simp [h]

theorem joinEpoch_aside (i : ℕ) (commit : Id) (s : Storage Id) :
    s.Aside (repo.joinEpoch env i commit s).2 := by
  unfold joinEpoch
  split
  · exact .refl s
  next epochId _ =>
    apply env.writeThrough_aside
    split
    · exact .refl _
    next h =>
      exact Storage.setCommitEpoch_aside (liftStorage_eq_ok_iff.mp h)

theorem joinEpoch_ok_iff (i : ℕ) (commit : Id) (s : Storage Id) :
    (repo.joinEpoch env i commit s).1 = .ok () ↔ repo.EpochTakes s := by
  unfold joinEpoch EpochTakes
  cases hactive : repo.activeEpoch with
  | none => simp
  | some epochId =>
      simp only [Option.some.injEq, forall_eq']
      by_cases hns : defaultNs ∈ s.namespaces
      · rw [env.writeThrough_fst _ _ _ _ _ hns]
        have htake := setCommitEpoch_ok_iff commit epochId
          (s := env.pending (i + 1) (.member epochId commit) s)
        rw [(env.pending_aside (i + 1) (.member epochId commit) s).epochs]
          at htake
        rw [← htake]
        split
        next h =>
          refine iff_of_false (by simp) ?_
          rintro ⟨-, t, hok⟩
          rw [hok] at h
          cases h
        next h => simp [hns, liftStorage_eq_ok_iff.mp h]
      · rw [env.writeThrough_of_missing _ _ _ _ _ hns]
        simp [hns]

theorem associateSession_aside {s t : Storage Id} {commit : Id}
    (h : repo.associateSession s commit = .ok t) : s.Aside t := by
  unfold associateSession at h
  split at h
  · cases h
    exact .refl s
  · exact Storage.setCommitSession_aside h

theorem associateSession_ok_iff (s : Storage Id) (commit : Id) :
    (∃ t, repo.associateSession s commit = .ok t) ↔ repo.SessionTakes s := by
  unfold associateSession SessionTakes
  cases hactive : repo.activeSession with
  | none => simp
  | some sessionId => simp [setCommitSession_ok_iff]

section CommitThrough

variable (i : ℕ) (root : Id) (parents : List Id) (options : CommitOptions)
  (s : Storage Id)

/-- The commit that attempt `i` stores. -/
def intentCommit : Commit Id :=
  CommitBuilder.build root parents options (env.now i)

theorem commitThrough_aside :
    (s.putCommit (intentCommit env i root parents options)).Aside
      (repo.commitThrough env i root parents options s).2 := by
  have hjoin := repo.joinEpoch_aside env i
    (intentCommit env i root parents options).id
    (s.putCommit (intentCommit env i root parents options))
  unfold commitThrough
  dsimp only
  split
  next h =>
    simp only [intentCommit, h] at hjoin
    exact hjoin
  next inEpoch h =>
    simp only [intentCommit, h] at hjoin
    split
    · exact hjoin
    next hsession =>
      exact hjoin.trans
        (repo.associateSession_aside (liftStorage_eq_ok_iff.mp hsession))

theorem aside_commitThrough :
    s.Aside (repo.commitThrough env i root parents options s).2 :=
  (s.putCommit_aside _).trans
    (repo.commitThrough_aside env i root parents options s)

theorem commitThrough_ok_iff {c : Commit Id} :
    (repo.commitThrough env i root parents options s).1 = .ok c ↔
      repo.TakesCommits s ∧ c = intentCommit env i root parents options := by
  set commit := intentCommit env i root parents options
  have hjoin := repo.joinEpoch_aside env i commit.id (s.putCommit commit)
  have hepoch := repo.joinEpoch_ok_iff env i commit.id (s.putCommit commit)
  have hepochs : repo.EpochTakes (s.putCommit commit) ↔ repo.EpochTakes s :=
    Iff.rfl
  rw [hepochs] at hepoch
  unfold commitThrough TakesCommits
  dsimp only
  split
  next e left h =>
    simp only [commit, intentCommit, h] at hepoch
    simp [← hepoch]
  next inEpoch h =>
    simp only [commit, intentCommit, h, true_iff] at hepoch hjoin
    have hsession := repo.associateSession_ok_iff inEpoch commit.id
    have hsame : repo.SessionTakes inEpoch ↔ repo.SessionTakes s := by
      simp only [SessionTakes, hjoin.sessions]
      exact Iff.rfl
    rw [hsame] at hsession
    split
    next h' =>
      refine iff_of_false (by simp) ?_
      rintro ⟨⟨-, htake⟩, -⟩
      obtain ⟨t, ht⟩ := hsession.mpr htake
      simp only [commit, intentCommit] at ht
      rw [ht] at h'
      cases h'
    next t h' =>
      have htake := hsession.mp ⟨t, liftStorage_eq_ok_iff.mp h'⟩
      simp only [Except.ok.injEq, hepoch, htake, and_self, true_and]
      exact eq_comm

end CommitThrough

/-! ## The move -/

section

variable {s : Storage Id} {refName : String} {target : Id}

theorem moveRef_of_seals (parent : Id) (isBranch : Bool)
    (hname : (refuseReservedRef refName : Except (RepoError Id) Unit) = .ok ())
    (hns : repo.activeNamespace ∈ s.namespaces)
    (hseals : repo.enforceEpochSeals s refName target = .ok ()) :
    repo.moveRef s refName parent isBranch target =
      if isBranch = true ∧ s.refAt repo.activeNamespace refName ≠ some parent
      then .ok (false, s)
      else .ok (true, s.putRef repo.activeNamespace refName target) := by
  unfold moveRef advanceRef guardedSetRef
  rw [hname, Except.ok_bind, hseals, Except.ok_bind]
  cases isBranch
  · simp [Storage.setRef, hns, liftStorage]
  · by_cases hat : s.refAt repo.activeNamespace refName = some parent
    · simp [Storage.casRef, hns, hat, liftStorage]
    · simp [Storage.casRef, hns, hat, liftStorage]

theorem moveRef_of_violation {parent : Id} {isBranch : Bool} {e : RepoError Id}
    (hname : (refuseReservedRef refName : Except (RepoError Id) Unit) = .ok ())
    (hseals : repo.enforceEpochSeals s refName target = .error e) :
    repo.moveRef s refName parent isBranch target = .error e := by
  unfold moveRef advanceRef guardedSetRef
  cases isBranch <;> simp [hname, hseals]

theorem moveRef_eq_ok_false {t : Storage Id} {parent : Id} {isBranch : Bool}
    (h : repo.moveRef s refName parent isBranch target = .ok (false, t)) :
    t = s := by
  unfold moveRef at h
  split at h
  next =>
    obtain ⟨hmoved, -⟩ | ⟨-, -, hsame⟩ := repo.advanceRef_eq_ok h
    · contradiction
    · exact hsame
  next =>
    obtain ⟨moved, -, h⟩ := Except.bind_eq_ok_iff.mp h
    cases h

theorem headForWrite_name {head : Id × Bool}
    (h : repo.headForWrite s refName = .ok head) :
    (refuseReservedRef refName : Except (RepoError Id) Unit) = .ok () ∧
      repo.activeNamespace ∈ s.namespaces := by
  obtain ⟨done, hname, h⟩ := Except.bind_eq_ok_iff.mp h
  obtain ⟨branch, hget, -⟩ := Except.bind_eq_ok_iff.mp h
  have hget := liftStorage_eq_ok_iff.mp hget
  unfold Storage.getRef at hget
  split at hget
  next hns => exact ⟨hname, hns⟩
  next => contradiction

end

theorem moveRival_tablesKept (refName : String) (target : Option Id)
    (s : Storage Id) : s.TablesKept (repo.moveRival refName target s) := by
  cases target with
  | none => exact .refl s
  | some id => exact s.putRef_tablesKept _ _ _

/-! ## When a write lands -/

section Write

variable (refName : String) (build : BuildRoot Id) (options : CommitOptions)

/-- The store when attempt `i` moves its ref. -/
def raced (i : ℕ) (parent newRoot : Id) (built : Storage Id) : Storage Id :=
  repo.moveRival refName (env.rival i)
    (repo.commitThrough env i newRoot [parent] options built).2

/-- What attempt `i` needs to get as far as moving its ref: a ref that is not
reserved and names a stored commit, a root built on its state, an epoch and a
session that take the commit, and epoch seals that allow the move. -/
structure Reaches (i : ℕ) (s : Storage Id) (parent : Id) (isBranch : Bool)
    (newRoot : Id) (built : Storage Id) : Prop where
  head : repo.headForWrite s refName = .ok (parent, isBranch)
  root : ∃ root, s.rootOf parent = some root ∧
    build s root = (.ok newRoot, built)
  takes : repo.TakesCommits built
  seals : repo.enforceEpochSeals
    (repo.raced env refName options i parent newRoot built) refName
    (intentCommit env i newRoot [parent] options).id = .ok ()

/-- One of `left` attempts lands, counted from attempt `i`: each reaches its
move, and on a branch another writer has moved meanwhile the next one is
made. -/
def WriteLands : ℕ → ℕ → Storage Id → Prop
  | 0, _, _ => False
  | left + 1, i, s =>
      ∃ parent isBranch newRoot built,
        repo.Reaches env refName build options i s parent isBranch newRoot
          built ∧
        (isBranch = true →
          (repo.raced env refName options i parent newRoot built).refAt
            repo.activeNamespace refName ≠ some parent →
          WriteLands left (i + 1)
            (repo.raced env refName options i parent newRoot built))

theorem raced_tablesKept (i : ℕ) (parent newRoot : Id) (built : Storage Id) :
    built.TablesKept
      (repo.raced env refName options i parent newRoot built) :=
  (repo.aside_commitThrough env i newRoot [parent] options
    built).tablesKept.trans
    (repo.moveRival_tablesKept refName (env.rival i) _)

variable {repo env refName build options}

theorem aside_build (hbuild : build.OnlyAdds) (s : Storage Id)
    (root : Id) : s.Aside (build s root).2 := by
  have hadds := hbuild s root
  rw [hadds.eq]
  exact s.withObjects_aside _

theorem Reaches.attempt {i : ℕ} {s built : Storage Id} {parent newRoot : Id}
    {isBranch : Bool} (hbuild : build.OnlyAdds)
    (h : repo.Reaches env refName build options i s parent isBranch newRoot
      built) :
    repo.attemptThrough env refName build options i s =
      let raced := repo.raced env refName options i parent newRoot built
      let commit := intentCommit env i newRoot [parent] options
      if isBranch = true ∧
        raced.refAt repo.activeNamespace refName ≠ some parent
      then (.ok none, raced)
      else (.ok (some commit.id),
        raced.putRef repo.activeNamespace refName commit.id) := by
  obtain ⟨root, hroot, hbuilt⟩ := h.root
  obtain ⟨hname, hns⟩ := repo.headForWrite_name h.head
  have hcommit :=
    (repo.commitThrough_ok_iff env i newRoot [parent] options built).mpr
      ⟨h.takes, rfl⟩
  have hadds := aside_build hbuild s root
  rw [hbuilt] at hadds
  have hns' : repo.activeNamespace ∈
      (repo.raced env refName options i parent newRoot built).namespaces := by
    rw [(repo.raced_tablesKept env refName options i parent newRoot
        built).namespaces,
      hadds.namespaces]
    exact hns
  have hmove := repo.moveRef_of_seals parent isBranch hname hns' h.seals
  unfold attemptThrough
  rw [h.head]
  dsimp only
  rw [hroot]
  dsimp only
  rw [hbuilt]
  dsimp only
  rw [Outcome.eq_of_fst hcommit]
  dsimp only
  by_cases hlost : isBranch = true ∧
      (repo.raced env refName options i parent newRoot built).refAt
        repo.activeNamespace refName ≠ some parent
  · rw [if_pos hlost] at hmove ⊢
    simp only [raced] at hmove ⊢
    rw [hmove]
  · rw [if_neg hlost] at hmove ⊢
    simp only [raced] at hmove ⊢
    rw [hmove]

theorem attemptThrough_eq_error {i : ℕ} {s : Storage Id}
    (h : ∀ parent isBranch newRoot built,
      ¬ repo.Reaches env refName build options i s parent isBranch newRoot
        built) :
    ∃ e, (repo.attemptThrough env refName build options i s).1 = .error e := by
  unfold attemptThrough
  split
  next e _ => exact ⟨e, rfl⟩
  next parent isBranch hhead =>
    split
    next => exact ⟨_, rfl⟩
    next root hroot =>
      split
      next e _ _ => exact ⟨e, rfl⟩
      next newRoot built hbuilt =>
        split
        next e _ _ => exact ⟨e, rfl⟩
        next commit stored hcommit =>
          obtain ⟨htakes, rfl⟩ :=
            (repo.commitThrough_ok_iff env i newRoot [parent] options built).mp
              (congrArg Prod.fst hcommit)
          obtain ⟨hname, -⟩ := repo.headForWrite_name hhead
          dsimp only
          cases hseals : repo.enforceEpochSeals
              (repo.moveRival refName (env.rival i) stored) refName
              (intentCommit env i newRoot [parent] options).id with
          | error e =>
              rw [repo.moveRef_of_violation hname hseals]
              exact ⟨e, rfl⟩
          | ok =>
              refine (h parent isBranch newRoot built
                ⟨hhead, ⟨root, hroot, hbuilt⟩, htakes, ?_⟩).elim
              simpa only [raced, hcommit] using hseals

theorem Reaches.unique {i : ℕ} {s built built' : Storage Id}
    {parent newRoot parent' newRoot' : Id} {isBranch isBranch' : Bool}
    (h : repo.Reaches env refName build options i s parent isBranch newRoot
      built)
    (h' : repo.Reaches env refName build options i s parent' isBranch' newRoot'
      built') :
    parent' = parent ∧ isBranch' = isBranch ∧ newRoot' = newRoot ∧
      built' = built := by
  have hhead := h'.head.symm.trans h.head
  simp only [Except.ok.injEq, Prod.mk.injEq] at hhead
  obtain ⟨rfl, rfl⟩ := hhead
  obtain ⟨root, hroot, hbuilt⟩ := h.root
  obtain ⟨root', hroot', hbuilt'⟩ := h'.root
  obtain rfl := Option.some.inj (hroot.symm.trans hroot')
  have hsame := hbuilt'.symm.trans hbuilt
  simp only [Prod.mk.injEq, Except.ok.injEq] at hsame
  exact ⟨rfl, rfl, hsame.1, hsame.2⟩

variable (repo env refName options)

theorem attemptThrough_tablesKept (hbuild : build.OnlyAdds) (i : ℕ)
    (s : Storage Id) :
    s.TablesKept (repo.attemptThrough env refName build options i s).2 := by
  unfold attemptThrough
  split
  · exact .refl s
  next parent isBranch _ =>
    split
    · exact .refl s
    next root _ =>
      have hadds := aside_build hbuild s root
      split
      next h =>
        rw [h] at hadds
        exact hadds.tablesKept
      next newRoot built h =>
        rw [h] at hadds
        have hcommit :=
          repo.aside_commitThrough env i newRoot [parent] options built
        have hraced := hadds.tablesKept.trans
          (repo.raced_tablesKept env refName options i parent newRoot built)
        split
        next h =>
          rw [h] at hcommit
          exact (hadds.trans hcommit).tablesKept
        next commit stored h =>
          simp only [raced, h] at hraced
          dsimp only
          split
          · exact hraced
          next h' =>
            obtain ⟨rfl, -⟩ := repo.moveRef_eq_ok_true h'
            exact hraced.trans (Storage.putRef_tablesKept _ _ _ _)
          next h' =>
            obtain rfl := repo.moveRef_eq_ok_false h'
            exact hraced

/-! ## The loop -/

theorem retryFrom_ok_iff (hbuild : build.OnlyAdds) (left i : ℕ)
    (s : Storage Id) :
    (∃ id, (retryFrom (repo.attemptThrough env refName build options) left i
        s).1 = .ok id) ↔
      repo.WriteLands env refName build options left i s := by
  induction left generalizing i s with
  | zero => simp [retryFrom, WriteLands]
  | succ left ih =>
      rw [WriteLands]
      by_cases hreach : ∃ parent isBranch newRoot built,
          repo.Reaches env refName build options i s parent isBranch newRoot
            built
      · obtain ⟨parent, isBranch, newRoot, built, h⟩ := hreach
        have hattempt := h.attempt hbuild
        unfold retryFrom
        dsimp only at hattempt
        rw [hattempt]
        split_ifs with hlost
        · dsimp only
          rw [ih]
          constructor
          · intro hnext
            exact ⟨parent, isBranch, newRoot, built, h, fun _ _ => hnext⟩
          · rintro ⟨parent', isBranch', newRoot', built', h', hnext⟩
            obtain ⟨rfl, rfl, rfl, rfl⟩ := h.unique h'
            exact hnext hlost.1 hlost.2
        · refine iff_of_true ⟨_, rfl⟩
            ⟨parent, isBranch, newRoot, built, h, ?_⟩
          intro hbranch haway
          exact (hlost ⟨hbranch, haway⟩).elim
      · have hnone : ∀ parent isBranch newRoot built,
            ¬ repo.Reaches env refName build options i s parent isBranch
              newRoot built := by
          intro parent isBranch newRoot built h
          exact hreach ⟨parent, isBranch, newRoot, built, h⟩
        obtain ⟨e, he⟩ := attemptThrough_eq_error hnone
        unfold retryFrom
        rw [Outcome.eq_of_fst he]
        refine iff_of_false (by simp) ?_
        rintro ⟨parent, isBranch, newRoot, built, h, -⟩
        exact hnone _ _ _ _ h

theorem retryFrom_tablesKept (hbuild : build.OnlyAdds) (left i : ℕ)
    (s : Storage Id) :
    s.TablesKept
      (retryFrom (repo.attemptThrough env refName build options) left i
        s).2 := by
  induction left generalizing i s with
  | zero => exact .refl s
  | succ left ih =>
      have hattempt :=
        repo.attemptThrough_tablesKept env refName options hbuild i s
      unfold retryFrom
      split
      next h =>
        rw [h] at hattempt
        exact hattempt
      next h =>
        rw [h] at hattempt
        exact hattempt
      next h =>
        rw [h] at hattempt
        exact hattempt.trans (ih (i + 1) _)

theorem writeThroughLoop_ok_iff (hbuild : build.OnlyAdds) (s : Storage Id) :
    (∃ id, (repo.writeThroughLoop env refName build options s).1 = .ok id) ↔
      repo.WriteLands env refName build options MAX_REF_CAS_ATTEMPTS 0 s :=
  repo.retryFrom_ok_iff env refName options hbuild MAX_REF_CAS_ATTEMPTS 0 s

theorem writeThroughLoop_tablesKept (hbuild : build.OnlyAdds)
    (s : Storage Id) :
    s.TablesKept (repo.writeThroughLoop env refName build options s).2 :=
  repo.retryFrom_tablesKept env refName options hbuild MAX_REF_CAS_ATTEMPTS 0 s

end Write

/-! ## Intent commits -/

section Intent

variable (refName : String) (options : CommitOptions)

/-- The intent commit lands: one of the attempts at a commit that changes no
state does. -/
def IntentLands (s : Storage Id) : Prop :=
  repo.WriteLands env refName sameRoot options MAX_REF_CAS_ATTEMPTS 0 s

theorem intentThrough_ok_iff (s : Storage Id) :
    (∃ id, (repo.intentThrough env refName options s).1 = .ok id) ↔
      repo.IntentLands env refName options s :=
  repo.writeThroughLoop_ok_iff env refName options sameRoot_onlyAdds s

theorem intentThrough_tablesKept (s : Storage Id) :
    s.TablesKept (repo.intentThrough env refName options s).2 :=
  repo.writeThroughLoop_tablesKept env refName options sameRoot_onlyAdds s

end Intent

end Repository

end AgentStateGraph
