import AgentStateGraph.Repo.IntentCommits

/-!
# Branches that take the next commit

Where a write has landed, the next intent commit lands too, unless another
writer moves the branch in between: nothing that the first write was checked
for can have changed.
-/

namespace AgentStateGraph

variable {Id : Type} [Digest Id]

namespace Repository

variable (repo : Repository) (refName : String)

/-- A stored commit stands on the branch, the seals allow its head, and the
epoch and session take commits. -/
structure Ready (s : Storage Id) : Prop where
  name : (refuseReservedRef refName : Except (RepoError Id) Unit) = .ok ()
  namespaces : repo.activeNamespace ∈ s.namespaces
  takes : repo.TakesCommits s
  head : ∃ head root, s.refAt repo.activeNamespace refName = some head ∧
    s.rootOf head = some root ∧
    repo.enforceEpochSeals s refName head = .ok ()

variable {repo refName}

/-! ## Seals -/

theorem enforceEpochSeals_ok_iff {s : Storage Id} {target : Id} :
    repo.enforceEpochSeals s refName target = .ok () ↔
      (refName = "main" → repo.epochSealStrict = true →
        ∀ id, repo.Seals s id → s.commits.IsAncestor id target) := by
  rw [← repo.checkEpochSealViolations_eq_nil_iff]
  unfold enforceEpochSeals
  cases repo.checkEpochSealViolations s target with
  | nil => simp
  | cons v vs =>
      by_cases hmain : refName = "main"
      · by_cases hstrict : repo.epochSealStrict = true
        · simp [hmain, hstrict]
        · simp [hmain, hstrict]
      · simp [hmain]

/-- A move to an extension of an allowed head is allowed. -/
theorem enforceEpochSeals_mono {s t : Storage Id} {head target : Id}
    (hepochs : t.epochs = s.epochs) (hcommits : s.commits ≤ t.commits)
    (hext : t.commits.IsAncestor head target)
    (h : repo.enforceEpochSeals s refName head = .ok ()) :
    repo.enforceEpochSeals t refName target = .ok () := by
  rw [enforceEpochSeals_ok_iff] at h ⊢
  intro hmain hstrict id hseals
  have hseals' : repo.Seals s id := by
    unfold Seals at hseals ⊢
    rwa [hepochs] at hseals
  exact ((h hmain hstrict id hseals').mono hcommits).trans hext

omit [Digest Id] in
theorem isReservedRef_of_refused
    (h : (refuseReservedRef refName : Except (RepoError Id) Unit) = .ok ()) :
    isReservedRef refName = false := by
  unfold refuseReservedRef at h
  split at h
  · contradiction
  next hopen =>
    simp only [Bool.or_eq_true, not_or, Bool.not_eq_true] at hopen
    exact hopen.1

theorem Ready.aside {s t : Storage Id} (hst : s.Aside t)
    (h : repo.Ready refName s) : repo.Ready refName t := by
  obtain ⟨head, root, hat, hroot, hseals⟩ := h.head
  refine ⟨h.name, hst.namespaces ▸ h.namespaces,
    (TakesCommits.of_tables hst.tablesKept).mpr h.takes, head, root, ?_, ?_, ?_⟩
  · rw [hst.refs _ _ (isReservedRef_of_refused h.name)]
    exact hat
  · exact Storage.rootOf_of_le hst.commits hroot
  · exact enforceEpochSeals_mono hst.epochs hst.commits (.refl _ head) hseals

/-- Rows of the taint table decide nothing here. -/
theorem Ready.of_taints {s : Storage Id} (taints : List Taint)
    (h : repo.Ready refName s) :
    repo.Ready refName { s with taints := taints } :=
  ⟨h.name, h.namespaces, h.takes, h.head⟩

section Landing

variable (repo refName)
variable (env : CallEnv Id) (options : CommitOptions)

theorem getCommit_raced (i : ℕ) (parent newRoot : Id) (built : Storage Id) :
    (repo.raced env refName options i parent newRoot built).getCommit
        (intentCommit env i newRoot [parent] options).id =
      some (intentCommit env i newRoot [parent] options) := by
  have hcommits := (repo.commitThrough_aside env i newRoot [parent] options
    built).tablesKept.trans
    (repo.moveRival_tablesKept refName (env.rival i) _) |>.commits
  apply hcommits
  simp [Storage.putCommit]

end Landing

variable {env : CallEnv Id} {build : BuildRoot Id} {options : CommitOptions}

variable {i : ℕ} {s s' : Storage Id}

/-- A write that landed leaves the branch ready. -/
theorem retryFrom_ready (hbuild : build.OnlyAdds) {left : ℕ} {id : Id}
    (h : retryFrom (repo.attemptThrough env refName build options) left i s =
      (.ok id, s')) : repo.Ready refName s' := by
  induction left generalizing i s with
  | zero => simp [retryFrom] at h
  | succ left ih =>
      unfold retryFrom at h
      by_cases hreach : ∃ parent isBranch newRoot built,
          repo.Reaches env refName build options i s parent isBranch newRoot
            built
      · obtain ⟨parent, isBranch, newRoot, built, hr⟩ := hreach
        have hattempt := hr.attempt hbuild
        dsimp only at hattempt
        rw [hattempt] at h
        split_ifs at h with hlost
        · exact ih h
        · simp only [Prod.mk.injEq, Except.ok.injEq] at h
          obtain ⟨-, rfl⟩ := h
          obtain ⟨hname, hns⟩ := repo.headForWrite_name hr.head
          obtain ⟨root, -, hbuilt⟩ := hr.root
          have hadds := aside_build hbuild s root
          rw [hbuilt] at hadds
          have hkept := repo.raced_tablesKept env refName options i parent
            newRoot built
          refine ⟨hname, ?_, ?_, _, newRoot, Storage.refAt_putRef_self _ _ _ _,
            ?_, hr.seals⟩
          · have hsame := hkept.namespaces.trans hadds.namespaces
            exact hsame ▸ hns
          · exact (TakesCommits.of_tables
              (hkept.trans (Storage.putRef_tablesKept _ _ _ _))).mpr hr.takes
          · exact Storage.rootOf_of_getCommit
              (getCommit_raced repo refName env options i parent newRoot built)
      · have hnone : ∀ parent isBranch newRoot built,
            ¬ repo.Reaches env refName build options i s parent isBranch
              newRoot built := by
          intro parent isBranch newRoot built hr
          exact hreach ⟨parent, isBranch, newRoot, built, hr⟩
        obtain ⟨e, he⟩ := attemptThrough_eq_error hnone
        rw [Outcome.eq_of_fst he] at h
        simp at h

theorem Ready.intentLands (h : repo.Ready refName s)
    (hrival : env.rival 0 = none) : repo.IntentLands env refName options s := by
  obtain ⟨head, root, hat, hroot, hseals⟩ := h.head
  have hname := h.name
  have hhead : repo.headForWrite s refName = .ok (head, true) := by
    unfold headForWrite
    rw [hname, Except.ok_bind]
    simp [Storage.getRef, h.namespaces, hat, liftStorage]
  have haside := repo.aside_commitThrough env 0 root [head] options s
  have hstays : (repo.raced env refName options 0 head root s).refAt
      repo.activeNamespace refName = some head := by
    simp only [raced, hrival, moveRival]
    rw [haside.refs _ _ (isReservedRef_of_refused h.name)]
    exact hat
  have hkept := repo.raced_tablesKept env refName options 0 head root s
  have hext : (repo.raced env refName options 0 head root
      s).commits.IsAncestor head
      (intentCommit env 0 root [head] options).id := by
    apply CommitStore.IsAncestor.of_mem_parents
    rw [CommitStore.parents_of_get
      (getCommit_raced repo refName env options 0 head root s)]
    exact List.mem_singleton_self head
  exact ⟨head, true, root, s,
    ⟨hhead, ⟨root, hroot, rfl⟩, h.takes,
      enforceEpochSeals_mono hkept.epochs hkept.commits hext hseals⟩,
    fun _ haway => (haway hstays).elim⟩

/-! ## Writes that do not land -/

/-- The branch is where it was, or where another writer moved it. -/
def LeftAlone (repo : Repository) (env : CallEnv Id) (refName : String)
    (s t : Storage Id) : Prop :=
  t.refAt repo.activeNamespace refName =
      s.refAt repo.activeNamespace refName ∨
    ∃ i id, env.rival i = some id ∧
      t.refAt repo.activeNamespace refName = some id

theorem LeftAlone.trans {t u : Storage Id}
    (hst : LeftAlone repo env refName s t)
    (htu : LeftAlone repo env refName t u) :
    LeftAlone repo env refName s u := by
  rcases htu with hsame | hmoved
  · rcases hst with hsame' | ⟨i, id, hrival, hat⟩
    · exact Or.inl (hsame.trans hsame')
    · exact Or.inr ⟨i, id, hrival, hsame.trans hat⟩
  · exact Or.inr hmoved

theorem leftAlone_of_aside {t : Storage Id}
    (hname : isReservedRef refName = false) (h : s.Aside t) :
    LeftAlone repo env refName s t :=
  Or.inl (h.refs _ _ hname)

theorem leftAlone_moveRival (i : ℕ) (s : Storage Id) :
    LeftAlone repo env refName s
      (repo.moveRival refName (env.rival i) s) := by
  cases hrival : env.rival i with
  | none => exact Or.inl rfl
  | some id => exact Or.inr ⟨i, id, hrival, Storage.refAt_putRef_self _ _ _ _⟩

theorem attemptThrough_leftAlone (hbuild : build.OnlyAdds)
    {r : Except (RepoError Id) (Option Id)} (hr : ∀ id, r ≠ .ok (some id))
    (h : repo.attemptThrough env refName build options i s = (r, s')) :
    LeftAlone repo env refName s s' := by
  unfold attemptThrough at h
  split at h
  next =>
    obtain rfl := (Prod.mk.inj h).2
    exact Or.inl rfl
  next parent isBranch hhead =>
    have hname := isReservedRef_of_refused (repo.headForWrite_name hhead).1
    split at h
    next =>
      obtain rfl := (Prod.mk.inj h).2
      exact Or.inl rfl
    next root _ =>
      have hadds := aside_build hbuild s root
      split at h
      next hbuilt =>
        obtain rfl := (Prod.mk.inj h).2
        rw [hbuilt] at hadds
        exact leftAlone_of_aside hname hadds
      next newRoot built hbuilt =>
        rw [hbuilt] at hadds
        have hcommit := hadds.trans
          (repo.aside_commitThrough env i newRoot [parent] options built)
        split at h
        next hstored =>
          obtain rfl := (Prod.mk.inj h).2
          rw [hstored] at hcommit
          exact leftAlone_of_aside hname hcommit
        next commit stored hstored =>
          rw [hstored] at hcommit
          have hraced : LeftAlone repo env refName s
              (repo.moveRival refName (env.rival i) stored) :=
            (leftAlone_of_aside hname hcommit).trans
              (leftAlone_moveRival i stored)
          dsimp only at h
          split at h
          next =>
            obtain rfl := (Prod.mk.inj h).2
            exact hraced
          next =>
            obtain rfl := (Prod.mk.inj h).1
            exact (hr _ rfl).elim
          next hmove =>
            obtain rfl := (Prod.mk.inj h).2
            obtain rfl := repo.moveRef_eq_ok_false hmove
            exact hraced

/-- A write that fails leaves the branch alone. -/
theorem retryFrom_leftAlone (hbuild : build.OnlyAdds) {left : ℕ}
    {e : RepoError Id}
    (h : retryFrom (repo.attemptThrough env refName build options) left i s =
      (.error e, s')) : LeftAlone repo env refName s s' := by
  induction left generalizing i s with
  | zero =>
      obtain rfl := (Prod.mk.inj h).2
      exact Or.inl rfl
  | succ left ih =>
      unfold retryFrom at h
      split at h
      next hattempt =>
        obtain rfl := (Prod.mk.inj h).2
        exact attemptThrough_leftAlone hbuild (by simp) hattempt
      next => cases (Prod.mk.inj h).1
      next hattempt =>
        exact (attemptThrough_leftAlone hbuild (by simp) hattempt).trans (ih h)

end Repository

end AgentStateGraph
