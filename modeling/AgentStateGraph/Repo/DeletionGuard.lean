import AgentStateGraph.Repo.MergePreview
import AgentStateGraph.Repo.Transactions

/-!
# The deletion guard of a merge

A merge reads its refs, computes, checks what it would delete and lands, and
other writers work on the store between any two of these steps.  Landing on a
stored ref is a compare-and-swap on the head the merge was computed for, so a
merge that may not delete keeps every entry at the top of the state it
replaces, whatever the others did.
-/

namespace AgentStateGraph

open Program RepoProgram

variable {Id τ : Type} [Digest Id]

/-! ## A merge in steps -/

/-- The stored tree of a commit, whole. -/
def Storage.treeWhole (store : Storage Id) (commit : Id) : Bool :=
  match store.rootOf commit with
  | some root => (firstMissingReachable store.objects root).isNone
  | none => false

/-- A merge that landed: the commit, the head that the target pointed at when
it was moved, whether the attempt had found the target to be a stored ref, and
whether the target's tree was whole when the attempt read it. -/
structure MergeLanding (Id : Type) where
  commit : Id
  replaced : Option Id
  isBranch : Bool
  targetWhole : Bool
deriving DecidableEq

namespace Repository

variable (repo : Repository)

/-- Move the target, noting the head it was at. -/
def landingStep (target : String) (expected : Id)
    (isBranch targetWhole : Bool) (commit : Id) :
    RepoProgram Id τ (Except (RepoError Id) (Option (MergeLanding Id))) :=
  .call fun _ s =>
    let replaced := s.store.refAt repo.activeNamespace target
    let out := repo.landMerge s.store target expected isBranch commit
    (out.1.map fun landed =>
      landed.map fun id => ⟨id, replaced, isBranch, targetWhole⟩,
      ⟨out.2, s.trace⟩)

/-- What an attempt does once the merge is computed and may land. -/
def landSteps (target : String) (options : CommitOptions)
    (comp : MergeComputation Id) (isBranch targetWhole : Bool) :
    RepoProgram Id τ (Except (RepoError Id) (Option (MergeLanding Id))) :=
  match comp.result with
  | .success merged =>
      write (fun _ s => (.ok (), s.withObjects
        (s.objects.putAll (comp.created ++ [merged])))) (fun _ => []) >>= fun _ =>
      query (fun s => firstMissingReachable s.objects merged.id) >>= fun
        | some missing => pure (.error (.integrityViolation merged.id missing))
        | none =>
            (write (fun m s => repo.createCommit s merged.id
              [comp.targetCommitId, comp.sourceCommitId] options (m.now 0))
              fun _ => []).attempt fun c =>
            repo.landingStep target comp.targetCommitId isBranch targetWhole
              c.id
  | .fastForward ffId =>
      repo.landingStep target comp.targetCommitId isBranch targetWhole
        (comp.ffCommit ffId)
  | .conflicts _ conflicts => pure (.error (.mergeConflicts conflicts))

/-- Compute the merge, a step for each read; with it comes whether the
target's tree was whole. -/
def computeSteps (source target : String) :
    RepoProgram Id τ (Except (RepoError Id) (MergeComputation Id × Bool)) :=
  (query fun s => repo.resolveRef s source).attempt fun sourceId =>
  (query fun s => (repo.resolveRef s target).map fun id =>
    (id, s.treeWhole id)).attempt fun found =>
  (query fun s => s.requireCommit sourceId source).attempt fun sc =>
  (query fun s => s.requireCommit found.1 target).attempt fun tc =>
  (query fun s => s.mergeBase sourceId found.1).attempt fun baseId =>
  (query fun s => s.requireCommit baseId "base").attempt fun bc =>
  (query fun s => mergeTrees s.objects bc.stateRoot tc.stateRoot sc.stateRoot
    bc.stateRoot).attempt fun merged =>
  pure (.ok (⟨sourceId, found.1, sc.stateRoot, tc.stateRoot, merged.1,
    merged.2⟩, found.2))

/-- One attempt of a merge. -/
def mergeAttempt (source target : String) (options : CommitOptions)
    (allowDeletions : Bool) :
    RepoProgram Id τ (Except (RepoError Id) (Option (MergeLanding Id))) :=
  (query fun s => repo.headForWrite s target).attempt fun head =>
  (repo.computeSteps source target).attempt fun found =>
  query (fun s => topLevelRemovals s.objects found.1) >>= fun removed =>
  if !allowDeletions && !removed.isEmpty then
    pure (.error (.mergeWouldDelete removed))
  else repo.landSteps target options found.1 head.2 found.2

/-- The attempts that are left. -/
def mergeLoop (source target : String) (options : CommitOptions)
    (allowDeletions : Bool) :
    ℕ → RepoProgram Id τ (Except (RepoError Id) (MergeLanding Id))
  | 0 => pure (.error .writeConflict)
  | left + 1 =>
      (repo.mergeAttempt source target options allowDeletions).attempt fun
        | some landing => pure (.ok landing)
        | none => mergeLoop source target options allowDeletions left

def mergeSteps (source target : String) (options : CommitOptions)
    (allowDeletions : Bool) :
    RepoProgram Id τ (Except (RepoError Id) (MergeLanding Id)) :=
  repo.mergeLoop source target options allowDeletions MAX_REF_CAS_ATTEMPTS

/-! ## Alone -/

theorem alone_query {α β : Type} (m : Moment) (f : Storage Id → α)
    (g : α → RepoProgram Id τ β) (s : Traced Id τ) :
    (query f >>= g).alone m s = (g (f s.store)).alone m s := by
  unfold query
  rw [alone_bind, alone_read]

theorem alone_read_attempt {α β : Type} (m : Moment)
    (f : Storage Id → Except (RepoError Id) α)
    (g : α → RepoProgram Id τ (Except (RepoError Id) β)) (s : Traced Id τ) :
    ((query f).attempt g).alone m s =
      match f s.store with
      | .ok a => (g a).alone m s
      | .error e => (.error e, s) := by
  unfold attempt query
  rw [alone_bind, alone_read]
  cases f s.store <;> rfl

section Attempt

variable {α β : Type} {m : Moment}
  {p : RepoProgram Id τ (Except (RepoError Id) α)}
  {f : α → RepoProgram Id τ (Except (RepoError Id) β)} {s t : Traced Id τ}

theorem alone_attempt_ok {a : α} (h : p.alone m s = (.ok a, t)) :
    (p.attempt f).alone m s = (f a).alone m t := by
  unfold attempt
  rw [alone_bind, h]

theorem alone_attempt_error {e : RepoError Id}
    (h : p.alone m s = (.error e, t)) :
    (p.attempt f).alone m s = (.error e, t) := by
  unfold attempt
  rw [alone_bind, h]
  rfl

end Attempt

theorem landingStep_alone (m : Moment) (target : String) (expected : Id)
    (isBranch targetWhole : Bool) (commit : Id) (s : Traced Id τ) :
    let out := repo.landMerge s.store target expected isBranch commit
    let ran := (repo.landingStep target expected isBranch targetWhole
      commit).alone m s
    ran.1.map (fun landed => landed.map MergeLanding.commit) = out.1 ∧
      ran.2.store = out.2 := by
  refine ⟨?_, rfl⟩
  simp only [landingStep, alone_call]
  rcases repo.landMerge s.store target expected isBranch commit with
    ⟨_ | _ | _, _⟩ <;> rfl

theorem computeSteps_alone (m : Moment) (source target : String)
    (s : Traced Id τ) :
    (repo.computeSteps source target).alone m s =
      ((repo.computeMerge s.store source target).map fun comp =>
        (comp, s.store.treeWhole comp.targetCommitId), s) := by
  unfold computeSteps computeMerge
  simp only [alone_read_attempt]
  cases repo.resolveRef s.store source with
  | error e => rfl
  | ok sourceId =>
  cases repo.resolveRef s.store target with
  | error e => rfl
  | ok targetId =>
  simp only [Except.map]
  cases hsc : s.store.requireCommit sourceId source with
  | error e => simp [bind, Except.bind, hsc]
  | ok sc =>
  cases htc : s.store.requireCommit targetId target with
  | error e => simp [bind, Except.bind, hsc, htc]
  | ok tc =>
  cases hbase : s.store.mergeBase sourceId targetId with
  | error e => simp [bind, Except.bind, hsc, htc, hbase]
  | ok baseId =>
  cases hbc : s.store.requireCommit baseId "base" with
  | error e => simp [bind, Except.bind, hsc, htc, hbase, hbc]
  | ok bc =>
  cases hmerge : mergeTrees s.store.objects bc.stateRoot tc.stateRoot
      sc.stateRoot bc.stateRoot with
  | error e => simp [bind, Except.bind, hsc, htc, hbase, hbc, hmerge]
  | ok merged => simp [bind, Except.bind, hsc, htc, hbase, hbc, hmerge]

theorem landSteps_alone (m : Moment) (target : String) (options : CommitOptions)
    (comp : MergeComputation Id) (isBranch targetWhole : Bool)
    (s : Traced Id τ) :
    let out : Outcome Id (Option Id) := match comp.result with
      | .success merged =>
          repo.landMerged s.store target comp isBranch merged options (m.now 0)
      | .fastForward ffId =>
          repo.landMerge s.store target comp.targetCommitId isBranch
            (comp.ffCommit ffId)
      | .conflicts _ conflicts => (.error (.mergeConflicts conflicts), s.store)
    let ran := (repo.landSteps target options comp isBranch targetWhole).alone m
      s
    ran.1.map (fun landed => landed.map MergeLanding.commit) = out.1 ∧
      ran.2.store = out.2 := by
  unfold landSteps
  cases comp.result with
  | conflicts o cs => exact ⟨rfl, rfl⟩
  | fastForward ffId => exact repo.landingStep_alone m target _ _ _ _ s
  | success merged =>
      simp only [write, query, alone_bind, alone_call, alone_read, landMerged]
      cases hmissing : firstMissingReachable (s.store.withObjects
          (s.store.objects.putAll (comp.created ++ [merged]))).objects
          merged.id with
      | some missing => exact ⟨rfl, rfl⟩
      | none =>
          rcases hcreate : repo.createCommit (s.store.withObjects
            (s.store.objects.putAll (comp.created ++ [merged]))) merged.id
            [comp.targetCommitId, comp.sourceCommitId] options (m.now 0) with
            ⟨e | c, stored⟩
          · rw [alone_attempt_error (by rw [alone_call, hcreate])]
            exact ⟨rfl, rfl⟩
          · rw [alone_attempt_ok (by rw [alone_call, hcreate])]
            exact repo.landingStep_alone m target _ _ _ _ _

/-- An undisturbed attempt is the attempt of `merge_checked`. -/
theorem mergeAttempt_alone (m : Moment) (source target : String)
    (options : CommitOptions) (allowDeletions : Bool) (s : Traced Id τ) :
    let out := repo.tryMergeChecked source target options allowDeletions
      (m.now 0) s.store
    let ran := (repo.mergeAttempt source target options allowDeletions).alone m s
    ran.1.map (fun landed => landed.map MergeLanding.commit) = out.1 ∧
      ran.2.store = out.2 := by
  unfold mergeAttempt tryMergeChecked
  simp only [alone_read_attempt]
  cases repo.headForWrite s.store target with
  | error e => exact ⟨rfl, rfl⟩
  | ok head =>
  obtain ⟨head, isBranch⟩ := head
  simp only
  have hsteps := repo.computeSteps_alone m source target s
  cases hcomp : repo.computeMerge s.store source target with
  | error e =>
      rw [hcomp] at hsteps
      rw [alone_attempt_error hsteps]
      exact ⟨rfl, rfl⟩
  | ok comp =>
      rw [hcomp] at hsteps
      rw [alone_attempt_ok hsteps, alone_query]
      by_cases hguard : (!allowDeletions &&
          !(topLevelRemovals s.store.objects comp).isEmpty) = true
      · rw [if_pos hguard]
        simp only [if_pos hguard]
        exact ⟨rfl, rfl⟩
      · rw [if_neg hguard]
        simp only [if_neg hguard]
        have hland := repo.landSteps_alone m target options comp isBranch
          (s.store.treeWhole comp.targetCommitId) s
        cases hresult : comp.result with
        | success merged =>
            rw [hresult] at hland
            exact hland
        | fastForward ffId =>
            rw [hresult] at hland
            exact hland
        | conflicts o cs =>
            rw [hresult] at hland
            exact hland

/-- Alone, the steps are `merge_checked`. -/
theorem mergeSteps_alone (m : Moment) (source target : String)
    (options : CommitOptions) (allowDeletions : Bool) (s : Traced Id τ) :
    let out := repo.mergeChecked s.store source target options allowDeletions
      fun _ => m.now 0
    let ran := (repo.mergeSteps source target options allowDeletions).alone m s
    ran.1.map MergeLanding.commit = out.1 ∧ ran.2.store = out.2 := by
  obtain ⟨hresult, hstore⟩ :=
    repo.mergeAttempt_alone m source target options allowDeletions s
  have hmax : MAX_REF_CAS_ATTEMPTS = 255 + 1 := rfl
  unfold mergeSteps mergeChecked casLoop
  rw [hmax, mergeLoop, retryFrom]
  rcases hran : (repo.mergeAttempt source target options allowDeletions).alone m
    s with ⟨r, t⟩
  rw [hran] at hresult hstore
  rcases hattempt : repo.tryMergeChecked source target options allowDeletions
    (m.now 0) s.store with ⟨out, t'⟩
  rw [hattempt] at hresult hstore
  obtain rfl : t.store = t' := hstore
  rcases r with e | _ | landing
  · obtain rfl : .error e = out := hresult
    rw [alone_attempt_error hran]
    exact ⟨rfl, rfl⟩
  · obtain rfl : .ok none = out := hresult
    exact absurd hattempt repo.tryMergeChecked_ne_none
  · obtain rfl : .ok (some landing.commit) = out := hresult
    rw [alone_attempt_ok hran]
    exact ⟨rfl, rfl⟩

end Repository

/-! ## Under any interleaving -/

/-- Writers add objects and commits; refs may go anywhere. -/
def adding : Contract (Traced Id τ) where
  invariant _ := True
  guarantee s t :=
    s.store.objects ≤ t.store.objects ∧ s.store.commits ≤ t.store.commits
  refl _ := ⟨le_refl _, le_refl _⟩
  trans hst htu := ⟨hst.1.trans htu.1, hst.2.trans htu.2⟩

/-- Every key at the top of the state of `old` is at the top of the state of
`new`. -/
def Storage.TopKept (s : Storage Id) (old new : Id) : Prop :=
  ∃ oldRoot newRoot o, s.rootOf old = some oldRoot ∧
    s.objects.get oldRoot = some o ∧ s.rootOf new = some newRoot ∧
    ∀ key, key ∈ o.mapEntries → key ∈ topLevelEntries s.objects newRoot

theorem topLevelEntries_of_get {objects : ObjectStore Id} {root : Id}
    {o : Object Id} (h : objects.get root = some o) :
    topLevelEntries objects root = o.mapEntries := by
  simp [topLevelEntries, h]

theorem mem_topLevelEntries_of_le {objects bigger : ObjectStore Id} {root : Id}
    {key : String} (hle : objects ≤ bigger)
    (h : key ∈ topLevelEntries objects root) :
    key ∈ topLevelEntries bigger root := by
  unfold topLevelEntries at h
  split at h
  next o ho => rwa [topLevelEntries_of_get (hle root o ho)]
  next => simp at h

theorem Storage.TopKept.mono {s t : Storage Id} {old new : Id}
    (h : s.TopKept old new) (hobjects : s.objects ≤ t.objects)
    (hcommits : s.commits ≤ t.commits) : t.TopKept old new := by
  obtain ⟨oldRoot, newRoot, o, hold, ho, hnew, hkeys⟩ := h
  exact ⟨oldRoot, newRoot, o, Storage.rootOf_of_le hcommits hold,
    hobjects _ _ ho, Storage.rootOf_of_le hcommits hnew,
    fun key hkey => mem_topLevelEntries_of_le hobjects (hkeys key hkey)⟩

/-- The commit that landed keeps the top of the state it replaced, if the
attempt found the target to be a stored ref with a whole tree. -/
def MergeLanding.Keeps (landing : MergeLanding Id) (t : Traced Id τ) : Prop :=
  landing.isBranch = true → landing.targetWhole = true →
    ∃ old, landing.replaced = some old ∧ t.store.TopKept old landing.commit

/-- What stays true of a computed merge while objects and commits are
added. -/
structure MergeComputation.Computed (comp : MergeComputation Id)
    (s : Storage Id) : Prop where
  sourceRoot : s.rootOf comp.sourceCommitId = some comp.sourceStateRoot
  targetRoot : s.rootOf comp.targetCommitId = some comp.targetStateRoot
  tree : ∃ objects base, tryThreeWayMergeCollect objects base
    comp.targetStateRoot comp.sourceStateRoot = .ok (comp.result, comp.created)

/-- The guard has passed: what the target has at its top the result has too. -/
structure MergeComputation.Guarded (comp : MergeComputation Id)
    (s : Storage Id) : Prop extends comp.Computed s where
  keeps : ∃ o, s.objects.get comp.targetStateRoot = some o ∧
    ∀ key, key ∈ o.mapEntries → key ∈ topLevelEntriesOfObj s.objects comp.result

theorem MergeComputation.Computed.mono {comp : MergeComputation Id}
    {s t : Storage Id} (h : comp.Computed s) (hle : s.commits ≤ t.commits) :
    comp.Computed t :=
  ⟨Storage.rootOf_of_le hle h.sourceRoot, Storage.rootOf_of_le hle h.targetRoot,
    h.tree⟩

theorem MergeComputation.Computed.guarded {comp : MergeComputation Id}
    {s : Storage Id} (h : comp.Computed s) {o : Object Id}
    (ho : s.objects.get comp.targetStateRoot = some o)
    (hremoved : topLevelRemovals s.objects comp = []) : comp.Guarded s := by
  refine ⟨h, o, ho, fun key hkey => ?_⟩
  by_contra hnot
  have hmem : key ∈ topLevelRemovals s.objects comp := by
    rw [topLevelRemovals_eq, (previewOf_tells s.objects comp).removed,
      topLevelEntries_of_get ho]
    exact ⟨hkey, hnot⟩
  rw [hremoved] at hmem
  exact List.not_mem_nil hmem

theorem Storage.get_of_treeWhole {s : Storage Id} {commit : Id}
    (h : s.treeWhole commit = true) :
    ∃ root o, s.rootOf commit = some root ∧ s.objects.get root = some o := by
  unfold Storage.treeWhole at h
  split at h
  next root hroot =>
    cases hget : s.objects.get root with
    | some o => exact ⟨root, o, hroot, hget⟩
    | none => simp [firstMissingReachable, treeFuel, missingLoop, hget] at h
  next => contradiction

namespace Repository

variable (repo : Repository)

theorem landMerge_adds (store : Storage Id) (target : String) (expected : Id)
    (isBranch : Bool) (commit : Id) :
    let out := repo.landMerge store target expected isBranch commit
    out.2.objects = store.objects ∧ out.2.commits = store.commits := by
  unfold landMerge
  cases hmove : repo.moveRef store target expected isBranch commit with
  | error e => exact ⟨rfl, rfl⟩
  | ok r =>
      obtain ⟨moved, t⟩ := r
      cases moved with
      | true =>
          obtain ⟨rfl, -⟩ := repo.moveRef_eq_ok_true hmove
          exact ⟨rfl, rfl⟩
      | false =>
          unfold moveRef at hmove
          split at hmove
          next =>
            rcases repo.advanceRef_eq_ok hmove with ⟨hf, -⟩ | ⟨-, -, rfl⟩
            · contradiction
            · exact ⟨rfl, rfl⟩
          next =>
            obtain ⟨s, -, hmove⟩ := Except.bind_eq_ok_iff.mp hmove
            simp at hmove

variable {target : String} {guarded : Prop}

/-- A swap that succeeded found the target at the head it names. -/
theorem landMerge_refAt {store store' : Storage Id} {expected commit id : Id}
    (h : repo.landMerge store target expected true commit =
      (.ok (some id), store')) :
    store.refAt repo.activeNamespace target = some expected := by
  unfold landMerge at h
  split at h
  next => simp at h
  next moved kept hmove =>
    cases moved with
    | true => exact (repo.moveRef_eq_ok_true hmove).2 rfl
    | false => simp at h

/-- What an attempt that may not delete asserts of what it returns. -/
abbrev Asserted (guarded : Prop)
    (r : Except (RepoError Id) (Option (MergeLanding Id))) (t : Traced Id τ) :
    Prop :=
  guarded → ∀ landing, r = .ok (some landing) → landing.Keeps t

theorem asserted_error (e : RepoError Id) (t : Traced Id τ) :
    Asserted guarded (.error e) t :=
  fun _ _ h => by contradiction

theorem landingStep_safe {s : Traced Id τ} {expected : Id}
    {isBranch targetWhole : Bool} {commit : Id}
    (h : guarded → targetWhole = true → s.store.TopKept expected commit) :
    Safe adding (Asserted guarded)
      (repo.landingStep target expected isBranch targetWhole commit) s := by
  intro m t hst _
  have hadds := repo.landMerge_adds t.store target expected isBranch commit
  refine ⟨trivial, ⟨hadds.1.ge, hadds.2.ge⟩, ?_⟩
  refine safe_pure fun u hu _ hguarded landing hlanding hbranch hwhole => ?_
  rcases hland : repo.landMerge t.store target expected isBranch commit with
    ⟨e | _ | id, t'⟩
  · simp [hland, Except.map] at hlanding
  · simp [hland, Except.map] at hlanding
  · simp only [hland, Except.map, Option.map_some, Except.ok.injEq,
      Option.some.injEq] at hlanding
    subst hlanding
    obtain rfl : isBranch = true := hbranch
    obtain ⟨rfl, -⟩ := repo.landMerge_eq_ok hland
    refine ⟨expected, repo.landMerge_refAt hland, ?_⟩
    refine (h hguarded hwhole).mono ?_ ?_
    · exact hst.1.trans (hadds.1.ge.trans hu.1)
    · exact hst.2.trans (hadds.2.ge.trans hu.2)

theorem landSteps_safe {s : Traced Id τ} {options : CommitOptions}
    {comp : MergeComputation Id} {isBranch targetWhole : Bool}
    (h : guarded → targetWhole = true → comp.Guarded s.store) :
    Safe adding (Asserted guarded)
      (repo.landSteps target options comp isBranch targetWhole) s := by
  unfold landSteps
  cases hresult : comp.result with
  | conflicts o cs => exact safe_pure fun t _ _ => asserted_error _ t
  | fastForward ffId =>
      refine repo.landingStep_safe fun hguarded hwhole => ?_
      obtain ⟨⟨hsource, htarget, objects, base, htree⟩, o, ho, hkeys⟩ :=
        h hguarded hwhole
      rw [hresult] at hkeys
      exact ⟨_, ffId, o, htarget, ho,
        rootOf_ffCommit hsource htarget htree hresult, hkeys⟩
  | success merged =>
      refine safe_write fun m t hst _ out hout => ?_
      subst hout
      have hle := ObjectStore.le_putAll t.store.objects (comp.created ++ [merged])
      have hmerged : (t.store.objects.putAll (comp.created ++ [merged])).get
          merged.id = some merged :=
        AddressedMap.get_putAll_of_mem Object.id_injective t.store.objects
          (by simp)
      refine ⟨⟨trivial, hle, le_refl _⟩, ?_⟩
      refine safe_read fun m₁ t₁ ht₁ _ => ?_
      simp only
      split
      next => exact safe_pure fun u _ _ => asserted_error _ u
      next =>
        refine safe_write fun m₂ t₂ ht₂ _ out hout => ?_
        have hadds := repo.createCommit_addsCommit t₂.store merged.id
          [comp.targetCommitId, comp.sourceCommitId] options (m₂.now 0)
        rw [hout] at hadds
        refine ⟨⟨trivial, hadds.grows.objects, hadds.grows.commits⟩, ?_⟩
        obtain ⟨r, t₃⟩ := out
        cases r with
        | error e => exact safe_pure fun u _ _ => asserted_error _ u
        | ok c =>
            obtain ⟨rfl, -⟩ := repo.createCommit_eq_ok hout
            refine repo.landingStep_safe fun hguarded hwhole => ?_
            obtain ⟨⟨-, htarget, -⟩, o, ho, hkeys⟩ := h hguarded hwhole
            rw [hresult] at hkeys
            have hput : t₁.store.objects ≤ t₃.objects :=
              ht₂.1.trans hadds.grows.objects
            have hobjects : s.store.objects ≤ t₃.objects :=
              hst.1.trans (hle.trans (ht₁.1.trans hput))
            have hcommits : s.store.commits ≤ t₃.commits :=
              hst.2.trans (ht₁.2.trans (ht₂.2.trans hadds.grows.commits))
            refine ⟨_, merged.id, o, Storage.rootOf_of_le hcommits htarget,
              hobjects _ _ ho, Storage.rootOf_of_getCommit hadds.getCommit, ?_⟩
            intro key hkey
            rw [topLevelEntries_of_get (hput _ _ (ht₁.1 _ _ hmerged))]
            exact hkeys key hkey

theorem computeSteps_safe (source target : String) (s : Traced Id τ) :
    Safe adding (fun r t => ∀ comp whole, r = .ok (comp, whole) →
        comp.Computed t.store ∧ (whole = true →
          ∃ o, t.store.objects.get comp.targetStateRoot = some o))
      (repo.computeSteps source target) s := by
  refine safe_query_attempt (fun _ _ _ _ h => by contradiction)
    fun t₁ _ _ sourceId _ => ?_
  refine safe_query_attempt (fun _ _ _ _ h => by contradiction)
    fun t₂ _ _ found hfound => ?_
  refine safe_query_attempt (fun _ _ _ _ h => by contradiction)
    fun t₃ h₃ _ sc hsc => ?_
  refine safe_query_attempt (fun _ _ _ _ h => by contradiction)
    fun t₄ h₄ _ tc htc => ?_
  refine safe_query_attempt (fun _ _ _ _ h => by contradiction)
    fun t₅ h₅ _ baseId _ => ?_
  refine safe_query_attempt (fun _ _ _ _ h => by contradiction)
    fun t₆ h₆ _ bc _ => ?_
  refine safe_query_attempt (fun _ _ _ _ h => by contradiction)
    fun t₇ h₇ _ merged hmerged => ?_
  refine safe_pure fun u hu _ comp whole heq => ?_
  obtain ⟨rfl, rfl⟩ := Prod.mk.inj (Except.ok.inj heq)
  have h₇u := adding.trans h₇ hu
  have h₅u := adding.trans h₅ (adding.trans h₆ h₇u)
  have h₄u := adding.trans h₄ h₅u
  have hsource : t₃.store.rootOf sourceId = some sc.stateRoot :=
    Storage.rootOf_of_getCommit (requireCommit_eq_ok_iff.mp hsc)
  have htarget : t₄.store.rootOf found.1 = some tc.stateRoot :=
    Storage.rootOf_of_getCommit (requireCommit_eq_ok_iff.mp htc)
  refine ⟨⟨Storage.rootOf_of_le h₄u.2 hsource,
    Storage.rootOf_of_le h₅u.2 htarget, _, _, mergeTrees_eq_ok_iff.mp hmerged⟩,
    fun hwhole => ?_⟩
  -- the target's commit is still the one that was read whole
  have hwhole : t₂.store.treeWhole found.1 = true := by
    cases hres : repo.resolveRef t₂.store target with
    | error e =>
        rw [hres] at hfound
        contradiction
    | ok id =>
        rw [hres] at hfound
        obtain rfl := Except.ok.inj hfound
        exact hwhole
  obtain ⟨root, o, hroot, ho⟩ := Storage.get_of_treeWhole hwhole
  have hsame : some root = some tc.stateRoot := by
    rw [← Storage.rootOf_of_le (adding.trans h₃ h₄).2 hroot, htarget]
  obtain rfl := Option.some.inj hsame
  exact ⟨o, (adding.trans h₃ h₄u).1 _ _ ho⟩

theorem mergeAttempt_safe (source target : String) (options : CommitOptions)
    (allowDeletions : Bool) (s : Traced Id τ) :
    Safe adding (Asserted (allowDeletions = false))
      (repo.mergeAttempt source target options allowDeletions) s := by
  refine safe_query_attempt asserted_error fun t _ _ head _ => ?_
  refine safe_attempt asserted_error (repo.computeSteps_safe source target t) ?_
    trivial
  rintro ⟨comp, whole⟩ t₁ - hcomp
  obtain ⟨hcomputed, hwhole⟩ := hcomp comp whole rfl
  refine safe_read fun m t₂ ht₂ _ => ?_
  simp only
  split
  next => exact safe_pure fun u _ _ => asserted_error _ u
  next hguard =>
    refine repo.landSteps_safe fun hallow hw => ?_
    obtain ⟨o, ho⟩ := hwhole hw
    exact (hcomputed.mono ht₂.2).guarded (ht₂.1 _ _ ho)
      (by simpa [hallow] using hguard)

theorem mergeSteps_safe (source target : String) (options : CommitOptions)
    (allowDeletions : Bool) (s : Traced Id τ) :
    Safe adding
      (fun r t => allowDeletions = false →
        ∀ landing, r = .ok landing → landing.Keeps t)
      (repo.mergeSteps source target options allowDeletions) s := by
  have hloop : ∀ left (s : Traced Id τ), Safe adding
      (fun r t => allowDeletions = false →
        ∀ landing, r = .ok landing → landing.Keeps t)
      (repo.mergeLoop source target options allowDeletions left) s := by
    intro left
    induction left with
    | zero => exact fun s => safe_pure fun _ _ _ _ _ h => by contradiction
    | succ left ih =>
        intro s
        refine safe_attempt (fun _ _ _ _ h => by contradiction)
          (repo.mergeAttempt_safe source target options allowDeletions s) ?_
          trivial
        intro landed t _ hlanded
        cases landed with
        | none => exact ih t
        | some landing =>
            refine safe_pure fun u hu _ hguarded landing' heq => ?_
            obtain rfl := Except.ok.inj heq
            intro hbranch hwhole
            obtain ⟨old, hold, hkept⟩ :=
              hlanded hguarded landing rfl hbranch hwhole
            exact ⟨old, hold, hkept.mono hu.1 hu.2⟩
  exact hloop _ s

theorem mergeSteps_steady (source target : String) (options : CommitOptions)
    (allowDeletions : Bool) (s : Traced Id τ) :
    Steady adding (repo.mergeSteps source target options allowDeletions) s :=
  (repo.mergeSteps_safe source target options allowDeletions s).imp
    fun _ _ _ _ _ => trivial

/-- Whatever the other writers do, a merge that may not delete and returns
keeps the top of the state it replaced. -/
theorem merged_keeps {W : Type} [DecidableEq W]
    {start : Program.Config W Moment (Traced Id τ)
      (Except (RepoError Id) (MergeLanding Id))} {w : W} {source : String}
    {options : CommitOptions}
    (hmerge : start.progs w = repo.mergeSteps source target options false)
    (hothers : ∀ v, v ≠ w → Steady adding (start.progs v) start.shared)
    (schedule : List (W × Moment)) {landing : MergeLanding Id}
    (hdone : (start.run schedule).progs w = .done (.ok landing)) :
    landing.Keeps (start.run schedule).shared := by
  let post : W → Except (RepoError Id) (MergeLanding Id) → Traced Id τ → Prop :=
    fun v r t => v = w → ∀ landing, r = .ok landing → landing.Keeps t
  have hstart : start.Holds adding post := by
    refine ⟨trivial, fun v => ?_⟩
    by_cases hv : v = w
    · subst hv
      rw [hmerge]
      refine (repo.mergeSteps_safe source target options false start.shared).imp ?_
      exact fun r t _ _ h _ => h rfl
    · exact (hothers v hv).imp fun _ _ _ _ _ hw => absurd hw hv
  exact (Config.holds_run hstart schedule).1.returned hdone rfl landing rfl

end Repository

/-- What `preview_merge` says is what a `merge_checked` right after it does, and
under any interleaving a `merge_checked` that may not delete and returns keeps
the top of the state it replaced. -/
theorem merge_as_previewed (repo : Repository) (source target : String)
    (options : CommitOptions) :
    (∀ (store : Storage Id) (preview : MergePreview) (now : ℕ → ℤ),
      (refuseReservedRef target : Except (RepoError Id) Unit) = .ok () →
      repo.previewMerge store source target = .ok preview →
      (∀ entries,
        (repo.mergeChecked store source target options false now).1 =
            .error (.mergeWouldDelete entries) ↔
          preview.removed ≠ [] ∧ entries = preview.removed) ∧
      (∀ conflicts,
        (repo.mergeChecked store source target options false now).1 =
            .error (.mergeConflicts conflicts) ↔
          preview.removed = [] ∧ preview.conflicts ≠ [] ∧
            conflicts = preview.conflicts) ∧
      ∀ allowDeletions id store',
        repo.mergeChecked store source target options allowDeletions now =
            (.ok id, store') →
          repo.ChangedAs preview target id store store') ∧
    ∀ (W : Type) [DecidableEq W]
      (start : Program.Config W Moment (Traced Id τ)
        (Except (RepoError Id) (MergeLanding Id)))
      (w : W) (schedule : List (W × Moment)) (landing : MergeLanding Id),
      start.progs w = repo.mergeSteps source target options false →
      (∀ v, v ≠ w → Steady adding (start.progs v) start.shared) →
      (start.run schedule).progs w = .done (.ok landing) →
      landing.Keeps (start.run schedule).shared := by
  refine ⟨?_, ?_⟩
  · intro store preview now hname hpreview
    exact repo.mergeChecked_previewed options now hname hpreview
  · intro W _ start w schedule landing hmerge hothers hdone
    exact repo.merged_keeps hmerge hothers schedule hdone

/-! ## Two merges at once -/

namespace TwoMerges

open ContentKey

def value : Object ContentKey := Object.string "x"

def blank : Object ContentKey := Object.emptyMap

def one : Object ContentKey := mapOf [("a", value)]

def two : Object ContentKey := mapOf [("b", value)]

def start : Commit ContentKey := commitOf blank [] 0

def first : Commit ContentKey := commitOf one [start] 1

def second : Commit ContentKey := commitOf two [start] 2

/-- What came after `first` has nothing at its top. -/
def cleared : Commit ContentKey := commitOf blank [first] 3

def store : Storage ContentKey :=
  (((({ Storage.new with
      objects := AddressedMap.empty.putAll [value, blank, one, two]
      commits := AddressedMap.empty.putAll [start, first, second, cleared] } :
    Storage ContentKey).putRef "default" "main" start.id).putRef "default"
      "first" first.id).putRef "default" "second" second.id).putRef "default"
        "cleared" cleared.id

def moment : Moment := ⟨fun _ => 4, "intent", "", []⟩

/-- The merges of `first` and of `second` into one target. -/
def merges (target : String) :
    Program.Config Bool Moment (Traced ContentKey Unit)
      (Except (RepoError ContentKey) (MergeLanding ContentKey)) :=
  ⟨⟨store, []⟩, fun late => Repository.new.mergeSteps
    (if late then "second" else "first") target (options .merge) false⟩

/-- The second merge has computed and checked when the first one lands. -/
def schedule (left : ℕ) : List (Bool × Moment) :=
  List.replicate 9 (true, moment) ++ List.replicate 10 (false, moment) ++
    List.replicate left (true, moment)

/-- How the second merge ends. -/
def late (target : String) (left : ℕ) :
    Option (Except (RepoError ContentKey) (MergeLanding ContentKey)) :=
  (((merges target).run (schedule left)).progs true).returned?

/-- The store beside it, with a tracking ref. -/
def tracked : Storage ContentKey :=
  store.putRef "default" "remotes/origin/main" first.id

/-- A commit id, which is no stored ref. -/
def hash : String := Digest.toHex start.id

set_option maxRecDepth 16384 in
theorem late_hash :
    late hash 1 = some (.ok ⟨second.id, some first.id, false, true⟩) := by
  decide

set_option maxRecDepth 16384 in
theorem late_main : ∃ commit,
    late "main" 14 = some (.ok ⟨commit, some first.id, true, true⟩) :=
  ⟨(CommitBuilder.build (mapOf [("a", value), ("b", value)]).id
    [first.id, second.id] (options .merge) 4).id, by decide⟩

end TwoMerges

set_option maxRecDepth 16384 in
/-- A preview of a merge into a tracking ref lists a removal, and the merge
refuses the ref; and of two merges into a commit id the later one drops what
the earlier one had put at the top. -/
theorem merge_not_as_previewed :
    (∃ preview,
      Repository.new.previewMerge TwoMerges.tracked "cleared"
        "remotes/origin/main" = .ok preview ∧
      preview.removed = ["a"] ∧
      (Repository.new.mergeChecked TwoMerges.tracked "cleared"
        "remotes/origin/main" (ContentKey.options .merge) false fun _ => 4).1 =
          .error (.reservedRef "remotes/origin/main")) ∧
    ∃ landing,
      ((TwoMerges.merges TwoMerges.hash).run (TwoMerges.schedule 1)).progs
        true = .done (.ok landing) ∧
      landing.replaced = some TwoMerges.first.id ∧
      ¬((TwoMerges.merges TwoMerges.hash).run
        (TwoMerges.schedule 1)).shared.store.TopKept TwoMerges.first.id
          landing.commit := by
  refine ⟨⟨⟨true, [], [], ["a"], []⟩, by decide, rfl, by decide⟩, _,
    Program.eq_done_of_returned? TwoMerges.late_hash, rfl, ?_⟩
  rintro ⟨oldRoot, newRoot, o, hold, ho, hnew, hkeys⟩
  have hfirst : ((TwoMerges.merges TwoMerges.hash).run
      (TwoMerges.schedule 1)).shared.store.rootOf TwoMerges.first.id =
        some TwoMerges.one.id := by decide
  have hsecond : ((TwoMerges.merges TwoMerges.hash).run
      (TwoMerges.schedule 1)).shared.store.rootOf TwoMerges.second.id =
        some TwoMerges.two.id := by decide
  rw [hfirst] at hold
  rw [hsecond] at hnew
  obtain rfl := Option.some.inj hold
  obtain rfl := Option.some.inj hnew
  have hone : ((TwoMerges.merges TwoMerges.hash).run
      (TwoMerges.schedule 1)).shared.store.objects.get TwoMerges.one.id =
        some TwoMerges.one := by decide
  rw [hone] at ho
  obtain rfl := Option.some.inj ho
  have hkey := hkeys "a" (by decide)
  exact absurd hkey (by decide)

set_option maxRecDepth 16384 in
/-- The general statement on a merge that would delete, and on a merge that
lost the race for its branch once. -/
theorem merge_as_previewed_twoMerges :
    (Repository.new.mergeChecked TwoMerges.store "cleared" "first"
        (ContentKey.options .merge) false fun _ => 4).1 =
      .error (.mergeWouldDelete ["a"]) ∧
    ∃ landing old,
      ((TwoMerges.merges "main").run (TwoMerges.schedule 14)).progs true =
        .done (.ok landing) ∧
      landing.replaced = some old ∧
      ((TwoMerges.merges "main").run
        (TwoMerges.schedule 14)).shared.store.TopKept old landing.commit := by
  have hall := @merge_as_previewed ContentKey Unit _ Repository.new
  refine ⟨?_, ?_⟩
  · exact (((hall "cleared" "first" (ContentKey.options .merge)).1
      TwoMerges.store ⟨true, [], [], ["a"], []⟩ (fun _ => 4) (by decide)
      (by decide)).1 ["a"]).mpr ⟨by decide, rfl⟩
  · obtain ⟨commit, hlate⟩ := TwoMerges.late_main
    have hdone := Program.eq_done_of_returned? hlate
    have hkeeps := (hall "second" "main" (ContentKey.options .merge)).2 Bool
      (TwoMerges.merges "main") true (TwoMerges.schedule 14) _ rfl
      (fun v _ => Repository.mergeSteps_steady _ _ _ _ _ _) hdone
    obtain ⟨old, hold, hkept⟩ := hkeeps rfl rfl
    exact ⟨_, old, hdone, hold, hkept⟩

end AgentStateGraph
