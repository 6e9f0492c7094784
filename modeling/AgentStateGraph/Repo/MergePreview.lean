import AgentStateGraph.Repo.Merging

/-!
# Previews of merges

A preview computes a merge and says what it would do to the top of the
target's state.  A merge that follows it refuses exactly the deletions and the
conflicts of the preview, and what it lands changes the top of the target's
state by exactly the entries the preview lists.
-/

namespace AgentStateGraph

variable {Id : Type} [Digest Id]

/-! ## The preview -/

structure MergePreview where
  fastForward : Bool
  added : List String
  changed : List String
  removed : List String
  conflicts : List Conflict
deriving DecidableEq

/-- The top-level entries of a merge result: of the merged object, or of the
root a fast-forward names. -/
def topLevelEntriesOfObj (objects : ObjectStore Id) :
    MergeResult Id → BTreeMap String Id
  | .success o => o.mapEntries
  | .conflicts o _ => o.mapEntries
  | .fastForward root => topLevelEntries objects root

def MergeResult.isFastForward : MergeResult Id → Bool
  | .fastForward _ => true
  | _ => false

/-- The conflicts of a result. -/
def MergeResult.conflictList : MergeResult Id → List Conflict
  | .conflicts _ cs => cs
  | _ => []

/-- The key of an entry that the target has with another value. -/
def changedKey (target : BTreeMap String Id) (entry : String × Id) :
    Option String :=
  match target[entry.1]? with
  | some value => if value = entry.2 then none else some entry.1
  | none => none

/-- What a computed merge does to the top of the target's state.  Keys are
read in order, so the lists are sorted. -/
def previewOf (objects : ObjectStore Id) (comp : MergeComputation Id) :
    MergePreview :=
  let targetEntries := topLevelEntries objects comp.targetStateRoot
  let mergedEntries := topLevelEntriesOfObj objects comp.result
  { fastForward := comp.result.isFastForward
    added := mergedEntries.keys.filter (· ∉ targetEntries)
    changed := mergedEntries.toList.filterMap (changedKey targetEntries)
    removed := targetEntries.keys.filter (· ∉ mergedEntries)
    conflicts := comp.result.conflictList }

def Repository.previewMerge (repo : Repository) (store : Storage Id)
    (source target : String) : Except (RepoError Id) MergePreview := do
  let comp ← repo.computeMerge store source target
  .ok (previewOf store.objects comp)

/-! ## What a preview says -/

/-- The lists of a preview are the keys that the entries `before` and `after`
tell apart. -/
structure MergePreview.Tells (preview : MergePreview)
    (before after : BTreeMap String Id) : Prop where
  added : ∀ key, key ∈ preview.added ↔ key ∉ before ∧ key ∈ after
  changed : ∀ key, key ∈ preview.changed ↔
    ∃ old new, before[key]? = some old ∧ after[key]? = some new ∧ old ≠ new
  removed : ∀ key, key ∈ preview.removed ↔ key ∈ before ∧ key ∉ after

theorem changedKey_eq_some_iff {target : BTreeMap String Id}
    {entry : String × Id} {key : String} :
    changedKey target entry = some key ↔
      entry.1 = key ∧ ∃ old, target[entry.1]? = some old ∧ old ≠ entry.2 := by
  unfold changedKey
  split
  next old hold =>
    split
    next hsame => simp [hold, hsame]
    next hdiff => simp [hold, hdiff]
  next hnone => simp [hnone]

theorem previewOf_tells (objects : ObjectStore Id)
    (comp : MergeComputation Id) :
    (previewOf objects comp).Tells
      (topLevelEntries objects comp.targetStateRoot)
      (topLevelEntriesOfObj objects comp.result) where
  added key := by simp [previewOf, and_comm]
  changed key := by
    simp only [previewOf, List.mem_filterMap, changedKey_eq_some_iff]
    constructor
    · rintro ⟨⟨k, new⟩, hmem, rfl, old, hold, hne⟩
      exact ⟨old, new, hold,
        Std.ExtTreeMap.mem_toList_iff_getElem?_eq_some.mp hmem, hne⟩
    · rintro ⟨old, new, hold, hnew, hne⟩
      exact ⟨(key, new),
        Std.ExtTreeMap.mem_toList_iff_getElem?_eq_some.mpr hnew, rfl, old, hold,
        hne⟩
  removed key := by simp [previewOf]

theorem topLevelRemovals_eq (objects : ObjectStore Id)
    (comp : MergeComputation Id) :
    topLevelRemovals objects comp = (previewOf objects comp).removed := by
  unfold topLevelRemovals previewOf topLevelEntriesOfObj
  cases comp.result <;> rfl

section

variable {objects : ObjectStore Id} {base : Id}

theorem conflicts_ne_nil {ours theirs : Id} {partialObject : Object Id}
    {conflicts : List Conflict} {created : List (Object Id)}
    (h : tryThreeWayMergeCollect objects base ours theirs =
      .ok (.conflicts partialObject conflicts, created)) : conflicts ≠ [] := by
  rcases tryThreeWayMergeCollect_eq_ok h with
    ⟨-, hr⟩ | ⟨-, -, hr⟩ | ⟨-, -, -, hr⟩ |
      ⟨-, -, -, bo, oo, th, -, -, -, -, -, hr⟩
  · contradiction
  · contradiction
  · contradiction
  · split at hr
    next => contradiction
    next hne =>
      obtain ⟨-, rfl⟩ := MergeResult.conflicts.inj hr
      exact hne

theorem fastForward_root {ours theirs root : Id} {created : List (Object Id)}
    (h : tryThreeWayMergeCollect objects base ours theirs =
      .ok (.fastForward root, created)) : root = theirs ∨ root = ours := by
  rcases tryThreeWayMergeCollect_eq_ok h with
    ⟨-, hr⟩ | ⟨-, -, hr⟩ | ⟨-, -, -, hr⟩ |
      ⟨-, -, -, bo, oo, th, -, -, -, -, -, hr⟩
  · exact Or.inl (MergeResult.fastForward.inj hr)
  · exact Or.inr (MergeResult.fastForward.inj hr)
  · exact Or.inr (MergeResult.fastForward.inj hr)
  · split at hr <;> contradiction

/-- The head a fast-forward moves the target to. -/
def MergeComputation.ffCommit (comp : MergeComputation Id) (ffId : Id) : Id :=
  if ffId = comp.sourceStateRoot then comp.sourceCommitId
  else comp.targetCommitId

theorem rootOf_ffCommit {store : Storage Id} {comp : MergeComputation Id}
    {ffId : Id}
    (hsource : store.rootOf comp.sourceCommitId = some comp.sourceStateRoot)
    (htarget : store.rootOf comp.targetCommitId = some comp.targetStateRoot)
    (htree : tryThreeWayMergeCollect objects base comp.targetStateRoot
      comp.sourceStateRoot = .ok (comp.result, comp.created))
    (hresult : comp.result = .fastForward ffId) :
    store.rootOf (comp.ffCommit ffId) = some ffId := by
  rw [hresult] at htree
  unfold MergeComputation.ffCommit
  split
  next heq => rw [hsource, heq]
  next hne =>
    obtain hroot | hroot := fastForward_root htree
    · exact absurd hroot hne
    · rw [htarget, hroot]

end

/-- An error that says what the merge itself would do, not that landing it
failed. -/
def RepoError.refusesMerge : RepoError Id → Bool
  | .mergeWouldDelete _ => true
  | .mergeConflicts _ => true
  | _ => false

theorem casLoop_of_error {attempt : ℕ → Storage Id → Outcome Id (Option Id)}
    {store store' : Storage Id} {e : RepoError Id}
    (h : attempt 0 store = (.error e, store')) :
    casLoop attempt store = (.error e, store') := by
  simp only [casLoop, MAX_REF_CAS_ATTEMPTS]
  unfold retryFrom
  rw [h]

namespace Repository

variable (repo : Repository)

/-! ## Landing a merge -/

variable {store store' : Storage Id} {options : CommitOptions} {now : ℤ}
  {e : RepoError Id} {refName target source : String} {isBranch : Bool}
  {comp : MergeComputation Id} {preview : MergePreview}

theorem createCommit_eq_error {stored : Storage Id} {stateRoot : Id}
    {parents : List Id}
    (h : repo.createCommit store stateRoot parents options now =
      (.error e, stored)) : e.refusesMerge = false := by
  unfold createCommit at h
  simp only at h
  split at h
  · obtain ⟨he, -⟩ := Prod.mk.inj h
    rw [← Except.error.inj he]
    rfl
  · split at h
    · obtain ⟨he, -⟩ := Prod.mk.inj h
      rw [← Except.error.inj he]
      rfl
    · simp at h

omit [Digest Id] in
theorem refuseReservedRef_eq_error {name : String}
    (h : refuseReservedRef name = .error e) : e.refusesMerge = false := by
  unfold refuseReservedRef at h
  split at h
  · rw [← Except.error.inj h]
    rfl
  · contradiction

theorem enforceEpochSeals_eq_error {newTarget : Id}
    (h : repo.enforceEpochSeals store refName newTarget = .error e) :
    e.refusesMerge = false := by
  unfold enforceEpochSeals at h
  split at h
  · contradiction
  · split at h
    · contradiction
    · split at h
      · rw [← Except.error.inj h]
        rfl
      · contradiction

omit [Digest Id] in
theorem liftStorage_eq_error {α : Type} {x : Except StorageError α}
    (h : liftStorage x = .error e) : e.refusesMerge = false := by
  cases x with
  | ok a => contradiction
  | error err =>
      rw [← Except.error.inj h]
      rfl

theorem moveRef_eq_error {expected newTarget : Id}
    (h : repo.moveRef store refName expected isBranch newTarget = .error e) :
    e.refusesMerge = false := by
  have hset : ∀ {α : Type} {x : Except StorageError α} {e : RepoError Id},
      (do
        refuseReservedRef refName
        repo.enforceEpochSeals store refName newTarget
        liftStorage x : Except (RepoError Id) α) = .error e →
      e.refusesMerge = false := by
    intro α x e h
    cases hname : (refuseReservedRef refName : Except (RepoError Id) Unit) with
    | error err =>
        rw [hname] at h
        exact Except.error.inj h ▸ refuseReservedRef_eq_error hname
    | ok u =>
        rw [hname] at h
        cases hseals : repo.enforceEpochSeals store refName newTarget with
        | error err =>
            rw [hseals] at h
            exact Except.error.inj h ▸ repo.enforceEpochSeals_eq_error hseals
        | ok u =>
            rw [hseals] at h
            exact liftStorage_eq_error h
  unfold moveRef at h
  split at h
  · exact hset h
  · cases hmoved : repo.guardedSetRef store refName newTarget with
    | error err =>
        rw [hmoved] at h
        exact Except.error.inj h ▸ hset hmoved
    | ok t =>
        rw [hmoved] at h
        contradiction

theorem landMerge_error {expected commit : Id}
    (h : repo.landMerge store target expected isBranch commit =
      (.error e, store')) : e.refusesMerge = false := by
  unfold landMerge at h
  split at h
  next err hmove =>
    obtain ⟨he, -⟩ := Prod.mk.inj h
    exact Except.error.inj he ▸ repo.moveRef_eq_error hmove
  next => simp at h

theorem landMerged_error {merged : Object Id}
    (h : repo.landMerged store target comp isBranch merged options now =
      (.error e, store')) : e.refusesMerge = false := by
  unfold landMerged at h
  simp only at h
  split at h
  next =>
    obtain ⟨he, -⟩ := Prod.mk.inj h
    rw [← Except.error.inj he]
    rfl
  next =>
    split at h
    next err committed hcreate =>
      obtain ⟨he, -⟩ := Prod.mk.inj h
      exact Except.error.inj he ▸ repo.createCommit_eq_error hcreate
    next c committed hcreate => exact repo.landMerge_error h

theorem landMerged_eq_ok {merged : Object Id} {id : Id}
    (h : repo.landMerged store target comp isBranch merged options now =
      (.ok (some id), store')) :
    store'.refAt repo.activeNamespace target = some id ∧
      store'.namespaces = store.namespaces ∧
      store'.rootOf id = some merged.id ∧
      store'.objects.get merged.id = some merged := by
  unfold landMerged at h
  simp only at h
  split at h
  next => simp at h
  next =>
    split at h
    next => simp at h
    next c committed hcreate =>
      obtain ⟨rfl, hadds⟩ := repo.createCommit_eq_ok hcreate
      obtain ⟨rfl, rfl⟩ := repo.landMerge_eq_ok h
      refine ⟨by simp, hadds.namespaces, ?_, ?_⟩
      · exact Storage.rootOf_of_getCommit hadds.getCommit
      · rw [Storage.putRef_objects, hadds.objects]
        exact AddressedMap.get_putAll_of_mem Object.id_injective store.objects
          (by simp)

/-! ## A merge after a preview -/

theorem headForWrite_of_resolveRef {head : Id}
    (hname : (refuseReservedRef refName : Except (RepoError Id) Unit) = .ok ())
    (h : repo.resolveRef store refName = .ok head) :
    ∃ isBranch, repo.headForWrite store refName = .ok (head, isBranch) := by
  unfold headForWrite
  rw [hname]
  unfold resolveRef at h
  cases hget : (liftStorage (store.getRef repo.activeNamespace refName) :
      Except (RepoError Id) (Option Id)) with
  | error e =>
      rw [hget] at h
      contradiction
  | ok branch =>
      cases branch with
      | some id =>
          rw [hget] at h
          exact ⟨true, by rw [Except.ok.inj h]; rfl⟩
      | none =>
          refine ⟨false, ?_⟩
          rw [← resolveRef] at h
          change (do
            let id ← repo.resolveRef store refName
            .ok (id, false) : Except (RepoError Id) (Id × Bool)) = _
          rw [h]
          rfl

theorem tryMergeChecked_cases (options : CommitOptions) (allowDeletions : Bool)
    (now : ℤ)
    (hname : (refuseReservedRef target : Except (RepoError Id) Unit) = .ok ())
    (hcomp : repo.computeMerge store source target = .ok comp) :
    let removed := (previewOf store.objects comp).removed
    let attempt := repo.tryMergeChecked source target options allowDeletions now
      store
    (allowDeletions = false ∧ removed ≠ [] ∧
        attempt = (.error (.mergeWouldDelete removed), store)) ∨
      (allowDeletions = true ∨ removed = []) ∧
        ((∃ partialObject conflicts,
            comp.result = .conflicts partialObject conflicts ∧
            attempt = (.error (.mergeConflicts conflicts), store)) ∨
          (∃ merged isBranch, comp.result = .success merged ∧
            attempt = repo.landMerged store target comp isBranch merged options
              now) ∨
          ∃ ffId isBranch, comp.result = .fastForward ffId ∧
            attempt = repo.landMerge store target comp.targetCommitId isBranch
              (comp.ffCommit ffId)) := by
  intro removed attempt
  obtain ⟨-, -, -, htarget, -⟩ := repo.computeMerge_eq_ok hcomp
  obtain ⟨isBranch, hhead⟩ := repo.headForWrite_of_resolveRef hname htarget
  have hattempt : attempt = repo.tryMergeChecked source target options
    allowDeletions now store := rfl
  unfold tryMergeChecked at hattempt
  rw [hhead] at hattempt
  simp only [hcomp, topLevelRemovals_eq] at hattempt
  split at hattempt
  next hguard =>
    have hguard : allowDeletions = false ∧ removed ≠ [] := by
      simpa using hguard
    exact Or.inl ⟨hguard.1, hguard.2, hattempt⟩
  next hguard =>
    have hguard : allowDeletions = true ∨ removed = [] := by
      cases allowDeletions with
      | true => exact Or.inl rfl
      | false => exact Or.inr (by simpa using hguard)
    refine Or.inr ⟨hguard, ?_⟩
    split at hattempt
    next merged hresult =>
      exact Or.inr (Or.inl ⟨merged, isBranch, hresult, hattempt⟩)
    next ffId hresult =>
      exact Or.inr (Or.inr ⟨ffId, isBranch, hresult, hattempt⟩)
    next partialObject conflicts hresult =>
      exact Or.inl ⟨partialObject, conflicts, hresult, hattempt⟩

theorem previewMerge_eq_ok
    (h : repo.previewMerge store source target = .ok preview) :
    ∃ comp, repo.computeMerge store source target = .ok comp ∧
      preview = previewOf store.objects comp := by
  obtain ⟨comp, hcomp, h⟩ := Except.bind_eq_ok_iff.mp h
  exact ⟨comp, hcomp, (Except.ok.inj h).symm⟩

/-- `target` moved to `id`, and the top of its state changed as the preview
says. -/
def ChangedAs (preview : MergePreview) (target : String) (id : Id)
    (s t : Storage Id) : Prop :=
  ∃ old oldRoot newRoot,
    repo.resolveRef s target = .ok old ∧ s.rootOf old = some oldRoot ∧
    repo.resolveRef t target = .ok id ∧ t.rootOf id = some newRoot ∧
    preview.Tells (topLevelEntries s.objects oldRoot)
      (topLevelEntries t.objects newRoot)

theorem tryMergeChecked_previewed {allowDeletions : Bool}
    {r : Except (RepoError Id) (Option Id)}
    (hname : (refuseReservedRef target : Except (RepoError Id) Unit) = .ok ())
    (hpreview : repo.previewMerge store source target = .ok preview)
    (h : repo.tryMergeChecked source target options allowDeletions now store =
      (r, store')) :
    (allowDeletions = false ∧ preview.removed ≠ [] ∧
        r = .error (.mergeWouldDelete preview.removed)) ∨
      (allowDeletions = true ∨ preview.removed = []) ∧
        ((preview.conflicts ≠ [] ∧
            r = .error (.mergeConflicts preview.conflicts)) ∨
          preview.conflicts = [] ∧
            ((∃ e, r = .error e ∧ e.refusesMerge = false) ∨ r = .ok none ∨
              ∃ id, r = .ok (some id) ∧
                repo.ChangedAs preview target id store store')) := by
  obtain ⟨comp, hcomp, rfl⟩ := repo.previewMerge_eq_ok hpreview
  obtain ⟨baseId, baseRoot, -, ht, hsroot, htroot, -, -, htree⟩ :=
    repo.computeMerge_eq_ok hcomp
  have htells := previewOf_tells store.objects comp
  have hns : repo.activeNamespace ∈ store.namespaces := by
    obtain ⟨isBranch, hhead⟩ := repo.headForWrite_of_resolveRef hname ht
    exact repo.headForWrite_namespace hhead
  have hcases :=
    repo.tryMergeChecked_cases options allowDeletions now hname hcomp
  simp only [h, Prod.mk.injEq] at hcases
  rcases hcases with ⟨hallow, hremoved, hr, -⟩ |
    ⟨hallow, ⟨partialObject, conflicts, hresult, hr, -⟩ |
      ⟨merged, isBranch, hresult, hland⟩ | ⟨ffId, isBranch, hresult, hland⟩⟩
  · exact Or.inl ⟨hallow, hremoved, hr⟩
  · have hlist : (previewOf store.objects comp).conflicts = conflicts := by
      simp only [previewOf, hresult, MergeResult.conflictList]
    rw [hresult] at htree
    refine Or.inr ⟨hallow, Or.inl ?_⟩
    rw [hlist]
    exact ⟨conflicts_ne_nil htree, hr⟩
  · refine Or.inr ⟨hallow, Or.inr ⟨by simp [previewOf, hresult,
      MergeResult.conflictList], ?_⟩⟩
    rcases r with e | (_ | id)
    · exact Or.inl ⟨e, rfl, repo.landMerged_error hland.symm⟩
    · exact Or.inr (Or.inl rfl)
    · obtain ⟨href, hnamespaces, hroot, hobject⟩ :=
        repo.landMerged_eq_ok hland.symm
      refine Or.inr (Or.inr ⟨id, rfl, comp.targetCommitId,
        comp.targetStateRoot, merged.id, ht, htroot,
        repo.resolveRef_of_refAt (hnamespaces ▸ hns) href, hroot, ?_⟩)
      have hentries : topLevelEntriesOfObj store.objects comp.result =
          topLevelEntries store'.objects merged.id := by
        simp [hresult, topLevelEntriesOfObj, topLevelEntries, hobject]
      rwa [← hentries]
  · refine Or.inr ⟨hallow, Or.inr ⟨by simp [previewOf, hresult,
      MergeResult.conflictList], ?_⟩⟩
    rcases r with e | (_ | id)
    · exact Or.inl ⟨e, rfl, repo.landMerge_error hland.symm⟩
    · exact Or.inr (Or.inl rfl)
    · obtain ⟨rfl, rfl⟩ := repo.landMerge_eq_ok hland.symm
      have hroot := rootOf_ffCommit hsroot htroot htree hresult
      refine Or.inr (Or.inr ⟨_, rfl, comp.targetCommitId, comp.targetStateRoot,
        ffId, ht, htroot, repo.resolveRef_of_refAt hns (by simp), hroot, ?_⟩)
      rw [hresult] at htells
      exact htells

theorem mergeChecked_fst_eq_error_iff {allowDeletions : Bool} {now : ℕ → ℤ} :
    (repo.mergeChecked store source target options allowDeletions now).1 =
        .error e ↔
      (repo.tryMergeChecked source target options allowDeletions (now 0)
        store).1 = .error e := by
  constructor
  · intro h
    have h := casLoop_eq_error (fun _ => repo.tryMergeChecked_ne_none)
      (Outcome.eq_of_fst h)
    rw [h]
  · intro h
    unfold mergeChecked
    rw [casLoop_of_error (Outcome.eq_of_fst h)]

/-- What `preview_merge` says is what a `merge_checked` right after it does:
without `allow_deletions` it refuses exactly the deletions of the preview, then
exactly its conflicts, and when it returns the top of the target's state has
changed as the preview says. -/
theorem mergeChecked_previewed (options : CommitOptions) (now : ℕ → ℤ)
    (hname : (refuseReservedRef target : Except (RepoError Id) Unit) = .ok ())
    (hpreview : repo.previewMerge store source target = .ok preview) :
    (∀ entries,
      (repo.mergeChecked store source target options false now).1 =
          .error (.mergeWouldDelete entries) ↔
        preview.removed ≠ [] ∧ entries = preview.removed) ∧
    (∀ conflicts,
      (repo.mergeChecked store source target options false now).1 =
          .error (.mergeConflicts conflicts) ↔
        preview.removed = [] ∧ preview.conflicts ≠ [] ∧
          conflicts = preview.conflicts) ∧
    ∀ allowDeletions id store',
      repo.mergeChecked store source target options allowDeletions now =
          (.ok id, store') →
        repo.ChangedAs preview target id store store' := by
  rcases hattempt : repo.tryMergeChecked source target options false (now 0)
    store with ⟨r, t⟩
  have hcases := repo.tryMergeChecked_previewed hname hpreview hattempt
  refine ⟨?_, ?_, ?_⟩
  · intro entries
    rw [repo.mergeChecked_fst_eq_error_iff, hattempt]
    constructor
    · rintro rfl
      rcases hcases with ⟨-, hremoved, hr⟩ |
        ⟨-, ⟨-, hr⟩ | ⟨-, ⟨e, hr, he⟩ | hr | ⟨id, hr, -⟩⟩⟩
      · obtain rfl := RepoError.mergeWouldDelete.inj (Except.error.inj hr)
        exact ⟨hremoved, rfl⟩
      · simp at hr
      · rw [← Except.error.inj hr] at he
        contradiction
      · contradiction
      · contradiction
    · rintro ⟨hremoved, rfl⟩
      rcases hcases with ⟨-, -, hr⟩ | ⟨hallow | hnil, -⟩
      · exact hr
      · contradiction
      · exact absurd hnil hremoved
  · intro conflicts
    rw [repo.mergeChecked_fst_eq_error_iff, hattempt]
    constructor
    · rintro rfl
      rcases hcases with ⟨-, -, hr⟩ |
        ⟨hallow | hnil, ⟨hconflicts, hr⟩ | ⟨-, ⟨e, hr, he⟩ | hr | ⟨id, hr, -⟩⟩⟩
      · simp at hr
      · contradiction
      · contradiction
      · contradiction
      · contradiction
      · obtain rfl := RepoError.mergeConflicts.inj (Except.error.inj hr)
        exact ⟨hnil, hconflicts, rfl⟩
      · rw [← Except.error.inj hr] at he
        contradiction
      · contradiction
      · contradiction
    · rintro ⟨hnil, hconflicts, rfl⟩
      rcases hcases with ⟨-, hremoved, -⟩ | ⟨-, ⟨-, hr⟩ | ⟨hnone, -⟩⟩
      · exact absurd hnil hremoved
      · exact hr
      · exact absurd hnone hconflicts
  · intro allowDeletions id store' h
    have hok := casLoop_eq_ok (fun _ => repo.tryMergeChecked_ne_none) h
    rcases repo.tryMergeChecked_previewed hname hpreview hok with
      ⟨-, -, hr⟩ | ⟨-, ⟨-, hr⟩ | ⟨-, ⟨e, hr, -⟩ | hr | ⟨id', hr, hchanged⟩⟩⟩
    · contradiction
    · contradiction
    · contradiction
    · simp at hr
    · rw [Option.some.inj (Except.ok.inj hr)]
      exact hchanged

end Repository

end AgentStateGraph
