import AgentStateGraph.Core.Diff
import AgentStateGraph.Repo.Merging

/-!
# Speculations

A speculation is a fork of a ref's state that is changed in isolation.  To
commit it, its changes are checked against the reserved subtree and merged
onto the head of its base ref; the strict variant lands its root as it is, on
a head the caller names.
-/

namespace AgentStateGraph

variable {Id : Type} [Digest Id]

/-- An isolated, mutable fork of state. -/
structure Speculation (Id : Type) where
  label : Option String
  baseRef : String
  baseRoot : Id
  currentRoot : Id
deriving DecidableEq

/-- The path a change is judged by. -/
def DiffOp.candidate : DiffOp → String
  | .setValue path _ _ => path
  | .addKey path key _ | .removeKey path key _ =>
      if path = "/" ∨ path = "" then "/" ++ key else path ++ "/" ++ key
  | .addElement path _ _ | .removeElement path _ _ | .addToSet path _
  | .removeFromSet path _ | .changeType path _ _ => path

/-- The first path under `/_meta` that a diff touches. -/
def reservedPathInDiff (ops : List DiffOp) : Option String :=
  (ops.map DiffOp.candidate).find? pathIsReserved

/-- The walk of `first_missing_new`: a subtree whose id is the base's is
skipped. -/
def missingNewLoop (objects : ObjectStore Id) :
    ℕ → List (Id × Option Id) → List Id → Option Id
  | 0, _, _ => none
  | _ + 1, [], _ => none
  | fuel + 1, (id, base) :: stack, seen =>
      if some id = base ∨ id ∈ seen then missingNewLoop objects fuel stack seen
      else
        match objects.get id with
        | none => some id
        | some (.atom _) => missingNewLoop objects fuel stack (id :: seen)
        | some (.node (.map entries)) =>
            let baseEntries := match base.bind objects.get with
              | some (.node (.map m)) => m
              | _ => ∅
            missingNewLoop objects fuel
              ((entries.toList.map fun e => (e.2, baseEntries[e.1]?)).reverse ++
                stack) (id :: seen)
        | some (.node (.list items)) | some (.node (.set items)) =>
            missingNewLoop objects fuel
              ((items.map fun c => (c, none)).reverse ++ stack) (id :: seen)

/-- The first object that `newRoot` adds over `baseRoot` and that is absent. -/
def firstMissingNew (objects : ObjectStore Id) (baseRoot newRoot : Id) :
    Option Id :=
  missingNewLoop objects (treeFuel objects) [(newRoot, some baseRoot)] []

/-- What a speculation changed must stay out of the reserved subtree, unless
its commit is a migration. -/
def checkSpeculation (objects : ObjectStore Id) (spec : Speculation Id)
    (options : CommitOptions) : Except (RepoError Id) Unit :=
  if options.intent.category = .migrate then .ok ()
  else
    match reservedPathInDiff (diff objects spec.baseRoot spec.currentRoot) with
    | some path => .error (.reservedPath path)
    | none => .ok ()

/-- A speculation's root, when every object it wrote is still there. -/
def landAsIs (store : Storage Id) (spec : Speculation Id) : Outcome Id Id :=
  match firstMissingNew store.objects spec.baseRoot spec.currentRoot with
  | some missing => (.error (.integrityViolation spec.currentRoot missing), store)
  | none => (.ok spec.currentRoot, store)

/-- Store a merged tree; its root, when it reads back whole. -/
def storeMerged (store : Storage Id) (created : List (Object Id))
    (merged : Object Id) : Outcome Id Id :=
  let stored := store.withObjects (store.objects.putAll (created ++ [merged]))
  match firstMissingReachable stored.objects merged.id with
  | some missing => (.error (.integrityViolation merged.id missing), stored)
  | none => (.ok merged.id, stored)

/-- The root of a speculation on a head: its own root where the head has not
moved, else a merge in which the speculation wins what both changed. -/
def speculationRoot (spec : Speculation Id) : BuildRoot Id :=
  fun store parentRoot =>
    if parentRoot = spec.baseRoot then landAsIs store spec
    else
      match mergeTrees store.objects spec.baseRoot spec.currentRoot parentRoot
          spec.currentRoot with
      | .error e => (.error e, store)
      | .ok (.fastForward id, _) => (.ok id, store)
      | .ok (.success merged, created) => storeMerged store created merged
      | .ok (.conflicts merged _, created) => storeMerged store created merged

/-- `ObjectId::short`. -/
def shortId (id : Id) : String :=
  "sg_" ++ String.ofList ((Digest.toHex id).toList.take 12)

namespace Repository

variable (repo : Repository)

def commitSpeculation (store : Storage Id) (spec : Speculation Id)
    (options : CommitOptions) (now : ℕ → ℤ) : Outcome Id Id :=
  match checkSpeculation store.objects spec options with
  | .error e => (.error e, store)
  | .ok () =>
      repo.writeLoop spec.baseRef (speculationRoot spec) options now store

/-- The commit of the strict variant, before its ref moves. -/
def buildSpeculation (store : Storage Id) (spec : Speculation Id)
    (expectedHead : Id) (options : CommitOptions) (now : ℤ) :
    Outcome Id (Commit Id) :=
  match store.rootOf expectedHead with
  | none => (.error (.commitNotFound (shortId expectedHead)), store)
  | some expectedRoot =>
      if spec.baseRoot ≠ expectedRoot then (.error .writeConflict, store)
      else
        match checkSpeculation store.objects spec options with
        | .error e => (.error e, store)
        | .ok () =>
            match landAsIs store spec with
            | (.error e, store) => (.error e, store)
            | (.ok root, store) =>
                repo.createCommit store root [expectedHead] options now

def commitSpeculationCas (store : Storage Id) (spec : Speculation Id)
    (expectedHead : Id) (options : CommitOptions) (now : ℤ) : Outcome Id Id :=
  match repo.buildSpeculation store spec expectedHead options now with
  | (.error e, built) => (.error e, built)
  | (.ok commit, built) =>
      match repo.advanceRef built spec.baseRef expectedHead commit.id with
      | .error e => (.error e, built)
      | .ok (false, kept) => (.error .writeConflict, kept)
      | .ok (true, moved) => (.ok commit.id, moved)

end Repository

/-! ## What a speculation becomes -/

/-- The root a speculation has on a head with the given state. -/
def speculationResult (objects : ObjectStore Id) (spec : Speculation Id)
    (parentRoot : Id) : Option Id :=
  if parentRoot = spec.baseRoot then some spec.currentRoot
  else
    match tryThreeWayMergeCollect objects spec.baseRoot spec.currentRoot
        parentRoot with
    | .ok (.fastForward id, _) => some id
    | .ok (.success merged, _) => some merged.id
    | .ok (.conflicts merged _, _) => some merged.id
    | .error _ => none

section

variable {store built : Storage Id} {spec : Speculation Id} {root : Id}

theorem landAsIs_eq_ok (h : landAsIs store spec = (.ok root, built)) :
    root = spec.currentRoot ∧ built = store := by
  unfold landAsIs at h
  split at h
  · simp at h
  · simp only [Prod.mk.injEq, Except.ok.injEq] at h
    exact ⟨h.1.symm, h.2.symm⟩

theorem landAsIs_snd (store : Storage Id) (spec : Speculation Id) :
    (landAsIs store spec).2 = store := by
  unfold landAsIs
  split <;> rfl

theorem storeMerged_addsObjects (store : Storage Id)
    (created : List (Object Id)) (merged : Object Id) :
    store.AddsObjects (storeMerged store created merged).2 := by
  have hadds : store.AddsObjects
      (store.withObjects (store.objects.putAll (created ++ [merged]))) :=
    Storage.addsObjects_withObjects (ObjectStore.le_putAll store.objects _)
  unfold storeMerged
  simp only
  split <;> exact hadds

theorem storeMerged_eq_ok {created : List (Object Id)} {merged : Object Id}
    (h : storeMerged store created merged = (.ok root, built)) :
    root = merged.id ∧
      built = store.withObjects
        (store.objects.putAll (created ++ [merged])) := by
  unfold storeMerged at h
  simp only at h
  split at h
  · simp at h
  · simp only [Prod.mk.injEq, Except.ok.injEq] at h
    exact ⟨h.1.symm, h.2.symm⟩

theorem speculationRoot_onlyAdds (spec : Speculation Id) :
    (speculationRoot spec).OnlyAdds := by
  intro store root
  unfold speculationRoot
  split
  · rw [landAsIs_snd]
    exact Storage.AddsObjects.refl store
  · split
    · exact Storage.AddsObjects.refl store
    · exact Storage.AddsObjects.refl store
    · exact storeMerged_addsObjects store _ _
    · exact storeMerged_addsObjects store _ _

theorem mergeTrees_eq_ok_iff {objects : ObjectStore Id} {base ours theirs : Id}
    {r : MergeResult Id × List (Object Id)} :
    mergeTrees objects base ours theirs root = .ok r ↔
      tryThreeWayMergeCollect objects base ours theirs = .ok r := by
  unfold mergeTrees
  cases tryThreeWayMergeCollect objects base ours theirs <;> simp

theorem speculationRoot_eq_ok {newRoot : Id}
    (h : speculationRoot spec store root = (.ok newRoot, built)) :
    speculationResult store.objects spec root = some newRoot := by
  unfold speculationRoot at h
  unfold speculationResult
  split at h
  next hbase => rw [if_pos hbase, (landAsIs_eq_ok h).1]
  next hbase =>
    rw [if_neg hbase]
    split at h
    next => simp at h
    next id created hmerge =>
      simp only [Prod.mk.injEq, Except.ok.injEq] at h
      simp [mergeTrees_eq_ok_iff.mp hmerge, h.1]
    next merged created hmerge =>
      simp [mergeTrees_eq_ok_iff.mp hmerge, (storeMerged_eq_ok h).1]
    next merged cs created hmerge =>
      simp [mergeTrees_eq_ok_iff.mp hmerge, (storeMerged_eq_ok h).1]

theorem speculationResult_mono {objects bigger : ObjectStore Id}
    (hle : objects ≤ bigger) {newRoot : Id}
    (h : speculationResult objects spec root = some newRoot) :
    speculationResult bigger spec root = some newRoot := by
  unfold speculationResult at h ⊢
  split at h
  next hbase => rw [if_pos hbase, h]
  next hbase =>
    rw [if_neg hbase]
    cases hmerge : tryThreeWayMergeCollect objects spec.baseRoot
        spec.currentRoot root with
    | error e => simp [hmerge] at h
    | ok r =>
        rw [tryThreeWayMergeCollect_mono hle hmerge]
        rwa [hmerge] at h

end

namespace Repository

variable (repo : Repository)

theorem buildSpeculation_grows (store : Storage Id) (spec : Speculation Id)
    (expectedHead : Id) (options : CommitOptions) (now : ℤ) :
    store.Grows
      (repo.buildSpeculation store spec expectedHead options now).2 := by
  have hsnd := landAsIs_snd store spec
  unfold buildSpeculation
  split
  · exact Storage.Grows.refl store
  next expectedRoot hroot =>
    split
    · exact Storage.Grows.refl store
    · split
      · exact Storage.Grows.refl store
      · split
        next e store' hland =>
          rw [hland] at hsnd
          simp only at hsnd
          subst hsnd
          exact Storage.Grows.refl _
        next root store' hland =>
          rw [hland] at hsnd
          simp only at hsnd
          subst hsnd
          exact (repo.createCommit_addsCommit _ root [expectedHead] options
            now).grows

theorem buildSpeculation_eq_ok {store stored : Storage Id}
    {spec : Speculation Id} {expectedHead : Id} {options : CommitOptions}
    {now : ℤ} {c : Commit Id}
    (h : repo.buildSpeculation store spec expectedHead options now =
      (.ok c, stored)) :
    store.rootOf expectedHead = some spec.baseRoot ∧
      checkSpeculation store.objects spec options = .ok () ∧
      c = CommitBuilder.build spec.currentRoot [expectedHead] options now ∧
      store.AddsCommit c stored := by
  unfold buildSpeculation at h
  split at h
  next => simp at h
  next expectedRoot hroot =>
    split at h
    next => simp at h
    next hbase =>
      have hbase : spec.baseRoot = expectedRoot := by simpa using hbase
      split at h
      next => simp at h
      next hcheck =>
        split at h
        next => simp at h
        next root store' hland =>
          obtain ⟨rfl, rfl⟩ := landAsIs_eq_ok hland
          obtain ⟨rfl, hcommit⟩ := repo.createCommit_eq_ok h
          exact ⟨by rw [hroot, hbase], hcheck, rfl, hcommit⟩

end Repository

end AgentStateGraph
