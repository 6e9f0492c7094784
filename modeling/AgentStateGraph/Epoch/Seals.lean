import AgentStateGraph.Repo.Branches
import AgentStateGraph.Repo.Interleaving

/-!
# Epoch seals

Sealing an epoch records the commits it covers: what its ref reaches, or for a
plan its members.  From then on a move of `main` is refused unless every one
of them is in the history of the new head, also those that `main` never had.
-/

namespace AgentStateGraph

variable {Id : Type} [Digest Id]

/-! ## The epoch table -/

namespace Epoch

def isSealed (epoch : Epoch Id) : Bool :=
  epoch.status = .sealed || epoch.status = .archived

/-- Change the epoch with the given id. -/
def modify (id : String) (f : Epoch Id → Epoch Id) :
    List (Epoch Id) → List (Epoch Id)
  | [] => []
  | e :: es => if e.id = id then f e :: es else e :: modify id f es

end Epoch

namespace Storage

variable (store : Storage Id)

/-- A new epoch; the table lists the newest first. -/
def createEpoch (epoch : Epoch Id) : Except StorageError (Storage Id) :=
  if store.epochs.any fun e => e.id = epoch.id then
    .error (.backend ("epoch '" ++ epoch.id ++ "' already exists"))
  else .ok { store with epochs := epoch :: store.epochs }

def epoch? (id : String) : Option (Epoch Id) :=
  store.epochs.find? fun e => e.id = id

/-- The commits associated with an epoch. -/
def epochCommits (id : String) : List Id :=
  (store.commitEpoch.filter fun e => e.2 = id).map Prod.fst

def sealEpoch (id : String) (sealedCommits : List Id) :
    Except StorageError (Storage Id) :=
  match store.epoch? id with
  | none => .error (.backend ("epoch not found: " ++ id))
  | some epoch =>
      if epoch.isSealed then .error (.epochAlreadySealed id)
      else
        .ok { store with
          epochs := Epoch.modify id
            (fun e => { e with
              status := .sealed
              sealedCommits := sealedCommits }) store.epochs }

def archiveEpoch (id : String) : Except StorageError (Storage Id) :=
  match store.epoch? id with
  | none => .error (.backend ("epoch not found: " ++ id))
  | some epoch =>
      if epoch.status ≠ .sealed then
        .error (.backend ("epoch '" ++ id ++ "' is not sealed"))
      else
        .ok { store with
          epochs := Epoch.modify id (fun e => { e with status := .archived })
            store.epochs }

end Storage

namespace Repository

variable (repo : Repository)

def createEpochScoped (store : Storage Id) (id : String) (scope : EpochScope) :
    Except (RepoError Id) (Storage Id) :=
  liftStorage (store.createEpoch
    ⟨id, .active, [], scope, some repo.activeNamespace⟩)

/-- The commits a seal covers. -/
def sealedBy (store : Storage Id) (epoch : Epoch Id) :
    Except (RepoError Id) (List Id) :=
  match epoch.scope.sealRef with
  | none => .ok (store.epochCommits epoch.id)
  | some refName => do
      match ← liftStorage (store.getRef repo.activeNamespace refName) with
      | some head => .ok (store.commits.ancestry [head])
      | none => .ok []

def sealEpoch (store : Storage Id) (id : String) :
    Except (RepoError Id) (Storage Id) :=
  match store.epoch? id with
  | none => .error (.refNotFound ("epoch not found: " ++ id))
  | some epoch => do
      let sealedCommits ← repo.sealedBy store epoch
      liftStorage (store.sealEpoch id sealedCommits)

/-! ## Seals and updates that extend `main` -/

/-- A commit that a seal of this namespace covers. -/
def Seals (store : Storage Id) (id : Id) : Prop :=
  ∃ epoch ∈ store.epochs, epoch.isSealed = true ∧
    epochBindsNamespace epoch repo.activeNamespace = true ∧
    id ∈ epoch.sealedCommits

theorem checkEpochSealViolations_eq_nil_iff (store : Storage Id) (new : Id) :
    repo.checkEpochSealViolations store new = [] ↔
      ∀ id, repo.Seals store id → store.commits.IsAncestor id new := by
  have hreach : ∀ id, id ∈ store.commits.ancestry [new] ↔
      store.commits.IsAncestor id new := by
    intro id
    simp [CommitStore.mem_ancestry_iff]
  simp only [checkEpochSealViolations, List.filter_eq_nil_iff, List.mem_map,
    List.mem_filter, Bool.and_eq_true, Bool.not_eq_true']
  constructor
  · rintro h id ⟨epoch, hepoch, hsealed, hbinds, hid⟩
    by_contra hnot
    refine h _ ⟨epoch, ⟨hepoch, hsealed, hbinds⟩, rfl⟩ ?_
    apply List.isEmpty_eq_false_iff.mpr
    apply List.ne_nil_of_mem (a := id)
    rw [List.mem_filter]
    exact ⟨hid, by simpa [hreach] using hnot⟩
  · rintro h v ⟨epoch, ⟨hepoch, hsealed, hbinds⟩, rfl⟩ hne
    obtain ⟨id, hid⟩ :=
      List.exists_mem_of_ne_nil _ (List.isEmpty_eq_false_iff.mp hne)
    obtain ⟨hmem, hnot⟩ := List.mem_filter.mp hid
    have hanc := h id ⟨epoch, hepoch, hsealed, hbinds, hmem⟩
    simp [hreach, hanc] at hnot

/-- In strict mode a move of `main` is accepted exactly when every sealed
commit of the namespace is in the history of the new head. -/
theorem enforceEpochSeals_main_iff (hstrict : repo.epochSealStrict = true)
    (store : Storage Id) (new : Id) :
    repo.enforceEpochSeals store "main" new = .ok () ↔
      ∀ id, repo.Seals store id → store.commits.IsAncestor id new := by
  rw [← checkEpochSealViolations_eq_nil_iff]
  unfold enforceEpochSeals
  cases repo.checkEpochSealViolations store new with
  | nil => simp
  | cons v vs => simp [hstrict]

/-- Every update of `main` that extends `old` is accepted, and one is refused
only when it loses a sealed commit that `old` reaches. -/
structure SealsFair (store : Storage Id) (old : Id) : Prop where
  accepts : ∀ new, store.commits.IsAncestor old new →
    repo.enforceEpochSeals store "main" new = .ok ()
  refuses : ∀ new e, repo.enforceEpochSeals store "main" new = .error e →
    ∃ id, repo.Seals store id ∧ store.commits.IsAncestor id old ∧
      ¬store.commits.IsAncestor id new

/-- The seals are fair to `main` exactly when all the commits they cover are
in its history. -/
theorem sealsFair_iff (hstrict : repo.epochSealStrict = true)
    (store : Storage Id) (old : Id) :
    repo.SealsFair store old ↔
      ∀ id, repo.Seals store id → store.commits.IsAncestor id old := by
  constructor
  · intro hfair
    have hself := hfair.accepts old (.refl _ old)
    exact (repo.enforceEpochSeals_main_iff hstrict store old).mp hself
  · intro hon
    constructor
    · intro new hext
      apply (repo.enforceEpochSeals_main_iff hstrict store new).mpr
      intro id hid
      exact (hon id hid).trans hext
    · intro new e hrefused
      by_contra hnone
      have haccepted : repo.enforceEpochSeals store "main" new = .ok () := by
        apply (repo.enforceEpochSeals_main_iff hstrict store new).mpr
        intro id hid
        by_contra hnot
        exact hnone ⟨id, hid, hon id hid, hnot⟩
      rw [haccepted] at hrefused
      contradiction

end Repository

/-! ## A plan written on a side branch -/

namespace PlanOnSide

open ContentKey

/-- The handle while the plan is the active epoch. -/
def planning : Repository := { Repository.new with activeEpoch := some "plan" }

/-- The store after a plan wrote to the branch `side` and was sealed. -/
def outcome : Except (RepoError ContentKey) (Storage ContentKey) := do
  let store ← Repository.new.createEpochScoped TwoWriters.store "plan"
    (.plan "plan")
  let store := (Repository.new.branch store "side" "main").2
  let store := (planning.set store "side" "/a" (Object.string "x")
    (options .refine) fun _ => 1).2
  Repository.new.sealEpoch store "plan"

def store : Storage ContentKey := outcome.toOption.getD Storage.new

/-- A write to `main` under the seal. -/
def write : Outcome ContentKey ContentKey :=
  Repository.new.set store "main" "/b" (Object.string "y") (options .refine)
    fun _ => 2

/-- The commit of the plan. -/
def member : ContentKey :=
  ((store.refAt "default" "side").getD TwoWriters.start.id)

end PlanOnSide

set_option maxRecDepth 16384 in
open PlanOnSide in
/-- The seal of a plan that wrote to another branch refuses every write to
`main`, which never had the plan's commit. -/
theorem seals_unfair_planOnSide :
    PlanOnSide.outcome.isOk = true ∧
      PlanOnSide.store.refAt "default" "main" = some TwoWriters.start.id ∧
      PlanOnSide.write.1 = .error (.epochSealViolated "plan" [member]) ∧
      ¬Repository.new.SealsFair PlanOnSide.store TwoWriters.start.id := by
  refine ⟨by decide, by decide, by decide, ?_⟩
  intro hfair
  have hself := hfair.accepts TwoWriters.start.id (.refl _ _)
  revert hself
  decide

open PlanOnSide in
/-- Over the plan's own commit the seal is fair. -/
theorem sealsFair_iff_planOnSide :
    Repository.new.epochSealStrict = true ∧
      (Repository.new.SealsFair PlanOnSide.store member ↔
        ∀ id, Repository.new.Seals PlanOnSide.store id →
          PlanOnSide.store.commits.IsAncestor id member) :=
  ⟨rfl, Repository.sealsFair_iff _ rfl _ _⟩

end AgentStateGraph
