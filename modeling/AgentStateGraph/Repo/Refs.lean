import AgentStateGraph.Core.Merge
import AgentStateGraph.Lib.ExceptBind
import AgentStateGraph.Repo.Ancestry
import AgentStateGraph.Tree.Write

/-!
# Resolving and moving refs

Every write of a repository reads the head of its ref, builds a commit on it
and moves the ref by compare-and-swap.  This module has the parts: resolving a
ref, the epoch seals a move must respect, the two ways of moving a ref, and
storing a commit.
-/

namespace AgentStateGraph

variable {Id : Type} [Digest Id]

inductive TaintError where
  | blocked (path taint reason : String)
  | notAuthorized (path agentId : String)
  | insufficientConfidence (path taint : String) (required got : F64)
  | notFound (what : String)
deriving DecidableEq

inductive RepoError (Id : Type) where
  | branchNotFound (name : String)
  | branchAlreadyExists (name : String)
  | invalidOperation (message : String)
  | refNotFound (name : String)
  | commitNotFound (name : String)
  | ambiguousCommitPrefix (pre : String) (count : ℕ)
  | reservedPath (path : String)
  | mergeConflicts (conflicts : List Conflict)
  | mergeWouldDelete (entries : List String)
  | integrityViolation (root missing : Id)
  | writeConflict
  | tree (e : TreeError Id)
  | storage (e : StorageError)
  | epochSealViolated (epochId : String) (unreachable : List Id)
  | commitRefNotAllowed (name : String)
  | reservedRef (name : String)
  | taint (source : TaintError) (taintId : Option String)
  | speculation (e : TreeError Id)
deriving DecidableEq

/-- The configuration of a repository handle; the storage it works on is
passed to each operation. -/
structure Repository where
  namespace_ : String
  activeSessionNamespace : Option String
  activeEpoch : Option String
  activeSession : Option String
  epochSealStrict : Bool
  branchRefsOnly : Bool
deriving DecidableEq

/-- A repository as `Repository::new` opens it. -/
def Repository.new : Repository where
  namespace_ := "default"
  activeSessionNamespace := none
  activeEpoch := none
  activeSession := none
  epochSealStrict := true
  branchRefsOnly := false

/-- What an operation returns, with the storage it leaves. -/
abbrev Outcome (Id : Type) [Digest Id] (α : Type) :=
  Except (RepoError Id) α × Storage Id

theorem Outcome.eq_of_fst {α : Type} {x : Outcome Id α}
    {r : Except (RepoError Id) α} (h : x.1 = r) : x = (r, x.2) :=
  Prod.ext h rfl

def liftStorage {α : Type} : Except StorageError α → Except (RepoError Id) α
  | .ok a => .ok a
  | .error e => .error (.storage e)

def liftTree {α : Type} : Except (TreeError Id) α → Except (RepoError Id) α
  | .ok a => .ok a
  | .error e => .error (.tree e)

omit [Digest Id] in
theorem liftStorage_eq_ok_iff {α : Type} {x : Except StorageError α} {a : α} :
    (liftStorage x : Except (RepoError Id) α) = .ok a ↔ x = .ok a := by
  cases x <;> simp [liftStorage]

omit [Digest Id] in
theorem liftTree_eq_ok_iff {α : Type} {x : Except (TreeError Id) α} {a : α} :
    liftTree x = .ok a ↔ x = .ok a := by
  cases x <;> simp [liftTree]

omit [Digest Id] in
theorem parsePath_eq_ok {path : String} {p : StatePath}
    (h : (liftTree (parsePath path) : Except (RepoError Id) StatePath) = .ok p) :
    StatePath.parse path = .ok p := by
  have h := liftTree_eq_ok_iff.mp h
  unfold parsePath at h
  split at h
  next q hq =>
    simp only [Except.ok.injEq] at h
    rw [hq, h]
  next => contradiction

/-! ## Reserved refs -/

def CONTROL_PREFIX : String := "_control"

def TRACKING_PREFIX : String := "remotes/"

def isReservedRef (name : String) : Bool := startsWith name CONTROL_PREFIX

def isTrackingRef (name : String) : Bool := startsWith name TRACKING_PREFIX

def refuseReservedRef (name : String) : Except (RepoError Id) Unit :=
  if isReservedRef name || isTrackingRef name then .error (.reservedRef name)
  else .ok ()

/-! ## Commit ids as text -/

/-- The characters `str::trim` removes. -/
def isWhitespace (c : Char) : Bool :=
  (9 ≤ c.toNat && c.toNat ≤ 13) || (0x2000 ≤ c.toNat && c.toNat ≤ 0x200A) ||
    c.toNat ∈ [0x20, 0x85, 0xA0, 0x1680, 0x2028, 0x2029, 0x202F, 0x205F, 0x3000]

/-- A ref text without surrounding blanks and without the `sg_` mark. -/
def hexText (s : String) : List Char :=
  let trimmed :=
    ((s.toList.dropWhile isWhitespace).reverse.dropWhile isWhitespace).reverse
  if "sg_".toList.isPrefixOf trimmed then trimmed.drop 3 else trimmed

def isHexDigit (c : Char) : Bool :=
  c.isDigit || ('a' ≤ c && c ≤ 'f') || ('A' ≤ c && c ≤ 'F')

/-- Whether the text is a full commit id: 64 hex digits. -/
def isFullHex (s : String) : Bool :=
  (hexText s).length == 64 && (hexText s).all isHexDigit

/-- `ObjectId::normalize_hex_prefix`. -/
def normalizeHexPrefix (s : String) : Option String :=
  if (hexText s).isEmpty || !(hexText s).all isHexDigit then none
  else some (String.ofList ((hexText s).map Char.toLower))

namespace Repository

variable (repo : Repository)

def activeNamespace : String :=
  repo.activeSessionNamespace.getD repo.namespace_

/-- Resolve a value that is not a branch name as a commit id or id prefix. -/
def resolveCommitRef (store : Storage Id) (refName : String) :
    Except (RepoError Id) Id :=
  if isFullHex refName then
    match Digest.ofHex (String.ofList (hexText refName)) with
    | some id =>
        if (store.getCommit id).isSome then .ok id
        else .error (.commitNotFound refName)
    | none => .error (.commitNotFound refName)
  else
    match normalizeHexPrefix refName with
    | none => .error (.branchNotFound refName)
    | some hex =>
        match store.commits.entries.keys.filter
            fun id => startsWith (Digest.toHex id) hex with
        | [] => .error (.commitNotFound refName)
        | [id] => .ok id
        | ids => .error (.ambiguousCommitPrefix refName ids.length)

/-- Resolve a ref: a branch name, or (unless refused) a commit id. -/
def resolveRef (store : Storage Id) (refName : String) :
    Except (RepoError Id) Id :=
  match liftStorage (store.getRef repo.activeNamespace refName) with
  | .error e => .error e
  | .ok (some id) => .ok id
  | .ok none =>
      if repo.branchRefsOnly then
        if isFullHex refName || (normalizeHexPrefix refName).isSome then
          .error (.commitRefNotAllowed refName)
        else .error (.branchNotFound refName)
      else resolveCommitRef store refName

/-- The commit a write builds on, and whether the ref is a stored branch. -/
def headForWrite (store : Storage Id) (refName : String) :
    Except (RepoError Id) (Id × Bool) := do
  refuseReservedRef refName
  let branch ← liftStorage (store.getRef repo.activeNamespace refName)
  match branch with
  | some id => .ok (id, true)
  | none => do
      let id ← repo.resolveRef store refName
      .ok (id, false)

/-! ## Epoch seals -/

def epochBindsNamespace (epoch : Epoch Id) (ns : String) : Bool :=
  epoch.namespace_ == some ns

/-- One violation per sealed epoch of this namespace that has a sealed commit
not reachable from the new target. -/
def checkEpochSealViolations (store : Storage Id) (newTarget : Id) :
    List (String × List Id) :=
  let binding := store.epochs.filter fun epoch =>
    (epoch.status = .sealed || epoch.status = .archived) &&
      epochBindsNamespace epoch repo.activeNamespace
  let reachable := store.commits.ancestry [newTarget]
  (binding.map fun epoch =>
    (epoch.id, epoch.sealedCommits.filter (· ∉ reachable))).filter
      fun v => !v.2.isEmpty

/-- Seals bind the moves of `main`; in warn mode they only print. -/
def enforceEpochSeals (store : Storage Id) (refName : String) (newTarget : Id) :
    Except (RepoError Id) Unit :=
  match repo.checkEpochSealViolations store newTarget with
  | [] => .ok ()
  | v :: _ =>
      if refName ≠ "main" then .ok ()
      else if repo.epochSealStrict then .error (.epochSealViolated v.1 v.2)
      else .ok ()

/-! ## Moving a ref -/

/-- An unconditional move, after the seal check. -/
def guardedSetRef (store : Storage Id) (refName : String) (newTarget : Id) :
    Except (RepoError Id) (Storage Id) := do
  refuseReservedRef refName
  repo.enforceEpochSeals store refName newTarget
  liftStorage (store.setRef repo.activeNamespace refName newTarget)

/-- A compare-and-swap, after the seal check. -/
def advanceRef (store : Storage Id) (refName : String) (expected newTarget : Id) :
    Except (RepoError Id) (Bool × Storage Id) := do
  refuseReservedRef refName
  repo.enforceEpochSeals store refName newTarget
  liftStorage (store.casRef repo.activeNamespace refName expected newTarget)

/-- Land a commit built on `expected`; `false` means another writer won. -/
def moveRef (store : Storage Id) (refName : String) (expected : Id)
    (isBranch : Bool) (newTarget : Id) :
    Except (RepoError Id) (Bool × Storage Id) :=
  if isBranch then repo.advanceRef store refName expected newTarget
  else do
    let store ← repo.guardedSetRef store refName newTarget
    .ok (true, store)

/-! ## Storing a commit -/

def associateEpoch (store : Storage Id) (commit : Id) :
    Except StorageError (Storage Id) :=
  match repo.activeEpoch with
  | none => .ok store
  | some epochId => store.setCommitEpoch commit epochId

def associateSession (store : Storage Id) (commit : Id) :
    Except StorageError (Storage Id) :=
  match repo.activeSession with
  | none => .ok store
  | some sessionId => store.setCommitSession commit sessionId

/-- Store a commit and associate it with the active epoch and session.  A
failed association is an error, with the commit stored. -/
def createCommit (store : Storage Id) (stateRoot : Id) (parents : List Id)
    (options : CommitOptions) (now : ℤ) : Outcome Id (Commit Id) :=
  let commit := CommitBuilder.build stateRoot parents options now
  let stored := store.putCommit commit
  match repo.associateEpoch stored commit.id with
  | .error e => (.error (.storage e), stored)
  | .ok inEpoch =>
      match repo.associateSession inEpoch commit.id with
      | .error e => (.error (.storage e), inEpoch)
      | .ok inSession => (.ok commit, inSession)

/-! ## What each part does -/

theorem addsCommit_putCommit (store : Storage Id) (c : Commit Id) :
    store.AddsCommit c (store.putCommit c) :=
  ⟨rfl, rfl, rfl, rfl, rfl, rfl⟩

variable {store stored store' : Storage Id} {c : Commit Id} {refName : String}
  {newTarget : Id} {isBranch : Bool}

theorem associateEpoch_addsCommit (hstored : store.AddsCommit c stored)
    (h : repo.associateEpoch stored c.id = .ok store') :
    store.AddsCommit c store' := by
  unfold associateEpoch at h
  split at h
  · simp only [Except.ok.injEq] at h
    exact h ▸ hstored
  · unfold Storage.setCommitEpoch at h
    split at h
    · contradiction
    · split at h
      · contradiction
      · simp only [Except.ok.injEq] at h
        subst h
        exact ⟨hstored.objects, hstored.commits, hstored.refs,
          hstored.namespaces, hstored.epochs, hstored.taints⟩

theorem associateSession_addsCommit (hstored : store.AddsCommit c stored)
    (h : repo.associateSession stored c.id = .ok store') :
    store.AddsCommit c store' := by
  unfold associateSession at h
  split at h
  · simp only [Except.ok.injEq] at h
    exact h ▸ hstored
  · unfold Storage.setCommitSession at h
    split at h
    · contradiction
    · contradiction
    · simp only [Except.ok.injEq] at h
      subst h
      exact ⟨hstored.objects, hstored.commits, hstored.refs,
        hstored.namespaces, hstored.epochs, hstored.taints⟩

theorem createCommit_addsCommit (store : Storage Id) (stateRoot : Id)
    (parents : List Id) (options : CommitOptions) (now : ℤ) :
    store.AddsCommit (CommitBuilder.build stateRoot parents options now)
      (repo.createCommit store stateRoot parents options now).2 := by
  have hput := addsCommit_putCommit store
    (CommitBuilder.build stateRoot parents options now)
  unfold createCommit
  simp only
  split
  · exact hput
  next inEpoch hepoch =>
    have hin := repo.associateEpoch_addsCommit hput hepoch
    split
    · exact hin
    next inSession hsession =>
      exact repo.associateSession_addsCommit hin hsession

theorem createCommit_eq_ok {stateRoot : Id} {parents : List Id}
    {options : CommitOptions} {now : ℤ}
    (h : repo.createCommit store stateRoot parents options now =
      (.ok c, stored)) :
    c = CommitBuilder.build stateRoot parents options now ∧
      store.AddsCommit c stored := by
  have hadds := repo.createCommit_addsCommit store stateRoot parents options now
  have hc : c = CommitBuilder.build stateRoot parents options now := by
    unfold createCommit at h
    simp only at h
    split at h
    · simp at h
    · split at h
      · simp at h
      · simp only [Prod.mk.injEq, Except.ok.injEq] at h
        exact h.1.symm
  rw [h] at hadds
  exact ⟨hc, hc ▸ hadds⟩

/-- A compare-and-swap that succeeded found the ref where it was expected;
one that failed changed nothing. -/
theorem advanceRef_eq_ok {expected : Id} {moved : Bool}
    (h : repo.advanceRef store refName expected newTarget =
      .ok (moved, store')) :
    (moved = true ∧ store.refAt repo.activeNamespace refName = some expected ∧
        store' = store.putRef repo.activeNamespace refName newTarget) ∨
      (moved = false ∧
        store.refAt repo.activeNamespace refName ≠ some expected ∧
        store' = store) := by
  obtain ⟨-, -, h⟩ := Except.bind_eq_ok_iff.mp h
  obtain ⟨-, -, h⟩ := Except.bind_eq_ok_iff.mp h
  have h := liftStorage_eq_ok_iff.mp h
  unfold Storage.casRef at h
  split at h
  · split at h
    next hexp =>
      simp only [Except.ok.injEq, Prod.mk.injEq] at h
      exact Or.inl ⟨h.1.symm, hexp, h.2.symm⟩
    next hexp =>
      simp only [Except.ok.injEq, Prod.mk.injEq] at h
      exact Or.inr ⟨h.1.symm, hexp, h.2.symm⟩
  · contradiction

theorem guardedSetRef_eq_ok
    (h : repo.guardedSetRef store refName newTarget = .ok store') :
    store' = store.putRef repo.activeNamespace refName newTarget := by
  obtain ⟨-, -, h⟩ := Except.bind_eq_ok_iff.mp h
  obtain ⟨-, -, h⟩ := Except.bind_eq_ok_iff.mp h
  have h := liftStorage_eq_ok_iff.mp h
  unfold Storage.setRef at h
  split at h
  · simp only [Except.ok.injEq] at h
    exact h.symm
  · contradiction

/-- A move that succeeded points the ref at the new target; on a branch it
was at `expected` before. -/
theorem moveRef_eq_ok_true {expected : Id}
    (h : repo.moveRef store refName expected isBranch newTarget =
      .ok (true, store')) :
    store' = store.putRef repo.activeNamespace refName newTarget ∧
      (isBranch = true →
        store.refAt repo.activeNamespace refName = some expected) := by
  unfold moveRef at h
  split at h
  next =>
    rcases repo.advanceRef_eq_ok h with ⟨-, hexp, hst⟩ | ⟨hfalse, -, -⟩
    · exact ⟨hst, fun _ => hexp⟩
    · simp at hfalse
  next hbranch =>
    obtain ⟨s, hs, h⟩ := Except.bind_eq_ok_iff.mp h
    simp only [Except.ok.injEq, Prod.mk.injEq, true_and] at h
    exact ⟨h ▸ repo.guardedSetRef_eq_ok hs, fun hb => absurd hb hbranch⟩

theorem headForWrite_eq_ok {head : Id}
    (h : repo.headForWrite store refName = .ok (head, isBranch)) :
    (isBranch = true ∧
        store.refAt repo.activeNamespace refName = some head) ∨
      (isBranch = false ∧
        store.refAt repo.activeNamespace refName = none ∧
        repo.resolveRef store refName = .ok head) := by
  obtain ⟨-, -, h⟩ := Except.bind_eq_ok_iff.mp h
  obtain ⟨branch, hbranch, h⟩ := Except.bind_eq_ok_iff.mp h
  have hget := liftStorage_eq_ok_iff.mp hbranch
  unfold Storage.getRef at hget
  split at hget
  · simp only [Except.ok.injEq] at hget
    subst hget
    split at h
    next id hid =>
      simp only [Except.ok.injEq, Prod.mk.injEq] at h
      exact Or.inl ⟨h.2.symm, h.1 ▸ hid⟩
    next hnone =>
      obtain ⟨id, hid, h⟩ := Except.bind_eq_ok_iff.mp h
      simp only [Except.ok.injEq, Prod.mk.injEq] at h
      exact Or.inr ⟨h.2.symm, hnone, h.1 ▸ hid⟩
  · contradiction

theorem headForWrite_namespace {r : Id × Bool}
    (h : repo.headForWrite store refName = .ok r) :
    repo.activeNamespace ∈ store.namespaces := by
  obtain ⟨-, -, h⟩ := Except.bind_eq_ok_iff.mp h
  obtain ⟨branch, hbranch, -⟩ := Except.bind_eq_ok_iff.mp h
  have hget := liftStorage_eq_ok_iff.mp hbranch
  unfold Storage.getRef at hget
  split at hget
  next hns => exact hns
  next => contradiction

theorem resolveRef_of_refAt {id : Id}
    (hns : repo.activeNamespace ∈ store.namespaces)
    (h : store.refAt repo.activeNamespace refName = some id) :
    repo.resolveRef store refName = .ok id := by
  simp [resolveRef, Storage.getRef, hns, h, liftStorage]

theorem headForWrite_resolveRef {head : Id}
    (h : repo.headForWrite store refName = .ok (head, isBranch)) :
    repo.resolveRef store refName = .ok head := by
  rcases repo.headForWrite_eq_ok h with ⟨-, href⟩ | ⟨-, -, hres⟩
  · exact repo.resolveRef_of_refAt (repo.headForWrite_namespace h) href
  · exact hres

end Repository

end AgentStateGraph
