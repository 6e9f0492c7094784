import AgentStateGraph.Storage.Objects

/-!
# The storage a repository works on

Objects and commits stand at their addresses; refs are names in a namespace
that point at commits and are moved one at a time.  Walks over the commit
graph follow every parent.
-/

namespace AgentStateGraph

variable {Id : Type} [Digest Id]

inductive EpochStatus where
  | active | sealed | archived
deriving DecidableEq

/-- What an epoch's seal covers. -/
inductive EpochScope where
  | all
  | branch (name : String)
  | plan (name : String)
  | workspace (name : String)
deriving DecidableEq

/-- The ref whose reachable commits the seal covers; a plan is sealed by its
members instead. -/
def EpochScope.sealRef : EpochScope → Option String
  | .all | .workspace _ => some "main"
  | .branch name => some name
  | .plan _ => none

/-- The part of an epoch that writes and seals read.  Its membership is the
`commitEpoch` table of the store. -/
structure Epoch (Id : Type) where
  id : String
  status : EpochStatus
  sealedCommits : List Id
  scope : EpochScope
  namespace_ : Option String
deriving DecidableEq

inductive SessionStatus where
  | active | ended
deriving DecidableEq

/-! ## Taints -/

inductive TaintKind where
  | taint | quarantine | watch
deriving DecidableEq

/-- How the pre-commit hook behaves when a taint matches a write. -/
inductive TaintEffect where
  | warn | block | review | isolate | advisory
deriving DecidableEq

/-- A taint, quarantine or watch on a path.  Of its metadata only the list of
authorized agents is read by the hook. -/
structure Taint where
  id : String
  path : String
  name : String
  kind : TaintKind
  effect : TaintEffect
  reason : String
  agentId : String
  commitId : String
  expiresAt : Option ℤ
  resolvedAt : Option ℤ
  propagate : Bool
  authorizedAgents : List String
deriving DecidableEq

/-! ## Tables -/

inductive StorageError where
  | objectNotFound (id : String)
  | commitNotFound (id : String)
  | namespaceNotFound (namespace_ : String)
  | backend (message : String)
  | epochAlreadySealed (id : String)
  | sessionEnded (id : String)
deriving DecidableEq

/-- The in-memory backend: every table the writes of a repository touch. -/
structure Storage (Id : Type) [Digest Id] where
  objects : ObjectStore Id
  commits : CommitStore Id
  namespaces : List String
  refs : BTreeMap (String ×ₗ String) Id
  epochs : List (Epoch Id)
  commitEpoch : List (Id × String)
  sessions : BTreeMap String SessionStatus
  commitSession : List (Id × String)
  taints : List Taint

namespace Storage

/-- A fresh store: no tables, and the default namespace. -/
def new : Storage Id where
  objects := AddressedMap.empty
  commits := AddressedMap.empty
  namespaces := ["default"]
  refs := ∅
  epochs := []
  commitEpoch := []
  sessions := ∅
  commitSession := []
  taints := []

/-! ## Refs -/

def refAt (store : Storage Id) (ns name : String) : Option Id :=
  store.refs[toLex (ns, name)]?

def putRef (store : Storage Id) (ns name : String) (target : Id) : Storage Id :=
  { store with refs := store.refs.insert (toLex (ns, name)) target }

def getRef (store : Storage Id) (ns name : String) :
    Except StorageError (Option Id) :=
  if ns ∈ store.namespaces then .ok (store.refAt ns name)
  else .error (.namespaceNotFound ns)

def setRef (store : Storage Id) (ns name : String) (target : Id) :
    Except StorageError (Storage Id) :=
  if ns ∈ store.namespaces then .ok (store.putRef ns name target)
  else .error (.namespaceNotFound ns)

/-- Move a ref only if it still points at `expected`; the answer says whether
it did. -/
def casRef (store : Storage Id) (ns name : String) (expected new : Id) :
    Except StorageError (Bool × Storage Id) :=
  if ns ∈ store.namespaces then
    if store.refAt ns name = some expected then
      .ok (true, store.putRef ns name new)
    else .ok (false, store)
  else .error (.namespaceNotFound ns)

theorem refAt_putRef (store : Storage Id) (ns name ns' name' : String)
    (target : Id) :
    (store.putRef ns name target).refAt ns' name' =
      if ns = ns' ∧ name = name' then some target else store.refAt ns' name' := by
  simp only [refAt, putRef, Std.ExtTreeMap.getElem?_insert, compare_eq_iff_eq,
    EmbeddingLike.apply_eq_iff_eq, Prod.mk.injEq]

@[simp] theorem refAt_putRef_self (store : Storage Id) (ns name : String)
    (target : Id) : (store.putRef ns name target).refAt ns name = some target := by
  simp [refAt_putRef]

@[simp] theorem putRef_objects (store : Storage Id) (ns name : String)
    (target : Id) : (store.putRef ns name target).objects = store.objects := rfl

@[simp] theorem putRef_commits (store : Storage Id) (ns name : String)
    (target : Id) : (store.putRef ns name target).commits = store.commits := rfl

/-! ## Objects and commits -/

def getObject (store : Storage Id) (id : Id) : Option (Object Id) :=
  store.objects.get id

def getCommit (store : Storage Id) (id : Id) : Option (Commit Id) :=
  store.commits.get id

/-- The state root of a stored commit. -/
def rootOf (store : Storage Id) (id : Id) : Option Id :=
  (store.getCommit id).map fun c => c.stateRoot

def putCommit (store : Storage Id) (c : Commit Id) : Storage Id :=
  { store with commits := store.commits.put c }

def withObjects (store : Storage Id) (objects : ObjectStore Id) : Storage Id :=
  { store with objects := objects }

/-- Associate a commit with an epoch, unless the epoch is sealed. -/
def setCommitEpoch (store : Storage Id) (commit : Id) (epochId : String) :
    Except StorageError (Storage Id) :=
  match store.epochs.find? fun e => e.id = epochId with
  | none => .error (.backend ("epoch not found: " ++ epochId))
  | some epoch =>
      if epoch.status = .sealed ∨ epoch.status = .archived then
        .error (.epochAlreadySealed epochId)
      else
        .ok { store with
          commitEpoch :=
            store.commitEpoch.filter (fun e => e.1 ≠ commit) ++
              [(commit, epochId)] }

/-- Associate a commit with a session, unless the session has ended. -/
def setCommitSession (store : Storage Id) (commit : Id) (sessionId : String) :
    Except StorageError (Storage Id) :=
  match store.sessions[sessionId]? with
  | none => .error (.backend ("session not found: " ++ sessionId))
  | some .ended => .error (.sessionEnded sessionId)
  | some .active =>
      .ok { store with
        commitSession :=
          store.commitSession.filter (fun e => e.1 ≠ commit) ++
            [(commit, sessionId)] }

def TaintKind.debug : TaintKind → String
  | .taint => "Taint"
  | .quarantine => "Quarantine"
  | .watch => "Watch"

/-- Record a taint, unless an unresolved one of the same path, name and kind
stands. -/
def createTaint (store : Storage Id) (t : Taint) :
    Except StorageError (Storage Id) :=
  if store.taints.any fun existing =>
      existing.resolvedAt.isNone && existing.path == t.path &&
        existing.name == t.name && existing.kind == t.kind then
    .error (.backend ("duplicate active taint (" ++ t.path ++ ", " ++ t.name ++
      ", " ++ TaintKind.debug t.kind ++ ")"))
  else .ok { store with taints := store.taints ++ [t] }

def setTaintCommitId (store : Storage Id) (taintId commitId : String) :
    Storage Id :=
  { store with
    taints := store.taints.map fun t =>
      if t.id = taintId then { t with commitId := commitId } else t }

/-! ## What an operation may change -/

/-- Only objects were added. -/
structure AddsObjects (s t : Storage Id) : Prop where
  eq : t = s.withObjects t.objects
  le : s.objects ≤ t.objects

/-- A commit was stored, and associations made; nothing else. -/
structure AddsCommit (s : Storage Id) (c : Commit Id) (t : Storage Id) : Prop where
  objects : t.objects = s.objects
  commits : t.commits = s.commits.put c
  refs : t.refs = s.refs
  namespaces : t.namespaces = s.namespaces
  epochs : t.epochs = s.epochs
  taints : t.taints = s.taints

/-- A commit was stored and the ref points at it; nothing else. -/
structure Lands (s : Storage Id) (ns refName : String) (c : Commit Id)
    (t : Storage Id) : Prop where
  objects : t.objects = s.objects
  commits : t.commits = s.commits.put c
  refs : t.refs = s.refs.insert (toLex (ns, refName)) c.id
  namespaces : t.namespaces = s.namespaces
  epochs : t.epochs = s.epochs
  taints : t.taints = s.taints

section

variable {s t : Storage Id} {c : Commit Id} {ns refName : String}

theorem AddsCommit.lands {stored : Storage Id} (h : s.AddsCommit c stored)
    (ns refName : String) :
    s.Lands ns refName c (stored.putRef ns refName c.id) where
  objects := h.objects
  commits := h.commits
  refs := by simp only [putRef, h.refs]
  namespaces := h.namespaces
  epochs := h.epochs
  taints := h.taints

theorem Lands.refAt (h : s.Lands ns refName c t) (ns' name : String) :
    t.refAt ns' name =
      if ns = ns' ∧ refName = name then some c.id else s.refAt ns' name := by
  rw [← refAt_putRef]
  simp only [Storage.refAt, putRef, h.refs]

theorem Lands.getCommit (h : s.Lands ns refName c t) :
    t.getCommit c.id = some c := by
  simp [Storage.getCommit, h.commits]

theorem Lands.commits_le (h : s.Lands ns refName c t) :
    s.commits ≤ t.commits := by
  rw [h.commits]
  exact CommitStore.le_put s.commits c

theorem addsObjects_withObjects {objects : ObjectStore Id}
    (h : s.objects ≤ objects) : AddsObjects s (s.withObjects objects) :=
  ⟨rfl, h⟩

theorem AddsObjects.refl (s : Storage Id) : AddsObjects s s :=
  ⟨rfl, le_refl _⟩

theorem AddsObjects.trans {u : Storage Id} (hst : AddsObjects s t)
    (htu : AddsObjects t u) : AddsObjects s u where
  eq := by
    have h₁ := hst.eq
    have h₂ := htu.eq
    rw [h₂, h₁]
    rfl
  le := hst.le.trans htu.le

end

section AddsObjects

variable {s t : Storage Id} (h : AddsObjects s t)
include h

theorem AddsObjects.commits : t.commits = s.commits := by
  rw [h.eq]
  rfl

theorem AddsObjects.refs : t.refs = s.refs := by
  rw [h.eq]
  rfl

theorem AddsObjects.namespaces : t.namespaces = s.namespaces := by
  rw [h.eq]
  rfl

theorem AddsObjects.epochs : t.epochs = s.epochs := by
  rw [h.eq]
  rfl

theorem AddsObjects.taints : t.taints = s.taints := by
  rw [h.eq]
  rfl

end AddsObjects

/-- Every taint still stands, whatever commit its record names. -/
def TaintsKept (s t : Storage Id) : Prop :=
  ∀ a ∈ s.taints, ∃ b ∈ t.taints, b = { a with commitId := b.commitId }

variable {s t : Storage Id} {c : Commit Id}

theorem TaintsKept.of_eq (h : t.taints = s.taints) : TaintsKept s t :=
  fun a ha => ⟨a, h ▸ ha, rfl⟩

theorem TaintsKept.trans {u : Storage Id} (hst : TaintsKept s t)
    (htu : TaintsKept t u) : TaintsKept s u := by
  intro a ha
  obtain ⟨b, hb, hab⟩ := hst a ha
  obtain ⟨c, hc, hbc⟩ := htu b hb
  refine ⟨c, hc, ?_⟩
  rw [hbc, hab]

/-- Objects and commits were added, and no ref moved. -/
structure Grows (s t : Storage Id) : Prop where
  objects : s.objects ≤ t.objects
  commits : s.commits ≤ t.commits
  refs : t.refs = s.refs
  taints : TaintsKept s t

theorem Grows.refl (s : Storage Id) : Grows s s :=
  ⟨le_refl _, le_refl _, rfl, .of_eq rfl⟩

theorem Grows.trans {u : Storage Id} (hst : Grows s t) (htu : Grows t u) :
    Grows s u :=
  ⟨hst.objects.trans htu.objects, hst.commits.trans htu.commits,
    htu.refs.trans hst.refs, hst.taints.trans htu.taints⟩

theorem AddsObjects.grows (h : AddsObjects s t) : Grows s t :=
  ⟨h.le, h.commits.ge, h.refs, .of_eq h.taints⟩

theorem AddsCommit.grows (h : AddsCommit s c t) : Grows s t where
  objects := h.objects.ge
  commits := by
    rw [h.commits]
    exact CommitStore.le_put s.commits c
  refs := h.refs
  taints := .of_eq h.taints

theorem createTaint_grows {record : Taint} (h : s.createTaint record = .ok t) :
    Grows s t := by
  unfold createTaint at h
  split at h
  · contradiction
  · simp only [Except.ok.injEq] at h
    subst h
    refine ⟨le_refl _, le_refl _, rfl, ?_⟩
    intro a ha
    exact ⟨a, List.mem_append_left _ ha, rfl⟩

theorem setTaintCommitId_grows (s : Storage Id) (taintId commitId : String) :
    Grows s (s.setTaintCommitId taintId commitId) := by
  refine ⟨le_refl _, le_refl _, rfl, ?_⟩
  intro a ha
  refine ⟨_, List.mem_map_of_mem ha, ?_⟩
  split <;> rfl

theorem AddsCommit.getCommit (h : AddsCommit s c t) :
    t.getCommit c.id = some c := by
  simp [Storage.getCommit, h.commits]

theorem rootOf_of_getCommit {id : Id} (h : s.getCommit id = some c) :
    s.rootOf id = some c.stateRoot := by
  simp [rootOf, h]

theorem rootOf_of_le (hle : s.commits ≤ t.commits) {id root : Id}
    (h : s.rootOf id = some root) : t.rootOf id = some root := by
  simp only [rootOf, Storage.getCommit, Option.map_eq_some_iff] at h ⊢
  obtain ⟨c, hc, hroot⟩ := h
  exact ⟨c, hle id c hc, hroot⟩

end Storage

end AgentStateGraph
