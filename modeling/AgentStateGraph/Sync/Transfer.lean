import AgentStateGraph.Control.Reconcile
import AgentStateGraph.Lib.Search
import AgentStateGraph.Sync.Bundle

/-!
# Taking records from a bundle

A store that receives a bundle stores its objects and commits as they are
verified, whatever becomes of the bundle, and moves a ref only once the whole
bundle was read and checked.  This module has the parts that receiving a push,
fetching and importing share.

The byte reader hands over verified records until the bundle ends or fails, so
a bundle is here the records it yields and the error it stops with, if any.
-/

namespace AgentStateGraph

variable {Id : Type} [Digest Id]

/-- A ref a bundle carries, or a remote offers. -/
structure BundleRef (Id : Type) where
  namespace_ : String
  name : String
  target : Id
deriving DecidableEq

inductive Record (Id : Type) [Digest Id] where
  | ref (r : BundleRef Id)
  | shallow (id : Id)
  | commit (c : Commit Id)
  | object (o : Object Id)

/-- What a bundle yields: verified records, then the end or an error. -/
structure RecordStream (Id : Type) [Digest Id] where
  records : List (Record Id)
  error : Option Bundles.BundleError

inductive TransferError (Id : Type) where
  | bundle (e : Bundles.BundleError)
  | repo (e : RepoError Id)
  | control (e : ControlRepoError Id)
  | incomplete (message : String)
  | refConflict (refs : List String)
deriving DecidableEq

def liftTransfer {α : Type} : Except StorageError α → Except (TransferError Id) α
  | .ok a => .ok a
  | .error e => .error (.repo (.storage e))

/-! ## Storing the records -/

/-- How many objects one storage write handles. -/
def BATCH : ℕ := 1024

/-- What was stored: the commits in the bundle's order. -/
structure Received (Id : Type) [Digest Id] where
  refs : List (BundleRef Id)
  shallow : List Id
  commits : List (Commit Id)
  objects : ℕ

def Received.empty : Received Id := ⟨[], [], [], 0⟩

/-- The store, the objects not yet written, and what was received. -/
structure Storing (Id : Type) [Digest Id] where
  store : Storage Id
  pending : List (Object Id)
  received : Received Id

namespace Storing

def start (store : Storage Id) : Storing Id := ⟨store, [], .empty⟩

/-- `batch_put_objects` of the pending objects. -/
def flush (s : Storing Id) : Storing Id where
  store := s.store.withObjects (s.store.objects.putAll s.pending)
  pending := []
  received :=
    { s.received with objects := s.received.objects + s.pending.length }

def record (s : Storing Id) : Record Id → Storing Id
  | .object o =>
      let pushed := { s with pending := s.pending ++ [o] }
      if pushed.pending.length = BATCH then pushed.flush else pushed
  | .commit c =>
      { s with
        store := s.store.putCommit c
        received := { s.received with commits := s.received.commits ++ [c] } }
  | .shallow id =>
      { s with
        received := { s.received with shallow := s.received.shallow ++ [id] } }
  | .ref r =>
      { s with received := { s.received with refs := s.received.refs ++ [r] } }

/-- The end of the stream; objects that were not written before an error are
dropped. -/
def finish (s : Storing Id) (error : Option Bundles.BundleError) :
    Except (TransferError Id) (Received Id) × Storage Id :=
  match error with
  | some e => (.error (.bundle e), s.store)
  | none => (.ok s.flush.received, s.flush.store)

end Storing

/-- Store every object and commit of a bundle. -/
def storeRecords (store : Storage Id) (stream : RecordStream Id) :
    Except (TransferError Id) (Received Id) × Storage Id :=
  (stream.records.foldl Storing.record (.start store)).finish stream.error

/-! ## Ancestry -/

/-- Seven days, in nanoseconds. -/
def CLOCK_SKEW : ℤ := 7 * 24 * 60 * 60 * 1000000000

/-- Where a walk goes on from a commit: nowhere past one that is older than
the floor. -/
def parentsSince (commits : CommitStore Id) (floor : ℤ) (id : Id) : List Id :=
  match commits.get id with
  | none => []
  | some c => if c.timestamp < floor then [] else c.parents

/-- The oldest commit a walk for `ancestor` looks past. -/
def walkFloor (ancestor : Commit Id) : ℤ := ancestor.timestamp - CLOCK_SKEW

/-- Whether `ancestor` is `descendant` or is found from it. -/
def Storage.isAncestor (store : Storage Id) (ancestor descendant : Id) : Bool :=
  if ancestor = descendant then true
  else
    match store.getCommit ancestor with
    | none => false
    | some target =>
        Search.run (parentsSince store.commits (walkFloor target)) ancestor
          (store.commits.walkFuel [descendant]) (Search.start descendant)

namespace Storage

variable (store : Storage Id)

/-- A first commit holding nothing outside `/_meta`. -/
def isFreshRoot (commit : Id) : Bool :=
  match store.getCommit commit with
  | none => false
  | some c =>
      if c.parents.isEmpty then
        match store.getObject c.stateRoot with
        | some (.node (.map entries)) => entries.keys.all fun k => k == "_meta"
        | _ => false
      else false

/-- Whether the store has a commit and the root of its tree. -/
def hasWhole (commit : Id) : Bool :=
  match store.getCommit commit with
  | some c => (store.getObject c.stateRoot).isSome
  | none => false

end Storage

/-! ## Secrets and local-only refs -/

def LOCAL_ONLY_PATH : String := "/_meta/local_only"

/-- Whether a tree marks its ref local-only. -/
def treeIsLocalOnly (objects : ObjectStore Id) (root : Id) : Bool :=
  match StatePath.parse LOCAL_ONLY_PATH with
  | .error _ => false
  | .ok path =>
      match treeGet objects root path with
      | .ok (.atom (.bool true)) => true
      | _ => false

/-- Whether a tree holds anything under `/_meta/_secret`. -/
def treeHoldsSecrets (objects : ObjectStore Id) (root : Id) : Bool :=
  match StatePath.parse META_SECRET_PREFIX with
  | .error _ => false
  | .ok path => (treeGet objects root path).isOk

/-- Whether a commit's tree marks its ref local-only; a commit without its tree
does not. -/
def Storage.commitIsLocalOnly (store : Storage Id) (commit : Id) : Bool :=
  match store.getCommit commit with
  | some c =>
      (store.getObject c.stateRoot).isSome &&
        treeIsLocalOnly store.objects c.stateRoot
  | none => false

/-! ## Checking what was received -/

/-- The first parent of a commit that is not here. -/
def Storage.missingParent (store : Storage Id) (c : Commit Id) : Option Id :=
  c.parents.find? fun p => (store.getCommit p).isNone

def parentMissing (c : Commit Id) (parent : Id) : TransferError Id :=
  .incomplete ("commit " ++ displayId c.id ++ " has a parent, " ++
    displayId parent ++ ", that isn't here")

/-- What every ref of the store points at. -/
def Storage.targets (store : Storage Id) : List Id :=
  (store.refs.toList.filter fun e =>
    (ofLex e.1).1 ∈ store.namespaces).map fun e => e.2

/-- The tree a received one is checked against: that of its first parent, if it
was checked before or is a ref's target. -/
def checkBase (store : Storage Id) (targets : List Id)
    (whole : BTreeMap Id Id) (c : Commit Id) : Option Id :=
  match c.parents.head? with
  | none => none
  | some p =>
      if p ∈ whole then whole[p]?
      else if p ∈ targets then store.rootOf p
      else none

/-- The first object that a received tree lacks. -/
def missingFrom (store : Storage Id) (base : Option Id) (root : Id) :
    Option Id :=
  match base with
  | some base => firstMissingNew store.objects base root
  | none => firstMissingReachable store.objects root

/-- One received commit: its parents are here, unless it came shallow, and its
tree is whole, unless it came without. -/
def checkCommit (store : Storage Id) (targets shallow : List Id)
    (whole : BTreeMap Id Id) (c : Commit Id) :
    Except (TransferError Id) (BTreeMap Id Id) :=
  match if c.id ∈ shallow then none else store.missingParent c with
  | some parent => .error (parentMissing c parent)
  | none =>
      if (store.getObject c.stateRoot).isNone then .ok whole
      else
        match missingFrom store (checkBase store targets whole c)
            c.stateRoot with
        | some missing =>
            .error (.incomplete ("commit " ++ displayId c.id ++
              "'s tree lacks " ++ displayId missing))
        | none => .ok (whole.insert c.id c.stateRoot)

def checkReceived (store : Storage Id) (received : Received Id) :
    Except (TransferError Id) Unit := do
  let _ ← received.commits.foldlM
    (checkCommit store store.targets received.shallow) ∅
  .ok ()

/-- A ref can point at `target`: it is here, with the root of its tree. -/
def checkTarget (store : Storage Id) (target : Id) :
    Except (TransferError Id) Unit :=
  match store.getCommit target with
  | none => .error (.incomplete (displayId target ++ " isn't here"))
  | some c =>
      if (store.getObject c.stateRoot).isNone then
        .error (.incomplete (displayId target ++ "'s tree isn't here"))
      else .ok ()

/-! ## Shallow history -/

/-- Refs that record a commit held without its parents. -/
def SHALLOW_PREFIX : String := "_control-shallow/"

def shallowRef (id : Id) : String := SHALLOW_PREFIX ++ Digest.toHex id

namespace Storage

variable (store : Storage Id)

def hasAllParents (commit : Id) : Bool :=
  match store.getCommit commit with
  | none => false
  | some c => c.parents.all fun p => (store.getCommit p).isSome

/-- Record one commit held without its parents. -/
def markShallow (id : Id) : Storage Id :=
  if store.hasAllParents id then store
  else store.putRef defaultNs (shallowRef id) id

/-- Drop a record whose parents are all here. -/
def unmarkShallow (mark : String × Id) : Storage Id :=
  if store.hasAllParents mark.2 then
    if store.refAt defaultNs mark.1 = some mark.2 then
      store.eraseRef defaultNs mark.1
    else store
  else store

/-- Record the commits whose parents are not all here, and drop the records
whose parents now are. -/
def recordShallow (shallow : List Id) : Storage Id :=
  let marked := shallow.foldl markShallow store
  (marked.refsIn defaultNs SHALLOW_PREFIX).foldl unmarkShallow marked

end Storage

/-! ## The push log -/

def PUSH_LOG_REF : String := "_control-pushlog"

/-- Append an entry to the push log: a commit on its ref, with the entry's
serialized form as its tree. -/
def Storage.appendPushLog (store : Storage Id) (entry : Json)
    (options : CommitOptions) (now : ℤ) : Storage Id :=
  let (root, objects) := jsonToTree store.objects entry
  let head := store.refAt defaultNs PUSH_LOG_REF
  let commit := CommitBuilder.build root head.toList options now
  ((store.withObjects objects).putCommit commit).putRef defaultNs PUSH_LOG_REF
    commit.id

end AgentStateGraph
