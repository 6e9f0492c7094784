import AgentStateGraph.Sync.Transfer

/-!
# Receiving a push

A push names a ref, where the pusher saw it and where it should go.  The
receiver reads the ref, stores the bundle's records, checks them, walks the
ancestry of the new head and only then compares and swaps.
-/

namespace AgentStateGraph

variable {Id : Type} [Digest Id]

/-- Something a push filter found in what a push would send. -/
structure Finding (Id : Type) where
  filter : String
  rule : String
  path : String
  atom : Id
  commit : Id
deriving DecidableEq

inductive SyncError (Id : Type) where
  | transfer (e : TransferError Id)
  | rejected (name : String) (expected current : Option Id)
  | notFastForward (name : String)
  | noSuchRef (name : String)
  | blocked (name : String) (findings : List (Finding Id))
  | localOnly (name : String)
  | refused (message : String)
  | remote (message : String)
deriving DecidableEq

/-- What a push asks for: move `name` from `old` (absent: create it) to
`new`. -/
structure RefUpdate (Id : Type) where
  namespace_ : String
  name : String
  old : Option Id
  new : Id
deriving DecidableEq

inductive PushOutcome (Id : Type) where
  | updated
  | stale (current : Option Id)
  | notFastForward
deriving DecidableEq

/-- Whether a store offers a ref to a remote: a branch, or the control ref. -/
def isSyncedRef (ns name : String) : Bool :=
  if name = CONTROL_REF then ns == defaultNs
  else name ≠ "" && !isReservedRef name && !isTrackingRef name

namespace Storage

variable (store : Storage Id)

/-- A ref, with a namespace that does not exist counting as no ref. -/
def refOrNone (ns name : String) : Option Id :=
  if ns ∈ store.namespaces then store.refAt ns name else none

def createNamespace (ns : String) : Storage Id :=
  if ns ∈ store.namespaces then store
  else { store with namespaces := store.namespaces ++ [ns] }

/-- Move a ref from `old` to `new`, or create it. -/
def swapRef (ns name : String) (old : Option Id) (new : Id) :
    Except StorageError (Bool × Storage Id) :=
  match old with
  | some old => store.casRef ns name old new
  | none => store.createRef ns name new

end Storage

/-! ## The steps of a receive -/

namespace RefUpdate

variable (update : RefUpdate Id)

/-- Before the bundle is read: the answer, or nothing to stop at. -/
def start (store : Storage Id) :
    Option (Except (SyncError Id) (PushOutcome Id)) :=
  if !isSyncedRef update.namespace_ update.name then
    some (.error (.refused (update.namespace_ ++ "/" ++ update.name ++
      " isn't a ref a push can move")))
  else
    let current := store.refOrNone update.namespace_ update.name
    if current ≠ update.old then some (.ok (.stale current))
    else if update.old = some update.new then some (.ok .updated)
    else none

/-- The first received commit whose tree holds a secret. -/
def secretCommit (store : Storage Id) (received : Received Id) :
    Option (Commit Id) :=
  received.commits.find? fun c =>
    (store.getObject c.stateRoot).isSome &&
      treeHoldsSecrets store.objects c.stateRoot

/-- What was received can be used, and may be pushed. -/
def check (store : Storage Id) (received : Received Id) :
    Except (SyncError Id) Unit :=
  match checkReceived store received with
  | .error e => .error (.transfer e)
  | .ok () =>
      match checkTarget store update.new with
      | .error e => .error (.transfer e)
      | .ok () =>
          match secretCommit store received with
          | some c =>
              .error (.refused ("commit " ++ displayId c.id ++
                " holds /_meta/_secret, which never syncs"))
          | none =>
              if update.name ≠ CONTROL_REF ∧
                  store.commitIsLocalOnly update.new = true then
                .error (.refused (update.namespace_ ++ "/" ++ update.name ++
                  " is marked local-only"))
              else .ok ()

/-- Only forward, except from the empty first commit. -/
def isForward (store : Storage Id) : Bool :=
  match update.old with
  | none => true
  | some old => store.isAncestor old update.new || store.isFreshRoot old

/-- Move the ref; the answer says whether it was where the update says. -/
def land (store : Storage Id) : Except StorageError (Bool × Storage Id) :=
  if update.name = CONTROL_REF then
    store.swapRef defaultNs CONTROL_REF update.old update.new
  else
    (store.createNamespace update.namespace_).swapRef update.namespace_
      update.name update.old update.new

end RefUpdate

/-- A push as it arrives: the update, the bundle, what a reconcile would read,
and the entry for the push log. -/
structure Delivery (Id : Type) [Digest Id] where
  update : RefUpdate Id
  bundle : RecordStream Id
  view : ControlView Id
  entry : Json
  options : CommitOptions
  now : ℤ

namespace Delivery

variable (d : Delivery Id)

/-- After the ref moved: the tables follow a control ref, the shallow commits
are recorded and the push is logged. -/
def settle (codec : ControlCodec Id) (shallow : List Id) (store : Storage Id) :
    Storage Id :=
  let store :=
    if d.update.name = CONTROL_REF then (store.reconcileControl codec d.view).2
    else store
  (store.recordShallow shallow).appendPushLog d.entry d.options d.now

/-- The end of a receive, once everything was checked. -/
def conclude (codec : ControlCodec Id) (shallow : List Id)
    (store : Storage Id) :
    Except (SyncError Id) (PushOutcome Id) × Storage Id :=
  match d.update.land store with
  | .error e => (.error (.transfer (.repo (.storage e))), store)
  | .ok (true, moved) => (.ok .updated, d.settle codec shallow moved)
  | .ok (false, kept) =>
      (.ok (.stale (kept.refOrNone d.update.namespace_ d.update.name)), kept)

/-- Answer a push. -/
def syncReceive (codec : ControlCodec Id) (store : Storage Id) :
    Except (SyncError Id) (PushOutcome Id) × Storage Id :=
  match d.update.start store with
  | some answer => (answer, store)
  | none =>
      match storeRecords store d.bundle with
      | (.error e, stored) => (.error (.transfer e), stored)
      | (.ok received, stored) =>
          match d.update.check stored received with
          | .error e => (.error e, stored)
          | .ok () =>
              if d.update.isForward stored then
                d.conclude codec received.shallow stored
              else (.ok .notFastForward, stored)

end Delivery

/-! ## The walk -/

section Walk

variable {store : Storage Id} {a b : Id}

theorem mem_parents_of_mem_parentsSince {commits : CommitStore Id} {floor : ℤ}
    {id p : Id} (h : p ∈ parentsSince commits floor id) :
    p ∈ commits.parents id := by
  unfold parentsSince at h
  split at h
  next => simp at h
  next c hc =>
    rw [CommitStore.parents_of_get hc]
    split at h
    · simp at h
    · exact h

/-- The walk never answers yes for a commit that is no ancestor, whatever the
clocks say. -/
theorem isAncestor_sound (h : store.isAncestor a b = true) :
    store.commits.IsAncestor a b := by
  unfold Storage.isAncestor at h
  split at h
  next heq => exact heq ▸ .refl _ _
  next =>
    split at h
    next => contradiction
    next target _ =>
      have hreach := @Search.reaches_of_run Id _ a b _ _ _ ?_ h
      · exact hreach.mono fun _ _ => mem_parents_of_mem_parentsSince
      · intro x hx
        rw [List.mem_singleton.mp hx]
        exact .refl _ _

end Walk

end AgentStateGraph
