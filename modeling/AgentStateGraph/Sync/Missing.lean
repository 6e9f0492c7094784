import AgentStateGraph.Lib.ExceptBind
import AgentStateGraph.Lib.TopologicalOrder
import AgentStateGraph.Repo.Ancestry

/-!
# The commits and objects a remote lacks

The walk runs from both sides at once, newest commit first.  A commit reached
from one the remote has is marked, and the mark spreads to its parents; the
walk stops once nothing left could be new and every marked commit as new as
the oldest new one has spread its mark.  The objects come from diffing each
new commit's tree against its parents' trees, a level at a time.

The walk's map of the commits it has read says what the store says, so it is
not part of the state here; reads of several objects at once are single reads.
-/

namespace AgentStateGraph

namespace Missing

variable {Id : Type} [Digest Id]

/-- What a remote lacks to take some heads. -/
structure MissingSet (Id : Type) where
  /-- The commits, each after its parents. -/
  commits : List Id
  objects : List Id
  /-- The commits sent without all of their parents. -/
  shallow : List Id
  /-- The commits sent without their trees: the root is gone. -/
  pruned : List Id
deriving DecidableEq

/-! ## The walk -/

structure Mark where
  /-- Reachable from a commit the remote has. -/
  remoteHas : Bool
  /-- The mark has been passed to the parents. -/
  spread : Bool
  /-- Queued from a head's side. -/
  queued : Bool
  /-- Walked from a head's side. -/
  walked : Bool
deriving DecidableEq

def Mark.none : Mark := ⟨false, false, false, false⟩

/-- The walk's state. -/
structure Walk (Id : Type) where
  marks : Id → Mark
  queue : List (ℤ ×ₗ Id)
  /-- Queued commits that may still be new. -/
  pending : List Id
  /-- The commits walked from a head's side, in order. -/
  walked : List Id
  lacksParent : List Id
  oldestNew : Option ℤ

namespace Walk

def empty : Walk Id := ⟨fun _ => .none, [], [], [], [], none⟩

def queueNew (w : Walk Id) (c : Commit Id) : Walk Id :=
  let m := w.marks c.id
  if m.remoteHas || m.queued then w
  else { w with
    marks := Function.update w.marks c.id { m with queued := true }
    pending := c.id :: w.pending
    queue := toLex (c.timestamp, c.id) :: w.queue }

def markRemoteHas (w : Walk Id) (c : Commit Id) : Walk Id :=
  let m := w.marks c.id
  if m.remoteHas then w
  else { w with
    marks := Function.update w.marks c.id { m with remoteHas := true }
    pending := w.pending.filter (· ≠ c.id)
    queue := toLex (c.timestamp, c.id) :: w.queue }

/-- Mark a commit if the store has it. -/
def loadRemoteHas (commits : CommitStore Id) (w : Walk Id) (id : Id) : Walk Id :=
  match commits.get id with
  | some c => w.markRemoteHas c
  | none => w

/-- Queue a parent of a walked commit, or note that the store lacks it. -/
def loadNew (commits : CommitStore Id) (child : Id) (w : Walk Id) (id : Id) :
    Walk Id :=
  match commits.get id with
  | some c => w.queueNew c
  | none => { w with lacksParent := child :: w.lacksParent }

def spread (commits : CommitStore Id) (w : Walk Id) (id : Id) : Walk Id :=
  let m := w.marks id
  if m.spread then w
  else
    (commits.parents id).foldl (loadRemoteHas commits)
      { w with marks := Function.update w.marks id { m with spread := true } }

/-- Walk a commit from a head's side. -/
def visit (commits : CommitStore Id) (shallow : List Id) (w : Walk Id)
    (timestamp : ℤ) (id : Id) : Walk Id :=
  let w := { w with
    marks := Function.update w.marks id { w.marks id with walked := true }
    walked := w.walked ++ [id]
    oldestNew := some (match w.oldestNew with
      | none => timestamp
      | some t => min t timestamp) }
  if id ∈ shallow then w
  else (commits.parents id).foldl (loadNew commits id) w

/-- Nothing queued could be new, and every commit the remote has that is as
new as the oldest new commit has spread its mark. -/
def settled (w : Walk Id) (timestamp : ℤ) : Bool :=
  w.pending.isEmpty && w.oldestNew.all fun oldest => decide (timestamp < oldest)

/-- Take a commit off the queue, unless the walk is over. -/
def advance (commits : CommitStore Id) (shallow : List Id) (w : Walk Id)
    (queue : List (ℤ ×ₗ Id)) (timestamp : ℤ) (id : Id) : Option (Walk Id) :=
  if w.settled timestamp then none
  else
    let w := { w with
      queue := queue, pending := w.pending.filter (· ≠ id) }
    if (w.marks id).remoteHas then some (w.spread commits id)
    else if (w.marks id).walked then some w
    else some (w.visit commits shallow timestamp id)

/-- One round of the walk; none when it is over. -/
def step (commits : CommitStore Id) (shallow : List Id) (w : Walk Id) :
    Option (Walk Id) :=
  match HeapLoop.pop w.queue with
  | none => none
  | some (top, queue) =>
      w.advance commits shallow queue (ofLex top).1 (ofLex top).2

def startHead (commits : CommitStore Id) (w : Walk Id) (head : Id) :
    Except StorageError (Walk Id) :=
  match commits.get head with
  | some c => .ok (w.queueNew c)
  | none => .error (.commitNotFound (displayId head))

/-- Each commit enters the queue at most twice. -/
def rounds (commits : CommitStore Id) : ℕ := 2 * commits.entries.toList.length

/-- The whole walk. -/
def fromHeads (commits : CommitStore Id) (heads haves shallow : List Id) :
    Except StorageError (Walk Id) := do
  let w ← heads.foldlM (startHead commits) empty
  let w := haves.foldl (loadRemoteHas commits) w
  .ok (HeapLoop.run (step commits shallow) (rounds commits) w)

/-- The walked commits the remote lacks. -/
def newCommits (w : Walk Id) : List Id :=
  w.walked.filter fun id => !(w.marks id).remoteHas

end Walk

/-! ## The order -/

/-- The key a commit waits under. -/
def orderKey (commits : CommitStore Id) (id : Id) : (ℤ ×ₗ Id)ᵒᵈ :=
  OrderDual.toDual (toLex
    (((commits.get id).map fun c => c.timestamp).getD 0, id))

/-- `new` ordered so each commit comes after its parents in `new`; among
commits that are ready together, oldest first. -/
def parentsFirst (commits : CommitStore Id) (new : List Id) : List Id :=
  TopologicalOrder.sort new
    (fun id => ((commits.parents id).filter (· ∈ new)).dedup)
    (orderKey commits) fun key => (ofLex (OrderDual.ofDual key)).2

/-! ## The trees -/

/-- Where a child sits in its parent node. -/
inductive Slot where
  | key (k : String)
  | index (i : ℕ)
  /-- A set's members have no path. -/
  | member
deriving DecidableEq

def slots : Object Id → List (Slot × Id)
  | .atom _ => []
  | .node (.map entries) => entries.toList.map fun e => (.key e.1, e.2)
  | .node (.list items) =>
      items.zipIdx.map fun e => (.index e.2, e.1)
  | .node (.set items) => items.map fun id => (.member, id)

def childAt : Object Id → Slot → Option Id
  | .node (.map entries), .key k => entries[k]?
  | .node (.list items), .index i => items[i]?
  | _, _ => none

/-- The nodes of one level still to send, each with the nodes at its path in
the trees the remote has. -/
abbrev Level (Id : Type) := List (Id × List Id)

/-- What is sent, the objects to send in order, and the next level. -/
structure TreeWalk (Id : Type) where
  sent : List Id
  out : List Id
  next : Level Id

/-- One child of a node to send. -/
def diffChild (bases : List (Object Id)) (t : TreeWalk Id)
    (entry : Slot × Id) : TreeWalk Id :=
  if entry.2 ∈ bases.flatMap (fun b => (slots b).map Prod.snd) then t
  else if entry.2 ∈ t.sent then t
  else { t with
    sent := entry.2 :: t.sent
    next := t.next ++
      [(entry.2, bases.filterMap fun b => childAt b entry.1)] }

/-- One node to send. -/
def diffNode (store : ObjectStore Id) (t : TreeWalk Id)
    (node : Id × List Id) : Except StorageError (TreeWalk Id) :=
  match store.get node.1 with
  | none => .error (.objectNotFound (displayId node.1))
  | some object =>
      .ok ((slots object).foldl (diffChild (node.2.filterMap store.get))
        { t with out := t.out ++ [node.1] })

/-- `while !level.is_empty()`. -/
def diffLevels (store : ObjectStore Id) :
    ℕ → TreeWalk Id → Except StorageError (TreeWalk Id)
  | 0, t => .ok t
  | n + 1, t =>
      if t.next.isEmpty then .ok t
      else do
        let t ← t.next.foldlM (diffNode store) { t with next := [] }
        diffLevels store n t

/-- Append the objects of the tree at `root` that neither `sent` nor the trees
at `bases` account for; `false` if the root itself is gone.  A level's nodes
are below those of the level before, which bounds the levels. -/
def diffTree (store : ObjectStore Id) (root : Id) (bases sent out : List Id) :
    Except StorageError (Bool × List Id × List Id) :=
  if root ∈ sent ∨ root ∈ bases then .ok (true, sent, out)
  else if (store.get root).isNone then .ok (false, sent, out)
  else do
    let t ← diffLevels store (Digest.rank root + 1)
      ⟨root :: sent, out, [(root, bases)]⟩
    .ok (true, t.sent, t.out)

/-- What is sent, the objects in order, and the commits without a tree. -/
abbrev Sending (Id : Type) := List Id × List Id × List Id

/-- Trees the remote has, or gets with this send. -/
def basesOf (store : Storage Id) (w : Walk Id) (new : List Id) (id : Id) :
    List Id :=
  ((store.commits.parents id).filter fun p =>
    decide (p ∈ new) || (w.marks p).remoteHas).filterMap store.rootOf

/-- The tree of one new commit. -/
def sendTree (store : Storage Id) (w : Walk Id) (new : List Id)
    (s : Sending Id) (id : Id) : Except StorageError (Sending Id) :=
  match store.getCommit id with
  | none => .error (.commitNotFound (displayId id))
  | some c => do
      let (found, sent, out) ← diffTree store.objects c.stateRoot
        (basesOf store w new id) s.1 s.2.1
      .ok (sent, out, if found then s.2.2 else s.2.2 ++ [id])

/-- The commits and objects a remote lacks to take `heads`, given commits it
has and commits to send without their parents. -/
def missingSet (store : Storage Id) (heads haves shallow : List Id) :
    Except StorageError (MissingSet Id) := do
  let w ← Walk.fromHeads store.commits heads haves shallow
  let new := w.newCommits
  let commits := parentsFirst store.commits new
  let (_, objects, pruned) ←
    commits.foldlM (sendTree store w new) ([], [], [])
  .ok {
    commits := commits
    objects := objects
    shallow := commits.filter fun id =>
      decide (id ∈ shallow) || decide (id ∈ w.lacksParent)
    pruned := pruned }

end Missing

end AgentStateGraph
