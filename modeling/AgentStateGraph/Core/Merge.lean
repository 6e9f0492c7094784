import AgentStateGraph.Storage.Objects

/-!
# Three-way merge

The merge walks three trees at once.  It reports conflicts, lists the nodes it
made that no store holds yet, and notes the first id it could not resolve.  It
only ever appends to these, so each function here returns the log of its own
part and the caller concatenates.
-/

namespace AgentStateGraph

variable {Id : Type} [Digest Id]

/-- Simplified value representation for conflict reporting. -/
inductive ConflictValue where
  | null
  | bool (b : Bool)
  | int (i : Int64)
  | uint (u : UInt64)
  | float (f : F64)
  | string (s : String)
  | complex (s : String)
deriving DecidableEq

def ConflictValue.ofObject : Object Id → ConflictValue
  | .atom .null => .null
  | .atom (.bool b) => .bool b
  | .atom (.int i) => .int i
  | .atom (.uint u) => .uint u
  | .atom (.float f) => .float f
  | .atom (.string s) => .string s
  | .atom (.bytes _) => .string "[bytes]"
  | .node (.map m) => .complex ("\x7bmap: " ++ Nat.repr m.size ++ " keys\x7d")
  | .node (.list l) => .complex ("[list: " ++ Nat.repr l.length ++ " items]")
  | .node (.set s) =>
      .complex ("\x7bset: " ++ Nat.repr s.length ++ " items\x7d")

/-- A merge conflict at a specific path. -/
structure Conflict where
  path : String
  ours : Option ConflictValue
  theirs : Option ConflictValue
  base : Option ConflictValue
  suggestedResolution : Option ConflictValue
deriving DecidableEq

inductive MergeResult (Id : Type) where
  | success (merged : Object Id)
  | conflicts (merged : Object Id) (conflicts : List Conflict)
  | fastForward (id : Id)
deriving DecidableEq

/-! ## The log of a merge -/

/-- What a part of the merge appended: conflicts, new nodes, and the ids it
asked for and did not find, in order. -/
structure MergeLog (Id : Type) where
  conflicts : List Conflict
  created : List (Object Id)
  missing : List Id

namespace MergeLog

def empty : MergeLog Id := ⟨[], [], []⟩

def append (a b : MergeLog Id) : MergeLog Id :=
  ⟨a.conflicts ++ b.conflicts, a.created ++ b.created, a.missing ++ b.missing⟩

/-- The logs of several parts, one after another. -/
def concat (logs : List (MergeLog Id)) : MergeLog Id :=
  ⟨logs.flatMap conflicts, logs.flatMap created, logs.flatMap missing⟩

def conflict (c : Conflict) : MergeLog Id := ⟨[c], [], []⟩

def create (o : Object Id) : MergeLog Id := ⟨[], [o], []⟩

/-- The ids among `ids` that the resolver does not find. -/
def asked (store : ObjectStore Id) (ids : List Id) : MergeLog Id :=
  ⟨[], [], ids.filter fun id => (store.get id).isNone⟩

end MergeLog

/-! ## Merging objects -/

def childPath (path key : String) : String :=
  path ++ (if path = "/" then "" else "/") ++ key

/-- A conflict over three objects, all present. -/
def objectConflict (path : String) (base ours theirs : Object Id) : Conflict where
  path := path
  ours := some (ConflictValue.ofObject ours)
  theirs := some (ConflictValue.ofObject theirs)
  base := some (ConflictValue.ofObject base)
  suggestedResolution := none

/-- The conflict over a key that is missing on some side. -/
def keyConflict (store : ObjectStore Id) (path : String)
    (base ours theirs : Option Id) : Conflict where
  path := path
  ours := (ours.bind store.get).map ConflictValue.ofObject
  theirs := (theirs.bind store.get).map ConflictValue.ofObject
  base := (base.bind store.get).map ConflictValue.ofObject
  suggestedResolution := none

/-- A merge of three objects at a path: the shape of the recursive call. -/
abbrev MergeFn (Id : Type) :=
  String → Object Id → Object Id → Object Id → Object Id × MergeLog Id

/-- A key all three sides have, with three different ids. -/
def mergeChanged (store : ObjectStore Id) (merge : MergeFn Id) (path : String)
    (b o t : Id) : Option Id × MergeLog Id :=
  match store.get b, store.get o, store.get t with
  | some bo, some oo, some th =>
      let (merged, log) := merge path bo oo th
      (some merged.id, log)
  | _, _, _ =>
      (some o, (MergeLog.asked store [b, o, t]).append
        (.conflict ⟨path, none, none, none, none⟩))

/-- A key both sides added, with different ids: two maps are merged against an
empty base. -/
def mergeAdded (store : ObjectStore Id) (merge : MergeFn Id) (path : String)
    (o t : Id) : Option Id × MergeLog Id :=
  match store.get o, store.get t with
  | some (.node (.map oe)), some (.node (.map te)) =>
      let (merged, log) :=
        merge path Object.emptyMap (Object.map oe) (Object.map te)
      (some merged.id, log)
  | _, _ =>
      (some o, (MergeLog.asked store [o, t]).append
        (.conflict (keyConflict store path none (some o) (some t))))

/-- What becomes of one key: the id it holds in the result, if any. -/
def mergeKey (store : ObjectStore Id) (merge : MergeFn Id) (path : String) :
    Option Id → Option Id → Option Id → Option Id × MergeLog Id
  | some b, some o, some t =>
      if o = t then (some o, .empty)
      else if b = o then (some t, .empty)
      else if b = t then (some o, .empty)
      else mergeChanged store merge path b o t
  | none, some o, none => (some o, .empty)
  | none, none, some t => (some t, .empty)
  | none, some o, some t =>
      if o = t then (some o, .empty) else mergeAdded store merge path o t
  | some b, none, some t =>
      if b = t then (none, .empty)
      else
        (none, (MergeLog.asked store [t, b]).append
          (.conflict (keyConflict store path (some b) none (some t))))
  | some b, some o, none =>
      if b = o then (none, .empty)
      else
        (some o, (MergeLog.asked store [o, b]).append
          (.conflict (keyConflict store path (some b) (some o) none)))
  | some _, none, none => (none, .empty)
  | none, none, none => (none, .empty)

def mergeMaps (store : ObjectStore Id) (merge : MergeFn Id) (path : String)
    (base ours theirs : BTreeMap String Id) : Object Id × MergeLog Id :=
  let keys := KeyedMap.allKeys [base, ours, theirs]
  let atKey := fun key =>
    mergeKey store merge (childPath path key) base[key]? ours[key]? theirs[key]?
  let merged := Object.map (KeyedMap.ofKeys keys fun key => (atKey key).1)
  (merged, (MergeLog.concat (keys.map fun key => (atKey key).2)).append
    (.create merged))

def mergeLists (path : String) (base ours theirs : List Id) :
    Object Id × MergeLog Id :=
  let merged := Object.list ours
  if ours = theirs then (merged, .create merged)
  else
    (merged, (MergeLog.conflict (objectConflict path (Object.list base)
      (Object.list ours) (Object.list theirs))).append (.create merged))

def mergeSets (ours theirs : List Id) : Object Id × MergeLog Id :=
  let merged :=
    Object.set (Std.ExtTreeSet.ofList (ours ++ theirs) compare).toList
  (merged, .create merged)

/-- The recursive merge.  Every call goes one level down, so the fuel bounds
the depth; `mergeObjects_fuel` shows that the rank of `ours` is enough. -/
def mergeObjects (store : ObjectStore Id) : ℕ → MergeFn Id
  | 0, _, _, ours, _ => (ours, .empty)
  | fuel + 1, path, base, ours, theirs =>
      if ours.partialEq theirs then (ours, .empty)
      else if base.partialEq ours then (theirs, .empty)
      else if base.partialEq theirs then (ours, .empty)
      else
        match base, ours, theirs with
        | .node (.map b), .node (.map o), .node (.map t) =>
            mergeMaps store (mergeObjects store fuel) path b o t
        | .node (.list b), .node (.list o), .node (.list t) =>
            mergeLists path b o t
        | .node (.set _), .node (.set o), .node (.set t) => mergeSets o t
        | _, _, _ =>
            (ours, .conflict (objectConflict path base ours theirs))

def threeWayMergeCollect (store : ObjectStore Id) (base ours theirs : Id) :
    MergeResult Id × MergeLog Id :=
  if base = ours then (.fastForward theirs, .empty)
  else if base = theirs then (.fastForward ours, .empty)
  else if ours = theirs then (.fastForward ours, .empty)
  else
    match store.get base, store.get ours, store.get theirs with
    | none, _, _ => (.fastForward theirs, .asked store [base])
    | some _, none, _ => (.fastForward theirs, .asked store [ours])
    | some _, some _, none => (.fastForward ours, .asked store [theirs])
    | some bo, some oo, some th =>
        let (merged, log) :=
          mergeObjects store (Digest.rank ours + 1) "/" bo oo th
        (if log.conflicts = [] then .success merged
          else .conflicts merged log.conflicts, log)

/-- An object the merge needs and cannot resolve is an error carrying the
first such id. -/
def tryThreeWayMergeCollect (store : ObjectStore Id) (base ours theirs : Id) :
    Except Id (MergeResult Id × List (Object Id)) :=
  let (result, log) := threeWayMergeCollect store base ours theirs
  match log.missing with
  | id :: _ => .error id
  | [] => .ok (result, log.created)

end AgentStateGraph
