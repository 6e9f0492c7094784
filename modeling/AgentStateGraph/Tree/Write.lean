import AgentStateGraph.Core.Path
import AgentStateGraph.Storage.Objects

/-!
# Reading and writing state trees by path

A state tree is a Merkle DAG of objects.  A write rebuilds the objects along
its path from the leaf to the root and leaves every other subtree as it was,
by id.
-/

namespace AgentStateGraph

open AddressedMap

variable {Id : Type} [Digest Id]

inductive TreeError (Id : Type) where
  | objectNotFound (id : Id)
  | pathNotFound (path : String)
  | indexOutOfBounds (index length : ℕ)
  | typeMismatch (path expected found : String)
  | cannotNavigateAtom (path : String)
deriving DecidableEq

/-- `PathError`'s `Display`. -/
def PathError.toString : PathError → String
  | .mustStartWithSlash => "path must start with '/'"
  | .emptySegment => "path contains an empty segment"
  | .tooDeep depth =>
      "path is too deep: " ++ Nat.repr depth ++ " components (max " ++
        Nat.repr MAX_PATH_DEPTH ++ ")"
  | .segmentTooLong index len =>
      "path segment at index " ++ Nat.repr index ++ " is too long: " ++
        Nat.repr len ++ " bytes (max " ++ Nat.repr MAX_SEGMENT_LEN ++ ")"

/-- `StatePath::parse(path).map_err(|e| TreeError::PathNotFound(..))`, as
every caller writes it. -/
def parsePath (path : String) : Except (TreeError Id) StatePath :=
  match StatePath.parse path with
  | .ok p => .ok p
  | .error e => .error (.pathNotFound e.toString)

/-- `get_object(id)?.ok_or(ObjectNotFound(id))`. -/
def ObjectStore.require (store : ObjectStore Id) (id : Id) :
    Except (TreeError Id) (Object Id) :=
  match store.get id with
  | some o => .ok o
  | none => .error (.objectNotFound id)

/-! ## Reading -/

/-- The id a path component names in an object: a key into a map, an index
into a list, nothing else. -/
def childIdAt (o : Object Id) (component : PathComponent) : Option Id :=
  match o, component with
  | .node (.map entries), .key key => entries[key]?
  | .node (.list items), .index idx => items[idx]?
  | _, _ => none

def navigate (store : ObjectStore Id) (path : StatePath) (current : Object Id)
    (component : PathComponent) : Except (TreeError Id) (Object Id) :=
  match current, component with
  | .node (.map entries), .key key =>
      match entries[key]? with
      | some childId => store.require childId
      | none => .error (.pathNotFound path.toString)
  | .node (.list items), .index idx =>
      match items[idx]? with
      | some childId => store.require childId
      | none => .error (.indexOutOfBounds idx items.length)
  | .node (.map _), .index _ =>
      .error (.typeMismatch path.toString "list" "map")
  | .node (.list _), .key _ =>
      .error (.typeMismatch path.toString "map" "list")
  | .atom _, _ => .error (.cannotNavigateAtom path.toString)
  | .node (.set _), _ => .error (.pathNotFound path.toString)

def treeGet (store : ObjectStore Id) (root : Id) (path : StatePath) :
    Except (TreeError Id) (Object Id) := do
  let rootObj ← store.require root
  path.components.foldlM (navigate store path) rootObj

/-! ## Writing -/

def atomKind : Atom → String
  | .null => "null"
  | .bool _ => "boolean"
  | .int _ | .uint _ | .float _ => "number"
  | .string _ => "string"
  | .bytes _ => "bytes"

/-- The child a write goes on in: the one at the key, or an empty map where
the path does not exist yet. -/
def childForSet (store : ObjectStore Id) (entries : BTreeMap String Id)
    (key : String) : Except (TreeError Id) (Object Id) :=
  match entries[key]? with
  | some childId => store.require childId
  | none => .ok Object.emptyMap

/-- Rebuild the objects along the path from the leaf upwards.  Every object
is stored after the recursion below it succeeded, so an error has stored
nothing. -/
def setRecursive (store : ObjectStore Id) (valueId : Id) :
    List PathComponent → ℕ → Object Id →
      Except (TreeError Id) (Object Id × ObjectStore Id)
  | [], _, _ => do
      let value ← store.require valueId
      .ok (value, store)
  | .key key :: rest, depth, .node (.map entries) =>
      if rest.isEmpty then
        .ok (Object.map (entries.insert key valueId), store)
      else do
        let child ← childForSet store entries key
        let (newChild, store') ← setRecursive store valueId rest (depth + 1) child
        .ok (Object.map (entries.insert key newChild.id), store'.put newChild)
  | .index idx :: rest, depth, .node (.list items) =>
      match items[idx]? with
      | none => .error (.indexOutOfBounds idx items.length)
      | some childId =>
          if rest.isEmpty then
            .ok (Object.list (items.set idx valueId), store)
          else do
            let child ← store.require childId
            let (newChild, store') ←
              setRecursive store valueId rest (depth + 1) child
            .ok (Object.list (items.set idx newChild.id), store'.put newChild)
  | .key key :: rest, depth, .atom .null =>
      if rest.isEmpty then
        .ok (Object.map ((∅ : BTreeMap String Id).insert key valueId), store)
      else do
        let (newChild, store') ←
          setRecursive store valueId rest (depth + 1) Object.emptyMap
        .ok (Object.map ((∅ : BTreeMap String Id).insert key newChild.id),
          store'.put newChild)
  | _ :: _, depth, .atom a =>
      .error (.typeMismatch ("at depth " ++ Nat.repr depth) "map or list"
        ("a " ++ atomKind a ++ " value"))
  | _ :: _, depth, .node _ =>
      .error (.typeMismatch ("at depth " ++ Nat.repr depth) "map or list"
        "incompatible type")

theorem setRecursive_nil (store : ObjectStore Id) (valueId : Id) (depth : ℕ)
    (current : Object Id) :
    setRecursive store valueId [] depth current =
      (do
        let value ← store.require valueId
        .ok (value, store)) := by
  simp only [setRecursive]

/-- Set a value at a path, with the store it leaves: on an error below the
root the value itself has been stored. -/
def treeSet (store : ObjectStore Id) (root : Id) (path : StatePath)
    (value : Object Id) : Except (TreeError Id) Id × ObjectStore Id :=
  let stored : ObjectStore Id := store.put value
  if path.isRoot then (.ok value.id, stored)
  else
    match (do
      let rootObj ← stored.require root
      setRecursive stored value.id path.components 0 rootObj) with
    | .error e => (.error e, stored)
    | .ok (newRoot, store') => (.ok newRoot.id, store'.put newRoot)

def deleteRecursive (store : ObjectStore Id) :
    List PathComponent → ℕ → Object Id →
      Except (TreeError Id) (Object Id × ObjectStore Id)
  | .key key :: rest, depth, .node (.map entries) =>
      match entries[key]? with
      | none => .error (.pathNotFound ("key '" ++ key ++ "' not found"))
      | some childId =>
          if rest.isEmpty then
            .ok (Object.map (entries.erase key), store)
          else do
            let child ← store.require childId
            let (newChild, store') ← deleteRecursive store rest (depth + 1) child
            .ok (Object.map (entries.insert key newChild.id),
              store'.put newChild)
  | .index idx :: rest, depth, .node (.list items) =>
      match items[idx]? with
      | none => .error (.indexOutOfBounds idx items.length)
      | some childId =>
          if rest.isEmpty then
            .ok (Object.list (items.eraseIdx idx), store)
          else do
            let child ← store.require childId
            let (newChild, store') ← deleteRecursive store rest (depth + 1) child
            .ok (Object.list (items.set idx newChild.id), store'.put newChild)
  | _, depth, _ =>
      .error (.pathNotFound ("cannot navigate at depth " ++ Nat.repr depth))

theorem deleteRecursive_nil (store : ObjectStore Id) (depth : ℕ)
    (current : Object Id) :
    deleteRecursive store [] depth current =
      .error (.pathNotFound ("cannot navigate at depth " ++ Nat.repr depth)) := by
  simp only [deleteRecursive]

def treeDelete (store : ObjectStore Id) (root : Id) (path : StatePath) :
    Except (TreeError Id) Id × ObjectStore Id :=
  if path.isRoot then
    (.ok (Object.emptyMap : Object Id).id, store.put Object.emptyMap)
  else
    match (do
      let rootObj ← store.require root
      deleteRecursive store path.components 0 rootObj) with
    | .error e => (.error e, store)
    | .ok (newRoot, store') => (.ok newRoot.id, store'.put newRoot)

end AgentStateGraph
