import AgentStateGraph.Core.Path
import AgentStateGraph.Storage.Objects

/-!
# Structured diff

The changes that lead from one state tree to another, each at its path.  The
comparison of two objects is the derived one, so two float zeros of different
sign are no change.
-/

namespace AgentStateGraph

variable {Id : Type} [Digest Id]

/-- A value in a diff; a container is only summarized. -/
inductive DiffValue where
  | null
  | bool (b : Bool)
  | int (i : Int64)
  | uint (u : UInt64)
  | float (f : F64)
  | string (s : String)
  | bytes (b : List UInt8)
  | complex (s : String)
deriving DecidableEq

def DiffValue.ofAtom : Atom → DiffValue
  | .null => .null
  | .bool b => .bool b
  | .int i => .int i
  | .uint u => .uint u
  | .float f => .float f
  | .string s => .string s
  | .bytes b => .bytes b

def DiffValue.ofNode : Node Id → DiffValue
  | .map m => .complex ("\x7bmap: " ++ Nat.repr m.size ++ " keys\x7d")
  | .list l => .complex ("[list: " ++ Nat.repr l.length ++ " items]")
  | .set s => .complex ("\x7bset: " ++ Nat.repr s.length ++ " items\x7d")

def DiffValue.ofObject : Object Id → DiffValue
  | .atom a => .ofAtom a
  | .node n => .ofNode n

/-- The value behind an id; an id that does not resolve shows as null. -/
def DiffValue.ofId (store : ObjectStore Id) (id : Id) : DiffValue :=
  match store.get id with
  | some o => .ofObject o
  | none => .null

/-- A single change. -/
inductive DiffOp where
  | setValue (path : String) (old new : DiffValue)
  | addKey (path key : String) (value : DiffValue)
  | removeKey (path key : String) (oldValue : DiffValue)
  | addElement (path : String) (index : ℕ) (value : DiffValue)
  | removeElement (path : String) (index : ℕ) (oldValue : DiffValue)
  | addToSet (path : String) (value : DiffValue)
  | removeFromSet (path : String) (oldValue : DiffValue)
  | changeType (path oldType newType : String)
deriving DecidableEq

def typeName : Object Id → String
  | .atom .null => "null"
  | .atom (.bool _) => "bool"
  | .atom (.int _) | .atom (.uint _) => "int"
  | .atom (.float _) => "float"
  | .atom (.string _) => "string"
  | .atom (.bytes _) => "bytes"
  | .node (.map _) => "map"
  | .node (.list _) => "list"
  | .node (.set _) => "set"

def StatePath.pushKey (p : StatePath) (key : String) : StatePath :=
  ⟨p.components ++ [.key key]⟩

def StatePath.pushIndex (p : StatePath) (i : ℕ) : StatePath :=
  ⟨p.components ++ [.index i]⟩

/-- The shape of the recursive call. -/
abbrev DiffFn (Id : Type) := StatePath → Object Id → Object Id → List DiffOp

/-- Two ids at one place: nothing where they are equal. -/
def diffIds (store : ObjectStore Id) (diff : DiffFn Id) (path : StatePath)
    (old new : Id) : List DiffOp :=
  if old = new then []
  else
    match store.get old, store.get new with
    | some o, some n => diff path o n
    | _, _ => [.setValue path.toString .null .null]

def diffMaps (store : ObjectStore Id) (diff : DiffFn Id) (path : StatePath)
    (old new : BTreeMap String Id) : List DiffOp :=
  (old.toList.filter (fun e => e.1 ∉ new)).map
      (fun e => .removeKey path.toString e.1 (.ofId store e.2)) ++
    (new.toList.filter (fun e => e.1 ∉ old)).map
      (fun e => .addKey path.toString e.1 (.ofId store e.2)) ++
    old.toList.flatMap fun e =>
      match new[e.1]? with
      | some n => diffIds store diff (path.pushKey e.1) e.2 n
      | none => []

def diffLists (store : ObjectStore Id) (diff : DiffFn Id) (path : StatePath)
    (old new : List Id) : List DiffOp :=
  (List.range (max old.length new.length)).flatMap fun i =>
    match old[i]?, new[i]? with
    | some o, some n => diffIds store diff (path.pushIndex i) o n
    | none, some n => [.addElement path.toString i (.ofId store n)]
    | some o, none => [.removeElement path.toString i (.ofId store o)]
    | none, none => []

def diffSets (store : ObjectStore Id) (path : StatePath) (old new : List Id) :
    List DiffOp :=
  let oldSet := (Std.ExtTreeSet.ofList old compare).toList
  let newSet := (Std.ExtTreeSet.ofList new compare).toList
  (oldSet.filter (· ∉ newSet)).map
      (fun id => .removeFromSet path.toString (.ofId store id)) ++
    (newSet.filter (· ∉ oldSet)).map
      fun id => .addToSet path.toString (.ofId store id)

/-- The recursive diff; the fuel bounds the depth. -/
def diffObjects (store : ObjectStore Id) : ℕ → DiffFn Id
  | 0, _, _, _ => []
  | fuel + 1, path, old, new =>
      if old.partialEq new then []
      else
        match old, new with
        | .atom a, .atom b => [.setValue path.toString (.ofAtom a) (.ofAtom b)]
        | .node (.map o), .node (.map n) =>
            diffMaps store (diffObjects store fuel) path o n
        | .node (.list o), .node (.list n) =>
            diffLists store (diffObjects store fuel) path o n
        | .node (.set o), .node (.set n) => diffSets store path o n
        | _, _ => [.changeType path.toString (typeName old) (typeName new)]

/-- The changes from one root to another.  A root that does not resolve shows
as no change. -/
def diff (store : ObjectStore Id) (oldRoot newRoot : Id) : List DiffOp :=
  if oldRoot = newRoot then []
  else
    match store.get oldRoot, store.get newRoot with
    | some old, some new =>
        diffObjects store (Digest.rank oldRoot + 1) StatePath.root old new
    | _, _ => []

end AgentStateGraph
