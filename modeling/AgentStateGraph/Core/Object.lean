import Mathlib

/-!
# Content-addressed objects

The unit of state storage is an `Object`: an atom, or a container whose
children are named by their object ids.  Ids stay abstract here; the digest
that computes them is the subject of `AgentStateGraph.Core.Digest`.

Floating-point atoms carry their bit pattern.  The derived `PartialEq` of the
source compares them as IEEE values, so two objects can compare equal and
still be different objects: the two zeros.  `Object.partialEq` keeps that
comparison apart from equality.
-/

namespace AgentStateGraph

/-- `BTreeMap<K, V>`: a finite map that iterates in key order. -/
abbrev BTreeMap (α β : Type) [Ord α] := Std.ExtTreeMap α β compare

/-! ## IEEE doubles by bit pattern -/

/-- An `f64`, as its bits. -/
structure F64 where
  bits : UInt64
deriving DecidableEq

namespace F64

/-- The bits below the sign. -/
def magnitude (x : F64) : ℕ := x.bits.toNat % 2 ^ 63

/-- Exponent all ones: an infinity or a NaN. -/
def isFinite (x : F64) : Bool := x.magnitude < 0x7FF0000000000000

def isNaN (x : F64) : Bool := 0x7FF0000000000000 < x.magnitude

/-- The numeric order of two doubles that are not NaN is that of their
signed magnitudes. -/
def signed (x : F64) : ℤ :=
  if x.bits.toNat < 2 ^ 63 then x.magnitude else -(x.magnitude : ℤ)

/-- `f64::eq`. -/
def eq (x y : F64) : Bool := !x.isNaN && !y.isNaN && x.signed == y.signed

/-- `f64::lt`. -/
def lt (x y : F64) : Bool := !x.isNaN && !y.isNaN && x.signed < y.signed

def zero : F64 := ⟨0⟩

def negZero : F64 := ⟨0x8000000000000000⟩

def one : F64 := ⟨0x3FF0000000000000⟩

/-- `f64::clamp(0.0, 1.0)`. -/
def clampUnit (x : F64) : F64 :=
  if x.lt zero then zero else if one.lt x then one else x

theorem eq_symm (x y : F64) : x.eq y = y.eq x := by
  simp only [eq]
  rw [Bool.and_comm (!x.isNaN), Bool.beq_comm]

end F64

/-! ## Atoms, nodes and objects -/

/-- A leaf value in the state tree. -/
inductive Atom where
  | null
  | bool (b : Bool)
  | int (i : Int64)
  | float (f : F64)
  | string (s : String)
  | bytes (b : List UInt8)
  | uint (u : UInt64)
deriving DecidableEq

/-- A container value in the state tree. -/
inductive Node (Id : Type) where
  | map (entries : BTreeMap String Id)
  | list (items : List Id)
  | set (items : List Id)
deriving DecidableEq

/-- An object is a leaf or a container. -/
inductive Object (Id : Type) where
  | atom (a : Atom)
  | node (n : Node Id)
deriving DecidableEq

/-- Derived `PartialEq` of `Atom`: floats compare as numbers. -/
def Atom.partialEq : Atom → Atom → Bool
  | .float x, .float y => x.eq y
  | a, b => a == b

namespace Object

variable {Id : Type}

def emptyMap : Object Id := .node (.map ∅)

def map (entries : BTreeMap String Id) : Object Id := .node (.map entries)

def list (items : List Id) : Object Id := .node (.list items)

/-- The set constructor sorts its members and drops repeats. -/
def set [LinearOrder Id] (items : List Id) : Object Id :=
  .node (.set (items.insertionSort (· ≤ ·)).dedup)

def string (s : String) : Object Id := .atom (.string s)

/-- The ids a node points at, in order; none for an atom. -/
def childIds : Object Id → List Id
  | .atom _ => []
  | .node (.map entries) => entries.toList.map Prod.snd
  | .node (.list items) => items
  | .node (.set items) => items

/-- Derived `PartialEq` of `Object`: containers compare by their children's
ids, atoms by `Atom.partialEq`. -/
def partialEq [DecidableEq Id] : Object Id → Object Id → Bool
  | .atom a, .atom b => a.partialEq b
  | .node m, .node n => m == n
  | _, _ => false

/-- The entries of a map node; empty for anything else. -/
def mapEntries : Object Id → BTreeMap String Id
  | .node (.map entries) => entries
  | _ => ∅

@[simp] theorem mapEntries_map (entries : BTreeMap String Id) :
    (map entries).mapEntries = entries := rfl

@[simp] theorem mapEntries_emptyMap :
    (emptyMap : Object Id).mapEntries = ∅ := rfl

theorem mem_childIds_of_getElem? {entries : BTreeMap String Id}
    {key : String} {id : Id} (h : entries[key]? = some id) :
    id ∈ (Object.node (.map entries)).childIds := by
  simp only [childIds]
  exact List.mem_map.mpr
    ⟨(key, id), Std.ExtTreeMap.mem_toList_iff_getElem?_eq_some.mpr h, rfl⟩

theorem exists_getElem?_of_mem_childIds {entries : BTreeMap String Id}
    {id : Id} (h : id ∈ (Object.node (.map entries)).childIds) :
    ∃ key : String, entries[key]? = some id := by
  simp only [childIds] at h
  obtain ⟨⟨key, v⟩, hmem, rfl⟩ := List.mem_map.mp h
  exact ⟨key, Std.ExtTreeMap.mem_toList_iff_getElem?_eq_some.mp hmem⟩

end Object

end AgentStateGraph
