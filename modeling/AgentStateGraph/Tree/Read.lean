import AgentStateGraph.Tree.Json
import AgentStateGraph.Tree.Lookup

/-!
# Reading state trees out

The user-facing reads of a state tree: as JSON, whole or down to a depth; the
objects at several paths at once; the list of leaf paths; a search over keys
and leaf values.  The listings stop at a depth and at a number of results.

The source fetches a subtree level by level before it walks it.  That decides
how many storage calls a read makes and nothing of what it returns.
-/

namespace AgentStateGraph

variable {Id : Type} [Digest Id]

/-! ## Atoms as JSON -/

def BASE64_CHARS : List Char :=
  "ABCDEFGHIJKLMNOPQRSTUVWXYZabcdefghijklmnopqrstuvwxyz0123456789+/".toList

/-- The character for the low six bits. -/
def base64Char (n : ℕ) : Char := BASE64_CHARS.getD (n % 64) 'A'

/-- The four characters of three bytes. -/
def base64Triple (b0 b1 b2 : UInt8) : List Char :=
  let triple := b0.toNat * 2 ^ 16 + b1.toNat * 2 ^ 8 + b2.toNat
  [base64Char (triple / 2 ^ 18), base64Char (triple / 2 ^ 12),
    base64Char (triple / 2 ^ 6), base64Char triple]

def base64Encode : List UInt8 → List Char
  | [] => []
  | [b0] => (base64Triple b0 0 0).take 2 ++ ['=', '=']
  | [b0, b1] => (base64Triple b0 b1 0).take 3 ++ ['=']
  | b0 :: b1 :: b2 :: rest => base64Triple b0 b1 b2 ++ base64Encode rest

def atomToJson : Atom → Json
  | .null => .null
  | .bool b => .bool b
  | .int i => .number (if i < 0 then .negInt i else .posInt i.toUInt64)
  | .uint u => .number (.posInt u)
  | .float f => if f.isFinite then .number (.float f) else .null
  | .string s => .string s
  | .bytes b => .string ("base64:" ++ String.ofList (base64Encode b))

/-! ## Subtrees as JSON -/

/-- The labelled children of a container, each read and converted in turn. -/
def entriesToJson (store : ObjectStore Id)
    (toJson : Object Id → Except (TreeError Id) Json)
    (entries : List (String × Id)) :
    Except (TreeError Id) (List (String × Json)) :=
  entries.mapM fun e => do
    let child ← store.require e.2
    let value ← toJson child
    .ok (e.1, value)

def itemsToJson (store : ObjectStore Id)
    (toJson : Object Id → Except (TreeError Id) Json) (items : List Id) :
    Except (TreeError Id) (List Json) :=
  items.mapM fun id => do
    let child ← store.require id
    toJson child

/-- The recursion goes down a level at each call; the rank of the object is
fuel enough (`toJson_fuel`). -/
def toJson (store : ObjectStore Id) : ℕ → Object Id → Except (TreeError Id) Json
  | 0, _ => .ok .null
  | fuel + 1, obj =>
      match obj with
      | .atom a => .ok (atomToJson a)
      | .node (.map entries) => do
          let values ← entriesToJson store (toJson store fuel) entries.toList
          .ok (.object values)
      | .node (.list items) | .node (.set items) => do
          let values ← itemsToJson store (toJson store fuel) items
          .ok (.array values)

/-- A container, its children read and converted. -/
def nodeToJson (store : ObjectStore Id)
    (toJson : Object Id → Except (TreeError Id) Json) :
    Node Id → Except (TreeError Id) Json
  | .map entries => do
      let values ← entriesToJson store toJson entries.toList
      .ok (.object values)
  | .list items | .set items => do
      let values ← itemsToJson store toJson items
      .ok (.array values)

theorem toJson_node (store : ObjectStore Id) (fuel : ℕ) (n : Node Id) :
    toJson store (fuel + 1) (.node n) =
      nodeToJson store (toJson store fuel) n := by
  cases n <;> rfl

/-- Only what the children convert to matters. -/
theorem nodeToJson_congr {s t : ObjectStore Id}
    {f g : Object Id → Except (TreeError Id) Json} {n : Node Id}
    (h : ∀ id ∈ (Object.node n).childIds,
      (s.require id).bind f = (t.require id).bind g) :
    nodeToJson s f n = nodeToJson t g n := by
  have hitems : ∀ items : List Id,
      (∀ id ∈ items, id ∈ (Object.node n).childIds) →
      itemsToJson s f items = itemsToJson t g items := by
    intro items hmem
    exact Except.mapM_congr fun id hid => h id (hmem id hid)
  match n with
  | .list items | .set items =>
      simp only [nodeToJson, hitems items fun id hid => hid]
  | .map entries =>
      have hentries : entriesToJson s f entries.toList =
          entriesToJson t g entries.toList := by
        refine Except.mapM_congr fun e he => ?_
        have hchild := h e.2 (List.mem_map_of_mem he)
        have hpair := congrArg (fun r => r >>= fun v => Except.ok (e.1, v)) hchild
        exact (bind_assoc _ _ _).symm.trans (hpair.trans (bind_assoc _ _ _))
      simp only [nodeToJson, hentries]

theorem toJson_fuel (store : ObjectStore Id) {m n : ℕ} {o : Object Id}
    (hm : Digest.rank o.id < m) (hn : Digest.rank o.id < n) :
    toJson store m o = toJson store n o := by
  induction m generalizing n o with
  | zero => exact absurd hm (Nat.not_lt_zero _)
  | succ m ih =>
      cases n with
      | zero => exact absurd hn (Nat.not_lt_zero _)
      | succ n =>
          cases o with
          | atom a => rfl
          | node node =>
              rw [toJson_node, toJson_node]
              refine nodeToJson_congr fun id hid => ?_
              have hrank := Object.rank_lt_of_mem_childIds hid
              cases hc : store.require id with
              | error e => rfl
              | ok c =>
                  rw [← ObjectStore.id_eq_of_get (require_eq_ok_iff.mp hc)]
                    at hrank
                  exact ih (by omega) (by omega)

theorem toJson_mono {s t : ObjectStore Id} (hle : s ≤ t) {fuel : ℕ}
    {o : Object Id} {value : Json} (h : toJson s fuel o = .ok value) :
    toJson t fuel o = .ok value := by
  induction fuel generalizing o value with
  | zero => exact h
  | succ fuel ih =>
      have hitems : ∀ items values,
          itemsToJson s (toJson s fuel) items = .ok values →
          itemsToJson t (toJson t fuel) items = .ok values := by
        intro items values hvalues
        refine Except.mapM_mono ?_ hvalues
        intro id _ y hy
        exact Except.bind_mono (fun c hc => require_mono hle hc)
          (fun c hc => ih hc) hy
      match o with
      | .atom a => exact h
      | .node (.list items) =>
          exact Except.bind_mono (hitems items) (fun _ hv => hv) h
      | .node (.set items) =>
          exact Except.bind_mono (hitems items) (fun _ hv => hv) h
      | .node (.map entries) =>
          refine Except.bind_mono ?_ (fun _ hv => hv) h
          intro values hvalues
          refine Except.mapM_mono ?_ hvalues
          intro e _ y hy
          refine Except.bind_mono (fun c hc => require_mono hle hc) ?_ hy
          intro c hc
          exact Except.bind_mono (fun v hv => ih hv) (fun _ hv => hv) hc

def treeToJson (store : ObjectStore Id) (obj : Object Id) :
    Except (TreeError Id) Json :=
  toJson store (Digest.rank obj.id + 1) obj

def treesToJson (store : ObjectStore Id) (objs : List (Option (Object Id))) :
    Except (TreeError Id) (List (Option Json)) :=
  objs.mapM fun obj =>
    match obj with
    | none => .ok none
    | some o => do
        let value ← treeToJson store o
        .ok (some value)

/-- What stands for a container at the depth limit: its keys, or its
length. -/
def truncated : Node Id → Json
  | .map entries =>
      .object [("_keys", .array (entries.keys.map Json.string)),
        ("_truncated", .bool true)]
  | .list items | .set items =>
      .object [("_len", .number (.posInt (UInt64.ofNat items.length))),
        ("_truncated", .bool true)]

/-- `toJson` with a limit; the number counts the levels that are left. -/
def toJsonCapped (store : ObjectStore Id) :
    ℕ → Object Id → Except (TreeError Id) Json
  | _, .atom a => .ok (atomToJson a)
  | 0, .node n => .ok (truncated n)
  | levels + 1, .node (.map entries) => do
      let values ←
        entriesToJson store (toJsonCapped store levels) entries.toList
      .ok (.object values)
  | levels + 1, .node (.list items) | levels + 1, .node (.set items) => do
      let values ← itemsToJson store (toJsonCapped store levels) items
      .ok (.array values)

theorem toJsonCapped_node (store : ObjectStore Id) (levels : ℕ) (n : Node Id) :
    toJsonCapped store (levels + 1) (.node n) =
      nodeToJson store (toJsonCapped store levels) n := by
  cases n <;> rfl

def treeToJsonCapped (store : ObjectStore Id) (obj : Object Id)
    (maxDepth : ℕ) : Except (TreeError Id) Json :=
  toJsonCapped store maxDepth obj

/-! ## Several paths at once -/

/-- One path goes down a level, with the components it has left. -/
def descend (store : ObjectStore Id) :
    List PathComponent × Option (Object Id) →
      Except (TreeError Id) (List PathComponent × Option (Object Id))
  | ([], current) => .ok ([], current)
  | (component :: rest, current) =>
      match current.bind fun obj => childIdAt obj component with
      | none => .ok (rest, none)
      | some id => do
          let child ← store.require id
          .ok (rest, some child)

/-- All paths go down together; the first id that is not stored is the
error. -/
def descendLevels (store : ObjectStore Id) :
    ℕ → List (List PathComponent × Option (Object Id)) →
      Except (TreeError Id) (List (Option (Object Id)))
  | 0, current => .ok (current.map Prod.snd)
  | levels + 1, current => do
      let next ← current.mapM (descend store)
      descendLevels store levels next

def treeGetMany (store : ObjectStore Id) (root : Id) (paths : List StatePath) :
    Except (TreeError Id) (List (Option (Object Id))) := do
  let rootObj ← store.require root
  let deepest := (paths.map fun p => p.components.length).foldr max 0
  descendLevels store deepest (paths.map fun p => (p.components, some rootObj))

/-! ## Leaf paths -/

def LIST_PATHS_HARD_CEILING : ℕ := 128

def LIST_PATHS_MAX_RESULTS : ℕ := 10000

/-- How a path is shown: the root as a slash. -/
def leafPath (current : String) : String :=
  if current = "" then "/" else current

/-- Items by their position. -/
def indexed (items : List Id) : List (String × Id) :=
  items.zipIdx.map fun e => (Nat.repr e.2, e.1)

/-- The walk below a container. -/
def collectChildren (store : ObjectStore Id)
    (collect : Object Id → String → List String →
      Except (TreeError Id) (List String))
    (current : String) (children : List (String × Id)) (paths : List String) :
    Except (TreeError Id) (List String) :=
  children.foldlM
    (fun paths e => do
      let child ← store.require e.2
      collect child (current ++ "/" ++ e.1) paths)
    paths

/-- The number counts the levels that are left, this one included. -/
def collectPaths (store : ObjectStore Id) :
    ℕ → Object Id → String → List String →
      Except (TreeError Id) (List String)
  | 0, _, _, paths => .ok paths
  | levels + 1, obj, current, paths =>
      if LIST_PATHS_MAX_RESULTS ≤ paths.length then .ok paths
      else
        match obj with
        | .atom _ => .ok (paths ++ [leafPath current])
        | .node (.map entries) =>
            if entries.isEmpty then .ok (paths ++ [leafPath current])
            else
              collectChildren store (collectPaths store levels) current
                entries.toList paths
        | .node (.list items) | .node (.set items) =>
            collectChildren store (collectPaths store levels) current
              (indexed items) paths

def treeListPaths (store : ObjectStore Id) (root : Id) (pre : String)
    (maxDepth : ℕ) : Except (TreeError Id) (List String) := do
  let rootObj ← store.require root
  let depth := min maxDepth LIST_PATHS_HARD_CEILING
  let paths ←
    if pre = "" ∨ pre = "/" then
      collectPaths store (depth + 1) rootObj "" []
    else do
      let path ← parsePath pre
      let obj ← treeGet store root path
      collectPaths store (depth + 1) obj pre []
  .ok (paths.take LIST_PATHS_MAX_RESULTS)

/-! ## Search -/

/-- The two functions of the standard library a search calls that depend on
tables: `str::to_lowercase` and the `Display` of `f64`. -/
structure TextTables where
  toLowercase : String → String
  f64ToString : F64 → String

/-- `str::contains`. -/
def contains (s sub : String) : Bool := decide (sub.toList <:+: s.toList)

/-- The text a search compares an atom by; null and bytes have none. -/
def searchText (text : TextTables) : Atom → Option String
  | .string s => some s
  | .int i => some (ToString.toString i.toInt)
  | .uint u => some (Nat.repr u.toNat)
  | .float f => some (text.f64ToString f)
  | .bool b => some (if b then "true" else "false")
  | .null | .bytes _ => none

section Search

variable (text : TextTables) (query : String) (maxResults : ℕ)

/-- A key that contains the query is itself a hit. -/
def matchKey (current key : String) (results : List (String × String)) :
    List (String × String) :=
  if contains (text.toLowercase key) query then
    results ++ [(current ++ "/" ++ key, "[key match: " ++ key ++ "]")]
  else results

/-- The walk below a container; a full list of results ends it. -/
def searchChildren (store : ObjectStore Id)
    (search : Object Id → String → List (String × String) →
      Except (TreeError Id) (List (String × String)))
    (onKey : String → List (String × String) → List (String × String))
    (current : String) (children : List (String × Id))
    (results : List (String × String)) :
    Except (TreeError Id) (List (String × String)) :=
  children.foldlM
    (fun results e =>
      if maxResults ≤ results.length then .ok results
      else do
        let child ← store.require e.2
        search child (current ++ "/" ++ e.1) (onKey e.1 results))
    results

/-- The number counts the levels that are left, this one included; the query
is in lower case. -/
def searchRecursive (store : ObjectStore Id) :
    ℕ → Object Id → String → List (String × String) →
      Except (TreeError Id) (List (String × String))
  | 0, _, _, results => .ok results
  | levels + 1, obj, current, results =>
      if maxResults ≤ results.length then .ok results
      else
        match obj with
        | .atom a =>
            match searchText text a with
            | none => .ok results
            | some value =>
                if contains (text.toLowercase value) query then
                  .ok (results ++ [(leafPath current, value)])
                else .ok results
        | .node (.map entries) =>
            searchChildren maxResults store (searchRecursive store levels)
              (matchKey text query current) current entries.toList results
        | .node (.list items) | .node (.set items) =>
            searchChildren maxResults store (searchRecursive store levels)
              (fun _ results => results) current (indexed items) results

end Search

def treeSearchValues (text : TextTables) (store : ObjectStore Id) (root : Id)
    (query : String) (maxResults : ℕ) :
    Except (TreeError Id) (List (String × String)) := do
  let rootObj ← store.require root
  let limit := min maxResults LIST_PATHS_MAX_RESULTS
  searchRecursive text (text.toLowercase query) limit store
    (LIST_PATHS_HARD_CEILING + 1) rootObj "" []

end AgentStateGraph
