import AgentStateGraph.Repo.Storage
import AgentStateGraph.Tree.Read

/-!
# The control tree

Taints, reminders and epochs are kept under a ref of their own, as a tree with
a format number and four sections: maps from record ids to the trees of the
records, and for each epoch the list of its commits.

Serialized records are read through `ControlCodec`: the derived deserializers,
the RFC 3339 parser and the hex text of ids lie outside this development.
-/

namespace AgentStateGraph

variable {Id : Type} [Digest Id]

/-! ## Records -/

inductive ReminderStatus where
  | pending | due | awaitingPermission | inProgress | completed | snoozed
  | cancelled
deriving DecidableEq

def ReminderStatus.isTerminal : ReminderStatus → Bool
  | .completed | .cancelled => true
  | _ => false

/-- The part of a reminder that the merge reads. -/
structure Reminder where
  id : String
  status : ReminderStatus
deriving DecidableEq

/-- A reminder as the control ref keeps it: the record and when it was last
edited, or that it was deleted. -/
inductive ReminderEntry where
  | live (reminder : Reminder) (editedAt : ℤ)
  | deleted (deletedAt : ℤ)
deriving DecidableEq

/-- The part of an epoch's record that the merge reads, and the commits its
seal covers. -/
structure EpochRecord (Id : Type) where
  id : String
  status : EpochStatus
  sealedAt : Option ℤ
  sealHash : Option Id
  namespace_ : Option String
  sealedCommits : List Id
deriving DecidableEq

/-- How records, times and runs of ids are written as text. -/
structure ControlCodec (Id : Type) where
  /-- `serde_json::from_value`, for each kind of record. -/
  taint : Json → Except String Taint
  reminder : Json → Except String Reminder
  epoch : Json → Except String (EpochRecord Id)
  /-- `DateTime::parse_from_rfc3339`, in UTC. -/
  time : String → Except String ℤ
  /-- The hex digits of ids, one after another. -/
  hex : List Id → String
  /-- The ids that such a text holds. -/
  ids : String → Option (List Id)
  /-- Whether the last byte of an id is below `CHUNK_CUT`. -/
  endsChunk : Id → Bool
  ids_hex : ∀ l, ids (hex l) = some l

inductive ControlError (Id : Type) where
  | objectNotFound (id : Id)
  | tree (e : TreeError Id)
  | malformed (what : String)
  | format (n : Int64)
deriving DecidableEq

/-! ## Loading -/

namespace Control

def load (store : ObjectStore Id) (id : Id) :
    Except (ControlError Id) (Object Id) :=
  match store.get id with
  | some o => .ok o
  | none => .error (.objectNotFound id)

def loadMap (store : ObjectStore Id) (id : Id) :
    Except (ControlError Id) (BTreeMap String Id) := do
  match ← load store id with
  | .node (.map entries) => .ok entries
  | _ => .error (.malformed (displayId id ++ " isn't a map"))

def loadString (store : ObjectStore Id) (id : Id) :
    Except (ControlError Id) String := do
  match ← load store id with
  | .atom (.string s) => .ok s
  | _ => .error (.malformed (displayId id ++ " isn't a string"))

def liftText {α : Type} : Except String α → Except (ControlError Id) α
  | .ok a => .ok a
  | .error e => .error (.malformed e)

def liftTreeError {α : Type} :
    Except (TreeError Id) α → Except (ControlError Id) α
  | .ok a => .ok a
  | .error e => .error (.tree e)

def loadJson {α : Type} (decode : Json → Except String α)
    (store : ObjectStore Id) (id : Id) : Except (ControlError Id) α := do
  let obj ← load store id
  let value ← liftTreeError (treeToJson store obj)
  liftText (decode value)

def loadTime (codec : ControlCodec Id) (store : ObjectStore Id) (id : Id) :
    Except (ControlError Id) ℤ := do
  let text ← loadString store id
  liftText (codec.time text)

/-- One chunk of an id list. -/
def loadChunk (codec : ControlCodec Id) (store : ObjectStore Id) (id : Id) :
    Except (ControlError Id) (List Id) :=
  match store.get id with
  | some (.atom (.string hex)) =>
      match codec.ids hex with
      | some ids => .ok ids
      | none => .error (.malformed ("id list chunk " ++ displayId id))
  | _ => .error (.malformed ("id list chunk " ++ displayId id))

def loadIds (codec : ControlCodec Id) (store : ObjectStore Id) (id : Id) :
    Except (ControlError Id) (List Id) := do
  match ← load store id with
  | .node (.list chunkIds) => do
      let chunks ← chunkIds.mapM (loadChunk codec store)
      .ok chunks.flatten
  | _ => .error (.malformed (displayId id ++ " isn't an id list"))

def loadTaint (codec : ControlCodec Id) (store : ObjectStore Id) (id : Id) :
    Except (ControlError Id) Taint :=
  loadJson codec.taint store id

/-- `doc.get(name).ok_or(..)`. -/
def field (kind : String) (id : Id) (doc : BTreeMap String Id)
    (name : String) : Except (ControlError Id) Id :=
  match doc[name]? with
  | some child => .ok child
  | none =>
      .error (.malformed
        (kind ++ " " ++ displayId id ++ " has no " ++ name))

def loadReminder (codec : ControlCodec Id) (store : ObjectStore Id) (id : Id) :
    Except (ControlError Id) ReminderEntry := do
  let doc ← loadMap store id
  match doc["deleted_at"]? with
  | some deletedAt => do
      let time ← loadTime codec store deletedAt
      .ok (.deleted time)
  | none => do
      let record ← field "reminder" id doc "reminder"
      let reminder ← loadJson codec.reminder store record
      let edited ← field "reminder" id doc "edited_at"
      let time ← loadTime codec store edited
      .ok (.live reminder time)

def loadEpoch (codec : ControlCodec Id) (store : ObjectStore Id) (id : Id) :
    Except (ControlError Id) (EpochRecord Id) := do
  let doc ← loadMap store id
  let record ← field "epoch" id doc "record"
  let epoch ← loadJson codec.epoch store record
  let list ← field "epoch" id doc "sealed"
  let sealedIds ← loadIds codec store list
  .ok { epoch with sealedCommits := sealedIds }

/-! ## Id lists -/

def CHUNK_MAX : ℕ := 256

/-- A sorted list of ids cut into chunks, with the chunk being filled. -/
def chunks (codec : ControlCodec Id) : List Id → List Id → List (List Id)
  | [], chunk => if chunk.isEmpty then [] else [chunk]
  | id :: ids, chunk =>
      let chunk := chunk ++ [id]
      if codec.endsChunk id || chunk.length == CHUNK_MAX then
        chunk :: chunks codec ids []
      else chunks codec ids chunk

def chunkObjects (codec : ControlCodec Id) (ids : List Id) :
    List (Object Id) :=
  (chunks codec ids []).map fun chunk => Object.string (codec.hex chunk)

def idList (codec : ControlCodec Id) (ids : List Id) : Object Id :=
  Object.list ((chunkObjects codec ids).map Object.id)

def putIds (codec : ControlCodec Id) (store : ObjectStore Id) (ids : List Id) :
    Id × ObjectStore Id :=
  ((idList codec ids).id,
    store.putAll (chunkObjects codec ids ++ [idList codec ids]))

omit [Digest Id] in
theorem flatten_chunks (codec : ControlCodec Id) (ids chunk : List Id) :
    (chunks codec ids chunk).flatten = chunk ++ ids := by
  induction ids generalizing chunk with
  | nil =>
      simp only [chunks]
      split
      next h => simpa using h.symm
      next => simp
  | cons id ids ih =>
      simp only [chunks]
      split
      · rw [List.flatten_cons, ih]
        simp
      · rw [ih]
        simp

/-- The objects of an id list are stored. -/
def HoldsIds (codec : ControlCodec Id) (store : ObjectStore Id)
    (ids : List Id) : Prop :=
  ∀ o ∈ chunkObjects codec ids ++ [idList codec ids], store.get o.id = some o

theorem loadIds_of_holds {codec : ControlCodec Id} {store : ObjectStore Id}
    {ids : List Id} (h : HoldsIds codec store ids) :
    loadIds codec store (idList codec ids).id = .ok ids := by
  have hlist : store.get (idList codec ids).id = some (idList codec ids) :=
    h _ (by simp)
  have hchunks : ((chunkObjects codec ids).map Object.id).mapM
      (loadChunk codec store) = .ok (chunks codec ids []) := by
    rw [List.mapM_map, chunkObjects, List.mapM_map]
    have hall := Except.mapM_eq_ok (l := chunks codec ids []) (g := id)
      (f := fun chunk => loadChunk codec store
        (Object.string (codec.hex chunk) : Object Id).id)
      (by
        intro chunk hchunk
        have hget := h (Object.string (codec.hex chunk))
          (by simp [chunkObjects]; exact Or.inl ⟨chunk, hchunk, rfl⟩)
        simp only [loadChunk, hget]
        simp only [Object.string, codec.ids_hex, id_eq])
    simpa [Function.comp_def] using hall
  simp only [loadIds, load, hlist, Except.ok_bind]
  simp only [idList, Object.list, hchunks, Except.ok_bind, flatten_chunks,
    List.nil_append]

theorem holdsIds_putIds (codec : ControlCodec Id) (store : ObjectStore Id)
    (ids : List Id) : HoldsIds codec (putIds codec store ids).2 ids := by
  intro o ho
  exact AddressedMap.get_putAll_of_mem Object.id_injective store ho

/-! ## Sections -/

def CONTROL_FORMAT : Int64 := 1

/-- The sections, in the order their names have. -/
inductive Section where
  | epochs | members | reminders | taints
deriving DecidableEq

def Section.all : List Section := [.epochs, .members, .reminders, .taints]

def Section.name : Section → String
  | .taints => "taints"
  | .reminders => "reminders"
  | .epochs => "epochs"
  | .members => "members"

/-- The control tree's sections, as maps from record id to the record's
tree. -/
abbrev Sections (Id : Type) := Section → BTreeMap String Id

/-- `SECTIONS`, the order sections are loaded in. -/
def SECTIONS : List Section := [.taints, .reminders, .epochs, .members]

def loadSection (store : ObjectStore Id) (top : BTreeMap String Id)
    (s : Section) : Except (ControlError Id) (Section × BTreeMap String Id) :=
  match top[s.name]? with
  | none => .error (.malformed ("no " ++ s.name))
  | some id => do
      let entries ← loadMap store id
      .ok (s, entries)

def Sections.load (store : ObjectStore Id) (root : Id) :
    Except (ControlError Id) (Sections Id) := do
  let top ← loadMap store root
  let format ← match top["format"]? with
    | none => .error (.malformed "no format")
    | some id => do
        match ← Control.load store id with
        | .atom (.int n) => .ok n
        | _ => .error (.malformed "no format")
  if format ≠ CONTROL_FORMAT then .error (.format format)
  else do
    let maps ← SECTIONS.mapM (loadSection store top)
    .ok fun s => ((maps.find? fun e => e.1 = s).map Prod.snd).getD ∅

def formatObject : Object Id := .atom (.int CONTROL_FORMAT)

/-- The top map over given sections. -/
def topObject (sections : Sections Id) : Object Id :=
  Object.map (Section.all.foldl
    (fun top s => top.insert s.name (Object.map (sections s)).id)
    ((∅ : BTreeMap String Id).insert "format" (formatObject : Object Id).id))

/-- The objects above the records. -/
def sectionObjects (sections : Sections Id) : List (Object Id) :=
  formatObject :: Section.all.map (fun s => Object.map (sections s)) ++
    [topObject sections]

def Sections.write (store : ObjectStore Id) (sections : Sections Id) :
    Id × ObjectStore Id :=
  ((topObject sections).id, store.putAll (sectionObjects sections))

/-! ## Loading from a larger store -/

section Mono

variable {s t : ObjectStore Id} {id : Id}

theorem load_mono (hle : s ≤ t) {o : Object Id} (h : load s id = .ok o) :
    load t id = .ok o := by
  simp only [load] at h ⊢
  split at h
  next o' hget =>
    rw [hle id o' hget]
    exact h
  next => contradiction

theorem loadMap_mono (hle : s ≤ t) {entries : BTreeMap String Id}
    (h : loadMap s id = .ok entries) : loadMap t id = .ok entries :=
  Except.bind_mono (fun _ => load_mono hle) (fun _ hr => hr) h

theorem loadJson_mono {α : Type} {decode : Json → Except String α}
    (hle : s ≤ t) {a : α} (h : loadJson decode s id = .ok a) :
    loadJson decode t id = .ok a := by
  refine Except.bind_mono (fun _ => load_mono hle) ?_ h
  intro o ho
  refine Except.bind_mono ?_ (fun _ hr => hr) ho
  intro value hvalue
  cases hjson : treeToJson s o with
  | error e =>
      rw [hjson] at hvalue
      contradiction
  | ok v =>
      rw [hjson] at hvalue
      have hmono : treeToJson t o = .ok v := toJson_mono hle hjson
      rw [hmono]
      exact hvalue

variable {codec : ControlCodec Id}

theorem loadTime_mono (hle : s ≤ t) {time : ℤ}
    (h : loadTime codec s id = .ok time) : loadTime codec t id = .ok time := by
  refine Except.bind_mono ?_ (fun _ hr => hr) h
  intro text htext
  exact Except.bind_mono (fun _ => load_mono hle) (fun _ hr => hr) htext

theorem loadIds_mono (hle : s ≤ t) {ids : List Id}
    (h : loadIds codec s id = .ok ids) : loadIds codec t id = .ok ids := by
  refine Except.bind_mono (fun _ => load_mono hle) ?_ h
  intro o ho
  split at ho
  next chunkIds =>
    refine Except.bind_mono ?_ (fun _ hr => hr) ho
    intro chunks hchunks
    refine Except.mapM_mono ?_ hchunks
    intro chunk _ l hl
    simp only [loadChunk] at hl ⊢
    split at hl
    next hex hget =>
      rw [hle chunk _ hget]
      exact hl
    next => contradiction
  next => contradiction

theorem loadTaint_mono (hle : s ≤ t) {taint : Taint}
    (h : loadTaint codec s id = .ok taint) : loadTaint codec t id = .ok taint :=
  loadJson_mono hle h

theorem loadReminder_mono (hle : s ≤ t) {entry : ReminderEntry}
    (h : loadReminder codec s id = .ok entry) :
    loadReminder codec t id = .ok entry := by
  refine Except.bind_mono (fun _ => loadMap_mono hle) ?_ h
  intro doc hdoc
  split at hdoc
  next deletedAt _ =>
    exact Except.bind_mono (fun _ => loadTime_mono hle) (fun _ hr => hr) hdoc
  next =>
    refine Except.bind_mono (fun _ hr => hr) ?_ hdoc
    intro record hrecord
    refine Except.bind_mono (fun _ => loadJson_mono hle) ?_ hrecord
    intro reminder hreminder
    refine Except.bind_mono (fun _ hr => hr) ?_ hreminder
    intro edited hedited
    exact Except.bind_mono (fun _ => loadTime_mono hle) (fun _ hr => hr) hedited

theorem loadEpoch_mono (hle : s ≤ t) {epoch : EpochRecord Id}
    (h : loadEpoch codec s id = .ok epoch) :
    loadEpoch codec t id = .ok epoch := by
  refine Except.bind_mono (fun _ => loadMap_mono hle) ?_ h
  intro doc hdoc
  refine Except.bind_mono (fun _ hr => hr) ?_ hdoc
  intro record hrecord
  refine Except.bind_mono (fun _ => loadJson_mono hle) ?_ hrecord
  intro epoch' hepoch
  refine Except.bind_mono (fun _ hr => hr) ?_ hepoch
  intro list hlist
  exact Except.bind_mono (fun _ => loadIds_mono hle) (fun _ hr => hr) hlist

end Mono

end Control

end AgentStateGraph
