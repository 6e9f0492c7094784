import AgentStateGraph.Control.Merge
import AgentStateGraph.Epoch.Seals

/-!
# Reconciling the control ref and the tables

The control ref takes, by its merge rules, the rows that the tables hold and
it lacks; then the tables take the records they do not match.

Which rows those are, and what the merged tree says, is read through the
serializers of the records, which lie outside this development: `ControlView`
gives both, and everything here holds for every view.
-/

namespace AgentStateGraph

variable {Id : Type} [Digest Id]

def CONTROL_REF : String := "_control"

/-- The control commit the tables last matched. -/
def INDEXED_REF : String := "_control-indexed"

/-- A write whose control commit has not landed. -/
def PENDING_PREFIX : String := "_control-pending/"

def defaultNs : String := "default"

namespace Control

/-! ## Edits of a control tree -/

/-- A record as an edit writes it: serialized values, times as text, and the
commits of an epoch. -/
inductive RecordDoc (Id : Type) where
  | taint (value : Json)
  | reminder (value : Json) (editedAt : String)
  | deletedReminder (deletedAt : String)
  | epoch (value : Json) (sealedIds : List Id)

def RecordDoc.kind : RecordDoc Id → Section
  | .taint _ => .taints
  | .reminder _ _ | .deletedReminder _ => .reminders
  | .epoch _ _ => .epochs

/-- One change of an edit. -/
inductive EditRow (Id : Type) where
  | record (id : String) (doc : RecordDoc Id)
  | members (epoch : String) (commits : List Id)

def putMap (store : ObjectStore Id) (entries : BTreeMap String Id) :
    Id × ObjectStore Id :=
  ((Object.map entries).id, store.put (Object.map entries))

def putString (store : ObjectStore Id) (s : String) : Id × ObjectStore Id :=
  ((Object.string s : Object Id).id, store.put (Object.string s))

/-- `BTreeSet` of some ids, in order. -/
def sortedIds (ids : List Id) : List Id :=
  (Std.ExtTreeSet.ofList ids compare).toList

/-- Store a record's tree. -/
def RecordDoc.put (codec : ControlCodec Id) (store : ObjectStore Id) :
    RecordDoc Id → Id × ObjectStore Id
  | .taint value => jsonToTree store value
  | .reminder value editedAt =>
      let (record, store) := jsonToTree store value
      let (edited, store) := putString store editedAt
      putMap store
        (((∅ : BTreeMap String Id).insert "reminder" record).insert
          "edited_at" edited)
  | .deletedReminder deletedAt =>
      let (deleted, store) := putString store deletedAt
      putMap store ((∅ : BTreeMap String Id).insert "deleted_at" deleted)
  | .epoch value sealedIds =>
      let (record, store) := jsonToTree store value
      let (ids, store) := putIds codec store (sortedIds sealedIds)
      putMap store
        (((∅ : BTreeMap String Id).insert "record" record).insert "sealed" ids)

/-- The sections being edited, and the store. -/
abbrev Edit (Id : Type) [Digest Id] := Sections Id × ObjectStore Id

def Edit.insert (e : Edit Id) (kind : Section) (key : String)
    (tree : Id × ObjectStore Id) : Edit Id :=
  (Function.update e.1 kind ((e.1 kind).insert key tree.1), tree.2)

def Edit.addMembers (codec : ControlCodec Id) (e : Edit Id) (epoch : String)
    (commits : List Id) : Except (ControlError Id) (Edit Id) :=
  match (e.1 .members)[epoch]? with
  | none => .ok (e.insert .members epoch
      (putIds codec e.2 (sortedIds commits)))
  | some tree => do
      let members ← loadIds codec e.2 tree
      if commits.all fun c => decide (c ∈ members) then .ok e
      else .ok (e.insert .members epoch
        (putIds codec e.2 (sortedIds (members ++ commits))))

def Edit.row (codec : ControlCodec Id) (e : Edit Id) :
    EditRow Id → Except (ControlError Id) (Edit Id)
  | .record id doc => .ok (e.insert doc.kind id (doc.put codec e.2))
  | .members epoch commits => e.addMembers codec epoch commits

/-- The control tree that holds just the given rows. -/
def candidate (codec : ControlCodec Id) (store : ObjectStore Id)
    (rows : List (EditRow Id)) :
    Except (ControlError Id) (Id × ObjectStore Id) := do
  let (sections, store) ← rows.foldlM (Edit.row codec) (fun _ => ∅, store)
  .ok (Sections.write store sections)

end Control

/-! ## Rebuilding the epoch table -/

namespace Storage

/-- Give an epoch its namespace, if it has none. -/
def assignEpochNamespace (store : Storage Id) (id ns : String) :
    Except StorageError (Storage Id) :=
  match store.epoch? id with
  | none => .error (.backend ("epoch not found: " ++ id))
  | some epoch =>
      if epoch.namespace_.isSome then .ok store
      else
        .ok { store with
          epochs := Epoch.modify id (fun e => { e with namespace_ := some ns })
            store.epochs }

/-- A part of a rebuild: the store as it was left, and whether to go on. -/
abbrev Rebuild (Id : Type) [Digest Id] := Storage Id × Bool

/-- Go on with `f`, unless a part failed before. -/
def Rebuild.andThen (r : Rebuild Id)
    (f : Storage Id → Except StorageError (Storage Id)) : Rebuild Id :=
  if r.2 then
    match f r.1 with
    | .ok store => (store, true)
    | .error _ => (r.1, false)
  else r

/-- Take the members an epoch lacks, of the commits that are here. -/
def joinMembers (store : Storage Id) (epoch : String) (had members : List Id) :
    Rebuild Id :=
  (members.filter fun c => decide (c ∉ had) && (store.getCommit c).isSome).foldl
    (fun r c => r.andThen fun s => s.setCommitEpoch c epoch) (store, true)

/-- Bring one epoch of the table to its record in the control tree. -/
def rebuildEpoch (store : Storage Id) (record : Epoch Id) (members : List Id) :
    Storage Id :=
  let row := store.epoch? record.id
  let start : Rebuild Id :=
    if row.isSome then (store, true)
    else Rebuild.andThen (store, true) fun s => s.createEpoch
      { record with status := .active, sealedCommits := [] }
  let status := (row.map fun e => e.status).getD .active
  let joined :=
    if start.2 && status = .active then
      joinMembers start.1 record.id (store.epochCommits record.id) members
    else start
  let sealedRow :=
    if status = .active ∧ record.status ≠ .active then
      joined.andThen fun s => s.sealEpoch record.id record.sealedCommits
    else joined
  let archived :=
    if record.status = .archived ∧ status ≠ .archived then
      sealedRow.andThen fun s => s.archiveEpoch record.id
    else sealedRow
  match record.namespace_, row with
  | some ns, some e =>
      if e.namespace_.isNone then
        (archived.andThen fun s => s.assignEpochNamespace record.id ns).1
      else archived.1
  | _, _ => archived.1

end Storage

/-! ## The reconcile -/

/-- What a reconcile reads: the rows the control ref lacks, and the epochs,
memberships and taints the tables are rebuilt from.  A control tree that cannot
be read gives nothing. -/
structure ControlView (Id : Type) where
  rows : Option (List (Control.EditRow Id))
  rebuilt : Option (List (Epoch Id × List Id) × List Taint)
  options : CommitOptions
  now : ℤ

inductive ControlRepoError (Id : Type) where
  | control (e : ControlError Id)
  | unreadable
  | storage (e : StorageError)
  | commitNotFound (id : String)
  | writeConflict
deriving DecidableEq

namespace Storage

/-- The tree of the control ref's head. -/
def controlBase (store : Storage Id) (head : Option Id) :
    Except (ControlRepoError Id) (Option Id) :=
  match head with
  | none => .ok none
  | some h =>
      match store.rootOf h with
      | some root => .ok (some root)
      | none => .error (.commitNotFound (displayId h))

/-- The tree a reconcile leaves: the rows' own, merged into the base. -/
def mergeRows (codec : ControlCodec Id) (objects : ObjectStore Id)
    (base : Option Id) (rows : List (Control.EditRow Id)) :
    Except (ControlError Id) (Id × ObjectStore Id) := do
  let (tree, objects) ← Control.candidate codec objects rows
  match base with
  | none => .ok (tree, objects)
  | some root => do
      let (merged, objects) ← Control.merge codec objects root tree
      .ok (merged.root, objects)

/-- Move the control ref from `head` to a commit on it. -/
def landControl (store : Storage Id) (head : Option Id) (commit : Id) :
    Except StorageError (Bool × Storage Id) :=
  match head with
  | some h => store.casRef defaultNs CONTROL_REF h commit
  | none => store.createRef defaultNs CONTROL_REF commit

/-- The tables take the records they do not match. -/
def rebuildTables (store : Storage Id)
    (records : List (Epoch Id × List Id) × List Taint) : Storage Id :=
  records.1.foldl (fun s r => s.rebuildEpoch r.1 r.2)
    { store with taints := records.2 }

/-- The tables match `head`, and what was pending has been taken. -/
def settleControl (store : Storage Id) (head : Option Id)
    (pending : List (String × Id)) : Storage Id :=
  let indexed := match head with
    | some h => store.putRef defaultNs INDEXED_REF h
    | none => store
  pending.foldl
    (fun s mark =>
      if s.refAt defaultNs mark.1 = some mark.2 then s.eraseRef defaultNs mark.1
      else s) indexed

/-- Commit the merged tree on the head, if it differs from the base. -/
def commitControl (store : Storage Id) (head base : Option Id) (merged : Id)
    (options : CommitOptions) (now : ℤ) :
    Except (ControlRepoError Id) (Option Id) × Storage Id :=
  if some merged = base then (.ok head, store)
  else
    let commit := CommitBuilder.build merged head.toList options now
    let stored := store.putCommit commit
    match stored.landControl head commit.id with
    | .error e => (.error (.storage e), stored)
    | .ok (false, kept) => (.error .writeConflict, kept)
    | .ok (true, moved) => (.ok (some commit.id), moved)

/-- One attempt; nothing else moves the ref meanwhile, so the first attempt is
the whole loop. -/
def reconcileControl (codec : ControlCodec Id) (view : ControlView Id)
    (store : Storage Id) : Except (ControlRepoError Id) Unit × Storage Id :=
  let head := store.refAt defaultNs CONTROL_REF
  let pending := store.refsIn defaultNs PENDING_PREFIX
  if head.isSome ∧ head = store.refAt defaultNs INDEXED_REF ∧ pending = [] then
    (.ok (), store)
  else
    match store.controlBase head, view.rows with
    | .error e, _ => (.error e, store)
    | _, none => (.error .unreadable, store)
    | .ok base, some rows =>
        if head.isNone ∧ rows.isEmpty ∧ pending.isEmpty then (.ok (), store)
        else
          match mergeRows codec store.objects base rows with
          | .error e => (.error (.control e), store)
          | .ok (merged, objects) =>
              match (store.withObjects objects).commitControl head base merged
                  view.options view.now with
              | (.error e, kept) => (.error e, kept)
              | (.ok newHead, moved) =>
                  match view.rebuilt with
                  | none => (.error .unreadable, moved)
                  | some records =>
                      (.ok (), (moved.rebuildTables records).settleControl
                        newHead pending)

end Storage

end AgentStateGraph
