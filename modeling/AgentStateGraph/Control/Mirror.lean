import AgentStateGraph.Control.Join
import AgentStateGraph.Control.Reconcile
import AgentStateGraph.Tree.RoundTrip

/-!
# Table writes mirrored into the control tree

A taint, reminder or epoch is written to its table first.  The row that the
table then holds goes into the control tree in place of the version it has,
whatever that version is: the write is not merged in.
-/

namespace AgentStateGraph

variable {Id : Type} [Digest Id]

namespace Control

/-! ## The tables -/

section Tables

variable (codec : ControlCodec Id)

/-- A row of the taint table: what the merge reads of it, and the document it
is serialized to. -/
structure TaintRow where
  taint : Taint
  doc : Json
  canonical : doc.isCanonical = true
  reads : codec.taint doc = .ok taint

structure ReminderRow where
  reminder : Reminder
  doc : Json
  canonical : doc.isCanonical = true
  reads : codec.reminder doc = .ok reminder

/-- The document of an epoch leaves its commits out. -/
structure EpochRow where
  epoch : EpochRecord Id
  doc : Json
  canonical : doc.isCanonical = true
  reads : codec.epoch doc = .ok { epoch with sealedCommits := [] }

/-- A time with its RFC 3339 text. -/
structure Instant where
  time : ℤ
  text : String
  reads : codec.time text = .ok time

structure Tables where
  taints : List (TaintRow codec)
  reminders : List (ReminderRow codec)
  epochs : List (EpochRow codec)
  commitEpoch : List (Id × String)

end Tables

variable {codec : ControlCodec Id}

/-- Change the first element that `p` accepts. -/
def replaceFirst {α : Type} (p : α → Bool) (b : α) : List α → List α
  | [] => []
  | a :: l => if p a then b :: l else a :: replaceFirst p b l

namespace Tables

variable (tables : Tables codec)

def taint? (id : String) : Option (TaintRow codec) :=
  tables.taints.find? fun r => r.taint.id = id

def reminder? (id : String) : Option (ReminderRow codec) :=
  tables.reminders.find? fun r => r.reminder.id = id

def epoch? (id : String) : Option (EpochRow codec) :=
  tables.epochs.find? fun r => r.epoch.id = id

/-- The commits associated with an epoch. -/
def epochCommits (id : String) : List Id :=
  (tables.commitEpoch.filter fun e => e.2 = id).map Prod.fst

def setTaint (id : String) (row : TaintRow codec) : Tables codec :=
  { tables with
    taints := replaceFirst (fun r => r.taint.id = id) row tables.taints }

def setEpoch (id : String) (row : EpochRow codec) : Tables codec :=
  { tables with
    epochs := replaceFirst (fun r => r.epoch.id = id) row tables.epochs }

def saveReminder (row : ReminderRow codec) : Tables codec :=
  { tables with
    reminders :=
      row :: tables.reminders.filter fun r => r.reminder.id ≠ row.reminder.id }

end Tables

/-- What is committed to the control ref once the table write is done. -/
inductive Stage (Id : Type) where
  | taint (id : String)
  | reminder (id : String)
  | epoch (id : String)
  | member (epoch : String) (commit : Id)

/-- A table write that succeeds, with what it stages.  The fields that no rank
reads change freely with the document. -/
inductive TableWrite (before : Tables codec) :
    Stage Id → Tables codec → Prop where
  | createTaint (row : TaintRow codec)
      (unique : ∀ r ∈ before.taints, r.taint.resolvedAt = none →
        ¬ (r.taint.path = row.taint.path ∧ r.taint.name = row.taint.name ∧
          r.taint.kind = row.taint.kind)) :
      TableWrite before (.taint row.taint.id)
        { before with taints := before.taints ++ [row] }
  | setTaintCommitId (id commitId : String) (old new : TaintRow codec)
      (found : before.taint? id = some old)
      (changed : new.taint = { old.taint with commitId := commitId })
      (same : commitId = old.taint.commitId → new = old) :
      TableWrite before (.taint id) (before.setTaint id new)
  | resolveTaint (id : String) (resolvedAt : ℤ) (old new : TaintRow codec)
      (found : before.taint? id = some old)
      (unresolved : old.taint.resolvedAt = none)
      (changed : new.taint =
        { old.taint with resolvedAt := some resolvedAt }) :
      TableWrite before (.taint id) (before.setTaint id new)
  | saveReminder (row : ReminderRow codec) :
      TableWrite before (.reminder row.reminder.id)
        (before.saveReminder row)
  | updateReminder (row : ReminderRow codec)
      (found : (before.reminder? row.reminder.id).isSome = true) :
      TableWrite before (.reminder row.reminder.id)
        (before.saveReminder row)
  /-- An update whose record has changed since it was read writes nothing, and
  is staged all the same. -/
  | updateRefused (id : String)
      (found : (before.reminder? id).isSome = true) :
      TableWrite before (.reminder id) before
  | deleteReminder (id : String) :
      TableWrite before (.reminder id)
        { before with
          reminders := before.reminders.filter fun r => r.reminder.id ≠ id }
  | createEpoch (row : EpochRow codec)
      (unique : ∀ r ∈ before.epochs, r.epoch.id ≠ row.epoch.id) :
      TableWrite before (.epoch row.epoch.id)
        { before with epochs := before.epochs ++ [row] }
  | sealEpoch (id : String) (sealedAt : ℤ) (sealedCommits : List Id)
      (sealHash : Id) (old new : EpochRow codec)
      (found : before.epoch? id = some old)
      (active : old.epoch.status = .active)
      (changed : new.epoch = { old.epoch with
        status := .sealed
        sealedAt := some sealedAt
        sealedCommits := sealedCommits
        sealHash := some sealHash }) :
      TableWrite before (.epoch id) (before.setEpoch id new)
  | archiveEpoch (id : String) (old new : EpochRow codec)
      (found : before.epoch? id = some old)
      (wasSealed : old.epoch.status = .sealed)
      (changed : new.epoch = { old.epoch with status := .archived }) :
      TableWrite before (.epoch id) (before.setEpoch id new)
  | assignEpochNamespace (id ns : String) (old new : EpochRow codec)
      (found : before.epoch? id = some old)
      (changed : new.epoch = { old.epoch with namespace_ := some ns })
      (unassigned : old.epoch.namespace_ = none) :
      TableWrite before (.epoch id) (before.setEpoch id new)
  /-- An epoch that has its namespace keeps it. -/
  | keepEpochNamespace (id : String) (old : EpochRow codec)
      (found : before.epoch? id = some old)
      (assigned : old.epoch.namespace_.isSome = true) :
      TableWrite before (.epoch id) before
  | setCommitEpoch (epoch : String) (commit : Id) (row : EpochRow codec)
      (found : before.epoch? epoch = some row)
      (active : row.epoch.status = .active) :
      TableWrite before (.member epoch commit)
        { before with
          commitEpoch := (before.commitEpoch.filter fun e => e.1 ≠ commit) ++
            [(commit, epoch)] }

/-! ## The mirror -/

/-- What a stage puts into the control tree, from the tables. -/
def stageFromTables (tables : Tables codec) (now : Instant codec) :
    Stage Id → List (EditRow Id)
  | .taint id =>
      match tables.taint? id with
      | some row => [.record row.taint.id (.taint row.doc)]
      | none => []
  | .reminder id =>
      match tables.reminder? id with
      | some row => [.record row.reminder.id (.reminder row.doc now.text)]
      | none => [.record id (.deletedReminder now.text)]
  | .epoch id =>
      match tables.epoch? id with
      | some row =>
          let commits := tables.epochCommits id
          .record row.epoch.id (.epoch row.doc row.epoch.sealedCommits) ::
            if commits.isEmpty then [] else [.members id commits]
      | none => []
  | .member epoch commit => [.members epoch [commit]]

/-- The control tree after a write: the tree before with what the write
staged. -/
def mirror (store : ObjectStore Id) (root : Id) (tables : Tables codec)
    (now : Instant codec) (stage : Stage Id) :
    Except (ControlError Id) (Id × ObjectStore Id) := do
  let sections ← Sections.load store root
  let (sections, store) ←
    (stageFromTables tables now stage).foldlM (Edit.row codec) (sections, store)
  .ok (Sections.write store sections)

/-! ## What a stored record reads as -/

section Put

variable {s t : ObjectStore Id}

/-- A stored document is read by the decoder of its kind. -/
theorem loadJson_jsonToTree {α : Type} {decode : Json → Except String α}
    {doc : Json} {a : α} (hc : doc.isCanonical = true)
    (hr : decode doc = .ok a) (hle : (jsonToTree s doc).2 ≤ t) :
    loadJson decode t (jsonToTree s doc).1 = .ok a := by
  refine loadJson_mono hle ?_
  have hroot : (jsonToTree s doc).2.get (jsonToTree s doc).1 =
      some (jsonToObjects doc).1 := get_jsonToTree s doc
  have hback : treeToJson (jsonToTree s doc).2 (jsonToObjects doc).1 =
      .ok doc := treeToJson_of_stored hc
    (fun o ho => stored_jsonToTree s doc o (by simp [ho]))
  simp only [loadJson, load, hroot, Except.ok_bind, hback, liftTreeError,
    liftText, hr]

theorem loadTime_putString {codec : ControlCodec Id} (now : Instant codec)
    (hget : t.get (Object.string now.text : Object Id).id =
      some (Object.string now.text)) :
    loadTime codec t (Object.string now.text : Object Id).id =
      .ok now.time := by
  simp only [loadTime, loadString, load, hget, Except.ok_bind]
  simp only [Object.string, Except.ok_bind, now.reads, liftText]

end Put

/-- The tree of a record. -/
def RecordDoc.tree (codec : ControlCodec Id) (doc : RecordDoc Id) : Id :=
  (doc.put codec AddressedMap.empty).1

theorem RecordDoc.put_fst (s : ObjectStore Id) (doc : RecordDoc Id) :
    (doc.put codec s).1 = doc.tree codec := by
  cases doc <;> rfl

theorem le_putIds (s : ObjectStore Id) (ids : List Id) :
    s ≤ (putIds codec s ids).2 :=
  ObjectStore.le_putAll s _

theorem RecordDoc.le_put (s : ObjectStore Id) (doc : RecordDoc Id) :
    s ≤ (doc.put codec s).2 := by
  cases doc with
  | taint value => exact le_jsonToTree s value
  | reminder value editedAt =>
      refine (le_jsonToTree s value).trans ?_
      exact (ObjectStore.le_put _ _).trans (ObjectStore.le_put _ _)
  | deletedReminder deletedAt =>
      exact (ObjectStore.le_put _ _).trans (ObjectStore.le_put _ _)
  | epoch value sealedIds =>
      refine (le_jsonToTree s value).trans ?_
      exact (le_putIds _ _).trans (ObjectStore.le_put _ _)

theorem loadTaint_put (s : ObjectStore Id) (row : TaintRow codec) :
    loadTaint codec ((RecordDoc.taint row.doc).put codec s).2
      ((RecordDoc.taint row.doc).tree codec) = .ok row.taint := by
  rw [← RecordDoc.put_fst s]
  exact loadJson_jsonToTree row.canonical row.reads le_rfl

theorem loadMap_putMap (s : ObjectStore Id) (entries : BTreeMap String Id) :
    loadMap (s.put (Object.map entries)) (Object.map entries).id =
      .ok entries :=
  loadMap_of_get (AddressedMap.get_put_self s _)

theorem loadReminder_live {t : ObjectStore Id} {id recordId edited : Id}
    {doc : BTreeMap String Id} {reminder : Reminder} {time : ℤ}
    (hdoc : loadMap t id = .ok doc) (hdeleted : doc["deleted_at"]? = none)
    (hrecord : doc["reminder"]? = some recordId)
    (hedited : doc["edited_at"]? = some edited)
    (hreminder : loadJson codec.reminder t recordId = .ok reminder)
    (htime : loadTime codec t edited = .ok time) :
    loadReminder codec t id = .ok (.live reminder time) := by
  simp only [loadReminder, hdoc, Except.ok_bind, hdeleted, field, hrecord,
    hedited]
  rw [hreminder, Except.ok_bind, htime, Except.ok_bind]

theorem loadReminder_put (s : ObjectStore Id) (row : ReminderRow codec)
    (now : Instant codec) :
    loadReminder codec ((RecordDoc.reminder row.doc now.text).put codec s).2
      ((RecordDoc.reminder row.doc now.text).tree codec) =
      .ok (.live row.reminder now.time) := by
  rw [← RecordDoc.put_fst s]
  simp only [RecordDoc.put, putMap, putString]
  refine loadReminder_live (loadMap_putMap _ _) ?_ ?_ ?_
    (loadJson_jsonToTree (s := s) row.canonical row.reads ?_)
    (loadTime_putString now ?_)
  · simp
  · simp only [Std.ExtTreeMap.getElem?_insert, compare_eq_iff_eq,
      String.reduceEq, if_true, if_false]
  · simp
  · exact (ObjectStore.le_put _ _).trans (ObjectStore.le_put _ _)
  · exact ObjectStore.le_put _ _ _ _ (AddressedMap.get_put_self _ _)

theorem loadReminder_put_deleted (s : ObjectStore Id) (now : Instant codec) :
    loadReminder codec
      ((RecordDoc.deletedReminder now.text : RecordDoc Id).put codec s).2
      ((RecordDoc.deletedReminder now.text).tree codec) =
      .ok (.deleted now.time) := by
  rw [← RecordDoc.put_fst s]
  simp only [RecordDoc.put, putMap, putString]
  have hget := AddressedMap.get_put_self s (Object.string now.text : Object Id)
  simp only [loadReminder, loadMap_putMap, Except.ok_bind,
    Std.ExtTreeMap.getElem?_insert_self]
  rw [loadTime_putString now (ObjectStore.le_put _ _ _ _ hget),
    Except.ok_bind]

theorem loadEpoch_of_doc {t : ObjectStore Id} {id recordId list : Id}
    {doc : BTreeMap String Id} {e : EpochRecord Id} {ids : List Id}
    (hdoc : loadMap t id = .ok doc)
    (hrecord : doc["record"]? = some recordId)
    (hlist : doc["sealed"]? = some list)
    (hepoch : loadJson codec.epoch t recordId = .ok e)
    (hids : loadIds codec t list = .ok ids) :
    loadEpoch codec t id = .ok { e with sealedCommits := ids } := by
  simp only [loadEpoch, hdoc, Except.ok_bind, field, hrecord, hlist]
  rw [hepoch, Except.ok_bind, hids, Except.ok_bind]

theorem loadEpoch_put (s : ObjectStore Id) (row : EpochRow codec) :
    loadEpoch codec
      ((RecordDoc.epoch row.doc row.epoch.sealedCommits).put codec s).2
      ((RecordDoc.epoch row.doc row.epoch.sealedCommits).tree codec) =
      .ok { row.epoch with
        sealedCommits := sortedIds row.epoch.sealedCommits } := by
  rw [← RecordDoc.put_fst s]
  simp only [RecordDoc.put, putMap]
  refine loadEpoch_of_doc (e := { row.epoch with sealedCommits := [] })
    (loadMap_putMap _ _) ?_ ?_
    (loadJson_jsonToTree (s := s) row.canonical row.reads ?_)
    (loadIds_of_holds (holdsIds_mono (ObjectStore.le_put _ _)
      (holdsIds_putIds codec (jsonToTree s row.doc).2 _)))
  · simp only [Std.ExtTreeMap.getElem?_insert, compare_eq_iff_eq,
      String.reduceEq, if_true, if_false]
  · simp only [Std.ExtTreeMap.getElem?_insert_self]
    rfl
  · exact (le_putIds _ _).trans (ObjectStore.le_put _ _)

/-! ## Edits of the records -/

namespace Records

/-- Replace or add one record. -/
def put (x : Records Id) (kind : Section) (k : String) (tree : Id) :
    Records Id :=
  match kind with
  | .taints => { x with taints := x.taints.insert k tree }
  | .reminders => { x with reminders := x.reminders.insert k tree }
  | .epochs => { x with epochs := x.epochs.insert k tree }
  | .members => x

/-- Add commits to an epoch. -/
def addMembers (x : Records Id) (k : String) (commits : List Id) :
    Records Id :=
  { x with
    members := x.members.insert k
      (unionIds (x.members[k]?.getD ∅) (Std.ExtTreeSet.ofList commits compare)) }

/-- One change of an edit. -/
def edit (codec : ControlCodec Id) (x : Records Id) :
    EditRow Id → Records Id
  | .record k doc => x.put doc.kind k (doc.tree codec)
  | .members k commits => x.addMembers k commits

/-- Everything below the sections is stored and can be read. -/
structure Held (codec : ControlCodec Id) (s : ObjectStore Id)
    (x : Records Id) : Prop where
  readable : x.Readable codec s
  members : ∀ (k : String) ids, x.members[k]? = some ids →
    HoldsIds codec s ids.toList

end Records

/-- The record of an edit can be read once it is stored. -/
def EditRow.Reads (codec : ControlCodec Id) : EditRow Id → Prop
  | .record _ doc => ∀ s : ObjectStore Id,
      match doc.kind with
      | .taints => ∃ t, loadTaint codec (doc.put codec s).2
          (doc.tree codec) = .ok t
      | .reminders => ∃ r, loadReminder codec (doc.put codec s).2
          (doc.tree codec) = .ok r
      | .epochs => ∃ e, loadEpoch codec (doc.put codec s).2
          (doc.tree codec) = .ok e
      | .members => True
  | .members _ _ => True

section Edits

variable {s t : ObjectStore Id} {x : Records Id}

theorem held_mono (hle : s ≤ t) (h : x.Held codec s) : x.Held codec t where
  readable := readable_mono hle h.readable
  members k ids hids := holdsIds_mono hle (h.members k ids hids)

theorem sections_put (x : Records Id) {kind : Section}
    (hkind : kind ≠ .members) (k : String) (tree : Id) :
    Function.update (x.sections codec) kind
      ((x.sections codec kind).insert k tree) =
      (x.put kind k tree).sections codec := by
  funext j
  cases kind <;> cases j <;> first | rfl | contradiction

theorem getElem?_insert_cases {ν : Type} {m : BTreeMap String ν}
    {k j : String} {v w : ν} (h : (m.insert k v)[j]? = some w) :
    (k = j ∧ v = w) ∨ m[j]? = some w := by
  rw [Std.ExtTreeMap.getElem?_insert] at h
  by_cases hk : k = j
  · simp only [compare_eq_iff_eq, if_pos hk, Option.some.injEq] at h
    exact Or.inl ⟨hk, h⟩
  · simp only [compare_eq_iff_eq, if_neg hk] at h
    exact Or.inr h

theorem held_put {k : String} {doc : RecordDoc Id} (h : x.Held codec s)
    (hr : (EditRow.record k doc).Reads codec) :
    (x.put doc.kind k (doc.tree codec)).Held codec (doc.put codec s).2 := by
  have hmono : x.Held codec (doc.put codec s).2 :=
    held_mono (doc.le_put s) h
  have hdoc := hr s
  generalize hkind : doc.kind = kind at hdoc ⊢
  cases kind with
  | taints =>
      refine ⟨⟨?_, hmono.readable.reminders, hmono.readable.epochs⟩,
        hmono.members⟩
      intro j tree hj
      rcases getElem?_insert_cases hj with ⟨-, rfl⟩ | hj
      · exact hdoc
      · exact hmono.readable.taints j tree hj
  | reminders =>
      refine ⟨⟨hmono.readable.taints, ?_, hmono.readable.epochs⟩,
        hmono.members⟩
      intro j tree hj
      rcases getElem?_insert_cases hj with ⟨-, rfl⟩ | hj
      · exact hdoc
      · exact hmono.readable.reminders j tree hj
  | epochs =>
      refine ⟨⟨hmono.readable.taints, hmono.readable.reminders, ?_⟩,
        hmono.members⟩
      intro j tree hj
      rcases getElem?_insert_cases hj with ⟨-, rfl⟩ | hj
      · exact hdoc
      · exact hmono.readable.epochs j tree hj
  | members => exact hmono

omit [Digest Id] in
theorem kind_ne_members (doc : RecordDoc Id) : doc.kind ≠ .members := by
  cases doc <;> simp [RecordDoc.kind]

theorem sections_addMembers (x : Records Id) (k : String) (ids : IdSet Id) :
    Function.update (x.sections codec) .members
      ((x.sections codec .members).insert k (idList codec ids.toList).id) =
      ({ x with members := x.members.insert k ids } : Records Id).sections
        codec := by
  funext j
  cases j with
  | members =>
      simp only [Function.update_self, Records.sections]
      apply Std.ExtTreeMap.ext_getElem?
      intro i
      rw [Std.ExtTreeMap.getElem?_insert, Std.ExtTreeMap.getElem?_map,
        Std.ExtTreeMap.getElem?_map, Std.ExtTreeMap.getElem?_insert]
      by_cases hi : compare k i = .eq
      · simp only [if_pos hi, Option.map_some]
      · simp only [if_neg hi]
  | taints => rfl
  | reminders => rfl
  | epochs => rfl

theorem held_insert_members {k : String} {ids : IdSet Id}
    (h : x.Held codec s) (hids : HoldsIds codec s ids.toList) :
    ({ x with members := x.members.insert k ids } : Records Id).Held codec
      s where
  readable := ⟨h.readable.taints, h.readable.reminders, h.readable.epochs⟩
  members j l hj := by
    rcases getElem?_insert_cases hj with ⟨-, rfl⟩ | hj
    · exact hids
    · exact h.members j l hj

theorem sortedIds_eq (l : List Id) :
    sortedIds l = (Std.ExtTreeSet.ofList l compare : IdSet Id).toList := rfl

theorem row_record (x : Records Id) (s : ObjectStore Id) (k : String)
    (doc : RecordDoc Id) :
    Edit.row codec (x.sections codec, s) (.record k doc) =
      .ok ((x.edit codec (.record k doc)).sections codec,
        (doc.put codec s).2) := by
  simp only [Edit.row, Edit.insert, Records.edit, RecordDoc.put_fst,
    sections_put x (kind_ne_members doc)]

theorem unionIds_ofList_of_all {ids : IdSet Id} {commits : List Id}
    (hall : (commits.all fun c => decide (c ∈ ids.toList)) = true) :
    unionIds ids (Std.ExtTreeSet.ofList commits compare) = ids := by
  apply Std.ExtTreeSet.ext_mem
  intro c
  rw [mem_unionIds, Std.ExtTreeSet.mem_ofList, List.contains_iff_mem]
  have hin := List.all_eq_true.mp hall c
  simp only [decide_eq_true_eq, Std.ExtTreeSet.mem_toList] at hin
  exact ⟨fun hc => hc.elim id hin, Or.inl⟩

theorem sortedIds_append (ids : IdSet Id) (commits : List Id) :
    sortedIds (ids.toList ++ commits) =
      (unionIds ids (Std.ExtTreeSet.ofList commits compare)).toList := by
  rw [sortedIds_eq]
  congr 1
  apply Std.ExtTreeSet.ext_mem
  intro c
  rw [mem_unionIds]
  simp only [Std.ExtTreeSet.mem_ofList, List.contains_iff_mem,
    List.mem_append, Std.ExtTreeSet.mem_toList]

omit [Digest Id] in
theorem insert_getElem?_self {ν : Type} {m : BTreeMap String ν} {k : String}
    {v : ν} (h : m[k]? = some v) : m.insert k v = m := by
  apply Std.ExtTreeMap.ext_getElem?
  intro j
  rw [Std.ExtTreeMap.getElem?_insert]
  by_cases hj : k = j
  · subst hj
    simp [h]
  · simp [hj]

theorem row_members {x : Records Id} {s : ObjectStore Id}
    (h : ∀ (k : String) ids, x.members[k]? = some ids →
      HoldsIds codec s ids.toList) (k : String) (commits : List Id) :
    ∃ t, Edit.row codec (x.sections codec, s) (.members k commits) =
        .ok ((x.edit codec (.members k commits)).sections codec, t) ∧ s ≤ t ∧
      HoldsIds codec t (unionIds (x.members[k]?.getD ∅)
        (Std.ExtTreeSet.ofList commits compare)).toList := by
  simp only [Edit.row, Edit.addMembers, Records.edit, Records.addMembers]
  cases hk : x.members[k]? with
  | none =>
      have hlookup : (x.sections codec .members)[k]? = none := by
        simp only [Records.sections, Std.ExtTreeMap.getElem?_map, hk,
          Option.map_none]
      have hunion : unionIds ((none : Option (IdSet Id)).getD ∅)
          (Std.ExtTreeSet.ofList commits compare) =
          Std.ExtTreeSet.ofList commits compare := by
        apply Std.ExtTreeSet.ext_mem
        intro c
        simp [mem_unionIds]
      refine ⟨(putIds codec s (sortedIds commits)).2, ?_, le_putIds _ _, ?_⟩
      · simp only [hlookup, Edit.insert, hunion, putIds, sortedIds_eq,
          sections_addMembers]
      · rw [hunion]
        exact holdsIds_putIds codec s (sortedIds commits)
  | some ids =>
      have hlookup : (x.sections codec .members)[k]? =
          some (idList codec ids.toList).id := by
        simp only [Records.sections, Std.ExtTreeMap.getElem?_map, hk,
          Option.map_some]
      have hload := loadIds_of_holds (h k ids hk)
      simp only [hlookup, hload, Except.ok_bind, Option.getD_some]
      by_cases hall : (commits.all fun c =>
          decide (c ∈ ids.toList)) = true
      · rw [if_pos hall, unionIds_ofList_of_all hall, insert_getElem?_self hk]
        exact ⟨s, rfl, le_rfl, h k ids hk⟩
      · rw [if_neg hall]
        refine ⟨(putIds codec s (sortedIds (ids.toList ++ commits))).2, ?_,
          le_putIds _ _, ?_⟩
        · simp only [Edit.insert, putIds, sortedIds_append,
            sections_addMembers]
        · rw [← sortedIds_append]
          exact holdsIds_putIds codec s _

theorem row_eq_ok (h : x.Held codec s) {row : EditRow Id}
    (hr : row.Reads codec) :
    ∃ t, Edit.row codec (x.sections codec, s) row =
        .ok ((x.edit codec row).sections codec, t) ∧ s ≤ t ∧
      (x.edit codec row).Held codec t := by
  match row with
  | .record k doc =>
      exact ⟨(doc.put codec s).2, row_record x s k doc, doc.le_put s,
        held_put h hr⟩
  | .members k commits =>
      obtain ⟨t, hrow, hle, hids⟩ := row_members h.members k commits
      exact ⟨t, hrow, hle, held_insert_members (held_mono hle h) hids⟩

theorem rows_eq_ok {rows : List (EditRow Id)} (h : x.Held codec s)
    (hr : ∀ row ∈ rows, row.Reads codec) :
    ∃ t, rows.foldlM (Edit.row codec) (x.sections codec, s) =
        .ok ((rows.foldl (Records.edit codec) x).sections codec, t) ∧ s ≤ t ∧
      (rows.foldl (Records.edit codec) x).Held codec t := by
  induction rows generalizing x s with
  | nil => exact ⟨s, rfl, le_rfl, h⟩
  | cons row rows ih =>
      obtain ⟨t, hrow, hle, hheld⟩ := row_eq_ok h (hr row (by simp))
      obtain ⟨u, hrows, hle', hheld'⟩ :=
        ih hheld fun r hmem => hr r (by simp [hmem])
      refine ⟨u, ?_, hle.trans hle', hheld'⟩
      rw [List.foldlM_cons, hrow, Except.ok_bind, hrows, List.foldl_cons]

theorem represents_write (h : x.Held codec s) :
    Represents codec (Sections.write s (x.sections codec)).2 (x.root codec)
      x := by
  have hmono := held_mono (ObjectStore.le_putAll s
    (sectionObjects (x.sections codec))) h
  refine ⟨rfl, ?_, hmono.readable, hmono.members⟩
  intro o ho
  exact AddressedMap.get_putAll_of_mem Object.id_injective s ho

end Edits

/-! ## The tree after a write -/

theorem reads_stageFromTables (tables : Tables codec) (now : Instant codec)
    (stage : Stage Id) :
    ∀ row ∈ stageFromTables tables now stage, row.Reads codec := by
  intro row hrow
  cases stage with
  | taint id =>
      simp only [stageFromTables] at hrow
      cases htaint : tables.taint? id with
      | none => simp [htaint] at hrow
      | some r =>
          simp only [htaint, List.mem_singleton] at hrow
          subst hrow
          intro s
          exact ⟨_, loadTaint_put s r⟩
  | reminder id =>
      simp only [stageFromTables] at hrow
      cases hreminder : tables.reminder? id with
      | none =>
          simp only [hreminder, List.mem_singleton] at hrow
          subst hrow
          intro s
          exact ⟨_, loadReminder_put_deleted s now⟩
      | some r =>
          simp only [hreminder, List.mem_singleton] at hrow
          subst hrow
          intro s
          exact ⟨_, loadReminder_put s r now⟩
  | epoch id =>
      simp only [stageFromTables] at hrow
      cases hepoch : tables.epoch? id with
      | none => simp [hepoch] at hrow
      | some r =>
          simp only [hepoch, List.mem_cons] at hrow
          rcases hrow with rfl | hrow
          · intro s
            exact ⟨_, loadEpoch_put s r⟩
          · split at hrow
            · simp at hrow
            · rw [List.mem_singleton] at hrow
              subst hrow
              trivial
  | member epoch commit =>
      simp only [stageFromTables, List.mem_singleton] at hrow
      subst hrow
      trivial

/-- The records after a write. -/
def Records.mirrored (x : Records Id) (tables : Tables codec)
    (now : Instant codec) (stage : Stage Id) : Records Id :=
  (stageFromTables tables now stage).foldl (Records.edit codec) x

/-- Mirroring a write into a well-formed tree succeeds. -/
theorem mirror_eq_ok {s : ObjectStore Id} {a : Id} {x : Records Id}
    (ha : Represents codec s a x) (tables : Tables codec)
    (now : Instant codec) (stage : Stage Id) :
    ∃ t, mirror s a tables now stage =
        .ok ((x.mirrored tables now stage).root codec, t) ∧ s ≤ t ∧
      Represents codec t ((x.mirrored tables now stage).root codec)
        (x.mirrored tables now stage) := by
  obtain ⟨t, hrows, hle, hheld⟩ := rows_eq_ok ⟨ha.readable, ha.members⟩
    (reads_stageFromTables tables now stage)
  have hload : Sections.load s a = .ok (x.sections codec) := by
    rw [ha.root_eq]
    exact load_of_objects ha.objects
  refine ⟨_, ?_, hle.trans (ObjectStore.le_putAll t _),
    represents_write hheld⟩
  simp only [mirror, hload, Except.ok_bind, hrows]
  rfl

end Control

end AgentStateGraph
