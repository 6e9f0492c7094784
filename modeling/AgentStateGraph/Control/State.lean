import AgentStateGraph.Control.Mirror

/-!
# The control state

Everything the control ref holds, decoded: the records themselves instead of
the parts of them that a merge reads.  A written state reads back as it was
and its tree is the same whatever edits led to it, with one exception: the
time of a reminder's entry is written by `to_rfc3339`, which gives a year after
9999 its sign, and read by `parse_from_rfc3339`, which takes four digits.
-/

namespace AgentStateGraph

variable {Id : Type} [Digest Id]

namespace Control

/-! ## Texts -/

/-- The first instant of the year 0 and of the year 10000, in nanoseconds. -/
def yearZero : ℤ := -62167219200 * 1000000000

def yearTenThousand : ℤ := 253402300800 * 1000000000

/-- A time whose year has four digits. -/
def InYears (t : ℤ) : Prop := yearZero ≤ t ∧ t < yearTenThousand

instance (t : ℤ) : Decidable (InYears t) :=
  inferInstanceAs (Decidable (_ ∧ _))

/-- The derived serializer of a record type. -/
structure Serde (α : Type) where
  toValue : α → Json
  fromValue : Json → Except String α
  canonical : ∀ a, (toValue a).isCanonical = true
  fromValue_toValue : ∀ a, fromValue (toValue a) = .ok a

/-- The texts of whole records: a taint, a reminder, an epoch without its
commit lists, and a time. -/
structure StateCodec (Id T R E : Type) extends ControlCodec Id where
  taints : Serde T
  taintId : T → String
  reminders : Serde R
  reminderId : R → String
  epochs : Serde E
  epochId : E → String
  /-- `DateTime::to_rfc3339`. -/
  timeText : ℤ → String
  time_timeText : ∀ t, InYears t → time (timeText t) = .ok t
  /-- RFC 3339 has no other years. -/
  time_beyond : ∀ t, ¬ InYears t → ∃ e, time (timeText t) = .error e

/-! ## States -/

/-- `ReminderEntry`, with the whole reminder. -/
inductive Entry (R : Type) where
  | live (reminder : R) (editedAt : ℤ)
  | deleted (deletedAt : ℤ)
deriving DecidableEq

/-- When the version was made. -/
def Entry.time {R : Type} : Entry R → ℤ
  | .live _ editedAt => editedAt
  | .deleted deletedAt => deletedAt

/-- An epoch with its `sealed_commits`; its `commits` are members. -/
structure EpochState (E Id : Type) where
  record : E
  sealedCommits : List Id

structure ControlState (Id T R E : Type) [Digest Id] where
  taints : BTreeMap String T
  reminders : BTreeMap String (Entry R)
  epochs : BTreeMap String (EpochState E Id)
  members : BTreeMap String (IdSet Id)

variable {T R E : Type}

/-- Taints and epochs are kept under their own ids, and the commits of a seal
are sorted. -/
structure ControlState.Keyed (codec : StateCodec Id T R E)
    (x : ControlState Id T R E) : Prop where
  taints : ∀ (k : String) t, x.taints[k]? = some t → codec.taintId t = k
  epochs : ∀ (k : String) e, x.epochs[k]? = some e →
    codec.epochId e.record = k
  sorted : ∀ (k : String) e, x.epochs[k]? = some e →
    sortedIds e.sealedCommits = e.sealedCommits

/-- A control state as the control ref lays it out. -/
abbrev KeyedState (codec : StateCodec Id T R E) :=
  { x : ControlState Id T R E // x.Keyed codec }

/-- Every entry of a reminder was made in a year of four digits. -/
def ControlState.EntriesInYears (x : ControlState Id T R E) : Prop :=
  ∀ (k : String) e, x.reminders[k]? = some e → InYears e.time

/-! ## Reading -/

section Read

variable (codec : StateCodec Id T R E) (store : ObjectStore Id)

def loadEntry (id : Id) : Except (ControlError Id) (Entry R) := do
  let doc ← loadMap store id
  match doc["deleted_at"]? with
  | some deletedAt => do
      let time ← loadTime codec.toControlCodec store deletedAt
      .ok (.deleted time)
  | none => do
      let record ← field "reminder" id doc "reminder"
      let reminder ← loadJson codec.reminders.fromValue store record
      let edited ← field "reminder" id doc "edited_at"
      let time ← loadTime codec.toControlCodec store edited
      .ok (.live reminder time)

def loadEpochState (id : Id) :
    Except (ControlError Id) (EpochState E Id) := do
  let doc ← loadMap store id
  let record ← field "epoch" id doc "record"
  let epoch ← loadJson codec.epochs.fromValue store record
  let list ← field "epoch" id doc "sealed"
  let sealedIds ← loadIds codec.toControlCodec store list
  .ok ⟨epoch, sealedIds⟩

def loadMembers (id : Id) : Except (ControlError Id) (IdSet Id) := do
  let ids ← loadIds codec.toControlCodec store id
  .ok (Std.ExtTreeSet.ofList ids compare)

end Read

/-- Read every record of a section. -/
def readSection {β : Type} (load : Id → Except (ControlError Id) β)
    (entries : BTreeMap String Id) :
    Except (ControlError Id) (BTreeMap String β) := do
  let records ← entries.toList.mapM fun e => do
    let record ← load e.2
    .ok (e.1, record)
  .ok (Std.ExtTreeMap.ofList records compare)

/-- Read the whole control tree at `root`. -/
def read (codec : StateCodec Id T R E) (store : ObjectStore Id) (root : Id) :
    Except (ControlError Id) (ControlState Id T R E) := do
  let sections ← Sections.load store root
  let taints ←
    readSection (loadJson codec.taints.fromValue store) (sections .taints)
  let reminders ← readSection (loadEntry codec store) (sections .reminders)
  let epochs ← readSection (loadEpochState codec store) (sections .epochs)
  let members ← readSection (loadMembers codec store) (sections .members)
  .ok ⟨taints, reminders, epochs, members⟩

/-! ## Writing -/

/-- A change of an edit. -/
inductive Change (Id T R E : Type) where
  | putTaint (taint : T)
  | putReminderEntry (id : String) (entry : Entry R)
  | putEpoch (epoch : EpochState E Id)
  | addMembers (epoch : String) (commits : List Id)

namespace Change

variable (codec : StateCodec Id T R E)

def putReminder (reminder : R) (editedAt : ℤ) : Change Id T R E :=
  .putReminderEntry (codec.reminderId reminder) (.live reminder editedAt)

def deleteReminder (id : String) (deletedAt : ℤ) : Change Id T R E :=
  .putReminderEntry id (.deleted deletedAt)

/-- What is stored for an entry. -/
def entryDoc : Entry R → RecordDoc Id
  | .live reminder editedAt =>
      .reminder (codec.reminders.toValue reminder) (codec.timeText editedAt)
  | .deleted deletedAt => .deletedReminder (codec.timeText deletedAt)

def row : Change Id T R E → EditRow Id
  | .putTaint taint =>
      .record (codec.taintId taint) (.taint (codec.taints.toValue taint))
  | .putReminderEntry id entry => .record id (entryDoc codec entry)
  | .putEpoch epoch =>
      .record (codec.epochId epoch.record)
        (.epoch (codec.epochs.toValue epoch.record) epoch.sealedCommits)
  | .addMembers epoch commits => .members epoch commits

end Change

/-- The puts that `write` makes. -/
def ControlState.changes (x : ControlState Id T R E) :
    List (Change Id T R E) :=
  x.taints.toList.map (fun e => .putTaint e.2) ++
    x.reminders.toList.map (fun e => .putReminderEntry e.1 e.2) ++
    x.epochs.toList.map (fun e => .putEpoch e.2) ++
    x.members.toList.map (fun e => .addMembers e.1 e.2.toList)

/-- Write a state as a control tree, returning its root. -/
def write (codec : StateCodec Id T R E) (store : ObjectStore Id)
    (x : ControlState Id T R E) :
    Except (ControlError Id) (Id × ObjectStore Id) :=
  candidate codec.toControlCodec store (x.changes.map (Change.row codec))

/-- Open the control tree at `root`, make some changes and write it. -/
def edit (codec : StateCodec Id T R E) (tree : Id × ObjectStore Id)
    (changes : List (Change Id T R E)) :
    Except (ControlError Id) (Id × ObjectStore Id) := do
  let sections ← Sections.load tree.2 tree.1
  let (sections, store) ← (changes.map (Change.row codec)).foldlM
    (Edit.row codec.toControlCodec) (sections, tree.2)
  .ok (Sections.write store sections)

/-- What a change means for the state. -/
def Change.apply (codec : StateCodec Id T R E) (x : ControlState Id T R E) :
    Change Id T R E → ControlState Id T R E
  | .putTaint taint =>
      { x with taints := x.taints.insert (codec.taintId taint) taint }
  | .putReminderEntry id entry =>
      { x with reminders := x.reminders.insert id entry }
  | .putEpoch epoch =>
      { x with
        epochs := x.epochs.insert (codec.epochId epoch.record)
          { epoch with sealedCommits := sortedIds epoch.sealedCommits } }
  | .addMembers epoch commits =>
      { x with
        members := x.members.insert epoch
          (unionIds (x.members[epoch]?.getD ∅)
            (Std.ExtTreeSet.ofList commits compare)) }

/-! ## The records of a state -/

variable {codec : StateCodec Id T R E} {s t : ObjectStore Id}
  {x : ControlState Id T R E}

def taintDoc (codec : StateCodec Id T R E) (taint : T) : RecordDoc Id :=
  .taint (codec.taints.toValue taint)

def epochDoc (codec : StateCodec Id T R E) (e : EpochState E Id) :
    RecordDoc Id :=
  .epoch (codec.epochs.toValue e.record) e.sealedCommits

/-- The records' trees. -/
def ControlState.records (codec : StateCodec Id T R E)
    (x : ControlState Id T R E) : Records Id where
  taints := x.taints.map fun _ a => (taintDoc codec a).tree codec.toControlCodec
  reminders := x.reminders.map fun _ a =>
    (Change.entryDoc codec a).tree codec.toControlCodec
  epochs := x.epochs.map fun _ a => (epochDoc codec a).tree codec.toControlCodec
  members := x.members

def ControlState.empty : ControlState Id T R E := ⟨∅, ∅, ∅, ∅⟩

theorem map_insert {α β : Type} (m : BTreeMap String α) (k : String) (a : α)
    (f : α → β) :
    (m.insert k a).map (fun _ b => f b) =
      (m.map fun _ b => f b).insert k (f a) := by
  apply Std.ExtTreeMap.ext_getElem?
  intro j
  rw [Std.ExtTreeMap.getElem?_map, Std.ExtTreeMap.getElem?_insert,
    Std.ExtTreeMap.getElem?_insert, Std.ExtTreeMap.getElem?_map]
  by_cases hj : compare k j = .eq
  · simp only [if_pos hj, Option.map_some]
  · simp only [if_neg hj]

theorem sortedIds_sortedIds (l : List Id) :
    sortedIds (sortedIds l) = sortedIds l := by
  rw [sortedIds_eq, sortedIds_eq]
  congr 1
  apply Std.ExtTreeSet.ext_mem
  intro c
  rw [Std.ExtTreeSet.mem_ofList, List.contains_iff_mem,
    Std.ExtTreeSet.mem_toList]

theorem tree_epochDoc_sorted (e : EpochState E Id) :
    (epochDoc codec { e with sealedCommits := sortedIds e.sealedCommits }).tree
        codec.toControlCodec =
      (epochDoc codec e).tree codec.toControlCodec := by
  simp only [epochDoc, RecordDoc.tree, RecordDoc.put, sortedIds_sortedIds]

theorem records_apply (x : ControlState Id T R E) (c : Change Id T R E) :
    (c.apply codec x).records codec =
      (x.records codec).edit codec.toControlCodec (c.row codec) := by
  cases c with
  | putTaint a =>
      simp only [Change.apply, ControlState.records, Change.row, Records.edit,
        Records.put, RecordDoc.kind, map_insert]
      rfl
  | putReminderEntry id e =>
      cases e <;>
        simp only [Change.apply, ControlState.records, Change.row,
          Change.entryDoc, Records.edit, Records.put, RecordDoc.kind, map_insert]
  | putEpoch e =>
      simp only [Change.apply, ControlState.records, Change.row, Records.edit,
        Records.put, RecordDoc.kind, map_insert, tree_epochDoc_sorted]
      rfl
  | addMembers epoch commits => rfl

/-! ## What a stored record reads as -/

/-- What the time of an entry reads as. -/
def readBack (codec : StateCodec Id T R E) :
    Entry R → Except (ControlError Id) (Entry R)
  | .live reminder editedAt => do
      let time ← liftText (codec.time (codec.timeText editedAt))
      .ok (.live reminder time)
  | .deleted deletedAt => do
      let time ← liftText (codec.time (codec.timeText deletedAt))
      .ok (.deleted time)

omit [Digest Id] in
theorem readBack_of_inYears {e : Entry R} (h : InYears e.time) :
    readBack codec e = .ok e := by
  cases e with
  | live reminder editedAt =>
      have htime := codec.time_timeText editedAt h
      simp only [readBack, htime, liftText, Except.ok_bind]
  | deleted deletedAt =>
      have htime := codec.time_timeText deletedAt h
      simp only [readBack, htime, liftText, Except.ok_bind]

omit [Digest Id] in
theorem readBack_ne_ok {e f : Entry R} (h : ¬InYears e.time) :
    readBack codec e ≠ .ok f := by
  cases e with
  | live reminder editedAt =>
      obtain ⟨msg, htime⟩ := codec.time_beyond editedAt h
      simp [readBack, htime, liftText]
  | deleted deletedAt =>
      obtain ⟨msg, htime⟩ := codec.time_beyond deletedAt h
      simp [readBack, htime, liftText]

theorem loadTime_string {text : String}
    (hget : t.get (Object.string text : Object Id).id =
      some (Object.string text)) :
    loadTime codec.toControlCodec t (Object.string text : Object Id).id =
      liftText (codec.time text) := by
  simp only [loadTime, loadString, load, hget, Except.ok_bind]
  simp only [Object.string, Except.ok_bind]

theorem loadEntry_put (s : ObjectStore Id) (e : Entry R)
    (hle : ((Change.entryDoc codec e).put codec.toControlCodec s).2 ≤ t) :
    loadEntry codec t
      ((Change.entryDoc codec e).tree codec.toControlCodec) =
      readBack codec e := by
  rw [← RecordDoc.put_fst s]
  cases e with
  | live reminder editedAt =>
      simp only [Change.entryDoc, RecordDoc.put, putMap, putString] at hle ⊢
      have hdoc := loadMap_mono hle (loadMap_putMap _ _)
      have htext := hle _ _ (ObjectStore.le_put _ _ _ _
        (AddressedMap.get_put_self _
          (Object.string (codec.timeText editedAt) : Object Id)))
      have hrecord := loadJson_jsonToTree (s := s)
        (codec.reminders.canonical reminder)
        (codec.reminders.fromValue_toValue reminder)
        (((ObjectStore.le_put _ _).trans (ObjectStore.le_put _ _)).trans hle)
      simp only [loadEntry, hdoc, Except.ok_bind, field,
        Std.ExtTreeMap.getElem?_insert, compare_eq_iff_eq, String.reduceEq,
        if_true, if_false, Std.ExtTreeMap.getElem?_empty, hrecord,
        loadTime_string htext, readBack]
  | deleted deletedAt =>
      simp only [Change.entryDoc, RecordDoc.put, putMap, putString] at hle ⊢
      have hdoc := loadMap_mono hle (loadMap_putMap _ _)
      have htext := hle _ _ (ObjectStore.le_put _ _ _ _
        (AddressedMap.get_put_self _
          (Object.string (codec.timeText deletedAt) : Object Id)))
      simp only [loadEntry, hdoc, Except.ok_bind,
        Std.ExtTreeMap.getElem?_insert_self, loadTime_string htext, readBack]

theorem loadTaint_record (s : ObjectStore Id) (a : T)
    (hle : ((taintDoc codec a).put codec.toControlCodec s).2 ≤ t) :
    loadJson codec.taints.fromValue t
      ((taintDoc codec a).tree codec.toControlCodec) = .ok a := by
  rw [← RecordDoc.put_fst s]
  exact loadJson_jsonToTree (codec.taints.canonical a)
    (codec.taints.fromValue_toValue a) hle

theorem loadEpochState_put (s : ObjectStore Id) (e : EpochState E Id)
    (hle : ((epochDoc codec e).put codec.toControlCodec s).2 ≤ t) :
    loadEpochState codec t ((epochDoc codec e).tree codec.toControlCodec) =
      .ok { e with sealedCommits := sortedIds e.sealedCommits } := by
  rw [← RecordDoc.put_fst s]
  simp only [epochDoc, RecordDoc.put, putMap] at hle ⊢
  have hdoc := loadMap_mono hle (loadMap_putMap _ _)
  have hrecord := loadJson_jsonToTree (s := s)
    (codec.epochs.canonical e.record)
    (codec.epochs.fromValue_toValue e.record)
    (((le_putIds _ _).trans (ObjectStore.le_put _ _)).trans hle)
  have hids := loadIds_mono hle (loadIds_of_holds
    (holdsIds_mono (ObjectStore.le_put _ _)
      (holdsIds_putIds codec.toControlCodec
        (jsonToTree s (codec.epochs.toValue e.record)).2
        (sortedIds e.sealedCommits))))
  have hlist : (putIds codec.toControlCodec
      (jsonToTree s (codec.epochs.toValue e.record)).2
      (sortedIds e.sealedCommits)).1 =
      (idList codec.toControlCodec (sortedIds e.sealedCommits)).id := rfl
  simp only [loadEpochState, hdoc, Except.ok_bind, field,
    Std.ExtTreeMap.getElem?_insert, compare_eq_iff_eq, String.reduceEq,
    if_true, if_false, hrecord]
  rw [hlist, hids, Except.ok_bind]

/-! ## States in a store -/

/-- The store has the records of a state, and keeps them as it grows. -/
structure ControlState.Stored (codec : StateCodec Id T R E)
    (s : ObjectStore Id) (x : ControlState Id T R E) : Prop where
  taints : ∀ (k : String) a, x.taints[k]? = some a → ∀ t, s ≤ t →
    loadJson codec.taints.fromValue t
      ((taintDoc codec a).tree codec.toControlCodec) = .ok a
  reminders : ∀ (k : String) a, x.reminders[k]? = some a → ∀ t, s ≤ t →
    loadEntry codec t
      ((Change.entryDoc codec a).tree codec.toControlCodec) = readBack codec a
  epochs : ∀ (k : String) a, x.epochs[k]? = some a → ∀ t, s ≤ t →
    loadEpochState codec t ((epochDoc codec a).tree codec.toControlCodec) =
      .ok { a with sealedCommits := sortedIds a.sealedCommits }
  members : ∀ (k : String) ids, x.members[k]? = some ids →
    HoldsIds codec.toControlCodec s ids.toList

theorem stored_empty : (ControlState.empty : ControlState Id T R E).Stored
    codec s := by
  constructor <;> intro k a h <;> simp [ControlState.empty] at h

theorem ControlState.Stored.mono (h : x.Stored codec s) (hle : s ≤ t) :
    x.Stored codec t where
  taints k a ha u hu := h.taints k a ha u (hle.trans hu)
  reminders k a ha u hu := h.reminders k a ha u (hle.trans hu)
  epochs k a ha u hu := h.epochs k a ha u (hle.trans hu)
  members k ids hids := holdsIds_mono hle (h.members k ids hids)

theorem change_eq_ok (h : x.Stored codec s) (c : Change Id T R E) :
    ∃ t, Edit.row codec.toControlCodec
        ((x.records codec).sections codec.toControlCodec, s) (c.row codec) =
        .ok (((c.apply codec x).records codec).sections codec.toControlCodec,
          t) ∧ s ≤ t ∧ (c.apply codec x).Stored codec t := by
  cases c with
  | putTaint a =>
      have hle : s ≤ ((taintDoc codec a).put codec.toControlCodec s).2 :=
        (taintDoc codec a).le_put s
      have hmono := h.mono hle
      refine ⟨((taintDoc codec a).put codec.toControlCodec s).2, ?_, hle,
        ⟨?_, hmono.reminders, hmono.epochs, hmono.members⟩⟩
      · rw [records_apply]
        exact row_record _ _ _ _
      · intro k b hb t ht
        rcases getElem?_insert_cases hb with ⟨-, rfl⟩ | hb
        · exact loadTaint_record s _ ht
        · exact hmono.taints k b hb t ht
  | putReminderEntry id e =>
      have hle : s ≤ ((Change.entryDoc codec e).put codec.toControlCodec s).2 :=
        (Change.entryDoc codec e).le_put s
      have hmono := h.mono hle
      refine ⟨((Change.entryDoc codec e).put codec.toControlCodec s).2, ?_, hle,
        ⟨hmono.taints, ?_, hmono.epochs, hmono.members⟩⟩
      · rw [records_apply]
        exact row_record _ _ _ _
      · intro k b hb t ht
        rcases getElem?_insert_cases hb with ⟨-, rfl⟩ | hb
        · exact loadEntry_put s _ ht
        · exact hmono.reminders k b hb t ht
  | putEpoch e =>
      have hle : s ≤ ((epochDoc codec e).put codec.toControlCodec s).2 :=
        (epochDoc codec e).le_put s
      have hmono := h.mono hle
      refine ⟨((epochDoc codec e).put codec.toControlCodec s).2, ?_, hle,
        ⟨hmono.taints, hmono.reminders, ?_, hmono.members⟩⟩
      · rw [records_apply]
        exact row_record _ _ _ _
      · intro k b hb t ht
        rcases getElem?_insert_cases hb with ⟨-, rfl⟩ | hb
        · rw [tree_epochDoc_sorted, loadEpochState_put s e ht]
          simp only [sortedIds_sortedIds]
        · exact hmono.epochs k b hb t ht
  | addMembers epoch commits =>
      obtain ⟨t, hrow, hle, hids⟩ := row_members
        (x := x.records codec) h.members epoch commits
      have hmono := h.mono hle
      refine ⟨t, ?_, hle,
        ⟨hmono.taints, hmono.reminders, hmono.epochs, ?_⟩⟩
      · rw [records_apply]
        exact hrow
      · intro k ids hk
        rcases getElem?_insert_cases hk with ⟨-, rfl⟩ | hk
        · exact hids
        · exact hmono.members k ids hk

theorem changes_eq_ok (h : x.Stored codec s) (cs : List (Change Id T R E)) :
    ∃ t, (cs.map (Change.row codec)).foldlM (Edit.row codec.toControlCodec)
        ((x.records codec).sections codec.toControlCodec, s) =
        .ok (((cs.foldl (Change.apply codec) x).records codec).sections
          codec.toControlCodec, t) ∧ s ≤ t ∧
      (cs.foldl (Change.apply codec) x).Stored codec t := by
  induction cs generalizing x s with
  | nil => exact ⟨s, rfl, le_rfl, h⟩
  | cons c cs ih =>
      obtain ⟨t, hrow, hle, hstored⟩ := change_eq_ok h c
      obtain ⟨u, hrows, hle', hstored'⟩ := ih hstored
      refine ⟨u, ?_, hle.trans hle', hstored'⟩
      rw [List.map_cons, List.foldlM_cons, hrow, Except.ok_bind, hrows,
        List.foldl_cons]

/-- The root of the tree of a state. -/
def ControlState.root (codec : StateCodec Id T R E)
    (x : ControlState Id T R E) : Id :=
  (x.records codec).root codec.toControlCodec

/-- The store holds the tree of a state. -/
structure ControlState.Held (codec : StateCodec Id T R E)
    (s : ObjectStore Id) (x : ControlState Id T R E) : Prop where
  stored : x.Stored codec s
  objects : ∀ o ∈ sectionObjects
    ((x.records codec).sections codec.toControlCodec), s.get o.id = some o

theorem ControlState.Held.mono (h : x.Held codec s) (hle : s ≤ t) :
    x.Held codec t where
  stored := h.stored.mono hle
  objects o ho := hle _ _ (h.objects o ho)

theorem held_write (h : x.Stored codec s) :
    (Sections.write s ((x.records codec).sections codec.toControlCodec)).1 =
        x.root codec ∧
      x.Held codec (Sections.write s
        ((x.records codec).sections codec.toControlCodec)).2 := by
  refine ⟨rfl, h.mono (ObjectStore.le_putAll s _), ?_⟩
  intro o ho
  exact AddressedMap.get_putAll_of_mem Object.id_injective s ho

theorem candidate_eq_ok (s : ObjectStore Id) (cs : List (Change Id T R E)) :
    ∃ t, candidate codec.toControlCodec s (cs.map (Change.row codec)) =
        .ok ((cs.foldl (Change.apply codec) .empty).root codec, t) ∧
      (cs.foldl (Change.apply codec) .empty).Held codec t := by
  obtain ⟨t, hrows, -, hstored⟩ :=
    changes_eq_ok (stored_empty :
      (ControlState.empty : ControlState Id T R E).Stored codec s) cs
  have hempty : ((ControlState.empty : ControlState Id T R E).records
      codec).sections codec.toControlCodec = fun _ => ∅ := by
    funext kind
    cases kind <;>
      · apply Std.ExtTreeMap.ext_getElem?
        intro k
        simp [ControlState.records, ControlState.empty, Records.sections]
  rw [hempty] at hrows
  refine ⟨_, ?_, (held_write hstored).2⟩
  simp only [candidate, hrows, Except.ok_bind]
  rfl

theorem edit_eq_ok (h : x.Held codec s) (cs : List (Change Id T R E)) :
    ∃ t, edit codec (x.root codec, s) cs =
        .ok ((cs.foldl (Change.apply codec) x).root codec, t) ∧
      (cs.foldl (Change.apply codec) x).Held codec t := by
  obtain ⟨t, hrows, -, hstored⟩ := changes_eq_ok h.stored cs
  refine ⟨_, ?_, (held_write hstored).2⟩
  have hload := load_of_objects h.objects
  simp only [edit, ControlState.root, Records.root, hload, Except.ok_bind,
    hrows]
  rfl

theorem edits_eq_ok (h : x.Held codec s)
    (edits : List (List (Change Id T R E))) :
    ∃ t, edits.foldlM (edit codec) (x.root codec, s) =
        .ok ((edits.flatten.foldl (Change.apply codec) x).root codec, t) := by
  induction edits generalizing x s with
  | nil => exact ⟨s, rfl⟩
  | cons cs edits ih =>
      obtain ⟨t, hedit, hheld⟩ := edit_eq_ok h cs
      obtain ⟨u, hedits⟩ := ih hheld
      refine ⟨u, ?_⟩
      rw [List.foldlM_cons, hedit, Except.ok_bind, hedits, List.flatten_cons,
        List.foldl_append]

/-! ## Writing every record of a state -/

theorem foldl_putTaint (y : ControlState Id T R E) (hx : x.Keyed codec)
    (hy : y.taints = ∅) :
    (x.taints.toList.map fun e => Change.putTaint e.2).foldl
      (Change.apply codec) y = { y with taints := x.taints } := by
  have hinsert : x.taints.toList.foldl
      (fun m e => m.insert (codec.taintId e.2) e.2) ∅ = x.taints := by
    conv_rhs => rw [← KeyedMap.foldl_insert_toList x.taints]
    apply List.foldl_ext
    intro m e he
    rw [hx.taints e.1 e.2
      (Std.ExtTreeMap.mem_toList_iff_getElem?_eq_some.mp he)]
  have hhom := @List.foldl_hom _ _ _
    (fun m => ({ y with taints := m } : ControlState Id T R E))
    (fun m (e : String × T) => m.insert (codec.taintId e.2) e.2)
    (fun y e => Change.apply codec y (.putTaint e.2))
    x.taints.toList ∅ (fun _ _ => rfl)
  rw [List.foldl_map]
  rw [hinsert] at hhom
  rw [← hhom, ← hy]

theorem foldl_putReminderEntry (y : ControlState Id T R E)
    (hy : y.reminders = ∅) :
    (x.reminders.toList.map fun e => Change.putReminderEntry e.1 e.2).foldl
      (Change.apply codec) y = { y with reminders := x.reminders } := by
  have hhom := @List.foldl_hom _ _ _
    (fun m => ({ y with reminders := m } : ControlState Id T R E))
    (fun m (e : String × Entry R) => m.insert e.1 e.2)
    (fun y e => Change.apply codec y (.putReminderEntry e.1 e.2))
    x.reminders.toList ∅ (fun _ _ => rfl)
  rw [List.foldl_map]
  rw [KeyedMap.foldl_insert_toList] at hhom
  rw [← hhom, ← hy]

theorem foldl_putEpoch (y : ControlState Id T R E) (hx : x.Keyed codec)
    (hy : y.epochs = ∅) :
    (x.epochs.toList.map fun e => Change.putEpoch e.2).foldl
      (Change.apply codec) y = { y with epochs := x.epochs } := by
  have hinsert : x.epochs.toList.foldl
      (fun m e => m.insert (codec.epochId e.2.record)
        { e.2 with sealedCommits := sortedIds e.2.sealedCommits }) ∅ =
      x.epochs := by
    conv_rhs => rw [← KeyedMap.foldl_insert_toList x.epochs]
    apply List.foldl_ext
    intro m e he
    have hget := Std.ExtTreeMap.mem_toList_iff_getElem?_eq_some.mp he
    rw [hx.epochs e.1 e.2 hget, hx.sorted e.1 e.2 hget]
  have hhom := @List.foldl_hom _ _ _
    (fun m => ({ y with epochs := m } : ControlState Id T R E))
    (fun m (e : String × EpochState E Id) =>
      m.insert (codec.epochId e.2.record)
        { e.2 with sealedCommits := sortedIds e.2.sealedCommits })
    (fun y e => Change.apply codec y (.putEpoch e.2))
    x.epochs.toList ∅ (fun _ _ => rfl)
  rw [List.foldl_map]
  rw [hinsert] at hhom
  rw [← hhom, ← hy]

theorem unionIds_empty_ofList (ids : IdSet Id) :
    unionIds ∅ (Std.ExtTreeSet.ofList ids.toList compare) = ids := by
  apply Std.ExtTreeSet.ext_mem
  intro c
  rw [mem_unionIds, Std.ExtTreeSet.mem_ofList, List.contains_iff_mem,
    Std.ExtTreeSet.mem_toList]
  simp

theorem foldl_insert_members (l : List (String × IdSet Id))
    (m : BTreeMap String (IdSet Id)) (hkeys : (l.map Prod.fst).Nodup)
    (hnew : ∀ e ∈ l, m[e.1]? = none) :
    l.foldl (fun m e => m.insert e.1 (unionIds (m[e.1]?.getD ∅)
        (Std.ExtTreeSet.ofList e.2.toList compare))) m =
      l.foldl (fun m e => m.insert e.1 e.2) m := by
  induction l generalizing m with
  | nil => rfl
  | cons e l ih =>
      rw [List.map_cons, List.nodup_cons] at hkeys
      have hnone : m[e.1]? = none := hnew e (by simp)
      simp only [List.foldl_cons, hnone, Option.getD_none,
        unionIds_empty_ofList]
      apply ih _ hkeys.2
      intro e' he'
      have hne : e.1 ≠ e'.1 := by
        intro heq
        exact hkeys.1 (heq ▸ List.mem_map_of_mem he')
      rw [Std.ExtTreeMap.getElem?_insert,
        if_neg (by rwa [compare_eq_iff_eq])]
      exact hnew e' (by simp [he'])

theorem foldl_addMembers (y : ControlState Id T R E) (hy : y.members = ∅) :
    (x.members.toList.map fun e =>
      Change.addMembers e.1 e.2.toList).foldl (Change.apply codec) y =
      { y with members := x.members } := by
  have hkeys : (x.members.toList.map Prod.fst).Nodup :=
    (KeyedMap.pairwise_keys_lt x.members).imp fun h => h.ne
  have hinsert := foldl_insert_members x.members.toList ∅ hkeys (by simp)
  rw [KeyedMap.foldl_insert_toList] at hinsert
  have hhom := @List.foldl_hom _ _ _
    (fun m => ({ y with members := m } : ControlState Id T R E))
    (fun m (e : String × IdSet Id) =>
      m.insert e.1 (unionIds (m[e.1]?.getD ∅)
        (Std.ExtTreeSet.ofList e.2.toList compare)))
    (fun y e => Change.apply codec y (.addMembers e.1 e.2.toList))
    x.members.toList ∅ (fun _ _ => rfl)
  rw [List.foldl_map]
  rw [hinsert] at hhom
  rw [← hhom, ← hy]

/-- The puts of a state make the state. -/
theorem foldl_changes (hx : x.Keyed codec) :
    x.changes.foldl (Change.apply codec) .empty = x := by
  rw [ControlState.changes, List.foldl_append, List.foldl_append,
    List.foldl_append, foldl_putTaint _ hx rfl, foldl_putReminderEntry _ rfl,
    foldl_putEpoch _ hx rfl, foldl_addMembers _ rfl]

theorem write_eq_ok (s : ObjectStore Id) (hx : x.Keyed codec) :
    ∃ t, write codec s x = .ok (x.root codec, t) ∧ x.Held codec t := by
  obtain ⟨t, hrun, hheld⟩ := @candidate_eq_ok Id _ T R E codec s x.changes
  rw [foldl_changes hx] at hrun hheld
  exact ⟨t, hrun, hheld⟩

/-! ## Reading it back -/

omit [Digest Id] in
theorem readSection_eq_ok {β : Type}
    {load : Id → Except (ControlError Id) β} {tree : β → Id}
    {records : BTreeMap String β}
    (h : ∀ (k : String) b, records[k]? = some b → load (tree b) = .ok b) :
    readSection load (records.map fun _ b => tree b) = .ok records := by
  have hall : (records.map fun _ b => tree b).toList.mapM
      (fun e => do
        let record ← load e.2
        .ok (e.1, record)) = .ok records.toList := by
    have hmap := Except.mapM_eq_ok (l := records.toList) (g := id)
      (f := fun e => do
        let record ← load (tree e.2)
        .ok (e.1, record)) (by
          intro e he
          have hget := Std.ExtTreeMap.mem_toList_iff_getElem?_eq_some.mp he
          rw [h e.1 e.2 hget, Except.ok_bind]
          rfl)
    rw [Std.ExtTreeMap.toList_map, List.mapM_map]
    rw [List.map_id] at hmap
    exact hmap
  simp only [readSection]
  rw [hall, Except.ok_bind, KeyedMap.ofList_toList]

omit [Digest Id] in
theorem exists_of_readSection {β : Type}
    {load : Id → Except (ControlError Id) β} {entries : BTreeMap String Id}
    {records : BTreeMap String β} (h : readSection load entries = .ok records)
    {k : String} {id : Id} (hk : entries[k]? = some id) :
    ∃ b, load id = .ok b := by
  obtain ⟨l, hl, -⟩ := Except.bind_eq_ok_iff.mp h
  have hall := (Except.mapM_eq_ok_iff fun _ _ _ => Iff.rfl).mp hl
  have hmem := Std.ExtTreeMap.mem_toList_iff_getElem?_eq_some.mpr hk
  obtain ⟨r, -, hr⟩ := Except.exists_of_mem_forall₂ hall hmem
  obtain ⟨b, hb, -⟩ := Except.bind_eq_ok_iff.mp hr
  exact ⟨b, hb⟩

theorem read_of_held (h : x.Held codec s) (hx : x.Keyed codec)
    (hyears : x.EntriesInYears) :
    read codec s (x.root codec) = .ok x := by
  have hsections := load_of_objects h.objects
  have htaints := @readSection_eq_ok Id _ (loadJson codec.taints.fromValue s)
    (fun a => (taintDoc codec a).tree codec.toControlCodec) x.taints
    fun k a ha => h.stored.taints k a ha s le_rfl
  have hreminders := @readSection_eq_ok Id _ (loadEntry codec s)
    (fun a => (Change.entryDoc codec a).tree codec.toControlCodec)
    x.reminders (by
      intro k a ha
      rw [h.stored.reminders k a ha s le_rfl,
        readBack_of_inYears (hyears k a ha)])
  have hepochs := @readSection_eq_ok Id _ (loadEpochState codec s)
    (fun a => (epochDoc codec a).tree codec.toControlCodec)
    x.epochs (by
      intro k a ha
      rw [h.stored.epochs k a ha s le_rfl, hx.sorted k a ha])
  have hmembers := @readSection_eq_ok Id _ (loadMembers codec s)
    (fun ids : IdSet Id => (idList codec.toControlCodec ids.toList).id)
    x.members (by
      intro k ids hids
      rw [loadMembers, loadIds_of_holds (h.stored.members k ids hids),
        Except.ok_bind]
      congr 1
      apply Std.ExtTreeSet.ext_mem
      intro c
      rw [Std.ExtTreeSet.mem_ofList, List.contains_iff_mem,
        Std.ExtTreeSet.mem_toList])
  simp only [read, ControlState.root, Records.root, hsections, Except.ok_bind]
  simp only [Records.sections, ControlState.records, htaints, hreminders,
    hepochs, hmembers, Except.ok_bind]

theorem entriesInYears_of_read {y : ControlState Id T R E}
    (h : x.Held codec s) (hread : read codec s (x.root codec) = .ok y) :
    x.EntriesInYears := by
  have hsections := load_of_objects h.objects
  simp only [read, ControlState.root, Records.root, hsections, Except.ok_bind]
    at hread
  obtain ⟨taints, -, hread⟩ := Except.bind_eq_ok_iff.mp hread
  obtain ⟨reminders, hreminders, -⟩ := Except.bind_eq_ok_iff.mp hread
  intro k e he
  by_contra hyears
  have hk : ((x.records codec).sections codec.toControlCodec .reminders)[k]? =
      some ((Change.entryDoc codec e).tree codec.toControlCodec) := by
    simp only [Records.sections, ControlState.records,
      Std.ExtTreeMap.getElem?_map, he, Option.map_some]
  obtain ⟨f, hf⟩ := exists_of_readSection hreminders hk
  rw [h.stored.reminders k e he s le_rfl] at hf
  exact readBack_ne_ok hyears hf

/-! ## The codec -/

/-- Writing and reading lose nothing, and the tree depends on the state
alone. -/
structure Lossless (codec : StateCodec Id T R E) (store : ObjectStore Id)
    (x : KeyedState codec) : Prop where
  reads : ∃ root t, write codec store x.1 = .ok (root, t) ∧
    read codec t root = .ok x.1
  rewrites : ∀ root t y, write codec store x.1 = .ok (root, t) →
    read codec t root = .ok y → ∀ s, ∃ u, write codec s y = .ok (root, u)
  /-- Whatever changes to an empty tree led to the state. -/
  created : ∀ root t (changes : List (Change Id T R E)),
    write codec store x.1 = .ok (root, t) →
    changes.foldl (Change.apply codec) .empty = x.1 → ∀ s,
    ∃ u, candidate codec.toControlCodec s (changes.map (Change.row codec)) =
      .ok (root, u)
  /-- Whatever edits of another state's tree led to it. -/
  edited : ∀ root t (y : KeyedState codec) s start u
      (edits : List (List (Change Id T R E))),
    write codec store x.1 = .ok (root, t) →
    write codec s y.1 = .ok (start, u) →
    edits.flatten.foldl (Change.apply codec) y.1 = x.1 → ∀ v, u ≤ v →
    ∃ w, edits.foldlM (edit codec) (start, v) = .ok (root, w)

/-- The codec of the control tree is lossless exactly for the states whose
reminders were edited and deleted in years of four digits. -/
theorem lossless_iff (codec : StateCodec Id T R E) (store : ObjectStore Id)
    (x : KeyedState codec) :
    Lossless codec store x ↔ x.1.EntriesInYears := by
  obtain ⟨t, hwrite, hheld⟩ := write_eq_ok store x.2
  constructor
  · intro h
    obtain ⟨root, u, hrun, hread⟩ := h.reads
    rw [hwrite, Except.ok.injEq, Prod.mk.injEq] at hrun
    obtain ⟨rfl, rfl⟩ := hrun
    exact entriesInYears_of_read hheld hread
  · intro hyears
    have hread := read_of_held hheld x.2 hyears
    refine ⟨⟨_, t, hwrite, hread⟩, ?_, ?_, ?_⟩
    · intro root u y hrun hy s
      rw [hwrite, Except.ok.injEq, Prod.mk.injEq] at hrun
      obtain ⟨rfl, rfl⟩ := hrun
      rw [hread] at hy
      obtain rfl := Except.ok.inj hy
      obtain ⟨u, hu, -⟩ := write_eq_ok s x.2
      exact ⟨u, hu⟩
    · intro root u changes hrun hchanges s
      rw [hwrite, Except.ok.injEq, Prod.mk.injEq] at hrun
      obtain ⟨rfl, rfl⟩ := hrun
      obtain ⟨u, hu, -⟩ := @candidate_eq_ok Id _ T R E codec s changes
      rw [hchanges] at hu
      exact ⟨u, hu⟩
    · intro root u y s start v edits hrun hstart hedits w hle
      rw [hwrite, Except.ok.injEq, Prod.mk.injEq] at hrun
      obtain ⟨rfl, rfl⟩ := hrun
      obtain ⟨v', hstart', hstored⟩ := write_eq_ok s y.2
      rw [hstart', Except.ok.injEq, Prod.mk.injEq] at hstart
      obtain ⟨rfl, rfl⟩ := hstart
      obtain ⟨u, hu⟩ := edits_eq_ok (hstored.mono hle) edits
      rw [hedits] at hu
      exact ⟨u, hu⟩

/-! ## A reminder deleted in the year 10000 -/

namespace LateYear

/-- Records that are names. -/
def nameSerde : Serde String where
  toValue name := .object [("id", .string name)]
  fromValue
    | .object [("id", .string name)] => .ok name
    | _ => .error "missing field `id`"
  canonical name := by
    simp [Json.isCanonical, Json.entriesCanonical]
  fromValue_toValue _ := rfl

/-- Times in years of four digits in unary, with a sign when negative. -/
def unary (t : ℤ) : List Char :=
  if 0 ≤ t then List.replicate t.toNat '1'
  else '-' :: List.replicate (-t).toNat '1'

def parseUnary : List Char → Except String ℤ
  | '+' :: _ => .error "input contains invalid characters"
  | '-' :: digits => .ok (-digits.length)
  | digits => .ok digits.length

theorem parseUnary_unary (t : ℤ) : parseUnary (unary t) = .ok t := by
  unfold unary
  by_cases ht : 0 ≤ t
  · rw [if_pos ht]
    cases hn : t.toNat with
    | zero =>
        have hzero : t = 0 := by omega
        rw [hzero]
        rfl
    | succ n =>
        have hcast : t = ((n + 1 : ℕ) : ℤ) := by omega
        rw [hcast]
        simp [parseUnary, List.replicate_succ]
  · rw [if_neg ht]
    simp only [parseUnary, List.length_replicate]
    congr 1
    omega

/-- The text of a time, whose year gets its sign when it has no four
digits. -/
def timeText (t : ℤ) : String :=
  if InYears t then String.ofList (unary t)
  else if t = yearTenThousand then "+10000-01-01T00:00:00+00:00"
  else "+"

def namesCodec : StateCodec ContentKey String String String where
  taint _ := .error "missing field"
  reminder _ := .error "missing field"
  epoch _ := .error "missing field"
  time text := parseUnary text.toList
  hex := sampleCodec.hex
  ids := sampleCodec.ids
  endsChunk := sampleCodec.endsChunk
  ids_hex := sampleCodec.ids_hex
  taints := nameSerde
  taintId := id
  reminders := nameSerde
  reminderId := id
  epochs := nameSerde
  epochId := id
  timeText := timeText
  time_timeText t ht := by
    rw [timeText, if_pos ht, String.toList_ofList, parseUnary_unary]
  time_beyond t ht := by
    rw [timeText, if_neg ht]
    split
    next => exact ⟨_, rfl⟩
    next => exact ⟨_, rfl⟩

/-- One reminder, deleted at the first instant of the year 10000. -/
def state : KeyedState namesCodec where
  val := ⟨∅, (∅ : BTreeMap String (Entry String)).insert "r"
    (.deleted yearTenThousand), ∅, ∅⟩
  property := by constructor <;> intro k a h <;> simp at h

end LateYear

open LateYear in
/-- The tree of that state is written, and cannot be read. -/
theorem not_lossless_lateYear :
    namesCodec.timeText yearTenThousand = "+10000-01-01T00:00:00+00:00" ∧
      (write namesCodec AddressedMap.empty state.1).isOk = true ∧
      ¬Lossless namesCodec AddressedMap.empty state := by
  obtain ⟨t, hwrite, hheld⟩ := write_eq_ok AddressedMap.empty state.2
  refine ⟨rfl, by rw [hwrite]; rfl, ?_⟩
  intro h
  obtain ⟨root, u, hrun, hread⟩ := h.reads
  rw [hwrite, Except.ok.injEq, Prod.mk.injEq] at hrun
  obtain ⟨rfl, rfl⟩ := hrun
  have hyears := entriesInYears_of_read hheld hread "r"
    (.deleted yearTenThousand) Std.ExtTreeMap.getElem?_insert_self
  revert hyears
  decide

end Control

end AgentStateGraph
