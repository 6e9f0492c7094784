import AgentStateGraph.Backend.MemoryTables
import AgentStateGraph.Lib.StepRuns
import AgentStateGraph.Lib.WriteBehind

/-!
# Epochs and sessions in the browser

Every change of an epoch or a session queues a snapshot of the whole record for
the host, and every association of a commit queues a pair.  On the next start
the last snapshots are created again and the pairs are associated again, by the
operations that refuse a sealed epoch and an ended session.  So a store comes
back exactly when nothing was sealed or ended after commits were associated
with it, and no namespace was assigned to an epoch, which queues nothing.
-/

namespace AgentStateGraph

namespace BrowserTables

open Bundles Backend WriteBehind

abbrev Epoch := EpochRow ObjectId

abbrev Session := Sessions.Session ObjectId

/-- The JSON of a snapshot; serde_json lies outside this development. -/
structure SnapshotCodec where
  epochText : Epoch → String
  parseEpoch : String → Except String Epoch
  parse_epoch : ∀ e, parseEpoch (epochText e) = .ok e
  sessionText : Session → String
  parseSession : String → Except String Session
  parse_session : ∀ s, parseSession (sessionText s) = .ok s

/-! ## Queues and what the host has of them -/

/-- The queue of snapshots and the queue of association pairs, and what the
host has persisted of each: the last snapshot by id, and all pairs. -/
structure Stored where
  snapshots : BTreeMap String String
  pairs : List (String × String)
  pendingSnapshots : List (String × String)
  pendingPairs : List (String × String)

namespace Stored

def empty : Stored := ⟨∅, [], [], []⟩

variable (st : Stored)

def pushSnapshot (id text : String) : Stored :=
  { st with pendingSnapshots := st.pendingSnapshots ++ [(id, text)] }

def pushPair (commit : ObjectId) (id : String) : Stored :=
  { st with pendingPairs := st.pendingPairs ++ [(commit.display, id)] }

def drain : Stored where
  snapshots := applyWrites st.snapshots st.pendingSnapshots
  pairs := st.pairs ++ st.pendingPairs
  pendingSnapshots := []
  pendingPairs := []

end Stored

/-! ## Epochs -/

structure EpochSide where
  memory : EpochTable ObjectId
  stored : Stored

namespace EpochSide

variable (codec : SnapshotCodec) (side : EpochSide)

def queueEpochSnapshot (id : String) : EpochSide :=
  match side.memory.getEpoch id with
  | some e =>
      { side with stored := side.stored.pushSnapshot id (codec.epochText e) }
  | none => side

def createEpoch (e : Epoch) : Except StorageError EpochSide := do
  let memory ← side.memory.createEpoch e
  .ok ({ side with memory }.queueEpochSnapshot codec e.id)

def sealEpoch (id summary : String) (sealedAt : ℤ)
    (sealedCommits : List ObjectId) (sealHash : ObjectId) :
    Except StorageError EpochSide := do
  let memory ← side.memory.sealEpoch id summary sealedAt sealedCommits sealHash
  .ok ({ side with memory }.queueEpochSnapshot codec id)

/-- No snapshot is queued here. -/
def assignEpochNamespace (id ns : String) :
    Except StorageError (Bool × EpochSide) := do
  let (assigned, memory) ← side.memory.assignEpochNamespace id ns
  .ok (assigned, { side with memory })

def setCommitEpoch (commit : ObjectId) (epochId : String) :
    Except StorageError EpochSide := do
  let memory ← side.memory.setCommitEpoch commit epochId
  .ok ({ memory, stored := side.stored.pushPair commit epochId :
    EpochSide }.queueEpochSnapshot codec epochId)

def archiveEpoch (id : String) : Except StorageError EpochSide := do
  let memory ← side.memory.archiveEpoch id
  .ok ({ side with memory }.queueEpochSnapshot codec id)

end EpochSide

def liftStorage {α : Type} : Except StorageError α → Except BackendError α
  | .ok a => .ok a
  | .error e => .error (.storage e)

def parseSnapshot {α : Type} (what : String) :
    Except String α → Except BackendError α
  | .ok a => .ok a
  | .error e => .error (.serialization (what ++ e))

def loadEpoch (codec : SnapshotCodec) (t : EpochTable ObjectId)
    (pair : String × String) : Except BackendError (EpochTable ObjectId) := do
  let e ← parseSnapshot "epoch load: " (codec.parseEpoch pair.2)
  liftStorage (t.createEpoch e)

def loadEpochs (codec : SnapshotCodec) (t : EpochTable ObjectId)
    (pairs : List (String × String)) :
    Except BackendError (EpochTable ObjectId) :=
  pairs.foldlM (loadEpoch codec) t

def loadCommitEpoch (t : EpochTable ObjectId) (pair : String × String) :
    Except BackendError (EpochTable ObjectId) := do
  let id ← parseId "invalid commit hex" pair.1
  liftStorage (t.setCommitEpoch id pair.2)

def loadCommitEpochs (t : EpochTable ObjectId)
    (pairs : List (String × String)) :
    Except BackendError (EpochTable ObjectId) :=
  pairs.foldlM loadCommitEpoch t

/-! ## Sessions -/

structure SessionSide where
  memory : Sessions.Table ObjectId
  stored : Stored

namespace SessionSide

variable (codec : SnapshotCodec) (side : SessionSide)

def queueSessionSnapshot (id : String) : SessionSide :=
  match side.memory.getSession id with
  | some s =>
      { side with stored := side.stored.pushSnapshot id (codec.sessionText s) }
  | none => side

def createSession (s : Session) : SessionSide :=
  { side with memory := side.memory.createSession s }.queueSessionSnapshot
    codec s.id

def endSession (id : String) (status : Sessions.Status) (endedAt : ℤ) :
    Except StorageError SessionSide := do
  let memory ← side.memory.endSession id status endedAt
  .ok ({ side with memory }.queueSessionSnapshot codec id)

def setCommitSession (commit : ObjectId) (id : String) :
    Except StorageError SessionSide := do
  let memory ← side.memory.setCommitSession commit id
  .ok ({ memory, stored := side.stored.pushPair commit id :
    SessionSide }.queueSessionSnapshot codec id)

end SessionSide

def loadSession (codec : SnapshotCodec) (t : Sessions.Table ObjectId)
    (pair : String × String) :
    Except BackendError (Sessions.Table ObjectId) := do
  let s ← parseSnapshot "session load: " (codec.parseSession pair.2)
  .ok (t.createSession s)

def loadSessions (codec : SnapshotCodec) (t : Sessions.Table ObjectId)
    (pairs : List (String × String)) :
    Except BackendError (Sessions.Table ObjectId) :=
  pairs.foldlM (loadSession codec) t

def loadCommitSession (t : Sessions.Table ObjectId) (pair : String × String) :
    Except BackendError (Sessions.Table ObjectId) := do
  let id ← parseId "invalid commit hex" pair.1
  liftStorage (t.setCommitSession id pair.2)

def loadCommitSessions (t : Sessions.Table ObjectId)
    (pairs : List (String × String)) :
    Except BackendError (Sessions.Table ObjectId) :=
  pairs.foldlM loadCommitSession t

/-! ## Runs -/

inductive Op where
  | createEpoch (e : Epoch)
  | sealEpoch (id summary : String) (sealedAt : ℤ)
      (sealedCommits : List ObjectId) (sealHash : ObjectId)
  | assignEpochNamespace (id ns : String)
  | setCommitEpoch (commit : ObjectId) (epochId : String)
  | archiveEpoch (id : String)
  | createSession (s : Session)
  | endSession (id : String) (status : Sessions.Status) (endedAt : ℤ)
  | setCommitSession (commit : ObjectId) (id : String)
  | drain

structure Browser where
  epochs : EpochSide
  sessions : SessionSide

/-- A refused call changes nothing. -/
def settle {α : Type} (old : α) : Except StorageError α → α
  | .ok new => new
  | .error _ => old

variable (codec : SnapshotCodec)

def EpochSide.step (side : EpochSide) : Op → EpochSide
  | .createEpoch e => settle side (side.createEpoch codec e)
  | .sealEpoch id summary sealedAt sealedCommits sealHash =>
      settle side
        (side.sealEpoch codec id summary sealedAt sealedCommits sealHash)
  | .assignEpochNamespace id ns =>
      settle side ((side.assignEpochNamespace id ns).map Prod.snd)
  | .setCommitEpoch commit epochId =>
      settle side (side.setCommitEpoch codec commit epochId)
  | .archiveEpoch id => settle side (side.archiveEpoch codec id)
  | .drain => { side with stored := side.stored.drain }
  | .createSession _ | .endSession _ _ _ | .setCommitSession _ _ => side

def SessionSide.step (side : SessionSide) : Op → SessionSide
  | .createSession s => side.createSession codec s
  | .endSession id status endedAt =>
      settle side (side.endSession codec id status endedAt)
  | .setCommitSession commit id =>
      settle side (side.setCommitSession codec commit id)
  | .drain => { side with stored := side.stored.drain }
  | .createEpoch _ | .sealEpoch _ _ _ _ _ | .assignEpochNamespace _ _
  | .setCommitEpoch _ _ | .archiveEpoch _ => side

def step (b : Browser) (op : Op) : Browser where
  epochs := b.epochs.step codec op
  sessions := b.sessions.step codec op

def start : Browser where
  epochs := ⟨.empty, .empty⟩
  sessions := ⟨⟨∅, []⟩, .empty⟩

def run (ops : List Op) : Browser := StepRuns.run (step codec) start ops

/-! ## The next start -/

/-- `load_epochs` and `load_commit_epochs` into a fresh store. -/
def reloadEpochs (snapshots pairs : List (String × String)) :
    Except BackendError (EpochTable ObjectId) := do
  let t ← loadEpochs codec .empty snapshots
  loadCommitEpochs t pairs

/-- `load_sessions` and `load_commit_sessions` into a fresh store. -/
def reloadSessions (snapshots pairs : List (String × String)) :
    Except BackendError (Sessions.Table ObjectId) := do
  let t ← loadSessions codec ⟨∅, []⟩ snapshots
  loadCommitSessions t pairs

/-- After a final drain the epochs load, each reads as it did, and the
associations are the same; the snapshots may be listed in any order. -/
def RestoresEpochs (side : EpochSide) : Prop :=
  ∀ snapshots, snapshots.Perm side.stored.drain.snapshots.toList →
    ∃ t, reloadEpochs codec snapshots side.stored.drain.pairs = .ok t ∧
      (∀ id, t.getEpoch id = side.memory.getEpoch id) ∧
      t.commitEpoch = side.memory.commitEpoch

/-- The same, and the listing shows the same records. -/
def RestoresListing (side : EpochSide) : Prop :=
  ∀ snapshots, snapshots.Perm side.stored.drain.snapshots.toList →
    ∃ t, reloadEpochs codec snapshots side.stored.drain.pairs = .ok t ∧
      (∀ id, t.getEpoch id = side.memory.getEpoch id) ∧
      t.commitEpoch = side.memory.commitEpoch ∧
      t.listEpochs.Perm side.memory.listEpochs

def RestoresSessions (side : SessionSide) : Prop :=
  ∀ snapshots, snapshots.Perm side.stored.drain.snapshots.toList →
    ∃ t, reloadSessions codec snapshots side.stored.drain.pairs = .ok t ∧
      t.sessions = side.memory.sessions ∧
      t.commitSession = side.memory.commitSession

/-! ## What is persisted -/

/-- The persisted texts are the last snapshots `snap` of records and the pairs
`links`. -/
structure Records {R : Type} (text ident : R → String) (st : Stored)
    (snap : String → Option R) (links : List (ObjectId × String)) : Prop where
  snapshots : ∀ id, st.drain.snapshots[id]? = (snap id).map text
  ident : ∀ id r, snap id = some r → ident r = id
  pairs : st.drain.pairs = links.map fun l => (l.1.display, l.2)

namespace Records

variable {R : Type} {text ident : R → String} {st : Stored}
  {snap : String → Option R} {links : List (ObjectId × String)}

theorem empty : Records text ident Stored.empty (fun _ => none) [] where
  snapshots := by
    intro id
    simp [Stored.empty, Stored.drain, applyWrites]
  ident := by simp
  pairs := rfl

theorem drain (h : Records text ident st snap links) :
    Records text ident st.drain snap links where
  snapshots := h.snapshots
  ident := h.ident
  pairs := by
    rw [← h.pairs]
    simp [Stored.drain]

theorem pushSnapshot (h : Records text ident st snap links) {id : String}
    {r : R} (hr : ident r = id) :
    Records text ident (st.pushSnapshot id (text r))
      (Function.update snap id (some r)) links where
  snapshots := by
    intro id'
    have hpush : (st.pushSnapshot id (text r)).drain.snapshots =
        st.drain.snapshots.insert id (text r) :=
      applyWrites_append _ _ _ _
    rw [hpush, Std.ExtTreeMap.getElem?_insert]
    by_cases hid : id = id'
    · subst hid
      simp
    · have hid' : id' ≠ id := Ne.symm hid
      simp [hid, hid', h.snapshots]
  ident := by
    intro id' r' hsnap
    by_cases hid : id' = id
    · subst hid
      rw [Function.update_self] at hsnap
      rw [← Option.some.inj hsnap, hr]
    · rw [Function.update_of_ne hid] at hsnap
      exact h.ident id' r' hsnap
  pairs := h.pairs

theorem pushPair (h : Records text ident st snap links) (commit : ObjectId)
    (id : String) :
    Records text ident (st.pushPair commit id) snap (links ++ [(commit, id)]) where
  snapshots := h.snapshots
  ident := h.ident
  pairs := by
    have hpairs : (st.pushPair commit id).drain.pairs =
        st.drain.pairs ++ [(commit.display, id)] := by
      simp [Stored.pushPair, Stored.drain]
    rw [hpairs, h.pairs, List.map_append]
    rfl

theorem mem_pairs_iff (h : Records text ident st snap links) (id : String) :
    (∃ p ∈ st.drain.pairs, p.2 = id) ↔ ∃ l ∈ links, l.2 = id := by
  rw [h.pairs]
  simp

theorem eq_map_rows (h : Records text ident st snap links)
    {snapshots : List (String × String)}
    (hall : ∀ p ∈ snapshots, ∃ r, snap p.1 = some r ∧ text r = p.2) :
    snapshots =
      (snapshots.filterMap fun p => snap p.1).map fun r => (ident r, text r) := by
  induction snapshots with
  | nil => rfl
  | cons p snapshots ih =>
      obtain ⟨r, hr, htext⟩ := hall p List.mem_cons_self
      have hp : (ident r, text r) = p := by
        rw [h.ident _ r hr, htext]
      simp only [List.filterMap_cons, hr, List.map_cons, hp]
      exact congrArg (p :: ·)
        (ih fun q hq => hall q (List.mem_cons_of_mem _ hq))

theorem exists_rows (h : Records text ident st snap links)
    {snapshots : List (String × String)}
    (hperm : snapshots.Perm st.drain.snapshots.toList) :
    ∃ rows : List R, snapshots = rows.map (fun r => (ident r, text r)) ∧
      (rows.map ident).Nodup ∧
      ∀ id r, snap id = some r ↔ r ∈ rows ∧ ident r = id := by
  have hmem : ∀ p : String × String, p ∈ snapshots ↔
      ∃ r, snap p.1 = some r ∧ text r = p.2 := by
    rintro ⟨id, t⟩
    rw [hperm.mem_iff, Std.ExtTreeMap.mem_toList_iff_getElem?_eq_some,
      h.snapshots, Option.map_eq_some_iff]
  have hsnap : ∀ id r, snap id = some r → (ident r, text r) ∈ snapshots := by
    intro id r hr
    rw [hmem, h.ident id r hr]
    exact ⟨r, hr, rfl⟩
  have hnodup : (snapshots.map Prod.fst).Nodup := by
    have hkeys := hperm.map Prod.fst
    rw [Std.ExtTreeMap.map_fst_toList_eq_keys] at hkeys
    refine hkeys.nodup_iff.mpr (Std.ExtTreeMap.distinct_keys.imp ?_)
    intro a b hab
    simpa using hab
  have hrows := h.eq_map_rows fun p hp => (hmem p).mp hp
  refine ⟨snapshots.filterMap fun p => snap p.1, hrows, ?_, ?_⟩
  · have hfst := congrArg (List.map Prod.fst) hrows
    rw [List.map_map] at hfst
    rw [show ident = Prod.fst ∘ fun r => (ident r, text r) from rfl, ← hfst]
    exact hnodup
  · intro id r
    constructor
    · intro hr
      refine ⟨?_, h.ident id r hr⟩
      exact List.mem_filterMap.mpr
        ⟨_, hsnap id r hr, by rw [h.ident id r hr]; exact hr⟩
    · rintro ⟨hr, rfl⟩
      obtain ⟨p, hp, hpr⟩ := List.mem_filterMap.mp hr
      rw [h.ident _ r hpr]
      exact hpr

end Records

/-! ## Loading epochs -/

theorem liftStorage_eq_ok_iff {α : Type} {x : Except StorageError α} {a : α} :
    liftStorage x = .ok a ↔ x = .ok a := by
  cases x with
  | ok b => simp [liftStorage]
  | error e => simp [liftStorage]

theorem createEpoch_of_fresh {Id : Type} {t : EpochTable Id} {e : EpochRow Id}
    (h : e.id ∉ t.epochs.map fun e => e.id) :
    t.createEpoch e = .ok { t with epochs := t.epochs ++ [e] } := by
  rw [EpochTable.createEpoch, if_neg]
  intro hany
  obtain ⟨e', he', hid⟩ := List.any_eq_true.mp hany
  exact h (List.mem_map.mpr ⟨e', he', by simpa using hid⟩)

section

variable {t t' : EpochTable ObjectId}

theorem loadEpochs_rows {rows : List Epoch}
    (h : ((t.epochs ++ rows).map fun e => e.id).Nodup) :
    loadEpochs codec t (rows.map fun e => (e.id, codec.epochText e)) =
      .ok { t with epochs := t.epochs ++ rows } := by
  induction rows generalizing t with
  | nil => simp [loadEpochs, pure, Except.pure]
  | cons e rows ih =>
      have hfresh : e.id ∉ t.epochs.map fun e => e.id := by
        rw [List.map_append, List.nodup_append] at h
        intro hmem
        exact h.2.2 _ hmem _ (by simp) rfl
      have hload : loadEpoch codec t (e.id, codec.epochText e) =
          .ok { t with epochs := t.epochs ++ [e] } := by
        simp only [loadEpoch, codec.parse_epoch, parseSnapshot, Except.ok_bind,
          createEpoch_of_fresh hfresh, liftStorage]
      rw [List.map_cons, loadEpochs, List.foldlM_cons, hload, Except.ok_bind]
      rw [List.append_cons] at h
      refine (ih h).trans ?_
      rw [← List.append_cons]

/-- A commit is associated with an epoch that is there and neither sealed nor
archived. -/
def OpenEpoch {Id : Type} (t : EpochTable Id) (id : String) : Prop :=
  ∃ e, t.find id = some e ∧ e.status = .active

theorem setCommitEpoch_eq_ok_iff {commit : ObjectId} {id : String} :
    t.setCommitEpoch commit id = .ok t' ↔ OpenEpoch t id ∧
      t' = { t with commitEpoch := relink t.commitEpoch (commit, id) } := by
  unfold EpochTable.setCommitEpoch OpenEpoch
  cases t.find id with
  | none => simp
  | some e =>
      cases hstatus : e.status with
      | active => simp [hstatus, eq_comm]
      | sealed => simp [hstatus]
      | archived => simp [hstatus]

theorem loadCommitEpoch_display {l : ObjectId × String} :
    loadCommitEpoch t (l.1.display, l.2) = .ok t' ↔ OpenEpoch t l.2 ∧
      t' = { t with commitEpoch := relink t.commitEpoch l } := by
  rw [loadCommitEpoch, parseId_display, Except.ok_bind, liftStorage_eq_ok_iff]
  exact setCommitEpoch_eq_ok_iff

theorem loadCommitEpochs_eq_ok_iff {links : List (ObjectId × String)} :
    loadCommitEpochs t (links.map fun l => (l.1.display, l.2)) = .ok t' ↔
      (∀ l ∈ links, OpenEpoch t l.2) ∧
        t' = { t with commitEpoch := links.foldl relink t.commitEpoch } := by
  induction links generalizing t with
  | nil => simp [loadCommitEpochs, pure, Except.pure, eq_comm]
  | cons l links ih =>
      rw [List.map_cons, loadCommitEpochs, List.foldlM_cons,
        Except.bind_eq_ok_iff]
      constructor
      · rintro ⟨t₁, hl, hrest⟩
        obtain ⟨hopen, rfl⟩ := loadCommitEpoch_display.mp hl
        obtain ⟨hall, rfl⟩ := ih.mp hrest
        refine ⟨?_, rfl⟩
        intro l' hl'
        rcases List.mem_cons.mp hl' with rfl | hl'
        · exact hopen
        · exact hall l' hl'
      · rintro ⟨hall, rfl⟩
        refine ⟨_, loadCommitEpoch_display.mpr
          ⟨hall l List.mem_cons_self, rfl⟩, ih.mpr ⟨?_, rfl⟩⟩
        intro l' hl'
        exact hall l' (List.mem_cons_of_mem _ hl')

end

/-! ## Epochs that come back -/

/-- What is persisted of the epochs, beside what is in memory. -/
structure EpochSide.Saved (side : EpochSide) (snap : String → Option Epoch)
    (links : List (ObjectId × String)) : Prop where
  records : Records codec.epochText (fun e => e.id) side.stored snap links
  assoc : side.memory.commitEpoch = links.foldl relink []
  distinct : side.memory.Distinct

/-- Every epoch that a pair names has an active snapshot. -/
def OpenLinks (snap : String → Option Epoch)
    (links : List (ObjectId × String)) : Prop :=
  ∀ l ∈ links, ∃ e, snap l.2 = some e ∧ e.status = .active

/-- An epoch without what its record says of its commits. -/
def bare (e : Epoch) : Epoch := { e with commits := [] }

/-- The snapshots show the epochs as they are, up to their commits. -/
def EpochSide.Current (side : EpochSide) (snap : String → Option Epoch) : Prop :=
  ∀ id, (snap id).map bare = (side.memory.find id).map bare

section Epochs

variable {codec : SnapshotCodec} {side : EpochSide}
  {snap : String → Option Epoch} {links : List (ObjectId × String)}

theorem EpochSide.Saved.reload (h : side.Saved codec snap links)
    {snapshots : List (String × String)}
    (hperm : snapshots.Perm side.stored.drain.snapshots.toList) :
    ∃ rows : List Epoch,
      (EpochTable.mk rows (links.foldl relink [])).Distinct ∧
      (∀ id, (EpochTable.mk rows (links.foldl relink [])).find id = snap id) ∧
      ∀ t, reloadEpochs codec snapshots side.stored.drain.pairs = .ok t ↔
        OpenLinks snap links ∧ t = ⟨rows, links.foldl relink []⟩ := by
  obtain ⟨rows, rfl, hnodup, hsnap⟩ := h.records.exists_rows hperm
  have hfind : ∀ assoc id, (EpochTable.mk rows assoc).find id = snap id := by
    intro assoc id
    apply Option.ext
    intro e
    rw [hsnap]
    constructor
    · intro hfound
      exact ⟨EpochTable.mem_of_find hfound, EpochTable.id_of_find hfound⟩
    · rintro ⟨he, rfl⟩
      exact EpochTable.find_of_mem (t := ⟨rows, assoc⟩) hnodup he
  refine ⟨rows, hnodup, hfind _, ?_⟩
  intro t
  have hload : loadEpochs codec .empty
      (rows.map fun e => (e.id, codec.epochText e)) = .ok ⟨rows, []⟩ :=
    loadEpochs_rows codec hnodup
  rw [reloadEpochs, hload, Except.ok_bind, h.records.pairs,
    loadCommitEpochs_eq_ok_iff]
  refine and_congr (forall₂_congr fun l _ => ?_) Iff.rfl
  rw [OpenEpoch, ← hfind []]

theorem getEpoch_eq_iff {Id : Type} {t t' : EpochTable Id}
    (h : t.commitEpoch = t'.commitEpoch) (id : String) :
    t.getEpoch id = t'.getEpoch id ↔
      (t.find id).map (fun e => { e with commits := [] }) =
        (t'.find id).map fun e => { e with commits := [] } := by
  have hcommits : t.commitsOf id = t'.commitsOf id := by
    rw [EpochTable.commitsOf, EpochTable.commitsOf, h]
  rw [EpochTable.getEpoch, EpochTable.getEpoch, hcommits]
  cases t.find id with
  | none =>
      cases t'.find id with
      | none => simp
      | some e' => simp
  | some e =>
      cases t'.find id with
      | none => simp
      | some e' => simp [EpochRow.ext_iff]

theorem EpochSide.Saved.restoresEpochs_iff (h : side.Saved codec snap links) :
    RestoresEpochs codec side ↔ OpenLinks snap links ∧ side.Current snap := by
  constructor
  · intro hrestores
    obtain ⟨t, hload, hget, -⟩ := hrestores _ (.refl _)
    obtain ⟨rows, -, hfind, hok⟩ := h.reload (.refl _)
    obtain ⟨hopen, rfl⟩ := (hok t).mp hload
    refine ⟨hopen, fun id => ?_⟩
    have hbare := (getEpoch_eq_iff h.assoc.symm id).mp (hget id)
    rwa [hfind] at hbare
  · rintro ⟨hopen, hcurrent⟩ snapshots hperm
    obtain ⟨rows, -, hfind, hok⟩ := h.reload hperm
    refine ⟨_, (hok _).mpr ⟨hopen, rfl⟩, fun id => ?_, h.assoc.symm⟩
    rw [getEpoch_eq_iff h.assoc.symm, hfind]
    exact hcurrent id

theorem perm_listEpochs_iff {Id : Type} {t t' : EpochTable Id}
    (h : t.Distinct) (h' : t'.Distinct) :
    t.listEpochs.Perm t'.listEpochs ↔ ∀ id, t.find id = t'.find id := by
  have hperm : t.listEpochs.Perm t'.listEpochs ↔ t.epochs.Perm t'.epochs := by
    constructor
    · intro hlist
      exact (List.mergeSort_perm _ _).symm.trans
        (hlist.trans (List.mergeSort_perm _ _))
    · intro hlist
      exact (List.mergeSort_perm _ _).trans
        (hlist.trans (List.mergeSort_perm _ _).symm)
  have hmem : ∀ {t : EpochTable Id}, t.Distinct → ∀ id e,
      t.find id = some e ↔ e ∈ t.epochs ∧ e.id = id := by
    intro t ht id e
    constructor
    · intro hfind
      exact ⟨EpochTable.mem_of_find hfind, EpochTable.id_of_find hfind⟩
    · rintro ⟨he, rfl⟩
      exact EpochTable.find_of_mem ht he
  rw [hperm, List.perm_ext_iff_of_nodup (List.Nodup.of_map _ h)
    (List.Nodup.of_map _ h')]
  constructor
  · intro hsame id
    apply Option.ext
    intro e
    rw [hmem h, hmem h', hsame]
  · intro hfind e
    have hiff : t.find e.id = some e ↔ t'.find e.id = some e := by
      rw [hfind]
    simpa [hmem h, hmem h'] using hiff

theorem EpochSide.Saved.restoresListing_iff (h : side.Saved codec snap links) :
    RestoresListing codec side ↔
      OpenLinks snap links ∧ ∀ id, snap id = side.memory.find id := by
  constructor
  · intro hrestores
    obtain ⟨t, hload, -, -, hlist⟩ := hrestores _ (.refl _)
    obtain ⟨rows, hnodup, hfind, hok⟩ := h.reload (.refl _)
    obtain ⟨hopen, rfl⟩ := (hok t).mp hload
    refine ⟨hopen, fun id => ?_⟩
    rw [← hfind]
    exact (perm_listEpochs_iff hnodup h.distinct).mp hlist id
  · rintro ⟨hopen, hsame⟩ snapshots hperm
    obtain ⟨rows, hnodup, hfind, hok⟩ := h.reload hperm
    refine ⟨_, (hok _).mpr ⟨hopen, rfl⟩, fun id => ?_, h.assoc.symm, ?_⟩
    · rw [getEpoch_eq_iff h.assoc.symm, hfind, hsame]
    · rw [perm_listEpochs_iff hnodup h.distinct]
      intro id
      rw [hfind, hsame]

/-! ## What a call does to the epochs -/

theorem queueEpochSnapshot_of_find {id : String} {e : Epoch}
    (h : side.memory.find id = some e) :
    side.queueEpochSnapshot codec id =
      { side with
        stored := side.stored.pushSnapshot id
          (codec.epochText { e with commits := side.memory.commitsOf id }) } := by
  rw [EpochSide.queueEpochSnapshot, EpochTable.getEpoch, h]
  rfl

theorem EpochSide.Saved.snapshot {stored : Stored}
    (h : Records codec.epochText (fun e => e.id) stored snap links)
    {memory : EpochTable ObjectId}
    (hassoc : memory.commitEpoch = links.foldl relink [])
    (hdistinct : memory.Distinct) {id : String} {e : Epoch}
    (hfind : memory.find id = some e) :
    ((EpochSide.mk memory stored).queueEpochSnapshot codec id).Saved codec
      (Function.update snap id
        (some { e with commits := memory.commitsOf id })) links := by
  rw [queueEpochSnapshot_of_find hfind]
  have hid : e.id = id := EpochTable.id_of_find hfind
  exact ⟨h.pushSnapshot hid, hassoc, hdistinct⟩

/-- Persisted, current and open: the epochs come back. -/
structure EpochSide.Kept (codec : SnapshotCodec) (side : EpochSide)
    (snap : String → Option Epoch) (links : List (ObjectId × String)) : Prop where
  saved : side.Saved codec snap links
  openLinks : OpenLinks snap links
  current : side.Current snap

/-- No commit was associated with an epoch, and no epoch was created with
commits: the listing comes back too. -/
structure EpochSide.Plain (side : EpochSide) (snap : String → Option Epoch)
    (links : List (ObjectId × String)) : Prop where
  links : links = []
  commits : ∀ e ∈ side.memory.epochs, e.commits = []
  same : ∀ id, snap id = side.memory.find id

/-- What a call must not do to the epochs, judged on the state before it: seal
an epoch that a pair names, or assign a namespace. -/
def EpochSide.Allowed (side : EpochSide) : Op → Prop
  | .sealEpoch id _ _ _ _ =>
      OpenEpoch side.memory id → ∀ p ∈ side.stored.drain.pairs, p.2 ≠ id
  | .assignEpochNamespace id _ =>
      ∀ e, side.memory.find id = some e → e.namespace_ ≠ none
  | _ => True

/-- What a call must not do for the listing to come back as well. -/
def EpochSide.KeepsListing (side : EpochSide) : Op → Prop
  | .createEpoch e => side.memory.find e.id = none → e.commits = []
  | .setCommitEpoch _ id => ¬ OpenEpoch side.memory id
  | _ => True

/-- One call: the state after it comes back exactly when the call was
allowed. -/
structure EpochSide.Follows (codec : SnapshotCodec) (side side' : EpochSide)
    (snap : String → Option Epoch) (links : List (ObjectId × String)) (op : Op)
    (snap' : String → Option Epoch) (links' : List (ObjectId × String)) :
    Prop where
  saved : side'.Saved codec snap' links'
  kept : OpenLinks snap' links' ∧ side'.Current snap' ↔ side.Allowed op
  plain : side.Plain snap links → side.Allowed op → side.KeepsListing op →
    side'.Plain snap' links'
  listing : side.Plain snap links → (∀ id, snap' id = side'.memory.find id) →
    side.KeepsListing op

@[simp] theorem memory_queueEpochSnapshot (codec : SnapshotCodec)
    (side : EpochSide) (id : String) :
    (side.queueEpochSnapshot codec id).memory = side.memory := by
  unfold EpochSide.queueEpochSnapshot
  split <;> rfl

theorem commitsOf_of_nil {Id : Type} {t : EpochTable Id}
    (h : t.commitEpoch = []) (id : String) : t.commitsOf id = [] := by
  simp [EpochTable.commitsOf, h]

section Calls

variable (h : side.Kept codec snap links)

include h

theorem EpochSide.Kept.unchanged {op : Op} (hallowed : side.Allowed op)
    (hlisting : side.KeepsListing op) :
    EpochSide.Follows codec side side snap links op snap links where
  saved := h.saved
  kept := ⟨fun _ => hallowed, fun _ => ⟨h.openLinks, h.current⟩⟩
  plain := fun hplain _ _ => hplain
  listing := fun _ _ => hlisting

theorem EpochSide.Kept.openEpoch {l : ObjectId × String} (hl : l ∈ links) :
    OpenEpoch side.memory l.2 := by
  obtain ⟨e, he, hstatus⟩ := h.openLinks l hl
  have hcurrent := h.current l.2
  rw [he, Option.map_some] at hcurrent
  obtain ⟨e', he', hbare⟩ := Option.map_eq_some_iff.mp hcurrent.symm
  refine ⟨e', he', ?_⟩
  have hsame : (bare e').status = (bare e).status :=
    congrArg EpochRow.status hbare
  exact hsame.trans hstatus

variable {id : String} {e : Epoch}

theorem EpochSide.Kept.links_ne_of_find_none
    (hfind : side.memory.find id = none) : ∀ l ∈ links, l.2 ≠ id := by
  rintro l hl rfl
  obtain ⟨e, he, -⟩ := h.openEpoch hl
  rw [hfind] at he
  contradiction

theorem EpochSide.Kept.snapshot (memory : EpochTable ObjectId) {stored : Stored}
    {links' : List (ObjectId × String)}
    (hrecords : Records codec.epochText (fun e => e.id) stored snap links')
    (hassoc : memory.commitEpoch = links'.foldl relink [])
    (hdistinct : memory.Distinct) (hself : memory.find id = some e)
    (hother : ∀ i, i ≠ id → memory.find i = side.memory.find i)
    (hlinks : ∀ l ∈ links', l.2 ≠ id → l ∈ links) :
    ∃ snap', ((EpochSide.mk memory stored).queueEpochSnapshot codec id).Saved
        codec snap' links' ∧
      ((EpochSide.mk memory stored).queueEpochSnapshot codec id).Current snap' ∧
      (OpenLinks snap' links' ↔
        ((∃ l ∈ links', l.2 = id) → e.status = .active)) ∧
      ((∀ i, snap i = side.memory.find i) →
        ((∀ i, snap' i = memory.find i) ↔
          memory.commitsOf id = e.commits)) := by
  refine ⟨_, .snapshot hrecords hassoc hdistinct hself, ?_, ?_, ?_⟩
  · intro i
    rw [queueEpochSnapshot_of_find hself]
    by_cases hi : i = id
    · subst hi
      rw [Function.update_self, hself]
      rfl
    · rw [Function.update_of_ne hi, hother i hi]
      exact h.current i
  · constructor
    · rintro hopen ⟨l, hl, rfl⟩
      obtain ⟨e', he', hstatus⟩ := hopen l hl
      rw [Function.update_self] at he'
      rw [← Option.some.inj he'] at hstatus
      exact hstatus
    · intro hactive l hl
      by_cases hid : l.2 = id
      · rw [hid, Function.update_self]
        exact ⟨_, rfl, hactive ⟨l, hl, hid⟩⟩
      · rw [Function.update_of_ne hid]
        exact h.openLinks l (hlinks l hl hid)
  · intro hsame
    constructor
    · intro hall
      have hid := hall id
      rw [Function.update_self, hself] at hid
      exact congrArg EpochRow.commits (Option.some.inj hid)
    · intro hcommits i
      by_cases hi : i = id
      · subst hi
        rw [Function.update_self, hself, hcommits]
      · rw [Function.update_of_ne hi, hother i hi]
        exact hsame i

theorem EpochSide.Kept.create (hfind : side.memory.find e.id = none) :
    ∃ snap' links', EpochSide.Follows codec side
      ((EpochSide.mk { side.memory with epochs := side.memory.epochs ++ [e] }
        side.stored).queueEpochSnapshot codec e.id) snap links (.createEpoch e)
      snap' links' := by
  set memory : EpochTable ObjectId :=
    { side.memory with epochs := side.memory.epochs ++ [e] } with hmemory
  have hfind' : ∀ id, memory.find id =
      (side.memory.find id).or (if e.id = id then some e else none) :=
    EpochTable.find_append side.memory e
  have hself : memory.find e.id = some e := by
    rw [hfind', hfind]
    simp
  have hother : ∀ id, id ≠ e.id → memory.find id = side.memory.find id := by
    intro id hid
    rw [hfind', if_neg (Ne.symm hid), Option.or_none]
  have hdistinct : memory.Distinct := by
    rw [EpochTable.Distinct, hmemory, List.map_append, List.nodup_append]
    refine ⟨h.saved.distinct, by simp, ?_⟩
    intro a ha b hb
    obtain ⟨e', he', rfl⟩ := List.mem_map.mp ha
    rw [List.map_singleton, List.mem_singleton] at hb
    rw [hb]
    exact EpochTable.find_eq_none_iff.mp hfind e' he'
  obtain ⟨snap', hsaved, hcurrent, hopen, hsame⟩ :=
    h.snapshot memory h.saved.records h.saved.assoc hdistinct hself hother
      fun l hl _ => hl
  have hcommits : side.Plain snap links → memory.commitsOf e.id = [] := by
    intro hplain
    apply commitsOf_of_nil
    rw [hmemory, h.saved.assoc, hplain.links]
    rfl
  refine ⟨snap', links, hsaved, ?_, ?_, ?_⟩
  · refine ⟨fun _ => trivial, fun _ => ⟨hopen.mpr ?_, hcurrent⟩⟩
    rintro ⟨l, hl, hid⟩
    exact absurd hid (h.links_ne_of_find_none hfind l hl)
  · intro hplain _ hlisting
    refine ⟨hplain.links, ?_, ?_⟩
    · intro e' he'
      rw [memory_queueEpochSnapshot] at he'
      rcases List.mem_append.mp he' with he' | he'
      · exact hplain.commits e' he'
      · rw [List.mem_singleton.mp he']
        exact hlisting hfind
    · rw [memory_queueEpochSnapshot, hsame hplain.same, hcommits hplain]
      exact (hlisting hfind).symm
  · intro hplain hall _
    rw [memory_queueEpochSnapshot, hsame hplain.same, hcommits hplain] at hall
    exact hall.symm

theorem EpochSide.Kept.change {op : Op} (hfind : side.memory.find id = some e)
    {f : Epoch → Epoch} (hid : ∀ e, (f e).id = e.id)
    (hcommits : ∀ e, (f e).commits = e.commits) (hallowed : side.Allowed op ↔
      ((∃ l ∈ links, l.2 = id) → (f e).status = .active))
    (hlisting : side.KeepsListing op) :
    ∃ snap' links', EpochSide.Follows codec side
      ((EpochSide.mk (side.memory.modify id f)
        side.stored).queueEpochSnapshot codec id) snap links op
      snap' links' := by
  have hself : (side.memory.modify id f).find id = some (f e) := by
    rw [EpochTable.find_modify _ _ hid, if_pos rfl, hfind]
    rfl
  have hother : ∀ i, i ≠ id →
      (side.memory.modify id f).find i = side.memory.find i := by
    intro i hi
    rw [EpochTable.find_modify _ _ hid, if_neg hi]
  have hdistinct := EpochTable.distinct_modify h.saved.distinct id hid
  obtain ⟨snap', hsaved, hcurrent, hopen, hsame⟩ :=
    h.snapshot (side.memory.modify id f) h.saved.records h.saved.assoc
      hdistinct hself hother fun l hl _ => hl
  refine ⟨snap', links, hsaved, ?_, ?_, fun _ _ => hlisting⟩
  · rw [hallowed, ← hopen]
    exact and_iff_left hcurrent
  · intro hplain _ _
    have hnil : side.memory.commitEpoch = [] := by
      rw [h.saved.assoc, hplain.links]
      rfl
    have hall : ∀ e ∈ (side.memory.modify id f).epochs, e.commits = [] := by
      intro e' he'
      have hmem := List.mem_map_of_mem (f := EpochRow.commits) he'
      rw [EpochTable.modify, EpochTable.map_modify_eq _ _ hcommits] at hmem
      obtain ⟨e₀, he₀, heq⟩ := List.mem_map.mp hmem
      rw [← heq]
      exact hplain.commits e₀ he₀
    refine ⟨hplain.links, ?_, ?_⟩
    · rw [memory_queueEpochSnapshot]
      exact hall
    · rw [memory_queueEpochSnapshot, hsame hplain.same,
        commitsOf_of_nil (by exact hnil)]
      exact (hall _ (EpochTable.mem_of_find hself)).symm

theorem EpochSide.Kept.link (hopen : OpenEpoch side.memory id)
    (commit : ObjectId) :
    ∃ snap' links', EpochSide.Follows codec side
      ((EpochSide.mk
        { side.memory with
          commitEpoch := relink side.memory.commitEpoch (commit, id) }
        (side.stored.pushPair commit id)).queueEpochSnapshot codec id)
      snap links (.setCommitEpoch commit id) snap' links' := by
  set memory : EpochTable ObjectId :=
    { side.memory with
      commitEpoch := relink side.memory.commitEpoch (commit, id) } with hmemory
  obtain ⟨e, hfind, hstatus⟩ := hopen
  have hassoc : memory.commitEpoch =
      (links ++ [(commit, id)]).foldl relink [] := by
    rw [hmemory, List.foldl_append, h.saved.assoc]
    rfl
  have hlinks : ∀ l ∈ links ++ [(commit, id)], l.2 ≠ id → l ∈ links := by
    intro l hl hne
    rcases List.mem_append.mp hl with hl | hl
    · exact hl
    · rw [List.mem_singleton.mp hl] at hne
      exact absurd rfl hne
  obtain ⟨snap', hsaved, hcurrent, hopen', hsame⟩ :=
    h.snapshot memory (h.saved.records.pushPair commit id) hassoc
      h.saved.distinct hfind (fun _ _ => rfl) hlinks
  refine ⟨snap', _, hsaved, ?_, ?_, ?_⟩
  · exact ⟨fun _ => trivial, fun _ => ⟨hopen'.mpr fun _ => hstatus, hcurrent⟩⟩
  · intro _ _ hlisting
    exact absurd ⟨e, hfind, hstatus⟩ hlisting
  · intro hplain hall
    exfalso
    rw [memory_queueEpochSnapshot, hsame hplain.same,
      hplain.commits e (EpochTable.mem_of_find hfind)] at hall
    have hone : memory.commitsOf id = [commit] := by
      rw [EpochTable.commitsOf, hassoc, hplain.links]
      simp [relink]
    rw [hone] at hall
    exact List.cons_ne_nil _ _ hall

theorem EpochSide.Kept.assign {ns : String}
    (hfind : side.memory.find id = some e) (hns : e.namespace_ = none) :
    ∃ snap' links', EpochSide.Follows codec side
      { side with
        memory := side.memory.modify id
          fun e => { e with namespace_ := some ns } }
      snap links (.assignEpochNamespace id ns) snap' links' := by
  have hself : (side.memory.modify id
      fun e => { e with namespace_ := some ns }).find id =
        some { e with namespace_ := some ns } := by
    have hmodify := EpochTable.find_modify side.memory id
      (f := fun e => { e with namespace_ := some ns }) (fun _ => rfl) id
    rw [hmodify, if_pos rfl, hfind]
    rfl
  refine ⟨snap, links, ⟨h.saved.records, h.saved.assoc,
    EpochTable.distinct_modify h.saved.distinct id fun _ => rfl⟩, ?_, ?_, ?_⟩
  · constructor
    · rintro ⟨-, hcurrent⟩
      exfalso
      have hnew := hcurrent id
      have hold := h.current id
      rw [hold, hself, hfind] at hnew
      have heq := congrArg EpochRow.namespace_ (Option.some.inj hnew)
      rw [bare, bare, hns] at heq
      contradiction
    · intro hallowed
      exact absurd hns (hallowed e hfind)
  · intro _ hallowed _
    exact absurd hns (hallowed e hfind)
  · intro _ _
    trivial

theorem EpochSide.Kept.drain :
    ∃ snap' links', EpochSide.Follows codec side
      { side with stored := side.stored.drain } snap links .drain
      snap' links' :=
  ⟨snap, links, ⟨h.saved.records.drain, h.saved.assoc, h.saved.distinct⟩,
    ⟨fun _ => trivial, fun _ => ⟨h.openLinks, h.current⟩⟩,
    fun hplain _ _ => ⟨hplain.links, hplain.commits, hplain.same⟩,
    fun _ _ => trivial⟩

/-- Every call, refused or not. -/
theorem EpochSide.Kept.step (op : Op) :
    ∃ snap' links', EpochSide.Follows codec side (side.step codec op)
      snap links op snap' links' := by
  cases op with
  | createEpoch e =>
      cases hfind : side.memory.find e.id with
      | none =>
          have hfresh : e.id ∉ side.memory.epochs.map fun e => e.id := by
            intro hmem
            obtain ⟨e', he', hid⟩ := List.mem_map.mp hmem
            exact EpochTable.find_eq_none_iff.mp hfind e' he' hid
          have hstep : side.step codec (.createEpoch e) =
              (EpochSide.mk
                { side.memory with epochs := side.memory.epochs ++ [e] }
                side.stored).queueEpochSnapshot codec e.id := by
            simp only [EpochSide.step, EpochSide.createEpoch,
              createEpoch_of_fresh hfresh, Except.ok_bind, settle]
          rw [hstep]
          exact h.create hfind
      | some e' =>
          have hany : (side.memory.epochs.any fun e' => e'.id = e.id) = true :=
            List.any_eq_true.mpr ⟨e', EpochTable.mem_of_find hfind,
              by simpa using EpochTable.id_of_find hfind⟩
          have hstep : side.step codec (.createEpoch e) = side := by
            simp only [EpochSide.step, EpochSide.createEpoch,
              EpochTable.createEpoch, hany, if_true, Except.error_bind, settle]
          rw [hstep]
          refine ⟨snap, links, h.unchanged trivial ?_⟩
          intro hnone
          rw [hfind] at hnone
          contradiction
  | sealEpoch id summary sealedAt sealedCommits sealHash =>
      by_cases hopen : OpenEpoch side.memory id
      · obtain ⟨e, hfind, hstatus⟩ := hopen
        have hstep : side.step codec
            (.sealEpoch id summary sealedAt sealedCommits sealHash) =
            (EpochSide.mk (side.memory.modify id fun e =>
              { e with
                status := .sealed
                sealedAt := some sealedAt
                sealSummary := some summary
                sealedCommits := sealedCommits
                sealHash := some sealHash })
              side.stored).queueEpochSnapshot codec id := by
          simp only [EpochSide.step, EpochSide.sealEpoch, EpochTable.sealEpoch,
            hfind, hstatus]
          rfl
        rw [hstep]
        refine h.change hfind (fun _ => rfl) (fun _ => rfl) ?_ trivial
        have hpairs := h.saved.records.mem_pairs_iff id
        constructor
        · intro hallowed hlink
          obtain ⟨p, hp, hid⟩ := hpairs.mpr hlink
          exact absurd hid (hallowed ⟨e, hfind, hstatus⟩ p hp)
        · intro hlink _ p hp hid
          have hsealed := hlink (hpairs.mp ⟨p, hp, hid⟩)
          contradiction
      · have hstep : side.step codec
            (.sealEpoch id summary sealedAt sealedCommits sealHash) = side := by
          simp only [EpochSide.step, EpochSide.sealEpoch, EpochTable.sealEpoch]
          cases hfind : side.memory.find id with
          | none => rfl
          | some e =>
              cases hstatus : e.status with
              | active => exact absurd ⟨e, hfind, hstatus⟩ hopen
              | sealed => simp [hstatus, settle]
              | archived => simp [hstatus, settle]
        rw [hstep]
        exact ⟨snap, links, h.unchanged (fun h => absurd h hopen) trivial⟩
  | assignEpochNamespace id ns =>
      by_cases hlands : ∃ e, side.memory.find id = some e ∧ e.namespace_ = none
      · obtain ⟨e, hfind, hns⟩ := hlands
        have hstep : side.step codec (.assignEpochNamespace id ns) =
            { side with
              memory := side.memory.modify id
                fun e => { e with namespace_ := some ns } } := by
          simp only [EpochSide.step, EpochSide.assignEpochNamespace,
            EpochTable.assignEpochNamespace, hfind, hns]
          rfl
        rw [hstep]
        exact h.assign hfind hns
      · have hstep : side.step codec (.assignEpochNamespace id ns) = side := by
          simp only [EpochSide.step, EpochSide.assignEpochNamespace,
            EpochTable.assignEpochNamespace]
          cases hfind : side.memory.find id with
          | none => rfl
          | some e =>
              have hsome : e.namespace_.isSome = true := by
                rw [Option.isSome_iff_ne_none]
                exact fun hns => hlands ⟨e, hfind, hns⟩
              simp only [hsome, if_true]
              rfl
        rw [hstep]
        refine ⟨snap, links, h.unchanged ?_ trivial⟩
        exact fun e hfind hns => hlands ⟨e, hfind, hns⟩
  | setCommitEpoch commit id =>
      by_cases hopen : OpenEpoch side.memory id
      · have hset : side.memory.setCommitEpoch commit id = .ok _ :=
          setCommitEpoch_eq_ok_iff.mpr ⟨hopen, rfl⟩
        have hstep : side.step codec (.setCommitEpoch commit id) =
            (EpochSide.mk
              { side.memory with
                commitEpoch := relink side.memory.commitEpoch (commit, id) }
              (side.stored.pushPair commit id)).queueEpochSnapshot codec id := by
          simp only [EpochSide.step, EpochSide.setCommitEpoch, hset,
            Except.ok_bind, settle]
        rw [hstep]
        exact h.link hopen commit
      · have hstep : side.step codec (.setCommitEpoch commit id) = side := by
          simp only [EpochSide.step, EpochSide.setCommitEpoch]
          cases hset : side.memory.setCommitEpoch commit id with
          | ok t => exact absurd (setCommitEpoch_eq_ok_iff.mp hset).1 hopen
          | error err => rfl
        rw [hstep]
        exact ⟨snap, links, h.unchanged trivial hopen⟩
  | archiveEpoch id =>
      by_cases hlands : ∃ e, side.memory.find id = some e ∧ e.status = .sealed
      · obtain ⟨e, hfind, hstatus⟩ := hlands
        have hstep : side.step codec (.archiveEpoch id) =
            (EpochSide.mk (side.memory.modify id fun e =>
              { e with status := .archived })
              side.stored).queueEpochSnapshot codec id := by
          simp only [EpochSide.step, EpochSide.archiveEpoch,
            EpochTable.archiveEpoch, hfind, hstatus]
          rfl
        rw [hstep]
        refine h.change hfind (fun _ => rfl) (fun _ => rfl) ?_ trivial
        refine ⟨fun _ => ?_, fun _ => trivial⟩
        rintro ⟨l, hl, rfl⟩
        obtain ⟨e', hfind', hstatus'⟩ := h.openEpoch hl
        rw [hfind] at hfind'
        rw [← Option.some.inj hfind', hstatus] at hstatus'
        contradiction
      · have hstep : side.step codec (.archiveEpoch id) = side := by
          simp only [EpochSide.step, EpochSide.archiveEpoch,
            EpochTable.archiveEpoch]
          cases hfind : side.memory.find id with
          | none => rfl
          | some e =>
              have hne : e.status ≠ .sealed :=
                fun hstatus => hlands ⟨e, hfind, hstatus⟩
              simp only [ne_eq, hne, not_false_eq_true, if_true]
              rfl
        rw [hstep]
        exact ⟨snap, links, h.unchanged trivial trivial⟩
  | createSession s => exact ⟨snap, links, h.unchanged trivial trivial⟩
  | endSession id status endedAt =>
      exact ⟨snap, links, h.unchanged trivial trivial⟩
  | setCommitSession commit id =>
      exact ⟨snap, links, h.unchanged trivial trivial⟩
  | drain => exact h.drain

end Calls

end Epochs

/-! ## Loading sessions -/

theorem loadSessions_rows (rows : List Session) (t : Sessions.Table ObjectId) :
    loadSessions codec t (rows.map fun s => (s.id, codec.sessionText s)) =
      .ok { t with
        sessions := applyWrites t.sessions (rows.map fun s => (s.id, s)) } := by
  induction rows generalizing t with
  | nil => rfl
  | cons s rows ih =>
      have hload : loadSession codec t (s.id, codec.sessionText s) =
          .ok (t.createSession s) := by
        simp only [loadSession, codec.parse_session, parseSnapshot,
          Except.ok_bind]
      rw [List.map_cons, loadSessions, List.foldlM_cons, hload, Except.ok_bind]
      exact ih _

/-- A commit is associated with a session that is there and active. -/
def OpenSession {Id : Type} (t : Sessions.Table Id) (id : String) : Prop :=
  ∃ s, t.getSession id = some s ∧ s.status = .active

section

variable {t t' : Sessions.Table ObjectId}

theorem setCommitSession_eq_ok_iff {commit : ObjectId} {id : String} :
    t.setCommitSession commit id = .ok t' ↔ OpenSession t id ∧
      t' = { t with commitSession := relink t.commitSession (commit, id) } := by
  unfold Sessions.Table.setCommitSession OpenSession
  cases t.getSession id with
  | none => simp
  | some s =>
      cases hstatus : s.status with
      | active => simp [hstatus, eq_comm, relink]
      | completed => simp [hstatus]
      | abandoned => simp [hstatus]

theorem loadCommitSession_display {l : ObjectId × String} :
    loadCommitSession t (l.1.display, l.2) = .ok t' ↔ OpenSession t l.2 ∧
      t' = { t with commitSession := relink t.commitSession l } := by
  rw [loadCommitSession, parseId_display, Except.ok_bind,
    liftStorage_eq_ok_iff]
  exact setCommitSession_eq_ok_iff

/-- Associating again is accepted exactly when every session is still
active. -/
theorem loadCommitSessions_eq_ok_iff {links : List (ObjectId × String)} :
    loadCommitSessions t (links.map fun l => (l.1.display, l.2)) = .ok t' ↔
      (∀ l ∈ links, OpenSession t l.2) ∧
        t' = { t with
          commitSession := links.foldl relink t.commitSession } := by
  induction links generalizing t with
  | nil => simp [loadCommitSessions, pure, Except.pure, eq_comm]
  | cons l links ih =>
      rw [List.map_cons, loadCommitSessions, List.foldlM_cons,
        Except.bind_eq_ok_iff]
      constructor
      · rintro ⟨t₁, hl, hrest⟩
        obtain ⟨hopen, rfl⟩ := loadCommitSession_display.mp hl
        obtain ⟨hall, rfl⟩ := ih.mp hrest
        refine ⟨?_, rfl⟩
        intro l' hl'
        rcases List.mem_cons.mp hl' with rfl | hl'
        · exact hopen
        · exact hall l' hl'
      · rintro ⟨hall, rfl⟩
        refine ⟨_, loadCommitSession_display.mpr
          ⟨hall l List.mem_cons_self, rfl⟩, ih.mpr ⟨?_, rfl⟩⟩
        intro l' hl'
        exact hall l' (List.mem_cons_of_mem _ hl')

end

/-! ## Sessions that come back -/

/-- What is persisted of the sessions is what is in memory. -/
structure SessionSide.Saved (side : SessionSide)
    (links : List (ObjectId × String)) : Prop where
  records : Records codec.sessionText (fun s => s.id) side.stored
    side.memory.getSession links
  assoc : side.memory.commitSession = links.foldl relink []

def SessionSide.OpenLinks (side : SessionSide)
    (links : List (ObjectId × String)) : Prop :=
  ∀ l ∈ links, OpenSession side.memory l.2

/-- What a call must not do to the sessions, judged on the state before it:
end, or replace by an ended one, a session that a pair names. -/
def SessionSide.Allowed (side : SessionSide) : Op → Prop
  | .createSession s =>
      s.status ≠ .active → ∀ p ∈ side.stored.drain.pairs, p.2 ≠ s.id
  | .endSession id status _ =>
      status ≠ .active → OpenSession side.memory id →
        ∀ p ∈ side.stored.drain.pairs, p.2 ≠ id
  | _ => True

section Sessions

variable {codec : SnapshotCodec} {side : SessionSide}
  {links : List (ObjectId × String)}

theorem SessionSide.Saved.restores_iff (h : side.Saved codec links) :
    RestoresSessions codec side ↔ side.OpenLinks links := by
  have hreload : ∀ {snapshots},
      snapshots.Perm side.stored.drain.snapshots.toList → ∀ t,
        reloadSessions codec snapshots side.stored.drain.pairs = .ok t ↔
          side.OpenLinks links ∧ t = side.memory := by
    intro snapshots hperm t
    obtain ⟨rows, rfl, hnodup, hsnap⟩ := h.records.exists_rows hperm
    have hsessions : applyWrites ∅ (rows.map fun s => (s.id, s)) =
        side.memory.sessions := by
      apply Std.ExtTreeMap.ext_getElem?
      intro id
      apply Option.ext
      intro s
      have hkeys : ((rows.map fun s => (s.id, s)).map Prod.fst).Nodup := by
        rw [List.map_map]
        exact hnodup
      refine (getElem?_applyWrites_empty_eq_some_iff hkeys).trans ?_
      refine Iff.trans ?_ (hsnap id s).symm
      simp only [List.mem_map, Prod.mk.injEq]
      constructor
      · rintro ⟨s', hs', rfl, rfl⟩
        exact ⟨hs', rfl⟩
      · rintro ⟨hs, rfl⟩
        exact ⟨s, hs, rfl, rfl⟩
    have hload := loadSessions_rows codec rows ⟨∅, []⟩
    rw [reloadSessions, hload, Except.ok_bind, h.records.pairs,
      loadCommitSessions_eq_ok_iff]
    dsimp only
    rw [hsessions, ← h.assoc]
    exact Iff.rfl
  constructor
  · intro hrestores
    obtain ⟨t, hload, -⟩ := hrestores _ (.refl _)
    exact ((hreload (.refl _) t).mp hload).1
  · intro hopen snapshots hperm
    exact ⟨side.memory, (hreload hperm _).mpr ⟨hopen, rfl⟩, rfl, rfl⟩

theorem queueSessionSnapshot_of_get {id : String} {s : Session}
    (h : side.memory.getSession id = some s) :
    side.queueSessionSnapshot codec id =
      { side with
        stored := side.stored.pushSnapshot id (codec.sessionText s) } := by
  rw [SessionSide.queueSessionSnapshot, h]

theorem SessionSide.Saved.write (h : side.Saved codec links) (s : Session) :
    ((SessionSide.mk (side.memory.createSession s)
      side.stored).queueSessionSnapshot codec s.id).Saved codec links ∧
    ((SessionSide.mk (side.memory.createSession s)
      side.stored).queueSessionSnapshot codec s.id).memory =
        side.memory.createSession s := by
  have hself : (side.memory.createSession s).getSession s.id = some s :=
    Std.ExtTreeMap.getElem?_insert_self
  have hget : (side.memory.createSession s).getSession =
      Function.update side.memory.getSession s.id (some s) := by
    funext id
    by_cases hid : id = s.id
    · rw [hid, hself, Function.update_self]
    · rw [Function.update_of_ne hid]
      exact (Std.ExtTreeMap.getElem?_insert).trans
        (if_neg (by simpa using Ne.symm hid))
  rw [queueSessionSnapshot_of_get hself]
  refine ⟨⟨?_, h.assoc⟩, rfl⟩
  dsimp only
  rw [hget]
  exact h.records.pushSnapshot rfl

theorem openLinks_createSession (hopen : side.OpenLinks links) (s : Session)
    (stored : Stored) :
    (SessionSide.mk (side.memory.createSession s) stored).OpenLinks links ↔
      ((∃ l ∈ links, l.2 = s.id) → s.status = .active) := by
  have hself : (side.memory.createSession s).getSession s.id = some s :=
    Std.ExtTreeMap.getElem?_insert_self
  constructor
  · rintro hall ⟨l, hl, hid⟩
    obtain ⟨s', hs', hstatus⟩ := hall l hl
    rw [hid] at hs'
    have heq : some s = some s' := hself.symm.trans hs'
    rwa [← Option.some.inj heq] at hstatus
  · intro hactive l hl
    by_cases hid : l.2 = s.id
    · rw [hid]
      exact ⟨s, hself, hactive ⟨l, hl, hid⟩⟩
    · obtain ⟨s', hs', hstatus⟩ := hopen l hl
      refine ⟨s', ?_, hstatus⟩
      refine Eq.trans ?_ hs'
      exact (Std.ExtTreeMap.getElem?_insert).trans
        (if_neg (by simpa using Ne.symm hid))

theorem SessionSide.Saved.follows_write (h : side.Saved codec links)
    (hopen : side.OpenLinks links) (s : Session) {op : Op}
    (hallowed : side.Allowed op ↔
      ((∃ l ∈ links, l.2 = s.id) → s.status = .active)) :
    ∃ links', ((SessionSide.mk (side.memory.createSession s)
        side.stored).queueSessionSnapshot codec s.id).Saved codec links' ∧
      (((SessionSide.mk (side.memory.createSession s)
        side.stored).queueSessionSnapshot codec s.id).OpenLinks links' ↔
          side.Allowed op) := by
  obtain ⟨hsaved, hmemory⟩ := h.write s
  refine ⟨links, hsaved, ?_⟩
  rw [hallowed, ← openLinks_createSession hopen s side.stored]
  unfold SessionSide.OpenLinks
  rw [hmemory]

/-- Every call, refused or not: the state after it comes back exactly when the
call was allowed. -/
theorem SessionSide.Saved.step (h : side.Saved codec links)
    (hopen : side.OpenLinks links) (op : Op) :
    ∃ links', (side.step codec op).Saved codec links' ∧
      ((side.step codec op).OpenLinks links' ↔ side.Allowed op) := by
  have hunchanged : ∀ op, side.Allowed op →
      ∃ links', side.Saved codec links' ∧
        (side.OpenLinks links' ↔ side.Allowed op) :=
    fun op hallowed => ⟨links, h, ⟨fun _ => hallowed, fun _ => hopen⟩⟩
  have hpairs := h.records.mem_pairs_iff
  cases op with
  | createSession s =>
      refine h.follows_write hopen s ?_
      constructor
      · intro hallowed hlink
        by_contra hstatus
        obtain ⟨p, hp, hid⟩ := (hpairs s.id).mpr hlink
        exact hallowed hstatus p hp hid
      · intro hlink hstatus p hp hid
        exact hstatus (hlink ((hpairs s.id).mp ⟨p, hp, hid⟩))
  | endSession id status endedAt =>
      by_cases hsession : OpenSession side.memory id
      · obtain ⟨s, hget, hactive⟩ := hsession
        have hid : s.id = id := h.records.ident id s hget
        have hstep : side.step codec (.endSession id status endedAt) =
            (SessionSide.mk (side.memory.createSession
              { s with status := status, endedAt := some endedAt })
              side.stored).queueSessionSnapshot codec s.id := by
          simp only [SessionSide.step, SessionSide.endSession,
            Sessions.Table.endSession, hget, hactive, hid,
            Sessions.Table.createSession]
          rfl
        rw [hstep]
        refine h.follows_write hopen
          { s with status := status, endedAt := some endedAt } ?_
        constructor
        · intro hallowed hlink
          by_contra hstatus
          obtain ⟨p, hp, hpid⟩ := (hpairs s.id).mpr hlink
          exact hallowed hstatus ⟨s, hget, hactive⟩ p hp (hpid.trans hid)
        · intro hlink hstatus _ p hp hpid
          exact hstatus (hlink ((hpairs s.id).mp ⟨p, hp, hpid.trans hid.symm⟩))
      · have hstep : side.step codec (.endSession id status endedAt) = side := by
          simp only [SessionSide.step, SessionSide.endSession,
            Sessions.Table.endSession]
          cases hget : side.memory.getSession id with
          | none => rfl
          | some s =>
              have hne : s.status ≠ .active :=
                fun hactive => hsession ⟨s, hget, hactive⟩
              simp only [ne_eq, hne, not_false_eq_true, if_true]
              rfl
        rw [hstep]
        exact hunchanged _ fun _ hsession' => absurd hsession' hsession
  | setCommitSession commit id =>
      by_cases hsession : OpenSession side.memory id
      · have hset : side.memory.setCommitSession commit id = .ok _ :=
          setCommitSession_eq_ok_iff.mpr ⟨hsession, rfl⟩
        obtain ⟨s, hget, hactive⟩ := hsession
        have hstep : side.step codec (.setCommitSession commit id) =
            { memory :=
                { side.memory with
                  commitSession :=
                    relink side.memory.commitSession (commit, id) }
              stored := (side.stored.pushPair commit id).pushSnapshot id
                (codec.sessionText s) } := by
          simp only [SessionSide.step, SessionSide.setCommitSession, hset,
            Except.ok_bind, settle]
          exact queueSessionSnapshot_of_get hget
        rw [hstep]
        refine ⟨links ++ [(commit, id)], ⟨?_, ?_⟩, ?_⟩
        · have hpush := (h.records.pushPair commit id).pushSnapshot
            (h.records.ident id s hget)
          rw [← hget, Function.update_eq_self] at hpush
          exact hpush
        · dsimp only
          rw [List.foldl_append, h.assoc]
          rfl
        · refine ⟨fun _ => trivial, fun _ l hl => ?_⟩
          rcases List.mem_append.mp hl with hl | hl
          · exact hopen l hl
          · rw [List.mem_singleton.mp hl]
            exact ⟨s, hget, hactive⟩
      · have hstep : side.step codec (.setCommitSession commit id) = side := by
          simp only [SessionSide.step, SessionSide.setCommitSession]
          cases hset : side.memory.setCommitSession commit id with
          | ok t =>
              exact absurd (setCommitSession_eq_ok_iff.mp hset).1 hsession
          | error err => rfl
        rw [hstep]
        exact hunchanged _ trivial
  | drain =>
      exact ⟨links, ⟨h.records.drain, h.assoc⟩,
        ⟨fun _ => trivial, fun _ => hopen⟩⟩
  | createEpoch e => exact hunchanged _ trivial
  | sealEpoch => exact hunchanged _ trivial
  | assignEpochNamespace => exact hunchanged _ trivial
  | setCommitEpoch => exact hunchanged _ trivial
  | archiveEpoch => exact hunchanged _ trivial

end Sessions

/-! ## Whole runs -/

/-- Epochs, sessions and associations are restored. -/
def Restores (b : Browser) : Prop :=
  RestoresEpochs codec b.epochs ∧ RestoresSessions codec b.sessions

/-- And the listing of the epochs too. -/
def RestoresAll (b : Browser) : Prop :=
  RestoresListing codec b.epochs ∧ RestoresSessions codec b.sessions

def Allowed (b : Browser) (op : Op) : Prop :=
  b.epochs.Allowed op ∧ b.sessions.Allowed op

/-- Every step of a run is as required in the state it starts from. -/
def Throughout (ops : List Op) (good : Browser → Op → Prop) : Prop :=
  StepRuns.Throughout (step codec) start ops good

/-- Everything persisted, and everything in step. -/
structure Kept (b : Browser) (snap : String → Option Epoch)
    (links : List (ObjectId × String)) : Prop where
  epochs : b.epochs.Kept codec snap links
  sessions : ∃ links, b.sessions.Saved codec links ∧
    b.sessions.OpenLinks links

theorem kept_start : Kept codec start (fun _ => none) [] where
  epochs :=
    { saved := ⟨.empty, rfl, List.nodup_nil⟩
      openLinks := by
        intro l hl
        exact absurd hl List.not_mem_nil
      current := fun _ => rfl }
  sessions := by
    refine ⟨[], ⟨?_, rfl⟩, ?_⟩
    · have hget : (start.sessions.memory).getSession = fun _ => none := by
        funext id
        simp [start, Sessions.Table.getSession]
      rw [hget]
      exact .empty
    · intro l hl
      exact absurd hl List.not_mem_nil

theorem plain_start : start.epochs.Plain (fun _ => none) [] where
  links := rfl
  commits := by
    intro e he
    exact absurd he List.not_mem_nil
  same := fun _ => rfl

variable {codec}

theorem Kept.step {b : Browser} {snap : String → Option Epoch}
    {links : List (ObjectId × String)} (h : Kept codec b snap links) (op : Op) :
    ∃ snap' links', EpochSide.Follows codec b.epochs (step codec b op).epochs
        snap links op snap' links' ∧
      (Restores codec (step codec b op) ↔ Allowed b op) ∧
      (RestoresSessions codec (step codec b op).sessions ↔
        b.sessions.Allowed op) ∧
      (Allowed b op → Kept codec (step codec b op) snap' links') := by
  obtain ⟨snap', links', hfollows⟩ := h.epochs.step op
  obtain ⟨slinks, hsaved, hopen⟩ := h.sessions
  obtain ⟨slinks', hsaved', hopen'⟩ := hsaved.step hopen op
  have hepochs := hfollows.saved.restoresEpochs_iff.trans hfollows.kept
  have hsessions := hsaved'.restores_iff.trans hopen'
  refine ⟨snap', links', hfollows, and_congr hepochs hsessions, hsessions, ?_⟩
  rintro ⟨hepoch, hsession⟩
  obtain ⟨hlinks, hcurrent⟩ := hfollows.kept.mpr hepoch
  exact ⟨⟨hfollows.saved, hlinks, hcurrent⟩, slinks', hsaved',
    hopen'.mpr hsession⟩

variable {b : Browser} {snap : String → Option Epoch}
  {links : List (ObjectId × String)}

theorem Kept.restores (h : Kept codec b snap links) : Restores codec b := by
  obtain ⟨slinks, hsaved, hopen⟩ := h.sessions
  exact ⟨h.epochs.saved.restoresEpochs_iff.mpr
    ⟨h.epochs.openLinks, h.epochs.current⟩, hsaved.restores_iff.mpr hopen⟩

theorem Kept.restoresAll (h : Kept codec b snap links)
    (hplain : b.epochs.Plain snap links) : RestoresAll codec b :=
  ⟨h.epochs.saved.restoresListing_iff.mpr ⟨h.epochs.openLinks, hplain.same⟩,
    h.restores.2⟩

theorem Kept.step_listing (h : Kept codec b snap links)
    (hplain : b.epochs.Plain snap links) (op : Op) :
    (RestoresAll codec (BrowserTables.step codec b op) ↔
      Allowed b op ∧ b.epochs.KeepsListing op) ∧
    (Allowed b op ∧ b.epochs.KeepsListing op →
      ∃ snap' links', Kept codec (BrowserTables.step codec b op) snap' links' ∧
        (BrowserTables.step codec b op).epochs.Plain snap' links') := by
  obtain ⟨snap', links', hfollows, -, hsessions, hnext⟩ := h.step op
  have hgood : Allowed b op ∧ b.epochs.KeepsListing op →
      Kept codec (BrowserTables.step codec b op) snap' links' ∧
        (BrowserTables.step codec b op).epochs.Plain snap' links' := by
    rintro ⟨hallowed, hlisting⟩
    exact ⟨hnext hallowed, hfollows.plain hplain hallowed.1 hlisting⟩
  refine ⟨⟨?_, ?_⟩, fun hboth => ⟨snap', links', hgood hboth⟩⟩
  · rintro ⟨hlist, hsession⟩
    obtain ⟨hopen, hsame⟩ := hfollows.saved.restoresListing_iff.mp hlist
    have hallowed : b.epochs.Allowed op := by
      apply hfollows.kept.mp
      refine ⟨hopen, fun id => ?_⟩
      rw [hsame]
    exact ⟨⟨hallowed, hsessions.mp hsession⟩, hfollows.listing hplain hsame⟩
  · intro hboth
    obtain ⟨hkept, hplain'⟩ := hgood hboth
    exact hkept.restoresAll hplain'

end BrowserTables

open BrowserTables in
/-- Along a run, the store comes back from every state exactly when every step
was allowed; and with the same listing of epochs exactly when, besides, no
epoch was created with commits and no commit was associated with one. -/
theorem browser_tables_restored_iff (codec : SnapshotCodec) (ops : List Op) :
    ((∀ before, before <+: ops → Restores codec (run codec before)) ↔
      Throughout codec ops Allowed) ∧
    ((∀ before, before <+: ops → RestoresAll codec (run codec before)) ↔
      Throughout codec ops fun b op =>
        Allowed b op ∧ b.epochs.KeepsListing op) := by
  have hstart := kept_start codec
  unfold run Throughout
  rw [StepRuns.forall_prefix_iff, StepRuns.forall_prefix_iff,
    and_iff_right hstart.restores,
    and_iff_right (hstart.restoresAll plain_start)]
  constructor
  · refine StepRuns.throughout_congr
      (I := fun b => ∃ snap links, Kept codec b snap links)
      ⟨_, _, hstart⟩ ?_ ?_ ops
    · rintro b op ⟨snap, links, h⟩
      obtain ⟨-, -, -, hiff, -⟩ := h.step op
      exact hiff
    · rintro b op ⟨snap, links, h⟩ hallowed
      obtain ⟨snap', links', -, -, -, hnext⟩ := h.step op
      exact ⟨snap', links', hnext hallowed⟩
  · refine StepRuns.throughout_congr
      (I := fun b => ∃ snap links, Kept codec b snap links ∧
        b.epochs.Plain snap links)
      ⟨_, _, hstart, plain_start⟩ ?_ ?_ ops
    · rintro b op ⟨snap, links, h, hplain⟩
      exact (h.step_listing hplain op).1
    · rintro b op ⟨snap, links, h, hplain⟩ hgood
      exact (h.step_listing hplain op).2 hgood

/-! ## Sealed after commits were associated -/

namespace SealedAfterLink

open Bundles Backend BrowserTables

instance countable_epochStatus : Countable EpochStatus := by
  refine Function.Injective.countable
    (f := fun s : EpochStatus => (s = .active, s = .sealed)) ?_
  intro a b h
  cases a <;> cases b <;> simp_all

instance countable_status : Countable Sessions.Status := by
  refine Function.Injective.countable
    (f := fun s : Sessions.Status => (s = .active, s = .completed)) ?_
  intro a b h
  cases a <;> cases b <;> simp_all

/-- The kind of a scope and its name. -/
def scopeParts : EpochScope → ℕ × String
  | .all => (0, "")
  | .branch name => (1, name)
  | .plan name => (2, name)
  | .workspace name => (3, name)

instance countable_epochScope : Countable EpochScope := by
  refine Function.Injective.countable (f := scopeParts) ?_
  intro a b h
  cases a <;> cases b <;> simp_all [scopeParts]

instance countable_epoch : Countable BrowserTables.Epoch := by
  refine Function.Injective.countable
    (f := fun e : BrowserTables.Epoch =>
      ((e.id, e.description, e.rootIntents, e.status, e.createdAt, e.sealedAt,
        e.sealSummary, e.sealHash),
        (e.commits, e.agents, e.branches, e.tags, e.sealedCommits, e.scope,
          e.namespace_))) ?_
  intro a b h
  simp only [Prod.mk.injEq] at h
  ext1 <;> simp only [h]

instance countable_session : Countable BrowserTables.Session := by
  refine Function.Injective.countable
    (f := fun s : BrowserTables.Session =>
      ((s.id, s.agentId, s.workingBranch, s.head, s.parentSession,
        s.delegatedIntent), (s.reportTo, s.pathScope, s.scopeTenant,
        s.scopeNamespace, s.status, s.createdAt, s.endedAt))) ?_
  rintro ⟨⟩ ⟨⟩ h
  simp_all

theorem nonempty_codec : Nonempty SnapshotCodec := by
  obtain ⟨f, g, hg⟩ := exists_text BrowserTables.Epoch
  obtain ⟨f', g', hg'⟩ := exists_text BrowserTables.Session
  exact ⟨⟨f, g, hg, f', g', hg'⟩⟩

def epoch : BrowserTables.Epoch where
  id := "e"
  description := "release"
  rootIntents := []
  status := .active
  createdAt := 0
  sealedAt := none
  sealSummary := none
  sealHash := none
  commits := []
  agents := []
  branches := []
  tags := []
  sealedCommits := []
  scope := .all
  namespace_ := none

def zero : ObjectId := ⟨List.replicate 32 0, Bundles.length_zeros⟩

def ops : List Op :=
  [.createEpoch epoch, .setCommitEpoch zero "e",
    .sealEpoch "e" "done" 1 [zero] zero]

end SealedAfterLink

open SealedAfterLink BrowserTables in
/-- An epoch that got a commit and was then sealed does not load again. -/
theorem sealed_epoch_not_restored :
    Nonempty SnapshotCodec ∧ ∀ codec : SnapshotCodec,
      ¬ Restores codec (run codec ops) := by
  refine ⟨nonempty_codec, fun codec hrestores => ?_⟩
  obtain ⟨snap₁, links₁, -, -, -, h₁⟩ :=
    (kept_start codec).step (.createEpoch epoch)
  obtain ⟨snap₂, links₂, -, -, -, h₂⟩ :=
    (h₁ ⟨trivial, trivial⟩).step (.setCommitEpoch zero "e")
  obtain ⟨-, -, -, hiff, -⟩ :=
    (h₂ ⟨trivial, trivial⟩).step (.sealEpoch "e" "done" 1 [zero] zero)
  have hallowed := (hiff.mp hrestores).1
  exact hallowed ⟨epoch, rfl, rfl⟩ (zero.display, "e")
    (List.mem_singleton.mpr rfl) rfl

end AgentStateGraph
