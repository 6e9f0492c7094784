import AgentStateGraph.Core.ContentKey
import AgentStateGraph.History.Fold
import AgentStateGraph.Lib.SortedBatch
import AgentStateGraph.Lib.StepRuns
import AgentStateGraph.Repo.Sessions

/-!
# Distilling history on SQLite

The extractor follows the row ids of the commits, and each batch moves the
cursor in the transaction that counts its commits.  A commit is attached to
its session by a second transaction, after the one that stores it: a batch in
between counts it under no session's namespace, and is not corrected later.
-/

namespace AgentStateGraph

namespace History

namespace Sqlite

variable {Id : Type} [Digest Id]

/-! ## The store -/

structure Row (Id : Type) [Digest Id] where
  rowid : ℕ
  commit : Commit Id
deriving DecidableEq

structure SessionRow where
  status : Sessions.Status
  scopeNamespace : Option String

structure State (Id : Type) [Digest Id] where
  rows : List (Row Id)
  /-- The `session_id` of each commit. -/
  sessionOf : Id → Option String
  sessions : String → Option SessionRow
  /-- The commits that are stored and not attached yet. -/
  committers : ℕ → Option (Id × String)
  /-- `commit_cursor`, or 0. -/
  cursor : ℕ
  rollup : Rollup
  milestones : Milestones Id
  /-- What the batches held, in order. -/
  distilled : List (Entry Id)

namespace State

variable (s : State Id)

/-- The namespace a batch attributes a commit to. -/
def namespaceOf (c : Id) : String :=
  (((s.sessionOf c).bind s.sessions).bind SessionRow.scopeNamespace).getD
    historyNamespaceUnknown

def historyUndistilledCommitCount : ℕ :=
  s.rows.countP fun r => decide (s.cursor < r.rowid)

/-! ### Committers -/

def nextRowid : ℕ := (s.rows.map Row.rowid).foldr max 0 + 1

/-- `INSERT OR IGNORE`. -/
def putCommit (c : Commit Id) : State Id :=
  if ∀ r ∈ s.rows, r.commit.id ≠ c.id then
    { s with rows := s.rows ++ [⟨s.nextRowid, c⟩] }
  else s

/-- Only an active session takes commits. -/
def setCommitSession (c : Id) (session : String) : State Id :=
  match s.sessions session with
  | none => s
  | some row =>
      if row.status = .active then
        { s with sessionOf := Function.update s.sessionOf c (some session) }
      else s

/-- `create_commit` stores the commit, and attaches it in a second step. -/
def createCommit (k : ℕ) (c : Commit Id) (session : Option String) :
    State Id :=
  match s.committers k with
  | some _ => s
  | none =>
      { s.putCommit c with
        committers := Function.update s.committers k
          (session.map fun session => (c.id, session)) }

def committed (k : ℕ) : State Id :=
  { s with committers := Function.update s.committers k none }

def attach (k : ℕ) : State Id :=
  match s.committers k with
  | none => s
  | some (c, session) => (s.setCommitSession c session).committed k

/-! ### The extractor -/

/-- `LIMIT` of a count cast to `i64`: a negative limit is none. -/
def batchLimit (batchSize : ℕ) : ℕ :=
  if max batchSize 1 < 2 ^ 63 then max batchSize 1 else s.rows.length

def selectBatch (batchSize : ℕ) : List (Row Id) :=
  SortedBatch.batch Row.rowid (s.batchLimit batchSize)
    (s.rows.filter fun r => s.cursor < r.rowid)

def entry (r : Row Id) : Entry Id := ⟨r.commit, s.namespaceOf r.commit.id⟩

def historyExtractBatch (texts : Texts) (batchSize : ℕ) : State Id :=
  let batch := s.selectBatch batchSize
  { s with
    rollup := (batch.map s.entry).foldl (Rollup.add texts) s.rollup
    milestones := (batch.map s.entry).foldl (Milestones.add texts) s.milestones
    cursor := batch.foldl (fun m r => max r.rowid m) s.cursor
    distilled := s.distilled ++ batch.map s.entry }

end State

/-! ## Runs -/

inductive Op (Id : Type) [Digest Id] where
  | createCommit (k : ℕ) (c : Commit Id) (session : Option String)
  | attach (k : ℕ)
  /-- A committer dies between its two transactions. -/
  | crash (k : ℕ)
  | setStatus (session : String) (status : Sessions.Status)
  /-- A batch that fails changes nothing. -/
  | extract (batchSize : ℕ)

def State.step (texts : Texts) (s : State Id) : Op Id → State Id
  | .createCommit k c session => s.createCommit k c session
  | .attach k => s.attach k
  | .crash k => s.committed k
  | .setStatus session status =>
      { s with
        sessions := Function.update s.sessions session
          ((s.sessions session).map fun row => { row with status := status }) }
  | .extract batchSize => s.historyExtractBatch texts batchSize

/-- The commits and sessions there are before the run. -/
structure Store (Id : Type) [Digest Id] where
  rows : List (Row Id)
  sessionOf : Id → Option String
  sessions : String → Option SessionRow
  pos : ∀ r ∈ rows, 0 < r.rowid
  rowids : (rows.map Row.rowid).Nodup
  ids : (rows.map fun r => r.commit.id).Nodup

/-- Nothing is distilled yet. -/
def start (store : Store Id) : State Id where
  rows := store.rows
  sessionOf := store.sessionOf
  sessions := store.sessions
  committers := fun _ => none
  cursor := 0
  rollup := Rollup.empty
  milestones := Milestones.empty
  distilled := []

/-! ## Every commit once -/

/-- Each commit is counted in the row of its day, agent, category and session
namespace and in no other, and each checkpoint has its milestone. -/
structure Distilled (texts : Texts) (s : State Id) : Prop where
  rollup : ∀ key, s.rollup.commitCount key =
    s.rows.countP fun r => decide ((s.entry r).key texts = key)
  total : ∑ᶠ key, s.rollup.commitCount key = s.rows.length
  milestones : ∀ r ∈ s.rows, s.milestones r.commit.id =
    if (s.entry r).isCheckpoint then some ((s.entry r).milestone texts)
    else none

/-- Once nothing is left to distil and every committer is done, the commits
are distilled. -/
def Settled (texts : Texts) (s : State Id) : Prop :=
  (∀ k, s.committers k = none) → s.historyUndistilledCommitCount = 0 →
    Distilled texts s

/-- What a step must not do: attach a commit to a session after a batch has
counted it under another namespace. -/
def Proper (s : State Id) : Op Id → Prop
  | .attach k =>
      match s.committers k with
      | none => True
      | some (c, session) =>
          (∃ r ∈ s.rows, r.commit.id = c ∧ r.rowid ≤ s.cursor) →
            (s.setCommitSession c session).namespaceOf c = s.namespaceOf c
  | _ => True

instance (s : State Id) (op : Op Id) : Decidable (Proper s op) := by
  unfold Proper
  split
  · split <;> infer_instance
  · infer_instance

/-! ## What every step keeps -/

variable {s s' : State Id} {texts : Texts}

structure Inv (texts : Texts) (s : State Id) : Prop where
  pos : ∀ r ∈ s.rows, 0 < r.rowid
  rowids : (s.rows.map Row.rowid).Nodup
  ids : (s.rows.map fun r => r.commit.id).Nodup
  cursor : s.cursor = 0 ∨ ∃ r ∈ s.rows, r.rowid = s.cursor
  rollup : s.rollup = Rollup.foldEntries texts s.distilled
  milestones : s.milestones = Milestones.foldEntries texts s.distilled
  once : (s.distilled.map fun e => e.commit.id).Nodup
  visible : ∀ e ∈ s.distilled, ∃ r ∈ s.rows, e = s.entry r ∧
    r.rowid ≤ s.cursor
  behind : ∀ r ∈ s.rows, r.rowid ≤ s.cursor → s.entry r ∈ s.distilled

theorem State.entry_congr {r : Row Id}
    (h : s'.namespaceOf r.commit.id = s.namespaceOf r.commit.id) :
    s'.entry r = s.entry r := by
  simp only [State.entry, h]

theorem inv_of_names (hinv : Inv texts s) (hrows : s'.rows = s.rows)
    (hcursor : s'.cursor = s.cursor) (hrollup : s'.rollup = s.rollup)
    (hmilestones : s'.milestones = s.milestones)
    (hdistilled : s'.distilled = s.distilled)
    (hnames : ∀ r ∈ s.rows, r.rowid ≤ s.cursor →
      s'.namespaceOf r.commit.id = s.namespaceOf r.commit.id) :
    Inv texts s' := by
  refine ⟨by rw [hrows]; exact hinv.pos, by rw [hrows]; exact hinv.rowids,
    by rw [hrows]; exact hinv.ids, by rw [hrows, hcursor]; exact hinv.cursor,
    by rw [hrollup, hdistilled]; exact hinv.rollup,
    by rw [hmilestones, hdistilled]; exact hinv.milestones,
    by rw [hdistilled]; exact hinv.once, ?_, ?_⟩
  · intro e he
    rw [hdistilled] at he
    obtain ⟨r, hr, rfl, hle⟩ := hinv.visible e he
    refine ⟨r, hrows ▸ hr, ?_, hcursor ▸ hle⟩
    exact (State.entry_congr (hnames r hr hle)).symm
  · intro r hr hle
    rw [hrows] at hr
    rw [hcursor] at hle
    rw [hdistilled, State.entry_congr (hnames r hr hle)]
    exact hinv.behind r hr hle

theorem le_foldr_max {xs : List ℕ} {x : ℕ} (h : x ∈ xs) :
    x ≤ xs.foldr max 0 := by
  induction xs with
  | nil => contradiction
  | cons y ys ih =>
      rcases List.mem_cons.mp h with rfl | h
      · exact le_max_left _ _
      · exact (ih h).trans (le_max_right _ _)

theorem State.lt_nextRowid {r : Row Id} (h : r ∈ s.rows) :
    r.rowid < s.nextRowid :=
  Nat.lt_succ_of_le (le_foldr_max (List.mem_map_of_mem h))

theorem inv_putCommit (hinv : Inv texts s) (c : Commit Id) :
    Inv texts (s.putCommit c) := by
  unfold State.putCommit
  by_cases hnew : ∀ r ∈ s.rows, r.commit.id ≠ c.id
  · rw [if_pos hnew]
    have hcursor : s.cursor < s.nextRowid := by
      rcases hinv.cursor with h | ⟨r, hr, h⟩
      · rw [h]
        exact Nat.succ_pos _
      · rw [← h]
        exact State.lt_nextRowid hr
    have hmem : ∀ r, r ∈ s.rows ++ [⟨s.nextRowid, c⟩] ↔
        r ∈ s.rows ∨ r = ⟨s.nextRowid, c⟩ := by simp
    refine ⟨?_, ?_, ?_, ?_, hinv.rollup, hinv.milestones, hinv.once, ?_, ?_⟩
    · intro r hr
      rcases (hmem r).mp hr with hr | rfl
      · exact hinv.pos r hr
      · exact Nat.succ_pos _
    · rw [List.map_append, List.nodup_append']
      refine ⟨hinv.rowids, List.nodup_singleton _, ?_⟩
      intro rowid hold hlast
      obtain ⟨r, hr, rfl⟩ := List.mem_map.mp hold
      have heq : r.rowid = s.nextRowid := by simpa using hlast
      exact absurd heq (ne_of_lt (State.lt_nextRowid hr))
    · rw [List.map_append, List.nodup_append']
      refine ⟨hinv.ids, List.nodup_singleton _, ?_⟩
      intro id hold hlast
      obtain ⟨r, hr, rfl⟩ := List.mem_map.mp hold
      exact hnew r hr (by simpa using hlast)
    · rcases hinv.cursor with h | ⟨r, hr, h⟩
      · exact Or.inl h
      · exact Or.inr ⟨r, (hmem r).mpr (Or.inl hr), h⟩
    · intro e he
      obtain ⟨r, hr, rfl, hle⟩ := hinv.visible e he
      exact ⟨r, (hmem r).mpr (Or.inl hr), rfl, hle⟩
    · intro r hr hle
      rcases (hmem r).mp hr with hr | rfl
      · exact hinv.behind r hr hle
      · exact absurd hle (not_le_of_gt hcursor)
  · rw [if_neg hnew]
    exact hinv

theorem foldl_max_rowid (batch : List (Row Id)) (n : ℕ) :
    n ≤ batch.foldl (fun m r => max r.rowid m) n ∧
      (∀ r ∈ batch, r.rowid ≤ batch.foldl (fun m r => max r.rowid m) n) ∧
      (batch.foldl (fun m r => max r.rowid m) n = n ∨
        ∃ r ∈ batch, r.rowid = batch.foldl (fun m r => max r.rowid m) n) := by
  induction batch using List.reverseRecOn with
  | nil => simp
  | append_singleton batch last ih =>
      obtain ⟨hle, hall, hsome⟩ := ih
      rw [List.foldl_append, List.foldl_cons, List.foldl_nil]
      refine ⟨hle.trans (le_max_right _ _), ?_, ?_⟩
      · intro r hr
        rcases List.mem_append.mp hr with hr | hr
        · exact (hall r hr).trans (le_max_right _ _)
        · rw [List.mem_singleton.mp hr]
          exact le_max_left _ _
      · rcases max_choice last.rowid
          (batch.foldl (fun m r => max r.rowid m) n) with h | h
        · exact Or.inr ⟨last, by simp, h.symm⟩
        · rw [h]
          rcases hsome with hn | ⟨r, hr, heq⟩
          · exact Or.inl hn
          · exact Or.inr ⟨r, List.mem_append_left _ hr, heq⟩

theorem inv_historyExtractBatch (hinv : Inv texts s) (batchSize : ℕ) :
    Inv texts (s.historyExtractBatch texts batchSize) := by
  let batch := s.selectBatch batchSize
  let cursor := batch.foldl (fun m r => max r.rowid m) s.cursor
  obtain ⟨hafter, hall, hsome⟩ := foldl_max_rowid batch s.cursor
  have hbatch : ∀ r ∈ batch, r ∈ s.rows ∧ s.cursor < r.rowid := by
    intro r hr
    simpa using SortedBatch.mem_of_mem_batch hr
  have hdistinct : ∀ a ∈ s.rows, ∀ b ∈ s.rows, a.rowid = b.rowid → a = b :=
    fun a ha b hb h => List.inj_on_of_nodup_map hinv.rowids ha hb h
  -- Up to the new cursor, the batch leaves nothing out.
  have hcovers : ∀ r ∈ s.rows, s.cursor < r.rowid → r.rowid ≤ cursor →
      r ∈ batch := by
    intro r hr hlater hle
    rcases hsome with hsame | ⟨last, hlast, heq⟩
    · have heq : cursor = s.cursor := hsame
      omega
    · have hnonempty : batch ≠ [] := List.ne_nil_of_mem hlast
      obtain ⟨final, hfinal⟩ :=
        Option.isSome_iff_exists.mp (List.getLast?_isSome.mpr hnonempty)
      refine SortedBatch.mem_batch_of_le ?_ hfinal (by simp [hr, hlater]) ?_
      · intro a ha b hb hab
        exact hdistinct a (List.mem_of_mem_filter ha) b
          (List.mem_of_mem_filter hb) hab
      · have hlastFinal := SortedBatch.le_getLast hfinal hlast
        have hcursor : cursor = last.rowid := heq.symm
        exact hle.trans (hcursor ▸ hlastFinal)
  have hentry : ∀ r, (s.historyExtractBatch texts batchSize).entry r =
      s.entry r := fun _ => rfl
  have hids : ((batch.map s.entry).map fun e => e.commit.id).Nodup := by
    have hfiltered : ((s.rows.filter fun r => decide (s.cursor < r.rowid)).map
        fun r => r.commit.id).Nodup :=
      hinv.ids.sublist (List.filter_sublist.map _)
    rw [List.map_map]
    exact SortedBatch.nodup_map_batch hfiltered
  refine ⟨hinv.pos, hinv.rowids, hinv.ids, ?_, ?_, ?_, ?_, ?_, ?_⟩
  · rcases hsome with hsame | ⟨r, hr, heq⟩
    · rcases hinv.cursor with hzero | ⟨r, hr, heq⟩
      · exact Or.inl (hsame.trans hzero)
      · exact Or.inr ⟨r, hr, heq.trans hsame.symm⟩
    · exact Or.inr ⟨r, (hbatch r hr).1, heq⟩
  · change (batch.map s.entry).foldl (Rollup.add texts) s.rollup =
      Rollup.foldEntries texts (s.distilled ++ batch.map s.entry)
    rw [Rollup.foldEntries_append, ← hinv.rollup, Rollup.upsert_foldEntries]
  · change (batch.map s.entry).foldl (Milestones.add texts) s.milestones =
      Milestones.foldEntries texts (s.distilled ++ batch.map s.entry)
    rw [Milestones.foldEntries_append, ← hinv.milestones,
      Milestones.insertOrIgnore_foldEntries]
  · change ((s.distilled ++ batch.map s.entry).map _).Nodup
    rw [List.map_append, List.nodup_append']
    refine ⟨hinv.once, hids, ?_⟩
    intro id hfolded hnew
    obtain ⟨e, he, rfl⟩ := List.mem_map.mp hfolded
    obtain ⟨r, hr, rfl, hle⟩ := hinv.visible e he
    obtain ⟨e', he', hid⟩ := List.mem_map.mp hnew
    obtain ⟨r', hr', rfl⟩ := List.mem_map.mp he'
    obtain ⟨hrow, hlater⟩ := hbatch r' hr'
    have hsame : r' = r := List.inj_on_of_nodup_map hinv.ids hrow hr hid
    rw [hsame] at hlater
    omega
  · intro e he
    rcases List.mem_append.mp he with he | he
    · obtain ⟨r, hr, rfl, hle⟩ := hinv.visible e he
      exact ⟨r, hr, rfl, hle.trans hafter⟩
    · obtain ⟨r, hr, rfl⟩ := List.mem_map.mp he
      exact ⟨r, (hbatch r hr).1, rfl, hall r hr⟩
  · intro r hr hle
    refine List.mem_append.mpr ?_
    by_cases hold : r.rowid ≤ s.cursor
    · exact Or.inl (hinv.behind r hr hold)
    · exact Or.inr (List.mem_map_of_mem
        (hcovers r hr (not_le.mp hold) hle))

theorem State.setCommitSession_eq (s : State Id) (c : Id) (session : String) :
    ∃ f, s.setCommitSession c session = { s with sessionOf := f } ∧
      ∀ c', c' ≠ c → f c' = s.sessionOf c' := by
  unfold State.setCommitSession
  split
  · exact ⟨s.sessionOf, rfl, fun _ _ => rfl⟩
  · split
    · exact ⟨_, rfl, fun _ hne => Function.update_of_ne hne _ _⟩
    · exact ⟨s.sessionOf, rfl, fun _ _ => rfl⟩

theorem inv_step (hinv : Inv texts s) {op : Op Id} (hproper : Proper s op) :
    Inv texts (s.step texts op) := by
  cases op with
  | createCommit k c session =>
      simp only [State.step, State.createCommit]
      split
      · exact hinv
      · have hput := inv_putCommit hinv c
        exact inv_of_names hput rfl rfl rfl rfl rfl fun _ _ _ => rfl
  | attach k =>
      simp only [State.step, State.attach]
      split
      · exact hinv
      next c session hk =>
        obtain ⟨f, hf, hothers⟩ := State.setCommitSession_eq s c session
        simp only [Proper, hk, hf] at hproper
        rw [hf]
        refine inv_of_names hinv rfl rfl rfl rfl rfl ?_
        intro r hr hle
        by_cases hc : r.commit.id = c
        · rw [hc]
          exact hproper ⟨r, hr, hc, hle⟩
        · simp only [State.namespaceOf, State.committed, hothers _ hc]
  | crash k => exact inv_of_names hinv rfl rfl rfl rfl rfl fun _ _ _ => rfl
  | setStatus session status =>
      refine inv_of_names hinv rfl rfl rfl rfl rfl fun r _ _ => ?_
      simp only [State.step, State.namespaceOf]
      cases s.sessionOf r.commit.id with
      | none => rfl
      | some id =>
          simp only [Option.bind_some]
          by_cases hid : id = session
          · rw [hid, Function.update_self]
            cases s.sessions session <;> rfl
          · rw [Function.update_of_ne hid]
  | extract batchSize => exact inv_historyExtractBatch hinv batchSize

theorem inv_start (store : Store Id) : Inv texts (start store) := by
  constructor
  case pos => exact store.pos
  case rowids => exact store.rowids
  case ids => exact store.ids
  case cursor => exact Or.inl rfl
  case rollup => rfl
  case milestones => rfl
  case behind =>
    intro r hr hle
    exact absurd hle (not_le_of_gt (store.pos r hr))
  all_goals simp [start]

/-- With nothing left to distil, the batches held exactly the commits. -/
theorem Inv.perm (h : Inv texts s)
    (hzero : s.historyUndistilledCommitCount = 0) :
    s.distilled.Perm (s.rows.map s.entry) := by
  have hrows : (s.rows.map s.entry).Nodup := by
    have hids : ((s.rows.map s.entry).map fun e => e.commit.id).Nodup := by
      simpa [State.entry, Function.comp_def] using h.ids
    exact hids.of_map
  refine (List.perm_ext_iff_of_nodup h.once.of_map hrows).mpr ?_
  intro e
  constructor
  · intro he
    obtain ⟨r, hr, rfl, -⟩ := h.visible e he
    exact List.mem_map_of_mem hr
  · intro he
    obtain ⟨r, hr, rfl⟩ := List.mem_map.mp he
    have hle : ¬s.cursor < r.rowid := by
      intro hlt
      have hpos : 0 < s.historyUndistilledCommitCount :=
        List.countP_pos_iff.mpr ⟨r, hr, decide_eq_true hlt⟩
      omega
    exact h.behind r hr (not_lt.mp hle)

theorem Inv.distilled_of_zero (h : Inv texts s)
    (hzero : s.historyUndistilledCommitCount = 0) : Distilled texts s := by
  have hperm := h.perm hzero
  refine ⟨?_, ?_, ?_⟩
  · intro key
    rw [h.rollup, Rollup.commitCount_foldEntries, hperm.countP_eq,
      List.countP_map]
    rfl
  · rw [h.rollup, Rollup.sum_commitCount, hperm.length_eq, List.length_map]
  · intro r hr
    rw [h.milestones]
    exact Milestones.foldEntries_of_nodup texts h.once
      (hperm.mem_iff.mpr (List.mem_map_of_mem hr))

/-- Where no commit is attached to a session after a batch has counted it under
another namespace, every state with nothing left to distil has each commit in
the row of its own session's namespace. -/
theorem history_distilled_once (texts : Texts) (store : Store Id)
    (ops : List (Op Id))
    (hproper : StepRuns.Throughout (State.step texts) (start store) ops
      Proper) :
    ∀ before, before <+: ops →
      Settled texts (StepRuns.run (State.step texts) (start store) before) := by
  intro before hpre _ hzero
  have hinv : Inv texts
      (StepRuns.run (State.step texts) (start store) before) :=
    StepRuns.invariant_prefix (inv_start store)
      (fun s op hinv hproper => inv_step hinv hproper) hproper hpre
  exact hinv.distilled_of_zero hzero

/-! ### A batch between the two steps -/

namespace Between

def plainTexts : Texts := ⟨fun _ => "day", fun _ => "time", fun s => s⟩

def commit : Commit ContentKey := ContentKey.commitOf Object.emptyMap [] 0

def store : Store ContentKey where
  rows := []
  sessionOf := fun _ => none
  sessions := fun id =>
    if id = "s" then some ⟨.active, some "team"⟩ else none
  pos := by simp
  rowids := by simp
  ids := by simp

def after (ops : List (Op ContentKey)) : State ContentKey :=
  StepRuns.run (State.step plainTexts) (start store) ops

/-- The batch comes between the commit and its session. -/
def early : List (Op ContentKey) :=
  [.createCommit 0 commit (some "s"), .extract 10, .attach 0]

/-- The batch comes after both. -/
def inTurn : List (Op ContentKey) :=
  [.createCommit 0 commit (some "s"), .attach 0, .extract 10, .extract 10]

end Between

open Between in
theorem history_distilled_inTurn :
    (after inTurn).historyUndistilledCommitCount = 0 ∧
      Settled plainTexts (after inTurn) := by
  refine ⟨by decide, ?_⟩
  refine history_distilled_once plainTexts store inTurn ?_ inTurn List.prefix_rfl
  simp only [inTurn, StepRuns.throughout_cons_iff]
  exact ⟨by decide, by decide, by decide,
    by decide, StepRuns.throughout_nil⟩

open Between in
/-- A commit that a batch counts before it is attached to its session stays in
the row of no namespace. -/
theorem not_settled_early : ¬Settled plainTexts (after early) := by
  intro h
  have hstored : (after (early.take 2)).committers =
      Function.update (fun _ : ℕ => none) 0 (some (commit.id, "s")) := rfl
  have hdone : ∀ k, (after early).committers k = none := by
    obtain ⟨f, hf, -⟩ := State.setCommitSession_eq (after (early.take 2))
      commit.id "s"
    have hlast : after early = State.committed
        { after (early.take 2) with sessionOf := f } 0 := by
      rw [← hf]
      change (after (early.take 2)).attach 0 = _
      simp only [State.attach, hstored, Function.update_self]
    intro k
    rw [hlast]
    simp [State.committed, hstored]
  have hdistilled := h hdone (by decide)
  have hcount := hdistilled.rollup
    (((after early).entry ⟨1, commit⟩).key plainTexts)
  revert hcount
  decide

end Sqlite

end History

end AgentStateGraph
