import AgentStateGraph.History.TextColumns
import AgentStateGraph.Lib.SortedBatch
import AgentStateGraph.Lib.StepRuns

/-!
# Distilling every commit

The rows of the commits hold every text, a U+0000 included, but the history
tables do not.  A batch with a commit that one of their columns refuses fails
as a whole and leaves the cursor where it is, and the next call begins with the
same commit: the history of a tenant is distilled to its end exactly when each
of the waiting commits can be folded.
-/

namespace AgentStateGraph

namespace PostgresHistory

open History PostgresRows

/-! ## The store -/

structure Cursor where
  xid : ℕ
  commitId : List ℕ
  folded : ℕ

/-- A row of `commits`, with the id of the transaction that wrote it. -/
structure StoredCommit where
  xid : ℕ
  commit : PostgresRows.Commit

/-- Transaction id, then the bytes of the commit id. -/
abbrev Position := ℕ ×ₗ List ℕ

def idBytes (id : ObjectId) : List ℕ := id.1.map UInt8.toNat

def StoredCommit.position (r : StoredCommit) : Position :=
  toLex (r.xid, idBytes r.commit.id)

/-- What a tenant's tables hold while no other transaction runs. -/
structure State where
  nextXid : ℕ
  commits : List StoredCommit
  /-- The namespace of the session a commit is attached to. -/
  namespaces : ObjectId → Option PgText
  cursor : Option Cursor
  tables : Tables

namespace State

def empty : State where
  nextXid := 1
  commits := []
  namespaces := fun _ => none
  cursor := none
  tables := Tables.empty

variable (s : State)

/-- The cursor, or where a new one stands. -/
def position : Position :=
  match s.cursor with
  | some c => toLex (c.xid, c.commitId)
  | none => toLex (0, [])

/-- The commits after the cursor. -/
def waiting : List StoredCommit :=
  s.commits.filter fun r => s.position < r.position

def historyUndistilledCommitCount : ℕ := s.waiting.length

/-- `gc_sweep` refuses while there are commits to distill. -/
def sweepRefused : Bool := 0 < s.historyUndistilledCommitCount

/-- `INSERT … ON CONFLICT DO NOTHING`.  The row's `data` and `exact` columns
are what `row_json` makes of the commit, which Postgres takes. -/
def putCommit (c : PostgresRows.Commit) : State :=
  if s.commits.any fun r => r.commit.id == c.id then
    { s with nextXid := s.nextXid + 1 }
  else
    { s with
      nextXid := s.nextXid + 1
      commits := s.commits ++ [⟨s.nextXid, c⟩] }

def sqlCount (n : ℕ) : ℕ := min n (2 ^ 63 - 1)

/-- The next rows, all older than the extractor's own transaction. -/
def selectBatch (limit : ℕ) : List StoredCommit :=
  SortedBatch.batch StoredCommit.position limit
    (s.waiting.filter fun r => r.xid < s.nextXid)

def namespaceOf (id : ObjectId) : String :=
  match s.namespaces id with
  | some ns => ns.1
  | none => historyNamespaceUnknown

end State

section Extraction

variable (texts : PlainTexts) (text : NumberText) (time : TimeText)

/-- What the columns of a row read back as. -/
def commitFromRow (r : StoredCommit) :
    Except ExtractError PostgresRows.Commit :=
  match fromRowJson text (commit time) (rowJson (commit time) r.commit) with
  | some c => .ok c
  | none => .error .serialization

/-- Add the rows of a batch. -/
def foldRows (s : State) (rows : List StoredCommit) :
    Except ExtractError HistoryFold :=
  rows.foldlM (fun fold r => do
    let commit ← commitFromRow text time r
    .ok (fold.add texts.toTexts commit (s.namespaceOf r.commit.id)))
    HistoryFold.new

/-- A call that waits for nobody: there is no other transaction.  On an error
its own transaction is rolled back. -/
def historyExtractBatch (s : State) (batchSize : ℕ) :
    Except ExtractError ℕ × State :=
  let rows := s.selectBatch (State.sqlCount (max batchSize 1))
  let done := { s with nextXid := s.nextXid + 1 }
  match rows.getLast? with
  | none => (.ok 0, done)
  | some last =>
      match foldRows texts text time s rows with
      | .error e => (.error e, done)
      | .ok fold =>
          match fold.write s.tables with
          | .error e => (.error e, done)
          | .ok tables =>
              (.ok rows.length,
                { done with
                  tables := tables
                  cursor := some
                    { xid := last.xid
                      commitId := idBytes last.commit.id
                      folded := s.cursor.elim 0 Cursor.folded +
                        rows.length } })

inductive Op where
  | putCommit (c : PostgresRows.Commit)
  | attach (id : ObjectId) (ns : Option PgText)
  | extract (batchSize : ℕ)

def State.step (s : State) : Op → State
  | .putCommit c => s.putCommit c
  | .attach id ns => { s with namespaces := Function.update s.namespaces id ns }
  | .extract batchSize => (historyExtractBatch texts text time s batchSize).2

/-- The state after `k` calls. -/
def State.after (s : State) (sizes : ℕ → ℕ) : ℕ → State
  | 0 => s
  | k + 1 => (historyExtractBatch texts text time (after s sizes k) (sizes k)).2

/-- Whatever the sizes of its batches, each call returns `Ok`, and after some
of them every commit is folded and a sweep is not refused. -/
def State.Drains (s : State) : Prop :=
  ∀ sizes : ℕ → ℕ,
    (∀ k, ∃ n, (historyExtractBatch texts text time
      (s.after texts text time sizes k) (sizes k)).1 = .ok n) ∧
    ∃ k, (s.after texts text time sizes k).historyUndistilledCommitCount = 0 ∧
      (s.after texts text time sizes k).sweepRefused = false

/-- The row of a commit is read back, and what a `TEXT` column takes of the
commit has no U+0000. -/
structure Foldable (c : PostgresRows.Commit) : Prop extends PlainCommit c where
  read : (fromRowJson text (commit time) (rowJson (commit time) c)).isSome

/-! ## One batch -/

variable {texts text time} {s : State} {rows : List StoredCommit}
  {batchSize : ℕ}

theorem commitFromRow_eq_ok {r : StoredCommit} {c : PostgresRows.Commit}
    (h : commitFromRow text time r = .ok c) :
    r.commit.SameTexts c ∧
      (fromRowJson text (commit time) (rowJson (commit time) r.commit)).isSome := by
  unfold commitFromRow at h
  split at h
  next c' hread =>
    obtain rfl := Except.ok.inj h
    exact ⟨sameTexts_of_fromRowJson hread, by rw [hread]; rfl⟩
  next => contradiction

theorem exists_commitFromRow_iff {r : StoredCommit} :
    (∃ c, commitFromRow text time r = .ok c) ↔
      (fromRowJson text (commit time) (rowJson (commit time) r.commit)).isSome := by
  unfold commitFromRow
  cases fromRowJson text (commit time) (rowJson (commit time) r.commit) with
  | none => simp
  | some c => simp

theorem State.namespaceOf_plain (id : ObjectId) :
    hasNulText (s.namespaceOf id) = false := by
  unfold State.namespaceOf
  cases s.namespaces id with
  | none => decide
  | some ns => exact ns.2

variable (texts text time s) in
/-- One row added. -/
def foldRow (fold : HistoryFold) (r : StoredCommit) :
    Except ExtractError HistoryFold := do
  let commit ← commitFromRow text time r
  .ok (fold.add texts.toTexts commit (s.namespaceOf r.commit.id))

theorem foldRows_eq :
    foldRows texts text time s rows =
      rows.foldlM (foldRow texts text time s) HistoryFold.new := rfl

theorem stamped_foldlM {acc fold : HistoryFold} (hacc : acc.Stamped)
    (h : rows.foldlM (foldRow texts text time s) acc = .ok fold) :
    fold.Stamped := by
  induction rows generalizing acc with
  | nil =>
      obtain rfl := Except.ok.inj h
      exact hacc
  | cons r rows ih =>
      rw [List.foldlM_cons] at h
      obtain ⟨acc', hrow, h⟩ := Except.bind_eq_ok_iff.mp h
      obtain ⟨c, -, hrow⟩ := Except.bind_eq_ok_iff.mp hrow
      obtain rfl := Except.ok.inj hrow
      exact ih (HistoryFold.stamped_add hacc) h

theorem exists_foldlM_iff {acc : HistoryFold} :
    (∃ fold, rows.foldlM (foldRow texts text time s) acc = .ok fold ∧
        fold.Plain) ↔
      acc.Plain ∧ ∀ r ∈ rows, Foldable text time r.commit := by
  induction rows generalizing acc with
  | nil => simp [pure, Except.pure]
  | cons r rows ih =>
      rw [List.foldlM_cons, foldRow]
      cases hread : commitFromRow text time r with
      | error e =>
          have hlost : ¬ Foldable text time r.commit := by
            intro hr
            obtain ⟨c, hc⟩ := exists_commitFromRow_iff.mpr hr.read
            rw [hc] at hread
            contradiction
          simp [hlost]
      | ok c =>
          obtain ⟨hsame, hsome⟩ := commitFromRow_eq_ok hread
          have hr : Foldable text time r.commit ↔ PlainCommit c := by
            rw [plainCommit_congr hsame]
            exact ⟨fun h => h.toPlainCommit, fun h => ⟨h, hsome⟩⟩
          rw [Except.ok_bind, Except.ok_bind, ih,
            HistoryFold.plain_add_iff (State.namespaceOf_plain _),
            List.forall_mem_cons, hr, and_assoc]

theorem exists_written_iff {tables : Tables} :
    (∃ t, (foldRows texts text time s rows >>= fun fold => fold.write tables) =
      .ok t) ↔ ∀ r ∈ rows, Foldable text time r.commit := by
  have hplain : (∃ fold, rows.foldlM (foldRow texts text time s)
      HistoryFold.new = .ok fold ∧ fold.Plain) ↔
        HistoryFold.new.Plain ∧ ∀ r ∈ rows, Foldable text time r.commit :=
    exists_foldlM_iff
  rw [and_iff_right HistoryFold.plain_new] at hplain
  rw [← hplain, foldRows_eq]
  constructor
  · rintro ⟨t, h⟩
    obtain ⟨fold, hfold, hwrite⟩ := Except.bind_eq_ok_iff.mp h
    have hstamped := stamped_foldlM HistoryFold.stamped_new hfold
    exact ⟨fold, hfold, (HistoryFold.exists_write_iff hstamped).mp ⟨t, hwrite⟩⟩
  · rintro ⟨fold, hfold, hfoldPlain⟩
    have hstamped := stamped_foldlM HistoryFold.stamped_new hfold
    obtain ⟨t, ht⟩ : ∃ t, fold.write tables = .ok t :=
      (HistoryFold.exists_write_iff hstamped).mpr hfoldPlain
    exact ⟨t, Except.bind_eq_ok_iff.mpr ⟨fold, hfold, ht⟩⟩

/-- The rows of the next batch. -/
def State.nextRows (s : State) (batchSize : ℕ) : List StoredCommit :=
  s.selectBatch (State.sqlCount (max batchSize 1))

theorem historyExtractBatch_of_nil (h : s.nextRows batchSize = []) :
    historyExtractBatch texts text time s batchSize =
      (.ok 0, { s with nextXid := s.nextXid + 1 }) := by
  unfold State.nextRows at h
  simp [historyExtractBatch, h]

/-- The cursor after a batch. -/
def State.cursorAt (s : State) (last : StoredCommit) (count : ℕ) : Cursor where
  xid := last.xid
  commitId := idBytes last.commit.id
  folded := s.cursor.elim 0 Cursor.folded + count

/-- The store after a batch up to `last`. -/
def State.moved (s : State) (last : StoredCommit) (count : ℕ) (tables : Tables) :
    State :=
  { s with
    nextXid := s.nextXid + 1
    tables := tables
    cursor := some (s.cursorAt last count) }

section

variable {last r : StoredCommit} {n : ℕ}

theorem historyExtractBatch_ok {tables : Tables}
    (hlast : (s.nextRows batchSize).getLast? = some last)
    (h : (foldRows texts text time s (s.nextRows batchSize) >>=
      fun fold => fold.write s.tables) = .ok tables) :
    historyExtractBatch texts text time s batchSize =
      (.ok (s.nextRows batchSize).length,
        s.moved last (s.nextRows batchSize).length tables) := by
  obtain ⟨fold, hfold, hwrite⟩ := Except.bind_eq_ok_iff.mp h
  unfold State.nextRows at hlast hfold ⊢
  simp only [historyExtractBatch, hlast, hfold, hwrite]
  rfl

theorem historyExtractBatch_error {e : ExtractError}
    (hlast : (s.nextRows batchSize).getLast? = some last)
    (h : (foldRows texts text time s (s.nextRows batchSize) >>=
      fun fold => fold.write s.tables) = .error e) :
    historyExtractBatch texts text time s batchSize =
      (.error e, { s with nextXid := s.nextXid + 1 }) := by
  unfold State.nextRows at hlast h
  rcases Except.bind_eq_error_iff.mp h with hfold | ⟨fold, hfold, hwrite⟩
  · simp only [historyExtractBatch, hlast, hfold]
  · simp only [historyExtractBatch, hlast, hfold, hwrite]

/-- A call returns `Ok` exactly when each commit of its batch is foldable. -/
theorem exists_ok_iff :
    (∃ n, (historyExtractBatch texts text time s batchSize).1 = .ok n) ↔
      ∀ r ∈ s.nextRows batchSize, Foldable text time r.commit := by
  rw [← @exists_written_iff texts text time s (s.nextRows batchSize) s.tables]
  cases hlast : (s.nextRows batchSize).getLast? with
  | none =>
      have hnil := List.getLast?_eq_none_iff.mp hlast
      rw [historyExtractBatch_of_nil hnil, exists_written_iff, hnil]
      simp
  | some last =>
      cases h : foldRows texts text time s (s.nextRows batchSize) >>=
          fun fold => fold.write s.tables with
      | error e => simp [historyExtractBatch_error hlast h]
      | ok tables => simp [historyExtractBatch_ok hlast h]

/-- What a call that returns `Ok` leaves behind. -/
theorem historyExtractBatch_of_ok
    (h : (historyExtractBatch texts text time s batchSize).1 = .ok n) :
    (s.nextRows batchSize = [] ∧
        (historyExtractBatch texts text time s batchSize).2 =
          { s with nextXid := s.nextXid + 1 }) ∨
      ∃ last count tables, (s.nextRows batchSize).getLast? = some last ∧
        (historyExtractBatch texts text time s batchSize).2 =
          s.moved last count tables := by
  cases hlast : (s.nextRows batchSize).getLast? with
  | none =>
      have hnil := List.getLast?_eq_none_iff.mp hlast
      exact Or.inl ⟨hnil, by rw [historyExtractBatch_of_nil hnil]⟩
  | some last =>
      obtain ⟨tables, htables⟩ : ∃ t,
          (foldRows texts text time s (s.nextRows batchSize) >>=
            fun fold => fold.write s.tables) = .ok t :=
        exists_written_iff.mpr (exists_ok_iff.mp ⟨n, h⟩)
      exact Or.inr ⟨last, _, tables, rfl,
        by rw [historyExtractBatch_ok hlast htables]⟩

/-! ## The waiting commits -/

/-- The commits have ids of their own and are older than the next
transaction. -/
structure State.Wf (s : State) : Prop where
  ids : (s.commits.map fun r => r.commit.id).Nodup
  older : ∀ r ∈ s.commits, r.xid < s.nextXid

theorem idBytes_injective : Function.Injective idBytes := by
  intro a b h
  have hval : a.1 = b.1 :=
    List.map_injective_iff.mpr (fun _ _ => UInt8.toNat_inj.mp) h
  exact Subtype.ext hval

theorem State.Wf.position_injective (h : s.Wf) :
    ∀ r ∈ s.commits, ∀ r' ∈ s.commits, r.position = r'.position → r = r' := by
  intro r hr r' hr' hposition
  have hpair := congrArg ofLex hposition
  have hid : r.commit.id = r'.commit.id :=
    idBytes_injective (congrArg Prod.snd hpair)
  exact List.inj_on_of_nodup_map h.ids hr hr' hid

theorem State.Wf.nextRows_eq (h : s.Wf) :
    s.nextRows batchSize = SortedBatch.batch StoredCommit.position
      (State.sqlCount (max batchSize 1)) s.waiting := by
  unfold State.nextRows State.selectBatch
  rw [List.filter_eq_self.mpr]
  intro r hr
  simpa using h.older r (List.mem_of_mem_filter hr)

theorem State.Wf.mem_nextRows_of_le (h : s.Wf)
    (hlast : (s.nextRows batchSize).getLast? = some last) (hr : r ∈ s.waiting)
    (hle : r.position ≤ last.position) : r ∈ s.nextRows batchSize := by
  rw [h.nextRows_eq] at hlast ⊢
  refine SortedBatch.mem_batch_of_le ?_ hlast hr hle
  intro a ha b hb hab
  exact h.position_injective a (List.mem_of_mem_filter ha) b
    (List.mem_of_mem_filter hb) hab

theorem State.Wf.mem_waiting_of_mem_nextRows (h : s.Wf)
    (hr : r ∈ s.nextRows batchSize) : r ∈ s.waiting := by
  rw [h.nextRows_eq] at hr
  exact SortedBatch.mem_of_mem_batch hr

theorem State.Wf.nextRows_eq_nil_iff (h : s.Wf) :
    s.nextRows batchSize = [] ↔ s.waiting = [] := by
  have hlimit : State.sqlCount (max batchSize 1) ≠ 0 := by
    unfold State.sqlCount
    omega
  have hsort : SortedBatch.sort StoredCommit.position s.waiting = [] ↔
      s.waiting = [] := by
    rw [← List.length_eq_zero_iff, ← List.length_eq_zero_iff]
    exact Iff.of_eq (congrArg (· = 0) (List.length_insertionSort _ _))
  rw [h.nextRows_eq, SortedBatch.batch, List.take_eq_nil_iff,
    or_iff_right hlimit, hsort]

theorem waiting_moved {count : ℕ} {tables : Tables} (hlast : last ∈ s.waiting) :
    (s.moved last count tables).waiting =
      s.waiting.filter fun r => last.position < r.position := by
  have hpos : s.position < last.position := by
    simpa using List.of_mem_filter hlast
  have hmoved : (s.moved last count tables).position = last.position := rfl
  unfold State.waiting
  rw [hmoved, List.filter_filter]
  refine List.filter_congr fun r _ => ?_
  by_cases hr : last.position < r.position
  · simp [hr, hpos.trans hr]
  · simp [hr]

/-- After a call that returned `Ok`, a commit still waits or is foldable. -/
theorem waiting_or_foldable (hwf : s.Wf)
    (h : (historyExtractBatch texts text time s batchSize).1 = .ok n)
    (hr : r ∈ s.waiting) :
    r ∈ (historyExtractBatch texts text time s batchSize).2.waiting ∨
      Foldable text time r.commit := by
  obtain ⟨-, hstate⟩ | ⟨last, count, tables, hlast, hstate⟩ :=
    historyExtractBatch_of_ok h
  · exact Or.inl (hstate ▸ hr)
  · have hmem := hwf.mem_waiting_of_mem_nextRows (List.mem_of_getLast? hlast)
    rw [hstate, waiting_moved hmem]
    by_cases hlt : last.position < r.position
    · exact Or.inl (List.mem_filter.mpr ⟨hr, by simpa using hlt⟩)
    · have hrow := hwf.mem_nextRows_of_le hlast hr (not_lt.mp hlt)
      exact Or.inr (exists_ok_iff.mp ⟨n, h⟩ r hrow)

/-- A call that returned `Ok` adds no waiting commit, and takes one if there
is one. -/
theorem waiting_after_ok (hwf : s.Wf)
    (h : (historyExtractBatch texts text time s batchSize).1 = .ok n) :
    (∀ r ∈ (historyExtractBatch texts text time s batchSize).2.waiting,
        r ∈ s.waiting) ∧
      (historyExtractBatch texts text time s batchSize).2.waiting.length ≤
        s.waiting.length - 1 := by
  obtain ⟨hnil, hstate⟩ | ⟨last, count, tables, hlast, hstate⟩ :=
    historyExtractBatch_of_ok h
  · have hwaiting : (historyExtractBatch texts text time s batchSize).2.waiting =
        s.waiting := by
      rw [hstate]
      rfl
    rw [hwaiting, hwf.nextRows_eq_nil_iff.mp hnil]
    simp
  · have hmem := hwf.mem_waiting_of_mem_nextRows (List.mem_of_getLast? hlast)
    rw [hstate, waiting_moved hmem]
    refine ⟨fun r hr => List.mem_of_mem_filter hr, ?_⟩
    have hlt : (s.waiting.filter fun r => last.position < r.position).length <
        s.waiting.length := by
      rw [List.length_filter_lt_length_iff_exists]
      exact ⟨last, hmem, by simp⟩
    omega

end

/-! ## Reachable stores -/

theorem wf_empty : State.empty.Wf := by
  constructor
  · simp [State.empty]
  · simp [State.empty]

theorem State.Wf.older_succ (h : s.Wf) :
    ∀ r ∈ s.commits, r.xid < s.nextXid + 1 := fun r hr =>
  (h.older r hr).trans (Nat.lt_succ_self _)

theorem wf_extract (h : s.Wf) :
    (historyExtractBatch texts text time s batchSize).2.Wf := by
  have hsame : State.Wf { s with nextXid := s.nextXid + 1 } := ⟨h.ids, h.older_succ⟩
  cases hlast : (s.nextRows batchSize).getLast? with
  | none =>
      rw [historyExtractBatch_of_nil (List.getLast?_eq_none_iff.mp hlast)]
      exact hsame
  | some last =>
      cases hwritten : foldRows texts text time s (s.nextRows batchSize) >>=
          fun fold => fold.write s.tables with
      | error e =>
          rw [historyExtractBatch_error hlast hwritten]
          exact hsame
      | ok tables =>
          rw [historyExtractBatch_ok hlast hwritten]
          exact ⟨h.ids, h.older_succ⟩

theorem wf_putCommit (h : s.Wf) (c : PostgresRows.Commit) :
    (s.putCommit c).Wf := by
  unfold State.putCommit
  split
  next => exact ⟨h.ids, h.older_succ⟩
  next hnew =>
    refine ⟨?_, ?_⟩
    · have hfresh : c.id ∉ s.commits.map fun r => r.commit.id := by
        intro hmem
        obtain ⟨r, hr, hid⟩ := List.mem_map.mp hmem
        exact hnew (List.any_eq_true.mpr ⟨r, hr, beq_iff_eq.mpr hid⟩)
      simpa using List.Nodup.concat hfresh h.ids
    · intro r hr
      rcases List.mem_append.mp hr with hr | hr
      · exact h.older_succ r hr
      · rw [List.mem_singleton.mp hr]
        exact Nat.lt_succ_self _

theorem wf_step (h : s.Wf) (op : Op) : (s.step texts text time op).Wf := by
  cases op with
  | putCommit c => exact wf_putCommit h c
  | attach id ns => exact ⟨h.ids, h.older⟩
  | extract batchSize => exact wf_extract h

theorem wf_run (ops : List Op) :
    (StepRuns.run (State.step texts text time) State.empty ops).Wf :=
  StepRuns.invariant_run (A := fun _ _ => True) wf_empty
    (fun _ op h _ => wf_step h op)
    (StepRuns.throughout_of_forall fun _ _ _ => trivial)

theorem wf_after (h : s.Wf) (sizes : ℕ → ℕ) (k : ℕ) :
    (s.after texts text time sizes k).Wf := by
  induction k with
  | zero => exact h
  | succ k ih => exact wf_extract ih

/-! ## Distilling to the end -/

theorem foldable_of_drains (hwf : s.Wf) (h : s.Drains texts text time) :
    ∀ r ∈ s.waiting, Foldable text time r.commit := by
  intro r hr
  obtain ⟨hok, k, hdone, -⟩ := h fun _ => 1
  have hkept : ∀ k, r ∈ (s.after texts text time (fun _ => 1) k).waiting ∨
      Foldable text time r.commit := by
    intro k
    induction k with
    | zero => exact Or.inl hr
    | succ k ih =>
        rcases ih with hmem | hfoldable
        · obtain ⟨n, hn⟩ := hok k
          exact waiting_or_foldable (wf_after hwf _ k) hn hmem
        · exact Or.inr hfoldable
  rcases hkept k with hmem | hfoldable
  · have hnil := List.length_eq_zero_iff.mp hdone
    rw [hnil] at hmem
    simp at hmem
  · exact hfoldable

theorem drains_of_foldable (hwf : s.Wf)
    (h : ∀ r ∈ s.waiting, Foldable text time r.commit) :
    s.Drains texts text time := by
  intro sizes
  have hok : ∀ k, (∀ r ∈ (s.after texts text time sizes k).waiting,
      Foldable text time r.commit) →
      ∃ n, (historyExtractBatch texts text time
        (s.after texts text time sizes k) (sizes k)).1 = .ok n := by
    intro k hk
    refine exists_ok_iff.mpr fun r hr => hk r ?_
    exact (wf_after hwf sizes k).mem_waiting_of_mem_nextRows hr
  have hleft : ∀ k, (∀ r ∈ (s.after texts text time sizes k).waiting,
      Foldable text time r.commit) ∧
      (s.after texts text time sizes k).waiting.length ≤
        s.waiting.length - k := by
    intro k
    induction k with
    | zero => exact ⟨h, by simp [State.after]⟩
    | succ k ih =>
        obtain ⟨n, hn⟩ := hok k ih.1
        obtain ⟨hsub, hlen⟩ := waiting_after_ok (wf_after hwf sizes k) hn
        refine ⟨fun r hr => ih.1 r (hsub r hr), hlen.trans ?_⟩
        have hle := ih.2
        omega
  have hzero : (s.after texts text time sizes s.waiting.length).waiting.length =
      0 := by
    have hle := (hleft s.waiting.length).2
    omega
  refine ⟨fun k => hok k (hleft k).1, s.waiting.length, hzero, ?_⟩
  simp [State.sweepRefused, State.historyUndistilledCommitCount, hzero]

variable (texts text time) in
/-- In every store, the calls return `Ok` until every commit is folded exactly
when each waiting commit is foldable. -/
theorem history_drains_iff (ops : List Op) :
    (StepRuns.run (State.step texts text time) State.empty ops).Drains
        texts text time ↔
      ∀ r ∈ (StepRuns.run (State.step texts text time) State.empty ops).waiting,
        Foldable text time r.commit :=
  ⟨foldable_of_drains (wf_run ops), drains_of_foldable (wf_run ops)⟩

end Extraction

/-! ## A commit that stops the cursor -/

namespace Refused

open PostgresRows.Changed

/-- `Debug` of a string, as far as a U+0000 is concerned. -/
def debugChar (c : Char) : List Char := if c = nul then ['\\', '0'] else [c]

theorem debug_plain (s : String) :
    hasNulText (String.ofList (s.toList.flatMap debugChar)) = false := by
  have hchar : ∀ c, nul ∉ debugChar c := by
    intro c
    unfold debugChar
    split
    next => decide
    next hne => simpa using Ne.symm hne
  simp [hasNulText, hchar]

def texts : PlainTexts where
  day _ := "2026-01-01"
  toRfc3339 _ := "2026-01-01T00:00:00+00:00"
  debugString s := String.ofList (s.toList.flatMap debugChar)
  day_plain _ := by decide
  toRfc3339_plain _ := by decide
  debugString_plain := debug_plain

/-- A commit of an agent whose id has a U+0000 in it. -/
def spoiled : PostgresRows.Commit :=
  { called .null with agentId := "a\x00b" }

def stopped : State :=
  StepRuns.run (State.step texts numbers strokes) State.empty
    [.putCommit spoiled]

end Refused

open PostgresRows.Changed Refused in
/-- The commit is stored, but is never folded. -/
theorem history_not_drained : ¬ stopped.Drains texts numbers strokes := by
  intro h
  have hwaiting : (⟨1, spoiled⟩ : StoredCommit) ∈ stopped.waiting := by
    refine List.mem_filter.mpr ⟨List.mem_singleton_self _, ?_⟩
    have hpos : stopped.position < StoredCommit.position ⟨1, spoiled⟩ :=
      Prod.Lex.left _ _ Nat.zero_lt_one
    simpa using hpos
  have hplain := (foldable_of_drains (wf_run _) h _ hwaiting).agentId
  have hnul : hasNulText spoiled.agentId = true := by decide
  rw [hnul] at hplain
  contradiction

end PostgresHistory

end AgentStateGraph
