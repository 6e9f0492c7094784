import AgentStateGraph.History.Fold
import AgentStateGraph.Lib.SortedBatch
import AgentStateGraph.Lib.StepRuns

/-!
# Distilling history on Postgres

The extractor follows the ids of the transactions that wrote the commits.
These do not become visible in the order of their ids, so a batch holds only
commits whose transaction is older than every transaction still running: what
becomes visible later lies behind the batch.  The row of the cursor is a lock,
and the cursor moves in the transaction that writes the rollup, so that every
commit is folded once, in whatever order writers and extractors take their
steps.
-/

namespace AgentStateGraph

namespace History

namespace Postgres

variable {Id : Type} [Digest Id]

/-! ## The store -/

/-- A row of `commits`: a commit with the id of the transaction that wrote
it. -/
structure Row (Id : Type) [Digest Id] where
  xid : ℕ
  commit : Commit Id
deriving DecidableEq

/-- Where a row stands in the order that the cursor follows.  The empty id of
a new cursor is below every id. -/
abbrev Position (Id : Type) := ℕ ×ₗ WithBot Id

def Row.position (r : Row Id) : Position Id := toLex (r.xid, ↑r.commit.id)

structure Cursor (Id : Type) where
  xid : ℕ
  commitId : WithBot Id
  folded : ℕ

/-- Where a call of `history_extract_batch` stands: its next statement. -/
inductive Point (Id : Type) [Digest Id] where
  /-- Its transaction begins by making the cursor's row. -/
  | begun
  /-- It locks the row, and reads the cursor. -/
  | inserted
  /-- It selects rows after the cursor. -/
  | locked (after : Position Id)
  /-- There were none; it looks for commits that wait. -/
  | empty (after : Position Id)
  /-- It writes the rollup and the milestones of its batch, then the cursor,
  and commits. -/
  | selected (batch : List (Row Id × String))
  | folded (batch : List (Row Id × String))
  | moved (batch : List (Row Id × String))

structure Extractor (Id : Type) [Digest Id] where
  batchSize : ℕ
  xid : Option ℕ
  point : Point Id

/-- The visible rows, the transactions that run and what they have written. -/
structure State (Id : Type) [Digest Id] where
  nextXid : ℕ
  rows : List (Row Id)
  /-- The ids of the writers' transactions that run, and their rows. -/
  writers : List ℕ
  pending : List (Row Id)
  /-- The namespace of the session that a commit is attached to. -/
  namespaces : Id → Option String
  cursor : Option (Cursor Id)
  rollup : Rollup
  milestones : Milestones Id
  extractors : ℕ → Option (Extractor Id)
  /-- The ids of the extractors' transactions that run, and the one that holds
  the cursor's row. -/
  extracting : List ℕ
  lock : Option ℕ
  /-- What the committed batches held, in order. -/
  distilled : List (Entry Id)

namespace State

variable (s : State Id)

/-- `pg_snapshot_xmin`: every transaction with a smaller id is over. -/
def xmin : ℕ := (s.writers ++ s.extracting).foldr min s.nextXid

/-- The cursor, or where a new one stands. -/
def position : Position Id :=
  match s.cursor with
  | some c => toLex (c.xid, c.commitId)
  | none => toLex (0, ⊥)

def historyUndistilledCommitCount : ℕ :=
  s.rows.countP fun r => decide (s.position < r.position)

/-! ### Writers -/

/-- A transaction takes its id at its first write. -/
def openTx : State Id :=
  { s with
    nextXid := s.nextXid + 1
    writers := s.nextXid :: s.writers }

/-- `INSERT … ON CONFLICT DO NOTHING`, which waits for another transaction
that inserts the same commit. -/
def insert (xid : ℕ) (c : Commit Id) : State Id :=
  if xid ∈ s.writers ∧ ∀ r ∈ s.rows ++ s.pending, r.commit.id ≠ c.id then
    { s with pending := ⟨xid, c⟩ :: s.pending }
  else s

def commitTx (xid : ℕ) : State Id :=
  { s with
    rows := s.pending.filter (fun r => r.xid = xid) ++ s.rows
    pending := s.pending.filter fun r => r.xid ≠ xid
    writers := s.writers.filter fun x => x ≠ xid }

def abortTx (xid : ℕ) : State Id :=
  { s with
    pending := s.pending.filter fun r => r.xid ≠ xid
    writers := s.writers.filter fun x => x ≠ xid }

/-! ### Extractors -/

def goTo (k : ℕ) (e : Extractor Id) : State Id :=
  { s with extractors := Function.update s.extractors k (some e) }

/-- The transaction of a call is over, and its lock with it. -/
def finish (k : ℕ) (e : Extractor Id) : State Id :=
  { s with
    extractors := Function.update s.extractors k none
    extracting := s.extracting.filter fun x => some x ≠ e.xid
    lock := if s.lock = some k then none else s.lock }

/-- The lock of the cursor's row, which a transaction takes with an id. -/
def takeLock (k : ℕ) (e : Extractor Id) (p : Point Id) : State Id :=
  let s' := { s with lock := some k }
  match e.xid with
  | some _ => s'.goTo k { e with point := p }
  | none =>
      { s' with
        nextXid := s.nextXid + 1
        extracting := s.nextXid :: s.extracting }.goTo k
          { e with xid := some s.nextXid, point := p }

def i64Max : ℕ := 2 ^ 63 - 1

/-- A count as the `BIGINT` that Postgres compares it with. -/
def sqlCount (n : ℕ) : ℕ := min n i64Max

/-- The rows after the cursor whose transaction is older than every one that
runs. -/
def selectBatch (after : Position Id) (limit : ℕ) : List (Row Id × String) :=
  (SortedBatch.batch Row.position limit
    (s.rows.filter fun r => after < r.position ∧ r.xid < s.xmin)).map fun r =>
      (r, (s.namespaces r.commit.id).getD historyNamespaceUnknown)

/-- The entries that `HistoryFold` adds. -/
def entries (batch : List (Row Id × String)) : List (Entry Id) :=
  batch.map fun b => ⟨b.1.commit, b.2⟩

/-- The rollup, the milestones and the cursor of a transaction that commits. -/
def land (texts : Texts) (batch : List (Row Id × String)) : State Id :=
  match batch.getLast? with
  | none => s
  | some (last, _) =>
      { s with
        rollup := s.rollup.upsert (Rollup.foldEntries texts (entries batch))
        milestones := s.milestones.insertOrIgnore
          (Milestones.foldEntries texts (entries batch))
        cursor := some
          { xid := last.xid
            commitId := ↑last.commit.id
            folded := (s.cursor.elim 0 Cursor.folded) + batch.length }
        distilled := s.distilled ++ entries batch }

/-- The next statement of a call; `timedOut` when its wait is over. -/
def next (texts : Texts) (k : ℕ) (e : Extractor Id) (timedOut : Bool) :
    State Id :=
  match e.point with
  | .begun =>
      match s.cursor, s.lock with
      | some _, _ => s.goTo k { e with point := .inserted }
      | none, none => s.takeLock k e .inserted
      | none, some _ => s
  | .inserted =>
      if s.lock = none ∨ s.lock = some k then
        s.takeLock k e (.locked s.position)
      else s
  | .locked after =>
      let batch := s.selectBatch after (sqlCount (max e.batchSize 1))
      if batch = [] then s.goTo k { e with point := .empty after }
      else s.goTo k { e with point := .selected batch }
  | .empty after =>
      if (∀ r ∈ s.rows, ¬after < r.position) ∨ timedOut then s.finish k e
      else s.goTo k { e with point := .locked after }
  | .selected batch => s.goTo k { e with point := .folded batch }
  | .folded batch => s.goTo k { e with point := .moved batch }
  | .moved batch => (s.land texts batch).finish k e

end State

/-! ## Runs -/

inductive Op (Id : Type) [Digest Id] where
  | openTx
  | insert (xid : ℕ) (c : Commit Id)
  | commitTx (xid : ℕ)
  | abortTx (xid : ℕ)
  /-- The session of a commit, or its namespace, is another. -/
  | attach (c : Id) (ns : Option String)
  | extract (k batchSize : ℕ)
  | next (k : ℕ) (timedOut : Bool)
  /-- A call fails, or its process does. -/
  | drop (k : ℕ)

def State.step (texts : Texts) (s : State Id) : Op Id → State Id
  | .openTx => s.openTx
  | .insert xid c => s.insert xid c
  | .commitTx xid => s.commitTx xid
  | .abortTx xid => s.abortTx xid
  | .attach c ns => { s with namespaces := Function.update s.namespaces c ns }
  | .extract k batchSize =>
      match s.extractors k with
      | none => s.goTo k ⟨batchSize, none, .begun⟩
      | some _ => s
  | .next k timedOut =>
      match s.extractors k with
      | none => s
      | some e => s.next texts k e timedOut
  | .drop k =>
      match s.extractors k with
      | none => s
      | some e => s.finish k e

/-- The commits there are before any transaction of the run: those from before
the column have the id 0. -/
structure Store (Id : Type) [Digest Id] where
  rows : List (Row Id)
  nextXid : ℕ
  pos : 0 < nextXid
  old : ∀ r ∈ rows, r.xid < nextXid
  ids : (rows.map fun r => r.commit.id).Nodup

/-- Nothing is distilled yet, and no transaction runs. -/
def start (store : Store Id) (namespaces : Id → Option String) : State Id where
  nextXid := store.nextXid
  rows := store.rows
  writers := []
  pending := []
  namespaces := namespaces
  cursor := none
  rollup := Rollup.empty
  milestones := Milestones.empty
  extractors := fun _ => none
  extracting := []
  lock := none
  distilled := []

/-! ## Batches -/

theorem Row.position_injective :
    Function.Injective (Row.position : Row Id → Position Id) := by
  rintro ⟨xid, c⟩ ⟨xid', c'⟩ h
  obtain ⟨hxid, hid⟩ := Prod.ext_iff.mp (toLex.injective h)
  obtain rfl : xid = xid' := hxid
  obtain rfl := Commit.id_injective (WithBot.coe_injective hid)
  rfl

theorem Row.xid_le {p : Position Id} {r : Row Id} (h : r.position ≤ p) :
    r.xid ≤ (ofLex p).1 := by
  rcases Prod.Lex.le_iff.mp h with hlt | ⟨heq, -⟩
  · exact le_of_lt hlt
  · exact le_of_eq heq

variable {s s' : State Id}

theorem foldr_min_le {xs : List ℕ} {n x : ℕ} (h : x = n ∨ x ∈ xs) :
    xs.foldr min n ≤ x := by
  induction xs with
  | nil =>
      rcases h with rfl | h
      · exact le_refl _
      · contradiction
  | cons y ys ih =>
      rcases h with h | h
      · exact (min_le_right _ _).trans (ih (Or.inl h))
      · rcases List.mem_cons.mp h with rfl | h
        · exact min_le_left _ _
        · exact (min_le_right _ _).trans (ih (Or.inr h))

theorem State.xmin_le_of_mem {x : ℕ} (h : x ∈ s.writers) : s.xmin ≤ x :=
  foldr_min_le (Or.inr (List.mem_append_left _ h))

theorem State.xmin_le_nextXid : s.xmin ≤ s.nextXid :=
  foldr_min_le (Or.inl rfl)

/-- A batch that will be folded: visible rows after the cursor, each once, up
to the last of them, which is older than every transaction that runs. -/
structure IsBatch (s : State Id) (batch : List (Row Id × String))
    (last : Row Id) : Prop where
  last_mem : ∃ ns, batch.getLast? = some (last, ns)
  rows : ∀ b ∈ batch, b.1 ∈ s.rows ∧ s.position < b.1.position
  ids : (batch.map fun b => b.1.commit.id).Nodup
  le_last : ∀ b ∈ batch, b.1.position ≤ last.position
  older : ∀ x ∈ s.writers, last.xid < x
  old : last.xid < s.nextXid
  all : ∀ r ∈ s.rows, s.position < r.position → r.position ≤ last.position →
    ∃ b ∈ batch, b.1 = r

theorem isBatch_selectBatch (hids : (s.rows.map fun r => r.commit.id).Nodup)
    {limit : ℕ} (h : s.selectBatch s.position limit ≠ []) :
    ∃ last, IsBatch s (s.selectBatch s.position limit) last := by
  let eligible := s.rows.filter fun r =>
    decide (s.position < r.position ∧ r.xid < s.xmin)
  have heligible : ∀ r, r ∈ eligible ↔
      r ∈ s.rows ∧ s.position < r.position ∧ r.xid < s.xmin := by
    intro r
    simp [eligible]
  let taken := SortedBatch.batch Row.position limit eligible
  let name : Row Id → Row Id × String := fun r =>
    (r, (s.namespaces r.commit.id).getD historyNamespaceUnknown)
  have hbatch : s.selectBatch s.position limit = taken.map name := rfl
  rw [hbatch] at h ⊢
  have htaken : taken ≠ [] := by
    intro hnil
    simp [hnil] at h
  obtain ⟨last, hlast⟩ :=
    Option.isSome_iff_exists.mp (List.getLast?_isSome.mpr htaken)
  obtain ⟨hlastRow, hlastAfter, hlastOld⟩ := (heligible last).mp
    (SortedBatch.mem_of_mem_batch (List.mem_of_getLast? hlast))
  refine ⟨last, ⟨_, by rw [List.getLast?_map, hlast]; rfl⟩, ?_, ?_, ?_, ?_, ?_,
    ?_⟩
  · intro b hb
    obtain ⟨r, hr, rfl⟩ := List.mem_map.mp hb
    obtain ⟨hrow, hafter, -⟩ :=
      (heligible r).mp (SortedBatch.mem_of_mem_batch hr)
    exact ⟨hrow, hafter⟩
  · rw [List.map_map]
    have hids' : (eligible.map fun r => r.commit.id).Nodup :=
      hids.sublist (List.filter_sublist.map _)
    exact SortedBatch.nodup_map_batch hids'
  · intro b hb
    obtain ⟨r, hr, rfl⟩ := List.mem_map.mp hb
    exact SortedBatch.le_getLast hlast hr
  · intro x hx
    exact lt_of_lt_of_le hlastOld (State.xmin_le_of_mem hx)
  · exact lt_of_lt_of_le hlastOld State.xmin_le_nextXid
  · intro r hr hafter hle
    have hxid : r.xid < s.xmin := lt_of_le_of_lt (Row.xid_le hle) hlastOld
    have hrTaken : r ∈ taken := SortedBatch.mem_batch_of_le
      (fun _ _ _ _ h => Row.position_injective h) hlast
      ((heligible r).mpr ⟨hr, hafter, hxid⟩) hle
    exact ⟨name r, List.mem_map_of_mem hrTaken, rfl⟩

/-! ## What every step keeps -/

/-- What holds of a call where it stands: past the lock it holds the cursor's
row, and the cursor is where it read it. -/
def Stands (s : State Id) (k : ℕ) : Point Id → Prop
  | .begun | .inserted => True
  | .locked after | .empty after => s.lock = some k ∧ after = s.position
  | .selected batch | .folded batch | .moved batch =>
      s.lock = some k ∧ ∃ last, IsBatch s batch last

structure Inv (texts : Texts) (s : State Id) : Prop where
  old : ∀ r ∈ s.rows, r.xid < s.nextXid
  writers : ∀ x ∈ s.writers, x < s.nextXid
  pending : ∀ r ∈ s.pending, r.xid ∈ s.writers
  ids : ((s.rows ++ s.pending).map fun r => r.commit.id).Nodup
  older : ∀ x ∈ s.writers, (ofLex s.position).1 < x
  cursor : (ofLex s.position).1 < s.nextXid
  stands : ∀ k e, s.extractors k = some e → Stands s k e.point
  rollup : s.rollup = Rollup.foldEntries texts s.distilled
  milestones : s.milestones = Milestones.foldEntries texts s.distilled
  folded : s.cursor.elim 0 Cursor.folded = s.distilled.length
  once : (s.distilled.map fun e => e.commit.id).Nodup
  visible : ∀ e ∈ s.distilled, ∃ r ∈ s.rows, r.commit = e.commit ∧
    r.position ≤ s.position
  behind : ∀ r ∈ s.rows, r.position ≤ s.position →
    ∃ e ∈ s.distilled, e.commit = r.commit

/-- What the steps between two moves of the cursor do: rows become visible
that running transactions wrote, and transactions begin with new ids. -/
structure Grows (s s' : State Id) : Prop where
  kept : ∀ r ∈ s.rows, r ∈ s'.rows
  rows : ∀ r ∈ s'.rows, r ∈ s.rows ∨ r.xid ∈ s.writers
  writers : ∀ x ∈ s'.writers, x ∈ s.writers ∨ s.nextXid ≤ x
  nextXid : s.nextXid ≤ s'.nextXid
  cursor : s'.cursor = s.cursor
  rollup : s'.rollup = s.rollup
  milestones : s'.milestones = s.milestones
  distilled : s'.distilled = s.distilled

theorem Grows.position (h : Grows s s') : s'.position = s.position := by
  unfold State.position
  rw [h.cursor]

theorem IsBatch.grows {batch : List (Row Id × String)} {last : Row Id}
    (h : IsBatch s batch last) (hgrows : Grows s s') :
    IsBatch s' batch last := by
  refine ⟨h.last_mem, ?_, h.ids, h.le_last, ?_,
    lt_of_lt_of_le h.old hgrows.nextXid, ?_⟩
  · intro b hb
    obtain ⟨hrow, hafter⟩ := h.rows b hb
    exact ⟨hgrows.kept _ hrow, hgrows.position ▸ hafter⟩
  · intro x hx
    rcases hgrows.writers x hx with hx | hx
    · exact h.older x hx
    · exact lt_of_lt_of_le h.old hx
  · intro r hr hafter hle
    rw [hgrows.position] at hafter
    rcases hgrows.rows r hr with hr | hr
    · exact h.all r hr hafter hle
    · have hlt := h.older r.xid hr
      have hxid : r.xid ≤ last.xid := Row.xid_le hle
      omega

theorem Stands.grows {k : ℕ} {p : Point Id} (h : Stands s k p)
    (hgrows : Grows s s') (hlock : s.lock = some k → s'.lock = some k) :
    Stands s' k p := by
  cases p with
  | begun => trivial
  | inserted => trivial
  | locked => exact ⟨hlock h.1, h.2.trans hgrows.position.symm⟩
  | empty => exact ⟨hlock h.1, h.2.trans hgrows.position.symm⟩
  | selected =>
      obtain ⟨hk, last, hbatch⟩ := h
      exact ⟨hlock hk, last, hbatch.grows hgrows⟩
  | folded =>
      obtain ⟨hk, last, hbatch⟩ := h
      exact ⟨hlock hk, last, hbatch.grows hgrows⟩
  | moved =>
      obtain ⟨hk, last, hbatch⟩ := h
      exact ⟨hlock hk, last, hbatch.grows hgrows⟩

variable {texts : Texts}

theorem inv_of_grows (hinv : Inv texts s) (h : Grows s s')
    (hwriters : ∀ x ∈ s'.writers, x < s'.nextXid)
    (hpending : ∀ r ∈ s'.pending, r.xid ∈ s'.writers)
    (hids : ((s'.rows ++ s'.pending).map fun r => r.commit.id).Nodup)
    (hstands : ∀ k e, s'.extractors k = some e → Stands s' k e.point) :
    Inv texts s' := by
  have hposition := h.position
  refine ⟨?_, hwriters, hpending, hids, ?_, ?_, hstands, ?_, ?_, ?_, ?_, ?_, ?_⟩
  · intro r hr
    rcases h.rows r hr with hr | hr
    · exact lt_of_lt_of_le (hinv.old r hr) h.nextXid
    · exact lt_of_lt_of_le (hinv.writers _ hr) h.nextXid
  · intro x hx
    rw [hposition]
    rcases h.writers x hx with hx | hx
    · exact hinv.older x hx
    · exact lt_of_lt_of_le hinv.cursor hx
  · rw [hposition]
    exact lt_of_lt_of_le hinv.cursor h.nextXid
  · rw [h.rollup, h.distilled, hinv.rollup]
  · rw [h.milestones, h.distilled, hinv.milestones]
  · rw [h.cursor, h.distilled, hinv.folded]
  · rw [h.distilled]
    exact hinv.once
  · intro e he
    rw [h.distilled] at he
    obtain ⟨r, hr, hcommit, hle⟩ := hinv.visible e he
    exact ⟨r, h.kept r hr, hcommit, hposition ▸ hle⟩
  · intro r hr hle
    rw [hposition] at hle
    rw [h.distilled]
    rcases h.rows r hr with hr | hr
    · exact hinv.behind r hr hle
    · have hlt := hinv.older r.xid hr
      have hxid := Row.xid_le hle
      omega

/-! ## Writers -/

theorem inv_openTx (hinv : Inv texts s) : Inv texts s.openTx := by
  have hgrows : Grows s s.openTx := by
    refine ⟨fun _ h => h, fun _ h => Or.inl h, ?_, Nat.le_succ _, rfl, rfl, rfl,
      rfl⟩
    intro x hx
    rcases List.mem_cons.mp hx with rfl | hx
    · exact Or.inr (le_refl _)
    · exact Or.inl hx
  refine inv_of_grows hinv hgrows ?_ ?_ hinv.ids ?_
  · intro x hx
    rcases List.mem_cons.mp hx with rfl | hx
    · exact Nat.lt_succ_self _
    · exact Nat.lt_succ_of_lt (hinv.writers x hx)
  · exact fun r hr => List.mem_cons_of_mem _ (hinv.pending r hr)
  · exact fun k e he => (hinv.stands k e he).grows hgrows id

theorem inv_insert (hinv : Inv texts s) (xid : ℕ) (c : Commit Id) :
    Inv texts (s.insert xid c) := by
  unfold State.insert
  by_cases h : xid ∈ s.writers ∧ ∀ r ∈ s.rows ++ s.pending, r.commit.id ≠ c.id
  · rw [if_pos h]
    have hgrows : Grows s { s with pending := ⟨xid, c⟩ :: s.pending } :=
      ⟨fun _ h => h, fun _ h => Or.inl h, fun _ h => Or.inl h, le_refl _, rfl,
        rfl, rfl, rfl⟩
    refine inv_of_grows hinv hgrows hinv.writers ?_ ?_
      fun k e he => (hinv.stands k e he).grows hgrows id
    · intro r hr
      rcases List.mem_cons.mp hr with rfl | hr
      · exact h.1
      · exact hinv.pending r hr
    · have hperm : (s.rows ++ (⟨xid, c⟩ :: s.pending)).Perm
          (⟨xid, c⟩ :: (s.rows ++ s.pending)) := List.perm_middle
      rw [(hperm.map _).nodup_iff, List.map_cons, List.nodup_cons]
      refine ⟨?_, hinv.ids⟩
      intro hmem
      obtain ⟨r, hr, hid⟩ := List.mem_map.mp hmem
      exact h.2 r hr hid
  · rw [if_neg h]
    exact hinv

theorem inv_commitTx (hinv : Inv texts s) (xid : ℕ) :
    Inv texts (s.commitTx xid) := by
  have hgrows : Grows s (s.commitTx xid) := by
    refine ⟨fun _ h => List.mem_append_right _ h, ?_,
      fun x hx => Or.inl (List.mem_of_mem_filter hx), le_refl _, rfl, rfl, rfl,
      rfl⟩
    intro r hr
    rcases List.mem_append.mp hr with hr | hr
    · exact Or.inr (hinv.pending r (List.mem_of_mem_filter hr))
    · exact Or.inl hr
  refine inv_of_grows hinv hgrows ?_ ?_ ?_
    fun k e he => (hinv.stands k e he).grows hgrows id
  · exact fun x hx => hinv.writers x (List.mem_of_mem_filter hx)
  · intro r hr
    obtain ⟨hr, hne⟩ := List.mem_filter.mp hr
    exact List.mem_filter.mpr ⟨hinv.pending r hr, hne⟩
  · have hperm : ((s.commitTx xid).rows ++ (s.commitTx xid).pending).Perm
        (s.rows ++ s.pending) := by
      have hsplit : (s.pending.filter (fun r => r.xid = xid) ++
          s.pending.filter fun r => r.xid ≠ xid).Perm s.pending := by
        simpa using List.filter_append_perm
          (fun r : Row Id => decide (r.xid = xid)) s.pending
      have hswap : ((s.commitTx xid).rows ++ (s.commitTx xid).pending).Perm
          ((s.rows ++ s.pending.filter fun r => r.xid = xid) ++
            s.pending.filter fun r => r.xid ≠ xid) :=
        List.perm_append_comm.append_right _
      rw [List.append_assoc] at hswap
      exact hswap.trans (hsplit.append_left s.rows)
    exact (hperm.map _).nodup_iff.mpr hinv.ids

theorem inv_abortTx (hinv : Inv texts s) (xid : ℕ) :
    Inv texts (s.abortTx xid) := by
  have hgrows : Grows s (s.abortTx xid) :=
    ⟨fun _ h => h, fun _ h => Or.inl h,
      fun x hx => Or.inl (List.mem_of_mem_filter hx), le_refl _, rfl, rfl, rfl,
      rfl⟩
  refine inv_of_grows hinv hgrows ?_ ?_ ?_
    fun k e he => (hinv.stands k e he).grows hgrows id
  · exact fun x hx => hinv.writers x (List.mem_of_mem_filter hx)
  · intro r hr
    obtain ⟨hr, hne⟩ := List.mem_filter.mp hr
    exact List.mem_filter.mpr ⟨hinv.pending r hr, hne⟩
  · exact hinv.ids.sublist
      ((List.filter_sublist.append_left s.rows).map _)

/-! ## Extractors -/

variable {k : ℕ} {e : Extractor Id}

/-- Of the calls, one moves, and the others keep their locks. -/
theorem inv_of_extractor (hinv : Inv texts s) (hgrows : Grows s s')
    {at_ : Option (Extractor Id)}
    (hextractors : s'.extractors = Function.update s.extractors k at_)
    (hwriters : s'.writers = s.writers) (hrows : s'.rows = s.rows)
    (hpending : s'.pending = s.pending)
    (hlock : ∀ j, j ≠ k → s.lock = some j → s'.lock = some j)
    (hstands : ∀ e, at_ = some e → Stands s' k e.point) : Inv texts s' := by
  refine inv_of_grows hinv hgrows ?_ ?_ ?_ ?_
  · intro x hx
    rw [hwriters] at hx
    exact lt_of_lt_of_le (hinv.writers x hx) hgrows.nextXid
  · rw [hpending, hwriters]
    exact hinv.pending
  · rw [hpending, hrows]
    exact hinv.ids
  · intro j e he
    rw [hextractors] at he
    by_cases hsame : j = k
    · rw [hsame, Function.update_self] at he
      exact hsame ▸ hstands e he
    · rw [Function.update_of_ne hsame] at he
      exact (hinv.stands j e he).grows hgrows (hlock j hsame)

theorem grows_self : Grows s s :=
  ⟨fun _ h => h, fun _ h => Or.inl h, fun _ h => Or.inl h, le_refl _, rfl, rfl,
    rfl, rfl⟩

theorem inv_goTo (hinv : Inv texts s) (h : Stands s k e.point) :
    Inv texts (s.goTo k e) := by
  have hgrows : Grows s (s.goTo k e) := ⟨grows_self.kept, grows_self.rows,
    grows_self.writers, le_refl _, rfl, rfl, rfl, rfl⟩
  refine inv_of_extractor hinv hgrows rfl rfl rfl rfl (fun _ _ h => h) ?_
  rintro _ ⟨⟩
  exact h.grows hgrows id

theorem inv_finish (hinv : Inv texts s) (k : ℕ) (e : Extractor Id) :
    Inv texts (s.finish k e) := by
  have hgrows : Grows s (s.finish k e) := ⟨grows_self.kept, grows_self.rows,
    grows_self.writers, le_refl _, rfl, rfl, rfl, rfl⟩
  refine inv_of_extractor hinv hgrows rfl rfl rfl rfl ?_ (by simp)
  intro j hne hj
  have hother : s.lock ≠ some k := by
    rw [hj]
    simpa using hne
  exact (if_neg hother).trans hj

theorem inv_takeLock (hinv : Inv texts s) {p : Point Id}
    (hfree : s.lock = none ∨ s.lock = some k)
    (hp : p = .inserted ∨ p = .locked s.position) :
    Inv texts (s.takeLock k e p) := by
  have hlock : ∀ j, j ≠ k → s.lock ≠ some j := by
    rintro j hne hj
    rcases hfree with hfree | hfree <;> simp [hfree] at hj
    exact hne hj.symm
  have hstands : ∀ s' : State Id, s'.lock = some k → s'.position = s.position →
      Stands s' k p := by
    intro s' hk hposition
    rcases hp with rfl | rfl
    · trivial
    · exact ⟨hk, hposition.symm⟩
  unfold State.takeLock
  dsimp only
  split
  · refine inv_of_extractor hinv ⟨fun _ h => h, fun _ h => Or.inl h,
      fun _ h => Or.inl h, le_refl _, rfl, rfl, rfl, rfl⟩ rfl rfl rfl rfl
      (fun j hne hj => absurd hj (hlock j hne)) ?_
    rintro _ ⟨⟩
    exact hstands _ rfl rfl
  · refine inv_of_extractor hinv ⟨fun _ h => h, fun _ h => Or.inl h,
      fun _ h => Or.inl h, Nat.le_succ _, rfl, rfl, rfl, rfl⟩ rfl rfl rfl rfl
      (fun j hne hj => absurd hj (hlock j hne)) ?_
    rintro _ ⟨⟩
    exact hstands _ rfl rfl

theorem inv_land (hinv : Inv texts s) {batch : List (Row Id × String)}
    (hlock : s.lock = some k) {last : Row Id} (h : IsBatch s batch last) :
    Inv texts ((s.land texts batch).finish k e) := by
  obtain ⟨ns, hlast⟩ := h.last_mem
  have hland : s.land texts batch =
      { s with
        rollup := s.rollup.upsert
          (Rollup.foldEntries texts (State.entries batch))
        milestones := s.milestones.insertOrIgnore
          (Milestones.foldEntries texts (State.entries batch))
        cursor := some
          { xid := last.xid
            commitId := ↑last.commit.id
            folded := (s.cursor.elim 0 Cursor.folded) + batch.length }
        distilled := s.distilled ++ State.entries batch } := by
    unfold State.land
    rw [hlast]
  have hposition : ((s.land texts batch).finish k e).position =
      last.position := by
    rw [hland]
    rfl
  have hrows : ((s.land texts batch).finish k e).rows = s.rows := by
    rw [hland]
    rfl
  have hdistilled : ((s.land texts batch).finish k e).distilled =
      s.distilled ++ State.entries batch := by
    rw [hland]
    rfl
  have hsame : ∀ r ∈ s.rows, ∀ r' ∈ s.rows, r.commit.id = r'.commit.id →
      r = r' := by
    intro r hr r' hr' hid
    have hrowIds := hinv.ids.sublist
      ((List.sublist_append_left s.rows s.pending).map _)
    exact List.inj_on_of_nodup_map hrowIds hr hr' hid
  have hlastMem := List.mem_of_getLast? hlast
  have hbefore : s.position < last.position := (h.rows _ hlastMem).2
  have hwriters : ((s.land texts batch).finish k e).writers = s.writers := by
    rw [hland]
    rfl
  have hnext : ((s.land texts batch).finish k e).nextXid = s.nextXid := by
    rw [hland]
    rfl
  have hpending : ((s.land texts batch).finish k e).pending = s.pending := by
    rw [hland]
    rfl
  constructor
  · rw [hrows, hnext]
    exact hinv.old
  · rw [hwriters, hnext]
    exact hinv.writers
  · rw [hpending, hwriters]
    exact hinv.pending
  · rw [hrows, hpending]
    exact hinv.ids
  · rw [hwriters, hposition]
    exact h.older
  · rw [hposition, hnext]
    exact h.old
  · intro j e' he'
    rw [hland] at he'
    have hother : j ≠ k := by
      rintro rfl
      simp [State.finish] at he'
    have hj := hinv.stands j e' (by simpa [State.finish, hother] using he')
    have hfree : s.lock ≠ some j := by
      rw [hlock]
      simpa using hother.symm
    cases hp : e'.point <;> rw [hp] at hj <;>
      first | trivial | exact absurd hj.1 hfree
  · rw [hdistilled, Rollup.foldEntries_append, ← hinv.rollup, hland]
    rfl
  · rw [hdistilled, Milestones.foldEntries_append, ← hinv.milestones, hland]
    rfl
  · rw [hdistilled, List.length_append, ← hinv.folded, hland]
    simp [State.finish, State.entries]
  · rw [hdistilled, List.map_append, List.nodup_append']
    refine ⟨hinv.once, ?_, ?_⟩
    · have hids := h.ids
      simpa [State.entries, Function.comp_def] using hids
    · intro id hfolded hnew
      obtain ⟨e', he', rfl⟩ := List.mem_map.mp hfolded
      obtain ⟨r, hr, hcommit, hle⟩ := hinv.visible e' he'
      obtain ⟨b', hb', hid⟩ := List.mem_map.mp hnew
      obtain ⟨b, hb, rfl⟩ := List.mem_map.mp hb'
      obtain ⟨hrow, hafter⟩ := h.rows b hb
      have hbr : b.1 = r := hsame _ hrow _ hr (by rw [hcommit, ← hid])
      rw [hbr] at hafter
      exact absurd hle (not_le_of_gt hafter)
  · intro e' he'
    rw [hdistilled] at he'
    rw [hrows, hposition]
    rcases List.mem_append.mp he' with he' | he'
    · obtain ⟨r, hr, hcommit, hle⟩ := hinv.visible e' he'
      exact ⟨r, hr, hcommit, hle.trans hbefore.le⟩
    · obtain ⟨b, hb, rfl⟩ := List.mem_map.mp he'
      exact ⟨b.1, (h.rows b hb).1, rfl, h.le_last b hb⟩
  · intro r hr hle
    rw [hrows] at hr
    rw [hposition] at hle
    rw [hdistilled]
    by_cases hold : r.position ≤ s.position
    · obtain ⟨e', he', hcommit⟩ := hinv.behind r hr hold
      exact ⟨e', List.mem_append_left _ he', hcommit⟩
    · obtain ⟨b, hb, rfl⟩ := h.all r hr (lt_of_not_ge hold) hle
      exact ⟨⟨b.1.commit, b.2⟩,
        List.mem_append_right _ (List.mem_map_of_mem hb), rfl⟩

theorem inv_next (hinv : Inv texts s) (he : s.extractors k = some e)
    (timedOut : Bool) : Inv texts (s.next texts k e timedOut) := by
  have hstands := hinv.stands k e he
  unfold State.next
  split
  next =>
    split
    · exact inv_goTo hinv trivial
    next hfree => exact inv_takeLock hinv (Or.inl hfree) (Or.inl rfl)
    · exact hinv
  next =>
    by_cases hfree : s.lock = none ∨ s.lock = some k
    · rw [if_pos hfree]
      exact inv_takeLock hinv hfree (Or.inr rfl)
    · rw [if_neg hfree]
      exact hinv
  next after hpoint =>
    rw [hpoint] at hstands
    obtain ⟨hlock, rfl⟩ := hstands
    dsimp only
    by_cases hempty :
        s.selectBatch s.position (State.sqlCount (max e.batchSize 1)) = []
    · rw [if_pos hempty]
      exact inv_goTo hinv ⟨hlock, rfl⟩
    · rw [if_neg hempty]
      have hids := hinv.ids.sublist
        ((List.sublist_append_left s.rows s.pending).map _)
      exact inv_goTo hinv ⟨hlock, isBatch_selectBatch hids hempty⟩
  next after hpoint =>
    rw [hpoint] at hstands
    split
    · exact inv_finish hinv k e
    · exact inv_goTo hinv hstands
  next batch hpoint =>
    rw [hpoint] at hstands
    exact inv_goTo hinv hstands
  next batch hpoint =>
    rw [hpoint] at hstands
    exact inv_goTo hinv hstands
  next batch hpoint =>
    rw [hpoint] at hstands
    obtain ⟨hlock, last, hbatch⟩ := hstands
    exact inv_land hinv hlock hbatch

theorem inv_step (hinv : Inv texts s) (op : Op Id) :
    Inv texts (s.step texts op) := by
  cases op with
  | openTx => exact inv_openTx hinv
  | insert xid c => exact inv_insert hinv xid c
  | commitTx xid => exact inv_commitTx hinv xid
  | abortTx xid => exact inv_abortTx hinv xid
  | attach c ns =>
      have hgrows : Grows s
          { s with namespaces := Function.update s.namespaces c ns } :=
        ⟨fun _ h => h, fun _ h => Or.inl h, fun _ h => Or.inl h, le_refl _, rfl,
          rfl, rfl, rfl⟩
      exact inv_of_grows hinv hgrows hinv.writers hinv.pending hinv.ids
        fun k e he => (hinv.stands k e he).grows hgrows id
  | extract k batchSize =>
      simp only [State.step]
      split
      · exact inv_goTo hinv trivial
      · exact hinv
  | next k timedOut =>
      simp only [State.step]
      split
      · exact hinv
      next e he => exact inv_next hinv he timedOut
  | drop k =>
      simp only [State.step]
      split
      · exact hinv
      next e he => exact inv_finish hinv k e

theorem inv_start (store : Store Id) (namespaces : Id → Option String) :
    Inv texts (start store namespaces) := by
  have hstart : ∀ r : Row Id,
      ¬r.position ≤ (start store namespaces).position := by
    intro r hle
    rcases Prod.Lex.le_iff.mp hle with hlt | ⟨-, hle⟩
    · exact absurd hlt (Nat.not_lt_zero _)
    · exact absurd hle (by simp [start, State.position, Row.position])
  constructor
  case old => exact store.old
  case ids => simpa [start] using store.ids
  case cursor => exact store.pos
  case behind => exact fun r _ hle => absurd hle (hstart r)
  case rollup => rfl
  case milestones => rfl
  case folded => rfl
  all_goals simp [start]

/-! ## Every commit once -/

/-- The history tables hold what the committed batches held, which is each
visible commit at most once, every one behind the cursor, and all of them when
none is undistilled. -/
structure FoldedOnce (texts : Texts) (s : State Id) : Prop where
  rollup : ∀ key, s.rollup.commitCount key =
    s.distilled.countP fun e => decide (e.key texts = key)
  total : ∑ᶠ key, s.rollup.commitCount key = s.distilled.length
  milestones : ∀ e ∈ s.distilled, s.milestones e.commit.id =
    if e.isCheckpoint then some (e.milestone texts) else none
  once : (s.distilled.map fun e => e.commit.id).Nodup
  visible : ∀ e ∈ s.distilled, ∃ r ∈ s.rows, r.commit = e.commit
  behind : ∀ r ∈ s.rows, r.position ≤ s.position →
    ∃ e ∈ s.distilled, e.commit = r.commit
  finished : s.historyUndistilledCommitCount = 0 →
    ∀ r ∈ s.rows, ∃ e ∈ s.distilled, e.commit = r.commit

theorem Inv.foldedOnce (h : Inv texts s) : FoldedOnce texts s := by
  refine ⟨?_, ?_, ?_, h.once, ?_, h.behind, ?_⟩
  · intro key
    rw [h.rollup, Rollup.commitCount_foldEntries]
  · rw [h.rollup, Rollup.sum_commitCount]
  · intro e he
    rw [h.milestones, Milestones.foldEntries_of_nodup texts h.once he]
  · intro e he
    obtain ⟨r, hr, hcommit, -⟩ := h.visible e he
    exact ⟨r, hr, hcommit⟩
  · intro hzero r hr
    have hnone : ¬s.position < r.position := by
      intro hlt
      have hpos : 0 < s.historyUndistilledCommitCount :=
        List.countP_pos_iff.mpr ⟨r, hr, decide_eq_true hlt⟩
      omega
    exact h.behind r hr (le_of_not_gt hnone)

/-- In every state that writers and extractors reach, in whatever order they
take their steps and wherever they fail, each visible commit has been folded at
most once, those behind the cursor exactly once, and all of them when the
undistilled count is 0. -/
theorem history_folds_once (texts : Texts) (store : Store Id)
    (namespaces : Id → Option String) (ops : List (Op Id)) :
    FoldedOnce texts (StepRuns.run (State.step texts)
      (start store namespaces) ops) := by
  have hinv : Inv texts (StepRuns.run (State.step texts)
      (start store namespaces) ops) :=
    StepRuns.invariant_run (inv_start store namespaces)
      (fun s op hinv (_ : True) => inv_step hinv op)
      (StepRuns.throughout_of_forall fun _ _ _ => trivial)
  exact hinv.foldedOnce

end Postgres

end History

end AgentStateGraph
