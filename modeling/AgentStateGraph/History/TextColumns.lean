import AgentStateGraph.History.Fold
import AgentStateGraph.Postgres.CommitTexts

/-!
# Distilling commits into text columns

The history tables have plain `TEXT` columns, which hold no U+0000.  A batch of
commits is folded into rollup buckets and milestones and written with one
statement for each table, so that it is written exactly when every one of its
commits is plain in what the columns take of it.
-/

namespace AgentStateGraph

namespace PostgresHistory

open History PostgresRows

/-! ## Columns -/

/-- A value of a `TEXT` column. -/
abbrev PgText := { s : String // hasNulText s = false }

/-- How an extraction fails: a row is not read back, or Postgres refuses a
statement. -/
inductive ExtractError where
  | serialization
  | history (step : String)
deriving DecidableEq

def pgText (step s : String) : Except ExtractError PgText :=
  if h : hasNulText s = false then .ok ⟨s, h⟩ else .error (.history step)

/-- The texts of times and categories, which have no U+0000: `Debug` writes it
as an escape. -/
structure PlainTexts extends Texts where
  day_plain : ∀ t, hasNulText (day t) = false
  toRfc3339_plain : ∀ t, hasNulText (toRfc3339 t) = false
  debugString_plain : ∀ s, hasNulText (debugString s) = false

/-- Day, namespace, agent and category. -/
abbrev BucketKey := String ×ₗ String ×ₗ String ×ₗ String

instance lawfulEqCmp_bucketKey :
    Std.LawfulEqCmp (compare : BucketKey → BucketKey → Ordering) where
  eq_of_compare := compare_eq_iff_eq.mp

structure RollupRow where
  day : PgText
  namespace_ : PgText
  agentId : PgText
  intentCategory : PgText
  commitCount : ℕ
  firstTs : PgText
  lastTs : PgText
deriving DecidableEq

structure MilestoneRow where
  commitId : ObjectId
  timestamp : PgText
  day : PgText
  namespace_ : PgText
  agentId : PgText
  description : PgText
  stateRoot : Option ObjectId
  gitSha : Option PgText
deriving DecidableEq

/-- The two history tables. -/
structure Tables where
  rollup : List RollupRow
  milestones : List MilestoneRow
deriving DecidableEq

namespace RollupRow

def key (r : RollupRow) : PgText × PgText × PgText × PgText :=
  (r.day, r.namespace_, r.agentId, r.intentCategory)

/-- `ON CONFLICT … DO UPDATE`. -/
def merge (r excluded : RollupRow) : RollupRow :=
  { r with
    commitCount := r.commitCount + excluded.commitCount
    firstTs := if excluded.firstTs.1 < r.firstTs.1 then excluded.firstTs
      else r.firstTs
    lastTs := if r.lastTs.1 < excluded.lastTs.1 then excluded.lastTs
      else r.lastTs }

end RollupRow

namespace Tables

def empty : Tables := ⟨[], []⟩

def upsert (t : Tables) (row : RollupRow) : Tables :=
  if t.rollup.any fun r => r.key == row.key then
    { t with
      rollup := t.rollup.map fun r =>
        if r.key = row.key then r.merge row else r }
  else { t with rollup := t.rollup ++ [row] }

/-- `ON CONFLICT DO NOTHING`. -/
def insertMilestone (t : Tables) (row : MilestoneRow) : Tables :=
  if t.milestones.any fun m => m.commitId == row.commitId then t
  else { t with milestones := t.milestones ++ [row] }

end Tables

/-! ## Folding a batch -/

/-- One batch of commits folded into rollup buckets and milestones. -/
structure HistoryFold where
  rollup : BTreeMap BucketKey Bucket
  milestones : List (ObjectId × Milestone ObjectId)

/-- The first `git:` tag, unless it names nothing. -/
def gitSha (tags : List String) : Option String :=
  (tags.findSome? fun t =>
    (t.dropPrefix? tagGitRevision).map toString).filter fun sha => sha ≠ ""

namespace HistoryFold

def new : HistoryFold := ⟨∅, []⟩

variable (texts : Texts)

def bucketKey (commit : PostgresRows.Commit) (ns : String) : BucketKey :=
  toLex (texts.day commit.timestamp, toLex (ns, toLex (commit.agentId,
    texts.debugCategory commit.intent.category)))

def milestone (commit : PostgresRows.Commit) (ns : String) :
    Milestone ObjectId where
  timestamp := texts.toRfc3339 commit.timestamp
  day := texts.day commit.timestamp
  namespace_ := ns
  agentId := commit.agentId
  description := commit.intent.description
  stateRoot :=
    if tagPinState ∈ commit.intent.tags then some commit.stateRoot else none
  gitSha := gitSha commit.intent.tags

/-- A bucket with one more timestamp. -/
def Bucket.note (b : Bucket) (ts : String) : Bucket :=
  ⟨b.count + 1, if ts < b.first then ts else b.first,
    if b.last < ts then ts else b.last⟩

def add (fold : HistoryFold) (commit : PostgresRows.Commit) (ns : String) :
    HistoryFold :=
  let ts := texts.toRfc3339 commit.timestamp
  let key := bucketKey texts commit ns
  { rollup := fold.rollup.insert key
      (Bucket.note (fold.rollup[key]?.getD ⟨0, ts, ts⟩) ts)
    milestones :=
      if commit.intent.category = .checkpoint then
        fold.milestones ++ [(commit.id, milestone texts commit ns)]
      else fold.milestones }

end HistoryFold

/-- A bucket as a row of the rollup. -/
def rollupRow (entry : BucketKey × Bucket) : Except ExtractError RollupRow := do
  let (day, rest) := ofLex entry.1
  let (ns, rest) := ofLex rest
  let (agent, category) := ofLex rest
  let day ← pgText "rollup upsert" day
  let ns ← pgText "rollup upsert" ns
  let agent ← pgText "rollup upsert" agent
  let category ← pgText "rollup upsert" category
  let first ← pgText "rollup upsert" entry.2.first
  let last ← pgText "rollup upsert" entry.2.last
  .ok ⟨day, ns, agent, category, entry.2.count, first, last⟩

def milestoneRow (entry : ObjectId × Milestone ObjectId) :
    Except ExtractError MilestoneRow := do
  let m := entry.2
  let timestamp ← pgText "milestones" m.timestamp
  let day ← pgText "milestones" m.day
  let ns ← pgText "milestones" m.namespace_
  let agent ← pgText "milestones" m.agentId
  let description ← pgText "milestones" m.description
  let sha ← m.gitSha.mapM (pgText "milestones")
  .ok ⟨entry.1, timestamp, day, ns, agent, description, m.stateRoot, sha⟩

/-- Write a batch, each table with one statement. -/
def HistoryFold.write (fold : HistoryFold) (tables : Tables) :
    Except ExtractError Tables := do
  let rows ← fold.rollup.toList.mapM rollupRow
  let tables := rows.foldl Tables.upsert tables
  if fold.milestones = [] then .ok tables
  else do
    let milestones ← fold.milestones.mapM milestoneRow
    .ok (milestones.foldl Tables.insertMilestone tables)

/-! ## What the columns refuse -/

theorem hasNulText_append (s t : String) :
    hasNulText (s ++ t) = (hasNulText s || hasNulText t) := by
  simp [hasNulText]

theorem PlainTexts.debugCategory_plain (texts : PlainTexts)
    (category : IntentCategory) :
    hasNulText (texts.debugCategory category) = false := by
  cases category with
  | custom name =>
      have hopen : hasNulText "Custom(" = false := by decide
      have hclose : hasNulText ")" = false := by decide
      simp [Texts.debugCategory, hasNulText_append, hopen, hclose,
        texts.debugString_plain]
  | _ =>
      dsimp only [Texts.debugCategory]
      decide

theorem pgText_eq_ok_iff {step s : String} {t : PgText} :
    pgText step s = .ok t ↔ t.1 = s := by
  unfold pgText
  split
  next h =>
      rw [Except.ok.injEq, Subtype.ext_iff]
      exact eq_comm
  next h =>
      refine ⟨fun hok => by contradiction, ?_⟩
      rintro rfl
      exact absurd t.2 h

theorem exists_pgText_bind_iff {α : Type} {step s : String}
    {f : PgText → Except ExtractError α} :
    (∃ a, pgText step s >>= f = .ok a) ↔
      ∃ h : hasNulText s = false, ∃ a, f ⟨s, h⟩ = .ok a := by
  simp only [Except.bind_eq_ok_iff, pgText_eq_ok_iff]
  constructor
  · rintro ⟨a, t, rfl, hf⟩
    exact ⟨t.2, a, hf⟩
  · rintro ⟨h, a, hf⟩
    exact ⟨a, ⟨s, h⟩, rfl, hf⟩

theorem exists_mapM_pgText_iff {α : Type} {step : String} {o : Option String}
    {f : Option PgText → α} :
    (∃ a, (o.mapM (pgText step) >>= fun x => .ok (f x)) = .ok a) ↔
      ∀ s ∈ o, hasNulText s = false := by
  cases o with
  | none => simp [pure, Except.pure]
  | some s =>
      have hmap : (some s).mapM (pgText step) =
          pgText step s >>= fun t => .ok (some t) := rfl
      rw [hmap, bind_assoc, exists_pgText_bind_iff]
      simp

/-- No column of a bucket's key is refused. -/
structure PlainKey (key : BucketKey) : Prop where
  day : hasNulText (ofLex key).1 = false
  namespace_ : hasNulText (ofLex (ofLex key).2).1 = false
  agentId : hasNulText (ofLex (ofLex (ofLex key).2).2).1 = false
  category : hasNulText (ofLex (ofLex (ofLex key).2).2).2 = false

structure PlainBucket (b : Bucket) : Prop where
  first : hasNulText b.first = false
  last : hasNulText b.last = false

structure PlainMilestone (m : Milestone ObjectId) : Prop where
  timestamp : hasNulText m.timestamp = false
  day : hasNulText m.day = false
  namespace_ : hasNulText m.namespace_ = false
  agentId : hasNulText m.agentId = false
  description : hasNulText m.description = false
  gitSha : ∀ sha ∈ m.gitSha, hasNulText sha = false

theorem exists_rollupRow_iff {entry : BucketKey × Bucket} :
    (∃ row, rollupRow entry = .ok row) ↔
      PlainKey entry.1 ∧ PlainBucket entry.2 := by
  unfold rollupRow
  simp only [exists_pgText_bind_iff]
  constructor
  · rintro ⟨hday, hns, hagent, hcategory, hfirst, hlast, -⟩
    exact ⟨⟨hday, hns, hagent, hcategory⟩, hfirst, hlast⟩
  · rintro ⟨⟨hday, hns, hagent, hcategory⟩, hfirst, hlast⟩
    exact ⟨hday, hns, hagent, hcategory, hfirst, hlast, _, rfl⟩

theorem exists_milestoneRow_iff {entry : ObjectId × Milestone ObjectId} :
    (∃ row, milestoneRow entry = .ok row) ↔ PlainMilestone entry.2 := by
  unfold milestoneRow
  simp only [exists_pgText_bind_iff, exists_mapM_pgText_iff]
  constructor
  · rintro ⟨htimestamp, hday, hns, hagent, hdescription, hsha⟩
    exact ⟨htimestamp, hday, hns, hagent, hdescription, hsha⟩
  · intro h
    exact ⟨h.timestamp, h.day, h.namespace_, h.agentId, h.description,
      h.gitSha⟩

/-! ## When a batch is written -/

namespace HistoryFold

/-- The timestamps of the buckets, which no column refuses. -/
def Stamped (fold : HistoryFold) : Prop :=
  ∀ (key : BucketKey) b, fold.rollup[key]? = some b → PlainBucket b

/-- No other column of the batch is refused. -/
structure Plain (fold : HistoryFold) : Prop where
  keys : ∀ key ∈ fold.rollup, PlainKey key
  milestones : ∀ m ∈ fold.milestones, PlainMilestone m.2

theorem exists_write_iff {fold : HistoryFold} {tables : Tables}
    (hstamped : fold.Stamped) :
    (∃ t, fold.write tables = .ok t) ↔ fold.Plain := by
  have hrollup : (∃ rows, fold.rollup.toList.mapM rollupRow = .ok rows) ↔
      ∀ (key : BucketKey) b, fold.rollup[key]? = some b →
        PlainKey key ∧ PlainBucket b := by
    rw [Except.exists_mapM_iff]
    simp only [exists_rollupRow_iff, Prod.forall,
      Std.ExtTreeMap.mem_toList_iff_getElem?_eq_some]
  have hmilestones :
      (∃ rows, fold.milestones.mapM milestoneRow = .ok rows) ↔
        ∀ m ∈ fold.milestones, PlainMilestone m.2 := by
    rw [Except.exists_mapM_iff]
    simp only [exists_milestoneRow_iff]
  have hwrite : (∃ t, fold.write tables = .ok t) ↔
      (∃ rows, fold.rollup.toList.mapM rollupRow = .ok rows) ∧
        ∃ rows, fold.milestones.mapM milestoneRow = .ok rows := by
    unfold write
    by_cases hnone : fold.milestones = []
    · simp [hnone, Except.bind_eq_ok_iff, pure, Except.pure]
    · simp only [hnone, if_false, Except.bind_eq_ok_iff]
      constructor
      · rintro ⟨t, rows, hrows, ms, hms, -⟩
        exact ⟨⟨rows, hrows⟩, ms, hms⟩
      · rintro ⟨⟨rows, hrows⟩, ms, hms⟩
        exact ⟨_, rows, hrows, ms, hms, rfl⟩
  rw [hwrite, hrollup, hmilestones]
  constructor
  · rintro ⟨hentries, hms⟩
    refine ⟨?_, hms⟩
    intro key hkey
    exact (hentries key _ (Std.ExtTreeMap.getElem?_eq_some_getElem hkey)).1
  · intro h
    refine ⟨fun key b hb => ⟨h.keys key ?_, hstamped key b hb⟩, h.milestones⟩
    rw [Std.ExtTreeMap.mem_iff_isSome_getElem?, hb]
    rfl

end HistoryFold

/-- What a `TEXT` column takes of a commit has no U+0000. -/
structure PlainCommit (c : PostgresRows.Commit) : Prop where
  agentId : hasNulText c.agentId = false
  description : c.intent.category = .checkpoint →
    hasNulText c.intent.description = false
  gitSha : c.intent.category = .checkpoint →
    ∀ sha ∈ PostgresHistory.gitSha c.intent.tags, hasNulText sha = false

theorem plainCommit_congr {c c' : PostgresRows.Commit} (h : c.SameTexts c') :
    PlainCommit c' ↔ PlainCommit c := by
  constructor
  · intro hc
    refine ⟨h.agentId ▸ hc.agentId, ?_, ?_⟩
    · rw [← h.category, ← h.description]
      exact hc.description
    · rw [← h.category, ← h.tags]
      exact hc.gitSha
  · intro hc
    refine ⟨h.agentId ▸ hc.agentId, ?_, ?_⟩
    · rw [h.category, h.description]
      exact hc.description
    · rw [h.category, h.tags]
      exact hc.gitSha

namespace HistoryFold

theorem stamped_new : new.Stamped := by
  intro key b hb
  simp [new] at hb

theorem plain_new : new.Plain := by
  constructor
  · intro key hkey
    simp [new] at hkey
  · intro m hm
    simp [new] at hm

variable {texts : PlainTexts} {fold : HistoryFold} {c : PostgresRows.Commit}
  {ns : String}

theorem plainBucket_note {b : Bucket} {ts : String} (hb : PlainBucket b)
    (hts : hasNulText ts = false) : PlainBucket (Bucket.note b ts) := by
  unfold Bucket.note
  constructor
  · dsimp only
    split
    next => exact hts
    next => exact hb.first
  · dsimp only
    split
    next => exact hts
    next => exact hb.last

theorem stamped_add (h : fold.Stamped) :
    (fold.add texts.toTexts c ns).Stamped := by
  intro key b hb
  have hts := texts.toRfc3339_plain c.timestamp
  simp only [add, Std.ExtTreeMap.getElem?_insert] at hb
  split at hb
  next =>
    obtain rfl := Option.some.inj hb
    refine plainBucket_note ?_ hts
    cases hold : fold.rollup[bucketKey texts.toTexts c ns]? with
    | none => exact ⟨hts, hts⟩
    | some b => exact h _ b hold
  next => exact h key b hb

theorem plainKey_bucketKey_iff (hns : hasNulText ns = false) :
    PlainKey (bucketKey texts.toTexts c ns) ↔ hasNulText c.agentId = false := by
  refine ⟨fun h => h.agentId, fun h => ?_⟩
  exact ⟨texts.day_plain _, hns, h, texts.debugCategory_plain _⟩

theorem plainMilestone_iff (hns : hasNulText ns = false) :
    PlainMilestone (milestone texts.toTexts c ns) ↔
      hasNulText c.agentId = false ∧
        hasNulText c.intent.description = false ∧
        ∀ sha ∈ gitSha c.intent.tags, hasNulText sha = false := by
  constructor
  · intro h
    exact ⟨h.agentId, h.description, h.gitSha⟩
  · rintro ⟨hagent, hdescription, hsha⟩
    exact ⟨texts.toRfc3339_plain _, texts.day_plain _, hns, hagent,
      hdescription, hsha⟩

theorem plain_add_iff (hns : hasNulText ns = false) :
    (fold.add texts.toTexts c ns).Plain ↔ fold.Plain ∧ PlainCommit c := by
  have hkeys : (∀ key ∈ (fold.add texts.toTexts c ns).rollup, PlainKey key) ↔
      hasNulText c.agentId = false ∧ ∀ key ∈ fold.rollup, PlainKey key := by
    simp only [add, Std.ExtTreeMap.mem_insert, compare_eq_iff_eq]
    have hkey : PlainKey (bucketKey texts.toTexts c ns) ↔
        hasNulText c.agentId = false := plainKey_bucketKey_iff hns
    rw [← hkey]
    constructor
    · intro h
      exact ⟨h _ (Or.inl rfl), fun key hkey => h key (Or.inr hkey)⟩
    · rintro ⟨hkey, hrest⟩ key (rfl | hmem)
      · exact hkey
      · exact hrest key hmem
  have hmilestones :
      (∀ m ∈ (fold.add texts.toTexts c ns).milestones, PlainMilestone m.2) ↔
        (∀ m ∈ fold.milestones, PlainMilestone m.2) ∧
          (c.intent.category = .checkpoint →
            PlainMilestone (milestone texts.toTexts c ns)) := by
    unfold add
    by_cases hcheckpoint : c.intent.category = .checkpoint
    · simp [hcheckpoint, or_imp, forall_and]
    · simp [hcheckpoint]
  constructor
  · intro h
    obtain ⟨hagent, hold⟩ := hkeys.mp h.keys
    obtain ⟨hms, hnew⟩ := hmilestones.mp h.milestones
    refine ⟨⟨hold, hms⟩, hagent, fun hc => ?_, fun hc => ?_⟩
    · exact ((plainMilestone_iff hns).mp (hnew hc)).2.1
    · exact ((plainMilestone_iff hns).mp (hnew hc)).2.2
  · rintro ⟨hfold, hc⟩
    refine ⟨hkeys.mpr ⟨hc.agentId, hfold.keys⟩,
      hmilestones.mpr ⟨hfold.milestones, fun hcheckpoint => ?_⟩⟩
    exact (plainMilestone_iff hns).mpr
      ⟨hc.agentId, hc.description hcheckpoint, hc.gitSha hcheckpoint⟩

end HistoryFold

end PostgresHistory

end AgentStateGraph
