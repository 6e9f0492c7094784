import AgentStateGraph.Core.Digest

/-!
# Distilled history

The history of a store counts its commits by day, namespace, agent and intent
category, with the first and last timestamp of each bucket, and keeps a
milestone for each checkpoint.  A batch of commits is folded into buckets of
its own, which are then added to those of the table: folding commits in
batches counts each as folding them one by one does.
-/

namespace AgentStateGraph

namespace History

variable {Id : Type} [Digest Id]

/-! ## Commits to fold -/

/-- The texts of a commit: its day and timestamp, and Rust's `Debug` of a
string. -/
structure Texts where
  /-- `format("%Y-%m-%d")`. -/
  day : ℤ → String
  toRfc3339 : ℤ → String
  debugString : String → String

/-- The `Debug` form of a category. -/
def Texts.debugCategory (texts : Texts) : IntentCategory → String
  | .explore => "Explore"
  | .refine => "Refine"
  | .fix => "Fix"
  | .rollback => "Rollback"
  | .checkpoint => "Checkpoint"
  | .merge => "Merge"
  | .migrate => "Migrate"
  | .plan => "Plan"
  | .taint => "Taint"
  | .untaint => "Untaint"
  | .quarantine => "Quarantine"
  | .unquarantine => "Unquarantine"
  | .watch => "Watch"
  | .unwatch => "Unwatch"
  | .policyPropose => "PolicyPropose"
  | .policyRatify => "PolicyRatify"
  | .policySupersede => "PolicySupersede"
  | .policySign => "PolicySign"
  | .custom name => "Custom(" ++ texts.debugString name ++ ")"

/-- The namespace of a commit made outside a scoped session. -/
def historyNamespaceUnknown : String := "unattributed"

def tagPinState : String := "asg:pin-state"

def tagGitRevision : String := "git:"

/-- A commit with the namespace it is attributed to. -/
structure Entry (Id : Type) [Digest Id] where
  commit : Commit Id
  namespace_ : String
deriving DecidableEq

/-- A rollup bucket's key. -/
structure BucketKey where
  day : String
  namespace_ : String
  agent : String
  category : String
deriving DecidableEq

/-- A rollup bucket's commit count and first and last timestamps. -/
structure Bucket where
  count : ℕ
  first : String
  last : String
deriving DecidableEq

@[ext] structure Milestone (Id : Type) where
  timestamp : String
  day : String
  namespace_ : String
  agentId : String
  description : String
  stateRoot : Option Id
  gitSha : Option String
deriving DecidableEq

namespace Entry

variable (texts : Texts) (e : Entry Id)

def timestamp : String := texts.toRfc3339 e.commit.timestamp

def key : BucketKey where
  day := texts.day e.commit.timestamp
  namespace_ := e.namespace_
  agent := e.commit.options.agentId
  category := texts.debugCategory e.commit.options.intent.category

def isCheckpoint : Prop := e.commit.options.intent.category = .checkpoint

instance : Decidable (e.isCheckpoint) :=
  inferInstanceAs (Decidable (_ = _))

/-- The snapshot is pinned only when the checkpoint asks to. -/
def milestone : Milestone Id where
  timestamp := e.timestamp texts
  day := texts.day e.commit.timestamp
  namespace_ := e.namespace_
  agentId := e.commit.options.agentId
  description := e.commit.options.intent.description
  stateRoot :=
    if tagPinState ∈ e.commit.options.intent.tags then some e.commit.stateRoot
    else none
  gitSha :=
    (e.commit.options.intent.tags.findSome? fun t =>
      (t.dropPrefix? tagGitRevision).map toString).filter fun sha => sha ≠ ""

end Entry

/-! ## Buckets -/

def Bucket.add (a b : Bucket) : Bucket :=
  ⟨a.count + b.count, min a.first b.first, max a.last b.last⟩

theorem Bucket.add_assoc (a b c : Bucket) :
    (a.add b).add c = a.add (b.add c) := by
  simp [Bucket.add, Nat.add_assoc, min_assoc, max_assoc]

/-- The rows of the rollup table, by key. -/
def Rollup := BucketKey → Option Bucket

namespace Rollup

def empty : Rollup := fun _ => none

/-- Rows are added to those with the same key, and are inserted otherwise. -/
def upsert (table rows : Rollup) : Rollup :=
  fun key => Option.merge Bucket.add (table key) (rows key)

/-- The row of one commit. -/
def row (texts : Texts) (e : Entry Id) : Rollup := fun key =>
  if key = e.key texts then some ⟨1, e.timestamp texts, e.timestamp texts⟩
  else none

def add (texts : Texts) (table : Rollup) (e : Entry Id) : Rollup :=
  table.upsert (row texts e)

def foldEntries (texts : Texts) (es : List (Entry Id)) : Rollup :=
  es.foldl (add texts) empty

/-- The `commit_count` of a key. -/
def commitCount (table : Rollup) (key : BucketKey) : ℕ :=
  ((table key).map Bucket.count).getD 0

theorem upsert_assoc (a b c : Rollup) :
    (a.upsert b).upsert c = a.upsert (b.upsert c) := by
  funext key
  unfold upsert
  cases a key <;> cases b key <;> cases c key <;>
    simp [Option.merge, Bucket.add_assoc]

@[simp] theorem upsert_empty (a : Rollup) : a.upsert empty = a := by
  funext key
  simp [upsert, empty]

theorem upsert_foldEntries (texts : Texts) (table : Rollup)
    (es : List (Entry Id)) :
    table.upsert (foldEntries texts es) = es.foldl (add texts) table := by
  induction es using List.reverseRecOn with
  | nil => simp [foldEntries]
  | append_singleton es e ih =>
      rw [List.foldl_append, List.foldl_cons, List.foldl_nil, ← ih]
      simp only [foldEntries, List.foldl_append, List.foldl_cons,
        List.foldl_nil, add]
      exact (upsert_assoc _ _ _).symm

theorem foldEntries_append (texts : Texts) (es es' : List (Entry Id)) :
    foldEntries texts (es ++ es') =
      (foldEntries texts es).upsert (foldEntries texts es') := by
  rw [upsert_foldEntries, foldEntries, List.foldl_append]
  rfl

theorem commitCount_upsert (a b : Rollup) (key : BucketKey) :
    (a.upsert b).commitCount key = a.commitCount key + b.commitCount key := by
  unfold commitCount upsert
  cases a key <;> cases b key <;> simp [Option.merge, Bucket.add]

theorem commitCount_foldEntries (texts : Texts) (es : List (Entry Id))
    (key : BucketKey) :
    (foldEntries texts es).commitCount key =
      es.countP fun e => decide (e.key texts = key) := by
  induction es using List.reverseRecOn with
  | nil => rfl
  | append_singleton es e ih =>
      have hlast : (foldEntries texts (es ++ [e])) =
          (foldEntries texts es).upsert (row texts e) := by
        simp [foldEntries, add]
      rw [hlast, commitCount_upsert, ih, List.countP_append]
      congr 1
      by_cases hkey : key = e.key texts
      · simp [commitCount, row, hkey]
      · simp [commitCount, row, hkey, Ne.symm hkey]

theorem sum_commitCount (texts : Texts) (es : List (Entry Id)) :
    ∑ᶠ key, (foldEntries texts es).commitCount key = es.length := by
  have hcount : ∀ key, (foldEntries texts es).commitCount key =
      (es.map (Entry.key texts)).count key := by
    intro key
    rw [commitCount_foldEntries, List.count, List.countP_map]
    congr 1
  simp only [hcount]
  rw [finsum_eq_sum_of_support_subset _
    (s := (es.map (Entry.key texts)).toFinset)]
  · rw [List.sum_toFinset_count_eq_length, List.length_map]
  · intro key hkey
    simpa [List.count_eq_zero] using hkey

end Rollup

/-! ## Milestones -/

/-- The milestones of the checkpoints, by commit. -/
def Milestones (Id : Type) := Id → Option (Milestone Id)

namespace Milestones

def empty : Milestones Id := fun _ => none

/-- Rows are inserted where there are none. -/
def insertOrIgnore (table rows : Milestones Id) : Milestones Id :=
  fun c => (table c).or (rows c)

def row (texts : Texts) (e : Entry Id) : Milestones Id := fun c =>
  if e.isCheckpoint ∧ c = e.commit.id then some (e.milestone texts) else none

def add (texts : Texts) (table : Milestones Id) (e : Entry Id) :
    Milestones Id :=
  table.insertOrIgnore (row texts e)

def foldEntries (texts : Texts) (es : List (Entry Id)) : Milestones Id :=
  es.foldl (add texts) empty

omit [Digest Id] in
theorem insertOrIgnore_assoc (a b c : Milestones Id) :
    (a.insertOrIgnore b).insertOrIgnore c =
      a.insertOrIgnore (b.insertOrIgnore c) := by
  funext id
  exact Option.or_assoc

theorem insertOrIgnore_foldEntries (texts : Texts) (table : Milestones Id)
    (es : List (Entry Id)) :
    table.insertOrIgnore (foldEntries texts es) =
      es.foldl (add texts) table := by
  induction es using List.reverseRecOn with
  | nil =>
      funext c
      simp [insertOrIgnore, foldEntries, empty]
  | append_singleton es e ih =>
      rw [List.foldl_append, List.foldl_cons, List.foldl_nil, ← ih]
      simp only [foldEntries, List.foldl_append, List.foldl_cons,
        List.foldl_nil, add]
      exact (insertOrIgnore_assoc _ _ _).symm

theorem foldEntries_append (texts : Texts) (es es' : List (Entry Id)) :
    foldEntries texts (es ++ es') =
      (foldEntries texts es).insertOrIgnore (foldEntries texts es') := by
  rw [insertOrIgnore_foldEntries, foldEntries, List.foldl_append]
  rfl

theorem foldEntries_apply (texts : Texts) (es : List (Entry Id)) (c : Id) :
    foldEntries texts es c = (es.find? fun e =>
      decide (e.isCheckpoint ∧ c = e.commit.id)).map (Entry.milestone texts) := by
  induction es using List.reverseRecOn with
  | nil => rfl
  | append_singleton es e ih =>
      have hlast : foldEntries texts (es ++ [e]) c =
          (foldEntries texts es c).or (row texts e c) := by
        simp [foldEntries, add, insertOrIgnore]
      rw [hlast, ih, List.find?_append, Option.map_or]
      by_cases he : e.isCheckpoint ∧ c = e.commit.id
      · simp [row, he]
      · simp [row, he]

theorem foldEntries_of_nodup (texts : Texts) {es : List (Entry Id)}
    (hnodup : (es.map fun e => e.commit.id).Nodup) {e : Entry Id}
    (hmem : e ∈ es) :
    foldEntries texts es e.commit.id =
      if e.isCheckpoint then some (e.milestone texts) else none := by
  rw [foldEntries_apply]
  have honly : ∀ e' ∈ es, e.commit.id = e'.commit.id → e' = e := by
    intro e' hmem' hid
    exact List.inj_on_of_nodup_map hnodup hmem' hmem hid.symm
  by_cases he : e.isCheckpoint
  · have hfind : es.find? (fun e' =>
        decide (e'.isCheckpoint ∧ e.commit.id = e'.commit.id)) = some e := by
      have hsome : (es.find? fun e' =>
          decide (e'.isCheckpoint ∧ e.commit.id = e'.commit.id)).isSome := by
        rw [List.find?_isSome]
        exact ⟨e, hmem, by simpa using he⟩
      obtain ⟨e', he'⟩ := Option.isSome_iff_exists.mp hsome
      have hsat : e'.isCheckpoint ∧ e.commit.id = e'.commit.id := by
        simpa using List.find?_some he'
      rw [he', honly e' (List.mem_of_find?_eq_some he') hsat.2]
    rw [hfind, if_pos he]
    rfl
  · rw [if_neg he, List.find?_eq_none.mpr]
    · rfl
    · rintro e' hmem' hsat
      obtain ⟨hcheckpoint, hid⟩ : e'.isCheckpoint ∧
          e.commit.id = e'.commit.id := by simpa using hsat
      exact he (honly e' hmem' hid ▸ hcheckpoint)

end Milestones

end History

end AgentStateGraph
