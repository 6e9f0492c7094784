import AgentStateGraph.Lib.KeyedMap
import AgentStateGraph.Lib.SortedBatch
import AgentStateGraph.Lib.Tally
import AgentStateGraph.Sync.Bundle

/-!
# The history report

A report of the history tables, of all of them or of one namespace: the commits
of each day or week, of each intent category and of each agent, and the most
recent milestones.  Whatever the commits are counted by, the counts add up to
those of the rows; but the milestones are limited by the query and are only
then those of the namespace.
-/

namespace AgentStateGraph

namespace History

namespace Report

open Bundles

/-! ## The tables -/

/-- A row of the rollup. -/
structure HistoryRollupRow where
  day : String
  namespace_ : String
  agentId : String
  intentCategory : String
  commitCount : ℤ
  firstTs : String
  lastTs : String
deriving DecidableEq

/-- A row of the milestones; its timestamp is in RFC 3339. -/
structure HistoryMilestoneRow where
  commitId : ObjectId
  kind : String
  timestamp : String
  day : String
  namespace_ : String
  agentId : String
  description : String
  stateRoot : Option ObjectId
  gitSha : Option String
deriving DecidableEq

/-- The history tables, with no more rows than a table can have, and counts
that add up within `i64`. -/
structure HistoryTables where
  rollup : List HistoryRollupRow
  milestones : List HistoryMilestoneRow
  cursor : ℤ
  rollup_fits : (rollup.map fun r => r.commitCount.natAbs).sum < 2 ^ 63
  milestones_fit : milestones.length < 2 ^ 63

namespace HistoryRollupRow

/-- The key of the table. -/
def key (r : HistoryRollupRow) : String ×ₗ String ×ₗ String ×ₗ String :=
  toLex (r.day, toLex (r.namespace_, toLex (r.agentId, r.intentCategory)))

end HistoryRollupRow

/-- Newer timestamps come first. -/
def HistoryMilestoneRow.newest (m : HistoryMilestoneRow) : Stringᵒᵈ :=
  OrderDual.toDual m.timestamp

namespace HistoryTables

variable (tables : HistoryTables)

def historyRollup : List HistoryRollupRow :=
  SortedBatch.sort HistoryRollupRow.key tables.rollup

/-- `ORDER BY timestamp DESC LIMIT`, with the limit as an `i64`: a negative one
is none. -/
def historyMilestones (limit : UInt64) : List HistoryMilestoneRow :=
  if limit.toNat < 2 ^ 63 then
    SortedBatch.batch HistoryMilestoneRow.newest limit.toNat tables.milestones
  else SortedBatch.sort HistoryMilestoneRow.newest tables.milestones

end HistoryTables

/-! ## The report -/

/-- The ISO week of a day, where it is a date: the week's year and number. -/
abbrev Calendar := String → Option (ℤ × ℕ)

/-- `YYYY-Www`. -/
def isoWeekKey (calendar : Calendar) (day : String) : Option String :=
  (calendar day).map fun (year, week) =>
    toString year ++ "-W" ++ (if week < 10 then "0" else "") ++ toString week

/-- `eq_ignore_ascii_case`. -/
def eqIgnoreAsciiCase (s t : String) : Bool :=
  s.toList.map Char.toLower == t.toList.map Char.toLower

def ObjectId.short (id : ObjectId) : String :=
  "sg_" ++ String.join ((id.bytes.take 6).map hexByte)

/-- A milestone on the timeline. -/
structure Milestone where
  commit : String
  kind : String
  timestamp : String
  day : String
  namespace_ : String
  agent : String
  description : String
  stateRoot : Option String
  gitSha : Option String
deriving DecidableEq

def milestoneOf (m : HistoryMilestoneRow) : Milestone where
  commit := ObjectId.short m.commitId
  kind := m.kind
  timestamp := m.timestamp
  day := m.day
  namespace_ := m.namespace_
  agent := m.agentId
  description := m.description
  stateRoot := m.stateRoot.map ObjectId.short
  gitSha := m.gitSha

structure Totals where
  commits : ℤ
  periods : ℕ
  agents : ℕ
  cursor : ℤ

/-- The JSON object of a report, by its members; `σ` is the block on the shape
of the store. -/
structure HistoryReport (σ : Type) where
  totals : Totals
  velocityBy : String
  velocitySeries : List (String × ℤ)
  intentMix : List (String × ℤ)
  authorship : List (String × ℤ)
  namespaces : List String
  milestones : List Milestone
  storeShape : Option σ

/-- Ranked by volume, ties broken by name. -/
def rank (m : Tally.Sums String ℤ) : List (String × ℤ) :=
  SortedBatch.sort
    (fun e : String × ℤ => (toLex (OrderDual.toDual e.2, e.1) : ℤᵒᵈ ×ₗ String))
    m.toList

/-- What a filter by namespace retains. -/
def retains (ns : Option String) (name : String) : Bool :=
  ns.all fun n => name == n

def reportOf {σ : Type} (calendar : Calendar) (tables : HistoryTables)
    (ns : Option String) (velocityBy : String) (milestoneLimit : UInt64)
    (storeShape : Option σ) : HistoryReport σ :=
  let byWeek := eqIgnoreAsciiCase velocityBy "week"
  let rollup := tables.historyRollup.filter fun r => retains ns r.namespace_
  let milestones := (tables.historyMilestones (max milestoneLimit 1)).filter
    fun m => retains ns m.namespace_
  let period := fun day =>
    if byWeek then (isoWeekKey calendar day).getD day else day
  let velocity := Tally.tally (fun r => period r.day)
    HistoryRollupRow.commitCount rollup
  let mix := Tally.tally HistoryRollupRow.intentCategory
    HistoryRollupRow.commitCount rollup
  let authorship := Tally.tally HistoryRollupRow.agentId
    HistoryRollupRow.commitCount rollup
  { totals :=
      { commits := (rollup.map HistoryRollupRow.commitCount).sum
        periods := velocity.toList.length
        agents := authorship.toList.length
        cursor := tables.cursor }
    velocityBy := if byWeek then "week" else "day"
    velocitySeries := velocity.toList
    intentMix := rank mix
    authorship := rank authorship
    namespaces :=
      (Std.ExtTreeSet.ofList (rollup.map HistoryRollupRow.namespace_)
        compare).toList
    milestones := milestones.map milestoneOf
    storeShape := storeShape }

/-- The tables that are read: with `refresh`, those after an extraction. -/
def readTables {ε : Type}
    (extractHistory : HistoryTables → Except ε HistoryTables)
    (tables : HistoryTables) (refresh : Bool) : Except ε HistoryTables :=
  if refresh then extractHistory tables else .ok tables

def historyReport {ε σ : Type} (calendar : Calendar)
    (extractHistory : HistoryTables → Except ε HistoryTables)
    (historyStoreShape : HistoryTables → σ) (tables : HistoryTables)
    (ns : Option String) (velocityBy : String) (milestoneLimit : UInt64)
    (refresh store : Bool) : Except ε (HistoryReport σ) := do
  let tables ← readTables extractHistory tables refresh
  .ok (reportOf calendar tables ns velocityBy milestoneLimit
    (if store then some (historyStoreShape tables) else none))

/-! ## Counts -/

variable {σ : Type} {calendar : Calendar} {tables : HistoryTables}
  {ns : Option String} {velocityBy : String} {limit : UInt64}
  {storeShape : Option σ}

/-- The commits of a namespace, or of all. -/
def HistoryTables.commitCount (tables : HistoryTables) (ns : Option String) : ℤ :=
  ((tables.rollup.filter fun r => retains ns r.namespace_).map
    HistoryRollupRow.commitCount).sum

theorem sum_historyRollup :
    ((tables.historyRollup.filter fun r => retains ns r.namespace_).map
      HistoryRollupRow.commitCount).sum = tables.commitCount ns := by
  have hperm : tables.historyRollup.Perm tables.rollup :=
    List.perm_insertionSort _ _
  exact ((hperm.filter _).map _).sum_eq

theorem sum_rank (m : Tally.Sums String ℤ) :
    ((rank m).map Prod.snd).sum = m.total := by
  have hperm : (rank m).Perm m.toList := List.perm_insertionSort _ _
  exact (hperm.map _).sum_eq

theorem total_rollup (key : HistoryRollupRow → String) :
    (Tally.tally key HistoryRollupRow.commitCount
      (tables.historyRollup.filter fun r => retains ns r.namespace_)).total =
      tables.commitCount ns := by
  rw [Tally.total_tally, sum_historyRollup]

/-! ## Milestones -/

/-- A limit that does not fit `i64` is more than there are rows. -/
theorem historyMilestones_eq :
    tables.historyMilestones limit =
      SortedBatch.batch HistoryMilestoneRow.newest limit.toNat
        tables.milestones := by
  unfold HistoryTables.historyMilestones
  split
  next => rfl
  next hlimit =>
    have hfit := tables.milestones_fit
    rw [SortedBatch.batch, List.take_of_length_le]
    rw [SortedBatch.sort, List.length_insertionSort]
    omega

/-- How many milestones are newer. -/
def HistoryTables.newer (tables : HistoryTables) (m : HistoryMilestoneRow) : ℕ :=
  tables.milestones.countP fun m' => m.timestamp < m'.timestamp

/-- All milestones of the namespace are among the `n` most recent of all, or
these are all of the namespace. -/
def HistoryTables.Within (tables : HistoryTables) (ns : Option String) (n : ℕ) :
    Prop :=
  (∀ m ∈ tables.milestones, retains ns m.namespace_ = true →
      tables.newer m < n) ∨
    ∀ m ∈ tables.milestones, tables.newer m < n →
      retains ns m.namespace_ = true

/-- The report lists the `n` most recent milestones of the namespace, newest
first, and its counts add up to those of the rows of the namespace. -/
structure HistoryReport.Exact (report : HistoryReport σ) (tables : HistoryTables)
    (ns : Option String) (n : ℕ) : Prop where
  milestones : ∃ rows, SortedBatch.Firsts HistoryMilestoneRow.newest n
      (tables.milestones.filter fun m => retains ns m.namespace_) rows ∧
    report.milestones = rows.map milestoneOf
  velocity : (report.velocitySeries.map Prod.snd).sum = tables.commitCount ns
  intentMix : (report.intentMix.map Prod.snd).sum = tables.commitCount ns
  authorship : (report.authorship.map Prod.snd).sum = tables.commitCount ns
  totals : report.totals.commits = tables.commitCount ns

theorem nodup_newest
    (h : (tables.milestones.map HistoryMilestoneRow.timestamp).Nodup) :
    (tables.milestones.map HistoryMilestoneRow.newest).Nodup := by
  have hmap : tables.milestones.map HistoryMilestoneRow.newest =
      (tables.milestones.map HistoryMilestoneRow.timestamp).map
        OrderDual.toDual := by
    simp [HistoryMilestoneRow.newest]
  rw [hmap]
  exact h.map OrderDual.toDual.injective

theorem milestones_reportOf (hlimit : 1 ≤ limit) :
    (reportOf calendar tables ns velocityBy limit storeShape).milestones =
      ((SortedBatch.batch HistoryMilestoneRow.newest limit.toNat
        tables.milestones).filter fun m => retains ns m.namespace_).map
          milestoneOf := by
  have hmax : max limit 1 = limit := by
    change (if limit ≤ 1 then 1 else limit) = limit
    split
    next hle => exact UInt64.le_antisymm hlimit hle
    next => rfl
  unfold reportOf
  simp only [hmax, historyMilestones_eq]

theorem exact_reportOf_iff
    (htimes : (tables.milestones.map HistoryMilestoneRow.timestamp).Nodup)
    (hlimit : 1 ≤ limit) :
    (reportOf calendar tables ns velocityBy limit storeShape).Exact tables ns
        limit.toNat ↔ tables.Within ns limit.toNat := by
  have hnodup := nodup_newest htimes
  have hwithin : SortedBatch.Firsts HistoryMilestoneRow.newest limit.toNat
      (tables.milestones.filter fun m => retains ns m.namespace_)
      ((SortedBatch.batch HistoryMilestoneRow.newest limit.toNat
        tables.milestones).filter fun m => retains ns m.namespace_) ↔
        tables.Within ns limit.toNat :=
    SortedBatch.firsts_filter_iff hnodup
  rw [← hwithin]
  constructor
  · intro h
    obtain ⟨rows, hrows, hlist⟩ := h.milestones
    rw [milestones_reportOf hlimit] at hlist
    have hlength := congrArg List.length hlist
    rw [List.length_map, List.length_map, hrows.length] at hlength
    exact (SortedBatch.firsts_filter_iff_length hnodup).mpr hlength
  · intro h
    exact ⟨⟨_, h, milestones_reportOf hlimit⟩, total_rollup _,
      (sum_rank _).trans (total_rollup _), (sum_rank _).trans (total_rollup _),
      sum_historyRollup⟩

/-- A report is exact exactly when the milestones of the namespace are all
among the most recent ones, or these are all of the namespace. -/
theorem history_report_exact_iff {ε : Type}
    (extractHistory : HistoryTables → Except ε HistoryTables)
    (historyStoreShape : HistoryTables → σ) (stored : HistoryTables)
    (refresh store : Bool)
    (hread : readTables extractHistory stored refresh = .ok tables)
    (htimes : (tables.milestones.map HistoryMilestoneRow.timestamp).Nodup)
    (hlimit : 1 ≤ limit) :
    ∃ report, historyReport calendar extractHistory historyStoreShape stored ns
        velocityBy limit refresh store = .ok report ∧
      (report.Exact tables ns limit.toNat ↔ tables.Within ns limit.toNat) := by
  refine ⟨reportOf calendar tables ns velocityBy limit
    (if store then some (historyStoreShape tables) else none), ?_,
    exact_reportOf_iff htimes hlimit⟩
  unfold historyReport
  rw [hread]
  rfl

namespace Crowded

def checkpoint (ns timestamp : String) : HistoryMilestoneRow where
  commitId := ⟨List.replicate 32 0, length_zeros⟩
  kind := "checkpoint"
  timestamp := timestamp
  day := "2026-01-01"
  namespace_ := ns
  agentId := "agent"
  description := "ship it"
  stateRoot := none
  gitSha := none

/-- A milestone of one namespace before one of another. -/
def crowded : HistoryTables where
  rollup := []
  milestones :=
    [checkpoint "mine" "2026-01-01T08:00:00+00:00",
      checkpoint "other" "2026-01-01T09:00:00+00:00"]
  cursor := 2
  rollup_fits := by decide
  milestones_fit := by decide

end Crowded

open Crowded in
/-- Of the whole store the most recent milestone is listed. -/
theorem history_report_exact_whole :
    ∃ report : HistoryReport Unit,
      historyReport (fun _ => none) (fun t => (.ok t : Except Unit _))
        (fun _ => ()) crowded none "day" 1 false false = .ok report ∧
      report.Exact crowded none (1 : UInt64).toNat := by
  obtain ⟨report, hreport, hexact⟩ := @history_report_exact_iff Unit
    (fun _ => none) crowded none "day" 1 Unit (fun t => .ok t) (fun _ => ())
    crowded false false rfl (by decide) (by decide)
  refine ⟨report, hreport, hexact.mpr (Or.inr ?_)⟩
  intro m _ _
  rfl

open Crowded in
/-- With a limit of one, no milestone of the namespace is listed, although it
has one. -/
theorem history_report_not_exact :
    ¬ (reportOf (fun _ => none) crowded (some "mine") "day" 1
      (none : Option Unit)).Exact crowded (some "mine") 1 := by
  have hwithin : ¬ crowded.Within (some "mine") 1 := by
    unfold HistoryTables.Within
    decide
  intro h
  exact hwithin ((exact_reportOf_iff (by decide) (by decide)).mp h)

end Report

end History

end AgentStateGraph
