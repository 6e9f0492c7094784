import AgentStateGraph.Lib.Marking
import AgentStateGraph.Control.Merge
import AgentStateGraph.Repo.Branches

/-!
# Garbage collection

A sweep keeps what its keep roots reach and what was written lately, and
deletes every other object.  The keep roots are computed under the lock that
shuts other writers out, so a sweep is one step.
-/

namespace AgentStateGraph

variable {Id : Type} [Digest Id]

/-! ## The database -/

/-- Which older commits keep their state. -/
structure RetentionPolicy where
  keepRecent : ℕ
  checkpointEvery : ℕ
  keepMilestones : Bool
deriving DecidableEq

/-- The root of an open speculation, which a sweep keeps. -/
structure PendingRoot (Id : Type) where
  key : String
  root : Id
  /-- In seconds. -/
  updatedAt : ℤ
deriving DecidableEq

/-- The tables of a database, with those that only a sweep reads. -/
structure Database (Id : Type) [Digest Id] where
  store : Storage Id
  /-- When each object was last written, in milliseconds. -/
  writtenAt : Id → ℤ
  /-- The commits, newest row first. -/
  commitRows : List Id
  pendingRoots : List (PendingRoot Id)
  /-- The state roots of the recorded milestones; a row may have none. -/
  milestones : List (Option Id)
  /-- How many commits the history tables do not cover yet. -/
  undistilled : ℕ

/-- How long a pin holds without being refreshed, in seconds. -/
def GC_PIN_MAX_AGE : ℤ := 24 * 60 * 60

/-- How many ids one bulk statement takes. -/
def GC_SQL_CHUNK : ℕ := 400

namespace Database

variable (db : Database Id)

/-! ## The keep roots -/

/-- The state root of every ref tip. -/
def liveTipRoots : List Id :=
  db.store.refs.toList.filterMap fun e => db.store.rootOf e.2

/-- The tips that the namespaces list. -/
def tipRoots : List Id :=
  db.store.namespaces.flatMap fun ns =>
    (db.store.refsIn ns "").filterMap fun e => db.store.rootOf e.2

/-- The commits of sealed and archived epochs. -/
def sealedRoots : List Id :=
  (db.store.epochs.filter fun e =>
      e.status = .sealed || e.status = .archived).flatMap fun e =>
    e.sealedCommits.filterMap db.store.rootOf

/-- Each branch's fork point from the `main` of its namespace; disjoint
histories have none. -/
def forkRoots : List Id :=
  db.store.namespaces.flatMap fun ns =>
    match (db.store.refsIn ns "").find? fun e => e.1 = "main" with
    | none => []
    | some main =>
        (db.store.refsIn ns "").filterMap fun e =>
          if e.1 = "main" then none
          else
            (findCommonAncestor db.store.commits e.2 main.2).bind
              db.store.rootOf

/-- The roots of the pins that hold at a time, in seconds. -/
def pinnedRoots (now : ℤ) : List Id :=
  (db.pendingRoots.filter fun p =>
    now - GC_PIN_MAX_AGE ≤ p.updatedAt).map fun p => p.root

def retainedRoots : List Id := db.milestones.filterMap id

/-- The recent commits in full, and every so manieth older one. -/
def selectedRoots (policy : RetentionPolicy) : List Id :=
  ((db.commitRows.filterMap db.store.rootOf).zipIdx.filter fun e =>
    e.2 < policy.keepRecent ||
      (0 < policy.checkpointEvery && e.2 % policy.checkpointEvery = 0)).map
    Prod.fst

/-- The state roots that a policy keeps. -/
def keepRoots (policy : RetentionPolicy) (now : ℤ) : List Id :=
  let roots := db.tipRoots ++ db.sealedRoots ++ db.forkRoots ++
    db.pinnedRoots now ++ (if policy.keepMilestones then db.retainedRoots
      else []) ++ db.selectedRoots policy
  (Std.ExtTreeSet.ofList roots compare : Control.IdSet Id).toList

/-! ## The sweep -/

/-- Every id that is stored or pointed at. -/
def objectIds : List Id :=
  db.store.objects.entries.toList.flatMap fun e => e.1 :: e.2.childIds

def bulkInsertMarks (rows : Marking.Table Id) (ids : List Id) :
    Marking.Table Id :=
  (Marking.chunks GC_SQL_CHUNK ids []).foldl
    (fun rows chunk => chunk.foldl Marking.insertOrIgnore rows) rows

def bulkMarkExpanded (rows : Marking.Table Id) (ids : List Id) :
    Marking.Table Id :=
  (Marking.chunks GC_SQL_CHUNK ids []).foldl Marking.markExpanded rows

/-- Drain the frontier a batch at a time. -/
def drainMarks (choose : List Id → List Id) :
    ℕ → Marking.Table Id → Option (Marking.Table Id)
  | fuel, rows =>
      match choose (Marking.frontier rows) with
      | [] => some rows
      | x :: xs =>
          match fuel with
          | 0 => none
          | fuel + 1 =>
              let children := (x :: xs).flatMap db.store.objects.children
              drainMarks choose fuel
                (bulkMarkExpanded (bulkInsertMarks rows children) (x :: xs))

/-- Mark what the roots reach; a root that is not stored marks nothing. -/
def buildMark (choose : List Id → List Id) (roots : List Id) :
    Option (Marking.Table Id) :=
  let seeds := roots.filter fun r => (db.store.objects.get r).isSome
  db.drainMarks choose db.objectIds.length
    (seeds.foldl Marking.insertOrIgnore [])

def bulkDelete (objects : ObjectStore Id) (ids : List Id) : ObjectStore Id :=
  (Marking.chunks GC_SQL_CHUNK ids []).foldl
    (fun objects chunk => chunk.foldl AddressedMap.erase objects) objects

/-- Delete the dead a batch at a time. -/
def deleteDead (choose : List Id → List Id) :
    ℕ → ObjectStore Id → List Id → Option (ObjectStore Id)
  | fuel, objects, dead =>
      match choose dead with
      | [] => some objects
      | x :: xs =>
          match fuel with
          | 0 => none
          | fuel + 1 =>
              deleteDead choose fuel (bulkDelete objects (x :: xs))
                (dead.filter fun id => decide (id ∉ x :: xs))

/-- `saturating_sub` in milliseconds. -/
def sweepCutoff (now grace : ℤ) : ℤ :=
  max (now - min grace (2 ^ 63 - 1)) (-2 ^ 63)

/-- The objects that are not marked and were written before the cutoff. -/
def deadIds (marks : Marking.Table Id) (cutoff : ℤ) : List Id :=
  db.store.objects.entries.keys.filter fun id =>
    decide (id ∉ Marking.ids marks) && decide (db.writtenAt id < cutoff)

/-- The sweep, under the lock. -/
def sweepLocked (choose : List Id → List Id) (roots : List Id)
    (now grace : ℤ) : Option (Database Id) := do
  let roots := roots ++ db.liveTipRoots ++ db.pinnedRoots (now / 1000)
  let marks ← db.buildMark choose roots
  let dead := db.deadIds marks (sweepCutoff now grace)
  let objects ← deleteDead choose dead.length db.store.objects dead
  some { db with store := db.store.withObjects objects }

inductive SweepOutcome (Id : Type) [Digest Id] where
  | refused (undistilled : ℕ)
  | swept (db : Database Id)
  /-- A loop has not ended. -/
  | running

/-- The database after a sweep, or as it was where none ran. -/
def SweepOutcome.getD (outcome : SweepOutcome Id) (db : Database Id) :
    Database Id :=
  match outcome with
  | .swept after => after
  | _ => db

theorem SweepOutcome.eq_swept_getD {outcome : SweepOutcome Id}
    {db : Database Id} (h : ∃ after, outcome = .swept after) :
    outcome = .swept (outcome.getD db) := by
  obtain ⟨after, rfl⟩ := h
  rfl

/-- A mutating sweep under a retention policy. -/
def gcSweep (policy : RetentionPolicy) (choose : List Id → List Id)
    (now grace : ℤ) : SweepOutcome Id :=
  let keep := db.keepRoots policy (now / 1000)
  if 0 < db.undistilled then .refused db.undistilled
  else
    match db.sweepLocked choose keep now grace with
    | some swept => .swept swept
    | none => .running

/-! ## What a sweep keeps -/

/-- The classes of roots that a sweep keeps. -/
inductive KeepRoot (policy : RetentionPolicy) (now : ℤ) : Id → Prop where
  | tip {ns name : String} {target root : Id}
      (ref : db.store.refAt ns name = some target)
      (found : db.store.rootOf target = some root) : KeepRoot policy now root
  | sealedCommit {epoch : Epoch Id} {commit root : Id}
      (listed : epoch ∈ db.store.epochs)
      (closed : epoch.status = .sealed ∨ epoch.status = .archived)
      (covered : commit ∈ epoch.sealedCommits)
      (found : db.store.rootOf commit = some root) : KeepRoot policy now root
  | forkPoint {ns name : String} {head main base root : Id}
      (namespace_ : ns ∈ db.store.namespaces)
      (branch : db.store.refAt ns name = some head) (other : name ≠ "main")
      (mainRef : db.store.refAt ns "main" = some main)
      (fork : findCommonAncestor db.store.commits head main = some base)
      (found : db.store.rootOf base = some root) : KeepRoot policy now root
  | pin {p : PendingRoot Id} (pinned : p ∈ db.pendingRoots)
      (unexpired : now - GC_PIN_MAX_AGE ≤ p.updatedAt) :
      KeepRoot policy now p.root
  | milestone {root : Id} (kept : policy.keepMilestones = true)
      (recorded : some root ∈ db.milestones) : KeepRoot policy now root
  | selected {i : ℕ} {root : Id}
      (row : (db.commitRows.filterMap db.store.rootOf)[i]? = some root)
      (chosen : i < policy.keepRecent ∨
        0 < policy.checkpointEvery ∧ i % policy.checkpointEvery = 0) :
      KeepRoot policy now root

variable {root : Id} {now : ℤ} {policy : RetentionPolicy} {limit : ℕ}

theorem mem_liveTipRoots_iff :
    root ∈ db.liveTipRoots ↔ ∃ ns name target,
      db.store.refAt ns name = some target ∧
        db.store.rootOf target = some root := by
  simp only [liveTipRoots, List.mem_filterMap, Storage.refAt]
  constructor
  · rintro ⟨⟨key, target⟩, hmem, hroot⟩
    exact ⟨(ofLex key).1, (ofLex key).2, target,
      Std.ExtTreeMap.mem_toList_iff_getElem?_eq_some.mp hmem, hroot⟩
  · rintro ⟨ns, name, target, href, hroot⟩
    exact ⟨(toLex (ns, name), target),
      Std.ExtTreeMap.mem_toList_iff_getElem?_eq_some.mpr href, hroot⟩

theorem startsWith_empty (name : String) :
    startsWith name "" = true := by
  simp [startsWith]

theorem mem_refs_iff {ns name : String} {target : Id} :
    (name, target) ∈ db.store.refsIn ns "" ↔
      db.store.refAt ns name = some target := by
  rw [Storage.mem_refsIn_iff]
  simp [startsWith_empty]

theorem mem_forkRoots_iff :
    root ∈ db.forkRoots ↔ ∃ ns name head main base,
      ns ∈ db.store.namespaces ∧ db.store.refAt ns name = some head ∧
      name ≠ "main" ∧ db.store.refAt ns "main" = some main ∧
      findCommonAncestor db.store.commits head main = some base ∧
      db.store.rootOf base = some root := by
  simp only [forkRoots, List.mem_flatMap]
  constructor
  · rintro ⟨ns, hns, hmem⟩
    cases hfind : (db.store.refsIn ns "").find? fun e => e.1 = "main" with
    | none => simp [hfind] at hmem
    | some main =>
        simp only [hfind, List.mem_filterMap] at hmem
        obtain ⟨⟨name, head⟩, href, hroot⟩ := hmem
        split at hroot
        · contradiction
        next hname =>
          obtain ⟨base, hbase, hfound⟩ := Option.bind_eq_some_iff.mp hroot
          have hmain : main.1 = "main" := by simpa using List.find?_some hfind
          have hin := List.mem_of_find?_eq_some hfind
          refine ⟨ns, name, head, main.2, base, hns,
            (db.mem_refs_iff).mp href, hname, ?_, hbase, hfound⟩
          rw [← hmain]
          exact (db.mem_refs_iff).mp hin
  · rintro ⟨ns, name, head, main, base, hns, href, hname, hmain, hbase, hfound⟩
    refine ⟨ns, hns, ?_⟩
    have hin := (db.mem_refs_iff).mpr hmain
    obtain ⟨m, hfind⟩ : ∃ m, (db.store.refsIn ns "").find?
        (fun e => e.1 = "main") = some m := by
      apply Option.isSome_iff_exists.mp
      rw [List.find?_isSome]
      exact ⟨_, hin, by simp⟩
    have hm : m.1 = "main" := by simpa using List.find?_some hfind
    have hmref : db.store.refAt ns "main" = some m.2 := by
      rw [← hm]
      exact (db.mem_refs_iff).mp (List.mem_of_find?_eq_some hfind)
    have hsame : m.2 = main := Option.some.inj (hmref.symm.trans hmain)
    simp only [hfind, List.mem_filterMap]
    refine ⟨(name, head), (db.mem_refs_iff).mpr href, ?_⟩
    rw [if_neg hname, hsame]
    exact Option.bind_eq_some_iff.mpr ⟨base, hbase, hfound⟩

theorem mem_sealedRoots_iff :
    root ∈ db.sealedRoots ↔ ∃ epoch ∈ db.store.epochs,
      (epoch.status = .sealed ∨ epoch.status = .archived) ∧
        ∃ commit ∈ epoch.sealedCommits,
          db.store.rootOf commit = some root := by
  simp only [sealedRoots, List.mem_flatMap, List.mem_filter,
    List.mem_filterMap, Bool.or_eq_true, decide_eq_true_eq, and_assoc]

theorem mem_pinnedRoots_iff :
    root ∈ db.pinnedRoots now ↔ ∃ p ∈ db.pendingRoots,
      now - GC_PIN_MAX_AGE ≤ p.updatedAt ∧ p.root = root := by
  simp only [pinnedRoots, List.mem_map, List.mem_filter, decide_eq_true_eq,
    and_assoc]

theorem mem_retainedRoots_iff :
    root ∈ db.retainedRoots ↔ some root ∈ db.milestones := by
  simp [retainedRoots]

theorem mem_selectedRoots_iff :
    root ∈ db.selectedRoots policy ↔ ∃ i,
      (db.commitRows.filterMap db.store.rootOf)[i]? = some root ∧
        (i < policy.keepRecent ∨
          0 < policy.checkpointEvery ∧ i % policy.checkpointEvery = 0) := by
  simp only [selectedRoots, List.mem_map, List.mem_filter, Bool.or_eq_true,
    Bool.and_eq_true, decide_eq_true_eq, List.mem_zipIdx_iff_getElem?]
  constructor
  · rintro ⟨⟨r, i⟩, ⟨hget, hchosen⟩, rfl⟩
    exact ⟨i, hget, hchosen⟩
  · rintro ⟨i, hget, hchosen⟩
    exact ⟨(root, i), ⟨hget, hchosen⟩, rfl⟩

/-- The roots a sweep marks from are those of the classes. -/
theorem mem_roots_iff :
    root ∈ db.keepRoots policy now ++ db.liveTipRoots ++ db.pinnedRoots now ↔
      db.KeepRoot policy now root := by
  simp only [keepRoots, List.mem_append, Std.ExtTreeSet.mem_toList,
    Std.ExtTreeSet.mem_ofList, List.contains_iff_mem, or_assoc]
  constructor
  · have htip : root ∈ db.liveTipRoots → db.KeepRoot policy now root := by
      intro h
      obtain ⟨ns, name, target, href, hroot⟩ := (db.mem_liveTipRoots_iff).mp h
      exact .tip href hroot
    have hpin : root ∈ db.pinnedRoots now → db.KeepRoot policy now root := by
      intro h
      obtain ⟨p, hp, hage, rfl⟩ := (db.mem_pinnedRoots_iff).mp h
      exact .pin hp hage
    rintro (h | h | h | h | h | h | h | h)
    · obtain ⟨ns, -, hmem⟩ := List.mem_flatMap.mp h
      obtain ⟨⟨name, target⟩, href, hroot⟩ := List.mem_filterMap.mp hmem
      exact .tip ((db.mem_refs_iff).mp href) hroot
    · obtain ⟨epoch, hepoch, hclosed, commit, hcommit, hroot⟩ :=
        (db.mem_sealedRoots_iff).mp h
      exact .sealedCommit hepoch hclosed hcommit hroot
    · obtain ⟨ns, name, head, main, base, hns, href, hname, hmain, hbase,
        hroot⟩ := (db.mem_forkRoots_iff).mp h
      exact .forkPoint hns href hname hmain hbase hroot
    · exact hpin h
    · split at h
      next hkeep => exact .milestone hkeep ((db.mem_retainedRoots_iff).mp h)
      next => contradiction
    · obtain ⟨i, hrow, hchosen⟩ := (db.mem_selectedRoots_iff).mp h
      exact .selected hrow hchosen
    · exact htip h
    · exact hpin h
  · intro h
    cases h with
    | tip ref found =>
        have hmem := (db.mem_liveTipRoots_iff).mpr ⟨_, _, _, ref, found⟩
        tauto
    | sealedCommit listed closed covered found =>
        have hmem := (db.mem_sealedRoots_iff).mpr
          ⟨_, listed, closed, _, covered, found⟩
        tauto
    | forkPoint hns branch other mainRef fork found =>
        have hmem := (db.mem_forkRoots_iff).mpr
          ⟨_, _, _, _, _, hns, branch, other, mainRef, fork, found⟩
        tauto
    | pin pinned unexpired =>
        have hmem := (db.mem_pinnedRoots_iff).mpr ⟨_, pinned, unexpired, rfl⟩
        tauto
    | milestone kept recorded =>
        have hmem : root ∈ if policy.keepMilestones = true
            then db.retainedRoots else [] := by
          rw [if_pos kept]
          exact (db.mem_retainedRoots_iff).mpr recorded
        tauto
    | selected row chosen =>
        have hmem := (db.mem_selectedRoots_iff).mpr ⟨_, row, chosen⟩
        tauto

/-! ## What a sweep deletes -/

theorem bulkInsertMarks_eq (rows : Marking.Table Id) (ids : List Id) :
    bulkInsertMarks rows ids = ids.foldl Marking.insertOrIgnore rows :=
  Marking.foldl_chunks (fun _ _ => rfl) GC_SQL_CHUNK ids rows

theorem bulkDelete_eq (objects : ObjectStore Id) (ids : List Id) :
    bulkDelete objects ids = ids.foldl AddressedMap.erase objects :=
  Marking.foldl_chunks (fun _ _ => rfl) GC_SQL_CHUNK ids objects

theorem drainMarks_eq (choose : List Id → List Id) (fuel : ℕ)
    (rows : Marking.Table Id) :
    db.drainMarks choose fuel rows =
      Marking.drain db.store.objects.children choose fuel rows := by
  induction fuel generalizing rows with
  | zero =>
      cases hchoice : choose (Marking.frontier rows) <;>
        simp only [drainMarks, Marking.drain, hchoice]
  | succ fuel ih =>
      rw [drainMarks, Marking.drain]
      cases choose (Marking.frontier rows) with
      | nil => rfl
      | cons x xs =>
          simp only [bulkInsertMarks_eq, bulkMarkExpanded,
            Marking.foldl_markExpanded_chunks]
          exact ih _

theorem buildMark_ends (sel : Marking.Selection Id limit) (roots : List Id) :
    ∃ marks, db.buildMark sel.choose roots = some marks ∧
      ∀ x, x ∈ Marking.ids marks ↔ ∃ r ∈ roots,
        (db.store.objects.get r).isSome = true ∧
          Worklist.Reaches db.store.objects.children r x := by
  have hmem : ∀ x, (db.store.objects.get x).isSome = true →
      x ∈ db.objectIds ∧ ∀ y ∈ db.store.objects.children x,
        y ∈ db.objectIds := by
    intro x hx
    obtain ⟨o, ho⟩ := Option.isSome_iff_exists.mp hx
    have hentry : (x, o) ∈ db.store.objects.entries.toList :=
      Std.ExtTreeMap.mem_toList_iff_getElem?_eq_some.mpr ho
    constructor
    · exact List.mem_flatMap.mpr ⟨_, hentry, List.mem_cons_self⟩
    · intro y hy
      rw [ObjectStore.children_of_get ho] at hy
      exact List.mem_flatMap.mpr ⟨_, hentry, List.mem_cons_of_mem _ hy⟩
  have hnext : ∀ x ∈ db.objectIds.toFinset,
      ∀ y ∈ db.store.objects.children x, y ∈ db.objectIds.toFinset := by
    intro x _ y hy
    rw [List.mem_toFinset]
    cases hget : db.store.objects.get x with
    | none => simp [ObjectStore.children, hget] at hy
    | some o => exact (hmem x (by rw [hget]; rfl)).2 y hy
  have hroots : ∀ r ∈ roots.filter fun r => (db.store.objects.get r).isSome,
      r ∈ db.objectIds.toFinset := by
    intro r hr
    rw [List.mem_toFinset]
    exact (hmem r (List.mem_filter.mp hr).2).1
  obtain ⟨marks, hrun, hids⟩ := Marking.mem_drain_iff hnext hroots sel
    (List.toFinset_card_le db.objectIds)
  refine ⟨marks, ?_, ?_⟩
  · rw [buildMark, drainMarks_eq]
    exact hrun
  · intro x
    rw [hids x]
    simp only [List.mem_filter, and_assoc]

theorem deleteDead_ends (sel : Marking.Selection Id limit) {fuel : ℕ}
    (objects : ObjectStore Id) {dead : List Id} (hfuel : dead.length ≤ fuel) :
    ∃ t, deleteDead sel.choose fuel objects dead = some t ∧
      ∀ id, t.get id = if id ∈ dead then none else objects.get id := by
  induction fuel generalizing objects dead with
  | zero =>
      have hnil : dead = [] := List.length_eq_zero_iff.mp (by omega)
      have hsel : sel.choose dead = [] := by
        rw [hnil]
        exact List.subset_nil.mp (sel.subset [])
      exact ⟨objects, by rw [deleteDead, hsel], fun id => by simp [hnil]⟩
  | succ fuel ih =>
      cases hsel : sel.choose dead with
      | nil =>
          have hnil : dead = [] := by
            by_contra hne
            exact sel.nonempty dead hne hsel
          exact ⟨objects, by rw [deleteDead, hsel], fun id => by simp [hnil]⟩
      | cons x xs =>
          have hx : x ∈ dead := sel.subset dead (by rw [hsel]; simp)
          have hlt : (dead.filter fun id => decide (id ∉ x :: xs)).length <
              dead.length :=
            List.length_filter_lt_length_iff_exists.mpr
              ⟨x, hx, by simp⟩
          obtain ⟨t, hrun, hget⟩ := ih (bulkDelete objects (x :: xs))
            (Nat.le_of_lt_succ (hlt.trans_le hfuel))
          refine ⟨t, by rw [deleteDead, hsel]; exact hrun, ?_⟩
          intro id
          rw [hget, bulkDelete_eq, AddressedMap.get_foldl_erase]
          by_cases hbatch : id ∈ x :: xs
          · have hdead : id ∈ dead := sel.subset dead (by rw [hsel]; exact hbatch)
            rw [if_pos hbatch, if_pos hdead]
            split <;> rfl
          · rw [if_neg hbatch]
            have hiff : (id ∈ dead.filter fun id => decide (id ∉ x :: xs)) ↔
                id ∈ dead := by
              rw [List.mem_filter]
              simp only [hbatch, not_false_eq_true, decide_true, and_true]
            rw [if_congr hiff rfl rfl]

theorem mem_deadIds_iff {marks : Marking.Table Id} {cutoff : ℤ} {id : Id} :
    id ∈ db.deadIds marks cutoff ↔
      (db.store.objects.get id).isSome = true ∧ id ∉ Marking.ids marks ∧
        db.writtenAt id < cutoff := by
  simp only [deadIds, List.mem_filter, Std.ExtTreeMap.mem_keys,
    Std.ExtTreeMap.mem_iff_isSome_getElem?, Bool.and_eq_true,
    decide_eq_true_eq, AddressedMap.get]

/-- An object is kept alive by a root. -/
def Live (policy : RetentionPolicy) (now : ℤ) (id : Id) : Prop :=
  ∃ root, db.KeepRoot policy now root ∧
    (db.store.objects.get root).isSome = true ∧
    Worklist.Reaches db.store.objects.children root id

/-- What a sweep leaves: everything but the objects is as before, an object
that is old and not kept alive is gone, and every other one is as before. -/
structure SweptFrom (policy : RetentionPolicy) (now grace : ℤ)
    (swept : Database Id) : Prop where
  eq : swept = { db with store := db.store.withObjects swept.store.objects }
  deleted : ∀ id, db.writtenAt id < sweepCutoff now grace →
    ¬ db.Live policy (now / 1000) id → swept.store.objects.get id = none
  kept : ∀ id, sweepCutoff now grace ≤ db.writtenAt id ∨
    db.Live policy (now / 1000) id →
      swept.store.objects.get id = db.store.objects.get id

theorem gcSweep_ends (policy : RetentionPolicy)
    (sel : Marking.Selection Id limit) (now grace : ℤ)
    (hdistilled : ¬ 0 < db.undistilled) :
    ∃ swept, db.gcSweep policy sel.choose now grace = .swept swept ∧
      db.SweptFrom policy now grace swept := by
  obtain ⟨marks, hmark, hids⟩ := db.buildMark_ends sel
    (db.keepRoots policy (now / 1000) ++ db.liveTipRoots ++
      db.pinnedRoots (now / 1000))
  obtain ⟨objects, hdelete, hget⟩ := deleteDead_ends sel
    db.store.objects (le_refl (db.deadIds marks (sweepCutoff now grace)).length)
  have hlive : ∀ id, id ∈ Marking.ids marks ↔
      db.Live policy (now / 1000) id := by
    intro id
    rw [hids id]
    simp only [db.mem_roots_iff]
    rfl
  have hsweep : db.sweepLocked sel.choose
      (db.keepRoots policy (now / 1000)) now grace =
      some { db with store := db.store.withObjects objects } := by
    simp only [sweepLocked, hmark, Option.bind_eq_bind, Option.bind_some,
      hdelete]
  refine ⟨{ db with store := db.store.withObjects objects }, ?_, rfl, ?_, ?_⟩
  · simp only [gcSweep, if_neg hdistilled, hsweep]
  · intro id hold hdead
    have hgone := hget id
    by_cases hstored : (db.store.objects.get id).isSome = true
    · have hmem : id ∈ db.deadIds marks (sweepCutoff now grace) :=
        (db.mem_deadIds_iff).mpr ⟨hstored, by rwa [hlive], hold⟩
      rwa [if_pos hmem] at hgone
    · rw [if_neg fun h => hstored ((db.mem_deadIds_iff).mp h).1] at hgone
      exact hgone.trans (by simpa using hstored)
  · intro id hkept
    have hstays := hget id
    rwa [if_neg] at hstays
    intro hmem
    obtain ⟨-, hdead, hold⟩ := (db.mem_deadIds_iff).mp hmem
    rw [hlive] at hdead
    rcases hkept with hrecent | hlive
    · omega
    · exact hdead hlive

theorem sweptFrom_of_gcSweep {sel : Marking.Selection Id limit} {grace : ℤ}
    {swept : Database Id}
    (h : db.gcSweep policy sel.choose now grace = .swept swept) :
    db.SweptFrom policy now grace swept := by
  by_cases hundistilled : 0 < db.undistilled
  · rw [gcSweep, if_pos hundistilled] at h
    cases h
  · obtain ⟨swept', hrun, hfrom⟩ := db.gcSweep_ends policy sel now grace
      hundistilled
    rw [h] at hrun
    cases hrun
    exact hfrom

/-- A sweep is refused while a commit is not distilled.  Otherwise it ends,
changes nothing but the objects, and deletes an object exactly when it was
written before the cutoff and no keep root reaches it. -/
theorem gcSweep_deletes_iff (policy : RetentionPolicy) {limit : ℕ}
    (sel : Marking.Selection Id limit) (now grace : ℤ) :
    if 0 < db.undistilled then
      db.gcSweep policy sel.choose now grace = .refused db.undistilled
    else
      ∃ objects : ObjectStore Id,
        db.gcSweep policy sel.choose now grace =
          .swept { db with store := db.store.withObjects objects } ∧
        ∀ id, objects.get id = none ↔
          (db.store.objects.get id = none ∨
            db.writtenAt id < sweepCutoff now grace ∧
              ¬ db.Live policy (now / 1000) id) := by
  split
  next hundistilled => rw [gcSweep, if_pos hundistilled]
  next hdistilled =>
    obtain ⟨swept, hrun, hfrom⟩ := db.gcSweep_ends policy sel now grace
      hdistilled
    refine ⟨swept.store.objects, by rw [hrun, ← hfrom.eq], ?_⟩
    intro id
    by_cases hdead : db.writtenAt id < sweepCutoff now grace ∧
        ¬ db.Live policy (now / 1000) id
    · rw [hfrom.deleted id hdead.1 hdead.2]
      exact ⟨fun _ => Or.inr hdead, fun _ => rfl⟩
    · have hkept : sweepCutoff now grace ≤ db.writtenAt id ∨
          db.Live policy (now / 1000) id := by
        by_cases hlive : db.Live policy (now / 1000) id
        · exact Or.inr hlive
        · exact Or.inl (not_lt.mp fun hold => hdead ⟨hold, hlive⟩)
      rw [hfrom.kept id hkept]
      exact ⟨Or.inl, fun h => h.resolve_right hdead⟩

/-! ## What is kept -/

theorem Live.child {id c : Id} {o : Object Id} (h : db.Live policy now id)
    (hget : db.store.objects.get id = some o) (hc : c ∈ o.childIds) :
    db.Live policy now c := by
  obtain ⟨root, hroot, hstored, hreach⟩ := h
  refine ⟨root, hroot, hstored, hreach.trans (.single ?_)⟩
  rwa [ObjectStore.children_of_get hget]

theorem Live.of_keepRoot (hroot : db.KeepRoot policy now root)
    (hstored : (db.store.objects.get root).isSome = true) :
    db.Live policy now root :=
  ⟨root, hroot, hstored, Worklist.Reaches.refl _ root⟩

theorem SweptFrom.objects_le {grace : ℤ} {swept : Database Id}
    (h : db.SweptFrom policy now grace swept) :
    swept.store.objects ≤ db.store.objects := by
  intro id o ho
  by_cases hdead : db.writtenAt id < sweepCutoff now grace ∧
      ¬ db.Live policy (now / 1000) id
  · have hnone := h.deleted id hdead.1 hdead.2
    rw [ho] at hnone
    cases hnone
  · have hkept : sweepCutoff now grace ≤ db.writtenAt id ∨
        db.Live policy (now / 1000) id := by
      by_cases hlive : db.Live policy (now / 1000) id
      · exact Or.inr hlive
      · exact Or.inl (not_lt.mp fun hold => hdead ⟨hold, hlive⟩)
    rw [← h.kept id hkept]
    exact ho

end Database

end AgentStateGraph
