import AgentStateGraph.Core.ContentKey
import AgentStateGraph.Repo.Merging

/-!
# Merges and the history of the target

Whether a merge fast-forwards is decided by comparing state roots, not
commits.  A target whose commits cancel out has the root of the merge base,
and is then moved to the source although the source never saw those commits.
-/

namespace AgentStateGraph

variable {Id : Type} [Digest Id]

namespace Repository

variable (repo : Repository)

/-- The commit `target` pointed at before is the one it points at after, or an
ancestor of it. -/
def TargetKept (before after : Storage Id) (target : String) : Prop :=
  ∃ old new, repo.resolveRef before target = .ok old ∧
    repo.resolveRef after target = .ok new ∧ after.commits.IsAncestor old new

/-- The target's state differs from the merge base's and from the source's, or
the target is in the history of the source. -/
def MergeSeesTarget (store : Storage Id) (source target base : Id) : Prop :=
  (store.rootOf target ≠ store.rootOf base ∧
      store.rootOf target ≠ store.rootOf source) ∨
    store.commits.IsAncestor target source

theorem targetKept_iff {before after : Storage Id} {target : String}
    {old new : Id} (hold : repo.resolveRef before target = .ok old)
    (hnew : repo.resolveRef after target = .ok new) :
    repo.TargetKept before after target ↔
      after.commits.IsAncestor old new := by
  constructor
  · rintro ⟨old', new', hold', hnew', hanc⟩
    rw [hold] at hold'
    rw [hnew] at hnew'
    simp only [Except.ok.injEq] at hold' hnew'
    rwa [hold', hnew']
  · intro hanc
    exact ⟨old, new, hold, hnew, hanc⟩

/-- A merge that returns keeps the history of its target exactly when it sees
the target. -/
theorem mergeChecked_targetKept_iff {store store' : Storage Id}
    {source target : String} {options : CommitOptions} {allowDeletions : Bool}
    {now : ℕ → ℤ} {id : Id}
    (h : repo.mergeChecked store source target options allowDeletions now =
      (.ok id, store')) :
    ∃ sourceId targetId baseId,
      repo.resolveRef store source = .ok sourceId ∧
      repo.resolveRef store target = .ok targetId ∧
      findCommonAncestor store.commits sourceId targetId = some baseId ∧
      (repo.TargetKept store store' target ↔
        MergeSeesTarget store sourceId targetId baseId) := by
  obtain ⟨head, comp, hhead, hcomp, hmove⟩ := repo.mergeChecked_eq_ok h
  obtain ⟨baseId, baseRoot, hs, ht, hsroot, htroot, hbase, hbroot, htree⟩ :=
    repo.computeMerge_eq_ok hcomp
  refine ⟨comp.sourceCommitId, comp.targetCommitId, baseId, hs, ht, hbase, ?_⟩
  have hns := repo.headForWrite_namespace hhead
  simp only [MergeSeesTarget, hsroot, htroot, hbroot, ne_eq, Option.some.injEq]
  cases hmove with
  | merged stored c m hresult hadds _ hparents hroot hid hlands =>
      have hnew : repo.resolveRef store' target = .ok c.id := by
        apply repo.resolveRef_of_refAt
        · rwa [hlands.namespaces, hadds.namespaces]
        · simp [hlands.refAt]
      have hparent : comp.targetCommitId ∈ store'.commits.parents c.id := by
        rw [CommitStore.parents_of_get hlands.getCommit, hparents]
        simp
      have hdiff : ¬comp.targetStateRoot = baseRoot ∧
          ¬comp.targetStateRoot = comp.sourceStateRoot := by
        rcases tryThreeWayMergeCollect_eq_ok htree with
          ⟨-, hr⟩ | ⟨-, -, hr⟩ | ⟨-, -, -, hr⟩ | ⟨hbo, -, hot, -⟩
        · simp [hresult] at hr
        · simp [hresult] at hr
        · simp [hresult] at hr
        · exact ⟨Ne.symm hbo, hot⟩
      rw [repo.targetKept_iff ht hnew]
      exact iff_of_true (.of_mem_parents hparent) (Or.inl hdiff)
  | fastForward ffId hresult hid hmove =>
      subst hmove
      have hnew : repo.resolveRef
          (store.putRef repo.activeNamespace target id) target = .ok id :=
        repo.resolveRef_of_refAt hns (by simp)
      rw [repo.targetKept_iff ht hnew]
      simp only [Storage.putRef_commits]
      rcases tryThreeWayMergeCollect_eq_ok htree with
        ⟨hbo, hr⟩ | ⟨hbo, hbt, hr⟩ | ⟨hbo, hbt, hot, hr⟩ |
          ⟨-, -, -, bo, oo, th, -, -, -, -, -, hr⟩
      · -- the base has the target's root: the target moves to the source
        simp only [hresult, MergeResult.fastForward.injEq] at hr
        rw [hid, if_pos hr]
        simp [hbo]
      · -- only the target changed: it stays
        simp only [hresult, MergeResult.fastForward.injEq] at hr
        have hts : ¬comp.targetStateRoot = comp.sourceStateRoot := by
          rw [← hbt]
          exact Ne.symm hbo
        rw [hid, hr, if_neg hts]
        exact iff_of_true (CommitStore.IsAncestor.refl _ _)
          (Or.inl ⟨Ne.symm hbo, hts⟩)
      · -- equal states: the target moves to the source
        simp only [hresult, MergeResult.fastForward.injEq] at hr
        rw [hid, hr, if_pos hot]
        simp [hot]
      · rw [hresult] at hr
        split at hr <;> contradiction

end Repository

/-! ## Commits that cancel out -/

namespace NetZero

open ContentKey

def value : Object ContentKey := Object.string "x"

def blank : Object ContentKey := Object.emptyMap

def filled : Object ContentKey := mapOf [("a", value)]

def start : Commit ContentKey := commitOf blank [] 0

/-- The target adds a value and takes it back. -/
def added : Commit ContentKey := commitOf filled [start] 1

def removed : Commit ContentKey := commitOf blank [added] 2

/-- The source adds the same value on its own. -/
def feature : Commit ContentKey := commitOf filled [start] 3

def store : Storage ContentKey :=
  (({ Storage.new with
      objects := AddressedMap.empty.putAll [value, blank, filled]
      commits := AddressedMap.empty.putAll [start, added, removed, feature] } :
    Storage ContentKey).putRef "default" "main" removed.id).putRef "default"
      "feature" feature.id

def merged : Outcome ContentKey ContentKey :=
  Repository.new.mergeChecked store "feature" "main" (options .merge) true
    fun _ => 4

set_option maxRecDepth 16384 in
theorem merged_fst : merged.1 = .ok feature.id := by decide

end NetZero

set_option maxRecDepth 16384 in
/-- The merge of a source into a target whose commits cancel out returns, and
the target's commits are no longer in its history. -/
theorem mergeChecked_orphans_netZero :
    NetZero.merged.1 = .ok NetZero.feature.id ∧
      ¬Repository.new.TargetKept NetZero.store NetZero.merged.2 "main" := by
  refine ⟨NetZero.merged_fst, ?_⟩
  have hold : Repository.new.resolveRef NetZero.store "main" =
      .ok NetZero.removed.id := by decide
  have hnew : Repository.new.resolveRef NetZero.merged.2 "main" =
      .ok NetZero.feature.id := by decide
  rw [Repository.targetKept_iff _ hold hnew]
  decide

/-- The general statement on that merge. -/
theorem mergeChecked_targetKept_iff_netZero :
    ∃ sourceId targetId baseId,
      Repository.new.resolveRef NetZero.store "feature" = .ok sourceId ∧
      Repository.new.resolveRef NetZero.store "main" = .ok targetId ∧
      findCommonAncestor NetZero.store.commits sourceId targetId =
        some baseId ∧
      (Repository.new.TargetKept NetZero.store NetZero.merged.2 "main" ↔
        Repository.MergeSeesTarget NetZero.store sourceId targetId baseId) :=
  Repository.mergeChecked_targetKept_iff _
    (Outcome.eq_of_fst NetZero.merged_fst)

end AgentStateGraph
