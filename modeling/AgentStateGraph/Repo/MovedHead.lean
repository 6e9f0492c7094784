import AgentStateGraph.Core.MergeOverride
import AgentStateGraph.Repo.Speculation

/-!
# Speculations on a moved head

A speculation whose base ref has moved is merged onto the head.  What the head
left as it was is as the speculation has it, and what the speculation left as it
was is as the head has it, except below a place that both changed and that is
not merged key by key: there the speculation's tree is taken whole.
-/

namespace AgentStateGraph

variable {Id : Type} [Digest Id]

theorem speculationRoot_keeps {spec : Speculation Id} {store built : Storage Id}
    {root newRoot : Id}
    (h : speculationRoot spec store root = (.ok newRoot, built))
    (q : List PathComponent) :
    MergesTo (idAt built.objects spec.baseRoot q)
      (idAt built.objects spec.currentRoot q) (idAt built.objects root q)
      (idAt built.objects newRoot q)
      (Overridden built.objects (some spec.baseRoot) (some spec.currentRoot)
        (some root) q) := by
  have hmerged : ∀ {result : MergeResult Id} {created : List (Object Id)}
      {merged : Object Id},
      mergeTrees store.objects spec.baseRoot spec.currentRoot root
        spec.currentRoot = .ok (result, created) →
      result.rootId = merged.id →
      storeMerged store created merged = (.ok newRoot, built) →
      MergesTo (idAt built.objects spec.baseRoot q)
        (idAt built.objects spec.currentRoot q) (idAt built.objects root q)
        (idAt built.objects newRoot q)
        (Overridden built.objects (some spec.baseRoot) (some spec.currentRoot)
          (some root) q) := by
    intro result created merged hmerge hid hstored
    obtain ⟨rfl, rfl⟩ := storeMerged_eq_ok hstored
    rw [← hid]
    refine tryThreeWayMergeCollect_keeps (mergeTrees_eq_ok_iff.mp hmerge)
      (ObjectStore.le_putAll store.objects _) ?_ q
    intro o ho
    exact AddressedMap.get_putAll_of_mem Object.id_injective store.objects
      (List.mem_append_left _ ho)
  unfold speculationRoot at h
  split at h
  next hbase =>
    obtain ⟨rfl, rfl⟩ := landAsIs_eq_ok h
    rw [hbase]
    exact keeps_ours
  next hbase =>
    split at h
    next => simp at h
    next id created hmerge =>
      simp only [Prod.mk.injEq, Except.ok.injEq] at h
      obtain ⟨rfl, rfl⟩ := h
      have htry := mergeTrees_eq_ok_iff.mp hmerge
      refine tryThreeWayMergeCollect_keeps htry le_rfl ?_ q
      rw [created_of_fastForward htry]
      exact fun o ho => absurd ho List.not_mem_nil
    next merged created hmerge => exact hmerged hmerge rfl h
    next merged conflicts created hmerge => exact hmerged hmerge rfl h

/-- A speculation that is committed lands on the head of its base ref.  At every
path that the head left as it was at the fork, the new state is as the
speculation; at every path that the speculation left as it was, the new state
is as the head, unless a place above is in collision, and then as the
speculation. -/
theorem commitSpeculation_edits (repo : Repository) {store store' : Storage Id}
    {spec : Speculation Id} {options : CommitOptions} {now : ℕ → ℤ} {id : Id}
    (h : repo.commitSpeculation store spec options now = (.ok id, store')) :
    ∃ head isBranch root c,
      repo.headForWrite store spec.baseRef = .ok (head, isBranch) ∧
      store.rootOf head = some root ∧
      store'.getCommit id = some c ∧ c.parents = [head] ∧
      ∀ q,
        let view := store'.objects
        (idAt view root q = idAt view spec.baseRoot q →
          idAt view c.stateRoot q = idAt view spec.currentRoot q) ∧
        (idAt view spec.currentRoot q = idAt view spec.baseRoot q →
          (¬Overridden view (some spec.baseRoot) (some spec.currentRoot)
              (some root) q →
            idAt view c.stateRoot q = idAt view root q) ∧
          (Overridden view (some spec.baseRoot) (some spec.currentRoot)
              (some root) q →
            idAt view c.stateRoot q = idAt view spec.currentRoot q)) := by
  unfold Repository.commitSpeculation at h
  split at h
  next => simp at h
  next hcheck =>
    obtain ⟨head, isBranch, root, newRoot, built, hhead, hroot, hbuild, hid,
      hlands⟩ := repo.writeLoop_eq_ok (speculationRoot_onlyAdds spec) h
    refine ⟨head, isBranch, root, _, hhead, hroot, hid ▸ hlands.getCommit, rfl,
      ?_⟩
    intro q view
    have hview : view = built.objects := hlands.objects
    have hkeeps := speculationRoot_keeps hbuild q
    rw [hview, CommitBuilder.build_stateRoot]
    refine ⟨hkeeps.takesOurs, fun hsame => ?_⟩
    exact ⟨fun hnot => hkeeps.takesTheirs hnot hsame, hkeeps.overrides⟩

/-! ## An addition below a deletion -/

namespace BelowDeletion

open ContentKey

def value : Object ContentKey := Object.string "x"

def inner : Object ContentKey := mapOf [("k", value)]

/-- The head adds `l` beside `k`. -/
def added : Object ContentKey := mapOf [("k", value), ("l", value)]

def base : Object ContentKey := mapOf [("m", inner)]

def ahead : Object ContentKey := mapOf [("m", added)]

/-- The speculation deletes the map. -/
def cleared : Object ContentKey := Object.emptyMap

def start : Commit ContentKey := commitOf base [] 0

def moved : Commit ContentKey := commitOf ahead [start] 1

def store : Storage ContentKey :=
  { Storage.new with
    objects := AddressedMap.empty.putAll
      [value, inner, added, base, ahead, cleared]
    commits := AddressedMap.empty.putAll [start, moved] }.putRef "default"
      "main" moved.id

def spec : Speculation ContentKey := ⟨none, "main", base.id, cleared.id⟩

def committed : Outcome ContentKey ContentKey :=
  Repository.new.commitSpeculation store spec (options .refine) fun _ => 2

/-- The commit that the speculation becomes. -/
def landed : Commit ContentKey :=
  CommitBuilder.build cleared.id [moved.id] (options .refine) 2

set_option maxRecDepth 16384 in
theorem committed_fst : committed.1 = .ok landed.id := by decide

end BelowDeletion

open BelowDeletion in
set_option maxRecDepth 16384 in
/-- The speculation has nothing at the added path, like the base; the head has
a value there; and the new state has none. -/
theorem commitSpeculation_drops_addition :
    committed.1 = .ok landed.id ∧
      idAt committed.2.objects spec.currentRoot [.key "m", .key "l"] =
        idAt committed.2.objects spec.baseRoot [.key "m", .key "l"] ∧
      idAt committed.2.objects ahead.id [.key "m", .key "l"] = some value.id ∧
      idAt committed.2.objects landed.stateRoot [.key "m", .key "l"] = none := by
  refine ⟨committed_fst, ?_, ?_, ?_⟩ <;> decide

open BelowDeletion in
theorem commitSpeculation_edits_belowDeletion :
    ∃ head isBranch root c,
      Repository.new.headForWrite store spec.baseRef = .ok (head, isBranch) ∧
      store.rootOf head = some root ∧
      committed.2.getCommit landed.id = some c ∧ c.parents = [head] := by
  obtain ⟨head, isBranch, root, c, hhead, hroot, hc, hparents, -⟩ :=
    commitSpeculation_edits Repository.new (Outcome.eq_of_fst committed_fst)
  exact ⟨head, isBranch, root, c, hhead, hroot, hc, hparents⟩

end AgentStateGraph
