import AgentStateGraph.Core.ContentKey
import AgentStateGraph.Lib.BreadthFirst
import AgentStateGraph.Repo.Ancestry

/-!
# Listing the commits of a DAG

`listCommitsDag` walks every parent edge breadth first, up to a limit.  Its
commits are always right: distinct, stored, reachable, and for a smaller limit
the first ones of those for a larger.  Its `truncated` flag says that something
was still queued at the limit.  What is queued may be a commit that was listed
before, or one that is not stored, so the flag is wrong when the limit is the
number of the commits and the queue is not empty after the last of them.
-/

namespace AgentStateGraph

open Worklist BreadthFirst

variable {Id : Type} [Digest Id]

/-- The outcome of a walk over the whole DAG. -/
structure CommitWalk (Id : Type) [Digest Id] where
  commits : List (Commit Id)
  truncated : Bool
deriving DecidableEq

namespace CommitStore

variable (commits : CommitStore Id) (from_ : Id)

def listCommitsDag (limit : ℕ) : CommitWalk Id :=
  let taken := BreadthFirst.walk commits.get (fun c => c.parents) limit
    (commits.walkFuel [from_]) [from_] [] []
  ⟨taken.1, taken.2⟩

/-- The commits that are stored and reachable. -/
def storedAncestry : Finset Id :=
  (commits.walkVertices [from_]).filter fun id =>
    commits.IsAncestor id from_ ∧ (commits.get id).isSome

/-- The commits in breadth-first order, each with what is queued after it. -/
def dagTrace : List (Commit Id × List Id) :=
  BreadthFirst.trace commits.get (fun c => c.parents)
    (commits.walkFuel [from_]) [from_] []

/-- What is queued when the last commit was listed. -/
def queuedAfterLast : List Id :=
  BreadthFirst.left [from_] (commits.dagTrace from_)
    (commits.dagTrace from_).length

/-! ## The walk and its trace -/

theorem successors_eq_parents :
    BreadthFirst.successors commits.get (fun c => c.parents) =
      commits.parents := by
  funext id
  unfold BreadthFirst.successors CommitStore.parents
  cases commits.get id <;> rfl

theorem successors_mem_walkVertices (x y : Id)
    (h : y ∈ BreadthFirst.successors commits.get (fun c => c.parents) x) :
    y ∈ commits.walkVertices [from_] := by
  rw [successors_eq_parents] at h
  exact parents_mem_walkVertices h

theorem from_mem_walkVertices :
    ∀ x ∈ [from_], x ∈ commits.walkVertices [from_] := by
  intro x hx
  simp only [walkVertices, Finset.mem_union, List.mem_toFinset]
  exact Or.inl (Or.inl hx)

theorem cost_lt_walkFuel :
    BreadthFirst.cost commits.get (fun c => c.parents)
      (commits.walkVertices [from_]) [] [from_] < commits.walkFuel [from_] := by
  have hsum := sum_parents_le commits (commits.walkVertices [from_])
  simp only [BreadthFirst.cost, successors_eq_parents, exploreCost, walkFuel,
    List.length_singleton, List.not_mem_nil, not_false_eq_true,
    Finset.filter_true]
  omega

theorem listCommitsDag_eq (limit : ℕ) :
    commits.listCommitsDag from_ limit =
      ⟨((commits.dagTrace from_).map Prod.fst).take limit,
        decide (BreadthFirst.left [from_] (commits.dagTrace from_) limit ≠
          [])⟩ := by
  have hwalk := @BreadthFirst.walk_eq_trace Id (Commit Id) _ commits.get
    (fun c => c.parents) (commits.walkVertices [from_])
    (fun x _ y hy => commits.successors_mem_walkVertices from_ x y hy)
    limit (commits.walkFuel [from_]) [from_] [] []
    (commits.from_mem_walkVertices from_) (commits.cost_lt_walkFuel from_)
    (Nat.zero_le limit)
  unfold listCommitsDag dagTrace
  rw [hwalk]
  simp

/-! ## What the order holds -/

/-- The order holds stored commits that are reachable. -/
theorem ancestor_of_mem_dagTrace {e : Commit Id × List Id}
    (h : e ∈ commits.dagTrace from_) :
    commits.get e.1.id = some e.1 ∧ commits.IsAncestor e.1.id from_ := by
  obtain ⟨x, hx, -, q, hq, hreach⟩ := found_of_mem_trace h
  have hid : e.1.id = x := AddressedMap.address_eq hx
  rw [successors_eq_parents, List.mem_singleton.mp hq] at hreach
  rw [hid]
  exact ⟨hx, hreach⟩

/-- The order holds all of them. -/
theorem mem_dagTrace_of_ancestor {c : Commit Id}
    (hget : commits.get c.id = some c) (h : commits.IsAncestor c.id from_) :
    c ∈ (commits.dagTrace from_).map Prod.fst := by
  have hreach : Reaches (BreadthFirst.successors commits.get fun c => c.parents)
      from_ c.id := by
    rw [successors_eq_parents]
    exact h
  have hmem := mem_trace_of_reaches
    (fun x _ y hy => commits.successors_mem_walkVertices from_ x y hy)
    (commits.from_mem_walkVertices from_) (commits.cost_lt_walkFuel from_)
    (by simp) (Or.inr (List.mem_singleton_self from_)) hreach hget
  exact hmem.resolve_left List.not_mem_nil

theorem nodup_dagTrace :
    ((commits.dagTrace from_).map fun e => e.1.id).Nodup :=
  nodup_trace (fun _ _ h => AddressedMap.address_eq h) _ _ _

theorem mem_storedAncestry_iff {id : Id} :
    id ∈ commits.storedAncestry from_ ↔
      ∃ c, commits.get id = some c ∧ commits.IsAncestor id from_ := by
  have hvertex : commits.IsAncestor id from_ →
      id ∈ commits.walkVertices [from_] := by
    intro h
    rcases Relation.ReflTransGen.cases_tail h with rfl | ⟨x, -, hx⟩
    · exact commits.from_mem_walkVertices id id (List.mem_singleton_self id)
    · exact parents_mem_walkVertices hx
  simp only [storedAncestry, Finset.mem_filter, Option.isSome_iff_exists]
  constructor
  · rintro ⟨-, hanc, c, hc⟩
    exact ⟨c, hc, hanc⟩
  · rintro ⟨c, hc, hanc⟩
    exact ⟨hvertex hanc, hanc, c, hc⟩

theorem length_dagTrace :
    (commits.dagTrace from_).length = (commits.storedAncestry from_).card := by
  have hids : ((commits.dagTrace from_).map fun e => e.1.id).toFinset =
      commits.storedAncestry from_ := by
    ext id
    rw [List.mem_toFinset, List.mem_map, mem_storedAncestry_iff]
    constructor
    · rintro ⟨e, he, rfl⟩
      exact ⟨e.1, commits.ancestor_of_mem_dagTrace from_ he⟩
    · rintro ⟨c, hc, hanc⟩
      have hid : c.id = id := AddressedMap.address_eq hc
      rw [← hid] at hc hanc
      obtain ⟨e, he, hec⟩ := List.mem_map.mp
        (commits.mem_dagTrace_of_ancestor from_ hc hanc)
      exact ⟨e, he, by rw [hec, hid]⟩
  rw [← hids, List.toFinset_card_of_nodup (commits.nodup_dagTrace from_),
    List.length_map]

/-! ## The listing -/

theorem listCommitsDag_commits (limit : ℕ) :
    (commits.listCommitsDag from_ limit).commits =
      ((commits.dagTrace from_).map Prod.fst).take limit := by
  rw [listCommitsDag_eq]

theorem truncated_iff (limit : ℕ) :
    (commits.listCommitsDag from_ limit).truncated = true ↔
      BreadthFirst.left [from_] (commits.dagTrace from_) limit ≠ [] := by
  rw [listCommitsDag_eq]
  exact decide_eq_true_iff

theorem exists_not_listed_iff (limit : ℕ) :
    (∃ c, commits.get c.id = some c ∧ commits.IsAncestor c.id from_ ∧
        c ∉ (commits.listCommitsDag from_ limit).commits) ↔
      limit < (commits.storedAncestry from_).card := by
  rw [listCommitsDag_commits, ← length_dagTrace]
  constructor
  · rintro ⟨c, hget, hanc, hnot⟩
    by_contra hle
    refine hnot ?_
    rw [List.take_of_length_le (by rw [List.length_map]; omega)]
    exact commits.mem_dagTrace_of_ancestor from_ hget hanc
  · intro hlt
    have hmem := List.getElem_mem hlt
    obtain ⟨hget, hanc⟩ := commits.ancestor_of_mem_dagTrace from_ hmem
    refine ⟨_, hget, hanc, fun hin => ?_⟩
    obtain ⟨i, hi, hsame⟩ := List.mem_iff_getElem.mp hin
    rw [List.length_take, List.length_map] at hi
    rw [List.getElem_take, List.getElem_map] at hsame
    have hi' : i < ((commits.dagTrace from_).map fun e => e.1.id).length := by
      rw [List.length_map]
      omega
    have hlt' : limit <
        ((commits.dagTrace from_).map fun e => e.1.id).length := by
      rw [List.length_map]
      exact hlt
    have hindex := @List.nodup_iff_injective_get.mp
      (commits.nodup_dagTrace from_) ⟨i, hi'⟩ ⟨limit, hlt'⟩
      (by simp [hsame])
    have hval : i = limit := congrArg Fin.val hindex
    omega

theorem truncated_iff_not_listed (limit : ℕ) :
    ((commits.listCommitsDag from_ limit).truncated = true ↔
        ∃ c, commits.get c.id = some c ∧ commits.IsAncestor c.id from_ ∧
          c ∉ (commits.listCommitsDag from_ limit).commits) ↔
      (limit = (commits.storedAncestry from_).card →
        commits.queuedAfterLast from_ = []) := by
  rw [truncated_iff, exists_not_listed_iff, ← length_dagTrace]
  rcases Nat.lt_trichotomy limit (commits.dagTrace from_).length with
    hlt | heq | hgt
  · have hleft : BreadthFirst.left [from_] (commits.dagTrace from_) limit ≠ [] :=
      left_ne_nil hlt
    exact iff_of_true (iff_of_true hleft hlt) fun h => absurd h (by omega)
  · subst heq
    simp [queuedAfterLast]
  · have hleft : BreadthFirst.left [from_] (commits.dagTrace from_) limit = [] :=
      left_of_lt hgt
    exact iff_of_true (iff_of_false (by simp [hleft]) (by omega))
      fun h => absurd h (by omega)

/-- The commits of a listing are always right, and its flag is right unless the
limit is the number of commits and something is queued after the last. -/
theorem listCommitsDag_exact_iff (n : ℕ) :
    (((commits.listCommitsDag from_ n).commits.map fun c => c.id).Nodup ∧
      (∀ c ∈ (commits.listCommitsDag from_ n).commits,
        commits.get c.id = some c ∧ commits.IsAncestor c.id from_) ∧
      (∀ m, n ≤ m → (commits.listCommitsDag from_ n).commits <+:
        (commits.listCommitsDag from_ m).commits) ∧
      ((commits.listCommitsDag from_ n).truncated = true ↔
        ∃ c, commits.get c.id = some c ∧ commits.IsAncestor c.id from_ ∧
          c ∉ (commits.listCommitsDag from_ n).commits)) ↔
      (n = (commits.storedAncestry from_).card →
        commits.queuedAfterLast from_ = []) := by
  have hnodup :
      ((commits.listCommitsDag from_ n).commits.map fun c => c.id).Nodup := by
    rw [listCommitsDag_commits, List.map_take, List.map_map]
    exact (commits.nodup_dagTrace from_).sublist (List.take_sublist _ _)
  have hstored : ∀ c ∈ (commits.listCommitsDag from_ n).commits,
      commits.get c.id = some c ∧ commits.IsAncestor c.id from_ := by
    intro c hc
    rw [listCommitsDag_commits] at hc
    obtain ⟨e, he, rfl⟩ := List.mem_map.mp (List.mem_of_mem_take hc)
    exact commits.ancestor_of_mem_dagTrace from_ he
  have hmore : ∀ m, n ≤ m → (commits.listCommitsDag from_ n).commits <+:
      (commits.listCommitsDag from_ m).commits := by
    intro m hnm
    rw [listCommitsDag_commits, listCommitsDag_commits]
    exact List.take_prefix_take_left hnm
  rw [← truncated_iff_not_listed]
  exact ⟨fun h => h.2.2.2, fun h => ⟨hnodup, hstored, hmore, h⟩⟩

end CommitStore

/-! ## A diamond -/

namespace Diamond

open ContentKey

def base : Commit ContentKey := commitOf Object.emptyMap [] 0

def onLeft : Commit ContentKey := commitOf Object.emptyMap [base] 1

def onRight : Commit ContentKey := commitOf Object.emptyMap [base] 2

def merge : Commit ContentKey := commitOf Object.emptyMap [onLeft, onRight] 3

def commits : CommitStore ContentKey :=
  AddressedMap.empty.putAll [base, onLeft, onRight, merge]

end Diamond

open Diamond in
set_option maxRecDepth 16384 in
/-- Both branches queue the base, so a limit of four lists all four commits of
the diamond and says that there are more. -/
theorem listCommitsDag_truncated_at_diamond :
    commits.listCommitsDag merge.id 4 = ⟨[merge, onLeft, onRight, base], true⟩ ∧
      ¬ (∀ (n : ℕ), (commits.listCommitsDag merge.id n).truncated = true ↔
        ∃ c, commits.get c.id = some c ∧
          commits.IsAncestor c.id merge.id ∧
          c ∉ (commits.listCommitsDag merge.id n).commits) := by
  have hrun : commits.listCommitsDag merge.id 4 =
      ⟨[merge, onLeft, onRight, base], true⟩ := by decide
  refine ⟨hrun, fun h => ?_⟩
  obtain ⟨c, hget, -, hnot⟩ := (h 4).mp (by rw [hrun])
  rw [hrun] at hnot
  rcases AddressedMap.get_putAll hget with hempty | hmem
  · rw [AddressedMap.get_empty] at hempty
    contradiction
  · simp only [List.mem_cons, List.not_mem_nil, or_false] at hmem hnot
    tauto

end AgentStateGraph
