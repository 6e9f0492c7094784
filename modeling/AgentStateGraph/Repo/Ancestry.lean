import AgentStateGraph.Repo.Storage

/-!
# Ancestry and the merge base

A commit is an ancestor of another when it is reached by following parents.
The walks of the repository visit each commit once, and the merge base of two
commits is the deepest of their common ancestors.
-/

namespace AgentStateGraph

open Worklist

variable {Id : Type} [Digest Id]

namespace CommitStore

/-- `a` is `b` or an ancestor of it. -/
def IsAncestor (commits : CommitStore Id) (a b : Id) : Prop :=
  Reaches commits.parents b a

theorem IsAncestor.refl (commits : CommitStore Id) (a : Id) :
    commits.IsAncestor a a :=
  Reaches.refl _ a

variable {commits : CommitStore Id} {a b : Id}

theorem IsAncestor.trans {c : Id} (hab : commits.IsAncestor a b)
    (hbc : commits.IsAncestor b c) : commits.IsAncestor a c :=
  Reaches.trans hbc hab

theorem IsAncestor.of_mem_parents (h : a ∈ commits.parents b) :
    commits.IsAncestor a b :=
  Reaches.single h

theorem IsAncestor.rank_le (h : commits.IsAncestor a b) :
    a = b ∨ Digest.rank a < Digest.rank b := by
  unfold IsAncestor at h
  induction h with
  | refl => exact Or.inl rfl
  | tail hstep hlast ih =>
      have hlt := rank_lt_of_mem_parents hlast
      rcases ih with rfl | hlt'
      · exact Or.inr hlt
      · exact Or.inr (hlt.trans hlt')

theorem IsAncestor.antisymm (hab : commits.IsAncestor a b)
    (hba : commits.IsAncestor b a) : a = b := by
  rcases hab.rank_le with rfl | hlt
  · rfl
  · rcases hba.rank_le with rfl | hlt'
    · rfl
    · omega

theorem IsAncestor.mono {s t : CommitStore Id} (hle : s ≤ t)
    (h : s.IsAncestor a b) : t.IsAncestor a b :=
  Reaches.mono (fun _ _ => mem_parents_of_le hle) h

/-! ## Walks -/

/-- How many pops a walk over the commit graph can make. -/
def walkFuel (commits : CommitStore Id) (roots : List Id) : ℕ :=
  roots.length +
    (commits.entries.toList.map fun e => e.2.parents.length).sum + 1

/-- `while let Some(id) = stack.pop()`: every commit reachable from `roots`,
following every parent. -/
def ancestry (commits : CommitStore Id) (roots : List Id) : List Id :=
  explore commits.parents (commits.walkFuel roots) roots.reverse []

/-- The commits a walk can meet. -/
def walkVertices (commits : CommitStore Id) (roots : List Id) : Finset Id :=
  roots.toFinset ∪ (commits.entries.toList.map Prod.fst).toFinset ∪
    (commits.entries.toList.flatMap fun e => e.2.parents).toFinset

theorem mem_toList_of_get {id : Id} {c : Commit Id}
    (h : commits.get id = some c) : (id, c) ∈ commits.entries.toList :=
  Std.ExtTreeMap.mem_toList_iff_getElem?_eq_some.mpr h

theorem parents_mem_walkVertices {roots : List Id} {id p : Id}
    (h : p ∈ commits.parents id) : p ∈ commits.walkVertices roots := by
  unfold parents at h
  split at h
  next c hc =>
    simp only [walkVertices, Finset.mem_union, List.mem_toFinset,
      List.mem_flatMap]
    exact Or.inr ⟨(id, c), mem_toList_of_get hc, h⟩
  next => simp at h

theorem sum_parents_le (commits : CommitStore Id) (vertices : Finset Id) :
    ∑ x ∈ vertices, (commits.parents x).length ≤
      (commits.entries.toList.map fun e => e.2.parents.length).sum := by
  have hparents : ∀ x, commits.parents x =
      (commits.get x).elim [] fun c => c.parents := by
    intro x
    unfold parents
    cases commits.get x <;> rfl
  simp only [hparents]
  exact AddressedMap.sum_length_le commits (fun c => c.parents) vertices

theorem exploreCost_walk_lt (commits : CommitStore Id) (roots : List Id) :
    exploreCost commits.parents (commits.walkVertices roots) [] roots.reverse <
      commits.walkFuel roots := by
  have hsum := sum_parents_le commits (commits.walkVertices roots)
  simp only [exploreCost, walkFuel, List.length_reverse, List.not_mem_nil,
    not_false_eq_true, Finset.filter_true]
  omega

theorem roots_mem_walkVertices (commits : CommitStore Id) (roots : List Id) :
    ∀ x ∈ roots.reverse, x ∈ commits.walkVertices roots := by
  intro x hx
  simp only [walkVertices, Finset.mem_union, List.mem_toFinset]
  exact Or.inl (Or.inl (List.mem_reverse.mp hx))

theorem mem_ancestry_iff (commits : CommitStore Id) (roots : List Id) (a : Id) :
    a ∈ commits.ancestry roots ↔ ∃ r ∈ roots, commits.IsAncestor a r := by
  have hnext : ∀ x ∈ commits.walkVertices roots, ∀ y ∈ commits.parents x,
      y ∈ commits.walkVertices roots :=
    fun x _ y hy => parents_mem_walkVertices hy
  unfold ancestry
  rw [mem_explore_iff hnext (roots_mem_walkVertices commits roots)
    (exploreCost_walk_lt commits roots)]
  simp [IsAncestor]

instance (commits : CommitStore Id) (a b : Id) :
    Decidable (commits.IsAncestor a b) :=
  decidable_of_iff (a ∈ commits.ancestry [b]) (by simp [mem_ancestry_iff])

end CommitStore

/-! ## The merge base -/

/-- The parents of every commit reachable from `roots`.  A commit the store
lacks is included with no parents of its own. -/
def loadAncestry (commits : CommitStore Id) (roots : List Id) :
    BTreeMap Id (List Id) :=
  KeyedMap.ofKeys (commits.ancestry roots) fun id => some (commits.parents id)

/-- Pops a walk over a loaded ancestry can make. -/
def ancestryFuel (parents : BTreeMap Id (List Id)) : ℕ :=
  (parents.toList.map fun e => e.2.length + 2).sum + 2

/-- Every commit reachable from `start` in `parents`, including `start`. -/
def reachableIn (parents : BTreeMap Id (List Id)) (start : Id) : List Id :=
  explore (fun id => parents[id]?.getD []) (ancestryFuel parents) [start] []

/-- One run of the post-order loop of `generations`: commits marked done take
one more than their deepest parent. -/
def generationLoop (parents : BTreeMap Id (List Id)) :
    ℕ → List (Id × Bool) → BTreeMap Id ℕ → List Id → BTreeMap Id ℕ × List Id
  | 0, _, generation, expanding => (generation, expanding)
  | _ + 1, [], generation, expanding => (generation, expanding)
  | fuel + 1, (id, childrenDone) :: stack, generation, expanding =>
      if id ∈ generation then
        generationLoop parents fuel stack generation expanding
      else
        let ps := parents[id]?.getD []
        if childrenDone then
          let g := ((ps.filterMap fun p => generation[p]?).map (· + 1)).max?.getD 0
          generationLoop parents fuel stack (generation.insert id g)
            (expanding.filter (· ≠ id))
        else if id ∈ expanding then
          generationLoop parents fuel stack generation expanding
        else
          let expanding := id :: expanding
          let waiting :=
            ps.filter fun p => decide (p ∉ generation) && decide (p ∉ expanding)
          generationLoop parents fuel
            ((waiting.map fun p => (p, false)).reverse ++ (id, true) :: stack)
            generation expanding

/-- The generation of every commit: the length of the longest path back to a
root. -/
def generations (parents : BTreeMap Id (List Id)) : BTreeMap Id ℕ :=
  (parents.keys.foldl
    (fun acc root =>
      if root ∈ acc.1 then acc
      else
        generationLoop parents (2 * ancestryFuel parents) [(root, false)] acc.1
          acc.2)
    (∅, [])).1

/-- Among the common ancestors, the one with the greatest generation, ties
broken by the larger id. -/
def deepestCommonAncestor (parents : BTreeMap Id (List Id)) (a b : Id) :
    Option Id :=
  let generation := generations parents
  let common := (reachableIn parents a).filter (· ∈ reachableIn parents b)
  (common.map fun id => toLex (generation[id]?.getD 0, id)).max?.map
    fun best => (ofLex best).2

/-- The merge base of two commits; `none` for disjoint histories. -/
def findCommonAncestor (commits : CommitStore Id) (a b : Id) : Option Id :=
  if a = b then some a
  else deepestCommonAncestor (loadAncestry commits [a, b]) a b

end AgentStateGraph
