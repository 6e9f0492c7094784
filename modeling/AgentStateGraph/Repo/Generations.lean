import AgentStateGraph.Lib.FueledLoop
import AgentStateGraph.Lib.LongestPath
import AgentStateGraph.Repo.Ancestry

/-!
# The generations behind the merge base

The loops behind the merge base end on every parent map.  Where parents have
no cycles the post-order loop, started at a commit with only descendants being
expanded, ends with the generations of everything the commit reaches recorded:
each the length of the longest path back to a root.
-/

namespace AgentStateGraph

open Worklist FueledLoop LongestPath

variable {Id : Type} [Digest Id]

/-- The parents a loaded ancestry has for a commit. -/
def loadedParents (parents : BTreeMap Id (List Id)) (id : Id) : List Id :=
  parents[id]?.getD []

/-! ## One turn of the post-order loop -/

/-- The stack, the generations found and the commits being expanded. -/
abbrev GenerationState (Id : Type) [Digest Id] :=
  List (Id × Bool) × BTreeMap Id ℕ × List Id

/-- The parents that are neither found nor being expanded. -/
def waitingParents (parents : BTreeMap Id (List Id))
    (generation : BTreeMap Id ℕ) (expanding : List Id) (id : Id) : List Id :=
  (loadedParents parents id).filter fun p =>
    decide (p ∉ generation) && decide (p ∉ expanding)

def generationStep (parents : BTreeMap Id (List Id)) :
    GenerationState Id → Option (GenerationState Id)
  | ([], _, _) => none
  | ((id, childrenDone) :: stack, generation, expanding) =>
      if id ∈ generation then some (stack, generation, expanding)
      else if childrenDone then
        some (stack,
          generation.insert id
            (nextGeneration (generation[·]?) (loadedParents parents id)),
          expanding.filter (· ≠ id))
      else if id ∈ expanding then some (stack, generation, expanding)
      else
        some (((waitingParents parents generation (id :: expanding) id).map
            fun p => (p, false)).reverse ++ (id, true) :: stack,
          generation, id :: expanding)

section Step

variable {parents : BTreeMap Id (List Id)} {generation : BTreeMap Id ℕ}
  {expanding : List Id} {stack : List (Id × Bool)} {id : Id} {done : Bool}

theorem generationStep_found (h : id ∈ generation) :
    generationStep parents ((id, done) :: stack, generation, expanding) =
      some (stack, generation, expanding) := by
  rw [generationStep, if_pos h]

theorem generationStep_done (h : id ∉ generation) :
    generationStep parents ((id, true) :: stack, generation, expanding) =
      some (stack,
        generation.insert id
          (nextGeneration (generation[·]?) (loadedParents parents id)),
        expanding.filter (· ≠ id)) := by
  rw [generationStep, if_neg h, if_pos rfl]

theorem generationStep_expanding (h : id ∉ generation) (hexp : id ∈ expanding) :
    generationStep parents ((id, false) :: stack, generation, expanding) =
      some (stack, generation, expanding) := by
  rw [generationStep, if_neg h, if_neg (by simp), if_pos hexp]

theorem generationStep_fresh (h : id ∉ generation) (hexp : id ∉ expanding) :
    generationStep parents ((id, false) :: stack, generation, expanding) =
      some (((waitingParents parents generation (id :: expanding) id).map
          fun p => (p, false)).reverse ++ (id, true) :: stack,
        generation, id :: expanding) := by
  rw [generationStep, if_neg h, if_neg (by simp), if_neg hexp]

end Step

theorem generationLoop_eq_run (parents : BTreeMap Id (List Id)) (n : ℕ)
    (stack : List (Id × Bool)) (generation : BTreeMap Id ℕ)
    (expanding : List Id) :
    generationLoop parents n stack generation expanding =
      (run (generationStep parents) n (stack, generation, expanding)).2 := by
  induction n generalizing stack generation expanding with
  | zero => rfl
  | succ n ih =>
      rcases stack with _ | ⟨⟨id, done⟩, stack⟩
      · rfl
      · rw [generationLoop]
        by_cases hfound : id ∈ generation
        · rw [if_pos hfound, ih, run_some (generationStep_found hfound)]
        · rw [if_neg hfound]
          cases done with
          | true =>
              rw [if_pos rfl, ih, run_some (generationStep_done hfound)]
              rfl
          | false =>
              rw [if_neg (by simp)]
              by_cases hexp : id ∈ expanding
              · rw [if_pos hexp, ih,
                  run_some (generationStep_expanding hfound hexp)]
              · rw [if_neg hexp, ih,
                  run_some (generationStep_fresh hfound hexp)]
                rfl

/-! ## Ending -/

/-- The commits a walk over a loaded ancestry can meet. -/
def loadedVertices (parents : BTreeMap Id (List Id)) (start : Id) : Finset Id :=
  insert start (parents.keys.toFinset ∪
    (parents.toList.flatMap fun e => e.2).toFinset)

theorem loadedParents_mem_vertices {parents : BTreeMap Id (List Id)}
    {start id p : Id} (h : p ∈ loadedParents parents id) :
    p ∈ loadedVertices parents start := by
  unfold loadedParents at h
  cases hget : parents[id]? with
  | none => simp [hget] at h
  | some ps =>
      rw [hget, Option.getD_some] at h
      have hentry : (id, ps) ∈ parents.toList :=
        Std.ExtTreeMap.mem_toList_iff_getElem?_eq_some.mpr hget
      simp only [loadedVertices, Finset.mem_insert, Finset.mem_union,
        List.mem_toFinset, List.mem_flatMap]
      exact Or.inr (Or.inr ⟨(id, ps), hentry, h⟩)

/-- How many parents the loaded commits have together. -/
def loadedEdges (parents : BTreeMap Id (List Id)) : ℕ :=
  (parents.toList.map fun e => e.2.length).sum

theorem sum_loadedParents_le (parents : BTreeMap Id (List Id))
    (vertices : Finset Id) :
    ∑ x ∈ vertices, (loadedParents parents x).length ≤ loadedEdges parents := by
  have hsum := KeyedMap.sum_le_toList parents List.length vertices
  refine le_trans (Finset.sum_le_sum fun x _ => ?_) hsum
  unfold loadedParents
  cases parents[x]? <;> simp

theorem card_loadedVertices_le (parents : BTreeMap Id (List Id)) (start : Id) :
    (loadedVertices parents start).card ≤
      parents.toList.length + loadedEdges parents + 1 := by
  have hkeys := List.toFinset_card_le parents.keys
  have hedges := List.toFinset_card_le (parents.toList.flatMap fun e => e.2)
  rw [List.length_flatMap] at hedges
  rw [← Std.ExtTreeMap.map_fst_toList_eq_keys, List.length_map] at hkeys
  have hunion := Finset.card_union_le
    (parents.toList.map Prod.fst).toFinset
    (parents.toList.flatMap fun e => e.2).toFinset
  refine (Finset.card_insert_le _ _).trans ?_
  rw [← Std.ExtTreeMap.map_fst_toList_eq_keys]
  unfold loadedEdges
  omega

theorem ancestryFuel_eq (parents : BTreeMap Id (List Id)) :
    ancestryFuel parents =
      loadedEdges parents + 2 * parents.toList.length + 2 := by
  unfold ancestryFuel loadedEdges
  rw [List.sum_map_add]
  simp [Nat.mul_comm]

/-- The entries on the stack, and for each commit neither found nor being
expanded the entries its expansion will push. -/
def generationCost (parents : BTreeMap Id (List Id)) (vertices : Finset Id)
    (s : GenerationState Id) : ℕ :=
  s.1.length +
    ∑ x ∈ vertices.filter (fun x => x ∉ s.2.1 ∧ x ∉ s.2.2),
      ((loadedParents parents x).length + 1)

section Cost

variable {parents : BTreeMap Id (List Id)} {vertices : Finset Id}
  {generation : BTreeMap Id ℕ} {expanding : List Id} {stack : List (Id × Bool)}
  {id : Id} {done : Bool}

theorem generationCost_pop :
    generationCost parents vertices (stack, generation, expanding) <
      generationCost parents vertices
        ((id, done) :: stack, generation, expanding) := by
  simp only [generationCost, List.length_cons]
  omega

theorem generationCost_done (g : ℕ) :
    generationCost parents vertices
        (stack, generation.insert id g, expanding.filter (· ≠ id)) <
      generationCost parents vertices
        ((id, true) :: stack, generation, expanding) := by
  have hsub : vertices.filter (fun x => x ∉ generation.insert id g ∧
        x ∉ expanding.filter (· ≠ id)) ⊆
      vertices.filter fun x => x ∉ generation ∧ x ∉ expanding := by
    intro x hx
    obtain ⟨hx, hnew, hexp⟩ := Finset.mem_filter.mp hx
    have hne : x ≠ id := by
      rintro rfl
      simp at hnew
    refine Finset.mem_filter.mpr ⟨hx, ?_, ?_⟩
    · intro hmem
      exact hnew (by simp [hmem])
    · intro hmem
      exact hexp (List.mem_filter.mpr ⟨hmem, by simpa using hne⟩)
  have hle : ∑ x ∈ vertices.filter (fun x => x ∉ generation.insert id g ∧
        x ∉ expanding.filter (· ≠ id)),
          ((loadedParents parents x).length + 1) ≤
      ∑ x ∈ vertices.filter (fun x => x ∉ generation ∧ x ∉ expanding),
        ((loadedParents parents x).length + 1) :=
    Finset.sum_le_sum_of_subset hsub
  simp only [generationCost, List.length_cons]
  omega

theorem generationCost_fresh (hvertex : id ∈ vertices) (h : id ∉ generation)
    (hexp : id ∉ expanding) :
    generationCost parents vertices
        (((waitingParents parents generation (id :: expanding) id).map
            fun p => (p, false)).reverse ++ (id, true) :: stack,
          generation, id :: expanding) <
      generationCost parents vertices
        ((id, false) :: stack, generation, expanding) := by
  have hsplit : vertices.filter (fun x => x ∉ generation ∧ x ∉ expanding) =
      insert id (vertices.filter fun x =>
        x ∉ generation ∧ x ∉ id :: expanding) := by
    ext y
    simp only [Finset.mem_filter, Finset.mem_insert, List.mem_cons, not_or]
    by_cases hy : y = id
    · simp [hy, hvertex, h, hexp]
    · simp [hy]
  have hnot : id ∉ vertices.filter fun x =>
      x ∉ generation ∧ x ∉ id :: expanding := by
    simp
  have hwaiting : (waitingParents parents generation (id :: expanding)
      id).length ≤ (loadedParents parents id).length :=
    List.length_filter_le _ _
  simp only [generationCost, hsplit, Finset.sum_insert hnot, List.length_append,
    List.length_reverse, List.length_map, List.length_cons]
  omega

end Cost

theorem generationLoop_ends (parents : BTreeMap Id (List Id)) (root : Id)
    (generation : BTreeMap Id ℕ) (expanding : List Id) :
    Ends (generationStep parents) (2 * ancestryFuel parents)
      ([(root, false)], generation, expanding) := by
  refine @ends_of_cost _ _ _ _
    (fun s => ∀ e ∈ s.1, e.1 ∈ loadedVertices parents root)
    (generationCost parents (loadedVertices parents root)) ?_ ?_ ?_ ?_
  · rintro ⟨_ | ⟨⟨id, done⟩, stack⟩, generation, expanding⟩ s' hs hstep
    · simp [generationStep] at hstep
    · have hrest : ∀ e ∈ stack, e.1 ∈ loadedVertices parents root :=
        fun e he => hs e (List.mem_cons_of_mem _ he)
      by_cases hfound : id ∈ generation
      · rw [generationStep_found hfound] at hstep
        obtain rfl := Option.some.inj hstep
        exact hrest
      · cases done with
        | true =>
            rw [generationStep_done hfound] at hstep
            obtain rfl := Option.some.inj hstep
            exact hrest
        | false =>
            by_cases hexp : id ∈ expanding
            · rw [generationStep_expanding hfound hexp] at hstep
              obtain rfl := Option.some.inj hstep
              exact hrest
            · rw [generationStep_fresh hfound hexp] at hstep
              obtain rfl := Option.some.inj hstep
              intro e he
              rcases List.mem_append.mp he with he | he
              · obtain ⟨p, hp, rfl⟩ := List.mem_map.mp (List.mem_reverse.mp he)
                exact loadedParents_mem_vertices (List.mem_filter.mp hp).1
              · rcases List.mem_cons.mp he with rfl | he
                · exact hs (id, false) (by simp)
                · exact hrest e he
  · rintro ⟨_ | ⟨⟨id, done⟩, stack⟩, generation, expanding⟩ s' hs hstep
    · simp [generationStep] at hstep
    · by_cases hfound : id ∈ generation
      · rw [generationStep_found hfound] at hstep
        obtain rfl := Option.some.inj hstep
        exact generationCost_pop
      · cases done with
        | true =>
            rw [generationStep_done hfound] at hstep
            obtain rfl := Option.some.inj hstep
            exact generationCost_done _
        | false =>
            by_cases hexp : id ∈ expanding
            · rw [generationStep_expanding hfound hexp] at hstep
              obtain rfl := Option.some.inj hstep
              exact generationCost_pop
            · rw [generationStep_fresh hfound hexp] at hstep
              obtain rfl := Option.some.inj hstep
              exact generationCost_fresh (hs (id, false) (by simp)) hfound hexp
  · intro e he
    obtain rfl := List.mem_singleton.mp he
    exact Finset.mem_insert_self _ _
  · have hsum := sum_loadedParents_le parents (loadedVertices parents root)
    have hcard := card_loadedVertices_le parents root
    have hall : ∑ x ∈ (loadedVertices parents root).filter
          (fun x => x ∉ generation ∧ x ∉ expanding),
            ((loadedParents parents x).length + 1) ≤
        ∑ x ∈ loadedVertices parents root,
          ((loadedParents parents x).length + 1) :=
      Finset.sum_le_sum_of_subset (Finset.filter_subset _ _)
    have hsplit : ∑ x ∈ loadedVertices parents root,
          ((loadedParents parents x).length + 1) =
        ∑ x ∈ loadedVertices parents root, (loadedParents parents x).length +
          (loadedVertices parents root).card := by
      rw [Finset.sum_add_distrib, Finset.card_eq_sum_ones]
    rw [ancestryFuel_eq]
    simp only [generationCost, List.length_singleton]
    omega

theorem reachableIn_cost_lt (parents : BTreeMap Id (List Id)) (start : Id) :
    exploreCost (loadedParents parents) (loadedVertices parents start) []
      [start] < ancestryFuel parents := by
  have hsum := sum_loadedParents_le parents (loadedVertices parents start)
  rw [ancestryFuel_eq]
  simp only [exploreCost, List.length_singleton, List.not_mem_nil,
    not_false_eq_true, Finset.filter_true]
  omega

/-- So does the walk that collects what one of the two commits reaches. -/
theorem reachableIn_ends (parents : BTreeMap Id (List Id)) (start : Id) :
    Ends (exploreStep (loadedParents parents)) (ancestryFuel parents)
      ([start], []) :=
  explore_ends (fun _ _ _ hp => loadedParents_mem_vertices hp)
    (by simp [loadedVertices]) (reachableIn_cost_lt parents start).le

theorem mem_reachableIn_iff (parents : BTreeMap Id (List Id)) (start x : Id) :
    x ∈ reachableIn parents start ↔ Reaches (loadedParents parents) start x := by
  have hnext : ∀ y ∈ loadedVertices parents start,
      ∀ p ∈ loadedParents parents y, p ∈ loadedVertices parents start :=
    fun _ _ _ hp => loadedParents_mem_vertices hp
  have hstart : ∀ y ∈ [start], y ∈ loadedVertices parents start := by
    simp [loadedVertices]
  have hmem := mem_explore_iff hnext hstart (reachableIn_cost_lt parents start) x
  simp only [List.mem_singleton, exists_eq_left] at hmem
  exact hmem

/-! ## What the post-order loop records -/

/-- Everything recorded is the length of a longest path to a root. -/
def Recorded (parents : BTreeMap Id (List Id)) (generation : BTreeMap Id ℕ) :
    Prop :=
  ∀ x g, generation[x]? = some g → IsGeneration (loadedParents parents) x g

/-- Visiting `ids` records them, and beyond what was recorded only commits
below the bound. -/
structure Visited (parents : BTreeMap Id (List Id)) (rank : Id → ℕ)
    (bound : ℕ) (ids : List Id) (before after : BTreeMap Id ℕ) : Prop where
  recorded : Recorded parents after
  found : ∀ x ∈ ids, x ∈ after
  kept : ∀ x ∈ before, x ∈ after
  below : ∀ x ∈ after, x ∈ before ∨ rank x < bound

/-- From any commits below the bound on top of the stack, with nothing below
the bound being expanded, the loop comes to the rest of the stack with them
visited. -/
def CanVisit (parents : BTreeMap Id (List Id)) (rank : Id → ℕ) (bound : ℕ) :
    Prop :=
  ∀ ids stack generation expanding, Recorded parents generation →
    (∀ x ∈ ids, rank x < bound) → (∀ e ∈ expanding, bound ≤ rank e) →
    ∃ after,
      Leads (generationStep parents)
        ((ids.map fun x => (x, false)) ++ stack, generation, expanding)
        (stack, after, expanding) ∧
      Visited parents rank bound ids generation after

theorem Recorded.insert {parents : BTreeMap Id (List Id)}
    {generation : BTreeMap Id ℕ} {id : Id}
    (h : Recorded parents generation)
    (hparents : ∀ p ∈ loadedParents parents id, p ∈ generation) :
    Recorded parents (generation.insert id
      (nextGeneration (generation[·]?) (loadedParents parents id))) := by
  intro x g hx
  rw [Std.ExtTreeMap.getElem?_insert] at hx
  split at hx
  next heq =>
    obtain rfl := compare_eq_iff_eq.mp heq
    obtain rfl := Option.some.inj hx
    refine isGeneration_nextGeneration fun p hp => ?_
    obtain ⟨g, hg⟩ : ∃ g, generation[p]? = some g :=
      Option.isSome_iff_exists.mp
        (Std.ExtTreeMap.mem_iff_isSome_getElem?.mp (hparents p hp))
    exact ⟨g, hg, h p g hg⟩
  next => exact h x g hx

section Visit

variable {parents : BTreeMap Id (List Id)} {rank : Id → ℕ}

theorem CanVisit.commit (hrank : ∀ x, ∀ p ∈ loadedParents parents x,
      rank p < rank x) {id : Id} (hvisit : CanVisit parents rank (rank id))
    {stack : List (Id × Bool)} {generation : BTreeMap Id ℕ}
    {expanding : List Id} (hrec : Recorded parents generation)
    (hid : id ∉ generation) (hexp : ∀ e ∈ expanding, rank id < rank e) :
    ∃ after,
      Leads (generationStep parents)
        ((id, false) :: stack, generation, expanding)
        (stack, after, expanding) ∧
      Visited parents rank (rank id + 1) [id] generation after := by
  have hnot : id ∉ expanding := fun hmem => (hexp id hmem).false
  let waiting := waitingParents parents generation (id :: expanding) id
  obtain ⟨between, hleads, hbetween⟩ := hvisit waiting.reverse
    ((id, true) :: stack) generation (id :: expanding) hrec
    (by
      intro p hp
      exact hrank id p (List.mem_filter.mp (List.mem_reverse.mp hp)).1)
    (by
      intro e he
      rcases List.mem_cons.mp he with rfl | he
      · exact le_rfl
      · exact (hexp e he).le)
  have hparents : ∀ p ∈ loadedParents parents id, p ∈ between := by
    intro p hp
    by_cases hfound : p ∈ generation
    · exact hbetween.kept p hfound
    · -- A parent being expanded would rank above the commit.
      have hpexp : p ∉ id :: expanding := by
        intro hmem
        have hlt := hrank id p hp
        rcases List.mem_cons.mp hmem with rfl | hmem
        · exact hlt.false
        · exact (hlt.trans (hexp p hmem)).false
      refine hbetween.found p (List.mem_reverse.mpr
        (List.mem_filter.mpr ⟨hp, ?_⟩))
      simp only [hfound, hpexp, not_false_eq_true, decide_true, Bool.and_true]
  have hstill : id ∉ between := by
    intro hmem
    rcases hbetween.below id hmem with hmem | hlt
    · exact hid hmem
    · exact hlt.false
  have hdrop : (id :: expanding).filter (· ≠ id) = expanding := by
    rw [List.filter_cons_of_neg (by simp), List.filter_eq_self]
    intro e he
    have hne : e ≠ id := fun h => hnot (h ▸ he)
    simpa using hne
  refine ⟨between.insert id
    (nextGeneration (between[·]?) (loadedParents parents id)), ?_, ?_, ?_, ?_, ?_⟩
  · have hfresh : Leads (generationStep parents)
        ((id, false) :: stack, generation, expanding)
        ((waiting.map fun p => (p, false)).reverse ++ (id, true) :: stack,
          generation, id :: expanding) :=
      Leads.single (generationStep_fresh hid hnot)
    have hdone : Leads (generationStep parents)
        ((id, true) :: stack, between, id :: expanding)
        (stack,
          between.insert id
            (nextGeneration (between[·]?) (loadedParents parents id)),
          (id :: expanding).filter (· ≠ id)) :=
      Leads.single (generationStep_done hstill)
    rw [hdrop] at hdone
    rw [List.map_reverse] at hleads
    exact (hfresh.trans hleads).trans hdone
  · exact hbetween.recorded.insert hparents
  · intro x hx
    obtain rfl := List.mem_singleton.mp hx
    simp
  · intro x hx
    simp [hbetween.kept x hx]
  · intro x hx
    rcases Std.ExtTreeMap.mem_insert.mp hx with heq | hx
    · obtain rfl := compare_eq_iff_eq.mp heq
      exact Or.inr (Nat.lt_succ_self _)
    · exact (hbetween.below x hx).imp_right fun hlt => hlt.trans (by omega)

theorem canVisit (hrank : ∀ x, ∀ p ∈ loadedParents parents x,
    rank p < rank x) (bound : ℕ) : CanVisit parents rank bound := by
  induction bound using Nat.strong_induction_on with
  | _ bound ih =>
      intro ids stack generation expanding hrec hids hexp
      induction ids generalizing generation with
      | nil =>
          exact ⟨generation, Leads.refl _, hrec, by simp, fun _ hx => hx,
            fun _ hx => Or.inl hx⟩
      | cons id ids ihIds =>
          have hid : rank id < bound := hids id (by simp)
          have hrest : ∀ x ∈ ids, rank x < bound := fun x hx =>
            hids x (List.mem_cons_of_mem _ hx)
          by_cases hfound : id ∈ generation
          · obtain ⟨after, hleads, hafter⟩ := ihIds generation hrec hrest
            have hskip : Leads (generationStep parents)
                ((id, false) :: ((ids.map fun x => (x, false)) ++ stack),
                  generation, expanding)
                ((ids.map fun x => (x, false)) ++ stack, generation,
                  expanding) :=
              Leads.single (generationStep_found hfound)
            refine ⟨after, hskip.trans hleads, hafter.recorded, ?_,
              hafter.kept, hafter.below⟩
            intro x hx
            rcases List.mem_cons.mp hx with rfl | hx
            · exact hafter.kept x hfound
            · exact hafter.found x hx
          · have hbelow : ∀ e ∈ expanding, rank id < rank e := fun e he =>
              hid.trans_le (hexp e he)
            obtain ⟨between, hfirst, hbetween⟩ :=
              (ih (rank id) hid).commit hrank hrec hfound hbelow
            obtain ⟨after, hleads, hafter⟩ :=
              ihIds between hbetween.recorded hrest
            refine ⟨after, hfirst.trans hleads, hafter.recorded, ?_, ?_, ?_⟩
            · intro x hx
              rcases List.mem_cons.mp hx with rfl | hx
              · exact hafter.kept x (hbetween.found x (by simp))
              · exact hafter.found x hx
            · intro x hx
              exact hafter.kept x (hbetween.kept x hx)
            · intro x hx
              rcases hafter.below x hx with hx | hlt
              · exact (hbetween.below x hx).imp_right fun hlt => by omega
              · exact Or.inr hlt

/-! ## All generations -/

/-- The generations when the commits are gone through in this order. -/
def generationsIn (parents : BTreeMap Id (List Id)) (keys : List Id) :
    BTreeMap Id ℕ :=
  (keys.foldl
    (fun acc root =>
      if root ∈ acc.1 then acc
      else
        generationLoop parents (2 * ancestryFuel parents) [(root, false)] acc.1
          acc.2)
    (∅, [])).1

theorem generationLoop_visits (hrank : ∀ x, ∀ p ∈ loadedParents parents x,
      rank p < rank x) {generation : BTreeMap Id ℕ} (root : Id)
    (hrec : Recorded parents generation) :
    ∃ after, generationLoop parents (2 * ancestryFuel parents) [(root, false)]
        generation [] = (after, []) ∧
      Visited parents rank (rank root + 1) [root] generation after := by
  obtain ⟨after, hleads, hafter⟩ := canVisit hrank (rank root + 1) [root] []
    generation [] hrec (by simp) (by simp)
  have hrun := hleads.run_eq rfl
    (generationLoop_ends parents root generation [])
  refine ⟨after, ?_, hafter⟩
  rw [generationLoop_eq_run]
  exact congrArg Prod.snd hrun

theorem generationsIn_recorded (hrank : ∀ x, ∀ p ∈ loadedParents parents x,
      rank p < rank x) (keys : List Id) :
    Recorded parents (generationsIn parents keys) ∧
      ∀ x ∈ keys, x ∈ generationsIn parents keys := by
  suffices hfold : ∀ generation, Recorded parents generation →
      ∃ after, keys.foldl
          (fun acc root =>
            if root ∈ acc.1 then acc
            else
              generationLoop parents (2 * ancestryFuel parents) [(root, false)]
                acc.1 acc.2)
          (generation, []) = (after, []) ∧
        Recorded parents after ∧ (∀ x ∈ generation, x ∈ after) ∧
          ∀ x ∈ keys, x ∈ after by
    obtain ⟨after, heq, hrec, -, hkeys⟩ := hfold ∅ (by simp [Recorded])
    rw [generationsIn, heq]
    exact ⟨hrec, hkeys⟩
  induction keys with
  | nil =>
      intro generation hrec
      exact ⟨generation, rfl, hrec, fun _ hx => hx, by simp⟩
  | cons root keys ih =>
      intro generation hrec
      rw [List.foldl_cons]
      by_cases hfound : root ∈ generation
      · obtain ⟨after, heq, hafter, hkept, hkeys⟩ := ih generation hrec
        refine ⟨after, ?_, hafter, hkept, ?_⟩
        · rwa [if_pos hfound]
        · intro x hx
          rcases List.mem_cons.mp hx with rfl | hx
          · exact hkept x hfound
          · exact hkeys x hx
      · obtain ⟨between, hloop, hbetween⟩ :=
          generationLoop_visits hrank root hrec
        obtain ⟨after, heq, hafter, hkept, hkeys⟩ :=
          ih between hbetween.recorded
        refine ⟨after, ?_, hafter, fun x hx => hkept x (hbetween.kept x hx), ?_⟩
        · rwa [if_neg hfound, hloop]
        · intro x hx
          rcases List.mem_cons.mp hx with rfl | hx
          · exact hkept x (hbetween.found x (by simp))
          · exact hkeys x hx

end Visit

end AgentStateGraph
