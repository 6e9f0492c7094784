import AgentStateGraph.Lib.HeapLoop

/-!
# Ordering vertices after their predecessors

The loop of Kahn's algorithm with a heap of ready vertices: a vertex is ready
once none of its predecessors is still to come.  When no vertex comes before
itself, the order lists every vertex once, each after its predecessors, and
whatever key the heap goes by.
-/

namespace TopologicalOrder

open HeapLoop

variable {α κ : Type} [DecidableEq α] [LinearOrder κ]

/-- How many predecessors each vertex waits for, the ready vertices, and the
order so far. -/
structure State (α κ : Type) where
  waiting : α → ℕ
  ready : List κ
  order : List α

/-- A predecessor of `x` was put into the order. -/
def release (key : α → κ) (s : State α κ) (x : α) : State α κ :=
  let n := s.waiting x - 1
  { s with
    waiting := Function.update s.waiting x n
    ready := if n = 0 then key x :: s.ready else s.ready }

/-- The vertices that wait for `x`. -/
def successors (vertices : List α) (preds : α → List α) (x : α) : List α :=
  vertices.filter fun y => decide (x ∈ preds y)

/-- Put the first ready vertex into the order. -/
def step (vertices : List α) (preds : α → List α) (key : α → κ) (vertex : κ → α)
    (s : State α κ) : Option (State α κ) :=
  (pop s.ready).map fun (k, ready) =>
    (successors vertices preds (vertex k)).foldl (release key)
      { s with ready := ready, order := s.order ++ [vertex k] }

/-- Every vertex waits for its predecessors. -/
def start (vertices : List α) (preds : α → List α) (key : α → κ) : State α κ where
  waiting x := (preds x).length
  ready := (vertices.filter fun x => (preds x).length = 0).map key
  order := []

/-- The vertices, each after its predecessors. -/
def sort (vertices : List α) (preds : α → List α) (key : α → κ)
    (vertex : κ → α) : List α :=
  (run (step vertices preds key vertex) vertices.length
    (start vertices preds key)).order

/-! ## Releasing several vertices -/

omit [LinearOrder κ] in
theorem foldl_release (key : α → κ) {xs : List α} (hxs : xs.Nodup)
    (s : State α κ) :
    let t := xs.foldl (release key) s
    t.order = s.order ∧
      (∀ y, t.waiting y = if y ∈ xs then s.waiting y - 1 else s.waiting y) ∧
      t.ready = ((xs.filter fun y => s.waiting y - 1 = 0).map key).reverse ++
        s.ready := by
  induction xs generalizing s with
  | nil => simp
  | cons x xs ih =>
      rw [List.nodup_cons] at hxs
      obtain ⟨horder, hwaiting, hready⟩ := ih hxs.2 (release key s x)
      have hother : ∀ y ∈ xs, (release key s x).waiting y = s.waiting y := by
        intro y hy
        have hne : y ≠ x := fun heq => hxs.1 (heq ▸ hy)
        simp [release, hne]
      refine ⟨horder, ?_, ?_⟩
      · intro y
        rw [List.foldl_cons, hwaiting y]
        by_cases hyx : y = x
        · subst hyx
          simp [hxs.1, release]
        · simp [hyx, release]
      · have hfilter : (xs.filter fun y =>
            decide ((release key s x).waiting y - 1 = 0)) =
            xs.filter fun y => decide (s.waiting y - 1 = 0) := by
          refine List.filter_congr ?_
          intro y hy
          rw [hother y hy]
        rw [List.foldl_cons, hready, hfilter, List.filter_cons]
        by_cases hx : s.waiting x - 1 = 0
        · simp [release, hx]
        · simp [release, hx]

/-! ## The invariant -/

/-- What a round keeps. -/
structure Inv (vertices : List α) (preds : α → List α) (key : α → κ)
    (s : State α κ) : Prop where
  nodup : s.order.Nodup
  mem : ∀ x ∈ s.order, x ∈ vertices
  /-- A vertex waits for the predecessors that are not in the order. -/
  waiting : ∀ x ∈ vertices,
    s.waiting x = ((preds x).filter fun p => decide (p ∉ s.order)).length
  ready : ∀ k, k ∈ s.ready ↔
    ∃ x ∈ vertices, k = key x ∧ x ∉ s.order ∧ s.waiting x = 0
  ready_nodup : s.ready.Nodup
  after : ∀ l x r, s.order = l ++ x :: r → ∀ p ∈ preds x, p ∈ l

section Loop

variable {vertices : List α} {preds : α → List α} {key : α → κ} {vertex : κ → α}

omit [LinearOrder κ] in
theorem inv_start (hkey : Function.Injective key) (hnodup : vertices.Nodup) :
    Inv vertices preds key (start vertices preds key) where
  nodup := List.nodup_nil
  mem x hx := by simp [start] at hx
  waiting x _ := by simp [start]
  ready k := by
    simp only [start, List.mem_map, List.mem_filter, decide_eq_true_eq,
      List.not_mem_nil, not_false_eq_true, true_and]
    constructor
    · rintro ⟨x, ⟨hx, hlen⟩, rfl⟩
      exact ⟨x, hx, rfl, hlen⟩
    · rintro ⟨x, hx, rfl, hlen⟩
      exact ⟨x, ⟨hx, hlen⟩, rfl⟩
  ready_nodup := (hnodup.filter _).map hkey
  after l x r h := by simp [start] at h

omit [DecidableEq α] in
/-- Putting a vertex behind its predecessors keeps the order right. -/
theorem after_append {order : List α} {x : α}
    (hafter : ∀ l y r, order = l ++ y :: r → ∀ p ∈ preds y, p ∈ l)
    (hx : ∀ p ∈ preds x, p ∈ order) :
    ∀ l y r, order ++ [x] = l ++ y :: r → ∀ p ∈ preds y, p ∈ l := by
  intro l y r heq p hp
  rcases List.eq_nil_or_concat r with rfl | ⟨r, z, rfl⟩
  · obtain ⟨rfl, hlast⟩ := List.append_inj' heq rfl
    obtain rfl : x = y := by simpa using hlast
    exact hx p hp
  · rw [List.concat_eq_append, ← List.cons_append, ← List.append_assoc] at heq
    obtain ⟨hinit, -⟩ := List.append_inj' heq rfl
    exact hafter l y r hinit p hp

theorem length_filter_succ {ps order : List α} (hps : ps.Nodup) {x : α}
    (hx : x ∈ ps) (hnot : x ∉ order) :
    (ps.filter fun p => decide (p ∉ order)).length =
      (ps.filter fun p => decide (p ∉ order ++ [x])).length + 1 := by
  have hsplit : (ps.filter fun p => decide (p ∉ order ++ [x])) =
      (ps.filter fun p => decide (p ∉ order)).erase x := by
    rw [(hps.filter _).erase_eq_filter, List.filter_filter]
    refine List.filter_congr ?_
    intro p _
    by_cases hpx : p = x
    · simp [hpx]
    · simp [hpx]
  have hmem : x ∈ ps.filter fun p => decide (p ∉ order) := by
    simp [hx, hnot]
  rw [hsplit, List.length_erase_of_mem hmem]
  have := List.length_pos_of_mem hmem
  omega

variable (hkey : Function.Injective key) (hvertex : ∀ x, vertex (key x) = x)
  (hnodup : vertices.Nodup) (hpreds : ∀ x, (preds x).Nodup)
include hkey hvertex hnodup hpreds

theorem inv_step {s t : State α κ} (hs : Inv vertices preds key s)
    (h : step vertices preds key vertex s = some t) :
    Inv vertices preds key t ∧ t.order.length = s.order.length + 1 := by
  obtain ⟨⟨k, rest⟩, hpop, rfl⟩ := Option.map_eq_some_iff.mp h
  obtain ⟨hk, rfl⟩ := pop_eq_some hpop
  obtain ⟨x, hx, rfl, hfresh, hzero⟩ := (hs.ready k).mp hk
  simp only [hvertex, remove]
  have hdone : ∀ p ∈ preds x, p ∈ s.order := by
    have hnil := List.length_eq_zero_iff.mp ((hs.waiting x hx).symm.trans hzero)
    intro p hp
    have := List.filter_eq_nil_iff.mp hnil p hp
    simpa using this
  have hself : x ∉ preds x := fun hmem => hfresh (hdone x hmem)
  have hsuccs : (successors vertices preds x).Nodup := hnodup.filter _
  obtain ⟨horder, hwaiting, hready⟩ := foldl_release key hsuccs
    { s with ready := s.ready.erase (key x), order := s.order ++ [x] }
  simp only at horder hwaiting hready
  -- What each vertex waits for after the round.
  have hcount : ∀ y ∈ vertices, (if y ∈ successors vertices preds x then
        s.waiting y - 1 else s.waiting y) =
      ((preds y).filter fun p => decide (p ∉ s.order ++ [x])).length := by
    intro y hy
    have hold := hs.waiting y hy
    by_cases hxy : x ∈ preds y
    · rw [if_pos (by simp [successors, hy, hxy]), hold,
        length_filter_succ (hpreds y) hxy hfresh]
      omega
    · rw [if_neg (by simp [successors, hxy]), hold]
      congr 1
      refine List.filter_congr ?_
      intro p hp
      have hne : p ≠ x := fun heq => hxy (heq ▸ hp)
      simp [hne]
  have hpositive : ∀ y ∈ vertices, x ∈ preds y → 0 < s.waiting y := by
    intro y hy hxy
    rw [hs.waiting y hy, length_filter_succ (hpreds y) hxy hfresh]
    omega
  refine ⟨⟨?_, ?_, ?_, ?_, ?_, ?_⟩, ?_⟩
  · rw [horder]
    exact hs.nodup.append (by simp) (by simpa using hfresh)
  · rw [horder]
    intro y hy
    rcases List.mem_append.mp hy with hy | hy
    · exact hs.mem y hy
    · rw [List.mem_singleton.mp hy]
      exact hx
  · intro y hy
    rw [hwaiting y, horder, hcount y hy]
  · intro k
    rw [hready, List.mem_append, List.mem_reverse, List.mem_map,
      hs.ready_nodup.mem_erase_iff, hs.ready]
    constructor
    · rintro (⟨y, hy, rfl⟩ | ⟨hne, y, hy, rfl, hnot, hw⟩)
      · obtain ⟨hsucc, hlast⟩ := List.mem_filter.mp hy
        obtain ⟨hyv, hxy⟩ := List.mem_filter.mp hsucc
        have hxy : x ∈ preds y := of_decide_eq_true hxy
        have hyx : y ≠ x := fun heq => hself (heq ▸ hxy)
        have hnot : y ∉ s.order := by
          intro hmem
          obtain ⟨l, r, heq⟩ := List.append_of_mem hmem
          have hl := hs.after l y r heq x hxy
          exact hfresh (heq ▸ List.mem_append_left _ hl)
        refine ⟨y, hyv, rfl, ?_, ?_⟩
        · rw [horder]
          simp [hnot, hyx]
        · rw [hwaiting y]
          rw [if_pos hsucc]
          exact of_decide_eq_true hlast
      · have hyx : y ≠ x := fun heq => hne (by rw [heq])
        refine ⟨y, hy, rfl, ?_, ?_⟩
        · rw [horder]
          simp [hnot, hyx]
        · rw [hwaiting y]
          split
          · omega
          · exact hw
    · rintro ⟨y, hy, rfl, hnot, hw⟩
      rw [horder, List.mem_append, not_or, List.mem_singleton] at hnot
      rw [hwaiting y] at hw
      by_cases hxy : x ∈ preds y
      · have hsucc : y ∈ successors vertices preds x := by
          simp [successors, hy, hxy]
        rw [if_pos hsucc] at hw
        exact Or.inl ⟨y, List.mem_filter.mpr ⟨hsucc, by simpa using hw⟩, rfl⟩
      · rw [if_neg (by simp [successors, hxy])] at hw
        exact Or.inr ⟨fun heq => hnot.2 (hkey heq), y, hy, rfl, hnot.1, hw⟩
  · rw [hready]
    refine List.Nodup.append ?_ (hs.ready_nodup.erase _) ?_
    · rw [List.nodup_reverse]
      exact (hsuccs.filter _).map hkey
    · intro k hk hold
      obtain ⟨y, hy, rfl⟩ := List.mem_map.mp (List.mem_reverse.mp hk)
      obtain ⟨hsucc, -⟩ := List.mem_filter.mp hy
      obtain ⟨hyv, hxy⟩ := List.mem_filter.mp hsucc
      obtain ⟨z, -, heq, -, hw⟩ := (hs.ready _).mp (List.mem_of_mem_erase hold)
      have hpos := hpositive y hyv (of_decide_eq_true hxy)
      rw [hkey heq] at hpos
      omega
  · rw [horder]
    exact after_append hs.after hdone
  · rw [horder, List.length_append, List.length_singleton]

theorem sort_spec (hmem : ∀ x ∈ vertices, ∀ p ∈ preds x, p ∈ vertices)
    {rank : α → ℕ} (hrank : ∀ x ∈ vertices, ∀ p ∈ preds x, rank p < rank x) :
    (sort vertices preds key vertex).Nodup ∧
      (∀ x, x ∈ sort vertices preds key vertex ↔ x ∈ vertices) ∧
      ∀ l x r, sort vertices preds key vertex = l ++ x :: r →
        ∀ p ∈ preds x, p ∈ l := by
  have hstep : ∀ s t, Inv vertices preds key s →
      step vertices preds key vertex s = some t → Inv vertices preds key t :=
    fun s t hs h => (inv_step hkey hvertex hnodup hpreds hs h).1
  have hinv : Inv vertices preds key (run (step vertices preds key vertex)
      vertices.length (start vertices preds key)) :=
    run_invariant hstep _ (inv_start hkey hnodup)
  have hbound : ∀ s, Inv vertices preds key s →
      s.order.length ≤ vertices.length := by
    intro s hs
    exact (List.subperm_of_subset hs.nodup fun x hx => hs.mem x hx).length_le
  have hover := step_run_eq_none
    (fun s : State α κ => vertices.length - s.order.length) hstep
    (by
      intro s t hs h
      obtain ⟨ht, hlen⟩ := inv_step hkey hvertex hnodup hpreds hs h
      have := hbound t ht
      omega) (n := vertices.length) (inv_start hkey hnodup) (by simp)
  refine ⟨hinv.nodup, ?_, hinv.after⟩
  intro x
  refine ⟨hinv.mem x, ?_⟩
  -- A vertex of least rank outside the order would be ready.
  have hempty : (run (step vertices preds key vertex) vertices.length
      (start vertices preds key)).ready = [] :=
    pop_eq_none.mp (Option.map_eq_none_iff.mp hover)
  induction hn : rank x using Nat.strong_induction_on generalizing x with
  | _ n ih =>
      intro hx
      by_contra hnot
      have hpredsDone : ∀ p ∈ preds x, p ∈ sort vertices preds key vertex := by
        intro p hp
        exact ih (rank p) (hn ▸ hrank x hx p hp) p rfl (hmem x hx p hp)
      have hzero := hinv.waiting x hx
      have hnil : ((preds x).filter fun p => decide
          (p ∉ sort vertices preds key vertex)) = [] := by
        rw [List.filter_eq_nil_iff]
        intro p hp
        simpa using hpredsDone p hp
      have hready := (hinv.ready (key x)).mpr
        ⟨x, hx, rfl, hnot, hzero.trans (List.length_eq_zero_iff.mpr hnil)⟩
      rw [hempty] at hready
      simp at hready

end Loop

end TopologicalOrder
