import AgentStateGraph.Lib.HeapLoop
import AgentStateGraph.Lib.Worklist

/-!
# The levels of a graph, down to a last one

The loop `while let Some(x) = queue.pop_front()` that gives each vertex a level
when it first meets it, one more than that of the vertex it meets it from, and
does not go on from a vertex at the last level.  The levels are one more than
the shortest distances from the roots.
-/

namespace Levels

open Worklist (Reaches)

variable {α : Type} [DecidableEq α]

/-! ## The loop -/

structure Search (α : Type) where
  level : α → Option ℕ
  queue : List α
  /-- The vertices popped at the last level that have successors. -/
  edge : List α

def Search.empty : Search α := ⟨fun _ => none, [], []⟩

/-- Queue a vertex at a level, unless it has one. -/
def enter (n : ℕ) (s : Search α) (x : α) : Search α :=
  match s.level x with
  | some _ => s
  | none =>
      { s with
        level := Function.update s.level x (some n)
        queue := s.queue ++ [x] }

def start (roots : List α) : Search α := roots.foldl (enter 1) Search.empty

section Round

variable (next : α → List α) (last : ℕ)

/-- Go on from a vertex at a level. -/
def expand (s : Search α) (x : α) (n : ℕ) : Search α :=
  if n = last then
    if (next x).isEmpty then s else { s with edge := s.edge ++ [x] }
  else (next x).foldl (enter (n + 1)) s

/-- One round; every queued vertex has a level. -/
def round (s : Search α) : Option (Search α) :=
  match s.queue with
  | [] => none
  | x :: rest =>
      some (expand next last { s with queue := rest } x ((s.level x).getD 0))

/-- Where a vertex can be reached in so many steps. -/
def Steps (roots : List α) : ℕ → α → Prop
  | 0, x => x ∈ roots
  | k + 1, x => ∃ y, Steps roots k y ∧ x ∈ next y

end Round

/-! ## Entering vertices -/

/-- What entering some vertices at a level makes of a search. -/
structure Entered (m : ℕ) (ys : List α) (s t : Search α) (new : List α) :
    Prop where
  nodup : new.Nodup
  mem : ∀ y, y ∈ new ↔ s.level y = none ∧ y ∈ ys
  queue : t.queue = s.queue ++ new
  edge : t.edge = s.edge
  level : ∀ y, t.level y = if y ∈ new then some m else s.level y

theorem entered_foldl (m : ℕ) (ys : List α) (s : Search α) :
    ∃ new, Entered m ys s (ys.foldl (enter m) s) new := by
  induction ys generalizing s with
  | nil => exact ⟨[], by simp, by simp, by simp, rfl, by simp⟩
  | cons y ys ih =>
      rw [List.foldl_cons]
      cases hy : s.level y with
      | some n =>
          have henter : enter m s y = s := by rw [enter, hy]
          obtain ⟨new, h⟩ := ih s
          rw [henter]
          refine ⟨new, h.nodup, ?_, h.queue, h.edge, h.level⟩
          intro z
          rw [h.mem, List.mem_cons]
          constructor
          · rintro ⟨hz, hmem⟩
            exact ⟨hz, Or.inr hmem⟩
          · rintro ⟨hz, rfl | hmem⟩
            · rw [hy] at hz
              contradiction
            · exact ⟨hz, hmem⟩
      | none =>
          have henter : enter m s y = { s with
              level := Function.update s.level y (some m)
              queue := s.queue ++ [y] } := by rw [enter, hy]
          obtain ⟨new, h⟩ := ih (enter m s y)
          have hlevel : ∀ z, (enter m s y).level z =
              if z = y then some m else s.level z := by
            intro z
            rw [henter]
            exact Function.update_apply _ _ _ _
          have hynew : y ∉ new := by
            rw [h.mem, hlevel, if_pos rfl]
            rintro ⟨hsome, -⟩
            contradiction
          refine ⟨y :: new, List.nodup_cons.mpr ⟨hynew, h.nodup⟩, ?_, ?_, ?_,
            ?_⟩
          · intro z
            rw [List.mem_cons, List.mem_cons, h.mem, hlevel]
            by_cases hz : z = y
            · rw [hz]
              simp [hy]
            · simp [hz]
          · rw [h.queue, henter, List.append_assoc]
            rfl
          · rw [h.edge, henter]
          · intro z
            rw [h.level, hlevel]
            by_cases hz : z = y
            · simp [hz]
            · simp [hz]

/-! ## The invariant -/

section Search

variable {next : α → List α} {last : ℕ} {roots : List α} {s t : Search α}

/-- The vertices in the queue stand by their levels, which are within one of
each other; a vertex that was popped has passed its level on. -/
structure Inv (next : α → List α) (last : ℕ) (roots : List α)
    (s : Search α) : Prop where
  rooted : ∀ x ∈ roots, s.level x = some 1
  origin : ∀ x n, s.level x = some n → 1 ≤ n ∧ n ≤ last ∧
    (n = 1 ∧ x ∈ roots ∨ ∃ y k, n = k + 1 ∧ s.level y = some k ∧ x ∈ next y)
  queued : ∀ x ∈ s.queue, ∃ n, s.level x = some n
  nodup : s.queue.Nodup
  sorted : s.queue.Pairwise fun x y => ∀ m n, s.level x = some m →
    s.level y = some n → m ≤ n
  span : ∀ x ∈ s.queue, ∀ y m n, s.level x = some m → s.level y = some n →
    n ≤ m + 1
  done : ∀ x n, s.level x = some n → x ∉ s.queue → n ≠ last →
    ∀ y ∈ next x, ∃ k, s.level y = some k ∧ k ≤ n + 1
  edge : ∀ x, x ∈ s.edge ↔ s.level x = some last ∧ x ∉ s.queue ∧ next x ≠ []

theorem inv_start (hlast : 1 ≤ last) : Inv next last roots (start roots) := by
  obtain ⟨new, h⟩ := entered_foldl 1 roots (Search.empty : Search α)
  have hnew : ∀ x, x ∈ new ↔ x ∈ roots := by
    intro x
    rw [h.mem]
    exact and_iff_right rfl
  have hlevel : ∀ x n, (start roots).level x = some n ↔ x ∈ roots ∧ n = 1 := by
    intro x n
    rw [start, h.level, ← hnew]
    by_cases hx : x ∈ new
    · simp [hx, eq_comm]
    · simp [hx, Search.empty]
  have hqueue : (start roots).queue = new := h.queue
  refine ⟨?_, ?_, ?_, ?_, ?_, ?_, ?_, ?_⟩
  · intro x hx
    exact (hlevel x 1).mpr ⟨hx, rfl⟩
  · intro x n hn
    obtain ⟨hx, rfl⟩ := (hlevel x n).mp hn
    exact ⟨le_refl _, hlast, Or.inl ⟨rfl, hx⟩⟩
  · intro x hx
    rw [hqueue, hnew] at hx
    exact ⟨1, (hlevel x 1).mpr ⟨hx, rfl⟩⟩
  · rw [hqueue]
    exact h.nodup
  · apply List.pairwise_of_forall_mem_list
    intro x _ y _ m n hm hn
    rw [((hlevel x m).mp hm).2, ((hlevel y n).mp hn).2]
  · intro x _ y m n hm hn
    rw [((hlevel x m).mp hm).2, ((hlevel y n).mp hn).2]
    omega
  · intro x n hn hx
    rw [hqueue, hnew] at hx
    exact absurd ((hlevel x n).mp hn).1 hx
  · intro x
    have hedge : (start roots).edge = [] := h.edge
    rw [hedge, hqueue, hnew]
    constructor
    · intro hx
      simp at hx
    · rintro ⟨hx, hmem, -⟩
      exact absurd ((hlevel x last).mp hx).1 hmem

theorem Entered.level_of_level {m n : ℕ} {ys new : List α} {y : α}
    (h : Entered m ys s t new) (hy : s.level y = some n) :
    t.level y = some n := by
  have hnew : y ∉ new := by
    rw [h.mem, hy]
    rintro ⟨hnone, -⟩
    contradiction
  rw [h.level, if_neg hnew, hy]

variable {x : α} {vertices : Finset α}

theorem inv_last {rest : List α} (h : Inv next last roots s)
    (hqueue : s.queue = x :: rest) (hx : s.level x = some last) :
    Inv next last roots (expand next last { s with queue := rest } x last) := by
  have hnodup := h.nodup
  have hsorted := h.sorted
  rw [hqueue] at hnodup hsorted
  obtain ⟨hxrest, hnodup⟩ := List.nodup_cons.mp hnodup
  have hedge : ∀ z, z ∈ s.edge ↔
      s.level z = some last ∧ (z ≠ x ∧ z ∉ rest) ∧ next z ≠ [] := by
    intro z
    rw [h.edge, hqueue, List.mem_cons, not_or]
  have hkept : ∀ edge : List α,
      (∀ z, z ∈ edge ↔ s.level z = some last ∧ z ∉ rest ∧ next z ≠ []) →
      Inv next last roots ⟨s.level, rest, edge⟩ := by
    intro edge hedge
    refine ⟨h.rooted, h.origin, ?_, hnodup, hsorted.of_cons, ?_, ?_, hedge⟩
    · intro z hz
      exact h.queued z (hqueue ▸ List.mem_cons_of_mem _ hz)
    · intro z hz
      exact h.span z (hqueue ▸ List.mem_cons_of_mem _ hz)
    · intro z n hn hz hne
      refine h.done z n hn ?_ hne
      rw [hqueue, List.mem_cons, not_or]
      refine ⟨?_, hz⟩
      rintro rfl
      exact hne (Option.some.inj (hn.symm.trans hx))
  rw [expand, if_pos rfl]
  split
  next hempty =>
    refine hkept s.edge fun z => ?_
    rw [hedge]
    constructor
    · rintro ⟨hz, ⟨-, hrest⟩, hnext⟩
      exact ⟨hz, hrest, hnext⟩
    · rintro ⟨hz, hrest, hnext⟩
      refine ⟨hz, ⟨?_, hrest⟩, hnext⟩
      rintro rfl
      exact hnext (List.isEmpty_iff.mp hempty)
  next hempty =>
    refine hkept (s.edge ++ [x]) fun z => ?_
    rw [List.mem_append, hedge, List.mem_singleton]
    constructor
    · rintro (⟨hz, ⟨-, hrest⟩, hnext⟩ | rfl)
      · exact ⟨hz, hrest, hnext⟩
      · exact ⟨hx, hxrest, fun hnil => hempty (List.isEmpty_iff.mpr hnil)⟩
    · rintro ⟨hz, hrest, hnext⟩
      by_cases hzx : z = x
      · exact Or.inr hzx
      · exact Or.inl ⟨hz, ⟨hzx, hrest⟩, hnext⟩

theorem inv_expand {rest : List α} {n : ℕ} (h : Inv next last roots s)
    (hqueue : s.queue = x :: rest) (hx : s.level x = some n) (hn : n ≠ last) :
    Inv next last roots (expand next last { s with queue := rest } x n) := by
  rw [expand, if_neg hn]
  obtain ⟨new, he⟩ := entered_foldl (n + 1) (next x) { s with queue := rest }
  generalize (next x).foldl (enter (n + 1)) { s with queue := rest } = t at he
  have hnodup := h.nodup
  have hsorted := h.sorted
  rw [hqueue] at hnodup hsorted
  obtain ⟨hxrest, hnodup⟩ := List.nodup_cons.mp hnodup
  obtain ⟨hfront, hsorted⟩ := List.pairwise_cons.mp hsorted
  have hxmem : x ∈ s.queue := by
    rw [hqueue]
    exact List.mem_cons_self
  have hrestmem : ∀ z ∈ rest, z ∈ s.queue := by
    intro z hz
    rw [hqueue]
    exact List.mem_cons_of_mem _ hz
  have hnone : ∀ y ∈ new, s.level y = none := fun y hy => ((he.mem y).mp hy).1
  have hnew : ∀ y ∈ new, t.level y = some (n + 1) := by
    intro y hy
    rw [he.level, if_pos hy]
  have hkeep : ∀ y k, s.level y = some k → t.level y = some k :=
    fun y k hy => he.level_of_level hy
  have hold : ∀ y, y ∉ new → t.level y = s.level y := by
    intro y hy
    rw [he.level, if_neg hy]
  have hrestnew : ∀ z ∈ rest, z ∉ new := by
    intro z hz hzn
    obtain ⟨k, hk⟩ := h.queued z (hrestmem z hz)
    rw [hnone z hzn] at hk
    contradiction
  have hle : ∀ y k, t.level y = some k → k ≤ n + 1 := by
    intro y k hk
    by_cases hy : y ∈ new
    · rw [hnew y hy] at hk
      exact (Option.some.inj hk).ge
    · rw [hold y hy] at hk
      exact h.span x hxmem y n k hx hk
  have hge : ∀ z ∈ rest ++ new, ∀ m, t.level z = some m → n ≤ m := by
    intro z hz m hm
    rcases List.mem_append.mp hz with hz | hz
    · rw [hold z (hrestnew z hz)] at hm
      exact hfront z hz n m hx hm
    · rw [hnew z hz] at hm
      have := Option.some.inj hm
      omega
  refine ⟨?_, ?_, ?_, ?_, ?_, ?_, ?_, ?_⟩
  · intro y hy
    exact hkeep y 1 (h.rooted y hy)
  · intro y k hk
    by_cases hy : y ∈ new
    · have hkn : n + 1 = k := Option.some.inj ((hnew y hy).symm.trans hk)
      have hnlast := (h.origin x n hx).2.1
      refine ⟨by omega, by omega, Or.inr ⟨x, n, hkn.symm, hkeep x n hx, ?_⟩⟩
      exact ((he.mem y).mp hy).2
    · rw [hold y hy] at hk
      obtain ⟨hone, hlast, hroot | ⟨z, m, hkm, hz, hyz⟩⟩ := h.origin y k hk
      · exact ⟨hone, hlast, Or.inl hroot⟩
      · exact ⟨hone, hlast, Or.inr ⟨z, m, hkm, hkeep z m hz, hyz⟩⟩
  · intro z hz
    rw [he.queue] at hz
    rcases List.mem_append.mp hz with hz | hz
    · obtain ⟨k, hk⟩ := h.queued z (hrestmem z hz)
      exact ⟨k, hkeep z k hk⟩
    · exact ⟨n + 1, hnew z hz⟩
  · rw [he.queue]
    refine List.nodup_append.mpr ⟨hnodup, he.nodup, ?_⟩
    rintro z hz y hy rfl
    exact hrestnew z hz hy
  · rw [he.queue]
    refine List.pairwise_append.mpr ⟨?_, ?_, ?_⟩
    · refine hsorted.imp_of_mem fun {a b} ha hb hab j k hj hk => ?_
      rw [hold a (hrestnew a ha)] at hj
      rw [hold b (hrestnew b hb)] at hk
      exact hab j k hj hk
    · apply List.pairwise_of_forall_mem_list
      intro a ha b hb j k hj hk
      rw [hnew a ha] at hj
      rw [hnew b hb] at hk
      have := Option.some.inj hj
      have := Option.some.inj hk
      omega
    · intro a ha b hb j k hj hk
      rw [hnew b hb] at hk
      have := Option.some.inj hk
      have := hle a j hj
      omega
  · intro z hz y m k hm hk
    rw [he.queue] at hz
    have := hge z hz m hm
    have := hle y k hk
    omega
  · intro z k hk hz hne y hy
    rw [he.queue, List.mem_append, not_or] at hz
    rw [hold z hz.2] at hk
    by_cases hzx : z = x
    · rw [hzx] at hk hy
      obtain rfl : n = k := Option.some.inj (hx.symm.trans hk)
      by_cases hyn : y ∈ new
      · exact ⟨n + 1, hnew y hyn, le_refl _⟩
      · cases hlevel : s.level y with
        | none => exact absurd ((he.mem y).mpr ⟨hlevel, hy⟩) hyn
        | some j => exact ⟨j, hkeep y j hlevel, hle y j (hkeep y j hlevel)⟩
    · have hzq : z ∉ s.queue := by
        rw [hqueue, List.mem_cons, not_or]
        exact ⟨hzx, hz.1⟩
      obtain ⟨j, hj, hjk⟩ := h.done z k hk hzq hne y hy
      exact ⟨j, hkeep y j hj, hjk⟩
  · intro z
    rw [he.edge, he.queue, List.mem_append, not_or]
    have hedge := h.edge z
    rw [hqueue, List.mem_cons, not_or] at hedge
    rw [hedge]
    constructor
    · rintro ⟨hz, ⟨-, hrest⟩, hnext⟩
      refine ⟨hkeep z last hz, ⟨hrest, ?_⟩, hnext⟩
      intro hzn
      rw [hnone z hzn] at hz
      contradiction
    · rintro ⟨hz, ⟨hrest, hzn⟩, hnext⟩
      rw [hold z hzn] at hz
      refine ⟨hz, ⟨?_, hrest⟩, hnext⟩
      rintro rfl
      exact hn (Option.some.inj (hx.symm.trans hz))

/-! ## The whole run -/

theorem inv_round (h : Inv next last roots s)
    (hround : round next last s = some t) : Inv next last roots t := by
  cases hqueue : s.queue with
  | nil =>
      rw [round, hqueue] at hround
      contradiction
  | cons x rest =>
      obtain ⟨n, hn⟩ := h.queued x (hqueue ▸ List.mem_cons_self)
      rw [round, hqueue] at hround
      dsimp only at hround
      rw [hn, Option.getD_some] at hround
      obtain rfl := Option.some.inj hround
      by_cases hlast : n = last
      · rw [hlast] at hn ⊢
        exact inv_last h hqueue hn
      · exact inv_expand h hqueue hn hlast

/-- The vertices without a level, and the queue. -/
def size (vertices : Finset α) (s : Search α) : ℕ :=
  s.queue.length + (vertices.filter fun x => s.level x = none).card

theorem size_of_entered {m : ℕ} {ys new : List α} (h : Entered m ys s t new)
    (hys : ∀ y ∈ ys, y ∈ vertices) : size vertices t = size vertices s := by
  have hsplit : (vertices.filter fun x => s.level x = none) =
      new.toFinset ∪ vertices.filter fun x => t.level x = none := by
    ext x
    rw [Finset.mem_union, Finset.mem_filter, Finset.mem_filter,
      List.mem_toFinset, h.level]
    constructor
    · rintro ⟨hx, hnone⟩
      by_cases hnew : x ∈ new
      · exact Or.inl hnew
      · exact Or.inr ⟨hx, by rw [if_neg hnew, hnone]⟩
    · rintro (hnew | ⟨hx, hnone⟩)
      · obtain ⟨hlevel, hmem⟩ := (h.mem x).mp hnew
        exact ⟨hys x hmem, hlevel⟩
      · split at hnone
        · contradiction
        · exact ⟨hx, hnone⟩
  have hdisjoint : Disjoint new.toFinset
      (vertices.filter fun x => t.level x = none) := by
    rw [Finset.disjoint_left]
    intro x hx hfilter
    have hnone := (Finset.mem_filter.mp hfilter).2
    rw [h.level, if_pos (List.mem_toFinset.mp hx)] at hnone
    contradiction
  rw [size, size, hsplit, Finset.card_union_of_disjoint hdisjoint, h.queue,
    List.length_append, List.toFinset_card_of_nodup h.nodup]
  omega

theorem size_round (hnext : ∀ x, ∀ y ∈ next x, y ∈ vertices)
    (hround : round next last s = some t) :
    size vertices t < size vertices s := by
  cases hqueue : s.queue with
  | nil =>
      rw [round, hqueue] at hround
      contradiction
  | cons x rest =>
      rw [round, hqueue] at hround
      obtain rfl := Option.some.inj hround
      have hpop : size vertices { s with queue := rest } <
          size vertices s := by
        rw [size, size, hqueue, List.length_cons]
        exact Nat.add_lt_add_right (Nat.lt_succ_self _) _
      refine lt_of_eq_of_lt ?_ hpop
      rw [expand]
      split
      · split <;> rfl
      · obtain ⟨new, he⟩ := entered_foldl ((s.level x).getD 0 + 1) (next x)
          { s with queue := rest }
        exact size_of_entered he (hnext x)

theorem run_spec {fuel : ℕ} (hlast : 1 ≤ last)
    (hroots : ∀ x ∈ roots, x ∈ vertices)
    (hnext : ∀ x, ∀ y ∈ next x, y ∈ vertices) (hfuel : vertices.card ≤ fuel) :
    Inv next last roots (HeapLoop.run (round next last) fuel (start roots)) ∧
      (HeapLoop.run (round next last) fuel (start roots)).queue = [] := by
  have hinv : Inv next last roots (start roots) := inv_start hlast
  refine ⟨HeapLoop.run_invariant (fun _ _ => inv_round) fuel hinv, ?_⟩
  have hsize : size vertices (start roots) ≤ fuel := by
    obtain ⟨new, he⟩ := entered_foldl 1 roots (Search.empty : Search α)
    rw [start, size_of_entered he hroots, size]
    have := Finset.card_filter_le vertices fun x =>
      (Search.empty : Search α).level x = none
    simp only [Search.empty, List.length_nil] at this ⊢
    omega
  have hend := HeapLoop.step_run_eq_none (size vertices)
    (fun _ _ => inv_round) (fun _ _ _ h => size_round hnext h) hinv hsize
  cases hqueue : (HeapLoop.run (round next last) fuel (start roots)).queue with
  | nil => rfl
  | cons x rest =>
      rw [round, hqueue] at hend
      contradiction

/-! ## Levels are distances -/

omit [DecidableEq α] in
theorem Inv.steps (h : Inv next last roots s) {k : ℕ}
    (hx : s.level x = some (k + 1)) : Steps next roots k x := by
  induction k generalizing x with
  | zero =>
      obtain ⟨-, -, ⟨-, hroot⟩ | ⟨y, k, hk, hy, -⟩⟩ := h.origin x 1 hx
      · exact hroot
      · have := (h.origin y k hy).1
        omega
  | succ k ih =>
      obtain ⟨-, -, ⟨hone, -⟩ | ⟨y, j, hj, hy, hyx⟩⟩ := h.origin x _ hx
      · omega
      · obtain rfl : j = k + 1 := by omega
        exact ⟨y, ih hy, hyx⟩

omit [DecidableEq α] in
theorem Inv.level_le (h : Inv next last roots s) (hqueue : s.queue = []) {k : ℕ}
    (hk : k < last) (hx : Steps next roots k x) :
    ∃ n, s.level x = some n ∧ n ≤ k + 1 := by
  induction k generalizing x with
  | zero => exact ⟨1, h.rooted x hx, le_refl _⟩
  | succ k ih =>
      obtain ⟨y, hy, hyx⟩ := hx
      obtain ⟨n, hn, hle⟩ := ih (by omega) hy
      obtain ⟨m, hm, hmn⟩ := h.done y n hn (by simp [hqueue]) (by omega) x hyx
      exact ⟨m, hm, by omega⟩

omit [DecidableEq α] in
/-- The vertices with a level are those nearer a root than the last level. -/
theorem Inv.level_isSome_iff (h : Inv next last roots s)
    (hqueue : s.queue = []) (x : α) :
    (∃ n, s.level x = some n) ↔ ∃ k < last, Steps next roots k x := by
  constructor
  · rintro ⟨n, hn⟩
    obtain ⟨hone, hlast, -⟩ := h.origin x n hn
    obtain ⟨k, rfl⟩ : ∃ k, n = k + 1 := ⟨n - 1, by omega⟩
    exact ⟨k, by omega, h.steps hn⟩
  · rintro ⟨k, hk, hx⟩
    obtain ⟨n, hn, -⟩ := h.level_le hqueue hk hx
    exact ⟨n, hn⟩

theorem Inv.reaches_iff (h : Inv next last roots s) (hqueue : s.queue = [])
    {next' : α → List α}
    (hnext' : ∀ x, next' x = if x ∈ s.edge then [] else next x) (x : α) :
    (∃ r ∈ roots, Reaches next' r x) ↔ ∃ n, s.level x = some n := by
  constructor
  · rintro ⟨r, hr, hreach⟩
    induction hreach with
    | refl => exact ⟨1, h.rooted r hr⟩
    | @tail y z _ hyz ih =>
        obtain ⟨n, hn⟩ := ih
        rw [hnext'] at hyz
        split at hyz
        · simp at hyz
        next hedge =>
          have hne : n ≠ last := by
            rintro rfl
            exact hedge ((h.edge y).mpr ⟨hn, by simp [hqueue],
              List.ne_nil_of_mem hyz⟩)
          obtain ⟨k, hk, -⟩ := h.done y n hn (by simp [hqueue]) hne z hyz
          exact ⟨k, hk⟩
  · rintro ⟨n, hn⟩
    induction n generalizing x with
    | zero =>
        have := (h.origin x 0 hn).1
        omega
    | succ n ih =>
        obtain ⟨-, hlast, ⟨-, hroot⟩ | ⟨y, k, hk, hy, hyx⟩⟩ := h.origin x _ hn
        · exact ⟨x, hroot, Reaches.refl _ _⟩
        · obtain rfl : k = n := by omega
          obtain ⟨r, hr, hreach⟩ := ih y hy
          refine ⟨r, hr, hreach.trans (Reaches.single ?_)⟩
          have hedge : y ∉ s.edge := by
            rw [h.edge, hy]
            rintro ⟨heq, -⟩
            have := Option.some.inj heq
            omega
          rw [hnext', if_neg hedge]
          exact hyx

end Search

end Levels
