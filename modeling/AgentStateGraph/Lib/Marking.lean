import AgentStateGraph.Lib.Worklist

/-!
# Marking in batches

A mark table holds each vertex once, with a flag that says whether its
successors have been followed.  `drain` takes some vertices without the flag at
a time, inserts their successors and sets their flags, until none is left.
Which vertices a batch takes is left open: any selection that takes some where
there are some leads to the same marks.
-/

namespace Marking

variable {α : Type}

/-- Vertices, with whether their successors have been followed. -/
abbrev Table (α : Type) := List (α × Bool)

/-- A query with a limit and no order: some of the rows, at least one where
there is one. -/
structure Selection (α : Type) (limit : ℕ) where
  choose : List α → List α
  subset : ∀ l, choose l ⊆ l
  nonempty : ∀ l, l ≠ [] → choose l ≠ []
  bounded : ∀ l, (choose l).length ≤ limit

/-- The first rows, up to the limit. -/
def Selection.first {limit : ℕ} (h : 0 < limit) : Selection α limit where
  choose l := l.take limit
  subset l := List.take_subset limit l
  nonempty l hl := by
    intro hnil
    rcases List.take_eq_nil_iff.mp hnil with h' | h'
    · omega
    · exact hl h'
  bounded l := List.length_take_le limit l

/-- A list cut into chunks of a size, with the chunk being filled. -/
def chunks (size : ℕ) : List α → List α → List (List α)
  | [], chunk => if chunk.isEmpty then [] else [chunk]
  | x :: xs, chunk =>
      if (chunk ++ [x]).length = size then (chunk ++ [x]) :: chunks size xs []
      else chunks size xs (chunk ++ [x])

theorem flatten_chunks (size : ℕ) (xs chunk : List α) :
    (chunks size xs chunk).flatten = chunk ++ xs := by
  induction xs generalizing chunk with
  | nil =>
      simp only [chunks]
      split
      next h => simpa using h.symm
      next => simp
  | cons x xs ih =>
      simp only [chunks]
      split
      · rw [List.flatten_cons, ih]
        simp
      · rw [ih]
        simp

theorem foldl_chunks {β : Type} {f : β → List α → β} {g : β → α → β}
    (hf : ∀ b l, f b l = l.foldl g b) (size : ℕ) (xs : List α) (b : β) :
    (chunks size xs []).foldl f b = xs.foldl g b := by
  have hflat : ∀ (ls : List (List α)) b, ls.foldl f b = ls.flatten.foldl g b := by
    intro ls
    induction ls with
    | nil => exact fun _ => rfl
    | cons l ls ih =>
        intro b
        rw [List.foldl_cons, List.flatten_cons, List.foldl_append, hf, ih]
  rw [hflat, flatten_chunks, List.nil_append]

variable [DecidableEq α]

def ids (rows : Table α) : List α := rows.map Prod.fst

/-- The rows whose successors have not been followed. -/
def frontier (rows : Table α) : List α :=
  (rows.filter fun r => !r.2).map Prod.fst

def insertOrIgnore (rows : Table α) (x : α) : Table α :=
  if x ∈ ids rows then rows else rows ++ [(x, false)]

def markExpanded (rows : Table α) (xs : List α) : Table α :=
  rows.map fun r => (r.1, r.2 || decide (r.1 ∈ xs))

/-- Follow the successors of some vertices. -/
def expand (next : α → List α) (rows : Table α) (xs : List α) : Table α :=
  markExpanded ((xs.flatMap next).foldl insertOrIgnore rows) xs

/-- The loop; without enough fuel there is no answer. -/
def drain (next : α → List α) (choose : List α → List α) :
    ℕ → Table α → Option (Table α)
  | fuel, rows =>
      match choose (frontier rows) with
      | [] => some rows
      | x :: xs =>
          match fuel with
          | 0 => none
          | fuel + 1 => drain next choose fuel (expand next rows (x :: xs))

/-! ## Rows -/

section

variable {x y : α}

theorem mem_ids_insertOrIgnore {rows : Table α} :
    y ∈ ids (insertOrIgnore rows x) ↔ y ∈ ids rows ∨ y = x := by
  rw [insertOrIgnore]
  split
  next h =>
    constructor
    · exact Or.inl
    · rintro (hy | rfl)
      · exact hy
      · exact h
  next => simp [ids]

theorem nodup_ids_insertOrIgnore {rows : Table α} (h : (ids rows).Nodup) :
    (ids (insertOrIgnore rows x)).Nodup := by
  rw [insertOrIgnore]
  split
  next => exact h
  next hx =>
    have hids : ids (rows ++ [(x, false)]) = ids rows ++ [x] := by simp [ids]
    rw [hids, List.nodup_append]
    refine ⟨h, List.nodup_singleton x, ?_⟩
    intro a ha b hb hab
    rw [List.mem_singleton] at hb
    exact hx (by rwa [← hb, ← hab])

theorem mem_insertOrIgnore_true {rows : Table α} :
    (y, true) ∈ insertOrIgnore rows x ↔ (y, true) ∈ rows := by
  rw [insertOrIgnore]
  split
  · rfl
  · simp

theorem mem_ids_insertAll {rows : Table α} {xs : List α} :
    y ∈ ids (xs.foldl insertOrIgnore rows) ↔ y ∈ ids rows ∨ y ∈ xs := by
  induction xs generalizing rows with
  | nil => simp
  | cons x xs ih =>
      rw [List.foldl_cons, ih, mem_ids_insertOrIgnore, List.mem_cons, or_assoc]

theorem nodup_ids_insertAll {rows : Table α} {xs : List α}
    (h : (ids rows).Nodup) : (ids (xs.foldl insertOrIgnore rows)).Nodup := by
  induction xs generalizing rows with
  | nil => exact h
  | cons x xs ih => exact ih (nodup_ids_insertOrIgnore h)

theorem mem_insertAll_true {rows : Table α} {xs : List α} :
    (y, true) ∈ xs.foldl insertOrIgnore rows ↔ (y, true) ∈ rows := by
  induction xs generalizing rows with
  | nil => rfl
  | cons x xs ih => rw [List.foldl_cons, ih, mem_insertOrIgnore_true]

theorem ids_markExpanded (rows : Table α) (xs : List α) :
    ids (markExpanded rows xs) = ids rows := by
  simp [ids, markExpanded, Function.comp_def]

theorem markExpanded_append (rows : Table α) (xs ys : List α) :
    markExpanded rows (xs ++ ys) = markExpanded (markExpanded rows xs) ys := by
  simp only [markExpanded, List.map_map, Function.comp_def, List.mem_append,
    Bool.decide_or, Bool.or_assoc]

theorem foldl_markExpanded_chunks (size : ℕ) (rows : Table α) (xs : List α) :
    (chunks size xs []).foldl markExpanded rows = markExpanded rows xs := by
  have hflat : ∀ (ls : List (List α)) (rows : Table α),
      ls.foldl markExpanded rows = markExpanded rows ls.flatten := by
    intro ls
    induction ls with
    | nil => simp [markExpanded]
    | cons l ls ih =>
        intro rows
        rw [List.foldl_cons, List.flatten_cons, markExpanded_append, ih]
  rw [hflat, flatten_chunks, List.nil_append]

theorem mem_markExpanded_true {rows : Table α} {xs : List α} :
    (y, true) ∈ markExpanded rows xs ↔
      (y, true) ∈ rows ∨ (y ∈ ids rows ∧ y ∈ xs) := by
  simp only [markExpanded, ids, List.mem_map, Prod.mk.injEq, Bool.or_eq_true,
    decide_eq_true_eq]
  constructor
  · rintro ⟨⟨x, b⟩, hmem, rfl, hb | hx⟩
    · exact Or.inl (by rwa [show b = true from hb] at hmem)
    · exact Or.inr ⟨⟨(x, b), hmem, rfl⟩, hx⟩
  · rintro (hmem | ⟨⟨⟨x, b⟩, hmem, rfl⟩, hx⟩)
    · exact ⟨(y, true), hmem, rfl, Or.inl rfl⟩
    · exact ⟨(x, b), hmem, rfl, Or.inr hx⟩

omit [DecidableEq α] in
theorem mem_ids_of_frontier {rows : Table α} (h : x ∈ frontier rows) :
    x ∈ ids rows := by
  obtain ⟨r, hr, rfl⟩ := List.mem_map.mp h
  exact List.mem_map_of_mem (List.mem_filter.mp hr).1

omit [DecidableEq α] in
theorem mem_true_of_not_frontier {rows : Table α} (hx : x ∈ ids rows)
    (h : x ∉ frontier rows) : (x, true) ∈ rows := by
  obtain ⟨⟨y, b⟩, hr, rfl⟩ := List.mem_map.mp hx
  cases b with
  | true => exact hr
  | false =>
      exact absurd (List.mem_map.mpr ⟨(y, false),
        List.mem_filter.mpr ⟨hr, rfl⟩, rfl⟩) h

/-! ## The loop -/

/-- What the loop keeps. -/
structure Inv (next : α → List α) (roots : List α) (vertices : Finset α)
    (rows : Table α) : Prop where
  nodup : (ids rows).Nodup
  within : ∀ x ∈ ids rows, x ∈ vertices
  sound : ∀ x ∈ ids rows, ∃ r ∈ roots, Worklist.Reaches next r x
  rooted : ∀ r ∈ roots, r ∈ ids rows
  closed : ∀ x, (x, true) ∈ rows → ∀ y ∈ next x, y ∈ ids rows

/-- The rows that are done. -/
def done (rows : Table α) : List α := (rows.filter fun r => r.2).map Prod.fst

omit [DecidableEq α] in
theorem mem_done {rows : Table α} : x ∈ done rows ↔ (x, true) ∈ rows := by
  constructor
  · intro h
    obtain ⟨⟨y, b⟩, hr, rfl⟩ := List.mem_map.mp h
    obtain ⟨hmem, hb⟩ := List.mem_filter.mp hr
    rwa [show b = true from hb] at hmem
  · intro h
    exact List.mem_map.mpr ⟨(x, true), List.mem_filter.mpr ⟨h, rfl⟩, rfl⟩

end

omit [DecidableEq α] in
theorem nodup_done {rows : Table α} (h : (ids rows).Nodup) :
    (done rows).Nodup :=
  h.sublist (List.filter_sublist.map Prod.fst)

section Loop

variable {next : α → List α} {roots : List α} {vertices : Finset α}
  {rows : Table α}

theorem length_done_le (h : Inv next roots vertices rows) :
    (done rows).length ≤ vertices.card := by
  have hsub : (done rows).toFinset ⊆ vertices := by
    intro x hx
    have hmem := mem_done.mp (List.mem_toFinset.mp hx)
    exact h.within x (List.mem_map_of_mem hmem)
  rw [← List.toFinset_card_of_nodup (nodup_done h.nodup)]
  exact Finset.card_le_card hsub

theorem inv_expand (hnext : ∀ x ∈ vertices, ∀ y ∈ next x, y ∈ vertices)
    (h : Inv next roots vertices rows) {xs : List α}
    (hxs : xs ⊆ frontier rows) :
    Inv next roots vertices (expand next rows xs) := by
  have hids : ∀ y, y ∈ ids (expand next rows xs) ↔
      y ∈ ids rows ∨ y ∈ xs.flatMap next := by
    intro y
    rw [expand, ids_markExpanded, mem_ids_insertAll]
  refine ⟨?_, ?_, ?_, ?_, ?_⟩
  · rw [expand, ids_markExpanded]
    exact nodup_ids_insertAll h.nodup
  · intro y hy
    rcases (hids y).mp hy with hy | hy
    · exact h.within y hy
    · obtain ⟨x, hx, hsucc⟩ := List.mem_flatMap.mp hy
      exact hnext x (h.within x (mem_ids_of_frontier (hxs hx))) y hsucc
  · intro y hy
    rcases (hids y).mp hy with hy | hy
    · exact h.sound y hy
    · obtain ⟨x, hx, hsucc⟩ := List.mem_flatMap.mp hy
      obtain ⟨r, hr, hreach⟩ := h.sound x (mem_ids_of_frontier (hxs hx))
      exact ⟨r, hr, hreach.trans (Worklist.Reaches.single hsucc)⟩
  · intro r hr
    exact (hids r).mpr (Or.inl (h.rooted r hr))
  · intro x hx y hy
    rw [expand, mem_markExpanded_true, mem_insertAll_true] at hx
    rcases hx with hx | ⟨-, hx⟩
    · exact (hids y).mpr (Or.inl (h.closed x hx y hy))
    · exact (hids y).mpr (Or.inr (List.mem_flatMap.mpr ⟨x, hx, hy⟩))

/-- A batch that is not empty gets something done. -/
theorem length_done_lt (h : Inv next roots vertices rows) {x : α}
    {xs : List α} (hxs : x :: xs ⊆ frontier rows)
    (hnodup : (ids (expand next rows (x :: xs))).Nodup) :
    (done rows).length < (done (expand next rows (x :: xs))).length := by
  have hx := hxs List.mem_cons_self
  have hmem : ∀ y, y ∈ done (expand next rows (x :: xs)) ↔
      y ∈ done rows ∨ y ∈ x :: xs := by
    intro y
    rw [mem_done, mem_done, expand, mem_markExpanded_true, mem_insertAll_true]
    constructor
    · rintro (hy | ⟨-, hy⟩)
      · exact Or.inl hy
      · exact Or.inr hy
    · rintro (hy | hy)
      · exact Or.inl hy
      · refine Or.inr ⟨?_, hy⟩
        exact mem_ids_insertAll.mpr (Or.inl (mem_ids_of_frontier (hxs hy)))
  have hnot : x ∉ done rows := by
    intro hdone
    obtain ⟨⟨y, b⟩, hr, hfst⟩ := List.mem_map.mp hx
    obtain ⟨hin, hb⟩ := List.mem_filter.mp hr
    have hpair := List.inj_on_of_nodup_map h.nodup hin (mem_done.mp hdone) hfst
    rw [hpair] at hb
    simp at hb
  have hsub : (done rows).toFinset ⊂
      (done (expand next rows (x :: xs))).toFinset := by
    refine Finset.ssubset_iff_subset_ne.mpr ⟨?_, ?_⟩
    · intro y hy
      exact List.mem_toFinset.mpr ((hmem y).mpr (Or.inl
        (List.mem_toFinset.mp hy)))
    · intro heq
      have hin : x ∈ (done (expand next rows (x :: xs))).toFinset :=
        List.mem_toFinset.mpr ((hmem x).mpr (Or.inr List.mem_cons_self))
      rw [← heq] at hin
      exact hnot (List.mem_toFinset.mp hin)
  rw [← List.toFinset_card_of_nodup (nodup_done h.nodup),
    ← List.toFinset_card_of_nodup (nodup_done hnodup)]
  exact Finset.card_lt_card hsub

/-- The loop ends, and then nothing is left to follow. -/
theorem drain_ends (hnext : ∀ x ∈ vertices, ∀ y ∈ next x, y ∈ vertices)
    {limit : ℕ} (sel : Selection α limit) {fuel : ℕ}
    (h : Inv next roots vertices rows)
    (hfuel : vertices.card ≤ fuel + (done rows).length) :
    ∃ t, drain next sel.choose fuel rows = some t ∧
      Inv next roots vertices t ∧ frontier t = [] := by
  induction fuel generalizing rows with
  | zero =>
      cases hsel : sel.choose (frontier rows) with
      | nil =>
          refine ⟨rows, by rw [drain, hsel], h, ?_⟩
          by_contra hne
          exact sel.nonempty _ hne hsel
      | cons x xs =>
          have hxs : x :: xs ⊆ frontier rows := by
            rw [← hsel]
            exact sel.subset _
          have hinv := inv_expand hnext h hxs
          have hlt := length_done_lt h hxs hinv.nodup
          have hle := length_done_le hinv
          omega
  | succ fuel ih =>
      cases hsel : sel.choose (frontier rows) with
      | nil =>
          refine ⟨rows, by rw [drain, hsel], h, ?_⟩
          by_contra hne
          exact sel.nonempty _ hne hsel
      | cons x xs =>
          have hxs : x :: xs ⊆ frontier rows := by
            rw [← hsel]
            exact sel.subset _
          have hinv := inv_expand hnext h hxs
          have hlt := length_done_lt h hxs hinv.nodup
          obtain ⟨t, hrun, ht⟩ := ih hinv (by omega)
          exact ⟨t, by rw [drain, hsel]; exact hrun, ht⟩

omit [DecidableEq α] in
/-- With nothing left to follow, the marks are what the roots reach. -/
theorem mem_ids_iff (h : Inv next roots vertices rows)
    (hend : frontier rows = []) (x : α) :
    x ∈ ids rows ↔ ∃ r ∈ roots, Worklist.Reaches next r x := by
  constructor
  · exact h.sound x
  · rintro ⟨r, hr, hreach⟩
    refine hreach.mem_of_closed (P := fun y => y ∈ ids rows) ?_ (h.rooted r hr)
    intro y hy z hz
    have hdone := mem_true_of_not_frontier hy (by rw [hend]; exact
      List.not_mem_nil)
    exact h.closed y hdone z hz

theorem inv_seed {roots : List α} (hroots : ∀ r ∈ roots, r ∈ vertices) :
    Inv next roots vertices (roots.foldl insertOrIgnore []) := by
  have hids : ∀ y, y ∈ ids (roots.foldl insertOrIgnore []) ↔ y ∈ roots := by
    intro y
    rw [mem_ids_insertAll]
    simp [ids]
  refine ⟨nodup_ids_insertAll List.nodup_nil, ?_, ?_, ?_, ?_⟩
  · intro x hx
    exact hroots x ((hids x).mp hx)
  · intro x hx
    exact ⟨x, (hids x).mp hx, Worklist.Reaches.refl next x⟩
  · intro r hr
    exact (hids r).mpr hr
  · intro x hx
    rw [mem_insertAll_true] at hx
    exact absurd hx List.not_mem_nil

end Loop

theorem mem_drain_iff {next : α → List α} {vertices : Finset α}
    (hnext : ∀ x ∈ vertices, ∀ y ∈ next x, y ∈ vertices)
    {roots : List α} (hroots : ∀ r ∈ roots, r ∈ vertices) {limit : ℕ}
    (sel : Selection α limit) {fuel : ℕ} (hfuel : vertices.card ≤ fuel) :
    ∃ t, drain next sel.choose fuel (roots.foldl insertOrIgnore []) = some t ∧
      ∀ x, x ∈ ids t ↔ ∃ r ∈ roots, Worklist.Reaches next r x := by
  obtain ⟨t, hrun, hinv, hend⟩ :=
    drain_ends hnext sel (inv_seed hroots) (hfuel.trans (Nat.le_add_right _ _))
  exact ⟨t, hrun, mem_ids_iff hinv hend⟩

end Marking
