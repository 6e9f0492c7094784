import Mathlib

/-!
# Exploring a graph with a work list

`explore` is the loop `while let Some(x) = stack.pop()` that visits every
vertex once and pushes the successors it has not seen.  Its fuel is the number
of pops; `exploreCost` pops are enough, and then the visited vertices are
exactly those reachable from the start.
-/

namespace Worklist

variable {α : Type}

/-- `y` can be reached from `x` along `next`. -/
def Reaches (next : α → List α) : α → α → Prop :=
  Relation.ReflTransGen fun x y => y ∈ next x

theorem Reaches.refl (next : α → List α) (x : α) : Reaches next x x :=
  Relation.ReflTransGen.refl

section

variable {next : α → List α} {x y : α}

theorem Reaches.trans {z : α} (hxy : Reaches next x y)
    (hyz : Reaches next y z) : Reaches next x z :=
  Relation.ReflTransGen.trans hxy hyz

theorem Reaches.single (h : y ∈ next x) : Reaches next x y :=
  Relation.ReflTransGen.single h

theorem Reaches.mono {next' : α → List α}
    (hle : ∀ x y, y ∈ next x → y ∈ next' x) (h : Reaches next x y) :
    Reaches next' x y :=
  Relation.ReflTransGen.mono hle x y h

/-- A vertex that everything reachable into is reached through. -/
theorem Reaches.mem_of_closed {P : α → Prop}
    (hclosed : ∀ x, P x → ∀ y ∈ next x, P y) (h : Reaches next x y) (hx : P x) :
    P y := by
  induction h with
  | refl => exact hx
  | tail _ hstep ih => exact hclosed _ ih _ hstep

end

/-! ## The loop -/

variable [DecidableEq α]

/-- The work-list loop. -/
def explore (next : α → List α) : ℕ → List α → List α → List α
  | 0, _, seen => seen
  | _ + 1, [], seen => seen
  | n + 1, x :: stack, seen =>
      if x ∈ seen then explore next n stack seen
      else
        explore next n
          (((next x).filter (· ∉ x :: seen)).reverse ++ stack) (x :: seen)

/-- Every pop is of a vertex on the stack, or of a successor pushed when a
vertex was first seen. -/
def exploreCost (next : α → List α) (vertices : Finset α) (seen : List α)
    (stack : List α) : ℕ :=
  stack.length +
    ∑ x ∈ vertices.filter (· ∉ seen), (next x).length

theorem exploreCost_pop (next : α → List α) (vertices : Finset α)
    (seen stack : List α) (x : α) :
    exploreCost next vertices seen stack <
      exploreCost next vertices seen (x :: stack) := by
  simp only [exploreCost, List.length_cons]
  omega

variable {vertices : Finset α} {x : α} {next : α → List α}

/-- Visiting a vertex takes its successors out of the sum. -/
theorem exploreCost_pushAll (next : α → List α) {seen : List α} (stack : List α)
    (hx : x ∈ vertices) (hseen : x ∉ seen) :
    exploreCost next vertices (x :: seen) ((next x).reverse ++ stack) <
      exploreCost next vertices seen (x :: stack) := by
  have hsplit : vertices.filter (· ∉ seen) =
      insert x (vertices.filter (· ∉ x :: seen)) := by
    ext y
    simp only [Finset.mem_filter, Finset.mem_insert, List.mem_cons, not_or]
    by_cases hy : y = x
    · simp [hy, hx, hseen]
    · simp [hy]
  have hnot : x ∉ vertices.filter (· ∉ x :: seen) := by simp
  simp only [exploreCost, hsplit, Finset.sum_insert hnot, List.length_append,
    List.length_reverse, List.length_cons]
  omega

theorem exploreCost_push (next : α → List α) {seen : List α} (stack : List α)
    (hx : x ∈ vertices) (hseen : x ∉ seen) :
    exploreCost next vertices (x :: seen)
        (((next x).filter (· ∉ x :: seen)).reverse ++ stack) <
      exploreCost next vertices seen (x :: stack) := by
  have hall := exploreCost_pushAll next stack hx hseen
  have hlen := List.length_filter_le (fun y => decide (y ∉ x :: seen)) (next x)
  simp only [exploreCost, List.length_append, List.length_reverse] at hall ⊢
  omega

/-- What the loop keeps: the stack stays inside the vertices, and a successor
of a seen vertex is seen or waiting. -/
structure ExploreInv (next : α → List α) (vertices : Finset α)
    (stack seen : List α) : Prop where
  stack_mem : ∀ x ∈ stack, x ∈ vertices
  closed : ∀ x ∈ seen, ∀ y ∈ next x, y ∈ seen ∨ y ∈ stack

omit [DecidableEq α] in
theorem ExploreInv.skip {stack seen : List α}
    (h : ExploreInv next vertices (x :: stack) seen) (hx : x ∈ seen) :
    ExploreInv next vertices stack seen where
  stack_mem y hy := h.stack_mem y (List.mem_cons_of_mem _ hy)
  closed y hy z hz := by
    rcases h.closed y hy z hz with hz | hz
    · exact Or.inl hz
    · rcases List.mem_cons.mp hz with rfl | hz
      · exact Or.inl hx
      · exact Or.inr hz

theorem ExploreInv.visit (hnext : ∀ x ∈ vertices, ∀ y ∈ next x, y ∈ vertices)
    {stack seen : List α} (h : ExploreInv next vertices (x :: stack) seen) :
    ExploreInv next vertices
      (((next x).filter (· ∉ x :: seen)).reverse ++ stack) (x :: seen) where
  stack_mem y hy := by
    rcases List.mem_append.mp hy with hy | hy
    · have hmem := (List.mem_filter.mp (List.mem_reverse.mp hy)).1
      exact hnext x (h.stack_mem x (by simp)) y hmem
    · exact h.stack_mem y (List.mem_cons_of_mem _ hy)
  closed y hy z hz := by
    by_cases hseen : z ∈ x :: seen
    · exact Or.inl hseen
    · refine Or.inr (List.mem_append.mpr ?_)
      rcases List.mem_cons.mp hy with rfl | hy
      · refine Or.inl (List.mem_reverse.mpr (List.mem_filter.mpr ⟨hz, ?_⟩))
        simpa using hseen
      · rcases h.closed y hy z hz with hz | hz
        · exact absurd (List.mem_cons_of_mem _ hz) hseen
        · rcases List.mem_cons.mp hz with rfl | hz
          · exact absurd (by simp) hseen
          · exact Or.inr hz

/-- With enough fuel the loop ends on a set that contains the stack and what
was seen, and that `next` does not leave. -/
theorem explore_closed (hnext : ∀ x ∈ vertices, ∀ y ∈ next x, y ∈ vertices)
    (fuel : ℕ) (stack seen : List α)
    (hinv : ExploreInv next vertices stack seen)
    (hfuel : exploreCost next vertices seen stack < fuel) :
    (∀ x ∈ stack, x ∈ explore next fuel stack seen) ∧
      (∀ x ∈ seen, x ∈ explore next fuel stack seen) ∧
      ∀ x ∈ explore next fuel stack seen, ∀ y ∈ next x,
        y ∈ explore next fuel stack seen := by
  induction fuel generalizing stack seen with
  | zero => omega
  | succ n ih =>
      cases stack with
      | nil =>
          refine ⟨by simp, fun x hx => hx, ?_⟩
          intro x hx y hy
          exact (hinv.closed x hx y hy).resolve_right (by simp)
      | cons x stack =>
          by_cases hx : x ∈ seen
          · rw [explore, if_pos hx]
            have hcost := exploreCost_pop next vertices seen stack x
            obtain ⟨h₁, h₂, h₃⟩ :=
              ih stack seen (hinv.skip hx) (by omega)
            refine ⟨?_, h₂, h₃⟩
            intro y hy
            rcases List.mem_cons.mp hy with rfl | hy
            · exact h₂ y hx
            · exact h₁ y hy
          · rw [explore, if_neg hx]
            have hcost := exploreCost_push next stack
              (hinv.stack_mem x (by simp)) hx
            obtain ⟨h₁, h₂, h₃⟩ :=
              ih _ (x :: seen) (hinv.visit hnext) (by omega)
            refine ⟨?_, fun y hy => h₂ y (List.mem_cons_of_mem _ hy), h₃⟩
            intro y hy
            rcases List.mem_cons.mp hy with rfl | hy
            · exact h₂ y (by simp)
            · exact h₁ y (List.mem_append_right _ hy)

theorem explore_sound (fuel : ℕ) (stack seen : List α)
    (h : x ∈ explore next fuel stack seen) :
    x ∈ seen ∨ ∃ r ∈ stack, Reaches next r x := by
  induction fuel generalizing stack seen with
  | zero => exact Or.inl h
  | succ n ih =>
      cases stack with
      | nil => exact Or.inl h
      | cons y stack =>
          rw [explore] at h
          split at h
          · rcases ih stack seen h with hs | ⟨r, hr, hreach⟩
            · exact Or.inl hs
            · exact Or.inr ⟨r, List.mem_cons_of_mem _ hr, hreach⟩
          · rcases ih _ _ h with hs | ⟨r, hr, hreach⟩
            · rcases List.mem_cons.mp hs with rfl | hs
              · exact Or.inr ⟨x, by simp, Reaches.refl next x⟩
              · exact Or.inl hs
            · rcases List.mem_append.mp hr with hr | hr
              · have hmem := (List.mem_filter.mp (List.mem_reverse.mp hr)).1
                exact Or.inr ⟨y, by simp, (Reaches.single hmem).trans hreach⟩
              · exact Or.inr ⟨r, List.mem_cons_of_mem _ hr, hreach⟩

/-- From an empty `seen`, the loop visits exactly what the stack reaches. -/
theorem mem_explore_iff (hnext : ∀ x ∈ vertices, ∀ y ∈ next x, y ∈ vertices)
    {fuel : ℕ} {stack : List α} (hstack : ∀ x ∈ stack, x ∈ vertices)
    (hfuel : exploreCost next vertices [] stack < fuel) (x : α) :
    x ∈ explore next fuel stack [] ↔ ∃ r ∈ stack, Reaches next r x := by
  obtain ⟨hroots, -, hclosed⟩ :=
    explore_closed hnext fuel stack [] ⟨hstack, by simp⟩ hfuel
  constructor
  · intro h
    exact (explore_sound fuel stack [] h).resolve_left (by simp)
  · rintro ⟨r, hr, hreach⟩
    exact hreach.mem_of_closed hclosed (hroots r hr)

end Worklist
