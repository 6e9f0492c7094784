import Mathlib

/-!
# Loops that pop a heap

`run` is a loop whose body says when it is over, with a bound on its rounds;
a measure that every round lowers is such a bound.  A heap is modelled by the
list of its entries: the greatest leaves it first, and equal entries cannot be
told apart.
-/

namespace HeapLoop

/-! ## Loops -/

section Run

variable {σ : Type}

/-- `while let Some(t) = step(s)`, for at most the given number of rounds. -/
def run (step : σ → Option σ) : ℕ → σ → σ
  | 0, s => s
  | n + 1, s =>
      match step s with
      | none => s
      | some t => run step n t

theorem run_invariant {step : σ → Option σ} {P : σ → Prop}
    (hstep : ∀ s t, P s → step s = some t → P t) (n : ℕ) {s : σ} (hs : P s) :
    P (run step n s) := by
  induction n generalizing s with
  | zero => exact hs
  | succ n ih =>
      rw [run]
      cases h : step s with
      | none => exact hs
      | some t => exact ih (hstep s t hs h)

/-- A loop whose rounds lower a measure is over once the measure's value has
been spent. -/
theorem step_run_eq_none {step : σ → Option σ} {P : σ → Prop} (size : σ → ℕ)
    (hstep : ∀ s t, P s → step s = some t → P t)
    (hsize : ∀ s t, P s → step s = some t → size t < size s) {n : ℕ} {s : σ}
    (hs : P s) (hn : size s ≤ n) : step (run step n s) = none := by
  induction n generalizing s with
  | zero =>
      cases h : step s with
      | none => exact h
      | some t =>
          have := hsize s t hs h
          omega
  | succ n ih =>
      rw [run]
      cases h : step s with
      | none => exact h
      | some t =>
          have := hsize s t hs h
          exact ih (hstep s t hs h) (by omega)

end Run

/-! ## Heaps -/

section Heap

variable {α : Type} [LinearOrder α]

/-- `BinaryHeap::peek`. -/
def peek (heap : List α) : Option α := heap.max?

/-- The heap without one entry `x`. -/
def remove (heap : List α) (x : α) : List α := heap.erase x

/-- `BinaryHeap::pop`. -/
def pop (heap : List α) : Option (α × List α) :=
  (peek heap).map fun x => (x, remove heap x)

variable {heap : List α} {x y : α}

theorem peek_eq_none : peek heap = none ↔ heap = [] :=
  List.max?_eq_none_iff

theorem peek_eq_some (h : peek heap = some x) :
    x ∈ heap ∧ ∀ y ∈ heap, y ≤ x := by
  have hmax := List.max?_eq_some_iff.mp h
  exact ⟨hmax.1, hmax.2⟩

theorem pop_eq_none : pop heap = none ↔ heap = [] := by
  rw [pop, Option.map_eq_none_iff, peek_eq_none]

theorem pop_eq_some {rest : List α} (h : pop heap = some (x, rest)) :
    x ∈ heap ∧ rest = remove heap x := by
  obtain ⟨y, hy, heq⟩ := Option.map_eq_some_iff.mp h
  simp only [Prod.mk.injEq] at heq
  obtain ⟨rfl, rfl⟩ := heq
  exact ⟨(peek_eq_some hy).1, rfl⟩

/-- What is popped is the greatest entry. -/
theorem le_of_pop {rest : List α} (h : pop heap = some (x, rest))
    (hy : y ∈ heap) : y ≤ x := by
  obtain ⟨z, hz, heq⟩ := Option.map_eq_some_iff.mp h
  obtain rfl : z = x := congrArg Prod.fst heq
  exact (peek_eq_some hz).2 y hy

theorem mem_of_mem_remove (h : y ∈ remove heap x) : y ∈ heap :=
  List.mem_of_mem_erase h

theorem mem_remove_of_ne (hne : y ≠ x) (h : y ∈ heap) : y ∈ remove heap x :=
  (List.mem_erase_of_ne hne).mpr h

theorem length_remove (h : x ∈ heap) :
    (remove heap x).length + 1 = heap.length := by
  have hpos := List.length_pos_of_mem h
  rw [remove, List.length_erase_of_mem h]
  omega

end Heap

end HeapLoop
