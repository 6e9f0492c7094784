import AgentStateGraph.Lib.Worklist

/-!
# Searching a graph breadth first

`run` is the loop `while let Some(x) = queue.pop_front()` that looks for a
target among the successors of what it takes off the queue, and queues every
successor once.  It answers yes only for what is reached.
-/

namespace Search

open Worklist (Reaches)

variable {α : Type} [DecidableEq α]

/-- The queue, and everything that was ever queued. -/
structure State (α : Type) where
  queue : List α
  seen : List α
deriving DecidableEq

def start (x : α) : State α := ⟨[x], [x]⟩

/-- Queue the successors that were not seen; none when the target is among
them. -/
def push (target : α) : List α → State α → Option (State α)
  | [], s => some s
  | y :: ys, s =>
      if y = target then none
      else if y ∈ s.seen then push target ys s
      else push target ys ⟨s.queue ++ [y], y :: s.seen⟩

/-- One round: the answer, or the state to go on with. -/
def step (next : α → List α) (target : α) (s : State α) : Bool ⊕ State α :=
  match s.queue with
  | [] => .inl false
  | x :: queue =>
      match push target (next x) ⟨queue, s.seen⟩ with
      | none => .inl true
      | some s => .inr s

def run (next : α → List α) (target : α) : ℕ → State α → Bool
  | 0, _ => false
  | n + 1, s =>
      match step next target s with
      | .inl answer => answer
      | .inr s => run next target n s

/-! ## Soundness -/

variable {target origin : α} {next : α → List α}

theorem push_eq_none_iff {ys : List α} {s : State α} :
    push target ys s = none ↔ target ∈ ys := by
  induction ys generalizing s with
  | nil => simp [push]
  | cons y ys ih =>
      rw [push]
      split
      next heq => simp [heq]
      next hne =>
        have hmem : target ∈ y :: ys ↔ target ∈ ys := by
          simp [Ne.symm hne]
        rw [hmem]
        split
        · exact ih
        · exact ih

theorem mem_of_push {ys : List α} {s t : State α}
    (h : push target ys s = some t) {x : α} (hx : x ∈ t.queue) :
    x ∈ s.queue ∨ x ∈ ys := by
  induction ys generalizing s with
  | nil =>
      simp only [push, Option.some.injEq] at h
      exact Or.inl (h ▸ hx)
  | cons y ys ih =>
      rw [push] at h
      split at h
      · contradiction
      · split at h
        · exact (ih h).imp_right (List.mem_cons_of_mem _)
        · rcases ih h with hq | hys
          · rcases List.mem_append.mp hq with hq | hy
            · exact Or.inl hq
            · exact Or.inr (by simp [List.mem_singleton.mp hy])
          · exact Or.inr (List.mem_cons_of_mem _ hys)

/-- A round that answers yes found a successor of something queued. -/
theorem reaches_of_step_inl {s : State α}
    (hqueue : ∀ x ∈ s.queue, Reaches next origin x)
    (h : step next target s = .inl true) : Reaches next origin target := by
  unfold step at h
  split at h
  next => simp at h
  next x queue hq =>
    split at h
    next hpush =>
      have hx := hqueue x (by simp [hq])
      exact hx.trans (.single (push_eq_none_iff.mp hpush))
    next => simp at h

theorem reaches_of_step_inr {s t : State α}
    (hqueue : ∀ x ∈ s.queue, Reaches next origin x)
    (h : step next target s = .inr t) :
    ∀ x ∈ t.queue, Reaches next origin x := by
  unfold step at h
  split at h
  next => simp at h
  next x queue hq =>
    split at h
    next => simp at h
    next u hpush =>
      simp only [Sum.inr.injEq] at h
      subst h
      intro y hy
      rcases mem_of_push hpush hy with hold | hnew
      · exact hqueue y (by simp only [hq]; exact List.mem_cons_of_mem _ hold)
      · exact (hqueue x (by simp [hq])).trans (.single hnew)

/-- A search that answers yes found what is reached. -/
theorem reaches_of_run (fuel : ℕ) (s : State α)
    (hqueue : ∀ x ∈ s.queue, Reaches next origin x)
    (h : run next target fuel s = true) : Reaches next origin target := by
  induction fuel generalizing s with
  | zero => simp [run] at h
  | succ n ih =>
      rw [run] at h
      split at h
      next answer hstep =>
        subst h
        exact reaches_of_step_inl hqueue hstep
      next t hstep => exact ih t (reaches_of_step_inr hqueue hstep) h

end Search
