import AgentStateGraph.Lib.Worklist

/-!
# Loops that end

A loop as a step function that returns nothing where the loop ends.  A run of
limited length says nothing by itself: a loop with a cost that each step lowers
ends within that many steps, and longer runs change nothing.
-/

namespace FueledLoop

variable {σ : Type} (step : σ → Option σ)

/-- At most `n` turns. -/
def run : ℕ → σ → σ
  | 0, s => s
  | n + 1, s =>
      match step s with
      | some s' => run n s'
      | none => s

/-- The loop has ended after at most `n` turns. -/
def Ends (n : ℕ) (s : σ) : Prop := step (run step n s) = none

variable {step} {n : ℕ} {s s' : σ}

theorem run_some (h : step s = some s') : run step (n + 1) s = run step n s' := by
  simp [run, h]

theorem run_none (h : step s = none) : run step n s = s := by
  cases n with
  | zero => rfl
  | succ n => simp [run, h]

theorem ends_of_cost {I : σ → Prop} {cost : σ → ℕ}
    (hstep : ∀ s s', I s → step s = some s' → I s')
    (hcost : ∀ s s', I s → step s = some s' → cost s' < cost s) (h : I s)
    (hn : cost s ≤ n) : Ends step n s := by
  induction n generalizing s with
  | zero =>
      cases hnext : step s with
      | none => exact hnext
      | some s' =>
          have hlt := hcost s s' h hnext
          omega
  | succ n ih =>
      cases hnext : step s with
      | none =>
          unfold Ends
          rwa [run_none hnext]
      | some s' =>
          have hlt := hcost s s' h hnext
          unfold Ends
          rw [run_some hnext]
          exact ih (hstep s s' h hnext) (by omega)

/-! ## Executions without a limit -/

variable (step) in
/-- Some number of turns leads from one state to the other. -/
def Leads : σ → σ → Prop := Relation.ReflTransGen fun s s' => step s = some s'

theorem Leads.refl (s : σ) : Leads step s s := Relation.ReflTransGen.refl

theorem Leads.single (h : step s = some s') : Leads step s s' :=
  Relation.ReflTransGen.single h

theorem Leads.trans {s'' : σ} (h : Leads step s s') (h' : Leads step s' s'') :
    Leads step s s'' :=
  Relation.ReflTransGen.trans h h'

theorem Leads.run_eq (h : Leads step s s') (hend : step s' = none)
    (hn : Ends step n s) : run step n s = s' := by
  induction h using Relation.ReflTransGen.head_induction_on generalizing n with
  | refl => exact run_none hend
  | head hstep _ ih =>
      cases n with
      | zero => simp [Ends, run, hstep] at hn
      | succ n =>
          unfold Ends at hn
          rw [run_some hstep] at hn ⊢
          exact ih hn

end FueledLoop

namespace Worklist

open FueledLoop

variable {α : Type} [DecidableEq α]

/-- One turn of the work-list loop. -/
def exploreStep (next : α → List α) :
    List α × List α → Option (List α × List α)
  | ([], _) => none
  | (x :: stack, seen) =>
      if x ∈ seen then some (stack, seen)
      else some (((next x).filter (· ∉ x :: seen)).reverse ++ stack, x :: seen)

variable {next : α → List α}

theorem exploreStep_seen {stack seen : List α} {x : α} (h : x ∈ seen) :
    exploreStep next (x :: stack, seen) = some (stack, seen) := by
  rw [exploreStep, if_pos h]

theorem exploreStep_new {stack seen : List α} {x : α} (h : x ∉ seen) :
    exploreStep next (x :: stack, seen) =
      some (((next x).filter (· ∉ x :: seen)).reverse ++ stack, x :: seen) := by
  rw [exploreStep, if_neg h]

theorem explore_ends {vertices : Finset α}
    (hnext : ∀ x ∈ vertices, ∀ y ∈ next x, y ∈ vertices) {n : ℕ}
    {stack seen : List α} (hstack : ∀ x ∈ stack, x ∈ vertices)
    (hn : exploreCost next vertices seen stack ≤ n) :
    Ends (exploreStep next) n (stack, seen) := by
  refine @ends_of_cost _ _ _ _ (fun s => ∀ x ∈ s.1, x ∈ vertices)
    (fun s => exploreCost next vertices s.2 s.1) ?_ ?_ hstack hn
  · rintro ⟨_ | ⟨x, stack⟩, seen⟩ s' hs hstep
    · simp [exploreStep] at hstep
    · have hrest : ∀ y ∈ stack, y ∈ vertices := fun y hy =>
        hs y (List.mem_cons_of_mem _ hy)
      by_cases hx : x ∈ seen
      · rw [exploreStep_seen hx] at hstep
        obtain rfl := Option.some.inj hstep
        exact hrest
      · rw [exploreStep_new hx] at hstep
        obtain rfl := Option.some.inj hstep
        intro y hy
        rcases List.mem_append.mp hy with hy | hy
        · have hmem := (List.mem_filter.mp (List.mem_reverse.mp hy)).1
          exact hnext x (hs x (by simp)) y hmem
        · exact hrest y hy
  · rintro ⟨_ | ⟨x, stack⟩, seen⟩ s' hs hstep
    · simp [exploreStep] at hstep
    · by_cases hx : x ∈ seen
      · rw [exploreStep_seen hx] at hstep
        obtain rfl := Option.some.inj hstep
        have hpop := exploreCost_pop next vertices seen stack x
        omega
      · rw [exploreStep_new hx] at hstep
        obtain rfl := Option.some.inj hstep
        exact exploreCost_push next stack (hs x (by simp)) hx

end Worklist
