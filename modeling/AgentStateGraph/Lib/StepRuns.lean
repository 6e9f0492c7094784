import Mathlib

/-!
# Runs of a step function

A run applies a step function to one call after another.  A property of every
state along a run comes down to one of each step: what a step needs of the
state it starts from, and an invariant that such steps keep.
-/

namespace StepRuns

variable {σ α : Type} (step : σ → α → σ) (start : σ)

def run (ops : List α) : σ := ops.foldl step start

/-- Every step of the run is as required in the state it starts from. -/
def Throughout (ops : List α) (P : σ → α → Prop) : Prop :=
  ∀ before op after, ops = before ++ op :: after → P (run step start before) op

variable {step start}

theorem run_append (ops : List α) (op : α) :
    run step start (ops ++ [op]) = step (run step start ops) op := by
  simp [run]

section

variable {P : σ → α → Prop} {ops : List α}

theorem throughout_nil : Throughout step start [] P := by
  intro before op after heq
  simp at heq

theorem throughout_of_forall (h : ∀ op ∈ ops, ∀ s, P s op) :
    Throughout step start ops P := by
  intro before op after heq
  exact h op (by simp [heq]) _

theorem throughout_cons_iff {op : α} :
    Throughout step start (op :: ops) P ↔
      P start op ∧ Throughout step (step start op) ops P := by
  constructor
  · intro h
    refine ⟨h [] op ops rfl, ?_⟩
    intro before op' after heq
    exact h (op :: before) op' after (by simp [heq])
  · rintro ⟨hfirst, hrest⟩ before op' after heq
    cases before with
    | nil =>
        obtain ⟨rfl, -⟩ := List.cons.inj heq
        exact hfirst
    | cons first before =>
        obtain ⟨rfl, hops⟩ := List.cons.inj heq
        exact hrest before op' after hops

theorem throughout_append_iff {op : α} :
    Throughout step start (ops ++ [op]) P ↔
      Throughout step start ops P ∧ P (run step start ops) op := by
  constructor
  · intro h
    refine ⟨?_, h ops op [] rfl⟩
    intro before op' after heq
    exact h before op' (after ++ [op]) (by simp [heq])
  · rintro ⟨hops, hlast⟩ before op' after heq
    rcases List.eq_nil_or_concat after with rfl | ⟨after, last, rfl⟩
    · obtain ⟨rfl, hlist⟩ := List.append_inj' heq rfl
      obtain rfl := List.singleton_inj.mp hlist
      exact hlast
    · have hcut : ops ++ [op] = (before ++ op' :: after) ++ [last] := by
        simpa using heq
      obtain ⟨hops', -⟩ := List.append_inj' hcut rfl
      exact hops before op' after hops'

theorem throughout_and_iff {Q : σ → α → Prop} :
    (Throughout step start ops fun s op => P s op ∧ Q s op) ↔
      Throughout step start ops P ∧ Throughout step start ops Q := by
  constructor
  · intro h
    exact ⟨fun before op after heq => (h before op after heq).1,
      fun before op after heq => (h before op after heq).2⟩
  · rintro ⟨hP, hQ⟩ before op after heq
    exact ⟨hP before op after heq, hQ before op after heq⟩

theorem forall_prefix_iff {Q : σ → Prop} :
    (∀ before, before <+: ops → Q (run step start before)) ↔
      Q start ∧ Throughout step start ops fun s op => Q (step s op) := by
  constructor
  · intro h
    refine ⟨h [] (List.nil_prefix), ?_⟩
    intro before op after heq
    have hpre : before ++ [op] <+: ops := ⟨after, by simp [heq]⟩
    have hQ := h _ hpre
    rwa [run_append] at hQ
  · rintro ⟨hstart, h⟩ before ⟨rest, rfl⟩
    rcases List.eq_nil_or_concat before with rfl | ⟨before, op, rfl⟩
    · exact hstart
    · rw [List.concat_eq_append, run_append]
      exact h before op rest (by simp)

end

section Invariant

variable {I : σ → Prop} {A P : σ → α → Prop}

theorem invariant_run (hstart : I start)
    (hstep : ∀ s op, I s → A s op → I (step s op)) {ops : List α}
    (h : Throughout step start ops A) : I (run step start ops) := by
  induction ops using List.reverseRecOn with
  | nil => exact hstart
  | append_singleton ops op ih =>
      obtain ⟨hops, hlast⟩ := throughout_append_iff.mp h
      rw [run_append]
      exact hstep _ _ (ih hops) hlast

theorem invariant_prefix (hstart : I start)
    (hstep : ∀ s op, I s → A s op → I (step s op)) {ops before : List α}
    (h : Throughout step start ops A) (hpre : before <+: ops) :
    I (run step start before) := by
  obtain ⟨rest, rfl⟩ := hpre
  refine invariant_run hstart hstep ?_
  rintro first op after rfl
  exact h first op (after ++ rest) (by simp)

/-- Where the invariant holds, `P` and `A` say the same of a step, and steps
as in `A` keep the invariant: then they say the same of a run. -/
theorem throughout_congr (hstart : I start)
    (hiff : ∀ s op, I s → (P s op ↔ A s op))
    (hstep : ∀ s op, I s → A s op → I (step s op)) (ops : List α) :
    Throughout step start ops P ↔ Throughout step start ops A := by
  induction ops using List.reverseRecOn with
  | nil => exact ⟨fun _ => throughout_nil, fun _ => throughout_nil⟩
  | append_singleton ops op ih =>
      rw [throughout_append_iff, throughout_append_iff, ih]
      refine and_congr_right fun hops => ?_
      exact hiff _ _ (invariant_run hstart hstep hops)

end Invariant

end StepRuns
