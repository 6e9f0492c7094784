import AgentStateGraph.Lib.Programs

/-!
# Programs that keep a log

A history variable: each step also writes down what it did to the shared
state.  The log changes no step, so a run with it is the run without it.
-/

namespace Program

variable {E σ α β η : Type}

/-- The program, each of whose steps adds a note to the log. -/
def logged (note : σ → σ → η) : Program E σ α → Program E (σ × List η) α
  | .done a => .done a
  | .step act k => .step
      (fun e s => ((act e s.1).1, (act e s.1).2,
        s.2 ++ [note s.1 (act e s.1).2]))
      fun b => logged note (k b)

section

variable {C : Contract (σ × List η)} {note : σ → σ → η} {s : σ × List η}

theorem safe_logged_call {act : E → σ → α × σ} {f : α → Program E σ β}
    {post : β → σ × List η → Prop}
    (h : ∀ e t log, C.guarantee s (t, log) → C.invariant (t, log) →
      (C.invariant ((act e t).2, log ++ [note t (act e t).2]) ∧
        C.guarantee (t, log) ((act e t).2, log ++ [note t (act e t).2])) ∧
        Safe C post ((f (act e t).1).logged note)
          ((act e t).2, log ++ [note t (act e t).2])) :
    Safe C post ((call act >>= f).logged note) s := by
  rintro e ⟨t, log⟩ hst ht
  obtain ⟨⟨hinv, hguar⟩, hrest⟩ := h e t log hst ht
  exact ⟨hinv, hguar, hrest⟩

theorem Steady.logged {C : Contract σ} {D : Contract (σ × List η)}
    (hguar : ∀ s t, D.guarantee s t → C.guarantee s.1 t.1)
    (hinv : ∀ s, D.invariant s → C.invariant s.1)
    (hstep : ∀ s t log, C.guarantee s t → D.invariant (s, log) →
      D.invariant (t, log ++ [note s t]) ∧
        D.guarantee (s, log) (t, log ++ [note s t])) {p : Program E σ α}
    (h : Steady C p s.1) : Steady D (p.logged note) s := by
  induction p generalizing s with
  | done a => exact steady_pure a
  | step act k ih =>
      rintro e ⟨t, log⟩ hst ht
      obtain ⟨-, hown, hrest⟩ := h e t (hguar _ _ hst) (hinv _ ht)
      obtain ⟨hnext, hmore⟩ := hstep _ _ log hown ht
      exact ⟨hnext, hmore, ih _ hrest⟩

theorem Steady.logged_bind {p : Program E σ α} {f : α → Program E σ β}
    (hp : Steady C (p.logged note) s)
    (hf : ∀ a s, Steady C ((f a).logged note) s) :
    Steady C ((p >>= f).logged note) s := by
  induction p generalizing s with
  | done a => exact hf a s
  | step act k ih =>
      intro e t hst ht
      obtain ⟨hinv, hguar, hrest⟩ := hp e t hst ht
      exact ⟨hinv, hguar, ih _ hrest⟩

theorem Steady.logged_attempt {ε : Type} {p : Program E σ (Except ε α)}
    {f : α → Program E σ (Except ε β)} (hp : Steady C (p.logged note) s)
    (hf : ∀ a s, Steady C ((f a).logged note) s) :
    Steady C ((p.attempt f).logged note) s := by
  refine hp.logged_bind ?_
  intro r s
  cases r with
  | ok a => exact hf a s
  | error e => exact steady_pure _

end

/-! ## Runs -/

variable {W : Type} [DecidableEq W]

omit [DecidableEq W] in
/-- Every program keeps the log, which is empty at the start. -/
def Config.logged (note : W → σ → σ → η) (c : Config W E σ α) :
    Config W E (σ × List η) α :=
  ⟨(c.shared, []), fun w => (c.progs w).logged (note w)⟩

/-- A configuration with a log is one without. -/
def Config.Erases (note : W → σ → σ → η) (c : Config W E (σ × List η) α)
    (d : Config W E σ α) : Prop :=
  c.shared.1 = d.shared ∧ ∀ w, c.progs w = (d.progs w).logged (note w)

theorem Config.erases_advance {note : W → σ → σ → η}
    {c : Config W E (σ × List η) α} {d : Config W E σ α}
    (h : c.Erases note d) (w : W) (e : E) :
    (c.advance w e).Erases note (d.advance w e) := by
  have hprog := h.2 w
  unfold advance
  cases hd : d.progs w with
  | done a =>
      rw [hd, Program.logged] at hprog
      rw [hprog]
      exact h
  | step act k =>
      rw [hd, Program.logged] at hprog
      rw [hprog]
      refine ⟨by simp [h.1], fun w' => ?_⟩
      by_cases hw : w' = w
      · subst hw
        simp [h.1]
      · simpa [Function.update_of_ne hw] using h.2 w'

theorem Config.erases_run {note : W → σ → σ → η}
    {c : Config W E (σ × List η) α} {d : Config W E σ α}
    (h : c.Erases note d) (schedule : List (W × E)) :
    (c.run schedule).Erases note (d.run schedule) := by
  induction schedule generalizing c d with
  | nil => exact h
  | cons e es ih => exact ih (erases_advance h e.1 e.2)

theorem Config.logged_run_shared (note : W → σ → σ → η)
    (c : Config W E σ α) (schedule : List (W × E)) :
    ((c.logged note).run schedule).shared.1 = (c.run schedule).shared := by
  have hstart : (c.logged note).Erases note c := ⟨rfl, fun _ => rfl⟩
  exact (erases_run hstart schedule).1

end Program
