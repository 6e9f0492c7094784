import Mathlib

/-!
# Agents on a shared state

Several agents, each with a local state, take turns on one shared state.  A
schedule says who moves when, so quantifying over schedules quantifies over
interleavings.  `Assertions` is the rely-guarantee rule: what each agent
asserts locally is kept by its own moves, and is stable under what any move
may do to the shared state.
-/

namespace RelyGuarantee

variable {W E σ π : Type}

/-- Each agent's move, on an event, over the shared state and its own. -/
structure Machine (W E σ π : Type) where
  step : W → E → σ → π → σ × π

structure Config (W σ π : Type) where
  shared : σ
  loc : W → π

variable [DecidableEq W]

namespace Machine

/-- One agent moves. -/
def advance (m : Machine W E σ π) (c : Config W σ π) (e : W × E) :
    Config W σ π :=
  let r := m.step e.1 e.2 c.shared (c.loc e.1)
  ⟨r.1, Function.update c.loc e.1 r.2⟩

/-- A whole schedule. -/
def run (m : Machine W E σ π) (c : Config W σ π) (schedule : List (W × E)) :
    Config W σ π :=
  schedule.foldl m.advance c

theorem run_append (m : Machine W E σ π) (c : Config W σ π)
    (s t : List (W × E)) : m.run c (s ++ t) = m.run (m.run c s) t :=
  List.foldl_append

end Machine

/-- What holds of the shared state, what each agent asserts, and what a move
guarantees to the others.  A move is only judged when its event is allowed. -/
structure Assertions (m : Machine W E σ π) where
  allowed : W → E → σ → π → Prop
  shared : σ → Prop
  loc : W → σ → π → Prop
  guarantee : σ → σ → Prop
  guarantee_refl : ∀ s, guarantee s s
  guarantee_trans : ∀ s t u, guarantee s t → guarantee t u → guarantee s u
  step : ∀ w e s p, allowed w e s p → shared s → loc w s p →
    shared (m.step w e s p).1 ∧ loc w (m.step w e s p).1 (m.step w e s p).2 ∧
      guarantee s (m.step w e s p).1
  stable : ∀ w s t p, guarantee s t → loc w s p → loc w t p

namespace Assertions

variable {m : Machine W E σ π} (A : Assertions m)

/-- The assertions hold of a configuration. -/
def Holds (c : Config W σ π) : Prop :=
  A.shared c.shared ∧ ∀ w, A.loc w c.shared (c.loc w)

/-- Every event of the schedule is allowed where it happens. -/
def Allowed (c : Config W σ π) : List (W × E) → Prop
  | [] => True
  | e :: es =>
      A.allowed e.1 e.2 c.shared (c.loc e.1) ∧ Allowed (m.advance c e) es

theorem holds_advance {c : Config W σ π} {e : W × E} (h : A.Holds c)
    (hallowed : A.allowed e.1 e.2 c.shared (c.loc e.1)) :
    A.Holds (m.advance c e) ∧ A.guarantee c.shared (m.advance c e).shared := by
  obtain ⟨hshared, hown, hguar⟩ :=
    A.step e.1 e.2 c.shared (c.loc e.1) hallowed h.1 (h.2 e.1)
  refine ⟨⟨hshared, ?_⟩, hguar⟩
  intro w
  by_cases hw : w = e.1
  · subst hw
    simpa [Machine.advance] using hown
  · have hstable := A.stable w _ _ (c.loc w) hguar (h.2 w)
    simpa [Machine.advance, Function.update_of_ne hw] using hstable

theorem holds_run {c : Config W σ π} {schedule : List (W × E)} (h : A.Holds c)
    (hallowed : A.Allowed c schedule) :
    A.Holds (m.run c schedule) ∧
      A.guarantee c.shared (m.run c schedule).shared := by
  induction schedule generalizing c with
  | nil => exact ⟨h, A.guarantee_refl _⟩
  | cons e es ih =>
      obtain ⟨hnext, hguar⟩ := A.holds_advance h hallowed.1
      obtain ⟨hlast, hrest⟩ := ih hnext hallowed.2
      exact ⟨hlast, A.guarantee_trans _ _ _ hguar hrest⟩

theorem allowed_append {c : Config W σ π} {before after : List (W × E)} :
    A.Allowed c (before ++ after) ↔
      A.Allowed c before ∧ A.Allowed (m.run c before) after := by
  induction before generalizing c with
  | nil => simp [Allowed, Machine.run]
  | cons e es ih =>
      simp only [List.cons_append, Allowed, ih, Machine.run, List.foldl_cons,
        and_assoc]

theorem allowed_of_forall (h : ∀ w e s p, A.allowed w e s p)
    (c : Config W σ π) (schedule : List (W × E)) : A.Allowed c schedule := by
  induction schedule generalizing c with
  | nil => trivial
  | cons e es ih => exact ⟨h _ _ _ _, ih _⟩

instance decidableAllowed [∀ w e s p, Decidable (A.allowed w e s p)]
    (c : Config W σ π) : ∀ schedule, Decidable (A.Allowed c schedule)
  | [] => isTrue trivial
  | e :: es =>
      have := decidableAllowed (m.advance c e) es
      inferInstanceAs (Decidable (_ ∧ _))

end Assertions

end RelyGuarantee
