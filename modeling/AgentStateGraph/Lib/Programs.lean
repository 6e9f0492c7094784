import Mathlib

/-!
# Programs on a shared state

A program takes steps on a state that other programs change between them.  A
step sees an event of its environment, answers something and goes on with what
was answered.  `Safe` is the rely-guarantee reading of a program: whatever the
others do within the guarantee, each of its own steps keeps the invariant and
the guarantee, and what it returns is as asserted.
-/

/-- A program over events, a shared state and a result. -/
inductive Program (E σ α : Type) : Type 1 where
  | done (a : α)
  | step {β : Type} (act : E → σ → β × σ) (k : β → Program E σ α)

namespace Program

variable {E σ α β : Type}

/-- One step, and its answer. -/
def call (act : E → σ → α × σ) : Program E σ α := .step act .done

/-- A step that only reads. -/
def read (f : E → σ → α) : Program E σ α := call fun e s => (f e s, s)

protected def bind : Program E σ α → (α → Program E σ β) → Program E σ β
  | .done a, f => f a
  | .step act k, f => .step act fun b => (k b).bind f

instance : Monad (Program E σ) where
  pure := .done
  bind := Program.bind

theorem pure_bind (a : α) (f : α → Program E σ β) :
    (pure a : Program E σ α) >>= f = f a := rfl

/-- What a program that is done returned. -/
def returned? : Program E σ α → Option α
  | .done a => some a
  | .step _ _ => none

theorem eq_done_of_returned? {p : Program E σ α} {a : α}
    (h : p.returned? = some a) : p = .done a := by
  cases p with
  | done b => rw [Option.some.inj h]
  | step act k => contradiction

/-- The `?` operator: go on with what was answered, or return the error. -/
def attempt {ε : Type} (p : Program E σ (Except ε α))
    (f : α → Program E σ (Except ε β)) : Program E σ (Except ε β) :=
  p >>= fun
    | .ok a => f a
    | .error e => pure (.error e)

/-! ## Running alone -/

/-- The program runs to its end with nobody in between. -/
def alone (e : E) : Program E σ α → σ → α × σ
  | .done a, s => (a, s)
  | .step act k, s => alone e (k (act e s).1) (act e s).2

@[simp] theorem alone_pure (e : E) (a : α) (s : σ) :
    alone e (pure a : Program E σ α) s = (a, s) := rfl

@[simp] theorem alone_call (e : E) (act : E → σ → α × σ) (s : σ) :
    alone e (call act) s = act e s := rfl

@[simp] theorem alone_read (e : E) (f : E → σ → α) (s : σ) :
    alone e (read f) s = (f e s, s) := rfl

@[simp] theorem alone_bind (e : E) (p : Program E σ α)
    (f : α → Program E σ β) (s : σ) :
    alone e (p >>= f) s = alone e (f (alone e p s).1) (alone e p s).2 := by
  induction p generalizing s with
  | done a => rfl
  | step act k ih => exact ih _ _

/-! ## Safety -/

/-- What holds between steps, and what a step may do to the others. -/
structure Contract (σ : Type) where
  invariant : σ → Prop
  guarantee : σ → σ → Prop
  refl : ∀ s, guarantee s s
  trans : ∀ {s t u}, guarantee s t → guarantee t u → guarantee s u

variable (C : Contract σ)

/-- From a state on, the program keeps the contract and returns as asserted. -/
def Safe (post : α → σ → Prop) : Program E σ α → σ → Prop
  | .done a, s => ∀ t, C.guarantee s t → C.invariant t → post a t
  | .step act k, s => ∀ e t, C.guarantee s t → C.invariant t →
      C.invariant (act e t).2 ∧ C.guarantee t (act e t).2 ∧
        Safe post (k (act e t).1) (act e t).2

variable {C} {post : α → σ → Prop}

section

variable {p : Program E σ α} {s : σ} {f : α → Program E σ β}

theorem Safe.stable {t : σ} (h : Safe C post p s) (hst : C.guarantee s t) :
    Safe C post p t := by
  cases p with
  | done a => exact fun u htu hu => h u (C.trans hst htu) hu
  | step act k => exact fun e u htu hu => h e u (C.trans hst htu) hu

/-- A weaker assertion, of the states that can still come. -/
theorem Safe.imp {post' : α → σ → Prop} (h : Safe C post p s)
    (himp : ∀ a t, C.guarantee s t → C.invariant t → post a t → post' a t) :
    Safe C post' p s := by
  induction p generalizing s with
  | done a => exact fun t hst ht => himp a t hst ht (h t hst ht)
  | step act k ih =>
      intro e t hst ht
      obtain ⟨hinv, hguar, hrest⟩ := h e t hst ht
      refine ⟨hinv, hguar, ih _ hrest ?_⟩
      intro a u hu
      exact himp a u (C.trans hst (C.trans hguar hu))

theorem safe_pure {a : α}
    (h : ∀ t, C.guarantee s t → C.invariant t → post a t) :
    Safe C post (pure a : Program E σ α) s :=
  h

/-- A program followed by another. -/
theorem Safe.bind {mid : α → σ → Prop} {post : β → σ → Prop}
    (hp : Safe C mid p s)
    (hf : ∀ a t, C.invariant t → mid a t → Safe C post (f a) t)
    (hs : C.invariant s) : Safe C post (p >>= f) s := by
  induction p generalizing s with
  | done a => exact hf a s hs (hp s (C.refl s) hs)
  | step act k ih =>
      intro e t hst ht
      obtain ⟨hinv, hguar, hrest⟩ := hp e t hst ht
      exact ⟨hinv, hguar, ih _ hrest hinv⟩

/-- One step. -/
theorem safe_call {act : E → σ → α × σ} {post : β → σ → Prop}
    (h : ∀ e t, C.guarantee s t → C.invariant t →
      C.invariant (act e t).2 ∧ C.guarantee t (act e t).2 ∧
        Safe C post (f (act e t).1) (act e t).2) :
    Safe C post (call act >>= f) s :=
  h

theorem safe_read {g : E → σ → α} {post : β → σ → Prop}
    (h : ∀ e t, C.guarantee s t → C.invariant t → Safe C post (f (g e t)) t) :
    Safe C post (read g >>= f) s :=
  fun e t hst ht => ⟨ht, C.refl t, h e t hst ht⟩

theorem Safe.alone (h : Safe C post p s) (hs : C.invariant s) (e : E) :
    C.invariant (p.alone e s).2 ∧ C.guarantee s (p.alone e s).2 := by
  induction p generalizing s with
  | done a => exact ⟨hs, C.refl s⟩
  | step act k ih =>
      obtain ⟨hinv, hguar, hrest⟩ := h e s (C.refl s) hs
      obtain ⟨hlast, hafter⟩ := ih _ hrest hinv
      exact ⟨hlast, C.trans hguar hafter⟩

end

/-! ## Programs that keep the contract -/

section Steady

variable {s : σ}

/-- The program keeps the contract, whatever it returns. -/
abbrev Steady (C : Contract σ) (p : Program E σ α) (s : σ) : Prop :=
  Safe C (fun _ _ => True) p s

theorem steady_pure (a : α) : Steady C (pure a : Program E σ α) s :=
  safe_pure fun _ _ _ => trivial

theorem Steady.bind {p : Program E σ α} {f : α → Program E σ β}
    (hp : Steady C p s) (hf : ∀ a s, Steady C (f a) s) :
    Steady C (p >>= f) s := by
  induction p generalizing s with
  | done a => exact hf a s
  | step act k ih =>
      intro e t hst ht
      obtain ⟨hinv, hguar, hrest⟩ := hp e t hst ht
      exact ⟨hinv, hguar, ih _ hrest⟩

theorem Steady.attempt {ε : Type} {p : Program E σ (Except ε α)}
    {f : α → Program E σ (Except ε β)} (hp : Steady C p s)
    (hf : ∀ a s, Steady C (f a) s) : Steady C (p.attempt f) s := by
  refine hp.bind ?_
  intro r s
  cases r with
  | ok a => exact hf a s
  | error e => exact steady_pure _

theorem steady_call {act : E → σ → α × σ}
    (h : ∀ e t, C.invariant t →
      C.invariant (act e t).2 ∧ C.guarantee t (act e t).2) :
    Steady C (call act) s :=
  fun e t _ ht => ⟨(h e t ht).1, (h e t ht).2, steady_pure _⟩

theorem steady_read (f : E → σ → α) : Steady C (read f) s :=
  steady_call fun _ t ht => ⟨ht, C.refl t⟩

end Steady

/-! ## Runs -/

/-- The shared state, and where each program is. -/
structure Config (W E σ α : Type) where
  shared : σ
  progs : W → Program E σ α

variable {W : Type} [DecidableEq W]

/-- One program takes a step; one that is done does nothing. -/
def Config.advance (c : Config W E σ α) (w : W) (e : E) : Config W E σ α :=
  match c.progs w with
  | .done _ => c
  | .step act k =>
      ⟨(act e c.shared).2,
        Function.update c.progs w (k (act e c.shared).1)⟩

/-- A schedule says who moves when, and on which event. -/
def Config.run (c : Config W E σ α) (schedule : List (W × E)) :
    Config W E σ α :=
  schedule.foldl (fun c e => c.advance e.1 e.2) c

/-- The invariant holds, and every program is safe. -/
def Config.Holds (C : Contract σ) (post : W → α → σ → Prop)
    (c : Config W E σ α) : Prop :=
  C.invariant c.shared ∧ ∀ w, Safe C (post w) (c.progs w) c.shared

variable {post : W → α → σ → Prop} {c : Config W E σ α}

theorem Config.holds_advance (h : c.Holds C post) (w : W) (e : E) :
    (c.advance w e).Holds C post ∧
      C.guarantee c.shared (c.advance w e).shared := by
  have hw := h.2 w
  unfold advance
  cases hprog : c.progs w with
  | done a => exact ⟨h, C.refl _⟩
  | step act k =>
      rw [hprog] at hw
      obtain ⟨hinv, hguar, hrest⟩ := hw e c.shared (C.refl _) h.1
      refine ⟨⟨hinv, ?_⟩, hguar⟩
      intro w'
      by_cases hsame : w' = w
      · subst hsame
        simpa using hrest
      · simpa [Function.update_of_ne hsame] using (h.2 w').stable hguar

/-- Whatever the schedule, the invariant holds at its end and what the
programs return is as asserted. -/
theorem Config.holds_run (h : c.Holds C post) (schedule : List (W × E)) :
    (c.run schedule).Holds C post ∧
      C.guarantee c.shared (c.run schedule).shared := by
  induction schedule generalizing c with
  | nil => exact ⟨h, C.refl _⟩
  | cons e es ih =>
      obtain ⟨hnext, hguar⟩ := c.holds_advance h e.1 e.2
      obtain ⟨hlast, hrest⟩ := ih hnext
      exact ⟨hlast, C.trans hguar hrest⟩

omit [DecidableEq W] in
/-- What a program that is done returned is as asserted. -/
theorem Config.Holds.returned (h : c.Holds C post) {w : W} {a : α}
    (hdone : c.progs w = .done a) : post w a c.shared := by
  have hw := h.2 w
  rw [hdone] at hw
  exact hw c.shared (C.refl _) h.1

end Program
