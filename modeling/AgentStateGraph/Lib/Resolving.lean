import Mathlib

/-!
# Programs that look ids up

A program that reads only through a resolver it is given, one id after another.
Whatever a resolver notes between its answers, the program goes the way the
answers lead it: the run with a resolver that keeps a state is the run with
the plain one, and the state is that after the ids that run asked for.
-/

/-- A program over ids and what they resolve to.  It gives up when its fuel
is used. -/
inductive Resolving (ι ρ α : Type) where
  | done (a : α)
  | outOfFuel
  | ask (i : ι) (k : Option ρ → Resolving ι ρ α)

namespace Resolving

variable {ι ρ α β σ : Type}

/-- `resolver.resolve(i)`. -/
def resolve (i : ι) : Resolving ι ρ (Option ρ) := .ask i .done

protected def bind : Resolving ι ρ α → (α → Resolving ι ρ β) → Resolving ι ρ β
  | .done a, f => f a
  | .outOfFuel, _ => .outOfFuel
  | .ask i k, f => .ask i fun r => (k r).bind f

instance : Monad (Resolving ι ρ) where
  pure := .done
  bind := Resolving.bind

/-! ## Runs -/

/-- The run with a resolver that keeps a state. -/
def runWith (resolver : σ → ι → Option ρ × σ) :
    Resolving ι ρ α → σ → Option α × σ
  | .done a, s => (some a, s)
  | .outOfFuel, s => (none, s)
  | .ask i k, s => runWith resolver (k (resolver s i).1) (resolver s i).2

variable (resolver : ι → Option ρ)

/-- The run with a plain resolver. -/
def run : Resolving ι ρ α → Option α
  | .done a => some a
  | .outOfFuel => none
  | .ask i k => run (k (resolver i))

/-- The ids that run asks for, in order. -/
def asked : Resolving ι ρ α → List ι
  | .done _ => []
  | .outOfFuel => []
  | .ask i k => i :: asked (k (resolver i))

@[simp] theorem run_pure (a : α) :
    run resolver (pure a : Resolving ι ρ α) = some a := rfl

@[simp] theorem asked_pure (a : α) :
    asked resolver (pure a : Resolving ι ρ α) = [] := rfl

@[simp] theorem run_resolve (i : ι) :
    run resolver (resolve i) = some (resolver i) := rfl

@[simp] theorem asked_resolve (i : ι) : asked resolver (resolve i) = [i] := rfl

theorem run_bind (p : Resolving ι ρ α) (f : α → Resolving ι ρ β) :
    run resolver (p >>= f) = (run resolver p).bind fun a => run resolver (f a) := by
  induction p with
  | done a => rfl
  | outOfFuel => rfl
  | ask i k ih => exact ih (resolver i)

theorem asked_bind {p : Resolving ι ρ α} {a : α} (h : run resolver p = some a)
    (f : α → Resolving ι ρ β) :
    asked resolver (p >>= f) = asked resolver p ++ asked resolver (f a) := by
  induction p with
  | done b =>
      obtain rfl := Option.some.inj h
      rfl
  | outOfFuel => cases h
  | ask i k ih => exact congrArg (i :: ·) (ih (resolver i) h)

variable {resolver}

/-- A state kept between the answers changes neither the result nor what is
asked for. -/
theorem runWith_eq {tracking : σ → ι → Option ρ × σ}
    (h : ∀ s i, (tracking s i).1 = resolver i) (p : Resolving ι ρ α) (s : σ) :
    runWith tracking p s =
      (run resolver p,
        (asked resolver p).foldl (fun s i => (tracking s i).2) s) := by
  induction p generalizing s with
  | done a => rfl
  | outOfFuel => rfl
  | ask i k ih =>
      rw [runWith, h, ih]
      rfl

/-! ## Runs that find everything -/

/-- The run returns `a`, and every id it asks for resolves. -/
structure Finds (resolver : ι → Option ρ) (p : Resolving ι ρ α) (a : α) :
    Prop where
  returns : run resolver p = some a
  found : ∀ i ∈ asked resolver p, (resolver i).isSome = true

theorem finds_pure (a : α) : Finds resolver (pure a : Resolving ι ρ α) a :=
  ⟨rfl, by simp⟩

theorem finds_resolve {i : ι} {r : ρ} (h : resolver i = some r) :
    Finds resolver (resolve i) (some r) :=
  ⟨by rw [run_resolve, h], by simp [h]⟩

theorem Finds.bind {p : Resolving ι ρ α} {a : α} {f : α → Resolving ι ρ β}
    {b : β} (hp : Finds resolver p a) (hf : Finds resolver (f a) b) :
    Finds resolver (p >>= f) b where
  returns := by rw [run_bind, hp.returns, Option.bind_some, hf.returns]
  found i hi := by
    rw [asked_bind resolver hp.returns] at hi
    rcases List.mem_append.mp hi with hi | hi
    · exact hp.found i hi
    · exact hf.found i hi

end Resolving
