import AgentStateGraph.Lib.Programs
import AgentStateGraph.Repo.Documents

/-!
# Programs of repository calls

A store of records works on a repository that other stores share.  Each call
of the repository is one step; what lies between two calls may be done by
anybody.
-/

namespace AgentStateGraph

variable {Id τ : Type} [Digest Id]

/-- What a step takes from its environment: the clock, what is drawn for the
intent of a commit, and the watches that a write fires. -/
structure Moment where
  now : ℕ → ℤ
  intentId : String
  provenance : String
  fired : List Escalation

/-- `CommitOptions::new`. -/
def Moment.options (m : Moment) (agentId : String) (category : IntentCategory)
    (description : String) : CommitOptions where
  agentId := agentId
  intent := ⟨m.intentId, category, description, [], none⟩
  reasoning := none
  confidence := none
  provenance := m.provenance

/-- The store, and a record of what landed. -/
structure Traced (Id τ : Type) [Digest Id] where
  store : Storage Id
  trace : List τ

abbrev RepoProgram (Id τ α : Type) [Digest Id] := Program Moment (Traced Id τ) α

namespace RepoProgram

/-- `Utc::now`. -/
def clock : RepoProgram Id τ ℤ := .read fun m _ => m.now 0

/-- A read of the store. -/
def query {α : Type} (f : Storage Id → α) : RepoProgram Id τ α :=
  .read fun _ s => f s.store

/-- What is recorded of a result. -/
def noted {α : Type} (note : α → List τ) : Except (RepoError Id) α → List τ
  | .ok a => note a
  | .error _ => []

/-- A write, and what is recorded when it succeeds. -/
def write {α : Type} (f : Moment → Storage Id → Outcome Id α)
    (note : α → List τ) : RepoProgram Id τ (Except (RepoError Id) α) :=
  .call fun m s =>
    ((f m s.store).1, ⟨(f m s.store).2, s.trace ++ noted note (f m s.store).1⟩)

omit [Digest Id] in
@[simp] theorem noted_nil {α : Type} (r : Except (RepoError Id) α) :
    noted (fun _ => ([] : List τ)) r = [] := by
  cases r <;> rfl

/-! ## Safety -/

section Safety

open Program

variable {C : Contract (Traced Id τ)} {α β ε : Type}
  {post : Except ε β → Traced Id τ → Prop} {s : Traced Id τ}

/-- A read, then what follows it. -/
theorem safe_query_attempt {f : Storage Id → Except ε α}
    {g : α → RepoProgram Id τ (Except ε β)} (herr : ∀ e t, post (.error e) t)
    (h : ∀ t, C.guarantee s t → C.invariant t → ∀ a, f t.store = .ok a →
      Safe C post (g a) t) :
    Safe C post ((query f).attempt g) s := by
  refine safe_read fun m t hst ht => ?_
  cases hf : f t.store with
  | ok a => exact h t hst ht a hf
  | error e => exact safe_pure fun u _ _ => herr e u

theorem safe_write {f : Moment → Storage Id → Outcome Id α}
    {note : α → List τ}
    {k : Except (RepoError Id) α → RepoProgram Id τ (Except ε β)}
    (h : ∀ m t, C.guarantee s t → C.invariant t → ∀ out, f m t.store = out →
      (C.invariant ⟨out.2, t.trace ++ noted note out.1⟩ ∧
        C.guarantee t ⟨out.2, t.trace ++ noted note out.1⟩) ∧
        Safe C post (k out.1) ⟨out.2, t.trace ++ noted note out.1⟩) :
    Safe C post (write f note >>= k) s := by
  refine safe_call fun m t hst ht => ?_
  obtain ⟨⟨hinv, hguar⟩, hrest⟩ := h m t hst ht _ rfl
  exact ⟨hinv, hguar, hrest⟩

theorem safe_attempt {p : RepoProgram Id τ (Except ε α)}
    {f : α → RepoProgram Id τ (Except ε β)}
    {mid : Except ε α → Traced Id τ → Prop} (herr : ∀ e t, post (.error e) t)
    (hp : Safe C mid p s)
    (hf : ∀ a t, C.invariant t → mid (.ok a) t → Safe C post (f a) t)
    (hs : C.invariant s) : Safe C post (p.attempt f) s := by
  refine Safe.bind hp ?_ hs
  intro r t ht hmid
  cases r with
  | ok a => exact hf a t ht hmid
  | error e => exact safe_pure fun u _ _ => herr e u

end Safety

end RepoProgram

end AgentStateGraph
