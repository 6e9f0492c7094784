import AgentStateGraph.Repo.Speculation

/-!
# The calls of agents

Every write an agent can make on a ref, as one type, so that a run is a list
of calls.
-/

namespace AgentStateGraph

variable {Id : Type} [Digest Id]

/-- An ordinary write of an agent. -/
inductive AgentWrite (Id : Type) where
  | set (refName path : String) (value : Object Id)
  | setJson (refName path : String) (value : Json) (fired : List Escalation)
  | setJsonCas (refName : String) (expectedHead : Id) (path : String)
      (value : Json) (fired : List Escalation)
  | delete (refName path : String)
  | merge (source target : String) (allowDeletions : Bool)
  | commitSpeculation (spec : Speculation Id)
  | commitSpeculationCas (spec : Speculation Id) (expectedHead : Id)

/-- A call: who writes what, on which handle and when. -/
structure AgentCall (Id : Type) where
  repo : Repository
  write : AgentWrite Id
  options : CommitOptions
  now : ℕ → ℤ

namespace AgentCall

variable (c : AgentCall Id)

def run (store : Storage Id) : Outcome Id Id :=
  match c.write with
  | .set refName path value =>
      c.repo.set store refName path value c.options c.now
  | .setJson refName path value fired =>
      c.repo.setJson store refName path value c.options fired c.now
  | .setJsonCas refName expectedHead path value fired =>
      c.repo.setJsonCas store refName expectedHead path value c.options fired
        c.now
  | .delete refName path => c.repo.delete store refName path c.options c.now
  | .merge source target allowDeletions =>
      c.repo.mergeChecked store source target c.options allowDeletions c.now
  | .commitSpeculation spec =>
      c.repo.commitSpeculation store spec c.options c.now
  | .commitSpeculationCas spec expectedHead =>
      c.repo.commitSpeculationCas store spec expectedHead c.options (c.now 0)

end AgentCall

end AgentStateGraph
