import AgentStateGraph.Core.Object

/-!
# Commits and content addresses

A commit records a state root, its parents and its provenance; its id is the
digest of every other field.  BLAKE3 itself lies outside this development.
`Digest` states what the repository relies on: the digest has no collisions,
and a digest names nothing that (transitively) contains it.  The second is
what the source means by content addressing making cycles impossible; it is
carried as a rank that drops from a container to its children and from a
commit to its parents.
-/

namespace AgentStateGraph

/-- High-level categories for intents. -/
inductive IntentCategory where
  | explore | refine | fix | rollback | checkpoint | merge | migrate | plan
  | taint | untaint | quarantine | unquarantine | watch | unwatch
  | policyPropose | policyRatify | policySupersede | policySign
  | custom (name : String)
deriving DecidableEq

/-- Why a state change is being made.  Its lifecycle record is part of
`CommitOptions.provenance`. -/
structure Intent where
  id : String
  category : IntentCategory
  description : String
  tags : List String
  parentIntent : Option String
deriving DecidableEq

/-- Options for creating a commit.  `provenance` is the serialized authority,
intent lifecycle and tool calls: no function here reads them, they only enter
the commit's digest. -/
structure CommitOptions where
  agentId : String
  intent : Intent
  reasoning : Option String
  confidence : Option F64
  provenance : String
deriving DecidableEq

/-- Every field of a commit but its id: what the id is the digest of. -/
structure CommitHashInput (Id : Type) where
  stateRoot : Id
  parents : List Id
  timestamp : ℤ
  options : CommitOptions
deriving DecidableEq

/-- Identifiers that are digests of objects and commits. -/
class Digest (Id : Type) extends LinearOrder Id where
  /-- `Object::id`: the digest of the canonical bytes. -/
  object : Object Id → Id
  /-- `Commit::compute_id`. -/
  commit : CommitHashInput Id → Id
  object_injective : Function.Injective object
  commit_injective : Function.Injective commit
  /-- How deep the content behind a digest can nest. -/
  rank : Id → ℕ
  rank_child : ∀ o : Object Id, ∀ c ∈ o.childIds, rank c < rank (object o)
  rank_parent : ∀ b : CommitHashInput Id, ∀ p ∈ b.parents,
    rank p < rank (commit b)
  /-- `ObjectId::to_hex`. -/
  toHex : Id → String
  /-- The id that 64 hex digits write. -/
  ofHex : String → Option Id

variable {Id : Type} [Digest Id]

/-- The order of the identifiers, under one name wherever a map needs it. -/
instance (priority := 1100) Digest.transCmp :
    Std.TransCmp (compare : Id → Id → Ordering) := inferInstance

/-- Equality of identifiers is lawful, likewise under one name. -/
instance (priority := 1100) Digest.lawfulBEq : LawfulBEq Id := inferInstance

/-- `Display for ObjectId`. -/
def displayId (id : Id) : String := "sg_" ++ Digest.toHex id

/-- The content address of an object. -/
def Object.id (o : Object Id) : Id := Digest.object o

/-- An immutable record that links a state tree to its history.  Its id is the
digest of everything else. -/
structure Commit (Id : Type) [Digest Id] extends CommitHashInput Id where
  id : Id
  id_eq : id = Digest.commit toCommitHashInput
deriving DecidableEq

theorem Commit.id_injective : Function.Injective (Commit.id : Commit Id → Id) := by
  rintro ⟨a, i, ha⟩ ⟨b, j, hb⟩ h
  simp only at h
  have hab : a = b := Digest.commit_injective (ha.symm.trans (h.trans hb))
  subst hab
  subst h
  rfl

theorem Commit.rank_lt_of_mem_parents {c : Commit Id} {p : Id}
    (h : p ∈ c.parents) : Digest.rank p < Digest.rank c.id := by
  rw [c.id_eq]
  exact Digest.rank_parent c.toCommitHashInput p h

theorem Object.id_injective : Function.Injective (Object.id : Object Id → Id) :=
  Digest.object_injective

@[simp] theorem Object.id_inj {a b : Object Id} : a.id = b.id ↔ a = b :=
  Object.id_injective.eq_iff

theorem Object.rank_lt_of_mem_childIds {o : Object Id} {c : Id}
    (h : c ∈ o.childIds) : Digest.rank c < Digest.rank o.id :=
  Digest.rank_child o c h

/-! ## Building commits -/

def MAX_DESCRIPTION_LEN : ℕ := 1024

def MAX_REASONING_LEN : ℕ := 8192

def MAX_AGENT_ID_LEN : ℕ := 128

def truncateChars (s : String) (max : ℕ) : String :=
  if s.toList.length ≤ max then s else String.ofList (s.toList.take max)

/-- What `CommitBuilder` makes of the recorded provenance: texts are cut to
their caps and the confidence is clamped.  The cap on the number of tool calls
is inside the serialized provenance. -/
def CommitOptions.capped (options : CommitOptions) : CommitOptions where
  agentId := truncateChars options.agentId MAX_AGENT_ID_LEN
  intent :=
    { options.intent with
      description :=
        truncateChars options.intent.description MAX_DESCRIPTION_LEN }
  reasoning := options.reasoning.map (truncateChars · MAX_REASONING_LEN)
  confidence := options.confidence.map F64.clampUnit
  provenance := options.provenance

/-- `CommitBuilder::build`, at the time `now`. -/
def CommitBuilder.build (stateRoot : Id) (parents : List Id)
    (options : CommitOptions) (now : ℤ) : Commit Id :=
  let content : CommitHashInput Id :=
    { stateRoot := stateRoot, parents := parents, timestamp := now,
      options := options.capped }
  { content with id := Digest.commit content, id_eq := rfl }

section Build

variable (stateRoot : Id) (parents : List Id) (options : CommitOptions)
  (now : ℤ)

@[simp] theorem CommitBuilder.build_stateRoot :
    (CommitBuilder.build stateRoot parents options now).stateRoot =
      stateRoot := rfl

@[simp] theorem CommitBuilder.build_parents :
    (CommitBuilder.build stateRoot parents options now).parents =
      parents := rfl

@[simp] theorem CommitBuilder.build_timestamp :
    (CommitBuilder.build stateRoot parents options now).timestamp =
      now := rfl

end Build

end AgentStateGraph
