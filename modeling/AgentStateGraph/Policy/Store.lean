import AgentStateGraph.Policy.Types
import AgentStateGraph.Repo.Transactions

/-!
# The policy store

A handle bound to a repository and a path prefix.  A write reads the head of
its ref, reads the active version, and lands what it made of it on that head
alone; where the ref had moved it starts over.
-/

namespace AgentStateGraph

variable {Id : Type} [Digest Id]

namespace Policies

/-- How many times a read-modify-write rebuilds on a moved head. -/
def MAX_CAS_RETRIES : ℕ := 32

/-- A runner of external evaluators; `none` where it fails. -/
abbrev ExternalEvaluator :=
  EvaluatorSource → Situation → String → String → Option Decision

structure PolicyStore where
  repo : Repository
  pre : String
  agentId : String
  /-- Whether `verify_policy` accepts; no verifier lets everything pass. -/
  verifier : Option (Policy → Bool)
  requireSigned : Bool
  externalEvaluators : Option (List (String × ExternalEvaluator))

/-- A store as `PolicyStore::new` makes it: one trailing slash is dropped. -/
def PolicyStore.new (repo : Repository) (pre agentId : String) : PolicyStore where
  repo := repo
  pre := if pre.toList.getLast? = some '/' then String.ofList pre.toList.dropLast
    else pre
  agentId := agentId
  verifier := none
  requireSigned := false
  externalEvaluators := none

/-- `signature_passes`: whether a version is taken into account by an
evaluation. -/
def PolicyStore.signaturePasses (self : PolicyStore) (p : Policy) : Bool :=
  match self.verifier with
  | none => true
  | some verify =>
      match p.signature with
      | none => !self.requireSigned
      | some _ => verify p

/-- `matches!(e, RepoError::Tree(_))`. -/
def isPathNotFound : RepoError Id → Bool
  | .tree _ => true
  | _ => false

def liftRepo {α : Type} : Except (RepoError Id) α → Except (PolicyError Id) α
  | .ok a => .ok a
  | .error e => .error (.repo e)

variable (codec : PolicyCodec)

/-- A document read as a policy; `what` names it where it is absent. -/
def decodePolicy (what : String) :
    Except (RepoError Id) Json → Except (PolicyError Id) Policy
  | .error e => .error (if isPathNotFound e then .notFound what else .repo e)
  | .ok value =>
      match codec.fromValue value with
      | .ok p => .ok p
      | .error e => .error (.serde e)

namespace PolicyStore

variable (self : PolicyStore)

/-! ## Reads -/

def loadActive (store : Storage Id) (refName normalized : String) :
    Except (PolicyError Id) Policy :=
  decodePolicy codec normalized
    (self.repo.getJson store refName (active self.pre normalized))

def loadHistorical (store : Storage Id) (refName normalized : String)
    (version : ℕ) : Except (PolicyError Id) Policy :=
  decodePolicy codec (normalized ++ "@" ++ Nat.repr version)
    (self.repo.getJson store refName (historical self.pre normalized version))

def «exists» (store : Storage Id) (refName normalized : String) :
    Except (PolicyError Id) Bool :=
  match self.loadActive codec store refName normalized with
  | .ok _ => .ok true
  | .error (.notFound _) => .ok false
  | .error e => .error e

/-- The active version, or a pinned one. -/
def get (store : Storage Id) (refName path : String) (version : Option ℕ) :
    Except (PolicyError Id) Policy := do
  let normalized ← normalize path
  match version with
  | none => self.loadActive codec store refName normalized
  | some v => do
      let current ← self.loadActive codec store refName normalized
      if current.version = v then .ok current
      else self.loadHistorical codec store refName normalized v

/-- The loop of `history`: `versions` has been collected down to version
`v`. -/
def walkBack (store : Storage Id) (refName normalized : String) :
    ℕ → List Policy → Except (PolicyError Id) (List Policy)
  | 0, versions => .ok versions
  | 1, versions => .ok versions
  | v + 2, versions => do
      let p ← self.loadHistorical codec store refName normalized (v + 1)
      walkBack store refName normalized (v + 1) (versions ++ [p])

/-- Every version, oldest first. -/
def history (store : Storage Id) (refName path : String) :
    Except (PolicyError Id) (List Policy) := do
  let normalized ← normalize path
  let current ← self.loadActive codec store refName normalized
  let versions ←
    self.walkBack codec store refName normalized current.version [current]
  .ok versions.reverse

/-! ## Writes -/

/-- A supersede that landed: whose, the head it was built on, and the handle
of the new version. -/
structure Supersession (W Id : Type) where
  caller : W
  parent : Id
  handle : String

variable {W : Type} (caller : W)

/-- The calls of a policy store. -/
abbrev Call (W Id α : Type) [Digest Id] :=
  RepoProgram Id (Supersession W Id) (Except (PolicyError Id) α)

def head (refName : String) : Call W Id Id :=
  RepoProgram.query fun store => liftRepo (self.repo.resolveRef store refName)

/-- `set_json_cas` on the active version. -/
def setActive (refName normalized : String) (head : Id) (value : Json)
    (category : IntentCategory) (description : String) :
    RepoProgram Id (Supersession W Id) (Except (RepoError Id) Id) :=
  RepoProgram.write (fun m store => self.repo.setJsonCas store refName head
    (active self.pre normalized) value
    (m.options self.agentId category description) m.fired m.now) fun _ => []

/-- What a compare-and-swap answered: done, once more, or an error. -/
def settle {α : Type} (done : α) (again : Call W Id α) :
    Except (RepoError Id) Id → Call W Id α
  | .ok _ => pure (.ok done)
  | .error .writeConflict => again
  | .error e => pure (.error (.repo e))

def proposeLoop (refName normalized handle : String) (value : Json) :
    ℕ → Call W Id String
  | 0 => pure (.error (.repo .writeConflict))
  | left + 1 =>
      (self.head refName).attempt fun head =>
        (RepoProgram.query fun store =>
          self.exists codec store refName normalized).attempt fun found =>
            if found then pure (.error (.alreadyExists normalized))
            else do
              let landed ← self.setActive refName normalized head value
                .policyPropose ("Propose policy " ++ handle)
              settle handle (proposeLoop refName normalized handle value left)
                landed

/-- `timestamp() == 0`: within the first second of the epoch. -/
def isUnset (time : ℤ) : Bool := time / 10 ^ 9 == 0

/-- A proposal as it is written. -/
def proposal (policy : Policy) (normalized : String)
    (proposedAt activeFrom : ℤ) : Policy :=
  { policy with
    path := normalized
    version := 1
    proposedBy := self.agentId
    proposedAt := proposedAt
    ratifiedBy := none
    ratifiedAt := none
    ratificationReasoning := none
    supersedes := none
    activeFrom := activeFrom }

def propose (refName : String) (policy : Policy) : Call W Id String :=
  match normalize policy.path with
  | .error e => pure (.error e)
  | .ok normalized => do
      let proposedAt ← RepoProgram.clock
      let activeFrom ←
        if isUnset policy.activeFrom then RepoProgram.clock
        else pure policy.activeFrom
      let policy := self.proposal policy normalized proposedAt activeFrom
      match codec.toValue policy with
      | .error e => pure (.error (.serde e))
      | .ok value =>
          self.proposeLoop codec refName normalized policy.handle value
            MAX_CAS_RETRIES

/-- Read, change and write back the active version.  `change` is given the
time. -/
def updateActive (refName normalized : String)
    (change : ℤ → Policy →
      Except (PolicyError Id) (Policy × IntentCategory × String)) :
    ℕ → Call W Id Unit
  | 0 => pure (.error (.repo .writeConflict))
  | left + 1 =>
      (self.head refName).attempt fun head =>
        (RepoProgram.query fun store =>
          self.loadActive codec store refName normalized).attempt
            fun policy => do
          let now ← RepoProgram.clock
          match change now policy with
          | .error e => pure (.error e)
          | .ok (policy, category, description) =>
              match codec.toValue policy with
              | .error e => pure (.error (.serde e))
              | .ok value => do
                  let landed ← self.setActive refName normalized head value
                    category description
                  settle () (updateActive refName normalized change left)
                    landed

/-- The change of `ratify`. -/
def ratification (ratifier reasoning : String) (now : ℤ) (policy : Policy) :
    Except (PolicyError Id) (Policy × IntentCategory × String) :=
  if policy.isRatified then .error (.alreadyRatified policy.handle)
  else
    .ok ({ policy with
      ratifiedBy := some ratifier
      ratifiedAt := some now
      ratificationReasoning := if reasoning = "" then none else some reasoning },
      .policyRatify,
      "Ratify policy " ++ policy.handle ++ " by " ++ ratifier)

def ratify (refName path ratifier reasoning : String) : Call W Id Unit :=
  if ratifier.toList.all isWhitespace then
    pure (.error (.invalid "ratifier required"))
  else
    match normalize path with
    | .error e => pure (.error e)
    | .ok normalized =>
        self.updateActive codec refName normalized
          (ratification ratifier reasoning) MAX_CAS_RETRIES

/-- The change of `set_signature`. -/
def signing (signature : PolicySignature) (_now : ℤ) (policy : Policy) :
    Except (PolicyError Id) (Policy × IntentCategory × String) :=
  .ok ({ policy with signature := some signature }, .policySign,
    "Sign policy " ++ policy.handle)

def setSignature (refName path : String) (signature : PolicySignature) :
    Call W Id Unit :=
  match normalize path with
  | .error e => pure (.error e)
  | .ok normalized =>
      self.updateActive codec refName normalized (signing signature)
        MAX_CAS_RETRIES

/-- The version that takes the place of `old`. -/
def successor (newPolicy old : Policy) (normalized : String)
    (proposedAt : ℤ) : Policy :=
  { newPolicy with
    path := normalized
    version := old.version + 1
    proposedBy := self.agentId
    proposedAt := proposedAt
    supersedes := some old.handle }

def setSpeculation (spec : Speculation Id) (path : String) (value : Json) :
    Call W Id (Speculation Id) := do
  let out ← RepoProgram.write (fun _ store => specSetJson store spec path value)
    fun _ => []
  pure (liftRepo out)

/-- Old version to history, new version to the active place, committed on the
head that was read. -/
def supersedeLoop (refName normalized : String) (newPolicy : Policy) :
    ℕ → Call W Id String
  | 0 => pure (.error (.repo .writeConflict))
  | left + 1 =>
      (self.head refName).attempt fun head =>
        (RepoProgram.query fun store =>
          self.loadActive codec store refName normalized).attempt fun old => do
          let proposedAt ← RepoProgram.clock
          let policy := self.successor newPolicy old normalized proposedAt
          match codec.toValue old, codec.toValue policy with
          | .error e, _ => pure (.error (.serde e))
          | .ok _, .error e => pure (.error (.serde e))
          | .ok oldValue, .ok newValue =>
              (RepoProgram.query fun store =>
                liftRepo (self.repo.speculate store refName
                  (some ("Supersede " ++ normalized)))).attempt fun spec =>
              (setSpeculation spec
                (historical self.pre normalized old.version)
                oldValue).attempt fun spec =>
              (setSpeculation spec (active self.pre normalized)
                newValue).attempt fun spec => do
                let landed ← RepoProgram.write (fun m store =>
                    self.repo.commitSpeculationCas store spec head
                      (m.options self.agentId .policySupersede ("Supersede " ++
                        old.handle ++ " → " ++ policy.handle)) (m.now 0))
                  fun _ => [⟨caller, head, policy.handle⟩]
                settle policy.handle
                  (supersedeLoop refName normalized policy left) landed

def supersede (refName path : String) (newPolicy : Policy) :
    Call W Id String :=
  match normalize path with
  | .error e => pure (.error e)
  | .ok normalized => do
      let activeFrom ←
        if isUnset newPolicy.activeFrom then RepoProgram.clock
        else pure newPolicy.activeFrom
      self.supersedeLoop codec caller refName normalized
        { newPolicy with activeFrom := activeFrom } MAX_CAS_RETRIES

end PolicyStore

/-- A write of a policy store. -/
inductive PolicyOp where
  | propose (policy : Policy)
  | ratify (path ratifier reasoning : String)
  | supersede (path : String) (newPolicy : Policy)
  | setSignature (path : String) (signature : PolicySignature)

/-- The path a write names. -/
def PolicyOp.path : PolicyOp → String
  | .propose policy => policy.path
  | .ratify path _ _ => path
  | .supersede path _ => path
  | .setSignature path _ => path

/-- What a write returns: the handle, where it has one. -/
def PolicyOp.program {W : Type} (self : PolicyStore) (caller : W)
    (refName : String) : PolicyOp → PolicyStore.Call W Id (Option String)
  | .propose policy =>
      (self.propose codec refName policy).attempt fun handle =>
        pure (.ok (some handle))
  | .ratify path ratifier reasoning =>
      (self.ratify codec refName path ratifier reasoning).attempt fun _ =>
        pure (.ok none)
  | .supersede path newPolicy =>
      (self.supersede codec caller refName path newPolicy).attempt
        fun handle => pure (.ok (some handle))
  | .setSignature path signature =>
      (self.setSignature codec refName path signature).attempt fun _ =>
        pure (.ok none)

end Policies

end AgentStateGraph
