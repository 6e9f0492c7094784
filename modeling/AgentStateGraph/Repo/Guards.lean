import AgentStateGraph.Repo.Refs

/-!
# The guards in front of a write

A write names one path.  The meta guard refuses paths in the reserved subtree
unless the commit is a migration; the taint hook refuses paths that carry an
active blocking taint or a quarantine.
-/

namespace AgentStateGraph

variable {Id : Type} [Digest Id]

/-! ## Reserved paths -/

def META_PATH_PREFIX : String := "/_meta"

def META_SECRET_PREFIX : String := "/_meta/_secret"

def pathIsReserved (path : String) : Bool := isAtOrUnder META_PATH_PREFIX path

def pathIsSecret (path : String) : Bool := isAtOrUnder META_SECRET_PREFIX path

/-- Commits that make or resolve a taint bypass the taint hook. -/
def isTaintLifecycleIntent : IntentCategory → Bool
  | .taint | .untaint | .quarantine | .unquarantine | .watch | .unwatch => true
  | _ => false

def checkMetaGuard (path : String) (intent : Intent) :
    Except (RepoError Id) Unit :=
  if pathIsReserved path && intent.category ≠ .migrate then
    .error (.reservedPath path)
  else .ok ()

/-! ## The taint hook -/

def Taint.isActive (t : Taint) (now : ℤ) : Bool :=
  t.resolvedAt.isNone &&
    match t.expiresAt with
    | some exp => decide (now < exp)
    | none => true

/-- The boundary a propagating taint covers everything behind. -/
def Taint.boundary (t : Taint) : String :=
  if "/".toList.isSuffixOf t.path.toList then t.path else t.path ++ "/"

/-- Whether a taint applies to a path: its own, or one below it where it
propagates. -/
def Taint.appliesTo (t : Taint) (path : String) : Bool :=
  t.path == path || (t.propagate && startsWith path t.boundary)

/-- The active taints that apply to a path. -/
def ancestorCandidates (path : String) (candidates : List Taint) (now : ℤ) :
    List Taint :=
  candidates.filter fun t => t.isActive now && t.appliesTo path

/-- `0.9`. -/
def REVIEW_CONFIDENCE_THRESHOLD : F64 := ⟨0x3FECCCCCCCCCCCCD⟩

structure TaintCheck where
  tainted : Bool
  quarantined : Bool
  watched : Bool
  taints : List Taint
  quarantines : List Taint
  watches : List Taint
  canWrite : Bool
  requiredConfidence : F64
  authorizedAgents : List String
  isolated : Bool
deriving DecidableEq

def TaintCheck.clear : TaintCheck where
  tainted := false
  quarantined := false
  watched := false
  taints := []
  quarantines := []
  watches := []
  canWrite := true
  requiredConfidence := F64.zero
  authorizedAgents := []
  isolated := false

/-- What one applicable taint adds to the check. -/
def TaintCheck.add (agentId : String) (out : TaintCheck) (t : Taint) :
    TaintCheck :=
  match t.kind with
  | .taint =>
      let out := { out with tainted := true, taints := out.taints ++ [t] }
      match t.effect with
      | .block => { out with canWrite := false }
      | .review =>
          if out.requiredConfidence.lt REVIEW_CONFIDENCE_THRESHOLD then
            { out with requiredConfidence := REVIEW_CONFIDENCE_THRESHOLD }
          else out
      | .isolate => { out with isolated := true }
      | .warn | .advisory => out
  | .quarantine =>
      let out := { out with
        quarantined := true, quarantines := out.quarantines ++ [t],
        authorizedAgents := t.authorizedAgents.foldl
          (fun as a => if a ∈ as then as else as ++ [a]) out.authorizedAgents }
      if agentId ∈ t.authorizedAgents then out
      else { out with canWrite := false }
  | .watch => { out with watched := true, watches := out.watches ++ [t] }

def evaluateAccess (path agentId : String) (confidence : F64)
    (candidates : List Taint) (now : ℤ) : TaintCheck :=
  let out := (ancestorCandidates path candidates now).foldl
    (TaintCheck.add agentId) TaintCheck.clear
  if out.canWrite && confidence.lt out.requiredConfidence then
    { out with canWrite := false }
  else out

/-- The check of one path by the pre-commit hook: the warnings, or why the
write is refused. -/
def checkPath (taints : List Taint) (options : CommitOptions) (now : ℤ)
    (path : String) : Except (RepoError Id) (List String) :=
  let confidence := options.confidence.getD F64.one
  let check := evaluateAccess path options.agentId confidence
    (ancestorCandidates path taints now) now
  let warnings :=
    (check.taints.filter fun t =>
      t.effect = .warn || t.effect = .isolate).map fun t =>
        "taint " ++ t.name ++ " on " ++ t.path ++ ": " ++ t.reason
  if check.canWrite then .ok warnings
  else
    match check.quarantines.find? fun q =>
        decide (options.agentId ∉ q.authorizedAgents) with
    | some q =>
        .error (.taint (.notAuthorized path options.agentId) (some q.id))
    | none =>
        match check.taints.find? fun t => decide (t.effect = .block) with
        | some t =>
            .error (.taint (.blocked path t.name t.reason) (some t.id))
        | none =>
            match check.taints.find? fun t => decide (t.effect = .review) with
            | some t =>
                .error (.taint (.insufficientConfidence path t.name
                  check.requiredConfidence confidence) (some t.id))
            | none => .ok warnings

/-- The pre-commit taint hook over the paths a write names. -/
def preCommitTaintCheck (taints : List Taint) (paths : List String)
    (options : CommitOptions) (now : ℤ) : Except (RepoError Id) (List String) :=
  match paths with
  | [] => .ok []
  | path :: rest => do
      let warnings ← checkPath taints options now path
      let more ← preCommitTaintCheck taints rest options now
      .ok (warnings ++ more)

/-- The guards `set`, `set_json_cas` and `delete` run on their path. -/
def checkWrite (store : Storage Id) (path : String) (options : CommitOptions)
    (now : ℤ) : Except (RepoError Id) Unit := do
  checkMetaGuard path options.intent
  if isTaintLifecycleIntent options.intent.category then .ok ()
  else do
    let _ ← preCommitTaintCheck store.taints [path] options now
    .ok ()

end AgentStateGraph
