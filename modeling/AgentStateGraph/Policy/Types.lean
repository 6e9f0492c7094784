import AgentStateGraph.Core.PathText
import AgentStateGraph.Repo.Documents

/-!
# Policies

The records of the policy store and where they are kept.  The active version
of a policy is the document at `<prefix>/<path>/_meta`, its superseded versions
those at `<prefix>/<path>/history/v<n>`.  Times are nanoseconds since the
epoch.

The derived serializers lie outside this development; `PolicyCodec` states what
the store relies on.
-/

namespace AgentStateGraph

namespace Policies

/-! ## Records -/

/-- Facts describing the current environment. -/
abbrev Situation := BTreeMap String String

/-- Boolean expression over a situation. -/
inductive Selector where
  | always
  | never
  | all (children : List Selector)
  | any (children : List Selector)
  | not (child : Selector)
  | eq (key value : String)
  | ne (key value : String)
  | matches (key pattern : String)
  | exists (key : String)
  | gt (key : String) (value : Int64)
  | gte (key : String) (value : Int64)
  | lt (key : String) (value : Int64)
  | lte (key : String) (value : Int64)

/-- One allow or deny rule. -/
structure AuthorizedAction where
  action : String
  condition : Option String
  preconditions : List String
deriving DecidableEq

/-- What the agent should do while a change is awaiting approval. -/
inductive FallbackAction where
  | block
  | pickAlternative (action : String)
  | lowestRiskAlternative
  | keepCurrentState
  | delegateTo (policyPath : String)
deriving DecidableEq

/-- One require-approval rule; the timeout is in nanoseconds. -/
structure ApprovalRule where
  action : String
  approvers : List String
  timeout : Option ℕ
  fallback : FallbackAction
deriving DecidableEq

/-- One step in a policy's procedure. -/
structure ProcedureStep where
  action : String
  ifPreviousFailed : Option String
deriving DecidableEq

inductive Severity where
  | low | medium | high | critical
deriving DecidableEq

/-- Where the body of an external evaluator is. -/
inductive EvaluatorSource where
  | inline (body : String)
  | filePath (path : String)
  | commitRef (path : String)
deriving DecidableEq

inductive ExternalEvaluatorRef where
  | rego (source : EvaluatorSource)
  | cedar (source : EvaluatorSource)
  | wasm (source : EvaluatorSource)
deriving DecidableEq

/-- Detached signature carried on a policy. -/
inductive PolicySignature where
  | ed25519 (signerKeyId signatureHex : String)
deriving DecidableEq

/-- Result of a policy evaluation. -/
inductive Decision where
  | allow (matchedPolicy : String) (preconditions : List String)
  | deny (matchedPolicy reason : String)
  | requireApproval (matchedPolicy : String) (approvers : List String)
      (timeout : Option ℕ) (fallback : FallbackAction)
      (approvalTaskPath : Option String)
  | noPolicyMatch
deriving DecidableEq

/-- The unit of authorization and procedure. -/
structure Policy where
  path : String
  version : ℕ
  situation : String
  situationSelector : Selector
  allow : List AuthorizedAction
  deny : List AuthorizedAction
  requireApproval : List ApprovalRule
  procedure : Option (List ProcedureStep)
  triggers : List String
  requiredFields : List String
  severity : Severity
  proposedBy : String
  proposedAt : ℤ
  ratifiedBy : Option String
  ratifiedAt : Option ℤ
  ratificationReasoning : Option String
  activeFrom : ℤ
  expiresAt : Option ℤ
  supersedes : Option String
  signature : Option PolicySignature
  tenantId : Option String
  externalEvaluator : Option ExternalEvaluatorRef

namespace Policy

variable (p : Policy)

def isRatified : Bool := p.ratifiedBy.isSome

/-- Ratified, begun, and not expired. -/
def isCurrentlyActive (now : ℤ) : Bool :=
  if !p.isRatified || now < p.activeFrom then false
  else
    match p.expiresAt with
    | some exp => !(exp ≤ now)
    | none => true

/-- Canonical `path@version` identifier. -/
def handle : String := p.path ++ "@" ++ Nat.repr p.version

end Policy

/-! ## What is stored of a policy -/

/-- A timeout is stored in whole milliseconds, as a 64-bit number. -/
def storedTimeout (timeout : ℕ) : ℕ := timeout / 10 ^ 6 % 2 ^ 64 * 10 ^ 6

def ApprovalRule.stored (r : ApprovalRule) : ApprovalRule :=
  { r with timeout := r.timeout.map storedTimeout }

/-- A policy as it reads back. -/
def Policy.stored (p : Policy) : Policy :=
  { p with requireApproval := p.requireApproval.map ApprovalRule.stored }

theorem storedTimeout_storedTimeout (timeout : ℕ) :
    storedTimeout (storedTimeout timeout) = storedTimeout timeout := by
  unfold storedTimeout
  rw [Nat.mul_div_cancel _ (by norm_num), Nat.mod_mod]

theorem ApprovalRule.stored_stored (r : ApprovalRule) :
    r.stored.stored = r.stored := by
  cases htimeout : r.timeout <;>
    simp [ApprovalRule.stored, htimeout, storedTimeout_storedTimeout]

@[simp] theorem Policy.stored_stored (p : Policy) : p.stored.stored = p.stored := by
  simp [Policy.stored, ApprovalRule.stored_stored]

/-- How a policy is written as JSON: `serde_json::to_value` and `from_value`
of the derived serializers. -/
structure PolicyCodec where
  toValue : Policy → Except String Json
  fromValue : Json → Except String Policy
  canonical : ∀ p value, toValue p = .ok value → value.isCanonical = true
  fromValue_toValue : ∀ p value, toValue p = .ok value →
    fromValue value = .ok p.stored

inductive PolicyError (Id : Type) where
  | notFound (what : String)
  | alreadyExists (path : String)
  | alreadyRatified (handle : String)
  | invalidPath (path : String)
  | invalid (message : String)
  | repo (e : RepoError Id)
  | serde (message : String)
deriving DecidableEq

/-! ## Paths -/

def HISTORY_KEY : String := "history"

def META_KEY : String := "_meta"

/-- `^[a-z0-9][a-z0-9_-]*$`. -/
def isSegment : List Char → Bool
  | [] => false
  | c :: rest =>
      let first := fun c : Char => ('a' ≤ c && c ≤ 'z') || c.isDigit
      first c && rest.all fun c => first c || c == '_' || c == '-'

/-- Validate a caller-supplied policy path; the result has no leading
slash. -/
def normalize {Id : Type} (path : String) : Except (PolicyError Id) String :=
  let trimmed := path.toList.dropWhile (· == '/')
  if trimmed.isEmpty then .error (.invalidPath path)
  else if (trimmed.splitOn '/').all fun segment => isSegment segment &&
      String.ofList segment != HISTORY_KEY &&
      String.ofList segment != META_KEY then
    .ok (String.ofList trimmed)
  else .error (.invalidPath path)

/-- Storage path of the active version. -/
def active (pre normalized : String) : String :=
  pre ++ "/" ++ normalized ++ "/" ++ META_KEY

/-- Storage path of a superseded version. -/
def historical (pre normalized : String) (version : ℕ) : String :=
  pre ++ "/" ++ normalized ++ "/" ++ HISTORY_KEY ++ "/v" ++ Nat.repr version

/-! ## Where the versions stand -/

/-- The components of a policy's own path. -/
def policyRoot (pre normalized : String) : List PathComponent :=
  (StatePath.segments (pre ++ "/" ++ normalized)).map PathComponent.ofSegment

def activeAt (pre normalized : String) : List PathComponent :=
  policyRoot pre normalized ++ [.key META_KEY]

def historicalAt (pre normalized : String) (version : ℕ) :
    List PathComponent :=
  policyRoot pre normalized ++
    [.key HISTORY_KEY, .key ("v" ++ Nat.repr version)]

variable {p : StatePath} {pre normalized : String}

theorem components_of_parse_append {base rest : String}
    (hbase : base.toList ≠ [])
    (h : StatePath.parse (base ++ "/" ++ rest) = .ok p) :
    p.components = (StatePath.segments base).map PathComponent.ofSegment ++
      (rest.toList.splitOn '/').map PathComponent.ofSegment := by
  have hlist : (base ++ "/" ++ rest).toList =
      base.toList ++ '/' :: rest.toList := by simp
  rcases StatePath.parse_eq_ok h with ⟨hroot, -⟩ | ⟨-, hcomp, -⟩
  · have hlen := List.length_pos_of_ne_nil hbase
    rcases hroot with heq | heq <;> rw [heq] at hlist
    · simp at hlist
    · have hshort := congrArg List.length hlist
      simp at hshort
      omega
  · have hdrop : (base.toList ++ '/' :: rest.toList).drop 1 =
        base.toList.drop 1 ++ '/' :: rest.toList :=
      List.drop_append_of_le_length (List.length_pos_of_ne_nil hbase)
    rw [hcomp, StatePath.segments, hlist, hdrop,
      List.splitOn_append_cons_self, List.map_append, StatePath.segments]

theorem ofSegment_cons_of_not_digit {c : Char} {rest : List Char}
    (hplus : c ≠ '+') (hdigit : c.isDigit = false) :
    PathComponent.ofSegment (c :: rest) = .key (String.ofList (c :: rest)) := by
  have hnone : parseUsize (c :: rest) = none := by
    unfold parseUsize
    split
    next tail heq =>
      rw [List.cons.injEq] at heq
      exact absurd heq.1 hplus
    next => simp [hdigit]
  simp [PathComponent.ofSegment, hnone]

theorem components_active
    (h : StatePath.parse (active pre normalized) = .ok p) :
    p.components = activeAt pre normalized := by
  have hne : (pre ++ "/" ++ normalized).toList ≠ [] := by simp
  rw [components_of_parse_append hne h, activeAt, policyRoot]
  rfl

theorem components_historical {version : ℕ}
    (h : StatePath.parse (historical pre normalized version) = .ok p) :
    p.components = historicalAt pre normalized version := by
  have hne : (pre ++ "/" ++ normalized).toList ≠ [] := by simp
  have hpath : historical pre normalized version =
      pre ++ "/" ++ normalized ++ "/" ++
        (HISTORY_KEY ++ "/" ++ ("v" ++ Nat.repr version)) := by
    have hslash : "/v" = "/" ++ "v" := by decide
    rw [historical, hslash]
    simp only [String.append_assoc]
  rw [hpath] at h
  have hv : '/' ∉ ("v" ++ Nat.repr version).toList := by
    simp [slash_notMem_digits]
  have hrest : (HISTORY_KEY ++ "/" ++ ("v" ++ Nat.repr version)).toList.splitOn
      '/' = [HISTORY_KEY.toList, ("v" ++ Nat.repr version).toList] := by
    have hlist : (HISTORY_KEY ++ "/" ++ ("v" ++ Nat.repr version)).toList =
        HISTORY_KEY.toList ++ '/' :: ("v" ++ Nat.repr version).toList := by
      simp
    rw [hlist, List.splitOn_append_cons_self, List.splitOn_eq_singleton hv,
      List.splitOn_eq_singleton (by decide)]
    rfl
  have hkey : PathComponent.ofSegment ("v" ++ Nat.repr version).toList =
      .key ("v" ++ Nat.repr version) := by
    have hcons : ("v" ++ Nat.repr version).toList =
        'v' :: (Nat.repr version).toList := by simp
    rw [hcons, ofSegment_cons_of_not_digit (by decide) (by decide), ← hcons,
      String.ofList_toList]
  rw [components_of_parse_append hne h, hrest, historicalAt, policyRoot]
  simp only [List.map_cons, List.map_nil, hkey]
  rfl

/-! ## The versions stand apart -/

theorem pathsDisjoint_append_key {base rest rest' : List PathComponent}
    {k k' : String} (hne : k ≠ k') :
    PathsDisjoint (base ++ .key k :: rest) (base ++ .key k' :: rest') := by
  constructor <;> intro hpre <;>
    have hcons := (List.prefix_append_right_inj base).mp hpre <;>
    simp [List.cons_prefix_cons, hne, hne.symm] at hcons

theorem activeAt_disjoint_historicalAt (pre normalized : String)
    (version : ℕ) :
    PathsDisjoint (activeAt pre normalized)
      (historicalAt pre normalized version) :=
  pathsDisjoint_append_key (by decide)

theorem historicalAt_disjoint {v w : ℕ} (hne : v ≠ w) :
    PathsDisjoint (historicalAt pre normalized v)
      (historicalAt pre normalized w) := by
  have hkeys : "v" ++ Nat.repr v ≠ "v" ++ Nat.repr w := by
    intro heq
    exact hne (repr_injective ((String.append_right_inj _).mp heq))
  have hbase : ∀ n, historicalAt pre normalized n =
      (policyRoot pre normalized ++ [.key HISTORY_KEY]) ++
        [.key ("v" ++ Nat.repr n)] := by
    intro n
    simp [historicalAt]
  rw [hbase, hbase]
  exact pathsDisjoint_append_key hkeys

end Policies

end AgentStateGraph
