import AgentStateGraph.Policy.Canonical
import AgentStateGraph.Policy.Store
import AgentStateGraph.Tree.Maps

/-!
# Evaluation of change proposals

A change proposal is decided by the active policies: those with an external
evaluator are sent to its runner, the others to the local evaluator, which
consults the policies whose triggers meet the proposal's tokens.  The decisions
are combined by precedence: deny, require approval, allow.
-/

namespace AgentStateGraph

variable {Id : Type} [Digest Id]

namespace Policies

/-- A proposed change, as far as its evaluation reads it. -/
structure ChangeProposal where
  action : String
  agentId : String
  tokens : List String
  attachedFields : BTreeMap String String

/-! ## The local evaluator -/

def matchAction (rules : List AuthorizedAction) (action : String) :
    Option AuthorizedAction :=
  rules.find? fun r => r.action = action || r.action = "*"

def matchApproval (rules : List ApprovalRule) (action : String) :
    Option ApprovalRule :=
  rules.find? fun r => r.action = action || r.action = "*"

def tokensIntersect (a b : List String) : Bool := a.any fun t => b.any fun u => t = u

def Policy.deny? (action : String) (p : Policy) : Option Decision :=
  (matchAction p.deny action).map fun rule =>
    .deny p.handle (rule.condition.getD ("denied by " ++ p.path))

def Policy.approval? (action : String) (p : Policy) : Option Decision :=
  (matchApproval p.requireApproval action).map fun rule =>
    .requireApproval p.handle rule.approvers rule.timeout rule.fallback none

def Policy.allow? (action : String) (p : Policy) : Option Decision :=
  (matchAction p.allow action).map fun rule =>
    .allow p.handle rule.preconditions

/-- Denies win outright, then approvals, then allows. -/
def evaluateMatched (policies : List Policy) (action : String) : Decision :=
  match policies.findSome? (Policy.deny? action) with
  | some d => d
  | none =>
      match policies.findSome? (Policy.approval? action) with
      | some d => d
      | none => (policies.findSome? (Policy.allow? action)).getD .noPolicyMatch

/-- The approval that a policy with a missing field asks for. -/
def approvalHint (p : Policy) (action : String) :
    List String × Option ℕ × FallbackAction :=
  match matchApproval p.requireApproval action with
  | some r => (r.approvers, r.timeout, r.fallback)
  | none => (["human"], none, .block)

/-- A required field is not attached to the proposal. -/
def lacksField (proposal : ChangeProposal) (p : Policy) : Bool :=
  p.requiredFields.any fun f => !proposal.attachedFields.contains f

def evaluateChange (policies : List Policy) (proposal : ChangeProposal) :
    Decision :=
  let consulted := policies.filter fun p =>
    tokensIntersect p.triggers proposal.tokens
  if consulted.isEmpty then .noPolicyMatch
  else
    match consulted.find? (lacksField proposal) with
    | some p =>
        let (approvers, timeout, fallback) := approvalHint p proposal.action
        .requireApproval p.handle approvers timeout fallback none
    | none => evaluateMatched consulted proposal.action

/-! ## Combining decisions -/

def isDeny : Decision → Bool
  | .deny _ _ => true
  | _ => false

def isRequireApproval : Decision → Bool
  | .requireApproval _ _ _ _ _ => true
  | _ => false

def isAllow : Decision → Bool
  | .allow _ _ => true
  | _ => false

/-- The first deny, else the first approval, else the first allow. -/
def precedence (all : List Decision) : Decision :=
  match all.find? isDeny with
  | some d => d
  | none =>
      match all.find? isRequireApproval with
      | some d => d
      | none => (all.find? isAllow).getD .noPolicyMatch

def combineDecisions (externals : List Decision) (localDecision : Decision) :
    Decision :=
  precedence (externals ++ [localDecision])

/-! ## External evaluators -/

def externalKind : ExternalEvaluatorRef → String
  | .rego _ => "rego"
  | .cedar _ => "cedar"
  | .wasm _ => "wasm"

def externalSource : ExternalEvaluatorRef → EvaluatorSource
  | .rego source | .cedar source | .wasm source => source

/-- Whether a caller with the tenant filter sees the policy. -/
def tenantMatches (tenantFilter : Option String) (p : Policy) : Bool :=
  match tenantFilter with
  | none => true
  | some tid =>
      match p.tenantId with
      | none => true
      | some ptid => ptid = tid

/-- What stands before the first occurrence of a text. -/
def beforeFirst (marker : List Char) : List Char → Option (List Char)
  | [] => if marker = [] then some [] else none
  | c :: rest =>
      if marker.isPrefixOf (c :: rest) then some []
      else (beforeFirst marker rest).map (c :: ·)

/-- The path of the policy that a leaf below the prefix belongs to. -/
def listedPolicy (pre : String) (prefixFilter : Option String) (leaf : String) :
    Option String := do
  let base := (pre ++ "/").toList
  let rel ← if base.isPrefixOf leaf.toList then some (leaf.toList.drop base.length)
    else none
  if (beforeFirst ("/" ++ HISTORY_KEY ++ "/").toList rel).isSome then none
  else do
    let policyRel ← beforeFirst ("/" ++ META_KEY ++ "/").toList rel
    if policyRel = [] then none
    else
      match prefixFilter with
      | none => some (String.ofList policyRel)
      | some filter =>
          if (filter.toList.dropWhile (· == '/')).isPrefixOf policyRel then
            some (String.ofList policyRel)
          else none

namespace PolicyStore

variable (codec : PolicyCodec) (self : PolicyStore)

/-- The policies at the listed paths that the tenant sees. -/
def loadListed (store : Storage Id) (refName : String)
    (tenantFilter : Option String) :
    List String → Except (PolicyError Id) (List Policy)
  | [] => .ok []
  | path :: paths =>
      match self.loadActive codec store refName path with
      | .error (.notFound _) => loadListed store refName tenantFilter paths
      | .error e => .error e
      | .ok policy => do
          let rest ← loadListed store refName tenantFilter paths
          .ok (if tenantMatches tenantFilter policy then policy :: rest else rest)

def listScoped (store : Storage Id) (refName : String)
    (prefixFilter tenantFilter : Option String) :
    Except (PolicyError Id) (List Policy) :=
  match self.repo.listPaths store refName self.pre none with
  | .error e => if isPathNotFound e then .ok [] else .error (.repo e)
  | .ok leaves =>
      self.loadListed codec store refName tenantFilter
        ((leaves.filterMap (listedPolicy self.pre prefixFilter)).dedup.mergeSort
          fun a b => a ≤ b)

def activeScoped (store : Storage Id) (refName : String)
    (prefixFilter tenantFilter : Option String) (now : ℤ) :
    Except (PolicyError Id) (List Policy) := do
  let listed ← self.listScoped codec store refName prefixFilter tenantFilter
  .ok ((listed.filter fun p => p.isCurrentlyActive now).filter self.signaturePasses)

/-- The policies for the local evaluator and those for external ones; one whose
runner is not registered is for neither. -/
def partitionForDispatch (policies : List Policy) : List Policy × List Policy :=
  match self.externalEvaluators with
  | none => (policies, [])
  | some registry =>
      (policies.filter fun p => p.externalEvaluator.isNone,
        policies.filter fun p =>
          p.externalEvaluator.any fun ref =>
            (registry.lookup (externalKind ref)).isSome)

/-- What the runner of a policy decides; `none` where there is none, or it
fails. -/
def runExternal (situation : Situation) (action agentId : String) (p : Policy) :
    Option Decision := do
  let registry ← self.externalEvaluators
  let ref ← p.externalEvaluator
  let runner ← registry.lookup (externalKind ref)
  runner (externalSource ref) situation action agentId

def runExternals (policies : List Policy) (situation : Situation)
    (action agentId : String) : List Decision :=
  policies.filterMap (self.runExternal situation action agentId)

/-- Change-proposal evaluation. -/
def evaluateChangeScoped (store : Storage Id) (refName : String)
    (proposal : ChangeProposal) (tenantFilter : Option String) (now : ℤ) :
    Except (PolicyError Id) Decision := do
  let actives ← self.activeScoped codec store refName none tenantFilter now
  let (locals, externals) := self.partitionForDispatch actives
  let externalDecisions := self.runExternals externals ∅ proposal.action
    proposal.agentId
  .ok (combineDecisions externalDecisions (evaluateChange locals proposal))

end PolicyStore

/-! ## Precedence -/

def Decision.rank : Decision → ℕ
  | .deny _ _ => 3
  | .requireApproval _ _ _ _ _ => 2
  | .allow _ _ => 1
  | .noPolicyMatch => 0

section

variable {d : Decision} {rank : ℕ} {all earlier later : List Decision}

theorem Decision.eq_noPolicyMatch (h : d.rank = 0) : d = .noPolicyMatch := by
  cases d <;> first | rfl | contradiction

/-- The first decision with a rank. -/
def firstOf (rank : ℕ) (all : List Decision) : Option Decision :=
  all.find? fun d => d.rank = rank

theorem firstOf_append (rank : ℕ) (l l' : List Decision) :
    firstOf rank (l ++ l') = (firstOf rank l).or (firstOf rank l') :=
  List.find?_append

theorem rank_of_firstOf (h : firstOf rank all = some d) :
    d ∈ all ∧ d.rank = rank :=
  ⟨List.mem_of_find?_eq_some h, by simpa using List.find?_some h⟩

theorem firstOf_eq_none :
    firstOf rank all = none ↔ ∀ d ∈ all, d.rank ≠ rank := by
  simp [firstOf]

theorem precedence_eq (all : List Decision) :
    precedence all = (((firstOf 3 all).or (firstOf 2 all)).or
      (firstOf 1 all)).getD .noPolicyMatch := by
  have hdeny : isDeny = fun d => decide (d.rank = 3) := by
    funext d
    cases d <;> rfl
  have happroval : isRequireApproval = fun d => decide (d.rank = 2) := by
    funext d
    cases d <;> rfl
  have hallow : isAllow = fun d => decide (d.rank = 1) := by
    funext d
    cases d <;> rfl
  unfold precedence firstOf
  rw [hdeny, happroval, hallow]
  cases all.find? fun d => decide (d.rank = 3) with
  | some d => rfl
  | none => cases all.find? fun d => decide (d.rank = 2) <;> rfl

theorem Decision.rank_le (d : Decision) : d.rank ≤ 3 := by
  cases d <;> simp [Decision.rank]

theorem highest_of_firstOf (h : firstOf rank all = some d)
    (hmax : ∀ e ∈ all, e.rank ≤ rank) :
    (∀ e ∈ all, e.rank ≤ d.rank) ∧ firstOf d.rank all = some d := by
  obtain ⟨-, hrank⟩ := rank_of_firstOf h
  rw [hrank]
  exact ⟨hmax, h⟩

/-- Nothing decides exactly when every decision abstains. -/
theorem precedence_eq_noPolicyMatch_iff :
    precedence all = .noPolicyMatch ↔ ∀ e ∈ all, e = .noPolicyMatch := by
  rw [precedence_eq]
  constructor
  · intro h e he
    by_contra hne
    have hsome : ∀ r, firstOf r all = none → e.rank ≠ r :=
      fun r hr => firstOf_eq_none.mp hr e he
    have habsent : ∀ r d, firstOf r all = some d → d = .noPolicyMatch → r = 0 := by
      rintro r d hd rfl
      exact (rank_of_firstOf hd).2.symm
    have hbound := e.rank_le
    have hzero : e.rank ≠ 0 := fun h0 => hne (Decision.eq_noPolicyMatch h0)
    cases h3 : firstOf 3 all with
    | some d =>
        simp only [h3, Option.some_or, Option.getD_some] at h
        exact absurd (habsent 3 d h3 h) (by decide)
    | none =>
        cases h2 : firstOf 2 all with
        | some d =>
            simp only [h3, h2, Option.none_or, Option.some_or,
              Option.getD_some] at h
            exact absurd (habsent 2 d h2 h) (by decide)
        | none =>
            cases h1 : firstOf 1 all with
            | some d =>
                simp only [h3, h2, h1, Option.none_or, Option.getD_some] at h
                exact absurd (habsent 1 d h1 h) (by decide)
            | none =>
                have := hsome 3 h3
                have := hsome 2 h2
                have := hsome 1 h1
                omega
  · intro h
    have hnone : ∀ r, r ≠ 0 → firstOf r all = none := by
      intro r hr
      apply firstOf_eq_none.mpr
      intro e he
      rw [h e he]
      exact hr.symm
    rw [hnone 3 (by decide), hnone 2 (by decide), hnone 1 (by decide)]
    rfl

theorem precedence_eq_iff (hd : d ≠ .noPolicyMatch) :
    precedence all = d ↔
      (∀ e ∈ all, e.rank ≤ d.rank) ∧ firstOf d.rank all = some d := by
  rw [precedence_eq]
  constructor
  · intro h
    cases h3 : firstOf 3 all with
    | some e =>
        simp only [h3, Option.some_or, Option.getD_some] at h
        subst h
        exact highest_of_firstOf h3 fun e _ => e.rank_le
    | none =>
        have hno3 := firstOf_eq_none.mp h3
        cases h2 : firstOf 2 all with
        | some e =>
            simp only [h3, h2, Option.none_or, Option.some_or,
              Option.getD_some] at h
            subst h
            refine highest_of_firstOf h2 fun e he => ?_
            have := hno3 e he
            have := e.rank_le
            omega
        | none =>
            have hno2 := firstOf_eq_none.mp h2
            cases h1 : firstOf 1 all with
            | some e =>
                simp only [h3, h2, h1, Option.none_or, Option.getD_some] at h
                subst h
                refine highest_of_firstOf h1 fun e he => ?_
                have := hno3 e he
                have := hno2 e he
                have := e.rank_le
                omega
            | none =>
                simp only [h3, h2, h1, Option.none_or, Option.getD_none] at h
                exact absurd h.symm hd
  · rintro ⟨hmax, hfirst⟩
    have hnone : ∀ r, d.rank < r → firstOf r all = none := by
      intro r hr
      apply firstOf_eq_none.mpr
      intro e he heq
      have := hmax e he
      omega
    cases d with
    | deny handle reason =>
        rw [show firstOf 3 all = _ from hfirst]
        rfl
    | requireApproval handle approvers timeout fallback path =>
        rw [hnone 3 (by simp [Decision.rank]),
          show firstOf 2 all = _ from hfirst]
        rfl
    | allow handle preconditions =>
        rw [hnone 3 (by simp [Decision.rank]), hnone 2 (by simp [Decision.rank]),
          show firstOf 1 all = _ from hfirst]
        rfl
    | noPolicyMatch => exact absurd rfl hd

/-- A decision that changes nothing between others: it abstains, another
outranks it, one of its rank comes before it, or the next of its rank is the
same decision. -/
inductive Idle (earlier later : List Decision) (d : Decision) : Prop where
  | abstains (h : d = .noPolicyMatch)
  | outranked (e : Decision) (h : e ∈ earlier ++ later) (hlt : d.rank < e.rank)
  | preceded (e : Decision) (h : e ∈ earlier) (heq : e.rank = d.rank)
  | repeated (h : firstOf d.rank later = some d)

theorem precedence_skip (earlier later : List Decision) :
    precedence (earlier ++ .noPolicyMatch :: later) =
      precedence (earlier ++ later) := by
  have hskip : ∀ r, r ≠ 0 → firstOf r (.noPolicyMatch :: later) =
      firstOf r later := by
    intro r hr
    exact List.find?_cons_of_neg (by simp [Decision.rank, hr.symm])
  simp only [precedence_eq, firstOf_append, hskip 3 (by decide),
    hskip 2 (by decide), hskip 1 (by decide)]

theorem firstOf_insert_of_ne (h : d.rank ≠ rank) :
    firstOf rank (earlier ++ d :: later) = firstOf rank (earlier ++ later) := by
  have hskip : firstOf rank (d :: later) = firstOf rank later :=
    List.find?_cons_of_neg (by simpa using h)
  rw [firstOf_append, firstOf_append, hskip]

theorem firstOf_insert_self :
    firstOf d.rank (earlier ++ d :: later) =
      (firstOf d.rank earlier).or (some d) := by
  have hcons : firstOf d.rank (d :: later) = some d :=
    List.find?_cons_of_pos (by simp)
  rw [firstOf_append, hcons]

theorem Idle.precedence_insert (h : Idle earlier later d) :
    precedence (earlier ++ d :: later) = precedence (earlier ++ later) := by
  by_cases hd : d = .noPolicyMatch
  · rw [hd]
    exact precedence_skip earlier later
  have hzero : d.rank ≠ 0 := fun h0 => hd (Decision.eq_noPolicyMatch h0)
  -- whatever makes it idle stands among the others with at least its rank
  obtain ⟨e, he, hle⟩ : ∃ e ∈ earlier ++ later, d.rank ≤ e.rank := by
    cases h with
    | abstains h => exact absurd h hd
    | outranked e he hlt => exact ⟨e, he, hlt.le⟩
    | preceded e he heq => exact ⟨e, List.mem_append_left _ he, heq.ge⟩
    | repeated h =>
        exact ⟨d, List.mem_append_right _ (rank_of_firstOf h).1, le_refl _⟩
  have hdecided : precedence (earlier ++ later) ≠ .noPolicyMatch := by
    intro hnone
    have habstains := precedence_eq_noPolicyMatch_iff.mp hnone e he
    rw [habstains] at hle
    exact hzero (Nat.le_zero.mp hle)
  obtain ⟨hmax, hfirst⟩ := (precedence_eq_iff hdecided).mp rfl
  refine (precedence_eq_iff hdecided).mpr ⟨?_, ?_⟩
  · intro x hx
    rcases List.mem_append.mp hx with hx | hx
    · exact hmax x (List.mem_append_left _ hx)
    · rcases List.mem_cons.mp hx with rfl | hx
      · exact hle.trans (hmax e he)
      · exact hmax x (List.mem_append_right _ hx)
  · by_cases hrank : d.rank = (precedence (earlier ++ later)).rank
    · rw [← hrank, firstOf_append] at hfirst
      rw [← hrank, firstOf_insert_self]
      cases h with
      | abstains h => exact absurd h hd
      | outranked e he hlt =>
          have := hmax e he
          omega
      | preceded e he heq =>
          cases hearlier : firstOf d.rank earlier with
          | none => exact absurd heq (firstOf_eq_none.mp hearlier e he)
          | some x =>
              rw [hearlier] at hfirst
              exact hfirst
      | repeated h =>
          rw [h] at hfirst
          exact hfirst
    · rw [firstOf_insert_of_ne hrank]
      exact hfirst

/-- A decision among others changes nothing exactly when it is idle. -/
theorem precedence_insert_iff :
    precedence (earlier ++ d :: later) = precedence (earlier ++ later) ↔
      Idle earlier later d := by
  refine ⟨fun h => ?_, Idle.precedence_insert⟩
  by_cases hd : d = .noPolicyMatch
  · exact .abstains hd
  by_cases hout : ∃ e ∈ earlier ++ later, d.rank < e.rank
  · obtain ⟨e, he, hlt⟩ := hout
    exact .outranked e he hlt
  by_cases hpre : ∃ e ∈ earlier, e.rank = d.rank
  · obtain ⟨e, he, heq⟩ := hpre
    exact .preceded e he heq
  push Not at hout hpre
  have hearlier : firstOf d.rank earlier = none := firstOf_eq_none.mpr hpre
  have htop : precedence (earlier ++ d :: later) = d := by
    refine (precedence_eq_iff hd).mpr ⟨?_, ?_⟩
    · intro x hx
      rcases List.mem_append.mp hx with hx | hx
      · exact hout x (List.mem_append_left _ hx)
      · rcases List.mem_cons.mp hx with rfl | hx
        · exact le_refl _
        · exact hout x (List.mem_append_right _ hx)
    · rw [firstOf_insert_self, hearlier, Option.none_or]
  rw [htop] at h
  have hfirst := ((precedence_eq_iff hd).mp h.symm).2
  rw [firstOf_append, hearlier, Option.none_or] at hfirst
  exact .repeated hfirst

end

/-! ## An unrelated policy -/

section Unrelated

variable {proposal : ChangeProposal} {p : Policy}

theorem evaluateChange_insert (l₁ l₂ : List Policy)
    (h : tokensIntersect p.triggers proposal.tokens = false) :
    evaluateChange (l₁ ++ p :: l₂) proposal =
      evaluateChange (l₁ ++ l₂) proposal := by
  have hfilter : (l₁ ++ p :: l₂).filter (fun q =>
      tokensIntersect q.triggers proposal.tokens) =
      (l₁ ++ l₂).filter fun q => tokensIntersect q.triggers proposal.tokens := by
    rw [List.filter_append, List.filter_append, List.filter_cons_of_neg]
    simpa using h
  unfold evaluateChange
  rw [hfilter]

variable {self : PolicyStore}

/-- What a policy's own runner says of the proposal. -/
def PolicyStore.externalDecision (handle : PolicyStore)
    (proposal : ChangeProposal) (p : Policy) : Option Decision :=
  handle.runExternal ∅ proposal.action proposal.agentId p

theorem runExternals_partition (l : List Policy) :
    self.runExternals (self.partitionForDispatch l).2 ∅ proposal.action
      proposal.agentId = l.filterMap (self.externalDecision proposal) := by
  unfold PolicyStore.runExternals PolicyStore.partitionForDispatch
  cases hregistry : self.externalEvaluators with
  | none =>
      refine (List.filterMap_eq_nil_iff.mpr ?_).symm
      intro q _
      simp [PolicyStore.externalDecision, PolicyStore.runExternal, hregistry]
  | some registry =>
      rw [List.filterMap_filter]
      apply List.filterMap_congr
      intro q _
      split
      next => rfl
      next hnone =>
        -- no runner is registered for this policy
        cases href : q.externalEvaluator with
        | none =>
            simp [PolicyStore.externalDecision, PolicyStore.runExternal, href]
        | some ref =>
            cases hlookup : registry.lookup (externalKind ref) with
            | none =>
                simp [PolicyStore.externalDecision, PolicyStore.runExternal,
                  hregistry, href, hlookup]
            | some runner => exact absurd (by simp [href, hlookup]) hnone

theorem locals_insert (l₁ l₂ : List Policy)
    (h : tokensIntersect p.triggers proposal.tokens = false) :
    evaluateChange (self.partitionForDispatch (l₁ ++ p :: l₂)).1 proposal =
      evaluateChange (self.partitionForDispatch (l₁ ++ l₂)).1 proposal := by
  unfold PolicyStore.partitionForDispatch
  cases self.externalEvaluators with
  | none => exact evaluateChange_insert l₁ l₂ h
  | some registry =>
      simp only [List.filter_append]
      by_cases hlocal : p.externalEvaluator.isNone = true
      · rw [@List.filter_cons_of_pos _ (fun q : Policy => q.externalEvaluator.isNone)
          _ _ hlocal]
        exact evaluateChange_insert _ _ h
      · rw [@List.filter_cons_of_neg _ (fun q : Policy => q.externalEvaluator.isNone)
          _ _ hlocal]

variable {codec : PolicyCodec} {refName : String} {tenantFilter : Option String}
  {now : ℤ} {s t : Storage Id} {l₁ l₂ : List Policy}

/-- Between two states one policy more is active, at its place in the order of
their paths. -/
structure Adds (codec : PolicyCodec) (handle : PolicyStore) (refName : String)
    (tenantFilter : Option String) (now : ℤ) (s t : Storage Id)
    (earlier later : List Policy) (p : Policy) : Prop where
  before : handle.activeScoped codec s refName none tenantFilter now =
    .ok (earlier ++ later)
  after : handle.activeScoped codec t refName none tenantFilter now =
    .ok (earlier ++ p :: later)

/-- Adding or removing an unrelated policy leaves the decision as it is exactly
when its own runner, if it has one, says nothing or is idle between what the
other policies decide. -/
theorem evaluateChangeScoped_unrelated_iff
    (hadds : Adds codec self refName tenantFilter now s t l₁ l₂ p)
    (hunrelated : tokensIntersect p.triggers proposal.tokens = false) :
    self.evaluateChangeScoped codec t refName proposal tenantFilter now =
        self.evaluateChangeScoped codec s refName proposal tenantFilter now ↔
      ∀ d, self.externalDecision proposal p = some d →
        Idle (l₁.filterMap (self.externalDecision proposal))
          (l₂.filterMap (self.externalDecision proposal) ++
            [evaluateChange (self.partitionForDispatch (l₁ ++ l₂)).1 proposal])
          d := by
  simp only [PolicyStore.evaluateChangeScoped, hadds.before, hadds.after,
    Except.ok_bind, runExternals_partition, locals_insert l₁ l₂ hunrelated,
    Except.ok.injEq, combineDecisions, List.filterMap_append, List.append_assoc]
  cases hdecision : self.externalDecision proposal p with
  | none => simp [List.filterMap_cons_none hdecision]
  | some d =>
      rw [List.filterMap_cons_some hdecision, List.cons_append,
        precedence_insert_iff]
      simp

end Unrelated

namespace UntriggeredRunner

/-- A policy without triggers that an external runner evaluates. -/
def gate : Policy where
  path := "gate"
  version := 1
  situation := "any"
  situationSelector := .always
  allow := []
  deny := []
  requireApproval := []
  procedure := none
  triggers := []
  requiredFields := []
  severity := .low
  proposedBy := "ops"
  proposedAt := 0
  ratifiedBy := some "alice"
  ratifiedAt := some 0
  ratificationReasoning := none
  activeFrom := 0
  expiresAt := none
  supersedes := none
  signature := none
  tenantId := none
  externalEvaluator := some (.wasm (.inline ""))

def document : Json :=
  .object [("active_from", .string "1970-01-01T00:00:00Z"), ("allow", .array []),
    ("deny", .array []),
    ("external_evaluator", .object [("kind", .string "wasm"),
      ("source", .object [("body", .string ""), ("kind", .string "inline")])]),
    ("path", .string "gate"), ("proposed_at", .string "1970-01-01T00:00:00Z"),
    ("proposed_by", .string "ops"),
    ("ratified_at", .string "1970-01-01T00:00:00Z"),
    ("ratified_by", .string "alice"), ("require_approval", .array []),
    ("required_fields", .array []), ("severity", .string "low"),
    ("situation", .string "any"),
    ("situation_selector", .object [("kind", .string "always")]),
    ("triggers", .array []), ("version", .number (.posInt 1))]

/-- Reads the document, and writes nothing. -/
def codec : PolicyCodec where
  toValue _ := .error "unsupported"
  fromValue value :=
    match value with
    | .object fields =>
        if (fields.lookup "path").isSome then .ok gate else .error "missing field"
    | _ => .error "invalid type"
  canonical _ _ h := by contradiction
  fromValue_toValue _ _ h := by contradiction

def tree : Json :=
  .object [("policies", .object [("gate", .object [(META_KEY, document)])])]

def without : Storage ContentKey :=
  ContentKey.documentStore (.object [("policies", .object [])])

def withGate : Storage ContentKey := ContentKey.documentStore tree

/-- A store with a runner that answers as given. -/
def handle (answer : Option Decision) : PolicyStore :=
  { PolicyStore.new .new "/policies" "ops" with
    externalEvaluators := some [("wasm", fun _ _ _ _ => answer)] }

def proposal : ChangeProposal := ⟨"deploy", "agent", ["reindex"], ∅⟩

set_option maxRecDepth 16384 in
theorem listPaths_without : Repository.new.listPaths without "main" "/policies"
    none = .ok ["/policies"] := by decide

set_option maxRecDepth 16384 in
theorem listPaths_withGate : (Repository.new.listPaths withGate "main" "/policies"
    none).map (fun l => (l.filterMap (listedPolicy "/policies" none)).dedup) =
      .ok ["gate"] := by decide

theorem handle_pre (answer : Option Decision) :
    (handle answer).pre = "/policies" := rfl

theorem active_without (answer : Option Decision) :
    (handle answer).activeScoped codec without "main" none none 0 = .ok [] := by
  have hpaths : (handle answer).repo.listPaths without "main"
      (handle answer).pre none = .ok ["/policies"] := listPaths_without
  have hlisted : (["/policies"].filterMap
      (listedPolicy (handle answer).pre none)).dedup = [] := by
    rw [handle_pre]
    decide
  simp only [PolicyStore.activeScoped, PolicyStore.listScoped, hpaths, hlisted,
    List.mergeSort_nil, PolicyStore.loadListed]
  rfl

theorem loadActive_gate (answer : Option Decision) :
    (handle answer).loadActive codec withGate "main" "gate" = .ok gate := by
  have hpolicies := (ContentKey.holdsAt_documentStore tree).field (by decide)
    List.mem_cons_self
  have hgate := hpolicies.field (by decide) List.mem_cons_self
  have hmeta := hgate.field (by decide) List.mem_cons_self
  have hsecret : pathIsSecret (active (handle answer).pre "gate") = false := by
    rw [handle_pre]
    decide
  have hparse : StatePath.parse (active (handle answer).pre "gate") =
      .ok ⟨[.key "policies", .key "gate", .key META_KEY]⟩ := by
    rw [handle_pre]
    decide
  have hread : (handle answer).repo.getJson withGate "main"
      (active (handle answer).pre "gate") = .ok document :=
    ContentKey.getJson_documentStore hparse hsecret (by decide) hmeta
  unfold PolicyStore.loadActive
  rw [hread]
  rfl

theorem active_withGate (answer : Option Decision) :
    (handle answer).activeScoped codec withGate "main" none none 0 =
      .ok [gate] := by
  have hpaths := listPaths_withGate
  cases hleaves : Repository.new.listPaths withGate "main" "/policies" none with
  | error e =>
      rw [hleaves] at hpaths
      contradiction
  | ok leaves =>
      have hread : (handle answer).repo.listPaths withGate "main"
          (handle answer).pre none = .ok leaves := hleaves
      rw [hleaves] at hpaths
      have hlisted : (leaves.filterMap (listedPolicy (handle answer).pre
          none)).dedup = ["gate"] := Except.ok.inj hpaths
      simp only [PolicyStore.activeScoped, PolicyStore.listScoped, hread, hlisted,
        List.mergeSort_singleton, PolicyStore.loadListed, loadActive_gate]
      rfl

theorem adds_gate (answer : Option Decision) :
    Adds codec (handle answer) "main" none 0 without withGate [] [] gate :=
  ⟨active_without answer, active_withGate answer⟩

/-- The runner of a policy that no token triggers denies the change. -/
theorem untriggered_decides :
    tokensIntersect gate.triggers proposal.tokens = false ∧
      (handle (some (.deny "gate@1" "no"))).evaluateChangeScoped codec without
        "main" proposal none 0 = .ok .noPolicyMatch ∧
      (handle (some (.deny "gate@1" "no"))).evaluateChangeScoped codec withGate
        "main" proposal none 0 = .ok (.deny "gate@1" "no") := by
  refine ⟨by decide, ?_, ?_⟩
  · simp only [PolicyStore.evaluateChangeScoped, active_without]
    rfl
  · simp only [PolicyStore.evaluateChangeScoped, active_withGate]
    rfl

/-- A runner that abstains leaves the decision as it is. -/
theorem evaluateChangeScoped_unrelated_iff_gate :
    (handle (some .noPolicyMatch)).evaluateChangeScoped codec withGate "main"
        proposal none 0 =
      (handle (some .noPolicyMatch)).evaluateChangeScoped codec without "main"
        proposal none 0 := by
  refine (evaluateChangeScoped_unrelated_iff (adds_gate _) (by decide)).mpr ?_
  intro d hd
  exact .abstains (Option.some.inj hd).symm

end UntriggeredRunner

end Policies

end AgentStateGraph
