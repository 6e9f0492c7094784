import AgentStateGraph.Lib.Logged
import AgentStateGraph.Lib.StepRuns
import AgentStateGraph.Policy.Canonical
import AgentStateGraph.Policy.Versions
import AgentStateGraph.Repo.Landings

/-!
# Signed policies

Any number of callers propose, ratify, supersede and sign at one path of one
ref.  Signing reads the active version, signs what it read, and attaches the
signature to what stands there when it lands.  A ratification changes the
signed bytes and keeps the signature.
-/

namespace AgentStateGraph

variable {Id : Type} [Digest Id]

namespace Policies

open Program Storage

/-! ## The tools -/

/-- What a policy tool answers instead of its result. -/
inductive PolicyToolError (Id : Type) where
  | noSigner
  | policy (e : PolicyError Id)
  | canonicalize (message : String)
  | sign (message : String)

def toolResult {α : Type} :
    Except (PolicyError Id) α → Except (PolicyToolError Id) α
  | .ok a => .ok a
  | .error e => .error (.policy e)

/-- A store that verifies signatures. -/
def PolicyStore.withVerifier (self : PolicyStore) (codec : SigningCodec)
    (verify : Verifier) : PolicyStore :=
  { self with verifier := some fun p => (verifyPolicy codec verify p).isOk }

section Tools

variable {W : Type} (codec : SigningCodec) (self : PolicyStore)

abbrev ToolCall (W Id α : Type) [Digest Id] :=
  RepoProgram Id (PolicyStore.Supersession W Id) (Except (PolicyToolError Id) α)

/-- The last step of a tool: what its store call answered. -/
def toolCall {α : Type} (call : PolicyStore.Call W Id α) : ToolCall W Id α := do
  let r ← call
  pure (toolResult r)

/-- `impl_policy_sign`: get, sign, attach. -/
def policySign (signer : Option Signer) (refName path : String) :
    ToolCall W Id PolicySignature :=
  match signer with
  | none => pure (.error .noSigner)
  | some sign =>
      (RepoProgram.query fun store => toolResult
        (self.get codec.toPolicyCodec store refName path none)).attempt
          fun policy =>
            match canonicalize codec policy with
            | .error e => pure (.error (.canonicalize e))
            | .ok canonical =>
                match sign canonical with
                | .error e => pure (.error (.sign e))
                | .ok (key, signature) =>
                    (toolCall (self.setSignature codec.toPolicyCodec refName
                      path (.ed25519 key (hexEncode signature)))).attempt
                        fun _ => pure (.ok (.ed25519 key (hexEncode signature)))

/-- A call of a policy tool that writes. -/
inductive ToolOp where
  | propose (policy : Policy)
  | ratify (path ratifier reasoning : String)
  | supersede (path : String) (newPolicy : Policy)
  | sign (path : String)

def ToolOp.path : ToolOp → String
  | .propose policy => policy.path
  | .ratify path _ _ => path
  | .supersede path _ => path
  | .sign path => path

def ToolOp.isSign : ToolOp → Bool
  | .sign _ => true
  | _ => false

/-- What a tool answers where it succeeds: a handle, a signature, or
nothing. -/
inductive ToolAnswer where
  | handle (handle : String)
  | signature (signature : PolicySignature)
  | done

def ToolOp.program (signer : Option Signer) (caller : W) (refName : String) :
    ToolOp → ToolCall W Id ToolAnswer
  | .propose policy =>
      (toolCall (self.propose codec.toPolicyCodec refName policy)).attempt
        fun handle => pure (.ok (.handle handle))
  | .ratify path ratifier reasoning =>
      (toolCall (self.ratify codec.toPolicyCodec refName path ratifier
        reasoning)).attempt fun _ => pure (.ok .done)
  | .supersede path newPolicy =>
      (toolCall (self.supersede codec.toPolicyCodec caller refName path
        newPolicy)).attempt fun handle => pure (.ok (.handle handle))
  | .sign path =>
      (policySign codec self signer refName path).attempt fun signature =>
        pure (.ok (.signature signature))

end Tools

/-! ## What a run shows -/

/-- Who took a step, and whether it moved the ref. -/
structure Turn (W : Type) where
  caller : W
  landed : Bool
deriving DecidableEq

section Log

variable {W : Type} (ops : W → ToolOp)

/-- The caller whose signature the active version carries, where a tool
attached one. -/
def signedBy (log : List (Turn W)) : Option W :=
  log.foldl (fun signed turn =>
    if turn.landed then
      match ops turn.caller with
      | .propose _ => none
      | .ratify .. => signed
      | .supersede .. => none
      | .sign _ => some turn.caller
    else signed) none

variable [DecidableEq W]

/-- Something else than a signature landed since the caller's first step. -/
def Stale (w : W) (log : List (Turn W)) : Prop :=
  ∃ turn ∈ log.dropWhile (·.caller != w),
    turn.landed = true ∧ (ops turn.caller).isSign = false

instance (w : W) (log : List (Turn W)) : Decidable (Stale ops w log) :=
  inferInstanceAs (Decidable (∃ turn ∈ log.dropWhile (·.caller != w),
    turn.landed = true ∧ (ops turn.caller).isSign = false))

/-- A ratification lands on a version that no tool has signed, and a signature
on the version it was made for. -/
def InTurn (log : List (Turn W)) (turn : Turn W) : Prop :=
  turn.landed = true →
    match ops turn.caller with
    | .ratify .. => signedBy ops log = none
    | .sign _ => ¬ Stale ops turn.caller log
    | _ => True

/-- Every step of the log is in turn. -/
def Orderly (log : List (Turn W)) : Prop :=
  StepRuns.Throughout (fun log turn => log ++ [turn]) [] log (InTurn ops)

end Log

/-! ## Steps that advance the ref -/

section Advancing

variable {W : Type}

/-- The ref stays, or moves to a later head. -/
def advancing (W Id : Type) [Digest Id] (ns refName : String) :
    Contract (Traced Id (PolicyStore.Supersession W Id)) where
  invariant _ := True
  guarantee s t := Advances ns refName s.store t.store
  refl s := Advances.refl s.store
  trans := Advances.trans

variable {codec : PolicyCodec} {self : PolicyStore} {refName normalized : String}
  {s : Traced Id (PolicyStore.Supersession W Id)}

theorem steady_write {α β : Type} {ns : String}
    {f : Moment → Storage Id → Outcome Id α}
    {note : α → List (PolicyStore.Supersession W Id)}
    {k : Except (RepoError Id) α →
      RepoProgram Id (PolicyStore.Supersession W Id) β}
    (h : ∀ m store, Advances ns refName store (f m store).2)
    (hk : ∀ r s, Steady (advancing W Id ns refName) (k r) s) :
    Steady (advancing W Id ns refName) (RepoProgram.write f note >>= k) s :=
  (steady_call fun m t _ => ⟨trivial, h m t.store⟩).bind hk

theorem steady_settle {α : Type} {C : Contract (Traced Id
      (PolicyStore.Supersession W Id))} {done : α}
    {again : PolicyStore.Call W Id α} (hagain : ∀ s, Steady C again s)
    (r : Except (RepoError Id) Id) (s : Traced Id (PolicyStore.Supersession W Id)) :
    Steady C (PolicyStore.settle done again r) s := by
  unfold PolicyStore.settle
  split
  · exact steady_pure _
  · exact hagain s
  · exact steady_pure _

theorem setJsonCas_advances (repo : Repository) (store : Storage Id)
    (refName : String) (head : Id) (path : String) (value : Json)
    (options : CommitOptions) (fired : List Escalation) (now : ℕ → ℤ) :
    Advances repo.activeNamespace refName store
      (repo.setJsonCas store refName head path value options fired now).2 := by
  rcases repo.setJsonCas_cases store refName head path value options fired now
    with hrefused | ⟨root, newRoot, p, -, -, hlands, -⟩
  · exact hrefused.advances
  · exact hlands.advances

theorem steady_setActive {α : Type} {head : Id} {value : Json}
    {category : IntentCategory} {description : String}
    {k : Except (RepoError Id) Id → PolicyStore.Call W Id α}
    (hk : ∀ r s, Steady (advancing W Id self.repo.activeNamespace refName)
      (k r) s) :
    Steady (advancing W Id self.repo.activeNamespace refName)
      (self.setActive refName normalized head value category description >>= k)
      s :=
  steady_write (fun _ _ => setJsonCas_advances _ _ _ _ _ _ _ _ _) hk

theorem steady_query_attempt {α β ε : Type} {C : Contract (Traced Id
      (PolicyStore.Supersession W Id))} {f : Storage Id → Except ε α}
    {g : α → RepoProgram Id (PolicyStore.Supersession W Id) (Except ε β)}
    (hg : ∀ a s, Steady C (g a) s) :
    Steady C ((RepoProgram.query f).attempt g) s :=
  (steady_read _).attempt hg

theorem steady_propose (policy : Policy) :
    Steady (advancing W Id self.repo.activeNamespace refName)
      (self.propose codec refName policy) s := by
  have hloop : ∀ normalized handle value left s,
      Steady (advancing W Id self.repo.activeNamespace refName)
        (self.proposeLoop codec refName normalized handle value left) s := by
    intro normalized handle value left
    induction left with
    | zero => exact fun s => steady_pure _
    | succ left ih =>
        intro s
        refine steady_query_attempt fun head s => ?_
        refine steady_query_attempt fun found s => ?_
        split
        · exact steady_pure _
        · exact steady_setActive (steady_settle ih)
  unfold PolicyStore.propose
  split
  next => exact steady_pure _
  next normalized _ =>
    refine (steady_read _).bind fun proposedAt s => ?_
    split
    · refine (steady_read _).bind fun activeFrom s => ?_
      dsimp only
      split
      · exact steady_pure _
      · exact hloop _ _ _ _ _
    · rw [Program.pure_bind]
      dsimp only
      split
      · exact steady_pure _
      · exact hloop _ _ _ _ _

theorem steady_updateActive
    (change : ℤ → Policy →
      Except (PolicyError Id) (Policy × IntentCategory × String)) (left : ℕ) :
    Steady (advancing W Id self.repo.activeNamespace refName)
      (self.updateActive codec refName normalized change left) s := by
  induction left generalizing s with
  | zero => exact steady_pure _
  | succ left ih =>
      refine steady_query_attempt fun head s => ?_
      refine steady_query_attempt fun policy s => ?_
      refine (steady_read _).bind fun now s => ?_
      split
      · exact steady_pure _
      · split
        · exact steady_pure _
        · exact steady_setActive (steady_settle fun _ => ih)

theorem steady_ratify (path ratifier reasoning : String) :
    Steady (advancing W Id self.repo.activeNamespace refName)
      (self.ratify codec refName path ratifier reasoning) s := by
  unfold PolicyStore.ratify
  split
  · exact steady_pure _
  · split
    · exact steady_pure _
    · exact steady_updateActive _ _

theorem commitSpeculationCas_advances (repo : Repository) (store : Storage Id)
    (spec : Speculation Id) (head : Id) (options : CommitOptions) (now : ℤ) :
    Advances repo.activeNamespace spec.baseRef store
      (repo.commitSpeculationCas store spec head options now).2 := by
  rcases repo.commitSpeculationCas_cases store spec head options now with
    hrefused | ⟨-, -, hlands⟩
  · exact hrefused.advances
  · exact hlands.advances

theorem steady_setSpeculation {α : Type} {spec : Speculation Id} {path : String}
    {value : Json} {g : Speculation Id → PolicyStore.Call W Id α} {ns : String}
    (hg : ∀ spec', spec'.baseRef = spec.baseRef →
      ∀ s, Steady (advancing W Id ns refName) (g spec') s) :
    Steady (advancing W Id ns refName)
      ((PolicyStore.setSpeculation spec path value).attempt g) s := by
  change Safe _ _ (RepoProgram.write (fun _ store =>
    specSetJson store spec path value) (fun _ => []) >>= fun out =>
      attempt (pure (liftRepo out)) g) s
  refine RepoProgram.safe_write fun m t _ _ out hout => ?_
  have hadds := specSetJson_addsObjects t.store spec path value
  rw [hout] at hadds
  have href : out.2.refAt ns refName = t.store.refAt ns refName := by
    simp only [Storage.refAt, hadds.refs]
  refine ⟨⟨trivial, .of_refAt_eq
    ⟨hadds.le, hadds.commits.ge, hadds.namespaces⟩ href⟩, ?_⟩
  obtain ⟨r, store'⟩ := out
  cases r with
  | ok spec' => exact hg spec' (specSetJson_baseRoot hout).2 _
  | error e => exact steady_pure _

theorem steady_supersede (caller : W) (path : String) (newPolicy : Policy) :
    Steady (advancing W Id self.repo.activeNamespace refName)
      (self.supersede codec caller refName path newPolicy) s := by
  have hloop : ∀ normalized left newPolicy s,
      Steady (advancing W Id self.repo.activeNamespace refName)
        (self.supersedeLoop codec caller refName normalized newPolicy left)
        s := by
    intro normalized left
    induction left with
    | zero => exact fun newPolicy s => steady_pure _
    | succ left ih =>
        intro newPolicy s
        refine steady_query_attempt fun head s => ?_
        refine steady_query_attempt fun old s => ?_
        refine (steady_read _).bind fun now s => ?_
        dsimp only
        split
        · exact steady_pure _
        · exact steady_pure _
        · refine RepoProgram.safe_query_attempt (fun _ _ => trivial)
            fun s _ _ spec hspec => ?_
          have href : spec.baseRef = refName := by
            unfold liftRepo at hspec
            split at hspec
            next spec' hspec' =>
              obtain ⟨root, -, hspec'⟩ := Except.bind_eq_ok_iff.mp hspec'
              rw [Except.ok.injEq] at hspec hspec'
              rw [← hspec, ← hspec']
            next => contradiction
          refine steady_setSpeculation fun spec₁ h₁ s => ?_
          refine steady_setSpeculation fun spec₂ h₂ s => ?_
          refine steady_write (fun m store => ?_) (steady_settle (ih _))
          have hadvances := commitSpeculationCas_advances self.repo store spec₂
            head (m.options self.agentId .policySupersede ("Supersede " ++
              old.handle ++ " → " ++
              (self.successor newPolicy old normalized now).handle)) (m.now 0)
          rwa [h₂, h₁, href] at hadvances
  unfold PolicyStore.supersede
  split
  · exact steady_pure _
  · split
    · exact (steady_read _).bind fun activeFrom s => hloop _ _ _ _
    · exact hloop _ _ _ _

end Advancing

/-! ## Turns -/

section Turns

variable {W : Type} {ops : W → ToolOp}

theorem signedBy_append (log : List (Turn W)) (turn : Turn W) :
    signedBy ops (log ++ [turn]) =
      if turn.landed then
        match ops turn.caller with
        | .propose _ => none
        | .ratify .. => signedBy ops log
        | .supersede .. => none
        | .sign _ => some turn.caller
      else signedBy ops log := by
  simp only [signedBy, List.foldl_append, List.foldl_cons, List.foldl_nil]

variable [DecidableEq W]

theorem Stale.append {w : W} {log more : List (Turn W)} (h : Stale ops w log) :
    Stale ops w (log ++ more) := by
  obtain ⟨turn, hmem, hturn⟩ := h
  refine ⟨turn, ?_, hturn⟩
  have hne : log.dropWhile (·.caller != w) ≠ [] := List.ne_nil_of_mem hmem
  rw [List.dropWhile_append, if_neg (by simpa using hne)]
  exact List.mem_append_left _ hmem

theorem isSign_of_not_stale {w : W} {log more : List (Turn W)}
    (hbegun : ∃ turn ∈ log, turn.caller = w) (h : ¬ Stale ops w (log ++ more)) :
    ∀ turn ∈ more, turn.landed = true → (ops turn.caller).isSign = true := by
  intro turn hmem hlanded
  by_contra hsign
  apply h
  obtain ⟨first, hfirst, hcaller⟩ := hbegun
  have hne : log.dropWhile (·.caller != w) ≠ [] := by
    intro hnil
    have hall := List.dropWhile_eq_nil_iff.mp hnil first hfirst
    simp [hcaller] at hall
  refine ⟨turn, ?_, hlanded, by simpa using hsign⟩
  rw [List.dropWhile_append, if_neg (by simpa using hne)]
  exact List.mem_append_right _ hmem

omit [DecidableEq W] in
theorem run_log (log : List (Turn W)) :
    StepRuns.run (fun log turn => log ++ [turn]) [] log = log := by
  induction log using List.reverseRecOn with
  | nil => rfl
  | append_singleton log turn ih => rw [StepRuns.run_append, ih]

theorem orderly_append_iff {log : List (Turn W)} {turn : Turn W} :
    Orderly ops (log ++ [turn]) ↔ Orderly ops log ∧ InTurn ops log turn := by
  rw [Orderly, StepRuns.throughout_append_iff, run_log, Orderly]

end Turns

/-! ## What the active version carries -/

section Contract

variable {W : Type} [DecidableEq W] (codec : SigningCodec)
  (signers : W → Option Signer) (ops : W → ToolOp) (reader : PolicyStore)
  (refName normalized : String)

abbrev Logged (W Id : Type) [Digest Id] :=
  Traced Id (PolicyStore.Supersession W Id) × List (Turn W)

/-- What a step is noted as. -/
def noteTurn (ns : String) (w : W)
    (s t : Traced Id (PolicyStore.Supersession W Id)) : Turn W :=
  ⟨w, decide (t.store.refAt ns refName ≠ s.store.refAt ns refName)⟩

/-- The active version that reads. -/
def activeIn (s : Storage Id) : Except (PolicyError Id) Policy :=
  reader.loadActive codec.toPolicyCodec s refName normalized

/-- After an orderly log, a version that a tool signed carries what its signer
made over it; and while only signatures land, the signed bytes stay. -/
def signingContract : Contract (Logged W Id) where
  invariant s :=
    (∃ head, s.1.store.refAt reader.repo.activeNamespace refName = some head) ∧
      (Orderly ops s.2 → ∀ w, signedBy ops s.2 = some w →
        ∃ sign p, signers w = some sign ∧
          activeIn codec reader refName normalized s.1.store = .ok p ∧
          SignedBy codec sign p)
  guarantee s t :=
    Advances reader.repo.activeNamespace refName s.1.store t.1.store ∧
      ∃ more, t.2 = s.2 ++ more ∧
        ((∀ turn ∈ more, turn.landed = true →
            (ops turn.caller).isSign = true) →
          ∀ p, activeIn codec reader refName normalized s.1.store = .ok p →
            ∃ p', activeIn codec reader refName normalized t.1.store = .ok p' ∧
              canonicalize codec p' = canonicalize codec p)
  refl s := ⟨Advances.refl _, [], by simp, fun _ p hp => ⟨p, hp, rfl⟩⟩
  trans := by
    rintro s t u ⟨hst, more, hmore, hsigned⟩ ⟨htu, more', hmore', hsigned'⟩
    refine ⟨hst.trans htu, more ++ more', by simp [hmore', hmore], ?_⟩
    intro hall p hp
    obtain ⟨p', hp', hsame⟩ := hsigned
      (fun turn hturn => hall turn (List.mem_append_left _ hturn)) p hp
    obtain ⟨p'', hp'', hsame'⟩ := hsigned'
      (fun turn hturn => hall turn (List.mem_append_right _ hturn)) p' hp'
    exact ⟨p'', hp'', hsame'.trans hsame⟩

variable {codec signers ops reader refName normalized}
  {self : PolicyStore} {s t : Traced Id (PolicyStore.Supersession W Id)} {log : List (Turn W)} {w : W}

variable {p : Policy} {canonical : Bundles.Bytes} {head : Id}

omit [DecidableEq W] in
/-- A version that was read reads the same while the ref stands. -/
theorem activeIn_of_sameHead {s t : Storage Id}
    (h : reader.repo.SameHead refName s t)
    (hp : activeIn codec reader refName normalized s = .ok p) :
    activeIn codec reader refName normalized t = .ok p := by
  unfold activeIn PolicyStore.loadActive at hp ⊢
  cases hread : reader.repo.getJson s refName
      (active reader.pre normalized) with
  | error e => simp [hread, decodePolicy] at hp
  | ok value =>
      rw [hread] at hp
      rw [h.getJson hread]
      exact hp

theorem exists_refAt_of_advances {ns name : String} {s t : Storage Id}
    (h : Advances ns name s t) (hs : ∃ head, s.refAt ns name = some head) :
    ∃ head, t.refAt ns name = some head := by
  rcases h.head with heq | ⟨-, new, -, hnew, -⟩
  · rw [heq]
    exact hs
  · exact ⟨new, hnew⟩

theorem steps_of_stays
    (hinv : (signingContract codec signers ops reader refName
      normalized).invariant (s, log))
    (hexp : s.store.Expands t.store)
    (href : t.store.refAt reader.repo.activeNamespace refName =
      s.store.refAt reader.repo.activeNamespace refName) (w : W) :
    (signingContract codec signers ops reader refName normalized).invariant
        (t, log ++ [noteTurn refName reader.repo.activeNamespace w s t]) ∧
      (signingContract codec signers ops reader refName normalized).guarantee
        (s, log)
        (t, log ++ [noteTurn refName reader.repo.activeNamespace w s t]) := by
  have hsame : reader.repo.SameHead refName s.store t.store :=
    ⟨hexp, href, hinv.1⟩
  have hnote : noteTurn refName reader.repo.activeNamespace w s t =
      ⟨w, false⟩ := by
    simp [noteTurn, href]
  have hadvances : Advances reader.repo.activeNamespace refName s.store t.store :=
    .of_refAt_eq hexp href
  rw [hnote]
  refine ⟨⟨exists_refAt_of_advances hadvances hinv.1, ?_⟩, hadvances, _, rfl, ?_⟩
  · intro horderly w' hw'
    obtain ⟨sign, p, hsign, hp, hsigned⟩ := hinv.2
      (orderly_append_iff.mp horderly).1 w'
      (by simpa [signedBy_append] using hw')
    exact ⟨sign, p, hsign, activeIn_of_sameHead hsame hp, hsigned⟩
  · intro _ p hp
    exact ⟨p, activeIn_of_sameHead hsame hp, rfl⟩

theorem steps_of_not_sign
    (hinv : (signingContract codec signers ops reader refName
      normalized).invariant (s, log))
    (hadvances : Advances reader.repo.activeNamespace refName s.store t.store)
    (hop : (ops w).isSign = false) :
    (signingContract codec signers ops reader refName normalized).invariant
        (t, log ++ [noteTurn refName reader.repo.activeNamespace w s t]) ∧
      (signingContract codec signers ops reader refName normalized).guarantee
        (s, log)
        (t, log ++ [noteTurn refName reader.repo.activeNamespace w s t]) := by
  by_cases href : t.store.refAt reader.repo.activeNamespace refName =
      s.store.refAt reader.repo.activeNamespace refName
  · exact steps_of_stays hinv hadvances.expands href w
  · have hnote : noteTurn refName reader.repo.activeNamespace w s t =
        ⟨w, true⟩ := by
      simp [noteTurn, href]
    rw [hnote]
    refine ⟨⟨exists_refAt_of_advances hadvances hinv.1, ?_⟩, hadvances, _, rfl, ?_⟩
    · intro horderly w' hw'
      -- whatever landed, no tool's signature is left to speak of
      have hturn := (orderly_append_iff.mp horderly).2 rfl
      rw [signedBy_append] at hw'
      cases hcall : ops w with
      | propose policy => simp [hcall] at hw'
      | supersede path newPolicy => simp [hcall] at hw'
      | ratify path ratifier reasoning =>
          simp only [hcall] at hturn
          simp [hcall, hturn] at hw'
      | sign path => simp [hcall, ToolOp.isSign] at hop
    · intro hall
      have hsign := hall ⟨w, true⟩ (by simp) rfl
      simp [hop] at hsign

/-! ## Signing -/

omit [DecidableEq W] in
/-- On a branch, stores of one namespace and prefix read the same. -/
theorem activeIn_eq {store : Storage Id}
    (hns : self.repo.activeNamespace = reader.repo.activeNamespace)
    (hpre : self.pre = reader.pre)
    (hbranch : ∃ head,
      store.refAt reader.repo.activeNamespace refName = some head) :
    activeIn codec self refName normalized store =
      activeIn codec reader refName normalized store := by
  obtain ⟨head, hhead⟩ := hbranch
  have hres : self.repo.resolveRef store refName =
      reader.repo.resolveRef store refName := by
    by_cases hmem : reader.repo.activeNamespace ∈ store.namespaces
    · rw [reader.repo.resolveRef_of_refAt hmem hhead,
        self.repo.resolveRef_of_refAt (hns ▸ hmem) (hns ▸ hhead)]
    · simp [Repository.resolveRef, Storage.getRef, hns, hmem, liftStorage]
  simp only [activeIn, PolicyStore.loadActive, Repository.getJson,
    Repository.get, Repository.headRoot, hres, hpre]

omit [DecidableEq W] in
/-- A read with a log, then what follows it. -/
theorem steady_logged_query {α β ε : Type} {C : Contract (Logged W Id)}
    {note : Traced Id (PolicyStore.Supersession W Id) →
      Traced Id (PolicyStore.Supersession W Id) → Turn W}
    {f : Storage Id → Except ε α}
    {g : α → RepoProgram Id (PolicyStore.Supersession W Id) (Except ε β)}
    {s : Logged W Id}
    (h : ∀ t log, C.guarantee s (t, log) → C.invariant (t, log) →
      (C.invariant (t, log ++ [note t t]) ∧
        C.guarantee (t, log) (t, log ++ [note t t])) ∧
        ∀ a, f t.store = .ok a →
          Steady C ((g a).logged note) (t, log ++ [note t t])) :
    Steady C (((RepoProgram.query f).attempt g).logged note) s := by
  refine safe_logged_call fun m t log hst ht => ?_
  obtain ⟨hsteps, hrest⟩ := h t log hst ht
  refine ⟨hsteps, ?_⟩
  dsimp only
  cases hf : f t.store with
  | ok a => exact hrest a hf
  | error e => exact steady_pure _

/-- The caller has begun, and until it is stale the active version has the
bytes that it signed. -/
def Signs (codec : SigningCodec) (ops : W → ToolOp) (reader : PolicyStore)
    (refName normalized : String) (w : W) (canonical : Bundles.Bytes)
    (s : Logged W Id) : Prop :=
  (∃ turn ∈ s.2, turn.caller = w) ∧ (¬ Stale ops w s.2 →
    ∃ p, activeIn codec reader refName normalized s.1.store = .ok p ∧
      canonicalize codec p = .ok canonical)

theorem Signs.stable {s t : Logged W Id}
    (h : Signs codec ops reader refName normalized w canonical s)
    (hst : (signingContract codec signers ops reader refName
      normalized).guarantee s t) :
    Signs codec ops reader refName normalized w canonical t := by
  obtain ⟨-, more, hmore, hsigned⟩ := hst
  obtain ⟨turn, hturn, hcaller⟩ := h.1
  refine ⟨⟨turn, ?_, hcaller⟩, fun hfresh => ?_⟩
  · rw [hmore]
    exact List.mem_append_left _ hturn
  · rw [hmore] at hfresh
    obtain ⟨p, hp, hcanonical⟩ := h.2 fun hstale => hfresh hstale.append
    obtain ⟨p', hp', hsame⟩ := hsigned
      (isSign_of_not_stale ⟨turn, hturn, hcaller⟩ hfresh) p hp
    exact ⟨p', hp', hsame.trans hcanonical⟩

omit [DecidableEq W] in
/-- A version that landed in the active place is what reads there. -/
theorem activeIn_of_sets {s t : Storage Id} {root newRoot : Id}
    {path : StatePath} {value : Json} {old : Policy}
    (hread : activeIn codec reader refName normalized s = .ok old)
    (hsets : Sets reader.repo.activeNamespace refName s t head root newRoot path
      value) (hpath : StatePath.parse (active reader.pre normalized) = .ok path)
    (hvalue : codec.toValue p = .ok value) :
    activeIn codec reader refName normalized t = .ok p.stored := by
  unfold activeIn PolicyStore.loadActive at hread
  cases hjson : reader.repo.getJson s refName
      (active reader.pre normalized) with
  | error e => simp [hjson, decodePolicy] at hread
  | ok oldValue =>
      obtain ⟨hsecret, hns, -⟩ :=
        reader.repo.getJson_eq_ok hsets.lands.before hjson
      obtain ⟨newHead, href, hroot, -⟩ := hsets.lands.after
      have hkeeps := keepsPolicy_of_setsAt hsets.sets hvalue
      exact decode_of_keepsPolicy (hsets.lands.expands.namespaces ▸ hns) href
        hroot hpath hsecret hkeeps

theorem steps_of_sign {root newRoot : Id} {path : StatePath} {value : Json}
    {sign : Signer} {key : String} {signature : Bundles.Bytes}
    (hinv : (signingContract codec signers ops reader refName
      normalized).invariant (s, log)) (hsigner : signers w = some sign)
    (hop : (ops w).isSign = true)
    (hsigns : Signs codec ops reader refName normalized w canonical (s, log))
    (hsign : sign canonical = .ok (key, signature))
    (hp : activeIn codec reader refName normalized s.store = .ok p)
    (hsets : Sets reader.repo.activeNamespace refName s.store t.store head root
      newRoot path value)
    (hpath : StatePath.parse (active reader.pre normalized) = .ok path)
    (hvalue : codec.toValue
      { p with signature := some (.ed25519 key (hexEncode signature)) } =
        .ok value) :
    (signingContract codec signers ops reader refName normalized).invariant
        (t, log ++ [noteTurn refName reader.repo.activeNamespace w s t]) ∧
      (signingContract codec signers ops reader refName normalized).guarantee
        (s, log)
        (t, log ++ [noteTurn refName reader.repo.activeNamespace w s t]) := by
  have hnote : noteTurn refName reader.repo.activeNamespace w s t =
      ⟨w, true⟩ := by
    simp [noteTurn, hsets.moved]
  have hadvances := hsets.lands.advances
  have hafter := activeIn_of_sets hp hsets hpath hvalue
  have hbytes := canonicalize_sign codec p
    (some (.ed25519 key (hexEncode signature)))
  rw [hnote]
  refine ⟨⟨exists_refAt_of_advances hadvances hinv.1, ?_⟩, hadvances, _, rfl,
    ?_⟩
  · intro horderly w' hw'
    have hturn := (orderly_append_iff.mp horderly).2 rfl
    cases hcall : ops w with
    | sign path =>
        simp only [hcall] at hturn
        obtain ⟨q, hq, hcanonical⟩ := hsigns.2 hturn
        have hsame : q = p := Except.ok.inj (hq.symm.trans hp)
        subst hsame
        have hw : w = w' := by simpa [signedBy_append, hcall] using hw'
        subst hw
        exact ⟨sign, _, hsigner, hafter, canonical, key, signature,
          hbytes.trans hcanonical, hsign, rfl⟩
    | propose policy => simp [hcall, ToolOp.isSign] at hop
    | ratify path ratifier reasoning => simp [hcall, ToolOp.isSign] at hop
    | supersede path newPolicy => simp [hcall, ToolOp.isSign] at hop
  · intro _ q hq
    have hsame : q = p := Except.ok.inj (hq.symm.trans hp)
    subst hsame
    exact ⟨_, hafter, hbytes⟩

omit [DecidableEq W] in
theorem refAt_of_liftRepo {store : Storage Id}
    (hbranch : ∃ head, store.refAt self.repo.activeNamespace refName = some head)
    (hread : liftRepo (self.repo.resolveRef store refName) = .ok head) :
    store.refAt self.repo.activeNamespace refName = some head := by
  obtain ⟨h, hh⟩ := hbranch
  by_cases hmem : self.repo.activeNamespace ∈ store.namespaces
  · rw [self.repo.resolveRef_of_refAt hmem hh, liftRepo,
      Except.ok.injEq] at hread
    rw [hh, hread]
  · simp [Repository.resolveRef, Storage.getRef, hmem, liftStorage,
      liftRepo] at hread

omit [DecidableEq W] in
theorem steady_logged_settle {α : Type} {C : Contract (Logged W Id)}
    {note : Traced Id (PolicyStore.Supersession W Id) →
      Traced Id (PolicyStore.Supersession W Id) → Turn W}
    {done : α} {again : PolicyStore.Call W Id α} {s : Logged W Id}
    (hagain : Steady C (again.logged note) s) (r : Except (RepoError Id) Id) :
    Steady C ((PolicyStore.settle done again r).logged note) s := by
  unfold PolicyStore.settle
  split
  · exact steady_pure _
  · exact hagain
  · exact steady_pure _

theorem steady_attachSignature {sign : Signer} {key : String}
    {signature : Bundles.Bytes}
    (hns : self.repo.activeNamespace = reader.repo.activeNamespace)
    (hpre : self.pre = reader.pre) (hsigner : signers w = some sign)
    (hop : (ops w).isSign = true)
    (hsign : sign canonical = .ok (key, signature)) (left : ℕ) {s : Logged W Id}
    (hsigns : Signs codec ops reader refName normalized w canonical s) :
    Steady (signingContract codec signers ops reader refName normalized)
      ((self.updateActive codec.toPolicyCodec refName normalized
        (PolicyStore.signing (.ed25519 key (hexEncode signature))) left :
          PolicyStore.Call W Id Unit).logged
            (noteTurn refName reader.repo.activeNamespace w)) s := by
  induction left generalizing s with
  | zero => exact steady_pure _
  | succ left ih =>
      refine steady_logged_query fun s₁ log₁ hs₁ hinv₁ => ?_
      have hstay₁ := steps_of_stays hinv₁ (Expands.refl _) rfl w
      have hsigns₁ := (hsigns.stable hs₁).stable hstay₁.2
      refine ⟨hstay₁, fun head hread => ?_⟩
      refine steady_logged_query fun s₂ log₂ hs₂ hinv₂ => ?_
      have hstay₂ := steps_of_stays hinv₂ (Expands.refl _) rfl w
      have hsigns₂ := (hsigns₁.stable hs₂).stable hstay₂.2
      refine ⟨hstay₂, fun p hload => ?_⟩
      refine safe_logged_call fun m s₃ log₃ hs₃ hinv₃ => ?_
      have hstay₃ := steps_of_stays hinv₃ (Expands.refl _) rfl w
      have hsigns₃ := (hsigns₂.stable hs₃).stable hstay₃.2
      refine ⟨hstay₃, ?_⟩
      dsimp only [PolicyStore.signing]
      split
      next => exact steady_pure _
      next value hvalue =>
        refine safe_logged_call fun m s₄ log₄ hs₄ hinv₄ => ?_
        have hsigns₄ := hsigns₃.stable hs₄
        simp only [RepoProgram.noted_nil, List.append_nil]
        have h₁ : s₁.store.refAt reader.repo.activeNamespace refName =
            some head := by
          rw [← hns]
          exact refAt_of_liftRepo (hns ▸ hinv₁.1) hread
        have h₂₄ := hs₃.1.trans hs₄.1
        have hp₂ : activeIn codec reader refName normalized s₂.store =
            .ok p := by
          rw [← activeIn_eq hns hpre hinv₂.1]
          exact hload
        rcases self.repo.setJsonCas_sets s₄.store refName head
            (active self.pre normalized) value
            (m.options self.agentId .policySign ("Sign policy " ++ p.handle))
            m.fired m.now with
          hrefused | ⟨root, newRoot, path, hpath, hsets⟩
        · have hsteps := steps_of_stays (t := ⟨_, s₄.trace⟩) hinv₄ hrefused.expands
            (hns ▸ hrefused.refAt) w
          exact ⟨hsteps, steady_logged_settle
            (ih (hsigns₄.stable hsteps.2)) _⟩
        · rw [hns] at hsets
          have h₂ := hs₂.1.no_return h₂₄ h₁ hsets.lands.before
          have hp₄ := activeIn_of_sameHead ⟨h₂₄.expands,
            hsets.lands.before.trans h₂.symm, hinv₂.1⟩ hp₂
          rw [hpre] at hpath
          have hsteps := steps_of_sign (t := ⟨_, s₄.trace⟩) hinv₄ hsigner hop hsigns₄
            hsign hp₄ hsets hpath hvalue
          exact ⟨hsteps, steady_logged_settle
            (ih (hsigns₄.stable hsteps.2)) _⟩

theorem steady_policySign {path : String}
    (hns : self.repo.activeNamespace = reader.repo.activeNamespace)
    (hpre : self.pre = reader.pre) (hop : (ops w).isSign = true)
    (hpath : normalize path = (.ok normalized : Except (PolicyError Id) _))
    {s : Logged W Id} :
    Steady (signingContract codec signers ops reader refName normalized)
      ((policySign codec self (signers w) refName path).logged
        (noteTurn refName reader.repo.activeNamespace w)) s := by
  unfold policySign
  split
  next => exact steady_pure _
  next sign hsigner =>
    refine steady_logged_query fun t log _ hinv => ?_
    have hstay := steps_of_stays hinv (Expands.refl _) rfl w
    refine ⟨hstay, fun p hget => ?_⟩
    split
    next => exact steady_pure _
    next canonical hcanonical =>
      split
      next => exact steady_pure _
      next key signature hsign =>
        refine Steady.logged_attempt ?_ fun _ _ => steady_pure _
        refine Steady.logged_bind ?_ fun _ _ => steady_pure _
        simp only [PolicyStore.setSignature, hpath]
        refine steady_attachSignature hns hpre hsigner hop hsign _ ?_
        refine ⟨⟨noteTurn refName reader.repo.activeNamespace w t t, by simp,
          rfl⟩, fun _ => ⟨p, ?_, hcanonical⟩⟩
        rw [← activeIn_eq hns hpre hinv.1]
        simp only [PolicyStore.get, hpath, Except.ok_bind] at hget
        change self.loadActive codec.toPolicyCodec t.store refName normalized =
          .ok p
        unfold toolResult at hget
        split at hget
        next q hq => rw [hq, Except.ok.inj hget]
        next => contradiction

theorem steady_program
    (hns : self.repo.activeNamespace = reader.repo.activeNamespace)
    (hpre : self.pre = reader.pre)
    (hpath : normalize (ops w).path =
      (.ok normalized : Except (PolicyError Id) _))
    {s : Logged W Id} :
    Steady (signingContract codec signers ops reader refName normalized)
      (((ops w).program codec self (signers w) w refName).logged
        (noteTurn refName reader.repo.activeNamespace w)) s := by
  have hquiet : ∀ {p : ToolCall W Id ToolAnswer},
      (ops w).isSign = false →
      Steady (advancing W Id self.repo.activeNamespace refName) p s.1 →
      Steady (signingContract codec signers ops reader refName normalized)
        (p.logged (noteTurn refName reader.repo.activeNamespace w)) s := by
    intro p hop hp
    rw [hns] at hp
    refine hp.logged (D := signingContract codec signers ops reader refName
      normalized) (fun _ _ h => h.1) (fun _ _ => trivial) ?_
    intro s t log hadvances hinv
    exact steps_of_not_sign hinv hadvances hop
  have htool : ∀ {α : Type} {call : PolicyStore.Call W Id α}
      {f : α → ToolAnswer},
      Steady (advancing W Id self.repo.activeNamespace refName) call s.1 →
      Steady (advancing W Id self.repo.activeNamespace refName)
        ((toolCall call).attempt fun a => pure (.ok (f a))) s.1 := by
    intro α call f hcall
    exact Steady.attempt (hcall.bind fun _ _ => steady_pure _)
      fun _ _ => steady_pure _
  cases hcall : ops w with
  | propose policy =>
      exact hquiet (by simp [hcall, ToolOp.isSign])
        (htool (steady_propose policy))
  | ratify path ratifier reasoning =>
      exact hquiet (by simp [hcall, ToolOp.isSign])
        (htool (steady_ratify path ratifier reasoning))
  | supersede path newPolicy =>
      exact hquiet (by simp [hcall, ToolOp.isSign])
        (htool (steady_supersede w path newPolicy))
  | sign path =>
      rw [hcall] at hpath
      exact Steady.logged_attempt (steady_policySign hns hpre
        (by simp [hcall, ToolOp.isSign]) hpath) fun _ _ => steady_pure _

/-! ## Every interleaving -/

/-- The tools, none begun, on a store. -/
def toolsStart (codec : SigningCodec) (stores : W → PolicyStore)
    (signers : W → Option Signer) (ops : W → ToolOp) (refName : String)
    (store : Storage Id) :
    Config W Moment (Traced Id (PolicyStore.Supersession W Id))
      (Except (PolicyToolError Id) ToolAnswer) :=
  ⟨⟨store, []⟩,
    fun w => (ops w).program codec (stores w) (signers w) w refName⟩

/-- Who took each step of a run of the tools, and whether it landed. -/
def turnsOf (codec : SigningCodec) (stores : W → PolicyStore)
    (signers : W → Option Signer) (ops : W → ToolOp) (reader : PolicyStore)
    (refName : String) (store : Storage Id) (schedule : List (W × Moment)) :
    List (Turn W) :=
  (((toolsStart codec stores signers ops refName store).logged
    (noteTurn refName reader.repo.activeNamespace)).run schedule).shared.2

/-- Any number of tools that propose, ratify, supersede and sign at one path
of one ref, in any interleaving, with ideal signatures.  Where no ratification
lands on a signed version, and nothing but signatures lands between a tool's
read and its own signature, the active version that a tool signed verifies and
is not dropped for its signature. -/
theorem signed_policy_verifies (codec : SigningCodec) (verify : Verifier)
    (stores : W → PolicyStore) (signers : W → Option Signer) (ops : W → ToolOp)
    (reader : PolicyStore) (refName normalized : String) (store : Storage Id)
    (hideal : ∀ w sign, signers w = some sign → verify.Ideal sign)
    (hstores : ∀ w,
      (stores w).repo.activeNamespace = reader.repo.activeNamespace ∧
      (stores w).pre = reader.pre ∧
      normalize (ops w).path = (.ok normalized : Except (PolicyError Id) _))
    (hbranch : ∃ head,
      store.refAt reader.repo.activeNamespace refName = some head)
    (schedule : List (W × Moment))
    (horderly : Orderly ops (turnsOf codec stores signers ops reader refName
      store schedule)) :
    ∀ w p, signedBy ops (turnsOf codec stores signers ops reader refName store
        schedule) = some w →
      reader.loadActive codec.toPolicyCodec ((toolsStart codec stores signers
        ops refName store).run schedule).shared.store refName normalized =
          .ok p →
      verifyPolicy codec verify p = .ok () ∧
        (reader.withVerifier codec verify).signaturePasses p = true := by
  intro w p hw hp
  have hstart : ((toolsStart codec stores signers ops refName store).logged
      (noteTurn refName reader.repo.activeNamespace)).Holds
      (signingContract codec signers ops reader refName normalized)
      fun _ _ _ => True := by
    refine ⟨⟨hbranch, fun _ w hw => ?_⟩, fun w => ?_⟩
    · simp [Config.logged, signedBy] at hw
    · obtain ⟨hns, hpre, hpath⟩ := hstores w
      exact steady_program hns hpre hpath
  have hinv := (Config.holds_run hstart schedule).1.1
  obtain ⟨sign, q, hsigner, hq, hsigned⟩ := hinv.2 horderly w hw
  rw [Config.logged_run_shared] at hq
  have hsame : q = p := Except.ok.inj (hq.symm.trans hp)
  subst hsame
  have hverify := hsigned.verifyPolicy (hideal w sign hsigner)
  refine ⟨hverify, ?_⟩
  obtain ⟨_, key, signature, -, -, hsignature⟩ := hsigned
  simp [PolicyStore.signaturePasses, PolicyStore.withVerifier, hsignature,
    hverify, Except.isOk, Except.toBool]

end Contract

/-! ## A policy signed, then ratified -/

namespace Outlived

open ContentKey

/-- A first version with nothing but its place, its author, its ratifier and
its signature. -/
def sample (path proposedBy : String) (ratifiedBy : Option String)
    (signature : Option PolicySignature) : Policy :=
  { Race.plain path 1 proposedBy none with
    ratifiedBy := ratifiedBy
    ratifiedAt := ratifiedBy.map fun _ => 0
    signature := signature }

def isSample (p : Policy) : Bool :=
  Race.isPlain { p with
    ratifiedBy := none, ratifiedAt := none, signature := none } &&
  p.version == 1 && p.supersedes == none &&
  p.ratifiedAt == p.ratifiedBy.map fun _ => 0

theorem eq_sample {p : Policy} (h : isSample p = true) :
    p = sample p.path p.proposedBy p.ratifiedBy p.signature := by
  simp only [isSample, Bool.and_eq_true, beq_iff_eq] at h
  obtain ⟨⟨⟨hplain, hversion⟩, hsupersedes⟩, hat⟩ := h
  have heq := (Race.eq_plain hplain).1
  obtain ⟨path, version, situation, selector, allow, deny, requireApproval,
    procedure, triggers, requiredFields, severity, proposedBy, proposedAt,
    ratifiedBy, ratifiedAt, reasoning, activeFrom, expiresAt, supersedes,
    signature, tenantId, evaluator⟩ := p
  simp_all [sample, Race.plain]

def signatureValue : PolicySignature → Json
  | .ed25519 key text => .object [("algorithm", .string "ed25519"),
      ("signature_hex", .string text), ("signer_key_id", .string key)]

def epoch : Json := .string "1970-01-01T00:00:00Z"

def document (path proposedBy : String) (ratifiedBy : Option String)
    (signature : Option PolicySignature) : Json :=
  .object ([("active_from", epoch), ("allow", .array []), ("deny", .array []),
      ("path", .string path), ("proposed_at", epoch),
      ("proposed_by", .string proposedBy)] ++
    (ratifiedBy.toList.flatMap fun by_ =>
      [("ratified_at", epoch), ("ratified_by", .string by_)]) ++
    [("require_approval", .array []), ("required_fields", .array []),
      ("severity", .string "low")] ++
    (signature.toList.map fun s => ("signature", signatureValue s)) ++
    [("situation", .string "pod failing"),
      ("situation_selector", .object [("kind", .string "always")]),
      ("triggers", .array []), ("version", .number (.posInt 1))])

theorem document_isCanonical (path proposedBy : String)
    (ratifiedBy : Option String) (signature : Option PolicySignature) :
    (document path proposedBy ratifiedBy signature).isCanonical = true := by
  rw [document, Json.isCanonical, Bool.and_eq_true, decide_eq_true_eq]
  constructor
  · cases ratifiedBy <;> cases signature <;>
      simp only [Option.toList_none, Option.toList_some, List.flatMap_nil,
        List.flatMap_cons, List.map_cons, List.map_nil, List.nil_append,
        List.append_nil, List.cons_append] <;>
      decide
  · have hsignature : ∀ s, (signatureValue s).isCanonical = true := by
      rintro ⟨key, text⟩
      rw [signatureValue, Json.isCanonical, Bool.and_eq_true, decide_eq_true_eq]
      exact ⟨by simp only [List.map_cons, List.map_nil]; decide,
        by simp [Json.entriesCanonical, Json.isCanonical]⟩
    cases ratifiedBy <;> cases signature <;>
      simp [Json.isCanonical, Json.entriesCanonical, Json.areCanonical,
        Number.isCanonical, epoch, hsignature]

def toValue (p : Policy) : Except String Json :=
  if isSample p then
    .ok (document p.path p.proposedBy p.ratifiedBy p.signature)
  else .error "not a sample"

def ratifierOf (entries : List (String × Json)) : Option String :=
  match entries.lookup "ratified_by" with
  | some (.string by_) => some by_
  | _ => none

def signatureOf (entries : List (String × Json)) : Option PolicySignature :=
  match entries.lookup "signature" with
  | some (.object [_, (_, .string text), (_, .string key)]) =>
      some (.ed25519 key text)
  | _ => none

def fromValue : Json → Except String Policy
  | .object entries =>
      match entries.lookup "path", entries.lookup "proposed_by" with
      | some (.string path), some (.string proposedBy) =>
          .ok (sample path proposedBy (ratifierOf entries)
            (signatureOf entries))
      | _, _ => .error "missing field"
  | _ => .error "invalid type"

theorem fromValue_document (path proposedBy : String)
    (ratifiedBy : Option String) (signature : Option PolicySignature) :
    fromValue (document path proposedBy ratifiedBy signature) =
      .ok (sample path proposedBy ratifiedBy signature) := by
  rcases ratifiedBy with _ | by_ <;> rcases signature with _ | ⟨key, text⟩ <;>
    rfl

theorem isSample_stored (p : Policy) : isSample p.stored = isSample p := by
  have hnil : (p.requireApproval.map ApprovalRule.stored == []) =
      (p.requireApproval == []) := by
    cases p.requireApproval <;> rfl
  simp only [isSample, Race.isPlain, Policy.stored, hnil]
  rfl

/-- The text of a scalar, where nothing needs escaping. -/
def scalar : ScalarText
  | .string s => '"'.toUInt8 :: s.toList.map Char.toUInt8 ++ ['"'.toUInt8]
  | .number (.posInt n) => (Nat.toDigits 10 n.toNat).map Char.toUInt8
  | _ => []

def sampleCodec : SigningCodec where
  toValue := toValue
  fromValue := fromValue
  scalar := scalar
  canonical := by
    intro p value h
    unfold toValue at h
    split at h
    · rw [← Except.ok.inj h]
      exact document_isCanonical _ _ _ _
    · contradiction
  fromValue_toValue := by
    intro p value h
    unfold toValue at h
    split at h
    next hsample =>
      have heq := eq_sample hsample
      have hstored : p.stored = p := by
        rw [heq]
        rfl
      rw [← Except.ok.inj h, fromValue_document, hstored, ← heq]
    next => contradiction
  toValue_stored := by
    intro p
    simp only [toValue, isSample_stored]
    rfl
  toValue_signature := by
    intro p signature
    have hstrip : ∀ s, stripSignature
        (document p.path p.proposedBy p.ratifiedBy s) =
        document p.path p.proposedBy p.ratifiedBy none := by
      intro s
      cases p.ratifiedBy <;> rcases s with _ | ⟨key, text⟩ <;> rfl
    have hsame : isSample { p with signature := signature } = isSample p := rfl
    simp only [toValue, hsame]
    split
    · simp only [Except.map, hstrip]
    · rfl

def bytesOf (p : Policy) : Bundles.Bytes :=
  match canonicalize sampleCodec p with
  | .ok canonical => canonical
  | .error _ => []

/-- What the signer agrees to sign: the proposal and what is made of it. -/
def messages : List Bundles.Bytes :=
  [bytesOf (sample "infra/k8s" "ops" none none),
    bytesOf (sample "infra/k8s" "ops" (some "lead") none)]

/-- Ideal signatures: which of the messages it is. -/
def sign : Signer := fun message =>
  if messages[0]? = some message then .ok ("ops-key", [0])
  else if messages[1]? = some message then .ok ("ops-key", [1])
  else .error "refused"

def verify : Verifier := fun key signature message =>
  if key = "ops-key" ∧ signature.length = 1 ∧
      signature.head?.bind (fun i => messages[i.toNat]?) = some message then
    .ok ()
  else .error "signature verification failed"

theorem verify_ideal : verify.Ideal sign := by
  intro message key signature h other
  unfold sign at h
  split at h
  next hfirst =>
    simp only [Except.ok.injEq, Prod.mk.injEq] at h
    simp [verify, ← h.1, ← h.2, hfirst, eq_comm]
  next =>
    split at h
    next hsecond =>
      simp only [Except.ok.injEq, Prod.mk.injEq] at h
      simp [verify, ← h.1, ← h.2, hsecond, eq_comm]
    next => contradiction

inductive Caller where
  | proposer | ratifier | signer
deriving DecidableEq

def stores (_ : Caller) : PolicyStore :=
  PolicyStore.new Repository.new "/policies/" "ops"

def signers (_ : Caller) : Option Signer := some sign

def ops : Caller → ToolOp
  | .proposer => .propose (sample "infra/k8s" "" none none)
  | .ratifier => .ratify "infra/k8s" "lead" ""
  | .signer => .sign "infra/k8s"

/-- One after another. -/
def schedule (order : List Caller) : List (Caller × Moment) :=
  order.flatMap fun w => List.replicate 5 (w, Race.moment)

def fin (order : List Caller) :
    Config Caller Moment (Traced ContentKey
      (PolicyStore.Supersession Caller ContentKey))
      (Except (PolicyToolError ContentKey) ToolAnswer) :=
  (toolsStart sampleCodec stores signers ops "main" Race.store).run
    (schedule order)

def turns (order : List Caller) : List (Turn Caller) :=
  turnsOf sampleCodec stores signers ops (stores .signer) "main" Race.store
    (schedule order)

/-- Of the active version: whether it is in force, whether it verifies, and
whether an evaluation takes it into account. -/
def seen (store : Storage ContentKey) : Option (Bool × Bool × Bool) :=
  match (stores .signer).loadActive sampleCodec.toPolicyCodec store "main"
      "infra/k8s" with
  | .ok p => some (p.isCurrentlyActive 0, (verifyPolicy sampleCodec verify p).isOk,
      ((stores .signer).withVerifier sampleCodec verify).signaturePasses p)
  | .error _ => none

/-- The log of a run, and what is seen at its end. -/
def outcome (order : List Caller) :
    List (Turn Caller) × Option (Bool × Bool × Bool) :=
  let recorded := (((toolsStart sampleCodec stores signers ops "main"
    Race.store).logged (noteTurn "main"
      (stores .signer).repo.activeNamespace)).run (schedule order)).shared
  (recorded.2, seen recorded.1.store)

theorem of_outcome {order : List Caller} {log : List (Turn Caller)}
    {inForce verifies passes : Bool}
    (h : outcome order = (log, some (inForce, verifies, passes))) :
    turns order = log ∧
      ∃ p, (stores .signer).loadActive sampleCodec.toPolicyCodec
          (fin order).shared.store "main" "infra/k8s" = .ok p ∧
        p.isCurrentlyActive 0 = inForce ∧
        (verifyPolicy sampleCodec verify p).isOk = verifies ∧
        ((stores .signer).withVerifier sampleCodec verify).signaturePasses p =
          passes := by
  obtain ⟨hlog, hseen⟩ := Prod.mk.inj h
  refine ⟨hlog, ?_⟩
  rw [Config.logged_run_shared] at hseen
  change seen (fin order).shared.store = _ at hseen
  unfold seen at hseen
  split at hseen
  next p hp =>
    simp only [Option.some.injEq, Prod.mk.injEq] at hseen
    exact ⟨p, hp, hseen.1, hseen.2.1, hseen.2.2⟩
  next => contradiction

/-- The steps of three calls, the last of which land. -/
def steps (first second third : Caller) : List (Turn Caller) :=
  [first, second, third].flatMap fun w =>
    List.replicate (if w = .ratifier then 3 else 4) ⟨w, false⟩ ++ [⟨w, true⟩]

theorem hideal (w : Caller) (sgn : Signer) (h : signers w = some sgn) :
    verify.Ideal sgn := by
  rw [← Option.some.inj h]
  exact verify_ideal

theorem normalize_ops (w : Caller) : normalize (ops w).path =
    (.ok "infra/k8s" : Except (PolicyError ContentKey) String) := by
  cases w <;> decide

end Outlived

open Outlived in
set_option maxRecDepth 4000 in
/-- A policy is proposed, signed and then ratified: the ratified version
carries the signature of the proposal, and a verifier drops it. -/
theorem signature_outlived :
    (∀ w sgn, signers w = some sgn → verify.Ideal sgn) ∧
      signedBy ops (turns [.proposer, .signer, .ratifier]) = some .signer ∧
      ∃ p, (stores .signer).loadActive sampleCodec.toPolicyCodec
          (fin [.proposer, .signer, .ratifier]).shared.store "main"
          "infra/k8s" = .ok p ∧
        p.isCurrentlyActive 0 = true ∧
        (verifyPolicy sampleCodec verify p).isOk = false ∧
        ((stores .signer).withVerifier sampleCodec verify).signaturePasses p =
          false := by
  have hout : outcome [.proposer, .signer, .ratifier] =
      (steps .proposer .signer .ratifier, some (true, false, false)) := by
    decide +kernel
  obtain ⟨hturns, hseen⟩ := of_outcome hout
  refine ⟨hideal, ?_, hseen⟩
  rw [hturns]
  decide

open Outlived in
/-- Signed after it was ratified, it verifies. -/
theorem signed_policy_verifies_ratified :
    ∃ p, (stores .signer).loadActive sampleCodec.toPolicyCodec
        (fin [.proposer, .ratifier, .signer]).shared.store "main"
        "infra/k8s" = .ok p ∧
      p.isCurrentlyActive 0 = true ∧
      verifyPolicy sampleCodec verify p = .ok () ∧
      ((stores .signer).withVerifier sampleCodec verify).signaturePasses p =
        true := by
  have hout : outcome [.proposer, .ratifier, .signer] =
      (steps .proposer .ratifier .signer, some (true, true, true)) := by
    decide +kernel
  obtain ⟨hturns, p, hp, hforce, -⟩ := of_outcome hout
  have horderly : Orderly ops (turns [.proposer, .ratifier, .signer]) := by
    rw [hturns]
    simp only [Orderly, steps, List.flatMap_cons, List.flatMap_nil,
      List.replicate, List.cons_append, List.nil_append, reduceCtorEq,
      reduceIte, StepRuns.throughout_cons_iff, InTurn, ops,
      StepRuns.throughout_nil, and_true]
    decide
  have hsigner : signedBy ops (turns [.proposer, .ratifier, .signer]) =
      some .signer := by
    rw [hturns]
    decide
  rw [fin] at hp ⊢
  rw [turns] at horderly hsigner
  obtain ⟨hverify, hpasses⟩ := signed_policy_verifies sampleCodec verify stores
    signers ops (stores .signer) "main" "infra/k8s" Race.store hideal
    (fun w => ⟨rfl, rfl, normalize_ops w⟩) ⟨Race.begun.id, by decide⟩
    (schedule _) horderly .signer p hsigner hp
  exact ⟨p, hp, hforce, hverify, hpasses⟩

end Policies

end AgentStateGraph
