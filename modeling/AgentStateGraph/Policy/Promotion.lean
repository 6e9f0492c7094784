import AgentStateGraph.Lib.StepRuns
import AgentStateGraph.Policy.ChangeTokens
import AgentStateGraph.Policy.Evaluation
import AgentStateGraph.Repo.Interleaving

/-!
# Promoting a speculation

The tool that promotes a speculation asks the policies first, and then has the
repository commit it.  The repository takes the speculation out before it lands
it, and lets go of its pins whatever came of it.  So a speculation that the
policies refused is still open, and one that a step of the landing refused is
gone.
-/

namespace AgentStateGraph

open Policies StepRuns

variable {Id : Type} [Digest Id]

namespace Promotions

/-! ## The server -/

/-- The server the tool runs on: the repository the speculation lives in, and
the policy store. -/
structure Server where
  instance_ : String
  repo : Repository
  policies : PolicyStore
  codec : PolicyCodec
  policyFailSafe : String

/-- The parameters of a call, with the options of the commit. -/
structure CommitSpecParams where
  handleId : ℕ
  baseRef : Option String
  attachedFields : Option (BTreeMap String String)
  options : CommitOptions

/-- The storage, the open speculations and the pinned roots. -/
structure State (Id : Type) [Digest Id] where
  store : Storage Id
  specs : ℕ → Option (Speculation Id)
  pins : String → Option Id

/-- What a call that does not promote answers. -/
inductive PromotionError (Id : Type) where
  | speculationNotFound (handleId : ℕ)
  | policy (e : PolicyError Id)
  | failSafe (tokens : List String)
  | decided (d : Decision)
  | repo (e : RepoError Id)

def speculationPinKey (server : Server) (handleId : ℕ) (which : String) :
    String :=
  "spec:" ++ server.instance_ ++ ":spec-" ++ Nat.repr handleId ++ ":" ++ which

/-- Both pins are deleted. -/
def State.unpinSpeculation (s : State Id) (server : Server) (handleId : ℕ) :
    State Id :=
  { s with
    pins := fun key =>
      if key = speculationPinKey server handleId "base" ∨
          key = speculationPinKey server handleId "cur" then none
      else s.pins key }

/-! ## The call -/

/-- Where a call is. -/
inductive Phase (Id : Type) where
  | inferring
  | evaluating (tokens : List String)
  | taking
  | landing (spec : Speculation Id) (pc : Pc Id)
  | unpinning (result : Except (PromotionError Id) Id)
  | done (result : Except (PromotionError Id) Id)

def proposal (call : CommitSpecParams) (tokens : List String) :
    ChangeProposal where
  action := "promote_speculation"
  agentId := "mcp-agent"
  tokens := tokens
  attachedFields := call.attachedFields.getD ∅

/-- What is answered to a decision, unless the change is promoted. -/
def refusal (failSafe : String) (tokens : List String) :
    Except (PolicyError Id) Decision → Option (PromotionError Id)
  | .error e => some (.policy e)
  -- An unflagged change can't match any policy, and is promoted.
  | .ok .noPolicyMatch =>
      if failSafe = "deny" ∧ tokens ≠ [] then some (.failSafe tokens) else none
  | .ok (.allow _ _) => none
  | .ok d => some (.decided d)

section Call

variable (server : Server) (call : CommitSpecParams)

def decision (store : Storage Id) (tokens : List String) (now : ℤ) :
    Except (PolicyError Id) Decision :=
  server.policies.evaluateChangeScoped server.codec store
    (call.baseRef.getD "main") (proposal call tokens) none now

/-- The commit of the speculation, as a writer among others. -/
def writer (spec : Speculation Id) : Writer Id :=
  ⟨server.repo, .commitSpeculation spec, call.options⟩

def land (spec : Speculation Id) (pc : Pc Id) (now : ℤ) (store : Storage Id) :
    Storage Id × Pc Id :=
  let r := writerStep (fun _ : Unit => writer server call spec) () now
    ⟨store, []⟩ pc
  (r.1.store, r.2)

/-- One step of the call. -/
def advance (now : ℤ) (s : State Id) : Phase Id → State Id × Phase Id
  | .inferring =>
      match s.specs call.handleId with
      | none => (s, .done (.error (.speculationNotFound call.handleId)))
      | some spec =>
          (s, .evaluating (ChangeTokens.inferTokensFromDiff
            (diff s.store.objects spec.baseRoot spec.currentRoot)))
  | .evaluating tokens =>
      match refusal server.policyFailSafe tokens
          (decision server call s.store tokens now) with
      | some e => (s, .done (.error e))
      | none => (s, .taking)
  | .taking =>
      match s.specs call.handleId with
      | none => (s, .unpinning (.error (.speculationNotFound call.handleId)))
      | some spec =>
          ({ s with specs := Function.update s.specs call.handleId none },
            .landing spec .start)
  | .landing spec pc =>
      match land server call spec pc now s.store with
      | (store, .done (.ok id)) => ({ s with store := store }, .unpinning (.ok id))
      | (store, .done (.error e)) =>
          ({ s with store := store }, .unpinning (.error (.repo e)))
      | (store, pc) => ({ s with store := store }, .landing spec pc)
  | .unpinning result =>
      (s.unpinSpeculation server call.handleId, .done result)
  | .done result => (s, .done result)

/-- The speculation is open as it was, and its roots are pinned. -/
structure Held (spec : Speculation Id) (s : State Id) : Prop where
  open_ : s.specs call.handleId = some spec
  base : s.pins (speculationPinKey server call.handleId "base") =
    some spec.baseRoot
  current : s.pins (speculationPinKey server call.handleId "cur") =
    some spec.currentRoot

/-- What others do: anything but with this speculation. -/
structure OtherWork (Id : Type) [Digest Id] where
  run : State Id → State Id
  specs : ∀ s, (run s).specs call.handleId = s.specs call.handleId
  pins : ∀ s which, (run s).pins (speculationPinKey server call.handleId which) =
    s.pins (speculationPinKey server call.handleId which)

inductive Action (Id : Type) [Digest Id] where
  | own (now : ℤ)
  | other (work : OtherWork server call Id)

structure Config (Id : Type) [Digest Id] where
  state : State Id
  phase : Phase Id

def step (c : Config Id) : Action server call Id → Config Id
  | .own now =>
      let r := advance server call now c.state c.phase
      ⟨r.1, r.2⟩
  | .other work => { c with state := work.run c.state }

/-! ## What a landing refuses -/

/-- The landing cannot go on from here: the speculation touches the reserved
subtree, no attempt is left, the base ref has no head or is reserved, the head
is not stored, the tree is not whole, the commit cannot be stored, or the ref
may not move. -/
def LandingRefuses (spec : Speculation Id) (now : ℤ) (store : Storage Id) :
    Pc Id → Prop
  | .start => ∃ e, checkSpeculation store.objects spec call.options = .error e
  | .reading _ attempt =>
      MAX_REF_CAS_ATTEMPTS ≤ attempt ∨
        ∃ e, server.repo.headForWrite store spec.baseRef = .error e
  | .building _ _ head _ =>
      match store.rootOf head with
      | none => True
      | some root =>
          match speculationRoot spec store root with
          | (.error _, _) => True
          | (.ok newRoot, built) =>
              ∃ e, (server.repo.createCommit built newRoot [head] call.options
                now).1 = .error e
  | .landing _ _ head isBranch commit =>
      ∃ e, server.repo.moveRef store spec.baseRef head isBranch commit = .error e
  | _ => False

/-- The next step is one of a landing, and refuses. -/
def Refuses (c : Config Id) : Action server call Id → Prop
  | .own now =>
      match c.phase with
      | .landing spec pc => LandingRefuses server call spec now c.state.store pc
      | _ => False
  | .other _ => False

/-! ## One step of a landing -/

/-- Where the loop of a promotion can be. -/
def OwnLoop : Pc Id → Prop
  | .start | .reading .own _ | .building .own _ _ _ | .landing .own _ _ _ _ => True
  | _ => False

theorem land_cases (spec : Speculation Id) {pc : Pc Id} (hpc : OwnLoop pc)
    (now : ℤ) (store : Storage Id) :
    (LandingRefuses server call spec now store pc ∧
        ∃ e, (land server call spec pc now store).2 = .done (.error e)) ∨
      (¬LandingRefuses server call spec now store pc ∧
        ((∃ id, (land server call spec pc now store).2 = .done (.ok id)) ∨
          OwnLoop (land server call spec pc now store).2)) := by
  cases pc with
  | start =>
      simp only [land, writerStep, Writer.begin, writer, LandingRefuses]
      cases hcheck : checkSpeculation store.objects spec call.options with
      | error e => exact .inl ⟨⟨e, rfl⟩, e, rfl⟩
      | ok _ => exact .inr ⟨by simp, .inr trivial⟩
  | reading task attempt =>
      cases task with
      | intent returned e rest => exact absurd hpc (by simp [OwnLoop])
      | own =>
          simp only [land, writerStep, writer, Writer.refName, WriteOp.refName,
            LandingRefuses]
          by_cases hattempt : attempt < MAX_REF_CAS_ATTEMPTS
          · rw [if_pos hattempt]
            cases hhead : server.repo.headForWrite store spec.baseRef with
            | error e => exact .inl ⟨.inr ⟨e, rfl⟩, e, rfl⟩
            | ok r => exact .inr ⟨by simp [hattempt], .inr trivial⟩
          · rw [if_neg hattempt]
            exact .inl ⟨.inl (not_lt.mp hattempt), _, rfl⟩
  | building task attempt head isBranch =>
      cases task with
      | intent returned e rest => exact absurd hpc (by simp [OwnLoop])
      | own =>
          simp only [land, writerStep, writer, Writer.buildStep, Writer.build,
            Writer.taskOptions, Writer.refName, WriteOp.refName, LandingRefuses]
          cases hroot : store.rootOf head with
          | none => exact .inl ⟨trivial, _, rfl⟩
          | some root =>
              dsimp only
              rcases hbuild : speculationRoot spec store root with ⟨e | newRoot, built⟩
              · exact .inl ⟨trivial, e, rfl⟩
              · dsimp only
                rcases hcommit : server.repo.createCommit built newRoot [head]
                  call.options now with ⟨e | c, stored⟩
                · exact .inl ⟨⟨e, rfl⟩, e, rfl⟩
                · exact .inr ⟨by simp, .inr trivial⟩
  | landing task attempt head isBranch commit =>
      cases task with
      | intent returned e rest => exact absurd hpc (by simp [OwnLoop])
      | own =>
          simp only [land, writerStep, writer, Writer.refName, WriteOp.refName,
            LandingRefuses]
          rcases hmove : server.repo.moveRef store spec.baseRef head isBranch
            commit with e | ⟨moved, kept⟩
          · exact .inl ⟨⟨e, rfl⟩, e, rfl⟩
          · cases moved with
            | false => exact .inr ⟨by simp, .inr trivial⟩
            | true => exact .inr ⟨by simp, .inl ⟨commit, rfl⟩⟩
  | _ => exact absurd hpc (by simp [OwnLoop])

/-! ## Runs -/

/-- How far a call has come, and whether a step of its landing refused. -/
inductive Along (spec : Speculation Id) (refused : Prop) (s : State Id) :
    Phase Id → Prop
  | asking {phase : Phase Id}
      (hphase : phase = .inferring ∨ (∃ tokens, phase = .evaluating tokens) ∨
        phase = .taking ∨ ∃ e, phase = .done (.error e))
      (hheld : Held server call spec s) (hnot : ¬refused) :
      Along spec refused s phase
  | landing {pc : Pc Id} (hpc : OwnLoop pc)
      (hgone : s.specs call.handleId = none) (hnot : ¬refused) :
      Along spec refused s (.landing spec pc)
  | refused {phase : Phase Id} {e : PromotionError Id}
      (hphase : phase = .unpinning (.error e) ∨ phase = .done (.error e))
      (hgone : s.specs call.handleId = none) (h : refused) :
      Along spec refused s phase
  | landed {phase : Phase Id} {id : Id}
      (hphase : phase = .unpinning (.ok id) ∨ phase = .done (.ok id))
      (hnot : ¬refused) : Along spec refused s phase

variable {server call}

theorem Held.other {spec : Speculation Id} {s : State Id}
    (h : Held server call spec s) (work : OtherWork server call Id) :
    Held server call spec (work.run s) :=
  ⟨(work.specs s).trans h.open_, (work.pins s _).trans h.base,
    (work.pins s _).trans h.current⟩

theorem Along.step {spec : Speculation Id} {refused : Prop} {c : Config Id}
    (h : Along server call spec refused c.state c.phase)
    (action : Action server call Id) :
    Along server call spec (refused ∨ Refuses server call c action)
      (step server call c action).state (step server call c action).phase := by
  obtain ⟨s, phase⟩ := c
  cases action with
  | other work =>
      have hsame : (refused ∨ Refuses server call ⟨s, phase⟩ (.other work)) ↔
          refused := by simp [Refuses]
      rw [hsame]
      cases h with
      | asking hphase hheld hnot => exact .asking hphase (hheld.other work) hnot
      | landing hpc hgone hnot =>
          exact .landing hpc ((work.specs s).trans hgone) hnot
      | refused hphase hgone h =>
          exact .refused hphase ((work.specs s).trans hgone) h
      | landed hphase hnot => exact .landed hphase hnot
  | own now =>
      cases h with
      | asking hphase hheld hnot =>
          have hopen : s.specs call.handleId = some spec := hheld.open_
          have hquiet : ¬(refused ∨ False) := not_or.mpr ⟨hnot, not_false⟩
          obtain rfl | ⟨tokens, rfl⟩ | rfl | ⟨e, rfl⟩ := hphase
          · simp only [Promotions.step, advance, hopen]
            exact .asking (.inr (.inl ⟨_, rfl⟩)) hheld hquiet
          · simp only [Promotions.step, advance]
            split
            next e _ => exact .asking (.inr (.inr (.inr ⟨e, rfl⟩))) hheld hquiet
            next => exact .asking (.inr (.inr (.inl rfl))) hheld hquiet
          · simp only [Promotions.step, advance, hopen]
            exact .landing trivial (Function.update_self ..) hquiet
          · exact .asking (.inr (.inr (.inr ⟨e, rfl⟩))) hheld hquiet
      | landing hpc hgone hnot =>
          rename_i pc
          have hrefuses : Refuses server call ⟨s, .landing spec pc⟩ (.own now) =
              LandingRefuses server call spec now s.store pc := rfl
          simp only [Promotions.step, advance, hrefuses]
          obtain ⟨hrefuse, e, hdone⟩ | ⟨hgoes, ⟨id, hdone⟩ | hloop⟩ :=
            land_cases server call spec hpc now s.store
          · rcases hland : land server call spec pc now s.store with ⟨store, next⟩
            rw [hland] at hdone
            cases hdone
            exact .refused (.inl rfl) hgone (.inr hrefuse)
          · rcases hland : land server call spec pc now s.store with ⟨store, next⟩
            rw [hland] at hdone
            cases hdone
            exact .landed (.inl rfl) (not_or.mpr ⟨hnot, hgoes⟩)
          · rcases hland : land server call spec pc now s.store with ⟨store, next⟩
            rw [hland] at hloop
            have hstill : ¬(refused ∨
                LandingRefuses server call spec now s.store pc) :=
              not_or.mpr ⟨hnot, hgoes⟩
            cases next with
            | done r => exact absurd hloop (by simp [OwnLoop])
            | _ => exact .landing hloop hgone hstill
      | refused hphase hgone h =>
          obtain rfl | rfl := hphase
          · exact .refused (.inr rfl) hgone (.inl h)
          · exact .refused (.inr rfl) hgone (.inl h)
      | landed hphase hnot =>
          obtain rfl | rfl := hphase
          · exact .landed (.inr rfl) (by simp [Refuses, hnot])
          · exact .landed (.inr rfl) (by simp [Refuses, hnot])

variable (server call)

/-- The call on its way, from its start on. -/
def progress (start : State Id) (actions : List (Action server call Id)) :
    Config Id :=
  run (step server call) ⟨start, .inferring⟩ actions

theorem along_progress {spec : Speculation Id} {start : State Id}
    (h : Held server call spec start) (actions : List (Action server call Id)) :
    Along server call spec
      (¬Throughout (step server call) ⟨start, .inferring⟩ actions fun c action =>
        ¬Refuses server call c action)
      (progress server call start actions).state
      (progress server call start actions).phase := by
  induction actions using List.reverseRecOn with
  | nil => exact .asking (.inl rfl) h (by simp [throughout_nil])
  | append_singleton actions action ih =>
      have hstep := ih.step action
      rw [progress, run_append, throughout_append_iff, not_and_or, not_not]
      exact hstep

/-- A call that ends with an error leaves the speculation open as it was, and
pinned, if and only if no step of its landing refused: whatever others do, a
speculation that was refused before it was taken out is kept, and one whose
landing was refused is not. -/
theorem promotion_keeps_iff {spec : Speculation Id} {start : State Id}
    (hheld : Held server call spec start)
    (actions : List (Action server call Id))
    {result : Except (PromotionError Id) Id}
    (hdone : (progress server call start actions).phase = .done result) :
    (∀ e, result = .error e →
        Held server call spec (progress server call start actions).state) ↔
      Throughout (step server call) ⟨start, .inferring⟩ actions fun c action =>
        ¬Refuses server call c action := by
  have halong := along_progress server call hheld actions
  rw [hdone] at halong
  generalize (progress server call start actions).state = s at halong ⊢
  constructor
  · intro hkeeps
    by_contra hrefused
    cases halong with
    | asking hphase hheld hnot => exact hnot hrefused
    | refused hphase hgone h =>
        obtain hphase | hphase := hphase
        · contradiction
        · cases hphase
          have hopen := (hkeeps _ rfl).open_
          rw [hgone] at hopen
          contradiction
    | landed hphase hnot => exact hnot hrefused
  · rintro hgoes e rfl
    cases halong with
    | asking hphase hheld hnot => exact hheld
    | refused hphase hgone h => exact absurd hgoes h
    | landed hphase hnot =>
        obtain hphase | hphase := hphase
        · contradiction
        · cases hphase

end Call

/-! ## A refusal by a policy, and one by the store -/

namespace Sample

open UntriggeredRunner

/-- A server whose runner denies what the policy of the runner decides. -/
def server : Server where
  instance_ := "1"
  repo := .new
  policies := handle (some (.deny "gate@1" "no"))
  codec := codec
  policyFailSafe := "deny"

def call : CommitSpecParams where
  handleId := 7
  baseRef := none
  attachedFields := none
  options :=
    { agentId := "mcp-agent"
      intent :=
        { id := "intent"
          category := .refine
          description := "try"
          tags := []
          parentIntent := none }
      reasoning := none
      confidence := none
      provenance := "" }

/-- A speculation that has changed nothing yet. -/
def speculation : Speculation ContentKey where
  label := none
  baseRef := "work"
  baseRoot := (Object.string "state").id
  currentRoot := (Object.string "state").id

def start (store : Storage ContentKey) : State ContentKey where
  store := store
  specs := fun n => if n = 7 then some speculation else none
  pins := fun _ => some speculation.baseRoot

theorem held_start (store : Storage ContentKey) :
    Held server call speculation (start store) := by
  constructor <;> rfl

/-- Without the speculation. -/
def taken : State ContentKey :=
  { start without with specs := Function.update (start without).specs 7 none }

theorem infer_start (store : Storage ContentKey) :
    step server call ⟨start store, .inferring⟩ (.own 0) =
      ⟨start store, .evaluating []⟩ := by
  have hdiff : diff store.objects speculation.baseRoot
      speculation.currentRoot = [] := if_pos rfl
  have hopen : (start store).specs call.handleId = some speculation := rfl
  simp only [step, advance, hopen]
  rw [show (start store).store.objects = store.objects from rfl, hdiff]
  rfl

end Sample

open Sample UntriggeredRunner in
/-- A speculation that a policy denies stays open. -/
theorem denied_promotion_keeps :
    Held server call speculation
      (progress server call (start withGate) [.own 0, .own 0]).state := by
  have hdecision : decision server call withGate [] 0 =
      .ok (.deny "gate@1" "no") := by
    simp only [decision, server, PolicyStore.evaluateChangeScoped, call,
      Option.getD_none, active_withGate]
    rfl
  have hdone : (progress server call (start withGate) [.own 0, .own 0]).phase =
      .done (.error (.decided (.deny "gate@1" "no"))) := by
    have hstore : (start withGate).store = withGate := rfl
    simp only [progress, run, List.foldl_cons, List.foldl_nil, infer_start]
    simp only [step, advance, hstore, hdecision, refusal]
  refine (promotion_keeps_iff server call (held_start withGate) _ hdone).mpr ?_
    _ rfl
  rw [throughout_cons_iff, throughout_cons_iff, infer_start]
  exact ⟨not_false, not_false, throughout_nil⟩

open Sample UntriggeredRunner in
set_option maxRecDepth 16384 in
/-- The base branch is gone: the promotion fails, and so the speculation is
gone too. -/
theorem vanished_branch_drops :
    Held server call speculation (start without) ∧
      ∃ e, (progress server call (start without)
          (List.replicate 6 (.own 0))).phase = .done (.error e) ∧
        ¬Held server call speculation (progress server call (start without)
          (List.replicate 6 (.own 0))).state := by
  have hdecision : decision server call without [] 0 =
      .ok .noPolicyMatch := by
    simp only [decision, server, PolicyStore.evaluateChangeScoped, call,
      Option.getD_none, active_without]
    rfl
  have hevaluate : step server call ⟨start without, .evaluating []⟩ (.own 0) =
      ⟨start without, .taking⟩ := by
    have hstore : (start without).store = without := rfl
    simp only [step, advance, hstore, hdecision, refusal]
    rfl
  have htake : step server call ⟨start without, .taking⟩ (.own 0) =
      ⟨taken, .landing speculation .start⟩ := rfl
  have hbegin : step server call ⟨taken, .landing speculation .start⟩ (.own 0) =
      ⟨taken, .landing speculation (.reading .own 0)⟩ := by
    have hdiff : diff without.objects speculation.baseRoot
        speculation.currentRoot = [] := if_pos rfl
    have hcheck : checkSpeculation without.objects speculation call.options =
        .ok () := by
      unfold checkSpeculation
      rw [hdiff]
      rfl
    have hland : land server call speculation .start 0 taken.store =
        (without, .reading .own 0) := by
      simp only [land, writerStep, Writer.begin, writer]
      rw [show taken.store = without from rfl, hcheck]
    simp only [step, advance, hland]
    rfl
  have hread : step server call
      ⟨taken, .landing speculation (.reading .own 0)⟩ (.own 0) =
      ⟨taken, .unpinning (.error (.repo (.branchNotFound "work")))⟩ := by
    have hhead : Repository.new.headForWrite without "work" =
        .error (.branchNotFound "work") := by decide
    have hland : land server call speculation (.reading .own 0) 0 taken.store =
        (without, .done (.error (.branchNotFound "work"))) := by
      have hname : (writer server call speculation).refName = "work" := rfl
      have hstore : taken.store = without := rfl
      simp only [land, writerStep, hname, hstore]
      rw [if_pos (by decide)]
      rw [show (writer server call speculation).repo = Repository.new from rfl,
        hhead]
    simp only [step, advance, hland]
    rfl
  have hrun : progress server call (start without)
      (List.replicate 6 (.own 0)) =
      ⟨taken.unpinSpeculation server call.handleId,
        .done (.error (.repo (.branchNotFound "work")))⟩ := by
    have hactions : List.replicate 6 (Action.own 0 : Action server call
        ContentKey) = [.own 0, .own 0, .own 0, .own 0, .own 0, .own 0] := rfl
    rw [hactions]
    simp only [progress, run, List.foldl_cons, List.foldl_nil, infer_start,
      hevaluate, htake, hbegin, hread]
    rfl
  rw [hrun]
  refine ⟨held_start without, _, rfl, fun hheld => ?_⟩
  have hopen := hheld.open_
  contradiction

end Promotions

end AgentStateGraph
