import AgentStateGraph.Backend.MemoryTables
import AgentStateGraph.Core.ContentKey
import AgentStateGraph.Lib.StepRuns
import AgentStateGraph.Repo.Ancestry

/-!
# Sealing an epoch in steps

`seal_epoch` reads the epoch, collects the commits its scope covers and writes
the seal, each at another moment.  It collects from the namespace of the
handle it is called on, and a plan's commits from the read: a seal records
what it claims when the handle is on the epoch's own namespace, when no commit
joined the plan after the read, and when no commit of a sealed plan is tagged
to another epoch.
-/

namespace AgentStateGraph

namespace SealSteps

open Backend

variable {Id : Type} [Digest Id]

/-! ## The store -/

/-- The refs and commits of the store, and its epoch table with every
column. -/
structure World (Id : Type) [Digest Id] where
  storage : Storage Id
  table : EpochTable Id

/-- The commits in the history of a ref. -/
def World.Reaches (w : World Id) (ns ref : String) (c : Id) : Prop :=
  ∃ head, w.storage.refAt ns ref = some head ∧
    w.storage.commits.IsAncestor c head

/-- The digest over an epoch's sealed set, whatever the order of the walk. -/
def computeSealHash (hash : String → List Id → Id) (id : String)
    (sealedCommits : List Id) : Id :=
  hash id (sealedCommits.mergeSort fun a b => decide (a ≤ b))

/-- The commits that a scope covers: a walk from its ref, or for a plan the
commits read with the epoch. -/
def World.collect (w : World Id) (ns : String) (epoch : EpochRow Id) :
    Except StorageError (List Id) :=
  match epoch.scope.sealRef with
  | none => .ok epoch.commits
  | some refName =>
      match w.storage.getRef ns refName with
      | .error e => .error e
      | .ok none => .ok []
      | .ok (some head) => .ok (w.storage.commits.ancestry [head])

theorem World.mem_collect {w : World Id} {ns ref : String}
    {epoch : EpochRow Id} {commits : List Id}
    (hscope : epoch.scope.sealRef = some ref)
    (h : w.collect ns epoch = .ok commits) (c : Id) :
    c ∈ commits ↔ w.Reaches ns ref c := by
  simp only [collect, hscope] at h
  have hget : ∀ r, w.storage.getRef ns ref = .ok r →
      w.storage.refAt ns ref = r := by
    intro r hr
    unfold Storage.getRef at hr
    split at hr
    · exact Except.ok.inj hr
    · contradiction
  split at h
  next => contradiction
  next hnone =>
    obtain rfl := Except.ok.inj h
    simp [Reaches, hget _ hnone]
  next head hsome =>
    obtain rfl := Except.ok.inj h
    simp [Reaches, hget _ hsome, CommitStore.mem_ancestry_iff]

/-! ## Calls -/

/-- How far a call has come: the epoch it read, or the commits it
collected. -/
inductive Phase (Id : Type) where
  | read (epoch : EpochRow Id)
  | collected (commits : List Id)

/-- A running call of `seal_epoch` on a handle, and the stores there were since
it began. -/
structure SealCall (Id : Type) [Digest Id] where
  ns : String
  id : String
  phase : Phase Id
  moments : List (World Id)

/-- A call that returned `Ok`. -/
structure Receipt (Id : Type) [Digest Id] where
  id : String
  moments : List (World Id)

structure State (Id : Type) [Digest Id] where
  world : World Id
  calls : ℕ → Option (SealCall Id)
  receipts : List (Receipt Id)

/-- A step of a call, or a write of the store. -/
inductive Op (Id : Type) [Digest Id] where
  | start (call : ℕ) (ns id : String)
  | collect (call : ℕ)
  | write (call : ℕ) (summary : String) (now : ℤ)
  | tag (commit : Id) (epoch : String)
  | createEpoch (epoch : EpochRow Id)
  /-- The seal of another store, which a reconcile writes. -/
  | rebuildSeal (id summary : String) (sealedAt : ℤ) (commits : List Id)
      (hash : Id)
  | archive (id : String)
  | assignNamespace (id ns : String)
  /-- Any other write: commits, refs, sessions, taints. -/
  | storage (change : Storage Id → Storage Id)

namespace State

variable (s : State Id)

def withTable : Except StorageError (EpochTable Id) → State Id
  | .ok table => { s with world := { s.world with table := table } }
  | .error _ => s

def setCall (call : ℕ) (c : Option (SealCall Id)) : State Id :=
  { s with calls := Function.update s.calls call c }

/-- Every running call sees the store. -/
def observe : State Id :=
  { s with
    calls := fun call => (s.calls call).map fun c =>
      { c with moments := c.moments ++ [s.world] } }

def startCall (call : ℕ) (ns id : String) : State Id :=
  match s.calls call, s.world.table.getEpoch id with
  | none, some epoch => s.setCall call (some ⟨ns, id, .read epoch, []⟩)
  | _, _ => s

def collectCall (call : ℕ) : State Id :=
  match s.calls call with
  | some ⟨ns, id, .read epoch, moments⟩ =>
      match s.world.collect ns epoch with
      | .ok commits =>
          s.setCall call (some ⟨ns, id, .collected commits, moments⟩)
      | .error _ => s.setCall call none
  | _ => s

def writeCall (hash : String → List Id → Id) (call : ℕ) (summary : String)
    (now : ℤ) : State Id :=
  match s.calls call with
  | some ⟨_, id, .collected commits, moments⟩ =>
      match s.world.table.sealEpoch id summary now commits
          (computeSealHash hash id commits) with
      | .ok table =>
          { world := { s.world with table := table }
            calls := Function.update s.calls call none
            receipts := ⟨id, moments⟩ :: s.receipts }
      | .error _ => s.setCall call none
  | _ => s

def act (hash : String → List Id → Id) : Op Id → State Id
  | .start call ns id => s.startCall call ns id
  | .collect call => s.collectCall call
  | .write call summary now => s.writeCall hash call summary now
  | .tag commit epoch =>
      s.withTable (s.world.table.setCommitEpoch commit epoch)
  | .createEpoch epoch => s.withTable (s.world.table.createEpoch epoch)
  | .rebuildSeal id summary sealedAt commits hash =>
      s.withTable (s.world.table.sealEpoch id summary sealedAt commits hash)
  | .archive id => s.withTable (s.world.table.archiveEpoch id)
  | .assignNamespace id ns =>
      s.withTable ((s.world.table.assignEpochNamespace id ns).map Prod.snd)
  | .storage change =>
      { s with world := { s.world with storage := change s.world.storage } }

def step (hash : String → List Id → Id) (s : State Id) (op : Op Id) :
    State Id :=
  (s.act hash op).observe

/-- No call has begun. -/
def start (world : World Id) : State Id := ⟨world, fun _ => none, []⟩

end State

/-! ## What a seal claims -/

/-- The commits of a seal are those its scope stands for: the plan's, as they
are tagged now, or those the ref of the scope reached in the epoch's own
namespace at some moment of the call. -/
def Covers (w : World Id) (moments : List (World Id)) (e : EpochRow Id) :
    Prop :=
  match e.scope.sealRef with
  | none => ∀ c, c ∈ e.sealedCommits ↔ c ∈ w.table.commitsOf e.id
  | some ref => ∃ ns, e.namespace_ = some ns ∧ ∃ m ∈ moments,
      ∀ c, c ∈ e.sealedCommits ↔ m.Reaches ns ref c

/-- What a call sealed is recorded as it claims. -/
def Recorded (hash : String → List Id → Id) (w : World Id) (r : Receipt Id) :
    Prop :=
  ∃ e, w.table.find r.id = some e ∧
    e.sealHash = some (computeSealHash hash r.id e.sealedCommits) ∧
    Covers w r.moments e

/-- Whether an epoch takes no more commits. -/
def isSealed (e : EpochRow Id) : Prop :=
  e.status = .sealed ∨ e.status = .archived

instance (e : EpochRow Id) : Decidable (isSealed e) :=
  inferInstanceAs (Decidable (_ ∨ _))

/-- What a step must not do: collect from another namespace than the epoch's
own, seal a plan whose commits are no longer those that were read, or tag a
commit of a sealed plan to another epoch. -/
def Proper (s : State Id) : Op Id → Prop
  | .collect call =>
      match s.calls call with
      | some ⟨ns, _, .read e, _⟩ =>
          e.scope.sealRef.isSome = true → e.namespace_ = some ns
      | _ => True
  | .write call _ _ =>
      match s.calls call with
      | some ⟨_, id, .collected commits, _⟩ =>
          ∀ e ∈ s.world.table.find id, ¬isSealed e → e.scope.sealRef = none →
            (∀ c ∈ commits, c ∈ s.world.table.commitsOf id) ∧
              ∀ c ∈ s.world.table.commitsOf id, c ∈ commits
      | _ => True
  | .tag commit epoch => ∀ e ∈ s.world.table.epochs, isSealed e →
      e.scope.sealRef = none → e.id ≠ epoch →
      commit ∉ s.world.table.commitsOf e.id
  | _ => True

instance (s : State Id) (op : Op Id) : Decidable (Proper s op) := by
  unfold Proper
  cases op <;> dsimp only <;> try infer_instance
  · split <;> infer_instance
  · split <;> infer_instance

/-! ## What the epoch table keeps -/

/-- What later writes keep of an epoch. -/
structure Follows (e e' : EpochRow Id) : Prop where
  id : e'.id = e.id
  scope : e'.scope = e.scope
  namespace_ : ∀ ns, e.namespace_ = some ns → e'.namespace_ = some ns
  stays : isSealed e → isSealed e'
  sealedCommits : isSealed e → e'.sealedCommits = e.sealedCommits
  sealHash : isSealed e → e'.sealHash = e.sealHash

omit [Digest Id] in
theorem Follows.refl (e : EpochRow Id) : Follows e e :=
  ⟨rfl, rfl, fun _ h => h, fun h => h, fun _ => rfl, fun _ => rfl⟩

/-- Every epoch of one table is in the other, as a follower. -/
def Evolves (t t' : EpochTable Id) : Prop :=
  ∀ id e, t.find id = some e → ∃ e', t'.find id = some e' ∧ Follows e e'

omit [Digest Id] in
theorem Evolves.refl (t : EpochTable Id) : Evolves t t :=
  fun _ e h => ⟨e, h, Follows.refl e⟩

omit [Digest Id] in
theorem evolves_modify {t : EpochTable Id} {id : String}
    {f : EpochRow Id → EpochRow Id} (hid : ∀ e, (f e).id = e.id)
    (hf : ∀ e, t.find id = some e → Follows e (f e)) :
    Evolves t (t.modify id f) := by
  intro id' e he
  rw [EpochTable.find_modify t id hid]
  by_cases hsame : id' = id
  · rw [if_pos hsame]
    subst hsame
    exact ⟨f e, by rw [he]; rfl, hf e he⟩
  · rw [if_neg hsame]
    exact ⟨e, he, Follows.refl e⟩

variable {t t' : EpochTable Id}

/-- The row a seal leaves. -/
def sealRow (summary : String) (now : ℤ) (commits : List Id) (hash : Id)
    (e : EpochRow Id) : EpochRow Id :=
  { e with
    status := .sealed
    sealedAt := some now
    sealSummary := some summary
    sealedCommits := commits
    sealHash := some hash }

omit [Digest Id] in
theorem sealEpoch_cases {id summary : String} {now : ℤ} {commits : List Id}
    {hash : Id} (h : t.sealEpoch id summary now commits hash = .ok t') :
    ∃ e, t.find id = some e ∧ ¬isSealed e ∧
      t' = t.modify id (sealRow summary now commits hash) := by
  unfold EpochTable.sealEpoch at h
  cases hfind : t.find id with
  | none =>
      rw [hfind] at h
      contradiction
  | some e =>
      rw [hfind] at h
      dsimp only at h
      by_cases hsealed : e.status = .sealed ∨ e.status = .archived
      · rw [if_pos hsealed] at h
        contradiction
      · rw [if_neg hsealed] at h
        exact ⟨e, rfl, hsealed, (Except.ok.inj h).symm⟩

omit [Digest Id] in
theorem evolves_sealEpoch {id summary : String} {now : ℤ} {commits : List Id}
    {hash : Id} (h : t.sealEpoch id summary now commits hash = .ok t') :
    Evolves t t' ∧ t'.commitEpoch = t.commitEpoch := by
  obtain ⟨e, hfind, hopen, rfl⟩ := sealEpoch_cases h
  refine ⟨evolves_modify (fun _ => rfl) ?_, rfl⟩
  intro e' he'
  rw [hfind, Option.some.injEq] at he'
  subst he'
  exact ⟨rfl, rfl, fun _ h => h, fun h => absurd h hopen,
    fun h => absurd h hopen, fun h => absurd h hopen⟩

omit [Digest Id] in
theorem evolves_archiveEpoch {id : String} (h : t.archiveEpoch id = .ok t') :
    Evolves t t' ∧ t'.commitEpoch = t.commitEpoch := by
  unfold EpochTable.archiveEpoch at h
  split at h
  next => contradiction
  next e hfind =>
    split at h
    next => contradiction
    next hsealed =>
      rw [← Except.ok.inj h]
      refine ⟨evolves_modify (fun _ => rfl) ?_, rfl⟩
      intro e' _
      exact ⟨rfl, rfl, fun _ h => h, fun _ => Or.inr rfl, fun _ => rfl,
        fun _ => rfl⟩

omit [Digest Id] in
theorem evolves_assignEpochNamespace {id ns : String} {answer : Bool}
    (h : t.assignEpochNamespace id ns = .ok (answer, t')) :
    Evolves t t' ∧ t'.commitEpoch = t.commitEpoch := by
  unfold EpochTable.assignEpochNamespace at h
  split at h
  next => contradiction
  next e hfind =>
    by_cases hassigned : e.namespace_.isSome = true
    · rw [if_pos hassigned, Except.ok.injEq, Prod.mk.injEq] at h
      rw [← h.2]
      exact ⟨Evolves.refl t, rfl⟩
    · rw [if_neg hassigned, Except.ok.injEq, Prod.mk.injEq] at h
      rw [← h.2]
      refine ⟨evolves_modify (fun _ => rfl) ?_, rfl⟩
      intro e' he'
      rw [hfind, Option.some.injEq] at he'
      subst he'
      refine ⟨rfl, rfl, ?_, fun h => h, fun _ => rfl, fun _ => rfl⟩
      intro ns' hns
      simp [hns] at hassigned

omit [Digest Id] in
theorem evolves_createEpoch {e : EpochRow Id}
    (h : t.createEpoch e = .ok t') :
    Evolves t t' ∧ t'.commitEpoch = t.commitEpoch := by
  unfold EpochTable.createEpoch at h
  split at h
  next => contradiction
  next =>
    rw [← Except.ok.inj h]
    refine ⟨?_, rfl⟩
    intro id e' he'
    refine ⟨e', ?_, Follows.refl e'⟩
    rw [EpochTable.find_append, he']
    rfl

theorem setCommitEpoch_cases {commit : Id} {epoch : String}
    (h : t.setCommitEpoch commit epoch = .ok t') :
    (∃ e, t.find epoch = some e ∧ ¬isSealed e) ∧
      t' = { t with commitEpoch := relink t.commitEpoch (commit, epoch) } := by
  unfold EpochTable.setCommitEpoch at h
  cases hfind : t.find epoch with
  | none =>
      rw [hfind] at h
      contradiction
  | some e =>
      rw [hfind] at h
      dsimp only at h
      by_cases hsealed : e.status = .sealed ∨ e.status = .archived
      · rw [if_pos hsealed] at h
        contradiction
      · rw [if_neg hsealed] at h
        exact ⟨⟨e, rfl, hsealed⟩, (Except.ok.inj h).symm⟩

omit [Digest Id] in
theorem mem_commitsOf {c : Id} {id : String} :
    c ∈ t.commitsOf id ↔ (c, id) ∈ t.commitEpoch := by
  simp only [EpochTable.commitsOf, List.mem_map, List.mem_filter,
    decide_eq_true_eq]
  constructor
  · rintro ⟨⟨c', id'⟩, ⟨hmem, rfl⟩, rfl⟩
    exact hmem
  · intro hmem
    exact ⟨(c, id), ⟨hmem, rfl⟩, rfl⟩

theorem mem_commitsOf_relink {commit c : Id} {epoch id : String} :
    c ∈ ({ t with commitEpoch := relink t.commitEpoch (commit, epoch) } :
        EpochTable Id).commitsOf id ↔
      (c ≠ commit ∧ c ∈ t.commitsOf id) ∨ (c = commit ∧ id = epoch) := by
  simp only [mem_commitsOf, relink, List.mem_append, List.mem_filter,
    decide_eq_true_eq, List.mem_singleton, Prod.mk.injEq]
  tauto

/-! ## Steps -/

theorem act_table (hash : String → List Id → Id) (s : State Id) (op : Op Id) :
    Evolves s.world.table (s.act hash op).world.table ∧
      ((s.act hash op).world.table.commitEpoch = s.world.table.commitEpoch ∨
        ∃ commit epoch, op = .tag commit epoch ∧
          (∃ e, s.world.table.find epoch = some e ∧ ¬isSealed e) ∧
          (s.act hash op).world.table =
            { s.world.table with
              commitEpoch := relink s.world.table.commitEpoch
                (commit, epoch) }) := by
  have hsame : Evolves s.world.table s.world.table := Evolves.refl _
  cases op with
  | start call ns id =>
      simp only [State.act, State.startCall]
      split
      · exact ⟨hsame, Or.inl rfl⟩
      · exact ⟨hsame, Or.inl rfl⟩
  | collect call =>
      simp only [State.act, State.collectCall]
      split
      · split
        · exact ⟨hsame, Or.inl rfl⟩
        · exact ⟨hsame, Or.inl rfl⟩
      · exact ⟨hsame, Or.inl rfl⟩
  | write call summary now =>
      simp only [State.act, State.writeCall]
      split
      · split
        next table hrun => exact (evolves_sealEpoch hrun).imp_right Or.inl
        next => exact ⟨hsame, Or.inl rfl⟩
      · exact ⟨hsame, Or.inl rfl⟩
  | tag commit epoch =>
      simp only [State.act, State.withTable]
      split
      next table hrun =>
        obtain ⟨hopen, rfl⟩ := setCommitEpoch_cases hrun
        exact ⟨fun _ e he => ⟨e, he, Follows.refl e⟩,
          Or.inr ⟨commit, epoch, rfl, hopen, rfl⟩⟩
      next => exact ⟨hsame, Or.inl rfl⟩
  | createEpoch epoch =>
      simp only [State.act, State.withTable]
      split
      next table hrun => exact (evolves_createEpoch hrun).imp_right Or.inl
      next => exact ⟨hsame, Or.inl rfl⟩
  | rebuildSeal id summary sealedAt commits h =>
      simp only [State.act, State.withTable]
      split
      next table hrun => exact (evolves_sealEpoch hrun).imp_right Or.inl
      next => exact ⟨hsame, Or.inl rfl⟩
  | archive id =>
      simp only [State.act, State.withTable]
      split
      next table hrun => exact (evolves_archiveEpoch hrun).imp_right Or.inl
      next => exact ⟨hsame, Or.inl rfl⟩
  | assignNamespace id ns =>
      simp only [State.act, State.withTable]
      cases hassign : s.world.table.assignEpochNamespace id ns with
      | error e => exact ⟨hsame, Or.inl rfl⟩
      | ok r => exact (evolves_assignEpochNamespace hassign).imp_right Or.inl
  | storage change => exact ⟨hsame, Or.inl rfl⟩

/-! ## What holds along a run -/

/-- A call that has collected did so from its epoch's own namespace. -/
def CallOk (w : World Id) (c : SealCall Id) : Prop :=
  ∃ e, w.table.find c.id = some e ∧
    match c.phase with
    | .read e₀ => Follows e₀ e
    | .collected commits => ∀ ref, e.scope.sealRef = some ref →
        e.namespace_ = some c.ns ∧
          ∃ m ∈ c.moments, ∀ x, x ∈ commits ↔ m.Reaches c.ns ref x

/-- What a call sealed is recorded as it claims, for good. -/
def ReceiptOk (hash : String → List Id → Id) (w : World Id) (r : Receipt Id) :
    Prop :=
  ∃ e, w.table.find r.id = some e ∧ isSealed e ∧
    e.sealHash = some (computeSealHash hash r.id e.sealedCommits) ∧
    Covers w r.moments e

structure Inv (hash : String → List Id → Id) (s : State Id) : Prop where
  calls : ∀ call c, s.calls call = some c → CallOk s.world c
  receipts : ∀ r ∈ s.receipts, ReceiptOk hash s.world r

variable {hash : String → List Id → Id} {s : State Id} {w w' : World Id}

omit [Digest Id] in
theorem Follows.trans {a b c : EpochRow Id} (hab : Follows a b)
    (hbc : Follows b c) : Follows a c where
  id := hbc.id.trans hab.id
  scope := hbc.scope.trans hab.scope
  namespace_ ns h := hbc.namespace_ ns (hab.namespace_ ns h)
  stays h := hbc.stays (hab.stays h)
  sealedCommits h := (hbc.sealedCommits (hab.stays h)).trans (hab.sealedCommits h)
  sealHash h := (hbc.sealHash (hab.stays h)).trans (hab.sealHash h)

theorem CallOk.evolves {c : SealCall Id} (h : CallOk w c)
    (hle : Evolves w.table w'.table) : CallOk w' c := by
  obtain ⟨e, hfind, hphase⟩ := h
  obtain ⟨e', hfind', hfollows⟩ := hle _ e hfind
  refine ⟨e', hfind', ?_⟩
  split
  next e₀ hread =>
    simp only [hread] at hphase
    exact hphase.trans hfollows
  next commits hcollected =>
    simp only [hcollected] at hphase
    intro ref href
    rw [hfollows.scope] at href
    obtain ⟨hns, hmoment⟩ := hphase ref href
    exact ⟨hfollows.namespace_ _ hns, hmoment⟩

theorem CallOk.see {c : SealCall Id} (h : CallOk w c) (m : World Id) :
    CallOk w { c with moments := c.moments ++ [m] } := by
  obtain ⟨e, hfind, hphase⟩ := h
  refine ⟨e, hfind, ?_⟩
  split
  next e₀ hread =>
    simp only at hread
    simpa only [hread] using hphase
  next commits hcollected =>
    simp only at hcollected
    simp only [hcollected] at hphase
    intro ref href
    obtain ⟨hns, m', hm', hreach⟩ := hphase ref href
    exact ⟨hns, m', List.mem_append_left _ hm', hreach⟩

/-- A seal that is recorded stays so, when no step tags its commits away. -/
theorem ReceiptOk.act {r : Receipt Id} (h : ReceiptOk hash s.world r)
    {op : Op Id} (hproper : Proper s op) :
    ReceiptOk hash (s.act hash op).world r := by
  obtain ⟨e, hfind, hsealed, hhash, hcovers⟩ := h
  obtain ⟨hle, htags⟩ := act_table hash s op
  obtain ⟨e', hfind', hfollows⟩ := hle _ e hfind
  have hid : e.id = r.id := EpochTable.id_of_find hfind
  refine ⟨e', hfind', hfollows.stays hsealed, ?_, ?_⟩
  · rw [hfollows.sealHash hsealed, hfollows.sealedCommits hsealed, hhash]
  · unfold Covers at hcovers ⊢
    rw [hfollows.scope, hfollows.sealedCommits hsealed, hfollows.id]
    cases hscope : e.scope.sealRef with
    | some ref =>
        simp only [hscope] at hcovers ⊢
        obtain ⟨ns, hns, hmoment⟩ := hcovers
        exact ⟨ns, hfollows.namespace_ ns hns, hmoment⟩
    | none =>
        simp only [hscope] at hcovers ⊢
        intro c
        rw [hcovers c]
        rcases htags with hsame | ⟨commit, epoch, rfl, ⟨o, ho, hopen⟩, htable⟩
        · rw [mem_commitsOf, mem_commitsOf, hsame]
        · have hne : r.id ≠ epoch := by
            rintro rfl
            rw [hfind, Option.some.injEq] at ho
            exact hopen (ho ▸ hsealed)
          have haway := hproper e (EpochTable.mem_of_find hfind) hsealed
            hscope (hid ▸ hne)
          rw [hid] at haway
          rw [htable, mem_commitsOf_relink, hid]
          constructor
          · intro hc
            exact Or.inl ⟨fun heq => haway (heq ▸ hc), hc⟩
          · rintro (⟨-, hc⟩ | ⟨-, heq⟩)
            · exact hc
            · exact absurd heq hne

theorem calls_setCall_cases {s : State Id} {k call : ℕ}
    {new : Option (SealCall Id)} {c : SealCall Id}
    (h : (s.setCall k new).calls call = some c) :
    new = some c ∨ s.calls call = some c := by
  by_cases hk : call = k
  · subst hk
    simp only [State.setCall, Function.update_self] at h
    exact Or.inl h
  · simp only [State.setCall, Function.update_of_ne hk] at h
    exact Or.inr h

@[simp] theorem startCall_world (s : State Id) (k : ℕ) (ns id : String) :
    (s.startCall k ns id).world = s.world := by
  unfold State.startCall
  split <;> rfl

@[simp] theorem collectCall_world (s : State Id) (k : ℕ) :
    (s.collectCall k).world = s.world := by
  unfold State.collectCall
  split
  · split <;> rfl
  · rfl

theorem startCall_calls {k call : ℕ} {ns id : String} {c : SealCall Id}
    (h : (s.startCall k ns id).calls call = some c) :
    s.calls call = some c ∨ CallOk s.world c := by
  unfold State.startCall at h
  split at h
  next epoch hfree hepoch =>
    rcases calls_setCall_cases h with hnew | hold
    · obtain ⟨e, he, rfl⟩ := Option.map_eq_some_iff.mp hepoch
      obtain rfl := Option.some.inj hnew
      exact Or.inr ⟨e, he, ⟨rfl, rfl, fun _ h => h, fun h => h, fun _ => rfl,
        fun _ => rfl⟩⟩
    · exact Or.inl hold
  next => exact Or.inl h

theorem collectCall_calls {k call : ℕ} {c : SealCall Id}
    (hok : ∀ c, s.calls k = some c → CallOk s.world c ∧ s.world ∈ c.moments)
    (hproper : Proper s (.collect k))
    (h : (s.collectCall k).calls call = some c) :
    s.calls call = some c ∨ CallOk s.world c := by
  unfold State.collectCall at h
  split at h
  next ns id epoch moments hrun =>
    simp only [Proper, hrun] at hproper
    obtain ⟨⟨e, he, hfollows⟩, hseen⟩ := hok _ hrun
    split at h
    next commits hcollect =>
      rcases calls_setCall_cases h with hnew | hold
      · obtain rfl := Option.some.inj hnew
        refine Or.inr ⟨e, he, ?_⟩
        intro ref href
        rw [hfollows.scope] at href
        refine ⟨hfollows.namespace_ ns (hproper (by rw [href]; rfl)),
          s.world, hseen, ?_⟩
        exact World.mem_collect href hcollect
      · exact Or.inl hold
    next err hcollect =>
      rcases calls_setCall_cases h with hnew | hold
      · contradiction
      · exact Or.inl hold
  next => exact Or.inl h

theorem writeCall_calls {k call : ℕ} {summary : String} {now : ℤ}
    {c : SealCall Id}
    (h : (s.writeCall hash k summary now).calls call = some c) :
    s.calls call = some c := by
  unfold State.writeCall at h
  split at h
  next ns id commits moments hrun =>
    split at h
    next table hseal =>
      by_cases hk : call = k
      · subst hk
        simp at h
      · simpa only [Function.update_of_ne hk] using h
    next err hseal =>
      rcases calls_setCall_cases h with hnew | hold
      · contradiction
      · exact hold
  next => exact h

/-- A seal that is written is recorded as it claims. -/
theorem writeCall_receipts {k : ℕ} {summary : String} {now : ℤ}
    (hok : ∀ c, s.calls k = some c → CallOk s.world c)
    (hproper : Proper s (.write k summary now)) {r : Receipt Id}
    (h : r ∈ (s.writeCall hash k summary now).receipts) :
    r ∈ s.receipts ∨
      ReceiptOk hash (s.writeCall hash k summary now).world r := by
  unfold State.writeCall at h ⊢
  split at h
  next ns id commits moments hrun =>
    split at h
    next table hseal =>
      rcases List.mem_cons.mp h with rfl | hold
      · right
        obtain ⟨e, hfind, hcollected⟩ := hok _ hrun
        obtain ⟨e', hfind', hopen, rfl⟩ := sealEpoch_cases hseal
        obtain rfl : e' = e := by
          simpa [hfind] using hfind'.symm
        have hid : e'.id = id := EpochTable.id_of_find hfind
        have hrow := EpochTable.find_modify s.world.table id
          (f := sealRow summary now commits (computeSealHash hash id commits))
          (fun _ => rfl) id
        rw [if_pos rfl, hfind'] at hrow
        refine ⟨_, hrow, Or.inl rfl, rfl, ?_⟩
        simp only [Proper, hrun, hfind', Option.mem_some_iff,
          forall_eq'] at hproper
        simp only [Covers, sealRow]
        cases hscope : e'.scope.sealRef with
        | none =>
            intro c
            rw [hid]
            exact ⟨(hproper hopen hscope).1 c, (hproper hopen hscope).2 c⟩
        | some ref =>
            obtain ⟨hns, hmoment⟩ := hcollected ref hscope
            exact ⟨ns, hns, hmoment⟩
      · exact Or.inl hold
    next => exact Or.inl h
  next => exact Or.inl h

@[simp] theorem withTable_calls (s : State Id)
    (r : Except StorageError (EpochTable Id)) :
    (s.withTable r).calls = s.calls := by
  cases r <;> rfl

@[simp] theorem withTable_receipts (s : State Id)
    (r : Except StorageError (EpochTable Id)) :
    (s.withTable r).receipts = s.receipts := by
  cases r <;> rfl

/-- Between steps every running call has seen the store as it is. -/
def Seen (s : State Id) : Prop :=
  ∀ call c, s.calls call = some c → s.world ∈ c.moments

theorem seen_observe (s : State Id) : Seen s.observe := by
  intro call c hc
  simp only [State.observe, Option.map_eq_some_iff] at hc
  obtain ⟨c', -, rfl⟩ := hc
  simp [State.observe]

theorem inv_observe (h : Inv hash s) : Inv hash s.observe where
  calls call c hc := by
    simp only [State.observe, Option.map_eq_some_iff] at hc
    obtain ⟨c', hc', rfl⟩ := hc
    exact (h.calls call c' hc').see s.world
  receipts r hr := h.receipts r hr

theorem inv_act (h : Inv hash s) (hseen : Seen s) {op : Op Id}
    (hproper : Proper s op) : Inv hash (s.act hash op) := by
  obtain ⟨hle, -⟩ := act_table hash s op
  have hcalls : ∀ call c, s.calls call = some c →
      CallOk (s.act hash op).world c :=
    fun call c hc => (h.calls call c hc).evolves hle
  have hreceipts : ∀ r ∈ s.receipts, ReceiptOk hash (s.act hash op).world r :=
    fun r hr => (h.receipts r hr).act hproper
  cases op with
  | start k ns id =>
      refine ⟨?_, ?_⟩
      · intro call c hc
        rcases startCall_calls hc with hold | hnew
        · exact hcalls call c hold
        · simpa only [State.act, startCall_world] using hnew
      · intro r hr
        refine hreceipts r ?_
        simp only [State.act, State.startCall] at hr
        split at hr <;> exact hr
  | collect k =>
      refine ⟨?_, ?_⟩
      · intro call c hc
        rcases collectCall_calls (fun c hk => ⟨h.calls k c hk, hseen k c hk⟩)
          hproper hc with hold | hnew
        · exact hcalls call c hold
        · simpa only [State.act, collectCall_world] using hnew
      · intro r hr
        refine hreceipts r ?_
        simp only [State.act, State.collectCall] at hr
        split at hr
        · split at hr <;> exact hr
        · exact hr
  | write k summary now =>
      refine ⟨fun call c hc => hcalls call c (writeCall_calls hc), ?_⟩
      intro r hr
      rcases writeCall_receipts (fun c hk => h.calls k c hk) hproper hr with
        hold | hnew
      · exact hreceipts r hold
      · exact hnew
  | tag commit epoch =>
      exact ⟨fun call c hc => hcalls call c (by simpa [State.act] using hc),
        fun r hr => hreceipts r (by simpa [State.act] using hr)⟩
  | createEpoch epoch =>
      exact ⟨fun call c hc => hcalls call c (by simpa [State.act] using hc),
        fun r hr => hreceipts r (by simpa [State.act] using hr)⟩
  | rebuildSeal id summary sealedAt commits sealHash =>
      exact ⟨fun call c hc => hcalls call c (by simpa [State.act] using hc),
        fun r hr => hreceipts r (by simpa [State.act] using hr)⟩
  | archive id =>
      exact ⟨fun call c hc => hcalls call c (by simpa [State.act] using hc),
        fun r hr => hreceipts r (by simpa [State.act] using hr)⟩
  | assignNamespace id ns =>
      exact ⟨fun call c hc => hcalls call c (by simpa [State.act] using hc),
        fun r hr => hreceipts r (by simpa [State.act] using hr)⟩
  | storage change => exact ⟨hcalls, hreceipts⟩

/-- In a run of proper steps, every call that returned `Ok` sealed what the
epoch claims: the hash is that of the recorded commits, a plan's seal holds
the commits tagged to it, then and in every later state, and any other seal
holds what its ref reached in the epoch's namespace at a moment of the call. -/
theorem seals_recorded (hash : String → List Id → Id) (world : World Id)
    (ops : List (Op Id))
    (h : StepRuns.Throughout (State.step hash) (State.start world) ops
      Proper) :
    ∀ r ∈ (StepRuns.run (State.step hash) (State.start world) ops).receipts,
      Recorded hash
        (StepRuns.run (State.step hash) (State.start world) ops).world r := by
  have hstart : Inv hash (State.start world) ∧ Seen (State.start world) := by
    refine ⟨⟨?_, ?_⟩, ?_⟩
    · intro call c hc
      simp [State.start] at hc
    · intro r hr
      simp [State.start] at hr
    · intro call c hc
      simp [State.start] at hc
  have hrun := StepRuns.invariant_run
    (I := fun s => Inv hash s ∧ Seen s) hstart
    (fun s op hs hproper =>
      ⟨inv_observe (inv_act hs.1 hs.2 hproper), seen_observe _⟩) h
  intro r hr
  obtain ⟨e, hfind, -, hhash, hcovers⟩ := hrun.1.receipts r hr
  exact ⟨e, hfind, hhash, hcovers⟩

/-! ## A commit that joins while its plan is sealed -/

namespace JoinedLate

/-- An epoch of a namespace that takes commits. -/
def epoch (id ns : String) (scope : EpochScope) : EpochRow ContentKey where
  id := id
  description := ""
  rootIntents := []
  status := .active
  createdAt := 0
  sealedAt := none
  sealSummary := none
  sealHash := none
  commits := []
  agents := []
  branches := []
  tags := []
  sealedCommits := []
  scope := scope
  namespace_ := some ns

/-- A plan of `default`, an epoch of `team`, and a commit on `main` of
`default`. -/
def world : World ContentKey where
  storage := Storage.new.putRef "default" "main" ⟨[1]⟩
  table := ⟨[epoch "plan" "default" (.plan "plan"), epoch "work" "team" .all], []⟩

def digest (_ : String) (ids : List ContentKey) : ContentKey :=
  ⟨ids.flatMap fun id => id.code⟩

/-- The commit is tagged after the plan was read. -/
def late : List (Op ContentKey) :=
  [.start 0 "default" "plan", .tag ⟨[1]⟩ "plan", .collect 0,
    .write 0 "done" 0]

/-- It is tagged before. -/
def inTime : List (Op ContentKey) :=
  [.tag ⟨[1]⟩ "plan", .start 0 "default" "plan", .collect 0,
    .write 0 "done" 0]

/-- The epoch of `team` is sealed through a handle on `default`. -/
def elsewhere : List (Op ContentKey) :=
  [.start 0 "default" "work", .collect 0, .write 0 "done" 0]

def after (ops : List (Op ContentKey)) : State ContentKey :=
  StepRuns.run (State.step digest) (State.start world) ops

end JoinedLate

open JoinedLate in
/-- A run in which the plan is read once its commit is tagged. -/
theorem seals_recorded_inTime :
    (after inTime).receipts.map (fun r => r.id) = ["plan"] ∧
      ∀ r ∈ (after inTime).receipts, Recorded digest (after inTime).world r := by
  refine ⟨by decide, seals_recorded digest world inTime ?_⟩
  simp only [inTime, StepRuns.throughout_cons_iff]
  exact ⟨by decide, by decide, by decide,
    by decide, StepRuns.throughout_nil⟩

open JoinedLate in
/-- A commit tagged between the read and the seal belongs to the plan and is
not in its seal; and a seal made from another namespace holds the commits of
that one. -/
theorem seals_not_recorded :
    ((after late).receipts.map (fun r => r.id) = ["plan"] ∧
      ∀ r ∈ (after late).receipts, ¬Recorded digest (after late).world r) ∧
    ((after elsewhere).receipts.map (fun r => r.id) = ["work"] ∧
      ∀ r ∈ (after elsewhere).receipts,
        ¬Recorded digest (after elsewhere).world r) := by
  refine ⟨⟨by decide, ?_⟩, by decide, ?_⟩
  · rintro r hr ⟨e, hfind, -, hcovers⟩
    have hid : ∀ r ∈ (after late).receipts, r.id = "plan" := by
      decide
    have hrow : (after late).world.table.find "plan" = some
        (sealRow "done" 0 [] (computeSealHash digest "plan" [])
          (epoch "plan" "default" (.plan "plan"))) := by with_unfolding_all decide
    rw [hid r hr, hrow, Option.some.injEq] at hfind
    subst hfind
    have htagged : (⟨[1]⟩ : ContentKey) ∈
        (after late).world.table.commitsOf "plan" := by decide
    have hin := (hcovers ⟨[1]⟩).mpr htagged
    simp [sealRow] at hin
  · rintro r hr ⟨e, hfind, -, hcovers⟩
    have hid : ∀ r ∈ (after elsewhere).receipts, r.id = "work" ∧
        ∀ m ∈ r.moments, m.storage.refAt "team" "main" = none := by
      decide
    have hrow : (after elsewhere).world.table.find "work" = some
        (sealRow "done" 0 [⟨[1]⟩] (computeSealHash digest "work" [⟨[1]⟩])
          (epoch "work" "team" .all)) := by with_unfolding_all decide
    rw [(hid r hr).1, hrow, Option.some.injEq] at hfind
    subst hfind
    obtain ⟨ns, hns, m, hm, hreach⟩ := hcovers
    obtain rfl := Option.some.inj hns
    obtain ⟨head, hhead, -⟩ := (hreach ⟨[1]⟩).mp (by simp [sealRow])
    rw [(hid r hr).2 m hm] at hhead
    contradiction

end SealSteps

end AgentStateGraph
