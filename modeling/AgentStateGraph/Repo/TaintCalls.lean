import AgentStateGraph.Backend.TaintRows
import AgentStateGraph.Control.Mirror
import AgentStateGraph.Repo.IntentCommits

/-!
# Taints, quarantines and watches

Each call writes one row of the taint table, then the intent commit on its ref,
then the control commit.  A call that the table refuses changes nothing.  A call
whose intent commit does not land returns the error with the row written:
nothing takes it back.
-/

namespace AgentStateGraph

variable {Id : Type} [Digest Id]

/-! ## The calls -/

structure TaintParams where
  name : String
  effect : TaintEffect
  reason : String
  expiresAt : Option ℤ
  propagate : Bool
  agentId : String
deriving DecidableEq

structure QuarantineParams where
  name : String
  reason : String
  authorizedAgents : List String
  expiresAt : Option ℤ
  propagate : Bool
  agentId : String
deriving DecidableEq

structure WatchParams where
  name : String
  reason : String
  expiresAt : Option ℤ
  propagate : Bool
  agentId : String
deriving DecidableEq

structure UntaintParams where
  reason : String
  agentId : String
deriving DecidableEq

namespace CallEnv

variable (env : CallEnv Id)

/-- The record of `taint`. -/
def taintRecord (path : String) (params : TaintParams) : Taint where
  id := env.freshId
  path := path
  name := params.name
  kind := .taint
  effect := params.effect
  reason := params.reason
  agentId := params.agentId
  commitId := ""
  expiresAt := params.expiresAt
  resolvedAt := none
  propagate := params.propagate
  authorizedAgents := []

/-- The record of `quarantine`. -/
def quarantineRecord (path : String) (params : QuarantineParams) : Taint where
  id := env.freshId
  path := path
  name := params.name
  kind := .quarantine
  effect := .block
  reason := params.reason
  agentId := params.agentId
  commitId := ""
  expiresAt := params.expiresAt
  resolvedAt := none
  propagate := params.propagate
  authorizedAgents := params.authorizedAgents

/-- The record of `watch_path`. -/
def watchRecord (path : String) (params : WatchParams) : Taint where
  id := env.freshId
  path := path
  name := params.name
  kind := .watch
  effect := .advisory
  reason := params.reason
  agentId := params.agentId
  commitId := ""
  expiresAt := params.expiresAt
  resolvedAt := none
  propagate := params.propagate
  authorizedAgents := []

/-- `list_taints` of one kind at or under a path, resolved ones left out, the
newest first. -/
def listTaints (store : Storage Id) (path : String) (kind : TaintKind) :
    List Taint :=
  (store.taints.filter fun t =>
      t.resolvedAt.isNone && MemoryTaints.listsPath path t.path &&
        decide (kind = t.kind)).mergeSort
    fun a b => decide (env.createdAt b.id ≤ env.createdAt a.id)

/-- The row that `resolve_kind` resolves. -/
def untaintTarget (store : Storage Id) (path taintName : String)
    (kind : TaintKind) : Option Taint :=
  (env.listTaints store path kind).find? fun t =>
    t.path == path && t.name == taintName

end CallEnv

/-- Mark a row resolved, if it is there and unresolved. -/
def Storage.resolveTaint (store : Storage Id) (id : String) (resolvedAt : ℤ) :
    Except StorageError (Storage Id) :=
  match store.getTaint id with
  | none => .error (.backend ("taint " ++ id ++ " not found"))
  | some t =>
      if t.resolvedAt.isSome then
        .error (.backend ("taint " ++ id ++ " is already resolved"))
      else
        .ok { store with
          taints := Control.replaceFirst (fun r => r.id = id)
            { t with resolvedAt := some resolvedAt } store.taints }

namespace Repository

variable (repo : Repository) (env : CallEnv Id)

/-- The intent commit's options: the control commit's, with the reason. -/
def intentOptions (agentId : String) (category : IntentCategory)
    (description reason : String) : CommitOptions :=
  { env.newOptions agentId category description with reasoning := some reason }

/-- A table write with its intent commit; `note` is what is written of the
commit afterwards. -/
def recordIntent (refName : String) (options : CommitOptions)
    (write : Storage Id → Except StorageError (Storage Id))
    (note : Id → Storage Id → Storage Id) (store : Storage Id) :
    Outcome Id Unit :=
  match liftStorage (write store) with
  | .error e => (.error e, store)
  | .ok written =>
      match repo.intentThrough env refName options written with
      | (.error e, left) => (.error e, left)
      | (.ok id, landed) => (.ok (), note id landed)

/-- `taint_through` around a row and its intent commit. -/
def taintThrough (refName taintId agentId : String) (category : IntentCategory)
    (description reason : String)
    (write : Storage Id → Except StorageError (Storage Id))
    (note : Id → Storage Id → Storage Id) (store : Storage Id) :
    Outcome Id Unit :=
  env.writeThrough 0 (.taint taintId)
    (env.newOptions agentId category description) env.controlNow
    (repo.recordIntent env refName
      (intentOptions env agentId category description reason) write note) store

/-- Create a row, write its intent commit, then note the commit in the row. -/
def raiseThrough (refName : String) (category : IntentCategory)
    (description : String) (record : Taint) (store : Storage Id) :
    Outcome Id String :=
  match repo.taintThrough env refName record.id record.agentId category
      description record.reason (fun s => s.createTaint record)
      (fun id s => s.setTaintCommitId record.id (displayId id)) store with
  | (.error e, left) => (.error e, left)
  | (.ok (), raised) => (.ok record.id, raised)

def taint (refName path : String) (params : TaintParams)
    (store : Storage Id) : Outcome Id String :=
  repo.raiseThrough env refName .taint
    ("taint " ++ params.name ++ " on " ++ path ++ ": " ++ params.reason)
    (env.taintRecord path params) store

def quarantine (refName path : String) (params : QuarantineParams)
    (store : Storage Id) : Outcome Id String :=
  repo.raiseThrough env refName .quarantine
    ("quarantine " ++ params.name ++ " on " ++ path ++ ": " ++ params.reason)
    (env.quarantineRecord path params) store

def watchPath (refName path : String) (params : WatchParams)
    (store : Storage Id) : Outcome Id String :=
  repo.raiseThrough env refName .watch
    ("watch " ++ params.name ++ " on " ++ path ++ ": " ++ params.reason)
    (env.watchRecord path params) store

/-- `resolve_kind`: resolve the row of a path, name and kind. -/
def resolveKind (refName path taintName : String) (kind : TaintKind)
    (intent : IntentCategory) (params : UntaintParams) (resolvedAt : ℤ)
    (store : Storage Id) : Outcome Id Unit :=
  match env.untaintTarget store path taintName kind with
  | none =>
      (.error (.taint (.notFound (Storage.TaintKind.debug kind ++ ":" ++ path ++ ":" ++
        taintName)) none), store)
  | some target =>
      repo.taintThrough env refName target.id params.agentId intent
        ("resolve " ++ Storage.TaintKind.debug kind ++ " " ++ taintName ++ " on " ++
          path) params.reason
        (fun s => s.resolveTaint target.id resolvedAt) (fun _ s => s) store

def untaint (refName path taintName : String) (params : UntaintParams)
    (resolvedAt : ℤ) (store : Storage Id) : Outcome Id Unit :=
  repo.resolveKind env refName path taintName .taint .untaint params resolvedAt
    store

end Repository

/-- A call that raises or resolves a taint. -/
inductive TaintCall where
  | taint (refName path : String) (params : TaintParams)
  | quarantine (refName path : String) (params : QuarantineParams)
  | watchPath (refName path : String) (params : WatchParams)
  | untaint (refName path taintName : String) (params : UntaintParams)
      (resolvedAt : ℤ)
deriving DecidableEq

/-- The answer of a call: the id of the row it created. -/
abbrev Outcome.dropId (r : Outcome Id String) : Outcome Id Unit :=
  (r.1.map fun _ => (), r.2)

def TaintCall.run (repo : Repository) (env : CallEnv Id) (store : Storage Id) :
    TaintCall → Outcome Id Unit
  | .taint refName path params =>
      (repo.taint env refName path params store).dropId
  | .quarantine refName path params =>
      (repo.quarantine env refName path params store).dropId
  | .watchPath refName path params =>
      (repo.watchPath env refName path params store).dropId
  | .untaint refName path taintName params resolvedAt =>
      repo.untaint env refName path taintName params resolvedAt store

/-- If the call fails, the taint records and the control ref are what they were
before. -/
def Atomic {α : Type} (before : Storage Id) (result : Outcome Id α) : Prop :=
  ∀ e, result.1 = .error e →
    result.2.taints = before.taints ∧
      result.2.refAt defaultNs CONTROL_REF =
        before.refAt defaultNs CONTROL_REF

/-! ## What the table refuses -/

/-- An unresolved row of this path, name and kind stands. -/
def Storage.HasActive (s : Storage Id) (path name : String)
    (kind : TaintKind) : Prop :=
  ∃ t ∈ s.taints, t.resolvedAt = none ∧ t.path = path ∧ t.name = name ∧
    t.kind = kind

theorem Storage.createTaint_ok_iff (s : Storage Id) (record : Taint) :
    (∃ t, s.createTaint record = .ok t) ↔
      ¬ s.HasActive record.path record.name record.kind := by
  unfold createTaint HasActive
  split
  next h =>
    refine iff_of_false (by simp) (not_not.mpr ?_)
    simpa [and_assoc] using h
  next h =>
    refine iff_of_true ⟨_, rfl⟩ ?_
    simpa [and_assoc] using h

theorem Storage.createTaint_eq_ok {s t : Storage Id} {record : Taint}
    (h : s.createTaint record = .ok t) :
    t = { s with taints := s.taints ++ [record] } := by
  unfold createTaint at h
  split at h
  · contradiction
  · exact (Except.ok.inj h).symm

theorem replaceFirst_ne {α : Type} {p : α → Bool} {a b : α} {l : List α}
    (hfind : l.find? p = some a) (hne : b ≠ a) :
    Control.replaceFirst p b l ≠ l := by
  induction l with
  | nil => simp at hfind
  | cons x l ih =>
      unfold Control.replaceFirst
      by_cases hx : p x = true
      · rw [List.find?_cons_of_pos hx] at hfind
        obtain rfl := Option.some.inj hfind
        rw [if_pos hx]
        intro h
        exact hne (List.cons.inj h).1
      · rw [List.find?_cons_of_neg hx] at hfind
        rw [if_neg hx]
        intro h
        exact ih hfind (List.cons.inj h).2

theorem Storage.resolveTaint_taints_ne {s t : Storage Id} {id : String}
    {resolvedAt : ℤ} (h : s.resolveTaint id resolvedAt = .ok t) :
    t.taints ≠ s.taints := by
  unfold resolveTaint at h
  split at h
  next => contradiction
  next row hrow =>
    split at h
    next => contradiction
    next hunresolved =>
      obtain rfl := Except.ok.inj h
      apply replaceFirst_ne hrow
      intro hsame
      apply hunresolved
      rw [← hsame]
      rfl

namespace Repository

variable {repo : Repository} {env : CallEnv Id} {refName : String}

/-! ## The marks of a call -/

omit [Digest Id] in
theorem mark_ne_controlRef (n : ℕ) (staged : Staged Id) :
    env.mark n staged ≠ CONTROL_REF := by
  intro h
  have hlen := congrArg String.length h
  simp only [CallEnv.mark, PENDING_PREFIX, CONTROL_REF,
    String.length_append] at hlen
  have hprefix : "_control-pending/".length = 17 := rfl
  have hcontrol : "_control".length = 8 := rfl
  omega

theorem controlRef_pending (n : ℕ) (staged : Staged Id) (s : Storage Id) :
    (env.pending n staged s).refAt defaultNs CONTROL_REF =
      s.refAt defaultNs CONTROL_REF := by
  rw [CallEnv.pending, Storage.refAt_putRef]
  apply if_neg
  rintro ⟨-, h⟩
  exact mark_ne_controlRef n staged h

theorem controlRef_dropMark (n : ℕ) (staged : Staged Id) (marked : Id)
    (s : Storage Id) :
    (s.dropMark (env.mark n staged) marked).refAt defaultNs CONTROL_REF =
      s.refAt defaultNs CONTROL_REF := by
  unfold Storage.dropMark
  split
  · rw [Storage.refAt_eraseRef]
    apply if_neg
    rintro ⟨-, h⟩
    exact mark_ne_controlRef n staged h
  · rfl

theorem taints_dropMark (mark : String) (marked : Id) (s : Storage Id) :
    (s.dropMark mark marked).taints = s.taints := by
  unfold Storage.dropMark
  split <;> rfl

/-! ## When a call is atomic -/

section Calls

variable (repo env refName)
variable (taintId agentId description reason : String)
  (category : IntentCategory)
  (write : Storage Id → Except StorageError (Storage Id))
  (note : Id → Storage Id → Storage Id) (s : Storage Id)

theorem taintThrough_atomic_iff
    (hchanges : ∀ t, write (env.pending 0 (.taint taintId) s) = .ok t →
      t.taints ≠ s.taints) :
    Atomic s (repo.taintThrough env refName taintId agentId category
        description reason write note s) ↔
      defaultNs ∉ s.namespaces ∨
        (¬ ∃ t, write (env.pending 0 (.taint taintId) s) = .ok t) ∨
        ∃ t, write (env.pending 0 (.taint taintId) s) = .ok t ∧
          repo.IntentLands env refName
            (intentOptions env agentId category description reason) t := by
  set staged : Staged Id := .taint taintId
  set options := intentOptions env agentId category description reason
  by_cases hns : defaultNs ∈ s.namespaces
  · cases hwrite : write (env.pending 0 staged s) with
    | error e =>
        -- the table refused the row: only the mark was set and dropped
        have hrun := env.writeThrough_of_error 0 staged
          (env.newOptions agentId category description) env.controlNow
          (repo.recordIntent env refName options write note) hns
          (show repo.recordIntent env refName options write note _ =
            (.error (.storage e), env.pending 0 staged s) by
            simp [recordIntent, hwrite, liftStorage])
        refine iff_of_true ?_ (Or.inr (Or.inl (by simp)))
        intro err _
        rw [taintThrough, hrun]
        exact ⟨taints_dropMark _ _ _, (controlRef_dropMark 0 staged _ _).trans
          (controlRef_pending 0 staged s)⟩
    | ok t =>
        have hlands := repo.intentThrough_ok_iff env refName options t
        have hkept := repo.intentThrough_tablesKept env refName options t
        simp only [hns, not_true_eq_false, false_or, Except.ok.injEq,
          exists_eq', exists_eq_left', ← hlands]
        cases hintent : repo.intentThrough env refName options t with
        | mk result left =>
            rw [hintent] at hkept
            cases result with
            | ok id =>
                have hrun := env.writeThrough_of_ok 0 staged
                  (env.newOptions agentId category description) env.controlNow
                  (repo.recordIntent env refName options write note) hns
                  (show repo.recordIntent env refName options write note _ =
                    (.ok (), note id left) by
                    simp [recordIntent, hwrite, liftStorage, hintent])
                refine iff_of_true ?_ ⟨id, rfl⟩
                intro err herr
                rw [taintThrough, hrun] at herr
                cases herr
            | error e =>
                -- the row stays, and nothing took it back
                have hrun := env.writeThrough_of_error 0 staged
                  (env.newOptions agentId category description) env.controlNow
                  (repo.recordIntent env refName options write note) hns
                  (show repo.recordIntent env refName options write note _ =
                    (.error e, left) by
                    simp [recordIntent, hwrite, liftStorage, hintent])
                refine iff_of_false ?_ (by simp)
                intro hatomic
                rw [taintThrough, hrun] at hatomic
                obtain ⟨htaints, -⟩ := hatomic e rfl
                rw [taints_dropMark, hkept.taints] at htaints
                exact hchanges t hwrite htaints
  · refine iff_of_true ?_ (Or.inl hns)
    intro err _
    rw [taintThrough, env.writeThrough_of_missing _ _ _ _ _ hns]
    exact ⟨rfl, rfl⟩

/-- The same of a call that creates a row. -/
theorem raiseThrough_atomic_iff (record : Taint) :
    Atomic s (repo.raiseThrough env refName category description record
        s).dropId ↔
      defaultNs ∉ s.namespaces ∨
        s.HasActive record.path record.name record.kind ∨
        repo.IntentLands env refName
          (intentOptions env record.agentId category description record.reason)
          { env.pending 0 (.taint record.id) s with
            taints := s.taints ++ [record] } := by
  set marked := env.pending 0 (.taint record.id) s
  have hmarked : marked.taints = s.taints :=
    (env.pending_aside 0 (.taint record.id) s).taints
  have hok := marked.createTaint_ok_iff record
  have hsame : marked.HasActive record.path record.name record.kind ↔
      s.HasActive record.path record.name record.kind := by
    simp only [Storage.HasActive, hmarked]
  rw [hsame] at hok
  have hiff := taintThrough_atomic_iff repo env refName record.id
    record.agentId description record.reason category
    (fun s => s.createTaint record)
    (fun id s => s.setTaintCommitId record.id (displayId id)) s (by
      intro t ht
      rw [Storage.createTaint_eq_ok ht, hmarked]
      simp)
  have hatomic : Atomic s (repo.raiseThrough env refName category description
        record s).dropId ↔
      Atomic s (repo.taintThrough env refName record.id record.agentId category
        description record.reason (fun s => s.createTaint record)
        (fun id s => s.setTaintCommitId record.id (displayId id)) s) := by
    unfold raiseThrough Atomic
    split
    next h =>
      rw [h]
      simp [Except.map]
    next h =>
      rw [h]
      simp [Except.map]
  rw [hatomic, hiff]
  by_cases hactive : s.HasActive record.path record.name record.kind
  · have hnone : ¬ ∃ t, marked.createTaint record = .ok t :=
      fun h => hok.mp h hactive
    exact iff_of_true (Or.inr (Or.inl hnone)) (Or.inr (Or.inl hactive))
  · obtain ⟨t, ht⟩ := hok.mpr hactive
    have hwritten := Storage.createTaint_eq_ok ht
    rw [hmarked] at hwritten
    simp only [marked] at ht
    simp only [ht, Except.ok.injEq, exists_eq', exists_eq_left', hactive,
      not_true_eq_false, false_or]
    rw [hwritten]

end Calls

end Repository

/-! ## The four calls -/

namespace TaintCall

variable (env : CallEnv Id) (s : Storage Id)

/-- The row of an id is there and unresolved. -/
def Resolvable (s : Storage Id) (id : String) : Prop :=
  ∃ t, s.getTaint id = some t ∧ t.resolvedAt = none

/-- The table refuses the call: there is an unresolved row of the same path,
name and kind, or none to resolve. -/
def Refused : TaintCall → Prop
  | .taint _ path params => s.HasActive path params.name .taint
  | .quarantine _ path params => s.HasActive path params.name .quarantine
  | .watchPath _ path params => s.HasActive path params.name .watch
  | .untaint _ path taintName _ _ =>
      ∀ t, env.untaintTarget s path taintName .taint = some t →
        ¬ Resolvable s t.id

/-- The store as the intent commit finds it: under the mark, with the row. -/
def recorded (record : Taint) : Storage Id :=
  { env.pending 0 (.taint record.id) s with taints := s.taints ++ [record] }

variable (repo : Repository)

/-- The call's intent commit lands on its ref. -/
def Lands : TaintCall → Prop
  | .taint refName path params =>
      repo.IntentLands env refName
        (Repository.intentOptions env params.agentId .taint
          ("taint " ++ params.name ++ " on " ++ path ++ ": " ++ params.reason)
          params.reason)
        (recorded env s (env.taintRecord path params))
  | .quarantine refName path params =>
      repo.IntentLands env refName
        (Repository.intentOptions env params.agentId .quarantine
          ("quarantine " ++ params.name ++ " on " ++ path ++ ": " ++
            params.reason) params.reason)
        (recorded env s (env.quarantineRecord path params))
  | .watchPath refName path params =>
      repo.IntentLands env refName
        (Repository.intentOptions env params.agentId .watch
          ("watch " ++ params.name ++ " on " ++ path ++ ": " ++ params.reason)
          params.reason)
        (recorded env s (env.watchRecord path params))
  | .untaint refName path taintName params resolvedAt =>
      ∃ t written, env.untaintTarget s path taintName .taint = some t ∧
        (env.pending 0 (.taint t.id) s).resolveTaint t.id resolvedAt =
          .ok written ∧
        repo.IntentLands env refName
          (Repository.intentOptions env params.agentId .untaint
            ("resolve Taint " ++ taintName ++ " on " ++ path) params.reason)
          written

theorem resolveTaint_ok_iff (id : String) (resolvedAt : ℤ) :
    (∃ t, s.resolveTaint id resolvedAt = .ok t) ↔ Resolvable s id := by
  unfold Storage.resolveTaint Resolvable
  split
  next h => simp [h]
  next row h =>
    rw [h]
    cases hresolved : row.resolvedAt <;> simp [hresolved]

theorem untaint_atomic_iff (refName path taintName : String)
    (params : UntaintParams) (resolvedAt : ℤ) :
    Atomic s (repo.untaint env refName path taintName params resolvedAt s) ↔
      defaultNs ∉ s.namespaces ∨
        Refused env s (.untaint refName path taintName params resolvedAt) ∨
        Lands env s repo
          (.untaint refName path taintName params resolvedAt) := by
  unfold Repository.untaint Repository.resolveKind
  cases htarget : env.untaintTarget s path taintName .taint with
  | none =>
      refine iff_of_true ?_ (Or.inr (Or.inl (by simp [Refused, htarget])))
      intro e _
      exact ⟨rfl, rfl⟩
  | some target =>
      set marked := env.pending 0 (.taint target.id) s
      have hmarked : marked.taints = s.taints :=
        (env.pending_aside 0 (.taint target.id) s).taints
      have hok := resolveTaint_ok_iff marked target.id resolvedAt
      have hsame : Resolvable marked target.id ↔ Resolvable s target.id := by
        simp only [Resolvable, Storage.getTaint, hmarked]
      rw [hsame] at hok
      have hchanges : ∀ t, marked.resolveTaint target.id resolvedAt = .ok t →
          t.taints ≠ s.taints := by
        intro t ht
        have hne := Storage.resolveTaint_taints_ne ht
        rwa [hmarked] at hne
      have hiff := Repository.taintThrough_atomic_iff repo env refName target.id
        params.agentId ("resolve Taint " ++ taintName ++ " on " ++ path)
        params.reason .untaint (fun s => s.resolveTaint target.id resolvedAt)
        (fun _ s => s) s hchanges
      rw [hok] at hiff
      refine hiff.trans ?_
      simp only [Refused, Lands, htarget, Option.some.injEq, forall_eq']
      apply or_congr_right
      apply or_congr_right
      constructor
      · rintro ⟨written, hwritten, hlands⟩
        exact ⟨target, written, rfl, hwritten, hlands⟩
      · rintro ⟨t, written, rfl, hwritten, hlands⟩
        exact ⟨written, hwritten, hlands⟩

/-- A call that fails changes nothing exactly when it fails before its row is
written: the default namespace is missing or the table refuses.  Of the others,
those whose intent commit lands do not fail. -/
theorem run_atomic_iff (call : TaintCall) :
    Atomic s (call.run repo env s) ↔
      defaultNs ∉ s.namespaces ∨ call.Refused env s ∨
        call.Lands env s repo := by
  cases call with
  | taint refName path params =>
      exact Repository.raiseThrough_atomic_iff repo env refName _ _ s
        (env.taintRecord path params)
  | quarantine refName path params =>
      exact Repository.raiseThrough_atomic_iff repo env refName _ _ s
        (env.quarantineRecord path params)
  | watchPath refName path params =>
      exact Repository.raiseThrough_atomic_iff repo env refName _ _ s
        (env.watchRecord path params)
  | untaint refName path taintName params resolvedAt =>
      exact untaint_atomic_iff env s repo refName path taintName params
        resolvedAt

end TaintCall

namespace TaintCall.Examples

/-- Fixed ids and times, and no other writer. -/
def env : CallEnv ContentKey where
  codec := Control.sampleCodec
  taintValue t := .string t.id
  createdAt _ := 0
  hash _ := ⟨[]⟩
  freshId := "t-1"
  nonce _ := "0"
  intentId _ := "i-1"
  simpleAuthority agentId := agentId
  now _ := 0
  controlNow := 0
  rival _ := none

/-- A taint on a branch that is not there. -/
def onMissingRef : TaintCall :=
  .taint "nowhere" "/a" ⟨"stale", .warn, "old", none, true, "agent"⟩

set_option maxRecDepth 16384 in
/-- The call fails, and its row stays. -/
theorem onMissingRef_not_atomic :
    ¬ Atomic (Storage.new : Storage ContentKey)
      (onMissingRef.run Repository.new env Storage.new) := by
  have herror : (onMissingRef.run Repository.new env Storage.new).1 =
      .error (.branchNotFound "nowhere") := by decide
  have hstays : (onMissingRef.run Repository.new env
      Storage.new).2.taints ≠ [] := by decide
  intro hatomic
  exact hstays (hatomic _ herror).1

end TaintCall.Examples

end AgentStateGraph
