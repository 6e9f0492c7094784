import AgentStateGraph.Lib.RelyGuarantee
import AgentStateGraph.Repo.Storage

/-!
# Sessions that ended

Ending a session is one guarded change of its row, and a commit is associated
only with an active session.  Updating the head of a session instead reads the
row and writes the whole of it back, so a session that ended in between is
active again.  Where that does not happen, an ended session stays as it ended.
-/

namespace AgentStateGraph

open RelyGuarantee

namespace Sessions

variable {Id : Type}

/-! ## The session table -/

inductive Status where
  | active | completed | abandoned
deriving DecidableEq

/-- A durable agent session record. -/
structure Session (Id : Type) where
  id : String
  agentId : String
  workingBranch : String
  head : Id
  parentSession : Option String
  delegatedIntent : Option String
  reportTo : Option String
  pathScope : Option String
  scopeTenant : Option String
  scopeNamespace : Option String
  status : Status
  createdAt : ℤ
  endedAt : Option ℤ
deriving DecidableEq

structure CreateSessionParams where
  parentSession : Option String
  delegatedIntent : Option String
  reportTo : Option String
  pathScope : Option String
  scopeNamespace : Option String

/-- The sessions by id, and the session of each commit. -/
structure Table (Id : Type) where
  sessions : BTreeMap String (Session Id)
  commitSession : List (Id × String)

namespace Table

variable (t : Table Id)

def getSession (id : String) : Option (Session Id) := t.sessions[id]?

/-- Create or replace a row. -/
def createSession (s : Session Id) : Table Id :=
  { t with sessions := t.sessions.insert s.id s }

def endSession (id : String) (status : Status) (endedAt : ℤ) :
    Except StorageError (Table Id) :=
  match t.getSession id with
  | none => .error (.backend ("session not found: " ++ id))
  | some s =>
      if s.status ≠ .active then .error (.sessionEnded id)
      else
        .ok { t with
          sessions := t.sessions.insert id
            { s with status := status, endedAt := some endedAt } }

def setCommitSession [DecidableEq Id] (commit : Id) (id : String) :
    Except StorageError (Table Id) :=
  match t.getSession id with
  | none => .error (.backend ("session not found: " ++ id))
  | some s =>
      if s.status ≠ .active then .error (.sessionEnded id)
      else
        .ok { t with
          commitSession :=
            t.commitSession.filter (fun e => e.1 ≠ commit) ++ [(commit, id)] }

end Table

/-! ## Calls in steps -/

/-- The calls of a session manager and of a repository handle. -/
inductive Call (Id : Type) where
  | create (id agentId workingBranch : String) (head : Id)
      (params : CreateSessionParams) (now : ℤ)
  | updateHead (id : String) (head : Id)
  | endSession (id : String) (status : Status) (now : ℤ)
  | setActiveSession (id : Option String)
  | commit (commit : Id)

/-- A handle: its active session, and the row an `update_head` is about to
write back. -/
structure Handle (Id : Type) where
  activeSession : Option String
  activeSessionNamespace : Option String
  rewriting : Option (Session Id)

def Handle.new : Handle Id := ⟨none, none, none⟩

/-- The row a new session has. -/
def newSession (id agentId workingBranch : String) (head : Id)
    (params : CreateSessionParams) (now : ℤ) : Session Id where
  id := id
  agentId := agentId
  workingBranch := workingBranch
  head := head
  parentSession := params.parentSession
  delegatedIntent := params.delegatedIntent
  reportTo := params.reportTo
  pathScope := params.pathScope
  scopeTenant := none
  scopeNamespace := params.scopeNamespace
  status := .active
  createdAt := now
  endedAt := none

variable [DecidableEq Id]

/-- Associate a commit with the active session, if there is one. -/
def Handle.associate (h : Handle Id) (commit : Id) (t : Table Id) : Table Id :=
  match h.activeSession with
  | none => t
  | some id => (t.setCommitSession commit id).toOption.getD t

/-- A call, up to its first write. -/
def Handle.call (h : Handle Id) (t : Table Id) : Call Id → Table Id × Handle Id
  | .create id agentId workingBranch head params now =>
      (t.createSession (newSession id agentId workingBranch head params now), h)
  | .updateHead id head =>
      (t, { h with
        rewriting := (t.getSession id).map fun s => { s with head := head } })
  | .endSession id status now => ((t.endSession id status now).toOption.getD t, h)
  | .setActiveSession id =>
      (t, { h with
        activeSession := id
        activeSessionNamespace :=
          (id.bind t.getSession).bind fun s => s.scopeNamespace })
  | .commit commit => (h.associate commit t, h)

/-- One step: write back the row that was read, or make the next call. -/
def Handle.step (h : Handle Id) (t : Table Id) (call : Call Id) :
    Table Id × Handle Id :=
  match h.rewriting with
  | some s => (t.createSession s, { h with rewriting := none })
  | none => h.call t call

variable {W : Type}

def sessionMachine : Machine W (Call Id) (Table Id) (Handle Id) :=
  ⟨fun _ call t h => h.step t call⟩

/-! ## What a step keeps -/

/-- Ended sessions stay as they ended, and get no commits. -/
structure Table.KeepsEnded (s t : Table Id) : Prop where
  rows : ∀ id a, s.getSession id = some a → a.status ≠ .active →
    ∃ b, t.getSession id = some b ∧ b.status = a.status ∧
      b.endedAt = a.endedAt
  commits : ∀ id a, s.getSession id = some a → a.status ≠ .active →
    ∀ commit, (commit, id) ∈ t.commitSession → (commit, id) ∈ s.commitSession

/-- A row written back shows how the session ended, if it has ended; a new
session has a new id; and no session is ended as active. -/
def Handle.Regular (h : Handle Id) (t : Table Id) (call : Call Id) : Prop :=
  match h.rewriting with
  | some r => ∀ a ∈ t.getSession r.id, a.status ≠ .active →
      r.status = a.status ∧ r.endedAt = a.endedAt
  | none =>
      match call with
      | .create id _ _ _ _ _ => t.getSession id = none
      | .endSession _ status _ => status ≠ .active
      | _ => True

instance (h : Handle Id) (t : Table Id) (call : Call Id) :
    Decidable (h.Regular t call) := by
  unfold Handle.Regular
  cases h.rewriting with
  | some r => exact inferInstanceAs (Decidable (∀ a ∈ t.getSession r.id, _))
  | none =>
      cases call with
      | create => exact inferInstanceAs (Decidable (_ = none))
      | endSession => exact inferInstanceAs (Decidable (_ ≠ _))
      | updateHead => exact isTrue trivial
      | setActiveSession => exact isTrue trivial
      | commit => exact isTrue trivial

section Keeps

variable {s t u : Table Id}

omit [DecidableEq Id] in
theorem Table.KeepsEnded.refl (s : Table Id) : s.KeepsEnded s :=
  ⟨fun _ a ha _ => ⟨a, ha, rfl, rfl⟩, fun _ _ _ _ _ h => h⟩

omit [DecidableEq Id] in
theorem Table.KeepsEnded.trans (hst : s.KeepsEnded t) (htu : t.KeepsEnded u) :
    s.KeepsEnded u := by
  constructor
  · intro id a ha hended
    obtain ⟨b, hb, hstatus, hat⟩ := hst.rows id a ha hended
    obtain ⟨c, hc, hstatus', hat'⟩ := htu.rows id b hb (by rwa [hstatus])
    exact ⟨c, hc, hstatus'.trans hstatus, hat'.trans hat⟩
  · intro id a ha hended commit hcommit
    obtain ⟨b, hb, hstatus, -⟩ := hst.rows id a ha hended
    exact hst.commits id a ha hended commit
      (htu.commits id b hb (by rwa [hstatus]) commit hcommit)

omit [DecidableEq Id] in
/-- A row is written over nothing, over an active session, or over one that
ended the same way. -/
theorem Table.keepsEnded_insert {id : String} {r : Session Id}
    (h : ∀ a, s.getSession id = some a → a.status ≠ .active →
      r.status = a.status ∧ r.endedAt = a.endedAt) :
    s.KeepsEnded { s with sessions := s.sessions.insert id r } := by
  constructor
  · intro id' a ha hended
    by_cases hid : id = id'
    · subst hid
      obtain ⟨hstatus, hat⟩ := h a ha hended
      exact ⟨r, by simp [getSession], hstatus, hat⟩
    · refine ⟨a, ?_, rfl, rfl⟩
      simpa [getSession, Std.ExtTreeMap.getElem?_insert, hid] using ha
  · exact fun _ _ _ _ _ hcommit => hcommit

omit [DecidableEq Id] in
theorem Table.endSession_eq_ok {id : String} {status : Status} {now : ℤ}
    (h : s.endSession id status now = .ok t) :
    ∃ a, s.getSession id = some a ∧ a.status = .active ∧
      t = { s with
        sessions := s.sessions.insert id
          { a with status := status, endedAt := some now } } := by
  unfold endSession at h
  split at h
  next => contradiction
  next a ha =>
    split at h
    next => contradiction
    next hactive => exact ⟨a, ha, by simpa using hactive, (Except.ok.inj h).symm⟩

theorem Table.setCommitSession_eq_ok {commit : Id} {id : String}
    (h : s.setCommitSession commit id = .ok t) :
    ∃ a, s.getSession id = some a ∧ a.status = .active ∧
      t = { s with
        commitSession :=
          s.commitSession.filter (fun e => e.1 ≠ commit) ++ [(commit, id)] } := by
  unfold setCommitSession at h
  split at h
  next => contradiction
  next a ha =>
    split at h
    next => contradiction
    next hactive => exact ⟨a, ha, by simpa using hactive, (Except.ok.inj h).symm⟩

theorem Handle.associate_keepsEnded (h : Handle Id) (commit : Id) :
    s.KeepsEnded (h.associate commit s) := by
  unfold Handle.associate
  split
  next => exact .refl s
  next id hid =>
    cases hset : s.setCommitSession commit id with
    | error e => exact .refl s
    | ok t =>
        obtain ⟨b, hb, hactive, rfl⟩ := Table.setCommitSession_eq_ok hset
        refine ⟨fun _ a ha _ => ⟨a, ha, rfl, rfl⟩, ?_⟩
        intro id' a ha hended c hc
        rcases List.mem_append.mp hc with hold | hnew
        · exact List.mem_of_mem_filter hold
        · -- only the active session gains the commit
          obtain ⟨-, rfl⟩ := Prod.mk.inj (List.mem_singleton.mp hnew)
          rw [hb] at ha
          rw [← Option.some.inj ha] at hended
          exact absurd hactive hended

theorem Handle.step_keepsEnded {h : Handle Id} {call : Call Id}
    (hregular : h.Regular s call) : s.KeepsEnded (h.step s call).1 := by
  unfold Handle.Regular at hregular
  unfold Handle.step
  cases hr : h.rewriting with
  | some r =>
    rw [hr] at hregular
    exact Table.keepsEnded_insert fun a ha => hregular a ha
  | none =>
    rw [hr] at hregular
    cases call with
    | create id agentId workingBranch head params now =>
        refine Table.keepsEnded_insert fun a ha _ => ?_
        have hnone : s.getSession id = none := hregular
        have hsome : s.getSession id = some a := ha
        rw [hnone] at hsome
        contradiction
    | updateHead id head => exact .refl s
    | endSession id status now =>
        simp only [Handle.call]
        cases hend : s.endSession id status now with
        | error e => exact .refl s
        | ok t =>
            obtain ⟨b, hb, hactive, rfl⟩ := Table.endSession_eq_ok hend
            refine Table.keepsEnded_insert fun a ha hended => ?_
            rw [hb] at ha
            rw [← Option.some.inj ha] at hended
            exact absurd hactive hended
    | setActiveSession id => exact .refl s
    | commit commit => exact h.associate_keepsEnded commit

end Keeps

/-! ## Every interleaving -/

variable [DecidableEq W]

/-- No handle has to know anything; every regular step keeps what ended. -/
def sessionAssertions :
    Assertions (sessionMachine : Machine W (Call Id) (Table Id) (Handle Id)) where
  allowed _ call t h := h.Regular t call
  shared _ := True
  loc _ _ _ := True
  guarantee s t := s.KeepsEnded t
  guarantee_refl := Table.KeepsEnded.refl
  guarantee_trans _ _ _ := Table.KeepsEnded.trans
  step _ _ _ _ hregular _ _ :=
    ⟨trivial, trivial, Handle.step_keepsEnded hregular⟩
  stable _ _ _ _ _ _ := trivial

instance (w : W) (call : Call Id) (t : Table Id) (h : Handle Id) :
    Decidable ((sessionAssertions : Assertions (sessionMachine :
      Machine W (Call Id) (Table Id) (Handle Id))).allowed w call t h) :=
  inferInstanceAs (Decidable (h.Regular t call))

/-- In every regular run, a session whose `end` returned stays as it ended, and
no commit joins it. -/
theorem ended_stays_ended (start : Config W (Table Id) (Handle Id))
    (before after : List (W × Call Id)) (w : W) (id : String) (status : Status)
    (now : ℤ)
    (hidle : ((sessionMachine.run start before).loc w).rewriting = none)
    (hend : ((sessionMachine.run start before).shared.endSession id status
      now).isOk = true)
    (hregular : sessionAssertions.Allowed start
      (before ++ (w, .endSession id status now) :: after)) :
    let ended := sessionMachine.run start (before ++ [(w, .endSession id status now)])
    let fin := sessionMachine.run start
      (before ++ (w, .endSession id status now) :: after)
    (∃ s, fin.shared.getSession id = some s ∧ s.status = status ∧
        s.status ≠ .active ∧ s.endedAt = some now) ∧
      ∀ commit, (commit, id) ∈ fin.shared.commitSession →
        (commit, id) ∈ ended.shared.commitSession := by
  intro ended fin
  obtain ⟨-, hnow, hafter⟩ := sessionAssertions.allowed_append.mp hregular
  let mid := sessionMachine.run start before
  have hended : ended = sessionMachine.advance mid (w, .endSession id status now) := by
    simp only [ended, Machine.run_append]
    rfl
  have hfin : fin = sessionMachine.run ended after := by
    rw [hended]
    simp only [fin, Machine.run_append]
    rfl
  -- the row right after the end
  have hrow : ∃ s, ended.shared.getSession id = some s ∧ s.status = status ∧
      s.endedAt = some now := by
    cases hok : mid.shared.endSession id status now with
    | error e =>
        have hsome : (mid.shared.endSession id status now).isOk = true := hend
        rw [hok] at hsome
        simp [Except.isOk, Except.toBool] at hsome
    | ok t =>
        obtain ⟨a, ha, -, rfl⟩ := Table.endSession_eq_ok hok
        refine ⟨{ a with status := status, endedAt := some now }, ?_, rfl, rfl⟩
        have hidle' : (mid.loc w).rewriting = none := hidle
        rw [hended]
        simp [Machine.advance, sessionMachine, Handle.step, hidle',
          Handle.call, hok, Except.toOption, Table.getSession]
  have hstatus : status ≠ .active := by
    have hreg : (mid.loc w).Regular mid.shared (.endSession id status now) := hnow
    have hidle' : (mid.loc w).rewriting = none := hidle
    unfold Handle.Regular at hreg
    rw [hidle'] at hreg
    exact hreg
  have hrest : sessionAssertions.Allowed ended after := by
    rw [hended]
    exact hafter
  have hholds : sessionAssertions.Holds ended := ⟨trivial, fun _ => trivial⟩
  obtain ⟨-, hkeeps⟩ := sessionAssertions.holds_run hholds hrest
  rw [← hfin] at hkeeps
  obtain ⟨s, hs, hsstatus, hsat⟩ := hrow
  have hsactive : s.status ≠ .active := by rwa [hsstatus]
  obtain ⟨b, hb, hbstatus, hbat⟩ := hkeeps.rows id s hs hsactive
  refine ⟨⟨b, hb, hbstatus.trans hsstatus, ?_, hbat.trans hsat⟩, ?_⟩
  · rwa [hbstatus]
  · exact hkeeps.commits id s hs hsactive

/-! ## A manager that races another -/

namespace TwoManagers

def params : CreateSessionParams := ⟨none, none, none, none, none⟩

def start : Config Bool (Table ℕ) (Handle ℕ) :=
  ⟨⟨∅, []⟩, fun _ => .new⟩

/-- One manager creates the session; the other reads its row, to update the
head. -/
def before : List (Bool × Call ℕ) :=
  [(false, .create "s" "agent" "main" 0 params 1), (true, .updateHead "s" 5)]

/-- The row is written back, and a commit joins the session. -/
def after : List (Bool × Call ℕ) :=
  [(true, .setActiveSession none), (false, .setActiveSession (some "s")),
    (false, .commit 7)]

/-- The session ends before its head is updated. -/
def inTurn : List (Bool × Call ℕ) :=
  [(false, .create "s" "agent" "main" 0 params 1)]

def later : List (Bool × Call ℕ) :=
  [(true, .updateHead "s" 5), (true, .setActiveSession none),
    (false, .setActiveSession (some "s")), (false, .commit 7)]

end TwoManagers

open TwoManagers in
/-- The end returned, and the session is active again and takes a commit. -/
theorem ended_session_revived :
    let mid := sessionMachine.run start before
    let fin := sessionMachine.run start
      (before ++ (false, .endSession "s" .completed 2) :: after)
    (mid.loc false).rewriting = none ∧
      (mid.shared.endSession "s" .completed 2).isOk = true ∧
      (fin.shared.getSession "s").map (fun s => (s.status, s.endedAt)) =
        some (.active, none) ∧
      (7, "s") ∈ fin.shared.commitSession := by
  decide

open TwoManagers in
theorem ended_stays_ended_inTurn :
    (∃ s, (sessionMachine.run start
          (inTurn ++ (false, .endSession "s" .completed 2) :: later)).shared.getSession
          "s" = some s ∧ s.status = .completed ∧ s.status ≠ .active ∧
        s.endedAt = some 2) ∧
      ∀ commit, (commit, "s") ∈ (sessionMachine.run start
          (inTurn ++ (false, .endSession "s" .completed 2) ::
            later)).shared.commitSession →
        (commit, "s") ∈ (sessionMachine.run start
          (inTurn ++ [(false, .endSession "s" .completed 2)])).shared.commitSession :=
  ended_stays_ended start inTurn later false "s" .completed 2
    (by decide) (by decide) (by decide)

end Sessions

end AgentStateGraph
