import AgentStateGraph.Backend.MemoryTables
import AgentStateGraph.Lib.StepRuns

/-!
# Epochs and sessions in tables

SQLite spreads an epoch over the columns of one row, and a session over the
columns of another with the rest of it in a text.  The epoch of a commit is a
column of the commit's own row.  The in-memory backend keeps the records.  The
two give the same answers along a run exactly when no epoch was created with
branches, commits or a seal hash, which have no column in the insert, when
commits were associated only once they were stored and in the order they were,
and when every parent of a session was there.
-/

namespace AgentStateGraph

namespace EpochRows

open Bundles Backend

abbrev Epoch := EpochRow ObjectId

abbrev Session := Sessions.Session ObjectId

/-! ## Texts of columns -/

def epochStatusStr : EpochStatus → String
  | .active => "Active"
  | .sealed => "Sealed"
  | .archived => "Archived"

def parseEpochStatus (s : String) : EpochStatus :=
  if s = "Sealed" then .sealed
  else if s = "Archived" then .archived
  else .active

def asStorageStr : EpochScope → String
  | .all => "all"
  | .branch b => "branch:" ++ b
  | .plan p => "plan:" ++ p
  | .workspace w => "workspace:" ++ w

/-- An unknown form is read as `all`. -/
def fromStorageStr (s : String) : EpochScope :=
  match splitOnce ':' s with
  | none => .all
  | some (kind, name) =>
      if kind = "branch" then .branch name
      else if kind = "plan" then .plan name
      else if kind = "workspace" then .workspace name
      else .all

def sessionStatusStr : Sessions.Status → String
  | .active => "Active"
  | .completed => "Completed"
  | .abandoned => "Abandoned"

def fromWire (s : String) : Sessions.Status :=
  if s = "Active" then .active
  else if s = "Completed" then .completed
  else .abandoned

/-- The fields of a session that have no column. -/
structure Meta where
  head : Option ObjectId
  delegatedIntent : Option String
  reportTo : Option String
  workingBranch : Option String
  scopeTenant : Option String
deriving DecidableEq

/-- The texts of times, lists and session metadata, which read back, and the
hash of the empty input. -/
structure RowCodec where
  formatTime : ℤ → String
  parseTime : String → Except String ℤ
  parse_time : ∀ t, parseTime (formatTime t) = .ok t
  stringsText : List String → String
  parseStrings : String → Except String (List String)
  parse_strings : ∀ l, parseStrings (stringsText l) = .ok l
  idsText : List ObjectId → String
  parseIds : String → Except String (List ObjectId)
  parse_ids : ∀ l, parseIds (idsText l) = .ok l
  metaText : Meta → String
  parseMeta : String → Option Meta
  parse_meta : ∀ m, parseMeta (metaText m) = some m
  emptyHash : ObjectId

/-! ## Rows -/

structure EpochColumns where
  id : String
  description : String
  status : String
  createdAt : String
  sealedAt : Option String
  summary : Option String
  rootIntents : String
  agents : String
  tags : String
  sealedCommits : String
  sealHash : Option Bytes
  namespace_ : Option String
  scope : String
deriving DecidableEq

structure SqlEpoch extends EpochColumns where
  commitCount : ℕ
deriving DecidableEq

structure SessionColumns where
  id : String
  agentId : String
  parentId : Option String
  scopePath : Option String
  scopeBranch : Option String
  scopeNamespace : Option String
  status : String
  createdAt : String
  endedAt : Option String
  metadata : String
deriving DecidableEq

structure SqlSession extends SessionColumns where
  commitCount : ℕ
deriving DecidableEq

structure SqlCommit where
  id : ObjectId
  epochId : Option String
  sessionId : Option String
deriving DecidableEq

/-- The three tables; epochs and commits in the order of their row ids. -/
structure Sql where
  epochs : List SqlEpoch
  sessions : BTreeMap String SqlSession
  commits : List SqlCommit

variable (codec : RowCodec)

def parseRfc3339 (s : String) : Except BackendError ℤ :=
  match codec.parseTime s with
  | .ok t => .ok t
  | .error e => .error (.serialization ("timestamp parse: " ++ e))

def parseColumn {α : Type} (column : String) :
    Except String α → Except BackendError α
  | .ok a => .ok a
  | .error e => .error (.serialization (column ++ ": " ++ e))

/-- `Option::map(parse_rfc3339).transpose()`. -/
def parseOptTime : Option String → Except BackendError (Option ℤ)
  | none => .ok none
  | some s => (parseRfc3339 codec s).map some

/-- A blob of 32 bytes, or nothing. -/
def sealHashOf : Option Bytes → Option ObjectId
  | none => none
  | some bytes => if h : bytes.length = 32 then some ⟨bytes, h⟩ else none

def rowToEpoch (row : EpochColumns) : Except BackendError Epoch := do
  let rootIntents ← parseColumn "root_intents" (codec.parseStrings row.rootIntents)
  let agents ← parseColumn "agents" (codec.parseStrings row.agents)
  let tags ← parseColumn "tags" (codec.parseStrings row.tags)
  let sealedCommits ←
    parseColumn "sealed_commits" (codec.parseIds row.sealedCommits)
  let createdAt ← parseRfc3339 codec row.createdAt
  let sealedAt ← parseOptTime codec row.sealedAt
  .ok
    { id := row.id
      description := row.description
      rootIntents := rootIntents
      status := parseEpochStatus row.status
      createdAt := createdAt
      sealedAt := sealedAt
      sealSummary := row.summary
      sealHash := sealHashOf row.sealHash
      commits := []
      agents := agents
      branches := []
      tags := tags
      sealedCommits := sealedCommits
      scope := fromStorageStr row.scope
      namespace_ := row.namespace_ }

def rowToSession (row : SessionColumns) : Except BackendError Session := do
  let m : Meta := (codec.parseMeta row.metadata).getD ⟨none, none, none, none, none⟩
  let createdAt ← parseRfc3339 codec row.createdAt
  let endedAt ← parseOptTime codec row.endedAt
  .ok
    { id := row.id
      agentId := row.agentId
      workingBranch := m.workingBranch.getD (row.scopeBranch.getD "")
      head := m.head.getD codec.emptyHash
      parentSession := row.parentId
      delegatedIntent := m.delegatedIntent
      reportTo := m.reportTo
      pathScope := row.scopePath
      scopeTenant := m.scopeTenant
      scopeNamespace :=
        row.scopeNamespace.bind fun s =>
          match Namespace.new s with
          | .ok ns => some ns.name
          | .error _ => none
      status := fromWire row.status
      createdAt := createdAt
      endedAt := endedAt }

namespace Sql

variable (sql : Sql)

def empty : Sql := ⟨[], ∅, []⟩

/-! ## Statements on epochs -/

/-- The insert names neither `branches`, which is no column, nor
`seal_hash`. -/
def insertedRow (e : Epoch) : SqlEpoch where
  id := e.id
  description := e.description
  status := epochStatusStr e.status
  createdAt := codec.formatTime e.createdAt
  sealedAt := e.sealedAt.map codec.formatTime
  summary := e.sealSummary
  rootIntents := codec.stringsText e.rootIntents
  agents := codec.stringsText e.agents
  tags := codec.stringsText e.tags
  sealedCommits := codec.idsText e.sealedCommits
  sealHash := none
  namespace_ := e.namespace_
  scope := asStorageStr e.scope
  commitCount := e.commits.length

def createEpoch (e : Epoch) : Except BackendError Sql :=
  if (sql.epochs.any fun row => row.id = e.id) then
    .error (.storage (.backend
      "create epoch: UNIQUE constraint failed: epochs.id"))
  else .ok { sql with epochs := sql.epochs ++ [insertedRow codec e] }

/-- `UPDATE epochs SET .. WHERE ..`: whether a row was changed, and the
table. -/
def updateEpochs (cond : SqlEpoch → Bool) (f : SqlEpoch → SqlEpoch) :
    Bool × Sql :=
  (sql.epochs.any cond,
    { sql with
      epochs := sql.epochs.map fun row => if cond row then f row else row })

def epochExists (id : String) : Bool := sql.epochs.any fun row => row.id = id

def epochNotFound (id : String) : BackendError :=
  .storage (.backend ("epoch not found: " ++ id))

/-- `id = .. AND status NOT IN ('Sealed', 'Archived')`. -/
def sealable (id : String) (row : SqlEpoch) : Bool :=
  row.id = id && row.status ≠ "Sealed" && row.status ≠ "Archived"

def sealRow (summary : String) (sealedAt : ℤ) (sealedCommits : List ObjectId)
    (sealHash : ObjectId) (row : SqlEpoch) : SqlEpoch :=
  { row with
    status := "Sealed"
    sealedAt := some (codec.formatTime sealedAt)
    summary := some summary
    sealedCommits := codec.idsText sealedCommits
    sealHash := some sealHash.bytes
    commitCount := sealedCommits.length }

def sealEpoch (id summary : String) (sealedAt : ℤ)
    (sealedCommits : List ObjectId) (sealHash : ObjectId) :
    Except BackendError Sql :=
  let updated := sql.updateEpochs (sealable id)
    (sealRow codec summary sealedAt sealedCommits sealHash)
  if updated.1 then .ok updated.2
  else if sql.epochExists id then .error (.storage (.epochAlreadySealed id))
  else .error (epochNotFound id)

/-- `id = .. AND namespace IS NULL`. -/
def unassigned (id : String) (row : SqlEpoch) : Bool :=
  row.id = id && row.namespace_.isNone

def assignEpochNamespace (id ns : String) : Except BackendError (Bool × Sql) :=
  let updated := sql.updateEpochs (unassigned id)
    fun row => { row with namespace_ := some ns }
  if updated.1 then .ok (true, updated.2)
  else if sql.epochExists id then .ok (false, sql)
  else .error (epochNotFound id)

/-- `id = .. AND status = 'Sealed'`. -/
def archivable (id : String) (row : SqlEpoch) : Bool :=
  row.id = id && row.status = "Sealed"

def archiveEpoch (id : String) : Except BackendError Sql :=
  let updated := sql.updateEpochs (archivable id)
    fun row => { row with status := "Archived" }
  if updated.1 then .ok updated.2
  else
    .error (.storage (.backend ("epoch '" ++ id ++ "' not found or not sealed")))

def statusOf (id : String) : Option String :=
  (sql.epochs.find? fun row => row.id = id).map fun row => row.status

/-- `UPDATE commits SET epoch_id = .. WHERE id = .. AND epoch_id IS NOT ..`,
and the running count when a row was changed. -/
def setCommitEpoch (commit : ObjectId) (epochId : String) :
    Except BackendError Sql :=
  match sql.statusOf epochId with
  | none => .error (epochNotFound epochId)
  | some status =>
      if status = "Sealed" ∨ status = "Archived" then
        .error (.storage (.epochAlreadySealed epochId))
      else
        let joins (c : SqlCommit) : Bool :=
          c.id = commit && c.epochId ≠ some epochId
        .ok
          { sql with
            commits := sql.commits.map fun c =>
              if joins c then { c with epochId := some epochId } else c
            epochs :=
              if sql.commits.any joins then
                sql.epochs.map fun row =>
                  if row.id = epochId then
                    { row with commitCount := row.commitCount + 1 }
                  else row
              else sql.epochs }

/-- `SELECT id FROM commits WHERE epoch_id = .. ORDER BY rowid`. -/
def commitsOf (id : String) : List ObjectId :=
  (sql.commits.filter fun c => c.epochId = some id).map fun c => c.id

def getEpoch (id : String) : Except BackendError (Option Epoch) :=
  match sql.epochs.find? fun row => row.id = id with
  | none => .ok none
  | some row => do
      let e ← rowToEpoch codec row.toEpochColumns
      .ok (some { e with commits := sql.commitsOf e.id })

/-- `ORDER BY created_at DESC`, on the text. -/
def listEpochs : Except BackendError (List Epoch) :=
  (sql.epochs.mergeSort fun a b => decide (b.createdAt ≤ a.createdAt)).mapM
    fun row => rowToEpoch codec row.toEpochColumns

/-! ## Statements on sessions -/

/-- `INSERT OR REPLACE`, which keeps the running count.  Where the build has
foreign keys on, the parent must be a session. -/
def createSession (foreignKeys : Bool) (s : Session) :
    Except BackendError Sql :=
  let row : SqlSession :=
    { id := s.id
      agentId := s.agentId
      parentId := s.parentSession
      scopePath := s.pathScope
      scopeBranch := some s.workingBranch
      scopeNamespace := s.scopeNamespace
      status := sessionStatusStr s.status
      createdAt := codec.formatTime s.createdAt
      endedAt := s.endedAt.map codec.formatTime
      metadata := codec.metaText
        { head := some s.head
          delegatedIntent := s.delegatedIntent
          reportTo := s.reportTo
          workingBranch := some s.workingBranch
          scopeTenant := s.scopeTenant }
      commitCount := (sql.sessions[s.id]?.map fun row => row.commitCount).getD 0 }
  let sql' := { sql with sessions := sql.sessions.insert s.id row }
  if foreignKeys = true ∧
      ∃ parent ∈ s.parentSession, sql'.sessions[parent]? = none then
    .error (.storage (.backend "create session: FOREIGN KEY constraint failed"))
  else .ok sql'

def sessionNotFound (id : String) : BackendError :=
  .storage (.backend ("session not found: " ++ id))

def endSession (id : String) (status : Sessions.Status) (endedAt : ℤ) :
    Except BackendError Sql :=
  match sql.sessions[id]? with
  | none => .error (sessionNotFound id)
  | some row =>
      if row.status = "Active" then
        .ok
          { sql with
            sessions := sql.sessions.insert id
              { row with
                status := sessionStatusStr status
                endedAt := some (codec.formatTime endedAt) } }
      else .error (.storage (.sessionEnded id))

def setCommitSession (commit : ObjectId) (id : String) :
    Except BackendError Sql :=
  match sql.sessions[id]? with
  | none => .error (sessionNotFound id)
  | some row =>
      if row.status ≠ "Active" then .error (.storage (.sessionEnded id))
      else
        let joins (c : SqlCommit) : Bool :=
          c.id = commit && c.sessionId ≠ some id
        .ok
          { sql with
            commits := sql.commits.map fun c =>
              if joins c then { c with sessionId := some id } else c
            sessions :=
              if sql.commits.any joins then
                sql.sessions.insert id
                  { row with commitCount := row.commitCount + 1 }
              else sql.sessions }

def getSession (id : String) : Except BackendError (Option Session) :=
  match sql.sessions[id]? with
  | none => .ok none
  | some row => (rowToSession codec row.toSessionColumns).map some

def listSessions (agentFilter : Option String) :
    Except BackendError (List Session) :=
  let rows := (sql.sessions.toList.map Prod.snd).filter fun row =>
    match agentFilter with
    | none => true
    | some agent => row.agentId = agent
  (rows.mergeSort fun a b => decide (b.createdAt ≤ a.createdAt)).mapM
    fun row => rowToSession codec row.toSessionColumns

/-- `INSERT OR IGNORE INTO commits`. -/
def putCommit (commit : ObjectId) : Sql :=
  if (sql.commits.any fun c => c.id = commit) then sql
  else { sql with commits := sql.commits ++ [⟨commit, none, none⟩] }

end Sql

/-! ## Both backends -/

/-- The tables of the in-memory backend. -/
structure Memory where
  epochs : EpochTable ObjectId
  sessions : Sessions.Table ObjectId

def Memory.empty : Memory := ⟨.empty, ⟨∅, []⟩⟩

def Memory.listSessions (m : Memory) (agentFilter : Option String) :
    List Session :=
  (m.sessions.sessions.toList.map Prod.snd).filter fun s =>
    match agentFilter with
    | none => true
    | some agent => s.agentId = agent

/-- The namespace of a session is a `Namespace`. -/
def NamespaceValid (s : Session) : Prop :=
  ∀ name, s.scopeNamespace = some name → ∃ ns, Namespace.new name = .ok ns

inductive Op where
  | createEpoch (e : Epoch)
  | sealEpoch (id summary : String) (sealedAt : ℤ)
      (sealedCommits : List ObjectId) (sealHash : ObjectId)
  | assignEpochNamespace (id ns : String)
  | archiveEpoch (id : String)
  | setCommitEpoch (commit : ObjectId) (epochId : String)
  | createSession (s : Session) (valid : NamespaceValid s)
  | endSession (id : String) (status : Sessions.Status) (endedAt : ℤ)
  | setCommitSession (commit : ObjectId) (id : String)
  | putCommit (commit : ObjectId)

/-- The answer of a call and the state after it; a refused call changes
nothing. -/
def ran {ε S : Type} (old : S) : Except ε (Bool × S) → Option Bool × S
  | .ok (answer, new) => (some answer, new)
  | .error _ => (none, old)

/-- A call without an answer. -/
def done {ε S : Type} (old : S) (r : Except ε S) : Option Bool × S :=
  ran old (r.map fun new => (true, new))

def Memory.onEpochs (m : Memory) (r : Option Bool × EpochTable ObjectId) :
    Option Bool × Memory :=
  (r.1, { m with epochs := r.2 })

def Memory.onSessions (m : Memory) (r : Option Bool × Sessions.Table ObjectId) :
    Option Bool × Memory :=
  (r.1, { m with sessions := r.2 })

/-- What a call answers, if it is `Ok`, and the state after it. -/
def Memory.call (m : Memory) : Op → Option Bool × Memory
  | .createEpoch e => m.onEpochs (done m.epochs (m.epochs.createEpoch e))
  | .sealEpoch id summary sealedAt sealedCommits sealHash =>
      m.onEpochs (done m.epochs
        (m.epochs.sealEpoch id summary sealedAt sealedCommits sealHash))
  | .assignEpochNamespace id ns =>
      m.onEpochs (ran m.epochs (m.epochs.assignEpochNamespace id ns))
  | .archiveEpoch id => m.onEpochs (done m.epochs (m.epochs.archiveEpoch id))
  | .setCommitEpoch commit epochId =>
      m.onEpochs (done m.epochs (m.epochs.setCommitEpoch commit epochId))
  | .createSession s _ =>
      (some true, { m with sessions := m.sessions.createSession s })
  | .endSession id status endedAt =>
      m.onSessions (done m.sessions (m.sessions.endSession id status endedAt))
  | .setCommitSession commit id =>
      m.onSessions (done m.sessions (m.sessions.setCommitSession commit id))
  | .putCommit _ => (some true, m)

def Sql.call (foreignKeys : Bool) (sql : Sql) : Op → Option Bool × Sql
  | .createEpoch e => done sql (sql.createEpoch codec e)
  | .sealEpoch id summary sealedAt sealedCommits sealHash =>
      done sql (sql.sealEpoch codec id summary sealedAt sealedCommits sealHash)
  | .assignEpochNamespace id ns => ran sql (sql.assignEpochNamespace id ns)
  | .archiveEpoch id => done sql (sql.archiveEpoch id)
  | .setCommitEpoch commit epochId => done sql (sql.setCommitEpoch commit epochId)
  | .createSession s _ => done sql (sql.createSession codec foreignKeys s)
  | .endSession id status endedAt =>
      done sql (sql.endSession codec id status endedAt)
  | .setCommitSession commit id => done sql (sql.setCommitSession commit id)
  | .putCommit commit => (some true, sql.putCommit commit)

/-- The two backends side by side. -/
structure Both where
  memory : Memory
  sql : Sql

def step (foreignKeys : Bool) (b : Both) (op : Op) : Both where
  memory := (b.memory.call op).2
  sql := (b.sql.call codec foreignKeys op).2

def start : Both := ⟨.empty, .empty⟩

def run (foreignKeys : Bool) (ops : List Op) : Both :=
  StepRuns.run (step codec foreignKeys) start ops

/-- The four reads give the same; listings up to order. -/
structure SameAnswers (b : Both) : Prop where
  getEpoch : ∀ id, b.sql.getEpoch codec id = .ok (b.memory.epochs.getEpoch id)
  listEpochs : ∃ out, b.sql.listEpochs codec = .ok out ∧
    out.Perm b.memory.epochs.listEpochs
  getSession : ∀ id,
    b.sql.getSession codec id = .ok (b.memory.sessions.getSession id)
  listSessions : ∀ agentFilter, ∃ out,
    b.sql.listSessions codec agentFilter = .ok out ∧
      out.Perm (b.memory.listSessions agentFilter)

/-- A call is `Ok` on both backends with the same answer, or on neither. -/
def SameResult (foreignKeys : Bool) (b : Both) (op : Op) : Prop :=
  (b.sql.call codec foreignKeys op).1 = (b.memory.call op).1

/-- What a call must not do, judged on the state before it. -/
def Allowed (foreignKeys : Bool) (b : Both) : Op → Prop
  | .createEpoch e => b.memory.epochs.find e.id = none →
      e.sealHash = none ∧ e.branches = [] ∧ e.commits = []
  | .setCommitEpoch commit id =>
      (∃ e, b.memory.epochs.find id = some e ∧ e.status = .active) →
        ∃ earlier c later, b.sql.commits = earlier ++ c :: later ∧
          c.id = commit ∧ ∀ c' ∈ later, c'.epochId ≠ some id
  | .createSession s _ => foreignKeys = true →
      ∀ parent, s.parentSession = some parent → parent = s.id ∨
        b.memory.sessions.getSession parent ≠ none
  | _ => True

/-! ## Columns and records -/

/-- The columns of an epoch, as they stand after its seal. -/
def toColumns (e : Epoch) : EpochColumns :=
  { (Sql.insertedRow codec e).toEpochColumns with
    sealHash := e.sealHash.map fun h => h.bytes }

def sessionColumns (s : Session) : SessionColumns where
  id := s.id
  agentId := s.agentId
  parentId := s.parentSession
  scopePath := s.pathScope
  scopeBranch := some s.workingBranch
  scopeNamespace := s.scopeNamespace
  status := sessionStatusStr s.status
  createdAt := codec.formatTime s.createdAt
  endedAt := s.endedAt.map codec.formatTime
  metadata := codec.metaText
    { head := some s.head
      delegatedIntent := s.delegatedIntent
      reportTo := s.reportTo
      workingBranch := some s.workingBranch
      scopeTenant := s.scopeTenant }

@[simp] theorem parseEpochStatus_str (s : EpochStatus) :
    parseEpochStatus (epochStatusStr s) = s := by
  cases s <;> decide

@[simp] theorem fromWire_str (s : Sessions.Status) :
    fromWire (sessionStatusStr s) = s := by
  cases s <;> decide

theorem fromStorageStr_kind (kind name : String) (h : ':' ∉ kind.toList) :
    fromStorageStr (kind ++ ":" ++ name) =
      if kind = "branch" then .branch name
      else if kind = "plan" then .plan name
      else if kind = "workspace" then .workspace name
      else .all := by
  have hsplit : splitOnce ':' (kind ++ ":" ++ name) = some (kind, name) :=
    splitOnce_append h name
  rw [fromStorageStr, hsplit]

@[simp] theorem fromStorageStr_asStorageStr (scope : EpochScope) :
    fromStorageStr (asStorageStr scope) = scope := by
  cases scope with
  | all => decide
  | branch name => exact fromStorageStr_kind "branch" name (by decide)
  | plan name => exact fromStorageStr_kind "plan" name (by decide)
  | workspace name => exact fromStorageStr_kind "workspace" name (by decide)

@[simp] theorem parseRfc3339_format (t : ℤ) :
    parseRfc3339 codec (codec.formatTime t) = .ok t := by
  simp [parseRfc3339, codec.parse_time]

@[simp] theorem parseOptTime_format (t : Option ℤ) :
    parseOptTime codec (t.map codec.formatTime) = .ok t := by
  cases t with
  | none => rfl
  | some t => simp [parseOptTime, Except.map]

@[simp] theorem sealHashOf_bytes (h : Option ObjectId) :
    sealHashOf (h.map fun h => h.bytes) = h := by
  cases h with
  | none => rfl
  | some h => simp [sealHashOf, h.length_eq]

theorem rowToEpoch_toColumns (e : Epoch) :
    rowToEpoch codec (toColumns codec e) =
      .ok { e with commits := [], branches := [] } := by
  simp [rowToEpoch, toColumns, Sql.insertedRow, codec.parse_strings,
    codec.parse_ids, parseColumn]

theorem name_of_namespace_new {name : String} {ns : Namespace}
    (h : Namespace.new name = .ok ns) : ns.name = name := by
  rw [Namespace.new] at h
  split at h
  · contradiction
  · split at h
    · split at h
      · cases h
        rfl
      · contradiction
    · contradiction

theorem rowToSession_sessionColumns {s : Session} (h : NamespaceValid s) :
    rowToSession codec (sessionColumns codec s) = .ok s := by
  have hns : (s.scopeNamespace.bind fun name =>
      match Namespace.new name with
      | .ok ns => some ns.name
      | .error _ => none) = s.scopeNamespace := by
    cases hscope : s.scopeNamespace with
    | none => rfl
    | some name =>
        obtain ⟨ns, hnew⟩ := h name hscope
        have hname : ns.name = name := name_of_namespace_new hnew
        simp [hnew, hname]
  simp [rowToSession, sessionColumns, codec.parse_meta, hns]

theorem bare_of_plain {e : Epoch} (hcommits : e.commits = [])
    (hbranches : e.branches = []) :
    { e with commits := [], branches := [] } = e := by
  cases e
  cases hcommits
  cases hbranches
  rfl

theorem mapM_rows {R C E ε : Type} {columns : R → C} {toColumns : E → C}
    {read : C → Except ε E} {rows : List R} {es : List E}
    (hperm : (rows.map columns).Perm (es.map toColumns))
    (hread : ∀ e ∈ es, read (toColumns e) = .ok e) :
    ∃ out, rows.mapM (fun row => read (columns row)) = .ok out ∧
      out.Perm es := by
  have hmap : ∃ out : List E, rows.map columns = out.map toColumns ∧ out.Perm es :=
    (iff_of_eq (congrFun₂ (List.eq_map_comp_perm toColumns) _ _)).mpr hperm
  obtain ⟨out, heq, hout⟩ := hmap
  refine ⟨out, ?_, hout⟩
  have hcomp : rows.mapM (fun row => read (columns row)) =
      (rows.map columns).mapM read := by
    rw [List.mapM_map]
    rfl
  have hback : (out.map toColumns).mapM read = .ok out := by
    rw [List.mapM_map]
    refine (Except.mapM_eq_ok (g := fun e => e) ?_).trans ?_
    · intro e he
      exact hread e (hout.mem_iff.mp he)
    · rw [List.map_id']
  rw [hcomp, heq, hback]

/-! ## Agreement -/

/-- The tables hold the columns of the records, and the commits of each epoch
in the order of association. -/
structure Agrees (b : Both) : Prop where
  rows : List.Forall₂ (fun row e => row.toEpochColumns = toColumns codec e)
    b.sql.epochs b.memory.epochs.epochs
  plain : ∀ e ∈ b.memory.epochs.epochs, e.commits = [] ∧ e.branches = []
  distinct : b.memory.epochs.Distinct
  linked : ∀ id, b.sql.commitsOf id = b.memory.epochs.commitsOf id
  known : ∀ c ∈ b.sql.commits, ∀ id, c.epochId = some id →
    b.memory.epochs.find id ≠ none
  nodup : (b.sql.commits.map fun c => c.id).Nodup
  sessions : ∀ id, b.sql.sessions[id]?.map (fun row => row.toSessionColumns) =
    (b.memory.sessions.getSession id).map (sessionColumns codec)
  named : ∀ id s, b.memory.sessions.getSession id = some s →
    s.id = id ∧ NamespaceValid s

section Answers

variable {codec} {b : Both}

theorem columns_of_rows {rows : List SqlEpoch} {es : List Epoch}
    (hrows : List.Forall₂ (fun row e => row.toEpochColumns = toColumns codec e)
      rows es) :
    rows.map (fun row => row.toEpochColumns) = es.map (toColumns codec) := by
  rw [← List.forall₂_eq_eq_eq, List.forall₂_map_left_iff,
    List.forall₂_map_right_iff]
  exact hrows

theorem find_of_rows {sql : Sql} {t : EpochTable ObjectId}
    (hrows : List.Forall₂ (fun row e => row.toEpochColumns = toColumns codec e)
      sql.epochs t.epochs) (id : String) :
    (sql.epochs.find? fun row => row.id = id).map
        (fun row => row.toEpochColumns) =
      (t.find id).map (toColumns codec) := by
  have hfind := congrArg (List.find? fun c : EpochColumns => c.id = id)
    (columns_of_rows hrows)
  rw [List.find?_map, List.find?_map] at hfind
  exact hfind

theorem getEpoch_of_rows {sql : Sql} {t : EpochTable ObjectId}
    (hrows : List.Forall₂ (fun row e => row.toEpochColumns = toColumns codec e)
      sql.epochs t.epochs) {id : String} {e : Epoch}
    (he : t.find id = some e) (hbranches : e.branches = []) :
    sql.getEpoch codec id =
      .ok (some { e with commits := sql.commitsOf id }) := by
  have hfind := find_of_rows hrows id
  rw [he, Option.map_some, Option.map_eq_some_iff] at hfind
  obtain ⟨row, hrow, hcolumns⟩ := hfind
  have hid := EpochTable.id_of_find he
  rw [Sql.getEpoch, hrow]
  dsimp only
  rw [hcolumns, rowToEpoch_toColumns]
  simp only [Except.ok_bind]
  rw [hid, ← hbranches]

variable (h : Agrees codec b)

include h

theorem Agrees.columns : b.sql.epochs.map (fun row => row.toEpochColumns) =
    b.memory.epochs.epochs.map (toColumns codec) :=
  columns_of_rows h.rows

theorem Agrees.find (id : String) :
    (b.sql.epochs.find? fun row => row.id = id).map
        (fun row => row.toEpochColumns) =
      (b.memory.epochs.find id).map (toColumns codec) :=
  find_of_rows h.rows id

theorem Agrees.getEpoch (id : String) :
    b.sql.getEpoch codec id = .ok (b.memory.epochs.getEpoch id) := by
  rw [EpochTable.getEpoch]
  cases hfind : b.memory.epochs.find id with
  | none =>
      have hrow := h.find id
      rw [hfind, Option.map_none, Option.map_eq_none_iff] at hrow
      rw [Sql.getEpoch, hrow]
      rfl
  | some e =>
      obtain ⟨-, hbranches⟩ := h.plain e (EpochTable.mem_of_find hfind)
      rw [getEpoch_of_rows h.rows hfind hbranches, h.linked]
      rfl

theorem Agrees.listEpochs : ∃ out, b.sql.listEpochs codec = .ok out ∧
    out.Perm b.memory.epochs.listEpochs := by
  have hsorted := (List.mergeSort_perm b.sql.epochs
    fun a b => decide (b.createdAt ≤ a.createdAt)).map
      fun row => row.toEpochColumns
  rw [h.columns] at hsorted
  have hread : ∀ e ∈ b.memory.epochs.epochs,
      rowToEpoch codec (toColumns codec e) = .ok e := by
    intro e he
    obtain ⟨hcommits, hbranches⟩ := h.plain e he
    rw [rowToEpoch_toColumns, bare_of_plain hcommits hbranches]
  obtain ⟨out, hout, hperm⟩ := mapM_rows hsorted hread
  exact ⟨out, hout, hperm.trans (List.mergeSort_perm _ _).symm⟩

theorem Agrees.getSession (id : String) :
    b.sql.getSession codec id = .ok (b.memory.sessions.getSession id) := by
  have hrow := h.sessions id
  rw [Sql.getSession]
  cases hsql : b.sql.sessions[id]? with
  | none =>
      rw [hsql, Option.map_none, eq_comm, Option.map_eq_none_iff] at hrow
      rw [hrow]
  | some row =>
      rw [hsql, Option.map_some, eq_comm, Option.map_eq_some_iff] at hrow
      obtain ⟨s, hs, hcolumns⟩ := hrow
      have hvalid := (h.named id s hs).2
      dsimp only
      rw [hs, ← hcolumns, rowToSession_sessionColumns codec hvalid]
      rfl

theorem Agrees.sessionColumns : (b.sql.sessions.toList.map Prod.snd).map
      (fun row => row.toSessionColumns) =
    (b.memory.sessions.sessions.toList.map Prod.snd).map
      (EpochRows.sessionColumns codec) := by
  have hmaps : b.sql.sessions.map (fun _ row => row.toSessionColumns) =
      b.memory.sessions.sessions.map
        (fun _ s => EpochRows.sessionColumns codec s) := by
    apply Std.ExtTreeMap.ext_getElem?
    intro id
    rw [Std.ExtTreeMap.getElem?_map, Std.ExtTreeMap.getElem?_map]
    exact h.sessions id
  have hlists := congrArg (fun m => m.toList.map Prod.snd) hmaps
  simp only [Std.ExtTreeMap.toList_map, List.map_map] at hlists
  rw [List.map_map, List.map_map]
  exact hlists

theorem Agrees.listSessions (agentFilter : Option String) :
    ∃ out, b.sql.listSessions codec agentFilter = .ok out ∧
      out.Perm (b.memory.listSessions agentFilter) := by
  -- the filter reads a column, so it may be applied to columns on both sides
  let keep (c : SessionColumns) : Bool :=
    match agentFilter with
    | none => true
    | some agent => c.agentId = agent
  have hrows : ((b.sql.sessions.toList.map Prod.snd).filter fun row =>
        keep row.toSessionColumns).map (fun row => row.toSessionColumns) =
      (b.memory.listSessions agentFilter).map
        (EpochRows.sessionColumns codec) := by
    have hmap := congrArg (List.filter keep) h.sessionColumns
    exact List.filter_map.symm.trans (hmap.trans List.filter_map)
  have hsorted := (List.mergeSort_perm
    ((b.sql.sessions.toList.map Prod.snd).filter fun row =>
      keep row.toSessionColumns)
    fun a b => decide (b.createdAt ≤ a.createdAt)).map
      fun row => row.toSessionColumns
  rw [hrows] at hsorted
  refine mapM_rows hsorted ?_
  intro s hs
  apply rowToSession_sessionColumns
  obtain ⟨⟨id, s'⟩, hmem, rfl⟩ := List.mem_map.mp (List.mem_filter.mp hs).1
  exact (h.named id s'
    (Std.ExtTreeMap.mem_toList_iff_getElem?_eq_some.mp hmem)).2

theorem Agrees.sameAnswers : SameAnswers codec b :=
  ⟨h.getEpoch, h.listEpochs, h.getSession, h.listSessions⟩

end Answers

/-! ## Updates -/

section Updates

variable {codec} {b : Both}

variable {cond : SqlEpoch → Bool}

theorem forall₂_update {es : List Epoch} {rows : List SqlEpoch}
    (h : List.Forall₂ (fun row e => row.toEpochColumns = toColumns codec e)
      rows es) {condE : Epoch → Bool} {f : SqlEpoch → SqlEpoch}
    {g : Epoch → Epoch}
    (hcond : ∀ row e, row.toEpochColumns = toColumns codec e →
      cond row = condE e)
    (hf : ∀ row e, row.toEpochColumns = toColumns codec e →
      (f row).toEpochColumns = toColumns codec (g e)) :
    List.Forall₂ (fun row e => row.toEpochColumns = toColumns codec e)
      (rows.map fun row => if cond row then f row else row)
      (es.map fun e => if condE e then g e else e) := by
  induction h with
  | nil => exact .nil
  | cons hrow _ ih =>
      refine .cons ?_ ih
      dsimp only
      rw [hcond _ _ hrow]
      split
      · exact hf _ _ hrow
      · exact hrow

theorem any_eq_of_forall₂ {es : List Epoch} {rows : List SqlEpoch}
    (h : List.Forall₂ (fun row e => row.toEpochColumns = toColumns codec e)
      rows es) {condE : Epoch → Bool}
    (hcond : ∀ row e, row.toEpochColumns = toColumns codec e →
      cond row = condE e) : rows.any cond = es.any condE := by
  induction h with
  | nil => rfl
  | cons hrow _ ih => rw [List.any_cons, List.any_cons, hcond _ _ hrow, ih]

theorem Agrees.update_lands (h : Agrees codec b) {id : String} {e : Epoch}
    (hfind : b.memory.epochs.find id = some e) (condE : Epoch → Bool)
    (he : condE e = true) {f : SqlEpoch → SqlEpoch} {g : Epoch → Epoch}
    (hcond : ∀ row e, row.toEpochColumns = toColumns codec e →
      cond row = (decide (e.id = id) && condE e))
    (hf : ∀ row e, row.toEpochColumns = toColumns codec e →
      (f row).toEpochColumns = toColumns codec (g e))
    (hid : ∀ e, (g e).id = e.id)
    (hplain : ∀ e, (g e).commits = e.commits ∧ (g e).branches = e.branches) :
    (b.sql.updateEpochs cond f).1 = true ∧
      Agrees codec
        { memory := { b.memory with epochs := b.memory.epochs.modify id g }
          sql := (b.sql.updateEpochs cond f).2 } := by
  have hrows := forall₂_update h.rows hcond hf
  have hany := any_eq_of_forall₂ h.rows hcond
  have hmem := EpochTable.mem_of_find hfind
  have hide := EpochTable.id_of_find hfind
  constructor
  · refine hany.trans (List.any_eq_true.mpr ⟨e, hmem, ?_⟩)
    simp [hide, he]
  · have hmodify : (b.memory.epochs.modify id g).epochs =
        b.memory.epochs.epochs.map fun e =>
          if (decide (e.id = id) && condE e) = true then g e else e := by
      rw [EpochTable.modify_eq_map h.distinct]
      refine List.map_congr_left ?_
      intro e' he'
      by_cases hid' : e'.id = id
      · have heq : e' = e :=
          List.inj_on_of_nodup_map h.distinct he' hmem (hid'.trans hide.symm)
        simp [heq, hide, he]
      · simp [hid']
    refine
      { rows := by
          dsimp only
          rw [hmodify]
          exact hrows
        plain := ?_
        distinct := EpochTable.distinct_modify h.distinct id hid
        linked := h.linked
        known := ?_
        nodup := h.nodup
        sessions := h.sessions
        named := h.named }
    · intro e' he'
      dsimp only at he'
      rw [hmodify] at he'
      obtain ⟨e₀, he₀, rfl⟩ := List.mem_map.mp he'
      split
      · rw [(hplain e₀).1, (hplain e₀).2]
        exact h.plain e₀ he₀
      · exact h.plain e₀ he₀
    · intro c hc i hi
      dsimp only
      rw [EpochTable.find_modify _ _ hid]
      have hknown := h.known c hc i hi
      split
      next heq =>
        rw [hfind]
        simp
      · exact hknown

theorem Agrees.update_misses (h : Agrees codec b) {id : String}
    (condE : Epoch → Bool)
    (hcond : ∀ row e, row.toEpochColumns = toColumns codec e →
      cond row = (decide (e.id = id) && condE e))
    (hmiss : ∀ e, b.memory.epochs.find id = some e → condE e = false)
    (f : SqlEpoch → SqlEpoch) : (b.sql.updateEpochs cond f).1 = false := by
  refine (any_eq_of_forall₂ h.rows hcond).trans ?_
  rw [List.any_eq_false]
  intro e he
  by_cases hid : e.id = id
  · have hfind := EpochTable.find_of_mem h.distinct he
    rw [hid] at hfind
    simp [hmiss e hfind]
  · simp [hid]

theorem Agrees.epochExists_iff (h : Agrees codec b) (id : String) :
    b.sql.epochExists id = (b.memory.epochs.find id).isSome := by
  have hfind := congrArg Option.isSome (h.find id)
  rw [Option.isSome_map, Option.isSome_map] at hfind
  rw [← hfind, Sql.epochExists, List.isSome_find?]

end Updates

/-! ## Association -/

section Association

variable (commit : ObjectId) (id : String)

/-- What the update does to the row of a commit. -/
def joined (c : SqlCommit) : SqlCommit :=
  if (decide (c.id = commit) && decide (c.epochId ≠ some id)) = true then
    { c with epochId := some id }
  else c

@[simp] theorem joined_id (c : SqlCommit) : (joined commit id c).id = c.id := by
  unfold joined
  split <;> rfl

theorem joined_epochId (c : SqlCommit) :
    (joined commit id c).epochId =
      if c.id = commit then some id else c.epochId := by
  unfold joined
  by_cases hid : c.id = commit
  · by_cases hepoch : c.epochId = some id
    · simp [hid, hepoch]
    · simp [hid, hepoch]
  · simp [hid]

theorem map_joined_self (l : List SqlCommit) :
    ((l.map (joined commit id)).filter fun c => c.epochId = some id).map
        (fun c => c.id) =
      (l.filter fun c => c.epochId = some id ∨ c.id = commit).map
        fun c => c.id := by
  rw [List.filter_map, List.map_map]
  have hfilter : (l.filter ((fun c => decide (c.epochId = some id)) ∘
      joined commit id)) =
      l.filter fun c => c.epochId = some id ∨ c.id = commit := by
    refine List.filter_congr ?_
    intro c _
    rw [Function.comp_apply, joined_epochId]
    by_cases hid : c.id = commit
    · simp [hid]
    · simp [hid]
  rw [hfilter]
  exact List.map_congr_left fun c _ => joined_id commit id c

theorem map_joined_other {id' : String} (hne : id' ≠ id) (l : List SqlCommit) :
    ((l.map (joined commit id)).filter fun c => c.epochId = some id').map
        (fun c => c.id) =
      ((l.filter fun c => c.epochId = some id').map fun c => c.id).filter
        (· ≠ commit) := by
  rw [List.filter_map, List.map_map, List.filter_map, List.filter_filter]
  have hfilter : (l.filter ((fun c => decide (c.epochId = some id')) ∘
      joined commit id)) =
      l.filter fun c => ((fun x => decide (x ≠ commit)) ∘ fun c => c.id) c &&
        decide (c.epochId = some id') := by
    refine List.filter_congr ?_
    intro c _
    rw [Function.comp_apply, joined_epochId, Function.comp_apply]
    by_cases hid : c.id = commit
    · simp [hid, Ne.symm hne]
    · simp [hid]
  rw [hfilter]
  exact List.map_congr_left fun c _ => joined_id commit id c

theorem ids_of_cut {earlier later : List SqlCommit} {c : SqlCommit}
    (hc : c.id = commit)
    (hnodup : ((earlier ++ c :: later).map fun c => c.id).Nodup) :
    ((earlier ++ c :: later).filter
        fun c => c.epochId = some id ∨ c.id = commit).map (fun c => c.id) =
      (earlier.filter fun c => c.epochId = some id).map (fun c => c.id) ++
        commit :: (later.filter fun c => c.epochId = some id).map
          (fun c => c.id) ∧
    (((earlier ++ c :: later).filter fun c => c.epochId = some id).map
        fun c => c.id).filter (· ≠ commit) =
      (earlier.filter fun c => c.epochId = some id).map (fun c => c.id) ++
        (later.filter fun c => c.epochId = some id).map (fun c => c.id) := by
  have hne : ∀ l : List SqlCommit, (∀ c' ∈ l, c'.id ≠ commit) →
      (l.filter fun c => c.epochId = some id ∨ c.id = commit) =
        l.filter (fun c => c.epochId = some id) ∧
      ((l.filter fun c => c.epochId = some id).map fun c => c.id).filter
        (· ≠ commit) = (l.filter fun c => c.epochId = some id).map
          fun c => c.id := by
    intro l hl
    constructor
    · refine List.filter_congr ?_
      intro c' hc'
      simp [hl c' hc']
    · rw [List.filter_eq_self]
      intro x hx
      obtain ⟨c', hc', rfl⟩ := List.mem_map.mp hx
      simpa using hl c' (List.mem_filter.mp hc').1
  rw [List.map_append, List.map_cons, List.nodup_append, List.nodup_cons]
    at hnodup
  obtain ⟨-, ⟨hlater, -⟩, hdisj⟩ := hnodup
  have hearlier : ∀ c' ∈ earlier, c'.id ≠ commit := by
    intro c' hc' heq
    exact hdisj _ (List.mem_map_of_mem hc') _ List.mem_cons_self
      (heq.trans hc.symm)
  have hlater' : ∀ c' ∈ later, c'.id ≠ commit := by
    intro c' hc' heq
    exact hlater (List.mem_map.mpr ⟨c', hc', heq.trans hc.symm⟩)
  obtain ⟨hor₁, hfilter₁⟩ := hne earlier hearlier
  obtain ⟨hor₂, hfilter₂⟩ := hne later hlater'
  constructor
  · rw [List.filter_append, List.filter_cons_of_pos (by simp [hc]), hor₁, hor₂,
      List.map_append, List.map_cons, hc]
  · rw [List.filter_append, List.map_append, List.filter_append, hfilter₁]
    by_cases hepoch : c.epochId = some id
    · rw [List.filter_cons_of_pos (by simp [hepoch]), List.map_cons,
        List.filter_cons_of_neg (by simp [hc]), hfilter₂]
    · rw [List.filter_cons_of_neg (by simp [hepoch]), hfilter₂]

theorem ids_eq_append_iff {l : List SqlCommit}
    (hnodup : (l.map fun c => c.id).Nodup) :
    (l.filter fun c => c.epochId = some id ∨ c.id = commit).map
        (fun c => c.id) =
      ((l.filter fun c => c.epochId = some id).map fun c => c.id).filter
        (· ≠ commit) ++ [commit] ↔
    ∃ earlier c later, l = earlier ++ c :: later ∧ c.id = commit ∧
      ∀ c' ∈ later, c'.epochId ≠ some id := by
  constructor
  · intro heq
    have hmem : commit ∈ (l.filter
        fun c => c.epochId = some id ∨ c.id = commit).map fun c => c.id := by
      rw [heq]
      simp
    obtain ⟨c, hc, hid⟩ := List.mem_map.mp hmem
    obtain ⟨earlier, later, rfl⟩ :=
      List.append_of_mem (List.mem_filter.mp hc).1
    obtain ⟨hleft, hright⟩ := ids_of_cut commit id hid hnodup
    rw [hleft, hright, List.append_assoc] at heq
    have htail := List.append_cancel_left heq
    refine ⟨earlier, c, later, rfl, hid, ?_⟩
    cases hlater : (later.filter fun c => c.epochId = some id).map
        (fun c => c.id) with
    | nil =>
        intro c' hc' hepoch
        have hnone := List.filter_eq_nil_iff.mp (List.map_eq_nil_iff.mp hlater)
        exact hnone c' hc' (by simpa using hepoch)
    | cons x xs =>
        rw [hlater] at htail
        obtain ⟨rfl, -⟩ := List.cons.inj htail
        have hx : commit ∈ (later.filter fun c => c.epochId = some id).map
            (fun c => c.id) := by
          rw [hlater]
          exact List.mem_cons_self
        obtain ⟨c', hc', hid'⟩ := List.mem_map.mp hx
        rw [List.map_append, List.map_cons, List.nodup_append,
          List.nodup_cons] at hnodup
        exact absurd (List.mem_map.mpr
          ⟨c', (List.mem_filter.mp hc').1, hid'.trans hid.symm⟩)
          hnodup.2.1.1
  · rintro ⟨earlier, c, later, rfl, hid, hlater⟩
    obtain ⟨hleft, hright⟩ := ids_of_cut commit id hid hnodup
    have hnil : (later.filter fun c => c.epochId = some id) = [] := by
      rw [List.filter_eq_nil_iff]
      intro c' hc'
      simpa using hlater c' hc'
    rw [hleft, hright, hnil, List.map_nil, List.append_nil]

theorem commitsOf_relink_self (t : EpochTable ObjectId) :
    ({ t with commitEpoch := relink t.commitEpoch (commit, id) } :
      EpochTable ObjectId).commitsOf id =
        (t.commitsOf id).filter (· ≠ commit) ++ [commit] := by
  simp only [EpochTable.commitsOf, relink, List.filter_append, List.map_append,
    List.filter_map, List.filter_filter]
  congr 1
  · refine congrArg (List.map Prod.fst) (List.filter_congr ?_)
    intro l _
    rw [Function.comp_apply, Bool.and_comm]
  · simp

theorem commitsOf_relink_other {id' : String} (hne : id' ≠ id)
    (t : EpochTable ObjectId) :
    ({ t with commitEpoch := relink t.commitEpoch (commit, id) } :
      EpochTable ObjectId).commitsOf id' =
        (t.commitsOf id').filter (· ≠ commit) := by
  simp only [EpochTable.commitsOf, relink, List.filter_append, List.map_append,
    List.filter_map, List.filter_filter]
  rw [show [(commit, id)].filter (fun l => decide (l.2 = id')) = [] by
    simp [Ne.symm hne]]
  rw [List.map_nil, List.append_nil]
  refine congrArg (List.map Prod.fst) (List.filter_congr ?_)
  intro l _
  rw [Function.comp_apply, Bool.and_comm]

end Association

/-! ## One call -/

section Calls

variable {codec} {foreignKeys : Bool} {b : Both} (h : Agrees codec b)

include h

/-- After a call the backends agree again exactly when it was allowed. -/
def Follows (codec : RowCodec) (foreignKeys : Bool) (b : Both) (op : Op) :
    Prop :=
  (SameResult codec foreignKeys b op ∧
      SameAnswers codec (step codec foreignKeys b op) ↔
    Allowed foreignKeys b op) ∧
  (Allowed foreignKeys b op → Agrees codec (step codec foreignKeys b op))

omit h in
theorem follows_of {op : Op}
    (hgood : Allowed foreignKeys b op → SameResult codec foreignKeys b op ∧
      Agrees codec (step codec foreignKeys b op))
    (hbad : SameResult codec foreignKeys b op →
      SameAnswers codec (step codec foreignKeys b op) →
        Allowed foreignKeys b op) : Follows codec foreignKeys b op := by
  refine ⟨⟨fun hsame => hbad hsame.1 hsame.2, ?_⟩, fun ha => (hgood ha).2⟩
  intro hallowed
  exact ⟨(hgood hallowed).1, (hgood hallowed).2.sameAnswers⟩

omit h in
/-- A call after which the backends agree whatever it was. -/
theorem follows_of_agrees {op : Op} (hallowed : Allowed foreignKeys b op)
    (answer : Option Bool) {m : Memory} {sql : Sql}
    (hmemory : b.memory.call op = (answer, m))
    (hsql : b.sql.call codec foreignKeys op = (answer, sql))
    (hagrees : Agrees codec ⟨m, sql⟩) : Follows codec foreignKeys b op := by
  refine follows_of (fun _ => ⟨?_, ?_⟩) fun _ _ => hallowed
  · rw [SameResult, hmemory, hsql]
  · rw [step, hmemory, hsql]
    exact hagrees

variable {e : Epoch} {id : String}

omit h in
theorem columns_id {row : SqlEpoch}
    (hrow : row.toEpochColumns = toColumns codec e) : row.id = e.id :=
  congrArg EpochColumns.id hrow

omit h in
theorem columns_status {row : SqlEpoch}
    (hrow : row.toEpochColumns = toColumns codec e) :
    row.status = epochStatusStr e.status :=
  congrArg EpochColumns.status hrow

omit h in
theorem sealable_eq (row : SqlEpoch) (e : Epoch)
    (hrow : row.toEpochColumns = toColumns codec e) :
    Sql.sealable id row =
      (decide (e.id = id) && decide (e.status = .active)) := by
  rw [Sql.sealable, columns_id hrow, columns_status hrow]
  cases e.status with
  | active => simp [epochStatusStr]
  | sealed => simp [epochStatusStr]
  | archived => simp [epochStatusStr]

theorem Agrees.sealEpoch (id summary : String) (sealedAt : ℤ)
    (sealedCommits : List ObjectId) (sealHash : ObjectId) :
    Follows codec foreignKeys b
      (.sealEpoch id summary sealedAt sealedCommits sealHash) := by
  by_cases hlands : ∃ e, b.memory.epochs.find id = some e ∧ e.status = .active
  · obtain ⟨e, hfind, hstatus⟩ := hlands
    obtain ⟨hupdated, hagrees⟩ := h.update_lands hfind
      (fun e => decide (e.status = .active)) (by simp [hstatus])
      (f := Sql.sealRow codec summary sealedAt sealedCommits sealHash)
      (g := fun e =>
        { e with
          status := .sealed
          sealedAt := some sealedAt
          sealSummary := some summary
          sealedCommits := sealedCommits
          sealHash := some sealHash })
      sealable_eq
      (fun row e hrow => congrArg
        (fun c : EpochColumns =>
          { c with
            status := "Sealed"
            sealedAt := some (codec.formatTime sealedAt)
            summary := some summary
            sealedCommits := codec.idsText sealedCommits
            sealHash := some sealHash.bytes }) hrow)
      (fun _ => rfl) (fun _ => ⟨rfl, rfl⟩)
    refine follows_of_agrees trivial (some true) ?_ ?_ hagrees
    · simp only [Memory.call, EpochTable.sealEpoch, hfind, hstatus]
      rfl
    · simp only [Sql.call, Sql.sealEpoch, hupdated]
      rfl
  · have hmiss : ∀ e, b.memory.epochs.find id = some e →
        decide (e.status = .active) = false := by
      intro e hfind
      rw [decide_eq_false_iff_not]
      exact fun hstatus => hlands ⟨e, hfind, hstatus⟩
    have hupdated := h.update_misses
      (fun e => decide (e.status = .active)) sealable_eq hmiss
      (Sql.sealRow codec summary sealedAt sealedCommits sealHash)
    refine follows_of_agrees trivial none ?_ ?_ h
    · simp only [Memory.call, EpochTable.sealEpoch]
      cases hfind : b.memory.epochs.find id with
      | none => rfl
      | some e =>
          cases hstatus : e.status with
          | active => exact absurd ⟨e, hfind, hstatus⟩ hlands
          | sealed =>
              simp only [hstatus, true_or, if_true]
              rfl
          | archived =>
              simp only [hstatus, or_true, if_true]
              rfl
    · simp only [Sql.call, Sql.sealEpoch, hupdated]
      cases b.sql.epochExists id with
      | true => rfl
      | false => rfl

omit h in
theorem unassigned_eq (row : SqlEpoch) (e : Epoch)
    (hrow : row.toEpochColumns = toColumns codec e) :
    Sql.unassigned id row = (decide (e.id = id) && e.namespace_.isNone) := by
  have hns : row.namespace_ = e.namespace_ :=
    congrArg EpochColumns.namespace_ hrow
  rw [Sql.unassigned, columns_id hrow, hns]

theorem Agrees.assignEpochNamespace (id ns : String) :
    Follows codec foreignKeys b (.assignEpochNamespace id ns) := by
  by_cases hlands : ∃ e, b.memory.epochs.find id = some e ∧
      e.namespace_.isNone = true
  · obtain ⟨e, hfind, hns⟩ := hlands
    obtain ⟨hupdated, hagrees⟩ := h.update_lands hfind
      (fun e => e.namespace_.isNone) hns
      (f := fun row => { row with namespace_ := some ns })
      (g := fun e => { e with namespace_ := some ns }) unassigned_eq
      (fun row e hrow => congrArg
        (fun c : EpochColumns => { c with namespace_ := some ns }) hrow)
      (fun _ => rfl) (fun _ => ⟨rfl, rfl⟩)
    refine follows_of_agrees trivial (some true) ?_ ?_ hagrees
    · simp only [Memory.call, EpochTable.assignEpochNamespace, hfind,
        Option.isNone_iff_eq_none.mp hns]
      rfl
    · simp only [Sql.call, Sql.assignEpochNamespace, hupdated]
      rfl
  · have hmiss : ∀ e, b.memory.epochs.find id = some e →
        e.namespace_.isNone = false := by
      intro e hfind
      rw [Bool.eq_false_iff]
      exact fun hns => hlands ⟨e, hfind, hns⟩
    have hupdated := h.update_misses (fun e => e.namespace_.isNone)
      unassigned_eq hmiss fun row => { row with namespace_ := some ns }
    have hexists := h.epochExists_iff id
    cases hfind : b.memory.epochs.find id with
    | none =>
        rw [hfind] at hexists
        refine follows_of_agrees trivial none ?_ ?_ h
        · simp only [Memory.call, EpochTable.assignEpochNamespace, hfind]
          rfl
        · simp only [Sql.call, Sql.assignEpochNamespace, hupdated, hexists]
          rfl
    | some e =>
        rw [hfind] at hexists
        have hsome : e.namespace_.isSome = true := by
          have hnone := hmiss e hfind
          cases hns : e.namespace_ with
          | none =>
              rw [hns] at hnone
              contradiction
          | some ns' => rfl
        refine follows_of_agrees trivial (some false) ?_ ?_ h
        · simp only [Memory.call, EpochTable.assignEpochNamespace, hfind, hsome]
          rfl
        · simp only [Sql.call, Sql.assignEpochNamespace, hupdated, hexists]
          rfl

omit h in
theorem archivable_eq (row : SqlEpoch) (e : Epoch)
    (hrow : row.toEpochColumns = toColumns codec e) :
    Sql.archivable id row =
      (decide (e.id = id) && decide (e.status = .sealed)) := by
  rw [Sql.archivable, columns_id hrow, columns_status hrow]
  cases e.status with
  | active => simp [epochStatusStr]
  | sealed => simp [epochStatusStr]
  | archived => simp [epochStatusStr]

theorem Agrees.archiveEpoch (id : String) :
    Follows codec foreignKeys b (.archiveEpoch id) := by
  by_cases hlands : ∃ e, b.memory.epochs.find id = some e ∧ e.status = .sealed
  · obtain ⟨e, hfind, hstatus⟩ := hlands
    obtain ⟨hupdated, hagrees⟩ := h.update_lands hfind
      (fun e => decide (e.status = .sealed)) (by simp [hstatus])
      (f := fun row => { row with status := "Archived" })
      (g := fun e => { e with status := .archived }) archivable_eq
      (fun row e hrow => congrArg
        (fun c : EpochColumns => { c with status := "Archived" }) hrow)
      (fun _ => rfl) (fun _ => ⟨rfl, rfl⟩)
    refine follows_of_agrees trivial (some true) ?_ ?_ hagrees
    · simp only [Memory.call, EpochTable.archiveEpoch, hfind, hstatus]
      rfl
    · simp only [Sql.call, Sql.archiveEpoch, hupdated]
      rfl
  · have hmiss : ∀ e, b.memory.epochs.find id = some e →
        decide (e.status = .sealed) = false := by
      intro e hfind
      rw [decide_eq_false_iff_not]
      exact fun hstatus => hlands ⟨e, hfind, hstatus⟩
    have hupdated := h.update_misses
      (fun e => decide (e.status = .sealed)) archivable_eq hmiss
      fun row => { row with status := "Archived" }
    refine follows_of_agrees trivial none ?_ ?_ h
    · simp only [Memory.call, EpochTable.archiveEpoch]
      cases hfind : b.memory.epochs.find id with
      | none => rfl
      | some e =>
          have hne : e.status ≠ .sealed :=
            fun hstatus => hlands ⟨e, hfind, hstatus⟩
          simp only [ne_eq, hne, not_false_eq_true, if_true]
          rfl
    · simp only [Sql.call, Sql.archiveEpoch, hupdated]
      rfl

omit h in
theorem commits_of_rowToEpoch {row : EpochColumns}
    (hread : rowToEpoch codec row = .ok e) : e.commits = [] := by
  obtain ⟨rootIntents, -, h₁⟩ := Except.bind_eq_ok_iff.mp hread
  obtain ⟨agents, -, h₂⟩ := Except.bind_eq_ok_iff.mp h₁
  obtain ⟨tags, -, h₃⟩ := Except.bind_eq_ok_iff.mp h₂
  obtain ⟨sealedCommits, -, h₄⟩ := Except.bind_eq_ok_iff.mp h₃
  obtain ⟨createdAt, -, h₅⟩ := Except.bind_eq_ok_iff.mp h₄
  obtain ⟨sealedAt, -, h₆⟩ := Except.bind_eq_ok_iff.mp h₅
  cases h₆
  rfl

omit h in
theorem rowToEpoch_insertedRow (e : Epoch) :
    rowToEpoch codec (Sql.insertedRow codec e).toEpochColumns =
      .ok { e with commits := [], branches := [], sealHash := none } := by
  have hcolumns : (Sql.insertedRow codec e).toEpochColumns =
      toColumns codec { e with sealHash := none } := rfl
  rw [hcolumns, rowToEpoch_toColumns]

theorem Agrees.commitsOf_of_find_none (hfind : b.memory.epochs.find id = none) :
    b.sql.commitsOf id = [] := by
  rw [Sql.commitsOf, List.map_eq_nil_iff, List.filter_eq_nil_iff]
  intro c hc hepoch
  exact h.known c hc id (by simpa using hepoch) hfind

/-- The tables after an epoch was created. -/
def created (codec : RowCodec) (b : Both) (e : Epoch) : Both where
  memory :=
    { b.memory with
      epochs :=
        { b.memory.epochs with epochs := b.memory.epochs.epochs ++ [e] } }
  sql := { b.sql with epochs := b.sql.epochs ++ [Sql.insertedRow codec e] }

theorem Agrees.createEpoch_calls (foreignKeys : Bool)
    (hfind : b.memory.epochs.find e.id = none) :
    b.memory.call (.createEpoch e) =
        (some true, (created codec b e).memory) ∧
      b.sql.call codec foreignKeys (.createEpoch e) =
        (some true, (created codec b e).sql) := by
  have hmem : (b.memory.epochs.epochs.any fun e' => e'.id = e.id) = false := by
    rw [List.any_eq_false]
    intro e' he'
    simpa using EpochTable.find_eq_none_iff.mp hfind e' he'
  have hexists := h.epochExists_iff e.id
  rw [hfind, Option.isSome_none, Sql.epochExists] at hexists
  constructor
  · simp only [Memory.call, EpochTable.createEpoch, hmem]
    rfl
  · simp only [Sql.call, Sql.createEpoch, hexists]
    rfl

theorem Agrees.getEpoch_created (hfind : b.memory.epochs.find e.id = none) :
    (created codec b e).sql.getEpoch codec e.id =
      .ok (some { e with commits := [], branches := [], sealHash := none }) := by
  have hnone : (b.sql.epochs.find? fun row => row.id = e.id) = none := by
    have hrow := h.find e.id
    rwa [hfind, Option.map_none, Option.map_eq_none_iff] at hrow
  have hrow : ((created codec b e).sql.epochs.find? fun row => row.id = e.id) =
      some (Sql.insertedRow codec e) := by
    simp only [created]
    rw [List.find?_append, hnone]
    simp [Sql.insertedRow]
  have hcommits : (created codec b e).sql.commitsOf e.id = [] :=
    h.commitsOf_of_find_none hfind
  rw [Sql.getEpoch, hrow]
  dsimp only
  rw [rowToEpoch_insertedRow, Except.ok_bind, hcommits]

theorem Agrees.of_created (hfind : b.memory.epochs.find e.id = none)
    (hhash : e.sealHash = none) (hbranches : e.branches = [])
    (hcommits : e.commits = []) : Agrees codec (created codec b e) where
  rows := by
    refine List.rel_append h.rows (.cons ?_ .nil)
    have hcolumns : (Sql.insertedRow codec e).toEpochColumns =
        toColumns codec { e with sealHash := none } := rfl
    rw [hcolumns, ← hhash]
  plain := by
    intro e' he'
    rcases List.mem_append.mp he' with he' | he'
    · exact h.plain e' he'
    · rw [List.mem_singleton.mp he']
      exact ⟨hcommits, hbranches⟩
  distinct := by
    rw [EpochTable.Distinct, created, List.map_append,
      List.nodup_append]
    refine ⟨h.distinct, by simp, ?_⟩
    intro x hx y hy
    obtain ⟨e', he', rfl⟩ := List.mem_map.mp hx
    rw [List.map_singleton, List.mem_singleton] at hy
    rw [hy]
    exact EpochTable.find_eq_none_iff.mp hfind e' he'
  linked := h.linked
  known := by
    intro c hc id hid
    have hknown := h.known c hc id hid
    have hfind' := EpochTable.find_append b.memory.epochs e id
    intro hnone
    have hor := hfind'.symm.trans hnone
    rw [Option.or_eq_none_iff] at hor
    exact hknown hor.1
  nodup := h.nodup
  sessions := h.sessions
  named := h.named

theorem Agrees.createEpoch (e : Epoch) :
    Follows codec foreignKeys b (.createEpoch e) := by
  cases hfind : b.memory.epochs.find e.id with
  | some e' =>
      have hmem : (b.memory.epochs.epochs.any fun e' => e'.id = e.id) = true :=
        List.any_eq_true.mpr ⟨e', EpochTable.mem_of_find hfind,
          by simpa using EpochTable.id_of_find hfind⟩
      have hexists := h.epochExists_iff e.id
      rw [hfind, Option.isSome_some, Sql.epochExists] at hexists
      refine follows_of_agrees ?_ none ?_ ?_ h
      · intro hnone
        rw [hfind] at hnone
        contradiction
      · simp only [Memory.call, EpochTable.createEpoch, hmem]
        rfl
      · simp only [Sql.call, Sql.createEpoch, hexists]
        rfl
  | none =>
      obtain ⟨hmemory, hsql⟩ := h.createEpoch_calls foreignKeys hfind
      have hstep : step codec foreignKeys b (.createEpoch e) =
          created codec b e := by
        rw [step, hmemory, hsql]
      have hself : (created codec b e).memory.epochs.find e.id = some e := by
        refine (EpochTable.find_append _ _ _).trans ?_
        rw [hfind]
        simp
      refine follows_of (fun hallowed => ⟨?_, ?_⟩) ?_
      · rw [SameResult, hmemory, hsql]
      · obtain ⟨hhash, hbranches, hcommits⟩ := hallowed hfind
        rw [hstep]
        exact h.of_created hfind hhash hbranches hcommits
      · intro _ hsame _
        rw [hstep] at hsame
        have hget := hsame.getEpoch e.id
        rw [h.getEpoch_created hfind, EpochTable.getEpoch, hself] at hget
        have heq := Option.some.inj (Except.ok.inj hget)
        refine ⟨(congrArg EpochRow.sealHash heq).symm,
          (congrArg EpochRow.branches heq).symm, ?_⟩
        obtain ⟨out, hout, hperm⟩ := hsame.listEpochs
        have hmem : e ∈ out := by
          rw [hperm.mem_iff, EpochTable.listEpochs,
            (List.mergeSort_perm _ _).mem_iff]
          exact EpochTable.mem_of_find hself
        obtain ⟨row, -, hrow⟩ := Except.exists_of_mem_mapM hout hmem
        exact commits_of_rowToEpoch hrow

/-- The tables after a commit was associated. -/
def linkedTo (b : Both) (commit : ObjectId) (id : String) : Both where
  memory :=
    { b.memory with
      epochs :=
        { b.memory.epochs with
          commitEpoch := relink b.memory.epochs.commitEpoch (commit, id) } }
  sql :=
    { b.sql with
      commits := b.sql.commits.map (joined commit id)
      epochs :=
        if (b.sql.commits.any fun c =>
            decide (c.id = commit) && decide (c.epochId ≠ some id)) then
          b.sql.epochs.map fun row =>
            if row.id = id then { row with commitCount := row.commitCount + 1 }
            else row
        else b.sql.epochs }

theorem Agrees.statusOf (id : String) : b.sql.statusOf id =
    (b.memory.epochs.find id).map fun e => epochStatusStr e.status := by
  have hfind := congrArg (Option.map EpochColumns.status) (h.find id)
  rw [Option.map_map, Option.map_map] at hfind
  exact hfind

/-- The running count is not among the columns that are read. -/
theorem Agrees.rows_linkedTo (commit : ObjectId) (id : String) :
    List.Forall₂ (fun row e => row.toEpochColumns = toColumns codec e)
      (linkedTo b commit id).sql.epochs
      (linkedTo b commit id).memory.epochs.epochs := by
  unfold linkedTo
  dsimp only
  split
  · rw [List.forall₂_map_left_iff]
    refine h.rows.imp ?_
    intro row e hrow
    split
    · exact hrow
    · exact hrow
  · exact h.rows

theorem Agrees.commitsOf_linkedTo_self (commit : ObjectId) (id : String) :
    (linkedTo b commit id).sql.commitsOf id =
        (linkedTo b commit id).memory.epochs.commitsOf id ↔
      ∃ earlier c later, b.sql.commits = earlier ++ c :: later ∧
        c.id = commit ∧ ∀ c' ∈ later, c'.epochId ≠ some id := by
  have hsql : (linkedTo b commit id).sql.commitsOf id =
      (b.sql.commits.filter
        fun c => c.epochId = some id ∨ c.id = commit).map fun c => c.id :=
    map_joined_self commit id b.sql.commits
  have hmemory : (linkedTo b commit id).memory.epochs.commitsOf id =
      (b.sql.commitsOf id).filter (· ≠ commit) ++ [commit] := by
    rw [h.linked]
    exact commitsOf_relink_self commit id b.memory.epochs
  rw [hsql, hmemory]
  exact ids_eq_append_iff commit id h.nodup

theorem Agrees.linkedTo {commit : ObjectId}
    (hfind : b.memory.epochs.find id ≠ none)
    (hlast : ∃ earlier c later, b.sql.commits = earlier ++ c :: later ∧
      c.id = commit ∧ ∀ c' ∈ later, c'.epochId ≠ some id) :
    Agrees codec (linkedTo b commit id) where
  rows := h.rows_linkedTo commit id
  plain := h.plain
  distinct := h.distinct
  linked := by
    intro id'
    by_cases hid : id' = id
    · subst hid
      exact (h.commitsOf_linkedTo_self commit id').mpr hlast
    · have hmemory := commitsOf_relink_other commit id hid b.memory.epochs
      rw [← h.linked] at hmemory
      exact (map_joined_other commit id hid b.sql.commits).trans hmemory.symm
  known := by
    intro c hc id' hid'
    obtain ⟨c₀, hc₀, rfl⟩ := List.mem_map.mp hc
    rw [joined_epochId] at hid'
    split at hid'
    · rw [← Option.some.inj hid']
      exact hfind
    · exact h.known c₀ hc₀ id' hid'
  nodup := by
    have hids : ((b.sql.commits.map (joined commit id)).map fun c => c.id) =
        b.sql.commits.map fun c => c.id := by
      rw [List.map_map]
      exact List.map_congr_left fun c _ => joined_id commit id c
    exact hids ▸ h.nodup
  sessions := h.sessions
  named := h.named

theorem Agrees.setCommitEpoch (commit : ObjectId) (id : String) :
    Follows codec foreignKeys b (.setCommitEpoch commit id) := by
  have hstatus := h.statusOf id
  by_cases hlands : ∃ e, b.memory.epochs.find id = some e ∧ e.status = .active
  · obtain ⟨e, hfind, hactive⟩ := hlands
    rw [hfind, Option.map_some, hactive] at hstatus
    have hmemory : b.memory.call (.setCommitEpoch commit id) =
        (some true, (EpochRows.linkedTo b commit id).memory) := by
      simp only [Memory.call, EpochTable.setCommitEpoch, hfind, hactive]
      rfl
    have hsql : b.sql.call codec foreignKeys (.setCommitEpoch commit id) =
        (some true, (EpochRows.linkedTo b commit id).sql) := by
      simp only [Sql.call, Sql.setCommitEpoch, hstatus]
      rfl
    have hstep : step codec foreignKeys b (.setCommitEpoch commit id) =
        EpochRows.linkedTo b commit id := by
      rw [step, hmemory, hsql]
    refine follows_of (fun hallowed => ⟨?_, ?_⟩) ?_
    · rw [SameResult, hmemory, hsql]
    · rw [hstep]
      refine h.linkedTo ?_ (hallowed ⟨e, hfind, hactive⟩)
      rw [hfind]
      exact Option.some_ne_none _
    · intro _ hsame _
      rw [hstep] at hsame
      rw [← h.commitsOf_linkedTo_self]
      have hget := hsame.getEpoch id
      have hfind' : (EpochRows.linkedTo b commit id).memory.epochs.find id =
          some e := hfind
      obtain ⟨-, hbranches⟩ := h.plain e (EpochTable.mem_of_find hfind)
      rw [getEpoch_of_rows (h.rows_linkedTo commit id) hfind' hbranches,
        EpochTable.getEpoch, hfind'] at hget
      exact congrArg EpochRow.commits (Option.some.inj (Except.ok.inj hget))
  · refine follows_of_agrees (fun hopen => absurd hopen hlands) none ?_ ?_ h
    · simp only [Memory.call, EpochTable.setCommitEpoch]
      cases hfind : b.memory.epochs.find id with
      | none => rfl
      | some e =>
          cases hstatus' : e.status with
          | active => exact absurd ⟨e, hfind, hstatus'⟩ hlands
          | sealed =>
              simp only [hstatus', true_or, if_true]
              rfl
          | archived =>
              simp only [hstatus', or_true, if_true]
              rfl
    · simp only [Sql.call, Sql.setCommitEpoch, hstatus]
      cases hfind : b.memory.epochs.find id with
      | none => rfl
      | some e =>
          cases hstatus' : e.status with
          | active => exact absurd ⟨e, hfind, hstatus'⟩ hlands
          | sealed =>
              simp only [Option.map_some, hstatus']
              rfl
          | archived =>
              simp only [Option.map_some, hstatus']
              rfl

theorem Agrees.writeSession {s : Session} (hvalid : NamespaceValid s)
    (row : SqlSession)
    (hrow : row.toSessionColumns = EpochRows.sessionColumns codec s) :
    Agrees codec
      { memory := { b.memory with sessions := b.memory.sessions.createSession s }
        sql := { b.sql with sessions := b.sql.sessions.insert s.id row } } where
  rows := h.rows
  plain := h.plain
  distinct := h.distinct
  linked := h.linked
  known := h.known
  nodup := h.nodup
  sessions := by
    intro id
    dsimp only
    rw [Sessions.Table.getSession, Sessions.Table.createSession,
      Std.ExtTreeMap.getElem?_insert, Std.ExtTreeMap.getElem?_insert]
    split
    · rw [Option.map_some, Option.map_some, hrow]
    · exact h.sessions id
  named := by
    intro id s' hs'
    dsimp only at hs'
    rw [Sessions.Table.getSession, Sessions.Table.createSession,
      Std.ExtTreeMap.getElem?_insert] at hs'
    split at hs'
    next heq =>
      rw [← Option.some.inj hs']
      exact ⟨compare_eq_iff_eq.mp heq, hvalid⟩
    · exact h.named id s' hs'

theorem Agrees.session_eq_none_iff (id : String) :
    b.sql.sessions[id]? = none ↔ b.memory.sessions.getSession id = none := by
  have hsessions := h.sessions id
  rw [← Option.map_eq_none_iff (f := SqlSession.toSessionColumns),
    ← Option.map_eq_none_iff (f := EpochRows.sessionColumns codec), ← hsessions]

theorem Agrees.createSession (s : Session) (hvalid : NamespaceValid s) :
    Follows codec foreignKeys b (.createSession s hvalid) := by
  set row : SqlSession :=
    { EpochRows.sessionColumns codec s with
      commitCount :=
        (b.sql.sessions[s.id]?.map fun row => row.commitCount).getD 0 }
    with hrow
  have hmissing : (∃ parent ∈ s.parentSession,
      (b.sql.sessions.insert s.id row)[parent]? = none) ↔
      ∃ parent, s.parentSession = some parent ∧ parent ≠ s.id ∧
        b.memory.sessions.getSession parent = none := by
    refine exists_congr fun parent => ?_
    rw [Option.mem_def]
    refine and_congr_right fun _ => ?_
    rw [Std.ExtTreeMap.getElem?_insert, ← h.session_eq_none_iff]
    by_cases hparent : s.id = parent
    · simp [hparent]
    · simp [hparent, Ne.symm hparent]
  have hmemory : b.memory.call (.createSession s hvalid) =
      (some true,
        { b.memory with sessions := b.memory.sessions.createSession s }) := rfl
  by_cases hallowed : Allowed foreignKeys b (.createSession s hvalid)
  · refine follows_of_agrees hallowed (some true) hmemory ?_
      (h.writeSession hvalid row rfl)
    have hcond : ¬ (foreignKeys = true ∧ ∃ parent ∈ s.parentSession,
        (b.sql.sessions.insert s.id row)[parent]? = none) := by
      rintro ⟨hkeys, hparent⟩
      obtain ⟨parent, hparent, hne, hnone⟩ := hmissing.mp hparent
      exact (hallowed hkeys parent hparent).elim hne fun hsome => hsome hnone
    have hcreate : b.sql.createSession codec foreignKeys s =
        .ok { b.sql with sessions := b.sql.sessions.insert s.id row } :=
      if_neg hcond
    simp only [Sql.call, hcreate]
    rfl
  · have hcond : foreignKeys = true ∧ ∃ parent ∈ s.parentSession,
        (b.sql.sessions.insert s.id row)[parent]? = none := by
      rw [hmissing]
      by_contra hnot
      refine hallowed ?_
      intro hkeys parent hparent
      by_contra hneither
      rw [not_or, not_not] at hneither
      exact hnot ⟨hkeys, parent, hparent, hneither.1, hneither.2⟩
    have hcreate : b.sql.createSession codec foreignKeys s =
        .error (.storage (.backend
          "create session: FOREIGN KEY constraint failed")) :=
      if_pos hcond
    refine follows_of (fun ha => absurd ha hallowed) ?_
    intro hsame _
    rw [SameResult, hmemory] at hsame
    simp only [Sql.call, hcreate] at hsame
    contradiction

theorem Agrees.endSession (id : String) (status : Sessions.Status)
    (endedAt : ℤ) : Follows codec foreignKeys b (.endSession id status endedAt) := by
  have hsessions := h.sessions id
  cases hget : b.memory.sessions.getSession id with
  | none =>
      have hsql := (h.session_eq_none_iff id).mpr hget
      refine follows_of_agrees trivial none ?_ ?_ h
      · simp only [Memory.call, Sessions.Table.endSession, hget]
        rfl
      · simp only [Sql.call, Sql.endSession, hsql]
        rfl
  | some s =>
      rw [hget, Option.map_some, Option.map_eq_some_iff] at hsessions
      obtain ⟨row, hsql, hrow⟩ := hsessions
      obtain ⟨hid, hvalid⟩ := h.named id s hget
      have hstatus : row.status = sessionStatusStr s.status :=
        congrArg SessionColumns.status hrow
      by_cases hactive : s.status = .active
      · rw [hactive] at hstatus
        have hagrees := h.writeSession
          (s := { s with status := status, endedAt := some endedAt }) hvalid
          { row with
            status := sessionStatusStr status
            endedAt := some (codec.formatTime endedAt) }
          (congrArg (fun c : SessionColumns =>
            { c with
              status := sessionStatusStr status
              endedAt := some (codec.formatTime endedAt) }) hrow)
        refine follows_of_agrees trivial (some true) ?_ ?_ hagrees
        · simp only [Memory.call, Sessions.Table.endSession, hget, hactive]
          rw [← hid]
          rfl
        · simp only [Sql.call, Sql.endSession, hsql, hstatus]
          rw [← hid]
          rfl
      · refine follows_of_agrees trivial none ?_ ?_ h
        · simp only [Memory.call, Sessions.Table.endSession, hget, ne_eq,
            hactive, not_false_eq_true, if_true]
          rfl
        · have hne : row.status ≠ "Active" := by
            rw [hstatus]
            cases hs : s.status with
            | active => exact absurd hs hactive
            | completed => decide
            | abandoned => decide
          simp only [Sql.call, Sql.endSession, hsql, hne, if_false]
          rfl

/-- What the update of the session does to the row of a commit. -/
def inSession (commit : ObjectId) (id : String) (c : SqlCommit) : SqlCommit :=
  if (decide (c.id = commit) && decide (c.sessionId ≠ some id)) = true then
    { c with sessionId := some id }
  else c

omit h in
theorem inSession_keeps (commit : ObjectId) (id : String) (c : SqlCommit) :
    (inSession commit id c).id = c.id ∧
      (inSession commit id c).epochId = c.epochId := by
  unfold inSession
  split
  · exact ⟨rfl, rfl⟩
  · exact ⟨rfl, rfl⟩

theorem Agrees.linkSession {sessions : BTreeMap String SqlSession}
    (hsessions : ∀ id : String,
      sessions[id]?.map SqlSession.toSessionColumns =
        b.sql.sessions[id]?.map SqlSession.toSessionColumns)
    (links : List (ObjectId × String)) (commit : ObjectId) (id : String) :
    Agrees codec
      { memory :=
          { b.memory with
            sessions := { b.memory.sessions with commitSession := links } }
        sql :=
          { b.sql with
            commits := b.sql.commits.map (inSession commit id)
            sessions } } where
  rows := h.rows
  plain := h.plain
  distinct := h.distinct
  linked := by
    intro id'
    rw [← h.linked]
    simp only [Sql.commitsOf]
    rw [List.filter_map, List.map_map]
    have hfilter : b.sql.commits.filter
        ((fun c => decide (c.epochId = some id')) ∘ inSession commit id) =
        b.sql.commits.filter fun c => c.epochId = some id' := by
      refine List.filter_congr ?_
      intro c _
      rw [Function.comp_apply, (inSession_keeps commit id c).2]
    rw [hfilter]
    exact List.map_congr_left fun c _ => (inSession_keeps commit id c).1
  known := by
    intro c hc id' hid'
    obtain ⟨c₀, hc₀, rfl⟩ := List.mem_map.mp hc
    rw [(inSession_keeps commit id c₀).2] at hid'
    exact h.known c₀ hc₀ id' hid'
  nodup := by
    have hids : ((b.sql.commits.map (inSession commit id)).map fun c => c.id) =
        b.sql.commits.map fun c => c.id := by
      rw [List.map_map]
      exact List.map_congr_left fun c _ => (inSession_keeps commit id c).1
    exact hids ▸ h.nodup
  sessions := by
    intro id'
    exact (hsessions id').trans (h.sessions id')
  named := h.named

theorem Agrees.setCommitSession (commit : ObjectId) (id : String) :
    Follows codec foreignKeys b (.setCommitSession commit id) := by
  have hsessions := h.sessions id
  cases hget : b.memory.sessions.getSession id with
  | none =>
      have hsql := (h.session_eq_none_iff id).mpr hget
      refine follows_of_agrees trivial none ?_ ?_ h
      · simp only [Memory.call, Sessions.Table.setCommitSession, hget]
        rfl
      · simp only [Sql.call, Sql.setCommitSession, hsql]
        rfl
  | some s =>
      rw [hget, Option.map_some, Option.map_eq_some_iff] at hsessions
      obtain ⟨row, hsql, hrow⟩ := hsessions
      have hstatus : row.status = sessionStatusStr s.status :=
        congrArg SessionColumns.status hrow
      by_cases hactive : s.status = .active
      · rw [hactive] at hstatus
        have hcount : ∀ id' : String, (if (b.sql.commits.any fun c =>
              decide (c.id = commit) && decide (c.sessionId ≠ some id)) then
            b.sql.sessions.insert id
              { row with commitCount := row.commitCount + 1 }
            else b.sql.sessions)[id']?.map SqlSession.toSessionColumns =
            b.sql.sessions[id']?.map SqlSession.toSessionColumns := by
          intro id'
          split
          · rw [Std.ExtTreeMap.getElem?_insert]
            split
            next heq =>
              rw [← compare_eq_iff_eq.mp heq, hsql]
              rfl
            · rfl
          · rfl
        refine follows_of_agrees trivial (some true) ?_ ?_
          (h.linkSession hcount
            (b.memory.sessions.commitSession.filter (fun e => e.1 ≠ commit) ++
              [(commit, id)]) commit id)
        · simp only [Memory.call, Sessions.Table.setCommitSession, hget, hactive]
          rfl
        · simp only [Sql.call, Sql.setCommitSession, hsql, hstatus]
          rfl
      · refine follows_of_agrees trivial none ?_ ?_ h
        · simp only [Memory.call, Sessions.Table.setCommitSession, hget, ne_eq,
            hactive, not_false_eq_true, if_true]
          rfl
        · have hne : row.status ≠ "Active" := by
            rw [hstatus]
            cases hs : s.status with
            | active => exact absurd hs hactive
            | completed => decide
            | abandoned => decide
          simp only [Sql.call, Sql.setCommitSession, hsql, ne_eq, hne,
            not_false_eq_true, if_true]
          rfl

theorem Agrees.stored (commit : ObjectId) :
    Agrees codec ⟨b.memory, b.sql.putCommit commit⟩ := by
  unfold Sql.putCommit
  split
  · exact h
  next hfresh =>
    rw [Bool.not_eq_true, List.any_eq_false] at hfresh
    exact
      { rows := h.rows
        plain := h.plain
        distinct := h.distinct
        linked := by
          intro id
          rw [← h.linked]
          simp [Sql.commitsOf]
        known := by
          intro c hc id hid
          rcases List.mem_append.mp hc with hc | hc
          · exact h.known c hc id hid
          · rw [List.mem_singleton.mp hc] at hid
            contradiction
        nodup := by
          rw [List.map_append, List.nodup_append]
          refine ⟨h.nodup, by simp, ?_⟩
          intro x hx y hy
          obtain ⟨c, hc, rfl⟩ := List.mem_map.mp hx
          rw [List.map_singleton, List.mem_singleton] at hy
          rw [hy]
          simpa using hfresh c hc
        sessions := h.sessions
        named := h.named }

theorem Agrees.putCommit (commit : ObjectId) :
    Follows codec foreignKeys b (.putCommit commit) :=
  follows_of_agrees trivial (some true) rfl rfl (h.stored commit)

/-- Every call. -/
theorem Agrees.follows (op : Op) : Follows codec foreignKeys b op := by
  cases op with
  | createEpoch e => exact h.createEpoch e
  | sealEpoch id summary sealedAt sealedCommits sealHash =>
      exact h.sealEpoch id summary sealedAt sealedCommits sealHash
  | assignEpochNamespace id ns => exact h.assignEpochNamespace id ns
  | archiveEpoch id => exact h.archiveEpoch id
  | setCommitEpoch commit id => exact h.setCommitEpoch commit id
  | createSession s hvalid => exact h.createSession s hvalid
  | endSession id status endedAt => exact h.endSession id status endedAt
  | setCommitSession commit id => exact h.setCommitSession commit id
  | putCommit commit => exact h.putCommit commit

/-- The record comes back whole exactly when the insert names all of it. -/
theorem Agrees.getEpoch_created_iff (foreignKeys : Bool)
    (hfind : b.memory.epochs.find e.id = none) :
    (step codec foreignKeys b (.createEpoch e)).sql.getEpoch codec e.id =
        .ok (some e) ↔
      e.sealHash = none ∧ e.branches = [] ∧ e.commits = [] := by
  have hstep : (step codec foreignKeys b (.createEpoch e)).sql =
      (created codec b e).sql := by
    rw [step, (h.createEpoch_calls foreignKeys hfind).2]
  rw [hstep, h.getEpoch_created hfind]
  constructor
  · intro hget
    have heq := Option.some.inj (Except.ok.inj hget)
    exact ⟨(congrArg EpochRow.sealHash heq).symm,
      (congrArg EpochRow.branches heq).symm,
      (congrArg EpochRow.commits heq).symm⟩
  · rintro ⟨hhash, hbranches, hcommits⟩
    have heq : { e with commits := [], branches := [], sealHash := none } = e := by
      rw [← hcommits, ← hbranches, ← hhash]
    rw [heq]

end Calls

theorem agrees_start : Agrees codec start where
  rows := .nil
  plain := by
    intro e he
    contradiction
  distinct := List.nodup_nil
  linked := fun _ => rfl
  known := by
    intro c hc
    contradiction
  nodup := List.nodup_nil
  sessions := by
    intro id
    simp [start, Sql.empty, Memory.empty, Sessions.Table.getSession]
  named := by
    intro id s hs
    simp [start, Memory.empty, Sessions.Table.getSession] at hs

end EpochRows

namespace SealedElsewhere

open Bundles Backend EpochRows

instance countable_meta : Countable Meta := by
  refine Function.Injective.countable (f := fun m : Meta =>
    (m.head, m.delegatedIntent, m.reportTo, m.workingBranch, m.scopeTenant)) ?_
  rintro ⟨⟩ ⟨⟩ h
  simp_all

theorem nonempty_rowCodec : Nonempty RowCodec := by
  obtain ⟨formatTime, parseTime, htime⟩ := exists_text ℤ
  obtain ⟨stringsText, parseStrings, hstrings⟩ := exists_text (List String)
  obtain ⟨idsText, parseIds, hids⟩ := exists_text (List ObjectId)
  obtain ⟨metaText, parseMeta, hmeta⟩ := exists_text Meta
  exact ⟨
    { formatTime := formatTime
      parseTime := parseTime
      parse_time := htime
      stringsText := stringsText
      parseStrings := parseStrings
      parse_strings := hstrings
      idsText := idsText
      parseIds := parseIds
      parse_ids := hids
      metaText := metaText
      parseMeta := fun s => (parseMeta s).toOption
      parse_meta := fun m => by rw [hmeta, Except.toOption]
      emptyHash := ⟨List.replicate 32 0, Bundles.length_zeros⟩ }⟩

def epoch : EpochRows.Epoch where
  id := "e"
  description := "release"
  rootIntents := []
  status := .sealed
  createdAt := 0
  sealedAt := some 1
  sealSummary := some "done"
  sealHash := some ⟨List.replicate 32 0, Bundles.length_zeros⟩
  commits := []
  agents := []
  branches := []
  tags := []
  sealedCommits := []
  scope := .all
  namespace_ := none

end SealedElsewhere

end AgentStateGraph
