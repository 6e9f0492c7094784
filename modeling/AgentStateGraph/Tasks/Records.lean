import AgentStateGraph.Repo.Landings
import AgentStateGraph.Tasks.Document

/-!
# Plans and tasks

The records of the task store and where they are kept.  The metadata of a plan
is the document at `<prefix>/<plan>/_meta`, its tasks those at
`<prefix>/<plan>/<id>`.  Times are nanoseconds since the epoch.

The derived serializers and the digit class of regular expressions lie outside
this development; `TaskCodec` states what the store relies on.
-/

namespace AgentStateGraph

namespace Tasks

/-! ## Records -/

inductive PlanStatus where
  | active
  | completed
  | archived
deriving DecidableEq

/-- A named container of tasks. -/
structure Plan where
  name : String
  description : Option String
  status : PlanStatus
  createdAt : ℤ
  createdBy : String
  archivedAt : Option ℤ
  summary : Option String
  closedAt : Option ℤ
  closedBy : Option String
deriving DecidableEq

inductive TaskStatus where
  | pending
  | inProgress
  | done
  | abandoned
deriving DecidableEq

def TaskStatus.isTerminal : TaskStatus → Bool
  | .done | .abandoned => true
  | _ => false

/-- The status as `{:?}` shows it. -/
def TaskStatus.debug : TaskStatus → String
  | .pending => "Pending"
  | .inProgress => "InProgress"
  | .done => "Done"
  | .abandoned => "Abandoned"

inductive Priority where
  | low
  | medium
  | high
  | critical
deriving DecidableEq

def Priority.debug : Priority → String
  | .low => "Low"
  | .medium => "Medium"
  | .high => "High"
  | .critical => "Critical"

inductive ProofKind where
  | commit
  | file
  | test
  | text
deriving DecidableEq

/-- Evidence attached to a task that is done. -/
structure Proof where
  kind : ProofKind
  value : String
  note : Option String
deriving DecidableEq

inductive OnCompleteHook where
  | promoteChange
  | named (name : String)
deriving DecidableEq

/-- A JSON value as `serde_json` builds it. -/
structure Payload where
  json : Json
  canonical : json.isCanonical = true

/-- A unit of work inside a plan. -/
structure Task where
  id : String
  title : String
  notes : Option String
  status : TaskStatus
  priority : Priority
  parentId : Option String
  blockedBy : List String
  createdAt : ℤ
  createdBy : String
  startedAt : Option ℤ
  startedBy : Option String
  completedAt : Option ℤ
  completedBy : Option String
  proof : Option Proof
  abandonedAt : Option ℤ
  abandonedReason : Option String
  assignedTo : Option String
  payload : Option Payload
  parentChange : Option String
  onComplete : Option OnCompleteHook

/-- A payload as it reads back: `null` reads as none. -/
def storedPayload : Option Payload → Option Payload
  | some ⟨.null, _⟩ => none
  | payload => payload

/-- A task as it reads back. -/
def Task.stored (t : Task) : Task := { t with payload := storedPayload t.payload }

@[simp] theorem Task.stored_id (t : Task) : t.stored.id = t.id := rfl

@[simp] theorem Task.stored_status (t : Task) : t.stored.status = t.status := rfl

/-- How much a task's notes may hold, in bytes. -/
def MAX_NOTES_BYTES : ℕ := 16 * 1024

inductive TaskStoreError (Id : Type) where
  | planNotFound (name : String)
  | summaryRequired
  | cannotClose (plan reason : String)
  | planAlreadyExists (name : String)
  | taskNotFound (plan id : String)
  | invalidTransition (before after : TaskStatus)
  | blocked (blockers : List String)
  | blockerNotFound (blockers : List String)
  | parentIsSubtask (id : String)
  | reasonRequired
  | titleRequired
  | notesTooLong (len max : ℕ)
  | blockerCycle (cycle : List String)
  | invalidBlockerId (id : String)
  | writeConflict
  | repo (e : RepoError Id)
  | serde (message : String)
deriving DecidableEq

/-! ## Transitions -/

inductive Transition where
  | start
  | complete
  | abandon
deriving DecidableEq

def Transition.target : Transition → TaskStatus
  | .start => .inProgress
  | .complete => .done
  | .abandon => .abandoned

def checkTransition {Id : Type} (before : TaskStatus) (t : Transition) :
    Except (TaskStoreError Id) Unit :=
  match before, t with
  | .pending, .start | .inProgress, .complete
  | .pending, .abandon | .inProgress, .abandon => .ok ()
  | _, _ => .error (.invalidTransition before t.target)

/-! ## Paths -/

/-- The key of a plan that holds its metadata. -/
def META_KEY : String := "_meta"

def planRoot (pre plan : String) : String := pre ++ "/" ++ plan

def planMeta (pre plan : String) : String := pre ++ "/" ++ plan ++ "/" ++ META_KEY

def taskPath (pre plan id : String) : String := pre ++ "/" ++ plan ++ "/" ++ id

/-! ## Documents -/

def isScalar : Json → Bool
  | .array _ | .object _ => false
  | _ => true

/-- How plans and tasks are written as JSON, and what `\d` matches. -/
structure TaskCodec where
  planToValue : Plan → Except String Json
  planFromValue : Json → Except String Plan
  taskToValue : Task → Except String Json
  taskFromValue : Json → Except String Task
  planCanonical : ∀ p value, planToValue p = .ok value →
    value.isCanonical = true
  taskCanonical : ∀ t value, taskToValue t = .ok value →
    value.isCanonical = true
  planFromValue_planToValue : ∀ p value, planToValue p = .ok value →
    planFromValue value = .ok p
  taskFromValue_taskToValue : ∀ t value, taskToValue t = .ok value →
    taskFromValue value = .ok t.stored
  /-- A plan's fields are scalars, and none of them is named `_meta`. -/
  planFields : ∀ p value, planToValue p = .ok value →
    ∃ fields, value = .object fields ∧ fields.lookup META_KEY = none ∧
      ∀ e ∈ fields, isScalar e.2 = true
  /-- A plan lacks fields that a task must have. -/
  planNotTask : ∀ p value t, planToValue p = .ok value →
    taskFromValue value ≠ .ok t
  isDecimal : Char → Bool
  isDecimal_slash : isDecimal '/' = false

end Tasks

end AgentStateGraph
