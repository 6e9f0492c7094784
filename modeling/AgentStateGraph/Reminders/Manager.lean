import AgentStateGraph.Core.Object
import AgentStateGraph.Lib.Programs

/-!
# Reminders

The manager moves a reminder through its statuses by reading the record,
changing a copy and writing the copy back if the record is still what was read.
Calls run side by side; each takes its steps on the shared store.  The store
also lists the writes that landed, in order, which no call reads.
-/

namespace AgentStateGraph

namespace Reminders

/-! ## Records -/

inductive Priority where
  | critical
  | high
  | medium
  | low
  | minimal
deriving DecidableEq

def Priority.asU8 : Priority → ℕ
  | .critical => 1
  | .high => 2
  | .medium => 3
  | .low => 4
  | .minimal => 5

inductive ReminderStatus where
  | pending
  | due
  | awaitingPermission
  | inProgress
  | completed
  | snoozed
  | cancelled
deriving DecidableEq

def ReminderStatus.isTerminal : ReminderStatus → Bool
  | .completed | .cancelled => true
  | _ => false

inductive Weekday where
  | mon | tue | wed | thu | fri | sat | sun
deriving DecidableEq

inductive Schedule where
  | once
  | interval (everySeconds : UInt64)
  | daily (time : ℕ)
  | weekly (day : Weekday) (time : ℕ)
deriving DecidableEq

inductive RefKind where
  | branch
  | memory
  | plan
  | task
  | statePath
  | external (scheme : String)
deriving DecidableEq

structure ReminderRef where
  kind : RefKind
  id : String
  label : Option String
  stale : Bool
deriving DecidableEq

inductive ExecutionResult where
  | success
  | failed
  | deferred
  | snoozed
  | cancelled
deriving DecidableEq

structure ExecutionRecord where
  startedAt : ℤ
  completedAt : Option ℤ
  agentId : String
  approvedBy : Option String
  result : ExecutionResult
  notes : List String
  taskId : Option String
deriving DecidableEq

/-- The input for a reminder, and what of it the record keeps.  Times are
nanoseconds since the epoch. -/
structure CreateReminder where
  title : String
  instructions : String
  commands : List String
  refs : List ReminderRef
  priority : Priority
  dueAt : ℤ
  schedule : Option Schedule
  autonomous : Bool
  createdBy : String
  tags : List String
deriving DecidableEq

structure Reminder extends CreateReminder where
  id : String
  createdAt : ℤ
  status : ReminderStatus
  snoozedUntil : Option ℤ
  executions : List ExecutionRecord
deriving DecidableEq

def CreateReminder.intoReminder (input : CreateReminder) (id : String)
    (now : ℤ) : Reminder :=
  { input with
    id := id
    createdAt := now
    status := .pending
    snoozedUntil := none
    executions := [] }

inductive ReminderError where
  | notFound (id : String)
  | alreadyTerminal (id : String) (status : ReminderStatus)
  | invalidTransition (id : String) (source target : ReminderStatus)
  | requiresApproval (id : String)
  | store (message : String)
deriving DecidableEq

/-! ## Schedules -/

def nanosPerSecond : ℤ := 1000000000

/-- The number of the day of a time, the first of January 1970 being 0. -/
def dateNaive (t : ℤ) : ℤ := t / (86400 * nanosPerSecond)

def andTime (date : ℤ) (time : ℕ) : ℤ := date * (86400 * nanosPerSecond) + time

/-- Day 0 was a Thursday. -/
def weekday (date : ℤ) : Weekday :=
  match date % 7 with
  | 0 => .thu
  | 1 => .fri
  | 2 => .sat
  | 3 => .sun
  | 4 => .mon
  | 5 => .tue
  | _ => .wed

/-- The days from `date` on, at most `n` of them, until one is a `day`. -/
def nextWeekday (day : Weekday) : ℕ → ℤ → Option ℤ
  | 0, _ => none
  | n + 1, date =>
      if weekday date = day then some date else nextWeekday day n (date + 1)

/-- `every_seconds as i64` wraps. -/
def Schedule.nextDue (after : ℤ) : Schedule → Option ℤ
  | .once => none
  | .interval everySeconds =>
      some (after + everySeconds.toInt64.toInt * nanosPerSecond)
  | .daily time =>
      let candidate := andTime (dateNaive after) time
      some (if candidate > after then candidate
        else andTime (dateNaive after + 1) time)
  | .weekly day time =>
      (nextWeekday day 7 (dateNaive after + 1)).map fun date => andTime date time

/-! ## The store -/

structure ReminderFilter where
  status : Option ReminderStatus := none
  priorityAtMost : Option Priority := none
  createdBy : Option String := none
  dueBefore : Option ℤ := none
  refId : Option String := none
  tags : List String := []

def ReminderFilter.matches_ (f : ReminderFilter) (r : Reminder) : Bool :=
  (f.status.all fun s => r.status = s) &&
  (f.priorityAtMost.all fun p => r.priority.asU8 ≤ p.asU8) &&
  (f.createdBy.all fun cb => r.createdBy = cb) &&
  (f.dueBefore.all fun due => r.dueAt ≤ due) &&
  (f.refId.all fun id => r.refs.any fun rf => rf.id = id) &&
  f.tags.all fun tag => tag ∈ r.tags

/-- By priority, then by `due_at`. -/
def urgent (a b : Reminder) : Bool :=
  a.priority.asU8 < b.priority.asU8 ||
    (a.priority = b.priority && a.dueAt ≤ b.dueAt)

/-- What a call finds when it takes a step: the time, and the order in which a
hash map is walked. -/
structure Tick where
  now : ℤ
  walk : List Reminder → List Reminder
  walk_perm : ∀ l, (walk l).Perm l

/-- The ids that are drawn one after another. -/
structure Uuids where
  newV4 : ℕ → String
  injective : Function.Injective newV4

inductive Call where
  | create (input : CreateReminder)
  | remindMe
  | snooze (id : String) (until_ : ℤ)
  | cancel (id : String)
  | approve (id approvedBy : String)
  | start (id agentId : String)
  | recordExecution (id : String) (record : ExecutionRecord)
  | markRefStale (id refId : String)
deriving DecidableEq

/-- A write that landed. -/
structure Write where
  call : Call
  before : Option Reminder
  after : Reminder
deriving DecidableEq

structure Shared where
  reminders : BTreeMap String Reminder
  drawn : ℕ
  trace : List Write

namespace Shared

def empty : Shared := ⟨∅, 0, []⟩

variable (s : Shared)

def put (call : Call) (r : Reminder) : Shared :=
  { s with
    reminders := s.reminders.insert r.id r
    trace := s.trace ++ [⟨call, s.reminders[r.id]?, r⟩] }

def list (tick : Tick) (filter : ReminderFilter) : List Reminder :=
  ((tick.walk (s.reminders.toList.map Prod.snd)).filter
    filter.matches_).mergeSort urgent

/-- `new` is written only if the record still equals `expected`. -/
def updateIfUnchanged (call : Call) (expected new : Reminder) :
    Except ReminderError Bool × Shared :=
  match s.reminders[expected.id]? with
  | some current =>
      if current = expected then (.ok true, s.put call new) else (.ok false, s)
  | none => (.error (.notFound expected.id), s)

end Shared

/-! ## Changes of a record -/

abbrev Change := ℤ → Reminder → Except ReminderError Reminder

def promoted (r : Reminder) : Reminder :=
  { r with status := if r.autonomous then .due else .awaitingPermission }

def snoozed (id : String) (until_ : ℤ) : Change := fun _ r =>
  if r.status.isTerminal then .error (.alreadyTerminal id r.status)
  else .ok { r with status := .snoozed, snoozedUntil := some until_ }

def cancelled (id : String) : Change := fun _ r =>
  if r.status = .completed then .error (.alreadyTerminal id r.status)
  else .ok { r with status := .cancelled }

/-- `last_mut`: a change of the last record of a list. -/
def modifyLast (f : ExecutionRecord → ExecutionRecord)
    (l : List ExecutionRecord) : List ExecutionRecord :=
  l.modify (l.length - 1) f

def approved (id approvedBy : String) : Change := fun _ r =>
  let stamped : Reminder :=
    { r with
      status := .due
      executions := modifyLast
        (fun last =>
          if last.completedAt.isNone then
            { last with approvedBy := some approvedBy }
          else last) r.executions }
  match r.status with
  | .awaitingPermission => .ok stamped
  | .due => .ok stamped
  | s =>
      if s.isTerminal then .error (.alreadyTerminal id s)
      else .error (.invalidTransition id s .due)

def started (id agentId : String) : Change := fun now r =>
  let opened : Reminder :=
    { r with
      status := .inProgress
      executions := r.executions ++
        [{ startedAt := now
           completedAt := none
           agentId := agentId
           approvedBy := none
           result := .deferred
           notes := []
           taskId := none }] }
  match r.status with
  | .due => .ok opened
  | .awaitingPermission =>
      if r.autonomous then .ok opened else .error (.requiresApproval id)
  | s =>
      if s.isTerminal then .error (.alreadyTerminal id s)
      else .error (.invalidTransition id s .inProgress)

/-- The open record is completed, or the record is appended. -/
def completeLast (record : ExecutionRecord) (l : List ExecutionRecord) :
    List ExecutionRecord :=
  match l.getLast? with
  | some last =>
      if last.completedAt.isNone then
        modifyLast
          (fun last =>
            { last with
              completedAt := record.completedAt
              result := record.result
              notes := record.notes
              taskId := record.taskId
              approvedBy :=
                if record.approvedBy.isSome then record.approvedBy
                else last.approvedBy }) l
      else l ++ [record]
  | none => l ++ [record]

/-- Where the result of an execution takes the reminder. -/
def settled (completedAt : ℤ) (result : ExecutionResult) (r : Reminder) :
    Reminder :=
  match result with
  | .success =>
      match r.schedule.bind (Schedule.nextDue completedAt) with
      | some next =>
          { r with
            dueAt := next
            snoozedUntil := none
            status := if r.autonomous then .pending else .awaitingPermission }
      | none => { r with status := .completed }
  | .snoozed => { r with status := .snoozed }
  | .cancelled => { r with status := .cancelled }
  | .failed | .deferred =>
      if r.status = .inProgress then { r with status := .due } else r

def executed (id : String) (record : ExecutionRecord) : Change := fun now r =>
  if r.status.isTerminal then .error (.alreadyTerminal id r.status)
  else
    let record := { record with completedAt := some now }
    .ok (settled now record.result
      { r with executions := completeLast record r.executions })

/-- The references that become stale, and how many. -/
def staled (refId : String) (r : Reminder) : ℕ × Reminder :=
  (r.refs.countP fun rf => rf.id = refId && !rf.stale,
    { r with
      refs := r.refs.map fun rf =>
        if rf.id = refId && !rf.stale then { rf with stale := true } else rf })

/-! ## Calls -/

inductive Answer where
  | reminder (r : Reminder)
  | reminders (l : List Reminder)
  | count (n : ℕ)

abbrev Result (α : Type) := Except ReminderError α

abbrev Manager (α : Type) := Program Tick Shared α

namespace Manager

open Program (attempt)

def clock : Manager ℤ := .read fun tick _ => tick.now

def listed (filter : ReminderFilter) : Manager (List Reminder) :=
  .read fun tick s => s.list tick filter

def updateIfUnchanged (call : Call) (expected new : Reminder) : Manager (Result Bool) :=
  .call fun _ s => s.updateIfUnchanged call expected new

/-- The id is drawn as the record is saved. -/
def create (uuids : Uuids) (input : CreateReminder) : Manager (Result Reminder) := do
  let now ← clock
  .call fun _ s =>
    let r := input.intoReminder (uuids.newV4 s.drawn) now
    (.ok r, { s.put (.create input) r with drawn := s.drawn + 1 })

def get (id : String) : Manager (Result Reminder) :=
  .read fun _ s =>
    match s.reminders[id]? with
    | some r => .ok r
    | none => .error (.notFound id)

def MAX_UPDATE_ATTEMPTS : ℕ := 32

def writeConflict (id : String) : ReminderError :=
  .store ("write conflict: reminder " ++ id ++
    " kept changing; gave up after 32 attempts")

def modify (call : Call) (id : String) (change : Change) : ℕ → Manager (Result Reminder)
  | 0 => pure (.error (writeConflict id))
  | attempts + 1 =>
      attempt (get id) fun seen => do
        let now ← clock
        match change now seen with
        | .error e => pure (.error e)
        | .ok r =>
            attempt (updateIfUnchanged call seen r) fun
              | true => pure (.ok r)
              | false => modify call id change attempts

def markRefStale (call : Call) (id refId : String) : ℕ → Manager (Result ℕ)
  | 0 => pure (.error (writeConflict id))
  | attempts + 1 =>
      attempt (get id) fun seen =>
        let (count, r) := staled refId seen
        if count = 0 then pure (.ok count)
        else
          attempt (updateIfUnchanged call seen r) fun
            | true => pure (.ok count)
            | false => markRefStale call id refId attempts

/-- A reminder that changed since it was listed is left alone. -/
def promote (wake : Reminder → ℤ) (next : Reminder → Reminder) (now : ℤ) :
    List Reminder → Manager (Result Unit)
  | [] => pure (.ok ())
  | seen :: rest =>
      if wake seen ≤ now then
        attempt (updateIfUnchanged .remindMe seen (next seen)) fun _ =>
          promote wake next now rest
      else promote wake next now rest

def remindMe : Manager (Result (List Reminder)) := do
  let now ← clock
  let pending ← listed { status := some .pending }
  attempt (promote (fun r => r.dueAt) promoted now pending) fun _ => do
    let snoozed ← listed { status := some .snoozed }
    attempt (promote (fun r => r.snoozedUntil.getD r.dueAt)
        (fun r => { promoted r with snoozedUntil := none }) now snoozed)
      fun _ => do
        let due ← listed { status := some .due }
        let awaiting ← listed { status := some .awaitingPermission }
        pure (.ok ((due ++ awaiting).mergeSort urgent))

def answer {α : Type} (p : Manager (Result α)) (f : α → Answer) :
    Manager (Result Answer) :=
  attempt p fun a => pure (.ok (f a))

/-- A call that changes one reminder. -/
def changed (call : Call) (id : String) (change : Change) :
    Manager (Result Answer) :=
  answer (modify call id change MAX_UPDATE_ATTEMPTS) .reminder

def program (uuids : Uuids) : Call → Manager (Result Answer)
  | .create input => answer (create uuids input) .reminder
  | .remindMe => answer remindMe .reminders
  | .snooze id until_ => changed (.snooze id until_) id (snoozed id until_)
  | .cancel id => changed (.cancel id) id (cancelled id)
  | .approve id approvedBy =>
      changed (.approve id approvedBy) id (approved id approvedBy)
  | .start id agentId => changed (.start id agentId) id (started id agentId)
  | .recordExecution id record =>
      changed (.recordExecution id record) id (executed id record)
  | .markRefStale id refId =>
      answer
        (markRefStale (.markRefStale id refId) id refId MAX_UPDATE_ATTEMPTS)
        .count

end Manager

/-- Every caller is before its call, and the store is empty. -/
def start {W : Type} (uuids : Uuids) (calls : W → Call) :
    Program.Config W Tick Shared (Result Answer) :=
  ⟨.empty, fun w => Manager.program uuids (calls w)⟩

end Reminders

end AgentStateGraph
