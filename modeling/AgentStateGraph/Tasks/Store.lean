import AgentStateGraph.Tasks.Records

/-!
# The task store

A handle bound to a repository and a path prefix.  A write reads the head of
its ref, makes a document of what it reads then, and lands it on that head
alone; where the ref had moved it starts over.
-/

namespace AgentStateGraph

variable {Id : Type} [Digest Id]

namespace Tasks

/-- How many times a read-modify-write rebuilds on a moved head. -/
def MAX_CAS_RETRIES : ℕ := 32

structure TaskStore where
  repo : Repository
  pre : String
  agentId : String

/-- A store as `TaskStore::new` makes it: one trailing slash is dropped. -/
def TaskStore.new (repo : Repository) (pre agentId : String) : TaskStore where
  repo := repo
  pre := if pre.toList.getLast? = some '/' then String.ofList pre.toList.dropLast
    else pre
  agentId := agentId

/-- What `add_task_with_extensions` is given. -/
structure AddTask where
  plan : String
  title : String
  priority : Priority
  parentId : Option String
  blockedBy : List String
  assignedTo : Option String
  payload : Option Payload
  parentChange : Option String
  onComplete : Option OnCompleteHook
  notes : Option String

/-- A write of a task store. -/
inductive TaskOp where
  | createPlan (name : String) (description : Option String)
  | archivePlan (name : String)
  | closePlan (name summary : String)
  | deletePlan (name : String)
  | addTask (request : AddTask)
  | startTask (plan id : String)
  | completeTask (plan id : String) (proof : Proof)
  | abandonTask (plan id reason : String)
  | setPriority (plan id : String) (priority : Priority)
  | setTitle (plan id title : String)
  | setNotes (plan id : String) (notes : Option String)
  | setBlockers (plan id : String) (blockers : List String)
  | assignTask (plan id agent : String)
  | unassignTask (plan id : String)

inductive Answer where
  | plan (plan : Plan)
  | task (task : Task)
  | unit

/-- A write that landed: which, on what state, and what it returns. -/
structure Landing (Id : Type) [Digest Id] where
  op : TaskOp
  before : Storage Id
  answer : Answer

def isPathNotFound : RepoError Id → Bool
  | .tree (.pathNotFound _) => true
  | _ => false

def liftRepo {α : Type} : Except (RepoError Id) α → Except (TaskStoreError Id) α
  | .ok a => .ok a
  | .error e => .error (.repo e)

/-- `map_not_found`, then `from_value`. -/
def decode {α : Type} (fromValue : Json → Except String α)
    (missing : TaskStoreError Id) :
    Except (RepoError Id) Json → Except (TaskStoreError Id) α
  | .error e => .error (if isPathNotFound e then missing else .repo e)
  | .ok value =>
      match fromValue value with
      | .ok a => .ok a
      | .error e => .error (.serde e)

def isBlank (text : String) : Bool := text.toList.all isWhitespace

/-- `str::trim`. -/
def trim (text : String) : String :=
  String.ofList ((text.toList.dropWhile isWhitespace).reverse.dropWhile
    isWhitespace).reverse

/-- Blank notes are no notes. -/
def normalizeNotes : Option String → Except (TaskStoreError Id) (Option String)
  | none => .ok none
  | some text =>
      if isBlank text then .ok none
      else if MAX_NOTES_BYTES < text.utf8ByteSize then
        .error (.notesTooLong text.utf8ByteSize MAX_NOTES_BYTES)
      else .ok (some text)

variable (codec : TaskCodec)

/-- `^t-\d{1,9}$`. -/
def isBlockerId (id : String) : Bool :=
  match id.toList with
  | 't' :: '-' :: rest =>
      1 ≤ rest.length && rest.length ≤ 9 && rest.all codec.isDecimal
  | _ => false

def validateBlockerIds : List String → Except (TaskStoreError Id) Unit
  | [] => .ok ()
  | b :: bs =>
      if isBlockerId codec b then validateBlockerIds bs
      else .error (.invalidBlockerId b)

/-- A plan's metadata from its subtree of the plans tree. -/
def planFromTree (name : String) (plan : Json) :
    Except (TaskStoreError Id) Plan :=
  match plan.get META_KEY with
  | none => .error (.planNotFound name)
  | some metadata =>
      match codec.planFromValue metadata with
      | .ok p => .ok p
      | .error e => .error (.serde e)

/-- The tasks in a plan's subtree, sorted by id. -/
def tasksFromTree (plan : Json) : Except (TaskStoreError Id) (List Task) :=
  match plan with
  | .object entries => do
      let tasks ← (entries.filter fun e => e.1 ≠ META_KEY).mapM fun e =>
        match codec.taskFromValue e.2 with
        | .ok t => .ok t
        | .error err => .error (.serde err)
      .ok (tasks.mergeSort fun a b => a.id ≤ b.id)
  | _ => .ok []

/-! ## Blockers -/

structure BlockerCheck where
  missing : List String
  pending : List String

def checkBlockers (tasks : List Task) (blockers : List String) : BlockerCheck where
  missing := blockers.filter fun b => (tasks.find? fun t => t.id = b).isNone
  pending := blockers.filter fun b =>
    match tasks.find? fun t => t.id = b with
    | some t => t.status ≠ .done
    | none => false

/-- `edges.get(node)`: of two tasks with one id the later one counts. -/
def edgesOf (tasks : List Task) (node : String) : List String :=
  match tasks.reverse.find? fun t => t.id = node with
  | some t => t.blockedBy
  | none => []

/-- The loop of `reaches` over the successors of a node; the state is what was
visited and the route. -/
def reachesAny (visit : String → List String × List String →
      Bool × List String × List String) :
    List String → List String × List String → Bool × List String × List String
  | [], s => (false, s)
  | n :: ns, s =>
      match visit n s with
      | (true, s') => (true, s')
      | (false, s') => reachesAny visit ns s'

/-- Depth-first along the blockers; every level visits a task that was not
visited, so the number of tasks bounds the depth. -/
def reaches (tasks : List Task) (target : String) :
    ℕ → String → List String × List String → Bool × List String × List String
  | 0, _, s => (false, s)
  | fuel + 1, node, (visited, path) =>
      if node = target then (true, visited, path ++ [node])
      else if node ∈ visited then (false, visited, path)
      else
        match reachesAny (reaches tasks target fuel) (edgesOf tasks node)
            (node :: visited, path ++ [node]) with
        | (true, s) => (true, s)
        | (false, visited', _) => (false, visited', path)

/-- The cycle that making `blockers` the blockers of `id` would close. -/
def blockerCycle (tasks : List Task) (id : String) (blockers : List String) :
    Option (List String) :=
  match reachesAny (reaches tasks id (tasks.length + 2)) blockers ([], [id]) with
  | (true, _, path) => some path
  | (false, _) => none

namespace TaskStore

variable (self : TaskStore)

/-! ## Reads -/

def getPlan (store : Storage Id) (refName name : String) :
    Except (TaskStoreError Id) Plan :=
  decode codec.planFromValue (.planNotFound name)
    (self.repo.getJson store refName (planMeta self.pre name))

def planExists (store : Storage Id) (refName name : String) :
    Except (TaskStoreError Id) Bool :=
  match self.getPlan codec store refName name with
  | .ok _ => .ok true
  | .error (.planNotFound _) => .ok false
  | .error e => .error e

/-- Every plan under the prefix, in the order of their names. -/
def listPlans (store : Storage Id) (refName : String) :
    Except (TaskStoreError Id) (List Plan) :=
  match self.repo.getJson store refName self.pre with
  | .error e => if isPathNotFound e then .ok [] else .error (.repo e)
  | .ok (.object entries) => entries.mapM fun e => planFromTree codec e.1 e.2
  | .ok _ => .ok []

def listTasks (store : Storage Id) (refName plan : String) :
    Except (TaskStoreError Id) (List Task) :=
  match self.repo.getJson store refName (planRoot self.pre plan) with
  | .error e =>
      .error (if isPathNotFound e then .planNotFound plan else .repo e)
  | .ok root =>
      match root.get META_KEY with
      | none => .error (.planNotFound plan)
      | some _ => tasksFromTree codec root

def getTask (store : Storage Id) (refName plan id : String) :
    Except (TaskStoreError Id) Task :=
  decode codec.taskFromValue (.taskNotFound plan id)
    (self.repo.getJson store refName (taskPath self.pre plan id))

/-- The first segment of a leaf below the plan. -/
def leafTaskId (root leaf : String) : Option String :=
  let base := (root ++ "/").toList
  if base.isPrefixOf leaf.toList then
    let first := String.ofList
      (((leaf.toList.drop base.length).splitOn '/').headD [])
    if first = "" ∨ first = META_KEY then none else some first
  else none

/-- The ids of a plan's tasks, from the paths of its leaves. -/
def taskIds (store : Storage Id) (refName plan : String) :
    Except (TaskStoreError Id) (List String) :=
  match self.repo.listPaths store refName (planRoot self.pre plan) none with
  | .error e =>
      .error (if isPathNotFound e then .planNotFound plan else .repo e)
  | .ok leaves =>
      .ok ((leaves.filterMap (leafTaskId (planRoot self.pre plan))).dedup.mergeSort
        fun a b => a ≤ b)

/-- One past the highest number; `u32` addition wraps. -/
def nextTaskNumber (store : Storage Id) (refName plan : String) :
    Except (TaskStoreError Id) ℕ :=
  match self.taskIds store refName plan with
  | .error e => .error e
  | .ok ids => .ok (((ids.filterMap TaskId.number).foldr max 0 + 1) % 2 ^ 32)

def classifyBlockers (store : Storage Id) (refName plan : String)
    (blockers : List String) : Except (TaskStoreError Id) BlockerCheck :=
  if blockers.isEmpty then .ok ⟨[], []⟩
  else
    match self.listTasks codec store refName plan with
    | .error e => .error e
    | .ok tasks => .ok (checkBlockers tasks blockers)

/-! ## Writes -/

/-- The calls of a task store. -/
abbrev Call (Id α : Type) [Digest Id] :=
  RepoProgram Id (Landing Id) (Except (TaskStoreError Id) α)

/-- What one turn of a loop decided: nothing to do, or a document to land. -/
inductive Turn where
  | keep (answer : Answer)
  | write (path : String) (value : Json) (description : String) (answer : Answer)

/-- `to_value`, and the write of what it made. -/
def writeTurn (value : Except String Json) (path description : String)
    (answer : Answer) : Except (TaskStoreError Id) Turn :=
  match value with
  | .error e => .error (.serde e)
  | .ok value => .ok (.write path value description answer)

/-- What a compare-and-swap answered: done, once more, or an error. -/
def settle (answer : Answer) (again : Call Id Answer) :
    Except (RepoError Id) Id → Call Id Answer
  | .ok _ => pure (.ok answer)
  | .error .writeConflict => again
  | .error e => pure (.error (.repo e))

/-- The loop of every guarded write.  The head is read first, so that what
lands was made of the state of the head it lands on. -/
def casLoop (op : TaskOp) (refName : String) (turn : ℤ → Call Id Turn) :
    ℕ → Call Id Answer
  | 0 => pure (.error .writeConflict)
  | left + 1 =>
      (RepoProgram.query fun store =>
        liftRepo (self.repo.resolveRef store refName)).attempt fun head => do
        let now ← RepoProgram.clock
        (turn now).attempt fun
          | .keep answer => pure (.ok answer)
          | .write path value description answer => do
              let landed ← RepoProgram.landing self.repo refName
                (fun m store => self.repo.setJsonCas store refName head path
                  value (m.options self.agentId .plan description) m.fired
                  m.now) fun before => ⟨op, before, answer⟩
              settle answer (casLoop op refName turn left) landed

/-- A plan as `create_plan` writes it. -/
def newPlan (name : String) (description : Option String) (now : ℤ) : Plan where
  name := name
  description := description
  status := .active
  createdAt := now
  createdBy := self.agentId
  archivedAt := none
  summary := none
  closedAt := none
  closedBy := none

def createTurn (refName name : String) (description : Option String)
    (now : ℤ) : Call Id Turn :=
  (RepoProgram.query fun store =>
    self.planExists codec store refName name).attempt fun found =>
      pure (if found then .error (.planAlreadyExists name)
        else
          let plan := self.newPlan name description now
          writeTurn (codec.planToValue plan) (planMeta self.pre name)
            ("Create plan " ++ name) (.plan plan))

def archiveTurn (refName name : String) (now : ℤ) : Call Id Turn :=
  (RepoProgram.query fun store =>
    self.getPlan codec store refName name).attempt fun plan =>
      let plan := { plan with status := .archived, archivedAt := some now }
      pure (writeTurn (codec.planToValue plan) (planMeta self.pre name)
        ("Archive plan " ++ name) (.plan plan))

/-- The plan that closing makes of one whose tasks are all terminal. -/
def closedPlan (plan : Plan) (summary : String) (now : ℤ) : Plan :=
  { plan with
    status := .completed
    summary := some (trim summary)
    closedAt := some now
    closedBy := some self.agentId }

/-- The turn of `close_plan` once the tasks are read. -/
def closeWith (name summary : String) (plan : Plan) (now : ℤ)
    (tasks : List Task) : Except (TaskStoreError Id) Turn :=
  if tasks.isEmpty then .error (.cannotClose name "plan has no tasks")
  else
    match tasks.find? fun t => !t.status.isTerminal with
    | some t =>
        .error (.cannotClose name ("task " ++ t.id ++ " is still " ++
          t.status.debug ++ "; every task must be done or abandoned first"))
    | none =>
        let plan := self.closedPlan plan summary now
        writeTurn (codec.planToValue plan) (planMeta self.pre name)
          ("Close plan " ++ name) (.plan plan)

def closeTurn (refName name summary : String) (now : ℤ) : Call Id Turn :=
  (RepoProgram.query fun store =>
    self.getPlan codec store refName name).attempt fun plan =>
      match plan.status with
      | .completed => pure (.ok (.keep (.plan plan)))
      | .archived => pure (.error (.cannotClose name "plan is archived"))
      | .active =>
          (RepoProgram.query fun store =>
            self.listTasks codec store refName name).attempt fun tasks =>
              pure (self.closeWith codec name summary plan now tasks)

/-- A task as it is added. -/
def newTask (request : AddTask) (notes : Option String) (id : String)
    (now : ℤ) : Task where
  id := id
  title := request.title
  notes := notes
  status := .pending
  priority := request.priority
  parentId := request.parentId
  blockedBy := request.blockedBy
  createdAt := now
  createdBy := self.agentId
  startedAt := none
  startedBy := none
  completedAt := none
  completedBy := none
  proof := none
  abandonedAt := none
  abandonedReason := none
  assignedTo := request.assignedTo
  payload := request.payload
  parentChange := request.parentChange
  onComplete := request.onComplete

def addTurn (refName : String) (request : AddTask) (notes : Option String)
    (now : ℤ) : Call Id Turn :=
  (RepoProgram.query fun store =>
    self.nextTaskNumber store refName request.plan).attempt fun number =>
      let task := self.newTask request notes (TaskId.new number) now
      pure (writeTurn (codec.taskToValue task)
        (taskPath self.pre request.plan task.id)
        ("Add task " ++ request.plan ++ "/" ++ task.id) (.task task))

/-- A change of one task, given the time and the store. -/
abbrev TaskChange (Id : Type) [Digest Id] :=
  ℤ → Storage Id → Task → Except (TaskStoreError Id) Task

/-- A turn of `update_task`; the task goes where its own id says. -/
def updateTurn (refName plan id description : String) (change : TaskChange Id)
    (now : ℤ) : Call Id Turn :=
  (RepoProgram.query fun store =>
    self.getTask codec store refName plan id).attempt fun task =>
      (RepoProgram.query fun store => change now store task).attempt fun task =>
        pure (writeTurn (codec.taskToValue task) (taskPath self.pre plan task.id)
          description (.task task))

def startChange (refName plan : String) : TaskChange Id :=
  fun now store task => do
    checkTransition task.status .start
    let check ← self.classifyBlockers codec store refName plan task.blockedBy
    if !check.missing.isEmpty then .error (.blockerNotFound check.missing)
    else if !check.pending.isEmpty then .error (.blocked check.pending)
    else
      .ok { task with
        status := .inProgress
        startedAt := some now
        startedBy := some self.agentId }

def completeChange (proof : Proof) : TaskChange Id :=
  fun now _ task => do
    checkTransition task.status .complete
    .ok { task with
      status := .done
      proof := some proof
      completedAt := some now
      completedBy := some self.agentId }

def abandonChange (reason : String) : TaskChange Id :=
  fun now _ task => do
    checkTransition task.status .abandon
    .ok { task with
      status := .abandoned
      abandonedAt := some now
      abandonedReason := some reason }

/-- The change of `set_blockers`. -/
def blockersChange (refName plan : String) (blockers : List String) :
    TaskChange Id :=
  fun _ store task => do
    let tasks ← self.listTasks codec store refName plan
    match blockers.find? fun b => !tasks.any fun t => t.id = b with
    | some b => .error (.taskNotFound plan b)
    | none =>
        match blockerCycle tasks task.id blockers with
        | some cycle => .error (.blockerCycle cycle)
        | none => .ok { task with blockedBy := blockers }

/-- A change of fields that nothing is checked for. -/
def fieldChange (f : Task → Task) : TaskChange Id := fun _ _ task => .ok (f task)

/-! ## The calls -/

variable (refName : String)

def createPlan (name : String) (description : Option String) : Call Id Answer :=
  self.casLoop (.createPlan name description) refName
    (self.createTurn codec refName name description) MAX_CAS_RETRIES

def archivePlan (name : String) : Call Id Answer :=
  self.casLoop (.archivePlan name) refName (self.archiveTurn codec refName name)
    MAX_CAS_RETRIES

def closePlan (name summary : String) : Call Id Answer :=
  if isBlank summary then pure (.error .summaryRequired)
  else
    self.casLoop (.closePlan name summary) refName
      (self.closeTurn codec refName name summary) MAX_CAS_RETRIES

def deletePlan (name : String) : Call Id Answer :=
  (RepoProgram.query fun store =>
    self.planExists codec store refName name).attempt fun found =>
      if found then do
        let out ← RepoProgram.landing self.repo refName
          (fun m store => self.repo.delete store refName (planRoot self.pre name)
            (m.options self.agentId .plan ("Delete plan " ++ name)) m.now)
          fun before => ⟨.deletePlan name, before, .unit⟩
        match out with
        | .ok _ => pure (.ok .unit)
        | .error e => pure (.error (.repo e))
      else pure (.error (.planNotFound name))

/-- The checks of a new task's blockers, one read each. -/
def checkExist (plan : String) : List String → Call Id Unit
  | [] => pure (.ok ())
  | b :: bs =>
      (RepoProgram.query fun store =>
        self.getTask codec store refName plan b).attempt fun _ =>
          checkExist plan bs

/-- The check of a new task's parent. -/
def checkParent (plan : String) : Option String → Call Id Unit
  | none => pure (.ok ())
  | some parent =>
      (RepoProgram.query fun store =>
        self.getTask codec store refName plan parent).attempt fun task =>
          pure (if task.parentId.isSome then .error (.parentIsSubtask parent)
            else .ok ())

def addTask (request : AddTask) : Call Id Answer :=
  match normalizeNotes request.notes with
  | .error e => pure (.error e)
  | .ok notes =>
      (RepoProgram.query fun store =>
        self.planExists codec store refName request.plan).attempt fun found =>
          if found then
            (self.checkParent codec refName request.plan
              request.parentId).attempt fun _ =>
              match validateBlockerIds codec request.blockedBy with
              | .error e => pure (.error e)
              | .ok () =>
                  (self.checkExist codec refName request.plan
                    request.blockedBy).attempt fun _ =>
                    self.casLoop (.addTask request) refName
                      (self.addTurn codec refName request notes)
                      MAX_CAS_RETRIES
          else pure (.error (.planNotFound request.plan))

def updateTask (op : TaskOp) (plan id description : String)
    (change : TaskChange Id) : Call Id Answer :=
  self.casLoop op refName
    (self.updateTurn codec refName plan id description change) MAX_CAS_RETRIES

def startTask (plan id : String) : Call Id Answer :=
  self.updateTask codec refName (.startTask plan id) plan id
    ("Start " ++ plan ++ "/" ++ id) (self.startChange codec refName plan)

def completeTask (plan id : String) (proof : Proof) : Call Id Answer :=
  self.updateTask codec refName (.completeTask plan id proof) plan id
    ("Complete " ++ plan ++ "/" ++ id) (self.completeChange proof)

def abandonTask (plan id reason : String) : Call Id Answer :=
  if isBlank reason then pure (.error .reasonRequired)
  else
    self.updateTask codec refName (.abandonTask plan id reason) plan id
      ("Abandon " ++ plan ++ "/" ++ id) (abandonChange reason)

def setPriority (plan id : String) (priority : Priority) : Call Id Answer :=
  self.updateTask codec refName (.setPriority plan id priority) plan id
    ("Set priority " ++ priority.debug ++ " on " ++ plan ++ "/" ++ id)
    (fieldChange fun task => { task with priority := priority })

def setTitle (plan id title : String) : Call Id Answer :=
  if isBlank title then pure (.error .titleRequired)
  else
    self.updateTask codec refName (.setTitle plan id title) plan id
      ("Retitle " ++ plan ++ "/" ++ id)
      (fieldChange fun task => { task with title := title })

def setNotes (plan id : String) (notes : Option String) : Call Id Answer :=
  match normalizeNotes notes with
  | .error e => pure (.error e)
  | .ok stored =>
      self.updateTask codec refName (.setNotes plan id notes) plan id
        ((if stored.isSome then "Set notes on " else "Clear notes on ") ++ plan ++
          "/" ++ id)
        (fieldChange fun task => { task with notes := stored })

def setBlockers (plan id : String) (blockers : List String) : Call Id Answer :=
  match validateBlockerIds codec blockers with
  | .error e => pure (.error e)
  | .ok () =>
      self.updateTask codec refName (.setBlockers plan id blockers) plan id
        ("Update blockers on " ++ plan ++ "/" ++ id)
        (self.blockersChange codec refName plan blockers)

def assignTask (plan id agent : String) : Call Id Answer :=
  self.updateTask codec refName (.assignTask plan id agent) plan id
    ("Assign " ++ plan ++ "/" ++ id ++ " to " ++ agent)
    (fieldChange fun task => { task with assignedTo := some agent })

def unassignTask (plan id : String) : Call Id Answer :=
  self.updateTask codec refName (.unassignTask plan id) plan id
    ("Unassign " ++ plan ++ "/" ++ id)
    (fieldChange fun task => { task with assignedTo := none })

end TaskStore

/-- The call a write is. -/
def TaskOp.program (self : TaskStore) (refName : String) :
    TaskOp → TaskStore.Call Id Answer
  | .createPlan name description => self.createPlan codec refName name description
  | .archivePlan name => self.archivePlan codec refName name
  | .closePlan name summary => self.closePlan codec refName name summary
  | .deletePlan name => self.deletePlan codec refName name
  | .addTask request => self.addTask codec refName request
  | .startTask plan id => self.startTask codec refName plan id
  | .completeTask plan id proof => self.completeTask codec refName plan id proof
  | .abandonTask plan id reason => self.abandonTask codec refName plan id reason
  | .setPriority plan id priority =>
      self.setPriority codec refName plan id priority
  | .setTitle plan id title => self.setTitle codec refName plan id title
  | .setNotes plan id notes => self.setNotes codec refName plan id notes
  | .setBlockers plan id blockers =>
      self.setBlockers codec refName plan id blockers
  | .assignTask plan id agent => self.assignTask codec refName plan id agent
  | .unassignTask plan id => self.unassignTask codec refName plan id

end Tasks

end AgentStateGraph
