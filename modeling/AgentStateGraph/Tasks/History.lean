import AgentStateGraph.Tasks.Lifecycle

/-!
# What a landing does to plans and tasks

A landing of the task store takes the one plan or task that it writes forward,
and leaves the others as they are.  Whatever reads as a task stays under its
own id, with records that go with its status.
-/

namespace AgentStateGraph

open Program

variable {Id : Type} [Digest Id]

namespace Tasks

/-! ## What a branch reads -/

/-- The root of a branch's state. -/
def StateAt (ns refName : String) (s : Storage Id) (root : Id) : Prop :=
  ∃ head, s.refAt ns refName = some head ∧ s.rootOf head = some root

theorem StateAt.unique {ns refName : String} {s : Storage Id} {root root' : Id}
    (h : StateAt ns refName s root) (h' : StateAt ns refName s root') :
    root = root' := by
  obtain ⟨head, hhead, hroot⟩ := h
  obtain ⟨head', hhead', hroot'⟩ := h'
  obtain rfl : head = head' := Option.some.inj (hhead.symm.trans hhead')
  exact Option.some.inj (hroot.symm.trans hroot')

section Documents

variable {α : Type} (fromValue : Json → Except String α)
  (pre ns refName : String)

/-- A document of a plan, as a branch has it. -/
def DocumentAt (s : Storage Id) (plan key : String) (a : α) : Prop :=
  ∃ root value, StateAt ns refName s root ∧
    ReadsAt s.objects root (documentAt pre plan key) value ∧
    fromValue value = .ok a

variable {fromValue pre ns refName} {s t : Storage Id} {plan key : String}
  {a a' : α}

theorem DocumentAt.unique (h : DocumentAt fromValue pre ns refName s plan key a)
    (h' : DocumentAt fromValue pre ns refName s plan key a') : a = a' := by
  obtain ⟨root, value, hroot, hreads, hvalue⟩ := h
  obtain ⟨root', value', hroot', hreads', hvalue'⟩ := h'
  obtain rfl := hroot.unique hroot'
  obtain rfl := hreads.unique hreads'
  exact Except.ok.inj (hvalue.symm.trans hvalue')

end Documents

variable (codec : TaskCodec) (pre ns refName : String)

abbrev TaskAt (s : Storage Id) (plan id : String) (task : Task) : Prop :=
  DocumentAt codec.taskFromValue pre ns refName s plan id task

abbrev PlanAt (s : Storage Id) (name : String) (plan : Plan) : Prop :=
  DocumentAt codec.planFromValue pre ns refName s name META_KEY plan

/-- The path of a document parses, and is no secret's. -/
def Legible (plan key : String) : Prop :=
  (∃ p, StatePath.parse (taskPath pre plan key) = .ok p) ∧
    pathIsSecret (taskPath pre plan key) = false

variable {codec pre ns refName} {self : TaskStore}

/-- What reading a document of a plan returns. -/
theorem decode_getJson_iff {α : Type} {fromValue : Json → Except String α}
    {missing : TaskStoreError Id} {s : Storage Id} {plan key : String}
    (hplan : IsKey plan) (hkey : IsKey key)
    (hns : self.repo.activeNamespace ∈ s.namespaces) {head : Id}
    (hhead : s.refAt self.repo.activeNamespace refName = some head) {a : α} :
    decode fromValue missing (self.repo.getJson s refName
        (taskPath self.pre plan key)) = .ok a ↔
      Legible self.pre plan key ∧ DocumentAt fromValue self.pre
        self.repo.activeNamespace refName s plan key a := by
  rw [decode_eq_ok]
  constructor
  · rintro ⟨value, hread, hvalue⟩
    obtain ⟨hsecret, -, root, p, hroot, hp, hreads⟩ :=
      self.repo.getJson_eq_ok hhead hread
    rw [components_document hplan hkey hp] at hreads
    exact ⟨⟨⟨p, hp⟩, hsecret⟩, root, value, ⟨head, hhead, hroot⟩, hreads, hvalue⟩
  · rintro ⟨⟨⟨p, hp⟩, hsecret⟩, root, value, ⟨head', hhead', hroot⟩, hreads, hvalue⟩
    rw [← components_document hplan hkey hp] at hreads
    exact ⟨value, self.repo.getJson_of_readsAt hns hhead' hroot hp hsecret hreads,
      hvalue⟩

/-! ## The contract -/

variable (codec pre ns refName)

/-- What reads as a task is kept under its own id, and its records go with its
status. -/
def WellKept (objects : ObjectStore Id) (root : Id) : Prop :=
  ∀ plan key value task, IsKey plan → IsKey key →
    ReadsAt objects root (documentAt pre plan key) value →
    codec.taskFromValue value = .ok task →
    key ≠ META_KEY ∧ task.id = key ∧ task.life.Sound

/-- The branch is there, and its state is well kept whatever objects come. -/
structure Kept (s : Storage Id) : Prop where
  namespace_ : ns ∈ s.namespaces
  state : ∃ root, StateAt ns refName s root ∧
    ∀ view, s.objects ≤ view → WellKept codec pre view root

/-- The landing deletes the plan, or adds a task in the place of another. -/
def Undoes (l : Landing Id) (plan id : String) : Prop :=
  l.op = .deletePlan plan ∨
    ∃ request task old, l.op = .addTask request ∧ request.plan = plan ∧
      l.answer = .task task ∧ task.id = id ∧
      TaskAt codec pre ns refName l.before plan id old

/-- What some landings left of the plans and tasks went forward. -/
structure Forward (landings : List (Landing Id)) (s t : Storage Id) : Prop where
  tasks : ∀ plan id task, IsKey plan → IsKey id →
    (∀ l ∈ landings, ¬Undoes codec pre ns refName l plan id) →
    TaskAt codec pre ns refName s plan id task →
    ∃ task', TaskAt codec pre ns refName t plan id task' ∧
      task.life.Continues task'.life
  plans : ∀ name plan, IsKey name →
    (∀ l ∈ landings, l.op ≠ .deletePlan name) →
    PlanAt codec pre ns refName s name plan →
    ∃ plan', PlanAt codec pre ns refName t name plan' ∧ plan.Continues plan'

variable {codec pre ns refName}

theorem Forward.trans {new new' : List (Landing Id)} {s t u : Storage Id}
    (hst : Forward codec pre ns refName new s t)
    (htu : Forward codec pre ns refName new' t u) :
    Forward codec pre ns refName (new ++ new') s u where
  tasks := by
    intro plan id task hplan hid hkeeps htask
    obtain ⟨mid, hmid, hcont⟩ := hst.tasks plan id task hplan hid
      (fun l hl => hkeeps l (List.mem_append_left _ hl)) htask
    obtain ⟨last, hlast, hcont'⟩ := htu.tasks plan id mid hplan hid
      (fun l hl => hkeeps l (List.mem_append_right _ hl)) hmid
    exact ⟨last, hlast, hcont.trans hcont'⟩
  plans := by
    intro name plan hname hkeeps hplan
    obtain ⟨mid, hmid, hcont⟩ := hst.plans name plan hname
      (fun l hl => hkeeps l (List.mem_append_left _ hl)) hplan
    obtain ⟨last, hlast, hcont'⟩ := htu.plans name mid hname
      (fun l hl => hkeeps l (List.mem_append_right _ hl)) hmid
    exact ⟨last, hlast, hcont.trans hcont'⟩

theorem DocumentAt.expands {α : Type} {fromValue : Json → Except String α}
    {s t : Storage Id} {plan key : String} {a : α} (hexp : s.Expands t)
    (href : t.refAt ns refName = s.refAt ns refName)
    (h : DocumentAt fromValue pre ns refName s plan key a) :
    DocumentAt fromValue pre ns refName t plan key a := by
  obtain ⟨root, value, ⟨head, hhead, hroot⟩, hreads, hvalue⟩ := h
  exact ⟨root, value,
    ⟨head, href.trans hhead, Storage.rootOf_of_le hexp.commits hroot⟩,
    hreads.mono hexp.objects, hvalue⟩

theorem forward_of_refAt_eq {s t : Storage Id} (hexp : s.Expands t)
    (href : t.refAt ns refName = s.refAt ns refName) :
    Forward codec pre ns refName [] s t where
  tasks := fun _ _ task _ _ _ htask =>
    ⟨task, htask.expands hexp href, .refl _⟩
  plans := fun _ plan _ _ hplan => ⟨plan, hplan.expands hexp href, .refl _⟩

variable (codec pre ns refName)

/-- The branch only advances, and what its landings leave goes forward. -/
def contract : Contract (Traced Id (Landing Id)) where
  invariant s := Kept codec pre ns refName s.store
  guarantee s t := Storage.Advances ns refName s.store t.store ∧
    ∃ landings, t.trace = s.trace ++ landings ∧
      Forward codec pre ns refName landings s.store t.store
  refl s := ⟨.refl _, [], by simp, forward_of_refAt_eq (.refl _) rfl⟩
  trans := by
    rintro s t u ⟨hst, new, htrace, hforward⟩ ⟨htu, new', htrace', hforward'⟩
    exact ⟨hst.trans htu, new ++ new', by rw [htrace', htrace, List.append_assoc],
      hforward.trans hforward'⟩

variable {codec pre ns refName}

theorem serves (self : TaskStore) :
    Serves (contract codec self.pre self.repo.activeNamespace refName :
      Contract (Traced Id (Landing Id))) self refName where
  branch := by
    rintro s ⟨hns, root, ⟨head, hhead, -⟩, -⟩
    exact ⟨hns, head, hhead⟩
  advances := fun h => h.1
  stays := by
    rintro s t ⟨hns, root, ⟨head, hhead, hroot⟩, hkept⟩ hexp href htrace
    refine ⟨⟨hexp.namespaces ▸ hns, root, ⟨head, href.trans hhead,
      Storage.rootOf_of_le hexp.commits hroot⟩, ?_⟩,
      .of_refAt_eq hexp href, [], by simp [htrace], forward_of_refAt_eq hexp href⟩
    exact fun view hview => hkept view (hexp.objects.trans hview)

/-! ## What a landing changes -/

/-- A landing left the documents that it did not touch as they were. -/
structure Changes (pre ns refName : String) (touched : String → String → Prop)
    (s t : Storage Id) (root newRoot : Id) : Prop where
  expands : s.Expands t
  before : StateAt ns refName s root
  after : StateAt ns refName t newRoot
  frame : ∀ plan key, IsKey plan → IsKey key → ¬touched plan key →
    ∀ view, t.objects ≤ view → idAt view newRoot (documentAt pre plan key) =
      idAt view root (documentAt pre plan key)

section Changes

variable {touched : String → String → Prop} {root newRoot : Id}
  {s t : Traced Id (Landing Id)} {l : Landing Id}

variable {plan key : String} {head : Id} {p : StatePath}

theorem Changes.documentAt {α : Type} {fromValue : Json → Except String α}
    {s t : Storage Id} (h : Changes pre ns refName touched s t root newRoot)
    (hplan : IsKey plan) (hkey : IsKey key) (hother : ¬touched plan key) {a : α}
    (hdoc : DocumentAt fromValue pre ns refName s plan key a) :
    DocumentAt fromValue pre ns refName t plan key a := by
  obtain ⟨root', value, hroot, hreads, hvalue⟩ := hdoc
  obtain rfl := h.before.unique hroot
  exact ⟨newRoot, value, h.after, (hreads.mono h.expands.objects).of_idAt_eq
    (h.frame plan key hplan hkey hother _ le_rfl), hvalue⟩

/-- A landing keeps the contract when what it touched is well kept and went
forward. -/
theorem step_of_changes (hkept : Kept codec pre ns refName s.store)
    (hadvances : Storage.Advances ns refName s.store t.store)
    (htrace : t.trace = s.trace ++ [l])
    (h : Changes pre ns refName touched s.store t.store root newRoot)
    (hwell : ∀ plan key, touched plan key → ∀ view, t.store.objects ≤ view →
      ∀ value task, ReadsAt view newRoot (documentAt pre plan key) value →
        codec.taskFromValue value = .ok task →
        key ≠ META_KEY ∧ task.id = key ∧ task.life.Sound)
    (htasks : ∀ plan id task, touched plan id →
      ¬Undoes codec pre ns refName l plan id →
      TaskAt codec pre ns refName s.store plan id task →
      ∃ task', TaskAt codec pre ns refName t.store plan id task' ∧
        task.life.Continues task'.life)
    (hplans : ∀ name plan, touched name META_KEY → l.op ≠ .deletePlan name →
      PlanAt codec pre ns refName s.store name plan →
      ∃ plan', PlanAt codec pre ns refName t.store name plan' ∧
        plan.Continues plan') :
    (contract codec pre ns refName).invariant t ∧
      (contract codec pre ns refName).guarantee s t := by
  obtain ⟨hns, root', hroot, hviews⟩ := hkept
  obtain rfl := h.before.unique hroot
  refine ⟨⟨hadvances.expands.namespaces ▸ hns, newRoot, h.after, ?_⟩,
    hadvances, [l], htrace, ?_, ?_⟩
  · intro view hview plan key value task hplan hkey hreads hvalue
    by_cases htouched : touched plan key
    · exact hwell plan key htouched view hview value task hreads hvalue
    · refine hviews view (h.expands.objects.trans hview) plan key value task
        hplan hkey (hreads.of_idAt_eq ?_) hvalue
      exact (h.frame plan key hplan hkey htouched view hview).symm
  · intro plan id task hplan hid hkeeps htask
    by_cases htouched : touched plan id
    · exact htasks plan id task htouched (hkeeps l (by simp)) htask
    · exact ⟨task, h.documentAt hplan hid htouched htask, .refl _⟩
  · intro name plan hname hkeeps hplan
    by_cases htouched : touched name META_KEY
    · exact hplans name plan htouched (hkeeps l (by simp)) hplan
    · exact ⟨plan, h.documentAt hname isKey_META_KEY htouched hplan, .refl _⟩

/-- A document was written. -/
theorem changes_of_sets {s t : Storage Id} {value : Json}
    (h : Storage.Sets ns refName s t head root newRoot p value)
    (hp : p.components = Tasks.documentAt pre plan key) :
    Changes pre ns refName (fun plan' key' => plan' = plan ∧ key' = key) s t
      root newRoot where
  expands := h.lands.expands
  before := ⟨head, h.lands.before, h.rootOf⟩
  after := by
    obtain ⟨newHead, hhead, hroot, -⟩ := h.lands.after
    exact ⟨newHead, hhead, hroot⟩
  frame := by
    intro plan' key' _ _ hother view hview
    refine (h.sets.frame _ ?_ view hview).symm
    rw [hp]
    exact documentAt_disjoint fun hsame => hother ⟨hsame.1.symm, hsame.2.symm⟩

/-- A plan was deleted. -/
theorem changes_of_deletes {s t : Storage Id}
    (h : Storage.Deletes ns refName s t head root newRoot p)
    (hp : p.components = planAt pre plan) :
    Changes pre ns refName (fun plan' _ => plan' = plan) s t root newRoot where
  expands := h.lands.expands
  before := ⟨head, h.lands.before, h.rootOf⟩
  after := by
    obtain ⟨newHead, hhead, hroot, -⟩ := h.lands.after
    exact ⟨newHead, hhead, hroot⟩
  frame := by
    intro plan' key' _ _ hother view hview
    obtain ⟨objects, hdelete, hle⟩ := h.removed
    apply treeDelete_idAt hdelete (hle.trans hview)
    · rw [hp]
      exact planAt_disjoint (Ne.symm hother)
    · rw [hp]
      exact not_shiftsPath_planAt _

/-- Nothing is left of a deleted plan. -/
theorem not_readsAt_of_deletes {s t : Storage Id} {value : Json}
    (h : Storage.Deletes ns refName s t head root newRoot p)
    (hp : p.components = planAt pre plan) {view : ObjectStore Id}
    (hview : t.objects ≤ view) :
    ¬ReadsAt view newRoot (Tasks.documentAt pre plan key) value := by
  rintro ⟨x, o, hx, -⟩
  obtain ⟨objects, hdelete, hle⟩ := h.removed
  rw [documentAt, planAt, List.append_assoc] at hx
  exact Option.some_ne_none x
    (hx.symm.trans (treeDelete_idAt_self hp hdelete (hle.trans hview)))

end Changes

/-! ## The landings -/

theorem alone_query_eq_ok {α β : Type} {m : Moment}
    {f : Storage Id → Except (TaskStoreError Id) β}
    {g : β → TaskStore.Call Id α} {s : Traced Id (Landing Id)} {a : α}
    (h : (((RepoProgram.query f).attempt g).alone m s).1 = .ok a) :
    ∃ b, f s.store = .ok b ∧ ((g b).alone m s).1 = .ok a := by
  rw [RepoProgram.alone_query_attempt] at h
  split at h
  next b hb => exact ⟨b, hb, h⟩
  next => contradiction

omit [Digest Id] in
theorem writeTurn_eq_ok {value : Except String Json} {path description : String}
    {answer : Answer} {path' description' : String} {value' : Json}
    {answer' : Answer}
    (h : (TaskStore.writeTurn value path description answer :
      Except (TaskStoreError Id) TaskStore.Turn) =
        .ok (.write path' value' description' answer')) :
    value = .ok value' ∧ path = path' ∧ answer = answer' := by
  cases value <;> simp_all [TaskStore.writeTurn]

/-- The document of a plan or of a task that a landing wrote. -/
inductive Writes (codec : TaskCodec) (self : TaskStore) (refName : String)
    (op : TaskOp) (s : Storage Id) :
    String → Json → Answer → Prop where
  | plan {name plan value} (hname : IsKey name)
      (hvalue : codec.planToValue plan = .ok value)
      (hforward : ∀ old, PlanAt codec self.pre self.repo.activeNamespace refName
        s name old → old.Continues plan) :
      Writes codec self refName op s (planMeta self.pre name) value (.plan plan)
  | task {plan task value} (hplan : IsKey plan) (hkey : IsKey task.id)
      (hvalue : codec.taskToValue task = .ok value)
      (hmeta : task.id ≠ META_KEY) (hsound : task.life.Sound)
      (hforward : ∀ old, TaskAt codec self.pre self.repo.activeNamespace refName
        s plan task.id old → old.life.Continues task.life ∨
          ∃ request, op = .addTask request ∧ request.plan = plan) :
      Writes codec self refName op s (taskPath self.pre plan task.id) value
        (.task task)

section Turns

variable {s : Traced Id (Landing Id)} {path description : String} {value : Json}
  {answer : Answer} {m : Moment} {now : ℤ} {head root : Id}

/-- What a plan reads is the plan that is there. -/
theorem eq_of_getPlan {s : Storage Id} {name : String} {plan old : Plan}
    (hname : IsKey name) (hns : self.repo.activeNamespace ∈ s.namespaces)
    (hhead : s.refAt self.repo.activeNamespace refName = some head)
    (h : self.getPlan codec s refName name = .ok plan)
    (hold : PlanAt codec self.pre self.repo.activeNamespace refName s name old) :
    old = plan :=
  hold.unique ((decode_getJson_iff hname isKey_META_KEY hns hhead).mp h).2

theorem writes_createTurn {name : String} {about : Option String}
    (hname : IsKey name)
    (hns : self.repo.activeNamespace ∈ s.store.namespaces)
    (hhead : s.store.refAt self.repo.activeNamespace refName = some head)
    (hp : ∃ p, StatePath.parse (planMeta self.pre name) = .ok p)
    (h : ((self.createTurn codec refName name about now).alone m s).1 =
      .ok (.write path value description answer)) (op : TaskOp) :
    Writes codec self refName op s.store path value answer := by
  obtain ⟨found, hfound, h⟩ := alone_query_eq_ok h
  cases found with
  | true => contradiction
  | false =>
      obtain ⟨hvalue, rfl, rfl⟩ := writeTurn_eq_ok h
      refine .plan hname hvalue fun old hold => ?_
      -- what reads as a plan would have been found
      obtain ⟨q, hmissing⟩ := planExists_eq_false.mp hfound
      have hsecret := (Repository.getJson_pathNotFound hhead hmissing).1
      have hread : decode _ (.planNotFound name : TaskStoreError Id) _ = .ok _ :=
        (decode_getJson_iff hname isKey_META_KEY hns hhead).mpr
          ⟨⟨hp, hsecret⟩, hold⟩
      obtain ⟨value', hread, -⟩ := decode_eq_ok.mp hread
      rw [show taskPath self.pre name META_KEY = planMeta self.pre name from rfl,
        hmissing] at hread
      contradiction

theorem writes_archiveTurn {name : String} (hname : IsKey name)
    (hns : self.repo.activeNamespace ∈ s.store.namespaces)
    (hhead : s.store.refAt self.repo.activeNamespace refName = some head)
    (h : ((self.archiveTurn codec refName name now).alone m s).1 =
      .ok (.write path value description answer)) (op : TaskOp) :
    Writes codec self refName op s.store path value answer := by
  obtain ⟨plan, hplan, h⟩ := alone_query_eq_ok h
  obtain ⟨hvalue, rfl, rfl⟩ := writeTurn_eq_ok h
  refine .plan hname hvalue fun old hold => ?_
  obtain rfl := eq_of_getPlan hname hns hhead hplan hold
  refine ⟨⟨rfl, rfl, rfl, rfl⟩, ?_, fun _ => ⟨rfl, rfl, rfl⟩⟩
  cases old.status <;> simp [PlanStatus.rank]

theorem writes_closeTurn {name summary : String} (hname : IsKey name)
    (hns : self.repo.activeNamespace ∈ s.store.namespaces)
    (hhead : s.store.refAt self.repo.activeNamespace refName = some head)
    (h : ((self.closeTurn codec refName name summary now).alone m s).1 =
      .ok (.write path value description answer)) (op : TaskOp) :
    Writes codec self refName op s.store path value answer := by
  obtain ⟨plan, hplan, h⟩ := alone_query_eq_ok h
  cases hstatus : plan.status with
  | completed => simp [hstatus] at h
  | archived => simp [hstatus] at h
  | active =>
      rw [hstatus] at h
      obtain ⟨tasks, -, h⟩ := alone_query_eq_ok h
      simp only [alone_pure, TaskStore.closeWith] at h
      split at h
      next => contradiction
      next =>
        split at h
        next => contradiction
        next =>
          obtain ⟨hvalue, rfl, rfl⟩ := writeTurn_eq_ok h
          refine .plan hname hvalue fun old hold => ?_
          obtain rfl := eq_of_getPlan hname hns hhead hplan hold
          refine ⟨⟨rfl, rfl, rfl, rfl⟩, ?_, fun hne => absurd hstatus hne⟩
          simp [hstatus, PlanStatus.rank]

theorem writes_addTurn {request : AddTask} {notes : Option String}
    (hplan : IsKey request.plan)
    (h : ((self.addTurn codec refName request notes now).alone m s).1 =
      .ok (.write path value description answer)) :
    Writes codec self refName (.addTask request) s.store path value answer := by
  obtain ⟨number, -, h⟩ := alone_query_eq_ok h
  obtain ⟨hvalue, rfl, rfl⟩ := writeTurn_eq_ok h
  refine .task hplan (isKey_taskId number) hvalue (taskId_ne_META_KEY number) ?_
    fun _ _ => .inr ⟨request, rfl, rfl⟩
  constructor <;> simp [Task.life, TaskStore.newTask]

theorem writes_updateTurn {op : TaskOp} {plan id about : String}
    {change : TaskStore.TaskChange Id}
    (hop : op.update? codec self refName = some (plan, id, change))
    (hplan : IsKey plan) (hid : IsKey id)
    (hkept : Kept codec self.pre self.repo.activeNamespace refName s.store)
    (hhead : s.store.refAt self.repo.activeNamespace refName = some head)
    (h : ((self.updateTurn codec refName plan id about change now).alone m s).1 =
      .ok (.write path value description answer)) :
    Writes codec self refName op s.store path value answer := by
  obtain ⟨task, htask, h⟩ := alone_query_eq_ok h
  obtain ⟨task', hchange, h⟩ := alone_query_eq_ok h
  obtain ⟨hvalue, rfl, rfl⟩ := writeTurn_eq_ok h
  obtain ⟨-, hat⟩ :=
    (decode_getJson_iff hplan hid hkept.namespace_ hhead).mp htask
  have hdoc := hat
  obtain ⟨root, value', hroot, hreads, hdecode⟩ := hdoc
  obtain ⟨root', hroot', hviews⟩ := hkept.state
  obtain rfl := hroot.unique hroot'
  obtain ⟨hmeta, hown, hsound⟩ := hviews _ le_rfl plan id value' task hplan hid
    hreads hdecode
  obtain ⟨hcont, hkeeps⟩ := goesForward_update hop now s.store task task' hchange
  have hsame : task'.id = id := hcont.id.trans hown
  refine .task hplan (hsame ▸ hid) hvalue (hsame ▸ hmeta) (hkeeps hsound)
    fun old hold => .inl ?_
  rw [hsame] at hold
  obtain rfl := hold.unique hat
  exact hcont

end Turns

/-! ## Every interleaving -/

/-- The names of a write are keys. -/
def TaskOp.Plain : TaskOp → Prop
  | .createPlan name _ | .archivePlan name | .closePlan name _
  | .deletePlan name => IsKey name
  | .addTask request => IsKey request.plan
  | .startTask plan id | .completeTask plan id _ | .abandonTask plan id _
  | .setPriority plan id _ | .setTitle plan id _ | .setNotes plan id _
  | .setBlockers plan id _ | .assignTask plan id _ | .unassignTask plan id =>
      IsKey plan ∧ IsKey id

instance : DecidablePred TaskOp.Plain := fun op => by
  cases op <;> simp only [TaskOp.Plain] <;> infer_instance

theorem plain_of_update {op : TaskOp} {plan id : String}
    {change : TaskStore.TaskChange Id} (hplain : op.Plain)
    (h : op.update? codec self refName = some (plan, id, change)) :
    IsKey plan ∧ IsKey id := by
  cases op <;>
    simp only [TaskOp.update?, Option.some.injEq, Prod.mk.injEq, reduceCtorEq] at h
  case setNotes =>
    split at h
    next =>
      obtain ⟨rfl, rfl, -⟩ := Prod.mk.injEq .. ▸ Option.some.inj h
      exact hplain
    next => contradiction
  all_goals
    obtain ⟨rfl, rfl, -⟩ := h
    exact hplain

section Landings

variable {s t : Traced Id (Landing Id)} {op : TaskOp}

variable {head root newRoot : Id} {p : StatePath} {value : Json}

/-- What stands where a document was written is that document. -/
theorem eq_of_readsAt_sets {s t : Storage Id} {plan key : String}
    {value' : Json}
    (hsets : Storage.Sets ns refName s t head root newRoot p value)
    (hp : p.components = documentAt pre plan key)
    (hc : value.isCanonical = true) {view : ObjectStore Id}
    (hview : t.objects ≤ view)
    (h : ReadsAt view newRoot (documentAt pre plan key) value') :
    value' = value := by
  rw [← hp] at h
  exact h.unique ((hsets.sets.holds.readsAt hc).mono hview)

theorem documentAt_of_sets {α : Type} {fromValue : Json → Except String α}
    {s t : Storage Id} {plan key : String} {a : α}
    (hsets : Storage.Sets ns refName s t head root newRoot p value)
    (hp : p.components = documentAt pre plan key)
    (hc : value.isCanonical = true) (ha : fromValue value = .ok a) :
    DocumentAt fromValue pre ns refName t plan key a :=
  ⟨newRoot, value, (changes_of_sets hsets hp).after,
    hp ▸ hsets.sets.holds.readsAt hc, ha⟩

/-- A document that was written keeps the contract. -/
theorem step_of_writes {path : String} {answer : Answer}
    (hkept : Kept codec self.pre self.repo.activeNamespace refName s.store)
    (hp : StatePath.parse path = .ok p)
    (hsets : Storage.Sets self.repo.activeNamespace refName s.store t.store head
      root newRoot p value)
    (htrace : t.trace = s.trace ++ [⟨op, s.store, answer⟩])
    (h : Writes codec self refName op s.store path value answer) :
    (contract codec self.pre self.repo.activeNamespace refName).invariant t ∧
      (contract codec self.pre self.repo.activeNamespace refName).guarantee s t := by
  cases h with
  | @plan name plan value hname hvalue hforward =>
      have hpath := components_document hname isKey_META_KEY hp
      have hc := codec.planCanonical plan value hvalue
      refine step_of_changes hkept hsets.lands.advances htrace
        (changes_of_sets hsets hpath) ?_ ?_ ?_
      · rintro _ _ ⟨rfl, rfl⟩ view hview value' task hreads htask
        rw [eq_of_readsAt_sets hsets hpath hc hview hreads] at htask
        exact absurd htask (codec.planNotTask plan value task hvalue)
      · rintro _ _ task ⟨rfl, rfl⟩ - ⟨root', value', hroot', hreads, htask⟩
        obtain ⟨root'', hroot'', hviews⟩ := hkept.state
        obtain rfl := hroot'.unique hroot''
        exact absurd rfl (hviews _ le_rfl _ META_KEY value' task hname
          isKey_META_KEY hreads htask).1
      · rintro _ old ⟨rfl, -⟩ - hold
        exact ⟨plan, documentAt_of_sets hsets hpath hc
          (codec.planFromValue_planToValue plan value hvalue), hforward old hold⟩
  | @task plan task value hplan hkey hvalue hmeta hsound hforward =>
      have hpath := components_document hplan hkey hp
      have hc := codec.taskCanonical task value hvalue
      have hback := codec.taskFromValue_taskToValue task value hvalue
      refine step_of_changes hkept hsets.lands.advances htrace
        (changes_of_sets hsets hpath) ?_ ?_ ?_
      · rintro _ _ ⟨rfl, rfl⟩ view hview value' task' hreads htask
        rw [eq_of_readsAt_sets hsets hpath hc hview hreads, hback] at htask
        obtain rfl := Except.ok.inj htask
        exact ⟨hmeta, rfl, hsound⟩
      · rintro _ _ old ⟨rfl, rfl⟩ hkeeps hold
        refine ⟨task.stored, documentAt_of_sets hsets hpath hc hback, ?_⟩
        rcases hforward old hold with hcont | ⟨request, rfl, rfl⟩
        · exact hcont
        · exact absurd (.inr ⟨request, task, old, rfl, rfl, rfl, rfl, hold⟩) hkeeps
      · rintro _ _ ⟨-, hsame⟩
        exact absurd hsame.symm hmeta

/-- A landing keeps the contract. -/
theorem step_of_lands (hplain : op.Plain)
    (hkept : Kept codec self.pre self.repo.activeNamespace refName s.store)
    (h : OpLands codec self refName op s t) :
    (contract codec self.pre self.repo.activeNamespace refName).invariant t ∧
      (contract codec self.pre self.repo.activeNamespace refName).guarantee s t := by
  have hns := hkept.namespace_
  let m : Moment := ⟨fun _ => 0, "", "", []⟩
  cases h with
  | @createPlan name _ _ _ h =>
      obtain ⟨now, path, value, _, answer, head, root, newRoot, p, hturn, hp, hsets,
        htrace⟩ := h
      have hpath : path = planMeta self.pre name := by
        obtain ⟨found, -, h⟩ := alone_query_eq_ok (hturn m)
        cases found
        · exact (writeTurn_eq_ok h).2.1.symm
        · contradiction
      exact step_of_writes hkept hp hsets htrace (writes_createTurn hplain hns
        hsets.lands.before ⟨p, hpath ▸ hp⟩ (hturn m) _)
  | archivePlan h =>
      obtain ⟨now, path, value, _, answer, head, root, newRoot, p, hturn, hp, hsets,
        htrace⟩ := h
      exact step_of_writes hkept hp hsets htrace
        (writes_archiveTurn hplain hns hsets.lands.before (hturn m) _)
  | closePlan h =>
      obtain ⟨now, path, value, _, answer, head, root, newRoot, p, hturn, hp, hsets,
        htrace⟩ := h
      exact step_of_writes hkept hp hsets htrace
        (writes_closeTurn hplain hns hsets.lands.before (hturn m) _)
  | addTask h =>
      obtain ⟨now, path, value, _, answer, head, root, newRoot, p, hturn, hp, hsets,
        htrace⟩ := h
      exact step_of_writes hkept hp hsets htrace (writes_addTurn hplain (hturn m))
  | update hop h =>
      obtain ⟨now, path, value, _, answer, head, root, newRoot, p, hturn, hp, hsets,
        htrace⟩ := h
      obtain ⟨hplan, hid⟩ := plain_of_update hplain hop
      exact step_of_writes hkept hp hsets htrace
        (writes_updateTurn hop hplan hid hkept hsets.lands.before (hturn m))
  | deletePlan hp h htrace =>
      have hpath := components_planRoot hplain hp
      refine step_of_changes hkept h.lands.advances htrace
        (changes_of_deletes h hpath) ?_ ?_ ?_
      · rintro _ key rfl view hview value task hreads
        exact absurd hreads (not_readsAt_of_deletes h hpath hview)
      · rintro _ _ _ rfl hkeeps
        exact absurd (.inl rfl) hkeeps
      · rintro _ _ rfl hne
        exact absurd rfl hne

end Landings

end Tasks

end AgentStateGraph
