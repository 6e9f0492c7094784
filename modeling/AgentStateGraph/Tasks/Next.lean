import AgentStateGraph.Tasks.Turns

/-!
# The next task

The next task of a plan is the first of its ready tasks, by priority and then
by id.  Ids compare as text, and past the padding the text of a higher number
sorts before that of a lower one.
-/

namespace AgentStateGraph

variable {Id : Type} [Digest Id]

namespace Tasks

/-! ## The query -/

/-- `Ord` of `Priority`: the order of its constructors. -/
def Priority.rank : Priority → ℕ
  | .low => 0
  | .medium => 1
  | .high => 2
  | .critical => 3

/-- The task with the id is there and done. -/
def blockerSatisfied (tasks : List Task) (id : String) : Bool :=
  tasks.any fun t => t.id = id && t.status = .done

/-- The assignment filter of `next_task_for`. -/
def passesFilter (assignedTo : Option String) (includeUnassigned : Bool)
    (t : Task) : Bool :=
  match assignedTo with
  | none => true
  | some agent =>
      match t.assignedTo with
      | some a => a = agent
      | none => includeUnassigned

/-- Higher priority first, then the smaller id. -/
def comesFirst (a b : Task) : Bool :=
  b.priority.rank < a.priority.rank ||
    (a.priority.rank = b.priority.rank && a.id ≤ b.id)

/-- The pending tasks that pass the filter and wait for no blocker. -/
def candidates (tasks : List Task) (assignedTo : Option String)
    (includeUnassigned : Bool) : List Task :=
  ((tasks.filter fun t => t.status = .pending).filter fun t =>
    t.blockedBy.all (blockerSatisfied tasks)).filter
      (passesFilter assignedTo includeUnassigned)

namespace TaskStore

variable (codec : TaskCodec) (self : TaskStore)

def nextTaskFor (store : Storage Id) (refName plan : String)
    (assignedTo : Option String) (includeUnassigned : Bool) :
    Except (TaskStoreError Id) (Option Task) :=
  match self.listTasks codec store refName plan with
  | .error e => .error e
  | .ok tasks =>
      .ok ((candidates tasks assignedTo includeUnassigned).mergeSort
        comesFirst).head?

def nextTask (store : Storage Id) (refName plan : String) :
    Except (TaskStoreError Id) (Option Task) :=
  self.nextTaskFor codec store refName plan none true

/-- A task as `start_task` leaves it. -/
def startedTask (task : Task) (now : ℤ) : Task :=
  { task with
    status := .inProgress
    startedAt := some now
    startedBy := some self.agentId }

end TaskStore

/-! ## What the next task should be -/

/-- A pending task that passes the filter and whose blockers are all done. -/
structure Ready (tasks : List Task) (assignedTo : Option String)
    (includeUnassigned : Bool) (t : Task) : Prop where
  listed : t ∈ tasks
  pending : t.status = .pending
  unblocked : ∀ b ∈ t.blockedBy, ∃ d ∈ tasks, d.id = b ∧ d.status = .done
  passes : ∀ agent, assignedTo = some agent →
    t.assignedTo = some agent ∨ t.assignedTo = none ∧ includeUnassigned = true

/-- A ready task of the highest priority. -/
structure Foremost (tasks : List Task) (assignedTo : Option String)
    (includeUnassigned : Bool) (t : Task) : Prop where
  ready : Ready tasks assignedTo includeUnassigned t
  highest : ∀ u, Ready tasks assignedTo includeUnassigned u →
    u.priority.rank ≤ t.priority.rank

/-- The number of one id is at most that of another; an id without a number
comes after those with one. -/
def NumberLe (id other : String) : Prop :=
  ∀ n, TaskId.number other = some n →
    ∃ m, TaskId.number id = some m ∧ m ≤ n

/-- A foremost task with the lowest number of them. -/
structure Rightful (tasks : List Task) (assignedTo : Option String)
    (includeUnassigned : Bool) (t : Task) : Prop where
  foremost : Foremost tasks assignedTo includeUnassigned t
  lowest : ∀ u, Foremost tasks assignedTo includeUnassigned u →
    NumberLe t.id u.id

/-- A plan as the store keeps it: each task is the document under its id. -/
structure KeptPlan (codec : TaskCodec) (handle : TaskStore) (refName : String)
    (store : Storage Id) where
  plan : String
  tasks : List Task
  listed : handle.listTasks codec store refName plan = .ok tasks
  kept : ∀ t ∈ tasks, handle.getTask codec store refName plan t.id = .ok t

/-- `start_task` has nothing against a task: when the repository takes the
write, the task is started. -/
def Startable (codec : TaskCodec) (handle : TaskStore) (refName : String)
    (store : Storage Id) (plan : String) (t : Task) : Prop :=
  ∀ (m : Moment) (trace : List (Landing Id)) (value : Json) (head id : Id),
    codec.taskToValue (handle.startedTask t (m.now 0)) = .ok value →
    handle.repo.resolveRef store refName = .ok head →
    (handle.repo.setJsonCas store refName head (taskPath handle.pre plan t.id)
      value (m.options handle.agentId .plan ("Start " ++ plan ++ "/" ++ t.id))
      m.fired m.now).1 = .ok id →
    ((handle.startTask codec refName plan t.id).alone m ⟨store, trace⟩).1 =
      .ok (.task (handle.startedTask t (m.now 0)))

/-- What `next_task_for` is for. -/
structure RightNext (codec : TaskCodec) (handle : TaskStore) (refName : String)
    (store : Storage Id) (p : KeptPlan codec handle refName store)
    (assignedTo : Option String) (includeUnassigned : Bool)
    (next : Option Task) : Prop where
  found : next.isSome ↔ ∃ t, Ready p.tasks assignedTo includeUnassigned t
  rightful : ∀ t, next = some t →
    Rightful p.tasks assignedTo includeUnassigned t
  startable : ∀ t, next = some t →
    Startable codec handle refName store p.plan t

/-! ## Selection -/

section Selection

variable {tasks : List Task} {assignedTo : Option String}
  {includeUnassigned : Bool}

theorem blockerSatisfied_iff {b : String} :
    blockerSatisfied tasks b = true ↔
      ∃ d ∈ tasks, d.id = b ∧ d.status = .done := by
  simp [blockerSatisfied]

theorem passesFilter_iff {t : Task} :
    passesFilter assignedTo includeUnassigned t = true ↔
      ∀ agent, assignedTo = some agent → t.assignedTo = some agent ∨
        t.assignedTo = none ∧ includeUnassigned = true := by
  cases assignedTo with
  | none => simp [passesFilter]
  | some agent => cases ha : t.assignedTo <;> simp [passesFilter, ha]

/-- The candidates are the ready tasks. -/
theorem mem_candidates {t : Task} :
    t ∈ candidates tasks assignedTo includeUnassigned ↔
      Ready tasks assignedTo includeUnassigned t := by
  simp only [candidates, List.mem_filter, List.all_eq_true, decide_eq_true_eq,
    blockerSatisfied_iff, passesFilter_iff]
  constructor
  · rintro ⟨⟨⟨hlisted, hpending⟩, hunblocked⟩, hpasses⟩
    exact ⟨hlisted, hpending, hunblocked, hpasses⟩
  · rintro ⟨hlisted, hpending, hunblocked, hpasses⟩
    exact ⟨⟨⟨hlisted, hpending⟩, hunblocked⟩, hpasses⟩

theorem comesFirst_iff {a b : Task} :
    comesFirst a b = true ↔ b.priority.rank < a.priority.rank ∨
      a.priority.rank = b.priority.rank ∧ a.id ≤ b.id := by
  simp [comesFirst]

theorem comesFirst_trans (a b c : Task) (hab : comesFirst a b = true)
    (hbc : comesFirst b c = true) : comesFirst a c = true := by
  rw [comesFirst_iff] at hab hbc ⊢
  rcases hab with hab | ⟨hab, habId⟩
  · rcases hbc with hbc | ⟨hbc, -⟩
    · exact Or.inl (hbc.trans hab)
    · exact Or.inl (hbc ▸ hab)
  · rcases hbc with hbc | ⟨hbc, hbcId⟩
    · exact Or.inl (hab ▸ hbc)
    · exact Or.inr ⟨hab.trans hbc, String.le_trans habId hbcId⟩

theorem comesFirst_total (a b : Task) :
    (comesFirst a b || comesFirst b a) = true := by
  rw [Bool.or_eq_true, comesFirst_iff, comesFirst_iff]
  rcases Nat.lt_trichotomy a.priority.rank b.priority.rank with h | h | h
  · exact Or.inr (Or.inl h)
  · rcases String.le_total a.id b.id with hid | hid
    · exact Or.inl (Or.inr ⟨h, hid⟩)
    · exact Or.inr (Or.inr ⟨h.symm, hid⟩)
  · exact Or.inl (Or.inl h)

/-- The head of a sorted list is one of it and comes first. -/
theorem head?_mergeSort {l : List Task} {t : Task}
    (h : (l.mergeSort comesFirst).head? = some t) :
    t ∈ l ∧ ∀ u ∈ l, comesFirst t u = true := by
  have hperm := List.mergeSort_perm l comesFirst
  have hsorted := List.pairwise_mergeSort comesFirst_trans comesFirst_total l
  obtain ⟨rest, hrest⟩ := List.head?_eq_some_iff.mp h
  rw [hrest] at hperm hsorted
  refine ⟨hperm.mem_iff.mp List.mem_cons_self, ?_⟩
  intro u hu
  rcases List.mem_cons.mp (hperm.mem_iff.mpr hu) with rfl | hu
  · have htotal := comesFirst_total u u
    simpa using htotal
  · exact (List.pairwise_cons.mp hsorted).1 u hu

theorem head?_mergeSort_isSome {l : List Task} :
    (l.mergeSort comesFirst).head?.isSome ↔ ∃ t, t ∈ l := by
  rw [List.isSome_head?, ← List.length_pos_iff, List.length_mergeSort]
  exact List.length_pos_iff_exists_mem

/-- What the query returns is a foremost task with the smallest text. -/
theorem foremost_of_head {t : Task}
    (h : ((candidates tasks assignedTo includeUnassigned).mergeSort
      comesFirst).head? = some t) :
    Foremost tasks assignedTo includeUnassigned t ∧
      ∀ u, Foremost tasks assignedTo includeUnassigned u → t.id ≤ u.id := by
  obtain ⟨hmem, hfirst⟩ := head?_mergeSort h
  have hready := mem_candidates.mp hmem
  have hforemost : Foremost tasks assignedTo includeUnassigned t := by
    refine ⟨hready, fun u hu => ?_⟩
    rcases comesFirst_iff.mp (hfirst u (mem_candidates.mpr hu)) with hlt | ⟨heq, -⟩
    · exact hlt.le
    · exact heq.ge
  refine ⟨hforemost, fun u hu => ?_⟩
  rcases comesFirst_iff.mp (hfirst u (mem_candidates.mpr hu.ready)) with
    hlt | ⟨-, hid⟩
  · exact absurd (hu.highest t hready) (not_le.mpr hlt)
  · exact hid

end Selection

/-! ## Starting what was returned -/

section Starting

open Program

theorem alone_query_ok {α β : Type} {m : Moment}
    {f : Storage Id → Except (TaskStoreError Id) β}
    {g : β → TaskStore.Call Id α} {s : Traced Id (Landing Id)} {b : β}
    (h : f s.store = .ok b) :
    ((RepoProgram.query f).attempt g).alone m s = (g b).alone m s := by
  simp only [attempt, RepoProgram.query, alone_bind, alone_read, h]

variable {codec : TaskCodec} {self : TaskStore} {refName : String}
  {store : Storage Id}

/-- Of the tasks of a kept plan, those with one id are one. -/
theorem KeptPlan.eq_of_id (p : KeptPlan codec self refName store) {t u : Task}
    (ht : t ∈ p.tasks) (hu : u ∈ p.tasks) (h : t.id = u.id) : t = u := by
  have hread := p.kept t ht
  rw [h, p.kept u hu] at hread
  exact (Except.ok.inj hread).symm

/-- What `next_task_for` takes for satisfied `start_task` does not hold
against a task. -/
theorem KeptPlan.checkBlockers_eq (p : KeptPlan codec self refName store)
    {blockers : List String}
    (h : ∀ b ∈ blockers, ∃ d ∈ p.tasks, d.id = b ∧ d.status = .done) :
    checkBlockers p.tasks blockers = ⟨[], []⟩ := by
  have hfind : ∀ b ∈ blockers, ∃ d, d.status = .done ∧
      (p.tasks.find? fun t => t.id = b) = some d := by
    intro b hb
    obtain ⟨d, hd, rfl, hdone⟩ := h b hb
    cases hfound : p.tasks.find? fun t => t.id = d.id with
    | none => exact absurd (List.find?_eq_none.mp hfound d hd) (by simp)
    | some e =>
        have hid : e.id = d.id := by simpa using List.find?_some hfound
        have he := p.eq_of_id (List.mem_of_find?_eq_some hfound) hd hid
        exact ⟨d, hdone, by rw [he]⟩
  simp only [checkBlockers, BlockerCheck.mk.injEq]
  constructor
  · apply List.filter_eq_nil_iff.mpr
    intro b hb
    obtain ⟨d, -, hfound⟩ := hfind b hb
    simp [hfound]
  · apply List.filter_eq_nil_iff.mpr
    intro b hb
    obtain ⟨d, hdone, hfound⟩ := hfind b hb
    simp [hfound, hdone]

/-- The change of `start_task` goes through on a ready task. -/
theorem KeptPlan.startChange_eq (p : KeptPlan codec self refName store)
    {assignedTo : Option String} {includeUnassigned : Bool} {t : Task}
    (h : Ready p.tasks assignedTo includeUnassigned t) (now : ℤ) :
    self.startChange codec refName p.plan now store t =
      .ok (self.startedTask t now) := by
  have hcheck : self.classifyBlockers codec store refName p.plan t.blockedBy =
      .ok ⟨[], []⟩ := by
    unfold TaskStore.classifyBlockers
    split
    next => rfl
    next =>
      simp only [p.listed]
      rw [p.checkBlockers_eq h.unblocked]
  simp only [TaskStore.startChange, h.pending, checkTransition, hcheck,
    Except.ok_bind]
  rfl

theorem KeptPlan.startable (p : KeptPlan codec self refName store)
    {assignedTo : Option String} {includeUnassigned : Bool} {t : Task}
    (h : Ready p.tasks assignedTo includeUnassigned t) :
    Startable codec self refName store p.plan t := by
  intro m trace value head id hvalue hhead hset
  have hget := p.kept t h.listed
  have hchange := p.startChange_eq h (m.now 0)
  have hturn : (self.updateTurn codec refName p.plan t.id
        ("Start " ++ p.plan ++ "/" ++ t.id)
        (self.startChange codec refName p.plan) (m.now 0)).alone m
        (⟨store, trace⟩ : Traced Id (Landing Id)) =
      (.ok (.write (taskPath self.pre p.plan t.id) value
        ("Start " ++ p.plan ++ "/" ++ t.id)
        (.task (self.startedTask t (m.now 0)))), ⟨store, trace⟩) := by
    unfold TaskStore.updateTurn
    rw [alone_query_ok hget, alone_query_ok hchange, alone_pure, hvalue]
    rfl
  have hlift : (liftRepo (self.repo.resolveRef store refName) :
      Except (TaskStoreError Id) Id) = .ok head := by
    rw [hhead]
    rfl
  have hloop : (self.startTask codec refName p.plan t.id :
      TaskStore.Call Id Answer) =
      self.casLoop (.startTask p.plan t.id) refName
        (self.updateTurn codec refName p.plan t.id
          ("Start " ++ p.plan ++ "/" ++ t.id)
          (self.startChange codec refName p.plan)) (31 + 1) := rfl
  rw [hloop, TaskStore.casLoop, alone_query_ok hlift, alone_bind]
  simp only [RepoProgram.clock, alone_read, attempt, alone_bind, hturn,
    RepoProgram.landing, alone_call, hset, TaskStore.settle, alone_pure]

end Starting

/-! ## The right one -/

section

variable {codec : TaskCodec} {self : TaskStore} {refName : String}
  {store : Storage Id}

/-- The query returns the right task exactly when, of the ready tasks of the
highest priority, one with the lowest number also comes first as text. -/
theorem nextTaskFor_right_iff (p : KeptPlan codec self refName store)
    (assignedTo : Option String) (includeUnassigned : Bool) :
    (∃ next, self.nextTaskFor codec store refName p.plan assignedTo
        includeUnassigned = .ok next ∧
      RightNext codec self refName store p assignedTo includeUnassigned next) ↔
    ∀ t, Foremost p.tasks assignedTo includeUnassigned t →
      ∃ u, Rightful p.tasks assignedTo includeUnassigned u ∧
        ∀ v, Foremost p.tasks assignedTo includeUnassigned v → u.id ≤ v.id := by
  have hquery : self.nextTaskFor codec store refName p.plan assignedTo
      includeUnassigned = .ok ((candidates p.tasks assignedTo
        includeUnassigned).mergeSort comesFirst).head? := by
    simp only [TaskStore.nextTaskFor, p.listed]
  have hfound : ((candidates p.tasks assignedTo includeUnassigned).mergeSort
      comesFirst).head?.isSome ↔
      ∃ t, Ready p.tasks assignedTo includeUnassigned t := by
    rw [head?_mergeSort_isSome]
    exact exists_congr fun t => mem_candidates
  constructor
  · rintro ⟨next, hnext, hright⟩ t ht
    rw [hquery, Except.ok.injEq] at hnext
    subst hnext
    obtain ⟨u, hu⟩ := Option.isSome_iff_exists.mp (hfound.mpr ⟨t, ht.ready⟩)
    exact ⟨u, hright.rightful u hu, (foremost_of_head hu).2⟩
  · intro h
    refine ⟨_, hquery, hfound, ?_, ?_⟩
    · intro t ht
      obtain ⟨hforemost, htext⟩ := foremost_of_head ht
      obtain ⟨u, hu, hfirst⟩ := h t hforemost
      have hsame : t.id = u.id :=
        String.le_antisymm (htext u hu.foremost) (hfirst t hforemost)
      refine ⟨hforemost, ?_⟩
      rw [hsame]
      exact hu.lowest
    · intro t ht
      exact p.startable (foremost_of_head ht).1.ready

end

namespace PastThePadding

/-- A pending task of medium priority with no fields set. -/
def task (id : String) : Task where
  id := id
  title := "Work"
  notes := none
  status := .pending
  priority := .medium
  parentId := none
  blockedBy := []
  createdAt := 0
  createdBy := "agent"
  startedAt := none
  startedBy := none
  completedAt := none
  completedBy := none
  proof := none
  abandonedAt := none
  abandonedReason := none
  assignedTo := none
  payload := none
  parentChange := none
  onComplete := none

def document (id : String) : Json :=
  .object [("abandoned_at", .null), ("abandoned_reason", .null),
    ("blocked_by", .array []), ("completed_at", .null), ("completed_by", .null),
    ("created_at", .string "1970-01-01T00:00:00Z"),
    ("created_by", .string "agent"), ("id", .string id), ("parent_id", .null),
    ("priority", .string "medium"), ("proof", .null), ("started_at", .null),
    ("started_by", .null), ("status", .string "pending"),
    ("title", .string "Work")]

/-- Reads such documents, and writes nothing. -/
def codec : TaskCodec where
  planToValue _ := .error "unsupported"
  planFromValue _ := .error "unsupported"
  taskToValue _ := .error "unsupported"
  taskFromValue value :=
    match value.get "id" with
    | some (.string id) => .ok (task id)
    | _ => .error "missing field"
  planCanonical _ _ h := by contradiction
  taskCanonical _ _ h := by contradiction
  planFromValue_planToValue _ _ h := by contradiction
  taskFromValue_taskToValue _ _ h := by contradiction
  planFields _ _ h := by contradiction
  planNotTask _ _ _ h := by contradiction
  isDecimal := Char.isDigit
  isDecimal_slash := rfl

def plan : List (String × Json) :=
  [(META_KEY, .object [("archived_at", .null),
      ("created_at", .string "1970-01-01T00:00:00Z"),
      ("created_by", .string "agent"), ("description", .null),
      ("name", .string "p"), ("status", .string "active")]),
    ("t-1000", document "t-1000"), ("t-999", document "t-999")]

def tree : Json := .object [("plans", .object [("p", .object plan)])]

def store : Storage ContentKey := ContentKey.documentStore tree

def tasks : TaskStore := .new .new "/plans" "agent"

theorem holdsAt_plan : HoldsAt store.objects
    (ContentKey.documentCommit tree).stateRoot [.key "plans", .key "p"]
    (.object plan) := by
  have hplans := (ContentKey.holdsAt_documentStore tree).field (by decide)
    List.mem_cons_self
  exact hplans.field (by decide) List.mem_cons_self

theorem getTask_store {id : String} (h : (id, document id) ∈ plan)
    (hp : StatePath.parse (taskPath "/plans" "p" id) =
      .ok ⟨[.key "plans", .key "p", .key id]⟩)
    (hpath : pathIsSecret (taskPath "/plans" "p" id) = false)
    (hc : (document id).isCanonical = true) :
    tasks.getTask codec store "main" "p" id = .ok (task id) := by
  have hfield : HoldsAt store.objects (ContentKey.documentCommit tree).stateRoot
      [.key "plans", .key "p", .key id] (document id) :=
    holdsAt_plan.field (by decide) h
  have hread := ContentKey.getJson_documentStore hp hpath hc hfield
  unfold TaskStore.getTask
  exact decode_eq_ok.mpr ⟨document id, hread, rfl⟩

/-- The plan with the tasks 999 and 1000. -/
def kept : KeptPlan codec tasks "main" store where
  plan := "p"
  tasks := [task "t-1000", task "t-999"]
  listed := by
    apply listTasks_eq_ok.mpr
    refine ⟨.object plan, _, ContentKey.getJson_documentStore rfl (by decide)
      (by decide) holdsAt_plan, rfl, ?_⟩
    have hsorted : [task "t-1000", task "t-999"].Pairwise
        fun a b => decide (a.id ≤ b.id) = true := by decide
    have hsort := List.mergeSort_of_pairwise hsorted
    exact congrArg Except.ok hsort
  kept := by
    intro t ht
    rcases List.mem_cons.mp ht with rfl | ht
    · exact getTask_store (by simp [plan, task]) (by decide) (by decide) (by decide)
    · rw [List.mem_singleton.mp ht]
      exact getTask_store (by simp [plan, task]) (by decide) (by decide) (by decide)

/-- Task 1000 is returned before task 999. -/
theorem next_is_later : tasks.nextTask codec store "main" "p" =
    .ok (some (task "t-1000")) := by
  have hcandidates : candidates kept.tasks none true = kept.tasks := rfl
  have hsorted : kept.tasks.Pairwise fun a b => comesFirst a b = true := by decide
  simp only [TaskStore.nextTask, TaskStore.nextTaskFor]
  rw [show tasks.listTasks codec store "main" "p" = .ok kept.tasks from kept.listed]
  simp only [hcandidates, List.mergeSort_of_pairwise hsorted]
  rfl

theorem ready {t : Task} (ht : t ∈ kept.tasks) (hpending : t.status = .pending)
    (hblocked : t.blockedBy = []) : Ready kept.tasks none true t where
  listed := ht
  pending := hpending
  unblocked := by simp [hblocked]
  passes := by simp

/-- The next of the tasks 999 and 1000 is not the right one. -/
theorem not_rightNext : ¬∃ next, tasks.nextTaskFor codec store "main" kept.plan
    none true = .ok next ∧
      RightNext codec tasks "main" store kept none true next := by
  rintro ⟨next, hnext, hright⟩
  have hreturned : tasks.nextTaskFor codec store "main" kept.plan none true =
      .ok (some (task "t-1000")) := next_is_later
  rw [hreturned, Except.ok.injEq] at hnext
  have hlow : Foremost kept.tasks none true (task "t-999") := by
    refine ⟨ready (by simp [kept]) rfl rfl, fun u hu => ?_⟩
    rcases List.mem_cons.mp hu.listed with rfl | hu
    · exact le_refl _
    · rw [List.mem_singleton.mp hu]
  obtain ⟨m, hm, hle⟩ := (hright.rightful _ hnext.symm).lowest _ hlow 999 (by decide)
  have hnumber : TaskId.number "t-1000" = some 1000 := by decide
  have hsame : some m = some 1000 := hm.symm.trans hnumber
  rw [Option.some.inj hsame] at hle
  omega

end PastThePadding

end Tasks

end AgentStateGraph
