import AgentStateGraph.Tasks.Store

/-!
# What a write of the task store lands

Between the reads of a loop and its write others may write, but what lands was
made of the state it lands on.  So a landing is one step from a state to the
next, and a property of every run follows from what each landing does to it.
-/

namespace AgentStateGraph

open Program RepoProgram

variable {Id : Type} [Digest Id]

namespace Tasks

variable {codec : TaskCodec} {self : TaskStore} {refName : String}

/-! ## Reads that stay -/

omit [Digest Id] in
theorem decode_eq_ok {α : Type} {fromValue : Json → Except String α}
    {missing : TaskStoreError Id} {r : Except (RepoError Id) Json} {a : α} :
    decode fromValue missing r = .ok a ↔
      ∃ value, r = .ok value ∧ fromValue value = .ok a := by
  cases r with
  | error e => simp [decode]
  | ok value => cases hvalue : fromValue value <;> simp [decode, hvalue]

theorem stable_decode {α : Type} (fromValue : Json → Except String α)
    (missing : TaskStoreError Id) (path : String) :
    StableRead self.repo refName fun store : Storage Id =>
      decode fromValue missing (self.repo.getJson store refName path) := by
  intro s t a hsame h
  obtain ⟨value, hread, hvalue⟩ := decode_eq_ok.mp h
  exact decode_eq_ok.mpr ⟨value, hsame.getJson hread, hvalue⟩

theorem stable_getPlan (name : String) :
    StableRead self.repo refName fun store : Storage Id =>
      self.getPlan codec store refName name :=
  stable_decode _ _ _

theorem stable_getTask (plan id : String) :
    StableRead self.repo refName fun store : Storage Id =>
      self.getTask codec store refName plan id :=
  stable_decode _ _ _

section

variable {store : Storage Id}

theorem planExists_eq_true {name : String} :
    self.planExists codec store refName name = .ok true ↔
      ∃ plan, self.getPlan codec store refName name = .ok plan := by
  unfold TaskStore.planExists
  split <;> simp_all

/-- A plan is taken not to exist only when its metadata is missing. -/
theorem planExists_eq_false {name : String} :
    self.planExists codec store refName name = .ok false ↔
      ∃ q, self.repo.getJson store refName (planMeta self.pre name) =
        .error (.tree (.pathNotFound q)) := by
  unfold TaskStore.planExists TaskStore.getPlan
  cases hread : self.repo.getJson store refName (planMeta self.pre name) with
  | ok value =>
      cases hvalue : codec.planFromValue value <;> simp [decode, hvalue]
  | error e =>
      simp only [decode, Except.error.injEq]
      cases e with
      | tree e =>
          cases e <;> simp [isPathNotFound]
      | _ => simp [isPathNotFound]

theorem stable_planExists (name : String) :
    StableRead self.repo refName fun store : Storage Id =>
      self.planExists codec store refName name := by
  intro s t found hsame h
  cases found with
  | true =>
      obtain ⟨plan, hplan⟩ := planExists_eq_true.mp h
      exact planExists_eq_true.mpr ⟨plan, stable_getPlan name s t plan hsame hplan⟩
  | false =>
      obtain ⟨q, hq⟩ := planExists_eq_false.mp h
      exact planExists_eq_false.mpr ⟨q, hsame.getJson_pathNotFound hq⟩

theorem listTasks_eq_ok {plan : String} {tasks : List Task} :
    self.listTasks codec store refName plan = .ok tasks ↔
      ∃ root metadata,
        self.repo.getJson store refName (planRoot self.pre plan) = .ok root ∧
        root.get META_KEY = some metadata ∧
        (tasksFromTree codec root : Except (TaskStoreError Id) _) = .ok tasks := by
  unfold TaskStore.listTasks
  cases hread : self.repo.getJson store refName (planRoot self.pre plan) with
  | error e => simp
  | ok root =>
      cases hmeta : root.get META_KEY with
      | none => simp [hmeta]
      | some metadata => simp [hmeta]

theorem stable_listTasks (plan : String) :
    StableRead self.repo refName fun store : Storage Id =>
      self.listTasks codec store refName plan := by
  intro s t tasks hsame h
  obtain ⟨root, metadata, hread, hmeta, htasks⟩ := listTasks_eq_ok.mp h
  exact listTasks_eq_ok.mpr
    ⟨root, metadata, hsame.getJson hread, hmeta, htasks⟩

theorem nextTaskNumber_eq_ok {plan : String} {n : ℕ}
    (h : self.nextTaskNumber store refName plan = .ok n) :
    ∃ leaves, self.repo.listPaths store refName (planRoot self.pre plan) none =
      .ok leaves := by
  unfold TaskStore.nextTaskNumber TaskStore.taskIds at h
  cases hread : self.repo.listPaths store refName (planRoot self.pre plan)
    none with
  | error e => simp [hread] at h
  | ok leaves => exact ⟨leaves, rfl⟩

end

theorem stable_nextTaskNumber (plan : String) :
    StableRead self.repo refName fun store : Storage Id =>
      self.nextTaskNumber store refName plan := by
  intro s t n hsame h
  obtain ⟨leaves, hread⟩ := nextTaskNumber_eq_ok h
  have hread' := hsame.listPaths hread
  simpa only [TaskStore.nextTaskNumber, TaskStore.taskIds, hread, hread'] using h

theorem stable_classifyBlockers (plan : String) (blockers : List String) :
    StableRead self.repo refName fun store : Storage Id =>
      self.classifyBlockers codec store refName plan blockers := by
  intro s t check hsame h
  simp only [TaskStore.classifyBlockers] at h ⊢
  split at h
  next hempty => rwa [if_pos hempty]
  next hempty =>
    rw [if_neg hempty]
    cases htasks : self.listTasks codec s refName plan with
    | error e => simp [htasks] at h
    | ok tasks =>
        have htasks' := stable_listTasks plan s t tasks hsame htasks
        simpa only [htasks, htasks'] using h

/-- What a change makes of a task it makes as long as the ref stays. -/
def StableChange (self : TaskStore) (refName : String)
    (change : TaskStore.TaskChange Id) : Prop :=
  ∀ now task, StableRead self.repo refName fun store => change now store task

theorem stable_startChange (plan : String) :
    StableChange self refName
      (self.startChange codec refName plan : TaskStore.TaskChange Id) := by
  intro now task s t task' hsame h
  refine Except.bind_mono (fun _ hcheck => hcheck) ?_ h
  intro _ h
  refine Except.bind_mono ?_ (fun _ hrest => hrest) h
  intro check hcheck
  exact stable_classifyBlockers plan task.blockedBy s t check hsame hcheck

theorem stable_completeChange (proof : Proof) :
    StableChange self refName
      (self.completeChange proof : TaskStore.TaskChange Id) :=
  fun _ _ _ _ _ _ h => h

theorem stable_abandonChange (reason : String) :
    StableChange self refName
      (TaskStore.abandonChange reason : TaskStore.TaskChange Id) :=
  fun _ _ _ _ _ _ h => h

theorem stable_fieldChange (f : Task → Task) :
    StableChange self refName
      (TaskStore.fieldChange f : TaskStore.TaskChange Id) :=
  fun _ _ _ _ _ _ h => h

theorem stable_blockersChange (plan : String) (blockers : List String) :
    StableChange self refName (self.blockersChange codec refName plan blockers :
      TaskStore.TaskChange Id) := by
  intro now task s t task' hsame h
  refine Except.bind_mono ?_ (fun _ hrest => hrest) h
  intro tasks htasks
  exact stable_listTasks plan s t tasks hsame htasks

/-! ## The turns only read -/

theorem reader_createTurn (name : String) (description : Option String)
    (now : ℤ) :
    Reader self.repo refName
      (self.createTurn codec refName name description now :
        TaskStore.Call Id TaskStore.Turn) :=
  .ask (stable_planExists name) fun _ => .pure _

theorem reader_archiveTurn (name : String) (now : ℤ) :
    Reader self.repo refName
      (self.archiveTurn codec refName name now :
        TaskStore.Call Id TaskStore.Turn) :=
  .ask (stable_getPlan name) fun _ => .pure _

theorem reader_closeTurn (name summary : String) (now : ℤ) :
    Reader self.repo refName
      (self.closeTurn codec refName name summary now :
        TaskStore.Call Id TaskStore.Turn) := by
  refine .ask (stable_getPlan name) fun plan => ?_
  cases plan.status with
  | active => exact .ask (stable_listTasks name) fun _ => .pure _
  | completed => exact .pure _
  | archived => exact .pure _

theorem reader_addTurn (request : AddTask) (notes : Option String) (now : ℤ) :
    Reader self.repo refName
      (self.addTurn codec refName request notes now :
        TaskStore.Call Id TaskStore.Turn) :=
  .ask (stable_nextTaskNumber request.plan) fun _ => .pure _

theorem reader_updateTurn {change : TaskStore.TaskChange Id}
    (hchange : StableChange self refName change) (plan id description : String)
    (now : ℤ) :
    Reader self.repo refName
      (self.updateTurn codec refName plan id description change now) :=
  .ask (stable_getTask plan id) fun task =>
    .ask (hchange now task) fun _ => .pure _

/-! ## Landings -/

/-- A contract that says where the ref is, and lets nothing else matter while
the ref stays. -/
structure Serves (C : Contract (Traced Id (Landing Id))) (handle : TaskStore)
    (refName : String) : Prop where
  branch : ∀ {s}, C.invariant s →
    handle.repo.activeNamespace ∈ s.store.namespaces ∧
      ∃ head, s.store.refAt handle.repo.activeNamespace refName = some head
  advances : ∀ {s t}, C.guarantee s t →
    Storage.Advances handle.repo.activeNamespace refName s.store t.store
  stays : ∀ {s t : Traced Id (Landing Id)}, C.invariant s →
    s.store.Expands t.store →
    t.store.refAt handle.repo.activeNamespace refName =
      s.store.refAt handle.repo.activeNamespace refName →
    t.trace = s.trace → C.invariant t ∧ C.guarantee s t

/-- One loop landed what its turn makes of the state before. -/
def LandsBy (self : TaskStore) (refName : String) (op : TaskOp)
    (turn : ℤ → TaskStore.Call Id TaskStore.Turn)
    (s t : Traced Id (Landing Id)) : Prop :=
  ∃ now path value description answer head root newRoot p,
    (∀ m, ((turn now).alone m s).1 =
      .ok (.write path value description answer)) ∧
    StatePath.parse path = .ok p ∧
    Storage.Sets self.repo.activeNamespace refName s.store t.store head root
      newRoot p value ∧
    t.trace = s.trace ++ [⟨op, s.store, answer⟩]

section Loops

variable {C : Contract (Traced Id (Landing Id))}

variable {s : Traced Id (Landing Id)}

theorem Serves.refAt_of_resolveRef (hC : Serves C self refName)
    (hs : C.invariant s) {head : Id}
    (h : (liftRepo (self.repo.resolveRef s.store refName) :
      Except (TaskStoreError Id) _) = .ok head) :
    s.store.refAt self.repo.activeNamespace refName = some head := by
  obtain ⟨hns, head', hhead⟩ := hC.branch hs
  rw [self.repo.resolveRef_of_refAt hns hhead] at h
  simp only [liftRepo, Except.ok.injEq] at h
  rw [hhead, h]

theorem safe_settle {answer : Answer} {again : TaskStore.Call Id Answer}
    (hagain : Steady C again s) (out : Except (RepoError Id) Id) :
    Steady C (TaskStore.settle answer again out) s := by
  unfold TaskStore.settle
  split
  next => exact steady_pure _
  next => exact hagain
  next => exact steady_pure _

/-- The compare-and-swap of a loop, when the turn is known to make the document
wherever the ref is at the head it read. -/
theorem safe_put (hC : Serves C self refName) {op : TaskOp}
    {turn : ℤ → TaskStore.Call Id TaskStore.Turn} {now : ℤ}
    {path description : String} {value : Json} {answer : Answer} {head : Id}
    {again : TaskStore.Call Id Answer} (hturn : ∀ t, C.guarantee s t →
      t.store.refAt self.repo.activeNamespace refName = some head →
      ∀ m, ((turn now).alone m t).1 =
        .ok (.write path value description answer))
    (hlands : ∀ t u, C.guarantee s t → C.invariant t →
      LandsBy self refName op turn t u → C.invariant u ∧ C.guarantee t u)
    (hagain : ∀ t, C.guarantee s t → Steady C again t) :
    Steady C (RepoProgram.landing self.repo refName
      (fun m store => self.repo.setJsonCas store refName head path value
        (m.options self.agentId .plan description) m.fired m.now)
      (fun before => (⟨op, before, answer⟩ : Landing Id)) >>=
        TaskStore.settle answer again) s := by
  refine safe_landing fun m t hst ht out hout => ?_
  have hstep : C.invariant (landed self.repo refName t out.2
        fun before => ⟨op, before, answer⟩) ∧
      C.guarantee t (landed self.repo refName t out.2
        fun before => ⟨op, before, answer⟩) := by
    have hcases := self.repo.setJsonCas_sets t.store refName head path value
      (m.options self.agentId .plan description) m.fired m.now
    rw [hout] at hcases
    rcases hcases with hrefused | ⟨root, newRoot, p, hp, hsets⟩
    · rw [landed_of_refAt_eq hrefused.refAt]
      exact hC.stays ht hrefused.expands hrefused.refAt rfl
    · rw [landed_of_refAt_ne hsets.moved]
      exact hlands t _ hst ht ⟨now, path, value, description, answer, head, root,
        newRoot, p, hturn t hst hsets.lands.before, hp, hsets, rfl⟩
  refine ⟨hstep.1, hstep.2, safe_settle ?_ out.1⟩
  exact hagain _ (C.trans hst hstep.2)

/-- A loop of reads and a guarded write keeps a contract that its landings
keep. -/
theorem safe_casLoop (hC : Serves C self refName) {op : TaskOp}
    {turn : ℤ → TaskStore.Call Id TaskStore.Turn}
    (hreader : ∀ now, Reader self.repo refName (turn now)) (left : ℕ)
    (hlands : ∀ t u, C.guarantee s t → C.invariant t →
      LandsBy self refName op turn t u → C.invariant u ∧ C.guarantee t u) :
    Steady C (self.casLoop op refName turn left) s := by
  induction left generalizing s with
  | zero => exact steady_pure _
  | succ left ih =>
      refine safe_query_attempt (fun _ _ => trivial) ?_
      intro s₁ h₁ hinv₁ head hread
      have hhead := hC.refAt_of_resolveRef hinv₁ hread
      refine safe_read fun m s₂ h₂ hinv₂ => ?_
      have hturn := (hreader (m.now 0)).safe hC.advances hhead h₂
      refine safe_attempt (fun _ _ => trivial)
        (hturn.imp fun r t ht _ hpost => And.intro ht hpost) ?_ hinv₂
      rintro decision t hinv ⟨h₃, hpost⟩
      have hst : C.guarantee s t := C.trans h₁ (C.trans h₂ h₃)
      cases decision with
      | keep answer => exact steady_pure _
      | write path value description answer =>
          have hmade : ∀ u, C.guarantee t u →
              u.store.refAt self.repo.activeNamespace refName = some head →
              ∀ m', ((turn (m.now 0)).alone m' u).1 =
                .ok (.write path value description answer) :=
            fun u hu hback m' => hpost _ rfl m' u hu hback
          refine safe_put hC hmade ?_ ?_
          · intro u v hu
            exact hlands u v (C.trans hst hu)
          · intro u hu
            apply ih
            intro v w hv
            exact hlands v w (C.trans hst (C.trans hu hv))

/-- The task that an update names, what is written to the log, and the
change. -/
def TaskOp.update? (codec : TaskCodec) (handle : TaskStore) (refName : String) :
    TaskOp → Option (String × String × TaskStore.TaskChange Id)
  | .startTask plan id => some (plan, id, handle.startChange codec refName plan)
  | .completeTask plan id proof => some (plan, id, handle.completeChange proof)
  | .abandonTask plan id reason =>
      some (plan, id, TaskStore.abandonChange reason)
  | .setPriority plan id priority =>
      some (plan, id, TaskStore.fieldChange fun task =>
        { task with priority := priority })
  | .setTitle plan id title =>
      some (plan, id, TaskStore.fieldChange fun task =>
        { task with title := title })
  | .setNotes plan id notes =>
      match (normalizeNotes notes : Except (TaskStoreError Id) _) with
      | .ok stored => some (plan, id, TaskStore.fieldChange fun task =>
          { task with notes := stored })
      | .error _ => none
  | .setBlockers plan id blockers =>
      some (plan, id, handle.blockersChange codec refName plan blockers)
  | .assignTask plan id agent =>
      some (plan, id, TaskStore.fieldChange fun task =>
        { task with assignedTo := some agent })
  | .unassignTask plan id =>
      some (plan, id, TaskStore.fieldChange fun task =>
        { task with assignedTo := none })
  | _ => none

/-- What the landing of a write does. -/
inductive OpLands (codec : TaskCodec) (handle : TaskStore) (refName : String) :
    TaskOp → Traced Id (Landing Id) → Traced Id (Landing Id) → Prop where
  | createPlan {name description s t}
      (h : LandsBy handle refName (.createPlan name description)
        (handle.createTurn codec refName name description) s t) :
      OpLands codec handle refName (.createPlan name description) s t
  | archivePlan {name s t}
      (h : LandsBy handle refName (.archivePlan name)
        (handle.archiveTurn codec refName name) s t) :
      OpLands codec handle refName (.archivePlan name) s t
  | closePlan {name summary s t}
      (h : LandsBy handle refName (.closePlan name summary)
        (handle.closeTurn codec refName name summary) s t) :
      OpLands codec handle refName (.closePlan name summary) s t
  | deletePlan {name s t head root newRoot p}
      (path : StatePath.parse (planRoot handle.pre name) = .ok p)
      (h : Storage.Deletes handle.repo.activeNamespace refName s.store t.store
        head root newRoot p)
      (trace : t.trace = s.trace ++ [⟨.deletePlan name, s.store, .unit⟩]) :
      OpLands codec handle refName (.deletePlan name) s t
  | addTask {request notes s t}
      (h : LandsBy handle refName (.addTask request)
        (handle.addTurn codec refName request notes) s t) :
      OpLands codec handle refName (.addTask request) s t
  | update {op plan id change description s t}
      (hop : op.update? codec handle refName = some (plan, id, change))
      (h : LandsBy handle refName op
        (handle.updateTurn codec refName plan id description change) s t) :
      OpLands codec handle refName op s t

theorem safe_updateTask (hC : Serves C self refName) {op : TaskOp}
    {plan id : String} {change : TaskStore.TaskChange Id}
    (hop : op.update? codec self refName = some (plan, id, change))
    (hchange : StableChange self refName change) (description : String)
    (hlands : ∀ t u, C.guarantee s t → C.invariant t →
      OpLands codec self refName op t u → C.invariant u ∧ C.guarantee t u) :
    Steady C (self.updateTask codec refName op plan id description change) s :=
  safe_casLoop hC (reader_updateTurn hchange plan id description) _
    fun t u hst ht h => hlands t u hst ht (.update hop h)

theorem safe_deletePlan (hC : Serves C self refName) (name : String)
    (hlands : ∀ t u, C.guarantee s t → C.invariant t →
      OpLands codec self refName (.deletePlan name) t u →
      C.invariant u ∧ C.guarantee t u) :
    Steady C (self.deletePlan codec refName name) s := by
  refine safe_query_attempt (fun _ _ => trivial) ?_
  intro s₁ h₁ hinv₁ found hread
  cases found with
  | false => exact steady_pure _
  | true =>
      refine safe_landing fun m t hst ht out hout => ?_
      have hstep : C.invariant (landed self.repo refName t out.2
            fun before => ⟨.deletePlan name, before, .unit⟩) ∧
          C.guarantee t (landed self.repo refName t out.2
            fun before => ⟨.deletePlan name, before, .unit⟩) := by
        obtain ⟨-, head, hhead⟩ := hC.branch ht
        have hcases := self.repo.delete_deletes hhead (planRoot self.pre name)
          (m.options self.agentId .plan ("Delete plan " ++ name)) m.now
        rw [hout] at hcases
        rcases hcases with hrefused | ⟨root, newRoot, p, hp, hdel⟩
        · rw [landed_of_refAt_eq hrefused.refAt]
          exact hC.stays ht hrefused.expands hrefused.refAt rfl
        · rw [landed_of_refAt_ne hdel.moved]
          exact hlands t _ (C.trans h₁ hst) ht
            (.deletePlan hp hdel rfl)
      refine ⟨hstep.1, hstep.2, ?_⟩
      cases out.1 with
      | ok _ => exact steady_pure _
      | error _ => exact steady_pure _

theorem steady_checkParent (plan : String) (parent : Option String) :
    Steady C (self.checkParent codec refName plan parent) s := by
  cases parent with
  | none => exact steady_pure _
  | some parent =>
      exact safe_query_attempt (fun _ _ => trivial) fun _ _ _ _ _ => steady_pure _

theorem steady_checkExist (plan : String) (blockers : List String) :
    Steady C (self.checkExist codec refName plan blockers) s := by
  induction blockers generalizing s with
  | nil => exact steady_pure _
  | cons b bs ih => exact safe_query_attempt (fun _ _ => trivial) fun _ _ _ _ _ => ih

theorem safe_addTask (hC : Serves C self refName) (request : AddTask)
    (hlands : ∀ t u, C.guarantee s t → C.invariant t →
      OpLands codec self refName (.addTask request) t u →
      C.invariant u ∧ C.guarantee t u) :
    Steady C (self.addTask codec refName request) s := by
  unfold TaskStore.addTask
  split
  next => exact steady_pure _
  next notes _ =>
    refine safe_query_attempt (fun _ _ => trivial) ?_
    intro s₁ h₁ hinv₁ found hread
    cases found with
    | false => exact steady_pure _
    | true =>
        refine safe_attempt (fun _ _ => trivial)
          ((steady_checkParent request.plan request.parentId).imp
            fun _ _ ht _ _ => ht) ?_ hinv₁
        intro _ s₂ hinv₂ h₂
        split
        next => exact steady_pure _
        next =>
          refine safe_attempt (fun _ _ => trivial)
            ((steady_checkExist request.plan request.blockedBy).imp
              fun _ _ ht _ _ => ht) ?_ hinv₂
          intro _ s₃ hinv₃ h₃
          refine safe_casLoop hC (reader_addTurn request notes) _ ?_
          intro t u hst ht hland
          exact hlands t u (C.trans h₁ (C.trans h₂ (C.trans h₃ hst))) ht
            (.addTask hland)

/-- A write keeps a contract that its landings keep. -/
theorem safe_program (hC : Serves C self refName) (op : TaskOp)
    (hlands : ∀ t u, C.guarantee s t → C.invariant t →
      OpLands codec self refName op t u → C.invariant u ∧ C.guarantee t u) :
    Steady C (op.program codec self refName) s := by
  cases op with
  | createPlan name description =>
      exact safe_casLoop hC (reader_createTurn name description) _
        fun t u hst ht h => hlands t u hst ht (.createPlan h)
  | archivePlan name =>
      exact safe_casLoop hC (reader_archiveTurn name) _
        fun t u hst ht h => hlands t u hst ht (.archivePlan h)
  | closePlan name summary =>
      simp only [TaskOp.program, TaskStore.closePlan]
      split
      next => exact steady_pure _
      next =>
        exact safe_casLoop hC (reader_closeTurn name summary) _
          fun t u hst ht h => hlands t u hst ht (.closePlan h)
  | deletePlan name => exact safe_deletePlan hC name hlands
  | addTask request => exact safe_addTask hC request hlands
  | startTask plan id =>
      exact safe_updateTask hC rfl (stable_startChange plan) _ hlands
  | completeTask plan id proof =>
      exact safe_updateTask hC rfl (stable_completeChange proof) _ hlands
  | abandonTask plan id reason =>
      simp only [TaskOp.program, TaskStore.abandonTask]
      split
      next => exact steady_pure _
      next => exact safe_updateTask hC rfl (stable_abandonChange reason) _ hlands
  | setPriority plan id priority =>
      exact safe_updateTask hC rfl (stable_fieldChange _) _ hlands
  | setTitle plan id title =>
      simp only [TaskOp.program, TaskStore.setTitle]
      split
      next => exact steady_pure _
      next => exact safe_updateTask hC rfl (stable_fieldChange _) _ hlands
  | setNotes plan id notes =>
      simp only [TaskOp.program, TaskStore.setNotes]
      split
      next => exact steady_pure _
      next stored hstored =>
        refine safe_updateTask hC ?_ (stable_fieldChange _) _ hlands
        simp only [TaskOp.update?, hstored]
  | setBlockers plan id blockers =>
      simp only [TaskOp.program, TaskStore.setBlockers]
      split
      next => exact steady_pure _
      next =>
        exact safe_updateTask hC rfl (stable_blockersChange plan blockers) _
          hlands
  | assignTask plan id agent =>
      exact safe_updateTask hC rfl (stable_fieldChange _) _ hlands
  | unassignTask plan id =>
      exact safe_updateTask hC rfl (stable_fieldChange _) _ hlands

end Loops

end Tasks

end AgentStateGraph
