import AgentStateGraph.Tasks.History

/-!
# Runs of the task store

Any number of task stores write under one prefix of one branch, step by step in
any order.  Between two states of such a run every task and every plan that is
not deleted in between has only gone forward.
-/

namespace AgentStateGraph

open Program

variable {Id : Type} [Digest Id]

namespace Tasks

/-! ## Runs -/

section Runs

variable {W : Type} [DecidableEq W]

/-- Stores that write under the prefix and in the namespace of a reader, the
state of whose branch is there in full and is well kept. -/
structure Shared (codec : TaskCodec) (stores : W → TaskStore)
    (ops : W → TaskOp) (reader : TaskStore) (refName : String)
    (store : Storage Id) : Prop where
  sameNamespace : ∀ w,
    (stores w).repo.activeNamespace = reader.repo.activeNamespace
  samePrefix : ∀ w, (stores w).pre = reader.pre
  plain : ∀ w, (ops w).Plain
  namespace_ : reader.repo.activeNamespace ∈ store.namespaces
  state : ∃ root, StateAt reader.repo.activeNamespace refName store root ∧
    store.objects.Complete root ∧
    WellKept codec reader.pre store.objects root

/-- Nobody has moved. -/
def start (codec : TaskCodec) (stores : W → TaskStore) (ops : W → TaskOp)
    (refName : String) (store : Storage Id) :
    Config W Moment (Traced Id (Landing Id))
      (Except (TaskStoreError Id) Answer) :=
  ⟨⟨store, []⟩, fun w => (ops w).program codec (stores w) refName⟩

variable {codec : TaskCodec} {stores : W → TaskStore} {ops : W → TaskOp}
  {reader : TaskStore} {refName : String} {store : Storage Id}

omit [DecidableEq W] in
theorem Shared.start_holds
    (h : Shared codec stores ops reader refName store) :
    (start codec stores ops refName store).Holds
      (contract codec reader.pre reader.repo.activeNamespace refName)
      fun _ _ _ => True := by
  refine ⟨⟨h.namespace_, ?_⟩, fun w => ?_⟩
  · obtain ⟨root, hroot, hwhole, hkept⟩ := h.state
    refine ⟨root, hroot, fun view hview => ?_⟩
    intro plan key value task hplan hkey hreads
    exact hkept plan key value task hplan hkey (hreads.of_complete hwhole hview)
  · rw [← h.sameNamespace w, ← h.samePrefix w]
    exact safe_program (serves (stores w)) (ops w)
      fun t u _ ht hland => step_of_lands (h.plain w) ht hland

/-- What holds between two states of a run. -/
theorem Shared.between (h : Shared codec stores ops reader refName store)
    (before after : List (W × Moment)) :
    let mid := (start codec stores ops refName store).run before
    let fin := mid.run after
    Kept codec reader.pre reader.repo.activeNamespace refName
        mid.shared.store ∧
      Kept codec reader.pre reader.repo.activeNamespace refName
        fin.shared.store ∧
      Forward codec reader.pre reader.repo.activeNamespace refName
        (fin.shared.trace.drop mid.shared.trace.length) mid.shared.store
        fin.shared.store := by
  intro mid fin
  have hmid := (Config.holds_run h.start_holds before).1
  obtain ⟨hfin, -, landings, htrace, hforward⟩ := Config.holds_run hmid after
  refine ⟨hmid.1, hfin.1, ?_⟩
  rw [show fin.shared.trace = mid.shared.trace ++ landings from htrace,
    List.drop_left]
  exact hforward

/-- In every state that a run reaches, what reads as a task has the id that it
is read by, and the records that its status calls for and no others. -/
theorem getTask_sound (codec : TaskCodec) (stores : W → TaskStore)
    (ops : W → TaskOp) (reader : TaskStore) (refName : String)
    (store : Storage Id) (h : Shared codec stores ops reader refName store)
    (schedule : List (W × Moment)) {plan id : String} {task : Task}
    (hplan : IsKey plan) (hid : IsKey id)
    (hread : reader.getTask codec
      ((start codec stores ops refName store).run schedule).shared.store refName
      plan id = .ok task) :
    task.id = id ∧ task.life.Sound := by
  obtain ⟨hns, root, ⟨head, hhead, hroot⟩, hkept⟩ := (h.between schedule []).1
  obtain ⟨-, root', value, hroot', hreads, hvalue⟩ :=
    (decode_getJson_iff hplan hid hns hhead).mp hread
  obtain rfl := StateAt.unique ⟨head, hhead, hroot⟩ hroot'
  exact (hkept _ le_rfl plan id value task hplan hid hreads hvalue).2

/-- Between two states that a run reaches a task only goes forward: along the
moves of the state machine, keeping all that is recorded of its end once it is
done or abandoned.  Only a landing that deletes its plan, or adds another task
in its place, undoes that. -/
theorem tasks_go_forward (codec : TaskCodec) (stores : W → TaskStore)
    (ops : W → TaskOp) (reader : TaskStore) (refName : String)
    (store : Storage Id) (h : Shared codec stores ops reader refName store)
    (before after : List (W × Moment)) {plan id : String} {task : Task}
    (hplan : IsKey plan) (hid : IsKey id) :
    let mid := (start codec stores ops refName store).run before
    let fin := mid.run after
    reader.getTask codec mid.shared.store refName plan id = .ok task →
    (∀ l ∈ fin.shared.trace.drop mid.shared.trace.length,
      ¬Undoes codec reader.pre reader.repo.activeNamespace refName l plan id) →
    ∃ task', reader.getTask codec fin.shared.store refName plan id = .ok task' ∧
      task.life.Continues task'.life := by
  intro mid fin hread hkeeps
  obtain ⟨hmid, hfin, hforward⟩ := h.between before after
  obtain ⟨hns, root, ⟨head, hhead, hroot⟩, -⟩ := hmid
  obtain ⟨hns', root', ⟨head', hhead', hroot'⟩, -⟩ := hfin
  obtain ⟨hlegible, hat⟩ := (decode_getJson_iff hplan hid hns hhead).mp hread
  obtain ⟨task', hat', hcont⟩ := hforward.tasks plan id task hplan hid hkeeps hat
  exact ⟨task', (decode_getJson_iff hplan hid hns' hhead').mpr ⟨hlegible, hat'⟩,
    hcont⟩

/-- Between two states that a run reaches a plan that no landing deletes only
goes forward: from active to completed to archived, with what it was made with,
and once it is closed with the records of that. -/
theorem plans_go_forward (codec : TaskCodec) (stores : W → TaskStore)
    (ops : W → TaskOp) (reader : TaskStore) (refName : String)
    (store : Storage Id) (h : Shared codec stores ops reader refName store)
    (before after : List (W × Moment)) {name : String} {plan : Plan}
    (hname : IsKey name) :
    let mid := (start codec stores ops refName store).run before
    let fin := mid.run after
    reader.getPlan codec mid.shared.store refName name = .ok plan →
    (∀ l ∈ fin.shared.trace.drop mid.shared.trace.length,
      l.op ≠ .deletePlan name) →
    ∃ plan', reader.getPlan codec fin.shared.store refName name = .ok plan' ∧
      plan.Continues plan' := by
  intro mid fin hread hkeeps
  obtain ⟨hmid, hfin, hforward⟩ := h.between before after
  obtain ⟨hns, root, ⟨head, hhead, hroot⟩, -⟩ := hmid
  obtain ⟨hns', root', ⟨head', hhead', hroot'⟩, -⟩ := hfin
  obtain ⟨hlegible, hat⟩ :=
    (decode_getJson_iff hname isKey_META_KEY hns hhead).mp hread
  obtain ⟨plan', hat', hcont⟩ := hforward.plans name plan hname hkeeps hat
  exact ⟨plan', (decode_getJson_iff hname isKey_META_KEY hns' hhead').mpr
    ⟨hlegible, hat'⟩, hcont⟩

end Runs

/-! ## A run -/

namespace Started

/-- A pending task of medium priority with no fields set. -/
def pending : Task where
  id := "t-1"
  title := "Work"
  notes := none
  status := .pending
  priority := .medium
  parentId := none
  blockedBy := []
  createdAt := 0
  createdBy := "agent"
  startedAt := none
  startedBy := none
  completedAt := none
  completedBy := none
  proof := none
  abandonedAt := none
  abandonedReason := none
  assignedTo := none
  payload := none
  parentChange := none
  onComplete := none

def started : Task :=
  { pending with
    status := .inProgress, startedAt := some 0, startedBy := some "agent" }

def active : Plan := ⟨"p", none, .active, 0, "agent", none, none, none, none⟩

def archived : Plan :=
  { active with status := .archived, archivedAt := some 0 }

def document (status : String) : Json := .object [("status", .string status)]

/-- Writes and reads these two plans and tasks. -/
def codec : TaskCodec where
  planToValue plan :=
    if plan = archived then .ok (document "archived") else .error "unsupported"
  planFromValue value :=
    match value.get "status" with
    | some (.string "active") => .ok active
    | some (.string "archived") => .ok archived
    | _ => .error "missing field"
  taskToValue task :=
    match task with
    | ⟨"t-1", "Work", none, .inProgress, .medium, none, [], 0, "agent", some 0,
        some "agent", none, none, none, none, none, none, none, none, none⟩ =>
      .ok (document "in_progress")
    | _ => .error "unsupported"
  taskFromValue value :=
    match value.get "status" with
    | some (.string "pending") => .ok pending
    | some (.string "in_progress") => .ok started
    | _ => .error "missing field"
  planCanonical := by
    intro plan value h
    split at h
    next => rw [← Except.ok.inj h]; decide
    next => contradiction
  taskCanonical := by
    intro task value h
    split at h
    next => rw [← Except.ok.inj h]; decide
    next => contradiction
  planFromValue_planToValue := by
    intro plan value h
    split at h
    next hplan => rw [← Except.ok.inj h, hplan]; rfl
    next => contradiction
  taskFromValue_taskToValue := by
    intro task value h
    split at h
    next => rw [← Except.ok.inj h]; rfl
    next => contradiction
  planFields := by
    intro plan value h
    split at h
    next => rw [← Except.ok.inj h]; exact ⟨_, rfl, by decide, by decide⟩
    next => contradiction
  planNotTask := by
    intro plan value task h
    split at h
    next => rw [← Except.ok.inj h]; simp [document, Json.get, Json.entries]
    next => contradiction
  isDecimal := Char.isDigit
  isDecimal_slash := @rfl Bool false

def tree : Json :=
  .object [("p", .object [(META_KEY, document "active"),
    ("t-1", document "pending")])]

def store : Storage ContentKey := ContentKey.documentStore tree

def tasks : TaskStore := .new .new "" "agent"

inductive Caller where
  | worker
  | keeper
deriving DecidableEq

def ops : Caller → TaskOp
  | .worker => .startTask "p" "t-1"
  | .keeper => .archivePlan "p"

def moment : Moment := ⟨fun _ => 0, "intent", "", []⟩

/-- The plan is archived while the task is being started. -/
def schedule : List (Caller × Moment) :=
  (List.replicate 3 Caller.worker ++ List.replicate 9 Caller.keeper ++
    List.replicate 9 Caller.worker).map fun w => (w, moment)

theorem run_nil : (start codec (fun _ => tasks) ops "main" store).run [] =
    start codec (fun _ => tasks) ops "main" store := rfl

def fin := (start codec (fun _ => tasks) ops "main" store).run schedule

theorem holdsAt_tree {key : String} {value : Json}
    (h : (key, value) ∈ [(META_KEY, document "active"),
      ("t-1", document "pending")]) :
    HoldsAt store.objects (ContentKey.documentCommit tree).stateRoot
      (documentAt "" "p" key) value := by
  have hplan := (ContentKey.holdsAt_documentStore tree).field (by decide)
    List.mem_cons_self
  exact hplan.field (by decide) h

theorem wellKept : WellKept codec "" store.objects
    (ContentKey.documentCommit tree).stateRoot := by
  rintro plan key value task - - hreads htask
  have hat := hreads
  obtain ⟨x, o, hx, -⟩ := hat
  have hroot := ContentKey.holdsAt_documentStore tree
  obtain ⟨_, hplan⟩ := hroot.exists_field [.key key] (by decide) hx
  obtain ⟨rfl, rfl⟩ := Prod.mk.inj (List.mem_singleton.mp hplan)
  have hp := hroot.field (by decide) hplan
  obtain ⟨v, hkey⟩ := hp.exists_field [] (by decide) hx
  have hheld := holdsAt_tree hkey
  rcases List.mem_cons.mp hkey with heq | hkey
  · obtain ⟨rfl, rfl⟩ := Prod.mk.inj heq
    rw [hreads.unique (hheld.readsAt (by decide))] at htask
    contradiction
  · obtain ⟨rfl, rfl⟩ := Prod.mk.inj (List.mem_singleton.mp hkey)
    rw [hreads.unique (hheld.readsAt (by decide))] at htask
    obtain rfl : pending = task := Except.ok.inj htask
    exact ⟨by decide, rfl, by constructor <;> decide⟩

set_option maxRecDepth 16384 in
theorem shared : Shared codec (fun _ => tasks) ops tasks "main" store where
  sameNamespace _ := rfl
  samePrefix _ := rfl
  plain w := by cases w <;> decide
  namespace_ := by decide
  state := ⟨(ContentKey.documentCommit tree).stateRoot,
    ⟨(ContentKey.documentCommit tree).id, by decide, by decide⟩,
    ObjectStore.complete_of_isClosed (by decide) (by decide), wellKept⟩

theorem getTask_store :
    tasks.getTask codec store "main" "p" "t-1" = .ok pending :=
  decode_eq_ok.mpr ⟨document "pending", ContentKey.getJson_documentStore
    (p := ⟨documentAt "" "p" "t-1"⟩) (by decide) (by decide) (by decide)
    (holdsAt_tree (by simp)), rfl⟩

theorem getPlan_store : tasks.getPlan codec store "main" "p" = .ok active :=
  decode_eq_ok.mpr ⟨document "active", ContentKey.getJson_documentStore
    (p := ⟨documentAt "" "p" META_KEY⟩) (by decide) (by decide) (by decide)
    (holdsAt_tree (by simp)), rfl⟩

def keeps : TaskOp → Bool
  | .deletePlan _ | .addTask _ => false
  | _ => true

/-- What the run landed, and what its end reads. -/
theorem run_fin :
    (fin.shared.trace.all fun l => keeps l.op) = true ∧
      ((tasks.getTask codec fin.shared.store "main" "p" "t-1").toOption.map
        Task.status) = some .inProgress ∧
      (tasks.getPlan codec fin.shared.store "main" "p").toOption = some archived := by
  decide +kernel

end Started

open Started in
/-- The task that was started was read under its id. -/
theorem getTask_sound_started : ∃ task, tasks.getTask codec fin.shared.store
    "main" "p" "t-1" = .ok task ∧ task.id = "t-1" ∧ task.life.Sound := by
  have hsound : ∀ task, tasks.getTask codec fin.shared.store "main" "p" "t-1" =
      .ok task → task.id = "t-1" ∧ task.life.Sound := by
    intro task h
    rw [fin] at h
    exact getTask_sound codec (fun _ => tasks) ops tasks "main" store shared
      schedule (by decide) (by decide) h
  have hread := run_fin.2.1
  cases h : tasks.getTask codec fin.shared.store "main" "p" "t-1" with
  | error e => simp [h, Except.toOption] at hread
  | ok task => exact ⟨task, rfl, hsound task h⟩

open Started in
/-- The task that was pending went on to be started. -/
theorem tasks_go_forward_started : ∃ task, tasks.getTask codec fin.shared.store
    "main" "p" "t-1" = .ok task ∧ task.status = .inProgress ∧
      pending.life.Continues task.life := by
  have hforward : (∀ l ∈ fin.shared.trace.drop 0,
      ¬Undoes codec tasks.pre tasks.repo.activeNamespace "main" l "p" "t-1") →
      ∃ task, tasks.getTask codec fin.shared.store "main" "p" "t-1" = .ok task ∧
        pending.life.Continues task.life := by
    have h := tasks_go_forward codec (fun _ => tasks) ops tasks "main" store shared
      [] schedule (by decide) (by decide) getTask_store
    rwa [run_nil, ← fin] at h
  obtain ⟨task, hread, hcont⟩ := hforward fun l hl hundoes => by
    have hkeeps := List.all_eq_true.mp run_fin.1 l hl
    rcases hundoes with hop | ⟨_, _, _, hop, -⟩ <;> simp [hop, keeps] at hkeeps
  have hstatus := run_fin.2.1
  rw [hread] at hstatus
  exact ⟨task, hread, Option.some.inj hstatus, hcont⟩

open Started in
/-- The plan that was active went on to be archived. -/
theorem plans_go_forward_archived : tasks.getPlan codec fin.shared.store "main"
    "p" = .ok archived ∧ active.Continues archived := by
  have hforward : (∀ l ∈ fin.shared.trace.drop 0, l.op ≠ .deletePlan "p") →
      ∃ plan, tasks.getPlan codec fin.shared.store "main" "p" = .ok plan ∧
        active.Continues plan := by
    have h := plans_go_forward codec (fun _ => tasks) ops tasks "main" store shared
      [] schedule (by decide) getPlan_store
    rwa [run_nil, ← fin] at h
  obtain ⟨plan, hread, hcont⟩ := hforward fun l hl hop => by
    have hkeeps := List.all_eq_true.mp run_fin.1 l hl
    simp [hop, keeps] at hkeeps
  have hplan := run_fin.2.2
  rw [hread] at hplan
  obtain rfl := Option.some.inj hplan
  exact ⟨hread, hcont⟩

end Tasks

end AgentStateGraph
