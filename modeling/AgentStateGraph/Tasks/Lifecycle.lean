import AgentStateGraph.Tasks.Places

/-!
# The life of plans and tasks

What happens to a task on its way through the statuses, and to a plan.  The
writes of the task store only take them forward: a task that is done or
abandoned stays so with all that was recorded about its end, and a plan that
was closed is never active again.
-/

namespace AgentStateGraph

variable {Id : Type} [Digest Id]

namespace Tasks

/-! ## Statuses -/

/-- The moves of the state machine. -/
inductive TaskStatus.Moves : TaskStatus → TaskStatus → Prop where
  | start : Moves .pending .inProgress
  | complete : Moves .inProgress .done
  | abandonPending : Moves .pending .abandoned
  | abandonStarted : Moves .inProgress .abandoned

omit [Digest Id] in
/-- The check passes exactly the moves. -/
theorem checkTransition_eq_ok_iff {before : TaskStatus} {t : Transition} :
    (checkTransition before t : Except (TaskStoreError Id) Unit) = .ok () ↔
      TaskStatus.Moves before t.target := by
  constructor
  · intro h
    cases before <;> cases t <;>
      first | constructor | simp [checkTransition] at h
  · intro h
    cases before <;> cases t <;> first | rfl | cases h

theorem TaskStatus.Moves.ne_pending {a b : TaskStatus} (h : Moves a b) :
    b ≠ .pending := by
  cases h <;> simp

theorem TaskStatus.Moves.not_terminal {a b : TaskStatus} (h : Moves a b) :
    a.isTerminal = false := by
  cases h <;> rfl

/-! ## Tasks -/

/-- What only the moves of a task change. -/
structure Life where
  id : String
  createdAt : ℤ
  createdBy : String
  parentId : Option String
  parentChange : Option String
  onComplete : Option OnCompleteHook
  status : TaskStatus
  startedAt : Option ℤ
  startedBy : Option String
  completedAt : Option ℤ
  completedBy : Option String
  proof : Option Proof
  abandonedAt : Option ℤ
  abandonedReason : Option String

def Task.life (t : Task) : Life where
  id := t.id
  createdAt := t.createdAt
  createdBy := t.createdBy
  parentId := t.parentId
  parentChange := t.parentChange
  onComplete := t.onComplete
  status := t.status
  startedAt := t.startedAt
  startedBy := t.startedBy
  completedAt := t.completedAt
  completedBy := t.completedBy
  proof := t.proof
  abandonedAt := t.abandonedAt
  abandonedReason := t.abandonedReason

@[simp] theorem Task.stored_life (t : Task) : t.stored.life = t.life := rfl

namespace Life

/-- What is recorded of a life goes with its status. -/
structure Sound (l : Life) : Prop where
  started : l.status = .inProgress ∨ l.status = .done →
    l.startedAt.isSome ∧ l.startedBy.isSome
  waiting : l.status = .pending → l.startedAt = none ∧ l.startedBy = none
  proof : l.proof.isSome ↔ l.status = .done
  completedAt : l.completedAt.isSome ↔ l.status = .done
  completedBy : l.completedBy.isSome ↔ l.status = .done
  abandonedAt : l.abandonedAt.isSome ↔ l.status = .abandoned
  abandonedReason : l.abandonedReason.isSome ↔ l.status = .abandoned

/-- A later state of the same life. -/
structure Continues (a b : Life) : Prop where
  id : b.id = a.id
  created : b.createdAt = a.createdAt ∧ b.createdBy = a.createdBy
  parent : b.parentId = a.parentId ∧ b.parentChange = a.parentChange
  onComplete : b.onComplete = a.onComplete
  status : Relation.ReflTransGen TaskStatus.Moves a.status b.status
  started : a.status ≠ .pending →
    b.startedAt = a.startedAt ∧ b.startedBy = a.startedBy
  ended : a.status.isTerminal = true → b = a

theorem Continues.refl (a : Life) : Continues a a :=
  ⟨rfl, ⟨rfl, rfl⟩, ⟨rfl, rfl⟩, rfl, .refl, fun _ => ⟨rfl, rfl⟩, fun _ => rfl⟩

theorem ne_pending_of_moves {a b : TaskStatus}
    (h : Relation.ReflTransGen TaskStatus.Moves a b) (ha : a ≠ .pending) :
    b ≠ .pending := by
  induction h with
  | refl => exact ha
  | tail _ hstep _ => exact hstep.ne_pending

theorem Continues.trans {a b c : Life} (hab : Continues a b)
    (hbc : Continues b c) : Continues a c where
  id := hbc.id.trans hab.id
  created := ⟨hbc.created.1.trans hab.created.1,
    hbc.created.2.trans hab.created.2⟩
  parent := ⟨hbc.parent.1.trans hab.parent.1, hbc.parent.2.trans hab.parent.2⟩
  onComplete := hbc.onComplete.trans hab.onComplete
  status := hab.status.trans hbc.status
  started := by
    intro ha
    obtain ⟨hat, hby⟩ := hab.started ha
    obtain ⟨hat', hby'⟩ := hbc.started (ne_pending_of_moves hab.status ha)
    exact ⟨hat'.trans hat, hby'.trans hby⟩
  ended := by
    intro ha
    obtain rfl := hab.ended ha
    exact hbc.ended ha

end Life

/-! ## The changes -/

/-- A change takes every life it succeeds on forward. -/
def GoesForward (change : TaskStore.TaskChange Id) : Prop :=
  ∀ now store t t', change now store t = .ok t' →
    t.life.Continues t'.life ∧ (t.life.Sound → t'.life.Sound)

theorem goesForward_startChange (codec : TaskCodec) (self : TaskStore)
    (refName plan : String) :
    GoesForward (self.startChange codec refName plan :
      TaskStore.TaskChange Id) := by
  intro now store t t' h
  obtain ⟨_, hcheck, h⟩ := Except.bind_eq_ok_iff.mp h
  have hmove : TaskStatus.Moves t.status .inProgress :=
    checkTransition_eq_ok_iff.mp hcheck
  obtain ⟨check, -, h⟩ := Except.bind_eq_ok_iff.mp h
  have hpending : t.status = .pending := by
    cases hstatus : t.status <;> rw [hstatus] at hmove <;>
      first | rfl | cases hmove
  split at h
  next => contradiction
  next =>
    split at h
    next => contradiction
    next =>
      obtain rfl := Except.ok.inj h
      refine ⟨⟨rfl, ⟨rfl, rfl⟩, ⟨rfl, rfl⟩, rfl, .single hmove, ?_, ?_⟩, ?_⟩
      · exact fun hne => absurd hpending hne
      · exact fun hend => by simp [Task.life, hmove.not_terminal] at hend
      · rintro ⟨-, -, hproof, hat, hby, haband, hreason⟩
        have hold : t.life.status = .pending := hpending
        rw [hold] at hproof hat hby haband hreason
        constructor <;> simp_all [Task.life]

theorem goesForward_completeChange (self : TaskStore) (proof : Proof) :
    GoesForward (self.completeChange proof : TaskStore.TaskChange Id) := by
  intro now store t t' h
  obtain ⟨_, hcheck, h⟩ := Except.bind_eq_ok_iff.mp h
  have hmove : TaskStatus.Moves t.status .done :=
    checkTransition_eq_ok_iff.mp hcheck
  have hstarted : t.status = .inProgress := by
    cases hstatus : t.status <;> rw [hstatus] at hmove <;>
      first | rfl | cases hmove
  obtain rfl := Except.ok.inj h
  refine ⟨⟨rfl, ⟨rfl, rfl⟩, ⟨rfl, rfl⟩, rfl, .single hmove, ?_, ?_⟩, ?_⟩
  · exact fun _ => ⟨rfl, rfl⟩
  · exact fun hend => by simp [Task.life, hmove.not_terminal] at hend
  · rintro ⟨hat, -, -, -, -, haband, hreason⟩
    have hold : t.life.status = .inProgress := hstarted
    rw [hold] at hat haband hreason
    constructor <;> simp_all [Task.life]

theorem goesForward_abandonChange (reason : String) :
    GoesForward (TaskStore.abandonChange reason : TaskStore.TaskChange Id) := by
  intro now store t t' h
  obtain ⟨_, hcheck, h⟩ := Except.bind_eq_ok_iff.mp h
  have hmove : TaskStatus.Moves t.status .abandoned :=
    checkTransition_eq_ok_iff.mp hcheck
  have hopen : t.status ≠ .done := by
    intro hdone
    rw [hdone] at hmove
    cases hmove
  obtain rfl := Except.ok.inj h
  refine ⟨⟨rfl, ⟨rfl, rfl⟩, ⟨rfl, rfl⟩, rfl, .single hmove, ?_, ?_⟩, ?_⟩
  · exact fun _ => ⟨rfl, rfl⟩
  · exact fun hend => by simp [Task.life, hmove.not_terminal] at hend
  · rintro ⟨-, -, hproof, hat, hby, -, -⟩
    have hold : t.life.status ≠ .done := hopen
    constructor <;> simp_all [Task.life]

theorem goesForward_fieldChange {f : Task → Task}
    (hf : ∀ t, (f t).life = t.life) :
    GoesForward (TaskStore.fieldChange f : TaskStore.TaskChange Id) := by
  intro now store t t' h
  obtain rfl := Except.ok.inj h
  rw [hf]
  exact ⟨.refl _, id⟩

theorem goesForward_blockersChange (codec : TaskCodec) (self : TaskStore)
    (refName plan : String) (blockers : List String) :
    GoesForward (self.blockersChange codec refName plan blockers :
      TaskStore.TaskChange Id) := by
  intro now store t t' h
  obtain ⟨tasks, -, h⟩ := Except.bind_eq_ok_iff.mp h
  split at h
  next => contradiction
  next =>
    split at h
    next => contradiction
    next =>
      obtain rfl := Except.ok.inj h
      exact ⟨.refl _, id⟩

/-- Every update takes its task forward. -/
theorem goesForward_update {codec : TaskCodec} {self : TaskStore}
    {refName : String} {op : TaskOp} {plan id : String}
    {change : TaskStore.TaskChange Id}
    (h : op.update? codec self refName = some (plan, id, change)) :
    GoesForward change := by
  cases op <;>
    simp only [TaskOp.update?, Option.some.injEq, Prod.mk.injEq, reduceCtorEq] at h
  case startTask =>
    obtain ⟨-, -, rfl⟩ := h
    exact goesForward_startChange codec self refName _
  case completeTask =>
    obtain ⟨-, -, rfl⟩ := h
    exact goesForward_completeChange self _
  case abandonTask =>
    obtain ⟨-, -, rfl⟩ := h
    exact goesForward_abandonChange _
  case setNotes =>
    split at h
    next =>
      obtain ⟨-, -, rfl⟩ := Prod.mk.injEq .. ▸ Option.some.inj h
      exact goesForward_fieldChange fun _ => rfl
    next => contradiction
  case setBlockers =>
    obtain ⟨-, -, rfl⟩ := h
    exact goesForward_blockersChange codec self refName _ _
  all_goals
    obtain ⟨-, -, rfl⟩ := h
    exact goesForward_fieldChange fun _ => rfl

/-! ## Plans -/

/-- How far a plan has come. -/
def PlanStatus.rank : PlanStatus → ℕ
  | .active => 0
  | .completed => 1
  | .archived => 2

/-- A later state of the same plan. -/
structure Plan.Continues (a b : Plan) : Prop where
  created : b.name = a.name ∧ b.description = a.description ∧
    b.createdAt = a.createdAt ∧ b.createdBy = a.createdBy
  status : a.status.rank ≤ b.status.rank
  closed : a.status ≠ .active →
    b.summary = a.summary ∧ b.closedAt = a.closedAt ∧ b.closedBy = a.closedBy

theorem Plan.Continues.refl (a : Plan) : Plan.Continues a a :=
  ⟨⟨rfl, rfl, rfl, rfl⟩, le_rfl, fun _ => ⟨rfl, rfl, rfl⟩⟩

theorem Plan.Continues.trans {a b c : Plan} (hab : Plan.Continues a b)
    (hbc : Plan.Continues b c) : Plan.Continues a c where
  created := by
    obtain ⟨h₁, h₂, h₃, h₄⟩ := hab.created
    obtain ⟨h₁', h₂', h₃', h₄'⟩ := hbc.created
    exact ⟨h₁'.trans h₁, h₂'.trans h₂, h₃'.trans h₃, h₄'.trans h₄⟩
  status := hab.status.trans hbc.status
  closed := by
    intro ha
    have hb : b.status ≠ .active := by
      intro hb
      have hle := hab.status
      rw [hb] at hle
      cases hstatus : a.status <;> simp_all [PlanStatus.rank]
    obtain ⟨h₁, h₂, h₃⟩ := hab.closed ha
    obtain ⟨h₁', h₂', h₃'⟩ := hbc.closed hb
    exact ⟨h₁'.trans h₁, h₂'.trans h₂, h₃'.trans h₃⟩

end Tasks

end AgentStateGraph
