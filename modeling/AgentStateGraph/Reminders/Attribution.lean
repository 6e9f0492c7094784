import AgentStateGraph.Reminders.Approval

/-!
# Approvers in the execution records

An approval writes the approver into the last execution record, when that one is
open.  A start opens a new record without an approver, so an execution carries
the approver exactly when it was opened before the approval and nothing was
started since.
-/

namespace AgentStateGraph

namespace Reminders

/-! ## The audit of a run -/

def Call.approver : Call → Option String
  | .approve _ approvedBy => some approvedBy
  | _ => none

def Call.isStart : Call → Bool
  | .start _ _ => true
  | _ => false

/-- An execution is recorded, and the record names no approver. -/
def Call.recordsUnsigned : Call → Bool
  | .recordExecution _ record => record.approvedBy.isNone
  | _ => false

/-- The last execution, when it is open. -/
def openLast (l : List ExecutionRecord) : Option ExecutionRecord :=
  l.getLast?.filter fun e => e.completedAt.isNone

/-- Only the last execution may be open. -/
def Tidy (l : List ExecutionRecord) : Prop :=
  ∀ e ∈ l.dropLast, e.completedAt ≠ none

/-- The last approval that landed was this one's, and the reminder did not enter
a waiting status since. -/
def ApprovedBy (trace : List Write) (id who : String) : Prop :=
  Since (fun w => w.call.approver = some who ∧ w.after.id = id)
    (fun w => w.after.id = id ∧ (w.call.approver ≠ none ∨ w.EntersWaiting)) trace

/-- The execution that is completed carries the approver. -/
def AttributedAt (earlier : List Write) (w : Write) : Prop :=
  w.call.recordsUnsigned → w.after.autonomous = false →
    ∀ who, ApprovedBy earlier w.after.id who →
      ∃ e, w.after.executions.getLast? = some e ∧ e.approvedBy = some who

/-- Every execution carries its approver, and none stays open behind a later
one. -/
def Audited (trace : List Write) : Prop :=
  (∀ earlier w later, trace = earlier ++ w :: later → AttributedAt earlier w) ∧
    ∀ w ∈ trace, w.after.autonomous = false → Tidy w.after.executions

/-- An execution that is recorded for a ready reminder is open, and was not
started since the approval. -/
def RecordsOpen (w : Write) : Prop :=
  w.call.recordsUnsigned → ∀ r ∈ w.before, r.autonomous = false →
    r.status.isReady → r.status = .due ∧ openLast r.executions ≠ none

/-- An execution is started when no other is open. -/
def StartsClosed (w : Write) : Prop :=
  w.call.isStart → ∀ r ∈ w.before, r.autonomous = false →
    openLast r.executions = none

/-! ## Lists of executions -/

theorem openLast_append (l : List ExecutionRecord) (e : ExecutionRecord) :
    openLast (l ++ [e]) = if e.completedAt = none then some e else none := by
  simp [openLast, Option.filter]

theorem tidy_append {l : List ExecutionRecord} {e : ExecutionRecord} :
    Tidy (l ++ [e]) ↔ Tidy l ∧ openLast l = none := by
  rw [Tidy, List.dropLast_concat]
  rcases List.eq_nil_or_concat l with rfl | ⟨l, last, rfl⟩
  · simp [Tidy, openLast]
  · rw [List.concat_eq_append, Tidy, List.dropLast_concat, openLast_append]
    constructor
    · intro h
      refine ⟨fun e he => h e (by simp [he]), if_neg (h last (by simp))⟩
    · rintro ⟨h, hlast⟩ e he
      rcases List.mem_append.mp he with he | he
      · exact h e he
      · rw [List.mem_singleton.mp he]
        intro hopen
        rw [if_pos hopen] at hlast
        cases hlast

theorem modifyLast_append (f : ExecutionRecord → ExecutionRecord)
    (l : List ExecutionRecord) (e : ExecutionRecord) :
    modifyLast f (l ++ [e]) = l ++ [f e] := by
  rw [modifyLast, List.length_append, List.length_singleton,
    Nat.add_sub_cancel]
  induction l with
  | nil => rfl
  | cons x l ih =>
      rw [List.length_cons, List.cons_append, List.modify_succ_cons, ih,
        List.cons_append]

theorem modifyLast_nil (f : ExecutionRecord → ExecutionRecord) :
    modifyLast f [] = [] := by simp [modifyLast]

/-- An open execution, completed as the record says. -/
def completedBy (record e : ExecutionRecord) : ExecutionRecord :=
  { e with
    completedAt := record.completedAt
    result := record.result
    notes := record.notes
    taskId := record.taskId
    approvedBy :=
      if record.approvedBy.isSome then record.approvedBy else e.approvedBy }

theorem completeLast_append (record : ExecutionRecord)
    (l : List ExecutionRecord) (e : ExecutionRecord) :
    completeLast record (l ++ [e]) =
      if e.completedAt = none then l ++ [completedBy record e]
      else l ++ [e] ++ [record] := by
  rw [completeLast, List.getLast?_concat]
  simp only [modifyLast_append, Option.isNone_iff_eq_none]
  rfl

/-! ## What a change does to the executions -/

/-- What a call may do to the executions of a reminder that is not
autonomous. -/
structure Books (call : Call) (r r' : Reminder) : Prop where
  working : r'.status = .inProgress →
    (∃ e, openLast r'.executions = some e ∧ e.approvedBy = none) ∨
      r.status = .inProgress ∧ r'.executions = r.executions
  due : r'.autonomous = false → r'.status = .due →
    ∀ e, openLast r'.executions = some e →
      (∀ who, call.approver = some who → e.approvedBy = some who) ∧
      (call.approver = none → r.status = .due ∧ r'.executions = r.executions)
  recorded : call.recordsUnsigned → ∃ e, r'.executions.getLast? = some e ∧
    e.approvedBy = (openLast r.executions).bind fun last => last.approvedBy
  tidy : Tidy r.executions → (call.isStart → openLast r.executions = none) →
    Tidy r'.executions
  started : call.isStart → Tidy r'.executions → openLast r.executions = none

section

variable {call : Call} {r r' : Reminder} {id : String} {now : ℤ}

theorem books_of_same (hexecutions : r'.executions = r.executions)
    (hworking : r'.status = .inProgress → r.status = .inProgress)
    (hdue : r'.autonomous = false → r'.status = .due → r.status = .due)
    (happrover : call.approver = none) (hrecord : call.recordsUnsigned = false)
    (hstart : call.isStart = false) : Books call r r' where
  working := fun h => Or.inr ⟨hworking h, hexecutions⟩
  due := by
    intro hauto h _ _
    refine ⟨?_, fun _ => ⟨hdue hauto h, hexecutions⟩⟩
    intro who hwho
    rw [happrover] at hwho
    cases hwho
  recorded := by
    intro h
    rw [hrecord] at h
    cases h
  tidy := fun h _ => hexecutions ▸ h
  started := by
    intro h
    rw [hstart] at h
    cases h

theorem books_approved {approvedBy : String}
    (h : approved id approvedBy now r = .ok r') :
    Books (.approve id approvedBy) r r' := by
  obtain rfl : r' =
      { r with
        status := .due
        executions := modifyLast
          (fun last =>
            if last.completedAt.isNone then
              { last with approvedBy := some approvedBy }
            else last) r.executions } := by
    simp only [approved] at h
    split at h
    · exact (Except.ok.inj h).symm
    · exact (Except.ok.inj h).symm
    · split at h <;> contradiction
  refine
    { working := fun h => by cases h
      due := ?_
      recorded := fun h => by cases h
      tidy := ?_
      started := fun h => by cases h }
  · intro _ _ e he
    refine ⟨?_, fun h => by cases h⟩
    intro who hwho
    obtain rfl := Option.some.inj hwho
    rcases List.eq_nil_or_concat r.executions with hnil | ⟨l, last, hlast⟩
    · rw [hnil, modifyLast_nil] at he
      cases he
    · rw [hlast, List.concat_eq_append, modifyLast_append, openLast_append] at he
      by_cases hopen : last.completedAt.isNone = true
      · rw [if_pos hopen, if_pos (Option.isNone_iff_eq_none.mp hopen)] at he
        obtain rfl := Option.some.inj he
        rfl
      · rw [if_neg hopen, if_neg (mt Option.isNone_iff_eq_none.mpr hopen)] at he
        cases he
  · intro htidy _
    rcases List.eq_nil_or_concat r.executions with hnil | ⟨l, last, hlast⟩
    · rw [hnil, modifyLast_nil]
      exact hnil ▸ htidy
    · rw [hlast, List.concat_eq_append] at htidy ⊢
      rw [modifyLast_append]
      exact tidy_append.mpr (tidy_append.mp htidy)

theorem books_started {agentId : String}
    (h : started id agentId now r = .ok r') :
    Books (.start id agentId) r r' := by
  obtain ⟨e, hopen, happrover, hexecutions, hstatus⟩ :
      ∃ e : ExecutionRecord, e.completedAt = none ∧ e.approvedBy = none ∧
        r'.executions = r.executions ++ [e] ∧ r'.status = .inProgress := by
    simp only [started] at h
    split at h
    · obtain rfl := Except.ok.inj h
      exact ⟨_, rfl, rfl, rfl, rfl⟩
    · split at h
      · obtain rfl := Except.ok.inj h
        exact ⟨_, rfl, rfl, rfl, rfl⟩
      · contradiction
    · split at h <;> contradiction
  refine
    { working := ?_
      due := ?_
      recorded := fun h => by cases h
      tidy := ?_
      started := ?_ }
  · intro _
    refine Or.inl ⟨e, ?_, happrover⟩
    rw [hexecutions, openLast_append, if_pos hopen]
  · intro _ hdue
    rw [hstatus] at hdue
    cases hdue
  · intro htidy hclosed
    rw [hexecutions]
    exact tidy_append.mpr ⟨htidy, hclosed rfl⟩
  · intro _ htidy
    rw [hexecutions] at htidy
    exact (tidy_append.mp htidy).2

theorem status_settled (now : ℤ) (result : ExecutionResult) (r : Reminder) :
    (settled now result r).status ≠ .inProgress := by
  cases result with
  | success =>
      simp only [settled]
      split
      · by_cases hauto : r.autonomous = true <;> simp [hauto]
      · simp
  | snoozed => simp [settled]
  | cancelled => simp [settled]
  | failed =>
      simp only [settled]
      split
      · simp
      · assumption
  | deferred =>
      simp only [settled]
      split
      · simp
      · assumption

theorem openLast_completeLast {record : ExecutionRecord}
    (hrecord : record.completedAt ≠ none) (l : List ExecutionRecord) :
    openLast (completeLast record l) = none := by
  rcases List.eq_nil_or_concat l with rfl | ⟨l, last, rfl⟩
  · exact (openLast_append [] record).trans (if_neg hrecord)
  · rw [List.concat_eq_append, completeLast_append]
    split
    · exact (openLast_append _ _).trans (if_neg hrecord)
    · exact (openLast_append _ _).trans (if_neg hrecord)

theorem tidy_completeLast {record : ExecutionRecord} {l : List ExecutionRecord}
    (h : Tidy l) : Tidy (completeLast record l) := by
  rcases List.eq_nil_or_concat l with rfl | ⟨l, last, rfl⟩
  · simp [completeLast, Tidy]
  · rw [List.concat_eq_append] at h ⊢
    rw [completeLast_append]
    split
    case isTrue => exact tidy_append.mpr (tidy_append.mp h)
    case isFalse hclosed =>
      exact tidy_append.mpr ⟨h, (openLast_append _ _).trans (if_neg hclosed)⟩

theorem getLast?_completeLast {record : ExecutionRecord}
    (hrecord : record.approvedBy = none) (l : List ExecutionRecord) :
    ∃ e, (completeLast record l).getLast? = some e ∧
      e.approvedBy = (openLast l).bind fun last => last.approvedBy := by
  rcases List.eq_nil_or_concat l with rfl | ⟨l, last, rfl⟩
  · exact ⟨record, rfl, hrecord⟩
  · rw [List.concat_eq_append, completeLast_append, openLast_append]
    split
    · exact ⟨completedBy record last, List.getLast?_concat, by
        simp [completedBy, hrecord]⟩
    · exact ⟨record, List.getLast?_concat, hrecord⟩

theorem books_executed {record : ExecutionRecord}
    (h : executed id record now r = .ok r') :
    Books (.recordExecution id record) r r' := by
  unfold executed at h
  split at h
  · contradiction
  · obtain rfl := Except.ok.inj h
    obtain ⟨-, -, hexecutions, -⟩ := settled_keeps now record.result { r with
      executions :=
        completeLast { record with completedAt := some now } r.executions }
    refine
      { working := fun hstatus => absurd hstatus (status_settled _ _ _)
        due := ?_
        recorded := ?_
        tidy := ?_
        started := fun h => by cases h }
    · intro _ _ e he
      rw [hexecutions, openLast_completeLast (by simp)] at he
      cases he
    · intro hunsigned
      rw [hexecutions]
      apply getLast?_completeLast
      exact Option.isNone_iff_eq_none.mp hunsigned
    · intro htidy _
      rw [hexecutions]
      exact tidy_completeLast htidy

theorem books_of_changes (h : Changes call r r') : Books call r r' := by
  cases h with
  | promoted hwaiting =>
      refine books_of_same rfl ?_ ?_ rfl rfl rfl
      · intro hstatus
        by_cases hauto : r.autonomous = true <;> simp [promoted, hauto] at hstatus
      · intro hauto hstatus
        have hfalse : r.autonomous = false := hauto
        simp [promoted, hfalse] at hstatus
  | @snoozed _ until_ now _ _ h =>
      unfold Reminders.snoozed at h
      split at h
      · contradiction
      · obtain rfl := Except.ok.inj h
        exact books_of_same rfl (fun h => by cases h) (fun _ h => by cases h)
          rfl rfl rfl
  | cancelled h =>
      unfold Reminders.cancelled at h
      split at h
      · contradiction
      · obtain rfl := Except.ok.inj h
        exact books_of_same rfl (fun h => by cases h) (fun _ h => by cases h)
          rfl rfl rfl
  | approved h => exact books_approved h
  | started h => exact books_started h
  | executed h => exact books_executed h
  | staled => exact books_of_same rfl (fun h => h) (fun _ h => h) rfl rfl rfl

/-! ## Approvers along a run -/

theorem approvedBy_append {trace : List Write} {w : Write} {who : String} :
    ApprovedBy (trace ++ [w]) id who ↔
      w.call.approver = some who ∧ w.after.id = id ∨
        ApprovedBy trace id who ∧
          (w.after.id = id → w.call.approver = none ∧ ¬ w.EntersWaiting) := by
  rw [ApprovedBy, since_append, not_and, not_or, not_not]
  rfl

theorem isApprove_iff : call.isApprove ↔ ∃ who, call.approver = some who := by
  cases call <;> simp [Call.isApprove, Call.approver]

theorem approved_iff_exists {trace : List Write} :
    Approved trace id ↔ ∃ who, ApprovedBy trace id who := by
  induction trace using List.reverseRecOn with
  | nil => simp [Approved, ApprovedBy, Since]
  | append_singleton trace w ih =>
      simp only [approved_append, approvedBy_append, ih, isApprove_iff]
      constructor
      · rintro (⟨⟨who, hwho⟩, hid⟩ | ⟨⟨who, hwho⟩, hstays⟩)
        · exact ⟨who, Or.inl ⟨hwho, hid⟩⟩
        · by_cases hid : w.after.id = id
          · cases happrover : w.call.approver with
            | some who' => exact ⟨who', Or.inl ⟨rfl, hid⟩⟩
            | none => exact ⟨who, Or.inr ⟨hwho, fun h => ⟨rfl, hstays h⟩⟩⟩
          · exact ⟨who, Or.inr ⟨hwho, fun h => absurd h hid⟩⟩
      · rintro ⟨who, ⟨hwho, hid⟩ | ⟨hwho, hstays⟩⟩
        · exact Or.inl ⟨⟨who, hwho⟩, hid⟩
        · exact Or.inr ⟨⟨who, hwho⟩, fun h => (hstays h).2⟩

end

/-! ## The invariant of the records -/

/-- The execution in progress is open and unsigned; the open execution of a due
reminder is signed by its approver. -/
structure Signed (s : Shared) : Prop where
  working : ∀ (id : String) (r : Reminder), s.reminders[id]? = some r →
    r.status = .inProgress →
      ∃ e, openLast r.executions = some e ∧ e.approvedBy = none
  due : ∀ (id : String) (r : Reminder), s.reminders[id]? = some r →
    r.autonomous = false → r.status = .due →
      ∀ e, openLast r.executions = some e →
        ∀ who, ApprovedBy s.trace id who → e.approvedBy = some who
  attributed : ∀ earlier w later, s.trace = earlier ++ w :: later →
    (AttributedAt earlier w ↔ RecordsOpen w)
  tidy : (∀ w ∈ s.trace, StartsClosed w) →
    (∀ (id : String) (r : Reminder), s.reminders[id]? = some r →
      r.autonomous = false → Tidy r.executions) ∧
    ∀ w ∈ s.trace, w.after.autonomous = false → Tidy w.after.executions
  started : (∀ w ∈ s.trace, w.after.autonomous = false → Tidy w.after.executions) →
    ∀ w ∈ s.trace, StartsClosed w

variable {uuids : Uuids} {s : Shared}

theorem isRecord_of_recordsUnsigned {call : Call} (h : call.recordsUnsigned) :
    call.isRecord := by
  cases call <;> first | exact h | rfl

theorem attributedAt_iff (hinv : Inv uuids s) (h : Signed s) {call : Call}
    {r r' : Reminder} (hr : s.reminders[r.id]? = some r)
    (hchanges : Changes call r r') :
    AttributedAt s.trace ⟨call, some r, r'⟩ ↔ RecordsOpen ⟨call, some r, r'⟩ := by
  have hmoves := moves_of_changes hchanges
  have hbooks := books_of_changes hchanges
  have happroved : call.recordsUnsigned → r.autonomous = false →
      (Approved s.trace r.id ↔ r.status.isReady) := by
    intro hunsigned hauto
    have hlive := (hmoves.record (isRecord_of_recordsUnsigned hunsigned)).1
    exact hinv.approval r.id r hr hauto hlive
  constructor
  · intro hattributed hunsigned r₀ hr₀ hauto hready
    obtain rfl := Option.some.inj hr₀
    obtain ⟨who, hwho⟩ := approved_iff_exists.mp
      ((happroved hunsigned hauto).mpr hready)
    obtain ⟨e, he, hsigned⟩ := hattributed hunsigned
      (hmoves.autonomous.trans hauto) who (hmoves.id ▸ hwho)
    obtain ⟨e', he', hfrom⟩ := hbooks.recorded hunsigned
    obtain rfl := Option.some.inj (he.symm.trans he')
    rw [hsigned] at hfrom
    obtain ⟨last, hlast, hwho⟩ := Option.bind_eq_some_iff.mp hfrom.symm
    refine ⟨?_, by simp [hlast]⟩
    cases hstatus : r.status with
    | due => rfl
    | inProgress =>
        obtain ⟨last', hlast', hnone⟩ := h.working r.id r hr hstatus
        obtain rfl := Option.some.inj (hlast.symm.trans hlast')
        rw [hnone] at hwho
        cases hwho
    | _ => simp [hstatus, ReminderStatus.isReady] at hready
  · intro hopen hunsigned hauto who hwho
    have hauto' : r.autonomous = false := hmoves.autonomous.symm.trans hauto
    have hid : (⟨call, some r, r'⟩ : Write).after.id = r.id := hmoves.id
    rw [hid] at hwho
    have hready := (happroved hunsigned hauto').mp
      (approved_iff_exists.mpr ⟨who, hwho⟩)
    obtain ⟨hdue, hlast⟩ := hopen hunsigned r rfl hauto' hready
    obtain ⟨last, hlast⟩ := Option.ne_none_iff_exists'.mp hlast
    obtain ⟨e, he, hfrom⟩ := hbooks.recorded hunsigned
    refine ⟨e, he, ?_⟩
    rw [hfrom, hlast]
    exact h.due r.id r hr hauto' hdue last hlast who hwho

theorem Signed.put (hinv : Inv uuids s) (h : Signed s) {call : Call}
    {r r' : Reminder} (hr : s.reminders[r.id]? = some r)
    (hchanges : Changes call r r') : Signed (s.put call r') := by
  have hmoves := moves_of_changes hchanges
  have hbooks := books_of_changes hchanges
  have htrace : (s.put call r').trace = s.trace ++ [⟨call, some r, r'⟩] := by
    simp [Shared.put, hmoves.id, hr]
  have hget : ∀ id : String, (s.put call r').reminders[id]? =
      if r.id = id then some r' else s.reminders[id]? := by
    intro id
    rw [getElem?_put, hmoves.id]
  have hworking := h.working r.id r hr
  refine ⟨?_, ?_, ?_, ?_, ?_⟩
  · intro id r₀ hr₀ hstatus
    rw [hget] at hr₀
    split at hr₀
    next =>
      obtain rfl := Option.some.inj hr₀
      rcases hbooks.working hstatus with hopen | ⟨hstatus, hsame⟩
      · exact hopen
      · rw [hsame]
        exact hworking hstatus
    · exact h.working id r₀ hr₀ hstatus
  · intro id r₀ hr₀ hauto hstatus e he who hwho
    rw [hget] at hr₀
    rw [htrace, approvedBy_append] at hwho
    split at hr₀
    next heq =>
      obtain rfl := Option.some.inj hr₀
      obtain ⟨hsigns, hkeeps⟩ := hbooks.due hauto hstatus e he
      rcases hwho with ⟨happrover, -⟩ | ⟨hwho, hstays⟩
      · exact hsigns who happrover
      · obtain ⟨hstatus', hsame⟩ := hkeeps (hstays (hmoves.id.trans heq)).1
        rw [hsame] at he
        rw [← heq] at hwho
        exact h.due r.id r hr (hmoves.autonomous.symm.trans hauto) hstatus' e he
          who hwho
    next hne =>
      have hother : r'.id ≠ id := hmoves.id ▸ hne
      rcases hwho with ⟨-, hid⟩ | ⟨hwho, -⟩
      · exact absurd hid hother
      · exact h.due id r₀ hr₀ hauto hstatus e he who hwho
  · rw [htrace]
    exact forall_split_append h.attributed (attributedAt_iff hinv h hr hchanges)
  · rw [htrace]
    intro hclosed
    obtain ⟨hstored, hpast⟩ :=
      h.tidy fun w hw => hclosed w (List.mem_append_left _ hw)
    have htidy : r'.autonomous = false → Tidy r'.executions := by
      intro hauto
      have hauto' := hmoves.autonomous.symm.trans hauto
      apply hbooks.tidy (hstored r.id r hr hauto')
      intro hstart
      exact hclosed ⟨call, some r, r'⟩ (by simp) hstart r rfl hauto'
    refine ⟨?_, ?_⟩
    · intro id r₀ hr₀ hauto
      rw [hget] at hr₀
      split at hr₀
      next =>
        obtain rfl := Option.some.inj hr₀
        exact htidy hauto
      · exact hstored id r₀ hr₀ hauto
    · intro w hw hauto
      rcases List.mem_append.mp hw with hw | hw
      · exact hpast w hw hauto
      · rw [List.mem_singleton.mp hw] at hauto ⊢
        exact htidy hauto
  · rw [htrace]
    intro htidy w hw
    rcases List.mem_append.mp hw with hw | hw
    · exact h.started (fun w hw => htidy w (List.mem_append_left _ hw)) w hw
    · rw [List.mem_singleton.mp hw]
      intro hstart r₀ hr₀ hauto
      obtain rfl := Option.some.inj hr₀
      exact hbooks.started hstart
        (htidy ⟨call, some r, r'⟩ (by simp) (hmoves.autonomous.trans hauto))

theorem Signed.created (hinv : Inv uuids s) (h : Signed s)
    (input : CreateReminder) (now : ℤ) :
    Signed { s.put (.create input)
        (input.intoReminder (uuids.newV4 s.drawn) now) with
      drawn := s.drawn + 1 } := by
  set r := input.intoReminder (uuids.newV4 s.drawn) now with hr
  have htrace : (s.put (.create input) r).trace =
      s.trace ++ [⟨.create input, none, r⟩] := by
    change s.trace ++ [⟨.create input, s.reminders[r.id]?, r⟩] = _
    rw [show s.reminders[r.id]? = none from hinv.fresh]
  have hget : ∀ id : String, (s.put (.create input) r).reminders[id]? =
      if r.id = id then some r else s.reminders[id]? :=
    fun id => getElem?_put s (.create input) r id
  have hopen : openLast r.executions = none := rfl
  have htidy : Tidy r.executions := fun e he => absurd he List.not_mem_nil
  refine ⟨?_, ?_, ?_, ?_, ?_⟩
  · intro id r₀ hr₀ hstatus
    rw [hget] at hr₀
    split at hr₀
    next =>
      obtain rfl := Option.some.inj hr₀
      cases hstatus
    · exact h.working id r₀ hr₀ hstatus
  · intro id r₀ hr₀ hauto hstatus e he who hwho
    rw [hget] at hr₀
    dsimp only at hwho
    rw [htrace, approvedBy_append] at hwho
    split at hr₀
    next =>
      obtain rfl := Option.some.inj hr₀
      cases hstatus
    next hne =>
      rcases hwho with ⟨-, hid⟩ | ⟨hwho, -⟩
      · exact absurd hid hne
      · exact h.due id r₀ hr₀ hauto hstatus e he who hwho
  · dsimp only
    rw [htrace]
    refine forall_split_append h.attributed (iff_of_true ?_ ?_)
    · intro hrecord
      cases hrecord
    · intro hrecord
      cases hrecord
  · dsimp only
    rw [htrace]
    intro hclosed
    obtain ⟨hstored, hpast⟩ :=
      h.tidy fun w hw => hclosed w (List.mem_append_left _ hw)
    refine ⟨?_, ?_⟩
    · intro id r₀ hr₀ hauto
      rw [hget] at hr₀
      split at hr₀
      next =>
        obtain rfl := Option.some.inj hr₀
        exact htidy
      · exact hstored id r₀ hr₀ hauto
    · intro w hw hauto
      rcases List.mem_append.mp hw with hw | hw
      · exact hpast w hw hauto
      · rw [List.mem_singleton.mp hw]
        exact htidy
  · dsimp only
    rw [htrace]
    intro htidy w hw
    rcases List.mem_append.mp hw with hw | hw
    · exact h.started (fun w hw => htidy w (List.mem_append_left _ hw)) w hw
    · rw [List.mem_singleton.mp hw]
      intro hstart
      cases hstart

theorem signed_empty : Signed .empty where
  working := by
    intro id r hr
    simp [Shared.empty] at hr
  due := by
    intro id r hr
    simp [Shared.empty] at hr
  attributed := by
    intro earlier w later heq
    simp [Shared.empty] at heq
  tidy := by
    intro _
    refine ⟨?_, ?_⟩
    · intro id r hr
      simp [Shared.empty] at hr
    · intro w hw
      exact absurd hw List.not_mem_nil
  started := fun _ w hw => absurd hw List.not_mem_nil

/-- The invariants of the approvals and of the records, together. -/
def auditContract (uuids : Uuids) : Program.Contract Shared where
  invariant := fun s => Inv uuids s ∧ Signed s
  guarantee := fun _ _ => True
  refl := fun _ => trivial
  trans := fun _ _ => trivial

theorem auditContract_lands : Lands uuids (auditContract uuids) where
  put := fun hs hr hchanges =>
    ⟨⟨(Inv.put hs.1 hr (moves_of_changes hchanges)).1,
      hs.2.put hs.1 hr hchanges⟩, trivial⟩
  created := fun input now hs =>
    ⟨⟨(Inv.created hs.1 input now).1, hs.2.created hs.1 input now⟩, trivial⟩

end Reminders

open Reminders in
/-- Any number of callers, in any interleaving: every execution carries its
approver and none stays open behind a later one exactly when each record landed
on an open execution of a due reminder and each start on a reminder without an
open execution. -/
theorem executions_audited_iff {W : Type} [DecidableEq W] (uuids : Uuids)
    (calls : W → Call) (schedule : List (W × Tick)) :
    let fin := (start uuids calls).run schedule
    Audited fin.shared.trace ↔
      ∀ w ∈ fin.shared.trace, RecordsOpen w ∧ StartsClosed w := by
  intro fin
  have hholds : fin.Holds (auditContract uuids) fun _ _ _ => True :=
    ((start uuids calls).holds_run (auditContract_lands.start_holds calls
      ⟨inv_empty, signed_empty⟩) schedule).1
  obtain ⟨-, hsigned⟩ := hholds.1
  constructor
  · rintro ⟨hattributed, htidy⟩ w hw
    obtain ⟨earlier, later, heq⟩ := List.append_of_mem hw
    exact ⟨(hsigned.attributed earlier w later heq).mp
      (hattributed earlier w later heq), hsigned.started htidy w hw⟩
  · intro h
    refine ⟨?_, (hsigned.tidy fun w hw => (h w hw).2).2⟩
    intro earlier w later heq
    have hw : w ∈ fin.shared.trace := by simp [heq]
    exact (hsigned.attributed earlier w later heq).mpr (h w hw).1

/-! ## An execution without its approver -/

namespace Unsigned

open Reminders

/-- A job of every hour that is not autonomous. -/
def input : CreateReminder :=
  { Unapproved.input with schedule := some (.interval 3600) }

def calls : Fin 5 → Call
  | 0 => .create input
  | 1 => .recordExecution "" Unapproved.record
  | 2 => .approve "" "alice"
  | 3 => .start "" "agent"
  | 4 => .recordExecution "" Unapproved.record

/-- The calls one after another. -/
def schedule : List (Fin 5 × Tick) :=
  [0, 0, 1, 1, 1, 2, 2, 2, 3, 3, 3, 4, 4, 4].map fun w => (w, Unapproved.tick)

def created : Reminder := input.intoReminder "" 1

def completed : ExecutionRecord :=
  { Unapproved.record with completedAt := some 1 }

def again : Reminder :=
  { created with
    dueAt := 3600000000001
    status := .awaitingPermission
    executions := [completed] }

def due : Reminder := { again with status := .due }

def opened : ExecutionRecord :=
  { Unapproved.record with result := .deferred }

def working : Reminder :=
  { due with status := .inProgress, executions := [completed, opened] }

def done : Reminder :=
  { working with
    status := .awaitingPermission
    executions := [completed, completed] }

def trace : List Write :=
  [⟨.create input, none, created⟩,
    ⟨.recordExecution "" Unapproved.record, some created, again⟩,
    ⟨.approve "" "alice", some again, due⟩,
    ⟨.start "" "agent", some due, working⟩,
    ⟨.recordExecution "" Unapproved.record, some working, done⟩]

end Unsigned

open Unsigned Reminders in
/-- The job is approved, started and recorded, and the record names nobody. -/
theorem approver_is_lost :
    ((start Unapproved.uuids calls).run schedule).shared.trace = trace ∧
      ¬ Audited trace := by
  refine ⟨by decide, ?_⟩
  rintro ⟨hattributed, -⟩
  have hwho : ApprovedBy (trace.take 4) "" "alice" := by
    refine ⟨trace.take 2, ⟨.approve "" "alice", some again, due⟩,
      [⟨.start "" "agent", some due, working⟩], rfl, ⟨rfl, rfl⟩, ?_⟩
    intro w hw
    rw [List.mem_singleton.mp hw]
    rintro ⟨-, happrover | hwaiting⟩
    · exact happrover rfl
    · cases hwaiting.1
  obtain ⟨e, he, hsigned⟩ := hattributed (trace.take 4) _ [] rfl rfl rfl _ hwho
  obtain rfl := Option.some.inj he
  cases hsigned

end AgentStateGraph
