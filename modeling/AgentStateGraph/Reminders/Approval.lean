import AgentStateGraph.Reminders.Landing

/-!
# Approval of reminders

A reminder that is not autonomous becomes due only by an approval, and every
way back to waiting needs a new one.  Starting an execution asks for a due
reminder.  Recording one asks only that the reminder is not terminal, so the
executions of a run are all approved exactly when every record landed on a
reminder that was due, in progress or autonomous.
-/

namespace AgentStateGraph

namespace Reminders

/-! ## What a write does -/

def ReminderStatus.isWaiting : ReminderStatus → Bool
  | .pending | .snoozed | .awaitingPermission => true
  | _ => false

/-- The statuses that a waiting reminder gets to by its approval. -/
def ReminderStatus.isReady : ReminderStatus → Bool
  | .due | .inProgress => true
  | _ => false

def Call.isApprove : Call → Bool
  | .approve _ _ => true
  | _ => false

def Call.isRecord : Call → Bool
  | .recordExecution _ _ => true
  | _ => false

/-- When each execution was completed, if it was. -/
def completions (l : List ExecutionRecord) : List (Option ℤ) :=
  l.map fun e => e.completedAt

namespace Write

variable (w : Write)

/-- The reminder enters `Pending`, `Snoozed` or `AwaitingPermission`. -/
def EntersWaiting : Prop :=
  w.after.status.isWaiting ∧ w.before.map (fun r => r.status) ≠ some w.after.status

/-- An execution record is started or completed. -/
def Executes : Prop :=
  completions w.after.executions ≠
    completions (w.before.elim [] fun r => r.executions)

end Write

/-- An approval landed, and the reminder did not enter a waiting status
since. -/
def Approved (trace : List Write) (id : String) : Prop :=
  ∃ earlier w later, trace = earlier ++ w :: later ∧
    w.call.isApprove ∧ w.after.id = id ∧
    ∀ w' ∈ later, w'.after.id = id → ¬ w'.EntersWaiting

/-- An execution of a reminder that is not autonomous was approved. -/
def GatedAt (earlier : List Write) (w : Write) : Prop :=
  w.after.autonomous = false → w.Executes → Approved earlier w.after.id

def Gated (trace : List Write) : Prop :=
  ∀ earlier w later, trace = earlier ++ w :: later → GatedAt earlier w

/-- A record landed on a reminder that was autonomous, due or in progress. -/
def RecordReady (w : Write) : Prop :=
  w.call.isRecord → ∃ r ∈ w.before, r.autonomous ∨ r.status.isReady

/-- What a call may do to the record of a reminder. -/
structure Moves (call : Call) (r r' : Reminder) : Prop where
  id : r'.id = r.id
  autonomous : r'.autonomous = r.autonomous
  terminal : r.status.isTerminal → r'.status = r.status
  approve : call.isApprove → r'.status = .due
  ready : r.autonomous = false → r'.status.isReady →
    call.isApprove ∨ r.status.isReady
  executes : completions r'.executions ≠ completions r.executions →
    call.isRecord ∨ r.autonomous ∨ r.status.isReady
  record : call.isRecord → r.status.isTerminal = false ∧
    completions r'.executions ≠ completions r.executions

/-! ## The changes -/

theorem completions_modifyLast (f : ExecutionRecord → ExecutionRecord)
    (hf : ∀ e, (f e).completedAt = e.completedAt) (l : List ExecutionRecord) :
    completions (modifyLast f l) = completions l := by
  refine List.ext_getElem? fun i => ?_
  simp only [completions, modifyLast, List.getElem?_map, List.getElem?_modify]
  split
  · cases l[i]? with
    | none => rfl
    | some e => simp [hf]
  · cases l[i]? <;> rfl

theorem completions_completeLast {record : ExecutionRecord} {now : ℤ}
    (hnow : record.completedAt = some now) (l : List ExecutionRecord) :
    completions (completeLast record l) ≠ completions l := by
  intro heq
  have happend : completions (l ++ [record]) ≠ completions l := by
    intro h
    have hlength := congrArg List.length h
    simp [completions] at hlength
  unfold completeLast at heq
  split at heq
  next last hlast =>
    split at heq
    next hopen =>
      rw [List.getLast?_eq_getElem?] at hlast
      have hat := congrArg (fun m => m[l.length - 1]?) heq
      simp only [completions, modifyLast, List.getElem?_map,
        List.getElem?_modify, hlast, if_true, Option.map_eq_map,
        Option.map_some, hnow, Option.some.injEq] at hat
      rw [← hat] at hopen
      contradiction
    · exact happend heq
  · exact happend heq

section Changes

variable {r r' : Reminder} {now : ℤ} {id : String}

theorem moves_promoted
    (hwaiting : r.status = .pending ∨ r.status = .snoozed)
    (until_ : Option ℤ) :
    Moves .remindMe r { promoted r with snoozedUntil := until_ } where
  id := rfl
  autonomous := rfl
  terminal := by
    intro hterminal
    rcases hwaiting with h | h <;> rw [h] at hterminal <;> contradiction
  approve := by
    intro h
    contradiction
  ready := by
    intro hauto hready
    simp [promoted, hauto, ReminderStatus.isReady] at hready
  executes := fun h => absurd rfl h
  record := by
    intro h
    contradiction

theorem moves_snoozed {until_ : ℤ}
    (h : snoozed id until_ now r = .ok r') :
    Moves (.snooze id until_) r r' := by
  unfold snoozed at h
  split at h
  · contradiction
  next hlive =>
    obtain rfl := Except.ok.inj h
    exact
      { id := rfl
        autonomous := rfl
        terminal := fun hterminal => absurd hterminal hlive
        approve := fun h => absurd h (by simp [Call.isApprove])
        ready := fun _ h => absurd h (by simp [ReminderStatus.isReady])
        executes := fun h => absurd rfl h
        record := fun h => absurd h (by simp [Call.isRecord]) }

theorem moves_cancelled (h : cancelled id now r = .ok r') :
    Moves (.cancel id) r r' := by
  unfold cancelled at h
  split at h
  · contradiction
  next hlive =>
    obtain rfl := Except.ok.inj h
    refine
      { id := rfl
        autonomous := rfl
        terminal := ?_
        approve := fun h => absurd h (by simp [Call.isApprove])
        ready := fun _ h => absurd h (by simp [ReminderStatus.isReady])
        executes := fun h => absurd rfl h
        record := fun h => absurd h (by simp [Call.isRecord]) }
    intro hterminal
    cases hs : r.status <;> simp_all [ReminderStatus.isTerminal]

theorem moves_approved {approvedBy : String}
    (h : approved id approvedBy now r = .ok r') :
    Moves (.approve id approvedBy) r r' := by
  have hstatus : (r.status = .awaitingPermission ∨ r.status = .due) ∧
      r' =
        { r with
          status := .due
          executions := modifyLast
            (fun last =>
              if last.completedAt.isNone then
                { last with approvedBy := some approvedBy }
              else last) r.executions } := by
    simp only [approved] at h
    split at h
    next hs => exact ⟨.inl hs, (Except.ok.inj h).symm⟩
    next hs => exact ⟨.inr hs, (Except.ok.inj h).symm⟩
    · split at h <;> contradiction
  obtain ⟨hstatus, rfl⟩ := hstatus
  refine
    { id := rfl
      autonomous := rfl
      terminal := ?_
      approve := fun _ => rfl
      ready := fun _ _ => .inl rfl
      executes := fun h => absurd (completions_modifyLast _ ?_ _) h
      record := fun h => absurd h (by simp [Call.isRecord]) }
  · intro hterminal
    rcases hstatus with h | h <;> rw [h] at hterminal <;> contradiction
  · intro e
    split
    · rfl
    · rfl

theorem moves_started {agentId : String}
    (h : started id agentId now r = .ok r') :
    Moves (.start id agentId) r r' := by
  have hallowed : (r.status = .due ∨
      r.status = .awaitingPermission ∧ r.autonomous = true) ∧
      r'.id = r.id ∧ r'.autonomous = r.autonomous ∧
      r'.status = .inProgress := by
    simp only [started] at h
    split at h
    next hs =>
      obtain rfl := Except.ok.inj h
      exact ⟨.inl hs, rfl, rfl, rfl⟩
    next hs =>
      split at h
      next hauto =>
        obtain rfl := Except.ok.inj h
        exact ⟨.inr ⟨hs, hauto⟩, rfl, rfl, rfl⟩
      · contradiction
    · split at h <;> contradiction
  obtain ⟨hstatus, hid, hauto, hprogress⟩ := hallowed
  refine
    { id := hid
      autonomous := hauto
      terminal := ?_
      approve := fun h => absurd h (by simp [Call.isApprove])
      ready := ?_
      executes := ?_
      record := fun h => absurd h (by simp [Call.isRecord]) }
  · intro hterminal
    rcases hstatus with h | ⟨h, -⟩ <;> rw [h] at hterminal <;> contradiction
  · intro hauto' _
    rcases hstatus with h | ⟨-, h⟩
    · exact .inr (by rw [h]; rfl)
    · rw [hauto'] at h
      contradiction
  · intro _
    rcases hstatus with h | ⟨-, h⟩
    · exact .inr (.inr (by rw [h]; rfl))
    · exact .inr (.inl h)

theorem settled_keeps (now : ℤ) (result : ExecutionResult) (r : Reminder) :
    (settled now result r).id = r.id ∧
      (settled now result r).autonomous = r.autonomous ∧
      (settled now result r).executions = r.executions ∧
      (r.autonomous = false → (settled now result r).status.isReady →
        r.status.isReady) := by
  cases result with
  | success =>
      simp only [settled]
      split
      · refine ⟨rfl, rfl, rfl, ?_⟩
        intro hauto hready
        simp [hauto, ReminderStatus.isReady] at hready
      · exact ⟨rfl, rfl, rfl, fun _ h =>
          absurd h (by simp [ReminderStatus.isReady])⟩
  | snoozed =>
      exact ⟨rfl, rfl, rfl, fun _ h =>
        absurd h (by simp [settled, ReminderStatus.isReady])⟩
  | cancelled =>
      exact ⟨rfl, rfl, rfl, fun _ h =>
        absurd h (by simp [settled, ReminderStatus.isReady])⟩
  | failed =>
      simp only [settled]
      split
      next hprogress => exact ⟨rfl, rfl, rfl, fun _ _ => by rw [hprogress]; rfl⟩
      · exact ⟨rfl, rfl, rfl, fun _ h => h⟩
  | deferred =>
      simp only [settled]
      split
      next hprogress => exact ⟨rfl, rfl, rfl, fun _ _ => by rw [hprogress]; rfl⟩
      · exact ⟨rfl, rfl, rfl, fun _ h => h⟩

theorem moves_executed {record : ExecutionRecord}
    (h : executed id record now r = .ok r') :
    Moves (.recordExecution id record) r r' := by
  unfold executed at h
  split at h
  · contradiction
  next hlive =>
    obtain rfl := Except.ok.inj h
    obtain ⟨hid, hauto, hexecutions, hready⟩ := settled_keeps now
      record.result { r with
        executions :=
          completeLast { record with completedAt := some now } r.executions }
    exact
      { id := hid
        autonomous := hauto
        terminal := fun hterminal => absurd hterminal hlive
        approve := fun h => absurd h (by simp [Call.isApprove])
        ready := fun hfalse h => .inr (hready hfalse h)
        executes := fun _ => .inl rfl
        record := by
          intro _
          refine ⟨by simpa using hlive, ?_⟩
          rw [hexecutions]
          exact completions_completeLast rfl r.executions }

theorem moves_staled (refId : String) :
    Moves (.markRefStale id refId) r (staled refId r).2 where
  id := rfl
  autonomous := rfl
  terminal := fun _ => rfl
  approve := fun h => absurd h (by simp [Call.isApprove])
  ready := fun _ h => .inr h
  executes := fun h => absurd rfl h
  record := fun h => absurd h (by simp [Call.isRecord])

end Changes

/-! ## Approvals along a run -/

section

variable {trace : List Write} {id : String}

theorem approved_iff_since :
    Approved trace id ↔
      Since (fun w => w.call.isApprove ∧ w.after.id = id)
        (fun w => w.after.id = id ∧ w.EntersWaiting) trace := by
  simp only [Approved, Since, not_and, and_assoc]

theorem approved_append {w : Write} :
    Approved (trace ++ [w]) id ↔
      w.call.isApprove ∧ w.after.id = id ∨
        Approved trace id ∧ (w.after.id = id → ¬ w.EntersWaiting) := by
  rw [approved_iff_since, approved_iff_since, since_append, not_and]

theorem approved_append_of_ne {w : Write} (hne : w.after.id ≠ id) :
    Approved (trace ++ [w]) id ↔ Approved trace id := by
  rw [approved_append]
  simp [hne]

theorem exists_of_approved (h : Approved trace id) :
    ∃ w ∈ trace, w.call.isApprove ∧ w.after.id = id := by
  obtain ⟨earlier, w, later, rfl, happrove, hid, -⟩ := h
  exact ⟨w, by simp, happrove, hid⟩

end

variable (uuids : Uuids)

/-- A live reminder that is not autonomous is due or in progress exactly when
it was approved since it last entered a waiting status. -/
structure Inv (s : Shared) : Prop where
  keyed : ∀ (id : String) (r : Reminder), s.reminders[id]? = some r → r.id = id
  drawn : ∀ (id : String) (r : Reminder), s.reminders[id]? = some r →
    ∃ n < s.drawn, id = uuids.newV4 n
  silent : ∀ id : String, s.reminders[id]? = none →
    ∀ w ∈ s.trace, w.after.id ≠ id
  approval : ∀ (id : String) (r : Reminder), s.reminders[id]? = some r →
    r.autonomous = false → r.status.isTerminal = false →
      (Approved s.trace id ↔ r.status.isReady)
  gated : ∀ earlier w later, s.trace = earlier ++ w :: later →
    (GatedAt earlier w ↔ RecordReady w)

/-- Writes are appended, and a terminal status stays. -/
def Keeps (s t : Shared) : Prop :=
  s.trace <+: t.trace ∧
    ∀ (id : String) (r : Reminder), s.reminders[id]? = some r →
      r.status.isTerminal → ∃ r' : Reminder,
        t.reminders[id]? = some r' ∧ r'.status = r.status

def contract : Program.Contract Shared where
  invariant := Inv uuids
  guarantee := Keeps
  refl := fun _ => ⟨List.prefix_refl _, fun _ r hr _ => ⟨r, hr, rfl⟩⟩
  trans := by
    rintro s t u ⟨hst, hstatus⟩ ⟨htu, hstatus'⟩
    refine ⟨hst.trans htu, ?_⟩
    intro id r hr hterminal
    obtain ⟨r₁, hr₁, heq₁⟩ := hstatus id r hr hterminal
    obtain ⟨r₂, hr₂, heq₂⟩ := hstatus' id r₁ hr₁ (heq₁ ▸ hterminal)
    exact ⟨r₂, hr₂, heq₂.trans heq₁⟩

variable {uuids}

theorem getElem?_put (s : Shared) (call : Call) (r : Reminder) (id : String) :
    (s.put call r).reminders[id]? =
      if r.id = id then some r else s.reminders[id]? := by
  rw [Shared.put, Std.ExtTreeMap.getElem?_insert]
  simp

section Landing

variable {s : Shared} (h : Inv uuids s)

include h

variable {call : Call} {r r' : Reminder}

theorem Inv.gatedAt_iff (hr : s.reminders[r.id]? = some r)
    (hmoves : Moves call r r') :
    GatedAt s.trace ⟨call, some r, r'⟩ ↔ RecordReady ⟨call, some r, r'⟩ := by
  have happroval := h.approval r.id r hr
  constructor
  · intro hgated hrecord
    obtain ⟨hlive, hexecutes⟩ := hmoves.record hrecord
    refine ⟨r, rfl, ?_⟩
    by_cases hauto : r.autonomous
    · exact .inl hauto
    · rw [Bool.not_eq_true] at hauto
      have happroved := hgated (hmoves.autonomous.trans hauto) hexecutes
      rw [hmoves.id] at happroved
      exact .inr ((happroval hauto hlive).mp happroved)
  · intro hready hauto hexecutes
    dsimp only at hauto ⊢
    rw [hmoves.autonomous] at hauto
    rw [hmoves.id]
    have hstatus : r.status.isReady := by
      rcases hmoves.executes hexecutes with hrecord | hcase | hcase
      · obtain ⟨r₀, hr₀, hcase⟩ := hready hrecord
        obtain rfl := Option.some.inj hr₀
        exact hcase.resolve_left (by simp [hauto])
      · rw [hauto] at hcase
        contradiction
      · exact hcase
    refine (happroval hauto ?_).mpr hstatus
    cases hs : r.status <;> simp_all [ReminderStatus.isReady,
      ReminderStatus.isTerminal]

theorem Inv.approved_put_iff (hr : s.reminders[r.id]? = some r)
    (hmoves : Moves call r r') (hauto : r.autonomous = false)
    (hlive : r'.status.isTerminal = false) :
    Approved (s.trace ++ [⟨call, some r, r'⟩]) r.id ↔ r'.status.isReady := by
  have hbefore : r.status.isTerminal = false := by
    by_contra hterminal
    rw [Bool.not_eq_false] at hterminal
    rw [hmoves.terminal hterminal, hterminal] at hlive
    contradiction
  have happroval := h.approval r.id r hr hauto hbefore
  rw [approved_append]
  dsimp only
  constructor
  · rintro (⟨happrove, -⟩ | ⟨happroved, hstays⟩)
    · rw [hmoves.approve happrove]
      rfl
    · have hready := happroval.mp happroved
      have hnot := hstays hmoves.id
      by_contra hnotReady
      refine hnot ⟨?_, ?_⟩
      · dsimp only
        cases hs : r'.status <;> simp_all [ReminderStatus.isReady,
          ReminderStatus.isTerminal, ReminderStatus.isWaiting]
      · intro hsame
        have hstatus : r.status = r'.status := Option.some.inj hsame
        rw [hstatus] at hready
        exact hnotReady hready
  · intro hready
    rcases hmoves.ready hauto hready with happrove | hwas
    · exact .inl ⟨happrove, hmoves.id⟩
    · refine .inr ⟨happroval.mpr hwas, ?_⟩
      rintro - ⟨hwaiting, -⟩
      dsimp only at hwaiting
      cases hs : r'.status <;> simp_all [ReminderStatus.isReady,
        ReminderStatus.isWaiting]

theorem Inv.put (hr : s.reminders[r.id]? = some r) (hmoves : Moves call r r') :
    Inv uuids (s.put call r') ∧ Keeps s (s.put call r') := by
  have htrace : (s.put call r').trace = s.trace ++ [⟨call, some r, r'⟩] := by
    simp [Shared.put, hmoves.id, hr]
  have hget : ∀ id : String, (s.put call r').reminders[id]? =
      if r.id = id then some r' else s.reminders[id]? := by
    intro id
    rw [getElem?_put, hmoves.id]
  refine ⟨⟨?_, ?_, ?_, ?_, ?_⟩, ?_, ?_⟩
  · intro id r₀ hr₀
    rw [hget] at hr₀
    split at hr₀
    next heq =>
      obtain rfl := Option.some.inj hr₀
      rw [hmoves.id, heq]
    · exact h.keyed id r₀ hr₀
  · intro id r₀ hr₀
    rw [hget] at hr₀
    split at hr₀
    next heq => exact heq ▸ h.drawn r.id r hr
    · exact h.drawn id r₀ hr₀
  · intro id hnone w hw
    rw [hget] at hnone
    split at hnone
    · contradiction
    next hne =>
      rw [htrace, List.mem_append, List.mem_singleton] at hw
      rcases hw with hw | rfl
      · exact h.silent id hnone w hw
      · dsimp only
        rwa [hmoves.id]
  · intro id r₀ hr₀ hauto hlive
    rw [hget] at hr₀
    rw [htrace]
    split at hr₀
    next heq =>
      obtain rfl := Option.some.inj hr₀
      rw [← heq]
      exact h.approved_put_iff hr hmoves (hmoves.autonomous ▸ hauto) hlive
    next hne =>
      have hother : (⟨call, some r, r'⟩ : Write).after.id ≠ id := by
        dsimp only
        rwa [hmoves.id]
      rw [approved_append_of_ne hother]
      exact h.approval id r₀ hr₀ hauto hlive
  · rw [htrace]
    exact forall_split_append h.gated (h.gatedAt_iff hr hmoves)
  · rw [htrace]
    exact List.prefix_append _ _
  · intro id r₀ hr₀ hterminal
    rw [hget]
    split
    next heq =>
      rw [← heq, hr] at hr₀
      obtain rfl := Option.some.inj hr₀
      exact ⟨r', rfl, hmoves.terminal hterminal⟩
    · exact ⟨r₀, hr₀, rfl⟩

theorem Inv.fresh : s.reminders[uuids.newV4 s.drawn]? = none := by
  cases hold : s.reminders[uuids.newV4 s.drawn]? with
  | none => rfl
  | some r₀ =>
      obtain ⟨n, hn, heq⟩ := h.drawn _ r₀ hold
      have hsame := uuids.injective heq
      omega

theorem Inv.created (input : CreateReminder) (now : ℤ) :
    Inv uuids { s.put (.create input)
        (input.intoReminder (uuids.newV4 s.drawn) now) with
      drawn := s.drawn + 1 } ∧
    Keeps s { s.put (.create input)
        (input.intoReminder (uuids.newV4 s.drawn) now) with
      drawn := s.drawn + 1 } := by
  set id := uuids.newV4 s.drawn with hid
  set r := input.intoReminder id now with hr
  have hfresh : s.reminders[id]? = none := h.fresh
  have htrace : (s.put (.create input) r).trace =
      s.trace ++ [⟨.create input, none, r⟩] := by
    change s.trace ++ [⟨.create input, s.reminders[id]?, r⟩] = _
    rw [hfresh]
  have hget : ∀ id' : String, (s.put (.create input) r).reminders[id']? =
      if id = id' then some r else s.reminders[id']? :=
    fun id' => getElem?_put s (.create input) r id'
  have hunapproved : ¬ Approved (s.trace ++ [⟨.create input, none, r⟩]) id := by
    rw [approved_append]
    rintro (⟨happrove, -⟩ | ⟨happroved, -⟩)
    · contradiction
    · obtain ⟨w, hw, -, heq⟩ := exists_of_approved happroved
      exact h.silent id hfresh w hw heq
  refine ⟨⟨?_, ?_, ?_, ?_, ?_⟩, ?_, ?_⟩
  · intro id' r₀ hr₀
    rw [hget] at hr₀
    split at hr₀
    next heq =>
      obtain rfl := Option.some.inj hr₀
      exact heq
    · exact h.keyed id' r₀ hr₀
  · intro id' r₀ hr₀
    rw [hget] at hr₀
    split at hr₀
    next heq => exact ⟨s.drawn, Nat.lt_succ_self _, heq.symm.trans hid⟩
    · obtain ⟨n, hn, heq⟩ := h.drawn id' r₀ hr₀
      exact ⟨n, Nat.lt_succ_of_lt hn, heq⟩
  · intro id' hnone w hw
    rw [hget] at hnone
    split at hnone
    · contradiction
    next hne =>
      rw [htrace, List.mem_append, List.mem_singleton] at hw
      rcases hw with hw | rfl
      · exact h.silent id' hnone w hw
      · exact hne
  · intro id' r₀ hr₀ hauto hlive
    rw [hget] at hr₀
    dsimp only
    rw [htrace]
    split at hr₀
    next heq =>
      obtain rfl := Option.some.inj hr₀
      rw [← heq]
      refine iff_of_false hunapproved ?_
      simp [hr, CreateReminder.intoReminder, ReminderStatus.isReady]
    next hne =>
      rw [approved_append_of_ne hne]
      exact h.approval id' r₀ hr₀ hauto hlive
  · dsimp only
    rw [htrace]
    refine forall_split_append h.gated (iff_of_true ?_ ?_)
    · intro _ hexecutes
      exact absurd rfl hexecutes
    · intro hrecord
      contradiction
  · dsimp only
    rw [htrace]
    exact List.prefix_append _ _
  · intro id' r₀ hr₀ hterminal
    dsimp only
    rw [hget]
    split
    next heq =>
      rw [← heq, hfresh] at hr₀
      contradiction
    · exact ⟨r₀, hr₀, rfl⟩

end Landing

/-! ## Calls -/

section Calls

theorem moves_of_changes {call : Call} {r r' : Reminder}
    (h : Changes call r r') : Moves call r r' := by
  cases h with
  | promoted hwaiting => exact moves_promoted hwaiting _
  | snoozed h => exact moves_snoozed h
  | cancelled h => exact moves_cancelled h
  | approved h => exact moves_approved h
  | started h => exact moves_started h
  | executed h => exact moves_executed h
  | staled => exact moves_staled _

theorem contract_lands : Lands uuids (contract uuids) where
  put := fun hs hr hchanges => Inv.put hs hr (moves_of_changes hchanges)
  created := fun input now hs => Inv.created hs input now

theorem inv_empty : Inv uuids .empty where
  keyed := by
    intro id r hr
    simp [Shared.empty] at hr
  drawn := by
    intro id r hr
    simp [Shared.empty] at hr
  silent := by
    intro id _ w hw
    contradiction
  approval := by
    intro id r hr
    simp [Shared.empty] at hr
  gated := by
    intro earlier w later heq
    simp [Shared.empty] at heq

theorem start_holds {W : Type} (calls : W → Call) :
    (start uuids calls).Holds (contract uuids) fun _ _ _ => True :=
  contract_lands.start_holds calls inv_empty

end Calls

end Reminders

open Reminders in
/-- Any number of callers, in any interleaving: every execution of a reminder
that is not autonomous was approved since it last began to wait exactly when
every record landed on a reminder that was autonomous, due or in progress; and
a terminal status stays whatever happens later. -/
theorem executions_approved_iff {W : Type} [DecidableEq W] (uuids : Uuids)
    (calls : W → Call) (schedule : List (W × Tick)) :
    let fin := (start uuids calls).run schedule
    (Gated fin.shared.trace ↔ ∀ w ∈ fin.shared.trace, RecordReady w) ∧
      ∀ (later : List (W × Tick)) (id : String) (r : Reminder),
        fin.shared.reminders[id]? = some r → r.status.isTerminal →
          ∃ r', (fin.run later).shared.reminders[id]? = some r' ∧
            r'.status = r.status := by
  intro fin
  have hholds : fin.Holds (contract uuids) fun _ _ _ => True :=
    ((start uuids calls).holds_run (start_holds calls) schedule).1
  refine ⟨⟨?_, ?_⟩, ?_⟩
  · intro hgated w hw
    obtain ⟨earlier, later, heq⟩ := List.append_of_mem hw
    exact (hholds.1.gated earlier w later heq).mp (hgated earlier w later heq)
  · intro hready earlier w later heq
    have hw : w ∈ fin.shared.trace := by simp [heq]
    exact (hholds.1.gated earlier w later heq).mpr (hready w hw)
  · intro later id r hr hterminal
    exact (fin.holds_run hholds later).2.2 id r hr hterminal

/-! ## A record without an approval -/

namespace Unapproved

open Reminders

def uuids : Uuids where
  newV4 n := String.ofList (List.replicate n 'x')
  injective := by
    intro m n h
    simpa using congrArg List.length (String.ofList_injective h)

def input : CreateReminder where
  title := "rotate"
  instructions := "rotate the keys"
  commands := []
  refs := []
  priority := .medium
  dueAt := 10
  schedule := none
  autonomous := false
  createdBy := "agent"
  tags := []

def record : ExecutionRecord where
  startedAt := 1
  completedAt := none
  agentId := "agent"
  approvedBy := none
  result := .success
  notes := []
  taskId := none

def calls : Bool → Call
  | false => .create input
  | true => .recordExecution "" record

def tick : Tick where
  now := 1
  walk := id
  walk_perm := fun l => List.Perm.refl l

def schedule : List (Bool × Tick) :=
  [(false, tick), (false, tick), (true, tick), (true, tick), (true, tick)]

def reminder : Reminder := input.intoReminder "" 1

def written : Reminder :=
  { reminder with
    status := .completed
    executions := [{ record with completedAt := some 1 }] }

end Unapproved

open Unapproved Reminders in
/-- A pending reminder that nobody approved gets a completed execution. -/
theorem record_lands_unapproved :
    let fin := (start uuids calls).run schedule
    fin.shared.trace = [⟨.create input, none, reminder⟩,
        ⟨.recordExecution "" record, some reminder, written⟩] ∧
      (∀ w ∈ fin.shared.trace, w.call.isApprove = false) ∧
      ¬ Gated fin.shared.trace := by
  have htrace : ((start uuids calls).run schedule).shared.trace =
      [⟨.create input, none, reminder⟩,
        ⟨.recordExecution "" record, some reminder, written⟩] := by
    decide
  intro fin
  rw [htrace]
  refine ⟨rfl, by decide, ?_⟩
  intro hgated
  have hexecutes : Write.Executes
      ⟨.recordExecution "" record, some reminder, written⟩ :=
    List.cons_ne_nil _ _
  obtain ⟨w, hw, happrove, -⟩ :=
    exists_of_approved (hgated [_] _ [] rfl rfl hexecutes)
  rw [List.mem_singleton.mp hw] at happrove
  contradiction

end AgentStateGraph
