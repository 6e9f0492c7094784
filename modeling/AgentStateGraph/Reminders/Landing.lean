import AgentStateGraph.Reminders.Manager

/-!
# Writes that land

Whatever calls run side by side, a write lands on the record that was read and
changes it as its call says.  A contract that these writes keep holds along
every run.
-/

namespace AgentStateGraph

namespace Reminders

open Program Manager

/-- What a call does to the record that its write replaces. -/
inductive Changes : Call → Reminder → Reminder → Prop
  | promoted {r : Reminder} {until_ : Option ℤ}
      (hwaiting : r.status = .pending ∨ r.status = .snoozed) :
      Changes .remindMe r { promoted r with snoozedUntil := until_ }
  | snoozed {id : String} {until_ now : ℤ} {r r' : Reminder}
      (h : snoozed id until_ now r = .ok r') : Changes (.snooze id until_) r r'
  | cancelled {id : String} {now : ℤ} {r r' : Reminder}
      (h : cancelled id now r = .ok r') : Changes (.cancel id) r r'
  | approved {id approvedBy : String} {now : ℤ} {r r' : Reminder}
      (h : approved id approvedBy now r = .ok r') :
      Changes (.approve id approvedBy) r r'
  | started {id agentId : String} {now : ℤ} {r r' : Reminder}
      (h : started id agentId now r = .ok r') : Changes (.start id agentId) r r'
  | executed {id : String} {record : ExecutionRecord} {now : ℤ} {r r' : Reminder}
      (h : executed id record now r = .ok r') :
      Changes (.recordExecution id record) r r'
  | staled {id refId : String} {r : Reminder} :
      Changes (.markRefStale id refId) r (staled refId r).2

/-! ## What happened last in a run -/

/-- Something happened, and nothing since that breaks it. -/
def Since (happens breaks : Write → Prop) (trace : List Write) : Prop :=
  ∃ earlier w later, trace = earlier ++ w :: later ∧ happens w ∧
    ∀ w' ∈ later, ¬ breaks w'

theorem since_append {happens breaks : Write → Prop} {trace : List Write}
    {w : Write} :
    Since happens breaks (trace ++ [w]) ↔
      happens w ∨ Since happens breaks trace ∧ ¬ breaks w := by
  constructor
  · rintro ⟨earlier, w₀, later, heq, hw₀, hlater⟩
    rcases List.eq_nil_or_concat later with rfl | ⟨later, last, rfl⟩
    · obtain ⟨-, hlast⟩ := List.append_inj' heq rfl
      obtain rfl := List.singleton_inj.mp hlast
      exact .inl hw₀
    · have hcut : trace ++ [w] = (earlier ++ w₀ :: later) ++ [last] := by
        simpa using heq
      obtain ⟨htrace, hlast⟩ := List.append_inj' hcut rfl
      obtain rfl := List.singleton_inj.mp hlast
      refine .inr ⟨⟨earlier, w₀, later, htrace, hw₀, ?_⟩, hlater w (by simp)⟩
      intro w' hw'
      exact hlater w' (by simp [hw'])
  · rintro (hw | ⟨⟨earlier, w₀, later, rfl, hw₀, hlater⟩, hlast⟩)
    · exact ⟨trace, w, [], rfl, hw, by simp⟩
    · refine ⟨earlier, w₀, later ++ [w], by simp, hw₀, ?_⟩
      intro w' hw'
      rcases List.mem_append.mp hw' with hw' | hw'
      · exact hlater w' hw'
      · rw [List.mem_singleton.mp hw']
        exact hlast

theorem forall_split_append {P : List Write → Write → Prop} {trace : List Write}
    {w : Write}
    (h : ∀ earlier w' later, trace = earlier ++ w' :: later → P earlier w')
    (hlast : P trace w) :
    ∀ earlier w' later, trace ++ [w] = earlier ++ w' :: later → P earlier w' := by
  intro earlier w' later heq
  rcases List.eq_nil_or_concat later with rfl | ⟨later, last, rfl⟩
  · obtain ⟨rfl, hw⟩ := List.append_inj' heq rfl
    obtain rfl := List.singleton_inj.mp hw
    exact hlast
  · have hcut : trace ++ [w] = (earlier ++ w' :: later) ++ [last] := by
      simpa using heq
    exact h earlier w' later (List.append_inj' hcut rfl).1

/-! ## Contracts of the landing writes -/

variable {uuids : Uuids}

/-- The contract is kept by every write of a record that is still what was
read, and by a new record under the next id. -/
structure Lands (uuids : Uuids) (C : Program.Contract Shared) : Prop where
  put : ∀ {s : Shared} {call : Call} {r r' : Reminder}, C.invariant s →
    s.reminders[r.id]? = some r → Changes call r r' →
      C.invariant (s.put call r') ∧ C.guarantee s (s.put call r')
  created : ∀ {s : Shared} (input : CreateReminder) (now : ℤ), C.invariant s →
    C.invariant { s.put (.create input)
        (input.intoReminder (uuids.newV4 s.drawn) now) with
      drawn := s.drawn + 1 } ∧
    C.guarantee s { s.put (.create input)
        (input.intoReminder (uuids.newV4 s.drawn) now) with
      drawn := s.drawn + 1 }

theorem status_of_mem_list {s : Shared} {tick : Tick} {status : ReminderStatus}
    {r : Reminder} (hr : r ∈ s.list tick { status := some status }) :
    r.status = status := by
  rw [Shared.list, (List.mergeSort_perm _ _).mem_iff, List.mem_filter] at hr
  simpa [ReminderFilter.matches_] using hr.2

namespace Lands

variable {C : Program.Contract Shared} (hC : Lands uuids C) {s : Shared}

include hC

theorem steady_updateIfUnchanged {call : Call} {r r' : Reminder}
    (hchanges : Changes call r r') :
    Steady C (updateIfUnchanged call r r') s := by
  refine steady_call ?_
  intro _ t ht
  dsimp only [Shared.updateIfUnchanged]
  split
  next current hcurrent =>
    split
    next heq =>
      subst heq
      exact hC.put ht hcurrent hchanges
    · exact ⟨ht, C.refl t⟩
  · exact ⟨ht, C.refl t⟩

theorem steady_modify {call : Call} {id : String} {change : Change}
    (hchange : ∀ now r r', change now r = .ok r' → Changes call r r')
    (attempts : ℕ) : Steady C (modify call id change attempts) s := by
  induction attempts generalizing s with
  | zero => exact steady_pure _
  | succ attempts ih =>
      refine (steady_read _).attempt fun seen s => ?_
      refine (steady_read _).bind fun now s => ?_
      split
      · exact steady_pure _
      next r hr =>
        refine (hC.steady_updateIfUnchanged (hchange _ _ _ hr)).attempt ?_
        intro landed s
        cases landed with
        | true => exact steady_pure _
        | false => exact ih

theorem steady_markRefStale (id refId : String) (attempts : ℕ) :
    Steady C (markRefStale (.markRefStale id refId) id refId attempts) s := by
  induction attempts generalizing s with
  | zero => exact steady_pure _
  | succ attempts ih =>
      refine (steady_read _).attempt fun seen s => ?_
      dsimp only
      split
      · exact steady_pure _
      · refine (hC.steady_updateIfUnchanged .staled).attempt ?_
        intro landed s
        cases landed with
        | true => exact steady_pure _
        | false => exact ih

theorem steady_promote {wake : Reminder → ℤ} {next : Reminder → Reminder}
    {now : ℤ} {rs : List Reminder}
    (hchanges : ∀ r ∈ rs, Changes .remindMe r (next r)) :
    Steady C (promote wake next now rs) s := by
  induction rs generalizing s with
  | nil => exact steady_pure _
  | cons seen rest ih =>
      have hrest : ∀ s, Steady C (promote wake next now rest) s :=
        fun s => ih fun r hr => hchanges r (List.mem_cons_of_mem _ hr)
      rw [promote]
      split
      · have hseen := hchanges seen List.mem_cons_self
        exact (hC.steady_updateIfUnchanged hseen).attempt fun _ s => hrest s
      · exact hrest s

theorem steady_remindMe : Steady C remindMe s := by
  refine (steady_read _).bind fun now s => ?_
  refine safe_read fun tick t _ _ => ?_
  refine (hC.steady_promote ?_).attempt fun _ s => ?_
  · intro r hr
    exact @Changes.promoted r r.snoozedUntil (.inl (status_of_mem_list hr))
  refine safe_read fun tick t _ _ => ?_
  refine (hC.steady_promote ?_).attempt fun _ s => ?_
  · intro r hr
    exact Changes.promoted (.inr (status_of_mem_list hr))
  refine (steady_read _).bind fun due s => ?_
  refine (steady_read _).bind fun awaiting s => ?_
  exact steady_pure _

theorem steady_create (input : CreateReminder) :
    Steady C (create uuids input) s := by
  refine (steady_read _).bind fun now s => ?_
  exact steady_call fun _ t ht => hC.created input now ht

theorem steady_program (call : Call) : Steady C (program uuids call) s := by
  have hanswer : ∀ {α : Type} {p : Manager (Result α)} {f : α → Answer},
      Steady C p s → Steady C (answer p f) s :=
    fun hp => hp.attempt fun _ _ => steady_pure _
  cases call with
  | create input => exact hanswer (hC.steady_create input)
  | remindMe => exact hanswer hC.steady_remindMe
  | snooze id until_ =>
      exact hanswer (hC.steady_modify (fun _ _ _ => .snoozed) _)
  | cancel id => exact hanswer (hC.steady_modify (fun _ _ _ => .cancelled) _)
  | approve id approvedBy =>
      exact hanswer (hC.steady_modify (fun _ _ _ => .approved) _)
  | start id agentId =>
      exact hanswer (hC.steady_modify (fun _ _ _ => .started) _)
  | recordExecution id record =>
      exact hanswer (hC.steady_modify (fun _ _ _ => .executed) _)
  | markRefStale id refId => exact hanswer (hC.steady_markRefStale id refId _)

theorem start_holds {W : Type} (calls : W → Call) (hempty : C.invariant .empty) :
    (start uuids calls).Holds C fun _ _ _ => True :=
  ⟨hempty, fun w => hC.steady_program (calls w)⟩

end Lands

end Reminders

end AgentStateGraph
