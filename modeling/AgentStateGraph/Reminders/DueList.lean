import AgentStateGraph.Lib.KeyedJoin
import AgentStateGraph.Reminders.Approval

/-!
# What `remind_me` returns

The pending and the snoozed reminders whose time has come are promoted, and then
all that are due or await permission are listed, whatever their times are.
-/

namespace AgentStateGraph

namespace Reminders

open Program Manager

/-! ## The list -/

/-- When a reminder's turn comes: a snoozed one wakes, another is due. -/
def wakeAt (r : Reminder) : ℤ :=
  if r.status = .snoozed then r.snoozedUntil.getD r.dueAt else r.dueAt

/-- A live reminder nobody works on, whose time has come. -/
def DueBy (now : ℤ) (r : Reminder) : Prop :=
  r.status.isTerminal = false ∧ r.status ≠ .inProgress ∧ wakeAt r ≤ now

/-- A reminder that is due or awaits permission already, or is promoted. -/
def Actionable (now : ℤ) (r : Reminder) : Prop :=
  r.status = .due ∨ r.status = .awaitingPermission ∨
    (r.status = .pending ∨ r.status = .snoozed) ∧ wakeAt r ≤ now

/-- A reminder as it is returned: one that waited is promoted. -/
def awakened (r : Reminder) : Reminder :=
  match r.status with
  | .pending => promoted r
  | .snoozed => { promoted r with snoozedUntil := none }
  | _ => r

/-- The reminders of a store with a property, each once and as it is returned,
by priority and then by due time. -/
structure Lists (s : Shared) (p : Reminder → Prop) (l : List Reminder) : Prop where
  mem_iff : ∀ r', r' ∈ l ↔
    ∃ r, s.reminders[r.id]? = some r ∧ p r ∧ r' = awakened r
  once : (l.map fun r => r.id).Nodup
  sorted : l.Pairwise fun a b => a.priority.asU8 < b.priority.asU8 ∨
    a.priority = b.priority ∧ a.dueAt ≤ b.dueAt

/-! ## Listings -/

theorem asU8_injective : Function.Injective Priority.asU8 := by
  intro a b h
  cases a <;> cases b <;> first | rfl | cases h

theorem urgent_iff {a b : Reminder} :
    urgent a b = true ↔ a.priority.asU8 < b.priority.asU8 ∨
      a.priority = b.priority ∧ a.dueAt ≤ b.dueAt := by
  simp [urgent]

theorem pairwise_urgent (l : List Reminder) :
    (l.mergeSort urgent).Pairwise fun a b =>
      a.priority.asU8 < b.priority.asU8 ∨
        a.priority = b.priority ∧ a.dueAt ≤ b.dueAt := by
  have hsorted : (l.mergeSort urgent).Pairwise fun a b => urgent a b = true := by
    apply List.pairwise_mergeSort
    · intro a b c hab hbc
      rw [urgent_iff] at *
      rcases hab with hab | ⟨hab, hab'⟩ <;> rcases hbc with hbc | ⟨hbc, hbc'⟩
      · exact Or.inl (hab.trans hbc)
      · exact Or.inl (hbc ▸ hab)
      · exact Or.inl (hab ▸ hbc)
      · exact Or.inr ⟨hab.trans hbc, hab'.trans hbc'⟩
    · intro a b
      rw [Bool.or_eq_true, urgent_iff, urgent_iff]
      rcases lt_trichotomy a.priority.asU8 b.priority.asU8 with h | h | h
      · exact Or.inl (Or.inl h)
      · have hsame := asU8_injective h
        rcases le_total a.dueAt b.dueAt with hdue | hdue
        · exact Or.inl (Or.inr ⟨hsame, hdue⟩)
        · exact Or.inr (Or.inr ⟨hsame.symm, hdue⟩)
      · exact Or.inr (Or.inl h)
  exact hsorted.imp urgent_iff.mp

/-- Every reminder is stored under its own id. -/
def Keyed (s : Shared) : Prop :=
  ∀ (id : String) (r : Reminder), s.reminders[id]? = some r → r.id = id

section Listing

variable {s : Shared} {tick : Tick} {status : ReminderStatus}

theorem mem_list_iff (hs : Keyed s) {r : Reminder} :
    r ∈ s.list tick { status := some status } ↔
      s.reminders[r.id]? = some r ∧ r.status = status := by
  rw [Shared.list, List.mem_mergeSort, List.mem_filter,
    (tick.walk_perm _).mem_iff, List.mem_map]
  apply and_congr
  · constructor
    · rintro ⟨⟨id, r'⟩, hmem, rfl⟩
      have hget := Std.ExtTreeMap.mem_toList_iff_getElem?_eq_some.mp hmem
      dsimp only
      rw [hs id r' hget]
      exact hget
    · intro hget
      exact ⟨(r.id, r), Std.ExtTreeMap.mem_toList_iff_getElem?_eq_some.mpr hget,
        rfl⟩
  · simp [ReminderFilter.matches_]

theorem nodup_list (hs : Keyed s) (filter : ReminderFilter) :
    ((s.list tick filter).map fun r => r.id).Nodup := by
  have hkeys : ((s.reminders.toList.map Prod.snd).map fun r => r.id).Nodup := by
    have hsame : (s.reminders.toList.map Prod.snd).map (fun r => r.id) =
        s.reminders.toList.map Prod.fst := by
      rw [List.map_map]
      apply List.map_congr_left
      rintro ⟨id, r⟩ hmem
      exact hs id r (Std.ExtTreeMap.mem_toList_iff_getElem?_eq_some.mp hmem)
    rw [hsame]
    exact KeyedJoin.nodup_keys _
  have hwalk := ((tick.walk_perm _).map fun r => r.id).nodup_iff.mpr hkeys
  rw [Shared.list, ((List.mergeSort_perm _ _).map _).nodup_iff]
  exact hwalk.sublist ((List.filter_sublist).map _)

end Listing

/-! ## Promotions -/

/-- The rest of a call goes on from the state that its first part left. -/
theorem alone_attempt_ok {α β : Type} {tick : Tick} {p : Manager (Result α)}
    {f : α → Manager (Result β)} {s t : Shared} {a : α}
    (h : alone tick p s = (.ok a, t)) :
    alone tick (attempt p f) s = alone tick (f a) t := by
  rw [attempt, alone_bind, h]

theorem alone_updateIfUnchanged {tick : Tick} {s : Shared} {call : Call}
    {r r' : Reminder} (hr : s.reminders[r.id]? = some r) :
    alone tick (updateIfUnchanged call r r') s = (.ok true, s.put call r') := by
  change s.updateIfUnchanged call r r' = _
  rw [Shared.updateIfUnchanged, hr]
  exact if_pos rfl

section Promote

variable {wake : Reminder → ℤ} {next : Reminder → Reminder} {now : ℤ}
  {tick : Tick} {s : Shared}

theorem alone_promote (hnext : ∀ r, (next r).id = r.id) {rs : List Reminder}
    (honce : (rs.map fun r => r.id).Nodup)
    (hstored : ∀ r ∈ rs, s.reminders[r.id]? = some r) (hs : Keyed s) :
    ∃ t, alone tick (promote wake next now rs) s = (.ok (), t) ∧
      ∀ id : String, t.reminders[id]? = (s.reminders[id]?).map fun r =>
        if r ∈ rs ∧ wake r ≤ now then next r else r := by
  induction rs generalizing s with
  | nil =>
      refine ⟨s, rfl, ?_⟩
      intro id
      simp
  | cons seen rest ih =>
      rw [List.map_cons, List.nodup_cons] at honce
      have hfresh : ∀ r ∈ rest, r.id ≠ seen.id := by
        intro r hr heq
        exact honce.1 (List.mem_map.mpr ⟨r, hr, heq⟩)
      have hseen := hstored seen List.mem_cons_self
      rw [promote]
      split
      case isTrue hwake =>
        have hput := @alone_updateIfUnchanged tick s .remindMe seen (next seen) hseen
        have hget : ∀ id : String, (s.put .remindMe (next seen)).reminders[id]? =
            if seen.id = id then some (next seen) else s.reminders[id]? := by
          intro id
          rw [getElem?_put, hnext]
        have hkeyed : Keyed (s.put .remindMe (next seen)) := by
          intro id r hr
          rw [hget] at hr
          split at hr
          case isTrue heq =>
            obtain rfl := Option.some.inj hr
            exact (hnext seen).trans heq
          case isFalse => exact hs id r hr
        obtain ⟨t, ht, hreminders⟩ := ih honce.2 (by
          intro r hr
          rw [hget, if_neg (Ne.symm (hfresh r hr))]
          exact hstored r (List.mem_cons_of_mem _ hr)) hkeyed
        refine ⟨t, (alone_attempt_ok hput).trans ht, ?_⟩
        intro id
        rw [hreminders, hget]
        split
        case isTrue heq =>
          have hnot : next seen ∉ rest :=
            fun hmem => hfresh _ hmem (hnext seen)
          rw [← heq, hseen, Option.map_some, Option.map_some,
            if_neg (fun h => hnot h.1), if_pos ⟨List.mem_cons_self, hwake⟩]
        case isFalse hne =>
          apply Option.map_congr
          intro r hr
          have hother : r ≠ seen := by
            rintro rfl
            exact hne (hs id r hr)
          simp [hother]
      case isFalse hwake =>
        obtain ⟨t, ht, hreminders⟩ := ih honce.2
          (fun r hr => hstored r (List.mem_cons_of_mem _ hr)) hs
        refine ⟨t, ht, ?_⟩
        intro id
        rw [hreminders]
        apply Option.map_congr
        intro r hr
        by_cases hsame : r = seen
        · subst hsame
          simp [hwake]
        · simp [hsame]

theorem alone_promote_status {status : ReminderStatus}
    (hnext : ∀ r, (next r).id = r.id) (hs : Keyed s) :
    ∃ t, alone tick (promote wake next now
        (s.list tick { status := some status })) s = (.ok (), t) ∧
      ∀ id : String, t.reminders[id]? = (s.reminders[id]?).map fun r =>
        if r.status = status ∧ wake r ≤ now then next r else r := by
  obtain ⟨t, ht, hreminders⟩ := @alone_promote wake next now tick s hnext
    (s.list tick { status := some status }) (nodup_list hs _)
    (fun r hr => ((mem_list_iff hs).mp hr).1) hs
  refine ⟨t, ht, ?_⟩
  intro id
  rw [hreminders]
  apply Option.map_congr
  intro r hr
  have hkey : s.reminders[r.id]? = some r := by rw [hs id r hr, hr]
  simp only [mem_list_iff hs, hkey, true_and]

end Promote

theorem keyed_map {s t : Shared} {f : Reminder → Reminder} (hs : Keyed s)
    (hf : ∀ r, (f r).id = r.id)
    (ht : ∀ id : String, t.reminders[id]? = (s.reminders[id]?).map f) : Keyed t := by
  intro id r hr
  rw [ht] at hr
  obtain ⟨r₀, hr₀, rfl⟩ := Option.map_eq_some_iff.mp hr
  exact (hf r₀).trans (hs id r₀ hr₀)

/-- A pending reminder after the first promotion. -/
def dueNow (now : ℤ) (r : Reminder) : Reminder :=
  if r.status = .pending ∧ r.dueAt ≤ now then promoted r else r

/-- A snoozed reminder after the second promotion. -/
def wokenNow (now : ℤ) (r : Reminder) : Reminder :=
  if r.status = .snoozed ∧ r.snoozedUntil.getD r.dueAt ≤ now then
    { promoted r with snoozedUntil := none }
  else r

theorem id_awakened (r : Reminder) : (awakened r).id = r.id := by
  unfold awakened
  split <;> rfl

theorem id_dueNow (now : ℤ) (r : Reminder) : (dueNow now r).id = r.id := by
  unfold dueNow
  split <;> rfl

theorem id_wokenNow (now : ℤ) (r : Reminder) : (wokenNow now r).id = r.id := by
  unfold wokenNow
  split <;> rfl

theorem status_promoted (r : Reminder) :
    (promoted r).status = .due ∨ (promoted r).status = .awaitingPermission := by
  by_cases hauto : r.autonomous = true <;> simp [promoted, hauto]

theorem promotions {now : ℤ} {r : Reminder} :
    (Actionable now r → wokenNow now (dueNow now r) = awakened r) ∧
      (((wokenNow now (dueNow now r)).status = .due ∨
        (wokenNow now (dueNow now r)).status = .awaitingPermission) ↔
          Actionable now r) := by
  have hpromoted := status_promoted r
  cases hstatus : r.status with
  | pending =>
      have hwoken : ∀ r' : Reminder, r'.status ≠ .snoozed → wokenNow now r' = r' :=
        fun r' h => if_neg fun h' => h h'.1
      by_cases hdue : r.dueAt ≤ now
      · have hstep : dueNow now r = promoted r := if_pos ⟨hstatus, hdue⟩
        have hnot : (promoted r).status ≠ .snoozed := by
          rcases hpromoted with h | h <;> simp [h]
        rw [hstep, hwoken _ hnot]
        simp [Actionable, awakened, wakeAt, hstatus, hdue, hpromoted]
      · have hstep : dueNow now r = r := if_neg fun h => hdue h.2
        rw [hstep, hwoken _ (by simp [hstatus])]
        simp [Actionable, wakeAt, hstatus, hdue]
  | snoozed =>
      have hstep : dueNow now r = r := if_neg fun h => by simp [hstatus] at h
      rw [hstep]
      by_cases hwake : r.snoozedUntil.getD r.dueAt ≤ now
      · have hwoken : wokenNow now r = { promoted r with snoozedUntil := none } :=
          if_pos ⟨hstatus, hwake⟩
        rw [hwoken]
        simp [Actionable, awakened, wakeAt, hstatus, hwake, hpromoted]
      · have hwoken : wokenNow now r = r := if_neg fun h => hwake h.2
        rw [hwoken]
        simp [Actionable, wakeAt, hstatus, hwake]
  | _ =>
      have hstep : dueNow now r = r := if_neg fun h => by simp [hstatus] at h
      have hwoken : wokenNow now r = r := if_neg fun h => by simp [hstatus] at h
      rw [hstep, hwoken]
      simp [Actionable, awakened, hstatus]

theorem remindMe_lists {s : Shared} (hs : Keyed s) (tick : Tick) :
    ∃ l t, alone tick remindMe s = (.ok l, t) ∧
      Lists s (Actionable tick.now) l := by
  obtain ⟨t₁, h₁, hget₁⟩ := @alone_promote_status (fun r => r.dueAt) promoted
    tick.now tick s .pending (fun _ => rfl) hs
  have hkeyed₁ : Keyed t₁ := keyed_map hs (id_dueNow tick.now) hget₁
  obtain ⟨t₂, h₂, hget₂⟩ := @alone_promote_status
    (fun r => r.snoozedUntil.getD r.dueAt)
    (fun r => { promoted r with snoozedUntil := none })
    tick.now tick t₁ .snoozed (fun _ => rfl) hkeyed₁
  have hkeyed₂ : Keyed t₂ := keyed_map hkeyed₁ (id_wokenNow tick.now) hget₂
  have hget : ∀ id : String, t₂.reminders[id]? = (s.reminders[id]?).map
      fun r => wokenNow tick.now (dueNow tick.now r) := by
    intro id
    rw [hget₂, hget₁, Option.map_map]
    rfl
  refine ⟨_, t₂, (alone_attempt_ok h₁).trans ((alone_attempt_ok h₂).trans rfl),
    ?_, ?_, pairwise_urgent _⟩
  · intro r'
    rw [List.mem_mergeSort, List.mem_append, mem_list_iff hkeyed₂,
      mem_list_iff hkeyed₂, ← and_or_left, hget, Option.map_eq_some_iff]
    constructor
    · rintro ⟨⟨r, hr, rfl⟩, hstatus⟩
      have hactionable := promotions.2.mp hstatus
      have hid : (wokenNow tick.now (dueNow tick.now r)).id = r.id :=
        (id_wokenNow _ _).trans (id_dueNow _ _)
      exact ⟨r, hid ▸ hr, hactionable, promotions.1 hactionable⟩
    · rintro ⟨r, hr, hactionable, rfl⟩
      refine ⟨⟨r, ?_, promotions.1 hactionable⟩, ?_⟩
      · rw [← promotions.1 hactionable, id_wokenNow, id_dueNow]
        exact hr
      · rw [← promotions.1 hactionable]
        exact promotions.2.mpr hactionable
  · rw [((List.mergeSort_perm _ _).map _).nodup_iff, List.map_append,
      List.nodup_append]
    refine ⟨nodup_list hkeyed₂ _, nodup_list hkeyed₂ _, ?_⟩
    intro id hdue id' hawaiting heq
    obtain ⟨r, hr, rfl⟩ := List.mem_map.mp hdue
    obtain ⟨r', hr', rfl⟩ := List.mem_map.mp hawaiting
    obtain ⟨hget, hstatus⟩ := (mem_list_iff hkeyed₂).mp hr
    obtain ⟨hget', hstatus'⟩ := (mem_list_iff hkeyed₂).mp hr'
    rw [heq, hget'] at hget
    obtain rfl := Option.some.inj hget
    rw [hstatus] at hstatus'
    cases hstatus'

theorem keyed_run {W : Type} [DecidableEq W] (uuids : Uuids) (calls : W → Call)
    (schedule : List (W × Tick)) :
    Keyed ((start uuids calls).run schedule).shared :=
  ((start uuids calls).holds_run (start_holds calls) schedule).1.1.keyed

end Reminders

namespace Early

open Reminders

/-- A job of every hour that is not autonomous. -/
def input : CreateReminder :=
  { Unapproved.input with schedule := some (.interval 3600) }

def calls : Bool → Call
  | false => .create input
  | true => .recordExecution "" Unapproved.record

/-- The job after its first run, with an hour to go. -/
def again : Reminder :=
  { input.intoReminder "" 1 with
    dueAt := 3600000000001
    status := .awaitingPermission
    executions := [{ Unapproved.record with completedAt := some 1 }] }

end Early

end AgentStateGraph
