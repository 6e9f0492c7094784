import AgentStateGraph.Lib.Panics
import AgentStateGraph.Reminders.Manager
import Mathlib.Order.Bounds.Defs

/-!
# When a schedule is next due

Dates have a first and a last day, and arithmetic that leaves them panics.  A
time of day is a second of the day and a fraction of it, which passes a whole
second at a leap second.
-/

namespace AgentStateGraph

namespace Reminders

/-! ## Dates and times -/

/-- The first and the last day that a date can be, in days since the epoch. -/
structure Calendar where
  first : ℤ
  last : ℤ

@[ext] structure NaiveDate (cal : Calendar) where
  day : ℤ
  first_le : cal.first ≤ day
  le_last : day ≤ cal.last
deriving DecidableEq

@[ext] structure NaiveTime where
  secs : ℕ
  frac : ℕ
  secs_lt : secs < 86400
  frac_lt : frac < 2000000000
deriving DecidableEq

namespace NaiveTime

/-- Times of day are compared by the second, then by the fraction. -/
def rank (t : NaiveTime) : ℕ := t.secs * 2000000000 + t.frac

theorem rank_injective : Function.Injective rank := by
  intro a b hab
  have ha := a.frac_lt
  have hb := b.frac_lt
  simp only [rank] at hab
  apply NaiveTime.ext <;> omega

instance : LinearOrder NaiveTime := LinearOrder.lift' rank rank_injective

theorem lt_iff {a b : NaiveTime} : a < b ↔ a.rank < b.rank := Iff.rfl

theorem le_iff {a b : NaiveTime} : a ≤ b ↔ a.rank ≤ b.rank := Iff.rfl

theorem rank_lt (t : NaiveTime) : t.rank < 172800000000000 := by
  have hsecs := t.secs_lt
  have hfrac := t.frac_lt
  simp only [rank]
  omega

/-- The time `s` seconds on, and the days it carries.  Seconds added to a leap
second start from the second before it, seconds taken away from the one after
it. -/
def overflowingAddSeconds (t : NaiveTime) (s : ℤ) : NaiveTime × ℤ :=
  let start : ℤ × ℕ :=
    if t.frac < 1000000000 ∨ s = 0 then (t.secs, t.frac)
    else if 0 < s then (t.secs, t.frac - 1000000000)
    else (t.secs + 1, t.frac - 1000000000)
  let secs := start.1 + s
  (⟨(secs % 86400).toNat, start.2,
    by omega,
    by
      have hfrac := t.frac_lt
      simp only [start]
      split_ifs <;> simp only [] <;> omega⟩,
   secs / 86400)

end NaiveTime

@[ext] structure DateTime (cal : Calendar) where
  date : NaiveDate cal
  time : NaiveTime
deriving DecidableEq

namespace DateTime

variable {cal : Calendar}

/-- Instants are compared by the date, then by the time of day. -/
def rank (t : DateTime cal) : ℤ := t.date.day * 172800000000000 + t.time.rank

theorem rank_injective : Function.Injective (@rank cal) := by
  intro a b hab
  have ha := a.time.rank_lt
  have hb := b.time.rank_lt
  simp only [rank] at hab
  apply DateTime.ext
  · apply NaiveDate.ext
    omega
  · apply NaiveTime.rank_injective
    omega

instance : LinearOrder (DateTime cal) := LinearOrder.lift' rank rank_injective

theorem lt_iff {a b : DateTime cal} :
    a < b ↔ a.date.day < b.date.day ∨
      a.date.day = b.date.day ∧ a.time < b.time := by
  have ha := a.time.rank_lt
  have hb := b.time.rank_lt
  change a.rank < b.rank ↔ _
  simp only [NaiveTime.lt_iff, rank]
  omega

theorem le_iff {a b : DateTime cal} :
    a ≤ b ↔ a.date.day < b.date.day ∨
      a.date.day = b.date.day ∧ a.time ≤ b.time := by
  have ha := a.time.rank_lt
  have hb := b.time.rank_lt
  change a.rank ≤ b.rank ↔ _
  simp only [NaiveTime.le_iff, rank]
  omega

/-- The seconds from the epoch to the second of `t`. -/
def seconds (t : DateTime cal) : ℤ := t.date.day * 86400 + t.time.secs

end DateTime

/-! ## The code -/

section Code

variable {cal : Calendar}

/-- A date that arithmetic arrives at, when the calendar has it. -/
def checkedDate (day : ℤ) : Calls Empty (NaiveDate cal) :=
  if h : cal.first ≤ day ∧ day ≤ cal.last then .ok ⟨day, h.1, h.2⟩
  else .error .panics

/-- `date + Days::new(1)`. -/
def NaiveDate.addDay (date : NaiveDate cal) : Calls Empty (NaiveDate cal) :=
  checkedDate (date.day + 1)

/-- The most seconds a `Duration` can have, either way. -/
def MAX_SECONDS : ℕ := 9223372036854775

/-- `Duration::seconds`, which panics out of its range. -/
def durationSeconds (s : ℤ) : Calls Empty ℤ :=
  if s.natAbs ≤ MAX_SECONDS then .ok s else .error .panics

/-- `after + duration`. -/
def DateTime.addSeconds (after : DateTime cal) (s : ℤ) :
    Calls Empty (DateTime cal) := do
  let (time, days) := after.time.overflowingAddSeconds s
  let date ← checkedDate (after.date.day + days)
  return ⟨date, time⟩

/-- `Schedule`, with the times of day as they are stored. -/
inductive Recurrence where
  | once
  | interval (everySeconds : UInt64)
  | daily (time : NaiveTime)
  | weekly (day : Weekday) (time : NaiveTime)
deriving DecidableEq

/-- The walk from `date` on, for at most `n` days, to the next `day`. -/
def nextOnWeekday (day : Weekday) (time : NaiveTime) :
    ℕ → NaiveDate cal → Calls Empty (Option (DateTime cal))
  | 0, _ => .ok none
  | n + 1, date =>
      if weekday date.day = day then .ok (some ⟨date, time⟩)
      else do
        let date ← date.addDay
        nextOnWeekday day time n date

/-- `every_seconds as i64` wraps. -/
def Recurrence.nextDue (after : DateTime cal) :
    Recurrence → Calls Empty (Option (DateTime cal))
  | .once => .ok none
  | .interval everySeconds => do
      let duration ← durationSeconds everySeconds.toInt64.toInt
      let next ← after.addSeconds duration
      return some next
  | .daily time =>
      let candidate : DateTime cal := ⟨after.date, time⟩
      if candidate > after then .ok (some candidate)
      else do
        let date ← after.date.addDay
        return some ⟨date, time⟩
  | .weekly day time => do
      let date ← after.date.addDay
      nextOnWeekday day time 7 date

end Code

/-! ## What a schedule names -/

section Meaning

variable {cal : Calendar}

/-- `t` is `n` seconds after `a`.  From within a leap second on, the fraction
counts from the start of the second after it. -/
def DateTime.Later (n : ℕ) (a t : DateTime cal) : Prop :=
  t.seconds = a.seconds + n ∧
    t.time.frac = if n = 0 then a.time.frac else a.time.frac % 1000000000

/-- The instants a schedule names, for an execution completed at `after`. -/
def Recurrence.Names (after t : DateTime cal) : Recurrence → Prop
  | .once => False
  | .interval everySeconds => after.Later everySeconds.toNat t
  | .daily time => t.time = time
  | .weekly day time => weekday t.date.day = day ∧ t.time = time

/-- A result is what the schedule says: nothing for a single firing, else the
earliest named instant past the completion. -/
def Recurrence.Exact (after : DateTime cal) (s : Recurrence)
    (r : Calls Empty (Option (DateTime cal))) : Prop :=
  if s = .once then r = .ok none
  else ∃ d, r = .ok (some d) ∧ IsLeast {t | after < t ∧ s.Names after t} d

/-- The interval is a positive one that a `Duration` can have, the day is not
the weekday of `after` with its time still to come, and what is next lies in the
calendar. -/
def Recurrence.InReach (after : DateTime cal) : Recurrence → Prop
  | .once => True
  | .interval everySeconds =>
      0 < everySeconds.toNat ∧ everySeconds.toNat ≤ MAX_SECONDS ∧
        after.seconds + everySeconds.toNat < (cal.last + 1) * 86400
  | .daily time => after.time < time ∨ after.date.day < cal.last
  | .weekly day time =>
      ¬ (weekday after.date.day = day ∧ after.time < time) ∧
        ∃ k : ℕ, 1 ≤ k ∧ k ≤ 7 ∧ weekday (after.date.day + k) = day ∧
          after.date.day + k ≤ cal.last

end Meaning

/-! ## When the code is exact -/

section Exactness

variable {cal : Calendar}

variable {date : NaiveDate cal} {day : Weekday} {time : NaiveTime} {n : ℕ}
  {after : DateTime cal}

theorem checkedDate_eq_ok_iff {day : ℤ} :
    checkedDate day = .ok date ↔ date.day = day := by
  unfold checkedDate
  split
  case isTrue h =>
    rw [Except.ok.injEq]
    exact ⟨fun hdate => by rw [← hdate], fun hday => NaiveDate.ext hday.symm⟩
  case isFalse h =>
    constructor
    · intro hok
      cases hok
    · rintro rfl
      exact absurd ⟨date.first_le, date.le_last⟩ h

/-- A weekday comes back after whole weeks only. -/
theorem weekday_eq_iff {a b : ℤ} : weekday a = weekday b ↔ a % 7 = b % 7 := by
  constructor
  · intro h
    have ha := Int.emod_nonneg a (show (7 : ℤ) ≠ 0 by decide)
    have hb := Int.emod_nonneg b (show (7 : ℤ) ≠ 0 by decide)
    have ha' := Int.emod_lt_of_pos a (show (0 : ℤ) < 7 by decide)
    have hb' := Int.emod_lt_of_pos b (show (0 : ℤ) < 7 by decide)
    unfold weekday at h
    generalize a % 7 = x at *
    generalize b % 7 = y at *
    interval_cases x <;> interval_cases y <;> first | rfl | cases h
  · intro h
    rw [weekday, weekday, h]

/-! ### The walk to a weekday -/

theorem nextOnWeekday_eq_ok {d : DateTime cal}
    (h : nextOnWeekday day time n date = .ok (some d)) :
    d.time = time ∧ ∃ j < n, d.date.day = date.day + (j : ℤ) ∧
      weekday d.date.day = day := by
  induction n generalizing date with
  | zero => simp [nextOnWeekday] at h
  | succ n ih =>
      rw [nextOnWeekday] at h
      split at h
      case isTrue hday =>
          obtain rfl := Option.some.inj (Except.ok.inj h)
          exact ⟨rfl, 0, by omega, by simp, hday⟩
      case isFalse =>
          obtain ⟨next, hnext, h⟩ := Except.bind_eq_ok_iff.mp h
          obtain ⟨htime, j, hj, hdate, hday⟩ := ih h
          have hval := checkedDate_eq_ok_iff.mp hnext
          exact ⟨htime, j + 1, by omega, by push_cast; omega, hday⟩

theorem nextOnWeekday_of_first {j : ℕ} {next : NaiveDate cal} (hj : j < n)
    (hnext : next.day = date.day + j) (hday : weekday next.day = day)
    (hfirst : ∀ i < j, weekday (date.day + (i : ℤ)) ≠ day) :
    nextOnWeekday day time n date = .ok (some ⟨next, time⟩) := by
  induction j generalizing n date with
  | zero =>
      obtain ⟨m, rfl⟩ : ∃ m, n = m + 1 := ⟨n - 1, by omega⟩
      obtain rfl : next = date := NaiveDate.ext (by simpa using hnext)
      rw [nextOnWeekday, if_pos hday]
  | succ j ih =>
      obtain ⟨m, rfl⟩ : ∃ m, n = m + 1 := ⟨n - 1, by omega⟩
      have hnot : weekday date.day ≠ day := by simpa using hfirst 0 (by omega)
      have hstep := date.first_le
      have hlast := next.le_last
      push_cast at hnext
      have hadd : date.addDay = .ok ⟨date.day + 1, by omega, by omega⟩ :=
        checkedDate_eq_ok_iff.mpr rfl
      rw [nextOnWeekday, if_neg hnot, hadd, Except.ok_bind]
      apply ih (by omega) (by dsimp only; omega)
      intro i hi
      have hne := hfirst (i + 1) (by omega)
      push_cast at hne
      rw [add_assoc, add_comm (1 : ℤ)]
      exact hne

/-! ### Seconds added -/

theorem toInt64_toInt_eq (n : UInt64) :
    n.toInt64.toInt =
      if n.toNat < 2 ^ 63 then (n.toNat : ℤ) else n.toNat - 2 ^ 64 := by
  change n.toBitVec.toInt = _
  rw [BitVec.toInt_eq_toNat_cond]
  change (if 2 * n.toNat < 2 ^ 64 then (n.toNat : ℤ) else n.toNat - 2 ^ 64) = _
  split_ifs <;> omega

theorem seconds_addSeconds {d : DateTime cal} {s : ℤ}
    (h : after.addSeconds s = .ok d) :
    d.seconds = after.seconds + s +
      if 1000000000 ≤ after.time.frac ∧ s < 0 then 1 else 0 := by
  obtain ⟨date, hdate, h⟩ := Except.bind_eq_ok_iff.mp h
  obtain rfl := Except.ok.inj h
  have hval := checkedDate_eq_ok_iff.mp hdate
  simp only [DateTime.seconds, hval]
  split_ifs <;> simp only [] <;> omega

theorem overflowingAddSeconds_natCast (t : NaiveTime) (n : ℕ) :
    (t.overflowingAddSeconds n).2 * 86400 +
        (t.overflowingAddSeconds n).1.secs = t.secs + n ∧
      (t.overflowingAddSeconds n).1.frac =
        if n = 0 then t.frac else t.frac % 1000000000 := by
  have hlt := t.frac_lt
  unfold NaiveTime.overflowingAddSeconds
  dsimp only
  by_cases hn : n = 0
  · subst hn
    rw [if_pos (Or.inr Nat.cast_zero), if_pos rfl]
    dsimp only
    omega
  · by_cases hfrac : t.frac < 1000000000
    · rw [if_pos (Or.inl hfrac), if_neg hn, Nat.mod_eq_of_lt hfrac]
      dsimp only
      omega
    · rw [if_neg (by omega), if_pos (by omega), if_neg hn]
      dsimp only
      omega

theorem addSeconds_of_lt (h : after.seconds + n < (cal.last + 1) * 86400) :
    ∃ d, after.addSeconds n = .ok d ∧ after.Later n d := by
  obtain ⟨hsecs, hfrac⟩ := overflowingAddSeconds_natCast after.time n
  have hfirst := after.date.first_le
  have hbound := after.time.secs_lt
  have htime := (after.time.overflowingAddSeconds n).1.secs_lt
  simp only [DateTime.seconds] at h
  let date : NaiveDate cal :=
    ⟨after.date.day + (after.time.overflowingAddSeconds n).2, by omega, by omega⟩
  have hdate : checkedDate (after.date.day +
      (after.time.overflowingAddSeconds n).2) = .ok date :=
    checkedDate_eq_ok_iff.mpr rfl
  refine ⟨⟨date, (after.time.overflowingAddSeconds n).1⟩, ?_, ?_, hfrac⟩
  · rw [DateTime.addSeconds]
    dsimp only
    rw [hdate]
    rfl
  · simp only [DateTime.seconds, date]
    omega

theorem later_lt_iff {t : DateTime cal} (h : after.Later n t) :
    after < t ↔ 0 < n := by
  obtain ⟨hsecs, hfrac⟩ := h
  have ha := after.time.secs_lt
  have ht := t.time.secs_lt
  have hfa := after.time.frac_lt
  have hft := t.time.frac_lt
  rw [DateTime.lt_iff, NaiveTime.lt_iff]
  simp only [DateTime.seconds, NaiveTime.rank] at *
  split_ifs at hfrac <;> omega

theorem later_unique {t u : DateTime cal} (ht : after.Later n t)
    (hu : after.Later n u) : t = u := by
  have htime := t.time.secs_lt
  have hutime := u.time.secs_lt
  have hseconds : t.seconds = u.seconds := ht.1.trans hu.1.symm
  simp only [DateTime.seconds] at hseconds
  apply DateTime.ext
  · apply NaiveDate.ext
    omega
  · apply NaiveTime.ext
    · omega
    · exact ht.2.trans hu.2.symm

/-! ### The three repeating schedules -/

theorem Recurrence.exact_iff {s : Recurrence}
    {r : Calls Empty (Option (DateTime cal))} (hs : s ≠ .once) :
    s.Exact after r ↔
      ∃ d, r = .ok (some d) ∧ IsLeast {t | after < t ∧ s.Names after t} d := by
  rw [Exact, if_neg hs]

theorem nextDue_interval_exact_iff {n : UInt64} :
    (Recurrence.interval n).Exact after (Recurrence.nextDue after (.interval n)) ↔
      (Recurrence.interval n).InReach after := by
  have hcast := toInt64_toInt_eq n
  have hmax := n.toNat_lt
  rw [Recurrence.exact_iff (by simp), Recurrence.nextDue]
  constructor
  · rintro ⟨d, hd, ⟨hlt, hlater⟩, -⟩
    obtain ⟨s, hs, hd⟩ := Except.bind_eq_ok_iff.mp hd
    obtain ⟨d', hadd, hd⟩ := Except.bind_eq_ok_iff.mp hd
    obtain rfl := Option.some.inj (Except.ok.inj hd)
    have hsecs := seconds_addSeconds hadd
    have hlast := d'.date.le_last
    have htime := d'.time.secs_lt
    have hpos := (later_lt_iff hlater).mp hlt
    have hnames : d'.seconds = after.seconds + (n.toNat : ℤ) := hlater.1
    unfold durationSeconds at hs
    split at hs
    case isFalse => cases hs
    case isTrue hrange =>
      obtain rfl := Except.ok.inj hs
      simp only [MAX_SECONDS] at hrange
      refine ⟨hpos, ?_, ?_⟩
      · simp only [MAX_SECONDS]
        split_ifs at hcast hsecs <;> omega
      · rw [← hnames]
        simp only [DateTime.seconds]
        omega
  · rintro ⟨hpos, hrange, hlast⟩
    simp only [MAX_SECONDS] at hrange
    rw [if_pos (by omega)] at hcast
    obtain ⟨d, hadd, hlater⟩ := addSeconds_of_lt hlast
    refine ⟨d, ?_, ⟨(later_lt_iff hlater).mpr hpos, hlater⟩, ?_⟩
    · rw [hcast, durationSeconds, if_pos (by simp only [MAX_SECONDS]; omega),
        Except.ok_bind, hadd]
      rfl
    · rintro t ⟨-, ht⟩
      exact (later_unique hlater ht).le

theorem nextDue_daily_exact_iff :
    (Recurrence.daily time).Exact after (Recurrence.nextDue after (.daily time)) ↔
      (Recurrence.daily time).InReach after := by
  have htoday : (⟨after.date, time⟩ : DateTime cal) > after ↔
      after.time < time := by
    rw [gt_iff_lt, DateTime.lt_iff]
    simp
  rw [Recurrence.exact_iff (by simp), Recurrence.nextDue, Recurrence.InReach]
  by_cases hlater : after.time < time
  · simp only [hlater, true_or, iff_true]
    rw [if_pos (htoday.mpr hlater)]
    refine ⟨_, rfl, ⟨htoday.mpr hlater, rfl⟩, ?_⟩
    rintro t ⟨hlt, ht⟩
    have htime : t.time = time := ht
    rw [DateTime.lt_iff] at hlt
    rw [DateTime.le_iff, htime]
    rcases hlt with hday | ⟨hday, -⟩
    · exact Or.inl hday
    · exact Or.inr ⟨hday, le_rfl⟩
  · simp only [hlater, false_or]
    rw [if_neg (fun h => hlater (htoday.mp h))]
    constructor
    · rintro ⟨d, hd, -⟩
      obtain ⟨date, hdate, -⟩ := Except.bind_eq_ok_iff.mp hd
      have hday := checkedDate_eq_ok_iff.mp hdate
      have hlast := date.le_last
      omega
    · intro hlast
      have hfirst := after.date.first_le
      have hadd : after.date.addDay = .ok ⟨after.date.day + 1, by omega, hlast⟩ :=
        checkedDate_eq_ok_iff.mpr rfl
      refine ⟨⟨⟨after.date.day + 1, by omega, hlast⟩, time⟩, ?_, ⟨?_, rfl⟩, ?_⟩
      · rw [hadd]
        rfl
      · exact DateTime.lt_iff.mpr (Or.inl (by dsimp only; omega))
      · rintro t ⟨hlt, ht⟩
        have htime : t.time = time := ht
        rw [DateTime.lt_iff, htime] at hlt
        rw [DateTime.le_iff, htime]
        dsimp only
        rcases hlt with hday | ⟨-, htime⟩
        · rcases Int.lt_or_eq_of_le (Int.add_one_le_of_lt hday) with h | h
          · exact Or.inl h
          · exact Or.inr ⟨h, le_rfl⟩
        · exact absurd htime hlater

theorem nextDue_weekly_exact_iff :
    (Recurrence.weekly day time).Exact after
        (Recurrence.nextDue after (.weekly day time)) ↔
      (Recurrence.weekly day time).InReach after := by
  have hfirst := after.date.first_le
  rw [Recurrence.exact_iff (by simp), Recurrence.nextDue]
  constructor
  · rintro ⟨d, hd, -, hleast⟩
    obtain ⟨start, hstart, hd⟩ := Except.bind_eq_ok_iff.mp hd
    have hval := checkedDate_eq_ok_iff.mp hstart
    obtain ⟨-, j, hj, hdate, hday⟩ := nextOnWeekday_eq_ok hd
    have hlast := d.date.le_last
    refine ⟨?_, j + 1, by omega, by omega, ?_, ?_⟩
    · rintro ⟨htoday, htime⟩
      -- the time of today is named, and the walk starts tomorrow
      have hlt : after < ⟨after.date, time⟩ :=
        DateTime.lt_iff.mpr (Or.inr ⟨rfl, htime⟩)
      have hnames : (Recurrence.weekly day time).Names after
          ⟨after.date, time⟩ := ⟨htoday, rfl⟩
      have hle := hleast ⟨hlt, hnames⟩
      rcases DateTime.le_iff.mp hle with h | ⟨h, -⟩ <;> dsimp only at h <;> omega
    · rw [← hday]
      congr 1
      push_cast
      omega
    · push_cast
      omega
  · rintro ⟨hnot, k, hk, hk', hday, hlast⟩
    obtain ⟨j, rfl⟩ : ∃ j, k = j + 1 := ⟨k - 1, by omega⟩
    push_cast at hday hlast
    have hadd : after.date.addDay =
        .ok ⟨after.date.day + 1, by omega, by omega⟩ :=
      checkedDate_eq_ok_iff.mpr rfl
    refine ⟨⟨⟨after.date.day + (j + 1), by omega, hlast⟩, time⟩, ?_, ⟨?_, ?_⟩, ?_⟩
    · rw [hadd, Except.ok_bind]
      apply nextOnWeekday_of_first (j := j) (by omega) (by dsimp only; omega) hday
      intro i hi heq
      have hweeks := weekday_eq_iff.mp (heq.trans hday.symm)
      dsimp only at hweeks
      omega
    · exact DateTime.lt_iff.mpr (Or.inl (by dsimp only; omega))
    · exact ⟨hday, rfl⟩
    · rintro t ⟨hlt, htday, httime⟩
      have hweeks := weekday_eq_iff.mp (htday.trans hday.symm)
      rw [DateTime.lt_iff, httime] at hlt
      rw [DateTime.le_iff, httime]
      dsimp only
      have hpast : after.date.day < t.date.day := by
        rcases hlt with h | ⟨h, htime⟩
        · exact h
        · exact absurd ⟨by rw [h, htday], htime⟩ hnot
      rcases lt_or_eq_of_le (show after.date.day + (j + 1) ≤ t.date.day by omega)
        with h | h
      · exact Or.inl h
      · exact Or.inr ⟨h, le_rfl⟩

theorem nextDue_exact_iff (after : DateTime cal) (s : Recurrence) :
    s.Exact after (s.nextDue after) ↔ s.InReach after := by
  cases s with
  | once => simp [Recurrence.Exact, Recurrence.nextDue, Recurrence.InReach]
  | interval n => exact nextDue_interval_exact_iff
  | daily time => exact nextDue_daily_exact_iff
  | weekly day time => exact nextDue_weekly_exact_iff

/-! ## A meeting later the same day -/

/-- The dates there are, a quarter of a million years either way. -/
def naiveDates : Calendar := ⟨-96465292, 95026236⟩

/-- Eight o'clock on a Monday. -/
def mondayAtEight : DateTime naiveDates :=
  ⟨⟨19723, by decide, by decide⟩, ⟨28800, 0, by decide, by decide⟩⟩

def mondaysAtNine : Recurrence :=
  .weekly .mon ⟨32400, 0, by decide, by decide⟩

/-- The meeting of nine o'clock that morning is left out. -/
theorem nextDue_skips_today :
    ¬ mondaysAtNine.Exact mondayAtEight (mondaysAtNine.nextDue mondayAtEight) := by
  intro h
  have hnot := (nextDue_weekly_exact_iff.mp h).1
  exact hnot ⟨by decide, by decide⟩

end Exactness

/-! ## Schedules in nanoseconds -/

section Nanoseconds

variable {cal : Calendar}

def NaiveTime.nanos (t : NaiveTime) : ℕ := t.secs * 1000000000 + t.frac

def DateTime.nanos (t : DateTime cal) : ℤ := andTime t.date.day t.time.nanos

/-- The times of day as counts of nanoseconds. -/
def Recurrence.schedule : Recurrence → Schedule
  | .once => .once
  | .interval everySeconds => .interval everySeconds
  | .daily time => .daily time.nanos
  | .weekly day time => .weekly day time.nanos

/-- No time of day in the schedule is in a leap second. -/
def Recurrence.Leapless : Recurrence → Prop
  | .daily time | .weekly _ time => time.frac < 1000000000
  | _ => True

theorem dateNaive_nanos {t : DateTime cal} (ht : t.time.frac < 1000000000) :
    dateNaive t.nanos = t.date.day := by
  have hsecs := t.time.secs_lt
  simp only [DateTime.nanos, NaiveTime.nanos, dateNaive, andTime, nanosPerSecond]
  omega

theorem nanos_lt_iff {a b : DateTime cal} (ha : a.time.frac < 1000000000)
    (hb : b.time.frac < 1000000000) : a.nanos < b.nanos ↔ a < b := by
  have hsecs := a.time.secs_lt
  have hsecs' := b.time.secs_lt
  rw [DateTime.lt_iff, NaiveTime.lt_iff]
  simp only [DateTime.nanos, NaiveTime.nanos, NaiveTime.rank, andTime,
    nanosPerSecond]
  omega

theorem nextWeekday_of_nextOnWeekday {day : Weekday} {time : NaiveTime} {n : ℕ}
    {date : NaiveDate cal} {r : Option (DateTime cal)}
    (h : nextOnWeekday day time n date = .ok r) :
    (nextWeekday day n date.day).map (fun d => andTime d time.nanos) =
      r.map DateTime.nanos := by
  induction n generalizing date with
  | zero =>
      obtain rfl := Except.ok.inj h
      rfl
  | succ n ih =>
      rw [nextOnWeekday] at h
      rw [nextWeekday]
      split at h
      case isTrue hday =>
        obtain rfl := Except.ok.inj h
        rw [if_pos hday]
        rfl
      case isFalse hday =>
        obtain ⟨next, hnext, h⟩ := Except.bind_eq_ok_iff.mp h
        rw [if_neg hday, ← checkedDate_eq_ok_iff.mp hnext]
        exact ih h

theorem nanos_addSeconds {after d : DateTime cal} {n : ℤ}
    (hafter : after.time.frac < 1000000000) (h : after.addSeconds n = .ok d) :
    d.nanos = after.nanos + n * nanosPerSecond := by
  obtain ⟨date, hdate, h⟩ := Except.bind_eq_ok_iff.mp h
  obtain rfl := Except.ok.inj h
  have hval := checkedDate_eq_ok_iff.mp hdate
  simp only [DateTime.nanos, NaiveTime.nanos, andTime, nanosPerSecond, hval]
  rw [if_pos (Or.inl hafter)]
  dsimp only
  omega

/-- Away from leap seconds, what the code returns is the schedule's next time
in nanoseconds. -/
theorem nextDue_nanos {after : DateTime cal} {s : Recurrence}
    {r : Option (DateTime cal)} (hafter : after.time.frac < 1000000000)
    (hs : s.Leapless) (h : s.nextDue after = .ok r) :
    s.schedule.nextDue after.nanos = r.map DateTime.nanos := by
  cases s with
  | once =>
      obtain rfl := Except.ok.inj h
      rfl
  | interval everySeconds =>
      obtain ⟨n, hn, h⟩ := Except.bind_eq_ok_iff.mp h
      obtain ⟨d, hadd, h⟩ := Except.bind_eq_ok_iff.mp h
      obtain rfl := Except.ok.inj h
      unfold durationSeconds at hn
      split at hn
      case isFalse => cases hn
      case isTrue =>
        obtain rfl := Except.ok.inj hn
        rw [Option.map_some, nanos_addSeconds hafter hadd]
        rfl
  | daily time =>
      have hdate := dateNaive_nanos hafter
      have hlater : andTime after.date.day time.nanos > after.nanos ↔
          (⟨after.date, time⟩ : DateTime cal) > after :=
        nanos_lt_iff (b := ⟨after.date, time⟩) hafter hs
      rw [Recurrence.nextDue] at h
      rw [Recurrence.schedule, Schedule.nextDue, hdate]
      split at h
      case isTrue hgt =>
        obtain rfl := Except.ok.inj h
        rw [if_pos (hlater.mpr hgt)]
        rfl
      case isFalse hgt =>
        obtain ⟨next, hnext, h⟩ := Except.bind_eq_ok_iff.mp h
        obtain rfl := Except.ok.inj h
        rw [if_neg (fun hlt => hgt (hlater.mp hlt)),
          ← checkedDate_eq_ok_iff.mp hnext]
        rfl
  | weekly day time =>
      obtain ⟨start, hstart, h⟩ := Except.bind_eq_ok_iff.mp h
      rw [Recurrence.schedule, Schedule.nextDue, dateNaive_nanos hafter,
        ← checkedDate_eq_ok_iff.mp hstart]
      exact nextWeekday_of_nextOnWeekday h

/-- The Monday a week later. -/
def nextMonday : DateTime naiveDates :=
  ⟨⟨19730, by decide, by decide⟩, ⟨32400, 0, by decide, by decide⟩⟩

theorem nextDue_nanos_monday :
    mondaysAtNine.schedule.nextDue mondayAtEight.nanos =
      some nextMonday.nanos :=
  nextDue_nanos (r := some nextMonday) (by decide)
    (show 0 < 1000000000 by decide) (by rfl)

end Nanoseconds

end Reminders

end AgentStateGraph
