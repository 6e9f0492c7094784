import AgentStateGraph.Control.Mirror

/-!
# Mirrored writes and the order of the merge

One control tree lies below another when merging the two gives the other.  A
write replaces the control tree's version of a record by the row of the table,
so the tree goes up exactly when its version was not ahead of the table.
-/

namespace AgentStateGraph

variable {Id : Type} [Digest Id]

namespace Control

variable {codec : ControlCodec Id}

/-! ## Going up -/

/-- The root that a merge leaves. -/
def mergedRoot (codec : ControlCodec Id) (s : ObjectStore Id) (a b : Id) :
    Except (ControlError Id) Id :=
  (merge codec s a b).map fun r => r.1.root

/-- Merging with the tree `a` leaves the tree `b` as it is, from either
side. -/
def GoesUp (codec : ControlCodec Id) (s : ObjectStore Id) (a b : Id) : Prop :=
  mergedRoot codec s a b = .ok b ∧ mergedRoot codec s b a = .ok b

section Up

variable {s t : ObjectStore Id} {a b : Id} {x y : Records Id}

theorem mergedRoot_eq_ok_iff (ha : Represents codec s a x)
    (hb : Represents codec s b y) :
    mergedRoot codec s a b = .ok b ↔ x.join codec s y = y := by
  obtain ⟨t, hrun, hle, hrep⟩ := merge_eq_ok ha hb
  have hroot : mergedRoot codec s a b =
      .ok ((x.join codec s y).root codec) := by
    rw [mergedRoot, hrun]
    rfl
  rw [hroot]
  constructor
  · intro h
    have heq : (x.join codec s y).root codec = b := Except.ok.inj h
    rw [heq] at hrep
    exact represents_unique hrep (represents_mono hle hb)
  · intro h
    rw [h, ← hb.root_eq]

theorem goesUp_iff (ha : Represents codec s a x)
    (hb : Represents codec s b y) :
    GoesUp codec s a b ↔ x.join codec s y = y := by
  rw [GoesUp, mergedRoot_eq_ok_iff ha hb]
  constructor
  · exact fun h => h.1
  · intro h
    refine ⟨h, ?_⟩
    obtain ⟨t, hrun, -, -⟩ := merge_eq_ok hb ha
    rw [mergedRoot, hrun, join_comm, h, hb.root_eq]
    rfl

/-- A tree that lies below one that went up lies below what it became. -/
theorem GoesUp.trans {c : Id} (ha : WellFormed codec s a)
    (hb : WellFormed codec s b) (hc : WellFormed codec s c)
    (hab : GoesUp codec s a b) (hbc : GoesUp codec s b c) :
    GoesUp codec s a c := by
  obtain ⟨x, hx⟩ := ha
  obtain ⟨y, hy⟩ := hb
  obtain ⟨z, hz⟩ := hc
  rw [goesUp_iff hx hy] at hab
  rw [goesUp_iff hy hz] at hbc
  rw [goesUp_iff hx hz, ← hbc, ← join_assoc, hab]

variable {v : Id} {k : String}

/-- The order of two versions whose records are known. -/
theorem ranked_le_ranked_iff {α ρ : Type} [LinearOrder ρ]
    {load : Id → Except (ControlError Id) α} {rank : α → ρ} {u : Id} {c d : α}
    (hu : load u = .ok c) (hv : load v = .ok d) :
    KeyedJoin.ranked (rankAt load rank) u ≤
        KeyedJoin.ranked (rankAt load rank) v ↔
      toLex (rank c, u) ≤ toLex (rank d, v) := by
  simp only [KeyedJoin.ranked, rankAt, hu, hv, Prod.Lex.le_iff, ofLex_toLex,
    WithBot.coe_lt_coe, WithBot.coe_inj]

theorem join_members_addMembers (k : String) (commits : List Id) :
    KeyedJoin.join unionIds x.members (x.addMembers k commits).members =
      (x.addMembers k commits).members := by
  rw [Records.addMembers, KeyedJoin.join_insert_eq_iff unionIds_self]
  intro u hu
  rw [hu, Option.getD_some, ← unionIds_assoc, unionIds_self]

theorem join_addMembers (k : String) (commits : List Id) :
    x.join codec s (x.addMembers k commits) = x.addMembers k commits := by
  refine records_ext ?_ ?_ ?_ (join_members_addMembers k commits)
  · exact KeyedJoin.join_self (KeyedJoin.pickBy_self _) _
  · exact KeyedJoin.join_self (KeyedJoin.pickBy_self _) _
  · exact KeyedJoin.join_self (KeyedJoin.pickBy_self _) _

/-- A section lies below itself with one record replaced when the version it
had does not rank higher. -/
theorem join_section_iff {α ρ : Type} [LinearOrder ρ]
    {load : Id → Except (ControlError Id) α} {rank : α → ρ}
    {m : BTreeMap String Id} {d : α}
    (hm : ∀ u, m[k]? = some u → ∃ c, load u = .ok c) (hv : load v = .ok d) :
    KeyedJoin.join (KeyedJoin.pickBy (rankAt load rank)) m (m.insert k v) =
        m.insert k v ↔
      ∀ u c, m[k]? = some u → load u = .ok c →
        toLex (rank c, u) ≤ toLex (rank d, v) := by
  rw [KeyedJoin.join_insert_eq_iff (KeyedJoin.pickBy_self _)]
  constructor
  · intro h u c hu hc
    have hpick := h u hu
    rw [KeyedJoin.pickBy_eq_right_iff, ranked_le_ranked_iff hc hv] at hpick
    exact hpick
  · intro h u hu
    obtain ⟨c, hc⟩ := hm u hu
    rw [KeyedJoin.pickBy_eq_right_iff, ranked_le_ranked_iff hc hv]
    exact h u c hu hc

theorem join_put_taints_iff {d : Taint} (hx : x.Readable codec s)
    (hv : loadTaint codec s v = .ok d) :
    x.join codec s (x.put .taints k v) = x.put .taints k v ↔
      ∀ u c, x.taints[k]? = some u → loadTaint codec s u = .ok c →
        toLex (taintRank c, u) ≤ toLex (taintRank d, v) := by
  rw [← join_section_iff (fun u => hx.taints k u) hv]
  constructor
  · exact fun h => congrArg Records.taints h
  · intro h
    refine records_ext h ?_ ?_ ?_
    · exact KeyedJoin.join_self (KeyedJoin.pickBy_self _) _
    · exact KeyedJoin.join_self (KeyedJoin.pickBy_self _) _
    · exact KeyedJoin.join_self unionIds_self _

theorem join_put_reminders_iff {d : ReminderEntry} (hx : x.Readable codec s)
    (hv : loadReminder codec s v = .ok d) :
    x.join codec s (x.put .reminders k v) = x.put .reminders k v ↔
      ∀ u c, x.reminders[k]? = some u → loadReminder codec s u = .ok c →
        toLex (reminderRank c, u) ≤ toLex (reminderRank d, v) := by
  rw [← join_section_iff (fun u => hx.reminders k u) hv]
  constructor
  · exact fun h => congrArg Records.reminders h
  · intro h
    refine records_ext ?_ h ?_ ?_
    · exact KeyedJoin.join_self (KeyedJoin.pickBy_self _) _
    · exact KeyedJoin.join_self (KeyedJoin.pickBy_self _) _
    · exact KeyedJoin.join_self unionIds_self _

theorem join_put_epochs_iff {d : EpochRecord Id} (hx : x.Readable codec s)
    (hv : loadEpoch codec s v = .ok d)
    (hepochs : y.epochs = x.epochs.insert k v) (htaints : y.taints = x.taints)
    (hreminders : y.reminders = x.reminders)
    (hmembers : KeyedJoin.join unionIds x.members y.members = y.members) :
    x.join codec s y = y ↔
      ∀ u c, x.epochs[k]? = some u → loadEpoch codec s u = .ok c →
        toLex (epochRank c, u) ≤ toLex (epochRank d, v) := by
  rw [← join_section_iff (fun u => hx.epochs k u) hv, ← hepochs]
  constructor
  · exact fun h => congrArg Records.epochs h
  · intro h
    refine records_ext ?_ ?_ h hmembers
    · rw [htaints]
      rw [Records.join, htaints]
      exact KeyedJoin.join_self (KeyedJoin.pickBy_self _) _
    · rw [hreminders]
      rw [Records.join, hreminders]
      exact KeyedJoin.join_self (KeyedJoin.pickBy_self _) _

end Up

/-! ## When a write goes up -/

/-- The version that the control tree has of the staged record does not come
after the row that the table now holds. -/
def NotAhead (s : ObjectStore Id) (x : Records Id) (tables : Tables codec)
    (now : Instant codec) : Stage Id → Prop
  | .taint id =>
      match tables.taint? id with
      | some row => ∀ u old, x.taints[id]? = some u →
          loadTaint codec s u = .ok old →
          toLex (taintRank old, u) ≤
            toLex (taintRank row.taint, (RecordDoc.taint row.doc).tree codec)
      | none => True
  | .reminder id =>
      match tables.reminder? id with
      | some row => ∀ u old, x.reminders[id]? = some u →
          loadReminder codec s u = .ok old →
          toLex (reminderRank old, u) ≤
            toLex (reminderRank (.live row.reminder now.time),
              (RecordDoc.reminder row.doc now.text).tree codec)
      | none => ∀ u old, x.reminders[id]? = some u →
          loadReminder codec s u = .ok old →
          toLex (reminderRank old, u) ≤
            toLex (reminderRank (.deleted now.time),
              (RecordDoc.deletedReminder now.text).tree codec)
  | .epoch id =>
      match tables.epoch? id with
      | some row => ∀ u old, x.epochs[id]? = some u →
          loadEpoch codec s u = .ok old →
          toLex (epochRank old, u) ≤
            toLex (epochRank row.epoch,
              (RecordDoc.epoch row.doc row.epoch.sealedCommits).tree codec)
      | none => True
  | .member _ _ => True

section

variable {tables : Tables codec} {id : String}

omit [Digest Id] in
theorem taint?_id {row : TaintRow codec} (h : tables.taint? id = some row) :
    row.taint.id = id := by
  simpa using List.find?_some h

omit [Digest Id] in
theorem reminder?_id {row : ReminderRow codec}
    (h : tables.reminder? id = some row) : row.reminder.id = id := by
  simpa using List.find?_some h

omit [Digest Id] in
theorem epoch?_id {row : EpochRow codec} (h : tables.epoch? id = some row) :
    row.epoch.id = id := by
  simpa using List.find?_some h

end

omit [Digest Id] in
/-- What reads from a store reads the same from a larger one. -/
theorem forall_load_iff {α : Type}
    {load load' : Id → Except (ControlError Id) α} {m : BTreeMap String Id}
    {k : String} {P : Id → α → Prop}
    (hmono : ∀ u c, load u = .ok c → load' u = .ok c)
    (hm : ∀ u, m[k]? = some u → ∃ c, load u = .ok c) :
    (∀ u c, m[k]? = some u → load' u = .ok c → P u c) ↔
      ∀ u c, m[k]? = some u → load u = .ok c → P u c := by
  constructor
  · intro h u c hu hc
    exact h u c hu (hmono u c hc)
  · intro h u c hu hc
    obtain ⟨c', hc'⟩ := hm u hu
    have heq : Except.ok c' = Except.ok c := (hmono u c' hc').symm.trans hc
    rw [← Except.ok.inj heq]
    exact h u c' hu hc'

/-! A tree of a row reads as the row, from whatever store it reads. -/

section Trees

variable {s : ObjectStore Id}

theorem eq_of_loadTaint_tree {row : TaintRow codec} {d : Taint}
    (h : loadTaint codec s ((RecordDoc.taint row.doc).tree codec) = .ok d) :
    d = row.taint := by
  have hmono := loadTaint_mono
    (@RecordDoc.le_put Id _ codec s (.taint row.doc)) h
  rw [loadTaint_put] at hmono
  exact (Except.ok.inj hmono).symm

theorem eq_of_loadReminder_tree {row : ReminderRow codec}
    {now : Instant codec} {d : ReminderEntry}
    (h : loadReminder codec s
      ((RecordDoc.reminder row.doc now.text).tree codec) = .ok d) :
    d = .live row.reminder now.time := by
  have hmono := loadReminder_mono
    (@RecordDoc.le_put Id _ codec s (.reminder row.doc now.text)) h
  rw [loadReminder_put] at hmono
  exact (Except.ok.inj hmono).symm

theorem eq_of_loadReminder_deleted {now : Instant codec} {d : ReminderEntry}
    (h : loadReminder codec s
      ((RecordDoc.deletedReminder now.text).tree codec) = .ok d) :
    d = .deleted now.time := by
  have hmono := loadReminder_mono
    (@RecordDoc.le_put Id _ codec s (.deletedReminder now.text)) h
  rw [loadReminder_put_deleted] at hmono
  exact (Except.ok.inj hmono).symm

theorem epochRank_of_loadEpoch_tree {row : EpochRow codec}
    {d : EpochRecord Id}
    (h : loadEpoch codec s
      ((RecordDoc.epoch row.doc row.epoch.sealedCommits).tree codec) =
        .ok d) :
    epochRank d = epochRank row.epoch := by
  have hmono := loadEpoch_mono
    (@RecordDoc.le_put Id _ codec s
      (.epoch row.doc row.epoch.sealedCommits)) h
  rw [loadEpoch_put] at hmono
  rw [← Except.ok.inj hmono]
  rfl

end Trees

section Writes

variable {s t : ObjectStore Id} {x : Records Id}

theorem join_mirrored_iff (hx : x.Readable codec s) (hle : s ≤ t)
    (tables : Tables codec) (now : Instant codec) (stage : Stage Id)
    (hy : (x.mirrored tables now stage).Readable codec t) :
    x.join codec t (x.mirrored tables now stage) =
        x.mirrored tables now stage ↔
      NotAhead s x tables now stage := by
  have hxt := readable_mono hle hx
  cases stage with
  | taint id =>
      simp only [Records.mirrored, stageFromTables, NotAhead] at hy ⊢
      cases hrow : tables.taint? id with
      | none => simp [join_self]
      | some row =>
          obtain rfl := taint?_id hrow
          simp only [hrow, List.foldl_cons, List.foldl_nil, Records.edit,
            RecordDoc.kind] at hy ⊢
          obtain ⟨d, hd⟩ := hy.taints row.taint.id _
            Std.ExtTreeMap.getElem?_insert_self
          rw [join_put_taints_iff hxt hd, eq_of_loadTaint_tree hd,
            forall_load_iff (fun _ _ => loadTaint_mono hle)
              (fun u => hx.taints row.taint.id u)]
  | reminder id =>
      simp only [Records.mirrored, stageFromTables, NotAhead] at hy ⊢
      cases hrow : tables.reminder? id with
      | none =>
          simp only [hrow, List.foldl_cons, List.foldl_nil, Records.edit,
            RecordDoc.kind] at hy ⊢
          obtain ⟨d, hd⟩ := hy.reminders id _
            Std.ExtTreeMap.getElem?_insert_self
          rw [join_put_reminders_iff hxt hd, eq_of_loadReminder_deleted hd,
            forall_load_iff (fun _ _ => loadReminder_mono hle)
              (fun u => hx.reminders id u)]
      | some row =>
          obtain rfl := reminder?_id hrow
          simp only [hrow, List.foldl_cons, List.foldl_nil, Records.edit,
            RecordDoc.kind] at hy ⊢
          obtain ⟨d, hd⟩ := hy.reminders row.reminder.id _
            Std.ExtTreeMap.getElem?_insert_self
          rw [join_put_reminders_iff hxt hd, eq_of_loadReminder_tree hd,
            forall_load_iff (fun _ _ => loadReminder_mono hle)
              (fun u => hx.reminders row.reminder.id u)]
  | epoch id =>
      simp only [Records.mirrored, stageFromTables, NotAhead] at hy ⊢
      cases hrow : tables.epoch? id with
      | none => simp [join_self]
      | some row =>
          obtain rfl := epoch?_id hrow
          simp only [hrow, List.foldl_cons, Records.edit,
            RecordDoc.kind] at hy ⊢
          generalize hv : (RecordDoc.epoch row.doc
            row.epoch.sealedCommits).tree codec = v at hy ⊢
          have hrank : ∀ d, loadEpoch codec t v = .ok d →
              epochRank d = epochRank row.epoch := by
            intro d hd
            rw [← hv] at hd
            exact epochRank_of_loadEpoch_tree hd
          by_cases hcommits : (tables.epochCommits row.epoch.id).isEmpty = true
          · rw [if_pos hcommits, List.foldl_nil] at hy ⊢
            obtain ⟨d, hd⟩ := hy.epochs row.epoch.id v
              Std.ExtTreeMap.getElem?_insert_self
            have hiff := join_put_epochs_iff
              (y := x.put .epochs row.epoch.id v) hxt hd rfl rfl rfl
              (KeyedJoin.join_self unionIds_self _)
            rw [hiff, hrank d hd,
              forall_load_iff (fun _ _ => loadEpoch_mono hle)
                (fun u => hx.epochs row.epoch.id u)]
          · rw [if_neg hcommits, List.foldl_cons, List.foldl_nil] at hy ⊢
            obtain ⟨d, hd⟩ := hy.epochs row.epoch.id v
              Std.ExtTreeMap.getElem?_insert_self
            have hiff := join_put_epochs_iff
              (y := (x.put .epochs row.epoch.id v).addMembers row.epoch.id
                (tables.epochCommits row.epoch.id)) hxt hd rfl rfl rfl
              (join_members_addMembers _ _)
            rw [Records.edit, hiff, hrank d hd,
              forall_load_iff (fun _ _ => loadEpoch_mono hle)
                (fun u => hx.epochs row.epoch.id u)]
  | member epoch commit =>
      simp only [Records.mirrored, stageFromTables, NotAhead, List.foldl_cons,
        List.foldl_nil, Records.edit, iff_true]
      exact join_addMembers epoch [commit]

/-! ## Tables that match the control tree -/

def ReminderEntry.time : ReminderEntry → ℤ
  | .live _ editedAt => editedAt
  | .deleted deletedAt => deletedAt

/-- The taints and epochs that the control tree holds are those of the
tables. -/
structure InSync (x : Records Id) (tables : Tables codec) : Prop where
  taints : ∀ id, x.taints[id]? =
    (tables.taint? id).map fun r => (RecordDoc.taint r.doc).tree codec
  epochs : ∀ id, x.epochs[id]? = (tables.epoch? id).map fun r =>
    (RecordDoc.epoch r.doc r.epoch.sealedCommits).tree codec

/-- A commit id is set where there was none, and a reminder is edited later
than the control tree has it, without reopening it. -/
structure Regular (s : ObjectStore Id) (x : Records Id)
    (before after : Tables codec) (now : Instant codec) (stage : Stage Id) :
    Prop where
  commitIdOnce : ∀ id old new, stage = .taint id →
    before.taint? id = some old → after.taint? id = some new →
    new.taint.commitId ≠ old.taint.commitId → old.taint.commitId = ""
  later : ∀ id u entry, stage = .reminder id → x.reminders[id]? = some u →
    loadReminder codec s u = .ok entry → ReminderEntry.time entry < now.time
  notReopened : ∀ id u entry row, stage = .reminder id →
    x.reminders[id]? = some u → loadReminder codec s u = .ok entry →
    after.reminder? id = some row → ReminderEntry.isClosed entry = true →
    row.reminder.status.isTerminal = true ∧ ∃ r e, entry = .live r e

omit [Digest Id] in
theorem find?_replaceFirst {α : Type} {p : α → Bool} {a b : α} {l : List α}
    (h : l.find? p = some a) (hb : p b = true) :
    (replaceFirst p b l).find? p = some b := by
  induction l with
  | nil => simp at h
  | cons c l ih =>
      simp only [replaceFirst]
      by_cases hc : p c = true
      · rw [if_pos hc, List.find?_cons_of_pos hb]
      · rw [if_neg hc, List.find?_cons_of_neg hc]
        rw [List.find?_cons_of_neg hc] at h
        exact ih h

variable {tables before after : Tables codec} {id : String} {u : Id}

omit [Digest Id] in
theorem taint?_setTaint {old new : TaintRow codec}
    (h : tables.taint? id = some old) (hnew : new.taint.id = id) :
    (tables.setTaint id new).taint? id = some new :=
  find?_replaceFirst h (by simp [hnew])

omit [Digest Id] in
theorem epoch?_setEpoch {old new : EpochRow codec}
    (h : tables.epoch? id = some old) (hnew : new.epoch.id = id) :
    (tables.setEpoch id new).epoch? id = some new :=
  find?_replaceFirst h (by simp [hnew])

theorem toLex_le_of_lt {ρ : Type} [LinearOrder ρ] {a b : ρ} {v : Id}
    (h : a < b) : toLex (a, u) ≤ toLex (b, v) :=
  Prod.Lex.le_iff.mpr (Or.inl h)

theorem InSync.taint_row (h : InSync x tables) {c : Taint}
    (hu : x.taints[id]? = some u) (hc : loadTaint codec s u = .ok c) :
    ∃ old, tables.taint? id = some old ∧ c = old.taint ∧
      u = (RecordDoc.taint old.doc).tree codec := by
  rw [h.taints] at hu
  obtain ⟨old, hold, rfl⟩ := Option.map_eq_some_iff.mp hu
  exact ⟨old, hold, eq_of_loadTaint_tree hc, rfl⟩

theorem InSync.epoch_row (h : InSync x tables) {c : EpochRecord Id}
    (hu : x.epochs[id]? = some u) (hc : loadEpoch codec s u = .ok c) :
    ∃ old, tables.epoch? id = some old ∧ epochRank c = epochRank old.epoch ∧
      u = (RecordDoc.epoch old.doc old.epoch.sealedCommits).tree codec := by
  rw [h.epochs] at hu
  obtain ⟨old, hold, rfl⟩ := Option.map_eq_some_iff.mp hu
  exact ⟨old, hold, epochRank_of_loadEpoch_tree hc, rfl⟩

theorem notAhead_taint {new : TaintRow codec} (hsync : InSync x before)
    (hnew : after.taint? id = some new)
    (h : ∀ old, before.taint? id = some old → new = old ∨
      taintRank old.taint < taintRank new.taint) (now : Instant codec) :
    NotAhead s x after now (.taint id) := by
  simp only [NotAhead, hnew]
  intro u c hu hc
  obtain ⟨old, hold, rfl, rfl⟩ := hsync.taint_row hu hc
  rcases h old hold with rfl | hlt
  · exact le_rfl
  · exact toLex_le_of_lt hlt

theorem notAhead_epoch {new : EpochRow codec} (hsync : InSync x before)
    (hnew : after.epoch? id = some new)
    (h : ∀ old, before.epoch? id = some old → new = old ∨
      epochRank old.epoch < epochRank new.epoch) (now : Instant codec) :
    NotAhead s x after now (.epoch id) := by
  simp only [NotAhead, hnew]
  intro u c hu hc
  obtain ⟨old, hold, hrank, rfl⟩ := hsync.epoch_row hu hc
  rw [hrank]
  rcases h old hold with rfl | hlt
  · exact le_rfl
  · exact toLex_le_of_lt hlt

/-- Nor of a reminder that a later edit leaves, unless the edit reopens it. -/
theorem notAhead_reminder {now : Instant codec}
    (hreg : Regular s x before after now (.reminder id)) :
    NotAhead s x after now (.reminder id) := by
  simp only [NotAhead]
  cases hrow : after.reminder? id with
  | none =>
      intro u c hu hc
      have htime := hreg.later id u c rfl hu hc
      apply toLex_le_of_lt
      cases c with
      | deleted at_ =>
          exact Prod.Lex.lt_iff.mpr (Or.inr ⟨rfl, htime⟩)
      | live r e =>
          refine Prod.Lex.lt_iff.mpr (Or.inl ?_)
          simp only [reminderRank, ofLex_toLex]
          split <;> decide
  | some row =>
      intro u c hu hc
      have htime := hreg.later id u c rfl hu hc
      have hopen := hreg.notReopened id u c row rfl hu hc hrow
      apply toLex_le_of_lt
      cases c with
      | deleted at_ =>
          obtain ⟨-, r, e, hlive⟩ := hopen rfl
          contradiction
      | live r e =>
          simp only [reminderRank]
          by_cases hterm : r.status.isTerminal = true
          · rw [if_pos hterm, if_pos (hopen hterm).1]
            exact Prod.Lex.lt_iff.mpr (Or.inr ⟨rfl, htime⟩)
          · rw [if_neg hterm]
            by_cases hnew : row.reminder.status.isTerminal = true
            · rw [if_pos hnew]
              exact Prod.Lex.lt_iff.mpr (Or.inl Nat.zero_lt_one)
            · rw [if_neg hnew]
              exact Prod.Lex.lt_iff.mpr (Or.inr ⟨rfl, htime⟩)

theorem notAhead_of_inSync {stage : Stage Id} {now : Instant codec}
    (hw : TableWrite before stage after) (hsync : InSync x before)
    (hreg : Regular s x before after now stage) :
    NotAhead s x after now stage := by
  cases hw with
  | createTaint row unique =>
      have happend : Tables.taint?
          { before with taints := before.taints ++ [row] } row.taint.id =
          (before.taint? row.taint.id).or (some row) := by
        simp [Tables.taint?, List.find?_append]
      cases hold : before.taint? row.taint.id with
      | none =>
          rw [hold, Option.none_or] at happend
          exact notAhead_taint hsync happend
            (fun old h => by simp [hold] at h) now
      | some old =>
          rw [hold, Option.some_or] at happend
          exact notAhead_taint hsync happend
            (fun old' h => Or.inl (Option.some.inj (hold.symm.trans h))) now
  | setTaintCommitId id commitId old new found changed same =>
      have hid : new.taint.id = id := by
        rw [changed]
        exact taint?_id found
      have hnew := taint?_setTaint found hid
      refine notAhead_taint hsync hnew ?_ now
      intro old' hold'
      obtain rfl : old = old' := Option.some.inj (found.symm.trans hold')
      by_cases hsame : commitId = old.taint.commitId
      · exact Or.inl (same hsame)
      · have hne : new.taint.commitId ≠ old.taint.commitId := by
          rw [changed]
          exact hsame
        have hempty := hreg.commitIdOnce id old new rfl found hnew hne
        have hfull : new.taint.commitId.isEmpty = false := by
          rw [Bool.eq_false_iff, Ne, String.isEmpty_iff, ← hempty]
          exact hne
        right
        refine Prod.Lex.lt_iff.mpr (Or.inr ⟨by rw [changed]; rfl, ?_⟩)
        refine Prod.Lex.lt_iff.mpr (Or.inr ⟨by rw [changed]; rfl, ?_⟩)
        simp only [taintRank, ofLex_toLex, hempty, hfull]
        decide
  | resolveTaint id resolvedAt old new found unresolved changed =>
      have hid : new.taint.id = id := by
        rw [changed]
        exact taint?_id found
      refine notAhead_taint hsync (taint?_setTaint found hid) ?_ now
      intro old' hold'
      obtain rfl : old = old' := Option.some.inj (found.symm.trans hold')
      right
      refine Prod.Lex.lt_iff.mpr (Or.inl ?_)
      simp [taintRank, changed, unresolved]
  | saveReminder row => exact notAhead_reminder hreg
  | updateReminder row found => exact notAhead_reminder hreg
  | updateRefused id found => exact notAhead_reminder hreg
  | deleteReminder id => exact notAhead_reminder hreg
  | createEpoch row unique =>
      have hold : before.epoch? row.epoch.id = none := by
        rw [Tables.epoch?, List.find?_eq_none]
        intro r hr
        simpa using unique r hr
      have hnew : Tables.epoch?
          { before with epochs := before.epochs ++ [row] } row.epoch.id =
          some row := by
        rw [Tables.epoch?] at hold ⊢
        simp [List.find?_append, hold]
      exact notAhead_epoch hsync hnew (fun old h => by simp [hold] at h) now
  | sealEpoch id sealedAt sealedCommits sealHash old new found active changed =>
      have hid : new.epoch.id = id := by
        rw [changed]
        exact epoch?_id found
      refine notAhead_epoch hsync (epoch?_setEpoch found hid) ?_ now
      intro old' hold'
      obtain rfl : old = old' := Option.some.inj (found.symm.trans hold')
      right
      refine Prod.Lex.lt_iff.mpr (Or.inl ?_)
      simp [epochRank, changed, active]
  | archiveEpoch id old new found wasSealed changed =>
      have hid : new.epoch.id = id := by
        rw [changed]
        exact epoch?_id found
      refine notAhead_epoch hsync (epoch?_setEpoch found hid) ?_ now
      intro old' hold'
      obtain rfl : old = old' := Option.some.inj (found.symm.trans hold')
      right
      refine Prod.Lex.lt_iff.mpr (Or.inl ?_)
      simp [epochRank, changed, wasSealed]
  | assignEpochNamespace id ns old new found changed unassigned =>
      have hid : new.epoch.id = id := by
        rw [changed]
        exact epoch?_id found
      refine notAhead_epoch hsync (epoch?_setEpoch found hid) ?_ now
      intro old' hold'
      obtain rfl : old = old' := Option.some.inj (found.symm.trans hold')
      right
      refine Prod.Lex.lt_iff.mpr (Or.inr ⟨by rw [changed]; rfl, ?_⟩)
      refine Prod.Lex.lt_iff.mpr (Or.inr ⟨by rw [changed]; rfl, ?_⟩)
      simp [epochRank, changed, unassigned]
  | keepEpochNamespace id old found assigned =>
      exact notAhead_epoch hsync found
        (fun old' h => Or.inl (Option.some.inj (found.symm.trans h))) now
  | setCommitEpoch epoch commit row found active => trivial

/-- A table write mirrored into a control tree goes up in the order of the
merge exactly when the tree was not ahead of the table's row, as it never is
when the tables match the tree and the write is regular.  Whatever lay below
the tree before then lies below the tree after. -/
theorem mirrored_goesUp_iff {a : Id} (ha : Represents codec s a x)
    {before after : Tables codec} {stage : Stage Id}
    (hw : TableWrite before stage after) (now : Instant codec) :
    ∃ b t, mirror s a after now stage = .ok (b, t) ∧ s ≤ t ∧
      WellFormed codec t b ∧
      (GoesUp codec t a b ↔ NotAhead s x after now stage) ∧
      (InSync x before → Regular s x before after now stage →
        GoesUp codec t a b) ∧
      (GoesUp codec t a b → ∀ r, WellFormed codec t r →
        GoesUp codec t r a → GoesUp codec t r b) := by
  obtain ⟨t, hrun, hle, hrep⟩ := mirror_eq_ok ha after now stage
  have hat := represents_mono hle ha
  have hiff : GoesUp codec t a ((x.mirrored after now stage).root codec) ↔
      NotAhead s x after now stage := by
    rw [goesUp_iff hat hrep,
      join_mirrored_iff ha.readable hle after now stage hrep.readable]
  refine ⟨_, t, hrun, hle, ⟨_, hrep⟩, hiff, ?_, ?_⟩
  · intro hsync hreg
    exact hiff.mpr (notAhead_of_inSync hw hsync hreg)
  · intro hup r hr hra
    exact hra.trans hr ⟨x, hat⟩ ⟨_, hrep⟩ hup

end Writes

/-! ## A resolution that came from elsewhere -/

namespace LateResolution

def taintOf (resolvedAt : Option ℤ) : Taint where
  id := "t"
  path := "/x"
  name := "drift"
  kind := .taint
  effect := .block
  reason := "drift"
  agentId := "agent/a"
  commitId := "c"
  expiresAt := none
  resolvedAt := resolvedAt
  propagate := true
  authorizedAgents := []

/-- A document of the taint says when it was resolved. -/
def docOf (resolvedAt : Option ℕ) : Json :=
  .object [("resolved_at", match resolvedAt with
    | none => .null
    | some n => .string (String.ofList (List.replicate n '1')))]

def taintCodec : ControlCodec ContentKey :=
  { sampleCodec with
    taint := fun doc =>
      match doc with
      | .object [("resolved_at", .null)] => .ok (taintOf none)
      | .object [("resolved_at", .string s)] =>
          .ok (taintOf (some s.toList.length))
      | _ => .error "missing field" }

def row (resolvedAt : Option ℕ) : TaintRow taintCodec where
  taint := taintOf (resolvedAt.map Nat.cast)
  doc := docOf resolvedAt
  canonical := by cases resolvedAt <;> rfl
  reads := by
    cases resolvedAt with
    | none => rfl
    | some n =>
        simp only [taintCodec, docOf, String.toList_ofList, List.length_replicate]
        rfl

def now : Instant taintCodec := ⟨0, "1970-01-01T00:00:00+00:00", rfl⟩

/-- The table has the taint unresolved. -/
def tables : Tables taintCodec := ⟨[row none], [], [], []⟩

/-- Then it is resolved at 2. -/
def resolved : Tables taintCodec := ⟨[row (some 2)], [], [], []⟩

/-- The control tree has it as it was resolved at a time, if at all. -/
def records (resolvedAt : Option ℕ) : Records ContentKey :=
  (⟨∅, ∅, ∅, ∅⟩ : Records ContentKey).put .taints "t"
    ((RecordDoc.taint (docOf resolvedAt)).tree taintCodec)

def store (resolvedAt : Option ℕ) : ObjectStore ContentKey :=
  (Sections.write
    ((RecordDoc.taint (docOf resolvedAt)).put taintCodec
      AddressedMap.empty).2
    ((records resolvedAt).sections taintCodec)).2

theorem represents_store (resolvedAt : Option ℕ) :
    Represents taintCodec (store resolvedAt) ((records resolvedAt).root taintCodec)
      (records resolvedAt) := by
  have hempty : (⟨∅, ∅, ∅, ∅⟩ : Records ContentKey).Held taintCodec
      AddressedMap.empty := by
    refine ⟨⟨?_, ?_, ?_⟩, ?_⟩ <;> intro k v h <;> simp at h
  have hreads : (EditRow.record "t"
      (RecordDoc.taint (docOf resolvedAt))).Reads taintCodec :=
    fun s => ⟨_, loadTaint_put s (row resolvedAt)⟩
  exact represents_write (held_put hempty hreads)

theorem resolveTaint_write :
    TableWrite tables (.taint "t") resolved :=
  TableWrite.resolveTaint "t" 2 (row none) (row (some 2)) rfl rfl rfl

/-- The control tree holds a resolution at 1, which the table does not have
yet; resolving the taint at 2 takes its place, and a merge puts it back. -/
theorem mirrored_not_goesUp :
    TableWrite tables (.taint "t") resolved ∧
    ∃ b t, mirror (store (some 1)) ((records (some 1)).root taintCodec)
        resolved now (.taint "t") = .ok (b, t) ∧
      ¬ GoesUp taintCodec t ((records (some 1)).root taintCodec) b := by
  have hrep := represents_store (some 1)
  obtain ⟨t, hrun, hle, hafter⟩ :=
    mirror_eq_ok hrep resolved now (.taint "t")
  refine ⟨resolveTaint_write, _, t, hrun, ?_⟩
  rw [goesUp_iff (represents_mono hle hrep) hafter,
    join_mirrored_iff hrep.readable hle _ _ _ hafter.readable]
  intro hahead
  have hget : (records (some 1)).taints["t"]? =
      some ((RecordDoc.taint (docOf (some 1))).tree taintCodec) :=
    Std.ExtTreeMap.getElem?_insert_self
  obtain ⟨c, hc⟩ := hrep.readable.taints "t" _ hget
  have hle' := hahead _ c hget hc
  rw [@eq_of_loadTaint_tree _ _ _ _ (row (some 1)) _ hc] at hle'
  have hlt : taintRank (row (some 2)).taint < taintRank (row (some 1)).taint :=
    Prod.Lex.lt_iff.mpr (Or.inr ⟨rfl, Prod.Lex.lt_iff.mpr (Or.inl (by
      show OrderDual.toDual ((2 : ℤ) : WithBot ℤ) <
        OrderDual.toDual ((1 : ℤ) : WithBot ℤ)
      rw [OrderDual.toDual_lt_toDual, WithBot.coe_lt_coe]
      decide))⟩)
  exact absurd hle' (not_le.mpr (Prod.Lex.lt_iff.mpr (Or.inl hlt)))

/-- In sync, the resolution goes up. -/
theorem mirrored_goesUp_resolved :
    ∃ b t, mirror (store none) ((records none).root taintCodec) resolved now
        (.taint "t") = .ok (b, t) ∧
      GoesUp taintCodec t ((records none).root taintCodec) b := by
  obtain ⟨b, t, hrun, -, -, -, hsync, -⟩ :=
    mirrored_goesUp_iff (represents_store none) resolveTaint_write now
  refine ⟨b, t, hrun, hsync ⟨?_, ?_⟩ ⟨?_, ?_, ?_⟩⟩
  · intro id
    by_cases hid : "t" = id
    · subst hid
      exact Std.ExtTreeMap.getElem?_insert_self
    · have hnone : tables.taint? id = none := by
        simp [Tables.taint?, tables, row, taintOf, hid]
      rw [hnone, Option.map_none]
      simp [records, Records.put, hid]
  · intro id
    rfl
  · rintro id old new h hold hnew hne
    obtain rfl : id = "t" := (Stage.taint.inj h).symm
    obtain rfl : row none = old := Option.some.inj hold
    obtain rfl : row (some 2) = new := Option.some.inj hnew
    exact absurd rfl hne
  · intro id u entry h
    cases h
  · intro id u entry r h
    cases h

end LateResolution

end Control

end AgentStateGraph
