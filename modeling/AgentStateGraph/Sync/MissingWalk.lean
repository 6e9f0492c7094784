import AgentStateGraph.Sync.Missing

/-!
# What the walk from both sides finds

Marks only spread from commits the remote has and commits are only queued from
heads, so what the walk says of a commit is true whatever the timestamps.  At
its end everything reached from a head is walked or marked; and when no commit
is older than a parent, everything reached from a have that is as new as a
walked commit is marked.
-/

namespace AgentStateGraph

namespace Missing

open Worklist

variable {Id : Type} [Digest Id]

/-- The parents that a walk from the heads follows. -/
def cutParents (commits : CommitStore Id) (shallow : List Id) (id : Id) :
    List Id :=
  if id ∈ shallow then [] else commits.parents id

/-- Reached from a head, down to the boundary. -/
def FromHeads (commits : CommitStore Id) (heads shallow : List Id) (x : Id) :
    Prop :=
  ∃ h ∈ heads, Reaches (cutParents commits shallow) h x

/-- A have or an ancestor of one. -/
def FromHaves (commits : CommitStore Id) (haves : List Id) (x : Id) : Prop :=
  ∃ v ∈ haves, commits.IsAncestor x v

/-- How a commit stands in the queue. -/
def queueEntry (c : Commit Id) : ℤ ×ₗ Id := toLex (c.timestamp, c.id)

theorem queueEntry_injective :
    Function.Injective (queueEntry : Commit Id → ℤ ×ₗ Id) := by
  intro a b h
  have hsnd : (ofLex (queueEntry a)).2 = (ofLex (queueEntry b)).2 := by rw [h]
  exact Commit.id_injective hsnd

/-! ## The invariant -/

namespace Walk

/-- What every round keeps: marks, queue and lists say what they mean. -/
structure Inv (commits : CommitStore Id) (heads haves shallow : List Id)
    (w : Walk Id) : Prop where
  remoteHas : ∀ x, (w.marks x).remoteHas = true →
    (commits.get x).isSome = true ∧ FromHaves commits haves x
  queued : ∀ x, (w.marks x).queued = true →
    (commits.get x).isSome = true ∧ FromHeads commits heads shallow x
  spread : ∀ x, (w.marks x).spread = true → (w.marks x).remoteHas = true
  walkedQueued : ∀ x, (w.marks x).walked = true → (w.marks x).queued = true
  walked : ∀ x, x ∈ w.walked ↔ (w.marks x).walked = true
  nodup : w.walked.Nodup
  entries : ∀ e ∈ w.queue, ∃ c, commits.get c.id = some c ∧
    e = queueEntry c ∧
    ((w.marks c.id).remoteHas = true ∨ (w.marks c.id).queued = true)
  toSpread : ∀ c, commits.get c.id = some c →
    (w.marks c.id).remoteHas = true → (w.marks c.id).spread = false →
    queueEntry c ∈ w.queue
  toWalk : ∀ c, commits.get c.id = some c → (w.marks c.id).queued = true →
    (w.marks c.id).walked = false → (w.marks c.id).remoteHas = false →
    queueEntry c ∈ w.queue ∧ c.id ∈ w.pending
  oldest : ∀ c, commits.get c.id = some c → c.id ∈ w.walked →
    ∃ t, w.oldestNew = some t ∧ t ≤ c.timestamp

/-- The parents of what has spread its mark are marked, and those of what is
walked are known. -/
structure Closed (commits : CommitStore Id) (shallow : List Id) (w : Walk Id) :
    Prop where
  spread : ∀ x, (w.marks x).spread = true → ∀ p ∈ commits.parents x,
    (commits.get p).isSome = true → (w.marks p).remoteHas = true
  walked : ∀ x, (w.marks x).walked = true → ∀ p ∈ cutParents commits shallow x,
    (commits.get p).isSome = true →
    (w.marks p).queued = true ∨ (w.marks p).remoteHas = true
  lacksParent : ∀ x, x ∈ w.lacksParent ↔ (w.marks x).walked = true ∧
    ∃ p ∈ cutParents commits shallow x, commits.get p = none

/-- The stored commits. -/
def stored (commits : CommitStore Id) : Finset Id :=
  (commits.entries.toList.map Prod.fst).toFinset

/-- The rounds left: one for each entry, and for each mark a commit can still
get. -/
def roundsLeft (commits : CommitStore Id) (w : Walk Id) : ℕ :=
  w.queue.length +
    ((stored commits).filter fun x => (w.marks x).remoteHas = false).card +
    ((stored commits).filter fun x => (w.marks x).queued = false).card

/-- Commits were queued or marked, and nothing else. -/
structure Grows (commits : CommitStore Id) (w w' : Walk Id) : Prop where
  remoteHas : ∀ x, (w.marks x).remoteHas = true →
    (w'.marks x).remoteHas = true
  queued : ∀ x, (w.marks x).queued = true → (w'.marks x).queued = true
  spread : ∀ x, (w'.marks x).spread = (w.marks x).spread
  walkedMark : ∀ x, (w'.marks x).walked = (w.marks x).walked
  walked : w'.walked = w.walked
  rounds : roundsLeft commits w' ≤ roundsLeft commits w

/-- No mark of a commit was taken back. -/
structure Keeps (w w' : Walk Id) : Prop where
  remoteHas : ∀ x, (w.marks x).remoteHas = true →
    (w'.marks x).remoteHas = true
  queued : ∀ x, (w.marks x).queued = true → (w'.marks x).queued = true

theorem Grows.refl (commits : CommitStore Id) (w : Walk Id) :
    Grows commits w w :=
  ⟨fun _ h => h, fun _ h => h, fun _ => rfl, fun _ => rfl, rfl, le_rfl⟩

theorem Grows.trans {commits : CommitStore Id} {w₁ w₂ w₃ : Walk Id}
    (h₁ : Grows commits w₁ w₂) (h₂ : Grows commits w₂ w₃) :
    Grows commits w₁ w₃ where
  remoteHas x h := h₂.remoteHas x (h₁.remoteHas x h)
  queued x h := h₂.queued x (h₁.queued x h)
  spread x := (h₂.spread x).trans (h₁.spread x)
  walkedMark x := (h₂.walkedMark x).trans (h₁.walkedMark x)
  walked := h₂.walked.trans h₁.walked
  rounds := h₂.rounds.trans h₁.rounds

/-! ## Queueing and marking -/

section Push

variable {commits : CommitStore Id} {heads haves shallow : List Id}
  {w : Walk Id}

theorem mem_stored {x : Id} :
    x ∈ stored commits ↔ (commits.get x).isSome = true := by
  rw [stored, List.mem_toFinset, Std.ExtTreeMap.map_fst_toList_eq_keys,
    Std.ExtTreeMap.mem_keys, Std.ExtTreeMap.mem_iff_isSome_getElem?]
  rfl

theorem card_filter_update (flag : Mark → Bool) {marks : Id → Mark} {x : Id}
    {m : Mark} (hx : x ∈ stored commits) (hold : flag (marks x) = false)
    (hnew : flag m = true) :
    ((stored commits).filter fun y =>
        flag (Function.update marks x m y) = false).card + 1 =
      ((stored commits).filter fun y => flag (marks y) = false).card := by
  have hsplit : ((stored commits).filter fun y => flag (marks y) = false) =
      insert x ((stored commits).filter fun y =>
        flag (Function.update marks x m y) = false) := by
    ext y
    simp only [Finset.mem_filter, Finset.mem_insert]
    by_cases hy : y = x
    · subst hy
      simp [hx, hold]
    · simp [hy]
  rw [hsplit, Finset.card_insert_of_notMem (by simp [hnew])]

theorem flag_update (flag : Mark → Bool) {marks : Id → Mark} {k : Id}
    {m : Mark} (h : flag m = flag (marks k)) (x : Id) :
    flag (Function.update marks k m x) = flag (marks x) := by
  by_cases hx : x = k
  · subst hx
    simpa using h
  · simp [hx]

theorem flag_update_iff (flag : Mark → Bool) {marks : Id → Mark} {k : Id}
    {m : Mark} (h : flag m = true) (x : Id) :
    flag (Function.update marks k m x) = true ↔
      x = k ∨ flag (marks x) = true := by
  by_cases hx : x = k
  · simp [hx, h]
  · simp [hx]

theorem filter_update_of_eq (flag : Mark → Bool) {marks : Id → Mark} {x : Id}
    {m : Mark} (h : flag m = flag (marks x)) :
    ((stored commits).filter fun y =>
        flag (Function.update marks x m y) = false) =
      (stored commits).filter fun y => flag (marks y) = false :=
  Finset.filter_congr fun y _ => by rw [flag_update flag h]

variable {c : Commit Id}

theorem grows_queueNew (hc : commits.get c.id = some c) :
    Grows commits w (w.queueNew c) ∧
      (((w.queueNew c).marks c.id).queued = true ∨
        ((w.queueNew c).marks c.id).remoteHas = true) := by
  have hstored : c.id ∈ stored commits := mem_stored.mpr (by rw [hc]; rfl)
  simp only [queueNew]
  by_cases hm : ((w.marks c.id).remoteHas || (w.marks c.id).queued) = true
  · rw [if_pos hm]
    refine ⟨Grows.refl commits w, ?_⟩
    rw [Bool.or_eq_true] at hm
    exact hm.symm
  · rw [if_neg hm]
    simp only [Bool.or_eq_true, not_or, Bool.not_eq_true] at hm
    refine ⟨⟨fun x hx => ?_, fun x hx => ?_, flag_update Mark.spread rfl,
      flag_update Mark.walked rfl, rfl, ?_⟩, Or.inl (by simp)⟩
    · rwa [@flag_update Id _ Mark.remoteHas w.marks c.id
        { w.marks c.id with queued := true } rfl]
    · exact (flag_update_iff Mark.queued rfl x).mpr (Or.inr hx)
    · have hcard := card_filter_update Mark.queued
        (m := { w.marks c.id with queued := true }) hstored hm.2 rfl
      have hsame := @filter_update_of_eq Id _ commits Mark.remoteHas w.marks
        c.id { w.marks c.id with queued := true } rfl
      dsimp only at hcard hsame
      simp only [roundsLeft, List.length_cons, hsame]
      omega

theorem inv_queueNew (hc : commits.get c.id = some c)
    (hfrom : FromHeads commits heads shallow c.id)
    (h : Inv commits heads haves shallow w) :
    Inv commits heads haves shallow (w.queueNew c) := by
  simp only [queueNew]
  by_cases hm : ((w.marks c.id).remoteHas || (w.marks c.id).queued) = true
  · rw [if_pos hm]
    exact h
  · rw [if_neg hm]
    simp only [Bool.or_eq_true, not_or, Bool.not_eq_true] at hm
    let m : Mark := { w.marks c.id with queued := true }
    have hrem := @flag_update Id _ Mark.remoteHas w.marks c.id m rfl
    have hspread := @flag_update Id _ Mark.spread w.marks c.id m rfl
    have hwalked := @flag_update Id _ Mark.walked w.marks c.id m rfl
    have hqueued := @flag_update_iff Id _ Mark.queued w.marks c.id m rfl
    refine ⟨?_, ?_, ?_, ?_, ?_, h.nodup, ?_, ?_, ?_, h.oldest⟩
    · intro x hx
      exact h.remoteHas x ((hrem x).symm.trans hx)
    · intro x hx
      rcases (hqueued x).mp hx with rfl | hx
      · exact ⟨by rw [hc]; rfl, hfrom⟩
      · exact h.queued x hx
    · intro x hx
      exact (hrem x).trans (h.spread x ((hspread x).symm.trans hx))
    · intro x hx
      exact (hqueued x).mpr
        (Or.inr (h.walkedQueued x ((hwalked x).symm.trans hx)))
    · intro x
      rw [h.walked x, ← hwalked x]
    · intro e he
      rcases List.mem_cons.mp he with rfl | he
      · exact ⟨c, hc, rfl, Or.inr (by simp)⟩
      · obtain ⟨d, hd, rfl, hmark⟩ := h.entries e he
        refine ⟨d, hd, rfl, hmark.imp (hrem d.id).trans fun hq => ?_⟩
        exact (hqueued d.id).mpr (Or.inr hq)
    · intro d hd hr hs
      exact List.mem_cons_of_mem _ (h.toSpread d hd
        ((hrem d.id).symm.trans hr) ((hspread d.id).symm.trans hs))
    · intro d hd hq hw hr
      by_cases hdc : d.id = c.id
      · obtain rfl : d = c := Commit.id_injective hdc
        exact ⟨List.mem_cons_self, List.mem_cons_self⟩
      · have hold := h.toWalk d hd (((hqueued d.id).mp hq).resolve_left hdc)
          ((hwalked d.id).symm.trans hw) ((hrem d.id).symm.trans hr)
        exact ⟨List.mem_cons_of_mem _ hold.1, List.mem_cons_of_mem _ hold.2⟩

theorem grows_markRemoteHas (hc : commits.get c.id = some c) :
    Grows commits w (w.markRemoteHas c) ∧
      ((w.markRemoteHas c).marks c.id).remoteHas = true := by
  have hstored : c.id ∈ stored commits := mem_stored.mpr (by rw [hc]; rfl)
  simp only [markRemoteHas]
  by_cases hm : (w.marks c.id).remoteHas = true
  · rw [if_pos hm]
    exact ⟨Grows.refl commits w, hm⟩
  · rw [if_neg hm]
    rw [Bool.not_eq_true] at hm
    refine ⟨⟨fun x hx => ?_, fun x hx => ?_, flag_update Mark.spread rfl,
      flag_update Mark.walked rfl, rfl, ?_⟩, by simp⟩
    · exact (flag_update_iff Mark.remoteHas rfl x).mpr (Or.inr hx)
    · rwa [@flag_update Id _ Mark.queued w.marks c.id
        { w.marks c.id with remoteHas := true } rfl]
    · have hcard := card_filter_update Mark.remoteHas
        (m := { w.marks c.id with remoteHas := true }) hstored hm rfl
      have hsame := @filter_update_of_eq Id _ commits Mark.queued w.marks
        c.id { w.marks c.id with remoteHas := true } rfl
      dsimp only at hcard hsame
      simp only [roundsLeft, List.length_cons, hsame]
      omega

theorem inv_markRemoteHas (hc : commits.get c.id = some c)
    (hfrom : FromHaves commits haves c.id)
    (h : Inv commits heads haves shallow w) :
    Inv commits heads haves shallow (w.markRemoteHas c) := by
  simp only [markRemoteHas]
  by_cases hm : (w.marks c.id).remoteHas = true
  · rw [if_pos hm]
    exact h
  · rw [if_neg hm]
    let m : Mark := { w.marks c.id with remoteHas := true }
    have hqueued := @flag_update Id _ Mark.queued w.marks c.id m rfl
    have hspread := @flag_update Id _ Mark.spread w.marks c.id m rfl
    have hwalked := @flag_update Id _ Mark.walked w.marks c.id m rfl
    have hrem := @flag_update_iff Id _ Mark.remoteHas w.marks c.id m rfl
    refine ⟨?_, ?_, ?_, ?_, ?_, h.nodup, ?_, ?_, ?_, h.oldest⟩
    · intro x hx
      rcases (hrem x).mp hx with rfl | hx
      · exact ⟨by rw [hc]; rfl, hfrom⟩
      · exact h.remoteHas x hx
    · intro x hx
      exact h.queued x ((hqueued x).symm.trans hx)
    · intro x hx
      exact (hrem x).mpr (Or.inr (h.spread x ((hspread x).symm.trans hx)))
    · intro x hx
      exact (hqueued x).trans (h.walkedQueued x ((hwalked x).symm.trans hx))
    · intro x
      rw [h.walked x, ← hwalked x]
    · intro e he
      rcases List.mem_cons.mp he with rfl | he
      · exact ⟨c, hc, rfl, Or.inl (by simp)⟩
      · obtain ⟨d, hd, rfl, hmark⟩ := h.entries e he
        refine ⟨d, hd, rfl, hmark.imp (fun hr => ?_) (hqueued d.id).trans⟩
        exact (hrem d.id).mpr (Or.inr hr)
    · intro d hd hr hs
      rcases (hrem d.id).mp hr with hdc | hr
      · obtain rfl : d = c := Commit.id_injective hdc
        exact List.mem_cons_self
      · exact List.mem_cons_of_mem _
          (h.toSpread d hd hr ((hspread d.id).symm.trans hs))
    · intro d hd hq hw hr
      have hnot := mt (hrem d.id).mpr (by rw [hr]; simp)
      rw [not_or, Bool.not_eq_true] at hnot
      have hold := h.toWalk d hd ((hqueued d.id).symm.trans hq)
        ((hwalked d.id).symm.trans hw) hnot.2
      exact ⟨List.mem_cons_of_mem _ hold.1,
        List.mem_filter.mpr ⟨hold.2, by simpa using hnot.1⟩⟩

/-! ## Several commits at once -/

theorem inv_foldl_loadRemoteHas {ids : List Id}
    (hfrom : ∀ id ∈ ids, FromHaves commits haves id)
    (h : Inv commits heads haves shallow w) :
    let w' := ids.foldl (loadRemoteHas commits) w
    Inv commits heads haves shallow w' ∧ Grows commits w w' ∧
      (∀ id ∈ ids, (commits.get id).isSome = true →
        (w'.marks id).remoteHas = true) ∧
      w'.lacksParent = w.lacksParent := by
  induction ids generalizing w with
  | nil => exact ⟨h, Grows.refl commits w, by simp, rfl⟩
  | cons id ids ih =>
      have hids := fun x hx => hfrom x (List.mem_cons_of_mem id hx)
      rw [List.foldl_cons]
      cases hget : commits.get id with
      | none =>
          have hstep : loadRemoteHas commits w id = w := by
            simp only [loadRemoteHas, hget]
          rw [hstep]
          obtain ⟨hinv, hgrows, hmarked, hlacks⟩ := ih hids h
          refine ⟨hinv, hgrows, ?_, hlacks⟩
          intro x hx hstored
          rcases List.mem_cons.mp hx with rfl | hx
          · simp [hget] at hstored
          · exact hmarked x hx hstored
      | some c =>
          obtain rfl : c.id = id := CommitStore.id_eq_of_get hget
          have hstep : loadRemoteHas commits w c.id = w.markRemoteHas c := by
            simp only [loadRemoteHas, hget]
          rw [hstep]
          obtain ⟨hgrow, hmark⟩ := grows_markRemoteHas (w := w) hget
          obtain ⟨hinv, hgrows, hmarked, hlacks⟩ :=
            ih hids (inv_markRemoteHas hget (hfrom _ (by simp)) h)
          refine ⟨hinv, hgrow.trans hgrows, ?_, ?_⟩
          · intro x hx hstored
            rcases List.mem_cons.mp hx with rfl | hx
            · exact hgrows.remoteHas _ hmark
            · exact hmarked x hx hstored
          · rw [hlacks]
            simp only [markRemoteHas]
            split <;> rfl

theorem lacksParent_queueNew (c : Commit Id) :
    (w.queueNew c).lacksParent = w.lacksParent := by
  simp only [queueNew]
  split <;> rfl

theorem inv_foldl_loadNew {q : Id} {ids : List Id}
    (hfrom : ∀ id ∈ ids, FromHeads commits heads shallow id)
    (h : Inv commits heads haves shallow w) :
    let w' := ids.foldl (loadNew commits q) w
    Inv commits heads haves shallow w' ∧ Grows commits w w' ∧
      (∀ id ∈ ids, (commits.get id).isSome = true →
        (w'.marks id).queued = true ∨ (w'.marks id).remoteHas = true) ∧
      ∀ x, x ∈ w'.lacksParent ↔ x ∈ w.lacksParent ∨
        (x = q ∧ ∃ id ∈ ids, commits.get id = none) := by
  induction ids generalizing w with
  | nil => exact ⟨h, Grows.refl commits w, by simp, by simp⟩
  | cons id ids ih =>
      have hids := fun x hx => hfrom x (List.mem_cons_of_mem id hx)
      rw [List.foldl_cons]
      cases hget : commits.get id with
      | none =>
          have hstep : loadNew commits q w id =
              { w with lacksParent := q :: w.lacksParent } := by
            simp only [loadNew, hget]
          rw [hstep]
          have hnoted : Inv commits heads haves shallow
              { w with lacksParent := q :: w.lacksParent } :=
            ⟨h.remoteHas, h.queued, h.spread, h.walkedQueued, h.walked,
              h.nodup, h.entries, h.toSpread, h.toWalk, h.oldest⟩
          have hgrow : Grows commits w
              { w with lacksParent := q :: w.lacksParent } :=
            ⟨fun _ h => h, fun _ h => h, fun _ => rfl, fun _ => rfl, rfl,
              le_rfl⟩
          obtain ⟨hinv, hgrows, hknown, hlacks⟩ := ih hids hnoted
          refine ⟨hinv, hgrow.trans hgrows, ?_, ?_⟩
          · intro x hx hstored
            rcases List.mem_cons.mp hx with rfl | hx
            · simp [hget] at hstored
            · exact hknown x hx hstored
          · intro x
            rw [hlacks x, List.mem_cons]
            constructor
            · rintro ((rfl | hx) | ⟨rfl, p, hp, hnone⟩)
              · exact Or.inr ⟨rfl, id, by simp, hget⟩
              · exact Or.inl hx
              · exact Or.inr ⟨rfl, p, List.mem_cons_of_mem _ hp, hnone⟩
            · rintro (hx | ⟨rfl, -⟩)
              · exact Or.inl (Or.inr hx)
              · exact Or.inl (Or.inl rfl)
      | some c =>
          obtain rfl : c.id = id := CommitStore.id_eq_of_get hget
          have hstep : loadNew commits q w c.id = w.queueNew c := by
            simp only [loadNew, hget]
          rw [hstep]
          obtain ⟨hgrow, hmark⟩ := grows_queueNew (w := w) hget
          obtain ⟨hinv, hgrows, hknown, hlacks⟩ :=
            ih hids (inv_queueNew hget (hfrom _ (by simp)) h)
          refine ⟨hinv, hgrow.trans hgrows, ?_, ?_⟩
          · intro x hx hstored
            rcases List.mem_cons.mp hx with rfl | hx
            · exact hmark.imp (hgrows.queued _) (hgrows.remoteHas _)
            · exact hknown x hx hstored
          · intro x
            rw [hlacks x, lacksParent_queueNew]
            constructor
            · rintro (hx | ⟨rfl, p, hp, hnone⟩)
              · exact Or.inl hx
              · exact Or.inr ⟨rfl, p, List.mem_cons_of_mem _ hp, hnone⟩
            · rintro (hx | ⟨rfl, p, hp, hnone⟩)
              · exact Or.inl hx
              · refine Or.inr ⟨rfl, p, ?_, hnone⟩
                refine (List.mem_cons.mp hp).resolve_left ?_
                rintro rfl
                rw [hget] at hnone
                contradiction

end Push

/-! ## One round -/

section Step

variable {commits : CommitStore Id} {heads haves shallow : List Id}
  {w w' : Walk Id} {c : Commit Id}

/-- The walk after a commit left the queue with the mark `m`. -/
def popped (w : Walk Id) (c : Commit Id) (m : Mark) (walked : List Id)
    (oldest : Option ℤ) : Walk Id where
  marks := Function.update w.marks c.id m
  queue := HeapLoop.remove w.queue (queueEntry c)
  pending := w.pending.filter (· ≠ c.id)
  walked := walked
  lacksParent := w.lacksParent
  oldestNew := oldest

variable {m : Mark} {walked : List Id} {oldest : Option ℤ}

theorem inv_popped (h : Inv commits heads haves shallow w)
    (hrem : m.remoteHas = (w.marks c.id).remoteHas)
    (hqueued : m.queued = (w.marks c.id).queued)
    (hspread : m.spread = m.remoteHas) (hwq : m.walked = true → m.queued = true)
    (hdone : m.queued = true → m.remoteHas = false → m.walked = true)
    (hwalked : ∀ x, x ∈ walked ↔
      (Function.update w.marks c.id m x).walked = true) (hnodup : walked.Nodup)
    (holdest : ∀ d, commits.get d.id = some d → d.id ∈ walked →
      ∃ t, oldest = some t ∧ t ≤ d.timestamp) :
    Inv commits heads haves shallow (w.popped c m walked oldest) := by
  have hremEq : ∀ x, ((w.popped c m walked oldest).marks x).remoteHas =
      (w.marks x).remoteHas :=
    flag_update Mark.remoteHas hrem
  have hqueuedEq : ∀ x, ((w.popped c m walked oldest).marks x).queued =
      (w.marks x).queued :=
    flag_update Mark.queued hqueued
  have hstays : ∀ d : Commit Id, d.id ≠ c.id → queueEntry d ∈ w.queue →
      queueEntry d ∈ HeapLoop.remove w.queue (queueEntry c) := by
    intro d hdc hmem
    refine HeapLoop.mem_remove_of_ne ?_ hmem
    intro heq
    exact hdc (congrArg Commit.id (queueEntry_injective heq))
  refine ⟨?_, ?_, ?_, ?_, hwalked, hnodup, ?_, ?_, ?_, holdest⟩
  · intro x hx
    exact h.remoteHas x ((hremEq x).symm.trans hx)
  · intro x hx
    exact h.queued x ((hqueuedEq x).symm.trans hx)
  · intro x hx
    by_cases hxc : x = c.id
    · subst hxc
      simp only [popped, Function.update_self] at hx ⊢
      rwa [← hspread]
    · simp only [popped, Function.update_of_ne hxc] at hx ⊢
      exact h.spread x hx
  · intro x hx
    by_cases hxc : x = c.id
    · subst hxc
      simp only [popped, Function.update_self] at hx ⊢
      exact hwq hx
    · simp only [popped, Function.update_of_ne hxc] at hx ⊢
      exact h.walkedQueued x hx
  · intro e he
    obtain ⟨d, hd, rfl, hmark⟩ := h.entries e (HeapLoop.mem_of_mem_remove he)
    refine ⟨d, hd, rfl, ?_⟩
    rw [hremEq, hqueuedEq]
    exact hmark
  · intro d hd hr hs
    have hdc : d.id ≠ c.id := by
      intro heq
      simp only [popped, heq, Function.update_self, hspread] at hr hs
      rw [hr] at hs
      contradiction
    simp only [popped, Function.update_of_ne hdc] at hr hs
    exact hstays d hdc (h.toSpread d hd hr hs)
  · intro d hd hq hw hr
    have hdc : d.id ≠ c.id := by
      intro heq
      simp only [popped, heq, Function.update_self] at hq hw hr
      rw [hdone hq hr] at hw
      contradiction
    simp only [popped, Function.update_of_ne hdc] at hq hw hr
    obtain ⟨hmem, hpending⟩ := h.toWalk d hd hq hw hr
    exact ⟨hstays d hdc hmem,
      List.mem_filter.mpr ⟨hpending, by simpa using hdc⟩⟩

theorem roundsLeft_popped (hmem : queueEntry c ∈ w.queue)
    (hrem : m.remoteHas = (w.marks c.id).remoteHas)
    (hqueued : m.queued = (w.marks c.id).queued) :
    roundsLeft commits (w.popped c m walked oldest) < roundsLeft commits w := by
  have h₁ := @filter_update_of_eq Id _ commits Mark.remoteHas w.marks c.id m
    hrem
  have h₂ := @filter_update_of_eq Id _ commits Mark.queued w.marks c.id m
    hqueued
  have hlen := HeapLoop.length_remove hmem
  have hleft : roundsLeft commits (w.popped c m walked oldest) =
      (HeapLoop.remove w.queue (queueEntry c)).length +
        ((stored commits).filter fun x => (w.marks x).remoteHas = false).card +
        ((stored commits).filter fun x => (w.marks x).queued = false).card := by
    rw [← h₁, ← h₂]
    rfl
  rw [hleft, roundsLeft]
  omega

theorem step_cases (h : Inv commits heads haves shallow w)
    (hstep : step commits shallow w = some w') :
    ∃ c, commits.get c.id = some c ∧ queueEntry c ∈ w.queue ∧
      (((w.marks c.id).remoteHas = true ∧
          w' = (w.popped c (w.marks c.id) w.walked w.oldestNew).spread commits
            c.id) ∨
        ((w.marks c.id).remoteHas = false ∧ (w.marks c.id).walked = true ∧
          w' = w.popped c (w.marks c.id) w.walked w.oldestNew) ∨
        ((w.marks c.id).remoteHas = false ∧ (w.marks c.id).walked = false ∧
          (w.marks c.id).queued = true ∧
          w' = (w.popped c (w.marks c.id) w.walked w.oldestNew).visit commits
            shallow c.timestamp c.id)) := by
  simp only [step] at hstep
  cases hpop : HeapLoop.pop w.queue with
  | none =>
      rw [hpop] at hstep
      contradiction
  | some popped =>
      obtain ⟨top, rest⟩ := popped
      obtain ⟨hmem, rfl⟩ := HeapLoop.pop_eq_some hpop
      obtain ⟨c, hc, rfl, hmark⟩ := h.entries top hmem
      refine ⟨c, hc, hmem, ?_⟩
      have hpopped : w.popped c (w.marks c.id) w.walked w.oldestNew =
          { w with
            queue := HeapLoop.remove w.queue (queueEntry c)
            pending := w.pending.filter (· ≠ c.id) } := by
        simp only [Walk.popped, Function.update_eq_self]
      rw [hpop] at hstep
      have hadvance : w.advance commits shallow
          (HeapLoop.remove w.queue (queueEntry c)) c.timestamp c.id = some w' := by
        simpa only [queueEntry, ofLex_toLex] using hstep
      simp only [advance] at hadvance
      split at hadvance
      · contradiction
      · cases hrem : (w.marks c.id).remoteHas with
        | true =>
            rw [if_pos hrem, Option.some.injEq] at hadvance
            exact Or.inl ⟨rfl, by rw [hpopped, ← hadvance]⟩
        | false =>
            rw [if_neg (by simp [hrem])] at hadvance
            cases hw : (w.marks c.id).walked with
            | true =>
                rw [if_pos hw, Option.some.injEq] at hadvance
                exact Or.inr (Or.inl ⟨rfl, rfl, by rw [hpopped, ← hadvance]⟩)
            | false =>
                rw [if_neg (by simp [hw]), Option.some.injEq] at hadvance
                refine Or.inr (Or.inr ⟨rfl, rfl, ?_, ?_⟩)
                · exact hmark.resolve_left (by simp [hrem])
                · rw [hpopped, ← hadvance]

theorem spread_popped (h : Inv commits heads haves shallow w)
    (hcl : Closed commits shallow w)
    (hmem : queueEntry c ∈ w.queue) (hrem : (w.marks c.id).remoteHas = true) :
    let w' := (w.popped c (w.marks c.id) w.walked w.oldestNew).spread commits
      c.id
    Inv commits heads haves shallow w' ∧ Closed commits shallow w' ∧
      roundsLeft commits w' < roundsLeft commits w ∧ Keeps w w' := by
  let m : Mark := { w.marks c.id with spread := true }
  let p := w.popped c m w.walked w.oldestNew
  have hinv : Inv commits heads haves shallow p := by
    refine inv_popped h rfl rfl hrem.symm (h.walkedQueued c.id) ?_ ?_ h.nodup
      h.oldest
    · intro _ hfalse
      exact absurd (hrem.symm.trans hfalse) (by simp)
    · intro x
      rw [h.walked x, @flag_update Id _ Mark.walked w.marks c.id m rfl]
  have hspread : (w.popped c (w.marks c.id) w.walked w.oldestNew).spread
      commits c.id = if (w.marks c.id).spread then p
        else (commits.parents c.id).foldl (loadRemoteHas commits) p := by
    simp only [spread, popped, Function.update_self, Function.update_idem]
    split
    next hs =>
      have hm : m = w.marks c.id := by
        simp only [m, ← hs]
      simp only [p, popped, hm]
    next => rfl
  have hfrom : ∀ id ∈ commits.parents c.id, FromHaves commits haves id := by
    intro id hid
    obtain ⟨v, hv, hreach⟩ := (h.remoteHas c.id hrem).2
    exact ⟨v, hv, (CommitStore.IsAncestor.of_mem_parents hid).trans hreach⟩
  obtain ⟨hinv', hgrows, hmarked, hlacks⟩ :=
    inv_foldl_loadRemoteHas hfrom hinv
  have hremp : ∀ x, (p.marks x).remoteHas = (w.marks x).remoteHas :=
    flag_update Mark.remoteHas rfl
  have hqueuedp : ∀ x, (p.marks x).queued = (w.marks x).queued :=
    flag_update Mark.queued rfl
  have hwalkedp : ∀ x, (p.marks x).walked = (w.marks x).walked :=
    flag_update Mark.walked rfl
  have hspreadp : ∀ x, x ≠ c.id → (p.marks x).spread = (w.marks x).spread := by
    intro x hxc
    simp [p, popped, hxc]
  have hrounds : roundsLeft commits p < roundsLeft commits w :=
    roundsLeft_popped hmem rfl rfl
  rw [hspread]
  by_cases hs : (w.marks c.id).spread = true
  · rw [if_pos hs]
    refine ⟨hinv, ⟨?_, ?_, ?_⟩, hrounds, ⟨?_, ?_⟩⟩
    · intro x hx q hq hstored
      rw [hremp]
      by_cases hxc : x = c.id
      · subst hxc
        exact hcl.spread _ hs q hq hstored
      · exact hcl.spread x ((hspreadp x hxc) ▸ hx) q hq hstored
    · intro x hx q hq hstored
      rw [hremp, hqueuedp]
      exact hcl.walked x ((hwalkedp x) ▸ hx) q hq hstored
    · intro x
      rw [hwalkedp]
      exact hcl.lacksParent x
    · intro x hx
      exact (hremp x).trans hx
    · intro x hx
      exact (hqueuedp x).trans hx
  · rw [if_neg hs]
    refine ⟨hinv', ⟨?_, ?_, ?_⟩, lt_of_le_of_lt hgrows.rounds hrounds,
      ⟨?_, ?_⟩⟩
    · intro x hx q hq hstored
      by_cases hxc : x = c.id
      · subst hxc
        exact hmarked q hq hstored
      · rw [hgrows.spread, hspreadp x hxc] at hx
        refine hgrows.remoteHas q ?_
        rw [hremp]
        exact hcl.spread x hx q hq hstored
    · intro x hx q hq hstored
      rw [hgrows.walkedMark, hwalkedp] at hx
      have hold := hcl.walked x hx q hq hstored
      rw [← hremp, ← hqueuedp] at hold
      exact hold.imp (hgrows.queued q) (hgrows.remoteHas q)
    · intro x
      rw [hlacks, hgrows.walkedMark, hwalkedp]
      exact hcl.lacksParent x
    · intro x hx
      exact hgrows.remoteHas x ((hremp x).trans hx)
    · intro x hx
      exact hgrows.queued x ((hqueuedp x).trans hx)

theorem visit_popped (h : Inv commits heads haves shallow w)
    (hcl : Closed commits shallow w) (hmem : queueEntry c ∈ w.queue)
    (hrem : (w.marks c.id).remoteHas = false)
    (hnew : (w.marks c.id).walked = false)
    (hqueued : (w.marks c.id).queued = true) :
    let w' := (w.popped c (w.marks c.id) w.walked w.oldestNew).visit commits
      shallow c.timestamp c.id
    Inv commits heads haves shallow w' ∧ Closed commits shallow w' ∧
      roundsLeft commits w' < roundsLeft commits w ∧ Keeps w w' := by
  let m : Mark := { w.marks c.id with walked := true }
  let oldest : ℤ := w.oldestNew.elim c.timestamp fun t => min t c.timestamp
  let p := w.popped c m (w.walked ++ [c.id]) (some oldest)
  have hnotMem : c.id ∉ w.walked := by
    rw [h.walked, hnew]
    simp
  have hspreadc : (w.marks c.id).spread = false := by
    by_contra hs
    rw [Bool.not_eq_false] at hs
    rw [h.spread _ hs] at hrem
    contradiction
  have hinv : Inv commits heads haves shallow p := by
    refine inv_popped h rfl rfl (hspreadc.trans hrem.symm) (fun _ => hqueued)
      (fun _ _ => rfl) ?_ ?_ ?_
    · intro x
      rw [List.mem_append, h.walked, List.mem_singleton,
        @flag_update_iff Id _ Mark.walked w.marks c.id m rfl, or_comm]
    · exact h.nodup.append (by simp) (by simpa using hnotMem)
    · intro d hd hmem
      refine ⟨oldest, rfl, ?_⟩
      rcases List.mem_append.mp hmem with hmem | hmem
      · obtain ⟨t, ht, hle⟩ := h.oldest d hd hmem
        simp only [oldest, ht]
        exact (min_le_left _ _).trans hle
      · obtain rfl : d = c := Commit.id_injective (List.mem_singleton.mp hmem)
        cases hold : w.oldestNew with
        | none => simp [oldest, hold]
        | some t =>
            simp only [oldest, hold]
            exact min_le_right _ _
  have hvisit : (w.popped c (w.marks c.id) w.walked w.oldestNew).visit commits
      shallow c.timestamp c.id =
        (cutParents commits shallow c.id).foldl (loadNew commits c.id) p := by
    simp only [visit, popped, Function.update_self, Function.update_idem,
      cutParents, p, oldest, m]
    cases hold : w.oldestNew <;> split <;> rfl
  have hfrom : ∀ id ∈ cutParents commits shallow c.id,
      FromHeads commits heads shallow id := by
    intro id hid
    obtain ⟨r, hr, hreach⟩ := (h.queued c.id hqueued).2
    exact ⟨r, hr, hreach.trans (Reaches.single hid)⟩
  obtain ⟨hinv', hgrows, hknown, hlacks⟩ :=
    inv_foldl_loadNew (q := c.id) hfrom hinv
  have hremp : ∀ x, (p.marks x).remoteHas = (w.marks x).remoteHas :=
    flag_update Mark.remoteHas rfl
  have hqueuedp : ∀ x, (p.marks x).queued = (w.marks x).queued :=
    flag_update Mark.queued rfl
  have hspreadp : ∀ x, (p.marks x).spread = (w.marks x).spread :=
    flag_update Mark.spread rfl
  have hwalkedp : ∀ x, (p.marks x).walked = true ↔
      x = c.id ∨ (w.marks x).walked = true :=
    flag_update_iff Mark.walked rfl
  have hrounds : roundsLeft commits p < roundsLeft commits w :=
    roundsLeft_popped hmem rfl rfl
  rw [hvisit]
  refine ⟨hinv', ⟨?_, ?_, ?_⟩, lt_of_le_of_lt hgrows.rounds hrounds,
    ⟨?_, ?_⟩⟩
  · intro x hx q hq hstored
    rw [hgrows.spread, hspreadp] at hx
    refine hgrows.remoteHas q ?_
    rw [hremp]
    exact hcl.spread x hx q hq hstored
  · intro x hx q hq hstored
    rw [hgrows.walkedMark, hwalkedp] at hx
    rcases hx with rfl | hx
    · exact hknown q hq hstored
    · have hold := hcl.walked x hx q hq hstored
      rw [← hremp, ← hqueuedp] at hold
      exact hold.imp (hgrows.queued q) (hgrows.remoteHas q)
  · intro x
    have hpl : p.lacksParent = w.lacksParent := rfl
    rw [hlacks, hpl, hcl.lacksParent, hgrows.walkedMark, hwalkedp]
    constructor
    · rintro (⟨hx, hq⟩ | ⟨rfl, hq⟩)
      · exact ⟨Or.inr hx, hq⟩
      · exact ⟨Or.inl rfl, hq⟩
    · rintro ⟨rfl | hx, hq⟩
      · exact Or.inr ⟨rfl, hq⟩
      · exact Or.inl ⟨hx, hq⟩
  · intro x hx
    exact hgrows.remoteHas x ((hremp x).trans hx)
  · intro x hx
    exact hgrows.queued x ((hqueuedp x).trans hx)

theorem inv_step (h : Inv commits heads haves shallow w)
    (hcl : Closed commits shallow w)
    (hstep : step commits shallow w = some w') :
    Inv commits heads haves shallow w' ∧ Closed commits shallow w' ∧
      roundsLeft commits w' < roundsLeft commits w ∧ Keeps w w' := by
  obtain ⟨c, hc, hmem, hcase⟩ := step_cases h hstep
  rcases hcase with ⟨hrem, rfl⟩ | ⟨hrem, hwalked, rfl⟩ |
    ⟨hrem, hwalked, hqueued, rfl⟩
  · exact spread_popped h hcl hmem hrem
  · have hspread : (w.marks c.id).spread = false := by
      by_contra hs
      rw [Bool.not_eq_false] at hs
      rw [h.spread _ hs] at hrem
      contradiction
    have hmarks : (w.popped c (w.marks c.id) w.walked w.oldestNew).marks =
        w.marks := Function.update_eq_self _ _
    refine ⟨?_, ⟨?_, ?_, ?_⟩, roundsLeft_popped hmem rfl rfl, ⟨?_, ?_⟩⟩
    · refine inv_popped h rfl rfl (hspread.trans hrem.symm)
        (h.walkedQueued c.id) (fun _ _ => hwalked) ?_ h.nodup h.oldest
      intro x
      rw [Function.update_eq_self, h.walked x]
    · rw [hmarks]
      exact hcl.spread
    · rw [hmarks]
      exact hcl.walked
    · rw [hmarks]
      exact hcl.lacksParent
    · rw [hmarks]
      exact fun _ hx => hx
    · rw [hmarks]
      exact fun _ hx => hx
  · exact visit_popped h hcl hmem hrem hwalked hqueued

end Step

/-! ## The start and the end -/

section End

variable {commits : CommitStore Id} {heads haves shallow : List Id}
  {w w' : Walk Id}

theorem inv_empty : Inv commits heads haves shallow (empty : Walk Id) := by
  refine ⟨?_, ?_, ?_, ?_, ?_, List.nodup_nil, ?_, ?_, ?_, ?_⟩
  all_goals simp [empty, Mark.none]

theorem startHeads_eq_ok {ids : List Id} (hids : ∀ id ∈ ids, id ∈ heads)
    (h : Inv commits heads haves shallow w)
    (hrun : ids.foldlM (startHead commits) w = .ok w') :
    Inv commits heads haves shallow w' ∧ Grows commits w w' ∧
      w'.lacksParent = w.lacksParent ∧
      ∀ id ∈ ids, (w'.marks id).queued = true ∨
        (w'.marks id).remoteHas = true := by
  induction ids generalizing w with
  | nil =>
      obtain rfl : w = w' := Except.ok.inj hrun
      exact ⟨h, Grows.refl commits w, rfl, by simp⟩
  | cons id ids ih =>
      rw [List.foldlM_cons] at hrun
      cases hget : commits.get id with
      | none =>
          simp only [startHead, hget] at hrun
          contradiction
      | some c =>
          obtain rfl : c.id = id := CommitStore.id_eq_of_get hget
          simp only [startHead, hget, Except.ok_bind] at hrun
          have hfrom : FromHeads commits heads shallow c.id :=
            ⟨c.id, hids _ (by simp), Reaches.refl _ _⟩
          obtain ⟨hgrow, hmark⟩ := grows_queueNew (w := w) hget
          obtain ⟨hinv, hgrows, hlacks, hknown⟩ := ih
            (fun x hx => hids x (List.mem_cons_of_mem _ hx))
            (inv_queueNew hget hfrom h) hrun
          refine ⟨hinv, hgrow.trans hgrows, ?_, ?_⟩
          · rw [hlacks, lacksParent_queueNew]
          · intro x hx
            rcases List.mem_cons.mp hx with rfl | hx
            · exact hmark.imp (hgrows.queued _) (hgrows.remoteHas _)
            · exact hknown x hx

/-- What the walk ends on. -/
structure Over (commits : CommitStore Id) (heads haves shallow : List Id)
    (w : Walk Id) : Prop where
  inv : Inv commits heads haves shallow w
  closed : Closed commits shallow w
  heads : ∀ id ∈ heads, (w.marks id).queued = true ∨
    (w.marks id).remoteHas = true
  haves : ∀ id ∈ haves, (commits.get id).isSome = true →
    (w.marks id).remoteHas = true
  /-- No commit waits to be walked. -/
  done : w.pending = [] ∨ w.queue = []
  /-- What waits to spread its mark is older than every new commit. -/
  older : ∀ e ∈ w.queue, ∀ t, w.oldestNew = some t → (ofLex e).1 < t

theorem done_of_step_eq_none (h : step commits shallow w = none) :
    (w.pending = [] ∨ w.queue = []) ∧
      ∀ e ∈ w.queue, ∀ t, w.oldestNew = some t → (ofLex e).1 < t := by
  simp only [step] at h
  cases hpop : HeapLoop.pop w.queue with
  | none =>
      have hnil := HeapLoop.pop_eq_none.mp hpop
      refine ⟨Or.inr hnil, ?_⟩
      rw [hnil]
      simp
  | some popped =>
      obtain ⟨top, rest⟩ := popped
      rw [hpop] at h
      simp only [advance] at h
      split at h
      next hsettled =>
        simp only [settled, Bool.and_eq_true, List.isEmpty_iff,
          Option.all_eq_true, decide_eq_true_eq] at hsettled
        refine ⟨Or.inl hsettled.1, ?_⟩
        intro e he t ht
        have hle : (ofLex e).1 ≤ (ofLex top).1 := by
          rcases Prod.Lex.le_iff.mp (HeapLoop.le_of_pop hpop he) with
            hlt | ⟨heq, -⟩
          · exact hlt.le
          · exact heq.le
        exact lt_of_le_of_lt hle (hsettled.2 t ht)
      next =>
        split at h
        · contradiction
        · split at h <;> contradiction

theorem roundsLeft_empty_le :
    roundsLeft commits (empty : Walk Id) ≤ rounds commits := by
  have hcard : (stored commits).card ≤ commits.entries.toList.length :=
    (List.toFinset_card_le _).trans_eq (List.length_map _)
  have h₁ := Finset.card_filter_le (stored commits) fun x =>
    ((empty : Walk Id).marks x).remoteHas = false
  have h₂ := Finset.card_filter_le (stored commits) fun x =>
    ((empty : Walk Id).marks x).queued = false
  simp only [roundsLeft, rounds, empty, List.length_nil] at h₁ h₂ ⊢
  omega

/-- The walk runs to its end. -/
theorem over_of_fromHeads
    (hrun : fromHeads commits heads haves shallow = .ok w) :
    Over commits heads haves shallow w := by
  obtain ⟨w₁, hstart, hrun⟩ := Except.bind_eq_ok_iff.mp hrun
  have hrun := Except.ok.inj hrun
  obtain ⟨hinv₁, hgrows₁, hlacks₁, hheads₁⟩ :=
    startHeads_eq_ok (fun _ hid => hid) inv_empty hstart
  have hfrom : ∀ v ∈ haves, FromHaves commits haves v :=
    fun v hv => ⟨v, hv, CommitStore.IsAncestor.refl commits v⟩
  obtain ⟨hinv₂, hgrows₂, hhaves₂, hlacks₂⟩ :=
    inv_foldl_loadRemoteHas hfrom hinv₁
  have hgrows := hgrows₁.trans hgrows₂
  let w₂ := haves.foldl (loadRemoteHas commits) w₁
  have hunspread : ∀ x, (w₂.marks x).spread = false := by
    intro x
    rw [hgrows.spread]
    rfl
  have hunwalked : ∀ x, (w₂.marks x).walked = false := by
    intro x
    rw [hgrows.walkedMark]
    rfl
  have hclosed₂ : Closed commits shallow w₂ := by
    refine ⟨?_, ?_, ?_⟩
    · intro x hx
      rw [hunspread] at hx
      contradiction
    · intro x hx
      rw [hunwalked] at hx
      contradiction
    · intro x
      have hnil : w₂.lacksParent = [] := hlacks₂.trans hlacks₁
      rw [hnil, hunwalked]
      simp
  let P : Walk Id → Prop := fun u => Inv commits heads haves shallow u ∧
    Closed commits shallow u ∧
    (∀ id ∈ heads, (u.marks id).queued = true ∨
      (u.marks id).remoteHas = true) ∧
    ∀ id ∈ haves, (commits.get id).isSome = true →
      (u.marks id).remoteHas = true
  have hP₂ : P w₂ := by
    refine ⟨hinv₂, hclosed₂, ?_, hhaves₂⟩
    intro id hid
    exact (hheads₁ id hid).imp (hgrows₂.queued id) (hgrows₂.remoteHas id)
  have hstep : ∀ u v, P u → step commits shallow u = some v → P v := by
    rintro u v ⟨hu, hcl, hheads, hhaves⟩ huv
    obtain ⟨hv, hclv, -, hkeeps⟩ := inv_step hu hcl huv
    refine ⟨hv, hclv, ?_, ?_⟩
    · intro id hid
      exact (hheads id hid).imp (hkeeps.queued id) (hkeeps.remoteHas id)
    · intro id hid hstored
      exact hkeeps.remoteHas id (hhaves id hid hstored)
  have hend : step commits shallow w = none := by
    rw [← hrun]
    refine HeapLoop.step_run_eq_none (roundsLeft commits) hstep ?_ hP₂
      (hgrows.rounds.trans roundsLeft_empty_le)
    intro u v hu huv
    exact (inv_step hu.1 hu.2.1 huv).2.2.1
  have hw : P w := by
    rw [← hrun]
    exact HeapLoop.run_invariant hstep _ hP₂
  obtain ⟨hinv, hclosed, hheads, hhaves⟩ := hw
  obtain ⟨hdone, holder⟩ := done_of_step_eq_none hend
  exact ⟨hinv, hclosed, hheads, hhaves, hdone, holder⟩

theorem exists_fromHeads (h : ∀ id ∈ heads, (commits.get id).isSome = true) :
    ∃ w, fromHeads commits heads haves shallow = .ok w := by
  have hstart : ∀ w : Walk Id, ∃ w', heads.foldlM (startHead commits) w =
      .ok w' := by
    induction heads with
    | nil => exact fun w => ⟨w, rfl⟩
    | cons id ids ih =>
        intro w
        obtain ⟨c, hc⟩ := Option.isSome_iff_exists.mp (h id (by simp))
        rw [List.foldlM_cons]
        simp only [startHead, hc, Except.ok_bind]
        exact ih (fun x hx => h x (List.mem_cons_of_mem _ hx)) _
  obtain ⟨w', hw'⟩ := hstart empty
  exact ⟨_, by rw [fromHeads, hw']; rfl⟩

section Over

variable (h : Over commits heads haves shallow w)
include h

theorem Over.known {x : Id} (hx : FromHeads commits heads shallow x)
    (hstored : (commits.get x).isSome = true) :
    (w.marks x).walked = true ∨ FromHaves commits haves x := by
  have hsettle : ∀ y, (commits.get y).isSome = true →
      (w.marks y).queued = true ∨ (w.marks y).remoteHas = true →
      (w.marks y).walked = true ∨ FromHaves commits haves y := by
    intro y hy hmark
    by_cases hrem : (w.marks y).remoteHas = true
    · exact Or.inr (h.inv.remoteHas y hrem).2
    · have hqueued := hmark.resolve_right hrem
      obtain ⟨c, hc⟩ := Option.isSome_iff_exists.mp hy
      obtain rfl : c.id = y := CommitStore.id_eq_of_get hc
      refine Or.inl ?_
      by_contra hw
      rw [Bool.not_eq_true] at hw hrem
      obtain ⟨hmem, hpending⟩ := h.inv.toWalk c hc hqueued hw hrem
      rcases h.done with hnil | hnil
      · simp [hnil] at hpending
      · simp [hnil] at hmem
  obtain ⟨r, hr, hreach⟩ := hx
  induction hreach with
  | refl => exact hsettle r hstored (h.heads r hr)
  | @tail y z _ hz ih =>
      have hzp : z ∈ commits.parents y := by
        simp only [cutParents] at hz
        split at hz
        · simp at hz
        · exact hz
      have hystored : (commits.get y).isSome = true := by
        simp only [CommitStore.parents] at hzp
        split at hzp
        next c hc =>
          rw [hc]
          rfl
        next => simp at hzp
      rcases ih hystored with hy | ⟨v, hv, hyv⟩
      · exact hsettle z hstored (h.closed.walked y hy z hz hstored)
      · exact Or.inr ⟨v, hv,
          (CommitStore.IsAncestor.of_mem_parents hzp).trans hyv⟩

/-- Whatever the clocks say, no commit the remote lacks is left out. -/
theorem Over.mem_newCommits {x : Id} (hx : FromHeads commits heads shallow x)
    (hstored : (commits.get x).isSome = true)
    (hlacks : ¬FromHaves commits haves x) : x ∈ w.newCommits := by
  have hrem : (w.marks x).remoteHas = false := by
    by_contra hrem
    rw [Bool.not_eq_false] at hrem
    exact hlacks (h.inv.remoteHas x hrem).2
  have hwalked : (w.marks x).walked = true :=
    (h.known hx hstored).resolve_right hlacks
  exact List.mem_filter.mpr ⟨(h.inv.walked x).mpr hwalked, by simp [hrem]⟩

theorem Over.of_mem_newCommits {x : Id} (hx : x ∈ w.newCommits) :
    (commits.get x).isSome = true ∧ FromHeads commits heads shallow x ∧
      (w.marks x).remoteHas = false ∧ (w.marks x).walked = true := by
  obtain ⟨hmem, hrem⟩ := List.mem_filter.mp hx
  have hwalked := (h.inv.walked x).mp hmem
  obtain ⟨hstored, hfrom⟩ := h.inv.queued x (h.inv.walkedQueued x hwalked)
  exact ⟨hstored, hfrom, by simpa using hrem, hwalked⟩

theorem Over.remoteHas_of_fromHaves
    (hclock : ∀ c p, commits.get c.id = some c → commits.get p.id = some p →
      p.id ∈ c.parents → p.timestamp ≤ c.timestamp)
    {c : Commit Id} (hc : commits.get c.id = some c) (hmem : c.id ∈ w.walked)
    (hfrom : FromHaves commits haves c.id) :
    (w.marks c.id).remoteHas = true := by
  obtain ⟨t, ht, hle⟩ := h.inv.oldest c hc hmem
  obtain ⟨v, hv, hreach⟩ := hfrom
  -- Back from the commit, everything is stored and no older.
  have hpath : ∀ y, Reaches commits.parents y c.id →
      ∃ d, commits.get y = some d ∧ c.timestamp ≤ d.timestamp := by
    intro y hy
    induction hy using Relation.ReflTransGen.head_induction_on with
    | refl => exact ⟨c, hc, le_rfl⟩
    | @head a b hab _ ih =>
        obtain ⟨d, hd, hcd⟩ := ih
        simp only [CommitStore.parents] at hab
        split at hab
        next e he =>
          refine ⟨e, he, hcd.trans ?_⟩
          obtain rfl : e.id = a := CommitStore.id_eq_of_get he
          obtain rfl : d.id = b := CommitStore.id_eq_of_get hd
          exact hclock e d he hd hab
        next => simp at hab
  -- Forward from the have, each next commit is marked.
  have hmarked : ∀ y, Reaches commits.parents v y →
      Reaches commits.parents y c.id → (w.marks y).remoteHas = true := by
    intro y hvy
    induction hvy with
    | refl =>
        intro hy
        obtain ⟨d, hd, -⟩ := hpath v hy
        exact h.haves v hv (by rw [hd]; rfl)
    | @tail a b _ hab ih =>
        intro hb
        have ha : Reaches commits.parents a c.id :=
          (Reaches.single hab).trans hb
        obtain ⟨d, hd, hcd⟩ := hpath a ha
        obtain ⟨e, he, -⟩ := hpath b hb
        obtain rfl : d.id = a := CommitStore.id_eq_of_get hd
        have hrem := ih ha
        by_cases hs : (w.marks d.id).spread = true
        · exact h.closed.spread d.id hs b hab (by rw [he]; rfl)
        · rw [Bool.not_eq_true] at hs
          have hlt := h.older _ (h.inv.toSpread d hd hrem hs) t ht
          simp only [queueEntry, ofLex_toLex] at hlt
          omega
  exact hmarked c.id hreach (Reaches.refl _ _)

theorem Over.mem_newCommits_iff
    (hclock : ∀ c p, commits.get c.id = some c → commits.get p.id = some p →
      p.id ∈ c.parents → p.timestamp ≤ c.timestamp) (x : Id) :
    x ∈ w.newCommits ↔ (commits.get x).isSome = true ∧
      FromHeads commits heads shallow x ∧ ¬FromHaves commits haves x := by
  constructor
  · intro hx
    obtain ⟨hstored, hfrom, hrem, hwalked⟩ := h.of_mem_newCommits hx
    refine ⟨hstored, hfrom, ?_⟩
    intro hhave
    obtain ⟨c, hc⟩ := Option.isSome_iff_exists.mp hstored
    obtain rfl : c.id = x := CommitStore.id_eq_of_get hc
    have hmark := h.remoteHas_of_fromHaves hclock hc
      ((h.inv.walked _).mpr hwalked) hhave
    rw [hrem] at hmark
    contradiction
  · rintro ⟨hstored, hfrom, hlacks⟩
    exact h.mem_newCommits hfrom hstored hlacks

end Over

end End

end Walk

end Missing

end AgentStateGraph
