import AgentStateGraph.Control.Mirror
import AgentStateGraph.Lib.Programs
import AgentStateGraph.Sync.Receive

/-!
# Pushes that arrive together

A hub answers many pushes at once: it reads the ref, stores the records of a
bundle, checks them, walks the ancestry of the new head and then compares and
swaps, and between these steps it takes steps for others.  Whatever arrives,
no commit leaves the history of a synced ref, but for an empty first commit.
-/

namespace AgentStateGraph

variable {Id : Type} [Digest Id]

/-! ## A reconcile only adds objects -/

namespace Control

variable {codec : ControlCodec Id} {s : ObjectStore Id}

theorem le_row {e e' : Edit Id} {row : EditRow Id}
    (h : e.row codec row = .ok e') : e.2 ≤ e'.2 := by
  cases row with
  | record id doc =>
      obtain rfl := Except.ok.inj h
      exact RecordDoc.le_put e.2 doc
  | members epoch commits =>
      simp only [Edit.row, Edit.addMembers] at h
      split at h
      next =>
        obtain rfl := Except.ok.inj h
        exact le_putIds e.2 _
      next =>
        obtain ⟨members, -, h⟩ := Except.bind_eq_ok_iff.mp h
        split at h
        next =>
          obtain rfl := Except.ok.inj h
          exact le_refl _
        next =>
          obtain rfl := Except.ok.inj h
          exact le_putIds e.2 _

theorem le_candidate {rows : List (EditRow Id)} {r : Id × ObjectStore Id}
    (h : candidate codec s rows = .ok r) : s ≤ r.2 := by
  obtain ⟨⟨sections, t⟩, hrows, h⟩ := Except.bind_eq_ok_iff.mp h
  obtain rfl := Except.ok.inj h
  have hle : s ≤ t := Except.foldlM_invariant (P := fun e : Edit Id => s ≤ e.2)
    (fun _ _ _ _ hacc hrow => hacc.trans (le_row hrow)) (le_refl s) hrows
  exact hle.trans (ObjectStore.le_putAll t _)

theorem le_mergeEntry {kind : Section} {st st' : SectionState Id}
    {entry : String × Id} (h : mergeEntry codec kind st entry = .ok st') :
    st.2.2 ≤ st'.2.2 := by
  obtain ⟨ours, conflicts, s⟩ := st
  simp only [mergeEntry] at h
  split at h
  next =>
    obtain rfl := Except.ok.inj h
    exact le_refl _
  next =>
    split at h
    next =>
      obtain rfl := Except.ok.inj h
      exact le_refl _
    next =>
      obtain ⟨⟨winner, more, t⟩, hrecord, h⟩ := Except.bind_eq_ok_iff.mp h
      obtain rfl := Except.ok.inj h
      cases kind with
      | members =>
          obtain ⟨o, -, hrecord⟩ := Except.bind_eq_ok_iff.mp hrecord
          obtain ⟨t, -, hrecord⟩ := Except.bind_eq_ok_iff.mp hrecord
          obtain ⟨-, -, rfl⟩ := Except.ok.inj hrecord
          exact le_putIds _ _
      | _ =>
          obtain ⟨o, -, hrecord⟩ := Except.bind_eq_ok_iff.mp hrecord
          obtain ⟨t, -, hrecord⟩ := Except.bind_eq_ok_iff.mp hrecord
          obtain ⟨-, -, rfl⟩ := Except.ok.inj hrecord
          exact le_refl _

theorem le_merge {a b : Id} {r : Merged Id × ObjectStore Id}
    (h : merge codec s a b = .ok r) : s ≤ r.2 := by
  unfold merge at h
  split at h
  next =>
    obtain rfl := Except.ok.inj h
    exact le_refl s
  next =>
    obtain ⟨x, -, h⟩ := Except.bind_eq_ok_iff.mp h
    obtain ⟨y, -, h⟩ := Except.bind_eq_ok_iff.mp h
    obtain ⟨⟨merged, conflicts, t⟩, hall, h⟩ := Except.bind_eq_ok_iff.mp h
    obtain rfl := Except.ok.inj h
    refine le_trans ?_ (ObjectStore.le_putAll t _)
    refine Except.foldlM_invariant (P := fun m : MergeState Id => s ≤ m.2.2) ?_
      (le_refl s) hall
    intro m kind _ m' hm hstep
    obtain ⟨⟨sec, more, u⟩, hsec, hstep⟩ := Except.bind_eq_ok_iff.mp hstep
    obtain rfl := Except.ok.inj hstep
    exact Except.foldlM_invariant (P := fun x : SectionState Id => s ≤ x.2.2)
      (fun _ _ _ _ hacc hentry => hacc.trans (le_mergeEntry hentry)) hm hsec

end Control

namespace Storage

theorem le_mergeRows {codec : ControlCodec Id} {s : ObjectStore Id}
    {base : Option Id} {rows : List (Control.EditRow Id)}
    {r : Id × ObjectStore Id} (h : mergeRows codec s base rows = .ok r) :
    s ≤ r.2 := by
  obtain ⟨⟨tree, t⟩, hrows, h⟩ := Except.bind_eq_ok_iff.mp h
  have hle := Control.le_candidate hrows
  cases base with
  | none =>
      obtain rfl := Except.ok.inj h
      exact hle
  | some root =>
      obtain ⟨⟨merged, u⟩, hmerge, h⟩ := Except.bind_eq_ok_iff.mp h
      obtain rfl := Except.ok.inj h
      exact hle.trans (Control.le_merge hmerge)

/-! ## A ref that keeps its history -/

variable {s t u : Storage Id} {ns name : String}

theorem isFreshRoot_mono (hobjects : s.objects ≤ t.objects)
    (hcommits : s.commits ≤ t.commits) {id : Id}
    (h : s.isFreshRoot id = true) : t.isFreshRoot id = true := by
  unfold isFreshRoot getCommit at h ⊢
  split at h
  next => contradiction
  next c hc =>
    rw [hcommits id c hc]
    split at h
    next hparents =>
      dsimp only
      rw [if_pos hparents]
      unfold getObject at h ⊢
      split at h
      next entries hget =>
        rw [hobjects _ _ hget]
        exact h
      next => contradiction
    next => contradiction

theorem eq_of_isFreshRoot {a b : Id} (hb : s.isFreshRoot b = true)
    (h : s.commits.IsAncestor a b) : a = b := by
  unfold isFreshRoot at hb
  split at hb
  next => contradiction
  next c hc =>
    split at hb
    next hparents =>
      rcases Relation.ReflTransGen.cases_head h with heq | ⟨p, hp, -⟩
      · exact heq.symm
      · rw [CommitStore.parents_of_get hc, List.isEmpty_iff.mp hparents] at hp
        contradiction
    next => contradiction

/-- Objects and commits were only added, and the ref is still there: ahead of
where it was, unless that was a fresh root. -/
structure KeepsRef (ns name : String) (s t : Storage Id) : Prop where
  objects : s.objects ≤ t.objects
  commits : s.commits ≤ t.commits
  ref : ∀ old, s.refAt ns name = some old →
    ∃ new, t.refAt ns name = some new ∧
      (t.commits.IsAncestor old new ∨ t.isFreshRoot old = true)

namespace KeepsRef

theorem of_eq (hobjects : s.objects ≤ t.objects)
    (hcommits : s.commits ≤ t.commits)
    (href : t.refAt ns name = s.refAt ns name) : KeepsRef ns name s t :=
  ⟨hobjects, hcommits, fun old hold =>
    ⟨old, href.trans hold, Or.inl (.refl _ _)⟩⟩

theorem of_tables (h : t.objects = s.objects ∧ t.commits = s.commits ∧
    t.refs = s.refs) : KeepsRef ns name s t :=
  of_eq h.1.ge h.2.1.ge (by rw [refAt, h.2.2]; rfl)

theorem refl (s : Storage Id) : KeepsRef ns name s s :=
  of_eq (le_refl _) (le_refl _) rfl

theorem trans (hst : KeepsRef ns name s t) (htu : KeepsRef ns name t u) :
    KeepsRef ns name s u := by
  refine ⟨hst.objects.trans htu.objects, hst.commits.trans htu.commits, ?_⟩
  intro old hold
  obtain ⟨mid, hmid, hfirst⟩ := hst.ref old hold
  obtain ⟨new, hnew, hsecond⟩ := htu.ref mid hmid
  refine ⟨new, hnew, ?_⟩
  rcases hfirst with hfirst | hfresh
  · have hfirst := hfirst.mono htu.commits
    rcases hsecond with hsecond | hfresh
    · exact Or.inl (hfirst.trans hsecond)
    · exact Or.inr (eq_of_isFreshRoot hfresh hfirst ▸ hfresh)
  · exact Or.inr (isFreshRoot_mono htu.objects htu.commits hfresh)

theorem foldl {α : Type} {f : Storage Id → α → Storage Id} {l : List α}
    (h : ∀ s, ∀ x ∈ l, KeepsRef ns name s (f s x)) (s : Storage Id) :
    KeepsRef ns name s (l.foldl f s) := by
  induction l generalizing s with
  | nil => exact refl s
  | cons x l ih =>
      exact (h s x (by simp)).trans (ih (fun s y hy => h s y (by simp [hy])) _)

theorem putRef {name' : String} (hne : name' ≠ name) (ns' : String)
    (target : Id) : KeepsRef ns name s (s.putRef ns' name' target) :=
  of_eq (le_refl _) (le_refl _)
    (by rw [refAt_putRef, if_neg fun h => hne h.2])

theorem eraseRef {name' : String} (hne : name' ≠ name) (ns' : String) :
    KeepsRef ns name s (s.eraseRef ns' name') :=
  of_eq (le_refl _) (le_refl _)
    (by rw [refAt_eraseRef, if_neg fun h => hne h.2])

theorem swapRef {ns' name' : String} {old : Option Id} {new : Id} {b : Bool}
    (hforward : ∀ o, old = some o →
      s.commits.IsAncestor o new ∨ s.isFreshRoot o = true)
    (h : s.swapRef ns' name' old new = .ok (b, t)) : KeepsRef ns name s t := by
  have hput : (ns' = ns ∧ name' = name → s.refAt ns name = old) →
      KeepsRef ns name s (s.putRef ns' name' new) := by
    intro hat
    refine ⟨le_refl _, le_refl _, fun o ho => ?_⟩
    rw [refAt_putRef]
    split
    next heq => exact ⟨new, rfl, hforward o ((hat heq).symm.trans ho)⟩
    next => exact ⟨o, ho, Or.inl (.refl _ _)⟩
  unfold Storage.swapRef casRef createRef at h
  split at h <;> split at h
  next old _ =>
    split at h
    next hat =>
      obtain ⟨-, rfl⟩ := Except.ok.inj h
      exact hput fun ⟨hns, hname⟩ => hns ▸ hname ▸ hat
    next =>
      obtain ⟨-, rfl⟩ := Except.ok.inj h
      exact refl s
  next => contradiction
  next =>
    split at h
    next =>
      obtain ⟨-, rfl⟩ := Except.ok.inj h
      exact refl s
    next hat =>
      obtain ⟨-, rfl⟩ := Except.ok.inj h
      exact hput fun ⟨hns, hname⟩ => by
        rw [← hns, ← hname]
        simpa using hat
  next => contradiction

end KeepsRef

/-! ## What a reconcile does to a ref -/

namespace KeepsRef

variable {codec : ControlCodec Id}

theorem andThen {r : Rebuild Id} (hr : KeepsRef ns name s r.1)
    {f : Storage Id → Except StorageError (Storage Id)}
    (hf : ∀ s t, f s = .ok t → KeepsRef ns name s t) :
    KeepsRef ns name s (r.andThen f).1 := by
  unfold Rebuild.andThen
  split
  · split
    next hok => exact hr.trans (hf _ _ hok)
    next => exact hr
  · exact hr

theorem joinMembers (s : Storage Id) (epoch : String) (had members : List Id) :
    KeepsRef ns name s (s.joinMembers epoch had members).1 := by
  unfold Storage.joinMembers
  exact List.foldlRecOn (motive := fun r : Rebuild Id => KeepsRef ns name s r.1)
    _ _ (refl s) fun r hr c _ => hr.andThen fun s t h =>
      of_tables (by grind [setCommitEpoch])

theorem rebuildEpoch (s : Storage Id) (record : Epoch Id) (members : List Id) :
    KeepsRef ns name s (s.rebuildEpoch record members) := by
  unfold Storage.rebuildEpoch
  extract_lets row start status joined sealedRow archived
  have hstart : KeepsRef ns name s start.1 := by
    unfold start
    split
    · exact refl s
    · exact (refl s).andThen (r := (s, true)) fun _ _ h =>
        of_tables (by grind [createEpoch])
  have hjoined : KeepsRef ns name s joined.1 := by
    unfold joined
    split
    · exact hstart.trans (joinMembers start.1 record.id _ members)
    · exact hstart
  have hsealed : KeepsRef ns name s sealedRow.1 := by
    unfold sealedRow
    split
    · exact hjoined.andThen fun _ _ h => of_tables (by grind [sealEpoch])
    · exact hjoined
  have harchived : KeepsRef ns name s archived.1 := by
    unfold archived
    split
    · exact hsealed.andThen fun _ _ h => of_tables (by grind [archiveEpoch])
    · exact hsealed
  split
  · split
    · exact harchived.andThen fun _ _ h =>
        of_tables (by grind [assignEpochNamespace])
    · exact harchived
  · exact harchived

theorem commitControl (head base : Option Id) (merged : Id)
    (options : CommitOptions) (now : ℤ) :
    KeepsRef ns name s (s.commitControl head base merged options now).2 := by
  unfold Storage.commitControl
  split
  · exact refl s
  · extract_lets commit stored
    have hstored : KeepsRef ns name s stored :=
      of_eq (le_refl _) (CommitStore.le_put s.commits commit) rfl
    have hland : ∀ {b t}, stored.landControl head commit.id = .ok (b, t) →
        KeepsRef ns name s t := by
      intro b t h
      have h : stored.swapRef defaultNs CONTROL_REF head commit.id =
          .ok (b, t) := by
        cases head <;> exact h
      refine hstored.trans (swapRef (fun o ho => Or.inl ?_) h)
      apply CommitStore.IsAncestor.of_mem_parents
      have hget : stored.commits.get commit.id = some commit :=
        AddressedMap.get_put_self s.commits commit
      rw [CommitStore.parents_of_get hget]
      simp [commit, CommitBuilder.build, ho]
    split
    next => exact hstored
    next h => exact hland h
    next h => exact hland h

theorem ne_mark {p : String} (hname : startsWith name "_control-" = false)
    (hp : startsWith p "_control-" = true) : p ≠ name := by
  rintro rfl
  rw [hp] at hname
  contradiction

theorem isMark_of_startsWith {a p : String} (h : startsWith a p = true)
    (hp : startsWith p "_control-" = true) : startsWith a "_control-" = true :=
  (startsWith_iff _ _).mpr
    (((startsWith_iff _ _).mp hp).trans ((startsWith_iff _ _).mp h))

variable (hname : startsWith name "_control-" = false)
include hname

theorem reconcileControl (view : ControlView Id) :
    KeepsRef ns name s (s.reconcileControl codec view).2 := by
  unfold Storage.reconcileControl
  extract_lets head pending
  split
  · exact refl s
  split
  · exact refl s
  · exact refl s
  split
  · exact refl s
  split
  · exact refl s
  next base rows _ _ _ _ merged objects hmerge =>
    have hcommit : KeepsRef ns name s ((s.withObjects objects).commitControl
        head base merged view.options view.now).2 :=
      (of_eq (t := s.withObjects objects) (le_mergeRows hmerge) (le_refl _)
        rfl).trans (commitControl head base merged view.options view.now)
    split
    next hkept => rwa [hkept] at hcommit
    next newHead moved hmoved =>
      rw [hmoved] at hcommit
      split
      · exact hcommit
      next records _ =>
        have htables : KeepsRef ns name moved (moved.rebuildTables records) :=
          (of_eq (le_refl _) (le_refl _) rfl : KeepsRef ns name moved
            { moved with taints := records.2 }).trans
              (foldl (fun s r _ => rebuildEpoch s r.1 r.2) _)
        refine (hcommit.trans htables).trans ?_
        unfold settleControl
        extract_lets indexed
        have hindexed : KeepsRef ns name (moved.rebuildTables records)
            indexed := by
          unfold indexed
          split
          · exact putRef (ne_mark hname (by decide)) _ _
          · exact refl _
        refine hindexed.trans (foldl (fun s mark hmark => ?_) _)
        obtain ⟨mark, target⟩ := mark
        have hpre := ((mem_refsIn_iff _).mp hmark).2
        split
        · exact eraseRef
            (ne_mark hname (isMark_of_startsWith hpre (by decide))) _
        · exact refl s

/-! ## What a receive does to a ref -/

theorem recordShallow (ids : List Id) :
    KeepsRef ns name s (s.recordShallow ids) := by
  have hmark : KeepsRef ns name s (ids.foldl markShallow s) := by
    refine foldl (fun s x _ => ?_) s
    unfold markShallow
    split
    · exact refl s
    · refine putRef (ne_mark hname (isMark_of_startsWith
        (p := SHALLOW_PREFIX) ?_ (by decide))) _ _
      exact (startsWith_iff _ _).mpr (by simp [shallowRef])
  refine hmark.trans (foldl (fun s mark hmem => ?_) _)
  obtain ⟨mark, target⟩ := mark
  have hpre := ((mem_refsIn_iff _).mp hmem).2
  unfold unmarkShallow
  split
  · split
    · exact eraseRef (ne_mark hname (isMark_of_startsWith hpre (by decide))) _
    · exact refl s
  · exact refl s

theorem appendPushLog (entry : Json) (options : CommitOptions) (now : ℤ) :
    KeepsRef ns name s (s.appendPushLog entry options now) := by
  have hstored : KeepsRef ns name s
      ((s.withObjects (jsonToTree s.objects entry).2).putCommit
        (CommitBuilder.build (jsonToTree s.objects entry).1
          (s.refAt defaultNs PUSH_LOG_REF).toList options now)) :=
    of_eq (le_jsonToTree _ entry) (CommitStore.le_put _ _) rfl
  exact hstored.trans (putRef (ne_mark hname (by decide)) _ _)

omit hname in
theorem flush (st : Storing Id) : KeepsRef ns name st.store st.flush.store :=
  of_eq (ObjectStore.le_putAll _ _) (le_refl _) rfl

omit hname in
theorem record (st : Storing Id) (r : Record Id) :
    KeepsRef ns name st.store (st.record r).store := by
  cases r with
  | ref r => exact refl _
  | shallow id => exact refl _
  | commit c => exact of_eq (le_refl _) (CommitStore.le_put _ c) rfl
  | object o =>
      simp only [Storing.record]
      split
      · exact flush { st with pending := st.pending ++ [o] }
      · exact refl _

omit hname in
theorem land {update : RefUpdate Id} {b : Bool}
    (hold : ∀ o, update.old = some o →
      s.commits.IsAncestor o update.new ∨ s.isFreshRoot o = true)
    (h : update.land s = .ok (b, t)) : KeepsRef ns name s t := by
  unfold RefUpdate.land at h
  split at h
  · exact swapRef hold h
  · have hns : KeepsRef ns name s (s.createNamespace update.namespace_) := by
      unfold createNamespace
      split
      · exact refl s
      · exact of_eq (le_refl _) (le_refl _) rfl
    exact hns.trans (swapRef (fun o ho => (hold o ho).imp (·.mono hns.commits)
      (isFreshRoot_mono hns.objects hns.commits)) h)

end KeepsRef

theorem forward_of_isForward {update : RefUpdate Id}
    (h : update.isForward s = true) (o : Id) (ho : update.old = some o) :
    s.commits.IsAncestor o update.new ∨ s.isFreshRoot o = true := by
  unfold RefUpdate.isForward at h
  rw [ho] at h
  exact (Bool.or_eq_true_iff.mp h).imp_left isAncestor_sound

end Storage

/-! ## A receive, step by step -/

namespace Delivery

open Program

variable (codec : ControlCodec Id) (d : Delivery Id)

/-- The rest of a bundle, a step for each record. -/
def storeSteps (error : Option Bundles.BundleError) :
    List (Record Id) → List (Object Id) → Received Id →
      Program Unit (Storage Id) (Except (TransferError Id) (Received Id))
  | [], pending, received =>
      call fun _ s => Storing.finish ⟨s, pending, received⟩ error
  | r :: rs, pending, received =>
      (call fun _ s =>
        let next := Storing.record ⟨s, pending, received⟩ r
        ((next.pending, next.received), next.store)) >>= fun next =>
      storeSteps error rs next.1 next.2

/-- The ref moves, and what follows from it. -/
def concludeSteps (shallow : List Id) :
    Program Unit (Storage Id) (Except (SyncError Id) (PushOutcome Id)) :=
  (call (α := Except StorageError Bool) fun _ s =>
    match d.update.land s with
    | .error e => (.error e, s)
    | .ok (landed, t) => (.ok landed, t)) >>= fun
  | .error e => pure (.error (.transfer (.repo (.storage e))))
  | .ok false => read fun _ s =>
      .ok (.stale (s.refOrNone d.update.namespace_ d.update.name))
  | .ok true =>
      (call fun _ s => ((), if d.update.name = CONTROL_REF then
        (s.reconcileControl codec d.view).2 else s)) >>= fun _ =>
      (call fun _ s => ((), s.recordShallow shallow)) >>= fun _ =>
      call fun _ s => (.ok .updated, s.appendPushLog d.entry d.options d.now)

/-- `sync_receive`, with others between its steps. -/
def receiveSteps :
    Program Unit (Storage Id) (Except (SyncError Id) (PushOutcome Id)) :=
  (read fun _ s => d.update.start s) >>= fun
  | some answer => pure answer
  | none =>
      storeSteps d.bundle.error d.bundle.records [] .empty >>= fun
      | .error e => pure (.error (.transfer e))
      | .ok received =>
          (read fun _ s => d.update.check s received) >>= fun
          | .error e => pure (.error e)
          | .ok () =>
              (read fun _ s => d.update.isForward s) >>= fun forward =>
              if forward then d.concludeSteps codec received.shallow
              else pure (.ok .notFastForward)

theorem storeSteps_alone (error : Option Bundles.BundleError)
    (records : List (Record Id)) (s : Storing Id) :
    (storeSteps error records s.pending s.received).alone () s.store =
      (records.foldl Storing.record s).finish error := by
  induction records generalizing s with
  | nil => rfl
  | cons r rs ih => exact ih (s.record r)

/-- Alone, the steps are `sync_receive`. -/
theorem receiveSteps_alone (store : Storage Id) :
    (d.receiveSteps codec).alone () store = d.syncReceive codec store := by
  have hstored : (storeSteps d.bundle.error d.bundle.records [] .empty).alone ()
      store = storeRecords store d.bundle :=
    storeSteps_alone d.bundle.error d.bundle.records (.start store)
  unfold receiveSteps syncReceive
  rw [alone_bind, alone_read]
  cases d.update.start store with
  | some answer => rfl
  | none =>
      dsimp only
      rw [alone_bind, hstored]
      obtain ⟨received | received, stored⟩ := storeRecords store d.bundle
      · rfl
      · dsimp only
        rw [alone_bind, alone_read]
        cases d.update.check stored received with
        | error e => rfl
        | ok =>
            dsimp only
            rw [alone_bind, alone_read]
            split
            · unfold concludeSteps conclude
              rw [alone_bind, alone_call]
              rcases d.update.land stored with e | ⟨_ | _, t⟩ <;> rfl
            · rfl

end Delivery

/-! ## What many receives do to a ref -/

section Runs

open Program

variable {ns name : String}

/-- Whatever a step does, the ref keeps its history. -/
def keepsRef (ns name : String) : Contract (Storage Id) where
  invariant _ := True
  guarantee := Storage.KeepsRef ns name
  refl := .refl
  trans := .trans

theorem steady_of_keepsRef {E α : Type} {act : E → Storage Id → α × Storage Id}
    (h : ∀ e s, Storage.KeepsRef ns name s (act e s).2) (s : Storage Id) :
    Steady (keepsRef ns name) (call act) s :=
  steady_call fun e t _ => ⟨trivial, h e t⟩

theorem Delivery.storeSteps_steady (error : Option Bundles.BundleError)
    (records : List (Record Id)) (pending : List (Object Id))
    (received : Received Id) (s : Storage Id) :
    Steady (keepsRef ns name)
      (storeSteps error records pending received) s := by
  induction records generalizing pending received s with
  | nil =>
      refine steady_of_keepsRef (fun _ s => ?_) s
      unfold Storing.finish
      split
      · exact .refl s
      · exact .flush ⟨s, pending, received⟩
  | cons r rs ih =>
      refine (steady_of_keepsRef (fun _ s => ?_) s).bind fun next s => ih _ _ s
      exact .record ⟨s, pending, received⟩ r

theorem Delivery.receiveSteps_steady (codec : ControlCodec Id)
    (hname : startsWith name "_control-" = false) (d : Delivery Id)
    (s : Storage Id) :
    Steady (keepsRef ns name) (d.receiveSteps codec) s := by
  refine (steady_read _).bind fun answer s => ?_
  split
  · exact steady_pure _
  refine (storeSteps_steady _ _ _ _ s).bind fun received s => ?_
  split
  · exact steady_pure _
  next received =>
  refine (steady_read _).bind fun checked s => ?_
  split
  · exact steady_pure _
  -- what the walk found stays true while the others add commits
  refine safe_read fun _ t _ _ => ?_
  split
  next hforward =>
    have hold := Storage.forward_of_isForward hforward
    refine safe_call fun _ u htu _ => ?_
    rcases hland : d.update.land u with e | ⟨landed, v⟩
    · exact ⟨trivial, .refl u, steady_pure _⟩
    refine ⟨trivial, .land (fun o ho => (hold o ho).imp (·.mono htu.commits)
      (Storage.isFreshRoot_mono htu.objects htu.commits)) hland, ?_⟩
    cases landed with
    | false => exact steady_read _
    | true =>
        refine (steady_of_keepsRef (fun _ s => ?_) _).bind fun _ s => ?_
        · dsimp only
          split
          · exact .reconcileControl hname d.view
          · exact .refl s
        refine (steady_of_keepsRef (fun _ s => ?_) s).bind fun _ s => ?_
        · exact .recordShallow hname _
        · exact steady_of_keepsRef (fun _ s => .appendPushLog hname _ _ _) s
  next => exact steady_pure _

theorem startsWith_mark_of_isSyncedRef (h : isSyncedRef ns name = true) :
    startsWith name "_control-" = false := by
  unfold isSyncedRef at h
  split at h
  next heq =>
    rw [heq]
    decide
  next =>
    simp only [Bool.and_eq_true, Bool.not_eq_true', isReservedRef] at h
    rw [← Bool.not_eq_true, startsWith_iff]
    intro hpre
    have hcontrol : startsWith name CONTROL_PREFIX = true :=
      (startsWith_iff _ _).mpr (List.IsPrefix.trans (by decide) hpre)
    rw [h.1.2] at hcontrol
    contradiction

variable {W : Type} [DecidableEq W]

/-- A hub that starts to answer some pushes. -/
def hub (codec : ControlCodec Id) (deliveries : W → Delivery Id)
    (store : Storage Id) :
    Config W Unit (Storage Id) (Except (SyncError Id) (PushOutcome Id)) :=
  ⟨store, fun w => (deliveries w).receiveSteps codec⟩

end Runs

/-! ## Two pushes of one commit -/

namespace TwoPushes

open ContentKey

def first : Commit ContentKey := commitOf (mapOf [("a", Object.string "x")]) [] 0

def second : Commit ContentKey := commitOf Object.emptyMap [first] 1

def store : Storage ContentKey :=
  { Storage.new with commits := AddressedMap.empty.put first }.putRef defaultNs
    "main" first.id

/-- The second commit, on the first. -/
def delivery : Delivery ContentKey where
  update := ⟨defaultNs, "main", some first.id, second.id⟩
  bundle := ⟨[.object Object.emptyMap, .commit second], none⟩
  view := ⟨none, none, options .refine, 1⟩
  entry := .null
  options := options .refine
  now := 1

/-- The second push takes its steps between those of the first. -/
def schedule : List (Bool × Unit) :=
  (List.replicate 10 [(true, ()), (false, ())]).flatten

end TwoPushes

end AgentStateGraph
