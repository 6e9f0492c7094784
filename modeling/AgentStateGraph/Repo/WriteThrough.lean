import AgentStateGraph.Control.Reconcile

/-!
# Table writes and their control commits

A write of the taint or epoch table runs under a pending mark; once the table
has taken it, the record is committed to the control ref.  A failed table write
is undone by nobody but itself: only the mark is taken back.
-/

namespace AgentStateGraph

variable {Id : Type} [Digest Id]

/-! ## What a call meets outside the store -/

/-- The serializer of taints, the digest of a mark's name, fresh ids and marks,
the clock, and another writer of the same branch. -/
structure CallEnv (Id : Type) where
  codec : ControlCodec Id
  /-- `serde_json::to_value` of a taint. -/
  taintValue : Taint → Json
  /-- When the taint of an id was created. -/
  createdAt : String → ℤ
  /-- `ObjectId::hash`. -/
  hash : String → Id
  /-- The id of the taint that the call creates. -/
  freshId : String
  /-- The unique end of the mark of write number `n`. -/
  nonce : ℕ → String
  /-- The ids of the intents of the control commits. -/
  intentId : String → String
  /-- `Authority::simple` of an agent, as it enters a digest. -/
  simpleAuthority : String → String
  now : ℕ → ℤ
  /-- When the control commit of the call is made. -/
  controlNow : ℤ
  /-- Where another writer moves the branch after attempt `i` has read its
  head. -/
  rival : ℕ → Option Id

/-- What is committed to the control ref once the table write is done. -/
inductive Staged (Id : Type) where
  | taint (id : String)
  | member (epoch : String) (commit : Id)

def Staged.kind : Staged Id → String
  | .taint _ => "taint"
  | .member _ _ => "epoch"

def Staged.id : Staged Id → String
  | .taint id => id
  | .member epoch _ => epoch

namespace Storage

def getTaint (store : Storage Id) (id : String) : Option Taint :=
  store.taints.find? fun t => t.id = id

/-- `cas_delete_ref`, its answer ignored. -/
def dropMark (store : Storage Id) (mark : String) (marked : Id) : Storage Id :=
  if store.refAt defaultNs mark = some marked then
    store.eraseRef defaultNs mark
  else store

/-- The tables that matched the head before match the head after. -/
def followIndexed (store : Storage Id) (before after : Option Id) :
    Storage Id :=
  match before, after with
  | some b, some a =>
      if b ≠ a ∧ store.refAt defaultNs INDEXED_REF = some b then
        store.putRef defaultNs INDEXED_REF a
      else store
  | _, _ => store

end Storage

namespace CallEnv

variable (env : CallEnv Id)

/-- `CommitOptions::new`. -/
def newOptions (agentId : String) (category : IntentCategory)
    (description : String) : CommitOptions where
  agentId := agentId
  intent := ⟨env.intentId description, category, description, [], none⟩
  reasoning := none
  confidence := none
  provenance := env.simpleAuthority agentId

/-- The options of a control commit with no caller identity. -/
def systemOptions (category : IntentCategory) (description : String) :
    CommitOptions :=
  env.newOptions "system" category description

/-! ## The control commit -/

/-- What a stage puts into the control tree, from the tables. -/
def stageFromTables (store : Storage Id) :
    Staged Id → List (Control.EditRow Id)
  | .taint id =>
      match store.getTaint id with
      | some t => [.record t.id (.taint (env.taintValue t))]
      | none => []
  | .member epoch commit => [.members epoch [commit]]

/-- The control tree with what is staged. -/
def editedTree (store : Storage Id) (base : Option Id) (staged : Staged Id) :
    Except (ControlError Id) (Id × ObjectStore Id) := do
  let sections ← match base with
    | some root => Control.Sections.load store.objects root
    | none => .ok fun _ => ∅
  let (sections, objects) ←
    (env.stageFromTables store staged).foldlM (Control.Edit.row env.codec)
      (sections, store.objects)
  .ok (Control.Sections.write objects sections)

/-- Commit what is staged to the control ref: the head it built on and the head
after.  Nothing else moves the control ref meanwhile, so the first attempt is
the whole loop. -/
def controlCommit (options : CommitOptions) (now : ℤ) (staged : Staged Id)
    (store : Storage Id) :
    Except (ControlRepoError Id) (Option Id × Option Id) × Storage Id :=
  match store.getRef defaultNs CONTROL_REF with
  | .error e => (.error (.storage e), store)
  | .ok head =>
      match store.controlBase head with
      | .error e => (.error e, store)
      | .ok base =>
          match env.editedTree store base staged with
          | .error e => (.error (.control e), store)
          | .ok (root, objects) =>
              match (store.withObjects objects).commitControl head base root
                  options now with
              | (.error e, kept) => (.error e, kept)
              | (.ok after, moved) => (.ok (head, after), moved)

/-- The name of the pending mark of write number `n`. -/
def mark (n : ℕ) (staged : Staged Id) : String :=
  PENDING_PREFIX ++ staged.kind ++ "/" ++ staged.id ++ "/" ++ env.nonce n

/-- The store under the pending mark. -/
def pending (n : ℕ) (staged : Staged Id) (store : Storage Id) : Storage Id :=
  store.putRef defaultNs (env.mark n staged) (env.hash (env.mark n staged))

/-- The control commit of a table write that succeeded.  If it fails, the mark
stays for the next reconcile. -/
def settle (n : ℕ) (staged : Staged Id) (options : CommitOptions) (now : ℤ)
    (written : Storage Id) : Storage Id :=
  match env.controlCommit options now staged written with
  | (.error _, kept) => kept
  | (.ok (before, after), moved) =>
      (moved.followIndexed before after).dropMark (env.mark n staged)
        (env.hash (env.mark n staged))

/-- Run `table`, a write to a table, and then commit what it staged. -/
def writeThrough {α : Type} (n : ℕ) (staged : Staged Id)
    (options : CommitOptions) (now : ℤ) (table : Storage Id → Outcome Id α)
    (store : Storage Id) : Outcome Id α :=
  match liftStorage (store.setRef defaultNs (env.mark n staged)
      (env.hash (env.mark n staged))) with
  | .error e => (.error e, store)
  | .ok marked =>
      match table marked with
      | (.error e, left) =>
          (.error e, left.dropMark (env.mark n staged)
            (env.hash (env.mark n staged)))
      | (.ok out, written) =>
          (.ok out, env.settle n staged options now written)

end CallEnv

/-! ## What a write leaves alone -/

namespace Storage

/-- Commits and objects were added, memberships noted and control refs moved;
no other ref and no table. -/
structure Aside (s t : Storage Id) : Prop where
  commits : s.commits ≤ t.commits
  namespaces : t.namespaces = s.namespaces
  epochs : t.epochs = s.epochs
  sessions : t.sessions = s.sessions
  taints : t.taints = s.taints
  refs : ∀ ns name, isReservedRef name = false →
    t.refAt ns name = s.refAt ns name

theorem Aside.refl (s : Storage Id) : s.Aside s :=
  ⟨le_refl _, rfl, rfl, rfl, rfl, fun _ _ _ => rfl⟩

variable {s t : Storage Id} {commit : Id}

theorem Aside.trans {u : Storage Id} (hst : s.Aside t) (htu : t.Aside u) :
    s.Aside u where
  commits := hst.commits.trans htu.commits
  namespaces := htu.namespaces.trans hst.namespaces
  epochs := htu.epochs.trans hst.epochs
  sessions := htu.sessions.trans hst.sessions
  taints := htu.taints.trans hst.taints
  refs ns name hname := (htu.refs ns name hname).trans (hst.refs ns name hname)

/-- Commits and objects were added and refs moved; no table changed. -/
structure TablesKept (s t : Storage Id) : Prop where
  commits : s.commits ≤ t.commits
  namespaces : t.namespaces = s.namespaces
  epochs : t.epochs = s.epochs
  sessions : t.sessions = s.sessions
  taints : t.taints = s.taints

theorem TablesKept.refl (s : Storage Id) : s.TablesKept s :=
  ⟨le_refl _, rfl, rfl, rfl, rfl⟩

theorem TablesKept.trans {u : Storage Id} (hst : s.TablesKept t)
    (htu : t.TablesKept u) : s.TablesKept u where
  commits := hst.commits.trans htu.commits
  namespaces := htu.namespaces.trans hst.namespaces
  epochs := htu.epochs.trans hst.epochs
  sessions := htu.sessions.trans hst.sessions
  taints := htu.taints.trans hst.taints

theorem Aside.tablesKept (h : s.Aside t) : s.TablesKept t :=
  ⟨h.commits, h.namespaces, h.epochs, h.sessions, h.taints⟩

theorem putRef_tablesKept (s : Storage Id) (ns name : String) (target : Id) :
    s.TablesKept (s.putRef ns name target) :=
  ⟨le_refl _, rfl, rfl, rfl, rfl⟩

theorem putCommit_aside (s : Storage Id) (c : Commit Id) :
    s.Aside (s.putCommit c) :=
  ⟨CommitStore.le_put s.commits c, rfl, rfl, rfl, rfl, fun _ _ _ => rfl⟩

theorem withObjects_aside (s : Storage Id) (objects : ObjectStore Id) :
    s.Aside (s.withObjects objects) :=
  ⟨le_refl _, rfl, rfl, rfl, rfl, fun _ _ _ => rfl⟩

theorem putRef_aside (s : Storage Id) (ns : String) {name : String}
    (hname : isReservedRef name = true) (target : Id) :
    s.Aside (s.putRef ns name target) := by
  refine ⟨le_refl _, rfl, rfl, rfl, rfl, ?_⟩
  intro ns' name' hname'
  rw [refAt_putRef]
  apply if_neg
  rintro ⟨-, rfl⟩
  rw [hname] at hname'
  exact absurd hname' (by decide)

theorem eraseRef_aside (s : Storage Id) (ns : String) {name : String}
    (hname : isReservedRef name = true) : s.Aside (s.eraseRef ns name) := by
  refine ⟨le_refl _, rfl, rfl, rfl, rfl, ?_⟩
  intro ns' name' hname'
  rw [refAt_eraseRef]
  apply if_neg
  rintro ⟨-, rfl⟩
  rw [hname] at hname'
  exact absurd hname' (by decide)

theorem dropMark_aside (s : Storage Id) {mark : String}
    (hmark : isReservedRef mark = true) (marked : Id) :
    s.Aside (s.dropMark mark marked) := by
  unfold dropMark
  split
  · exact s.eraseRef_aside defaultNs hmark
  · exact .refl s

theorem followIndexed_aside (s : Storage Id) (before after : Option Id) :
    s.Aside (s.followIndexed before after) := by
  unfold followIndexed
  split
  · split
    · exact s.putRef_aside defaultNs (by decide) _
    · exact .refl s
  · exact .refl s

theorem setCommitEpoch_aside {epochId : String}
    (h : s.setCommitEpoch commit epochId = .ok t) : s.Aside t := by
  unfold setCommitEpoch at h
  split at h
  · contradiction
  · split at h
    · contradiction
    · cases h
      exact ⟨le_refl _, rfl, rfl, rfl, rfl, fun _ _ _ => rfl⟩

theorem setCommitSession_aside {sessionId : String}
    (h : s.setCommitSession commit sessionId = .ok t) : s.Aside t := by
  unfold setCommitSession at h
  split at h
  · contradiction
  · contradiction
  · cases h
    exact ⟨le_refl _, rfl, rfl, rfl, rfl, fun _ _ _ => rfl⟩

theorem landControl_aside {head : Option Id} {landed : Bool}
    (h : s.landControl head commit = .ok (landed, t)) : s.Aside t := by
  have hput := s.putRef_aside defaultNs
    (show isReservedRef CONTROL_REF = true by decide) commit
  unfold landControl casRef createRef at h
  split at h
  · split at h
    · split at h <;> cases h
      · exact hput
      · exact .refl s
    · contradiction
  · split at h
    · split at h <;> cases h
      · exact .refl s
      · exact hput
    · contradiction

theorem commitControl_aside (s : Storage Id) (head base : Option Id)
    (merged : Id) (options : CommitOptions) (now : ℤ) :
    s.Aside (s.commitControl head base merged options now).2 := by
  have hput := s.putCommit_aside
    (CommitBuilder.build merged head.toList options now)
  unfold commitControl
  split
  · exact .refl s
  · dsimp only
    split
    · exact hput
    next h => exact hput.trans (landControl_aside h)
    next h => exact hput.trans (landControl_aside h)

end Storage

namespace CallEnv

variable (env : CallEnv Id)

theorem controlCommit_aside (options : CommitOptions) (now : ℤ)
    (staged : Staged Id) (s : Storage Id) :
    s.Aside (env.controlCommit options now staged s).2 := by
  unfold controlCommit
  split
  · exact .refl s
  · split
    · exact .refl s
    · split
      · exact .refl s
      next head _ _ base _ _ root objects _ =>
        have hobjects := s.withObjects_aside objects
        have hcommit := (s.withObjects objects).commitControl_aside head base
          root options now
        split
        next h =>
          rw [h] at hcommit
          exact hobjects.trans hcommit
        next h =>
          rw [h] at hcommit
          exact hobjects.trans hcommit

omit [Digest Id] in
theorem isReservedRef_mark (n : ℕ) (staged : Staged Id) :
    isReservedRef (env.mark n staged) = true := by
  simp only [mark, isReservedRef, CONTROL_PREFIX, PENDING_PREFIX, startsWith,
    String.append_assoc, String.toList_append]
  rfl

theorem pending_aside (n : ℕ) (staged : Staged Id) (s : Storage Id) :
    s.Aside (env.pending n staged s) :=
  s.putRef_aside defaultNs (env.isReservedRef_mark n staged) _

theorem settle_aside (n : ℕ) (staged : Staged Id) (options : CommitOptions)
    (now : ℤ) (s : Storage Id) :
    s.Aside (env.settle n staged options now s) := by
  have hcommit := env.controlCommit_aside options now staged s
  unfold settle
  split
  next h =>
    rw [h] at hcommit
    exact hcommit
  next before after moved h =>
    rw [h] at hcommit
    have hfollow := moved.followIndexed_aside before after
    refine hcommit.trans (hfollow.trans ?_)
    exact Storage.dropMark_aside _ (env.isReservedRef_mark n staged) _

/-! ## The result of a table write is the table's -/

section WriteThrough

variable {α : Type} (n : ℕ) (staged : Staged Id) (options : CommitOptions)
  (now : ℤ) (table : Storage Id → Outcome Id α) {s : Storage Id}

theorem writeThrough_of_missing (hns : defaultNs ∉ s.namespaces) :
    env.writeThrough n staged options now table s =
      (.error (.storage (.namespaceNotFound defaultNs)), s) := by
  simp [writeThrough, Storage.setRef, hns, liftStorage]

theorem writeThrough_of_ok (hns : defaultNs ∈ s.namespaces) {out : α}
    {written : Storage Id}
    (h : table (env.pending n staged s) = (.ok out, written)) :
    env.writeThrough n staged options now table s =
      (.ok out, env.settle n staged options now written) := by
  simp only [pending] at h
  simp [writeThrough, Storage.setRef, hns, liftStorage, h]

theorem writeThrough_of_error (hns : defaultNs ∈ s.namespaces)
    {e : RepoError Id} {left : Storage Id}
    (h : table (env.pending n staged s) = (.error e, left)) :
    env.writeThrough n staged options now table s =
      (.error e, left.dropMark (env.mark n staged)
        (env.hash (env.mark n staged))) := by
  simp only [pending] at h
  simp [writeThrough, Storage.setRef, hns, liftStorage, h]

theorem writeThrough_fst (hns : defaultNs ∈ s.namespaces) :
    (env.writeThrough n staged options now table s).1 =
      (table (env.pending n staged s)).1 := by
  rcases h : table (env.pending n staged s) with ⟨e | out, left⟩
  · rw [env.writeThrough_of_error n staged options now table hns h]
  · rw [env.writeThrough_of_ok n staged options now table hns h]

/-- A table write that leaves everything else alone is one that leaves
everything else alone with its mark and control commit, too. -/
theorem writeThrough_aside
    (htable : (env.pending n staged s).Aside (table (env.pending n staged s)).2) :
    s.Aside (env.writeThrough n staged options now table s).2 := by
  by_cases hns : defaultNs ∈ s.namespaces
  · have hto := (env.pending_aside n staged s).trans htable
    rcases h : table (env.pending n staged s) with ⟨e | out, left⟩
    · rw [env.writeThrough_of_error n staged options now table hns h]
      rw [h] at hto
      exact hto.trans
        (left.dropMark_aside (env.isReservedRef_mark n staged) _)
    · rw [env.writeThrough_of_ok n staged options now table hns h]
      rw [h] at hto
      exact hto.trans (env.settle_aside n staged options now left)
  · rw [env.writeThrough_of_missing n staged options now table hns]
    exact .refl s

end WriteThrough

end CallEnv

end AgentStateGraph
