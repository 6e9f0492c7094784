import AgentStateGraph.Lib.StepRuns
import AgentStateGraph.Repo.Sessions

/-!
# Guarded transitions on Postgres

Sealing, archiving and assigning an epoch, and ending a session, are each one
conditional update: of the calls that make one change, the first to write wins
and the others find the condition false.  A commit joins an epoch under the
lock of the epoch's row, so that a seal waits for it.  Resolving a taint looks
first and then updates without a condition: of two calls that both found the
taint open, both write and both report success.
-/

namespace AgentStateGraph

namespace PostgresRows

variable {Id : Type} [DecidableEq Id]

/-! ## The tables -/

/-- The columns of an epoch that the transitions read or write. -/
structure EpochRow (Id : Type) where
  status : EpochStatus
  sealedAt : Option ℤ
  summary : Option String
  sealedCommits : List Id
  sealHash : Option Id
  commitCount : ℤ
  namespace_ : Option String

structure SessionRow where
  status : Sessions.Status
  endedAt : Option ℤ

structure TaintRow where
  resolvedAt : Option ℤ
  resolvedBy : Option String
  resolvedReason : Option String
  resolvedProof : Option String

/-- The committed rows, and of each commit the epoch it is tagged with. -/
structure Tables (Id : Type) where
  epochs : String → Option (EpochRow Id)
  sessions : String → Option SessionRow
  taints : String → Option TaintRow
  commits : Id → Option (Option String)

def i32Max : ℤ := 2 ^ 31 - 1

/-- `commit_count` is a 32-bit column. -/
def commitCountParam (n : ℕ) : ℤ := min n i32Max

/-! ## Calls -/

inductive Call (Id : Type) where
  | sealEpoch (id summary : String) (sealedAt : ℤ) (sealedCommits : List Id)
      (sealHash : Id)
  | archiveEpoch (id : String)
  | assignEpochNamespace (id ns : String)
  | setCommitEpoch (commit : Id) (epoch : String)
  | endSession (id : String) (status : Sessions.Status) (endedAt : ℤ)
  | resolveTaint (id resolvedBy reason : String) (proof : Option String)
      (resolvedAt : ℤ)

/-- The change a call makes, of which there is one for each row. -/
inductive Transition where
  | seal (epoch : String)
  | archive (epoch : String)
  | assign (epoch : String)
  | finish (session : String)
  | resolve (taint : String)
deriving DecidableEq

/-- A commit may be tagged again, to this epoch or another. -/
def Call.transition : Call Id → Option Transition
  | .sealEpoch id .. => some (.seal id)
  | .archiveEpoch id => some (.archive id)
  | .assignEpochNamespace id _ => some (.assign id)
  | .setCommitEpoch .. => none
  | .endSession id .. => some (.finish id)
  | .resolveTaint id .. => some (.resolve id)

/-- The statement a call is at. -/
inductive Point where
  | begun
  /-- Its update changed no row. -/
  | missed
  /-- It found the taint unresolved. -/
  | checked
  /-- Its transaction has the epoch's row, and then the commit's. -/
  | locked
  | joined
  | counted
  | unjoined
deriving DecidableEq

def Point.InTransaction : Point → Prop
  | .locked | .joined | .counted | .unjoined => True
  | _ => False

inductive Answer where
  | ok
  /-- Of `assign_epoch_namespace`: the epoch had a namespace. -/
  | unchanged
  | error (e : StorageError)
deriving DecidableEq

structure State (Id : Type) where
  tables : Tables Id
  running : ℕ → Option (Call Id × Point)
  /-- The transaction that holds a row. -/
  epochLock : String → Option ℕ
  commitLock : Id → Option ℕ
  /-- The calls whose change was made, and those that returned `Ok`, the
  latest first. -/
  landed : List (Call Id)
  reported : List (Call Id)

/-- What a statement does: it waits for a row, or the call goes on or
returns. -/
inductive Effect (Id : Type) where
  | waits
  | continues (s : State Id) (p : Point)
  | returns (s : State Id) (a : Answer)

namespace State

variable (s : State Id)

def setEpoch (id : String) (row : EpochRow Id) : State Id :=
  { s with
    tables := { s.tables with
      epochs := Function.update s.tables.epochs id (some row) } }

def setSession (id : String) (row : SessionRow) : State Id :=
  { s with
    tables := { s.tables with
      sessions := Function.update s.tables.sessions id (some row) } }

def setTaint (id : String) (row : TaintRow) : State Id :=
  { s with
    tables := { s.tables with
      taints := Function.update s.tables.taints id (some row) } }

def tagCommit (commit : Id) (epoch : String) : State Id :=
  { s with
    tables := { s.tables with
      commits := Function.update s.tables.commits commit
        (some (some epoch)) } }

def land (c : Call Id) : State Id := { s with landed := c :: s.landed }

/-- A transaction that ends leaves its rows. -/
def release (handle : ℕ) : State Id :=
  { s with
    epochLock := fun e =>
      if s.epochLock e = some handle then none else s.epochLock e
    commitLock := fun c =>
      if s.commitLock c = some handle then none else s.commitLock c }

/-! ### The statements of each call -/

/-- A conditional update of an epoch's row waits for a row that meets its
condition and is locked. -/
def updateEpochWhere (c : Call Id) (id : String) (meets : EpochRow Id → Bool)
    (write : EpochRow Id → EpochRow Id) (otherwise : Effect Id) :
    Effect Id :=
  match s.tables.epochs id with
  | none => otherwise
  | some row =>
      if meets row then
        if s.epochLock id = none then
          .returns ((s.setEpoch id (write row)).land c) .ok
        else .waits
      else otherwise

def epochLookup (id : String) (found : Answer) : Effect Id :=
  match s.tables.epochs id with
  | some _ => .returns s found
  | none => .returns s (.error (.backend ("epoch not found: " ++ id)))

def sealEpoch (id summary : String) (sealedAt : ℤ) (sealedCommits : List Id)
    (sealHash : Id) : Point → Effect Id
  | .begun =>
      s.updateEpochWhere
        (.sealEpoch id summary sealedAt sealedCommits sealHash) id
        (fun row => row.status ≠ .sealed ∧ row.status ≠ .archived)
        (fun row => { row with
          status := .sealed
          sealedAt := some sealedAt
          summary := some summary
          sealedCommits := sealedCommits
          sealHash := some sealHash
          commitCount := commitCountParam sealedCommits.length })
        (.continues s .missed)
  | _ => s.epochLookup id (.error (.epochAlreadySealed id))

def archiveEpoch (id : String) : Point → Effect Id
  | .begun =>
      s.updateEpochWhere (.archiveEpoch id) id (fun row => row.status = .sealed)
        (fun row => { row with status := .archived })
        (.returns s (.error (.backend
          ("epoch '" ++ id ++ "' not found or not sealed"))))
  | _ => .waits

def assignEpochNamespace (id ns : String) : Point → Effect Id
  | .begun =>
      s.updateEpochWhere (.assignEpochNamespace id ns) id
        (fun row => row.namespace_ = none)
        (fun row => { row with namespace_ := some ns })
        (.continues s .missed)
  | _ => s.epochLookup id .unchanged

/-- `handle` is the connection: its transaction locks the epoch, tags the
commit, counts it, and commits all of it at once. -/
def setCommitEpoch (handle : ℕ) (commit : Id) (epoch : String) :
    Point → Effect Id
  | .begun =>
      match s.tables.epochs epoch with
      | none => .returns s (.error (.backend ("epoch not found: " ++ epoch)))
      | some row =>
          if s.epochLock epoch ≠ none then .waits
          else if row.status = .sealed ∨ row.status = .archived then
            .returns s (.error (.epochAlreadySealed epoch))
          else
            .continues { s with
              epochLock := Function.update s.epochLock epoch (some handle) }
              .locked
  | .locked =>
      match s.tables.commits commit with
      | none => .continues s .unjoined
      | some tagged =>
          if tagged = some epoch then .continues s .unjoined
          else if s.commitLock commit ≠ none then .waits
          else
            .continues { s with
              commitLock := Function.update s.commitLock commit (some handle) }
              .joined
  | .joined =>
      match s.tables.epochs epoch with
      | none => .continues s .counted
      | some row =>
          if row.commitCount < i32Max then .continues s .counted
          else .returns s (.error (.backend "update commit_count: db error"))
  | .counted =>
      let tagged := s.tagCommit commit epoch
      let counted := match s.tables.epochs epoch with
        | none => tagged
        | some row => tagged.setEpoch epoch
            { row with commitCount := row.commitCount + 1 }
      .returns (counted.land (.setCommitEpoch commit epoch)) .ok
  | .unjoined => .returns (s.land (.setCommitEpoch commit epoch)) .ok
  | _ => .waits

def endSession (id : String) (status : Sessions.Status) (endedAt : ℤ) :
    Point → Effect Id
  | .begun =>
      match s.tables.sessions id with
      | none => .continues s .missed
      | some row =>
          if row.status = .active then
            .returns ((s.setSession id ⟨status, some endedAt⟩).land
              (.endSession id status endedAt)) .ok
          else .continues s .missed
  | _ =>
      match s.tables.sessions id with
      | some _ => .returns s (.error (.sessionEnded id))
      | none => .returns s (.error (.backend ("session not found: " ++ id)))

/-- The update has no condition on `resolved_at`. -/
def resolveTaint (id resolvedBy reason : String) (proof : Option String)
    (resolvedAt : ℤ) : Point → Effect Id
  | .begun =>
      match s.tables.taints id with
      | none => .returns s (.error (.backend ("taint " ++ id ++ " not found")))
      | some row =>
          if row.resolvedAt.isSome then
            .returns s (.error (.backend
              ("taint " ++ id ++ " is already resolved")))
          else .continues s .checked
  | .checked =>
      match s.tables.taints id with
      | none => .returns s .ok
      | some _ =>
          .returns ((s.setTaint id
            ⟨some resolvedAt, some resolvedBy, some reason, proof⟩).land
              (.resolveTaint id resolvedBy reason proof resolvedAt)) .ok
  | _ => .waits

def statement (handle : ℕ) : Call Id → Point → Effect Id
  | .sealEpoch id summary sealedAt sealedCommits sealHash =>
      s.sealEpoch id summary sealedAt sealedCommits sealHash
  | .archiveEpoch id => s.archiveEpoch id
  | .assignEpochNamespace id ns => s.assignEpochNamespace id ns
  | .setCommitEpoch commit epoch => s.setCommitEpoch handle commit epoch
  | .endSession id status endedAt => s.endSession id status endedAt
  | .resolveTaint id resolvedBy reason proof resolvedAt =>
      s.resolveTaint id resolvedBy reason proof resolvedAt

end State

/-! ## Runs -/

/-- A step of a connection.  An answer may be lost, and a call that does not
hear of a statement fails there. -/
inductive Op (Id : Type) where
  | call (handle : ℕ) (c : Call Id)
  | next (handle : ℕ) (delivered : Bool)
  /-- The connection fails between two statements. -/
  | drop (handle : ℕ)

namespace State

variable (s : State Id)

def goTo (handle : ℕ) (at_ : Option (Call Id × Point)) : State Id :=
  { s with running := Function.update s.running handle at_ }

/-- The call is over, and its transaction, if it had one. -/
def finish (handle : ℕ) : State Id := (s.goTo handle none).release handle

def report (c : Call Id) : State Id := { s with reported := c :: s.reported }

def step (s : State Id) : Op Id → State Id
  | .call handle c =>
      match s.running handle with
      | none => s.goTo handle (some (c, .begun))
      | some _ => s
  | .next handle delivered =>
      match s.running handle with
      | none => s
      | some (c, p) =>
          match s.statement handle c p with
          | .waits => s
          | .continues s' p' =>
              if delivered then s'.goTo handle (some (c, p'))
              else s'.finish handle
          | .returns s' a =>
              if delivered ∧ a = .ok then (s'.finish handle).report c
              else s'.finish handle
  | .drop handle => s.finish handle

/-- No call has begun. -/
def start (tables : Tables Id) : State Id :=
  ⟨tables, fun _ => none, fun _ => none, fun _ => none, [], []⟩

end State

/-! ## One winner -/

/-- The fields that a transition writes hold what the call wrote.  A seal's
status is later that of the archive. -/
def Holds (s : State Id) : Call Id → Prop
  | .sealEpoch id summary sealedAt sealedCommits sealHash =>
      ∃ row, s.tables.epochs id = some row ∧
        (row.status = .sealed ∨
          row.status = .archived ∧ .archiveEpoch id ∈ s.landed) ∧
        row.sealedAt = some sealedAt ∧ row.summary = some summary ∧
        row.sealedCommits = sealedCommits ∧ row.sealHash = some sealHash ∧
        row.commitCount = commitCountParam sealedCommits.length
  | .archiveEpoch id =>
      ∃ row, s.tables.epochs id = some row ∧ row.status = .archived
  | .assignEpochNamespace id ns =>
      ∃ row, s.tables.epochs id = some row ∧ row.namespace_ = some ns
  | .setCommitEpoch .. => True
  | .endSession id status endedAt =>
      s.tables.sessions id = some ⟨status, some endedAt⟩
  | .resolveTaint id resolvedBy reason proof resolvedAt =>
      s.tables.taints id =
        some ⟨some resolvedAt, some resolvedBy, some reason, proof⟩

/-- At most one call of each transition reported success, and its values
stand. -/
structure OneWinner (s : State Id) : Prop where
  once : (s.reported.filterMap Call.transition).Nodup
  holds : ∀ c ∈ s.reported, Holds s c

/-- A commit that is newly tagged with an epoch finds it open. -/
def JoinsOpen (s s' : State Id) : Prop :=
  ∀ commit epoch, s'.tables.commits commit = some (some epoch) →
    s.tables.commits commit ≠ some (some epoch) →
    ∃ row, s.tables.epochs epoch = some row ∧ row.status = .active

/-- What a step must not do: end a session as active, or resolve a taint that
another call resolved since this one looked. -/
def Proper (s : State Id) : Op Id → Prop
  | .call _ (.endSession _ status _) => status ≠ .active
  | .next handle _ =>
      match s.running handle with
      | some (.resolveTaint id .., .checked) =>
          ∀ row ∈ s.tables.taints id, row.resolvedAt = none
      | _ => True
  | _ => True

/-! ## What a statement keeps -/

variable {s s' : State Id}

/-- The row of an epoch, when its status takes no more commits. -/
structure Keeps (row row' : EpochRow Id) (isArchived : Prop) : Prop where
  sealedAt : row.status ≠ .active → row'.sealedAt = row.sealedAt
  summary : row.status ≠ .active → row'.summary = row.summary
  sealedCommits : row.status ≠ .active →
    row'.sealedCommits = row.sealedCommits
  sealHash : row.status ≠ .active → row'.sealHash = row.sealHash
  commitCount : row.status ≠ .active → row'.commitCount = row.commitCount
  status : row.status ≠ .active →
    row'.status = row.status ∨ row'.status = .archived ∧ isArchived
  namespace_ : ∀ ns, row.namespace_ = some ns → row'.namespace_ = some ns

section

omit [DecidableEq Id]

variable {c : Call Id} {handle : ℕ} {p p' : Point} {a : Answer}

theorem holds_setEpoch {id : String} {row row' : EpochRow Id} {c' : Call Id}
    (hrow : s.tables.epochs id = some row)
    (hkeeps : Keeps row row' (c = .archiveEpoch id)) (h : Holds s c') :
    Holds ((s.setEpoch id row').land c) c' := by
  have hepochs : ((s.setEpoch id row').land c).tables.epochs =
      Function.update s.tables.epochs id (some row') := rfl
  cases c' with
  | setCommitEpoch => trivial
  | endSession => exact h
  | resolveTaint => exact h
  | assignEpochNamespace id' ns =>
      obtain ⟨r, hr, hns⟩ := h
      by_cases hsame : id' = id
      · subst hsame
        obtain rfl := Option.some.inj (hrow.symm.trans hr)
        exact ⟨row', by rw [hepochs, Function.update_self],
          hkeeps.namespace_ ns hns⟩
      · exact ⟨r, by rw [hepochs, Function.update_of_ne hsame, hr], hns⟩
  | archiveEpoch id' =>
      obtain ⟨r, hr, hstatus⟩ := h
      by_cases hsame : id' = id
      · subst hsame
        obtain rfl := Option.some.inj (hrow.symm.trans hr)
        refine ⟨row', by rw [hepochs, Function.update_self], ?_⟩
        rcases hkeeps.status (by simp [hstatus]) with heq | ⟨heq, -⟩
        · rw [heq, hstatus]
        · exact heq
      · exact ⟨r, by rw [hepochs, Function.update_of_ne hsame, hr], hstatus⟩
  | sealEpoch id' summary sealedAt sealedCommits sealHash =>
      obtain ⟨r, hr, hstatus, hat, hsummary, hcommits, hhash, hcount⟩ := h
      have hlater : ∀ status : EpochStatus, (status = .sealed ∨
          status = .archived ∧ .archiveEpoch id' ∈ s.landed) →
          status = .sealed ∨
            status = .archived ∧ .archiveEpoch id' ∈ c :: s.landed := by
        rintro status (hsealed | ⟨harchived, hmem⟩)
        · exact Or.inl hsealed
        · exact Or.inr ⟨harchived, List.mem_cons_of_mem _ hmem⟩
      by_cases hsame : id' = id
      · subst hsame
        obtain rfl := Option.some.inj (hrow.symm.trans hr)
        have hclosed : row.status ≠ .active := by
          rcases hstatus with hstatus | ⟨hstatus, -⟩ <;> simp [hstatus]
        refine ⟨row', by rw [hepochs, Function.update_self], ?_,
          (hkeeps.sealedAt hclosed).trans hat,
          (hkeeps.summary hclosed).trans hsummary,
          (hkeeps.sealedCommits hclosed).trans hcommits,
          (hkeeps.sealHash hclosed).trans hhash,
          (hkeeps.commitCount hclosed).trans hcount⟩
        rcases hkeeps.status hclosed with heq | ⟨heq, rfl⟩
        · rw [heq]
          exact hlater _ hstatus
        · exact Or.inr ⟨heq, List.mem_cons_self⟩
      · exact ⟨r, by rw [hepochs, Function.update_of_ne hsame, hr],
          hlater _ hstatus, hat, hsummary, hcommits, hhash, hcount⟩

/-- What the calls under way rest on: the locks they hold, that a locked epoch
stays open, and that no row goes away. -/
structure Frame (s s' : State Id) : Prop where
  running : s'.running = s.running
  locks : ∀ e k, s.epochLock e = some k → s'.epochLock e = some k
  opened : ∀ e k, s.epochLock e = some k →
    (∃ row, s.tables.epochs e = some row ∧ row.status = .active) →
    ∃ row, s'.tables.epochs e = some row ∧ row.status = .active
  taints : ∀ id, (s.tables.taints id).isSome → (s'.tables.taints id).isSome

/-- What holds of a call where it stands. -/
def Stands (s : State Id) (handle : ℕ) (p : Point) : Call Id → Prop
  | .setCommitEpoch _ epoch => p.InTransaction →
      s.epochLock epoch = some handle ∧
        ∃ row, s.tables.epochs epoch = some row ∧ row.status = .active
  | .endSession _ status _ => status ≠ .active
  | .resolveTaint id .. => p = .checked → (s.tables.taints id).isSome
  | _ => True

theorem Stands.frame (h : Stands s handle p c) (hframe : Frame s s') :
    Stands s' handle p c := by
  cases c with
  | setCommitEpoch commit epoch =>
      intro hp
      obtain ⟨hlock, hopen⟩ := h hp
      exact ⟨hframe.locks epoch handle hlock,
        hframe.opened epoch handle hlock hopen⟩
  | endSession => exact h
  | resolveTaint => exact fun hp => hframe.taints _ (h hp)
  | sealEpoch => trivial
  | archiveEpoch => trivial
  | assignEpochNamespace => trivial

structure Inv (s : State Id) : Prop where
  once : (s.landed.filterMap Call.transition).Nodup
  holds : ∀ c ∈ s.landed, Holds s c
  ended : ∀ id endedAt, .endSession id .active endedAt ∉ s.landed
  heard : s.reported.Sublist s.landed
  stands : ∀ handle c p, s.running handle = some (c, p) → Stands s handle p c

/-- The change has been made. -/
def Done (s : State Id) : Transition → Prop
  | .seal id => ∃ row, s.tables.epochs id = some row ∧ row.status ≠ .active
  | .archive id =>
      ∃ row, s.tables.epochs id = some row ∧ row.status = .archived
  | .assign id =>
      ∃ row, s.tables.epochs id = some row ∧ row.namespace_ ≠ none
  | .finish id =>
      ∃ row, s.tables.sessions id = some row ∧ row.status ≠ .active
  | .resolve id =>
      ∃ row, s.tables.taints id = some row ∧ row.resolvedAt ≠ none

theorem done_of_landed (hinv : Inv s) (hmem : c ∈ s.landed) {t : Transition}
    (ht : c.transition = some t) : Done s t := by
  have hholds := hinv.holds c hmem
  cases c with
  | setCommitEpoch => simp [Call.transition] at ht
  | sealEpoch id =>
      obtain rfl := Option.some.inj ht
      obtain ⟨row, hrow, hstatus, -⟩ := hholds
      refine ⟨row, hrow, ?_⟩
      rcases hstatus with hstatus | ⟨hstatus, -⟩ <;> simp [hstatus]
  | archiveEpoch id =>
      obtain rfl := Option.some.inj ht
      exact hholds
  | assignEpochNamespace id ns =>
      obtain rfl := Option.some.inj ht
      obtain ⟨row, hrow, hns⟩ := hholds
      exact ⟨row, hrow, by simp [hns]⟩
  | endSession id status endedAt =>
      obtain rfl := Option.some.inj ht
      refine ⟨_, hholds, ?_⟩
      rintro rfl
      exact hinv.ended id endedAt hmem
  | resolveTaint id =>
      obtain rfl := Option.some.inj ht
      exact ⟨_, hholds, by simp⟩

theorem holds_of_rows {c' : Call Id}
    (hepochs : s'.tables.epochs = s.tables.epochs)
    (hlanded : s'.landed = c :: s.landed)
    (hsessions : ∀ id, c'.transition = some (.finish id) →
      s'.tables.sessions id = s.tables.sessions id)
    (htaints : ∀ id, c'.transition = some (.resolve id) →
      s'.tables.taints id = s.tables.taints id) (h : Holds s c') :
    Holds s' c' := by
  cases c' with
  | setCommitEpoch => trivial
  | endSession id => exact (hsessions id rfl).trans h
  | resolveTaint id => exact (htaints id rfl).trans h
  | archiveEpoch id =>
      obtain ⟨row, hrow, hstatus⟩ := h
      exact ⟨row, by rw [hepochs, hrow], hstatus⟩
  | assignEpochNamespace id ns =>
      obtain ⟨row, hrow, hns⟩ := h
      exact ⟨row, by rw [hepochs, hrow], hns⟩
  | sealEpoch id =>
      obtain ⟨row, hrow, hstatus, hrest⟩ := h
      refine ⟨row, by rw [hepochs, hrow], ?_, hrest⟩
      rcases hstatus with hstatus | ⟨hstatus, hmem⟩
      · exact Or.inl hstatus
      · exact Or.inr ⟨hstatus, hlanded ▸ List.mem_cons_of_mem _ hmem⟩

/-- A statement that makes the change of its call. -/
structure Lands (s s' : State Id) (c : Call Id) : Prop where
  frame : Frame s s'
  landed : s'.landed = c :: s.landed
  reported : s'.reported = s.reported
  fresh : ∀ t, c.transition = some t → ¬Done s t
  holds : ∀ c' ∈ c :: s.landed, Holds s' c'
  joins : JoinsOpen s s'

theorem frame_setEpoch {id : String} {row : EpochRow Id} {c : Call Id}
    (h : s.epochLock id = none ∨ row.status = .active) :
    Frame s ((s.setEpoch id row).land c) := by
  refine ⟨rfl, fun _ _ h => h, ?_, fun _ h => h⟩
  intro e k hlock hopen
  by_cases hsame : e = id
  · subst hsame
    rcases h with hfree | hactive
    · simp [hfree] at hlock
    · exact ⟨row, by simp [State.setEpoch, State.land], hactive⟩
  · simpa [State.setEpoch, State.land, hsame] using hopen

theorem joinsOpen_of_commits (h : s'.tables.commits = s.tables.commits) :
    JoinsOpen s s' := by
  intro commit epoch hnew hold
  rw [h] at hnew
  contradiction

/-- A conditional update of an epoch makes its change, where no call has made
it before. -/
theorem lands_setEpoch (hinv : Inv s) {id : String} {row row' : EpochRow Id}
    (hrow : s.tables.epochs id = some row) (hfree : s.epochLock id = none)
    (hkeeps : Keeps row row' (c = .archiveEpoch id))
    (hfresh : ∀ t, c.transition = some t → ¬Done s t)
    (hholds : Holds ((s.setEpoch id row').land c) c) :
    Lands s ((s.setEpoch id row').land c) c := by
  refine ⟨frame_setEpoch (Or.inl hfree), rfl, rfl, hfresh, ?_,
    joinsOpen_of_commits rfl⟩
  intro c' hmem
  rcases List.mem_cons.mp hmem with rfl | hmem
  · exact hholds
  · exact holds_setEpoch hrow hkeeps (hinv.holds c' hmem)

theorem updateEpochWhere_returns {id : String} {meets : EpochRow Id → Bool}
    {write : EpochRow Id → EpochRow Id} {otherwise : Effect Id}
    (h : s.updateEpochWhere c id meets write otherwise = .returns s' a) :
    otherwise = .returns s' a ∨
      ∃ row, s.tables.epochs id = some row ∧ meets row ∧
        s.epochLock id = none ∧
        s' = (s.setEpoch id (write row)).land c ∧ a = .ok := by
  unfold State.updateEpochWhere at h
  split at h
  next => exact Or.inl h
  next row hrow =>
    by_cases hmeets : meets row
    · rw [if_pos hmeets] at h
      by_cases hfree : s.epochLock id = none
      · rw [if_pos hfree] at h
        obtain ⟨rfl, rfl⟩ := Effect.returns.inj h
        exact Or.inr ⟨row, hrow, hmeets, hfree, rfl, rfl⟩
      · rw [if_neg hfree] at h
        contradiction
    · rw [if_neg hmeets] at h
      exact Or.inl h

theorem epochLookup_returns {id : String} {found : Answer}
    (hfound : found ≠ .ok) (h : s.epochLookup id found = .returns s' a) :
    s' = s ∧ a ≠ .ok := by
  unfold State.epochLookup at h
  split at h
  · obtain ⟨rfl, rfl⟩ := Effect.returns.inj h
    exact ⟨rfl, hfound⟩
  · obtain ⟨rfl, rfl⟩ := Effect.returns.inj h
    exact ⟨rfl, by simp⟩

/-- What a statement that answers its call has done: nothing, or the change of
the call. -/
def Returned (s s' : State Id) (c : Call Id) (a : Answer) : Prop :=
  (s' = s ∧ a ≠ .ok) ∨ (a = .ok ∧ Lands s s' c)

theorem sealEpoch_returns (hinv : Inv s) {id summary : String} {sealedAt : ℤ}
    {sealedCommits : List Id} {sealHash : Id}
    (h : s.sealEpoch id summary sealedAt sealedCommits sealHash p =
      .returns s' a) :
    Returned s s' (.sealEpoch id summary sealedAt sealedCommits sealHash)
      a := by
  by_cases hp : p = .begun
  · subst hp
    simp only [State.sealEpoch] at h
    rcases updateEpochWhere_returns h with
      h | ⟨row, hrow, hmeets, hfree, rfl, rfl⟩
    · contradiction
    · have hactive : row.status = .active := by
        cases hstatus : row.status <;> simp [hstatus] at hmeets ⊢
      refine Or.inr ⟨rfl, lands_setEpoch hinv hrow hfree ?_ ?_ ?_⟩
      · constructor <;> simp [hactive]
      · rintro _ ⟨⟩ ⟨r, hr, hclosed⟩
        obtain rfl := Option.some.inj (hrow.symm.trans hr)
        exact hclosed hactive
      · refine ⟨_, Function.update_self _ _ _, Or.inl rfl, rfl, rfl, rfl, rfl,
          rfl⟩
  · have hlookup : s.epochLookup id (.error (.epochAlreadySealed id)) =
        .returns s' a := by
      cases p <;> first | exact absurd rfl hp | exact h
    exact Or.inl (epochLookup_returns (by simp) hlookup)

theorem archiveEpoch_returns (hinv : Inv s) {id : String}
    (h : s.archiveEpoch id p = .returns s' a) :
    Returned s s' (.archiveEpoch id) a := by
  by_cases hp : p = .begun
  · subst hp
    simp only [State.archiveEpoch] at h
    rcases updateEpochWhere_returns h with
      h | ⟨row, hrow, hmeets, hfree, rfl, rfl⟩
    · obtain ⟨rfl, rfl⟩ := Effect.returns.inj h
      exact Or.inl ⟨rfl, by simp⟩
    · have hsealed : row.status = .sealed := by simpa using hmeets
      refine Or.inr ⟨rfl, lands_setEpoch hinv hrow hfree ?_ ?_ ?_⟩
      · constructor <;> simp
      · rintro _ ⟨⟩ ⟨r, hr, harchived⟩
        obtain rfl := Option.some.inj (hrow.symm.trans hr)
        simp [hsealed] at harchived
      · exact ⟨_, Function.update_self _ _ _, rfl⟩
  · cases p <;> first | exact absurd rfl hp | contradiction

theorem assignEpochNamespace_returns (hinv : Inv s) {id ns : String}
    (h : s.assignEpochNamespace id ns p = .returns s' a) :
    Returned s s' (.assignEpochNamespace id ns) a := by
  by_cases hp : p = .begun
  · subst hp
    simp only [State.assignEpochNamespace] at h
    rcases updateEpochWhere_returns h with
      h | ⟨row, hrow, hmeets, hfree, rfl, rfl⟩
    · contradiction
    · have hnone : row.namespace_ = none := by simpa using hmeets
      refine Or.inr ⟨rfl, lands_setEpoch hinv hrow hfree ?_ ?_ ?_⟩
      · constructor <;> simp [hnone]
      · rintro _ ⟨⟩ ⟨r, hr, hassigned⟩
        obtain rfl := Option.some.inj (hrow.symm.trans hr)
        exact hassigned hnone
      · exact ⟨_, Function.update_self _ _ _, rfl⟩
  · have hlookup : s.epochLookup id .unchanged = .returns s' a := by
      cases p <;> first | exact absurd rfl hp | exact h
    exact Or.inl (epochLookup_returns (by simp) hlookup)

theorem endSession_returns (hinv : Inv s) {id : String}
    {status : Sessions.Status} {endedAt : ℤ}
    (h : s.endSession id status endedAt p = .returns s' a) :
    Returned s s' (.endSession id status endedAt) a := by
  by_cases hp : p = .begun
  · subst hp
    simp only [State.endSession] at h
    split at h
    next => contradiction
    next row hrow =>
      by_cases hactive : row.status = .active
      · rw [if_pos hactive] at h
        obtain ⟨rfl, rfl⟩ := Effect.returns.inj h
        have hfresh : ¬Done s (.finish id) := by
          rintro ⟨r, hr, hended⟩
          obtain rfl := Option.some.inj (hrow.symm.trans hr)
          exact hended hactive
        refine Or.inr ⟨rfl, ⟨rfl, fun _ _ h => h, fun _ _ _ h => h,
          fun _ h => h⟩, rfl, rfl, ?_, ?_, joinsOpen_of_commits rfl⟩
        · rintro _ ⟨⟩
          exact hfresh
        · intro c' hmem
          rcases List.mem_cons.mp hmem with rfl | hlanded
          · exact Function.update_self _ _ _
          · refine holds_of_rows (s := s) rfl rfl ?_ (fun _ _ => rfl)
              (hinv.holds c' hlanded)
            intro id' hid'
            refine Function.update_of_ne ?_ _ _
            rintro rfl
            exact hfresh (done_of_landed hinv hlanded hid')
      · rw [if_neg hactive] at h
        contradiction
  · have hlookup : (match s.tables.sessions id with
        | some _ => Effect.returns s (.error (.sessionEnded id))
        | none => .returns s
            (.error (.backend ("session not found: " ++ id)))) =
        .returns s' a := by
      cases p <;> first | exact absurd rfl hp | exact h
    split at hlookup <;>
    · obtain ⟨rfl, rfl⟩ := Effect.returns.inj hlookup
      exact Or.inl ⟨rfl, by simp⟩

theorem resolveTaint_returns (hinv : Inv s) {id resolvedBy reason : String}
    {proof : Option String} {resolvedAt : ℤ}
    (hstands : p = .checked → (s.tables.taints id).isSome)
    (hopen : p = .checked → ∀ row ∈ s.tables.taints id, row.resolvedAt = none)
    (h : s.resolveTaint id resolvedBy reason proof resolvedAt p =
      .returns s' a) :
    Returned s s' (.resolveTaint id resolvedBy reason proof resolvedAt) a := by
  cases p with
  | begun =>
      simp only [State.resolveTaint] at h
      split at h
      · obtain ⟨rfl, rfl⟩ := Effect.returns.inj h
        exact Or.inl ⟨rfl, by simp⟩
      · split at h
        · obtain ⟨rfl, rfl⟩ := Effect.returns.inj h
          exact Or.inl ⟨rfl, by simp⟩
        · contradiction
  | checked =>
      obtain ⟨row, hrow⟩ := Option.isSome_iff_exists.mp (hstands rfl)
      have hnone := hopen rfl row hrow
      simp only [State.resolveTaint, hrow] at h
      obtain ⟨rfl, rfl⟩ := Effect.returns.inj h
      have hfresh : ¬Done s (.resolve id) := by
        rintro ⟨r, hr, hresolved⟩
        obtain rfl := Option.some.inj (hrow.symm.trans hr)
        exact hresolved hnone
      refine Or.inr ⟨rfl, ⟨rfl, fun _ _ h => h, fun _ _ _ h => h, ?_⟩, rfl, rfl,
        ?_, ?_, joinsOpen_of_commits rfl⟩
      · intro id' hsome
        by_cases hsame : id' = id
        · subst hsame
          simp [State.land, State.setTaint]
        · simpa [State.land, State.setTaint, hsame] using hsome
      · rintro _ ⟨⟩
        exact hfresh
      · intro c' hmem
        rcases List.mem_cons.mp hmem with rfl | hlanded
        · exact Function.update_self _ _ _
        · refine holds_of_rows (s := s) rfl rfl (fun _ _ => rfl) ?_
            (hinv.holds c' hlanded)
          intro id' hid'
          refine Function.update_of_ne ?_ _ _
          rintro rfl
          exact hfresh (done_of_landed hinv hlanded hid')
  | missed => contradiction
  | locked => contradiction
  | joined => contradiction
  | counted => contradiction
  | unjoined => contradiction

theorem setCommitEpoch_returns [DecidableEq Id] (hinv : Inv s) {commit : Id}
    {epoch : String}
    (hstands : p.InTransaction → s.epochLock epoch = some handle ∧
      ∃ row, s.tables.epochs epoch = some row ∧ row.status = .active)
    (h : s.setCommitEpoch handle commit epoch p = .returns s' a) :
    Returned s s' (.setCommitEpoch commit epoch) a := by
  cases p with
  | begun =>
      simp only [State.setCommitEpoch] at h
      split at h
      · obtain ⟨rfl, rfl⟩ := Effect.returns.inj h
        exact Or.inl ⟨rfl, by simp⟩
      · split at h
        · contradiction
        · split at h
          · obtain ⟨rfl, rfl⟩ := Effect.returns.inj h
            exact Or.inl ⟨rfl, by simp⟩
          · contradiction
  | locked =>
      simp only [State.setCommitEpoch] at h
      split at h
      · contradiction
      · split at h
        · contradiction
        · split at h <;> contradiction
  | joined =>
      simp only [State.setCommitEpoch] at h
      split at h
      · contradiction
      · split at h
        · contradiction
        · obtain ⟨rfl, rfl⟩ := Effect.returns.inj h
          exact Or.inl ⟨rfl, by simp⟩
  | counted =>
      obtain ⟨-, row, hrow, hactive⟩ := hstands trivial
      simp only [State.setCommitEpoch, hrow] at h
      obtain ⟨rfl, rfl⟩ := Effect.returns.inj h
      refine Or.inr ⟨rfl, ?_, rfl, rfl, by simp [Call.transition], ?_, ?_⟩
      · have hframe := @frame_setEpoch _ (s.tagCommit commit epoch) epoch
          { row with commitCount := row.commitCount + 1 }
          (.setCommitEpoch commit epoch) (Or.inr hactive)
        exact ⟨hframe.running, hframe.locks, hframe.opened, hframe.taints⟩
      · intro c' hmem
        rcases List.mem_cons.mp hmem with rfl | hmem
        · trivial
        · have hkeeps : Keeps row
              { row with commitCount := row.commitCount + 1 }
              (Call.setCommitEpoch commit epoch = .archiveEpoch epoch) := by
            constructor <;> simp [hactive]
          exact holds_setEpoch (s := s.tagCommit commit epoch) hrow hkeeps
            (hinv.holds c' hmem)
      · intro commit' epoch' hnew hold
        have hnew' : Function.update s.tables.commits commit
            (some (some epoch)) commit' = some (some epoch') := hnew
        by_cases hsame : commit' = commit
        · rw [hsame, Function.update_self] at hnew'
          obtain rfl := Option.some.inj (Option.some.inj hnew')
          exact ⟨row, hrow, hactive⟩
        · rw [Function.update_of_ne hsame] at hnew'
          exact absurd hnew' hold
  | unjoined =>
      obtain ⟨rfl, rfl⟩ := Effect.returns.inj h
      refine Or.inr ⟨rfl, ⟨rfl, fun _ _ h => h, fun _ _ _ h => h,
        fun _ h => h⟩, rfl, rfl, by simp [Call.transition], ?_,
        joinsOpen_of_commits rfl⟩
      intro c' hmem
      rcases List.mem_cons.mp hmem with rfl | hmem
      · trivial
      · exact holds_of_rows (s := s) rfl rfl (fun _ _ => rfl) (fun _ _ => rfl)
          (hinv.holds c' hmem)
  | missed => contradiction
  | checked => contradiction

theorem statement_returns [DecidableEq Id] (hinv : Inv s)
    (hstands : Stands s handle p c)
    (hopen : ∀ id, c.transition = some (.resolve id) → p = .checked →
      ∀ row ∈ s.tables.taints id, row.resolvedAt = none)
    (h : s.statement handle c p = .returns s' a) : Returned s s' c a := by
  cases c with
  | sealEpoch => exact sealEpoch_returns hinv h
  | archiveEpoch => exact archiveEpoch_returns hinv h
  | assignEpochNamespace => exact assignEpochNamespace_returns hinv h
  | setCommitEpoch => exact setCommitEpoch_returns hinv hstands h
  | endSession => exact endSession_returns hinv h
  | resolveTaint id =>
      exact resolveTaint_returns hinv hstands (hopen id rfl) h

/-- A statement after which a call goes on has changed no row. -/
structure Goes (s s' : State Id) (handle : ℕ) (c : Call Id) (p : Point) :
    Prop where
  frame : Frame s s'
  tables : s'.tables = s.tables
  landed : s'.landed = s.landed
  reported : s'.reported = s.reported
  stands : Stands s' handle p c

theorem goes_self (h : Stands s handle p c) : Goes s s handle c p :=
  ⟨⟨rfl, fun _ _ h => h, fun _ _ _ h => h, fun _ h => h⟩, rfl, rfl, rfl, h⟩

theorem setCommitEpoch_continues [DecidableEq Id] {commit : Id} {epoch : String}
    (hstands : Stands s handle p (.setCommitEpoch commit epoch))
    (h : s.setCommitEpoch handle commit epoch p = .continues s' p') :
    Goes s s' handle (.setCommitEpoch commit epoch) p' := by
  cases p with
  | begun =>
      simp only [State.setCommitEpoch] at h
      split at h
      · contradiction
      next row hrow =>
        by_cases hheld : s.epochLock epoch ≠ none
        · rw [if_pos hheld] at h
          contradiction
        · rw [if_neg hheld] at h
          by_cases hclosed : row.status = .sealed ∨ row.status = .archived
          · rw [if_pos hclosed] at h
            contradiction
          · rw [if_neg hclosed] at h
            obtain ⟨rfl, rfl⟩ := Effect.continues.inj h
            have hactive : row.status = .active := by
              cases hstatus : row.status <;> simp [hstatus] at hclosed ⊢
            refine ⟨⟨rfl, ?_, fun _ _ _ h => h, fun _ h => h⟩, rfl, rfl, rfl,
              fun _ => ⟨Function.update_self _ _ _, row, hrow, hactive⟩⟩
            intro e k hlock
            refine (Function.update_of_ne ?_ _ _).trans hlock
            rintro rfl
            simp [hlock] at hheld
  | locked =>
      have hrest : ∀ p', Stands s handle p' (.setCommitEpoch commit epoch) :=
        fun _ _ => hstands trivial
      simp only [State.setCommitEpoch] at h
      split at h
      · obtain ⟨rfl, rfl⟩ := Effect.continues.inj h
        exact goes_self (hrest _)
      · split at h
        · obtain ⟨rfl, rfl⟩ := Effect.continues.inj h
          exact goes_self (hrest _)
        · split at h
          · contradiction
          · obtain ⟨rfl, rfl⟩ := Effect.continues.inj h
            exact ⟨⟨rfl, fun _ _ h => h, fun _ _ _ h => h, fun _ h => h⟩, rfl,
              rfl, rfl, fun _ => hstands trivial⟩
  | joined =>
      have hrest : ∀ p', Stands s handle p' (.setCommitEpoch commit epoch) :=
        fun _ _ => hstands trivial
      simp only [State.setCommitEpoch] at h
      split at h
      · obtain ⟨rfl, rfl⟩ := Effect.continues.inj h
        exact goes_self (hrest _)
      · split at h
        · obtain ⟨rfl, rfl⟩ := Effect.continues.inj h
          exact goes_self (hrest _)
        · contradiction
  | missed => contradiction
  | checked => contradiction
  | counted => contradiction
  | unjoined => contradiction

theorem updateEpochWhere_continues {id : String} {meets : EpochRow Id → Bool}
    {write : EpochRow Id → EpochRow Id} {otherwise : Effect Id}
    (h : s.updateEpochWhere c id meets write otherwise = .continues s' p) :
    otherwise = .continues s' p := by
  unfold State.updateEpochWhere at h
  split at h
  · exact h
  · split at h
    · split at h <;> contradiction
    · exact h

theorem epochLookup_continues {id : String} {found : Answer} :
    s.epochLookup id found ≠ .continues s' p := by
  unfold State.epochLookup
  split <;> simp

theorem sealEpoch_continues {id summary : String} {sealedAt : ℤ}
    {sealedCommits : List Id} {sealHash : Id}
    (h : s.sealEpoch id summary sealedAt sealedCommits sealHash p =
      .continues s' p') : s = s' := by
  cases p with
  | begun => exact (Effect.continues.inj (updateEpochWhere_continues h)).1
  | _ => exact absurd h epochLookup_continues

theorem assignEpochNamespace_continues {id ns : String}
    (h : s.assignEpochNamespace id ns p = .continues s' p') : s = s' := by
  cases p with
  | begun => exact (Effect.continues.inj (updateEpochWhere_continues h)).1
  | _ => exact absurd h epochLookup_continues

theorem endSession_continues {id : String} {status : Sessions.Status}
    {endedAt : ℤ} (h : s.endSession id status endedAt p = .continues s' p') :
    s = s' := by
  cases p with
  | begun =>
      simp only [State.endSession] at h
      split at h
      · exact (Effect.continues.inj h).1
      · split at h
        · contradiction
        · exact (Effect.continues.inj h).1
  | _ =>
      simp only [State.endSession] at h
      split at h <;> contradiction

theorem resolveTaint_continues {id resolvedBy reason : String}
    {proof : Option String} {resolvedAt : ℤ}
    (h : s.resolveTaint id resolvedBy reason proof resolvedAt p =
      .continues s' p') : s = s' ∧ (s.tables.taints id).isSome := by
  cases p with
  | begun =>
      simp only [State.resolveTaint] at h
      split at h
      · contradiction
      next row hrow =>
        split at h
        · contradiction
        · exact ⟨(Effect.continues.inj h).1, by simp [hrow]⟩
  | checked =>
      simp only [State.resolveTaint] at h
      split at h <;> contradiction
  | missed => contradiction
  | locked => contradiction
  | joined => contradiction
  | counted => contradiction
  | unjoined => contradiction

theorem statement_continues [DecidableEq Id]
    (hstands : Stands s handle p c)
    (h : s.statement handle c p = .continues s' p') :
    Goes s s' handle c p' := by
  cases c with
  | setCommitEpoch => exact setCommitEpoch_continues hstands h
  | sealEpoch =>
      obtain rfl := sealEpoch_continues h
      exact goes_self trivial
  | archiveEpoch id =>
      cases p with
      | begun => exact absurd (updateEpochWhere_continues h) (by simp)
      | _ => contradiction
  | assignEpochNamespace =>
      obtain rfl := assignEpochNamespace_continues h
      exact goes_self trivial
  | endSession =>
      obtain rfl := endSession_continues h
      exact goes_self hstands
  | resolveTaint =>
      obtain ⟨rfl, hrow⟩ := resolveTaint_continues h
      exact goes_self fun _ => hrow

/-! ## Steps -/

theorem stands_of_frame (hinv : Inv s) (hframe : Frame s s')
    {at_ : Option (Call Id × Point)}
    (hat : ∀ c p, at_ = some (c, p) → Stands s' handle p c) {k : ℕ}
    (h : (s'.goTo handle at_).running k = some (c, p)) : Stands s' k p c := by
  have hat' : Function.update s'.running handle at_ k = some (c, p) := h
  by_cases hsame : k = handle
  · rw [hsame, Function.update_self] at hat'
    exact hsame ▸ hat c p hat'
  · have hk : s.running k = some (c, p) := by
      rw [Function.update_of_ne hsame, hframe.running] at hat'
      exact hat'
    exact (hinv.stands k c p hk).frame hframe

theorem stands_finish (hinv : Inv s) (hframe : Frame s s') {k : ℕ}
    (h : (s'.finish handle).running k = some (c, p)) :
    Stands (s'.finish handle) k p c := by
  have hne : k ≠ handle := by
    rintro rfl
    have hnone : (s'.finish k).running k = none := Function.update_self _ _ _
    simp [hnone] at h
  have hnone : ∀ c p, (none : Option (Call Id × Point)) = some (c, p) →
      Stands s' handle p c := by simp
  have hk : Stands s' k p c := stands_of_frame hinv hframe hnone h
  cases c with
  | setCommitEpoch commit epoch =>
      intro hp
      obtain ⟨hlock, hopen⟩ := hk hp
      refine ⟨?_, hopen⟩
      have hother : s'.epochLock epoch ≠ some handle := by
        rw [hlock]
        simpa using hne
      exact (if_neg hother).trans hlock
  | _ => exact hk

theorem nodup_cons_transition (hinv : Inv s)
    (hfresh : ∀ t, c.transition = some t → ¬Done s t) :
    ((c :: s.landed).filterMap Call.transition).Nodup := by
  cases htransition : c.transition with
  | none => simpa [List.filterMap_cons, htransition] using hinv.once
  | some t =>
      rw [List.filterMap_cons_some htransition, List.nodup_cons]
      refine ⟨?_, hinv.once⟩
      intro hmem
      obtain ⟨c', hlanded, hc'⟩ := List.mem_filterMap.mp hmem
      exact hfresh t htransition (done_of_landed hinv hlanded hc')

theorem inv_finish_of_lands (hinv : Inv s) (hstands : Stands s handle p c)
    (h : Lands s s' c) :
    Inv (s'.finish handle) ∧ Inv ((s'.finish handle).report c) := by
  have hended : ∀ id endedAt, .endSession id .active endedAt ∉ s'.landed := by
    intro id endedAt hmem
    rw [h.landed] at hmem
    rcases List.mem_cons.mp hmem with rfl | hmem
    · exact hstands rfl
    · exact hinv.ended id endedAt hmem
  have honce : (s'.landed.filterMap Call.transition).Nodup := by
    rw [h.landed]
    exact nodup_cons_transition hinv h.fresh
  have hholds : ∀ c' ∈ s'.landed, Holds s' c' := by
    rw [h.landed]
    exact h.holds
  have hheard : s'.reported.Sublist s.landed := by
    rw [h.reported]
    exact hinv.heard
  refine ⟨⟨honce, hholds, hended, ?_, fun _ _ _ => stands_finish hinv h.frame⟩,
    ⟨honce, hholds, hended, ?_, fun _ _ _ => stands_finish hinv h.frame⟩⟩
  · rw [show (s'.finish handle).landed = c :: s.landed from h.landed]
    exact hheard.cons c
  · rw [show ((s'.finish handle).report c).landed = c :: s.landed
      from h.landed]
    exact hheard.cons_cons c

end

omit [DecidableEq Id] in
theorem inv_of_frame (hinv : Inv s) (htables : s'.tables = s.tables)
    (hlanded : s'.landed = s.landed) (hreported : s'.reported = s.reported)
    (hstands : ∀ k c p, s'.running k = some (c, p) → Stands s' k p c) :
    Inv s' := by
  refine ⟨by rw [hlanded]; exact hinv.once, ?_,
    by rw [hlanded]; exact hinv.ended,
    by rw [hlanded, hreported]; exact hinv.heard, hstands⟩
  intro c hmem
  rw [hlanded] at hmem
  have hholds := hinv.holds c hmem
  cases c with
  | setCommitEpoch => trivial
  | _ => simpa only [Holds, htables, hlanded] using hholds

omit [DecidableEq Id] in
theorem inv_start (tables : Tables Id) : Inv (State.start tables) := by
  constructor <;> simp [State.start]

theorem inv_step (hinv : Inv s) {op : Op Id} (hproper : Proper s op) :
    Inv (s.step op) ∧ JoinsOpen s (s.step op) := by
  have hself : Frame s s :=
    ⟨rfl, fun _ _ h => h, fun _ _ _ h => h, fun _ h => h⟩
  cases op with
  | drop handle =>
      exact ⟨inv_of_frame hinv rfl rfl rfl
        fun _ _ _ => stands_finish hinv hself, joinsOpen_of_commits rfl⟩
  | call handle c =>
      simp only [State.step]
      split
      · refine ⟨inv_of_frame hinv rfl rfl rfl fun _ _ _ h => ?_,
          joinsOpen_of_commits rfl⟩
        refine stands_of_frame hinv hself ?_ h
        rintro _ _ ⟨⟩
        cases c with
        | setCommitEpoch => exact False.elim
        | endSession => exact hproper
        | resolveTaint => exact fun h => Point.noConfusion h
        | _ => trivial
      · exact ⟨hinv, joinsOpen_of_commits rfl⟩
  | next handle delivered =>
      simp only [State.step]
      split
      · exact ⟨hinv, joinsOpen_of_commits rfl⟩
      next c p hrun =>
        have hstands := hinv.stands handle c p hrun
        split
        next => exact ⟨hinv, joinsOpen_of_commits rfl⟩
        next s' p' hgoes =>
          have hs' := statement_continues hstands hgoes
          have hjoins : s'.tables.commits = s.tables.commits := by
            rw [hs'.tables]
          split
          · refine ⟨inv_of_frame hinv hs'.tables hs'.landed hs'.reported
              fun _ _ _ h => ?_, joinsOpen_of_commits hjoins⟩
            refine stands_of_frame hinv hs'.frame ?_ h
            rintro _ _ ⟨⟩
            exact hs'.stands
          · exact ⟨inv_of_frame hinv hs'.tables hs'.landed hs'.reported
              fun _ _ _ => stands_finish hinv hs'.frame,
              joinsOpen_of_commits hjoins⟩
        next s' a hreturns =>
          have hopen : ∀ id, c.transition = some (.resolve id) →
              p = .checked →
              ∀ row ∈ s.tables.taints id, row.resolvedAt = none := by
            rintro id htransition rfl
            cases c with
            | resolveTaint id' =>
                obtain rfl : id' = id := by
                  simpa [Call.transition] using htransition
                simpa only [Proper, hrun] using hproper
            | _ => simp [Call.transition] at htransition
          rcases statement_returns hinv hstands hopen hreturns with
            ⟨rfl, hfailed⟩ | ⟨rfl, hlands⟩
          · have hquiet : ¬(delivered = true ∧ a = .ok) := fun h => hfailed h.2
            rw [if_neg hquiet]
            exact ⟨inv_of_frame hinv rfl rfl rfl
              fun _ _ _ => stands_finish hinv hself, joinsOpen_of_commits rfl⟩
          · obtain ⟨hquiet, hreport⟩ := inv_finish_of_lands hinv hstands hlands
            split
            · exact ⟨hreport, hlands.joins⟩
            · exact ⟨hquiet, hlands.joins⟩

omit [DecidableEq Id] in
theorem Inv.oneWinner (h : Inv s) : OneWinner s :=
  ⟨h.once.sublist (h.heard.filterMap _),
    fun c hmem => h.holds c (h.heard.subset hmem)⟩

/-- Where no call ends a session as active, and no taint is resolved by another
call between the look and the update of a resolution, at most one call of each
transition reports success, its values stand in every later state, and commits
join open epochs only. -/
theorem guarded_transitions (tables : Tables Id) (ops : List (Op Id))
    (hproper : StepRuns.Throughout State.step (State.start tables) ops
      Proper) :
    (∀ before, before <+: ops →
      OneWinner (StepRuns.run State.step (State.start tables) before)) ∧
    StepRuns.Throughout State.step (State.start tables) ops
      fun s op => JoinsOpen s (s.step op) := by
  have hinv : ∀ before, before <+: ops →
      Inv (StepRuns.run State.step (State.start tables) before) := by
    intro before hpre
    exact StepRuns.invariant_prefix (inv_start tables)
      (fun s op hinv hproper => (inv_step hinv hproper).1) hproper hpre
  refine ⟨fun before hpre => (hinv before hpre).oneWinner, ?_⟩
  rintro before op after rfl
  exact (inv_step (hinv before (List.prefix_append _ _))
    (hproper before op after rfl)).2

instance (s : State Id) (op : Op Id) : Decidable (Proper s op) := by
  unfold Proper
  split
  · infer_instance
  · split <;> infer_instance
  · infer_instance

/-! ### Calls on one row -/

namespace OneRow

/-- An open epoch, an active session and a taint that stands. -/
def tables : Tables ℕ where
  epochs := fun id =>
    if id = "e" then some ⟨.active, none, none, [], none, 0, none⟩ else none
  sessions := fun id => if id = "s" then some ⟨.active, none⟩ else none
  taints := fun id => if id = "t" then some ⟨none, none, none, none⟩ else none
  commits := fun c => if c = 7 then some none else none

def after (ops : List (Op ℕ)) : State ℕ :=
  StepRuns.run State.step (State.start tables) ops

/-- A seal waits for the commit that joins; the second seal, the second end
and the second resolution come too late. -/
def inTurn : List (Op ℕ) :=
  [.call 0 (.setCommitEpoch 7 "e"), .next 0 true,
    .call 1 (.sealEpoch "e" "done" 1 [7] 9), .next 1 true,
    .next 0 true, .next 0 true, .next 0 true,
    .call 2 (.sealEpoch "e" "again" 2 [] 8), .next 1 true, .next 2 true,
    .next 2 true,
    .call 3 (.endSession "s" .completed 1),
    .call 4 (.endSession "s" .abandoned 2), .next 3 true, .next 4 true,
    .next 4 true,
    .call 5 (.resolveTaint "t" "ann" "fixed" none 1), .next 5 true,
    .next 5 true,
    .call 6 (.resolveTaint "t" "bob" "wontfix" none 2), .next 6 true]

/-- Both calls look before either writes. -/
def bothResolve : List (Op ℕ) :=
  [.call 0 (.resolveTaint "t" "ann" "fixed" none 1),
    .call 1 (.resolveTaint "t" "bob" "wontfix" none 2),
    .next 0 true, .next 1 true, .next 0 true, .next 1 true]

/-- A session is ended as active. -/
def endedActive : List (Op ℕ) :=
  [.call 0 (.endSession "s" .active 1), .next 0 true,
    .call 1 (.endSession "s" .completed 2), .next 1 true]

end OneRow

open OneRow in
theorem guarded_transitions_inTurn :
    (after inTurn).reported.map Call.transition =
      [some (.resolve "t"), some (.finish "s"), some (.seal "e"), none] ∧
    OneWinner (after inTurn) := by
  refine ⟨by decide, ?_⟩
  refine (guarded_transitions tables inTurn ?_).1 inTurn List.prefix_rfl
  simp only [inTurn, StepRuns.throughout_cons_iff]
  refine ⟨?_, ?_, ?_, ?_, ?_, ?_, ?_, ?_, ?_, ?_, ?_, ?_, ?_, ?_, ?_, ?_, ?_,
    ?_, ?_, ?_, ?_, StepRuns.throughout_nil⟩ <;> decide

open OneRow in
/-- Two calls that resolve one taint both report success, and so do two that
end one session when the first leaves it active. -/
theorem two_winners :
    ¬OneWinner (after bothResolve) ∧ ¬OneWinner (after endedActive) := by
  have htwice : ∀ ops t,
      (after ops).reported.filterMap Call.transition = [t, t] →
      ¬OneWinner (after ops) := by
    intro ops t hreported h
    have honce := h.once
    rw [hreported] at honce
    simp at honce
  exact ⟨htwice bothResolve (.resolve "t") (by decide),
    htwice endedActive (.finish "s") (by decide)⟩

end PostgresRows

end AgentStateGraph
