import AgentStateGraph.Backend.MemoryTables
import AgentStateGraph.Core.ContentKey
import AgentStateGraph.Lib.StepRuns
import AgentStateGraph.Repo.Branches
import AgentStateGraph.Sync.BundleFormat

/-!
# Exporting an epoch

An epoch has two lists of commits: those that were tagged to it while it was
active, and those that its seal covers.  The export takes the tagged ones where
there are any, and the sealed ones only otherwise; a commit of its list that is
not stored it passes over.
-/

namespace AgentStateGraph

open Backend Bundles StepRuns

namespace EpochExport

variable {Id : Type} [Digest Id]

/-! ## The seal -/

/-- The bytes of an id, and the hash of some bytes as an id. -/
structure SealDigest (Id : Type) where
  asBytes : Id → Bytes
  hash : Bytes → Id

/-- Over the sealed ids in the order of their bytes, after the id of the
epoch. -/
def computeSealHash (digest : SealDigest Id) (id : String)
    (sealedCommits : List Id) : Id :=
  let ids := sealedCommits.insertionSort
    fun a b => digest.asBytes a ≤ digest.asBytes b
  digest.hash (stringBytes "asg-epoch-seal-v1\x00" ++ stringBytes id ++ [0] ++
    ids.flatMap digest.asBytes)

/-! ## The store -/

/-- The commits and refs, the epochs, and the seals that were begun: what a
caller is about to seal, and under which id. -/
structure State (W Id : Type) [Digest Id] where
  base : Storage Id
  table : EpochTable Id
  pending : W → Option (String × List Id)

variable {W : Type} [DecidableEq W]

namespace State

variable (s : State W Id)

def setPending (w : W) (p : Option (String × List Id)) : State W Id :=
  { s with pending := fun w' => if w' = w then p else s.pending w' }

/-- `create_epoch_scoped`. -/
def createEpoch (ns id description : String) (rootIntents : List String)
    (scope : EpochScope) (now : ℤ) : State W Id :=
  let epoch : EpochRow Id :=
    { id := id
      description := description
      rootIntents := rootIntents
      status := .active
      createdAt := now
      sealedAt := none
      sealSummary := none
      sealHash := none
      commits := []
      agents := []
      branches := []
      tags := []
      sealedCommits := []
      scope := scope
      namespace_ := some ns }
  match s.table.createEpoch epoch with
  | .ok table => { s with table := table }
  | .error _ => s

/-- The commits that `seal_epoch` is going to seal. -/
def commitsToSeal (ns : String) (epoch : EpochRow Id) :
    Except StorageError (List Id) :=
  match epoch.scope.sealRef with
  | some refName => do
      match ← s.base.getRef ns refName with
      | some head => .ok (s.base.commits.ancestry [head])
      | none => .ok []
  | none => .ok epoch.commits

/-- The first half of `seal_epoch`. -/
def beginSeal (w : W) (ns id : String) : State W Id :=
  match s.table.getEpoch id with
  | none => s.setPending w none
  | some epoch =>
      match s.commitsToSeal ns epoch with
      | .ok sealedCommits => s.setPending w (some (id, sealedCommits))
      | .error _ => s.setPending w none

/-- The second half: the epoch is sealed over the commits that were looked
up. -/
def endSeal (digest : SealDigest Id) (w : W) (summary : String) (now : ℤ) :
    State W Id :=
  match s.pending w with
  | none => s
  | some (id, sealedCommits) =>
      match s.table.sealEpoch id summary now sealedCommits
          (computeSealHash digest id sealedCommits) with
      | .ok table => { s with table := table }.setPending w none
      | .error _ => s.setPending w none

end State

/-- What is done to a store; anything else leaves the epochs. -/
inductive Action (W Id : Type) [Digest Id] where
  | create (ns id description : String) (rootIntents : List String)
      (scope : EpochScope) (now : ℤ)
  | tag (commit : Id) (epochId : String)
  | beginSeal (w : W) (ns id : String)
  | endSeal (w : W) (summary : String) (now : ℤ)
  | assign (id ns : String)
  | archive (id : String)
  | other (base : Storage Id)

def step (digest : SealDigest Id) (s : State W Id) :
    Action W Id → State W Id
  | .create ns id description rootIntents scope now =>
      s.createEpoch ns id description rootIntents scope now
  | .tag commit epochId =>
      match s.table.setCommitEpoch commit epochId with
      | .ok table => { s with table := table }
      | .error _ => s
  | .beginSeal w ns id => s.beginSeal w ns id
  | .endSeal w summary now => s.endSeal digest w summary now
  | .assign id ns =>
      match s.table.assignEpochNamespace id ns with
      | .ok (_, table) => { s with table := table }
      | .error _ => s
  | .archive id =>
      match s.table.archiveEpoch id with
      | .ok table => { s with table := table }
      | .error _ => s
  | .other base => { s with base := base }

/-- A store without epochs. -/
def start (base : Storage Id) : State W Id :=
  ⟨base, EpochTable.empty, fun _ => none⟩

/-! ## The export -/

structure ExportBundle (Id : Type) [Digest Id] where
  agentstategraphExportVersion : ℕ
  epoch : EpochRow Id
  commits : List (Commit Id)
  exportedAt : ℤ

/-- Reads a commit; the backend may fail it. -/
abbrev GetCommit (Id : Type) [Digest Id] :=
  Id → Except StorageError (Option (Commit Id))

/-- The records of the commits that are found. -/
def foundCommits (getCommit : GetCommit Id) :
    List Id → Except StorageError (List (Commit Id))
  | [] => .ok []
  | cid :: cids => do
      let commit ← getCommit cid
      let rest ← foundCommits getCommit cids
      .ok (commit.toList ++ rest)

def exportEpoch (table : EpochTable Id) (getCommit : GetCommit Id) (id : String)
    (now : ℤ) : Except (RepoError Id) (ExportBundle Id) :=
  match table.getEpoch id with
  | none => .error (.refNotFound ("epoch not found: " ++ id))
  | some epoch =>
      if epoch.status = .active then
        .error (.invalidOperation
          "cannot export an active epoch; seal it first")
      else do
        let commitIds :=
          if epoch.commits.isEmpty then epoch.sealedCommits else epoch.commits
        let commits ← liftStorage (foundCommits getCommit commitIds)
        .ok
          { agentstategraphExportVersion := 1
            epoch := epoch
            commits := commits
            exportedAt := now }

/-- The reads of a store, some of which the backend fails. -/
def readsOf (base : Storage Id) (faults : Id → Option StorageError) :
    GetCommit Id :=
  fun id =>
    match faults id with
    | some e => .error e
    | none => .ok (base.getCommit id)

/-! ## What a bundle holds -/

namespace ExportBundle

variable (b : ExportBundle Id)

/-- The exported record of a commit. -/
def recordOf (id : Id) : Option (Commit Id) := b.commits.find? fun c => c.id = id

/-- The seal hash, computed from the records that the sealed list names. -/
def recomputedHash (digest : SealDigest Id) : Id :=
  computeSealHash digest b.epoch.id
    ((b.epoch.sealedCommits.filterMap b.recordOf).map Commit.id)

/-- Every commit the epoch sealed or was tagged with is there, and the records
give its seal hash. -/
structure SelfContained (digest : SealDigest Id) (e : EpochRow Id) : Prop where
  epoch : b.epoch = e
  sealed_ : ∀ c ∈ e.sealedCommits, (b.recordOf c).isSome = true
  tagged : ∀ c ∈ e.commits, (b.recordOf c).isSome = true
  sealHash : e.sealHash = some (b.recomputedHash digest)

end ExportBundle

/-- The export failed, or its bundle is self-contained. -/
def FailsOrContained (digest : SealDigest Id) (e : EpochRow Id) :
    Except (RepoError Id) (ExportBundle Id) → Prop
  | .error _ => True
  | .ok b => b.SelfContained digest e

/-- Nothing was tagged to the epoch or everything it sealed was, and all of it
is stored. -/
structure Whole (base : Storage Id) (e : EpochRow Id) : Prop where
  tagged : e.commits = [] ∨ e.sealedCommits ⊆ e.commits
  stored : ∀ c, c ∈ e.sealedCommits ∨ c ∈ e.commits →
    (base.getCommit c).isSome = true

/-- A commit of the list that is exported cannot be read. -/
def Faulty (faults : Id → Option StorageError) (e : EpochRow Id) : Prop :=
  ∃ c, (c ∈ e.commits ∨ e.commits = [] ∧ c ∈ e.sealedCommits) ∧
    (faults c).isSome = true

/-! ## The seal hash along a run -/

/-- Every epoch that is no longer active has the hash of what it sealed. -/
def Hashed (digest : SealDigest Id) (t : EpochTable Id) : Prop :=
  ∀ id e, t.find id = some e → e.status ≠ .active →
    e.sealHash = some (computeSealHash digest e.id e.sealedCommits)

section Runs

variable {digest : SealDigest Id} {t t' : EpochTable Id}

omit [Digest Id] in
theorem hashed_modify (h : Hashed digest t) {id : String}
    {f : EpochRow Id → EpochRow Id} (hid : ∀ e, (f e).id = e.id)
    (hf : ∀ e, t.find id = some e → (f e).status ≠ .active →
      (f e).sealHash =
        some (computeSealHash digest (f e).id (f e).sealedCommits)) :
    Hashed digest (t.modify id f) := by
  intro id' e hfind hstatus
  rw [EpochTable.find_modify t id hid] at hfind
  split at hfind
  · obtain ⟨e', he', rfl⟩ := Option.map_eq_some_iff.mp hfind
    exact hf e' he' hstatus
  · exact h id' e hfind hstatus

omit [Digest Id] in
theorem hashed_createEpoch (h : Hashed digest t) {e : EpochRow Id}
    (hactive : e.status = .active) (hok : t.createEpoch e = .ok t') :
    Hashed digest t' := by
  unfold EpochTable.createEpoch at hok
  split at hok
  · contradiction
  · rw [← Except.ok.inj hok]
    intro id e' hfind hstatus
    rw [EpochTable.find_append, Option.or_eq_some_iff] at hfind
    rcases hfind with hfind | ⟨-, hfind⟩
    · exact h id e' hfind hstatus
    · split at hfind
      · rw [← Option.some.inj hfind] at hstatus
        exact absurd hactive hstatus
      · contradiction

omit [Digest Id] in
theorem hashed_sealEpoch (h : Hashed digest t) {id summary : String} {now : ℤ}
    {sealedCommits : List Id}
    (hok : t.sealEpoch id summary now sealedCommits
      (computeSealHash digest id sealedCommits) = .ok t') :
    Hashed digest t' := by
  unfold EpochTable.sealEpoch at hok
  split at hok
  · contradiction
  · split at hok
    · contradiction
    · rw [← Except.ok.inj hok]
      refine hashed_modify h (fun _ => rfl) ?_
      intro e he _
      rw [← EpochTable.id_of_find he]

omit [Digest Id] in
theorem hashed_assign (h : Hashed digest t) {id ns : String} {assigned : Bool}
    (hok : t.assignEpochNamespace id ns = .ok (assigned, t')) :
    Hashed digest t' := by
  unfold EpochTable.assignEpochNamespace at hok
  split at hok
  · contradiction
  · split at hok
    · rw [Except.ok.injEq, Prod.mk.injEq] at hok
      rw [← hok.2]
      exact h
    · rw [Except.ok.injEq, Prod.mk.injEq] at hok
      rw [← hok.2]
      exact hashed_modify h (fun _ => rfl) fun e he => h id e he

omit [Digest Id] in
theorem hashed_archiveEpoch (h : Hashed digest t) {id : String}
    (hok : t.archiveEpoch id = .ok t') : Hashed digest t' := by
  unfold EpochTable.archiveEpoch at hok
  split at hok
  · contradiction
  next e hfind =>
    split at hok
    · contradiction
    next hsealed =>
      rw [← Except.ok.inj hok]
      refine hashed_modify h (fun _ => rfl) ?_
      intro e' he' _
      rw [hfind, Option.some.injEq] at he'
      subst he'
      refine h id e hfind ?_
      rw [not_not.mp hsealed]
      exact EpochStatus.noConfusion

theorem hashed_setCommitEpoch (h : Hashed digest t) {commit : Id} {id : String}
    (hok : t.setCommitEpoch commit id = .ok t') : Hashed digest t' := by
  unfold EpochTable.setCommitEpoch at hok
  split at hok
  · contradiction
  · split at hok
    · contradiction
    · rw [← Except.ok.inj hok]
      exact h

theorem hashed_step (s : State W Id) (a : Action W Id)
    (h : Hashed digest s.table) : Hashed digest (step digest s a).table := by
  cases a with
  | create ns id description rootIntents scope now =>
      simp only [step, State.createEpoch]
      split
      next t' hok => exact hashed_createEpoch h rfl hok
      next => exact h
  | tag commit epochId =>
      simp only [step]
      split
      next t' hok => exact hashed_setCommitEpoch h hok
      next => exact h
  | beginSeal w ns id =>
      simp only [step, State.beginSeal]
      split
      · exact h
      · split <;> exact h
  | endSeal w summary now =>
      simp only [step, State.endSeal]
      split
      · exact h
      · split
        next t' hok => exact hashed_sealEpoch h hok
        next => exact h
  | assign id ns =>
      simp only [step]
      split
      next t' hok => exact hashed_assign h hok
      next => exact h
  | archive id =>
      simp only [step]
      split
      next t' hok => exact hashed_archiveEpoch h hok
      next => exact h
  | other base => exact h

theorem hashed_run (base : Storage Id) (actions : List (Action W Id)) :
    Hashed digest (run (step digest) (start base) actions).table := by
  refine invariant_run (I := fun s : State W Id => Hashed digest s.table)
    (A := fun _ _ => True) ?_ (fun s a h _ => hashed_step s a h)
    (throughout_of_forall fun _ _ _ => trivial)
  intro id e hfind
  simp [start, EpochTable.empty, EpochTable.find] at hfind

/-! ## The bundle -/

variable {base : Storage Id} {faults : Id → Option StorageError}

variable {ids : List Id} {b : ExportBundle Id}

theorem foundCommits_readsOf (h : ∀ c ∈ ids, faults c = none) :
    foundCommits (readsOf base faults) ids =
      .ok (ids.filterMap base.getCommit) := by
  induction ids with
  | nil => rfl
  | cons c ids ih =>
      rw [List.forall_mem_cons] at h
      have hread : readsOf base faults c = .ok (base.getCommit c) := by
        simp only [readsOf, h.1]
      rw [foundCommits, hread, ih h.2]
      cases hget : base.getCommit c <;> simp [hget]

theorem foundCommits_faulty {ids : List Id}
    (h : ∃ c ∈ ids, (faults c).isSome = true) :
    ∃ e, foundCommits (readsOf base faults) ids = .error e := by
  induction ids with
  | nil => simp at h
  | cons c ids ih =>
      rw [foundCommits]
      cases hfault : faults c with
      | some e =>
          have hread : readsOf base faults c = .error e := by
            simp only [readsOf, hfault]
          exact ⟨e, by rw [hread]; rfl⟩
      | none =>
          have hread : readsOf base faults c = .ok (base.getCommit c) := by
            simp only [readsOf, hfault]
          rw [List.exists_mem_cons_iff] at h
          obtain ⟨e, he⟩ := ih (h.resolve_left (by simp [hfault]))
          exact ⟨e, by rw [hread, he]; rfl⟩

theorem recordOf_isSome_iff (hb : b.commits = ids.filterMap base.getCommit)
    {c : Id} :
    (b.recordOf c).isSome = true ↔
      c ∈ ids ∧ (base.getCommit c).isSome = true := by
  rw [ExportBundle.recordOf, hb, List.find?_isSome]
  constructor
  · rintro ⟨r, hr, hid⟩
    obtain ⟨c', hc', hget⟩ := List.mem_filterMap.mp hr
    have hid' : r.id = c' := CommitStore.id_eq_of_get hget
    have hsame : c' = c := by rw [← hid', of_decide_eq_true hid]
    rw [← hsame, hget]
    exact ⟨hc', rfl⟩
  · rintro ⟨hc, hstored⟩
    obtain ⟨r, hr⟩ := Option.isSome_iff_exists.mp hstored
    have hid : r.id = c := CommitStore.id_eq_of_get hr
    exact ⟨r, List.mem_filterMap.mpr ⟨c, hc, hr⟩, by simpa using hid⟩

theorem ids_of_records (h : ∀ c ∈ ids, (b.recordOf c).isSome = true) :
    (ids.filterMap b.recordOf).map Commit.id = ids := by
  induction ids with
  | nil => rfl
  | cons c ids ih =>
      rw [List.forall_mem_cons] at h
      obtain ⟨r, hr⟩ := Option.isSome_iff_exists.mp h.1
      have hid : r.id = c := by
        simpa using List.find?_some hr
      rw [List.filterMap_cons_some hr, List.map_cons, ih h.2, hid]

theorem selfContained_iff {e : EpochRow Id} (hepoch : b.epoch = e)
    (hcommits : b.commits = (if e.commits.isEmpty then e.sealedCommits
      else e.commits).filterMap base.getCommit)
    (hhash : e.sealHash = some (computeSealHash digest e.id e.sealedCommits)) :
    b.SelfContained digest e ↔ Whole base e := by
  have hrecord : ∀ c, (b.recordOf c).isSome = true ↔ _ :=
    fun c => recordOf_isSome_iff hcommits
  constructor
  · intro h
    refine ⟨?_, ?_⟩
    · cases hempty : e.commits.isEmpty with
      | true => exact Or.inl (List.isEmpty_iff.mp hempty)
      | false =>
          refine Or.inr fun c hc => ?_
          simpa [hempty] using ((hrecord c).mp (h.sealed_ c hc)).1
    · rintro c (hc | hc)
      · exact ((hrecord c).mp (h.sealed_ c hc)).2
      · exact ((hrecord c).mp (h.tagged c hc)).2
  · intro h
    have hall : ∀ c, c ∈ e.sealedCommits ∨ c ∈ e.commits →
        (b.recordOf c).isSome = true := by
      intro c hc
      refine (hrecord c).mpr ⟨?_, h.stored c hc⟩
      rcases h.tagged with hnone | hsub
      · simpa [hnone] using hc
      · have hmem : c ∈ e.commits := hc.elim (fun hc => hsub hc) id
        rw [if_neg (by simp [List.ne_nil_of_mem hmem])]
        exact hmem
    refine ⟨hepoch, fun c hc => hall c (Or.inl hc),
      fun c hc => hall c (Or.inr hc), ?_⟩
    rw [ExportBundle.recomputedHash, hepoch,
      ids_of_records fun c hc => hall c (Or.inl hc)]
    exact hhash

/-- Along every run, the bundle of a sealed epoch is self-contained exactly
when nothing was tagged to the epoch or everything it sealed was, and all of it
is stored. -/
theorem export_contained_iff (digest : SealDigest Id) (base : Storage Id)
    (actions : List (Action W Id)) (faults : Id → Option StorageError)
    (id : String) (e : EpochRow Id) (now : ℤ)
    (he : (run (step digest) (start base) actions).table.getEpoch id = some e)
    (hsealed : e.status ≠ .active) :
    FailsOrContained digest e
        (exportEpoch (run (step digest) (start base) actions).table
          (readsOf (run (step digest) (start base) actions).base faults) id
          now) ↔
      Faulty faults e ∨
        Whole (run (step digest) (start base) actions).base e := by
  set s := run (step digest) (start base) actions with hs
  have hhash : e.sealHash =
      some (computeSealHash digest e.id e.sealedCommits) := by
    obtain ⟨row, hrow, rfl⟩ := Option.map_eq_some_iff.mp he
    exact hashed_run base actions id row hrow hsealed
  simp only [exportEpoch, he, if_neg hsealed]
  set ids := if e.commits.isEmpty then e.sealedCommits else e.commits with hids
  have hfaulty : Faulty faults e ↔ ∃ c ∈ ids, (faults c).isSome = true := by
    cases hempty : e.commits.isEmpty with
    | true => simp [Faulty, hids, List.isEmpty_iff.mp hempty]
    | false =>
        have hne : e.commits ≠ [] := by simpa using hempty
        simp [Faulty, hids, hne]
  by_cases hfault : Faulty faults e
  · obtain ⟨err, herr⟩ :=
      @foundCommits_faulty _ _ s.base _ _ (hfaulty.mp hfault)
    simp only [herr, liftStorage, hfault, true_or, iff_true]
    trivial
  · have hnone : ∀ c ∈ ids, faults c = none := by
      intro c hc
      by_contra hsome
      exact hfault (hfaulty.mpr ⟨c, hc, Option.isSome_iff_ne_none.mpr hsome⟩)
    simp only [foundCommits_readsOf hnone, liftStorage, hfault, false_or]
    exact selfContained_iff rfl rfl hhash

end Runs

/-! ## A release cut on a branch with a history -/

namespace Release

open ContentKey

/-- The code of an id for its bytes, and the bytes for a hash. -/
def digest : SealDigest ContentKey where
  asBytes k := k.code.map UInt8.ofNat
  hash bytes := ⟨bytes.map UInt8.toNat⟩

def first : Commit ContentKey := commitOf Object.emptyMap [] 0

def second : Commit ContentKey := commitOf Object.emptyMap [first] 1

/-- `main` at the second of two commits. -/
def base : Storage ContentKey :=
  ({ Storage.new with
      objects := AddressedMap.empty.putAll [Object.emptyMap]
      commits := AddressedMap.empty.putAll [first, second] } :
    Storage ContentKey).putRef "default" "main" second.id

/-- The epoch is opened, the given commits are tagged to it, and it is
sealed. -/
def actions (tagged : List ContentKey) : List (Action Unit ContentKey) :=
  [.create "default" "r" "release" [] .all 0] ++
    tagged.map (fun c => .tag c "r") ++
    [.beginSeal () "default" "r", .endSeal () "done" 1]

/-- The store after the seal. -/
def cut (tagged : List ContentKey) : State Unit ContentKey :=
  run (step digest) (start base) (actions tagged)

def exported (tagged : List ContentKey) :
    Except (RepoError ContentKey) (ExportBundle ContentKey) :=
  exportEpoch (cut tagged).table (readsOf (cut tagged).base fun _ => none) "r" 2

def holdsRecord (id : ContentKey) :
    Except (RepoError ContentKey) (ExportBundle ContentKey) → Bool
  | .ok b => (b.recordOf id).isSome
  | .error _ => true

end Release

set_option maxRecDepth 16384 in
open Release in
/-- With the second commit tagged to it, the sealed epoch covers both commits
and the bundle holds one. -/
theorem release_not_contained :
    ∃ e, (cut [second.id]).table.getEpoch "r" = some e ∧ e.status = .sealed ∧
      ¬FailsOrContained digest e (exported [second.id]) := by
  have hepoch : ((cut [second.id]).table.getEpoch "r").any (fun e =>
      e.status = .sealed && first.id ∈ e.sealedCommits) = true := by decide
  have hrecord : holdsRecord first.id (exported [second.id]) = false := by
    decide
  obtain ⟨e, he, hsealed⟩ := (Option.any_eq_true _ _).mp hepoch
  rw [Bool.and_eq_true, decide_eq_true_eq, decide_eq_true_eq] at hsealed
  refine ⟨e, he, hsealed.1, ?_⟩
  intro hcontained
  cases hexport : exported [second.id] with
  | error err =>
      rw [hexport] at hrecord
      contradiction
  | ok b =>
      rw [hexport] at hrecord hcontained
      have hsome := hcontained.sealed_ first.id hsealed.2
      simp [holdsRecord, hsome] at hrecord

set_option maxRecDepth 16384 in
open Release in
/-- With nothing tagged to it, the bundle holds all that the seal covers. -/
theorem export_contained_release :
    ∃ e, (cut []).table.getEpoch "r" = some e ∧ e.sealedCommits ≠ [] ∧
      FailsOrContained digest e (exported []) := by
  have hepoch : ((cut []).table.getEpoch "r").any (fun e =>
      e.status = .sealed && !e.sealedCommits.isEmpty && e.commits.isEmpty &&
        e.sealedCommits.all fun c => ((cut []).base.getCommit c).isSome) =
      true := by decide
  obtain ⟨e, he, hprops⟩ := (Option.any_eq_true _ _).mp hepoch
  simp only [Bool.and_eq_true, decide_eq_true_eq, Bool.not_eq_true',
    List.isEmpty_eq_false_iff, List.isEmpty_iff, List.all_eq_true] at hprops
  obtain ⟨⟨⟨hsealed, hne⟩, hnone⟩, hstored⟩ := hprops
  refine ⟨e, he, hne, ?_⟩
  have hactive : e.status ≠ .active := by
    rw [hsealed]
    exact EpochStatus.noConfusion
  refine (export_contained_iff digest base (actions []) (fun _ => none) "r" e 2
    he hactive).mpr (Or.inr ⟨Or.inl hnone, ?_⟩)
  intro c hc
  rw [hnone, List.mem_nil_iff, or_false] at hc
  exact hstored c hc

end EpochExport

end AgentStateGraph
