import AgentStateGraph.Core.ContentKey
import AgentStateGraph.Lib.RelyGuarantee
import AgentStateGraph.Repo.Speculation

/-!
# Concurrent writers

Any number of writers work on one store, each in steps: read the head, build
and store a commit on it, compare-and-swap the ref, and start over when it had
moved.  Whatever the interleaving, no commit that landed leaves the history of
its branch, and each one is its own operation applied to its recorded parent.
-/

namespace AgentStateGraph

open RelyGuarantee

variable {Id : Type} [Digest Id]

/-! ## Writers -/

/-- A write of an agent. -/
inductive WriteOp (Id : Type) where
  | set (refName path : String) (value : Object Id)
  | delete (refName path : String)
  | setJsonCas (refName : String) (expectedHead : Id) (path : String)
      (value : Json) (fired : List Escalation)
  | commitSpeculation (spec : Speculation Id)
  | commitSpeculationCas (spec : Speculation Id) (expectedHead : Id)

def WriteOp.refName : WriteOp Id → String
  | .set refName _ _ => refName
  | .delete refName _ => refName
  | .setJsonCas refName _ _ _ _ => refName
  | .commitSpeculation spec => spec.baseRef
  | .commitSpeculationCas spec _ => spec.baseRef

structure Writer (Id : Type) where
  repo : Repository
  op : WriteOp Id
  options : CommitOptions

/-- What the loop of a writer is landing: its own operation, or the intent
commit of a watch that fired after it, with the commit to return at last. -/
inductive Task (Id : Type) where
  | own
  | intent (returned : Id) (e : Escalation) (rest : List Escalation)

/-- Where a writer is. -/
inductive Pc (Id : Type) where
  | start
  | reading (task : Task Id) (attempt : ℕ)
  | building (task : Task Id) (attempt : ℕ) (head : Id) (isBranch : Bool)
  | landing (task : Task Id) (attempt : ℕ) (head : Id) (isBranch : Bool)
      (commit : Id)
  | buildingCas
  | landingCas (commit : Id)
  | raising (returned : Id) (fired : List Escalation)
  | done (result : Except (RepoError Id) Id)

/-- What a writer that has finished returned. -/
def Pc.returned? : Pc Id → Option Id
  | .done (.ok id) => some id
  | _ => none

omit [Digest Id] in
theorem Pc.eq_done_of_returned? {pc : Pc Id} {id : Id}
    (h : pc.returned? = some id) : pc = .done (.ok id) := by
  unfold Pc.returned? at h
  split at h
  next => rw [Option.some.inj h]
  next => contradiction

/-- A compare-and-swap that succeeded: whose, whether of its own operation or
of an intent commit after it, and the commit. -/
structure Landing (W Id : Type) where
  writer : W
  own : Bool
  commit : Id

/-- The store, and the record of what landed. -/
structure Shared (W Id : Type) [Digest Id] where
  store : Storage Id
  landings : List (Landing W Id)

namespace Writer

variable (w : Writer Id)

def ns : String := w.repo.activeNamespace

def refName : String := w.op.refName

/-- The checks an operation makes before it touches a ref, and where it goes
on. -/
def begin (now : ℤ) (store : Storage Id) : Pc Id :=
  match w.op with
  | .set _ path _ | .delete _ path =>
      match checkWrite store path w.options now with
      | .error e => .done (.error e)
      | .ok () =>
          match liftTree (parsePath path) with
          | .error e => .done (.error e)
          | .ok _ => .reading .own 0
  | .setJsonCas _ _ path _ _ =>
      match checkWrite store path w.options now with
      | .error e => .done (.error e)
      | .ok () => .buildingCas
  | .commitSpeculation spec =>
      match checkSpeculation store.objects spec w.options with
      | .error e => .done (.error e)
      | .ok () => .reading .own 0
  | .commitSpeculationCas _ _ => .buildingCas

/-- Read a path, then build. -/
def onPath (path : String) (build : StatePath → BuildRoot Id) : BuildRoot Id :=
  fun store root =>
    match liftTree (parsePath path) with
    | .error e => (.error e, store)
    | .ok p => build p store root

/-- How the loop builds its root. -/
def build : Task Id → BuildRoot Id
  | .intent _ _ _ => sameRoot
  | .own =>
      match w.op with
      | .set _ path value => onPath path fun p => setRoot p value
      | .delete _ path => onPath path deleteRoot
      | .commitSpeculation spec => speculationRoot spec
      | .setJsonCas _ _ _ _ _ | .commitSpeculationCas _ _ =>
          fun store _ => (.error .writeConflict, store)

/-- The provenance of the commit the loop lands. -/
def taskOptions : Task Id → CommitOptions
  | .own => w.options
  | .intent _ e _ => e.options

/-- The commit of an operation that names the head it expects. -/
def buildCas (now : ℤ) (store : Storage Id) : Outcome Id (Commit Id) :=
  match w.op with
  | .setJsonCas refName expectedHead path value _ =>
      w.repo.buildOnExpected store refName expectedHead path value w.options now
  | .commitSpeculationCas spec expectedHead =>
      w.repo.buildSpeculation store spec expectedHead w.options now
  | _ => (.error .writeConflict, store)

/-- The head an operation names. -/
def expectedHead? : Option Id :=
  match w.op with
  | .setJsonCas _ expectedHead _ _ _ => some expectedHead
  | .commitSpeculationCas _ expectedHead => some expectedHead
  | _ => none

/-- Where a strict operation goes on once it landed. -/
def afterCas (commit : Id) : Pc Id :=
  match w.op with
  | .setJsonCas _ _ _ _ fired =>
      if isTaintLifecycleIntent w.options.intent.category then
        .done (.ok commit)
      else .raising commit fired
  | _ => .done (.ok commit)

/-- Build on the head that was read, and store the commit. -/
def buildStep (task : Task Id) (attempt : ℕ) (head : Id) (isBranch : Bool)
    (now : ℤ) (store : Storage Id) : Storage Id × Pc Id :=
  match store.rootOf head with
  | none => (store, .done (.error (.refNotFound w.refName)))
  | some root =>
      match w.build task store root with
      | (.error e, built) => (built, .done (.error e))
      | (.ok newRoot, built) =>
          match w.repo.createCommit built newRoot [head] (w.taskOptions task)
              now with
          | (.error e, stored) => (stored, .done (.error e))
          | (.ok c, stored) =>
              (stored, .landing task attempt head isBranch c.id)

end Writer

def Task.isOwn : Task Id → Bool
  | .own => true
  | .intent _ _ _ => false

/-- Where the loop goes on once it landed, with the store it leaves. -/
def Task.afterLanding (store : Storage Id) (commit : Id) :
    Task Id → Storage Id × Pc Id
  | .own => (store, .done (.ok commit))
  | .intent returned e rest =>
      (store.setTaintCommitId e.record.id ("sg_" ++ Digest.toHex commit),
        .raising returned rest)

variable {W : Type}

namespace Shared

def withStore (s : Shared W Id) (store : Storage Id) : Shared W Id :=
  { s with store := store }

/-- The store after a successful compare-and-swap, with the landing noted. -/
def land (s : Shared W Id) (store : Storage Id) (l : Landing W Id) :
    Shared W Id :=
  { store := store, landings := s.landings ++ [l] }

end Shared

/-- One step of a writer, at time `now`. -/
def writerStep (writers : W → Writer Id) (i : W) (now : ℤ) (s : Shared W Id) :
    Pc Id → Shared W Id × Pc Id
  | .start => (s, (writers i).begin now s.store)
  | .reading task attempt =>
      if attempt < MAX_REF_CAS_ATTEMPTS then
        match (writers i).repo.headForWrite s.store (writers i).refName with
        | .error e => (s, .done (.error e))
        | .ok (head, isBranch) => (s, .building task attempt head isBranch)
      else (s, .done (.error .writeConflict))
  | .building task attempt head isBranch =>
      let (store, pc) :=
        (writers i).buildStep task attempt head isBranch now s.store
      (s.withStore store, pc)
  | .landing task attempt head isBranch commit =>
      match (writers i).repo.moveRef s.store (writers i).refName head isBranch
          commit with
      | .error e => (s, .done (.error e))
      | .ok (false, store) => (s.withStore store, .reading task (attempt + 1))
      | .ok (true, store) =>
          let (store, pc) := task.afterLanding store commit
          (s.land store ⟨i, task.isOwn, commit⟩, pc)
  | .buildingCas =>
      match (writers i).buildCas now s.store with
      | (.error e, store) => (s.withStore store, .done (.error e))
      | (.ok c, store) => (s.withStore store, .landingCas c.id)
  | .landingCas commit =>
      match (writers i).expectedHead? with
      | none => (s, .done (.error .writeConflict))
      | some expected =>
          match (writers i).repo.advanceRef s.store (writers i).refName expected
              commit with
          | .error e => (s, .done (.error e))
          | .ok (false, store) =>
              (s.withStore store, .done (.error .writeConflict))
          | .ok (true, store) =>
              (s.land store ⟨i, true, commit⟩, (writers i).afterCas commit)
  | .raising returned [] => (s, .done (.ok returned))
  | .raising returned (e :: rest) =>
      match s.store.createTaint e.record with
      | .error err => (s, .done (.error (.storage err)))
      | .ok store => (s.withStore store, .reading (.intent returned e rest) 0)
  | .done r => (s, .done r)

/-- The writers as agents on the shared store. -/
def writerMachine (writers : W → Writer Id) :
    Machine W ℤ (Shared W Id) (Pc Id) :=
  ⟨writerStep writers⟩

/-- Nobody has started. -/
def initial (store : Storage Id) : Config W (Shared W Id) (Pc Id) :=
  ⟨⟨store, []⟩, fun _ => .start⟩

/-! ## What a landed commit is -/

/-- The new root is the operation applied to the state of the parent. -/
def WriteOp.Applies (op : WriteOp Id) (objects : ObjectStore Id)
    (parent parentRoot newRoot : Id) : Prop :=
  match op with
  | .set _ path value =>
      ∃ p, StatePath.parse path = .ok p ∧
        (treeSet objects parentRoot p value).1 = .ok newRoot
  | .delete _ path =>
      ∃ p, StatePath.parse path = .ok p ∧
        (treeDelete objects parentRoot p).1 = .ok newRoot
  | .setJsonCas _ expectedHead path value _ =>
      parent = expectedHead ∧
        ∃ p, StatePath.parse path = .ok p ∧
          (treeSet objects parentRoot p (jsonToObjects value).1).1 = .ok newRoot
  | .commitSpeculation spec =>
      speculationResult objects spec parentRoot = some newRoot
  | .commitSpeculationCas spec expectedHead =>
      parent = expectedHead ∧ parentRoot = spec.baseRoot ∧
        newRoot = spec.currentRoot

/-- A stored commit with one parent, whose root is what the writer's operation
(or, for an intent commit, nothing) makes of the parent's state. -/
def BuiltOn (w : Writer Id) (own : Bool) (store : Storage Id)
    (head commit : Id) : Prop :=
  ∃ c root, store.getCommit commit = some c ∧ c.parents = [head] ∧
    store.rootOf head = some root ∧
    if own then w.op.Applies store.objects head root c.stateRoot
    else c.stateRoot = root

section

variable {newRoot root : Id} {store built : Storage Id}

theorem WriteOp.Applies.mono {op : WriteOp Id} {objects bigger : ObjectStore Id}
    (hle : objects ≤ bigger) {parent parentRoot : Id}
    (h : op.Applies objects parent parentRoot newRoot) :
    op.Applies bigger parent parentRoot newRoot := by
  have hset : ∀ p value, (treeSet objects parentRoot p value).1 = .ok newRoot →
      (treeSet bigger parentRoot p value).1 = .ok newRoot :=
    fun p value h => treeSet_mono (Prod.ext h rfl) hle
  cases op with
  | set refName path value =>
      obtain ⟨p, hp, h⟩ := h
      exact ⟨p, hp, hset p value h⟩
  | delete refName path =>
      obtain ⟨p, hp, h⟩ := h
      exact ⟨p, hp, treeDelete_mono (Prod.ext h rfl) hle⟩
  | setJsonCas refName expectedHead path value fired =>
      obtain ⟨hparent, p, hp, h⟩ := h
      exact ⟨hparent, p, hp, hset p _ h⟩
  | commitSpeculation spec => exact speculationResult_mono hle h
  | commitSpeculationCas spec expectedHead => exact h

theorem BuiltOn.mono {w : Writer Id} {own : Bool} {s t : Storage Id}
    {head commit : Id} (hobjects : s.objects ≤ t.objects)
    (hcommits : s.commits ≤ t.commits) (h : BuiltOn w own s head commit) :
    BuiltOn w own t head commit := by
  obtain ⟨c, root, hc, hparents, hroot, happ⟩ := h
  refine ⟨c, root, hcommits _ _ hc, hparents, Storage.rootOf_of_le hcommits hroot, ?_⟩
  cases own with
  | true => exact WriteOp.Applies.mono hobjects happ
  | false => exact happ

/-! ## What each step establishes -/

theorem Writer.onPath_onlyAdds {path : String} {build : StatePath → BuildRoot Id}
    (hbuild : ∀ p, (build p).OnlyAdds) : (onPath path build).OnlyAdds := by
  intro store root
  unfold onPath
  split
  · exact Storage.AddsObjects.refl store
  · exact hbuild _ store root

theorem Writer.onPath_eq_ok {path : String} {build : StatePath → BuildRoot Id}
    (h : onPath path build store root = (.ok newRoot, built)) :
    ∃ p, StatePath.parse path = .ok p ∧
      build p store root = (.ok newRoot, built) := by
  unfold onPath at h
  split at h
  next => simp at h
  next p hp => exact ⟨p, parsePath_eq_ok hp, h⟩

theorem Writer.build_onlyAdds (w : Writer Id) (task : Task Id) :
    (w.build task).OnlyAdds := by
  cases task with
  | intent returned e rest => exact sameRoot_onlyAdds
  | own =>
      unfold Writer.build
      cases w.op with
      | set refName path value =>
          exact onPath_onlyAdds fun p => setRoot_onlyAdds p value
      | delete refName path => exact onPath_onlyAdds deleteRoot_onlyAdds
      | commitSpeculation spec => exact speculationRoot_onlyAdds spec
      | setJsonCas refName expectedHead path value fired =>
          exact fun store root => Storage.AddsObjects.refl store
      | commitSpeculationCas spec expectedHead =>
          exact fun store root => Storage.AddsObjects.refl store

theorem Writer.build_applies (w : Writer Id) {head : Id}
    (h : w.build .own store root = (.ok newRoot, built)) :
    w.op.Applies store.objects head root newRoot := by
  unfold Writer.build at h
  cases hop : w.op with
  | set refName path value =>
      simp only [hop] at h
      obtain ⟨p, hp, h⟩ := onPath_eq_ok h
      exact ⟨p, hp, congrArg Prod.fst (setRoot_eq_ok h)⟩
  | delete refName path =>
      simp only [hop] at h
      obtain ⟨p, hp, h⟩ := onPath_eq_ok h
      exact ⟨p, hp, congrArg Prod.fst (deleteRoot_eq_ok h)⟩
  | commitSpeculation spec =>
      simp only [hop] at h
      exact speculationRoot_eq_ok h
  | setJsonCas refName expectedHead path value fired => simp [hop] at h
  | commitSpeculationCas spec expectedHead => simp [hop] at h

/-- A commit stored over `head`, whose root the writer built on it. -/
theorem builtOn_of_addsCommit {w : Writer Id} {own : Bool} {stored : Storage Id}
    {head : Id} {c : Commit Id} (hbuilt : store.AddsObjects built)
    (hadds : built.AddsCommit c stored) (hparents : c.parents = [head])
    (hroot : store.rootOf head = some root)
    (happ : if own then w.op.Applies store.objects head root c.stateRoot
      else c.stateRoot = root) : BuiltOn w own stored head c.id := by
  have hgrows := hbuilt.grows.trans hadds.grows
  refine ⟨c, root, hadds.getCommit, hparents,
    Storage.rootOf_of_le hgrows.commits hroot, ?_⟩
  cases own with
  | true => exact WriteOp.Applies.mono hgrows.objects happ
  | false => exact happ

end

theorem Writer.buildStep_spec (w : Writer Id) (task : Task Id) (attempt : ℕ)
    (head : Id) (isBranch : Bool) (now : ℤ) (store : Storage Id) :
    store.Grows (w.buildStep task attempt head isBranch now store).1 ∧
      ((∃ e, (w.buildStep task attempt head isBranch now store).2 =
          .done (.error e)) ∨
        ∃ commit, (w.buildStep task attempt head isBranch now store).2 =
            .landing task attempt head isBranch commit ∧
          BuiltOn w task.isOwn
            (w.buildStep task attempt head isBranch now store).1 head
            commit) := by
  unfold Writer.buildStep
  cases hroot : store.rootOf head with
  | none => exact ⟨Storage.Grows.refl store, Or.inl ⟨_, rfl⟩⟩
  | some root =>
      have hadds := w.build_onlyAdds task store root
      cases hbuild : w.build task store root with
      | mk result built =>
          rw [hbuild] at hadds
          simp only at hadds
          cases result with
          | error e =>
              simp only [hbuild]
              exact ⟨hadds.grows, Or.inl ⟨e, rfl⟩⟩
          | ok newRoot =>
              have hcommit := w.repo.createCommit_addsCommit built newRoot
                [head] (w.taskOptions task) now
              cases hcreate : w.repo.createCommit built newRoot [head]
                  (w.taskOptions task) now with
              | mk result stored =>
                  rw [hcreate] at hcommit
                  simp only at hcommit
                  cases result with
                  | error e =>
                      simp only [hbuild, hcreate]
                      exact ⟨hadds.grows.trans hcommit.grows, Or.inl ⟨e, rfl⟩⟩
                  | ok c =>
                      obtain ⟨rfl, hc⟩ := w.repo.createCommit_eq_ok hcreate
                      simp only [hbuild, hcreate]
                      refine ⟨hadds.grows.trans hc.grows, Or.inr ⟨_, rfl, ?_⟩⟩
                      refine builtOn_of_addsCommit hadds hc rfl hroot ?_
                      cases task with
                      | own => exact w.build_applies hbuild
                      | intent returned e rest =>
                          simp only [Writer.build, sameRoot, Prod.mk.injEq,
                            Except.ok.injEq] at hbuild
                          exact hbuild.1.symm

theorem Writer.buildCas_spec (w : Writer Id) (now : ℤ) (store : Storage Id) :
    store.Grows (w.buildCas now store).2 ∧
      ∀ c, (w.buildCas now store).1 = .ok c →
        ∃ expected, w.expectedHead? = some expected ∧
          BuiltOn w true (w.buildCas now store).2 expected c.id := by
  cases hop : w.op with
  | setJsonCas refName expectedHead path value fired =>
      simp only [Writer.buildCas, Writer.expectedHead?, hop]
      refine ⟨w.repo.buildOnExpected_grows _ _ _ _ _ _ _, fun c hc => ?_⟩
      obtain ⟨root, p, built, hroot, hp, hset, hadds, hbuild, hcommit⟩ :=
        w.repo.buildOnExpected_eq_ok (Prod.ext hc rfl)
      have hparents : c.parents = [expectedHead] := by rw [hbuild]; rfl
      refine ⟨expectedHead, rfl,
        builtOn_of_addsCommit hadds hcommit hparents hroot ?_⟩
      simp only [if_true, hop]
      exact ⟨rfl, p, hp, congrArg Prod.fst hset⟩
  | commitSpeculationCas spec expectedHead =>
      simp only [Writer.buildCas, Writer.expectedHead?, hop]
      refine ⟨w.repo.buildSpeculation_grows _ _ _ _ _, fun c hc => ?_⟩
      obtain ⟨hroot, -, rfl, hcommit⟩ :=
        w.repo.buildSpeculation_eq_ok (Prod.ext hc rfl)
      refine ⟨expectedHead, rfl,
        builtOn_of_addsCommit (.refl store) hcommit rfl hroot ?_⟩
      simp only [if_true, hop]
      exact ⟨rfl, rfl, rfl⟩
  | set refName path value =>
      simp only [Writer.buildCas, hop]
      exact ⟨Storage.Grows.refl store, fun c hc => by simp at hc⟩
  | delete refName path =>
      simp only [Writer.buildCas, hop]
      exact ⟨Storage.Grows.refl store, fun c hc => by simp at hc⟩
  | commitSpeculation spec =>
      simp only [Writer.buildCas, hop]
      exact ⟨Storage.Grows.refl store, fun c hc => by simp at hc⟩

/-! ## The invariant -/

/-- Every writer's branch is there, its head descends from every commit that
landed on it, and every landed commit is its operation on its parent. -/
structure Shared.Keeps (writers : W → Writer Id) (s : Shared W Id) : Prop where
  head : ∀ i, ∃ head,
    s.store.refAt (writers i).ns (writers i).refName = some head ∧
      ∀ l ∈ s.landings, (writers l.writer).ns = (writers i).ns →
        (writers l.writer).refName = (writers i).refName →
        s.store.commits.IsAncestor l.commit head
  builtOn : ∀ l ∈ s.landings, ∃ head,
    BuiltOn (writers l.writer) l.own s.store head l.commit

/-- What no step undoes. -/
structure Shared.Extends (s t : Shared W Id) : Prop where
  objects : s.store.objects ≤ t.store.objects
  commits : s.store.commits ≤ t.store.commits
  landings : ∀ l ∈ s.landings, l ∈ t.landings

/-- An intent commit follows an operation that landed. -/
def Task.Holds (i : W) (s : Shared W Id) : Task Id → Prop
  | .own => True
  | .intent returned _ _ => ⟨i, true, returned⟩ ∈ s.landings

/-- What a writer knows where it is. -/
def Pc.Holds (writers : W → Writer Id) (i : W) (s : Shared W Id) : Pc Id → Prop
  | .start => True
  | .reading task _ => task.Holds i s
  | .building task _ _ isBranch => task.Holds i s ∧ isBranch = true
  | .landing task _ head isBranch commit =>
      task.Holds i s ∧ isBranch = true ∧
        BuiltOn (writers i) task.isOwn s.store head commit
  | .buildingCas => True
  | .landingCas commit =>
      ∃ expected, (writers i).expectedHead? = some expected ∧
        BuiltOn (writers i) true s.store expected commit
  | .raising returned _ => ⟨i, true, returned⟩ ∈ s.landings
  | .done (.ok id) => ⟨i, true, id⟩ ∈ s.landings
  | .done (.error _) => True

theorem Task.Holds.stable {i : W} {s t : Shared W Id} (hext : s.Extends t)
    {task : Task Id} (h : task.Holds i s) : task.Holds i t := by
  cases task with
  | own => trivial
  | intent returned e rest => exact hext.landings _ h

theorem Pc.Holds.stable {writers : W → Writer Id} {i : W} {s t : Shared W Id}
    (hext : s.Extends t) {pc : Pc Id} (h : pc.Holds writers i s) :
    pc.Holds writers i t := by
  cases pc with
  | start => trivial
  | reading task attempt => exact Task.Holds.stable hext h
  | building task attempt head isBranch => exact ⟨h.1.stable hext, h.2⟩
  | landing task attempt head isBranch commit =>
      exact ⟨h.1.stable hext, h.2.1, h.2.2.mono hext.objects hext.commits⟩
  | buildingCas => trivial
  | landingCas commit =>
      obtain ⟨expected, hexp, hbuilt⟩ := h
      exact ⟨expected, hexp, hbuilt.mono hext.objects hext.commits⟩
  | raising returned fired => exact hext.landings _ h
  | done result =>
      cases result with
      | ok id => exact hext.landings _ h
      | error e => trivial

namespace Shared

theorem Extends.refl (s : Shared W Id) : s.Extends s :=
  ⟨le_refl _, le_refl _, fun _ h => h⟩

variable {s : Shared W Id} {store : Storage Id}

theorem Extends.trans {t u : Shared W Id} (hst : s.Extends t)
    (htu : t.Extends u) : s.Extends u :=
  ⟨hst.objects.trans htu.objects, hst.commits.trans htu.commits,
    fun l h => htu.landings l (hst.landings l h)⟩

theorem extends_withStore (h : s.store.Grows store) :
    s.Extends (s.withStore store) :=
  ⟨h.objects, h.commits, fun _ h => h⟩

theorem extends_land {l : Landing W Id} {ns refName : String} {commit : Id}
    (h : (s.store.putRef ns refName commit).Grows store) :
    s.Extends (s.land store l) :=
  ⟨h.objects, h.commits, fun _ h => List.mem_append_left _ h⟩

/-- A step that moves no ref keeps the invariant. -/
theorem Keeps.withStore {writers : W → Writer Id} (hkeeps : s.Keeps writers)
    (h : s.store.Grows store) :
    (s.withStore store).Keeps writers where
  head := by
    intro i
    obtain ⟨head, href, hanc⟩ := hkeeps.head i
    refine ⟨head, ?_, ?_⟩
    · simpa only [Shared.withStore, Storage.refAt, h.refs] using href
    · intro l hl hns hname
      exact (hanc l hl hns hname).mono h.commits
  builtOn := by
    intro l hl
    obtain ⟨head, hbuilt⟩ := hkeeps.builtOn l hl
    exact ⟨head, hbuilt.mono h.objects h.commits⟩

theorem Keeps.land {writers : W → Writer Id} {i : W} {own : Bool}
    {head commit : Id} (hkeeps : s.Keeps writers)
    (href : s.store.refAt (writers i).ns (writers i).refName = some head)
    (hbuilt : BuiltOn (writers i) own s.store head commit)
    (hgrows : (s.store.putRef (writers i).ns (writers i).refName commit).Grows
      store) : (s.land store ⟨i, own, commit⟩).Keeps writers := by
  have hold : s.store.commits ≤ store.commits := hgrows.commits
  have hbuilt' := hbuilt.mono (t := store) hgrows.objects hold
  have hstep : store.commits.IsAncestor head commit := by
    obtain ⟨c, root, hc, hparents, -, -⟩ := hbuilt'
    refine CommitStore.IsAncestor.of_mem_parents ?_
    simp [CommitStore.parents_of_get hc, hparents]
  refine ⟨?_, ?_⟩
  · intro j
    obtain ⟨old, hrefj, hanc⟩ := hkeeps.head j
    have hnew : store.refAt (writers j).ns (writers j).refName =
        if (writers i).ns = (writers j).ns ∧
            (writers i).refName = (writers j).refName then some commit
        else some old := by
      rw [← hrefj, ← Storage.refAt_putRef]
      simp only [Storage.refAt, hgrows.refs]
    by_cases hsame : (writers i).ns = (writers j).ns ∧
        (writers i).refName = (writers j).refName
    · refine ⟨commit, by rw [Shared.land, hnew, if_pos hsame], ?_⟩
      have hhead : old = head := by
        rw [hsame.1, hsame.2, hrefj] at href
        exact Option.some.inj href
      subst hhead
      intro l hl hns hname
      rcases List.mem_append.mp hl with hl | hl
      · exact ((hanc l hl hns hname).mono hold).trans hstep
      · rw [List.mem_singleton.mp hl]
        exact CommitStore.IsAncestor.refl _ commit
    · refine ⟨old, by rw [Shared.land, hnew, if_neg hsame], ?_⟩
      intro l hl hns hname
      rcases List.mem_append.mp hl with hl | hl
      · exact (hanc l hl hns hname).mono hold
      · rw [List.mem_singleton.mp hl] at hns hname
        exact absurd ⟨hns, hname⟩ hsame
  · intro l hl
    rcases List.mem_append.mp hl with hl | hl
    · obtain ⟨h, hb⟩ := hkeeps.builtOn l hl
      exact ⟨h, hb.mono hgrows.objects hold⟩
    · rw [List.mem_singleton.mp hl]
      exact ⟨head, hbuilt'⟩

end Shared

/-- What one step has to establish: the invariant, what the writer knows where
it goes on, and that nothing is undone. -/
def StepKeeps (writers : W → Writer Id) (i : W) (s : Shared W Id)
    (r : Shared W Id × Pc Id) : Prop :=
  r.1.Keeps writers ∧ r.2.Holds writers i r.1 ∧ s.Extends r.1

section Step

variable {writers : W → Writer Id} {i : W} {s : Shared W Id}

variable {pc : Pc Id} {task : Task Id} {attempt : ℕ} {commit : Id}

theorem stepKeeps_of_same (hkeeps : s.Keeps writers)
    (hpc : pc.Holds writers i s) : StepKeeps writers i s (s, pc) :=
  ⟨hkeeps, hpc, Shared.Extends.refl s⟩

theorem stepKeeps_of_grows {store : Storage Id} (hkeeps : s.Keeps writers)
    (hgrows : s.store.Grows store)
    (hpc : pc.Holds writers i (s.withStore store)) :
    StepKeeps writers i s (s.withStore store, pc) :=
  ⟨hkeeps.withStore hgrows, hpc, Shared.extends_withStore hgrows⟩

theorem stepKeeps_start (now : ℤ) (hkeeps : s.Keeps writers) :
    StepKeeps writers i s (writerStep writers i now s .start) := by
  refine stepKeeps_of_same hkeeps ?_
  unfold Writer.begin
  split <;> repeat' split
  all_goals trivial

/-- A branch that exists is written by compare-and-swap. -/
theorem stepKeeps_reading (now : ℤ) (hkeeps : s.Keeps writers)
    (htask : task.Holds i s) :
    StepKeeps writers i s
      (writerStep writers i now s (.reading task attempt)) := by
  simp only [writerStep]
  split
  next =>
    split
    next => exact stepKeeps_of_same hkeeps trivial
    next head isBranch hhead =>
      refine stepKeeps_of_same hkeeps ⟨htask, ?_⟩
      obtain ⟨old, href, -⟩ := hkeeps.head i
      rcases (writers i).repo.headForWrite_eq_ok hhead with
        ⟨hbranch, -⟩ | ⟨-, hnone, -⟩
      · exact hbranch
      · rw [Writer.ns, hnone] at href
        simp at href
  next => exact stepKeeps_of_same hkeeps trivial

theorem stepKeeps_building (now : ℤ) {head : Id} {isBranch : Bool}
    (hkeeps : s.Keeps writers) (htask : task.Holds i s)
    (hbranch : isBranch = true) :
    StepKeeps writers i s
      (writerStep writers i now s (.building task attempt head isBranch)) := by
  obtain ⟨hgrows, hpc⟩ := (writers i).buildStep_spec task attempt head isBranch
    now s.store
  simp only [writerStep]
  refine stepKeeps_of_grows hkeeps hgrows ?_
  rcases hpc with ⟨e, herr⟩ | ⟨commit, hland, hbuilt⟩
  · rw [herr]
    trivial
  · rw [hland]
    exact ⟨htask.stable (Shared.extends_withStore hgrows), hbranch, hbuilt⟩

theorem Task.afterLanding_grows (task : Task Id) (store : Storage Id)
    (commit : Id) : store.Grows (task.afterLanding store commit).1 := by
  cases task with
  | own => exact Storage.Grows.refl store
  | intent returned e rest => exact Storage.setTaintCommitId_grows store _ _

theorem stepKeeps_landing (now : ℤ) {head : Id} {isBranch : Bool}
    (hkeeps : s.Keeps writers) (htask : task.Holds i s)
    (hbranch : isBranch = true)
    (hbuilt : BuiltOn (writers i) task.isOwn s.store head commit) :
    StepKeeps writers i s
      (writerStep writers i now s
        (.landing task attempt head isBranch commit)) := by
  subst hbranch
  simp only [writerStep]
  split
  next => exact stepKeeps_of_same hkeeps trivial
  next store hmove =>
    rcases (writers i).repo.advanceRef_eq_ok hmove with
      ⟨hfalse, -, -⟩ | ⟨-, -, rfl⟩
    · simp at hfalse
    · exact stepKeeps_of_grows hkeeps (Storage.Grows.refl _) htask
  next store hmove =>
    obtain ⟨rfl, href⟩ := (writers i).repo.moveRef_eq_ok_true hmove
    have hgrows := task.afterLanding_grows
      (s.store.putRef (writers i).ns (writers i).refName commit) commit
    refine ⟨hkeeps.land (href rfl) hbuilt hgrows, ?_,
      Shared.extends_land hgrows⟩
    cases task with
    | own => exact List.mem_append_right _ (List.mem_singleton_self _)
    | intent returned e rest => exact List.mem_append_left _ htask

theorem stepKeeps_buildingCas (now : ℤ) (hkeeps : s.Keeps writers) :
    StepKeeps writers i s (writerStep writers i now s .buildingCas) := by
  obtain ⟨hgrows, hbuilt⟩ := (writers i).buildCas_spec now s.store
  simp only [writerStep]
  split
  next e store hbuild =>
    rw [hbuild] at hgrows
    exact stepKeeps_of_grows hkeeps hgrows trivial
  next c store hbuild =>
    rw [hbuild] at hgrows hbuilt
    exact stepKeeps_of_grows hkeeps hgrows (hbuilt c rfl)

theorem Writer.afterCas_holds (hlanded : ⟨i, true, commit⟩ ∈ s.landings) :
    ((writers i).afterCas commit).Holds writers i s := by
  unfold Writer.afterCas
  split
  · split
    · exact hlanded
    · exact hlanded
  · exact hlanded

theorem stepKeeps_landingCas (now : ℤ) (hkeeps : s.Keeps writers)
    (hpc : (Pc.landingCas commit).Holds writers i s) :
    StepKeeps writers i s (writerStep writers i now s (.landingCas commit)) := by
  obtain ⟨expected, hexp, hbuilt⟩ := hpc
  simp only [writerStep, hexp]
  split
  next => exact stepKeeps_of_same hkeeps trivial
  next store hmove =>
    rcases (writers i).repo.advanceRef_eq_ok hmove with
      ⟨hfalse, -, -⟩ | ⟨-, -, rfl⟩
    · simp at hfalse
    · exact stepKeeps_of_grows hkeeps (Storage.Grows.refl _) trivial
  next store hmove =>
    rcases (writers i).repo.advanceRef_eq_ok hmove with
      ⟨-, href, rfl⟩ | ⟨hfalse, -, -⟩
    · have hgrows := Storage.Grows.refl
        (s.store.putRef (writers i).ns (writers i).refName commit)
      refine ⟨hkeeps.land href hbuilt hgrows, Writer.afterCas_holds ?_,
        Shared.extends_land hgrows⟩
      exact List.mem_append_right _ (List.mem_singleton_self _)
    · simp at hfalse

theorem stepKeeps_raising (now : ℤ) {returned : Id} {fired : List Escalation}
    (hkeeps : s.Keeps writers) (hlanded : ⟨i, true, returned⟩ ∈ s.landings) :
    StepKeeps writers i s
      (writerStep writers i now s (.raising returned fired)) := by
  cases fired with
  | nil => exact stepKeeps_of_same hkeeps hlanded
  | cons e rest =>
      simp only [writerStep]
      split
      next => exact stepKeeps_of_same hkeeps trivial
      next store hraise =>
        exact stepKeeps_of_grows hkeeps (Storage.createTaint_grows hraise)
          hlanded

theorem writerStep_keeps (now : ℤ) (hkeeps : s.Keeps writers)
    (hpc : pc.Holds writers i s) :
    StepKeeps writers i s (writerStep writers i now s pc) := by
  cases pc with
  | start => exact stepKeeps_start now hkeeps
  | reading task attempt => exact stepKeeps_reading now hkeeps hpc
  | building task attempt head isBranch =>
      exact stepKeeps_building now hkeeps hpc.1 hpc.2
  | landing task attempt head isBranch commit =>
      exact stepKeeps_landing now hkeeps hpc.1 hpc.2.1 hpc.2.2
  | buildingCas => exact stepKeeps_buildingCas now hkeeps
  | landingCas commit => exact stepKeeps_landingCas now hkeeps hpc
  | raising returned fired => exact stepKeeps_raising now hkeeps hpc
  | done r => exact stepKeeps_of_same hkeeps hpc

end Step

/-! ## Every interleaving -/

section Runs

variable [DecidableEq W]

/-- The writers' assertions, for the rely-guarantee rule. -/
def writerAssertions (writers : W → Writer Id) :
    Assertions (writerMachine writers) where
  allowed _ _ _ _ := True
  shared s := s.Keeps writers
  loc i s pc := pc.Holds writers i s
  guarantee s t := s.Extends t
  guarantee_refl := Shared.Extends.refl
  guarantee_trans _ _ _ := Shared.Extends.trans
  step _ now _ _ _ hkeeps hpc := writerStep_keeps now hkeeps hpc
  stable _ _ _ _ hext hpc := hpc.stable hext

omit [DecidableEq W] in
theorem initial_holds (writers : W → Writer Id) (store : Storage Id)
    (hbranch : ∀ i,
      (store.refAt (writers i).ns (writers i).refName).isSome = true) :
    (writerAssertions writers).Holds (initial store) := by
  refine ⟨⟨?_, ?_⟩, fun _ => trivial⟩
  · intro i
    obtain ⟨head, hhead⟩ := Option.isSome_iff_exists.mp (hbranch i)
    exact ⟨head, hhead, fun l hl => absurd hl (List.not_mem_nil)⟩
  · exact fun l hl => absurd hl (List.not_mem_nil)

/-- Writers on stored branches, in any number and any interleaving: a commit
returned to a writer is in the history of every later head of its branch, and
every commit that landed is its operation applied to the state of its one
parent. -/
theorem writers_lose_nothing (writers : W → Writer Id) (store : Storage Id)
    (hbranch : ∀ i,
      (store.refAt (writers i).ns (writers i).refName).isSome = true)
    (before after : List (W × ℤ)) :
    let mid := (writerMachine writers).run (initial store) before
    let fin := (writerMachine writers).run mid after
    (∀ i id, mid.loc i = .done (.ok id) →
      ⟨i, true, id⟩ ∈ mid.shared.landings ∧
      ∃ head,
        fin.shared.store.refAt (writers i).ns (writers i).refName = some head ∧
          fin.shared.store.commits.IsAncestor id head) ∧
      ∀ l ∈ fin.shared.landings, ∃ parent,
        BuiltOn (writers l.writer) l.own fin.shared.store parent l.commit := by
  intro mid fin
  let A := writerAssertions writers
  have hallowed := A.allowed_of_forall fun _ _ _ _ => trivial
  obtain ⟨hmid, -⟩ :=
    A.holds_run (initial_holds writers store hbranch) (hallowed _ before)
  obtain ⟨hfin, hext⟩ := A.holds_run hmid (hallowed _ after)
  refine ⟨?_, hfin.1.builtOn⟩
  intro i id hdone
  have hlanded : ⟨i, true, id⟩ ∈ mid.shared.landings := by
    have hpc := hmid.2 i
    rw [show ((writerMachine writers).run (initial store) before).loc i =
      .done (.ok id) from hdone] at hpc
    exact hpc
  obtain ⟨head, href, hanc⟩ := hfin.1.head i
  exact ⟨hlanded, head, href, hanc _ (hext.landings _ hlanded) rfl rfl⟩

end Runs

namespace TwoWriters

open ContentKey

def start : Commit ContentKey := commitOf Object.emptyMap [] 0

def store : Storage ContentKey :=
  ({ Storage.new with
      objects := AddressedMap.empty.putAll [Object.emptyMap]
      commits := AddressedMap.empty.putAll [start] } :
    Storage ContentKey).putRef "default" "main" start.id

/-- Two agents set different keys of `main`. -/
def writers : Bool → Writer ContentKey
  | false => ⟨Repository.new, .set "main" "/a" (Object.string "x"),
      options .refine⟩
  | true => ⟨Repository.new, .set "main" "/b" (Object.string "y"),
      options .refine⟩

/-- Both read the same head, and the first lands. -/
def before : List (Bool × ℤ) :=
  [(false, 1), (true, 1), (false, 1), (true, 1), (false, 1), (true, 1),
    (false, 1)]

/-- The second loses its swap, and lands on the moved head. -/
def after : List (Bool × ℤ) :=
  [(true, 2), (true, 2), (true, 2), (true, 2)]

def mid : Config Bool (Shared Bool ContentKey) (Pc ContentKey) :=
  (writerMachine writers).run (initial store) before

def fin : Config Bool (Shared Bool ContentKey) (Pc ContentKey) :=
  (writerMachine writers).run mid after

/-- The commit of the first. -/
def first : ContentKey := ((mid.loc false).returned?).getD start.id

end TwoWriters

set_option maxRecDepth 16384 in
open TwoWriters in
/-- The writer that landed first stays in the history of the second. -/
theorem writers_lose_nothing_twoWriters :
    (∀ i, (store.refAt (writers i).ns (writers i).refName).isSome = true) ∧
      mid.loc false = .done (.ok first) ∧
      (fin.loc true).returned?.isSome = true ∧
      ∃ head,
        fin.shared.store.refAt (writers false).ns (writers false).refName =
            some head ∧
          fin.shared.store.commits.IsAncestor first head := by
  have hbranch : ∀ i,
      (store.refAt (writers i).ns (writers i).refName).isSome = true := by
    decide
  have hfirst : mid.loc false = .done (.ok first) := by
    refine Pc.eq_done_of_returned? ?_
    decide
  refine ⟨hbranch, hfirst, by decide, ?_⟩
  obtain ⟨hkept, -⟩ := writers_lose_nothing writers store hbranch before after
  unfold mid at hfirst
  unfold fin mid
  exact (hkept false first hfirst).2

end AgentStateGraph
