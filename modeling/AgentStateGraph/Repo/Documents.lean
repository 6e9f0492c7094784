import AgentStateGraph.Repo.Agreement
import AgentStateGraph.Repo.Reads
import AgentStateGraph.Tree.Values

/-!
# Documents under a ref

Stores of records keep each record as a JSON document at a path of a ref's
state.  They read the head, read documents, and land what they write by
compare-and-swap on the head they read.  A ref that is only moved this way
never comes back to a head it left, so documents read while it stood at a head
are those of that head.
-/

namespace AgentStateGraph

open Worklist

variable {Id : Type} [Digest Id]

namespace Storage

/-- Objects and commits were added; the namespaces are the same. -/
structure Expands (s t : Storage Id) : Prop where
  objects : s.objects ≤ t.objects
  commits : s.commits ≤ t.commits
  namespaces : t.namespaces = s.namespaces

theorem Expands.refl (s : Storage Id) : Expands s s :=
  ⟨le_refl _, le_refl _, rfl⟩

theorem Expands.trans {s t u : Storage Id} (hst : Expands s t)
    (htu : Expands t u) : Expands s u :=
  ⟨hst.objects.trans htu.objects, hst.commits.trans htu.commits,
    htu.namespaces.trans hst.namespaces⟩

/-- A ref stayed, or moved to a descendant of its head. -/
structure Advances (ns name : String) (s t : Storage Id) : Prop where
  expands : Expands s t
  head : t.refAt ns name = s.refAt ns name ∨
    ∃ old new, s.refAt ns name = some old ∧ t.refAt ns name = some new ∧
      t.commits.IsAncestor old new

variable {ns name : String}

theorem Advances.refl (s : Storage Id) : Advances ns name s s :=
  ⟨Expands.refl s, Or.inl rfl⟩

variable {s t u : Storage Id} {expected : Id}

theorem Advances.trans (hst : Advances ns name s t)
    (htu : Advances ns name t u) : Advances ns name s u where
  expands := hst.expands.trans htu.expands
  head := by
    rcases htu.head with heq | ⟨mid, new, hmid, hnew, hanc⟩
    · rcases hst.head with heq' | ⟨old, mid, hold, hmid, hanc⟩
      · exact Or.inl (heq.trans heq')
      · exact Or.inr ⟨old, mid, hold, heq.trans hmid,
          hanc.mono htu.expands.commits⟩
    · rcases hst.head with heq' | ⟨old, mid', hold, hmid', hanc'⟩
      · exact Or.inr ⟨mid, new, heq' ▸ hmid, hnew, hanc⟩
      · have hsame : mid' = mid := Option.some.inj (hmid'.symm.trans hmid)
        subst hsame
        exact Or.inr ⟨old, new, hold, hnew,
          (hanc'.mono htu.expands.commits).trans hanc⟩

/-- The head that a later head descends from. -/
theorem Advances.isAncestor (h : Advances ns name s t) {old new : Id}
    (hold : s.refAt ns name = some old) (hnew : t.refAt ns name = some new) :
    t.commits.IsAncestor old new := by
  rcases h.head with heq | ⟨old', new', hold', hnew', hanc⟩
  · have hsame : new = old :=
      Option.some.inj (hnew.symm.trans (heq.trans hold))
    rw [hsame]
    exact CommitStore.IsAncestor.refl _ _
  · have h₁ : old' = old := Option.some.inj (hold'.symm.trans hold)
    have h₂ : new' = new := Option.some.inj (hnew'.symm.trans hnew)
    rwa [h₁, h₂] at hanc

theorem Advances.no_return (hst : Advances ns name s t)
    (htu : Advances ns name t u) {head : Id} (hs : s.refAt ns name = some head)
    (hu : u.refAt ns name = some head) : t.refAt ns name = some head := by
  have hsome : ∃ mid, t.refAt ns name = some mid := by
    rcases hst.head with heq | ⟨_, mid, -, hmid, -⟩
    · exact ⟨head, heq.trans hs⟩
    · exact ⟨mid, hmid⟩
  obtain ⟨mid, hmid⟩ := hsome
  have hup := (hst.isAncestor hs hmid).mono htu.expands.commits
  have hdown := htu.isAncestor hmid hu
  rw [hmid, hup.antisymm hdown]

/-- Nothing moved. -/
theorem Advances.of_refAt_eq (hexp : Expands s t)
    (href : t.refAt ns name = s.refAt ns name) : Advances ns name s t :=
  ⟨hexp, Or.inl href⟩

/-- A ref at `expected` came to a descendant of it whose state is `newRoot`. -/
structure LandsOn (ns name : String) (s t : Storage Id)
    (expected newRoot : Id) : Prop where
  expands : Expands s t
  before : s.refAt ns name = some expected
  after : ∃ head, t.refAt ns name = some head ∧
    t.rootOf head = some newRoot ∧ t.commits.IsAncestor expected head

theorem LandsOn.advances {newRoot : Id}
    (h : LandsOn ns name s t expected newRoot) : Advances ns name s t := by
  obtain ⟨head, hhead, -, hanc⟩ := h.after
  exact ⟨h.expands, Or.inr ⟨expected, head, h.before, hhead, hanc⟩⟩

/-- A ref that is there came to a descendant of its head with the same
state. -/
structure KeepsState (ns name : String) (s t : Storage Id) : Prop where
  expands : Expands s t
  head : ∀ old root, s.refAt ns name = some old → s.rootOf old = some root →
    ∃ new, t.refAt ns name = some new ∧ t.rootOf new = some root ∧
      t.commits.IsAncestor old new

theorem KeepsState.trans (hst : KeepsState ns name s t)
    (htu : KeepsState ns name t u) : KeepsState ns name s u where
  expands := hst.expands.trans htu.expands
  head := by
    intro old root hold hroot
    obtain ⟨mid, hmid, hmidRoot, hanc⟩ := hst.head old root hold hroot
    obtain ⟨new, hnew, hnewRoot, hanc'⟩ := htu.head mid root hmid hmidRoot
    exact ⟨new, hnew, hnewRoot,
      (hanc.mono htu.expands.commits).trans hanc'⟩

theorem KeepsState.of_grows (h : s.Grows t)
    (hns : t.namespaces = s.namespaces) : KeepsState ns name s t where
  expands := ⟨h.objects, h.commits, hns⟩
  head := by
    intro old root hold hroot
    refine ⟨old, ?_, rootOf_of_le h.commits hroot,
      CommitStore.IsAncestor.refl _ _⟩
    simpa only [refAt, h.refs] using hold

theorem landsOn_putRef {built : Storage Id} {c : Commit Id}
    (hgrows : s.Grows built) (hns : built.namespaces = s.namespaces)
    (hget : built.getCommit c.id = some c) (hparents : c.parents = [expected])
    (href : built.refAt ns name = some expected) :
    LandsOn ns name s (built.putRef ns name c.id) expected c.stateRoot where
  expands := ⟨hgrows.objects, hgrows.commits, hns⟩
  before := by simpa only [refAt, hgrows.refs] using href
  after := by
    have hget' : (built.putRef ns name c.id).getCommit c.id = some c := hget
    refine ⟨c.id, refAt_putRef_self _ _ _ _, rootOf_of_getCommit hget', ?_⟩
    apply CommitStore.IsAncestor.of_mem_parents
    rw [CommitStore.parents_of_get hget', hparents]
    exact List.mem_singleton_self _

theorem LandsOn.keepsState {newRoot : Id}
    (h : LandsOn ns name s t expected newRoot)
    (hkeeps : KeepsState ns name t u) :
    LandsOn ns name s u expected newRoot := by
  obtain ⟨head, hhead, hroot, hanc⟩ := h.after
  obtain ⟨new, hnew, hnewRoot, hanc'⟩ := hkeeps.head head newRoot hhead hroot
  exact ⟨h.expands.trans hkeeps.expands, h.before, new, hnew, hnewRoot,
    (hanc.mono hkeeps.expands.commits).trans hanc'⟩

end Storage

/-! ## Intent commits -/

theorem casLoop_invariant
    {attempt : ℕ → Storage Id → Outcome Id (Option Id)} {P : Storage Id → Prop}
    (h : ∀ i store, P store → P (attempt i store).2) {store : Storage Id}
    (hstore : P store) : P (casLoop attempt store).2 := by
  have hretry : ∀ left i store, P store →
      P (retryFrom attempt left i store).2 := by
    intro left
    induction left with
    | zero => exact fun i store hstore => hstore
    | succ left ih =>
        intro i store hstore
        have hnext := h i store hstore
        unfold retryFrom
        split
        next heq => rwa [heq] at hnext
        next heq => rwa [heq] at hnext
        next heq =>
          rw [heq] at hnext
          exact ih _ _ hnext
  exact hretry _ _ _ hstore

namespace Storage

variable {ns name : String}

theorem KeepsState.refl (s : Storage Id) : KeepsState ns name s s :=
  .of_grows (Grows.refl s) rfl

theorem AddsCommit.keepsState {s t : Storage Id} {c : Commit Id}
    (h : AddsCommit s c t) : KeepsState ns name s t :=
  .of_grows h.grows h.namespaces

theorem AddsCommit.keepsState_putRef {s t : Storage Id} {c : Commit Id}
    (h : AddsCommit s c t)
    (hhead : ∀ old, s.refAt ns name = some old → c.parents = [old] ∧
      s.rootOf old = some c.stateRoot) :
    KeepsState ns name s (t.putRef ns name c.id) where
  expands := ⟨h.grows.objects, h.grows.commits, h.namespaces⟩
  head := by
    intro old root hold hroot
    obtain ⟨hparents, hsame⟩ := hhead old hold
    have hget : (t.putRef ns name c.id).getCommit c.id = some c := h.getCommit
    refine ⟨c.id, refAt_putRef_self _ _ _ _, ?_, ?_⟩
    · rw [rootOf_of_getCommit hget, ← hsame, hroot]
    · apply CommitStore.IsAncestor.of_mem_parents
      rw [CommitStore.parents_of_get hget, hparents]
      exact List.mem_singleton_self _

end Storage

namespace Repository

variable (repo : Repository)

theorem landCommit_keepsState {store : Storage Id} {refName : String}
    {head root : Id} {isBranch : Bool} {options : CommitOptions} {now : ℤ}
    (hhead : repo.headForWrite store refName = .ok (head, isBranch))
    (hroot : store.rootOf head = some root) :
    Storage.KeepsState repo.activeNamespace refName store
      (repo.landCommit store refName head isBranch root options now).2 := by
  have hadds := repo.createCommit_addsCommit store root [head] options now
  unfold landCommit
  split
  next e stored hcreate =>
    rw [hcreate] at hadds
    exact hadds.keepsState
  next c stored hcreate =>
    obtain ⟨rfl, hadds⟩ := repo.createCommit_eq_ok hcreate
    split
    next => exact hadds.keepsState
    next moved hmove =>
      rw [(repo.moveRef_eq_ok_true hmove).1]
      apply hadds.keepsState_putRef
      intro old hold
      have hsame : head = old := by
        rcases repo.headForWrite_eq_ok hhead with ⟨-, href⟩ | ⟨-, hnone, -⟩
        · exact Option.some.inj (href.symm.trans hold)
        · rw [hold] at hnone
          contradiction
      subst hsame
      exact ⟨rfl, hroot⟩
    next kept hmove =>
      unfold moveRef at hmove
      split at hmove
      next =>
        rcases repo.advanceRef_eq_ok hmove with ⟨htrue, -, -⟩ | ⟨-, -, rfl⟩
        · simp at htrue
        · exact hadds.keepsState
      next =>
        obtain ⟨s, -, hmove⟩ := Except.bind_eq_ok_iff.mp hmove
        simp at hmove

theorem writeTaintIntent_keepsState (store : Storage Id) (refName : String)
    (options : CommitOptions) (now : ℕ → ℤ) :
    Storage.KeepsState repo.activeNamespace refName store
      (repo.writeTaintIntent store refName options now).2 := by
  refine casLoop_invariant
    (P := Storage.KeepsState repo.activeNamespace refName store) ?_
    (Storage.KeepsState.refl store)
  intro i mid hmid
  refine hmid.trans ?_
  unfold writeAttempt
  split
  next => exact Storage.KeepsState.refl mid
  next head isBranch hhead =>
    split
    next => exact Storage.KeepsState.refl mid
    next root hroot => exact repo.landCommit_keepsState hhead hroot

theorem raiseTaint_keepsState (store : Storage Id) (refName : String)
    (e : Escalation) (now : ℕ → ℤ) :
    Storage.KeepsState repo.activeNamespace refName store
      (repo.raiseTaint store refName e now).2 := by
  unfold raiseTaint
  split
  next => exact Storage.KeepsState.refl store
  next recorded hraise =>
    have hns : recorded.namespaces = store.namespaces := by
      unfold Storage.createTaint at hraise
      split at hraise
      next => contradiction
      next =>
        simp only [Except.ok.injEq] at hraise
        rw [← hraise]
    have hrecord : Storage.KeepsState repo.activeNamespace refName store
        recorded := .of_grows (Storage.createTaint_grows hraise) hns
    have hintent := hrecord.trans
      (repo.writeTaintIntent_keepsState recorded refName e.options now)
    split
    next err store' hwrite =>
      rw [hwrite] at hintent
      exact hintent
    next id store' hwrite =>
      rw [hwrite] at hintent
      exact hintent.trans
        (.of_grows (Storage.setTaintCommitId_grows store' _ _) rfl)

theorem autoEscalateWatches_keepsState (refName : String) (now : ℕ → ℤ)
    (fired : List Escalation) (store : Storage Id) :
    Storage.KeepsState repo.activeNamespace refName store
      (repo.autoEscalateWatches refName now fired store).2 := by
  induction fired generalizing store with
  | nil => exact Storage.KeepsState.refl store
  | cons e fired ih =>
      have hraise := repo.raiseTaint_keepsState store refName e now
      unfold autoEscalateWatches
      split
      next err store' h =>
        rw [h] at hraise
        exact hraise
      next store' h =>
        rw [h] at hraise
        exact hraise.trans (ih store')

theorem escalateAfter_keepsState (refName : String) (options : CommitOptions)
    (fired : List Escalation) (now : ℕ → ℤ) (id : Id) (store : Storage Id) :
    Storage.KeepsState repo.activeNamespace refName store
      (repo.escalateAfter refName options fired now id store).2 := by
  have hwatches := repo.autoEscalateWatches_keepsState refName now fired store
  unfold escalateAfter
  split
  next => exact Storage.KeepsState.refl store
  next =>
    split
    next err store' h =>
      rw [h] at hwatches
      exact hwatches
    next store' h =>
      rw [h] at hwatches
      exact hwatches

end Repository

/-! ## Setting a document -/

/-- The new state is the old one with a value at a path. -/
structure SetsAt (objects : ObjectStore Id) (root newRoot : Id)
    (path : List PathComponent) (value : Json) : Prop where
  holds : HoldsAt objects newRoot path value
  frame : ∀ q, PathsDisjoint path q → AgreeAt objects root newRoot q

theorem SetsAt.mono {s t : ObjectStore Id} (hle : s ≤ t) {root newRoot : Id}
    {path : List PathComponent} {value : Json}
    (h : SetsAt s root newRoot path value) :
    SetsAt t root newRoot path value :=
  ⟨h.holds.mono hle, fun q hq => (h.frame q hq).mono hle⟩

/-- A document elsewhere is kept. -/
theorem SetsAt.holdsAt_of_disjoint {s t : ObjectStore Id} {root newRoot : Id}
    {path q : List PathComponent} {value other : Json}
    (h : SetsAt t root newRoot path value) (hle : s ≤ t)
    (hq : PathsDisjoint path q) (hother : HoldsAt s root q other) :
    HoldsAt t newRoot q other :=
  (hother.mono hle).of_idAt_eq ((h.frame q hq) t (le_refl _)).symm

theorem setsAt_treeSet {store store' : ObjectStore Id} {root newRoot : Id}
    {path : StatePath} {value : Json}
    (h : treeSet (jsonToTree store value).2 root path
      (jsonToObjects value).1 = (.ok newRoot, store')) :
    SetsAt store' root newRoot path.components value where
  holds := holdsAt_treeSet h (le_refl _)
  frame := fun _ hq _ hview => (treeSet_idAt h hview hq).symm

/-- A speculation's state with a value set. -/
def specSet (store : Storage Id) (spec : Speculation Id) (path : String)
    (value : Object Id) : Outcome Id (Speculation Id) :=
  match parsePath path with
  | .error e => (.error (.speculation e), store)
  | .ok statePath =>
      match treeSet store.objects spec.currentRoot statePath value with
      | (.error e, objects) =>
          (.error (.speculation e), store.withObjects objects)
      | (.ok newRoot, objects) =>
          (.ok { spec with currentRoot := newRoot }, store.withObjects objects)

def specSetJson (store : Storage Id) (spec : Speculation Id) (path : String)
    (value : Json) : Outcome Id (Speculation Id) :=
  let (rootId, objects) := jsonToTree store.objects value
  let stored := store.withObjects objects
  match stored.getObject rootId with
  | none => (.error (.refNotFound "value"), stored)
  | some o => specSet stored spec path o

theorem specSetJson_addsObjects (store : Storage Id) (spec : Speculation Id)
    (path : String) (value : Json) :
    store.AddsObjects (specSetJson store spec path value).2 := by
  have hjson : store.AddsObjects
      (store.withObjects (jsonToTree store.objects value).2) :=
    Storage.addsObjects_withObjects (le_jsonToTree store.objects value)
  unfold specSetJson
  simp only
  split
  next => exact hjson
  next o ho =>
    refine hjson.trans ?_
    unfold specSet
    split
    next => exact Storage.AddsObjects.refl _
    next p hp =>
      have hle := le_treeSet (jsonToTree store.objects value).2
        spec.currentRoot p o
      split
      next e objects h =>
        simp only [Storage.withObjects] at h
        rw [h] at hle
        exact Storage.addsObjects_withObjects hle
      next newRoot objects h =>
        simp only [Storage.withObjects] at h
        rw [h] at hle
        exact Storage.addsObjects_withObjects hle

theorem specSetJson_eq_ok {store built : Storage Id} {spec spec' : Speculation Id}
    {path : String} {value : Json}
    (h : specSetJson store spec path value = (.ok spec', built)) :
    ∃ p, StatePath.parse path = .ok p ∧
      spec' = { spec with currentRoot := spec'.currentRoot } ∧
      SetsAt built.objects spec.currentRoot spec'.currentRoot p.components
        value := by
  unfold specSetJson at h
  simp only at h
  split at h
  next => simp at h
  next o ho =>
    have hvalue := Repository.eq_of_getObject_jsonToTree ho
    unfold specSet at h
    split at h
    next => simp at h
    next p hp =>
      have hlift : (liftTree (parsePath path) :
          Except (RepoError Id) StatePath) = .ok p := by
        rw [hp]
        rfl
      have hparse := parsePath_eq_ok hlift
      split at h
      next => simp at h
      next newRoot objects hset =>
        simp only [Prod.mk.injEq, Except.ok.injEq] at h
        obtain ⟨rfl, rfl⟩ := h
        rw [hvalue] at hset
        exact ⟨p, hparse, rfl, setsAt_treeSet hset⟩

namespace Repository

variable (repo : Repository)

/-- A speculation forked from the state of a ref. -/
def speculate (store : Storage Id) (fromRef : String) (label : Option String) :
    Except (RepoError Id) (Speculation Id) := do
  let root ← repo.headRoot store fromRef
  .ok ⟨label, fromRef, root, root⟩

/-- An operation that failed before its ref moved. -/
structure Refused {α : Type} (refName : String) (store : Storage Id)
    (out : Outcome Id α) : Prop where
  error : ∃ e, out.1 = .error e
  expands : store.Expands out.2
  refAt : out.2.refAt repo.activeNamespace refName =
    store.refAt repo.activeNamespace refName

variable {refName path : String} {store : Storage Id} {head : Id} {value : Json}

theorem Refused.advances {α : Type} {out : Outcome Id α}
    (h : repo.Refused refName store out) :
    Storage.Advances repo.activeNamespace refName store out.2 :=
  .of_refAt_eq h.expands h.refAt

theorem refused_of_grows {α : Type} {s t : Storage Id} {e : RepoError Id}
    (hgrows : s.Grows t) (hns : t.namespaces = s.namespaces) :
    repo.Refused refName s ((.error e, t) : Outcome Id α) where
  error := ⟨e, rfl⟩
  expands := ⟨hgrows.objects, hgrows.commits, hns⟩
  refAt := by simp only [Storage.refAt, hgrows.refs]

theorem buildOnExpected_namespaces (store : Storage Id) (refName : String)
    (expectedHead : Id) (path : String) (value : Json) (options : CommitOptions)
    (now : ℤ) :
    (repo.buildOnExpected store refName expectedHead path value options
      now).2.namespaces = store.namespaces := by
  unfold buildOnExpected
  split
  next => rfl
  next root hroot =>
    simp only
    split
    next => rfl
    next o ho =>
      split
      next => rfl
      next p hp =>
        have hadds := setRoot_onlyAdds p o
          (store.withObjects (jsonToTree store.objects value).2) root
        split
        next e built hbuild =>
          rw [hbuild] at hadds
          exact hadds.namespaces
        next newRoot built hbuild =>
          rw [hbuild] at hadds
          have hcommit := repo.createCommit_addsCommit built newRoot
            [expectedHead] options now
          exact hcommit.namespaces.trans hadds.namespaces

/-- `set_json_cas` was refused, or its ref left the head it names for one with
the value set in its state. -/
theorem setJsonCas_built (store : Storage Id) (refName : String)
    (expectedHead : Id) (path : String) (value : Json) (options : CommitOptions)
    (fired : List Escalation) (now : ℕ → ℤ) :
    repo.Refused refName store (repo.setJsonCas store refName expectedHead path
        value options fired now) ∨
      ∃ root newRoot p objects, store.rootOf expectedHead = some root ∧
        StatePath.parse path = .ok p ∧
        treeSet (jsonToTree store.objects value).2 root p
          (jsonToObjects value).1 = (.ok newRoot, objects) ∧
        objects ≤ (repo.setJsonCas store refName expectedHead path value options
          fired now).2.objects ∧
        store.LandsOn repo.activeNamespace refName (repo.setJsonCas store
          refName expectedHead path value options fired now).2 expectedHead
          newRoot ∧
        (repo.setJsonCas store refName expectedHead path value options fired
          now).2.refAt repo.activeNamespace refName ≠ some expectedHead := by
  have hgrows := repo.buildOnExpected_grows store refName expectedHead path
    value options (now 0)
  have hns := repo.buildOnExpected_namespaces store refName expectedHead path
    value options (now 0)
  unfold setJsonCas
  split
  next e hcheck =>
    exact Or.inl (repo.refused_of_grows (Storage.Grows.refl store) rfl)
  next hcheck =>
    split
    next e built hbuild =>
      rw [hbuild] at hgrows hns
      exact Or.inl (repo.refused_of_grows hgrows hns)
    next c built hbuild =>
      rw [hbuild] at hgrows hns
      split
      next e hmove => exact Or.inl (repo.refused_of_grows hgrows hns)
      next kept hmove =>
        rcases repo.advanceRef_eq_ok hmove with ⟨hfalse, -, -⟩ | ⟨-, -, rfl⟩
        · simp at hfalse
        · exact Or.inl (repo.refused_of_grows hgrows hns)
      next moved hmove =>
        have hkeeps := repo.escalateAfter_keepsState refName options fired now
          c.id moved
        obtain ⟨root, p, based, hroot, hp, hset, hadds, hc, hcommit⟩ :=
          repo.buildOnExpected_eq_ok hbuild
        have hparents : c.parents = [expectedHead] := by rw [hc]; rfl
        obtain ⟨-, href, rfl⟩ | ⟨hfalse, -, -⟩ := repo.advanceRef_eq_ok hmove
        · refine Or.inr ⟨root, c.stateRoot, p, based.objects, hroot, hp, hset,
            hcommit.objects.ge.trans hkeeps.expands.objects, ?_, ?_⟩
          · exact (Storage.landsOn_putRef hgrows hns hcommit.getCommit hparents
              href).keepsState hkeeps
          · -- a later head outranks the one it was built on
            intro hback
            obtain ⟨new, hnew, -, hanc⟩ := hkeeps.head c.id c.stateRoot
              (Storage.refAt_putRef_self _ _ _ _)
              (Storage.rootOf_of_getCommit (c := c) hcommit.getCommit)
            rw [hback, Option.some.injEq] at hnew
            have hlt : Digest.rank expectedHead < Digest.rank c.id :=
              Commit.rank_lt_of_mem_parents (by simp [hparents])
            rw [← hnew] at hanc
            rcases hanc.rank_le with hsame | hlt'
            · rw [hsame] at hlt
              exact lt_irrefl _ hlt
            · exact lt_asymm hlt hlt'
        · simp at hfalse

/-- `set_json_cas` was refused, or its value is in the state of the ref, on
the head it names. -/
theorem setJsonCas_cases (store : Storage Id) (refName : String)
    (expectedHead : Id) (path : String) (value : Json) (options : CommitOptions)
    (fired : List Escalation) (now : ℕ → ℤ) :
    repo.Refused refName store (repo.setJsonCas store refName expectedHead path
        value options fired now) ∨
      ∃ root newRoot p, store.rootOf expectedHead = some root ∧
        StatePath.parse path = .ok p ∧
        store.LandsOn repo.activeNamespace refName (repo.setJsonCas store
          refName expectedHead path value options fired now).2 expectedHead
          newRoot ∧
        SetsAt (repo.setJsonCas store refName expectedHead path value options
          fired now).2.objects root newRoot p.components value := by
  rcases repo.setJsonCas_built store refName expectedHead path value options
    fired now with hrefused | ⟨root, newRoot, p, objects, hroot, hp, hset, hle,
      hlands, -⟩
  · exact Or.inl hrefused
  · exact Or.inr ⟨root, newRoot, p, hroot, hp, hlands,
      (setsAt_treeSet hset).mono hle⟩

theorem commitSpeculationCas_cases (store : Storage Id) (spec : Speculation Id)
    (expectedHead : Id) (options : CommitOptions) (now : ℤ) :
    repo.Refused spec.baseRef store (repo.commitSpeculationCas store spec
        expectedHead options now) ∨
      store.rootOf expectedHead = some spec.baseRoot ∧
      (∃ id, (repo.commitSpeculationCas store spec expectedHead options now).1 =
        .ok id) ∧
      store.LandsOn repo.activeNamespace spec.baseRef (repo.commitSpeculationCas
        store spec expectedHead options now).2 expectedHead
        spec.currentRoot := by
  have hgrows := repo.buildSpeculation_grows store spec expectedHead options now
  have hns : (repo.buildSpeculation store spec expectedHead options
      now).2.namespaces = store.namespaces := by
    have hsnd := landAsIs_snd store spec
    unfold buildSpeculation
    split
    next => rfl
    next =>
      split
      next => rfl
      next =>
        split
        next => rfl
        next =>
          split
          next hland =>
            rw [hland] at hsnd
            exact congrArg Storage.namespaces hsnd
          next root store' hland =>
            rw [hland] at hsnd
            have hcommit := repo.createCommit_addsCommit store' root
              [expectedHead] options now
            rw [hcommit.namespaces]
            exact congrArg Storage.namespaces hsnd
  unfold commitSpeculationCas
  split
  next e built hbuild =>
    rw [hbuild] at hgrows hns
    exact Or.inl (repo.refused_of_grows hgrows hns)
  next c built hbuild =>
    rw [hbuild] at hgrows hns
    split
    next e hmove => exact Or.inl (repo.refused_of_grows hgrows hns)
    next kept hmove =>
      rcases repo.advanceRef_eq_ok hmove with ⟨hfalse, -, -⟩ | ⟨-, -, rfl⟩
      · simp at hfalse
      · exact Or.inl (repo.refused_of_grows hgrows hns)
    next moved hmove =>
      obtain ⟨hroot, -, rfl, hcommit⟩ := repo.buildSpeculation_eq_ok hbuild
      obtain ⟨-, href, rfl⟩ | ⟨hfalse, -, -⟩ := repo.advanceRef_eq_ok hmove
      · exact Or.inr ⟨hroot, ⟨_, rfl⟩, Storage.landsOn_putRef hgrows hns
          hcommit.getCommit rfl href⟩
      · simp at hfalse

/-! ## Reading a document -/

theorem getJson_of_readsAt {root : Id} {p : StatePath}
    (hns : repo.activeNamespace ∈ store.namespaces)
    (hhead : store.refAt repo.activeNamespace refName = some head)
    (hroot : store.rootOf head = some root) (hp : StatePath.parse path = .ok p)
    (hpath : pathIsSecret path = false)
    (h : ReadsAt store.objects root p.components value) :
    repo.getJson store refName path = .ok value := by
  obtain ⟨x, o, hx, ho, hjson⟩ := h
  have hres := repo.resolveRef_of_refAt hns hhead
  obtain ⟨c, hcommit, rfl⟩ : ∃ c, store.getCommit head = some c ∧
      c.stateRoot = root := by
    simpa [Storage.rootOf] using hroot
  have hparse : parsePath path = (.ok p : Except (TreeError Id) _) := by
    simp [parsePath, hp]
  have hget : treeGet store.objects c.stateRoot p = .ok o :=
    treeGet_eq_ok_iff.mpr ⟨x, hx, ho⟩
  simp only [getJson, get, hpath, headRoot, hres, hcommit, hparse, liftTree,
    hget, hjson, Except.ok_bind, Bool.false_eq_true, if_false]

theorem getJson_of_holdsAt {root : Id} {p : StatePath}
    (hns : repo.activeNamespace ∈ store.namespaces)
    (hhead : store.refAt repo.activeNamespace refName = some head)
    (hroot : store.rootOf head = some root) (hp : StatePath.parse path = .ok p)
    (hpath : pathIsSecret path = false) (hc : value.isCanonical = true)
    (h : HoldsAt store.objects root p.components value) :
    repo.getJson store refName path = .ok value :=
  repo.getJson_of_readsAt hns hhead hroot hp hpath (h.readsAt hc)

theorem getJson_eq_ok
    (hhead : store.refAt repo.activeNamespace refName = some head)
    (h : repo.getJson store refName path = .ok value) :
    pathIsSecret path = false ∧ repo.activeNamespace ∈ store.namespaces ∧
      ∃ root p, store.rootOf head = some root ∧
        StatePath.parse path = .ok p ∧
        ReadsAt store.objects root p.components value := by
  obtain ⟨obj, hget, hjson⟩ := Except.bind_eq_ok_iff.mp h
  unfold get at hget
  split at hget
  next => contradiction
  next hsecret =>
    obtain ⟨root, hroot, hget⟩ := Except.bind_eq_ok_iff.mp hget
    obtain ⟨p, hp, hget⟩ := Except.bind_eq_ok_iff.mp hget
    obtain ⟨x, hx, ho⟩ := treeGet_eq_ok_iff.mp (liftTree_eq_ok_iff.mp hget)
    obtain ⟨id, hid, hroot⟩ := Except.bind_eq_ok_iff.mp hroot
    have hns : repo.activeNamespace ∈ store.namespaces := by
      by_contra hns
      simp [resolveRef, Storage.getRef, hns, liftStorage] at hid
    rw [repo.resolveRef_of_refAt hns hhead, Except.ok.injEq] at hid
    subst hid
    refine ⟨by simpa using hsecret, hns, root, p, ?_, parsePath_eq_ok hp, x, obj,
      hx, ho, liftTree_eq_ok_iff.mp hjson⟩
    split at hroot
    next c hc =>
      rw [Except.ok.injEq] at hroot
      rw [Storage.rootOf_of_getCommit hc, hroot]
    next => contradiction

end Repository

/-! ## A state that is one document -/

namespace ContentKey

/-- The first commit of a state that is a document. -/
def documentCommit (tree : Json) : Commit ContentKey :=
  commitOf (jsonToObjects tree).1 [] 0

/-- A store whose main branch has a document for its state. -/
def documentStore (tree : Json) : Storage ContentKey :=
  { Storage.new with
    objects := (jsonToTree AddressedMap.empty tree).2
    commits := AddressedMap.empty.putAll [documentCommit tree] }.putRef "default"
      "main" (documentCommit tree).id

theorem holdsAt_documentStore (tree : Json) :
    HoldsAt (documentStore tree).objects (documentCommit tree).stateRoot [] tree
    where
  id := rfl
  stored := stored_jsonToTree AddressedMap.empty tree

theorem getJson_documentStore {tree value : Json} {path : String} {p : StatePath}
    (hp : StatePath.parse path = .ok p) (hpath : pathIsSecret path = false)
    (hc : value.isCanonical = true)
    (h : HoldsAt (documentStore tree).objects (documentCommit tree).stateRoot
      p.components value) :
    Repository.new.getJson (documentStore tree) "main" path = .ok value := by
  have hhead : (documentStore tree).getCommit (documentCommit tree).id =
      some (documentCommit tree) :=
    AddressedMap.get_putAll_of_mem Commit.id_injective _ List.mem_cons_self
  exact Repository.new.getJson_of_holdsAt List.mem_cons_self
    (Storage.refAt_putRef_self _ _ _ _) (Storage.rootOf_of_getCommit hhead) hp
    hpath hc h

end ContentKey

end AgentStateGraph
