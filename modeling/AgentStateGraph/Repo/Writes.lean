import AgentStateGraph.Repo.Guards
import AgentStateGraph.Tree.Json
import AgentStateGraph.Tree.Lookup

/-!
# Direct writes

`set`, `delete` and the intent commits of taints share one loop: read the
head, build a new root on its state, store a commit and move the ref; when
another writer moved it first, start over.  They differ in how the root is
built.
-/

namespace AgentStateGraph

variable {Id : Type} [Digest Id]

/-! ## The compare-and-swap loop -/

/-- How many times a ref write rebuilds on a moved head. -/
def MAX_REF_CAS_ATTEMPTS : ℕ := 256

/-- Attempts number `i`, `i + 1`, …; an attempt that lost the race returns
`none`. -/
def retryFrom (attempt : ℕ → Storage Id → Outcome Id (Option Id)) :
    ℕ → ℕ → Storage Id → Outcome Id Id
  | 0, _, store => (.error .writeConflict, store)
  | left + 1, i, store =>
      match attempt i store with
      | (.error e, store') => (.error e, store')
      | (.ok (some id), store') => (.ok id, store')
      | (.ok none, store') => retryFrom attempt left (i + 1) store'

def casLoop (attempt : ℕ → Storage Id → Outcome Id (Option Id))
    (store : Storage Id) : Outcome Id Id :=
  retryFrom attempt MAX_REF_CAS_ATTEMPTS 0 store

theorem casLoop_eq_ok {attempt : ℕ → Storage Id → Outcome Id (Option Id)}
    {store store' : Storage Id} {id : Id}
    (hne : ∀ store', attempt 0 store ≠ (.ok none, store'))
    (h : casLoop attempt store = (.ok id, store')) :
    attempt 0 store = (.ok (some id), store') := by
  simp only [casLoop, MAX_REF_CAS_ATTEMPTS] at h
  unfold retryFrom at h
  split at h
  next => simp at h
  next id' s hs =>
    simp only [Prod.mk.injEq, Except.ok.injEq] at h
    rw [hs, h.1, h.2]
  next s hs => exact (hne s hs).elim

theorem casLoop_eq_error {attempt : ℕ → Storage Id → Outcome Id (Option Id)}
    {store store' : Storage Id} {e : RepoError Id}
    (hne : ∀ store', attempt 0 store ≠ (.ok none, store'))
    (h : casLoop attempt store = (.error e, store')) :
    attempt 0 store = (.error e, store') := by
  simp only [casLoop, MAX_REF_CAS_ATTEMPTS] at h
  unfold retryFrom at h
  split at h
  next err s hs =>
    simp only [Prod.mk.injEq, Except.error.injEq] at h
    rw [hs, h.1, h.2]
  next => simp at h
  next s hs => exact (hne s hs).elim

/-- How an operation builds a new root on the state root of the head. -/
abbrev BuildRoot (Id : Type) [Digest Id] := Storage Id → Id → Outcome Id Id

namespace Repository

variable (repo : Repository)

/-- Store the commit built on `parent` and move the ref; `none` when the ref
had moved. -/
def landCommit (store : Storage Id) (refName : String) (parent : Id)
    (isBranch : Bool) (newRoot : Id) (options : CommitOptions) (now : ℤ) :
    Outcome Id (Option Id) :=
  match repo.createCommit store newRoot [parent] options now with
  | (.error e, stored) => (.error e, stored)
  | (.ok commit, stored) =>
      match repo.moveRef stored refName parent isBranch commit.id with
      | .error e => (.error e, stored)
      | .ok (true, moved) => (.ok (some commit.id), moved)
      | .ok (false, kept) => (.ok none, kept)

/-- One turn of the loop. -/
def writeAttempt (refName : String) (build : BuildRoot Id)
    (options : CommitOptions) (now : ℤ) (store : Storage Id) :
    Outcome Id (Option Id) :=
  match repo.headForWrite store refName with
  | .error e => (.error e, store)
  | .ok (head, isBranch) =>
      match store.rootOf head with
      | none => (.error (.refNotFound refName), store)
      | some root =>
          match build store root with
          | (.error e, built) => (.error e, built)
          | (.ok newRoot, built) =>
              repo.landCommit built refName head isBranch newRoot options now

/-- The whole loop; `now i` is the time of attempt `i`. -/
def writeLoop (refName : String) (build : BuildRoot Id)
    (options : CommitOptions) (now : ℕ → ℤ) (store : Storage Id) :
    Outcome Id Id :=
  casLoop (fun i => repo.writeAttempt refName build options (now i)) store

end Repository

/-! ## The operations -/

def setRoot (path : StatePath) (value : Object Id) : BuildRoot Id :=
  fun store root =>
    match treeSet store.objects root path value with
    | (.ok newRoot, objects) => (.ok newRoot, store.withObjects objects)
    | (.error e, objects) => (.error (.tree e), store.withObjects objects)

def deleteRoot (path : StatePath) : BuildRoot Id :=
  fun store root =>
    match treeDelete store.objects root path with
    | (.ok newRoot, objects) => (.ok newRoot, store.withObjects objects)
    | (.error e, objects) => (.error (.tree e), store.withObjects objects)

/-- An intent commit changes no state. -/
def sameRoot : BuildRoot Id := fun store root => (.ok root, store)

/-- A watch whose threshold a write crossed: the warning taint to raise and
the provenance of its intent commit.  Which watches fire is decided by
comparing floating-point metrics, which no result here depends on. -/
structure Escalation where
  record : Taint
  kind_eq : record.kind = .taint
  effect_eq : record.effect = .warn
  options : CommitOptions

namespace Repository

variable (repo : Repository)

def set (store : Storage Id) (refName path : String) (value : Object Id)
    (options : CommitOptions) (now : ℕ → ℤ) : Outcome Id Id :=
  match checkWrite store path options (now 0) with
  | .error e => (.error e, store)
  | .ok () =>
      match liftTree (parsePath path) with
      | .error e => (.error e, store)
      | .ok statePath =>
          repo.writeLoop refName (setRoot statePath value) options now store

def delete (store : Storage Id) (refName path : String)
    (options : CommitOptions) (now : ℕ → ℤ) : Outcome Id Id :=
  match checkWrite store path options (now 0) with
  | .error e => (.error e, store)
  | .ok () =>
      match liftTree (parsePath path) with
      | .error e => (.error e, store)
      | .ok statePath =>
          repo.writeLoop refName (deleteRoot statePath) options now store

/-- A bare intent commit, with no change of state. -/
def writeTaintIntent (store : Storage Id) (refName : String)
    (options : CommitOptions) (now : ℕ → ℤ) : Outcome Id Id :=
  repo.writeLoop refName sameRoot options now store

/-- Record a taint, write its intent commit, then note the commit in the
record. -/
def raiseTaint (store : Storage Id) (refName : String) (e : Escalation)
    (now : ℕ → ℤ) : Outcome Id Unit :=
  match store.createTaint e.record with
  | .error err => (.error (.storage err), store)
  | .ok recorded =>
      match repo.writeTaintIntent recorded refName e.options now with
      | (.error err, store') => (.error err, store')
      | (.ok id, store') =>
          (.ok (), store'.setTaintCommitId e.record.id
            ("sg_" ++ Digest.toHex id))

/-- Raise the taints of the watches that fired, in order. -/
def autoEscalateWatches (refName : String) (now : ℕ → ℤ) :
    List Escalation → Storage Id → Outcome Id Unit
  | [], store => (.ok (), store)
  | e :: fired, store =>
      match repo.raiseTaint store refName e now with
      | (.error err, store') => (.error err, store')
      | (.ok (), store') => autoEscalateWatches refName now fired store'

/-- After a write that is no taint commit, the watches that fired. -/
def escalateAfter (refName : String) (options : CommitOptions)
    (fired : List Escalation) (now : ℕ → ℤ) (id : Id) (store : Storage Id) :
    Outcome Id Id :=
  if isTaintLifecycleIntent options.intent.category then (.ok id, store)
  else
    match repo.autoEscalateWatches refName now fired store with
    | (.error e, store') => (.error e, store')
    | (.ok (), store') => (.ok id, store')

def setJson (store : Storage Id) (refName path : String) (value : Json)
    (options : CommitOptions) (fired : List Escalation) (now : ℕ → ℤ) :
    Outcome Id Id :=
  let (rootId, objects) := jsonToTree store.objects value
  let stored := store.withObjects objects
  match stored.getObject rootId with
  | none => (.error (.refNotFound "value"), stored)
  | some o =>
      match repo.set stored refName path o options now with
      | (.error e, store') => (.error e, store')
      | (.ok id, store') => repo.escalateAfter refName options fired now id store'

/-- The commit of `set_json_cas`, built on the head the caller expects. -/
def buildOnExpected (store : Storage Id) (refName : String) (expectedHead : Id)
    (path : String) (value : Json) (options : CommitOptions) (now : ℤ) :
    Outcome Id (Commit Id) :=
  match store.rootOf expectedHead with
  | none => (.error (.refNotFound refName), store)
  | some root =>
      let (rootId, objects) := jsonToTree store.objects value
      let stored := store.withObjects objects
      match stored.getObject rootId with
      | none => (.error (.refNotFound "value"), stored)
      | some o =>
          match liftTree (parsePath path) with
          | .error e => (.error e, stored)
          | .ok statePath =>
              match setRoot statePath o stored root with
              | (.error e, built) => (.error e, built)
              | (.ok newRoot, built) =>
                  repo.createCommit built newRoot [expectedHead] options now

def setJsonCas (store : Storage Id) (refName : String) (expectedHead : Id)
    (path : String) (value : Json) (options : CommitOptions)
    (fired : List Escalation) (now : ℕ → ℤ) : Outcome Id Id :=
  match checkWrite store path options (now 0) with
  | .error e => (.error e, store)
  | .ok () =>
      match repo.buildOnExpected store refName expectedHead path value options
          (now 0) with
      | (.error e, built) => (.error e, built)
      | (.ok commit, built) =>
          match repo.advanceRef built refName expectedHead commit.id with
          | .error e => (.error e, built)
          | .ok (false, kept) => (.error .writeConflict, kept)
          | .ok (true, moved) =>
              repo.escalateAfter refName options fired now commit.id moved

end Repository

/-! ## What a write does -/

/-- Building a root only adds objects. -/
def BuildRoot.OnlyAdds (build : BuildRoot Id) : Prop :=
  ∀ store root, Storage.AddsObjects store (build store root).2

theorem setRoot_onlyAdds (path : StatePath) (value : Object Id) :
    (setRoot path value).OnlyAdds := by
  intro store root
  have hle := le_treeSet store.objects root path value
  unfold setRoot
  split
  next objects h =>
    rw [h] at hle
    exact Storage.addsObjects_withObjects hle
  next objects h =>
    rw [h] at hle
    exact Storage.addsObjects_withObjects hle

theorem deleteRoot_onlyAdds (path : StatePath) :
    (deleteRoot path : BuildRoot Id).OnlyAdds := by
  intro store root
  have hle := le_treeDelete store.objects root path
  unfold deleteRoot
  split
  next objects h =>
    rw [h] at hle
    exact Storage.addsObjects_withObjects hle
  next objects h =>
    rw [h] at hle
    exact Storage.addsObjects_withObjects hle

theorem sameRoot_onlyAdds : (sameRoot : BuildRoot Id).OnlyAdds :=
  fun store _ => Storage.AddsObjects.refl store

theorem setRoot_eq_ok {path : StatePath} {value : Object Id}
    {store built : Storage Id} {root newRoot : Id}
    (h : setRoot path value store root = (.ok newRoot, built)) :
    treeSet store.objects root path value = (.ok newRoot, built.objects) := by
  unfold setRoot at h
  split at h
  next r objects heq =>
    simp only [Prod.mk.injEq, Except.ok.injEq] at h
    rw [heq, h.1, ← h.2]
    rfl
  next => simp at h

theorem deleteRoot_eq_ok {path : StatePath} {store built : Storage Id}
    {root newRoot : Id}
    (h : deleteRoot path store root = (.ok newRoot, built)) :
    treeDelete store.objects root path = (.ok newRoot, built.objects) := by
  unfold deleteRoot at h
  split at h
  next r objects heq =>
    simp only [Prod.mk.injEq, Except.ok.injEq] at h
    rw [heq, h.1, ← h.2]
    rfl
  next => simp at h

namespace Repository

variable (repo : Repository)

variable {store store' : Storage Id} {refName : String}
  {options : CommitOptions} {now : ℤ} {build : BuildRoot Id}

theorem landCommit_eq_ok {parent newRoot : Id} {isBranch : Bool} {id : Id}
    (h : repo.landCommit store refName parent isBranch newRoot options now =
      (.ok (some id), store')) :
    id = (CommitBuilder.build newRoot [parent] options now).id ∧
      store.Lands repo.activeNamespace refName
        (CommitBuilder.build newRoot [parent] options now) store' ∧
      (isBranch = true →
        store.refAt repo.activeNamespace refName = some parent) := by
  unfold landCommit at h
  split at h
  next => simp at h
  next c stored hcreate =>
    obtain ⟨rfl, hadds⟩ := repo.createCommit_eq_ok hcreate
    split at h
    next => simp at h
    next moved hmove =>
      simp only [Prod.mk.injEq, Except.ok.injEq, Option.some.injEq] at h
      obtain ⟨hmoved, hexp⟩ := repo.moveRef_eq_ok_true hmove
      refine ⟨h.1.symm, ?_, fun hb => ?_⟩
      · rw [← h.2, hmoved]
        exact hadds.lands _ _
      · have := hexp hb
        simpa only [Storage.refAt, hadds.refs] using this
    next => simp at h

/-- Undisturbed, the compare-and-swap never loses. -/
theorem writeAttempt_ne_none (hbuild : build.OnlyAdds) :
    repo.writeAttempt refName build options now store ≠ (.ok none, store') := by
  intro h
  unfold writeAttempt at h
  split at h
  next => simp at h
  next head isBranch hhead =>
    split at h
    next => simp at h
    next root hroot =>
      split at h
      next => simp at h
      next newRoot built hb =>
        have hadds : store.AddsObjects built := by
          have hadds := hbuild store root
          rwa [hb] at hadds
        unfold landCommit at h
        split at h
        next => simp at h
        next c stored hcreate =>
          obtain ⟨-, hcommit⟩ := repo.createCommit_eq_ok hcreate
          split at h
          next => simp at h
          next => simp at h
          next kept hmove =>
            unfold moveRef at hmove
            split at hmove
            next hbranch =>
              rcases repo.advanceRef_eq_ok hmove with ⟨ht, -, -⟩ | ⟨-, hne, -⟩
              · simp at ht
              · rcases repo.headForWrite_eq_ok hhead with ⟨-, href⟩ | ⟨hf, -, -⟩
                · apply hne
                  rw [← href]
                  simp only [Storage.refAt, hcommit.refs, hadds.refs]
                · simp [hf] at hbranch
            next =>
              obtain ⟨s, -, hmove⟩ := Except.bind_eq_ok_iff.mp hmove
              simp at hmove

theorem writeLoop_eq_ok (hbuild : build.OnlyAdds) {now : ℕ → ℤ} {id : Id}
    (h : repo.writeLoop refName build options now store = (.ok id, store')) :
    ∃ head isBranch root newRoot built,
      repo.headForWrite store refName = .ok (head, isBranch) ∧
      store.rootOf head = some root ∧
      build store root = (.ok newRoot, built) ∧
      id = (CommitBuilder.build newRoot [head] options (now 0)).id ∧
      built.Lands repo.activeNamespace refName
        (CommitBuilder.build newRoot [head] options (now 0)) store' := by
  have hattempt : repo.writeAttempt refName build options (now 0) store =
      (.ok (some id), store') :=
    casLoop_eq_ok (fun _ => repo.writeAttempt_ne_none hbuild) h
  unfold writeAttempt at hattempt
  split at hattempt
  next => simp at hattempt
  next head isBranch hhead =>
    split at hattempt
    next => simp at hattempt
    next root hroot =>
      split at hattempt
      next => simp at hattempt
      next newRoot built hb =>
        obtain ⟨hid, hlands, -⟩ := repo.landCommit_eq_ok hattempt
        exact ⟨head, isBranch, root, newRoot, built, hhead, hroot, hb, hid,
          hlands⟩

theorem writeLoop_eq_error (hbuild : build.OnlyAdds) {now : ℕ → ℤ}
    {e : RepoError Id}
    (h : repo.writeLoop refName build options now store = (.error e, store')) :
    store.Grows store' := by
  have hattempt : repo.writeAttempt refName build options (now 0) store =
      (.error e, store') :=
    casLoop_eq_error (fun _ => repo.writeAttempt_ne_none hbuild) h
  unfold writeAttempt at hattempt
  split at hattempt
  next =>
    rw [← (Prod.mk.inj hattempt).2]
    exact Storage.Grows.refl store
  next head isBranch hhead =>
    split at hattempt
    next =>
      rw [← (Prod.mk.inj hattempt).2]
      exact Storage.Grows.refl store
    next root hroot =>
      have hadds := (hbuild store root).grows
      split at hattempt
      next e' built hb =>
        rw [hb, (Prod.mk.inj hattempt).2] at hadds
        exact hadds
      next newRoot built hb =>
        rw [hb] at hadds
        have hcommit := (repo.createCommit_addsCommit built newRoot [head]
          options (now 0)).grows
        unfold landCommit at hattempt
        split at hattempt
        next e' stored hcreate =>
          rw [hcreate, (Prod.mk.inj hattempt).2] at hcommit
          exact hadds.trans hcommit
        next c stored hcreate =>
          rw [hcreate] at hcommit
          split at hattempt
          next => exact (Prod.mk.inj hattempt).2 ▸ hadds.trans hcommit
          next => simp at hattempt
          next => simp at hattempt

theorem buildOnExpected_grows (store : Storage Id) (refName : String)
    (expectedHead : Id) (path : String) (value : Json) (options : CommitOptions)
    (now : ℤ) :
    store.Grows (repo.buildOnExpected store refName expectedHead path value
      options now).2 := by
  have hjson : store.Grows
      (store.withObjects (jsonToTree store.objects value).2) :=
    (Storage.addsObjects_withObjects (le_jsonToTree store.objects value)).grows
  unfold buildOnExpected
  split
  · exact Storage.Grows.refl store
  next root hroot =>
    simp only
    split
    · exact hjson
    next o ho =>
      split
      · exact hjson
      next p hp =>
        have hset := hjson.trans (setRoot_onlyAdds p o
          (store.withObjects (jsonToTree store.objects value).2) root).grows
        split
        next e built hbuild =>
          rw [hbuild] at hset
          exact hset
        next newRoot built hbuild =>
          rw [hbuild] at hset
          exact hset.trans (repo.createCommit_addsCommit built newRoot
            [expectedHead] options now).grows

theorem eq_of_getObject_jsonToTree {value : Json} {o : Object Id}
    (h : (store.withObjects (jsonToTree store.objects value).2).getObject
      (jsonToTree store.objects value).1 = some o) :
    o = (jsonToObjects value).1 := by
  have hget := get_jsonToTree store.objects value
  simp only [Storage.getObject, Storage.withObjects] at h
  rw [h] at hget
  simpa using hget

theorem buildOnExpected_eq_ok {stored : Storage Id} {expectedHead : Id}
    {path : String} {value : Json} {c : Commit Id}
    (h : repo.buildOnExpected store refName expectedHead path value options now =
      (.ok c, stored)) :
    ∃ root p built,
      (store.withObjects (jsonToTree store.objects value).2).rootOf
        expectedHead = some root ∧
      StatePath.parse path = .ok p ∧
      treeSet (jsonToTree store.objects value).2 root p
        (jsonToObjects value).1 = (.ok c.stateRoot, built.objects) ∧
      (store.withObjects (jsonToTree store.objects value).2).AddsObjects
        built ∧
      c = CommitBuilder.build c.stateRoot [expectedHead] options now ∧
      built.AddsCommit c stored := by
  unfold buildOnExpected at h
  split at h
  next => simp at h
  next root hroot =>
    simp only at h
    split at h
    next => simp at h
    next o ho =>
      have hvalue := eq_of_getObject_jsonToTree ho
      split at h
      next => simp at h
      next p hp =>
        have hadds := setRoot_onlyAdds p o
          (store.withObjects (jsonToTree store.objects value).2) root
        split at h
        next => simp at h
        next newRoot built hbuild =>
          rw [hbuild] at hadds
          obtain ⟨rfl, hcommit⟩ := repo.createCommit_eq_ok h
          have hset := setRoot_eq_ok hbuild
          subst hvalue
          exact ⟨root, p, built, hroot, parsePath_eq_ok hp, hset, hadds, rfl,
            hcommit⟩

end Repository

end AgentStateGraph
