import AgentStateGraph.Backend.Texts
import AgentStateGraph.Lib.StepRuns
import AgentStateGraph.Lib.WriteBehind

/-!
# Refs in the browser

The browser's storage keeps refs in memory and queues what it writes and what
it deletes for a table of the host.  A drain applies the two queues; on the
next start the table is loaded again.  The refs come back exactly when every
step of the run left no write and deletion of one ref in the same drain in the
wrong order, deleted no namespace that held refs, and wrote no ref of the
default namespace whose name reads as a qualified key.
-/

namespace AgentStateGraph

namespace Browser

open Bundles Backend WriteBehind

instance lawfulEqCmp_lex :
    Std.LawfulEqCmp (compare : String ×ₗ String → String ×ₗ String → Ordering) where
  eq_of_compare := compare_eq_iff_eq.mp

/-! ## The refs in memory -/

/-- The two tables of the in-memory backend that refs live in. -/
structure MemoryRefs where
  namespaces : List String
  refs : BTreeMap (String ×ₗ String) ObjectId

namespace MemoryRefs

def new : MemoryRefs where
  namespaces := [Namespace.DEFAULT]
  refs := ∅

variable (m : MemoryRefs)

def refAt (ns : Namespace) (name : String) : Option ObjectId :=
  m.refs[toLex (ns.name, name)]?

def requireNamespace (ns : Namespace) : Except BackendError Unit :=
  if ns.name ∈ m.namespaces then .ok ()
  else .error (.storage (.namespaceNotFound ns.name))

def createNamespace (ns : Namespace) : Except BackendError MemoryRefs :=
  if ns.name ∈ m.namespaces then .error (.namespaceAlreadyExists ns.name)
  else .ok { m with namespaces := ns.name :: m.namespaces }

def putRef (ns : Namespace) (name : String) (target : ObjectId) : MemoryRefs :=
  { m with refs := m.refs.insert (toLex (ns.name, name)) target }

def removeRef (ns : Namespace) (name : String) : MemoryRefs :=
  { m with refs := m.refs.erase (toLex (ns.name, name)) }

def setRef (ns : Namespace) (name : String) (target : ObjectId) :
    Except BackendError MemoryRefs := do
  m.requireNamespace ns
  .ok (m.putRef ns name target)

def casRef (ns : Namespace) (name : String) (expected new : ObjectId) :
    Except BackendError (Bool × MemoryRefs) := do
  m.requireNamespace ns
  match m.refAt ns name with
  | some current =>
      if current = expected then .ok (true, m.putRef ns name new)
      else .ok (false, m)
  | none => .ok (false, m)

def createRef (ns : Namespace) (name : String) (target : ObjectId) :
    Except BackendError (Bool × MemoryRefs) := do
  m.requireNamespace ns
  if (m.refAt ns name).isSome then .ok (false, m)
  else .ok (true, m.putRef ns name target)

def casDeleteRef (ns : Namespace) (name : String) (expected : ObjectId) :
    Except BackendError (Bool × MemoryRefs) := do
  m.requireNamespace ns
  if m.refAt ns name ≠ some expected then .ok (false, m)
  else .ok (true, m.removeRef ns name)

def deleteRef (ns : Namespace) (name : String) :
    Except BackendError (Bool × MemoryRefs) := do
  m.requireNamespace ns
  .ok ((m.refAt ns name).isSome, m.removeRef ns name)

/-- The namespace and every ref in it go. -/
def deleteNamespace (ns : Namespace) :
    Except BackendError (Bool × MemoryRefs) :=
  if ns.name = Namespace.DEFAULT then
    .error (.invalidOperation "cannot delete the 'default' namespace")
  else if ns.name ∈ m.namespaces then
    .ok (true,
      { namespaces := m.namespaces.filter (· ≠ ns.name)
        refs := m.refs.filter fun key _ => (ofLex key).1 ≠ ns.name })
  else .ok (false, m)

end MemoryRefs

/-! ## Keys of the host's table -/

def NAMESPACE_SEPARATOR : Char := '\x1f'

def refKey (ns : Namespace) (name : String) : String :=
  if ns.name = Namespace.DEFAULT then name
  else ns.name ++ String.singleton NAMESPACE_SEPARATOR ++ name

def parseRefKey (key : String) : Namespace × String :=
  match splitOnce NAMESPACE_SEPARATOR key with
  | some (ns, name) =>
      match Namespace.new ns with
      | .ok ns => (ns, name)
      | .error _ => (.defaultNs, key)
  | none => (.defaultNs, key)

/-! ## The storage and its queues -/

structure IndexedDb where
  memory : MemoryRefs
  pendingRefs : List (String × String)
  deletedRefs : List String

namespace IndexedDb

def new : IndexedDb where
  memory := .new
  pendingRefs := []
  deletedRefs := []

variable (db : IndexedDb)

/-- The write of a ref, queued. -/
def queueWrite (memory : MemoryRefs) (ns : Namespace) (name : String)
    (target : ObjectId) : IndexedDb :=
  { db with
    memory
    pendingRefs := db.pendingRefs ++ [(refKey ns name, target.display)] }

/-- The deletion of a ref, queued. -/
def queueDeletion (memory : MemoryRefs) (ns : Namespace) (name : String) :
    IndexedDb :=
  { db with memory, deletedRefs := db.deletedRefs ++ [refKey ns name] }

def createNamespace (ns : Namespace) : Except BackendError IndexedDb := do
  let memory ← db.memory.createNamespace ns
  .ok { db with memory }

def setRef (ns : Namespace) (name : String) (target : ObjectId) :
    Except BackendError IndexedDb := do
  let memory ← db.memory.setRef ns name target
  .ok (db.queueWrite memory ns name target)

def casRef (ns : Namespace) (name : String) (expected new : ObjectId) :
    Except BackendError (Bool × IndexedDb) := do
  let (result, memory) ← db.memory.casRef ns name expected new
  if result then .ok (result, db.queueWrite memory ns name new)
  else .ok (result, { db with memory })

def createRef (ns : Namespace) (name : String) (target : ObjectId) :
    Except BackendError (Bool × IndexedDb) := do
  let (created, memory) ← db.memory.createRef ns name target
  if created then .ok (created, db.queueWrite memory ns name target)
  else .ok (created, { db with memory })

def casDeleteRef (ns : Namespace) (name : String) (expected : ObjectId) :
    Except BackendError (Bool × IndexedDb) := do
  let (deleted, memory) ← db.memory.casDeleteRef ns name expected
  if deleted then .ok (deleted, db.queueDeletion memory ns name)
  else .ok (deleted, { db with memory })

def deleteRef (ns : Namespace) (name : String) :
    Except BackendError (Bool × IndexedDb) := do
  let (result, memory) ← db.memory.deleteRef ns name
  if result then .ok (result, db.queueDeletion memory ns name)
  else .ok (result, { db with memory })

/-- Only the memory learns of it. -/
def deleteNamespace (ns : Namespace) :
    Except BackendError (Bool × IndexedDb) := do
  let (existed, memory) ← db.memory.deleteNamespace ns
  .ok (existed, { db with memory })

end IndexedDb

/-- `create_namespace`, for which a namespace that exists is no error. -/
def MemoryRefs.ensureNamespace (m : MemoryRefs) (ns : Namespace) :
    Except BackendError MemoryRefs :=
  match m.createNamespace ns with
  | .ok created => .ok created
  | .error (.namespaceAlreadyExists _) => .ok m
  | .error e => .error e

/-- One pair of the host's table, loaded into memory. -/
def loadRef (m : MemoryRefs) (pair : String × String) :
    Except BackendError MemoryRefs := do
  let id ← parseId "invalid hex id" pair.2
  let m ← m.ensureNamespace (parseRefKey pair.1).1
  m.setRef (parseRefKey pair.1).1 (parseRefKey pair.1).2 id

/-- Loaded refs replace writes that were queued for them before. -/
def IndexedDb.loadRefs (db : IndexedDb) (pairs : List (String × String)) :
    Except BackendError IndexedDb := do
  let memory ← pairs.foldlM loadRef db.memory
  .ok
    { db with
      memory
      pendingRefs := db.pendingRefs.filter fun w => w.1 ∉ pairs.map Prod.fst }

/-! ## Runs -/

inductive Op where
  | createNamespace (ns : Namespace)
  | setRef (ns : Namespace) (name : String) (target : ObjectId)
  | casRef (ns : Namespace) (name : String) (expected new : ObjectId)
  | createRef (ns : Namespace) (name : String) (target : ObjectId)
  | deleteRef (ns : Namespace) (name : String)
  | casDeleteRef (ns : Namespace) (name : String) (expected : ObjectId)
  | deleteNamespace (ns : Namespace)
  | drain

/-- The storage and the host's table. -/
structure Host where
  db : IndexedDb
  table : BTreeMap String String

/-- A refused call changes nothing. -/
def settle (db : IndexedDb) : Except BackendError IndexedDb → IndexedDb
  | .ok db' => db'
  | .error _ => db

def step (order : DrainOrder) (host : Host) : Op → Host
  | .createNamespace ns =>
      { host with db := settle host.db (host.db.createNamespace ns) }
  | .setRef ns name target =>
      { host with db := settle host.db (host.db.setRef ns name target) }
  | .casRef ns name expected new =>
      { host with
        db := settle host.db
          ((host.db.casRef ns name expected new).map Prod.snd) }
  | .createRef ns name target =>
      { host with
        db := settle host.db ((host.db.createRef ns name target).map Prod.snd) }
  | .deleteRef ns name =>
      { host with
        db := settle host.db ((host.db.deleteRef ns name).map Prod.snd) }
  | .casDeleteRef ns name expected =>
      { host with
        db := settle host.db
          ((host.db.casDeleteRef ns name expected).map Prod.snd) }
  | .deleteNamespace ns =>
      { host with
        db := settle host.db ((host.db.deleteNamespace ns).map Prod.snd) }
  | .drain =>
      { db := { host.db with pendingRefs := [], deletedRefs := [] }
        table := flush order host.table host.db.pendingRefs host.db.deletedRefs }

def start : Host where
  db := .new
  table := ∅

def run (order : DrainOrder) (ops : List Op) : Host :=
  StepRuns.run (step order) start ops

/-- The host's table after a final drain. -/
def Host.drained (order : DrainOrder) (host : Host) : BTreeMap String String :=
  flush order host.table host.db.pendingRefs host.db.deletedRefs

/-- Loading the drained table, in whatever order it is listed, gives a fresh
store the refs held in memory. -/
def Restores (order : DrainOrder) (host : Host) : Prop :=
  ∀ pairs, pairs.Perm (host.drained order).toList →
    ∃ db, IndexedDb.new.loadRefs pairs = .ok db ∧
      db.memory.refs = host.db.memory.refs

/-! ## What a call does -/

/-- What a call does to the refs. -/
inductive Effect where
  | none
  | write (ns : Namespace) (name : String) (target : ObjectId)
  | delete (ns : Namespace) (name : String)
  | dropNamespace (ns : Namespace)

/-- The effect, read off the state before the call. -/
def MemoryRefs.effect (m : MemoryRefs) : Op → Effect
  | .createNamespace _ | .drain => .none
  | .setRef ns name target =>
      if ns.name ∈ m.namespaces then .write ns name target else .none
  | .casRef ns name expected new =>
      if ns.name ∈ m.namespaces ∧ m.refAt ns name = some expected then
        .write ns name new
      else .none
  | .createRef ns name target =>
      if ns.name ∈ m.namespaces ∧ m.refAt ns name = Option.none then
        .write ns name target
      else .none
  | .deleteRef ns name =>
      if ns.name ∈ m.namespaces ∧ m.refAt ns name ≠ Option.none then
        .delete ns name
      else .none
  | .casDeleteRef ns name expected =>
      if ns.name ∈ m.namespaces ∧ m.refAt ns name = some expected then
        .delete ns name
      else .none
  | .deleteNamespace ns =>
      if ns.name ≠ Namespace.DEFAULT ∧ ns.name ∈ m.namespaces then
        .dropNamespace ns
      else .none

def Effect.onRefs (refs : BTreeMap (String ×ₗ String) ObjectId) :
    Effect → BTreeMap (String ×ₗ String) ObjectId
  | .none => refs
  | .write ns name target => refs.insert (toLex (ns.name, name)) target
  | .delete ns name => refs.erase (toLex (ns.name, name))
  | .dropNamespace ns => refs.filter fun key _ => (ofLex key).1 ≠ ns.name

def Effect.onPending (pending : List (String × String)) :
    Effect → List (String × String)
  | .write ns name target => pending ++ [(refKey ns name, target.display)]
  | _ => pending

def Effect.onDeleted (deleted : List String) : Effect → List String
  | .delete ns name => deleted ++ [refKey ns name]
  | _ => deleted

/-- The refs and the queues after the effect. -/
structure Performs (db : IndexedDb) (e : Effect) (db' : IndexedDb) : Prop where
  refs : db'.memory.refs = e.onRefs db.memory.refs
  pendingRefs : db'.pendingRefs = e.onPending db.pendingRefs
  deletedRefs : db'.deletedRefs = e.onDeleted db.deletedRefs

theorem performs_none (db : IndexedDb) : Performs db .none db :=
  ⟨rfl, rfl, rfl⟩

theorem erase_of_refAt_none {m : MemoryRefs} {ns : Namespace} {name : String}
    (h : m.refAt ns name = none) :
    m.refs.erase (toLex (ns.name, name)) = m.refs := by
  refine Std.ExtTreeMap.ext_getElem? fun key => ?_
  by_cases hkey : toLex (ns.name, name) = key
  · rw [← hkey, Std.ExtTreeMap.getElem?_erase_self]
    exact h.symm
  · simp [Std.ExtTreeMap.getElem?_erase, hkey]

theorem step_performs (order : DrainOrder) (host : Host) {op : Op}
    (hop : op ≠ .drain) :
    Performs host.db (host.db.memory.effect op) (step order host op).db ∧
      (step order host op).table = host.table := by
  cases op with
  | createNamespace ns =>
      refine ⟨?_, rfl⟩
      by_cases hns : ns.name ∈ host.db.memory.namespaces
      · simpa [step, IndexedDb.createNamespace, MemoryRefs.createNamespace,
          hns, settle, MemoryRefs.effect] using performs_none host.db
      · simp only [step, IndexedDb.createNamespace,
          MemoryRefs.createNamespace, hns, settle, MemoryRefs.effect]
        exact ⟨rfl, rfl, rfl⟩
  | setRef ns name target =>
      refine ⟨?_, rfl⟩
      by_cases hns : ns.name ∈ host.db.memory.namespaces
      · simp only [step, IndexedDb.setRef, MemoryRefs.setRef,
          MemoryRefs.requireNamespace, hns, settle, MemoryRefs.effect]
        exact ⟨rfl, rfl, rfl⟩
      · simp only [step, IndexedDb.setRef, MemoryRefs.setRef,
          MemoryRefs.requireNamespace, hns, settle, MemoryRefs.effect]
        exact ⟨rfl, rfl, rfl⟩
  | casRef ns name expected new =>
      refine ⟨?_, rfl⟩
      by_cases hns : ns.name ∈ host.db.memory.namespaces
      · cases hat : host.db.memory.refAt ns name with
        | none =>
            simp only [step, IndexedDb.casRef, MemoryRefs.casRef,
              MemoryRefs.requireNamespace, hns, hat, settle, MemoryRefs.effect]
            exact ⟨rfl, rfl, rfl⟩
        | some current =>
            by_cases hcur : current = expected
            · simp only [step, IndexedDb.casRef, MemoryRefs.casRef,
                MemoryRefs.requireNamespace, hns, hat, hcur, settle,
                MemoryRefs.effect]
              exact ⟨rfl, rfl, rfl⟩
            · simp only [step, IndexedDb.casRef, MemoryRefs.casRef,
                MemoryRefs.requireNamespace, hns, hat, hcur, settle,
                MemoryRefs.effect, Option.some.injEq]
              exact ⟨rfl, rfl, rfl⟩
      · simp only [step, IndexedDb.casRef, MemoryRefs.casRef,
          MemoryRefs.requireNamespace, hns, settle, MemoryRefs.effect]
        exact ⟨rfl, rfl, rfl⟩
  | createRef ns name target =>
      refine ⟨?_, rfl⟩
      by_cases hns : ns.name ∈ host.db.memory.namespaces
      · cases hat : host.db.memory.refAt ns name with
        | none =>
            simp only [step, IndexedDb.createRef, MemoryRefs.createRef,
              MemoryRefs.requireNamespace, hns, hat, settle, MemoryRefs.effect]
            exact ⟨rfl, rfl, rfl⟩
        | some current =>
            simp only [step, IndexedDb.createRef, MemoryRefs.createRef,
              MemoryRefs.requireNamespace, hns, hat, settle, MemoryRefs.effect]
            exact ⟨rfl, rfl, rfl⟩
      · simp only [step, IndexedDb.createRef, MemoryRefs.createRef,
          MemoryRefs.requireNamespace, hns, settle, MemoryRefs.effect]
        exact ⟨rfl, rfl, rfl⟩
  | deleteRef ns name =>
      refine ⟨?_, rfl⟩
      by_cases hns : ns.name ∈ host.db.memory.namespaces
      · cases hat : host.db.memory.refAt ns name with
        | none =>
            simp only [step, IndexedDb.deleteRef, MemoryRefs.deleteRef,
              MemoryRefs.requireNamespace, hns, hat, settle, MemoryRefs.effect]
            exact ⟨erase_of_refAt_none hat, rfl, rfl⟩
        | some current =>
            simp only [step, IndexedDb.deleteRef, MemoryRefs.deleteRef,
              MemoryRefs.requireNamespace, hns, hat, settle, MemoryRefs.effect]
            exact ⟨rfl, rfl, rfl⟩
      · simp only [step, IndexedDb.deleteRef, MemoryRefs.deleteRef,
          MemoryRefs.requireNamespace, hns, settle, MemoryRefs.effect]
        exact ⟨rfl, rfl, rfl⟩
  | casDeleteRef ns name expected =>
      refine ⟨?_, rfl⟩
      by_cases hns : ns.name ∈ host.db.memory.namespaces
      · by_cases hat : host.db.memory.refAt ns name = some expected
        · simp only [step, IndexedDb.casDeleteRef, MemoryRefs.casDeleteRef,
            MemoryRefs.requireNamespace, hns, hat, settle, MemoryRefs.effect,
            ne_eq, not_true_eq_false, and_self]
          exact ⟨rfl, rfl, rfl⟩
        · simp only [step, IndexedDb.casDeleteRef, MemoryRefs.casDeleteRef,
            MemoryRefs.requireNamespace, hns, hat, settle, MemoryRefs.effect,
            ne_eq, not_false_eq_true, and_false]
          exact ⟨rfl, rfl, rfl⟩
      · simp only [step, IndexedDb.casDeleteRef, MemoryRefs.casDeleteRef,
          MemoryRefs.requireNamespace, hns, settle, MemoryRefs.effect]
        exact ⟨rfl, rfl, rfl⟩
  | deleteNamespace ns =>
      refine ⟨?_, rfl⟩
      by_cases hdef : ns.name = Namespace.DEFAULT
      · simp only [step, IndexedDb.deleteNamespace, MemoryRefs.deleteNamespace,
          hdef, settle, MemoryRefs.effect, ne_eq, not_true_eq_false]
        exact ⟨rfl, rfl, rfl⟩
      · by_cases hns : ns.name ∈ host.db.memory.namespaces
        · simp only [step, IndexedDb.deleteNamespace,
            MemoryRefs.deleteNamespace, hdef, hns, settle, MemoryRefs.effect,
            ne_eq, not_false_eq_true, and_self]
          exact ⟨rfl, rfl, rfl⟩
        · simp only [step, IndexedDb.deleteNamespace,
            MemoryRefs.deleteNamespace, hdef, hns, settle, MemoryRefs.effect,
            ne_eq, not_false_eq_true, and_false]
          exact ⟨rfl, rfl, rfl⟩
  | drain => exact absurd rfl hop

theorem refAt_of_effect_delete {m : MemoryRefs} {op : Op} {ns : Namespace}
    {name : String} (h : m.effect op = .delete ns name) :
    m.refAt ns name ≠ none := by
  cases op with
  | deleteRef ns' name' =>
      simp only [MemoryRefs.effect] at h
      split at h
      next hcond =>
        obtain ⟨rfl, rfl⟩ := Effect.delete.inj h
        exact hcond.2
      · contradiction
  | casDeleteRef ns' name' expected =>
      simp only [MemoryRefs.effect] at h
      split at h
      next hcond =>
        obtain ⟨rfl, rfl⟩ := Effect.delete.inj h
        rw [hcond.2]
        exact Option.some_ne_none _
      · contradiction
  | createNamespace => contradiction
  | drain => contradiction
  | setRef ns' name' target =>
      simp only [MemoryRefs.effect] at h
      split at h <;> contradiction
  | casRef ns' name' expected new =>
      simp only [MemoryRefs.effect] at h
      split at h <;> contradiction
  | createRef ns' name' target =>
      simp only [MemoryRefs.effect] at h
      split at h <;> contradiction
  | deleteNamespace ns' =>
      simp only [MemoryRefs.effect] at h
      split at h <;> contradiction

/-! ## Keys that read back -/

/-- Where a ref stands in memory. -/
def refIndex (r : Namespace × String) : String ×ₗ String :=
  toLex (r.1.name, r.2)

theorem refIndex_injective : Function.Injective refIndex := by
  rintro ⟨⟨ns, _, _, _⟩, name⟩ ⟨⟨ns', _, _, _⟩, name'⟩ h
  obtain ⟨rfl, rfl⟩ := Prod.mk.inj (toLex.injective h)
  rfl

/-- A name of the default namespace must not begin with a namespace and the
separator. -/
def PlainName (ns : Namespace) (name : String) : Prop :=
  ns.name = Namespace.DEFAULT → ∀ before after,
    splitOnce NAMESPACE_SEPARATOR name = some (before, after) →
      ∀ ns', Namespace.new before ≠ .ok ns'

theorem length_of_splitOnce {sep : Char} {s before after : String}
    (h : splitOnce sep s = some (before, after)) :
    after.toList.length < s.toList.length := by
  rw [splitOnce] at h
  split at h
  · contradiction
  next c rest hdrop =>
    obtain ⟨-, rfl⟩ := Prod.mk.inj (Option.some.inj h)
    have hle := (List.dropWhile_suffix (· != sep) (l := s.toList)).length_le
    rw [hdrop] at hle
    rw [String.toList_ofList]
    exact hle

theorem separator_not_mem (ns : Namespace) :
    NAMESPACE_SEPARATOR ∉ ns.name.toList := by
  intro hmem
  have hchar := List.all_eq_true.mp ns.chars _ hmem
  exact absurd hchar (by decide)

theorem parseRefKey_refKey_iff (ns : Namespace) (name : String) :
    parseRefKey (refKey ns name) = (ns, name) ↔ PlainName ns name := by
  by_cases hdef : ns.name = Namespace.DEFAULT
  · have hns : ns = Namespace.defaultNs := by
      cases ns
      cases hdef
      rfl
    rw [refKey, if_pos hdef, parseRefKey]
    cases hsplit : splitOnce NAMESPACE_SEPARATOR name with
    | none => simp [PlainName, hns, hsplit]
    | some parts =>
        obtain ⟨before, after⟩ := parts
        dsimp only
        cases hnew : Namespace.new before with
        | error e => simp [PlainName, hns, hsplit, hnew]
        | ok ns' =>
            have hlen := length_of_splitOnce hsplit
            constructor
            · intro heq
              obtain ⟨-, rfl⟩ := Prod.mk.inj heq
              exact absurd hlen (lt_irrefl _)
            · intro hplain
              exact absurd hnew (hplain hdef _ _ hsplit ns')
  · have hparse : parseRefKey (refKey ns name) = (ns, name) := by
      rw [refKey, if_neg hdef, parseRefKey,
        splitOnce_append (separator_not_mem ns)]
      simp
    simp [hparse, PlainName, hdef]

/-! ## Loading -/

theorem ensureNamespace_ok (m : MemoryRefs) (ns : Namespace) :
    ∃ m', m.ensureNamespace ns = .ok m' ∧ ns.name ∈ m'.namespaces ∧
      m'.refs = m.refs := by
  by_cases hns : ns.name ∈ m.namespaces
  · refine ⟨m, ?_, hns, rfl⟩
    simp [MemoryRefs.ensureNamespace, MemoryRefs.createNamespace, hns]
  · refine ⟨{ m with namespaces := ns.name :: m.namespaces }, ?_,
      List.mem_cons_self, rfl⟩
    simp [MemoryRefs.ensureNamespace, MemoryRefs.createNamespace, hns]

theorem setRef_of_mem {m : MemoryRefs} {ns : Namespace}
    (h : ns.name ∈ m.namespaces) (name : String) (target : ObjectId) :
    m.setRef ns name target = .ok (m.putRef ns name target) := by
  rw [MemoryRefs.setRef, MemoryRefs.requireNamespace, if_pos h]
  rfl

theorem loadRef_of_parseId (m : MemoryRefs) {pair : String × String}
    {id : ObjectId} (h : parseId "invalid hex id" pair.2 = .ok id) :
    ∃ m', loadRef m pair = .ok m' ∧
      m'.refs = m.refs.insert (refIndex (parseRefKey pair.1)) id := by
  obtain ⟨m₁, hensure, hmem, hrefs⟩ := ensureNamespace_ok m (parseRefKey pair.1).1
  refine ⟨m₁.putRef (parseRefKey pair.1).1 (parseRefKey pair.1).2 id, ?_, ?_⟩
  · rw [loadRef, h, Except.ok_bind, hensure, Except.ok_bind,
      setRef_of_mem hmem]
  · rw [← hrefs]
    rfl

/-- A loaded pair and the write it becomes. -/
def Loads (pair : String × String) (w : (String ×ₗ String) × ObjectId) : Prop :=
  w.1 = refIndex (parseRefKey pair.1) ∧ parseId "invalid hex id" pair.2 = .ok w.2

theorem foldlM_loadRef_ok {pairs : List (String × String)} {m m' : MemoryRefs}
    (h : pairs.foldlM loadRef m = .ok m') :
    ∃ writes, List.Forall₂ Loads pairs writes ∧
      m'.refs = applyWrites m.refs writes := by
  induction pairs generalizing m with
  | nil =>
      cases h
      exact ⟨[], .nil, rfl⟩
  | cons pair pairs ih =>
      obtain ⟨m₁, hload, h⟩ := Except.bind_eq_ok_iff.mp h
      obtain ⟨id, hid, -⟩ := Except.bind_eq_ok_iff.mp hload
      obtain ⟨m₂, hload₂, hrefs⟩ := loadRef_of_parseId m hid
      obtain rfl : m₂ = m₁ := Except.ok.inj (hload₂.symm.trans hload)
      obtain ⟨writes, hall, hm'⟩ := ih h
      refine ⟨(refIndex (parseRefKey pair.1), id) :: writes,
        .cons ⟨rfl, hid⟩ hall, ?_⟩
      rw [hm', hrefs]
      rfl

theorem exists_foldlM_loadRef {pairs : List (String × String)}
    (h : ∀ pair ∈ pairs, ∃ id : ObjectId, pair.2 = id.display)
    (m : MemoryRefs) : ∃ m', pairs.foldlM loadRef m = .ok m' := by
  induction pairs generalizing m with
  | nil => exact ⟨m, rfl⟩
  | cons pair pairs ih =>
      obtain ⟨id, hid⟩ := h pair List.mem_cons_self
      have hparse : parseId "invalid hex id" pair.2 = .ok id := by
        rw [hid, parseId_display]
      obtain ⟨m₁, hload, -⟩ := loadRef_of_parseId m hparse
      obtain ⟨m', hm'⟩ := ih (fun p hp => h p (List.mem_cons_of_mem _ hp)) m₁
      refine ⟨m', ?_⟩
      rw [List.foldlM_cons, hload]
      exact hm'

/-! ## Refs and keys in step -/

/-- The drained table has every ref in memory under its key and nothing else,
and the keys read back. -/
structure Mirrors (order : DrainOrder) (host : Host) : Prop where
  named : ∀ i id, host.db.memory.refs[i]? = some id →
    ∃ ns name, i = refIndex (ns, name) ∧ PlainName ns name
  table : ∀ key text, (host.drained order)[key]? = some text ↔
    ∃ ns name id, host.db.memory.refAt ns name = some id ∧
      key = refKey ns name ∧ text = ObjectId.display id

section Mirrors

variable {order : DrainOrder} {host : Host}

theorem Mirrors.parseRefKey (h : Mirrors order host) {ns : Namespace}
    {name : String} {id : ObjectId}
    (hat : host.db.memory.refAt ns name = some id) :
    parseRefKey (refKey ns name) = (ns, name) := by
  obtain ⟨ns', name', hindex, hplain⟩ := h.named _ id hat
  have heq : (ns, name) = (ns', name') := refIndex_injective hindex
  obtain ⟨rfl, rfl⟩ := Prod.mk.inj heq
  exact (parseRefKey_refKey_iff ns name).mpr hplain

theorem Mirrors.key_eq (h : Mirrors order host) {key : String}
    (hkey : (host.drained order)[key]? ≠ none) {ns : Namespace} {name : String}
    (hparse : Browser.parseRefKey key = (ns, name)) : key = refKey ns name := by
  obtain ⟨text, htext⟩ := Option.ne_none_iff_exists'.mp hkey
  obtain ⟨ns', name', id, hat, rfl, -⟩ := (h.table key text).mp htext
  rw [h.parseRefKey hat] at hparse
  obtain ⟨rfl, rfl⟩ := Prod.mk.inj hparse
  rfl

variable {pairs : List (String × String)}

theorem nodup_of_perm_toList {t : BTreeMap String String}
    (h : pairs.Perm t.toList) : (pairs.map Prod.fst).Nodup := by
  have hperm := h.map Prod.fst
  rw [Std.ExtTreeMap.map_fst_toList_eq_keys] at hperm
  refine hperm.nodup_iff.mpr (Std.ExtTreeMap.distinct_keys.imp ?_)
  intro a b hab
  simpa using hab

theorem mem_of_perm_toList {t : BTreeMap String String}
    (h : pairs.Perm t.toList) {key text : String} :
    (key, text) ∈ pairs ↔ t[key]? = some text := by
  rw [h.mem_iff]
  exact Std.ExtTreeMap.mem_toList_iff_getElem?_eq_some

theorem Mirrors.mem_writes_iff (h : Mirrors order host)
    (hperm : pairs.Perm (host.drained order).toList)
    {writes : List ((String ×ₗ String) × ObjectId)}
    (hall : List.Forall₂ Loads pairs writes) {i : String ×ₗ String}
    {id : ObjectId} : (i, id) ∈ writes ↔ host.db.memory.refs[i]? = some id := by
  constructor
  · intro hmem
    obtain ⟨pair, hpair, hindex, hparse⟩ :=
      Except.exists_of_mem_forall₂ hall.flip hmem
    obtain ⟨ns, name, id', hat, hkey, htext⟩ :=
      (h.table pair.1 pair.2).mp ((mem_of_perm_toList hperm).mp hpair)
    rw [htext, parseId_display] at hparse
    obtain rfl : id' = id := Except.ok.inj hparse
    rw [hkey, h.parseRefKey hat] at hindex
    have hi : i = refIndex (ns, name) := hindex
    rw [hi]
    exact hat
  · intro hget
    obtain ⟨ns, name, rfl, hplain⟩ := h.named i id hget
    have hpair : (refKey ns name, ObjectId.display id) ∈ pairs :=
      (mem_of_perm_toList hperm).mpr
        ((h.table _ _).mpr ⟨ns, name, id, hget, rfl, rfl⟩)
    obtain ⟨⟨i', id'⟩, hmem, hindex, hparse⟩ :=
      Except.exists_of_mem_forall₂ hall hpair
    rw [parseId_display] at hparse
    have hid : id = id' := Except.ok.inj hparse
    have hi : i' = refIndex (ns, name) :=
      hindex.trans
        (congrArg refIndex ((parseRefKey_refKey_iff ns name).mpr hplain))
    rwa [hi, ← hid] at hmem

theorem Mirrors.nodup_writes (h : Mirrors order host)
    (hperm : pairs.Perm (host.drained order).toList)
    {writes : List ((String ×ₗ String) × ObjectId)}
    (hall : List.Forall₂ Loads pairs writes) : (writes.map Prod.fst).Nodup := by
  have hkeys : writes.map Prod.fst =
      (pairs.map Prod.fst).map fun key => refIndex (Browser.parseRefKey key) := by
    clear hperm
    induction hall with
    | nil => rfl
    | cons hload _ ih => simp only [List.map_cons, ih, hload.1]
  rw [hkeys]
  refine List.Nodup.map_on ?_ (nodup_of_perm_toList hperm)
  intro key hkey key' hkey' heq
  have hnone : ∀ k, k ∈ pairs.map Prod.fst →
      (host.drained order)[k]? ≠ none := by
    intro k hk
    obtain ⟨⟨k', text⟩, hmem, rfl⟩ := List.mem_map.mp hk
    rw [(mem_of_perm_toList hperm).mp hmem]
    exact Option.some_ne_none _
  have hparse := refIndex_injective heq
  exact (h.key_eq (hnone key hkey) hparse).trans
    (h.key_eq (hnone key' hkey') rfl).symm

theorem Mirrors.restores (h : Mirrors order host) : Restores order host := by
  intro pairs hperm
  have hids : ∀ pair ∈ pairs, ∃ id : ObjectId, pair.2 = id.display := by
    rintro ⟨key, text⟩ hpair
    obtain ⟨ns, name, id, -, -, htext⟩ :=
      (h.table key text).mp ((mem_of_perm_toList hperm).mp hpair)
    exact ⟨id, htext⟩
  obtain ⟨m', hload⟩ := exists_foldlM_loadRef hids IndexedDb.new.memory
  obtain ⟨writes, hall, hrefs⟩ := foldlM_loadRef_ok hload
  refine ⟨_, by rw [IndexedDb.loadRefs, hload]; rfl, ?_⟩
  rw [hrefs]
  apply Std.ExtTreeMap.ext_getElem?
  intro i
  apply Option.ext
  intro id
  rw [← h.mem_writes_iff hperm hall]
  exact getElem?_applyWrites_empty_eq_some_iff (h.nodup_writes hperm hall)

theorem Restores.refAt_ne_none_iff (h : Restores order host) (ns : Namespace)
    (name : String) :
    host.db.memory.refAt ns name ≠ none ↔
      ∃ key, (host.drained order)[key]? ≠ none ∧
        Browser.parseRefKey key = (ns, name) := by
  obtain ⟨db, hload, hrefs⟩ := h _ (.refl _)
  obtain ⟨m', hfold, hdb⟩ := Except.bind_eq_ok_iff.mp hload
  obtain ⟨writes, hall, hm'⟩ := foldlM_loadRef_ok hfold
  have hmemory : host.db.memory.refs = applyWrites ∅ writes := by
    cases hdb
    rw [← hrefs]
    exact hm'
  rw [MemoryRefs.refAt, hmemory]
  constructor
  · intro hne
    have hmem : refIndex (ns, name) ∈ writes.map Prod.fst := by
      by_contra hout
      exact hne ((getElem?_applyWrites_of_not_mem hout).trans (by simp))
    obtain ⟨w, hw, hindex⟩ := List.mem_map.mp hmem
    obtain ⟨pair, hpair, hi, -⟩ := Except.exists_of_mem_forall₂ hall.flip hw
    refine ⟨pair.1, ?_, ?_⟩
    · rw [Std.ExtTreeMap.mem_toList_iff_getElem?_eq_some.mp hpair]
      exact Option.some_ne_none _
    · exact refIndex_injective (hi.symm.trans hindex)
  · rintro ⟨key, hkey, hparse⟩
    obtain ⟨text, htext⟩ := Option.ne_none_iff_exists'.mp hkey
    obtain ⟨w, hw, hi, -⟩ := Except.exists_of_mem_forall₂ hall
      (Std.ExtTreeMap.mem_toList_iff_getElem?_eq_some.mpr htext)
    apply getElem?_applyWrites_ne_none
    refine List.mem_map.mpr ⟨w, hw, ?_⟩
    rw [hi, hparse]
    rfl

end Mirrors

/-! ## Steps that keep the two in step -/

/-- What an effect must not do, judged on the state before it. -/
def Allowed (order : DrainOrder) (db : IndexedDb) : Effect → Prop
  | .none => True
  | .write ns name _ =>
      PlainName ns name ∧
        ¬ (order = .writesFirst ∧ refKey ns name ∈ db.deletedRefs)
  | .delete ns name =>
      ¬ (order = .deletionsFirst ∧
        refKey ns name ∈ db.pendingRefs.map Prod.fst)
  | .dropNamespace ns => ∀ name, db.memory.refAt ns name = none

section Steps

variable {order : DrainOrder} {host : Host}

theorem Mirrors.of_eq (h : Mirrors order host) {host' : Host}
    (hrefs : host'.db.memory.refs = host.db.memory.refs)
    (hdrained : host'.drained order = host.drained order) :
    Mirrors order host' where
  named := by
    rw [hrefs]
    exact h.named
  table := by
    intro key text
    rw [hdrained, h.table]
    simp only [MemoryRefs.refAt, hrefs]

theorem Mirrors.update (h : Mirrors order host) {host' : Host} {ns : Namespace}
    {name : String} (hplain : PlainName ns name) (value : Option ObjectId)
    (hrefs : ∀ i, host'.db.memory.refs[i]? =
      if i = refIndex (ns, name) then value else host.db.memory.refs[i]?)
    (hdrained : ∀ key, (host'.drained order)[key]? =
      if key = refKey ns name then value.map ObjectId.display
      else (host.drained order)[key]?) :
    Mirrors order host' := by
  have hkey : ∀ ns' name' id', host.db.memory.refAt ns' name' = some id' →
      (refKey ns' name' = refKey ns name ↔
        refIndex (ns', name') = refIndex (ns, name)) := by
    intro ns' name' id' hat
    constructor
    · intro heq
      have hparse := h.parseRefKey hat
      rw [heq, (parseRefKey_refKey_iff ns name).mpr hplain] at hparse
      rw [hparse]
    · intro heq
      obtain ⟨rfl, rfl⟩ := Prod.mk.inj (refIndex_injective heq)
      rfl
  constructor
  · intro i id hget
    rw [hrefs] at hget
    split at hget
    next heq => exact ⟨ns, name, heq, hplain⟩
    · exact h.named i id hget
  · intro key text
    rw [hdrained]
    constructor
    · intro hget
      split at hget
      next heq =>
        obtain ⟨id, rfl, rfl⟩ := Option.map_eq_some_iff.mp hget
        exact ⟨ns, name, id, (hrefs _).trans (if_pos rfl), heq, rfl⟩
      next hne =>
        obtain ⟨ns', name', id', hat, rfl, rfl⟩ := (h.table key text).mp hget
        refine ⟨ns', name', id', (hrefs _).trans ?_, rfl, rfl⟩
        exact (if_neg fun heq => hne ((hkey ns' name' id' hat).mpr heq)).trans hat
    · rintro ⟨ns', name', id', hat, rfl, rfl⟩
      replace hat := (hrefs (refIndex (ns', name'))).symm.trans hat
      split at hat
      next heq =>
        obtain ⟨rfl, rfl⟩ := Prod.mk.inj (refIndex_injective heq)
        rw [if_pos rfl, hat]
        rfl
      next hne =>
        rw [if_neg fun heq => hne ((hkey ns' name' id' hat).mp heq)]
        exact (h.table _ _).mpr ⟨ns', name', id', hat, rfl, rfl⟩

section Effects

variable {host' : Host} (htable : host'.table = host.table)

include htable

variable {ns : Namespace} {name : String}

theorem drained_write {target : ObjectId}
    (hperf : Performs host.db (.write ns name target) host'.db) (key : String) :
    (host'.drained order)[key]? =
      if key = refKey ns name then
        if order = .writesFirst ∧ refKey ns name ∈ host.db.deletedRefs then none
        else some target.display
      else (host.drained order)[key]? := by
  rw [Host.drained, hperf.pendingRefs, hperf.deletedRefs, htable]
  exact getElem?_flush_write _ _ _ _ _ _ _

theorem drained_delete_self
    (hperf : Performs host.db (.delete ns name) host'.db) :
    (host'.drained order)[refKey ns name]? = none ↔
      Allowed order host.db (.delete ns name) := by
  rw [Host.drained, hperf.pendingRefs, hperf.deletedRefs, htable]
  exact getElem?_flush_deletion_self _ _ _ _ _

theorem drained_delete_of_ne {key : String}
    (hperf : Performs host.db (.delete ns name) host'.db)
    (hne : key ≠ refKey ns name) :
    (host'.drained order)[key]? = (host.drained order)[key]? := by
  rw [Host.drained, hperf.pendingRefs, hperf.deletedRefs, htable]
  exact getElem?_flush_deletion_of_ne _ _ _ _ hne

theorem drained_dropNamespace
    (hperf : Performs host.db (.dropNamespace ns) host'.db) :
    host'.drained order = host.drained order := by
  rw [Host.drained, hperf.pendingRefs, hperf.deletedRefs, htable]
  rfl

theorem Mirrors.write (h : Mirrors order host) {target : ObjectId}
    (hperf : Performs host.db (.write ns name target) host'.db)
    (hallowed : Allowed order host.db (.write ns name target)) :
    Mirrors order host' := by
  refine h.update hallowed.1 (some target) ?_ ?_
  · intro i
    rw [hperf.refs]
    simp only [Effect.onRefs, refIndex, Std.ExtTreeMap.getElem?_insert,
      compare_eq_iff_eq, eq_comm (a := i)]
  · intro key
    rw [drained_write htable hperf, if_neg hallowed.2]
    rfl

theorem Mirrors.delete (h : Mirrors order host)
    (hperf : Performs host.db (.delete ns name) host'.db)
    (hat : host.db.memory.refAt ns name ≠ none)
    (hallowed : Allowed order host.db (.delete ns name)) :
    Mirrors order host' := by
  obtain ⟨id, hid⟩ := Option.ne_none_iff_exists'.mp hat
  have hplain := (parseRefKey_refKey_iff ns name).mp (h.parseRefKey hid)
  refine h.update hplain none ?_ ?_
  · intro i
    rw [hperf.refs]
    simp only [Effect.onRefs, refIndex, Std.ExtTreeMap.getElem?_erase,
      compare_eq_iff_eq, eq_comm (a := i)]
  · intro key
    split
    next heq =>
      rw [heq]
      exact (drained_delete_self htable hperf).mpr hallowed
    next hne => exact drained_delete_of_ne htable hperf hne

theorem Mirrors.dropNamespace (h : Mirrors order host)
    (hperf : Performs host.db (.dropNamespace ns) host'.db)
    (hallowed : Allowed order host.db (.dropNamespace ns)) :
    Mirrors order host' := by
  refine h.of_eq ?_ (drained_dropNamespace htable hperf)
  rw [hperf.refs]
  apply Std.ExtTreeMap.ext_getElem?
  intro i
  rw [Effect.onRefs, Std.ExtTreeMap.getElem?_filter']
  cases hget : host.db.memory.refs[i]? with
  | none => rfl
  | some id =>
      have hne : (ofLex i).1 ≠ ns.name := by
        intro heq
        have hnone := hallowed (ofLex i).2
        rw [MemoryRefs.refAt, ← heq] at hnone
        exact Option.some_ne_none id (hget.symm.trans hnone)
      simp [hne]

end Effects

theorem mirrors_start (order : DrainOrder) : Mirrors order start where
  named := by
    intro i id hget
    simp [start, IndexedDb.new, MemoryRefs.new] at hget
  table := by
    intro key text
    simp [start, Host.drained, IndexedDb.new, MemoryRefs.new, MemoryRefs.refAt]

theorem Mirrors.drain (h : Mirrors order host) :
    Mirrors order (step order host .drain) :=
  h.of_eq rfl (flush_nil order _)

theorem Mirrors.step (h : Mirrors order host) {op : Op}
    (hallowed : Allowed order host.db (host.db.memory.effect op)) :
    Mirrors order (step order host op) := by
  by_cases hop : op = .drain
  · rw [hop]
    exact h.drain
  · obtain ⟨hperf, htable⟩ := step_performs order host hop
    cases heffect : host.db.memory.effect op with
    | none =>
        rw [heffect] at hperf
        refine h.of_eq hperf.refs ?_
        rw [Host.drained, hperf.pendingRefs, hperf.deletedRefs, htable]
        rfl
    | write ns name target =>
        rw [heffect] at hperf hallowed
        exact h.write htable hperf hallowed
    | delete ns name =>
        rw [heffect] at hperf hallowed
        exact h.delete htable hperf (refAt_of_effect_delete heffect) hallowed
    | dropNamespace ns =>
        rw [heffect] at hperf hallowed
        exact h.dropNamespace htable hperf hallowed

/-- Any other step leaves a store that does not come back. -/
theorem Mirrors.allowed_of_restores (h : Mirrors order host) {op : Op}
    (hrestores : Restores order (Browser.step order host op)) :
    Allowed order host.db (host.db.memory.effect op) := by
  by_cases hop : op = .drain
  · rw [hop]
    trivial
  · obtain ⟨hperf, htable⟩ := step_performs order host hop
    cases heffect : host.db.memory.effect op with
    | none => trivial
    | write ns name target =>
        rw [heffect] at hperf
        have hat : (Browser.step order host op).db.memory.refAt ns name =
            some target := by
          rw [MemoryRefs.refAt, hperf.refs]
          exact Std.ExtTreeMap.getElem?_insert_self
        have hne : (Browser.step order host op).db.memory.refAt ns name ≠
            none := by
          rw [hat]
          exact Option.some_ne_none _
        obtain ⟨key, hkey, hparse⟩ :=
          (hrestores.refAt_ne_none_iff ns name).mp hne
        rw [drained_write htable hperf] at hkey
        have heq : key = refKey ns name := by
          by_contra hne
          rw [if_neg hne] at hkey
          exact hne (h.key_eq hkey hparse)
        rw [if_pos heq] at hkey
        constructor
        · rw [heq] at hparse
          exact (parseRefKey_refKey_iff ns name).mp hparse
        · intro hlost
          exact hkey (if_pos hlost)
    | delete ns name =>
        rw [heffect] at hperf
        obtain ⟨id, hid⟩ :=
          Option.ne_none_iff_exists'.mp (refAt_of_effect_delete heffect)
        have hat : (Browser.step order host op).db.memory.refAt ns name =
            none := by
          rw [MemoryRefs.refAt, hperf.refs]
          exact Std.ExtTreeMap.getElem?_erase_self
        rw [← drained_delete_self htable hperf]
        by_contra hkey
        exact (hrestores.refAt_ne_none_iff ns name).mpr
          ⟨_, hkey, h.parseRefKey hid⟩ hat
    | dropNamespace ns =>
        rw [heffect] at hperf
        intro name
        by_contra hne
        obtain ⟨id, hid⟩ := Option.ne_none_iff_exists'.mp hne
        have hat : (Browser.step order host op).db.memory.refAt ns name =
            none := by
          rw [MemoryRefs.refAt, hperf.refs, Effect.onRefs,
            Std.ExtTreeMap.getElem?_filter']
          simp
        have hkey : ((Browser.step order host op).drained order)[
            refKey ns name]? ≠ none := by
          rw [drained_dropNamespace htable hperf,
            (h.table _ _).mpr ⟨ns, name, id, hid, rfl, rfl⟩]
          exact Option.some_ne_none _
        exact (hrestores.refAt_ne_none_iff ns name).mpr
          ⟨_, hkey, h.parseRefKey hid⟩ hat

end Steps

/-- Every step of the run is allowed in the state it starts from. -/
def AllAllowed (order : DrainOrder) (ops : List Op) : Prop :=
  StepRuns.Throughout (step order) start ops fun host op =>
    Allowed order host.db (host.db.memory.effect op)

end Browser

open Browser WriteBehind in
/-- Along a run, the refs come back from every state exactly when every step
was allowed. -/
theorem browser_refs_restored_iff (order : DrainOrder) (ops : List Op) :
    (∀ before, before <+: ops → Restores order (run order before)) ↔
      AllAllowed order ops := by
  have hstart := mirrors_start order
  unfold run AllAllowed
  rw [StepRuns.forall_prefix_iff, and_iff_right hstart.restores]
  refine StepRuns.throughout_congr hstart ?_ ?_ ops
  · intro host op h
    exact ⟨h.allowed_of_restores, fun hallowed => (h.step hallowed).restores⟩
  · intro host op h hallowed
    exact h.step hallowed

namespace DroppedNamespace

open Bundles Browser WriteBehind

def project : Namespace where
  name := "p"
  nonempty := by decide
  short := by decide
  chars := by decide

def zero : ObjectId := ⟨List.replicate 32 0, Bundles.length_zeros⟩

def ops : List Op :=
  [.createNamespace project, .setRef project "main" zero, .drain,
    .deleteNamespace project]

/-- What loading the drained table gives for `main` of the namespace. -/
def reloaded (order : DrainOrder) : Except Backend.BackendError (Option ObjectId) :=
  (IndexedDb.new.loadRefs ((run order ops).drained order).toList).map
    fun db => db.memory.refAt project "main"

theorem not_restores {order : DrainOrder}
    (hreloaded : reloaded order = .ok (some zero))
    (hgone : (run order ops).db.memory.refAt project "main" = none) :
    ¬ Restores order (run order ops) := by
  intro h
  obtain ⟨db, hload, hrefs⟩ := h _ (.refl _)
  rw [reloaded, hload] at hreloaded
  have hback : db.memory.refAt project "main" = some zero :=
    Except.ok.inj hreloaded
  rw [MemoryRefs.refAt, hrefs] at hback
  exact Option.some_ne_none _ (hback.symm.trans hgone)

end DroppedNamespace

open DroppedNamespace Browser WriteBehind in
/-- The refs of a deleted namespace are back after the next start, whichever
queue a drain applies first. -/
theorem deleted_namespace_comes_back :
    ¬ Restores .writesFirst (run .writesFirst ops) ∧
      ¬ Restores .deletionsFirst (run .deletionsFirst ops) := by
  constructor
  · exact not_restores (by with_unfolding_all decide) (by with_unfolding_all decide)
  · exact not_restores (by with_unfolding_all decide) (by with_unfolding_all decide)

end AgentStateGraph
