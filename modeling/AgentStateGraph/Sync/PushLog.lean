import AgentStateGraph.Gc.Sweep
import AgentStateGraph.Lib.StepRuns
import AgentStateGraph.Sync.Transfer
import AgentStateGraph.Tree.RoundTrip

/-!
# The push log

Each accepted push is recorded by a commit on a reserved ref, with the entry as
its tree.  Appends race for the head, and only the head is a ref's tip.  A
sweep keeps what tips and its policy reach, so the log reads back in full as
long as every sweep kept the trees of its entries.
-/

namespace AgentStateGraph

namespace PushLogs

/-! ## Entries -/

structure PushOverride where
  finding : String
  reason : String
deriving DecidableEq

structure PushLogEntry where
  time : ℤ
  pusher : String
  namespace_ : String
  name : String
  old : Option String
  new : String
  overrides : List PushOverride
deriving DecidableEq

/-- The text of a time, which reads back. -/
structure TimeText where
  format : ℤ → String
  parse : String → Except String ℤ
  parse_format : ∀ t, parse (format t) = .ok t

def PushOverride.toValue (o : PushOverride) : Json :=
  .object [("finding", .string o.finding), ("reason", .string o.reason)]

def optionalText : Option String → Json
  | none => .null
  | some s => .string s

variable (text : TimeText)

/-- `overrides` is left out when there are none. -/
def PushLogEntry.toValue (e : PushLogEntry) : Json :=
  .object
    ([("at", .string (text.format e.time)), ("name", .string e.name),
      ("namespace", .string e.namespace_), ("new", .string e.new),
      ("old", optionalText e.old)] ++
      (if e.overrides.isEmpty then []
        else [("overrides", .array (e.overrides.map PushOverride.toValue))]) ++
      [("pusher", .string e.pusher)])

def field (name : String) (entries : List (String × Json)) :
    Except String Json :=
  match entries.find? fun e => e.1 = name with
  | some e => .ok e.2
  | none => .error ("missing field `" ++ name ++ "`")

def asText : Json → Except String String
  | .string s => .ok s
  | _ => .error "invalid type: expected a string"

def asOptionalText : Json → Except String (Option String)
  | .null => .ok none
  | .string s => .ok (some s)
  | _ => .error "invalid type: expected a string"

def textField (name : String) (entries : List (String × Json)) :
    Except String String := do
  asText (← field name entries)

def PushOverride.fromValue : Json → Except String PushOverride
  | .object entries => do
      let finding ← textField "finding" entries
      let reason ← textField "reason" entries
      .ok { finding, reason }
  | _ => .error "invalid type: expected struct PushOverride"

def overridesOf (entries : List (String × Json)) :
    Except String (List PushOverride) :=
  match entries.find? fun e => e.1 = "overrides" with
  | none => .ok []
  | some (_, .array items) => items.mapM PushOverride.fromValue
  | some _ => .error "invalid type: expected a sequence"

/-- A missing `old` is none, missing `overrides` are empty. -/
def PushLogEntry.fromValue : Json → Except String PushLogEntry
  | .object entries => do
      let time ← text.parse (← textField "at" entries)
      let pusher ← textField "pusher" entries
      let namespace_ ← textField "namespace" entries
      let name ← textField "name" entries
      let old ←
        match entries.find? fun e => e.1 = "old" with
        | none => .ok none
        | some e => asOptionalText e.2
      let new ← textField "new" entries
      let overrides ← overridesOf entries
      .ok { time, pusher, namespace_, name, old, new, overrides }
  | _ => .error "invalid type: expected struct PushLogEntry"

/-! ## Reading -/

variable {Id : Type} [Digest Id]

def malformed (what : String) : RepoError Id :=
  .invalidOperation ("malformed push log: " ++ what)

/-- The newest entries from a commit on, at most `limit`. -/
def entriesFrom (store : Storage Id) :
    ℕ → Option Id → Except (RepoError Id) (List PushLogEntry)
  | 0, _ | _ + 1, none => .ok []
  | limit + 1, some id =>
      match store.getCommit id with
      | none => .error (.commitNotFound (displayId id))
      | some commit =>
          match store.getObject commit.stateRoot with
          | none =>
              .error (malformed (displayId id ++ "'s entry isn't here"))
          | some object =>
              match treeToJson store.objects object with
              | .error e => .error (.tree e)
              | .ok value =>
                  match PushLogEntry.fromValue text value with
                  | .error e => .error (malformed e)
                  | .ok entry => do
                      let rest ← entriesFrom store limit commit.parents.head?
                      .ok (entry :: rest)

def pushLog (store : Storage Id) (limit : ℕ) :
    Except (RepoError Id) (List PushLogEntry) :=
  match store.getRef defaultNs PUSH_LOG_REF with
  | .error e => .error (.storage e)
  | .ok head => entriesFrom text store limit head

/-! ## Appending -/

/-- The objects of an entry, in the order they are put. -/
def treeObjects (e : PushLogEntry) : List (Object Id) :=
  (jsonToObjects (e.toValue text)).2 ++ [(jsonToObjects (e.toValue text)).1]

def treeRoot (e : PushLogEntry) : Id :=
  (jsonToObjects (e.toValue text) : Object Id × List (Object Id)).1.id

/-- Where an append is. -/
inductive Phase (Id : Type) [Digest Id] where
  | storing (entry : PushLogEntry) (done todo : List (Object Id))
  | reading (entry : PushLogEntry) (attempts : ℕ)
  | building (entry : PushLogEntry) (attempts : ℕ) (head : Option Id)
  | swapping (entry : PushLogEntry) (attempts : ℕ) (head : Option Id)
      (commit : Commit Id)

/-- The database, the appends in flight, and the entries that were appended,
newest first. -/
structure Receiver (W Id : Type) [Digest Id] where
  db : Database Id
  inFlight : W → Option (Phase Id)
  log : List PushLogEntry

/-- What another writer does: it adds objects and commits, and leaves the log's
ref where it is. -/
structure OtherWrite (Id : Type) [Digest Id] where
  run : Database Id → Database Id
  objects : ∀ db, db.store.objects ≤ (run db).store.objects
  commits : ∀ db, db.store.commits ≤ (run db).store.commits
  head : ∀ db, (run db).store.refAt defaultNs PUSH_LOG_REF =
    db.store.refAt defaultNs PUSH_LOG_REF
  namespaces : ∀ db, defaultNs ∈ db.store.namespaces →
    defaultNs ∈ (run db).store.namespaces

inductive Action (W Id : Type) [Digest Id] where
  | append (w : W) (entry : PushLogEntry)
  | putObject (w : W) (now : ℤ)
  | readHead (w : W)
  | putCommit (w : W) (now : ℤ) (intentId provenance : String)
  | swapRef (w : W)
  | sweep (policy : RetentionPolicy) (limit : ℕ)
      (sel : Marking.Selection Id limit) (now grace : ℤ)
  | other (write : OtherWrite Id)

def MAX_ATTEMPTS : ℕ := 64

/-- In milliseconds. -/
def GC_FRESHEN_AFTER : ℤ := 60 * 1000

/-- A stored object is written again; its time is refreshed only when it is
old. -/
def Database.putObject (db : Database Id) (o : Object Id) (now : ℤ) :
    Database Id :=
  { db with
    store := db.store.withObjects (db.store.objects.put o)
    writtenAt :=
      if (db.store.objects.get o.id).isNone ∨
          db.writtenAt o.id < now - GC_FRESHEN_AFTER then
        Function.update db.writtenAt o.id now
      else db.writtenAt }

/-- A commit that is stored for the first time has yet to be distilled. -/
def Database.putCommit (db : Database Id) (c : Commit Id) : Database Id :=
  if (db.store.commits.get c.id).isSome then db
  else
    { db with
      store := db.store.putCommit c
      commitRows := c.id :: db.commitRows
      undistilled := db.undistilled + 1 }

def commitOptions (e : PushLogEntry) (intentId provenance : String) :
    CommitOptions where
  agentId := e.pusher
  intent :=
    { id := intentId
      category := .checkpoint
      description := "push " ++ e.namespace_ ++ "/" ++ e.name
      tags := []
      parentIntent := none }
  reasoning := none
  confidence := none
  provenance := provenance

variable {W : Type}

namespace Receiver

variable [DecidableEq W] (r : Receiver W Id)

def goto (w : W) (phase : Option (Phase Id)) : Receiver W Id :=
  { r with inFlight := Function.update r.inFlight w phase }

/-- One step of a call; one that does not fit where its caller is does
nothing. -/
def step : Action W Id → Receiver W Id
  | .append w entry =>
      match r.inFlight w with
      | some _ => r
      | none => r.goto w (some (.storing entry [] (treeObjects text entry)))
  | .putObject w now =>
      match r.inFlight w with
      | some (.storing entry done (o :: todo)) =>
          { r with db := Database.putObject r.db o now }.goto w
            (some (if todo.isEmpty then .reading entry MAX_ATTEMPTS
              else .storing entry (done ++ [o]) todo))
      | _ => r
  | .readHead w =>
      match r.inFlight w with
      -- `Err(WriteConflict)`
      | some (.reading _ 0) => r.goto w none
      | some (.reading entry (attempts + 1)) =>
          match r.db.store.getRef defaultNs PUSH_LOG_REF with
          | .error _ => r.goto w none
          | .ok head => r.goto w (some (.building entry attempts head))
      | _ => r
  | .putCommit w now intentId provenance =>
      match r.inFlight w with
      | some (.building entry attempts head) =>
          let commit := CommitBuilder.build (treeRoot text entry) head.toList
            (commitOptions entry intentId provenance) now
          { r with db := Database.putCommit r.db commit }.goto w
            (some (.swapping entry attempts head commit))
      | _ => r
  | .swapRef w =>
      match r.inFlight w with
      | some (.swapping entry attempts head commit) =>
          -- `cas_ref` from the head that was read, `create_ref` from none
          if defaultNs ∈ r.db.store.namespaces then
            if r.db.store.refAt defaultNs PUSH_LOG_REF = head then
              { r with
                db :=
                  { r.db with
                    store := r.db.store.putRef defaultNs PUSH_LOG_REF commit.id }
                log := entry :: r.log }.goto w none
            else r.goto w (some (.reading entry attempts))
          else r.goto w none
      | _ => r
  | .sweep policy _ sel now grace =>
      { r with db := (r.db.gcSweep policy sel.choose now grace).getD r.db }
  | .other write => { r with db := write.run r.db }

end Receiver

/-! ## What a sweep must keep -/

/-- The objects that an append has put, or relies on. -/
def Phase.objects : Phase Id → List (Object Id)
  | .storing _ done _ => done
  | .reading entry _ | .building entry _ _ | .swapping entry _ _ _ =>
      treeObjects text entry

/-- A sweep finds an object written lately or reached by a keep root. -/
def Spares (db : Database Id) (policy : RetentionPolicy) (now grace : ℤ)
    (o : Object Id) : Prop :=
  Database.sweepCutoff now grace ≤ db.writtenAt o.id ∨
    db.Live policy (now / 1000) o.id

/-- A sweep spares the entries of the log and those being appended. -/
def Allowed (r : Receiver W Id) : Action W Id → Prop
  | .sweep policy _ _ now grace =>
      (∀ e ∈ r.log, ∀ o ∈ treeObjects text e, Spares r.db policy now grace o) ∧
        ∀ w phase, r.inFlight w = some phase → ∀ o ∈ phase.objects text,
          Spares r.db policy now grace o
  | _ => True

/-! ## Entries read back -/

theorem mapM_fromValue (os : List PushOverride) :
    (os.map PushOverride.toValue).mapM PushOverride.fromValue = .ok os := by
  rw [List.mapM_map]
  refine (Except.mapM_eq_ok (g := fun o => o) ?_).trans ?_
  · intro o _
    simp [PushOverride.toValue, PushOverride.fromValue, textField, field,
      asText, Function.comp_apply]
  · rw [List.map_id']

theorem asOptionalText_optionalText (o : Option String) :
    asOptionalText (optionalText o) = .ok o := by
  cases o with
  | none => rfl
  | some s => rfl

theorem fromValue_toValue (e : PushLogEntry) :
    PushLogEntry.fromValue text (e.toValue text) = .ok e := by
  have hold := asOptionalText_optionalText e.old
  by_cases hempty : e.overrides = []
  · simp [PushLogEntry.toValue, PushLogEntry.fromValue, textField, field, asText,
      overridesOf, text.parse_format, hold, hempty]
    rw [← hempty]
  · have hmap := mapM_fromValue e.overrides
    simp [PushLogEntry.toValue, PushLogEntry.fromValue, textField, field, asText,
      overridesOf, text.parse_format, hold, hempty, hmap]

theorem areCanonical_overrides (os : List PushOverride) :
    Json.areCanonical (os.map PushOverride.toValue) = true := by
  induction os with
  | nil => rfl
  | cons o os ih =>
      have ho : o.toValue.isCanonical = true := by
        rw [PushOverride.toValue, Json.isCanonical, Bool.and_eq_true,
          decide_eq_true_eq]
        constructor
        · simp only [List.map_cons, List.map_nil]
          decide
        · rfl
      rw [List.map_cons, Json.areCanonical, ho, ih]
      rfl

theorem isCanonical_toValue (e : PushLogEntry) :
    (e.toValue text).isCanonical = true := by
  have hold : (optionalText e.old).isCanonical = true := by
    cases e.old <;> rfl
  rw [PushLogEntry.toValue, Json.isCanonical, Bool.and_eq_true,
    decide_eq_true_eq]
  by_cases hempty : e.overrides = []
  · constructor
    · simp only [hempty, List.isEmpty_nil, if_true, List.append_nil,
        List.map_append, List.map_cons, List.map_nil]
      decide
    · simp [hempty, Json.entriesCanonical, Json.isCanonical, hold]
  · have hcond : e.overrides.isEmpty = false := by
      simpa using hempty
    constructor
    · simp only [hcond, Bool.false_eq_true, if_false, List.map_append,
        List.map_cons, List.map_nil]
      decide
    · simp [hcond, Json.entriesCanonical, Json.isCanonical, hold,
        areCanonical_overrides]

/-! ## The chain -/

/-- The commits from a head on are those of the entries, newest first. -/
def Chain (store : Storage Id) : Option Id → List PushLogEntry → Prop
  | none, [] => True
  | some id, e :: rest => ∃ c, store.getCommit id = some c ∧
      c.stateRoot = treeRoot text e ∧ Chain store c.parents.head? rest
  | _, _ => False

variable {text}

theorem Chain.mono {s t : Storage Id} (hle : s.commits ≤ t.commits)
    {head : Option Id} {log : List PushLogEntry} (h : Chain text s head log) :
    Chain text t head log := by
  induction log generalizing head with
  | nil =>
      cases head with
      | none => trivial
      | some id => exact h.elim
  | cons e rest ih =>
      cases head with
      | none => exact h.elim
      | some id =>
          obtain ⟨c, hc, hroot, hrest⟩ := h
          exact ⟨c, hle id c hc, hroot, ih hrest⟩

theorem entriesFrom_of_chain {store : Storage Id} {log : List PushLogEntry}
    (hstored : ∀ e ∈ log, Stored store.objects (treeObjects text e))
    (limit : ℕ) {head : Option Id} (h : Chain text store head log) :
    entriesFrom text store limit head = .ok (log.take limit) := by
  induction limit generalizing head log with
  | zero => rw [entriesFrom, List.take_zero]
  | succ limit ih =>
      cases log with
      | nil =>
          cases head with
          | none => rfl
          | some id => exact h.elim
      | cons e rest =>
          cases head with
          | none => exact h.elim
          | some id =>
              obtain ⟨c, hc, hroot, hrest⟩ := h
              have he := hstored e List.mem_cons_self
              have hobject : store.getObject c.stateRoot =
                  some (jsonToObjects (e.toValue text)).1 := by
                rw [hroot]
                exact he _ (by simp [treeObjects])
              have hvalue : treeToJson store.objects
                  (jsonToObjects (e.toValue text)).1 = .ok (e.toValue text) :=
                treeToJson_of_stored (isCanonical_toValue text e)
                  fun o ho => he o (by simp [treeObjects, ho])
              have htail := ih (fun e' he' =>
                hstored e' (List.mem_cons_of_mem _ he')) hrest
              simp only [entriesFrom, hc, hobject, hvalue,
                fromValue_toValue, htail]
              rfl

/-! ## What holds between steps -/

/-- What an append in some phase has done. -/
def Phase.Sound (text : TimeText) (store : Storage Id) : Phase Id → Prop
  | .storing entry done todo => done ++ todo = treeObjects text entry ∧
      Stored store.objects done
  | .reading entry _ | .building entry _ _ =>
      Stored store.objects (treeObjects text entry)
  | .swapping entry _ head commit =>
      Stored store.objects (treeObjects text entry) ∧
        commit.stateRoot = treeRoot text entry ∧ commit.parents = head.toList ∧
        store.getCommit commit.id = some commit

structure Sound (text : TimeText) (r : Receiver W Id) : Prop where
  namespaces : defaultNs ∈ r.db.store.namespaces
  chain : Chain text r.db.store (r.db.store.refAt defaultNs PUSH_LOG_REF) r.log
  stored : ∀ e ∈ r.log, Stored r.db.store.objects (treeObjects text e)
  flight : ∀ w phase, r.inFlight w = some phase →
    phase.Sound text r.db.store

variable {r : Receiver W Id}

theorem stored_mono {s t : ObjectStore Id} (hle : s ≤ t) {os : List (Object Id)}
    (h : Stored s os) : Stored t os :=
  fun o ho => hle o.id o (h o ho)

/-- An append goes on where the store only grew. -/
theorem Phase.Sound.mono {s t : Storage Id} (hobjects : s.objects ≤ t.objects)
    (hcommits : s.commits ≤ t.commits) {phase : Phase Id}
    (h : phase.Sound text s) : phase.Sound text t := by
  cases phase with
  | storing entry done todo => exact ⟨h.1, stored_mono hobjects h.2⟩
  | reading entry attempts => exact stored_mono hobjects h
  | building entry attempts head => exact stored_mono hobjects h
  | swapping entry attempts head commit =>
      obtain ⟨hstored, hroot, hparents, hget⟩ := h
      exact ⟨stored_mono hobjects hstored, hroot, hparents, hcommits _ _ hget⟩

theorem Sound.grow (h : Sound text r) {db : Database Id}
    (hobjects : r.db.store.objects ≤ db.store.objects)
    (hcommits : r.db.store.commits ≤ db.store.commits)
    (hhead : db.store.refAt defaultNs PUSH_LOG_REF =
      r.db.store.refAt defaultNs PUSH_LOG_REF)
    (hns : defaultNs ∈ db.store.namespaces) :
    Sound text { r with db := db } where
  namespaces := hns
  chain := by
    dsimp only
    rw [hhead]
    exact h.chain.mono hcommits
  stored := fun e he => stored_mono hobjects (h.stored e he)
  flight := fun w phase hw => (h.flight w phase hw).mono hobjects hcommits

theorem Sound.goto [DecidableEq W] (h : Sound text r) (w : W) {phase : Option (Phase Id)}
    (hphase : ∀ p, phase = some p → p.Sound text r.db.store) :
    Sound text (r.goto w phase) where
  namespaces := h.namespaces
  chain := h.chain
  stored := h.stored
  flight := by
    intro w' p hp
    simp only [Receiver.goto] at hp
    by_cases hsame : w' = w
    · subst hsame
      rw [Function.update_self] at hp
      exact hphase p hp
    · rw [Function.update_of_ne hsame] at hp
      exact h.flight w' p hp

theorem Sound.leave [DecidableEq W] (h : Sound text r) (w : W) :
    Sound text (r.goto w none) :=
  h.goto w fun _ hp => absurd hp (Option.some_ne_none _).symm

theorem Sound.enter [DecidableEq W] (h : Sound text r) (w : W)
    {phase : Phase Id}
    (hphase : phase.Sound text r.db.store) :
    Sound text (r.goto w (some phase)) :=
  h.goto w fun _ hp => Option.some.inj hp ▸ hphase

theorem Sound.putObject (h : Sound text r) (o : Object Id) (now : ℤ) :
    Sound text { r with db := Database.putObject r.db o now } :=
  h.grow (ObjectStore.le_put _ o) (le_refl _) rfl h.namespaces

theorem Sound.putCommit (h : Sound text r) (c : Commit Id) :
    Sound text { r with db := Database.putCommit r.db c } := by
  rw [Database.putCommit]
  split
  · exact h
  · exact h.grow (le_refl _) (CommitStore.le_put _ c) rfl h.namespaces

theorem getCommit_putCommit (db : Database Id) (c : Commit Id) :
    (Database.putCommit db c).store.getCommit c.id = some c := by
  rw [Database.putCommit]
  split
  next hsome =>
    obtain ⟨c', hc'⟩ := Option.isSome_iff_exists.mp hsome
    have hid : c'.id = c.id := AddressedMap.address_eq hc'
    rw [Commit.id_injective hid] at hc'
    exact hc'
  · exact AddressedMap.get_put_self _ _

theorem Sound.land (h : Sound text r) {w : W} {entry : PushLogEntry}
    {attempts : ℕ} {commit : Commit Id}
    (hw : r.inFlight w = some (.swapping entry attempts
      (r.db.store.refAt defaultNs PUSH_LOG_REF) commit)) :
    Sound text
      { r with
        db :=
          { r.db with
            store := r.db.store.putRef defaultNs PUSH_LOG_REF commit.id }
        log := entry :: r.log } := by
  obtain ⟨hstored, hroot, hparents, hget⟩ := h.flight w _ hw
  refine ⟨h.namespaces, ?_, ?_, h.flight⟩
  · dsimp only
    rw [Storage.refAt_putRef_self]
    refine ⟨commit, hget, hroot, ?_⟩
    have hhead : commit.parents.head? =
        r.db.store.refAt defaultNs PUSH_LOG_REF := by
      rw [hparents]
      cases r.db.store.refAt defaultNs PUSH_LOG_REF <;> rfl
    rw [hhead]
    refine Chain.mono ?_ h.chain
    exact le_refl r.db.store.commits
  · intro e he
    rcases List.mem_cons.mp he with rfl | he
    · exact hstored
    · exact h.stored e he

theorem Sound.sweep (h : Sound text r) {policy : RetentionPolicy} {limit : ℕ}
    {sel : Marking.Selection Id limit} {now grace : ℤ}
    (hallowed : Allowed text r (.sweep policy limit sel now grace)) :
    Sound text
      { r with db := (r.db.gcSweep policy sel.choose now grace).getD r.db } := by
  cases hsweep : r.db.gcSweep policy sel.choose now grace with
  | refused n => exact h
  | running => exact h
  | swept swept =>
      have hfrom := r.db.sweptFrom_of_gcSweep hsweep
      have hcommits : swept.store.commits = r.db.store.commits := by
        rw [hfrom.eq]
        rfl
      have hhead : swept.store.refAt defaultNs PUSH_LOG_REF =
          r.db.store.refAt defaultNs PUSH_LOG_REF := by
        rw [hfrom.eq]
        rfl
      have hns : swept.store.namespaces = r.db.store.namespaces := by
        rw [hfrom.eq]
        rfl
      have hkept : ∀ os : List (Object Id),
          (∀ o ∈ os, Spares r.db policy now grace o) →
            Stored r.db.store.objects os → Stored swept.store.objects os := by
        intro os hspares hstored o ho
        rw [hfrom.kept o.id (hspares o ho)]
        exact hstored o ho
      refine ⟨?_, ?_, ?_, ?_⟩
      · exact hns ▸ h.namespaces
      · change Chain text swept.store (swept.store.refAt defaultNs PUSH_LOG_REF)
          r.log
        rw [hhead]
        exact h.chain.mono hcommits.ge
      · intro e he
        exact hkept _ (hallowed.1 e he) (h.stored e he)
      · intro w phase hw
        have hphase := h.flight w phase hw
        have hspares := hallowed.2 w phase hw
        change phase.Sound text swept.store
        cases phase with
        | storing entry done todo =>
            exact ⟨hphase.1, hkept _ hspares hphase.2⟩
        | reading entry attempts => exact hkept _ hspares hphase
        | building entry attempts head => exact hkept _ hspares hphase
        | swapping entry attempts head commit =>
            obtain ⟨hstored, hroot, hparents, hget⟩ := hphase
            refine ⟨hkept _ hspares hstored, hroot, hparents, ?_⟩
            rw [Storage.getCommit, hcommits]
            exact hget

theorem sound_step [DecidableEq W] (h : Sound text r) {action : Action W Id}
    (hallowed : Allowed text r action) : Sound text (r.step text action) := by
  cases action with
  | append w entry =>
      rw [Receiver.step]
      split
      · exact h
      · exact h.enter w ⟨rfl, fun o ho => absurd ho List.not_mem_nil⟩
  | putObject w now =>
      rw [Receiver.step]
      split
      next entry done o todo hw =>
        obtain ⟨hlist, hdone⟩ := h.flight w _ hw
        have hput := h.putObject o now
        have hstored : Stored (Database.putObject r.db o now).store.objects
            (done ++ [o]) := by
          intro o' ho'
          rcases List.mem_append.mp ho' with ho' | ho'
          · exact ObjectStore.le_put _ o _ _ (hdone o' ho')
          · rw [List.mem_singleton.mp ho']
            exact AddressedMap.get_put_self _ _
        refine hput.enter w ?_
        split
        next hempty =>
          rw [List.isEmpty_iff] at hempty
          rw [hempty] at hlist
          change Stored _ (treeObjects text entry)
          rw [← hlist]
          exact hstored
        · refine ⟨?_, hstored⟩
          rw [← hlist]
          simp
      · exact h
  | readHead w =>
      rw [Receiver.step]
      split
      · exact h.leave w
      next entry attempts hw =>
        have hstored : Stored _ (treeObjects text entry) := h.flight w _ hw
        split
        · exact h.leave w
        · exact h.enter w hstored
      · exact h
  | putCommit w now intentId provenance =>
      rw [Receiver.step]
      split
      next entry attempts head hw =>
        have hput := h.putCommit (CommitBuilder.build (treeRoot text entry)
          head.toList (commitOptions entry intentId provenance) now)
        have hstored : Stored _ (treeObjects text entry) := hput.flight w _ hw
        exact hput.enter w ⟨hstored, rfl, rfl, getCommit_putCommit _ _⟩
      · exact h
  | swapRef w =>
      rw [Receiver.step]
      split
      next entry attempts head commit hw =>
        split
        · split
          next hhead =>
            rw [← hhead] at hw
            exact (h.land hw).leave w
          · exact h.enter w (h.flight w _ hw).1
        · exact h.leave w
      · exact h
  | sweep policy limit sel now grace => exact h.sweep hallowed
  | other write =>
      exact h.grow (write.objects r.db) (write.commits r.db) (write.head r.db)
        (write.namespaces r.db h.namespaces)

end PushLogs

open PushLogs in
/-- In every run whose sweeps spare the entries of the log and those being
appended, the log reads back as it was appended. -/
theorem push_log_complete {Id W : Type} [Digest Id] [DecidableEq W]
    (text : TimeText) (db : Database Id) (actions : List (Action W Id))
    (hns : defaultNs ∈ db.store.namespaces)
    (hhead : db.store.refAt defaultNs PUSH_LOG_REF = none)
    (hspared : StepRuns.Throughout (fun r a => Receiver.step text r a)
      ⟨db, fun _ => none, []⟩ actions (Allowed text)) (limit : ℕ) :
    let r := StepRuns.run (fun r a => Receiver.step text r a)
      (⟨db, fun _ => none, []⟩ : Receiver W Id) actions
    pushLog text r.db.store limit = .ok (r.log.take limit) := by
  intro r
  have hstart : Sound text (⟨db, fun _ => none, []⟩ : Receiver W Id) := by
    refine ⟨hns, ?_, ?_, ?_⟩
    · dsimp only
      rw [hhead]
      trivial
    · intro e he
      contradiction
    · intro w phase hw
      contradiction
  have h : Sound text r :=
    StepRuns.invariant_run hstart (fun _ _ hs ha => sound_step hs ha) hspared
  rw [pushLog, Storage.getRef, if_pos h.namespaces]
  exact entriesFrom_of_chain h.stored limit h.chain

/-! ## Two pushes and a sweep -/

namespace SweptLog

open PushLogs

/-- Other times are counted out. -/
def text : TimeText where
  format t :=
    if t = 0 then "1970-01-01T00:00:00Z"
    else String.ofList ((if t < 0 then '-' else '+') ::
      List.replicate t.natAbs '1')
  parse s :=
    if s = "1970-01-01T00:00:00Z" then .ok 0
    else
      match s.toList with
      | '-' :: digits => .ok (-digits.length)
      | _ => .ok (s.toList.length - 1)
  parse_format := by
    intro t
    by_cases hzero : t = 0
    · simp [hzero]
    · have hne : ∀ (c : Char) (n : ℕ), c ≠ '1' →
          String.ofList (c :: List.replicate n '1') ≠ "1970-01-01T00:00:00Z" := by
        intro c n hc heq
        have hlist := congrArg String.toList heq
        rw [String.toList_ofList] at hlist
        have hfirst : ("1970-01-01T00:00:00Z" : String).toList.head? =
            some '1' := by decide
        rw [← hlist] at hfirst
        exact hc (Option.some.inj hfirst)
      by_cases hneg : t < 0
      · rw [if_neg hzero, if_pos hneg, if_neg (hne '-' _ (by decide)),
          String.toList_ofList]
        simp only [List.length_replicate]
        rw [Int.natCast_natAbs, abs_of_neg hneg, neg_neg]
      · rw [if_neg hzero, if_neg hneg, if_neg (hne '+' _ (by decide)),
          String.toList_ofList]
        simp only [List.length_cons, List.length_replicate, Nat.cast_add,
          Int.natCast_natAbs, abs_of_nonneg (not_lt.mp hneg)]
        simp

def first : PushLogEntry where
  time := 0
  pusher := "key_1"
  namespace_ := "default"
  name := "main"
  old := none
  new := "a1"
  overrides := []

def second : PushLogEntry :=
  { first with pusher := "key_2", old := some "a1", new := "b2" }

def db : Database ContentKey where
  store := Storage.new
  writtenAt _ := 0
  commitRows := []
  pendingRoots := []
  milestones := []
  undistilled := 0

/-- The history tables cover every commit; a checkpoint that asks for no
snapshot names no root. -/
def distill : OtherWrite ContentKey where
  run db := { db with milestones := db.commitRows.map fun _ => none, undistilled := 0 }
  objects _ := le_refl _
  commits _ := le_refl _
  head _ := rfl
  namespaces _ h := h

/-- The steps of one append. -/
def appended (w : Bool) (e : PushLogEntry) : List (Action Bool ContentKey) :=
  .append w e :: List.replicate (treeObjects text e : List (Object ContentKey)).length
      (.putObject w 0) ++
    [.readHead w, .putCommit w 0 "intent" "", .swapRef w]

def policy : RetentionPolicy where
  keepRecent := 1
  checkpointEvery := 0
  keepMilestones := true

theorem batch_pos : 0 < 1000 := by decide

def batch : Marking.Selection ContentKey 1000 := .first batch_pos

/-- A day later. -/
def sweep (grace : ℤ) : Action Bool ContentKey :=
  .sweep policy 1000 batch (24 * 60 * 60 * 1000) grace

def after (actions : List (Action Bool ContentKey)) :
    Receiver Bool ContentKey :=
  StepRuns.run (fun r a => Receiver.step text r a) ⟨db, fun _ => none, []⟩ actions

end SweptLog

set_option maxRecDepth 16384 in
open PushLogs SweptLog in
/-- One push, and a sweep with a grace of two days. -/
theorem push_log_complete_one :
    pushLog text (after (appended false first ++ [.other distill] ++
        [sweep (2 * 24 * 60 * 60 * 1000)])).db.store 5 =
      .ok ((after (appended false first ++ [.other distill] ++
        [sweep (2 * 24 * 60 * 60 * 1000)])).log.take 5) := by
  refine push_log_complete text db _ (by decide) (by decide) ?_ 5
  refine StepRuns.throughout_append_iff.mpr ⟨?_, ?_, ?_⟩
  · have hquiet : ∀ action ∈ appended false first ++ [.other distill],
        ∀ r, Allowed text r action := by
      intro action haction r
      cases action with
      | sweep policy limit sel now grace => simp [appended] at haction
      | append | putObject | readHead | putCommit | swapRef | other => trivial
    exact StepRuns.throughout_of_forall hquiet
  · have hrecent : ∀ e ∈ (after (appended false first ++ [.other distill])).log,
        ∀ o ∈ treeObjects text e, Database.sweepCutoff (24 * 60 * 60 * 1000)
          (2 * 24 * 60 * 60 * 1000) ≤
            (after (appended false first ++ [.other distill])).db.writtenAt
              o.id := by
      decide
    exact fun e he o ho => .inl (hrecent e he o ho)
  · have hidle : ∀ w, ((after (appended false first ++
        [.other distill])).inFlight w).isNone = true := by
      decide
    intro w phase hw
    have hnone := hidle w
    rw [after, hw] at hnone
    contradiction

set_option maxRecDepth 16384 in
open PushLogs SweptLog in
/-- After two pushes and a sweep with the default grace of ten minutes the
older entry cannot be read. -/
theorem push_log_loses_entry :
    (after (appended false first ++ appended true second ++
        [.other distill, sweep (10 * 60 * 1000)])).log = [second, first] ∧
      (pushLog text (after (appended false first ++ appended true second ++
        [.other distill, sweep (10 * 60 * 1000)])).db.store 2).isOk = false := by
  constructor
  · decide
  · decide

end AgentStateGraph
