import AgentStateGraph.Postgres.JsonText
import AgentStateGraph.Repo.ReadyBranch
import AgentStateGraph.Repo.TaintCalls

/-!
# Escalating watches

After a write has landed, each active watch of its path whose threshold the new
value crossed is escalated to a taint on the watched path, unless a taint of the
escalation's name already stands at or under that path.
-/

namespace AgentStateGraph

variable {Id : Type} [Digest Id]

/-! ## Thresholds -/

/-- What the metadata of a watch says. -/
structure WatchSettings where
  metric : Option String
  threshold : Option F64
  direction : Option String
deriving DecidableEq

/-- The metadata of the watches by row, `str::parse::<f64>`, the texts of
numbers, and the time at which the watches are looked up. -/
structure WatchEnv where
  settings : String → WatchSettings
  parseF64 : String → Option F64
  showF64 : F64 → String
  now : ℤ

namespace WatchEnv

/-- `as_f64`. -/
def asF64 : Json → Option F64
  | .number n => some n.toF64
  | _ => none

/-- `as_str`. -/
def asStr : Json → Option String
  | .string s => some s
  | _ => none

/-- A field of `as_object`. -/
def getField (key : String) : Json → Option Json
  | .object entries => (entries.find? fun e => e.1 = key).map fun e => e.2
  | _ => none

variable (watches : WatchEnv)

/-- A number, or a text that reads as one. -/
def numeric (value : Json) : Option F64 :=
  match asF64 value with
  | some n => some n
  | none => (asStr value).bind watches.parseF64

/-- The metric's value: the value itself, or its field. -/
def extractMetric (value : Json) (metric : String) : Option F64 :=
  match watches.numeric value with
  | some n => some n
  | none => (getField metric value).bind watches.numeric

def crossed (direction : String) (current threshold : F64) : Bool :=
  if direction = "below" then current.lt threshold else threshold.lt current

/-- Why a watch is escalated by a value, if it is. -/
def exceeded (value : Json) (w : Taint) : Option String :=
  let settings := watches.settings w.id
  let direction := settings.direction.getD "above"
  match settings.metric, settings.threshold with
  | some metric, some threshold =>
      match watches.extractMetric value metric with
      | none => none
      | some current =>
          if crossed direction current threshold then
            some ("Watch threshold exceeded: " ++ metric ++ " = " ++
              watches.showF64 current ++
              (if direction = "below" then " < " else " > ") ++
              watches.showF64 threshold)
          else none
  | _, _ => none

/-- A watch that covers the path, is active, and whose threshold the value
crosses. -/
def Fires (path : String) (value : Json) (w : Taint) : Prop :=
  w.kind = .watch ∧ w.isActive watches.now = true ∧
    w.appliesTo path = true ∧ (watches.exceeded value w).isSome = true

end WatchEnv

def escalationName (watchName : String) : String :=
  "watch-threshold-exceeded-" ++ watchName

/-! ## The escalation -/

namespace Repository

variable (repo : Repository) (watches : WatchEnv) (envs : ℕ → CallEnv Id)

/-- What an exceeded watch is escalated to. -/
def escalationParams (w : Taint) (reason : String) : TaintParams where
  name := escalationName w.name
  effect := .warn
  reason := reason
  expiresAt := none
  propagate := w.propagate
  agentId := "watch/" ++ w.id

/-- The watches in turn; `envs k` is what the `k`th new taint meets. -/
def escalate (refName : String) (value : Json) :
    ℕ → List Taint → Storage Id → Outcome Id (List String)
  | _, [], store => (.ok [], store)
  | k, w :: rest, store =>
      match watches.exceeded value w with
      | none => escalate refName value k rest store
      | some reason =>
          if ((envs k).listTaints store w.path .taint).any
              fun t => t.name == escalationName w.name then
            escalate refName value k rest store
          else
            match repo.taint (envs k) refName w.path
                (escalationParams w reason) store with
            | (.error e, left) => (.error e, left)
            | (.ok id, raised) =>
                match escalate refName value (k + 1) rest raised with
                | (.error e, left) => (.error e, left)
                | (.ok created, done) => (.ok (id :: created), done)

/-- `check_taint`: the active rows that cover a path. -/
def checkTaint (store : Storage Id) (path : String) : List Taint :=
  store.taints.filter fun t => t.isActive watches.now && t.appliesTo path

def autoEscalate (refName path : String) (value : Json) (k : ℕ)
    (store : Storage Id) : Outcome Id (List String) :=
  repo.escalate watches envs refName value k
    ((checkTaint watches store path).filter fun t => t.kind = .watch) store

/-- `set`, against another writer. -/
def setThrough (env : CallEnv Id) (refName path : String) (value : Object Id)
    (options : CommitOptions) (store : Storage Id) : Outcome Id Id :=
  match checkWrite store path options (env.now 0) with
  | .error e => (.error e, store)
  | .ok () =>
      match liftTree (parsePath path) with
      | .error e => (.error e, store)
      | .ok statePath =>
          repo.writeThroughLoop env refName (setRoot statePath value) options
            store

/-- The write of `set_json`: the value's tree is stored, then set. -/
def setJsonWrite (env : CallEnv Id) (refName path : String) (value : Json)
    (options : CommitOptions) (store : Storage Id) : Outcome Id Id :=
  let (rootId, objects) := jsonToTree store.objects value
  let stored := store.withObjects objects
  match stored.getObject rootId with
  | none => (.error (.refNotFound "value"), stored)
  | some o => repo.setThrough env refName path o options stored

/-- `set_json`: `envs 0` is what the write meets, `envs (k + 1)` what its `k`th
escalation does. -/
def setJsonThrough (refName path : String) (value : Json)
    (options : CommitOptions) (store : Storage Id) : Outcome Id Id :=
  match repo.setJsonWrite (envs 0) refName path value options store with
  | (.error e, left) => (.error e, left)
  | (.ok id, landed) =>
      if isTaintLifecycleIntent options.intent.category then (.ok id, landed)
      else
        match repo.autoEscalate watches envs refName path value 1 landed with
        | (.error e, left) => (.error e, left)
        | (.ok _, done) => (.ok id, done)

end Repository

/-! ## Rows -/

theorem escalationName_injective : Function.Injective escalationName := by
  intro x y h
  exact (String.append_right_inj _).mp h

namespace Storage

/-- Which unresolved rows stand: what the duplicate rule of the table sees. -/
theorem hasActive_of_taints {s t : Storage Id} (h : t.taints = s.taints)
    (path name : String) (kind : TaintKind) :
    t.HasActive path name kind ↔ s.HasActive path name kind := by
  simp only [HasActive, h]

theorem hasActive_setTaintCommitId (s : Storage Id) (id commit path name : String)
    (kind : TaintKind) :
    (s.setTaintCommitId id commit).HasActive path name kind ↔
      s.HasActive path name kind := by
  simp only [HasActive, setTaintCommitId, List.mem_map]
  constructor
  · rintro ⟨_, ⟨t, ht, rfl⟩, hactive⟩
    refine ⟨t, ht, ?_⟩
    split at hactive <;> exact hactive
  · rintro ⟨t, ht, hactive⟩
    refine ⟨_, ⟨t, ht, rfl⟩, ?_⟩
    split <;> exact hactive

theorem hasActive_append (s : Storage Id) {record : Taint}
    (hrecord : record.resolvedAt = none) (path name : String)
    (kind : TaintKind) :
    ({ s with taints := s.taints ++ [record] } : Storage Id).HasActive path name
        kind ↔
      s.HasActive path name kind ∨
        record.path = path ∧ record.name = name ∧ record.kind = kind := by
  simp only [HasActive, List.mem_append, List.mem_singleton]
  constructor
  · rintro ⟨t, ht | rfl, hactive⟩
    · exact Or.inl ⟨t, ht, hactive⟩
    · exact Or.inr hactive.2
  · rintro (⟨t, ht, hactive⟩ | hsame)
    · exact ⟨t, Or.inl ht, hactive⟩
    · exact ⟨record, Or.inr rfl, hrecord, hsame⟩

end Storage

namespace CallEnv

theorem mem_listTaints_iff (env : CallEnv Id) {store : Storage Id}
    {path : String} {kind : TaintKind} {t : Taint} :
    t ∈ env.listTaints store path kind ↔
      t ∈ store.taints ∧ t.resolvedAt = none ∧
        MemoryTaints.listsPath path t.path = true ∧ t.kind = kind := by
  simp only [listTaints, List.mem_mergeSort, List.mem_filter, Bool.and_eq_true,
    Option.isNone_iff_eq_none, decide_eq_true_eq]
  constructor
  · rintro ⟨hmem, ⟨hresolved, hpath⟩, hkind⟩
    exact ⟨hmem, hresolved, hpath, hkind.symm⟩
  · rintro ⟨hmem, hresolved, hpath, hkind⟩
    exact ⟨hmem, ⟨hresolved, hpath⟩, hkind.symm⟩

theorem listTaints_any_iff (env : CallEnv Id) {store : Storage Id}
    {path name : String} {kind : TaintKind} :
    ((env.listTaints store path kind).any fun t => t.name == name) = true ↔
      ∃ p, MemoryTaints.listsPath path p = true ∧
        store.HasActive p name kind := by
  simp only [List.any_eq_true, env.mem_listTaints_iff, beq_iff_eq,
    Storage.HasActive]
  constructor
  · rintro ⟨t, ⟨hmem, hresolved, hpath, hkind⟩, hname⟩
    exact ⟨t.path, hpath, t, hmem, hresolved, rfl, hname, hkind⟩
  · rintro ⟨p, hpath, t, hmem, hresolved, rfl, hname, hkind⟩
    exact ⟨t, ⟨hmem, hresolved, hpath, hkind⟩, hname⟩

end CallEnv

/-! ## What raising a taint does -/

namespace Repository

section Raise

variable {repo : Repository} {env : CallEnv Id} {refName : String}

theorem taintThrough_eq_ok {taintId agentId description reason : String}
    {category : IntentCategory}
    {write : Storage Id → Except StorageError (Storage Id)}
    {note : Id → Storage Id → Storage Id} {s s' : Storage Id}
    (h : repo.taintThrough env refName taintId agentId category description
      reason write note s = (.ok (), s')) :
    defaultNs ∈ s.namespaces ∧
      ∃ written id landed,
        write (env.pending 0 (.taint taintId) s) = .ok written ∧
        repo.intentThrough env refName
          (intentOptions env agentId category description reason) written =
          (.ok id, landed) ∧
        (note id landed).Aside s' := by
  unfold taintThrough at h
  by_cases hns : defaultNs ∈ s.namespaces
  · refine ⟨hns, ?_⟩
    cases hwrite : write (env.pending 0 (.taint taintId) s) with
    | error e =>
        have hfst := congrArg Prod.fst h
        rw [env.writeThrough_fst _ _ _ _ _ hns] at hfst
        simp [recordIntent, hwrite, liftStorage] at hfst
    | ok written =>
        cases hintent : repo.intentThrough env refName
            (intentOptions env agentId category description reason) written with
        | mk result landed =>
            cases result with
            | error e =>
                have hfst := congrArg Prod.fst h
                rw [env.writeThrough_fst _ _ _ _ _ hns] at hfst
                simp [recordIntent, hwrite, liftStorage, hintent] at hfst
            | ok id =>
                have hrun := env.writeThrough_of_ok 0 (.taint taintId)
                  (env.newOptions agentId category description) env.controlNow
                  (repo.recordIntent env refName
                    (intentOptions env agentId category description reason)
                    write note) hns
                  (show repo.recordIntent env refName _ write note _ =
                    (.ok (), note id landed) by
                    simp [recordIntent, hwrite, liftStorage, hintent])
                rw [hrun] at h
                obtain rfl := (Prod.mk.inj h).2
                exact ⟨written, id, landed, rfl, hintent,
                  env.settle_aside _ _ _ _ _⟩
  · rw [env.writeThrough_of_missing _ _ _ _ _ hns] at h
    cases (Prod.mk.inj h).1

variable {category : IntentCategory} {description : String} {record : Taint}
  {s s' : Storage Id}

/-- Exactly the new row was added to the unresolved ones, and the branch is
ready for more. -/
theorem raiseThrough_eq_ok {id : String}
    (hrecord : record.resolvedAt = none)
    (h : repo.raiseThrough env refName category description record s =
      (.ok id, s')) :
    repo.Ready refName s' ∧ s'.namespaces = s.namespaces ∧
      ∀ path name kind, s'.HasActive path name kind ↔
        s.HasActive path name kind ∨
          record.path = path ∧ record.name = name ∧ record.kind = kind := by
  unfold raiseThrough at h
  split at h
  next => cases (Prod.mk.inj h).1
  next raised hraised =>
    obtain rfl := (Prod.mk.inj h).2
    obtain ⟨hns, written, commit, landed, hwrite, hintent, haside⟩ :=
      taintThrough_eq_ok hraised
    have hpending := env.pending_aside 0 (.taint record.id) s
    have hwritten := Storage.createTaint_eq_ok hwrite
    have hkept := repo.intentThrough_tablesKept env refName
      (intentOptions env record.agentId category description record.reason)
      written
    rw [hintent] at hkept
    refine ⟨?_, ?_, ?_⟩
    · have hready := retryFrom_ready sameRoot_onlyAdds hintent
      exact (hready.of_taints _).aside haside
    · rw [haside.namespaces]
      refine hkept.namespaces.trans ?_
      rw [hwritten]
      exact hpending.namespaces
    · intro path name kind
      rw [Storage.hasActive_of_taints haside.taints,
        Storage.hasActive_setTaintCommitId,
        Storage.hasActive_of_taints hkept.taints, hwritten,
        Storage.hasActive_append _ hrecord,
        Storage.hasActive_of_taints hpending.taints]

/-- On a ready branch a row that is not there yet is raised, unless another
writer moves the branch. -/
theorem Ready.raiseThrough (category : IntentCategory)
    (description : String) (h : repo.Ready refName s)
    (hns : defaultNs ∈ s.namespaces)
    (hnew : ¬ s.HasActive record.path record.name record.kind)
    (hrival : env.rival 0 = none) :
    ∃ id, (repo.raiseThrough env refName category description record s).1 =
      .ok id := by
  have hpending := env.pending_aside 0 (.taint record.id) s
  have hnew' : ¬ (env.pending 0 (.taint record.id) s).HasActive record.path
      record.name record.kind := by
    rwa [Storage.hasActive_of_taints hpending.taints]
  obtain ⟨written, hwrite⟩ :=
    ((env.pending 0 (.taint record.id) s).createTaint_ok_iff record).mpr hnew'
  have hready : repo.Ready refName written := by
    rw [Storage.createTaint_eq_ok hwrite]
    exact (h.aside hpending).of_taints _
  obtain ⟨commit, hintent⟩ :=
    (repo.intentThrough_ok_iff env refName
      (intentOptions env record.agentId category description record.reason)
      written).mpr (hready.intentLands hrival)
  have hrun : (repo.taintThrough env refName record.id record.agentId category
      description record.reason (fun s => s.createTaint record)
      (fun id s => s.setTaintCommitId record.id (displayId id)) s).1 =
      .ok () := by
    unfold taintThrough
    rw [env.writeThrough_fst _ _ _ _ _ hns]
    simp only [recordIntent, hwrite, liftStorage]
    rw [Outcome.eq_of_fst hintent]
  unfold Repository.raiseThrough
  rw [Outcome.eq_of_fst hrun]
  exact ⟨record.id, rfl⟩

end Raise

/-! ## What an escalation does -/

section Escalate

variable {repo : Repository} {watches : WatchEnv} {envs : ℕ → CallEnv Id}
  {refName : String} {value : Json}

/-- The watches of a list that a value escalates. -/
def Exceeds (watches : WatchEnv) (value : Json) (ws : List Taint)
    (path name : String) : Prop :=
  ∃ w ∈ ws, (watches.exceeded value w).isSome = true ∧ w.path = path ∧
    w.name = name

variable {k : ℕ} {ws : List Taint} {s s' : Storage Id} {created : List String}

theorem escalate_cons_eq_ok {w : Taint}
    (h : repo.escalate watches envs refName value k (w :: ws) s =
      (.ok created, s')) :
    (((watches.exceeded value w).isSome = true →
        ∃ p, MemoryTaints.listsPath w.path p = true ∧
          s.HasActive p (escalationName w.name) .taint) ∧
      repo.escalate watches envs refName value k ws s = (.ok created, s')) ∨
    ∃ raised rest, (watches.exceeded value w).isSome = true ∧
      repo.Ready refName raised ∧ raised.namespaces = s.namespaces ∧
      (∀ path name, raised.HasActive path name .taint ↔
        s.HasActive path name .taint ∨
          w.path = path ∧ escalationName w.name = name) ∧
      repo.escalate watches envs refName value (k + 1) ws raised =
        (.ok rest, s') := by
  unfold escalate at h
  split at h
  next hnone => exact Or.inl ⟨by simp [hnone], h⟩
  next reason hreason =>
    split at h
    next hlisted =>
      exact Or.inl ⟨fun _ => ((envs k).listTaints_any_iff).mp hlisted, h⟩
    next =>
      split at h
      next => cases (Prod.mk.inj h).1
      next id raised hraise =>
        split at h
        next => cases (Prod.mk.inj h).1
        next rest done hrest =>
          obtain rfl := (Prod.mk.inj h).2
          obtain ⟨hready, hsame, hrows⟩ := raiseThrough_eq_ok rfl hraise
          refine Or.inr ⟨raised, rest, by simp [hreason], hready, hsame, ?_,
            hrest⟩
          intro path name
          rw [hrows]
          simp [CallEnv.taintRecord, escalationParams]

/-- An escalation resolves no row. -/
theorem escalate_keeps
    (h : repo.escalate watches envs refName value k ws s = (.ok created, s')) :
    ∀ path name, s.HasActive path name .taint →
      s'.HasActive path name .taint := by
  induction ws generalizing k s created with
  | nil =>
      obtain rfl := (Prod.mk.inj h).2
      exact fun _ _ hactive => hactive
  | cons w ws ih =>
      intro path name hactive
      rcases escalate_cons_eq_ok h with ⟨-, hrest⟩ |
        ⟨raised, rest, -, -, -, hrows, hrest⟩
      · exact ih hrest path name hactive
      · exact ih hrest path name ((hrows path name).mpr (Or.inl hactive))

theorem escalate_exact {before after : List Taint} {w : Taint}
    (h : repo.escalate watches envs refName value k (before ++ w :: after) s =
      (.ok created, s')) (hexceeded : (watches.exceeded value w).isSome = true)
    (hstood : ∀ p, MemoryTaints.listsPath w.path p = true →
      s.HasActive p (escalationName w.name) .taint → p = w.path)
    (hraised : ∀ p, MemoryTaints.listsPath w.path p = true →
      Exceeds watches value before p w.name → p = w.path) :
    s'.HasActive w.path (escalationName w.name) .taint := by
  induction before generalizing k s created with
  | nil =>
      rcases escalate_cons_eq_ok h with ⟨hlisted, hrest⟩ |
        ⟨raised, rest, -, -, -, hrows, hrest⟩
      · obtain ⟨p, hpath, hactive⟩ := hlisted hexceeded
        obtain rfl := hstood p hpath hactive
        exact escalate_keeps hrest _ _ hactive
      · apply escalate_keeps hrest
        exact (hrows _ _).mpr (Or.inr ⟨rfl, rfl⟩)
  | cons b before ih =>
      have hlater : ∀ p, MemoryTaints.listsPath w.path p = true →
          Exceeds watches value before p w.name → p = w.path := by
        rintro p hpath ⟨w', hmem, hw'⟩
        exact hraised p hpath ⟨w', List.mem_cons_of_mem b hmem, hw'⟩
      rcases escalate_cons_eq_ok h with ⟨-, hrest⟩ |
        ⟨raised, rest, hb, -, -, hrows, hrest⟩
      · exact ih hrest hstood hlater
      · refine ih hrest ?_ hlater
        intro p hpath hactive
        rcases (hrows _ _).mp hactive with hold | ⟨hp, hname⟩
        · exact hstood p hpath hold
        · exact hraised p hpath ⟨b, List.mem_cons_self, hb, hp,
            escalationName_injective hname⟩

/-- Only another writer's move of the branch can make an escalation on a ready
branch fail. -/
theorem escalate_eq_error {e : RepoError Id} (hready : repo.Ready refName s)
    (hns : defaultNs ∈ s.namespaces)
    (h : repo.escalate watches envs refName value k ws s = (.error e, s')) :
    ∃ j, k ≤ j ∧ (envs j).rival 0 ≠ none := by
  induction ws generalizing k s e s' with
  | nil => cases (Prod.mk.inj h).1
  | cons w ws ih =>
      unfold escalate at h
      split at h
      next => exact ih hready hns h
      next reason _ =>
        split at h
        next => exact ih hready hns h
        next hnot =>
          have hnew : ¬ s.HasActive w.path (escalationName w.name) .taint := by
            intro hactive
            apply hnot
            exact ((envs k).listTaints_any_iff).mpr
              ⟨w.path, by simp [MemoryTaints.listsPath], hactive⟩
          by_cases hrival : (envs k).rival 0 = none
          · obtain ⟨id, hfst⟩ : ∃ id, (repo.taint (envs k) refName w.path
                (escalationParams w reason) s).1 = .ok id :=
              hready.raiseThrough .taint _ hns hnew hrival
            have hraise := Outcome.eq_of_fst hfst
            obtain ⟨hready', hsame, -⟩ := raiseThrough_eq_ok rfl hraise
            rw [hraise] at h
            dsimp only at h
            split at h
            next hrest =>
              obtain ⟨j, hj, hmoved⟩ := ih hready' (hsame ▸ hns) hrest
              exact ⟨j, by omega, hmoved⟩
            next => cases (Prod.mk.inj h).1
          · exact ⟨k, le_rfl, hrival⟩

end Escalate

/-! ## The call -/

section SetJson

variable (repo : Repository) (env : CallEnv Id) (refName path : String)
  (value : Json) (options : CommitOptions) (s : Storage Id)

theorem setThrough_cases (o : Object Id) :
    (∃ e, repo.setThrough env refName path o options s = (.error e, s)) ∨
      ∃ statePath, repo.setThrough env refName path o options s =
        repo.writeThroughLoop env refName (setRoot statePath o) options s := by
  unfold setThrough
  split
  next e _ => exact Or.inl ⟨e, rfl⟩
  next =>
    split
    next e _ => exact Or.inl ⟨e, rfl⟩
    next statePath _ => exact Or.inr ⟨statePath, rfl⟩

theorem setJsonWrite_cases :
    ∃ objects,
      (∃ e, repo.setJsonWrite env refName path value options s =
          (.error e, s.withObjects objects)) ∨
        ∃ statePath o,
          repo.setJsonWrite env refName path value options s =
            repo.writeThroughLoop env refName (setRoot statePath o) options
              (s.withObjects objects) := by
  unfold setJsonWrite
  rcases jsonToTree s.objects value with ⟨rootId, objects⟩
  refine ⟨objects, ?_⟩
  dsimp only
  split
  next => exact Or.inl ⟨_, rfl⟩
  next o _ =>
    rcases setThrough_cases repo env refName path options
        (s.withObjects objects) o with ⟨e, h⟩ | ⟨statePath, h⟩
    · exact Or.inl ⟨e, h⟩
    · exact Or.inr ⟨statePath, o, h⟩

theorem setJsonWrite_tablesKept :
    s.TablesKept (repo.setJsonWrite env refName path value options s).2 := by
  obtain ⟨objects, ⟨e, h⟩ | ⟨statePath, o, h⟩⟩ :=
    setJsonWrite_cases repo env refName path value options s
  · rw [h]
    exact (s.withObjects_aside objects).tablesKept
  · rw [h]
    exact (s.withObjects_aside objects).tablesKept.trans
      (repo.writeThroughLoop_tablesKept env refName options
        (setRoot_onlyAdds statePath o) _)

variable {repo env refName path value options s}

theorem setJsonWrite_ready {id : Id} {landed : Storage Id}
    (h : repo.setJsonWrite env refName path value options s =
      (.ok id, landed)) : repo.Ready refName landed := by
  obtain ⟨objects, ⟨e, h'⟩ | ⟨statePath, o, h'⟩⟩ :=
    setJsonWrite_cases repo env refName path value options s
  · rw [h'] at h
    cases (Prod.mk.inj h).1
  · rw [h'] at h
    exact retryFrom_ready (setRoot_onlyAdds statePath o) h

theorem setJsonWrite_leftAlone {e : RepoError Id} {left : Storage Id}
    (h : repo.setJsonWrite env refName path value options s =
      (.error e, left)) : LeftAlone repo env refName s left := by
  obtain ⟨objects, ⟨e', h'⟩ | ⟨statePath, o, h'⟩⟩ :=
    setJsonWrite_cases repo env refName path value options s
  · rw [h'] at h
    obtain rfl := (Prod.mk.inj h).2
    exact Or.inl rfl
  · rw [h'] at h
    have hleft := retryFrom_leftAlone (setRoot_onlyAdds statePath o) h
    exact LeftAlone.trans (Or.inl rfl) hleft

variable {watches : WatchEnv} {envs : ℕ → CallEnv Id} {s' : Storage Id}

theorem setJsonThrough_escalates {id : Id}
    (h : repo.setJsonThrough watches envs refName path value options s =
      (.ok id, s'))
    (hnot : isTaintLifecycleIntent options.intent.category = false)
    {before after : List Taint} {w : Taint}
    (hrows : s.taints = before ++ w :: after)
    (hfires : watches.Fires path value w)
    (hstood : ∀ p, MemoryTaints.listsPath w.path p = true → p ≠ w.path →
      ¬ s.HasActive p (escalationName w.name) .taint)
    (hraised : ∀ w' ∈ before, watches.Fires path value w' →
      w'.name = w.name → MemoryTaints.listsPath w.path w'.path = true →
      w'.path = w.path) :
    s'.HasActive w.path (escalationName w.name) .taint := by
  unfold setJsonThrough at h
  split at h
  next => cases (Prod.mk.inj h).1
  next id' landed hwrite =>
    rw [hnot] at h
    simp only [Bool.false_eq_true, if_false] at h
    split at h
    next => cases (Prod.mk.inj h).1
    next created done hescalate =>
      obtain rfl := (Prod.mk.inj h).2
      have hkept := setJsonWrite_tablesKept repo (envs 0) refName path value
        options s
      rw [hwrite] at hkept
      obtain ⟨hkind, hactive, happlies, hexceeded⟩ := hfires
      -- the watches that are looked at, cut where this one stands
      have hcut : ((checkTaint watches landed path).filter
          fun t => t.kind = .watch) =
          ((before.filter fun t => t.isActive watches.now && t.appliesTo path
            ).filter fun t => t.kind = .watch) ++
            w :: ((after.filter fun t =>
              t.isActive watches.now && t.appliesTo path).filter
                fun t => t.kind = .watch) := by
        rw [checkTaint, hkept.taints, hrows]
        simp [List.filter_append, hkind, hactive, happlies]
      unfold autoEscalate at hescalate
      rw [hcut] at hescalate
      refine escalate_exact hescalate hexceeded ?_ ?_
      · intro p hpath hstands
        by_contra hne
        exact hstood p hpath hne
          ((Storage.hasActive_of_taints hkept.taints _ _ _).mp hstands)
      · rintro p hpath ⟨w', hmem, hexceeded', rfl, hname⟩
        simp only [List.mem_filter, Bool.and_eq_true, decide_eq_true_eq] at hmem
        obtain ⟨⟨hbefore, hactive', happlies'⟩, hkind'⟩ := hmem
        exact hraised w' hbefore ⟨hkind', hactive', happlies', hexceeded'⟩
          hname hpath

theorem setJsonThrough_eq_error {e : RepoError Id}
    (h : repo.setJsonThrough watches envs refName path value options s =
      (.error e, s'))
    (hns : defaultNs ∈ s.namespaces) :
    ((∃ e', (repo.setJsonWrite (envs 0) refName path value options s).1 =
        .error e') ∧ LeftAlone repo (envs 0) refName s s') ∨
      (∃ id, (repo.setJsonWrite (envs 0) refName path value options s).1 =
        .ok id) ∧
        isTaintLifecycleIntent options.intent.category = false ∧
        ∃ k, (envs (k + 1)).rival 0 ≠ none := by
  unfold setJsonThrough at h
  split at h
  next e' left hwrite =>
    obtain rfl := (Prod.mk.inj h).2
    exact Or.inl ⟨⟨e', congrArg Prod.fst hwrite⟩,
      setJsonWrite_leftAlone hwrite⟩
  next id landed hwrite =>
    refine Or.inr ⟨⟨id, congrArg Prod.fst hwrite⟩, ?_⟩
    split at h
    next => cases (Prod.mk.inj h).1
    next hnot =>
      refine ⟨by simpa using hnot, ?_⟩
      split at h
      next hescalate =>
        have hkept := setJsonWrite_tablesKept repo (envs 0) refName path value
          options s
        rw [hwrite] at hkept
        obtain ⟨j, hj, hmoved⟩ := escalate_eq_error
          (setJsonWrite_ready hwrite) (hkept.namespaces ▸ hns) hescalate
        obtain ⟨k, rfl⟩ := Nat.exists_eq_add_of_le' hj
        exact ⟨k, hmoved⟩
      next => cases (Prod.mk.inj h).1

variable (repo watches envs refName path value options s)

end SetJson

end Repository

namespace WatchExamples

open ContentKey

/-- A state that is an empty map, and its commit on `main`. -/
def start : Commit ContentKey :=
  CommitBuilder.build (Object.emptyMap : Object ContentKey).id []
    (ContentKey.options .checkpoint) 0

/-- A watch of the temperature at `/t`. -/
def watch : Taint where
  id := "w-1"
  path := "/t"
  name := "hot"
  kind := .watch
  effect := .advisory
  reason := "heat"
  agentId := "agent"
  commitId := ""
  expiresAt := none
  resolvedAt := none
  propagate := true
  authorizedAgents := []

def store : Storage ContentKey :=
  { (((Storage.new : Storage ContentKey).withObjects
      (AddressedMap.empty.put Object.emptyMap)).putCommit start).putRef
      defaultNs "main" start.id with taints := [watch] }

/-- It fires above zero. -/
def watches : WatchEnv where
  settings _ := ⟨some "celsius", some F64.zero, none⟩
  parseF64 _ := none
  showF64 _ := "0"
  now := 0

def one : Json := .number (.float F64.one)

def run (refName : String) (category : IntentCategory) :
    Outcome ContentKey ContentKey :=
  Repository.new.setJsonThrough watches (fun _ => TaintCall.Examples.env)
    refName "/t" one (ContentKey.options category) store

/-- What a write of `one` on a category commits. -/
def written (category : IntentCategory) : ContentKey :=
  (CommitBuilder.build (mapOf [("t", Object.atom (.float F64.one))]).id [start.id]
    (ContentKey.options category) 0).id

theorem fires_watch : watches.Fires "/t" one watch := by
  refine ⟨rfl, rfl, by decide, by decide⟩

end WatchExamples

open WatchExamples

end AgentStateGraph
