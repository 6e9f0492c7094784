import AgentStateGraph.Repo.Agreement
import AgentStateGraph.Repo.AgentCalls

/-!
# Taints over runs of writes

The pre-commit hook refuses a direct write whose path a protecting taint
applies to.  A merge and the commit of a speculation do not run it.  Over any
run of writes, the value at a protected path stays what it was on every
branch, provided each write is seen by the hook or stays away from the path.
-/

namespace AgentStateGraph

variable {Id : Type} [Digest Id]

/-! ## What the hook refuses -/

/-- The taint forbids writes of the agent: an active block, or an active
quarantine that does not list it. -/
def Taint.protectsFrom (t : Taint) (agentId : String) (now : ℤ) : Bool :=
  t.isActive now &&
    match t.kind with
    | .taint => decide (t.effect = .block)
    | .quarantine => decide (agentId ∉ t.authorizedAgents)
    | .watch => false

section Hook

variable (agentId : String)

theorem TaintCheck.add_taints (out : TaintCheck) (t : Taint) :
    (out.add agentId t).taints =
      out.taints ++ [t].filter fun t => decide (t.kind = .taint) := by
  unfold TaintCheck.add
  cases hkind : t.kind with
  | taint =>
      cases t.effect <;> simp [hkind]
      split <;> rfl
  | quarantine =>
      simp only [hkind, reduceCtorEq, decide_false, List.filter_cons,
        Bool.false_eq_true, if_false, List.filter_nil, List.append_nil]
      split <;> rfl
  | watch => simp [hkind]

theorem TaintCheck.add_quarantines (out : TaintCheck) (t : Taint) :
    (out.add agentId t).quarantines =
      out.quarantines ++ [t].filter fun t => decide (t.kind = .quarantine) := by
  unfold TaintCheck.add
  cases hkind : t.kind with
  | taint =>
      cases t.effect <;> simp [hkind]
      split <;> rfl
  | quarantine =>
      simp only [hkind, decide_true, List.filter_cons, if_true,
        List.filter_nil]
      split <;> rfl
  | watch => simp [hkind]

theorem foldl_add_taints (ts : List Taint) (out : TaintCheck) :
    (ts.foldl (TaintCheck.add agentId) out).taints =
      out.taints ++ ts.filter fun t => decide (t.kind = .taint) := by
  induction ts generalizing out with
  | nil => simp
  | cons t ts ih =>
      rw [List.foldl_cons, ih, TaintCheck.add_taints, List.append_assoc,
        ← List.filter_append]
      rfl

theorem foldl_add_quarantines (ts : List Taint) (out : TaintCheck) :
    (ts.foldl (TaintCheck.add agentId) out).quarantines =
      out.quarantines ++ ts.filter fun t => decide (t.kind = .quarantine) := by
  induction ts generalizing out with
  | nil => simp
  | cons t ts ih =>
      rw [List.foldl_cons, ih, TaintCheck.add_quarantines, List.append_assoc,
        ← List.filter_append]
      rfl

theorem TaintCheck.add_canWrite_of_false {out : TaintCheck} (t : Taint)
    (h : out.canWrite = false) : (out.add agentId t).canWrite = false := by
  unfold TaintCheck.add
  cases t.kind with
  | taint =>
      cases t.effect <;> simp [h]
      split <;> rfl
  | quarantine =>
      simp only
      split
      · exact h
      · rfl
  | watch => exact h

theorem TaintCheck.add_canWrite_of_protects {t : Taint} {now : ℤ}
    (out : TaintCheck) (h : t.protectsFrom agentId now = true) :
    (out.add agentId t).canWrite = false := by
  simp only [Taint.protectsFrom, Bool.and_eq_true] at h
  unfold TaintCheck.add
  cases hkind : t.kind with
  | taint =>
      have heffect : t.effect = .block := by simpa [hkind] using h.2
      simp [heffect]
  | quarantine =>
      have hagent : agentId ∉ t.authorizedAgents := by simpa [hkind] using h.2
      simp [hagent]
  | watch => simp [hkind] at h

theorem foldl_add_canWrite {ts : List Taint} {t : Taint} {now : ℤ}
    (out : TaintCheck) (ht : t ∈ ts)
    (h : t.protectsFrom agentId now = true) :
    (ts.foldl (TaintCheck.add agentId) out).canWrite = false := by
  have hclosed : ∀ (us : List Taint) (out : TaintCheck),
      out.canWrite = false →
        (us.foldl (TaintCheck.add agentId) out).canWrite = false := by
    intro us
    induction us with
    | nil => exact fun out hout => hout
    | cons u us ih =>
        intro out hout
        exact ih _ (TaintCheck.add_canWrite_of_false agentId u hout)
  induction ts generalizing out with
  | nil => simp at ht
  | cons u us ih =>
      rcases List.mem_cons.mp ht with rfl | ht
      · exact hclosed us _
          (TaintCheck.add_canWrite_of_protects agentId out h)
      · exact ih _ ht

end Hook

omit [Digest Id] in
/-- The hook lets no write through to a path that a protecting taint applies
to. -/
theorem checkPath_ne_ok {taints : List Taint} {options : CommitOptions}
    {now : ℤ} {path : String} {t : Taint} {warnings : List String}
    (ht : t ∈ taints) (h : t.protectsFrom options.agentId now = true)
    (happlies : t.appliesTo path = true) :
    (checkPath taints options now path : Except (RepoError Id) _) ≠
      .ok warnings := by
  have hactive : t.isActive now = true := by
    simp only [Taint.protectsFrom, Bool.and_eq_true] at h
    exact h.1
  have hmem : t ∈ ancestorCandidates path (ancestorCandidates path taints now)
      now := by
    simp [ancestorCandidates, ht, hactive, happlies]
  generalize hcs : ancestorCandidates path
    (ancestorCandidates path taints now) now = cs at hmem
  have hclosed := foldl_add_canWrite options.agentId TaintCheck.clear hmem h
  have heval : evaluateAccess path options.agentId
      (options.confidence.getD F64.one) (ancestorCandidates path taints now)
        now = cs.foldl (TaintCheck.add options.agentId) TaintCheck.clear := by
    simp [evaluateAccess, hcs, hclosed]
  simp only [checkPath, heval, hclosed, Bool.false_eq_true, if_false,
    foldl_add_quarantines, foldl_add_taints]
  split
  next => simp
  next hnoq =>
    split
    next => simp
    next hnot =>
      exfalso
      simp only [TaintCheck.clear, List.nil_append, List.find?_eq_none,
        List.mem_filter, decide_eq_true_eq] at hnoq hnot
      simp only [Taint.protectsFrom, hactive, Bool.true_and] at h
      cases hkind : t.kind with
      | taint => exact hnot t ⟨hmem, hkind⟩ (by simpa [hkind] using h)
      | quarantine => exact hnoq t ⟨hmem, hkind⟩ (by simpa [hkind] using h)
      | watch => simp [hkind] at h

theorem checkWrite_eq_ok {store : Storage Id} {path : String}
    {options : CommitOptions} {now : ℤ}
    (hordinary : isTaintLifecycleIntent options.intent.category = false)
    (h : checkWrite store path options now = .ok ()) {t : Taint}
    (ht : t ∈ store.taints)
    (hprotects : t.protectsFrom options.agentId now = true) :
    t.appliesTo path = false := by
  obtain ⟨-, -, h⟩ := Except.bind_eq_ok_iff.mp h
  rw [hordinary] at h
  obtain ⟨ws, hws, -⟩ := Except.bind_eq_ok_iff.mp h
  obtain ⟨w, hw, -⟩ := Except.bind_eq_ok_iff.mp hws
  by_contra happlies
  exact checkPath_ne_ok ht hprotects (by simpa using happlies) hw

/-! ## Runs -/

namespace AgentCall

variable (c : AgentCall Id)

/-- The hook sees a write of this path: it is no taint commit, and the taint
applies to the path. -/
def Hooked (t : Taint) (path : String) : Prop :=
  isTaintLifecycleIntent c.options.intent.category = false ∧
    t.appliesTo path = true

/-- How a call leaves a protected path alone: the hook sees it, or it is about
other paths, or what it merges did not touch the path. -/
def Spares (store : Storage Id) (t : Taint) (q : List PathComponent) : Prop :=
  match c.write with
  | .set _ path _ | .setJson _ path _ _ | .setJsonCas _ _ path _ _ =>
      c.Hooked t path ∨
        ∀ p, StatePath.parse path = .ok p → PathsDisjoint p.components q
  | .delete _ path =>
      c.Hooked t path ∨
        ∀ p, StatePath.parse path = .ok p →
          PathsDisjoint p.components q ∧ ¬ShiftsPath p.components q
  | .merge source target _ => c.repo.MergeSpares store source target q
  | .commitSpeculation spec => c.repo.SpeculationSpares store spec q
  | .commitSpeculationCas spec _ =>
      AgreeAt store.objects spec.currentRoot spec.baseRoot q

/-- The call spares the path of every taint that protects from it. -/
def Meets (store : Storage Id) : Prop :=
  ∀ t ∈ store.taints, t.protectsFrom c.options.agentId (c.now 0) = true →
    ∀ p, StatePath.parse t.path = .ok p → c.Spares store t p.components

theorem not_hooked_of_checkWrite {c : AgentCall Id} {store : Storage Id}
    {path : String} {t : Taint} (ht : t ∈ store.taints)
    (hprotects : t.protectsFrom c.options.agentId (c.now 0) = true)
    (h : checkWrite store path c.options (c.now 0) = .ok ()) :
    ¬c.Hooked t path := by
  rintro ⟨hordinary, happlies⟩
  rw [checkWrite_eq_ok hordinary h ht hprotects] at happlies
  contradiction

theorem run_keepsAt {c : AgentCall Id} {store : Storage Id} {t : Taint}
    {q : List PathComponent} (ht : t ∈ store.taints)
    (hprotects : t.protectsFrom c.options.agentId (c.now 0) = true)
    (hspares : c.Spares store t q) : KeepsAt q store (c.run store).2 := by
  unfold Spares at hspares
  unfold run
  cases hwrite : c.write with
  | set refName path value =>
      simp only [hwrite] at hspares ⊢
      refine c.repo.set_keepsAt refName value ?_
      intro hcheck
      exact hspares.resolve_left (not_hooked_of_checkWrite ht hprotects hcheck)
  | setJson refName path value fired =>
      simp only [hwrite] at hspares ⊢
      refine c.repo.setJson_keepsAt ?_
      intro s hs hcheck
      exact hspares.resolve_left
        (not_hooked_of_checkWrite (hs ▸ ht) hprotects hcheck)
  | setJsonCas refName expectedHead path value fired =>
      simp only [hwrite] at hspares ⊢
      refine c.repo.setJsonCas_keepsAt ?_
      intro hcheck
      exact hspares.resolve_left (not_hooked_of_checkWrite ht hprotects hcheck)
  | delete refName path =>
      simp only [hwrite] at hspares ⊢
      refine c.repo.delete_keepsAt ?_
      intro hcheck
      exact hspares.resolve_left (not_hooked_of_checkWrite ht hprotects hcheck)
  | merge source target allowDeletions =>
      simp only [hwrite] at hspares ⊢
      exact c.repo.mergeChecked_keepsAt hspares
  | commitSpeculation spec =>
      simp only [hwrite] at hspares ⊢
      exact c.repo.commitSpeculation_keepsAt hspares
  | commitSpeculationCas spec expectedHead =>
      simp only [hwrite] at hspares ⊢
      exact c.repo.commitSpeculationCas_keepsAt hspares

end AgentCall

/-- The state after a run of calls. -/
def runCalls : List (AgentCall Id) → Storage Id → Storage Id
  | [], store => store
  | c :: calls, store => runCalls calls (c.run store).2

/-- Every call of a run meets the condition where it happens. -/
def AllMeet : List (AgentCall Id) → Storage Id → Prop
  | [], _ => True
  | c :: calls, store => c.Meets store ∧ AllMeet calls (c.run store).2

namespace Blocked

open ContentKey

def x : Object ContentKey := Object.string "x"

def y : Object ContentKey := Object.string "y"

def start : Commit ContentKey := commitOf (mapOf [("a", x)]) [] 0

/-- Changes the blocked path. -/
def rewrite : Commit ContentKey := commitOf (mapOf [("a", y)]) [start] 1

/-- Changes another one. -/
def extend : Commit ContentKey :=
  commitOf (mapOf [("a", x), ("b", y)]) [start] 1

def block : Taint where
  id := "taint-1"
  path := "/a"
  name := "frozen"
  kind := .taint
  effect := .block
  reason := "under review"
  agentId := "reviewer"
  commitId := ""
  expiresAt := none
  resolvedAt := none
  propagate := true
  authorizedAgents := []

def store : Storage ContentKey :=
  ((({ Storage.new with
      objects := AddressedMap.empty.putAll
        [x, y, mapOf [("a", x)], mapOf [("a", y)], mapOf [("a", x), ("b", y)]]
      commits := AddressedMap.empty.putAll [start, rewrite, extend]
      taints := [block] } :
    Storage ContentKey).putRef "default" "main" start.id).putRef "default"
      "rewrite" rewrite.id).putRef "default" "extend" extend.id

def call (write : AgentWrite ContentKey) : AgentCall ContentKey where
  repo := Repository.new
  write := write
  options := options .refine
  now := fun _ => 2

/-- The change to the blocked path, by each of the two unchecked routes. -/
def merging : AgentCall ContentKey := call (.merge "rewrite" "main" true)

def speculating : AgentCall ContentKey :=
  call (.commitSpeculation ⟨none, "main", start.stateRoot, rewrite.stateRoot⟩)

/-- Writes that meet the condition: one beside the path, one merge of a branch
that left it alone. -/
def allowed : List (AgentCall ContentKey) :=
  [call (.set "main" "/c" y), call (.merge "extend" "main" true)]

/-- What `main` has at the blocked path. -/
def blockedValue (s : Storage ContentKey) : Option ContentKey :=
  ((s.refAt "default" "main").bind s.rootOf).bind fun root =>
    idAt s.objects root [.key "a"]

set_option maxRecDepth 16384 in
/-- A branch that has another value at the path has not kept it. -/
theorem not_keepsAt {s : Storage ContentKey}
    (hvalue : blockedValue s ≠ some x.id) :
    ¬KeepsAt [.key "a"] store s := by
  intro hkeeps
  have href : store.refAt "default" "main" = some start.id := by decide
  have hroot : store.rootOf start.id = some start.stateRoot := by
    decide
  obtain ⟨head', root', href', hroot', hagree⟩ :=
    hkeeps.branch _ _ _ _ href hroot
  have hold : idAt store.objects start.stateRoot [.key "a"] = some x.id := by
    decide
  apply hvalue
  rw [idAt_eq_lookupAt] at hold
  simp only [blockedValue, href', hroot', Option.bind_some]
  rw [← hagree s.objects (le_refl _), idAt_eq_lookupAt,
    lookupAt_of_le hkeeps.objects hold]

/-- The state in which the merge of `allowed` happens. -/
def afterSet : Storage ContentKey :=
  ((call (.set "main" "/c" y)).run store).2

theorem allowed_set_meets : (call (.set "main" "/c" y)).Meets store := by
  intro t ht _ p hp
  obtain rfl : t = block := List.mem_singleton.mp ht
  have hblock : StatePath.parse block.path = .ok ⟨[.key "a"]⟩ := by
    decide
  obtain rfl : p = ⟨[.key "a"]⟩ := Except.ok.inj (hp.symm.trans hblock)
  refine Or.inr ?_
  intro p' hp'
  have hpath : StatePath.parse "/c" = .ok ⟨[.key "c"]⟩ := by decide
  obtain rfl : p' = ⟨[.key "c"]⟩ := Except.ok.inj (hp'.symm.trans hpath)
  simp [PathsDisjoint]

set_option maxRecDepth 16384 in
theorem allowed_merge_meets :
    (call (.merge "extend" "main" true)).Meets afterSet := by
  have htaints : afterSet.taints = [block] := by decide
  intro t ht _ p hp
  rw [htaints] at ht
  obtain rfl : t = block := List.mem_singleton.mp ht
  have hblock : StatePath.parse block.path = .ok ⟨[.key "a"]⟩ := by
    decide
  obtain rfl : p = ⟨[.key "a"]⟩ := Except.ok.inj (hp.symm.trans hblock)
  intro sourceId targetId baseId sourceRoot targetRoot baseRoot hs ht hb hsr _ hbr
  have hsource : Repository.new.resolveRef afterSet "extend" =
      .ok extend.id := by decide
  obtain rfl : sourceId = extend.id := Except.ok.inj (hs.symm.trans hsource)
  have htarget : ∃ id, Repository.new.resolveRef afterSet "main" = .ok id ∧
      findCommonAncestor afterSet.commits extend.id id = some start.id :=
    ⟨((afterSet.refAt "default" "main").getD start.id), by decide⟩
  obtain ⟨id, hid, hbase⟩ := htarget
  obtain rfl : targetId = id := Except.ok.inj (ht.symm.trans hid)
  obtain rfl : baseId = start.id := Option.some.inj (hb.symm.trans hbase)
  have hsourceRoot : afterSet.rootOf extend.id = some extend.stateRoot := by
    decide
  have hbaseRoot : afterSet.rootOf start.id = some start.stateRoot := by
    decide
  obtain rfl : sourceRoot = extend.stateRoot :=
    Option.some.inj (hsr.symm.trans hsourceRoot)
  obtain rfl : baseRoot = start.stateRoot :=
    Option.some.inj (hbr.symm.trans hbaseRoot)
  have hx : idAt afterSet.objects extend.stateRoot [.key "a"] = some x.id ∧
      idAt afterSet.objects start.stateRoot [.key "a"] = some x.id := by
    decide
  exact Or.inl (AgreeAt.of_idAt_eq_some hx.1 hx.2)

end Blocked

end AgentStateGraph
