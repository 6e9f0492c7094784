import AgentStateGraph.Lib.LikePattern
import AgentStateGraph.Repo.Guards

/-!
# Taints in a table

The in-memory backend keeps taint records and filters them as the pure check
does.  SQLite keeps one row of texts for each record and selects rows by text:
an expiry is compared as text, and a taint covers what is like its path
followed by a slash.  The backends agree on a request exactly when every
unresolved taint meets it in both ways or in neither.
-/

namespace AgentStateGraph

open LikePattern

/-! ## Records and rows -/

/-- Advisory severity. -/
inductive TaintSeverity where
  | low | medium | high | critical
deriving DecidableEq

/-- A taint with the fields that only listings show. -/
structure TaintRecord extends Taint where
  severity : TaintSeverity
  createdAt : ℤ
  resolvedBy : Option String
  resolvedReason : Option String
  resolvedProof : Option String
deriving DecidableEq

/-- The text forms of times and metadata, which read back. -/
structure TaintCodec where
  formatTime : ℤ → String
  parseTime : String → Except String ℤ
  parse_format : ∀ t, parseTime (formatTime t) = .ok t
  metadataText : List String → String
  parseMetadata : String → Except String (List String)
  parse_metadata : ∀ m, parseMetadata (metadataText m) = .ok m

namespace Sqlite

structure TaintRow where
  id : String
  path : String
  name : String
  kind : String
  effect : String
  severity : String
  reason : String
  agentId : String
  commitId : String
  createdAt : String
  expiresAt : Option String
  resolvedAt : Option String
  resolvedBy : Option String
  resolvedReason : Option String
  resolvedProof : Option String
  propagate : ℤ
  metadata : String
deriving DecidableEq

def kindToStr : TaintKind → String
  | .taint => "taint"
  | .quarantine => "quarantine"
  | .watch => "watch"

def kindFromStr (s : String) : Except String TaintKind :=
  if s = "taint" then .ok .taint
  else if s = "quarantine" then .ok .quarantine
  else if s = "watch" then .ok .watch
  else .error ("unknown taint kind: " ++ s)

def effectToStr : TaintEffect → String
  | .warn => "warn"
  | .block => "block"
  | .review => "review"
  | .isolate => "isolate"
  | .advisory => "advisory"

def effectFromStr (s : String) : Except String TaintEffect :=
  if s = "warn" then .ok .warn
  else if s = "block" then .ok .block
  else if s = "review" then .ok .review
  else if s = "isolate" then .ok .isolate
  else if s = "advisory" then .ok .advisory
  else .error ("unknown taint effect: " ++ s)

def severityToStr : TaintSeverity → String
  | .low => "low"
  | .medium => "medium"
  | .high => "high"
  | .critical => "critical"

def severityFromStr (s : String) : Except String TaintSeverity :=
  if s = "low" then .ok .low
  else if s = "medium" then .ok .medium
  else if s = "high" then .ok .high
  else if s = "critical" then .ok .critical
  else .error ("unknown taint severity: " ++ s)

section Rows

variable (codec : TaintCodec)

/-- The row `create_taint` inserts. -/
def taintToRow (t : TaintRecord) : TaintRow where
  id := t.id
  path := t.path
  name := t.name
  kind := kindToStr t.kind
  effect := effectToStr t.effect
  severity := severityToStr t.severity
  reason := t.reason
  agentId := t.agentId
  commitId := t.commitId
  createdAt := codec.formatTime t.createdAt
  expiresAt := t.expiresAt.map codec.formatTime
  resolvedAt := t.resolvedAt.map codec.formatTime
  resolvedBy := t.resolvedBy
  resolvedReason := t.resolvedReason
  resolvedProof := t.resolvedProof
  propagate := if t.propagate then 1 else 0
  metadata := codec.metadataText t.authorizedAgents

/-- A time that may be missing. -/
def parseOptional : Option String → Except String (Option ℤ)
  | none => .ok none
  | some s => do
      let t ← codec.parseTime s
      .ok (some t)

def rowToTaint (row : TaintRow) : Except String TaintRecord := do
  let metadata ← codec.parseMetadata row.metadata
  let createdAt ← codec.parseTime row.createdAt
  let expiresAt ← parseOptional codec row.expiresAt
  let resolvedAt ← parseOptional codec row.resolvedAt
  let kind ← kindFromStr row.kind
  let effect ← effectFromStr row.effect
  let severity ← severityFromStr row.severity
  .ok
    { id := row.id
      path := row.path
      name := row.name
      kind := kind
      effect := effect
      reason := row.reason
      agentId := row.agentId
      commitId := row.commitId
      expiresAt := expiresAt
      resolvedAt := resolvedAt
      propagate := row.propagate != 0
      authorizedAgents := metadata
      severity := severity
      createdAt := createdAt
      resolvedBy := row.resolvedBy
      resolvedReason := row.resolvedReason
      resolvedProof := row.resolvedProof }

/-- `SELECT * ... ORDER BY created_at DESC`, and the rows read out. -/
def selectTaints (rows : List TaintRow) (cond : TaintRow → Bool) :
    Except StorageError (List TaintRecord) :=
  match ((rows.filter cond).mergeSort
      fun a b => decide (b.createdAt ≤ a.createdAt)).mapM (rowToTaint codec) with
  | .ok out => .ok out
  | .error e => .error (.backend e)

/-- `str::trim_end_matches('/')`. -/
def trimSlashes (p : String) : String :=
  String.ofList (p.toList.reverse.dropWhile (· == '/')).reverse

/-- `path = :p OR path LIKE :plike`. -/
def listsPath (pre path : String) : Bool :=
  path == trimSlashes pre ||
    like ((trimSlashes pre).toList ++ ['/', '%']) path.toList

def listTaints (rows : List TaintRow) (pathPrefix : Option String)
    (kind : Option TaintKind) (includeResolved : Bool) :
    Except StorageError (List TaintRecord) :=
  selectTaints codec rows fun row =>
    (includeResolved || row.resolvedAt.isNone) &&
      (match pathPrefix with
        | none => true
        | some p => listsPath p row.path) &&
      match kind with
      | none => true
      | some k => row.kind == kindToStr k

/-- `path = :path OR (propagate = 1 AND :path LIKE path || '/%')`. -/
def coversPath (row : TaintRow) (path : String) : Bool :=
  row.path == path ||
    (row.propagate == 1 && like (row.path.toList ++ ['/', '%']) path.toList)

def checkTaint (rows : List TaintRow) (path : String) (now : ℤ) :
    Except StorageError (List TaintRecord) :=
  selectTaints codec rows fun row =>
    row.resolvedAt.isNone &&
      (match row.expiresAt with
        | none => true
        | some e => decide (codec.formatTime now < e)) &&
      coversPath row path

end Rows

end Sqlite

namespace MemoryTaints

open Sqlite (trimSlashes)

def listsPath (pre path : String) : Bool :=
  path == pre || startsWith path (trimSlashes pre ++ "/")

def listTaints (taints : List TaintRecord) (pathPrefix : Option String)
    (kind : Option TaintKind) (includeResolved : Bool) : List TaintRecord :=
  (((taints.filter fun t => includeResolved || t.resolvedAt.isNone).filter
    fun t =>
      match pathPrefix with
      | none => true
      | some p => listsPath p t.path).filter
    fun t =>
      match kind with
      | none => true
      | some k => decide (k = t.kind)).mergeSort
    fun a b => decide (b.createdAt ≤ a.createdAt)

def checkTaint (taints : List TaintRecord) (path : String) (now : ℤ) :
    List TaintRecord :=
  taints.filter fun t => t.isActive now && t.appliesTo path

end MemoryTaints

/-! ## Rows read back -/

section ReadBack

variable (codec : TaintCodec)

theorem kindToStr_injective : Function.Injective Sqlite.kindToStr := by
  intro a b h
  cases a <;> cases b <;> first | rfl | simp [Sqlite.kindToStr] at h

theorem parseOptional_map (t : Option ℤ) :
    Sqlite.parseOptional codec (t.map codec.formatTime) = .ok t := by
  cases t with
  | none => rfl
  | some t => simp [Sqlite.parseOptional, codec.parse_format]

theorem rowToTaint_taintToRow (t : TaintRecord) :
    Sqlite.rowToTaint codec (Sqlite.taintToRow codec t) = .ok t := by
  have hkind : Sqlite.kindFromStr (Sqlite.kindToStr t.kind) = .ok t.kind := by
    cases t.kind <;> rfl
  have heffect : Sqlite.effectFromStr (Sqlite.effectToStr t.effect) =
      .ok t.effect := by
    cases t.effect <;> rfl
  have hseverity : Sqlite.severityFromStr (Sqlite.severityToStr t.severity) =
      .ok t.severity := by
    cases t.severity <;> rfl
  have hpropagate : ((if t.propagate then (1 : ℤ) else 0) != 0) =
      t.propagate := by
    cases t.propagate <;> rfl
  simp only [Sqlite.rowToTaint, Sqlite.taintToRow, codec.parse_metadata,
    codec.parse_format, parseOptional_map, hkind, heffect, hseverity,
    hpropagate, Except.ok_bind]

theorem mapM_rowToTaint (ts : List TaintRecord) :
    (ts.map (Sqlite.taintToRow codec)).mapM (Sqlite.rowToTaint codec) =
      .ok ts := by
  rw [List.mapM_map]
  have hread : List.mapM (Sqlite.rowToTaint codec ∘ Sqlite.taintToRow codec)
      ts = .ok (ts.map id) :=
    Except.mapM_eq_ok fun t _ => rowToTaint_taintToRow codec t
  rw [hread, List.map_id]

theorem selectTaints_perm (ts : List TaintRecord)
    (cond : Sqlite.TaintRow → Bool) :
    ∃ out, Sqlite.selectTaints codec (ts.map (Sqlite.taintToRow codec)) cond =
        .ok out ∧
      out.Perm (ts.filter fun t => cond (Sqlite.taintToRow codec t)) := by
  obtain ⟨out, hmap, hperm⟩ : ∃ out,
      ((ts.map (Sqlite.taintToRow codec)).filter cond).mergeSort
          (fun a b => decide (b.createdAt ≤ a.createdAt)) =
        List.map (Sqlite.taintToRow codec) out ∧
      out.Perm (ts.filter fun t => cond (Sqlite.taintToRow codec t)) := by
    rw [List.filter_map]
    have hsorted := List.mergeSort_perm
      ((ts.filter (cond ∘ Sqlite.taintToRow codec)).map
        (Sqlite.taintToRow codec))
      (fun a b => decide (b.createdAt ≤ a.createdAt))
    exact (iff_of_eq (congrFun₂ (List.eq_map_comp_perm
      (Sqlite.taintToRow codec)) _ _)).mpr hsorted
  refine ⟨out, ?_, hperm⟩
  unfold Sqlite.selectTaints
  rw [hmap, mapM_rowToTaint]

end ReadBack

/-! ## Agreement -/

section Agreement

variable (codec : TaintCodec)

/-- Two selections find the same records exactly when they agree on every
record. -/
theorem filter_perm_iff {α : Type} {l : List α} {p q : α → Bool} :
    (l.filter p).Perm (l.filter q) ↔ ∀ x ∈ l, p x = q x := by
  constructor
  · intro h x hx
    have hmem := h.mem_iff (a := x)
    simp only [List.mem_filter, hx, true_and] at hmem
    exact Bool.eq_iff_iff.mpr hmem
  · intro h
    rw [List.filter_congr h]

/-- The backend answers with the given records, in some order. -/
def Answers {ε : Type} (result : Except ε (List TaintRecord))
    (expected : List TaintRecord) : Prop :=
  ∃ out, result = .ok out ∧ out.Perm expected

theorem selectTaints_answers_iff (ts : List TaintRecord)
    (cond : Sqlite.TaintRow → Bool) {keep : TaintRecord → Bool}
    {expected : List TaintRecord} (hexpected : expected.Perm (ts.filter keep)) :
    Answers (Sqlite.selectTaints codec (ts.map (Sqlite.taintToRow codec)) cond)
        expected ↔
      ∀ t ∈ ts, cond (Sqlite.taintToRow codec t) = keep t := by
  obtain ⟨out, hout, hperm⟩ := selectTaints_perm codec ts cond
  rw [← filter_perm_iff]
  constructor
  · rintro ⟨out', hout', hperm'⟩
    rw [hout] at hout'
    cases hout'
    exact (hperm.symm.trans hperm').trans hexpected
  · intro h
    exact ⟨out, hout, (hperm.trans h).trans hexpected.symm⟩

/-- The taint is on the path, or propagates and is like some ancestor of
it. -/
def LikesAncestor (t : TaintRecord) (path : String) : Prop :=
  t.path = path ∨ t.propagate = true ∧
    ∃ x y, path.toList = x ++ '/' :: y ∧ like t.path.toList x = true

/-- The taint is on the path, or propagates and its boundary is how the path
starts. -/
def CoversPath (t : TaintRecord) (path : String) : Prop :=
  t.path = path ∨ t.propagate = true ∧ t.boundary.toList <+: path.toList

/-- The taint has not expired, by the clock. -/
def Unexpired (t : TaintRecord) (now : ℤ) : Prop :=
  ∀ e, t.expiresAt = some e → now < e

/-- The taint has not expired, by the order of the texts. -/
def UnexpiredText (t : TaintRecord) (now : ℤ) : Prop :=
  ∀ e, t.expiresAt = some e → codec.formatTime now < codec.formatTime e

/-- Every unresolved taint that has not expired is like an ancestor of the
path exactly when it covers the path; one whose expiry compares differently
as a text has nothing to do with the path. -/
def CheckAgrees (ts : List TaintRecord) (path : String) (now : ℤ) : Prop :=
  ∀ t ∈ ts, t.resolvedAt = none →
    (Unexpired t now → UnexpiredText codec t now →
      (LikesAncestor t path ↔ CoversPath t path)) ∧
    (Unexpired t now → ¬ UnexpiredText codec t now → ¬ CoversPath t path) ∧
    (¬ Unexpired t now → UnexpiredText codec t now → ¬ LikesAncestor t path)

theorem coversPath_iff (t : TaintRecord) (path : String) :
    Sqlite.coversPath (Sqlite.taintToRow codec t) path = true ↔
      LikesAncestor t path := by
  have hpropagate : ((if t.propagate then (1 : ℤ) else 0) == 1) =
      t.propagate := by
    cases t.propagate <;> rfl
  simp only [Sqlite.coversPath, Sqlite.taintToRow, LikesAncestor, hpropagate,
    Bool.or_eq_true, Bool.and_eq_true, beq_iff_eq, like_append_slash_percent]

theorem appliesTo_iff (t : TaintRecord) (path : String) :
    t.appliesTo path = true ↔ CoversPath t path := by
  simp only [Taint.appliesTo, CoversPath, Bool.or_eq_true, Bool.and_eq_true,
    beq_iff_eq, startsWith_iff]

theorem isActive_iff (t : TaintRecord) (now : ℤ) :
    t.isActive now = true ↔ t.resolvedAt = none ∧ Unexpired t now := by
  cases hexp : t.expiresAt with
  | none => simp [Taint.isActive, Unexpired, hexp]
  | some e => simp [Taint.isActive, Unexpired, hexp]

theorem checkCond_iff (t : TaintRecord) (path : String) (now : ℤ) :
    ((Sqlite.taintToRow codec t).resolvedAt.isNone &&
      (match (Sqlite.taintToRow codec t).expiresAt with
        | none => true
        | some e => decide (codec.formatTime now < e)) &&
      Sqlite.coversPath (Sqlite.taintToRow codec t) path) = true ↔
      (t.resolvedAt = none ∧ UnexpiredText codec t now) ∧
        LikesAncestor t path := by
  rw [Bool.and_eq_true, coversPath_iff, Bool.and_eq_true]
  refine and_congr_left fun _ => ?_
  cases hexp : t.expiresAt with
  | none => simp [Sqlite.taintToRow, UnexpiredText, hexp]
  | some e => simp [Sqlite.taintToRow, UnexpiredText, hexp]

theorem checkTaint_answers_iff (ts : List TaintRecord) (path : String)
    (now : ℤ) :
    Answers (Sqlite.checkTaint codec (ts.map (Sqlite.taintToRow codec)) path now)
        (MemoryTaints.checkTaint ts path now) ↔
      CheckAgrees codec ts path now := by
  unfold Sqlite.checkTaint MemoryTaints.checkTaint
  rw [selectTaints_answers_iff codec ts _ (.refl _)]
  refine forall_congr' fun t => forall_congr' fun _ => ?_
  rw [Bool.eq_iff_iff, checkCond_iff, Bool.and_eq_true, isActive_iff,
    appliesTo_iff]
  by_cases hres : t.resolvedAt = none
  · by_cases hclock : Unexpired t now
    · by_cases htext : UnexpiredText codec t now
      · simp [hres, hclock, htext]
      · simp [hres, hclock, htext]
    · by_cases htext : UnexpiredText codec t now
      · simp [hres, hclock, htext]
      · simp [hres, hclock, htext]
  · simp [hres]

/-- Every taint that the other filters let through and that is like the
trimmed prefix before a slash is below the prefix or at it, and none is at
the trimmed prefix when the prefix was trimmed. -/
def ListAgrees (ts : List TaintRecord) (pathPrefix : Option String)
    (kind : Option TaintKind) (includeResolved : Bool) : Prop :=
  ∀ t ∈ ts, (includeResolved = true ∨ t.resolvedAt = none) →
    (∀ k, kind = some k → k = t.kind) → ∀ p, pathPrefix = some p →
      (t.path = Sqlite.trimSlashes p → Sqlite.trimSlashes p = p) ∧
      ((∃ x y, t.path.toList = x ++ '/' :: y ∧
          like (Sqlite.trimSlashes p).toList x = true) →
        t.path = p ∨ startsWith t.path (Sqlite.trimSlashes p ++ "/") = true)

theorem trimSlashes_cases (p : String) :
    Sqlite.trimSlashes p = p ∨
      ∃ rest, p.toList = (Sqlite.trimSlashes p).toList ++ '/' :: rest := by
  have hsplit : p.toList = (p.toList.reverse.dropWhile (· == '/')).reverse ++
      (p.toList.reverse.takeWhile (· == '/')).reverse := by
    rw [← List.reverse_append, List.takeWhile_append_dropWhile,
      List.reverse_reverse]
  cases htail : (p.toList.reverse.takeWhile (· == '/')).reverse with
  | nil =>
      left
      rw [htail, List.append_nil] at hsplit
      rw [Sqlite.trimSlashes, ← hsplit, String.ofList_toList]
  | cons c rest =>
      right
      have hc : c ∈ p.toList.reverse.takeWhile (· == '/') := by
        rw [← List.mem_reverse, htail]
        exact List.mem_cons_self
      have hslash : c = '/' := by
        simpa using List.mem_takeWhile_imp hc
      refine ⟨rest, ?_⟩
      rw [htail, hslash] at hsplit
      rw [Sqlite.trimSlashes, String.toList_ofList]
      exact hsplit

theorem listsPath_eq_iff (p path : String) :
    Sqlite.listsPath p path = MemoryTaints.listsPath p path ↔
      (path = Sqlite.trimSlashes p → Sqlite.trimSlashes p = p) ∧
      ((∃ x y, path.toList = x ++ '/' :: y ∧
          like (Sqlite.trimSlashes p).toList x = true) →
        path = p ∨ startsWith path (Sqlite.trimSlashes p ++ "/") = true) := by
  rw [Bool.eq_iff_iff]
  simp only [Sqlite.listsPath, MemoryTaints.listsPath, Bool.or_eq_true,
    beq_iff_eq, like_append_slash_percent]
  -- Whatever is at or below the prefix is like it.
  have hbelow : startsWith path (Sqlite.trimSlashes p ++ "/") = true →
      ∃ x y, path.toList = x ++ '/' :: y ∧
        like (Sqlite.trimSlashes p).toList x = true := by
    intro h
    obtain ⟨y, hy⟩ := (startsWith_iff _ _).mp h
    refine ⟨_, y, ?_, like_self _⟩
    rw [← hy, String.toList_append, List.append_assoc]
    rfl
  have hnotbelow : ¬ startsWith (Sqlite.trimSlashes p)
      (Sqlite.trimSlashes p ++ "/") = true := by
    intro h
    have hlen := ((startsWith_iff _ _).mp h).length_le
    simp [String.toList_append] at hlen
  constructor
  · intro h
    refine ⟨?_, fun hlike => h.mp (Or.inr hlike)⟩
    rintro rfl
    rcases h.mp (Or.inl rfl) with hp | hp
    · exact hp
    · exact absurd hp hnotbelow
  · rintro ⟨hat, hlike⟩
    constructor
    · rintro (rfl | h)
      · exact Or.inl (hat rfl)
      · exact hlike h
    · rintro (rfl | h)
      · rcases trimSlashes_cases path with hsame | ⟨rest, hrest⟩
        · exact Or.inl hsame.symm
        · exact Or.inr ⟨_, rest, hrest, like_self _⟩
      · exact Or.inr (hbelow h)

/-- The filters of a listing other than the path. -/
def listKeeps (kind : Option TaintKind) (includeResolved : Bool)
    (t : TaintRecord) : Bool :=
  (includeResolved || t.resolvedAt.isNone) &&
    match kind with
    | none => true
    | some k => decide (k = t.kind)

theorem listKeeps_iff (kind : Option TaintKind) (includeResolved : Bool)
    (t : TaintRecord) :
    listKeeps kind includeResolved t = true ↔
      (includeResolved = true ∨ t.resolvedAt = none) ∧
        ∀ k, kind = some k → k = t.kind := by
  cases kind with
  | none => simp [listKeeps]
  | some k => simp [listKeeps]

theorem memory_listTaints_perm (ts : List TaintRecord)
    (pathPrefix : Option String) (kind : Option TaintKind)
    (includeResolved : Bool) :
    (MemoryTaints.listTaints ts pathPrefix kind includeResolved).Perm
      (ts.filter fun t => listKeeps kind includeResolved t &&
        match pathPrefix with
        | none => true
        | some p => MemoryTaints.listsPath p t.path) := by
  refine (List.mergeSort_perm _ _).trans ?_
  rw [List.filter_filter, List.filter_filter]
  refine .of_eq (List.filter_congr fun t _ => ?_)
  simp only [listKeeps]
  ac_rfl

theorem listCond_eq (pathPrefix : Option String) (kind : Option TaintKind)
    (includeResolved : Bool) (t : TaintRecord) :
    ((includeResolved || (Sqlite.taintToRow codec t).resolvedAt.isNone) &&
      (match pathPrefix with
        | none => true
        | some p => Sqlite.listsPath p (Sqlite.taintToRow codec t).path) &&
      match kind with
      | none => true
      | some k => (Sqlite.taintToRow codec t).kind == Sqlite.kindToStr k) =
      (listKeeps kind includeResolved t &&
        match pathPrefix with
        | none => true
        | some p => Sqlite.listsPath p t.path) := by
  have hresolved : (Sqlite.taintToRow codec t).resolvedAt.isNone =
      t.resolvedAt.isNone := by
    cases h : t.resolvedAt with
    | none => simp [Sqlite.taintToRow, h]
    | some r => simp [Sqlite.taintToRow, h]
  have hkind : ∀ k, ((Sqlite.taintToRow codec t).kind == Sqlite.kindToStr k) =
      decide (k = t.kind) := by
    intro k
    rw [Bool.eq_iff_iff, beq_iff_eq, decide_eq_true_eq]
    exact (kindToStr_injective.eq_iff).trans eq_comm
  simp only [listKeeps, hresolved, hkind]
  change (_ && _ && _) = (_ && _ && _)
  ac_rfl

theorem listTaints_answers_iff (ts : List TaintRecord)
    (pathPrefix : Option String) (kind : Option TaintKind)
    (includeResolved : Bool) :
    Answers (Sqlite.listTaints codec (ts.map (Sqlite.taintToRow codec))
        pathPrefix kind includeResolved)
        (MemoryTaints.listTaints ts pathPrefix kind includeResolved) ↔
      ListAgrees ts pathPrefix kind includeResolved := by
  unfold Sqlite.listTaints
  rw [selectTaints_answers_iff codec ts _
    (memory_listTaints_perm ts pathPrefix kind includeResolved)]
  refine forall_congr' fun t => forall_congr' fun _ => ?_
  rw [listCond_eq]
  by_cases hkeep : listKeeps kind includeResolved t = true
  · obtain ⟨hres, hk⟩ := (listKeeps_iff kind includeResolved t).mp hkeep
    rw [hkeep, Bool.true_and, Bool.true_and]
    cases pathPrefix with
    | none => simp
    | some p =>
        rw [listsPath_eq_iff]
        constructor
        · rintro h - - _ ⟨⟩
          exact h
        · intro h
          exact h hres hk p rfl
  · have hnot : ¬ ((includeResolved = true ∨ t.resolvedAt = none) ∧
        ∀ k, kind = some k → k = t.kind) := by
      rwa [← listKeeps_iff]
    rw [Bool.eq_false_iff.mpr hkeep, Bool.false_and, Bool.false_and]
    refine ⟨fun _ hres hk => absurd ⟨hres, hk⟩ hnot, fun _ => rfl⟩

end Agreement

/-! ## A taint on the root -/

namespace RootTaint

def EPOCH : String := "1970-01-01T00:00:00+00:00"

/-- The epoch as it is written, and other times in unary. -/
def formatTime : ℤ → String
  | .ofNat 0 => EPOCH
  | .ofNat n => String.ofList ('+' :: List.replicate n '0')
  | .negSucc n => String.ofList ('-' :: List.replicate n '0')

def parseTime (s : String) : Except String ℤ :=
  if s = EPOCH then .ok 0
  else
    match s.toList with
    | '+' :: rest => .ok rest.length
    | '-' :: rest => .ok (.negSucc rest.length)
    | _ => .error "not a time"

theorem parseTime_formatTime (t : ℤ) : parseTime (formatTime t) = .ok t := by
  have hne : ∀ c rest, c ≠ '1' → String.ofList (c :: rest) ≠ EPOCH := by
    intro c rest hc heq
    have hhead := congrArg (fun s => s.toList.head?) heq
    simp only [String.toList_ofList, List.head?_cons] at hhead
    exact hc (Option.some.inj hhead)
  match t with
  | .ofNat 0 => rfl
  | .ofNat (n + 1) =>
      have hformat : formatTime (.ofNat (n + 1)) =
          String.ofList ('+' :: List.replicate (n + 1) '0') := rfl
      rw [hformat, parseTime, if_neg (hne _ _ (by decide))]
      simp
  | .negSucc n =>
      rw [formatTime, parseTime, if_neg (hne _ _ (by decide))]
      simp

/-- The agents of a taint: every character after a point, every agent before a
semicolon. -/
def agentsChars (m : List String) : List Char :=
  m.flatMap (fun s => s.toList.flatMap (fun c => ['.', c]) ++ [';'])

def metadataText (m : List String) : String :=
  String.ofList ('\x7b' :: (agentsChars m ++ ['\x7d']))

/-- Reads the agents, the characters of the current one in `acc`. -/
def parseAgents : List Char → List Char → Except String (List String)
  | _, ['\x7d'] => .ok []
  | acc, '.' :: c :: rest => parseAgents (acc ++ [c]) rest
  | acc, ';' :: rest => (parseAgents [] rest).map (String.ofList acc :: ·)
  | _, _ => .error "no metadata"

def parseMetadata (s : String) : Except String (List String) :=
  parseAgents [] s.toList.tail

theorem parseAgents_append (acc cs rest : List Char) :
    parseAgents acc (cs.flatMap (fun c => ['.', c]) ++ ';' :: rest) =
      (parseAgents [] rest).map (String.ofList (acc ++ cs) :: ·) := by
  induction cs generalizing acc with
  | nil => simp [parseAgents]
  | cons c cs ih =>
      simp only [List.flatMap_cons, List.cons_append, List.nil_append,
        parseAgents]
      rw [ih, List.append_assoc]
      rfl

theorem parseMetadata_metadataText (m : List String) :
    parseMetadata (metadataText m) = .ok m := by
  simp only [parseMetadata, metadataText, String.toList_ofList, List.tail_cons]
  induction m with
  | nil => rfl
  | cons s m ih =>
      have hcons : agentsChars (s :: m) ++ ['\x7d'] =
          s.toList.flatMap (fun c => ['.', c]) ++
            ';' :: (agentsChars m ++ ['\x7d']) := by
        simp [agentsChars]
      rw [hcons, parseAgents_append, ih]
      simp [Except.map]

def codec : TaintCodec where
  formatTime := formatTime
  parseTime := parseTime
  parse_format := parseTime_formatTime
  metadataText := metadataText
  parseMetadata := parseMetadata
  parse_metadata := parseMetadata_metadataText

/-- A taint on everything. -/
def taint : TaintRecord where
  id := "t"
  path := "/"
  name := "freeze"
  kind := .taint
  effect := .block
  reason := "release"
  agentId := "agent"
  commitId := ""
  expiresAt := none
  resolvedAt := none
  propagate := true
  authorizedAgents := []
  severity := .medium
  createdAt := 0
  resolvedBy := none
  resolvedReason := none
  resolvedProof := none

end RootTaint

end AgentStateGraph
