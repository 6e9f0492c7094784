import AgentStateGraph.Postgres.Records

/-!
# Content addresses

Objects and commits are addressed by the hash of their JSON text.  The text of
a float that is not finite is `null`: as the value of an atom it reads back as
nothing, and all such atoms have one text.
-/

namespace AgentStateGraph

namespace PostgresRows

/-- `serde_json`, as a lossless printer of the values that it builds.  The
order in which it writes the fields of a structure is its own. -/
structure JsonPrinter where
  print : Json → List UInt8
  parse : List UInt8 → Option Json
  parse_print : ∀ value, value.isCanonical = true →
    parse (print value) = some value

/-! ## Objects -/

/-- `Object::canonical_bytes`. -/
def canonicalBytes (printer : JsonPrinter) (o : Object ObjectId) : List UInt8 :=
  printer.print (object.toJson o)

def decodeObject (printer : JsonPrinter) (bytes : List UInt8) :
    Option (Object ObjectId) :=
  (printer.parse bytes).bind object.fromJson

/-! ## Commits -/

/-- How many tool calls a commit records. -/
def MAX_TOOL_CALLS : ℕ := 256

/-- A tool call, with arguments as `serde_json` builds them. -/
abbrev RecordedCall := { call : ToolCall // call.arguments.isCanonical = true }

/-- `Commit::compute_id`, for a hash of bytes. -/
def computeId (printer : JsonPrinter) (time : TimeText)
    (hash : List UInt8 → ObjectId) (c : Commit) : ObjectId :=
  hash (printer.print (hashInput time c))

def commitBytes (printer : JsonPrinter) (time : TimeText) (c : Commit) :
    List UInt8 :=
  printer.print ((commit time).toJson c)

def decodeCommit (printer : JsonPrinter) (time : TimeText)
    (bytes : List UInt8) : Option Commit :=
  (printer.parse bytes).bind (commit time).fromJson

/-- Builder for creating commits.  The confidence is one that was clamped, and
clamping leaves a NaN as it is. -/
structure CommitBuilder where
  stateRoot : ObjectId
  parents : List ObjectId
  agentId : String
  authority : Authority
  intent : Intent
  reasoning : Option String
  confidence : Option F64
  toolCalls : List RecordedCall

namespace CommitBuilder

/-- The commit before its id is known: the texts are cut to their caps. -/
def placeholder (b : CommitBuilder) (now : ℤ) : Commit where
  id := ⟨List.replicate 32 0, List.length_replicate⟩
  stateRoot := b.stateRoot
  parents := b.parents
  timestamp := now
  agentId := truncateChars b.agentId MAX_AGENT_ID_LEN
  authority := b.authority
  intent :=
    { b.intent with
      description := truncateChars b.intent.description MAX_DESCRIPTION_LEN }
  reasoning := b.reasoning.map (truncateChars · MAX_REASONING_LEN)
  confidence := b.confidence
  toolCalls := (b.toolCalls.take MAX_TOOL_CALLS).map Subtype.val

def build (printer : JsonPrinter) (time : TimeText)
    (hash : List UInt8 → ObjectId) (b : CommitBuilder) (now : ℤ) : Commit :=
  { b.placeholder now with
    id := computeId printer time hash (b.placeholder now) }

end CommitBuilder

/-! ## What is printed is canonical -/

section Canonical

variable {α β : Type}

/-- The entries of a structure are its fields, with values as `serde_json`
builds them. -/
structure Writes (fields : Fields α) (x : α) : Prop where
  keys : (fields.toEntries x).map Prod.fst = fields.names
  values : Json.entriesCanonical (fields.toEntries x) = true

theorem writes_nil (x : Unit) : Writes .nil x := ⟨rfl, rfl⟩

theorem writes_cons {name : String} {s : Serde α} {rest : Fields β}
    {h : name ∉ rest.names} {x : α × β}
    (hvalue : (s.toJson x.1).isCanonical = true) (hrest : Writes rest x.2) :
    Writes (.cons name s rest h) x where
  keys := congrArg (name :: ·) hrest.keys
  values := by
    have hentries : Json.entriesCanonical ((name, s.toJson x.1) ::
        rest.toEntries x.2) = true := by
      rw [Json.entriesCanonical, hvalue, hrest.values]
      rfl
    exact hentries

theorem Writes.isCanonical {fields : Fields α} {x : α} (h : Writes fields x)
    (hnames : fields.names.Pairwise (· < ·)) :
    (fields.serde.toJson x).isCanonical = true := by
  have hobject : (Json.object (fields.toEntries x)).isCanonical = true := by
    rw [Json.isCanonical, h.keys, h.values, Bool.and_true, decide_eq_true_eq]
    exact hnames
  exact hobject

theorem isCanonical_list {s : Serde α} {xs : List α}
    (h : ∀ x ∈ xs, (s.toJson x).isCanonical = true) :
    ((Serde.list s).toJson xs).isCanonical = true := by
  have hitems : Json.areCanonical (xs.map s.toJson) = true := by
    induction xs with
    | nil => rfl
    | cons x xs ih =>
        obtain ⟨hx, hxs⟩ := List.forall_mem_cons.mp h
        rw [List.map_cons, Json.areCanonical, hx, ih hxs]
        rfl
  exact hitems

theorem isCanonical_option {s : Serde α} {hnull : ∀ a, s.toJson a ≠ .null ∨
    ∀ num, ¬s.Kept num a} {x : Option α}
    (h : ∀ a ∈ x, (s.toJson a).isCanonical = true) :
    ((Serde.option s hnull).toJson x).isCanonical = true := by
  cases x with
  | none => rfl
  | some a => exact h a rfl

theorem isCanonical_f64 (x : F64) :
    (Serde.f64.toJson x).isCanonical = true := by
  by_cases hx : x.isFinite = true
  · simp [Serde.f64, hx, Json.isCanonical, Number.isCanonical]
  · simp [Serde.f64, hx, Json.isCanonical]

theorem isCanonical_i64 (i : Int64) :
    (Serde.i64.toJson i).isCanonical = true := by
  by_cases hi : i < 0
  · simp [Serde.i64, hi, Json.isCanonical, Number.isCanonical]
  · simp [Serde.i64, hi, Json.isCanonical, Number.isCanonical]

theorem isCanonical_strings (xs : List String) :
    ((Serde.list Serde.string).toJson xs).isCanonical = true :=
  isCanonical_list fun _ _ => rfl

theorem isCanonical_objectId (id : ObjectId) :
    (Serde.objectId.toJson id).isCanonical = true :=
  isCanonical_list (s := Serde.u8) fun _ _ => rfl

theorem isCanonical_objectIds (ids : List ObjectId) :
    ((Serde.list Serde.objectId).toJson ids).isCanonical = true :=
  isCanonical_list fun id _ => isCanonical_objectId id

theorem isCanonical_map (entries : BTreeMap String ObjectId) :
    (objectIds.toJson entries).isCanonical = true := by
  have hvalues : ∀ l : List (String × ObjectId), Json.entriesCanonical
      (l.map fun e => (e.1, Serde.objectId.toJson e.2)) = true := by
    intro l
    induction l with
    | nil => rfl
    | cons e l ih =>
        rw [List.map_cons, Json.entriesCanonical, isCanonical_objectId, ih]
        rfl
  have hkeys : ((entries.toList.map fun e =>
      (e.1, Serde.objectId.toJson e.2)).map Prod.fst).Pairwise (· < ·) := by
    rw [List.map_map]
    exact KeyedMap.pairwise_keys_lt entries
  have hobject : (Json.object (entries.toList.map fun e =>
      (e.1, Serde.objectId.toJson e.2))).isCanonical = true := by
    rw [Json.isCanonical, hvalues, Bool.and_true, decide_eq_true_eq]
    exact hkeys
  exact hobject

/-- The JSON of an object is one that `serde_json` builds. -/
theorem isCanonical_object (o : Object ObjectId) :
    (object.toJson o).isCanonical = true := by
  have htagged : ∀ (kind type : String) (value : Json),
      value.isCanonical = true → (tagged kind type value).isCanonical = true := by
    intro kind type value h
    have hkeys : ["kind", "type", "value"].Pairwise (· < ·) := by decide
    simp only [tagged, Json.isCanonical, Json.entriesCanonical, h, List.map_cons,
      List.map_nil, decide_eq_true hkeys, Bool.and_self]
  cases o with
  | atom a =>
      cases a with
      | null => decide
      | bool b => exact htagged _ _ _ rfl
      | int i => exact htagged _ _ _ (isCanonical_i64 i)
      | float x => exact htagged _ _ _ (isCanonical_f64 x)
      | string s => exact htagged _ _ _ rfl
      | bytes b => exact htagged _ _ _ (isCanonical_list fun _ _ => rfl)
      | uint u => exact htagged _ _ _ rfl
  | node n =>
      cases n with
      | map entries => exact htagged _ _ _ (isCanonical_map entries)
      | list items => exact htagged _ _ _ (isCanonical_objectIds items)
      | set items => exact htagged _ _ _ (isCanonical_objectIds items)

/-! ### The records of a commit -/

variable (time : TimeText)

theorem isCanonical_optionString (x : Option String) :
    (optionString.toJson x).isCanonical = true :=
  isCanonical_option fun _ _ => rfl

theorem isCanonical_optionDateTime (x : Option ℤ) :
    ((optionDateTime time).toJson x).isCanonical = true :=
  isCanonical_option fun _ _ => rfl

theorem isCanonical_authScope (scope : AuthScope) :
    (authScope.toJson scope).isCanonical = true := by
  cases scope <;> simp [authScope, Json.isCanonical, Json.entriesCanonical]

theorem isCanonical_intentCategory (category : IntentCategory) :
    (intentCategory.toJson category).isCanonical = true := by
  cases category <;>
    simp [intentCategory, Json.isCanonical, Json.entriesCanonical]

theorem isCanonical_delegationLink (l : DelegationLink) :
    ((delegationLink time).toJson l).isCanonical = true := by
  refine Writes.isCanonical ?_
    (by simp only [Fields.names_cons, Fields.names_nil]; decide)
  apply writes_cons (isCanonical_optionDateTime time _)
  apply writes_cons rfl
  apply writes_cons rfl
  apply writes_cons (isCanonical_authScope _)
  exact writes_cons rfl (writes_nil _)

theorem isCanonical_authority (a : Authority) :
    ((authority time).toJson a).isCanonical = true := by
  refine Writes.isCanonical ?_
    (by simp only [Fields.names_cons, Fields.names_nil]; decide)
  apply writes_cons
  · exact isCanonical_list fun l _ => isCanonical_delegationLink time l
  apply writes_cons (isCanonical_optionDateTime time _)
  apply writes_cons rfl
  apply writes_cons rfl
  exact writes_cons (isCanonical_authScope _) (writes_nil _)

theorem isCanonical_deviation (d : Deviation) :
    (deviation.toJson d).isCanonical = true := by
  refine Writes.isCanonical ?_
    (by simp only [Fields.names_cons, Fields.names_nil]; decide)
  apply writes_cons rfl
  apply writes_cons (isCanonical_optionString _)
  apply writes_cons rfl
  exact writes_cons rfl (writes_nil _)

theorem isCanonical_resolution (r : Resolution) :
    (resolution.toJson r).isCanonical = true := by
  refine Writes.isCanonical ?_
    (by simp only [Fields.names_cons, Fields.names_nil]; decide)
  apply writes_cons (isCanonical_strings _)
  apply writes_cons (isCanonical_strings _)
  apply writes_cons (isCanonical_f64 _)
  apply writes_cons
  · exact isCanonical_list fun d _ => isCanonical_deviation d
  apply writes_cons rfl
  exact writes_cons rfl (writes_nil _)

theorem isCanonical_notificationPolicy (n : NotificationPolicy) :
    (notificationPolicy.toJson n).isCanonical = true := by
  refine Writes.isCanonical ?_
    (by simp only [Fields.names_cons, Fields.names_nil]; decide)
  apply writes_cons (isCanonical_strings _)
  apply writes_cons rfl
  exact writes_cons rfl (writes_nil _)

theorem isCanonical_intentLifecycle (l : IntentLifecycle) :
    (intentLifecycle.toJson l).isCanonical = true := by
  refine Writes.isCanonical ?_
    (by simp only [Fields.names_cons, Fields.names_nil]; decide)
  apply writes_cons (isCanonical_strings _)
  apply writes_cons
  · exact isCanonical_option fun n _ => isCanonical_notificationPolicy n
  apply writes_cons
  · exact isCanonical_option fun r _ => isCanonical_resolution r
  exact writes_cons rfl (writes_nil _)

theorem isCanonical_intent (i : Intent) :
    (intent.toJson i).isCanonical = true := by
  refine Writes.isCanonical ?_
    (by simp only [Fields.names_cons, Fields.names_nil]; decide)
  apply writes_cons (isCanonical_intentCategory _)
  apply writes_cons rfl
  apply writes_cons rfl
  apply writes_cons (isCanonical_intentLifecycle _)
  apply writes_cons (isCanonical_optionString _)
  exact writes_cons (isCanonical_strings _) (writes_nil _)

theorem isCanonical_toolCall {call : ToolCall}
    (h : call.arguments.isCanonical = true) :
    ((toolCall time).toJson call).isCanonical = true := by
  refine Writes.isCanonical ?_
    (by simp only [Fields.names_cons, Fields.names_nil]; decide)
  apply writes_cons h
  apply writes_cons (isCanonical_optionString _)
  apply writes_cons rfl
  exact writes_cons rfl (writes_nil _)

variable {c : Commit}

theorem isCanonical_toolCalls
    (h : ∀ call ∈ c.toolCalls, call.arguments.isCanonical = true) :
    ((Serde.list (toolCall time)).toJson c.toolCalls).isCanonical = true :=
  isCanonical_list fun call hcall => isCanonical_toolCall time (h call hcall)

/-- The JSON of a commit is one that `serde_json` builds. -/
theorem isCanonical_commit
    (h : ∀ call ∈ c.toolCalls, call.arguments.isCanonical = true) :
    ((commit time).toJson c).isCanonical = true := by
  refine Writes.isCanonical ?_
    (by simp only [Fields.names_cons, Fields.names_nil]; decide)
  apply writes_cons rfl
  apply writes_cons (isCanonical_authority time _)
  apply writes_cons
  · exact isCanonical_option fun x _ => isCanonical_f64 x
  apply writes_cons (isCanonical_objectId _)
  apply writes_cons (isCanonical_intent _)
  apply writes_cons (isCanonical_objectIds _)
  apply writes_cons (isCanonical_optionString _)
  apply writes_cons (isCanonical_objectId _)
  apply writes_cons rfl
  exact writes_cons (isCanonical_toolCalls time h) (writes_nil _)

end Canonical

/-! ## What is read back -/

section Reading

variable {α β : Type}

/-- A printed value reads as something. -/
def Reads (s : Serde α) (x : α) : Prop := ∃ y, s.fromJson (s.toJson x) = some y

theorem fromEntries_toEntries {name : String} {s : Serde α} {rest : Fields β}
    {h : name ∉ rest.names} (x : α × β) :
    (Fields.cons name s rest h).fromEntries
        ((Fields.cons name s rest h).toEntries x) =
      (s.fromJson (s.toJson x.1)).bind fun a =>
        (rest.fromEntries (rest.toEntries x.2)).map fun b => (a, b) := by
  have hfield : Fields.readField name s
      ((name, s.toJson x.1) :: rest.toEntries x.2) =
      s.fromJson (s.toJson x.1) := by
    simp [Fields.readField]
  have hrest : rest.fromEntries ((name, s.toJson x.1) :: rest.toEntries x.2) =
      rest.fromEntries (rest.toEntries x.2) := rest.skip _ _ h
  simp only [Fields.cons, hfield, hrest]

theorem reads_cons {name : String} {s : Serde α} {rest : Fields β}
    {h : name ∉ rest.names} {x : α × β}
    (hreads : Reads (Fields.cons name s rest h).serde x) :
    Reads s x.1 ∧ Reads rest.serde x.2 := by
  obtain ⟨y, hy⟩ := hreads
  have hentries : (Fields.cons name s rest h).fromEntries
      ((Fields.cons name s rest h).toEntries x) = some y := hy
  rw [fromEntries_toEntries, Option.bind_eq_some_iff] at hentries
  obtain ⟨a, ha, hrest⟩ := hentries
  obtain ⟨b, hb, -⟩ := Option.map_eq_some_iff.mp hrest
  exact ⟨⟨a, ha⟩, b, hb⟩

theorem reads_iso {s : Serde α} {toFun : β → α} {ofFun : α → β}
    {left : ∀ b, ofFun (toFun b) = b} {right : ∀ a, toFun (ofFun a) = a} {b : β}
    (hreads : Reads (s.iso toFun ofFun left right) b) : Reads s (toFun b) := by
  obtain ⟨y, hy⟩ := hreads
  obtain ⟨a, ha, -⟩ := Option.map_eq_some_iff.mp hy
  exact ⟨a, ha⟩

theorem reads_option {s : Serde α} {hnull : ∀ a, s.toJson a ≠ .null ∨
    ∀ num, ¬s.Kept num a} {a : α} (hne : s.toJson a ≠ .null)
    (hreads : Reads (Serde.option s hnull) (some a)) : Reads s a := by
  obtain ⟨y, hy⟩ := hreads
  have hread : (s.fromJson (s.toJson a)).map some = some y := by
    rw [← hy]
    cases hj : s.toJson a with
    | null => exact absurd hj hne
    | _ => simp only [Serde.option, hj]
  obtain ⟨b, hb, -⟩ := Option.map_eq_some_iff.mp hread
  exact ⟨b, hb⟩

theorem reads_f64 {x : F64} (hreads : Reads Serde.f64 x) : x.isFinite = true := by
  obtain ⟨y, hy⟩ := hreads
  by_contra hx
  simp [Serde.f64, hx] at hy

theorem finite_of_reads {time : TimeText} {c : Commit}
    (hreads : Reads (commit time) c) {r : Resolution}
    (hr : c.intent.lifecycle.resolution = some r) :
    r.confidence.isFinite = true := by
  obtain ⟨-, hreads⟩ := reads_cons (reads_iso hreads)
  obtain ⟨-, hreads⟩ := reads_cons hreads
  obtain ⟨-, hreads⟩ := reads_cons hreads
  obtain ⟨-, hreads⟩ := reads_cons hreads
  obtain ⟨hintent, -⟩ := reads_cons hreads
  obtain ⟨-, hreads⟩ := reads_cons (reads_iso hintent)
  obtain ⟨-, hreads⟩ := reads_cons hreads
  obtain ⟨-, hreads⟩ := reads_cons hreads
  obtain ⟨hlifecycle, -⟩ := reads_cons hreads
  obtain ⟨-, hreads⟩ := reads_cons (reads_iso hlifecycle)
  obtain ⟨-, hreads⟩ := reads_cons hreads
  obtain ⟨hresolution, -⟩ := reads_cons hreads
  have hsome : Reads (Serde.option resolution fun _ => Or.inl Json.noConfusion)
      (some r) := by
    rw [← hr]
    exact hresolution
  have hread := reads_iso (reads_option Json.noConfusion hsome)
  obtain ⟨-, hread⟩ := reads_cons hread
  obtain ⟨-, hread⟩ := reads_cons hread
  exact reads_f64 (reads_cons hread).1

/-! ### A lossless text -/

mutual

theorem reread_some : ∀ value : Json, value.reread some = some value
  | .null | .bool _ | .string _ | .number _ => rfl
  | .array items => by simp [Json.reread, rereadItems_some items]
  | .object entries => by simp [Json.reread, rereadEntries_some entries]

theorem rereadItems_some : ∀ items : List Json,
    Json.rereadItems some items = some items
  | [] => rfl
  | item :: items => by
      simp [Json.rereadItems, reread_some item, rereadItems_some items]

theorem rereadEntries_some : ∀ entries : List (String × Json),
    Json.rereadEntries some entries = some entries
  | [] => rfl
  | (key, value) :: entries => by
      simp [Json.rereadEntries, reread_some value, rereadEntries_some entries]

end

/-- A value is read back from its own JSON exactly when it is kept by a text
that keeps every number. -/
theorem fromJson_toJson_iff (s : Serde α) (x : α) :
    s.fromJson (s.toJson x) = some x ↔ s.Kept some x := by
  have hnum : FixesIntegers some := ⟨fun _ => rfl, fun _ _ => rfl⟩
  rw [← s.read_iff some hnum x, reread_some, Option.bind_some]

theorem kept_f64 {x : F64} : Serde.f64.Kept some x ↔ x.isFinite = true := by
  simp [Serde.f64, Number.toF64]

end Reading

/-! ## Objects by their bytes -/

/-- The atoms whose value is printed as `null`. -/
def IsNonFinite (o : Object ObjectId) : Prop :=
  ∃ x : F64, o = .atom (.float x) ∧ x.isFinite = false

theorem kept_object {o : Object ObjectId} :
    ObjectKept some o ↔ ¬IsNonFinite o := by
  constructor
  · rintro hkept ⟨x, rfl, hx⟩
    have hfinite := kept_f64.mp hkept
    rw [hx] at hfinite
    contradiction
  · intro h
    unfold ObjectKept
    split
    next x =>
      apply kept_f64.mpr
      by_contra hx
      exact h ⟨x, rfl, by simpa using hx⟩
    next => trivial

section Bytes

variable (printer : JsonPrinter)

theorem decodeObject_canonicalBytes (o : Object ObjectId) :
    decodeObject printer (canonicalBytes printer o) =
      object.fromJson (object.toJson o) := by
  unfold decodeObject canonicalBytes
  rw [printer.parse_print _ (isCanonical_object o), Option.bind_some]

theorem decodeObject_eq_some_iff (o : Object ObjectId) :
    decodeObject printer (canonicalBytes printer o) = some o ↔
      ¬IsNonFinite o := by
  rw [decodeObject_canonicalBytes, fromJson_toJson_iff]
  exact kept_object

theorem decodeObject_eq_none {o : Object ObjectId} (h : IsNonFinite o) :
    decodeObject printer (canonicalBytes printer o) = none := by
  obtain ⟨x, rfl, hx⟩ := h
  have hnull : Serde.f64.toJson x = .null := by simp [Serde.f64, hx]
  have hjson : object.toJson (.atom (.float x)) = tagged "Atom" "Float" .null :=
    congrArg (tagged "Atom" "Float") hnull
  rw [decodeObject_canonicalBytes, hjson]
  rfl

theorem canonicalBytes_nonFinite {o o' : Object ObjectId} (h : IsNonFinite o)
    (h' : IsNonFinite o') : canonicalBytes printer o = canonicalBytes printer o' := by
  obtain ⟨x, rfl, hx⟩ := h
  obtain ⟨y, rfl, hy⟩ := h'
  simp [canonicalBytes, object, objectToJson, atomEntries, Serde.f64, hx, hy]

theorem eq_of_canonicalBytes_iff (o o' : Object ObjectId) :
    (canonicalBytes printer o = canonicalBytes printer o' → o = o') ↔
      ¬(IsNonFinite o ∧ IsNonFinite o' ∧ o ≠ o') := by
  constructor
  · rintro h ⟨ho, ho', hne⟩
    exact hne (h (canonicalBytes_nonFinite printer ho ho'))
  · intro h hbytes
    have hread := decodeObject_eq_some_iff printer o
    have hread' := decodeObject_eq_some_iff printer o'
    by_cases ho : IsNonFinite o
    · by_contra hne
      have ho' : ¬IsNonFinite o' := fun ho' => h ⟨ho, ho', hne⟩
      have hsome := hread'.mpr ho'
      rw [← hbytes, decodeObject_eq_none printer ho] at hsome
      contradiction
    · have hsome := hread.mpr ho
      by_cases ho' : IsNonFinite o'
      · rw [hbytes, decodeObject_eq_none printer ho'] at hsome
        contradiction
      · rw [hbytes, hread'.mpr ho'] at hsome
        exact (Option.some.inj hsome).symm

end Bytes

/-! ## Commits by their ids -/

section Ids

variable (printer : JsonPrinter) (time : TimeText)
  (hash : List UInt8 → ObjectId)

/-- A commit as it reads back: a confidence that is not finite is lost. -/
def settled (c : Commit) : Commit :=
  { c with confidence := c.confidence.filter F64.isFinite }

theorem toJson_confidence (x : Option F64) :
    (Serde.option Serde.f64 f64_null).toJson (x.filter F64.isFinite) =
      (Serde.option Serde.f64 f64_null).toJson x := by
  cases x with
  | none => rfl
  | some x =>
      by_cases hx : x.isFinite = true
      · simp [Option.filter, hx]
      · simp [Option.filter, hx, Serde.option, Serde.f64]

theorem toJson_settled (c : Commit) :
    (commit time).toJson (settled c) = (commit time).toJson c := by
  have h := toJson_confidence c.confidence
  simp only [commit, Serde.iso, Fields.serde, Fields.cons, settled, h]

/-- The confidence that is lost is none that the id depends on. -/
theorem computeId_settled (c : Commit) :
    computeId printer time hash (settled c) = computeId printer time hash c := by
  have h := toJson_confidence c.confidence
  simp only [computeId, hashInput, Fields.serde, Fields.cons, settled, h]

theorem kept_settled {c : Commit}
    (hfinite : ∀ r, c.intent.lifecycle.resolution = some r →
      r.confidence.isFinite = true) : (commit time).Kept some (settled c) := by
  rw [commit_kept_iff]
  refine ⟨?_, ?_, ?_⟩
  · intro x hx
    have hfilter : c.confidence.filter F64.isFinite = some x := hx
    exact kept_f64.mpr (Option.filter_eq_some_iff.mp hfilter).2
  · intro r hr
    exact kept_f64.mpr (hfinite r hr)
  · intro call _
    exact reread_some call.arguments

theorem build_id (b : CommitBuilder) (now : ℤ) :
    (b.build printer time hash now).id =
      computeId printer time hash (b.build printer time hash now) := rfl

theorem build_arguments (b : CommitBuilder) (now : ℤ) :
    ∀ call ∈ (b.build printer time hash now).toolCalls,
      call.arguments.isCanonical = true := by
  intro call hcall
  obtain ⟨recorded, -, rfl⟩ := List.mem_map.mp hcall
  exact recorded.2

theorem decodeCommit_build (b : CommitBuilder) (now : ℤ) :
    decodeCommit printer time
        (commitBytes printer time (b.build printer time hash now)) =
      (commit time).fromJson
        ((commit time).toJson (b.build printer time hash now)) := by
  unfold decodeCommit commitBytes
  rw [printer.parse_print _ (isCanonical_commit time
    (build_arguments printer time hash b now)), Option.bind_some]

theorem decodeCommit_build_iff (b : CommitBuilder) (now : ℤ) :
    (∃ c, decodeCommit printer time
        (commitBytes printer time (b.build printer time hash now)) = some c ∧
      computeId printer time hash c = (b.build printer time hash now).id) ↔
    ∀ r, b.intent.lifecycle.resolution = some r →
      r.confidence.isFinite = true := by
  rw [decodeCommit_build]
  constructor
  · rintro ⟨c, hc, -⟩ r hr
    exact finite_of_reads ⟨c, hc⟩ hr
  · intro h
    refine ⟨settled (b.build printer time hash now), ?_, ?_⟩
    · rw [← toJson_settled, fromJson_toJson_iff]
      exact kept_settled time h
    · rw [computeId_settled]
      exact (build_id printer time hash b now).symm

end Ids

/-! ## A printer -/

section Printer

def encodeNumber : Number → List ℕ
  | .posInt u => [0, u.toNat]
  | .negInt i => 1 :: encodeInt i.toInt
  | .float f => 2 :: encodeF64 f

theorem encodeNumber_injective : Function.Injective encodeNumber := by
  rintro (u | i | f) (v | j | g) h <;>
    simp only [encodeNumber, List.cons.injEq, and_true, true_and,
      zero_ne_one, one_ne_zero, OfNat.zero_ne_ofNat,
      OfNat.ofNat_ne_zero, OfNat.one_ne_ofNat, OfNat.ofNat_ne_one,
      false_and] at h
  · rw [UInt64.toNat_inj.mp h]
  · rw [Int64.toInt_inj.mp (encodeInt_injective h)]
  · rw [encodeF64_injective h]

mutual

def encodeJson : Json → List ℕ
  | .null => [0]
  | .bool b => [1, b.toNat]
  | .number n => 2 :: encodeNumber n
  | .string s => 3 :: encodeString s
  | .array items => 4 :: delimitAll (encodeItems items)
  | .object entries => 5 :: delimitAll (encodeEntries entries)

def encodeItems : List Json → List (List ℕ)
  | [] => []
  | item :: items => encodeJson item :: encodeItems items

def encodeEntries : List (String × Json) → List (List ℕ)
  | [] => []
  | (key, value) :: entries =>
      encodeString key :: encodeJson value :: encodeEntries entries

end

mutual

theorem encodeJson_injective : ∀ v w : Json, encodeJson v = encodeJson w → v = w
  | .null, w, h => by cases w <;> simp_all [encodeJson]
  | .bool b, w, h => by
      cases w <;> simp [encodeJson] at h
      case bool c => cases b <;> cases c <;> simp_all
  | .number n, w, h => by
      cases w <;> simp [encodeJson] at h
      case number m => rw [encodeNumber_injective h]
  | .string s, w, h => by
      cases w <;> simp [encodeJson] at h
      case string t => rw [encodeString_injective h]
  | .array items, w, h => by
      cases w <;> simp [encodeJson] at h
      case array items' =>
        rw [encodeItems_injective items items' (delimitAll_injective h)]
  | .object entries, w, h => by
      cases w <;> simp [encodeJson] at h
      case object entries' =>
        rw [encodeEntries_injective entries entries' (delimitAll_injective h)]

theorem encodeItems_injective : ∀ xs ys : List Json,
    encodeItems xs = encodeItems ys → xs = ys
  | [], ys, h => by cases ys <;> simp_all [encodeItems]
  | x :: xs, ys, h => by
      cases ys with
      | nil => simp [encodeItems] at h
      | cons y ys =>
          simp only [encodeItems, List.cons.injEq] at h
          rw [encodeJson_injective x y h.1, encodeItems_injective xs ys h.2]

theorem encodeEntries_injective : ∀ xs ys : List (String × Json),
    encodeEntries xs = encodeEntries ys → xs = ys
  | [], ys, h => by
      cases ys with
      | nil => rfl
      | cons y ys => simp [encodeEntries] at h
  | (key, x) :: xs, ys, h => by
      cases ys with
      | nil => simp [encodeEntries] at h
      | cons y ys =>
          obtain ⟨key', y⟩ := y
          simp only [encodeEntries, List.cons.injEq] at h
          rw [encodeString_injective h.1, encodeJson_injective x y h.2.1,
            encodeEntries_injective xs ys h.2.2]

end

instance countable_json : Countable Json :=
  Function.Injective.countable (f := encodeJson) fun v w h =>
    encodeJson_injective v w h

theorem nonempty_jsonPrinter : Nonempty JsonPrinter := by
  classical
  obtain ⟨code, hcode⟩ := Countable.exists_injective_nat Json
  refine ⟨⟨fun v => List.replicate (code v) 0, fun bytes =>
    if h : ∃ v, code v = bytes.length then some h.choose else none, ?_⟩⟩
  intro v _
  have hlen : (List.replicate (code v) (0 : UInt8)).length = code v :=
    List.length_replicate
  have hex : ∃ w, code w = (List.replicate (code v) (0 : UInt8)).length :=
    ⟨v, hlen.symm⟩
  rw [dif_pos hex]
  exact congrArg some (hcode (hex.choose_spec.trans hlen))

end Printer

/-! ## The addresses -/

/-- Content addressing is faithful exactly apart from floats that are not
finite: as atoms, and as the confidence of a resolution. -/
theorem content_addressing_faithful_iff (printer : JsonPrinter)
    (time : TimeText) (hash : List UInt8 → ObjectId) :
    (∀ o, decodeObject printer (canonicalBytes printer o) = some o ↔
      ¬IsNonFinite o) ∧
    (∀ o o', (canonicalBytes printer o = canonicalBytes printer o' → o = o') ↔
      ¬(IsNonFinite o ∧ IsNonFinite o' ∧ o ≠ o')) ∧
    ∀ (b : CommitBuilder) (now : ℤ),
      (∃ c, decodeCommit printer time
          (commitBytes printer time (b.build printer time hash now)) = some c ∧
        computeId printer time hash c = (b.build printer time hash now).id) ↔
      ∀ r, b.intent.lifecycle.resolution = some r →
        r.confidence.isFinite = true :=
  ⟨decodeObject_eq_some_iff printer, eq_of_canonicalBytes_iff printer,
    decodeCommit_build_iff printer time hash⟩

/-- The two infinities have the same bytes, from which neither is read. -/
theorem infinities_collapse : Nonempty JsonPrinter ∧
    ∀ printer : JsonPrinter,
      canonicalBytes printer (.atom (.float ⟨0x7FF0000000000000⟩)) =
        canonicalBytes printer (.atom (.float ⟨0xFFF0000000000000⟩)) ∧
      (Object.atom (.float ⟨0x7FF0000000000000⟩) : Object ObjectId) ≠
        .atom (.float ⟨0xFFF0000000000000⟩) ∧
      decodeObject printer (canonicalBytes printer
        (.atom (.float ⟨0x7FF0000000000000⟩))) = none := by
  refine ⟨nonempty_jsonPrinter, fun printer => ?_⟩
  have hplus : IsNonFinite (.atom (.float ⟨0x7FF0000000000000⟩)) :=
    ⟨_, rfl, by decide⟩
  have hminus : IsNonFinite (.atom (.float ⟨0xFFF0000000000000⟩)) :=
    ⟨_, rfl, by decide⟩
  exact ⟨canonicalBytes_nonFinite printer hplus hminus, by decide,
    decodeObject_eq_none printer hplus⟩

end PostgresRows

end AgentStateGraph
