import AgentStateGraph.Policy.CanonicalBytes
import AgentStateGraph.Postgres.Addressing

/-!
# The derived serializers of a policy

Every record as an object with its fields in the order of their names, every
union with its tag among its fields.  A field that is `None` is left out, and
one that is missing reads as its default.
-/

namespace AgentStateGraph

namespace Policies

variable {α : Type}

/-- `Serialize` and `Deserialize` of a type none of whose values is `null`. -/
structure Form (α : Type) where
  toJson : α → Json
  fromJson : Json → Option α
  /-- A value as it reads back. -/
  kept : α → α
  canonical : ∀ a, (toJson a).isCanonical = true
  ne_null : ∀ a, toJson a ≠ .null
  fromJson_toJson : ∀ a, fromJson (toJson a) = some (kept a)

/-! ## Fields -/

/-- The fields of a record, with no value where one is left out. -/
abbrev Slots := List (String × Option Json)

def entriesOf (slots : Slots) : List (String × Json) :=
  slots.filterMap fun s => s.2.map fun value => (s.1, value)

def record (slots : Slots) : Json := .object (entriesOf slots)

theorem fst_mem_of_mem_entriesOf {slots : Slots} {e : String × Json}
    (h : e ∈ entriesOf slots) : (e.1, some e.2) ∈ slots := by
  obtain ⟨s, hs, heq⟩ := List.mem_filterMap.mp h
  obtain ⟨value, hvalue, rfl⟩ := Option.map_eq_some_iff.mp heq
  rw [← hvalue]
  exact hs

theorem entriesOf_sublist (slots : Slots) :
    List.Sublist ((entriesOf slots).map Prod.fst) (slots.map Prod.fst) := by
  induction slots with
  | nil => exact List.Sublist.refl _
  | cons s slots ih =>
      obtain ⟨name, value⟩ := s
      cases value with
      | none => exact ih.cons name
      | some value => exact ih.cons_cons name

theorem nodup_of_sorted {names : List String} (h : names.Pairwise (· < ·)) :
    names.Nodup := h.imp fun hlt => ne_of_lt hlt

theorem lookup_entriesOf {slots : Slots} (hnames : (slots.map Prod.fst).Nodup)
    (name : String) :
    (entriesOf slots).lookup name = (slots.lookup name).join := by
  induction slots with
  | nil => rfl
  | cons s slots ih =>
      obtain ⟨key, value⟩ := s
      rw [List.map_cons, List.nodup_cons] at hnames
      rw [List.lookup_cons]
      have htail := ih hnames.2
      by_cases hkey : name = key
      · subst hkey
        have hnone : (entriesOf slots).lookup name = none := by
          rw [List.lookup_eq_none_iff]
          intro e he
          have hmem := (entriesOf_sublist slots).subset
            (List.mem_map_of_mem he)
          have hne : name ≠ e.1 := fun heq => hnames.1 (heq ▸ hmem)
          simpa using hne
        cases value with
        | none => simpa [entriesOf] using hnone
        | some value => simp [entriesOf]
      · have hbeq : (name == key) = false := by simpa using hkey
        rw [hbeq]
        cases value with
        | none => simpa [entriesOf] using htail
        | some value => simpa [entriesOf, List.lookup_cons, hbeq] using htail

/-- What is written in a slot is as `serde_json` builds it. -/
def Written (value : Option Json) : Prop := ∀ v ∈ value, v.isCanonical = true

theorem isCanonical_record {slots : Slots}
    (hnames : (slots.map Prod.fst).Pairwise (· < ·))
    (hvalues : ∀ s ∈ slots, Written s.2) :
    (record slots).isCanonical = true := by
  refine Json.isCanonical_object.mpr ⟨?_, ?_⟩
  · exact hnames.sublist (entriesOf_sublist slots)
  · exact fun e he => hvalues _ (fst_mem_of_mem_entriesOf he) _ rfl

theorem isCanonical_one {key : String} {value : Json}
    (hvalue : value.isCanonical = true) :
    (Json.object [(key, value)]).isCanonical = true := by
  refine Json.isCanonical_object.mpr ⟨List.pairwise_singleton _ _, ?_⟩
  exact List.forall_mem_singleton.mpr hvalue

theorem isCanonical_two {key key' : String} {value value' : Json}
    (hkeys : key < key') (hvalue : value.isCanonical = true)
    (hvalue' : value'.isCanonical = true) :
    (Json.object [(key, value), (key', value')]).isCanonical = true := by
  refine Json.isCanonical_object.mpr ⟨?_, ?_⟩
  · exact List.pairwise_pair.mpr hkeys
  · exact List.forall_mem_cons.mpr
      ⟨hvalue, List.forall_mem_singleton.mpr hvalue'⟩

theorem isCanonical_three {k₁ k₂ k₃ : String} {v₁ v₂ v₃ : Json}
    (hkeys : k₁ < k₂ ∧ k₂ < k₃) (h₁ : v₁.isCanonical = true)
    (h₂ : v₂.isCanonical = true) (h₃ : v₃.isCanonical = true) :
    (Json.object [(k₁, v₁), (k₂, v₂), (k₃, v₃)]).isCanonical = true := by
  refine Json.isCanonical_object.mpr ⟨?_, by simp [h₁, h₂, h₃]⟩
  refine .cons ?_ (List.pairwise_pair.mpr hkeys.2)
  intro k hk
  rcases List.mem_cons.mp hk with rfl | hk
  · exact hkeys.1
  · rw [List.mem_singleton.mp hk]
    exact lt_trans hkeys.1 hkeys.2

namespace Form

variable (f : Form α)

@[simp] theorem written (a : α) : Written (some (f.toJson a)) := by
  rintro v hv
  rw [← Option.mem_some_iff.mp hv]
  exact f.canonical a

@[simp] theorem written_map (x : Option α) : Written (x.map f.toJson) := by
  rintro v hv
  obtain ⟨a, -, rfl⟩ := Option.mem_map.mp hv
  exact f.canonical a

/-- A field that must be there. -/
def field (name : String) (entries : List (String × Json)) : Option α :=
  (entries.lookup name).bind f.fromJson

/-- `#[serde(default)]`. -/
def fieldOr (name : String) (default : α) (entries : List (String × Json)) :
    Option α :=
  match entries.lookup name with
  | none => some default
  | some value => f.fromJson value

/-- An `Option`, of which `null` is `None`. -/
def optional (name : String) (entries : List (String × Json)) :
    Option (Option α) :=
  match entries.lookup name with
  | none | some .null => some none
  | some value => (f.fromJson value).map some

variable {f} {slots : Slots} (hnames : (slots.map Prod.fst).Nodup)
  {name : String}

include hnames

theorem field_entriesOf {a : α}
    (h : slots.lookup name = some (some (f.toJson a))) :
    f.field name (entriesOf slots) = some (f.kept a) := by
  rw [field, lookup_entriesOf hnames, h]
  exact f.fromJson_toJson a

theorem fieldOr_entriesOf {a default : α}
    (h : slots.lookup name = some (some (f.toJson a))) :
    f.fieldOr name default (entriesOf slots) = some (f.kept a) := by
  rw [fieldOr, lookup_entriesOf hnames, h]
  exact f.fromJson_toJson a

theorem optional_entriesOf {x : Option α}
    (h : slots.lookup name = some (x.map f.toJson)) :
    f.optional name (entriesOf slots) = some (x.map f.kept) := by
  rw [optional, lookup_entriesOf hnames, h]
  cases x with
  | none => rfl
  | some a =>
      have hne := f.ne_null a
      have hread := f.fromJson_toJson a
      simp only [Option.map_some, Option.join_some, hread]

end Form

theorem reads {β : Type} {x : Option α} {a : α} {f : α → Option β}
    {y : Option β} (hx : x = some a) (hf : f a = y) : (x >>= f) = y := by
  rw [hx]
  exact hf

/-! ## Simple values -/

namespace Form

def text : Form String where
  toJson := .string
  fromJson
    | .string s => some s
    | _ => none
  kept := id
  canonical _ := rfl
  ne_null _ := Json.noConfusion
  fromJson_toJson _ := rfl

/-- A value that is written as a text. -/
def ofText (toText : α → String) (ofText : String → Option α)
    (h : ∀ a, ofText (toText a) = some a) : Form α where
  toJson a := .string (toText a)
  fromJson
    | .string s => ofText s
    | _ => none
  kept := id
  canonical _ := rfl
  ne_null _ := Json.noConfusion
  fromJson_toJson := h

/-- A natural number as a `u64`. -/
def number : Form ℕ where
  toJson n := .number (.posInt (UInt64.ofNat n))
  fromJson
    | .number (.posInt u) => some u.toNat
    | _ => none
  kept n := n % 2 ^ 64
  canonical _ := rfl
  ne_null _ := Json.noConfusion
  fromJson_toJson n := by simp

/-- An `i64`. -/
def integer : Form Int64 where
  toJson := PostgresRows.Serde.i64.toJson
  fromJson := PostgresRows.Serde.i64.fromJson
  kept := id
  canonical := PostgresRows.isCanonical_i64
  ne_null _ := Json.noConfusion
  fromJson_toJson i :=
    (PostgresRows.fromJson_toJson_iff PostgresRows.Serde.i64 i).mpr trivial

/-- `duration_opt`: a number of milliseconds. -/
def duration : Form ℕ where
  toJson t := .number (.posInt (UInt64.ofNat (t / 10 ^ 6)))
  fromJson
    | .number (.posInt u) => some (u.toNat * 10 ^ 6)
    | _ => none
  kept := storedTimeout
  canonical _ := rfl
  ne_null _ := Json.noConfusion
  fromJson_toJson t := by simp [storedTimeout]

def list (f : Form α) : Form (List α) where
  toJson xs := .array (xs.map f.toJson)
  fromJson
    | .array items => items.mapM f.fromJson
    | _ => none
  kept xs := xs.map f.kept
  canonical xs := by
    refine Json.areCanonical_iff.mpr ?_
    intro item hitem
    obtain ⟨a, -, rfl⟩ := List.mem_map.mp hitem
    exact f.canonical a
  ne_null _ := Json.noConfusion
  fromJson_toJson xs := by
    induction xs with
    | nil => rfl
    | cons x xs ih =>
        simp only [List.map_cons, List.mapM_cons, f.fromJson_toJson] at ih ⊢
        rw [ih]
        rfl

def texts : Form (List String) := text.list

variable (time : PostgresRows.TimeText)

/-- `DateTime<Utc>`. -/
def dateTime : Form ℤ := ofText time.format time.parse time.parse_format

def severity : Form Severity :=
  ofText
    (fun
      | .low => "low"
      | .medium => "medium"
      | .high => "high"
      | .critical => "critical")
    (fun
      | "low" => some .low
      | "medium" => some .medium
      | "high" => some .high
      | "critical" => some .critical
      | _ => none)
    fun severity => by cases severity <;> rfl

/-! ## Unions -/

def fallbackAction : Form FallbackAction where
  toJson
    | .block => .object [("kind", .string "block")]
    | .pickAlternative action =>
        .object [("action", .string action),
          ("kind", .string "pick_alternative")]
    | .lowestRiskAlternative =>
        .object [("kind", .string "lowest_risk_alternative")]
    | .keepCurrentState => .object [("kind", .string "keep_current_state")]
    | .delegateTo policyPath =>
        .object [("kind", .string "delegate_to"),
          ("policy_path", .string policyPath)]
  fromJson
    | .object entries =>
        match text.field "kind" entries with
        | some "block" => some .block
        | some "pick_alternative" =>
            (text.field "action" entries).map .pickAlternative
        | some "lowest_risk_alternative" => some .lowestRiskAlternative
        | some "keep_current_state" => some .keepCurrentState
        | some "delegate_to" =>
            (text.field "policy_path" entries).map .delegateTo
        | _ => none
    | _ => none
  kept := id
  canonical action := by
    cases action with
    | block | lowestRiskAlternative | keepCurrentState =>
        exact isCanonical_one rfl
    | pickAlternative action => exact isCanonical_two (by decide) rfl rfl
    | delegateTo policyPath => exact isCanonical_two (by decide) rfl rfl
  ne_null action := by cases action <;> exact Json.noConfusion
  fromJson_toJson action := by cases action <;> rfl

def evaluatorSource : Form EvaluatorSource where
  toJson
    | .inline body =>
        .object [("body", .string body), ("kind", .string "inline")]
    | .filePath path =>
        .object [("kind", .string "file_path"), ("path", .string path)]
    | .commitRef path =>
        .object [("kind", .string "commit_ref"), ("path", .string path)]
  fromJson
    | .object entries =>
        match text.field "kind" entries with
        | some "inline" => (text.field "body" entries).map .inline
        | some "file_path" => (text.field "path" entries).map .filePath
        | some "commit_ref" => (text.field "path" entries).map .commitRef
        | _ => none
    | _ => none
  kept := id
  canonical source := by
    cases source <;> exact isCanonical_two (by decide) rfl rfl
  ne_null source := by cases source <;> exact Json.noConfusion
  fromJson_toJson source := by cases source <;> rfl

def externalEvaluatorRef : Form ExternalEvaluatorRef where
  toJson
    | .rego source =>
        .object [("kind", .string "rego"),
          ("source", evaluatorSource.toJson source)]
    | .cedar source =>
        .object [("kind", .string "cedar"),
          ("source", evaluatorSource.toJson source)]
    | .wasm source =>
        .object [("kind", .string "wasm"),
          ("source", evaluatorSource.toJson source)]
  fromJson
    | .object entries =>
        match text.field "kind" entries with
        | some "rego" => (evaluatorSource.field "source" entries).map .rego
        | some "cedar" => (evaluatorSource.field "source" entries).map .cedar
        | some "wasm" => (evaluatorSource.field "source" entries).map .wasm
        | _ => none
    | _ => none
  kept := id
  canonical evaluator := by
    cases evaluator <;>
      exact isCanonical_two (by decide) rfl (evaluatorSource.canonical _)
  ne_null evaluator := by cases evaluator <;> exact Json.noConfusion
  fromJson_toJson evaluator := by
    rcases evaluator with source | source | source <;>
      cases source <;> rfl

def policySignature : Form PolicySignature where
  toJson
    | .ed25519 signerKeyId signatureHex =>
        .object [("algorithm", .string "ed25519"),
          ("signature_hex", .string signatureHex),
          ("signer_key_id", .string signerKeyId)]
  fromJson
    | .object entries =>
        match text.field "algorithm" entries with
        | some "ed25519" => do
            let signerKeyId ← text.field "signer_key_id" entries
            let signatureHex ← text.field "signature_hex" entries
            some (.ed25519 signerKeyId signatureHex)
        | _ => none
    | _ => none
  kept := id
  canonical signature := by
    cases signature
    exact isCanonical_three (by decide) rfl rfl rfl
  ne_null signature := by cases signature; exact Json.noConfusion
  fromJson_toJson signature := by cases signature; rfl

end Form

/-! ## Selectors -/

mutual

def selectorToJson : Selector → Json
  | .always => .object [("kind", .string "always")]
  | .never => .object [("kind", .string "never")]
  | .all children =>
      .object [("children", .array (selectorsToJson children)),
        ("kind", .string "all")]
  | .any children =>
      .object [("children", .array (selectorsToJson children)),
        ("kind", .string "any")]
  | .not child =>
      .object [("child", selectorToJson child), ("kind", .string "not")]
  | .eq key value =>
      .object [("key", .string key), ("kind", .string "eq"),
        ("value", .string value)]
  | .ne key value =>
      .object [("key", .string key), ("kind", .string "ne"),
        ("value", .string value)]
  | .matches key pattern =>
      .object [("key", .string key), ("kind", .string "matches"),
        ("pattern", .string pattern)]
  | .exists key => .object [("key", .string key), ("kind", .string "exists")]
  | .gt key value =>
      .object [("key", .string key), ("kind", .string "gt"),
        ("value", Form.integer.toJson value)]
  | .gte key value =>
      .object [("key", .string key), ("kind", .string "gte"),
        ("value", Form.integer.toJson value)]
  | .lt key value =>
      .object [("key", .string key), ("kind", .string "lt"),
        ("value", Form.integer.toJson value)]
  | .lte key value =>
      .object [("key", .string key), ("kind", .string "lte"),
        ("value", Form.integer.toJson value)]

def selectorsToJson : List Selector → List Json
  | [] => []
  | selector :: selectors =>
      selectorToJson selector :: selectorsToJson selectors

end

open Form in
/-- A selector from its tag and its fields; those that hold selectors were read
before. -/
def selectorOfFields (entries : List (String × Json))
    (child : Option Selector) (children : Option (List Selector)) :
    Option Selector :=
  let key := text.field "key" entries
  let value := integer.field "value" entries
  match text.field "kind" entries with
  | some "always" => some .always
  | some "never" => some .never
  | some "all" => children.map .all
  | some "any" => children.map .any
  | some "not" => child.map .not
  | some "eq" => do some (.eq (← key) (← text.field "value" entries))
  | some "ne" => do some (.ne (← key) (← text.field "value" entries))
  | some "matches" => do
      some (.matches (← key) (← text.field "pattern" entries))
  | some "exists" => key.map .exists
  | some "gt" => do some (.gt (← key) (← value))
  | some "gte" => do some (.gte (← key) (← value))
  | some "lt" => do some (.lt (← key) (← value))
  | some "lte" => do some (.lte (← key) (← value))
  | _ => none

mutual

def selectorFromJson : Json → Option Selector
  | .object entries =>
      selectorOfFields entries (childFromEntries entries)
        (childrenFromEntries entries)
  | _ => none

/-- The selector under `child`. -/
def childFromEntries : List (String × Json) → Option Selector
  | [] => none
  | (key, value) :: entries =>
      if key = "child" then selectorFromJson value
      else childFromEntries entries

/-- The selectors under `children`. -/
def childrenFromEntries : List (String × Json) → Option (List Selector)
  | [] => none
  | (key, value) :: entries =>
      if key = "children" then itemsFromJson value
      else childrenFromEntries entries

def itemsFromJson : Json → Option (List Selector)
  | .array items => selectorsFromJson items
  | _ => none

def selectorsFromJson : List Json → Option (List Selector)
  | [] => some []
  | item :: items => do
      let selector ← selectorFromJson item
      let selectors ← selectorsFromJson items
      some (selector :: selectors)

end

mutual

theorem isCanonical_selector :
    ∀ s : Selector, (selectorToJson s).isCanonical = true
  | .always | .never => isCanonical_one rfl
  | .all children | .any children =>
      isCanonical_two (by decide)
        (Json.areCanonical_iff.mpr (isCanonical_selectors children)) rfl
  | .not child => isCanonical_two (by decide) (isCanonical_selector child) rfl
  | .eq _ _ | .ne _ _ | .matches _ _ =>
      isCanonical_three (by decide) rfl rfl rfl
  | .exists _ => isCanonical_two (by decide) rfl rfl
  | .gt _ value | .gte _ value | .lt _ value | .lte _ value =>
      isCanonical_three (by decide) rfl rfl (Form.integer.canonical value)

theorem isCanonical_selectors : ∀ ss : List Selector,
    ∀ item ∈ selectorsToJson ss, item.isCanonical = true
  | [] => fun item hitem => by simp [selectorsToJson] at hitem
  | s :: ss => by
      rw [selectorsToJson, List.forall_mem_cons]
      exact ⟨isCanonical_selector s, isCanonical_selectors ss⟩

end

mutual

theorem selectorFromJson_toJson :
    ∀ s : Selector, selectorFromJson (selectorToJson s) = some s
  | .always | .never => rfl
  | .all children => by
      calc selectorFromJson (selectorToJson (.all children)) =
          (selectorsFromJson (selectorsToJson children)).map .all := rfl
        _ = some (.all children) := by
          rw [selectorsFromJson_toJson children, Option.map_some]
  | .any children => by
      calc selectorFromJson (selectorToJson (.any children)) =
          (selectorsFromJson (selectorsToJson children)).map .any := rfl
        _ = some (.any children) := by
          rw [selectorsFromJson_toJson children, Option.map_some]
  | .not child => by
      calc selectorFromJson (selectorToJson (.not child)) =
          (selectorFromJson (selectorToJson child)).map .not := rfl
        _ = some (.not child) := by
          rw [selectorFromJson_toJson child, Option.map_some]
  | .eq _ _ | .ne _ _ | .matches _ _ | .exists _ => rfl
  | .gt key value =>
      congrArg (·.bind fun v => some (Selector.gt key v))
        (Form.integer.fromJson_toJson value)
  | .gte key value =>
      congrArg (·.bind fun v => some (Selector.gte key v))
        (Form.integer.fromJson_toJson value)
  | .lt key value =>
      congrArg (·.bind fun v => some (Selector.lt key v))
        (Form.integer.fromJson_toJson value)
  | .lte key value =>
      congrArg (·.bind fun v => some (Selector.lte key v))
        (Form.integer.fromJson_toJson value)

theorem selectorsFromJson_toJson : ∀ ss : List Selector,
    selectorsFromJson (selectorsToJson ss) = some ss
  | [] => rfl
  | s :: ss => by
      rw [selectorsToJson, selectorsFromJson, selectorFromJson_toJson s,
        selectorsFromJson_toJson ss]
      rfl

end

namespace Form

def selector : Form Selector where
  toJson := selectorToJson
  fromJson := selectorFromJson
  kept := id
  canonical := isCanonical_selector
  ne_null s := by cases s <;> rw [selectorToJson] <;> exact Json.noConfusion
  fromJson_toJson := selectorFromJson_toJson

/-! ## Records -/

def authorizedActionSlots (a : AuthorizedAction) : Slots :=
  [("action", some (text.toJson a.action)),
    ("condition", a.condition.map text.toJson),
    ("preconditions", some (texts.toJson a.preconditions))]

theorem authorizedActionSlots_sorted (a : AuthorizedAction) :
    ((authorizedActionSlots a).map Prod.fst).Pairwise (· < ·) := by
  have hnames : ["action", "condition", "preconditions"].Pairwise
    (· < ·) := by decide
  exact hnames

def authorizedAction : Form AuthorizedAction where
  toJson a := record (authorizedActionSlots a)
  fromJson
    | .object entries => do
        let action ← text.field "action" entries
        let condition ← text.optional "condition" entries
        let preconditions ← texts.fieldOr "preconditions" [] entries
        some ⟨action, condition, preconditions⟩
    | _ => none
  kept := id
  canonical a := by
    refine isCanonical_record (authorizedActionSlots_sorted a) ?_
    simp [authorizedActionSlots, -Prod.forall]
  ne_null _ := Json.noConfusion
  fromJson_toJson a := by
    have hnames := nodup_of_sorted (authorizedActionSlots_sorted a)
    refine reads (field_entriesOf hnames rfl) ?_
    refine reads (optional_entriesOf hnames rfl) ?_
    refine reads (fieldOr_entriesOf hnames rfl) ?_
    simp [text, texts, list]

def approvalRuleSlots (r : ApprovalRule) : Slots :=
  [("action", some (text.toJson r.action)),
    ("approvers", some (texts.toJson r.approvers)),
    ("fallback", some (fallbackAction.toJson r.fallback)),
    ("timeout", r.timeout.map duration.toJson)]

theorem approvalRuleSlots_sorted (r : ApprovalRule) :
    ((approvalRuleSlots r).map Prod.fst).Pairwise (· < ·) := by
  have hnames : ["action", "approvers", "fallback", "timeout"].Pairwise
    (· < ·) := by decide
  exact hnames

def approvalRule : Form ApprovalRule where
  toJson r := record (approvalRuleSlots r)
  fromJson
    | .object entries => do
        let action ← text.field "action" entries
        let approvers ← texts.field "approvers" entries
        let timeout ← duration.optional "timeout" entries
        let fallback ← fallbackAction.field "fallback" entries
        some ⟨action, approvers, timeout, fallback⟩
    | _ => none
  kept := ApprovalRule.stored
  canonical r := by
    refine isCanonical_record (approvalRuleSlots_sorted r) ?_
    simp [approvalRuleSlots, -Prod.forall]
  ne_null _ := Json.noConfusion
  fromJson_toJson r := by
    have hnames := nodup_of_sorted (approvalRuleSlots_sorted r)
    refine reads (field_entriesOf hnames rfl) ?_
    refine reads (field_entriesOf hnames rfl) ?_
    refine reads (optional_entriesOf hnames rfl) ?_
    refine reads (field_entriesOf hnames rfl) ?_
    simp [ApprovalRule.stored, text, texts, list, duration, fallbackAction]

def procedureStepSlots (s : ProcedureStep) : Slots :=
  [("action", some (text.toJson s.action)),
    ("if_previous_failed", s.ifPreviousFailed.map text.toJson)]

theorem procedureStepSlots_sorted (s : ProcedureStep) :
    ((procedureStepSlots s).map Prod.fst).Pairwise (· < ·) := by
  have hnames : ["action", "if_previous_failed"].Pairwise (· < ·) := by decide
  exact hnames

def procedureStep : Form ProcedureStep where
  toJson s := record (procedureStepSlots s)
  fromJson
    | .object entries => do
        let action ← text.field "action" entries
        let ifPreviousFailed ← text.optional "if_previous_failed" entries
        some ⟨action, ifPreviousFailed⟩
    | _ => none
  kept := id
  canonical s := by
    refine isCanonical_record (procedureStepSlots_sorted s) ?_
    simp [procedureStepSlots, -Prod.forall]
  ne_null _ := Json.noConfusion
  fromJson_toJson s := by
    have hnames := nodup_of_sorted (procedureStepSlots_sorted s)
    refine reads (field_entriesOf hnames rfl) ?_
    refine reads (optional_entriesOf hnames rfl) ?_
    simp [text]

/-! ## Policies -/

variable (time : PostgresRows.TimeText)

def policySlots (p : Policy) : Slots :=
  [("active_from", some ((dateTime time).toJson p.activeFrom)),
    ("allow", some (authorizedAction.list.toJson p.allow)),
    ("deny", some (authorizedAction.list.toJson p.deny)),
    ("expires_at", p.expiresAt.map (dateTime time).toJson),
    ("external_evaluator",
      p.externalEvaluator.map externalEvaluatorRef.toJson),
    ("path", some (text.toJson p.path)),
    ("procedure", p.procedure.map procedureStep.list.toJson),
    ("proposed_at", some ((dateTime time).toJson p.proposedAt)),
    ("proposed_by", some (text.toJson p.proposedBy)),
    ("ratification_reasoning", p.ratificationReasoning.map text.toJson),
    ("ratified_at", p.ratifiedAt.map (dateTime time).toJson),
    ("ratified_by", p.ratifiedBy.map text.toJson),
    ("require_approval", some (approvalRule.list.toJson p.requireApproval)),
    ("required_fields", some (texts.toJson p.requiredFields)),
    ("severity", some (severity.toJson p.severity)),
    ("signature", p.signature.map policySignature.toJson),
    ("situation", some (text.toJson p.situation)),
    ("situation_selector", some (selector.toJson p.situationSelector)),
    ("supersedes", p.supersedes.map text.toJson),
    ("tenant_id", p.tenantId.map text.toJson),
    ("triggers", some (texts.toJson p.triggers)),
    ("version", some (number.toJson p.version))]

theorem policySlots_sorted (p : Policy) :
    ((policySlots time p).map Prod.fst).Pairwise (· < ·) := by
  have hnames : ["active_from", "allow", "deny", "expires_at",
      "external_evaluator", "path", "procedure", "proposed_at", "proposed_by",
      "ratification_reasoning", "ratified_at", "ratified_by",
      "require_approval", "required_fields", "severity", "signature",
      "situation", "situation_selector", "supersedes", "tenant_id", "triggers",
      "version"].Pairwise (· < ·) := by decide
  exact hnames

def policy : Form Policy where
  toJson p := record (policySlots time p)
  fromJson
    | .object entries => do
        let path ← text.field "path" entries
        let version ← number.field "version" entries
        let situation ← text.field "situation" entries
        let situationSelector ← selector.field "situation_selector" entries
        let allow ← authorizedAction.list.fieldOr "allow" [] entries
        let deny ← authorizedAction.list.fieldOr "deny" [] entries
        let requireApproval ←
          approvalRule.list.fieldOr "require_approval" [] entries
        let procedure ← procedureStep.list.optional "procedure" entries
        let triggers ← texts.fieldOr "triggers" [] entries
        let requiredFields ← texts.fieldOr "required_fields" [] entries
        let severity ← severity.fieldOr "severity" .low entries
        let proposedBy ← text.field "proposed_by" entries
        let proposedAt ← (dateTime time).field "proposed_at" entries
        let ratifiedBy ← text.optional "ratified_by" entries
        let ratifiedAt ← (dateTime time).optional "ratified_at" entries
        let ratificationReasoning ←
          text.optional "ratification_reasoning" entries
        let activeFrom ← (dateTime time).field "active_from" entries
        let expiresAt ← (dateTime time).optional "expires_at" entries
        let supersedes ← text.optional "supersedes" entries
        let signature ← policySignature.optional "signature" entries
        let tenantId ← text.optional "tenant_id" entries
        let externalEvaluator ←
          externalEvaluatorRef.optional "external_evaluator" entries
        some {
          path, version, situation, situationSelector, allow, deny,
          requireApproval, procedure, triggers, requiredFields, severity,
          proposedBy, proposedAt, ratifiedBy, ratifiedAt,
          ratificationReasoning, activeFrom, expiresAt, supersedes, signature,
          tenantId, externalEvaluator }
    | _ => none
  kept p := { p.stored with version := p.version % 2 ^ 64 }
  canonical p := by
    refine isCanonical_record (policySlots_sorted time p) ?_
    simp [policySlots, -Prod.forall]
  ne_null _ := Json.noConfusion
  fromJson_toJson p := by
    have hnames := nodup_of_sorted (policySlots_sorted time p)
    refine reads (field_entriesOf hnames rfl) ?_
    refine reads (field_entriesOf hnames rfl) ?_
    refine reads (field_entriesOf hnames rfl) ?_
    refine reads (field_entriesOf hnames rfl) ?_
    refine reads (fieldOr_entriesOf hnames rfl) ?_
    refine reads (fieldOr_entriesOf hnames rfl) ?_
    refine reads (fieldOr_entriesOf hnames rfl) ?_
    refine reads (optional_entriesOf hnames rfl) ?_
    refine reads (fieldOr_entriesOf hnames rfl) ?_
    refine reads (fieldOr_entriesOf hnames rfl) ?_
    refine reads (fieldOr_entriesOf hnames rfl) ?_
    refine reads (field_entriesOf hnames rfl) ?_
    refine reads (field_entriesOf hnames rfl) ?_
    refine reads (optional_entriesOf hnames rfl) ?_
    refine reads (optional_entriesOf hnames rfl) ?_
    refine reads (optional_entriesOf hnames rfl) ?_
    refine reads (field_entriesOf hnames rfl) ?_
    refine reads (optional_entriesOf hnames rfl) ?_
    refine reads (optional_entriesOf hnames rfl) ?_
    refine reads (optional_entriesOf hnames rfl) ?_
    refine reads (optional_entriesOf hnames rfl) ?_
    refine reads (optional_entriesOf hnames rfl) ?_
    simp [Policy.stored, text, texts, list, number, dateTime, ofText, severity,
      selector, authorizedAction, approvalRule, procedureStep, policySignature,
      externalEvaluatorRef]

end Form

end Policies

end AgentStateGraph
