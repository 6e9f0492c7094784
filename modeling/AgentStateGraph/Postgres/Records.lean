import AgentStateGraph.Postgres.Serde

/-!
# Objects and commits as JSON

The derived serializers of an object and of a commit, with every field.  A
commit has floats in two places, its own confidence and that of the resolution
of its intent, and values of JSON's own in the arguments of its tool calls.
-/

namespace AgentStateGraph

namespace PostgresRows

/-! ## Object ids -/

/-- A BLAKE3 hash. -/
abbrev ObjectId := { bytes : List UInt8 // bytes.length = 32 }

namespace Serde

variable {α β : Type}

def objectId : Serde ObjectId where
  toJson id := (list u8).toJson id.1
  fromJson j := ((list u8).fromJson j).bind fun bytes =>
    if h : bytes.length = 32 then some ⟨bytes, h⟩ else none
  absent := none
  Kept _ _ := True
  read_iff num hnum id := by
    have hbytes := ((list u8).read_iff num hnum id.1).mpr fun _ _ => trivial
    obtain ⟨j, hj, hread⟩ := Option.bind_eq_some_iff.mp hbytes
    simp [hj, hread, id.2]

/-- `BTreeMap<String, T>`, of values that every text keeps. -/
def map (s : Serde α) (hkept : ∀ num a, s.Kept num a) :
    Serde (BTreeMap String α) where
  toJson m := .object (m.toList.map fun e => (e.1, s.toJson e.2))
  fromJson
    | .object es =>
        (es.mapM fun e => (s.fromJson e.2).map fun a => (e.1, a)).map fun l =>
          Std.ExtTreeMap.ofList l compare
    | _ => none
  absent := none
  Kept _ _ := True
  read_iff num hnum m := by
    have hentries : ∀ l : List (String × α), ∃ es,
        Json.rereadEntries num (l.map fun e => (e.1, s.toJson e.2)) =
          some es ∧
        (es.mapM fun e => (s.fromJson e.2).map fun a => (e.1, a)) =
          some l := by
      intro l
      induction l with
      | nil => exact ⟨[], rfl, rfl⟩
      | cons e l ih =>
          obtain ⟨es, hes, hread⟩ := ih
          obtain ⟨j, hj, ha⟩ := Option.bind_eq_some_iff.mp
            ((s.read_iff num hnum e.2).mpr (hkept num e.2))
          exact ⟨(e.1, j) :: es, by simp [Json.rereadEntries, hj, hes],
            by simp [ha, hread]⟩
    obtain ⟨es, hes, hread⟩ := hentries m.toList
    simp [Json.reread, hes, hread, KeyedMap.ofList_toList]

theorem variant_iff (s : Serde α) {num : Number → Option Number}
    (hnum : FixesIntegers num) {c : α → β} (hc : Function.Injective c)
    (a : α) :
    ((s.toJson a).reread num).bind (fun j => (s.fromJson j).map c) =
      some (c a) ↔ s.Kept num a := by
  rw [← s.read_iff num hnum a]
  simp only [Option.bind_eq_some_iff, Option.map_eq_some_iff, hc.eq_iff,
    exists_eq_right]

end Serde

/-! ## Objects -/

section Objects

open Serde

def objectIds : Serde (BTreeMap String ObjectId) :=
  map objectId fun _ _ => trivial

/-- An atom is tagged with its type, next to its value. -/
def atomEntries : Atom → List (String × Json)
  | .null => [("type", .string "Null")]
  | .bool b => [("type", .string "Bool"), ("value", bool.toJson b)]
  | .int i => [("type", .string "Int"), ("value", i64.toJson i)]
  | .float f => [("type", .string "Float"), ("value", f64.toJson f)]
  | .string s => [("type", .string "String"), ("value", string.toJson s)]
  | .bytes b => [("type", .string "Bytes"), ("value", (list u8).toJson b)]
  | .uint u => [("type", .string "UInt"), ("value", u64.toJson u)]

def atomFromEntries (es : List (String × Json)) : Option Atom :=
  match es.lookup "type", es.lookup "value" with
  | some (.string "Null"), none | some (.string "Null"), some .null =>
      some .null
  | some (.string "Bool"), some j => (bool.fromJson j).map .bool
  | some (.string "Int"), some j => (i64.fromJson j).map .int
  | some (.string "Float"), some j => (f64.fromJson j).map .float
  | some (.string "String"), some j => (string.fromJson j).map .string
  | some (.string "Bytes"), some j => ((list u8).fromJson j).map .bytes
  | some (.string "UInt"), some j => (u64.fromJson j).map .uint
  | _, _ => none

def nodeEntries : Node ObjectId → List (String × Json)
  | .map entries =>
      [("type", .string "Map"), ("value", objectIds.toJson entries)]
  | .list items =>
      [("type", .string "List"), ("value", (list objectId).toJson items)]
  | .set items =>
      [("type", .string "Set"), ("value", (list objectId).toJson items)]

def nodeFromEntries (es : List (String × Json)) : Option (Node ObjectId) :=
  match es.lookup "type", es.lookup "value" with
  | some (.string "Map"), some j => (objectIds.fromJson j).map .map
  | some (.string "List"), some j => ((list objectId).fromJson j).map .list
  | some (.string "Set"), some j => ((list objectId).fromJson j).map .set
  | _, _ => none

/-- Of an object, what a text must keep is a float. -/
def ObjectKept (num : Number → Option Number) : Object ObjectId → Prop
  | .atom (.float x) => f64.Kept num x
  | _ => True

/-- An object is tagged with its kind, among the entries of its atom or
node. -/
def objectToJson : Object ObjectId → Json
  | .atom a => .object (("kind", .string "Atom") :: atomEntries a)
  | .node n => .object (("kind", .string "Node") :: nodeEntries n)

def objectFromJson : Json → Option (Object ObjectId)
  | .object es =>
      match es.lookup "kind" with
      | some (.string "Atom") => (atomFromEntries es).map .atom
      | some (.string "Node") => (nodeFromEntries es).map .node
      | _ => none
  | _ => none

def tagged (kind type : String) (value : Json) : Json :=
  .object [("kind", .string kind), ("type", .string type), ("value", value)]

variable {α β : Type} {num : Number → Option Number}

/-- An object of one variant is read back when its content is. -/
theorem tagged_iff (s : Serde α) (hnum : FixesIntegers num)
    (kind type : String) (c : α → β) (d : β → Object ObjectId)
    (hinj : Function.Injective (d ∘ c))
    (hread : ∀ j, objectFromJson (tagged kind type j) =
      ((s.fromJson j).map c).map d) (a : α) :
    ((tagged kind type (s.toJson a)).reread num).bind objectFromJson =
      some (d (c a)) ↔ s.Kept num a := by
  have hreread : (tagged kind type (s.toJson a)).reread num =
      ((s.toJson a).reread num).map (tagged kind type) := by
    simp only [tagged, Json.reread, Json.rereadEntries]
    cases (s.toJson a).reread num <;> rfl
  have hsame : objectFromJson ∘ tagged kind type =
      fun j => (s.fromJson j).map (d ∘ c) := by
    funext j
    exact (hread j).trans (Option.map_map d c _)
  rw [← variant_iff s hnum hinj a, hreread, Option.bind_map, hsame]
  rfl

theorem atom_read_iff (hnum : FixesIntegers num) (a : Atom) :
    ((objectToJson (.atom a)).reread num).bind objectFromJson =
      some (.atom a) ↔ ObjectKept num (.atom a) := by
  have hinj : ∀ {α : Type} {c : α → Atom}, Function.Injective c →
      Function.Injective (Object.atom ∘ c : α → Object ObjectId) :=
    fun hc => Function.Injective.comp (fun _ _ h => Object.atom.inj h) hc
  cases a with
  | null => exact iff_of_true rfl trivial
  | bool b =>
      exact tagged_iff Serde.bool hnum "Atom" "Bool" .bool .atom
        (hinj fun _ _ h => Atom.bool.inj h) (fun j => by cases j <;> rfl) b
  | int i =>
      exact tagged_iff i64 hnum "Atom" "Int" .int .atom
        (hinj fun _ _ h => Atom.int.inj h) (fun j => by cases j <;> rfl) i
  | float x =>
      exact tagged_iff f64 hnum "Atom" "Float" .float .atom
        (hinj fun _ _ h => Atom.float.inj h) (fun j => by cases j <;> rfl) x
  | string s =>
      exact tagged_iff Serde.string hnum "Atom" "String" .string .atom
        (hinj fun _ _ h => Atom.string.inj h) (fun j => by cases j <;> rfl) s
  | bytes b =>
      refine (tagged_iff (Serde.list u8) hnum "Atom" "Bytes" .bytes .atom
        (hinj fun _ _ h => Atom.bytes.inj h) (fun j => by cases j <;> rfl)
        b).trans ?_
      exact iff_of_true (fun _ _ => trivial) trivial
  | uint u =>
      exact tagged_iff u64 hnum "Atom" "UInt" .uint .atom
        (hinj fun _ _ h => Atom.uint.inj h) (fun j => by cases j <;> rfl) u

theorem node_read_iff (hnum : FixesIntegers num) (n : Node ObjectId) :
    ((objectToJson (.node n)).reread num).bind objectFromJson =
      some (.node n) ↔ ObjectKept num (.node n) := by
  have hinj : ∀ {α : Type} {c : α → Node ObjectId},
      Function.Injective c →
      Function.Injective (Object.node ∘ c : α → Object ObjectId) :=
    fun hc => Function.Injective.comp (fun _ _ h => Object.node.inj h) hc
  cases n with
  | map entries =>
      exact tagged_iff objectIds hnum "Node" "Map" .map .node
        (hinj fun _ _ h => Node.map.inj h) (fun j => by cases j <;> rfl)
        entries
  | list items =>
      refine (tagged_iff (Serde.list objectId) hnum "Node" "List" .list .node
        (hinj fun _ _ h => Node.list.inj h) (fun j => by cases j <;> rfl)
        items).trans ?_
      exact iff_of_true (fun _ _ => trivial) trivial
  | set items =>
      refine (tagged_iff (Serde.list objectId) hnum "Node" "Set" .set .node
        (hinj fun _ _ h => Node.set.inj h) (fun j => by cases j <;> rfl)
        items).trans ?_
      exact iff_of_true (fun _ _ => trivial) trivial

def object : Serde (Object ObjectId) where
  toJson := objectToJson
  fromJson := objectFromJson
  absent := none
  Kept := ObjectKept
  read_iff _ hnum o := by
    cases o with
    | atom a => exact atom_read_iff hnum a
    | node n => exact node_read_iff hnum n

end Objects

/-! ## Commits -/

/-- A time as `DateTime<Utc>` is written and read. -/
structure TimeText where
  format : ℤ → String
  parse : String → Option ℤ
  parse_format : ∀ t, parse (format t) = some t

inductive IntentStatus where
  | proposed | authorized | inProgress | completed | failed | blocked

inductive DeviationImpact where
  | low | medium | high

inductive Outcome where
  | fulfilled | partiallyFulfilled | failed | deferred

inductive Urgency where
  | routine | priority | critical

inductive FormatHint where
  | summary | detailed | diffOnly

/-- A record of where and why the agent diverged from the plan. -/
structure Deviation where
  description : String
  reason : String
  impact : DeviationImpact
  followUp : Option String

/-- Filed when an intent reaches a terminal state. -/
structure Resolution where
  summary : String
  deviations : List Deviation
  commits : List String
  branchesExplored : List String
  outcome : Outcome
  confidence : F64

/-- Who should be informed about an intent's resolution. -/
structure NotificationPolicy where
  urgency : Urgency
  audience : List String
  formatHint : FormatHint

structure IntentLifecycle where
  status : IntentStatus
  assignedTo : List String
  resolution : Option Resolution
  notification : Option NotificationPolicy

/-- An intent, with its lifecycle. -/
structure Intent where
  id : String
  category : IntentCategory
  description : String
  tags : List String
  parentIntent : Option String
  lifecycle : IntentLifecycle

/-- What an authority grants permission for. -/
inductive AuthScope where
  | intent (id : String)
  | branch (pattern : String)
  | path (pattern : String)
  | wildcard
  | custom (scope : String)

/-- A single hop in a delegation chain. -/
structure DelegationLink where
  source : String
  target : String
  scope : AuthScope
  grantedAt : ℤ
  expires : Option ℤ

/-- Who authorized a state change, with the full delegation chain. -/
structure Authority where
  principal : String
  scope : AuthScope
  grantedAt : ℤ
  expires : Option ℤ
  delegationChain : List DelegationLink

/-- A record of a tool call that contributed to a state change. -/
structure ToolCall where
  toolName : String
  arguments : Json
  result : Option String
  timestamp : ℤ

/-- A commit, with all its provenance. -/
structure Commit where
  id : ObjectId
  stateRoot : ObjectId
  parents : List ObjectId
  timestamp : ℤ
  agentId : String
  authority : Authority
  intent : Intent
  reasoning : Option String
  confidence : Option F64
  toolCalls : List ToolCall

section Commits

open Serde

def intentStatus : Serde IntentStatus :=
  ofText
    (fun
      | .proposed => "Proposed"
      | .authorized => "Authorized"
      | .inProgress => "InProgress"
      | .completed => "Completed"
      | .failed => "Failed"
      | .blocked => "Blocked")
    (fun
      | "Proposed" => some .proposed
      | "Authorized" => some .authorized
      | "InProgress" => some .inProgress
      | "Completed" => some .completed
      | "Failed" => some .failed
      | "Blocked" => some .blocked
      | _ => none)
    fun status => by cases status <;> rfl

def deviationImpact : Serde DeviationImpact :=
  ofText
    (fun
      | .low => "Low"
      | .medium => "Medium"
      | .high => "High")
    (fun
      | "Low" => some .low
      | "Medium" => some .medium
      | "High" => some .high
      | _ => none)
    fun impact => by cases impact <;> rfl

def outcome : Serde Outcome :=
  ofText
    (fun
      | .fulfilled => "Fulfilled"
      | .partiallyFulfilled => "PartiallyFulfilled"
      | .failed => "Failed"
      | .deferred => "Deferred")
    (fun
      | "Fulfilled" => some .fulfilled
      | "PartiallyFulfilled" => some .partiallyFulfilled
      | "Failed" => some .failed
      | "Deferred" => some .deferred
      | _ => none)
    fun outcome => by cases outcome <;> rfl

def urgency : Serde Urgency :=
  ofText
    (fun
      | .routine => "Routine"
      | .priority => "Priority"
      | .critical => "Critical")
    (fun
      | "Routine" => some .routine
      | "Priority" => some .priority
      | "Critical" => some .critical
      | _ => none)
    fun urgency => by cases urgency <;> rfl

def formatHint : Serde FormatHint :=
  ofText
    (fun
      | .summary => "Summary"
      | .detailed => "Detailed"
      | .diffOnly => "DiffOnly")
    (fun
      | "Summary" => some .summary
      | "Detailed" => some .detailed
      | "DiffOnly" => some .diffOnly
      | _ => none)
    fun hint => by cases hint <;> rfl

def optionString : Serde (Option String) :=
  option string fun _ => Or.inl Json.noConfusion

/-- A unit variant is its name, and `Custom` an object. -/
def intentCategory : Serde IntentCategory where
  toJson
    | .explore => .string "Explore"
    | .refine => .string "Refine"
    | .fix => .string "Fix"
    | .rollback => .string "Rollback"
    | .checkpoint => .string "Checkpoint"
    | .merge => .string "Merge"
    | .migrate => .string "Migrate"
    | .plan => .string "Plan"
    | .taint => .string "Taint"
    | .untaint => .string "Untaint"
    | .quarantine => .string "Quarantine"
    | .unquarantine => .string "Unquarantine"
    | .watch => .string "Watch"
    | .unwatch => .string "Unwatch"
    | .policyPropose => .string "PolicyPropose"
    | .policyRatify => .string "PolicyRatify"
    | .policySupersede => .string "PolicySupersede"
    | .policySign => .string "PolicySign"
    | .custom name => .object [("Custom", .string name)]
  fromJson
    | .string "Explore" => some .explore
    | .string "Refine" => some .refine
    | .string "Fix" => some .fix
    | .string "Rollback" => some .rollback
    | .string "Checkpoint" => some .checkpoint
    | .string "Merge" => some .merge
    | .string "Migrate" => some .migrate
    | .string "Plan" => some .plan
    | .string "Taint" => some .taint
    | .string "Untaint" => some .untaint
    | .string "Quarantine" => some .quarantine
    | .string "Unquarantine" => some .unquarantine
    | .string "Watch" => some .watch
    | .string "Unwatch" => some .unwatch
    | .string "PolicyPropose" => some .policyPropose
    | .string "PolicyRatify" => some .policyRatify
    | .string "PolicySupersede" => some .policySupersede
    | .string "PolicySign" => some .policySign
    | .object [("Custom", .string name)] => some (.custom name)
    | _ => none
  absent := none
  Kept _ _ := True
  read_iff _ _ category := by cases category <;> exact iff_of_true rfl trivial

def authScope : Serde AuthScope where
  toJson
    | .intent id => .object [("Intent", .string id)]
    | .branch pattern => .object [("Branch", .string pattern)]
    | .path pattern => .object [("Path", .string pattern)]
    | .wildcard => .string "Wildcard"
    | .custom scope => .object [("Custom", .string scope)]
  fromJson
    | .object [("Intent", .string id)] => some (.intent id)
    | .object [("Branch", .string pattern)] => some (.branch pattern)
    | .object [("Path", .string pattern)] => some (.path pattern)
    | .string "Wildcard" => some .wildcard
    | .object [("Custom", .string scope)] => some (.custom scope)
    | _ => none
  absent := none
  Kept _ _ := True
  read_iff _ _ scope := by cases scope <;> exact iff_of_true rfl trivial

def deviation : Serde Deviation :=
  iso (Fields.serde <|
      .cons "description" string <|
      .cons "follow_up" optionString <|
      .cons "impact" deviationImpact <|
      .cons "reason" string .nil)
    (fun d => (d.description, d.followUp, d.impact, d.reason, ()))
    (fun (description, followUp, impact, reason, _) =>
      ⟨description, reason, impact, followUp⟩)
    (fun _ => rfl) (fun _ => rfl)

def resolution : Serde Resolution :=
  iso (Fields.serde <|
      .cons "branches_explored" (list string) <|
      .cons "commits" (list string) <|
      .cons "confidence" f64 <|
      .cons "deviations" (list deviation) <|
      .cons "outcome" outcome <|
      .cons "summary" string .nil)
    (fun r => (r.branchesExplored, r.commits, r.confidence, r.deviations,
      r.outcome, r.summary, ()))
    (fun (branchesExplored, commits, confidence, deviations, outcome, summary,
        _) =>
      ⟨summary, deviations, commits, branchesExplored, outcome, confidence⟩)
    (fun _ => rfl) (fun _ => rfl)

def notificationPolicy : Serde NotificationPolicy :=
  iso (Fields.serde <|
      .cons "audience" (list string) <|
      .cons "format_hint" formatHint <|
      .cons "urgency" urgency .nil)
    (fun n => (n.audience, n.formatHint, n.urgency, ()))
    (fun (audience, formatHint, urgency, _) => ⟨urgency, audience, formatHint⟩)
    (fun _ => rfl) (fun _ => rfl)

def intentLifecycle : Serde IntentLifecycle :=
  iso (Fields.serde <|
      .cons "assigned_to" (list string) <|
      .cons "notification"
        (option notificationPolicy fun _ => Or.inl Json.noConfusion) <|
      .cons "resolution" (option resolution fun _ => Or.inl Json.noConfusion) <|
      .cons "status" intentStatus .nil)
    (fun l => (l.assignedTo, l.notification, l.resolution, l.status, ()))
    (fun (assignedTo, notification, resolution, status, _) =>
      ⟨status, assignedTo, resolution, notification⟩)
    (fun _ => rfl) (fun _ => rfl)

def intent : Serde Intent :=
  iso (Fields.serde <|
      .cons "category" intentCategory <|
      .cons "description" string <|
      .cons "id" string <|
      .cons "lifecycle" intentLifecycle <|
      .cons "parent_intent" optionString <|
      .cons "tags" (list string) .nil)
    (fun i => (i.category, i.description, i.id, i.lifecycle, i.parentIntent,
      i.tags, ()))
    (fun (category, description, id, lifecycle, parentIntent, tags, _) =>
      ⟨id, category, description, tags, parentIntent, lifecycle⟩)
    (fun _ => rfl) (fun _ => rfl)

variable (time : TimeText)

def dateTime : Serde ℤ := ofText time.format time.parse time.parse_format

def optionDateTime : Serde (Option ℤ) :=
  option (dateTime time) fun _ => Or.inl Json.noConfusion

def delegationLink : Serde DelegationLink :=
  iso (Fields.serde <|
      .cons "expires" (optionDateTime time) <|
      .cons "from" string <|
      .cons "granted_at" (dateTime time) <|
      .cons "scope" authScope <|
      .cons "to" string .nil)
    (fun l => (l.expires, l.source, l.grantedAt, l.scope, l.target, ()))
    (fun (expires, source, grantedAt, scope, target, _) =>
      ⟨source, target, scope, grantedAt, expires⟩)
    (fun _ => rfl) (fun _ => rfl)

def authority : Serde Authority :=
  iso (Fields.serde <|
      .cons "delegation_chain" (list (delegationLink time)) <|
      .cons "expires" (optionDateTime time) <|
      .cons "granted_at" (dateTime time) <|
      .cons "principal" string <|
      .cons "scope" authScope .nil)
    (fun a => (a.delegationChain, a.expires, a.grantedAt, a.principal, a.scope,
      ()))
    (fun (delegationChain, expires, grantedAt, principal, scope, _) =>
      ⟨principal, scope, grantedAt, expires, delegationChain⟩)
    (fun _ => rfl) (fun _ => rfl)

def toolCall : Serde ToolCall :=
  iso (Fields.serde <|
      .cons "arguments" json <|
      .cons "result" optionString <|
      .cons "timestamp" (dateTime time) <|
      .cons "tool_name" string .nil)
    (fun c => (c.arguments, c.result, c.timestamp, c.toolName, ()))
    (fun (arguments, result, timestamp, toolName, _) =>
      ⟨toolName, arguments, result, timestamp⟩)
    (fun _ => rfl) (fun _ => rfl)

theorem f64_null (x : F64) :
    f64.toJson x ≠ .null ∨ ∀ num, ¬f64.Kept num x := by
  by_cases hx : x.isFinite = true
  · exact Or.inl (by simp [f64, hx])
  · exact Or.inr fun _ hkept => hx hkept.1

def commit : Serde Commit :=
  iso (Fields.serde <|
      .cons "agent_id" string <|
      .cons "authority" (authority time) <|
      .cons "confidence" (option f64 f64_null) <|
      .cons "id" objectId <|
      .cons "intent" intent <|
      .cons "parents" (list objectId) <|
      .cons "reasoning" optionString <|
      .cons "state_root" objectId <|
      .cons "timestamp" (dateTime time) <|
      .cons "tool_calls" (list (toolCall time)) .nil)
    (fun c => (c.agentId, c.authority, c.confidence, c.id, c.intent, c.parents,
      c.reasoning, c.stateRoot, c.timestamp, c.toolCalls, ()))
    (fun (agentId, authority, confidence, id, intent, parents, reasoning,
        stateRoot, timestamp, toolCalls, _) =>
      ⟨id, stateRoot, parents, timestamp, agentId, authority, intent, reasoning,
        confidence, toolCalls⟩)
    (fun _ => rfl) (fun _ => rfl)

/-- The fields of a commit that its id is computed from. -/
def hashInput (time : TimeText) (c : Commit) : Json :=
  (Fields.serde <|
      .cons "agent_id" Serde.string <|
      .cons "authority" (authority time) <|
      .cons "confidence" (Serde.option Serde.f64 f64_null) <|
      .cons "intent" intent <|
      .cons "parents" (Serde.list Serde.objectId) <|
      .cons "reasoning" optionString <|
      .cons "state_root" Serde.objectId <|
      .cons "timestamp" (dateTime time) <|
      .cons "tool_calls" (Serde.list (toolCall time)) .nil).toJson
    (c.agentId, c.authority, c.confidence, c.intent, c.parents, c.reasoning,
      c.stateRoot, c.timestamp, c.toolCalls, ())

/-- Of a commit, what a text must keep is the two confidences and the arguments
of the tool calls. -/
def CommitKept (num : Number → Option Number) (c : Commit) : Prop :=
  (∀ x ∈ c.confidence, f64.Kept num x) ∧
    (∀ r ∈ c.intent.lifecycle.resolution, f64.Kept num r.confidence) ∧
    ∀ call ∈ c.toolCalls, json.Kept num call.arguments

theorem commit_kept_iff (num : Number → Option Number) (c : Commit) :
    (commit time).Kept num c ↔ CommitKept num c := by
  simp only [commit, iso, Fields.serde, Fields.cons, Fields.nil, string,
    authority, dateTime, ofText, optionDateTime, option, delegationLink, list,
    authScope, objectId, intent, intentCategory, intentLifecycle, optionString,
    notificationPolicy, formatHint, urgency, resolution, deviation,
    deviationImpact, outcome, intentStatus, toolCall, CommitKept, implies_true,
    true_and, and_true]
  

end Commits

end PostgresRows

end AgentStateGraph
