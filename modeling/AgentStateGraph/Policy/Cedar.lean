import AgentStateGraph.Core.Schema
import AgentStateGraph.Lib.QuotedText
import AgentStateGraph.Policy.Evaluation

/-!
# Cedar policies

The evaluator of Cedar policies writes the entities and the request of each
call as JSON and runs `cedar authorize` on them.  The agent is declared as JSON
data, but the request names it, and the action, by a literal that the id is
spliced into, and Cedar replaces the escapes of a literal.

Cedar itself lies outside this development: it reads the literals of a request
as its documentation says, and does with them what it likes.
-/

namespace AgentStateGraph

namespace Policies

namespace Cedar

/-! ## Entity literals -/

structure Uid where
  type : String
  id : String
deriving DecidableEq

/-- The escapes of one letter; the quotes stand for themselves. -/
def letterEscapes : List (Char × Char) :=
  [('n', '\n'), ('r', '\r'), ('t', '\t'), ('0', Char.ofNat 0), ('"', '"'),
    (Char.ofNat 39, Char.ofNat 39), ('\\', '\\')]

def hexNumber (digits : List Char) : Option ℕ :=
  digits.foldlM (fun n c => (Backend.hexDigit c).map fun d => 16 * n + d) 0

/-- `xHH`, which is ASCII. -/
def hexEscape : List Char → Option (Char × List Char)
  | hi :: lo :: s =>
      (((hexNumber [hi, lo]).filter (· < 128)).map Char.ofNat).map fun c =>
        (c, s)
  | _ => none

/-- A character by the digits of its number. -/
def scalarValue (digits : List Char) : Option Char :=
  if digits.length ∈ Finset.Icc 1 6 then
    ((hexNumber digits).filter fun n => n.isValidChar).map Char.ofNat
  else none

def openBrace : Char := '\x7b'

def closeBrace : Char := '\x7d'

/-- `u`, and the digits in braces. -/
def unicodeEscape : List Char → Option (Char × List Char)
  | c :: s =>
      if c = openBrace then ReadsFront.upTo closeBrace scalarValue s else none
  | [] => none

/-- What follows a backslash. -/
def readEscape : List Char → Option (Char × List Char)
  | c :: s =>
      match letterEscapes.lookup c with
      | some d => some (d, s)
      | none =>
          if c = 'x' then hexEscape s
          else if c = 'u' then unicodeEscape s
          else none
  | [] => none

theorem readsFront_hexEscape : ReadsFront hexEscape := by
  refine @ReadsFront.cons _ _ hexEscape (fun hi s => hexEscape (hi :: s)) rfl
    (fun _ _ => rfl) fun hi => ?_
  refine ReadsFront.cons rfl (fun _ _ => rfl) fun lo => ?_
  exact ReadsFront.value _

theorem readsFront_unicodeEscape : ReadsFront unicodeEscape := by
  refine @ReadsFront.cons _ _ unicodeEscape (fun c s => unicodeEscape (c :: s))
    rfl (fun _ _ => rfl) fun c => ?_
  by_cases hopen : c = openBrace
  · have hread : (fun s => unicodeEscape (c :: s)) =
        ReadsFront.upTo closeBrace scalarValue := by
      funext s
      simp [unicodeEscape, hopen]
    exact hread ▸ ReadsFront.upTo_reads _ _
  · have hread : (fun s => unicodeEscape (c :: s)) = fun _ => none := by
      funext s
      simp [unicodeEscape, hopen]
    exact hread ▸ ReadsFront.failing

theorem readEscape_letter {c d : Char} (h : letterEscapes.lookup c = some d) :
    (fun s => readEscape (c :: s)) = fun s => (some d).map fun d => (d, s) := by
  funext s
  simp [readEscape, h]

theorem readEscape_long {c : Char} (h : letterEscapes.lookup c = none) :
    (fun s => readEscape (c :: s)) =
      if c = 'x' then hexEscape
      else if c = 'u' then unicodeEscape
      else fun _ => none := by
  funext s
  simp only [readEscape, h]
  by_cases hx : c = 'x'
  · simp only [if_pos hx]
  · by_cases hu : c = 'u'
    · simp only [if_neg hx, if_pos hu]
    · simp only [if_neg hx, if_neg hu]

theorem readsFront_readEscape : ReadsFront readEscape := by
  refine @ReadsFront.cons _ _ readEscape (fun c s => readEscape (c :: s)) rfl
    (fun _ _ => rfl) fun c => ?_
  cases hletter : letterEscapes.lookup c with
  | some d => exact readEscape_letter hletter ▸ ReadsFront.value _
  | none =>
      rw [readEscape_long hletter]
      split
      · exact readsFront_hexEscape
      · split
        · exact readsFront_unicodeEscape
        · exact ReadsFront.failing

def escapes : Escapes Char where
  quote := '"'
  mark := '\\'
  quote_ne_mark := by decide
  read := readEscape
  read_nil := rfl
  reads_front := readsFront_readEscape

/-- Read `Type::"…"`: the type is what stands before the first quote, and
`follows` says what may stand after the last one. -/
def parseUid (follows : List Char → Bool) (s : String) : Option Uid :=
  let name := s.toList.takeWhile (· ≠ '"')
  if [':', ':'] <:+ name then do
    let id ← escapes.readLiteral follows (s.toList.drop (name.length + 1))
    some ⟨String.ofList (name.dropLast.dropLast), String.ofList id⟩
  else none

/-! ## The files of a call -/

/-- `entities.json`: the agent alone. -/
def entities (agentId : String) : Json :=
  .array [.object [
    ("attrs", .object []),
    ("parents", .array []),
    ("uid", .object [("id", .string agentId), ("type", .string "Agent")])]]

/-- `request.json`. -/
def request (situation : Situation) (action agentId : String) : Json :=
  .object [
    ("action", .string ("Action::\"" ++ action ++ "\"")),
    ("context", .object [("situation", .object (situation.toList.map fun e =>
      (e.1, .string e.2)))]),
    ("principal", .string ("Agent::\"" ++ agentId ++ "\"")),
    ("resource", .string "Situation::\"default\"")]

inductive PoliciesFile where
  | temporary (body : String)
  | path (path : String)

structure Invocation where
  policies : PoliciesFile
  entities : Json
  request : Json

/-- What `cedar authorize` ends with. -/
structure Output where
  success : Bool
  status : String
  /-- What is printed, and what it reads as. -/
  stdout : String
  envelope : Except String Json
  stderr : String

inductive ExternalError where
  | notRegistered (kind : String)
  | sourceResolution (message : String)
  | execution (message : String)
  | other (error : String)
deriving DecidableEq

/-- A request as Cedar reads it. -/
structure Request where
  principal : Uid
  action : Uid
  resource : Uid
  context : Json

end Cedar

open Cedar

/-- The `cedar` binary.  It refuses a request with a literal that it does not
read. -/
structure Cedar where
  /-- What may stand after the closing quote of a literal. -/
  follows : List Char → Bool
  follows_nil : follows [] = true
  /-- A file that is not written, a binary that does not run, or that runs for
  too long. -/
  failure : Invocation → Option ExternalError
  refusal : Invocation → { o : Output // o.success = false }
  authorize : PoliciesFile → Json → Request → Output

namespace Cedar

variable (cedar : Cedar)

def readRequest (request : Json) : Option Request := do
  let principal ← (request.get "principal").bind Json.asStr
  let action ← (request.get "action").bind Json.asStr
  let resource ← (request.get "resource").bind Json.asStr
  let context ← request.get "context"
  some ⟨← parseUid cedar.follows principal, ← parseUid cedar.follows action,
    ← parseUid cedar.follows resource, context⟩

def run (invocation : Invocation) : Except ExternalError Output :=
  match cedar.failure invocation with
  | some e => .error e
  | none =>
      match cedar.readRequest invocation.request with
      | none => .ok (cedar.refusal invocation).1
      | some request =>
          .ok (cedar.authorize invocation.policies invocation.entities request)

/-- The entities that a file declares. -/
def declared (entities : Json) : List Uid :=
  (entities.asArray.getD []).filterMap fun entity => do
    let uid ← entity.get "uid"
    let type ← (uid.get "type").bind Json.asStr
    let id ← (uid.get "id").bind Json.asStr
    some ⟨type, id⟩

/-! ## The evaluator -/

variable (jsonText : Json → String)

/-- The first entry in `determining_policies`, or `cedar`. -/
def matchedPolicy (envelope : Json) : String :=
  match ((envelope.get "determining_policies").bind Json.asArray).bind
      List.head? with
  | some v => v.asStr.getD (jsonText v)
  | none => "cedar"

def decisionOf (envelope : Json) : Decision :=
  let decision := ((envelope.get "decision").bind Json.asStr).getD ""
  if decision = "Allow" then .allow (matchedPolicy jsonText envelope) []
  else if decision = "Deny" then
    .deny (matchedPolicy jsonText envelope) "cedar authorize returned Deny"
  else .noPolicyMatch

def policiesFile : EvaluatorSource → Except ExternalError PoliciesFile
  | .inline body => .ok (.temporary body)
  | .filePath path => .ok (.path path)
  | .commitRef _ => .error (.sourceResolution
      ("commit_ref source not resolvable by the cedar runner; resolve via " ++
        "PolicyStore before dispatch"))

def evaluate (source : EvaluatorSource) (situation : Situation)
    (action agentId : String) : Except ExternalError Decision := do
  let policies ← policiesFile source
  let output ← cedar.run
    ⟨policies, entities agentId, request situation action agentId⟩
  if output.success then
    match output.envelope with
    | .error e => .error (.execution ("parse cedar authorize output: " ++ e ++
        " (stdout=" ++ output.stdout ++ ")"))
    | .ok envelope => .ok (decisionOf jsonText envelope)
  else .error (.execution ("cedar authorize exited " ++ output.status ++ ": " ++
    output.stderr))

/-- The evaluator as a policy store has it registered. -/
def runner : ExternalEvaluator := fun source situation action agentId =>
  (cedar.evaluate jsonText source situation action agentId).toOption

/-- Either the request is refused, or it names the agent that is declared and
the action. -/
def Sees (situation : Situation) (action agentId : String) : Prop :=
  (cedar.readRequest (request situation action agentId) = none ∧
    ∀ source, ∃ e,
      cedar.evaluate jsonText source situation action agentId = .error e) ∨
  ∃ r, cedar.readRequest (request situation action agentId) = some r ∧
    declared (entities agentId) = [r.principal] ∧
    r.principal = ⟨"Agent", agentId⟩ ∧ r.action = ⟨"Action", action⟩

/-- A literal that is spliced around the text is read. -/
def Readable (s : String) : Prop :=
  escapes.Readable cedar.follows s.toList

/-- No quote and no backslash. -/
def Plain (s : String) : Prop := '"' ∉ s.toList ∧ '\\' ∉ s.toList

/-! ## What the literals are read as -/

theorem parseUid_literal {follows : List Char → Bool} {type s : String}
    (htype : '"' ∉ type.toList) :
    parseUid follows (type ++ "::\"" ++ s ++ "\"") =
      (escapes.readLiteral follows (s.toList ++ ['"'])).map fun id =>
        ⟨type, String.ofList id⟩ := by
  have hliteral : (type ++ "::\"" ++ s ++ "\"").toList =
      (type.toList ++ [':', ':']) ++ '"' :: (s.toList ++ ['"']) := by
    simp
  have hname : (type ++ "::\"" ++ s ++ "\"").toList.takeWhile (· ≠ '"') =
      type.toList ++ [':', ':'] := by
    rw [hliteral, List.takeWhile_append_of_pos]
    · simp
    · intro c hc
      have hne : c ≠ '"' := by
        rintro rfl
        simp [htype] at hc
      simpa using hne
  have hcolons : [':', ':'] <:+ type.toList ++ [':', ':'] :=
    List.suffix_append _ _
  have hdrop : (type ++ "::\"" ++ s ++ "\"").toList.drop
      ((type.toList ++ [':', ':']).length + 1) = s.toList ++ ['"'] := by
    rw [hliteral, List.drop_length_add_append]
    rfl
  have htypeName : (type.toList ++ [':', ':']).dropLast.dropLast =
      type.toList := by
    simp
  simp only [parseUid, hname, hcolons, if_true, hdrop, htypeName,
    String.ofList_toList]
  cases escapes.readLiteral follows (s.toList ++ ['"']) with
  | none => rfl
  | some id => rfl

variable {cedar jsonText} {situation : Situation} {action agentId s : String}

theorem readable_iff :
    cedar.Readable s ↔ ∃ id,
      escapes.readLiteral cedar.follows (s.toList ++ ['"']) = some id :=
  (Escapes.exists_readLiteral_iff cedar.follows_nil).symm

/-- A request that names these ids. -/
def requestOf (situation : Situation) (agent act : List Char) : Request where
  principal := ⟨"Agent", String.ofList agent⟩
  action := ⟨"Action", String.ofList act⟩
  resource := ⟨"Situation", "default"⟩
  context := .object [("situation",
    .object (situation.toList.map fun e => (e.1, .string e.2)))]

theorem readRequest_request :
    cedar.readRequest (request situation action agentId) =
      (escapes.readLiteral cedar.follows (agentId.toList ++ ['"'])).bind
        fun agent =>
          (escapes.readLiteral cedar.follows (action.toList ++ ['"'])).map
            fun act => requestOf situation agent act := by
  have hagent := @parseUid_literal cedar.follows "Agent" agentId (by decide)
  have haction := @parseUid_literal cedar.follows "Action" action (by decide)
  have hresource : parseUid cedar.follows "Situation::\"default\"" =
      some ⟨"Situation", "default"⟩ := by
    have hliteral := @parseUid_literal cedar.follows "Situation" "default"
      (by decide)
    have hdefault : escapes.readLiteral cedar.follows
        ("default".toList ++ ['"']) = some "default".toList :=
      (Escapes.readLiteral_eq_self_iff cedar.follows_nil).mpr (by decide)
    rw [hdefault] at hliteral
    exact hliteral
  have hread : cedar.readRequest (request situation action agentId) =
      (parseUid cedar.follows ("Agent" ++ "::\"" ++ agentId ++ "\"")).bind
        fun p =>
          (parseUid cedar.follows ("Action" ++ "::\"" ++ action ++ "\"")).bind
            fun a =>
              (parseUid cedar.follows "Situation::\"default\"").bind fun r =>
                some ⟨p, a, r, (requestOf situation [] []).context⟩ := rfl
  rw [hread, hagent, haction, hresource]
  cases escapes.readLiteral cedar.follows (agentId.toList ++ ['"']) with
  | none => rfl
  | some agent =>
      cases escapes.readLiteral cedar.follows (action.toList ++ ['"']) with
      | none => rfl
      | some act => rfl

theorem declared_entities : declared (entities agentId) = [⟨"Agent", agentId⟩] :=
  rfl

theorem readRequest_eq_none_iff :
    cedar.readRequest (request situation action agentId) = none ↔
      ¬ (cedar.Readable agentId ∧ cedar.Readable action) := by
  rw [readRequest_request, readable_iff, readable_iff]
  cases escapes.readLiteral cedar.follows (agentId.toList ++ ['"']) with
  | none => simp
  | some agent =>
      cases escapes.readLiteral cedar.follows (action.toList ++ ['"']) with
      | none => simp
      | some act => simp

theorem exists_error_of_refused
    (h : cedar.readRequest (request situation action agentId) = none)
    (source : EvaluatorSource) :
    ∃ e, cedar.evaluate jsonText source situation action agentId = .error e := by
  unfold evaluate
  cases policiesFile source with
  | error e => exact ⟨e, rfl⟩
  | ok policies =>
      rw [Except.ok_bind]
      cases hfailure : cedar.failure
          ⟨policies, entities agentId, request situation action agentId⟩ with
      | some e => exact ⟨e, by simp [run, hfailure]⟩
      | none =>
          have hrun : cedar.run
              ⟨policies, entities agentId, request situation action agentId⟩ =
                .ok (cedar.refusal ⟨policies, entities agentId,
                  request situation action agentId⟩).1 := by
            simp [run, hfailure, h]
          rw [hrun, Except.ok_bind,
            if_neg (Bool.eq_false_iff.mp (cedar.refusal _).2)]
          exact ⟨_, rfl⟩

/-- A request that is not refused names these ids. -/
theorem readRequest_eq_some_iff {r : Request} :
    cedar.readRequest (request situation action agentId) = some r ↔
      ∃ agent act,
        escapes.readLiteral cedar.follows (agentId.toList ++ ['"']) =
          some agent ∧
        escapes.readLiteral cedar.follows (action.toList ++ ['"']) =
          some act ∧
        requestOf situation agent act = r := by
  rw [readRequest_request]
  simp only [Option.bind_eq_some_iff, Option.map_eq_some_iff]
  constructor
  · rintro ⟨agent, hagent, act, hact, hr⟩
    exact ⟨agent, act, hagent, hact, hr⟩
  · rintro ⟨agent, act, hagent, hact, hr⟩
    exact ⟨agent, hagent, act, hact, hr⟩

theorem readLiteral_eq_self_iff :
    escapes.readLiteral cedar.follows (s.toList ++ ['"']) = some s.toList ↔
      Plain s :=
  Escapes.readLiteral_eq_self_iff cedar.follows_nil

theorem ofList_eq_iff {id : List Char} : String.ofList id = s ↔ id = s.toList := by
  constructor
  · rintro rfl
    rw [String.toList_ofList]
  · rintro rfl
    rw [String.ofList_toList]

theorem sees_iff :
    cedar.Sees jsonText situation action agentId ↔
      (cedar.Readable agentId ∧ cedar.Readable action →
        Plain agentId ∧ Plain action) := by
  constructor
  · rintro (⟨hnone, -⟩ | ⟨r, hr, -, hprincipal, haction⟩) hread
    · exact absurd hread (readRequest_eq_none_iff.mp hnone)
    · obtain ⟨agent, act, hagent, hact, rfl⟩ := readRequest_eq_some_iff.mp hr
      have hid : String.ofList agent = agentId := congrArg Uid.id hprincipal
      have hidAction : String.ofList act = action := congrArg Uid.id haction
      rw [ofList_eq_iff.mp hid] at hagent
      rw [ofList_eq_iff.mp hidAction] at hact
      exact ⟨readLiteral_eq_self_iff.mp hagent, readLiteral_eq_self_iff.mp hact⟩
  · intro h
    by_cases hread : cedar.Readable agentId ∧ cedar.Readable action
    · obtain ⟨hagent, haction⟩ := h hread
      have hr : cedar.readRequest (request situation action agentId) =
          some (requestOf situation agentId.toList action.toList) :=
        readRequest_eq_some_iff.mpr ⟨_, _, readLiteral_eq_self_iff.mpr hagent,
          readLiteral_eq_self_iff.mpr haction, rfl⟩
      refine Or.inr ⟨_, hr, ?_, ?_, ?_⟩
      · simp [declared_entities, requestOf]
      · simp [requestOf]
      · simp [requestOf]
    · have hnone :
          cedar.readRequest (request situation action agentId) = none :=
        readRequest_eq_none_iff.mpr hread
      exact Or.inl ⟨hnone, exists_error_of_refused hnone⟩

theorem eq_of_sees {situation' : Situation} {action' agentId' : String}
    {r r' : Request} (h : cedar.Sees jsonText situation action agentId)
    (h' : cedar.Sees jsonText situation' action' agentId')
    (hr : cedar.readRequest (request situation action agentId) = some r)
    (hr' : cedar.readRequest (request situation' action' agentId') = some r') :
    (r.principal = r'.principal → agentId = agentId') ∧
      (r.action = r'.action → action = action') := by
  obtain ⟨hnone, -⟩ | ⟨q, hq, -, hprincipal, haction⟩ := h
  · simp [hnone] at hr
  obtain ⟨hnone', -⟩ | ⟨q', hq', -, hprincipal', haction'⟩ := h'
  · simp [hnone'] at hr'
  obtain rfl := Option.some.inj (hq.symm.trans hr)
  obtain rfl := Option.some.inj (hq'.symm.trans hr')
  rw [hprincipal, hprincipal', haction, haction']
  exact ⟨congrArg Uid.id, congrArg Uid.id⟩

namespace Spliced

/-- What is printed for a decision. -/
def printed (decision : String) : Output where
  success := true
  status := "exit status: 0"
  stdout := decision
  envelope := .ok (.object [("decision", .string decision)])
  stderr := ""

def refused : Output where
  success := false
  status := "exit status: 1"
  stdout := ""
  envelope := .error "EOF while parsing a value at line 1 column 0"
  stderr := "failed to parse the request"

/-- A `cedar` that takes nothing after a literal, with a policy that permits
what `bob` does. -/
def onlyBob : Cedar where
  follows := List.isEmpty
  follows_nil := rfl
  failure _ := none
  refusal _ := ⟨refused, rfl⟩
  authorize _ _ r :=
    printed (if r.principal = ⟨"Agent", "bob"⟩ then "Allow" else "Deny")

end Spliced

end Cedar

end Policies

end AgentStateGraph
