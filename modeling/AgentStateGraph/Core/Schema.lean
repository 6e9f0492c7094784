import AgentStateGraph.Lib.KeyedJoin
import AgentStateGraph.Tasks.Document
import AgentStateGraph.Tree.RoundTrip

/-!
# Schema validation

A value is checked against a JSON schema location by location: the keywords of
the schema there, then the members that `properties` and `items` lead to.  A
value of the wrong type is not looked into.
-/

namespace AgentStateGraph

/-! ## Reading JSON values -/

namespace Json

def asArray : Json → Option (List Json)
  | .array items => some items
  | _ => none

def asObject : Json → Option (List (String × Json))
  | .object entries => some entries
  | _ => none

theorem sizeOf_lt_of_lookup {entries : List (String × Json)} {key : String}
    {value : Json} (h : entries.lookup key = some value) :
    sizeOf value < sizeOf entries := by
  induction entries with
  | nil => simp at h
  | cons e entries ih =>
      rw [List.lookup_cons] at h
      obtain ⟨k, v⟩ := e
      split at h
      · obtain rfl := Option.some.inj h
        simp
        omega
      · have := ih h
        simp
        omega

theorem sizeOf_lt_of_asObject {value member : Json}
    {entries : List (String × Json)} {key : String}
    (hentries : value.asObject = some entries)
    (h : entries.lookup key = some member) : sizeOf member < sizeOf value := by
  cases value <;> simp only [asObject, Option.some.injEq, reduceCtorEq] at hentries
  subst hentries
  have := sizeOf_lt_of_lookup h
  simp
  omega

theorem sizeOf_lt_of_asArray {value item : Json} {items : List Json}
    (hitems : value.asArray = some items) (h : item ∈ items) :
    sizeOf item < sizeOf value := by
  cases value <;> simp only [asArray, Option.some.injEq, reduceCtorEq] at hitems
  subst hitems
  have := List.sizeOf_lt_of_mem h
  simp
  omega

end Json

/-! ## Numbers as values -/

/-- A finite double times `2 ^ 1074`, which makes it whole. -/
def F64.scaled (x : F64) : ℤ :=
  let exponent := x.signed.natAbs / 2 ^ 52
  let fraction := x.signed.natAbs % 2 ^ 52
  let magnitude : ℕ :=
    if exponent = 0 then fraction else (2 ^ 52 + fraction) * 2 ^ (exponent - 1)
  x.signed.sign * magnitude

def Number.scaled : Number → ℤ
  | .posInt u => u.toNat * 2 ^ 1074
  | .negInt i => i.toInt * 2 ^ 1074
  | .float f => f.scaled

def Number.isWhole (n : Number) : Bool := n.scaled % 2 ^ 1074 = 0

namespace Json

mutual

/-- Two values are the same when their numbers are, however represented. -/
def same : Json → Json → Bool
  | .null, .null => true
  | .bool b, .bool c => b == c
  | .number n, .number m => n.scaled == m.scaled
  | .string s, .string t => s == t
  | .array xs, .array ys => sameItems xs ys
  | .object xs, .object ys => sameEntries xs ys
  | _, _ => false

def sameItems : List Json → List Json → Bool
  | [], [] => true
  | x :: xs, y :: ys => same x y && sameItems xs ys
  | _, _ => false

def sameEntries : List (String × Json) → List (String × Json) → Bool
  | [], [] => true
  | (k, x) :: xs, (l, y) :: ys => k == l && same x y && sameEntries xs ys
  | _, _ => false

end

theorem scaled_eq_of_beq {n m : Number} (h : n.beq m = true) :
    n.scaled = m.scaled := by
  cases n <;> cases m <;> simp only [Number.beq, Bool.false_eq_true] at h
  · rw [eq_of_beq h]
  · rw [eq_of_beq h]
  · simp only [F64.eq, Bool.and_eq_true, beq_iff_eq] at h
    simp only [Number.scaled, F64.scaled, h.2]

mutual

theorem same_of_beq : ∀ {x y : Json}, x.beq y = true → x.same y = true
  | .null, y, h => by cases y <;> simp_all [beq, same]
  | .bool _, y, h => by cases y <;> simp_all [beq, same]
  | .number _, y, h => by
      cases y <;> simp_all [beq, same]
      exact scaled_eq_of_beq h
  | .string _, y, h => by cases y <;> simp_all [beq, same]
  | .array xs, y, h => by
      cases y <;> simp only [beq, Bool.false_eq_true] at h
      exact sameItems_of_beqItems h
  | .object xs, y, h => by
      cases y <;> simp only [beq, Bool.false_eq_true] at h
      exact sameEntries_of_beqEntries h

theorem sameItems_of_beqItems : ∀ {xs ys : List Json},
    beqItems xs ys = true → sameItems xs ys = true
  | [], [], _ => rfl
  | [], _ :: _, h => by simp [beqItems] at h
  | _ :: _, [], h => by simp [beqItems] at h
  | x :: xs, y :: ys, h => by
      simp only [beqItems, Bool.and_eq_true] at h
      simp only [sameItems, Bool.and_eq_true]
      exact ⟨same_of_beq h.1, sameItems_of_beqItems h.2⟩

theorem sameEntries_of_beqEntries : ∀ {xs ys : List (String × Json)},
    beqEntries xs ys = true → sameEntries xs ys = true
  | [], [], _ => rfl
  | [], _ :: _, h => by simp [beqEntries] at h
  | _ :: _, [], h => by simp [beqEntries] at h
  | (k, x) :: xs, (l, y) :: ys, h => by
      simp only [beqEntries, Bool.and_eq_true] at h
      simp only [sameEntries, Bool.and_eq_true]
      exact ⟨⟨h.1.1, same_of_beq h.1.2⟩, sameEntries_of_beqEntries h.2⟩

end

end Json

namespace Schema

/-! ## The code -/

/-- A step from a value to a member of it. -/
inductive Step where
  | key (k : String)
  | index (i : ℕ)
deriving DecidableEq

/-- An error, at a path of whatever type the paths are. -/
structure ValidationError (π : Type) where
  path : π
  message : String
  expected : Option String
  actual : Option String
deriving DecidableEq

/-- The same error at another type of paths. -/
def ValidationError.map {π ρ : Type} (f : π → ρ) (e : ValidationError π) :
    ValidationError ρ where
  path := f e.path
  message := e.message
  expected := e.expected
  actual := e.actual

structure ValidationResult where
  valid : Bool
  errors : List (ValidationError String)
  warnings : List String

def jsonTypeName : Json → String
  | .null => "null"
  | .bool _ => "boolean"
  | .number (.float _) => "number"
  | .number _ => "integer"
  | .string _ => "string"
  | .array _ => "array"
  | .object _ => "object"

section Code

variable {π : Type}

def typeError (expectedType actualType : String) (path : π) :
    ValidationError π where
  path := path
  message := s!"expected type '{expectedType}', found '{actualType}'"
  expected := some expectedType
  actual := some actualType

def requiredError (key : String) (path : π) : ValidationError π where
  path := path
  message := s!"required field '{key}' is missing"
  expected := some "present"
  actual := some "missing"

/-- The `Debug` text of a list. -/
def debugList (debug : Json → String) (items : List Json) : String :=
  "[" ++ ", ".intercalate (items.map debug) ++ "]"

def enumError (debug : Json → String) (enumValues : List Json) (value : Json)
    (path : π) : ValidationError π where
  path := path
  message := "value not in allowed enum: " ++ debug value
  expected := some (debugList debug enumValues)
  actual := some (debug value)

/-- The type that the schema asks for, when the value is of another. -/
def wrongType (schema value : Json) : Option String :=
  ((schema.get "type").bind Json.asStr).filter (· ≠ jsonTypeName value)

def requiredKeys (schema : Json) : List String :=
  (((schema.get "required").bind Json.asArray).getD []).filterMap Json.asStr

def enumValues (schema : Json) : Option (List Json) :=
  (schema.get "enum").bind Json.asArray

def properties (schema : Json) : List (String × Json) :=
  ((schema.get "properties").bind Json.asObject).getD []

variable (child : π → Step → π) (debug : Json → String)

/-- The checks of required fields and enum values. -/
def checkFields (schema value : Json) (path : π) : List (ValidationError π) :=
  (match value.asObject with
    | some entries =>
        ((requiredKeys schema).filter fun key => (entries.lookup key).isNone).map
          fun key => requiredError key (child path (.key key))
    | none => []) ++
  (match enumValues schema with
    | some allowed =>
        if allowed.any (·.beq value) then []
        else [enumError debug allowed value path]
    | none => [])

/-- `validate_recursive`, where a path goes on by a step as `child` says.  A
schema without `properties` or `required` has none of them. -/
def validateRecursive (schema value : Json) (path : π) :
    List (ValidationError π) :=
  match wrongType schema value with
  | some expectedType => [typeError expectedType (jsonTypeName value) path]
  | none =>
      checkFields child debug schema value path ++
      (match hentries : value.asObject with
        | some entries =>
            (properties schema).flatMap fun (key, propSchema) =>
              match hvalue : entries.lookup key with
              | some propValue =>
                  have := Json.sizeOf_lt_of_asObject hentries hvalue
                  validateRecursive propSchema propValue (child path (.key key))
              | none => []
        | none => []) ++
      (match schema.get "items", hitems : value.asArray with
        | some itemsSchema, some items =>
            items.attach.zipIdx.flatMap fun (item, i) =>
              have := Json.sizeOf_lt_of_asArray hitems item.property
              validateRecursive itemsSchema item.val (child path (.index i))
        | _, _ => [])
termination_by sizeOf value

/-- `format!("{}/{}", path, step)`. -/
def childPath (path : String) : Step → String
  | .key k => s!"{path}/{k}"
  | .index i => s!"{path}/{i}"

/-- `Schema::validate`. -/
def validate (schema value : Json) : ValidationResult :=
  let errors := validateRecursive childPath debug schema value ""
  { valid := errors.isEmpty, errors := errors, warnings := [] }

end Code

/-! ## What the keywords mean -/

/-- Whether a value is of the type with this name. -/
def hasType (word : String) : Json → Bool
  | .null => word = "null"
  | .bool _ => word = "boolean"
  | .number n => word = "number" || word = "integer" && n.isWhole
  | .string _ => word = "string"
  | .array _ => word = "array"
  | .object _ => word = "object"

/-- The types that a schema allows, by one name or by several. -/
def types (schema : Json) : Option (List String) :=
  match schema.get "type" with
  | some (.string word) => some [word]
  | some (.array words) => some (words.filterMap Json.asStr)
  | _ => none

inductive Keyword where
  | type
  | required (key : String)
  | enum
deriving DecidableEq

/-- The value violates the keyword, wherever it stands. -/
def Violates (schema value : Json) : Keyword → Prop
  | .type => ∃ words, types schema = some words ∧
      ∀ word ∈ words, hasType word value = false
  | .required key => key ∈ requiredKeys schema ∧
      ∃ entries, value.asObject = some entries ∧ entries.lookup key = none
  | .enum => ∃ allowed, enumValues schema = some allowed ∧
      ∀ a ∈ allowed, a.same value = false

/-- The schema and the value that `properties` or `items` leads to. -/
inductive Child (schema value : Json) : Step → Json → Json → Prop
  | property {entries : List (String × Json)} {key : String}
      {propSchema propValue : Json} (hvalue : value.asObject = some entries)
      (hschema : (key, propSchema) ∈ properties schema)
      (hget : entries.lookup key = some propValue) :
      Child schema value (.key key) propSchema propValue
  | item {items : List Json} {i : ℕ} {itemsSchema item : Json}
      (hvalue : value.asArray = some items)
      (hschema : schema.get "items" = some itemsSchema)
      (hget : items[i]? = some item) :
      Child schema value (.index i) itemsSchema item

/-- A location below a value and what is there, each step from a place where
the walk `goes` on. -/
inductive Leads (goes : Json → Json → Prop) :
    Json → Json → List Step → Json → Json → Prop
  | here {schema value : Json} : Leads goes schema value [] schema value
  | step {schema value schema' value' schema'' value'' : Json} {st : Step}
      {loc : List Step} (hgoes : goes schema value)
      (hchild : Child schema value st schema' value')
      (hrest : Leads goes schema' value' loc schema'' value'') :
      Leads goes schema value (st :: loc) schema'' value''

/-- The locations of a value that the schema says something about. -/
abbrev Reaches := Leads fun _ _ => True

def Conforms (schema value : Json) : Prop :=
  ∀ loc schema' value' keyword, Reaches schema value loc schema' value' →
    ¬ Violates schema' value' keyword

/-- The text of a location. -/
def pathText (loc : List Step) : String := loc.foldl childPath ""

/-- The errors of the code, located by their steps. -/
def locatedErrors (debug : Json → String) (schema value : Json) :
    List (ValidationError (List Step)) :=
  validateRecursive (fun path st => path ++ [st]) debug schema value []

/-- The error says that the keyword is violated at the location; a missing
field is located where it should be. -/
def Reports (debug : Json → String) (schema value : Json) (loc : List Step) :
    Keyword → ValidationError (List Step) → Prop
  | .type, e => ∃ word, e = typeError word (jsonTypeName value) loc
  | .required key, e => e = requiredError key (loc ++ [.key key])
  | .enum, e => ∃ allowed, enumValues schema = some allowed ∧
      e = enumError debug allowed value loc

/-- The verdict is that of the keywords, and each violation is reported. -/
structure Exact (debug : Json → String) (schema value : Json) : Prop where
  valid_iff : (validate debug schema value).valid = true ↔ Conforms schema value
  reported : ∀ loc schema' value' keyword,
    Reaches schema value loc schema' value' →
    Violates schema' value' keyword →
      ∃ e ∈ locatedErrors debug schema value,
        Reports debug schema' value' loc keyword e ∧
          e.map pathText ∈ (validate debug schema value).errors

/-- Where the type name is not the code's own for the value, nothing else is
violated there or below; a violated type is given by one name; and a value that
conforms has the code's own type names and numbers throughout. -/
structure Literal (schema value : Json) : Prop where
  alone : ∀ loc schema' value' below schema'' value'' keyword,
    Reaches schema value loc schema' value' →
    wrongType schema' value' ≠ none →
    Reaches schema' value' below schema'' value'' →
    Violates schema'' value'' keyword → below = [] ∧ keyword = .type
  named : ∀ loc schema' value', Reaches schema value loc schema' value' →
    Violates schema' value' .type → wrongType schema' value' ≠ none
  spelled : Conforms schema value → ∀ loc schema' value',
    Reaches schema value loc schema' value' →
    wrongType schema' value' = none ∧
      ∀ allowed, enumValues schema' = some allowed →
        allowed.any (·.beq value') = true

/-! ## What the code reports -/

section Errors

variable {π : Type} {child : π → Step → π} {debug : Json → String}

/-- The errors of one place. -/
def localErrors (child : π → Step → π) (debug : Json → String)
    (schema value : Json) (path : π) : List (ValidationError π) :=
  match wrongType schema value with
  | some expectedType => [typeError expectedType (jsonTypeName value) path]
  | none => checkFields child debug schema value path

/-- The walk of the code stops where the type is wrong. -/
abbrev Visits := Leads fun schema value => wrongType schema value = none

variable {schema value : Json} {path : π} {e : ValidationError π}

theorem Leads.mono {goes goes' : Json → Json → Prop} {schema' value' : Json}
    {loc : List Step} (h : ∀ s v, goes s v → goes' s v)
    (hleads : Leads goes schema value loc schema' value') :
    Leads goes' schema value loc schema' value' := by
  induction hleads with
  | here => exact .here
  | step hgoes hchild _ ih => exact .step (h _ _ hgoes) hchild ih

theorem Child.sizeOf_lt {schema' value' : Json} {st : Step}
    (h : Child schema value st schema' value') :
    sizeOf value' < sizeOf value := by
  cases h with
  | property hvalue _ hget => exact Json.sizeOf_lt_of_asObject hvalue hget
  | item hvalue _ hget =>
      exact Json.sizeOf_lt_of_asArray hvalue (List.mem_of_getElem? hget)

theorem mem_zipIdx_attach_iff {items : List Json} {i : ℕ}
    {item : {item // item ∈ items}} :
    (item, i) ∈ items.attach.zipIdx ↔ items[i]? = some item.val := by
  rw [List.mem_zipIdx_iff_getElem?]
  dsimp only
  rw [List.getElem?_eq_some_iff, List.getElem?_eq_some_iff]
  constructor
  · rintro ⟨hi, hitem⟩
    rw [List.getElem_attach] at hitem
    exact ⟨by simpa using hi, congrArg Subtype.val hitem⟩
  · rintro ⟨hi, hitem⟩
    refine ⟨by simpa using hi, ?_⟩
    rw [List.getElem_attach]
    exact Subtype.ext hitem

theorem mem_validateRecursive_iff :
    e ∈ validateRecursive child debug schema value path ↔
      e ∈ localErrors child debug schema value path ∨
        wrongType schema value = none ∧ ∃ st schema' value',
          Child schema value st schema' value' ∧
          e ∈ validateRecursive child debug schema' value' (child path st) := by
  rw [validateRecursive.eq_def, localErrors]
  cases hwrong : wrongType schema value with
  | some word => simp
  | none =>
      simp only [List.mem_append, true_and]
      rw [or_assoc]
      apply or_congr_right
      constructor
      · rintro (h | h)
        · split at h
          case h_1 entries hentries =>
            obtain ⟨⟨key, propSchema⟩, hprop, h⟩ := List.mem_flatMap.mp h
            dsimp only at h
            split at h
            case h_1 propValue hget =>
              exact ⟨.key key, propSchema, propValue,
                .property hentries hprop hget, h⟩
            case h_2 => simp at h
          case h_2 => simp at h
        · split at h
          case h_1 itemsSchema items hschema hitems =>
            obtain ⟨⟨item, i⟩, hi, h⟩ := List.mem_flatMap.mp h
            have hget := mem_zipIdx_attach_iff.mp hi
            exact ⟨.index i, itemsSchema, item.val, .item hitems hschema hget, h⟩
          case h_2 => simp at h
      · rintro ⟨st, schema', value', hchild, h⟩
        cases hchild with
        | property hvalue hschema hget =>
            left
            split
            case h_1 entries hentries =>
              obtain rfl := Option.some.inj (hvalue.symm.trans hentries)
              apply List.mem_flatMap.mpr
              refine ⟨_, hschema, ?_⟩
              dsimp only
              split
              case h_1 propValue hget' =>
                obtain rfl := Option.some.inj (hget.symm.trans hget')
                exact h
              case h_2 hnone => simp [hget] at hnone
            case h_2 hnone => simp [hvalue] at hnone
        | item hvalue hschema hget =>
            right
            split
            case h_1 itemsSchema items hschema' hitems =>
              obtain rfl := Option.some.inj (hvalue.symm.trans hitems)
              obtain rfl := Option.some.inj (hschema.symm.trans hschema')
              apply List.mem_flatMap.mpr
              exact ⟨(⟨_, List.mem_of_getElem? hget⟩, _),
                mem_zipIdx_attach_iff.mpr hget, h⟩
            case h_2 hnone => exact absurd hvalue (hnone _ _ hschema)

theorem mem_validateRecursive_iff_visits :
    e ∈ validateRecursive child debug schema value path ↔
      ∃ loc schema' value', Visits schema value loc schema' value' ∧
        e ∈ localErrors child debug schema' value' (loc.foldl child path) := by
  constructor
  · intro h
    induction hsize : sizeOf value using Nat.strong_induction_on
      generalizing schema value path with
    | _ n ih =>
        rcases mem_validateRecursive_iff.mp h with h | ⟨htype, st, s, v, hchild, h⟩
        · exact ⟨[], schema, value, .here, h⟩
        · obtain ⟨loc, s', v', hvisits, h⟩ :=
            ih (sizeOf v) (hsize ▸ hchild.sizeOf_lt) h rfl
          exact ⟨st :: loc, s', v', .step htype hchild hvisits, h⟩
  · rintro ⟨loc, s', v', hvisits, h⟩
    induction hvisits generalizing path with
    | here => exact mem_validateRecursive_iff.mpr (Or.inl h)
    | step htype hchild _ ih =>
        exact mem_validateRecursive_iff.mpr
          (Or.inr ⟨htype, _, _, _, hchild, ih h⟩)

theorem map_checkFields {ρ : Type} {child' : ρ → Step → ρ} {f : π → ρ}
    (hchild : ∀ path st, child' (f path) st = f (child path st))
    (schema value : Json) (path : π) :
    checkFields child' debug schema value (f path) =
      (checkFields child debug schema value path).map (.map f) := by
  rw [checkFields, checkFields, List.map_append]
  congr 1
  · cases value.asObject with
    | none => rfl
    | some entries =>
        rw [List.map_map]
        apply List.map_congr_left
        intro key _
        rw [hchild]
        rfl
  · cases enumValues schema with
    | none => rfl
    | some allowed =>
        dsimp only
        split <;> rfl

theorem map_validateRecursive {ρ : Type} {child' : ρ → Step → ρ} {f : π → ρ}
    (hchild : ∀ path st, child' (f path) st = f (child path st))
    (schema value : Json) (path : π) :
    validateRecursive child' debug schema value (f path) =
      (validateRecursive child debug schema value path).map (.map f) := by
  induction hsize : sizeOf value using Nat.strong_induction_on
    generalizing schema value path with
  | _ n ih =>
      rw [validateRecursive.eq_def, validateRecursive.eq_def]
      cases wrongType schema value with
      | some word => rfl
      | none =>
          dsimp only
          rw [List.map_append, List.map_append, map_checkFields hchild]
          congr 1
          · congr 1
            split
            case h_1 entries hentries =>
              rw [List.map_flatMap]
              apply List.flatMap_congr
              rintro ⟨key, propSchema⟩ -
              dsimp only
              split
              case h_1 propValue hget =>
                have hlt := Json.sizeOf_lt_of_asObject hentries hget
                rw [hchild]
                exact ih _ (hsize ▸ hlt) _ _ _ rfl
              case h_2 => rfl
            case h_2 => rfl
          · split
            case h_1 itemsSchema items _ hitems =>
              rw [List.map_flatMap]
              apply List.flatMap_congr
              rintro ⟨item, i⟩ -
              have hlt := Json.sizeOf_lt_of_asArray hitems item.property
              dsimp only
              rw [hchild]
              exact ih _ (hsize ▸ hlt) _ _ _ rfl
            case h_2 => rfl

/-! ### The report of one place -/

theorem mem_checkFields_iff :
    e ∈ checkFields child debug schema value path ↔
      (∃ key, Violates schema value (.required key) ∧
        e = requiredError key (child path (.key key))) ∨
      ∃ allowed, enumValues schema = some allowed ∧
        allowed.any (·.beq value) = false ∧
        e = enumError debug allowed value path := by
  rw [checkFields, List.mem_append]
  apply or_congr
  · cases hentries : value.asObject with
    | none => simp [Violates, hentries]
    | some entries =>
        simp only [Violates, hentries, List.mem_map, List.mem_filter,
          Option.isNone_iff_eq_none, Option.some.injEq, exists_eq_left']
        constructor
        · rintro ⟨key, ⟨hkey, hnone⟩, rfl⟩
          exact ⟨key, ⟨hkey, hnone⟩, rfl⟩
        · rintro ⟨key, ⟨hkey, hnone⟩, rfl⟩
          exact ⟨key, ⟨hkey, hnone⟩, rfl⟩
  · cases hallowed : enumValues schema with
    | none => simp
    | some allowed =>
        simp only [Option.some.injEq, exists_eq_left']
        by_cases hany : allowed.any (·.beq value) = true
        · rw [if_pos hany, hany]
          simp
        · rw [if_neg hany, Bool.eq_false_of_not_eq_true hany]
          simp

/-- A message starts with a letter that tells the keyword. -/
def initial (e : ValidationError π) : Option Char := e.message.toList.head?

theorem initial_typeError (expectedType actualType : String) (path : π) :
    initial (typeError expectedType actualType path) = some 'e' := by
  simp only [initial, typeError, String.toList_append, List.append_assoc,
    List.head?_append]
  rfl

theorem initial_requiredError (key : String) (path : π) :
    initial (requiredError key path) = some 'r' := by
  simp only [initial, requiredError, String.toList_append, List.append_assoc,
    List.head?_append]
  rfl

theorem initial_enumError (allowed : List Json) (value : Json) (path : π) :
    initial (enumError debug allowed value path) = some 'v' := by
  simp only [initial, enumError, String.toList_append, List.head?_append]
  rfl

end Errors

/-! ## One place at each location -/

theorem isCanonical_of_mem {entries : List (String × Json)} {key : String}
    {member : Json} (hc : Json.entriesCanonical entries = true)
    (h : (key, member) ∈ entries) : member.isCanonical = true := by
  induction entries with
  | nil => simp at h
  | cons e entries ih =>
      simp only [Json.entriesCanonical, Bool.and_eq_true] at hc
      rcases List.mem_cons.mp h with rfl | h
      · exact hc.1
      · exact ih hc.2 h

section

variable {schema value s v s' v' : Json} {loc : List Step}

theorem isCanonical_of_get {member : Json} {key : String}
    (hc : schema.isCanonical = true) (h : schema.get key = some member) :
    member.isCanonical = true := by
  cases schema with
  | object entries =>
      simp only [Json.isCanonical, Bool.and_eq_true] at hc
      obtain ⟨l₁, l₂, hsplit, -⟩ := List.lookup_eq_some_iff.mp h
      have hmem : (key, member) ∈ entries := by
        rw [show entries = l₁ ++ (key, member) :: l₂ from hsplit]
        simp
      exact isCanonical_of_mem hc.2 hmem
  | _ => simp [Json.get, Json.entries] at h

theorem properties_canonical (hc : schema.isCanonical = true) :
    ((properties schema).map Prod.fst).Nodup ∧
      Json.entriesCanonical (properties schema) = true := by
  rw [properties]
  cases hget : schema.get "properties" with
  | none => simp [Json.entriesCanonical]
  | some props =>
      have hprops := isCanonical_of_get hc hget
      rw [Option.bind_some]
      cases props with
      | object entries =>
          simp only [Json.isCanonical, Bool.and_eq_true, decide_eq_true_eq] at hprops
          exact ⟨hprops.1.imp fun h => h.ne, hprops.2⟩
      | _ => simp [Json.asObject, Json.entriesCanonical]

theorem Child.isCanonical {schema' value' : Json} {st : Step}
    (h : Child schema value st schema' value')
    (hc : schema.isCanonical = true) : schema'.isCanonical = true := by
  cases h with
  | property _ hschema _ =>
      exact isCanonical_of_mem (properties_canonical hc).2 hschema
  | item _ hschema _ => exact isCanonical_of_get hc hschema

theorem Child.unique {st : Step} (hc : schema.isCanonical = true)
    (h : Child schema value st s v) (h' : Child schema value st s' v') :
    s = s' ∧ v = v' := by
  cases h with
  | property hvalue hschema hget =>
      cases h' with
      | property hvalue' hschema' hget' =>
          obtain rfl := Option.some.inj (hvalue.symm.trans hvalue')
          have hnodup := (properties_canonical hc).1
          have hlookup := KeyedJoin.lookup_of_mem hnodup hschema
          have hlookup' := KeyedJoin.lookup_of_mem hnodup hschema'
          exact ⟨Option.some.inj (hlookup.symm.trans hlookup'),
            Option.some.inj (hget.symm.trans hget')⟩
  | item hvalue hschema hget =>
      cases h' with
      | item hvalue' hschema' hget' =>
          obtain rfl := Option.some.inj (hvalue.symm.trans hvalue')
          exact ⟨Option.some.inj (hschema.symm.trans hschema'),
            Option.some.inj (hget.symm.trans hget')⟩

theorem Leads.unique {goes goes' : Json → Json → Prop}
    (hc : schema.isCanonical = true) (h : Leads goes schema value loc s v)
    (h' : Leads goes' schema value loc s' v') : s = s' ∧ v = v' := by
  induction h with
  | here =>
      cases h'
      exact ⟨rfl, rfl⟩
  | step _ hchild _ ih =>
      cases h' with
      | step _ hchild' hrest' =>
          obtain ⟨rfl, rfl⟩ := hchild.unique hc hchild'
          exact ih (hchild.isCanonical hc) hrest'

theorem Leads.append {goes : Json → Json → Prop} {below : List Step}
    (h : Leads goes schema value loc s v)
    (hbelow : Leads goes s v below s' v') :
    Leads goes schema value (loc ++ below) s' v' := by
  induction h with
  | here => exact hbelow
  | step hgoes hchild _ ih => exact .step hgoes hchild (ih hbelow)

theorem visits_or_stops (h : Reaches schema value loc s v) :
    Visits schema value loc s v ∨
      ∃ above below s' v', loc = above ++ below ∧ below ≠ [] ∧
        Visits schema value above s' v' ∧ wrongType s' v' ≠ none ∧
        Reaches s' v' below s v := by
  induction h with
  | here => exact Or.inl .here
  | @step schema value schema' value' s v st loc _ hchild hrest ih =>
      by_cases htype : wrongType schema value = none
      · rcases ih with hvisits | ⟨above, below, s', v', rfl, hbelow, hvisits, hs⟩
        · exact Or.inl (.step htype hchild hvisits)
        · exact Or.inr ⟨st :: above, below, s', v', rfl, hbelow,
            .step htype hchild hvisits, hs⟩
      · exact Or.inr ⟨[], st :: loc, schema, value, rfl, by simp, .here, htype,
          .step trivial hchild hrest⟩

theorem not_visits_below {above below : List Step}
    (hc : schema.isCanonical = true) (h : Reaches schema value above s v)
    (htype : wrongType s v ≠ none) (hbelow : below ≠ []) :
    ¬ Visits schema value (above ++ below) s' v' := by
  intro hvisits
  induction h with
  | here =>
      cases hvisits with
      | here => exact hbelow rfl
      | step hnone => exact htype hnone
  | step _ hchild _ ih =>
      cases hvisits with
      | step _ hchild' hrest =>
          obtain ⟨rfl, rfl⟩ := hchild.unique hc hchild'
          exact ih (hchild.isCanonical hc) htype hrest

end

/-! ## When the code is exact -/

section Exactness

variable {debug : Json → String}

theorem foldl_steps (loc path : List Step) :
    loc.foldl (fun path st => path ++ [st]) path = path ++ loc := by
  induction loc generalizing path with
  | nil => simp
  | cons st loc ih => simp [ih]

variable {schema value : Json} {e : ValidationError (List Step)}
  {loc : List Step} {keyword : Keyword}

theorem mem_locatedErrors_iff :
    e ∈ locatedErrors debug schema value ↔ ∃ loc s v,
      Visits schema value loc s v ∧
        e ∈ localErrors (fun path st => path ++ [st]) debug s v loc := by
  rw [locatedErrors, mem_validateRecursive_iff_visits]
  simp only [foldl_steps, List.nil_append]

def Keyword.initial : Keyword → Char
  | .type => 'e'
  | .required _ => 'r'
  | .enum => 'v'

theorem Reports.initial (h : Reports debug schema value loc keyword e) :
    initial e = some keyword.initial := by
  cases keyword with
  | type =>
      obtain ⟨word, rfl⟩ := h
      exact initial_typeError _ _ _
  | required key =>
      rw [show e = _ from h]
      exact initial_requiredError _ _
  | enum =>
      obtain ⟨allowed, -, rfl⟩ := h
      exact initial_enumError _ _ _

theorem Reports.unique {schema' value' : Json} {loc' : List Step}
    {keyword' : Keyword} (h : Reports debug schema value loc keyword e)
    (h' : Reports debug schema' value' loc' keyword' e) :
    loc = loc' ∧ keyword = keyword' := by
  have hinitial : keyword.initial = keyword'.initial :=
    Option.some.inj (h.initial.symm.trans h'.initial)
  cases keyword <;> cases keyword' <;>
    simp only [Keyword.initial, Char.reduceEq] at hinitial
  case type.type =>
    obtain ⟨word, rfl⟩ := h
    obtain ⟨word', heq⟩ := h'
    exact ⟨congrArg ValidationError.path heq, rfl⟩
  case required.required key key' =>
    have hpath : loc ++ [.key key] = loc' ++ [.key key'] :=
      congrArg ValidationError.path (show e = _ from h).symm |>.trans
        (congrArg ValidationError.path (show e = _ from h'))
    obtain ⟨rfl, hkey⟩ := List.append_inj' hpath rfl
    simp only [List.cons.injEq, Step.key.injEq, and_true] at hkey
    exact ⟨rfl, congrArg Keyword.required hkey⟩
  case enum.enum =>
    obtain ⟨allowed, -, rfl⟩ := h
    obtain ⟨allowed', -, heq⟩ := h'
    exact ⟨congrArg ValidationError.path heq, rfl⟩

theorem exists_reports
    (h : e ∈ localErrors (fun path st => path ++ [st]) debug schema value loc) :
    ∃ keyword, Reports debug schema value loc keyword e ∧
      (wrongType schema value ≠ none ↔ keyword = .type) := by
  rw [localErrors] at h
  cases htype : wrongType schema value with
  | some word =>
      rw [htype, List.mem_singleton] at h
      exact ⟨.type, ⟨word, h⟩, by simp⟩
  | none =>
      rw [htype] at h
      rcases mem_checkFields_iff.mp h with ⟨key, -, rfl⟩ | ⟨allowed, hallowed, -, rfl⟩
      · exact ⟨.required key, rfl, by simp⟩
      · exact ⟨.enum, ⟨allowed, hallowed, rfl⟩, by simp⟩

theorem exists_mem_localErrors {schema value : Json}
    {keyword : Keyword} (h : Violates schema value keyword)
    (hright : keyword ≠ .type → wrongType schema value = none)
    (hnamed : keyword = .type → wrongType schema value ≠ none)
    (loc : List Step) :
    ∃ e ∈ localErrors (fun path st => path ++ [st]) debug schema value loc,
      Reports debug schema value loc keyword e := by
  cases keyword with
  | type =>
      obtain ⟨word, hword⟩ := Option.ne_none_iff_exists'.mp (hnamed rfl)
      exact ⟨typeError word (jsonTypeName value) loc,
        by simp [localErrors, hword], word, rfl⟩
  | required key =>
      refine ⟨requiredError key (loc ++ [.key key]), ?_, show _ = _ from rfl⟩
      rw [localErrors, hright (by simp)]
      exact mem_checkFields_iff.mpr (Or.inl ⟨key, h, rfl⟩)
  | enum =>
      obtain ⟨allowed, hallowed, hnot⟩ := h
      refine ⟨enumError debug allowed value loc, ?_, allowed, hallowed, rfl⟩
      rw [localErrors, hright (by simp)]
      refine mem_checkFields_iff.mpr (Or.inr ⟨allowed, hallowed, ?_, rfl⟩)
      rw [List.any_eq_false]
      intro a ha hbeq
      exact absurd (Json.same_of_beq hbeq) (by simp [hnot a ha])

/-- The errors that `validate` returns, with their paths as texts. -/
theorem validate_errors (schema value : Json) :
    (validate debug schema value).errors =
      (locatedErrors debug schema value).map (.map pathText) := by
  have hchild : ∀ (loc : List Step) (st : Step),
      childPath (pathText loc) st = pathText (loc ++ [st]) := by
    intro loc st
    simp [pathText]
  exact map_validateRecursive hchild schema value []

theorem validate_valid_iff :
    (validate debug schema value).valid = true ↔
      locatedErrors debug schema value = [] := by
  have herrors := @validate_errors debug schema value
  change (validate debug schema value).errors.isEmpty = true ↔ _
  rw [herrors, List.isEmpty_iff, List.map_eq_nil_iff]

theorem map_mem_errors (h : e ∈ locatedErrors debug schema value) :
    e.map pathText ∈ (validate debug schema value).errors := by
  rw [validate_errors]
  exact List.mem_map_of_mem h

theorem conforms_of_valid
    (hreported : ∀ loc s v keyword, Reaches schema value loc s v →
      Violates s v keyword →
        ∃ e ∈ locatedErrors debug schema value,
          Reports debug s v loc keyword e ∧
            e.map pathText ∈ (validate debug schema value).errors)
    (h : (validate debug schema value).valid = true) :
    Conforms schema value := by
  intro loc s v keyword hreaches hviolates
  obtain ⟨e, he, -⟩ := hreported loc s v keyword hreaches hviolates
  rw [validate_valid_iff.mp h] at he
  exact List.not_mem_nil he

theorem visits_of_reported {s v : Json} (hc : schema.isCanonical = true)
    (hreaches : Reaches schema value loc s v)
    (h : ∃ e ∈ locatedErrors debug schema value,
      Reports debug s v loc keyword e ∧
        e.map pathText ∈ (validate debug schema value).errors) :
    Visits schema value loc s v ∧ (wrongType s v ≠ none ↔ keyword = .type) := by
  obtain ⟨e, he, hreports, -⟩ := h
  obtain ⟨loc', s', v', hvisits, hlocal⟩ := mem_locatedErrors_iff.mp he
  obtain ⟨keyword', hreports', htype⟩ := exists_reports hlocal
  obtain ⟨rfl, rfl⟩ := hreports.unique hreports'
  obtain ⟨rfl, rfl⟩ := hreaches.unique hc hvisits
  exact ⟨hvisits, htype⟩

theorem literal_of_exact (hc : schema.isCanonical = true)
    (h : Exact debug schema value) : Literal schema value where
  alone := by
    intro loc s v below s' v' keyword hreaches hwrong hbelow hviolates
    have hdeep := hreaches.append hbelow
    obtain ⟨hvisits, htype⟩ := visits_of_reported hc hdeep
      (h.reported _ _ _ _ hdeep hviolates)
    have hempty : below = [] := by
      by_contra hne
      exact not_visits_below hc hreaches hwrong hne hvisits
    subst hempty
    obtain ⟨rfl, rfl⟩ : s' = s ∧ v' = v := by
      cases hbelow
      exact ⟨rfl, rfl⟩
    exact ⟨rfl, htype.mp hwrong⟩
  named := by
    intro loc s v hreaches hviolates
    exact (visits_of_reported hc hreaches
      (h.reported _ _ _ _ hreaches hviolates)).2.mpr rfl
  spelled := by
    intro hconforms loc s v hreaches
    have hnil := validate_valid_iff.mp (h.valid_iff.mpr hconforms)
    have hlocal : ∀ loc' s' v', Visits schema value loc' s' v' →
        localErrors (fun path st => path ++ [st]) debug s' v' loc' = [] := by
      intro loc' s' v' hvisits
      apply List.eq_nil_iff_forall_not_mem.mpr
      intro e he
      have hmem := mem_locatedErrors_iff.mpr ⟨loc', s', v', hvisits, he⟩
      rw [hnil] at hmem
      exact List.not_mem_nil hmem
    have hright : ∀ loc' s' v', Visits schema value loc' s' v' →
        wrongType s' v' = none := by
      intro loc' s' v' hvisits
      by_contra hwrong
      obtain ⟨word, hword⟩ := Option.ne_none_iff_exists'.mp hwrong
      have hempty := hlocal _ _ _ hvisits
      rw [localErrors, hword] at hempty
      exact List.cons_ne_nil _ _ hempty
    have hvisits : Visits schema value loc s v := by
      rcases visits_or_stops hreaches with hvisits | ⟨_, _, _, _, -, -, hv, hw, -⟩
      · exact hvisits
      · exact absurd (hright _ _ _ hv) hw
    refine ⟨hright _ _ _ hvisits, ?_⟩
    intro allowed hallowed
    by_contra hany
    have hempty := hlocal _ _ _ hvisits
    rw [localErrors, hright _ _ _ hvisits] at hempty
    have hmem : enumError debug allowed v loc ∈
        checkFields (fun path st => path ++ [st]) debug s v loc :=
      mem_checkFields_iff.mpr (Or.inr ⟨allowed, hallowed,
        Bool.eq_false_of_not_eq_true hany, rfl⟩)
    dsimp only at hempty
    rw [hempty] at hmem
    exact List.not_mem_nil hmem

theorem exact_of_literal (h : Literal schema value) :
    Exact debug schema value := by
  have hreported : ∀ loc s v keyword, Reaches schema value loc s v →
      Violates s v keyword →
        ∃ e ∈ locatedErrors debug schema value,
          Reports debug s v loc keyword e ∧
            e.map pathText ∈ (validate debug schema value).errors := by
    intro loc s v keyword hreaches hviolates
    have hvisits : Visits schema value loc s v := by
      rcases visits_or_stops hreaches with
        hvisits | ⟨above, below, s', v', -, hne, hv, hwrong, hbelow⟩
      · exact hvisits
      · have hv' := hv.mono fun _ _ _ => trivial
        exact absurd (h.alone _ _ _ _ _ _ _ hv' hwrong hbelow hviolates).1 hne
    have hright : keyword ≠ .type → wrongType s v = none := by
      intro hkeyword
      by_contra hwrong
      exact hkeyword (h.alone _ _ _ _ _ _ _ hreaches hwrong .here hviolates).2
    have hnamed : keyword = .type → wrongType s v ≠ none := by
      rintro rfl
      exact h.named _ _ _ hreaches hviolates
    obtain ⟨e, he, hreports⟩ :=
      @exists_mem_localErrors debug _ _ _ hviolates hright hnamed loc
    have hmem : e ∈ locatedErrors debug schema value :=
      mem_locatedErrors_iff.mpr ⟨loc, s, v, hvisits, he⟩
    exact ⟨e, hmem, hreports, map_mem_errors hmem⟩
  refine ⟨⟨conforms_of_valid hreported, ?_⟩, hreported⟩
  intro hconforms
  rw [validate_valid_iff]
  apply List.eq_nil_iff_forall_not_mem.mpr
  intro e he
  obtain ⟨loc, s, v, hvisits, he⟩ := mem_locatedErrors_iff.mp he
  have hreaches := hvisits.mono fun _ _ _ => trivial
  obtain ⟨hright, hlisted⟩ := h.spelled hconforms _ _ _ hreaches
  rw [localErrors, hright] at he
  rcases mem_checkFields_iff.mp he with ⟨key, hviolates, -⟩ | ⟨allowed, hallowed, hany, -⟩
  · exact hconforms _ _ _ _ hreaches hviolates
  · rw [hlisted allowed hallowed] at hany
    exact Bool.noConfusion hany

/-- The verdict and the reports are those of the keywords exactly for literal
values. -/
theorem validate_exact_iff (debug : Json → String) (schema value : Json)
    (hc : schema.isCanonical = true) :
    Exact debug schema value ↔ Literal schema value :=
  ⟨literal_of_exact hc, exact_of_literal⟩

/-- A schema that asks for a number. -/
def numberSchema : Json := .object [("type", .string "number")]

theorem conforms_numberSchema (n : Number) :
    Conforms numberSchema (.number n) := by
  intro loc s v keyword hreaches hviolates
  cases hreaches with
  | here =>
      cases keyword with
      | type =>
          obtain ⟨words, hwords, hnot⟩ := hviolates
          obtain rfl := Option.some.inj hwords
          exact Bool.noConfusion (hnot "number" (List.mem_singleton_self _))
      | required key => exact List.not_mem_nil hviolates.1
      | enum =>
          obtain ⟨allowed, hallowed, -⟩ := hviolates
          cases hallowed
  | step _ hchild _ =>
      cases hchild with
      | property _ hschema _ => exact List.not_mem_nil hschema
      | item hvalue _ _ => cases hvalue

/-- Five is a number, and is refused as one. -/
theorem validate_refuses_integer :
    ¬ Exact (fun _ => "") numberSchema (.number (.posInt 5)) := by
  intro h
  have hspelled := (literal_of_exact (by decide) h).spelled
    (conforms_numberSchema _) [] _ _ .here
  exact absurd hspelled.1 (by decide)

theorem validate_exact_iff_age :
    Exact (fun _ => "")
        (.object [("properties", .object
          [("age", .object [("type", .string "integer")])])])
        (.object [("age", .number (.posInt 5))]) ↔
      Literal
        (.object [("properties", .object
          [("age", .object [("type", .string "integer")])])])
        (.object [("age", .number (.posInt 5))]) :=
  validate_exact_iff _ _ _ (by decide)

end Exactness

end Schema

end AgentStateGraph
