import AgentStateGraph.Postgres.JsonText

/-!
# Derived serializers

A derived serializer is built from those of the fields.  With each comes what
must hold of a value for it to be read back from a text: everything but a float
and a value of JSON's own is kept by every text that keeps integers.
-/

namespace AgentStateGraph

namespace PostgresRows

variable {α β : Type}

/-- `Serialize` and `Deserialize` of a type, and what of a value a text must
keep. -/
structure Serde (α : Type) where
  toJson : α → Json
  fromJson : Json → Option α
  /-- What a missing field reads as. -/
  absent : Option α
  Kept : (Number → Option Number) → α → Prop
  read_iff : ∀ num, FixesIntegers num → ∀ x,
    ((toJson x).reread num).bind fromJson = some x ↔ Kept num x

namespace Serde

def string : Serde String where
  toJson := .string
  fromJson
    | .string s => some s
    | _ => none
  absent := none
  Kept _ _ := True
  read_iff _ _ _ := by simp [Json.reread]

def bool : Serde Bool where
  toJson := .bool
  fromJson
    | .bool b => some b
    | _ => none
  absent := none
  Kept _ _ := True
  read_iff _ _ _ := by simp [Json.reread]

def u8 : Serde UInt8 where
  toJson u := .number (.posInt u.toUInt64)
  fromJson
    | .number (.posInt u) => if u < 256 then some u.toUInt8 else none
    | _ => none
  absent := none
  Kept _ _ := True
  read_iff num hnum u := by
    have hlt : u.toUInt64 < 256 := by
      rw [UInt64.lt_iff_toNat_lt]
      simpa using u.toNat_lt
    simp [Json.reread, hnum.posInt, hlt]

def u64 : Serde UInt64 where
  toJson u := .number (.posInt u)
  fromJson
    | .number (.posInt u) => some u
    | _ => none
  absent := none
  Kept _ _ := True
  read_iff num hnum u := by simp [Json.reread, hnum.posInt]

def i64 : Serde Int64 where
  toJson i :=
    .number (if i < 0 then .negInt i else .posInt i.toUInt64)
  fromJson
    | .number (.posInt u) =>
        if u.toNat < 2 ^ 63 then some (Int64.ofNat u.toNat) else none
    | .number (.negInt i) => some i
    | _ => none
  absent := none
  Kept _ _ := True
  read_iff num hnum i := by
    by_cases hi : i < 0
    · simp [Json.reread, hi, hnum.negInt i hi]
    · have hback : Int64.ofNat i.toUInt64.toNat = i := by
        rw [← UInt64.toInt64_ofNat', UInt64.ofNat_toNat,
          Int64.toInt64_toUInt64]
      have hsmall : i.toUInt64.toNat < 2 ^ 63 := by
        rw [Int64.toNat_toUInt64_of_le (Int64.not_lt.mp hi)]
        exact Int64.toNatClampNeg_lt i
      simp only [Json.reread, if_neg hi, hnum.posInt, Option.map_some,
        Option.bind_some, if_pos hsmall, hback]

/-- A float that is not finite is written as `null`. -/
def f64 : Serde F64 where
  toJson x := if x.isFinite then .number (.float x) else .null
  fromJson
    | .number n => some n.toF64
    | _ => none
  absent := none
  Kept num x := x.isFinite = true ∧ (num (.float x)).map Number.toF64 = some x
  read_iff num _ x := by
    by_cases hx : x.isFinite = true
    · simp only [hx, if_true, Json.reread, true_and]
      cases num (.float x) <;> simp
    · simp [hx, Json.reread]

/-- A value of JSON's own. -/
def json : Serde Json where
  toJson v := v
  fromJson := some
  absent := none
  Kept num v := v.reread num = some v
  read_iff num _ v := by simp

/-- A type whose values are texts of another kind: the name of a variant, or a
time. -/
def ofText (toText : α → String) (ofText : String → Option α)
    (h : ∀ a, ofText (toText a) = some a) : Serde α where
  toJson a := .string (toText a)
  fromJson
    | .string s => ofText s
    | _ => none
  absent := none
  Kept _ _ := True
  read_iff num _ a := by simp [Json.reread, h]

/-- A value of another type that stands for this one. -/
def iso (s : Serde α) (toFun : β → α) (ofFun : α → β)
    (left : ∀ b, ofFun (toFun b) = b) (right : ∀ a, toFun (ofFun a) = a) :
    Serde β where
  toJson b := s.toJson (toFun b)
  fromJson j := (s.fromJson j).map ofFun
  absent := s.absent.map ofFun
  Kept num b := s.Kept num (toFun b)
  read_iff num hnum b := by
    rw [← s.read_iff num hnum (toFun b)]
    simp only [Option.bind_eq_some_iff, Option.map_eq_some_iff]
    constructor
    · rintro ⟨j, hj, a, ha, rfl⟩
      exact ⟨j, hj, by rw [ha, right]⟩
    · rintro ⟨j, hj, ha⟩
      exact ⟨j, hj, toFun b, ha, left b⟩

/-! ## Options and lists -/

/-- `None` is `null`, and a missing field. -/
def option (s : Serde α) (h : ∀ a, s.toJson a ≠ .null ∨
    ∀ num, ¬s.Kept num a) : Serde (Option α) where
  toJson
    | none => .null
    | some a => s.toJson a
  fromJson
    | .null => some none
    | j => (s.fromJson j).map some
  absent := some none
  Kept num x := ∀ a ∈ x, s.Kept num a
  read_iff num hnum x := by
    cases x with
    | none => simp [Json.reread]
    | some a =>
        have hnull : s.toJson a ≠ .null →
            (s.toJson a).reread num ≠ some .null := by
          intro hne heq
          cases hj : s.toJson a with
          | null => exact hne hj
          | _ => simp [hj, Json.reread] at heq
        simp only [Option.mem_some_iff, forall_eq']
        rw [← s.read_iff num hnum a]
        simp only [Option.bind_eq_some_iff]
        constructor
        · rintro ⟨j, hj, hread⟩
          refine ⟨j, hj, ?_⟩
          cases j <;> simp_all
        · rintro ⟨j, hj, hread⟩
          refine ⟨j, hj, ?_⟩
          cases j with
          | null =>
              rcases h a with hne | hkept
              · exact absurd hj (hnull hne)
              · exact absurd ((s.read_iff num hnum a).mp (by simp [hj, hread]))
                  (hkept num)
          | _ => simp [hread]

theorem rereadItems_iff (s : Serde α) {num : Number → Option Number}
    (hnum : FixesIntegers num) (xs : List α) :
    (Json.rereadItems num (xs.map s.toJson)).bind
      (fun js => js.mapM s.fromJson) = some xs ↔ ∀ x ∈ xs, s.Kept num x := by
  induction xs with
  | nil => simp [Json.rereadItems]
  | cons x xs ih =>
      rw [List.forall_mem_cons, ← s.read_iff num hnum x, ← ih]
      simp only [List.map_cons, Json.rereadItems, Option.bind_eq_some_iff,
        Option.map_eq_some_iff]
      constructor
      · rintro ⟨_, ⟨j, hj, js, hjs, rfl⟩, hread⟩
        simp only [List.mapM_cons, Option.bind_eq_bind,
          Option.bind_eq_some_iff, Option.pure_def, Option.some.injEq,
          List.cons.injEq] at hread
        obtain ⟨y, hy, ys, hys, rfl, rfl⟩ := hread
        exact ⟨⟨j, hj, hy⟩, js, hjs, hys⟩
      · rintro ⟨⟨j, hj, hy⟩, js, hjs, hys⟩
        exact ⟨j :: js, ⟨j, hj, js, hjs, rfl⟩, by simp [hy, hys]⟩

def list (s : Serde α) : Serde (List α) where
  toJson xs := .array (xs.map s.toJson)
  fromJson
    | .array js => js.mapM s.fromJson
    | _ => none
  absent := none
  Kept num xs := ∀ x ∈ xs, s.Kept num x
  read_iff num hnum xs := by
    rw [← s.rereadItems_iff hnum xs]
    simp only [Json.reread]
    cases Json.rereadItems num (xs.map s.toJson) <;> simp

end Serde

/-! ## Structures -/

/-- The fields of a structure, in the order of their names. -/
structure Fields (α : Type) where
  names : List String
  toEntries : α → List (String × Json)
  fromEntries : List (String × Json) → Option α
  Kept : (Number → Option Number) → α → Prop
  /-- An entry of another name is passed over. -/
  skip : ∀ e es, e.1 ∉ names → fromEntries (e :: es) = fromEntries es
  read_iff : ∀ num, FixesIntegers num → ∀ x,
    (Json.rereadEntries num (toEntries x)).bind fromEntries = some x ↔
      Kept num x

namespace Fields

def nil : Fields Unit where
  names := []
  toEntries _ := []
  fromEntries _ := some ()
  Kept _ _ := True
  skip _ _ _ := rfl
  read_iff _ _ _ := by simp [Json.rereadEntries]

@[simp] theorem names_nil : nil.names = [] := rfl

/-- The value of a field. -/
def readField (name : String) (s : Serde α) (es : List (String × Json)) :
    Option α :=
  match es.lookup name with
  | some j => s.fromJson j
  | none => s.absent

def cons (name : String) (s : Serde α) (rest : Fields β)
    (h : name ∉ rest.names := by simp) : Fields (α × β) where
  names := name :: rest.names
  toEntries x := (name, s.toJson x.1) :: rest.toEntries x.2
  fromEntries es :=
    (readField name s es).bind fun a =>
      (rest.fromEntries es).map fun b => (a, b)
  Kept num x := s.Kept num x.1 ∧ rest.Kept num x.2
  skip e es he := by
    obtain ⟨key, value⟩ := e
    simp only [List.mem_cons, not_or] at he
    rw [rest.skip _ es he.2]
    have hne : (name == key) = false := by
      simpa using Ne.symm he.1
    have hlookup : ((key, value) :: es).lookup name = es.lookup name := by
      rw [List.lookup_cons, hne]
    simp only [readField, hlookup]
  read_iff num hnum x := by
    obtain ⟨a, b⟩ := x
    rw [← s.read_iff num hnum a, ← rest.read_iff num hnum b]
    simp only [Json.rereadEntries, Option.bind_eq_some_iff,
      Option.map_eq_some_iff]
    have hread : ∀ j es, readField name s ((name, j) :: es) = s.fromJson j := by
      intro j es
      simp [readField]
    constructor
    · rintro ⟨_, ⟨j, hj, es, hes, rfl⟩, a', ha', b', hb', heq⟩
      rw [hread] at ha'
      rw [rest.skip _ _ h] at hb'
      obtain ⟨rfl, rfl⟩ := Prod.ext_iff.mp heq
      exact ⟨⟨j, hj, ha'⟩, es, hes, hb'⟩
    · rintro ⟨⟨j, hj, ha⟩, es, hes, hb⟩
      refine ⟨(name, j) :: es, ⟨j, hj, es, hes, rfl⟩, a, ?_, b, ?_, rfl⟩
      · rw [hread, ha]
      · rw [rest.skip _ _ h, hb]

@[simp] theorem names_cons (name : String) (s : Serde α) (rest : Fields β)
    (h : name ∉ rest.names) :
    (cons name s rest h).names = name :: rest.names := rfl

/-- The serializer of the structure with these fields. -/
def serde (fields : Fields α) : Serde α where
  toJson x := .object (fields.toEntries x)
  fromJson
    | .object es => fields.fromEntries es
    | _ => none
  absent := none
  Kept := fields.Kept
  read_iff num hnum x := by
    rw [← fields.read_iff num hnum x]
    simp only [Json.reread]
    cases Json.rereadEntries num (fields.toEntries x) <;> simp

end Fields

end PostgresRows

end AgentStateGraph
