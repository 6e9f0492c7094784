import AgentStateGraph.Postgres.Records

/-!
# Objects and commits as Postgres rows

A row holds a value as `JSONB`, and its exact JSON as well when it has a U+0000
somewhere.  The numbers go through text either way, and through the column's
decimals when there is no exact JSON: a float is kept where the text of its
plain decimal reads back as that float.  A negative zero never does, and a
large float in the arguments of a tool call comes back as an integer.
-/

namespace AgentStateGraph

namespace PostgresRows

variable {α : Type}

/-! ## Writing a row -/

def nul : Char := '\x00'

def hasNulText (s : String) : Bool := s.toList.contains nul

def replaceNulText (s : String) : String :=
  String.ofList (s.toList.map fun c => if c = nul then '\uFFFD' else c)

mutual

def hasNul : Json → Bool
  | .string s => hasNulText s
  | .array items => hasNulItems items
  | .object entries => hasNulEntries entries
  | _ => false

def hasNulItems : List Json → Bool
  | [] => false
  | item :: items => hasNul item || hasNulItems items

def hasNulEntries : List (String × Json) → Bool
  | [] => false
  | (key, value) :: entries =>
      (hasNulText key || hasNul value) || hasNulEntries entries

end

mutual

/-- Keys that become the same leave the value of the last. -/
def replaceNul : Json → Json
  | .string s => .string (replaceNulText s)
  | .array items => .array (replaceNulItems items)
  | .object entries =>
      .object (Std.ExtTreeMap.ofList (replaceNulEntries entries) compare).toList
  | value => value

def replaceNulItems : List Json → List Json
  | [] => []
  | item :: items => replaceNul item :: replaceNulItems items

def replaceNulEntries : List (String × Json) → List (String × Json)
  | [] => []
  | (key, value) :: entries =>
      (replaceNulText key, replaceNul value) :: replaceNulEntries entries

end

/-- The columns of a row: the `JSONB` value, and the text of the exact JSON. -/
structure Row where
  data : Json
  exact : Option Json

def rowJson (s : Serde α) (value : α) : Row :=
  let data := s.toJson value
  if hasNul data then ⟨replaceNul data, some data⟩ else ⟨data, none⟩

/-! ## Reading it back -/

/-- What the columns return is text: of the `data` with its numbers as `JSONB`
keeps them, and of the exact JSON as it was written. -/
def fromRowJson (text : NumberText) (s : Serde α) (row : Row) : Option α :=
  match row.exact with
  | some exact => (exact.readText text.exactNumber).bind s.fromJson
  | none => (row.data.readText text.jsonbNumber).bind s.fromJson

/-- How a row of these columns keeps a number. -/
def rowNumber (text : NumberText) (value : Json) : Number → Option Number :=
  if hasNul value then text.exactNumber else text.jsonbNumber

theorem fromRowJson_iff (text : NumberText) (s : Serde α) (value : α) :
    fromRowJson text s (rowJson s value) = some value ↔
      (s.toJson value).IsShallow ∧
        s.Kept (rowNumber text (s.toJson value)) value := by
  have hread : ∀ num, FixesIntegers num →
      (((s.toJson value).readText num).bind s.fromJson = some value ↔
        (s.toJson value).IsShallow ∧ s.Kept num value) := by
    intro num hnum
    unfold Json.readText
    by_cases hshallow : (s.toJson value).IsShallow
    · rw [if_pos hshallow, s.read_iff num hnum value]
      exact (and_iff_right hshallow).symm
    · rw [if_neg hshallow]
      simp [hshallow]
  unfold fromRowJson rowJson rowNumber
  by_cases hnul : hasNul (s.toJson value) = true
  · simp only [hnul, if_true]
    exact hread _ (fixesIntegers_exact text)
  · simp only [hnul, if_false, Bool.false_eq_true]
    exact hread _ (fixesIntegers_jsonb text)

/-! ### Objects are shallow -/

theorem depthItems_le {items : List Json} {n : ℕ}
    (h : ∀ item ∈ items, item.depth ≤ n) : Json.depthItems items ≤ n := by
  induction items with
  | nil => exact Nat.zero_le n
  | cons item items ih =>
      obtain ⟨hitem, hitems⟩ := List.forall_mem_cons.mp h
      exact max_le hitem (ih hitems)

theorem depthEntries_le {entries : List (String × Json)} {n : ℕ}
    (h : ∀ e ∈ entries, e.2.depth ≤ n) : Json.depthEntries entries ≤ n := by
  induction entries with
  | nil => exact Nat.zero_le n
  | cons e entries ih =>
      obtain ⟨he, hentries⟩ := List.forall_mem_cons.mp h
      exact max_le he (ih hentries)

theorem depth_list_le {s : Serde α} {n : ℕ}
    (h : ∀ a, (s.toJson a).depth ≤ n) (xs : List α) :
    ((Serde.list s).toJson xs).depth ≤ n + 1 := by
  refine Nat.succ_le_succ (depthItems_le fun item hitem => ?_)
  obtain ⟨a, -, rfl⟩ := List.mem_map.mp hitem
  exact h a

theorem depth_objectId_le (id : ObjectId) :
    (Serde.objectId.toJson id).depth ≤ 1 :=
  depth_list_le (s := Serde.u8) (fun _ => Nat.le_refl 0) id.1

theorem isShallow_object (o : Object ObjectId) :
    (object.toJson o).IsShallow := by
  have htagged : ∀ (kind type : String) (value : Json), value.depth ≤ 2 →
      (tagged kind type value).IsShallow := by
    intro kind type value h
    have hle : Json.depthEntries [("kind", .string kind),
        ("type", .string type), ("value", value)] ≤ 2 :=
      depthEntries_le (by simpa [Json.depth] using h)
    exact Nat.lt_of_le_of_lt (Nat.succ_le_succ hle) (by decide)
  cases o with
  | atom a =>
      cases a with
      | null => decide
      | bool b => exact htagged _ _ _ (by simp [Serde.bool, Json.depth])
      | int i => exact htagged _ _ _ (by simp [Serde.i64, Json.depth])
      | float x =>
          refine htagged _ _ _ ?_
          by_cases hx : x.isFinite = true <;> simp [Serde.f64, hx, Json.depth]
      | string s => exact htagged _ _ _ (by simp [Serde.string, Json.depth])
      | bytes b =>
          have hbytes : ((Serde.list Serde.u8).toJson b).depth ≤ 1 :=
            depth_list_le (fun _ => Nat.le_refl 0) b
          exact htagged _ _ _ (hbytes.trans (by decide))
      | uint u => exact htagged _ _ _ (by simp [Serde.u64, Json.depth])
  | node n =>
      cases n with
      | map entries =>
          refine htagged _ _ _ (Nat.succ_le_succ (depthEntries_le ?_))
          intro e he
          obtain ⟨e', -, rfl⟩ := List.mem_map.mp he
          exact depth_objectId_le e'.2
      | list items =>
          exact htagged _ _ _ (depth_list_le depth_objectId_le items)
      | set items =>
          exact htagged _ _ _ (depth_list_le depth_objectId_le items)

/-! ## What a row keeps -/

/-- An object is read back as it was stored exactly when its float is, and a
commit when its confidences and the arguments of its tool calls are and it is
not nested too deep. -/
theorem rows_lossless_iff (text : NumberText) (time : TimeText) :
    (∀ o : Object ObjectId,
      fromRowJson text object (rowJson object o) = some o ↔
        ObjectKept (rowNumber text (object.toJson o)) o) ∧
    ∀ c : Commit,
      fromRowJson text (commit time) (rowJson (commit time) c) = some c ↔
        ((commit time).toJson c).IsShallow ∧
          CommitKept (rowNumber text ((commit time).toJson c)) c := by
  refine ⟨fun o => ?_, fun c => ?_⟩
  · rw [fromRowJson_iff]
    exact and_iff_right (isShallow_object o)
  · rw [fromRowJson_iff, commit_kept_iff]

/-! ### A negative zero, and a large float -/

namespace Changed

/-- `1e16`. -/
def large : F64 := ⟨0x4341C37937E08000⟩

/-- The texts of the two floats: `-0.0` and `1e16`. -/
def numbers : NumberText where
  writeFloat x :=
    if x = F64.negZero then ⟨true, 0, 1, none⟩
    else if x = large then ⟨false, 1, 0, some 16⟩
    else ⟨false, 0, 1, none⟩
  parseFloat d :=
    if d.digits = 0 then some (if d.negative then F64.negZero else F64.zero)
    else if d = ⟨false, 1, 0, some 16⟩ then some large
    else none

/-- A time as strokes before or after the epoch. -/
def strokes : TimeText where
  format t :=
    String.ofList (List.replicate t.toNat '+' ++ List.replicate (-t).toNat '-')
  parse s := some (s.toList.count '+' - s.toList.count '-')
  parse_format t := by
    have hplus : (List.replicate (-t).toNat '-').count '+' = 0 := by
      simp [List.count_eq_zero]
    have hminus : (List.replicate t.toNat '+').count '-' = 0 := by
      simp [List.count_eq_zero]
    simp only [String.toList_ofList, List.count_append,
      List.count_replicate_self, hplus, hminus]
    congr 1
    omega

theorem length_zeroBytes : (List.replicate 32 (0 : UInt8)).length = 32 := by
  decide

def zeroId : ObjectId := ⟨List.replicate 32 0, length_zeroBytes⟩

def called (arguments : Json) : Commit where
  id := zeroId
  stateRoot := zeroId
  parents := []
  timestamp := 0
  agentId := "agent"
  authority := ⟨"agent", .wildcard, 0, none, []⟩
  intent := ⟨"i", .refine, "change", [], none, ⟨.proposed, [], none, none⟩⟩
  reasoning := none
  confidence := none
  toolCalls := [⟨"tool", arguments, none, 0⟩]

end Changed

open Changed in
/-- The object of a negative zero comes back as that of zero, and a commit with
`1e16` among the arguments of a call as one with an integer there. -/
theorem rows_not_lossless :
    fromRowJson numbers object
        (rowJson object (.atom (.float F64.negZero))) ≠
      some (.atom (.float F64.negZero)) ∧
    fromRowJson numbers (commit strokes)
        (rowJson (commit strokes) (called (.number (.float large)))) ≠
      some (called (.number (.float large))) := by
  refine ⟨?_, ?_⟩
  · rw [Ne, fromRowJson_iff]
    rintro ⟨-, -, hkept⟩
    revert hkept
    decide
  · rw [Ne, fromRowJson_iff, commit_kept_iff]
    rintro ⟨-, -, -, hcalls⟩
    have hkept := hcalls _ (List.mem_singleton_self _)
    have hinteger : rowNumber numbers
        ((commit strokes).toJson (called (.number (.float large))))
        (.float large) = some (.posInt 10000000000000000) := by
      decide
    simp [Serde.json, Json.reread, hinteger] at hkept

end PostgresRows

end AgentStateGraph
