import AgentStateGraph.Tree.Json

/-!
# Task documents

Plans are JSON objects: the metadata under one key, and under each other key
the task with that id.  Ids are minted as `t-NNN`, and read back as numbers
where they have that form.
-/

namespace AgentStateGraph

/-! ## JSON values -/

def Number.beq : Number → Number → Bool
  | .posInt u, .posInt v => u == v
  | .negInt i, .negInt j => i == j
  | .float f, .float g => f.eq g
  | _, _ => false

namespace Json

mutual

/-- `PartialEq` of `serde_json::Value`. -/
def beq : Json → Json → Bool
  | .null, .null => true
  | .bool b, .bool c => b == c
  | .number n, .number m => n.beq m
  | .string s, .string t => s == t
  | .array xs, .array ys => beqItems xs ys
  | .object xs, .object ys => beqEntries xs ys
  | _, _ => false

def beqItems : List Json → List Json → Bool
  | [], [] => true
  | x :: xs, y :: ys => beq x y && beqItems xs ys
  | _, _ => false

def beqEntries : List (String × Json) → List (String × Json) → Bool
  | [], [] => true
  | (k, x) :: xs, (l, y) :: ys => k == l && beq x y && beqEntries xs ys
  | _, _ => false

end

/-- `PartialEq` of `Option<&Value>`. -/
def optBeq : Option Json → Option Json → Bool
  | none, none => true
  | some x, some y => x.beq y
  | _, _ => false

/-- `as_object().into_iter().flatten()`. -/
def entries : Json → List (String × Json)
  | .object es => es
  | _ => []

/-- `Value::get` with a key. -/
def get (value : Json) (key : String) : Option Json :=
  value.entries.lookup key

def isObject : Json → Bool
  | .object _ => true
  | _ => false

def asStr : Json → Option String
  | .string s => some s
  | _ => none

/-- `Map::insert`, on entries in key order. -/
def insertEntry (key : String) (value : Json) :
    List (String × Json) → List (String × Json)
  | [] => [(key, value)]
  | e :: es =>
      if key < e.1 then (key, value) :: e :: es
      else if key = e.1 then (key, value) :: es
      else e :: insertEntry key value es

theorem lookup_insertEntry (key : String) (value : Json)
    (es : List (String × Json)) (k : String) :
    (insertEntry key value es).lookup k =
      if k = key then some value else es.lookup k := by
  induction es with
  | nil =>
      by_cases hk : k = key
      · simp [insertEntry, hk]
      · have hne : (k == key) = false := by simpa using hk
        simp [insertEntry, List.lookup_cons, hk, hne]
  | cons e es ih =>
      simp only [insertEntry]
      by_cases hlt : key < e.1
      · rw [if_pos hlt, List.lookup_cons]
        by_cases hk : k = key
        · simp [hk]
        · have hne : (k == key) = false := by simpa using hk
          rw [if_neg hk, hne]
      · rw [if_neg hlt]
        by_cases heq : key = e.1
        · rw [if_pos heq, List.lookup_cons, List.lookup_cons, ← heq]
          by_cases hk : k = key
          · simp [hk]
          · have hne : (k == key) = false := by simpa using hk
            rw [if_neg hk, hne]
        · rw [if_neg heq, List.lookup_cons, List.lookup_cons, ih]
          by_cases hk : k = e.1
          · subst hk
            have hne : e.1 ≠ key := Ne.symm heq
            simp [hne]
          · have hne : (k == e.1) = false := by simpa using hk
            rw [hne]

end Json

/-! ## Task ids -/

def parseDigits (digits : List Char) : Option ℕ :=
  if digits.isEmpty || !digits.all Char.isDigit then none
  else if Nat.ofDigitChars 10 digits 0 < 2 ^ 32 then
    some (Nat.ofDigitChars 10 digits 0)
  else none

/-- `str::parse::<u32>`: digits, after a plus sign if there is one. -/
def parseU32 (s : List Char) : Option ℕ :=
  parseDigits (if s.head? = some '+' then s.tail else s)

theorem parseDigits_of_digits {digits : List Char} (hne : digits ≠ [])
    (hdigits : ∀ c ∈ digits, c.isDigit = true)
    (hlt : Nat.ofDigitChars 10 digits 0 < 2 ^ 32) :
    parseDigits digits = some (Nat.ofDigitChars 10 digits 0) := by
  have hall : digits.all Char.isDigit = true := List.all_eq_true.mpr hdigits
  have hempty : digits.isEmpty = false := by simpa using hne
  simp only [parseDigits, hall, hempty, Bool.not_true, Bool.or_self]
  rw [if_neg Bool.false_ne_true, if_pos hlt]

namespace TaskId

/-- The id with a sequence number, padded to three digits. -/
def new (n : ℕ) : String :=
  let digits := Nat.toDigits 10 n
  String.ofList (['t', '-'] ++ List.replicate (3 - digits.length) '0' ++ digits)

/-- The number of a `t-NNN` id. -/
def number (id : String) : Option ℕ :=
  match id.toList with
  | 't' :: '-' :: rest => parseU32 rest
  | _ => none

/-- A minted id reads back as its number. -/
theorem number_new {n : ℕ} (h : n < 2 ^ 32) : number (new n) = some n := by
  generalize hpad : List.replicate (3 - (Nat.toDigits 10 n).length) '0' ++
    Nat.toDigits 10 n = digits
  have htext : (new n).toList = 't' :: '-' :: digits := by
    simp only [new, String.toList_ofList, List.append_assoc, hpad]
    rfl
  have hvalue : Nat.ofDigitChars 10 digits 0 = n := by
    rw [← hpad, Nat.ofDigitChars_append, Nat.ofDigitChars_replicate_zero,
      Nat.mul_zero, Nat.ofDigitChars_ten_toDigits]
  have hdigits : ∀ c ∈ digits, c.isDigit = true := by
    intro c hc
    rw [← hpad] at hc
    rcases List.mem_append.mp hc with hc | hc
    · rw [List.eq_of_mem_replicate hc]
      rfl
    · exact Nat.isDigit_of_mem_toDigits (by decide) (by decide) hc
  have hne : digits ≠ [] := by
    rw [← hpad]
    exact List.append_ne_nil_of_right_ne_nil _ Nat.toDigits_ne_nil
  have hplus : digits.head? ≠ some '+' := by
    intro hhead
    have hdigit := hdigits '+' (List.mem_of_mem_head? hhead)
    exact absurd hdigit (by decide)
  simp only [number, htext, parseU32, if_neg hplus]
  rw [parseDigits_of_digits hne hdigits (hvalue.symm ▸ h), hvalue]

theorem new_injective : Set.InjOn new { n | n < 2 ^ 32 } := by
  intro m hm n hn h
  have hnum := number_new hm
  rw [h, number_new hn] at hnum
  exact (Option.some.inj hnum).symm

end TaskId

end AgentStateGraph
