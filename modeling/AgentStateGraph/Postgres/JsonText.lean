import AgentStateGraph.Tree.RoundTrip

/-!
# Values as JSON text

A JSON value written as text and read back comes back number by number: the
strings, the keys and the shape stay, a number is written in decimal and read
as an integer where the text is one.  A `JSONB` column keeps of a number its
decimal value, with the zeros it ends in, but neither the sign of a zero nor an
exponent.
-/

namespace AgentStateGraph

/-! ## Numbers -/

namespace F64

/-- The double nearest to a natural number, the even one of two: `as f64`. -/
def ofNat (n : ℕ) : F64 :=
  if n = 0 then zero
  else
    let e := Nat.log2 n
    if e ≤ 52 then
      ⟨UInt64.ofNat ((e + 1023) * 2 ^ 52 + (n * 2 ^ (52 - e) - 2 ^ 52))⟩
    else
      let unit := 2 ^ (e - 52)
      let down := n / unit
      let rest := 2 * (n % unit)
      let nearest :=
        if unit < rest ∨ unit = rest ∧ down % 2 = 1 then down + 1 else down
      ⟨UInt64.ofNat ((e + 1023) * 2 ^ 52 + (nearest - 2 ^ 52))⟩

def neg (x : F64) : F64 := ⟨x.bits ^^^ 0x8000000000000000⟩

end F64

/-- A number as an `f64` field takes it. -/
def Number.toF64 : Number → F64
  | .posInt u => F64.ofNat u.toNat
  | .negInt i => (F64.ofNat i.toInt.natAbs).neg
  | .float f => f

namespace PostgresRows

/-- The text of a JSON number: its digits without the point, how many of them
follow it, and the exponent. -/
structure Decimal where
  negative : Bool
  digits : ℕ
  scale : ℕ
  exponent : Option ℤ
deriving DecidableEq

namespace Decimal

def ofNat (n : ℕ) : Decimal := ⟨false, n, 0, none⟩

/-- A number as `JSONB` gives it back: the exponent is written out, and no zero
is negative. -/
def plain (d : Decimal) : Decimal :=
  let shift := d.exponent.getD 0 - d.scale
  { negative := d.negative && d.digits != 0
    digits := d.digits * 10 ^ shift.toNat
    scale := (-shift).toNat
    exponent := none }

end Decimal

/-- How `serde_json` writes a finite float, and reads a number that is not an
integer. -/
structure NumberText where
  writeFloat : F64 → Decimal
  parseFloat : Decimal → Option F64

namespace NumberText

variable (text : NumberText)

def write : Number → Decimal
  | .posInt u => .ofNat u.toNat
  | .negInt i => ⟨i.toInt < 0, i.toInt.natAbs, 0, none⟩
  | .float f => text.writeFloat f

/-- An integer that fits is read as one, anything else as a float. -/
def read (d : Decimal) : Option Number :=
  if d.scale = 0 ∧ d.exponent = none ∧ d.negative = false ∧
      d.digits < 2 ^ 64 then
    some (.posInt (UInt64.ofNat d.digits))
  else if d.scale = 0 ∧ d.exponent = none ∧ d.negative = true ∧
      d.digits ≠ 0 ∧ d.digits ≤ 2 ^ 63 then
    some (.negInt (Int64.ofInt (-d.digits)))
  else (text.parseFloat d).map .float

/-- A number that was written as text. -/
def exactNumber (n : Number) : Option Number := text.read (text.write n)

/-- A number that went through a `JSONB` column. -/
def jsonbNumber (n : Number) : Option Number :=
  text.read (text.write n).plain

end NumberText

/-- Integers come back as they are. -/
structure FixesIntegers (num : Number → Option Number) : Prop where
  posInt : ∀ u, num (.posInt u) = some (.posInt u)
  negInt : ∀ i < 0, num (.negInt i) = some (.negInt i)

theorem read_ofNat (text : NumberText) (u : UInt64) :
    text.read (Decimal.ofNat u.toNat) = some (.posInt u) := by
  have hlt : u.toNat < 2 ^ 64 := u.toNat_lt
  simpa [NumberText.read, Decimal.ofNat] using hlt

theorem read_negInt (text : NumberText) {i : Int64} (hi : i < 0) :
    text.read ⟨true, i.toInt.natAbs, 0, none⟩ = some (.negInt i) := by
  have hneg : i.toInt < 0 := by
    simpa using Int64.lt_iff_toInt_lt.mp hi
  have hle := Int64.le_toInt i
  have hne : i.toInt.natAbs ≠ 0 := by omega
  have hbound : i.toInt.natAbs ≤ 2 ^ 63 := by omega
  have hback : -((i.toInt.natAbs : ℕ) : ℤ) = i.toInt := by omega
  unfold NumberText.read
  rw [if_neg (by simp), if_pos ⟨rfl, rfl, rfl, hne, hbound⟩, hback,
    Int64.ofInt_toInt]

theorem fixesIntegers_exact (text : NumberText) :
    FixesIntegers text.exactNumber := by
  refine ⟨fun u => read_ofNat text u, fun i hi => ?_⟩
  have hneg : decide (i.toInt < 0) = true := by
    simpa using Int64.lt_iff_toInt_lt.mp hi
  simp only [NumberText.exactNumber, NumberText.write, hneg]
  exact read_negInt text hi

theorem fixesIntegers_jsonb (text : NumberText) :
    FixesIntegers text.jsonbNumber := by
  refine ⟨fun u => ?_, fun i hi => ?_⟩
  · have hplain : (Decimal.ofNat u.toNat).plain = Decimal.ofNat u.toNat := by
      simp [Decimal.plain, Decimal.ofNat]
    simp only [NumberText.jsonbNumber, NumberText.write, hplain]
    exact read_ofNat text u
  · have hneg : i.toInt < 0 := by
      simpa using Int64.lt_iff_toInt_lt.mp hi
    have hne : i.toInt ≠ 0 := by omega
    have hplain : (Decimal.mk (decide (i.toInt < 0)) i.toInt.natAbs 0
        none).plain = ⟨true, i.toInt.natAbs, 0, none⟩ := by
      simp [Decimal.plain, hneg, hne]
    simp only [NumberText.jsonbNumber, NumberText.write, hplain]
    exact read_negInt text hi

end PostgresRows

/-! ## Values -/

namespace Json

mutual

/-- Every number of a value, as the given text keeps it. -/
def reread (num : Number → Option Number) : Json → Option Json
  | .null => some .null
  | .bool b => some (.bool b)
  | .number n => (num n).map .number
  | .string s => some (.string s)
  | .array items => (rereadItems num items).map .array
  | .object entries => (rereadEntries num entries).map .object

def rereadItems (num : Number → Option Number) : List Json → Option (List Json)
  | [] => some []
  | item :: items =>
      (reread num item).bind fun item' =>
        (rereadItems num items).map fun items' => item' :: items'

def rereadEntries (num : Number → Option Number) :
    List (String × Json) → Option (List (String × Json))
  | [] => some []
  | (key, value) :: entries =>
      (reread num value).bind fun value' =>
        (rereadEntries num entries).map fun entries' => (key, value') :: entries'

end

mutual

/-- How deep arrays and objects are nested. -/
def depth : Json → ℕ
  | .array items => depthItems items + 1
  | .object entries => depthEntries entries + 1
  | _ => 0

def depthItems : List Json → ℕ
  | [] => 0
  | item :: items => max (depth item) (depthItems items)

def depthEntries : List (String × Json) → ℕ
  | [] => 0
  | (_, value) :: entries => max (depth value) (depthEntries entries)

end

/-- The reader of `serde_json` gives up at the 128th level. -/
def IsShallow (value : Json) : Prop := value.depth < 128

instance (value : Json) : Decidable value.IsShallow :=
  inferInstanceAs (Decidable (_ < _))

/-- A value written as text and read back. -/
def readText (num : Number → Option Number) (value : Json) : Option Json :=
  if value.IsShallow then value.reread num else none

end Json

end AgentStateGraph
