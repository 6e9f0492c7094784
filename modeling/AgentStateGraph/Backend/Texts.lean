import AgentStateGraph.Repo.Storage
import AgentStateGraph.Sync.Bundle

/-!
# Texts in stored tables

Keys and columns hold an object id as hexadecimal digits, and names joined by a
separator.  Both are read back.
-/

namespace AgentStateGraph

namespace Bundles

def Namespace.DEFAULT : String := "default"

def Namespace.defaultNs : Namespace where
  name := Namespace.DEFAULT
  nonempty := by decide
  short := by decide
  chars := by decide

end Bundles

namespace Backend

open Bundles

/-- The errors of the storage operations that are not writes of a
repository. -/
inductive BackendError where
  | storage (e : StorageError)
  | namespaceAlreadyExists (namespace_ : String)
  | invalidOperation (message : String)
  | serialization (message : String)
deriving DecidableEq

/-! ## Splitting -/

/-- `str::split_once`: what stands before and after the first separator. -/
def splitOnce (sep : Char) (s : String) : Option (String × String) :=
  match s.toList.dropWhile (· != sep) with
  | [] => none
  | _ :: rest =>
      some (String.ofList (s.toList.takeWhile (· != sep)), String.ofList rest)

theorem splitOnce_append {sep : Char} {s : String} (h : sep ∉ s.toList)
    (rest : String) :
    splitOnce sep (s ++ String.singleton sep ++ rest) = some (s, rest) := by
  have hall : ∀ c ∈ s.toList, (c != sep) = true := by
    intro c hc
    rw [bne_iff_ne]
    rintro rfl
    exact h hc
  have hlist : (s ++ String.singleton sep ++ rest).toList =
      s.toList ++ sep :: rest.toList := by
    simp
  rw [splitOnce, hlist, List.dropWhile_append_of_pos hall,
    List.takeWhile_append_of_pos hall]
  simp

/-! ## Hexadecimal ids -/

/-- `char::to_digit(16)`. -/
def hexDigit (c : Char) : Option ℕ :=
  if '0' ≤ c ∧ c ≤ '9' then some (c.toNat - '0'.toNat)
  else if 'a' ≤ c ∧ c ≤ 'f' then some (c.toNat - 'a'.toNat + 10)
  else if 'A' ≤ c ∧ c ≤ 'F' then some (c.toNat - 'A'.toNat + 10)
  else none

/-- `u8::from_str_radix` of two characters: a leading plus sign is read
over. -/
def fromStrRadix16 (hi lo : Char) : Option UInt8 :=
  if hi = '+' then (hexDigit lo).map UInt8.ofNat
  else do
    let h ← hexDigit hi
    let l ← hexDigit lo
    some (UInt8.ofNat (16 * h + l))

/-- Two characters a byte; an odd length is refused. -/
def hexPairs : List Char → Option Bytes
  | [] => some []
  | [_] => none
  | hi :: lo :: rest => do
      let b ← fromStrRadix16 hi lo
      let bs ← hexPairs rest
      some (b :: bs)

/-- `hex_to_bytes`, with or without `sg_` in front. -/
def hexToBytes (hex : String) : Option Bytes :=
  match hex.toList with
  | 's' :: 'g' :: '_' :: rest => hexPairs rest
  | cs => hexPairs cs

/-- The id that a table has as text; the message is for a text that is not
hexadecimal. -/
def parseId (message hex : String) : Except BackendError ObjectId :=
  match hexToBytes hex with
  | none => .error (.serialization message)
  | some bytes =>
      if h : bytes.length = 32 then .ok ⟨bytes, h⟩
      else .error (.serialization "id must be 32 bytes")

theorem hexDigit_digitChar {d : ℕ} (h : d < 16) :
    hexDigit (Nat.digitChar d) = some d := by
  interval_cases d <;> rfl

theorem fromStrRadix16_hexByte (b : UInt8) :
    fromStrRadix16 (Nat.digitChar (b.toNat / 16)) (Nat.digitChar (b.toNat % 16)) =
      some b := by
  have hb : b.toNat < 256 := b.toNat_lt
  have hhi : b.toNat / 16 < 16 := by omega
  have hlo : b.toNat % 16 < 16 := by omega
  have hplus : ¬ Nat.digitChar (b.toNat / 16) = '+' := by
    intro heq
    have hdigit := hexDigit_digitChar hhi
    rw [heq] at hdigit
    have hnone : hexDigit '+' = none := by decide
    rw [hnone] at hdigit
    contradiction
  have hsum : 16 * (b.toNat / 16) + b.toNat % 16 = b.toNat := by omega
  rw [fromStrRadix16, if_neg hplus, hexDigit_digitChar hhi,
    hexDigit_digitChar hlo]
  simp only [Option.bind_eq_bind, Option.bind_some, hsum, UInt8.ofNat_toNat]

theorem hexPairs_hexBytes (bytes : Bytes) :
    hexPairs ((bytes.map hexByte).flatMap String.toList) = some bytes := by
  induction bytes with
  | nil => rfl
  | cons b bytes ih =>
      have hhead : (hexByte b).toList =
          [Nat.digitChar (b.toNat / 16), Nat.digitChar (b.toNat % 16)] := by
        simp [hexByte]
      simp only [List.map_cons, List.flatMap_cons, hhead, List.cons_append,
        List.nil_append, hexPairs, fromStrRadix16_hexByte, ih]
      rfl

@[simp] theorem hexToBytes_display (id : ObjectId) :
    hexToBytes id.display = some id.bytes := by
  have hlist : id.display.toList =
      's' :: 'g' :: '_' :: (id.bytes.map hexByte).flatMap String.toList := by
    simp [ObjectId.display, String.toList_join]
  rw [hexToBytes, hlist]
  exact hexPairs_hexBytes id.bytes

@[simp] theorem parseId_display (message : String) (id : ObjectId) :
    parseId message id.display = .ok id := by
  simp [parseId, id.length_eq]

/-! ## Texts of records -/

instance countable_string : Countable String :=
  have : Countable Char := by
    refine Function.Injective.countable (f := Char.toNat) ?_
    intro a b h
    exact Char.toNat_inj.mp h
  Function.Injective.countable (f := String.toList) fun _ _ h =>
    String.toList_inj.mp h

instance countable_objectId : Countable ObjectId :=
  have : Countable UInt8 := by
    refine Function.Injective.countable (f := UInt8.toNat) ?_
    intro a b h
    exact UInt8.toNat_inj.mp h
  Function.Injective.countable (f := ObjectId.bytes) fun a b h => by
    cases a
    cases b
    cases h
    rfl

/-- Records of countably many values have a text that reads back. -/
theorem exists_text (α : Type) [Countable α] :
    ∃ (f : α → String) (g : String → Except String α),
      ∀ a, g (f a) = .ok a := by
  classical
  obtain ⟨code, hcode⟩ := Countable.exists_injective_nat α
  refine ⟨fun a => String.ofList (List.replicate (code a) 'x'),
    fun s => if h : ∃ a, code a = s.toList.length then .ok h.choose
      else .error "no record", ?_⟩
  intro a
  have hlen : (String.ofList (List.replicate (code a) 'x')).toList.length =
      code a := by
    simp
  have hex : ∃ b, code b =
      (String.ofList (List.replicate (code a) 'x')).toList.length :=
    ⟨a, hlen.symm⟩
  dsimp only
  rw [dif_pos hex]
  rw [hcode (hex.choose_spec.trans hlen)]

end Backend

end AgentStateGraph
