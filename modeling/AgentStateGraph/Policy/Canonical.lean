import AgentStateGraph.Backend.Texts
import AgentStateGraph.Policy.Types

/-!
# What a signature of a policy is over

The canonical bytes of a policy are its JSON with sorted keys, no whitespace
and no `signature`.  A signature is kept as hexadecimal text; a verifier
computes the canonical bytes again.
-/

namespace AgentStateGraph

open Backend Bundles

namespace Policies

/-! ## Canonical bytes -/

/-- The `signature` key of the top-level object is removed. -/
def stripSignature : Json → Json
  | .object entries => .object (entries.filter (·.1 != "signature"))
  | value => value

/-- Separated by commas. -/
def commaSeparated : List Bytes → Bytes
  | [] => []
  | [item] => item
  | item :: items => item ++ ','.toUInt8 :: commaSeparated items

/-- `serde_json::to_vec` of what is neither an array nor an object. -/
abbrev ScalarText := Json → Bytes

mutual

/-- `write_canonical`; the entries of an object are sorted by key. -/
def writeCanonical (scalar : ScalarText) : Json → Bytes
  | .null => scalar .null
  | .bool b => scalar (.bool b)
  | .number n => scalar (.number n)
  | .string s => scalar (.string s)
  | .array items =>
      '['.toUInt8 :: commaSeparated (writeItems scalar items) ++ [']'.toUInt8]
  | .object entries =>
      let sorted := (writeEntries scalar entries).insertionSort
        fun a b => a.1 ≤ b.1
      '\x7b'.toUInt8 :: commaSeparated (sorted.map fun e =>
        scalar (.string e.1) ++ ':'.toUInt8 :: e.2) ++ ['\x7d'.toUInt8]

def writeItems (scalar : ScalarText) : List Json → List Bytes
  | [] => []
  | item :: items => writeCanonical scalar item :: writeItems scalar items

def writeEntries (scalar : ScalarText) :
    List (String × Json) → List (String × Bytes)
  | [] => []
  | (key, value) :: entries =>
      (key, writeCanonical scalar value) :: writeEntries scalar entries

end

/-- What signing relies on of the derived serializers: the signature is
written under its own key, and a policy that was read back is written as it
was. -/
structure SigningCodec extends PolicyCodec where
  scalar : ScalarText
  toValue_stored : ∀ p, toValue p.stored = toValue p
  toValue_signature : ∀ p signature,
    (toValue { p with signature := signature }).map stripSignature =
      (toValue p).map stripSignature

variable (codec : SigningCodec)

/-- The bytes that are signed. -/
def canonicalize (p : Policy) : Except String Bytes :=
  ((codec.toValue p).map stripSignature).map (writeCanonical codec.scalar)

theorem canonicalize_sign (p : Policy) (signature : Option PolicySignature) :
    canonicalize codec { p with signature := signature }.stored =
      canonicalize codec p := by
  rw [canonicalize, codec.toValue_stored, codec.toValue_signature, canonicalize]

/-! ## Signatures as text -/

/-- `hex::encode`. -/
def hexEncode (bytes : Bytes) : String := String.join (bytes.map hexByte)

def decodePairs : List Char → Option Bytes
  | [] => some []
  | [_] => none
  | hi :: lo :: rest => do
      let h ← hexDigit hi
      let l ← hexDigit lo
      let bytes ← decodePairs rest
      some (UInt8.ofNat (16 * h + l) :: bytes)

/-- `hex::decode`. -/
def hexDecode (text : String) : Option Bytes := decodePairs text.toList

@[simp] theorem hexDecode_hexEncode (bytes : Bytes) :
    hexDecode (hexEncode bytes) = some bytes := by
  rw [hexDecode, hexEncode, String.toList_join]
  induction bytes with
  | nil => rfl
  | cons b bytes ih =>
      have hb : b.toNat < 256 := b.toNat_lt
      have hhead : (hexByte b).toList =
          [Nat.digitChar (b.toNat / 16), Nat.digitChar (b.toNat % 16)] := by
        simp [hexByte]
      have hsum : 16 * (b.toNat / 16) + b.toNat % 16 = b.toNat := by omega
      simp only [List.map_cons, List.flatMap_cons, hhead, List.cons_append,
        List.nil_append, decodePairs, ih,
        hexDigit_digitChar (show b.toNat / 16 < 16 by omega),
        hexDigit_digitChar (show b.toNat % 16 < 16 by omega)]
      simp only [Option.bind_eq_bind, Option.bind_some, hsum, UInt8.ofNat_toNat]

/-! ## Signing and verifying -/

/-- `PolicySigner::sign`: the key that was used, and the signature. -/
abbrev Signer := Bytes → Except String (String × Bytes)

/-- `PolicyVerifier::verify`, of a key, a signature and what it is over. -/
abbrev Verifier := String → Bytes → Bytes → Except String Unit

/-- What the signer made over some bytes verifies for them and for nothing
else. -/
def Verifier.Ideal (verify : Verifier) (sign : Signer) : Prop :=
  ∀ message key signature, sign message = .ok (key, signature) →
    ∀ other, verify key signature other = .ok () ↔ other = message

/-- Failure modes when checking a policy's signature. -/
inductive SignatureVerificationError where
  | missing
  | encoding
  | invalid (message : String)
deriving DecidableEq

/-- `verify_policy` of the server's verifier. -/
def verifyPolicy (verify : Verifier) (p : Policy) :
    Except SignatureVerificationError Unit :=
  match p.signature with
  | none => .error .missing
  | some (.ed25519 key text) =>
      match hexDecode text with
      | none => .error .encoding
      | some signature =>
          match canonicalize codec p with
          | .error e => .error (.invalid e)
          | .ok canonical =>
              match verify key signature canonical with
              | .ok _ => .ok ()
              | .error e => .error (.invalid e)

/-- The policy carries what the signer made over its canonical bytes. -/
def SignedBy (sign : Signer) (p : Policy) : Prop :=
  ∃ canonical key signature, canonicalize codec p = .ok canonical ∧
    sign canonical = .ok (key, signature) ∧
    p.signature = some (.ed25519 key (hexEncode signature))

variable {codec}

theorem SignedBy.verifyPolicy {verify : Verifier} {sign : Signer}
    (hideal : verify.Ideal sign) {p : Policy} (h : SignedBy codec sign p) :
    verifyPolicy codec verify p = .ok () := by
  obtain ⟨canonical, key, signature, hcanonical, hsign, hsignature⟩ := h
  have hverify := (hideal canonical key signature hsign canonical).mpr rfl
  simp [Policies.verifyPolicy, hsignature, hcanonical, hverify]

end Policies

end AgentStateGraph
