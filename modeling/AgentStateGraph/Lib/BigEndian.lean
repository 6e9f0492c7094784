import Mathlib

/-!
# Big-endian numbers

Numbers as fixed-width byte strings, most significant byte first.
-/

namespace BigEndian

/-- The `width` low bytes of `n`. -/
def encode : ℕ → ℕ → List UInt8
  | 0, _ => []
  | width + 1, n => encode width (n / 256) ++ [UInt8.ofNat n]

def decode (bytes : List UInt8) : ℕ :=
  bytes.foldl (fun n b => n * 256 + b.toNat) 0

@[simp] theorem length_encode (width n : ℕ) :
    (encode width n).length = width := by
  induction width generalizing n with
  | zero => rfl
  | succ width ih => simp [encode, ih]

theorem decode_append_singleton (bytes : List UInt8) (b : UInt8) :
    decode (bytes ++ [b]) = decode bytes * 256 + b.toNat := by
  simp [decode]

/-- A number that fits reads back. -/
theorem decode_encode {width n : ℕ} (h : n < 256 ^ width) :
    decode (encode width n) = n := by
  induction width generalizing n with
  | zero =>
      have hn : n = 0 := by simpa using h
      simp [encode, decode, hn]
  | succ width ih =>
      have hdiv : n / 256 < 256 ^ width := by
        rw [pow_succ] at h
        omega
      rw [encode, decode_append_singleton, ih hdiv]
      simp only [UInt8.toNat_ofNat']
      omega

theorem encode_decode (bytes : List UInt8) :
    encode bytes.length (decode bytes) = bytes := by
  induction bytes using List.reverseRecOn with
  | nil => rfl
  | append_singleton bytes b ih =>
      have hb : b.toNat < 256 := b.toNat_lt
      have hdiv : (decode bytes * 256 + b.toNat) / 256 = decode bytes := by
        omega
      have hlow : UInt8.ofNat (decode bytes * 256 + b.toNat) = b := by
        apply UInt8.toNat_inj.mp
        simp only [UInt8.toNat_ofNat']
        omega
      rw [List.length_append, List.length_singleton, encode,
        decode_append_singleton, hdiv, hlow, ih]

end BigEndian
