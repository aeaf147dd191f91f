/-
Standard base64: a byte string as the six-bit groups of its bits, each written
as a digit of the alphabet, the text filled up with `=` to a multiple of four.
-/
import SpeechAnalyzer.Lib.Json

namespace Lib.StdBase64

/-- The digits, in the order of their values. -/
def alphabet : List Char :=
  "ABCDEFGHIJKLMNOPQRSTUVWXYZabcdefghijklmnopqrstuvwxyz0123456789+/".toList

def digit (v : Nat) : Char := alphabet.getD v '='

/-- The six-bit groups, the last one filled up with zero bits. -/
def groups : Bytes → List Nat
  | [] => []
  | [a] => [a.toNat / 4, a.toNat % 4 * 16]
  | [a, b] => [a.toNat / 4, a.toNat % 4 * 16 + b.toNat / 16, b.toNat % 16 * 4]
  | a :: b :: c :: bs =>
    [a.toNat / 4, a.toNat % 4 * 16 + b.toNat / 16, b.toNat % 16 * 4 + c.toNat / 64, c.toNat % 64] ++
      groups bs

/-- How many `=` follow `n` digits. -/
def padding (n : Nat) : Nat := (4 - n % 4) % 4

def encode (bs : Bytes) : Str :=
  (groups bs).map digit ++ List.replicate (padding (groups bs).length) '='

theorem groups_lt : ∀ (bs : Bytes), ∀ v ∈ groups bs, v < 64
  | [], v, h => by simp [groups] at h
  | [a], v, h => by
    have := a.toNat_lt
    simp only [groups, List.mem_cons, List.not_mem_nil, or_false] at h
    omega
  | [a, b], v, h => by
    have := a.toNat_lt
    have := b.toNat_lt
    simp only [groups, List.mem_cons, List.not_mem_nil, or_false] at h
    omega
  | a :: b :: c :: bs, v, h => by
    have := a.toNat_lt
    have := b.toNat_lt
    have := c.toNat_lt
    simp only [groups, List.mem_append, List.mem_cons, List.not_mem_nil, or_false] at h
    rcases h with h | h
    · omega
    · exact groups_lt bs v h

/-- Three bytes make four digits, one or two left over make one more digit than bytes. -/
theorem length_groups : ∀ bs : Bytes, (groups bs).length = (4 * bs.length + 2) / 3
  | [] => rfl
  | [_] => by simp [groups]
  | [_, _] => by simp [groups]
  | a :: b :: c :: bs => by
    simp only [groups, List.length_append, List.length_cons, List.length_nil, length_groups bs]
    omega

theorem length_encode (bs : Bytes) : (encode bs).length = 4 * ((bs.length + 2) / 3) := by
  simp only [encode, padding, List.length_append, List.length_map, List.length_replicate, length_groups]
  omega

/-- Three bytes are four digits, and do not change the padding. -/
theorem encode_cons (a b c : UInt8) (bs : Bytes) : encode (a :: b :: c :: bs) =
    digit (a.toNat / 4) :: digit (a.toNat % 4 * 16 + b.toNat / 16) :: digit (b.toNat % 16 * 4 + c.toNat / 64) ::
      digit (c.toNat % 64) :: encode bs := by
  have hpadding : padding (groups (a :: b :: c :: bs)).length = padding (groups bs).length := by
    simp only [padding, groups, List.length_append, List.length_cons, List.length_nil]
    omega
  rw [encode, hpadding]
  rfl

end Lib.StdBase64
