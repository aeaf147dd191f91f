/-
`base64.c`, the encoder: `Base64encode_len` and `Base64encode`, and the round
trip through the decoder. The encoder reads `char`s, which are signed: a byte
from 128 on is a negative `int` by the time it is shifted and masked. The round
trip is for lengths whose `Base64encode_len` is an `int`.
-/
import SpeechAnalyzer.Base64

namespace SpeechAnalyzer

open Lib

def basis64 : Str := "ABCDEFGHIJKLMNOPQRSTUVWXYZabcdefghijklmnopqrstuvwxyz0123456789+/".toList

/-- `Base64encode_len`. -/
def base64encodeLen (len : Nat) : Nat := (len + 2) / 3 * 4 + 1

/-- `string[i]`, in an expression. -/
def promoted (c : UInt8) : Int32 := c.toInt8.toInt32

/-- `basis_64[i]`. -/
def basisAt (i : Int32) : Char := basis64.getD i.toNatClampNeg '\x00'

/-- The terms of the indices: what one byte gives to each of its two digits. -/
def high6 (c : UInt8) : Int32 := promoted c >>> 2 &&& 0x3F
def low2 (c : UInt8) : Int32 := (promoted c &&& 0x3) <<< 4
def high4 (c : UInt8) : Int32 := (promoted c &&& 0xF0) >>> 4
def low4 (c : UInt8) : Int32 := (promoted c &&& 0xF) <<< 2
def high2 (c : UInt8) : Int32 := (promoted c &&& 0xC0) >>> 6
def low6 (c : UInt8) : Int32 := promoted c &&& 0x3F

/-- The `for` over what is left of `string`, and what follows it. -/
def encodeLoop : Bytes → Str
  | a :: b :: c :: string =>
    basisAt (high6 a) :: basisAt (low2 a ||| high4 b) :: basisAt (low4 b ||| high2 c) :: basisAt (low6 c) ::
      encodeLoop string
  | [a, b] => [basisAt (high6 a), basisAt (low2 a ||| high4 b), basisAt (low4 b), '=', '\x00']
  | [a] => [basisAt (high6 a), basisAt (low2 a), '=', '=', '\x00']
  | [] => ['\x00']

/-- `Base64encode`: the characters it writes, the terminator included, and its
result. -/
def base64encode (string : Bytes) : Str × Nat := (encodeLoop string, (encodeLoop string).length)

/-! ## Standard base64 -/

/-- The six terms are parts of the byte, whatever the sign of the `char`. -/
theorem terms_fin : ∀ v : Fin 256, high6 (.ofFin v) = .ofNat (v / 4) ∧ low2 (.ofFin v) = .ofNat (v % 4 * 16) ∧
    high4 (.ofFin v) = .ofNat (v / 16) ∧ low4 (.ofFin v) = .ofNat (v % 16 * 4) ∧
    high2 (.ofFin v) = .ofNat (v / 64) ∧ low6 (.ofFin v) = .ofNat (v % 64) := by
  decide +kernel

theorem basisAt_fin : ∀ v : Fin 64, basisAt (.ofNat v) = StdBase64.digit v := by
  decide +kernel

theorem basisAt_ofNat {v : Nat} (h : v < 64) : basisAt (.ofNat v) = StdBase64.digit v := basisAt_fin ⟨v, h⟩

theorem or_fin : ∀ (x : Fin 4) (y : Fin 16), Int32.ofNat (x * 16) ||| .ofNat y = .ofNat (x * 16 + y) ∧
    Int32.ofNat (y * 4) ||| .ofNat x = .ofNat (y * 4 + x) := by
  decide +kernel

section Digits

variable (a b : UInt8)

theorem basisAt_high6 : basisAt (high6 a) = StdBase64.digit (a.toNat / 4) := by
  have ha := a.toNat_lt
  rw [show high6 a = .ofNat (a.toNat / 4) from (terms_fin a.toFin).1, basisAt_ofNat (by omega)]

theorem basisAt_low6 : basisAt (low6 a) = StdBase64.digit (a.toNat % 64) := by
  rw [show low6 a = .ofNat (a.toNat % 64) from (terms_fin a.toFin).2.2.2.2.2, basisAt_ofNat (by omega)]

theorem basisAt_low2 : basisAt (low2 a) = StdBase64.digit (a.toNat % 4 * 16) := by
  rw [show low2 a = .ofNat (a.toNat % 4 * 16) from (terms_fin a.toFin).2.1, basisAt_ofNat (by omega)]

theorem basisAt_low4 : basisAt (low4 a) = StdBase64.digit (a.toNat % 16 * 4) := by
  rw [show low4 a = .ofNat (a.toNat % 16 * 4) from (terms_fin a.toFin).2.2.2.1, basisAt_ofNat (by omega)]

theorem basisAt_low2_high4 : basisAt (low2 a ||| high4 b) = StdBase64.digit (a.toNat % 4 * 16 + b.toNat / 16) := by
  have hb := b.toNat_lt
  have hor := (or_fin ⟨a.toNat % 4, by omega⟩ ⟨b.toNat / 16, by omega⟩).1
  rw [show low2 a = .ofNat (a.toNat % 4 * 16) from (terms_fin a.toFin).2.1,
    show high4 b = .ofNat (b.toNat / 16) from (terms_fin b.toFin).2.2.1, hor, basisAt_ofNat (by omega)]

theorem basisAt_low4_high2 : basisAt (low4 a ||| high2 b) = StdBase64.digit (a.toNat % 16 * 4 + b.toNat / 64) := by
  have hb := b.toNat_lt
  have hor := (or_fin ⟨b.toNat / 64, by omega⟩ ⟨a.toNat % 16, by omega⟩).2
  rw [show low4 a = .ofNat (a.toNat % 16 * 4) from (terms_fin a.toFin).2.2.2.1,
    show high2 b = .ofNat (b.toNat / 64) from (terms_fin b.toFin).2.2.2.2.1, hor, basisAt_ofNat (by omega)]

end Digits

theorem encodeLoop_eq : ∀ bs : Bytes, encodeLoop bs = StdBase64.encode bs ++ ['\x00']
  | [] => rfl
  | [a] => by
    simp only [encodeLoop, basisAt_high6, basisAt_low2]
    rfl
  | [a, b] => by
    simp only [encodeLoop, basisAt_high6, basisAt_low2_high4, basisAt_low4]
    rfl
  | a :: b :: c :: bs => by
    have ih := encodeLoop_eq bs
    simp only [encodeLoop, basisAt_high6, basisAt_low2_high4, basisAt_low4_high2, basisAt_low6, ih,
      StdBase64.encode_cons, List.cons_append]

/-! ## The decoder's result -/

/-- The decoder returns the bytes it wrote before the terminator, for any text. -/
theorem length_decodeLoop_eq (n : Nat) (bufin : Str) :
    (decodeLoop n bufin).length = (n + 3) / 4 * 3 - ((4 - lastGroup n) &&& 3) + 1 ∧
      (4 - lastGroup n) &&& 3 ≤ (n + 3) / 4 * 3 := by
  induction n, bufin using decodeLoop.induct with
  | case1 n bufin ih =>
    simp only [decodeLoop, lastGroup, List.length_cons]
    omega
  | case2 n bufin hn =>
    have hle : n = 0 ∨ n = 1 ∨ n = 2 ∨ n = 3 ∨ n = 4 := by
      by_contra hgt
      exact hn (n - 5) (by omega)
    rcases hle with rfl | rfl | rfl | rfl | rfl
    all_goals exact ⟨rfl, by decide⟩

theorem length_base64decode (bufcoded : Str) : (base64decode bufcoded).1.length = (base64decode bufcoded).2 + 1 :=
  (length_decodeLoop_eq (nprbytes bufcoded) bufcoded).1

theorem not_nul_of_alphabet : ∀ v : Fin 64, StdBase64.digit v ≠ '\x00' := by
  decide +kernel

theorem not_nul_encode (bs : Bytes) : '\x00' ∉ StdBase64.encode bs := by
  rw [StdBase64.encode, List.mem_append, not_or]
  refine ⟨fun h => ?_, fun h => ?_⟩
  · obtain ⟨v, hv, hnul⟩ := List.mem_map.mp h
    exact not_nul_of_alphabet ⟨v, StdBase64.groups_lt bs v hv⟩ hnul
  · exact absurd (List.eq_of_mem_replicate h) (by decide)

/-- **Round trip.** `Base64encode` fills a buffer of `Base64encode_len` bytes to
its end with the standard encoding and a terminator, and returns that size;
`Base64decode` writes the bytes back, within `Base64decode_len`, and returns
their number. -/
theorem base64decode_base64encode (bs : Bytes) (hint : base64encodeLen bs.length < 2 ^ 31) :
    (base64encode bs).1 = StdBase64.encode bs ++ ['\x00'] ∧ '\x00' ∉ StdBase64.encode bs ∧
    (base64encode bs).2 = base64encodeLen bs.length ∧ (base64encode bs).1.length = base64encodeLen bs.length ∧
    base64decode (StdBase64.encode bs) = (bs ++ [0], bs.length) ∧
    bs.length + 1 ≤ base64decodeLen (StdBase64.encode bs) ∧ base64decodeLen (StdBase64.encode bs) < 2 ^ 31 := by
  have hlength : (encodeLoop bs).length = base64encodeLen bs.length := by
    rw [encodeLoop_eq, List.length_append, StdBase64.length_encode, base64encodeLen, List.length_singleton,
      Nat.mul_comm]
  have hwritten := base64decode_encode bs
  have hresult := length_base64decode (StdBase64.encode bs)
  rw [hwritten, List.length_append, List.length_singleton] at hresult
  refine ⟨encodeLoop_eq bs, not_nul_encode bs, hlength, hlength, ?_, ?_⟩
  · exact Prod.ext hwritten (Nat.add_right_cancel hresult).symm
  · rw [base64decodeLen_encode]
    rw [base64encodeLen] at hint
    omega

/-- Two bytes, one of them no signed `char` of a positive value. -/
theorem base64decode_base64encode_two :
    base64decode (StdBase64.encode [0xFF, 0x01]) = ([0xFF, 0x01, 0], 2) ∧ (base64encode [0xFF, 0x01]).2 = 5 := by
  obtain ⟨-, -, hsize, -, hround, -⟩ := base64decode_base64encode [0xFF, 0x01] (by decide)
  exact ⟨hround, hsize⟩

end SpeechAnalyzer
