/-
`base64.c`, the decoder: `Base64decode_len` and `Base64decode`.

Both measure the run of characters the table `pr2six` knows, up to the first
one it does not (the terminating zero at the latest). The decoder's writes are
a list of bytes, in order from the start of the destination; an `int` never
overflows here, an MQTT payload being shorter than 2^28 bytes.
-/
import SpeechAnalyzer.Lib.StdBase64
import Mathlib.Algebra.Group.Nat.Defs

namespace SpeechAnalyzer

open Lib

/-- The table, by character code; 64 marks what is not a digit. -/
def pr2sixTable : List Nat := [
  64, 64, 64, 64, 64, 64, 64, 64, 64, 64, 64, 64, 64, 64, 64, 64, 64, 64, 64,
  64, 64, 64, 64, 64, 64, 64, 64, 64, 64, 64, 64, 64, 64, 64, 64, 64, 64, 64,
  64, 64, 64, 64, 64, 62, 64, 64, 64, 63, 52, 53, 54, 55, 56, 57, 58, 59, 60,
  61, 64, 64, 64, 64, 64, 64, 64, 0,  1,  2,  3,  4,  5,  6,  7,  8,  9,  10,
  11, 12, 13, 14, 15, 16, 17, 18, 19, 20, 21, 22, 23, 24, 25, 64, 64, 64, 64,
  64, 64, 26, 27, 28, 29, 30, 31, 32, 33, 34, 35, 36, 37, 38, 39, 40, 41, 42,
  43, 44, 45, 46, 47, 48, 49, 50, 51, 64, 64, 64, 64, 64, 64, 64, 64, 64, 64,
  64, 64, 64, 64, 64, 64, 64, 64, 64, 64, 64, 64, 64, 64, 64, 64, 64, 64, 64,
  64, 64, 64, 64, 64, 64, 64, 64, 64, 64, 64, 64, 64, 64, 64, 64, 64, 64, 64,
  64, 64, 64, 64, 64, 64, 64, 64, 64, 64, 64, 64, 64, 64, 64, 64, 64, 64, 64,
  64, 64, 64, 64, 64, 64, 64, 64, 64, 64, 64, 64, 64, 64, 64, 64, 64, 64, 64,
  64, 64, 64, 64, 64, 64, 64, 64, 64, 64, 64, 64, 64, 64, 64, 64, 64, 64, 64,
  64, 64, 64, 64, 64, 64, 64, 64, 64, 64, 64, 64, 64, 64, 64, 64, 64, 64, 64,
  64, 64, 64, 64, 64, 64, 64, 64, 64]

/-- A character past the table is a multi-byte one, whose bytes are all past 127. -/
def pr2six (c : Char) : Nat := pr2sixTable.getD c.toNat 64

/-- `while (pr2six[*(bufin++)] <= 63);`, then `nprbytes`. -/
def nprbytes (bufcoded : Str) : Nat := (bufcoded.takeWhile fun c => pr2six c ≤ 63).length

/-- `Base64decode_len`. -/
def base64decodeLen (bufcoded : Str) : Nat := (nprbytes bufcoded + 3) / 4 * 3 + 1

/-- `bufin[i]`. -/
def charAt (bufin : Str) (i : Nat) : Nat := pr2six (bufin.getD i '\x00')

/-- The three bytes of a group of four digits. -/
def byte0 (bufin : Str) : UInt8 := UInt8.ofNat (charAt bufin 0 <<< 2 ||| charAt bufin 1 >>> 4)
def byte1 (bufin : Str) : UInt8 := UInt8.ofNat (charAt bufin 1 <<< 4 ||| charAt bufin 2 >>> 2)
def byte2 (bufin : Str) : UInt8 := UInt8.ofNat (charAt bufin 2 <<< 6 ||| charAt bufin 3)

/-- After the loop: `nprbytes` is at most four, and a lone digit is ignored. -/
def decodeTail (nprbytes : Nat) (bufin : Str) : Bytes :=
  (if nprbytes > 1 then [byte0 bufin] else []) ++ (if nprbytes > 2 then [byte1 bufin] else []) ++
    (if nprbytes > 3 then [byte2 bufin] else []) ++ [0]

/-- `while (nprbytes > 4)`, and what follows it. -/
def decodeLoop : Nat → Str → Bytes
  | n + 5, bufin =>
    byte0 bufin :: byte1 bufin :: byte2 bufin :: decodeLoop (n + 1) (bufin.drop 4)
  | nprbytes, bufin => decodeTail nprbytes bufin

/-- `nprbytes` after the loop. -/
def lastGroup : Nat → Nat
  | n + 5 => lastGroup (n + 1)
  | nprbytes => nprbytes

/-- `Base64decode`: the bytes it writes, the terminator included, and its result. -/
def base64decode (bufcoded : Str) : Bytes × Nat :=
  (decodeLoop (nprbytes bufcoded) bufcoded,
    (nprbytes bufcoded + 3) / 4 * 3 - ((4 - lastGroup (nprbytes bufcoded)) &&& 3))

/-! ## Decoding standard base64 -/

theorem pr2six_digit_fin : ∀ v : Fin 64, pr2six (StdBase64.digit v) = v := by
  decide +kernel

theorem pr2six_digit {v : Nat} (h : v < 64) : pr2six (StdBase64.digit v) = v :=
  pr2six_digit_fin ⟨v, h⟩

theorem pr2six_pad : pr2six '=' = 64 := by decide

/-- The run of digits ends where the padding begins. -/
theorem nprbytes_encode (bs : Bytes) : nprbytes (StdBase64.encode bs) = (StdBase64.groups bs).length := by
  have hdigits : ∀ c ∈ (StdBase64.groups bs).map StdBase64.digit, decide (pr2six c ≤ 63) = true := by
    intro c hc
    obtain ⟨v, hv, rfl⟩ := List.mem_map.mp hc
    have hlt := StdBase64.groups_lt bs v hv
    rw [pr2six_digit hlt]
    simp only [decide_eq_true_eq]
    omega
  have hpad : ∀ n, (List.replicate n '=').takeWhile (fun c => decide (pr2six c ≤ 63)) = [] := by
    intro n
    cases n with
    | zero => rfl
    | succ n => simp [List.replicate_succ, pr2six_pad]
  simp only [nprbytes, StdBase64.encode]
  rw [List.takeWhile_append_of_pos hdigits, hpad, List.append_nil, List.length_map]

@[simp] theorem charAt_zero {v : Nat} (h : v < 64) (s : Str) : charAt (StdBase64.digit v :: s) 0 = v := by
  simp [charAt, pr2six_digit h]

@[simp] theorem charAt_succ (c : Char) (s : Str) (i : Nat) : charAt (c :: s) (i + 1) = charAt s i := by
  simp [charAt]

theorem or_shiftLeft {x y i : Nat} (h : y < 2 ^ i) : x <<< i ||| y = x * 2 ^ i + y := by
  rw [← Nat.shiftLeft_add_eq_or_of_lt h, Nat.shiftLeft_eq]

/-- The first byte of a group whose second digit carries the low bits of `a`. -/
theorem byte0_eq (a : UInt8) {u : Nat} (hu : u < 16) (s : Str) :
    byte0 (StdBase64.digit (a.toNat / 4) :: StdBase64.digit (a.toNat % 4 * 16 + u) :: s) = a := by
  have ha := a.toNat_lt
  have hshift : (a.toNat % 4 * 16 + u) >>> 4 = a.toNat % 4 := by
    rw [Nat.shiftRight_eq_div_pow]
    omega
  rw [byte0, charAt_zero (by omega), charAt_succ, charAt_zero (by omega), hshift,
    or_shiftLeft (by omega), show a.toNat / 4 * 2 ^ 2 + a.toNat % 4 = a.toNat by omega]
  exact UInt8.ofNat_toNat

theorem byte1_eq (b : UInt8) {t u : Nat} (ht : t < 4) (hu : u < 4) (c : Char) (s : Str) :
    byte1 (c :: StdBase64.digit (t * 16 + b.toNat / 16) :: StdBase64.digit (b.toNat % 16 * 4 + u) :: s) =
      b := by
  have hb := b.toNat_lt
  have hshift : (b.toNat % 16 * 4 + u) >>> 2 = b.toNat % 16 := by
    rw [Nat.shiftRight_eq_div_pow]
    omega
  rw [byte1, charAt_succ, charAt_zero (by omega), charAt_succ, charAt_succ, charAt_zero (by omega),
    hshift, or_shiftLeft (by omega)]
  apply UInt8.toNat_inj.mp
  rw [UInt8.toNat_ofNat']
  omega

theorem byte2_eq (b : UInt8) {t : Nat} (ht : t < 16) (c d : Char) (s : Str) :
    byte2 (c :: d :: StdBase64.digit (t * 4 + b.toNat / 64) :: StdBase64.digit (b.toNat % 64) :: s) = b := by
  have hb := b.toNat_lt
  rw [byte2, charAt_succ, charAt_succ, charAt_zero (by omega), charAt_succ, charAt_succ, charAt_succ,
    charAt_zero (by omega), or_shiftLeft (by omega)]
  apply UInt8.toNat_inj.mp
  rw [UInt8.toNat_ofNat']
  omega

theorem decodeLoop_groups : ∀ (bs : Bytes) (rest : Str),
    decodeLoop (StdBase64.groups bs).length ((StdBase64.groups bs).map StdBase64.digit ++ rest) = bs ++ [0]
  | [], rest => by simp [StdBase64.groups, decodeLoop, decodeTail]
  | [a], rest => by
    have h0 := byte0_eq a (u := 0) (by omega) rest
    simpa [StdBase64.groups, decodeLoop, decodeTail] using h0
  | [a, b], rest => by
    have ha := a.toNat_lt
    have hb := b.toNat_lt
    have h0 := byte0_eq a (u := b.toNat / 16) (by omega)
      (StdBase64.digit (b.toNat % 16 * 4) :: rest)
    have h1 := byte1_eq b (t := a.toNat % 4) (u := 0) (by omega) (by omega)
      (StdBase64.digit (a.toNat / 4)) rest
    rw [Nat.add_zero] at h1
    simp [StdBase64.groups, decodeLoop, decodeTail, h0, h1]
  | a :: b :: c :: bs, rest => by
    have hb := b.toNat_lt
    have hc := c.toNat_lt
    have ih := decodeLoop_groups bs rest
    have h0 := byte0_eq a (u := b.toNat / 16) (by omega)
      (StdBase64.digit (b.toNat % 16 * 4 + c.toNat / 64) :: StdBase64.digit (c.toNat % 64) ::
        ((StdBase64.groups bs).map StdBase64.digit ++ rest))
    have h1 := byte1_eq b (t := a.toNat % 4) (u := c.toNat / 64) (by omega) (by omega)
      (StdBase64.digit (a.toNat / 4))
      (StdBase64.digit (c.toNat % 64) :: ((StdBase64.groups bs).map StdBase64.digit ++ rest))
    have h2 := byte2_eq c (t := b.toNat % 16) (by omega) (StdBase64.digit (a.toNat / 4))
      (StdBase64.digit (a.toNat % 4 * 16 + b.toNat / 16))
      ((StdBase64.groups bs).map StdBase64.digit ++ rest)
    -- The loop stops at four digits, not at none: the last full group is decoded by the tail.
    cases hl : (StdBase64.groups bs).length with
    | zero =>
      rw [hl] at ih
      obtain rfl : bs = [] := by
        have := StdBase64.length_groups bs
        exact List.length_eq_zero_iff.mp (by omega)
      simp only [StdBase64.groups, List.map_nil, List.nil_append] at h0 h1 h2
      simp [StdBase64.groups, decodeLoop, decodeTail, h0, h1, h2]
    | succ n =>
      rw [hl] at ih
      simp only [StdBase64.groups, List.length_cons, hl, List.map_cons, List.cons_append, List.nil_append]
      rw [decodeLoop, h0, h1, h2]
      simpa using ih

/-- The decoder writes the encoded bytes and the terminator. -/
theorem base64decode_encode (bs : Bytes) : (base64decode (StdBase64.encode bs)).1 = bs ++ [0] := by
  simp only [base64decode, nprbytes_encode]
  exact decodeLoop_groups bs _

/-- The destination's size: the bytes rounded up to threes, and the terminator. -/
theorem base64decodeLen_encode (bs : Bytes) :
    base64decodeLen (StdBase64.encode bs) = (bs.length + 2) / 3 * 3 + 1 := by
  rw [base64decodeLen, nprbytes_encode, StdBase64.length_groups]
  omega

end SpeechAnalyzer
