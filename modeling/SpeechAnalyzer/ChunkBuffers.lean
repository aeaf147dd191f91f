/-
The three sizes of `on_message`: of `decoded`, of the copy, and of
`float_chunk`. All come from the number of digits at the start of the text,
rounded up to groups of four, and the third falls short of the second unless
the groups leave three over four. The text comes in an MQTT payload, which
keeps the sizes within `int`.
-/
import SpeechAnalyzer.OpensmileSession

namespace SpeechAnalyzer

open Lib

/-- The groups of four digits `Base64decode_len` counts, the last one perhaps
not complete. -/
def digitGroups (bufcoded : Str) : Nat := (nprbytes bufcoded + 3) / 4

/-- `decoded.size() - 2`, the length of the `memcpy`. -/
def copyLength (codedSrc : Str) : Nat := sizeSub (base64decodeLen codedSrc) 2

/-- `float_chunk.size() * sizeof(float)`. -/
def floatBytes (codedSrc : Str) : Nat := 4 * (copyLength codedSrc / 4)

/-- The buffers of a text are used within their bounds. -/
structure InBounds (codedSrc : Str) : Prop where
  size : base64decodeLen codedSrc < 2 ^ 31
  noWrap : 2 ≤ base64decodeLen codedSrc
  written : (base64decode codedSrc).1.length ≤ base64decodeLen codedSrc
  copied : copyLength codedSrc ≤ floatBytes codedSrc

/-- `decoded`, after `Base64decode`. -/
def decodedBuffer (codedSrc : Str) : Bytes :=
  (base64decode codedSrc).1 ++ List.replicate (base64decodeLen codedSrc - (base64decode codedSrc).1.length) 0

/-- The floats of `decoded`, by its size less two. -/
def samplesOf (codedSrc : Str) : Bytes := (decodedBuffer codedSrc).take (floatBytes codedSrc)

theorem base64decodeLen_eq (codedSrc : Str) : base64decodeLen codedSrc = digitGroups codedSrc * 3 + 1 := rfl

/-! ## The decoder -/

theorem length_decodeTail {n : Nat} (hn : n ≤ 4) (bufin : Str) :
    (decodeTail n bufin).length ≤ (n + 3) / 4 * 3 + 1 := by
  simp only [decodeTail, List.length_append, apply_ite List.length, List.length_singleton, List.length_nil]
  split <;> split <;> split <;> omega

/-- Three bytes for each group, and the terminator. -/
theorem length_decodeLoop (n : Nat) (bufin : Str) : (decodeLoop n bufin).length ≤ (n + 3) / 4 * 3 + 1 := by
  induction n, bufin using decodeLoop.induct with
  | case1 n bufin ih =>
    simp only [decodeLoop, List.length_cons]
    omega
  | case2 n bufin hn =>
    have hle : n ≤ 4 := by
      by_contra hgt
      exact hn (n - 5) (by omega)
    have htail : decodeLoop n bufin = decodeTail n bufin := by
      unfold decodeLoop
      split
      · omega
      · rfl
    rw [htail]
    exact length_decodeTail hle bufin

/-- Whatever the text, the decoder stays in the buffer. -/
theorem length_base64decode_le (codedSrc : Str) : (base64decode codedSrc).1.length ≤ base64decodeLen codedSrc :=
  length_decodeLoop (nprbytes codedSrc) codedSrc

/-! ## The copy -/

theorem copyLength_eq {codedSrc : Str} (h : digitGroups codedSrc ≠ 0) :
    copyLength codedSrc = digitGroups codedSrc * 3 - 1 := by
  rw [copyLength, base64decodeLen_eq, sizeSub, if_pos (by omega)]
  omega

/-- The bytes the copy writes past `float_chunk`. -/
theorem copyLength_sub_floatBytes {codedSrc : Str} (h : digitGroups codedSrc ≠ 0) :
    copyLength codedSrc - floatBytes codedSrc = (digitGroups codedSrc * 3 - 1) % 4 := by
  have hmod := Nat.div_add_mod (copyLength codedSrc) 4
  rw [floatBytes, ← copyLength_eq h]
  omega

theorem copied_iff {codedSrc : Str} (h : digitGroups codedSrc ≠ 0) :
    copyLength codedSrc ≤ floatBytes codedSrc ↔ digitGroups codedSrc % 4 = 3 := by
  have hover := copyLength_sub_floatBytes h
  omega

/-- `int` holds the size of what a payload can carry. -/
theorem base64decodeLen_lt {codedSrc : Str} (hpayload : codedSrc.length ≤ maxPayload) :
    base64decodeLen codedSrc < 2 ^ 31 := by
  have hle : nprbytes codedSrc ≤ codedSrc.length := (List.takeWhile_prefix _).length_le
  rw [maxPayload] at hpayload
  rw [base64decodeLen]
  omega

theorem inBounds_groups {codedSrc : Str} (hpayload : codedSrc.length ≤ maxPayload) :
    InBounds codedSrc ↔ digitGroups codedSrc % 4 = 3 := by
  by_cases h : digitGroups codedSrc = 0
  · refine ⟨fun hin => ?_, fun h3 => ?_⟩
    · have hwrap := hin.noWrap
      rw [base64decodeLen_eq, h] at hwrap
      omega
    · omega
  · refine ⟨fun hin => (copied_iff h).mp hin.copied, fun h3 => ?_⟩
    refine ⟨base64decodeLen_lt hpayload, ?_, length_base64decode_le codedSrc, (copied_iff h).mpr h3⟩
    rw [base64decodeLen_eq]
    omega

/-- **The buffers are used within their bounds exactly when the groups of
digits are three more than a multiple of four**, for every text of a payload. -/
theorem inBounds_iff (codedSrc : Str) (hpayload : codedSrc.length ≤ maxPayload) :
    InBounds codedSrc ↔ (nprbytes codedSrc + 3) / 4 % 4 = 3 :=
  inBounds_groups hpayload

/-- Two samples, and two samples with a digit cut off. -/
theorem inBounds_iff_two : InBounds "AAAAAAAAAAA=".toList ∧ ¬ InBounds "AAAAAAA".toList :=
  ⟨(inBounds_iff "AAAAAAAAAAA=".toList (by decide)).mpr (by decide),
    fun h => absurd ((inBounds_iff "AAAAAAA".toList (by decide)).mp h) (by decide)⟩

/-- The text of one float sample: the copy writes five bytes to a buffer of four. -/
theorem one_sample_overruns : ¬ ∀ codedSrc : Str, InBounds codedSrc := by
  intro h
  have hcopied := (h (StdBase64.encode [0, 0, 0, 0])).copied
  exact absurd hcopied (by decide)

/-- In samples: `n` make these groups when `n` is two more than a multiple of
three, which 4096 is not. -/
theorem digitGroups_encode_iff {bs : Bytes} {n : Nat} (h : bs.length = 4 * n) :
    digitGroups (StdBase64.encode bs) % 4 = 3 ↔ n % 3 = 2 := by
  rw [digitGroups, nprbytes_encode, StdBase64.length_groups, h]
  have hn := Nat.div_add_mod n 3
  generalize n / 3 = k at hn
  rcases (show n % 3 = 0 ∨ n % 3 = 1 ∨ n % 3 = 2 by omega) with h0 | h1 | h2
  · have hthird : (4 * (4 * n) + 2) / 3 = 16 * k := by omega
    omega
  · have hthird : (4 * (4 * n) + 2) / 3 = 16 * k + 6 := by omega
    omega
  · have hthird : (4 * (4 * n) + 2) / 3 = 16 * k + 11 := by omega
    omega

/-! ## The chunk -/

theorem overwrite_decoded (codedSrc : Str) :
    overwrite (List.replicate (base64decodeLen codedSrc) 0) (base64decode codedSrc).1 = decodedBuffer codedSrc := by
  rw [overwrite, List.length_replicate, List.take_of_length_le (length_base64decode_le codedSrc), List.drop_replicate]
  rfl

theorem length_decodedBuffer (codedSrc : Str) : (decodedBuffer codedSrc).length = base64decodeLen codedSrc := by
  rw [← overwrite_decoded, length_overwrite, List.length_replicate]

/-- `decodeChunk` by its sizes. -/
theorem decodeChunk_eq (codedSrc : Str) :
    decodeChunk codedSrc =
      if copyLength codedSrc / 4 > maxFloats then .error (.exception .lengthError)
      else
        let d : Decoded := ⟨base64decodeLen codedSrc, (base64decode codedSrc).1.length, copyLength codedSrc / 4,
          copyLength codedSrc, overwrite (List.replicate (floatBytes codedSrc) 0)
            ((decodedBuffer codedSrc).take (copyLength codedSrc))⟩
        if copyLength codedSrc ≤ floatBytes codedSrc then .ok d
        else if copyLength codedSrc / 4 = 0 then .error .nullWrite
        else .error (.overrun d) := by
  simp only [decodeChunk, overwrite_decoded, length_decodedBuffer]
  rfl

/-- Within bounds `float_chunk` gets the samples, all of them. -/
theorem decodeChunk_groups {codedSrc : Str} (h : digitGroups codedSrc % 4 = 3)
    (hpayload : codedSrc.length ≤ maxPayload) :
    ∃ d, decodeChunk codedSrc = .ok d ∧ d.floatChunk = samplesOf codedSrc := by
  have hcopied : copyLength codedSrc = digitGroups codedSrc * 3 - 1 := copyLength_eq (by omega)
  have hfits : copyLength codedSrc ≤ floatBytes codedSrc := (copied_iff (by omega)).mpr h
  have hfloor : floatBytes codedSrc ≤ copyLength codedSrc := Nat.mul_div_le _ _
  have hsize := base64decodeLen_lt hpayload
  have hroom : copyLength codedSrc ≤ (decodedBuffer codedSrc).length := by
    rw [length_decodedBuffer, base64decodeLen_eq]
    omega
  have hfloats : ¬ copyLength codedSrc / 4 > maxFloats := by
    rw [length_decodedBuffer] at hroom
    rw [maxFloats]
    omega
  rw [decodeChunk_eq, if_neg hfloats, if_pos hfits]
  refine ⟨_, rfl, ?_⟩
  simp only
  rw [overwrite_of_le, List.length_replicate, List.take_take, Nat.min_eq_left hfloor]
  · rfl
  · rw [List.length_replicate, List.length_take, Nat.min_eq_left hroom]
    exact hfloor

theorem decodeChunk_fault {codedSrc : Str} (h : digitGroups codedSrc % 4 ≠ 3) :
    ∃ fault, decodeChunk codedSrc = .error fault := by
  rw [decodeChunk_eq]
  by_cases hnone : digitGroups codedSrc = 0
  · -- The subtraction wraps around, and no vector is that large.
    have hcopied : copyLength codedSrc = 2 ^ 64 - 1 := by
      rw [copyLength, base64decodeLen_eq, hnone]
      rfl
    rw [if_pos (by rw [hcopied, maxFloats]; omega)]
    exact ⟨_, rfl⟩
  · have hover : ¬ copyLength codedSrc ≤ floatBytes codedSrc := fun hle => h ((copied_iff hnone).mp hle)
    simp only [if_neg hover]
    split
    · exact ⟨_, rfl⟩
    · split
      · exact ⟨_, rfl⟩
      · exact ⟨_, rfl⟩

/-- `decodeChunk` returns exactly when the buffers are used within their bounds. -/
theorem decodeChunk_ok_iff {codedSrc : Str} (hpayload : codedSrc.length ≤ maxPayload) :
    (∃ d, decodeChunk codedSrc = .ok d) ↔ InBounds codedSrc := by
  rw [inBounds_groups hpayload]
  constructor
  · rintro ⟨d, hd⟩
    by_contra h
    obtain ⟨fault, hfault⟩ := decodeChunk_fault h
    rw [hd] at hfault
    cases hfault
  · intro h
    obtain ⟨d, hd, -⟩ := decodeChunk_groups h hpayload
    exact ⟨d, hd⟩

end SpeechAnalyzer
