/-
The audio path on a stream of chunks: the samples of every chunk, in standard
base64, and what openSMILE takes of them.
-/
import SpeechAnalyzer.ChunkBuffers

namespace SpeechAnalyzer

open Lib

variable {ν : Type}

/-- A message with `n` float samples, as standard base64 under `chunk`, and
the failures openSMILE answers before it takes the buffer. -/
structure Chunk (R : Json.Reader ν) where
  n : Nat
  samples : Bytes
  length_samples : samples.length = 4 * n
  payload : Bytes
  payload_le : payload.length ≤ maxPayload
  parsed : R.parse payload = some (.obj [("chunk".toList, .str (StdBase64.encode samples))])
  retries : List SmileRes
  retries_fail : ∀ r ∈ retries, r ≠ .SMILE_SUCCESS

/-- What openSMILE answers over the whole stream. -/
def answers {R : Json.Reader ν} (chunks : List (Chunk R)) : List SmileRes :=
  chunks.flatMap fun c => c.retries ++ [.SMILE_SUCCESS]

/-- The calls of the listener on the stream. -/
def streamCalls {R : Json.Reader ν} (chunks : List (Chunk R)) : List WriteCall :=
  OpensmileSession.listen R (chunks.map Chunk.payload) (answers chunks)

/-- Every non-empty chunk has two samples more than a multiple of three, and
none comes after an empty one. -/
def NoneDropped {R : Json.Reader ν} (chunks : List (Chunk R)) : Prop :=
  (∀ c ∈ chunks, c.n ≠ 0 → c.n % 3 = 2) ∧ chunks.Pairwise fun c d => c.n = 0 → d.n = 0

variable {R : Json.Reader ν}

/-! ## One chunk -/

theorem Chunk.encoded_le (c : Chunk R) : (StdBase64.encode c.samples).length ≤ maxPayload := by
  have hsize := R.textSize_le c.parsed
  have hpayload := c.payload_le
  simp only [Json.textSize, Json.memberSizes] at hsize
  omega

theorem Chunk.samples_eq_nil {c : Chunk R} : c.samples = [] ↔ c.n = 0 := by
  rw [← List.length_eq_zero_iff, c.length_samples]
  omega

/-- The floats of the decoded text are the samples, when they fill `decoded`
but for the two bytes. -/
theorem samplesOf_encode {bs : Bytes} {n : Nat} (hn : bs.length = 4 * n) (h : n % 3 = 2) :
    samplesOf (StdBase64.encode bs) = bs := by
  have hbytes : floatBytes (StdBase64.encode bs) = bs.length := by
    rw [floatBytes, copyLength, base64decodeLen_encode, hn, sizeSub, if_pos (by omega)]
    have hdiv := Nat.div_add_mod n 3
    have hthird : (4 * n + 2) / 3 = 4 * (n / 3) + 3 := by omega
    omega
  rw [samplesOf, hbytes, decodedBuffer, base64decode_encode, List.append_assoc, List.take_left']
  rfl

theorem codedSrc_chunk (c : Chunk R) :
    OpensmileSession.codedSrc R c.payload = .ok (StdBase64.encode c.samples) := by
  simp [OpensmileSession.codedSrc, Json.Reader.read, c.parsed, bind, Except.bind]

theorem onMessage_samples {c : Chunk R} (h : c.n % 3 = 2) (rest : List SmileRes) :
    OpensmileSession.onMessage R c.payload (c.retries ++ .SMILE_SUCCESS :: rest) =
      .ok (c.retries.map (⟨c.samples, ·⟩) ++ [⟨c.samples, .SMILE_SUCCESS⟩], some rest) := by
  have hgroups := (digitGroups_encode_iff c.length_samples).mpr h
  obtain ⟨d, hd, hchunk⟩ := decodeChunk_groups hgroups c.encoded_le
  rw [OpensmileSession.onMessage, codedSrc_chunk, Except.mapError, ok_bind, hd, ok_bind, hchunk,
    samplesOf_encode c.length_samples h, publishChunk_retries c.samples c.retries_fail rest]

theorem onMessage_fault {c : Chunk R} (h : c.n % 3 ≠ 2) (results : List SmileRes) :
    ∃ fault, OpensmileSession.onMessage R c.payload results = .error fault := by
  obtain ⟨fault, hfault⟩ := decodeChunk_fault (mt (digitGroups_encode_iff c.length_samples).mp h)
  refine ⟨fault, ?_⟩
  rw [OpensmileSession.onMessage, codedSrc_chunk, Except.mapError, ok_bind, hfault]
  rfl

/-! ## The stream -/

theorem accepted_cons {c : Chunk R} (h : c.n % 3 = 2) (chunks : List (Chunk R)) :
    accepted (streamCalls (c :: chunks)) = c.samples :: accepted (streamCalls chunks) := by
  have hcalls : streamCalls (c :: chunks) =
      c.retries.map (⟨c.samples, ·⟩) ++ [⟨c.samples, .SMILE_SUCCESS⟩] ++ streamCalls chunks := by
    simp only [streamCalls, answers, List.map_cons, List.flatMap_cons, OpensmileSession.listen,
      List.append_assoc, List.singleton_append, onMessage_samples h]
  rw [hcalls, accepted_append, accepted_retries c.samples c.retries_fail, List.singleton_append]

/-- From a fault on nothing is accepted. -/
theorem accepted_fault {c : Chunk R} (h : c.n % 3 ≠ 2) (chunks : List (Chunk R)) :
    accepted (streamCalls (c :: chunks)) = [] := by
  obtain ⟨fault, hfault⟩ := onMessage_fault h (answers (c :: chunks))
  rw [streamCalls, List.map_cons, OpensmileSession.listen, hfault]
  rfl

theorem noneDropped_empty {c : Chunk R} (h : c.n = 0) (chunks : List (Chunk R)) :
    NoneDropped (c :: chunks) ↔ ∀ d ∈ chunks, d.n = 0 := by
  simp only [NoneDropped, List.forall_mem_cons, List.pairwise_cons]
  refine ⟨?_, ?_⟩
  · intro hc d hd
    exact hc.2.1 d hd h
  · intro hall
    exact ⟨⟨fun hn => absurd h hn, fun d hd hn => absurd (hall d hd) hn⟩, fun d hd _ => hall d hd,
      List.pairwise_of_forall_mem_list fun _ _ d hd _ => hall d hd⟩

theorem noneDropped_cons {c : Chunk R} (h : c.n ≠ 0) (chunks : List (Chunk R)) :
    NoneDropped (c :: chunks) ↔ c.n % 3 = 2 ∧ NoneDropped chunks := by
  simp only [NoneDropped, List.forall_mem_cons, List.pairwise_cons]
  refine ⟨?_, ?_⟩
  · intro hc
    exact ⟨hc.1.1 h, hc.1.2, hc.2.2⟩
  · intro hc
    exact ⟨⟨fun _ => hc.1, hc.2.1⟩, fun _ _ hn => absurd hn h, hc.2.2⟩

/-- **The stream is faithful exactly when `NoneDropped`.** The accepted
buffers, one after another, are the original samples, whatever the failures
before each success; an empty chunk throws, and any other whose samples are not
two more than a multiple of three is copied past the end of `float_chunk`. -/
theorem accepted_eq_samples_iff (chunks : List (Chunk R)) :
    (accepted (streamCalls chunks)).flatten = (chunks.map Chunk.samples).flatten ↔ NoneDropped chunks := by
  induction chunks with
  | nil => simp [NoneDropped, streamCalls, answers, OpensmileSession.listen, accepted]
  | cons c chunks ih =>
    by_cases h2 : c.n % 3 = 2
    · rw [accepted_cons h2, noneDropped_cons (by omega), List.map_cons, List.flatten_cons, List.flatten_cons,
        List.append_cancel_left_eq, ih]
      exact ⟨fun hc => ⟨h2, hc⟩, And.right⟩
    · rw [accepted_fault h2, List.map_cons, List.flatten_cons, List.flatten_nil, eq_comm, List.append_eq_nil_iff,
        Chunk.samples_eq_nil]
      by_cases hn : c.n = 0
      · rw [noneDropped_empty hn, List.flatten_eq_nil_iff, List.forall_mem_map]
        simp only [Chunk.samples_eq_nil]
        exact ⟨And.right, fun hall => ⟨hn, hall⟩⟩
      · rw [noneDropped_cons hn]
        exact ⟨fun hc => absurd hc.1 hn, fun hc => absurd hc.1 h2⟩

/-- Samples of silence, three and two of them, the texts of their chunks, and
a reader of these texts. -/
def silence (n : Nat) : Bytes := List.replicate (4 * n) 0

def silencePayload : Bytes := ascii "\x7b\"chunk\": \"AAAAAAAAAAAAAAAA\"\x7d".toList

def pairPayload : Bytes := ascii "\x7b\"chunk\": \"AAAAAAAAAAA=\"\x7d".toList

def silenceReader : Json.Reader Nat :=
  Json.Reader.ofTable [
    (silencePayload, .obj [("chunk".toList, .str (StdBase64.encode (silence 3)))]),
    (pairPayload, .obj [("chunk".toList, .str (StdBase64.encode (silence 2)))])]
    (by decide +kernel)

def silenceChunk : Chunk silenceReader where
  n := 3
  samples := silence 3
  length_samples := rfl
  payload := silencePayload
  payload_le := by decide +kernel
  parsed := rfl
  retries := [.failure 8]
  retries_fail := by decide

/-- Three samples do not arrive: `float_chunk` has room for two. -/
theorem silence_dropped : ¬ ∀ (R : Json.Reader Nat) (chunks : List (Chunk R)),
    (accepted (streamCalls chunks)).flatten = (chunks.map Chunk.samples).flatten := by
  intro h
  have hlen := congrArg List.length (h silenceReader [silenceChunk])
  exact absurd hlen (by decide +kernel)

end SpeechAnalyzer
