/-
The audio path of `OpensmileSession.cpp`: `on_message` decodes the chunk of an
MQTT payload into a buffer of floats, and `PublishChunk` hands the buffer to
openSMILE again and again until it is accepted.

Buffers are their bytes. A `memcpy` past the end of `float_chunk` is a fault:
what the process does after it is not the code's any more, and nothing that
follows is counted on.
-/
import SpeechAnalyzer.Base64

namespace SpeechAnalyzer

open Lib

variable {ν : Type}

/-- `smileres_t`. -/
inductive SmileRes
  | SMILE_SUCCESS
  | failure (code : Nat)
deriving DecidableEq, Repr

/-- A call of `smile_extaudiosource_write_data` and its result. -/
structure WriteCall where
  data : Bytes
  result : SmileRes
deriving DecidableEq, Repr

/-- `OpensmileSession::PublishChunk`: the calls it makes when the next calls
return `results`, and the results left to later calls; `none` when `results`
end before a success, the loop still running. -/
def OpensmileSession.publishChunk (floatChunk : Bytes) :
    List SmileRes → List WriteCall × Option (List SmileRes)
  | [] => ([], none)
  | r :: results =>
    if r = .SMILE_SUCCESS then ([⟨floatChunk, r⟩], some results)
    else
      let (calls, rest) := publishChunk floatChunk results
      (⟨floatChunk, r⟩ :: calls, rest)

/-- `a - b` of `size_t`. -/
def sizeSub (a b : Nat) : Nat := if b ≤ a then a - b else a + 2 ^ 64 - b

/-- `dst` after the part of `src` that fits is written at its start. -/
def overwrite (dst src : Bytes) : Bytes := src.take dst.length ++ dst.drop src.length

/-- `vector<float>::max_size()`. -/
def maxFloats : Nat := 2 ^ 61 - 1

/-- The buffers of `on_message` before it publishes: the size of `decoded`,
how many bytes `Base64decode` wrote to it, the size of `float_chunk`, the
length of the `memcpy`, and the bytes of `float_chunk` after it. -/
structure Decoded where
  decodedSize : Nat
  written : Nat
  floats : Nat
  copied : Nat
  floatChunk : Bytes
deriving DecidableEq, Repr

/-- What keeps `on_message` from publishing: an exception; a copy to
`&float_chunk[0]` of an empty vector, the null pointer; a copy past the end of
`float_chunk`, with the buffers as they are if nothing else comes of it. -/
inductive Fault
  | exception (e : Exn)
  | nullWrite
  | overrun (unnoticed : Decoded)
deriving DecidableEq, Repr

/-- Lines 87 to 91 of `on_message`. A vector over `max_size` throws. -/
def decodeChunk (codedSrc : Str) : Except Fault Decoded :=
  let encodedDataLength := base64decodeLen codedSrc
  let written := (base64decode codedSrc).1
  let decoded := overwrite (List.replicate encodedDataLength 0) written
  let floats := sizeSub decoded.length 2 / 4
  if floats > maxFloats then .error (.exception .lengthError)
  else
    let copied := sizeSub decoded.length 2
    let d : Decoded := {
      decodedSize := decoded.length
      written := written.length
      floats := floats
      copied := copied
      floatChunk := overwrite (List.replicate (4 * floats) 0) (decoded.take copied) }
    if copied ≤ 4 * floats then .ok d else if floats = 0 then .error .nullWrite else .error (.overrun d)

/-- Lines 83 to 86: `coded_src`. -/
def OpensmileSession.codedSrc (R : Json.Reader ν) (message : Bytes) : Except Exn Str := do
  let m ← R.read message
  let chunk ← m.get "chunk".toList
  chunk.toStr

/-- `OpensmileSession::on_message`. -/
def OpensmileSession.onMessage (R : Json.Reader ν) (message : Bytes) (results : List SmileRes) :
    Except Fault (List WriteCall × Option (List SmileRes)) := do
  let codedSrc ← (codedSrc R message).mapError .exception
  let d ← decodeChunk codedSrc
  .ok (publishChunk d.floatChunk results)

/-- The listener on a sequence of messages: the calls it makes. An exception
leaves the C callback and ends the process, and after a copy out of bounds no
call is counted on; a loop that does not end hears no later message. -/
def OpensmileSession.listen (R : Json.Reader ν) : List Bytes → List SmileRes → List WriteCall
  | [], _ => []
  | message :: messages, results =>
    match onMessage R message results with
    | .error _ => []
    | .ok (calls, none) => calls
    | .ok (calls, some rest) => calls ++ listen R messages rest

/-- The buffers openSMILE took. -/
def accepted (calls : List WriteCall) : List Bytes :=
  (calls.filter fun c => c.result = .SMILE_SUCCESS).map WriteCall.data

/-! ## One chunk -/

theorem length_overwrite (dst src : Bytes) : (overwrite dst src).length = dst.length := by
  simp only [overwrite, List.length_append, List.length_take, List.length_drop]
  omega

theorem overwrite_of_le {dst src : Bytes} (h : dst.length ≤ src.length) :
    overwrite dst src = src.take dst.length := by
  rw [overwrite, List.drop_eq_nil_of_le h, List.append_nil]

theorem publishChunk_retries (buf : Bytes) {retries : List SmileRes}
    (h : ∀ r ∈ retries, r ≠ .SMILE_SUCCESS) (rest : List SmileRes) :
    OpensmileSession.publishChunk buf (retries ++ .SMILE_SUCCESS :: rest) =
      (retries.map (⟨buf, ·⟩) ++ [⟨buf, .SMILE_SUCCESS⟩], some rest) := by
  induction retries with
  | nil => simp [OpensmileSession.publishChunk]
  | cons r retries ih =>
    have hr : r ≠ .SMILE_SUCCESS := h r (by simp)
    have ih := ih fun r hr => h r (by simp [hr])
    simp only [List.cons_append, OpensmileSession.publishChunk, if_neg hr, ih, List.map_cons]

/-- Whatever the failures before it, one buffer is accepted, once. -/
theorem accepted_retries (buf : Bytes) {retries : List SmileRes}
    (h : ∀ r ∈ retries, r ≠ .SMILE_SUCCESS) :
    accepted (retries.map (⟨buf, ·⟩) ++ [⟨buf, .SMILE_SUCCESS⟩]) = [buf] := by
  have hnone : (retries.map fun r => (⟨buf, r⟩ : WriteCall)).filter
      (fun c => decide (c.result = .SMILE_SUCCESS)) = [] := by
    simp only [List.filter_eq_nil_iff, List.mem_map, decide_eq_true_eq]
    rintro c ⟨r, hr, rfl⟩
    exact h r hr
  simp [accepted, hnone]

theorem accepted_append (a b : List WriteCall) : accepted (a ++ b) = accepted a ++ accepted b := by
  simp [accepted]

/-- The largest payload an MQTT message can carry. -/
def maxPayload : Nat := 268435455

end SpeechAnalyzer
