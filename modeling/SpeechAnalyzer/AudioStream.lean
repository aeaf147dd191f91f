/-
The audio path for any messages and any answers of openSMILE. `PublishChunk`
offers a chunk until it is taken, so the listener works through the messages as
through a queue (`Lib.offers`), up to the first whose chunk does not fit its buffer:
from there on nothing is counted on.
-/
import SpeechAnalyzer.ChunkStream
import SpeechAnalyzer.Lib.JsonPath
import SpeechAnalyzer.Lib.Offers

namespace SpeechAnalyzer

open Lib

variable {ν : Type} {R : Json.Reader ν}

/-- The text of a message's chunk: a string under `chunk` whose decoded bytes
are copied within bounds. -/
def chunkText? (R : Json.Reader ν) (message : Bytes) : Option Str :=
  match R.parse message with
  | some m =>
    match Json.find ["chunk".toList] m with
    | some (.str codedSrc) => if digitGroups codedSrc % 4 = 3 then some codedSrc else none
    | _ => none
  | none => none

/-- The chunks of the messages before the first that has none that fits. -/
def sounds (R : Json.Reader ν) : List Bytes → List Bytes
  | [] => []
  | message :: messages =>
    match chunkText? R message with
    | some codedSrc => samplesOf codedSrc :: sounds R messages
    | none => []

/-! ## One message -/

theorem codedSrc_eq_ok {message : Bytes} {codedSrc : Str} :
    OpensmileSession.codedSrc R message = .ok codedSrc ↔
      ∃ m, R.parse message = some m ∧ Json.find ["chunk".toList] m = some (.str codedSrc) := by
  constructor
  · intro h
    obtain ⟨m, hread, h⟩ := bind_eq_ok.mp h
    obtain ⟨j, hget, hstr⟩ := bind_eq_ok.mp h
    rw [Json.toStr_eq_ok.mp hstr] at hget
    exact ⟨m, Json.Reader.read_eq_ok.mp hread, Json.get_eq_str.mp hget⟩
  · rintro ⟨m, hparsed, hfind⟩
    simp only [OpensmileSession.codedSrc, Json.Reader.read_eq_ok.mpr hparsed, Json.get_eq_str.mpr hfind,
      Json.toStr_str, ok_bind]

theorem onMessage_of_chunkText {message : Bytes} (hpayload : message.length ≤ maxPayload) {codedSrc : Str}
    (h : chunkText? R message = some codedSrc) (results : List SmileRes) :
    OpensmileSession.onMessage R message results =
      .ok (OpensmileSession.publishChunk (samplesOf codedSrc) results) := by
  unfold chunkText? at h
  split at h
  · next m hparsed =>
    split at h
    · next s hfind =>
      split at h
      · next hgroups =>
        obtain rfl := Option.some.inj h
        have hmax := (Json.textSize_find hfind).trans ((R.textSize_le hparsed).trans hpayload)
        obtain ⟨d, hd, hchunk⟩ := decodeChunk_groups hgroups hmax
        rw [OpensmileSession.onMessage, codedSrc_eq_ok.mpr ⟨m, hparsed, hfind⟩, Except.mapError, ok_bind, hd, ok_bind,
          hchunk]
      · cases h
    · cases h
  · cases h

theorem onMessage_of_none {message : Bytes} (h : chunkText? R message = none) (results : List SmileRes) :
    ∃ fault, OpensmileSession.onMessage R message results = .error fault := by
  rw [OpensmileSession.onMessage]
  cases hsrc : OpensmileSession.codedSrc R message with
  | error e => exact ⟨.exception e, rfl⟩
  | ok codedSrc =>
    obtain ⟨m, hparsed, hfind⟩ := codedSrc_eq_ok.mp hsrc
    simp only [chunkText?, hparsed, hfind] at h
    split at h
    · cases h
    · next hgroups =>
      obtain ⟨fault, hfault⟩ := decodeChunk_fault hgroups
      refine ⟨fault, ?_⟩
      rw [Except.mapError, ok_bind, hfault]
      rfl

/-! ## The stream -/

/-- A call of `smile_extaudiosource_write_data`, from an offer and its answer. -/
def WriteCall.ofOffer (p : Bytes × SmileRes) : WriteCall := ⟨p.1, p.2⟩

def takes (r : SmileRes) : Bool := r = .SMILE_SUCCESS

/-- `PublishChunk`, the chunk the first in a queue: its calls, and then the
offers to the answers it leaves. -/
theorem publishChunk_offers (chunk : Bytes) (chunks : List Bytes) : ∀ {results : List SmileRes} {calls : List WriteCall}
    {rest : Option (List SmileRes)}, OpensmileSession.publishChunk chunk results = (calls, rest) →
      (offers takes (chunk :: chunks) results).map .ofOffer =
        calls ++ (rest.elim [] fun results => (offers takes chunks results).map .ofOffer)
  | [], calls, rest, h => by
    obtain ⟨rfl, rfl⟩ := Prod.mk.inj h
    rfl
  | r :: results, calls, rest, h => by
    unfold OpensmileSession.publishChunk at h
    by_cases hr : r = .SMILE_SUCCESS
    · rw [if_pos hr] at h
      obtain ⟨rfl, rfl⟩ := Prod.mk.inj h
      simp only [offers, takes, hr, decide_true, if_true, List.map_cons]
      rfl
    · rw [if_neg hr] at h
      cases hrest : OpensmileSession.publishChunk chunk results with
      | mk calls' rest' =>
        rw [hrest] at h
        obtain ⟨rfl, rfl⟩ := Prod.mk.inj h
        have ih := publishChunk_offers chunk chunks hrest
        simp only [offers, takes, hr, decide_false, Bool.false_eq_true, if_false, List.map_cons, ih]
        rfl

/-- The listener offers the chunks of the messages, one after another. -/
theorem listen_offers : ∀ {messages : List Bytes}, (∀ message ∈ messages, message.length ≤ maxPayload) →
    ∀ results : List SmileRes,
      OpensmileSession.listen R messages results = (offers takes (sounds R messages) results).map .ofOffer
  | [], _, results => by simp [OpensmileSession.listen, sounds, offers]
  | message :: messages, hpayload, results => by
    obtain ⟨hfirst, hrest⟩ := List.forall_mem_cons.mp hpayload
    rw [OpensmileSession.listen]
    cases htext : chunkText? R message with
    | none =>
      obtain ⟨fault, hfault⟩ := onMessage_of_none htext results
      simp [hfault, sounds, htext, offers]
    | some codedSrc =>
      simp only [onMessage_of_chunkText hfirst htext, sounds, htext]
      cases hpublish : OpensmileSession.publishChunk (samplesOf codedSrc) results with
      | mk calls rest =>
        rw [publishChunk_offers _ _ hpublish]
        cases rest with
        | none => exact (List.append_nil calls).symm
        | some results' => exact congrArg (calls ++ ·) (listen_offers hrest results')

/-- **What openSMILE hears.** Whatever messages a session receives and whatever
openSMILE answers, the calls use up the answers one by one, each with the chunk
that as many successes have come before; the buffers taken are the first chunks
of the messages, each once and in order, as many as there are successes. -/
theorem samples_heard {messages : List Bytes} (hpayload : ∀ message ∈ messages, message.length ≤ maxPayload)
    (results : List SmileRes) :
    (∀ i, (OpensmileSession.listen R messages results)[i]? = results[i]?.bind fun r =>
      (sounds R messages)[(results.take i).count .SMILE_SUCCESS]?.map fun chunk => ⟨chunk, r⟩) ∧
    accepted (OpensmileSession.listen R messages results) =
      (sounds R messages).take (results.count .SMILE_SUCCESS) := by
  have hcount : ∀ rs : List SmileRes, rs.countP takes = rs.count .SMILE_SUCCESS := by
    intro rs
    rw [List.count]
    congr 1
  rw [listen_offers hpayload results]
  refine ⟨fun i => ?_, ?_⟩
  · rw [List.getElem?_map, getElem?_offers, hcount]
    cases results[i]? with
    | none => rfl
    | some r => simp [WriteCall.ofOffer, Function.comp_def]
  · rw [accepted, List.filter_map, List.map_map, ← hcount]
    exact taken_offers takes (sounds R messages) results

/-- A chunk refused once, and one that does not fit its buffer. -/
theorem samples_heard_silence : accepted (OpensmileSession.listen silenceReader [pairPayload, silencePayload]
    [.failure 8, .SMILE_SUCCESS, .SMILE_SUCCESS]) = [silence 2] :=
  (samples_heard (by decide +kernel) [.failure 8, .SMILE_SUCCESS, .SMILE_SUCCESS]).2.trans (by decide +kernel)

end SpeechAnalyzer
