/-
`ASRProcessor.cpp`: an ASR message goes to the MMC server with the features of
each word, and what the server answers is published as a sentiment and a
personality message.

The database, the exchange with the server and the clock are parameters. An
assignment to a fresh JSON value always succeeds, so the published messages are
written as objects, members in key order.
-/
import SpeechAnalyzer.FeaturesTable

namespace SpeechAnalyzer

open Lib

variable {ν : Type}

/-- `postgres->FeaturesBetween`, call by call. -/
abbrev FeatureQuery (ν : Type) := ℕ → ν → ν → Str → Str → Except Exn (List (Json ν))

namespace ASRProcessor

/-! ## Word and feature alignment -/

/-- `features_output[key].push_back(entry[key])`. -/
def pushFeature (entry featuresOutput : Json ν) (key : Str) : Except Exn (Json ν) := do
  let value ← entry.get key
  let list ← featuresOutput.get key
  let list ← Json.pushBack value list
  Json.setAt [key] list featuresOutput

/-- A word's `features`: the history's rows as one object of lists, as text. -/
def alignHistory (P : Json.Printer ν) (history : List (Json ν)) : Except Exn (Json ν) :=
  match history with
  | [] => .ok .null
  | first :: _ => do
    let keys := first.items.map Prod.fst
    let featuresOutput ← keys.foldlM (fun featuresOutput key => Json.setAt [key] (.arr []) featuresOutput) .null
    let featuresOutput ← history.foldlM
      (fun featuresOutput entry => keys.foldlM (pushFeature entry) featuresOutput) featuresOutput
    .ok (.str (featuresOutput.dump P))

/-- The loop over the words, `n` the number of calls before. -/
def alignWords (P : Json.Printer ν) (featuresBetween : FeatureQuery ν) (m : Json ν) :
    ℕ → List (Json ν) → Except Exn (List (Json ν))
  | _, [] => .ok []
  | n, wordMessage :: wordMessages => do
    let startTime ← (← wordMessage.get "start_time".toList).toDouble
    let endTime ← (← wordMessage.get "end_time".toList).toDouble
    let participantId ← (← Json.getAt ["data".toList, "participant_id".toList] m).toStr
    let trialId ← (← Json.getAt ["msg".toList, "trial_id".toList] m).toStr
    let history ← featuresBetween n startTime endTime participantId trialId
    let wordMessage ← Json.setAt ["features".toList] (← alignHistory P history) wordMessage
    let wordMessages ← alignWords P featuresBetween m (n + 1) wordMessages
    .ok (wordMessage :: wordMessages)

/-- The locals of `ProcessASRMessage` when it calls the MMC server. -/
structure Request (ν : Type) where
  trialId : Str
  experimentId : Str
  message : Json ν

/-- `ProcessASRMessage` up to the call. -/
def request (P : Json.Printer ν) (featuresBetween : FeatureQuery ν) (m : Json ν) : Except Exn (Request ν) := do
  let trialId ← (← Json.getAt ["msg".toList, "trial_id".toList] m).toStr
  let experimentId ← (← Json.getAt ["msg".toList, "experiment_id".toList] m).toStr
  let words ← Json.getAt ["data".toList, "features".toList, "word_messages".toList] m
  let wordMessages ← alignWords P featuresBetween m 0 words.elements
  let message ← Json.setAt ["data".toList, "features".toList, "word_messages".toList] (.arr wordMessages) m
  let copied ← Json.getAt ["data".toList, "features".toList, "word_messages".toList] message
  let message ← Json.setAt ["data".toList, "word_messages".toList] copied message
  .ok { trialId, experimentId, message }

/-! ## The response -/

/-- `ProcessMMCMessage`: the characters of the response's body up to the first
NUL; nothing when the exchange fails. -/
def processMMCMessage (exchange : Str → Option Bytes) (message : Str) : Bytes :=
  match exchange message with
  | some body => body.takeWhile (· ≠ 0)
  | none => []

def createCommonHeader (timestamp messageType : Str) : Json ν :=
  .obj [("message_type".toList, .str messageType), ("timestamp".toList, .str timestamp),
    ("version".toList, .str "1.1".toList)]

def createCommonMsg (timestamp subType trialId experimentId : Str) : Json ν :=
  .obj [("experiment_id".toList, .str experimentId), ("source".toList, .str "tomcat_speech_analyzer".toList),
    ("sub_type".toList, .str subType), ("timestamp".toList, .str timestamp), ("trial_id".toList, .str trialId),
    ("version".toList, .str "0.6".toList)]

/-- The message about one part of the response: two of its members, under the
part's name. -/
def partMessage (header msg : Json ν) (part first second : Str) (message : Json ν) : Except Exn (Json ν) := do
  let utteranceId ← Json.getAt ["data".toList, "utterance_id".toList] message
  let firstValue ← Json.getAt ["data".toList, "sentiment".toList, first] message
  let secondValue ← Json.getAt ["data".toList, "sentiment".toList, second] message
  .ok (.obj [
    ("data".toList, .obj [(part, .obj (KeyMap.put second secondValue [(first, firstValue)])),
      ("utterance_id".toList, utteranceId)]),
    ("header".toList, header), ("msg".toList, msg)])

/-- `clock n` is the `n`-th timestamp taken. -/
def sentimentMessage (clock : ℕ → Str) (trialId experimentId : Str) (message : Json ν) : Except Exn (Json ν) :=
  partMessage (createCommonHeader (clock 0) "observation".toList)
    (createCommonMsg (clock 1) "speech_analyzer:sentiment".toList trialId experimentId)
    "sentiment".toList "emotions".toList "penultimate_emotions".toList message

def personalityMessage (clock : ℕ → Str) (trialId experimentId : Str) (message : Json ν) : Except Exn (Json ν) :=
  partMessage (createCommonHeader (clock 2) "observation".toList)
    (createCommonMsg (clock 3) "speech_analyzer:personality".toList trialId experimentId)
    "personality".toList "traits".toList "penultimate_traits".toList message

/-- A call of `publish`. -/
structure Publication where
  topic : Str
  payload : Str
deriving DecidableEq

/-- What a call of `ProcessASRMessage` has published when it returns or throws. -/
structure Emitted where
  published : List Publication
  result : Except Exn Unit

/-- From the parsed response on. -/
def publishResponse (P : Json.Printer ν) (clock : ℕ → Str) (trialId experimentId : Str) (message : Json ν) :
    Emitted :=
  match sentimentMessage clock trialId experimentId message with
  | .error e => ⟨[], .error e⟩
  | .ok sentiment =>
    let published : List Publication := [⟨"agent/speech_analyzer/sentiment".toList, sentiment.dump P⟩]
    match personalityMessage clock trialId experimentId message with
    | .error e => ⟨published, .error e⟩
    | .ok personality =>
      ⟨published ++ [⟨"agent/speech_analyzer/personality".toList, personality.dump P⟩], .ok ()⟩

/-- `ASRProcessor::ProcessASRMessage`. What the parse throws is caught. -/
def processASRMessage (P : Json.Printer ν) (R : Json.Reader ν) (featuresBetween : FeatureQuery ν)
    (exchange : Str → Option Bytes) (clock : ℕ → Str) (m : Json ν) : Emitted :=
  match request P featuresBetween m with
  | .error e => ⟨[], .error e⟩
  | .ok r =>
    match R.parse (processMMCMessage exchange (r.message.dump P)) with
    | none => ⟨[], .ok ()⟩
    | some response =>
      match Json.setAt ["data".toList, "sentiment".toList] response r.message with
      | .error e => ⟨[], .error e⟩
      | .ok message => publishResponse P clock r.trialId r.experimentId message

end ASRProcessor

end SpeechAnalyzer
