/-
What `ProcessASRMessage` publishes for a response of the MMC server.

Only the parse is in the `try`. The four accesses after it index the parsed
value by key, which a value that is neither an object nor null does not take:
the exception leaves the detached thread and ends the process.
-/
import SpeechAnalyzer.WordFeatures

namespace SpeechAnalyzer

open Lib ASRProcessor

variable {ν : Type}

/-- A published message carries the ids of the ASR message and its utterance's. -/
structure CarriesIds (ids : Ids) (utteranceId : Json ν) (message : Json ν) : Prop where
  utteranceId : Json.find ["data".toList, "utterance_id".toList] message = some utteranceId
  trialId : Json.find ["msg".toList, "trial_id".toList] message = some (.str ids.trialId)
  experimentId : Json.find ["msg".toList, "experiment_id".toList] message = some (.str ids.experimentId)

/-- A sentiment message and then a personality message. -/
def BothPublished (P : Json.Printer ν) (ids : Ids) (utteranceId : Json ν) (published : List Publication) : Prop :=
  ∃ sentiment personality : Json ν,
    published = [⟨"agent/speech_analyzer/sentiment".toList, sentiment.dump P⟩,
      ⟨"agent/speech_analyzer/personality".toList, personality.dump P⟩] ∧
    CarriesIds ids utteranceId sentiment ∧ CarriesIds ids utteranceId personality

/-- `ProcessASRMessage` returns, with both messages published or none. -/
def AllOrNothing (P : Json.Printer ν) (ids : Ids) (utteranceId : Json ν) (o : Emitted) : Prop :=
  o.result = .ok () ∧ (o.published = [] ∨ BothPublished P ids utteranceId o.published)

/-- `postgres`: for each call the answers to its query, and where the pointers
of its bounds lead. -/
def databaseQuery (D : Doubles ν) (columnMap : ColumnMap) (columns : List Str)
    (query : ℕ → Str → Str → Str → Str → List Row) (bounds : ℕ → Str × Str) : FeatureQuery ν :=
  fun n _ _ participantId trialId =>
    DBWrapper.featuresBetween D columnMap columns (query n) (bounds n) participantId trialId

theorem returns_databaseQuery (D : Doubles ν) (columnMap : ColumnMap) (columns : List Str)
    (query : ℕ → Str → Str → Str → Str → List Row) (bounds : ℕ → Str × Str) (ids : Ids) (words : List (Json ν)) :
    Returns (databaseQuery D columnMap columns query bounds) ids (fun n => rowsHistory D columnMap columns
      (query n (bounds n).1 (bounds n).2 (cString ids.participantId) (cString ids.trialId))) 0 words := by
  intro i word startTime endTime _ _
  rw [databaseQuery, featuresBetween_eq]

/-! ## The messages -/

/-- A message with the response in place. -/
structure Answered (utteranceId response message : Json ν) : Prop where
  utteranceId : Json.getAt ["data".toList, "utterance_id".toList] message = .ok utteranceId
  member : ∀ k, Json.getAt ["data".toList, "sentiment".toList, k] message = response.get k

section Messages

variable {utteranceId response message header : Json ν} {part first second : Str}

theorem partMessage_eq (h : Answered utteranceId response message) (hmap : response.IsMap) (msg : Json ν) :
    partMessage header msg part first second message = .ok (.obj [
      ("data".toList, .obj [
        (part, .obj (KeyMap.put second (Json.path [second] response) [(first, Json.path [first] response)])),
        ("utterance_id".toList, utteranceId)]),
      ("header".toList, header), ("msg".toList, msg)]) := by
  simp only [partMessage, h.utteranceId, h.member, Json.get_of_isMap hmap, ok_bind]

theorem carriesIds_parts (ids : Ids) (timestamp subType : Str) (value : Json ν) (hpart : part ≠ "utterance_id".toList) :
    CarriesIds ids utteranceId (.obj [("data".toList, .obj [(part, value), ("utterance_id".toList, utteranceId)]),
      ("header".toList, header), ("msg".toList, createCommonMsg timestamp subType ids.trialId ids.experimentId)]) := by
  refine ⟨?_, rfl, rfl⟩
  have hlookup : [(part, value), ("utterance_id".toList, utteranceId)].lookup "utterance_id".toList =
      some utteranceId := by
    rw [KeyMap.lookup_cons_ne (Ne.symm hpart), List.lookup_cons_self]
  exact congrArg (fun found : Option (Json ν) => found.bind some) hlookup

theorem partMessage_error (h : Answered utteranceId response message) (hmap : ¬ response.IsMap) (msg : Json ν) :
    partMessage header msg part first second message = .error (.typeError 305) := by
  simp only [partMessage, h.utteranceId, h.member, Json.get_of_not_isMap hmap, bind, Except.bind]

variable (P : Json.Printer ν) (clock : ℕ → Str) (ids : Ids)

/-- A response that takes keys: both messages. -/
theorem publishResponse_isMap (h : Answered utteranceId response message) (hmap : response.IsMap) :
    (publishResponse P clock ids.trialId ids.experimentId message).result = .ok () ∧
      BothPublished P ids utteranceId (publishResponse P clock ids.trialId ids.experimentId message).published := by
  rw [publishResponse, sentimentMessage, partMessage_eq h hmap, personalityMessage, partMessage_eq h hmap]
  exact ⟨rfl, _, _, rfl, carriesIds_parts ids _ _ _ (by decide), carriesIds_parts ids _ _ _ (by decide)⟩

/-- Any other: an exception. -/
theorem publishResponse_not_isMap (h : Answered utteranceId response message) (hmap : ¬ response.IsMap) :
    publishResponse P clock ids.trialId ids.experimentId message = ⟨[], .error (.typeError 305)⟩ := by
  rw [publishResponse, sentimentMessage, partMessage_error h hmap]

end Messages

/-- The three assignments leave the utterance's id alone. -/
theorem answered_of_setAt {m message message' message'' words response : Json ν}
    (hopen : Json.Open ["data".toList, "features".toList, "word_messages".toList] m)
    (hset : Json.setAt ["data".toList, "features".toList, "word_messages".toList] words m = .ok message)
    (hopen' : Json.Open ["data".toList, "word_messages".toList] message)
    (hset' : Json.setAt ["data".toList, "word_messages".toList] words message = .ok message')
    (hopen'' : Json.Open ["data".toList, "sentiment".toList] message')
    (hset'' : Json.setAt ["data".toList, "sentiment".toList] response message' = .ok message'') :
    Answered (Json.path ["data".toList, "utterance_id".toList] m) response message'' := by
  have hset₃ := Json.open_setAt hopen'' hset''
  refine ⟨Json.getAt_eq_ok.mpr ⟨⟨hset₃.1, hset₃.2.1, trivial⟩, ?_⟩, fun k => ?_⟩
  · have hapart {k : Str} {ks : List Str} (hk : k ≠ "utterance_id".toList) :
        Json.Diverge ("data".toList :: k :: ks) ["data".toList, "utterance_id".toList] := .inr (.inl hk)
    rw [Json.path_setAt_diverge hopen'' hset'' (hapart (by decide)),
      Json.path_setAt_diverge hopen' hset' (hapart (by decide)),
      Json.path_setAt_diverge hopen hset (hapart (by decide))]
  · have hread := Json.getAt_append hset₃ [k]
    rw [Json.path_setAt hopen'' hset''] at hread
    exact hread.trans (bind_pure _)

/-! ## The response -/

/-- The text `ProcessASRMessage` parses, for the body of a response. -/
def responseText (body : Option Bytes) : Bytes := processMMCMessage (fun _ => body) []

/-- **All or nothing, unless the response is JSON without keys.** For every
well-formed ASR message, whatever the database answers, and every response. -/
theorem allOrNothing_iff (D : Doubles ν) (R : Json.Reader ν) (columnMap : ColumnMap) (columns : List Str)
    (query : ℕ → Str → Str → Str → Str → List Row) (bounds : ℕ → Str × Str) (clock : ℕ → Str) {m : Json ν} {ids : Ids}
    {words : List (Json ν)} (hm : AsrMessage m ids words) (body : Option Bytes) :
    AllOrNothing D.toPrinter ids (Json.path ["data".toList, "utterance_id".toList] m)
        (processASRMessage D.toPrinter R (databaseQuery D columnMap columns query bounds) (fun _ => body) clock m) ↔
      ∀ response, R.parse (responseText body) = some response → response.IsMap := by
  obtain ⟨message, message', hrequest, hopen, hset, hopen', hset'⟩ := request_eq (P := D.toPrinter) hm
    (returns_databaseQuery D columnMap columns query bounds ids words)
  have hsentiment : Json.Open ["data".toList, "sentiment".toList] message' :=
    have hopen'' := Json.open_setAt hopen' hset'
    ⟨hopen''.1, hopen''.2.1, trivial⟩
  have htext : processMMCMessage (fun _ => body) (message'.dump D.toPrinter) = responseText body := rfl
  simp only [processASRMessage, hrequest, htext]
  cases hparse : R.parse (responseText body) with
  | none =>
    refine ⟨fun _ response h => ?_, fun _ => ⟨rfl, .inl rfl⟩⟩
    cases h
  | some response =>
    obtain ⟨message'', hset''⟩ := Json.exists_setAt (v := response) hsentiment
    have hanswered := answered_of_setAt hopen hset hopen' hset' hsentiment hset''
    simp only [hset'', Option.some.injEq, forall_eq']
    by_cases hmap : response.IsMap
    · obtain ⟨hresult, hboth⟩ := publishResponse_isMap D.toPrinter clock ids hanswered hmap
      exact ⟨fun _ => hmap, fun _ => ⟨hresult, .inr hboth⟩⟩
    · rw [publishResponse_not_isMap D.toPrinter clock ids hanswered hmap]
      refine ⟨fun h => ?_, fun h => absurd h hmap⟩
      cases h.1

/-- A server that answers with an array. -/
def arrayReader : Json.Reader Decimal := Json.Reader.ofTable [(ascii "[]".toList, .arr [])] (by decide)

/-- A database without columns. -/
def noColumns : FeatureQuery Decimal :=
  databaseQuery DecimalPrinter.allDigits.doubles [] [] (fun _ _ _ _ _ => []) fun _ => ([], [])

theorem allOrNothing_iff_array :
    AllOrNothing DecimalPrinter.allDigits.doubles.toPrinter ⟨"P".toList, "T".toList, "E".toList⟩
        (Json.path ["data".toList, "utterance_id".toList] (sampleUtterance sampleWords))
        (processASRMessage DecimalPrinter.allDigits.doubles.toPrinter arrayReader noColumns
          (fun _ => some (ascii "[]".toList)) (fun _ => []) (sampleUtterance sampleWords)) ↔
      ∀ response, arrayReader.parse (responseText (some (ascii "[]".toList))) = some response → response.IsMap :=
  allOrNothing_iff DecimalPrinter.allDigits.doubles arrayReader [] [] _ _ _
    (asrMessage_sampleUtterance sampleWords_times) _

/-- The response `[]`: the access to its emotions throws. -/
theorem array_response_throws : ¬ ∀ (D : Doubles Decimal) (R : Json.Reader Decimal) (columnMap : ColumnMap)
    (columns : List Str) (query : ℕ → Str → Str → Str → Str → List Row) (bounds : ℕ → Str × Str) (clock : ℕ → Str)
    (m : Json Decimal) (ids : Ids) (words : List (Json Decimal)) (body : Option Bytes), AsrMessage m ids words →
    AllOrNothing D.toPrinter ids (Json.path ["data".toList, "utterance_id".toList] m)
      (processASRMessage D.toPrinter R (databaseQuery D columnMap columns query bounds) (fun _ => body) clock m) := by
  intro h
  have hresult := (h DecimalPrinter.allDigits.doubles arrayReader [] [] (fun _ _ _ _ _ => []) (fun _ => ([], []))
    (fun _ => []) _ _ _ (some (ascii "[]".toList)) (asrMessage_sampleUtterance sampleWords_times)).1
  have hthrown : (processASRMessage DecimalPrinter.allDigits.doubles.toPrinter arrayReader noColumns
      (fun _ => some (ascii "[]".toList)) (fun _ => []) (sampleUtterance sampleWords)).result =
      .error (.typeError 305) := by rfl
  rw [noColumns, hresult] at hthrown
  cases hthrown

end SpeechAnalyzer
