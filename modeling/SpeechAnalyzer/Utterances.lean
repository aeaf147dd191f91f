/-
`ProcessASRMessage` on any message, of any shape. What it reads before it asks
the MMC server is read or the exception ends the process with nothing published
(`request_ok_iff`); what it reads after the answer, it reads for both messages
before the first goes out, as far as that can fail.
-/
import SpeechAnalyzer.Publication

namespace SpeechAnalyzer

open Lib ASRProcessor

variable {ν : Type}

/-- The ASR messages `ProcessASRMessage` gets through to the server with: ids
that are strings, and words with numbers for their times, if there are words
then of a participant. -/
structure Usable (m : Json ν) : Prop where
  trialId : ∃ trialId, Json.getAt ["msg".toList, "trial_id".toList] m = .ok (.str trialId)
  experimentId : ∃ experimentId, Json.getAt ["msg".toList, "experiment_id".toList] m = .ok (.str experimentId)
  words : ∃ wordMessages, Json.getAt ["data".toList, "features".toList, "word_messages".toList] m = .ok wordMessages ∧
    (∀ word ∈ wordMessages.elements, ∃ startTime endTime, Times word startTime endTime) ∧
    (wordMessages.elements ≠ [] →
      ∃ participantId, Json.getAt ["data".toList, "participant_id".toList] m = .ok (.str participantId))

/-! ## Up to the server -/

section Request

variable {P : Json.Printer ν} {featuresBetween : FeatureQuery ν} {m : Json ν}

theorem path_of_get {j v : Json ν} {k : Str} (h : j.get k = .ok v) : j.IsMap ∧ Json.path [k] j = v := by
  have hmap := Json.isMap_of_get h
  rw [Json.get_of_isMap hmap] at h
  exact ⟨hmap, Except.ok.inj h⟩

/-- Words that got through the loop have times, and a participant. -/
theorem usable_of_alignWords : ∀ {words words' : List (Json ν)} {n : ℕ},
    alignWords P featuresBetween m n words = .ok words' →
      (∀ word ∈ words, ∃ startTime endTime, Times word startTime endTime) ∧ (words ≠ [] →
        ∃ participantId, Json.getAt ["data".toList, "participant_id".toList] m = .ok (.str participantId))
  | [], _, _, _ => ⟨by simp, fun h => absurd rfl h⟩
  | word :: words, words', n, h => by
    unfold alignWords at h
    obtain ⟨start, hstart, h⟩ := bind_eq_ok.mp h
    obtain ⟨startTime, hstartTime, h⟩ := bind_eq_ok.mp h
    obtain ⟨end', hend, h⟩ := bind_eq_ok.mp h
    obtain ⟨endTime, hendTime, h⟩ := bind_eq_ok.mp h
    obtain ⟨participant, hparticipant, h⟩ := bind_eq_ok.mp h
    obtain ⟨participantId, hparticipantId, h⟩ := bind_eq_ok.mp h
    obtain ⟨trial, -, h⟩ := bind_eq_ok.mp h
    obtain ⟨trialId, -, h⟩ := bind_eq_ok.mp h
    obtain ⟨history, -, h⟩ := bind_eq_ok.mp h
    obtain ⟨features, -, h⟩ := bind_eq_ok.mp h
    obtain ⟨wordMessage, -, h⟩ := bind_eq_ok.mp h
    obtain ⟨wordMessages, hrest, -⟩ := bind_eq_ok.mp h
    obtain ⟨hmap, hstartPath⟩ := path_of_get hstart
    obtain ⟨-, hendPath⟩ := path_of_get hend
    rw [Json.toDouble_eq_ok.mp hstartTime] at hstartPath
    rw [Json.toDouble_eq_ok.mp hendTime] at hendPath
    rw [Json.toStr_eq_ok.mp hparticipantId] at hparticipant
    refine ⟨fun w hw => ?_, fun _ => ⟨participantId, hparticipant⟩⟩
    rcases List.mem_cons.mp hw with rfl | hw
    · exact ⟨startTime, endTime, hmap, hstartPath, hendPath⟩
    · exact (usable_of_alignWords hrest).1 w hw

theorem usable_of_request {r : Request ν} (h : request P featuresBetween m = .ok r) : Usable m := by
  unfold request at h
  obtain ⟨trial, htrial, h⟩ := bind_eq_ok.mp h
  obtain ⟨trialId, htrialId, h⟩ := bind_eq_ok.mp h
  obtain ⟨experiment, hexperiment, h⟩ := bind_eq_ok.mp h
  obtain ⟨experimentId, hexperimentId, h⟩ := bind_eq_ok.mp h
  obtain ⟨words, hwords, h⟩ := bind_eq_ok.mp h
  obtain ⟨wordMessages, halign, -⟩ := bind_eq_ok.mp h
  rw [Json.toStr_eq_ok.mp htrialId] at htrial
  rw [Json.toStr_eq_ok.mp hexperimentId] at hexperiment
  exact ⟨⟨trialId, htrial⟩, ⟨experimentId, hexperiment⟩, words, hwords, usable_of_alignWords halign⟩

end Request

section Database

variable (D : Doubles ν) (columnMap : ColumnMap) (columns : List Str)
  (query : ℕ → Str → Str → Str → Str → List Row) (bounds : ℕ → Str × Str)

/-- With a database that answers, the loop over usable words ends. -/
theorem exists_alignWords {m wordMessages : Json ν} {trialId : Str}
    (htrial : Json.getAt ["msg".toList, "trial_id".toList] m = .ok (.str trialId))
    (htimes : ∀ word ∈ wordMessages.elements, ∃ startTime endTime, Times word startTime endTime)
    (hparticipant : wordMessages.elements ≠ [] →
      ∃ participantId, Json.getAt ["data".toList, "participant_id".toList] m = .ok (.str participantId)) :
    ∃ words, alignWords D.toPrinter (databaseQuery D columnMap columns query bounds) m 0 wordMessages.elements =
      .ok words := by
  by_cases hnone : wordMessages.elements = []
  · rw [hnone]
    exact ⟨[], rfl⟩
  · obtain ⟨participantId, hparticipant⟩ := hparticipant hnone
    have hreturns := returns_databaseQuery D columnMap columns query bounds ⟨participantId, trialId, []⟩
      wordMessages.elements
    exact ⟨_, alignWords_eq hparticipant htrial hreturns htimes⟩

/-- A usable message gets through, and its `data` then takes the answer. -/
theorem request_of_usable {m : Json ν} (h : Usable m) : ∃ (ids : Ids) (message : Json ν),
    request D.toPrinter (databaseQuery D columnMap columns query bounds) m =
      .ok ⟨ids.trialId, ids.experimentId, message⟩ ∧
    Json.getAt ["msg".toList, "trial_id".toList] m = .ok (.str ids.trialId) ∧
    Json.getAt ["msg".toList, "experiment_id".toList] m = .ok (.str ids.experimentId) ∧
    ∀ response, ∃ message', Json.setAt ["data".toList, "sentiment".toList] response message = .ok message' ∧
      Answered (Json.path ["data".toList, "utterance_id".toList] m) response message' := by
  obtain ⟨⟨trialId, htrial⟩, ⟨experimentId, hexperiment⟩, wordMessages, hwords, htimes, hparticipant⟩ := h
  obtain ⟨words, halign⟩ := exists_alignWords D columnMap columns query bounds htrial htimes hparticipant
  obtain ⟨hopen, -⟩ := Json.getAt_eq_ok.mp hwords
  obtain ⟨message, hset⟩ := Json.exists_setAt (v := .arr words) hopen
  have hopen' := Json.open_setAt hopen hset
  have hcopied := Json.getAt_eq_ok.mpr ⟨hopen', Json.path_setAt hopen hset⟩
  have hdata : Json.Open ["data".toList, "word_messages".toList] message := ⟨hopen'.1, hopen'.2.1, trivial⟩
  obtain ⟨message', hset'⟩ := Json.exists_setAt (v := .arr words) hdata
  have hopen'' := Json.open_setAt hdata hset'
  have hsentiment : Json.Open ["data".toList, "sentiment".toList] message' := ⟨hopen''.1, hopen''.2.1, trivial⟩
  refine ⟨⟨[], trialId, experimentId⟩, message', ?_, htrial, hexperiment, fun response => ?_⟩
  · simp only [request, htrial, hexperiment, Json.toStr_str, hwords, halign, hset, hcopied, hset', ok_bind]
  · obtain ⟨message'', hset''⟩ := Json.exists_setAt (v := response) hsentiment
    exact ⟨message'', hset'', answered_of_setAt hopen hset hdata hset' hsentiment hset''⟩

/-- The ids both messages are published under. -/
def HasIds (m : Json ν) (ids : Ids) : Prop :=
  Json.getAt ["msg".toList, "trial_id".toList] m = .ok (.str ids.trialId) ∧
    Json.getAt ["msg".toList, "experiment_id".toList] m = .ok (.str ids.experimentId)

/-- What can become of a message, for what is read of the server's answer. -/
inductive UtteranceOutcome (P : Json.Printer ν) (m : Json ν) (answer : Option (Json ν)) (o : Emitted) : Prop
  | unusable (h : ¬ Usable m) (e : Exn) (ho : o = ⟨[], .error e⟩)
  | noAnswer (h : Usable m) (hanswer : answer = none) (ho : o = ⟨[], .ok ()⟩)
  | noKeys {response : Json ν} (h : Usable m) (hanswer : answer = some response) (hmap : ¬ response.IsMap)
      (ho : o = ⟨[], .error (.typeError 305)⟩)
  | published {response : Json ν} {ids : Ids} (h : Usable m) (hanswer : answer = some response)
      (hmap : response.IsMap) (hids : HasIds m ids) (hresult : o.result = .ok ())
      (hboth : BothPublished P ids (Json.path ["data".toList, "utterance_id".toList] m) o.published)

theorem utteranceOutcome (R : Json.Reader ν) (clock : ℕ → Str) (m : Json ν) (body : Option Bytes) :
    UtteranceOutcome D.toPrinter m (R.parse (responseText body)) (processASRMessage D.toPrinter R
      (databaseQuery D columnMap columns query bounds) (fun _ => body) clock m) := by
  by_cases husable : Usable m
  · obtain ⟨ids, message, hrequest, htrial, hexperiment, hanswer⟩ :=
      request_of_usable D columnMap columns query bounds husable
    have htext : processMMCMessage (fun _ => body) (message.dump D.toPrinter) = responseText body := rfl
    simp only [processASRMessage, hrequest, htext]
    cases hparse : R.parse (responseText body) with
    | none => exact .noAnswer husable rfl rfl
    | some response =>
      obtain ⟨message', hset, hanswered⟩ := hanswer response
      simp only [hset]
      by_cases hmap : response.IsMap
      · obtain ⟨hresult, hboth⟩ := publishResponse_isMap D.toPrinter clock ids hanswered hmap
        exact .published husable rfl hmap ⟨htrial, hexperiment⟩ hresult hboth
      · exact .noKeys husable rfl hmap (publishResponse_not_isMap D.toPrinter clock ids hanswered hmap)
  · cases hrequest : request D.toPrinter (databaseQuery D columnMap columns query bounds) m with
    | ok r => exact absurd (usable_of_request hrequest) husable
    | error e =>
      refine .unusable husable e ?_
      rw [processASRMessage, hrequest]

/-- It throws exactly when the message is not usable, or the answer is JSON
that takes no keys. -/
theorem result_eq_ok_iff (R : Json.Reader ν) (clock : ℕ → Str) (m : Json ν) (body : Option Bytes) :
    (processASRMessage D.toPrinter R (databaseQuery D columnMap columns query bounds) (fun _ => body) clock m).result =
        .ok () ↔
      Usable m ∧ ∀ response, R.parse (responseText body) = some response → response.IsMap := by
  cases utteranceOutcome D columnMap columns query bounds R clock m body with
  | unusable h e ho => simp [ho, h]
  | noAnswer h hanswer ho => simp [ho, hanswer, h]
  | noKeys h hanswer hmap ho => simp [ho, hanswer, hmap]
  | published h hanswer hmap _ hresult _ => simp [hresult, hanswer, hmap, h]

/-- **Any message, any answer.** `ProcessASRMessage` publishes both messages or
none. It publishes exactly when the message is usable and the answer takes
keys, and throws exactly when the message is not usable, or the answer is JSON
that takes none. -/
theorem publishes_iff (R : Json.Reader ν) (clock : ℕ → Str) (m : Json ν) (body : Option Bytes) :
    let o := processASRMessage D.toPrinter R (databaseQuery D columnMap columns query bounds) (fun _ => body) clock m
    (o.published = [] ∨ ∃ ids, HasIds m ids ∧
      BothPublished D.toPrinter ids (Json.path ["data".toList, "utterance_id".toList] m) o.published) ∧
    (o.published ≠ [] ↔ Usable m ∧ ∃ response, R.parse (responseText body) = some response ∧ response.IsMap) ∧
    (o.result = .ok () ↔ Usable m ∧ ∀ response, R.parse (responseText body) = some response → response.IsMap) := by
  intro o
  have hresult := result_eq_ok_iff D columnMap columns query bounds R clock m body
  cases utteranceOutcome D columnMap columns query bounds R clock m body with
  | unusable h e ho =>
    have hpublished : o.published = [] := congrArg Emitted.published ho
    refine ⟨.inl hpublished, ?_, hresult⟩
    simp only [hpublished, h, ne_eq, not_true, false_and]
  | noAnswer h hanswer ho =>
    have hpublished : o.published = [] := congrArg Emitted.published ho
    refine ⟨.inl hpublished, ?_, hresult⟩
    simp [hpublished, hanswer]
  | @noKeys response h hanswer hmap ho =>
    have hpublished : o.published = [] := congrArg Emitted.published ho
    refine ⟨.inl hpublished, ?_, hresult⟩
    simp [hpublished, hanswer, hmap]
  | @published response ids h hanswer hmap hids _ hboth =>
    have hpublished : o.published ≠ [] := by
      obtain ⟨sentiment, personality, hboth, -, -⟩ := hboth
      exact fun hnil => List.cons_ne_nil _ _ (hboth.symm.trans hnil)
    refine ⟨.inr ⟨ids, hids, hboth⟩, ?_, hresult⟩
    simp [hpublished, hanswer, hmap, h]

end Database

end SpeechAnalyzer
