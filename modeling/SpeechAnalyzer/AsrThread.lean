/-
A thread of `ProcessASRMessage`, call by call: what it asks the database, the
MMC server and the clock, and what it publishes, are the calls of a program, so
that threads can run at once. A thread that has ended has done what
`processASRMessage` says for the answers it got (`ends_thread`).
-/
import SpeechAnalyzer.Lib.Program
import SpeechAnalyzer.Manager
import SpeechAnalyzer.Utterances

namespace SpeechAnalyzer

open Lib ASRProcessor

variable {ν : Type}

/-- What a thread calls. -/
inductive AsrCall (ν : Type)
  | featuresBetween (startTime endTime : ν) (participantId trialId : Str)
  | exchange (message : Str)
  | clock
  | publish (p : Publication)

/-- The answers: the rows selected, the body of the response if there is one,
and the time. -/
abbrev AsrCall.Answer : AsrCall ν → Type
  | featuresBetween .. => List Row
  | exchange _ => Option Bytes
  | clock => Str
  | publish _ => Unit

abbrev AsrProgram (ν ρ : Type) := Program (@AsrCall.Answer ν) Exn ρ

abbrev AsrAnswered (ν : Type) := Program.Answered (@AsrCall.Answer ν)

namespace AsrAnswered

def rows? : AsrAnswered ν → Option (List Row)
  | ⟨.featuresBetween .., rows⟩ => some rows
  | ⟨.exchange _, _⟩ | ⟨.clock, _⟩ | ⟨.publish _, _⟩ => none

def body? : AsrAnswered ν → Option (Option Bytes)
  | ⟨.exchange _, body⟩ => some body
  | ⟨.featuresBetween .., _⟩ | ⟨.clock, _⟩ | ⟨.publish _, _⟩ => none

def time? : AsrAnswered ν → Option Str
  | ⟨.clock, time⟩ => some time
  | ⟨.featuresBetween .., _⟩ | ⟨.exchange _, _⟩ | ⟨.publish _, _⟩ => none

def publication? : AsrAnswered ν → Option Publication
  | ⟨.publish p, _⟩ => some p
  | ⟨.featuresBetween .., _⟩ | ⟨.exchange _, _⟩ | ⟨.clock, _⟩ => none

end AsrAnswered

namespace ASRProcessor

open Program AsrAnswered

/-! ## The program -/

section Program

variable (D : Doubles ν) (R : Json.Reader ν) (columnMap : ColumnMap) (columns : List Str)

/-- The arguments of a word's query. -/
def queryArguments (m wordMessage : Json ν) : Except Exn (ν × ν × Str × Str) := do
  let startTime ← (← wordMessage.get "start_time".toList).toDouble
  let endTime ← (← wordMessage.get "end_time".toList).toDouble
  let participantId ← (← Json.getAt ["data".toList, "participant_id".toList] m).toStr
  let trialId ← (← Json.getAt ["msg".toList, "trial_id".toList] m).toStr
  .ok (startTime, endTime, participantId, trialId)

/-- A word with the features of the rows selected for it. -/
def withFeatures (rows : List Row) (wordMessage : Json ν) : Except Exn (Json ν) := do
  let history ← rows.mapM (rowMessage D columnMap columns)
  Json.setAt ["features".toList] (← alignHistory D.toPrinter history) wordMessage

def alignWordsProgram (m : Json ν) : List (Json ν) → AsrProgram ν (List (Json ν))
  | [] => ret []
  | wordMessage :: wordMessages => do
    let (startTime, endTime, participantId, trialId) ← ofExcept (queryArguments m wordMessage)
    let rows ← perform (AsrCall.featuresBetween startTime endTime participantId trialId)
    let wordMessage ← ofExcept (withFeatures D columnMap columns rows wordMessage)
    let wordMessages ← alignWordsProgram m wordMessages
    ret (wordMessage :: wordMessages)

/-- The message with its words at their two places. -/
def withWords (wordMessages : List (Json ν)) (m : Json ν) : Except Exn (Json ν) := do
  let message ← Json.setAt ["data".toList, "features".toList, "word_messages".toList] (.arr wordMessages) m
  let copied ← Json.getAt ["data".toList, "features".toList, "word_messages".toList] message
  Json.setAt ["data".toList, "word_messages".toList] copied message

/-- Up to the server. -/
def requestProgram (m : Json ν) : AsrProgram ν (Request ν) := do
  let trialId ← ofExcept (Manager.field m ["msg".toList, "trial_id".toList])
  let experimentId ← ofExcept (Manager.field m ["msg".toList, "experiment_id".toList])
  let words ← ofExcept (Json.getAt ["data".toList, "features".toList, "word_messages".toList] m)
  let wordMessages ← alignWordsProgram D columnMap columns m words.elements
  let message ← ofExcept (withWords wordMessages m)
  ret { trialId, experimentId, message }

/-- One of the two messages. -/
def publishPart (topic trialId experimentId subType part first second : Str) (message : Json ν) :
    AsrProgram ν Unit := do
  let headerTime ← perform AsrCall.clock
  let msgTime ← perform AsrCall.clock
  let published ← ofExcept (partMessage (createCommonHeader headerTime "observation".toList)
    (createCommonMsg msgTime subType trialId experimentId) part first second message)
  perform (AsrCall.publish ⟨topic, published.dump D.toPrinter⟩)

/-- From the server on. -/
def respondProgram (r : Request ν) : AsrProgram ν Unit := do
  let body ← perform (AsrCall.exchange (r.message.dump D.toPrinter))
  match R.parse (responseText body) with
  | none => ret ()
  | some response =>
    match Json.setAt ["data".toList, "sentiment".toList] response r.message with
    -- The assignment is in the try as well.
    | .error _ => ret ()
    | .ok message =>
      publishPart D "agent/speech_analyzer/sentiment".toList r.trialId r.experimentId
        "speech_analyzer:sentiment".toList "sentiment".toList "emotions".toList "penultimate_emotions".toList message
      publishPart D "agent/speech_analyzer/personality".toList r.trialId r.experimentId
        "speech_analyzer:personality".toList "personality".toList "traits".toList "penultimate_traits".toList message

/-- The thread started for an ASR message. -/
def threadProgram (m : Json ν) : AsrProgram ν Unit := do
  let r ← requestProgram D columnMap columns m
  respondProgram D R r

end Program

/-! ## A thread that has ended -/

section Ends

variable {D : Doubles ν} {R : Json.Reader ν} {columnMap : ColumnMap} {columns : List Str}

instance (c : AsrCall ν) : Nonempty c.Answer := by
  cases c with
  | featuresBetween _ _ _ _ => exact ⟨[]⟩
  | exchange _ => exact ⟨none⟩
  | clock => exact ⟨[]⟩
  | publish _ => exact ⟨()⟩

/-- Nothing but queries is called. -/
def OnlyQueries (log : List (AsrAnswered ν)) : Prop := ∀ e ∈ log, e.rows?.isSome = true

theorem onlyQueries_nil : OnlyQueries ([] : List (AsrAnswered ν)) := List.forall_mem_nil _

theorem alignWords_cons {P : Json.Printer ν} {featuresBetween : FeatureQuery ν} {m wordMessage : Json ν} {n : ℕ}
    {wordMessages : List (Json ν)} :
    alignWords P featuresBetween m n (wordMessage :: wordMessages) = (do
      let (startTime, endTime, participantId, trialId) ← queryArguments m wordMessage
      let wordMessage ← (do
        let history ← featuresBetween n startTime endTime participantId trialId
        Json.setAt ["features".toList] (← alignHistory P history) wordMessage)
      let wordMessages ← alignWords P featuresBetween m (n + 1) wordMessages
      .ok (wordMessage :: wordMessages)) := by
  simp only [alignWords, queryArguments, bind_assoc, ok_bind]

/-- The queries of the loop over the words are its calls, and are answered one
after the other. -/
theorem ends_alignWords {m : Json ν} {featuresBetween : FeatureQuery ν} : ∀ {words : List (Json ν)} {n : ℕ}
    {log : List (AsrAnswered ν)} {r : Except Exn (List (Json ν))},
    (alignWordsProgram D columnMap columns m words).Ends log r →
    (∀ i rows, (log.filterMap rows?)[i]? = some rows → ∀ startTime endTime participantId trialId,
      featuresBetween (n + i) startTime endTime participantId trialId = rows.mapM (rowMessage D columnMap columns)) →
    alignWords D.toPrinter featuresBetween m n words = r ∧ OnlyQueries log
  | [], n, log, r, h, _ => by
    obtain ⟨rfl, rfl⟩ := ends_ret.mp h
    exact ⟨rfl, onlyQueries_nil⟩
  | word :: words, n, log, r, h, hanswers => by
    rw [alignWords_cons]
    refine h.ofExcept_bind onlyQueries_nil fun (startTime, endTime, participantId, trialId) _ hquery => ?_
    obtain ⟨rows, log, rfl, hfeatures⟩ := ends_perform_bind.mp hquery
    have hanswer := hanswers 0 rows rfl startTime endTime participantId trialId
    have hanswers' (i : ℕ) (rows' : List Row) (hi : (log.filterMap rows?)[i]? = some rows') (startTime endTime : ν)
        (participantId trialId : Str) : featuresBetween (n + 1 + i) startTime endTime participantId trialId =
          rows'.mapM (rowMessage D columnMap columns) := by
      rw [Nat.add_right_comm, Nat.add_assoc]
      exact hanswers (i + 1) rows' hi startTime endTime participantId trialId
    have hword : (do
        let history ← featuresBetween n startTime endTime participantId trialId
        Json.setAt ["features".toList] (← alignHistory D.toPrinter history) word) =
          withFeatures D columnMap columns rows word := by rw [withFeatures, ← hanswer]; rfl
    have hcons {log : List (AsrAnswered ν)} (h : OnlyQueries log) : OnlyQueries (⟨.featuresBetween startTime endTime
        participantId trialId, rows⟩ :: log) := List.forall_mem_cons.mpr ⟨rfl, h⟩
    simp only [hword]
    refine (hfeatures.ofExcept_bind onlyQueries_nil fun wordMessage _ hwords => ?_).imp_right hcons
    rcases (ends_bind _).mp hwords with ⟨wordMessages, before, after, rfl, hloop, hret⟩ | ⟨e, rfl, hloop⟩
    · obtain ⟨rfl, rfl⟩ := ends_ret.mp hret
      rw [List.append_nil] at hanswers' ⊢
      obtain ⟨halign, hcalls⟩ := ends_alignWords hloop hanswers'
      rw [halign]
      exact ⟨rfl, hcalls⟩
    · obtain ⟨halign, hcalls⟩ := ends_alignWords hloop hanswers'
      rw [halign]
      exact ⟨rfl, hcalls⟩

/-- The rows that the queries of a log were answered with, one query after the
other. -/
def answeredQuery (log : List (AsrAnswered ν)) (n : ℕ) (_ _ _ _ : Str) : List Row :=
  ((log.filterMap rows?)[n]?).getD []

def answeredBody (log : List (AsrAnswered ν)) : Option Bytes := (log.filterMap body?).head?.join

def answeredClock (log : List (AsrAnswered ν)) (n : ℕ) : Str := ((log.filterMap time?)[n]?).getD []

namespace OnlyQueries

variable {log : List (AsrAnswered ν)}

theorem eq_nil {α : Type} {f : AsrAnswered ν → Option α} (h : OnlyQueries log)
    (hf : ∀ startTime endTime participantId trialId rows,
      f ⟨.featuresBetween startTime endTime participantId trialId, rows⟩ = none) : log.filterMap f = [] := by
  refine List.filterMap_eq_nil_iff.mpr fun e he => ?_
  have hrows := h e he
  obtain ⟨c, answer⟩ := e
  cases c with
  | featuresBetween startTime endTime participantId trialId => exact hf startTime endTime participantId trialId answer
  | exchange _ => cases hrows
  | clock => cases hrows
  | publish _ => cases hrows

theorem of_append {rest : List (AsrAnswered ν)} (h : OnlyQueries (log ++ rest)) : OnlyQueries log :=
  fun e he => h e (List.mem_append_left _ he)

theorem answeredBody_append (h : OnlyQueries log) (rest : List (AsrAnswered ν)) :
    answeredBody (log ++ rest) = answeredBody rest := by
  rw [answeredBody, List.filterMap_append, h.eq_nil fun _ _ _ _ _ => rfl]
  rfl

theorem answeredClock_append (h : OnlyQueries log) (rest : List (AsrAnswered ν)) :
    answeredClock (log ++ rest) = answeredClock rest := by
  funext n
  rw [answeredClock, List.filterMap_append, h.eq_nil fun _ _ _ _ _ => rfl]
  rfl

theorem published (h : OnlyQueries log) : log.filterMap publication? = [] := h.eq_nil fun _ _ _ _ _ => rfl

theorem published_append (h : OnlyQueries log) (rest : List (AsrAnswered ν)) :
    (log ++ rest).filterMap publication? = rest.filterMap publication? := by
  rw [List.filterMap_append, h.published, List.nil_append]

end OnlyQueries

theorem request_withWords {P : Json.Printer ν} {featuresBetween : FeatureQuery ν} {m : Json ν} :
    request P featuresBetween m = (do
      let trialId ← Manager.field m ["msg".toList, "trial_id".toList]
      let experimentId ← Manager.field m ["msg".toList, "experiment_id".toList]
      let words ← Json.getAt ["data".toList, "features".toList, "word_messages".toList] m
      let wordMessages ← alignWords P featuresBetween m 0 words.elements
      let message ← withWords wordMessages m
      .ok { trialId, experimentId, message }) := by
  simp only [request, Manager.field, withWords, bind_assoc]

/-- Up to the server, a thread queries the database only, and makes the request
of the answers. -/
theorem ends_request {m : Json ν} {log : List (AsrAnswered ν)} {r : Except Exn (Request ν)}
    (h : (requestProgram D columnMap columns m).Ends log r) (rest : List (AsrAnswered ν))
    (hrest : ∀ e ∈ rest, e.rows? = none) :
    request D.toPrinter (databaseQuery D columnMap columns (answeredQuery (log ++ rest)) fun _ => ([], [])) m = r ∧
      OnlyQueries log := by
  have hanswers (i : ℕ) (rows : List Row) (hi : (log.filterMap rows?)[i]? = some rows) : ∀ (startTime endTime : ν)
      (participantId trialId : Str), databaseQuery D columnMap columns (answeredQuery (log ++ rest))
        (fun _ => ([], [])) (0 + i) startTime endTime participantId trialId =
          rows.mapM (rowMessage D columnMap columns) := by
    intro _ _ _ _
    rw [databaseQuery, DBWrapper.featuresBetween, answeredQuery, List.filterMap_append,
      List.filterMap_eq_nil_iff.mpr hrest, List.append_nil, Nat.zero_add, hi, Option.getD_some]
  rw [request_withWords]
  refine h.ofExcept_bind onlyQueries_nil fun trialId _ h => ?_
  refine h.ofExcept_bind onlyQueries_nil fun experimentId _ h => ?_
  refine h.ofExcept_bind onlyQueries_nil fun words _ h => ?_
  rcases (ends_bind _).mp h with ⟨wordMessages, before, after, rfl, hloop, hmessage⟩ | ⟨e, rfl, hloop⟩
  · obtain ⟨hr, rfl⟩ := hmessage.ofExcept_bind (Q := fun after => after = []) rfl fun message _ hret =>
      (ends_ret.mp hret).symm.imp_left Eq.symm
    rw [List.append_nil] at hanswers ⊢
    obtain ⟨halign, hcalls⟩ := ends_alignWords hloop hanswers
    rw [halign]
    exact ⟨hr, hcalls⟩
  · obtain ⟨halign, hcalls⟩ := ends_alignWords hloop hanswers
    rw [halign]
    exact ⟨rfl, hcalls⟩

/-- A published part, or what its making throws. -/
theorem ends_publishPart {topic trialId experimentId subType part first second : Str} {message : Json ν}
    {log : List (AsrAnswered ν)} {r : Except Exn Unit}
    (h : (publishPart D topic trialId experimentId subType part first second message).Ends log r) :
    ∃ headerTime msgTime rest, log = ⟨.clock, headerTime⟩ :: ⟨.clock, msgTime⟩ :: rest ∧
      ((∃ published, partMessage (createCommonHeader headerTime "observation".toList)
          (createCommonMsg msgTime subType trialId experimentId) part first second message = .ok published ∧
          rest = [⟨.publish ⟨topic, published.dump D.toPrinter⟩, ()⟩] ∧ r = .ok ()) ∨
        ∃ e, partMessage (createCommonHeader headerTime "observation".toList)
          (createCommonMsg msgTime subType trialId experimentId) part first second message = .error e ∧
          rest = [] ∧ r = .error e) := by
  obtain ⟨headerTime, log, rfl, hmsg⟩ := ends_perform_bind.mp h
  obtain ⟨msgTime, log, rfl, hpart⟩ := ends_perform_bind.mp hmsg
  refine ⟨headerTime, msgTime, log, rfl, ?_⟩
  rcases ends_ofExcept_bind.mp hpart with ⟨published, hpublished, hpublish⟩ | ⟨e, he, rfl, rfl⟩
  · obtain ⟨_, rfl, rfl⟩ := ends_perform.mp hpublish
    exact .inl ⟨published, hpublished, rfl, rfl⟩
  · exact .inr ⟨e, he, rfl, rfl⟩

/-- What a thread publishes for a response and when it ends. -/
def responded (D : Doubles ν) (R : Json.Reader ν) (body : Option Bytes) (clock : ℕ → Str) (r : Request ν) : Emitted :=
  match R.parse (responseText body) with
  | none => ⟨[], .ok ()⟩
  | some response =>
    match Json.setAt ["data".toList, "sentiment".toList] response r.message with
    | .error e => ⟨[], .error e⟩
    | .ok message => publishResponse D.toPrinter clock r.trialId r.experimentId message

theorem ends_respond {r : Request ν}
    (hset : ∀ response, ∃ message, Json.setAt ["data".toList, "sentiment".toList] response r.message = .ok message)
    {log : List (AsrAnswered ν)} {result : Except Exn Unit} (h : (respondProgram D R r).Ends log result) :
    responded D R (answeredBody log) (answeredClock log) r = ⟨log.filterMap publication?, result⟩ ∧
      (∀ e ∈ log, e.rows? = none) ∧ ∀ e ∈ log.tail, e.body? = none := by
  obtain ⟨body, log, rfl, hresponse⟩ := ends_perform_bind.mp h
  have hbody : answeredBody (⟨.exchange (r.message.dump D.toPrinter), body⟩ :: log) = body := rfl
  rw [responded, hbody]
  cases hparse : R.parse (responseText body) with
  | none =>
    simp only [hparse] at hresponse
    obtain ⟨rfl, rfl⟩ := ends_ret.mp hresponse
    exact ⟨rfl, by simp [rows?], by simp⟩
  | some response =>
    obtain ⟨message, hmessage⟩ := hset response
    simp only [hparse, hmessage] at hresponse
    simp only [hmessage, publishResponse, sentimentMessage, personalityMessage]
    -- The clock was read twice for each part, before the part was made.
    rcases (ends_bind _).mp hresponse with ⟨_, before, after, rfl, hsentiment, hpersonality⟩ | ⟨e, rfl, hsentiment⟩
    · obtain ⟨t₀, t₁, rest, rfl, ⟨sentiment, hs, rfl, -⟩ | ⟨e, -, -, he⟩⟩ := ends_publishPart hsentiment
      · obtain ⟨t₂, t₃, rest, rfl, ⟨personality, hp, rfl, rfl⟩ | ⟨e, hp, rfl, rfl⟩⟩ := ends_publishPart hpersonality
        · simp only [answeredClock, List.cons_append, List.nil_append, List.filterMap_cons, List.filterMap_nil, time?,
            List.getElem?_cons_zero, List.getElem?_cons_succ, Option.getD_some, hs, hp]
          exact ⟨rfl, by simp [rows?], by simp [body?]⟩
        · simp only [answeredClock, List.cons_append, List.nil_append, List.filterMap_cons, List.filterMap_nil, time?,
            List.getElem?_cons_zero, List.getElem?_cons_succ, Option.getD_some, hs, hp]
          exact ⟨rfl, by simp [rows?], by simp [body?]⟩
      · cases he
    · obtain ⟨t₀, t₁, rest, rfl, ⟨sentiment, -, -, he⟩ | ⟨e, hs, rfl, he⟩⟩ := ends_publishPart hsentiment
      · cases he
      · obtain rfl := Except.error.inj he
        simp only [answeredClock, List.filterMap_cons, List.filterMap_nil, time?, List.getElem?_cons_zero,
          List.getElem?_cons_succ, Option.getD_some, hs]
        exact ⟨rfl, by simp [rows?], by simp [body?]⟩

/-- The message of a request takes the answer. -/
theorem setAt_of_ends {m : Json ν} {log : List (AsrAnswered ν)} {r : Request ν}
    (h : (requestProgram D columnMap columns m).Ends log (.ok r)) (response : Json ν) :
    ∃ message, Json.setAt ["data".toList, "sentiment".toList] response r.message = .ok message := by
  have h := (ends_request h [] (List.forall_mem_nil _)).1
  obtain ⟨ids, message, hrequest, -, -, hanswer⟩ := request_of_usable D columnMap columns (answeredQuery (log ++ []))
    (fun _ => ([], [])) (usable_of_request h)
  obtain rfl := Except.ok.inj (h.symm.trans hrequest)
  obtain ⟨message', hset, -⟩ := hanswer response
  exact ⟨message', hset⟩

/-- A thread that has ended has done what `processASRMessage` does with these
answers. -/
theorem ends_thread {m : Json ν} {log : List (AsrAnswered ν)} {result : Except Exn Unit}
    (h : (threadProgram D R columnMap columns m).Ends log result) :
    processASRMessage D.toPrinter R (databaseQuery D columnMap columns (answeredQuery log) fun _ => ([], []))
      (fun _ => answeredBody log) (answeredClock log) m = ⟨log.filterMap publication?, result⟩ := by
  rcases (ends_bind _).mp h with ⟨r, before, after, rfl, hrequest, hrespond⟩ | ⟨e, rfl, hrequest⟩
  · obtain ⟨hresponded, hafter, -⟩ := ends_respond (setAt_of_ends hrequest) hrespond
    obtain ⟨hr, hbefore⟩ := ends_request hrequest after hafter
    rw [hbefore.answeredBody_append, hbefore.answeredClock_append, hbefore.published_append, ← hresponded,
      processASRMessage, hr]
    rfl
  · obtain ⟨hr, hlog⟩ := ends_request hrequest [] (List.forall_mem_nil _)
    rw [List.append_nil] at hr
    rw [processASRMessage, hr, hlog.published]

/-! ## A thread on its way -/

theorem thread_outcome {m : Json ν} {log : List (AsrAnswered ν)} {result : Except Exn Unit}
    (h : (threadProgram D R columnMap columns m).Ends log result) :
    UtteranceOutcome D.toPrinter m (R.parse (responseText (answeredBody log)))
      ⟨log.filterMap publication?, result⟩ := by
  rw [← ends_thread h]
  exact utteranceOutcome D columnMap columns (answeredQuery log) (fun _ => ([], [])) R (answeredClock log) m _

/-- A thread queries, then it sends the request its answers make, and sends and
queries no more. -/
theorem runs_thread {m : Json ν} {log : List (AsrAnswered ν)} {left : AsrProgram ν Unit}
    (h : (threadProgram D R columnMap columns m).Runs log left) : OnlyQueries log ∨ ∃ r before body after,
      log = before ++ ⟨.exchange (r.message.dump D.toPrinter), body⟩ :: after ∧ OnlyQueries before ∧
      (requestProgram D columnMap columns m).Ends before (.ok r) ∧ ∀ e ∈ after, e.rows? = none ∧ e.body? = none := by
  rcases runs_bind _ h with ⟨p, hp, -⟩ | ⟨r, before, after, rfl, hrequest, hrespond⟩
  · obtain ⟨rest, result, hends⟩ := hp.exists_ends
    exact .inl (ends_request hends [] (List.forall_mem_nil _)).2.of_append
  · have hbefore := (ends_request hrequest [] (List.forall_mem_nil _)).2
    obtain ⟨rest, result, hends⟩ := hrespond.exists_ends
    obtain ⟨-, hrows, hbody⟩ := ends_respond (setAt_of_ends hrequest) hends
    rcases runs_call hrespond with ⟨rfl, -⟩ | ⟨body, after, rfl, -⟩
    · rw [List.append_nil]
      exact .inl hbefore
    · exact .inr ⟨r, before, body, after, rfl, hbefore, hrequest, fun e he =>
        ⟨hrows e (List.mem_append_left _ (List.mem_cons_of_mem _ he)), hbody e (List.mem_append_left _ he)⟩⟩

/-- What a thread has published by some time, by what it has been told: nothing
or, the server having answered with JSON that takes keys, the beginning of its
two messages. If it has returned, both or there was no JSON; if it has thrown,
neither. -/
structure Uttered (P : Json.Printer ν) (R : Json.Reader ν) (m : Json ν) (log : List (AsrAnswered ν))
    (left : AsrProgram ν Unit) : Prop where
  part : log.filterMap publication? = [] ∨ ∃ ids response both, Usable m ∧ HasIds m ids ∧
    R.parse (responseText (answeredBody log)) = some response ∧ response.IsMap ∧
    BothPublished P ids (Json.path ["data".toList, "utterance_id".toList] m) both ∧
    log.filterMap publication? <+: both
  returned : left = .ret () → Usable m ∧ ∀ response, R.parse (responseText (answeredBody log)) = some response →
    response.IsMap ∧ ∃ ids, HasIds m ids ∧
      BothPublished P ids (Json.path ["data".toList, "utterance_id".toList] m) (log.filterMap publication?)
  thrown : ∀ e, left = .throw e → log.filterMap publication? = [] ∧
    (Usable m → ∃ response, R.parse (responseText (answeredBody log)) = some response ∧ ¬ response.IsMap)

theorem uttered_of_runs {m : Json ν} {log : List (AsrAnswered ν)} {left : AsrProgram ν Unit}
    (h : (threadProgram D R columnMap columns m).Runs log left) : Uttered D.toPrinter R m log left := by
  refine ⟨?_, ?_, ?_⟩
  · rcases runs_thread h with hqueries | ⟨r, before, body, after, rfl, hbefore, -, -⟩
    · exact .inl hqueries.published
    · obtain ⟨rest, result, hends⟩ := h.exists_ends
      have hbody (rest : List (AsrAnswered ν)) :
          answeredBody (before ++ ⟨.exchange (r.message.dump D.toPrinter), body⟩ :: rest) = body :=
        hbefore.answeredBody_append _
      have hpart := List.prefix_append ((before ++ ⟨.exchange (r.message.dump D.toPrinter), body⟩ :: after).filterMap
        publication?) (rest.filterMap publication?)
      rw [← List.filterMap_append] at hpart
      have hnone (h : (before ++ ⟨.exchange (r.message.dump D.toPrinter), body⟩ :: after ++ rest).filterMap
          publication? = []) := List.prefix_nil.mp (h ▸ hpart)
      have houtcome := thread_outcome hends
      rw [List.append_assoc _ _ rest, List.cons_append, hbody] at houtcome
      rw [List.append_assoc _ _ rest, List.cons_append] at hpart hnone
      cases houtcome with
      | unusable _ _ ho => exact .inl (hnone (congrArg Emitted.published ho))
      | noAnswer _ _ ho => exact .inl (hnone (congrArg Emitted.published ho))
      | noKeys _ _ _ ho => exact .inl (hnone (congrArg Emitted.published ho))
      | @published response ids husable hanswer hmap hids _ hboth =>
        exact .inr ⟨ids, response, _, husable, hids, (congrArg _ (congrArg _ (hbody after))).trans hanswer, hmap, hboth,
          hpart⟩
  · rintro rfl
    have hends : (threadProgram D R columnMap columns m).Ends log (.ok ()) := h
    cases thread_outcome hends with
    | unusable _ e ho => cases congrArg Emitted.result ho
    | noAnswer husable hanswer _ =>
      refine ⟨husable, fun response hresponse => ?_⟩
      rw [hanswer] at hresponse
      cases hresponse
    | noKeys _ _ _ ho => cases congrArg Emitted.result ho
    | published husable hanswer hmap hids _ hboth =>
      refine ⟨husable, fun response hresponse => ?_⟩
      obtain rfl := Option.some.inj (hanswer.symm.trans hresponse)
      exact ⟨hmap, _, hids, hboth⟩
  · rintro e rfl
    have hends : (threadProgram D R columnMap columns m).Ends log (.error e) := h
    cases thread_outcome hends with
    | unusable hunusable _ ho => exact ⟨congrArg Emitted.published ho, fun husable => absurd husable hunusable⟩
    | noAnswer _ _ ho => cases congrArg Emitted.result ho
    | noKeys _ hanswer hmap ho => exact ⟨congrArg Emitted.published ho, fun _ => ⟨_, hanswer, hmap⟩⟩
    | published _ _ _ _ hresult _ => cases hresult

/-! ## The number of calls -/

theorem within_alignWords (m : Json ν) : ∀ words : List (Json ν),
    (alignWordsProgram D columnMap columns m words).Within words.length
  | [] => trivial
  | word :: words => by
    refine within_ofExcept_bind fun (startTime, endTime, participantId, trialId) _ => ?_
    refine within_perform_bind fun rows => within_ofExcept_bind fun wordMessage _ => ?_
    refine Within.bind (k := 0) (fun _ => ?_) (within_alignWords m words)
    trivial

theorem within_publishPart (topic trialId experimentId subType part first second : Str) (message : Json ν) :
    (publishPart D topic trialId experimentId subType part first second message).Within 3 :=
  within_perform_bind fun _ => within_perform_bind fun _ => within_ofExcept_bind fun _ _ => within_perform _

theorem within_respond (r : Request ν) : (respondProgram D R r).Within 7 := by
  refine within_perform_bind fun body => ?_
  cases R.parse (responseText body) with
  | none => trivial
  | some response =>
    simp only
    split
    · trivial
    · next message _ =>
      exact Within.bind (k := 3) (fun _ => within_publishPart _ _ _ _ _ _ _ message)
        (within_publishPart _ _ _ _ _ _ _ message)

/-- The words of a message. -/
def wordMessages (m : Json ν) : List (Json ν) :=
  match Json.getAt ["data".toList, "features".toList, "word_messages".toList] m with
  | .ok words => words.elements
  | .error _ => []

/-- A query for each word, the exchange, and for each of the two messages two
looks at the clock and the publication. -/
theorem within_thread (m : Json ν) : (threadProgram D R columnMap columns m).Within ((wordMessages m).length + 7) := by
  refine Within.bind within_respond (within_ofExcept_bind fun _ _ => within_ofExcept_bind fun _ _ =>
    within_ofExcept_bind fun words hwords => ?_)
  rw [wordMessages, hwords]
  refine Within.bind (k := 0) (fun _ => within_ofExcept_bind fun _ _ => ?_) (within_alignWords m words.elements)
  trivial

end Ends

end ASRProcessor

end SpeechAnalyzer
