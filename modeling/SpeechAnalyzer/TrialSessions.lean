/-
The sessions that live while the Manager handles message after message.

A start appends its sessions and a stop clears them all, so the sessions are
those of every start since the last stop. They are those of the last start
alone as long as no start finds a session still there. What a thread of
`ProcessASRMessage` throws, which ends the process too, is outside `System`.
-/
import SpeechAnalyzer.Manager
import Mathlib.Data.List.Induction

namespace SpeechAnalyzer

open Lib Manager

variable {ν : Type}

/-- The Manager and the session processes not yet sent a SIGTERM; `nextPid`
is the number of the next process. An exception of `on_message` ends the
Manager's process. -/
structure System where
  manager : Manager
  children : List OpensmileSession
  nextPid : Nat
  listening : Bool
deriving DecidableEq, Repr

namespace System

/-- The Manager's own process is number 1. -/
def initial : System := ⟨⟨[]⟩, [], 2, true⟩

def observe (s : System) : Effect ν → System
  | .fork session => { s with children := s.children ++ [session], nextPid := session.pid + 1 }
  | .kill pid => { s with children := s.children.filter fun child => child.pid ≠ pid }
  | .clearTrial _ | .processASRMessage _ => s

/-- A message, topic and payload, delivered to the Manager. -/
def step (R : Json.Reader ν) (s : System) (message : Str × Bytes) : System × List (Effect ν) :=
  if s.listening then
    match onMessage R message.1 message.2 s.nextPid s.manager with
    | .error _ => ({ s with listening := false }, [])
    | .ok (m, effects) => (effects.foldl observe { s with manager := m }, effects)
  else (s, [])

def run (R : Json.Reader ν) (s : System) (messages : List (Str × Bytes)) : System := (Mealy.run (step R) s messages).1

/-- The live sessions, as the Manager's objects and as processes, are those
with the ids. -/
structure Live (ids : List Ids) (s : System) : Prop where
  sessions : (s.manager.participantSessions.map OpensmileSession.toIds).Perm ids
  children : (s.children.map OpensmileSession.toIds).Perm ids

end System

/-! ## What is asked for -/

/-- The sessions after an event, when a start replaces them. -/
def TrialEvent.replace (ids : List Ids) : TrialEvent ν → List Ids
  | .start trialId experimentId participants => participants.map (⟨·, trialId, experimentId⟩)
  | .stop => []
  | .other | .asr _ => ids

/-- One session for each client of the last start, none after a stop. -/
def expected (events : List (TrialEvent ν)) : List Ids := events.foldl TrialEvent.replace []

/-- No start comes while a session is to be there: it is the first, or follows
a stop, or the start before it had no clients. -/
def NeverRestarts (events : List (TrialEvent ν)) : Prop :=
  ∀ before trialId experimentId participants after,
    events = before ++ .start trialId experimentId participants :: after → expected before = []

/-! ## What there is -/

/-- The sessions after an event: a start appends. -/
def TrialEvent.append (ids : List Ids) : TrialEvent ν → List Ids
  | .start trialId experimentId participants => ids ++ participants.map (⟨·, trialId, experimentId⟩)
  | .stop => []
  | .other | .asr _ => ids

def opened (events : List (TrialEvent ν)) : List Ids := events.foldl TrialEvent.append []

namespace System

/-- The processes are the Manager's sessions. -/
structure Paired (s : System) : Prop where
  children : s.children = s.manager.participantSessions
  pids : ∀ session ∈ s.manager.participantSessions, session.pid ≠ 0
  nextPid : s.nextPid ≠ 0
  listening : s.listening = true

theorem foldl_fork (trialId experimentId : Str) : ∀ (participants : List Str) (s : System),
    ((newSessions participants trialId experimentId s.nextPid).map Effect.fork : List (Effect ν)).foldl observe s =
      { s with
        children := s.children ++ newSessions participants trialId experimentId s.nextPid
        nextPid := s.nextPid + participants.length }
  | [], s => by simp [newSessions]
  | participant :: participants, s => by
    have ih := foldl_fork trialId experimentId participants
      (s.observe (.fork (.new participant trialId experimentId s.nextPid) : Effect ν))
    rw [newSessions_cons, List.map_cons, List.foldl_cons]
    refine ih.trans ?_
    simp only [observe, OpensmileSession.new, List.append_assoc, List.singleton_append, List.length_cons,
      Nat.add_assoc, Nat.add_comm 1]

theorem foldl_delete : ∀ {sessions : List OpensmileSession} (s : System), (∀ session ∈ sessions, session.pid ≠ 0) →
    ((sessions.flatMap OpensmileSession.delete : List (Effect ν)).foldl observe s) =
      { s with children := s.children.filter fun child => child.pid ∉ sessions.map OpensmileSession.pid }
  | [], s, _ => by simp
  | session :: sessions, s, h => by
    obtain ⟨hs, h⟩ := List.forall_mem_cons.mp h
    rw [List.flatMap_cons, OpensmileSession.delete, if_pos hs, List.singleton_append, List.foldl_cons,
      foldl_delete _ h]
    simp only [observe, List.filter_filter, List.map_cons, List.mem_cons, not_or, Bool.decide_and]
    congr 2
    funext child
    exact Bool.and_comm _ _

/-- One message. -/
theorem step_paired {R : Json.Reader ν} {s : System} (hs : s.Paired) {message : Str × Bytes} {e : TrialEvent ν}
    (h : Says R message e) :
    (s.step R message).1.Paired ∧
      (s.step R message).1.manager.participantSessions.map OpensmileSession.toIds =
        e.append (s.manager.participantSessions.map OpensmileSession.toIds) := by
  have hstep : (s.step R message).1 =
      (s.manager.handle s.nextPid e).2.foldl observe { s with manager := (s.manager.handle s.nextPid e).1 } := by
    rw [step, if_pos hs.listening, onMessage_eq h]
  rw [hstep]
  cases e with
  | start trialId experimentId participants =>
    have hfork := foldl_fork (ν := ν) trialId experimentId participants { s with
      manager := ⟨s.manager.participantSessions ++ newSessions participants trialId experimentId s.nextPid⟩ }
    simp only [handle, List.foldl_cons, observe, hfork]
    refine ⟨⟨?_, fun session hsession => ?_, ?_, hs.listening⟩, ?_⟩
    · rw [hs.children]
    · rcases List.mem_append.mp hsession with hold | hnew
      · exact hs.pids session hold
      · have := (newSessions_pid hnew).1
        have := hs.nextPid
        omega
    · have := hs.nextPid
      simp only
      omega
    · rw [List.map_append, newSessions_ids]
      rfl
  | stop =>
    simp only [handle, clearParticipants]
    rw [foldl_delete _ hs.pids]
    refine ⟨⟨?_, by simp, hs.nextPid, hs.listening⟩, rfl⟩
    simp only [hs.children, List.filter_eq_nil_iff, decide_eq_true_eq, not_not]
    exact fun session hsession => List.mem_map_of_mem hsession
  | other => exact ⟨hs, rfl⟩
  | asr m => exact ⟨hs, rfl⟩

theorem run_paired {R : Json.Reader ν} {messages : List (Str × Bytes)} {events : List (TrialEvent ν)}
    (h : List.Forall₂ (Says R) messages events) : ∀ {s : System}, s.Paired →
      (s.run R messages).Paired ∧
        (s.run R messages).manager.participantSessions.map OpensmileSession.toIds =
          events.foldl TrialEvent.append (s.manager.participantSessions.map OpensmileSession.toIds) := by
  induction h with
  | nil => exact fun hs => ⟨hs, rfl⟩
  | cons hsays _ ih =>
    intro s hs
    obtain ⟨hs', hids⟩ := step_paired hs hsays
    rw [List.foldl_cons, ← hids]
    exact ih hs'

theorem initial_paired : initial.Paired := ⟨rfl, by simp [initial], by decide, rfl⟩

theorem run_live_iff {R : Json.Reader ν} {messages : List (Str × Bytes)} {events : List (TrialEvent ν)}
    (h : List.Forall₂ (Says R) messages events) (ids : List Ids) :
    (initial.run R messages).Live ids ↔ (opened events).Perm ids := by
  obtain ⟨hpaired, hids⟩ := run_paired h initial_paired
  have hopened : (initial.run R messages).manager.participantSessions.map OpensmileSession.toIds = opened events := hids
  refine ⟨?_, ?_⟩
  · intro hlive
    rw [← hopened]
    exact hlive.sessions
  · intro hperm
    rw [← hopened] at hperm
    exact ⟨hperm, by rwa [hpaired.children]⟩

end System

/-! ## The two compared -/

theorem opened_concat (events : List (TrialEvent ν)) (e : TrialEvent ν) :
    opened (events ++ [e]) = e.append (opened events) := by
  rw [opened, List.foldl_append]
  rfl

theorem expected_concat (events : List (TrialEvent ν)) (e : TrialEvent ν) :
    expected (events ++ [e]) = e.replace (expected events) := by
  rw [expected, List.foldl_append]
  rfl

theorem NeverRestarts.of_part {part events : List (TrialEvent ν)} (h : NeverRestarts events)
    (hpart : part <+: events) : NeverRestarts part := by
  obtain ⟨rest, rfl⟩ := hpart
  intro before trialId experimentId participants after hsplit
  exact h before trialId experimentId participants (after ++ rest) (by rw [hsplit, List.append_assoc, List.cons_append])

theorem NeverRestarts.opened_eq {events : List (TrialEvent ν)} (h : NeverRestarts events) :
    opened events = expected events := by
  induction events using List.reverseRecOn with
  | nil => rfl
  | append_singleton events e ih =>
    rw [opened_concat, expected_concat, ih (h.of_part (List.prefix_append _ _))]
    cases e with
    | start trialId experimentId participants =>
      have hnone := h events trialId experimentId participants [] rfl
      rw [hnone]
      rfl
    | stop => rfl
    | other => rfl
    | asr m => rfl

/-- The sessions are the expected ones throughout only when no start finds any. -/
theorem neverRestarts_of_perm {events : List (TrialEvent ν)}
    (h : ∀ n, (opened (events.take n)).Perm (expected (events.take n))) : NeverRestarts events := by
  rintro before trialId experimentId participants after rfl
  have hbefore := h before.length
  rw [List.take_left] at hbefore
  have hstart := h (before.length + 1)
  have htake : (before ++ .start trialId experimentId participants :: after).take (before.length + 1) =
      before ++ [.start trialId experimentId participants] := by
    rw [List.take_length_add_append]
    rfl
  rw [htake, opened_concat, expected_concat] at hstart
  have hlength := hstart.length_eq
  simp only [TrialEvent.append, TrialEvent.replace, List.length_append] at hlength
  have hnil : opened before = [] := List.length_eq_zero_iff.mp (by omega)
  rw [hnil] at hbefore
  exact hbefore.symm.eq_nil

/-- **The live sessions are the expected ones after every message exactly when
no start comes while a session is to be there.** -/
theorem live_iff {R : Json.Reader ν} {messages : List (Str × Bytes)} {events : List (TrialEvent ν)}
    (h : List.Forall₂ (Says R) messages events) :
    (∀ n, (System.initial.run R (messages.take n)).Live (expected (events.take n))) ↔ NeverRestarts events := by
  have hlive (n : Nat) : (System.initial.run R (messages.take n)).Live (expected (events.take n)) ↔
      (opened (events.take n)).Perm (expected (events.take n)) := System.run_live_iff (List.forall₂_take n h) _
  simp only [hlive]
  refine ⟨neverRestarts_of_perm, fun hnever n => ?_⟩
  rw [(hnever.of_part (List.take_prefix n events)).opened_eq]

/-! ## A trial started twice -/

/-- A start of trial T with one client, a stop and an utterance without words,
as texts and as JSON. -/
def startPayload : Bytes := ascii <| "\x7b\"data\":\x7b\"client_info\":[\x7b\"playername\":\"Red\"\x7d]\x7d,".toList ++
  "\"msg\":\x7b\"experiment_id\":\"E\",\"sub_type\":\"start\",\"trial_id\":\"T\"\x7d\x7d".toList

def stopPayload : Bytes := ascii
  "\x7b\"msg\":\x7b\"experiment_id\":\"E\",\"sub_type\":\"stop\",\"trial_id\":\"T\"\x7d\x7d".toList

def utterancePayload : Bytes := ascii <| "\x7b\"data\":\x7b\"features\":\x7b\"word_messages\":[]\x7d\x7d,".toList ++
  "\"msg\":\x7b\"experiment_id\":\"E\",\"trial_id\":\"T\"\x7d\x7d".toList

def trialMsg (subType : Str) : Json Nat := .obj [("experiment_id".toList, .str "E".toList),
  ("sub_type".toList, .str subType), ("trial_id".toList, .str "T".toList)]

def startJson : Json Nat := .obj [
  ("data".toList, .obj [("client_info".toList, .arr [.obj [("playername".toList, .str "Red".toList)]])]),
  ("msg".toList, trialMsg "start".toList)]

def stopJson : Json Nat := .obj [("msg".toList, trialMsg "stop".toList)]

def utteranceJson : Json Nat := .obj [
  ("data".toList, .obj [("features".toList, .obj [("word_messages".toList, .arr [])])]),
  ("msg".toList, .obj [("experiment_id".toList, .str "E".toList), ("trial_id".toList, .str "T".toList)])]

def trialReader : Json.Reader Nat :=
  Json.Reader.ofTable [(startPayload, startJson), (stopPayload, stopJson), (utterancePayload, utteranceJson)]
    (by decide +kernel)

def startEvent : TrialEvent Nat := .start "T".toList "E".toList ["Red".toList]

theorem startPayload_says : Says trialReader ("trial".toList, startPayload) startEvent :=
  .start (m := startJson) ⟨rfl, rfl, rfl, rfl⟩ rfl (.cons rfl .nil)

theorem stopPayload_says : Says trialReader ("trial".toList, stopPayload) .stop :=
  .stop (m := stopJson) ⟨rfl, rfl, rfl, rfl⟩

theorem utterancePayload_says : Says trialReader ("agent/asr/final".toList, utterancePayload) (.asr utteranceJson) :=
  .asr rfl

/-- Start, stop, start, and an utterance. -/
def restartMessages : List (Str × Bytes) := [("trial".toList, startPayload), ("trial".toList, stopPayload),
  ("trial".toList, startPayload), ("agent/asr/final".toList, utterancePayload)]

def restartEvents : List (TrialEvent Nat) := [startEvent, .stop, startEvent, .asr utteranceJson]

theorem restartMessages_says : List.Forall₂ (Says trialReader) restartMessages restartEvents :=
  .cons startPayload_says (.cons stopPayload_says (.cons startPayload_says (.cons utterancePayload_says .nil)))

theorem restartEvents_never : NeverRestarts restartEvents := by
  refine neverRestarts_of_perm fun n => .of_eq ?_
  rcases n with _ | _ | _ | n
  · rfl
  · rfl
  · rfl
  · -- From the second start on nothing changes.
    rcases n with _ | n
    · rfl
    · rw [List.take_of_length_le (by simp [restartEvents])]
      rfl

theorem live_iff_started : NeverRestarts restartEvents ∧
    ∀ n, (System.initial.run trialReader (restartMessages.take n)).Live (expected (restartEvents.take n)) :=
  ⟨restartEvents_never, (live_iff restartMessages_says).mpr restartEvents_never⟩

/-- After a second start there are two sessions for the one client. -/
theorem second_start_duplicates : ¬ ∀ (R : Json.Reader Nat) (messages : List (Str × Bytes))
    (events : List (TrialEvent Nat)), List.Forall₂ (Says R) messages events →
      ∀ n, (System.initial.run R (messages.take n)).Live (expected (events.take n)) := by
  intro h
  have hlive := h trialReader (List.replicate 2 ("trial".toList, startPayload)) (List.replicate 2 startEvent)
    (.cons startPayload_says (.cons startPayload_says .nil)) 2
  exact absurd ((System.run_live_iff (.cons startPayload_says (.cons startPayload_says .nil)) _).mp hlive).length_eq
    (by decide +kernel)

end SpeechAnalyzer
