/-
The Manager on any messages, well-formed or not. `on_message` reads all it needs
before its first effect, so a payload is taken for an event or ends the process
(`TrialEvent.ofMessage`); what the process has done until then is what the
events before say (`Ran`).

Processes are accounted for throughout: each one forked has been sent its
SIGTERM, once and in the order of the forks, or is a live session.
-/
import SpeechAnalyzer.TrialSessions

namespace SpeechAnalyzer

open Lib Manager

variable {ν : Type}

/-- What `on_message` takes a payload for, from its parse and its accesses. -/
def TrialEvent.ofMessage (R : Json.Reader ν) (message : Str × Bytes) : Except Exn (TrialEvent ν) := do
  let j ← R.read message.2
  if message.1 = "trial".toList then
    let subType ← field j ["msg".toList, "sub_type".toList]
    let trialId ← field j ["msg".toList, "trial_id".toList]
    let experimentId ← field j ["msg".toList, "experiment_id".toList]
    if subType = "start".toList then
      let clientInfo ← Json.getAt ["data".toList, "client_info".toList] j
      let participants ← playernames clientInfo.elements
      .ok (.start trialId experimentId participants)
    else if subType = "stop".toList then .ok .stop
    else .ok .other
  else if message.1 = "agent/asr/final".toList then .ok (.asr j)
  else .ok .other

/-- The events up to the first message that is none. -/
def readable (R : Json.Reader ν) : List (Str × Bytes) → List (TrialEvent ν)
  | [] => []
  | message :: messages =>
    match TrialEvent.ofMessage R message with
    | .ok e => e :: readable R messages
    | .error _ => []

/-- The sessions an event opens. -/
def TrialEvent.opens : TrialEvent ν → List Ids
  | .start trialId experimentId participants => participants.map (⟨·, trialId, experimentId⟩)
  | .stop | .other | .asr _ => []

def TrialEvent.asrMessage? : TrialEvent ν → Option (Json ν)
  | .asr m => some m
  | .start .. | .stop | .other => none

def TrialEvent.startedTrial? : TrialEvent ν → Option Str
  | .start trialId _ _ => some trialId
  | .stop | .other | .asr _ => none

namespace Manager.Effect

def forked? : Effect ν → Option OpensmileSession
  | .fork session => some session
  | .clearTrial _ | .kill _ | .processASRMessage _ => none

def killed? : Effect ν → Option Nat
  | .kill pid => some pid
  | .clearTrial _ | .fork _ | .processASRMessage _ => none

def asrMessage? : Effect ν → Option (Json ν)
  | .processASRMessage m => some m
  | .clearTrial _ | .fork _ | .kill _ => none

def clearedTrial? : Effect ν → Option Str
  | .clearTrial trialId => some trialId
  | .fork _ | .kill _ | .processASRMessage _ => none

end Manager.Effect

/-- The system after these events, and all it has done. -/
structure Ran (events : List (TrialEvent ν)) (s : System) (effects : List (Effect ν)) : Prop where
  sessions : s.manager.participantSessions.map OpensmileSession.toIds = opened events
  children : s.children = s.manager.participantSessions
  forked : (effects.filterMap Effect.forked?).map OpensmileSession.toIds = events.flatMap TrialEvent.opens
  pids : ∃ n, s.nextPid = 2 + n ∧ (effects.filterMap Effect.forked?).map OpensmileSession.pid = List.range' 2 n
  killed : effects.filterMap Effect.killed? ++ s.children.map OpensmileSession.pid =
    (effects.filterMap Effect.forked?).map OpensmileSession.pid
  cleared : effects.filterMap Effect.clearedTrial? = events.filterMap TrialEvent.startedTrial?
  asr : effects.filterMap Effect.asrMessage? = events.filterMap TrialEvent.asrMessage?

namespace Manager

/-- A message is handled as what it is taken for. -/
theorem onMessage_ofMessage (R : Json.Reader ν) (message : Str × Bytes) (nextPid : Nat) (m : Manager) :
    onMessage R message.1 message.2 nextPid m = (TrialEvent.ofMessage R message).map (m.handle nextPid) := by
  unfold onMessage TrialEvent.ofMessage
  cases R.read message.2 with
  | error e => rfl
  | ok j =>
    simp only [ok_bind]
    split
    · cases field j ["msg".toList, "sub_type".toList] with
      | error e => rfl
      | ok subType =>
        cases field j ["msg".toList, "trial_id".toList] with
        | error e => rfl
        | ok trialId =>
          cases field j ["msg".toList, "experiment_id".toList] with
          | error e => rfl
          | ok experimentId =>
            simp only [ok_bind]
            split
            · cases Json.getAt ["data".toList, "client_info".toList] j with
              | error e => rfl
              | ok clientInfo =>
                simp only [ok_bind]
                cases playernames clientInfo.elements with
                | error e => rfl
                | ok participants =>
                  simp only [ok_bind, initializeParticipants_eq]
                  rfl
            · split <;> rfl
    · split <;> rfl

theorem newSessions_pids (trialId experimentId : Str) : ∀ (participants : List Str) (nextPid : Nat),
    (newSessions participants trialId experimentId nextPid).map OpensmileSession.pid =
      List.range' nextPid participants.length
  | [], _ => rfl
  | participant :: participants, nextPid => by
    rw [newSessions_cons, List.map_cons, newSessions_pids trialId experimentId participants, List.length_cons,
      List.range'_succ]
    rfl

end Manager

/-! ## The effects of a start and of a stop -/

section Effects

open Effect

theorem start_effects (trialId : Str) (sessions : List OpensmileSession) :
    (clearTrial trialId :: sessions.map fork : List (Effect ν)).filterMap forked? = sessions ∧
      (clearTrial trialId :: sessions.map fork : List (Effect ν)).filterMap killed? = [] ∧
      (clearTrial trialId :: sessions.map fork : List (Effect ν)).filterMap clearedTrial? = [trialId] ∧
      (clearTrial trialId :: sessions.map fork : List (Effect ν)).filterMap asrMessage? = [] := by
  simp [List.filterMap_cons, List.filterMap_map, Function.comp_def, forked?, killed?, clearedTrial?, asrMessage?]

/-- The deletions are a SIGTERM for each process. -/
theorem delete_eq : ∀ {sessions : List OpensmileSession}, (∀ session ∈ sessions, session.pid ≠ 0) →
    sessions.flatMap OpensmileSession.delete = (sessions.map fun session => (kill session.pid : Effect ν))
  | [], _ => rfl
  | session :: sessions, h => by
    obtain ⟨hs, h⟩ := List.forall_mem_cons.mp h
    rw [List.flatMap_cons, delete_eq h, OpensmileSession.delete, if_pos hs]
    rfl

theorem stop_effects {sessions : List OpensmileSession} (h : ∀ session ∈ sessions, session.pid ≠ 0) :
    (sessions.flatMap OpensmileSession.delete : List (Effect ν)).filterMap forked? = [] ∧
      (sessions.flatMap OpensmileSession.delete : List (Effect ν)).filterMap killed? =
        sessions.map OpensmileSession.pid ∧
      (sessions.flatMap OpensmileSession.delete : List (Effect ν)).filterMap clearedTrial? = [] ∧
      (sessions.flatMap OpensmileSession.delete : List (Effect ν)).filterMap asrMessage? = [] := by
  rw [delete_eq h]
  simp [List.filterMap_map, Function.comp_def, forked?, killed?, clearedTrial?, asrMessage?]

end Effects

/-! ## One event more -/

namespace Ran

variable {events : List (TrialEvent ν)} {s : System} {effects : List (Effect ν)}

theorem initial : Ran ([] : List (TrialEvent ν)) System.initial [] := ⟨rfl, rfl, rfl, ⟨0, rfl, rfl⟩, rfl, rfl, rfl⟩

/-- Live processes have numbers from 2 on, each its own. -/
theorem pid_ne_zero (h : Ran events s effects) : ∀ session ∈ s.manager.participantSessions, session.pid ≠ 0 := by
  intro session hsession
  obtain ⟨n, -, hpids⟩ := h.pids
  have hmem : session.pid ∈ List.range' 2 n := by
    rw [← hpids, ← h.killed, h.children]
    exact List.mem_append_right _ (List.mem_map_of_mem hsession)
  have := List.mem_range'_1.mp hmem
  omega

/-- An event that neither opens nor ends a session. -/
theorem quiet (h : Ran events s effects) {e : TrialEvent ν} {es : List (Effect ν)} (hopens : e.opens = [])
    (happend : ∀ ids, e.append ids = ids) (hstarted : e.startedTrial? = none)
    (hforked : es.filterMap Effect.forked? = []) (hkilled : es.filterMap Effect.killed? = [])
    (hcleared : es.filterMap Effect.clearedTrial? = [])
    (hasr : es.filterMap Effect.asrMessage? = [e].filterMap TrialEvent.asrMessage?) :
    Ran (events ++ [e]) s (effects ++ es) := by
  refine ⟨?_, h.children, ?_, ?_, ?_, ?_, ?_⟩
  · rw [opened_concat, happend, h.sessions]
  · rw [List.filterMap_append, hforked, List.append_nil, h.forked, List.flatMap_append, List.flatMap_singleton, hopens,
      List.append_nil]
  · rw [List.filterMap_append, hforked, List.append_nil]
    exact h.pids
  · rw [List.filterMap_append, hkilled, List.append_nil, List.filterMap_append, hforked, List.append_nil]
    exact h.killed
  · rw [List.filterMap_append, hcleared, List.filterMap_append, List.filterMap_cons_none hstarted, h.cleared]
    rfl
  · rw [List.filterMap_append, hasr, List.filterMap_append, h.asr]

theorem handle (h : Ran events s effects) (e : TrialEvent ν) :
    Ran (events ++ [e])
      ((s.manager.handle s.nextPid e).2.foldl System.observe { s with manager := (s.manager.handle s.nextPid e).1 })
      (effects ++ (s.manager.handle s.nextPid e).2) := by
  cases e with
  | start trialId experimentId participants =>
    obtain ⟨n, hnext, hpids⟩ := h.pids
    have hfork := System.foldl_fork (ν := ν) trialId experimentId participants { s with
      manager := ⟨s.manager.participantSessions ++ newSessions participants trialId experimentId s.nextPid⟩ }
    have hids := newSessions_ids participants trialId experimentId s.nextPid
    have hnew := newSessions_pids trialId experimentId participants s.nextPid
    simp only [Manager.handle, List.foldl_cons, System.observe, hfork]
    generalize newSessions participants trialId experimentId s.nextPid = sessions at hids hnew ⊢
    obtain ⟨hforked, hkilled, hcleared, hasr⟩ := start_effects (ν := ν) trialId sessions
    refine ⟨?_, ?_, ?_, ⟨n + participants.length, ?_, ?_⟩, ?_, ?_, ?_⟩
    · rw [List.map_append, h.sessions, hids, opened_concat]
      rfl
    · rw [h.children]
    · rw [List.filterMap_append, hforked, List.map_append, h.forked, hids, List.flatMap_append]
      simp [TrialEvent.opens]
    · simp only
      omega
    · rw [List.filterMap_append, hforked, List.map_append, hpids, hnew, hnext, List.range'_append_1]
    · rw [List.filterMap_append, List.filterMap_append, hforked, hkilled, List.append_nil, List.map_append,
        List.map_append, ← h.killed, List.append_assoc]
    · rw [List.filterMap_append, hcleared, List.filterMap_append, h.cleared]
      rfl
    · rw [List.filterMap_append, hasr, List.filterMap_append, h.asr]
      rfl
  | stop =>
    obtain ⟨hforked, hkilled, hcleared, hasr⟩ := stop_effects (ν := ν) h.pid_ne_zero
    have hnone : s.children.filter (fun child =>
        child.pid ∉ s.manager.participantSessions.map OpensmileSession.pid) = [] := by
      simp only [h.children, List.filter_eq_nil_iff, decide_eq_true_eq, not_not]
      exact fun session hsession => List.mem_map_of_mem hsession
    simp only [Manager.handle, clearParticipants]
    rw [System.foldl_delete _ h.pid_ne_zero]
    refine ⟨?_, hnone, ?_, ?_, ?_, ?_, ?_⟩
    · rw [opened_concat]
      rfl
    · rw [List.filterMap_append, hforked, List.append_nil, h.forked, List.flatMap_append]
      simp [TrialEvent.opens]
    · rw [List.filterMap_append, hforked, List.append_nil]
      exact h.pids
    · simp only [hnone, List.filterMap_append, hforked, hkilled, List.append_nil, List.map_nil]
      rw [← h.children]
      exact h.killed
    · rw [List.filterMap_append, hcleared, List.filterMap_append, h.cleared]
      rfl
    · rw [List.filterMap_append, hasr, List.filterMap_append, h.asr]
      rfl
  | other => exact h.quiet rfl (fun _ => rfl) rfl rfl rfl rfl rfl
  | asr m => exact h.quiet rfl (fun _ => rfl) rfl rfl rfl rfl rfl

end Ran

/-! ## Any messages -/

namespace System

theorem listening_foldl : ∀ (effects : List (Effect ν)) (s : System), (effects.foldl observe s).listening = s.listening
  | [], _ => rfl
  | effect :: effects, s => by
    rw [List.foldl_cons, listening_foldl effects]
    cases effect <;> rfl

/-- An ended process does nothing more. -/
theorem run_ended {R : Json.Reader ν} {s : System} (h : s.listening = false) :
    ∀ messages : List (Str × Bytes), Mealy.run (step R) s messages = (s, [])
  | [] => rfl
  | message :: messages => by
    have hstep : s.step R message = (s, []) := by rw [step, if_neg (by simp [h])]
    rw [Mealy.run_cons, hstep, run_ended h messages]
    rfl

theorem run_ran {R : Json.Reader ν} : ∀ (messages : List (Str × Bytes)) {events : List (TrialEvent ν)} {s : System}
    {effects : List (Effect ν)}, s.listening = true → Ran events s effects →
      Ran (events ++ readable R messages) (Mealy.run (step R) s messages).1
          (effects ++ (Mealy.run (step R) s messages).2) ∧
        ((Mealy.run (step R) s messages).1.listening = true ↔ (readable R messages).length = messages.length)
  | [], events, s, effects, hs, h => by
    simp only [readable, Mealy.run_nil, List.append_nil]
    exact ⟨h, fun _ => rfl, fun _ => hs⟩
  | message :: messages, events, s, effects, hs, h => by
    have hmessage := onMessage_ofMessage R message s.nextPid s.manager
    rw [Mealy.run_cons, readable]
    cases he : TrialEvent.ofMessage R message with
    | error x =>
      have hstep : s.step R message = ({ s with listening := false }, []) := by
        rw [step, if_pos hs, hmessage, he]
        rfl
      rw [hstep, run_ended rfl, List.append_nil, List.append_nil]
      refine ⟨?_, fun hl => absurd hl Bool.false_ne_true, fun hl => absurd hl.symm (Nat.succ_ne_zero _)⟩
      rw [List.append_nil]
      exact ⟨h.sessions, h.children, h.forked, h.pids, h.killed, h.cleared, h.asr⟩
    | ok e =>
      have hstep : s.step R message = ((s.manager.handle s.nextPid e).2.foldl observe
          { s with manager := (s.manager.handle s.nextPid e).1 }, (s.manager.handle s.nextPid e).2) := by
        rw [step, if_pos hs, hmessage, he]
        rfl
      have hlistening : (s.step R message).1.listening = true := by
        rw [hstep, listening_foldl]
        exact hs
      have hran : Ran (events ++ [e]) (s.step R message).1 (effects ++ (s.step R message).2) := by
        rw [hstep]
        exact h.handle e
      obtain ⟨hrest, hiff⟩ := run_ran messages hlistening hran
      rw [List.append_assoc, List.append_assoc, List.singleton_append] at hrest
      exact ⟨hrest, hiff.trans Nat.succ_inj.symm⟩

end System

theorem length_readable_iff (R : Json.Reader ν) : ∀ messages : List (Str × Bytes),
    (readable R messages).length = messages.length ↔
      ∀ message ∈ messages, ∃ e, TrialEvent.ofMessage R message = .ok e
  | [] => by simp [readable]
  | message :: messages => by
    rw [readable, List.forall_mem_cons, ← length_readable_iff R messages]
    cases he : TrialEvent.ofMessage R message with
    | error x => simp
    | ok e => simp

/-- **The Manager on any messages.** It listens on while every payload can be
used, and ends at the first that cannot; by then it has done what the events
before say: the sessions and processes are those opened since the last stop, a
process was forked for each client of a start, numbered in order, each trial's
rows were cleared at its start, each ASR message processed, and the processes
sent a SIGTERM and the live ones are, in this order, all that were forked. -/
theorem run_any_messages (R : Json.Reader ν) (messages : List (Str × Bytes)) :
    Ran (readable R messages) (Mealy.run (System.step R) System.initial messages).1
        (Mealy.run (System.step R) System.initial messages).2 ∧
      ((Mealy.run (System.step R) System.initial messages).1.listening = true ↔
        ∀ message ∈ messages, ∃ e, TrialEvent.ofMessage R message = .ok e) := by
  obtain ⟨hran, hlistening⟩ := System.run_ran messages rfl Ran.initial
  exact ⟨hran, hlistening.trans (length_readable_iff R messages)⟩

end SpeechAnalyzer
