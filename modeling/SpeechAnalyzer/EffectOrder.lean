/-
The Manager among its sessions, one effect at a time. Whatever the sessions
store and whenever they end in between, its effects are those of a Manager that
handles each message at once, in the same order, and so are its sessions and
the processes not sent a SIGTERM as soon as the effects of the message at hand
are performed (`run_performed`).
-/
import SpeechAnalyzer.MessageRuns
import SpeechAnalyzer.TrialRestart

namespace SpeechAnalyzer

open Lib Transition Manager

variable {ν : Type}

/-- The message the Manager takes in a step. -/
def Action.message? : Action → Option (Str × Bytes)
  | .message topic payload => some (topic, payload)
  | .effect | .insert .. | .terminate _ => none

namespace Site

/-- The effect performed in a step. -/
def performs (s : Site ν) : Action → List (Effect ν)
  | .effect => s.pending.take 1
  | .message .. | .insert .. | .terminate _ => []

/-- The sessions not sent a SIGTERM. -/
def unsignalled (s : Site ν) : List OpensmileSession :=
  (s.processes.filter fun p => !p.signalled).map SessionProcess.session

/-- The Manager and its processes but for the pending effects. -/
def now (s : Site ν) : System := ⟨s.manager, s.unsignalled, s.processes.length + 2, s.listening⟩

/-- The Manager and its processes once the pending effects are performed. -/
def performed (s : Site ν) : System := s.pending.foldl System.observe s.now

/-- The forks to come. -/
def forks (s : Site ν) : List OpensmileSession := s.pending.filterMap Effect.forked?

/-- Processes have the numbers from 2 on in the order of their forks, done and to come. -/
def Numbered (s : Site ν) : Prop :=
  (s.processes.map SessionProcess.session ++ s.forks).map OpensmileSession.pid =
    List.range' 2 (s.processes.length + s.forks.length)

end Site

/-! ## Numbers -/

theorem forked_delete : ∀ sessions : List OpensmileSession,
    (sessions.flatMap OpensmileSession.delete : List (Effect ν)).filterMap Effect.forked? = []
  | [] => rfl
  | session :: sessions => by
    rw [List.flatMap_cons, List.filterMap_append, forked_delete sessions, OpensmileSession.delete]
    split <;> rfl

/-- The forks of a message are numbered from the next number on. -/
theorem forked_handle (m : Manager) (nextPid : Nat) (e : TrialEvent ν) :
    ((m.handle nextPid e).2.filterMap Effect.forked?).map OpensmileSession.pid =
      List.range' nextPid ((m.handle nextPid e).2.filterMap Effect.forked?).length := by
  cases e with
  | start trialId experimentId participants =>
    have hforked := (start_effects (ν := ν) trialId (newSessions participants trialId experimentId nextPid)).1
    have hlength : (newSessions participants trialId experimentId nextPid).length = participants.length :=
      List.length_mapIdx
    rw [handle, hforked, hlength]
    exact newSessions_pids trialId experimentId participants nextPid
  | stop =>
    rw [handle, clearParticipants, forked_delete]
    rfl
  | other => rfl
  | asr _ => rfl

namespace Site

/-- An effect leaves the sessions there are, and a fork adds its own. -/
theorem sessions_perform (s : Site ν) (e : Effect ν) : (s.perform e).processes.map SessionProcess.session =
    s.processes.map SessionProcess.session ++ e.forked?.toList := by
  cases e with
  | fork session => simp [perform, Effect.forked?]
  | kill pid =>
    rw [perform, List.map_map, Effect.forked?, Option.toList_none, List.append_nil]
    refine List.map_congr_left fun p _ => ?_
    simp only [Function.comp_apply]
    split <;> rfl
  | clearTrial _ => simp [perform, Effect.forked?]
  | processASRMessage _ => simp [perform, Effect.forked?]

theorem sessions_terminate {s : Site ν} {k : Nat} {p : SessionProcess} (hp : s.processes[k]? = some p) :
    (s.processes.set k { p with alive := false }).map SessionProcess.session =
      s.processes.map SessionProcess.session := by
  obtain ⟨hk, rfl⟩ := List.getElem?_eq_some_iff.mp hp
  rw [List.map_set]
  refine List.ext_getElem? fun n => ?_
  rw [List.getElem?_set]
  split
  · next heq =>
    subst heq
    simp [hk]
  · rfl

theorem forks_cons (e : Effect ν) (rest : List (Effect ν)) :
    (e :: rest).filterMap Effect.forked? = e.forked?.toList ++ rest.filterMap Effect.forked? := by
  cases e <;> rfl

theorem step_numbered {R : Json.Reader ν} {E : Json.Escape} {s t : Site ν} {a : Action} (h : s.Numbered)
    (ht : s.step R E a = some t) : t.Numbered := by
  cases does_of_step ht with
  | thrown _ => exact h
  | message hpending e =>
    have hforks : s.forks = [] := by rw [forks, hpending]; rfl
    rw [Numbered, hforks, List.append_nil, List.length_nil, Nat.add_zero] at h
    rw [Numbered, List.map_append, h, forks, forked_handle, Nat.add_comm s.processes.length 2, List.range'_append_1]
  | @effect e rest hpending =>
    have hforks : s.forks = e.forked?.toList ++ rest.filterMap Effect.forked? := by rw [forks, hpending, forks_cons]
    have hsessions := sessions_perform s e
    have hlength := congrArg List.length hsessions
    rw [List.length_map, List.length_append, List.length_map] at hlength
    rw [Numbered, hforks, List.length_append, ← Nat.add_assoc, ← List.append_assoc, ← hsessions, ← hlength] at h
    exact h
  | insert _ _ _ => exact h
  | terminate hp _ =>
    rw [Numbered, sessions_terminate hp, List.length_set]
    exact h

theorem initial_numbered : (initial : Site ν).Numbered := rfl

/-! ## One step -/

theorem now_perform {s : Site ν} {e : Effect ν} {rest : List (Effect ν)} (h : s.Numbered)
    (hpending : s.pending = e :: rest) : (s.perform e).now = s.now.observe e := by
  cases e with
  | fork session =>
    have hpid : session.pid = s.processes.length + 2 := by
      rw [Numbered, forks, hpending, forks_cons] at h
      have hget := congrArg (·[s.processes.length]?) h
      simp [Effect.forked?] at hget
      omega
    simp [now, perform, System.observe, unsignalled, hpid, Nat.add_right_comm]
  | kill pid =>
    have hnow (processes : List SessionProcess) :
        ((processes.map fun p => if p.session.pid = pid then { p with signalled := true } else p).filter
          fun p => !p.signalled).map SessionProcess.session =
        ((processes.filter fun p => !p.signalled).map SessionProcess.session).filter fun child => child.pid ≠ pid := by
      induction processes with
      | nil => rfl
      | cons p processes ih =>
        by_cases hp : p.session.pid = pid
        · rw [List.map_cons, if_pos hp, List.filter_cons_of_neg (by simp), ih]
          cases hs : p.signalled <;> simp [hs, hp]
        · rw [List.map_cons, if_neg hp]
          cases hs : p.signalled <;> simp [hs, hp, ih]
    simp only [now, perform, System.observe, unsignalled, List.length_map, hnow]
  | clearTrial _ => rfl
  | processASRMessage _ => rfl

/-- Who ends was sent a SIGTERM before. -/
theorem unsignalled_terminate : ∀ {processes : List SessionProcess} {k : Nat} {p : SessionProcess},
    processes[k]? = some p → p.signalled = true →
      (processes.set k { p with alive := false }).filter (fun p => !p.signalled) =
        processes.filter fun p => !p.signalled
  | [], _, _, hp, _ => by cases hp
  | q :: processes, 0, p, hp, hsignalled => by
    obtain rfl := Option.some.inj hp
    rw [List.set_cons_zero, List.filter_cons_of_neg (by simp [hsignalled]),
      List.filter_cons_of_neg (by simp [hsignalled])]
  | q :: processes, k + 1, p, hp, hsignalled => by
    have htail : processes[k]? = some p := hp
    rw [List.set_cons_succ, List.filter_cons, List.filter_cons, unsignalled_terminate htail hsignalled]

/-- A message is handled as if at once, and nothing else matters. -/
theorem step_performed {R : Json.Reader ν} {E : Json.Escape} {s t : Site ν} {a : Action} (h : s.Numbered)
    (ht : s.step R E a = some t) : t.performed = (Mealy.run (System.step R) s.performed a.message?.toList).1 ∧
      s.performs a ++ t.pending = s.pending ++ (Mealy.run (System.step R) s.performed a.message?.toList).2 := by
  cases a with
  | message topic payload =>
    simp only [step] at ht
    split at ht
    · next hlistening hpending =>
      have hperformed : s.performed = s.now := by rw [performed, hpending, List.foldl_nil]
      have hlist : s.now.listening = true := hlistening
      simp only [Action.message?, Option.toList_some, Mealy.run_cons, Mealy.run_nil, List.append_nil, hperformed,
        System.step, if_pos hlist, performs, List.nil_append, hpending]
      split at ht
      · next hthrown =>
        obtain rfl := Option.some.inj ht
        have hnow : onMessage R topic payload s.now.nextPid s.now.manager = .error _ := hthrown
        simp only [hnow, performed, hpending]
        exact ⟨rfl, trivial⟩
      · next hm =>
        obtain rfl := Option.some.inj ht
        have hnow : onMessage R topic payload s.now.nextPid s.now.manager = .ok (_, _) := hm
        simp only [hnow]
        exact ⟨rfl, trivial⟩
    · cases ht
  | effect =>
    cases does_of_step ht with
    | effect hpending =>
      have hnow := now_perform h hpending
      simp only [Action.message?, Option.toList_none, Mealy.run_nil, performs, performed, hpending, List.foldl_cons,
        ← hnow]
      exact ⟨rfl, by simp⟩
  | insert k row =>
    cases does_of_step ht with
    | insert _ _ _ => exact ⟨rfl, by simp [performs, Action.message?]⟩
  | terminate k =>
    cases does_of_step ht with
    | terminate hp hsignalled =>
      refine ⟨?_, by simp [performs, Action.message?]⟩
      simp only [performed, now, unsignalled, List.length_set, unsignalled_terminate hp hsignalled]
      rfl

theorem exec_performed {R : Json.Reader ν} {E : Json.Escape} : ∀ {s t : Site ν} {run : List Action}, s.Numbered →
    exec (step R E) s run = some t →
      t.performed = (Mealy.run (System.step R) s.performed (run.filterMap Action.message?)).1 ∧
        trace (step R E) performs s run ++ t.pending =
          s.pending ++ (Mealy.run (System.step R) s.performed (run.filterMap Action.message?)).2
  | s, t, [], _, hrun => by
    obtain rfl := Option.some.inj hrun
    exact ⟨rfl, by simp [trace]⟩
  | s, t, a :: run, h, hrun => by
    obtain ⟨u, hu, hrun⟩ := exec_cons.mp hrun
    obtain ⟨hstate, heffects⟩ := step_performed h hu
    obtain ⟨ihstate, iheffects⟩ := exec_performed (step_numbered h hu) hrun
    have hmessages : (a :: run).filterMap Action.message? = a.message?.toList ++ run.filterMap Action.message? := by
      cases a <;> rfl
    rw [hmessages, Mealy.run_append, trace_cons hu, List.append_assoc, iheffects, ← hstate, ← List.append_assoc,
      heffects, List.append_assoc]
    exact ⟨ihstate, rfl⟩

end Site

/-- **The Manager handles its messages as if at once.** In every run, whatever
the sessions store and whenever they end between two effects, the effects
performed and pending are those of the messages taken, in order, each once, and
the Manager's sessions and the processes not sent a SIGTERM are, once the
pending effects are performed, those it would have by handling each message at
once. -/
theorem run_performed {R : Json.Reader ν} {E : Json.Escape} {run : List Action} {s : Site ν}
    (hrun : exec (Site.step R E) Site.initial run = some s) :
    Mealy.run (System.step R) System.initial (run.filterMap Action.message?) =
      (s.performed, trace (Site.step R E) Site.performs Site.initial run ++ s.pending) := by
  obtain ⟨hstate, heffects⟩ := Site.exec_performed Site.initial_numbered hrun
  rw [hstate, heffects]
  rfl

theorem run_performed_restart : (exec (Site.step trialReader .json) Site.initial restart).isSome = true ∧
    ∀ s ∈ exec (Site.step trialReader .json) Site.initial restart,
      Mealy.run (System.step trialReader) System.initial (restart.filterMap Action.message?) =
        (s.performed, trace (Site.step trialReader .json) Site.performs Site.initial restart ++ s.pending) :=
  ⟨by decide +kernel, fun _ hs => run_performed hs⟩

end SpeechAnalyzer
