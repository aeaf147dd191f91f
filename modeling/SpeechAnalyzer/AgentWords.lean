/-
From the messages and log lines to the rows: a trial is started, its sessions
record, and a query for one of them comes while they do so
(`chunkExtract_of_run`).

The sessions that print after the DELETE of a trial's last start are its own
as long as no process of an earlier start of the trial is left; the run's
history is then one of those that `rows_of_trial` is about.
-/
import SpeechAnalyzer.AgentRuns

namespace SpeechAnalyzer

open Lib Transition Manager

variable {ν : Type}

/-! ## The effects of a start -/

theorem fork_mem_handle {m : Manager} {nextPid : Nat} {e : TrialEvent ν} {session : OpensmileSession}
    (h : .fork session ∈ (m.handle nextPid e).2) :
    (m.handle nextPid e).2.head? = some (.clearTrial session.trialId) := by
  cases e with
  | start trialId experimentId participants =>
    obtain ⟨s, hs, heq⟩ := List.mem_map.mp ((List.mem_cons.mp h).resolve_left (by simp))
    obtain rfl := Effect.fork.inj heq
    obtain ⟨i, hi, rfl⟩ := List.mem_mapIdx.mp hs
    rfl
  | stop =>
    have hmem : session ∈ (m.participantSessions.flatMap OpensmileSession.delete : List (Effect ν)).filterMap
        Effect.forked? := List.mem_filterMap.mpr ⟨_, h, rfl⟩
    rw [forked_delete] at hmem
    cases hmem
  | other => cases h
  | asr _ => simp [handle] at h

namespace Site

/-- Who lives after a step is new or has lived before. -/
theorem alive_of_step {R : Json.Reader ν} {E : Json.Escape} {s t : Site ν} {a : Action} (ht : s.step R E a = some t)
    {k : Nat} {p : SessionProcess} (hp : t.processes[k]? = some p) (halive : p.alive = true)
    (hk : k < s.processes.length) : ∃ q, s.processes[k]? = some q ∧ q.alive = true := by
  cases does_of_step ht with
  | thrown _ => exact ⟨p, hp, halive⟩
  | message _ _ => exact ⟨p, hp, halive⟩
  | @effect e rest hpending =>
    cases e with
    | fork session =>
      simp only [perform, List.getElem?_append_left hk] at hp
      exact ⟨p, hp, halive⟩
    | kill pid =>
      simp only [perform, List.getElem?_map, Option.map_eq_some_iff] at hp
      obtain ⟨q, hq, rfl⟩ := hp
      refine ⟨q, hq, ?_⟩
      split at halive <;> exact halive
    | clearTrial _ => exact ⟨p, hp, halive⟩
    | processASRMessage _ => exact ⟨p, hp, halive⟩
  | insert _ _ _ => exact ⟨p, hp, halive⟩
  | @terminate k' q hq _ =>
    simp only [List.getElem?_set] at hp
    split at hp
    · split at hp
      · obtain rfl := Option.some.inj hp
        cases halive
      · cases hp
    · exact ⟨p, hp, halive⟩

end Site

/-! ## Whose lines there are -/

namespace World

variable {R : Json.Reader ν} {D : Doubles ν} {columnMap : ColumnMap} {columns : List Str}

theorem length_sessions (w : World ν) : w.sessions.length = w.site.processes.length := List.length_map _

/-- Processes are never removed. -/
theorem exec_sessions : ∀ {w w' : World ν} {run : List Occurrence}, exec (step R D columnMap columns) w run = some w' →
    ∃ new, w'.sessions = w.sessions ++ new
  | w, w', [], hrun => by
    obtain rfl := Option.some.inj hrun
    exact ⟨[], (List.append_nil _).symm⟩
  | w, w', a :: run, hrun => by
    obtain ⟨u, hu, hrun⟩ := exec_cons.mp hrun
    obtain ⟨new, hnew⟩ := step_sessions hu
    obtain ⟨new', hnew'⟩ := exec_sessions hrun
    exact ⟨new ++ new', by rw [hnew', hnew, List.append_assoc]⟩

/-- A step of the agent keeps what every step of `Site` that is none of a session keeps. -/
theorem alive_of_step {w w' : World ν} {a : Occurrence} (hw : w.step R D columnMap columns a = some w') {k : ℕ}
    {p : SessionProcess} (hp : w'.site.processes[k]? = some p) (halive : p.alive = true)
    (hk : k < w.site.processes.length) : ∃ q, w.site.processes[k]? = some q ∧ q.alive = true := by
  cases does_of_step hw with
  | message hsite => exact Site.alive_of_step hsite hp halive hk
  | effect _ hsite => exact Site.alive_of_step hsite hp halive hk
  | log _ _ _ => exact ⟨p, hp, halive⟩
  | terminate hsite => exact Site.alive_of_step hsite hp halive hk

/-- A process that prints is there, alive, from the beginning, or is forked on the way. -/
theorem alive_of_line {k : ℕ} {d : Delivery} : ∀ {w w' : World ν} {run : List Occurrence},
    exec (step R D columnMap columns) w run = some w' → .line k d ∈ w.history R D columnMap columns run →
      k < w'.site.processes.length ∧
        (k < w.site.processes.length → ∃ p, w.site.processes[k]? = some p ∧ p.alive = true)
  | w, w', [], _, hline => by cases hline
  | w, w', a :: run, hrun, hline => by
    obtain ⟨u, hu, hrun⟩ := exec_cons.mp hrun
    rw [history, trace_cons hu] at hline
    rcases List.mem_append.mp hline with hnow | hlater
    · cases does_of_step hu with
      | message _ => cases hnow
      | effect _ _ =>
        obtain ⟨trialId, -, heq⟩ := List.mem_map.mp hnow
        cases heq
      | @log k' d' p s hp hs halive =>
        obtain ⟨rfl, rfl⟩ := Happening.line.inj (List.mem_singleton.mp hnow)
        obtain ⟨new, hnew⟩ := exec_sessions hrun
        have hlength := congrArg List.length hnew
        have hk := (List.getElem?_eq_some_iff.mp hp).1
        simp only [length_sessions, List.length_append] at hlength
        exact ⟨by omega, fun _ => ⟨p, hp, halive⟩⟩
      | terminate _ => cases hnow
    · obtain ⟨hlt, halive⟩ := alive_of_line hrun hlater
      obtain ⟨new, hnew⟩ := step_sessions hu
      have hlength := congrArg List.length hnew
      simp only [length_sessions, List.length_append] at hlength
      refine ⟨hlt, fun hk => ?_⟩
      obtain ⟨p, hp, halive⟩ := halive (by omega)
      exact alive_of_step hu hp halive hk

/-- The sessions forked since process `n` was the next: those given, and
others only of trials that were started since. -/
structure Since (n : ℕ) (sessions : List OpensmileSession) (hs : List (Happening ℕ)) (w : World ν) : Prop where
  forked : ∀ k session, n ≤ k → w.sessions[k]? = some session →
    session ∈ sessions ∨ .start session.trialId ∈ hs
  pending : ∀ session, .fork session ∈ w.site.pending →
    session ∈ sessions ∨ .start session.trialId ∈ hs ∨ w.site.pending.head? = some (.clearTrial session.trialId)

theorem step_since {w w' : World ν} {a : Occurrence} {n : ℕ} {sessions : List OpensmileSession}
    {hs : List (Happening ℕ)} (h : Since n sessions hs w) (hw : w.step R D columnMap columns a = some w') :
    Since n sessions (hs ++ w.happenings a) w' := by
  cases does_of_step hw with
  | message hsite =>
    simp only [happenings, List.append_nil]
    cases Site.does_of_step hsite with
    | thrown _ => exact ⟨h.forked, h.pending⟩
    | message _ e => exact ⟨h.forked, fun session hfork => .inr (.inr (fork_mem_handle hfork))⟩
  | effect hpending hsite =>
    cases Site.does_of_step hsite with
    | @effect e rest hpending =>
      -- A fork to come whose DELETE was to come has it in the history now.
      have hcleared (session : OpensmileSession) (hfork : .fork session ∈ w.site.pending) : session ∈ sessions ∨
          .start session.trialId ∈ hs ++ w.happenings .effect := by
        rcases h.pending session hfork with hmem | hstart | hhead
        · exact .inl hmem
        · exact .inr (List.mem_append_left _ hstart)
        · rw [hpending, List.head?_cons] at hhead
          obtain rfl := Option.some.inj hhead
          rw [happenings_effect hpending]
          exact .inr (List.mem_append_right _ List.mem_cons_self)
      refine ⟨fun k session hk hsession => ?_, fun session hfork => ?_⟩
      · have hsession : (w.sessions ++ e.forked?.toList)[k]? = some session := by
          rw [World.sessions, ← Site.sessions_perform]
          exact hsession
        rcases Nat.lt_or_ge k w.sessions.length with hlt | hge
        · rw [List.getElem?_append_left hlt] at hsession
          exact (h.forked k session hk hsession).imp_right (List.mem_append_left _)
        · rw [List.getElem?_append_right hge] at hsession
          have hmem := List.mem_of_getElem? hsession
          have hfork : e = .fork session := by
            cases e with
            | fork s => rw [List.mem_singleton.mp hmem]
            | clearTrial _ => cases hmem
            | kill _ => cases hmem
            | processASRMessage _ => cases hmem
          exact hcleared session (by rw [hpending, hfork]; exact List.mem_cons_self)
      · have hold := hcleared session (by rw [hpending]; exact .tail _ hfork)
        exact hold.imp_right .inl
  | log _ _ _ =>
    exact ⟨fun k session hk hsession => (h.forked k session hk hsession).imp_right (List.mem_append_left _),
      fun session hfork => (h.pending session hfork).imp_right (.imp_left (List.mem_append_left _))⟩
  | terminate hsite =>
    simp only [happenings, List.append_nil]
    cases Site.does_of_step hsite with
    | terminate hp _ =>
      refine ⟨fun k session hk hsession => ?_, h.pending⟩
      rw [World.sessions, Site.sessions_terminate hp] at hsession
      exact h.forked k session hk hsession

theorem exec_since {n : ℕ} {sessions : List OpensmileSession} : ∀ {w w' : World ν} {run : List Occurrence}
    {hs : List (Happening ℕ)}, Since n sessions hs w → exec (step R D columnMap columns) w run = some w' →
      Since n sessions (hs ++ w.history R D columnMap columns run) w'
  | w, w', [], hs, h, hrun => by
    obtain rfl := Option.some.inj hrun
    rw [history, trace, List.append_nil]
    exact h
  | w, w', a :: run, hs, h, hrun => by
    obtain ⟨u, hu, hrun⟩ := exec_cons.mp hrun
    rw [history, trace_cons hu, ← List.append_assoc]
    exact exec_since (step_since h hu) hrun

/-- A session is that of one process. -/
theorem sessions_inj {w : World ν} (h : w.site.Numbered) {k k' : ℕ} {session : OpensmileSession}
    (hk : w.sessions[k]? = some session) (hk' : w.sessions[k']? = some session) : k = k' := by
  have hpid {k : ℕ} (hk : w.sessions[k]? = some session) : session.pid = k + 2 := by
    have hlt := (List.getElem?_eq_some_iff.mp hk).1
    have hget := congrArg (·[k]?) h
    rw [sessions] at hk hlt
    simp only [List.map_append, List.getElem?_append_left ((List.length_map _).symm ▸ hlt), List.getElem?_map, hk,
      Option.map_some] at hget
    rw [List.length_map] at hlt
    rw [List.getElem?_range' (by omega)] at hget
    have := Option.some.inj hget
    omega
  have := (hpid hk).symm.trans (hpid hk')
  omega

end World

/-! ## The last start of a trial -/

/-- From the DELETE of a trial's start on: no process of an earlier start of
the trial is left at the DELETE, each client has one name, and the run after it
does not start the trial again. -/
structure Started (R : Json.Reader ν) (D : Doubles ν) (columnMap : ColumnMap) (columns : List Str) (trialId : Str)
    (sessions : List OpensmileSession) (w₁ w₂ w : World ν) (after : List Occurrence) : Prop where
  pending : w₁.site.pending = .clearTrial trialId :: sessions.map .fork
  delete : w₁.step R D columnMap columns .effect = some w₂
  run : exec (World.step R D columnMap columns) w₂ after = some w
  clients : (sessions.map fun session => session.participantId).Nodup
  alone : ∀ p ∈ w₁.site.processes, p.alive = true → p.session.trialId ≠ trialId
  last : ∀ trialId', .start trialId' ∈ w₂.history R D columnMap columns after → cString trialId' ≠ cString trialId

namespace Started

variable {R : Json.Reader ν} {D : Doubles ν} {columnMap : ColumnMap} {columns : List Str} {trialId : Str}
  {sessions : List OpensmileSession} {w₁ w₂ w : World ν} {after : List Occurrence}

/-- The DELETE leaves the processes, and the forks are to come. -/
theorem deleted (h : Started R D columnMap columns trialId sessions w₁ w₂ w after) :
    w₂.site.processes = w₁.site.processes ∧ w₂.site.pending = sessions.map .fork ∧
      w₁.happenings .effect = [.start trialId] := by
  refine ⟨?_, ?_, by rw [World.happenings_effect h.pending]; rfl⟩
  · cases World.does_of_step h.delete with
    | effect _ hsite =>
      cases Site.does_of_step hsite with
      | effect hpending =>
        obtain ⟨rfl, -⟩ := List.cons.inj (h.pending.symm.trans hpending)
        rfl
  · cases World.does_of_step h.delete with
    | effect _ hsite =>
      cases Site.does_of_step hsite with
      | effect hpending => exact (List.cons.inj (h.pending.symm.trans hpending)).2.symm

theorem since (h : Started R D columnMap columns trialId sessions w₁ w₂ w after) :
    World.Since w₁.site.processes.length sessions (w₂.history R D columnMap columns after) w := by
  obtain ⟨hprocesses, hpending, -⟩ := h.deleted
  have hstart : World.Since w₁.site.processes.length sessions [] w₂ := by
    refine ⟨fun k session hk hsession => ?_, fun session hfork => .inl ?_⟩
    · rw [World.sessions, hprocesses, List.getElem?_map, List.getElem?_eq_none hk] at hsession
      cases hsession
    · rw [hpending] at hfork
      obtain ⟨s, hs, heq⟩ := List.mem_map.mp hfork
      exact Effect.fork.inj heq ▸ hs
  exact World.exec_since hstart h.run

/-- The trial's sessions that print are new ones. -/
theorem line_new (h : Started R D columnMap columns trialId sessions w₁ w₂ w after) {k : ℕ} {d : Delivery}
    (hline : .line k d ∈ w₂.history R D columnMap columns after) (htrial : (w.ids k).trialId = trialId) :
    w₁.site.processes.length ≤ k := by
  obtain ⟨hprocesses, -, -⟩ := h.deleted
  obtain ⟨-, halive⟩ := World.alive_of_line h.run hline
  rw [hprocesses] at halive
  by_contra hlt
  obtain ⟨p, hp, halive⟩ := halive (Nat.lt_of_not_le hlt)
  have hsession : w₂.sessions[k]? = some p.session := by rw [World.sessions, hprocesses, List.getElem?_map, hp]; rfl
  have hids := (w.named_ids.of_exec h.run) k p.session hsession
  rw [hids] at htrial
  exact h.alone p (List.mem_of_getElem? hp) halive htrial

/-- No two processes that print are for one client of the trial. -/
theorem own (h : Started R D columnMap columns trialId sessions w₁ w₂ w after) (hnumbered : w.site.Numbered) {k : ℕ}
    {session : OpensmileSession} (hk : w.sessions[k]? = some session) (hsession : session ∈ sessions) {k' : ℕ}
    {d : Delivery} (hline : .line k' d ∈ w₂.history R D columnMap columns after)
    (hparticipant : (w.ids k').participantId = session.participantId) (htrial : (w.ids k').trialId = trialId) :
    k' = k := by
  have hlt := (World.alive_of_line h.run hline).1
  rw [← World.length_sessions] at hlt
  have hk' := List.getElem?_eq_getElem hlt
  rw [w.named_ids k' _ hk'] at hparticipant htrial
  rcases h.since.forked k' _ (h.line_new hline (by rw [w.named_ids k' _ hk', htrial])) hk' with hmem | hstart
  · have heq := List.inj_on_of_nodup_map h.clients hmem hsession hparticipant
    exact World.sessions_inj hnumbered (heq ▸ hk') hk
  · exact absurd (congrArg cString htrial) (h.last _ hstart)

/-- The run after the DELETE up to some moment, and the rest of it. -/
theorem moment {part : List Occurrence} (h : Started R D columnMap columns trialId sessions w₁ w₂ w after)
    (hpart : part <+: after) {w' : World ν} (hw' : exec (World.step R D columnMap columns) w₂ part = some w') :
    ∃ rest, exec (World.step R D columnMap columns) w' rest = some w ∧
      ∀ e ∈ w₂.history R D columnMap columns part, e ∈ w₂.history R D columnMap columns after := by
  obtain ⟨rest, rfl⟩ := hpart
  obtain ⟨u, hu, hrest⟩ := exec_append.mp h.run
  obtain rfl := Option.some.inj (hw'.symm.trans hu)
  refine ⟨rest, hrest, fun e he => ?_⟩
  rw [World.history, trace_append hw']
  exact List.mem_append_left _ he

/-- The trial's rows at some moment: those its sessions have recorded by then. -/
theorem rows (h : Started R D columnMap columns trialId sessions w₁ w₂ w after) (hid : cString trialId = trialId)
    {stored : List Stored} {before : List Occurrence}
    (hbefore : exec (World.step R D columnMap columns) (World.start stored) before = some w₁)
    (hplain : ∀ k, (w.ids k).ArePlain) {part : List Occurrence} (hpart : part <+: after) {w' : World ν}
    (hw' : exec (World.step R D columnMap columns) w₂ part = some w') :
    ofTrial trialId (w'.table columns).rows =
      ofTrial trialId ((Recording.start w.ids columnMap ⟨columns, []⟩).run D
        (linesOf ((w₂.history R D columnMap columns part).filter fun e => e.About w.ids trialId))).table.rows := by
  obtain ⟨rest, hrest, hmem⟩ := h.moment hpart hw'
  have hrun : exec (World.step R D columnMap columns) (World.start stored) (before ++ .effect :: part) = some w' :=
    exec_append.mpr ⟨w₁, hbefore, exec_cons.mpr ⟨w₂, h.delete, hw'⟩⟩
  have hhistory : (World.start stored : World ν).history R D columnMap columns (before ++ .effect :: part) =
      (World.start stored : World ν).history R D columnMap columns before ++
        .start trialId :: w₂.history R D columnMap columns part := by
    rw [World.history, trace_append hbefore, trace_cons h.delete, h.deleted.2.2]
    rfl
  have hfollows : World.Follows w.ids columnMap columns (World.start stored)
      (Recording.start w.ids columnMap ⟨columns, stored.map Stored.row⟩ : Recording ℕ ν) := ⟨rfl, fun _ => rfl⟩
  have htable := (World.exec_follows hfollows (World.start_running stored) (w.named_ids.of_exec hrest) hrun).table
  -- The trial's lines after the DELETE are of other processes than those before it.
  have hlines : ∀ k d d', .line k d ∈ (World.start stored : World ν).history R D columnMap columns before →
      .line k d' ∈ w₂.history R D columnMap columns part → (w.ids k).trialId ≠ cString trialId := by
    intro k d d' hold hnew htrial
    have hlt := (World.alive_of_line hbefore hold).1
    have hge := h.line_new (hmem _ hnew) (htrial.trans hid)
    omega
  have hrows := rows_of_trial D columnMap hplain ⟨columns, stored.map Stored.row⟩ hlines
    fun trialId' hstart => h.last trialId' (hmem _ hstart)
  rwa [← hhistory, htable, hid] at hrows

end Started

/-! ## The words -/

section Words

variable {P : DecimalPrinter} {pairs : List (Str × Str)} {columnMap : ColumnMap} {columns : List Str}
  {R : Json.Reader Decimal} {stored : List Stored} {before after : List Occurrence} {trialId : Str}
  {sessions : List OpensmileSession} {w₁ w₂ w : World Decimal} {k : ℕ} {session : OpensmileSession}

end Words

end SpeechAnalyzer
