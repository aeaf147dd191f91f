/-
The agent at work: the Manager performs the effects of its messages one after
another, the session processes handle openSMILE's log messages, and signalled
ones end, in any order. A forked process has a new processor, stays in its
session (`smile_run` does not return), and INSERTs what a log message publishes
when it handles it.

But for the processors the agent runs as `Site` does (`run_site`), and its
table is the one of the history of its log messages and DELETEs
(`run_history`).
-/
import SpeechAnalyzer.EffectOrder
import SpeechAnalyzer.TrialHistory

namespace SpeechAnalyzer

open Lib Transition Manager

variable {ν : Type}

/-- The Manager, the processes and the table, and the processor of each process. -/
structure World (ν : Type) where
  site : Site ν
  processors : List (Processor ν)

/-- The Manager takes a message, or performs its next effect; process `k`
handles a log message; a SIGTERM takes effect on it. -/
inductive Occurrence
  | message (topic : Str) (payload : Bytes)
  | effect
  | log (k : ℕ) (d : Delivery)
  | terminate (k : ℕ)

/-- The processor of a forked process. -/
def Manager.Effect.processors (columnMap : ColumnMap) : Effect ν → List (Processor ν)
  | .fork session => [session.toIds.processor columnMap]
  | .clearTrial _ | .kill _ | .processASRMessage _ => []

namespace World

/-- Before any message, on a table that has rows already. -/
def start (rows : List Stored) : World ν := ⟨{ Site.initial with rows := rows }, []⟩

def step (R : Json.Reader ν) (D : Doubles ν) (columnMap : ColumnMap) (columns : List Str) (w : World ν) :
    Occurrence → Option (World ν)
  | .message topic payload =>
    (w.site.step R D.toEscape (.message topic payload)).map fun site => { w with site := site }
  | .effect =>
    (w.site.step R D.toEscape .effect).map fun site =>
      ⟨site, w.processors ++ (w.site.pending.take 1).flatMap (Effect.processors columnMap)⟩
  | .log k d =>
    match w.site.processes[k]?, w.processors[k]? with
    | some p, some s =>
      if p.alive then
        let (s, rows) := sessionStep D columns s d
        some ⟨{ w.site with rows := w.site.rows ++ rows.map fun row => ⟨row, p.start⟩ }, w.processors.set k s⟩
      else none
    | _, _ => none
  | .terminate k => (w.site.step R D.toEscape (.terminate k)).map fun site => { w with site := site }

/-- The table of the features. -/
def table (columns : List Str) (w : World ν) : Table := ⟨columns, w.site.rows.map Stored.row⟩

/-- The sessions of the processes, ended ones among them. -/
def sessions (w : World ν) : List OpensmileSession := w.site.processes.map SessionProcess.session

/-- The ids of process `k`. -/
def ids (w : World ν) (k : ℕ) : Ids := (w.sessions[k]?.map OpensmileSession.toIds).getD ⟨[], [], []⟩

/-- The steps as those of `Site`. -/
def actions (D : Doubles ν) (columns : List Str) (w : World ν) : Occurrence → List Action
  | .message topic payload => [.message topic payload]
  | .effect => [.effect]
  | .log k d => w.processors[k]?.elim [] fun s => (sessionStep D columns s d).2.map (.insert k)
  | .terminate k => [.terminate k]

/-- The steps as those of a history. -/
def happenings (w : World ν) : Occurrence → List (Happening ℕ)
  | .effect => ((w.site.pending.take 1).filterMap Effect.clearedTrial?).map .start
  | .log k d => [.line k d]
  | .message .. | .terminate _ => []

def history (R : Json.Reader ν) (D : Doubles ν) (columnMap : ColumnMap) (columns : List Str) (w : World ν)
    (run : List Occurrence) : List (Happening ℕ) :=
  trace (step R D columnMap columns) happenings w run

end World

/-! ## What each step does -/

namespace World

variable {R : Json.Reader ν} {D : Doubles ν} {columnMap : ColumnMap} {columns : List Str}

/-- The steps there are, each with what it takes and what it leaves. -/
inductive Does (R : Json.Reader ν) (D : Doubles ν) (columnMap : ColumnMap) (columns : List Str) (w : World ν) :
    Occurrence → World ν → Prop
  | message {topic : Str} {payload : Bytes} {site : Site ν}
    (hsite : w.site.step R D.toEscape (.message topic payload) = some site) :
    Does R D columnMap columns w (.message topic payload) ⟨site, w.processors⟩
  | effect {site : Site ν} {e : Effect ν} {rest : List (Effect ν)} (hpending : w.site.pending = e :: rest)
    (hsite : w.site.step R D.toEscape .effect = some site) :
    Does R D columnMap columns w .effect ⟨site, w.processors ++ e.processors columnMap⟩
  | log {k : ℕ} {d : Delivery} {p : SessionProcess} {s : Processor ν} (hp : w.site.processes[k]? = some p)
    (hs : w.processors[k]? = some s) (halive : p.alive = true) :
    Does R D columnMap columns w (.log k d)
      ⟨{ w.site with rows := w.site.rows ++ (sessionStep D columns s d).2.map fun row => ⟨row, p.start⟩ },
        w.processors.set k (sessionStep D columns s d).1⟩
  | terminate {k : ℕ} {site : Site ν} (hsite : w.site.step R D.toEscape (.terminate k) = some site) :
    Does R D columnMap columns w (.terminate k) ⟨site, w.processors⟩

theorem does_of_step {w w' : World ν} {a : Occurrence} (h : w.step R D columnMap columns a = some w') :
    Does R D columnMap columns w a w' := by
  cases a with
  | message topic payload =>
    obtain ⟨site, hsite, rfl⟩ := Option.map_eq_some_iff.mp h
    exact .message hsite
  | effect =>
    obtain ⟨site, hsite, rfl⟩ := Option.map_eq_some_iff.mp h
    cases hpending : w.site.pending with
    | nil => simp [Site.step, hpending] at hsite
    | cons e rest =>
      simp only [List.take_succ_cons, List.take_zero, List.flatMap_singleton]
      exact .effect hpending hsite
  | log k d =>
    simp only [step] at h
    split at h
    · next p s hp hs =>
      split at h
      · next halive =>
        obtain rfl := Option.some.inj h
        exact .log hp hs halive
      · cases h
    · cases h
  | terminate k =>
    obtain ⟨site, hsite, rfl⟩ := Option.map_eq_some_iff.mp h
    exact .terminate hsite

end World

/-! ## The rows of a session -/

section Rows

variable {D : Doubles ν} {columnMap : ColumnMap} {columns : List Str} {session : OpensmileSession}

/-- A view's row is one that the session writes, when it has the session's ids or none. -/
theorem writes_of_stored {v : View ν} (hids : v.ids = none ∨ v.ids = some session.toIds) {utcTimestamp : Str}
    {row : Row} (h : (v.insert D columnMap).storedRow columns utcTimestamp = some row) :
    session.Writes D.toEscape row := by
  obtain ⟨-, htrial, -⟩ := ids_of_stored h
  simp only [View.insert, View.idJson] at htrial
  rcases hids with hids | hids
  · rw [hids] at htrial
    exact .inl (Option.some.inj htrial).symm
  · rw [hids] at htrial
    exact .inr htrial

theorem Logged.writes {s : Processor ν} (h : Logged D columnMap columns session.toIds s) (d : Delivery) :
    ∀ row ∈ (sessionStep D columns s d).2, session.Writes D.toEscape row := by
  intro row hrow
  obtain ⟨ds, rfl⟩ := h
  obtain ⟨rows, hrows, hviews⟩ := rows_of_session (D := D) columns (ds ++ [d]) (Sim.init columnMap session.toIds)
  obtain ⟨first, rest, heq, -, hfirst, hrest⟩ :=
    views_first D.atof session.toIds (a := {}) ((ds ++ [d]).map fun d => despace d.message.text) rfl
  have hmem : row ∈ rows.reduceOption := by
    rw [← hrows, Mealy.run_append]
    exact List.mem_append.mpr (.inr (List.mem_append.mpr (.inl hrow)))
  obtain ⟨v, hv, utcTimestamp, hstored⟩ := exists_view hviews row hmem
  refine writes_of_stored ?_ hstored
  rw [heq] at hv
  rcases List.mem_append.mp hv with hv | hv
  · exact .inl (hfirst v hv)
  · exact .inr (hrest v hv)

end Rows

/-! ## The agent's run is one of `Site` -/

section Lists

variable {α β : Type} {r : α → β → Prop}

theorem forall₂_getElem? : ∀ {l : List α} {l' : List β} {k : ℕ} {a : α} {b : β}, List.Forall₂ r l l' →
    l[k]? = some a → l'[k]? = some b → r a b
  | _, _, 0, _, _, .cons h _, ha, hb => by
    obtain rfl := Option.some.inj ha
    obtain rfl := Option.some.inj hb
    exact h
  | _, _, k + 1, _, _, .cons _ h, ha, hb => forall₂_getElem? (k := k) h ha hb

theorem forall₂_set : ∀ {l : List α} {l' : List β} {k : ℕ} {a : α} {b : β}, List.Forall₂ r l l' →
    l[k]? = some a → r a b → List.Forall₂ r l (l'.set k b)
  | _, _, 0, _, _, .cons _ h, ha, hb => by
    obtain rfl := Option.some.inj ha
    exact .cons hb h
  | _, _, k + 1, _, _, .cons h₁ h, ha, hb => .cons h₁ (forall₂_set (k := k) h ha hb)

end Lists

namespace World

variable {R : Json.Reader ν} {D : Doubles ν} {columnMap : ColumnMap} {columns : List Str}

/-- Each process has the processor of its session, after some log. -/
def Running (D : Doubles ν) (columnMap : ColumnMap) (columns : List Str) (w : World ν) : Prop :=
  List.Forall₂ (fun session => Logged D columnMap columns session.toIds) w.sessions w.processors

theorem start_running (rows : List Stored) : (start rows : World ν).Running D columnMap columns := .nil

theorem step_running {w w' : World ν} {a : Occurrence} (h : w.Running D columnMap columns)
    (hw : w.step R D columnMap columns a = some w') : w'.Running D columnMap columns := by
  cases does_of_step hw with
  | message hsite =>
    cases Site.does_of_step hsite with
    | thrown _ => exact h
    | message _ _ => exact h
  | @effect site e rest hpending hsite =>
    cases Site.does_of_step hsite with
    | @effect e' rest' hpending' =>
      obtain ⟨rfl, rfl⟩ := List.cons.inj (hpending.symm.trans hpending')
      rw [Running, sessions, Site.sessions_perform]
      refine List.rel_append h ?_
      cases e with
      | fork session => exact .cons ⟨[], rfl⟩ .nil
      | clearTrial _ => exact .nil
      | kill _ => exact .nil
      | processASRMessage _ => exact .nil
  | @log k d p s hp hs _ =>
    have hsession : w.sessions[k]? = some p.session := by simp [sessions, hp]
    exact forall₂_set h hsession ((forall₂_getElem? h hsession hs).step d)
  | terminate hsite =>
    cases Site.does_of_step hsite with
    | terminate hp _ =>
      rw [Running, sessions, Site.sessions_terminate hp]
      exact h

theorem exec_inserts {E : Json.Escape} {k : ℕ} {p : SessionProcess} (halive : p.alive = true) :
    ∀ {rows : List Row} {s : Site ν}, s.processes[k]? = some p → (∀ row ∈ rows, p.session.Writes E row) →
      exec (Site.step R E) s (rows.map (.insert k)) =
        some { s with rows := s.rows ++ rows.map fun row => ⟨row, p.start⟩ }
  | [], s, _, _ => by simp [exec]
  | row :: rows, s, hp, hwrites => by
    obtain ⟨hrow, hrows⟩ := List.forall_mem_cons.mp hwrites
    have hstep : s.step R E (.insert k row) = some { s with rows := s.rows ++ [⟨row, p.start⟩] } := by
      simp only [Site.step, hp, if_pos (And.intro halive hrow)]
    have ih := exec_inserts halive (s := { s with rows := s.rows ++ [⟨row, p.start⟩] }) hp hrows
    rw [List.map_cons, exec, hstep, Option.bind_some, ih, List.map_cons, List.append_assoc, List.singleton_append]

/-- A step is one of `Site`, or the INSERTs of a log message. -/
theorem step_site {w w' : World ν} {a : Occurrence} (h : w.Running D columnMap columns)
    (hw : w.step R D columnMap columns a = some w') :
    exec (Site.step R D.toEscape) w.site (w.actions D columns a) = some w'.site := by
  cases does_of_step hw with
  | message hsite => exact exec_cons.mpr ⟨_, hsite, rfl⟩
  | effect _ hsite => exact exec_cons.mpr ⟨_, hsite, rfl⟩
  | @log k d p s hp hs halive =>
    have hsession : w.sessions[k]? = some p.session := by simp [sessions, hp]
    simp only [actions, hs, Option.elim_some]
    exact exec_inserts halive hp ((forall₂_getElem? h hsession hs).writes d)
  | terminate hsite => exact exec_cons.mpr ⟨_, hsite, rfl⟩

end World

/-- **The agent's runs are runs of `Site`**, where a session stores any row
that has its trial's id or none: in place of each log message the INSERTs of
what it publishes. -/
theorem run_site {R : Json.Reader ν} {D : Doubles ν} {columnMap : ColumnMap} {columns : List Str} {rows : List Stored}
    {run : List Occurrence} {w : World ν}
    (hrun : exec (World.step R D columnMap columns) (World.start rows) run = some w) :
    exec (Site.step R D.toEscape) { Site.initial with rows := rows }
      (trace (World.step R D columnMap columns) (World.actions D columns) (World.start rows) run) = some w.site := by
  let Same (w : World ν) (s : Site ν) : Prop := w.site = s ∧ w.Running D columnMap columns
  obtain ⟨s, hs, rfl, -⟩ := exec_sim (S := Same) (f := World.actions D columns) (fun w s a w' hsame hw => by
    obtain ⟨rfl, hrunning⟩ := hsame
    exact ⟨_, World.step_site hrunning hw, rfl, World.step_running hrunning hw⟩)
    ⟨rfl, World.start_running rows⟩ hrun
  exact hs

/-- A start of trial T with two clients, as text and as JSON. -/
def twoPayload : Bytes := ascii <|
  "\x7b\"data\":\x7b\"client_info\":[\x7b\"playername\":\"P\"\x7d,\x7b\"playername\":\"R\"\x7d]\x7d,".toList ++
  "\"msg\":\x7b\"experiment_id\":\"E\",\"sub_type\":\"start\",\"trial_id\":\"T\"\x7d\x7d".toList

def twoJson : Json Decimal := .obj [
  ("data".toList, .obj [("client_info".toList, .arr [.obj [("playername".toList, .str "P".toList)],
    .obj [("playername".toList, .str "R".toList)]])]),
  ("msg".toList, .obj [("experiment_id".toList, .str "E".toList), ("sub_type".toList, .str "start".toList),
    ("trial_id".toList, .str "T".toList)])]

def twoReader : Json.Reader Decimal := Json.Reader.ofTable [(twoPayload, twoJson)] (by decide +kernel)

abbrev twoStep : World Decimal → Occurrence → Option (World Decimal) :=
  World.step twoReader DecimalPrinter.allDigits.doubles mfccMap mfccTable.columns

/-- The DELETE is done: two forks, and the lines of the two sessions. -/
def twoAfter : List Occurrence :=
  [.effect, .effect] ++ mixedLines.map fun p => .log (if p.1 then 0 else 1) p.2

def twoRun : List Occurrence := .message "trial".toList twoPayload :: .effect :: twoAfter

theorem run_site_two : (exec twoStep (World.start []) twoRun).isSome = true ∧
    ∀ w ∈ exec twoStep (World.start []) twoRun,
      exec (Site.step twoReader DecimalPrinter.allDigits.doubles.toEscape) { Site.initial with rows := [] }
        (trace twoStep (World.actions DecimalPrinter.allDigits.doubles mfccTable.columns) (World.start []) twoRun) =
          some w.site :=
  ⟨by decide +kernel, fun _ hw => run_site hw⟩

/-! ## Its table is the one of a history -/

namespace World

variable {R : Json.Reader ν} {D : Doubles ν} {columnMap : ColumnMap} {columns : List Str} {ids : ℕ → Ids}

/-- Names for the processes, of sessions to come as well. -/
def Named (ids : ℕ → Ids) (w : World ν) : Prop := ∀ k session, w.sessions[k]? = some session → ids k = session.toIds

theorem named_ids (w : World ν) : Named w.ids w := by
  intro k session h
  rw [World.ids, h]
  rfl

theorem step_sessions {w w' : World ν} {a : Occurrence} (hw : w.step R D columnMap columns a = some w') :
    ∃ new, w'.sessions = w.sessions ++ new := by
  cases does_of_step hw with
  | message hsite =>
    cases Site.does_of_step hsite with
    | thrown _ => exact ⟨[], (List.append_nil _).symm⟩
    | message _ _ => exact ⟨[], (List.append_nil _).symm⟩
  | effect _ hsite =>
    cases Site.does_of_step hsite with
    | @effect e _ _ => exact ⟨e.forked?.toList, Site.sessions_perform _ e⟩
  | log _ _ _ => exact ⟨[], (List.append_nil _).symm⟩
  | terminate hsite =>
    cases Site.does_of_step hsite with
    | terminate hp _ => exact ⟨[], (Site.sessions_terminate hp).trans (List.append_nil _).symm⟩

theorem Named.of_step {w w' : World ν} {a : Occurrence} (h : Named ids w')
    (hw : w.step R D columnMap columns a = some w') : Named ids w := by
  obtain ⟨new, hnew⟩ := step_sessions hw
  intro k session hsession
  refine h k session ?_
  rw [hnew, List.getElem?_append_left (List.getElem?_eq_some_iff.mp hsession).1, hsession]

theorem Named.of_exec : ∀ {w w' : World ν} {run : List Occurrence}, Named ids w' →
    exec (step R D columnMap columns) w run = some w' → Named ids w
  | w, w', [], h, hrun => by
    obtain rfl := Option.some.inj hrun
    exact h
  | w, w', a :: run, h, hrun => by
    obtain ⟨u, hu, hrun⟩ := exec_cons.mp hrun
    exact (h.of_exec hrun).of_step hu

theorem happenings_effect {w : World ν} {e : Effect ν} {rest : List (Effect ν)} (h : w.site.pending = e :: rest) :
    w.happenings .effect = e.clearedTrial?.toList.map .start := by
  rw [happenings, h]
  cases e <;> rfl

/-- The recording has the agent's table, and the processors of its processes
and of those to come. -/
structure Follows (ids : ℕ → Ids) (columnMap : ColumnMap) (columns : List Str) (w : World ν) (r : Recording ℕ ν) :
    Prop where
  table : r.table = w.table columns
  processors : ∀ k, r.processors k = (w.processors[k]?).getD ((ids k).processor columnMap)

theorem clearTrial_stored (trialId : Str) (rows : List Stored) :
    (DBWrapper.clearTrial Stored.row trialId rows).map Stored.row =
      DBWrapper.clearTrial id trialId (rows.map Stored.row) := by
  rw [DBWrapper.clearTrial, DBWrapper.clearTrial, List.filter_map]
  rfl

theorem Follows.effect {w : World ν} {r : Recording ℕ ν} (h : Follows ids columnMap columns w r) {e : Effect ν}
    {site : Site ν} (hrows : site.rows = (w.site.perform e).rows)
    (hfork : ∀ session ∈ e.forked?, ids w.processors.length = session.toIds) :
    Follows ids columnMap columns ⟨site, w.processors ++ e.processors columnMap⟩
      (r.runAll D (e.clearedTrial?.toList.map .start)) := by
  obtain ⟨htable, hprocessors⟩ := h
  have hsame (processors : List (Processor ν)) (hrows : site.rows = w.site.rows) :
      r.table = World.table columns ⟨site, processors⟩ := by rw [htable, World.table, World.table, hrows]
  cases e with
  | clearTrial trialId =>
    have hrun : r.runAll D [.start trialId] = r.happen D (.start trialId) := rfl
    refine ⟨?_, fun k => ?_⟩
    · rw [Effect.clearedTrial?, Option.toList_some, List.map_singleton, hrun, World.table, hrows, Site.perform,
        clearTrial_stored]
      simp only [Recording.happen, htable, World.table]
    · rw [Effect.processors, List.append_nil]
      exact hprocessors k
  | fork session =>
    refine ⟨hsame _ hrows, fun k => ?_⟩
    rw [Effect.clearedTrial?, Option.toList_none, List.map_nil]
    refine (hprocessors k).trans ?_
    rcases Nat.lt_trichotomy k w.processors.length with hk | rfl | hk
    · rw [Effect.processors, List.getElem?_append_left hk]
    · rw [Effect.processors, List.getElem?_concat_length, Option.getD_some, List.getElem?_eq_none (Nat.le_refl _),
        Option.getD_none, hfork session rfl]
    · rw [Effect.processors, List.getElem?_eq_none (Nat.le_of_lt hk), List.getElem?_eq_none (by simp; omega)]
  | kill _ =>
    refine ⟨hsame _ hrows, fun k => ?_⟩
    rw [Effect.processors, List.append_nil]
    exact hprocessors k
  | processASRMessage _ =>
    refine ⟨hsame _ hrows, fun k => ?_⟩
    rw [Effect.processors, List.append_nil]
    exact hprocessors k

theorem Follows.log {w : World ν} {r : Recording ℕ ν} (h : Follows ids columnMap columns w r) {k : ℕ} {s : Processor ν}
    (hs : w.processors[k]? = some s) (d : Delivery) (n : Nat) :
    Follows ids columnMap columns
      ⟨{ w.site with rows := w.site.rows ++ (sessionStep D columns s d).2.map fun row => ⟨row, n⟩ },
        w.processors.set k (sessionStep D columns s d).1⟩ (r.happen D (.line k d)) := by
  obtain ⟨htable, hprocessors⟩ := h
  have hk : r.processors k = s := by rw [hprocessors, hs, Option.getD_some]
  have hcolumns : r.table.columns = columns := by rw [htable]; rfl
  refine ⟨?_, fun k' => ?_⟩
  · rw [table_line, hcolumns, hk, htable]
    simp [World.table, Function.comp_def]
  · by_cases hkk : k' = k
    · subst hkk
      rw [processors_line_self, hcolumns, hk, List.getElem?_set_self (List.getElem?_eq_some_iff.mp hs).1,
        Option.getD_some]
    · rw [processors_line_ne r hkk, List.getElem?_set_ne (Ne.symm hkk)]
      exact hprocessors k'

theorem step_follows {w w' : World ν} {a : Occurrence} {r : Recording ℕ ν} (h : Follows ids columnMap columns w r)
    (hrunning : w.Running D columnMap columns) (hnamed : Named ids w')
    (hw : w.step R D columnMap columns a = some w') :
    Follows ids columnMap columns w' (r.runAll D (w.happenings a)) := by
  cases does_of_step hw with
  | message hsite =>
    cases Site.does_of_step hsite with
    | thrown _ => exact ⟨h.table, h.processors⟩
    | message _ _ => exact ⟨h.table, h.processors⟩
  | @effect site e rest hpending hsite =>
    cases Site.does_of_step hsite with
    | @effect e' rest' hpending' =>
      obtain ⟨rfl, rfl⟩ := List.cons.inj (hpending.symm.trans hpending')
      rw [happenings_effect hpending]
      refine h.effect rfl fun session hsession => hnamed _ session ?_
      rw [sessions, Site.sessions_perform, Option.mem_def.mp hsession, ← hrunning.length_eq]
      exact List.getElem?_concat_length
  | @log k d p s _ hs _ => exact h.log hs d p.start
  | terminate hsite =>
    cases Site.does_of_step hsite with
    | terminate _ _ => exact ⟨h.table, h.processors⟩

theorem exec_follows : ∀ {w w' : World ν} {run : List Occurrence} {r : Recording ℕ ν},
    Follows ids columnMap columns w r → w.Running D columnMap columns → Named ids w' →
      exec (step R D columnMap columns) w run = some w' →
        Follows ids columnMap columns w' (r.runAll D (w.history R D columnMap columns run))
  | w, w', [], r, h, _, _, hrun => by
    obtain rfl := Option.some.inj hrun
    exact h
  | w, w', a :: run, r, h, hrunning, hnamed, hrun => by
    obtain ⟨u, hu, hrun⟩ := exec_cons.mp hrun
    rw [history, trace_cons hu, runAll_append]
    exact exec_follows (step_follows h hrunning (hnamed.of_exec hrun) hu) (step_running hrunning hu) hnamed hrun

end World

/-- **What the agent stores is what the history of its run stores.** However
the Manager's effects, the log messages and the ends of the processes are
mixed, the table and the processors are those of the log messages and DELETEs
alone, in their order, each process with the ids of its session from the start. -/
theorem run_history {R : Json.Reader ν} {D : Doubles ν} {columnMap : ColumnMap} {columns : List Str}
    {rows : List Stored} {run : List Occurrence} {w : World ν}
    (hrun : exec (World.step R D columnMap columns) (World.start rows) run = some w) : ∃ r : Recording ℕ ν,
      r = (Recording.start w.ids columnMap ⟨columns, rows.map Stored.row⟩).runAll D
        ((World.start rows : World ν).history R D columnMap columns run) ∧
      w.table columns = r.table ∧ ∀ k s, w.processors[k]? = some s → r.processors k = s := by
  have hstart : World.Follows w.ids columnMap columns (World.start rows)
      (Recording.start w.ids columnMap ⟨columns, rows.map Stored.row⟩ : Recording ℕ ν) := ⟨rfl, fun _ => rfl⟩
  have hfollows := World.exec_follows hstart (World.start_running rows) w.named_ids hrun
  refine ⟨_, rfl, hfollows.table.symm, fun k s hs => ?_⟩
  rw [hfollows.processors, hs, Option.getD_some]

theorem run_history_two : (exec twoStep (World.start []) twoRun).isSome = true ∧
    ∀ w ∈ exec twoStep (World.start []) twoRun, ∃ r : Recording ℕ Decimal,
      r = (Recording.start w.ids mfccMap ⟨mfccTable.columns, []⟩).runAll DecimalPrinter.allDigits.doubles
        ((World.start [] : World Decimal).history twoReader DecimalPrinter.allDigits.doubles mfccMap mfccTable.columns
          twoRun) ∧
      w.table mfccTable.columns = r.table ∧ ∀ k s, w.processors[k]? = some s → r.processors k = s :=
  ⟨by decide +kernel, fun _ hw => run_history hw⟩

end SpeechAnalyzer
