/-
The rows of a trial that is started again. The Manager, its session processes
and the database take their steps in any order: the Manager the effects of one
message after another, a session an INSERT as long as it lives, and a SIGTERM
takes effect some time after it was sent.

Nothing waits for a stopped session to end, so it may still INSERT rows after
the DELETE of the next start of its trial.
-/
import SpeechAnalyzer.FeaturesTable
import SpeechAnalyzer.Lib.Transition
import SpeechAnalyzer.TrialSessions

namespace SpeechAnalyzer

open Lib Transition Manager

variable {ν : Type}

/-- A forked process: its session, the number of the start that forked it, and
whether a SIGTERM was sent and whether it lives. -/
structure SessionProcess where
  session : OpensmileSession
  start : Nat
  signalled : Bool
  alive : Bool
deriving DecidableEq, Repr

/-- A row of the table, with the number of the start its session belongs to. -/
structure Stored where
  row : Row
  start : Nat
deriving DecidableEq, Repr

/-- `pending` are the effects to come of the message being handled. The starts
whose DELETE has run are numbered from 0; `starts` holds their trials, as the
database got them, the last one first, and the first `finished` of the starts
are handled to the end. -/
structure Site (ν : Type) where
  manager : Manager
  listening : Bool
  pending : List (Effect ν)
  processes : List SessionProcess
  rows : List Stored
  starts : List Str
  finished : Nat

/-- A session stores rows under its trial, as its quoted text is read, or under
none. -/
def OpensmileSession.Writes (E : Json.Escape) (s : OpensmileSession) (row : Row) : Prop :=
  row.trialId = none ∨ textCell (E.quoted s.trialId) = some row.trialId

instance (E : Json.Escape) (s : OpensmileSession) (row : Row) : Decidable (s.Writes E row) :=
  inferInstanceAs (Decidable (_ ∨ _))

/-- The steps: the Manager takes a message, or its next effect; session `k`
INSERTs a row; a SIGTERM takes effect on it. -/
inductive Action
  | message (topic : Str) (payload : Bytes)
  | effect
  | insert (k : Nat) (row : Row)
  | terminate (k : Nat)
deriving DecidableEq, Repr

namespace Site

def initial : Site ν := ⟨⟨[]⟩, true, [], [], [], [], 0⟩

def perform (s : Site ν) : Effect ν → Site ν
  | .clearTrial trialId =>
    { s with rows := DBWrapper.clearTrial Stored.row trialId s.rows, starts := cString trialId :: s.starts }
  | .fork session => { s with processes := s.processes ++ [⟨session, s.starts.length - 1, false, true⟩] }
  | .kill pid =>
    { s with processes := s.processes.map fun p => if p.session.pid = pid then { p with signalled := true } else p }
  | .processASRMessage _ => s

def step (R : Json.Reader ν) (E : Json.Escape) (s : Site ν) : Action → Option (Site ν)
  | .message topic payload =>
    match s.listening, s.pending with
    | true, [] =>
      match onMessage R topic payload (s.processes.length + 2) s.manager with
      | .error _ => some { s with listening := false }
      | .ok (m, effects) => some { s with manager := m, pending := effects }
    | _, _ => none
  | .effect =>
    match s.pending with
    | [] => none
    | e :: rest =>
      let s := { s with pending := rest }.perform e
      some { s with finished := if rest.isEmpty then s.starts.length else s.finished }
  | .insert k row =>
    match s.processes[k]? with
    | none => none
    | some p => if p.alive ∧ p.session.Writes E row then some { s with rows := s.rows ++ [⟨row, p.start⟩] } else none
  | .terminate k =>
    match s.processes[k]? with
    | none => none
    | some p => if p.signalled then some { s with processes := s.processes.set k { p with alive := false } } else none

end Site

/-- The number of the last start of a trial. -/
def lastStart : List Str → Str → Option Nat
  | [], _ => none
  | t :: starts, trialId => if t = trialId then some starts.length else lastStart starts trialId

namespace Site

/-- Once the last start of a trial is handled, the trial's rows are those of
its sessions. -/
def Isolated (s : Site ν) : Prop :=
  ∀ x ∈ s.rows, ∀ trialId ∈ x.row.trialId, ∀ i ∈ lastStart s.starts trialId, i < s.finished → x.start = i

instance (s : Site ν) : Decidable s.Isolated := inferInstanceAs (Decidable (∀ x ∈ s.rows, _))

/-- An INSERT is in time when no later start of the row's trial has run its
DELETE: the session's start is the last one of that trial. -/
def InTime (s : Site ν) : Action → Prop
  | .insert k row =>
    ∀ p ∈ s.processes[k]?, ∀ trialId ∈ row.trialId, ∀ i ∈ lastStart s.starts trialId, p.start = i
  | _ => True

instance (s : Site ν) : ∀ a, Decidable (s.InTime a)
  | .insert k _ => inferInstanceAs (Decidable (∀ p ∈ s.processes[k]?, _))
  | .message .. | .effect | .terminate _ => .isTrue trivial

/-- The rows of a trial are those of its last start from its DELETE on. -/
def Fresh (s : Site ν) : Prop :=
  ∀ x ∈ s.rows, ∀ trialId ∈ x.row.trialId, ∀ i ∈ lastStart s.starts trialId, x.start = i

end Site

/-! ## What each step does -/

namespace Site

/-- The steps there are, each with what it takes and what it leaves. -/
inductive Does (E : Json.Escape) (s : Site ν) : Action → Site ν → Prop
  | thrown {topic : Str} {payload : Bytes} (hpending : s.pending = []) :
    Does E s (.message topic payload) { s with listening := false }
  | message {topic : Str} {payload : Bytes} (hpending : s.pending = []) (e : TrialEvent ν) :
    Does E s (.message topic payload) { s with
      manager := (s.manager.handle (s.processes.length + 2) e).1
      pending := (s.manager.handle (s.processes.length + 2) e).2 }
  | effect {e : Effect ν} {rest : List (Effect ν)} (hpending : s.pending = e :: rest) :
    Does E s .effect { s.perform e with
      pending := rest
      finished := if rest.isEmpty then (s.perform e).starts.length else s.finished }
  | insert {k : Nat} {row : Row} {p : SessionProcess} (hp : s.processes[k]? = some p) (halive : p.alive = true)
    (hwrites : p.session.Writes E row) : Does E s (.insert k row) { s with rows := s.rows ++ [⟨row, p.start⟩] }
  | terminate {k : Nat} {p : SessionProcess} (hp : s.processes[k]? = some p) (hsignalled : p.signalled = true) :
    Does E s (.terminate k) { s with processes := s.processes.set k { p with alive := false } }

theorem does_of_step {R : Json.Reader ν} {E : Json.Escape} {s t : Site ν} {a : Action} (h : s.step R E a = some t) :
    Does E s a t := by
  cases a with
  | message topic payload =>
    simp only [step] at h
    split at h
    · next hpending =>
      split at h
      · obtain rfl := Option.some.inj h
        exact .thrown hpending
      · next m effects hm =>
        obtain ⟨e, he⟩ := onMessage_handle hm
        obtain rfl := Option.some.inj h
        obtain ⟨rfl, rfl⟩ := Prod.mk.inj he
        exact .message hpending e
    · cases h
  | effect =>
    simp only [step] at h
    split at h
    · cases h
    · next e rest hpending =>
      obtain rfl := Option.some.inj h
      cases e <;> exact .effect hpending
  | insert k row =>
    simp only [step] at h
    split at h
    · cases h
    · next p hp =>
      split at h
      · next hcan =>
        obtain rfl := Option.some.inj h
        exact .insert hp hcan.1 hcan.2
      · cases h
  | terminate k =>
    simp only [step] at h
    split at h
    · cases h
    · next p hp =>
      split at h
      · next hsignalled =>
        obtain rfl := Option.some.inj h
        exact .terminate hp hsignalled
      · cases h

/-- An effect of the Manager: the DELETE of a start takes the rows that the new
start makes old. -/
theorem perform_fresh {s : Site ν} (h : s.Fresh) (e : Effect ν) : (s.perform e).Fresh := by
  cases e with
  | clearTrial trialId =>
    intro x hx t ht i hi
    obtain ⟨hx, hkept⟩ := List.mem_filter.mp hx
    have hne : t ≠ cString trialId := by
      intro he
      subst he
      exact of_decide_eq_true hkept ht
    refine h x hx t ht i ?_
    rwa [perform, lastStart, if_neg (Ne.symm hne)] at hi
  | fork session => exact h
  | kill pid => exact h
  | processASRMessage m => exact h

theorem step_fresh {R : Json.Reader ν} {E : Json.Escape} {s t : Site ν} {a : Action} (h : s.Fresh) (ha : s.InTime a)
    (ht : s.step R E a = some t) : t.Fresh := by
  cases does_of_step ht with
  | thrown _ => exact h
  | message _ e => exact h
  | effect _ => exact perform_fresh h _
  | insert hp _ _ =>
    intro x hx
    rcases List.mem_append.mp hx with hold | hnew
    · exact h x hold
    · obtain rfl := List.mem_singleton.mp hnew
      exact ha _ hp
  | terminate _ _ => exact h

theorem initial_fresh : (initial : Site ν).Fresh := by
  intro x hx
  cases hx

end Site

/-- **In every run whose INSERTs are all in time, the rows of a trial are, once
its last start is handled, rows of that start's sessions.** -/
theorem isolated_of_inTime {R : Json.Reader ν} {E : Json.Escape} {run : List Action} {s : Site ν}
    (hrun : exec (Site.step R E) Site.initial run = some s) (h : Along (Site.step R E) Site.InTime Site.initial run) :
    s.Isolated := by
  have hfresh : s.Fresh := exec_inv (I := Site.Fresh) (fun _ _ _ hs ha ht => Site.step_fresh hs ha ht)
    Site.initial_fresh h hrun
  exact fun x hx trialId htrial i hi _ => hfresh x hx trialId htrial i hi

/-! ## Rows of a session -/

/-- The row of an INSERT with the session's ids is one it writes. -/
theorem writes_rowInsert {D : Doubles ν} {columnMap : ColumnMap} {features : List (Str × ν)} {time : ν}
    {session : OpensmileSession} {utcTimestamp : Str} {row : Row}
    (h : (rowInsert D columnMap features time session.toIds).row utcTimestamp = some row) :
    session.Writes D.toEscape row := by
  simp only [Insert.row, Option.bind_eq_bind, Option.bind_eq_some_iff, Option.some.injEq] at h
  obtain ⟨_, -, _, -, _, -, trialId, htrial, _, -, rfl⟩ := h
  exact .inr htrial

/-! ## Late INSERTs show -/

def Manager.Effect.IsDelete : Effect ν → Prop
  | .clearTrial _ => True
  | _ => False

theorem Manager.handle_tail {m : Manager} {nextPid : Nat} {e : TrialEvent ν} :
    ∀ f ∈ (m.handle nextPid e).2.tail, ¬ f.IsDelete := by
  cases e with
  | start trialId experimentId participants => simp [handle, Effect.IsDelete]
  | stop =>
    intro f hf
    obtain ⟨session, -, hf⟩ := List.mem_flatMap.mp (List.mem_of_mem_tail hf)
    unfold OpensmileSession.delete at hf
    split at hf
    · obtain rfl := List.mem_singleton.mp hf
      exact id
    · cases hf
  | other => simp [handle]
  | asr j => simp [handle]

namespace Site

/-- The Manager's side: a DELETE is the first effect of its message, and while
a start is not finished it has been run. -/
structure InOrder (s : Site ν) : Prop where
  finished_le : s.finished ≤ s.starts.length
  idle : s.pending = [] → s.finished = s.starts.length
  first : ∀ e ∈ s.pending.tail, ¬ e.IsDelete
  run : s.finished < s.starts.length → ∀ e ∈ s.pending, ¬ e.IsDelete

theorem perform_starts (s : Site ν) (e : Effect ν) : s.starts.length ≤ (s.perform e).starts.length := by
  cases e <;> simp [perform]

theorem step_inOrder {R : Json.Reader ν} {E : Json.Escape} {s t : Site ν} {a : Action} (h : s.InOrder)
    (ht : s.step R E a = some t) : t.InOrder := by
  cases does_of_step ht with
  | thrown _ => exact ⟨h.finished_le, h.idle, h.first, h.run⟩
  | message hpending e =>
    have hfinished := h.idle hpending
    exact ⟨h.finished_le, fun _ => hfinished, handle_tail, fun hlt => absurd hfinished (Nat.ne_of_lt hlt)⟩
  | @effect e rest hpending =>
    have hfirst := h.first
    rw [hpending, List.tail_cons] at hfirst
    have hle := perform_starts s e
    refine ⟨?_, fun hnil => ?_, fun f hf => hfirst f (List.mem_of_mem_tail hf), fun _ => hfirst⟩
    · simp only
      split
      · exact Nat.le_refl _
      · exact Nat.le_trans h.finished_le hle
    · have hnone : rest = [] := hnil
      simp only [hnone, List.isEmpty_nil, if_true]
  | insert _ _ _ => exact ⟨h.finished_le, h.idle, h.first, h.run⟩
  | terminate _ _ => exact ⟨h.finished_le, h.idle, h.first, h.run⟩

/-- A row of the trial is not of its last start. -/
structure Mixed (trialId : Str) (i : Nat) (s : Site ν) : Prop where
  last : lastStart s.starts trialId = some i
  row : ∃ x ∈ s.rows, x.row.trialId = some trialId ∧ x.start ≠ i

theorem lastStart_lt {trialId : Str} : ∀ {starts : List Str} {i : Nat}, lastStart starts trialId = some i →
    i < starts.length
  | [], _, h => by cases h
  | t :: starts, i, h => by
    rw [lastStart] at h
    split at h
    · obtain rfl := Option.some.inj h
      exact Nat.lt_succ_self _
    · exact Nat.lt_succ_of_lt (lastStart_lt h)

/-- While the start is not finished, the row stays. -/
theorem step_mixed {R : Json.Reader ν} {E : Json.Escape} {s t : Site ν} {a : Action} {trialId : Str} {i : Nat}
    (h : s.InOrder) (hunfinished : s.finished < s.starts.length) (hmixed : s.Mixed trialId i)
    (ht : s.step R E a = some t) : t.Mixed trialId i := by
  cases does_of_step ht with
  | thrown hpending => exact absurd (h.idle hpending) (Nat.ne_of_lt hunfinished)
  | message hpending e => exact absurd (h.idle hpending) (Nat.ne_of_lt hunfinished)
  | @effect e rest hpending =>
    have hrun := h.run hunfinished e (by rw [hpending]; exact List.mem_cons_self)
    cases e with
    | clearTrial t => exact absurd trivial hrun
    | fork session => exact ⟨hmixed.last, hmixed.row⟩
    | kill pid => exact ⟨hmixed.last, hmixed.row⟩
    | processASRMessage m => exact ⟨hmixed.last, hmixed.row⟩
  | insert _ _ _ =>
    obtain ⟨x, hx, hold⟩ := hmixed.row
    exact ⟨hmixed.last, x, List.mem_append_left _ hx, hold⟩
  | terminate _ _ => exact ⟨hmixed.last, hmixed.row⟩

theorem Mixed.not_isolated {s : Site ν} {trialId : Str} {i : Nat} (h : s.Mixed trialId i) (hi : i < s.finished) :
    ¬ s.Isolated := by
  obtain ⟨x, hx, htrial, hne⟩ := h.row
  exact fun hs => hne (hs x hx trialId htrial i h.last hi)

/-- Once the Manager is done with the start, the row is there. -/
theorem Mixed.shows {R : Json.Reader ν} {E : Json.Escape} {trialId : Str} {i : Nat} {t : Site ν} :
    ∀ {run : List Action} {s : Site ν}, s.InOrder → s.Mixed trialId i → exec (step R E) s run = some t →
      t.pending = [] → ∃ part u, part <+: run ∧ exec (step R E) s part = some u ∧ ¬ u.Isolated
  | run, s, hs, hmixed, hrun, hidle => by
    by_cases hi : i < s.finished
    · exact ⟨[], s, List.nil_prefix, rfl, hmixed.not_isolated hi⟩
    · have hunfinished : s.finished < s.starts.length :=
        Nat.lt_of_le_of_lt (Nat.le_of_not_lt hi) (lastStart_lt hmixed.last)
      cases run with
      | nil =>
        obtain rfl := Option.some.inj hrun
        exact absurd (hs.idle hidle) (Nat.ne_of_lt hunfinished)
      | cons a run =>
        obtain ⟨v, hv, hrun⟩ := exec_cons.mp hrun
        obtain ⟨part, u, hpart, hu, hnot⟩ :=
          Mixed.shows (step_inOrder hs hv) (step_mixed hs hunfinished hmixed hv) hrun hidle
        exact ⟨a :: part, u, List.cons_prefix_cons.mpr ⟨rfl, hpart⟩, exec_cons.mpr ⟨v, hv, hu⟩, hnot⟩

theorem mixed_of_late {R : Json.Reader ν} {E : Json.Escape} {s t : Site ν} {a : Action} (ha : ¬ s.InTime a)
    (ht : s.step R E a = some t) : ∃ trialId i, t.Mixed trialId i := by
  cases does_of_step ht with
  | thrown _ => exact absurd trivial ha
  | message _ _ => exact absurd trivial ha
  | effect _ => exact absurd trivial ha
  | terminate _ _ => exact absurd trivial ha
  | @insert k row p hp _ _ =>
    simp only [InTime, hp, not_forall] at ha
    obtain ⟨p', hp', trialId, htrial, i, hi, hne⟩ := ha
    obtain rfl := Option.some.inj hp'
    exact ⟨trialId, i, hi, ⟨row, p.start⟩, List.mem_append_right _ (List.mem_singleton.mpr rfl), htrial, hne⟩

theorem along_of_isolated {R : Json.Reader ν} {E : Json.Escape} {t : Site ν} :
    ∀ {run : List Action} {s : Site ν}, s.InOrder → exec (step R E) s run = some t → t.pending = [] →
      (∀ part u, part <+: run → exec (step R E) s part = some u → u.Isolated) → Along (step R E) InTime s run
  | [], _, _, _, _, _ => trivial
  | a :: run, s, hs, hrun, hidle, hall => by
    obtain ⟨v, hv, hrun⟩ := exec_cons.mp hrun
    have hrest {part : List Action} {u : Site ν} (hpart : part <+: run) (hu : exec (step R E) v part = some u) :
        u.Isolated :=
      hall (a :: part) u (List.cons_prefix_cons.mpr ⟨rfl, hpart⟩) (exec_cons.mpr ⟨v, hv, hu⟩)
    refine ⟨?_, ?_⟩
    · by_contra hlate
      obtain ⟨trialId, i, hmixed⟩ := mixed_of_late hlate hv
      obtain ⟨part, u, hpart, hu, hnot⟩ := hmixed.shows (step_inOrder hs hv) hrun hidle
      exact hnot (hrest hpart hu)
    · intro w hw
      obtain rfl := Option.some.inj (hv.symm.trans hw)
      exact along_of_isolated (step_inOrder hs hv) hrun hidle fun part u hpart hu => hrest hpart hu

theorem initial_inOrder : (initial : Site ν).InOrder :=
  ⟨Nat.le_refl _, fun _ => rfl, List.forall_mem_nil _, fun h => absurd h (Nat.lt_irrefl _)⟩

end Site

/-- **A run at whose end the Manager is idle keeps the rows apart throughout
exactly when all its INSERTs are in time.** -/
theorem isolated_iff {R : Json.Reader ν} {E : Json.Escape} {run : List Action} {s : Site ν}
    (hrun : exec (Site.step R E) Site.initial run = some s) (hidle : s.pending = []) :
    (∀ part t, part <+: run → exec (Site.step R E) Site.initial part = some t → t.Isolated) ↔
      Along (Site.step R E) Site.InTime Site.initial run := by
  refine ⟨?_, ?_⟩
  · exact Site.along_of_isolated Site.initial_inOrder hrun hidle
  · intro h part t hpart ht x hx trialId htrial i hi _
    have hfresh : t.Fresh := exec_inv (I := Site.Fresh) (fun _ _ _ hs ha ht => Site.step_fresh hs ha ht)
      Site.initial_fresh (h.of_part hpart) ht
    exact hfresh x hx trialId htrial i hi

/-! ## A trial started again -/

def redRow : Row where
  cells := []
  secondsOffset := none
  timestamp := []
  participant := some "Red".toList
  trialId := some "T".toList
  experimentId := some "E".toList

def startMessage : Action := .message "trial".toList startPayload
def stopMessage : Action := .message "trial".toList stopPayload

/-- A start with its DELETE and its fork, rows before and after the SIGTERM of
a stop, and the trial again, the first session ended when its DELETE runs. -/
def oneTrial : List Action :=
  [startMessage, .effect, .effect, .insert 0 redRow, stopMessage, .effect, .insert 0 redRow, startMessage,
    .terminate 0, .effect, .effect, .insert 1 redRow]

theorem isolated_oneTrial :
    (exec (Site.step trialReader .json) Site.initial oneTrial).isSome = true ∧
      Along (Site.step trialReader .json) Site.InTime Site.initial oneTrial ∧
      ∀ s ∈ exec (Site.step trialReader .json) Site.initial oneTrial, s.Isolated :=
  ⟨by decide +kernel, by decide +kernel, fun _ hs => isolated_of_inTime hs (by decide +kernel)⟩

/-- Start, stop, start; the session of the first start, sent its SIGTERM,
stores a row after the second DELETE. -/
def restart : List Action :=
  [startMessage, .effect, .effect, stopMessage, .effect, startMessage, .effect, .insert 0 redRow, .effect]

theorem stopped_session_inserts : ∃ s ∈ exec (Site.step trialReader .json) Site.initial restart,
    s.pending.isEmpty = true ∧ s.finished = 2 ∧ ¬ s.Isolated := by
  decide +kernel

end SpeechAnalyzer
