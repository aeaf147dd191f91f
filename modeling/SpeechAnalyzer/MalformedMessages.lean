/-
Messages the Manager cannot use. `on_message` has no `try`: what its parse and
its accesses throw goes through the C callback and ends the process, and so
does what `ProcessASRMessage` throws in the thread of an ASR message. It returns
on a malformed start whose `client_info` gives no or some clients all the same,
and then deletes the trial's rows and forks.
-/
import SpeechAnalyzer.TrialSessions
import SpeechAnalyzer.Utterances

namespace SpeechAnalyzer

open Lib Manager ASRProcessor

variable {ν : Type} {R : Json.Reader ν}

/-- The Manager with its session processes, and the table `features`. -/
structure Agent where
  system : System
  table : Table

namespace Agent

/-- An effect, with the thread of an ASR message to its end: `process` is how
`ProcessASRMessage` ends. An exception leaves the detached thread and ends the
process. -/
def perform (process : Json ν → Except Exn Unit) (a : Agent) : Effect ν → Except Exn Agent
  | .clearTrial trialId =>
    .ok { a with table := { a.table with rows := DBWrapper.clearTrial id trialId a.table.rows } }
  | .processASRMessage m => (process m).map fun _ => a
  | e => .ok { a with system := a.system.observe e }

/-- `Manager::on_message` and all it does: an exception, of its own or of the
thread, ends the process. -/
def onMessage (R : Json.Reader ν) (process : Json ν → Except Exn Unit) (topic : Str) (message : Bytes) (a : Agent) :
    Except Exn Agent := do
  let r ← Manager.onMessage R topic message a.system.nextPid a.system.manager
  r.2.foldlM (perform process) { a with system := { a.system with manager := r.1 } }

/-- The message is rejected: `on_message` returns, the process goes on, and
sessions, processes and table are as before. -/
def Rejects (R : Json.Reader ν) (process : Json ν → Except Exn Unit) (topic : Str) (message : Bytes) (a : Agent) :
    Prop :=
  ∃ b, a.onMessage R process topic message = .ok b ∧
    b.system.manager.participantSessions = a.system.manager.participantSessions ∧
    b.system.children = a.system.children ∧ b.table = a.table

end Agent

/-- On the topic `trial`, any payload that is no well-formed message; on others,
any payload. -/
def Malformed (R : Json.Reader ν) (topic : Str) (payload : Bytes) : Prop :=
  topic = "trial".toList → ¬ ∃ e : TrialEvent ν, Says R (topic, payload) e

/-- The payloads that come to nothing, where `body` is what the MMC server
answers to an ASR message: any JSON on other topics, a usable ASR message whose
answer is no JSON or takes keys, and a start of no clients. -/
inductive Passes (R : Json.Reader ν) (body : Option Bytes) (t : Table) (topic : Str) (payload : Bytes) : Prop
  | elsewhere {m : Json ν} (parsed : R.parse payload = some m) (htopic : topic ≠ "trial".toList)
      (hasr : topic ≠ "agent/asr/final".toList)
  | utterance {m : Json ν} (parsed : R.parse payload = some m) (htopic : topic = "agent/asr/final".toList)
      (usable : Usable m) (answer : ∀ response, R.parse (responseText body) = some response → response.IsMap)
  | noClients {m clientInfo : Json ν} {trialId experimentId : Str} (htopic : topic = "trial".toList)
      (h : TrialMessage R payload m "start".toList trialId experimentId)
      (hclient : Json.getAt ["data".toList, "client_info".toList] m = .ok clientInfo)
      (none : clientInfo = .null ∨ clientInfo = .obj [])
      (noRow : ∀ row ∈ t.rows, row.trialId ≠ some (cString trialId))

/-! ## What `on_message` can return -/

theorem elements_eq_nil {j : Json ν} : j.elements = [] ↔ j = .null ∨ j = .arr [] ∨ j = .obj [] := by
  cases j with
  | null => simp [Json.elements]
  | arr l => simp [Json.elements]
  | obj l => simp [Json.elements]
  | bool _ => simp [Json.elements]
  | num _ => simp [Json.elements]
  | str _ => simp [Json.elements]

namespace Manager

theorem field_eq_ok {m : Json ν} {keys : List Str} {s : Str} :
    field m keys = .ok s ↔ Json.getAt keys m = .ok (.str s) := by
  rw [field, bind_eq_ok]
  refine ⟨?_, fun h => ⟨_, h, rfl⟩⟩
  intro hparts
  obtain ⟨j, hj, hs⟩ := hparts
  rw [hj, Json.toStr_eq_ok.mp hs]

/-- The clients have names: what `playernames` returns. -/
theorem playernames_eq_ok {clients : List (Json ν)} {participants : List Str} :
    playernames clients = .ok participants ↔
      List.Forall₂ (fun client name => client.get "playername".toList = .ok (.str name)) clients participants := by
  refine ⟨fun h => ?_, playernames_eq⟩
  induction clients generalizing participants with
  | nil =>
    obtain rfl := Except.ok.inj h
    exact .nil
  | cons client clients ih =>
    unfold playernames at h
    obtain ⟨playername, hget, h⟩ := bind_eq_ok.mp h
    obtain ⟨participant, hstr, h⟩ := bind_eq_ok.mp h
    obtain ⟨rest, hrest, h⟩ := bind_eq_ok.mp h
    obtain rfl := Except.ok.inj h
    rw [Json.toStr_eq_ok.mp hstr] at hget
    exact .cons hget (ih hrest)

/-- The ways to return: another topic, an ASR message, a start with names, a
trial message that is no start. -/
inductive Returns (R : Json.Reader ν) (topic : Str) (payload : Bytes) (nextPid : Nat) (m : Manager) :
    Manager × List (Effect ν) → Prop
  | elsewhere {j : Json ν} (parsed : R.parse payload = some j) (htopic : topic ≠ "trial".toList)
      (hasr : topic ≠ "agent/asr/final".toList) : Returns R topic payload nextPid m (m, [])
  | utterance {j : Json ν} (parsed : R.parse payload = some j) (htopic : topic = "agent/asr/final".toList) :
      Returns R topic payload nextPid m (m, [.processASRMessage j])
  | start {j clientInfo : Json ν} {trialId experimentId : Str} {participants : List Str}
      (htopic : topic = "trial".toList) (h : TrialMessage R payload j "start".toList trialId experimentId)
      (hclient : Json.getAt ["data".toList, "client_info".toList] j = .ok clientInfo)
      (names : playernames clientInfo.elements = .ok participants) :
      Returns R topic payload nextPid m (m.handle nextPid (.start trialId experimentId participants))
  | notStart {j : Json ν} {subType trialId experimentId : Str} {r : Manager × List (Effect ν)}
      (htopic : topic = "trial".toList) (h : TrialMessage R payload j subType trialId experimentId)
      (hstart : subType ≠ "start".toList) : Returns R topic payload nextPid m r

theorem returns_of_ok {topic : Str} {payload : Bytes} {nextPid : Nat} {m : Manager} {r : Manager × List (Effect ν)}
    (h : onMessage R topic payload nextPid m = .ok r) : Returns R topic payload nextPid m r := by
  unfold onMessage at h
  obtain ⟨j, hread, h⟩ := bind_eq_ok.mp h
  have hparsed := Json.Reader.read_eq_ok.mp hread
  by_cases htopic : topic = "trial".toList
  · rw [if_pos htopic] at h
    obtain ⟨subType, hsub, h⟩ := bind_eq_ok.mp h
    obtain ⟨trialId, htrial, h⟩ := bind_eq_ok.mp h
    obtain ⟨experimentId, hexperiment, h⟩ := bind_eq_ok.mp h
    have hmessage : TrialMessage R payload j subType trialId experimentId :=
      ⟨hparsed, field_eq_ok.mp hsub, field_eq_ok.mp htrial, field_eq_ok.mp hexperiment⟩
    by_cases hstart : subType = "start".toList
    · rw [if_pos hstart] at h
      rw [hstart] at hmessage
      obtain ⟨clientInfo, hclient, h⟩ := bind_eq_ok.mp h
      obtain ⟨participants, hnames, h⟩ := bind_eq_ok.mp h
      rw [initializeParticipants_eq] at h
      obtain rfl := Except.ok.inj h
      exact .start htopic hmessage hclient hnames
    · exact .notStart htopic hmessage hstart
  · rw [if_neg htopic] at h
    split at h
    · next hasr =>
      obtain rfl := Except.ok.inj h
      exact .utterance hparsed hasr
    · next hasr =>
      obtain rfl := Except.ok.inj h
      exact .elsewhere hparsed htopic hasr

end Manager

/-! ## Malformed messages -/

namespace Agent

variable {process : Json ν → Except Exn Unit}

theorem clearTrial_eq_self {rows : List Row} {trialId : Str} :
    DBWrapper.clearTrial id trialId rows = rows ↔ ∀ row ∈ rows, row.trialId ≠ some (cString trialId) := by
  rw [DBWrapper.clearTrial, List.filter_eq_self]
  simp

theorem foldlM_perform_fork : ∀ (sessions : List OpensmileSession) (a : Agent),
    (sessions.map Effect.fork : List (Effect ν)).foldlM (perform process) a =
      .ok { a with system := (sessions.map Effect.fork : List (Effect ν)).foldl System.observe a.system }
  | [], _ => rfl
  | session :: sessions, a => by
    rw [List.map_cons, List.foldlM_cons, List.foldl_cons, perform, ok_bind, foldlM_perform_fork sessions]
    all_goals nofun

/-- A start: sessions and processes grow by the clients, and the trial's rows
are gone. -/
theorem onMessage_start (process : Json ν → Except Exn Unit) {a : Agent} {topic : Str} {payload : Bytes}
    {trialId experimentId : Str} {participants : List Str}
    (hok : (Manager.onMessage R topic payload a.system.nextPid a.system.manager) =
      .ok (a.system.manager.handle a.system.nextPid (.start trialId experimentId participants))) :
    ∃ b, a.onMessage R process topic payload = .ok b ∧
      b.system.manager.participantSessions = a.system.manager.participantSessions ++
        newSessions participants trialId experimentId a.system.nextPid ∧
      b.system.children = a.system.children ++ newSessions participants trialId experimentId a.system.nextPid ∧
      b.table = { a.table with rows := DBWrapper.clearTrial id trialId a.table.rows } := by
  have hfork := System.foldl_fork (ν := ν) trialId experimentId participants { a.system with
    manager := ⟨a.system.manager.participantSessions ++
      newSessions participants trialId experimentId a.system.nextPid⟩ }
  rw [onMessage, hok, ok_bind, handle, List.foldlM_cons, perform, ok_bind, foldlM_perform_fork]
  refine ⟨_, rfl, ?_⟩
  simp only [hfork]
  exact ⟨trivial, trivial, trivial⟩

theorem onMessage_utterance {a : Agent} {topic : Str} {payload : Bytes} {m : Json ν}
    (hok : (Manager.onMessage R topic payload a.system.nextPid a.system.manager) =
      .ok (a.system.manager, [.processASRMessage m])) :
    a.onMessage R process topic payload = (process m).map fun _ => a := by
  rw [onMessage, hok, ok_bind, List.foldlM_cons, perform]
  cases process m with
  | error e => rfl
  | ok _ => rfl

section Process

variable (D : Doubles ν) (columnMap : ColumnMap) (columns : List Str)
  (query : ℕ → Str → Str → Str → Str → List Row) (bounds : ℕ → Str × Str) (body : Option Bytes) (clock : ℕ → Str)

/-- How the thread of an ASR message ends, with a database and the answer of
the MMC server. -/
def thread (R : Json.Reader ν) (m : Json ν) : Except Exn Unit :=
  (processASRMessage D.toPrinter R (databaseQuery D columnMap columns query bounds) (fun _ => body) clock m).result

variable {D columnMap columns query bounds body clock}

theorem passes_of_rejects {topic : Str} {payload : Bytes} (h : Malformed R topic payload) {a : Agent}
    (hr : a.Rejects R (thread D columnMap columns query bounds body clock R) topic payload) :
    Passes R body a.table topic payload := by
  obtain ⟨b, hb, hsessions, -, htable⟩ := hr
  obtain ⟨r, hok, -⟩ := bind_eq_ok.mp hb
  cases returns_of_ok hok with
  | elsewhere parsed htopic hasr => exact .elsewhere parsed htopic hasr
  | @utterance j parsed htopic =>
    rw [onMessage_utterance hok] at hb
    have hends : thread D columnMap columns query bounds body clock R j = .ok () := by
      cases hthread : thread D columnMap columns query bounds body clock R j with
      | error e =>
        rw [hthread] at hb
        cases hb
      | ok _ => rfl
    obtain ⟨husable, hanswer⟩ := (result_eq_ok_iff D columnMap columns query bounds R clock j body).mp hends
    exact .utterance parsed htopic husable hanswer
  | @start j clientInfo trialId experimentId participants htopic hmessage hclient names =>
    obtain ⟨b', hb', hgrown, -, hcleared⟩ := onMessage_start (thread D columnMap columns query bounds body clock R) hok
    obtain rfl := Except.ok.inj (hb'.symm.trans hb)
    rw [hsessions, List.self_eq_append_right] at hgrown
    have hnone : participants = [] := by
      have hlength := congrArg List.length hgrown
      simpa [newSessions] using hlength
    subst hnone
    refine .noClients htopic hmessage hclient ?_ ?_
    · rw [playernames_eq_ok, List.forall₂_nil_right_iff, elements_eq_nil] at names
      rcases names with hnull | harr | hobj
      · exact .inl hnull
      · -- An empty array is a well-formed list of clients.
        rw [harr] at hclient
        subst htopic
        exact absurd ⟨_, Says.start hmessage hclient .nil⟩ (h rfl)
      · exact .inr hobj
    · rw [htable, Table.mk.injEq] at hcleared
      exact clearTrial_eq_self.mp hcleared.2.symm
  | @notStart j subType trialId experimentId r htopic hmessage hstart =>
    subst htopic
    by_cases hstop : subType = "stop".toList
    · subst hstop
      exact absurd ⟨_, Says.stop hmessage⟩ (h rfl)
    · exact absurd ⟨_, Says.other hmessage hstart hstop⟩ (h rfl)

theorem rejects_of_passes {topic : Str} {payload : Bytes} {a : Agent} (h : Passes R body a.table topic payload) :
    a.Rejects R (thread D columnMap columns query bounds body clock R) topic payload := by
  cases h with
  | @elsewhere m parsed htopic hasr =>
    have hok : Manager.onMessage R topic payload a.system.nextPid a.system.manager = .ok (a.system.manager, []) := by
      simp only [Manager.onMessage, Json.Reader.read_eq_ok.mpr parsed, ok_bind, if_neg htopic, if_neg hasr]
    refine ⟨a, ?_, rfl, rfl, rfl⟩
    rw [onMessage, hok]
    rfl
  | @utterance m parsed htopic usable answer =>
    have hne : topic ≠ "trial".toList := by
      subst htopic
      decide +kernel
    refine ⟨a, ?_, rfl, rfl, rfl⟩
    have hends : thread D columnMap columns query bounds body clock R m = .ok () :=
      (result_eq_ok_iff D columnMap columns query bounds R clock m body).mpr ⟨usable, answer⟩
    rw [onMessage_utterance (onMessage_asr parsed hne htopic _ _), hends]
    rfl
  | @noClients m clientInfo trialId experimentId htopic hmessage hclient none noRow =>
    have hnames : playernames clientInfo.elements = .ok [] := by
      rcases none with rfl | rfl
      · rfl
      · rfl
    have hok : Manager.onMessage R topic payload a.system.nextPid a.system.manager =
        .ok (a.system.manager.handle a.system.nextPid (.start trialId experimentId [])) := by
      subst htopic
      exact onMessage_clients hmessage hclient hnames _ _
    obtain ⟨b, hb, hsessions, hchildren, htable⟩ :=
      onMessage_start (thread D columnMap columns query bounds body clock R) hok
    refine ⟨b, hb, ?_, ?_, ?_⟩
    · rw [hsessions]
      exact List.append_nil _
    · rw [hchildren]
      exact List.append_nil _
    · rw [htable, clearTrial_eq_self.mpr noRow]

/-- **A malformed message is rejected exactly when it `Passes`.** Every other
one throws, or is taken for a start: it deletes the rows of the trial, and
forks when `client_info` is an object of clients. -/
theorem rejects_iff (D : Doubles ν) (columnMap : ColumnMap) (columns : List Str)
    (query : ℕ → Str → Str → Str → Str → List Row) (bounds : ℕ → Str × Str) (body : Option Bytes) (clock : ℕ → Str)
    {topic : Str} {payload : Bytes} (h : Malformed R topic payload) (a : Agent) :
    a.Rejects R (thread D columnMap columns query bounds body clock R) topic payload ↔
      Passes R body a.table topic payload :=
  ⟨passes_of_rejects h, rejects_of_passes⟩

end Process

end Agent

/-! ## A payload that is not JSON -/

/-- What is not JSON is malformed on every topic, and `on_message` throws. -/
theorem malformed_of_parse {topic : Str} {payload : Bytes} (h : R.parse payload = none) :
    Malformed R topic payload := by
  intro _ hsays
  obtain ⟨e, he⟩ := hsays
  have hparsed : ∃ m, R.parse payload = some m := by
    cases he with
    | start h _ _ => exact ⟨_, h.parsed⟩
    | stop h => exact ⟨_, h.parsed⟩
    | other h _ _ => exact ⟨_, h.parsed⟩
    | asr parsed => exact ⟨_, parsed⟩
  obtain ⟨m, hm⟩ := hparsed
  rw [h] at hm
  cases hm

theorem not_passes_of_parse {topic : Str} {payload : Bytes} (h : R.parse payload = none) (body : Option Bytes)
    (t : Table) : ¬ Passes R body t topic payload := by
  intro hpasses
  have hparsed : ∃ m, R.parse payload = some m := by
    cases hpasses with
    | elsewhere parsed _ _ => exact ⟨_, parsed⟩
    | utterance parsed _ _ _ => exact ⟨_, parsed⟩
    | noClients _ hmessage _ _ _ => exact ⟨_, hmessage.parsed⟩
  obtain ⟨m, hm⟩ := hparsed
  rw [h] at hm
  cases hm

/-- A payload that is not JSON, and an object without members. -/
def noJson : Bytes := ascii "start".toList

def noMembers : Bytes := ascii "\x7b\x7d".toList

def shapeReader : Json.Reader Decimal := Json.Reader.ofTable [(noMembers, .obj [])] (by decide +kernel)

/-- The Manager as it starts, on an empty table. -/
def Agent.initial : Agent := ⟨.initial, ⟨fixedNames, []⟩⟩

/-- What it does with the threads when the database and the server answer nothing. -/
def Agent.silentThread (m : Json Decimal) : Except Exn Unit :=
  thread DecimalPrinter.allDigits.doubles [] [] (fun _ _ _ _ _ => []) (fun _ => ([], [])) none (fun _ => [])
    shapeReader m

theorem not_usable_noMembers : ¬ Usable (.obj [] : Json Decimal) := by
  intro h
  obtain ⟨trialId, htrial⟩ := h.trialId
  cases htrial

/-- No JSON is rejected on no topic, an object without members on any topic but
the two the Manager is subscribed to. -/
theorem rejects_iff_noJson :
    ¬ Agent.initial.Rejects shapeReader Agent.silentThread "trial".toList noJson ∧
    ¬ Agent.initial.Rejects shapeReader Agent.silentThread "agent/asr/final".toList noMembers ∧
    Agent.initial.Rejects shapeReader Agent.silentThread "observations".toList noMembers := by
  have hiff {topic : Str} {payload : Bytes} (h : Malformed shapeReader topic payload) :=
    Agent.rejects_iff DecimalPrinter.allDigits.doubles [] [] (fun _ _ _ _ _ => []) (fun _ => ([], [])) none
      (fun _ => []) h Agent.initial
  have hnone : shapeReader.parse noJson = none := by decide +kernel
  have hparsed : shapeReader.parse noMembers = some (.obj []) := rfl
  refine ⟨fun h => ?_, fun h => ?_, ?_⟩
  · exact not_passes_of_parse hnone _ _ ((hiff (malformed_of_parse hnone)).mp h)
  · have hpasses := (hiff fun htrial => absurd htrial (by decide +kernel)).mp h
    cases hpasses with
    | elsewhere _ _ hasr => exact hasr rfl
    | utterance parsed _ usable _ =>
      obtain rfl := Option.some.inj (hparsed.symm.trans parsed)
      exact not_usable_noMembers usable
    | noClients htopic _ _ _ _ => exact absurd htopic (by decide +kernel)
  · exact (hiff fun htrial => absurd htrial (by decide +kernel)).mpr
      (.elsewhere hparsed (by decide +kernel) (by decide +kernel))

/-- The parse throws, and nothing catches. -/
theorem noJson_not_rejected : ¬ ∀ (D : Doubles Decimal) (R : Json.Reader Decimal) (columnMap : ColumnMap)
    (columns : List Str) (query : ℕ → Str → Str → Str → Str → List Row) (bounds : ℕ → Str × Str)
    (body : Option Bytes) (clock : ℕ → Str) (topic : Str) (payload : Bytes), Malformed R topic payload →
    ∀ a : Agent, a.Rejects R (Agent.thread D columnMap columns query bounds body clock R) topic payload := by
  intro h
  have hnone : shapeReader.parse noJson = none := by decide +kernel
  have hrejects := h DecimalPrinter.allDigits.doubles shapeReader [] [] (fun _ _ _ _ _ => []) (fun _ => ([], [])) none
    (fun _ => []) "trial".toList noJson (malformed_of_parse hnone) Agent.initial
  exact not_passes_of_parse hnone _ _ (Agent.passes_of_rejects (malformed_of_parse hnone) hrejects)

end SpeechAnalyzer
