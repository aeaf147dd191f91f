/-
`Manager.cpp`, the handler of the messages on `trial` and `agent/asr/final`.

What a message does outside of the Manager's own fields are its effects, in
order: the DELETE of `ClearTrial`, a fork for each new session, a SIGTERM for
each deleted one, and a thread of `ProcessASRMessage`. Processes are numbered
as they are forked.
-/
import SpeechAnalyzer.DBWrapper
import SpeechAnalyzer.Lib.Mealy

namespace SpeechAnalyzer

open Lib

variable {ν : Type}

/-- A session as its object is after the constructor: `pid` is what `fork`
returned, 0 in the forked process itself. -/
structure OpensmileSession extends Ids where
  pid : Nat
deriving DecidableEq, Repr

inductive Manager.Effect (ν : Type)
  | clearTrial (trialId : Str)
  | fork (session : OpensmileSession)
  | kill (pid : Nat)
  | processASRMessage (m : Json ν)

structure Manager where
  participantSessions : List OpensmileSession
deriving DecidableEq, Repr

/-- The constructor, in the process that calls it. -/
def OpensmileSession.new (participantId trialId experimentId : Str) (pid : Nat) : OpensmileSession :=
  { participantId, trialId, experimentId, pid }

/-- The destructor. -/
def OpensmileSession.delete (s : OpensmileSession) : List (Manager.Effect ν) :=
  if s.pid ≠ 0 then [.kill s.pid] else []

namespace Manager

/-- `InitializeParticipants`; the next process is number `nextPid`. -/
def initializeParticipants : List Str → Str → Str → Nat → Manager → Manager × List (Effect ν)
  | [], _, _, _, m => (m, [])
  | participant :: participants, trialId, experimentId, nextPid, m =>
    let session := OpensmileSession.new participant trialId experimentId nextPid
    let m := { m with participantSessions := m.participantSessions ++ [session] }
    let (m, effects) := initializeParticipants participants trialId experimentId (nextPid + 1) m
    (m, .fork session :: effects)

def clearParticipants (m : Manager) : Manager × List (Effect ν) :=
  ({ m with participantSessions := [] }, m.participantSessions.flatMap OpensmileSession.delete)

/-- The names of `client_info`. -/
def playernames : List (Json ν) → Except Exn (List Str)
  | [] => .ok []
  | client :: clients => do
    let playername ← client.get "playername".toList
    let participant ← playername.toStr
    let participants ← playernames clients
    .ok (participant :: participants)

/-- `m[k₁][k₂]`, converted to a string. -/
def field (m : Json ν) (keys : List Str) : Except Exn Str := do
  let j ← Json.getAt keys m
  j.toStr

/-- `on_message`. Nothing after the first effect throws. -/
def onMessage (R : Json.Reader ν) (topic : Str) (message : Bytes) (nextPid : Nat) (m : Manager) :
    Except Exn (Manager × List (Effect ν)) := do
  let j ← R.read message
  if topic = "trial".toList then
    let subType ← field j ["msg".toList, "sub_type".toList]
    let trialId ← field j ["msg".toList, "trial_id".toList]
    let experimentId ← field j ["msg".toList, "experiment_id".toList]
    if subType = "start".toList then
      let clientInfo ← Json.getAt ["data".toList, "client_info".toList] j
      let participants ← playernames clientInfo.elements
      let (m, effects) := initializeParticipants participants trialId experimentId nextPid m
      .ok (m, .clearTrial trialId :: effects)
    else if subType = "stop".toList then .ok m.clearParticipants
    else .ok (m, [])
  else if topic = "agent/asr/final".toList then .ok (m, [.processASRMessage j])
  else .ok (m, [])

end Manager

/-! ## Well-formed messages -/

/-- What a message is about. -/
inductive TrialEvent (ν : Type)
  | start (trialId experimentId : Str) (participants : List Str)
  | stop
  | other
  | asr (m : Json ν)

/-- A payload of the `trial` topic: the three strings every such message has. -/
structure TrialMessage (R : Json.Reader ν) (payload : Bytes) (m : Json ν) (subType trialId experimentId : Str) :
    Prop where
  parsed : R.parse payload = some m
  subType : Json.getAt ["msg".toList, "sub_type".toList] m = .ok (.str subType)
  trialId : Json.getAt ["msg".toList, "trial_id".toList] m = .ok (.str trialId)
  experimentId : Json.getAt ["msg".toList, "experiment_id".toList] m = .ok (.str experimentId)

/-- Well-formed messages, topic and payload, and what they are about. -/
inductive Says (R : Json.Reader ν) : Str × Bytes → TrialEvent ν → Prop
  | start {payload : Bytes} {m : Json ν} {trialId experimentId : Str} {clients : List (Json ν)}
      {participants : List Str} (h : TrialMessage R payload m "start".toList trialId experimentId)
      (clientInfo : Json.getAt ["data".toList, "client_info".toList] m = .ok (.arr clients))
      (names : List.Forall₂ (fun client name => client.get "playername".toList = .ok (.str name)) clients
        participants) :
      Says R ("trial".toList, payload) (.start trialId experimentId participants)
  | stop {payload : Bytes} {m : Json ν} {trialId experimentId : Str}
      (h : TrialMessage R payload m "stop".toList trialId experimentId) : Says R ("trial".toList, payload) .stop
  | other {payload : Bytes} {m : Json ν} {subType trialId experimentId : Str}
      (h : TrialMessage R payload m subType trialId experimentId) (hstart : subType ≠ "start".toList)
      (hstop : subType ≠ "stop".toList) : Says R ("trial".toList, payload) .other
  | asr {payload : Bytes} {m : Json ν} (parsed : R.parse payload = some m) :
      Says R ("agent/asr/final".toList, payload) (.asr m)

/-! ## What a message does -/

namespace Manager

/-- The sessions of a start. -/
def newSessions (participants : List Str) (trialId experimentId : Str) (nextPid : Nat) : List OpensmileSession :=
  participants.mapIdx fun i participant => .new participant trialId experimentId (nextPid + i)

theorem newSessions_cons (participant : Str) (participants : List Str) (trialId experimentId : Str) (nextPid : Nat) :
    newSessions (participant :: participants) trialId experimentId nextPid =
      .new participant trialId experimentId nextPid :: newSessions participants trialId experimentId (nextPid + 1) := by
  simp only [newSessions, List.mapIdx_cons, Nat.add_zero, Nat.add_assoc, Nat.add_comm 1]

theorem newSessions_ids (participants : List Str) (trialId experimentId : Str) : ∀ nextPid : Nat,
    (newSessions participants trialId experimentId nextPid).map OpensmileSession.toIds =
      participants.map (⟨·, trialId, experimentId⟩) := by
  induction participants with
  | nil => intro; rfl
  | cons participant participants ih =>
    intro nextPid
    rw [newSessions_cons, List.map_cons, List.map_cons, ih]
    rfl

theorem newSessions_pid {participants : List Str} {trialId experimentId : Str} {nextPid : Nat}
    {s : OpensmileSession} (h : s ∈ newSessions participants trialId experimentId nextPid) :
    nextPid ≤ s.pid ∧ s.pid < nextPid + participants.length := by
  obtain ⟨i, hi, rfl⟩ := List.mem_mapIdx.mp h
  simp only [OpensmileSession.new]
  omega

theorem initializeParticipants_eq (trialId experimentId : Str) :
    ∀ (participants : List Str) (nextPid : Nat) (m : Manager),
      (initializeParticipants participants trialId experimentId nextPid m : Manager × List (Effect ν)) =
        ({ m with participantSessions :=
            m.participantSessions ++ newSessions participants trialId experimentId nextPid },
          (newSessions participants trialId experimentId nextPid).map Effect.fork)
  | [], nextPid, m => by simp [initializeParticipants, newSessions]
  | participant :: participants, nextPid, m => by
    rw [initializeParticipants, initializeParticipants_eq trialId experimentId participants, newSessions_cons]
    simp

theorem playernames_eq {clients : List (Json ν)} {participants : List Str}
    (h : List.Forall₂ (fun client name => client.get "playername".toList = .ok (.str name)) clients participants) :
    playernames clients = .ok participants := by
  induction h with
  | nil => rfl
  | cons hclient _ ih => simp only [playernames, hclient, ih, ok_bind, Json.toStr_str]

theorem field_of_getAt {m : Json ν} {keys : List Str} {s : Str} (h : Json.getAt keys m = .ok (.str s)) :
    field m keys = .ok s := by
  simp [field, h, bind, Except.bind]

/-- The Manager after a message, and the effects, by what the message says. -/
def handle (m : Manager) (nextPid : Nat) : TrialEvent ν → Manager × List (Effect ν)
  | .start trialId experimentId participants =>
    let sessions := newSessions participants trialId experimentId nextPid
    ({ m with participantSessions := m.participantSessions ++ sessions }, .clearTrial trialId :: sessions.map .fork)
  | .stop => m.clearParticipants
  | .other => (m, [])
  | .asr j => (m, [.processASRMessage j])

theorem onMessage_asr {R : Json.Reader ν} {topic : Str} {payload : Bytes} {j : Json ν} (hp : R.parse payload = some j)
    (htrial : topic ≠ "trial".toList) (hasr : topic = "agent/asr/final".toList) (nextPid : Nat) (m : Manager) :
    onMessage R topic payload nextPid m = .ok (m, [.processASRMessage j]) := by
  simp only [onMessage, Json.Reader.read, hp, ok_bind, if_neg htrial, if_pos hasr]

/-- On the topic `trial`, the sub type decides. -/
theorem onMessage_trial {R : Json.Reader ν} {payload : Bytes} {j : Json ν} {subType trialId experimentId : Str}
    (h : TrialMessage R payload j subType trialId experimentId) (nextPid : Nat) (m : Manager) :
    onMessage R "trial".toList payload nextPid m =
      if subType = "start".toList then do
        let clientInfo ← Json.getAt ["data".toList, "client_info".toList] j
        let participants ← playernames clientInfo.elements
        let (m, effects) := initializeParticipants participants trialId experimentId nextPid m
        .ok (m, .clearTrial trialId :: effects)
      else if subType = "stop".toList then .ok m.clearParticipants
      else .ok (m, []) := by
  rw [onMessage, Json.Reader.read, h.parsed]
  refine Eq.trans (ok_bind _ _) ((if_pos rfl).trans ?_)
  rw [field_of_getAt h.subType, ok_bind, field_of_getAt h.trialId, ok_bind, field_of_getAt h.experimentId, ok_bind]

/-- A start whose clients have names is handled. -/
theorem onMessage_clients {R : Json.Reader ν} {payload : Bytes} {j clientInfo : Json ν} {trialId experimentId : Str}
    {participants : List Str} (h : TrialMessage R payload j "start".toList trialId experimentId)
    (hclient : Json.getAt ["data".toList, "client_info".toList] j = .ok clientInfo)
    (hnames : playernames clientInfo.elements = .ok participants) (nextPid : Nat) (m : Manager) :
    onMessage R "trial".toList payload nextPid m =
      .ok (m.handle nextPid (.start trialId experimentId participants)) := by
  rw [onMessage_trial h, if_pos rfl, hclient, ok_bind, hnames, ok_bind, initializeParticipants_eq]
  rfl

theorem onMessage_eq {R : Json.Reader ν} {message : Str × Bytes} {e : TrialEvent ν} (h : Says R message e)
    (nextPid : Nat) (m : Manager) : onMessage R message.1 message.2 nextPid m = .ok (m.handle nextPid e) := by
  cases h with
  | start h clientInfo names =>
    exact onMessage_clients h clientInfo (playernames_eq names) nextPid m
  | stop h =>
    have hne : "stop".toList ≠ "start".toList := by decide +kernel
    rw [onMessage_trial h, if_neg hne, if_pos rfl]
    rfl
  | other h hstart hstop =>
    rw [onMessage_trial h, if_neg hstart, if_neg hstop]
    rfl
  | asr parsed =>
    exact onMessage_asr parsed (by decide +kernel) rfl nextPid m

/-- Whatever the message, the Manager throws or handles it as one of these. -/
theorem onMessage_handle {R : Json.Reader ν} {topic : Str} {message : Bytes} {nextPid : Nat} {m : Manager}
    {r : Manager × List (Effect ν)} (h : onMessage R topic message nextPid m = .ok r) :
    ∃ e : TrialEvent ν, r = m.handle nextPid e := by
  unfold onMessage at h
  obtain ⟨j, -, h⟩ := bind_eq_ok.mp h
  split at h
  · obtain ⟨subType, -, h⟩ := bind_eq_ok.mp h
    obtain ⟨trialId, -, h⟩ := bind_eq_ok.mp h
    obtain ⟨experimentId, -, h⟩ := bind_eq_ok.mp h
    split at h
    · obtain ⟨clientInfo, -, h⟩ := bind_eq_ok.mp h
      obtain ⟨participants, -, h⟩ := bind_eq_ok.mp h
      rw [initializeParticipants_eq] at h
      exact ⟨.start trialId experimentId participants, (Except.ok.inj h).symm⟩
    · split at h
      · exact ⟨.stop, (Except.ok.inj h).symm⟩
      · exact ⟨.other, (Except.ok.inj h).symm⟩
  · split at h
    · exact ⟨.asr j, (Except.ok.inj h).symm⟩
    · exact ⟨.other, (Except.ok.inj h).symm⟩

end Manager

end SpeechAnalyzer
