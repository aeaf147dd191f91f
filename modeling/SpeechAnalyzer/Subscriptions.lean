/-
The topics the broker holds for a client, over any run of `Mosquitto::loop`.

A client subscribes once, in its constructor, and `on_connected` does nothing.
A connection made by `mosquitto_reconnect` starts without subscriptions and
gets none, so the topics are there as long as no such connection is accepted.
-/
import SpeechAnalyzer.Mosquitto

namespace SpeechAnalyzer

open Lib Mosquitto

/-- The agent's clients. -/
inductive Client
  | manager
  | opensmileSession (participantId : Str)
deriving DecidableEq, Repr

/-- What the constructor subscribes to. -/
def Client.topics : Client → List Str
  | .manager => ["trial".toList, "agent/asr/final".toList]
  | .opensmileSession participantId => [participantId]

def Client.maxSecondsWithoutMessages : Client → Nat
  | .manager => 100000000
  | .opensmileSession _ => 10000

/-- A client in its loop and its connection. -/
structure ClientState where
  loop : Loop
  connection : Connection
deriving DecidableEq, Repr

namespace ClientState

/-- One turn of the loop, and what the broker makes of it. -/
def step (s : ClientState) (r : Round) : ClientState × List MosqCall :=
  let (l, calls) := turn true s.loop r
  (⟨l, calls.foldl Connection.observe s.connection⟩, calls)

def run (s : ClientState) (rounds : List Round) : ClientState := (Mealy.run step s rounds).1

/-- Connected and subscribed, with the loop running. -/
structure Ready (c : Client) (s : ClientState) : Prop where
  running : s.loop.running = true
  looping : s.loop.looping = true
  link : s.connection.link = .connected
  topics : ∀ topic ∈ c.topics, topic ∈ s.connection.subscriptions

/-- Once connected and as long as the loop goes on, the broker holds the
client's topics. -/
def Subscribed (c : Client) (s : ClientState) : Prop :=
  s.connection.link = .connected → s.loop.looping = true → ∀ topic ∈ c.topics, topic ∈ s.connection.subscriptions

/-- The round accepts the connection a reconnect made, and the loop goes on. -/
structure Reconnects (s : ClientState) (r : Round) : Prop where
  looping : s.loop.looping = true
  waiting : s.connection.link = .connecting
  accepted : .connect 0 ∈ r.callbacks
  polled : r.polled = MOSQ_ERR_SUCCESS
  goesOn : (s.loop.toMosquitto.polled r).running = true

end ClientState

/-- The constructor up to the loop. The broker handles what it sends in order,
so a subscription needs no CONNACK before it. -/
def Client.start (c : Client) (address : Str) (port : Nat) (connects : Nat → MosqErr) (subscribes : Str → MosqErr)
    (now : Time) : ClientState :=
  let (m, calls) := Mosquitto.connect connects address port 1000 ⟨false, 0, c.maxSecondsWithoutMessages⟩
  let calls := calls ++ c.topics.flatMap fun topic => Mosquitto.subscribe topic (subscribes topic)
  ⟨startLoop m now, calls.foldl Connection.observe ⟨.lost, []⟩⟩

/-! ## What a turn does to the connection -/

/-- The connection after the callbacks of a poll. -/
def Connection.acknowledge (k : Connection) (callbacks : List Callback) : Connection :=
  if k.link = .connecting ∧ .connect 0 ∈ callbacks then { k with link := .connected } else k

theorem callbackOnConnect_ne_zero {errorCode : Int} (h : errorCode ≠ 0) :
    ∃ errorMessage, callbackOnConnect errorCode = [.onError errorMessage] := by
  unfold callbackOnConnect
  split
  · contradiction
  all_goals exact ⟨_, rfl⟩

theorem observe_callback (k : Connection) (m : Mosquitto) (cb : Callback) :
    (callback m cb).2.foldl Connection.observe k = k.acknowledge [cb] := by
  cases cb with
  | message time topic payload => simp [callback, Connection.observe, Connection.acknowledge]
  | connect errorCode =>
    by_cases h0 : errorCode = 0
    · subst h0
      simp [callback, callbackOnConnect, onConnected, Connection.observe, Connection.acknowledge]
    · obtain ⟨errorMessage, he⟩ := callbackOnConnect_ne_zero h0
      have hne : (Callback.connect 0) ≠ .connect errorCode := fun h => h0 (Callback.connect.inj h).symm
      simp only [callback, he, List.foldl_cons, List.foldl_nil, Connection.observe, Connection.acknowledge,
        List.mem_singleton, hne, and_false, if_false]

theorem acknowledge_cons (k : Connection) (cb : Callback) (cbs : List Callback) :
    (k.acknowledge [cb]).acknowledge cbs = k.acknowledge (cb :: cbs) := by
  obtain ⟨link, subscriptions⟩ := k
  simp only [Connection.acknowledge, List.mem_cons]
  by_cases hcb : Callback.connect 0 = cb
  · cases link <;> simp [hcb]
  · simp [hcb]

theorem observe_callbacks : ∀ (k : Connection) (m : Mosquitto) (cbs : List Callback),
    (Mealy.run callback m cbs).2.foldl Connection.observe k = k.acknowledge cbs
  | k, m, [] => by simp [Connection.acknowledge]
  | k, m, cb :: cbs => by
    rw [Mealy.run_cons, List.foldl_append, observe_callback, observe_callbacks, acknowledge_cons]

theorem observe_pollCalls (k : Connection) (m : Mosquitto) (r : Round) :
    (m.pollCalls r).foldl Connection.observe k =
      if r.polled = MOSQ_ERR_SUCCESS then k.acknowledge r.callbacks else ⟨.lost, []⟩ := by
  simp only [pollCalls, List.foldl_append, List.foldl_cons, observe_callbacks, Connection.observe]
  split <;> split <;> rfl

theorem turn_polled {l : Loop} {r : Round} (hl : l.looping = true) (hp : r.polled = MOSQ_ERR_SUCCESS) :
    (turn true l r).1.toMosquitto = l.toMosquitto.polled r ∧
      (turn true l r).1.looping = (l.toMosquitto.polled r).running ∧
      (turn true l r).2 = l.toMosquitto.pollCalls r := by
  unfold turn
  simp only [if_pos hl, if_neg (not_not.mpr hp)]
  split
  · next hr => exact ⟨rfl, hr.symm, rfl⟩
  · next hr => exact ⟨rfl, (Bool.eq_false_iff.mpr hr).symm, rfl⟩

/-- After a failed poll: nothing, a reconnect, or a reconnect that is reported
as the last. -/
theorem turn_failed {l : Loop} {r : Round} (hl : l.looping = true) (hp : r.polled ≠ MOSQ_ERR_SUCCESS) :
    ∃ calls, (turn true l r).2 = l.toMosquitto.pollCalls r ++ calls ∧
      (calls = [] ∨ calls = [.mosquittoReconnect r.reconnected] ∨
        ∃ errorMessage, calls = [.mosquittoReconnect r.reconnected, .onError errorMessage]) := by
  unfold turn
  simp only [if_pos hl, if_pos hp]
  split
  · split
    · exact ⟨_, rfl, .inr (.inl rfl)⟩
    · split
      · exact ⟨_, rfl, .inr (.inr ⟨_, rfl⟩)⟩
      · exact ⟨_, rfl, .inr (.inl rfl)⟩
  · exact ⟨[], (List.append_nil _).symm, .inl rfl⟩

theorem observe_reconnect (result : MosqErr) :
    (Connection.observe ⟨.lost, []⟩ (.mosquittoReconnect result)).link ≠ .connected ∧
      (Connection.observe ⟨.lost, []⟩ (.mosquittoReconnect result)).subscriptions = [] := by
  simp only [Connection.observe]
  split <;> simp

/-- What one turn does. -/
theorem ClientState.step_cases (s : ClientState) (r : Round) :
    (s.loop.looping = false ∧ (s.step r).1 = s) ∨
    (s.loop.looping = true ∧ r.polled = MOSQ_ERR_SUCCESS ∧
      (s.step r).1.connection = s.connection.acknowledge r.callbacks ∧
      (s.step r).1.loop.looping = (s.loop.toMosquitto.polled r).running) ∨
    (s.loop.looping = true ∧ r.polled ≠ MOSQ_ERR_SUCCESS ∧ (s.step r).1.connection.link ≠ .connected ∧
      (s.step r).1.connection.subscriptions = []) := by
  have hk : (s.step r).1.connection = (turn true s.loop r).2.foldl Connection.observe s.connection := rfl
  cases hl : s.loop.looping with
  | false =>
    refine .inl ⟨rfl, ?_⟩
    unfold ClientState.step turn
    rw [hl]
    rfl
  | true =>
    refine .inr ?_
    by_cases hp : r.polled = MOSQ_ERR_SUCCESS
    · obtain ⟨-, hloop, hcalls⟩ := turn_polled hl hp
      rw [hcalls, observe_pollCalls, if_pos hp] at hk
      exact .inl ⟨rfl, hp, hk, hloop⟩
    · obtain ⟨calls, hcalls, hcases⟩ := turn_failed hl hp
      rw [hcalls, List.foldl_append, observe_pollCalls, if_neg hp] at hk
      refine .inr ⟨rfl, hp, ?_⟩
      rcases hcases with rfl | rfl | ⟨errorMessage, rfl⟩
      · rw [hk]
        exact ⟨by decide, rfl⟩
      · rw [hk]
        exact observe_reconnect r.reconnected
      · rw [hk]
        exact observe_reconnect r.reconnected

/-! ## The constructors -/

/-- A trial that succeeds leaves the client waiting for its CONNACK. -/
theorem connectTrials_connects {connects : Nat → MosqErr} {m : Mosquitto} (hm : m.running = false) :
    ∀ {trials n : Nat}, n < trials → connects n = MOSQ_ERR_SUCCESS →
      (connectTrials connects m trials).1.running = true ∧
        (connectTrials connects m trials).2.foldl Connection.observe ⟨.lost, []⟩ = ⟨.connecting, []⟩
  | 0, _, hn, _ => absurd hn (Nat.not_lt_zero _)
  | trials + 1, n, hn, hs => by
    unfold connectTrials
    rw [if_neg (by rw [hm]; decide)]
    by_cases h : connects trials = MOSQ_ERR_SUCCESS
    · rw [if_pos h, h]
      exact ⟨rfl, rfl⟩
    · rw [if_neg h]
      have hlt : n < trials := by
        rcases Nat.lt_succ_iff_lt_or_eq.mp hn with hlt | rfl
        · exact hlt
        · exact absurd hs h
      obtain ⟨hrun, htrace⟩ := connectTrials_connects hm hlt hs
      refine ⟨hrun, ?_⟩
      rw [List.foldl_cons, Connection.observe, if_neg h]
      exact htrace

theorem observe_subscribes : ∀ (k : Connection) (topics : List Str),
    (topics.flatMap fun topic => Mosquitto.subscribe topic MOSQ_ERR_SUCCESS).foldl Connection.observe k =
      ⟨k.link, k.subscriptions ++ topics⟩
  | k, [] => by simp
  | k, topic :: topics => by
    rw [List.flatMap_cons, List.foldl_append, observe_subscribes]
    simp [Mosquitto.subscribe, Connection.observe]

theorem Client.start_connection (c : Client) (address : Str) (port : Nat) {connects : Nat → MosqErr} {n : Nat}
    (hn : n < 1000) (hs : connects n = MOSQ_ERR_SUCCESS) (now : Time) :
    (c.start address port connects (fun _ => MOSQ_ERR_SUCCESS) now).connection = ⟨.connecting, c.topics⟩ := by
  obtain ⟨hrun, htrace⟩ := connectTrials_connects (m := ⟨false, 0, c.maxSecondsWithoutMessages⟩) rfl hn hs
  simp only [Client.start, Mosquitto.connect, hrun, if_true, List.foldl_append, htrace, observe_subscribes,
    List.nil_append]

/-- A client whose constructor could connect and subscribe is ready once a
turn has accepted its connection. -/
theorem Client.start_ready (c : Client) (address : Str) (port : Nat) {connects : Nat → MosqErr} {n : Nat}
    (hn : n < 1000) (hs : connects n = MOSQ_ERR_SUCCESS) (now : Time) {r : Round}
    (hr : (c.start address port connects (fun _ => MOSQ_ERR_SUCCESS) now).Reconnects r) :
    ((c.start address port connects (fun _ => MOSQ_ERR_SUCCESS) now).step r).1.Ready c := by
  have hk := c.start_connection address port hn hs now
  generalize c.start address port connects (fun _ => MOSQ_ERR_SUCCESS) now = s at hr hk ⊢
  obtain ⟨hm, hloop, hcalls⟩ := turn_polled hr.looping hr.polled
  have hconn : (s.step r).1.connection = ⟨.connected, c.topics⟩ := by
    show (turn true s.loop r).2.foldl Connection.observe s.connection = _
    rw [hcalls, observe_pollCalls, if_pos hr.polled, hk, Connection.acknowledge, if_pos ⟨rfl, hr.accepted⟩]
  refine { running := ?_, looping := hloop.trans hr.goesOn, link := by rw [hconn], topics := ?_ }
  · show (turn true s.loop r).1.toMosquitto.running = true
    rw [hm]
    exact hr.goesOn
  · rw [hconn]
    exact fun _ => id

/-! ## Over a run -/

/-- A connection that waits for its CONNACK has no subscriptions. -/
def ClientState.Clean (s : ClientState) : Prop := s.connection.link = .connecting → s.connection.subscriptions = []

theorem ClientState.step_clean (s : ClientState) (r : Round) (h : s.Clean) : (s.step r).1.Clean := by
  rcases s.step_cases r with ⟨-, hs⟩ | ⟨-, -, hk, -⟩ | ⟨-, -, -, hsubs⟩
  · rw [hs]
    exact h
  · intro hlink
    rw [hk] at hlink ⊢
    unfold Connection.acknowledge at hlink ⊢
    split at hlink
    · cases hlink
    · next hack =>
      rw [if_neg hack]
      exact h hlink
  · exact fun _ => hsubs

theorem ClientState.step_subscribed {c : Client} {s : ClientState} {r : Round} (h : s.Subscribed c)
    (hr : ¬ s.Reconnects r) : (s.step r).1.Subscribed c := by
  intro hlink hloop
  rcases s.step_cases r with ⟨-, hs⟩ | ⟨hl, hp, hk, hrun⟩ | ⟨-, -, hlost, -⟩
  · rw [hs] at hlink hloop ⊢
    exact h hlink hloop
  · have hack : ¬ (s.connection.link = .connecting ∧ .connect 0 ∈ r.callbacks) := by
      intro hparts
      obtain ⟨hwait, hacc⟩ := hparts
      exact hr ⟨hl, hwait, hacc, hp, hrun ▸ hloop⟩
    rw [hk, Connection.acknowledge, if_neg hack] at hlink ⊢
    exact h hlink hl
  · exact absurd hlink hlost

/-- A reconnect leaves the client connected and without a topic. -/
theorem ClientState.step_reconnects {c : Client} {s : ClientState} {r : Round} (h : s.Clean) (hr : s.Reconnects r) :
    ¬ (s.step r).1.Subscribed c := by
  intro hsub
  rcases s.step_cases r with ⟨hl, -⟩ | ⟨-, -, hk, hrun⟩ | ⟨-, hp, -⟩
  · rw [hr.looping] at hl
    cases hl
  · rw [Connection.acknowledge, if_pos ⟨hr.waiting, hr.accepted⟩] at hk
    have hall := hsub (by rw [hk]) (by rw [hrun, hr.goesOn])
    rw [hk, h hr.waiting] at hall
    cases c with
    | manager => exact absurd (hall "trial".toList (by simp [Client.topics])) (by simp)
    | opensmileSession p => exact absurd (hall p (by simp [Client.topics])) (by simp)
  · exact absurd hr.polled hp

theorem ClientState.run_clean {s : ClientState} (h : s.Clean) (rounds : List Round) : (s.run rounds).Clean :=
  (Mealy.run_inv (O := fun _ => True) (fun s r h => ⟨s.step_clean r h, fun _ _ => trivial⟩) rounds h).1

/-- **A connected and subscribed client has its topics in every state of a run
of the loop in which it is connected and the loop goes on exactly when the run
accepts no connection of a reconnect.** -/
theorem subscribed_iff (c : Client) (s : ClientState) (h : s.Ready c) (rounds : List Round) :
    (∀ done, done <+: rounds → (s.run done).Subscribed c) ↔
      ∀ done r, done ++ [r] <+: rounds → ¬ (s.run done).Reconnects r := by
  refine ⟨?_, ?_⟩
  · intro hsub done r hdone hr
    have hclean : s.Clean := fun hw => absurd (h.link.symm.trans hw) (by decide)
    have hbroken := ClientState.step_reconnects (c := c) (ClientState.run_clean hclean done) hr
    apply hbroken
    have := hsub (done ++ [r]) hdone
    rwa [ClientState.run, Mealy.run_concat] at this
  · intro hnone done hdone
    exact Mealy.run_inv_of_guard (I := ClientState.Subscribed c) (C := fun s r => ¬ s.Reconnects r)
      (fun s r hs hr => ClientState.step_subscribed hs hr) (fun _ _ => h.topics) hnone done hdone

/-- The Manager's client after its constructor and the first CONNACK. -/
def readyManager : ClientState where
  loop := startLoop ⟨true, 0, Client.maxSecondsWithoutMessages .manager⟩ 0
  connection := ⟨.connected, Client.topics .manager⟩

/-- The connection is lost and a reconnect succeeds; the CONNACK comes. -/
def lossAndReconnect : List Round := [
  { callbacks := [], polled := MOSQ_ERR_CONN_LOST, currentTime := 0, stopped := false,
    reconnected := MOSQ_ERR_SUCCESS },
  { callbacks := [.connect 0], polled := MOSQ_ERR_SUCCESS, currentTime := 0, stopped := false,
    reconnected := MOSQ_ERR_SUCCESS }]

theorem readyManager_ready : readyManager.Ready .manager := by
  constructor <;> decide +kernel

theorem subscribed_iff_manager :
    readyManager.Ready .manager ∧
      ((∀ done, done <+: lossAndReconnect → (readyManager.run done).Subscribed .manager) ↔
        ∀ done r, done ++ [r] <+: lossAndReconnect → ¬ (readyManager.run done).Reconnects r) :=
  ⟨readyManager_ready, subscribed_iff .manager readyManager readyManager_ready lossAndReconnect⟩

theorem reconnect_unsubscribed :
    readyManager.Ready .manager ∧
      (readyManager.run lossAndReconnect).connection = ⟨.connected, []⟩ ∧
      (readyManager.run lossAndReconnect).loop.looping = true ∧
      ¬ (readyManager.run lossAndReconnect).Subscribed .manager := by
  refine ⟨readyManager_ready, by decide +kernel, by decide +kernel, fun h => ?_⟩
  have htopic := h (by decide +kernel) (by decide +kernel) "trial".toList (by decide +kernel)
  revert htopic
  decide +kernel

end SpeechAnalyzer
