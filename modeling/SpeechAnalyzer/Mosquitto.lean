/-
`Mosquitto.cpp`, the wrapper of libmosquitto: connecting, subscribing, and the
loop with its reconnects.

The wrapper's calls to the library, with the results they came back with, and
to its virtual functions are its trace, and the broker's side of the
connection is what the trace leads to (`Connection.observe`).
-/
import SpeechAnalyzer.Lib.Mealy
import SpeechAnalyzer.Lib.Text

namespace SpeechAnalyzer

open Lib

/-- An error code of libmosquitto. -/
abbrev MosqErr := Int

def MOSQ_ERR_SUCCESS : MosqErr := 0
def MOSQ_ERR_CONN_LOST : MosqErr := 7

def MAX_NUM_RECONNECTIONS : Nat := 5

/-- A point of `steady_clock`, in nanoseconds. -/
abbrev Time := Nat

/-- What the wrapper calls: the library, with the result, and its own virtual
functions. -/
inductive MosqCall
  | mosquittoConnect (result : MosqErr)
  | mosquittoSubscribe (topic : Str) (result : MosqErr)
  | mosquittoLoop (result : MosqErr)
  | mosquittoReconnect (result : MosqErr)
  | onConnected
  | onError (errorMessage : Str)
  | onMessage (topic : Str) (message : Bytes)
  | onTimeOut
deriving DecidableEq, Repr

structure Mosquitto where
  running : Bool
  lastUpdatedTime : Time
  maxSecondsWithoutMessages : Nat
deriving DecidableEq, Repr

namespace Mosquitto

/-- `connect`, the loop: `results n` is what `mosquitto_connect` returns with
`n` trials to come. -/
def connectTrials (results : Nat → MosqErr) (m : Mosquitto) : Nat → Mosquitto × List MosqCall
  | 0 => (m, [])
  | trials + 1 =>
    if m.running then (m, [])
    else if results trials = MOSQ_ERR_SUCCESS then ({ m with running := true }, [.mosquittoConnect (results trials)])
    else
      let (m, calls) := connectTrials results m trials
      (m, .mosquittoConnect (results trials) :: calls)

def connect (results : Nat → MosqErr) (address : Str) (port trials : Nat) (m : Mosquitto) : Mosquitto × List MosqCall :=
  let (m, calls) := connectTrials results m trials
  if m.running then (m, calls)
  else
    (m, calls ++ [.onError ("It was not possible to establish connection with the message broker at ".toList ++
      address ++ ":".toList ++ (toString port).toList)])

def subscribe (topic : Str) (result : MosqErr) : List MosqCall :=
  .mosquittoSubscribe topic result ::
    if result = MOSQ_ERR_SUCCESS then []
    else [.onError ("It was not possible to subscribe to the topic ".toList ++ topic)]

/-- `on_connected`: empty, and overridden neither by `Manager` nor by
`OpensmileSession`. -/
def onConnected : List MosqCall := []

/-- `mosquitto_callback_on_connect`. -/
def callbackOnConnect (errorCode : Int) : List MosqCall :=
  match errorCode with
  | 0 => .onConnected :: onConnected
  | 1 => [.onError "Connection refused (unacceptable protocol version)".toList]
  | 2 => [.onError "Connection refused (identifier rejected)".toList]
  | 3 => [.onError "Connection refused (broker unavailable)".toList]
  | 5 => [.onError "Connection refused (Username/Password wrong) ".toList]
  | _ => [.onError ("Connection failed (Error code ".toList ++ (toString errorCode).toList ++ ")".toList)]

/-- A callback the library makes from `mosquitto_loop`: for a CONNACK with its
code, or for a message and the time it is handled. -/
inductive Callback
  | connect (errorCode : Int)
  | message (time : Time) (topic : Str) (payload : Bytes)
deriving DecidableEq, Repr

def callback (m : Mosquitto) : Callback → Mosquitto × List MosqCall
  | .connect errorCode => (m, callbackOnConnect errorCode)
  | .message time topic payload => ({ m with lastUpdatedTime := time }, [.onMessage topic payload])

def timeOut (m : Mosquitto) (currentTime : Time) : Bool :=
  (currentTime - m.lastUpdatedTime) / 1000000000 > m.maxSecondsWithoutMessages

/-- The wrapper inside `loop`: its counter, and whether the do-while goes on. -/
structure Loop extends Mosquitto where
  errorCounter : Nat
  looping : Bool
deriving DecidableEq, Repr

/-- The start of `loop`. -/
def startLoop (m : Mosquitto) (now : Time) : Loop :=
  { m with lastUpdatedTime := now, errorCounter := 0, looping := true }

/-- What one turn of the loop meets: the callbacks made by `mosquitto_loop` and
its result, the time and whether `running` was cleared from outside when it
returns, and the result of `mosquitto_reconnect` if that is called. -/
structure Round where
  callbacks : List Callback
  polled : MosqErr
  currentTime : Time
  stopped : Bool
  reconnected : MosqErr
deriving DecidableEq, Repr

/-- The wrapper when `loop` comes to `if (!this->running)`. -/
def polled (m : Mosquitto) (r : Round) : Mosquitto :=
  let m := (Mealy.run callback m r.callbacks).1
  { m with running := m.running && !r.stopped && !m.timeOut r.currentTime }

/-- The calls up to `if (!this->running)`. -/
def pollCalls (m : Mosquitto) (r : Round) : List MosqCall :=
  let (m, calls) := Mealy.run callback m r.callbacks
  calls ++ .mosquittoLoop r.polled :: if m.timeOut r.currentTime then [.onTimeOut] else []

/-- One turn of the do-while of `loop`. -/
def turn (tryReconnect : Bool) (l : Loop) (r : Round) : Loop × List MosqCall :=
  if l.looping then
    let m := l.toMosquitto.polled r
    let calls := l.toMosquitto.pollCalls r
    if m.running then
      if r.polled ≠ MOSQ_ERR_SUCCESS then
        if r.reconnected = MOSQ_ERR_SUCCESS then
          ({ m with errorCounter := l.errorCounter, looping := tryReconnect },
            calls ++ [.mosquittoReconnect r.reconnected])
        else if l.errorCounter + 1 > MAX_NUM_RECONNECTIONS then
          ({ m with running := false, errorCounter := l.errorCounter + 1, looping := false },
            calls ++ [.mosquittoReconnect r.reconnected,
              .onError "Maximum number of reconnection attempts was reached.".toList])
        else
          ({ m with errorCounter := l.errorCounter + 1, looping := tryReconnect },
            calls ++ [.mosquittoReconnect r.reconnected])
      else ({ m with errorCounter := 0, looping := tryReconnect }, calls)
    else ({ m with errorCounter := l.errorCounter, looping := false }, calls)
  else (l, [])

end Mosquitto

/-! ## The broker's side -/

/-- Where the connection stands for the client: a CONNACK accepted it, it waits
for the CONNACK, or there is none. -/
inductive Link
  | connected
  | connecting
  | lost
deriving DecidableEq, Repr

/-- The connection, and the topics the broker holds for the client. -/
structure Connection where
  link : Link
  subscriptions : List Str
deriving DecidableEq, Repr

/-- The client is created with `clean_session`: a connection starts without
subscriptions, and they go when it ends. Of several CONNACKs the first
counts. -/
def Connection.observe (k : Connection) : MosqCall → Connection
  | .mosquittoConnect result => if result = MOSQ_ERR_SUCCESS then ⟨.connecting, []⟩ else k
  | .mosquittoSubscribe topic result =>
    if result = MOSQ_ERR_SUCCESS then { k with subscriptions := k.subscriptions ++ [topic] } else k
  | .mosquittoLoop result => if result = MOSQ_ERR_SUCCESS then k else ⟨.lost, []⟩
  | .mosquittoReconnect result => if result = MOSQ_ERR_SUCCESS then ⟨.connecting, []⟩ else k
  | .onConnected => if k.link = .connecting then { k with link := .connected } else k
  | .onError _ | .onMessage .. | .onTimeOut => k

end SpeechAnalyzer
