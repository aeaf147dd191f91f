/-
`OpensmileProcessor.cpp`: the parser of openSMILE's log. `ProcessOpensmileLog`
takes one log message, sorts it by substring search, and accumulates into one
JSON message that it never clears; the first `lld` line after a `tmeta:` block
publishes what has accumulated.

An exception leaves the call with the state as it is at that point; whether
further messages follow is up to the caller, so a run is over any list.
-/
import SpeechAnalyzer.Lib.Mealy
import SpeechAnalyzer.DBWrapper

namespace SpeechAnalyzer

open Lib

variable {ν : Type}

/-- `OpensmileProcessor`, with the column map of its database object. -/
structure Processor (ν : Type) where
  participantId : Str
  trialId : Str
  experimentId : Str
  opensmileMessage : Json ν := .null
  tmeta : Bool := false
  columnMap : ColumnMap

/-- A log message, and the clock at the two places a publish reads it. -/
structure LogMessage where
  text : Str
  headerTime : Str
  msgTime : Str

/-- What a call does beyond its state: hand a message to `PublishChunk`
(which sends an INSERT, unless it throws), or throw. -/
inductive Event (ν : Type)
  | published (message : Json ν) (insert : Option Insert)
  | thrown (e : Exn)

structure Outcome (ν : Type) where
  state : Processor ν
  events : List (Event ν) := []
  ok : Bool := true

/-- The next statement, unless an exception is on its way. -/
def Outcome.andThen (o : Outcome ν) (f : Processor ν → Outcome ν) : Outcome ν :=
  if o.ok then
    let r := f o.state
    { r with events := o.events ++ r.events }
  else o

def Outcome.throw (s : Processor ν) (e : Exn) : Outcome ν :=
  { state := s, events := [.thrown e], ok := false }

namespace Processor

/-- `opensmile_message[k₁][k₂]… = v`. -/
def assign (p : List Str) (v : Json ν) (s : Processor ν) : Outcome ν :=
  match Json.setAt p v s.opensmileMessage with
  | .ok j => { state := { s with opensmileMessage := j } }
  | .error e => .throw s e

/-- `postgres->PublishChunk(opensmile_message)`. -/
def publishChunk (D : Doubles ν) (s : Processor ν) : Outcome ν :=
  match DBWrapper.publishChunk D s.columnMap s.opensmileMessage with
  | .ok (insert, columnMap) =>
    { state := { s with columnMap := columnMap }, events := [.published s.opensmileMessage insert] }
  | .error e =>
    { state := s, events := [.published s.opensmileMessage none, .thrown e], ok := false }

/-- `create_common_header`. -/
def createCommonHeader (timestamp messageType : Str) : Json ν :=
  .obj (KeyMap.putAll [("timestamp".toList, .str timestamp), ("message_type".toList, .str messageType),
    ("version".toList, .str "1.1".toList)] [])

/-- `create_common_msg`. -/
def createCommonMsg (s : Processor ν) (timestamp subType : Str) : Json ν :=
  .obj (KeyMap.putAll [("timestamp".toList, .str timestamp), ("experiment_id".toList, .str s.experimentId),
    ("trial_id".toList, .str s.trialId), ("version".toList, .str "0.6".toList),
    ("source".toList, .str "tomcat_speech_analyzer".toList), ("sub_type".toList, .str subType)] [])

end Processor

/-- The text without its spaces. -/
def despace (text : Str) : Str := text.filter (· ≠ ' ')

/-- `temp.find(word) != string::npos`. -/
def Contains (word temp : Str) : Prop := word <:+: temp

instance (word temp : Str) : Decidable (Contains word temp) := inferInstanceAs (Decidable (word <:+: temp))

theorem Contains.length_le {word temp : Str} (h : Contains word temp) : word.length ≤ temp.length :=
  List.IsInfix.length_le h

/-- `s.substr(0, s.find('='))`; all of `s` when there is no `=`. -/
def fieldOf (s : Str) : Str :=
  match s.idxOf? '=' with
  | some equalsIndex => s.take equalsIndex
  | none => s

/-- `s.substr(s.find('=') + 1)`; `npos + 1` is zero, so all of `s` when there is no `=`. -/
def valueOf (s : Str) : Str :=
  match s.idxOf? '=' with
  | some equalsIndex => s.drop (equalsIndex + 1)
  | none => s

/-- The first `[` and the first `]` as parentheses, when there are both. -/
def parenthesize (field : Str) : Str :=
  match field.idxOf? '[', field.idxOf? ']' with
  | some opening, some closing => (field.set opening '(').set closing ')'
  | _, _ => field

/-- `s.substr(pos)`. -/
def substr (pos : Nat) (s : Str) : Except Exn Str :=
  if pos ≤ s.length then .ok (s.drop pos) else .error .outOfRange

namespace Processor

/-- Lines 37 to 43: publish, then fill in the ids, then leave the `tmeta` state. -/
def publish (D : Doubles ν) (m : LogMessage) (s : Processor ν) : Outcome ν :=
  ((((s.publishChunk D).andThen fun s =>
    s.assign ["data".toList, "participant_id".toList] (.str s.participantId)).andThen fun s =>
    s.assign ["header".toList] (createCommonHeader m.headerTime "observation".toList)).andThen fun s =>
    s.assign ["msg".toList] (s.createCommonMsg m.msgTime "openSMILE".toList)).andThen fun s =>
    { state := { s with tmeta := false } }

/-- Lines 46 to 49. -/
def assignField (D : Doubles ν) (temp : Str) (s : Processor ν) : Outcome ν :=
  s.assign ["data".toList, "tmeta".toList, fieldOf temp] (.num (D.atof (valueOf temp)))

/-- Lines 54 to 68. -/
def assignLld (D : Doubles ν) (temp : Str) (s : Processor ν) : Outcome ν :=
  match substr 4 temp with
  | .error e => .throw s e
  | .ok lld =>
    s.assign ["data".toList, "features".toList, "lld".toList, parenthesize (fieldOf lld)]
      (.num (D.atof (valueOf lld)))

/-- Lines 35 to 51. -/
def tmetaBlock (D : Doubles ν) (m : LogMessage) (temp : Str) (s : Processor ν) : Outcome ν :=
  if s.tmeta then
    (if Contains "lld".toList temp then s.publish D m else { state := s }).andThen fun s =>
      if s.tmeta then s.assignField D temp else { state := s }
  else { state := s }

/-- Lines 53 to 69. -/
def lldBlock (D : Doubles ν) (temp : Str) (s : Processor ν) : Outcome ν :=
  if Contains "lld".toList temp then s.assignLld D temp else { state := s }

/-- Lines 71 to 73. -/
def flagBlock (temp : Str) (s : Processor ν) : Outcome ν :=
  if Contains "tmeta:".toList temp then { state := { s with tmeta := true } } else { state := s }

/-- `OpensmileProcessor::ProcessOpensmileLog`. -/
def processOpensmileLog (D : Doubles ν) (s : Processor ν) (m : LogMessage) : Outcome ν :=
  let temp := despace m.text
  ((s.tmetaBlock D m temp).andThen fun s => s.lldBlock D temp).andThen fun s => s.flagBlock temp

/-- One log message as a step. -/
def step (D : Doubles ν) (s : Processor ν) (m : LogMessage) : Processor ν × List (Event ν) :=
  ((s.processOpensmileLog D m).state, (s.processOpensmileLog D m).events)

/-- A new processor, and all it does on a list of log messages. -/
def events (D : Doubles ν) (participantId trialId experimentId : Str) (columnMap : ColumnMap)
    (ms : List LogMessage) : List (Event ν) :=
  (Mealy.run (step D) { participantId, trialId, experimentId, columnMap } ms).2

end Processor

end SpeechAnalyzer
