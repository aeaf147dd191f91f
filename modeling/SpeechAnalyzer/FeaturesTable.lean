/-
The table `features` between the two sides of `DBWrapper`: an INSERT appends a
row, and `FeaturesBetween` turns the rows its query selects into JSON objects.

Numeric columns hold exact decimals. The order of the rows a query answers is
the database's own, so `FeaturesBetween` is over any answer.
-/
import SpeechAnalyzer.ColumnMap
import SpeechAnalyzer.SqlQuoting

namespace SpeechAnalyzer

open Lib

variable {ν : Type}

/-- A row: numbers under the columns of the features, and the five other columns. -/
structure Row where
  cells : List (Str × Decimal)
  secondsOffset : Option Decimal
  timestamp : Str
  participant : Option Str
  trialId : Option Str
  experimentId : Option Str
deriving DecidableEq, Repr

/-- The columns that are no features. -/
def fixedNames : List Str := ["seconds_offset".toList, "timestamp".toList, "participant".toList,
  "trial_id".toList, "experiment_id".toList]

structure Table where
  columns : List Str
  rows : List Row

/-! ## Writing -/

/-- A value for a numeric column. -/
def numberCell (text : Str) : Option (Option Decimal) :=
  if text = "null".toList then some none else (Decimal.read text).map some

/-- A value for a text column. -/
def textCell (text : Str) : Option (Option Str) :=
  if text = "null".toList then some none
  else
    match SqlText.readItem (replaceQuotes text) with
    | some (.text s, []) => some (some s)
    | _ => none

/-- The row of an INSERT: `none` when a value is not one of its column. -/
def Insert.row (i : Insert) (utcTimestamp : Str) : Option Row := do
  let values ← i.values.mapM Decimal.read
  let secondsOffset ← numberCell i.time
  let participant ← textCell i.participant
  let trialId ← textCell i.trialId
  let experimentId ← textCell i.experimentId
  some { cells := i.columns.zip values, secondsOffset, timestamp := utcTimestamp, participant, trialId, experimentId }

/-- An INSERT appends its row; one with an unknown or repeated column is an error. -/
def Table.insert (t : Table) (i : Insert) (utcTimestamp : Str) : Table :=
  match i.row utcTimestamp with
  | some row =>
    if i.columns.Nodup ∧ ∀ c ∈ i.columns, c ∈ t.columns ∧ c ∉ fixedNames then { t with rows := t.rows ++ [row] }
    else t
  | none => t

/-- The row an INSERT leaves in a table with these columns. -/
def Insert.storedRow (columns : List Str) (i : Insert) (utcTimestamp : Str) : Option Row :=
  if i.columns.Nodup ∧ ∀ c ∈ i.columns, c ∈ columns ∧ c ∉ fixedNames then i.row utcTimestamp else none

theorem insert_eq (t : Table) (i : Insert) (utcTimestamp : Str) :
    t.insert i utcTimestamp = { t with rows := t.rows ++ (i.storedRow t.columns utcTimestamp).toList } := by
  rw [Table.insert, Insert.storedRow]
  cases hrow : i.row utcTimestamp with
  | none => simp
  | some row =>
    by_cases hcolumns : i.columns.Nodup ∧ ∀ c ∈ i.columns, c ∈ t.columns ∧ c ∉ fixedNames
    · simp only [if_pos hcolumns, Option.toList_some]
    · simp only [if_neg hcolumns, Option.toList_none, List.append_nil]

/-! ## Reading -/

/-- `PQgetvalue`: the text of a cell, empty for NULL. -/
def Row.cellText (row : Row) (column : Str) : Str :=
  if column = "seconds_offset".toList then (row.secondsOffset.map Decimal.print).getD []
  else if column = "timestamp".toList then row.timestamp
  else if column = "participant".toList then row.participant.getD []
  else if column = "trial_id".toList then row.trialId.getD []
  else if column = "experiment_id".toList then row.experimentId.getD []
  else ((row.cells.lookup column).map Decimal.print).getD []

/-- `seconds_offset >= $1 and seconds_offset <= $2 and participant = $3 and trial_id = $4`. -/
def Row.Selected (startTime endTime : Decimal) (participantId trialId : Str) (row : Row) : Prop :=
  (∃ x ∈ row.secondsOffset, startTime.value ≤ x.value ∧ x.value ≤ endTime.value) ∧
    row.participant = some participantId ∧ row.trialId = some trialId

instance (startTime endTime : Decimal) (participantId trialId : Str) (row : Row) :
    Decidable (row.Selected startTime endTime participantId trialId) :=
  inferInstanceAs (Decidable ((∃ x ∈ row.secondsOffset, _) ∧ _ ∧ _))

/-- The rows `CHUNK_EXTRACT` selects for its four parameter texts, in table
order; none when a bound is not a number. -/
def Table.chunkExtract (t : Table) (startText endText participantId trialId : Str) : List Row :=
  match Decimal.read startText, Decimal.read endText with
  | some startTime, some endTime => t.rows.filter fun row => row.Selected startTime endTime participantId trialId
  | _, _ => []

/-- A column the map knows becomes a field of the object. -/
def assignColumn (D : Doubles ν) (columnMap : ColumnMap) (row : Row) (message : Json ν) (column : Str) :
    Except Exn (Json ν) :=
  match columnMap.lookup column with
  | none => .ok message
  | some field => Json.setAt [field] (.num (D.atof (row.cellText column))) message

/-- The object of a row: the inner loop over the columns. -/
def rowMessage (D : Doubles ν) (columnMap : ColumnMap) (columns : List Str) (row : Row) : Except Exn (Json ν) :=
  columns.foldlM (assignColumn D columnMap row) .null

/-- `c_str()`, as the C functions read it. -/
def cString (s : Str) : Str := s.takeWhile (· ≠ '\x00')

/-- `FeaturesBetween`. The strings of the two bounds are gone before the query
runs: `bounds` are the texts their pointers then lead to. `query` answers the
prepared statement. -/
def DBWrapper.featuresBetween (D : Doubles ν) (columnMap : ColumnMap) (columns : List Str)
    (query : Str → Str → Str → Str → List Row) (bounds : Str × Str) (participantId trialId : Str) :
    Except Exn (List (Json ν)) :=
  (query bounds.1 bounds.2 (cString participantId) (cString trialId)).mapM (rowMessage D columnMap columns)

/-- `ClearTrial`: the DELETE of a trial's rows, from a list of things that have
a row each. -/
def DBWrapper.clearTrial {ρ : Type} (row : ρ → Row) (trialId : Str) (rows : List ρ) : List ρ :=
  rows.filter fun x => (row x).trialId ≠ some (cString trialId)

end SpeechAnalyzer
