/-
From openSMILE's lines to the MMC server: the sessions of a trial write their
frames, and an ASR message of one of them is sent with each word's features.

Between the two lie the log's lines in any order with those of the other
sessions, the message that is never cleared, the INSERTs, the query, and the
lists of `ProcessASRMessage`. What comes out at a word is the frames of its own
session in its interval, less the first, which goes out without ids, and the
last, which nothing publishes (`chunkExtract_frames`, `find_features_of_rows`).
-/
import SpeechAnalyzer.Recording
import SpeechAnalyzer.RowOrder
import SpeechAnalyzer.ValueFidelity

namespace SpeechAnalyzer

open Lib ASRProcessor

variable {ν : Type}

/-! ## What a log of frames publishes -/

/-- A frame as the accumulator holds it. -/
def Frame.view (atof : Str → ν) (ids : Option Ids) (f : Frame) : View ν where
  tmeta := KeyMap.putAll (f.tmeta atof) []
  lld := KeyMap.putAll (f.features atof) []
  ids := ids

section Frames

variable (atof : Str → ν) (ids : Ids)

end Frames

/-! ## The rows of a log of frames -/

/-- The time a frame prints. -/
def Frame.time (f : Frame) : Decimal := Decimal.scan ((f.fields.lookup "time".toList).getD [])

/-- A feature of a frame, to six digits. -/
def Frame.value (f : Frame) (name : Str) : Decimal :=
  (((f.features Decimal.scan).lookup name).getD ⟨0, 0⟩).round6

/-- The row holds the frame's features and its time, for this participant and trial. -/
def Row.Shows (P : DecimalPrinter) (columnMap : ColumnMap) (pairs : List (Str × Str)) (ids : Ids) (row : Row)
    (f : Frame) : Prop :=
  ∃ c : Call pairs, row = c.row P columnMap ∧ c.features = (f.view Decimal.scan none).lld ∧ c.time = f.time ∧
    c.ids = ids

section FrameRows

variable {P : DecimalPrinter} {pairs : List (Str × Str)} {columnMap : ColumnMap} {columns : List Str} {ids : Ids}
  {f : Frame}

/-- The frame's time is in the interval, its bounds rounded to six digits. -/
def Frame.Within (startTime endTime : Decimal) (f : Frame) : Prop :=
  startTime.round6.value ≤ f.time.value ∧ f.time.value ≤ endTime.round6.value

instance (startTime endTime : Decimal) (f : Frame) : Decidable (f.Within startTime endTime) :=
  inferInstanceAs (Decidable (_ ∧ _))

end FrameRows

/-! ## The sessions of a trial -/

section Sessions

variable {P : DecimalPrinter} {pairs : List (Str × Str)} {columnMap : ColumnMap} {κ : Type} [DecidableEq κ]
  {ids : κ → Ids} {t : Table} {ds : List (κ × Delivery)} {frames : List Frame} {k : κ}

end Sessions

/-! ## Two sessions -/

def mfccTable : Table := ⟨mfccPairs.map Prod.snd ++ fixedNames, []⟩

/-- The bounds of the two words. -/
def wordBounds (n : ℕ) : Str × Str :=
  if n = 0 then ((⟨0, 0⟩ : Decimal).toFixed, (⟨1, 0⟩ : Decimal).toFixed)
  else ((⟨1, 0⟩ : Decimal).toFixed, (⟨2, 0⟩ : Decimal).toFixed)

end SpeechAnalyzer
