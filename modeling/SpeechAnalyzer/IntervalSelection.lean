/-
The parameters of `CHUNK_EXTRACT` as `FeaturesBetween` passes them: pointers to
the characters of four strings. Two of the strings are temporaries, gone at the
end of the statement that takes their pointer, so when the query runs nothing
ties those two texts to the bounds.
-/
import SpeechAnalyzer.FeaturesTable

namespace SpeechAnalyzer

open Lib

/-! ## Strings and their lifetimes -/

/-- The `std::string` objects made so far, by address: none once the destructor
has run. -/
abbrev Strings := List (Option Str)

namespace Strings

def create (strings : Strings) (text : Str) : ℕ × Strings := (strings.length, strings ++ [some text])

def destroy (strings : Strings) (address : ℕ) : Strings := strings.set address none

/-- `p = f().c_str();`: the temporary is gone at the semicolon, its address stays. -/
def temporary (strings : Strings) (text : Str) : ℕ × Strings :=
  let (address, strings) := strings.create text
  (address, strings.destroy address)

/-- What a C function reads there. `leftover` is what the memory of a gone
string holds by now: its old text, the text of a later string, or anything. -/
def read (leftover : ℕ → Str) (strings : Strings) (address : ℕ) : Str :=
  cString (strings[address]?.join.getD (leftover address))

end Strings

/-! ## The four parameters -/

/-- The texts `PQexecPrepared` reads as `$1` to `$4`; in text format it does
not look at `lengths`. -/
structure Parameters where
  startText : Str
  endText : Str
  participantText : Str
  trialText : Str
deriving DecidableEq

/-- `values`, read when the query runs. The two ids are parameters by value and
live as long as the call. -/
def DBWrapper.parameters (leftover : ℕ → Str) (startTime endTime : Decimal) (participantId trialId : Str) :
    Parameters :=
  let (participantAddress, strings) := Strings.create [] participantId
  let (trialAddress, strings) := strings.create trialId
  let (startAddress, strings) := strings.temporary startTime.toFixed
  let (endAddress, strings) := strings.temporary endTime.toFixed
  { startText := strings.read leftover startAddress
    endText := strings.read leftover endAddress
    participantText := strings.read leftover participantAddress
    trialText := strings.read leftover trialAddress }

/-- The rows of the table that `FeaturesBetween` turns into JSON. -/
def DBWrapper.selectedRows (leftover : ℕ → Str) (t : Table) (startTime endTime : Decimal)
    (participantId trialId : Str) : List Row :=
  let texts := DBWrapper.parameters leftover startTime endTime participantId trialId
  t.chunkExtract texts.startText texts.endText texts.participantText texts.trialText

/-- The addresses of the two temporaries. -/
def startAddress : ℕ := 2
def endAddress : ℕ := 3

theorem parameters_eq (leftover : ℕ → Str) (startTime endTime : Decimal) (participantId trialId : Str) :
    DBWrapper.parameters leftover startTime endTime participantId trialId =
      ⟨cString (leftover startAddress), cString (leftover endAddress), cString participantId, cString trialId⟩ :=
  rfl

/-- `FeaturesBetween` with the bounds its pointers lead to makes its objects
from these rows, in table order. -/
theorem featuresBetween_selectedRows {ν : Type} (D : Doubles ν) (columnMap : ColumnMap) (leftover : ℕ → Str)
    (t : Table) (startTime endTime : Decimal) (participantId trialId : Str) :
    DBWrapper.featuresBetween D columnMap t.columns t.chunkExtract
        (cString (leftover startAddress), cString (leftover endAddress)) participantId trialId =
      (DBWrapper.selectedRows leftover t startTime endTime participantId trialId).mapM
        (rowMessage D columnMap t.columns) := by
  rw [DBWrapper.featuresBetween, DBWrapper.selectedRows, parameters_eq]

/-! ## What the texts denote -/

/-- The four texts denote the four arguments. -/
structure Parameters.Denotes (texts : Parameters) (startTime endTime : Decimal) (participantId trialId : Str) :
    Prop where
  startTime : ∃ x, Decimal.read texts.startText = some x ∧ x.value = startTime.value
  endTime : ∃ x, Decimal.read texts.endText = some x ∧ x.value = endTime.value
  participantId : texts.participantText = participantId
  trialId : texts.trialText = trialId

/-- Texts that denote the arguments select what the arguments do. -/
theorem Parameters.Denotes.chunkExtract {texts : Parameters} {startTime endTime : Decimal}
    {participantId trialId : Str} (h : texts.Denotes startTime endTime participantId trialId) (t : Table) :
    t.chunkExtract texts.startText texts.endText texts.participantText texts.trialText =
      t.rows.filter fun row => row.Selected startTime endTime participantId trialId := by
  obtain ⟨x, hx, hstart⟩ := h.startTime
  obtain ⟨y, hy, hend⟩ := h.endTime
  have hselected (row : Row) : row.Selected x y texts.participantText texts.trialText ↔
      row.Selected startTime endTime participantId trialId := by
    rw [Row.Selected, Row.Selected, hstart, hend, h.participantId, h.trialId]
  simp only [Table.chunkExtract, hx, hy, hselected]

theorem cString_eq_iff {s : Str} : cString s = s ↔ '\x00' ∉ s := by
  rw [cString, List.takeWhile_eq_self_iff]
  refine ⟨fun h hmem => ?_, fun h c hc => ?_⟩
  · simpa using h _ hmem
  · have hne : c ≠ '\x00' := fun he => h (he ▸ hc)
    simpa using hne

/-- A printed number has no NUL. -/
theorem cString_toFixed (x : Decimal) : cString x.toFixed = x.toFixed := by
  rw [cString_eq_iff]
  intro hmem
  have hnumeral := Decimal.isNumeral_signed x.mant 6 x.millionths _ hmem
  revert hnumeral
  decide

/-- In a call whose two strings are still to be read, though gone, the texts
denote the arguments exactly when the bounds have at most six digits after the
point and the ids no NUL. -/
theorem denotes_undisturbed_iff {leftover : ℕ → Str} {startTime endTime : Decimal} {participantId trialId : Str}
    (hstart : leftover startAddress = startTime.toFixed) (hend : leftover endAddress = endTime.toFixed) :
    (DBWrapper.parameters leftover startTime endTime participantId trialId).Denotes startTime endTime participantId
        trialId ↔
      ((∃ n : ℤ, startTime.value = n / 10 ^ 6) ∧ ∃ n : ℤ, endTime.value = n / 10 ^ 6) ∧
        '\x00' ∉ participantId ∧ '\x00' ∉ trialId := by
  have hbound (x : Decimal) : (∃ y, Decimal.read (cString x.toFixed) = some y ∧ y.value = x.value) ↔
      ∃ n : ℤ, x.value = n / 10 ^ 6 := by
    rw [cString_toFixed, Decimal.read_toFixed, ← Decimal.value_round6_iff]
    simp
  rw [parameters_eq, hstart, hend]
  refine ⟨fun h => ?_, fun ⟨⟨hx, hy⟩, hparticipant, htrial⟩ => ?_⟩
  · exact ⟨⟨(hbound _).mp h.startTime, (hbound _).mp h.endTime⟩, cString_eq_iff.mp h.participantId,
      cString_eq_iff.mp h.trialId⟩
  · exact ⟨(hbound _).mpr hx, (hbound _).mpr hy, cString_eq_iff.mpr hparticipant, cString_eq_iff.mpr htrial⟩

/-! ## Which rows a call selects -/

/-- A second before the interval. -/
def secondBefore (x : Decimal) : Decimal := ⟨x.mant - 10 ^ x.scale, x.scale⟩

theorem value_secondBefore (x : Decimal) : (secondBefore x).value = x.value - 1 := by
  have hpos : (10 : ℚ) ^ x.scale ≠ 0 := by positivity
  rw [Decimal.value, Decimal.value, secondBefore]
  push_cast
  field_simp

/-- The row a call can return though it is not in the interval: it lies at the
time both pointers lead to. -/
def strayRow (startTime : Decimal) (participantId trialId : Str) : Row where
  cells := []
  secondsOffset := some (secondBefore startTime)
  timestamp := []
  participant := some (cString participantId)
  trialId := some (cString trialId)
  experimentId := none

theorem strayRow_not_selected (startTime endTime : Decimal) (participantId trialId : Str) :
    ¬ (strayRow startTime participantId trialId).Selected startTime endTime participantId trialId := by
  intro h
  obtain ⟨x, hx, hle, -⟩ := h.1
  obtain rfl := Option.some.inj hx
  rw [value_secondBefore] at hle
  linarith

theorem cString_print (x : Decimal) : cString x.print = x.print := by
  rw [cString_eq_iff]
  intro hmem
  have hnumeral := Decimal.isNumeral_signed x.mant x.scale x.mant.natAbs _ hmem
  revert hnumeral
  decide

theorem selectedRows_stray (columns : List Str) (startTime endTime : Decimal) (participantId trialId : Str) :
    DBWrapper.selectedRows (fun _ => (secondBefore startTime).print)
        ⟨columns, [strayRow startTime participantId trialId]⟩ startTime endTime participantId trialId =
      [strayRow startTime participantId trialId] := by
  have hselected : (strayRow startTime participantId trialId).Selected (secondBefore startTime)
      (secondBefore startTime) (cString participantId) (cString trialId) :=
    ⟨⟨_, rfl, le_rfl, le_rfl⟩, rfl, rfl⟩
  rw [DBWrapper.selectedRows, parameters_eq, cString_print, Table.chunkExtract, Decimal.read_print]
  simp only [List.filter_cons, List.filter_nil, hselected, decide_true, if_true]

/-- **No call selects the interval for certain.** Whatever the arguments, what
the two pointers lead to decides which rows come back, and can be such that
they are others. -/
theorem selection_never_exact (startTime endTime : Decimal) (participantId trialId : Str) :
    (¬ ∀ leftover, (DBWrapper.parameters leftover startTime endTime participantId trialId).Denotes startTime endTime
      participantId trialId) ∧
    ¬ ∀ leftover (t : Table), DBWrapper.selectedRows leftover t startTime endTime participantId trialId =
      t.rows.filter fun row => row.Selected startTime endTime participantId trialId := by
  have hrows : ¬ ∀ leftover (t : Table), DBWrapper.selectedRows leftover t startTime endTime participantId trialId =
      t.rows.filter fun row => row.Selected startTime endTime participantId trialId := by
    intro h
    have hstray := h (fun _ => (secondBefore startTime).print) ⟨[], [strayRow startTime participantId trialId]⟩
    rw [selectedRows_stray] at hstray
    simp [strayRow_not_selected] at hstray
  exact ⟨fun h => hrows fun leftover t => (h leftover).chunkExtract t, hrows⟩

/-- From 1 to 2, and both pointers lead to the text of the second bound: the
row at 1.5 is not found. -/
theorem stale_bound_misses : ¬ ∀ (leftover : ℕ → Str) (t : Table) (startTime endTime : Decimal)
    (participantId trialId : Str),
    DBWrapper.selectedRows leftover t startTime endTime participantId trialId =
      t.rows.filter fun row => row.Selected startTime endTime participantId trialId := by
  intro h
  have hmiss := h (fun _ => "2.000000".toList)
    ⟨[], [⟨[], some ⟨15, 1⟩, [], some "P".toList, some "T".toList, none⟩]⟩ ⟨1, 0⟩ ⟨2, 0⟩ "P".toList "T".toList
  revert hmiss
  decide +kernel

end SpeechAnalyzer
