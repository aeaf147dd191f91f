/-
`DBWrapper.cpp`, the writing side: `PublishChunk` turns a message into one
INSERT.

The connection pool is left to its own module. A lookup with `column_map[in]`
of a name the map does not have puts the name there with the empty string, so
the map goes through the calls as state.
-/
import SpeechAnalyzer.Lib.JsonPath

namespace SpeechAnalyzer

open Lib

variable {ν : Type}

/-- `column_map`: openSMILE names to postgres names and back. -/
abbrev ColumnMap := List (Str × Str)

/-- `format_to_db_string`: the name, and the map after the lookup. -/
def formatToDbString (columnMap : ColumnMap) (name : Str) : Str × ColumnMap :=
  match columnMap.lookup name with
  | some column => (column, columnMap)
  | none => ([], KeyMap.put name [] columnMap)

/-- The lists `PublishChunk` builds from a message: a column and a value for
each feature, and the serialised time and ids. -/
structure Insert where
  columns : List Str
  values : List Str
  time : Str
  participant : Str
  trialId : Str
  experimentId : Str
deriving DecidableEq, Repr

def Insert.columnString (i : Insert) : Str :=
  i.columns.flatMap (· ++ ",".toList) ++ "seconds_offset, ".toList ++ "timestamp, ".toList ++
    "participant, ".toList ++ "trial_id, ".toList ++ "experiment_id".toList

def Insert.valueString (i : Insert) (utcTimestamp : Str) : Str :=
  i.values.flatMap (· ++ ",".toList) ++ i.time ++ ",".toList ++ "'".toList ++ utcTimestamp ++ "'".toList ++
    ",".toList ++ i.participant ++ ",".toList ++ i.trialId ++ ",".toList ++ i.experimentId

/-- `boost::replace_all(query, "\"", "\'")`. -/
def replaceQuotes (s : Str) : Str := s.map fun c => if c = '"' then '\'' else c

/-- The text sent to `PQexec`. -/
def Insert.query (i : Insert) (utcTimestamp : Str) : Str :=
  replaceQuotes ("INSERT INTO features (".toList ++ i.columnString ++ ") VALUES (".toList ++
    i.valueString utcTimestamp ++ ")".toList)

/-- The loop over the features: columns, values, and the map after it. -/
def loadFeatures : ColumnMap → List (Str × Json ν) → Except Exn (List Str × List ν × ColumnMap)
  | columnMap, [] => .ok ([], [], columnMap)
  | columnMap, (key, element) :: items => do
    let (column, columnMap) := formatToDbString columnMap key
    let value ← element.toDouble
    let (columns, values, columnMap) ← loadFeatures columnMap items
    .ok (column :: columns, value :: values, columnMap)

/-- `DBWrapper::PublishChunk`, up to the timestamp. -/
def DBWrapper.publishChunk (D : Doubles ν) (columnMap : ColumnMap) (message : Json ν) :
    Except Exn (Insert × ColumnMap) := do
  let lld ← Json.getAt ["data".toList, "features".toList, "lld".toList] message
  let (columns, values, columnMap) ← loadFeatures columnMap lld.items
  let participantId ← Json.getAt ["data".toList, "participant_id".toList] message
  let trialId ← Json.getAt ["msg".toList, "trial_id".toList] message
  let experimentId ← Json.getAt ["msg".toList, "experiment_id".toList] message
  let time ← Json.getAt ["data".toList, "tmeta".toList, "time".toList] message
  .ok ({
    columns := columns
    values := values.map D.toString
    time := time.dump D.toPrinter
    participant := participantId.dump D.toPrinter
    trialId := trialId.dump D.toPrinter
    experimentId := experimentId.dump D.toPrinter }, columnMap)

/-! ## Columns -/

/-- The column of a name: the empty string for a name the map does not have. -/
def columnName (columnMap : ColumnMap) (name : Str) : Str := (columnMap.lookup name).getD []

theorem formatToDbString_fst (columnMap : ColumnMap) (name : Str) :
    (formatToDbString columnMap name).1 = columnName columnMap name := by
  unfold formatToDbString columnName
  split
  · next h => rw [h]; rfl
  · next h => rw [h]; rfl

/-- The lookup gives no name another column. -/
theorem columnName_formatToDbString (columnMap : ColumnMap) (name k : Str) :
    columnName (formatToDbString columnMap name).2 k = columnName columnMap k := by
  unfold formatToDbString
  split
  · rfl
  · next h =>
    rw [columnName, KeyMap.lookup_put]
    split
    · next hk => rw [hk, columnName, h]; rfl
    · rfl

/-! ## Messages of numbers -/

/-- A map of numbers as the members of an object. -/
def nums (l : List (Str × ν)) : List (Str × Json ν) := l.map fun p => (p.1, .num p.2)

theorem nums_put (k : Str) (x : ν) : ∀ l : List (Str × ν),
    KeyMap.put k (.num x) (nums l) = nums (KeyMap.put k x l)
  | [] => rfl
  | (k', x') :: l => by
    have ih := nums_put k x l
    simp only [nums] at ih
    simp only [nums, List.map_cons, KeyMap.put]
    split
    · rfl
    split
    · rfl
    · rw [ih]
      rfl

theorem lookup_nums (k : Str) (l : List (Str × ν)) : (nums l).lookup k = (l.lookup k).map .num := by
  induction l with
  | nil => rfl
  | cons p l ih =>
    obtain ⟨a, x⟩ := p
    simp only [nums] at ih
    by_cases h : k = a
    · subst h
      simp [nums]
    · rw [nums, List.map_cons, KeyMap.lookup_cons_ne h, KeyMap.lookup_cons_ne h, ih]

theorem loadFeatures_nums (columnMap : ColumnMap) : ∀ l : List (Str × ν), ∃ columnMap',
    loadFeatures columnMap (nums l) =
      .ok (l.map fun p => columnName columnMap p.1, l.map Prod.snd, columnMap') ∧
    ∀ k, columnName columnMap' k = columnName columnMap k := by
  intro l
  induction l generalizing columnMap with
  | nil => exact ⟨columnMap, rfl, fun _ => rfl⟩
  | cons p l ih =>
    obtain ⟨a, x⟩ := p
    obtain ⟨columnMap', hload, hcol⟩ := ih (formatToDbString columnMap a).2
    refine ⟨columnMap', ?_, fun k => (hcol k).trans (columnName_formatToDbString columnMap a k)⟩
    have hload : loadFeatures (formatToDbString columnMap a).2 (nums l) =
        .ok (l.map fun p => columnName columnMap p.1, l.map Prod.snd, columnMap') := by
      simpa only [columnName_formatToDbString] using hload
    simp only [nums, List.map_cons] at hload ⊢
    simp only [loadFeatures, Json.toDouble_num, formatToDbString_fst, hload, ok_bind]

theorem items_eq_fields {j : Json ν} (h : j.IsMap) : j.items = j.fields := by
  cases j with
  | null => rfl
  | obj l => rfl
  | bool _ => exact h.elim
  | num _ => exact h.elim
  | str _ => exact h.elim
  | arr _ => exact h.elim

/-- `PublishChunk` of a message, by the values it reads. -/
theorem publishChunk_eq {D : Doubles ν} {m lld participantId trialId experimentId time : Json ν}
    {l : List (Str × ν)}
    (hlld : Json.getAt ["data".toList, "features".toList, "lld".toList] m = .ok lld) (hitems : lld.items = nums l)
    (hparticipant : Json.getAt ["data".toList, "participant_id".toList] m = .ok participantId)
    (htrial : Json.getAt ["msg".toList, "trial_id".toList] m = .ok trialId)
    (hexperiment : Json.getAt ["msg".toList, "experiment_id".toList] m = .ok experimentId)
    (htime : Json.getAt ["data".toList, "tmeta".toList, "time".toList] m = .ok time) (columnMap : ColumnMap) :
    ∃ columnMap', DBWrapper.publishChunk D columnMap m = .ok ({
        columns := l.map fun p => columnName columnMap p.1
        values := l.map fun p => D.toString p.2
        time := time.dump D.toPrinter
        participant := participantId.dump D.toPrinter
        trialId := trialId.dump D.toPrinter
        experimentId := experimentId.dump D.toPrinter }, columnMap') ∧
      ∀ k, columnName columnMap' k = columnName columnMap k := by
  obtain ⟨columnMap', hload, hcol⟩ := loadFeatures_nums columnMap l
  refine ⟨columnMap', ?_, hcol⟩
  simp only [DBWrapper.publishChunk, hlld, hparticipant, htrial, hexperiment, htime, ok_bind, hitems,
    hload, List.map_map, Function.comp_def]

/-- The participant, trial and experiment of a session and its rows. -/
structure Ids where
  participantId : Str
  trialId : Str
  experimentId : Str
deriving DecidableEq, Repr

/-- A complete message: numbers for features, a time, and the ids. -/
structure Holds (m : Json ν) (features : List (Str × ν)) (time : ν) (ids : Ids) : Prop where
  features : Json.getAt ["data".toList, "features".toList, "lld".toList] m = .ok (.obj (nums features))
  time : Json.getAt ["data".toList, "tmeta".toList, "time".toList] m = .ok (.num time)
  participantId : Json.getAt ["data".toList, "participant_id".toList] m = .ok (.str ids.participantId)
  trialId : Json.getAt ["msg".toList, "trial_id".toList] m = .ok (.str ids.trialId)
  experimentId : Json.getAt ["msg".toList, "experiment_id".toList] m = .ok (.str ids.experimentId)

/-- The message of a frame and its ids. -/
def completeMessage (features : List (Str × ν)) (time : ν) (ids : Ids) : Json ν :=
  .obj [("data".toList, .obj [("features".toList, .obj [("lld".toList, .obj (nums features))]),
      ("participant_id".toList, .str ids.participantId), ("tmeta".toList, .obj [("time".toList, .num time)])]),
    ("msg".toList, .obj [("experiment_id".toList, .str ids.experimentId), ("trial_id".toList, .str ids.trialId)])]

theorem holds_completeMessage (features : List (Str × ν)) (time : ν) (ids : Ids) :
    Holds (completeMessage features time ids) features time ids :=
  ⟨rfl, rfl, rfl, rfl, rfl⟩

/-- The INSERT of a complete message. -/
def rowInsert (D : Doubles ν) (columnMap : ColumnMap) (features : List (Str × ν)) (time : ν) (ids : Ids) :
    Insert where
  columns := features.map fun p => columnName columnMap p.1
  values := features.map fun p => D.toString p.2
  time := D.num time
  participant := D.quoted ids.participantId
  trialId := D.quoted ids.trialId
  experimentId := D.quoted ids.experimentId

theorem publishChunk_holds {D : Doubles ν} {m : Json ν} {features : List (Str × ν)} {time : ν} {ids : Ids}
    (h : Holds m features time ids) (columnMap : ColumnMap) :
    ∃ columnMap', DBWrapper.publishChunk D columnMap m =
        .ok (rowInsert D columnMap features time ids, columnMap') ∧
      ∀ k, columnName columnMap' k = columnName columnMap k :=
  publishChunk_eq h.features rfl h.participantId h.trialId h.experimentId h.time columnMap

end SpeechAnalyzer
