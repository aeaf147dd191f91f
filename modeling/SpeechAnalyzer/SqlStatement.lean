/-
The INSERT as a text. `Table.insert` works on the lists `PublishChunk` builds;
the database gets one text and reads it (`Table.execute`), each value under the
column of its position. A name without quotes is folded to lower case.

Both leave the same row (`execute_query`) when each column is a name in lower
case, or the empty name of an unlisted feature: with nothing between two commas
the text is no statement.
-/
import SpeechAnalyzer.FeaturesTable

namespace SpeechAnalyzer

open Lib SqlText

variable {ν : Type}

/-! ## Executing a statement -/

/-- The value of an item in a numeric column. -/
def numberOf : Item → Option (Option Decimal)
  | .word w => numberCell w
  | .text s => (Decimal.read s).map some

/-- The value of an item in a text column. -/
def stringOf : Item → Option (Option Str)
  | .word w => if w = "null".toList then some none else none
  | .text s => some (some s)

/-- A name without quotes, as SQL takes it. -/
def foldCase (name : Str) : Str := name.map Char.toLower

def nameOf : Item → Option Str
  | .word w => some (foldCase w)
  | .text _ => none

/-- The row of a statement: columns the table has, once each, and a value of
its column for each of them. -/
def statementRow (columns : List Str) (names values : List Item) : Option Row := do
  let names ← names.mapM nameOf
  let cells := names.zip values
  let cells ← if names.Nodup ∧ names.all columns.contains then some cells else none
  let features ← (cells.filter fun p => !fixedNames.contains p.1).mapM fun p => (numberOf p.2).join.map (p.1, ·)
  let secondsOffset ← (cells.lookup "seconds_offset".toList).bind numberOf
  let timestamp ← ((cells.lookup "timestamp".toList).bind stringOf).join
  let participant ← (cells.lookup "participant".toList).bind stringOf
  let trialId ← (cells.lookup "trial_id".toList).bind stringOf
  let experimentId ← (cells.lookup "experiment_id".toList).bind stringOf
  some { cells := features, secondsOffset, timestamp, participant, trialId, experimentId }

/-- `PQexec`: a statement that is no INSERT of a row is an error. -/
def Table.execute (t : Table) (query : Str) : Table :=
  { t with rows := t.rows ++
      ((readInsert "features".toList query).bind fun s => statementRow t.columns s.1 s.2).toList }

/-! ## The statement of an INSERT -/

theorem textCell_quoted (E : Json.Escape) {s : Str} (h : Plain s) : textCell (E.quoted s) = some (some s) := by
  have hnull : E.quoted s ≠ "null".toList := by
    intro he
    have hhead := congrArg List.head? he
    simp [Json.Escape.quoted] at hhead
  have hquote : '\'' ∉ s := fun hm => (h _ hm).1 rfl
  rw [textCell, if_neg hnull, replaceQuotes_quoted, idText_of_plain E h, List.cons_append, SqlText.readItem_quote,
    SqlText.readLiteral_plain hquote (by simp)]
  rfl

/-- A column's name in the statement: one in lower case, or nothing. -/
def ColumnText (c : Str) : Prop := IsName c ∧ foldCase c = c ∨ c = []

/-- The text of an id: JSON's null, or a plain string. -/
inductive IdText (E : Json.Escape) : Str → Option Str → Prop
  | null : IdText E "null".toList none
  | plain {s : Str} (h : Plain s) : IdText E (E.quoted s) (some s)

def idItem : Option Str → Item
  | none => .word "null".toList
  | some s => .text s

theorem stringOf_idItem (id : Option Str) : stringOf (idItem id) = some id := by
  cases id with
  | none => rfl
  | some s => rfl

section Text

variable {E : Json.Escape} {text : Str} {id : Option Str}

theorem IdText.reads (h : IdText E text id) : Reads (replaceQuotes text) (idItem id) := by
  cases h with
  | null => exact reads_word (by unfold IsWord; decide)
  | @plain s hs =>
    rw [replaceQuotes_quoted, idText_of_plain E hs]
    exact reads_literal fun hm => (hs _ hm).1 rfl

theorem IdText.textCell (h : IdText E text id) : textCell text = some id := by
  cases h with
  | null => rfl
  | plain hs => exact textCell_quoted E hs

end Text

/-- What the statement is made of: columns, words for the numbers, and ids. -/
structure Insert.Sendable (E : Json.Escape) (ids : Option Ids) (i : Insert) : Prop where
  columns : ∀ c ∈ i.columns, ColumnText c
  values : ∀ v ∈ i.values, IsWord v
  time : IsWord i.time
  length : i.values.length = i.columns.length
  participant : IdText E i.participant (ids.map Ids.participantId)
  trialId : IdText E i.trialId (ids.map Ids.trialId)
  experimentId : IdText E i.experimentId (ids.map Ids.experimentId)

section Statement

variable {E : Json.Escape} {columns : List Str} {ids : Option Ids} {i : Insert} {utcTimestamp : Str}

/-- The values of the statement but the last, each as text and as item. -/
def Insert.valueTexts (i : Insert) (utcTimestamp : Str) (ids : Option Ids) : List (Str × Item) :=
  i.values.map (fun v => (v, .word v)) ++ [(i.time, .word i.time),
    ('\'' :: (utcTimestamp ++ ['\'']), .text utcTimestamp),
    (replaceQuotes i.participant, idItem (ids.map Ids.participantId)),
    (replaceQuotes i.trialId, idItem (ids.map Ids.trialId))]

theorem query_text (h : i.Sendable E ids) (hutc : '"' ∉ utcTimestamp) :
    i.query utcTimestamp = "INSERT INTO ".toList ++ "features".toList ++ " (".toList ++
      (i.columns.flatMap (· ++ [',']) ++ (fixedColumns ++ (" VALUES (".toList ++
        ((i.valueTexts utcTimestamp ids).flatMap (fun p => p.1 ++ [',']) ++
          (replaceQuotes i.experimentId ++ [')']))))) := by
  have hlit : replaceQuotes "INSERT INTO features (".toList =
      "INSERT INTO ".toList ++ "features".toList ++ " (".toList := rfl
  have hmid : replaceQuotes ") VALUES (".toList = [')'] ++ " VALUES (".toList := rfl
  have hfixed : replaceQuotes ("seconds_offset, ".toList ++ "timestamp, ".toList ++ "participant, ".toList ++
      "trial_id, ".toList ++ "experiment_id".toList) ++ [')'] = fixedColumns := rfl
  have hcomma : replaceQuotes ",".toList = [','] := rfl
  have hquote : replaceQuotes "'".toList = ['\''] := rfl
  have hclose : replaceQuotes ")".toList = [')'] := rfl
  have hnames : '"' ∉ i.columns.flatMap (· ++ [',']) := by
    intro hm
    obtain ⟨c, hc, hq⟩ := List.mem_flatMap.mp hm
    rcases List.mem_append.mp hq with hq | hq
    · rcases h.columns c hc with ⟨hname, -⟩ | rfl
      · exact word_not_quote hname.isWord hq
      · cases hq
    · exact absurd hq (by decide)
  have hcolumns : replaceQuotes (i.columns.flatMap (· ++ ",".toList)) = i.columns.flatMap (· ++ [',']) :=
    replaceQuotes_eq_self hnames
  have hvalues : replaceQuotes (i.values.flatMap (· ++ ",".toList)) = i.values.flatMap (· ++ [',']) :=
    replaceQuotes_eq_self (words_not_quote h.values)
  simp only [Insert.query, Insert.columnString, Insert.valueString, Insert.valueTexts, replaceQuotes_append, hlit,
    hmid, hcomma, hquote, hclose, hcolumns, hvalues, replaceQuotes_eq_self (word_not_quote h.time),
    replaceQuotes_eq_self hutc, ← hfixed, List.flatMap_append, List.flatMap_map, List.flatMap_cons,
    List.flatMap_nil]
  simp only [List.append_assoc, List.cons_append, List.nil_append]

/-- A statement that names all its columns is read as it was written. -/
theorem readInsert_named (h : i.Sendable E ids) (hnamed : [] ∉ i.columns)
    (hutc : '\'' ∉ utcTimestamp ∧ '"' ∉ utcTimestamp) :
    readInsert "features".toList (i.query utcTimestamp) = some (i.columns.map .word ++ fixedItems,
      (i.valueTexts utcTimestamp ids).map Prod.snd ++ [idItem (ids.map Ids.experimentId)]) := by
  have hwords : ∀ c ∈ i.columns, IsWord c := by
    intro c hc
    rcases h.columns c hc with hname | rfl
    · exact hname.1.isWord
    · exact absurd hc hnamed
  have hreads : ∀ p ∈ i.valueTexts utcTimestamp ids, Reads p.1 p.2 := by
    simp only [Insert.valueTexts, List.forall_mem_append, List.forall_mem_map, List.forall_mem_cons]
    exact ⟨fun v hv => reads_word (h.values v hv), reads_word h.time, reads_literal hutc.1, h.participant.reads,
      h.trialId.reads, by simp⟩
  have hlength : (i.columns.map Item.word ++ fixedItems).length = 0 + 1 + (i.valueTexts utcTimestamp ids).length := by
    simp only [List.length_append, List.length_map, fixedItems, List.length_cons, List.length_nil, Insert.valueTexts,
      h.length]
    omega
  have hvalues := @readItems_reads 0 _ [] _ h.experimentId.reads _ hreads
  rw [← hlength] at hvalues
  rw [query_text h hutc.2]
  generalize hrest : " VALUES (".toList ++ ((i.valueTexts utcTimestamp ids).flatMap (fun p => p.1 ++ [',']) ++
    (replaceQuotes i.experimentId ++ [')'])) = rest
  obtain ⟨k, hk⟩ : ∃ k, (i.columns.flatMap (· ++ [',']) ++ (fixedColumns ++ rest)).length =
      k + 5 + i.columns.length := by
    have hle := length_le_flatMap i.columns
    have hfixed : 5 ≤ fixedColumns.length := by decide
    refine ⟨(i.columns.flatMap (· ++ [',']) ++ (fixedColumns ++ rest)).length - 5 - i.columns.length, ?_⟩
    simp only [List.length_append]
    omega
  have hcolumns : readItems (k + 5 + i.columns.length) (i.columns.flatMap (· ++ [',']) ++ (fixedColumns ++ rest)) =
      some (i.columns.map .word ++ fixedItems, rest) := by
    rw [readItems_words hwords, readItems_fixedColumns]
    rfl
  simp only [readInsert, expect_append, Option.bind_eq_bind, Option.bind_some, hk, hcolumns]
  rw [← hrest, expect_append]
  simp only [Option.bind_some, hvalues]
  refine if_pos ⟨trivial, ?_⟩
  rw [hlength, List.length_append, List.length_map, List.length_singleton]
  omega

/-- One with an unlisted feature is not read. -/
theorem readInsert_unnamed (h : i.Sendable E ids) (hutc : '"' ∉ utcTimestamp) (hempty : [] ∈ i.columns) :
    readInsert "features".toList (i.query utcTimestamp) = none := by
  have hwords : ∀ c ∈ i.columns, IsWord c ∨ c = [] := fun c hc => (h.columns c hc).imp_left fun hc => hc.1.isWord
  rw [query_text h hutc]
  simp only [readInsert, expect_append, Option.bind_eq_bind, Option.bind_some, readItems_empty _ hempty hwords,
    Option.bind_none]

theorem mapM_nameOf : ∀ {names : List Str}, (∀ name ∈ names, foldCase name = name) →
    (names.map Item.word).mapM nameOf = some names
  | [], _ => rfl
  | name :: names, h => by
    obtain ⟨hname, hnames⟩ := List.forall_mem_cons.mp h
    rw [List.map_cons, List.mapM_cons, mapM_nameOf hnames, nameOf, hname]
    rfl

theorem join_numberCell (text : Str) : (numberCell text).join = Decimal.read text := by
  unfold numberCell
  split
  · next h =>
    subst h
    decide
  · cases Decimal.read text <;> rfl

/-- The cells of the features. -/
theorem mapM_features : ∀ {names values : List Str}, values.length = names.length →
    ((names.zip (values.map Item.word)).mapM fun p => (numberOf p.2).join.map (p.1, ·)) =
      (values.mapM Decimal.read).map fun numbers => names.zip numbers
  | [], [], _ => rfl
  | name :: names, value :: values, h => by
    have ih := mapM_features (Nat.succ.inj h)
    rw [List.map_cons, List.zip_cons_cons, List.mapM_cons, ih, List.mapM_cons]
    simp only [numberOf, join_numberCell]
    cases Decimal.read value with
    | none => rfl
    | some x => cases values.mapM Decimal.read <;> rfl

/-- What the statement holds for the fixed columns. -/
def Insert.fixedValues (i : Insert) (utcTimestamp : Str) (ids : Option Ids) : List Item :=
  [.word i.time, .text utcTimestamp, idItem (ids.map Ids.participantId), idItem (ids.map Ids.trialId),
    idItem (ids.map Ids.experimentId)]

theorem valueTexts_snd : (i.valueTexts utcTimestamp ids).map Prod.snd ++ [idItem (ids.map Ids.experimentId)] =
    i.values.map Item.word ++ i.fixedValues utcTimestamp ids := by
  simp [Insert.valueTexts, Insert.fixedValues]

theorem fixed_guard (hfixed : ∀ c ∈ fixedNames, c ∈ columns) (names : List Str) :
    (names ++ fixedNames).Nodup ∧ (names ++ fixedNames).all columns.contains ↔
      names.Nodup ∧ ∀ c ∈ names, c ∈ columns ∧ c ∉ fixedNames := by
  have hnodup : fixedNames.Nodup := by decide +kernel
  simp only [List.nodup_append, List.all_append, Bool.and_eq_true, List.all_eq_true, List.contains_iff_mem]
  constructor
  · rintro ⟨⟨hnames, -, hapart⟩, hcolumns, -⟩
    exact ⟨hnames, fun c hc => ⟨hcolumns c hc, fun hf => hapart c hc c hf rfl⟩⟩
  · rintro ⟨hnames, hcolumns⟩
    refine ⟨⟨hnames, hnodup, ?_⟩, fun c hc => (hcolumns c hc).1, hfixed⟩
    rintro c hc d hd rfl
    exact (hcolumns c hc).2 hd

/-- The row of the statement is the row of the INSERT. -/
theorem statementRow_named (h : i.Sendable E ids) (hnamed : [] ∉ i.columns) (hfixed : ∀ c ∈ fixedNames, c ∈ columns) :
    statementRow columns (i.columns.map .word ++ fixedItems)
        ((i.valueTexts utcTimestamp ids).map Prod.snd ++ [idItem (ids.map Ids.experimentId)]) =
      i.storedRow columns utcTimestamp := by
  have hnames : i.columns.map Item.word ++ fixedItems = (i.columns ++ fixedNames).map Item.word := by
    rw [List.map_append]
    rfl
  have hcells : (i.columns ++ fixedNames).zip (i.values.map Item.word ++ i.fixedValues utcTimestamp ids) =
      i.columns.zip (i.values.map Item.word) ++ fixedNames.zip (i.fixedValues utcTimestamp ids) :=
    List.zip_append (by rw [List.length_map, h.length])
  have hlower : ∀ name ∈ fixedNames, foldCase name = name := by decide +kernel
  have hfold : ∀ name ∈ i.columns ++ fixedNames, foldCase name = name := by
    intro name hname
    rcases List.mem_append.mp hname with hc | hc
    · rcases h.columns name hc with hname | rfl
      · exact hname.2
      · exact absurd hc hnamed
    · exact hlower name hc
  rw [valueTexts_snd, hnames, statementRow, mapM_nameOf hfold, Insert.storedRow]
  simp only [Option.bind_eq_bind, Option.bind_some, hcells, fixed_guard hfixed]
  by_cases hguard : i.columns.Nodup ∧ ∀ c ∈ i.columns, c ∈ columns ∧ c ∉ fixedNames
  · have hfirst : ∀ p ∈ i.columns.zip (i.values.map Item.word), p.1 ∉ fixedNames :=
      fun p hp => (hguard.2 p.1 (List.of_mem_zip hp).1).2
    have hfeatures : (i.columns.zip (i.values.map Item.word) ++
        fixedNames.zip (i.fixedValues utcTimestamp ids)).filter (fun p => !fixedNames.contains p.1) =
        i.columns.zip (i.values.map Item.word) := by
      rw [List.filter_append, List.filter_eq_self.mpr (by simpa using hfirst), List.append_right_eq_self,
        List.filter_eq_nil_iff]
      intro p hp
      simpa using (List.of_mem_zip hp).1
    have hlookup {k : Str} (hk : k ∈ fixedNames) : (i.columns.zip (i.values.map Item.word) ++
        fixedNames.zip (i.fixedValues utcTimestamp ids)).lookup k =
        (fixedNames.zip (i.fixedValues utcTimestamp ids)).lookup k := by
      have hnone : (i.columns.zip (i.values.map Item.word)).lookup k = none := by
        rw [List.lookup_eq_none_iff]
        intro p hp
        have hne : k ≠ p.1 := fun he => hfirst p hp (he ▸ hk)
        simpa using hne
      rw [List.lookup_append, hnone, Option.none_or]
    have htime := hlookup (k := "seconds_offset".toList) (by decide +kernel)
    have hutc := hlookup (k := "timestamp".toList) (by decide +kernel)
    have hparticipant := hlookup (k := "participant".toList) (by decide +kernel)
    have htrial := hlookup (k := "trial_id".toList) (by decide +kernel)
    have hexperiment := hlookup (k := "experiment_id".toList) (by decide +kernel)
    rw [if_pos hguard, if_pos hguard, Insert.row, h.participant.textCell, h.trialId.textCell, h.experimentId.textCell]
    simp only [hfeatures, mapM_features h.length, htime, hutc, hparticipant, htrial, hexperiment]
    have hread : (fixedNames.zip (i.fixedValues utcTimestamp ids)).lookup "seconds_offset".toList =
          some (.word i.time) ∧
        (fixedNames.zip (i.fixedValues utcTimestamp ids)).lookup "timestamp".toList = some (.text utcTimestamp) ∧
        (fixedNames.zip (i.fixedValues utcTimestamp ids)).lookup "participant".toList =
          some (idItem (ids.map Ids.participantId)) ∧
        (fixedNames.zip (i.fixedValues utcTimestamp ids)).lookup "trial_id".toList =
          some (idItem (ids.map Ids.trialId)) ∧
        (fixedNames.zip (i.fixedValues utcTimestamp ids)).lookup "experiment_id".toList =
          some (idItem (ids.map Ids.experimentId)) := ⟨rfl, rfl, rfl, rfl, rfl⟩
    simp only [hread, Option.bind_some, stringOf_idItem, Option.bind_eq_bind]
    cases i.values.mapM Decimal.read <;> rfl
  · rw [if_neg hguard, if_neg hguard]
    rfl

/-- The text does to the table what the lists do. -/
theorem execute_query {t : Table} (h : i.Sendable E ids) (hfixed : ∀ c ∈ fixedNames, c ∈ t.columns)
    (hempty : [] ∉ t.columns) (hutc : '\'' ∉ utcTimestamp ∧ '"' ∉ utcTimestamp) :
    t.execute (i.query utcTimestamp) = t.insert i utcTimestamp := by
  rw [insert_eq, Table.execute]
  congr 3
  by_cases hnamed : [] ∈ i.columns
  · rw [readInsert_unnamed h hutc.2 hnamed, Option.bind_none, Insert.storedRow,
      if_neg fun hall => hempty (hall.2 [] hnamed).1]
  · rw [readInsert_named h hnamed hutc, Option.bind_some, statementRow_named h hnamed hfixed]

end Statement

end SpeechAnalyzer
