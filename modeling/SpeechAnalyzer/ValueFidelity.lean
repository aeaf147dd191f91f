/-
A feature's number on its way: printed in an `lld` line, read by `atof`, kept
as a JSON number, written into the INSERT by `std::to_string`, read by the
database, and read by `atof` again from the text of its cell.

`std::to_string` keeps six digits after the point, and nothing else on the way
rounds; the frame's time goes by the JSON serialiser, with all its digits.
-/
import SpeechAnalyzer.Frames
import SpeechAnalyzer.StoreLoad

namespace SpeechAnalyzer

open Lib

/-- The INSERT of the event has this value for a feature: its values stand in
the order of the message's features. -/
def Event.Stores (e : Event Decimal) (key : Str) (y : Decimal) : Prop :=
  ∃ m i text, e = .published m (some i) ∧
    (key, text) ∈
      ((Json.path ["data".toList, "features".toList, "lld".toList] m).fields.map Prod.fst).zip i.values ∧
    Decimal.read text = some y

/-- Once the INSERT of the event has appended its row, the inner loop of
`FeaturesBetween` puts this value under the feature's name. -/
def Event.Loads (P : DecimalPrinter) (columnMap : ColumnMap) (pairs : List (Str × Str)) (e : Event Decimal)
    (key : Str) (y : Decimal) : Prop :=
  ∀ m i (t : Table) utcTimestamp row, e = .published m (some i) → t.HasColumns pairs →
    t.insert i utcTimestamp = { t with rows := t.rows ++ [row] } →
    ∃ j, rowMessage P.doubles columnMap t.columns row = .ok j ∧ Json.path [key] j = .num y

/-- A number arrives as it was printed. -/
def Event.Faithful (P : DecimalPrinter) (columnMap : ColumnMap) (pairs : List (Str × Str)) (e : Event Decimal)
    (key num : Str) : Prop :=
  ∃ y, e.Stores key y ∧ e.Loads P columnMap pairs key y ∧ ∃ x, Decimal.read num = some x ∧ y.value = x.value

/-! ## The row of an INSERT -/

theorem row_of_insert {t : Table} {i : Insert} {utcTimestamp : Str} {row : Row}
    (h : t.insert i utcTimestamp = { t with rows := t.rows ++ [row] }) :
    i.row utcTimestamp = some row ∧ i.columns.Nodup := by
  have hsame : t ≠ { t with rows := t.rows ++ [row] } := by
    intro he
    have hlength := congrArg (fun t : Table => t.rows.length) he
    simp at hlength
  unfold Table.insert at h
  split at h
  · next row' hrow =>
    split at h
    · next hcolumns =>
      have hrows : t.rows ++ [row'] = t.rows ++ [row] := congrArg Table.rows h
      obtain rfl : row' = row := by simpa using hrows
      exact ⟨hrow, hcolumns.1⟩
    · exact absurd h hsame
  · exact absurd h hsame

theorem row_cells {i : Insert} {utcTimestamp : Str} {row : Row} (h : i.row utcTimestamp = some row) :
    ∃ values, i.values.mapM Decimal.read = some values ∧ row.cells = i.columns.zip values := by
  unfold Insert.row at h
  obtain ⟨values, hvalues, h⟩ := Option.bind_eq_some_iff.mp h
  obtain ⟨secondsOffset, -, h⟩ := Option.bind_eq_some_iff.mp h
  obtain ⟨participant, -, h⟩ := Option.bind_eq_some_iff.mp h
  obtain ⟨trialId, -, h⟩ := Option.bind_eq_some_iff.mp h
  obtain ⟨experimentId, -, h⟩ := Option.bind_eq_some_iff.mp h
  obtain rfl := Option.some.inj h
  exact ⟨values, hvalues, rfl⟩

section Fidelity

variable {P : DecimalPrinter} {columnMap : ColumnMap} {pairs : List (Str × Str)} {v : View Decimal}
  {m : Json Decimal} {key : Str} {x : Decimal}

/-- The cells of a view's row. -/
theorem cells_insert {utcTimestamp : Str} {row : Row}
    (h : (v.insert P.doubles columnMap).row utcTimestamp = some row) :
    row.cells = v.lld.map fun p => (columnName columnMap p.1, p.2.round6) := by
  obtain ⟨values, hvalues, hcells⟩ := row_cells h
  have hread : (v.insert P.doubles columnMap).values.mapM Decimal.read = some (v.lld.map fun q => q.2.round6) :=
    mapM_read_toFixed v.lld
  rw [hread] at hvalues
  obtain rfl := Option.some.inj hvalues
  rw [hcells]
  exact List.zip_map'

theorem stores_insert (P : DecimalPrinter) (columnMap : ColumnMap) (hm : Represents m v)
    (hkeys : (v.lld.map Prod.fst).Nodup) (hx : (key, x) ∈ v.lld) (y : Decimal) :
    (Event.published m (some (v.insert P.doubles columnMap))).Stores key y ↔ y = x.round6 := by
  have hzip : ((Json.path ["data".toList, "features".toList, "lld".toList] m).fields.map Prod.fst).zip
      (v.insert P.doubles columnMap).values = v.lld.map fun p => (p.1, p.2.toFixed) := by
    have hfields : (nums v.lld).map Prod.fst = v.lld.map Prod.fst := by simp [nums]
    rw [hm.lld, hfields]
    exact List.zip_map'
  refine ⟨fun hstores => ?_, fun hy => ?_⟩
  · obtain ⟨m', i, text, he, hmem, hread⟩ := hstores
    obtain ⟨rfl, hi⟩ := Event.published.inj he
    obtain rfl := Option.some.inj hi
    rw [hzip] at hmem
    obtain ⟨p, hp, hpair⟩ := List.mem_map.mp hmem
    obtain ⟨hkey, rfl⟩ := Prod.mk.inj hpair
    -- The key is there once.
    have hvalue : p.2 = x := by
      have hlookup := KeyMap.lookup_of_mem hkeys hx
      rw [← hkey, KeyMap.lookup_of_mem hkeys hp] at hlookup
      exact Option.some.inj hlookup
    rw [Decimal.read_toFixed, hvalue] at hread
    exact (Option.some.inj hread).symm
  · refine ⟨m, _, x.toFixed, rfl, ?_, ?_⟩
    · rw [hzip]
      exact List.mem_map.mpr ⟨(key, x), hx, rfl⟩
    · rw [Decimal.read_toFixed, hy]

theorem loads_insert (hapart : Apart pairs) (h : Translates columnMap pairs) (hx : (key, x) ∈ v.lld)
    (hkey : key ∈ pairs.map Prod.fst) :
    (Event.published m (some (v.insert P.doubles columnMap))).Loads P columnMap pairs key x.round6 := by
  intro m' i t utcTimestamp row he ht hinsert
  obtain ⟨-, hi⟩ := Event.published.inj he
  obtain rfl := Option.some.inj hi
  obtain ⟨hrow, hcolumns⟩ := row_of_insert hinsert
  have hcells := cells_insert hrow
  obtain ⟨p, hp, rfl⟩ := List.mem_map.mp hkey
  -- The cell of the feature's column.
  have hfixed : p.2 ∉ fixedNames := fun hmem => by
    have hnone := h.fixed _ hmem
    rw [(h.rows p hp).2] at hnone
    cases hnone
  have hkeys : (row.cells.map Prod.fst).Nodup := by
    rw [hcells]
    simpa [View.insert, Function.comp_def] using hcolumns
  have hcell : (p.2, x.round6) ∈ row.cells := by
    rw [hcells]
    exact List.mem_map.mpr ⟨(p.1, x), hx, by rw [h.columnName_fst hp]⟩
  have htext : P.doubles.atof (row.cellText p.2) = x.round6 := by
    rw [cellText_cell hfixed, KeyMap.lookup_of_mem hkeys hcell]
    exact Decimal.scan_print x.round6
  -- The object of the row.
  have hperm := rowFields_perm (P := P) h ht row
  have hnodup : ((rowFields P.doubles columnMap t.columns row).map Prod.fst).Nodup := by
    rw [(hperm.map Prod.fst).nodup_iff]
    simpa [Function.comp_def] using names_nodup hapart
  have hmem : (p.1, Json.num x.round6) ∈ rowFields P.doubles columnMap t.columns row := by
    rw [hperm.mem_iff, ← htext]
    exact List.mem_map.mpr ⟨p, hp, rfl⟩
  refine ⟨_, rowMessage_eq .., ?_⟩
  rw [Json.path, rowObject, Json.fields_ofFields, KeyMap.lookup_putAll_of_mem hnodup hmem]
  rfl

/-- For the event that publishes a view of the frame. -/
theorem faithful_view_iff (P : DecimalPrinter) (hapart : Apart pairs) (htranslates : Translates columnMap pairs)
    {f : Frame} (hrepr : Represents m v) (hshows : v.Shows Decimal.scan f) {name num : Str}
    (hline : (name, num) ∈ f.lld) (hmapped : parenthesize name ∈ pairs.map Prod.fst)
    (hnum : Decimal.read num = some x) :
    (Event.published m (some (v.insert P.doubles columnMap))).Faithful P columnMap pairs (parenthesize name) num ↔
      ∃ n : ℤ, x.value = n / 10 ^ 6 := by
  have hx : (parenthesize name, x) ∈ v.lld := by
    have hscan : Decimal.scan num = x := by
      unfold Decimal.read at hnum
      split at hnum
      · exact Option.some.inj hnum
      · cases hnum
    rw [hshows.lld.mem_iff, ← hscan]
    exact List.mem_map.mpr ⟨(name, num), hline, rfl⟩
  have hstores := stores_insert P columnMap hrepr hshows.lld_sorted.nodup_keys hx
  rw [← Decimal.value_round6_iff]
  refine ⟨fun hfaithful => ?_, fun hround => ?_⟩
  · obtain ⟨y, hy, -, x', hx', hvalue⟩ := hfaithful
    rw [hnum] at hx'
    obtain rfl := Option.some.inj hx'
    rw [← (hstores y).mp hy]
    exact hvalue
  · exact ⟨x.round6, (hstores _).mpr rfl, loads_insert hapart htranslates hx hmapped, x, hnum, hround⟩

end Fidelity

/-! ## From the log -/

/-- The events of a log of frames: each publishes a view of its frame. -/
theorem events_views (D : Doubles Decimal) (ids : Ids) (columnMap : ColumnMap) {frames : List Frame}
    (hwf : ∀ f ∈ frames, f.WellFormed) (hsame : ∀ f ∈ frames, ∀ g ∈ frames, f.SameNames g)
    {ms : List LogMessage} (hms : ms.map (fun m => despace m.text) = frames.flatMap Frame.lines) :
    List.Forall₂ (fun (e : Event Decimal) f => ∃ m v, e = .published m (some (v.insert D columnMap)) ∧
        Represents m v ∧ v.Shows D.atof f)
      (Processor.events D ids.participantId ids.trialId ids.experimentId columnMap ms) frames.dropLast := by
  have hsim := events_sim D ids columnMap ms
  rw [hms] at hsim
  refine Mealy.forall₂_trans hsim (frames_shown D.atof ids hwf hsame) fun e e' f hrel hshows => ?_
  cases e with
  | published m i =>
    cases e' with
    | published v =>
      obtain ⟨hrepr, rfl⟩ := hrel
      exact ⟨m, v, rfl, hrepr, hshows⟩
    | thrown _ => exact hrel.elim
  | thrown _ =>
    cases e' with
    | published _ => exact hrel.elim
    | thrown _ => exact hshows.elim

/-- **A printed number arrives as it is exactly when it has at most six digits
after the point.** For every frame of a log and the event that publishes it,
and every mapped feature of the frame with a decimal for its number. -/
theorem faithful_iff (P : DecimalPrinter) {pairs : List (Str × Str)} {columnMap : ColumnMap} (hapart : Apart pairs)
    (htranslates : Translates columnMap pairs) (ids : Ids) {frames : List Frame}
    (hwf : ∀ f ∈ frames, f.WellFormed) (hsame : ∀ f ∈ frames, ∀ g ∈ frames, f.SameNames g)
    {ms : List LogMessage} (hms : ms.map (fun m => despace m.text) = frames.flatMap Frame.lines)
    {e : Event Decimal} {f : Frame}
    (he : (e, f) ∈ (Processor.events P.doubles ids.participantId ids.trialId ids.experimentId columnMap ms).zip
      frames.dropLast)
    {name num : Str} (hline : (name, num) ∈ f.lld) (hmapped : parenthesize name ∈ pairs.map Prod.fst) {x : Decimal}
    (hnum : Decimal.read num = some x) :
    e.Faithful P columnMap pairs (parenthesize name) num ↔ ∃ n : ℤ, x.value = n / 10 ^ 6 := by
  obtain ⟨m, v, rfl, hrepr, hshows⟩ := List.forall₂_zip (events_views P.doubles ids columnMap hwf hsame hms) he
  exact faithful_view_iff P hapart htranslates hrepr hshows hline hmapped hnum

/-! ## A small number -/

/-- One feature, under its two names. -/
def mfccPairs : List (Str × Str) := [("mfcc(1)".toList, "mfcc_1".toList)]

def mfccMap : ColumnMap := storePair [] ("mfcc(1)".toList, "mfcc_1".toList)

theorem mfccMap_translates : Translates mfccMap mfccPairs := ⟨by decide +kernel, by decide +kernel⟩

/-- A frame that prints `value`, and the frame after it, which publishes it. -/
def mfccFrames (value : Str) : List Frame := [sampleFrame value "0.01".toList, sampleFrame "2".toList "0.02".toList]

def mfccLog (value : Str) : List LogMessage :=
  ["lld.mfcc[1] = ".toList ++ value, "tmeta:".toList, "time = 0.01".toList, "lld.mfcc[1] = 2".toList, "tmeta:".toList,
    "time = 0.02".toList].map fun text => ⟨text, [], []⟩

theorem mfccFrames_wellFormed {value : Str} (h : IsNumber value) : ∀ f ∈ mfccFrames value, f.WellFormed := by
  simp only [mfccFrames, List.forall_mem_cons]
  exact ⟨sampleFrame_wellFormed h (by unfold IsNumber; decide),
    sampleFrame_wellFormed (by unfold IsNumber; decide) (by unfold IsNumber; decide), by simp⟩

theorem mfccFrames_same (value : Str) : ∀ f ∈ mfccFrames value, ∀ g ∈ mfccFrames value, f.SameNames g := by
  have hsame (v t v' t' : Str) : (sampleFrame v t).SameNames (sampleFrame v' t') :=
    ⟨fun _ => Iff.rfl, fun _ => Iff.rfl⟩
  simp only [mfccFrames, List.forall_mem_cons]
  exact ⟨⟨hsame .., hsame .., by simp⟩, ⟨hsame .., hsame .., by simp⟩, by simp⟩

/-- The event of the first frame. -/
theorem exists_mfccEvent {value : Str} (h : IsNumber value)
    (hms : (mfccLog value).map (fun m => despace m.text) = (mfccFrames value).flatMap Frame.lines) :
    ∃ e, (e, sampleFrame value "0.01".toList) ∈ (Processor.events DecimalPrinter.allDigits.doubles "P".toList "T".toList
      "E".toList mfccMap (mfccLog value)).zip (mfccFrames value).dropLast := by
  have hviews := events_views DecimalPrinter.allDigits.doubles ⟨"P".toList, "T".toList, "E".toList⟩ mfccMap
    (mfccFrames_wellFormed h) (mfccFrames_same value) hms
  obtain ⟨e, es, -, -, hevents⟩ := List.forall₂_cons_right_iff.mp hviews
  refine ⟨e, ?_⟩
  rw [hevents]
  exact List.mem_cons_self

theorem faithful_iff_milli : ∃ e ∈ Processor.events DecimalPrinter.allDigits.doubles "P".toList "T".toList "E".toList
      mfccMap (mfccLog "-1.5e-03".toList),
    e.Faithful DecimalPrinter.allDigits mfccMap mfccPairs "mfcc(1)".toList "-1.5e-03".toList ↔
      ∃ n : ℤ, (⟨-15, 4⟩ : Decimal).value = n / 10 ^ 6 := by
  have hnum : IsNumber "-1.5e-03".toList := by
    unfold IsNumber
    decide
  have hms : (mfccLog "-1.5e-03".toList).map (fun m => despace m.text) =
      (mfccFrames "-1.5e-03".toList).flatMap Frame.lines := by decide +kernel
  obtain ⟨e, he⟩ := exists_mfccEvent hnum hms
  refine ⟨e, (List.of_mem_zip he).1, ?_⟩
  exact faithful_iff DecimalPrinter.allDigits (List.pairwise_singleton _ _) mfccMap_translates
    ⟨"P".toList, "T".toList, "E".toList⟩ (mfccFrames_wellFormed hnum) (mfccFrames_same _) hms he
    (show ("mfcc[1]".toList, "-1.5e-03".toList) ∈ (sampleFrame "-1.5e-03".toList "0.01".toList).lld from
      List.mem_cons_self) (by decide +kernel) (by decide +kernel)

/-- A tenth of a millionth is stored as zero. -/
theorem small_number_lost : ¬ ∀ (P : DecimalPrinter) (pairs : List (Str × Str)) (columnMap : ColumnMap) (ids : Ids)
    (frames : List Frame) (ms : List LogMessage) (e : Event Decimal) (f : Frame) (name num : Str) (x : Decimal),
    Apart pairs → Translates columnMap pairs → (∀ f ∈ frames, f.WellFormed) →
    (∀ f ∈ frames, ∀ g ∈ frames, f.SameNames g) →
    ms.map (fun m => despace m.text) = frames.flatMap Frame.lines →
    (e, f) ∈ (Processor.events P.doubles ids.participantId ids.trialId ids.experimentId columnMap ms).zip
      frames.dropLast →
    (name, num) ∈ f.lld → parenthesize name ∈ pairs.map Prod.fst → Decimal.read num = some x →
    e.Faithful P columnMap pairs (parenthesize name) num := by
  intro h
  have hnum : IsNumber "1e-07".toList := by
    unfold IsNumber
    decide
  have hms : (mfccLog "1e-07".toList).map (fun m => despace m.text) =
      (mfccFrames "1e-07".toList).flatMap Frame.lines := by decide +kernel
  obtain ⟨e, he⟩ := exists_mfccEvent hnum hms
  have hread : Decimal.read "1e-07".toList = some ⟨1, 7⟩ := by decide +kernel
  have hfaithful := h DecimalPrinter.allDigits mfccPairs mfccMap ⟨"P".toList, "T".toList, "E".toList⟩ _ _ e _
    "mfcc[1]".toList _ _ (List.pairwise_singleton _ _) mfccMap_translates (mfccFrames_wellFormed hnum)
    (mfccFrames_same _) hms he List.mem_cons_self (by decide +kernel) hread
  obtain ⟨m, v, rfl, hrepr, hshows⟩ := List.forall₂_zip (events_views DecimalPrinter.allDigits.doubles
    ⟨"P".toList, "T".toList, "E".toList⟩ mfccMap (mfccFrames_wellFormed hnum) (mfccFrames_same _) hms) he
  obtain ⟨n, hn⟩ := (faithful_view_iff DecimalPrinter.allDigits (List.pairwise_singleton _ _) mfccMap_translates hrepr
    hshows List.mem_cons_self (by decide +kernel) hread).mp hfaithful
  -- The number of millionths would be a tenth.
  have htenth : (10 * n : ℚ) = 1 := by
    rw [Decimal.value] at hn
    norm_num at hn
    linarith
  have hint : 10 * n = 1 := by exact_mod_cast htenth
  omega

end SpeechAnalyzer
