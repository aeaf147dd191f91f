/-
Features the column file does not list. `format_to_db_string` answers the empty
string for such a name, so the INSERT names a column that no table has and the
database refuses it.

The message is never cleared: one line with such a feature is in every later
INSERT of its session, and none of them is stored (`silenced`). Nor is one whose
values are no numbers: `nan` and `inf` are printed without quotes.
-/
import SpeechAnalyzer.RecordedWords

namespace SpeechAnalyzer

open Lib

variable {ν : Type}

/-- The table of a column file: one column for each postgres name, and the fixed ones. -/
structure TableOf (pairs : List (Str × Str)) (columns : List Str) : Prop where
  columns : columns.Perm (pairs.map Prod.snd ++ fixedNames)
  apart : ∀ p ∈ pairs, p.2 ∉ fixedNames
  named : ∀ p ∈ pairs, p.2 ≠ []

/-- Every feature of these lines is in the column file. -/
def AllMapped (pairs : List (Str × Str)) (temps : List Str) : Prop :=
  ∀ temp ∈ temps, ∀ p ∈ featureOf Decimal.scan temp, p.1 ∈ pairs.map Prod.fst

/-- The texts of the view's values are those of numbers; the time may be null. -/
structure View.Numeric (D : Doubles ν) (v : View ν) : Prop where
  lld : ∀ p ∈ v.lld, (Decimal.read (D.toString p.2)).isSome
  time : (numberCell (v.timeJson.dump D.toPrinter)).isSome

section Columns

variable {pairs : List (Str × Str)} {columnMap : ColumnMap} {columns : List Str}

/-- A name's column is in the table exactly when the file lists the name. -/
theorem column_mem_iff (hboth : BothWays pairs columnMap) (htable : TableOf pairs columns) (name : Str) :
    (columnName columnMap name ∈ columns ∧ columnName columnMap name ∉ fixedNames) ↔ name ∈ pairs.map Prod.fst := by
  have hrow {p : Str × Str} (hp : p ∈ pairs) : columnMap.lookup p.1 = some p.2 :=
    hboth.lookup_iff.mpr ⟨p, hp, .inl rfl⟩
  refine ⟨fun h => ?_, fun h => ?_⟩
  · have hmem := (List.mem_append.mp (htable.columns.subset h.1)).resolve_right h.2
    obtain ⟨p, hp, hcolumn⟩ := List.mem_map.mp hmem
    cases hlookup : columnMap.lookup name with
    | none =>
      rw [columnName, hlookup] at hcolumn
      exact absurd hcolumn (htable.named p hp)
    | some column =>
      rw [columnName, hlookup, Option.getD_some] at hcolumn
      subst hcolumn
      rw [← hboth.injective (hrow hp) hlookup]
      exact List.mem_map_of_mem hp
  · obtain ⟨p, hp, rfl⟩ := List.mem_map.mp h
    rw [columnName, hrow hp, Option.getD_some]
    exact ⟨htable.columns.symm.subset (List.mem_append_left _ (List.mem_map_of_mem hp)), htable.apart p hp⟩

/-- Names the file lists have different columns. -/
theorem columns_nodup (hboth : BothWays pairs columnMap) {names : List Str} (hnodup : names.Nodup)
    (hmapped : ∀ name ∈ names, name ∈ pairs.map Prod.fst) : (names.map (columnName columnMap)).Nodup := by
  have hcolumn {name : Str} (h : name ∈ names) : columnMap.lookup name = some (columnName columnMap name) := by
    obtain ⟨p, hp, rfl⟩ := List.mem_map.mp (hmapped name h)
    have hlookup : columnMap.lookup p.1 = some p.2 := hboth.lookup_iff.mpr ⟨p, hp, .inl rfl⟩
    rw [columnName, hlookup, Option.getD_some]
  refine hnodup.map_on fun a ha b hb hab => ?_
  have ha' := hcolumn ha
  rw [hab] at ha'
  exact hboth.injective ha' (hcolumn hb)

end Columns

/-! ## Which views are stored -/

section Stored

variable {D : Doubles ν} {pairs : List (Str × Str)} {columnMap : ColumnMap} {columns : List Str} {v : View ν}

theorem isSome_mapM_read : ∀ texts : List Str,
    (texts.mapM Decimal.read).isSome ↔ ∀ text ∈ texts, (Decimal.read text).isSome
  | [] => by simp
  | text :: texts => by
    rw [List.forall_mem_cons, ← isSome_mapM_read texts, List.mapM_cons]
    cases Decimal.read text with
    | none => simp
    | some x => cases texts.mapM Decimal.read <;> simp

/-- The INSERT of a view has a row exactly when its values are of their columns. -/
theorem row_isSome_iff (columnMap : ColumnMap) (hplain : ∀ ids ∈ v.ids, ids.ArePlain) (utcTimestamp : Str) :
    ((v.insert D columnMap).row utcTimestamp).isSome ↔ v.Numeric D := by
  have hvalues : ((v.insert D columnMap).values.mapM Decimal.read).isSome ↔
      ∀ p ∈ v.lld, (Decimal.read (D.toString p.2)).isSome := by
    rw [isSome_mapM_read, View.insert, List.forall_mem_map]
  have hparticipant := textCell_idJson (D := D) fun ids hids => (hplain ids hids).participantId
  have htrial := textCell_idJson (D := D) fun ids hids => (hplain ids hids).trialId
  have hexperiment := textCell_idJson (D := D) fun ids hids => (hplain ids hids).experimentId
  have hnumeric : v.Numeric D ↔ (∀ p ∈ v.lld, (Decimal.read (D.toString p.2)).isSome) ∧
      (numberCell (v.timeJson.dump D.toPrinter)).isSome := ⟨fun h => ⟨h.lld, h.time⟩, fun h => ⟨h.1, h.2⟩⟩
  rw [hnumeric, ← hvalues, Insert.row]
  simp only [View.insert] at hparticipant htrial hexperiment ⊢
  rw [hparticipant, htrial, hexperiment]
  cases (v.lld.map fun p => D.toString p.2).mapM Decimal.read with
  | none => simp
  | some values => cases numberCell (v.timeJson.dump D.toPrinter) <;> simp

/-- A view is stored exactly when the file lists all its features and their
values are numbers. -/
theorem storedRow_isSome_iff (hboth : BothWays pairs columnMap) (htable : TableOf pairs columns)
    (hplain : ∀ ids ∈ v.ids, ids.ArePlain) (hsorted : KeyMap.Sorted v.lld) (utcTimestamp : Str) :
    ((v.insert D columnMap).storedRow columns utcTimestamp).isSome ↔
      (∀ p ∈ v.lld, p.1 ∈ pairs.map Prod.fst) ∧ v.Numeric D := by
  have hcolumns : (v.insert D columnMap).columns = (v.lld.map Prod.fst).map (columnName columnMap) := by
    simp [View.insert]
  have hcolumn := column_mem_iff hboth htable
  rw [← row_isSome_iff columnMap hplain utcTimestamp, Insert.storedRow, hcolumns]
  refine ⟨fun h => ?_, fun h => ?_⟩
  · split at h
    · next hstored =>
      exact ⟨fun p hp => (hcolumn p.1).mp (hstored.2 _ (List.mem_map_of_mem (List.mem_map_of_mem hp))), h⟩
    · cases h
  · have hnames : ∀ name ∈ v.lld.map Prod.fst, name ∈ pairs.map Prod.fst := by simpa using h.1
    have hmem : ∀ c ∈ (v.lld.map Prod.fst).map (columnName columnMap), c ∈ columns ∧ c ∉ fixedNames := by
      intro c hc
      obtain ⟨name, hname, rfl⟩ := List.mem_map.mp hc
      exact (hcolumn name).mpr (hnames name hname)
    rw [if_pos ⟨columns_nodup hboth hsorted.nodup_keys hnames, hmem⟩]
    exact h.2

end Stored

/-! ## Which calls store -/

theorem featureOf_name (atof : Str → ν) (temp : Str) :
    (featureOf atof temp).map Prod.fst = (featureOf Decimal.scan temp).map Prod.fst := by
  unfold featureOf
  split <;> rfl

/-- The features of a log are those its lines print. -/
theorem allMapped_iff (pairs : List (Str × Str)) (atof : Str → ν) (ids : Ids) (temps : List Str) :
    (∀ p ∈ (logView atof ids temps).lld, p.1 ∈ pairs.map Prod.fst) ↔ AllMapped pairs temps := by
  have hkeys (name : Str) : name ∈ (logView atof ids temps).lld.map Prod.fst ↔
      ∃ temp ∈ temps, ∃ p ∈ featureOf Decimal.scan temp, p.1 = name := by
    have hname (temp : Str) : (∃ p ∈ featureOf atof temp, p.1 = name) ↔
        ∃ p ∈ featureOf Decimal.scan temp, p.1 = name := by
      have hsame := featureOf_name atof temp
      simp only [Option.mem_def, ← Option.map_eq_some_iff, hsame]
    simp only [← hname]
    rw [logView, KeyMap.mem_keys_putAll]
    simp only [List.map_nil, List.not_mem_nil, or_false, List.mem_map, List.mem_filterMap, Option.mem_def]
    constructor
    · rintro ⟨p, ⟨temp, htemp, hp⟩, hname⟩
      exact ⟨temp, htemp, p, hp, hname⟩
    · rintro ⟨temp, htemp, p, hp, hname⟩
      exact ⟨p, ⟨temp, htemp, hp⟩, hname⟩
  refine ⟨fun h temp htemp p hp => ?_, fun h p hp => ?_⟩
  · obtain ⟨q, hq, hname⟩ := List.mem_map.mp ((hkeys p.1).mpr ⟨temp, htemp, p, hp, rfl⟩)
    rw [← hname]
    exact h q hq
  · obtain ⟨temp, htemp, q, hq, hname⟩ := (hkeys p.1).mp (List.mem_map_of_mem hp)
    rw [← hname]
    exact h temp htemp q hq

/-- A session's processor after its log. -/
theorem session_state (D : Doubles ν) (columns : List Str) : ∀ (s : Processor ν) (ds : List Delivery),
    (Mealy.run (sessionStep D columns) s ds).1 = (Mealy.run (Processor.step D) s (ds.map Delivery.message)).1
  | _, [] => rfl
  | s, d :: ds => by
    rw [Mealy.run_cons, List.map_cons, Mealy.run_cons]
    exact session_state D columns _ ds

section Calls

variable {D : Doubles ν} {pairs : List (Str × Str)} {columnMap : ColumnMap} {columns : List Str} {ids : Ids}

/-- The rows of a call, from the log before it. -/
theorem rows_of_call (D : Doubles ν) (columnMap : ColumnMap) (columns : List Str) (ids : Ids)
    (ds : List Delivery) (d : Delivery) :
    (sessionStep D columns (Mealy.run (sessionStep D columns) (ids.processor columnMap) ds).1 d).2 =
      if Contains "lld".toList (despace d.message.text) ∧ InTmeta (ds.map fun d => despace d.message.text) then
        (((logView D.atof ids (ds.map fun d => despace d.message.text)).insert D columnMap).storedRow columns
          d.utcTimestamp).toList
      else [] := by
  obtain ⟨message, -, hevents⟩ := (sim_log D ids columnMap (ds.map Delivery.message)).step_events (D := D) d.message
  rw [sessionStep, session_state, hevents, List.map_map]
  simp only [decide_eq_true_eq, List.flatMap_append, Function.comp_def]
  have hthrown : (if despace d.message.text = "lld".toList then [(.thrown .outOfRange : Event ν)]
      else []).flatMap (Event.rows columns d.utcTimestamp) = [] := by
    split <;> rfl
  rw [hthrown, List.append_nil]
  split
  · simp [Event.rows]
  · rfl

/-- A call of a session by itself stores a row exactly when it publishes, the
file lists every feature of the log before it and the last values are numbers. -/
theorem rows_of_call_iff (hboth : BothWays pairs columnMap) (htable : TableOf pairs columns) (hplain : ids.ArePlain)
    (ds : List Delivery) (d : Delivery) :
    (sessionStep D columns (Mealy.run (sessionStep D columns) (ids.processor columnMap) ds).1 d).2 ≠ [] ↔
      (Contains "lld".toList (despace d.message.text) ∧ InTmeta (ds.map fun d => despace d.message.text)) ∧
        AllMapped pairs (ds.map fun d => despace d.message.text) ∧
        (logView D.atof ids (ds.map fun d => despace d.message.text)).Numeric D := by
  generalize htemps : (ds.map fun d => despace d.message.text) = temps
  have hids : ∀ i ∈ (logView D.atof ids temps).ids, i.ArePlain := by
    intro i hi
    rw [logView] at hi
    split at hi
    · cases hi
    · obtain rfl := Option.some.inj hi
      exact hplain
  have hstored := storedRow_isSome_iff (D := D) hboth htable hids (KeyMap.Sorted.nil.putAll) d.utcTimestamp
  rw [rows_of_call, htemps, ← allMapped_iff pairs D.atof ids]
  by_cases hpub : Contains "lld".toList (despace d.message.text) ∧ InTmeta temps
  · rw [if_pos hpub, ← hstored, and_iff_right hpub]
    cases ((logView D.atof ids temps).insert D columnMap).storedRow columns d.utcTimestamp <;> simp
  · rw [if_neg hpub]
    exact ⟨fun h => absurd rfl h, fun h => absurd h.1 hpub⟩

/-- After a feature the file does not list, a session by itself stores nothing. -/
theorem rows_after_unmapped (hboth : BothWays pairs columnMap) (htable : TableOf pairs columns)
    (hplain : ids.ArePlain) {ds : List Delivery}
    (hunmapped : ¬ AllMapped pairs (ds.map fun d => despace d.message.text)) (ds' : List Delivery) : (Mealy.run (sessionStep D columns) (ids.processor columnMap) (ds ++ ds')).2 =
      (Mealy.run (sessionStep D columns) (ids.processor columnMap) ds).2 := by
  induction ds' using List.reverseRecOn with
  | nil => rw [List.append_nil]
  | append_singleton ds' d ih =>
    have hnone := mt (rows_of_call_iff (D := D) hboth htable hplain (ds ++ ds') d).mp fun h =>
      hunmapped fun temp htemp => h.2.1 temp (by rw [List.map_append]; exact List.mem_append_left _ htemp)
    rw [← List.append_assoc, Mealy.run_append, Mealy.run_cons, Mealy.run_nil, not_ne_iff.mp hnone, ih]
    simp only [List.append_nil]

end Calls

/-! ## In a recording -/

section Recordings

variable {κ : Type} [DecidableEq κ]

theorem mfccMap_bothWays : BothWays mfccPairs mfccMap := by
  have hsorted : KeyMap.Sorted (storePair [] ("mfcc(1)".toList, "mfcc_1".toList)) := KeyMap.Sorted.nil.put.put
  refine .of_lookup hsorted (by decide +kernel) fun k hk => ?_
  obtain ⟨hfirst, hsecond⟩ := hk _ (.head _)
  rw [mfccMap, lookup_storePair, if_neg hsecond, if_neg hfirst]
  rfl

theorem mfccTable_of : TableOf mfccPairs mfccTable.columns := ⟨.refl _, by decide, by decide⟩

/-- A line of a feature. -/
def featureLine (text : Str) : Delivery := { message := { text, headerTime := [], msgTime := [] }, utcTimestamp := [] }

/-- **One unknown feature silences a session.** Once a session has printed a
feature the column file does not list, whatever is printed later by any
session, no row added to the table has its ids, which no other session has. -/
theorem silenced (D : Doubles ν) {pairs : List (Str × Str)} {columnMap : ColumnMap}
    (hboth : BothWays pairs columnMap) {t : Table} (htable : TableOf pairs t.columns) {ids : κ → Ids}
    (hplain : ∀ k, (ids k).ArePlain) {k : κ} (hids : ∀ k', k' ≠ k → ids k' ≠ ids k) {ds : List (κ × Delivery)}
    (hunmapped : ¬ AllMapped pairs ((Mealy.only k ds).map fun d => despace d.message.text))
    (ds' : List (κ × Delivery)) : ∃ added,
      ((Recording.start ids columnMap t).run D (ds ++ ds')).table.rows =
        ((Recording.start ids columnMap t).run D ds).table.rows ++ added ∧
      ∀ row ∈ added, ¬ row.HasIds (some (ids k)) := by
  obtain ⟨stored, added, hbefore, hafter, honly⟩ := stored_append D ids columnMap t ds ds'
  refine ⟨added.map Prod.snd, ?_, fun row hrow hrowIds => ?_⟩
  · rw [hbefore, hafter, List.map_append, List.append_assoc]
  obtain ⟨⟨k', row⟩, hmem, rfl⟩ := List.mem_map.mp hrow
  have hk : k' ≠ k := by
    intro hk
    subst hk
    have hrows := rows_after_unmapped (D := D) hboth htable (hplain k') hunmapped (Mealy.only k' ds')
    rw [← Mealy.only_append, ← (honly k').1, ← (honly k').2, Mealy.only_append] at hrows
    exact List.ne_nil_of_mem (Mealy.mem_only.mpr hmem) (List.append_right_eq_self.mp hrows)
  obtain ⟨first, rest, hrows, -, hfirst, hrest⟩ :=
    rows_attributed D columnMap t.columns (hplain k') (Mealy.only k' (ds ++ ds'))
  have hother : row ∈ first ++ rest := by
    rw [← hrows, ← (honly k').2]
    exact Mealy.mem_only.mpr (List.mem_append_right _ hmem)
  rcases List.mem_append.mp hother with hm | hm
  · have hparticipant := (hfirst _ hm).participant.symm.trans hrowIds.participant
    cases hparticipant
  · exact hids k' hk ((hrest _ hm).inj hrowIds)

end Recordings

/-- The two sessions, one of which prints a feature with another name. -/
def oddLines : List (Bool × Delivery) := (false, featureLine "lld.pitch = 9".toList) :: mixedLines

theorem oddLines_unmapped :
    ¬ AllMapped mfccPairs ((Mealy.only false oddLines).map fun d => despace d.message.text) := by
  intro h
  have hmem : "lld.pitch=9".toList ∈ (Mealy.only false oddLines).map fun d => despace d.message.text := by
    decide +kernel
  have hfeature : featureOf Decimal.scan "lld.pitch=9".toList = some ("pitch".toList, ⟨9, 0⟩) := by decide +kernel
  exact absurd (h _ hmem _ hfeature) (by decide +kernel)

theorem silenced_two : ∃ added,
    ((Recording.start twoIds mfccMap mfccTable).run DecimalPrinter.allDigits.doubles
        (oddLines ++ mixedLines)).table.rows =
      ((Recording.start twoIds mfccMap mfccTable).run DecimalPrinter.allDigits.doubles oddLines).table.rows ++ added ∧
    ∀ row ∈ added, ¬ row.HasIds (some (twoIds false)) :=
  silenced DecimalPrinter.allDigits.doubles mfccMap_bothWays mfccTable_of twoIds_plain (by decide) oddLines_unmapped
    mixedLines

end SpeechAnalyzer
