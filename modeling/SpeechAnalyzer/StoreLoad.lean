/-
From `PublishChunk` to `FeaturesBetween`: what is stored under a column's name
comes back under the openSMILE name of its row of the column file, rounded to
six digits.

Names go forward through the column map when a row is written and back through
the same map when it is read; that the two ways are inverse is all the file has
to provide (`Translates`). A row is written by the text of its statement, where
the postgres names stand without quotes.
-/
import SpeechAnalyzer.SqlStatement

namespace SpeechAnalyzer

open Lib SqlText

/-- The map leads each row's names to each other and knows no fixed column. -/
structure Translates (columnMap : ColumnMap) (pairs : List (Str × Str)) : Prop where
  rows : ∀ p ∈ pairs, columnMap.lookup p.1 = some p.2 ∧ columnMap.lookup p.2 = some p.1
  fixed : ∀ k ∈ fixedNames, columnMap.lookup k = none

/-- `PublishChunk` of one message after another: the database executes each
query. -/
def publishAll {ν : Type} (D : Doubles ν) : ColumnMap → Table → List (Json ν × Str) → Except Exn (ColumnMap × Table)
  | columnMap, t, [] => .ok (columnMap, t)
  | columnMap, t, (message, utcTimestamp) :: messages => do
    let (i, columnMap) ← DBWrapper.publishChunk D columnMap message
    publishAll D columnMap (t.execute (i.query utcTimestamp)) messages

/-- A message with a number for each openSMILE name of the file, and the
moment it is published. -/
structure Call (pairs : List (Str × Str)) where
  message : Json Decimal
  utcTimestamp : Str
  features : List (Str × Decimal)
  time : Decimal
  ids : Ids
  holds : Holds message features time ids
  names : (features.map Prod.fst).Perm (pairs.map Prod.fst)
  participantId : Plain ids.participantId
  trialId : Plain ids.trialId
  experimentId : Plain ids.experimentId

/-- The call's frame is in the interval, and of the participant and the trial. -/
def Call.Matches {pairs : List (Str × Str)} (startTime endTime : Decimal) (participantId trialId : Str)
    (c : Call pairs) : Prop :=
  startTime.value ≤ c.time.value ∧ c.time.value ≤ endTime.value ∧
    c.ids.participantId = participantId ∧ c.ids.trialId = trialId

instance {pairs : List (Str × Str)} (startTime endTime : Decimal) (participantId trialId : Str) (c : Call pairs) :
    Decidable (c.Matches startTime endTime participantId trialId) :=
  inferInstanceAs (Decidable (_ ∧ _ ∧ _ ∧ _))

/-- The features of the call under their openSMILE names, rounded: an object,
unless the file has no names. -/
structure Call.Returned {pairs : List (Str × Str)} (c : Call pairs) (j : Json Decimal) : Prop where
  fields : j.fields.Perm (c.features.map fun q => (q.1, .num q.2.round6))
  object : pairs ≠ [] → ∃ l, j = .obj l

section StoreLoad

variable {P : DecimalPrinter} {pairs : List (Str × Str)} {columnMap : ColumnMap}

/-! ## Names -/

theorem names_nodup (hapart : Apart pairs) : (pairs.map Prod.fst).Nodup :=
  List.pairwise_map.mpr (hapart.imp fun h => h.1)

theorem Translates.columnName_fst (h : Translates columnMap pairs) {p : Str × Str} (hp : p ∈ pairs) :
    columnName columnMap p.1 = p.2 := by
  rw [columnName, (h.rows p hp).1, Option.getD_some]

/-- Different names go to different columns: the map leads back. -/
theorem Translates.columnName_inj (h : Translates columnMap pairs) {a b : Str} (ha : a ∈ pairs.map Prod.fst)
    (hb : b ∈ pairs.map Prod.fst) (hab : columnName columnMap a = columnName columnMap b) : a = b := by
  obtain ⟨p, hp, rfl⟩ := List.mem_map.mp ha
  obtain ⟨q, hq, rfl⟩ := List.mem_map.mp hb
  rw [h.columnName_fst hp, h.columnName_fst hq] at hab
  have hback := (h.rows p hp).2
  rw [hab, (h.rows q hq).2, Option.some.injEq] at hback
  exact hback.symm

theorem Call.name_mem (c : Call pairs) {q : Str × Decimal} (hq : q ∈ c.features) :
    q.1 ∈ pairs.map Prod.fst := c.names.subset (List.mem_map_of_mem hq)

theorem Call.features_nodup (c : Call pairs) (hapart : Apart pairs) : (c.features.map Prod.fst).Nodup :=
  c.names.nodup_iff.mpr (names_nodup hapart)

/-- The columns of a call's INSERT are distinct. -/
theorem Call.columns_nodup (c : Call pairs) (hapart : Apart pairs) (h : Translates columnMap pairs) :
    (c.features.map fun q => columnName columnMap q.1).Nodup := by
  have hmap : (c.features.map fun q => columnName columnMap q.1) =
      (c.features.map Prod.fst).map (columnName columnMap) := by simp
  rw [hmap]
  refine (c.features_nodup hapart).map_on fun a ha b hb hab => ?_
  exact h.columnName_inj (c.names.subset ha) (c.names.subset hb) hab

/-! ## Writing -/

/-- The row a call appends. -/
def Call.row (P : DecimalPrinter) (columnMap : ColumnMap) (c : Call pairs) : Row where
  cells := c.features.map fun q => (columnName columnMap q.1, q.2.round6)
  secondsOffset := Decimal.read (P.num c.time)
  timestamp := c.utcTimestamp
  participant := some c.ids.participantId
  trialId := some c.ids.trialId
  experimentId := some c.ids.experimentId

theorem mapM_read_toFixed (l : List (Str × Decimal)) :
    (l.map fun q => q.2.toFixed).mapM Decimal.read = some (l.map fun q => q.2.round6) := by
  induction l with
  | nil => rfl
  | cons q l ih =>
    rw [List.map_cons, List.mapM_cons, Decimal.read_toFixed, ih]
    rfl

theorem numberCell_num (x : Decimal) : numberCell (P.num x) = some (Decimal.read (P.num x)) := by
  obtain ⟨y, hy, -⟩ := P.read_num x
  have hnull : P.num x ≠ "null".toList := by
    intro h
    have hnone : Decimal.read "null".toList = none := by decide
    rw [h, hnone] at hy
    exact absurd hy (by simp)
  rw [numberCell, if_neg hnull, hy]
  rfl

theorem rowInsert_row (c : Call pairs) :
    (rowInsert P.doubles columnMap c.features c.time c.ids).row c.utcTimestamp = some (c.row P columnMap) := by
  have hvalues : (rowInsert P.doubles columnMap c.features c.time c.ids).values.mapM Decimal.read =
      some (c.features.map fun q => q.2.round6) := mapM_read_toFixed c.features
  have htime : numberCell (rowInsert P.doubles columnMap c.features c.time c.ids).time =
      some (Decimal.read (P.num c.time)) := numberCell_num c.time
  have hids : textCell (rowInsert P.doubles columnMap c.features c.time c.ids).participant =
        some (some c.ids.participantId) ∧
      textCell (rowInsert P.doubles columnMap c.features c.time c.ids).trialId = some (some c.ids.trialId) ∧
      textCell (rowInsert P.doubles columnMap c.features c.time c.ids).experimentId =
        some (some c.ids.experimentId) :=
    ⟨textCell_quoted _ c.participantId, textCell_quoted _ c.trialId, textCell_quoted _ c.experimentId⟩
  rw [Insert.row, hvalues, htime, hids.1, hids.2.1, hids.2.2]
  simp only [rowInsert, Call.row, bind, Option.bind, List.zip_map']

/-- The table has the columns of the file and the five others, in any order. -/
def Table.HasColumns (t : Table) (pairs : List (Str × Str)) : Prop :=
  t.columns.Perm (pairs.map Prod.snd ++ fixedNames)

theorem insert_call {t : Table} (hapart : Apart pairs) (h : Translates columnMap pairs) (ht : t.HasColumns pairs)
    (c : Call pairs) :
    t.insert (rowInsert P.doubles columnMap c.features c.time c.ids) c.utcTimestamp =
      { t with rows := t.rows ++ [c.row P columnMap] } := by
  rw [Table.insert, rowInsert_row]
  refine if_pos ⟨c.columns_nodup hapart h, fun k hk => ?_⟩
  obtain ⟨q, hq, rfl⟩ := List.mem_map.mp hk
  obtain ⟨p, hp, hname⟩ := List.mem_map.mp (c.name_mem hq)
  rw [← hname, h.columnName_fst hp]
  refine ⟨ht.symm.subset (List.mem_append_left _ (List.mem_map_of_mem hp)), fun hfixed => ?_⟩
  have hnone := h.fixed _ hfixed
  rw [(h.rows p hp).2] at hnone
  exact absurd hnone (by simp)

/-- The statement of a call names its columns and has a word or a literal for
each value. -/
theorem sendable_call (h : Translates columnMap pairs) (hnames : ∀ p ∈ pairs, IsName p.2 ∧ foldCase p.2 = p.2)
    (c : Call pairs) :
    (rowInsert P.doubles columnMap c.features c.time c.ids).Sendable P.doubles.toEscape (some c.ids) where
  columns := by
    intro k hk
    obtain ⟨q, hq, rfl⟩ := List.mem_map.mp hk
    obtain ⟨p, hp, hname⟩ := List.mem_map.mp (c.name_mem hq)
    rw [← hname, h.columnName_fst hp]
    exact .inl (hnames p hp)
  values := by
    intro w hw
    obtain ⟨q, -, rfl⟩ := List.mem_map.mp hw
    exact isWord_of_isNumeral (P.doubles.toString_ne_nil q.2) (P.doubles.toString_numeral q.2)
  time := isWord_of_isNumeral (P.doubles.num_ne_nil c.time) (P.doubles.num_numeral c.time)
  length := by simp [rowInsert]
  participant := .plain c.participantId
  trialId := .plain c.trialId
  experimentId := .plain c.experimentId

/-- What the database does with the text of a call's statement. -/
theorem execute_call {t : Table} (hapart : Apart pairs) (h : Translates columnMap pairs)
    (hnames : ∀ p ∈ pairs, IsName p.2 ∧ foldCase p.2 = p.2) (ht : t.HasColumns pairs) (c : Call pairs)
    (hutc : '\'' ∉ c.utcTimestamp ∧ '"' ∉ c.utcTimestamp) :
    t.execute ((rowInsert P.doubles columnMap c.features c.time c.ids).query c.utcTimestamp) =
      { t with rows := t.rows ++ [c.row P columnMap] } := by
  have hfixed : ∀ k ∈ fixedNames, k ∈ t.columns := fun k hk => ht.symm.subset (List.mem_append_right _ hk)
  have hempty : [] ∉ t.columns := by
    intro hnil
    rcases List.mem_append.mp (ht.subset hnil) with hpair | hfix
    · obtain ⟨p, hp, hp2⟩ := List.mem_map.mp hpair
      exact (hnames p hp).1.1 hp2
    · revert hfix
      decide +kernel
  rw [execute_query (sendable_call h hnames c) hfixed hempty hutc]
  exact insert_call hapart h ht c

theorem publishAll_calls {t : Table} (hapart : Apart pairs) (h : Translates columnMap pairs)
    (hnames : ∀ p ∈ pairs, IsName p.2 ∧ foldCase p.2 = p.2) :
    ∀ (calls : List (Call pairs)) (columnMap' : ColumnMap) (rows : List Row), t.HasColumns pairs →
      (∀ k, columnName columnMap' k = columnName columnMap k) →
      (∀ c ∈ calls, '\'' ∉ c.utcTimestamp ∧ '"' ∉ c.utcTimestamp) →
      ∃ columnMap'', publishAll P.doubles columnMap' { t with rows } (calls.map fun c => (c.message, c.utcTimestamp)) =
        .ok (columnMap'', { t with rows := rows ++ calls.map (Call.row P columnMap) })
  | [], columnMap', rows, _, _, _ => ⟨columnMap', by simp [publishAll]⟩
  | c :: calls, columnMap', rows, ht, hcol, hutc => by
    obtain ⟨hfirst, hrest⟩ := List.forall_mem_cons.mp hutc
    obtain ⟨columnMap₁, hpub, hcol₁⟩ := publishChunk_holds (D := P.doubles) c.holds columnMap'
    have hrow : rowInsert P.doubles columnMap' c.features c.time c.ids =
        rowInsert P.doubles columnMap c.features c.time c.ids := by
      simp only [rowInsert, hcol]
    obtain ⟨columnMap'', hcalls⟩ := publishAll_calls (t := t) hapart h hnames calls columnMap₁
      (rows ++ [c.row P columnMap]) ht (fun k => (hcol₁ k).trans (hcol k)) hrest
    refine ⟨columnMap'', ?_⟩
    have hexecute := execute_call (P := P) (t := { t with rows }) hapart h hnames ht c hfirst
    rw [List.map_cons, publishAll, hpub]
    simp only [hrow, ok_bind, hexecute, hcalls, List.append_assoc, List.map_cons, List.singleton_append]

/-! ## Reading -/

/-- The assignments of the inner loop: one for each column the map knows. -/
def rowFields {ν : Type} (D : Doubles ν) (columnMap : ColumnMap) (columns : List Str) (row : Row) :
    List (Str × Json ν) :=
  columns.filterMap fun column => (columnMap.lookup column).map fun field =>
    (field, .num (D.atof (row.cellText column)))

/-- The object the inner loop makes of a row. -/
def rowObject {ν : Type} (D : Doubles ν) (columnMap : ColumnMap) (columns : List Str) (row : Row) : Json ν :=
  .ofFields (KeyMap.putAll (rowFields D columnMap columns row) [])

theorem rowMessage_eq {ν : Type} (D : Doubles ν) (columnMap : ColumnMap) (columns : List Str) (row : Row) :
    rowMessage D columnMap columns row = .ok (rowObject D columnMap columns row) := by
  rw [rowObject, ← Json.foldlM_setAt, rowFields, List.foldlM_filterMap, rowMessage]
  refine congrFun (congrFun (congrArg _ (funext fun message => funext fun column => ?_)) _) _
  unfold assignColumn
  cases columnMap.lookup column <;> rfl

theorem mapM_rowMessage_eq {ν : Type} (D : Doubles ν) (columnMap : ColumnMap) (columns : List Str)
    (rows : List Row) :
    rows.mapM (rowMessage D columnMap columns) = .ok (rows.map (rowObject D columnMap columns)) := by
  rw [funext (rowMessage_eq D columnMap columns)]
  exact List.mapM_pure

theorem cellText_cell {row : Row} {column : Str} (h : column ∉ fixedNames) :
    row.cellText column = ((row.cells.lookup column).map Decimal.print).getD [] := by
  simp only [fixedNames, List.mem_cons, List.not_mem_nil, or_false, not_or] at h
  obtain ⟨h₁, h₂, h₃, h₄, h₅⟩ := h
  rw [Row.cellText, if_neg h₁, if_neg h₂, if_neg h₃, if_neg h₄, if_neg h₅]

/-- Under its own column, each feature's text reads as its rounded value. -/
theorem Call.atof_cellText (c : Call pairs) (hapart : Apart pairs) (h : Translates columnMap pairs)
    {p : Str × Str} (hp : p ∈ pairs) {x : Decimal} (hx : (p.1, x) ∈ c.features) :
    P.doubles.atof ((c.row P columnMap).cellText p.2) = x.round6 := by
  have hfixed : p.2 ∉ fixedNames := fun hm => by
    have hnone := h.fixed _ hm
    rw [(h.rows p hp).2] at hnone
    exact absurd hnone (by simp)
  have hkeys : ((c.row P columnMap).cells.map Prod.fst).Nodup := by
    simpa [Call.row, Function.comp_def] using c.columns_nodup hapart h
  have hmem : (p.2, x.round6) ∈ (c.row P columnMap).cells :=
    List.mem_map.mpr ⟨(p.1, x), hx, by rw [h.columnName_fst hp]⟩
  rw [cellText_cell hfixed, KeyMap.lookup_of_mem hkeys hmem]
  exact Decimal.scan_print x.round6

/-- The columns the map knows are those of the file. -/
theorem rowFields_perm (h : Translates columnMap pairs) {columns : List Str}
    (hcolumns : columns.Perm (pairs.map Prod.snd ++ fixedNames)) (row : Row) :
    (rowFields P.doubles columnMap columns row).Perm
      (pairs.map fun p => (p.1, .num (P.doubles.atof (row.cellText p.2)))) := by
  have hfixed : rowFields P.doubles columnMap fixedNames row = [] := by
    refine List.filterMap_eq_nil_iff.mpr fun k hk => ?_
    rw [h.fixed k hk, Option.map_none]
  have hpairs : rowFields P.doubles columnMap (pairs.map Prod.snd) row =
      pairs.map fun p => (p.1, .num (P.doubles.atof (row.cellText p.2))) := by
    rw [rowFields, List.filterMap_map, ← List.filterMap_eq_map]
    refine List.filterMap_congr fun p hp => ?_
    simp only [Function.comp, (h.rows p hp).2, Option.map_some]
  have hsplit : rowFields P.doubles columnMap (pairs.map Prod.snd ++ fixedNames) row =
      pairs.map fun p => (p.1, .num (P.doubles.atof (row.cellText p.2))) := by
    rw [rowFields, List.filterMap_append, ← rowFields, ← rowFields, hfixed, hpairs, List.append_nil]
  exact hsplit ▸ hcolumns.filterMap _

theorem rowMessage_call {columns : List Str} (hapart : Apart pairs) (h : Translates columnMap pairs)
    (hcolumns : columns.Perm (pairs.map Prod.snd ++ fixedNames)) (c : Call pairs) :
    ∃ j, rowMessage P.doubles columnMap columns (c.row P columnMap) = .ok j ∧ c.Returned j := by
  -- Both sides are the openSMILE names, each with the value the call has for it.
  let value (o : Str) : Json Decimal := .num (((c.features.lookup o).map Decimal.round6).getD ⟨0, 0⟩)
  have hfeatures : (c.features.map fun q => (q.1, Json.num q.2.round6)) =
      (c.features.map Prod.fst).map fun o => (o, value o) := by
    rw [List.map_map]
    refine List.map_congr_left fun q hq => ?_
    simp [value, KeyMap.lookup_of_mem (c.features_nodup hapart) hq]
  have hpairs : (pairs.map fun p => (p.1, Json.num (P.doubles.atof ((c.row P columnMap).cellText p.2)))) =
      (pairs.map Prod.fst).map fun o => (o, value o) := by
    rw [List.map_map]
    refine List.map_congr_left fun p hp => ?_
    obtain ⟨q, hq, hname⟩ := List.mem_map.mp (c.names.symm.subset (List.mem_map_of_mem hp))
    have hx : (p.1, q.2) ∈ c.features := hname ▸ hq
    simp [value, KeyMap.lookup_of_mem (c.features_nodup hapart) hx, c.atof_cellText hapart h hp hx]
  have hperm : (rowFields P.doubles columnMap columns (c.row P columnMap)).Perm
      (c.features.map fun q => (q.1, Json.num q.2.round6)) := by
    refine (rowFields_perm h hcolumns _).trans ?_
    rw [hpairs, hfeatures]
    exact (c.names.map _).symm
  have hkeys : ((c.features.map fun q => (q.1, Json.num q.2.round6)).map Prod.fst).Nodup := by
    simpa [Function.comp_def] using c.features_nodup hapart
  have hfields : (KeyMap.putAll (rowFields P.doubles columnMap columns (c.row P columnMap)) []).Perm
      (c.features.map fun q => (q.1, Json.num q.2.round6)) :=
    (KeyMap.putAll_perm ((hperm.map Prod.fst).nodup_iff.mpr hkeys) .nil (by simp)).trans hperm
  refine ⟨_, rowMessage_eq .., ?_, fun hne => ?_⟩
  · rw [rowObject, Json.fields_ofFields]
    exact hfields
  · obtain ⟨p, hp⟩ := List.exists_mem_of_ne_nil pairs hne
    obtain ⟨q, hq, -⟩ := List.mem_map.mp (c.names.symm.subset (List.mem_map_of_mem hp))
    have hmem := hfields.symm.subset (List.mem_map_of_mem hq)
    obtain ⟨q', l, hcons⟩ := List.exists_cons_of_ne_nil (List.ne_nil_of_mem hmem)
    exact ⟨q' :: l, by rw [rowObject, hcons, Json.ofFields]⟩

theorem selected_iff {startTime endTime : Decimal} {participantId trialId : Str} (c : Call pairs) :
    (c.row P columnMap).Selected startTime endTime participantId trialId ↔
      c.Matches startTime endTime participantId trialId := by
  obtain ⟨y, hy, hval⟩ := P.read_num c.time
  simp only [Row.Selected, Call.row, Call.Matches, hy, Option.mem_some_iff, exists_eq_left', hval, Option.some.injEq,
    and_assoc]

theorem chunkExtract_calls {t : Table} {startTime endTime : Decimal}
    (hstart : ∃ n : ℤ, startTime.value = n / 10 ^ 6) (hend : ∃ n : ℤ, endTime.value = n / 10 ^ 6)
    {participantId trialId : Str} (hold : ∀ row ∈ t.rows, ¬ row.Selected startTime endTime participantId trialId)
    (calls : List (Call pairs)) :
    ({ t with rows := t.rows ++ calls.map (Call.row P columnMap) } : Table).chunkExtract startTime.toFixed
        endTime.toFixed participantId trialId =
      (calls.filter fun c => c.Matches startTime endTime participantId trialId).map (Call.row P columnMap) := by
  have hbounds (row : Row) : row.Selected startTime.round6 endTime.round6 participantId trialId ↔
      row.Selected startTime endTime participantId trialId := by
    rw [Row.Selected, Row.Selected, Decimal.value_round6 hstart, Decimal.value_round6 hend]
  have hnone : t.rows.filter (fun row => row.Selected startTime endTime participantId trialId) = [] :=
    List.filter_eq_nil_iff.mpr fun row hrow => by simpa using hold row hrow
  simp only [Table.chunkExtract, Decimal.read_toFixed, hbounds, List.filter_append, hnone, List.nil_append,
    List.filter_map, Function.comp_def, selected_iff]

/-- The outer loop over the answer. -/
theorem mapM_rowMessage {columns : List Str} (hapart : Apart pairs) (h : Translates columnMap pairs)
    (hcolumns : columns.Perm (pairs.map Prod.snd ++ fixedNames)) {answer : List Row} {calls : List (Call pairs)}
    (hanswer : List.Forall₂ (fun row c => row = c.row P columnMap) answer calls) :
    ∃ out, answer.mapM (rowMessage P.doubles columnMap columns) = .ok out ∧
      List.Forall₂ (fun j c => c.Returned j) out calls := by
  induction hanswer with
  | nil => exact ⟨[], rfl, .nil⟩
  | @cons row c answer calls hrow _ ih =>
    obtain ⟨out, hout, hreturned⟩ := ih
    obtain ⟨j, hj, hc⟩ := rowMessage_call (P := P) hapart h hcolumns c
    refine ⟨j :: out, ?_, .cons hc hreturned⟩
    rw [List.mapM_cons, hrow, hj]
    simp only [ok_bind, hout]
    rfl

end StoreLoad

/-- **What was published comes back.** After any calls of `PublishChunk`, each
statement executed as the text it is, a query with their texts for its
parameters returns one object for each call that matches, in the order the
database answers: under each openSMILE name of the file the value of that call
for that name, rounded to six digits. -/
theorem store_load (P : DecimalPrinter) {pairs : List (Str × Str)} {text : Str} (hlists : Lists pairs text)
    (hapart : Apart pairs) (hfixed : ∀ p ∈ pairs, p.1 ∉ fixedNames ∧ p.2 ∉ fixedNames)
    (hnames : ∀ p ∈ pairs, IsName p.2 ∧ foldCase p.2 = p.2) {t : Table} (ht : t.HasColumns pairs)
    (calls : List (Call pairs)) (hutc : ∀ c ∈ calls, '\'' ∉ c.utcTimestamp ∧ '"' ∉ c.utcTimestamp)
    {startTime endTime : Decimal}
    (hstart : ∃ n : ℤ, startTime.value = n / 10 ^ 6) (hend : ∃ n : ℤ, endTime.value = n / 10 ^ 6)
    {participantId trialId : Str} (hbound : cString participantId = participantId ∧ cString trialId = trialId)
    (hold : ∀ row ∈ t.rows, ¬ row.Selected startTime endTime participantId trialId) :
    ∃ columnMap columnMap' t', InitializesColumnMap { rest := text } columnMap ∧
      publishAll P.doubles columnMap t (calls.map fun c => (c.message, c.utcTimestamp)) = .ok (columnMap', t') ∧
      ∀ query, (∀ a b c d, (query a b c d).Perm (t'.chunkExtract a b c d)) →
        ∃ out matching, DBWrapper.featuresBetween P.doubles columnMap t'.columns query
            (startTime.toFixed, endTime.toFixed) participantId trialId = .ok out ∧
          matching.Perm (calls.filter fun c => c.Matches startTime endTime participantId trialId) ∧
          List.Forall₂ (fun j c => c.Returned j) out matching := by
  obtain ⟨columnMap, hinit, hrows, hnone⟩ := initializesColumnMap hlists hapart.namesOnce
  have htrans : Translates columnMap pairs := by
    refine ⟨hrows, fun k hk => hnone k (fun p hp => ⟨?_, ?_⟩) (.inr ?_)⟩
    · intro heq
      subst heq
      exact (hfixed p hp).1 hk
    · intro heq
      subst heq
      exact (hfixed p hp).2 hk
    · intro heq
      subst heq
      exact absurd hk (by decide)
  obtain ⟨columnMap', hpub⟩ := publishAll_calls (P := P) (t := t) hapart htrans hnames calls columnMap t.rows ht
    (fun _ => rfl) hutc
  refine ⟨columnMap, columnMap', _, hinit, hpub, fun query hquery => ?_⟩
  have hperm := hquery startTime.toFixed endTime.toFixed participantId trialId
  rw [chunkExtract_calls hstart hend hold] at hperm
  have hsame : List.Forall₂ (fun row c => row = c.row P columnMap)
      ((calls.filter fun c => c.Matches startTime endTime participantId trialId).map (Call.row P columnMap))
      (calls.filter fun c => c.Matches startTime endTime participantId trialId) :=
    List.forall₂_map_left_iff.mpr (List.forall₂_same.mpr fun _ _ => rfl)
  obtain ⟨matching, hanswer, hmatching⟩ := List.perm_comp_forall₂ hperm hsame
  obtain ⟨out, hout, hreturned⟩ := mapM_rowMessage hapart htrans ht hanswer
  refine ⟨out, matching, ?_, hmatching, hreturned⟩
  rw [DBWrapper.featuresBetween, hbound.1, hbound.2]
  exact hout

/-- A file of two rows, its table, and a call. -/
def samplePairs : List (Str × Str) := [("F0(1)".toList, "f0_1".toList), ("jitter".toList, "jitter".toList)]

def sampleTable : Table := { columns := samplePairs.map Prod.snd ++ fixedNames, rows := [] }

def sampleCall : Call samplePairs where
  message := completeMessage [("F0(1)".toList, ⟨2205, 1⟩), ("jitter".toList, ⟨12345678, 9⟩)] ⟨25, 2⟩
    ⟨"P-1".toList, "T_1".toList, "E".toList⟩
  utcTimestamp := "2021-06-01T10:00:00.000000Z".toList
  features := [("F0(1)".toList, ⟨2205, 1⟩), ("jitter".toList, ⟨12345678, 9⟩)]
  time := ⟨25, 2⟩
  ids := ⟨"P-1".toList, "T_1".toList, "E".toList⟩
  holds := holds_completeMessage _ _ _
  names := .refl _
  participantId := by
    unfold Plain
    decide
  trialId := by
    unfold Plain
    decide
  experimentId := by
    unfold Plain
    decide

theorem sample_lists : Lists samplePairs "F0(1) f0_1\njitter jitter\n".toList := by
  have hlines : rowLines samplePairs = "F0(1) f0_1\njitter jitter\n".toList := by decide
  rw [← hlines]
  exact lists_rowLines (by decide) (by decide)

theorem store_load_sample : ∃ columnMap columnMap' t',
    InitializesColumnMap { rest := "F0(1) f0_1\njitter jitter\n".toList } columnMap ∧
    publishAll DecimalPrinter.allDigits.doubles columnMap sampleTable
      ([sampleCall].map fun c => (c.message, c.utcTimestamp)) = .ok (columnMap', t') ∧
    ∀ query, (∀ a b c d, (query a b c d).Perm (t'.chunkExtract a b c d)) →
      ∃ out matching, DBWrapper.featuresBetween DecimalPrinter.allDigits.doubles columnMap t'.columns query
          ((⟨0, 0⟩ : Decimal).toFixed, (⟨1, 0⟩ : Decimal).toFixed) "P-1".toList "T_1".toList = .ok out ∧
        matching.Perm ([sampleCall].filter fun c => c.Matches ⟨0, 0⟩ ⟨1, 0⟩ "P-1".toList "T_1".toList) ∧
        List.Forall₂ (fun j c => c.Returned j) out matching :=
  store_load DecimalPrinter.allDigits sample_lists (by unfold Apart; decide) (by decide)
    (by
      unfold IsName
      decide +kernel) (show sampleTable.HasColumns samplePairs from List.Perm.refl _) [sampleCall] (by decide)
    ⟨0, by norm_num [Decimal.value]⟩ ⟨10 ^ 6, by norm_num [Decimal.value]⟩ (by decide) (by simp [sampleTable])

end SpeechAnalyzer
