/-
The order of the rows: `CHUNK_EXTRACT` has no ORDER BY, so the database answers
the rows it matches in any order, and the loops of `FeaturesBetween` and
`ProcessASRMessage` keep the order they get. A word's features are then the same
for every order only when all rows of its answer print the same numbers.
-/
import SpeechAnalyzer.Lib.JsonText
import SpeechAnalyzer.Publication

namespace SpeechAnalyzer

open Lib ASRProcessor

variable {ν : Type}

/-- How the database orders the rows of each answer. -/
structure RowOrder where
  order : ℕ → List Row → List Row
  perm : ∀ n rows, (order n rows).Perm rows

def Row.offset (row : Row) : ℚ := (row.secondsOffset.map Decimal.value).getD 0

/-- Rows in increasing `seconds_offset`. -/
def Increasing (rows : List Row) : Prop := rows.Pairwise fun r r' => r.offset ≤ r'.offset

/-- The rows `CHUNK_EXTRACT` matches in the `n`-th call. -/
def matched (t : Table) (bounds : ℕ → Str × Str) (ids : Ids) (n : ℕ) : List Row :=
  t.chunkExtract (bounds n).1 (bounds n).2 (cString ids.participantId) (cString ids.trialId)

/-- What `ProcessASRMessage` sends when the database answers in this order. -/
def sentMessage (D : Doubles ν) (columnMap : ColumnMap) (t : Table) (bounds : ℕ → Str × Str) (m : Json ν)
    (o : RowOrder) : Except Exn (Request ν) :=
  request D.toPrinter (databaseQuery D columnMap t.columns (fun n a b c d => o.order n (t.chunkExtract a b c d)) bounds)
    m

/-- The message does not depend on the order, and is the one of rows in
increasing `seconds_offset`. -/
structure OrderFree (D : Doubles ν) (columnMap : ColumnMap) (t : Table) (bounds : ℕ → Str × Str) (m : Json ν) :
    Prop where
  same : ∀ o o', sentMessage D columnMap t bounds m o = sentMessage D columnMap t bounds m o'
  increasing : ∀ o, ∃ o' : RowOrder, (∀ n rows, Increasing (o'.order n rows)) ∧
    sentMessage D columnMap t bounds m o = sentMessage D columnMap t bounds m o'

/-! ## The values of a row -/

/-- The column whose value a field ends up with: the last one the map gives
this field. -/
def fieldColumn (columnMap : ColumnMap) (columns : List Str) (field : Str) : Option Str :=
  (columns.filter fun column => columnMap.lookup column = some field).getLast?

def fieldValue (D : Doubles ν) (columnMap : ColumnMap) (columns : List Str) (field : Str) (row : Row) : ν :=
  D.atof (((fieldColumn columnMap columns field).map row.cellText).getD [])

/-- Two rows print the same number for every mapped feature. -/
def Alike (D : Doubles ν) (columnMap : ColumnMap) (columns : List Str) (r r' : Row) : Prop :=
  ∀ field column, fieldColumn columnMap columns field = some column →
    D.num (D.atof (r.cellText column)) = D.num (D.atof (r'.cellText column))

section Values

variable {D : Doubles ν} {columnMap : ColumnMap} {columns : List Str}

/-- The assignments to one field are those of its columns. -/
theorem filter_assignments {α : Type} (value : Str → α) (field : Str) :
    (columns.filterMap fun column => (columnMap.lookup column).map fun field => (field, value column)).filter
        (·.1 == field) =
      (columns.filter fun column => columnMap.lookup column = some field).map fun column => (field, value column) := by
  induction columns with
  | nil => rfl
  | cons column columns ih =>
    rw [List.filterMap_cons]
    cases hlookup : columnMap.lookup column with
    | none => simp [hlookup, ih]
    | some field' =>
      by_cases hfield : field' = field
      · subst hfield
        simp [hlookup, ih]
      · simp [hlookup, hfield, ih]

theorem lookup_assignments {α : Type} (value : Str → α) (field : Str) :
    (KeyMap.putAll (columns.filterMap fun column => (columnMap.lookup column).map fun field => (field, value column))
      []).lookup field = (fieldColumn columnMap columns field).map value := by
  rw [KeyMap.lookup_putAll, filter_assignments, List.getLast?_map, fieldColumn]
  cases (columns.filter fun column => columnMap.lookup column = some field).getLast? <;> rfl

theorem mem_fieldNames {field : Str} :
    field ∈ fieldNames columnMap columns ↔ ∃ column, fieldColumn columnMap columns field = some column := by
  rw [fieldNames, KeyMap.mem_keys_iff, lookup_assignments fun _ => ()]
  simp

theorem path_rowObject {field : Str} (hfield : field ∈ fieldNames columnMap columns) (row : Row) :
    Json.path [field] (rowObject D columnMap columns row) = .num (fieldValue D columnMap columns field row) := by
  obtain ⟨column, hcolumn⟩ := mem_fieldNames.mp hfield
  rw [Json.path, rowObject, Json.fields_ofFields, rowFields, lookup_assignments, hcolumn, fieldValue, hcolumn]
  rfl

/-- The lists of a history are the rows' numbers. -/
theorem lists_rowsHistory (rows : List Row) :
    lists (fieldNames columnMap columns) (rowsHistory D columnMap columns rows).column =
      Json.numberLists (fieldNames columnMap columns) fun field =>
        rows.map (fieldValue D columnMap columns field) := by
  refine lists_congr fun field hfield => ?_
  rw [History.column, rowsHistory, List.map_map, List.map_map]
  exact List.map_congr_left fun row _ => path_rowObject hfield row

theorem features_rowsHistory_iff {rows rows' : List Row} (hrows : rows ≠ []) (hrows' : rows' ≠ []) :
    (rowsHistory D columnMap columns rows).features D.toPrinter =
        (rowsHistory D columnMap columns rows').features D.toPrinter ↔
      ∀ field ∈ fieldNames columnMap columns, rows.map (fun row => D.num (fieldValue D columnMap columns field row)) =
        rows'.map fun row => D.num (fieldValue D columnMap columns field row) := by
  have hfeatures {rows : List Row} (h : rows ≠ []) : (rowsHistory D columnMap columns rows).features D.toPrinter =
      .str ((Json.ofFields (Json.numberLists (fieldNames columnMap columns) fun field =>
        rows.map (fieldValue D columnMap columns field))).dump D.toPrinter) := by
    rw [← lists_rowsHistory]
    obtain ⟨row, rows, rfl⟩ := List.exists_cons_of_ne_nil h
    rfl
  rw [hfeatures hrows, hfeatures hrows', Json.str.injEq,
    Json.dump_numberLists_iff (by simpa using hrows) (by simpa using hrows')]
  simp only [List.map_map, Function.comp_def]

theorem alike_iff {r r' : Row} : Alike D columnMap columns r r' ↔ ∀ field ∈ fieldNames columnMap columns,
    D.num (fieldValue D columnMap columns field r) = D.num (fieldValue D columnMap columns field r') := by
  refine ⟨fun h field hfield => ?_, fun h field column hcolumn => ?_⟩
  · obtain ⟨column, hcolumn⟩ := mem_fieldNames.mp hfield
    rw [fieldValue, fieldValue, hcolumn]
    exact h field column hcolumn
  · have hvalue := h field (mem_fieldNames.mpr ⟨column, hcolumn⟩)
    rwa [fieldValue, fieldValue, hcolumn] at hvalue

end Values

/-! ## Every order -/

/-- What is mapped over a list is the same for every order of it exactly when
it is the same for all members. -/
theorem map_perm_iff {α β : Type} {g : α → β} {l : List α} :
    (∀ l₁ l₂ : List α, l₁.Perm l → l₂.Perm l → l₁.map g = l₂.map g) ↔ ∀ a ∈ l, ∀ b ∈ l, g a = g b := by
  refine ⟨fun h a ha b hb => ?_, fun h l₁ l₂ h₁ h₂ => ?_⟩
  · obtain ⟨s, t, hs⟩ := List.append_of_mem ha
    obtain ⟨s', t', hs'⟩ := List.append_of_mem hb
    have hfirst := h (a :: (s ++ t)) (b :: (s' ++ t')) (hs ▸ List.perm_middle.symm) (hs' ▸ List.perm_middle.symm)
    exact (List.cons.inj hfirst).1
  · cases l with
    | nil => rw [h₁.eq_nil, h₂.eq_nil]
    | cons a l =>
      have hconst {l' : List α} (hl : l'.Perm (a :: l)) : l'.map g = List.replicate (a :: l).length (g a) := by
        rw [List.eq_replicate_iff, List.length_map, hl.length_eq]
        refine ⟨rfl, fun b hb => ?_⟩
        obtain ⟨c, hc, rfl⟩ := List.mem_map.mp hb
        exact h c (hl.subset hc) a List.mem_cons_self
      rw [hconst h₁, hconst h₂]

/-- The answer `rows` to the `n`-th call in this order, every other answer in table order. -/
def RowOrder.answer (n : ℕ) {rows rows' : List Row} (h : rows'.Perm rows) : RowOrder where
  order k l := if k = n ∧ l = rows then rows' else l
  perm k l := by
    split
    · next hl => exact hl.2 ▸ h
    · exact .refl l

theorem RowOrder.order_answer (n : ℕ) {rows rows' : List Row} (h : rows'.Perm rows) :
    (RowOrder.answer n h).order n rows = rows' := if_pos ⟨rfl, rfl⟩

/-- Every answer in increasing `seconds_offset`. -/
def RowOrder.byOffset : RowOrder where
  order _ rows := rows.mergeSort fun r r' => r.offset ≤ r'.offset
  perm _ rows := List.mergeSort_perm rows _

theorem RowOrder.increasing_byOffset (n : ℕ) (rows : List Row) : Increasing (RowOrder.byOffset.order n rows) := by
  have htrans (a b c : Row) : decide (a.offset ≤ b.offset) = true → decide (b.offset ≤ c.offset) = true →
      decide (a.offset ≤ c.offset) = true := by simpa using le_trans
  have htotal (a b : Row) : (decide (a.offset ≤ b.offset) || decide (b.offset ≤ a.offset)) = true := by
    simpa using le_total a.offset b.offset
  exact (List.pairwise_mergeSort htrans htotal rows).imp of_decide_eq_true

section Orders

variable {D : Doubles ν} {columnMap : ColumnMap} {t : Table} {bounds : ℕ → Str × Str} {m : Json ν} {ids : Ids}
  {words : List (Json ν)}

theorem sentMessage_eq_iff (hm : AsrMessage m ids words) (o o' : RowOrder) :
    sentMessage D columnMap t bounds m o = sentMessage D columnMap t bounds m o' ↔
      ∀ n < words.length,
        (rowsHistory D columnMap t.columns (o.order n (matched t bounds ids n))).features D.toPrinter =
          (rowsHistory D columnMap t.columns (o'.order n (matched t bounds ids n))).features D.toPrinter :=
  request_eq_iff hm (returns_databaseQuery D columnMap t.columns _ bounds ids words)
    (returns_databaseQuery D columnMap t.columns _ bounds ids words)

/-- One word's features are the same in every order exactly when its rows are alike. -/
theorem features_order_iff (rows : List Row) :
    (∀ l₁ l₂ : List Row, l₁.Perm rows → l₂.Perm rows → (rowsHistory D columnMap t.columns l₁).features D.toPrinter =
      (rowsHistory D columnMap t.columns l₂).features D.toPrinter) ↔
    ∀ r ∈ rows, ∀ r' ∈ rows, Alike D columnMap t.columns r r' := by
  cases rows with
  | nil => simp +contextual
  | cons row rows =>
    have hne {l : List Row} (h : l.Perm (row :: rows)) : l ≠ [] := fun hnil => by
      rw [hnil] at h
      exact absurd h.symm.eq_nil (List.cons_ne_nil _ _)
    simp only [alike_iff]
    refine ⟨fun h r hr r' hr' field hfield => ?_, fun h l₁ l₂ h₁ h₂ => ?_⟩
    · exact map_perm_iff.mp (fun l₁ l₂ h₁ h₂ => (features_rowsHistory_iff (hne h₁) (hne h₂)).mp (h l₁ l₂ h₁ h₂) field
        hfield) r hr r' hr'
    · exact (features_rowsHistory_iff (hne h₁) (hne h₂)).mpr fun field hfield =>
        map_perm_iff.mpr (fun r hr r' hr' => h r hr r' hr' field hfield) l₁ l₂ h₁ h₂

theorem OrderFree.alike (h : OrderFree D columnMap t bounds m) (hm : AsrMessage m ids words) {n : ℕ}
    (hn : n < words.length) :
    ∀ r ∈ matched t bounds ids n, ∀ r' ∈ matched t bounds ids n, Alike D columnMap t.columns r r' := by
  refine (features_order_iff _).mp fun l₁ l₂ h₁ h₂ => ?_
  have hfeatures := (sentMessage_eq_iff hm (.answer n h₁) (.answer n h₂)).mp (h.same _ _) n hn
  rwa [RowOrder.order_answer, RowOrder.order_answer] at hfeatures

/-- **The order shows unless each word's rows print the same numbers.** For
every well-formed ASR message, every table and whatever the bounds' pointers
lead to. -/
theorem orderFree_iff (D : Doubles ν) (columnMap : ColumnMap) (t : Table) (bounds : ℕ → Str × Str)
    (hm : AsrMessage m ids words) : OrderFree D columnMap t bounds m ↔
      ∀ n < words.length, ∀ r ∈ matched t bounds ids n, ∀ r' ∈ matched t bounds ids n,
        Alike D columnMap t.columns r r' := by
  refine ⟨fun h n hn => h.alike hm hn, fun h => ?_⟩
  have hsame (o o' : RowOrder) : sentMessage D columnMap t bounds m o = sentMessage D columnMap t bounds m o' :=
    (sentMessage_eq_iff hm o o').mpr fun n hn =>
      (features_order_iff _).mpr (h n hn) _ _ (o.perm n _) (o'.perm n _)
  exact ⟨hsame, fun o => ⟨.byOffset, RowOrder.increasing_byOffset, hsame o _⟩⟩

end Orders

/-- Two frames of one participant, half a second and a second after the start. -/
def jitterRow (value offset : Decimal) : Row where
  cells := [("jitter".toList, value)]
  secondsOffset := some offset
  timestamp := []
  participant := some "P".toList
  trialId := some "T".toList
  experimentId := some "E".toList

def jitterTable : Table := ⟨["jitter".toList], [jitterRow ⟨15, 1⟩ ⟨5, 1⟩, jitterRow ⟨25, 1⟩ ⟨1, 0⟩]⟩

def jitterMap : ColumnMap := [("jitter".toList, "jitter".toList)]

/-- The bounds of a first word that covers both frames. -/
def jitterBounds (_ : ℕ) : Str × Str := ("0".toList, "1".toList)

theorem orderFree_iff_jitter :
    OrderFree DecimalPrinter.allDigits.doubles jitterMap jitterTable jitterBounds (sampleUtterance sampleWords) ↔
      ∀ n < sampleWords.length,
        ∀ r ∈ matched jitterTable jitterBounds ⟨"P".toList, "T".toList, "E".toList⟩ n,
        ∀ r' ∈ matched jitterTable jitterBounds ⟨"P".toList, "T".toList, "E".toList⟩ n,
          Alike DecimalPrinter.allDigits.doubles jitterMap jitterTable.columns r r' :=
  orderFree_iff _ _ _ _ (asrMessage_sampleUtterance sampleWords_times)

/-- Two frames with different values, in two orders. -/
theorem row_order_shows : ¬ ∀ (D : Doubles Decimal) (columnMap : ColumnMap) (t : Table) (bounds : ℕ → Str × Str)
    (m : Json Decimal) (ids : Ids) (words : List (Json Decimal)), AsrMessage m ids words →
    OrderFree D columnMap t bounds m := by
  intro h
  have hfree := h DecimalPrinter.allDigits.doubles jitterMap jitterTable jitterBounds _ _ _
    (asrMessage_sampleUtterance sampleWords_times)
  have hmatched : matched jitterTable jitterBounds ⟨"P".toList, "T".toList, "E".toList⟩ 0 = jitterTable.rows := by
    decide +kernel
  have halike := hfree.alike (asrMessage_sampleUtterance sampleWords_times) (show 0 < sampleWords.length by decide)
  rw [hmatched] at halike
  have hnum := halike (jitterRow ⟨15, 1⟩ ⟨5, 1⟩) (by decide) (jitterRow ⟨25, 1⟩ ⟨1, 0⟩) (by decide) "jitter".toList
    "jitter".toList (by decide +kernel)
  revert hnum
  decide +kernel

end SpeechAnalyzer
