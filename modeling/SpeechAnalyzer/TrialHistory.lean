/-
The table over several trials. Sessions of all trials INSERT into it, and the
start of a trial deletes what there is of it. A query names its trial, so what
an ASR message is told depends on its own trial's sessions only
(`trials_apart`), and on nothing from before the trial's last start but what
its sessions still carry with them (`start_forgets`). When the sessions are new
after that start, the trial's rows are those they record by themselves
(`rows_of_trial`).
-/
import SpeechAnalyzer.RecordedWords

namespace SpeechAnalyzer

open Lib ASRProcessor

variable {ν : Type}

/-- A session's log message, or the start of a trial, where the Manager calls
`ClearTrial`. -/
inductive Happening (κ : Type)
  | line (k : κ) (d : Delivery)
  | start (trialId : Str)

section Histories

variable {κ : Type} [DecidableEq κ]

def Recording.happen (D : Doubles ν) (r : Recording κ ν) : Happening κ → Recording κ ν
  | .line k d => r.step D (k, d)
  | .start trialId => { r with table := { r.table with rows := DBWrapper.clearTrial id trialId r.table.rows } }

def Recording.runAll (D : Doubles ν) (r : Recording κ ν) (hs : List (Happening κ)) : Recording κ ν :=
  hs.foldl (Recording.happen D) r

/-- The same sessions on an empty table. -/
def Recording.emptied (r : Recording κ ν) : Recording κ ν := ⟨r.processors, ⟨r.table.columns, []⟩⟩

/-- A log message of one of the trial's sessions, or its start. -/
def Happening.About (ids : κ → Ids) (trialId : Str) : Happening κ → Prop
  | .line k _ => (ids k).trialId = cString trialId
  | .start trialId' => cString trialId' = cString trialId

instance (ids : κ → Ids) (trialId : Str) : DecidablePred (Happening.About ids trialId)
  | .line k _ => inferInstanceAs (Decidable ((ids k).trialId = cString trialId))
  | .start trialId' => inferInstanceAs (Decidable (cString trialId' = cString trialId))

end Histories

/-- The rows of a trial. -/
def ofTrial (text : Str) (rows : List Row) : List Row := rows.filter fun row => row.trialId = some text

section Lines

variable {κ : Type}

def Happening.line? : Happening κ → Option (κ × Delivery)
  | .line k d => some (k, d)
  | .start _ => none

/-- The log messages of a history. -/
def linesOf (hs : List (Happening κ)) : List (κ × Delivery) := hs.filterMap Happening.line?

end Lines

/-! ## What a query sees -/

section Queries

variable {P : Json.Printer ν} {D : Doubles ν} {columnMap : ColumnMap} {m : Json ν} {trialId : Str}

theorem alignWords_congr (hm : Json.getAt ["msg".toList, "trial_id".toList] m = .ok (.str trialId))
    {f g : FeatureQuery ν} (h : ∀ n startTime endTime participantId,
      f n startTime endTime participantId trialId = g n startTime endTime participantId trialId) :
    ∀ (words : List (Json ν)) (n : ℕ), alignWords P f m n words = alignWords P g m n words
  | [], _ => rfl
  | word :: words, n => by
    have ih := alignWords_congr hm h words (n + 1)
    simp only [alignWords, hm, ok_bind, Json.toStr_str, h, ih]

/-- The message is the same for two databases that answer the queries of its
trial alike. -/
theorem request_congr (hm : Json.getAt ["msg".toList, "trial_id".toList] m = .ok (.str trialId))
    {f g : FeatureQuery ν} (h : ∀ n startTime endTime participantId,
      f n startTime endTime participantId trialId = g n startTime endTime participantId trialId) :
    request P f m = request P g m := by
  simp only [request, alignWords_congr hm h]

theorem chunkExtract_congr {t t' : Table} {text : Str} (h : ofTrial text t.rows = ofTrial text t'.rows)
    (startText endText participantId : Str) :
    t.chunkExtract startText endText participantId text = t'.chunkExtract startText endText participantId text := by
  have hselected (startTime endTime : Decimal) (rows : List Row) :
      rows.filter (fun row => row.Selected startTime endTime participantId text) =
        (ofTrial text rows).filter fun row => row.Selected startTime endTime participantId text := by
    rw [ofTrial, List.filter_filter]
    refine List.filter_congr fun row _ => ?_
    rw [← Bool.decide_and]
    exact decide_eq_decide.mpr ⟨fun hrow => ⟨hrow, hrow.2.2⟩, And.left⟩
  unfold Table.chunkExtract
  split
  · next startTime endTime _ _ => rw [hselected startTime endTime t.rows, h, ← hselected startTime endTime t'.rows]
  · rfl

/-- Tables with the same rows of the trial make the same message. -/
theorem sentMessage_congr (hm : Json.getAt ["msg".toList, "trial_id".toList] m = .ok (.str trialId)) {t t' : Table}
    (hcolumns : t.columns = t'.columns) (hrows : ofTrial (cString trialId) t.rows = ofTrial (cString trialId) t'.rows)
    (bounds : ℕ → Str × Str) (o : RowOrder) :
    sentMessage D columnMap t bounds m o = sentMessage D columnMap t' bounds m o := by
  refine request_congr hm fun n startTime endTime participantId => ?_
  simp only [databaseQuery, DBWrapper.featuresBetween, hcolumns, chunkExtract_congr hrows]

end Queries

/-! ## One session -/

/-- The processor after some log of a session. -/
def Logged (D : Doubles ν) (columnMap : ColumnMap) (columns : List Str) (ids : Ids) (s : Processor ν) : Prop :=
  ∃ ds, s = (Mealy.run (sessionStep D columns) (ids.processor columnMap) ds).1

theorem Logged.step {D : Doubles ν} {columnMap : ColumnMap} {columns : List Str} {ids : Ids} {s : Processor ν}
    (h : Logged D columnMap columns ids s) (d : Delivery) :
    Logged D columnMap columns ids (sessionStep D columns s d).1 := by
  obtain ⟨ds, rfl⟩ := h
  exact ⟨ds ++ [d], (Mealy.run_concat _ ds d).symm⟩

/-! ## One step -/

section Steps

variable {κ : Type} [DecidableEq κ] {D : Doubles ν} {ids : κ → Ids} {columnMap : ColumnMap} {text : Str}

theorem processors_line_self (r : Recording κ ν) (k : κ) (d : Delivery) :
    (r.happen D (.line k d)).processors k = (sessionStep D r.table.columns (r.processors k) d).1 := by
  simp only [Recording.happen, Recording.step, Function.update_self, sessionStep]

theorem processors_line_ne (r : Recording κ ν) {k k' : κ} (h : k' ≠ k) (d : Delivery) :
    (r.happen D (.line k d)).processors k' = r.processors k' := by
  simp only [Recording.happen, Recording.step, Function.update_of_ne h]

theorem table_line (r : Recording κ ν) (k : κ) (d : Delivery) : (r.happen D (.line k d)).table =
    ⟨r.table.columns, r.table.rows ++ (sessionStep D r.table.columns (r.processors k) d).2⟩ := by
  simp only [Recording.happen, Recording.step, record_eq, sessionStep]

theorem happen_columns (r : Recording κ ν) : ∀ h : Happening κ, (r.happen D h).table.columns = r.table.columns
  | .line k d => by rw [table_line]
  | .start _ => rfl

theorem ofTrial_append (rows rows' : List Row) :
    ofTrial text (rows ++ rows') = ofTrial text rows ++ ofTrial text rows' :=
  List.filter_append _ _

/-- A start deletes the rows of its own trial and no others. -/
theorem ofTrial_clearTrial (trialId : Str) (rows : List Row) : ofTrial text (DBWrapper.clearTrial id trialId rows) =
    if cString trialId = text then [] else ofTrial text rows := by
  rw [ofTrial, DBWrapper.clearTrial, List.filter_filter]
  split
  · next heq =>
    subst heq
    exact List.filter_eq_nil_iff.mpr fun row _ => by simp
  · next hne =>
    refine List.filter_congr fun row _ => ?_
    rw [← Bool.decide_and]
    refine decide_eq_decide.mpr ⟨And.left, fun hrow => ⟨hrow, fun hrow' => ?_⟩⟩
    exact hne (Option.some.inj (hrow'.symm.trans hrow))

/-- For the trial the two are the same, as far as these sessions go. -/
structure SameFor (sessions : κ → Prop) (text : Str) (r r' : Recording κ ν) : Prop where
  columns : r.table.columns = r'.table.columns
  rows : ofTrial text r.table.rows = ofTrial text r'.table.rows
  processors : ∀ k, sessions k → r.processors k = r'.processors k

/-- What one of these sessions does, and a start, happens to both alike. -/
theorem SameFor.both {sessions : κ → Prop} {r r' : Recording κ ν} (h : SameFor sessions text r r') {e : Happening κ}
    (he : ∀ k d, e = .line k d → sessions k) : SameFor sessions text (r.happen D e) (r'.happen D e) := by
  obtain ⟨hcolumns, hrows, hprocessors⟩ := h
  refine ⟨by rw [happen_columns, happen_columns, hcolumns], ?_, ?_⟩
  · cases e with
    | line k d =>
      rw [table_line, table_line, ofTrial_append, ofTrial_append, hrows, hcolumns, hprocessors k (he k d rfl)]
    | start trialId => simp only [Recording.happen, ofTrial_clearTrial, hrows]
  · intro k hk
    cases e with
    | line k' d =>
      by_cases hkk : k = k'
      · subst hkk
        rw [processors_line_self, processors_line_self, hcolumns, hprocessors k hk]
      · rw [processors_line_ne r hkk, processors_line_ne r' hkk, hprocessors k hk]
    | start _ => exact hprocessors k hk

/-- Every processor is its session's after some log. -/
def Owned (D : Doubles ν) (ids : κ → Ids) (columnMap : ColumnMap) (r : Recording κ ν) : Prop :=
  ∀ k, Logged D columnMap r.table.columns (ids k) (r.processors k)

theorem Owned.happen {r : Recording κ ν} (h : Owned D ids columnMap r) (e : Happening κ) :
    Owned D ids columnMap (r.happen D e) := by
  intro k
  rw [happen_columns]
  cases e with
  | start _ => exact h k
  | line k' d =>
    by_cases hk : k = k'
    · subst hk
      rw [processors_line_self]
      exact (h k).step d
    · rw [processors_line_ne r hk]
      exact h k

/-- What a session stores has its ids or none. -/
theorem Logged.attributed {ids : Ids} {columns : List Str} {s : Processor ν} (h : Logged D columnMap columns ids s)
    (hplain : ids.ArePlain) (d : Delivery) :
    ∀ row ∈ (sessionStep D columns s d).2, row.HasIds none ∨ row.HasIds (some ids) := by
  intro row hrow
  obtain ⟨ds, hs⟩ := h
  obtain ⟨first, rest, hrows, -, hfirst, hrest⟩ := rows_attributed D columnMap columns hplain (ds ++ [d])
  have hmem : row ∈ first ++ rest := by
    rw [← hrows, Mealy.run_append, ← hs]
    exact List.mem_append.mpr (.inr (List.mem_append.mpr (.inl hrow)))
  rcases List.mem_append.mp hmem with hrow | hrow
  · exact .inl (hfirst row hrow)
  · exact .inr (hrest row hrow)

/-- What is not about the trial leaves it as it was. -/
theorem SameFor.other {r r' : Recording κ ν} {trialId : Str}
    (h : SameFor (fun k => (ids k).trialId = cString trialId) (cString trialId) r r') (hown : Owned D ids columnMap r)
    (hplain : ∀ k, (ids k).ArePlain) {e : Happening κ} (he : ¬ e.About ids trialId) :
    SameFor (fun k => (ids k).trialId = cString trialId) (cString trialId) (r.happen D e) r' := by
  obtain ⟨hcolumns, hrows, hprocessors⟩ := h
  refine ⟨by rw [happen_columns, hcolumns], ?_, ?_⟩
  · cases e with
    | line k d =>
      have hnone : ofTrial (cString trialId) (sessionStep D r.table.columns (r.processors k) d).2 = [] := by
        refine List.filter_eq_nil_iff.mpr fun row hrow htrial => ?_
        have htrial := of_decide_eq_true htrial
        rcases (hown k).attributed (hplain k) d row hrow with hids | hids
        · rw [hids.trialId] at htrial
          cases htrial
        · rw [hids.trialId] at htrial
          exact he (Option.some.inj htrial)
      rw [table_line, ofTrial_append, hnone, List.append_nil, hrows]
    | start trialId' =>
      have hne : ¬ cString trialId' = cString trialId := he
      simp only [Recording.happen, ofTrial_clearTrial, if_neg hne, hrows]
  · intro k hk
    cases e with
    | line k' d =>
      have hkk : k ≠ k' := fun heq => he (heq ▸ hk)
      rw [processors_line_ne r hkk, hprocessors k hk]
    | start _ => exact hprocessors k hk

end Steps

/-! ## Histories -/

section Runs

variable {κ : Type} [DecidableEq κ] {D : Doubles ν} {ids : κ → Ids} {columnMap : ColumnMap}

theorem Owned.runAll : ∀ {r : Recording κ ν} (hs : List (Happening κ)), Owned D ids columnMap r →
    Owned D ids columnMap (r.runAll D hs)
  | _, [], h => h
  | _, e :: hs, h => Owned.runAll hs (h.happen e)

theorem SameFor.filter (hplain : ∀ k, (ids k).ArePlain) (trialId : Str) : ∀ {r r' : Recording κ ν}
    (hs : List (Happening κ)), SameFor (fun k => (ids k).trialId = cString trialId) (cString trialId) r r' →
      Owned D ids columnMap r → SameFor (fun k => (ids k).trialId = cString trialId) (cString trialId)
        (r.runAll D hs) (r'.runAll D (hs.filter fun e => e.About ids trialId))
  | _, _, [], h, _ => h
  | r, r', e :: hs, h, hown => by
    by_cases he : e.About ids trialId
    · have hline : ∀ k d, e = .line k d → (ids k).trialId = cString trialId := by
        rintro k d rfl
        exact he
      rw [List.filter_cons_of_pos (by simpa using he)]
      exact SameFor.filter hplain trialId hs (h.both hline) (hown.happen e)
    · rw [List.filter_cons_of_neg (by simpa using he)]
      exact SameFor.filter hplain trialId hs (h.other hown hplain he) (hown.happen e)

theorem SameFor.of_about (columnMap : ColumnMap) (hplain : ∀ k, (ids k).ArePlain) (t : Table) (trialId : Str)
    (hs : List (Happening κ)) : SameFor (fun k => (ids k).trialId = cString trialId) (cString trialId)
      ((Recording.start ids columnMap t : Recording κ ν).runAll D hs)
      ((Recording.start ids columnMap t).runAll D (hs.filter fun e => e.About ids trialId)) :=
  SameFor.filter hplain trialId hs ⟨rfl, rfl, fun _ _ => rfl⟩ fun _ => ⟨[], rfl⟩

/-- **Trials do not disturb each other.** What an ASR message is told is what it
would be told if only the sessions of its own trial had run, and only this
trial had started, whatever the other trials' sessions print and whenever
trials start. -/
theorem trials_apart (D : Doubles ν) (columnMap columnMap' : ColumnMap) (hplain : ∀ k, (ids k).ArePlain) (t : Table)
    (hs : List (Happening κ)) {m : Json ν} {trialId : Str}
    (hm : Json.getAt ["msg".toList, "trial_id".toList] m = .ok (.str trialId)) (bounds : ℕ → Str × Str) (o : RowOrder) :
    sentMessage D columnMap' ((Recording.start ids columnMap t).runAll D hs).table bounds m o =
      sentMessage D columnMap'
        ((Recording.start ids columnMap t).runAll D (hs.filter fun e => e.About ids trialId)).table bounds m o := by
  have hsame := SameFor.of_about (D := D) columnMap hplain t trialId hs
  exact sentMessage_congr hm hsame.columns hsame.rows bounds o

/-- The lines of two sessions, and the start of another trial. -/
def mixedHistory : List (Happening Bool) :=
  mixedLines.map (fun p => Happening.line p.1 p.2) ++ [Happening.start "U".toList]

theorem trials_apart_two :
    sentMessage DecimalPrinter.allDigits.doubles mfccMap ((Recording.start twoIds mfccMap mfccTable).runAll
        DecimalPrinter.allDigits.doubles mixedHistory).table wordBounds (sampleUtterance sampleWords) .byOffset =
      sentMessage DecimalPrinter.allDigits.doubles mfccMap ((Recording.start twoIds mfccMap mfccTable).runAll
        DecimalPrinter.allDigits.doubles (mixedHistory.filter fun e => e.About twoIds "T".toList)).table wordBounds
        (sampleUtterance sampleWords) .byOffset :=
  trials_apart DecimalPrinter.allDigits.doubles mfccMap mfccMap twoIds_plain mfccTable mixedHistory
    (asrMessage_sampleUtterance sampleWords_times).trialId wordBounds .byOffset

/-- A history in which only these sessions print. -/
theorem SameFor.runAll (D : Doubles ν) {sessions : κ → Prop} {text : Str} : ∀ (hs : List (Happening κ))
    {r r' : Recording κ ν}, (∀ k d, .line k d ∈ hs → sessions k) → SameFor sessions text r r' →
      SameFor sessions text (r.runAll D hs) (r'.runAll D hs)
  | [], _, _, _, h => h
  | _ :: hs, _, _, hlines, h =>
    SameFor.runAll D hs (fun k d hmem => hlines k d (.tail _ hmem)) (h.both fun k d he => hlines k d (he ▸ .head _))

theorem SameFor.of_start (D : Doubles ν) (r : Recording κ ν) (trialId : Str) (hs : List (Happening κ)) :
    SameFor (fun _ => True) (cString trialId) (r.runAll D (.start trialId :: hs)) (r.emptied.runAll D hs) := by
  have hcleared : SameFor (fun _ => True) (cString trialId) (r.happen D (.start trialId)) r.emptied := by
    refine ⟨rfl, ?_, fun _ _ => rfl⟩
    simp only [Recording.happen, ofTrial_clearTrial, if_true]
    rfl
  exact hcleared.runAll D hs fun _ _ _ => trivial

/-- **The start of a trial forgets it.** What its ASR messages are told after
that is what they would be told with an empty table, whatever was stored before
and whatever happens after. -/
theorem start_forgets (D : Doubles ν) (columnMap' : ColumnMap) (r : Recording κ ν) (hs : List (Happening κ))
    {m : Json ν} {trialId : Str} (hm : Json.getAt ["msg".toList, "trial_id".toList] m = .ok (.str trialId))
    (bounds : ℕ → Str × Str) (o : RowOrder) :
    sentMessage D columnMap' (r.runAll D (.start trialId :: hs)).table bounds m o =
      sentMessage D columnMap' (r.emptied.runAll D hs).table bounds m o := by
  have hsame := SameFor.of_start D r trialId hs
  exact sentMessage_congr hm hsame.columns hsame.rows bounds o

/-- A trial that starts when its sessions have printed already. -/
def lateStart : Recording Bool Decimal :=
  (Recording.start twoIds mfccMap mfccTable).run DecimalPrinter.allDigits.doubles mixedLines

theorem start_forgets_late :
    sentMessage DecimalPrinter.allDigits.doubles mfccMap (lateStart.runAll DecimalPrinter.allDigits.doubles
        (.start "T".toList :: mixedHistory)).table wordBounds (sampleUtterance sampleWords) .byOffset =
      sentMessage DecimalPrinter.allDigits.doubles mfccMap
        (lateStart.emptied.runAll DecimalPrinter.allDigits.doubles mixedHistory).table wordBounds
        (sampleUtterance sampleWords) .byOffset :=
  start_forgets DecimalPrinter.allDigits.doubles mfccMap lateStart mixedHistory
    (asrMessage_sampleUtterance sampleWords_times).trialId wordBounds .byOffset

end Runs

/-! ## The rows of a trial -/

section Rows

variable {κ : Type} [DecidableEq κ] {ids : κ → Ids} {columnMap : ColumnMap} {D : Doubles ν}

theorem runAll_append (r : Recording κ ν) (hs hs' : List (Happening κ)) :
    r.runAll D (hs ++ hs') = (r.runAll D hs).runAll D hs' := List.foldl_append

theorem columns_runAll : ∀ (hs : List (Happening κ)) (r : Recording κ ν),
    (r.runAll D hs).table.columns = r.table.columns
  | [], _ => rfl
  | e :: hs, r => (columns_runAll hs (r.happen D e)).trans (happen_columns r e)

/-- A session that prints nothing stays as it is. -/
theorem processors_runAll {k : κ} : ∀ {hs : List (Happening κ)} (r : Recording κ ν), (∀ d, .line k d ∉ hs) →
    (r.runAll D hs).processors k = r.processors k
  | [], _, _ => rfl
  | .start trialId :: _, r, h => processors_runAll (r.happen D (.start trialId)) fun d hmem => h d (.tail _ hmem)
  | .line k' d :: _, r, h => by
    have hne : k ≠ k' := fun heq => h d (heq ▸ .head _)
    have ih := processors_runAll (r.happen D (.line k' d)) fun d' hmem => h d' (.tail _ hmem)
    exact ih.trans (processors_line_ne r hne d)

/-- Without a start, a history is a recording. -/
theorem runAll_lines : ∀ {hs : List (Happening κ)} (r : Recording κ ν), (∀ trialId, .start trialId ∉ hs) →
    r.runAll D hs = r.run D (linesOf hs)
  | [], _, _ => rfl
  | .start trialId :: _, _, h => absurd (.head _) (h trialId)
  | .line k d :: _, r, h => runAll_lines (r.step D (k, d)) fun trialId hmem => h trialId (.tail _ hmem)

/-- A trial's rows after its last start: as if its sessions had recorded on an
empty table and nothing else had happened. -/
theorem rows_of_trial (D : Doubles ν) (columnMap : ColumnMap) (hplain : ∀ k, (ids k).ArePlain) (t : Table)
    {before after : List (Happening κ)} {trialId : Str}
    (hbefore : ∀ k d d', .line k d ∈ before → .line k d' ∈ after → (ids k).trialId ≠ cString trialId)
    (hafter : ∀ trialId', .start trialId' ∈ after → cString trialId' ≠ cString trialId) :
    ofTrial (cString trialId)
        ((Recording.start ids columnMap t).runAll D (before ++ .start trialId :: after)).table.rows =
      ofTrial (cString trialId) ((Recording.start ids columnMap ⟨t.columns, []⟩).run D
        (linesOf (after.filter fun e => e.About ids trialId))).table.rows := by
  have hown : Owned D ids columnMap ((Recording.start ids columnMap t : Recording κ ν).runAll D before) :=
    Owned.runAll before fun _ => ⟨[], rfl⟩
  have hlines : ∀ trialId', .start trialId' ∉ after.filter fun e => e.About ids trialId := by
    intro trialId' hmem
    obtain ⟨hstart, habout⟩ := List.mem_filter.mp hmem
    exact hafter trialId' hstart (of_decide_eq_true habout)
  -- The table is empty, other trials are out of it, and its sessions are new.
  have hempty := SameFor.of_start D ((Recording.start ids columnMap t).runAll D before) trialId after
  have habout := SameFor.filter (r := ((Recording.start ids columnMap t).runAll D before).emptied) hplain trialId after
    ⟨rfl, rfl, fun _ _ => rfl⟩ hown
  have hnew : SameFor (fun k => ∃ d, .line k d ∈ after.filter fun e => e.About ids trialId) (cString trialId)
      ((Recording.start ids columnMap t).runAll D before).emptied (Recording.start ids columnMap ⟨t.columns, []⟩) := by
    refine ⟨columns_runAll before _, rfl, fun k hk => ?_⟩
    obtain ⟨d', hmem⟩ := hk
    obtain ⟨hline, htrial⟩ := List.mem_filter.mp hmem
    exact processors_runAll _ fun d hmem => hbefore k d d' hmem hline (of_decide_eq_true htrial)
  have hrun := hnew.runAll D _ fun k d hmem => ⟨d, hmem⟩
  rw [runAll_lines (Recording.start ids columnMap ⟨t.columns, []⟩) hlines] at hrun
  rw [runAll_append]
  exact hempty.rows.trans (habout.rows.trans hrun.rows)

end Rows

end SpeechAnalyzer
