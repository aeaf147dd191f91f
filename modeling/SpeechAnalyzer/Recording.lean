/-
The sessions of a trial at work: each is a process with its own processor and
its own copy of the column map, and all of them INSERT into one table.

A process handles one log message after another; those of different processes
come in any order. The rows a session leaves carry its ids, but for the first.
-/
import SpeechAnalyzer.LogHistory
import SpeechAnalyzer.StoreLoad
import Mathlib.Data.List.ReduceOption

namespace SpeechAnalyzer

open Lib

variable {ν : Type}

/-- A log message, and the clock `PublishChunk` reads for its row. -/
structure Delivery where
  message : LogMessage
  utcTimestamp : Str

/-- The processes of the sessions and their table. -/
structure Recording (κ ν : Type) where
  processors : κ → Processor ν
  table : Table

/-- What an event does to the table. -/
def Table.record (utcTimestamp : Str) (t : Table) : Event ν → Table
  | .published _ (some i) => t.insert i utcTimestamp
  | _ => t

section System

variable {κ : Type} [DecidableEq κ]

/-- One session handles one log message. -/
def Recording.step (D : Doubles ν) (r : Recording κ ν) (d : κ × Delivery) : Recording κ ν :=
  let called := (r.processors d.1).step D d.2.message
  { processors := Function.update r.processors d.1 called.1
    table := called.2.foldl (Table.record d.2.utcTimestamp) r.table }

def Recording.run (D : Doubles ν) (r : Recording κ ν) (ds : List (κ × Delivery)) : Recording κ ν :=
  ds.foldl (Recording.step D) r

/-- New sessions on a table. -/
def Recording.start (ids : κ → Ids) (columnMap : ColumnMap) (t : Table) : Recording κ ν where
  processors k := (ids k).processor columnMap
  table := t

end System

/-! ## Rows -/

def Event.rows (columns : List Str) (utcTimestamp : Str) : Event ν → List Row
  | .published _ (some i) => (i.storedRow columns utcTimestamp).toList
  | _ => []

theorem record_eq (utcTimestamp : Str) : ∀ (es : List (Event ν)) (t : Table),
    es.foldl (Table.record utcTimestamp) t =
      { t with rows := t.rows ++ es.flatMap (Event.rows t.columns utcTimestamp) }
  | [], t => by simp
  | e :: es, t => by
    have hrecord : t.record utcTimestamp e = { t with rows := t.rows ++ e.rows t.columns utcTimestamp } := by
      cases e with
      | published m i =>
        cases i with
        | none => simp [Table.record, Event.rows]
        | some i => exact insert_eq t i utcTimestamp
      | thrown _ => simp [Table.record, Event.rows]
    rw [List.foldl_cons, hrecord, record_eq utcTimestamp es, List.flatMap_cons, List.append_assoc]

/-- A session by itself: the rows its log messages leave. -/
def sessionStep (D : Doubles ν) (columns : List Str) (s : Processor ν) (d : Delivery) : Processor ν × List Row :=
  ((s.step D d.message).1, (s.step D d.message).2.flatMap (Event.rows columns d.utcTimestamp))

section Apart

variable {κ : Type} [DecidableEq κ]

/-- The processes are a family, the rows of the table their outputs. -/
theorem recording_run (D : Doubles ν) : ∀ (ds : List (κ × Delivery)) (r : Recording κ ν),
    r.run D ds = {
      processors := (Mealy.run (Mealy.family fun _ => sessionStep D r.table.columns) r.processors ds).1
      table := { r.table with
        rows := r.table.rows ++
          (Mealy.run (Mealy.family fun _ => sessionStep D r.table.columns) r.processors ds).2.map Prod.snd } }
  | [], r => by simp [Recording.run]
  | d :: ds, r => by
    have hstep : r.step D d = {
        processors := (Mealy.family (fun _ => sessionStep D r.table.columns) r.processors d).1
        table := { r.table with
          rows := r.table.rows ++
            (Mealy.family (fun _ => sessionStep D r.table.columns) r.processors d).2.map Prod.snd } } := by
      simp only [Recording.step, record_eq, Mealy.family, sessionStep, List.map_map, Function.comp_def, List.map_id']
    rw [Recording.run, List.foldl_cons, ← Recording.run, hstep, recording_run D ds, Mealy.run_cons]
    simp only [List.map_append, List.append_assoc]

/-- What the rows of the table come from: of each session, those it stores by itself. -/
theorem stored_of_run (D : Doubles ν) (r : Recording κ ν) (ds : List (κ × Delivery)) :
    ∃ stored : List (κ × Row),
      (r.run D ds).table = { r.table with rows := r.table.rows ++ stored.map Prod.snd } ∧
      ∀ k, Mealy.only k stored =
        (Mealy.run (sessionStep D r.table.columns) (r.processors k) (Mealy.only k ds)).2 :=
  ⟨(Mealy.run (Mealy.family fun _ => sessionStep D r.table.columns) r.processors ds).2, by rw [recording_run],
    fun k => (Mealy.run_family (fun _ => sessionStep D r.table.columns) k r.processors ds).2⟩

/-- A run of one session alone. -/
theorem run_alone (D : Doubles ν) (r : Recording κ ν) (ds : List (κ × Delivery)) (k : κ) :
    (r.run D (ds.filter fun d => d.1 = k)).table = { r.table with rows := r.table.rows ++
        (Mealy.run (sessionStep D r.table.columns) (r.processors k) (Mealy.only k ds)).2 } ∧
      (r.run D (ds.filter fun d => d.1 = k)).processors k = (r.run D ds).processors k := by
  obtain ⟨hstate, -⟩ := Mealy.run_family (fun _ => sessionStep D r.table.columns) k r.processors ds
  obtain ⟨hstate', hrows'⟩ := Mealy.run_family (fun _ => sessionStep D r.table.columns) k r.processors
    (ds.filter fun d => d.1 = k)
  have hown : ∀ p ∈ (Mealy.run (Mealy.family fun _ => sessionStep D r.table.columns) r.processors
      (ds.filter fun d => d.1 = k)).2, p.1 = k := by
    intro p hp
    obtain ⟨d, hd, hpd⟩ := List.mem_map.mp (Mealy.mem_keys_of_mem_family _ _ _ p hp)
    rw [← hpd]
    simpa using (List.mem_filter.mp hd).2
  rw [Mealy.only_filter] at hstate' hrows'
  rw [recording_run, recording_run, Mealy.map_snd_eq_only hown, hrows']
  exact ⟨rfl, hstate'.trans hstate.symm⟩

end Apart

/-! ## The rows of a session -/

def AccEvent.view? : AccEvent ν → Option (View ν)
  | .published v => some v
  | .thrown _ => none

/-- The row of a view, if it has one, at some moment. -/
def RowOfView (D : Doubles ν) (columnMap : ColumnMap) (columns : List Str) (row : Option Row) (v : View ν) : Prop :=
  ∃ utcTimestamp, row = (v.insert D columnMap).storedRow columns utcTimestamp

section Rows

variable {D : Doubles ν} {columnMap : ColumnMap} {ids : Ids}

theorem rows_of_events (columns : List Str) (utcTimestamp : Str) : ∀ {es : List (Event ν)} {es' : List (AccEvent ν)},
    List.Forall₂ (EventRel D columnMap) es es' → ∃ rows : List (Option Row),
      es.flatMap (Event.rows columns utcTimestamp) = rows.reduceOption ∧
      List.Forall₂ (RowOfView D columnMap columns) rows (es'.filterMap AccEvent.view?)
  | _, _, .nil => ⟨[], rfl, .nil⟩
  | e :: es, e' :: es', .cons he hes => by
    obtain ⟨rows, hrows, hviews⟩ := rows_of_events columns utcTimestamp hes
    cases e' with
    | published v =>
      obtain ⟨m, -, rfl⟩ := eventRel_published he
      refine ⟨(v.insert D columnMap).storedRow columns utcTimestamp :: rows, ?_, .cons ⟨utcTimestamp, rfl⟩ hviews⟩
      rw [List.flatMap_cons, hrows, Event.rows]
      cases (v.insert D columnMap).storedRow columns utcTimestamp <;> rfl
    | thrown x =>
      obtain rfl := eventRel_thrown he
      exact ⟨rows, hrows, hviews⟩

/-- A session's rows are those of the views its log publishes. -/
theorem rows_of_session (columns : List Str) : ∀ {s : Processor ν} {a : Acc ν} (ds : List Delivery),
    Sim columnMap ids s a →
    ∃ rows : List (Option Row), (Mealy.run (sessionStep D columns) s ds).2 = rows.reduceOption ∧
      List.Forall₂ (RowOfView D columnMap columns) rows
        ((Mealy.run (Acc.step D.atof ids) a (ds.map fun d => despace d.message.text)).2.filterMap AccEvent.view?)
  | _, _, [], _ => ⟨[], rfl, .nil⟩
  | s, a, d :: ds, h => by
    obtain ⟨hnext, hevents⟩ := step_sim (D := D) d.message h
    obtain ⟨first, hfirst, hfirstViews⟩ := rows_of_events columns d.utcTimestamp hevents
    obtain ⟨rest, hrest, hrestViews⟩ := rows_of_session columns ds hnext
    refine ⟨first ++ rest, ?_, ?_⟩
    · rw [Mealy.run_cons, List.reduceOption_append, ← hfirst, ← hrest]
      rfl
    · rw [List.map_cons, Mealy.run_cons, List.filterMap_append]
      exact List.rel_append hfirstViews hrestViews

theorem Acc.step_ids (atof : Str → ν) (ids : Ids) (a : Acc ν) (temp : Str) : (a.step atof ids temp).1.view.ids =
    if Contains "lld".toList temp ∧ a.tmeta then some ids else a.view.ids := by
  rw [Acc.step]
  by_cases hlld : Contains "lld".toList temp
  · simp only [hlld, if_true, true_and]
    by_cases hlen : 4 ≤ temp.length
    · rw [if_pos hlen]
      cases a.tmeta <;> rfl
    · rw [if_neg hlen]
      cases a.tmeta <;> rfl
  · rw [if_neg hlld, if_neg (not_and_of_not_left _ hlld)]
    cases a.tmeta <;> rfl

/-- Once the ids are filled in, every view has them. -/
theorem views_attributed (atof : Str → ν) (ids : Ids) : ∀ {a : Acc ν} (temps : List Str), a.view.ids = some ids →
    ∀ v ∈ (Mealy.run (Acc.step atof ids) a temps).2.filterMap AccEvent.view?, v.ids = some ids := by
  have hstep (a : Acc ν) (temp : Str) (h : a.view.ids = some ids) :
      (a.step atof ids temp).1.view.ids = some ids ∧
        ∀ e ∈ (a.step atof ids temp).2, ∀ v ∈ e.view?, v.ids = some ids := by
    refine ⟨?_, fun e he v hv => ?_⟩
    · rw [Acc.step_ids, h, ite_self]
    · obtain ⟨w, flag⟩ := a
      rw [Acc.step_events, List.mem_append] at he
      rcases he with he | he
      · split at he
        · obtain rfl := List.mem_singleton.mp he
          obtain rfl := Option.some.inj hv
          exact h
        · cases he
      · split at he
        · obtain rfl := List.mem_singleton.mp he
          cases hv
        · cases he
  intro a temps h v hv
  obtain ⟨e, he, hev⟩ := List.mem_filterMap.mp hv
  exact (Mealy.run_inv (I := fun a : Acc ν => a.view.ids = some ids) hstep temps h).2 e he v hev

/-- Up to the first view there are no ids, and after it they are filled in. -/
theorem views_first (atof : Str → ν) (ids : Ids) : ∀ {a : Acc ν} (temps : List Str), a.view.ids = none →
    ∃ first rest, (Mealy.run (Acc.step atof ids) a temps).2.filterMap AccEvent.view? = first ++ rest ∧
      first.length ≤ 1 ∧ (∀ v ∈ first, v.ids = none) ∧ ∀ v ∈ rest, v.ids = some ids
  | _, [], _ => ⟨[], [], rfl, by simp, by simp, by simp⟩
  | a, temp :: temps, h => by
    have hids := a.step_ids atof ids temp
    obtain ⟨w, flag⟩ := a
    have hviews : (Acc.step atof ids { view := w, tmeta := flag } temp).2.filterMap AccEvent.view? =
        if Contains "lld".toList temp ∧ flag then [w] else [] := by
      rw [Acc.step_events, List.filterMap_append]
      split <;> split <;> rfl
    rw [Mealy.run_cons, List.filterMap_append, hviews]
    by_cases hpub : Contains "lld".toList temp ∧ flag = true
    · rw [if_pos hpub] at hids ⊢
      exact ⟨[w], _, rfl, by simp, by simpa using h, views_attributed atof ids temps hids⟩
    · rw [if_neg hpub] at hids ⊢
      exact views_first atof ids temps (hids.trans h)

end Rows

/-! ## Their ids -/

/-- Ids that an INSERT stores as they are. -/
structure Ids.ArePlain (ids : Ids) : Prop where
  participantId : Plain ids.participantId
  trialId : Plain ids.trialId
  experimentId : Plain ids.experimentId

/-- The ids of a row, all three or none. -/
structure Row.HasIds (row : Row) (ids : Option Ids) : Prop where
  participant : row.participant = ids.map Ids.participantId
  trialId : row.trialId = ids.map Ids.trialId
  experimentId : row.experimentId = ids.map Ids.experimentId

theorem Row.HasIds.inj {row : Row} {ids ids' : Ids} (h : row.HasIds (some ids)) (h' : row.HasIds (some ids')) :
    ids = ids' := by
  obtain ⟨participantId, trialId, experimentId⟩ := ids
  obtain ⟨participantId', trialId', experimentId'⟩ := ids'
  have hparticipant := h.participant.symm.trans h'.participant
  have htrial := h.trialId.symm.trans h'.trialId
  have hexperiment := h.experimentId.symm.trans h'.experimentId
  simp only [Option.map_some, Option.some.injEq] at hparticipant htrial hexperiment
  rw [hparticipant, htrial, hexperiment]

section RowIds

variable {D : Doubles ν} {columnMap : ColumnMap} {columns : List Str} {ids : Ids} {v : View ν}

theorem textCell_idJson {id : Ids → Str} (h : ∀ ids ∈ v.ids, Plain (id ids)) :
    textCell ((v.idJson id).dump D.toPrinter) = some (v.ids.map id) := by
  rw [View.idJson]
  cases hids : v.ids with
  | none => rfl
  | some ids => exact textCell_quoted _ (h ids hids)

/-- The ids of a row are read off the INSERT's. -/
theorem ids_of_stored {i : Insert} {utcTimestamp : Str} {row : Row} (h : i.storedRow columns utcTimestamp = some row) :
    textCell i.participant = some row.participant ∧ textCell i.trialId = some row.trialId ∧
      textCell i.experimentId = some row.experimentId := by
  unfold Insert.storedRow at h
  split at h
  · unfold Insert.row at h
    obtain ⟨values, -, h⟩ := Option.bind_eq_some_iff.mp h
    obtain ⟨secondsOffset, -, h⟩ := Option.bind_eq_some_iff.mp h
    obtain ⟨participant, hparticipant, h⟩ := Option.bind_eq_some_iff.mp h
    obtain ⟨trialId, htrial, h⟩ := Option.bind_eq_some_iff.mp h
    obtain ⟨experimentId, hexperiment, h⟩ := Option.bind_eq_some_iff.mp h
    obtain rfl := Option.some.inj h
    exact ⟨hparticipant, htrial, hexperiment⟩
  · cases h

/-- A view's row has its ids. -/
theorem hasIds_of_stored (hplain : ∀ ids ∈ v.ids, ids.ArePlain) {utcTimestamp : Str} {row : Row}
    (h : (v.insert D columnMap).storedRow columns utcTimestamp = some row) : row.HasIds v.ids := by
  obtain ⟨hparticipant, htrial, hexperiment⟩ := ids_of_stored h
  simp only [View.insert] at hparticipant htrial hexperiment
  rw [textCell_idJson fun ids hids => (hplain ids hids).participantId] at hparticipant
  rw [textCell_idJson fun ids hids => (hplain ids hids).trialId] at htrial
  rw [textCell_idJson fun ids hids => (hplain ids hids).experimentId] at hexperiment
  exact ⟨(Option.some.inj hparticipant).symm, (Option.some.inj htrial).symm, (Option.some.inj hexperiment).symm⟩

/-- Each row is one of the views'. -/
theorem exists_view {rows : List (Option Row)} {views : List (View ν)}
    (h : List.Forall₂ (RowOfView D columnMap columns) rows views) : ∀ row ∈ rows.reduceOption,
      ∃ v ∈ views, ∃ utcTimestamp, (v.insert D columnMap).storedRow columns utcTimestamp = some row := by
  induction h with
  | nil =>
    intro row hrow
    cases hrow
  | @cons o v rows views hview _ ih =>
    intro row hrow
    rcases List.mem_cons.mp (List.reduceOption_mem_iff.mp hrow) with ho | hrest
    · obtain ⟨utcTimestamp, hstored⟩ := hview
      exact ⟨v, List.mem_cons_self, utcTimestamp, hstored.symm.trans ho.symm⟩
    · obtain ⟨w, hw, hstored⟩ := ih row (List.reduceOption_mem_iff.mpr hrest)
      exact ⟨w, .tail _ hw, hstored⟩

/-- The rows of related views have their ids. -/
theorem hasIds_of_views {i : Option Ids} (hplain : ∀ ids ∈ i, ids.ArePlain) {rows : List (Option Row)}
    {views : List (View ν)} (h : List.Forall₂ (RowOfView D columnMap columns) rows views)
    (hviews : ∀ v ∈ views, v.ids = i) : ∀ row ∈ rows.reduceOption, row.HasIds i := by
  intro row hrow
  obtain ⟨v, hv, utcTimestamp, hstored⟩ := exists_view h row hrow
  rw [← hviews v hv] at hplain ⊢
  exact hasIds_of_stored hplain hstored

/-- A session's rows: its first may have no ids, every other has the session's. -/
theorem rows_attributed (D : Doubles ν) (columnMap : ColumnMap) (columns : List Str) (hplain : ids.ArePlain)
    (ds : List Delivery) : ∃ first rest,
    (Mealy.run (sessionStep D columns) (ids.processor columnMap) ds).2 = first ++ rest ∧ first.length ≤ 1 ∧
      (∀ row ∈ first, row.HasIds none) ∧ ∀ row ∈ rest, row.HasIds (some ids) := by
  obtain ⟨rows, hrows, hviews⟩ := rows_of_session (D := D) columns ds (Sim.init columnMap ids)
  obtain ⟨first, rest, heq, hlength, hfirst, hrest⟩ :=
    views_first D.atof ids (a := {}) (ds.map fun d => despace d.message.text) rfl
  rw [heq] at hviews
  have h₁ := List.forall₂_take_append _ _ _ hviews
  have h₂ := List.forall₂_drop_append _ _ _ hviews
  refine ⟨(rows.take first.length).reduceOption, (rows.drop first.length).reduceOption, ?_, ?_,
    hasIds_of_views (by simp) h₁ hfirst, hasIds_of_views (by simpa using hplain) h₂ hrest⟩
  · rw [← List.reduceOption_append, List.take_append_drop]
    exact hrows
  · exact (List.reduceOption_length_le _).trans (h₁.length_eq.trans_le hlength)

end RowIds

/-- From new sessions on. -/
theorem stored_of_start {κ : Type} [DecidableEq κ] (D : Doubles ν) (ids : κ → Ids) (columnMap : ColumnMap) (t : Table)
    (ds : List (κ × Delivery)) : ∃ stored : List (κ × Row),
      ((Recording.start ids columnMap t).run D ds).table = ⟨t.columns, t.rows ++ stored.map Prod.snd⟩ ∧
      ∀ k, Mealy.only k stored =
        (Mealy.run (sessionStep D t.columns) ((ids k).processor columnMap) (Mealy.only k ds)).2 :=
  stored_of_run D (Recording.start ids columnMap t) ds

/-- A run and its continuation. -/
theorem stored_append {κ : Type} [DecidableEq κ] (D : Doubles ν) (ids : κ → Ids) (columnMap : ColumnMap) (t : Table)
    (ds ds' : List (κ × Delivery)) : ∃ stored added : List (κ × Row),
      ((Recording.start ids columnMap t).run D ds).table = ⟨t.columns, t.rows ++ stored.map Prod.snd⟩ ∧
      ((Recording.start ids columnMap t).run D (ds ++ ds')).table =
        ⟨t.columns, t.rows ++ (stored ++ added).map Prod.snd⟩ ∧
      ∀ k, Mealy.only k stored =
          (Mealy.run (sessionStep D t.columns) ((ids k).processor columnMap) (Mealy.only k ds)).2 ∧
        Mealy.only k (stored ++ added) =
          (Mealy.run (sessionStep D t.columns) ((ids k).processor columnMap) (Mealy.only k (ds ++ ds'))).2 := by
  let family := Mealy.family fun _ : κ => sessionStep D t.columns
  let processors (k : κ) : Processor ν := (ids k).processor columnMap
  have hstored (ds : List (κ × Delivery)) : ((Recording.start ids columnMap t).run D ds).table =
      ⟨t.columns, t.rows ++ (Mealy.run family processors ds).2.map Prod.snd⟩ := by
    rw [recording_run]
    rfl
  have honly (k : κ) (ds : List (κ × Delivery)) : Mealy.only k (Mealy.run family processors ds).2 =
      (Mealy.run (sessionStep D t.columns) ((ids k).processor columnMap) (Mealy.only k ds)).2 :=
    (Mealy.run_family (fun _ => sessionStep D t.columns) k processors ds).2
  refine ⟨(Mealy.run family processors ds).2, (Mealy.run family (Mealy.run family processors ds).1 ds').2,
    hstored ds, ?_, fun k => ⟨honly k ds, ?_⟩⟩
  · rw [hstored, Mealy.run_append]
  · rw [← honly, Mealy.run_append]

/-- **Every row but a session's first is attributed.** Whatever the logs of the
sessions and however they are mixed, the rows a session adds to the table have
its ids, all three, but for one that has none and comes before them. -/
theorem recording_attributed {κ : Type} [DecidableEq κ] (D : Doubles ν) (columnMap : ColumnMap) {ids : κ → Ids}
    (hplain : ∀ k, (ids k).ArePlain) (t : Table) (ds : List (κ × Delivery)) : ∃ stored : List (κ × Row),
      ((Recording.start ids columnMap t).run D ds).table = { t with rows := t.rows ++ stored.map Prod.snd } ∧
      ∀ k, ((Recording.start ids columnMap t).run D (ds.filter fun d => d.1 = k)).table =
          { t with rows := t.rows ++ Mealy.only k stored } ∧
        ∃ first rest, Mealy.only k stored = first ++ rest ∧ first.length ≤ 1 ∧ (∀ row ∈ first, row.HasIds none) ∧
          ∀ row ∈ rest, row.HasIds (some (ids k)) := by
  obtain ⟨stored, htable, hstored⟩ := stored_of_start D ids columnMap t ds
  refine ⟨stored, htable, fun k => ?_⟩
  rw [hstored k]
  exact ⟨(run_alone D (Recording.start ids columnMap t) ds k).1, rows_attributed D columnMap t.columns (hplain k) _⟩

/-- The lines of three frames of one session, with some of another between them. -/
def mixedLines : List (Bool × Delivery) :=
  [(true, "lld.mfcc[1] = 1".toList), (false, "lld.mfcc[1] = 7".toList), (true, "tmeta:".toList),
    (true, "time = 0.25".toList), (true, "lld.mfcc[1] = -1.5e-03".toList), (false, "tmeta:".toList),
    (true, "tmeta:".toList), (false, "time = 0.5".toList), (true, "time = 0.5".toList),
    (false, "lld.mfcc[1] = 8".toList), (true, "lld.mfcc[1] = 3".toList), (true, "tmeta:".toList),
    (true, "time = 0.75".toList)].map fun p => (p.1, { message := { text := p.2, headerTime := [], msgTime := [] }
                                                       utcTimestamp := [] })

def twoIds (k : Bool) : Ids := ⟨if k then "P".toList else "R".toList, "T".toList, "E".toList⟩

theorem twoIds_plain (k : Bool) : (twoIds k).ArePlain := by
  cases k <;> exact ⟨by unfold Plain; decide, by unfold Plain; decide, by unfold Plain; decide⟩

theorem recording_attributed_two : ∃ stored : List (Bool × Row),
    ((Recording.start twoIds [] sampleTable).run DecimalPrinter.allDigits.doubles mixedLines).table =
      { sampleTable with rows := sampleTable.rows ++ stored.map Prod.snd } ∧
    ∀ k, ((Recording.start twoIds [] sampleTable).run DecimalPrinter.allDigits.doubles
          (mixedLines.filter fun d => d.1 = k)).table =
        { sampleTable with rows := sampleTable.rows ++ Mealy.only k stored } ∧
      ∃ first rest, Mealy.only k stored = first ++ rest ∧ first.length ≤ 1 ∧ (∀ row ∈ first, row.HasIds none) ∧
        ∀ row ∈ rest, row.HasIds (some (twoIds k)) :=
  recording_attributed DecimalPrinter.allDigits.doubles [] twoIds_plain sampleTable mixedLines

end SpeechAnalyzer
