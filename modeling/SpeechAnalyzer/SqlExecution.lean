/-
A recording with the INSERTs as the texts the sessions send, each read by the
database. It leaves the rows of the lists (`runText_eq`): a feature's column is
a postgres name of the column file, or the empty name of an unlisted feature.
-/
import SpeechAnalyzer.SqlStatement
import SpeechAnalyzer.UnmappedFeatures

namespace SpeechAnalyzer

open Lib SqlText

variable {ν : Type}

/-! ## The recording -/

/-- What the statement of an event does to the table. -/
def Table.executeEvent (utcTimestamp : Str) (t : Table) : Event ν → Table
  | .published _ (some i) => t.execute (i.query utcTimestamp)
  | _ => t

section Run

variable {κ : Type} [DecidableEq κ]

/-- One session handles one log message, and its statements are executed. -/
def Recording.stepText (D : Doubles ν) (r : Recording κ ν) (d : κ × Delivery) : Recording κ ν :=
  let called := (r.processors d.1).step D d.2.message
  { processors := Function.update r.processors d.1 called.1
    table := called.2.foldl (Table.executeEvent d.2.utcTimestamp) r.table }

def Recording.runText (D : Doubles ν) (r : Recording κ ν) (ds : List (κ × Delivery)) : Recording κ ν :=
  ds.foldl (Recording.stepText D) r

theorem Recording.runText_concat (D : Doubles ν) (r : Recording κ ν) (ds : List (κ × Delivery)) (d : κ × Delivery) :
    r.runText D (ds ++ [d]) = (r.runText D ds).stepText D d := List.foldl_concat ..

theorem Recording.run_concat (D : Doubles ν) (r : Recording κ ν) (ds : List (κ × Delivery)) (d : κ × Delivery) :
    r.run D (ds ++ [d]) = (r.run D ds).step D d := List.foldl_concat ..

end Run

/-- A feature's name is an openSMILE name of the file, or no name of the file. -/
def KnownAs (pairs : List (Str × Str)) (name : Str) : Prop :=
  name ∈ pairs.map Prod.fst ∨ name ∉ pairs.map Prod.snd

section Sessions

variable {pairs : List (Str × Str)} {columnMap : ColumnMap}

theorem columnText_of (hboth : BothWays pairs columnMap) (hnames : ∀ p ∈ pairs, IsName p.2 ∧ foldCase p.2 = p.2)
    {name : Str} (h : KnownAs pairs name) : ColumnText (columnName columnMap name) := by
  rw [columnName]
  rcases h with hfirst | hnone
  · obtain ⟨p, hp, rfl⟩ := List.mem_map.mp hfirst
    rw [hboth.lookup_iff.mpr ⟨p, hp, .inl rfl⟩]
    exact .inl (hnames p hp)
  · cases hlookup : columnMap.lookup name with
    | none => exact .inr rfl
    | some column =>
      obtain ⟨p, hp, heq | heq⟩ := hboth.lookup_iff.mp hlookup
      · obtain ⟨rfl, rfl⟩ := Prod.mk.inj heq
        exact .inl (hnames _ hp)
      · obtain ⟨rfl, -⟩ := Prod.mk.inj heq
        exact absurd (List.mem_map_of_mem hp) hnone

/-- What the views of a session hand on is fit for a statement. -/
theorem sendable_insert (D : Doubles ν) {v : View ν} (hcolumns : ∀ p ∈ v.lld, ColumnText (columnName columnMap p.1))
    (hplain : ∀ ids ∈ v.ids, ids.ArePlain) : (v.insert D columnMap).Sendable D.toEscape v.ids := by
  have hid (id : Ids → Str) (h : ∀ ids ∈ v.ids, Plain (id ids)) :
      IdText D.toEscape ((v.idJson id).dump D.toPrinter) (v.ids.map id) := by
    rw [View.idJson]
    cases hids : v.ids with
    | none => exact .null
    | some ids => exact .plain (h ids hids)
  refine ⟨?_, ?_, ?_, by simp [View.insert], hid _ fun ids h => (hplain ids h).participantId,
    hid _ fun ids h => (hplain ids h).trialId, hid _ fun ids h => (hplain ids h).experimentId⟩
  · intro c hc
    obtain ⟨p, hp, rfl⟩ := List.mem_map.mp hc
    exact hcolumns p hp
  · intro w hw
    obtain ⟨p, -, rfl⟩ := List.mem_map.mp hw
    exact isWord_of_isNumeral (D.toString_ne_nil p.2) (D.toString_numeral p.2)
  · simp only [View.insert, View.timeJson]
    cases v.tmeta.lookup "time".toList with
    | none =>
      show IsWord "null".toList
      unfold IsWord
      decide
    | some x => exact isWord_of_isNumeral (D.num_ne_nil x) (D.num_numeral x)

theorem sendable_logView (D : Doubles ν) (hboth : BothWays pairs columnMap)
    (hnames : ∀ p ∈ pairs, IsName p.2 ∧ foldCase p.2 = p.2) {ids : Ids} (hplain : ids.ArePlain) (temps : List Str)
    (h : ∀ temp ∈ temps, ∀ p ∈ featureOf D.atof temp, KnownAs pairs p.1) :
    ((logView D.atof ids temps).insert D columnMap).Sendable D.toEscape (logView D.atof ids temps).ids := by
  refine sendable_insert D (fun p hp => ?_) fun i hi => ?_
  · have hkey := List.mem_map_of_mem (f := Prod.fst) hp
    rw [logView, KeyMap.mem_keys_putAll, List.map_nil] at hkey
    obtain ⟨q, hq, hname⟩ := List.mem_map.mp (hkey.resolve_right List.not_mem_nil)
    obtain ⟨temp, htemp, hfeature⟩ := List.mem_filterMap.mp hq
    rw [← hname]
    exact columnText_of hboth hnames (h temp htemp q hfeature)
  · rw [logView] at hi
    split at hi
    · cases hi
    · obtain rfl := Option.some.inj hi
      exact hplain

/-- The statements of one call. -/
theorem executeEvents {D : Doubles ν} {ids : Ids} {s : Processor ν} {v : View ν} {flag : Bool}
    (hsim : Sim columnMap ids s { view := v, tmeta := flag }) (hsend : (v.insert D columnMap).Sendable D.toEscape v.ids)
    (m : LogMessage) {utcTimestamp : Str} (hutc : '\'' ∉ utcTimestamp ∧ '"' ∉ utcTimestamp) {u : Table}
    (hfixed : ∀ c ∈ fixedNames, c ∈ u.columns) (hempty : [] ∉ u.columns) :
    (s.step D m).2.foldl (Table.executeEvent utcTimestamp) u = (s.step D m).2.foldl (Table.record utcTimestamp) u := by
  have hthrown (f : Table → Event ν → Table) (hf : ∀ u x, f u (.thrown x) = u) (u : Table) :
      (if despace m.text = "lld".toList then [(.thrown .outOfRange : Event ν)] else []).foldl f u = u := by
    split
    · exact hf u _
    · rfl
  obtain ⟨message, -, hevents⟩ := hsim.step_events (D := D) m
  rw [hevents, List.foldl_append, List.foldl_append, hthrown _ (fun _ _ => rfl), hthrown _ (fun _ _ => rfl)]
  split
  · exact execute_query hsend hfixed hempty hutc
  · rfl

/-- A session's processor in a recording, from the session's own lines. -/
theorem processor_of_run {κ : Type} [DecidableEq κ] (D : Doubles ν) (ids : κ → Ids) (columnMap : ColumnMap) (t : Table)
    (ds : List (κ × Delivery)) (k : κ) : ((Recording.start ids columnMap t).run D ds).processors k =
      (Mealy.run (Processor.step D) ((ids k).processor columnMap) ((Mealy.only k ds).map Delivery.message)).1 := by
  rw [recording_run, ← session_state D t.columns]
  exact (Mealy.run_family (fun _ => sessionStep D t.columns) k _ ds).1

/-- **The statements do to the table what the lists do.** For sessions of any
logs and however they are mixed: executing the texts they send leaves the same
table as appending the rows of their lists. -/
theorem runText_eq {κ : Type} [DecidableEq κ] (D : Doubles ν) (hboth : BothWays pairs columnMap)
    (hnames : ∀ p ∈ pairs, IsName p.2 ∧ foldCase p.2 = p.2) {t : Table} (htable : TableOf pairs t.columns)
    {ids : κ → Ids} (hplain : ∀ k, (ids k).ArePlain) {ds : List (κ × Delivery)}
    (hds : ∀ d ∈ ds, ('\'' ∉ d.2.utcTimestamp ∧ '"' ∉ d.2.utcTimestamp) ∧
      ∀ p ∈ featureOf D.atof (despace d.2.message.text), KnownAs pairs p.1) :
    (Recording.start ids columnMap t).runText D ds = (Recording.start ids columnMap t).run D ds := by
  have hfixed : ∀ c ∈ fixedNames, c ∈ t.columns := fun c hc =>
    htable.columns.symm.subset (List.mem_append_right _ hc)
  have hempty : [] ∉ t.columns := by
    intro h
    rcases List.mem_append.mp (htable.columns.subset h) with hpair | hfix
    · obtain ⟨p, hp, hnil⟩ := List.mem_map.mp hpair
      exact htable.named p hp hnil
    · revert hfix
      decide +kernel
  induction ds using List.reverseRecOn with
  | nil => rfl
  | append_singleton ds d ih =>
    obtain ⟨hbefore, hlast⟩ := List.forall_mem_append.mp hds
    have hutc := (hlast d (.head _)).1
    have hsim := sim_log D (ids d.1) columnMap ((Mealy.only d.1 ds).map Delivery.message)
    rw [← processor_of_run D ids columnMap t] at hsim
    have hsend := sendable_logView D hboth hnames (hplain d.1)
      (((Mealy.only d.1 ds).map Delivery.message).map fun m => despace m.text) (by
        simp only [List.forall_mem_map]
        exact fun e he => (hbefore _ (Mealy.mem_only.mp he)).2)
    have hcolumns : ((Recording.start ids columnMap t).run D ds).table.columns = t.columns := by
      rw [recording_run]
      rfl
    have hstep := executeEvents hsim hsend d.2.message hutc (hcolumns ▸ hfixed) (hcolumns ▸ hempty)
    rw [Recording.runText_concat, Recording.run_concat, ih hbefore, Recording.stepText, Recording.step]
    simp only [hstep]

theorem runText_eq_two :
    (Recording.start twoIds mfccMap mfccTable).runText DecimalPrinter.allDigits.doubles mixedLines =
      (Recording.start twoIds mfccMap mfccTable).run DecimalPrinter.allDigits.doubles mixedLines :=
  runText_eq DecimalPrinter.allDigits.doubles mfccMap_bothWays
    (by
      unfold IsName
      decide +kernel) mfccTable_of twoIds_plain (by
      unfold KnownAs
      decide +kernel)

end Sessions

end SpeechAnalyzer
