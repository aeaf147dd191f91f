/-
What `OpensmileProcessor` accumulates, without the JSON: the features and the
frame's fields as two maps, whether the ids are filled in, and the flag. The
processor simulates it (`step_sim`): its message, at every moment, is a JSON
representation of the accumulated maps (`Represents`), none of its JSON accesses
throws, and the INSERT it sends is a function of the maps (`View.insert`).
-/
import SpeechAnalyzer.OpensmileProcessor
import Mathlib.Data.List.Induction

namespace SpeechAnalyzer

open Lib

variable {ν : Type}

/-- The content of an accumulated message: `data.tmeta`, `data.features.lld`,
and the ids once they are filled in. -/
structure View (ν : Type) where
  tmeta : List (Str × ν) := []
  lld : List (Str × ν) := []
  ids : Option Ids := none

structure Acc (ν : Type) where
  view : View ν := {}
  tmeta : Bool := false

/-- What becomes visible: a published view, an exception. -/
inductive AccEvent (ν : Type)
  | published (v : View ν)
  | thrown (e : Exn)

/-- The accumulator on one log message without its spaces. -/
def Acc.step (atof : Str → ν) (ids : Ids) (a : Acc ν) (temp : Str) : Acc ν × List (AccEvent ν) :=
  if Contains "lld".toList temp then
    let out : List (AccEvent ν) := if a.tmeta then [.published a.view] else []
    let v : View ν := if a.tmeta then { a.view with ids := some ids } else a.view
    if 4 ≤ temp.length then
      ({ view := { v with
          lld := KeyMap.put (parenthesize (fieldOf (temp.drop 4))) (atof (valueOf (temp.drop 4))) v.lld }
         tmeta := decide (Contains "tmeta:".toList temp) }, out)
    else ({ view := v, tmeta := false }, out ++ [.thrown .outOfRange])
  else
    ({ view := if a.tmeta then
        { a.view with tmeta := KeyMap.put (fieldOf temp) (atof (valueOf temp)) a.view.tmeta } else a.view
       tmeta := a.tmeta || decide (Contains "tmeta:".toList temp) }, [])

/-! ## Representation -/

/-- The places the processor writes. -/
inductive Place
  | tmeta (field : Str)
  | lld (field : Str)
  | participant
  | header
  | msg

def Place.path : Place → List Str
  | tmeta f => ["data".toList, "tmeta".toList, f]
  | lld f => ["data".toList, "features".toList, "lld".toList, f]
  | participant => ["data".toList, "participant_id".toList]
  | header => ["header".toList]
  | msg => ["msg".toList]

theorem Place.eq_or_diverge (p q : Place) : p = q ∨ Json.Diverge p.path q.path := by
  cases p <;> cases q <;> simp [Place.path, Json.Diverge, em]

/-- An id in a message: `null` until it is filled in. -/
def View.idJson (v : View ν) (id : Ids → Str) : Json ν :=
  match v.ids with
  | some ids => .str (id ids)
  | none => .null

/-- The message `m` holds the maps and ids of `v`, and every place the
processor writes takes a value. -/
structure Represents (m : Json ν) (v : View ν) : Prop where
  places : ∀ p : Place, Json.Open p.path m
  msg : (Json.path ["msg".toList] m).IsMap
  tmeta : (Json.path ["data".toList, "tmeta".toList] m).fields = nums v.tmeta
  lld : (Json.path ["data".toList, "features".toList, "lld".toList] m).fields = nums v.lld
  participantId : Json.path ["data".toList, "participant_id".toList] m = v.idJson Ids.participantId
  trialId : Json.path ["msg".toList, "trial_id".toList] m = v.idJson Ids.trialId
  experimentId : Json.path ["msg".toList, "experiment_id".toList] m = v.idJson Ids.experimentId

theorem Represents.null : Represents (.null : Json ν) {} := by
  constructor <;> intros <;> simp [nums, View.idJson]

section Assign

variable {m m' w : Json ν} {v : View ν}

theorem places_assign {p : Place} (h : ∀ q : Place, Json.Open q.path m)
    (hs : Json.setAt p.path w m = .ok m') (q : Place) : Json.Open q.path m' := by
  rcases p.eq_or_diverge q with rfl | hd
  · exact Json.open_setAt (h p) hs
  · exact Json.open_setAt_diverge (h p) hs hd (h q)

/-- A path that parts from the assigned place reads as before. -/
theorem path_assign {p : Place} {q : List Str} (h : ∀ q : Place, Json.Open q.path m)
    (hs : Json.setAt p.path w m = .ok m') (hd : Json.Diverge p.path q) : Json.path q m' = Json.path q m :=
  Json.path_setAt_diverge (h p) hs hd

/-- A number set among numbers. -/
theorem fields_assign {p : List Str} {f : Str} {x : ν} {l : List (Str × ν)} (ho : Json.Open (p ++ [f]) m)
    (hs : Json.setAt (p ++ [f]) (.num x) m = .ok m') (hl : (Json.path p m).fields = nums l) :
    (Json.path p m').fields = nums (KeyMap.put f x l) := by
  have hset := Json.path_setAt_append ho hs
  rw [Json.setAt_singleton (Json.open_append.mp ho).2.1, hl, nums_put, Except.ok.injEq] at hset
  rw [← hset]
  rfl

/-- An assignment to one of the two maps leaves the ids. -/
theorem Represents.assign (h : Represents m v) {p : Place} (hs : Json.setAt p.path w m = .ok m') {v' : View ν}
    (hmsg : Json.Diverge p.path Place.msg.path) (hpart : Json.Diverge p.path Place.participant.path)
    (hids : v'.ids = v.ids) (htmeta : (Json.path ["data".toList, "tmeta".toList] m').fields = nums v'.tmeta)
    (hlld : (Json.path ["data".toList, "features".toList, "lld".toList] m').fields = nums v'.lld) :
    Represents m' v' := by
  have hsame : Json.path ["msg".toList] m' = Json.path ["msg".toList] m := path_assign h.places hs hmsg
  have hmember (k : Str) : Json.path ["msg".toList, k] m' = Json.path ["msg".toList, k] m := by
    rw [Json.path_cons, hsame, ← Json.path_cons]
  have hid (id : Ids → Str) : v'.idJson id = v.idJson id := by rw [View.idJson, hids, View.idJson]
  refine ⟨places_assign h.places hs, ?_, htmeta, hlld, ?_, ?_, ?_⟩
  · rw [hsame]
    exact h.msg
  · rw [hid, ← h.participantId]
    exact path_assign h.places hs hpart
  · rw [hid, hmember, h.trialId]
  · rw [hid, hmember, h.experimentId]

theorem Represents.assign_tmeta (h : Represents m v) {f : Str} {x : ν}
    (hs : Json.setAt (Place.tmeta f).path (.num x) m = .ok m') :
    Represents m' { v with tmeta := KeyMap.put f x v.tmeta } := by
  refine h.assign hs (by simp [Place.path, Json.Diverge]) (by simp [Place.path, Json.Diverge]) rfl ?_ ?_
  · exact fields_assign (h.places (.tmeta f)) hs h.tmeta
  · rw [path_assign h.places hs (by simp [Place.path, Json.Diverge])]
    exact h.lld

theorem Represents.assign_lld (h : Represents m v) {f : Str} {x : ν}
    (hs : Json.setAt (Place.lld f).path (.num x) m = .ok m') :
    Represents m' { v with lld := KeyMap.put f x v.lld } := by
  refine h.assign hs (by simp [Place.path, Json.Diverge]) (by simp [Place.path, Json.Diverge]) rfl ?_ ?_
  · rw [path_assign h.places hs (by simp [Place.path, Json.Diverge])]
    exact h.tmeta
  · exact fields_assign (h.places (.lld f)) hs h.lld

/-- The three assignments after a publish fill in the ids. -/
theorem Represents.assign_ids (h : Represents m v) {ids : Ids} {m₁ m₂ m₃ : Json ν} {l : List (Str × Json ν)}
    (h₁ : Json.setAt Place.participant.path (.str ids.participantId) m = .ok m₁)
    (h₂ : Json.setAt Place.header.path w m₁ = .ok m₂) (h₃ : Json.setAt Place.msg.path (.obj l) m₂ = .ok m₃)
    (ht : l.lookup "trial_id".toList = some (.str ids.trialId))
    (he : l.lookup "experiment_id".toList = some (.str ids.experimentId)) :
    Represents m₃ { v with ids := some ids } := by
  have p₁ := places_assign h.places h₁
  have p₂ := places_assign p₁ h₂
  have hmsg : Json.path ["msg".toList] m₃ = .obj l := Json.path_setAt (p₂ .msg) h₃
  refine ⟨places_assign p₂ h₃, ?_, ?_, ?_, ?_, ?_, ?_⟩
  · rw [hmsg]
    trivial
  · rw [path_assign p₂ h₃ (by simp [Place.path, Json.Diverge]),
      path_assign p₁ h₂ (by simp [Place.path, Json.Diverge]),
      path_assign h.places h₁ (by simp [Place.path, Json.Diverge])]
    exact h.tmeta
  · rw [path_assign p₂ h₃ (by simp [Place.path, Json.Diverge]),
      path_assign p₁ h₂ (by simp [Place.path, Json.Diverge]),
      path_assign h.places h₁ (by simp [Place.path, Json.Diverge])]
    exact h.lld
  · rw [path_assign p₂ h₃ (by simp [Place.path, Json.Diverge]),
      path_assign p₁ h₂ (by simp [Place.path, Json.Diverge])]
    exact Json.path_setAt (h.places .participant) h₁
  · rw [Json.path_cons, hmsg, Json.path, Json.fields_obj, ht]
    rfl
  · rw [Json.path_cons, hmsg, Json.path, Json.fields_obj, he]
    rfl

end Assign

/-! ## The INSERT of a view -/

/-- The time of a frame in a message. -/
def View.timeJson (v : View ν) : Json ν :=
  match v.tmeta.lookup "time".toList with
  | some x => .num x
  | none => .null

/-- What `PublishChunk` makes of a message. -/
def View.insert (D : Doubles ν) (columnMap : ColumnMap) (v : View ν) : Insert where
  columns := v.lld.map fun p => columnName columnMap p.1
  values := v.lld.map fun p => D.toString p.2
  time := v.timeJson.dump D.toPrinter
  participant := (v.idJson Ids.participantId).dump D.toPrinter
  trialId := (v.idJson Ids.trialId).dump D.toPrinter
  experimentId := (v.idJson Ids.experimentId).dump D.toPrinter

theorem Represents.getAt_lld {m : Json ν} {v : View ν} (h : Represents m v) :
    ∃ lld : Json ν, Json.getAt ["data".toList, "features".toList, "lld".toList] m = .ok lld ∧
      lld.items = nums v.lld := by
  have hlld : Json.Open (["data".toList, "features".toList, "lld".toList] ++ [[]]) m := h.places (.lld [])
  obtain ⟨hopen, hmap, -⟩ := Json.open_append.mp hlld
  exact ⟨_, Json.getAt_of_open hopen, (items_eq_fields hmap).trans h.lld⟩

theorem Represents.getAt_ids {m : Json ν} {v : View ν} (h : Represents m v) :
    Json.getAt ["data".toList, "participant_id".toList] m = .ok (v.idJson Ids.participantId) ∧
      Json.getAt ["msg".toList, "trial_id".toList] m = .ok (v.idJson Ids.trialId) ∧
      Json.getAt ["msg".toList, "experiment_id".toList] m = .ok (v.idJson Ids.experimentId) := by
  have hmsg (k : Str) : Json.Open ["msg".toList, k] m := ⟨(h.places .msg).1, h.msg, trivial⟩
  refine ⟨?_, ?_, ?_⟩
  · rw [← h.participantId]
    exact Json.getAt_of_open (h.places .participant)
  · rw [← h.trialId]
    exact Json.getAt_of_open (hmsg _)
  · rw [← h.experimentId]
    exact Json.getAt_of_open (hmsg _)

theorem Represents.getAt_time {m : Json ν} {v : View ν} (h : Represents m v) :
    Json.getAt ["data".toList, "tmeta".toList, "time".toList] m = .ok v.timeJson := by
  have htmeta : Json.Open (["data".toList, "tmeta".toList] ++ ["time".toList]) m := h.places (.tmeta _)
  have hval : Json.path ["data".toList, "tmeta".toList, "time".toList] m =
      ((Json.path ["data".toList, "tmeta".toList] m).fields.lookup "time".toList).getD .null := rfl
  rw [show Json.getAt ["data".toList, "tmeta".toList, "time".toList] m = _ from Json.getAt_of_open htmeta,
    hval, h.tmeta, lookup_nums, View.timeJson]
  cases v.tmeta.lookup "time".toList <;> rfl

theorem publishChunk_represents {D : Doubles ν} {m : Json ν} {v : View ν} (h : Represents m v)
    (columnMap : ColumnMap) : ∃ columnMap',
      DBWrapper.publishChunk D columnMap m = .ok (v.insert D columnMap, columnMap') ∧
      ∀ k, columnName columnMap' k = columnName columnMap k := by
  obtain ⟨lld, hread, hitems⟩ := h.getAt_lld
  obtain ⟨hpart, htrial, hexperiment⟩ := h.getAt_ids
  exact publishChunk_eq hread hitems hpart htrial hexperiment h.getAt_time columnMap

/-! ## The simulation -/

variable {D : Doubles ν} {columnMap : ColumnMap} {ids : Ids}

structure Sim (columnMap : ColumnMap) (ids : Ids) (s : Processor ν) (a : Acc ν) : Prop where
  participantId : s.participantId = ids.participantId
  trialId : s.trialId = ids.trialId
  experimentId : s.experimentId = ids.experimentId
  tmeta : s.tmeta = a.tmeta
  message : Represents s.opensmileMessage a.view
  column : ∀ k, columnName s.columnMap k = columnName columnMap k

/-- An event of the processor shows an event of the accumulator. -/
def EventRel (D : Doubles ν) (columnMap : ColumnMap) : Event ν → AccEvent ν → Prop
  | .published m i, .published v => Represents m v ∧ i = some (v.insert D columnMap)
  | .thrown e, .thrown e' => e = e'
  | _, _ => False

theorem insert_congr {columnMap' : ColumnMap} (h : ∀ k, columnName columnMap' k = columnName columnMap k)
    (v : View ν) : v.insert D columnMap' = v.insert D columnMap := by
  simp only [View.insert, h]

theorem Sim.init (columnMap : ColumnMap) (ids : Ids) :
    Sim columnMap ids
      { participantId := ids.participantId, trialId := ids.trialId, experimentId := ids.experimentId,
        columnMap : Processor ν } {} :=
  ⟨rfl, rfl, rfl, rfl, Represents.null, fun _ => rfl⟩

theorem Processor.assign_ok {p : List Str} {v j : Json ν} {s : Processor ν}
    (h : Json.setAt p v s.opensmileMessage = .ok j) :
    s.assign p v = { state := { s with opensmileMessage := j } } := by
  rw [Processor.assign, h]

theorem Sim.assignField {s : Processor ν} {a : Acc ν} (h : Sim columnMap ids s a) (temp : Str) :
    ∃ s', s.assignField D temp = { state := s' } ∧ Sim columnMap ids s'
      { a with view := { a.view with
          tmeta := KeyMap.put (fieldOf temp) (D.atof (valueOf temp)) a.view.tmeta } } := by
  obtain ⟨j, hj⟩ := Json.exists_setAt (v := .num (D.atof (valueOf temp))) (h.message.places (.tmeta (fieldOf temp)))
  exact ⟨_, Processor.assign_ok hj,
    h.participantId, h.trialId, h.experimentId, h.tmeta, h.message.assign_tmeta hj, h.column⟩

theorem Sim.assignLld {s : Processor ν} {a : Acc ν} (h : Sim columnMap ids s a) {temp : Str}
    (hlen : 4 ≤ temp.length) :
    ∃ s', s.assignLld D temp = { state := s' } ∧ Sim columnMap ids s'
      { a with view := { a.view with
          lld := KeyMap.put (parenthesize (fieldOf (temp.drop 4))) (D.atof (valueOf (temp.drop 4))) a.view.lld } } := by
  obtain ⟨j, hj⟩ := Json.exists_setAt (v := .num (D.atof (valueOf (temp.drop 4))))
    (h.message.places (.lld (parenthesize (fieldOf (temp.drop 4)))))
  refine ⟨{ s with opensmileMessage := j }, ?_,
    h.participantId, h.trialId, h.experimentId, h.tmeta, h.message.assign_lld hj, h.column⟩
  rw [Processor.assignLld, substr, if_pos hlen]
  exact Processor.assign_ok hj

/-- A publish hands on the accumulated view and fills in the ids. -/
theorem Sim.publish {s : Processor ν} {a : Acc ν} (h : Sim columnMap ids s a) (m : LogMessage) :
    ∃ s' e, s.publish D m = { state := s', events := [e] } ∧ EventRel D columnMap e (.published a.view) ∧
      Sim columnMap ids s' { view := { a.view with ids := some ids }, tmeta := false } := by
  obtain ⟨columnMap', hpub, hcol⟩ := publishChunk_represents (D := D) h.message s.columnMap
  rw [insert_congr h.column] at hpub
  obtain ⟨m₁, h₁⟩ := Json.exists_setAt (v := .str s.participantId) (h.message.places .participant)
  have p₁ := places_assign h.message.places h₁
  obtain ⟨m₂, h₂⟩ := Json.exists_setAt
    (v := Processor.createCommonHeader m.headerTime "observation".toList) (p₁ .header)
  have p₂ := places_assign p₁ h₂
  obtain ⟨m₃, h₃⟩ := Json.exists_setAt (v := s.createCommonMsg m.msgTime "openSMILE".toList) (p₂ .msg)
  refine ⟨{ s with opensmileMessage := m₃, tmeta := false, columnMap := columnMap' },
    .published s.opensmileMessage (some (a.view.insert D columnMap)), ?_, ⟨h.message, rfl⟩,
    h.participantId, h.trialId, h.experimentId, rfl, ?_, fun k => (hcol k).trans (h.column k)⟩
  · simp only [Place.path] at h₁ h₂ h₃
    simp only [Processor.createCommonMsg] at h₃
    simp only [Processor.publish, Processor.publishChunk, hpub, Outcome.andThen, Processor.assign, h₁, h₂,
      Processor.createCommonMsg, h₃, if_true, List.append_nil]
  · have hkeys : ["timestamp".toList, "experiment_id".toList, "trial_id".toList, "version".toList,
        "source".toList, "sub_type".toList].Nodup := by decide
    refine h.message.assign_ids (h.participantId ▸ h₁) h₂ h₃ ?_ ?_
    · rw [← h.trialId]
      exact KeyMap.lookup_putAll_of_mem hkeys (by simp)
    · rw [← h.experimentId]
      exact KeyMap.lookup_putAll_of_mem hkeys (by simp)

/-- The first block, on a message with `lld`: publish in the `tmeta` state. -/
theorem Sim.tmetaBlock_lld {s : Processor ν} {a : Acc ν} (h : Sim columnMap ids s a) (m : LogMessage)
    {temp : Str} (hlld : Contains "lld".toList temp) :
    ∃ s' es, s.tmetaBlock D m temp = { state := s', events := es } ∧
      List.Forall₂ (EventRel D columnMap) es (if a.tmeta then [.published a.view] else []) ∧
      Sim columnMap ids s'
        { view := if a.tmeta then { a.view with ids := some ids } else a.view, tmeta := false } := by
  obtain ⟨v, b⟩ := a
  have htm : s.tmeta = b := h.tmeta
  rw [Processor.tmetaBlock, if_pos hlld]
  cases b with
  | false => exact ⟨s, [], by rw [htm]; rfl, .nil, h⟩
  | true =>
    obtain ⟨s', e, hpub, he, hs'⟩ := h.publish (D := D) m
    have hoff : s'.tmeta = false := hs'.tmeta
    refine ⟨s', [e], ?_, .cons he .nil, hs'⟩
    simp only [htm, if_true, hpub, Outcome.andThen, hoff, Bool.false_eq_true, if_false, List.append_nil]

/-- The first block, on any other message: a field of `tmeta` in the `tmeta` state. -/
theorem Sim.tmetaBlock_other {s : Processor ν} {a : Acc ν} (h : Sim columnMap ids s a) (m : LogMessage)
    {temp : Str} (hlld : ¬ Contains "lld".toList temp) :
    ∃ s', s.tmetaBlock D m temp = { state := s' } ∧ Sim columnMap ids s'
      { a with view := if a.tmeta then
          { a.view with tmeta := KeyMap.put (fieldOf temp) (D.atof (valueOf temp)) a.view.tmeta }
        else a.view } := by
  obtain ⟨v, b⟩ := a
  have htm : s.tmeta = b := h.tmeta
  rw [Processor.tmetaBlock, if_neg hlld]
  cases b with
  | false => exact ⟨s, by rw [htm]; rfl, h⟩
  | true =>
    obtain ⟨s', hassign, hs'⟩ := h.assignField (D := D) temp
    refine ⟨s', ?_, hs'⟩
    simp only [Outcome.andThen, htm, if_true, hassign, List.append_nil]

theorem Sim.flagBlock {s : Processor ν} {a : Acc ν} (h : Sim columnMap ids s a) (temp : Str) :
    ∃ s', s.flagBlock temp = { state := s' } ∧
      Sim columnMap ids s' { a with tmeta := a.tmeta || decide (Contains "tmeta:".toList temp) } := by
  rw [Processor.flagBlock]
  by_cases ht : Contains "tmeta:".toList temp
  · refine ⟨{ s with tmeta := true }, if_pos ht,
      h.participantId, h.trialId, h.experimentId, ?_, h.message, h.column⟩
    rw [decide_eq_true ht, Bool.or_true]
  · refine ⟨s, if_neg ht, h.participantId, h.trialId, h.experimentId, ?_, h.message, h.column⟩
    rw [decide_eq_false ht, Bool.or_false]
    exact h.tmeta

/-- **The processor simulates the accumulator**, one log message at a time. -/
theorem step_sim {s : Processor ν} {a : Acc ν} (m : LogMessage) (h : Sim columnMap ids s a) :
    Sim columnMap ids (s.step D m).1 (a.step D.atof ids (despace m.text)).1 ∧
      List.Forall₂ (EventRel D columnMap) (s.step D m).2 (a.step D.atof ids (despace m.text)).2 := by
  simp only [Processor.step, Processor.processOpensmileLog, Acc.step]
  generalize despace m.text = temp
  by_cases hlld : Contains "lld".toList temp
  · obtain ⟨s₁, es, hblock, hes, h₁⟩ := h.tmetaBlock_lld (D := D) m hlld
    rw [hblock, if_pos hlld]
    by_cases hlen : 4 ≤ temp.length
    · obtain ⟨s₂, hassign, h₂⟩ := h₁.assignLld (D := D) hlen
      obtain ⟨s₃, hflag, h₃⟩ := h₂.flagBlock temp
      rw [if_pos hlen]
      simp only [Outcome.andThen, Processor.lldBlock, if_pos hlld, hassign, hflag, if_true, List.append_nil]
      exact ⟨by simpa using h₃, hes⟩
    · have hthrow : s₁.assignLld D temp = .throw s₁ .outOfRange := by
        rw [Processor.assignLld, substr, if_neg hlen]
      rw [if_neg hlen]
      simp only [Outcome.andThen, Processor.lldBlock, if_pos hlld, hthrow, Outcome.throw, if_true,
        Bool.false_eq_true, if_false]
      exact ⟨h₁, List.rel_append hes (.cons rfl .nil)⟩
  · obtain ⟨s₁, hblock, h₁⟩ := h.tmetaBlock_other (D := D) m hlld
    obtain ⟨s₂, hflag, h₂⟩ := h₁.flagBlock temp
    rw [hblock, if_neg hlld]
    simp only [Outcome.andThen, Processor.lldBlock, if_neg hlld, hflag, if_true, List.append_nil]
    exact ⟨h₂, .nil⟩

/-- All that becomes visible on a list of log messages without their spaces. -/
def Acc.events (atof : Str → ν) (ids : Ids) (temps : List Str) : List (AccEvent ν) :=
  (Mealy.run (Acc.step atof ids) {} temps).2

/-- The events of a new processor are those of a new accumulator. -/
theorem events_sim (D : Doubles ν) (ids : Ids) (columnMap : ColumnMap) (ms : List LogMessage) :
    List.Forall₂ (EventRel D columnMap)
      (Processor.events D ids.participantId ids.trialId ids.experimentId columnMap ms)
      (Acc.events D.atof ids (ms.map fun m => despace m.text)) := by
  rw [Acc.events, Mealy.run_map]
  exact (Mealy.run_sim (fun _ _ m h => step_sim m h) ms (Sim.init columnMap ids)).2

/-! ## The flag -/

/-- Some line has `tmeta:`, and no line after it has `lld`. -/
def InTmeta : List Str → Prop
  | [] => False
  | temp :: temps => InTmeta temps ∨ Contains "tmeta:".toList temp ∧ ∀ y ∈ temps, ¬ Contains "lld".toList y

instance decidableInTmeta : (temps : List Str) → Decidable (InTmeta temps)
  | [] => inferInstanceAs (Decidable False)
  | _ :: temps =>
    have := decidableInTmeta temps
    inferInstanceAs (Decidable (_ ∨ _))

theorem inTmeta_concat (temp : Str) : ∀ temps : List Str, InTmeta (temps ++ [temp]) ↔
    Contains "tmeta:".toList temp ∨ InTmeta temps ∧ ¬ Contains "lld".toList temp
  | [] => by simp [InTmeta]
  | y :: temps => by
    rw [List.cons_append, InTmeta, InTmeta, inTmeta_concat temp temps]
    simp only [List.forall_mem_append, List.forall_mem_singleton]
    tauto

/-- The flag after these lines. -/
theorem run_tmeta (atof : Str → ν) (ids : Ids) (temps : List Str) :
    (Mealy.run (Acc.step atof ids) {} temps).1.tmeta = true ↔ InTmeta temps := by
  induction temps using List.reverseRecOn with
  | nil => simp [InTmeta]
  | append_singleton temps temp ih =>
    rw [Mealy.run_append, Mealy.run_cons, Mealy.run_nil, inTmeta_concat, ← ih]
    generalize (Mealy.run (Acc.step atof ids) {} temps).1 = a
    rw [Acc.step]
    by_cases hlld : Contains "lld".toList temp
    · rw [if_pos hlld]
      simp only [hlld, not_true, and_false, or_false]
      by_cases hlen : 4 ≤ temp.length
      · simp only [if_pos hlen, decide_eq_true_eq]
      · -- Only `lld` itself is as short.
        have hshort : ¬ Contains "tmeta:".toList temp := fun h =>
          hlen ((show 4 ≤ 6 by decide).trans h.length_le)
        simp only [if_neg hlen, hshort, Bool.false_eq_true]
    · rw [if_neg hlld]
      simp only [hlld, not_false_eq_true, and_true, Bool.or_eq_true, decide_eq_true_eq]
      exact or_comm

end SpeechAnalyzer
