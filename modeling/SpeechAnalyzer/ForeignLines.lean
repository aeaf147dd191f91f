/-
openSMILE's own messages between the lines of its frames. The log callback
hands all of them to `ProcessOpensmileLog`, which takes any text with `lld` in
it for a feature line and, after `tmeta:`, any other for a field.

A two-run statement: `undisturbed_iff` says which messages can stand anywhere
in any stream of frames without changing what is stored, `undisturbed_of_places`
where in one stream a message does no harm.
-/
import SpeechAnalyzer.Frames

namespace SpeechAnalyzer

open Lib

variable {ν : Type}

/-- A message that is neither a feature line, nor a `tmeta:` line, nor a field. -/
def Foreign (temp : Str) : Prop :=
  ¬ "lld.".toList <+: temp ∧ ¬ Contains "tmeta:".toList temp ∧ '=' ∉ temp

instance (temp : Str) : Decidable (Foreign temp) := inferInstanceAs (Decidable (_ ∧ _ ∧ _))

/-- The stream without its foreign messages. -/
def withoutForeign (ms : List LogMessage) : List LogMessage := ms.filter fun m => ¬ Foreign (despace m.text)

/-- What `PublishChunk` makes of each message it gets. -/
def inserts (es : List (Event ν)) : List (Option Insert) :=
  es.filterMap fun
    | .published _ i => some i
    | .thrown _ => none

def Event.isPublished : Event ν → Prop
  | .published _ _ => True
  | .thrown _ => False

/-- No exception, and the INSERTs of the stream without its foreign messages. -/
def Undisturbed (D : Doubles ν) (ids : Ids) (columnMap : ColumnMap) (ms : List LogMessage) : Prop :=
  let events := Processor.events D ids.participantId ids.trialId ids.experimentId columnMap
  (∀ e ∈ events ms, e.isPublished) ∧ inserts (events ms) = inserts (events (withoutForeign ms))

/-- The message is not taken for a feature, and not for the time of a frame. -/
def Harmless (temp : Str) : Prop := ¬ Contains "lld".toList temp ∧ temp ≠ "time".toList

/-- After these lines the message is not taken for a feature, and not for the
time: `time` stands not between a `tmeta:` and the publish. -/
def HarmlessAfter (before : List Str) (temp : Str) : Prop :=
  ¬ Contains "lld".toList temp ∧ (InTmeta before → temp ≠ "time".toList)

/-! ## Views that store the same row -/

structure View.SameRow (v w : View ν) : Prop where
  lld : v.lld = w.lld
  time : v.tmeta.lookup "time".toList = w.tmeta.lookup "time".toList
  ids : v.ids = w.ids

theorem View.SameRow.refl (v : View ν) : v.SameRow v := ⟨rfl, rfl, rfl⟩

theorem View.SameRow.insert_eq {D : Doubles ν} {columnMap : ColumnMap} {v w : View ν} (h : v.SameRow w) :
    v.insert D columnMap = w.insert D columnMap := by
  simp only [View.insert, View.timeJson, View.idJson, h.lld, h.time, h.ids]

/-- Two publishes of the same row. -/
def AccEvent.SameRow : AccEvent ν → AccEvent ν → Prop
  | .published v, .published w => v.SameRow w
  | _, _ => False

structure Acc.SameRow (a b : Acc ν) : Prop where
  view : a.view.SameRow b.view
  tmeta : a.tmeta = b.tmeta

section Steps

variable {atof : Str → ν} {ids : Ids} {a b : Acc ν} {temp : Str}

theorem Acc.SameRow.published (h : a.SameRow b) (ids : Ids) : (a.published ids).SameRow (b.published ids) := by
  rw [Acc.published, Acc.published, h.tmeta]
  split
  · exact ⟨h.view.lld, h.view.time, rfl⟩
  · exact h.view

theorem Acc.SameRow.handOn (h : a.SameRow b) : List.Forall₂ AccEvent.SameRow a.handOn b.handOn := by
  rw [Acc.handOn, Acc.handOn, h.tmeta]
  split
  · exact .cons h.view .nil
  · exact .nil

/-- With `lld` in it, only `lld` itself has less than four characters. -/
theorem eq_lld (hlld : Contains "lld".toList temp) (hlen : ¬ 4 ≤ temp.length) : temp = "lld".toList := by
  have hle : 3 ≤ temp.length := hlld.length_le
  exact (List.IsInfix.eq_of_length hlld (show 3 = temp.length by omega)).symm

theorem four_le_length (hlld : Contains "lld".toList temp) (hf : ¬ Foreign temp) : 4 ≤ temp.length := by
  by_contra hlen
  rw [eq_lld hlld hlen] at hf
  exact hf (by decide)

theorem Acc.step_lld (h : Contains "lld".toList temp) (hlen : 4 ≤ temp.length) :
    a.step atof ids temp =
      ({ view := { a.published ids with
          lld := KeyMap.put (parenthesize (fieldOf (temp.drop 4))) (atof (valueOf (temp.drop 4)))
            (a.published ids).lld }
         tmeta := decide (Contains "tmeta:".toList temp) }, a.handOn) := by
  rw [Acc.step, if_pos h, if_pos hlen]
  rfl

/-- A line of the frames keeps the rows the same. -/
theorem Acc.SameRow.step (h : a.SameRow b) (hf : ¬ Foreign temp) :
    (a.step atof ids temp).1.SameRow (b.step atof ids temp).1 ∧
      List.Forall₂ AccEvent.SameRow (a.step atof ids temp).2 (b.step atof ids temp).2 := by
  by_cases hlld : Contains "lld".toList temp
  · have hlen := four_le_length hlld hf
    have hpub := h.published ids
    rw [Acc.step_lld hlld hlen, Acc.step_lld hlld hlen]
    refine ⟨⟨⟨?_, hpub.time, hpub.ids⟩, rfl⟩, h.handOn⟩
    simp only [hpub.lld]
  · rw [Acc.step, Acc.step, if_neg hlld, if_neg hlld, h.tmeta]
    refine ⟨⟨?_, rfl⟩, .nil⟩
    split
    · refine ⟨h.view.lld, ?_, h.view.ids⟩
      rw [KeyMap.lookup_put, KeyMap.lookup_put, h.view.time]
    · exact h.view

theorem fieldOf_of_not_mem {s : Str} (h : '=' ∉ s) : fieldOf s = s := by
  rw [fieldOf, List.idxOf?_eq_none_iff.mpr h]

/-- A harmless foreign message at most adds a field nothing stores. -/
theorem Acc.SameRow.step_foreign (h : a.SameRow b) (hf : Foreign temp) (hlld : ¬ Contains "lld".toList temp)
    (htime : a.tmeta = true → temp ≠ "time".toList) :
    (a.step atof ids temp).1.SameRow b ∧ (a.step atof ids temp).2 = [] := by
  rw [Acc.step, if_neg hlld, decide_eq_false hf.2.1, Bool.or_false, fieldOf_of_not_mem hf.2.2]
  refine ⟨⟨?_, h.tmeta⟩, rfl⟩
  split
  · next htmeta =>
    refine ⟨h.view.lld, ?_, h.view.ids⟩
    rw [KeyMap.lookup_put, if_neg (Ne.symm (htime htmeta))]
    exact h.view.time
  · exact h.view

/-- With foreign messages that do no harm where they stand or without, the same
rows are published. -/
theorem run_sameRow (atof : Str → ν) (ids : Ids) : ∀ {temps before : List Str} {b : Acc ν},
    (Mealy.run (Acc.step atof ids) {} before).1.SameRow b →
    (∀ part temp after, temps = part ++ temp :: after → Foreign temp → HarmlessAfter (before ++ part) temp) →
    List.Forall₂ AccEvent.SameRow (Mealy.run (Acc.step atof ids) (Mealy.run (Acc.step atof ids) {} before).1 temps).2
      (Mealy.run (Acc.step atof ids) b (temps.filter fun t => ¬ Foreign t)).2
  | [], _, _, _, _ => .nil
  | temp :: temps, before, b, h, hs => by
    have hnext : (Mealy.run (Acc.step atof ids) {} (before ++ [temp])).1 =
        ((Mealy.run (Acc.step atof ids) {} before).1.step atof ids temp).1 := by
      rw [Mealy.run_append]
      rfl
    have hrest : ∀ part t after, temps = part ++ t :: after → Foreign t →
        HarmlessAfter (before ++ [temp] ++ part) t := by
      intro part t after hsplit hf
      rw [List.append_assoc, List.singleton_append]
      exact hs (temp :: part) t after (by rw [hsplit, List.cons_append]) hf
    by_cases hf : Foreign temp
    · obtain ⟨hlld, htime⟩ := hs [] temp temps rfl hf
      rw [List.append_nil, ← run_tmeta atof ids] at htime
      obtain ⟨hsame, hout⟩ := h.step_foreign hf hlld htime
      rw [← hnext] at hsame
      rw [Mealy.run_cons, hout, List.filter_cons_of_neg (by simpa using hf), ← hnext]
      exact run_sameRow atof ids hsame hrest
    · obtain ⟨hsame, hout⟩ := h.step hf
      rw [← hnext] at hsame
      rw [Mealy.run_cons, List.filter_cons_of_pos (by simpa using hf), Mealy.run_cons, ← hnext]
      exact List.rel_append hout (run_sameRow atof ids hsame hrest)

end Steps

/-! ## Stored rows -/

section Rows

variable {D : Doubles ν} {ids : Ids} {columnMap : ColumnMap}

def AccEvent.isPublished : AccEvent ν → Prop
  | .published _ => True
  | .thrown _ => False

/-- The rows of the published views. -/
def storedRows (D : Doubles ν) (columnMap : ColumnMap) (es : List (AccEvent ν)) : List Insert :=
  es.filterMap fun
    | .published v => some (v.insert D columnMap)
    | .thrown _ => none

theorem inserts_eq : ∀ {es : List (Event ν)} {es' : List (AccEvent ν)},
    List.Forall₂ (EventRel D columnMap) es es' → inserts es = (storedRows D columnMap es').map some
  | _, _, .nil => rfl
  | e :: es, e' :: es', .cons h hs => by
    have ih := inserts_eq hs
    simp only [inserts, storedRows] at ih
    cases e <;> cases e' <;> simp only [EventRel] at h
    · simp only [inserts, storedRows, List.filterMap_cons, List.map_cons, ih, h.2]
    · simp only [inserts, storedRows, List.filterMap_cons, ih]

theorem storedRows_eq : ∀ {es es' : List (AccEvent ν)}, List.Forall₂ AccEvent.SameRow es es' →
    storedRows D columnMap es = storedRows D columnMap es'
  | _, _, .nil => rfl
  | e :: es, e' :: es', .cons h hs => by
    have ih := storedRows_eq hs
    simp only [storedRows] at ih
    cases e <;> cases e' <;> simp only [AccEvent.SameRow] at h
    simp only [storedRows, List.filterMap_cons, ih, h.insert_eq]

theorem isPublished_iff {e : Event ν} {e' : AccEvent ν} (h : EventRel D columnMap e e') :
    e.isPublished ↔ e'.isPublished := by
  cases e <;> cases e' <;> simp only [EventRel] at h <;> exact Iff.rfl

theorem isPublished_of_sameRow {es es' : List (AccEvent ν)} (h : List.Forall₂ AccEvent.SameRow es es') :
    ∀ e ∈ es, e.isPublished := by
  induction h with
  | nil => simp
  | cons h _ ih =>
    refine List.forall_mem_cons.mpr ⟨?_, ih⟩
    revert h
    rename_i e e' _ _ _
    cases e <;> cases e' <;> simp [AccEvent.SameRow, AccEvent.isPublished]

theorem map_withoutForeign (ms : List LogMessage) :
    (withoutForeign ms).map (fun m => despace m.text) =
      (ms.map fun m => despace m.text).filter fun t => ¬ Foreign t := by
  rw [List.filter_map]
  rfl

/-- The same of the accumulator. -/
theorem undisturbed_iff_acc (ms : List LogMessage) :
    Undisturbed D ids columnMap ms ↔
      (∀ e ∈ Acc.events D.atof ids (ms.map fun m => despace m.text), e.isPublished) ∧
        storedRows D columnMap (Acc.events D.atof ids (ms.map fun m => despace m.text)) =
          storedRows D columnMap
            (Acc.events D.atof ids ((ms.map fun m => despace m.text).filter fun t => ¬ Foreign t)) := by
  have hsim := events_sim D ids columnMap ms
  have hsim' := events_sim D ids columnMap (withoutForeign ms)
  rw [map_withoutForeign] at hsim'
  simp only [Undisturbed]
  rw [Mealy.forall_mem_iff (fun _ _ h => isPublished_iff h) hsim, inserts_eq hsim, inserts_eq hsim',
    List.map_inj_right fun _ _ h => Option.some.inj h]

end Rows

/-! ## Messages that disturb -/

section Disturb

variable {D : Doubles ν} {ids : Ids} {columnMap : ColumnMap}

theorem lldLine_not_foreign (p : Str × Str) : ¬ Foreign (lldLine p) := fun h =>
  h.1 ⟨p.1 ++ '=' :: p.2, by rw [lldLine_eq]; rfl⟩

theorem fieldLine_not_foreign (p : Str × Str) : ¬ Foreign (fieldLine p) := fun h => h.2.2 (by simp [fieldLine])

theorem Frame.not_foreign {f : Frame} : ∀ l ∈ f.lines, ¬ Foreign l := by
  intro l hl
  rcases List.mem_append.mp hl with hl | hl
  · obtain ⟨p, -, rfl⟩ := List.mem_map.mp hl
    exact lldLine_not_foreign p
  rcases List.mem_cons.mp hl with rfl | hl
  · decide
  · obtain ⟨p, -, rfl⟩ := List.mem_map.mp hl
    exact fieldLine_not_foreign p

/-- A stream of the frames' lines with foreign messages out of `S` among them. -/
structure Stream (S : Set Str) (frames : List Frame) (ms : List LogMessage) : Prop where
  lines : (withoutForeign ms).map (fun m => despace m.text) = frames.flatMap Frame.lines
  foreign : ∀ m ∈ ms, Foreign (despace m.text) → m.text ∈ S

def messages (texts : List Str) : List LogMessage := texts.map fun text => { text, headerTime := [], msgTime := [] }

theorem despace_of_not_mem {l : Str} (h : ' ' ∉ l) : despace l = l :=
  List.filter_eq_self.mpr fun c hc => by simpa using fun he : c = ' ' => h (he ▸ hc)

theorem map_despace_messages {texts : List Str} (h : ∀ l ∈ texts, ' ' ∉ l) :
    (messages texts).map (fun m => despace m.text) = texts := by
  rw [messages, List.map_map]
  exact (List.map_congr_left fun l hl => despace_of_not_mem (h l hl)).trans (List.map_id _)

/-- A foreign message of `S` at any place of the frames' lines. -/
theorem stream_insert {S : Set Str} {t : Str} (ht : t ∈ S) (hf : Foreign (despace t)) (frames : List Frame)
    (before after : List Str) (hlines : before ++ after = frames.flatMap Frame.lines)
    (hspace : ∀ l ∈ before ++ after, ' ' ∉ l) :
    Stream S frames (messages before ++ messages [t] ++ messages after) ∧
      (messages before ++ messages [t] ++ messages after).map (fun m => despace m.text) =
        before ++ despace t :: after := by
  have hmap : (messages before ++ messages [t] ++ messages after).map (fun m => despace m.text) =
      before ++ despace t :: after := by
    rw [List.map_append, List.map_append, map_despace_messages fun l hl => hspace l (List.mem_append_left _ hl),
      map_despace_messages fun l hl => hspace l (List.mem_append_right _ hl), List.append_assoc]
    rfl
  have hnot : ∀ l ∈ before ++ after, ¬ Foreign l := by
    intro l hl
    rw [hlines] at hl
    obtain ⟨f, -, hl⟩ := List.mem_flatMap.mp hl
    exact Frame.not_foreign l hl
  refine ⟨⟨?_, ?_⟩, hmap⟩
  · rw [map_withoutForeign, hmap, List.filter_append, List.filter_cons_of_neg (by simpa using hf),
      ← List.filter_append, hlines, List.filter_eq_self]
    intro l hl
    simpa using hnot l (hlines ▸ hl)
  · intro m hm hfm
    simp only [messages, List.mem_append, List.mem_map, List.map_cons, List.map_nil, List.mem_singleton] at hm
    have hline : ∀ l ∈ before ++ after, m = ⟨l, [], []⟩ → m.text ∈ S := by
      rintro l hl rfl
      rw [despace_of_not_mem (hspace l hl)] at hfm
      exact absurd hfm (hnot l hl)
    rcases hm with (⟨l, hl, rfl⟩ | rfl) | ⟨l, hl, rfl⟩
    · exact hline l (List.mem_append_left _ hl) rfl
    · exact ht
    · exact hline l (List.mem_append_right _ hl) rfl

/-- A frame with one feature, its value and its time both one. -/
def unitFrame (name : Str) : Frame where
  lld := [(name, "1".toList)]
  fields := [("time".toList, "1".toList)]

theorem unitFrame_names (n : Nat) : LldName (List.replicate n 'a') := by
  refine ⟨?_, ?_, ?_, ?_⟩
  · simp [List.mem_replicate]
  · simp [List.mem_replicate]
  · simp [List.mem_replicate]
  · exact not_contains_of_not_mem (c := ':') (by decide) (by simp [List.mem_replicate])

theorem unitFrame_wellFormed (n : Nat) : (unitFrame (List.replicate n 'a')).WellFormed := by
  have hone : IsNumber "1".toList := by
    unfold IsNumber
    decide
  refine ⟨by simp [unitFrame], by simp [unitFrame], ?_, ?_, by simp [unitFrame], by simp [unitFrame]⟩
  · intro p hp
    rw [List.mem_singleton.mp hp]
    exact ⟨unitFrame_names n, hone⟩
  · intro p hp
    rw [List.mem_singleton.mp hp]
    exact ⟨sampleFrame_names.2, hone⟩

/-- The lines of two unit frames have no spaces. -/
theorem unitFrames_spaceless (n : Nat) :
    ∀ l ∈ (unitFrame (List.replicate n 'a')).lines ++ (unitFrame (List.replicate n 'a')).lines, ' ' ∉ l := by
  simp [Frame.lines, unitFrame, lldLine_eq, fieldLine, List.mem_replicate]

/-- A second unit frame publishes what there is. -/
theorem run_unitFrame {atof : Str → ν} (n : Nat) {a : Acc ν} (h : a.tmeta = true) :
    (Mealy.run (Acc.step atof ids) a (unitFrame (List.replicate n 'a')).lines).2 = [.published a.view] := by
  rw [run_frame (unitFrame_wellFormed n), Acc.handOn, if_pos h]

/-- The row of a unit frame. -/
theorem events_unitFrames (atof : Str → ν) (ids : Ids) (n : Nat) :
    Acc.events atof ids ([unitFrame (List.replicate n 'a'), unitFrame (List.replicate n 'a')].flatMap Frame.lines) =
      [.published {
        tmeta := [("time".toList, atof "1".toList)]
        lld := [(parenthesize (List.replicate n 'a'), atof "1".toList)] }] := by
  rw [Acc.events, List.flatMap_cons, Mealy.run_append, run_frame (unitFrame_wellFormed n), List.flatMap_cons,
    List.flatMap_nil, List.append_nil, run_unitFrame n rfl]
  rfl

theorem filter_stream {S : Set Str} {frames : List Frame} {ms : List LogMessage} (h : Stream S frames ms) :
    (ms.map fun m => despace m.text).filter (fun t => ¬ Foreign t) = frames.flatMap Frame.lines := by
  rw [← map_withoutForeign, h.lines]

theorem length_parenthesize (name : Str) : (parenthesize name).length = name.length := by
  rw [parenthesize]
  split
  · rw [List.length_set, List.length_set]
  · rfl

/-- `lld` alone throws. -/
theorem events_lld (atof : Str → ν) (ids : Ids) : Acc.events atof ids ["lld".toList] = [.thrown .outOfRange] := by
  rw [Acc.events, Mealy.run_cons, Acc.step, if_pos (by decide), if_neg (by decide)]
  rfl

theorem isNumber_one : IsNumber "1".toList := by
  unfold IsNumber
  decide

/-- A message with `lld` in it puts a feature of its own into the row. -/
theorem events_foreign_lld (atof : Str → ν) (ids : Ids) (n : Nat) {t : Str} (hf : Foreign t)
    (hlld : Contains "lld".toList t) (hlen : 4 ≤ t.length) :
    Acc.events atof ids (lldLine (List.replicate n 'a', "1".toList) :: t :: "tmeta:".toList ::
        fieldLine ("time".toList, "1".toList) :: (unitFrame (List.replicate n 'a')).lines) =
      [.published {
        tmeta := [("time".toList, atof "1".toList)]
        lld := KeyMap.put (parenthesize (fieldOf (t.drop 4))) (atof (valueOf (t.drop 4)))
          [(parenthesize (List.replicate n 'a'), atof "1".toList)] }] := by
  rw [Acc.events, Mealy.run_cons, step_lldLine (unitFrame_names n) isNumber_one, Mealy.run_cons,
    Acc.step_lld hlld hlen, decide_eq_false hf.2.1, Mealy.run_cons, step_tmetaLine rfl, Mealy.run_cons,
    step_fieldLine sampleFrame_names.2 isNumber_one rfl, run_unitFrame n rfl]
  rfl

theorem disturbed_lld {S : Set Str} {t : Str} (ht : t ∈ S) (hf : Foreign (despace t))
    (hlld : Contains "lld".toList (despace t)) :
    ∃ frames ms, Stream S frames ms ∧ ¬ Undisturbed D ids columnMap ms := by
  by_cases hlen : 4 ≤ (despace t).length
  · -- The name of the frame is longer than the name the message makes.
    obtain ⟨n, hn⟩ : ∃ n, n = ((despace t).drop 4).length + 1 := ⟨_, rfl⟩
    obtain ⟨hstream, hmap⟩ := stream_insert ht hf [unitFrame (List.replicate n 'a'), unitFrame (List.replicate n 'a')]
      [lldLine (List.replicate n 'a', "1".toList)]
      ("tmeta:".toList :: fieldLine ("time".toList, "1".toList) :: (unitFrame (List.replicate n 'a')).lines) rfl
      (unitFrames_spaceless n)
    refine ⟨_, _, hstream, fun hund => ?_⟩
    have hrows := ((undisturbed_iff_acc _).mp hund).2
    rw [filter_stream hstream, hmap, events_unitFrames, List.singleton_append,
      events_foreign_lld D.atof ids n hf hlld hlen] at hrows
    have hfield : fieldOf ((despace t).drop 4) = (despace t).drop 4 :=
      fieldOf_of_not_mem fun h => hf.2.2 (List.mem_of_mem_drop h)
    have hne : parenthesize ((despace t).drop 4) ≠ parenthesize (List.replicate n 'a') := by
      intro h
      have hlength := congrArg List.length h
      rw [length_parenthesize, length_parenthesize, List.length_replicate] at hlength
      omega
    have hcolumns := congrArg (List.map fun i => i.columns.length) hrows
    simp only [storedRows, View.insert, List.filterMap_cons, List.filterMap_nil, List.map_cons, List.map_nil,
      List.length_map, hfield, KeyMap.put, if_neg hne] at hcolumns
    split at hcolumns <;> simp at hcolumns
  · obtain ⟨hstream, hmap⟩ := stream_insert ht hf [] [] [] rfl (by simp)
    refine ⟨_, _, hstream, fun hund => ?_⟩
    have hpub := ((undisturbed_iff_acc _).mp hund).1
    rw [hmap, List.nil_append, eq_lld hlld hlen, events_lld] at hpub
    exact hpub _ (List.mem_singleton_self _)

/-- A message `time` after the fields of a frame becomes its time. -/
theorem events_foreign_time (atof : Str → ν) (ids : Ids) (n : Nat) :
    Acc.events atof ids ((unitFrame (List.replicate n 'a')).lines ++ "time".toList ::
        (unitFrame (List.replicate n 'a')).lines) =
      [.published {
        tmeta := [("time".toList, atof "time".toList)]
        lld := [(parenthesize (List.replicate n 'a'), atof "1".toList)] }] := by
  have hlld : ¬ Contains "lld".toList "time".toList := by decide
  rw [Acc.events, Mealy.run_append, run_frame (unitFrame_wellFormed n), Mealy.run_cons, Acc.step, if_neg hlld,
    run_unitFrame n rfl]
  rfl

theorem disturbed_time (hD : D.num (D.atof "1".toList) ≠ D.num (D.atof "time".toList)) {S : Set Str} {t : Str}
    (ht : t ∈ S) (hf : Foreign (despace t)) (htime : despace t = "time".toList) :
    ∃ frames ms, Stream S frames ms ∧ ¬ Undisturbed D ids columnMap ms := by
  obtain ⟨hstream, hmap⟩ := stream_insert ht hf [unitFrame (List.replicate 1 'a'), unitFrame (List.replicate 1 'a')]
    (unitFrame (List.replicate 1 'a')).lines (unitFrame (List.replicate 1 'a')).lines (by simp)
    (unitFrames_spaceless 1)
  refine ⟨_, _, hstream, fun hund => ?_⟩
  have hrows := ((undisturbed_iff_acc _).mp hund).2
  rw [filter_stream hstream, hmap, htime, events_unitFrames, events_foreign_time] at hrows
  have htimes := congrArg (List.map Insert.time) hrows
  simp only [storedRows, View.insert, View.timeJson, List.filterMap_cons, List.filterMap_nil, List.map_cons,
    List.map_nil, List.lookup_cons_self, Json.dump_num, List.cons.injEq, and_true] at htimes
  exact hD htimes.symm

/-- **Where messages may stand.** Messages that do no harm where they stand in a
stream leave it undisturbed. -/
theorem undisturbed_of_places {ms : List LogMessage}
    (h : ∀ before temp after, (ms.map fun m => despace m.text) = before ++ temp :: after → Foreign temp →
      HarmlessAfter before temp) : Undisturbed D ids columnMap ms := by
  have hrun := @run_sameRow _ D.atof ids (ms.map fun m => despace m.text) [] {} ⟨.refl _, rfl⟩ h
  exact (undisturbed_iff_acc ms).mpr ⟨isPublished_of_sameRow hrun, storedRows_eq hrun⟩

/-- **Which messages may stand anywhere.** The messages of `S` leave every
stream of frames undisturbed, at any positions, exactly when none of them
contains `lld` and none is `time`. -/
theorem undisturbed_iff (hD : D.num (D.atof "1".toList) ≠ D.num (D.atof "time".toList)) {S : Set Str}
    (hS : ∀ t ∈ S, Foreign (despace t)) :
    (∀ frames ms, Stream S frames ms → Undisturbed D ids columnMap ms) ↔ ∀ t ∈ S, Harmless (despace t) := by
  refine ⟨?_, ?_⟩
  · intro h t ht
    by_contra hbad
    obtain ⟨frames, ms, hstream, hdist⟩ : ∃ frames ms, Stream S frames ms ∧ ¬ Undisturbed D ids columnMap ms := by
      by_cases hlld : Contains "lld".toList (despace t)
      · exact disturbed_lld ht (hS t ht) hlld
      · exact disturbed_time hD ht (hS t ht) (by
          by_contra hne
          exact hbad ⟨hlld, hne⟩)
    exact hdist (h frames ms hstream)
  · intro h frames ms hstream
    refine undisturbed_of_places fun before temp after hsplit hf => ?_
    have htemp : temp ∈ ms.map fun m => despace m.text := by
      rw [hsplit]
      simp
    obtain ⟨m, hm, rfl⟩ := List.mem_map.mp htemp
    obtain ⟨hlld, htime⟩ := h m.text (hstream.foreign m hm hf)
    exact ⟨hlld, fun _ => htime⟩

end Disturb

theorem undisturbed_iff_starting :
    (∀ frames ms, Stream {"(MSG) starting".toList} frames ms →
      Undisturbed DecimalPrinter.allDigits.doubles ⟨"P".toList, "T".toList, "E".toList⟩ [] ms) ↔
    ∀ t ∈ ({"(MSG) starting".toList} : Set Str), Harmless (despace t) :=
  undisturbed_iff (by decide +kernel) fun t ht => by
    rw [Set.mem_singleton_iff.mp ht]
    decide +kernel

/-- Two frames, and a message about a file whose name has `lld` in it. -/
def disturbedLog : List LogMessage :=
  messages ["lld.mfcc[1]=1".toList, "(MSG) reading my_lld.conf".toList, "tmeta:".toList, "time=1".toList,
    "lld.mfcc[1]=1".toList, "tmeta:".toList, "time=1".toList]

/-- The message becomes a feature of the first row. -/
theorem reading_lld_disturbs : ¬ ∀ (D : Doubles Decimal) (ids : Ids) (columnMap : ColumnMap) (S : Set Str)
    (frames : List Frame) (ms : List LogMessage), (∀ t ∈ S, Foreign (despace t)) → Stream S frames ms →
      Undisturbed D ids columnMap ms := by
  intro h
  have hstream : Stream {"(MSG) reading my_lld.conf".toList}
      [sampleFrame "1".toList "1".toList, sampleFrame "1".toList "1".toList] disturbedLog := by
    refine ⟨by decide +kernel, fun m hm hf => ?_⟩
    have hcases : ∀ m ∈ disturbedLog, Foreign (despace m.text) → m.text = "(MSG) reading my_lld.conf".toList := by
      decide +kernel
    exact hcases m hm hf
  have hund := h DecimalPrinter.allDigits.doubles ⟨"P".toList, "T".toList, "E".toList⟩ [] _ _ _ (fun t ht => by
    rw [Set.mem_singleton_iff.mp ht]
    decide +kernel) hstream
  exact absurd hund.2 (by decide +kernel)

end SpeechAnalyzer
