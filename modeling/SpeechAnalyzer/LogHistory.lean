/-
What a processor has made of a log, read off the log itself: the last number
printed for each feature, the last one for each field of a frame, and whether
anything was published before.

`ProcessOpensmileLog` keeps all of this in one JSON message and one flag; that
after any log they are what the log says (`run_view`) gives the INSERT of every
call in closed form (`events_of_call`).
-/
import SpeechAnalyzer.Attribution
import SpeechAnalyzer.ForeignLines

namespace SpeechAnalyzer

open Lib

variable {ν : Type}

instance (temps : List Str) : Decidable (NeverPublishes temps) := inferInstanceAs (Decidable (List.Pairwise _ temps))

/-- The feature a line prints. -/
def featureOf (atof : Str → ν) (temp : Str) : Option (Str × ν) :=
  if Contains "lld".toList temp ∧ 4 ≤ temp.length then
    some (parenthesize (fieldOf (temp.drop 4)), atof (valueOf (temp.drop 4)))
  else none

/-- The field the `n`-th line prints. -/
def fieldAt (atof : Str → ν) (temps : List Str) (n : ℕ) : Option (Str × ν) :=
  match temps[n]? with
  | some temp =>
    if InTmeta (temps.take n) ∧ ¬ Contains "lld".toList temp then some (fieldOf temp, atof (valueOf temp)) else none
  | none => none

/-- The last value of each feature and of each field, and the ids after a publish. -/
def logView (atof : Str → ν) (ids : Ids) (temps : List Str) : View ν where
  tmeta := KeyMap.putAll ((List.range temps.length).filterMap (fieldAt atof temps)) []
  lld := KeyMap.putAll (temps.filterMap (featureOf atof)) []
  ids := if NeverPublishes temps then none else some ids

/-! ## One line more -/

theorem neverPublishes_concat {temps : List Str} {temp : Str} : NeverPublishes (temps ++ [temp]) ↔
    NeverPublishes temps ∧ ∀ y ∈ temps, Contains "tmeta:".toList y → ¬ Contains "lld".toList temp := by
  simp [NeverPublishes, List.pairwise_append]

/-- Before the first publish the flag tells whether a line had `tmeta:`. -/
theorem NeverPublishes.inTmeta_iff : ∀ {temps : List Str}, NeverPublishes temps →
    (InTmeta temps ↔ ∃ y ∈ temps, Contains "tmeta:".toList y)
  | [], _ => by simp [InTmeta]
  | y :: temps, h => by
    obtain ⟨hy, htemps⟩ := List.pairwise_cons.mp h
    have ih := NeverPublishes.inTmeta_iff htemps
    simp only [InTmeta, ih, List.mem_cons, exists_eq_or_imp]
    refine ⟨?_, ?_⟩
    · intro hcases
      rcases hcases with hrest | ⟨hflag, -⟩
      · exact .inr hrest
      · exact .inl hflag
    · intro hcases
      rcases hcases with hflag | hrest
      · exact .inr ⟨hflag, fun z hz => hy z hz hflag⟩
      · exact .inl hrest

/-- A line is the first to publish exactly when it has `lld` in the `tmeta` state. -/
theorem neverPublishes_concat_iff {temps : List Str} {temp : Str} : NeverPublishes (temps ++ [temp]) ↔
    NeverPublishes temps ∧ ¬ (Contains "lld".toList temp ∧ InTmeta temps) := by
  rw [neverPublishes_concat]
  refine and_congr_right fun h => ?_
  rw [h.inTmeta_iff]
  refine ⟨?_, ?_⟩
  · intro hquiet hpub
    obtain ⟨hlld, y, hy, hflag⟩ := hpub
    exact hquiet y hy hflag hlld
  · exact fun hquiet y hy hflag hlld => hquiet ⟨hlld, y, hy, hflag⟩

theorem putAll_concat {V : Type} (kvs l : List (Str × V)) (p : Str × V) :
    KeyMap.putAll (kvs ++ [p]) l = KeyMap.put p.1 p.2 (KeyMap.putAll kvs l) := by
  rw [KeyMap.putAll, List.foldl_append]
  rfl

theorem fieldAt_concat (atof : Str → ν) (temps : List Str) (temp : Str) :
    (List.range (temps ++ [temp]).length).filterMap (fieldAt atof (temps ++ [temp])) =
      (List.range temps.length).filterMap (fieldAt atof temps) ++
        if InTmeta temps ∧ ¬ Contains "lld".toList temp then [(fieldOf temp, atof (valueOf temp))] else [] := by
  have hbefore : ∀ n ∈ List.range temps.length, fieldAt atof (temps ++ [temp]) n = fieldAt atof temps n := by
    intro n hn
    have hn : n < temps.length := List.mem_range.mp hn
    rw [fieldAt, fieldAt, List.getElem?_append_left hn, List.take_append_of_le_length hn.le]
  have hlast : fieldAt atof (temps ++ [temp]) temps.length =
      if InTmeta temps ∧ ¬ Contains "lld".toList temp then some (fieldOf temp, atof (valueOf temp)) else none := by
    rw [fieldAt, List.getElem?_concat_length, List.take_left]
  rw [List.length_append, List.length_singleton, List.range_succ, List.filterMap_append,
    List.filterMap_congr hbefore, List.filterMap_cons, hlast]
  by_cases hfield : InTmeta temps ∧ ¬ Contains "lld".toList temp
  · rw [if_pos hfield, if_pos hfield]
    rfl
  · rw [if_neg hfield, if_neg hfield]
    rfl

/-! ## The state after a log -/

section State

variable (atof : Str → ν) (ids : Ids)

/-- What a publish leaves as the ids. -/
theorem ids_concat (temps : List Str) (temp : Str) :
    (logView atof ids (temps ++ [temp])).ids =
      if Contains "lld".toList temp ∧ InTmeta temps then some ids else (logView atof ids temps).ids := by
  simp only [logView]
  by_cases hpub : Contains "lld".toList temp ∧ InTmeta temps
  · rw [if_pos hpub, if_neg fun h => (neverPublishes_concat_iff.mp h).2 hpub]
  · rw [if_neg hpub]
    refine if_congr ?_ rfl rfl
    rw [neverPublishes_concat_iff, and_iff_left hpub]

theorem lld_concat (temps : List Str) (temp : Str) :
    (logView atof ids (temps ++ [temp])).lld =
      match featureOf atof temp with
      | some p => KeyMap.put p.1 p.2 (logView atof ids temps).lld
      | none => (logView atof ids temps).lld := by
  simp only [logView, List.filterMap_append]
  cases hfeature : featureOf atof temp with
  | none => simp [hfeature]
  | some p => rw [List.filterMap_cons_some hfeature, List.filterMap_nil, putAll_concat]

theorem tmeta_concat (temps : List Str) (temp : Str) :
    (logView atof ids (temps ++ [temp])).tmeta =
      if InTmeta temps ∧ ¬ Contains "lld".toList temp then
        KeyMap.put (fieldOf temp) (atof (valueOf temp)) (logView atof ids temps).tmeta
      else (logView atof ids temps).tmeta := by
  simp only [logView, fieldAt_concat]
  by_cases hfield : InTmeta temps ∧ ¬ Contains "lld".toList temp
  · rw [if_pos hfield, if_pos hfield, putAll_concat]
  · rw [if_neg hfield, if_neg hfield, List.append_nil]

/-- The view after a line, from the view before. -/
theorem logView_concat (temps : List Str) (temp : Str) : logView atof ids (temps ++ [temp]) = View.mk
    (if InTmeta temps ∧ ¬ Contains "lld".toList temp then
      KeyMap.put (fieldOf temp) (atof (valueOf temp)) (logView atof ids temps).tmeta
    else (logView atof ids temps).tmeta)
    (match featureOf atof temp with
    | some p => KeyMap.put p.1 p.2 (logView atof ids temps).lld
    | none => (logView atof ids temps).lld)
    (if Contains "lld".toList temp ∧ InTmeta temps then some ids else (logView atof ids temps).ids) := by
  rw [← ids_concat, ← lld_concat, ← tmeta_concat]

/-- A log and the accumulator after it: the induction is on the last line. -/
theorem run_view (temps : List Str) : (Mealy.run (Acc.step atof ids) {} temps).1 =
    { view := logView atof ids temps, tmeta := decide (InTmeta temps) } := by
  induction temps using List.reverseRecOn with
  | nil => rfl
  | append_singleton temps temp ih =>
    rw [Mealy.run_concat, ih, logView_concat, Acc.step]
    simp only [inTmeta_concat, featureOf]
    generalize logView atof ids temps = v
    by_cases hlld : Contains "lld".toList temp
    · by_cases hlen : 4 ≤ temp.length
      · by_cases hflag : InTmeta temps <;>
          simp only [hlld, hlen, hflag, decide_true, decide_false, Bool.false_eq_true, if_true, if_false, and_true,
            and_false, not_true, or_false]
      · have hquiet : ¬ Contains "tmeta:".toList temp := fun hc => hlen (le_trans (by decide) hc.length_le)
        by_cases hflag : InTmeta temps <;>
          simp only [hlld, hlen, hflag, hquiet, decide_true, decide_false, Bool.false_eq_true, if_true, if_false,
            and_true, and_false, not_true, or_false]
    · by_cases hflag : InTmeta temps <;>
        simp only [hlld, hflag, decide_true, decide_false, Bool.false_eq_true, if_true, if_false, and_true, and_false,
          false_and, not_false_eq_true, or_true, or_false, Bool.true_or, Bool.false_or]

end State

/-! ## The events of a call -/

/-- A processor as its constructor leaves it. -/
def Ids.processor (ids : Ids) (columnMap : ColumnMap) : Processor ν where
  participantId := ids.participantId
  trialId := ids.trialId
  experimentId := ids.experimentId
  columnMap := columnMap

theorem Acc.step_events (atof : Str → ν) (ids : Ids) (v : View ν) (flag : Bool) (temp : Str) :
    (Acc.step atof ids { view := v, tmeta := flag } temp).2 =
      (if Contains "lld".toList temp ∧ flag then [.published v] else []) ++
        if temp = "lld".toList then [.thrown .outOfRange] else [] := by
  rw [Acc.step]
  by_cases hlld : Contains "lld".toList temp
  · by_cases hlen : 4 ≤ temp.length
    · have hne : temp ≠ "lld".toList := fun h => by
        rw [h] at hlen
        exact absurd hlen (by decide)
      rw [if_pos hlld, if_pos hlen, if_neg hne, List.append_nil]
      simp only [hlld, true_and]
    · rw [if_pos hlld, if_neg hlen, if_pos (eq_lld hlld hlen)]
      simp only [hlld, true_and]
  · have hne : temp ≠ "lld".toList := fun h => hlld (h ▸ List.infix_refl _)
    rw [if_neg hlld, if_neg hne, if_neg (not_and_of_not_left _ hlld), List.append_nil]

section Events

variable {D : Doubles ν} {columnMap : ColumnMap} {v : View ν} {m : Json ν} {es : List (Event ν)}

theorem eventRel_published {e : Event ν} (h : EventRel D columnMap e (.published v)) :
    ∃ m, Represents m v ∧ e = .published m (some (v.insert D columnMap)) := by
  cases e with
  | published m i =>
    obtain ⟨hrepr, rfl⟩ := h
    exact ⟨m, hrepr, rfl⟩
  | thrown _ => exact h.elim

theorem eventRel_thrown {e : Event ν} {x : Exn} (h : EventRel D columnMap e (.thrown x)) : e = .thrown x := by
  cases e with
  | published _ _ => exact h.elim
  | thrown _ => exact congrArg _ h

/-- The events of a call, from those of the accumulator. -/
theorem events_of_forall₂ {p q : Prop} [Decidable p] [Decidable q] {x : Exn} (hm : Represents m v)
    (h : List.Forall₂ (EventRel D columnMap) es ((if p then [.published v] else []) ++ if q then [.thrown x] else [])) :
    ∃ message, Represents message v ∧ es =
      (if p then [.published message (some (v.insert D columnMap))] else []) ++ if q then [.thrown x] else [] := by
  have hthrown {es : List (Event ν)}
      (h : List.Forall₂ (EventRel D columnMap) es (if q then [.thrown x] else [])) :
      es = if q then [.thrown x] else [] := by
    by_cases hq : q
    · rw [if_pos hq] at h ⊢
      obtain ⟨e, es', he, hrest, rfl⟩ := List.forall₂_cons_right_iff.mp h
      rw [List.forall₂_nil_right_iff.mp hrest, eventRel_thrown he]
    · rw [if_neg hq] at h ⊢
      exact List.forall₂_nil_right_iff.mp h
  by_cases hp : p
  · rw [if_pos hp] at h
    obtain ⟨e, es', he, hrest, rfl⟩ := List.forall₂_cons_right_iff.mp h
    obtain ⟨message, hrepr, rfl⟩ := eventRel_published he
    refine ⟨message, hrepr, ?_⟩
    rw [if_pos hp, hthrown hrest]
    rfl
  · rw [if_neg hp] at h
    exact ⟨m, hm, by rw [if_neg hp, hthrown h, List.nil_append]⟩

/-- The events of a call, from the view and the flag before it. -/
theorem Sim.step_events {ids : Ids} {s : Processor ν} {flag : Bool}
    (h : Sim columnMap ids s { view := v, tmeta := flag }) (m : LogMessage) :
    ∃ message, Represents message v ∧ (Processor.step D s m).2 =
      (if Contains "lld".toList (despace m.text) ∧ flag then
        [.published message (some (v.insert D columnMap))] else []) ++
        if despace m.text = "lld".toList then [.thrown .outOfRange] else [] := by
  have hevents := (step_sim (D := D) m h).2
  rw [Acc.step_events] at hevents
  exact events_of_forall₂ h.message hevents

end Events

/-- The processor after a log, beside the log. -/
theorem sim_log (D : Doubles ν) (ids : Ids) (columnMap : ColumnMap) (ms : List LogMessage) :
    Sim columnMap ids (Mealy.run (Processor.step D) (ids.processor columnMap) ms).1
      { view := logView D.atof ids (ms.map fun m => despace m.text)
        tmeta := decide (InTmeta (ms.map fun m => despace m.text)) } := by
  have hsim := (Mealy.run_sim (fun _ _ m h => step_sim (D := D) m h) ms (Sim.init columnMap ids)).1
  rw [← run_view, Mealy.run_map]
  exact hsim

/-- **Every call, from the log alone.** After any log, the next message throws
when it is `lld`, and publishes when it has `lld` and the log is in the `tmeta`
state; what it publishes holds the last values of the log, and so does the INSERT. -/
theorem events_of_call (D : Doubles ν) (ids : Ids) (columnMap : ColumnMap) (ms : List LogMessage) (m : LogMessage) :
    ∃ message, Represents message (logView D.atof ids (ms.map fun m => despace m.text)) ∧
      (Processor.step D (Mealy.run (Processor.step D) (ids.processor columnMap) ms).1 m).2 =
        (if Contains "lld".toList (despace m.text) ∧ InTmeta (ms.map fun m => despace m.text) then
          [.published message (some ((logView D.atof ids (ms.map fun m => despace m.text)).insert D columnMap))]
        else []) ++
        if despace m.text = "lld".toList then [.thrown .outOfRange] else [] := by
  obtain ⟨message, hrepr, hevents⟩ := (sim_log D ids columnMap ms).step_events (D := D) m
  refine ⟨message, hrepr, ?_⟩
  simpa only [decide_eq_true_eq] using hevents

end SpeechAnalyzer
