/-
Which messages carry the ids a processor is built with. `ProcessOpensmileLog`
publishes first and fills in the ids after, into the message it keeps: the
first message it publishes carries none, every later one does.
-/
import SpeechAnalyzer.Accumulator
import SpeechAnalyzer.Lib.Decimal

namespace SpeechAnalyzer

open Lib

variable {ν : Type}

/-- The message names the three ids. -/
def Carries (ids : Ids) (m : Json ν) : Prop :=
  Json.path ["data".toList, "participant_id".toList] m = .str ids.participantId ∧
  Json.path ["msg".toList, "trial_id".toList] m = .str ids.trialId ∧
  Json.path ["msg".toList, "experiment_id".toList] m = .str ids.experimentId

/-- No id of the row is null. -/
def Insert.Attributed (i : Insert) : Prop :=
  i.participant ≠ "null".toList ∧ i.trialId ≠ "null".toList ∧ i.experimentId ≠ "null".toList

/-- A publish that hands on an attributed message and stores an attributed row. -/
def Event.Attributed (ids : Ids) : Event ν → Prop
  | .published m i => Carries ids m ∧ ∀ x ∈ i, x.Attributed
  | .thrown _ => True

def AccEvent.Attributed (ids : Ids) : AccEvent ν → Prop
  | .published v => v.ids = some ids
  | .thrown _ => True

theorem carries_iff {m : Json ν} {v : View ν} (h : Represents m v) (ids : Ids) :
    Carries ids m ↔ v.ids = some ids := by
  rw [Carries, h.participantId, h.trialId, h.experimentId]
  simp only [View.idJson]
  cases v.ids with
  | none => simp
  | some ids' =>
    obtain ⟨p, t, e⟩ := ids'
    obtain ⟨p', t', e'⟩ := ids
    simp

theorem dump_str_ne_null (P : Json.Printer ν) (s : Str) : (Json.str s).dump P ≠ "null".toList := by
  intro h
  have hhead := congrArg List.head? h
  simp [Json.dump_str, Json.Escape.quoted] at hhead

theorem insert_attributed {D : Doubles ν} {columnMap : ColumnMap} {v : View ν} {ids : Ids}
    (h : v.ids = some ids) : (v.insert D columnMap).Attributed := by
  simp only [Insert.Attributed, View.insert, View.idJson, h]
  exact ⟨dump_str_ne_null _ _, dump_str_ne_null _ _, dump_str_ne_null _ _⟩

theorem attributed_iff {D : Doubles ν} {columnMap : ColumnMap} (ids : Ids) {e : Event ν} {e' : AccEvent ν}
    (h : EventRel D columnMap e e') : e.Attributed ids ↔ e'.Attributed ids := by
  cases e with
  | published m i =>
    cases e' with
    | published v =>
      obtain ⟨hrepr, rfl⟩ := h
      simp only [Event.Attributed, AccEvent.Attributed, carries_iff hrepr, Option.mem_some_iff, forall_eq',
        and_iff_left_iff_imp]
      exact insert_attributed
    | thrown _ => exact h.elim
  | thrown _ =>
    cases e' with
    | published _ => exact h.elim
    | thrown _ => exact Iff.rfl

/-- A line with `lld` after a line with `tmeta:` publishes; `NeverPublishes`
says there is no such pair. -/
def NeverPublishes (temps : List Str) : Prop :=
  temps.Pairwise fun x y => Contains "tmeta:".toList x → ¬ Contains "lld".toList y

/-- A line that does not publish leaves the ids alone and sets the flag by itself. -/
theorem Acc.step_silent (atof : Str → ν) (ids : Ids) {a : Acc ν} {temp : Str}
    (h : Contains "lld".toList temp → a.tmeta = false) :
    (a.step atof ids temp).1.view.ids = a.view.ids ∧
    (a.step atof ids temp).1.tmeta = (a.tmeta || decide (Contains "tmeta:".toList temp)) ∧
    ∀ e ∈ (a.step atof ids temp).2, e.Attributed ids := by
  rw [Acc.step]
  by_cases hlld : Contains "lld".toList temp
  · rw [if_pos hlld, h hlld]
    by_cases hlen : 4 ≤ temp.length
    · rw [if_pos hlen]
      exact ⟨rfl, (Bool.false_or _).symm, by simp only [Bool.false_eq_true, if_false, List.not_mem_nil,
        false_imp_iff, implies_true]⟩
    · have htm : ¬ Contains "tmeta:".toList temp := fun hc => hlen (le_trans (by decide) hc.length_le)
      rw [if_neg hlen, decide_eq_false htm]
      refine ⟨rfl, rfl, fun e he => ?_⟩
      rw [List.mem_singleton.mp he]
      trivial
  · rw [if_neg hlld]
    refine ⟨?_, rfl, by simp only [List.not_mem_nil, false_imp_iff, implies_true]⟩
    split <;> rfl

/-- While no ids are filled in, all publishes are attributed only if there are none. -/
theorem Acc.attributed_iff (atof : Str → ν) (ids : Ids) : ∀ (temps : List Str) (a : Acc ν), a.view.ids = none →
    ((∀ e ∈ (Mealy.run (Acc.step atof ids) a temps).2, e.Attributed ids) ↔
      (a.tmeta = true → ∀ y ∈ temps, ¬ Contains "lld".toList y) ∧ NeverPublishes temps)
  | [], a, _ => by simp [NeverPublishes]
  | temp :: temps, a, hids => by
    rw [Mealy.run_cons, List.forall_mem_append, NeverPublishes, List.pairwise_cons, List.forall_mem_cons]
    by_cases hpub : Contains "lld".toList temp ∧ a.tmeta = true
    · -- This line publishes a view without ids.
      obtain ⟨hlld, htm⟩ := hpub
      have hmem : AccEvent.published a.view ∈ (a.step atof ids temp).2 := by
        rw [Acc.step, if_pos hlld]
        by_cases hlen : 4 ≤ temp.length <;> simp [hlen, htm]
      refine ⟨?_, ?_⟩
      · intro hall
        have hview : a.view.ids = some ids := hall.1 _ hmem
        rw [hids] at hview
        exact absurd hview (by simp)
      · intro hall
        exact absurd hlld (hall.1 htm).1
    · have hquiet : Contains "lld".toList temp → a.tmeta = false := fun hlld =>
        Bool.eq_false_iff.mpr fun htm => hpub ⟨hlld, htm⟩
      obtain ⟨hids', htm', hout⟩ := Acc.step_silent atof ids hquiet
      rw [Acc.attributed_iff atof ids temps _ (hids'.trans hids), htm', Bool.or_eq_true, decide_eq_true_eq]
      refine ⟨?_, ?_⟩
      · intro hparts
        obtain ⟨-, hafter, hrest⟩ := hparts
        exact ⟨fun htm => ⟨fun hlld => hpub ⟨hlld, htm⟩, hafter (.inl htm)⟩,
          fun y hy hc => hafter (.inr hc) y hy, hrest⟩
      · intro hparts
        obtain ⟨hbefore, hafter, hrest⟩ := hparts
        refine ⟨hout, ?_, hrest⟩
        rintro (htm | hc) y hy
        · exact (hbefore htm).2 y hy
        · exact hafter y hy hc

/-- **Every publish is attributed exactly when nothing is published at all**:
the first message of a processor goes out before its ids are filled in, and its
row has null for all three. -/
theorem published_attributed_iff (D : Doubles ν) (ids : Ids) (columnMap : ColumnMap) (ms : List LogMessage) :
    (∀ e ∈ Processor.events D ids.participantId ids.trialId ids.experimentId columnMap ms, e.Attributed ids) ↔
      NeverPublishes (ms.map fun m => despace m.text) := by
  rw [Mealy.forall_mem_iff (fun _ _ h => attributed_iff ids h) (events_sim D ids columnMap ms), Acc.events,
    Acc.attributed_iff D.atof ids _ {} rfl]
  simp

/-- Two frames of one feature. -/
def twoFrames : List LogMessage :=
  ["lld.a = 1".toList, "tmeta:".toList, "time = 0".toList, "lld.a = 2".toList].map fun text =>
    { text, headerTime := [], msgTime := [] }

/-- The participant of the row a publish stores. -/
def Event.participant : Event ν → Option Str
  | .published _ i => i.map Insert.participant
  | .thrown _ => none

/-- The first of two frames goes out without its ids. -/
theorem first_frame_unattributed : ¬ ∀ (D : Doubles Decimal) (ids : Ids) (columnMap : ColumnMap)
    (ms : List LogMessage), ∀ e ∈ Processor.events D ids.participantId ids.trialId ids.experimentId columnMap ms,
      e.Attributed ids := by
  intro h
  have hevents := h DecimalPrinter.allDigits.doubles ⟨"P".toList, "T".toList, "E".toList⟩ [] twoFrames
  have hnull : "null".toList ∈ (Processor.events DecimalPrinter.allDigits.doubles "P".toList "T".toList
      "E".toList [] twoFrames).filterMap Event.participant := by
    decide +kernel
  obtain ⟨e, he, hx⟩ := List.mem_filterMap.mp hnull
  have hattr := hevents e he
  cases e with
  | thrown _ => cases hx
  | published m i =>
    obtain ⟨x, rfl, hnull⟩ := Option.map_eq_some_iff.mp hx
    exact (hattr.2 x rfl).1 hnull

end SpeechAnalyzer
