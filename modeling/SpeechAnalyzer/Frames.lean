/-
What openSMILE prints for a frame, as it reaches `ProcessOpensmileLog` one line
at a time: `lld.<name> = <number>` lines, a line `tmeta:`, and
`<field> = <number>` lines.

The message is never cleared, so a frame replaces what the one before it left,
name by name; the frame is published by the first line of the next
(`frame_pairing`).
-/
import SpeechAnalyzer.Accumulator
import SpeechAnalyzer.Lib.Decimal

namespace SpeechAnalyzer

open Lib

variable {ν : Type}

/-- One frame: names and number texts, without their spaces. -/
structure Frame where
  lld : List (Str × Str)
  fields : List (Str × Str)

def lldLine (p : Str × Str) : Str := "lld.".toList ++ p.1 ++ '=' :: p.2

def fieldLine (p : Str × Str) : Str := p.1 ++ '=' :: p.2

/-- The lines of a frame without their spaces. -/
def Frame.lines (f : Frame) : List Str := f.lld.map lldLine ++ "tmeta:".toList :: f.fields.map fieldLine

/-- The letters a printed number is made of, `inf` and `nan` among them. -/
def IsNumber (s : Str) : Prop := ∀ c ∈ s, c.isDigit = true ∨ c ∈ "+-.eEinfa".toList

structure LldName (name : Str) : Prop where
  equals : '=' ∉ name
  opening : '(' ∉ name
  closing : ')' ∉ name
  tmeta : ¬ Contains "tmeta:".toList name

structure FieldName (name : Str) : Prop where
  equals : '=' ∉ name
  lld : ¬ Contains "lld".toList name
  tmeta : ¬ Contains "tmeta:".toList name

structure Frame.WellFormed (f : Frame) : Prop where
  lld_ne : f.lld ≠ []
  fields_ne : f.fields ≠ []
  lld : ∀ p ∈ f.lld, LldName p.1 ∧ IsNumber p.2
  fields : ∀ p ∈ f.fields, FieldName p.1 ∧ IsNumber p.2
  lld_nodup : (f.lld.map Prod.fst).Nodup
  fields_nodup : (f.fields.map Prod.fst).Nodup

structure Frame.SameNames (f g : Frame) : Prop where
  lld : ∀ name, name ∈ f.lld.map Prod.fst ↔ name ∈ g.lld.map Prod.fst
  fields : ∀ name, name ∈ f.fields.map Prod.fst ↔ name ∈ g.fields.map Prod.fst

/-- The features of a frame, as a message shows them. -/
def Frame.features (atof : Str → ν) (f : Frame) : List (Str × ν) :=
  f.lld.map fun p => (parenthesize p.1, atof p.2)

/-- The fields of a frame, as a message shows them. -/
def Frame.tmeta (atof : Str → ν) (f : Frame) : List (Str × ν) := f.fields.map fun p => (p.1, atof p.2)

/-! ## Lines -/

/-- The spaces are gone, and the other characters are there in their order. -/
theorem despace_spec (text : Str) :
    (despace text).Sublist text ∧ ' ' ∉ despace text ∧ ∀ c, c ≠ ' ' → (despace text).count c = text.count c := by
  refine ⟨List.filter_sublist, by simp [despace], fun c hc => ?_⟩
  exact List.count_filter (by simpa using hc)

theorem idxOf?_append_cons {c : Char} {name num : Str} (h : c ∉ name) :
    (name ++ c :: num).idxOf? c = some name.length := by
  induction name with
  | nil => simp [List.idxOf?_cons]
  | cons d name ih =>
    obtain ⟨hd, hname⟩ := not_or.mp (fun he => h (List.mem_cons.mpr he))
    rw [List.cons_append, List.idxOf?_cons, if_neg (by simpa using Ne.symm hd), ih hname]
    rfl

theorem set_append_cons {α : Type} (l r : List α) (x y : α) : (l ++ x :: r).set l.length y = l ++ y :: r := by
  rw [List.set_append_right _ _ (Nat.le_refl _), Nat.sub_self, List.set_cons_zero]

/-- The key of a name with a pair of brackets has parentheses for them. -/
theorem parenthesize_brackets {before index after : Str} (hopening : '[' ∉ before) (hclosing : ']' ∉ before)
    (hindex : ']' ∉ index) : parenthesize (before ++ '[' :: (index ++ ']' :: after)) =
      before ++ '(' :: (index ++ ')' :: after) := by
  have hsplit (d e : Char) : before ++ d :: (index ++ e :: after) = (before ++ d :: index) ++ e :: after := by
    rw [List.append_assoc, List.cons_append]
  have hsecond : ']' ∉ before ++ '[' :: index := by
    simp only [List.mem_append, List.mem_cons, hclosing, hindex, Char.reduceEq, or_false, not_false_eq_true]
  have hclose : (before ++ '[' :: (index ++ ']' :: after)).idxOf? ']' = some (before ++ '(' :: index).length := by
    rw [hsplit, idxOf?_append_cons hsecond]
    simp
  rw [parenthesize, idxOf?_append_cons hopening, hclose]
  simp only
  rw [set_append_cons, hsplit, set_append_cons, ← hsplit]

/-- Any other name is its own key. -/
theorem parenthesize_eq_self {name : Str} (h : '[' ∉ name ∨ ']' ∉ name) : parenthesize name = name := by
  rw [parenthesize]
  split
  · next opening closing hopening hclosing =>
    rcases h with h | h
    · rw [List.idxOf?_eq_none_iff.mpr h] at hopening
      cases hopening
    · rw [List.idxOf?_eq_none_iff.mpr h] at hclosing
      cases hclosing
  · rfl

theorem fieldOf_line {name num : Str} (h : '=' ∉ name) : fieldOf (name ++ '=' :: num) = name := by
  rw [fieldOf, idxOf?_append_cons h]
  exact List.take_left

theorem valueOf_line {name num : Str} (h : '=' ∉ name) : valueOf (name ++ '=' :: num) = num := by
  rw [valueOf, idxOf?_append_cons h]
  simp [List.drop_append]

/-- A word is in a line exactly when it is in the name or the number. -/
theorem contains_line {word name num : Str} (h : '=' ∉ word) :
    Contains word (name ++ '=' :: num) ↔ Contains word name ∨ Contains word num :=
  infix_append_cons_iff h

theorem not_contains_of_not_mem {word temp : Str} {c : Char} (hw : c ∈ word) (ht : c ∉ temp) :
    ¬ Contains word temp := fun h => ht (List.IsInfix.subset h hw)

theorem IsNumber.not_contains {num word : Str} (h : IsNumber num) {c : Char} (hw : c ∈ word)
    (hc : ¬ (c.isDigit = true ∨ c ∈ "+-.eEinfa".toList)) : ¬ Contains word num :=
  not_contains_of_not_mem hw fun hmem => hc (h c hmem)

theorem lldLine_eq (p : Str × Str) : lldLine p = "lld".toList ++ '.' :: (p.1 ++ '=' :: p.2) :=
  List.append_assoc "lld.".toList p.1 ('=' :: p.2)

theorem lldLine_contains (p : Str × Str) : Contains "lld".toList (lldLine p) :=
  ⟨[], '.' :: (p.1 ++ '=' :: p.2), by rw [lldLine_eq, List.nil_append]⟩

theorem lldLine_not_tmeta {p : Str × Str} (hname : LldName p.1) (hnum : IsNumber p.2) :
    ¬ Contains "tmeta:".toList (lldLine p) := by
  rw [lldLine_eq, Contains, infix_append_cons_iff (by decide), infix_append_cons_iff (by decide)]
  intro hcases
  rcases hcases with h | h | h
  · exact absurd h (by decide)
  · exact hname.tmeta h
  · exact hnum.not_contains (c := ':') (by decide) (by decide) h

theorem fieldLine_not_lld {p : Str × Str} (hname : FieldName p.1) (hnum : IsNumber p.2) :
    ¬ Contains "lld".toList (fieldLine p) := by
  rw [fieldLine, contains_line (by decide)]
  intro hcases
  rcases hcases with h | h
  · exact hname.lld h
  · exact hnum.not_contains (c := 'l') (by decide) (by decide) h

/-- Parentheses back to brackets. -/
def unparenthesize (key : Str) : Str := key.map fun c => if c = '(' then '[' else if c = ')' then ']' else c

theorem unparenthesize_parenthesize {name : Str} (h : LldName name) :
    unparenthesize (parenthesize name) = name := by
  have hid : unparenthesize name = name := by
    refine (List.map_congr_left fun c hc => ?_).trans (List.map_id name)
    rw [if_neg (fun he : c = '(' => h.opening (he ▸ hc)), if_neg (fun he : c = ')' => h.closing (he ▸ hc))]
    rfl
  rw [parenthesize]
  split
  · next i j hi hj =>
    obtain ⟨hilt, hival, -⟩ := List.idxOf?_eq_some_iff.mp hi
    obtain ⟨hjlt, hjval, -⟩ := List.idxOf?_eq_some_iff.mp hj
    rw [unparenthesize] at hid ⊢
    rw [List.map_set, List.map_set, hid]
    simp only [if_true, Char.reduceEq, if_false]
    rw [← hival, List.set_getElem_self, ← hjval, List.set_getElem_self]
  · exact hid

/-! ## Steps -/

section Steps

variable {atof : Str → ν} {ids : Ids}

/-- What the first line of a block does with what has accumulated. -/
def Acc.handOn (a : Acc ν) : List (AccEvent ν) := if a.tmeta then [.published a.view] else []

/-- The view after a publish, if there was one. -/
def Acc.published (ids : Ids) (a : Acc ν) : View ν := if a.tmeta then { a.view with ids := some ids } else a.view

theorem step_lldLine {p : Str × Str} (hname : LldName p.1) (hnum : IsNumber p.2) (a : Acc ν) :
    a.step atof ids (lldLine p) =
      ({ view := { a.published ids with
          lld := KeyMap.put (parenthesize p.1) (atof p.2) (a.published ids).lld } }, a.handOn) := by
  have hdrop : (lldLine p).drop 4 = p.1 ++ '=' :: p.2 := by
    rw [lldLine_eq]
    rfl
  have hlen : 4 ≤ (lldLine p).length := by
    rw [lldLine_eq]
    simp
  rw [Acc.step, if_pos (lldLine_contains p), if_pos hlen, hdrop, fieldOf_line hname.equals,
    valueOf_line hname.equals, decide_eq_false (lldLine_not_tmeta hname hnum)]
  rfl

theorem step_tmetaLine {a : Acc ν} (h : a.tmeta = false) :
    a.step atof ids "tmeta:".toList = ({ a with tmeta := true }, []) := by
  rw [Acc.step, if_neg (by decide +kernel), h, decide_eq_true (by decide +kernel)]
  rfl

theorem step_fieldLine {p : Str × Str} (hname : FieldName p.1) (hnum : IsNumber p.2) {a : Acc ν}
    (h : a.tmeta = true) :
    a.step atof ids (fieldLine p) =
      ({ view := { a.view with tmeta := KeyMap.put p.1 (atof p.2) a.view.tmeta }, tmeta := true }, []) := by
  rw [Acc.step, if_neg (fieldLine_not_lld hname hnum), h, fieldLine, fieldOf_line hname.equals,
    valueOf_line hname.equals]
  rfl

/-! ## Blocks -/

theorem run_lldLines : ∀ {l : List (Str × Str)}, (∀ p ∈ l, LldName p.1 ∧ IsNumber p.2) → ∀ v : View ν,
    Mealy.run (Acc.step atof ids) { view := v } (l.map lldLine) =
      ({ view := { v with lld := KeyMap.putAll (l.map fun p => (parenthesize p.1, atof p.2)) v.lld } }, [])
  | [], _, _ => rfl
  | p :: l, h, v => by
    have hp := h p (by simp)
    have hl : ∀ p ∈ l, LldName p.1 ∧ IsNumber p.2 := fun p hp => h p (by simp [hp])
    rw [List.map_cons, Mealy.run_cons, step_lldLine hp.1 hp.2, run_lldLines hl]
    rfl

theorem run_fieldLines : ∀ {l : List (Str × Str)}, (∀ p ∈ l, FieldName p.1 ∧ IsNumber p.2) → ∀ v : View ν,
    Mealy.run (Acc.step atof ids) { view := v, tmeta := true } (l.map fieldLine) =
      ({ view := { v with tmeta := KeyMap.putAll (l.map fun p => (p.1, atof p.2)) v.tmeta }, tmeta := true }, [])
  | [], _, _ => rfl
  | p :: l, h, v => by
    have hp := h p (by simp)
    have hl : ∀ p ∈ l, FieldName p.1 ∧ IsNumber p.2 := fun p hp => h p (by simp [hp])
    rw [List.map_cons, Mealy.run_cons, step_fieldLine hp.1 hp.2 rfl, run_fieldLines hl]
    rfl

/-- A frame hands on what was there, and puts its own values over it. -/
theorem run_frame {f : Frame} (hf : f.WellFormed) (a : Acc ν) :
    Mealy.run (Acc.step atof ids) a f.lines =
      ({ view := {
          tmeta := KeyMap.putAll (f.tmeta atof) a.view.tmeta
          lld := KeyMap.putAll (f.features atof) a.view.lld
          ids := (a.published ids).ids }
         tmeta := true }, a.handOn) := by
  obtain ⟨p, l, hl⟩ := List.exists_cons_of_ne_nil hf.lld_ne
  have hp := hf.lld p (by simp [hl])
  have hrest : ∀ p ∈ l, LldName p.1 ∧ IsNumber p.2 := fun p hp => hf.lld p (by simp [hl, hp])
  have hview : (a.published ids).tmeta = a.view.tmeta ∧ (a.published ids).lld = a.view.lld := by
    rw [Acc.published]
    split <;> exact ⟨rfl, rfl⟩
  rw [Frame.lines, hl, List.map_cons, List.cons_append, Mealy.run_cons, step_lldLine hp.1 hp.2, Mealy.run_append,
    run_lldLines hrest, Mealy.run_cons, step_tmetaLine rfl, run_fieldLines hf.fields]
  simp only [List.append_nil, Frame.tmeta, Frame.features, hl, List.map_cons, hview]
  rfl

end Steps

/-! ## Runs -/

/-- The view holds the values of the frame, and no others. -/
structure View.Shows (atof : Str → ν) (v : View ν) (f : Frame) : Prop where
  tmeta_sorted : KeyMap.Sorted v.tmeta
  lld_sorted : KeyMap.Sorted v.lld
  tmeta : v.tmeta.Perm (f.tmeta atof)
  lld : v.lld.Perm (f.features atof)

def AccEvent.Shows (atof : Str → ν) : AccEvent ν → Frame → Prop
  | .published v, f => v.Shows atof f
  | .thrown _, _ => False

section Runs

variable {atof : Str → ν} {ids : Ids}

theorem Frame.WellFormed.features_nodup {f : Frame} (hf : f.WellFormed) :
    ((f.features atof).map Prod.fst).Nodup := by
  have hmap : (f.features atof).map Prod.fst = (f.lld.map Prod.fst).map parenthesize := by
    simp [Frame.features]
  rw [hmap]
  refine hf.lld_nodup.map_on fun a ha b hb hab => ?_
  obtain ⟨p, hp, rfl⟩ := List.mem_map.mp ha
  obtain ⟨q, hq, rfl⟩ := List.mem_map.mp hb
  rw [← unparenthesize_parenthesize (hf.lld p hp).1, hab, unparenthesize_parenthesize (hf.lld q hq).1]

theorem Frame.WellFormed.tmeta_nodup {f : Frame} (hf : f.WellFormed) :
    ((f.tmeta atof).map Prod.fst).Nodup := by
  simpa [Frame.tmeta, Function.comp_def] using hf.fields_nodup

/-- What a frame puts over names it has itself is the frame. -/
theorem shows_putAll {f : Frame} (hf : f.WellFormed) {v : View ν} (ht : KeyMap.Sorted v.tmeta)
    (hl : KeyMap.Sorted v.lld) (htsub : ∀ p ∈ v.tmeta, p.1 ∈ (f.tmeta atof).map Prod.fst)
    (hlsub : ∀ p ∈ v.lld, p.1 ∈ (f.features atof).map Prod.fst) (ids : Option Ids) :
    View.Shows atof { tmeta := KeyMap.putAll (f.tmeta atof) v.tmeta
                      lld := KeyMap.putAll (f.features atof) v.lld, ids } f :=
  ⟨ht.putAll, hl.putAll, KeyMap.putAll_perm hf.tmeta_nodup ht htsub, KeyMap.putAll_perm hf.features_nodup hl hlsub⟩

/-- A view of one frame has only names of the other. -/
theorem View.Shows.sub {v : View ν} {f g : Frame} (h : v.Shows atof f) (hsame : f.SameNames g) :
    (∀ p ∈ v.tmeta, p.1 ∈ (g.tmeta atof).map Prod.fst) ∧
    ∀ p ∈ v.lld, p.1 ∈ (g.features atof).map Prod.fst := by
  refine ⟨?_, ?_⟩
  · intro p hp
    obtain ⟨q, hq, rfl⟩ := List.mem_map.mp (h.tmeta.subset hp)
    obtain ⟨r, hr, hname⟩ := List.mem_map.mp ((hsame.fields q.1).mp (List.mem_map_of_mem hq))
    exact List.mem_map.mpr ⟨_, List.mem_map_of_mem hr, hname⟩
  · intro p hp
    obtain ⟨q, hq, rfl⟩ := List.mem_map.mp (h.lld.subset hp)
    obtain ⟨r, hr, hname⟩ := List.mem_map.mp ((hsame.lld q.1).mp (List.mem_map_of_mem hq))
    exact List.mem_map.mpr ⟨_, List.mem_map_of_mem hr, congrArg parenthesize hname⟩

/-- From a view of `f` on, each frame but the last is handed on. -/
theorem run_frames {v : View ν} : ∀ {frames : List Frame} {f : Frame}, v.Shows atof f →
    (∀ g ∈ f :: frames, g.WellFormed) → (∀ g ∈ f :: frames, ∀ h ∈ f :: frames, g.SameNames h) →
    List.Forall₂ (AccEvent.Shows atof)
      (Mealy.run (Acc.step atof ids) { view := v, tmeta := true } (frames.flatMap Frame.lines)).2
      (f :: frames).dropLast := by
  intro frames
  induction frames generalizing v with
  | nil => exact fun _ _ _ => .nil
  | cons g frames ih =>
    intro f hshows hwf hsame
    obtain ⟨htsub, hlsub⟩ := hshows.sub (hsame f (by simp) g (by simp))
    have hnext := shows_putAll (hwf g (by simp)) hshows.tmeta_sorted hshows.lld_sorted htsub hlsub (some ids)
    rw [List.flatMap_cons, Mealy.run_append, run_frame (hwf g (by simp)), List.dropLast_cons_cons]
    refine .cons hshows (ih hnext (fun h hh => hwf h ?_) fun h hh h' hh' => hsame h ?_ h' ?_)
    · exact List.mem_cons_of_mem _ hh
    · exact List.mem_cons_of_mem _ hh
    · exact List.mem_cons_of_mem _ hh'

theorem frames_shown (atof : Str → ν) (ids : Ids) {frames : List Frame} (hwf : ∀ f ∈ frames, f.WellFormed)
    (hsame : ∀ f ∈ frames, ∀ g ∈ frames, f.SameNames g) :
    List.Forall₂ (AccEvent.Shows atof) (Acc.events atof ids (frames.flatMap Frame.lines)) frames.dropLast := by
  cases frames with
  | nil => exact .nil
  | cons f frames =>
    have hshows : View.Shows atof _ f :=
      shows_putAll (hwf f (by simp)) (v := {}) .nil .nil (by simp) (by simp) none
    rw [Acc.events, List.flatMap_cons, Mealy.run_append, run_frame (hwf f (by simp))]
    exact run_frames hshows hwf hsame

end Runs

/-- A message that holds the fields and features of the frame, each name once
and under its own key, and nothing else in these two places. -/
structure Message.Shows (atof : Str → ν) (m : Json ν) (f : Frame) : Prop where
  tmeta : (Json.path ["data".toList, "tmeta".toList] m).fields.Perm
    (f.fields.map fun p => (p.1, .num (atof p.2)))
  lld : (Json.path ["data".toList, "features".toList, "lld".toList] m).fields.Perm
    (f.lld.map fun p => (parenthesize p.1, .num (atof p.2)))
  keys : ((Json.path ["data".toList, "features".toList, "lld".toList] m).fields.map Prod.fst).Nodup

/-- A publish of a message of the frame. -/
def Event.Shows (atof : Str → ν) : Event ν → Frame → Prop
  | .published m i, f => Message.Shows atof m f ∧ i.isSome
  | .thrown _, _ => False

theorem message_shows {atof : Str → ν} {m : Json ν} {v : View ν} {f : Frame} (h : Represents m v)
    (hv : v.Shows atof f) : Message.Shows atof m f := by
  have hnums {l l' : List (Str × ν)} (hl : l.Perm l') : (nums l).Perm (nums l') := hl.map _
  refine ⟨?_, ?_, ?_⟩
  · rw [h.tmeta]
    simpa [nums, Frame.tmeta, Function.comp_def] using hnums hv.tmeta
  · rw [h.lld]
    simpa [nums, Frame.features, Function.comp_def] using hnums hv.lld
  · rw [h.lld]
    simpa [nums, Function.comp_def] using hv.lld_sorted.nodup_keys

theorem event_shows {D : Doubles ν} {columnMap : ColumnMap} {e : Event ν} {e' : AccEvent ν} {f : Frame}
    (h : EventRel D columnMap e e') (he : e'.Shows D.atof f) : e.Shows D.atof f := by
  cases e with
  | published m i =>
    cases e' with
    | published v =>
      obtain ⟨hrepr, rfl⟩ := h
      exact ⟨message_shows hrepr he, rfl⟩
    | thrown _ => exact h.elim
  | thrown _ =>
    cases e' with
    | published _ => exact h.elim
    | thrown _ => exact he.elim

/-- **Frames are published one by one, each with its own values.** Of `n`
frames with the same names, however their lines are spaced, the processor
publishes the first `n - 1` in order, and throws nothing. -/
theorem frame_pairing (D : Doubles ν) (ids : Ids) (columnMap : ColumnMap) {frames : List Frame}
    (hwf : ∀ f ∈ frames, f.WellFormed) (hsame : ∀ f ∈ frames, ∀ g ∈ frames, f.SameNames g)
    {ms : List LogMessage} (hms : ms.map (fun m => despace m.text) = frames.flatMap Frame.lines) :
    List.Forall₂ (Event.Shows D.atof)
      (Processor.events D ids.participantId ids.trialId ids.experimentId columnMap ms) frames.dropLast := by
  have hsim := events_sim D ids columnMap ms
  rw [hms] at hsim
  exact Mealy.forall₂_trans hsim (frames_shown D.atof ids hwf hsame) fun _ _ _ h he => event_shows h he

/-- A frame with one feature and its time. -/
def sampleFrame (value time : Str) : Frame where
  lld := [("mfcc[1]".toList, value)]
  fields := [("time".toList, time)]

theorem sampleFrame_names : LldName "mfcc[1]".toList ∧ FieldName "time".toList :=
  ⟨⟨by decide, by decide, by decide, by decide +kernel⟩, ⟨by decide, by decide +kernel, by decide +kernel⟩⟩

theorem sampleFrame_wellFormed {value time : Str} (hv : IsNumber value) (ht : IsNumber time) :
    (sampleFrame value time).WellFormed := by
  refine ⟨by simp [sampleFrame], by simp [sampleFrame], ?_, ?_, by simp [sampleFrame], by simp [sampleFrame]⟩
  · intro p hp
    rw [List.mem_singleton.mp hp]
    exact ⟨sampleFrame_names.1, hv⟩
  · intro p hp
    rw [List.mem_singleton.mp hp]
    exact ⟨sampleFrame_names.2, ht⟩

theorem frame_pairing_two : ∃ ms : List LogMessage, ms.length = 6 ∧
    List.Forall₂ (Event.Shows Decimal.scan)
      (Processor.events DecimalPrinter.allDigits.doubles "P".toList "T".toList "E".toList [] ms)
      [sampleFrame "-1.5e-03".toList "0.01".toList] := by
  refine ⟨["lld.mfcc[1] = -1.5e-03".toList, "tmeta:".toList, " time = 0.01".toList, "lld.mfcc[1] = 2".toList,
    "tmeta:".toList, "time=0.02".toList].map fun text => ⟨text, [], []⟩, rfl, ?_⟩
  have hframes : [sampleFrame "-1.5e-03".toList "0.01".toList] =
      [sampleFrame "-1.5e-03".toList "0.01".toList, sampleFrame "2".toList "0.02".toList].dropLast := rfl
  rw [hframes]
  refine frame_pairing DecimalPrinter.allDigits.doubles ⟨"P".toList, "T".toList, "E".toList⟩ [] ?_ ?_ ?_
  · simp only [List.forall_mem_cons]
    exact ⟨sampleFrame_wellFormed (by unfold IsNumber; decide) (by unfold IsNumber; decide),
      sampleFrame_wellFormed (by unfold IsNumber; decide) (by unfold IsNumber; decide), by simp⟩
  · have hsame (v t v' t' : Str) : (sampleFrame v t).SameNames (sampleFrame v' t') :=
      ⟨fun _ => Iff.rfl, fun _ => Iff.rfl⟩
    simp only [List.forall_mem_cons]
    exact ⟨⟨hsame .., hsame .., by simp⟩, ⟨hsame .., hsame .., by simp⟩, by simp⟩
  · decide +kernel

end SpeechAnalyzer
