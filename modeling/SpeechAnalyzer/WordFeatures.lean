/-
Words and their features: `ProcessASRMessage` turns each word's history, a list
of rows, into an object of lists, and puts its text into the word.

The loop over the rows appends to every list in turn; the invariant is that the
lists hold the rows done so far, column by column.
-/
import SpeechAnalyzer.ASRProcessor
import SpeechAnalyzer.StoreLoad

namespace SpeechAnalyzer

open Lib ASRProcessor

variable {ν : Type}

/-! ## Histories -/

/-- The members of a row of a history: these keys, in their order. -/
structure HasKeys (keys : List Str) (row : Json ν) : Prop where
  isMap : row.IsMap
  fields : row.fields.map Prod.fst = keys

/-- What a call of `FeaturesBetween` returns: rows over one set of keys. -/
structure History (ν : Type) where
  keys : List Str
  sorted : keys.Pairwise (· < ·)
  rows : List (Json ν)
  hasKeys : ∀ row ∈ rows, HasKeys keys row

/-- The fields `FeaturesBetween` sets in each object: those of the columns the
map knows. -/
def fieldNames (columnMap : ColumnMap) (columns : List Str) : List Str :=
  (KeyMap.putAll (columns.filterMap fun column => (columnMap.lookup column).map fun field => (field, ())) []).map
    Prod.fst

theorem keys_rowObject (D : Doubles ν) (columnMap : ColumnMap) (columns : List Str) (row : Row) :
    (rowObject D columnMap columns row).fields.map Prod.fst = fieldNames columnMap columns := by
  rw [rowObject, Json.fields_ofFields, fieldNames]
  refine KeyMap.keys_putAll ?_ rfl
  simp only [rowFields, List.map_filterMap, Option.map_map, Function.comp_def]

/-- The history of an answer of the database. -/
def rowsHistory (D : Doubles ν) (columnMap : ColumnMap) (columns : List Str) (rows : List Row) : History ν where
  keys := fieldNames columnMap columns
  sorted := List.pairwise_map.mpr KeyMap.Sorted.nil.putAll
  rows := rows.map (rowObject D columnMap columns)
  hasKeys := by
    intro j hj
    obtain ⟨row, -, rfl⟩ := List.mem_map.mp hj
    exact ⟨Json.isMap_ofFields _, keys_rowObject D columnMap columns row⟩

theorem featuresBetween_eq (D : Doubles ν) (columnMap : ColumnMap) (columns : List Str)
    (query : Str → Str → Str → Str → List Row) (bounds : Str × Str) (participantId trialId : Str) :
    DBWrapper.featuresBetween D columnMap columns query bounds participantId trialId =
      .ok (rowsHistory D columnMap columns
        (query bounds.1 bounds.2 (cString participantId) (cString trialId))).rows :=
  mapM_rowMessage_eq ..

/-- Lists by key. -/
def lists (keys : List Str) (f : Str → List (Json ν)) : List (Str × Json ν) := keys.map fun k => (k, .arr (f k))

/-- The values of a key, row by row. -/
def History.column (h : History ν) (key : Str) : List (Json ν) := h.rows.map (Json.path [key])

/-- A word's features. -/
def History.features (P : Json.Printer ν) (h : History ν) : Json ν :=
  match h.rows with
  | [] => .null
  | _ :: _ => .str ((Json.ofFields (lists h.keys h.column)).dump P)

section Transpose

variable {P : Json.Printer ν} {keys : List Str} {f : Str → List (Json ν)}

theorem lists_congr {g : Str → List (Json ν)} (h : ∀ k ∈ keys, f k = g k) : lists keys f = lists keys g :=
  List.map_congr_left fun k hk => by rw [h k hk]

theorem lookup_lists {key : Str} (hsorted : keys.Pairwise (· < ·)) (hkey : key ∈ keys) :
    (lists keys f).lookup key = some (.arr (f key)) := by
  have hkeys : (lists keys f).map Prod.fst = keys := by simp [lists, Function.comp_def]
  refine KeyMap.lookup_of_mem ?_ (List.mem_map.mpr ⟨key, hkey, rfl⟩)
  rw [hkeys]
  exact hsorted.imp ne_of_lt

theorem ofFields_lists {key : Str} (hkey : key ∈ keys) (f : Str → List (Json ν)) :
    Json.ofFields (lists keys f) = .obj (lists keys f) := by
  cases keys with
  | nil => cases hkey
  | cons a keys => rfl

/-- One value goes to the end of its list. -/
theorem pushFeature_lists (hsorted : keys.Pairwise (· < ·)) {row : Json ν} (hrow : row.IsMap) {key : Str}
    (hkey : key ∈ keys) : pushFeature row (.ofFields (lists keys f)) key =
      .ok (.ofFields (lists keys fun k => if k = key then f k ++ [Json.path [key] row] else f k)) := by
  have hput : KeyMap.put key (.arr (f key ++ [Json.path [key] row])) (lists keys f) =
      lists keys fun k => if k = key then f k ++ [Json.path [key] row] else f k := by
    rw [lists, KeyMap.put_map _ _ hsorted hkey]
    refine List.map_congr_left fun k _ => ?_
    by_cases hk : k = key
    · simp only [hk, if_true]
    · simp only [hk, if_false]
  rw [ofFields_lists hkey, ofFields_lists hkey]
  simp only [pushFeature, Json.get_of_isMap hrow, Json.get_obj, lookup_lists hsorted hkey, Option.getD_some,
    Json.pushBack, Json.setAt_singleton (Json.isMap_obj _), Json.fields_obj, hput, ok_bind]

/-- The loop over the keys, for one row. -/
theorem foldlM_pushFeature (hsorted : keys.Pairwise (· < ·)) {row : Json ν} (hrow : row.IsMap) {ks : List Str}
    (hnodup : ks.Nodup) (hks : ∀ k ∈ ks, k ∈ keys) :
    ks.foldlM (pushFeature row) (.ofFields (lists keys f)) =
      .ok (.ofFields (lists keys fun k => if k ∈ ks then f k ++ [Json.path [k] row] else f k)) := by
  induction ks generalizing f with
  | nil =>
    simp
    rfl
  | cons key ks ih =>
    obtain ⟨hnot, hnodup⟩ := List.nodup_cons.mp hnodup
    obtain ⟨hkey, hks⟩ := List.forall_mem_cons.mp hks
    rw [List.foldlM_cons, pushFeature_lists hsorted hrow hkey, ok_bind, ih hnodup hks]
    have hf : (fun k => if k ∈ ks then (if k = key then f k ++ [Json.path [key] row] else f k) ++ [Json.path [k] row]
        else if k = key then f k ++ [Json.path [key] row] else f k) =
        fun k => if k ∈ key :: ks then f k ++ [Json.path [k] row] else f k := by
      funext k
      by_cases hk : k = key
      · subst hk
        rw [if_neg hnot, if_pos rfl, if_pos List.mem_cons_self]
      · simp only [List.mem_cons, hk, false_or, if_false]
    rw [hf]

/-- The loop over the rows: every list takes the rows' values in their order. -/
theorem foldlM_rows (hsorted : keys.Pairwise (· < ·)) {rows : List (Json ν)} (hrows : ∀ row ∈ rows, row.IsMap) :
    rows.foldlM (fun out row => keys.foldlM (pushFeature row) out) (.ofFields (lists keys f)) =
      .ok (.ofFields (lists keys fun k => f k ++ rows.map (Json.path [k]))) := by
  induction rows generalizing f with
  | nil =>
    simp
    rfl
  | cons row rows ih =>
    obtain ⟨hrow, hrows⟩ := List.forall_mem_cons.mp hrows
    rw [List.foldlM_cons, foldlM_pushFeature hsorted hrow (hsorted.imp ne_of_lt) fun _ hk => hk, ok_bind, ih hrows]
    have hf : lists keys (fun k => (if k ∈ keys then f k ++ [Json.path [k] row] else f k) ++ rows.map (Json.path [k])) =
        lists keys fun k => f k ++ (row :: rows).map (Json.path [k]) :=
      lists_congr fun k hk => by rw [if_pos hk, List.map_cons, List.append_assoc, List.singleton_append]
    rw [hf]

/-- Before the first row: an empty list for each key. -/
theorem foldlM_emptyLists (hsorted : keys.Pairwise (· < ·)) :
    keys.foldlM (fun out key => Json.setAt [key] (.arr []) out) (.null : Json ν) =
      .ok (Json.ofFields (lists keys fun _ => [])) := by
  have hput : KeyMap.putAll (lists keys fun _ => []) [] = lists keys (ν := ν) fun _ => [] :=
    KeyMap.putAll_of_sorted (List.pairwise_map.mpr hsorted)
  rw [← hput, lists, ← Json.foldlM_setAt, List.foldlM_map]
  rfl

/-- **Rows to lists.** -/
theorem alignHistory_eq (P : Json.Printer ν) (h : History ν) : alignHistory P h.rows = .ok (h.features P) := by
  have hkeys := h.hasKeys
  unfold alignHistory History.features History.column
  cases hrows : h.rows with
  | nil => rfl
  | cons first rest =>
    rw [hrows] at hkeys
    have hfirst : first.items.map Prod.fst = h.keys := by
      rw [items_eq_fields (hkeys first List.mem_cons_self).isMap, (hkeys first List.mem_cons_self).fields]
    have hfold := foldlM_rows (f := fun _ => []) h.sorted fun row hrow => (hkeys row hrow).isMap
    simp only [hfirst, foldlM_emptyLists h.sorted, ok_bind, hfold, List.nil_append]

end Transpose

/-! ## Messages -/

/-- A word's times are numbers. -/
structure Times (word : Json ν) (startTime endTime : ν) : Prop where
  isMap : word.IsMap
  startTime : Json.path ["start_time".toList] word = .num startTime
  endTime : Json.path ["end_time".toList] word = .num endTime

/-- A well-formed ASR message: strings for the ids, and words with numbers for
their times. -/
structure AsrMessage (m : Json ν) (ids : Ids) (words : List (Json ν)) : Prop where
  trialId : Json.getAt ["msg".toList, "trial_id".toList] m = .ok (.str ids.trialId)
  experimentId : Json.getAt ["msg".toList, "experiment_id".toList] m = .ok (.str ids.experimentId)
  participantId : Json.getAt ["data".toList, "participant_id".toList] m = .ok (.str ids.participantId)
  wordMessages : ∃ wordMessages,
    Json.getAt ["data".toList, "features".toList, "word_messages".toList] m = .ok wordMessages ∧
      wordMessages.elements = words
  times : ∀ word ∈ words, ∃ startTime endTime, Times word startTime endTime

/-- The calls of `FeaturesBetween` for the words from the `n`-th on return
these histories. -/
def Returns (featuresBetween : FeatureQuery ν) (ids : Ids) (histories : ℕ → History ν) (n : ℕ)
    (words : List (Json ν)) : Prop :=
  ∀ i word startTime endTime, words[i]? = some word → Times word startTime endTime →
    featuresBetween (n + i) startTime endTime ids.participantId ids.trialId = .ok (histories (n + i)).rows

/-- A word with its features. -/
def alignedWord (P : Json.Printer ν) (h : History ν) (word : Json ν) : Json ν :=
  .obj (KeyMap.put "features".toList (h.features P) word.fields)

section Words

variable {P : Json.Printer ν} {featuresBetween : FeatureQuery ν} {m : Json ν} {ids : Ids}
  {histories : ℕ → History ν}

theorem alignWords_eq
    (hparticipant : Json.getAt ["data".toList, "participant_id".toList] m = .ok (.str ids.participantId))
    (htrial : Json.getAt ["msg".toList, "trial_id".toList] m = .ok (.str ids.trialId)) {words : List (Json ν)} {n : ℕ}
    (hreturns : Returns featuresBetween ids histories n words)
    (htimes : ∀ word ∈ words, ∃ startTime endTime, Times word startTime endTime) :
    alignWords P featuresBetween m n words =
      .ok (words.mapIdx fun i word => alignedWord P (histories (n + i)) word) := by
  induction words generalizing n with
  | nil => rfl
  | cons word words ih =>
    obtain ⟨⟨startTime, endTime, h⟩, htimes⟩ := List.forall_mem_cons.mp htimes
    have hhistory : featuresBetween n startTime endTime ids.participantId ids.trialId = .ok (histories n).rows :=
      hreturns 0 word startTime endTime rfl h
    have hshift (i : ℕ) : n + (i + 1) = n + 1 + i := by omega
    have hrest : Returns featuresBetween ids histories (n + 1) words := fun i w s e hw ht => by
      have hnext := hreturns (i + 1) w s e hw ht
      rwa [hshift] at hnext
    have hset : Json.setAt ["features".toList] ((histories n).features P) word =
        .ok (alignedWord P (histories n) word) := Json.setAt_singleton h.isMap
    have hindex : (fun i w => alignedWord P (histories (n + (i + 1))) w) =
        fun i w => alignedWord P (histories (n + 1 + i)) w := by
      funext i w
      rw [hshift]
    rw [List.mapIdx_cons, hindex]
    simp only [alignWords, Json.get_of_isMap h.isMap, h.startTime, h.endTime, Json.toDouble_num, hparticipant, htrial,
      Json.toStr_str, hhistory, alignHistory_eq, hset, ih hrest htimes, ok_bind]
    rfl

/-- The words of the request. -/
def alignedWords (P : Json.Printer ν) (histories : ℕ → History ν) (words : List (Json ν)) : List (Json ν) :=
  words.mapIdx fun i word => alignedWord P (histories i) word

/-- `ProcessASRMessage` reaches the MMC server, with the words in both places. -/
theorem request_eq {words : List (Json ν)} (hm : AsrMessage m ids words)
    (hreturns : Returns featuresBetween ids histories 0 words) :
    ∃ message message', request P featuresBetween m = .ok ⟨ids.trialId, ids.experimentId, message'⟩ ∧
      Json.Open ["data".toList, "features".toList, "word_messages".toList] m ∧
      Json.setAt ["data".toList, "features".toList, "word_messages".toList] (.arr (alignedWords P histories words)) m =
        .ok message ∧
      Json.Open ["data".toList, "word_messages".toList] message ∧
      Json.setAt ["data".toList, "word_messages".toList] (.arr (alignedWords P histories words)) message =
        .ok message' := by
  obtain ⟨wordMessages, hget, rfl⟩ := hm.wordMessages
  have halign := alignWords_eq (P := P) hm.participantId hm.trialId hreturns hm.times
  simp only [Nat.zero_add] at halign
  obtain ⟨hopen, -⟩ := Json.getAt_eq_ok.mp hget
  obtain ⟨message, hset⟩ := Json.exists_setAt (v := .arr (alignedWords P histories wordMessages.elements)) hopen
  have hopen' : Json.Open ["data".toList, "features".toList, "word_messages".toList] message :=
    Json.open_setAt hopen hset
  have hpath := Json.path_setAt hopen hset
  have hcopied := Json.getAt_eq_ok.mpr ⟨hopen', hpath⟩
  have hdata : Json.Open ["data".toList, "word_messages".toList] message := ⟨hopen'.1, hopen'.2.1, trivial⟩
  obtain ⟨message', hset'⟩ := Json.exists_setAt (v := .arr (alignedWords P histories wordMessages.elements)) hdata
  refine ⟨message, message', ?_, hopen, hset, hdata, hset'⟩
  have halign : alignWords P featuresBetween m 0 wordMessages.elements =
      .ok (alignedWords P histories wordMessages.elements) := halign
  simp only [request, hm.trialId, hm.experimentId, Json.toStr_str, hget, halign, hset, hcopied, hset', ok_bind]

/-- Two runs send the same message exactly when each word gets the same features. -/
theorem request_eq_iff {words : List (Json ν)} (hm : AsrMessage m ids words) {featuresBetween' : FeatureQuery ν}
    {histories' : ℕ → History ν} (hreturns : Returns featuresBetween ids histories 0 words)
    (hreturns' : Returns featuresBetween' ids histories' 0 words) :
    request P featuresBetween m = request P featuresBetween' m ↔
      ∀ n < words.length, (histories n).features P = (histories' n).features P := by
  obtain ⟨m₁, m₂, hrequest, hopen, hset₁, hopen₁, hset₂⟩ := request_eq (P := P) hm hreturns
  obtain ⟨m₁', m₂', hrequest', -, hset₁', hopen₁', hset₂'⟩ := request_eq (P := P) hm hreturns'
  have hwords : alignedWords P histories words = alignedWords P histories' words ↔
      ∀ n < words.length, (histories n).features P = (histories' n).features P := by
    have hword (n : ℕ) (word : Json ν) : alignedWord P (histories n) word = alignedWord P (histories' n) word ↔
        (histories n).features P = (histories' n).features P := by
      refine ⟨fun h => ?_, fun h => by rw [alignedWord, alignedWord, h]⟩
      have hfind := congrArg (Json.path ["features".toList]) h
      rwa [alignedWord, alignedWord, Json.path_put, Json.path_put, if_pos rfl, if_pos rfl] at hfind
    rw [alignedWords, alignedWords, List.mapIdx_eq_mapIdx_iff]
    exact forall₂_congr fun n _ => hword n _
  rw [hrequest, hrequest', ← hwords]
  refine ⟨fun h => ?_, fun h => ?_⟩
  · obtain ⟨-, -, hmessage⟩ := Request.mk.inj (Except.ok.inj h)
    have hfound := Json.find_setAt hopen₁ hset₂
    rw [hmessage, Json.find_setAt hopen₁' hset₂'] at hfound
    exact (Json.arr.inj (Option.some.inj hfound)).symm
  · rw [h] at hset₁ hset₂
    rw [hset₁] at hset₁'
    obtain rfl := Except.ok.inj hset₁'
    rw [hset₂] at hset₂'
    obtain rfl := Except.ok.inj hset₂'
    rfl

end Words

/-! ## Alignment -/

/-- A word of the request, from the word of the message and its history: the
features are null for no rows, and else the text of an object of lists, under
each key the rows' values in their order. -/
structure Aligned (P : Json.Printer ν) (h : History ν) (word word' : Json ν) : Prop where
  others : ∀ k, k ≠ "features".toList → Json.find [k] word' = Json.find [k] word
  empty : h.rows = [] → Json.find ["features".toList] word' = some .null
  text : h.rows ≠ [] → Json.find ["features".toList] word' = some (.str ((Json.obj (lists h.keys h.column)).dump P))

theorem alignedWord_aligned (P : Json.Printer ν) {h : History ν} (hkeys : h.keys ≠ []) (word : Json ν) :
    Aligned P h word (alignedWord P h word) := by
  have hfind (k : Str) : Json.find [k] (alignedWord P h word) =
      if k = "features".toList then some (h.features P) else Json.find [k] word := by
    simp only [Json.find, alignedWord, Json.fields_obj, KeyMap.lookup_put]
    split <;> rfl
  refine ⟨fun k hk => ?_, fun hrows => ?_, fun hrows => ?_⟩
  · rw [hfind, if_neg hk]
  · rw [hfind, if_pos rfl, History.features, hrows]
  · obtain ⟨key, hkey⟩ := List.exists_mem_of_ne_nil _ hkeys
    obtain ⟨row, rows, hcons⟩ := List.exists_cons_of_ne_nil hrows
    rw [hfind, if_pos rfl, History.features, hcons, ofFields_lists hkey]

/-- **The words with their features.** The message whose text is exchanged with
the server has, in both places, one word for each word of the utterance, in
order and aligned with its history; the rest of the utterance is as it was. -/
theorem words_aligned (P : Json.Printer ν) {m : Json ν} {ids : Ids} {words : List (Json ν)}
    (hm : AsrMessage m ids words) {featuresBetween : FeatureQuery ν} {histories : ℕ → History ν}
    (hreturns : Returns featuresBetween ids histories 0 words) (hkeys : ∀ n, (histories n).keys ≠ []) :
    ∃ r words', request P featuresBetween m = .ok r ∧
      (∀ (R : Json.Reader ν) (exchange : Str → Option Bytes) (clock : ℕ → Str),
        processASRMessage P R featuresBetween exchange clock m =
          processASRMessage P R featuresBetween (fun _ => exchange (r.message.dump P)) clock m) ∧
      Json.find ["data".toList, "features".toList, "word_messages".toList] r.message = some (.arr words') ∧
      Json.find ["data".toList, "word_messages".toList] r.message = some (.arr words') ∧
      words'.length = words.length ∧
      (∀ n word word', words[n]? = some word → words'[n]? = some word' → Aligned P (histories n) word word') ∧
      ∀ q, Json.Diverge ["data".toList, "features".toList, "word_messages".toList] q →
        Json.Diverge ["data".toList, "word_messages".toList] q → Json.find q r.message = Json.find q m := by
  obtain ⟨message, message', hrequest, hopen, hset, hopen', hset'⟩ := request_eq (P := P) hm hreturns
  refine ⟨_, alignedWords P histories words, hrequest, fun R exchange clock => ?_, ?_, Json.find_setAt hopen' hset',
    List.length_mapIdx, ?_, ?_⟩
  · simp only [processASRMessage, hrequest, processMMCMessage]
  · have hapart : Json.Diverge ["data".toList, "word_messages".toList]
        ["data".toList, "features".toList, "word_messages".toList] := .inr (.inl (by decide))
    rw [Json.find_setAt_diverge hopen' hset' hapart]
    exact Json.find_setAt hopen hset
  · intro n word word' hword hword'
    rw [alignedWords, List.getElem?_mapIdx, hword, Option.map_some] at hword'
    obtain rfl := Option.some.inj hword'
    exact alignedWord_aligned P (hkeys n) word
  · intro q hfeatures hcopy
    rw [Json.find_setAt_diverge hopen' hset' hcopy, Json.find_setAt_diverge hopen hset hfeatures]

/-- A word, and an utterance of words. -/
def sampleWord (word : Str) (startTime endTime : Decimal) : Json Decimal :=
  .obj [("end_time".toList, .num endTime), ("start_time".toList, .num startTime), ("word".toList, .str word)]

def sampleUtterance (words : List (Json Decimal)) : Json Decimal :=
  .obj [("data".toList, .obj [("features".toList, .obj [("word_messages".toList, .arr words)]),
      ("participant_id".toList, .str "P".toList), ("utterance_id".toList, .str "U".toList)]),
    ("msg".toList, .obj [("experiment_id".toList, .str "E".toList), ("trial_id".toList, .str "T".toList)])]

theorem times_sampleWord (word : Str) (startTime endTime : Decimal) :
    Times (sampleWord word startTime endTime) startTime endTime := ⟨trivial, rfl, rfl⟩

theorem asrMessage_sampleUtterance {words : List (Json Decimal)}
    (h : ∀ word ∈ words, ∃ startTime endTime, Times word startTime endTime) :
    AsrMessage (sampleUtterance words) ⟨"P".toList, "T".toList, "E".toList⟩ words :=
  ⟨rfl, rfl, rfl, ⟨_, rfl, rfl⟩, h⟩

/-- Rows of one feature. -/
def jitterHistory (values : List Decimal) : History Decimal where
  keys := ["jitter".toList]
  sorted := List.pairwise_singleton _ _
  rows := values.map fun x => .obj [("jitter".toList, .num x)]
  hasKeys := by
    intro j hj
    obtain ⟨x, -, rfl⟩ := List.mem_map.mp hj
    exact ⟨trivial, rfl⟩

/-- A word without rows and a word with two. -/
def sampleWords : List (Json Decimal) := [sampleWord "a".toList ⟨0, 0⟩ ⟨1, 0⟩, sampleWord "b".toList ⟨1, 0⟩ ⟨2, 0⟩]

def sampleHistories (n : ℕ) : History Decimal := jitterHistory (if n = 0 then [] else [⟨15, 1⟩, ⟨25, 1⟩])

theorem sampleWords_times : ∀ word ∈ sampleWords, ∃ startTime endTime, Times word startTime endTime := by
  simp only [sampleWords, List.forall_mem_cons]
  exact ⟨⟨_, _, times_sampleWord ..⟩, ⟨_, _, times_sampleWord ..⟩, by simp⟩

theorem words_aligned_sample : ∃ r words',
    request DecimalPrinter.allDigits.doubles.toPrinter (fun n _ _ _ _ => .ok (sampleHistories n).rows)
        (sampleUtterance sampleWords) = .ok r ∧
      (∀ (R : Json.Reader Decimal) (exchange : Str → Option Bytes) (clock : ℕ → Str),
        processASRMessage DecimalPrinter.allDigits.doubles.toPrinter R (fun n _ _ _ _ => .ok (sampleHistories n).rows)
            exchange clock (sampleUtterance sampleWords) =
          processASRMessage DecimalPrinter.allDigits.doubles.toPrinter R
            (fun n _ _ _ _ => .ok (sampleHistories n).rows)
            (fun _ => exchange (r.message.dump DecimalPrinter.allDigits.doubles.toPrinter)) clock
            (sampleUtterance sampleWords)) ∧
      Json.find ["data".toList, "features".toList, "word_messages".toList] r.message = some (.arr words') ∧
      Json.find ["data".toList, "word_messages".toList] r.message = some (.arr words') ∧
      words'.length = sampleWords.length ∧
      (∀ n word word', sampleWords[n]? = some word → words'[n]? = some word' →
        Aligned DecimalPrinter.allDigits.doubles.toPrinter (sampleHistories n) word word') ∧
      ∀ q, Json.Diverge ["data".toList, "features".toList, "word_messages".toList] q →
        Json.Diverge ["data".toList, "word_messages".toList] q →
          Json.find q r.message = Json.find q (sampleUtterance sampleWords) :=
  words_aligned _ (asrMessage_sampleUtterance sampleWords_times) (fun _ _ _ _ _ _ => by rw [Nat.zero_add])
    fun _ => List.cons_ne_nil _ _

end SpeechAnalyzer
