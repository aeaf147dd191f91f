/-
The ids in the INSERT. `PublishChunk` writes each id as a JSON string and then
turns every double quote of the whole query into a single one, so an id is
quoted by JSON's escapes and read by SQL's.

The two agree on an id exactly when it is plain (`Plain`): a quote or a
backslash reads as something else, and what it reads as lags behind the id by
what was put before it (`readLiteral_backslashes`, `readLiteral_quotes`).
-/
import SpeechAnalyzer.DBWrapper
import SpeechAnalyzer.Lib.Decimal
import SpeechAnalyzer.Lib.SqlText

namespace SpeechAnalyzer

open Lib SqlText

variable {ν : Type}

/-- No quote, no backslash, no control character. -/
def Plain (s : Str) : Prop := ∀ c ∈ s, c ≠ '\'' ∧ c ≠ '"' ∧ c ≠ '\\' ∧ 0x20 ≤ c.toNat

/-- The text is one INSERT into `features` whose literals for the ids denote them. -/
def DenotesIds (query : Str) (ids : Ids) : Prop := ∃ columns values,
  readInsert "features".toList query =
    some (columns ++ [.word "participant".toList, .word "trial_id".toList, .word "experiment_id".toList],
      values ++ [.text ids.participantId, .text ids.trialId, .text ids.experimentId])

/-! ## The text between the quotes -/

section Literal

variable (E : Json.Escape)

/-- An id in the query, without its quotes. -/
def idText (s : Str) : Str := replaceQuotes (s.flatMap E.esc)

theorem replaceQuotes_append (s t : Str) : replaceQuotes (s ++ t) = replaceQuotes s ++ replaceQuotes t :=
  List.map_append

theorem replaceQuotes_eq_self {s : Str} (h : '"' ∉ s) : replaceQuotes s = s := by
  refine (List.map_congr_left fun c hc => ?_).trans (List.map_id s)
  rw [if_neg fun he : c = '"' => h (he ▸ hc)]
  rfl

theorem replaceQuotes_quoted (s : Str) : replaceQuotes (E.quoted s) = '\'' :: idText E s ++ ['\''] := by
  simp [Json.Escape.quoted, idText, replaceQuotes]

theorem idText_nil : idText E [] = [] := rfl

theorem idText_cons (c : Char) (s : Str) : idText E (c :: s) = replaceQuotes (E.esc c) ++ idText E s := by
  rw [idText, List.flatMap_cons, replaceQuotes_append]
  rfl

theorem idText_plain {c : Char} (hq : c ≠ '"') (hb : c ≠ '\\') (hc : 0x20 ≤ c.toNat) (s : Str) :
    idText E (c :: s) = c :: idText E s := by
  rw [idText_cons, E.plain c hc hq hb, replaceQuotes_eq_self (by simpa using Ne.symm hq), List.singleton_append]

theorem idText_backslash (s : Str) : idText E ('\\' :: s) = '\\' :: '\\' :: idText E s := by
  rw [idText_cons, E.backslash]
  rfl

/-- A double quote or a control character becomes a backslash and something more. -/
theorem idText_escaped {c : Char} (h : c = '"' ∨ c.toNat < 0x20) (s : Str) :
    ∃ t, idText E (c :: s) = '\\' :: t := by
  rw [idText_cons]
  rcases h with rfl | hc
  · rw [E.quote]
    exact ⟨_, rfl⟩
  · obtain ⟨hhead, -, -⟩ := E.control c hc
    obtain ⟨w, hw⟩ := List.head?_eq_some_iff.mp hhead
    rw [hw]
    exact ⟨_, rfl⟩

/-- How a character other than a single quote starts: as itself or with a backslash. -/
theorem idText_head {c : Char} (hc : c ≠ '\'') (s : Str) : ∃ d t, idText E (c :: s) = d :: t ∧ d ≠ '\'' := by
  by_cases hb : c = '\\'
  · subst hb
    exact ⟨_, _, idText_backslash E s, by decide⟩
  by_cases hesc : c = '"' ∨ c.toNat < 0x20
  · obtain ⟨t, ht⟩ := idText_escaped E hesc s
    exact ⟨_, t, ht, by decide⟩
  · obtain ⟨hq, hctl⟩ := not_or.mp hesc
    exact ⟨c, _, idText_plain E hq hb (not_lt.mp hctl) s, hc⟩

theorem readLiteral_head {d : Char} (hd : d ≠ '\'') {t l r : Str} (h : readLiteral (d :: t) = some (l, r)) :
    ∃ l', l = d :: l' ∧ readLiteral t = some (l', r) := by
  rw [readLiteral_cons hd, Option.map_eq_some_iff] at h
  obtain ⟨⟨l', r'⟩, hread, heq⟩ := h
  obtain ⟨rfl, rfl⟩ := Prod.mk.inj heq
  exact ⟨l', rfl, hread⟩

/-- Backslashes ahead never catch up: each one of the id puts another. -/
theorem readLiteral_backslashes : ∀ (s : Str) (j : Nat) {rest r : Str},
    readLiteral (List.replicate (j + 1) '\\' ++ (idText E s ++ '\'' :: rest)) ≠ some (s, r)
  | s, j, rest, r => by
    intro h
    rw [List.replicate_succ, List.cons_append] at h
    obtain ⟨s', rfl, hread⟩ := readLiteral_head (by decide) h
    rw [idText_backslash] at hread
    have hlag : List.replicate j '\\' ++ ('\\' :: '\\' :: idText E s' ++ '\'' :: rest) =
        List.replicate (j + 1 + 1) '\\' ++ (idText E s' ++ '\'' :: rest) := by
      rw [List.replicate_succ', List.replicate_succ']
      simp
    rw [hlag] at hread
    exact readLiteral_backslashes s' (j + 1) hread

/-- After the closing quote of the whole text, no quote can come first. -/
theorem readLiteral_rest {rest l r : Str} (hrest : rest.head? ≠ some '\'')
    (h : readLiteral rest = some (l, r)) : l ≠ [] ∧ l.head? ≠ some '\'' := by
  cases rest with
  | nil => simp [readLiteral] at h
  | cons d rest =>
    have hd : d ≠ '\'' := fun he => hrest (by rw [he]; rfl)
    obtain ⟨l', rfl, -⟩ := readLiteral_head hd h
    exact ⟨by simp, by simpa using hd⟩

/-- A quote that is read stands for itself and the quote after it. -/
theorem readLiteral_quote_cases {t l r : Str} (h : readLiteral ('\'' :: t) = some (l, r)) :
    l = [] ∨ ∃ t' l', t = '\'' :: t' ∧ l = '\'' :: l' ∧ readLiteral t' = some (l', r) := by
  by_cases ht : t.head? = some '\''
  · obtain ⟨t', rfl⟩ := List.head?_eq_some_iff.mp ht
    rw [readLiteral_quotes, Option.map_eq_some_iff] at h
    obtain ⟨⟨l', r'⟩, hread, heq⟩ := h
    obtain ⟨rfl, rfl⟩ := Prod.mk.inj heq
    exact .inr ⟨t', l', rfl, rfl, hread⟩
  · rw [readLiteral_quote ht, Option.some.injEq, Prod.mk.injEq] at h
    exact .inl h.1.symm

/-- A quote of the id, read as a quote, has the id's next character for its second. -/
theorem readLiteral_idText_quote {s rest l r : Str}
    (h : readLiteral ('\'' :: (idText E s ++ '\'' :: rest)) = some ('\'' :: l, r)) :
    (s = [] ∧ readLiteral rest = some (l, r)) ∨
    ∃ s', s = '\'' :: s' ∧ readLiteral (idText E s' ++ '\'' :: rest) = some (l, r) := by
  rcases readLiteral_quote_cases h with h | ⟨t', l', ht, hl, hread⟩
  · exact absurd h (by simp)
  obtain ⟨-, rfl⟩ := List.cons.inj hl
  cases s with
  | nil =>
    rw [idText_nil, List.nil_append] at ht
    obtain ⟨-, rfl⟩ := List.cons.inj ht
    exact .inl ⟨rfl, hread⟩
  | cons d s =>
    by_cases hd : d = '\''
    · subst hd
      rw [idText_plain E (by decide) (by decide) (by decide), List.cons_append] at ht
      obtain ⟨-, rfl⟩ := List.cons.inj ht
      exact .inr ⟨s, rfl, hread⟩
    · obtain ⟨e, t, het, he⟩ := idText_head E hd s
      rw [het, List.cons_append] at ht
      exact absurd (List.cons.inj ht).1 he

/-- Quotes ahead never catch up: two of the id make one. -/
theorem readLiteral_quotes_ahead : ∀ (s : Str) (m : Nat) {rest r : Str}, rest.head? ≠ some '\'' →
    readLiteral (idText E s ++ '\'' :: rest) ≠ some (List.replicate (m + 1) '\'' ++ s, r)
  | [], m, rest, r, hrest => by
    rw [idText_nil, List.nil_append, readLiteral_quote hrest, List.replicate_succ]
    simp
  | c :: s, m, rest, r, hrest => by
    intro h
    rw [List.replicate_succ, List.cons_append] at h
    by_cases hc : c = '\''
    · subst hc
      rw [idText_plain E (by decide) (by decide) (by decide), List.cons_append] at h
      rcases readLiteral_idText_quote E h with ⟨rfl, hread⟩ | ⟨s', rfl, hread⟩
      · have hhead := (readLiteral_rest hrest hread).2
        cases m <;> simp [List.replicate_succ] at hhead
      · have hlag : List.replicate m '\'' ++ '\'' :: '\'' :: s' = List.replicate (m + 1 + 1) '\'' ++ s' := by
          rw [List.replicate_succ', List.replicate_succ']
          simp
        rw [hlag] at hread
        exact readLiteral_quotes_ahead s' (m + 1) hrest hread
    · obtain ⟨d, t, ht, hd⟩ := idText_head E hc s
      rw [ht, List.cons_append] at h
      obtain ⟨l', hl, -⟩ := readLiteral_head hd h
      exact hd (List.cons.inj hl).1.symm

/-- An id that reads as itself is plain. -/
theorem plain_of_readLiteral : ∀ {s rest r : Str}, rest.head? ≠ some '\'' →
    readLiteral (idText E s ++ '\'' :: rest) = some (s, r) → Plain s
  | [], _, _, _, _ => by simp [Plain]
  | c :: s, rest, r, hrest, h => by
    by_cases hquote : c = '\''
    · subst hquote
      rw [idText_plain E (by decide) (by decide) (by decide), List.cons_append] at h
      rcases readLiteral_idText_quote E h with ⟨rfl, hread⟩ | ⟨s', rfl, hread⟩
      · exact absurd rfl (readLiteral_rest hrest hread).1
      · exact absurd hread (readLiteral_quotes_ahead E s' 0 hrest)
    by_cases hesc : c = '"' ∨ c.toNat < 0x20
    · obtain ⟨t, ht⟩ := idText_escaped E hesc s
      rw [ht, List.cons_append] at h
      obtain ⟨l', hl, -⟩ := readLiteral_head (by decide) h
      obtain ⟨rfl, -⟩ := List.cons.inj hl
      rcases hesc with hesc | hesc <;> exact absurd hesc (by decide)
    obtain ⟨hq, hctl⟩ := not_or.mp hesc
    by_cases hb : c = '\\'
    · subst hb
      rw [idText_backslash, List.cons_append, List.cons_append] at h
      obtain ⟨l', hl, hread⟩ := readLiteral_head (by decide) h
      obtain ⟨-, rfl⟩ := List.cons.inj hl
      exact absurd hread (readLiteral_backslashes E s 0)
    · rw [idText_plain E hq hb (not_lt.mp hctl), List.cons_append] at h
      obtain ⟨l', hl, hread⟩ := readLiteral_head hquote h
      obtain ⟨-, rfl⟩ := List.cons.inj hl
      exact List.forall_mem_cons.mpr ⟨⟨hquote, hq, hb, not_lt.mp hctl⟩, plain_of_readLiteral hrest hread⟩

theorem idText_of_plain : ∀ {s : Str}, Plain s → idText E s = s
  | [], _ => rfl
  | c :: s, h => by
    obtain ⟨⟨-, hq, hb, hc⟩, hs⟩ := List.forall_mem_cons.mp h
    rw [idText_plain E hq hb hc, idText_of_plain hs]

/-- An id reads as itself exactly when it is plain, and then its literal ends where it was meant to. -/
theorem readLiteral_idText_iff {s rest r : Str} (hrest : rest.head? ≠ some '\'') :
    readLiteral (idText E s ++ '\'' :: rest) = some (s, r) ↔ Plain s ∧ r = rest := by
  refine ⟨?_, ?_⟩
  · intro h
    have hs := plain_of_readLiteral E hrest h
    have hquote : '\'' ∉ s := fun hm => (hs _ hm).1 rfl
    rw [idText_of_plain E hs, readLiteral_plain hquote hrest, Option.some.injEq, Prod.mk.injEq] at h
    exact ⟨hs, h.2.symm⟩
  · intro hparts
    obtain ⟨hs, rfl⟩ := hparts
    have hquote : '\'' ∉ s := fun hm => (hs _ hm).1 rfl
    rw [idText_of_plain E hs, readLiteral_plain hquote hrest]

/-- The same of an id as an item of a list. -/
theorem readItem_idText_iff {s rest r : Str} {c : Char} (hc : c ≠ '\'') :
    readItem ('\'' :: (idText E s ++ '\'' :: c :: rest)) = some (.text s, r) ↔ Plain s ∧ r = c :: rest := by
  have hrest : (c :: rest).head? ≠ some '\'' := by simpa using hc
  rw [readItem_quote, ← readLiteral_idText_iff E hrest]
  refine ⟨?_, ?_⟩
  · intro h
    rw [Option.map_eq_some_iff] at h
    obtain ⟨⟨l, r'⟩, hread, heq⟩ := h
    simp only [Prod.mk.injEq, Item.text.injEq] at heq
    obtain ⟨rfl, rfl⟩ := heq
    exact hread
  · intro h
    rw [h]
    rfl

theorem readItems_id_comma {n : Nat} {s rest r : Str} {items : List Item} :
    readItems (n + 1) ('\'' :: (idText E s ++ '\'' :: ',' :: rest)) = some (.text s :: items, r) ↔
      Plain s ∧ readItems n rest = some (items, r) := by
  rw [readItems_succ_iff]
  simp only [readItem_idText_iff E (show ',' ≠ '\'' by decide), List.cons.injEq, true_and]
  refine ⟨?_, ?_⟩
  · intro hcases
    rcases hcases with ⟨t, ⟨hs, rfl⟩, hread⟩ | ⟨⟨-, hc, -⟩, -⟩
    · exact ⟨hs, hread⟩
    · exact absurd hc (by decide)
  · intro hparts
    obtain ⟨hs, hread⟩ := hparts
    exact .inl ⟨rest, ⟨hs, rfl⟩, hread⟩

theorem readItems_id_close {n : Nat} {s rest r : Str} :
    readItems (n + 1) ('\'' :: (idText E s ++ '\'' :: ')' :: rest)) = some ([.text s], r) ↔ Plain s ∧ r = rest := by
  rw [readItems_succ_iff]
  simp only [readItem_idText_iff E (show ')' ≠ '\'' by decide), List.cons.injEq, true_and, and_true]
  refine ⟨?_, ?_⟩
  · intro hcases
    rcases hcases with ⟨t, ⟨-, hc, -⟩, -⟩ | h
    · exact absurd hc (by decide)
    · exact h
  · exact .inr

/-- The three ids at the end of the statement. -/
theorem readItems_ids_iff {p t e r : Str} :
    readItems 3 ('\'' :: (idText E p ++ '\'' :: ',' :: '\'' :: (idText E t ++ '\'' :: ',' :: '\'' ::
        (idText E e ++ '\'' :: ')' :: [])))) = some ([.text p, .text t, .text e], r) ↔
      Plain p ∧ Plain t ∧ Plain e ∧ r = [] := by
  rw [readItems_id_comma, readItems_id_comma, readItems_id_close]

end Literal

/-! ## The statement -/

/-- The columns after those of the features, and their items. -/
def fixedColumns : Str := "seconds_offset, ".toList ++ "timestamp, ".toList ++ "participant, ".toList ++
  "trial_id, ".toList ++ "experiment_id".toList ++ [')']

def fixedItems : List Item := [.word "seconds_offset".toList, .word "timestamp".toList,
  .word "participant".toList, .word "trial_id".toList, .word "experiment_id".toList]

theorem readItems_fixedColumns (k : Nat) (rest : Str) :
    readItems (k + 5) (fixedColumns ++ rest) = some (fixedItems, rest) := rfl

/-- The end of the statement, from the literal of the participant on. -/
def idsText (E : Json.Escape) (ids : Ids) : Str :=
  '\'' :: (idText E ids.participantId ++ '\'' :: ',' :: '\'' :: (idText E ids.trialId ++ '\'' :: ',' :: '\'' ::
    (idText E ids.experimentId ++ '\'' :: ')' :: [])))

section Query

variable {D : Doubles ν} {i : Insert} {ids : Ids} {utcTimestamp : Str}

/-- The parts of an INSERT that are not ids are words. -/
structure Insert.Words (i : Insert) : Prop where
  columns : ∀ c ∈ i.columns, IsWord c
  values : ∀ v ∈ i.values, IsWord v
  time : IsWord i.time
  length : i.values.length = i.columns.length

theorem word_not_quote {w : Str} (h : IsWord w) : '"' ∉ w := fun hm => absurd (h.2 _ hm) (by decide)

theorem words_not_quote {ws : List Str} (h : ∀ w ∈ ws, IsWord w) : '"' ∉ ws.flatMap (· ++ [',']) := by
  intro hm
  obtain ⟨w, hw, hq⟩ := List.mem_flatMap.mp hm
  rcases List.mem_append.mp hq with hq | hq
  · exact word_not_quote (h w hw) hq
  · exact absurd hq (by decide)

theorem query_eq (E : Json.Escape) (hw : i.Words) (hutc : '"' ∉ utcTimestamp)
    (hp : i.participant = E.quoted ids.participantId) (ht : i.trialId = E.quoted ids.trialId)
    (he : i.experimentId = E.quoted ids.experimentId) :
    i.query utcTimestamp = "INSERT INTO ".toList ++ "features".toList ++ " (".toList ++
      (i.columns.flatMap (· ++ [',']) ++ (fixedColumns ++ (" VALUES (".toList ++
        (i.values.flatMap (· ++ [',']) ++
          (i.time ++ ',' :: '\'' :: (utcTimestamp ++ '\'' :: ',' :: idsText E ids)))))) := by
  have hlit : replaceQuotes "INSERT INTO features (".toList =
      "INSERT INTO ".toList ++ "features".toList ++ " (".toList := rfl
  have hmid : replaceQuotes ") VALUES (".toList = [')'] ++ " VALUES (".toList := rfl
  have hfixed : replaceQuotes ("seconds_offset, ".toList ++ "timestamp, ".toList ++ "participant, ".toList ++
      "trial_id, ".toList ++ "experiment_id".toList) ++ [')'] = fixedColumns := rfl
  have hcomma : replaceQuotes ",".toList = [','] := rfl
  have hquote : replaceQuotes "'".toList = ['\''] := rfl
  have hclose : replaceQuotes ")".toList = [')'] := rfl
  have hcolumns : replaceQuotes (i.columns.flatMap (· ++ ",".toList)) = i.columns.flatMap (· ++ [',']) :=
    replaceQuotes_eq_self (words_not_quote hw.columns)
  have hvalues : replaceQuotes (i.values.flatMap (· ++ ",".toList)) = i.values.flatMap (· ++ [',']) :=
    replaceQuotes_eq_self (words_not_quote hw.values)
  simp only [Insert.query, Insert.columnString, Insert.valueString, hp, ht, he, replaceQuotes_append, hlit, hmid,
    hcomma, hquote, hclose, hcolumns, hvalues, replaceQuotes_quoted,
    replaceQuotes_eq_self (word_not_quote hw.time), replaceQuotes_eq_self hutc, ← hfixed]
  simp only [idsText, List.append_assoc, List.cons_append, List.nil_append]

theorem length_le_flatMap (ws : List Str) : ws.length ≤ (ws.flatMap (· ++ [','])).length := by
  induction ws with
  | nil => simp
  | cons w ws ih =>
    simp only [List.flatMap_cons, List.length_append, List.length_cons, List.length_nil]
    omega

/-- The statement reads as far as the literal of the participant. -/
theorem readInsert_query (E : Json.Escape) (hw : i.Words) (hutc : '"' ∉ utcTimestamp) (hutc' : '\'' ∉ utcTimestamp)
    (hp : i.participant = E.quoted ids.participantId) (ht : i.trialId = E.quoted ids.trialId)
    (he : i.experimentId = E.quoted ids.experimentId) :
    readInsert "features".toList (i.query utcTimestamp) =
      (readItems 3 (idsText E ids)).bind fun r =>
        if r.2 = [] ∧ r.1.length = 3 then
          some (i.columns.map .word ++ fixedItems,
            i.values.map .word ++ .word i.time :: .text utcTimestamp :: r.1)
        else none := by
  have hcolumns (k : Nat) (rest : Str) :
      readItems (k + 5 + i.columns.length) (i.columns.flatMap (· ++ [',']) ++ (fixedColumns ++ rest)) =
        some (i.columns.map .word ++ fixedItems, rest) := by
    rw [readItems_words hw.columns, readItems_fixedColumns]
    rfl
  have htime (rest : Str) : readItem (i.time ++ ',' :: rest) = some (.word i.time, ',' :: rest) :=
    readItem_word hw.time (by decide) rest
  have hutcItem (rest : Str) : readItem ('\'' :: (utcTimestamp ++ '\'' :: ',' :: rest)) =
      some (.text utcTimestamp, ',' :: rest) := by
    rw [readItem_quote, readLiteral_plain hutc' (by simp)]
    rfl
  have hvalues : readItems (5 + i.values.length) (i.values.flatMap (· ++ [',']) ++
        (i.time ++ ',' :: '\'' :: (utcTimestamp ++ '\'' :: ',' :: idsText E ids))) =
      (readItems 3 (idsText E ids)).map fun r =>
        (i.values.map .word ++ .word i.time :: .text utcTimestamp :: r.1, r.2) := by
    rw [readItems_words hw.values, readItems_comma (htime _), readItems_comma (hutcItem _), Option.map_map,
      Option.map_map]
    rfl
  have hlength : (i.columns.map Item.word ++ fixedItems).length = 5 + i.values.length := by
    simp only [List.length_append, List.length_map, fixedItems, List.length_cons, List.length_nil, hw.length]
    omega
  rw [query_eq E hw hutc hp ht he]
  generalize hrest : " VALUES (".toList ++ (i.values.flatMap (· ++ [',']) ++
    (i.time ++ ',' :: '\'' :: (utcTimestamp ++ '\'' :: ',' :: idsText E ids))) = rest
  obtain ⟨k, hk⟩ : ∃ k, (i.columns.flatMap (· ++ [',']) ++ (fixedColumns ++ rest)).length =
      k + 5 + i.columns.length := by
    have hle := length_le_flatMap i.columns
    have hfixed : 5 ≤ fixedColumns.length := by decide
    refine ⟨(i.columns.flatMap (· ++ [',']) ++ (fixedColumns ++ rest)).length - 5 - i.columns.length, ?_⟩
    simp only [List.length_append]
    omega
  simp only [readInsert, expect_append, Option.bind_eq_bind, Option.bind_some, hk, hcolumns]
  rw [← hrest, expect_append]
  simp only [Option.bind_some, hlength, hvalues]
  cases readItems 3 (idsText E ids) with
  | none => rfl
  | some r =>
    simp only [Option.map_some, Option.bind_some, List.length_append, List.length_map, List.length_cons]
    refine if_congr (and_congr_right fun _ => ?_) rfl rfl
    omega

end Query

theorem rowInsert_words {columnMap : ColumnMap} {features : List (Str × ν)} (D : Doubles ν) (time : ν) (ids : Ids)
    (hcolumns : ∀ p ∈ features, IsName (columnName columnMap p.1)) :
    (rowInsert D columnMap features time ids).Words := by
  refine ⟨?_, ?_, isWord_of_isNumeral (D.num_ne_nil time) (D.num_numeral time), by simp [rowInsert]⟩
  · intro c hc
    obtain ⟨p, hp, rfl⟩ := List.mem_map.mp hc
    exact (hcolumns p hp).isWord
  · intro v hv
    obtain ⟨p, -, rfl⟩ := List.mem_map.mp hv
    exact isWord_of_isNumeral (D.toString_ne_nil p.2) (D.toString_numeral p.2)

/-- **The ids in the statement denote the ids of the message exactly when all
three are plain**, whatever else the message holds. -/
theorem denotesIds_iff (D : Doubles ν) (columnMap : ColumnMap) {m : Json ν} {features : List (Str × ν)} {time : ν}
    {ids : Ids} (h : Holds m features time ids) (hcolumns : ∀ p ∈ features, IsName (columnName columnMap p.1))
    {utcTimestamp : Str} (hutc : '\'' ∉ utcTimestamp ∧ '"' ∉ utcTimestamp) :
    (∃ i columnMap', DBWrapper.publishChunk D columnMap m = .ok (i, columnMap') ∧
      DenotesIds (i.query utcTimestamp) ids) ↔
    Plain ids.participantId ∧ Plain ids.trialId ∧ Plain ids.experimentId := by
  obtain ⟨columnMap', hpub, -⟩ := publishChunk_holds (D := D) h columnMap
  have hquery := readInsert_query D.toEscape (rowInsert_words D time ids hcolumns) hutc.2 hutc.1 rfl rfl rfl
  refine ⟨?_, ?_⟩
  · intro hparts
    obtain ⟨i, columnMap'', hi, columns, values, hread⟩ := hparts
    rw [hpub, Except.ok.injEq, Prod.mk.injEq] at hi
    rw [← hi.1, hquery, Option.bind_eq_some_iff] at hread
    obtain ⟨⟨items, rest⟩, hitems, hread⟩ := hread
    split at hread
    · next hend =>
      rw [Option.some.injEq, Prod.mk.injEq] at hread
      have hvalues := hread.2
      rw [List.append_cons, List.append_cons] at hvalues
      have hids : items = [.text ids.participantId, .text ids.trialId, .text ids.experimentId] :=
        List.append_inj_right' hvalues hend.2
      rw [hids, idsText, readItems_ids_iff] at hitems
      exact ⟨hitems.1, hitems.2.1, hitems.2.2.1⟩
    · exact absurd hread (by simp)
  · intro hparts
    obtain ⟨hp, ht, he⟩ := hparts
    have hitems := (readItems_ids_iff D.toEscape).mpr ⟨hp, ht, he, rfl⟩
    rw [← idsText] at hitems
    refine ⟨_, _, hpub, (features.map fun p => columnName columnMap p.1).map .word ++
      [.word "seconds_offset".toList, .word "timestamp".toList],
      (features.map fun p => D.toString p.2).map .word ++ [.word (D.num time), .text utcTimestamp], ?_⟩
    rw [hquery, hitems, Option.bind_some, if_pos ⟨rfl, rfl⟩, fixedItems, List.append_assoc, List.append_assoc]
    rfl

/-- One feature under its own name. -/
def sampleColumnMap : ColumnMap := [("jitter".toList, "jitter".toList)]

theorem denotesIds_iff_jitter :
    (∃ i columnMap', DBWrapper.publishChunk DecimalPrinter.allDigits.doubles sampleColumnMap
        (completeMessage [("jitter".toList, ⟨15, 1⟩)] ⟨2, 2⟩ ⟨"P1".toList, "T".toList, "E".toList⟩) =
        .ok (i, columnMap') ∧
      DenotesIds (i.query "2020-01-01T00:00:00".toList) ⟨"P1".toList, "T".toList, "E".toList⟩) ↔
    Plain "P1".toList ∧ Plain "T".toList ∧ Plain "E".toList :=
  denotesIds_iff DecimalPrinter.allDigits.doubles sampleColumnMap (holds_completeMessage _ _ _)
    (fun p hp => by
      rw [List.mem_singleton.mp hp]
      unfold IsName
      decide +kernel)
    (by decide +kernel)

/-- A player named `O'Brien` makes a statement that is no INSERT. -/
theorem apostrophe_misquoted : ¬ ∀ (D : Doubles Decimal) (columnMap : ColumnMap) (m : Json Decimal)
    (features : List (Str × Decimal)) (time : Decimal) (ids : Ids) (utcTimestamp : Str),
    Holds m features time ids → (∀ p ∈ features, IsName (columnName columnMap p.1)) →
    '\'' ∉ utcTimestamp ∧ '"' ∉ utcTimestamp →
    ∃ i columnMap', DBWrapper.publishChunk D columnMap m = .ok (i, columnMap') ∧
      DenotesIds (i.query utcTimestamp) ids := by
  intro h
  obtain ⟨i, columnMap', hpub, columns, values, hread⟩ := h DecimalPrinter.allDigits.doubles sampleColumnMap _
    [("jitter".toList, ⟨15, 1⟩)] ⟨2, 2⟩ ⟨"O'Brien".toList, "T".toList, "E".toList⟩ "2020-01-01T00:00:00".toList
    (holds_completeMessage _ _ _) (fun p hp => by
      rw [List.mem_singleton.mp hp]
      unfold IsName
      decide +kernel) (by decide +kernel)
  obtain ⟨columnMap'', hrow, -⟩ := publishChunk_holds (D := DecimalPrinter.allDigits.doubles)
    (holds_completeMessage [("jitter".toList, ⟨15, 1⟩)] ⟨2, 2⟩ ⟨"O'Brien".toList, "T".toList, "E".toList⟩)
    sampleColumnMap
  rw [hrow, Except.ok.injEq, Prod.mk.injEq] at hpub
  rw [← hpub.1] at hread
  have hnone : readInsert "features".toList ((rowInsert DecimalPrinter.allDigits.doubles sampleColumnMap
      [("jitter".toList, ⟨15, 1⟩)] ⟨2, 2⟩ ⟨"O'Brien".toList, "T".toList, "E".toList⟩).query
        "2020-01-01T00:00:00".toList) = none := by
    decide +kernel
  exact absurd (hnone.symm.trans hread) (by simp)

end SpeechAnalyzer
