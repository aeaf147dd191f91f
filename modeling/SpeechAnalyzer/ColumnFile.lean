/-
`InitializeColumnMap` on a file of any text. The loop takes two words a round;
after an odd number of words the last round still has the second word of the
round before. A name may come in many rounds, and in both columns: the last
round that has it decides.
-/
import SpeechAnalyzer.ColumnMap

namespace SpeechAnalyzer

open Lib

/-- The words of a text, when `word` has been read of the first. -/
def wordsFrom (word : Str) : Str → List Str
  | [] => if word = [] then [] else [word]
  | c :: text =>
    if isSpace c then if word = [] then wordsFrom [] text else word :: wordsFrom [] text
    else wordsFrom (word ++ [c]) text

/-- The pairs the rounds store: `postgresFormat` is from the round before. -/
def rounds : Str → List Str → List (Str × Str)
  | _, o :: p :: words => (o, p) :: rounds p words
  | postgresFormat, [o] => [(o, postgresFormat)]
  | _, [] => []

/-- All of them for a text. Without a word there is one round, that stores the
empty names. -/
def storedPairs (text : Str) : List (Str × Str) :=
  if wordsFrom [] text = [] then [([], [])] else rounds [] (wordsFrom [] text)

/-- The other name of a pair. -/
def partner (k : Str) (p : Str × Str) : Option Str :=
  if k = p.2 then some p.1 else if k = p.1 then some p.2 else none

/-! ## The words -/

theorem layout_wordsFrom : ∀ {word : Str} (text : Str), (∀ c ∈ word, isSpace c = false) →
    IStream.Layout (wordsFrom word text) (word ++ text)
  | word, [], hword => by
    unfold wordsFrom
    split
    · next hnone =>
      rw [hnone]
      exact .blank (by simp)
    · next hsome => exact @IStream.Layout.word [] word [] [] (by simp) hsome hword (by simp) (.blank (by simp))
  | word, c :: text, hword => by
    unfold wordsFrom
    by_cases hc : isSpace c = true
    · have ih := @layout_wordsFrom [] text (by simp)
      rw [if_pos hc]
      split
      · next hnone =>
        rw [hnone]
        exact ih.cons_blank hc
      · next hsome =>
        exact @IStream.Layout.word [] word _ _ (by simp) hsome hword (by simp [hc]) (ih.cons_blank hc)
    · have hc : isSpace c = false := by simpa using hc
      have hlonger : ∀ d ∈ word ++ [c], isSpace d = false := by
        intro d hd
        rcases List.mem_append.mp hd with hd | hd
        · exact hword d hd
        · rw [List.mem_singleton.mp hd, hc]
      have ih := layout_wordsFrom text hlonger
      rw [List.append_assoc] at ih
      rw [if_neg (by simp [hc])]
      exact ih

/-! ## The rounds -/

/-- The loop over any words: as for words in pairs, and a last round for an odd
one. -/
theorem loadColumns_words : ∀ {words : List Str} {text : Str}, IStream.Layout words text →
    ∀ (o p : Str) (columnMap : ColumnMap), ∃ n,
      (loadColumns n { rest := text } o p columnMap = some ((rounds p words).foldl storePair columnMap) ∧ words ≠ []) ∨
      loadColumns n { rest := text } o p columnMap =
        some (storePair ((rounds p words).foldl storePair columnMap) ((rounds p words).getLast?.getD (o, p)))
  | [], text, h, o, p, columnMap => by
    cases h with
    | blank hblank =>
      refine ⟨2, .inr ?_⟩
      rw [loadColumns_round rfl (IStream.extract_blank rfl hblank o) (IStream.extract_of_not_good rfl p),
        loadColumns_end rfl]
      rfl
  | [o'], text, h, o, p, columnMap => by
    cases h with
    | @word _ _ rest _ hblanks hne hword hrest h =>
      have ho := IStream.extract_word (s := { rest := _ }) rfl rfl hblanks hne hword hrest o
      refine ⟨2, .inl ⟨?_, by simp⟩⟩
      by_cases hend : rest = []
      · -- The first extraction already came to the end.
        rw [if_pos hend] at ho
        rw [loadColumns_round rfl ho (IStream.extract_of_not_good rfl p), loadColumns_end rfl]
        rfl
      · cases h with
        | blank hblank =>
          rw [if_neg hend] at ho
          rw [loadColumns_round rfl ho (IStream.extract_blank rfl hblank p), loadColumns_end rfl]
          rfl
  | o' :: p' :: words, text, h, o, p, columnMap => by
    cases h with
    | word hblanks hne hword hrest h =>
      have ho := IStream.extract_word (s := { rest := _ }) rfl rfl hblanks hne hword hrest o
      rw [if_neg (h.ne_nil (by simp))] at ho
      cases h with
      | @word _ _ rest _ hblanks' hne' hword' hrest' h =>
        have hp := IStream.extract_word (s := { rest := _ }) rfl rfl hblanks' hne' hword' hrest' p
        by_cases hend : rest = []
        · have hwords : words = [] := by
            by_contra hwords
            exact h.ne_nil hwords hend
          rw [if_pos hend] at hp
          refine ⟨2, .inl ⟨?_, by simp⟩⟩
          rw [loadColumns_round rfl ho hp, loadColumns_end rfl, hwords]
          rfl
        · rw [if_neg hend] at hp
          obtain ⟨n, hn⟩ := loadColumns_words h o' p' (storePair columnMap (o', p'))
          refine ⟨n + 1, ?_⟩
          rw [loadColumns_round rfl ho hp, rounds, List.foldl_cons, List.getLast?_cons]
          rcases hn with ⟨hn, -⟩ | hn
          · exact .inl ⟨hn, by simp⟩
          · exact .inr hn

/-! ## The map -/

/-- The last round that has the name decides. -/
theorem lookup_foldl_storePair (k : Str) : ∀ (pairs : List (Str × Str)) (columnMap : ColumnMap),
    (pairs.foldl storePair columnMap).lookup k = (pairs.reverse.findSome? (partner k)).or (columnMap.lookup k)
  | [], _ => rfl
  | p :: pairs, columnMap => by
    rw [List.foldl_cons, lookup_foldl_storePair k pairs, lookup_storePair, List.reverse_cons, List.findSome?_append,
      Option.or_assoc]
    congr 1
    simp only [List.findSome?_singleton, partner]
    split
    · rfl
    · split
      · rfl
      · rfl

theorem rounds_ne_nil {p : Str} : ∀ {words : List Str}, words ≠ [] → rounds p words ≠ []
  | [], h => absurd rfl h
  | [_], _ => by simp [rounds]
  | _ :: _ :: _, _ => by simp [rounds]

/-- Storing the last pair again changes no answer. -/
theorem findSome?_again (k : Str) {pairs : List (Str × Str)} {q : Str × Str} (h : pairs.getLast? = some q) :
    (pairs ++ [q]).reverse.findSome? (partner k) = pairs.reverse.findSome? (partner k) := by
  obtain ⟨init, rfl⟩ := List.getLast?_eq_some_iff.mp h
  simp only [List.reverse_append, List.reverse_singleton, List.singleton_append, List.findSome?_cons]
  cases partner k q with
  | none => rfl
  | some v => rfl

/-- **The column map of any text.** The loop ends with one map: a name leads to
its partner in the last pair that has it, and no other name leads anywhere. -/
theorem columnMap_of_text (text : Str) : ∃ columnMap,
    (∀ m, InitializesColumnMap (.ofFile (.opened text false)) m ↔ m = columnMap) ∧ KeyMap.Sorted columnMap ∧
    ∀ k, columnMap.lookup k = (storedPairs text).reverse.findSome? (partner k) := by
  have hlookup (k : Str) (pairs : List (Str × Str)) :
      (pairs.foldl storePair []).lookup k = pairs.reverse.findSome? (partner k) := by
    rw [lookup_foldl_storePair]
    exact Option.or_none
  suffices hinit : ∃ columnMap, InitializesColumnMap (.ofFile (.opened text false)) columnMap ∧
      ∀ k, columnMap.lookup k = (storedPairs text).reverse.findSome? (partner k) by
    obtain ⟨columnMap, hinit, hk⟩ := hinit
    refine ⟨columnMap, fun m => ⟨fun hm => hm.unique hinit, fun hm => hm ▸ hinit⟩, ?_, hk⟩
    obtain ⟨n, hn⟩ := hinit
    exact loadColumns_sorted .nil hn
  obtain ⟨n, ⟨hn, hne⟩ | hn⟩ := loadColumns_words (@layout_wordsFrom [] text (by simp)) [] [] []
  · refine ⟨_, ⟨n, hn⟩, fun k => ?_⟩
    rw [storedPairs, if_neg hne, hlookup]
  · refine ⟨_, ⟨n, hn⟩, fun k => ?_⟩
    unfold storedPairs
    split
    · next hnone =>
      rw [hnone]
      exact hlookup k [([], [])]
    · next hne =>
      cases hlast : (rounds [] (wordsFrom [] text)).getLast? with
      | none => exact absurd (List.getLast?_eq_none_iff.mp hlast) (rounds_ne_nil hne)
      | some q =>
        have hagain := hlookup k (rounds [] (wordsFrom [] text) ++ [q])
        rw [List.foldl_append, findSome?_again k hlast] at hagain
        exact hagain

/-- An odd number of words. -/
example : storedPairs "F0 f0\njitter\n".toList =
    [("F0".toList, "f0".toList), ("jitter".toList, "f0".toList)] := by decide

end SpeechAnalyzer
