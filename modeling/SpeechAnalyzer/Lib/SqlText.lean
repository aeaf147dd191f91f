/-
The text of an SQL INSERT statement with one row: string literals (between
quotes, a doubled quote inside standing for one, a backslash for itself), words
(names and numbers), and lists of these in parentheses.
-/
import SpeechAnalyzer.Lib.Text
import Mathlib.Tactic.Common

namespace Lib.SqlText

/-- A value or a name in a list. -/
inductive Item
  | text (s : Str)
  | word (s : Str)
deriving DecidableEq, Repr

def isWordChar (c : Char) : Bool := c.isAlphanum || c = '_' || c = '-' || c = '+' || c = '.'

def IsWord (s : Str) : Prop := s ≠ [] ∧ ∀ c ∈ s, isWordChar c = true

/-- A name that needs no quotes. -/
def IsName (s : Str) : Prop :=
  s ≠ [] ∧ (∀ c ∈ s.head?, c.isDigit = false) ∧ ∀ c ∈ s, c.isAlphanum = true ∨ c = '_'

/-- A string literal after its opening quote, and what follows it. -/
def readLiteral : Str → Option (Str × Str)
  | [] => none
  | '\'' :: '\'' :: s => (readLiteral s).map fun r => ('\'' :: r.1, r.2)
  | '\'' :: s => some ([], s)
  | c :: s => (readLiteral s).map fun r => (c :: r.1, r.2)

/-- A literal or a word, after blanks. -/
def readItem (s : Str) : Option (Item × Str) :=
  match s.dropWhile (· = ' ') with
  | '\'' :: s => (readLiteral s).map fun r => (.text r.1, r.2)
  | s =>
    if s.takeWhile isWordChar = [] then none
    else some (.word (s.takeWhile isWordChar), s.dropWhile isWordChar)

/-- Items between commas up to a closing parenthesis, at most `n`. -/
def readItems : Nat → Str → Option (List Item × Str)
  | 0, _ => none
  | n + 1, s =>
    match readItem s with
    | some (i, ',' :: s) => (readItems n s).map fun r => (i :: r.1, r.2)
    | some (i, ')' :: s) => some ([i], s)
    | _ => none

/-- The text after `w`. -/
def expect (w s : Str) : Option Str := if w <+: s then some (s.drop w.length) else none

/-- The columns and values of a text that is one INSERT into the table, and
nothing more. -/
def readInsert (table s : Str) : Option (List Item × List Item) := do
  let s ← expect ("INSERT INTO ".toList ++ table ++ " (".toList) s
  let (columns, s) ← readItems s.length s
  let s ← expect " VALUES (".toList s
  let (values, s) ← readItems columns.length s
  if s = [] ∧ columns.length = values.length then some (columns, values) else none

/-! ## Reading what was put together -/

theorem expect_append (w s : Str) : expect w (w ++ s) = some s := by
  rw [expect, if_pos (List.prefix_append w s), List.drop_left]

theorem readLiteral_cons {c : Char} (h : c ≠ '\'') (s : Str) :
    readLiteral (c :: s) = (readLiteral s).map fun r => (c :: r.1, r.2) := by
  rw [readLiteral]
  · intro _ he
    exact absurd he h
  · exact h

theorem readLiteral_quote {s : Str} (h : s.head? ≠ some '\'') : readLiteral ('\'' :: s) = some ([], s) := by
  rw [readLiteral]
  rintro t rfl
  exact h rfl

theorem readLiteral_quotes (s : Str) :
    readLiteral ('\'' :: '\'' :: s) = (readLiteral s).map fun r => ('\'' :: r.1, r.2) := rfl

/-- A text without quotes reads as itself. -/
theorem readLiteral_plain : ∀ {s : Str}, '\'' ∉ s → ∀ {rest : Str}, rest.head? ≠ some '\'' →
    readLiteral (s ++ '\'' :: rest) = some (s, rest)
  | [], _, _, hrest => readLiteral_quote hrest
  | c :: s, h, rest, hrest => by
    obtain ⟨hc, hs⟩ := not_or.mp (fun he => h (List.mem_cons.mpr he))
    rw [List.cons_append, readLiteral_cons (Ne.symm hc), readLiteral_plain hs hrest]
    rfl

theorem IsName.isWord {s : Str} (h : IsName s) : IsWord s := by
  refine ⟨h.1, fun c hc => ?_⟩
  rcases h.2.2 c hc with h | h <;> simp [isWordChar, h]

theorem isWord_of_isNumeral {s : Str} (hne : s ≠ []) (h : IsNumeral s) : IsWord s := by
  refine ⟨hne, fun c hc => ?_⟩
  rcases h c hc with h | h | h | h <;> simp [isWordChar, h]

theorem isWordChar_ne {c : Char} (h : isWordChar c = true) : c ≠ ' ' ∧ c ≠ '\'' ∧ c ≠ ',' ∧ c ≠ ')' := by
  refine ⟨?_, ?_, ?_, ?_⟩ <;> rintro rfl <;> revert h <;> decide

theorem readItem_word {w : Str} (hw : IsWord w) {c : Char} (hc : isWordChar c = false) (rest : Str) :
    readItem (w ++ c :: rest) = some (.word w, c :: rest) := by
  obtain ⟨hne, hall⟩ := hw
  have htake : (w ++ c :: rest).takeWhile isWordChar = w := by
    rw [List.takeWhile_append_of_pos hall, List.takeWhile_cons_of_neg (by simp [hc]), List.append_nil]
  have hdrop : (w ++ c :: rest).dropWhile isWordChar = c :: rest := by
    rw [List.dropWhile_append_of_pos hall, List.dropWhile_cons_of_neg (by simp [hc])]
  cases w with
  | nil => exact absurd rfl hne
  | cons d w =>
    have hd := isWordChar_ne (hall d (by simp))
    rw [readItem, List.cons_append, List.dropWhile_cons_of_neg (by simp [hd.1])]
    rw [List.cons_append] at htake hdrop
    split
    · next s h =>
      exact absurd (List.cons.inj h).1 hd.2.1
    · rw [htake, hdrop, if_neg hne]

theorem readItem_quote (s : Str) : readItem ('\'' :: s) = (readLiteral s).map fun r => (.text r.1, r.2) := rfl

/-- How a list is read. -/
theorem readItems_succ_iff {n : Nat} {s r : Str} {i : Item} {items : List Item} :
    readItems (n + 1) s = some (i :: items, r) ↔
      (∃ t, readItem s = some (i, ',' :: t) ∧ readItems n t = some (items, r)) ∨
      (readItem s = some (i, ')' :: r) ∧ items = []) := by
  rw [readItems]
  refine ⟨?_, ?_⟩
  · intro h
    split at h
    · next j t hj =>
      rw [Option.map_eq_some_iff] at h
      obtain ⟨⟨items', r'⟩, hread, heq⟩ := h
      simp only [Prod.mk.injEq, List.cons.injEq] at heq
      obtain ⟨⟨rfl, rfl⟩, rfl⟩ := heq
      exact .inl ⟨t, hj, hread⟩
    · next j t hj =>
      simp only [Option.some.injEq, Prod.mk.injEq, List.cons.injEq] at h
      obtain ⟨⟨rfl, rfl⟩, rfl⟩ := h
      exact .inr ⟨hj, rfl⟩
    · exact absurd h (by simp)
  · intro hcases
    rcases hcases with ⟨t, hitem, hread⟩ | ⟨hitem, rfl⟩
    · simp only [hitem, hread, Option.map_some]
    · simp only [hitem]

theorem readItems_comma {s rest : Str} {i : Item} (h : readItem s = some (i, ',' :: rest)) (n : Nat) :
    readItems (n + 1) s = (readItems n rest).map fun r => (i :: r.1, r.2) := by
  simp only [readItems, h]

/-- A row of words, each with its comma. -/
theorem readItems_words {n : Nat} {rest : Str} : ∀ {ws : List Str}, (∀ w ∈ ws, IsWord w) →
    readItems (n + ws.length) (ws.flatMap (· ++ [',']) ++ rest) =
      (readItems n rest).map fun r => (ws.map .word ++ r.1, r.2)
  | [], _ => by simp
  | w :: ws, h => by
    have hw := readItem_word (h w (by simp)) (c := ',') (by decide) (ws.flatMap (· ++ [',']) ++ rest)
    have ih : readItems (n + ws.length) (ws.flatMap (· ++ [',']) ++ rest) = _ :=
      readItems_words fun w hw => h w (List.mem_cons_of_mem _ hw)
    rw [List.length_cons, ← Nat.add_assoc, List.flatMap_cons, List.append_assoc, List.append_assoc,
      List.singleton_append, readItems_comma hw, ih, Option.map_map]
    rfl

/-! ## Lists of any items -/

/-- `w` is read as an item of a list. -/
def Reads (w : Str) (i : Item) : Prop := ∀ c rest, c = ',' ∨ c = ')' → readItem (w ++ c :: rest) = some (i, c :: rest)

theorem reads_word {w : Str} (h : IsWord w) : Reads w (.word w) := by
  intro c rest hc
  rcases hc with rfl | rfl
  · exact readItem_word h (by decide) rest
  · exact readItem_word h (by decide) rest

theorem reads_literal {s : Str} (h : '\'' ∉ s) : Reads ('\'' :: (s ++ ['\''])) (.text s) := by
  intro c rest hc
  have hrest : (c :: rest).head? ≠ some '\'' := by
    rcases hc with rfl | rfl <;> simp
  rw [List.cons_append, List.append_assoc, List.singleton_append, readItem_quote, readLiteral_plain h hrest]
  rfl

/-- Items, each with its comma, and a last one with the parenthesis. -/
theorem readItems_reads {k : Nat} {w rest : Str} {i : Item} (hw : Reads w i) : ∀ {ps : List (Str × Item)},
    (∀ p ∈ ps, Reads p.1 p.2) →
      readItems (k + 1 + ps.length) (ps.flatMap (fun p => p.1 ++ [',']) ++ (w ++ ')' :: rest)) =
        some (ps.map Prod.snd ++ [i], rest)
  | [], _ => by
    simp only [List.length_nil, Nat.add_zero, List.flatMap_nil, List.nil_append, List.map_nil]
    exact readItems_succ_iff.mpr (.inr ⟨hw _ _ (.inr rfl), rfl⟩)
  | p :: ps, h => by
    obtain ⟨hp, hps⟩ := List.forall_mem_cons.mp h
    have hitem := hp ',' (ps.flatMap (fun p => p.1 ++ [',']) ++ (w ++ ')' :: rest)) (.inl rfl)
    have ih : readItems (k + 1 + ps.length) (ps.flatMap (fun p => p.1 ++ [',']) ++ (w ++ ')' :: rest)) = _ :=
      readItems_reads hw hps
    rw [List.length_cons, ← Nat.add_assoc, List.flatMap_cons, List.append_assoc, List.append_assoc,
      List.singleton_append, readItems_comma hitem, ih]
    rfl

/-- A list of words with nothing in one place is not read. -/
theorem readItems_empty {rest : Str} : ∀ {ws : List Str} (n : Nat), [] ∈ ws → (∀ w ∈ ws, IsWord w ∨ w = []) →
    readItems n (ws.flatMap (· ++ [',']) ++ rest) = none
  | _, 0, _, _ => rfl
  | w :: ws, n + 1, hmem, hws => by
    obtain ⟨hw, hws⟩ := List.forall_mem_cons.mp hws
    have htext : (w :: ws).flatMap (· ++ [',']) ++ rest = w ++ ',' :: (ws.flatMap (· ++ [',']) ++ rest) := by simp
    rw [htext]
    by_cases hnil : w = []
    · subst hnil
      rfl
    · have hword := hw.resolve_right hnil
      have hrest : [] ∈ ws := (List.mem_cons.mp hmem).resolve_left (Ne.symm hnil)
      rw [readItems_comma (readItem_word hword (by decide) _), readItems_empty n hrest hws]
      rfl

end Lib.SqlText
