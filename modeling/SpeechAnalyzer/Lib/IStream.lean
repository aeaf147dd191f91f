/-
An input stream with its state bits, and the extraction of a word from it. An
extraction on a stream that is not good takes nothing from it, leaves the
string as it was, and sets the fail bit and no other. So a stream that is not
good, or whose characters end in a read error, is `Stuck`: no extraction gets
it to its end.
-/
import SpeechAnalyzer.Lib.Text
import Mathlib.Data.List.TakeWhile

namespace Lib

structure IStream where
  rest : Str
  /-- What comes after `rest` is a read error, not the end of the file. -/
  broken : Bool := false
  eof : Bool := false
  fail : Bool := false
  bad : Bool := false
deriving DecidableEq, Repr

namespace IStream

def good (s : IStream) : Bool := !s.eof && !s.fail && !s.bad

/-- A read at the end of the characters: `missing` when it found none. -/
def atEnd (s : IStream) (missing : Bool) : IStream :=
  if s.broken then { s with rest := [], fail := missing, bad := true }
  else { s with rest := [], fail := missing, eof := true }

/-- `s >> word`: the stream and the word after it. -/
def extract (s : IStream) (word : Str) : IStream × Str :=
  if s.good then
    match s.rest.dropWhile isSpace with
    | [] => (s.atEnd true, word)
    | c :: t =>
      let read := (c :: t).takeWhile fun c => !isSpace c
      match (c :: t).dropWhile fun c => !isSpace c with
      | [] => (s.atEnd false, read)
      | rest => ({ s with rest := rest }, read)
  else ({ s with fail := true }, word)

/-- The file of an `ifstream`: it cannot be opened, or it has these characters
(any bytes, of which only the blanks matter), and then its end or a read
error. -/
inductive File
  | unopened
  | opened (text : Str) (readError : Bool)
deriving DecidableEq, Repr

/-- The stream of a file when it has just been constructed. -/
def ofFile : File → IStream
  | .unopened => { rest := [], fail := true }
  | .opened text readError => { rest := text, broken := readError }

/-- The words of a text, whatever the blanks between them. -/
inductive Layout : List Str → Str → Prop
  | blank {blanks : Str} (h : ∀ c ∈ blanks, isSpace c = true) : Layout [] blanks
  | word {blanks word rest : Str} {words : List Str} (hblanks : ∀ c ∈ blanks, isSpace c = true)
    (hne : word ≠ []) (hword : ∀ c ∈ word, isSpace c = false) (hrest : ∀ c ∈ rest.head?, isSpace c = true)
    (h : Layout words rest) : Layout (word :: words) (blanks ++ (word ++ rest))

theorem Layout.cons_blank {c : Char} {words : List Str} {text : Str} (h : Layout words text) (hc : isSpace c = true) :
    Layout words (c :: text) := by
  cases h with
  | blank h => exact .blank (List.forall_mem_cons.mpr ⟨hc, h⟩)
  | @word blanks _ _ _ hblanks hne hword hrest h =>
    exact @word (c :: blanks) _ _ _ (List.forall_mem_cons.mpr ⟨hc, hblanks⟩) hne hword hrest h

/-- A text with words in it is not empty. -/
theorem Layout.ne_nil {words : List Str} {text : Str} (h : Layout words text) (hne : words ≠ []) : text ≠ [] := by
  cases h with
  | blank _ => exact absurd rfl hne
  | word _ hword _ _ _ =>
    intro he
    exact hword (List.append_eq_nil_iff.mp (List.append_eq_nil_iff.mp he).2).1

theorem extract_of_not_good {s : IStream} (h : s.good = false) (word : Str) :
    s.extract word = ({ s with fail := true }, word) := by
  rw [extract, h]
  rfl

theorem extract_blank {s : IStream} (hgood : s.good = true) (hrest : ∀ c ∈ s.rest, isSpace c = true) (word : Str) :
    s.extract word = (s.atEnd true, word) := by
  have hdrop : s.rest.dropWhile isSpace = [] := List.dropWhile_eq_nil_iff.mpr hrest
  rw [extract, if_pos hgood, hdrop]

theorem extract_word {s : IStream} (hgood : s.good = true) {blanks read rest : Str}
    (hs : s.rest = blanks ++ (read ++ rest)) (hblanks : ∀ c ∈ blanks, isSpace c = true) (hne : read ≠ [])
    (hread : ∀ c ∈ read, isSpace c = false) (hrest : ∀ c ∈ rest.head?, isSpace c = true) (word : Str) :
    s.extract word = (if rest = [] then s.atEnd false else { s with rest := rest }, read) := by
  have htake : (read ++ rest).takeWhile (fun c => !isSpace c) = read ∧
      (read ++ rest).dropWhile (fun c => !isSpace c) = rest := by
    rw [List.takeWhile_append_of_pos fun c hc => by simp [hread c hc],
      List.dropWhile_append_of_pos fun c hc => by simp [hread c hc]]
    cases rest with
    | nil => simp
    | cons c rest =>
      have hc : isSpace c = true := hrest c rfl
      simp [hc]
  obtain ⟨c, t, rfl⟩ := List.exists_cons_of_ne_nil hne
  have hc : isSpace c = false := hread c (by simp)
  have hdrop : s.rest.dropWhile isSpace = c :: (t ++ rest) := by
    rw [hs, List.dropWhile_append_of_pos hblanks, List.cons_append, List.dropWhile_cons_of_neg (by simp [hc])]
  rw [extract, if_pos hgood, hdrop]
  rw [List.cons_append] at htake
  simp only [htake.1, htake.2]
  cases rest with
  | nil => rfl
  | cons d rest => rfl

/-! ## What an extraction can do -/

/-- It is refused, it comes to the end of the characters, or it leaves a part of
them. -/
theorem extract_cases (s : IStream) (word : Str) :
    (s.good = false ∧ (s.extract word).1 = { s with fail := true }) ∨
    (s.good = true ∧ ∃ missing, (s.extract word).1 = s.atEnd missing) ∨
    (s.good = true ∧ ∃ rest, rest.length < s.rest.length ∧ (s.extract word).1 = { s with rest := rest }) := by
  cases hgood : s.good with
  | false => exact .inl ⟨rfl, by rw [extract_of_not_good hgood]⟩
  | true =>
    refine .inr ?_
    unfold extract
    rw [if_pos hgood]
    cases hdrop : s.rest.dropWhile isSpace with
    | nil => exact .inl ⟨rfl, true, rfl⟩
    | cons c t =>
      have hc : isSpace c = false := by
        have hhead := List.head?_dropWhile_not isSpace s.rest
        rw [hdrop] at hhead
        simpa using hhead
      have htext : (c :: t).length ≤ s.rest.length := hdrop ▸ (List.dropWhile_sublist _).length_le
      cases hrest : (c :: t).dropWhile fun c => !isSpace c with
      | nil => exact .inl ⟨rfl, false, by simp only [hrest]⟩
      | cons d rest =>
        refine .inr ⟨rfl, d :: rest, ?_, by simp only [hrest]⟩
        -- The word has at least the character `c`.
        rw [List.dropWhile_cons_of_pos (by simp [hc])] at hrest
        have hshort : (d :: rest).length ≤ t.length := hrest ▸ (List.dropWhile_sublist _).length_le
        exact lt_of_lt_of_le (Nat.lt_succ_of_le hshort) htext

/-- The end of the file is not reached, and no extraction will get there. -/
def Stuck (s : IStream) : Prop := s.eof = false ∧ (s.good = false ∨ s.broken = true)

theorem Stuck.extract {s : IStream} (h : s.Stuck) (word : Str) : (s.extract word).1.Stuck := by
  obtain ⟨heof, hstuck⟩ := h
  rcases s.extract_cases word with ⟨hgood, heq⟩ | ⟨hgood, missing, heq⟩ | ⟨hgood, rest, -, heq⟩
  · rw [heq]
    exact ⟨heof, .inl (by simp [good])⟩
  · have hbroken : s.broken = true := hstuck.resolve_left (by simp [hgood])
    rw [heq, atEnd, if_pos hbroken]
    exact ⟨heof, .inl (by simp [good])⟩
  · rw [heq]
    exact ⟨heof, .inr (hstuck.resolve_left (by simp [hgood]))⟩

theorem eof_extract {s : IStream} (h : s.eof = true) (word : Str) : (s.extract word).1.eof = true := by
  have hgood : s.good = false := by simp [good, h]
  rw [extract_of_not_good hgood]
  exact h

/-- The stream is at its end, or good with at most `n` characters before it. -/
def Within (n : Nat) (s : IStream) : Prop :=
  s.eof = true ∨ (s.good = true ∧ s.broken = false ∧ s.rest.length ≤ n)

theorem Within.mono {m n : Nat} {s : IStream} (h : s.Within m) (hle : m ≤ n) : s.Within n :=
  h.imp_right fun hparts => ⟨hparts.1, hparts.2.1, hparts.2.2.trans hle⟩

/-- An extraction comes closer to the end. -/
theorem Within.extract {n : Nat} {s : IStream} (h : s.Within n) (word : Str) : (s.extract word).1.Within (n - 1) := by
  rcases h with heof | ⟨hgood, hbroken, hlength⟩
  · exact .inl (eof_extract heof word)
  rcases s.extract_cases word with ⟨hbad, -⟩ | ⟨-, missing, heq⟩ | ⟨-, rest, hshort, heq⟩
  · rw [hgood] at hbad
    cases hbad
  · rw [heq, atEnd, hbroken]
    exact .inl rfl
  · rw [heq]
    exact .inr ⟨hgood, hbroken, by simp only; omega⟩

/-- Without characters left, an extraction gets to the end. -/
theorem Within.extract_zero {s : IStream} (h : s.Within 0) (word : Str) : (s.extract word).1.eof = true := by
  rcases h with heof | ⟨hgood, hbroken, hlength⟩
  · exact eof_extract heof word
  · have hrest : s.rest = [] := List.length_eq_zero_iff.mp (Nat.le_zero.mp hlength)
    rw [extract_blank hgood (by simp [hrest]), atEnd, hbroken]
    rfl

/-- Every stream is stuck or within reach of its end. -/
theorem not_stuck_iff {s : IStream} : ¬ s.Stuck ↔ s.Within s.rest.length := by
  unfold Stuck Within
  cases s.eof <;> cases s.good <;> cases s.broken <;> simp

theorem stuck_ofFile {file : File} : (ofFile file).Stuck ↔ ¬ ∃ text, file = .opened text false := by
  cases file with
  | unopened => exact ⟨fun _ h => by simp at h, fun _ => ⟨rfl, .inl rfl⟩⟩
  | opened text readError =>
    cases readError with
    | false => exact ⟨fun h => absurd h.2 (by simp [ofFile, good]), fun h => absurd ⟨text, rfl⟩ h⟩
    | true => exact ⟨fun _ h => by simp at h, fun _ => ⟨rfl, .inr rfl⟩⟩

end IStream

end Lib
