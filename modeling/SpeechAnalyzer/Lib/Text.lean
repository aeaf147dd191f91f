/-
Text as lists of characters, and the character classes the modelled library
functions go by.
-/
import Mathlib.Data.Char

namespace Lib

/-- Text. Its order is the one of `std::string` on UTF-8. -/
abbrev Str := List Char

/-- A byte string. -/
abbrev Bytes := List UInt8

/-- What holds of every character of a text is checked along the text, and not
over all characters. -/
instance (priority := high) decidableForallChar {p : Char → Prop} [DecidablePred p] (s : Str) :
    Decidable (∀ c ∈ s, p c) := List.decidableBAll p s

instance (priority := high) decidableForallHead {p : Char → Prop} [DecidablePred p] (o : Option Char) :
    Decidable (∀ c ∈ o, p c) := Option.decidableForallMem o

/-- The bytes of an ASCII text. -/
def ascii (s : Str) : Bytes := s.map fun c => UInt8.ofNat c.toNat

/-- `std::isspace` in the classic locale. -/
def isSpace (c : Char) : Bool := c ∈ [' ', '\t', '\n', '\x0b', '\x0c', '\r']

/-- The characters of a printed number: letters, digits, signs and the point. -/
def IsNumeral (s : Str) : Prop := ∀ c ∈ s, c.isAlphanum = true ∨ c = '-' ∨ c = '+' ∨ c = '.'

/-! ## Words in texts -/

section Infix

variable {α : Type*} {w a b : List α} {c : α}

theorem prefix_of_prefix_append_cons (hc : c ∉ w) (h : w <+: a ++ c :: b) : w <+: a := by
  rcases List.prefix_or_prefix_of_prefix h (List.prefix_append a (c :: b)) with h' | ⟨w', rfl⟩
  · exact h'
  · rw [List.prefix_append_right_inj] at h
    cases w' with
    | nil =>
      exact ⟨[], by rw [List.append_nil, List.append_nil]⟩
    | cons d w' =>
      obtain ⟨rfl, -⟩ := List.cons_prefix_cons.mp h
      simp at hc

/-- A word without `c` does not reach over a `c`. -/
theorem infix_append_cons_iff (hc : c ∉ w) : w <:+: a ++ c :: b ↔ w <:+: a ∨ w <:+: b := by
  refine ⟨?_, ?_⟩
  · intro h
    induction a with
    | nil =>
      rcases List.infix_cons_iff.mp h with h | h
      · exact .inl (prefix_of_prefix_append_cons (a := []) hc h).isInfix
      · exact .inr h
    | cons x a ih =>
      rcases List.infix_cons_iff.mp h with h | h
      · exact .inl (prefix_of_prefix_append_cons (a := x :: a) hc h).isInfix
      · exact (ih h).imp_left fun h => List.infix_cons_iff.mpr (.inr h)
  · intro hcases
    rcases hcases with h | h
    · exact h.trans (List.prefix_append a (c :: b)).isInfix
    · exact h.trans ⟨a ++ [c], [], by simp⟩

end Infix

end Lib
