/-
A counter along a list: some elements put it back to zero, others add one to
it. It has been over a limit exactly when some part of the list without a
reset counts more than the limit.
-/
import Mathlib.Data.List.Infix
import Mathlib.Data.Nat.Notation

namespace Lib.Tally

variable {α : Type*} (resets counts : α → Bool)

/-- The counter after the list. -/
def tally (xs : List α) : ℕ := xs.foldl (fun n x => if resets x then 0 else if counts x then n + 1 else n) 0

/-- A part of the list without a reset counts more than `limit`. -/
def Exceeds (limit : ℕ) (xs : List α) : Prop :=
  ∃ part, part <:+: xs ∧ (∀ x ∈ part, resets x = false) ∧ limit < part.countP counts

variable {resets counts} {limit : ℕ} {xs : List α}

theorem tally_concat (xs : List α) (x : α) : tally resets counts (xs ++ [x]) =
    if resets x then 0 else if counts x then tally resets counts xs + 1 else tally resets counts xs := by
  rw [tally, List.foldl_concat, ← tally]

/-- The counter counts what came since the last reset. -/
theorem exists_countP_eq_tally (xs : List α) : ∃ part, part <:+ xs ∧ (∀ x ∈ part, resets x = false) ∧
    part.countP counts = tally resets counts xs := by
  induction xs using List.reverseRecOn with
  | nil => exact ⟨[], List.suffix_rfl, by simp, rfl⟩
  | append_singleton xs x ih =>
    rw [tally_concat]
    cases hresets : resets x with
    | true => exact ⟨[], List.nil_suffix, by simp, rfl⟩
    | false =>
      obtain ⟨part, ⟨before, happend⟩, hpart, hcount⟩ := ih
      refine ⟨part ++ [x], ⟨before, by rw [← happend, List.append_assoc]⟩, ?_, ?_⟩
      · intro y hy
        rcases List.mem_append.mp hy with hy | hy
        · exact hpart y hy
        · rw [List.mem_singleton.mp hy, hresets]
      · rw [List.countP_append, hcount, List.countP_singleton]
        split
        · rfl
        · rfl

/-- It counts no less than any part since then. -/
theorem countP_le_tally {part : List α} (hsuffix : part <:+ xs) (hpart : ∀ x ∈ part, resets x = false) :
    part.countP counts ≤ tally resets counts xs := by
  induction xs using List.reverseRecOn generalizing part with
  | nil =>
    rw [List.suffix_nil.mp hsuffix]
    exact Nat.zero_le _
  | append_singleton xs x ih =>
    rcases List.suffix_concat_iff.mp hsuffix with rfl | ⟨front, rfl, hfront⟩
    · exact Nat.zero_le _
    · have hx : resets x = false := hpart x (by simp)
      have hcount := ih hfront fun y hy => hpart y (List.mem_append_left _ hy)
      rw [tally_concat, hx, List.countP_append, List.countP_singleton]
      split
      · simpa using hcount
      · exact hcount

theorem lt_tally_iff : limit < tally resets counts xs ↔
    ∃ part, part <:+ xs ∧ (∀ x ∈ part, resets x = false) ∧ limit < part.countP counts := by
  refine ⟨?_, ?_⟩
  · intro h
    obtain ⟨part, hsuffix, hpart, hcount⟩ := @exists_countP_eq_tally _ resets counts xs
    exact ⟨part, hsuffix, hpart, hcount ▸ h⟩
  · intro hparts
    obtain ⟨part, hsuffix, hpart, hcount⟩ := hparts
    exact lt_of_lt_of_le hcount (countP_le_tally hsuffix hpart)

theorem exceeds_iff : Exceeds resets counts limit xs ↔ ∃ done, done <+: xs ∧ limit < tally resets counts done := by
  simp only [Exceeds, lt_tally_iff, List.infix_iff_suffix_prefix]
  refine ⟨?_, ?_⟩
  · intro hparts
    obtain ⟨part, ⟨done, hsuffix, hdone⟩, hpart⟩ := hparts
    exact ⟨done, hdone, part, hsuffix, hpart⟩
  · intro hparts
    obtain ⟨done, hdone, part, hsuffix, hpart⟩ := hparts
    exact ⟨part, ⟨done, hsuffix, hdone⟩, hpart⟩

instance : Decidable (Exceeds resets counts limit xs) :=
  decidable_of_iff (∃ done ∈ xs.inits, limit < tally resets counts done)
    (exceeds_iff.trans (by simp only [List.mem_inits])).symm

theorem not_exceeds_nil : ¬ Exceeds resets counts limit [] := by
  rw [exceeds_iff]
  simp [tally]

/-- One more element exceeds the limit if the counter is over it now or the list did before. -/
theorem exceeds_concat {x : α} : Exceeds resets counts limit (xs ++ [x]) ↔
    limit < tally resets counts (xs ++ [x]) ∨ Exceeds resets counts limit xs := by
  simp only [exceeds_iff, List.prefix_concat_iff, or_and_right, exists_or, exists_eq_left]

/-- What exceeds the limit with more resets does with fewer. -/
theorem Exceeds.of_resets {resets' : α → Bool} (h : Exceeds resets counts limit xs)
    (hsub : ∀ x, resets x = false → resets' x = false) : Exceeds resets' counts limit xs := by
  obtain ⟨part, hinfix, hpart, hcount⟩ := h
  exact ⟨part, hinfix, fun x hx => hsub x (hpart x hx), hcount⟩

end Lib.Tally
