/-
A queue offered item by item: the first item again and again until an answer
takes it, then the next one, while there are items and answers.
-/
import Mathlib.Data.List.Basic

namespace Lib

variable {β ρ : Type*} (takes : ρ → Bool)

/-- The offers, each with its answer. -/
def offers : List β → List ρ → List (β × ρ)
  | [], _ => []
  | _ :: _, [] => []
  | b :: bs, r :: rs => (b, r) :: if takes r then offers bs rs else offers (b :: bs) rs

/-- As many items are gone as there were answers that took one. -/
theorem getElem?_offers : ∀ (bs : List β) (rs : List ρ) (i : ℕ),
    (offers takes bs rs)[i]? = rs[i]?.bind fun r => bs[(rs.take i).countP takes]?.map fun b => (b, r)
  | [], rs, i => by
    cases rs[i]? with
    | none => simp [offers]
    | some r => simp [offers]
  | b :: bs, [], i => by simp [offers]
  | b :: bs, r :: rs, 0 => by simp [offers]
  | b :: bs, r :: rs, i + 1 => by
    rw [offers, List.getElem?_cons_succ, List.getElem?_cons_succ, List.take_succ_cons, List.countP_cons]
    split
    · next htakes => rw [getElem?_offers bs rs i, List.getElem?_cons_succ]
    · next htakes => rw [getElem?_offers (b :: bs) rs i, Nat.add_zero]

/-- What is taken is the start of the queue. -/
theorem taken_offers : ∀ (bs : List β) (rs : List ρ),
    ((offers takes bs rs).filter fun p => takes p.2).map Prod.fst = bs.take (rs.countP takes)
  | [], _ => by simp [offers]
  | b :: bs, [] => by simp [offers]
  | b :: bs, r :: rs => by
    by_cases htakes : takes r = true
    · have ih := taken_offers bs rs
      simp only [offers, htakes, if_true, List.filter_cons_of_pos, List.map_cons, ih, List.countP_cons_of_pos,
        List.take_succ_cons]
    · have ih := taken_offers (b :: bs) rs
      simp only [offers, htakes, Bool.false_eq_true, if_false, List.filter_cons_of_neg, not_false_eq_true, ih,
        List.countP_cons_of_neg]

end Lib
