/-
When two objects of lists have the same text: lists of numbers under the same
keys are told apart by the numbers' texts and by nothing else.
-/
import SpeechAnalyzer.Lib.JsonPath

namespace Lib

theorem isNumeral_cons {c : Char} {s : Str} : IsNumeral (c :: s) ↔ IsNumeral [c] ∧ IsNumeral s := by
  simp [IsNumeral]

/-- A numeral ends where another character stands. -/
theorem IsNumeral.append_inj : ∀ {s t u v : Str} {c d : Char}, IsNumeral s → IsNumeral t → ¬ IsNumeral [c] →
    ¬ IsNumeral [d] → s ++ c :: u = t ++ d :: v → s = t ∧ c :: u = d :: v
  | [], [], _, _, _, _, _, _, _, _, h => ⟨rfl, h⟩
  | [], b :: t, _, _, c, _, _, ht, hc, _, h => by
    rw [(List.cons.inj h).1] at hc
    exact absurd (isNumeral_cons.mp ht).1 hc
  | a :: s, [], _, _, _, d, hs, _, _, hd, h => by
    rw [← (List.cons.inj h).1] at hd
    exact absurd (isNumeral_cons.mp hs).1 hd
  | a :: s, b :: t, u, v, c, d, hs, ht, hc, hd, h => by
    obtain ⟨hab, htail⟩ := List.cons.inj h
    obtain ⟨hst, hrest⟩ := (isNumeral_cons.mp hs).2.append_inj (isNumeral_cons.mp ht).2 hc hd htail
    exact ⟨by rw [hab, hst], hrest⟩

namespace Json

variable {ν : Type} {P : Printer ν}

/-- The text of numbers, after the first. -/
def moreNumbers (P : Printer ν) (xs : List ν) : Str := xs.flatMap fun x => ',' :: P.num x

theorem dumpElements_cons_num (x : ν) (xs : List ν) :
    dumpElements P ((x :: xs).map num) = P.num x ++ moreNumbers P xs := by
  induction xs generalizing x with
  | nil => simp [dumpElements, dump_num, moreNumbers]
  | cons y xs ih =>
    simp only [List.map_cons] at ih ⊢
    simp only [dumpElements, dump_num, ih, moreNumbers, List.flatMap_cons, List.cons_append]

theorem not_isNumeral_comma : ¬ IsNumeral [','] := by
  unfold IsNumeral
  decide

theorem not_isNumeral_bracket : ¬ IsNumeral [']'] := by
  unfold IsNumeral
  decide

/-- After a number of a list comes a comma or the bracket. -/
theorem moreNumbers_head (xs : List ν) (u : Str) :
    ∃ c w, moreNumbers P xs ++ ']' :: u = c :: w ∧ ¬ IsNumeral [c] := by
  cases xs with
  | nil => exact ⟨']', u, rfl, not_isNumeral_bracket⟩
  | cons x xs => exact ⟨',', _, rfl, not_isNumeral_comma⟩

theorem num_append_inj {x y : ν} {xs ys : List ν} {u v : Str}
    (h : P.num x ++ (moreNumbers P xs ++ ']' :: u) = P.num y ++ (moreNumbers P ys ++ ']' :: v)) :
    P.num x = P.num y ∧ moreNumbers P xs ++ ']' :: u = moreNumbers P ys ++ ']' :: v := by
  obtain ⟨c, w, hx, hc⟩ := moreNumbers_head (P := P) xs u
  obtain ⟨d, w', hy, hd⟩ := moreNumbers_head (P := P) ys v
  rw [hx, hy] at h ⊢
  exact (P.num_numeral x).append_inj (P.num_numeral y) hc hd h

theorem moreNumbers_inj : ∀ {xs ys : List ν} {u v : Str},
    moreNumbers P xs ++ ']' :: u = moreNumbers P ys ++ ']' :: v → xs.map P.num = ys.map P.num ∧ u = v
  | [], [], _, _, h => ⟨rfl, (List.cons.inj h).2⟩
  | [], _ :: _, _, _, h => absurd (List.cons.inj h).1 (by decide)
  | _ :: _, [], _, _, h => absurd (List.cons.inj h).1 (by decide)
  | x :: xs, y :: ys, u, v, h => by
    have htail : P.num x ++ (moreNumbers P xs ++ ']' :: u) = P.num y ++ (moreNumbers P ys ++ ']' :: v) := by
      simpa [moreNumbers] using h
    obtain ⟨hnum, hrest⟩ := num_append_inj htail
    obtain ⟨hmap, huv⟩ := moreNumbers_inj hrest
    exact ⟨by rw [List.map_cons, List.map_cons, hnum, hmap], huv⟩

/-- Two lists of numbers with one text: their numbers have the same texts. -/
theorem dumpElements_num_inj {xs ys : List ν} {u v : Str} (hxs : xs ≠ []) (hys : ys ≠ [])
    (h : dumpElements P (xs.map num) ++ ']' :: u = dumpElements P (ys.map num) ++ ']' :: v) :
    xs.map P.num = ys.map P.num ∧ u = v := by
  obtain ⟨x, xs, rfl⟩ := List.exists_cons_of_ne_nil hxs
  obtain ⟨y, ys, rfl⟩ := List.exists_cons_of_ne_nil hys
  rw [dumpElements_cons_num, dumpElements_cons_num, List.append_assoc, List.append_assoc] at h
  obtain ⟨hnum, hrest⟩ := num_append_inj h
  obtain ⟨hmap, huv⟩ := moreNumbers_inj hrest
  exact ⟨by rw [List.map_cons, List.map_cons, hnum, hmap], huv⟩

/-- The members of an object of lists of numbers. -/
def numberLists (keys : List Str) (f : Str → List ν) : List (Str × Json ν) :=
  keys.map fun k => (k, arr ((f k).map num))

variable {f g : Str → List ν}

theorem dumpMembers_num_inj (hf : ∀ k, f k ≠ []) (hg : ∀ k, g k ≠ []) : ∀ {keys : List Str} {u v : Str},
    dumpMembers P (numberLists keys f) ++ '}' :: u = dumpMembers P (numberLists keys g) ++ '}' :: v →
      ∀ k ∈ keys, (f k).map P.num = (g k).map P.num
  | [], _, _, _ => by simp
  | [key], u, v, h => by
    have htail : dumpElements P ((f key).map num) ++ ']' :: '}' :: u =
        dumpElements P ((g key).map num) ++ ']' :: '}' :: v := by
      simpa [numberLists, dumpMembers, dump_arr] using h
    simpa using (dumpElements_num_inj (hf key) (hg key) htail).1
  | key :: key' :: keys, u, v, h => by
    have htail : dumpElements P ((f key).map num) ++ ']' :: ',' ::
          (dumpMembers P (numberLists (key' :: keys) f) ++ '}' :: u) =
        dumpElements P ((g key).map num) ++ ']' :: ',' ::
          (dumpMembers P (numberLists (key' :: keys) g) ++ '}' :: v) := by
      simpa [numberLists, dumpMembers, dump_arr] using h
    obtain ⟨hkey, hrest⟩ := dumpElements_num_inj (hf key) (hg key) htail
    exact List.forall_mem_cons.mpr ⟨hkey, dumpMembers_num_inj hf hg (List.cons.inj hrest).2⟩

/-! ## The other way -/

theorem dumpElements_num_congr {xs ys : List ν} (h : xs.map P.num = ys.map P.num) :
    dumpElements P (xs.map num) = dumpElements P (ys.map num) := by
  have hmore {xs : List ν} : moreNumbers P xs = (xs.map P.num).flatMap fun text => ',' :: text := by
    rw [List.flatMap_map, moreNumbers]
  cases xs with
  | nil =>
    cases ys with
    | nil => rfl
    | cons y ys => cases h
  | cons x xs =>
    cases ys with
    | nil => cases h
    | cons y ys =>
      obtain ⟨hnum, hmap⟩ := List.cons.inj h
      rw [dumpElements_cons_num, dumpElements_cons_num, hmore, hmore, hnum, hmap]

theorem dumpMembers_num_congr : ∀ {keys : List Str}, (∀ k ∈ keys, (f k).map P.num = (g k).map P.num) →
    dumpMembers P (numberLists keys f) = dumpMembers P (numberLists keys g)
  | [], _ => rfl
  | [key], h => by
    simp [numberLists, dumpMembers, dump_arr, dumpElements_num_congr (h key (by simp))]
  | key :: key' :: keys, h => by
    obtain ⟨hkey, hrest⟩ := List.forall_mem_cons.mp h
    have ih := dumpMembers_num_congr hrest
    simp only [numberLists, List.map_cons] at ih ⊢
    simp only [dumpMembers, dump_arr, dumpElements_num_congr hkey, ih]

/-- **Objects of lists of numbers have one text exactly when their numbers have.** -/
theorem dump_numberLists_iff {keys : List Str} (hf : ∀ k, f k ≠ []) (hg : ∀ k, g k ≠ []) :
    dump P (ofFields (numberLists keys f)) = dump P (ofFields (numberLists keys g)) ↔
      ∀ k ∈ keys, (f k).map P.num = (g k).map P.num := by
  cases keys with
  | nil => simp [numberLists]
  | cons key keys =>
    have hdump (f : Str → List ν) : dump P (ofFields (numberLists (key :: keys) f)) =
        '{' :: (dumpMembers P (numberLists (key :: keys) f) ++ ['}']) := by
      rw [numberLists, List.map_cons, ofFields, dump_obj]
      rfl
    rw [hdump, hdump]
    refine ⟨fun h => dumpMembers_num_inj hf hg (List.cons.inj h).2, fun h => ?_⟩
    rw [dumpMembers_num_congr h]

end Json

end Lib
