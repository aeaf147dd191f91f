/-
Maps as association lists kept in increasing key order, the way an ordered
map iterates: `put` overwrites the entry of its key or puts a new one at its
place, so iteration order depends on the keys alone and two maps with the
same answers are the same list (`Sorted.ext`).
-/
import Mathlib.Data.List.Lex
import Mathlib.Order.Lattice

namespace Lib.KeyMap

variable {κ V : Type*} [LinearOrder κ]

/-- Set the value at `k`. -/
def put (k : κ) (v : V) : List (κ × V) → List (κ × V)
  | [] => [(k, v)]
  | (k', v') :: l =>
    if k = k' then (k, v) :: l
    else if k < k' then (k, v) :: (k', v') :: l
    else (k', v') :: put k v l

/-- The map a list of assignments leaves, the later ones winning. -/
def putAll (kvs : List (κ × V)) (l : List (κ × V)) : List (κ × V) :=
  kvs.foldl (fun l p => put p.1 p.2 l) l

/-- Keys strictly increasing. -/
def Sorted (l : List (κ × V)) : Prop := l.Pairwise fun a b => a.1 < b.1

theorem Sorted.nil : Sorted ([] : List (κ × V)) := List.Pairwise.nil

theorem mem_put {k : κ} {v : V} : ∀ {l : List (κ × V)} {p : κ × V},
    p ∈ put k v l → p = (k, v) ∨ p ∈ l
  | [], p, h => by simpa [put] using h
  | (a, b) :: l, p, h => by
    simp only [put] at h
    split at h
    · simp only [List.mem_cons] at h ⊢
      rcases h with h | h
      · exact .inl h
      · exact .inr (.inr h)
    split at h
    · simpa using h
    · simp only [List.mem_cons] at h ⊢
      rcases h with h | h
      · exact .inr (.inl h)
      · rcases mem_put h with h | h
        · exact .inl h
        · exact .inr (.inr h)

theorem Sorted.put {k : κ} {v : V} : ∀ {l : List (κ × V)}, Sorted l → Sorted (put k v l)
  | [], _ => by simp [KeyMap.put, Sorted]
  | (a, b) :: l, h => by
    have hd : ∀ p ∈ l, a < p.1 := (List.pairwise_cons.mp h).1
    have ht : Sorted l := (List.pairwise_cons.mp h).2
    simp only [KeyMap.put]
    split
    · next hka => subst hka; exact List.pairwise_cons.mpr ⟨hd, ht⟩
    split
    · next hlt =>
      refine List.pairwise_cons.mpr ⟨fun p hp => ?_, h⟩
      rcases List.mem_cons.mp hp with rfl | hp
      · exact hlt
      · exact lt_trans hlt (hd p hp)
    · next hne hnlt =>
      refine List.pairwise_cons.mpr ⟨fun p hp => ?_, Sorted.put ht⟩
      rcases mem_put hp with rfl | hp
      · exact lt_of_le_of_ne (not_lt.mp hnlt) (Ne.symm hne)
      · exact hd p hp

theorem Sorted.putAll : ∀ {kvs l : List (κ × V)}, Sorted l → Sorted (putAll kvs l)
  | [], _, h => h
  | (k, v) :: kvs, l, h => show Sorted (KeyMap.putAll kvs (KeyMap.put k v l)) from Sorted.putAll h.put

theorem Sorted.nodup_keys {l : List (κ × V)} (h : Sorted l) : (l.map Prod.fst).Nodup :=
  List.pairwise_map.mpr (h.imp fun hab => ne_of_lt hab)

theorem keys_put {V' : Type*} (k : κ) (v : V) (v' : V') : ∀ {l : List (κ × V)} {l' : List (κ × V')},
    l.map Prod.fst = l'.map Prod.fst → (put k v l).map Prod.fst = (put k v' l').map Prod.fst
  | [], [], _ => rfl
  | (a, b) :: l, (a', b') :: l', h => by
    obtain ⟨rfl, hl⟩ : a = a' ∧ l.map Prod.fst = l'.map Prod.fst := by simpa using h
    simp only [put]
    split
    · simp [hl]
    split
    · simp [hl]
    · simp [keys_put k v v' hl]

/-- Which keys a map ends up with depends on the assigned keys only. -/
theorem keys_putAll {V' : Type*} : ∀ {kvs l : List (κ × V)} {kvs' l' : List (κ × V')},
    kvs.map Prod.fst = kvs'.map Prod.fst → l.map Prod.fst = l'.map Prod.fst →
      (putAll kvs l).map Prod.fst = (putAll kvs' l').map Prod.fst
  | [], _, [], _, _, hl => hl
  | (k, v) :: kvs, l, (k', v') :: kvs', l', h, hl => by
    obtain ⟨rfl, hkvs⟩ : k = k' ∧ kvs.map Prod.fst = kvs'.map Prod.fst := by simpa using h
    have hput : (put k v l).map Prod.fst = (put k v' l').map Prod.fst := keys_put k v v' hl
    rw [putAll, putAll, List.foldl_cons, List.foldl_cons]
    exact keys_putAll hkvs hput

/-- Setting a key of a sorted map that is given key by key. -/
theorem put_map {k : κ} (v : V) (g : κ → V) : ∀ {keys : List κ}, keys.Pairwise (· < ·) → k ∈ keys →
    put k v (keys.map fun k' => (k', g k')) = keys.map fun k' => (k', if k' = k then v else g k')
  | a :: keys, h, hk => by
    obtain ⟨ha, hkeys⟩ := List.pairwise_cons.mp h
    simp only [List.map_cons, put]
    by_cases hka : k = a
    · subst hka
      have hrest : ∀ k' ∈ keys, g k' = if k' = k then v else g k' := fun k' hk' => by
        rw [if_neg (ne_of_gt (ha k' hk'))]
      rw [if_pos rfl, if_pos rfl]
      exact congrArg _ (List.map_congr_left fun k' hk' => by rw [← hrest k' hk'])
    · have hmem : k ∈ keys := (List.mem_cons.mp hk).resolve_left hka
      rw [if_neg hka, if_neg (lt_asymm (ha k hmem)), if_neg (Ne.symm hka), put_map v g hkeys hmem]

theorem Sorted.eq_of_perm {l₁ l₂ : List (κ × V)} (h₁ : Sorted l₁) (h₂ : Sorted l₂) (h : l₁.Perm l₂) : l₁ = l₂ :=
  h.eq_of_pairwise (fun _ _ _ _ hab hba => absurd (lt_trans hab hba) (lt_irrefl _)) h₁ h₂

/-! ## Answers -/

variable [BEq κ] [LawfulBEq κ]

omit [LinearOrder κ] in
theorem lookup_cons_ne {k a : κ} (h : k ≠ a) (b : V) (l : List (κ × V)) :
    ((a, b) :: l).lookup k = l.lookup k := by
  rw [List.lookup_cons, beq_false_of_ne h]

theorem lookup_put (k k' : κ) (v : V) : ∀ l : List (κ × V),
    (put k v l).lookup k' = if k' = k then some v else l.lookup k'
  | [] => by by_cases h : k' = k <;> simp [put, h]
  | (a, b) :: l => by
    simp only [put]
    split
    · next hka =>
      subst hka
      by_cases h : k' = k
      · simp [h]
      · simp [lookup_cons_ne h, h]
    split
    · by_cases h : k' = k
      · simp [h]
      · simp [lookup_cons_ne h, h]
    · next hne _ =>
      by_cases ha : k' = a
      · subst ha
        simp [Ne.symm hne]
      · rw [lookup_cons_ne ha, lookup_cons_ne ha, lookup_put k k' v l]

theorem Sorted.mem_iff {l : List (κ × V)} (h : Sorted l) {k : κ} {v : V} :
    (k, v) ∈ l ↔ l.lookup k = some v := by
  induction l with
  | nil => simp
  | cons p l ih =>
    obtain ⟨a, b⟩ := p
    have hd : ∀ p ∈ l, a < p.1 := (List.pairwise_cons.mp h).1
    have ih := ih (List.pairwise_cons.mp h).2
    by_cases hk : k = a
    · subst hk
      have hn : (k, v) ∉ l := fun hm => lt_irrefl _ (hd _ hm)
      simp [hn, eq_comm]
    · simp [lookup_cons_ne hk, hk, ih]

/-- A sorted map is determined by its answers. -/
theorem Sorted.ext : ∀ {l₁ l₂ : List (κ × V)}, Sorted l₁ → Sorted l₂ →
    (∀ k, l₁.lookup k = l₂.lookup k) → l₁ = l₂ := by
  intro l₁ l₂ h₁ h₂ h
  have hmem : ∀ p, p ∈ l₁ ↔ p ∈ l₂ := fun (k, v) => by rw [h₁.mem_iff, h₂.mem_iff, h]
  have hnd : ∀ {l : List (κ × V)}, Sorted l → l.Nodup := fun hs => hs.imp fun hab he =>
    ne_of_lt hab (congrArg Prod.fst he)
  exact h₁.eq_of_perm h₂ ((List.perm_ext_iff_of_nodup (hnd h₁) (hnd h₂)).mpr hmem)

theorem lookup_putAll_of_not_mem {k : κ} : ∀ {kvs l : List (κ × V)}, (∀ p ∈ kvs, p.1 ≠ k) →
    (putAll kvs l).lookup k = l.lookup k
  | [], _, _ => rfl
  | (k', v') :: kvs, l, h => by
    have ht : ∀ p ∈ kvs, p.1 ≠ k := fun p hp => h p (by simp [hp])
    have hne : k ≠ k' := fun he => h (k', v') (by simp) he.symm
    have := lookup_putAll_of_not_mem (l := put k' v' l) ht
    rwa [lookup_put, if_neg hne] at this

/-- With distinct keys, each assigned key answers its value. -/
theorem lookup_putAll_of_mem {k : κ} {v : V} : ∀ {kvs l : List (κ × V)}, (kvs.map Prod.fst).Nodup →
    (k, v) ∈ kvs → (putAll kvs l).lookup k = some v
  | [], _, _, h => by simp at h
  | (k', v') :: kvs, l, hn, h => by
    simp only [List.map_cons, List.nodup_cons, List.mem_map] at hn
    rcases List.mem_cons.mp h with he | h
    · simp only [Prod.mk.injEq] at he
      obtain ⟨rfl, rfl⟩ := he
      have := lookup_putAll_of_not_mem (k := k) (l := put k v l) fun p hp he => hn.1 ⟨p, hp, he⟩
      rwa [lookup_put, if_pos rfl] at this
    · exact lookup_putAll_of_mem (l := put k' v' l) hn.2 h

/-- The last assignment of a key wins. -/
theorem lookup_putAll (k : κ) : ∀ kvs l : List (κ × V), (putAll kvs l).lookup k =
    ((kvs.filter (·.1 == k)).getLast?.map Prod.snd).or (l.lookup k)
  | [], _ => rfl
  | (k', v') :: kvs, l => by
    have ih := lookup_putAll k kvs (put k' v' l)
    rw [lookup_put] at ih
    refine ih.trans ?_
    by_cases h : k = k'
    · subst h
      rw [if_pos rfl, List.filter_cons_of_pos (by simp), List.getLast?_cons]
      cases (kvs.filter (·.1 == k)).getLast? <;> rfl
    · rw [if_neg h, List.filter_cons_of_neg (by simpa using Ne.symm h)]

omit [LinearOrder κ] in
theorem mem_keys_iff {k : κ} : ∀ {l : List (κ × V)}, k ∈ l.map Prod.fst ↔ ∃ v, l.lookup k = some v
  | [] => by simp
  | (a, b) :: l => by
    by_cases h : k = a
    · subst h
      simp
    · rw [lookup_cons_ne h, ← mem_keys_iff]
      simp [h]

omit [LinearOrder κ] in
/-- With distinct keys, each entry is the answer to its key. -/
theorem lookup_of_mem {k : κ} {v : V} : ∀ {l : List (κ × V)}, (l.map Prod.fst).Nodup → (k, v) ∈ l →
    l.lookup k = some v
  | [], _, h => by simp at h
  | (a, b) :: l, hn, h => by
    simp only [List.map_cons, List.nodup_cons, List.mem_map] at hn
    rcases List.mem_cons.mp h with he | h
    · obtain ⟨rfl, rfl⟩ := Prod.mk.inj he
      rw [List.lookup_cons_self]
    · have hne : k ≠ a := fun he => hn.1 ⟨(k, v), h, he⟩
      rw [lookup_cons_ne hne]
      exact lookup_of_mem hn.2 h

/-- The keys are those assigned and those there before. -/
theorem mem_keys_putAll {k : κ} {kvs l : List (κ × V)} :
    k ∈ (putAll kvs l).map Prod.fst ↔ k ∈ kvs.map Prod.fst ∨ k ∈ l.map Prod.fst := by
  by_cases hk : k ∈ kvs.map Prod.fst
  · obtain ⟨p, hp, rfl⟩ := List.mem_map.mp hk
    have hne : kvs.filter (·.1 == p.1) ≠ [] := List.ne_nil_of_mem (List.mem_filter.mpr ⟨hp, beq_self_eq_true _⟩)
    obtain ⟨q, hq⟩ := Option.isSome_iff_exists.mp (List.getLast?_isSome.mpr hne)
    rw [mem_keys_iff, lookup_putAll, hq]
    exact ⟨fun _ => .inl hk, fun _ => ⟨q.2, rfl⟩⟩
  · have hnone : ∀ p ∈ kvs, p.1 ≠ k := fun p hp he => hk (he ▸ List.mem_map_of_mem hp)
    rw [mem_keys_iff, lookup_putAll_of_not_mem hnone, ← mem_keys_iff, or_iff_right hk]

/-- Assigning all keys of a map leaves the assignments and nothing else. -/
theorem putAll_perm {kvs l : List (κ × V)} (hn : (kvs.map Prod.fst).Nodup) (hl : Sorted l)
    (hsub : ∀ p ∈ l, p.1 ∈ kvs.map Prod.fst) : (putAll kvs l).Perm kvs := by
  have hs : Sorted (putAll kvs l) := hl.putAll
  have hnodup {l : List (κ × V)} (h : (l.map Prod.fst).Nodup) : l.Nodup :=
    List.Pairwise.of_map Prod.fst (fun _ _ hab he => hab (congrArg _ he)) h
  refine (List.perm_ext_iff_of_nodup (hnodup hs.nodup_keys) (hnodup hn)).mpr fun ⟨k, v⟩ => ?_
  rw [hs.mem_iff]
  refine ⟨?_, ?_⟩
  · intro hv
    by_cases hk : k ∈ kvs.map Prod.fst
    · obtain ⟨⟨k', v'⟩, hmem, rfl⟩ := List.mem_map.mp hk
      rw [lookup_putAll_of_mem hn hmem, Option.some.injEq] at hv
      rwa [← hv]
    · have hnone : ∀ p ∈ kvs, p.1 ≠ k := fun p hp he => hk (List.mem_map.mpr ⟨p, hp, he⟩)
      rw [lookup_putAll_of_not_mem hnone, ← hl.mem_iff] at hv
      exact absurd (hsub _ hv) hk
  · exact lookup_putAll_of_mem hn

/-- A sorted list of assignments, from nothing, is the map. -/
theorem putAll_of_sorted {kvs : List (κ × V)} (h : Sorted kvs) : putAll kvs [] = kvs :=
  Sorted.nil.putAll.eq_of_perm h (putAll_perm h.nodup_keys .nil (by simp))

end Lib.KeyMap
