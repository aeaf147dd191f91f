/-
What an assignment through a path of keys (`Json.setAt`) leaves behind: it
succeeds where every value on the way is an object or `null` (`Open`), the
assigned place reads as the value, and every path that parts from it
(`Diverge`) reads as before.
-/
import SpeechAnalyzer.Lib.Json

namespace Lib.Json

variable {ν : Type}

/-- The members of an object; of anything else, none. -/
def fields : Json ν → List (Str × Json ν)
  | obj l => l
  | _ => []

/-- The value at the end of a path, `null` where there is none. -/
def path : List Str → Json ν → Json ν
  | [], j => j
  | k :: ks, j => path ks ((j.fields.lookup k).getD null)

/-- Whether keys can be set in a value. -/
def IsMap : Json ν → Prop
  | null => True
  | obj _ => True
  | _ => False

/-- Every value a path goes through, the last one not counted, takes keys. -/
def Open : List Str → Json ν → Prop
  | [], _ => True
  | k :: ks, j => j.IsMap ∧ Open ks ((j.fields.lookup k).getD null)

/-- Two paths part at some key. -/
def Diverge : List Str → List Str → Prop
  | a :: p, b :: q => a ≠ b ∨ Diverge p q
  | _, _ => False

/-- `j[k₁][k₂]…`, read. -/
def getAt : List Str → Json ν → Except Exn (Json ν)
  | [], j => .ok j
  | k :: ks, j => do
    let c ← j.get k
    getAt ks c

@[simp] theorem path_nil (j : Json ν) : path [] j = j := rfl
@[simp] theorem path_cons (k : Str) (ks : List Str) (j : Json ν) :
    path (k :: ks) j = path ks (path [k] j) := rfl
@[simp] theorem open_nil (j : Json ν) : Open [] j := trivial
@[simp] theorem isMap_null : (null : Json ν).IsMap := trivial
@[simp] theorem isMap_obj (l : List (Str × Json ν)) : (obj l).IsMap := trivial
@[simp] theorem fields_null : (null : Json ν).fields = [] := rfl
@[simp] theorem fields_obj (l : List (Str × Json ν)) : (obj l).fields = l := rfl

theorem path_append : ∀ (p q : List Str) (j : Json ν), path (p ++ q) j = path q (path p j)
  | [], _, _ => rfl
  | _ :: p, q, _ => path_append p q _

@[simp] theorem path_null : ∀ p : List Str, path p (null : Json ν) = null
  | [] => rfl
  | _ :: p => path_null p

theorem open_append : ∀ {p q : List Str} {j : Json ν}, Open (p ++ q) j ↔ Open p j ∧ Open q (path p j)
  | [], _, _ => by simp
  | _ :: p, q, j => by
    simp only [List.cons_append, Open, open_append (p := p), and_assoc]
    rfl

/-- `null` takes any path. -/
@[simp] theorem open_null : ∀ p : List Str, Open p (null : Json ν)
  | [] => trivial
  | _ :: p => ⟨trivial, open_null p⟩

theorem getAt_of_open : ∀ {p : List Str} {j : Json ν}, Open p j → getAt p j = .ok (path p j)
  | [], _, _ => rfl
  | _ :: p, null, h => getAt_of_open (p := p) (j := null) h.2
  | _ :: p, obj _, h => getAt_of_open (p := p) h.2

theorem get_of_isMap {j : Json ν} (h : j.IsMap) (k : Str) : j.get k = .ok (path [k] j) := by
  cases j with
  | null => rfl
  | obj l => rfl
  | bool _ => exact h.elim
  | num _ => exact h.elim
  | str _ => exact h.elim
  | arr _ => exact h.elim

theorem isMap_of_get {j c : Json ν} {k : Str} (h : j.get k = .ok c) : j.IsMap := by
  cases j with
  | null => trivial
  | obj l => trivial
  | bool _ => cases h
  | num _ => cases h
  | str _ => cases h
  | arr _ => cases h

/-- Reading along a path succeeds exactly where the path is open. -/
theorem getAt_eq_ok : ∀ {p : List Str} {j v : Json ν}, getAt p j = .ok v ↔ Open p j ∧ path p j = v
  | [], j, v => by simp [getAt]
  | k :: p, j, v => by
    refine ⟨fun h => ?_, fun h => ?_⟩
    · obtain ⟨c, hc, h⟩ := bind_eq_ok.mp h
      have hmap := isMap_of_get hc
      obtain rfl := Except.ok.inj ((get_of_isMap hmap k).symm.trans hc)
      obtain ⟨hopen, hpath⟩ := getAt_eq_ok.mp h
      exact ⟨⟨hmap, hopen⟩, hpath⟩
    · rw [getAt_of_open h.1, h.2]

/-- Reading goes on in the value at the end of an open path. -/
theorem getAt_append : ∀ {p : List Str} {j : Json ν}, Open p j → ∀ q, getAt (p ++ q) j = getAt q (path p j)
  | [], _, _, _ => rfl
  | k :: p, j, h, q => by
    have ih := getAt_append h.2 q
    rw [List.cons_append, getAt, get_of_isMap h.1]
    exact ih

theorem get_of_not_isMap {j : Json ν} (h : ¬ j.IsMap) (k : Str) : j.get k = .error (.typeError 305) := by
  cases j with
  | null => exact absurd trivial h
  | obj l => exact absurd trivial h
  | bool _ => rfl
  | num _ => rfl
  | str _ => rfl
  | arr _ => rfl

theorem setAt_cons {k : Str} {ks : List Str} {v j : Json ν} (h : j.IsMap) :
    setAt (k :: ks) v j =
      (setAt ks v ((j.fields.lookup k).getD null)).map fun c => obj (KeyMap.put k c j.fields) := by
  cases j with
  | null => simp only [setAt, fields_null]; rfl
  | obj l => rfl
  | bool _ => exact h.elim
  | num _ => exact h.elim
  | str _ => exact h.elim
  | arr _ => exact h.elim

theorem setAt_ok_iff : ∀ {p : List Str} {v j j' : Json ν}, Open p j → (setAt p v j = .ok j' ↔
    match p with
    | [] => j' = v
    | k :: ks => ∃ c, setAt ks v (path [k] j) = .ok c ∧ j' = obj (KeyMap.put k c j.fields))
  | [], v, j, j', _ => by simp [eq_comm]
  | k :: ks, v, j, j', h => by
    rw [setAt_cons h.1]
    cases hc : setAt ks v ((j.fields.lookup k).getD null) with
    | error e => simp [Except.map, path, hc]
    | ok c => simp [Except.map, path, hc, eq_comm]

theorem exists_setAt : ∀ {p : List Str} {v j : Json ν}, Open p j → ∃ j', setAt p v j = .ok j'
  | [], v, _, _ => ⟨v, setAt_nil v _⟩
  | k :: ks, v, j, h => by
    obtain ⟨c, hc⟩ := exists_setAt (v := v) h.2
    exact ⟨_, (setAt_ok_iff h).mpr ⟨c, hc, rfl⟩⟩

theorem path_put (k k' : Str) (c : Json ν) (l : List (Str × Json ν)) :
    path [k'] (obj (KeyMap.put k c l)) = if k' = k then c else path [k'] (obj l) := by
  simp only [path, fields_obj, KeyMap.lookup_put]
  split <;> rfl

/-- Along the assigned path the assignment goes on in the value there. -/
theorem path_setAt_append : ∀ {p q : List Str} {v j j' : Json ν}, Open (p ++ q) j →
    setAt (p ++ q) v j = .ok j' → setAt q v (path p j) = .ok (path p j')
  | [], _, _, _, _, _, h => h
  | k :: p, q, v, j, j', ho, h => by
    obtain ⟨c, hc, rfl⟩ := (setAt_ok_iff ho).mp h
    have ih := path_setAt_append (p := p) (q := q) ho.2 hc
    rw [path_cons, path_cons k p, path_put, if_pos rfl]
    exact ih

theorem path_setAt {p : List Str} {v j j' : Json ν} (ho : Open p j) (h : setAt p v j = .ok j') :
    path p j' = v := by
  have := path_setAt_append (p := p) (q := []) (by rwa [List.append_nil]) (by rwa [List.append_nil])
  simpa [eq_comm] using this

/-- **The frame of an assignment.** -/
theorem path_setAt_diverge : ∀ {p q : List Str} {v j j' : Json ν}, Open p j →
    setAt p v j = .ok j' → Diverge p q → path q j' = path q j
  | k :: p, k' :: q, v, j, j', ho, h, hd => by
    obtain ⟨c, hc, rfl⟩ := (setAt_ok_iff ho).mp h
    rw [path_cons k' q, path_cons k' q, path_put]
    split
    · next hk =>
      subst hk
      have hd : Diverge p q := hd.resolve_left fun hne => hne rfl
      exact path_setAt_diverge ho.2 hc hd
    · rfl

theorem open_setAt_diverge : ∀ {p q : List Str} {v j j' : Json ν}, Open p j →
    setAt p v j = .ok j' → Diverge p q → Open q j → Open q j'
  | k :: p, k' :: q, v, j, j', ho, h, hd, hq => by
    obtain ⟨c, hc, rfl⟩ := (setAt_ok_iff ho).mp h
    refine ⟨trivial, ?_⟩
    have hput := path_put k k' c j.fields
    simp only [path] at hput
    rw [hput]
    split
    · next hk =>
      subst hk
      have hd : Diverge p q := hd.resolve_left fun hne => hne rfl
      exact open_setAt_diverge ho.2 hc hd hq.2
    · exact hq.2

theorem open_setAt : ∀ {p : List Str} {v j j' : Json ν}, Open p j → setAt p v j = .ok j' → Open p j'
  | [], _, _, _, _, _ => trivial
  | k :: p, v, j, j', ho, h => by
    obtain ⟨c, hc, rfl⟩ := (setAt_ok_iff ho).mp h
    refine ⟨trivial, ?_⟩
    have hput := path_put k k c j.fields
    simp only [path, if_true] at hput
    rw [hput]
    exact open_setAt ho.2 hc

/-- One key, set. -/
theorem setAt_singleton {k : Str} {v j : Json ν} (h : j.IsMap) :
    setAt [k] v j = .ok (obj (KeyMap.put k v j.fields)) := by
  rw [setAt_cons h, setAt_nil]
  rfl

/-! ## Members -/

/-- The member at the end of a path, if there is one. -/
def find : List Str → Json ν → Option (Json ν)
  | [], j => some j
  | k :: ks, j => (j.fields.lookup k).bind (find ks)

theorem find_null {p : List Str} (h : p ≠ []) : find p (null : Json ν) = none := by
  cases p with
  | nil => exact absurd rfl h
  | cons k p => rfl

/-- A string under a key, as it is read. -/
theorem get_eq_str {j : Json ν} {k s : Str} : j.get k = .ok (str s) ↔ find [k] j = some (str s) := by
  cases j with
  | null => exact ⟨nofun, nofun⟩
  | bool _ => exact ⟨nofun, nofun⟩
  | num _ => exact ⟨nofun, nofun⟩
  | str _ => exact ⟨nofun, nofun⟩
  | arr _ => exact ⟨nofun, nofun⟩
  | obj l =>
    simp only [get, find, fields, Except.ok.injEq]
    cases l.lookup k with
    | none => exact ⟨nofun, nofun⟩
    | some c => simp

theorem textSize_lookup {k : Str} {c : Json ν} : ∀ {l : List (Str × Json ν)}, l.lookup k = some c →
    textSize c ≤ memberSizes l
  | (k', c') :: l, h => by
    rw [memberSizes]
    by_cases hk : k = k'
    · rw [hk, List.lookup_cons_self] at h
      obtain rfl := Option.some.inj h
      omega
    · rw [KeyMap.lookup_cons_ne hk] at h
      have ih := textSize_lookup h
      omega

/-- A member is no larger than the whole. -/
theorem textSize_find : ∀ {p : List Str} {j v : Json ν}, find p j = some v → textSize v ≤ textSize j
  | [], j, v, h => by
    obtain rfl := Option.some.inj h
    exact Nat.le_refl _
  | k :: ks, j, v, h => by
    obtain ⟨c, hlookup, hfind⟩ := Option.bind_eq_some_iff.mp h
    have ih := textSize_find hfind
    cases j with
    | obj l => exact ih.trans (textSize_lookup hlookup)
    | null => cases hlookup
    | bool _ => cases hlookup
    | num _ => cases hlookup
    | str _ => cases hlookup
    | arr _ => cases hlookup

theorem find_setAt : ∀ {p : List Str} {v j j' : Json ν}, Open p j → setAt p v j = .ok j' → find p j' = some v
  | [], v, j, j', _, h => by
    rw [setAt_nil] at h
    exact congrArg some (Except.ok.inj h).symm
  | k :: p, v, j, j', ho, h => by
    obtain ⟨c, hc, rfl⟩ := (setAt_ok_iff ho).mp h
    rw [find, fields_obj, KeyMap.lookup_put, if_pos rfl]
    exact find_setAt ho.2 hc

/-- An assignment neither changes a member elsewhere nor makes one. -/
theorem find_setAt_diverge : ∀ {p q : List Str} {v j j' : Json ν}, Open p j →
    setAt p v j = .ok j' → Diverge p q → find q j' = find q j
  | k :: p, k' :: q, v, j, j', ho, h, hd => by
    obtain ⟨c, hc, rfl⟩ := (setAt_ok_iff ho).mp h
    rw [find, find, fields_obj, KeyMap.lookup_put]
    split
    · next hk =>
      subst hk
      have hd : Diverge p q := hd.resolve_left fun hne => hne rfl
      have ih := find_setAt_diverge ho.2 hc hd
      rw [Option.bind_some, ih]
      cases j.fields.lookup k' with
      | some c' => rfl
      | none =>
        have hq : q ≠ [] := by
          intro hnil
          subst hnil
          cases p <;> exact hd
        exact find_null hq
    · rfl

/-- What a fresh value is after its members have been assigned. -/
def ofFields : List (Str × Json ν) → Json ν
  | [] => null
  | p :: l => obj (p :: l)

@[simp] theorem fields_ofFields (l : List (Str × Json ν)) : (ofFields l).fields = l := by
  cases l <;> rfl

theorem isMap_ofFields (l : List (Str × Json ν)) : (ofFields l).IsMap := by
  cases l <;> trivial

/-- Members assigned one after the other. -/
theorem foldlM_setAt : ∀ (kvs l : List (Str × Json ν)),
    kvs.foldlM (fun j p => setAt [p.1] p.2 j) (ofFields l) = .ok (ofFields (KeyMap.putAll kvs l))
  | [], l => rfl
  | (k, v) :: kvs, l => by
    have hput : obj (KeyMap.put k v l) = ofFields (KeyMap.put k v l) := by
      cases l with
      | nil => rfl
      | cons p l =>
        simp only [KeyMap.put]
        split
        · rfl
        split <;> rfl
    rw [List.foldlM_cons, setAt_singleton (isMap_ofFields l), fields_ofFields, hput]
    exact foldlM_setAt kvs (KeyMap.put k v l)

end Lib.Json
