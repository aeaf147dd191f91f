/-
Programs that call out: a program returns, throws, or makes a call and goes on
with the answer. What a program has called and been told leads it to what is
left of it (`Runs`), and at last to its result (`Ends`).

Several programs at once, each call answered when its program's turn comes: the
calls of each are those it makes alone (`Interleaved`).
-/
import SpeechAnalyzer.Lib.Mealy

namespace Lib

/-- A program with calls in `C`, the answer to a call `c` being in `A c`. -/
inductive Program {C : Type*} (A : C → Type*) (ε ρ : Type*)
  | ret (value : ρ)
  | throw (e : ε)
  | call (c : C) (next : A c → Program A ε ρ)

namespace Program

universe u v w

variable {C : Type u} {A : C → Type v} {ε : Type w} {ρ ρ' : Type v}

def bind : Program A ε ρ → (ρ → Program A ε ρ') → Program A ε ρ'
  | ret value, f => f value
  | throw e, _ => throw e
  | call c next, f => call c fun a => (next a).bind f

instance : Monad (Program A ε) where
  pure := ret
  bind := bind

/-- A computation that calls nothing. -/
def ofExcept : Except ε ρ → Program A ε ρ
  | .ok value => ret value
  | .error e => throw e

/-- A call, for its answer. -/
def perform (c : C) : Program A ε (A c) := call c ret

/-- A call and the answer it got. -/
abbrev Answered (A : C → Type v) := (c : C) × A c

/-- Answered so, the calls of the list lead from the program to `q`. -/
inductive Runs : Program A ε ρ → List (Answered A) → Program A ε ρ → Prop
  | refl (p) : Runs p [] p
  | told {c : C} {next : A c → Program A ε ρ} (a : A c) {log : List (Answered A)} {q : Program A ε ρ} :
    Runs (next a) log q → Runs (.call c next) (⟨c, a⟩ :: log) q

/-- The program makes these calls and no more, with this result. -/
def Ends (p : Program A ε ρ) (log : List (Answered A)) (r : Except ε ρ) : Prop := p.Runs log (ofExcept r)

/-- At most `n` calls, however they are answered. -/
def Within : ℕ → Program A ε ρ → Prop
  | _, ret _ => True
  | _, throw _ => True
  | 0, call _ _ => False
  | n + 1, call _ next => ∀ a, Within n (next a)

/-! ## Runs -/

theorem Runs.snoc {p : Program A ε ρ} {log : List (Answered A)} {c : C} {next : A c → Program A ε ρ}
    (h : p.Runs log (call c next)) (a : A c) : p.Runs (log ++ [⟨c, a⟩]) (next a) := by
  generalize hq : call c next = q at h
  induction h with
  | refl p =>
    subst hq
    exact .told a (.refl _)
  | told b _ ih => exact .told b (ih hq)

theorem Runs.append {p q q' : Program A ε ρ} {log log' : List (Answered A)} (h : p.Runs log q) (h' : q.Runs log' q') :
    p.Runs (log ++ log') q' := by
  induction h with
  | refl p => exact h'
  | told a _ ih => exact .told a (ih h')

/-- Every program ends, whatever it is told. -/
theorem exists_ends [∀ c, Nonempty (A c)] : ∀ p : Program A ε ρ, ∃ log r, p.Ends log r
  | ret value => ⟨[], .ok value, .refl _⟩
  | throw e => ⟨[], .error e, .refl _⟩
  | call c next => by
    obtain ⟨a⟩ := ‹∀ c, Nonempty (A c)› c
    obtain ⟨log, r, h⟩ := exists_ends (next a)
    exact ⟨⟨c, a⟩ :: log, r, .told a h⟩

/-- What a program has done is a part of what it does in the end. -/
theorem Runs.exists_ends [∀ c, Nonempty (A c)] {p q : Program A ε ρ} {log : List (Answered A)} (h : p.Runs log q) :
    ∃ rest r, p.Ends (log ++ rest) r := by
  obtain ⟨rest, r, hrest⟩ := Program.exists_ends q
  exact ⟨rest, r, h.append hrest⟩

theorem runs_call {c : C} {next : A c → Program A ε ρ} {log : List (Answered A)} {q : Program A ε ρ}
    (h : (call c next).Runs log q) :
    log = [] ∧ q = call c next ∨ ∃ a rest, log = ⟨c, a⟩ :: rest ∧ (next a).Runs rest q := by
  cases h with
  | refl => exact .inl ⟨rfl, rfl⟩
  | told a h => exact .inr ⟨a, _, rfl, h⟩

/-- A sequence is in its first program, or past it. -/
theorem runs_bind (f : ρ → Program A ε ρ') : ∀ {p : Program A ε ρ} {log : List (Answered A)} {q : Program A ε ρ'},
    (p >>= f).Runs log q → (∃ p', p.Runs log p' ∧ q = (p' >>= f)) ∨
      ∃ value before after, log = before ++ after ∧ p.Ends before (.ok value) ∧ (f value).Runs after q
  | ret value, log, q, h => .inr ⟨value, [], log, rfl, .refl _, h⟩
  | throw e, log, q, h => by
    cases h
    exact .inl ⟨throw e, .refl _, rfl⟩
  | call c next, log, q, h => by
    cases h with
    | refl => exact .inl ⟨call c next, .refl _, rfl⟩
    | told a h =>
      rcases runs_bind f h with ⟨p', hp', rfl⟩ | ⟨value, before, after, rfl, hp, hf⟩
      · exact .inl ⟨p', .told a hp', rfl⟩
      · exact .inr ⟨value, ⟨c, a⟩ :: before, after, rfl, .told a hp, hf⟩

/-! ## Results -/

theorem ends_ret {value : ρ} {log : List (Answered A)} {r : Except ε ρ} :
    (ret value : Program A ε ρ).Ends log r ↔ log = [] ∧ r = .ok value := by
  have hruns {q : Program A ε ρ} (h : (ret value : Program A ε ρ).Runs log q) : log = [] ∧ q = ret value := by
    cases h
    exact ⟨rfl, rfl⟩
  refine ⟨fun h => ?_, ?_⟩
  · obtain ⟨hlog, hr⟩ := hruns h
    cases r with
    | ok value' => exact ⟨hlog, congrArg Except.ok (ret.inj hr)⟩
    | error e => cases hr
  · rintro ⟨rfl, rfl⟩
    exact .refl _

theorem ends_throw {e : ε} {log : List (Answered A)} {r : Except ε ρ} :
    (throw e : Program A ε ρ).Ends log r ↔ log = [] ∧ r = .error e := by
  have hruns {q : Program A ε ρ} (h : (throw e : Program A ε ρ).Runs log q) : log = [] ∧ q = throw e := by
    cases h
    exact ⟨rfl, rfl⟩
  refine ⟨fun h => ?_, ?_⟩
  · obtain ⟨hlog, hr⟩ := hruns h
    cases r with
    | ok value => cases hr
    | error e' => exact ⟨hlog, congrArg Except.error (throw.inj hr)⟩
  · rintro ⟨rfl, rfl⟩
    exact .refl _

theorem ends_call {c : C} {next : A c → Program A ε ρ} {log : List (Answered A)} {r : Except ε ρ} :
    (call c next).Ends log r ↔ ∃ a rest, log = ⟨c, a⟩ :: rest ∧ (next a).Ends rest r := by
  refine ⟨fun h => (runs_call h).resolve_left fun hcall => ?_, ?_⟩
  · cases r <;> cases hcall.2
  · rintro ⟨a, rest, rfl, h⟩
    exact .told a h

theorem ends_perform {c : C} {log : List (Answered A)} {r : Except ε (A c)} :
    (perform c : Program A ε (A c)).Ends log r ↔ ∃ a, log = [⟨c, a⟩] ∧ r = .ok a := by
  rw [perform, ends_call]
  simp only [ends_ret]
  refine ⟨?_, ?_⟩
  · rintro ⟨a, rest, rfl, rfl, rfl⟩
    exact ⟨a, rfl, rfl⟩
  · rintro ⟨a, rfl, rfl⟩
    exact ⟨a, [], rfl, rfl, rfl⟩

/-- A sequence ends with the second program, or with what the first throws. -/
theorem ends_bind {r : Except ε ρ'} (f : ρ → Program A ε ρ') : ∀ {p : Program A ε ρ} {log : List (Answered A)},
    (p >>= f).Ends log r ↔
      (∃ value before after, log = before ++ after ∧ p.Ends before (.ok value) ∧ (f value).Ends after r) ∨
        ∃ e, r = .error e ∧ p.Ends log (.error e)
  | ret value, log => by
    have hbind : (ret value >>= f : Program A ε ρ') = f value := rfl
    simp only [hbind, ends_ret]
    refine ⟨fun h => .inl ⟨value, [], log, rfl, ⟨rfl, rfl⟩, h⟩, ?_⟩
    rintro (⟨value', before, after, rfl, ⟨rfl, hvalue⟩, h⟩ | ⟨e, -, -, he⟩)
    · obtain rfl := Except.ok.inj hvalue
      exact h
    · cases he
  | throw e, log => by
    have hbind : (throw e >>= f : Program A ε ρ') = throw e := rfl
    simp only [hbind, ends_throw]
    refine ⟨fun h => .inr ⟨e, h.2, h.1, rfl⟩, ?_⟩
    rintro (⟨value, before, after, -, ⟨-, hvalue⟩, -⟩ | ⟨e', rfl, rfl, he⟩)
    · cases hvalue
    · exact ⟨rfl, congrArg Except.error (Except.error.inj he)⟩
  | call c next, log => by
    have hbind : (call c next >>= f : Program A ε ρ') = call c fun a => next a >>= f := rfl
    simp only [hbind, ends_call]
    refine ⟨?_, ?_⟩
    · rintro ⟨a, rest, rfl, h⟩
      rcases (ends_bind f).mp h with ⟨value, before, after, rfl, hp, hf⟩ | ⟨e, rfl, hp⟩
      · exact .inl ⟨value, ⟨c, a⟩ :: before, after, rfl, ⟨a, before, rfl, hp⟩, hf⟩
      · exact .inr ⟨e, rfl, a, rest, rfl, hp⟩
    · rintro (⟨value, before, after, rfl, ⟨a, rest, rfl, hp⟩, hf⟩ | ⟨e, rfl, a, rest, rfl, hp⟩)
      · exact ⟨a, rest ++ after, rfl, (ends_bind f).mpr (.inl ⟨value, rest, after, rfl, hp, hf⟩)⟩
      · exact ⟨a, rest, rfl, (ends_bind f).mpr (.inr ⟨e, rfl, hp⟩)⟩

/-- A sequence that begins with no call. -/
theorem ends_ofExcept_bind {x : Except ε ρ} {f : ρ → Program A ε ρ'} {log : List (Answered A)} {r : Except ε ρ'} :
    (ofExcept x >>= f).Ends log r ↔
      (∃ value, x = .ok value ∧ (f value).Ends log r) ∨ ∃ e, x = .error e ∧ log = [] ∧ r = .error e := by
  cases x with
  | ok value =>
    have hbind : (ofExcept (.ok value) >>= f : Program A ε ρ') = f value := rfl
    simp [hbind]
  | error e =>
    have hbind : (ofExcept (.error e) >>= f : Program A ε ρ') = throw e := rfl
    simp [hbind, ends_throw]

/-- It ends as the computation does that goes on likewise. -/
theorem Ends.ofExcept_bind {x : Except ε ρ} {f : ρ → Program A ε ρ'} {g : ρ → Except ε ρ'}
    {Q : List (Answered A) → Prop} {log : List (Answered A)} {r : Except ε ρ'} (h : (ofExcept x >>= f).Ends log r)
    (hnil : Q []) (hg : ∀ value, x = .ok value → (f value).Ends log r → g value = r ∧ Q log) : (x >>= g) = r ∧ Q log := by
  rcases ends_ofExcept_bind.mp h with ⟨value, rfl, hf⟩ | ⟨e, rfl, rfl, rfl⟩
  · exact hg value rfl hf
  · exact ⟨rfl, hnil⟩

/-- A sequence that begins with a call. -/
theorem ends_perform_bind {c : C} {f : A c → Program A ε ρ'} {log : List (Answered A)} {r : Except ε ρ'} :
    (perform c >>= f).Ends log r ↔ ∃ a rest, log = ⟨c, a⟩ :: rest ∧ (f a).Ends rest r :=
  ends_call

/-! ## Numbers of calls -/

theorem Within.mono : ∀ {p : Program A ε ρ} {n n' : ℕ}, p.Within n → n ≤ n' → p.Within n'
  | ret _, _, _, _, _ => by simp [Within]
  | throw _, _, _, _, _ => by simp [Within]
  | call _ _, 0, _, h, _ => h.elim
  | call _ _, _ + 1, 0, _, hle => absurd hle (Nat.not_succ_le_zero _)
  | call _ _, _ + 1, _ + 1, h, hle => fun a => (h a).mono (Nat.le_of_succ_le_succ hle)

/-- What is left of a program needs no more calls than the program. -/
theorem Runs.within {p q : Program A ε ρ} {log : List (Answered A)} (h : p.Runs log q) :
    ∀ {n : ℕ}, p.Within n → q.Within n := by
  induction h with
  | refl p => exact id
  | told a _ ih =>
    intro n hn
    cases n with
    | zero => exact hn.elim
    | succ n => exact (ih (hn a)).mono (Nat.le_succ n)

theorem within_perform (c : C) : (perform c : Program A ε (A c)).Within 1 := fun _ => trivial

theorem Within.bind {f : ρ → Program A ε ρ'} {k : ℕ} (hf : ∀ value, (f value).Within k) :
    ∀ {p : Program A ε ρ} {n : ℕ}, p.Within n → (p >>= f).Within (n + k)
  | ret value, n, _ => (hf value).mono (Nat.le_add_left _ _)
  | throw _, _, _ => by simp [Bind.bind, Program.bind, Within]
  | call _ _, 0, h => h.elim
  | call _ next, n + 1, h => by
    rw [Nat.succ_add]
    exact fun a => Within.bind hf (h a)

theorem within_ofExcept_bind {x : Except ε ρ} {f : ρ → Program A ε ρ'} {n : ℕ}
    (hf : ∀ value, x = .ok value → (f value).Within n) : (ofExcept x >>= f).Within n := by
  cases x with
  | ok value => exact hf value rfl
  | error e => simp [ofExcept, Bind.bind, Program.bind, Within]

theorem within_perform_bind {c : C} {f : A c → Program A ε ρ'} {n : ℕ} (hf : ∀ a, (f a).Within n) :
    (perform c >>= f).Within (n + 1) := hf

/-! ## Several at once -/

/-- The next call of program `k`, answered by `f`, and the programs after it. -/
def answer (ps : List (Program A ε ρ)) (k : ℕ) (f : ∀ c, A c) : Option (Answered A × List (Program A ε ρ)) :=
  match ps[k]? with
  | some (call c next) => some (⟨c, f c⟩, ps.set k (next (f c)))
  | _ => none

/-- The programs that were started are, after the calls of the log, these. -/
structure Interleaved (started : List (Program A ε ρ)) (log : List (ℕ × Answered A)) (ps : List (Program A ε ρ)) :
    Prop where
  length : ps.length = started.length
  runs : ∀ (k : ℕ) (p q : Program A ε ρ), started[k]? = some p → ps[k]? = some q → p.Runs (Mealy.only k log) q
  known : ∀ e ∈ log, e.1 < ps.length

theorem interleaved_nil : Interleaved ([] : List (Program A ε ρ)) [] [] where
  length := rfl
  runs k p q hp _ := by cases hp
  known := List.forall_mem_nil _

theorem answer_cases {ps ps' : List (Program A ε ρ)} {k : ℕ} {f : ∀ c, A c} {e : Answered A}
    (h : answer ps k f = some (e, ps')) : ∃ c next, ps[k]? = some (call c next) ∧ e = ⟨c, f c⟩ ∧
      ps' = ps.set k (next (f c)) := by
  unfold answer at h
  split at h
  · next c next hk =>
    obtain ⟨rfl, rfl⟩ := Prod.mk.inj (Option.some.inj h)
    exact ⟨c, next, hk, rfl, rfl⟩
  · cases h

theorem Interleaved.answer {started ps ps' : List (Program A ε ρ)} {log : List (ℕ × Answered A)} {k : ℕ} {f : ∀ c, A c}
    {e : Answered A} (h : Interleaved started log ps) (ha : answer ps k f = some (e, ps')) :
    Interleaved started (log ++ [(k, e)]) ps' := by
  obtain ⟨c, next, hk, rfl, rfl⟩ := answer_cases ha
  have hlt := (List.getElem?_eq_some_iff.mp hk).1
  refine ⟨by rw [List.length_set, h.length], fun k' p q hp hq => ?_, ?_⟩
  · rw [Mealy.only_append, Mealy.only_cons]
    by_cases hkk : k = k'
    · subst hkk
      rw [List.getElem?_set_self hlt] at hq
      obtain rfl := Option.some.inj hq
      rw [if_pos rfl]
      exact (h.runs k p _ hp hk).snoc (f c)
    · rw [List.getElem?_set_ne hkk] at hq
      rw [if_neg hkk]
      exact (h.runs k' p q hp hq).append (.refl _)
  · simp only [List.length_set, List.mem_append, List.mem_singleton]
    rintro e (he | rfl)
    · exact h.known e he
    · exact hlt

/-- No call is of a program that is not there yet. -/
theorem Interleaved.only_eq_nil {started ps : List (Program A ε ρ)} {log : List (ℕ × Answered A)}
    (h : Interleaved started log ps) {k : ℕ} (hk : ps.length ≤ k) : Mealy.only k log = [] := by
  rw [List.eq_nil_iff_forall_not_mem]
  intro a ha
  exact Nat.not_lt_of_ge hk (h.known _ (Mealy.mem_only.mp ha))

/-- More programs are started. -/
theorem Interleaved.start {started ps : List (Program A ε ρ)} {log : List (ℕ × Answered A)}
    (h : Interleaved started log ps) (new : List (Program A ε ρ)) : Interleaved (started ++ new) log (ps ++ new) := by
  refine ⟨by rw [List.length_append, List.length_append, h.length], fun k p q hp hq => ?_, fun e he => ?_⟩
  · rcases Nat.lt_or_ge k ps.length with hlt | hge
    · rw [List.getElem?_append_left (h.length ▸ hlt)] at hp
      rw [List.getElem?_append_left hlt] at hq
      exact h.runs k p q hp hq
    · rw [List.getElem?_append_right (h.length ▸ hge), ← h.length] at hp
      rw [List.getElem?_append_right hge, hp] at hq
      obtain rfl := Option.some.inj hq
      rw [h.only_eq_nil hge]
      exact .refl _
  · rw [List.length_append]
    exact Nat.lt_add_right _ (h.known e he)

/-- At most `n` calls of all the programs. -/
def Together : List (Program A ε ρ) → ℕ → Prop
  | [], _ => True
  | p :: ps, n => ∃ b m, p.Within b ∧ Together ps m ∧ b + m ≤ n

theorem exists_together : ∀ {ps : List (Program A ε ρ)}, (∀ p ∈ ps, ∃ n, p.Within n) → ∃ n, Together ps n
  | [], _ => ⟨0, trivial⟩
  | p :: ps, h => by
    obtain ⟨⟨b, hb⟩, h⟩ := List.forall_mem_cons.mp h
    obtain ⟨m, hm⟩ := exists_together h
    exact ⟨b + m, b, m, hb, hm, Nat.le_refl _⟩

theorem Together.append : ∀ {ps qs : List (Program A ε ρ)} {n n' : ℕ}, Together ps n → Together qs n' →
    Together (ps ++ qs) (n + n')
  | [], [], _, _, _, _ => trivial
  | [], q :: qs, n, n', _, h' => by
    obtain ⟨b, m, hb, hm, hle⟩ := h'
    exact ⟨b, m, hb, hm, by omega⟩
  | p :: ps, qs, n, n', h, h' => by
    obtain ⟨b, m, hb, hm, hle⟩ := h
    exact ⟨b, m + n', hb, hm.append h', by omega⟩

/-- An answer uses up one call. -/
theorem Together.set : ∀ {ps : List (Program A ε ρ)} {n k : ℕ} {c : C} {next : A c → Program A ε ρ}, Together ps n →
    ps[k]? = some (call c next) → ∀ a, ∃ n' < n, Together (ps.set k (next a)) n'
  | [], _, _, _, _, _, hk, _ => by cases hk
  | p :: ps, n, 0, c, next, h, hk, a => by
    obtain ⟨b, m, hb, hm, hle⟩ := h
    obtain rfl := Option.some.inj hk
    cases b with
    | zero => exact hb.elim
    | succ b => exact ⟨b + m, by omega, b, m, hb a, hm, Nat.le_refl _⟩
  | p :: ps, n, k + 1, c, next, h, hk, a => by
    obtain ⟨b, m, hb, hm, hle⟩ := h
    obtain ⟨m', hlt, hm'⟩ := hm.set hk a
    exact ⟨b + m', by omega, b, m', hb, hm', Nat.le_refl _⟩

end Program

end Lib
