/-
Systems that take one labelled step after another, a step being possible or
not: runs, reachable states, what a step keeps over a run, what a run shows, and
simulations of one such system by another.
-/
import Mathlib.Tactic.TypeStar

namespace Lib.Transition

variable {σ τ α β : Type*}

/-- The state after a sequence of steps; `none` when one is not possible. -/
def exec (step : σ → α → Option σ) : σ → List α → Option σ
  | s, [] => some s
  | s, a :: as => (step s a).bind fun t => exec step t as

def Reachable (step : σ → α → Option σ) (s t : σ) : Prop := ∃ as, exec step s as = some t

/-- Every step of a run meets a condition on its state and label. -/
def Along (step : σ → α → Option σ) (C : σ → α → Prop) : σ → List α → Prop
  | _, [] => True
  | s, a :: as => C s a ∧ ∀ t ∈ step s a, Along step C t as

/-- What the steps of a run show, in order. -/
def trace (step : σ → α → Option σ) (f : σ → α → List β) : σ → List α → List β
  | _, [] => []
  | s, a :: as => f s a ++ (step s a).elim [] fun t => trace step f t as

variable {step : σ → α → Option σ}

instance decidableAlong {C : σ → α → Prop} [∀ s a, Decidable (C s a)] : ∀ (s : σ) (as : List α),
    Decidable (Along step C s as)
  | _, [] => .isTrue trivial
  | s, a :: as =>
    haveI : DecidablePred fun t => Along step C t as := fun t => decidableAlong t as
    inferInstanceAs (Decidable (C s a ∧ ∀ t ∈ step s a, Along step C t as))

theorem exec_cons {s u : σ} {a : α} {as : List α} :
    exec step s (a :: as) = some u ↔ ∃ t, step s a = some t ∧ exec step t as = some u :=
  Option.bind_eq_some_iff

theorem exec_append : ∀ {s u : σ} {as bs : List α},
    exec step s (as ++ bs) = some u ↔ ∃ t, exec step s as = some t ∧ exec step t bs = some u
  | s, u, [], bs => by simp [exec]
  | s, u, a :: as, bs => by
    simp only [List.cons_append, exec_cons, exec_append]
    refine ⟨?_, ?_⟩
    · intro hparts
      obtain ⟨t, ht, v, hv, hu⟩ := hparts
      exact ⟨v, ⟨t, ht, hv⟩, hu⟩
    · intro hparts
      obtain ⟨v, ⟨t, ht, hv⟩, hu⟩ := hparts
      exact ⟨t, ht, v, hv, hu⟩

theorem Reachable.refl (s : σ) : Reachable step s s := ⟨[], rfl⟩

theorem Reachable.snoc {s t u : σ} {a : α} (h : Reachable step s t) (hu : step t a = some u) : Reachable step s u := by
  obtain ⟨as, has⟩ := h
  exact ⟨as ++ [a], exec_append.mpr ⟨t, has, exec_cons.mpr ⟨u, hu, rfl⟩⟩⟩

/-- What steps that meet the condition keep, a run of them keeps. -/
theorem exec_inv {I : σ → Prop} {C : σ → α → Prop} (hstep : ∀ s a t, I s → C s a → step s a = some t → I t) :
    ∀ {s t : σ} {as : List α}, I s → Along step C s as → exec step s as = some t → I t
  | s, t, [], hs, _, h => by
    obtain rfl := Option.some.inj h
    exact hs
  | s, t, a :: as, hs, hC, h => by
    obtain ⟨u, hu, h⟩ := exec_cons.mp h
    exact exec_inv hstep (hstep s a u hs hC.1 hu) (hC.2 u hu) h

theorem Along.of_part {C : σ → α → Prop} : ∀ {s : σ} {as bs : List α}, Along step C s bs → as <+: bs →
    Along step C s as
  | _, [], _, _, _ => trivial
  | _, a :: as, [], _, hp => absurd hp (by simp)
  | s, a :: as, b :: bs, h, hp => by
    obtain ⟨rfl, htail⟩ := List.cons_prefix_cons.mp hp
    exact ⟨h.1, fun t ht => (h.2 t ht).of_part htail⟩

theorem along_true : ∀ (s : σ) (as : List α), Along step (fun _ _ => True) s as
  | _, [] => trivial
  | _, _ :: as => ⟨trivial, fun t _ => along_true t as⟩

/-- An invariant of the step holds of every reachable state. -/
theorem Reachable.inv {I : σ → Prop} (hstep : ∀ s a t, I s → step s a = some t → I t) {s t : σ}
    (h : Reachable step s t) (hs : I s) : I t := by
  obtain ⟨as, has⟩ := h
  exact exec_inv (fun s a t hs _ => hstep s a t hs) hs (along_true s as) has

/-- Steps that each use up some of a measure: a run of them is no longer than the measure. -/
theorem exec_length_le {m : σ → Nat} {C : α → Prop} (hstep : ∀ s a t, C a → step s a = some t → m t < m s) :
    ∀ {s t : σ} {as : List α}, (∀ a ∈ as, C a) → exec step s as = some t → as.length + m t ≤ m s
  | s, t, [], _, h => by
    obtain rfl := Option.some.inj h
    simp
  | s, t, a :: as, hC, h => by
    obtain ⟨u, hu, h⟩ := exec_cons.mp h
    have ih := exec_length_le hstep (fun b hb => hC b (by simp [hb])) h
    have hless := hstep s a u (hC a (by simp)) hu
    simp only [List.length_cons]
    omega

/-- Steps that each leave less of a bound: a run of them is no longer than the bound. -/
theorem length_le_of_bound {B : Nat → σ → Prop} {C : α → Prop}
    (hstep : ∀ n s a t, C a → B n s → step s a = some t → ∃ n' < n, B n' t) :
    ∀ {n : Nat} {s t : σ} {as : List α}, B n s → (∀ a ∈ as, C a) → exec step s as = some t → as.length ≤ n
  | n, s, t, [], _, _, _ => Nat.zero_le n
  | n, s, t, a :: as, hB, hC, h => by
    obtain ⟨u, hu, h⟩ := exec_cons.mp h
    obtain ⟨n', hless, hB⟩ := hstep n s a u (hC a (by simp)) hB hu
    have ih := length_le_of_bound hstep hB (fun b hb => hC b (by simp [hb])) h
    simp only [List.length_cons]
    omega

/-- A run from a reachable state. -/
theorem Reachable.exec {s t u : σ} {as : List α} (h : Reachable step s t) (hu : exec step t as = some u) :
    Reachable step s u := by
  obtain ⟨bs, hbs⟩ := h
  exact ⟨bs ++ as, exec_append.mpr ⟨t, hbs, hu⟩⟩

/-! ## Traces and simulations -/

theorem trace_cons {f : σ → α → List β} {s t : σ} {a : α} (h : step s a = some t) (as : List α) :
    trace step f s (a :: as) = f s a ++ trace step f t as := by rw [trace, h, Option.elim_some]

theorem trace_append {f : σ → α → List β} : ∀ {s t : σ} {as : List α}, exec step s as = some t →
    ∀ bs, trace step f s (as ++ bs) = trace step f s as ++ trace step f t bs
  | s, t, [], h, bs => by
    obtain rfl := Option.some.inj h
    rfl
  | s, t, a :: as, h, bs => by
    obtain ⟨u, hu, h⟩ := exec_cons.mp h
    rw [List.cons_append, trace_cons hu, trace_cons hu, trace_append h, List.append_assoc]

/-- A system whose every step is matched by steps of another, those it shows, has its runs matched. -/
theorem exec_sim {step' : τ → β → Option τ} {f : σ → α → List β} {S : σ → τ → Prop}
    (hstep : ∀ s t a s', S s t → step s a = some s' → ∃ t', exec step' t (f s a) = some t' ∧ S s' t') :
    ∀ {s s' : σ} {t : τ} {as : List α}, S s t → exec step s as = some s' →
      ∃ t', exec step' t (trace step f s as) = some t' ∧ S s' t'
  | s, s', t, [], hS, h => by
    obtain rfl := Option.some.inj h
    exact ⟨t, rfl, hS⟩
  | s, s', t, a :: as, hS, h => by
    obtain ⟨u, hu, h⟩ := exec_cons.mp h
    obtain ⟨v, hv, hS⟩ := hstep s t a u hS hu
    obtain ⟨t', ht', hS⟩ := exec_sim hstep hS h
    exact ⟨t', by rw [trace_cons hu]; exact exec_append.mpr ⟨v, hv, ht'⟩, hS⟩

end Lib.Transition
