/-
Machines that answer each input with a new state and a list of outputs, run
over a list of inputs: runs compose, an invariant of the step is one of the
run, and a simulation of the step is one of the run. In a family of machines whose
inputs come mixed, each runs as it does alone.
-/
import Mathlib.Data.List.Forall2
import Mathlib.Logic.Function.Basic

namespace Lib.Mealy

variable {σ τ ι ο π : Type*}

/-- The state after the inputs and all outputs, in order. -/
def run (step : σ → ι → σ × List ο) : σ → List ι → σ × List ο
  | s, [] => (s, [])
  | s, i :: is =>
    let r := step s i
    let r' := run step r.1 is
    (r'.1, r.2 ++ r'.2)

variable {step : σ → ι → σ × List ο}

@[simp] theorem run_nil (s : σ) : run step s [] = (s, []) := rfl

theorem run_cons (s : σ) (i : ι) (is : List ι) :
    run step s (i :: is) =
      ((run step (step s i).1 is).1, (step s i).2 ++ (run step (step s i).1 is).2) := rfl

theorem run_append : ∀ (s : σ) (is js : List ι),
    run step s (is ++ js) =
      ((run step (run step s is).1 js).1, (run step s is).2 ++ (run step (run step s is).1 js).2)
  | s, [], js => by simp
  | s, i :: is, js => by
    rw [List.cons_append, run_cons, run_append (step s i).1 is js, run_cons, List.append_assoc]

theorem run_concat (s : σ) (is : List ι) (i : ι) :
    (run step s (is ++ [i])).1 = (step (run step s is).1 i).1 := by
  rw [run_append, run_cons, run_nil]

/-- A machine that reads its inputs through `f`. -/
theorem run_map {κ : Type*} (f : κ → ι) : ∀ (s : σ) (ks : List κ),
    run step s (ks.map f) = run (fun s k => step s (f k)) s ks
  | _, [] => rfl
  | s, k :: ks => by rw [List.map_cons, run_cons, run_cons, run_map f]

/-- A step that keeps `I` and puts out only what satisfies `O` makes a run that does. -/
theorem run_inv {I : σ → Prop} {O : ο → Prop} (hstep : ∀ s i, I s → I (step s i).1 ∧ ∀ o ∈ (step s i).2, O o) :
    ∀ {s : σ} (is : List ι), I s → I (run step s is).1 ∧ ∀ o ∈ (run step s is).2, O o
  | s, [], h => ⟨h, by simp⟩
  | s, i :: is, h => by
    obtain ⟨h₁, ho₁⟩ := hstep s i h
    obtain ⟨h₂, ho₂⟩ := run_inv hstep is h₁
    refine ⟨h₂, fun o ho => ?_⟩
    rcases List.mem_append.mp ho with ho | ho
    · exact ho₁ o ho
    · exact ho₂ o ho

/-- What a guarded step keeps holds after every part of a run whose steps all meet the guard. -/
theorem run_inv_of_guard {I : σ → Prop} {C : σ → ι → Prop} (hstep : ∀ s i, I s → C s i → I (step s i).1) :
    ∀ {s : σ} {is : List ι}, I s → (∀ js i, js ++ [i] <+: is → C (run step s js).1 i) →
      ∀ js, js <+: is → I (run step s js).1
  | _, _, h, _, [], _ => h
  | _, [], _, _, _ :: _, hjs => absurd hjs (by simp)
  | s, i :: is, h, hC, j :: js, hjs => by
    obtain ⟨rfl, htail⟩ := List.cons_prefix_cons.mp hjs
    have h₁ : I (step s j).1 := hstep s j h (hC [] j (by simp))
    refine run_inv_of_guard hstep h₁ (fun js k hk => ?_) js htail
    exact hC (j :: js) k (List.cons_prefix_cons.mpr ⟨rfl, hk⟩)

/-- Steps that keep two machines related, outputs pairwise, make runs that do. -/
theorem run_sim {step' : τ → ι → τ × List π} {S : σ → τ → Prop} {O : ο → π → Prop}
    (hstep : ∀ s t i, S s t → S (step s i).1 (step' t i).1 ∧ List.Forall₂ O (step s i).2 (step' t i).2) :
    ∀ {s : σ} {t : τ} (is : List ι), S s t →
      S (run step s is).1 (run step' t is).1 ∧ List.Forall₂ O (run step s is).2 (run step' t is).2
  | _, _, [], h => ⟨h, .nil⟩
  | s, t, i :: is, h => by
    obtain ⟨h₁, ho₁⟩ := hstep s t i h
    obtain ⟨h₂, ho₂⟩ := run_sim hstep is h₁
    exact ⟨h₂, List.rel_append ho₁ ho₂⟩

/-- What the outputs of one run satisfy, the related outputs of the other do. -/
theorem forall_mem_iff {O : ο → π → Prop} {P : ο → Prop} {Q : π → Prop} (h : ∀ o p, O o p → (P o ↔ Q p)) :
    ∀ {os : List ο} {ps : List π}, List.Forall₂ O os ps → ((∀ o ∈ os, P o) ↔ ∀ p ∈ ps, Q p)
  | _, _, .nil => by simp
  | _, _, .cons ho hos => by simp only [List.forall_mem_cons, h _ _ ho, forall_mem_iff h hos]

/-- Outputs related to outputs related to a third list. -/
theorem forall₂_trans {ρ : Type*} {O : ο → π → Prop} {P : π → ρ → Prop} {R : ο → ρ → Prop} :
    ∀ {os : List ο} {ps : List π} {rs : List ρ}, List.Forall₂ O os ps → List.Forall₂ P ps rs →
      (∀ o p r, O o p → P p r → R o r) → List.Forall₂ R os rs
  | _, _, _, .nil, .nil, _ => .nil
  | _, _, _, .cons ho hos, .cons hp hps, h => .cons (h _ _ _ ho hp) (forall₂_trans hos hps h)

/-! ## Families -/

section Family

variable {κ : Type*} [DecidableEq κ] (step : κ → σ → ι → σ × List ο)

/-- A family of machines: an input goes to one of them, an output comes with its machine. -/
def family (s : κ → σ) (i : κ × ι) : (κ → σ) × List (κ × ο) :=
  (Function.update s i.1 (step i.1 (s i.1) i.2).1, (step i.1 (s i.1) i.2).2.map (Prod.mk i.1))

/-- What is marked with `k`, in order. -/
def only {α : Type*} (k : κ) (l : List (κ × α)) : List α := l.filterMap fun p => if p.1 = k then some p.2 else none

theorem only_cons {α : Type*} (k : κ) (p : κ × α) (l : List (κ × α)) :
    only k (p :: l) = (if p.1 = k then [p.2] else []) ++ only k l := by
  unfold only
  by_cases h : p.1 = k <;> simp [h]

theorem only_append {α : Type*} (k : κ) (l l' : List (κ × α)) : only k (l ++ l') = only k l ++ only k l' :=
  List.filterMap_append

theorem only_map_mk {α : Type*} (k k' : κ) (l : List α) :
    only k (l.map (Prod.mk k')) = if k' = k then l else [] := by
  by_cases h : k' = k
  · simp [only, h]
  · simp [only, h]

/-- **Each machine of a family runs as alone**, on the inputs that go to it. -/
theorem run_family (k : κ) : ∀ (s : κ → σ) (is : List (κ × ι)),
    (run (family step) s is).1 k = (run (step k) (s k) (only k is)).1 ∧
      only k (run (family step) s is).2 = (run (step k) (s k) (only k is)).2
  | _, [] => ⟨rfl, rfl⟩
  | s, (k', i) :: is => by
    obtain ⟨hstate, hout⟩ := run_family k (family step s (k', i)).1 is
    rw [run_cons, only_append, hstate, hout, only_cons]
    by_cases h : k' = k
    · subst h
      simp only [family, Function.update_self, only_map_mk, if_true, List.singleton_append, run_cons]
      exact ⟨trivial, trivial⟩
    · simp only [family, Function.update_of_ne (Ne.symm h), only_map_mk, if_neg h, List.nil_append]
      exact ⟨trivial, trivial⟩

theorem mem_only {α : Type*} {k : κ} {a : α} {l : List (κ × α)} : a ∈ only k l ↔ (k, a) ∈ l := by
  simp [only]

theorem only_filter {α : Type*} (k : κ) (l : List (κ × α)) : only k (l.filter fun p => p.1 = k) = only k l := by
  rw [only, List.filterMap_filter, only]
  refine List.filterMap_congr fun p _ => ?_
  by_cases h : p.1 = k <;> simp [h]

/-- What all comes from `k`. -/
theorem map_snd_eq_only {α : Type*} {k : κ} {l : List (κ × α)} (h : ∀ p ∈ l, p.1 = k) : l.map Prod.snd = only k l := by
  rw [only, ← List.filterMap_eq_map]
  exact List.filterMap_congr fun p hp => by simp [h p hp]

/-- An output comes from a machine that has had an input. -/
theorem mem_keys_of_mem_family : ∀ (s : κ → σ) (is : List (κ × ι)), ∀ p ∈ (run (family step) s is).2,
    p.1 ∈ is.map Prod.fst
  | _, [], _, hp => by simp at hp
  | s, i :: is, p, hp => by
    rw [run_cons, List.mem_append] at hp
    rw [List.map_cons, List.mem_cons]
    rcases hp with hp | hp
    · obtain ⟨o, -, rfl⟩ := List.mem_map.mp hp
      exact .inl rfl
    · exact .inr (mem_keys_of_mem_family _ is p hp)

end Family

end Lib.Mealy
