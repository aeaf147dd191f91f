/-
Threads that share a state behind one mutex and wait on one condition variable.

What a thread does under the mutex is one step, up to its end or to the wait;
what it does without the mutex is a step that leaves the same way. `notify_one`
wakes one parked thread, which gets the mutex back in a later step, other
threads possibly before it; a parked thread may also wake on its own.
-/
import SpeechAnalyzer.Lib.Transition
import Mathlib.Algebra.Order.Group.Multiset
import Mathlib.Algebra.Order.Ring.Nat

namespace Lib.Monitor

variable {σ L W α : Type*}

/-- How a section under the mutex ends: it leaves, after a `notify_one` or
not, or it waits and keeps `w` in mind. -/
inductive Exit (σ L W : Type*)
  | leave (shared : σ) (l : L) (notify : Bool)
  | wait (shared : σ) (w : W)

/-- The code of a thread: what it may do while it runs, and what it does once
it has the mutex again after a wait. -/
structure Code (σ L W α : Type*) where
  act : α → L → σ → Option (Exit σ L W)
  resume : W → σ → Exit σ L W

/-- Where a thread is: running its own code, or in the wait, there without a
notification, with one, or awake without one. -/
inductive Thread (L W : Type*)
  | running (l : L)
  | parked (w : W)
  | notified (w : W)
  | woken (w : W)

def Thread.isParked : Thread L W → Bool
  | parked _ => true
  | _ => false

def Thread.isNotified : Thread L W → Bool
  | notified _ => true
  | _ => false

@[simp] theorem isParked_running (l : L) : (Thread.running l : Thread L W).isParked = false := rfl
@[simp] theorem isParked_parked (w : W) : (Thread.parked w : Thread L W).isParked = true := rfl
@[simp] theorem isParked_notified (w : W) : (Thread.notified w : Thread L W).isParked = false := rfl
@[simp] theorem isParked_woken (w : W) : (Thread.woken w : Thread L W).isParked = false := rfl
@[simp] theorem isNotified_running (l : L) : (Thread.running l : Thread L W).isNotified = false := rfl
@[simp] theorem isNotified_parked (w : W) : (Thread.parked w : Thread L W).isNotified = false := rfl
@[simp] theorem isNotified_notified (w : W) : (Thread.notified w : Thread L W).isNotified = true := rfl
@[simp] theorem isNotified_woken (w : W) : (Thread.woken w : Thread L W).isNotified = false := rfl

structure State (σ L W : Type*) where
  shared : σ
  threads : List (Thread L W)

/-- `notify_one`: thread `j`, one of the parked ones if there are any. -/
def notifyOne (threads : List (Thread L W)) (j : Nat) : Option (List (Thread L W)) :=
  match threads[j]? with
  | some (.parked w) => some (threads.set j (.notified w))
  | _ => if threads.any Thread.isParked then none else some threads

/-- Thread `i` comes to the end of its section. -/
def State.settle (s : State σ L W) (i j : Nat) : Exit σ L W → Option (State σ L W)
  | .leave shared l false => some ⟨shared, s.threads.set i (.running l)⟩
  | .leave shared l true => (notifyOne (s.threads.set i (.running l)) j).map (⟨shared, ·⟩)
  | .wait shared w => some ⟨shared, s.threads.set i (.parked w)⟩

/-- A step: thread `i` does something, wakes on its own, or resumes; a
notification in it goes to thread `j`. -/
inductive Label (α : Type*)
  | act (i : Nat) (a : α) (j : Nat)
  | wake (i : Nat)
  | resume (i j : Nat)

def step (c : Code σ L W α) (s : State σ L W) : Label α → Option (State σ L W)
  | .act i a j =>
    match s.threads[i]? with
    | some (.running l) => (c.act a l s.shared).bind (s.settle i j)
    | _ => none
  | .wake i =>
    match s.threads[i]? with
    | some (.parked w) => some { s with threads := s.threads.set i (.woken w) }
    | _ => none
  | .resume i j =>
    match s.threads[i]? with
    | some (.notified w) => s.settle i j (c.resume w s.shared)
    | some (.woken w) => s.settle i j (c.resume w s.shared)
    | _ => none

/-- What a step can be. -/
inductive Moves (c : Code σ L W α) (s t : State σ L W) : Prop
  | act {i j : Nat} {a : α} {l : L} {e : Exit σ L W} (thread : s.threads[i]? = some (.running l))
      (code : c.act a l s.shared = some e) (settle : s.settle i j e = some t)
  | wake {i : Nat} {w : W} (thread : s.threads[i]? = some (.parked w))
      (woken : t = { s with threads := s.threads.set i (.woken w) })
  | resume {i j : Nat} {w : W} (thread : s.threads[i]? = some (.notified w) ∨ s.threads[i]? = some (.woken w))
      (settle : s.settle i j (c.resume w s.shared) = some t)

theorem moves_of_step {c : Code σ L W α} {s t : State σ L W} {a : Label α} (h : step c s a = some t) :
    Moves c s t := by
  cases a with
  | act i a j =>
    simp only [step] at h
    split at h
    · next l hl =>
      obtain ⟨e, he, ht⟩ := Option.bind_eq_some_iff.mp h
      exact .act hl he ht
    · cases h
  | wake i =>
    simp only [step] at h
    split at h
    · next w hw => exact .wake hw (Option.some.inj h).symm
    · cases h
  | resume i j =>
    simp only [step] at h
    split at h
    · next w hw => exact .resume (.inl hw) h
    · next w hw => exact .resume (.inr hw) h
    · cases h

theorem notifyOne_cases {threads threads' : List (Thread L W)} {j : Nat} (h : notifyOne threads j = some threads') :
    (∃ w, threads[j]? = some (.parked w) ∧ threads' = threads.set j (.notified w)) ∨
      ((∀ t ∈ threads, t.isParked = false) ∧ threads' = threads) := by
  unfold notifyOne at h
  split at h
  · next w hw => exact .inl ⟨w, hw, (Option.some.inj h).symm⟩
  · split at h
    · cases h
    · next hnone =>
      refine .inr ⟨?_, (Option.some.inj h).symm⟩
      simpa using hnone

/-! ## What the shared state keeps -/

def Exit.shared : Exit σ L W → σ
  | leave s _ _ => s
  | wait s _ => s

theorem settle_shared {s t : State σ L W} {i j : Nat} {e : Exit σ L W} (h : s.settle i j e = some t) :
    t.shared = e.shared := by
  cases e with
  | leave shared l notify =>
    cases notify with
    | false =>
      obtain rfl := Option.some.inj h
      rfl
    | true =>
      obtain ⟨threads, -, rfl⟩ := Option.map_eq_some_iff.mp h
      rfl
  | wait shared w =>
    obtain rfl := Option.some.inj h
    rfl

/-- What every section keeps of the shared state holds in every state reached. -/
theorem shared_inv {c : Code σ L W α} {I : σ → Prop}
    (hact : ∀ a l s e, I s → c.act a l s = some e → I e.shared) (hresume : ∀ w s, I s → I (c.resume w s).shared)
    {s t : State σ L W} (h : Transition.Reachable (step c) s t) (hs : I s.shared) : I t.shared := by
  refine h.inv (I := fun s => I s.shared) (fun s a t hI ht => ?_) hs
  cases moves_of_step ht with
  | act _ code settle =>
    rw [settle_shared settle]
    exact hact _ _ _ _ hI code
  | wake _ woken =>
    rw [woken]
    exact hI
  | resume _ settle =>
    rw [settle_shared settle]
    exact hresume _ _ hI

/-! ## Resources

Things that are in the shared state or with a running thread; a section moves
them. -/

section Resources

variable {κ : Type*} {free : σ → List κ} {own : L → List κ}

def Exit.held (own : L → List κ) : Exit σ L W → List κ
  | leave _ l _ => own l
  | wait _ _ => []

def Thread.held (own : L → List κ) : Thread L W → List κ
  | running l => own l
  | _ => []

/-- All resources of a state: the free ones, then those of the threads. -/
def State.resources (free : σ → List κ) (own : L → List κ) (s : State σ L W) : List κ :=
  free s.shared ++ s.threads.flatMap (Thread.held own)

/-- No section makes a resource or loses one. -/
structure Conserves (c : Code σ L W α) (free : σ → List κ) (own : L → List κ) : Prop where
  act : ∀ {a l s e}, c.act a l s = some e → (free e.shared ++ e.held own).Perm (free s ++ own l)
  resume : ∀ w s, (free (c.resume w s).shared ++ (c.resume w s).held own).Perm (free s)

/-- What the threads hold when one of them changes. -/
theorem held_set (own : L → List κ) {threads : List (Thread L W)} {i : Nat} {old : Thread L W}
    (h : threads[i]? = some old) (new : Thread L W) :
    ((threads.set i new).flatMap (Thread.held own) ++ old.held own).Perm
      (threads.flatMap (Thread.held own) ++ new.held own) := by
  induction threads generalizing i with
  | nil => simp at h
  | cons t threads ih =>
    cases i with
    | zero =>
      obtain rfl : t = old := by simpa using h
      rw [← Multiset.coe_eq_coe]
      simp only [List.set_cons_zero, List.flatMap_cons, ← Multiset.coe_add]
      ac_rfl
    | succ i =>
      simp only [List.set_cons_succ, List.flatMap_cons, List.append_assoc]
      exact (ih (by simpa using h)).append_left _

theorem notifyOne_held {threads threads' : List (Thread L W)} {j : Nat} (h : notifyOne threads j = some threads') :
    (threads'.flatMap (Thread.held own)).Perm (threads.flatMap (Thread.held own)) := by
  rcases notifyOne_cases h with ⟨w, hw, rfl⟩ | ⟨-, rfl⟩
  · simpa [Thread.held] using held_set own hw (.notified w)
  · exact .refl _

/-- The end of a section, for the thread that held `old` when it began. -/
theorem settle_resources {s t : State σ L W} {i j : Nat} {e : Exit σ L W} {old : Thread L W}
    (hold : s.threads[i]? = some old) (h : s.settle i j e = some t)
    (he : (free e.shared ++ e.held own).Perm (free s.shared ++ old.held own)) :
    (t.resources free own).Perm (s.resources free own) := by
  have hthreads : ∃ new : Thread L W, new.held own = e.held own ∧
      (t.threads.flatMap (Thread.held own)).Perm ((s.threads.set i new).flatMap (Thread.held own)) := by
    cases e with
    | leave shared l notify =>
      refine ⟨.running l, rfl, ?_⟩
      cases notify with
      | false =>
        obtain rfl := Option.some.inj h
        exact .refl _
      | true =>
        obtain ⟨threads, hnotify, rfl⟩ := Option.map_eq_some_iff.mp h
        exact notifyOne_held hnotify
    | wait shared w =>
      obtain rfl := Option.some.inj h
      exact ⟨.parked w, rfl, .refl _⟩
  obtain ⟨new, hnew, hperm⟩ := hthreads
  have hset := held_set own hold new
  rw [hnew] at hset
  rw [State.resources, State.resources, settle_shared h]
  rw [← Multiset.coe_eq_coe] at he hset hperm ⊢
  simp only [← Multiset.coe_add] at he hset hperm ⊢
  -- Both sides with what the thread held before it.
  apply add_right_cancel (b := (old.held own : Multiset κ))
  rw [hperm, add_assoc, hset, add_left_comm, he]
  ac_rfl

/-- **Resources are conserved.** -/
theorem Conserves.reachable {c : Code σ L W α} (hc : Conserves c free own) {s t : State σ L W}
    (h : Transition.Reachable (step c) s t) : (t.resources free own).Perm (s.resources free own) := by
  refine h.inv (I := fun u => (u.resources free own).Perm (s.resources free own)) (fun u a v hI hv => ?_) (.refl _)
  refine List.Perm.trans ?_ hI
  cases moves_of_step hv with
  | act thread code settle => exact settle_resources thread settle (hc.act code)
  | @wake i w thread woken =>
    subst woken
    have hset := held_set own thread (.woken w)
    simp only [Thread.held, List.append_nil] at hset
    exact hset.append_left _
  | resume thread settle =>
    rcases thread with hthread | hthread
    · exact settle_resources hthread settle (by simpa [Thread.held] using hc.resume _ _)
    · exact settle_resources hthread settle (by simpa [Thread.held] using hc.resume _ _)

end Resources

/-! ## Wake-ups -/

/-- Threads wait only when nothing is free, a section that adds something
notifies, and a thread that comes out of the wait takes something. -/
structure Paced (c : Code σ L W α) (free : σ → Nat) : Prop where
  act_leave : ∀ {a l s s' l' n}, c.act a l s = some (.leave s' l' n) → free s' ≤ free s + n.toNat
  act_wait : ∀ {a l s s' w}, c.act a l s = some (.wait s' w) → free s' = 0
  resume_leave : ∀ {w s s' l n}, c.resume w s = .leave s' l n → free s' + 1 ≤ free s + n.toNat
  resume_wait : ∀ {w s s' w'}, c.resume w s = .wait s' w' → free s' = 0

/-- While a thread is parked, what is free has a notified thread coming for it. -/
def NoLostWakeup (free : σ → Nat) (s : State σ L W) : Prop :=
  (∃ t ∈ s.threads, t.isParked = true) → free s.shared ≤ s.threads.countP Thread.isNotified

theorem countP_set {threads : List (Thread L W)} {i : Nat} {old : Thread L W} (h : threads[i]? = some old)
    (new : Thread L W) (p : Thread L W → Bool) :
    (threads.set i new).countP p + (p old).toNat = threads.countP p + (p new).toNat := by
  induction threads generalizing i with
  | nil => simp at h
  | cons t threads ih =>
    cases i with
    | zero =>
      obtain rfl : t = old := by simpa using h
      cases ht : p t <;> cases hn : p new <;> simp [ht, hn]
    | succ i =>
      have ih := ih (i := i) (by simpa using h)
      rw [List.set_cons_succ, List.countP_cons, List.countP_cons]
      omega

theorem exists_parked_iff {threads : List (Thread L W)} :
    (∃ t ∈ threads, t.isParked = true) ↔ 0 < threads.countP Thread.isParked :=
  List.countP_pos_iff.symm

/-- The counts after the end of a section by a thread that is not parked. -/
theorem settle_counts {s t : State σ L W} {i j : Nat} {shared : σ} {l : L} {notify : Bool} {old : Thread L W}
    (hold : s.threads[i]? = some old) (hparked : old.isParked = false)
    (h : s.settle i j (.leave shared l notify) = some t) (hpos : 0 < t.threads.countP Thread.isParked) :
    0 < s.threads.countP Thread.isParked ∧
      t.threads.countP Thread.isNotified + old.isNotified.toNat =
        s.threads.countP Thread.isNotified + notify.toNat := by
  have hp := countP_set hold (.running l) Thread.isParked
  have hn := countP_set hold (.running l) Thread.isNotified
  simp only [hparked, isParked_running, isNotified_running, Bool.toNat_false] at hp hn
  cases notify with
  | false =>
    obtain rfl := Option.some.inj h
    simp only [Bool.toNat_false] at hpos ⊢
    omega
  | true =>
    obtain ⟨threads, hnotify, rfl⟩ := Option.map_eq_some_iff.mp h
    simp only [Bool.toNat_true] at hpos ⊢
    rcases notifyOne_cases hnotify with ⟨w, hw, rfl⟩ | ⟨hnone, rfl⟩
    · have hp' := countP_set hw (.notified w) Thread.isParked
      have hn' := countP_set hw (.notified w) Thread.isNotified
      simp only [isParked_parked, isParked_notified, isNotified_parked, isNotified_notified, Bool.toNat_false,
        Bool.toNat_true] at hp' hn'
      omega
    · obtain ⟨u, hu, hparked⟩ := exists_parked_iff.mpr hpos
      rw [hnone u hu] at hparked
      cases hparked

theorem Paced.keeps {c : Code σ L W α} {free : σ → Nat} (hc : Paced c free) {s t : State σ L W} {a : Label α}
    (hs : NoLostWakeup free s) (h : step c s a = some t) : NoLostWakeup free t := by
  intro hparked
  rw [exists_parked_iff] at hparked
  rw [NoLostWakeup, exists_parked_iff] at hs
  cases moves_of_step h with
  | @act i j a l e thread code settle =>
    rw [settle_shared settle]
    cases e with
    | leave shared l' notify =>
      obtain ⟨hpos, hcount⟩ := settle_counts thread rfl settle hparked
      have hle := hc.act_leave code
      have hs := hs hpos
      simp only [isNotified_running, Bool.toNat_false, Exit.shared] at hcount ⊢
      omega
    | wait shared w =>
      have hzero := hc.act_wait code
      simp only [Exit.shared]
      omega
  | @wake i w thread woken =>
    subst woken
    have hp := countP_set thread (.woken w) Thread.isParked
    have hn := countP_set thread (.woken w) Thread.isNotified
    simp only [isParked_parked, isParked_woken, isNotified_parked, isNotified_woken, Bool.toNat_false,
      Bool.toNat_true] at hp hn hparked ⊢
    have hs := hs (by omega)
    omega
  | @resume i j w thread settle =>
    rw [settle_shared settle]
    cases he : c.resume w s.shared with
    | leave shared l notify =>
      have hle := hc.resume_leave he
      rw [he] at settle
      -- Notified or not, the thread takes one of the free things.
      have hcount : 0 < s.threads.countP Thread.isParked ∧ s.threads.countP Thread.isNotified + notify.toNat ≤
          t.threads.countP Thread.isNotified + 1 := by
        rcases thread with hthread | hthread
        · obtain ⟨hpos, hcount⟩ := settle_counts hthread rfl settle hparked
          simp only [isNotified_notified, Bool.toNat_true] at hcount
          omega
        · obtain ⟨hpos, hcount⟩ := settle_counts hthread rfl settle hparked
          simp only [isNotified_woken, Bool.toNat_false] at hcount
          omega
      have hs := hs hcount.1
      simp only [Exit.shared]
      omega
    | wait shared w' =>
      have hzero := hc.resume_wait he
      simp only [Exit.shared]
      omega

/-- **No wake-up is lost**, when none is at the start. -/
theorem Paced.reachable {c : Code σ L W α} {free : σ → Nat} (hc : Paced c free) {s t : State σ L W}
    (h : Transition.Reachable (step c) s t) (hs : NoLostWakeup free s) : NoLostWakeup free t :=
  h.inv (fun _ _ _ hI hu => hc.keeps hI hu) hs

theorem noLostWakeup_of_running {free : σ → Nat} {s : State σ L W}
    (h : ∀ t ∈ s.threads, t.isParked = false) : NoLostWakeup free s := by
  intro hparked
  obtain ⟨t, ht, hp⟩ := hparked
  rw [h t ht] at hp
  cases hp

/-! ## Work

What is left to do of what has begun: some code that runs leaves less of it than
it finds, and so does a thread that gets the mutex back. -/

section Work

variable {goes : α → Prop} {work : L → Nat} {waiting : W → Nat}

/-- What `goes` says of uses up work, a notification some of it, and so does
coming out of the wait; a thread that goes back into it has no more than before. -/
structure Works (c : Code σ L W α) (goes : α → Prop) (work : L → Nat) (waiting : W → Nat) : Prop where
  act_leave : ∀ {a l s s' l' n}, goes a → c.act a l s = some (.leave s' l' n) → work l' + n.toNat < work l
  act_wait : ∀ {a l s s' w}, goes a → c.act a l s = some (.wait s' w) → waiting w < work l
  resume_leave : ∀ {w s s' l n}, c.resume w s = .leave s' l n → work l + n.toNat ≤ waiting w
  resume_wait : ∀ {w s s' w'}, c.resume w s = .wait s' w' → waiting w' ≤ waiting w

def Thread.left (work : L → Nat) (waiting : W → Nat) : Thread L W → Nat
  | running l => work l
  | parked w => waiting w
  | notified w => waiting w + 1
  | woken w => waiting w + 1

def State.left (work : L → Nat) (waiting : W → Nat) (s : State σ L W) : Nat :=
  (s.threads.map (Thread.left work waiting)).sum

def Exit.left (work : L → Nat) (waiting : W → Nat) : Exit σ L W → Nat
  | leave _ l notify => work l + notify.toNat
  | wait _ w => waiting w

/-- The step goes on with what has begun: nothing new, and no wake-up without a
notification. -/
def Label.GoesOn (goes : α → Prop) : Label α → Prop
  | act _ a _ => goes a
  | wake _ => False
  | resume _ _ => True

theorem sum_set {threads : List (Thread L W)} {i : Nat} {old : Thread L W} (h : threads[i]? = some old)
    (new : Thread L W) (f : Thread L W → Nat) :
    ((threads.set i new).map f).sum + f old = (threads.map f).sum + f new := by
  induction threads generalizing i with
  | nil => simp at h
  | cons t threads ih =>
    cases i with
    | zero =>
      obtain rfl : t = old := by simpa using h
      simp only [List.set_cons_zero, List.map_cons, List.sum_cons]
      omega
    | succ i =>
      have ih := ih (i := i) (by simpa using h)
      simp only [List.set_cons_succ, List.map_cons, List.sum_cons]
      omega

theorem settle_work (work : L → Nat) (waiting : W → Nat) {s t : State σ L W} {i j : Nat} {e : Exit σ L W}
    {old : Thread L W} (hold : s.threads[i]? = some old) (h : s.settle i j e = some t) :
    t.left work waiting + old.left work waiting ≤ s.left work waiting + e.left work waiting := by
  have hset (new : Thread L W) := sum_set hold new (Thread.left work waiting)
  cases e with
  | leave shared l notify =>
    have hrun := hset (.running l)
    cases notify with
    | false =>
      obtain rfl := Option.some.inj h
      simp only [State.left, Exit.left, Thread.left, Bool.toNat_false] at hrun ⊢
      omega
    | true =>
      obtain ⟨threads, hnotify, rfl⟩ := Option.map_eq_some_iff.mp h
      simp only [State.left, Exit.left, Bool.toNat_true] at hrun ⊢
      rcases notifyOne_cases hnotify with ⟨w, hw, rfl⟩ | ⟨-, rfl⟩
      · have hwake := sum_set hw (.notified w) (Thread.left work waiting)
        simp only [Thread.left] at hrun hwake ⊢
        omega
      · simp only [Thread.left] at hrun ⊢
        omega
  | wait shared w =>
    obtain rfl := Option.some.inj h
    have hwait := hset (.parked w)
    simp only [State.left, Exit.left, Thread.left] at hwait ⊢
    omega

theorem Works.less {c : Code σ L W α} (hc : Works c goes work waiting) {s t : State σ L W} {a : Label α}
    (ha : a.GoesOn goes) (h : step c s a = some t) : t.left work waiting < s.left work waiting := by
  cases a with
  | act i a j =>
    simp only [step] at h
    split at h
    · next l hl =>
      obtain ⟨e, he, ht⟩ := Option.bind_eq_some_iff.mp h
      have hless : e.left work waiting < work l := by
        cases e with
        | leave shared l' notify => exact hc.act_leave ha he
        | wait shared w => exact hc.act_wait ha he
      have hsettle := settle_work work waiting hl ht
      simp only [Thread.left] at hsettle
      omega
    · cases h
  | wake i => cases ha
  | resume i j =>
    have hresume {w : W} {old : Thread L W} (hold : s.threads[i]? = some old)
        (hwork : old.left work waiting = waiting w + 1) (ht : s.settle i j (c.resume w s.shared) = some t) :
        t.left work waiting < s.left work waiting := by
      have hle : (c.resume w s.shared).left work waiting ≤ waiting w := by
        cases he : c.resume w s.shared with
        | leave shared l notify => exact hc.resume_leave he
        | wait shared w' => exact hc.resume_wait he
      have hsettle := settle_work work waiting hold ht
      omega
    simp only [step] at h
    split at h
    · next w hw => exact hresume hw rfl h
    · next w hw => exact hresume hw rfl h
    · cases h

/-- **What has begun ends**: a run that only goes on is no longer than the work. -/
theorem Works.length_le {c : Code σ L W α} (hc : Works c goes work waiting) {s t : State σ L W} {as : List (Label α)}
    (has : ∀ a ∈ as, a.GoesOn goes) (h : Transition.exec (step c) s as = some t) :
    as.length ≤ s.left work waiting := by
  have hle := Transition.exec_length_le (m := State.left work waiting) (fun s a t ha ht => hc.less ha ht) has h
  omega

/-- No step that goes on is possible. -/
def Stuck (c : Code σ L W α) (goes : α → Prop) (s : State σ L W) : Prop :=
  ∀ a : Label α, a.GoesOn goes → step c s a = none

end Work

end Lib.Monitor
