/-
The processes of a trial start. `fork` stands in the constructor of
`OpensmileSession`, which the loop of `InitializeParticipants` calls: a child
whose `smile_run` returns comes back into its own copy of that loop.

Processes are numbered as they are forked, the Manager's own being 0. Each has
its copy of the Manager's fields and of the loop's arguments. A step is a step
of one process, so the runs are all interleavings.
-/
import SpeechAnalyzer.Lib.Transition
import SpeechAnalyzer.Manager

namespace SpeechAnalyzer

open Lib Transition Manager

variable {ν : Type}

/-- Where a process is: at the head of the loop of `InitializeParticipants`,
inside `smile_run` as session `i`, or back in `Mosquitto::loop` as a Manager. -/
inductive Pc
  | initializing (i : Nat)
  | inSession (i : Nat)
  | listening
deriving DecidableEq, Repr

structure Process where
  pc : Pc
  manager : Manager
deriving DecidableEq, Repr

/-- The arguments of `InitializeParticipants`, and the pid of the first child. -/
structure Start where
  participants : List Str
  trialId : Str
  experimentId : Str
  nextPid : Nat
deriving DecidableEq, Repr

/-- The process with its session appended to the vector, at the next turn. -/
def Process.push (a : Start) (p : Process) (i pid : Nat) : Process where
  pc := .initializing (i + 1)
  manager := ⟨p.manager.participantSessions ++ [.new (a.participants.getD i []) a.trialId a.experimentId pid]⟩

/-- A step of process `k`; `returns k` says whether `smile_run` returns in it. -/
def Start.step (a : Start) (returns : Nat → Bool) (ps : List Process) (k : Nat) : Option (List Process) :=
  match ps[k]? with
  | none => none
  | some p =>
    match p.pc with
    | .initializing i =>
      if i < a.participants.length then
        some (ps.set k (p.push a i (a.nextPid + (ps.length - 1))) ++ [{ p with pc := .inSession i }])
      else some (ps.set k { p with pc := .listening })
    | .inSession i => if returns k then some (ps.set k (p.push a i 0)) else none
    | .listening => none

/-- The Manager's process, the message read and the trial cleared. -/
def Start.initial (m : Manager) : List Process := [⟨.initializing 0, m⟩]

/-- The processes besides the Manager's are sessions and stay in them, and once
the message is handled there is one for each participant. -/
structure OneEach (a : Start) (ps : List Process) : Prop where
  inSession : ∀ p ∈ ps.tail, ∃ i, p.pc = .inSession i
  one : ps.head?.map Process.pc = some .listening →
    ps.tail.map Process.pc = (List.range a.participants.length).map Pc.inSession

/-! ## As long as no session returns -/

/-- The sessions the Manager has pushed at turn `j`. -/
def Start.pushed (a : Start) (m : Manager) (j : Nat) : Manager :=
  ⟨m.participantSessions ++ (newSessions a.participants a.trialId a.experimentId a.nextPid).take j⟩

/-- The processes at turn `j`. -/
def Start.turn (a : Start) (m : Manager) (pc : Pc) (j : Nat) : List Process :=
  ⟨pc, a.pushed m j⟩ :: (List.range j).map fun i => ⟨.inSession i, a.pushed m i⟩

/-- The Manager in its loop or done with it, and one session for each turn. -/
def Start.Orderly (a : Start) (m : Manager) (ps : List Process) : Prop :=
  (∃ j ≤ a.participants.length, ps = a.turn m (.initializing j) j) ∨
    ps = a.turn m .listening a.participants.length

namespace Start

variable {a : Start} {m : Manager} {returns : Nat → Bool} {pc : Pc} {j k : Nat}

theorem pushed_succ (hj : j < a.participants.length) :
    a.pushed m (j + 1) = ⟨(a.pushed m j).participantSessions ++
      [.new (a.participants.getD j []) a.trialId a.experimentId (a.nextPid + j)]⟩ := by
  have hget : (newSessions a.participants a.trialId a.experimentId a.nextPid)[j]? =
      some (.new (a.participants.getD j []) a.trialId a.experimentId (a.nextPid + j)) := by
    simp [newSessions, hj]
  rw [pushed, List.take_add_one, hget, pushed, List.append_assoc]
  rfl

/-- At the end the Manager's fields are as `InitializeParticipants` leaves them. -/
theorem pushed_length :
    a.pushed m a.participants.length =
      (initializeParticipants a.participants a.trialId a.experimentId a.nextPid m : Manager × List (Effect ν)).1 := by
  have hlength : (newSessions a.participants a.trialId a.experimentId a.nextPid).length = a.participants.length := by
    simp [newSessions]
  rw [initializeParticipants_eq, pushed, ← hlength, List.take_length]

theorem getElem?_turn_succ (hk : k < j) : (a.turn m pc j)[k + 1]? = some ⟨.inSession k, a.pushed m k⟩ := by
  simp [turn, hk]

theorem getElem?_turn_succ_of_le (hk : j ≤ k) : (a.turn m pc j)[k + 1]? = none := by
  simp [turn, hk]

theorem step_fork (hj : j < a.participants.length) :
    a.step returns (a.turn m (.initializing j) j) 0 = some (a.turn m (.initializing (j + 1)) (j + 1)) := by
  simp only [step, turn, List.getElem?_cons_zero, if_pos hj, Process.push, List.set_cons_zero, List.length_cons,
    List.length_map, List.length_range, Nat.add_sub_cancel, List.range_succ, List.map_append, pushed_succ hj]
  rfl

theorem step_done (m : Manager) (returns : Nat → Bool) :
    a.step returns (a.turn m (.initializing a.participants.length) a.participants.length) 0 =
      some (a.turn m .listening a.participants.length) := by
  simp only [step, turn, List.getElem?_cons_zero, if_neg (Nat.lt_irrefl _), List.set_cons_zero]

theorem step_child (hk : k < j) : a.step returns (a.turn m pc j) (k + 1) =
    if returns (k + 1) then
      some ((a.turn m pc j).set (k + 1) (Process.push a ⟨.inSession k, a.pushed m k⟩ k 0))
    else none := by
  simp only [step, getElem?_turn_succ hk]

theorem step_orderly (hnone : ∀ k, 0 < k → k ≤ a.participants.length → returns k = false) {ps ps' : List Process}
    (h : a.Orderly m ps) (hstep : a.step returns ps k = some ps') : a.Orderly m ps' := by
  -- Whatever the Manager's turn, no other process can step.
  have hchild {pc : Pc} {j k : Nat} (hj : j ≤ a.participants.length) :
      a.step returns (a.turn m pc j) (k + 1) = none := by
    rcases Nat.lt_or_ge k j with hk | hk
    · rw [step_child hk, hnone (k + 1) (Nat.succ_pos k) (by omega)]
      rfl
    · simp only [step, getElem?_turn_succ_of_le hk]
  rcases h with ⟨j, hj, rfl⟩ | rfl
  · cases k with
    | succ k => simp [hchild hj] at hstep
    | zero =>
      rcases Nat.lt_or_eq_of_le hj with hlt | rfl
      · rw [step_fork hlt] at hstep
        exact .inl ⟨j + 1, hlt, (Option.some.inj hstep).symm⟩
      · rw [step_done] at hstep
        exact .inr (Option.some.inj hstep).symm
  · cases k with
    | succ k => simp [hchild (Nat.le_refl _)] at hstep
    | zero => simp [step, turn] at hstep

theorem initial_eq : initial m = a.turn m (.initializing 0) 0 := by simp [initial, turn, pushed]

theorem reachable_turn : ∀ {j : Nat}, j ≤ a.participants.length →
    Reachable (a.step returns) (initial m) (a.turn m (.initializing j) j)
  | 0, _ => initial_eq ▸ .refl _
  | _ + 1, hj => (reachable_turn (Nat.le_of_succ_le hj)).snoc (step_fork hj)

theorem Orderly.oneEach {ps : List Process} (h : a.Orderly m ps) : OneEach a ps := by
  have hsession {pc : Pc} {j : Nat} : ∀ p ∈ (a.turn m pc j).tail, ∃ i, p.pc = .inSession i := by
    simp only [turn, List.tail_cons, List.forall_mem_map]
    exact fun i _ => ⟨i, rfl⟩
  rcases h with ⟨j, -, rfl⟩ | rfl
  · exact ⟨hsession, fun h => absurd (Option.some.inj h) (by simp)⟩
  · exact ⟨hsession, fun _ => by simp [turn, Function.comp_def]⟩

end Start

/-- **A trial start makes one session process for each participant, and no
process but the Manager's goes on in `InitializeParticipants` or listens as a
Manager, exactly when `smile_run` returns in none of these processes.** -/
theorem oneEach_iff (a : Start) (m : Manager) (returns : Nat → Bool) :
    (∀ ps, Reachable (a.step returns) (Start.initial m) ps → OneEach a ps) ↔
      ∀ k, 0 < k → k ≤ a.participants.length → returns k = false := by
  refine ⟨?_, ?_⟩
  · intro hall k hpos hle
    rw [Bool.eq_false_iff]
    intro hreturns
    obtain ⟨k, rfl⟩ := Nat.exists_eq_succ_of_ne_zero (Nat.ne_of_gt hpos)
    have hstep : a.step returns (a.turn m (.initializing (k + 1)) (k + 1)) (k + 1) = _ :=
      Start.step_child (Nat.lt_succ_self k)
    rw [if_pos hreturns] at hstep
    have hone := hall _ ((Start.reachable_turn hle).snoc hstep)
    -- The child is back at the head of the loop.
    obtain ⟨i, hi⟩ := hone.inSession (Process.push a ⟨.inSession k, a.pushed m k⟩ k 0) (by
      rw [Start.turn, List.set_cons_succ, List.tail_cons]
      exact List.mem_set (by simp) _)
    cases hi
  · intro hnone ps hps
    have horderly : a.Orderly m ps :=
      hps.inv (I := a.Orderly m) (fun _ _ _ h hs => Start.step_orderly hnone h hs)
        (.inl ⟨0, Nat.zero_le _, Start.initial_eq⟩)
    exact horderly.oneEach

/-- A start for two participants. -/
def twoParticipants : Start := ⟨["Red".toList, "Blue".toList], "T".toList, "E".toList, 2⟩

/-- With sessions that return, two participants make four Managers. -/
theorem returning_sessions_listen : ∃ ps,
    Reachable (twoParticipants.step fun _ => true) (Start.initial ⟨[]⟩) ps ∧
      ps.map Process.pc = List.replicate 4 .listening ∧ ¬ OneEach twoParticipants ps := by
  refine ⟨_, ⟨[0, 0, 0, 1, 1, 1, 2, 2, 3, 3], rfl⟩, by decide +kernel, fun h => ?_⟩
  obtain ⟨i, hi⟩ := h.inSession _ (.head _)
  revert hi
  simp

end SpeechAnalyzer
