/-
From the messages and log lines to the request: what a thread sends to the MMC
server while the sessions go on recording and other threads run. Each of its
queries comes at a moment of its own, and the word is told the frames that its
session has begun by then (`sent_of_run`).
-/
import SpeechAnalyzer.AgentThreads
import SpeechAnalyzer.AgentWords

namespace SpeechAnalyzer

open Lib Transition Manager ASRProcessor

variable {ν : Type}

namespace Host

variable {R : Json.Reader ν} {D : Doubles ν} {columnMap : ColumnMap} {columns : List Str}

/-- Messages and calls are never removed. -/
theorem exec_extends : ∀ {h h' : Host ν} {run : List Turn}, exec (step R D columnMap columns) h run = some h' →
    h.messages <+: h'.messages ∧ h.calls <+: h'.calls
  | h, h', [], hrun => by
    obtain rfl := Option.some.inj hrun
    exact ⟨List.prefix_refl _, List.prefix_refl _⟩
  | h, h', a :: run, hrun => by
    obtain ⟨u, hu, hrest⟩ := exec_cons.mp hrun
    obtain ⟨hmessages, hcalls⟩ := exec_extends hrest
    cases does_of_step hu with
    | occurs _ _ => exact ⟨(List.prefix_append _ _).trans hmessages, hcalls⟩
    | answer _ _ => exact ⟨hmessages, (List.prefix_append _ _).trans hcalls⟩
    | throws _ _ => exact ⟨hmessages, hcalls⟩

/-- After this part of a run, call number `n` of thread `t` is answered. -/
structure Moment (R : Json.Reader ν) (D : Doubles ν) (columnMap : ColumnMap) (columns : List Str) (h : Host ν)
    (run : List Turn) (t n : ℕ) (part : List Turn) (r : Reply) (u : Host ν) : Prop where
  turn : part ++ [.answer t r] <+: run
  reached : exec (step R D columnMap columns) h part = some u
  count : (Mealy.only t u.calls).length = n

theorem Moment.append {h u : Host ν} {run : List Turn} {t n : ℕ} {part : List Turn} {r : Reply}
    (hm : Moment R D columnMap columns h run t n part r u) (rest : List Turn) :
    Moment R D columnMap columns h (run ++ rest) t n part r u :=
  ⟨hm.turn.trans (List.prefix_append _ _), hm.reached, hm.count⟩

/-- The call answered at its moment is, in the end, the thread's call of this number. -/
theorem Moment.call {h u h' : Host ν} {run : List Turn} {t n : ℕ} {part : List Turn} {r : Reply}
    (hm : Moment R D columnMap columns h run t n part r u) (hrun : exec (step R D columnMap columns) h run = some h') :
    ∃ c, (Mealy.only t h'.calls)[n]? = some ⟨c, r.answer (u.world.table columns) c⟩ := by
  obtain ⟨rest, rfl⟩ := hm.turn
  obtain ⟨v, hv, hrest⟩ := exec_append.mp hrun
  obtain ⟨u', hu', hanswer⟩ := exec_append.mp hv
  obtain rfl := Option.some.inj (hm.reached.symm.trans hu')
  obtain ⟨v', hv', hnil⟩ := exec_cons.mp hanswer
  obtain rfl := Option.some.inj hnil
  obtain ⟨later, hlater⟩ := (exec_extends hrest).2
  cases does_of_step hv' with
  | @answer _ _ c _ _ _ =>
    refine ⟨c, ?_⟩
    rw [← hlater, Mealy.only_append, Mealy.only_append, Mealy.only_cons, if_pos rfl, List.append_assoc,
      List.getElem?_append_right (Nat.le_of_eq hm.count), hm.count, Nat.sub_self]
    rfl

end Host

/-! ## The queries of a request -/

namespace ASRProcessor

open AsrAnswered

variable {D : Doubles ν} {columnMap : ColumnMap} {columns : List Str}

end ASRProcessor

/-! ## The words of a request -/

section Requests

variable {P : DecimalPrinter} {pairs : List (Str × Str)} {columnMap : ColumnMap} {columns : List Str}
  {R : Json.Reader Decimal} {stored : List Stored} {before after : List Turn} {trialId : Str}
  {sessions : List OpensmileSession} {h₁ h₂ h : Host Decimal} {k t : ℕ} {session : OpensmileSession}

end Requests

/-! ## A request of two words -/

end SpeechAnalyzer
