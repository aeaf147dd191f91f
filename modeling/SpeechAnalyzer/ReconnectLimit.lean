/-
When `Mosquitto::loop` gives up. `error_counter` goes back to zero on a
successful `mosquitto_loop` only: the `continue` after a successful reconnect
leaves it as it is, so the attempts it counts need not be in a row.
-/
import SpeechAnalyzer.Mosquitto
import SpeechAnalyzer.Lib.Tally

namespace SpeechAnalyzer

open Lib Mosquitto

namespace Mosquitto

/-- What a turn of the loop comes to: `mosquitto_loop` succeeds, or it fails and
the reconnect does or does not. -/
inductive TurnOutcome
  | polled
  | reconnected
  | failed
deriving DecidableEq, Repr

def Round.outcome (r : Round) : TurnOutcome :=
  if r.polled = MOSQ_ERR_SUCCESS then .polled
  else if r.reconnected = MOSQ_ERR_SUCCESS then .reconnected
  else .failed

def Round.polls (r : Round) : Bool := r.outcome == .polled

def Round.fails (r : Round) : Bool := r.outcome == .failed

/-- What the loop reports when it gives up. -/
def maximumReached : MosqCall := .onError "Maximum number of reconnection attempts was reached.".toList

/-- The wrapper after these turns of `loop(true)`. -/
def after (m : Mosquitto) (now : Time) (done : List Round) : Loop := (Mealy.run (turn true) (startLoop m now) done).1

/-- In this turn there is neither a time-out nor a change of `running` from outside. -/
structure Calm (l : Loop) (r : Round) : Prop where
  stopped : r.stopped = false
  timeOut : (Mealy.run callback l.toMosquitto r.callbacks).1.timeOut r.currentTime = false

/-- The loop stops by a rule on the turns so far: it goes on while the rule does
not hold, and reports the end in the first turn with which it does. -/
structure StopsBy (rule : List Round → Prop) (m : Mosquitto) (now : Time) (rounds : List Round) : Prop where
  running : ∀ done, done <+: rounds → ((after m now done).running = true ↔ ¬ rule done)
  looping : ∀ done, done <+: rounds → (after m now done).looping = (after m now done).running
  reports : ∀ done r, done ++ [r] <+: rounds →
    (maximumReached ∈ (turn true (after m now done) r).2 ↔ rule (done ++ [r]) ∧ ¬ rule done)

/-- More reconnects than `MAX_NUM_RECONNECTIONS` have failed in a row: none
succeeds between them, and no `mosquitto_loop` either. -/
def FailedInARow (rounds : List Round) : Prop :=
  Tally.Exceeds (fun r : Round => !r.fails) Round.fails MAX_NUM_RECONNECTIONS rounds

/-- More reconnects than `MAX_NUM_RECONNECTIONS` have failed without a
successful `mosquitto_loop` between them. -/
def FailedUnpolled (rounds : List Round) : Prop :=
  Tally.Exceeds Round.polls Round.fails MAX_NUM_RECONNECTIONS rounds

/-! ## The two rules -/

theorem FailedInARow.failedUnpolled {rounds : List Round} (h : FailedInARow rounds) : FailedUnpolled rounds := by
  refine Tally.Exceeds.of_resets h fun r hr => ?_
  have hfails : r.outcome = .failed := by simpa [Round.fails] using hr
  simp [Round.polls, hfails]

/-- Two rules that stop a run stop it at the same turn. -/
theorem StopsBy.iff {rule rule' : List Round → Prop} {m : Mosquitto} {now : Time} {rounds : List Round}
    (h : StopsBy rule m now rounds) :
    StopsBy rule' m now rounds ↔ ∀ done, done <+: rounds → (rule done ↔ rule' done) := by
  refine ⟨?_, ?_⟩
  · intro h' done hdone
    exact not_iff_not.mp ((h.running done hdone).symm.trans (h'.running done hdone))
  · intro hsame
    refine ⟨fun done hdone => ?_, h.looping, fun done r hdone => ?_⟩
    · rw [h.running done hdone, hsame done hdone]
    · rw [h.reports done r hdone, hsame _ hdone, hsame done ((List.prefix_append done [r]).trans hdone)]

/-! ## What a turn does to the counter -/

theorem running_callbacks (m : Mosquitto) (callbacks : List Callback) :
    (Mealy.run callback m callbacks).1.running = m.running := by
  have hstep (m' : Mosquitto) (cb : Callback) (h : m'.running = m.running) :
      (callback m' cb).1.running = m.running ∧ ∀ c ∈ (callback m' cb).2, True := by
    cases cb with
    | connect errorCode => exact ⟨h, fun _ _ => trivial⟩
    | message time topic payload => exact ⟨h, fun _ _ => trivial⟩
  have hrun := Mealy.run_inv hstep callbacks rfl
  exact hrun.1

theorem Calm.running {l : Loop} {r : Round} (h : Calm l r) (hrunning : l.running = true) :
    (l.toMosquitto.polled r).running = true := by
  simp [polled, running_callbacks, hrunning, h.stopped, h.timeOut]

/-- A refused connection is reported in other words. -/
theorem maximumReached_not_mem_callback (m : Mosquitto) (cb : Callback) : maximumReached ∉ (callback m cb).2 := by
  cases cb with
  | message time topic payload => simp [callback, maximumReached]
  | connect errorCode =>
    show maximumReached ∉ callbackOnConnect errorCode
    unfold callbackOnConnect maximumReached
    split
    · simp [onConnected]
    all_goals simp

theorem maximumReached_not_mem_pollCalls (m : Mosquitto) (r : Round) : maximumReached ∉ m.pollCalls r := by
  have hstep (m : Mosquitto) (cb : Callback) (_ : True) : True ∧ ∀ c ∈ (callback m cb).2, maximumReached ≠ c :=
    ⟨trivial, fun c hc heq => maximumReached_not_mem_callback m cb (heq ▸ hc)⟩
  have hcallbacks := Mealy.run_inv (I := fun _ => True) hstep (s := m) r.callbacks trivial
  have hend : maximumReached ∉ MosqCall.mosquittoLoop r.polled ::
      if (Mealy.run callback m r.callbacks).1.timeOut r.currentTime then [.onTimeOut] else [] := by
    unfold maximumReached
    split
    · simp
    · simp
  intro hmem
  rcases List.mem_append.mp hmem with hmem | hmem
  · exact hcallbacks.2 _ hmem rfl
  · exact hend hmem

/-- The counter after a turn, and what the turn makes of it. -/
theorem turn_calm {l : Loop} {r : Round} (hlooping : l.looping = true) (hrunning : l.running = true)
    (hcalm : Calm l r) (hcounter : l.errorCounter ≤ MAX_NUM_RECONNECTIONS) :
    (turn true l r).1.errorCounter =
        (if r.polls then 0 else if r.fails then l.errorCounter + 1 else l.errorCounter) ∧
      ((turn true l r).1.running = true ↔ (turn true l r).1.errorCounter ≤ MAX_NUM_RECONNECTIONS) ∧
      (turn true l r).1.looping = (turn true l r).1.running ∧
      (maximumReached ∈ (turn true l r).2 ↔ MAX_NUM_RECONNECTIONS < (turn true l r).1.errorCounter) := by
  have hpoll := maximumReached_not_mem_pollCalls l.toMosquitto r
  have hreconnect : maximumReached ∉ l.toMosquitto.pollCalls r ++ [.mosquittoReconnect r.reconnected] := by
    intro hmem
    rcases List.mem_append.mp hmem with hmem | hmem
    · exact hpoll hmem
    · cases List.mem_singleton.mp hmem
  have hrun := hcalm.running hrunning
  unfold turn Round.polls Round.fails Round.outcome
  rw [if_pos hlooping]
  simp only [if_pos hrun]
  by_cases hpolled : r.polled = MOSQ_ERR_SUCCESS
  · rw [if_neg (not_not.mpr hpolled), if_pos hpolled]
    exact ⟨rfl, ⟨fun _ => Nat.zero_le _, fun _ => hrun⟩, hrun.symm,
      ⟨fun h => absurd h hpoll, fun h => absurd h (Nat.not_lt_zero _)⟩⟩
  rw [if_pos hpolled, if_neg hpolled]
  by_cases hreconnected : r.reconnected = MOSQ_ERR_SUCCESS
  · rw [if_pos hreconnected, if_pos hreconnected]
    exact ⟨rfl, ⟨fun _ => hcounter, fun _ => hrun⟩, hrun.symm,
      ⟨fun h => absurd h hreconnect, fun h => absurd h (Nat.not_lt.mpr hcounter)⟩⟩
  rw [if_neg hreconnected, if_neg hreconnected]
  by_cases hlimit : l.errorCounter + 1 > MAX_NUM_RECONNECTIONS
  · rw [if_pos hlimit]
    exact ⟨rfl, ⟨fun h => absurd h Bool.false_ne_true, fun h => absurd hlimit (Nat.not_lt.mpr h)⟩, rfl,
      ⟨fun _ => hlimit, fun _ => List.mem_append_right _ (.tail _ (.head _))⟩⟩
  · rw [if_neg hlimit]
    exact ⟨rfl, ⟨fun _ => Nat.not_lt.mp hlimit, fun _ => hrun⟩, hrun.symm,
      ⟨fun h => absurd h hreconnect, fun h => absurd h hlimit⟩⟩

/-! ## Over a run -/

/-- While the loop goes on, `error_counter` counts the failed reconnects since
the last successful `mosquitto_loop`. -/
structure Tracks (l : Loop) (done : List Round) : Prop where
  looping : l.looping = l.running
  running : l.running = true ↔ ¬ FailedUnpolled done
  counter : l.running = true → l.errorCounter = Tally.tally Round.polls Round.fails done

theorem Tracks.counter_le {l : Loop} {done : List Round} (h : Tracks l done) (hrunning : l.running = true) :
    l.errorCounter ≤ MAX_NUM_RECONNECTIONS := by
  rw [h.counter hrunning]
  refine Nat.not_lt.mp fun hlimit => h.running.mp hrunning ?_
  exact Tally.exceeds_iff.mpr ⟨done, List.prefix_rfl, hlimit⟩

theorem tracks_startLoop {m : Mosquitto} (hm : m.running = true) (now : Time) : Tracks (startLoop m now) [] :=
  ⟨hm.symm, ⟨fun _ => Tally.not_exceeds_nil, fun _ => hm⟩, fun _ => rfl⟩

theorem Tracks.step {l : Loop} {done : List Round} (h : Tracks l done) {r : Round} (hcalm : Calm l r) :
    Tracks (turn true l r).1 (done ++ [r]) ∧
      (maximumReached ∈ (turn true l r).2 ↔ FailedUnpolled (done ++ [r]) ∧ ¬ FailedUnpolled done) := by
  have hconcat : FailedUnpolled (done ++ [r]) ↔
      MAX_NUM_RECONNECTIONS < Tally.tally Round.polls Round.fails (done ++ [r]) ∨ FailedUnpolled done :=
    Tally.exceeds_concat
  cases hrunning : l.running with
  | false =>
    -- The loop has ended, and its rule has been met.
    have hturn : turn true l r = (l, []) := by
      unfold turn
      rw [h.looping, hrunning]
      rfl
    have hdone : FailedUnpolled done := by
      by_contra hnot
      rw [h.running.mpr hnot] at hrunning
      cases hrunning
    have hdone' : FailedUnpolled (done ++ [r]) := hconcat.mpr (.inr hdone)
    rw [hturn]
    refine ⟨⟨h.looping, ⟨fun hr => ?_, fun hnot => absurd hdone' hnot⟩, fun hr => ?_⟩, ?_⟩
    · rw [hrunning] at hr
      cases hr
    · rw [hrunning] at hr
      cases hr
    · exact ⟨fun hmem => absurd hmem List.not_mem_nil, fun hparts => absurd hdone hparts.2⟩
  | true =>
    have hnot := h.running.mp hrunning
    obtain ⟨hcounter, hrun, hlooping, hreport⟩ :=
      turn_calm (h.looping.trans hrunning) hrunning hcalm (h.counter_le hrunning)
    have htally : (turn true l r).1.errorCounter = Tally.tally Round.polls Round.fails (done ++ [r]) := by
      rw [hcounter, Tally.tally_concat, h.counter hrunning]
    have hnow : FailedUnpolled (done ++ [r]) ↔ MAX_NUM_RECONNECTIONS < (turn true l r).1.errorCounter := by
      rw [hconcat, htally, or_iff_left hnot]
    refine ⟨⟨hlooping, ?_, fun _ => htally⟩, ?_⟩
    · rw [hrun, hnow, Nat.not_lt]
    · rw [hreport, hnow, and_iff_left hnot]

theorem after_concat (m : Mosquitto) (now : Time) (done : List Round) (r : Round) :
    after m now (done ++ [r]) = (turn true (after m now done) r).1 :=
  Mealy.run_concat ..

section Run

variable {m : Mosquitto} (hm : m.running = true) (now : Time) {rounds : List Round}
  (hcalm : ∀ done r, done ++ [r] <+: rounds → Calm (after m now done) r)

include hm hcalm

theorem tracks_after {done : List Round} (hdone : done <+: rounds) : Tracks (after m now done) done := by
  induction done using List.reverseRecOn with
  | nil => exact tracks_startLoop hm now
  | append_singleton done r ih =>
    have hbefore := ih ((List.prefix_append done [r]).trans hdone)
    rw [after_concat]
    exact (hbefore.step (hcalm done r hdone)).1

/-- The rule the code follows. -/
theorem stopsBy_failedUnpolled : StopsBy FailedUnpolled m now rounds := by
  refine ⟨fun done hdone => ?_, fun done hdone => ?_, fun done r hdone => ?_⟩
  · exact (tracks_after hm now hcalm hdone).running
  · exact (tracks_after hm now hcalm hdone).looping
  · have htracks := tracks_after hm now hcalm ((List.prefix_append done [r]).trans hdone)
    exact (htracks.step (hcalm done r hdone)).2

/-- **The loop gives up after more than `MAX_NUM_RECONNECTIONS` failed attempts
in a row exactly when no success of a reconnect is among those it counts**: as
soon as that many have failed without a successful `mosquitto_loop` between
them, that many have failed in a row. -/
theorem stopsBy_inARow_iff :
    StopsBy FailedInARow m now rounds ↔ ∀ done, done <+: rounds → FailedUnpolled done → FailedInARow done := by
  rw [(stopsBy_failedUnpolled hm now hcalm).iff]
  refine ⟨?_, ?_⟩
  · exact fun hsame done hdone => (hsame done hdone).mp
  · exact fun hsub done hdone => ⟨hsub done hdone, FailedInARow.failedUnpolled⟩

end Run

/-! ## A broker that flaps -/

instance : DecidablePred FailedInARow := fun rounds => inferInstanceAs (Decidable (Tally.Exceeds _ _ _ rounds))

/-- A turn that finds the connection lost. -/
def lostRound (reconnected : MosqErr) : Round where
  callbacks := []
  polled := MOSQ_ERR_CONN_LOST
  currentTime := 0
  stopped := false
  reconnected := reconnected

/-- Three reconnects fail, one succeeds, three fail. -/
def flapping : List Round :=
  [MOSQ_ERR_CONN_LOST, MOSQ_ERR_CONN_LOST, MOSQ_ERR_CONN_LOST, MOSQ_ERR_SUCCESS, MOSQ_ERR_CONN_LOST,
    MOSQ_ERR_CONN_LOST, MOSQ_ERR_CONN_LOST].map lostRound

def listening : Mosquitto := ⟨true, 0, 100000000⟩

theorem calm_flapping (done : List Round) (r : Round) (hdone : done ++ [r] <+: flapping) :
    Calm (after listening 0 done) r := by
  have hmem : r ∈ flapping := hdone.subset (List.mem_append_right done (.head _))
  obtain ⟨reconnected, -, rfl⟩ := List.mem_map.mp hmem
  exact ⟨rfl, by simp [lostRound, timeOut]⟩

theorem stopsBy_inARow_iff_flapping :
    StopsBy FailedInARow listening 0 flapping ↔
      ∀ done, done <+: flapping → FailedUnpolled done → FailedInARow done :=
  stopsBy_inARow_iff rfl 0 calm_flapping

/-- The loop gives up on it. -/
theorem flapping_stops : ¬ ∀ (m : Mosquitto) (now : Time) (rounds : List Round), m.running = true →
    (∀ done r, done ++ [r] <+: rounds → Calm (after m now done) r) → StopsBy FailedInARow m now rounds := by
  intro h
  have hrunning := (h listening 0 flapping rfl calm_flapping).running flapping List.prefix_rfl
  have hstopped : (after listening 0 flapping).running = false := by decide +kernel
  have hrow : ¬ FailedInARow flapping := by decide +kernel
  rw [hrunning.mpr hrow] at hstopped
  cases hstopped

end Mosquitto

end SpeechAnalyzer
