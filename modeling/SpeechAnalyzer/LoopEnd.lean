/-
How `Mosquitto::loop` ends: on a time-out, when `running` is cleared from
outside, or after too many failed reconnects, in the first turn in which one of
them comes about; nothing else ends it, and it does nothing afterwards.

A time-out is measured from the last message, or from the start of the loop.
-/
import SpeechAnalyzer.ReconnectLimit

namespace SpeechAnalyzer

open Lib Mosquitto

namespace Mosquitto

/-- The time of the last message among these callbacks, or `now`. -/
def lastMessage (now : Time) (callbacks : List Callback) : Time :=
  callbacks.foldl (fun t cb => match cb with
    | .message time _ _ => time
    | .connect _ => t) now

/-- The last message up to here is too long ago when this turn's poll is over. -/
def TimesOut (m : Mosquitto) (now : Time) (done : List Round) (r : Round) : Prop :=
  m.maxSecondsWithoutMessages <
    (r.currentTime - lastMessage now ((done ++ [r]).flatMap Round.callbacks)) / 1000000000

/-- What ends the loop in the turn after these. -/
def EndsIn (m : Mosquitto) (now : Time) (done : List Round) (r : Round) : Prop :=
  r.stopped = true ∨ TimesOut m now done r ∨ FailedUnpolled (done ++ [r])

/-- The loop has ended in one of these turns. -/
def Over (m : Mosquitto) (now : Time) (rounds : List Round) : Prop :=
  ∃ done r, done ++ [r] <+: rounds ∧ EndsIn m now done r

theorem not_over_nil (m : Mosquitto) (now : Time) : ¬ Over m now [] := by
  rintro ⟨done, r, hpart, -⟩
  simp at hpart

theorem over_concat {m : Mosquitto} {now : Time} {done : List Round} {r : Round} :
    Over m now (done ++ [r]) ↔ Over m now done ∨ EndsIn m now done r := by
  constructor
  · rintro ⟨part, q, hpart, hend⟩
    rcases List.prefix_concat_iff.mp hpart with heq | hpart
    · obtain ⟨rfl, hq⟩ := List.append_inj' heq rfl
      obtain rfl := List.singleton_inj.mp hq
      exact .inr hend
    · exact .inl ⟨part, q, hpart, hend⟩
  · rintro (⟨part, q, hpart, hend⟩ | hend)
    · exact ⟨part, q, hpart.trans (List.prefix_append done [r]), hend⟩
    · exact ⟨done, r, List.prefix_rfl, hend⟩

/-! ## The callbacks -/

theorem run_callbacks (m : Mosquitto) : ∀ callbacks : List Callback,
    (Mealy.run callback m callbacks).1 = { m with lastUpdatedTime := lastMessage m.lastUpdatedTime callbacks }
  | [] => rfl
  | .connect errorCode :: callbacks => by
    rw [Mealy.run_cons]
    exact run_callbacks m callbacks
  | .message time topic payload :: callbacks => by
    rw [Mealy.run_cons]
    exact run_callbacks { m with lastUpdatedTime := time } callbacks

theorem lastMessage_append (now : Time) (a b : List Callback) :
    lastMessage now (a ++ b) = lastMessage (lastMessage now a) b := List.foldl_append

/-- A callback neither times out nor reconnects. -/
theorem mem_callback {m : Mosquitto} {cb : Callback} {call : MosqCall} (h : call ∈ (callback m cb).2) :
    call ≠ .onTimeOut ∧ ∀ result, call ≠ .mosquittoReconnect result := by
  cases cb with
  | message time topic payload =>
    obtain rfl := List.mem_singleton.mp h
    simp
  | connect errorCode =>
    have h : call ∈ callbackOnConnect errorCode := h
    unfold callbackOnConnect onConnected at h
    split at h
    all_goals
      obtain rfl := List.mem_singleton.mp h
      simp

/-! ## What a turn calls -/

section Calls

variable {m : Mosquitto} {l : Loop} {r : Round}

theorem mem_pollCalls {call : MosqCall} (hcall : call = .onTimeOut ∨ ∃ result, call = .mosquittoReconnect result) :
    call ∈ m.pollCalls r ↔ (Mealy.run callback m r.callbacks).1.timeOut r.currentTime = true ∧ call = .onTimeOut := by
  have hcallbacks : call ∉ (Mealy.run callback m r.callbacks).2 := by
    have hstep : ∀ (m : Mosquitto) (cb : Callback), True → True ∧ ∀ call ∈ (callback m cb).2,
        call ≠ .onTimeOut ∧ ∀ result, call ≠ .mosquittoReconnect result :=
      fun _ _ _ => ⟨trivial, fun _ hc => mem_callback hc⟩
    have hrun := Mealy.run_inv (I := fun _ => True) hstep (s := m) r.callbacks trivial
    intro hmem
    obtain ⟨htimeOut, hreconnect⟩ := hrun.2 _ hmem
    rcases hcall with rfl | ⟨result, rfl⟩
    · exact htimeOut rfl
    · exact hreconnect result rfl
  have hloop : call ≠ .mosquittoLoop r.polled := by
    rcases hcall with rfl | ⟨result, rfl⟩ <;> simp
  simp only [pollCalls, List.mem_append, hcallbacks, List.mem_cons, hloop, false_or]
  split
  · next h => simp [h]
  · next h => simp [h]

theorem onTimeOut_pollCalls :
    .onTimeOut ∈ m.pollCalls r ↔ (Mealy.run callback m r.callbacks).1.timeOut r.currentTime = true := by
  rw [mem_pollCalls (.inl rfl), and_iff_left rfl]

theorem reconnect_pollCalls (result : MosqErr) : .mosquittoReconnect result ∉ m.pollCalls r := by
  rw [mem_pollCalls (.inr ⟨result, rfl⟩)]
  simp

theorem running_polled (hrunning : m.running = true) : (m.polled r).running = true ↔
    r.stopped = false ∧ (Mealy.run callback m r.callbacks).1.timeOut r.currentTime = false := by
  simp [polled, running_callbacks, hrunning]

/-- A turn that ends at `if (!this->running)`. -/
theorem turn_ended (hlooping : l.looping = true) (hended : ¬ (l.toMosquitto.polled r).running = true) :
    turn true l r = ({ l.toMosquitto.polled r with errorCounter := l.errorCounter, looping := false },
      l.toMosquitto.pollCalls r) := by
  unfold turn
  rw [if_pos hlooping]
  simp only [if_neg hended]

theorem turn_clock (hlooping : l.looping = true) :
    (turn true l r).1.lastUpdatedTime = lastMessage l.lastUpdatedTime r.callbacks ∧
      (turn true l r).1.maxSecondsWithoutMessages = l.maxSecondsWithoutMessages := by
  have hpolled : (l.toMosquitto.polled r).lastUpdatedTime = lastMessage l.lastUpdatedTime r.callbacks ∧
      (l.toMosquitto.polled r).maxSecondsWithoutMessages = l.maxSecondsWithoutMessages := by
    rw [polled, run_callbacks]
    exact ⟨rfl, rfl⟩
  unfold turn
  rw [if_pos hlooping]
  simp only
  split
  · split
    · split
      · exact hpolled
      · split <;> exact hpolled
    · exact hpolled
  · exact hpolled

/-- A turn that goes on after it calls no `on_time_out`, and a reconnect if the poll failed. -/
theorem turn_calls (hlooping : l.looping = true) (hpolled : (l.toMosquitto.polled r).running = true)
    (hrunning : l.running = true) : .onTimeOut ∉ (turn true l r).2 ∧
      ((∃ result, .mosquittoReconnect result ∈ (turn true l r).2) ↔ r.polled ≠ MOSQ_ERR_SUCCESS) := by
  have htimeOut : .onTimeOut ∉ l.toMosquitto.pollCalls r := by
    rw [onTimeOut_pollCalls, ((running_polled hrunning).mp hpolled).2]
    simp
  unfold turn
  rw [if_pos hlooping]
  simp only [if_pos hpolled]
  by_cases hsuccess : r.polled = MOSQ_ERR_SUCCESS
  · rw [if_neg (not_not.mpr hsuccess)]
    refine ⟨htimeOut, fun h => ?_, fun h => absurd hsuccess h⟩
    obtain ⟨result, hmem⟩ := h
    exact absurd hmem (reconnect_pollCalls result)
  · rw [if_pos hsuccess]
    split
    · exact ⟨by simpa using htimeOut, fun _ => hsuccess, fun _ => ⟨r.reconnected, by simp⟩⟩
    · split
      · exact ⟨by simpa using htimeOut, fun _ => hsuccess, fun _ => ⟨r.reconnected, by simp⟩⟩
      · exact ⟨by simpa using htimeOut, fun _ => hsuccess, fun _ => ⟨r.reconnected, by simp⟩⟩

end Calls

/-! ## A run -/

/-- The wrapper after these turns: while the loop is not over, the clock of the
last message and the counter are those of the turns. -/
structure Follows (m : Mosquitto) (now : Time) (l : Loop) (done : List Round) : Prop where
  looping : l.looping = l.running
  running : l.running = true ↔ ¬ Over m now done
  heard : l.running = true → l.lastUpdatedTime = lastMessage now (done.flatMap Round.callbacks)
  limit : l.maxSecondsWithoutMessages = m.maxSecondsWithoutMessages
  counter : l.running = true → l.errorCounter = Tally.tally Round.polls Round.fails done

/-- What the next turn calls, by what has come about. -/
structure Calls (m : Mosquitto) (now : Time) (done : List Round) (r : Round) (calls : List MosqCall) : Prop where
  nothing : Over m now done → calls = []
  timeOut : .onTimeOut ∈ calls ↔ ¬ Over m now done ∧ TimesOut m now done r
  reconnects : (∃ result, .mosquittoReconnect result ∈ calls) ↔
    ¬ Over m now done ∧ r.stopped = false ∧ ¬ TimesOut m now done r ∧ r.polled ≠ MOSQ_ERR_SUCCESS
  reports : maximumReached ∈ calls ↔
    ¬ Over m now done ∧ r.stopped = false ∧ ¬ TimesOut m now done r ∧ FailedUnpolled (done ++ [r])

section Run

variable {m : Mosquitto} {now : Time} {l : Loop} {done : List Round} {r : Round}

theorem follows_startLoop (hm : m.running = true) : Follows m now (startLoop m now) [] :=
  ⟨hm.symm, ⟨fun _ => not_over_nil m now, fun _ => hm⟩, fun _ => rfl, rfl, fun _ => rfl⟩

theorem Follows.timesOut_iff (h : Follows m now l done) (hrunning : l.running = true) :
    (Mealy.run callback l.toMosquitto r.callbacks).1.timeOut r.currentTime = true ↔ TimesOut m now done r := by
  rw [run_callbacks, timeOut, h.heard hrunning, ← lastMessage_append, h.limit, TimesOut, List.flatMap_append,
    List.flatMap_singleton, decide_eq_true_eq]

/-- The loop has not counted too many failures while it runs. -/
theorem Follows.counter_le (h : Follows m now l done) (hrunning : l.running = true) :
    l.errorCounter ≤ MAX_NUM_RECONNECTIONS ∧ ¬ FailedUnpolled done := by
  have hnot : ¬ FailedUnpolled done := by
    intro hfailed
    induction done using List.reverseRecOn with
    | nil => exact Tally.not_exceeds_nil hfailed
    | append_singleton done r _ =>
      exact h.running.mp hrunning (over_concat.mpr (.inr (.inr (.inr hfailed))))
  refine ⟨?_, hnot⟩
  rw [h.counter hrunning]
  exact Nat.not_lt.mp fun hlimit => hnot (Tally.exceeds_iff.mpr ⟨done, List.prefix_rfl, hlimit⟩)

/-- One more turn. -/
theorem Follows.step (h : Follows m now l done) (r : Round) :
    Follows m now (turn true l r).1 (done ++ [r]) ∧ Calls m now done r (turn true l r).2 := by
  cases hrunning : l.running with
  | false =>
    have hover : Over m now done := by
      by_contra hnot
      rw [h.running.mpr hnot] at hrunning
      cases hrunning
    have hover' : Over m now (done ++ [r]) := over_concat.mpr (.inl hover)
    have hturn : turn true l r = (l, []) := by
      unfold turn
      rw [h.looping, hrunning]
      rfl
    have hnot : l.running = true → False := fun hr => by
      rw [hrunning] at hr
      cases hr
    rw [hturn]
    refine ⟨⟨h.looping, ⟨fun hr => (hnot hr).elim, fun hr => absurd hover' hr⟩, fun hr => (hnot hr).elim, h.limit,
      fun hr => (hnot hr).elim⟩, ⟨fun _ => rfl, ?_, ?_, ?_⟩⟩
    · simp [hover]
    · simp [hover]
    · simp [hover]
  | true =>
    have hnot := h.running.mp hrunning
    have hlooping := h.looping.trans hrunning
    obtain ⟨hcounter, hfailed⟩ := h.counter_le hrunning
    have htimeOut := h.timesOut_iff (r := r) hrunning
    obtain ⟨hclock, hmax⟩ := turn_clock (r := r) hlooping
    by_cases hpolled : (l.toMosquitto.polled r).running = true
    · -- Neither a time-out nor a stop: the turn is a calm one.
      obtain ⟨hstopped, hsilent⟩ := (running_polled hrunning).mp hpolled
      obtain ⟨hnext, hrun, hend, hreport⟩ := turn_calm hlooping hrunning ⟨hstopped, hsilent⟩ hcounter
      obtain ⟨hnoTimeOut, hreconnect⟩ := turn_calls hlooping hpolled hrunning
      have hquiet : ¬ TimesOut m now done r := by
        rw [← htimeOut, hsilent]
        simp
      have htally : (turn true l r).1.errorCounter = Tally.tally Round.polls Round.fails (done ++ [r]) := by
        rw [hnext, Tally.tally_concat, h.counter hrunning]
      have hmany : MAX_NUM_RECONNECTIONS < (turn true l r).1.errorCounter ↔ FailedUnpolled (done ++ [r]) := by
        rw [htally, FailedUnpolled, Tally.exceeds_concat]
        exact (or_iff_left hfailed).symm
      have hover : Over m now (done ++ [r]) ↔ FailedUnpolled (done ++ [r]) := by
        rw [over_concat, EndsIn, hstopped]
        simp [hnot, hquiet]
      refine ⟨⟨hend, ?_, fun _ => ?_, hmax.trans h.limit, fun _ => htally⟩,
        ⟨fun hover => absurd hover hnot, ?_, ?_, ?_⟩⟩
      · rw [hrun, hover, ← hmany, Nat.not_lt]
      · rw [hclock, h.heard hrunning, ← lastMessage_append, List.flatMap_append, List.flatMap_singleton]
      · exact ⟨fun hmem => absurd hmem hnoTimeOut, fun hparts => absurd hparts.2 hquiet⟩
      · rw [hreconnect]
        exact ⟨fun hp => ⟨hnot, hstopped, hquiet, hp⟩, fun hparts => hparts.2.2.2⟩
      · rw [hreport, hmany]
        exact ⟨fun hf => ⟨hnot, hstopped, hquiet, hf⟩, fun hparts => hparts.2.2.2⟩
    · have hends : r.stopped = true ∨ TimesOut m now done r := by
        rw [running_polled hrunning, not_and_or, Bool.not_eq_false, Bool.not_eq_false, htimeOut] at hpolled
        exact hpolled
      have hover : Over m now (done ++ [r]) := by
        refine over_concat.mpr (.inr ?_)
        rcases hends with hstopped | hsilent
        · exact .inl hstopped
        · exact .inr (.inl hsilent)
      have hstays : r.stopped = false → TimesOut m now done r := fun hstopped =>
        hends.resolve_left (by rw [hstopped]; exact Bool.false_ne_true)
      rw [turn_ended hlooping hpolled] at hclock hmax ⊢
      have hnever : (l.toMosquitto.polled r).running = true → False := hpolled
      refine ⟨⟨(Bool.eq_false_iff.mpr hpolled).symm, ⟨fun hr => (hnever hr).elim, fun hr => absurd hover hr⟩,
        fun hr => (hnever hr).elim, hmax.trans h.limit, fun hr => (hnever hr).elim⟩,
        ⟨fun hover => absurd hover hnot, ?_, ?_, ?_⟩⟩
      · rw [onTimeOut_pollCalls, htimeOut]
        exact (and_iff_right hnot).symm
      · refine ⟨fun hmem => ?_, fun hparts => absurd (hstays hparts.2.1) hparts.2.2.1⟩
        obtain ⟨result, hmem⟩ := hmem
        exact absurd hmem (reconnect_pollCalls result)
      · exact ⟨fun hmem => absurd hmem (maximumReached_not_mem_pollCalls _ _),
          fun hparts => absurd (hstays hparts.2.1) hparts.2.2.1⟩

/-- **How the loop ends.** Whatever the turns bring, the loop goes on while
nothing has ended it, and stops in the first turn in which a time-out, a stop
from outside or too many failed reconnects come about; `on_time_out` is called
in a turn that times out, the report made in one that has too many failures
and nothing else to end it, and no call after the end. -/
theorem loop_ends {m : Mosquitto} (hm : m.running = true) (now : Time) (done : List Round) (r : Round) :
    ((after m now done).running = true ↔ ¬ Over m now done) ∧
      (after m now done).looping = (after m now done).running ∧
      Calls m now done r (turn true (after m now done) r).2 := by
  have hfollows : Follows m now (after m now done) done := by
    induction done using List.reverseRecOn with
    | nil => exact follows_startLoop hm
    | append_singleton done r ih =>
      rw [after_concat]
      exact (ih.step r).1
  exact ⟨hfollows.running, hfollows.looping, (hfollows.step r).2⟩

/-- A turn without a message, that ends two seconds after the loop started. -/
def lateRound : Round where
  callbacks := []
  polled := MOSQ_ERR_SUCCESS
  currentTime := 2000000000
  stopped := false
  reconnected := MOSQ_ERR_SUCCESS

/-- A loop that waits for a second times out in it. -/
theorem loop_ends_late :
    ((after ⟨true, 0, 1⟩ 0 []).running = true ↔ ¬ Over ⟨true, 0, 1⟩ 0 []) ∧
      (after ⟨true, 0, 1⟩ 0 []).looping = (after ⟨true, 0, 1⟩ 0 []).running ∧
      Calls ⟨true, 0, 1⟩ 0 [] lateRound (turn true (after ⟨true, 0, 1⟩ 0 []) lateRound).2 :=
  loop_ends rfl 0 [] lateRound

end Run

end Mosquitto

end SpeechAnalyzer
