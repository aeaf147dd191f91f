/-
The start of a session process: the child's branch of the `OpensmileSession`
constructor in one thread, the listener it starts in another. The listener
takes messages as soon as it runs, and each turn of the loop of `PublishChunk`
reads `handle` as it is then, whatever the constructor has done by that time.
A copy past the end of `float_chunk` may go unnoticed, and does here: the
chunk is published.
-/
import SpeechAnalyzer.ChunkStream
import SpeechAnalyzer.Lib.Transition

namespace SpeechAnalyzer

open Lib Transition

variable {ν : Type} {R : Json.Reader ν}

/-- `on_message` up to the call of `PublishChunk`: the chunk, or what keeps it
from the call for certain. -/
def OpensmileSession.floatChunk (R : Json.Reader ν) (message : Bytes) : Except Fault Bytes :=
  match codedSrc R message with
  | .error e => .error (.exception e)
  | .ok codedSrc =>
    match decodeChunk codedSrc with
    | .ok d | .error (.overrun d) => .ok d.floatChunk
    | .error fault => .error fault

namespace Child

/-- `handle`: indeterminate, assigned by `smile_new`, or initialised as well. -/
inductive Handle
  | indeterminate
  | created
  | initialized
deriving DecidableEq, Repr

inductive Statement
  | connect
  | subscribe
  | setMaxSecondsWithoutMessages
  | startListener
  | newProcessor
  | smileNew
  | smileInitialize
  | smileSetLogCallback
  | smileRun
deriving DecidableEq, Repr

/-- The child's branch of the constructor. -/
def branch : List Statement := [.connect, .subscribe, .setMaxSecondsWithoutMessages, .startListener, .newProcessor,
  .smileNew, .smileInitialize, .smileSetLogCallback, .smileRun]

/-- The listener thread: not there yet, in `mosquitto_loop`, or in the loop of
`PublishChunk`. -/
inductive Listener
  | absent
  | polling
  | publishing (floatChunk : Bytes)
deriving DecidableEq, Repr

end Child

/-- The process: the statements done, the handle, the listener, whether a
fault has ended it, and the handle at each call of
`smile_extaudiosource_write_data`. -/
structure Child where
  done : Nat
  handle : Child.Handle
  listener : Child.Listener
  terminated : Bool
  writes : List Child.Handle
deriving DecidableEq, Repr

namespace Child

/-- After the fork. -/
def forked : Child := ⟨0, .indeterminate, .absent, false, []⟩

/-- The next statement, where `result` is what `smile_initialize` returns; a
message taken by the listener; a call of `smile_extaudiosource_write_data`. -/
inductive Step
  | construct (result : SmileRes)
  | receive (payload : Bytes)
  | write (result : SmileRes)
deriving DecidableEq, Repr

def perform (c : Child) (result : SmileRes) : Statement → Child
  | .startListener => { c with done := c.done + 1, listener := .polling }
  | .smileNew => { c with done := c.done + 1, handle := .created }
  | .smileInitialize =>
    { c with done := c.done + 1, handle := if result = .SMILE_SUCCESS then .initialized else c.handle }
  | _ => { c with done := c.done + 1 }

def step (R : Json.Reader ν) (c : Child) (a : Step) : Option Child :=
  if c.terminated then none
  else
    match a with
    | .construct result => branch[c.done]?.map (c.perform result)
    | .receive payload =>
      match c.listener with
      | .polling =>
        match OpensmileSession.floatChunk R payload with
        | .ok chunk => some { c with listener := .publishing chunk }
        | .error _ => some { c with terminated := true }
      | _ => none
    | .write result =>
      match c.listener with
      | .publishing chunk =>
        some {
          c with
          listener := if result = .SMILE_SUCCESS then .polling else .publishing chunk
          writes := c.writes ++ [c.handle] }
      | _ => none

/-- Every call so far had a handle assigned and initialised. -/
def Safe (c : Child) : Prop := ∀ h ∈ c.writes, h = .initialized

instance (c : Child) : Decidable c.Safe := List.decidableBAll _ _

/-- A message that gets to `PublishChunk` is taken when `smile_initialize` has
returned. -/
def InTime (R : Json.Reader ν) (c : Child) : Step → Prop
  | .receive payload => c.handle = .initialized ∨ ∃ e, OpensmileSession.floatChunk R payload = .error e
  | _ => True

instance (c : Child) : ∀ a, Decidable (c.InTime R a)
  | .construct _ => .isTrue trivial
  | .write _ => .isTrue trivial
  | .receive payload =>
    haveI : Decidable (∃ e, OpensmileSession.floatChunk R payload = .error e) :=
      match OpensmileSession.floatChunk R payload with
      | .ok _ => .isFalse nofun
      | .error e => .isTrue ⟨e, rfl⟩
    inferInstanceAs (Decidable (c.handle = .initialized ∨ _))

/-! ## The loop of `PublishChunk` -/

/-- The listener's turns make the calls of `publishChunk`, all with the handle
there is. -/
theorem exec_write {chunk : Bytes} : ∀ {results : List SmileRes} {calls : List WriteCall} {c : Child},
    OpensmileSession.publishChunk chunk results = (calls, some []) → c.terminated = false →
    c.listener = .publishing chunk →
    exec (step R) c (results.map .write) =
      some { c with listener := .polling, writes := c.writes ++ calls.map fun _ => c.handle }
  | [], _, _, hpub, _, _ => by
    simp [OpensmileSession.publishChunk] at hpub
  | r :: results, calls, c, hpub, halive, hlistener => by
    have hstep : step R c (.write r) = some {
        c with
        listener := if r = .SMILE_SUCCESS then .polling else .publishing chunk
        writes := c.writes ++ [c.handle] } := by
      simp only [step, halive, hlistener, Bool.false_eq_true, if_false]
    rw [List.map_cons, exec, hstep, Option.bind_some]
    unfold OpensmileSession.publishChunk at hpub
    split at hpub
    · next hr =>
      obtain ⟨rfl, hrest⟩ := Prod.mk.inj hpub
      obtain rfl := Option.some.inj hrest
      simp [exec, hr]
    · next hr =>
      cases hrest : OpensmileSession.publishChunk chunk results with
      | mk calls' rest =>
        rw [hrest] at hpub
        obtain ⟨rfl, rfl⟩ := Prod.mk.inj hpub
        have ih := exec_write (c := { c with writes := c.writes ++ [c.handle] }) hrest halive hlistener
        simp only [if_neg hr, ← hlistener, ih, List.map_cons, List.append_assoc, List.singleton_append]

/-! ## In time -/

theorem smileNew_position {i : Nat} (h : branch[i]? = some .smileNew) : i = 5 := by
  have hpos : ∀ i : Fin 9, branch[i.1]? = some .smileNew → i.1 = 5 := by decide
  exact hpos ⟨i, (List.getElem?_eq_some_iff.mp h).1⟩ h

theorem smileInitialize_position {i : Nat} (h : branch[i]? = some .smileInitialize) : i = 6 := by
  have hpos : ∀ i : Fin 9, branch[i.1]? = some .smileInitialize → i.1 = 6 := by decide
  exact hpos ⟨i, (List.getElem?_eq_some_iff.mp h).1⟩ h

/-- An initialised handle is past `smile_new`, and the listener publishes with
no other. -/
structure Sound (c : Child) : Prop where
  initialized : c.handle = .initialized → 6 < c.done
  publishing : ∀ chunk, c.listener = .publishing chunk → c.handle = .initialized
  safe : c.Safe

theorem perform_sound {c : Child} {result : SmileRes} {st : Statement} (hc : c.Sound)
    (hst : branch[c.done]? = some st) : (c.perform result st).Sound := by
  have hlater : c.handle = .initialized → 6 < c.done + 1 := fun h => Nat.lt_succ_of_lt (hc.initialized h)
  cases st with
  | connect => exact ⟨hlater, hc.publishing, hc.safe⟩
  | subscribe => exact ⟨hlater, hc.publishing, hc.safe⟩
  | setMaxSecondsWithoutMessages => exact ⟨hlater, hc.publishing, hc.safe⟩
  | startListener => exact ⟨hlater, nofun, hc.safe⟩
  | newProcessor => exact ⟨hlater, hc.publishing, hc.safe⟩
  | smileNew =>
    -- Nothing is published yet: `handle` is not initialised before this.
    have hdone := smileNew_position hst
    refine ⟨nofun, fun chunk h => ?_, hc.safe⟩
    have hlt := hc.initialized (hc.publishing chunk h)
    omega
  | smileInitialize =>
    have hdone := smileInitialize_position hst
    refine ⟨fun _ => ?_, fun chunk h => ?_, hc.safe⟩
    · simp only [perform]
      omega
    · simp only [perform]
      split
      · rfl
      · exact hc.publishing chunk h
  | smileSetLogCallback => exact ⟨hlater, hc.publishing, hc.safe⟩
  | smileRun => exact ⟨hlater, hc.publishing, hc.safe⟩

theorem step_sound {c d : Child} {a : Step} (hc : c.Sound) (ha : c.InTime R a) (h : step R c a = some d) : d.Sound := by
  unfold step at h
  split at h
  · cases h
  · cases a with
    | construct result =>
      obtain ⟨st, hst, rfl⟩ := Option.map_eq_some_iff.mp h
      exact perform_sound hc hst
    | receive payload =>
      simp only at h
      split at h
      · split at h
        · next chunk hchunk =>
          obtain rfl := Option.some.inj h
          refine ⟨hc.initialized, fun _ _ => ?_, hc.safe⟩
          rcases ha with hinit | ⟨e, he⟩
          · exact hinit
          · rw [hchunk] at he
            cases he
        · obtain rfl := Option.some.inj h
          exact ⟨hc.initialized, hc.publishing, hc.safe⟩
      · cases h
    | write result =>
      simp only at h
      split at h
      · next chunk hchunk =>
        obtain rfl := Option.some.inj h
        have hinit := hc.publishing chunk hchunk
        refine ⟨hc.initialized, fun _ _ => hinit, fun x hx => ?_⟩
        rcases List.mem_append.mp hx with hold | hnew
        · exact hc.safe x hold
        · rw [List.mem_singleton.mp hnew]
          exact hinit
      · cases h

theorem forked_sound : forked.Sound := ⟨nofun, nofun, nofun⟩

/-- **No audio before initialisation**, in every run whose messages are in
time: all calls of `smile_extaudiosource_write_data` have an initialised
handle. -/
theorem safe_of_inTime {as : List Step} {c : Child} (h : exec (step R) forked as = some c)
    (hin : Along (step R) (InTime R) forked as) : c.Safe :=
  (exec_inv (fun _ _ _ hc ha hd => step_sound hc ha hd) forked_sound hin h).safe

/-- The constructor up to `smile_initialize`, and a chunk after it. -/
def lateChunk : List Step :=
  List.replicate 7 (.construct .SMILE_SUCCESS) ++
    [.receive pairPayload, .write (.failure 1), .write .SMILE_SUCCESS]

theorem safe_of_inTime_late : ∃ c : Child, c.writes = [.initialized, .initialized] ∧ c.Safe := by
  have hexec : exec (step silenceReader) forked lateChunk =
      some ⟨7, .initialized, .polling, false, [.initialized, .initialized]⟩ := by decide +kernel
  exact ⟨_, rfl, safe_of_inTime hexec (by decide +kernel)⟩

/-- A chunk taken as soon as the listener runs. -/
theorem early_chunk_unsafe : ¬ ∀ (R : Json.Reader Nat) (as : List Step) (c : Child),
    exec (step R) forked as = some c → c.Safe := by
  intro h
  have hexec : exec (step silenceReader) forked (List.replicate 4 (.construct .SMILE_SUCCESS) ++
      [.receive pairPayload, .write .SMILE_SUCCESS]) =
      some ⟨4, .indeterminate, .polling, false, [.indeterminate]⟩ := by decide +kernel
  exact absurd (h silenceReader _ _ hexec) (by decide)

/-- A message that is not in time makes a call with a handle that is not
initialised, unless the constructor overtakes it. -/
theorem not_safe_of_early {c d : Child} {payload : Bytes} (hd : step R c (.receive payload) = some d)
    (hearly : ¬ c.InTime R (.receive payload)) (result : SmileRes) :
    ∃ e, step R d (.write result) = some e ∧ ¬ e.Safe := by
  obtain ⟨hhandle, hchunk⟩ := not_or.mp hearly
  cases hfloat : OpensmileSession.floatChunk R payload with
  | error e => exact absurd ⟨e, hfloat⟩ hchunk
  | ok chunk =>
    unfold step at hd
    split at hd
    · cases hd
    · next halive =>
      simp only [hfloat] at hd
      split at hd
      · obtain rfl := Option.some.inj hd
        refine ⟨_, by simp only [step, halive]; rfl, fun hsafe => ?_⟩
        exact hhandle (hsafe c.handle (by simp))
      · cases hd

end Child

end SpeechAnalyzer
