/-
The agent with its threads of `ProcessASRMessage`. The Manager detaches one for
each ASR message, and all of them run among the sessions' log messages, a query
seeing the table as it is then.

An exception that leaves one of these threads, or the Manager's own, ends the
process with all its threads; the session processes go on.
-/
import SpeechAnalyzer.AgentRuns
import SpeechAnalyzer.AsrThread

namespace SpeechAnalyzer

open Lib Transition Manager ASRProcessor

variable {ν : Type}

/-- The messages threads were started for, what is left of each thread, their
calls, and whether an exception has ended the process. -/
structure Host (ν : Type) where
  world : World ν
  messages : List (Json ν)
  threads : List (AsrProgram ν Unit)
  calls : List (ℕ × AsrAnswered ν)
  terminated : Bool

/-- What the outside says to a thread's next call: where the pointers of its
bounds lead and in which order the database answers, if that is a query; the
body of the response; the time. -/
structure Reply where
  bounds : Str × Str
  order : List Row → List Row
  perm : ∀ rows, (order rows).Perm rows
  body : Option Bytes
  time : Str

def Reply.answer (t : Table) (r : Reply) : (c : AsrCall ν) → c.Answer
  | .featuresBetween _ _ participantId trialId =>
    r.order (t.chunkExtract r.bounds.1 r.bounds.2 (cString participantId) (cString trialId))
  | .exchange _ => r.body
  | .clock => r.time
  | .publish _ => ()

/-- The rows come as they are stored. -/
def Reply.inOrder (bounds : Str × Str) (body : Option Bytes) : Reply := ⟨bounds, id, fun _ => .refl _, body, []⟩

/-- A step of the agent without its threads, a call of thread `k` answered, or
an exception leaving thread `k`. -/
inductive Turn
  | occurs (o : Occurrence)
  | answer (k : ℕ) (r : Reply)
  | throws (k : ℕ)

/-- A step of the Manager's own thread. -/
def Occurrence.ofManager : Occurrence → Bool
  | message .. | effect => true
  | log .. | terminate _ => false

/-- A step of the process that takes no new message. -/
def Turn.Own : Turn → Prop
  | occurs .effect | answer .. | throws _ => True
  | occurs _ => False

namespace Host

def start (rows : List Stored) : Host ν := ⟨World.start rows, [], [], [], false⟩

/-- The ASR message whose thread a step starts. -/
def starting (h : Host ν) : Occurrence → List (Json ν)
  | .effect => (h.world.site.pending.take 1).filterMap Effect.asrMessage?
  | .message .. | .log .. | .terminate _ => []

def step (R : Json.Reader ν) (D : Doubles ν) (columnMap : ColumnMap) (columns : List Str) (h : Host ν) :
    Turn → Option (Host ν)
  | .occurs o =>
    if h.terminated && o.ofManager then none
    else
      (h.world.step R D columnMap columns o).map fun w => { h with
        world := w
        messages := h.messages ++ h.starting o
        threads := h.threads ++ (h.starting o).map (threadProgram D R columnMap columns)
        terminated := h.terminated || !w.site.listening }
  | .answer k r =>
    if h.terminated then none
    else
      (Program.answer h.threads k (r.answer (h.world.table columns))).map fun (e, threads) => { h with
        threads := threads
        calls := h.calls ++ [(k, e)] }
  | .throws k =>
    match h.terminated, h.threads[k]? with
    | false, some (.throw _) => some { h with terminated := true }
    | _, _ => none

end Host

/-! ## What each step does -/

namespace Host

variable {R : Json.Reader ν} {D : Doubles ν} {columnMap : ColumnMap} {columns : List Str}

/-- The steps there are, each with what it takes and what it leaves. -/
inductive Does (R : Json.Reader ν) (D : Doubles ν) (columnMap : ColumnMap) (columns : List Str) (h : Host ν) :
    Turn → Host ν → Prop
  | occurs {o : Occurrence} {w : World ν} (halive : h.terminated = true → o.ofManager = false)
    (hw : h.world.step R D columnMap columns o = some w) :
    Does R D columnMap columns h (.occurs o) {
      world := w
      messages := h.messages ++ h.starting o
      threads := h.threads ++ (h.starting o).map (threadProgram D R columnMap columns)
      calls := h.calls
      terminated := h.terminated || !w.site.listening }
  | answer {k : ℕ} {r : Reply} {c : AsrCall ν} {next : c.Answer → AsrProgram ν Unit} (halive : h.terminated = false)
    (hk : h.threads[k]? = some (.call c next)) :
    Does R D columnMap columns h (.answer k r) { h with
      threads := h.threads.set k (next (r.answer (h.world.table columns) c))
      calls := h.calls ++ [(k, ⟨c, r.answer (h.world.table columns) c⟩)] }
  | throws {k : ℕ} {e : Exn} (halive : h.terminated = false) (hk : h.threads[k]? = some (.throw e)) :
    Does R D columnMap columns h (.throws k) { h with terminated := true }

theorem does_of_step {h h' : Host ν} {a : Turn} (hs : h.step R D columnMap columns a = some h') :
    Does R D columnMap columns h a h' := by
  cases a with
  | occurs o =>
    simp only [step] at hs
    split at hs
    · cases hs
    · next halive =>
      obtain ⟨w, hw, rfl⟩ := Option.map_eq_some_iff.mp hs
      exact .occurs (by simpa using halive) hw
  | answer k r =>
    simp only [step] at hs
    split at hs
    · cases hs
    · next halive =>
      obtain ⟨⟨e, threads⟩, hanswer, rfl⟩ := Option.map_eq_some_iff.mp hs
      obtain ⟨c, next, hk, rfl, rfl⟩ := Program.answer_cases hanswer
      exact .answer (by simpa using halive) hk
  | throws k =>
    simp only [step] at hs
    split at hs
    · next halive hk =>
      obtain rfl := Option.some.inj hs
      exact .throws halive hk
    · cases hs

/-! ## Runs -/

/-- Threads go on where their calls have led them, and a process that has ended
was ended by a message it could not read or by one of its threads. -/
structure Sound (R : Json.Reader ν) (D : Doubles ν) (columnMap : ColumnMap) (columns : List Str) (h : Host ν) :
    Prop where
  interleaved : Program.Interleaved (h.messages.map (threadProgram D R columnMap columns)) h.calls h.threads
  ended : h.terminated = true → h.world.site.listening = false ∨
    ∃ (k : ℕ) (e : Exn), h.threads[k]? = some (.throw e)
  listening : h.terminated = false → h.world.site.listening = true

theorem start_sound (rows : List Stored) : Sound R D columnMap columns (start rows) where
  interleaved := Program.interleaved_nil
  ended h := by cases h
  listening _ := rfl

/-- Only a message of its own makes the Manager stop listening. -/
theorem listening_of_step {w w' : World ν} {o : Occurrence} (hw : w.step R D columnMap columns o = some w')
    (ho : o.ofManager = false) : w'.site.listening = w.site.listening := by
  cases World.does_of_step hw with
  | message _ => cases ho
  | effect _ _ => cases ho
  | log _ _ _ => rfl
  | terminate hsite =>
    cases Site.does_of_step hsite with
    | terminate _ _ => rfl

theorem step_sound {h h' : Host ν} {a : Turn} (hsound : Sound R D columnMap columns h)
    (hs : h.step R D columnMap columns a = some h') : Sound R D columnMap columns h' := by
  cases does_of_step hs with
  | @occurs o w halive hw =>
    refine ⟨?_, fun hended => ?_, fun hgoes => ?_⟩
    · rw [List.map_append]
      exact hsound.interleaved.start _
    · rcases Bool.or_eq_true_iff.mp hended with hterminated | hlistening
      · rcases hsound.ended hterminated with hlistening | ⟨k, e, hk⟩
        · exact .inl ((listening_of_step hw (halive hterminated)).trans hlistening)
        · exact .inr ⟨k, e, by rw [List.getElem?_append_left (List.getElem?_eq_some_iff.mp hk).1, hk]⟩
      · exact .inl (by simpa using hlistening)
    · simpa using (Bool.or_eq_false_iff.mp hgoes).2
  | @answer k r c next halive hk =>
    have hanswer : Program.answer h.threads k (r.answer (h.world.table columns)) =
        some (⟨c, r.answer (h.world.table columns) c⟩,
          h.threads.set k (next (r.answer (h.world.table columns) c))) := by
      rw [Program.answer, hk]
    refine ⟨hsound.interleaved.answer hanswer, fun hended => ?_, hsound.listening⟩
    cases halive.symm.trans hended
  | @throws k e halive hk =>
    exact ⟨hsound.interleaved, fun _ => .inr ⟨k, e, hk⟩, fun hgoes => by cases hgoes⟩

theorem run_sound {rows : List Stored} {run : List Turn} {h : Host ν}
    (hrun : exec (step R D columnMap columns) (start rows) run = some h) : Sound R D columnMap columns h :=
  Reachable.inv (fun _ _ _ => step_sound) ⟨run, hrun⟩ (start_sound rows)

/-- What the calls of a thread have led it to. -/
theorem Sound.runs {h : Host ν} (hsound : Sound R D columnMap columns h) {k : ℕ} {m : Json ν}
    {left : AsrProgram ν Unit} (hm : h.messages[k]? = some m) (hleft : h.threads[k]? = some left) :
    (threadProgram D R columnMap columns m).Runs (Mealy.only k h.calls) left :=
  hsound.interleaved.runs k _ _ (by rw [List.getElem?_map, hm]; rfl) hleft

end Host

/-- **What the threads publish, mixed in any way.** There is one thread for each
message, and of the messages it publishes each is about its own utterance, with
its ids, the sentiment first, both or none unless the process has ended in
between, and none unless the server has answered its request with JSON that
takes keys. -/
theorem run_uttered {R : Json.Reader ν} {D : Doubles ν} {columnMap : ColumnMap} {columns : List Str}
    {rows : List Stored} {run : List Turn} {h : Host ν}
    (hrun : exec (Host.step R D columnMap columns) (Host.start rows) run = some h) :
    h.threads.length = h.messages.length ∧ ∀ k m left, h.messages[k]? = some m → h.threads[k]? = some left →
      Uttered D.toPrinter R m (Mealy.only k h.calls) left := by
  have hsound := Host.run_sound hrun
  refine ⟨?_, fun k m left hm hleft => uttered_of_runs (hsound.runs hm hleft)⟩
  rw [hsound.interleaved.length, List.length_map]

/-- The message of an utterance as text. -/
def asrPayload : Bytes := ascii <|
  "\x7b\"data\":\x7b\"features\":\x7b\"word_messages\":[".toList ++
  "\x7b\"end_time\":1,\"start_time\":0,\"word\":\"a\"\x7d,".toList ++
  "\x7b\"end_time\":2,\"start_time\":1,\"word\":\"b\"\x7d]\x7d,".toList ++
  "\"participant_id\":\"P\",\"utterance_id\":\"U\"\x7d,".toList ++
  "\"msg\":\x7b\"experiment_id\":\"E\",\"trial_id\":\"T\"\x7d\x7d".toList

def asrReader : Json.Reader Decimal := Json.Reader.ofTable
  [(asrPayload, sampleUtterance sampleWords), (ascii "\x7b\x7d".toList, .obj [])] (by decide +kernel)

abbrev asrStep : Host Decimal → Turn → Option (Host Decimal) :=
  Host.step asrReader DecimalPrinter.allDigits.doubles mfccMap mfccTable.columns

/-- The server answers with an object. -/
def objectReply : Reply := .inOrder ([], []) (some (ascii "\x7b\x7d".toList))

/-- Two messages, and the calls of their threads in turn. -/
def asrRun : List Turn :=
  [.message "agent/asr/final".toList asrPayload, .effect, .message "agent/asr/final".toList asrPayload,
    .effect].map .occurs ++ (List.replicate 9 [.answer 0 objectReply, .answer 1 objectReply]).flatten

theorem exec_asrRun : (exec asrStep (Host.start []) asrRun).isSome = true := by decide +kernel

theorem run_uttered_two : (exec asrStep (Host.start []) asrRun).isSome = true ∧
    ∀ h ∈ exec asrStep (Host.start []) asrRun, h.threads.length = h.messages.length ∧
      ∀ k m left, h.messages[k]? = some m → h.threads[k]? = some left →
        Uttered DecimalPrinter.allDigits.doubles.toPrinter asrReader m (Mealy.only k h.calls) left :=
  ⟨exec_asrRun, fun _ hh => run_uttered hh⟩

/-! ## The end of the threads -/

namespace Host

variable {R : Json.Reader ν} {D : Doubles ν} {columnMap : ColumnMap} {columns : List Str}

/-- The most calls the thread of a message makes. -/
def callsOf (m : Json ν) : ℕ := (wordMessages m).length + 7

/-- The effects to come, the calls of the threads they start, and the end of the
process. -/
def ahead (h : Host ν) : ℕ :=
  h.world.site.pending.length + ((h.world.site.pending.filterMap Effect.asrMessage?).map callsOf).sum +
    if h.terminated then 0 else 1

/-- At most `n` steps without a new message. -/
def Bounded (n : ℕ) (h : Host ν) : Prop := ∃ b, Program.Together h.threads b ∧ b + h.ahead ≤ n

theorem together_threads (ms : List (Json ν)) :
    Program.Together (ms.map (threadProgram D R columnMap columns)) (ms.map callsOf).sum := by
  induction ms with
  | nil => trivial
  | cons m ms ih => exact ⟨callsOf m, _, within_thread m, ih, Nat.le_refl _⟩

/-- A step that takes no new message leaves less. -/
theorem step_bounded {n : ℕ} {h h' : Host ν} {a : Turn} (ha : a.Own) (hbounded : Bounded n h)
    (hs : h.step R D columnMap columns a = some h') : ∃ n' < n, Bounded n' h' := by
  obtain ⟨b, htogether, hle⟩ := hbounded
  cases does_of_step hs with
  | @occurs o w halive hw =>
    cases World.does_of_step hw with
    | message _ => exact ha.elim
    | log _ _ _ => exact ha.elim
    | terminate _ => exact ha.elim
    | @effect site e rest hpending hsite =>
      cases Site.does_of_step hsite with
      | @effect e' rest' hpending' =>
        obtain ⟨rfl, rfl⟩ := List.cons.inj (hpending.symm.trans hpending')
        have hasr : h.world.site.pending.filterMap Effect.asrMessage? =
            e.asrMessage?.toList ++ rest.filterMap Effect.asrMessage? := by rw [hpending]; cases e <;> rfl
        have hstarting : h.starting .effect = e.asrMessage?.toList := by rw [starting, hpending]; cases e <;> rfl
        rw [ahead, hasr, hpending, List.length_cons, List.map_append, List.sum_append] at hle
        have hended (listening : Bool) : (if (h.terminated || !listening) = true then 0 else 1) ≤
            if h.terminated = true then 0 else 1 := by cases h.terminated <;> cases listening <;> decide
        refine ⟨n - 1, by omega, b + (e.asrMessage?.toList.map callsOf).sum, ?_, ?_⟩
        · rw [hstarting]
          exact htogether.append (together_threads _)
        · have hless := hended (h.world.site.perform e).listening
          simp only [ahead]
          omega
  | @answer k r c next halive hk =>
    obtain ⟨b', hless, htogether⟩ := htogether.set hk (r.answer (h.world.table columns) c)
    refine ⟨n - 1, by omega, b', htogether, ?_⟩
    change b' + h.ahead ≤ n - 1
    omega
  | @throws k e halive hk =>
    rw [ahead, halive] at hle
    refine ⟨n - 1, ?_, b, htogether, ?_⟩
    · simp at hle
      omega
    · simp [ahead] at hle ⊢
      omega

theorem Sound.exists_message {h : Host ν} (hsound : Sound R D columnMap columns h) {k : ℕ} {left : AsrProgram ν Unit}
    (hleft : h.threads[k]? = some left) : ∃ m, h.messages[k]? = some m := by
  have hlt := (List.getElem?_eq_some_iff.mp hleft).1
  rw [hsound.interleaved.length, List.length_map] at hlt
  exact ⟨_, List.getElem?_eq_getElem hlt⟩

theorem Sound.exists_thread {h : Host ν} (hsound : Sound R D columnMap columns h) {k : ℕ} {m : Json ν}
    (hm : h.messages[k]? = some m) : ∃ left, h.threads[k]? = some left := by
  have hlt := (List.getElem?_eq_some_iff.mp hm).1
  rw [← List.length_map (threadProgram D R columnMap columns), ← hsound.interleaved.length] at hlt
  exact ⟨_, List.getElem?_eq_getElem hlt⟩

theorem Sound.exists_bounded {h : Host ν} (hsound : Sound R D columnMap columns h) : ∃ n, Bounded n h := by
  have hwithin : ∀ left ∈ h.threads, ∃ n, left.Within n := by
    intro left hleft
    obtain ⟨k, hk⟩ := List.mem_iff_getElem?.mp hleft
    obtain ⟨m, hm⟩ := hsound.exists_message hk
    exact ⟨callsOf m, (hsound.runs hm hk).within (within_thread m)⟩
  obtain ⟨b, hb⟩ := Program.exists_together hwithin
  exact ⟨b + h.ahead, b, hb, Nat.le_refl _⟩

/-- When the process goes on and nothing is left to do, the threads have
returned. -/
theorem returned_of_stuck {h : Host ν} (hstuck : ∀ a, a.Own → h.step R D columnMap columns a = none)
    (hgoes : h.terminated = false) {k : ℕ} {left : AsrProgram ν Unit} (hleft : h.threads[k]? = some left) :
    left = .ret () := by
  cases left with
  | ret _ => rfl
  | throw e =>
    have hthrows := hstuck (.throws k) trivial
    rw [step, hgoes, hleft] at hthrows
    cases hthrows
  | call c next =>
    have hanswer := hstuck (.answer k (.inOrder ([], []) none)) trivial
    rw [step, if_neg (by simp [hgoes]), Program.answer, hleft] at hanswer
    cases hanswer

/-- What ends the process: a message that the Manager cannot read, or one that
`ProcessASRMessage` cannot use or gets an answer for that takes no keys. -/
theorem Sound.terminated {h : Host ν} (hsound : Sound R D columnMap columns h) (hended : h.terminated = true) :
    h.world.site.listening = false ∨ ∃ k m, h.messages[k]? = some m ∧ (Usable m →
      ∃ response, R.parse (responseText (answeredBody (Mealy.only k h.calls))) = some response ∧ ¬ response.IsMap) := by
  rcases hsound.ended hended with hlistening | ⟨k, e, hk⟩
  · exact .inl hlistening
  · obtain ⟨m, hm⟩ := hsound.exists_message hk
    exact .inr ⟨k, m, hm, ((uttered_of_runs (hsound.runs hm hk)).thrown e rfl).2⟩

end Host

/-- **The threads come to their end, and the process with the first that
throws.** From every state that a run comes to, the steps that take no new
message are bounded in number, whatever the order of the threads and the
answers they get. When there are none left, the process goes on if and only if
the Manager could read each of its messages and each ASR message was usable and,
if the server answered it with JSON, this takes keys. -/
theorem threads_end {R : Json.Reader ν} {D : Doubles ν} {columnMap : ColumnMap} {columns : List Str}
    {rows : List Stored} {run : List Turn} {h : Host ν}
    (hrun : exec (Host.step R D columnMap columns) (Host.start rows) run = some h) :
    (∃ n, ∀ own h', (∀ a ∈ own, a.Own) → exec (Host.step R D columnMap columns) h own = some h' → own.length ≤ n) ∧
    ((∀ a, a.Own → h.step R D columnMap columns a = none) → (h.terminated = false ↔
      h.world.site.listening = true ∧ ∀ k m, h.messages[k]? = some m → Usable m ∧ ∀ response,
        R.parse (responseText (answeredBody (Mealy.only k h.calls))) = some response → response.IsMap)) := by
  have hsound := Host.run_sound hrun
  refine ⟨?_, fun hstuck => ⟨fun hgoes => ⟨hsound.listening hgoes, fun k m hm => ?_⟩, fun hfine => ?_⟩⟩
  · obtain ⟨n, hn⟩ := hsound.exists_bounded
    exact ⟨n, fun own h' hown hexec =>
      length_le_of_bound (B := Host.Bounded) (fun _ _ _ _ ha hb hs => Host.step_bounded ha hb hs) hn hown hexec⟩
  · obtain ⟨left, hleft⟩ := hsound.exists_thread hm
    have huttered := uttered_of_runs (hsound.runs hm hleft)
    obtain ⟨husable, hanswer⟩ := huttered.returned (Host.returned_of_stuck hstuck hgoes hleft)
    exact ⟨husable, fun response hresponse => (hanswer response hresponse).1⟩
  · obtain ⟨hlistening, hmessages⟩ := hfine
    rw [← Bool.not_eq_true]
    intro hended
    rcases hsound.terminated hended with hdeaf | ⟨k, m, hm, hbad⟩
    · cases hlistening.symm.trans hdeaf
    · obtain ⟨husable, hanswer⟩ := hmessages k m hm
      obtain ⟨response, hresponse, hnot⟩ := hbad husable
      exact hnot (hanswer response hresponse)

theorem threads_end_two : (exec asrStep (Host.start []) asrRun).isSome = true ∧
    ∀ h ∈ exec asrStep (Host.start []) asrRun,
      (∃ n, ∀ own h', (∀ a ∈ own, a.Own) → exec asrStep h own = some h' → own.length ≤ n) ∧
      ((∀ a, a.Own → asrStep h a = none) → (h.terminated = false ↔
        h.world.site.listening = true ∧ ∀ k m, h.messages[k]? = some m → Usable m ∧ ∀ response,
          asrReader.parse (responseText (answeredBody (Mealy.only k h.calls))) = some response → response.IsMap)) :=
  ⟨exec_asrRun, fun _ hh => threads_end hh⟩

end SpeechAnalyzer
