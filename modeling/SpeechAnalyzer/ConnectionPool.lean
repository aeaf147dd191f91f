/-
The connection pool of `DBWrapper.cpp`: `GetConnection` and `FreeConnection`,
and the three operations that take a connection, work with it, and give it
back.

A connection is a handle of any type. `connection_mutex` and
`connection_condition` are those of `Lib.Monitor`.
-/
import SpeechAnalyzer.Lib.Monitor
import SpeechAnalyzer.StoreLoad
import SpeechAnalyzer.Accumulator

namespace SpeechAnalyzer

open Lib Monitor

variable {ν κ L W : Type}

/-- The fields of a `DBWrapper` that change: the map, the stack, top first, and
whether `top()` and `pop()` were called on an empty one, which is undefined. -/
structure DBWrapper (κ : Type) where
  columnMap : ColumnMap
  connectionPool : List κ
  underflow : Bool := false

namespace DBWrapper

/-- `InitializeConnections`: the loop pushes what `PQconnectdb` returns in its turns. -/
def initializeConnections (connect : Nat → κ) (connectionPoolSize : Int) : List κ :=
  (List.range connectionPoolSize.toNat).foldl (fun connectionPool i => connect i :: connectionPool) []

def connectionAvaliable (db : DBWrapper κ) : Bool := !db.connectionPool.isEmpty

/-- `conn = connection_pool.top(); connection_pool.pop();` and the return. -/
def takeConnection (got : κ → L) (undefined : L) (db : DBWrapper κ) : Exit (DBWrapper κ) L W :=
  match db.connectionPool with
  | conn :: rest => .leave { db with connectionPool := rest } (got conn) false
  | [] => .leave { db with underflow := true } undefined false

/-- `GetConnection` from the evaluation of the wait's predicate on. -/
def waitConnection (got : κ → L) (undefined : L) (w : W) (db : DBWrapper κ) : Exit (DBWrapper κ) L W :=
  if db.connectionAvaliable then db.takeConnection got undefined else .wait db w

def getConnection (got : κ → L) (undefined : L) (w : W) (db : DBWrapper κ) : Exit (DBWrapper κ) L W :=
  if db.connectionAvaliable then db.takeConnection got undefined else db.waitConnection got undefined w

def freeConnection (conn : κ) (l : L) (db : DBWrapper κ) : Exit (DBWrapper κ) L W :=
  .leave { db with connectionPool := conn :: db.connectionPool } l true

/-! ## One call -/

/-- `GetConnection` takes the top of the stack, or waits when there is none. -/
theorem getConnection_eq (got : κ → L) (undefined : L) (w : W) (db : DBWrapper κ) :
    db.getConnection got undefined w =
      match db.connectionPool with
      | conn :: rest => .leave { db with connectionPool := rest } (got conn) false
      | [] => .wait db w := by
  unfold getConnection waitConnection takeConnection connectionAvaliable
  cases db.connectionPool with
  | nil => rfl
  | cons conn rest => rfl

/-- Before the wait and after it, `GetConnection` does the same. -/
theorem waitConnection_eq (got : κ → L) (undefined : L) (w : W) (db : DBWrapper κ) :
    db.waitConnection got undefined w = db.getConnection got undefined w := by
  unfold getConnection
  split
  · next h => rw [waitConnection, if_pos h]
  · rfl

/-- What `GetConnection` does to the pool and to the thread. -/
theorem getConnection_cases (got : κ → L) (undefined : L) (w : W) (db : DBWrapper κ) :
    (∃ conn rest, db.connectionPool = conn :: rest ∧
      db.getConnection got undefined w = .leave { db with connectionPool := rest } (got conn) false) ∨
    (db.connectionPool = [] ∧ db.getConnection got undefined w = .wait db w) := by
  rw [getConnection_eq]
  cases h : db.connectionPool with
  | nil => exact .inr ⟨rfl, rfl⟩
  | cons conn rest => exact .inl ⟨conn, rest, rfl, rfl⟩

end DBWrapper

/-! ## The two functions alone -/

/-- A call of one of the two functions, by any thread, with any argument. -/
inductive PoolCall (κ : Type)
  | getConnection
  | freeConnection (conn : κ)

def poolCode : Code (DBWrapper κ) Unit Unit (PoolCall κ) where
  act
    | .getConnection, _, db => some (db.getConnection (fun _ => ()) () ())
    | .freeConnection conn, _, db => some (db.freeConnection conn ())
  resume _ db := db.waitConnection (fun _ => ()) () ()

/-- A new `DBWrapper`, and threads that make no call yet. -/
def startPool (connect : Nat → κ) (connectionPoolSize : Int) (columnMap : ColumnMap) (threads : Nat) (l : L) :
    State (DBWrapper κ) L W where
  shared := { columnMap, connectionPool := DBWrapper.initializeConnections connect connectionPoolSize }
  threads := List.replicate threads (.running l)

theorem startPool_running {connect : Nat → κ} {connectionPoolSize : Int} {columnMap : ColumnMap} {threads : Nat} {l : L}
    {t : Thread L W} (h : t ∈ (startPool connect connectionPoolSize columnMap threads l).threads) : t = .running l :=
  List.eq_of_mem_replicate h

theorem startPool_noLostWakeup (free : DBWrapper κ → Nat) (connect : Nat → κ) (connectionPoolSize : Int)
    (columnMap : ColumnMap) (threads : Nat) (l : L) :
    NoLostWakeup free (startPool connect connectionPoolSize columnMap threads l : State (DBWrapper κ) L W) :=
  noLostWakeup_of_running fun t ht => by rw [startPool_running ht, isParked_running]

/-- The free connections. -/
def DBWrapper.free (db : DBWrapper κ) : Nat := db.connectionPool.length

section Paced

variable {got : κ → L} {undefined : L} {w w' : W} {db db' : DBWrapper κ} {l : L} {n : Bool}

theorem getConnection_leave (h : db.getConnection got undefined w = .leave db' l n) :
    db'.free + 1 ≤ db.free + n.toNat := by
  rcases db.getConnection_cases got undefined w with ⟨conn, rest, hpool, heq⟩ | ⟨-, heq⟩
  · rw [heq] at h
    cases h
    simp [DBWrapper.free, hpool]
  · rw [heq] at h
    cases h

theorem getConnection_wait (h : db.getConnection got undefined w = .wait db' w') : db'.free = 0 := by
  rcases db.getConnection_cases got undefined w with ⟨conn, rest, -, heq⟩ | ⟨hpool, heq⟩
  · rw [heq] at h
    cases h
  · rw [heq] at h
    cases h
    rw [DBWrapper.free, hpool, List.length_nil]

theorem freeConnection_leave {conn : κ} {l' : L}
    (h : (db.freeConnection conn l' : Exit (DBWrapper κ) L W) = .leave db' l n) : db'.free ≤ db.free + n.toNat := by
  cases h
  simp [DBWrapper.free]

end Paced

theorem poolCode_paced : Paced (poolCode (κ := κ)) DBWrapper.free where
  act_leave := by
    intro a l db db' l' n h
    cases a with
    | getConnection =>
      have hle := getConnection_leave (Option.some.inj h)
      omega
    | freeConnection conn => exact freeConnection_leave (Option.some.inj h)
  act_wait := by
    intro a l db db' w h
    cases a with
    | getConnection => exact getConnection_wait (Option.some.inj h)
    | freeConnection conn => cases h
  resume_leave := by
    intro w db db' l n h
    simp only [poolCode, DBWrapper.waitConnection_eq] at h
    exact getConnection_leave h
  resume_wait := by
    intro w db db' w' h
    simp only [poolCode, DBWrapper.waitConnection_eq] at h
    exact getConnection_wait h

/-- **No wake-up is lost.** Whatever calls of `GetConnection` and
`FreeConnection` any number of threads make, while a thread is parked without a
notification there are at most as many free connections as notified threads
that do not have the mutex yet; so no connection is free with a thread parked
and none on its way. -/
theorem no_lost_wakeup (connect : Nat → κ) (connectionPoolSize : Int) (columnMap : ColumnMap) (threads : Nat)
    {s : State (DBWrapper κ) Unit Unit}
    (h : Transition.Reachable (step poolCode) (startPool connect connectionPoolSize columnMap threads ()) s) :
    ((∃ t ∈ s.threads, t.isParked = true) →
        s.shared.connectionPool.length ≤ s.threads.countP Thread.isNotified) ∧
      ¬ (s.shared.connectionPool ≠ [] ∧ (∃ t ∈ s.threads, t.isParked = true) ∧
        ∀ t ∈ s.threads, t.isNotified = false) := by
  have hinv : NoLostWakeup DBWrapper.free s := poolCode_paced.reachable h (startPool_noLostWakeup _ _ _ _ _ _)
  refine ⟨hinv, ?_⟩
  intro hstuck
  obtain ⟨hfree, hparked, hnone⟩ := hstuck
  have hle := hinv hparked
  have hzero : s.threads.countP Thread.isNotified = 0 := by
    rw [List.countP_eq_zero]
    intro t ht hn
    rw [hnone t ht] at hn
    cases hn
  have hpos : 0 < s.shared.connectionPool.length := List.length_pos_iff.mpr hfree
  rw [hzero, DBWrapper.free] at hle
  omega

/-- One connection and four threads: the first takes it, two park, the first
gives it back and notifies the second, and the fourth takes it before that one. -/
def bargingRun : List (Label (PoolCall Nat)) :=
  [.act 0 .getConnection 0, .act 1 .getConnection 0, .act 2 .getConnection 0, .act 0 (.freeConnection 0) 1,
    .act 3 .getConnection 0]

def bargedState : State (DBWrapper Nat) Unit Unit where
  shared := { columnMap := [], connectionPool := [] }
  threads := [.running (), .notified (), .parked (), .running ()]

theorem no_lost_wakeup_barged :
    ((∃ t ∈ bargedState.threads, t.isParked = true) →
        bargedState.shared.connectionPool.length ≤ bargedState.threads.countP Thread.isNotified) ∧
      ¬ (bargedState.shared.connectionPool ≠ [] ∧ (∃ t ∈ bargedState.threads, t.isParked = true) ∧
        ∀ t ∈ bargedState.threads, t.isNotified = false) :=
  no_lost_wakeup id 1 [] 4 ⟨bargingRun, rfl⟩

/-! ## The three operations -/

/-- What `PublishChunk` is promised by `OpensmileProcessor`: numbers under
`lld`, and nothing it looks a key up in that has none. -/
structure Publishable (message : Json ν) : Prop where
  lld : ∃ (lld : Json ν) (l : List (Str × ν)),
    Json.getAt ["data".toList, "features".toList, "lld".toList] message = .ok lld ∧ lld.items = nums l
  participantId : ∃ j, Json.getAt ["data".toList, "participant_id".toList] message = .ok j
  trialId : ∃ j, Json.getAt ["msg".toList, "trial_id".toList] message = .ok j
  experimentId : ∃ j, Json.getAt ["msg".toList, "experiment_id".toList] message = .ok j
  time : ∃ j, Json.getAt ["data".toList, "tmeta".toList, "time".toList] message = .ok j

theorem Represents.publishable {m : Json ν} {v : View ν} (h : Represents m v) : Publishable m := by
  obtain ⟨lld, hread, hitems⟩ := h.getAt_lld
  obtain ⟨hpart, htrial, hexperiment⟩ := h.getAt_ids
  exact ⟨⟨lld, v.lld, hread, hitems⟩, ⟨_, hpart⟩, ⟨_, htrial⟩, ⟨_, hexperiment⟩, ⟨_, h.getAt_time⟩⟩

/-- The processor keeps the promise, whatever openSMILE logs. -/
theorem publishable_of_published {D : Doubles ν} {ids : Ids} {columnMap : ColumnMap} {ms : List LogMessage}
    {m : Json ν} {i : Option Insert}
    (h : .published m i ∈ Processor.events D ids.participantId ids.trialId ids.experimentId columnMap ms) :
    Publishable m := by
  have hsim := events_sim D ids columnMap ms
  obtain ⟨n, hn, he⟩ := List.mem_iff_getElem.mp h
  have hn' : n < (Acc.events D.atof ids (ms.map fun m => despace m.text)).length := by
    rw [← hsim.length_eq]
    exact hn
  have hrel := (List.forall₂_iff_get.mp hsim).2 n hn hn'
  simp only [List.get_eq_getElem, he] at hrel
  cases hacc : (Acc.events D.atof ids (ms.map fun m => despace m.text))[n] with
  | published v =>
    rw [hacc] at hrel
    exact hrel.1.publishable
  | thrown e =>
    rw [hacc] at hrel
    exact hrel.elim

namespace DBWrapper

/-- An operation with its arguments. -/
inductive Operation (ν : Type)
  | publishChunk (message : Json ν) (promised : Publishable message)
  | clearTrial (trialId : Str)
  | featuresBetween (participantId trialId : Str)

/-- What the database has to do with an operation: the answer to its query, and
the texts the query is given for the two bounds. -/
structure Answer where
  query : Str → Str → Str → Str → List Row
  bounds : Str × Str

/-- An operation between `GetConnection` and `FreeConnection`: an exception, or
the map after it. -/
def Operation.body (D : Doubles ν) (columns : List Str) (answer : Answer) :
    Operation ν → ColumnMap → Except Exn ColumnMap
  | publishChunk message _, columnMap => (DBWrapper.publishChunk D columnMap message).map Prod.snd
  | clearTrial _, columnMap => .ok columnMap
  | featuresBetween participantId trialId, columnMap =>
    (DBWrapper.featuresBetween D columnMap columns answer.query answer.bounds participantId trialId).map
      fun _ => columnMap

/-- A thread: outside of the three operations, with a connection in one of
them, or about to give the connection back. -/
inductive Progress (ν κ : Type)
  | idle
  | holding (operation : Operation ν) (conn : κ)
  | done (conn : κ)

inductive Action (ν : Type)
  | call (operation : Operation ν)
  | body (answer : Answer)
  | free

/-- The operations. An exception in the body goes past `FreeConnection`. -/
def operations (D : Doubles ν) (columns : List Str) :
    Code (DBWrapper κ) (Progress ν κ) (Operation ν) (Action ν) where
  act
    | .call operation, .idle, db => some (db.getConnection (.holding operation) .idle operation)
    | .body answer, .holding operation conn, db =>
      match operation.body D columns answer db.columnMap with
      | .ok columnMap => some (.leave { db with columnMap } (.done conn) false)
      | .error _ => some (.leave db .idle false)
    | .free, .done conn, db => some (db.freeConnection conn .idle)
    | _, _, _ => none
  resume operation db := db.waitConnection (.holding operation) .idle operation

/-- The connection of a thread. -/
def Progress.connections : Progress ν κ → List κ
  | idle => []
  | holding _ conn => [conn]
  | done conn => [conn]

/-- The connections made by `InitializeConnections`. -/
def created (connect : Nat → κ) (connectionPoolSize : Int) : List κ :=
  (List.range connectionPoolSize.toNat).map connect

/-! ## No exception -/

theorem exists_publishChunk (D : Doubles ν) {message : Json ν} (h : Publishable message) (columnMap : ColumnMap) :
    ∃ r, DBWrapper.publishChunk D columnMap message = .ok r := by
  obtain ⟨lld, l, hlld, hitems⟩ := h.lld
  obtain ⟨participantId, hparticipant⟩ := h.participantId
  obtain ⟨trialId, htrial⟩ := h.trialId
  obtain ⟨experimentId, hexperiment⟩ := h.experimentId
  obtain ⟨time, htime⟩ := h.time
  obtain ⟨columnMap', hpub, -⟩ := publishChunk_eq (D := D) hlld hitems hparticipant htrial hexperiment htime columnMap
  exact ⟨_, hpub⟩

theorem exists_body (D : Doubles ν) (columns : List Str) (answer : Answer) (operation : Operation ν)
    (columnMap : ColumnMap) : ∃ columnMap', operation.body D columns answer columnMap = .ok columnMap' := by
  cases operation with
  | publishChunk message promised =>
    obtain ⟨r, hr⟩ := exists_publishChunk D promised columnMap
    exact ⟨r.2, by rw [Operation.body, hr]; rfl⟩
  | clearTrial trialId => exact ⟨columnMap, rfl⟩
  | featuresBetween participantId trialId =>
    exact ⟨columnMap, by rw [Operation.body, featuresBetween, mapM_rowMessage_eq]; rfl⟩

/-! ## The operations on the pool -/

variable {D : Doubles ν} {columns : List Str}

/-- What an operation does when a thread goes on with it. -/
theorem operations_act {a : Action ν} {l : Progress ν κ} {db : DBWrapper κ}
    {e : Exit (DBWrapper κ) (Progress ν κ) (Operation ν)} (h : (operations D columns).act a l db = some e) :
    (∃ operation, l = .idle ∧ e = db.getConnection (.holding operation) .idle operation) ∨
    (∃ operation conn columnMap, l = .holding operation conn ∧ e = .leave { db with columnMap } (.done conn) false) ∨
    (∃ conn, l = .done conn ∧ e = db.freeConnection conn .idle) := by
  cases a with
  | call operation =>
    cases l with
    | idle => exact .inl ⟨operation, rfl, (Option.some.inj h).symm⟩
    | holding _ _ => cases h
    | done _ => cases h
  | body answer =>
    cases l with
    | idle => cases h
    | holding operation conn =>
      obtain ⟨columnMap', hbody⟩ := exists_body D columns answer operation db.columnMap
      simp only [operations, hbody, Option.some.injEq] at h
      exact .inr (.inl ⟨operation, conn, columnMap', rfl, h.symm⟩)
    | done _ => cases h
  | free =>
    cases l with
    | idle => cases h
    | holding _ _ => cases h
    | done conn => exact .inr (.inr ⟨conn, rfl, (Option.some.inj h).symm⟩)

theorem operations_resume (operation : Operation ν) (db : DBWrapper κ) :
    (operations D columns).resume operation db = db.getConnection (.holding operation) .idle operation :=
  db.waitConnection_eq _ _ _

theorem getConnection_conserves (operation : Operation ν) (db : DBWrapper κ) :
    ((db.getConnection (.holding operation) .idle operation :
        Exit (DBWrapper κ) (Progress ν κ) (Operation ν)).shared.connectionPool ++
      (db.getConnection (.holding operation) .idle operation :
        Exit (DBWrapper κ) (Progress ν κ) (Operation ν)).held Progress.connections).Perm db.connectionPool := by
  rcases db.getConnection_cases (.holding operation) (.idle : Progress ν κ) operation with
    ⟨conn, rest, hpool, heq⟩ | ⟨hpool, heq⟩
  · rw [heq, hpool]
    exact List.perm_append_singleton conn rest
  · rw [heq]
    simp [Exit.shared, Exit.held]

theorem operations_conserve :
    Conserves (operations (κ := κ) D columns) DBWrapper.connectionPool Progress.connections where
  act := by
    intro a l db e h
    rcases operations_act h with ⟨operation, rfl, rfl⟩ | ⟨operation, conn, columnMap, rfl, rfl⟩ | ⟨conn, rfl, rfl⟩
    · rw [Progress.connections, List.append_nil]
      exact getConnection_conserves operation db
    · exact .refl _
    · simp only [freeConnection, Exit.shared, Exit.held, Progress.connections, List.append_nil]
      exact (List.perm_append_singleton conn db.connectionPool).symm
  resume := by
    intro operation db
    rw [operations_resume]
    exact getConnection_conserves operation db

theorem getConnection_underflow {got : κ → L} {undefined : L} {w : W} {db : DBWrapper κ} (h : db.underflow = false) :
    (db.getConnection got undefined w).shared.underflow = false := by
  rcases db.getConnection_cases got undefined w with ⟨conn, rest, -, heq⟩ | ⟨-, heq⟩
  · rw [heq]
    exact h
  · rw [heq]
    exact h

theorem operations_underflow {s t : State (DBWrapper κ) (Progress ν κ) (Operation ν)}
    (h : Transition.Reachable (step (operations D columns)) s t) (hs : s.shared.underflow = false) :
    t.shared.underflow = false := by
  refine shared_inv (I := fun db => db.underflow = false) ?_ ?_ h hs
  · intro a l db e hdb he
    rcases operations_act he with ⟨operation, -, rfl⟩ | ⟨operation, conn, columnMap, -, rfl⟩ | ⟨conn, -, rfl⟩
    · exact getConnection_underflow hdb
    · exact hdb
    · exact hdb
  · intro operation db hdb
    rw [operations_resume]
    exact getConnection_underflow hdb

theorem initializeConnections_perm (connect : Nat → κ) (connectionPoolSize : Int) :
    (initializeConnections connect connectionPoolSize).Perm (created connect connectionPoolSize) := by
  have hfold : ∀ (is : List Nat) (pool : List κ),
      (is.foldl (fun connectionPool i => connect i :: connectionPool) pool).Perm (is.map connect ++ pool) := by
    intro is
    induction is with
    | nil => exact fun _ => .refl _
    | cons i is ih => exact fun pool => (ih (connect i :: pool)).trans List.perm_middle
  have h := hfold (List.range connectionPoolSize.toNat) []
  rwa [List.append_nil] at h

/-- No thread holds a connection while none is in an operation. -/
theorem resources_idle {s : State (DBWrapper κ) (Progress ν κ) (Operation ν)}
    (h : ∀ t ∈ s.threads, t = .running .idle) :
    s.resources DBWrapper.connectionPool Progress.connections = s.shared.connectionPool := by
  have hnone : s.threads.flatMap (Thread.held Progress.connections) = [] := by
    rw [List.flatMap_eq_nil_iff]
    intro t ht
    rw [h t ht]
    rfl
  rw [State.resources, hnone, List.append_nil]

end DBWrapper

open DBWrapper in
/-- **The pool is conserved.** In every state that threads with their
operations reach, the connections in the pool and those of the operations in
progress are the connections created, each of them once; `top()` and `pop()`
met no empty stack; and with no operation in progress all are in the pool. -/
theorem pool_conserved (D : Doubles ν) (columns : List Str) {connect : Nat → κ} {connectionPoolSize : Int}
    (hconnect : (created connect connectionPoolSize).Nodup) (columnMap : ColumnMap) (threads : Nat)
    {s : State (DBWrapper κ) (Progress ν κ) (Operation ν)}
    (h : Transition.Reachable (step (operations D columns))
      (startPool connect connectionPoolSize columnMap threads .idle) s) :
    (s.resources DBWrapper.connectionPool Progress.connections).Perm (created connect connectionPoolSize) ∧
      (s.resources DBWrapper.connectionPool Progress.connections).Nodup ∧
      s.shared.underflow = false ∧
      ((∀ t ∈ s.threads, t = .running .idle) →
        s.shared.connectionPool.Perm (created connect connectionPoolSize)) := by
  have hstart : (startPool connect connectionPoolSize columnMap threads .idle :
      State (DBWrapper κ) (Progress ν κ) (Operation ν)).resources DBWrapper.connectionPool Progress.connections =
      initializeConnections connect connectionPoolSize := resources_idle fun t ht => startPool_running ht
  have hperm : (s.resources DBWrapper.connectionPool Progress.connections).Perm
      (created connect connectionPoolSize) := by
    have hconserved := operations_conserve.reachable h
    rw [hstart] at hconserved
    exact hconserved.trans (initializeConnections_perm connect connectionPoolSize)
  refine ⟨hperm, hperm.nodup_iff.mpr hconnect, operations_underflow h rfl, ?_⟩
  intro hidle
  rwa [resources_idle hidle] at hperm

open DBWrapper in
/-- Two threads and one connection: the second waits for it while the first
publishes, and gets it. -/
theorem pool_conserved_two : ∃ s : State (DBWrapper Nat) (Progress Decimal Nat) (Operation Decimal),
    s.threads = [.running .idle, .running (.holding (.featuresBetween "P".toList "T".toList) 0)] ∧
    (s.resources DBWrapper.connectionPool Progress.connections).Perm (created id 1) ∧
      (s.resources DBWrapper.connectionPool Progress.connections).Nodup ∧
      s.shared.underflow = false ∧
      ((∀ t ∈ s.threads, t = .running .idle) → s.shared.connectionPool.Perm (created id 1)) :=
  ⟨_, rfl, pool_conserved DecimalPrinter.allDigits.doubles [] (show (created id 1).Nodup by decide) [] 2
    ⟨[.act 0 (.call (.publishChunk (completeMessage [("a".toList, ⟨5, 1⟩)] ⟨25, 2⟩
          ⟨"P".toList, "T".toList, "E".toList⟩)
        ⟨⟨_, _, rfl, rfl⟩, ⟨_, rfl⟩, ⟨_, rfl⟩, ⟨_, rfl⟩, ⟨_, rfl⟩⟩)) 0,
      .act 1 (.call (.featuresBetween "P".toList "T".toList)) 0,
      .act 0 (.body ⟨fun _ _ _ _ => [], [], []⟩) 0, .act 0 .free 1, .resume 1 0], rfl⟩⟩

end SpeechAnalyzer
