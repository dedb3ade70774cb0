import Mathlib.Algebra.Ring.Nat
import Mathlib.Logic.Function.Basic
import LoopzToken.Lib.Machine
import LoopzToken.Lib.Family
import LoopzToken.Worker.Claim

/-!
# LoopzToken.Worker.Main

The worker program as a machine. A *tick* runs `tick` → `processBatch` →
`claimBatch`, then for each event `handleEvent` and `markDone` or `markFailed`;
its `Phase` is the program point it has reached, with the variables still live
there. Any number of processes run any number of ticks over one table, and every
interleaving of their steps is a run.

Points where the model follows the code closely:

* The claim is two steps. `select` takes the row locks (and skips rows an open
  claim of another tick has locked), `commit` makes the batch visible; in
  between other ticks move.
* A status write is two steps as well: it is issued with its data already
  computed (`markDone`, `markFailed`), and later applied by the database. Its
  error may be reported before or after it was applied, or never.
* `handleEvent` and `markDone` share one `try`: an error of either reaches
  `markFailed`. An error of `markFailed` itself leaves `processBatch` and ends
  the tick in the `catch` of `tick`.
* `setInterval` starts ticks without waiting for earlier ones. `SIGTERM` stops
  new ticks; `exit` (at the end of `shutdown`, or a crash) stops a process
  between any two steps. What the database was already asked to do it may still
  do after that.

All choices of the environment are in the labels (`TickAction`, `Action`), so the
step functions are functions. What a handler may do is a parameter.

Not modelled: thrown values that `String` throws on (the error then leaves
`processBatch`), messages with a NUL, which the column `lastError` does not take, and
`attempts` at the end of the range of `INT4`.
-/

namespace LoopzToken.Worker

open Lib (Json Machine)

/-! ### Status writes -/

/-- `MAX_ATTEMPTS`. -/
def maxAttempts : ℕ := 5

/-- `MAX_BACKOFF_MS`. -/
def maxBackoffMs : ℕ := 15 * 60 * 1000

/-- `Math.min(30_000 * 2 ** attempts, MAX_BACKOFF_MS)`. -/
def backoffMs (attempts : ℕ) : ℕ := min (30000 * 2 ^ attempts) maxBackoffMs

example : [1, 2, 3, 4, 5].map backoffMs = [60000, 120000, 240000, 480000, 900000] := by decide

/-- The data `markDone` writes when called at time `now`. -/
def markDone (now : DateTime) : OutboxUpdate :=
  { status := some .done, doneAt := some now }

/-- The data `markFailed` writes when called at time `now` with the event as it
was claimed. -/
def markFailed (now : DateTime) (event : OutboxEvent) (message : String) : OutboxUpdate :=
  let attempts := event.attempts + 1
  if attempts ≥ maxAttempts then
    { status := some .failed, attempts := some attempts, lastError := some message }
  else
    { status := some .pending, attempts := some attempts, lastError := some message
      nextRunAt := some (now + backoffMs attempts) }

/-- What the `catch` of `processBatch` catches: the `try` holds both
`handleEvent` and `markDone`. -/
inductive Failure
  | handler (message : String)
  | database (message : String)
  deriving DecidableEq, Repr

/-- `error instanceof Error ? error.message : String(error)`, which has a text here. -/
def Failure.message : Failure → String
  | .handler m => m
  | .database m => m

/-! ### One tick -/

/-- The program point of a tick. `issued` is the clock reading of a status
write, `applied` whether the database has applied it. -/
inductive Phase
  /-- `claimBatch` is called; its transaction has locked nothing yet. -/
  | polling
  /-- The query has locked the rows `ids`; `now` is the transaction's `now()`. -/
  | claiming (now : DateTime) (ids : List String)
  /-- The claim is committed; its answer is on the way. -/
  | claimed (events : List OutboxEvent)
  /-- At the head of the `for` loop. -/
  | looping (rest : List OutboxEvent)
  /-- `await handleEvent(event.eventType, event.payload)`. -/
  | handling (event : OutboxEvent) (rest : List OutboxEvent)
  /-- `await markDone(event.id)`. -/
  | markingDone (event : OutboxEvent) (issued : DateTime) (applied : Bool)
      (rest : List OutboxEvent)
  /-- `await markFailed(event, error)`. -/
  | markingFailed (event : OutboxEvent) (issued : DateTime) (error : Failure) (applied : Bool)
      (rest : List OutboxEvent)
  /-- `tick` has returned. -/
  | ended

/-- One step of a tick, or of the database on its behalf. -/
inductive TickAction
  | select (now : DateTime) (order : List String)
  | commit (order : List String)
  | abort
  | claimReturned
  | claimRejected
  | next
  | handlerReturned (now : DateTime)
  | handlerThrew (now : DateTime) (message : String)
  | applyWrite
  | writeReturned
  | writeRejected (now : DateTime) (message : String)

/-- The steps the database makes on its own, with or without the process. -/
def TickAction.byDatabase : TickAction → Bool
  | .commit _ => true
  | .abort => true
  | .applyWrite => true
  | _ => false

/-- Which outcomes `handleEvent` may have for an event type and a payload:
`.ok ()` returns, `.error m` throws. -/
abbrev Handlers := String → Json → Except String Unit → Bool

/-- The row locks a tick's open transaction holds. -/
def Phase.locks : Phase → List String
  | .claiming _ ids => ids
  | _ => []

/-- `tick`, one step. `locked` are the rows under a lock of an open claim. -/
def Phase.step? (H : Handlers) (locked : List String) (T : Table) :
    Phase → TickAction → Option (Table × Phase)
  | .polling, .select now order =>
      -- the snapshot of the query: the rows it sees, in the order it visits them
      if order.Nodup then
        match claimQuery.run outboxEventMapped order now locked T with
        | .ok ids => some (T, .claiming now ids)
        | .error _ => some (T, .ended)
      else none
  | .polling, .abort => some (T, .ended)
  | .claiming _ ids, .commit order =>
      if order.Perm T.ids then
        some ((claimRows ids order T).1, .claimed (claimRows ids order T).2)
      else none
  | .claiming _ _, .abort => some (T, .ended)
  | .claimed events, .claimReturned => some (T, .looping events)
  -- the claim is committed, but its answer is lost: the `catch` of `tick`
  | .claimed _, .claimRejected => some (T, .ended)
  | .looping [], .next => some (T, .ended)
  | .looping (event :: rest), .next => some (T, .handling event rest)
  | .handling event rest, .handlerReturned now =>
      if H event.eventType event.payload (.ok ()) then
        some (T, .markingDone event now false rest)
      else none
  | .handling event rest, .handlerThrew now message =>
      if H event.eventType event.payload (.error message) then
        some (T, .markingFailed event now (.handler message) false rest)
      else none
  | .markingDone event issued false rest, .applyWrite =>
      -- an update waits for the row lock
      if event.id ∈ locked then none
      else some (T.update event.id (markDone issued), .markingDone event issued true rest)
  | .markingFailed event issued error false rest, .applyWrite =>
      if event.id ∈ locked then none
      else some (T.update event.id (markFailed issued event error.message),
        .markingFailed event issued error true rest)
  | .markingDone _ _ true rest, .writeReturned => some (T, .looping rest)
  | .markingFailed _ _ _ true rest, .writeReturned => some (T, .looping rest)
  | .markingDone event _ _ rest, .writeRejected now message =>
      -- the `catch` of `processBatch`, whether or not the write was applied
      some (T, .markingFailed event now (.database message) false rest)
  -- this error leaves the `for` loop: the `catch` of `tick`
  | .markingFailed _ _ _ _ _, .writeRejected _ _ => some (T, .ended)
  | _, _ => none

/-! ### All processes -/

/-- The life of a worker process: `stopping` once `running` was set to `false`. -/
inductive ProcState
  | running
  | stopping
  | exited
  deriving DecidableEq, Repr

/-- A call of `tick` in process `proc`. -/
structure Tick where
  proc : ℕ
  phase : Phase

/-- The table, the processes, and every tick started so far. -/
structure State where
  table : Table
  procs : ℕ → ProcState
  ticks : List Tick

inductive Action
  /-- Another program inserts a row. -/
  | insert (row : OutboxEvent)
  /-- The interval timer of process `p` fires. -/
  | start (p : ℕ)
  /-- Tick `i` moves. -/
  | tick (i : ℕ) (a : TickAction)
  /-- `SIGINT` or `SIGTERM`: `shutdown` begins. -/
  | signal (p : ℕ)
  /-- `process.exit(0)`, or a crash. -/
  | exit (p : ℕ)

/-- The rows under a lock of some open claim. -/
def State.locked (s : State) : List String := s.ticks.flatMap (·.phase.locks)

/-- A tick is running until it returns or its process exits. -/
def State.Running (s : State) (t : Tick) : Prop :=
  s.procs t.proc ≠ .exited ∧ t.phase ≠ .ended

/-- One step of the system. -/
def State.step? (H : Handlers) (s : State) : Action → Option State
  | .insert row =>
      if row.status = .pending then (s.table.insert row).map fun T => { s with table := T }
      else none
  | .start p =>
      if s.procs p = .running then some { s with ticks := s.ticks ++ [⟨p, .polling⟩] } else none
  | .tick i a =>
      match s.ticks[i]? with
      | none => none
      | some t =>
        -- the database may still finish what an exited process has asked it for
        if s.procs t.proc = .exited ∧ a.byDatabase = false then none
        else (t.phase.step? H s.locked s.table a).map fun r =>
          { s with table := r.1, ticks := s.ticks.set i ⟨t.proc, r.2⟩ }
  | .signal p =>
      if s.procs p = .running then
        some { s with procs := Function.update s.procs p .stopping }
      else none
  | .exit p =>
      if s.procs p = .exited then none
      else some { s with procs := Function.update s.procs p .exited }

/-- Nothing inserted and nothing started. -/
def State.init : State := ⟨Table.empty, fun _ => .running, []⟩

/-- The outbox worker, with handlers that behave as `H` allows. -/
def worker (H : Handlers) : Machine State Action where
  init := .init
  step := State.step? H

/-! ### Inverting a step -/

/-- `Phase.step?`, one constructor for each way a tick can move. -/
inductive Phase.Step (H : Handlers) (locked : List String) (T : Table) :
    Phase → TickAction → Table → Phase → Prop
  | select {now order ids} (hord : order.Nodup)
      (hq : claimQuery.run outboxEventMapped order now locked T = .ok ids) :
      Step H locked T .polling (.select now order) T (.claiming now ids)
  | pollAbort : Step H locked T .polling .abort T .ended
  | commit {now ids order} (hord : order.Perm T.ids) :
      Step H locked T (.claiming now ids) (.commit order) (claimRows ids order T).1
        (.claimed (claimRows ids order T).2)
  | claimAbort {now ids} : Step H locked T (.claiming now ids) .abort T .ended
  | claimReturned {events} :
      Step H locked T (.claimed events) .claimReturned T (.looping events)
  | claimRejected {events} : Step H locked T (.claimed events) .claimRejected T .ended
  | nextDone : Step H locked T (.looping []) .next T .ended
  | nextEvent {e rest} : Step H locked T (.looping (e :: rest)) .next T (.handling e rest)
  | handlerReturned {e rest now} (hH : H e.eventType e.payload (.ok ()) = true) :
      Step H locked T (.handling e rest) (.handlerReturned now) T
        (.markingDone e now false rest)
  | handlerThrew {e rest now message} (hH : H e.eventType e.payload (.error message) = true) :
      Step H locked T (.handling e rest) (.handlerThrew now message) T
        (.markingFailed e now (.handler message) false rest)
  | applyDone {e issued rest} (hfree : e.id ∉ locked) :
      Step H locked T (.markingDone e issued false rest) .applyWrite
        (T.update e.id (markDone issued)) (.markingDone e issued true rest)
  | applyFailed {e issued error rest} (hfree : e.id ∉ locked) :
      Step H locked T (.markingFailed e issued error false rest) .applyWrite
        (T.update e.id (markFailed issued e error.message))
        (.markingFailed e issued error true rest)
  | doneReturned {e issued rest} :
      Step H locked T (.markingDone e issued true rest) .writeReturned T (.looping rest)
  | failedReturned {e issued error rest} :
      Step H locked T (.markingFailed e issued error true rest) .writeReturned T (.looping rest)
  | doneRejected {e issued applied rest now message} :
      Step H locked T (.markingDone e issued applied rest) (.writeRejected now message) T
        (.markingFailed e now (.database message) false rest)
  | failedRejected {e issued error applied rest now message} :
      Step H locked T (.markingFailed e issued error applied rest) (.writeRejected now message) T
        .ended

theorem Phase.step_of_step? {H : Handlers} {locked : List String} {T T' : Table}
    {ph ph' : Phase} {a : TickAction} (h : ph.step? H locked T a = some (T', ph')) :
    Phase.Step H locked T ph a T' ph' := by
  unfold Phase.step? at h
  split at h
  · split at h
    · rename_i hord
      rw [claimQuery_run_mapped] at h
      obtain ⟨rfl, rfl⟩ := Prod.mk.inj (Option.some.inj h)
      exact .select hord (claimQuery_run_mapped ..)
    · cases h
  · obtain ⟨rfl, rfl⟩ := Prod.mk.inj (Option.some.inj h)
    exact .pollAbort
  · split at h
    · obtain ⟨rfl, rfl⟩ := Prod.mk.inj (Option.some.inj h)
      exact .commit ‹_›
    · cases h
  · obtain ⟨rfl, rfl⟩ := Prod.mk.inj (Option.some.inj h)
    exact .claimAbort
  · obtain ⟨rfl, rfl⟩ := Prod.mk.inj (Option.some.inj h)
    exact .claimReturned
  · obtain ⟨rfl, rfl⟩ := Prod.mk.inj (Option.some.inj h)
    exact .claimRejected
  · obtain ⟨rfl, rfl⟩ := Prod.mk.inj (Option.some.inj h)
    exact .nextDone
  · obtain ⟨rfl, rfl⟩ := Prod.mk.inj (Option.some.inj h)
    exact .nextEvent
  · split at h
    · obtain ⟨rfl, rfl⟩ := Prod.mk.inj (Option.some.inj h)
      exact .handlerReturned ‹_›
    · cases h
  · split at h
    · obtain ⟨rfl, rfl⟩ := Prod.mk.inj (Option.some.inj h)
      exact .handlerThrew ‹_›
    · cases h
  · split at h
    · cases h
    · obtain ⟨rfl, rfl⟩ := Prod.mk.inj (Option.some.inj h)
      exact .applyDone ‹_›
  · split at h
    · cases h
    · obtain ⟨rfl, rfl⟩ := Prod.mk.inj (Option.some.inj h)
      exact .applyFailed ‹_›
  · obtain ⟨rfl, rfl⟩ := Prod.mk.inj (Option.some.inj h)
    exact .doneReturned
  · obtain ⟨rfl, rfl⟩ := Prod.mk.inj (Option.some.inj h)
    exact .failedReturned
  · obtain ⟨rfl, rfl⟩ := Prod.mk.inj (Option.some.inj h)
    exact .doneRejected
  · obtain ⟨rfl, rfl⟩ := Prod.mk.inj (Option.some.inj h)
    exact .failedRejected
  · cases h

/-- The system moves by an insertion, by one tick, or without touching the table
or any tick's program point. -/
inductive State.Step (H : Handlers) (s : State) : Action → State → Prop
  | insert {row T} (hnew : row.status = .pending) (hins : s.table.insert row = some T) :
      Step H s (.insert row) { s with table := T }
  | start {p} (hp : s.procs p = .running) :
      Step H s (.start p) { s with ticks := s.ticks ++ [⟨p, .polling⟩] }
  | tick {i a t T ph} (hi : s.ticks[i]? = some t)
      (halive : s.procs t.proc = .exited → a.byDatabase = true)
      (hstep : t.phase.Step H s.locked s.table a T ph) :
      Step H s (.tick i a) { s with table := T, ticks := s.ticks.set i ⟨t.proc, ph⟩ }
  | signal {p} (hp : s.procs p = .running) :
      Step H s (.signal p) { s with procs := Function.update s.procs p .stopping }
  | exit {p} (hp : s.procs p ≠ .exited) :
      Step H s (.exit p) { s with procs := Function.update s.procs p .exited }

theorem State.step_of_step? {H : Handlers} {s s' : State} {a : Action}
    (h : s.step? H a = some s') : State.Step H s a s' := by
  cases a with
  | insert row =>
      simp only [State.step?] at h
      split at h
      · obtain ⟨T, hT, rfl⟩ := Option.map_eq_some_iff.mp h
        exact .insert ‹_› hT
      · cases h
  | start p =>
      simp only [State.step?] at h
      split at h
      · obtain rfl := Option.some.inj h
        exact .start ‹_›
      · cases h
  | tick i a =>
      simp only [State.step?] at h
      split at h
      · cases h
      · rename_i t hi
        split at h
        · cases h
        · rename_i halive
          obtain ⟨⟨T, ph⟩, hstep, rfl⟩ := Option.map_eq_some_iff.mp h
          refine .tick hi (fun hex => ?_) (Phase.step_of_step? hstep)
          simpa using fun hdb => halive ⟨hex, hdb⟩
  | signal p =>
      simp only [State.step?] at h
      split at h
      · obtain rfl := Option.some.inj h
        exact .signal ‹_›
      · cases h
  | exit p =>
      simp only [State.step?] at h
      split at h
      · cases h
      · obtain rfl := Option.some.inj h
        exact .exit ‹_›

end LoopzToken.Worker
