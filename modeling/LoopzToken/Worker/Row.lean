import LoopzToken.Worker.Ownership

/-!
# LoopzToken.Worker.Row

The life of one row, as an abstract machine. `rowEvent i` reads off a step of the
system what it does to row `i`; `RowStep` says what that event may do to the row.
`State.Ok.row` connects the two: in every reachable state, every step of the
system is a `RowStep` on every row. The properties of statuses, of `doneAt` and of
`attempts` over whole runs are proved from `RowStep` alone, by the rule `run_row`.

`RowStep.reopened` is the one transition a reader would not expect: `markDone`
was applied, reported an error, and `markFailed` then overwrote the finished row.
-/

namespace LoopzToken.Worker

open Lib

variable {H : Handlers}

/-! ### What a step does to a row -/

/-- What one step does to one row. -/
inductive RowEvent
  | inserted (row : OutboxEvent)
  | claimed (now : DateTime)
  | done (issued : DateTime)
  | failed (issued : DateTime) (error : Failure)

def RowEvent.isClaimed : RowEvent → Bool
  | .claimed _ => true
  | _ => false

def RowEvent.isFailed : RowEvent → Bool
  | .failed _ _ => true
  | _ => false

/-- The failure is an error that `markDone` reported. -/
def RowEvent.isRejection : RowEvent → Bool
  | .failed _ (.database _) => true
  | _ => false

def Phase.rowEvent (i : String) : Phase → TickAction → Option RowEvent
  | .claiming now ids, .commit _ => if i ∈ ids then some (.claimed now) else none
  | .markingDone event issued false _, .applyWrite =>
      if event.id = i then some (.done issued) else none
  | .markingFailed event issued error false _, .applyWrite =>
      if event.id = i then some (.failed issued error) else none
  | _, _ => none

/-- What a step shows of the tick that moves. -/
def tickEvent {β : Type} (f : Phase → TickAction → Option β) (p : State × Action) : Option β :=
  match p.2 with
  | .tick k a =>
      match p.1.ticks[k]? with
      | some t => f t.phase a
      | none => none
  | _ => none

/-- What the step `p` does to row `i`. -/
def rowEvent (i : String) (p : State × Action) : Option RowEvent :=
  match p.2 with
  | .insert row => if row.id = i then some (.inserted row) else none
  | _ => tickEvent (Phase.rowEvent i) p

/-- The step `p` claims row `i`. -/
def claims (i : String) (p : State × Action) : Bool := (rowEvent i p).any RowEvent.isClaimed

/-- The step `p` applies a `markFailed` write to row `i`. -/
def recordsFailure (i : String) (p : State × Action) : Bool :=
  (rowEvent i p).any RowEvent.isFailed

/-- The step `p` records in row `i`, as a failed attempt, an error of `markDone`. -/
def recordsRejection (i : String) (p : State × Action) : Bool :=
  (rowEvent i p).any RowEvent.isRejection

/-- The transitions of one row. -/
inductive RowStep : Option RowEvent → Option OutboxEvent → Option OutboxEvent → Prop
  | quiet {r} : RowStep none r r
  | inserted {r} (hr : r.status = .pending) : RowStep (some (.inserted r)) none (some r)
  | claimed {r now} (hr : r.Due now) :
      RowStep (some (.claimed now)) (some r) (some r.claimed)
  | done {e issued} (he : e.status = .processing) :
      RowStep (some (.done issued)) (some e) (some ((markDone issued).apply e))
  | failed {e issued error} (he : e.status = .processing) :
      RowStep (some (.failed issued error)) (some e)
        (some ((markFailed issued e error.message).apply e))
  | reopened {e doneAt issued message} (he : e.status = .processing) :
      RowStep (some (.failed issued (.database message))) (some ((markDone doneAt).apply e))
        (some ((markFailed issued e message).apply ((markDone doneAt).apply e)))

/-! ### Every step of the system is a step of every row -/

theorem tickEvent_tick {β : Type} {f : Phase → TickAction → Option β} {s : State} {k : ℕ}
    {a : TickAction} {t : Tick} (hk : s.ticks[k]? = some t) :
    tickEvent f (s, .tick k a) = f t.phase a := by
  simp only [tickEvent, hk]

theorem rowEvent_tick {i : String} {s : State} {k : ℕ} {a : TickAction} {t : Tick}
    (hk : s.ticks[k]? = some t) : rowEvent i (s, .tick k a) = t.phase.rowEvent i a :=
  tickEvent_tick hk

theorem rowEvent_inserted {i : String} {p : State × Action} {row : OutboxEvent}
    (h : rowEvent i p = some (.inserted row)) : p.2 = .insert row := by
  obtain ⟨s, a⟩ := p
  cases a with
  | insert row' =>
      simp only [rowEvent] at h
      split at h
      · obtain rfl := RowEvent.inserted.inj (Option.some.inj h)
        rfl
      · cases h
  | tick k a =>
      simp only [rowEvent, tickEvent] at h
      split at h
      · unfold Phase.rowEvent at h
        split at h <;> first | split at h | skip
        all_goals cases h
      · cases h
  | start p | signal p | exit p => cases h

theorem Phase.rowEvent_done {i : String} {ph : Phase} {a : TickAction} {issued : DateTime}
    (h : ph.rowEvent i a = some (.done issued)) :
    ∃ e rest, ph = .markingDone e issued false rest ∧ e.id = i := by
  unfold Phase.rowEvent at h
  split at h
  · split at h <;> cases h
  · split at h
    · rename_i he
      cases h
      exact ⟨_, _, rfl, he⟩
    · cases h
  · split at h <;> cases h
  · cases h

theorem Phase.rowEvent_failed {i : String} {ph : Phase} {a : TickAction} {issued : DateTime}
    {error : Failure} (h : ph.rowEvent i a = some (.failed issued error)) :
    ∃ e rest, ph = .markingFailed e issued error false rest ∧ e.id = i := by
  unfold Phase.rowEvent at h
  split at h
  · split at h <;> cases h
  · split at h <;> cases h
  · split at h
    · rename_i he
      cases h
      exact ⟨_, _, rfl, he⟩
    · cases h
  · cases h

/-- What is no insertion is the doing of a tick. -/
theorem rowEvent_of_tick {i : String} {s : State} {a : Action} {ev : RowEvent}
    (h : rowEvent i (s, a) = some ev) (hnew : ∀ row, ev ≠ .inserted row) :
    ∃ t ∈ s.ticks, ∃ b, t.phase.rowEvent i b = some ev := by
  cases a with
  | tick k b =>
      simp only [rowEvent, tickEvent] at h
      split at h
      · rename_i t hk
        exact ⟨t, List.mem_of_getElem? hk, b, h⟩
      · cases h
  | insert row =>
      simp only [rowEvent] at h
      split at h
      · exact absurd (Option.some.inj h).symm (hnew row)
      · cases h
  | start p | signal p | exit p => cases h

/-- A row becomes `DONE` by the `markDone` of a tick. -/
theorem rowEvent_done {i : String} {s : State} {a : Action} {issued : DateTime}
    (h : rowEvent i (s, a) = some (.done issued)) :
    ∃ t ∈ s.ticks, ∃ e rest, t.phase = .markingDone e issued false rest ∧ e.id = i := by
  obtain ⟨t, ht, b, hb⟩ := rowEvent_of_tick h (by simp)
  exact ⟨t, ht, Phase.rowEvent_done hb⟩

/-- A failure is recorded by the `markFailed` of a tick. -/
theorem rowEvent_failed {i : String} {s : State} {a : Action} {issued : DateTime}
    {error : Failure} (h : rowEvent i (s, a) = some (.failed issued error)) :
    ∃ t ∈ s.ticks, ∃ e rest, t.phase = .markingFailed e issued error false rest ∧ e.id = i := by
  obtain ⟨t, ht, b, hb⟩ := rowEvent_of_tick h (by simp)
  exact ⟨t, ht, Phase.rowEvent_failed hb⟩

theorem Phase.Step.row {locked : List String} {T T' : Table} {ph ph' : Phase}
    {a : TickAction} (h : ph.Step H locked T a T' ph') (hok : ph.Ok T) (i : String) :
    RowStep (ph.rowEvent i a) (T.find? i) (T'.find? i) := by
  cases h with
  | @commit now ids order hord =>
      rw [claimRows_find?]
      simp only [Phase.rowEvent]
      split
      · rename_i hi
        obtain ⟨r, hr, hdue⟩ := hok i hi
        rw [hr]
        exact .claimed hdue
      · exact .quiet
  | @applyDone e issued rest hfree =>
      rw [Table.find?_update]
      simp only [Phase.rowEvent, eq_comm (a := e.id)]
      split
      · rename_i hi
        subst hi
        rw [show T.find? e.id = some e from hok.2.1]
        exact .done hok.1
      · exact .quiet
  | @applyFailed e issued error rest hfree =>
      rw [Table.find?_update]
      simp only [Phase.rowEvent, eq_comm (a := e.id)]
      split
      · rename_i hi
        subst hi
        have herr := hok.2.1 rfl
        cases error with
        | handler m =>
            rw [show T.find? e.id = some e from herr]
            exact .failed hok.1
        | database m =>
            -- `markDone` reported an error: it may have been applied all the same
            rcases herr with he | ⟨t, he⟩
            · rw [he]
              exact .failed hok.1
            · rw [he]
              exact .reopened hok.1
      · exact .quiet
  | @doneRejected e issued applied => cases applied <;> exact .quiet
  | @failedRejected e issued error applied => cases applied <;> exact .quiet
  | select | pollAbort | claimAbort | claimReturned | claimRejected | nextDone | nextEvent
  | handlerReturned | handlerThrew | doneReturned | failedReturned => exact .quiet

/-- **Refinement to the row machine.** -/
theorem State.Ok.row {s s' : State} {a : Action} (hok : s.Ok) (h : State.Step H s a s')
    (i : String) : RowStep (rowEvent i (s, a)) (s.table.find? i) (s'.table.find? i) := by
  cases h with
  | @insert row T hnew hins =>
      obtain ⟨habs, hfind⟩ := Table.insert_inv hins
      rw [hfind]
      simp only [rowEvent, eq_comm (a := row.id)]
      split
      · rename_i hi
        subst hi
        rw [habs]
        exact .inserted hnew
      · exact .quiet
  | @tick k a t T ph hk halive hstep =>
      rw [rowEvent_tick hk]
      exact hstep.row (hok.phases t (List.mem_of_getElem? hk)) i
  | start | signal | exit => exact .quiet

/-- Induction along a run, on what happens to one row. -/
theorem run_row {P : List (State × Action) → Option OutboxEvent → Prop} {i : String}
    (h0 : P [] none)
    (hstep : ∀ h p r r', P h r → RowStep (rowEvent i p) r r' → P (p :: h) r')
    {h : List (State × Action)} {s : State} (hr : (worker H).Run .init h s) :
    P h (s.table.find? i) := by
  induction hr with
  | refl => exact h0
  | step hr hs ih => exact hstep _ _ _ _ ih ((run_ok hr).row (State.step_of_step? hs) i)

/-! ### Attempts -/

/-- A step raises `attempts` by one when it records a failure, and otherwise
leaves it alone. -/
theorem RowStep.attempts {ev : Option RowEvent} {r r' : OutboxEvent}
    (h : RowStep ev (some r) (some r')) :
    r'.attempts = r.attempts + if ev.any RowEvent.isFailed then 1 else 0 := by
  cases h with
  | quiet => rfl
  | claimed => rfl
  | done => rfl
  | failed => simp [RowEvent.isFailed]
  | reopened => simp [RowEvent.isFailed, markDone_apply]

/-- An absent row is only ever inserted. -/
theorem RowStep.of_none {ev : Option RowEvent} {r' : Option OutboxEvent}
    (h : RowStep ev none r') :
    (ev = none ∧ r' = none) ∨ ∃ r, ev = some (.inserted r) ∧ r.status = .pending ∧ r' = some r := by
  cases h with
  | quiet => exact .inl ⟨rfl, rfl⟩
  | inserted hr => exact .inr ⟨_, rfl, hr, rfl⟩

/-- No row is ever deleted, and none is inserted twice. -/
theorem RowStep.of_some {ev : Option RowEvent} {r : OutboxEvent} {r' : Option OutboxEvent}
    (h : RowStep ev (some r) r') : (∃ q, r' = some q) ∧ ∀ q, ev ≠ some (.inserted q) := by
  cases h <;> exact ⟨⟨_, rfl⟩, nofun⟩

/-- `attempts` of row `i`, against the history: what it was inserted with plus the
`markFailed` writes applied to it. -/
def RecordedAttempts (i : String) (h : List (State × Action)) : Option OutboxEvent → Prop
  | none => h.countP (recordsFailure i) = 0
  | some r => ∃ t row, (t, .insert row) ∈ h ∧ row.id = i ∧
      r.attempts = row.attempts + h.countP (recordsFailure i)

theorem rowEvent_inserted_id {i : String} {p : State × Action} {row : OutboxEvent}
    (h : rowEvent i p = some (.inserted row)) : row.id = i := by
  have hp := rowEvent_inserted h
  simp only [rowEvent, hp] at h
  split at h
  · assumption
  · cases h

/-- **Attempts count recorded failures**, in every reachable state. -/
theorem run_attempts {h : List (State × Action)} {s : State} (hr : (worker H).Run .init h s)
    (i : String) : RecordedAttempts i h (s.table.find? i) := by
  refine run_row rfl (fun h p r r' hP hs => ?_) hr
  cases r with
  | none =>
      rcases hs.of_none with ⟨hev, rfl⟩ | ⟨q, hev, -, rfl⟩
      · simpa [RecordedAttempts, List.countP_cons, recordsFailure, hev] using hP
      · refine ⟨p.1, q, List.mem_cons.mpr (.inl ?_), rowEvent_inserted_id hev, ?_⟩
        · exact Prod.ext rfl (rowEvent_inserted hev).symm
        · simpa [RecordedAttempts, List.countP_cons, recordsFailure, hev, RowEvent.isFailed]
            using hP
  | some r =>
      obtain ⟨⟨q, rfl⟩, -⟩ := hs.of_some
      obtain ⟨t, row, hrow, hid, hatt⟩ := hP
      refine ⟨t, row, List.mem_cons_of_mem _ hrow, hid, ?_⟩
      rw [hs.attempts, hatt, Nat.add_assoc, List.countP_cons]
      rfl

end LoopzToken.Worker
