import LoopzToken.Worker.Retry

/-!
# LoopzToken.Worker.Terminal

**Terminal states are absorbing**, as far as they are: `DONE` and `FAILED` never
change, a finished event never reaches `handleEvent` again, and `doneAt` is set
exactly in `DONE`.

All of it fails for one reason. `markDone` is called inside the `try` that guards
the handler, and `markFailed` updates by id without looking at the status. When
the database applies `markDone` and then reports an error, `markFailed` overwrites
the finished row (`Reopens`); the row is `PENDING` again, `doneAt` still set.
`terminal_absorbing_iff` shows there is no other reason.
-/

namespace LoopzToken.Worker

open Lib Machine

variable {H : Handlers}

/-- `DONE` and `FAILED`. -/
def OutboxStatus.Terminal (st : OutboxStatus) : Prop := st = .done ∨ st = .failed

/-- The status of row `i`, if it is there. -/
def State.status? (s : State) (i : String) : Option OutboxStatus :=
  (s.table.find? i).map (·.status)

/-- What a run must satisfy for its terminal states to be absorbing. -/
structure Absorbing (h : List (State × Action)) (s : State) : Prop where
  /-- A row that was `DONE` or `FAILED` before some step still is. -/
  status : ∀ p ∈ h, ∀ i st, p.1.status? i = some st → st.Terminal → s.status? i = some st
  /-- The last step passes no event to `handleEvent` that was finished before. -/
  handed : ∀ q, h.head? = some q → ∀ i, hands i q = true →
    ∀ p ∈ h, ∀ st, p.1.status? i = some st → ¬ st.Terminal
  /-- `doneAt` is set exactly when the status is `DONE`. -/
  doneAt : ∀ r ∈ s.table.rows, r.doneAt.isSome = true ↔ r.status = .done

/-- The step records an error of `markDone` as a failed attempt, although that
`markDone` was applied: the row is `DONE`. -/
def Reopens (s : State) (a : Action) : Prop :=
  ∃ i, recordsRejection i (s, a) = true ∧ s.status? i = some .done

/-- No row was inserted with `doneAt` set; `schema.prisma` gives it no default. -/
def DoneAtUnset (h : List (State × Action)) : Prop :=
  ∀ t row, (t, Action.insert row) ∈ h → row.doneAt = none

/-! ### One row -/

/-- A finished row stays as it is unless a failure is recorded in it. -/
theorem RowStep.terminal {ev : Option RowEvent} {r : OutboxEvent} {r' : Option OutboxEvent}
    (h : RowStep ev (some r) r') (hr : r.status.Terminal)
    (hev : r.status = .done → ev.any RowEvent.isRejection = false) : r' = some r := by
  cases h with
  | quiet => rfl
  | claimed hdue => rcases hr with hr | hr <;> exact absurd (hr.symm.trans hdue.1) (by decide)
  | done he | failed he => rcases hr with hr | hr <;> exact absurd (hr.symm.trans he) (by decide)
  | reopened => cases hev rfl

/-- A recorded error takes the row out of `DONE`. -/
theorem RowStep.not_done {ev : Option RowEvent} {r r' : Option OutboxEvent}
    (h : RowStep ev r r') (hev : ev.any RowEvent.isRejection = true) :
    ∀ q, r' = some q → q.status ≠ .done := by
  cases h with
  | failed | reopened =>
      intro q hq
      obtain rfl := Option.some.inj hq
      exact (markFailed_status_ne ..).2
  | _ => cases hev

/-- `doneAt` is set exactly when the row is `DONE`. -/
def OutboxEvent.DoneAtOk (r : OutboxEvent) : Prop := r.doneAt.isSome = true ↔ r.status = .done

theorem RowStep.doneAtOk {ev : Option RowEvent} {r : Option OutboxEvent} {r' : OutboxEvent}
    (h : RowStep ev r (some r')) (hok : ∀ q, r = some q → q.DoneAtOk)
    (hins : ∀ row, ev = some (.inserted row) → row.doneAt = none)
    (hev : (∃ q, r = some q ∧ q.status = .done) → ev.any RowEvent.isRejection = false) :
    r'.DoneAtOk := by
  cases h with
  | quiet => exact hok r' rfl
  | inserted hp => simp [OutboxEvent.DoneAtOk, hins r' rfl, hp]
  | @claimed r now hdue =>
      have := hok r rfl
      simpa [OutboxEvent.DoneAtOk, hdue.1] using this
  | done => simp [OutboxEvent.DoneAtOk, markDone_apply]
  | @failed e issued error he =>
      have := hok e rfl
      have hne := (markFailed_status_ne issued e e error.message).2
      simp only [OutboxEvent.DoneAtOk, he, markFailed_doneAt] at this ⊢
      simpa [hne] using this
  | reopened => cases hev ⟨_, rfl, rfl⟩

/-! ### One step of the system -/

theorem State.status?_eq_some {s : State} {i : String} {st : OutboxStatus} :
    s.status? i = some st ↔ ∃ r, s.table.find? i = some r ∧ r.status = st :=
  Option.map_eq_some_iff

/-- A step that reopens no row keeps every terminal status. -/
theorem State.Ok.terminal_step {s s' : State} {a : Action} (hok : s.Ok)
    (h : State.Step H s a s') (hno : ¬ Reopens s a) {i : String} {st : OutboxStatus}
    (hst : s.status? i = some st) (hterm : st.Terminal) : s'.status? i = some st := by
  obtain ⟨r, hr, rfl⟩ := State.status?_eq_some.mp hst
  have hrow := hok.row h i
  rw [hr] at hrow
  refine State.status?_eq_some.mpr ⟨r, hrow.terminal hterm fun hd => ?_, rfl⟩
  exact Bool.eq_false_iff.mpr fun hf => hno ⟨i, hf, State.status?_eq_some.mpr ⟨r, hr, hd⟩⟩

theorem Absorbing.step {h : List (State × Action)} {s s' : State} {a : Action} (hok : s.Ok)
    (hins : DoneAtUnset ((s, a) :: h)) (habs : Absorbing h s) (hstep : State.Step H s a s')
    (hno : ¬ Reopens s a) : Absorbing ((s, a) :: h) s' := by
  -- a status that was terminal at any earlier point is the status before this step
  have hbefore : ∀ p ∈ (s, a) :: h, ∀ i st, p.1.status? i = some st → st.Terminal →
      s.status? i = some st := by
    intro p hp i st hst hterm
    rcases List.mem_cons.mp hp with rfl | hp
    · exact hst
    · exact habs.status p hp i st hst hterm
  refine ⟨fun p hp i st hst hterm => ?_, fun q hq i hi p hp st hst hterm => ?_, fun r hr => ?_⟩
  · exact hok.terminal_step hstep hno (hbefore p hp i st hst hterm) hterm
  · obtain rfl := Option.some.inj hq
    obtain ⟨r, hr, hproc⟩ := hok.hands_processing hstep hi
    obtain ⟨r', hr', rfl⟩ := State.status?_eq_some.mp (hbefore p hp i st hst hterm)
    obtain rfl := Option.some.inj (hr.symm.trans hr')
    rcases hterm with ht | ht <;> exact absurd (ht.symm.trans hproc) (by decide)
  · have hrow := hok.row hstep r.id
    rw [show s'.table.find? r.id = some r from Table.find?_of_mem hr] at hrow
    refine hrow.doneAtOk (fun q hq => habs.doneAt q (Table.mem_of_find? hq)) ?_ ?_
    · intro row hev
      exact hins s row (List.mem_cons.mpr (.inl (Prod.ext rfl (rowEvent_inserted hev).symm)))
    · intro h
      obtain ⟨q, hq, hd⟩ := h
      exact Bool.eq_false_iff.mpr fun hf =>
        hno ⟨r.id, hf, State.status?_eq_some.mpr ⟨q, hq, hd⟩⟩

theorem Absorbing.not_reopens {h : List (State × Action)} {s s' : State} {a : Action}
    (hok : s.Ok) (hstep : State.Step H s a s') (habs : Absorbing ((s, a) :: h) s') :
    ¬ Reopens s a := by
  intro h
  obtain ⟨i, hf, hd⟩ := h
  have hkept := habs.status (s, a) (List.mem_cons_self ..) i .done hd (.inl rfl)
  obtain ⟨r, hr, hrd⟩ := State.status?_eq_some.mp hkept
  exact (hok.row hstep i).not_done hf r hr hrd

/-! ### Whole runs -/

/-- **When terminal states are absorbing.** Along every run, `DONE` and `FAILED`
never change, finished events are never handled again and `doneAt` agrees with
the status, if and only if no step records an error of an applied `markDone` as a
failed attempt. -/
theorem terminal_absorbing_iff {h : List (State × Action)} {s : State}
    (hr : (worker H).Run .init h s) (hins : DoneAtUnset h) :
    Always Absorbing h s ↔ ∀ p ∈ h, ¬ Reopens p.1 p.2 := by
  have h0 : Absorbing [] State.init :=
    ⟨fun _ hp => absurd hp List.not_mem_nil, fun _ hq => (by cases hq),
      fun _ hr => absurd hr List.not_mem_nil⟩
  refine hr.always_iff (C := fun t a => ¬ Reopens t a) h0 fun h' t a v hsuf hrt hA hs => ?_
  have hstep := State.step_of_step? hs
  refine ⟨fun habs => habs.not_reopens (run_ok hrt) hstep, fun hno => ?_⟩
  exact hA.head.step (run_ok hrt) (fun u row hmem => hins u row (hsuf.subset hmem)) hstep hno

/-- No inserted row of a history has `doneAt` set. -/
def doneAtUnset (h : List (State × Action)) : Bool :=
  h.all fun p => match p.2 with
    | .insert row => row.doneAt = none
    | _ => true

theorem doneAtUnset_iff {h : List (State × Action)} (hf : doneAtUnset h = true) :
    DoneAtUnset h := by
  intro t row hmem
  simpa using List.all_eq_true.mp hf _ hmem

theorem oneEventDone_absorbing :
    ∃ h s, (worker anyOutcome).Run .init h s ∧ allEnded .done h s = true ∧
      (Always Absorbing h s ↔ ∀ p ∈ h, ¬ Reopens p.1 p.2) := by
  obtain ⟨h, s, hr, hp⟩ := (worker anyOutcome).exists_run_of_exec oneEventDone
    (fun h s => allEnded .done h s && doneAtUnset h) (by decide)
  simp only [Bool.and_eq_true] at hp
  exact ⟨h, s, hr, hp.1, terminal_absorbing_iff hr (doneAtUnset_iff hp.2)⟩

/-- The handler returns and `markDone` is applied, but its acknowledgement is
lost: `markFailed` makes the row `PENDING`, and a later tick handles the event a
second time. -/
def lostAcknowledgement : List Action :=
  [.insert (freshRow "a"), .start 0, .tick 0 (.select 5 ["a"]), .tick 0 (.commit ["a"]),
   .tick 0 .claimReturned, .tick 0 .next, .tick 0 (.handlerReturned 7), .tick 0 .applyWrite,
   .tick 0 (.writeRejected 8 "connection lost"), .tick 0 .applyWrite, .tick 0 .writeReturned,
   .tick 0 .next, .start 0, .tick 1 (.select 60008 ["a"]), .tick 1 (.commit ["a"]),
   .tick 1 .claimReturned, .tick 1 .next]

/-- The row was `DONE`, is `PROCESSING` with `doneAt` set, and its event has just
been passed to `handleEvent` again. -/
def reopenedRow (h : List (State × Action)) (s : State) : Bool :=
  doneAtUnset h && h.any (fun p => p.1.status? "a" = some .done) &&
    (h.head?.any (hands "a") && s.table.rows.any fun r => r.doneAt.isSome && r.status ≠ .done)

theorem lostAcknowledgement_reopens :
    ∃ h s, (worker anyOutcome).Run .init h s ∧ reopenedRow h s = true ∧ DoneAtUnset h ∧
      ¬ Absorbing h s := by
  obtain ⟨h, s, hr, hp⟩ :=
    (worker anyOutcome).exists_run_of_exec lostAcknowledgement reopenedRow (by decide)
  have hp' := hp
  simp only [reopenedRow, Bool.and_eq_true, List.any_eq_true, decide_eq_true_eq] at hp'
  obtain ⟨⟨hins, -⟩, -, r, hrow, hset, hst⟩ := hp'
  exact ⟨h, s, hr, hp, doneAtUnset_iff hins, fun habs => hst ((habs.doneAt r hrow).mp hset)⟩

end LoopzToken.Worker
