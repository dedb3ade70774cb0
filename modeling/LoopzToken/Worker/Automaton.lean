import LoopzToken.Lib.Simulation
import LoopzToken.Worker.Row
import LoopzToken.Worker.Diamond

/-!
# LoopzToken.Worker.Automaton

The life of a row, exactly. `rowMachine i` is a small deterministic machine: the row with id
`i`, or its absence, and what may happen to it. Whatever a run of the worker does to the row is
a run of this machine (`rowMachine_simulates`, by the refinement of `State.Ok.row`), and
whatever the machine does to the row some run of the worker does as well
(`rowMachine_realized`). So which histories a row can have is decided by replaying them
(`row_history_iff`).
-/

namespace LoopzToken.Worker

open Lib Machine

variable {H : Handlers} {i : String}

/-! ### The machine -/

/-- The error was reported by `markDone`. -/
def Failure.isDatabase : Failure → Bool
  | .handler _ => false
  | .database _ => true

/-- The life of the row `i`. A `DONE` row can only fail by an error of the `markDone` that made
it `DONE`. -/
def rowMachine (i : String) : Machine (Option OutboxEvent) RowEvent where
  init := none
  step
    | none, .inserted row => if row.id = i ∧ row.status = .pending then some (some row) else none
    | some r, .claimed now => if r.Due now then some (some r.claimed) else none
    | some r, .done issued =>
        if r.status = .processing then some (some ((markDone issued).apply r)) else none
    | some r, .failed issued error =>
        if r.status = .processing ∨ (r.status = .done ∧ error.isDatabase = true) then
          some (some ((markFailed issued r error.message).apply r))
        else none
    | _, _ => none

/-! ### Every run is one of the machine -/

theorem RowStep.stepOr {ev : Option RowEvent} {r r' : Option OutboxEvent} (h : RowStep ev r r')
    (hid : ∀ row, ev = some (.inserted row) → row.id = i) :
    (rowMachine i).stepOr r ev = some r' := by
  cases h with
  | quiet => rfl
  | inserted hr => exact if_pos ⟨hid _ rfl, hr⟩
  | claimed hr => exact if_pos hr
  | done he => exact if_pos he
  | failed he => exact if_pos (.inl he)
  | reopened he => rfl

theorem rowMachine_simulates :
    Simulates (worker H) (rowMachine i) (rowEvent i) (fun s => s.table.find? i) State.Ok := by
  intro s a s' hok hs
  exact ⟨hok.step? hs, (hok.row (State.step_of_step? hs) i).stepOr fun _ => rowEvent_inserted_id⟩

/-! ### A table with one row -/

/-- The table with the row `r` and no other. -/
def sole (r : OutboxEvent) : Table := ⟨[r], List.nodup_singleton _⟩

theorem sole_find? (r : OutboxEvent) : (sole r).find? r.id = some r := by
  simp [sole, Table.find?]

theorem sole_update (r : OutboxEvent) (u : OutboxUpdate) :
    (sole r).update r.id u = sole (u.apply r) := by
  simp [sole, Table.update, Table.updateWhere]

theorem insert_empty (r : OutboxEvent) : Table.empty.insert r = some (sole r) := by
  simp [Table.insert, Table.empty, Table.ids, sole]

theorem sole_query {r : OutboxEvent} {now : DateTime} (h : r.Due now) :
    claimQuery.run outboxEventMapped [r.id] now [] (sole r) = .ok [r.id] := by
  rw [claimQuery_run_mapped]
  simp [dueSorted, Table.scan, sole_find?, h, batchSize]

theorem sole_claimRows (r : OutboxEvent) :
    claimRows [r.id] [r.id] (sole r) = (sole r.claimed, [r.claimed]) := by
  simp [claimRows, Table.updateMany, Table.updateWhere, Table.findMany, Table.scan, sole,
    Table.find?]

/-! ### A tick that is alone -/

/-- Process 0 runs, its tick `k` is at `ph`, and no other tick holds a lock. -/
structure Alone (k : ℕ) (T : Table) (ph : Phase) (s : State) : Prop where
  table : s.table = T
  running : s.procs 0 = .running
  tick : s.ticks[k]? = some ⟨0, ph⟩
  locked : ∀ j, s.locked.count j = ph.locks.count j

theorem Alone.locked_nil {k : ℕ} {T : Table} {ph : Phase} {s : State} (h : Alone k T ph s)
    (hph : ph.locks = []) : s.locked = [] := by
  refine List.eq_nil_iff_forall_not_mem.mpr fun j => List.count_eq_zero.mp ?_
  rw [h.locked, hph]
  rfl

/-- A run from `s₀` that shows the events `evs` of the row `i` leads to a state with `P`. -/
def Brings (i : String) (s₀ : State) (evs : List RowEvent) (P : State → Prop) : Prop :=
  ∃ h s, (worker anyOutcome).Run s₀ h s ∧ h.filterMap (rowEvent i) = evs ∧ P s

theorem Brings.tick {s₀ : State} {evs : List RowEvent} {k : ℕ} {T : Table} {ph : Phase}
    (h : Brings i s₀ evs (Alone k T ph)) (a : TickAction) (T' : Table) (ph' : Phase)
    (hstep : ∀ locked, (ph.locks = [] → locked = []) →
      ph.step? anyOutcome locked T a = some (T', ph')) :
    Brings i s₀ ((ph.rowEvent i a).toList ++ evs) (Alone k T' ph') := by
  obtain ⟨h, s, hr, rfl, hs⟩ := h
  obtain rfl := hs.table
  have hnext := step_tick hs.tick (fun hex => by rw [hs.running] at hex; cases hex)
    (hstep s.locked hs.locked_nil)
  refine ⟨_, _, .step hr hnext, ?_, rfl, hs.running,
    List.getElem?_set_self (List.getElem?_eq_some_iff.mp hs.tick).1, fun j => ?_⟩
  · rw [List.filterMap_cons, rowEvent_tick hs.tick]
    cases ph.rowEvent i a <;> rfl
  · have hset := count_flatMap_set (b := (⟨0, ph'⟩ : Tick)) (f := fun t : Tick => t.phase.locks)
      j hs.tick
    have hlocked := hs.locked j
    simp only [State.locked] at hset hlocked ⊢
    omega

/-! ### Every run of the machine happens -/

/-- The worker can go on with the row `r`: if it is claimed, its event has just come out of the
claim, and if it is `DONE`, the answer to its `markDone` is still on the way. -/
inductive Waits (s : State) (r : OutboxEvent) : Prop
  | free (hr : r.status = .pending ∨ r.status = .failed)
  | claimed (k : ℕ) (hr : r.status = .processing) (hk : s.ticks[k]? = some ⟨0, .claimed [r]⟩)
  | done (k : ℕ) (e : OutboxEvent) (issued : DateTime) (hr : r.status = .done)
      (hk : s.ticks[k]? = some ⟨0, .markingDone e issued true []⟩) (hid : e.id = r.id)
      (hattempts : e.attempts = r.attempts)

/-- The table holds the row `i` alone, or nothing. -/
structure Ready (i : String) (s : State) : Prop where
  running : s.procs 0 = .running
  locked : s.locked = []
  row : s.table = .empty ∨ ∃ r, r.id = i ∧ s.table = sole r ∧ Waits s r

theorem ready_init : Ready i .init := ⟨rfl, rfl, .inl rfl⟩

section Ready

variable {s : State} {r : OutboxEvent} {k : ℕ} {ph : Phase}

theorem Ready.alone (h : Ready i s) (hs : s.table = sole r) (hk : s.ticks[k]? = some ⟨0, ph⟩)
    (hph : ph.locks = []) : Alone k (sole r) ph s :=
  ⟨hs, h.running, hk, fun j => by rw [h.locked, hph]⟩

theorem Alone.ready (h : Alone k (sole r) ph s) (hid : r.id = i) (hph : ph.locks = [])
    (hw : Waits s r) : Ready i s :=
  ⟨h.running, h.locked_nil hph, .inr ⟨r, hid, h.table, hw⟩⟩

/-- The machine's step from `s` to the row `r` happens. -/
def Happens (i : String) (s : State) (ev : RowEvent) (r : OutboxEvent) : Prop :=
  Brings i s [ev] fun s' => Ready i s' ∧ s'.table = sole r

/-- The tick has shown the event and is at a point from which the worker can go on. -/
theorem Brings.happens {s₀ : State} {evs : List RowEvent} {ev : RowEvent}
    (h : Brings i s₀ evs (Alone k (sole r) ph)) (hevs : evs = [ev]) (hid : r.id = i)
    (hph : ph.locks = []) (hw : ∀ s : State, s.ticks[k]? = some ⟨0, ph⟩ → Waits s r) :
    Happens i s₀ ev r := by
  subst hevs
  obtain ⟨h', s', hr, hev, halone⟩ := h
  exact ⟨h', s', hr, hev, halone.ready hid hph (hw s' halone.tick), halone.table⟩

theorem Ready.inserted (h : Ready i s) (hs : s.table = .empty) (hid : r.id = i)
    (hp : r.status = .pending) : Happens i s (.inserted r) r := by
  have hstep : (worker anyOutcome).step s (.insert r) = some { s with table := sole r } := by
    simp [worker, State.step?, hp, hs, insert_empty]
  refine ⟨_, _, .step .refl hstep, ?_, ⟨h.running, h.locked, .inr ⟨r, hid, rfl, .free (.inl hp)⟩⟩,
    rfl⟩
  simp [rowEvent, hid]

/-- A new tick claims the row. -/
theorem Ready.claimed (h : Ready i s) (hs : s.table = sole r) (hid : r.id = i) {now : DateTime}
    (hdue : r.Due now) : Happens i s (.claimed now) r.claimed := by
  have hstart : (worker anyOutcome).step s (.start 0) =
      some { s with ticks := s.ticks ++ [⟨0, .polling⟩] } := if_pos h.running
  have hpoll : Brings i s [] (Alone s.ticks.length (sole r) .polling) := by
    refine ⟨_, _, .step .refl hstart, rfl, hs, h.running, List.getElem?_concat_length, fun j => ?_⟩
    have hlocked : s.ticks.flatMap (·.phase.locks) = [] := h.locked
    simp only [State.locked, List.flatMap_append, hlocked]
    rfl
  have hselect := hpoll.tick (.select now [r.id]) (sole r) (.claiming now [r.id])
    fun locked hlocked => by
      obtain rfl := hlocked rfl
      rw [Phase.step?, if_pos (List.nodup_singleton _), sole_query hdue]
  have hcommit := hselect.tick (.commit [r.id]) (sole r.claimed) (.claimed [r.claimed])
    fun locked _ => by
      have hperm : [r.id].Perm (sole r).ids := .refl _
      rw [Phase.step?, if_pos hperm, sole_claimRows]
  exact hcommit.happens (by simp [Phase.rowEvent, hid]) hid rfl fun _ hk => .claimed _ rfl hk

/-- The tick has passed the claimed event to the handler. -/
theorem Ready.handling (h : Ready i s) (hs : s.table = sole r)
    (hk : s.ticks[k]? = some ⟨0, .claimed [r]⟩) :
    Brings i s [] (Alone k (sole r) (.handling r [])) := by
  have hclaimed : Brings i s [] (Alone k (sole r) (.claimed [r])) :=
    ⟨[], s, .refl, rfl, h.alone hs hk rfl⟩
  have hlooping := hclaimed.tick .claimReturned (sole r) (.looping [r]) fun _ _ => rfl
  exact hlooping.tick .next _ _ fun _ _ => rfl

theorem Ready.done (h : Ready i s) (hs : s.table = sole r) (hid : r.id = i)
    (hk : s.ticks[k]? = some ⟨0, .claimed [r]⟩) (issued : DateTime) :
    Happens i s (.done issued) ((markDone issued).apply r) := by
  have hissued := (h.handling hs hk).tick (.handlerReturned issued) (sole r)
    (.markingDone r issued false []) fun _ _ => rfl
  have happlied := hissued.tick .applyWrite (sole ((markDone issued).apply r))
    (.markingDone r issued true []) fun locked hlocked => by
      obtain rfl := hlocked rfl
      rw [Phase.step?, if_neg List.not_mem_nil, sole_update]
  exact happlied.happens (by simp [Phase.rowEvent, hid]) hid rfl
    fun _ hk => .done k r issued rfl hk rfl rfl

/-- A tick that is about to write a failure of the row `r` does so. -/
theorem Brings.failed {e : OutboxEvent} {issued : DateTime} {error : Failure}
    (h : Brings i s [] (Alone k (sole r) (.markingFailed e issued error false [])))
    (hid : r.id = i) (he : e.id = r.id) (hattempts : e.attempts = r.attempts) :
    Happens i s (.failed issued error) ((markFailed issued r error.message).apply r) := by
  have happlied := h.tick .applyWrite (sole ((markFailed issued r error.message).apply r))
    (.markingFailed e issued error true []) fun locked hlocked => by
      obtain rfl := hlocked rfl
      have hsame : markFailed issued e error.message = markFailed issued r error.message := by
        simp only [markFailed, hattempts]
      rw [Phase.step?, if_neg List.not_mem_nil, he, hsame, sole_update]
  refine happlied.happens (by simp [Phase.rowEvent, he, hid]) hid rfl fun _ _ => .free ?_
  rw [markFailed_status]
  split
  · exact .inr rfl
  · exact .inl rfl

theorem Ready.failed (h : Ready i s) (hs : s.table = sole r) (hid : r.id = i)
    (hk : s.ticks[k]? = some ⟨0, .claimed [r]⟩) (issued : DateTime) (error : Failure) :
    Happens i s (.failed issued error) ((markFailed issued r error.message).apply r) := by
  have hhandling := h.handling hs hk
  cases error with
  | handler message =>
      exact (hhandling.tick (.handlerThrew issued message) _ _ fun _ _ => rfl).failed hid rfl rfl
  | database message =>
      -- the handler returns, but `markDone` reports an error without having been applied
      have hissued := hhandling.tick (.handlerReturned issued) (sole r)
        (.markingDone r issued false []) fun _ _ => rfl
      exact (hissued.tick (.writeRejected issued message) _ _ fun _ _ => rfl).failed hid rfl rfl

/-- The answer to the `markDone` of a `DONE` row is an error. -/
theorem Ready.reopened {e : OutboxEvent} {t : DateTime} (h : Ready i s) (hs : s.table = sole r)
    (hid : r.id = i) (hk : s.ticks[k]? = some ⟨0, .markingDone e t true []⟩) (he : e.id = r.id)
    (hattempts : e.attempts = r.attempts) (issued : DateTime) (message : String) :
    Happens i s (.failed issued (.database message)) ((markFailed issued r message).apply r) := by
  have hdone : Brings i s [] (Alone k (sole r) (.markingDone e t true [])) :=
    ⟨[], s, .refl, rfl, h.alone hs hk rfl⟩
  have hrejected := hdone.tick (.writeRejected issued message) (sole r) _ fun _ _ => rfl
  exact hrejected.failed hid he hattempts

end Ready

theorem Waits.of_processing {s : State} {r : OutboxEvent} (h : Waits s r)
    (hr : r.status = .processing) : ∃ k : ℕ, s.ticks[k]? = some ⟨0, .claimed [r]⟩ := by
  cases h with
  | free hfree => simp [hr] at hfree
  | claimed k _ hk => exact ⟨k, hk⟩
  | done k e issued hdone => exact absurd (hr.symm.trans hdone) (by decide)

theorem Waits.of_done {s : State} {r : OutboxEvent} (h : Waits s r) (hr : r.status = .done) :
    ∃ (k : ℕ) (e : OutboxEvent) (issued : DateTime),
      s.ticks[k]? = some ⟨0, .markingDone e issued true []⟩ ∧ e.id = r.id ∧
        e.attempts = r.attempts := by
  cases h with
  | free hfree => simp [hr] at hfree
  | claimed k hproc => exact absurd (hr.symm.trans hproc) (by decide)
  | done k e issued _ hk hid hattempts => exact ⟨k, e, issued, hk, hid, hattempts⟩

/-- From an empty table the machine can only insert. -/
theorem Ready.happens_absent {s : State} {ev : RowEvent} {t : Option OutboxEvent}
    (h : Ready i s) (hs : s.table = .empty) (hstep : (rowMachine i).step none ev = some t) :
    ∃ r, t = some r ∧ r.id = i ∧ Happens i s ev r := by
  cases ev with
  | inserted row =>
      simp only [rowMachine] at hstep
      split at hstep
      · rename_i hrow
        obtain rfl := Option.some.inj hstep
        exact ⟨row, rfl, hrow.1, h.inserted hs hrow.1 hrow.2⟩
      · cases hstep
  | claimed | done | failed => cases hstep

theorem Ready.happens_present {s : State} {r : OutboxEvent} {ev : RowEvent}
    {t : Option OutboxEvent} (h : Ready i s) (hid : r.id = i) (hs : s.table = sole r)
    (hw : Waits s r) (hstep : (rowMachine i).step (some r) ev = some t) :
    ∃ r', t = some r' ∧ r'.id = i ∧ Happens i s ev r' := by
  cases ev with
  | inserted row => cases hstep
  | claimed now =>
      simp only [rowMachine] at hstep
      split at hstep
      · rename_i hdue
        obtain rfl := Option.some.inj hstep
        exact ⟨_, rfl, hid, h.claimed hs hid hdue⟩
      · cases hstep
  | done issued =>
      simp only [rowMachine] at hstep
      split at hstep
      · rename_i hproc
        obtain rfl := Option.some.inj hstep
        obtain ⟨k, hk⟩ := hw.of_processing hproc
        exact ⟨_, rfl, hid, h.done hs hid hk issued⟩
      · cases hstep
  | failed issued error =>
      simp only [rowMachine] at hstep
      split at hstep
      · rename_i hst
        obtain rfl := Option.some.inj hstep
        refine ⟨_, rfl, hid, ?_⟩
        rcases hst with hproc | ⟨hdone, herror⟩
        · obtain ⟨k, hk⟩ := hw.of_processing hproc
          exact h.failed hs hid hk issued error
        · obtain ⟨k, e, t, hk, he, hattempts⟩ := hw.of_done hdone
          cases error with
          | handler => cases herror
          | database message => exact h.reopened hs hid hk he hattempts issued message
      · cases hstep

theorem rowMachine_realized :
    Realizes (worker anyOutcome) (rowMachine i) (rowEvent i) (fun s => s.table.find? i)
      (Ready i) := by
  intro s ev t hready hstep
  replace hstep : (rowMachine i).step (s.table.find? i) ev = some t := hstep
  have hhappens : ∃ r, t = some r ∧ r.id = i ∧ Happens i s ev r := by
    rcases hready.row with hs | ⟨r, hid, hs, hw⟩
    · rw [show s.table.find? i = none by rw [hs]; rfl] at hstep
      exact hready.happens_absent hs hstep
    · rw [show s.table.find? i = some r by rw [hs, ← hid, sole_find?]] at hstep
      exact hready.happens_present hid hs hw hstep
  obtain ⟨r, rfl, hid, h, s', hr, hev, hready', htable⟩ := hhappens
  refine ⟨h, s', hr, hev, hready', ?_⟩
  show s'.table.find? i = some r
  rw [htable, ← hid, sole_find?]

/-- **The histories of a row**, exactly. The events `evs` are what happens to the row `i` in
some run of any number of workers, with any handlers and any errors, and leave it as `r`, if
and only if they can be replayed on the machine. -/
theorem row_history_iff (i : String) (evs : List RowEvent) (r : Option OutboxEvent) :
    (∃ h s, (worker anyOutcome).Run .init h s ∧ (h.filterMap (rowEvent i)).reverse = evs ∧
      s.table.find? i = r) ↔ evs.foldlM (rowMachine i).step none = some r :=
  traces_iff rowMachine_simulates rowMachine_realized State.ok_init ready_init

/-- With five claims, five `markDone` and five `markFailed`, a row may have been `DONE` five times
before it is `FAILED`. -/
example : (([1, 2, 3, 4, 5].flatMap fun t =>
      [.claimed (t * maxBackoffMs), .done 0, .failed ((t - 1) * maxBackoffMs) (.database "")])
    |>.foldlM (rowMachine "a").step (some (freshRow "a"))).map (·.map (·.status)) =
      some (some .failed) := by
  decide

end LoopzToken.Worker
