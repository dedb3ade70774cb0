import LoopzToken.Worker.Exclusive

/-!
# LoopzToken.Worker.NoLoss

**No event is lost**: every `PROCESSING` row is held by a running tick that still
has to handle or mark it. No step takes a `PROCESSING` row back, so a row whose
tick is gone stays where it is for good.

The worker does not guarantee this. Three kinds of steps can strand a row, and
`Keeps` excludes exactly them, by the state they are taken from:

* a claim that reports an error although it was committed, and a `markFailed` that
  reports an error (it leaves `processBatch` and abandons the rest of the batch),
  while an event of the tick is unfinished;
* the exit of a process while a tick of it holds an unfinished event;
* the claim of a process that has exited, committed by the database afterwards.

`no_event_lost_iff` is the exact statement: along any run, no event is lost if and
only if every step of it keeps its events.
-/

namespace LoopzToken.Worker

open Lib Machine

variable {H : Handlers}

/-! ### Holding events -/

/-- The events a tick has claimed and still has to handle or mark. -/
def Phase.holds : Phase → List String
  | .claiming _ _ => []
  | ph => ph.busy

/-- Every `PROCESSING` row is held by a running tick. -/
def State.NoLoss (s : State) : Prop :=
  ∀ r ∈ s.table.rows, r.status = .processing →
    ∃ t ∈ s.ticks, s.Running t ∧ r.id ∈ t.phase.holds

/-- None of the events the tick holds is `PROCESSING`. -/
def Phase.Finished (T : Table) (ph : Phase) : Prop :=
  ∀ i ∈ ph.holds, ∀ r, T.find? i = some r → r.status ≠ .processing

/-- The steps that end a tick in the `catch` of `tick`, after the claim. -/
def Phase.drops : Phase → TickAction → Bool
  | .claimed _, .claimRejected => true
  | .markingFailed _ _ _ _ _, .writeRejected _ _ => true
  | _, _ => false

/-- The commit of a claim, as a step of the database. -/
def TickAction.isCommit : TickAction → Bool
  | .commit _ => true
  | _ => false

/-- The step, taken from `s`, abandons no unfinished event. -/
def Keeps (s : State) : Action → Prop
  | .tick k a => ∀ t, s.ticks[k]? = some t →
      (t.phase.drops a = true → t.phase.Finished s.table) ∧
        (a.isCommit = true → s.procs t.proc = .exited → t.phase.locks = [])
  | .exit p => ∀ t ∈ s.ticks, t.proc = p → t.phase.Finished s.table
  | _ => True

/-- Once nothing runs, every row is `PENDING`, `DONE` or `FAILED`. -/
theorem State.NoLoss.quiescent {s : State} (h : s.NoLoss) (hq : ∀ t ∈ s.ticks, ¬ s.Running t) :
    ∀ r ∈ s.table.rows, r.status ≠ .processing := by
  intro r hr hp
  obtain ⟨t, ht, hrun, -⟩ := h r hr hp
  exact hq t ht hrun

theorem Phase.holds_subset_busy (ph : Phase) {i : String} (hi : i ∈ ph.holds) : i ∈ ph.busy := by
  cases ph with
  | claiming => cases hi
  | _ => exact hi

theorem Phase.busy_iff (ph : Phase) {i : String} : i ∈ ph.busy ↔ i ∈ ph.holds ∨ i ∈ ph.locks := by
  cases ph with
  | claiming now ids => simp [Phase.busy, Phase.holds, Phase.locks]
  | _ => simp [Phase.holds, Phase.locks]

/-- A step of a tick drops an event only in the `catch` of `tick`, or when the
row is no longer `PROCESSING`. -/
theorem Phase.Step.holds {locked : List String} {T T' : Table} {ph ph' : Phase} {a : TickAction}
    (h : ph.Step H locked T a T' ph') (hok : ph.Ok T) {i : String} (hi : i ∈ ph.holds)
    {r : OutboxEvent} (hr : T'.find? i = some r) (hp : r.status = .processing) :
    i ∈ ph'.holds ∨ (ph.drops a = true ∧ T' = T) := by
  cases h with
  | select | pollAbort | commit | claimAbort | nextDone => cases hi
  | claimReturned | nextEvent | handlerReturned | handlerThrew | applyDone | doneRejected
  | failedReturned => exact .inl hi
  | claimRejected | failedRejected => exact .inr ⟨rfl, rfl⟩
  | @applyFailed e issued error rest hfree =>
      rcases List.mem_cons.mp hi with rfl | hi
      · obtain ⟨q, hq⟩ : ∃ q, T.find? e.id = some q := by
          rcases (hok.2.1 rfl).find? with h | ⟨t, h⟩ <;> exact ⟨_, h⟩
        rw [Table.find?_update_self T _ hq] at hr
        obtain rfl := Option.some.inj hr
        exact absurd hp (markFailed_status_ne ..).1
      · exact .inl hi
  | @doneReturned e issued rest =>
      rcases List.mem_cons.mp hi with rfl | hi
      · obtain rfl := Option.some.inj (hr.symm.trans hok.2.1)
        cases hp
      · exact .inl hi

/-- Only a commit makes a row `PROCESSING`, and the tick then holds it. -/
theorem Phase.Step.becomes_processing {locked : List String} {T T' : Table} {ph ph' : Phase}
    {a : TickAction} (h : ph.Step H locked T a T' ph') (hok : ph.Ok T) {i : String}
    {r : OutboxEvent} (hr : T'.find? i = some r) (hp : r.status = .processing)
    (hnew : T.find? i ≠ some r) :
    i ∈ ph'.holds ∧ i ∈ ph.locks ∧ a.isCommit = true := by
  cases h with
  | @commit now ids order hord =>
      have hi : i ∈ ids := by
        by_contra hi
        rw [claimRows_find?, if_neg hi] at hr
        exact hnew hr
      obtain rfl := Table.find?_id hr
      exact ⟨List.mem_map.mpr ⟨r, (mem_claimRows hord hok.locked_rows).mpr ⟨hi, hr⟩, rfl⟩, hi, rfl⟩
  | @applyDone e issued rest hfree =>
      rw [Table.find?_update] at hr
      split at hr
      · obtain ⟨q, -, rfl⟩ := Option.map_eq_some_iff.mp hr
        cases hp
      · exact absurd hr hnew
  | @applyFailed e issued error rest hfree =>
      rw [Table.find?_update] at hr
      split at hr
      · obtain ⟨q, -, rfl⟩ := Option.map_eq_some_iff.mp hr
        exact absurd hp (markFailed_status_ne ..).1
      · exact absurd hr hnew
  | select | pollAbort | claimAbort | claimReturned | claimRejected | nextDone | nextEvent
  | handlerReturned | handlerThrew | doneReturned | failedReturned | doneRejected
  | failedRejected => exact absurd hr hnew

theorem Phase.Step.of_drops {locked : List String} {T T' : Table} {ph ph' : Phase}
    {a : TickAction} (h : ph.Step H locked T a T' ph') (hd : ph.drops a = true) :
    ph' = .ended ∧ T' = T := by
  cases h <;> first | exact ⟨rfl, rfl⟩ | cases hd

/-! ### One step -/

theorem Phase.ne_ended_of_holds {ph : Phase} {i : String} (hi : i ∈ ph.holds) : ph ≠ .ended := by
  intro heq
  subst heq
  cases hi

/-- Who holds a `PROCESSING` row, by position. -/
theorem State.NoLoss.holder {s : State} (hno : s.NoLoss) {i : String} {r : OutboxEvent}
    (hr : s.table.find? i = some r) (hp : r.status = .processing) :
    ∃ (j : ℕ) (u : Tick), s.ticks[j]? = some u ∧ s.Running u ∧ i ∈ u.phase.holds := by
  obtain rfl := Table.find?_id hr
  obtain ⟨u, hu, hrun, hi⟩ := hno r (Table.mem_of_find? hr) hp
  obtain ⟨j, hj⟩ := List.mem_iff_getElem?.mp hu
  exact ⟨j, u, hj, hrun, hi⟩

theorem State.NoLoss.tick {s : State} {k : ℕ} {a : TickAction} {t : Tick} {T : Table}
    {ph : Phase} (hok : s.Ok) (hno : s.NoLoss) (hkeep : Keeps s (.tick k a))
    (hk : s.ticks[k]? = some t) (hstep : t.phase.Step H s.locked s.table a T ph) :
    State.NoLoss { s with table := T, ticks := s.ticks.set k ⟨t.proc, ph⟩ } := by
  intro r hr hp
  have hr' : T.find? r.id = some r := Table.find?_of_mem hr
  obtain ⟨hdrop, hcommit⟩ := hkeep t hk
  have hokt := hok.phases t (List.mem_of_getElem? hk)
  by_cases hf : s.table.find? r.id = some r
  · obtain ⟨j, u, hj, hrun, hi⟩ := hno.holder hf hp
    by_cases hkj : k = j
    · -- the holder itself has moved
      subst hkj
      obtain rfl := Option.some.inj (hj.symm.trans hk)
      rcases hstep.holds hokt hi hr' hp with h | ⟨h, -⟩
      · exact ⟨_, mem_set_self hk, ⟨hrun.1, Phase.ne_ended_of_holds h⟩, h⟩
      · exact absurd hp (hdrop h r.id hi r hf)
    · exact ⟨u, mem_set_of_ne hj hkj, hrun, hi⟩
  · -- the row has just become `PROCESSING`: this step claimed it
    obtain ⟨h, hlock, hc⟩ := hstep.becomes_processing hokt hr' hp hf
    refine ⟨_, mem_set_self hk, ⟨fun hex => ?_, Phase.ne_ended_of_holds h⟩, h⟩
    rw [hcommit hc hex] at hlock
    cases hlock

/-- A step that keeps its events loses none. -/
theorem State.NoLoss.step {s s' : State} {a : Action} (hok : s.Ok) (hno : s.NoLoss)
    (hkeep : Keeps s a) (h : State.Step H s a s') : s'.NoLoss := by
  cases h with
  | tick hk halive hstep => exact hno.tick hok hkeep hk hstep
  | @insert row T hnew hins =>
      intro r hr hp
      have hfind := (Table.insert_inv hins).2 r.id
      rw [show T.find? r.id = some r from Table.find?_of_mem hr] at hfind
      split at hfind
      · obtain rfl := Option.some.inj hfind
        exact absurd (hp.symm.trans hnew) (by decide)
      · obtain ⟨j, u, hj, hrun, hi⟩ := hno.holder hfind.symm hp
        exact ⟨u, List.mem_of_getElem? hj, hrun, hi⟩
  | start hp' =>
      intro r hr hp
      obtain ⟨u, hu, hrun, hi⟩ := hno r hr hp
      exact ⟨u, List.mem_append_left _ hu, hrun, hi⟩
  | @signal p hp' =>
      intro r hr hp
      obtain ⟨u, hu, hrun, hi⟩ := hno r hr hp
      refine ⟨u, hu, ⟨?_, hrun.2⟩, hi⟩
      simp only [Function.update_apply]
      split
      · decide
      · exact hrun.1
  | @exit p hp' =>
      intro r hr hp
      obtain ⟨u, hu, hrun, hi⟩ := hno r hr hp
      have hne : u.proc ≠ p := fun he =>
        hkeep u hu he r.id hi r (Table.find?_of_mem hr) hp
      refine ⟨u, hu, ⟨?_, hrun.2⟩, hi⟩
      simpa only [Function.update_of_ne hne] using hrun.1

/-- Every event a tick claims is `PROCESSING` once the claim is committed. -/
theorem Phase.Step.commit_processing {locked : List String} {T T' : Table} {ph ph' : Phase}
    {a : TickAction} (h : ph.Step H locked T a T' ph') (hok : ph.Ok T)
    (ha : a.isCommit = true) {i : String} (hi : i ∈ ph.locks) :
    ∃ r, T'.find? i = some r ∧ r.status = .processing := by
  cases h with
  | @commit now ids order hord =>
      have hi' : i ∈ ids := hi
      obtain ⟨r, hr, -⟩ := hok i hi
      refine ⟨r.claimed, ?_, rfl⟩
      rw [claimRows_find?, if_pos hi', hr, Option.map_some]
  | _ => cases ha

/-- A step that loses no event has kept its events: what an ended or exited tick
owned, no other tick can hold. -/
theorem State.NoLoss.keeps {s s' : State} {a : Action} (hok : s.Ok) (h : State.Step H s a s')
    (hno : s'.NoLoss) : Keeps s a := by
  cases h with
  | insert | start | signal => trivial
  | @exit p hp' =>
      intro t ht hproc i hi r hr hp
      obtain ⟨j, hj⟩ := List.mem_iff_getElem?.mp ht
      obtain ⟨k, u, hk, hrun, hiu⟩ := hno.holder hr hp
      obtain rfl := owner_unique hok.exclusive hj hk (t.phase.holds_subset_busy hi)
        (u.phase.holds_subset_busy hiu)
      obtain rfl := Option.some.inj (hj.symm.trans hk)
      exact hrun.1 (by simp [hproc])
  | @tick k a t T ph hk halive hstep =>
      intro t' hk'
      obtain rfl := Option.some.inj (hk.symm.trans hk')
      have hokt := hok.phases t (List.mem_of_getElem? hk)
      -- a row tick `k` owned is held by nobody unless tick `k` itself still runs
      have lost : ∀ i ∈ t.phase.busy, ∀ r, T.find? i = some r → r.status = .processing →
          s.procs t.proc ≠ .exited ∧ ph ≠ .ended := by
        intro i hi r hr hp
        obtain rfl := Table.find?_id hr
        obtain ⟨u, hu, hrun, hiu⟩ := hno r (Table.mem_of_find? hr) hp
        rcases mem_set_cases hu with rfl | ⟨j, hkj, hj⟩
        · exact hrun
        · exact absurd (owner_unique hok.exclusive hk hj hi (u.phase.holds_subset_busy hiu)) hkj
      refine ⟨fun hd i hi r hr hp => ?_, fun hc hex => ?_⟩
      -- the tick has ended with the table as it was, so its rows have no holder
      · obtain ⟨rfl, rfl⟩ := hstep.of_drops hd
        exact (lost i (t.phase.holds_subset_busy hi) r hr hp).2 rfl
      · refine List.eq_nil_iff_forall_not_mem.mpr fun i hi => ?_
        obtain ⟨r, hr, hp⟩ := hstep.commit_processing hokt hc hi
        exact (lost i (t.phase.busy_iff.mpr (.inr hi)) r hr hp).1 hex

/-! ### Whole runs -/

/-- **When no event is lost.** Along every run of any number of workers, every
`PROCESSING` row is held by a running tick in every state visited, if and only if
no step of the run abandons an unfinished event; and then, once nothing runs, no
row is left `PROCESSING`. -/
theorem no_event_lost_iff {h : List (State × Action)} {s : State}
    (hr : (worker H).Run .init h s) :
    (Always (fun _ s => s.NoLoss) h s ↔ ∀ p ∈ h, Keeps p.1 p.2) ∧
      ((∀ p ∈ h, Keeps p.1 p.2) → (∀ t ∈ s.ticks, ¬ s.Running t) →
        ∀ r ∈ s.table.rows, r.status ≠ .processing) := by
  have hiff : Always (fun _ s => s.NoLoss) h s ↔ ∀ p ∈ h, Keeps p.1 p.2 := by
    refine hr.always_iff (fun r hr _ => absurd hr List.not_mem_nil) fun h t a v _ hrt hA hs => ?_
    have hstep := State.step_of_step? hs
    exact ⟨fun hno => hno.keeps (run_ok hrt) hstep,
      fun hk => hA.head.step (run_ok hrt) hk hstep⟩
  exact ⟨hiff, fun hk => (hiff.mpr hk).head.quiescent⟩

/-- One event, claimed, handled and marked. -/
def oneEventDone : List Action :=
  [.insert (freshRow "a"), .start 0, .tick 0 (.select 5 ["a"]), .tick 0 (.commit ["a"]),
   .tick 0 .claimReturned, .tick 0 .next, .tick 0 (.handlerReturned 7), .tick 0 .applyWrite,
   .tick 0 .writeReturned, .tick 0 .next]

/-- Every row has the given status, and every tick has ended. -/
def allEnded (st : OutboxStatus) (_ : List (State × Action)) (s : State) : Bool :=
  s.table.rows.all (·.status = st) && s.ticks.all fun t => match t.phase with
    | .ended => true
    | _ => false

theorem allEnded_iff {st : OutboxStatus} {h : List (State × Action)} {s : State}
    (hs : allEnded st h s = true) :
    (∀ r ∈ s.table.rows, r.status = st) ∧ ∀ t ∈ s.ticks, ¬ s.Running t := by
  simp only [allEnded, Bool.and_eq_true, List.all_eq_true, decide_eq_true_eq] at hs
  refine ⟨hs.1, fun t ht hrun => ?_⟩
  have := hs.2 t ht
  split at this
  · exact hrun.2 ‹_›
  · cases this

/-- A whole tick that marks its event loses nothing, so each of its steps keeps
its events. -/
theorem oneEventDone_keeps :
    ∃ h s, (worker anyOutcome).Run .init h s ∧ allEnded .done h s = true ∧
      (Always (fun _ s => s.NoLoss) h s ↔ ∀ p ∈ h, Keeps p.1 p.2) ∧
      ((∀ p ∈ h, Keeps p.1 p.2) → (∀ t ∈ s.ticks, ¬ s.Running t) →
        ∀ r ∈ s.table.rows, r.status ≠ .processing) := by
  obtain ⟨h, s, hr, hp⟩ :=
    (worker anyOutcome).exists_run_of_exec oneEventDone (allEnded .done) (by decide)
  exact ⟨h, s, hr, hp, no_event_lost_iff hr⟩

/-- The handler throws, and the database refuses the `markFailed` write: the
error leaves `processBatch`, and `tick` logs it and returns. -/
def markFailedRefused : List Action :=
  [.insert (freshRow "a"), .start 0, .tick 0 (.select 5 ["a"]), .tick 0 (.commit ["a"]),
   .tick 0 .claimReturned, .tick 0 .next, .tick 0 (.handlerThrew 7 "boom"),
   .tick 0 (.writeRejected 8 "connection lost")]

/-- No process has stopped and no tick is running, yet the row is `PROCESSING`. -/
theorem markFailedRefused_loses :
    ∃ h s, (worker anyOutcome).Run .init h s ∧ (∀ t ∈ s.ticks, ¬ s.Running t) ∧
      (∃ r ∈ s.table.rows, r.status = .processing) ∧ ¬ s.NoLoss := by
  obtain ⟨h, s, hr, hp⟩ := (worker anyOutcome).exists_run_of_exec markFailedRefused
    (fun h s => allEnded .processing h s && s.table.ids.contains "a") (by decide)
  simp only [Bool.and_eq_true, List.contains_iff_mem] at hp
  obtain ⟨hall, hidle⟩ := allEnded_iff hp.1
  obtain ⟨r, hr'⟩ := Table.mem_ids_iff.mp hp.2
  have hrow := Table.mem_of_find? hr'
  exact ⟨h, s, hr, hidle, ⟨r, hrow, hall r hrow⟩,
    fun hno => hno.quiescent hidle r hrow (hall r hrow)⟩

end LoopzToken.Worker
