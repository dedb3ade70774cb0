import LoopzToken.Worker.Handlers
import LoopzToken.Worker.Liveness

/-!
# LoopzToken.Worker.Fate

What becomes of an event. If `handleEvent` has one outcome for a row, and no status write of
the row is rejected, then the row has one history: it is claimed, worked on and written, as
often as it takes (`Judged`). The history and the table keep step in any interleaving with
other ticks (`Follows`), so together with `exists_settled` the end of every event is known,
and how often its handler runs (`fate_of_event`).
-/

namespace LoopzToken.Worker

open Lib Machine Filter

variable {H : Handlers} {v : Except String Unit} {r q : OutboxEvent} {n : ℕ}

/-! ### The history of one row -/

/-- The row `r` has become `q` by claims and `n` status writes, where the outcome of its handler
was `v` each time. -/
inductive Judged (v : Except String Unit) (r : OutboxEvent) : ℕ → OutboxEvent → Prop
  | fresh : Judged v r 0 r
  | claimed {n : ℕ} {q : OutboxEvent} (h : Judged v r n q) (hq : q.status = .pending) :
      Judged v r n q.claimed
  | done {n : ℕ} {q : OutboxEvent} {t : DateTime} (h : Judged v r n q)
      (hq : q.status = .processing) (hv : v = .ok ()) : Judged v r (n + 1) ((markDone t).apply q)
  | failed {n : ℕ} {q : OutboxEvent} {t : DateTime} {m : String} (h : Judged v r n q)
      (hq : q.status = .processing) (hv : v = .error m) :
      Judged v r (n + 1) ((markFailed t q m).apply q)

theorem Judged.same (h : Judged v r n q) :
    q.id = r.id ∧ q.eventType = r.eventType ∧ q.payload = r.payload := by
  induction h with
  | fresh => exact ⟨rfl, rfl, rfl⟩
  | claimed _ _ ih | done _ _ _ ih | failed _ _ _ ih => exact ih

/-- If the handler returns, the row is claimed once and marked once. -/
theorem Judged.of_ok (hr : r.status = .pending) (h : Judged (.ok ()) r n q) :
    (n = 0 ∧ (q = r ∨ q = r.claimed)) ∨ (n = 1 ∧ ∃ t, q = (markDone t).apply r) := by
  induction h with
  | fresh => exact .inl ⟨rfl, .inl rfl⟩
  | claimed _ hq ih =>
      rcases ih with ⟨rfl, rfl | rfl⟩ | ⟨-, t, rfl⟩
      · exact .inl ⟨rfl, .inr rfl⟩
      · cases hq
      · cases hq
  | @done n q t _ hq _ ih =>
      rcases ih with ⟨rfl, rfl | rfl⟩ | ⟨-, t, rfl⟩
      · exact absurd (hr.symm.trans hq) (by decide)
      · exact .inr ⟨rfl, t, rfl⟩
      · cases hq
  | failed _ _ hv => cases hv

/-- The row `r` after `n` failed attempts with the message `m`. -/
structure Retried (m : String) (r : OutboxEvent) (n : ℕ) (q : OutboxEvent) : Prop where
  row : q = { r with
    status := q.status, attempts := r.attempts + n, nextRunAt := q.nextRunAt
    lastError := if n = 0 then r.lastError else some m }
  not_done : q.status ≠ .done
  retry : q.status ≠ .failed → n = 0 ∨ r.attempts + n < maxAttempts
  last : q.status = .failed →
    0 < n ∧ maxAttempts ≤ r.attempts + n ∧ (n = 1 ∨ r.attempts + n = maxAttempts)

theorem markFailed_apply (t : DateTime) (e r : OutboxEvent) (m : String) :
    (markFailed t e m).apply r = { r with
      status := ((markFailed t e m).apply r).status, attempts := e.attempts + 1
      nextRunAt := ((markFailed t e m).apply r).nextRunAt, lastError := some m } := by
  unfold markFailed
  dsimp only
  split <;> rfl

theorem Judged.of_error {m : String} (hr : r.status = .pending) (h : Judged (.error m) r n q) :
    Retried m r n q := by
  induction h with
  | fresh =>
      exact ⟨rfl, by simp [hr], fun _ => .inl rfl, fun hf => absurd (hr.symm.trans hf) (by decide)⟩
  | @claimed n q _ hq ih =>
      refine ⟨?_, by simp, fun _ => ih.retry (by simp [hq]), nofun⟩
      rw [OutboxEvent.claimed, ih.row]
  | done _ _ hv => cases hv
  | @failed n q t _ _ hq hv ih =>
      obtain rfl := Except.error.inj hv
      have hretry := ih.retry (by simp [hq])
      have hattempts : q.attempts = r.attempts + n := by rw [ih.row]
      have hstatus := markFailed_status t q q m
      rw [hattempts] at hstatus
      refine ⟨?_, (markFailed_status_ne ..).2, fun hne => .inr ?_, fun hf => ?_⟩
      · rw [markFailed_apply, ih.row]
        rfl
      · by_contra hge
        exact hne (hstatus.trans (if_pos (by omega)))
      · rw [hf] at hstatus
        split at hstatus
        · omega
        · cases hstatus

/-- How often the handler of the row `r` runs, if its outcome is `v` each time. -/
def executions (r : OutboxEvent) : Except String Unit → ℕ
  | .ok () => 1
  | .error _ => max 1 (maxAttempts - r.attempts)

/-- What the row `r` becomes in the end, if the outcome of its handler is `v` each time. -/
inductive Fate (r : OutboxEvent) : Except String Unit → OutboxEvent → Prop
  | done (t : DateTime) : Fate r (.ok ()) ((markDone t).apply r)
  | failed (m : String) (t : DateTime) : Fate r (.error m) { r with
      status := .failed, attempts := max maxAttempts (r.attempts + 1), nextRunAt := t
      lastError := some m }

theorem Judged.fate (hr : r.status = .pending) (h : Judged v r n q)
    (hq : q.status = .done ∨ q.status = .failed) : Fate r v q ∧ n = executions r v := by
  cases v with
  | ok u =>
      rcases h.of_ok hr with ⟨-, rfl | rfl⟩ | ⟨rfl, t, rfl⟩
      · simp [hr] at hq
      · simp at hq
      · exact ⟨.done t, rfl⟩
  | error m =>
      have hretried := h.of_error hr
      have hfailed := hq.resolve_left hretried.not_done
      obtain ⟨hpos, hmax, hlast⟩ := hretried.last hfailed
      have hattempts : r.attempts + n = max maxAttempts (r.attempts + 1) := by omega
      have hrow := hretried.row
      rw [hfailed, hattempts, if_neg (Nat.ne_of_gt hpos)] at hrow
      refine ⟨hrow ▸ .failed m _, ?_⟩
      show n = max 1 (maxAttempts - r.attempts)
      omega

/-! ### What a tick does for the row -/

/-- The event a tick works on: its handler runs, or its status is being written. -/
def Phase.atWork : Phase → List String
  | .handling event _ => [event.id]
  | .markingDone event _ false _ => [event.id]
  | .markingFailed event _ _ false _ => [event.id]
  | _ => []

/-- The row whose status write is rejected. -/
def Phase.rejected : Phase → TickAction → Option String
  | .markingDone event _ _ _, .writeRejected _ _ => some event.id
  | .markingFailed event _ _ _ _, .writeRejected _ _ => some event.id
  | _, _ => none

/-- The step `p` rejects a status write of row `i`. -/
def rejects (i : String) (p : State × Action) : Bool := tickEvent Phase.rejected p = some i

/-- The event tells how the handler ended. -/
def RowEvent.isReport : RowEvent → Bool
  | .done _ => true
  | .failed _ _ => true
  | _ => false

/-- The write a tick is about to make for row `i` tells the outcome `v` of its handler. -/
def Phase.Tells (v : Except String Unit) (i : String) : Phase → Prop
  | .markingDone event _ false _ => event.id = i → v = .ok ()
  | .markingFailed event _ error false _ => event.id = i → ∃ m, error = .handler m ∧ v = .error m
  | _ => True

theorem Phase.atWork_subset_busy {ph : Phase} {i : String} (hi : i ∈ ph.atWork) : i ∈ ph.busy := by
  unfold Phase.atWork at hi
  split at hi
  · exact List.mem_cons.mpr (.inl (List.mem_singleton.mp hi))
  · exact List.mem_cons.mpr (.inl (List.mem_singleton.mp hi))
  · exact List.mem_cons.mpr (.inl (List.mem_singleton.mp hi))
  · cases hi

theorem Phase.atWork_of_locks {ph : Phase} {i : String} (hi : i ∈ ph.locks) : ph.atWork = [] := by
  cases ph with
  | claiming now ids => rfl
  | _ => cases hi

theorem Phase.tells_of_idle {ph : Phase} {i : String} (h : i ∉ ph.atWork) : ph.Tells v i := by
  unfold Phase.Tells
  split
  · exact fun he => absurd (List.mem_singleton.mpr he.symm) h
  · exact fun he => absurd (List.mem_singleton.mpr he.symm) h
  · trivial

/-- Nobody works on a `PENDING` row. -/
theorem Phase.Ok.not_atWork {T : Table} {ph : Phase} (hok : ph.Ok T) {i : String}
    (hr : T.find? i = some r) (hp : r.status = .pending) : i ∉ ph.atWork := by
  intro hi
  obtain ⟨q, hq, hlocks⟩ := hok.busy_row (Phase.atWork_subset_busy hi)
  obtain rfl := Option.some.inj (hr.symm.trans hq)
  rw [Phase.atWork_of_locks (hlocks hp)] at hi
  cases hi

/-- A row that a tick works on is `PROCESSING`. -/
theorem Phase.Ok.atWork {T : Table} {ph : Phase} (hok : ph.Ok T) {i : String}
    (hv : ph.Tells v i) (hi : i ∈ ph.atWork) :
    ∃ q, T.find? i = some q ∧ q.status = .processing := by
  cases ph with
  | handling event rest =>
      obtain rfl := List.mem_singleton.mp hi
      exact ⟨event, hok.1⟩
  | markingDone event issued applied rest =>
      cases applied with
      | true => cases hi
      | false =>
          obtain rfl := List.mem_singleton.mp hi
          exact ⟨event, hok.2.1, hok.1⟩
  | markingFailed event issued error applied rest =>
      cases applied with
      | true => cases hi
      | false =>
          obtain rfl := List.mem_singleton.mp hi
          obtain ⟨m, rfl, -⟩ := hv rfl
          exact ⟨event, hok.2.1 rfl, hok.1⟩
  | _ => cases hi

/-- Work on a row begins with an execution and ends with a write. -/
theorem Phase.Step.atWork {locked : List String} {T T' : Table} {ph ph' : Phase}
    {a : TickAction} (h : ph.Step H locked T a T' ph') {i : String}
    (hclean : ph.rejected a ≠ some i) :
    ph'.atWork.count i + ((ph.rowEvent i a).any RowEvent.isReport).toNat =
      ph.atWork.count i + (decide (ph.handlerEvent i a = some .started)).toNat := by
  cases h with
  | commit =>
      simp only [Phase.atWork, Phase.rowEvent, Phase.handlerEvent]
      split <;> simp [RowEvent.isReport]
  | nextEvent =>
      simp only [Phase.atWork, Phase.handlerEvent, List.count_singleton, beq_iff_eq]
      split <;> simp [Phase.rowEvent]
  | handlerReturned | handlerThrew =>
      simp only [Phase.atWork, Phase.handlerEvent]
      split <;> rfl
  | applyDone | applyFailed =>
      simp only [Phase.atWork, Phase.rowEvent, List.count_singleton, beq_iff_eq]
      split <;> rfl
  | @doneRejected e issued applied | @failedRejected e issued _ applied =>
      have hne : e.id ≠ i := fun he => hclean (congrArg some he)
      cases applied <;> simp [Phase.atWork, Phase.rowEvent, Phase.handlerEvent, hne]
  | _ => rfl

/-- The outcome of the handler is `v`, so that is what the tick tells the row. -/
theorem Phase.Step.tells {locked : List String} {T T' : Table} {ph ph' : Phase}
    {a : TickAction} (h : ph.Step H locked T a T' ph') (hok : ph.Ok T) {i : String}
    (hH : ∀ e o, T.find? i = some e → H e.eventType e.payload o = true → o = v)
    (hclean : ph.rejected a ≠ some i) : ph'.Tells v i := by
  cases h with
  | handlerReturned hret =>
      rintro rfl
      exact (hH _ _ hok.1.1 hret).symm
  | handlerThrew hthrew =>
      rintro rfl
      exact ⟨_, rfl, (hH _ _ hok.1.1 hthrew).symm⟩
  | doneRejected => exact fun he => absurd (congrArg some he) hclean
  | _ => trivial

/-! ### The row and its ticks -/

/-- After the steps `h`, the row `r` is where its history says, its handler has been started
once for each write and once more for the tick at work, and all ticks tell the outcome `v`. -/
structure Follows (v : Except String Unit) (r : OutboxEvent) (h : List (State × Action))
    (s : State) : Prop where
  row : ∃ n q, s.table.find? r.id = some q ∧ Judged v r n q ∧
    h.countP (hands r.id) = n + (s.ticks.flatMap (·.phase.atWork)).count r.id
  ticks : ∀ t ∈ s.ticks, t.phase.Tells v r.id

theorem Follows.init {s : State} (hok : s.Ok) (hr : s.table.find? r.id = some r)
    (hp : r.status = .pending) : Follows v r [] s := by
  have hidle : ∀ t ∈ s.ticks, r.id ∉ t.phase.atWork := fun t ht =>
    (hok.phases t ht).not_atWork hr hp
  refine ⟨⟨0, r, hr, .fresh, ?_⟩, fun t ht => Phase.tells_of_idle (hidle t ht)⟩
  have hnone : r.id ∉ s.ticks.flatMap (·.phase.atWork) := fun hi => by
    obtain ⟨t, ht, hi⟩ := List.mem_flatMap.mp hi
    exact hidle t ht hi
  simp [List.count_eq_zero_of_not_mem hnone]

/-- One step of the row, if the reports are those of the outcome `v`. -/
theorem RowStep.judged {ev : Option RowEvent} {q' : Option OutboxEvent}
    (h : RowStep ev (some q) q') (hq : Judged v r n q)
    (hdone : ∀ t, ev = some (.done t) → v = .ok ())
    (hfailed : ∀ t error, ev = some (.failed t error) → ∃ m, error = .handler m ∧ v = .error m) :
    ∃ p, q' = some p ∧ Judged v r (n + (ev.any RowEvent.isReport).toNat) p := by
  cases h with
  | quiet => exact ⟨_, rfl, hq⟩
  | claimed hr => exact ⟨_, rfl, hq.claimed hr.1⟩
  | done he => exact ⟨_, rfl, hq.done he (hdone _ rfl)⟩
  | failed he =>
      obtain ⟨m, rfl, hv⟩ := hfailed _ _ rfl
      exact ⟨_, rfl, hq.failed he hv⟩
  | reopened he =>
      obtain ⟨m, hm, -⟩ := hfailed _ _ rfl
      cases hm

theorem State.Step.atWork {s s' : State} {a : Action} (h : State.Step H s a s') {i : String}
    (hclean : rejects i (s, a) = false) :
    (s'.ticks.flatMap (·.phase.atWork)).count i +
        ((rowEvent i (s, a)).any RowEvent.isReport).toNat =
      (s.ticks.flatMap (·.phase.atWork)).count i + (hands i (s, a)).toNat := by
  cases h with
  | @tick k a t T ph hk halive hstep =>
      simp only [rejects, tickEvent_tick hk, decide_eq_false_iff_not] at hclean
      have hwork := hstep.atWork hclean
      have hset := count_flatMap_set (b := ⟨t.proc, ph⟩) (f := fun q : Tick => q.phase.atWork) i hk
      rw [rowEvent_tick hk, hands, handlerEvent_tick hk]
      dsimp only at hset ⊢
      omega
  | insert =>
      simp only [rowEvent]
      split <;> rfl
  | start =>
      rw [List.flatMap_append]
      simp [Phase.atWork, rowEvent, tickEvent, hands, handlerEvent]
  | signal | exit => rfl

theorem State.Step.tells {s s' : State} {a : Action} (hok : s.Ok) (h : State.Step H s a s')
    {i : String} (hH : ∀ e o, s.table.find? i = some e → H e.eventType e.payload o = true → o = v)
    (hclean : rejects i (s, a) = false) (ht : ∀ t ∈ s.ticks, t.phase.Tells v i) :
    ∀ t ∈ s'.ticks, t.phase.Tells v i := by
  intro t hmem
  cases h with
  | start hp =>
      rcases List.mem_append.mp hmem with hmem | hmem
      · exact ht t hmem
      · obtain rfl := List.mem_singleton.mp hmem
        trivial
  | @tick k a u T ph hk halive hstep =>
      simp only [rejects, tickEvent_tick hk, decide_eq_false_iff_not] at hclean
      rcases mem_set_cases hmem with rfl | ⟨j, -, hj⟩
      · exact hstep.tells (hok.phases u (List.mem_of_getElem? hk)) hH hclean
      · exact ht t (List.mem_of_getElem? hj)
  | insert | signal | exit => exact ht t hmem

theorem Follows.step {s s' : State} {a : Action} {h : List (State × Action)} (hok : s.Ok)
    (hs : State.Step H s a s') (hH : ∀ o, H r.eventType r.payload o = true → o = v)
    (hclean : rejects r.id (s, a) = false) (hf : Follows v r h s) :
    Follows v r ((s, a) :: h) s' := by
  obtain ⟨⟨n, q, hq, hjudged, hcount⟩, hticks⟩ := hf
  have hrow := hok.row hs r.id
  rw [hq] at hrow
  obtain ⟨p, hp, hjudged'⟩ := hrow.judged hjudged
    (fun t hev => by
      obtain ⟨u, hu, e, rest, hph, he⟩ := rowEvent_done hev
      have htells := hticks u hu
      rw [hph] at htells
      exact htells he)
    (fun t error hev => by
      obtain ⟨u, hu, e, rest, hph, he⟩ := rowEvent_failed hev
      have htells := hticks u hu
      rw [hph] at htells
      exact htells he)
  refine ⟨⟨_, p, hp, hjudged', ?_⟩, hs.tells hok (fun e o he hret => ?_) hclean hticks⟩
  · have hwork := hs.atWork hclean
    rw [countP_cons_toNat]
    omega
  · obtain rfl := Option.some.inj (hq.symm.trans he)
    obtain ⟨-, htype, hpayload⟩ := hjudged.same
    exact hH o (htype ▸ hpayload ▸ hret)

theorem Follows.run {s s' : State} {h : List (State × Action)} (hok : s.Ok)
    (hr : s.table.find? r.id = some r) (hp : r.status = .pending)
    (hH : ∀ o, H r.eventType r.payload o = true → o = v) (hrun : (worker H).Run s h s')
    (hclean : ∀ p ∈ h, rejects r.id p = false) : s'.Ok ∧ Follows v r h s' := by
  induction hrun with
  | refl => exact ⟨hok, .init hok hr hp⟩
  | step hrun hs ih =>
      obtain ⟨hnow, hbefore⟩ := List.forall_mem_cons.mp hclean
      obtain ⟨hok', hf⟩ := ih hbefore
      exact ⟨hok'.step? hs, hf.step hok' (State.step_of_step? hs) hH hnow⟩

/-- Once the row is settled, nobody works on it, so its executions can be counted. -/
theorem Follows.fate {s : State} {h : List (State × Action)} (hok : s.Ok)
    (hp : r.status = .pending) (hf : Follows v r h s) (hq : s.table.find? r.id = some q)
    (hset : q.status = .done ∨ q.status = .failed) :
    Fate r v q ∧ h.countP (hands r.id) = executions r v := by
  obtain ⟨⟨n, q', hq', hjudged, hcount⟩, hticks⟩ := hf
  obtain rfl := Option.some.inj (hq.symm.trans hq')
  have hidle : r.id ∉ s.ticks.flatMap (·.phase.atWork) := by
    intro hi
    obtain ⟨t, ht, hi⟩ := List.mem_flatMap.mp hi
    obtain ⟨p, hfind, hproc⟩ := (hok.phases t ht).atWork (hticks t ht) hi
    obtain rfl := Option.some.inj (hq.symm.trans hfind)
    simp [hproc] at hset
  obtain ⟨hfate, hn⟩ := hjudged.fate hp hset
  rw [List.count_eq_zero_of_not_mem hidle, Nat.add_zero] at hcount
  exact ⟨hfate, hcount.trans hn⟩

/-! ### The fate of an event -/

variable {text : String → Json → String}

/-- `handleEvent` has one outcome, as far as a tick sees it. -/
theorem outcome_unique {eventType : String} {payload : Json} {o : Except String Unit}
    (h : outcomes text eventType payload o = true) :
    o = (handleEvent text eventType payload).result.mapError JsError.message := by
  unfold outcomes at h
  split at h
  · rename_i hres
    rw [hres]
    rfl
  · rename_i e m hres
    rw [hres, ← of_decide_eq_true h]
    rfl
  · cases h

theorem Phase.rejected_of_calm {ph : Phase} {a : TickAction} (ha : a.isError = false) :
    ph.rejected a = none := by
  unfold Phase.rejected
  split
  · cases ha
  · cases ha
  · rfl

theorem rejects_of_calm {i : String} {s : State} {a : Action} (ha : a.isCalm = true) :
    rejects i (s, a) = false := by
  cases a with
  | tick k b =>
      have hb : b.isError = false := by simpa [Action.isCalm] using ha
      refine decide_eq_false ?_
      simp only [tickEvent]
      split
      · simp [Phase.rejected_of_calm hb]
      · simp
  | insert | start | signal | exit => rfl

/-- **`handleEvent` alone decides what becomes of an event.** Take any number of workers with
any number of overlapping ticks, on an infinite run from any reachable state that gives no
event up and is fair, and a row that is `PENDING` at some time, none of whose status writes is
rejected from then on. If `handleEvent` returns for its type and payload, the row is `DONE`
for good in the end, with its attempts as they were, and `handleEvent` has run for it once. If
`handleEvent` throws, the row is `FAILED` for good in the end, with the message of the error
and no attempts left, and `handleEvent` has run once for each attempt that was left, and at
least once. -/
theorem fate_of_event {π : (worker (outcomes text)).Path} {h : List (State × Action)}
    (hr : (worker (outcomes text)).Run .init h (π.state 0)) (hlive : Live π) {n : ℕ}
    (hrow : (π.state n).table.find? r.id = some r) (hp : r.status = .pending)
    (hclean : ∀ m, n ≤ m → rejects r.id (π.state m, π.label m) = false) :
    ∃ q, Fate r ((handleEvent text r.eventType r.payload).result.mapError JsError.message) q ∧
      ∀ᶠ d in atTop, (π.state (n + d)).table.find? r.id = some q ∧
        (π.history n d).countP (hands r.id) = executions r
          ((handleEvent text r.eventType r.payload).result.mapError JsError.message) := by
  have hok := path_ok (run_ok hr)
  have hfree : ¬ Stranded (π.state n) r.id := by
    intro hs
    obtain ⟨q, hq, hproc⟩ := hs.processing
    obtain rfl := Option.some.inj (hrow.symm.trans hq)
    exact absurd (hp.symm.trans hproc) (by decide)
  obtain ⟨q, hset, hlater⟩ := exists_settled hok hlive hrow hfree
  obtain ⟨N, hN⟩ := eventually_atTop.mp hlater
  have hend : ∀ d, N ≤ d → Fate r _ q ∧ (π.history n d).countP (hands r.id) = executions r _ :=
    fun d hd => by
      have hfind := hN (n + d) (hd.trans (Nat.le_add_left d n))
      obtain ⟨hok', hf⟩ := Follows.run (hok n) hrow hp (fun o => outcome_unique) (π.run n d)
        (Path.forall_history hclean d)
      exact hf.fate hok' hp hfind hset
  refine ⟨q, (hend N (Nat.le_refl N)).1, eventually_atTop.mpr ⟨N, fun d hd => ?_⟩⟩
  exact ⟨hN (n + d) (hd.trans (Nat.le_add_left d n)), (hend d hd).2⟩

theorem handleA_fate :
    ∃ (π : (worker (outcomes engineText)).Path) (q : OutboxEvent),
      π.state 0 = ⟨pendingTable, fun _ => .running, []⟩ ∧ Live π ∧
        Fate (freshRow "a") (.ok ()) q ∧ ∀ᶠ d in atTop,
          (π.state (0 + d)).table.find? "a" = some q ∧ (π.history 0 d).countP (hands "a") = 1 := by
  obtain ⟨π, h0, hlive, hcalm⟩ := (idlePath_live (outcomes engineText)).prepend handleA
    ⟨pendingTable, fun _ => .running, []⟩ (by decide) (by simp) rfl
  have hr : (worker (outcomes engineText)).Run .init [(.init, .insert (freshRow "a"))]
      (π.state 0) := by
    rw [h0]
    exact .step .refl rfl
  have hrow : (π.state 0).table.find? (freshRow "a").id = some (freshRow "a") := by
    rw [h0]
    rfl
  have hlabels := hcalm fun n => idleAction_calm (n / 5) (n % 5)
  obtain ⟨q, hfate, hlater⟩ :=
    fate_of_event hr hlive hrow rfl fun m _ => rejects_of_calm (hlabels m)
  exact ⟨π, q, h0, hlive, hfate, hlater⟩

end LoopzToken.Worker
