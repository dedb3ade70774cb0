import LoopzToken.Worker.Terminal

/-!
# LoopzToken.Worker.Attempts

**What a failed attempt means.** `attempts` should count the executions in which
`handleEvent` threw, and `FAILED` should say that all `MAX_ATTEMPTS` of them did.

The `catch` of `processBatch` covers `markDone` as well, so an error of the status
write is booked as a failure of the handler. `failures_are_throws_iff` shows that
this is the only way the two come apart. Its hard half is a count: a recorded
throw is a throw, every execution returns or throws at most once, every execution
has its own claim, and `ClaimCount` ties the claims back to `attempts`.
-/

namespace LoopzToken.Worker

open Lib Machine

variable {H : Handlers}

/-- What a run must satisfy for its failed attempts to be failures of handlers. -/
structure FailuresAreThrows (h : List (State × Action)) (s : State) : Prop where
  /-- `attempts` counts the recorded throws. -/
  attempts : ∀ r ∈ s.table.rows, r.attempts = h.countP (recordsThrow r.id)
  /-- A `FAILED` event was executed `MAX_ATTEMPTS` times, and threw every time. -/
  failed : ∀ r ∈ s.table.rows, r.status = .failed →
    h.countP (hands r.id) = maxAttempts ∧ h.countP (throws r.id) = maxAttempts
  /-- An event whose handler has returned is not `FAILED`. -/
  returned : ∀ p ∈ h, ∀ i, returns i p = true → s.status? i ≠ some .failed
  /-- An event whose handler has returned is not counted as failed by this step. -/
  counted : ∀ q, h.head? = some q → ∀ i, recordsFailure i q = true →
    ∀ p ∈ h, returns i p = false

/-- No step of the history records an error of `markDone` as a failed attempt. -/
def NoRejections (h : List (State × Action)) : Prop :=
  ∀ p ∈ h, ∀ i, recordsRejection i p = false

/-! ### Recorded throws -/

theorem RowEvent.isFailed_eq (ev : RowEvent) :
    ev.isFailed = (ev.isThrow || ev.isRejection) ∧ (ev.isThrow && ev.isRejection) = false := by
  cases ev with
  | failed issued error => cases error <;> exact ⟨rfl, rfl⟩
  | inserted | claimed | done => exact ⟨rfl, rfl⟩

/-- A recorded failure is either a throw or an error of `markDone`. -/
theorem recordsFailure_eq (i : String) (p : State × Action) :
    recordsFailure i p = (recordsThrow i p || recordsRejection i p) ∧
      (recordsThrow i p && recordsRejection i p) = false := by
  unfold recordsFailure recordsThrow recordsRejection
  cases rowEvent i p with
  | none => exact ⟨rfl, rfl⟩
  | some ev => exact ev.isFailed_eq

theorem recordsFailure_iff {i : String} {p : State × Action} :
    recordsFailure i p = true ↔ ∃ issued error, rowEvent i p = some (.failed issued error) := by
  unfold recordsFailure
  constructor
  · intro h
    rcases hev : rowEvent i p with _ | ev
    · rw [hev] at h
      cases h
    · rw [hev] at h
      cases ev with
      | failed issued error => exact ⟨issued, error, rfl⟩
      | inserted | claimed | done => cases h
  · intro h
    obtain ⟨issued, error, hev⟩ := h
    rw [hev]
    rfl

theorem NoRejections.countP_eq {h : List (State × Action)} (hno : NoRejections h) (i : String) :
    h.countP (recordsThrow i) = h.countP (recordsFailure i) :=
  List.countP_congr fun p hp => by simp [(recordsFailure_eq i p).1, hno p hp i]

/-- Without rejections, and from fresh rows, `attempts` counts the recorded throws. -/
theorem attempts_eq_throws {h : List (State × Action)} {s : State}
    (hr : (worker H).Run .init h s) (hfresh : FreshInserts h) (hno : NoRejections h)
    {i : String} {r : OutboxEvent} (hi : s.table.find? i = some r) :
    r.attempts = h.countP (recordsThrow i) := by
  have hrec := run_attempts hr i
  rw [hi] at hrec
  obtain ⟨t, row, hmem, -, hatt⟩ := hrec
  rw [hatt, hfresh t row hmem, Nat.zero_add, hno.countP_eq]

/-! ### Executions of a row that waits or has failed -/

/-- A row that is `PENDING` or `FAILED` has thrown in every execution so far. -/
theorem throws_eq_attempts {h : List (State × Action)} {s : State}
    (hr : (worker H).Run .init h s) (hfresh : FreshInserts h) (hno : NoRejections h)
    {i : String} {r : OutboxEvent} (hi : s.table.find? i = some r)
    (hst : r.status = .pending ∨ r.status = .failed) :
    h.countP (hands i) = r.attempts ∧ h.countP (throws i) = r.attempts ∧
      h.countP (returns i) = 0 := by
  have hclaims : h.countP (claims i) = r.attempts := by
    have hcount := run_claimCount hr hfresh i
    rw [hi] at hcount
    rcases hst with hst | hst
    · exact ((ClaimCount.pending_iff hst).mp hcount).1
    · exact ((ClaimCount.failed_iff hst).mp hcount).1
  -- attempts = recorded throws ≤ throws ≤ executions ≤ claims = attempts
  have hrec := attempts_eq_throws hr hfresh hno hi
  have hthrow := recordsThrow_le_throws hr i
  have hsettle := settles_le_hands hr i
  have hhand := hands_le_claims hr i
  rw [countP_settles] at hsettle
  omega

theorem returns_eq_false {h : List (State × Action)} {i : String}
    (h0 : h.countP (returns i) = 0) : ∀ p ∈ h, returns i p = false := fun p hp =>
  Bool.eq_false_iff.mpr (List.countP_eq_zero.mp h0 p hp)

theorem run_failuresAreThrows {h : List (State × Action)} {s : State}
    (hr : (worker H).Run .init h s) (hfresh : FreshInserts h) (hno : NoRejections h) :
    FailuresAreThrows h s := by
  refine ⟨fun r hrow => ?_, fun r hrow hst => ?_, fun p hp i hret hst => ?_, ?_⟩
  · exact attempts_eq_throws hr hfresh hno (Table.find?_of_mem hrow)
  · have hfind := Table.find?_of_mem hrow
    obtain ⟨hhands, hthrows, -⟩ := throws_eq_attempts hr hfresh hno hfind (.inr hst)
    have hcount := run_claimCount hr hfresh r.id
    rw [hfind, ClaimCount.failed_iff hst] at hcount
    exact ⟨hhands.trans hcount.2, hthrows.trans hcount.2⟩
  · obtain ⟨r, hi, hst⟩ := State.status?_eq_some.mp hst
    obtain ⟨-, -, h0⟩ := throws_eq_attempts hr hfresh hno hi (.inr hst)
    exact absurd hret (by simp [returns_eq_false h0 p hp])
  · intro q hq i hrec
    cases hr with
    | refl => cases hq
    | step hr' hs =>
        obtain rfl := Option.some.inj hq
        -- the failure has just been written, so the row waits or has failed
        have hrow := (run_ok hr').row (State.step_of_step? hs) i
        obtain ⟨issued, error, hev⟩ := recordsFailure_iff.mp hrec
        rw [hev] at hrow
        obtain ⟨-, r, -, hi, -, hst⟩ := hrow.after_failed
        have hst' : r.status = .pending ∨ r.status = .failed :=
          hst.elim .inr fun hp => .inl hp.1
        obtain ⟨-, -, h0⟩ := throws_eq_attempts (.step hr' hs) hfresh hno hi hst'
        exact returns_eq_false h0

/-! ### Whole runs -/

/-- A step that records an error of `markDone` raises `attempts` without a throw. -/
theorem FailuresAreThrows.no_rejection {h : List (State × Action)} {s s' : State} {a : Action}
    (hok : s.Ok) (hstep : State.Step H s a s') (hs : FailuresAreThrows h s)
    (hs' : FailuresAreThrows ((s, a) :: h) s') (i : String) :
    recordsRejection i (s, a) = false := by
  refine Bool.eq_false_iff.mpr fun hrej => ?_
  obtain ⟨hfail, hboth⟩ := recordsFailure_eq i (s, a)
  have hthrow : recordsThrow i (s, a) = false := by simpa [hrej] using hboth
  obtain ⟨issued, error, hev⟩ := recordsFailure_iff.mp (hfail.trans (by simp [hrej]))
  have hrow := hok.row hstep i
  rw [hev] at hrow
  obtain ⟨r, r', hr, hr', hatt, -⟩ := hrow.after_failed
  have hold := hs.attempts r (Table.mem_of_find? hr)
  have hnew := hs'.attempts r' (Table.mem_of_find? hr')
  rw [Table.find?_id hr] at hold
  rw [Table.find?_id hr', countP_cons_toNat, hthrow, Bool.toNat_false] at hnew
  omega

/-- **When `FAILED` means that the handler failed.** Along every run that starts
from fresh rows, failed attempts are throws of `handleEvent` if and only if no
step records an error of `markDone` as a failed attempt. -/
theorem failures_are_throws_iff {h : List (State × Action)} {s : State}
    (hr : (worker H).Run .init h s) (hfresh : FreshInserts h) :
    Always FailuresAreThrows h s ↔ NoRejections h := by
  refine ⟨fun hA => ?_, fun hno => hr.always fun h' t hsuf hrt => ?_⟩
  · refine hr.always_steps (C := fun t a => ∀ i, recordsRejection i (t, a) = false) ?_ hA
    exact fun h' t a v hrt hs hbefore hafter =>
      hbefore.no_rejection (run_ok hrt) (State.step_of_step? hs) hafter
  · exact run_failuresAreThrows hrt (fun u row hmem => hfresh u row (hsuf.subset hmem))
      fun p hp => hno p (hsuf.subset hp)

theorem retriedOnce_throws :
    ∃ h s, (worker anyOutcome).Run .init h s ∧ h.countP (throws "a") = 1 ∧
      (Always FailuresAreThrows h s ↔ NoRejections h) := by
  obtain ⟨h, s, hr, hp⟩ := (worker anyOutcome).exists_run_of_exec retriedOnce
    (fun h _ => freshInserts h && h.countP (throws "a") = 1) (by decide)
  simp only [Bool.and_eq_true, decide_eq_true_eq] at hp
  exact ⟨h, s, hr, hp.2, failures_are_throws_iff hr (freshInserts_iff hp.1)⟩

/-- One round of a tick whose handler returns at time `now`, whose `markDone` is
refused, and whose `markFailed` goes through. -/
def refusedRound (k : ℕ) (now : DateTime) : List Action :=
  [.start 0, .tick k (.select now ["a"]), .tick k (.commit ["a"]), .tick k .claimReturned,
   .tick k .next, .tick k (.handlerReturned now), .tick k (.writeRejected now "connection lost"),
   .tick k .applyWrite, .tick k .writeReturned, .tick k .next]

/-- The handler returns five times; the event is `FAILED`. -/
def markDoneRefused : List Action :=
  .insert (freshRow "a") ::
    (refusedRound 0 0 ++ refusedRound 1 1000000 ++ refusedRound 2 2000000 ++
      refusedRound 3 3000000 ++ refusedRound 4 4000000)

/-- The event is `FAILED`, and its handler returned each of the five times. -/
def failedWithoutThrow (h : List (State × Action)) (s : State) : Bool :=
  freshInserts h && s.status? "a" = some .failed && h.countP (returns "a") = maxAttempts &&
    h.countP (throws "a") = 0

theorem markDoneRefused_fails :
    ∃ h s, (worker anyOutcome).Run .init h s ∧ failedWithoutThrow h s = true ∧
      FreshInserts h ∧ ¬ FailuresAreThrows h s := by
  obtain ⟨h, s, hr, hp⟩ :=
    (worker anyOutcome).exists_run_of_exec markDoneRefused failedWithoutThrow (by decide)
  have hp' := hp
  simp only [failedWithoutThrow, Bool.and_eq_true, decide_eq_true_eq] at hp'
  obtain ⟨⟨⟨hfresh, hst⟩, -⟩, hthrows⟩ := hp'
  refine ⟨h, s, hr, hp, freshInserts_iff hfresh, fun hF => ?_⟩
  obtain ⟨r, hi, hfailed⟩ := State.status?_eq_some.mp hst
  have hfive := (hF.failed r (Table.mem_of_find? hi) hfailed).2
  rw [Table.find?_id hi, hthrows] at hfive
  exact absurd hfive (by decide)

end LoopzToken.Worker
