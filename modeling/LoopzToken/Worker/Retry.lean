import LoopzToken.Worker.Handled

/-!
# LoopzToken.Worker.Retry

**Retries are bounded and spaced.** How often a row was claimed is a hidden
history; `ClaimCount` reads it off the row's status and `attempts`, in every
reachable state, through failed and ambiguous writes and through a `markFailed`
that overwrites a finished row. The bound on executions follows, and so does the
spacing: a row that `markFailed` put back is not touched again before its
`nextRunAt`.
-/

namespace LoopzToken.Worker

open Lib Machine

variable {H : Handlers}

/-! ### Claims against attempts -/

/-- What `n` claims of a row mean for its status and `attempts`. -/
def ClaimCount (n : ℕ) : Option OutboxEvent → Prop
  | none => n = 0
  | some r =>
      match r.status with
      | .pending => n = r.attempts ∧ r.attempts < maxAttempts
      | .processing => n = r.attempts + 1 ∧ r.attempts < maxAttempts
      | .done => n = r.attempts + 1 ∧ r.attempts < maxAttempts
      | .failed => n = r.attempts ∧ r.attempts = maxAttempts

/-- Every row was inserted with `attempts` 0, the default of `schema.prisma`. -/
def FreshInserts (h : List (State × Action)) : Prop :=
  ∀ t row, (t, Action.insert row) ∈ h → row.attempts = 0

theorem ClaimCount.pending_iff {n : ℕ} {r : OutboxEvent} (hs : r.status = .pending) :
    ClaimCount n (some r) ↔ n = r.attempts ∧ r.attempts < maxAttempts := by
  simp only [ClaimCount, hs]

theorem ClaimCount.busy_iff {n : ℕ} {r : OutboxEvent}
    (hs : r.status = .processing ∨ r.status = .done) :
    ClaimCount n (some r) ↔ n = r.attempts + 1 ∧ r.attempts < maxAttempts := by
  rcases hs with hs | hs <;> simp only [ClaimCount, hs]

theorem ClaimCount.failed_iff {n : ℕ} {r : OutboxEvent} (hs : r.status = .failed) :
    ClaimCount n (some r) ↔ n = r.attempts ∧ r.attempts = maxAttempts := by
  simp only [ClaimCount, hs]

/-- Recording a failure of a row that was claimed once more than it has attempts. -/
theorem ClaimCount.markFailed {n : ℕ} {t : DateTime} {e r : OutboxEvent} {m : String}
    (hn : n = e.attempts + 1) (hlt : e.attempts < maxAttempts) :
    ClaimCount n (some ((markFailed t e m).apply r)) := by
  have hst := markFailed_status t e r m
  split at hst
  · rw [ClaimCount.failed_iff hst, markFailed_attempts]
    omega
  · rw [ClaimCount.pending_iff hst, markFailed_attempts]
    omega

theorem ClaimCount.step {n : ℕ} {ev : Option RowEvent} {r r' : Option OutboxEvent}
    (h : RowStep ev r r') (hfresh : ∀ row, ev = some (.inserted row) → row.attempts = 0)
    (hn : ClaimCount n r) : ClaimCount (n + (ev.any RowEvent.isClaimed).toNat) r' := by
  cases h with
  | quiet => exact hn
  | @inserted r hp =>
      obtain rfl : n = 0 := hn
      rw [ClaimCount.pending_iff hp, hfresh r rfl]
      exact ⟨rfl, by decide⟩
  | @claimed r now hdue =>
      rw [ClaimCount.pending_iff hdue.1] at hn
      rw [ClaimCount.busy_iff (.inl rfl)]
      exact ⟨congrArg (· + 1) hn.1, hn.2⟩
  | @done e issued he =>
      rw [ClaimCount.busy_iff (.inl he)] at hn
      rw [ClaimCount.busy_iff (.inr rfl)]
      exact hn
  | @failed e issued error he =>
      rw [ClaimCount.busy_iff (.inl he)] at hn
      exact ClaimCount.markFailed hn.1 hn.2
  | @reopened e doneAt issued message he =>
      rw [ClaimCount.busy_iff (.inr rfl)] at hn
      exact ClaimCount.markFailed hn.1 hn.2

/-- The claim count, in every reachable state. -/
theorem run_claimCount {h : List (State × Action)} {s : State} (hr : (worker H).Run .init h s)
    (hfresh : FreshInserts h) (i : String) :
    ClaimCount (h.countP (claims i)) (s.table.find? i) := by
  revert hfresh
  refine run_row (P := fun h r => FreshInserts h → ClaimCount (h.countP (claims i)) r)
    (fun _ => rfl) (fun h p r r' ih hs hfresh => ?_) hr
  rw [countP_cons_toNat]
  refine ClaimCount.step hs (fun row hev => ?_)
    (ih fun t row hmem => hfresh t row (List.mem_cons_of_mem _ hmem))
  refine hfresh p.1 row (List.mem_cons.mpr (.inl ?_))
  exact Prod.ext rfl (rowEvent_inserted hev).symm

theorem ClaimCount.le {n : ℕ} {r : Option OutboxEvent} (h : ClaimCount n r) :
    n ≤ maxAttempts := by
  cases r with
  | none =>
      obtain rfl : n = 0 := h
      exact Nat.zero_le _
  | some r =>
      simp only [ClaimCount] at h
      split at h <;> omega

/-! ### Spacing -/

/-- A row that is `PENDING` or `FAILED` changes only by being claimed. -/
theorem RowStep.stable {ev : Option RowEvent} {r : OutboxEvent} {r' : Option OutboxEvent}
    (h : RowStep ev (some r) r') (hr : r.status = .pending ∨ r.status = .failed)
    (hev : ev.any RowEvent.isClaimed = false) : r' = some r := by
  cases h with
  | quiet => rfl
  | claimed => cases hev
  | done he | failed he => rcases hr with hr | hr <;> exact absurd (hr.symm.trans he) (by decide)
  | reopened => rcases hr with hr | hr <;> cases hr

theorem run_stable {s u : State} {h : List (State × Action)} (hok : s.Ok)
    (hr : (worker H).Run s h u) {i : String} {r : OutboxEvent} (hs : s.table.find? i = some r)
    (hst : r.status = .pending ∨ r.status = .failed) (hno : ∀ p ∈ h, claims i p = false) :
    u.table.find? i = some r := by
  induction hr with
  | refl => exact hs
  | @step h t u a hr hstep ih =>
      obtain ⟨hlast, hno⟩ := List.forall_mem_cons.mp hno
      have hrow := (hok.run hr).row (State.step_of_step? hstep) i
      rw [ih hno] at hrow
      exact hrow.stable hst hlast

theorem RowStep.due {now : DateTime} {r : OutboxEvent} {r' : Option OutboxEvent}
    (h : RowStep (some (.claimed now)) (some r) r') : r.Due now := by
  cases h with
  | claimed hdue => exact hdue

/-- What a failure leaves: a `FAILED` row, or a `PENDING` one that waits for the
backoff of its new `attempts`. -/
theorem RowStep.after_failed {t : DateTime} {error : Failure} {r r' : Option OutboxEvent}
    (h : RowStep (some (.failed t error)) r r') :
    ∃ q q', r = some q ∧ r' = some q' ∧ q'.attempts = q.attempts + 1 ∧
      (q'.status = .failed ∨
        (q'.status = .pending ∧ q'.nextRunAt = t + backoffMs q'.attempts)) := by
  have hmark : ∀ (e r : OutboxEvent) (m : String),
      ((markFailed t e m).apply r).status = .failed ∨
        (((markFailed t e m).apply r).status = .pending ∧
          ((markFailed t e m).apply r).nextRunAt =
            t + backoffMs ((markFailed t e m).apply r).attempts) := by
    intro e r m
    unfold markFailed
    dsimp only
    split
    · exact .inl rfl
    · exact .inr ⟨rfl, rfl⟩
  cases h with
  | @failed e _ _ he => exact ⟨_, _, rfl, rfl, by simp, hmark ..⟩
  | @reopened e doneAt _ message he =>
      exact ⟨_, _, rfl, rfl, by simp [markDone_apply], hmark ..⟩

/-- The next claim after a recorded failure comes after the backoff: `p` records a
failure of row `i`, `issued` is what the clock read when `markFailed` issued the write, and
`q` is the first claim of the row after it. -/
def Spaced (h : List (State × Action)) : Prop :=
  ∀ i h₁ h₂ h₃ p q issued error now, h = h₃ ++ q :: (h₂ ++ p :: h₁) →
    rowEvent i p = some (.failed issued error) → rowEvent i q = some (.claimed now) →
    (∀ c ∈ h₂, claims i c = false) →
    ∃ r r', p.1.table.find? i = some r ∧ q.1.table.find? i = some r' ∧
      r'.attempts = r.attempts + 1 ∧
      issued + (min (30000 * 2 ^ r'.attempts) 900000 : ℕ) ≤ now

theorem run_spaced {h : List (State × Action)} {s : State} (hr : (worker H).Run .init h s) :
    Spaced h := by
  rintro i h₁ h₂ h₃ ⟨sp, ap⟩ ⟨sq, aq⟩ issued error now rfl hp hq hno
  -- the run is cut before the claim `q`, and again after the failure `p`
  obtain ⟨s₂, hr₂, -⟩ := hr.split
  cases hr₂ with
  | step hr₁ hsq =>
      obtain ⟨s₁, hrp, hmid⟩ := hr₁.split
      cases hrp with
      | step hr₀ hsp =>
          have hokp := run_ok hr₀
          have hrow := hokp.row (State.step_of_step? hsp) i
          rw [hp] at hrow
          obtain ⟨r, r', hr, hr', hatt, hst⟩ := hrow.after_failed
          have hsame := run_stable (hokp.step? hsp) hmid hr'
            (hst.elim .inr fun h => .inl h.1) hno
          have hclaim := (run_ok hr₁).row (State.step_of_step? hsq) i
          rw [hq, hsame] at hclaim
          refine ⟨r, r', hr, hsame, hatt, ?_⟩
          rcases hst with hst | ⟨-, hnext⟩
          · exact absurd (hst.symm.trans hclaim.due.1) (by decide)
          · exact hnext ▸ hclaim.due.2

/-! ### The bound -/

/-- **Retries are bounded and spaced**, over every run: the claim count of every
row, at most `MAX_ATTEMPTS` executions of every event, and the backoff before
every next claim. -/
theorem retries_bounded {h : List (State × Action)} {s : State}
    (hr : (worker H).Run .init h s) (hfresh : FreshInserts h) :
    (∀ i, ClaimCount (h.countP (claims i)) (s.table.find? i)) ∧
      (∀ i, h.countP (hands i) ≤ maxAttempts) ∧ Spaced h :=
  ⟨run_claimCount hr hfresh,
    fun i => (hands_le_claims hr i).trans (run_claimCount hr hfresh i).le, run_spaced hr⟩

/-- A first execution throws at time 7; the row waits until 60007 and is claimed
again then. -/
def retriedOnce : List Action :=
  [.insert (freshRow "a"), .start 0, .tick 0 (.select 5 ["a"]), .tick 0 (.commit ["a"]),
   .tick 0 .claimReturned, .tick 0 .next, .tick 0 (.handlerThrew 7 "boom"),
   .tick 0 .applyWrite, .tick 0 .writeReturned, .tick 0 .next, .start 0,
   .tick 1 (.select 60007 ["a"]), .tick 1 (.commit ["a"]), .tick 1 .claimReturned,
   .tick 1 .next]

/-- All inserted rows of a history have `attempts` 0. -/
def freshInserts (h : List (State × Action)) : Bool :=
  h.all fun p => match p.2 with
    | .insert row => row.attempts = 0
    | _ => true

theorem freshInserts_iff {h : List (State × Action)} (hf : freshInserts h = true) :
    FreshInserts h := by
  intro t row hmem
  simpa using List.all_eq_true.mp hf _ hmem

theorem retriedOnce_bounded :
    ∃ h s, (worker anyOutcome).Run .init h s ∧ h.countP (hands "a") = 2 ∧
      (∀ i, ClaimCount (h.countP (claims i)) (s.table.find? i)) ∧
      (∀ i, h.countP (hands i) ≤ maxAttempts) ∧ Spaced h := by
  obtain ⟨h, s, hr, hp⟩ := (worker anyOutcome).exists_run_of_exec retriedOnce
    (fun h _ => freshInserts h && h.countP (hands "a") = 2) (by decide)
  simp only [Bool.and_eq_true, decide_eq_true_eq] at hp
  exact ⟨h, s, hr, hp.2, retries_bounded hr (freshInserts_iff hp.1)⟩

end LoopzToken.Worker
