import Mathlib.Algebra.Order.BigOperators.Group.List
import Mathlib.Algebra.Order.Group.Nat
import LoopzToken.Worker.Stranded
import LoopzToken.Worker.Diamond

/-!
# LoopzToken.Worker.Budget

How often a row can be written. A claim, a `markDone` and a `markFailed` all spend from
one budget (`OutboxEvent.budget`): three writes for each attempt that is left, and none
for a `FAILED` row. So in every run at most fifteen writes of the worker touch a row, and
at most three if it is inserted with no attempt left; and once it is `FAILED`, none does
(`run_budget`).
-/

namespace LoopzToken.Worker

open Lib

variable {H : Handlers}

/-- The writes that a row can still see: a claim, a `markDone` and a `markFailed` for each
attempt. `MAX_ATTEMPTS` is looked at after an attempt, so there is always one. -/
def OutboxEvent.budget (r : OutboxEvent) : ℕ :=
  let left := max (maxAttempts - r.attempts) 1
  match r.status with
  | .pending => 3 * left
  | .processing => 3 * left - 1
  | .done => 3 * left - 2
  | .failed => 0

theorem OutboxEvent.budget_of_failed {r : OutboxEvent} (h : r.status = .failed) :
    r.budget = 0 := by
  rw [OutboxEvent.budget, h]

theorem budget_markFailed (t : DateTime) (e r : OutboxEvent) (m : String) :
    ((markFailed t e m).apply r).budget =
      if maxAttempts ≤ e.attempts + 1 then 0
      else 3 * max (maxAttempts - (e.attempts + 1)) 1 := by
  simp only [OutboxEvent.budget, markFailed_status, markFailed_attempts]
  by_cases hmax : maxAttempts ≤ e.attempts + 1
  · simp only [if_pos hmax]
  · simp only [if_neg hmax]

theorem budget_markFailed_lt {t : DateTime} {e r : OutboxEvent} {m : String}
    (hatt : r.attempts = e.attempts) (hst : r.status = .processing ∨ r.status = .done) :
    ((markFailed t e m).apply r).budget < r.budget := by
  have hleft : 3 * max (maxAttempts - e.attempts) 1 - 2 ≤ r.budget := by
    rcases hst with hst | hst <;> simp only [OutboxEvent.budget, hst, hatt] <;> omega
  rw [budget_markFailed]
  split <;> omega

/-- **Every write spends.** -/
theorem RowStep.budget_lt {ev : RowEvent} {r : OutboxEvent} {r' : Option OutboxEvent}
    (h : RowStep (some ev) (some r) r') : ∃ q, r' = some q ∧ q.budget < r.budget := by
  cases h with
  | claimed hr =>
      refine ⟨_, rfl, ?_⟩
      simp only [OutboxEvent.budget, OutboxEvent.claimed_status, OutboxEvent.claimed_attempts,
        hr.1]
      omega
  | done he =>
      refine ⟨_, rfl, ?_⟩
      simp only [OutboxEvent.budget, markDone_apply, he]
      omega
  | failed he => exact ⟨_, rfl, budget_markFailed_lt rfl (.inl he)⟩
  | reopened he => exact ⟨_, rfl, budget_markFailed_lt rfl (.inr rfl)⟩

/-- A claim, a `markDone` or a `markFailed`. -/
def RowEvent.isWrite : RowEvent → Bool
  | .inserted _ => false
  | _ => true

/-- The step `p` is a write of the worker to row `i`. -/
def writes (i : String) (p : State × Action) : Bool := (rowEvent i p).any RowEvent.isWrite

theorem RowStep.budget {ev : Option RowEvent} {r q : OutboxEvent}
    (h : RowStep ev (some r) (some q)) :
    (ev.any RowEvent.isWrite).toNat + q.budget ≤ r.budget := by
  cases ev with
  | none =>
      cases h
      exact Nat.le_of_eq (Nat.zero_add _)
  | some ev =>
      obtain ⟨q', hq, hlt⟩ := h.budget_lt
      obtain rfl := Option.some.inj hq
      have := Bool.toNat_le ((some ev).any RowEvent.isWrite)
      omega

/-- The writes to row `i`, against the attempts that it had left when it was inserted. -/
def WithinBudget (i : String) (h : List (State × Action)) : Option OutboxEvent → Prop
  | none => h.countP (writes i) = 0
  | some r => ∃ t row, (t, .insert row) ∈ h ∧ row.id = i ∧
      h.countP (writes i) + r.budget ≤ 3 * max (maxAttempts - row.attempts) 1

theorem run_withinBudget {h : List (State × Action)} {s : State}
    (hr : (worker H).Run .init h s) (i : String) : WithinBudget i h (s.table.find? i) := by
  refine run_row rfl (fun h p r r' hP hs => ?_) hr
  cases r with
  | none =>
      rcases hs.of_none with ⟨hev, rfl⟩ | ⟨q, hev, hst, rfl⟩
      · simpa [WithinBudget, List.countP_cons, writes, hev] using hP
      · refine ⟨p.1, q, List.mem_cons.mpr (.inl ?_), rowEvent_inserted_id hev, ?_⟩
        · exact Prod.ext rfl (rowEvent_inserted hev).symm
        · have hzero : h.countP (writes i) = 0 := hP
          simp [writes, hev, RowEvent.isWrite, OutboxEvent.budget, hst, hzero]
  | some r =>
      obtain ⟨⟨q, rfl⟩, -⟩ := hs.of_some
      obtain ⟨t, row, hrow, hid, hle⟩ := hP
      refine ⟨t, row, List.mem_cons_of_mem _ hrow, hid, ?_⟩
      have hspend := hs.budget
      rw [countP_cons_toNat]
      simp only [writes] at hle ⊢
      omega

/-- A row pays for its writes with what it has left. -/
theorem State.Ok.writes_le {s s' : State} {h : List (State × Action)} (hok : s.Ok)
    (hr : (worker H).Run s h s') {i : String} {r : OutboxEvent} (hi : s.table.find? i = some r) :
    ∃ q, s'.table.find? i = some q ∧ h.countP (writes i) + q.budget ≤ r.budget := by
  induction hr with
  | refl => exact ⟨r, hi, Nat.le_of_eq (Nat.zero_add _)⟩
  | @step h t u a hr hs ih =>
      obtain ⟨q, hq, hle⟩ := ih
      have hrow := (hok.run hr).row (State.step_of_step? hs) i
      rw [hq] at hrow
      obtain ⟨⟨q', hq'⟩, -⟩ := hrow.of_some
      rw [hq'] at hrow
      refine ⟨q', hq', ?_⟩
      have hspend := hrow.budget
      rw [countP_cons_toNat]
      simp only [writes] at hle ⊢
      omega

/-- **Writes are bounded**, in every run: a row inserted with `a` attempts is written at
most `3 * max (5 - a) 1` times. However the run goes on, every further write makes its
budget smaller, and none comes once it is `FAILED`. -/
theorem run_budget {h : List (State × Action)} {s : State} (hr : (worker H).Run .init h s)
    (i : String) :
    WithinBudget i h (s.table.find? i) ∧
      ∀ r, s.table.find? i = some r → ∀ h' s', (worker H).Run s h' s' →
        (∃ q, s'.table.find? i = some q ∧ h'.countP (writes i) + q.budget ≤ r.budget) ∧
          (r.status = .failed → h'.countP (writes i) = 0) := by
  refine ⟨run_withinBudget hr i, fun r hi h' s' hr' => ?_⟩
  obtain ⟨q, hq, hle⟩ := (run_ok hr).writes_le hr' hi
  refine ⟨⟨q, hq, hle⟩, fun hfailed => ?_⟩
  rw [OutboxEvent.budget_of_failed hfailed] at hle
  omega

/-- Tick `k` handles event `a`; its `markDone` is applied, but reports an error. -/
def markDoneLost (k : ℕ) : List Action :=
  [.start 0, .tick k (.select 9000000 ["a"]), .tick k (.commit ["a"]), .tick k .claimReturned,
   .tick k .next, .tick k (.handlerReturned 0), .tick k .applyWrite,
   .tick k (.writeRejected 0 "connection lost"), .tick k .applyWrite, .tick k .writeReturned]

/-- The bound is reached: five attempts, and three writes in each of them. The row is
`FAILED` then, and it stays unwritten. -/
theorem markDoneLost_budget :
    ∃ h s, (worker anyOutcome).Run .init h s ∧ h.countP (writes "a") = 15 ∧
      WithinBudget "a" h (s.table.find? "a") ∧
      ∀ h' s', (worker anyOutcome).Run s h' s' → h'.countP (writes "a") = 0 := by
  obtain ⟨h, s, hr, hp⟩ := (worker anyOutcome).exists_run_of_exec
    (.insert (freshRow "a") :: (List.range 5).flatMap markDoneLost)
    (fun h s => h.countP (writes "a") = 15 && (s.table.find? "a").any (·.status = .failed))
    (by decide +kernel)
  simp only [Bool.and_eq_true, Option.any_eq_true, decide_eq_true_eq] at hp
  obtain ⟨hcount, r, hi, hfailed⟩ := hp
  obtain ⟨hwithin, hlater⟩ := run_budget hr "a"
  exact ⟨h, s, hr, hcount, hwithin, fun h' s' hr' => (hlater r hi h' s' hr').2 hfailed⟩

/-! ### The budget of the table -/

/-- What the rows of the table weigh together. -/
def Table.weight (f : OutboxEvent → ℕ) (T : Table) : ℕ := (T.rows.map f).sum

/-- The writes that the rows of the table can still see. -/
def Table.budget (T : Table) : ℕ := T.weight OutboxEvent.budget

theorem Table.weight_eq (f : OutboxEvent → ℕ) (T : Table) :
    T.weight f = (T.ids.map fun i => (T.find? i).elim 0 f).sum := by
  rw [Table.weight, Table.ids, List.map_map]
  refine congrArg List.sum (List.map_congr_left fun r hr => ?_)
  rw [Function.comp_apply, Table.find?_of_mem hr]
  rfl

section Weight

variable {f : OutboxEvent → ℕ} {T T' : Table}

theorem Table.elim_le (hids : T'.ids = T.ids)
    (h : ∀ i r q, T.find? i = some r → T'.find? i = some q → f q ≤ f r) {i : String}
    (hi : i ∈ T.ids) : (T'.find? i).elim 0 f ≤ (T.find? i).elim 0 f := by
  obtain ⟨q, hq⟩ := Table.mem_ids_iff.mp (hids ▸ hi)
  obtain ⟨r, hr⟩ := Table.mem_ids_iff.mp hi
  rw [hr, hq]
  exact h i r q hr hq

/-- The table becomes no heavier when no row does. -/
theorem Table.weight_le (hids : T'.ids = T.ids)
    (h : ∀ i r q, T.find? i = some r → T'.find? i = some q → f q ≤ f r) :
    T'.weight f ≤ T.weight f := by
  rw [T.weight_eq, T'.weight_eq, hids]
  exact List.sum_le_sum fun i hi => Table.elim_le hids h hi

theorem Table.weight_lt (hids : T'.ids = T.ids)
    (h : ∀ i r q, T.find? i = some r → T'.find? i = some q → f q ≤ f r) {i : String}
    {r q : OutboxEvent} (hr : T.find? i = some r) (hq : T'.find? i = some q) (hlt : f q < f r) :
    T'.weight f < T.weight f := by
  rw [T.weight_eq, T'.weight_eq, hids]
  refine List.sum_lt_sum _ _ (fun i hi => Table.elim_le hids h hi)
    ⟨i, Table.mem_ids_iff.mpr ⟨r, hr⟩, ?_⟩
  rw [hr, hq]
  exact hlt

end Weight

theorem Phase.Step.row_some {locked : List String} {T T' : Table} {ph ph' : Phase}
    {a : TickAction} (h : ph.Step H locked T a T' ph') (hok : ph.Ok T) {i : String}
    {r q : OutboxEvent} (hr : T.find? i = some r) (hq : T'.find? i = some q) :
    RowStep (ph.rowEvent i a) (some r) (some q) := by
  have hrow := h.row hok i
  rwa [hr, hq] at hrow

theorem RowStep.budget_le {ev : Option RowEvent} {r q : OutboxEvent}
    (h : RowStep ev (some r) (some q)) : q.budget ≤ r.budget :=
  (Nat.le_add_left ..).trans h.budget

/-- No step of a tick makes the budget larger. -/
theorem Phase.Step.budget_le {locked : List String} {T T' : Table} {ph ph' : Phase}
    {a : TickAction} (h : ph.Step H locked T a T' ph') (hok : ph.Ok T) :
    T'.budget ≤ T.budget :=
  Table.weight_le h.ids fun _ _ _ hr hq => (h.row_some hok hr hq).budget_le

/-- A claim makes the budget smaller. -/
theorem Phase.Step.commit_budget_lt {locked : List String} {T T' : Table} {ph ph' : Phase}
    {a : TickAction} (h : ph.Step H locked T a T' ph') (hok : ph.Ok T)
    (ha : a.isCommit = true) {i : String} (hi : i ∈ ph.locks) : T'.budget < T.budget := by
  obtain ⟨r, hr, hpend⟩ := hok.locked_pending hi
  obtain ⟨q, hq, hproc⟩ := h.commit_processing hok ha hi
  refine Table.weight_lt h.ids (fun _ _ _ hr hq => (h.row_some hok hr hq).budget_le) hr hq ?_
  have hrow := h.row_some hok hr hq
  generalize ph.rowEvent i a = ev at hrow
  cases hrow with
  | quiet => exact absurd (hproc.symm.trans hpend) (by decide)
  | claimed hdue =>
      obtain ⟨c, hc, hlt⟩ := (RowStep.claimed hdue).budget_lt
      exact Option.some.inj hc ▸ hlt
  | done he => exact absurd (he.symm.trans hpend) (by decide)
  | failed he => exact absurd (he.symm.trans hpend) (by decide)
  | reopened he => cases hpend

end LoopzToken.Worker
