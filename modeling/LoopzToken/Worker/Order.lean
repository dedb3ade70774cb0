import LoopzToken.Lib.Sorted
import LoopzToken.Worker.Handled

/-!
# LoopzToken.Worker.Order

The order in which the events of one batch are handled.

The claim query sorts by `created_at`, but the rows are read again by `findMany`, which
has no `orderBy`: what `claimBatch` returns, and so the order of the calls of
`handleEvent` (`handed_prefix_returned`), is up to the database. It is oldest first for
every order the database may choose exactly if there is nothing to order, that is, if
all rows of the batch are equally old (`oldest_first_iff`).
-/

namespace LoopzToken.Worker

open Lib Machine

variable {H : Handlers}

/-! ### Batches -/

/-- Non-decreasing in `createdAt`. -/
def OldestFirst (events : List OutboxEvent) : Prop :=
  events.Pairwise fun a b => a.createdAt ≤ b.createdAt

instance (events : List OutboxEvent) : Decidable (OldestFirst events) :=
  inferInstanceAs (Decidable (events.Pairwise _))

/-- The rows a claim may take: of the rows visited, those that are due and not locked. -/
def free (order : List String) (now : DateTime) (locked : List String) (T : Table) :
    List OutboxEvent :=
  (T.scan order).filter fun r => r.Due now ∧ r.id ∉ locked

/-- Every free row is as old as any, or at least `BATCH_SIZE` free rows are older. -/
def OneAge (order : List String) (now : DateTime) (locked : List String) (T : Table) : Prop :=
  ∀ r ∈ free order now locked T,
    batchSize ≤ ((free order now locked T).filter fun q => q.createdAt < r.createdAt).length ∨
      ∀ q ∈ free order now locked T, r.createdAt ≤ q.createdAt

instance (order : List String) (now : DateTime) (locked : List String) (T : Table) :
    Decidable (OneAge order now locked T) :=
  inferInstanceAs (Decidable (∀ r ∈ _, _ ∨ ∀ q ∈ _, _))

/-- The free rows, oldest first. -/
def freeSorted (order : List String) (now : DateTime) (locked : List String) (T : Table) :
    List OutboxEvent :=
  (dueSorted order now T).filter fun r => r.id ∉ locked

theorem freeSorted_perm (order : List String) (now : DateTime) (locked : List String)
    (T : Table) : (freeSorted order now locked T).Perm (free order now locked T) := by
  have hfree : free order now locked T =
      ((T.scan order).filter fun r => r.Due now).filter fun r => r.id ∉ locked := by
    rw [List.filter_filter, free]
    refine List.filter_congr fun r _ => ?_
    simp [and_comm]
  rw [hfree]
  exact (List.perm_insertionSort _ _).filter _

/-- The condition, read on the batch. -/
theorem oneAge_iff {order : List String} {now : DateTime} {locked : List String} {T : Table} :
    OneAge order now locked T ↔
      ∀ a ∈ (freeSorted order now locked T).take batchSize,
        ∀ b ∈ (freeSorted order now locked T).take batchSize, a.createdAt = b.createdAt := by
  have hperm := freeSorted_perm order now locked T
  have hsorted : (freeSorted order now locked T).Pairwise fun a b => a.createdAt ≤ b.createdAt :=
    (dueSorted_pairwise order now T).filter _
  rw [take_same_iff hsorted, OneAge]
  simp only [hperm.mem_iff, (hperm.filter _).length_eq]

/-! ### One claim -/

theorem claimBatch_mapped (order₁ order₂ : List String) (now : DateTime) (locked : List String)
    (T : Table) : claimBatch outboxEventMapped order₁ order₂ now locked T =
      .ok (claimRows (((freeSorted order₁ now locked T).take batchSize).map (·.id)) order₂ T) := by
  rw [claimBatch, claimQuery_run_mapped, freeSorted]

theorem mem_batch {order : List String} {now : DateTime} {locked : List String} {T : Table}
    {r : OutboxEvent} (h : r ∈ (freeSorted order now locked T).take batchSize) :
    T.find? r.id = some r :=
  (mem_dueSorted.mp (List.mem_filter.mp (List.mem_of_mem_take h)).1).2.1

/-- Rows that are all as old. -/
def SameAge (ids : List String) (T : Table) (c : DateTime) : Prop :=
  ∀ i ∈ ids, ∃ r, T.find? i = some r ∧ r.createdAt = c

/-- The rows of a claim keep their age. -/
theorem SameAge.claimRows {ids : List String} {T : Table} {c : DateTime} (h : SameAge ids T c)
    (order : List String) : ∀ e ∈ (claimRows ids order T).2, e.createdAt = c := by
  intro e he
  rw [Worker.claimRows] at he
  split at he
  · cases he
  · obtain ⟨hmem, -, hfind⟩ := Table.mem_findMany.mp he
    obtain ⟨r, hr, rfl⟩ := h _ hmem
    rw [Table.find?_updateMany, if_pos hmem, hr] at hfind
    obtain rfl := Option.some.inj hfind
    rfl

/-- A query over a batch of one age locks rows of one age. -/
theorem OneAge.locks {order locked : List String} {now : DateTime} {T : Table}
    (h : OneAge order now locked T) :
    ∃ c, SameAge (((freeSorted order now locked T).take batchSize).map (·.id)) T c := by
  have hsame := oneAge_iff.mp h
  cases hbatch : (freeSorted order now locked T).take batchSize with
  | nil => exact ⟨0, fun i hi => absurd hi List.not_mem_nil⟩
  | cons r rest =>
      rw [← hbatch]
      refine ⟨r.createdAt, fun i hi => ?_⟩
      obtain ⟨q, hq, rfl⟩ := List.mem_map.mp hi
      exact ⟨q, mem_batch hq, hsame q hq r (hbatch ▸ List.mem_cons_self ..)⟩

/-- Events of one age are in order. -/
theorem oldestFirst_of_same {events : List OutboxEvent} {c : DateTime}
    (h : ∀ e ∈ events, e.createdAt = c) : OldestFirst events := by
  refine List.pairwise_of_forall_mem_list fun a ha b hb => ?_
  rw [h a ha, h b hb]

/-- The rows of a batch are all among the events. -/
theorem claimed_mem_claimRows {batch : List OutboxEvent} {order : List String} {T : Table}
    (hord : order.Perm T.ids) (hbatch : ∀ r ∈ batch, T.find? r.id = some r) {r : OutboxEvent}
    (hr : r ∈ batch) : r.claimed ∈ (claimRows (batch.map (·.id)) order T).2 := by
  have hids : ∀ i ∈ batch.map (·.id), ∃ q, T.find? i = some q := by
    intro i hi
    obtain ⟨q, hq, rfl⟩ := List.mem_map.mp hi
    exact ⟨q, hbatch q hq⟩
  have hmem : r.id ∈ batch.map (·.id) := List.mem_map_of_mem hr
  refine (mem_claimRows hord hids).mpr ⟨hmem, ?_⟩
  rw [claimRows_find?, OutboxEvent.claimed_id, if_pos hmem, hbatch r hr, Option.map_some]

/-- The order in which a database visits a table that meets its newest row first. -/
def newestFirst (T : Table) : List String :=
  (T.rows.insertionSort fun a b => b.createdAt ≤ a.createdAt).map (·.id)

theorem newestFirst_perm (T : Table) : (newestFirst T).Perm T.ids :=
  (List.perm_insertionSort _ _).map _

/-- Visited so, the claimed rows come newest first. -/
theorem claimRows_newestFirst (ids : List String) (T : Table) :
    (claimRows ids (newestFirst T) T).2.Pairwise fun a b => b.createdAt ≤ a.createdAt := by
  have htotal : Std.Total fun a b : OutboxEvent => b.createdAt ≤ a.createdAt :=
    ⟨fun a b => Int.le_total b.createdAt a.createdAt⟩
  have htrans : IsTrans OutboxEvent fun a b => b.createdAt ≤ a.createdAt :=
    ⟨fun _ _ _ hab hbc => Int.le_trans hbc hab⟩
  rw [claimRows]
  split
  · exact List.Pairwise.nil
  · refine List.Pairwise.filter _ ?_
    rw [Table.scan, newestFirst, List.filterMap_map, List.pairwise_filterMap]
    refine (List.pairwise_insertionSort (fun a b : OutboxEvent => b.createdAt ≤ a.createdAt)
      T.rows).imp_of_mem fun {a b} ha hb hab e he f hf => ?_
    -- an update leaves the age of a row alone
    have hage : ∀ {r q : OutboxEvent}, r ∈ T.rows →
        (T.updateMany ids claimUpdate).find? r.id = some q → q.createdAt = r.createdAt := by
      intro r q hr hq
      rw [Table.find?_updateMany, Table.find?_of_mem hr] at hq
      split at hq <;> obtain rfl := Option.some.inj hq <;> rfl
    rw [hage ((List.perm_insertionSort _ _).mem_iff.mp ha) he,
      hage ((List.perm_insertionSort _ _).mem_iff.mp hb) hf]
    exact hab

/-- **One claim.** What `claimBatch` returns is oldest first for every order of the second
read exactly if the batch has one age. -/
theorem claimBatch_oldest_first {order₁ locked : List String} {now : DateTime} {T : Table} :
    (∀ order₂, order₂.Perm T.ids → ∀ T' events,
      claimBatch outboxEventMapped order₁ order₂ now locked T = .ok (T', events) →
        OldestFirst events) ↔ OneAge order₁ now locked T := by
  simp only [claimBatch_mapped]
  constructor
  · intro h
    refine oneAge_iff.mpr fun a ha b hb => ?_
    have hord := newestFirst_perm T
    have hbatch : ∀ r ∈ (freeSorted order₁ now locked T).take batchSize,
        T.find? r.id = some r := fun r => mem_batch
    have hpair : OldestFirst (claimRows (((freeSorted order₁ now locked T).take batchSize).map
        (·.id)) (newestFirst T) T).2 := h _ hord _ _ rfl
    exact same_of_pairwise hpair (claimRows_newestFirst ..)
      a.claimed (claimed_mem_claimRows hord hbatch ha)
      b.claimed (claimed_mem_claimRows hord hbatch hb)
  · intro h order₂ _ T' events heq
    obtain ⟨rfl, rfl⟩ := Prod.mk.inj (Except.ok.inj heq)
    obtain ⟨c, hc⟩ := h.locks
    exact oldestFirst_of_same (hc.claimRows order₂)

/-! ### One tick -/

/-- The event a step of a tick passes to `handleEvent`. -/
def Phase.passes : Phase → TickAction → List OutboxEvent
  | .looping (event :: _), .next => [event]
  | _, _ => []

/-- The events a step of a tick reads for its batch. -/
def Phase.reads (T : Table) : Phase → TickAction → List OutboxEvent
  | .claiming _ ids, .commit order => (claimRows ids order T).2
  | _, _ => []

/-- What was passed to `handleEvent` of the batch that was read, at each program point. -/
def Progress (passed batch : List OutboxEvent) : Phase → Prop
  | .polling | .claiming _ _ => passed = [] ∧ batch = []
  | .claimed rest | .looping rest | .handling _ rest | .markingDone _ _ _ rest
  | .markingFailed _ _ _ _ rest => passed ++ rest = batch
  | .ended => passed <+: batch

theorem Phase.Step.progress {locked : List String} {T T' : Table} {ph ph' : Phase}
    {a : TickAction} (h : ph.Step H locked T a T' ph') {passed batch : List OutboxEvent}
    (hp : Progress passed batch ph) :
    Progress (passed ++ ph.passes a) (batch ++ ph.reads T a) ph' := by
  cases h with
  | @commit now ids order hord =>
      obtain ⟨rfl, rfl⟩ := hp
      exact rfl
  | @nextEvent e rest =>
      have hrest : passed ++ e :: rest = batch := hp
      simpa [Progress, passes, reads] using hrest
  | pollAbort | claimAbort =>
      obtain ⟨rfl, rfl⟩ := hp
      exact List.prefix_refl _
  | claimRejected | nextDone | failedRejected =>
      have hrest : _ = batch := hp
      simp [Progress, passes, reads, ← hrest]
  | select | claimReturned | handlerReturned | handlerThrew | applyDone | applyFailed
  | doneReturned | failedReturned | doneRejected =>
      simpa [Progress, passes, reads] using hp

theorem Progress.isPrefix {passed batch : List OutboxEvent} {ph : Phase}
    (h : Progress passed batch ph) : passed <+: batch := by
  cases ph with
  | polling | claiming => exact h.1 ▸ List.nil_prefix
  | ended => exact h
  | _ => exact ⟨_, h⟩

/-- The rows a tick has locked, and those it has read, are equally old. -/
def Aged (T : Table) (batch : List OutboxEvent) (ph : Phase) : Prop :=
  ∃ c, SameAge ph.locks T c ∧ ∀ e ∈ batch, e.createdAt = c

theorem Aged.oldestFirst {T : Table} {batch : List OutboxEvent} {ph : Phase}
    (h : Aged T batch ph) : OldestFirst batch := by
  obtain ⟨c, -, hbatch⟩ := h
  exact oldestFirst_of_same hbatch

theorem Phase.Step.aged {locked : List String} {T T' : Table} {ph ph' : Phase}
    {a : TickAction} (h : ph.Step H locked T a T' ph') {passed batch : List OutboxEvent}
    (hp : Progress passed batch ph)
    (hsel : ∀ now order, a = .select now order → OneAge order now locked T)
    (hage : Aged T batch ph) : Aged T' (batch ++ ph.reads T a) ph' := by
  cases h with
  | @select now order ids hord hq =>
      obtain ⟨-, rfl⟩ := hp
      rw [claimQuery_run_mapped, ← freeSorted] at hq
      obtain rfl := Except.ok.inj hq
      obtain ⟨c, hc⟩ := (hsel now order rfl).locks
      exact ⟨c, hc, fun e he => absurd he List.not_mem_nil⟩
  | @commit now ids order hord =>
      obtain ⟨-, rfl⟩ := hp
      obtain ⟨c, hc, -⟩ := hage
      exact ⟨c, fun i hi => absurd hi List.not_mem_nil, hc.claimRows order⟩
  | _ =>
      -- nothing is locked any more, and nothing more is read
      obtain ⟨c, -, hc⟩ := hage
      exact ⟨c, fun i hi => absurd hi List.not_mem_nil, by simpa [reads] using hc⟩

theorem Aged.congr {T T' : Table} {batch : List OutboxEvent} {ph : Phase}
    (hT : ∀ i r, T.find? i = some r → ∃ q, T'.find? i = some q ∧ q.createdAt = r.createdAt)
    (h : Aged T batch ph) : Aged T' batch ph := by
  obtain ⟨c, hlocks, hbatch⟩ := h
  refine ⟨c, fun i hi => ?_, hbatch⟩
  obtain ⟨r, hr, rfl⟩ := hlocks i hi
  exact hT i r hr

/-! ### Whole runs -/

/-- The program point of tick `k`; it polls when it is started. -/
def State.phase (s : State) (k : ℕ) : Phase :=
  match s.ticks[k]? with
  | some t => t.phase
  | none => .polling

theorem State.phase_eq {s : State} {k : ℕ} {t : Tick} (hk : s.ticks[k]? = some t) :
    s.phase k = t.phase := by
  rw [State.phase, hk]

/-- A step of the system is a step of tick `k` or leaves it where it is. -/
theorem State.Step.phase {s s' : State} {a : Action} (h : State.Step H s a s') (k : ℕ) :
    (∃ b, a = .tick k b ∧ (s.phase k).Step H s.locked s.table b s'.table (s'.phase k)) ∨
      (∀ b, a ≠ .tick k b) ∧ s'.phase k = s.phase k := by
  cases h with
  | @tick i a t T ph hi halive hstep =>
      rcases eq_or_ne i k with rfl | hik
      · refine .inl ⟨a, rfl, ?_⟩
        have hset : (s.ticks.set i ⟨t.proc, ph⟩)[i]? = some ⟨t.proc, ph⟩ :=
          List.getElem?_set_self (List.getElem?_eq_some_iff.mp hi).1
        rw [State.phase_eq hi, State.phase_eq hset]
        exact hstep
      · refine .inr ⟨fun b hb => hik (Action.tick.inj hb).1, ?_⟩
        simp only [State.phase, List.getElem?_set_ne hik]
  | @start p hp =>
      refine .inr ⟨fun _ hb => (by cases hb), ?_⟩
      simp only [State.phase]
      rcases Nat.lt_trichotomy k s.ticks.length with hk | rfl | hk
      · rw [List.getElem?_append_left hk]
      · simp
      · rw [List.getElem?_eq_none (by simp; omega), List.getElem?_eq_none hk.le]
  | insert | signal | exit => exact .inr ⟨fun _ hb => (by cases hb), rfl⟩

/-- What a history shows of tick `k`, in the order it happened. -/
def shown (f : Table → Phase → TickAction → List OutboxEvent) (k : ℕ) :
    List (State × Action) → List OutboxEvent
  | [] => []
  | (s, .tick i a) :: h => shown f k h ++ if i = k then f s.table (s.phase k) a else []
  | _ :: h => shown f k h

/-- The events tick `k` has passed to `handleEvent`. -/
def handed : ℕ → List (State × Action) → List OutboxEvent := shown fun _ => Phase.passes

/-- The events `claimBatch` returns to tick `k`. -/
def returned : ℕ → List (State × Action) → List OutboxEvent := shown Phase.reads

theorem shown_tick {f : Table → Phase → TickAction → List OutboxEvent} {k : ℕ} {s : State}
    {a : TickAction} {h : List (State × Action)} :
    shown f k ((s, .tick k a) :: h) = shown f k h ++ f s.table (s.phase k) a := by
  rw [shown, if_pos rfl]

theorem shown_other {f : Table → Phase → TickAction → List OutboxEvent} {k : ℕ} {s : State}
    {a : Action} {h : List (State × Action)} (ha : ∀ b, a ≠ .tick k b) :
    shown f k ((s, a) :: h) = shown f k h := by
  cases a with
  | tick i a =>
      rw [shown, if_neg, List.append_nil]
      rintro rfl
      exact ha a rfl
  | _ => rfl

theorem run_progress {h : List (State × Action)} {s : State} (hr : (worker H).Run .init h s)
    (k : ℕ) : Progress (handed k h) (returned k h) (s.phase k) := by
  induction hr with
  | refl => exact ⟨rfl, rfl⟩
  | step hr hs ih =>
      rcases (State.step_of_step? hs).phase k with ⟨b, rfl, hstep⟩ | ⟨ha, hph⟩
      · rw [handed, returned, shown_tick, shown_tick]
        exact hstep.progress ih
      · rw [handed, returned, shown_other ha, shown_other ha, hph]
        exact ih

/-- A tick passes the events to `handleEvent` in the order `claimBatch` returned them. -/
theorem handed_prefix_returned {h : List (State × Action)} {s : State}
    (hr : (worker H).Run .init h s) (k : ℕ) : handed k h <+: returned k h :=
  (run_progress hr k).isPrefix

theorem RowStep.createdAt {ev : Option RowEvent} {r : OutboxEvent} {r' : Option OutboxEvent}
    (h : RowStep ev (some r) r') : ∃ q, r' = some q ∧ q.createdAt = r.createdAt := by
  cases h <;> exact ⟨_, rfl, by simp [OutboxEvent.claimed, OutboxUpdate.apply]⟩

/-- The time and the row order of the claim query a step makes. -/
def Action.query? : Action → Option (DateTime × List String)
  | .tick _ (.select now order) => some (now, order)
  | _ => none

/-- If the step is a claim query, then its batch has one age. -/
def SelectsOneAge (p : State × Action) : Prop :=
  ∀ q ∈ p.2.query?, OneAge q.2 q.1 p.1.locked p.1.table

instance (p : State × Action) : Decidable (SelectsOneAge p) :=
  inferInstanceAs (Decidable (∀ q ∈ _, _))

theorem run_aged {h : List (State × Action)} {s : State} (hr : (worker H).Run .init h s)
    (hsel : ∀ p ∈ h, SelectsOneAge p) (k : ℕ) : Aged s.table (returned k h) (s.phase k) := by
  induction hr with
  | refl =>
      exact ⟨0, fun i hi => absurd hi List.not_mem_nil, fun e he => absurd he List.not_mem_nil⟩
  | step hr hs ih =>
      obtain ⟨hone, hrest⟩ := List.forall_mem_cons.mp hsel
      have hstep := State.step_of_step? hs
      rcases hstep.phase k with ⟨b, rfl, hph⟩ | ⟨ha, hph⟩
      · rw [returned, shown_tick]
        refine hph.aged (run_progress hr k) (fun now order hb => ?_) (ih hrest)
        exact hone (now, order) (hb ▸ rfl)
      · rw [returned, shown_other ha, hph]
        refine (ih hrest).congr fun i r hrow => ?_
        have hrs := (run_ok hr).row hstep i
        rw [hrow] at hrs
        exact hrs.createdAt

/-- **When events are handled oldest first.** One claim returns its events oldest first,
whatever order the database reads them in, if and only if the batch has one age. In every
run whose claim queries all have batches of one age, every tick hands its events to
`handleEvent` oldest first. -/
theorem oldest_first_iff (order₁ locked : List String) (now : DateTime) (T : Table)
    (H : Handlers) (h : List (State × Action)) (s : State) :
    ((∀ order₂, order₂.Perm T.ids → ∀ T' events,
        claimBatch outboxEventMapped order₁ order₂ now locked T = .ok (T', events) →
          OldestFirst events) ↔ OneAge order₁ now locked T) ∧
      ((worker H).Run .init h s →
        (∀ k, handed k h <+: returned k h) ∧
          ((∀ p ∈ h, SelectsOneAge p) →
            ∀ k, OldestFirst (returned k h) ∧ OldestFirst (handed k h))) := by
  refine ⟨claimBatch_oldest_first, fun hr => ⟨handed_prefix_returned hr, fun hsel k => ?_⟩⟩
  have hret := (run_aged hr hsel k).oldestFirst
  exact ⟨hret, hret.sublist (handed_prefix_returned hr k).sublist⟩

/-- Two due rows of one age. -/
def twoTwins : Table where
  rows := [freshRow "a", freshRow "b"]
  nodup := by decide

/-- A tick claims two due rows of one age; the second read returns them the other way round. -/
def twinsSwapped : List Action :=
  [.insert (freshRow "a"), .insert (freshRow "b"), .start 0, .tick 0 (.select 5 ["a", "b"]),
   .tick 0 (.commit ["b", "a"]), .tick 0 .claimReturned, .tick 0 .next,
   .tick 0 (.handlerThrew 6 "boom"), .tick 0 .applyWrite, .tick 0 .writeReturned, .tick 0 .next]

theorem twinsSwapped_oldest_first :
    (∀ order₂, order₂.Perm twoTwins.ids → ∀ T' events,
      claimBatch outboxEventMapped ["a", "b"] order₂ 5 [] twoTwins = .ok (T', events) →
        OldestFirst events) ∧
    ∃ h s, (worker anyOutcome).Run .init h s ∧ (handed 0 h).map (·.id) = ["b", "a"] ∧
      OldestFirst (handed 0 h) := by
  obtain ⟨h, s, hr, hp⟩ := (worker anyOutcome).exists_run_of_exec twinsSwapped
    (fun h _ => (handed 0 h).map (·.id) = ["b", "a"] ∧ ∀ p ∈ h, SelectsOneAge p) (by decide)
  obtain ⟨hids, hsel⟩ := of_decide_eq_true hp
  obtain ⟨hone, hrun⟩ := oldest_first_iff ["a", "b"] [] 5 twoTwins anyOutcome h s
  exact ⟨hone.mpr (by decide), h, s, hr, hids, ((hrun hr).2 hsel 0).2⟩

/-- A row that is younger than `freshRow "a"`. -/
def youngerRow : OutboxEvent := { freshRow "b" with createdAt := 1 }

/-- Two due rows of different age. -/
def twoAges : Table where
  rows := [freshRow "a", youngerRow]
  nodup := by decide

/-- A tick claims two due rows; the second read returns the younger one first. -/
def youngerFirst : List Action :=
  [.insert (freshRow "a"), .insert youngerRow, .start 0, .tick 0 (.select 5 ["a", "b"]),
   .tick 0 (.commit ["b", "a"]), .tick 0 .claimReturned, .tick 0 .next,
   .tick 0 (.handlerReturned 6), .tick 0 .applyWrite, .tick 0 .writeReturned, .tick 0 .next]

theorem youngerFirst_handed :
    (∃ T' events, claimBatch outboxEventMapped ["a", "b"] ["b", "a"] 5 [] twoAges =
      .ok (T', events) ∧ ¬ OldestFirst events) ∧
    ∃ h s, (worker anyOutcome).Run .init h s ∧
      (handed 0 h).map (·.createdAt) = [1, 0] ∧ ¬ OldestFirst (handed 0 h) := by
  refine ⟨⟨_, _, rfl, by decide⟩, ?_⟩
  obtain ⟨h, s, hr, hp⟩ := (worker anyOutcome).exists_run_of_exec youngerFirst
    (fun h _ => (handed 0 h).map (·.createdAt) = [1, 0] ∧ ¬ OldestFirst (handed 0 h)) (by decide)
  exact ⟨h, s, hr, of_decide_eq_true hp⟩

end LoopzToken.Worker
