import LoopzToken.Worker.Row

/-!
# LoopzToken.Worker.Exclusive

**Exclusive processing.** The *remainder* of a tick is the part of its batch it
has issued no status write for. A row is in at most one remainder; while it is in
one it is `PROCESSING` and the tick's copy of it is current. `markFailed` writes
`attempts` from that copy with no version check: this is why no increment is
lost.
-/

namespace LoopzToken.Worker

open Lib

variable {H : Handlers}

/-- The claimed events for which the tick has issued no status write yet. -/
def Phase.remainder : Phase → List OutboxEvent
  | .claimed events => events
  | .looping rest => rest
  | .handling event rest => event :: rest
  | .markingDone _ _ _ rest => rest
  | .markingFailed _ _ _ _ rest => rest
  | _ => []

/-- Exclusive processing in one state. Ticks of processes that have exited are
ticks too: nothing here depends on which ones still run. -/
structure State.Exclusive (s : State) : Prop where
  /-- A row is in the remainder of at most one tick, and there only once. -/
  owner : ∀ (i j : ℕ) (t u : Tick), s.ticks[i]? = some t → s.ticks[j]? = some u →
    ∀ e ∈ t.phase.remainder, ∀ f ∈ u.phase.remainder, e.id = f.id → i = j
  once : ∀ t ∈ s.ticks, (t.phase.remainder.map (·.id)).Nodup
  /-- The row is `PROCESSING`, and its `attempts` are the snapshot's. -/
  current : ∀ t ∈ s.ticks, ∀ e ∈ t.phase.remainder,
    ∃ r, s.table.find? e.id = some r ∧ r.status = .processing ∧ r.attempts = e.attempts
  /-- `handleEvent` does not run twice at the same time for one event. -/
  handler : ∀ (i j : ℕ) (t u : Tick), s.ticks[i]? = some t → s.ticks[j]? = some u →
    ∀ e f es fs, t.phase = .handling e es → u.phase = .handling f fs → e.id = f.id → i = j

theorem Phase.remainder_sublist_busy (ph : Phase) :
    (ph.remainder.map (·.id)).Sublist ph.busy := by
  cases ph with
  | polling | claiming | ended => exact List.nil_sublist _
  | claimed | looping | handling => exact List.Sublist.refl _
  | markingDone => exact List.sublist_cons_self ..
  | markingFailed _ _ _ applied _ =>
      cases applied with
      | true => exact List.Sublist.refl _
      | false => exact List.sublist_cons_self ..

theorem Phase.Ok.remainder_held {T : Table} {ph : Phase} (hok : ph.Ok T) :
    ∀ e ∈ ph.remainder, Held T e := by
  cases ph with
  | polling | claiming | ended => exact fun e he => absurd he List.not_mem_nil
  | claimed | looping => exact hok
  | handling => exact List.forall_mem_cons.mpr hok
  | markingDone | markingFailed => exact hok.2.2

theorem State.Ok.exclusive_remainders {s : State} (hok : s.Ok) : s.Exclusive := by
  have howner : ∀ (i j : ℕ) (t u : Tick), s.ticks[i]? = some t → s.ticks[j]? = some u →
      ∀ e ∈ t.phase.remainder, ∀ f ∈ u.phase.remainder, e.id = f.id → i = j := by
    intro i j t u hi hj e he f hf hef
    have hte := (t.phase.remainder_sublist_busy).subset (List.mem_map_of_mem he)
    have huf := (u.phase.remainder_sublist_busy).subset (List.mem_map_of_mem hf)
    exact owner_unique hok.exclusive hi hj hte (hef ▸ huf)
  refine ⟨howner, fun t ht => ?_, fun t ht e he => ?_, ?_⟩
  · exact t.phase.remainder_sublist_busy.nodup (owns_nodup hok.exclusive ht)
  · obtain ⟨hrow, hst⟩ := (hok.phases t ht).remainder_held e he
    exact ⟨e, hrow, hst, rfl⟩
  · intro i j t u hi hj e f es fs ht hu hef
    exact howner i j t u hi hj e (by rw [ht]; exact List.mem_cons_self ..)
      f (by rw [hu]; exact List.mem_cons_self ..) hef

/-- **Exclusive processing**, in every reachable state of any number of workers
with overlapping ticks; and `attempts` counts every failure ever recorded, so no
increment is lost. -/
theorem exclusive_processing {h : List (State × Action)} {s : State}
    (hr : (worker H).Run .init h s) :
    s.Exclusive ∧ ∀ i, RecordedAttempts i h (s.table.find? i) :=
  ⟨(run_ok hr).exclusive_remainders, run_attempts hr⟩

/-! ### A run with two overlapping ticks -/

/-- A freshly inserted row. -/
def freshRow (i : String) : OutboxEvent where
  id := i
  eventType := "request.completed"
  payload := .null
  status := .pending
  attempts := 0
  nextRunAt := 0
  lastError := none
  createdAt := 0
  doneAt := none

/-- Handlers that may do anything. -/
def anyOutcome : Handlers := fun _ _ _ => true

/-- Two processes claim one event each while both ticks run; the first handler
throws and its failure is recorded. -/
def overlappingTicks : List Action :=
  [.insert (freshRow "a"), .start 0, .start 1,
   .tick 0 (.select 5 ["a"]), .insert (freshRow "b"), .tick 1 (.select 6 ["a", "b"]),
   .tick 1 (.commit ["b", "a"]), .tick 0 (.commit ["a", "b"]),
   .tick 0 .claimReturned, .tick 1 .claimReturned, .tick 0 .next, .tick 1 .next,
   .tick 0 (.handlerThrew 7 "boom"), .tick 0 .applyWrite]

/-- Tick 1 is handling event `b`, its last one. -/
def handlingB (_ : List (State × Action)) (s : State) : Bool :=
  match (s.ticks[1]? : Option Tick) with
  | some ⟨_, .handling e []⟩ => e.id = "b"
  | _ => false

theorem overlappingTicks_exclusive :
    ∃ h s, (worker anyOutcome).Run .init h s ∧ handlingB h s = true ∧
      s.Exclusive ∧ ∀ i, RecordedAttempts i h (s.table.find? i) := by
  obtain ⟨h, s, hr, hp⟩ :=
    (worker anyOutcome).exists_run_of_exec overlappingTicks handlingB (by decide)
  exact ⟨h, s, hr, hp, exclusive_processing hr⟩

end LoopzToken.Worker
