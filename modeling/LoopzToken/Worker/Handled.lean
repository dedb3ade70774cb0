import LoopzToken.Worker.NoLoss

/-!
# LoopzToken.Worker.Handled

How often `handleEvent` runs for an event, against how often the row was claimed.

The counting is by tokens: a tick carries a token for every execution it still
owes (`Phase.unhandled`), for the execution it is in (`Phase.inHandler`) and for
the failure it still has to record (`Phase.unrecorded`). One step of a tick turns
at most one kind of token into the next, and `run_tokens` carries that to whole
runs: executions are bounded by claims, outcomes by executions, and recorded
handler failures by handler failures.
-/

namespace LoopzToken.Worker

open Lib Machine

variable {H : Handlers}

/-! ### What a step shows of the handler -/

/-- One execution of `handleEvent`: it starts, and it returns or throws. -/
inductive HandlerEvent
  | started
  | returned
  | threw
  deriving DecidableEq, Repr

def Phase.handlerEvent (i : String) : Phase → TickAction → Option HandlerEvent
  | .looping (event :: _), .next => if event.id = i then some .started else none
  | .handling event _, .handlerReturned _ => if event.id = i then some .returned else none
  | .handling event _, .handlerThrew _ _ => if event.id = i then some .threw else none
  | _, _ => none

/-- What the step `p` shows of `handleEvent` for event `i`. -/
def handlerEvent (i : String) (p : State × Action) : Option HandlerEvent :=
  tickEvent (Phase.handlerEvent i) p

/-- The step passes event `i` to `handleEvent`. -/
def hands (i : String) (p : State × Action) : Bool := handlerEvent i p = some .started

/-- `handleEvent` returns normally for event `i`. -/
def returns (i : String) (p : State × Action) : Bool := handlerEvent i p = some .returned

/-- `handleEvent` throws for event `i`. -/
def throws (i : String) (p : State × Action) : Bool := handlerEvent i p = some .threw

/-- The failure is an error that `handleEvent` threw. -/
def RowEvent.isThrow : RowEvent → Bool
  | .failed _ (.handler _) => true
  | _ => false

/-- The step records, in row `i`, an error that `handleEvent` threw. -/
def recordsThrow (i : String) (p : State × Action) : Bool :=
  (rowEvent i p).any RowEvent.isThrow

theorem handlerEvent_tick {i : String} {s : State} {k : ℕ} {a : TickAction} {t : Tick}
    (hk : s.ticks[k]? = some t) : handlerEvent i (s, .tick k a) = t.phase.handlerEvent i a :=
  tickEvent_tick hk

/-- An event that is passed to `handleEvent` is `PROCESSING`. -/
theorem State.Ok.hands_processing {s s' : State} {a : Action} (hok : s.Ok)
    (h : State.Step H s a s') {i : String} (hi : hands i (s, a) = true) :
    ∃ r, s.table.find? i = some r ∧ r.status = .processing := by
  simp only [hands, decide_eq_true_eq] at hi
  cases h with
  | @tick k a t T ph hk halive hstep =>
      rw [handlerEvent_tick hk] at hi
      have hokt := hok.phases t (List.mem_of_getElem? hk)
      generalize t.phase = ph₀ at *
      cases hstep with
      | @nextEvent e rest =>
          simp only [Phase.handlerEvent] at hi
          split at hi
          · rename_i he
            subst he
            exact ⟨e, hokt e (List.mem_cons_self ..)⟩
          · cases hi
      | handlerReturned | handlerThrew =>
          simp only [Phase.handlerEvent] at hi
          split at hi <;> cases hi
      | _ => cases hi
  | insert | start | signal | exit => cases hi

/-! ### Tokens -/

/-- The claimed events still to be passed to `handleEvent`. -/
def Phase.unhandled : Phase → List String
  | .claimed events => events.map (·.id)
  | .looping rest => rest.map (·.id)
  | .handling _ rest => rest.map (·.id)
  | .markingDone _ _ _ rest => rest.map (·.id)
  | .markingFailed _ _ _ _ rest => rest.map (·.id)
  | _ => []

/-- The event `handleEvent` is running for. -/
def Phase.inHandler : Phase → List String
  | .handling event _ => [event.id]
  | _ => []

/-- The event whose handler threw, until `markFailed` has recorded it. -/
def Phase.unrecorded : Phase → List String
  | .markingFailed event _ (.handler _) false _ => [event.id]
  | _ => []

/-- If every step of a tick that gives up a token (`loss`) had one to give, and a
token only appears with a `gain`, then losses never outnumber gains. -/
theorem run_tokens {f : Phase → List String} {i : String} {gain loss : State × Action → Bool}
    (hpoll : f .polling = [])
    (hother : ∀ s a, (∀ k b, a ≠ .tick k b) → loss (s, a) = false)
    (htick : ∀ s k a t T ph, s.Ok → s.ticks[k]? = some t →
      t.phase.Step H s.locked s.table a T ph →
      (f ph).count i + (loss (s, .tick k a)).toNat ≤
        (f t.phase).count i + (gain (s, .tick k a)).toNat)
    {h : List (State × Action)} {s : State} (hr : (worker H).Run .init h s) :
    h.countP loss + (s.ticks.flatMap (f ·.phase)).count i ≤ h.countP gain := by
  induction hr with
  | refl => exact Nat.le_refl 0
  | @step h t u a hr hs ih =>
      rw [countP_cons_toNat, countP_cons_toNat]
      cases State.step_of_step? hs with
      | @tick k a t₀ T ph hk halive hstep =>
          have hstep' := htick t k a t₀ T ph (run_ok hr) hk hstep
          have hset := count_flatMap_set (b := ⟨t₀.proc, ph⟩) (f := fun q : Tick => f q.phase) i hk
          dsimp only at hset ⊢
          omega
      | start =>
          rw [hother t _ fun _ _ he => by cases he]
          simp only [List.flatMap_append, List.flatMap_cons, List.flatMap_nil, hpoll,
            List.append_nil]
          exact Nat.le_trans ih (Nat.le_add_right _ _)
      | insert | signal | exit =>
          rw [hother t _ fun _ _ he => by cases he]
          exact Nat.le_trans ih (Nat.le_add_right _ _)

theorem handlerEvent_other {i : String} {s : State} {a : Action} (ha : ∀ k b, a ≠ .tick k b) :
    handlerEvent i (s, a) = none := by
  cases a with
  | tick k b => exact absurd rfl (ha k b)
  | _ => rfl

/-- `handleEvent` is not started more often than the row is claimed. -/
theorem hands_le_claims {h : List (State × Action)} {s : State}
    (hr : (worker H).Run .init h s) (i : String) : h.countP (hands i) ≤ h.countP (claims i) := by
  refine Nat.le_trans (Nat.le_add_right _ _) (run_tokens (f := Phase.unhandled) (i := i) rfl
    (fun s a ha => by rw [hands, handlerEvent_other ha]; rfl) ?_ hr)
  intro s k a t T ph hok hk hstep
  rw [hands, claims, handlerEvent_tick hk, rowEvent_tick hk]
  have hokt := hok.phases t (List.mem_of_getElem? hk)
  have hndt := owns_nodup hok.exclusive (List.mem_of_getElem? hk)
  generalize t.phase = ph₀ at *
  cases hstep with
  | @commit now ids order hord =>
      have hnd : ids.Nodup := hndt
      -- a claim hands out one token for each row it takes
      have hcount : ((claimRows ids order s.table).2.map (·.id)).count i = ids.count i :=
        (claimRows_ids_perm hnd hord hokt.locked_rows).count_eq i
      simp only [Phase.unhandled, Phase.rowEvent, Phase.handlerEvent, hcount]
      split
      · rename_i hi
        simp [List.count_eq_one_of_mem hnd hi, RowEvent.isClaimed]
      · rename_i hi
        simp [List.count_eq_zero_of_not_mem hi]
  | @nextEvent e rest =>
      simp only [Phase.unhandled, Phase.handlerEvent, List.map_cons, List.count_cons, beq_iff_eq]
      split <;> simp [Phase.rowEvent]
  | handlerReturned | handlerThrew =>
      simp only [Phase.unhandled, Phase.handlerEvent]
      split <;> simp
  | @doneRejected e issued applied => cases applied <;> exact Nat.le_add_right _ _
  | claimRejected | nextDone | failedRejected => exact Nat.zero_le _
  | _ => exact Nat.le_add_right _ _

/-- The execution ends: `handleEvent` returns or throws. -/
def settles (i : String) (p : State × Action) : Bool := returns i p || throws i p

theorem countP_settles (h : List (State × Action)) (i : String) :
    h.countP (settles i) = h.countP (returns i) + h.countP (throws i) := by
  induction h with
  | nil => rfl
  | cons p h ih =>
      have hone : (settles i p).toNat = (returns i p).toNat + (throws i p).toNat := by
        simp only [settles, returns, throws]
        rcases handlerEvent i p with _ | (_ | _ | _) <;> rfl
      rw [countP_cons_toNat, countP_cons_toNat, countP_cons_toNat, ih, hone]
      omega

/-- Every execution ends at most once. -/
theorem settles_le_hands {h : List (State × Action)} {s : State}
    (hr : (worker H).Run .init h s) (i : String) : h.countP (settles i) ≤ h.countP (hands i) := by
  refine Nat.le_trans (Nat.le_add_right _ _) (run_tokens (f := Phase.inHandler) (i := i) rfl
    (fun s a ha => by rw [settles, returns, throws, handlerEvent_other ha]; rfl) ?_ hr)
  intro s k a t T ph hok hk hstep
  rw [settles, returns, throws, hands, handlerEvent_tick hk]
  generalize t.phase = ph₀ at *
  cases hstep with
  | @nextEvent e rest =>
      simp only [Phase.inHandler, Phase.handlerEvent, List.count_singleton, beq_iff_eq]
      split <;> simp
  | @handlerReturned e rest now hH =>
      simp only [Phase.inHandler, Phase.handlerEvent, List.count_singleton, beq_iff_eq]
      split <;> simp
  | @handlerThrew e rest now message hH =>
      simp only [Phase.inHandler, Phase.handlerEvent, List.count_singleton, beq_iff_eq]
      split <;> simp
  | @doneRejected e issued applied => cases applied <;> exact Nat.zero_le _
  | @failedRejected e issued error applied => cases applied <;> exact Nat.zero_le _
  | _ => exact Nat.zero_le _

/-- Every error a handler threw is recorded at most once. -/
theorem recordsThrow_le_throws {h : List (State × Action)} {s : State}
    (hr : (worker H).Run .init h s) (i : String) :
    h.countP (recordsThrow i) ≤ h.countP (throws i) := by
  refine Nat.le_trans (Nat.le_add_right _ _) (run_tokens (f := Phase.unrecorded) (i := i) rfl
    (fun s a ha => ?_) ?_ hr)
  · cases a with
    | tick k b => exact absurd rfl (ha k b)
    | insert row =>
        simp only [recordsThrow, rowEvent]
        split <;> rfl
    | _ => rfl
  intro s k a t T ph hok hk hstep
  rw [recordsThrow, throws, handlerEvent_tick hk, rowEvent_tick hk]
  generalize t.phase = ph₀ at *
  cases hstep with
  | @commit now ids order hord =>
      simp only [Phase.unrecorded, Phase.rowEvent]
      split <;> exact Nat.zero_le _
  | @handlerThrew e rest now message hH =>
      simp only [Phase.unrecorded, Phase.handlerEvent, List.count_singleton, beq_iff_eq]
      split <;> simp [Phase.rowEvent]
  | @applyDone e issued rest hfree =>
      simp only [Phase.unrecorded, Phase.rowEvent]
      split <;> exact Nat.zero_le _
  | @applyFailed e issued error rest hfree =>
      simp only [Phase.unrecorded, Phase.rowEvent]
      cases error with
      | handler m => split <;> simp_all [RowEvent.isThrow]
      | database m => split <;> exact Nat.zero_le _
  | @doneRejected e issued applied => cases applied <;> exact Nat.zero_le _
  | @failedRejected e issued error applied => cases applied <;> exact Nat.zero_le _
  | _ => exact Nat.zero_le _

end LoopzToken.Worker
