import LoopzToken.Worker.NoLoss
import LoopzToken.Worker.Order
import LoopzToken.Worker.Exclusive

/-!
# LoopzToken.Worker.Termination

Ticks come to an end. A tick handles at most one batch, and for each event it makes at
most six steps, so in every run it takes at most 124 steps (`tick_steps_le`), whatever the
handlers, the database and the other ticks do. From each program point on, it takes at most
the steps that are left there (`Phase.remaining`).

No tick waits for another one either. The only step that could is a status write, which
waits for the lock of an open claim on its row, and in a reachable state no such lock is
there (`write_free`). So a running tick can always move (`tick_moves`).
-/

namespace LoopzToken.Worker

open Lib Machine

variable {H : Handlers}

/-! ### How many steps are left -/

/-- An upper bound of the steps that a tick will still take. -/
def Phase.remaining : Phase → ℕ
  | .polling => 6 * batchSize + 4
  | .claiming _ ids => 6 * ids.length + 3
  | .claimed events => 6 * events.length + 2
  | .looping rest => 6 * rest.length + 1
  | .handling _ rest => 6 * rest.length + 6
  | .markingDone _ _ applied rest => 6 * rest.length + if applied then 4 else 5
  | .markingFailed _ _ _ applied rest => 6 * rest.length + if applied then 2 else 3
  | .ended => 0

/-- Every step uses one up. -/
theorem Phase.Step.remaining_lt {locked : List String} {T T' : Table} {ph ph' : Phase}
    {a : TickAction} (h : ph.Step H locked T a T' ph') (hok : ph.Ok T) (hnd : ph.busy.Nodup) :
    ph'.remaining < ph.remaining := by
  cases h with
  | @select now order ids hord hq =>
      rw [claimQuery_run_mapped] at hq
      obtain rfl := Except.ok.inj hq
      have hlen := List.length_take_le batchSize
        ((dueSorted order now T).filter fun r => r.id ∉ locked)
      simp only [remaining, List.length_map]
      omega
  | @commit now ids order hord =>
      have hlen : (claimRows ids order T).2.length = ids.length :=
        (List.length_map ..).symm.trans (claimRows_ids_perm hnd hord hok.locked_rows).length_eq
      simp only [remaining, hlen]
      omega
  | @doneRejected e issued applied rest now message =>
      cases applied <;> simp [remaining]
  | @failedRejected e issued error applied rest now message =>
      cases applied <;> simp [remaining]
  | pollAbort | claimAbort | claimReturned | claimRejected | nextDone | nextEvent
  | handlerReturned | handlerThrew | applyDone | applyFailed | doneReturned | failedReturned =>
      simp [remaining]
      try omega

/-- The step `p` is one of tick `k`. -/
def moves (k : ℕ) (p : State × Action) : Bool :=
  match p.2 with
  | .tick i _ => i = k
  | _ => false

theorem moves_tick (k : ℕ) (s : State) (a : TickAction) : moves k (s, .tick k a) = true :=
  decide_eq_true rfl

theorem moves_other {k : ℕ} {s : State} {a : Action} (h : ∀ b, a ≠ .tick k b) :
    moves k (s, a) = false := by
  cases a with
  | tick i a => exact decide_eq_false fun hik => h a (hik ▸ rfl)
  | insert | start | signal | exit => rfl

theorem State.Ok.phase {s : State} (hok : s.Ok) (k : ℕ) :
    (s.phase k).Ok s.table ∧ (s.phase k).busy.Nodup := by
  cases hk : s.ticks[k]? with
  | none =>
      rw [State.phase, hk]
      exact ⟨trivial, List.nodup_nil⟩
  | some t =>
      rw [State.phase_eq hk]
      have hmem := List.mem_of_getElem? hk
      exact ⟨hok.phases t hmem, owns_nodup hok.exclusive hmem⟩

/-- A tick pays for its steps with what is left at its program point. -/
theorem State.Ok.steps_le {s s' : State} {h : List (State × Action)} (hok : s.Ok)
    (hr : (worker H).Run s h s') (k : ℕ) :
    h.countP (moves k) + (s'.phase k).remaining ≤ (s.phase k).remaining := by
  refine hr.countP_add_le (f := fun s => (s.phase k).remaining) (c := moves k)
    fun h' t a v hr' hs => ?_
  have hokt := (hok.run hr').phase k
  rcases (State.step_of_step? hs).phase k with ⟨b, rfl, hstep⟩ | ⟨hother, hsame⟩
  · rw [moves_tick]
    exact hstep.remaining_lt hokt.1 hokt.2
  · rw [moves_other hother, hsame]
    exact Nat.le_refl _

/-- **Ticks end.** In every run, a tick has taken at most 124 steps, and fewer if it is
not over yet; and however the run goes on, it takes at most as many more as are left at its
program point. -/
theorem tick_steps_le {h : List (State × Action)} {s : State}
    (hr : (worker H).Run .init h s) (k : ℕ) :
    h.countP (moves k) + (s.phase k).remaining ≤ 124 ∧
      ∀ h' s', (worker H).Run s h' s' →
        h'.countP (moves k) + (s'.phase k).remaining ≤ (s.phase k).remaining :=
  ⟨State.ok_init.steps_le hr k, fun _ _ hr' => (run_ok hr).steps_le hr' k⟩

/-- The tick that handles event `b` has taken four steps, and six are left. -/
theorem overlappingTicks_steps :
    ∃ h s, (worker anyOutcome).Run .init h s ∧ h.countP (moves 1) = 4 ∧
      (s.phase 1).remaining = 6 ∧ h.countP (moves 1) + (s.phase 1).remaining ≤ 124 ∧
      ∀ h' s', (worker anyOutcome).Run s h' s' →
        h'.countP (moves 1) + (s'.phase 1).remaining ≤ (s.phase 1).remaining := by
  obtain ⟨h, s, hr, hp⟩ := (worker anyOutcome).exists_run_of_exec overlappingTicks
    (fun h s => h.countP (moves 1) = 4 && (s.phase 1).remaining = 6) (by decide)
  simp only [Bool.and_eq_true, decide_eq_true_eq] at hp
  exact ⟨h, s, hr, hp.1, hp.2, tick_steps_le hr 1⟩

/-! ### No tick waits -/

/-- A status write of the tick is on its way to the database. -/
def Phase.writing : Phase → Option String
  | .markingDone event _ false _ => some event.id
  | .markingFailed event _ _ false _ => some event.id
  | _ => none

theorem Phase.busy_of_writing {ph : Phase} {i : String} (h : ph.writing = some i) :
    i ∈ ph.busy ∧ ph.locks = [] := by
  unfold Phase.writing at h
  split at h
  · cases h
    exact ⟨List.mem_cons_self, rfl⟩
  · cases h
    exact ⟨List.mem_cons_self, rfl⟩
  · cases h

/-- **A status write never waits**: in no reachable state has an open claim locked its
row. -/
theorem State.Ok.write_free {s : State} (hok : s.Ok) {k : ℕ} {t : Tick}
    (hk : s.ticks[k]? = some t) {i : String} (hw : t.phase.writing = some i) : i ∉ s.locked := by
  intro hlocked
  obtain ⟨hbusy, hlocks⟩ := Phase.busy_of_writing hw
  obtain ⟨u, hu, hi⟩ := List.mem_flatMap.mp hlocked
  obtain ⟨j, hj⟩ := List.mem_iff_getElem?.mp hu
  have hown : i ∈ u.phase.busy := u.phase.busy_iff.mpr (.inr hi)
  obtain rfl := owner_unique hok.exclusive hk hj hbusy hown
  obtain rfl := Option.some.inj (hk.symm.trans hj)
  rw [hlocks] at hi
  cases hi

theorem State.Ok.phase_write_free {s : State} (hok : s.Ok) {k : ℕ} {i : String}
    (hw : (s.phase k).writing = some i) : i ∉ s.locked := by
  cases hk : s.ticks[k]? with
  | none =>
      rw [State.phase, hk] at hw
      cases hw
  | some t =>
      rw [State.phase_eq hk] at hw
      exact hok.write_free hk hw

/-- The handlers return or throw, for every event. -/
def Answers (H : Handlers) : Prop :=
  ∀ eventType payload, ∃ r, H eventType payload r = true

/-- The steps that report an error of the database. -/
def TickAction.isError : TickAction → Bool
  | .abort => true
  | .claimRejected => true
  | .writeRejected _ _ => true
  | _ => false

theorem Phase.moves {locked : List String} {T : Table} {ph : Phase} (hH : Answers H)
    (hne : ph ≠ .ended) (hfree : ∀ i, ph.writing = some i → i ∉ locked) :
    ∃ a, a.isError = false ∧ (ph.step? H locked T a).isSome = true := by
  cases ph with
  | polling =>
      have hord : T.ids.Nodup := T.nodup
      refine ⟨.select 0 T.ids, rfl, ?_⟩
      rw [Phase.step?, if_pos hord, claimQuery_run_mapped]
      rfl
  | claiming now ids =>
      refine ⟨.commit T.ids, rfl, ?_⟩
      rw [Phase.step?, if_pos (List.Perm.refl _)]
      rfl
  | claimed events => exact ⟨.claimReturned, rfl, rfl⟩
  | looping rest => cases rest <;> exact ⟨.next, rfl, rfl⟩
  | handling event rest =>
      obtain ⟨r, hr⟩ := hH event.eventType event.payload
      cases r with
      | ok => exact ⟨.handlerReturned 0, rfl, by rw [Phase.step?, if_pos hr]; rfl⟩
      | error message => exact ⟨.handlerThrew 0 message, rfl, by rw [Phase.step?, if_pos hr]; rfl⟩
  | markingDone event issued applied rest =>
      cases applied with
      | false => exact ⟨.applyWrite, rfl, by rw [Phase.step?, if_neg (hfree _ rfl)]; rfl⟩
      | true => exact ⟨.writeReturned, rfl, rfl⟩
  | markingFailed event issued error applied rest =>
      cases applied with
      | false => exact ⟨.applyWrite, rfl, by rw [Phase.step?, if_neg (hfree _ rfl)]; rfl⟩
      | true => exact ⟨.writeReturned, rfl, rfl⟩
  | ended => exact absurd rfl hne

/-- **A running tick can always move**, without an error of the database. -/
theorem tick_moves (hH : Answers H) {s : State} (hok : s.Ok) {k : ℕ} {t : Tick}
    (hk : s.ticks[k]? = some t) (hrun : s.Running t) :
    ∃ a s', a.isError = false ∧ (worker H).step s (.tick k a) = some s' := by
  obtain ⟨a, herr, hr⟩ := Phase.moves (T := s.table) hH hrun.2 fun i hi => hok.write_free hk hi
  obtain ⟨r, hr⟩ := Option.isSome_iff_exists.mp hr
  have halive : ¬ (s.procs t.proc = .exited ∧ a.byDatabase = false) := fun h => hrun.1 h.1
  have hstep : ((worker H).step s (.tick k a)).isSome = true := by
    simp only [worker, State.step?, hk, if_neg halive, hr, Option.map_some, Option.isSome_some]
  obtain ⟨s', hs⟩ := Option.isSome_iff_exists.mp hstep
  exact ⟨a, s', herr, hs⟩

/-- The process of tick `k` has not exited. -/
def State.Alive (s : State) (k : ℕ) : Prop :=
  ∃ t, s.ticks[k]? = some t ∧ s.procs t.proc ≠ .exited

/-- A step of a tick stops no process. -/
theorem State.Step.alive {s s' : State} {i : ℕ} {a : TickAction}
    (h : State.Step H s (.tick i a) s') {k : ℕ} (hk : s.Alive k) : s'.Alive k := by
  obtain ⟨t, ht, halive⟩ := hk
  cases h with
  | @tick _ _ u T ph hi _ _ =>
      rcases eq_or_ne i k with rfl | hik
      · obtain rfl := Option.some.inj (ht.symm.trans hi)
        exact ⟨_, List.getElem?_set_self (List.getElem?_eq_some_iff.mp hi).1, halive⟩
      · exact ⟨t, (List.getElem?_set_ne hik).trans ht, halive⟩

/-- The steps of tick `k`, none of which reports an error of the database. -/
def OnlyTick (k : ℕ) (h : List (State × Action)) : Prop :=
  ∀ p ∈ h, ∃ a, p.2 = .tick k a ∧ a.isError = false

theorem State.Ok.returns_alone (hH : Answers H) {s : State} (hok : s.Ok) {k : ℕ}
    (hk : s.Alive k) : ∃ h s', (worker H).Run s h s' ∧ OnlyTick k h ∧ s'.phase k = .ended ∧
      h.length ≤ (s.phase k).remaining := by
  generalize hn : (s.phase k).remaining = n
  induction n using Nat.strong_induction_on generalizing s with
  | _ n ih =>
      obtain ⟨t, ht, halive⟩ := hk
      by_cases hended : t.phase = .ended
      · exact ⟨[], s, .refl, fun p hp => absurd hp List.not_mem_nil,
          (State.phase_eq ht).trans hended, Nat.zero_le _⟩
      · obtain ⟨a, u, herr, hs⟩ := tick_moves hH hok ht ⟨halive, hended⟩
        have hstep : State.Step H s (.tick k a) u := State.step_of_step? hs
        have hlt : (u.phase k).remaining < n := by
          rcases hstep.phase k with ⟨b, -, hphase⟩ | ⟨hother, -⟩
          · have hphaseOk := hok.phase k
            exact hn ▸ hphase.remaining_lt hphaseOk.1 hphaseOk.2
          · exact absurd rfl (hother a)
        obtain ⟨h, s', hr, honly, hend, hlen⟩ :=
          ih _ hlt (hok.step hstep) (hstep.alive ⟨t, ht, halive⟩) rfl
        refine ⟨h ++ [(s, .tick k a)], s', hr.cons hs, fun p hp => ?_, hend, ?_⟩
        · rcases List.mem_append.mp hp with hp | hp
          · exact honly p hp
          · obtain rfl := List.mem_singleton.mp hp
            exact ⟨a, rfl, herr⟩
        · rw [List.length_append, List.length_singleton]
          omega

/-- **A tick never needs the others.** In every reachable state, every tick of a process
that has not exited can return by its own steps alone, at most 124 of them, without an
error of the database; the handlers only have to answer. And no status write, of whatever
tick, waits for the lock of an open claim. -/
theorem tick_returns (hH : Answers H) {h : List (State × Action)} {s : State}
    (hr : (worker H).Run .init h s) {k : ℕ} (hk : s.Alive k) :
    (∃ h' s', (worker H).Run s h' s' ∧ OnlyTick k h' ∧ s'.phase k = .ended ∧
      h'.length + h.countP (moves k) ≤ 124) ∧
    ∀ j i, (s.phase j).writing = some i → i ∉ s.locked := by
  obtain ⟨h', s', hr', honly, hend, hlen⟩ := (run_ok hr).returns_alone hH hk
  have htaken := State.ok_init.steps_le hr k
  have hall : (State.init.phase k).remaining = 124 := rfl
  exact ⟨⟨h', s', hr', honly, hend, by omega⟩, fun _ _ => (run_ok hr).phase_write_free⟩

/-- `State.Alive`, as a test on the outcome of a run. -/
def aliveTick (k : ℕ) (_ : List (State × Action)) (s : State) : Bool :=
  (s.ticks[k]?).any fun t => s.procs t.proc ≠ .exited

theorem alive_of_aliveTick {k : ℕ} {h : List (State × Action)} {s : State}
    (ha : aliveTick k h s = true) : s.Alive k := by
  unfold aliveTick at ha
  cases hk : s.ticks[k]? with
  | none => simp [hk] at ha
  | some t => exact ⟨t, hk, by simpa [hk] using ha⟩

/-- The tick that handles event `b` returns. -/
theorem overlappingTicks_returns :
    ∃ h s, (worker anyOutcome).Run .init h s ∧ s.Alive 1 ∧
      (∃ h' s', (worker anyOutcome).Run s h' s' ∧ OnlyTick 1 h' ∧ s'.phase 1 = .ended ∧
        h'.length + h.countP (moves 1) ≤ 124) ∧
      ∀ j i, (s.phase j).writing = some i → i ∉ s.locked := by
  obtain ⟨h, s, hr, hp⟩ :=
    (worker anyOutcome).exists_run_of_exec overlappingTicks (aliveTick 1) (by decide)
  have halive := alive_of_aliveTick hp
  exact ⟨h, s, hr, halive, tick_returns (fun _ _ => ⟨.ok (), rfl⟩) hr halive⟩

end LoopzToken.Worker
