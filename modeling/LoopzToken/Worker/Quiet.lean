import Mathlib.Order.Filter.AtTopBot.Finite
import LoopzToken.Lib.Path
import LoopzToken.Worker.Recovery

/-!
# LoopzToken.Worker.Quiet

What an infinite run without failures comes to. `Live` says what is assumed of it: no step
gives an event up, ticks are fair, timers go on firing and clocks pass every time. New rows
may be inserted all the while.

The rows that are as old as a given one are finitely many, and so are the writes that they
can still see, so from some time on there are none (`exists_quiet`). A row that is
`PROCESSING` at such a time is stranded: a tick that still held it would go on moving and
never write it, which its rank forbids (`Quiet.stranded`).
-/

namespace LoopzToken.Worker

open Lib Machine Filter

variable {H : Handlers} {π : (worker H).Path}

/-! ### What is assumed of the environment -/

/-- A path on which the worker can do its work. -/
structure Live (π : (worker H).Path) : Prop where
  /-- No step gives an event up. -/
  orderly : ∀ n, Orderly (π.state n) (π.label n)
  /-- A tick that is not at rest moves sooner or later: handlers and database answer. -/
  fair : ∀ n k t, (π.state n).ticks[k]? = some t → ¬ (π.state n).Rests t →
    ∃ m, n ≤ m ∧ ∃ a, π.label m = .tick k a
  /-- The interval timer of some process goes on firing. -/
  fires : ∃ᶠ n in atTop, ∃ p, π.label n = .start p
  /-- `now()` passes every time. -/
  now_late : ∀ d, ∀ᶠ n in atTop, ∀ k now order, π.label n = .tick k (.select now order) → d ≤ now
  /-- `created_at` passes every time. -/
  insert_late : ∀ d, ∀ᶠ n in atTop, ∀ row, π.label n = .insert row → d < row.createdAt
  /-- A row of the table is seen by all queries but finitely many. -/
  seen : ∀ n, ∀ i ∈ (π.state n).table.ids, ∀ᶠ m in atTop, ∀ k now order,
    π.label m = .tick k (.select now order) → i ∈ order

theorem path_step (π : (worker H).Path) (n : ℕ) :
    State.Step H (π.state n) (π.label n) (π.state (n + 1)) :=
  State.step_of_step? (π.step n)

theorem path_ok (hok : (π.state 0).Ok) (n : ℕ) : (π.state n).Ok :=
  π.invariant (fun _ _ _ h hs => h.step? hs) hok n

/-! ### Where a tick is -/

/-- The step of a tick, seen from the tick. -/
theorem State.Step.tick_inv {s s' : State} {k : ℕ} {a : TickAction} {t : Tick}
    (h : State.Step H s (.tick k a) s') (hk : s.ticks[k]? = some t) :
    (s.procs t.proc = .exited → a.byDatabase = true) ∧ s'.procs = s.procs ∧
      ∃ ph, t.phase.Step H s.locked s.table a s'.table ph ∧
        s'.ticks[k]? = some ⟨t.proc, ph⟩ := by
  cases h with
  | @tick _ _ u T ph hu halive hstep =>
      obtain rfl := Option.some.inj (hk.symm.trans hu)
      exact ⟨halive, rfl, ph, hstep, List.getElem?_set_self (List.getElem?_eq_some_iff.mp hk).1⟩

/-- A tick that does not move stays where it is, and its process does not exit before the tick
has ended. -/
theorem Orderly.stay {s s' : State} {a : Action} (ho : Orderly s a) (h : State.Step H s a s')
    {k : ℕ} {t : Tick} (hk : s.ticks[k]? = some t) (hmove : ¬ ∃ b, a = .tick k b) :
    s'.ticks[k]? = some t ∧
      (s.procs t.proc ≠ .exited → t.phase ≠ .ended → s'.procs t.proc ≠ .exited) := by
  cases h with
  | insert => exact ⟨hk, fun hne _ => hne⟩
  | start hp =>
      exact ⟨(List.getElem?_append_left (List.getElem?_eq_some_iff.mp hk).1).trans hk,
        fun hne _ => hne⟩
  | @tick i b u T ph hi halive hstep =>
      have hik : i ≠ k := fun heq => hmove ⟨b, heq ▸ rfl⟩
      exact ⟨(List.getElem?_set_ne hik).trans hk, fun hne _ => hne⟩
  | @signal p hp =>
      refine ⟨hk, fun hne _ => ?_⟩
      rcases eq_or_ne t.proc p with rfl | hpne
      · simp [Function.update_self]
      · exact fun hex => hne ((Function.update_of_ne hpne ..).symm.trans hex)
  | @exit p hp =>
      refine ⟨hk, fun hne hend => ?_⟩
      have hpne : t.proc ≠ p := fun heq => hend (ho t (List.mem_of_getElem? hk) heq)
      exact fun hex => hne ((Function.update_of_ne hpne ..).symm.trans hex)

theorem not_rests_of_alive {s : State} {t : Tick} (hend : t.phase ≠ .ended)
    (hne : s.procs t.proc ≠ .exited) : ¬ s.Rests t := by
  rintro (h | h)
  · exact hend h
  · exact hne h.1

/-- A running tick is still where it was when it moves next. -/
theorem Live.next_move (hlive : Live π) {n k : ℕ} {t : Tick}
    (hk : (π.state n).ticks[k]? = some t) (hend : t.phase ≠ .ended)
    (hne : (π.state n).procs t.proc ≠ .exited) :
    ∃ m, n ≤ m ∧ (π.state m).ticks[k]? = some t ∧ (π.state m).procs t.proc ≠ .exited ∧
      ∃ a, π.label m = .tick k a := by
  obtain ⟨m, hm, ⟨hk', hne'⟩, hmove⟩ := exists_move
    (P := fun m => (π.state m).ticks[k]? = some t ∧ (π.state m).procs t.proc ≠ .exited)
    (fun j _ hj hstay => by
      obtain ⟨hk', hne'⟩ := (hlive.orderly j).stay (path_step π j) hj.1 hstay
      exact ⟨hk', hne' hj.2 hend⟩)
    (hlive.fair n k t hk (not_rests_of_alive hend hne)) ⟨hk, hne⟩
  exact ⟨m, hm, hk', hne', hmove⟩

/-! ### Rows as old as a given one -/

/-- The writes that the row can still see, if it is as old as `c`. -/
def OutboxEvent.budgetUpTo (c : DateTime) (r : OutboxEvent) : ℕ :=
  if r.createdAt ≤ c then r.budget else 0

theorem RowStep.budgetUpTo_le {ev : Option RowEvent} {r q : OutboxEvent} (c : DateTime)
    (h : RowStep ev (some r) (some q)) : q.budgetUpTo c ≤ r.budgetUpTo c := by
  obtain ⟨q', hq, hage⟩ := h.createdAt
  obtain rfl := Option.some.inj hq
  simp only [OutboxEvent.budgetUpTo, hage]
  split
  · exact h.budget_le
  · exact Nat.le_refl 0

theorem RowStep.budgetUpTo_lt {ev : RowEvent} {r q : OutboxEvent} {c : DateTime}
    (h : RowStep (some ev) (some r) (some q)) (hc : r.createdAt ≤ c) :
    q.budgetUpTo c < r.budgetUpTo c := by
  obtain ⟨q', hq, hage⟩ := h.createdAt
  obtain rfl := Option.some.inj hq
  obtain ⟨q', hq, hlt⟩ := h.budget_lt
  obtain rfl := Option.some.inj hq
  simp only [OutboxEvent.budgetUpTo, hage, if_pos hc]
  exact hlt

theorem Table.weight_insert {f : OutboxEvent → ℕ} {T T' : Table} {r : OutboxEvent}
    (h : T.insert r = some T') : T'.weight f = f r + T.weight f := by
  unfold Table.insert at h
  split at h
  · cases h
  · obtain rfl := Option.some.inj h
    simp [Table.weight]

/-- The rows as old as `c` become no heavier, as long as younger ones are inserted. -/
theorem State.Step.weight_le {s s' : State} {a : Action} (hok : s.Ok) (h : State.Step H s a s')
    {c : DateTime} (hyoung : ∀ row, a = .insert row → c < row.createdAt) :
    s'.table.weight (·.budgetUpTo c) ≤ s.table.weight (·.budgetUpTo c) := by
  cases h with
  | @insert row T hnew hins =>
      have hzero : row.budgetUpTo c = 0 := if_neg (not_le.mpr (hyoung row rfl))
      show T.weight (·.budgetUpTo c) ≤ _
      rw [Table.weight_insert hins, hzero, Nat.zero_add]
  | @tick k a t T ph hk halive hstep =>
      have hokt := hok.phases t (List.mem_of_getElem? hk)
      exact Table.weight_le hstep.ids fun _ _ _ hr hq => (hstep.row_some hokt hr hq).budgetUpTo_le c
  | start | signal | exit => exact Nat.le_refl _

/-- A write to one of them makes them lighter. -/
theorem State.Step.weight_lt {s s' : State} {a : Action} (hok : s.Ok) (h : State.Step H s a s')
    {c : DateTime} {i : String} {r : OutboxEvent} {ev : RowEvent}
    (hr : s.table.find? i = some r) (hc : r.createdAt ≤ c) (hev : rowEvent i (s, a) = some ev) :
    s'.table.weight (·.budgetUpTo c) < s.table.weight (·.budgetUpTo c) := by
  have hrow := hok.row h i
  rw [hr, hev] at hrow
  obtain ⟨⟨q, hq⟩, hnew⟩ := hrow.of_some
  rw [hq] at hrow
  cases h with
  | @insert row T hpend hins =>
      obtain ⟨hi, rfl⟩ : row.id = i ∧ RowEvent.inserted row = ev := by simpa [rowEvent] using hev
      exact absurd rfl (hnew row)
  | @tick k a t T ph hk halive hstep =>
      have hokt := hok.phases t (List.mem_of_getElem? hk)
      exact Table.weight_lt hstep.ids
        (fun _ _ _ hr hq => (hstep.row_some hokt hr hq).budgetUpTo_le c) hr hq
        (hrow.budgetUpTo_lt hc)
  | start | signal | exit => cases hev

/-! ### Quiet times -/

/-- From time `N` on, no row as old as `c` is written. -/
def Quiet (π : (worker H).Path) (c : DateTime) (N : ℕ) : Prop :=
  ∀ n, N ≤ n → ∀ i r, (π.state n).table.find? i = some r → r.createdAt ≤ c →
    rowEvent i (π.state n, π.label n) = none

/-- **Writes come to an end**, for the rows of any given age. -/
theorem exists_quiet (hok : ∀ n, (π.state n).Ok) (hlive : Live π) (c : DateTime) :
    ∀ᶠ N in atTop, Quiet π c N := by
  refine eventually_forall_ge_atTop.mpr ?_
  have hconst := eventually_const (f := fun n => (π.state n).table.weight (·.budgetUpTo c))
    ((hlive.insert_late c).mono fun n hyoung => (path_step π n).weight_le (hok n) hyoung)
  refine hconst.mono fun n heq i r hr hc => ?_
  cases hev : rowEvent i (π.state n, π.label n) with
  | none => rfl
  | some ev => exact absurd heq ((path_step π n).weight_lt (hok n) hr hc hev).ne

section Quiet

variable {c : DateTime} {N n k : ℕ} {i : String} {r : OutboxEvent}

theorem Quiet.row_succ (hok : ∀ n, (π.state n).Ok) (hq : Quiet π c N) (hn : N ≤ n)
    (hr : (π.state n).table.find? i = some r) (hc : r.createdAt ≤ c) :
    (π.state (n + 1)).table.find? i = some r := by
  have hrow := (hok n).row (path_step π n) i
  rw [hr, hq n hn i r hr hc] at hrow
  generalize (π.state (n + 1)).table.find? i = q at hrow
  cases hrow
  rfl

/-- A quiet row stays as it is. -/
theorem Quiet.row (hok : ∀ n, (π.state n).Ok) (hq : Quiet π c N) (hn : N ≤ n)
    (hr : (π.state n).table.find? i = some r) (hc : r.createdAt ≤ c) {m : ℕ} (hm : n ≤ m) :
    (π.state m).table.find? i = some r := by
  induction m, hm using Nat.le_induction with
  | base => exact hr
  | succ m hm ih => exact hq.row_succ hok (hn.trans hm) ih hc

/-- No claim of a process that has not exited is open on a quiet row: it would be committed. -/
theorem Quiet.not_claiming (hok : ∀ n, (π.state n).Ok) (hlive : Live π) (hq : Quiet π c N)
    (hn : N ≤ n) (hr : (π.state n).table.find? i = some r) (hc : r.createdAt ≤ c) {t : Tick}
    (hk : (π.state n).ticks[k]? = some t) (hi : i ∈ t.phase.locks) :
    (π.state n).procs t.proc = .exited := by
  by_contra hne
  obtain ⟨p, ph⟩ := t
  cases ph with
  | claiming now ids =>
      obtain ⟨m, hm, hk', hne', a, ha⟩ := hlive.next_move hk (by simp) hne
      have hrow := hq.row hok hn hr hc hm
      have hstep := path_step π m
      have hordered := hlive.orderly m
      have hquiet := hq m (hn.trans hm) i r hrow hc
      rw [ha] at hstep hordered hquiet
      rw [rowEvent_tick hk'] at hquiet
      obtain ⟨-, -, ph, hph, -⟩ := hstep.tick_inv hk'
      obtain ⟨habort, -⟩ := (hordered _ hk').2 hne'
      generalize (π.state (m + 1)).table = T at hph
      cases hph with
      | commit hord =>
          have hi' : i ∈ ids := hi
          simp [Phase.rowEvent, hi'] at hquiet
      | claimAbort => exact habort rfl
  | _ => cases hi

end Quiet

/-! ### `PROCESSING` rows -/

/-- Tick `k` holds row `i`, and either its process has not exited or the database owes it the
write. -/
def State.Keeper (s : State) (k : ℕ) (i : String) : Prop :=
  ∃ t, s.ticks[k]? = some t ∧ i ∈ t.phase.holds ∧
    (s.procs t.proc = .exited → t.phase.writing = some i)

/-- A step by which the database applies a write is an event of the row. -/
theorem Phase.Step.event_of_writing {locked : List String} {T T' : Table} {ph ph' : Phase}
    {a : TickAction} (h : ph.Step H locked T a T' ph') (ha : a.byDatabase = true) {i : String}
    (hw : ph.writing = some i) : ph.rowEvent i a ≠ none := by
  cases h with
  | applyDone hfree =>
      obtain rfl := Option.some.inj hw
      simp [Phase.rowEvent]
  | applyFailed hfree =>
      obtain rfl := Option.some.inj hw
      simp [Phase.rowEvent]
  | _ => first | cases hw | cases ha

/-- A step that does not write the row leaves it with its keeper, and each move of the keeper
lowers its rank. -/
theorem State.Keeper.step {s s' : State} {a : Action} (hok : s.Ok) (h : State.Step H s a s')
    (ho : Orderly s a) {k : ℕ} {i : String} {r : OutboxEvent}
    (hr : s'.table.find? i = some r) (hp : r.status = .processing)
    (hquiet : rowEvent i (s, a) = none) (hkeep : s.Keeper k i) :
    s'.Keeper k i ∧ (s'.phase k).remaining ≤ (s.phase k).remaining ∧
      ((∃ b, a = .tick k b) → (s'.phase k).remaining < (s.phase k).remaining) := by
  obtain ⟨t, hk, hi, hw⟩ := hkeep
  by_cases hmove : ∃ b, a = .tick k b
  · obtain ⟨b, rfl⟩ := hmove
    obtain ⟨halive, hprocs, ph, hph, hk'⟩ := h.tick_inv hk
    rw [rowEvent_tick hk] at hquiet
    have hne : s.procs t.proc ≠ .exited := fun hex =>
      hph.event_of_writing (halive hex) (hw hex) hquiet
    have hphase := hok.phase k
    rw [State.phase_eq hk] at hphase
    have hlt : (s'.phase k).remaining < (s.phase k).remaining := by
      rw [State.phase_eq hk, State.phase_eq hk']
      exact hph.remaining_lt hphase.1 hphase.2
    refine ⟨⟨_, hk', ?_, fun hex => absurd (hprocs ▸ hex) hne⟩, hlt.le, fun _ => hlt⟩
    rcases hph.holds hphase.1 hi hr hp with hi' | ⟨hdrops, -⟩
    · exact hi'
    · rw [((ho t hk).2 hne).2] at hdrops
      cases hdrops
  · obtain ⟨hk', hne⟩ := ho.stay h hk hmove
    refine ⟨⟨t, hk', hi, fun hex => hw ?_⟩, ?_, fun h => absurd h hmove⟩
    · by_contra hrun
      exact hne hrun (Phase.ne_ended_of_holds hi) hex
    · rw [State.phase_eq hk, State.phase_eq hk']

theorem State.Keeper.moves (hlive : Live π) {n k : ℕ} {i : String}
    (hkeep : (π.state n).Keeper k i) : ∃ m, n ≤ m ∧ ∃ a, π.label m = .tick k a := by
  obtain ⟨t, hk, hi, hw⟩ := hkeep
  refine hlive.fair n k t hk ?_
  rintro (hend | ⟨hex, hnone, -⟩)
  · exact Phase.ne_ended_of_holds hi hend
  · rw [hw hex] at hnone
    cases hnone

/-- **A quiet row that is `PROCESSING` is stranded**: it has no keeper, for a keeper goes on
moving and would never write it. -/
theorem Quiet.stranded (hok : ∀ n, (π.state n).Ok) (hlive : Live π) {c : DateTime} {N n : ℕ}
    (hq : Quiet π c N) (hn : N ≤ n) {i : String} {r : OutboxEvent}
    (hr : (π.state n).table.find? i = some r) (hc : r.createdAt ≤ c)
    (hp : r.status = .processing) : Stranded (π.state n) i := by
  have hrow : ∀ m, n ≤ m → (π.state m).table.find? i = some r := fun m hm =>
    hq.row hok hn hr hc hm
  have hkeeper : ∀ k, ¬ (π.state n).Keeper k i := fun k => by
    refine not_of_rank (P := fun m => (π.state m).Keeper k i)
      (f := fun m => ((π.state m).phase k).remaining)
      (fun m _ hkeep => hkeep.moves hlive) fun m hm hkeep => ?_
    exact hkeep.step (hok m) (path_step π m) (hlive.orderly m)
      (hrow _ (Nat.le_succ_of_le hm)) hp (hq m (hn.trans hm) i r (hrow m hm) hc)
  refine ⟨⟨r, hr, hp⟩, fun t ht hi => ?_⟩
  obtain ⟨k, hk⟩ := List.mem_iff_getElem?.mp ht
  by_contra hfree
  exact hkeeper k ⟨t, hk, hi, fun hex => by_contra fun hw => hfree ⟨hex, hw⟩⟩

end LoopzToken.Worker
