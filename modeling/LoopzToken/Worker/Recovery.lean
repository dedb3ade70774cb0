import LoopzToken.Worker.Budget

/-!
# LoopzToken.Worker.Recovery

What can still be settled. From every reachable state a worker that meets no more failures
ends all its ticks, and brings every row to `DONE` or `FAILED` that is not stranded
(`recovery`): the open ticks return (`exists_idle`), and then, as long as a row is
`PENDING`, one more tick spends some of the budget of the table (`claim_one`).
-/

namespace LoopzToken.Worker

open Lib Machine

variable {H : Handlers}

/-! ### Calm runs -/

/-- A run of calm steps leads from `s` to `s'`. -/
def Reach (H : Handlers) (s s' : State) : Prop :=
  ∃ h, (worker H).Run s h s' ∧ ∀ p ∈ h, Calm p.1 p.2

theorem Reach.refl (s : State) : Reach H s s := ⟨[], .refl, by simp⟩

theorem Reach.trans {s t u : State} (hst : Reach H s t) (htu : Reach H t u) : Reach H s u := by
  obtain ⟨h₁, hr₁, hc₁⟩ := hst
  obtain ⟨h₂, hr₂, hc₂⟩ := htu
  exact ⟨h₂ ++ h₁, hr₁.trans hr₂, List.forall_mem_append.mpr ⟨hc₂, hc₁⟩⟩

theorem Reach.single {s t : State} {a : Action} (hs : (worker H).step s a = some t)
    (hc : Calm s a) : Reach H s t :=
  ⟨[(s, a)], .step .refl hs, List.forall_mem_singleton.mpr hc⟩

/-- What a calm run keeps. -/
structure Kept (s s' : State) : Prop where
  ok : s'.Ok
  procs : s'.procs = s.procs
  budget : s'.table.budget ≤ s.table.budget
  stranded : ∀ i, Stranded s' i → Stranded s i

theorem State.Step.kept {s s' : State} {a : Action} (hok : s.Ok) (h : State.Step H s a s')
    (hc : Calm s a) : Kept s s' := by
  have hok' := hok.step h
  have hstranded : ∀ i, Stranded s' i → Stranded s i := fun i => Stranded.of_orderly hok h hc.orderly
  cases h with
  | insert | signal | exit => exact hc.elim
  | start hp => exact ⟨hok', rfl, Nat.le_refl _, hstranded⟩
  | @tick k a t T ph hk halive hstep =>
      have hokt := hok.phases t (List.mem_of_getElem? hk)
      exact ⟨hok', rfl, hstep.budget_le hokt, hstranded⟩

theorem Reach.kept {s s' : State} (hok : s.Ok) (h : Reach H s s') : Kept s s' := by
  obtain ⟨h, hr, hc⟩ := h
  induction hr with
  | refl => exact ⟨hok, rfl, Nat.le_refl _, fun _ => id⟩
  | step hr hs ih =>
      obtain ⟨hcalm, hc⟩ := List.forall_mem_cons.mp hc
      have hbefore := ih hc
      have hafter := State.Step.kept hbefore.ok (State.step_of_step? hs) hcalm
      exact ⟨hafter.ok, hafter.procs.trans hbefore.procs,
        hafter.budget.trans hbefore.budget, fun i => hbefore.stranded i ∘ hafter.stranded i⟩

theorem calm_tick {s : State} {k : ℕ} {t : Tick} {a : TickAction} (hk : s.ticks[k]? = some t)
    (hne : s.procs t.proc ≠ .exited) (ha : a.isError = false) : Calm s (.tick k a) := by
  intro u hu
  obtain rfl := Option.some.inj (hk.symm.trans hu)
  exact ⟨fun hex => absurd hex hne, fun _ => ha⟩

/-! ### Open ticks return -/

/-- The tick has ended, or its process has exited and the database owes it nothing. -/
def State.Rests (s : State) (t : Tick) : Prop :=
  t.phase = .ended ∨
    (s.procs t.proc = .exited ∧ t.phase.writing = none ∧ t.phase.locks = [])

/-- All ticks rest. -/
def State.Idle (s : State) : Prop := ∀ t ∈ s.ticks, s.Rests t

theorem State.Idle.locked {s : State} (h : s.Idle) : s.locked = [] := by
  refine List.flatMap_eq_nil_iff.mpr fun t ht => ?_
  rcases h t ht with hend | ⟨-, -, hlocks⟩
  · rw [hend]
    rfl
  · exact hlocks

theorem State.Idle.not_running {s : State} (h : s.Idle) : ∀ t ∈ s.ticks, ¬ s.Running t := by
  intro t ht hrun
  rcases h t ht with hend | ⟨hex, -⟩
  · exact hrun.2 hend
  · exact hrun.1 hex

/-- Once all ticks rest, nobody is left to write a `PROCESSING` row. -/
theorem State.Idle.stranded {s : State} (h : s.Idle) {r : OutboxEvent} (hr : r ∈ s.table.rows)
    (hp : r.status = .processing) : Stranded s r.id := by
  refine ⟨⟨r, Table.find?_of_mem hr, hp⟩, fun t ht hi => ?_⟩
  rcases h t ht with hend | ⟨hex, hw, -⟩
  · exact absurd hend (Phase.ne_ended_of_holds hi)
  · exact ⟨hex, by simp [hw]⟩

/-- The steps of one tick are calm, and leave the processes and the other ticks alone. -/
theorem OnlyTick.calm {k : ℕ} {s s' : State} {h : List (State × Action)}
    (hr : (worker H).Run s h s') (ho : OnlyTick k h) (hk : s.Alive k) :
    (∀ p ∈ h, Calm p.1 p.2) ∧ s'.Alive k ∧ s'.ticks.length = s.ticks.length ∧
      ∀ j, j ≠ k → s'.ticks[j]? = s.ticks[j]? := by
  induction hr with
  | refl => exact ⟨by simp, hk, rfl, fun _ _ => rfl⟩
  | @step h t u a hr hs ih =>
      obtain ⟨⟨b, rfl, hb⟩, hrest⟩ := List.forall_mem_cons.mp ho
      obtain ⟨hcalm, halive, hlen, hother⟩ := ih hrest
      have hstep : State.Step H t (.tick k b) u := State.step_of_step? hs
      refine ⟨List.forall_mem_cons.mpr ⟨?_, hcalm⟩, hstep.alive halive, ?_⟩
      · obtain ⟨w, hw, hne⟩ := halive
        exact calm_tick hw hne hb
      · cases hstep with
        | tick hi halive' hph =>
            exact ⟨(List.length_set ..).trans hlen,
              fun j hj => (List.getElem?_set_ne hj.symm).trans (hother j hj)⟩

/-- What the database still has to do for a tick, it can do in one step. -/
theorem Phase.owed {locked : List String} {T : Table} {ph : Phase}
    (hfree : ∀ i, ph.writing = some i → i ∉ locked) :
    (ph.writing = none ∧ ph.locks = []) ∨
      ∃ a T' ph', a.byDatabase = true ∧ a.isCommit = false ∧
        ph.step? H locked T a = some (T', ph') ∧ ph'.writing = none ∧ ph'.locks = [] := by
  cases ph with
  | claiming now ids => exact .inr ⟨.abort, T, .ended, rfl, rfl, rfl, rfl, rfl⟩
  | markingDone event issued applied rest =>
      cases applied with
      | false => exact .inr ⟨.applyWrite, _, _, rfl, rfl, if_neg (hfree _ rfl), rfl, rfl⟩
      | true => exact .inl ⟨rfl, rfl⟩
  | markingFailed event issued error applied rest =>
      cases applied with
      | false => exact .inr ⟨.applyWrite, _, _, rfl, rfl, if_neg (hfree _ rfl), rfl, rfl⟩
      | true => exact .inl ⟨rfl, rfl⟩
  | polling | claimed | looping | handling | ended => exact .inl ⟨rfl, rfl⟩

/-- Any one tick can be brought to rest. -/
theorem exists_rests (hH : Answers H) {s : State} (hok : s.Ok) (k : ℕ) :
    ∃ s', Reach H s s' ∧ s'.ticks.length = s.ticks.length ∧
      (∀ j, j ≠ k → s'.ticks[j]? = s.ticks[j]?) ∧ ∀ t, s'.ticks[k]? = some t → s'.Rests t := by
  cases hk : s.ticks[k]? with
  | none => exact ⟨s, .refl s, rfl, fun _ _ => rfl, fun t ht => by simp [hk] at ht⟩
  | some t =>
      by_cases hex : s.procs t.proc = .exited
      · rcases Phase.owed (H := H) (T := s.table) fun i hi => hok.write_free hk hi with
          hrest | ⟨a, T, ph, hdb, hcommit, hstep, hrest⟩
        · refine ⟨s, .refl s, rfl, fun _ _ => rfl, fun u hu => ?_⟩
          obtain rfl := Option.some.inj (hk.symm.trans hu)
          exact .inr ⟨hex, hrest⟩
        · refine ⟨_, .single (step_tick hk (fun _ => hdb) hstep) fun u hu => ?_,
            List.length_set .., fun j hj => List.getElem?_set_ne hj.symm, fun u hu => ?_⟩
          · obtain rfl := Option.some.inj (hk.symm.trans hu)
            exact ⟨fun _ => hcommit, fun hne => absurd hex hne⟩
          · have hlt := (List.getElem?_eq_some_iff.mp hk).1
            obtain rfl := Option.some.inj (hu.symm.trans (List.getElem?_set_self hlt))
            exact .inr ⟨hex, hrest⟩
      · obtain ⟨h, s', hr, honly, hend, -⟩ := hok.returns_alone hH ⟨t, hk, hex⟩
        obtain ⟨hcalm, -, hlen, hother⟩ := honly.calm hr ⟨t, hk, hex⟩
        exact ⟨s', ⟨h, hr, hcalm⟩, hlen, hother,
          fun u hu => .inl ((State.phase_eq hu).symm.trans hend)⟩

theorem State.Rests.congr {s s' : State} {t : Tick} (h : s.Rests t) (hp : s'.procs = s.procs) :
    s'.Rests t := by
  rw [State.Rests, hp]
  exact h

/-- All ticks can be brought to rest, one after the other. -/
theorem exists_idle (hH : Answers H) {s : State} (hok : s.Ok) : ∃ s', Reach H s s' ∧ s'.Idle := by
  have hupto : ∀ n, ∃ s', Reach H s s' ∧ s'.ticks.length = s.ticks.length ∧
      ∀ (j : ℕ) (t : Tick), j < n → s'.ticks[j]? = some t → s'.Rests t := by
    intro n
    induction n with
    | zero => exact ⟨s, .refl s, rfl, fun j _ hj => absurd hj (Nat.not_lt_zero j)⟩
    | succ n ih =>
        obtain ⟨u, hsu, hlen, hrests⟩ := ih
        obtain ⟨v, huv, hlen', hother, hn⟩ := exists_rests hH (hsu.kept hok).ok n
        refine ⟨v, hsu.trans huv, hlen'.trans hlen, fun j t hj ht => ?_⟩
        rcases eq_or_ne j n with rfl | hne
        · exact hn t ht
        · refine (hrests j t (by omega) (hother j hne ▸ ht)).congr ?_
          exact (huv.kept (hsu.kept hok).ok).procs
  obtain ⟨s', hs', hlen, hrests⟩ := hupto s.ticks.length
  refine ⟨s', hs', fun t ht => ?_⟩
  obtain ⟨j, hj⟩ := List.mem_iff_getElem?.mp ht
  exact hrests j t (hlen ▸ (List.getElem?_eq_some_iff.mp hj).1) hj

/-! ### Pending rows are taken -/

/-- With no row locked, the query finds a pending row once its time has come. -/
theorem claimQuery_finds {T : Table} {i : String} {r : OutboxEvent} (hr : T.find? i = some r)
    (hp : r.status = .pending) :
    ∃ j ids, claimQuery.run outboxEventMapped T.ids r.nextRunAt [] T = .ok (j :: ids) := by
  have hmem : r ∈ (dueSorted T.ids r.nextRunAt T).filter fun r => r.id ∉ ([] : List String) := by
    obtain rfl := Table.find?_id hr
    refine List.mem_filter.mpr ⟨mem_dueSorted.mpr ⟨?_, hr, hp, le_refl _⟩, by simp⟩
    exact Table.mem_ids_iff.mpr ⟨r, hr⟩
  obtain ⟨q, l, hl⟩ := List.exists_cons_of_ne_nil (List.ne_nil_of_mem hmem)
  refine ⟨q.id, (l.take (batchSize - 1)).map (·.id), ?_⟩
  rw [claimQuery_run_mapped, hl]
  rfl

theorem commit_spends {s : State} (hok : s.Ok) {k p : ℕ} {now : DateTime} {i : String}
    {ids : List String} (hk : s.ticks[k]? = some ⟨p, .claiming now (i :: ids)⟩)
    (hne : s.procs p ≠ .exited) : ∃ s', Reach H s s' ∧ s'.table.budget < s.table.budget := by
  have hphase : Phase.step? H s.locked s.table (.claiming now (i :: ids)) (.commit s.table.ids) =
      some ((claimRows (i :: ids) s.table.ids s.table).1,
        .claimed (claimRows (i :: ids) s.table.ids s.table).2) := if_pos (List.Perm.refl _)
  have hspend := (Phase.step_of_step? hphase).commit_budget_lt
    (hok.phases _ (List.mem_of_getElem? hk)) rfl List.mem_cons_self
  have hs := step_tick hk (fun hex => absurd hex hne) hphase
  exact ⟨_, .single hs (calm_tick hk hne rfl), hspend⟩

/-- A tick that finds a pending row spends some of the budget. -/
theorem poll_spends {s : State} (hok : s.Ok) {k p : ℕ}
    (hk : s.ticks[k]? = some ⟨p, .polling⟩) (hne : s.procs p ≠ .exited) (hfree : s.locked = [])
    {i : String} {r : OutboxEvent} (hr : s.table.find? i = some r) (hpend : r.status = .pending) :
    ∃ s', Reach H s s' ∧ s'.table.budget < s.table.budget := by
  obtain ⟨j, ids, hq⟩ := claimQuery_finds hr hpend
  have hphase : Phase.step? H s.locked s.table .polling (.select r.nextRunAt s.table.ids) =
      some (s.table, .claiming r.nextRunAt (j :: ids)) := by
    have hord : s.table.ids.Nodup := s.table.nodup
    rw [Phase.step?, if_pos hord, hfree, hq]
  have hs := step_tick hk (fun hex => absurd hex hne) hphase
  have hr₁ : Reach H s _ := .single hs (calm_tick hk hne rfl)
  obtain ⟨s', hr₂, hspend⟩ := commit_spends (hr₁.kept hok).ok
    (List.getElem?_set_self (List.getElem?_eq_some_iff.mp hk).1) hne
  exact ⟨s', hr₁.trans hr₂, hspend⟩

/-- **One more tick.** While a row is `PENDING`, a tick spends some of the budget. -/
theorem claim_one (hH : Answers H) {s : State} (hok : s.Ok) (hidle : s.Idle) {p : ℕ}
    (hp : s.procs p = .running) {i : String} {r : OutboxEvent} (hr : s.table.find? i = some r)
    (hpend : r.status = .pending) :
    ∃ s', Reach H s s' ∧ s'.Idle ∧ s'.table.budget < s.table.budget := by
  have hne : s.procs p ≠ .exited := by simp [hp]
  let s₁ : State := { s with ticks := s.ticks ++ [⟨p, .polling⟩] }
  have hstart : (worker H).step s (.start p) = some s₁ := if_pos hp
  have hr₁ : Reach H s s₁ := .single hstart trivial
  have hlocked : s₁.locked = [] := by
    have hold : s.ticks.flatMap (·.phase.locks) = [] := hidle.locked
    show List.flatMap (fun t : Tick => t.phase.locks) (s.ticks ++ [_]) = []
    rw [List.flatMap_append, hold]
    rfl
  obtain ⟨s₂, hr₂, hlt⟩ := poll_spends (hr₁.kept hok).ok (k := s.ticks.length)
    List.getElem?_concat_length hne hlocked hr hpend
  have hr₁₂ := hr₁.trans hr₂
  obtain ⟨s₃, hr₃, hidle₃⟩ := exists_idle hH (hr₁₂.kept hok).ok
  exact ⟨s₃, hr₁₂.trans hr₃, hidle₃, (hr₃.kept (hr₁₂.kept hok).ok).budget.trans_lt hlt⟩

/-- Rows are taken until none is `PENDING`. -/
theorem exists_drained (hH : Answers H) {s : State} (hok : s.Ok) (hidle : s.Idle) {p : ℕ}
    (hp : s.procs p = .running) :
    ∃ s', Reach H s s' ∧ s'.Idle ∧ ∀ r ∈ s'.table.rows, r.status ≠ .pending := by
  generalize hn : s.table.budget = n
  induction n using Nat.strong_induction_on generalizing s with
  | _ n ih =>
      by_cases hall : ∃ r ∈ s.table.rows, r.status = .pending
      · obtain ⟨r, hr, hpend⟩ := hall
        obtain ⟨u, hsu, hidle', hlt⟩ := claim_one hH hok hidle hp (Table.find?_of_mem hr) hpend
        have hkept := hsu.kept hok
        obtain ⟨s', hus', hdone⟩ := ih _ (hn ▸ hlt) hkept.ok hidle' (hkept.procs ▸ hp) rfl
        exact ⟨s', hsu.trans hus', hdone⟩
      · exact ⟨s, .refl s, hidle, fun r hr hp => hall ⟨r, hr, hp⟩⟩

/-! ### Recovery -/

/-- Of the processes, only finitely many have done anything yet. -/
theorem exists_running {h : List (State × Action)} {s : State}
    (hr : (worker H).Run .init h s) : ∃ n, ∀ p, n ≤ p → s.procs p = .running := by
  refine hr.invariant (I := fun s => ∃ n, ∀ p, n ≤ p → s.procs p = .running)
    (fun t a v ht hs => ?_) ⟨0, fun _ _ => rfl⟩
  obtain ⟨n, hn⟩ := ht
  have hupdate : ∀ q st, ∃ m, ∀ p, m ≤ p → Function.update t.procs q st p = .running := by
    intro q st
    refine ⟨max n (q + 1), fun p hp => ?_⟩
    rw [Function.update_of_ne (by omega)]
    exact hn p (by omega)
  have hstep : State.Step H t a v := State.step_of_step? hs
  cases hstep with
  | insert | start | tick => exact ⟨n, hn⟩
  | signal | exit => exact hupdate _ _

/-- **Recovery.** From every reachable state, calm steps alone end all ticks and settle
every row that is not stranded; and a stranded row is settled by no steps whatsoever. -/
theorem recovery (hH : Answers H) {h : List (State × Action)} {s : State}
    (hr : (worker H).Run .init h s) :
    (∃ h' s', (worker H).Run s h' s' ∧ (∀ p ∈ h', Calm p.1 p.2) ∧
      (∀ t ∈ s'.ticks, ¬ s'.Running t) ∧
      ∀ r ∈ s'.table.rows, Stranded s r.id ∨ r.status = .done ∨ r.status = .failed) ∧
    ∀ i, Stranded s i → ∀ h' s', (worker H).Run s h' s' →
      Stranded s' i ∧ s'.table.find? i = s.table.find? i := by
  have hok := run_ok hr
  refine ⟨?_, fun i hi h' s' hr' => hi.forever hok hr'⟩
  obtain ⟨n, hn⟩ := exists_running hr
  obtain ⟨u, hsu, hidle⟩ := exists_idle hH hok
  have hkept := hsu.kept hok
  obtain ⟨s', hus', hidle', hnone⟩ :=
    exists_drained hH hkept.ok hidle (p := n) (hkept.procs ▸ hn n (le_refl n))
  have hss' := (hsu.trans hus').kept hok
  obtain ⟨h', hr', hcalm⟩ := hsu.trans hus'
  refine ⟨h', s', hr', hcalm, hidle'.not_running, fun r hrow => ?_⟩
  cases hst : r.status with
  | pending => exact absurd hst (hnone r hrow)
  | processing => exact .inl (hss'.stranded r.id (hidle'.stranded hrow hst))
  | done => exact .inr (.inl rfl)
  | failed => exact .inr (.inr rfl)

/-- The refused `markFailed` strands its row: a worker that fails no more settles the
others, and never this one. -/
theorem markFailedRefused_recovery :
    ∃ h s, (worker anyOutcome).Run .init h s ∧ allEnded .processing h s = true ∧
      (∃ h' s', (worker anyOutcome).Run s h' s' ∧ (∀ p ∈ h', Calm p.1 p.2) ∧
        (∀ t ∈ s'.ticks, ¬ s'.Running t) ∧
        ∀ r ∈ s'.table.rows, Stranded s r.id ∨ r.status = .done ∨ r.status = .failed) ∧
      ∀ i, Stranded s i → ∀ h' s', (worker anyOutcome).Run s h' s' →
        Stranded s' i ∧ s'.table.find? i = s.table.find? i := by
  obtain ⟨h, s, hr, hp⟩ := (worker anyOutcome).exists_run_of_exec markFailedRefused
    (allEnded .processing) (by decide)
  exact ⟨h, s, hr, hp, recovery (fun _ _ => ⟨.ok (), rfl⟩) hr⟩

end LoopzToken.Worker
