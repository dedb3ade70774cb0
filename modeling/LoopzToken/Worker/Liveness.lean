import LoopzToken.Worker.Quiet
import LoopzToken.Worker.Overtaking

/-!
# LoopzToken.Worker.Liveness

Every event is settled in the end. On an infinite run that gives no event up (`Live`), a row is
`DONE` or `FAILED` for good from some time on, exactly if it is not stranded (`settled_iff`).

What is left to show is that a row is not `PENDING` for ever. The query of a late tick sees
the row and finds it due; no claim is open on it, for such a claim is committed, or rolled
back if its process has exited. So the query locks the row or one as old, and the commit
that follows would be a write at a quiet time (`Quiet.not_pending`).
-/

namespace LoopzToken.Worker

open Lib Machine Filter

variable {H : Handlers} {π : (worker H).Path}

/-! ### `PENDING` rows -/

/-- Tick `k` is the open claim of a process that has exited. -/
def State.Abandoned (s : State) (k : ℕ) : Prop :=
  ∃ t, s.ticks[k]? = some t ∧ s.procs t.proc = .exited ∧ t.phase.locks ≠ []

theorem Phase.Step.locks_nil {locked : List String} {T T' : Table} {ph ph' : Phase}
    {a : TickAction} (h : ph.Step H locked T a T' ph') (ha : a.byDatabase = true) :
    ph'.locks = [] := by
  cases h <;> first | rfl | cases ha

/-- No claim is abandoned anew, and an abandoned one that moves is rolled back. -/
theorem State.Abandoned.before {s s' : State} {a : Action} (h : State.Step H s a s')
    (ho : Orderly s a) {k : ℕ} (hs : s'.Abandoned k) :
    s.Abandoned k ∧ ∀ b, a ≠ .tick k b := by
  obtain ⟨t, hk, hex, hlocks⟩ := hs
  cases h with
  | insert => exact ⟨⟨t, hk, hex, hlocks⟩, by simp⟩
  | @start p hp =>
      refine ⟨⟨t, ?_, hex, hlocks⟩, by simp⟩
      rcases Nat.lt_or_ge k s.ticks.length with hlt | hge
      · exact (List.getElem?_append_left hlt).symm.trans hk
      · rw [List.getElem?_append_right hge] at hk
        obtain rfl := List.mem_singleton.mp (List.mem_of_getElem? hk)
        exact absurd rfl hlocks
  | @tick i b u T ph hi halive hstep =>
      rcases eq_or_ne i k with rfl | hik
      · obtain rfl := Option.some.inj
          ((List.getElem?_set_self (List.getElem?_eq_some_iff.mp hi).1).symm.trans hk)
        exact absurd (hstep.locks_nil (halive hex)) hlocks
      · exact ⟨⟨t, (List.getElem?_set_ne hik).symm.trans hk, hex, hlocks⟩,
          fun c hc => hik (Action.tick.inj hc).1⟩
  | @signal p hp =>
      refine ⟨⟨t, hk, ?_, hlocks⟩, by simp⟩
      rcases eq_or_ne t.proc p with rfl | hne
      · simp [Function.update_self] at hex
      · exact (Function.update_of_ne hne ..).symm.trans hex
  | @exit p hp =>
      have hne : t.proc ≠ p := by
        intro heq
        rw [ho t (List.mem_of_getElem? hk) heq] at hlocks
        exact hlocks rfl
      exact ⟨⟨t, hk, (Function.update_of_ne hne ..).symm.trans hex, hlocks⟩, by simp⟩

theorem abandoned_zero (hlive : Live π) {n k : ℕ} (h : (π.state n).Abandoned k) :
    (π.state 0).Abandoned k := by
  induction n with
  | zero => exact h
  | succ n ih => exact ih (h.before (path_step π n) (hlive.orderly n)).1

/-- Every abandoned claim is rolled back. -/
theorem exists_not_abandoned (hlive : Live π) (k : ℕ) : ∃ n, ¬ (π.state n).Abandoned k := by
  by_contra hall
  push Not at hall
  obtain ⟨t, hk, hex, hlocks⟩ := hall 0
  have hrests : ¬ (π.state 0).Rests t := by
    rintro (hend | ⟨-, -, hnil⟩)
    · rw [hend] at hlocks
      exact hlocks rfl
    · exact hlocks hnil
  obtain ⟨m, -, a, ha⟩ := hlive.fair 0 k t hk hrests
  exact ((hall (m + 1)).before (path_step π m) (hlive.orderly m)).2 a ha

/-- **From some time on no claim is abandoned.** -/
theorem eventually_not_abandoned (hlive : Live π) :
    ∀ᶠ n in atTop, ∀ k, ¬ (π.state n).Abandoned k := by
  have hticks : ∀ᶠ n in atTop, ∀ k ∈ Finset.range (π.state 0).ticks.length,
      ¬ (π.state n).Abandoned k := by
    refine (eventually_all_finset _).mpr fun k _ =>
      eventually_of_stable (fun n hn hnext => ?_) (exists_not_abandoned hlive k)
    exact hn (hnext.before (path_step π n) (hlive.orderly n)).1
  refine hticks.mono fun n hn k hk => hn k ?_ hk
  obtain ⟨t, hzero, -⟩ := abandoned_zero hlive hk
  exact Finset.mem_range.mpr (List.getElem?_eq_some_iff.mp hzero).1

/-- The query of a claim locks the row, or a row as old, unless an open claim has it. -/
theorem claimQuery_older {order ids locked : List String} {now : DateTime} {T : Table}
    {i : String} {r : OutboxEvent}
    (hq : claimQuery.run outboxEventMapped order now locked T = .ok ids)
    (hr : T.find? i = some r) (hdue : r.Due now) (hi : i ∈ order) (hfree : i ∉ locked) :
    ∃ j ∈ ids, ∃ q, T.find? j = some q ∧ q.createdAt ≤ r.createdAt := by
  obtain rfl := Table.find?_id hr
  rw [claimQuery_run_mapped] at hq
  obtain rfl := Except.ok.inj hq
  have hmem : r ∈ freeSorted order now locked T :=
    List.mem_filter.mpr ⟨mem_dueSorted.mpr ⟨hi, hr, hdue⟩, by simpa using hfree⟩
  have hsorted := freeSorted_pairwise order now locked T
  obtain ⟨q, l, hl⟩ := List.exists_cons_of_ne_nil (List.ne_nil_of_mem hmem)
  have hq : q ∈ (freeSorted order now locked T).take batchSize := by
    rw [hl]
    exact List.mem_cons_self
  refine ⟨q.id, List.mem_map_of_mem hq, q, mem_batch hq, ?_⟩
  -- the first row of the sorted list is in the batch
  rw [hl] at hmem hsorted
  rcases List.mem_cons.mp hmem with rfl | hmem
  · exact le_refl _
  · exact List.rel_of_pairwise_cons hsorted hmem

/-- A timer that fires makes a query, in an orderly run. -/
theorem exists_query (hlive : Live π) (n : ℕ) : ∃ m, n ≤ m ∧ ∃ k t now order,
    (π.state m).ticks[k]? = some t ∧ t.phase = .polling ∧ (π.state m).procs t.proc ≠ .exited ∧
      π.label m = .tick k (.select now order) := by
  obtain ⟨j, hj, p, hp⟩ := frequently_atTop.mp hlive.fires n
  have hstart := path_step π j
  rw [hp] at hstart
  obtain ⟨hrun, hk⟩ : (π.state (j + 1)).procs p ≠ .exited ∧
      (π.state (j + 1)).ticks[(π.state j).ticks.length]? = some ⟨p, .polling⟩ := by
    generalize π.state (j + 1) = s' at hstart
    cases hstart with
    | start hrun => exact ⟨by simp [hrun], List.getElem?_concat_length⟩
  obtain ⟨m, hm, hk', hne, a, ha⟩ := hlive.next_move hk (by simp) hrun
  have hstep := path_step π m
  have hordered := hlive.orderly m
  rw [ha] at hstep hordered
  obtain ⟨-, -, ph, hph, -⟩ := hstep.tick_inv hk'
  obtain ⟨habort, -⟩ := (hordered _ hk').2 hne
  generalize (π.state (m + 1)).table = T at hph
  cases hph with
  | select => exact ⟨m, by omega, _, _, _, _, hk', rfl, hne, ha⟩
  | pollAbort => exact absurd rfl habort

/-- **A quiet row is not `PENDING`**: a late query finds it, and the claim that follows writes it
or a row as old. -/
theorem Quiet.not_pending (hok : ∀ n, (π.state n).Ok) (hlive : Live π) {c : DateTime} {N n : ℕ}
    (hq : Quiet π c N) (hn : N ≤ n) {i : String} {r : OutboxEvent}
    (hr : (π.state n).table.find? i = some r) (hc : r.createdAt ≤ c) : r.status ≠ .pending := by
  intro hp
  obtain ⟨K, hK⟩ := eventually_atTop.mp ((hlive.now_late r.nextRunAt).and
    ((hlive.seen n i (Table.mem_ids_iff.mpr ⟨r, hr⟩)).and (eventually_not_abandoned hlive)))
  obtain ⟨m, hm, k, t, now, order, hk, hpolling, hne, ha⟩ := exists_query hlive (max n K)
  have hnm : n ≤ m := (Nat.le_max_left ..).trans hm
  obtain ⟨hnow, hseen, habandoned⟩ := hK m ((Nat.le_max_right ..).trans hm)
  have hrow := hq.row hok hn hr hc hnm
  have hfree : i ∉ (π.state m).locked := by
    intro hlocked
    obtain ⟨u, hu, hi⟩ := List.mem_flatMap.mp hlocked
    obtain ⟨j, hj⟩ := List.mem_iff_getElem?.mp hu
    exact habandoned j
      ⟨u, hj, hq.not_claiming hok hlive (hn.trans hnm) hrow hc hj hi, List.ne_nil_of_mem hi⟩
  have hstep := path_step π m
  rw [ha] at hstep
  obtain ⟨-, hprocs, ph, hph, hk'⟩ := hstep.tick_inv hk
  rw [hpolling] at hph
  generalize hT : (π.state (m + 1)).table = T at hph
  cases hph with
  | @select now order ids hord hquery =>
      obtain ⟨j, hj, q, hfind, hage⟩ := claimQuery_older hquery hrow ⟨hp, hnow _ _ _ ha⟩
        (hseen _ _ _ ha) hfree
      have hex := hq.not_claiming hok hlive (hn.trans (Nat.le_succ_of_le hnm)) (hT ▸ hfind)
        (hage.trans hc) hk' hj
      exact hne (hprocs ▸ hex)

/-! ### A path -/

theorem not_rests_stay {s s' : State} {a : Action} (ho : Orderly s a) (h : State.Step H s a s')
    {k : ℕ} {t : Tick} (hk : s.ticks[k]? = some t) (hmove : ¬ ∃ b, a = .tick k b)
    (hrests : ¬ s.Rests t) : ¬ s'.Rests t := by
  rintro (hend | ⟨hex, hnil⟩)
  · exact hrests (.inl hend)
  · refine hrests (.inr ⟨?_, hnil⟩)
    by_contra hne
    exact (ho.stay h hk hmove).2 hne (fun hend => hrests (.inl hend)) hex

theorem State.Step.ids_subset {s s' : State} {a : Action} (h : State.Step H s a s') :
    s.table.ids ⊆ s'.table.ids := by
  intro i hi
  cases h with
  | @insert row T hnew hins =>
      obtain ⟨r, hr⟩ := Table.mem_ids_iff.mp hi
      refine Table.mem_ids_iff.mpr ?_
      show ∃ r, T.find? i = some r
      rw [(Table.insert_inv hins).2]
      split
      · exact ⟨_, rfl⟩
      · exact ⟨r, hr⟩
  | @tick k a t T ph hk halive hstep =>
      show i ∈ T.ids
      rwa [hstep.ids]
  | start | signal | exit => exact hi

/-- An orderly step in front of a live path. -/
theorem Live.cons (hlive : Live π) {s : State} {a : Action}
    (hs : (worker H).step s a = some (π.state 0)) (ho : Orderly s a) : Live (π.cons s a hs) where
  orderly n := by
    cases n with
    | zero => exact ho
    | succ n => exact hlive.orderly n
  fair n k t hk hrests := by
    cases n with
    | zero =>
        by_cases hmove : ∃ b, a = .tick k b
        · exact ⟨0, Nat.le_refl 0, hmove⟩
        · have hstep := State.step_of_step? hs
          obtain ⟨m, -, hm⟩ := hlive.fair 0 k t (ho.stay hstep hk hmove).1
            (not_rests_stay ho hstep hk hmove hrests)
          exact ⟨m + 1, Nat.zero_le _, hm⟩
    | succ n =>
        obtain ⟨m, hnm, hm⟩ := hlive.fair n k t hk hrests
        exact ⟨m + 1, Nat.succ_le_succ hnm, hm⟩
  fires := (Path.frequently_cons fun b : Action => ∃ p, b = .start p).mpr hlive.fires
  now_late d := (Path.eventually_cons fun b : Action =>
    ∀ k now order, b = .tick k (.select now order) → d ≤ now).mpr (hlive.now_late d)
  insert_late d := (Path.eventually_cons fun b : Action =>
    ∀ row, b = .insert row → d < row.createdAt).mpr (hlive.insert_late d)
  seen n i hi := by
    have hlater : i ∈ (π.state (n - 1)).table.ids := by
      cases n with
      | zero => exact (State.step_of_step? hs).ids_subset hi
      | succ n => exact hi
    exact (Path.eventually_cons fun b : Action =>
      ∀ k now order, b = .tick k (.select now order) → i ∈ order).mpr (hlive.seen _ i hlater)

/-- The steps of ticks, without an error of the database. -/
def Action.isCalm : Action → Bool
  | .start _ => true
  | .tick _ a => !a.isError
  | _ => false

theorem Action.calm {s : State} (hs : ∀ p, s.procs p ≠ .exited) {a : Action}
    (ha : a.isCalm = true) : Calm s a := by
  cases a with
  | start p => trivial
  | tick k b =>
      intro t _
      exact ⟨fun hex => absurd hex (hs _), fun _ => by simpa [Action.isCalm] using ha⟩
  | insert | signal | exit => cases ha

/-- Steps without errors in front of a live path. -/
theorem Live.prepend (hlive : Live π) (as : List Action) (s : State)
    (has : ∀ a ∈ as, a.isCalm = true) (hs : ∀ p, s.procs p ≠ .exited)
    (he : as.foldlM (worker H).step s = some (π.state 0)) :
    ∃ ρ : (worker H).Path, ρ.state 0 = s ∧ Live ρ ∧
      ((∀ n, (π.label n).isCalm = true) → ∀ n, (ρ.label n).isCalm = true) := by
  induction as generalizing s with
  | nil => exact ⟨π, (Option.some.inj he).symm, hlive, id⟩
  | cons a as ih =>
      obtain ⟨ha, has⟩ := List.forall_mem_cons.mp has
      obtain ⟨u, hu, he⟩ := Option.bind_eq_some_iff.mp he
      have hcalm := Action.calm hs ha
      have hprocs : u.procs = s.procs := by
        have hstep : State.Step H s a u := State.step_of_step? hu
        cases hstep with
        | start | tick => rfl
        | insert | signal | exit => cases ha
      obtain ⟨ρ, rfl, hρ, hlabels⟩ := ih u has (hprocs ▸ hs) he
      refine ⟨ρ.cons s a hu, rfl, hρ.cons hu hcalm.orderly, fun hπ n => ?_⟩
      cases n with
      | zero => exact ha
      | succ n => exact hlabels hπ n

/-- Row `a`, as it is inserted and as it is marked. -/
def pendingTable : Table := ⟨[freshRow "a"], List.nodup_singleton _⟩
def doneTable : Table := ⟨[(markDone 7).apply (freshRow "a").claimed], List.nodup_singleton _⟩

/-- The step `j` of a tick that finds nothing to do. -/
def idlePhase (q : ℕ) : ℕ → List Phase
  | 0 => []
  | 1 => [.polling]
  | 2 => [.claiming q []]
  | 3 => [.claimed []]
  | _ => [.looping []]

def idleAction (q : ℕ) : ℕ → Action
  | 0 => .start 0
  | 1 => .tick (q + 1) (.select q ["a"])
  | 2 => .tick (q + 1) (.commit ["a"])
  | 3 => .tick (q + 1) .claimReturned
  | _ => .tick (q + 1) .next

def idleState (q j : ℕ) : State where
  table := doneTable
  procs := fun _ => .running
  ticks := List.replicate (q + 1) ⟨0, .ended⟩ ++ (idlePhase q j).map (Tick.mk 0)

theorem step_last {T T' : Table} {ts : List Tick} {ph ph' : Phase} {a : TickAction}
    (h : ∀ locked, ph.step? H locked T a = some (T', ph')) :
    (worker H).step ⟨T, fun _ => .running, ts ++ [⟨0, ph⟩]⟩ (.tick ts.length a) =
      some ⟨T', fun _ => .running, ts ++ [⟨0, ph'⟩]⟩ := by
  refine (step_tick (t := ⟨0, ph⟩) List.getElem?_concat_length (fun hex => by cases hex)
    (h _)).trans ?_
  simp

theorem idleState_succ (q : ℕ) :
    idleState (q + 1) 0 = ⟨doneTable, fun _ => .running,
      List.replicate (q + 1) ⟨0, .ended⟩ ++ [⟨0, .ended⟩]⟩ := by
  simp [idleState, idlePhase, List.replicate_succ']

theorem idle_query (q : ℕ) (locked : List String) :
    Phase.step? H locked doneTable .polling (.select q ["a"]) =
      some (doneTable, .claiming q []) := by
  have hnone : dueSorted ["a"] (q : ℤ) doneTable = [] := by
    refine List.eq_nil_iff_forall_not_mem.mpr fun r hr => ?_
    obtain ⟨-, hfind, hpend, -⟩ := mem_dueSorted.mp hr
    obtain rfl := List.mem_singleton.mp (Table.mem_of_find? hfind)
    cases hpend
  rw [Phase.step?, if_pos (List.nodup_singleton _), claimQuery_run_mapped, hnone]
  rfl

theorem idle_step (q j : ℕ) (hj : j < 4) :
    (worker H).step (idleState q j) (idleAction q j) = some (idleState q (j + 1)) := by
  have hlen : (List.replicate (q + 1) (⟨0, .ended⟩ : Tick)).length = q + 1 := List.length_replicate
  have hlast := @step_last H doneTable doneTable (List.replicate (q + 1) (⟨0, .ended⟩ : Tick))
  rw [hlen] at hlast
  match j, hj with
  | 0, _ => simp [worker, State.step?, idleState, idleAction, idlePhase]
  | 1, _ => exact hlast (idle_query q)
  | 2, _ => exact hlast fun _ => rfl
  | 3, _ => exact hlast fun _ => rfl

theorem idle_step_last (q : ℕ) :
    (worker H).step (idleState q 4) (idleAction q 4) = some (idleState (q + 1) 0) := by
  have hlast := @step_last H doneTable doneTable (List.replicate (q + 1) (⟨0, .ended⟩ : Tick))
    (.looping []) .ended .next fun _ => rfl
  rw [List.length_replicate] at hlast
  rw [idleState_succ]
  exact hlast

/-- The worker polls for ever and finds nothing to do. -/
def idlePath (H : Handlers) : (worker H).Path where
  state n := idleState (n / 5) (n % 5)
  label n := idleAction (n / 5) (n % 5)
  step n := by
    rcases Nat.lt_or_ge (n % 5) 4 with hlt | hge
    · rw [show (n + 1) / 5 = n / 5 by omega, show (n + 1) % 5 = n % 5 + 1 by omega]
      exact idle_step _ _ hlt
    · rw [show (n + 1) / 5 = n / 5 + 1 by omega, show (n + 1) % 5 = 0 by omega,
        show n % 5 = 4 by omega]
      exact idle_step_last _

theorem idleAction_calm (q j : ℕ) : (idleAction q j).isCalm = true := by
  unfold idleAction
  split <;> rfl

theorem idleAction_select {q j k : ℕ} {now : DateTime} {order : List String}
    (h : idleAction q j = .tick k (.select now order)) : now = q ∧ order = ["a"] := by
  unfold idleAction at h
  split at h
  all_goals simp_all

theorem idleState_moves {q j k : ℕ} {t : Tick} (hk : (idleState q j).ticks[k]? = some t)
    (hend : t.phase ≠ .ended) : ∃ a, idleAction q j = .tick k a := by
  rw [idleState] at hk
  rcases Nat.lt_or_ge k (q + 1) with hlt | hge
  · rw [List.getElem?_append_left (by simpa using hlt)] at hk
    obtain ⟨-, rfl⟩ := List.mem_replicate.mp (List.mem_of_getElem? hk)
    exact absurd rfl hend
  · rw [List.getElem?_append_right (by simpa using hge), List.length_replicate] at hk
    have hlast : k - (q + 1) < (idlePhase q j).length := by
      simpa using (List.getElem?_eq_some_iff.mp hk).1
    unfold idlePhase at hlast
    unfold idleAction
    split at hlast
    · simp at hlast
    all_goals
      obtain rfl : k = q + 1 := by simp at hlast; omega
      exact ⟨_, rfl⟩

theorem idlePath_live (H : Handlers) : Live (idlePath H) where
  orderly n := (Action.calm (fun _ => by simp [idlePath, idleState]) (idleAction_calm ..)).orderly
  fair n k t hk hrests := by
    exact ⟨n, Nat.le_refl n, idleState_moves hk fun hend => hrests (.inl hend)⟩
  fires := by
    refine frequently_atTop.mpr fun n => ⟨5 * n, by omega, 0, ?_⟩
    show idleAction (5 * n / 5) (5 * n % 5) = .start 0
    rw [show 5 * n % 5 = 0 by omega]
    rfl
  now_late d := by
    refine eventually_atTop.mpr ⟨5 * d.toNat, fun n hn k now order h => ?_⟩
    obtain ⟨hnow, -⟩ := idleAction_select (q := n / 5) (j := n % 5) h
    have hle : d.toNat ≤ n / 5 := by omega
    rw [hnow]
    exact (Int.self_le_toNat d).trans (Int.ofNat_le.mpr hle)
  insert_late d := by
    refine Eventually.of_forall fun n row h => ?_
    have hcalm := idleAction_calm (n / 5) (n % 5)
    rw [show idleAction (n / 5) (n % 5) = .insert row from h] at hcalm
    cases hcalm
  seen n i hi := by
    refine Eventually.of_forall fun m k now order h => ?_
    obtain ⟨-, rfl⟩ := idleAction_select h
    exact hi

/-- The first tick handles row `a`. -/
def handleA : List Action :=
  [.start 0, .tick 0 (.select 0 ["a"]), .tick 0 (.commit ["a"]), .tick 0 .claimReturned,
   .tick 0 .next, .tick 0 (.handlerReturned 7), .tick 0 .applyWrite, .tick 0 .writeReturned,
   .tick 0 .next]

/-! ### Settling -/

theorem not_stranded_later (hok : ∀ n, (π.state n).Ok) (hlive : Live π) {n : ℕ} {i : String}
    (hs : ¬ Stranded (π.state n) i) {m : ℕ} (hm : n ≤ m) : ¬ Stranded (π.state m) i := by
  induction m, hm using Nat.le_induction with
  | base => exact hs
  | succ m hm ih => exact fun h => ih (h.of_orderly (hok m) (path_step π m) (hlive.orderly m))

theorem stranded_later (hok : ∀ n, (π.state n).Ok) {n : ℕ} {i : String}
    (hs : Stranded (π.state n) i) {m : ℕ} (hm : n ≤ m) : Stranded (π.state m) i := by
  induction m, hm using Nat.le_induction with
  | base => exact hs
  | succ m hm ih => exact (ih.step (hok m) (path_step π m)).1

/-- A row stays in the table, and keeps its age. -/
theorem row_later (hok : ∀ n, (π.state n).Ok) {n : ℕ} {i : String} {r : OutboxEvent}
    (hr : (π.state n).table.find? i = some r) {m : ℕ} (hm : n ≤ m) :
    ∃ q, (π.state m).table.find? i = some q ∧ q.createdAt = r.createdAt := by
  induction m, hm using Nat.le_induction with
  | base => exact ⟨r, hr, rfl⟩
  | succ m hm ih =>
      obtain ⟨q, hq, hage⟩ := ih
      have hrow := (hok m).row (path_step π m) i
      rw [hq] at hrow
      obtain ⟨q', hq', hage'⟩ := hrow.createdAt
      exact ⟨q', hq', hage'.trans hage⟩

/-- A row that is not stranded is settled in the end. -/
theorem exists_settled (hok : ∀ n, (π.state n).Ok) (hlive : Live π) {n : ℕ} {i : String}
    {r : OutboxEvent} (hrow : (π.state n).table.find? i = some r)
    (hs : ¬ Stranded (π.state n) i) :
    ∃ q, (q.status = .done ∨ q.status = .failed) ∧
      ∀ᶠ m in atTop, (π.state m).table.find? i = some q := by
  obtain ⟨N, hquiet, hn⟩ :=
    ((exists_quiet hok hlive r.createdAt).and (eventually_ge_atTop n)).exists
  obtain ⟨q, hq, hage⟩ := row_later hok hrow hn
  refine ⟨q, ?_, eventually_atTop.mpr
    ⟨N, fun m hm => hquiet.row hok (Nat.le_refl N) hq hage.le hm⟩⟩
  cases hst : q.status with
  | pending =>
      exact absurd hst (hquiet.not_pending hok hlive (Nat.le_refl N) hq hage.le)
  | processing =>
      exact absurd (hquiet.stranded hok hlive (Nat.le_refl N) hq hage.le hst)
        (not_stranded_later hok hlive hs hn)
  | done => exact .inl rfl
  | failed => exact .inr rfl

/-- **Every event is settled in the end.** On every infinite run of any number of workers, from
any reachable state, that gives no event up, on which ticks are fair and a timer goes on
firing: a row that is in the table at some time is `DONE` or `FAILED` for good from some time
on, if and only if it is not stranded. Younger rows that keep arriving cannot prevent it. -/
theorem settled_iff {h : List (State × Action)} (hr : (worker H).Run .init h (π.state 0))
    (hlive : Live π) (n : ℕ) {i : String} (hi : i ∈ (π.state n).table.ids) :
    (∃ r, (r.status = .done ∨ r.status = .failed) ∧
        ∀ᶠ m in atTop, (π.state m).table.find? i = some r) ↔ ¬ Stranded (π.state n) i := by
  have hok := path_ok (run_ok hr)
  obtain ⟨r, hrow⟩ := Table.mem_ids_iff.mp hi
  constructor
  · intro hsettled hs
    obtain ⟨q, hq, hlater⟩ := hsettled
    obtain ⟨m, hm, hfind⟩ := (hlater.and (eventually_ge_atTop n)).exists.imp fun m h => h.symm
    obtain ⟨p, hp, hst⟩ := (stranded_later hok hs hm).processing
    obtain rfl := Option.some.inj (hfind.symm.trans hp)
    rcases hq with hq | hq <;> exact absurd (hq.symm.trans hst) (by decide)
  · exact exists_settled hok hlive hrow

theorem handleA_settled :
    ∃ π : (worker anyOutcome).Path, π.state 0 = ⟨pendingTable, fun _ => .running, []⟩ ∧ Live π ∧
      ∃ r, (r.status = .done ∨ r.status = .failed) ∧
        ∀ᶠ m in atTop, (π.state m).table.find? "a" = some r := by
  obtain ⟨π, h0, hlive, -⟩ := (idlePath_live anyOutcome).prepend handleA
    ⟨pendingTable, fun _ => .running, []⟩ (by decide) (by simp) rfl
  have hr : (worker anyOutcome).Run .init [(.init, .insert (freshRow "a"))] (π.state 0) := by
    rw [h0]
    exact .step .refl rfl
  have hfree : ¬ Stranded (π.state 0) "a" := by
    rintro ⟨⟨r, hr, hp⟩, -⟩
    rw [h0] at hr
    obtain rfl := List.mem_singleton.mp (Table.mem_of_find? hr)
    cases hp
  refine ⟨π, h0, hlive, (settled_iff hr hlive 0 ?_).mpr hfree⟩
  rw [h0]
  exact List.mem_singleton_self _

end LoopzToken.Worker
