import LoopzToken.Worker.Main

/-!
# LoopzToken.Worker.Ownership

The invariant everything else about the worker rests on: a claimed row is
**owned** by one tick until that tick's last write to it is applied, and while
it is owned only the owner changes it.

`Phase.busy` lists the rows a program point owns and `Phase.Ok` what the table
holds for them; `State.Ok` says every tick is `Ok` and no row is owned twice.
A tick step changes only rows the tick owns, and comes to own only pending rows
nobody has locked (`Phase.Step.effect`), so one tick's step cannot break another
tick's `Ok`.
-/

namespace LoopzToken.Worker

open Lib

variable {H : Handlers}

/-! ### Ownership -/

/-- The rows a tick owns at a program point: those it has locked or claimed and
still has a write to apply to. -/
def Phase.busy : Phase → List String
  | .polling => []
  | .claiming _ ids => ids
  | .claimed events => events.map (·.id)
  | .looping rest => rest.map (·.id)
  | .handling event rest => event.id :: rest.map (·.id)
  | .markingDone event _ _ rest => event.id :: rest.map (·.id)
  | .markingFailed event _ _ applied rest =>
      if applied then rest.map (·.id) else event.id :: rest.map (·.id)
  | .ended => []

/-- The table still holds the event exactly as the claim returned it. -/
def Held (T : Table) (e : OutboxEvent) : Prop :=
  T.find? e.id = some e ∧ e.status = .processing

/-- What `markFailed` finds in the row: the event as claimed, or, when it was
`markDone` that reported an error, possibly the row `markDone` left. -/
def AfterError (T : Table) (e : OutboxEvent) : Failure → Prop
  | .handler _ => T.find? e.id = some e
  | .database _ =>
      T.find? e.id = some e ∨ ∃ t, T.find? e.id = some ((markDone t).apply e)

/-- What the table holds for the rows a tick owns. -/
def Phase.Ok (T : Table) : Phase → Prop
  | .polling => True
  | .claiming now ids => ∀ i ∈ ids, ∃ r, T.find? i = some r ∧ r.Due now
  | .claimed events => ∀ e ∈ events, Held T e
  | .looping rest => ∀ e ∈ rest, Held T e
  | .handling event rest => Held T event ∧ ∀ e ∈ rest, Held T e
  | .markingDone event issued applied rest =>
      event.status = .processing ∧
        T.find? event.id = some (if applied then (markDone issued).apply event else event) ∧
        ∀ e ∈ rest, Held T e
  | .markingFailed event _ error applied rest =>
      event.status = .processing ∧ (applied = false → AfterError T event error) ∧
        ∀ e ∈ rest, Held T e
  | .ended => True

/-- Every tick finds the rows it owns as it left them, and no row has two
owners. -/
structure State.Ok (s : State) : Prop where
  phases : ∀ t ∈ s.ticks, t.phase.Ok s.table
  exclusive : (s.ticks.flatMap (·.phase.busy)).Nodup

/-! ### The writes -/

theorem markDone_apply (t : DateTime) (r : OutboxEvent) :
    (markDone t).apply r = { r with status := .done, doneAt := some t } := rfl

theorem markFailed_status (t : DateTime) (e r : OutboxEvent) (m : String) :
    ((markFailed t e m).apply r).status =
      if maxAttempts ≤ e.attempts + 1 then .failed else .pending := by
  unfold markFailed
  dsimp only
  split <;> rfl

@[simp] theorem markFailed_attempts (t : DateTime) (e r : OutboxEvent) (m : String) :
    ((markFailed t e m).apply r).attempts = e.attempts + 1 := by
  unfold markFailed
  dsimp only
  split <;> rfl

@[simp] theorem markFailed_doneAt (t : DateTime) (e r : OutboxEvent) (m : String) :
    ((markFailed t e m).apply r).doneAt = r.doneAt := by
  unfold markFailed
  dsimp only
  split <;> rfl

theorem markFailed_status_ne (t : DateTime) (e r : OutboxEvent) (m : String) :
    ((markFailed t e m).apply r).status ≠ .processing ∧
      ((markFailed t e m).apply r).status ≠ .done := by
  rw [markFailed_status]
  split <;> decide

/-! ### Claiming rows -/

theorem claimRows_find? {ids : List String} (order : List String) {T : Table} (i : String) :
    (claimRows ids order T).1.find? i =
      if i ∈ ids then (T.find? i).map OutboxEvent.claimed else T.find? i := by
  rw [claimRows]
  split
  · rename_i h
    simp [List.length_eq_zero_iff.mp h]
  · exact Table.find?_updateMany T ids claimUpdate i

/-- The claim returns the locked rows, each exactly once, as the table now
holds them. -/
theorem mem_claimRows {ids order : List String} {T : Table} (hord : order.Perm T.ids)
    (hids : ∀ i ∈ ids, ∃ r, T.find? i = some r) {e : OutboxEvent} :
    e ∈ (claimRows ids order T).2 ↔
      e.id ∈ ids ∧ (claimRows ids order T).1.find? e.id = some e := by
  rw [claimRows]
  split
  · rename_i h
    simp [List.length_eq_zero_iff.mp h]
  · rw [Table.mem_findMany]
    constructor
    · intro h
      obtain ⟨hi, -, hf⟩ := h
      exact ⟨hi, hf⟩
    · intro h
      obtain ⟨hi, hf⟩ := h
      exact ⟨hi, hord.mem_iff.mpr (Table.mem_ids_iff.mpr (hids _ hi)), hf⟩

theorem claimRows_ids_perm {ids order : List String} {T : Table} (hnd : ids.Nodup)
    (hord : order.Perm T.ids) (hids : ∀ i ∈ ids, ∃ r, T.find? i = some r) :
    ((claimRows ids order T).2.map (·.id)).Perm ids := by
  have hnd' : ((claimRows ids order T).2.map (·.id)).Nodup := by
    rw [claimRows]
    split
    · exact List.nodup_nil
    · exact Table.findMany_ids_nodup (hord.nodup_iff.mpr T.nodup)
  refine (List.perm_ext_iff_of_nodup hnd' hnd).mpr fun i => ?_
  simp only [List.mem_map, mem_claimRows hord hids]
  constructor
  · intro h
    obtain ⟨e, ⟨hi, -⟩, rfl⟩ := h
    exact hi
  · intro hi
    obtain ⟨r, hr⟩ := hids i hi
    obtain rfl := Table.find?_id hr
    refine ⟨r.claimed, ⟨hi, ?_⟩, rfl⟩
    rw [claimRows_find?, OutboxEvent.claimed_id, if_pos hi, hr, Option.map_some]

/-- Every claimed event is held: its row is `PROCESSING` and equal to it. -/
theorem claimRows_held {ids order : List String} {T : Table} (hord : order.Perm T.ids)
    (hids : ∀ i ∈ ids, ∃ r, T.find? i = some r) :
    ∀ e ∈ (claimRows ids order T).2, Held (claimRows ids order T).1 e := by
  intro e he
  obtain ⟨hi, hf⟩ := (mem_claimRows hord hids).mp he
  refine ⟨hf, ?_⟩
  rw [claimRows_find?, if_pos hi] at hf
  obtain ⟨r, -, rfl⟩ := Option.map_eq_some_iff.mp hf
  rfl

/-! ### Frames -/

theorem Held.congr {T T' : Table} {e : OutboxEvent} (h : T'.find? e.id = T.find? e.id)
    (he : Held T e) : Held T' e :=
  ⟨h.trans he.1, he.2⟩

theorem forall_held_congr {T T' : Table} {es : List OutboxEvent}
    (h : ∀ i ∈ es.map (·.id), T'.find? i = T.find? i) (hes : ∀ e ∈ es, Held T e) :
    ∀ e ∈ es, Held T' e :=
  fun e he => (hes e he).congr (h _ (List.mem_map_of_mem he))

/-- A phase is `Ok` as long as the rows it owns are left alone. -/
theorem Phase.Ok.congr {T T' : Table} {ph : Phase}
    (h : ∀ i ∈ ph.busy, T'.find? i = T.find? i) (hok : ph.Ok T) : ph.Ok T' := by
  cases ph with
  | polling => trivial
  | claiming now ids => exact fun i hi => by rw [h i hi]; exact hok i hi
  | claimed events => exact forall_held_congr h hok
  | looping rest => exact forall_held_congr h hok
  | handling event rest =>
      obtain ⟨he, hrest⟩ := List.forall_mem_cons.mp h
      exact ⟨hok.1.congr he, forall_held_congr hrest hok.2⟩
  | markingDone event issued applied rest =>
      obtain ⟨he, hrest⟩ := List.forall_mem_cons.mp h
      exact ⟨hok.1, he.trans hok.2.1, forall_held_congr hrest hok.2.2⟩
  | markingFailed event issued error applied rest =>
      cases applied with
      | true => exact ⟨hok.1, nofun, forall_held_congr h hok.2.2⟩
      | false =>
          obtain ⟨he, hrest⟩ := List.forall_mem_cons.mp h
          refine ⟨hok.1, fun _ => ?_, forall_held_congr hrest hok.2.2⟩
          have herr := hok.2.1 rfl
          cases error with
          | handler m => exact he.trans herr
          | database m =>
              exact herr.imp (he.trans ·) fun ⟨t, ht⟩ => ⟨t, he.trans ht⟩
  | ended => trivial

theorem AfterError.find? {T : Table} {e : OutboxEvent} {error : Failure}
    (h : AfterError T e error) :
    T.find? e.id = some e ∨ ∃ t, T.find? e.id = some ((markDone t).apply e) := by
  cases error with
  | handler m => exact .inl h
  | database m => exact h

/-- A row a tick owns is in the table. It is pending exactly while it is only
locked. -/
theorem Phase.Ok.busy_row {T : Table} {ph : Phase} (hok : ph.Ok T) {i : String}
    (hi : i ∈ ph.busy) :
    ∃ r, T.find? i = some r ∧ (r.status = .pending → i ∈ ph.locks) := by
  have held : ∀ {es : List OutboxEvent}, (∀ e ∈ es, Held T e) → i ∈ es.map (·.id) →
      ∃ r, T.find? i = some r ∧ (r.status = .pending → i ∈ ph.locks) := by
    intro es hes hmem
    obtain ⟨e, he, rfl⟩ := List.mem_map.mp hmem
    exact ⟨e, (hes e he).1, fun hp => absurd (hp.symm.trans (hes e he).2) (by decide)⟩
  cases ph with
  | polling => cases hi
  | claiming now ids =>
      obtain ⟨r, hr, -⟩ := hok i hi
      exact ⟨r, hr, fun _ => hi⟩
  | claimed events => exact held hok hi
  | looping rest => exact held hok hi
  | handling event rest =>
      have hall : ∀ e ∈ event :: rest, Held T e := List.forall_mem_cons.mpr hok
      exact held hall hi
  | markingDone event issued applied rest =>
      rcases List.mem_cons.mp hi with rfl | hi
      · refine ⟨_, hok.2.1, fun hp => absurd hp ?_⟩
        cases applied <;> simp [markDone_apply, hok.1]
      · exact held hok.2.2 hi
  | markingFailed event issued error applied rest =>
      cases applied with
      | true => exact held hok.2.2 hi
      | false =>
          rcases List.mem_cons.mp hi with rfl | hi
          · rcases (hok.2.1 rfl).find? with h | ⟨t, h⟩
            · exact ⟨event, h, fun hp => absurd (hp.symm.trans hok.1) (by decide)⟩
            · exact ⟨_, h, fun hp => absurd hp (by simp [markDone_apply])⟩
          · exact held hok.2.2 hi
  | ended => cases hi

/-- The rows an open claim has locked are in the table. -/
theorem Phase.Ok.locked_rows {T : Table} {now : DateTime} {ids : List String}
    (hok : (Phase.claiming now ids).Ok T) : ∀ i ∈ ids, ∃ r, T.find? i = some r := by
  intro i hi
  obtain ⟨r, hr, -⟩ := hok i hi
  exact ⟨r, hr⟩

/-! ### What one step of a tick does -/

/-- The effect of a step on ownership: the tick stays `Ok`, leaves the rows it
does not own alone, and takes over only free pending rows. -/
structure Phase.Effect (locked : List String) (T : Table) (ph : Phase) (T' : Table)
    (ph' : Phase) : Prop where
  ok : ph'.Ok T'
  nodup : ph'.busy.Nodup
  frame : ∀ i, i ∉ ph.busy → T'.find? i = T.find? i
  owns : ∀ i ∈ ph'.busy, i ∈ ph.busy ∨
    (i ∉ locked ∧ ∃ r, T.find? i = some r ∧ r.status = .pending)

theorem Phase.Step.effect {locked : List String} {T T' : Table} {ph ph' : Phase}
    {a : TickAction} (h : ph.Step H locked T a T' ph') (hok : ph.Ok T)
    (hnd : ph.busy.Nodup) : Phase.Effect locked T ph T' ph' := by
  cases h with
  | select hord hq =>
      obtain ⟨hids, hrows⟩ := claimQuery_locks hord hq
      -- the only step by which a tick comes to own rows
      refine ⟨fun i hi => ?_, hids, fun _ _ => rfl, fun i hi => .inr ?_⟩
      · obtain ⟨-, r, hr, hdue⟩ := hrows i hi
        exact ⟨r, hr, hdue⟩
      · obtain ⟨hfree, r, hr, hdue⟩ := hrows i hi
        exact ⟨hfree, r, hr, hdue.1⟩
  | commit hord =>
      have hids := hok.locked_rows
      have hperm := claimRows_ids_perm hnd hord hids
      -- the events returned are the rows locked, so ownership stays as it was
      refine ⟨claimRows_held hord hids, hperm.nodup_iff.mpr hnd, fun i hi => ?_,
        fun i hi => .inl (hperm.mem_iff.mp hi)⟩
      rw [claimRows_find?]
      exact if_neg hi
  | applyDone hfree =>
      -- the write touches the row of its event, and no other event has that id
      refine ⟨⟨hok.1, ?_, ?_⟩, hnd, fun i hi => ?_, fun i hi => .inl hi⟩
      · exact Table.find?_update_self T _ hok.2.1
      · refine forall_held_congr (fun i hi => Table.find?_update_of_ne T _ ?_) hok.2.2
        exact fun he => (List.nodup_cons.mp hnd).1 (he ▸ hi)
      · exact Table.find?_update_of_ne T _ fun he => hi (he ▸ List.mem_cons_self ..)
  | applyFailed hfree =>
      -- with this write the tick gives the row up
      refine ⟨⟨hok.1, nofun, ?_⟩, (List.nodup_cons.mp hnd).2, fun i hi => ?_,
        fun i hi => .inl (List.mem_cons_of_mem _ hi)⟩
      · refine forall_held_congr (fun i hi => Table.find?_update_of_ne T _ ?_) hok.2.2
        exact fun he => (List.nodup_cons.mp hnd).1 (he ▸ hi)
      · exact Table.find?_update_of_ne T _ fun he => hi (he ▸ List.mem_cons_self ..)
  | handlerReturned => exact ⟨⟨hok.1.2, hok.1.1, hok.2⟩, hnd, fun _ _ => rfl, fun _ => .inl⟩
  | handlerThrew =>
      exact ⟨⟨hok.1.2, fun _ => hok.1.1, hok.2⟩, hnd, fun _ _ => rfl, fun _ => .inl⟩
  | nextEvent =>
      obtain ⟨he, hrest⟩ := List.forall_mem_cons.mp hok
      exact ⟨⟨he, hrest⟩, hnd, fun _ _ => rfl, fun _ => .inl⟩
  | doneReturned =>
      exact ⟨hok.2.2, (List.nodup_cons.mp hnd).2, fun _ _ => rfl,
        fun _ hi => .inl (List.mem_cons_of_mem _ hi)⟩
  | failedReturned => exact ⟨hok.2.2, hnd, fun _ _ => rfl, fun _ => .inl⟩
  | @doneRejected e issued applied rest now message =>
      refine ⟨⟨hok.1, fun _ => ?_, hok.2.2⟩, hnd, fun _ _ => rfl, fun _ => .inl⟩
      have hrow := hok.2.1
      cases applied with
      | false => exact .inl hrow
      | true => exact .inr ⟨issued, hrow⟩
  | claimReturned => exact ⟨hok, hnd, fun _ _ => rfl, fun _ => .inl⟩
  | pollAbort | claimAbort | claimRejected | nextDone | failedRejected =>
      exact ⟨trivial, List.nodup_nil, fun _ _ => rfl, fun _ hi => absurd hi List.not_mem_nil⟩

/-! ### The invariant over all runs -/

theorem State.ok_init : State.init.Ok :=
  ⟨fun _ ht => absurd ht List.not_mem_nil, List.nodup_nil⟩

/-- A pending row that somebody owns is locked. -/
theorem State.Ok.locked_of_busy {s : State} (hok : s.Ok) {i : String}
    (hi : i ∈ s.ticks.flatMap (·.phase.busy)) {r : OutboxEvent} (hr : s.table.find? i = some r)
    (hp : r.status = .pending) : i ∈ s.locked := by
  obtain ⟨t, ht, hit⟩ := List.mem_flatMap.mp hi
  obtain ⟨q, hq, hlock⟩ := (hok.phases t ht).busy_row hit
  obtain rfl := Option.some.inj (hr.symm.trans hq)
  exact List.mem_flatMap.mpr ⟨t, ht, hlock hp⟩

theorem State.Ok.effect {s : State} (hok : s.Ok) {i : ℕ} {a : TickAction} {t : Tick}
    {T : Table} {ph : Phase} (hi : s.ticks[i]? = some t)
    (hstep : t.phase.Step H s.locked s.table a T ph) :
    Phase.Effect s.locked s.table t.phase T ph :=
  hstep.effect (hok.phases t (List.mem_of_getElem? hi))
    (owns_nodup hok.exclusive (List.mem_of_getElem? hi))

/-- A step of tick `i` leaves the rows of every other tick alone. -/
theorem State.Ok.frame {s : State} (hok : s.Ok) {i j : ℕ} {a : TickAction} {t u : Tick}
    {T : Table} {ph : Phase} (hi : s.ticks[i]? = some t)
    (hstep : t.phase.Step H s.locked s.table a T ph) (hj : s.ticks[j]? = some u)
    (hij : i ≠ j) : ∀ k ∈ u.phase.busy, T.find? k = s.table.find? k := fun k hk =>
  (hok.effect hi hstep).frame k fun hk' => hij (owner_unique hok.exclusive hi hj hk' hk)

theorem State.Ok.step {s s' : State} {a : Action} (hok : s.Ok) (h : State.Step H s a s') :
    s'.Ok := by
  cases h with
  | insert hnew hins =>
      obtain ⟨habs, hfind⟩ := Table.insert_inv hins
      -- rows that are owned are in the table, and the new row was not
      refine ⟨fun t ht => (hok.phases t ht).congr fun i hi => ?_, hok.exclusive⟩
      obtain ⟨r, hr, -⟩ := (hok.phases t ht).busy_row hi
      rw [hfind, if_neg]
      intro heq
      subst heq
      exact absurd (hr.symm.trans habs) (by simp)
  | start hp =>
      refine ⟨fun t ht => ?_, by simpa [Phase.busy] using hok.exclusive⟩
      rcases List.mem_append.mp ht with ht | ht
      · exact hok.phases t ht
      · obtain rfl := List.mem_singleton.mp ht
        trivial
  | @tick i a t T ph hi halive hstep =>
      have heff := hok.effect hi hstep
      refine ⟨fun u hu => ?_, flatMap_set_nodup hi hok.exclusive heff.nodup fun k hk => ?_⟩
      · rcases mem_set_cases hu with rfl | ⟨j, hij, hj⟩
        · exact heff.ok
        -- another tick shares no row with tick `i`, so nothing of it has changed
        · exact (hok.phases u (List.mem_of_getElem? hj)).congr (hok.frame hi hstep hj hij)
      · rcases heff.owns k hk with hk | ⟨hfree, r, hr, hp⟩
        · exact .inl hk
        · exact .inr fun hk' => hfree (hok.locked_of_busy hk' hr hp)
  | signal hp => exact ⟨hok.phases, hok.exclusive⟩
  | exit hp => exact ⟨hok.phases, hok.exclusive⟩

theorem State.Ok.step? {s s' : State} {a : Action} (hok : s.Ok)
    (h : (worker H).step s a = some s') : s'.Ok :=
  hok.step (State.step_of_step? h)

theorem State.Ok.run {s u : State} {h : List (State × Action)} (hok : s.Ok)
    (hr : (worker H).Run s h u) : u.Ok :=
  hr.invariant (fun _ _ _ hok hs => hok.step? hs) hok

/-- Ownership is exclusive in every reachable state. -/
theorem run_ok {h : List (State × Action)} {s : State} (hr : (worker H).Run .init h s) :
    s.Ok :=
  State.ok_init.run hr

end LoopzToken.Worker
