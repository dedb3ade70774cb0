import LoopzToken.Worker.Termination

/-!
# LoopzToken.Worker.Stranded

What is lost for good. A row is *stranded* when it is `PROCESSING` and nobody is left to
write it: the ticks that hold it belong to processes that have exited and have sent no
write for it. Nothing in the worker looks for such rows (there is no lease and no reaper),
so a stranded row never changes again (`Stranded.forever`).

Only a failure strands a row: an *orderly* step, which gives no event of a tick up, strands
none (`Stranded.of_orderly`). A *calm* step, with no error of the database and no exit, is one
of them.
-/

namespace LoopzToken.Worker

open Lib Machine

variable {H : Handlers}

/-! ### Stranded rows -/

/-- Row `i` is `PROCESSING`, and who holds it has exited without a write under way. -/
structure Stranded (s : State) (i : String) : Prop where
  processing : ∃ r, s.table.find? i = some r ∧ r.status = .processing
  holders : ∀ t ∈ s.ticks, i ∈ t.phase.holds →
    s.procs t.proc = .exited ∧ t.phase.writing ≠ some i

theorem RowStep.of_processing {ev : Option RowEvent} {r : OutboxEvent}
    {r' : Option OutboxEvent} (h : RowStep ev (some r) r') (hp : r.status = .processing) :
    (ev = none ∧ r' = some r) ∨ ∃ e, ev = some e ∧ e.isClaimed = false := by
  cases h with
  | quiet => exact .inl ⟨rfl, rfl⟩
  | claimed hr => exact absurd (hp.symm.trans hr.1) (by decide)
  | done | failed | reopened => exact .inr ⟨_, rfl, rfl⟩

/-- A status write comes from the tick that is writing. -/
theorem Phase.writing_of_rowEvent {i : String} {ph : Phase} {a : TickAction} {e : RowEvent}
    (h : ph.rowEvent i a = some e) (he : e.isClaimed = false) : ph.writing = some i := by
  unfold Phase.rowEvent at h
  split at h
  · split at h
    · cases h
      cases he
    · cases h
  · split at h
    · rename_i hi
      exact congrArg some hi
    · cases h
  · split at h
    · rename_i hi
      exact congrArg some hi
    · cases h
  · cases h

theorem Phase.holds_of_writing {ph : Phase} {i : String} (h : ph.writing = some i) :
    i ∈ ph.holds := by
  obtain ⟨hbusy, hlocks⟩ := Phase.busy_of_writing h
  rcases ph.busy_iff.mp hbusy with hi | hi
  · exact hi
  · rw [hlocks] at hi
    cases hi

/-- Once the database has done its part, no write of the tick is under way. -/
theorem Phase.Step.writing_none {locked : List String} {T T' : Table} {ph ph' : Phase}
    {a : TickAction} (h : ph.Step H locked T a T' ph') (ha : a.byDatabase = true) :
    ph'.writing = none := by
  cases h <;> first | rfl | cases ha

theorem Phase.Ok.locked_pending {T : Table} {ph : Phase} (hok : ph.Ok T) {i : String}
    (hi : i ∈ ph.locks) : ∃ r, T.find? i = some r ∧ r.status = .pending := by
  cases ph with
  | claiming now ids =>
      obtain ⟨r, hr, hdue⟩ := hok i hi
      exact ⟨r, hr, hdue.1⟩
  | _ => cases hi

/-- A tick that holds a `PROCESSING` row after its step held it before. -/
theorem State.Ok.held_before {s : State} (hok : s.Ok) {k : ℕ} {a : TickAction} {t : Tick}
    {T : Table} {ph : Phase} (hk : s.ticks[k]? = some t)
    (hstep : t.phase.Step H s.locked s.table a T ph) {i : String} {r : OutboxEvent}
    (hr : s.table.find? i = some r) (hp : r.status = .processing) (hi : i ∈ ph.holds) :
    i ∈ t.phase.holds := by
  have hnot : ∀ q, s.table.find? i = some q → q.status ≠ .pending := by
    intro q hq hpend
    obtain rfl := Option.some.inj (hr.symm.trans hq)
    exact absurd (hp.symm.trans hpend) (by decide)
  rcases (hok.effect hk hstep).owns i (ph.holds_subset_busy hi) with hbusy | ⟨-, q, hq, hpend⟩
  · rcases t.phase.busy_iff.mp hbusy with hi | hi
    · exact hi
    · obtain ⟨q, hq, hpend⟩ := Phase.Ok.locked_pending (hok.phases t (List.mem_of_getElem? hk)) hi
      exact absurd hpend (hnot q hq)
  · exact absurd hpend (hnot q hq)

/-- **No step moves a stranded row.** -/
theorem Stranded.step {s s' : State} {a : Action} (hok : s.Ok) (h : State.Step H s a s')
    {i : String} (hs : Stranded s i) :
    Stranded s' i ∧ s'.table.find? i = s.table.find? i := by
  obtain ⟨⟨r, hr, hp⟩, hholders⟩ := hs
  cases h with
  | @insert row T hnew hins =>
      obtain ⟨habs, hfind⟩ := Table.insert_inv hins
      have hsame : T.find? i = s.table.find? i := by
        rw [hfind, if_neg]
        intro heq
        subst heq
        exact absurd (hr.symm.trans habs) (by simp)
      exact ⟨⟨⟨r, hsame.trans hr, hp⟩, hholders⟩, hsame⟩
  | @start p hrun =>
      refine ⟨⟨⟨r, hr, hp⟩, fun t ht hi => ?_⟩, rfl⟩
      rcases List.mem_append.mp ht with ht | ht
      · exact hholders t ht hi
      · obtain rfl := List.mem_singleton.mp ht
        cases hi
  | @tick k a t T ph hk halive hstep =>
      have hmem := List.mem_of_getElem? hk
      have hsame : T.find? i = s.table.find? i := by
        have hrow := hstep.row (hok.phases t hmem) i
        rw [hr] at hrow ⊢
        rcases hrow.of_processing hp with ⟨-, hsame⟩ | ⟨e, hev, he⟩
        · exact hsame
        · have hw := Phase.writing_of_rowEvent hev he
          exact absurd hw (hholders t hmem (Phase.holds_of_writing hw)).2
      refine ⟨⟨⟨r, hsame.trans hr, hp⟩, fun u hu hi => ?_⟩, hsame⟩
      rcases mem_set_cases hu with rfl | ⟨j, -, hj⟩
      · obtain ⟨hex, -⟩ := hholders t hmem (hok.held_before hk hstep hr hp hi)
        refine ⟨hex, ?_⟩
        rw [hstep.writing_none (halive hex)]
        exact nofun
      · exact hholders u (List.mem_of_getElem? hj) hi
  | @signal p hrun =>
      refine ⟨⟨⟨r, hr, hp⟩, fun t ht hi => ?_⟩, rfl⟩
      obtain ⟨hex, hw⟩ := hholders t ht hi
      have hne : t.proc ≠ p := by
        intro heq
        subst heq
        exact absurd (hex.symm.trans hrun) (by decide)
      exact ⟨(Function.update_of_ne hne ..).trans hex, hw⟩
  | @exit p hrun =>
      refine ⟨⟨⟨r, hr, hp⟩, fun t ht hi => ?_⟩, rfl⟩
      obtain ⟨hex, hw⟩ := hholders t ht hi
      refine ⟨?_, hw⟩
      show Function.update s.procs p .exited t.proc = .exited
      rw [Function.update_apply]
      split
      · rfl
      · exact hex

theorem Stranded.forever {s s' : State} {i : String} {h : List (State × Action)}
    (hok : s.Ok) (hs : Stranded s i) (hr : (worker H).Run s h s') :
    Stranded s' i ∧ s'.table.find? i = s.table.find? i := by
  have hinv : s'.Ok ∧ Stranded s' i ∧ s'.table.find? i = s.table.find? i := by
    refine hr.invariant (I := fun u => u.Ok ∧ Stranded u i ∧ u.table.find? i = s.table.find? i)
      (fun u a v hu huv => ?_) ⟨hok, hs, rfl⟩
    obtain ⟨hst, hsame⟩ := hu.2.1.step hu.1 (State.step_of_step? huv)
    exact ⟨hu.1.step? huv, hst, hsame.trans hu.2.2⟩
  exact hinv.2

/-! ### Orderly steps -/

/-- A step that gives no event up. A process exits only between two ticks. A tick whose process
has not exited meets no error of the database, except in `markDone`; and for a process that
has exited, the database applies the writes it was sent and rolls back the claim. -/
def Orderly (s : State) : Action → Prop
  | .tick k a => ∀ t, s.ticks[k]? = some t →
      (s.procs t.proc = .exited → a.isCommit = false) ∧
        (s.procs t.proc ≠ .exited → a ≠ .abort ∧ t.phase.drops a = false)
  | .exit p => ∀ t ∈ s.ticks, t.proc = p → t.phase = .ended
  | _ => True

/-- A write that the database applies leaves no row `PROCESSING`. -/
theorem Phase.Step.applied {locked : List String} {T T' : Table} {ph ph' : Phase}
    {a : TickAction} (h : ph.Step H locked T a T' ph') (ha : a.byDatabase = true) {i : String}
    (hw : ph.writing = some i) {r : OutboxEvent} (hr : T'.find? i = some r) :
    r.status ≠ .processing := by
  cases h with
  | applyDone hfree =>
      obtain rfl := Option.some.inj hw
      rw [Table.find?_update, if_pos rfl] at hr
      obtain ⟨q, -, rfl⟩ := Option.map_eq_some_iff.mp hr
      simp [markDone_apply]
  | applyFailed hfree =>
      obtain rfl := Option.some.inj hw
      rw [Table.find?_update, if_pos rfl] at hr
      obtain ⟨q, -, rfl⟩ := Option.map_eq_some_iff.mp hr
      exact (markFailed_status_ne ..).1
  | _ => first | cases hw | cases ha

/-- An orderly step strands nothing. -/
theorem Stranded.of_orderly {s s' : State} {a : Action} (hok : s.Ok) (h : State.Step H s a s')
    (ho : Orderly s a) {i : String} (hs : Stranded s' i) : Stranded s i := by
  obtain ⟨⟨r, hr, hp⟩, hholders⟩ := hs
  cases h with
  | @insert row T hnew hins =>
      have hfind := (Table.insert_inv hins).2 i
      rw [show T.find? i = some r from hr] at hfind
      split at hfind
      · obtain rfl := Option.some.inj hfind
        exact absurd (hp.symm.trans hnew) (by decide)
      · exact ⟨⟨r, hfind.symm, hp⟩, hholders⟩
  | @start p hrun =>
      exact ⟨⟨r, hr, hp⟩, fun t ht => hholders t (List.mem_append_left _ ht)⟩
  | @signal p hrun =>
      refine ⟨⟨r, hr, hp⟩, fun t ht hi => ?_⟩
      obtain ⟨hex, hw⟩ := hholders t ht hi
      refine ⟨?_, hw⟩
      rcases eq_or_ne t.proc p with rfl | hne
      · simp [Function.update_self] at hex
      · exact (Function.update_of_ne hne ..).symm.trans hex
  | @exit p hrun =>
      refine ⟨⟨r, hr, hp⟩, fun t ht hi => ?_⟩
      obtain ⟨hex, hw⟩ := hholders t ht hi
      have hne : t.proc ≠ p := fun heq => Phase.ne_ended_of_holds hi (ho t ht heq)
      exact ⟨(Function.update_of_ne hne ..).symm.trans hex, hw⟩
  | @tick k a t T ph hk halive hstep =>
      obtain ⟨hexited, hrunning⟩ := ho t hk
      have hokt := hok.phases t (List.mem_of_getElem? hk)
      have hsame : s.table.find? i = some r := by
        by_contra hne
        -- the step has claimed the row, so its tick runs and holds it
        obtain ⟨hi, -, hc⟩ := hstep.becomes_processing hokt hr hp hne
        obtain ⟨hex, -⟩ := hholders _ (mem_set_self hk) hi
        exact absurd (hexited hex) (by simp [hc])
      refine ⟨⟨r, hsame, hp⟩, fun u hu hi => ?_⟩
      obtain ⟨j, hj⟩ := List.mem_iff_getElem?.mp hu
      by_cases hkj : k = j
      · subst hkj
        obtain rfl := Option.some.inj (hj.symm.trans hk)
        have hex : s.procs u.proc = .exited := by
          by_contra hex
          rcases hstep.holds hokt hi hr hp with hi' | ⟨hd, -⟩
          · exact hex (hholders _ (mem_set_self hk) hi').1
          · rw [(hrunning hex).2] at hd
            cases hd
        exact ⟨hex, fun hw => hstep.applied (halive hex) hw hr hp⟩
      · exact hholders u (mem_set_of_ne hj hkj) hi

/-! ### Calm steps -/

/-- A step without a new failure: no row is inserted and no process is stopped, a tick whose
process has not exited meets no error of the database, and for a process that has exited
the database only applies the writes it was sent and rolls back the claim. -/
def Calm (s : State) : Action → Prop
  | .start _ => True
  | .tick k a => ∀ t, s.ticks[k]? = some t →
      (s.procs t.proc = .exited → a.isCommit = false) ∧
        (s.procs t.proc ≠ .exited → a.isError = false)
  | _ => False

theorem Phase.drops_of_calm {ph : Phase} {a : TickAction} (h : a.isError = false) :
    ph.drops a = false := by
  unfold Phase.drops
  split
  · cases h
  · cases h
  · rfl

theorem Calm.orderly {s : State} {a : Action} (h : Calm s a) : Orderly s a := by
  cases a with
  | tick k a =>
      intro t hk
      obtain ⟨hexited, hrunning⟩ := h t hk
      refine ⟨hexited, fun hne => ⟨fun heq => ?_, Phase.drops_of_calm (hrunning hne)⟩⟩
      subst heq
      cases hrunning hne
  | exit p => exact h.elim
  | insert | start | signal => trivial

end LoopzToken.Worker
