import LoopzToken.Worker.Termination

/-!
# LoopzToken.Worker.Diamond

Ticks interfere in one place only, the `SELECT … FOR UPDATE SKIP LOCKED`: what it returns
depends on what the other ticks have locked and written. Every other step of a tick reads
and writes rows that the tick owns (`Phase.Step.locally`), so once two ticks have their
rows, the order in which they move makes no difference (`ticks_commute`).
-/

namespace LoopzToken.Worker

open Lib Machine

variable {H : Handlers}

/-! ### Tables, row by row -/

theorem Table.scan_ids (T : Table) : T.scan T.ids = T.rows := by
  rw [Table.scan, Table.ids, List.filterMap_map]
  conv_rhs => rw [← List.filterMap_some (l := T.rows)]
  exact List.filterMap_congr fun r hr => Table.find?_of_mem hr

/-- A table is its ids and the row of each. -/
theorem Table.ext_find? {T U : Table} (hids : T.ids = U.ids) (h : ∀ i, T.find? i = U.find? i) :
    T = U := by
  have hrows : T.rows = U.rows := by
    rw [← T.scan_ids, ← U.scan_ids, hids, Table.scan, Table.scan]
    exact List.filterMap_congr fun i _ => h i
  cases T
  cases U
  cases hrows
  rfl

theorem Table.ids_updateWhere (T : Table) (p : String → Bool) (u : OutboxUpdate) :
    (T.updateWhere p u).ids = T.ids := by
  rw [Table.ids, Table.updateWhere, List.map_map, Table.ids]
  refine List.map_congr_left fun r _ => ?_
  by_cases h : p r.id <;> simp [h]

theorem ids_claimRows (ids order : List String) (T : Table) :
    (claimRows ids order T).1.ids = T.ids := by
  rw [claimRows]
  split
  · rfl
  · exact T.ids_updateWhere _ _

/-- Reading rows again depends on these rows only. -/
theorem Table.findMany_congr {T U : Table} {is : List String} (order : List String)
    (h : ∀ i ∈ is, U.find? i = T.find? i) : U.findMany is order = T.findMany is order := by
  have hself : ∀ V : Table, V.findMany is order =
      (order.filter (is.contains ·)).filterMap V.find? := by
    intro V
    rw [Table.findMany, Table.scan]
    induction order with
    | nil => rfl
    | cons i order ih =>
        cases hi : V.find? i with
        | none =>
            rw [List.filterMap_cons_none hi, ih]
            by_cases hc : is.contains i = true
            · rw [List.filter_cons_of_pos hc, List.filterMap_cons_none hi]
            · rw [List.filter_cons_of_neg hc]
        | some r =>
            obtain rfl := Table.find?_id hi
            rw [List.filterMap_cons_some hi]
            by_cases hc : is.contains r.id = true
            · rw [List.filter_cons_of_pos (p := fun r : OutboxEvent => is.contains r.id) hc,
                List.filter_cons_of_pos hc, List.filterMap_cons_some hi, ih]
            · rw [List.filter_cons_of_neg (p := fun r : OutboxEvent => is.contains r.id) hc,
                List.filter_cons_of_neg hc, ih]
  rw [hself, hself]
  refine List.filterMap_congr fun i hi => h i ?_
  simpa using (List.mem_filter.mp hi).2

theorem claimRows_congr {T U : Table} {ids : List String} (order : List String)
    (h : ∀ i ∈ ids, U.find? i = T.find? i) :
    (claimRows ids order U).2 = (claimRows ids order T).2 := by
  rw [claimRows, claimRows]
  split
  · rfl
  · refine Table.findMany_congr order fun i hi => ?_
    rw [Table.find?_updateMany, Table.find?_updateMany, if_pos hi, if_pos hi, h i hi]

/-! ### Steps are local -/

/-- The step that reads what other ticks do. -/
def TickAction.isSelect : TickAction → Bool
  | .select _ _ => true
  | _ => false

/-- The table after a step that was taken from `U` in place of `T`. -/
structure Local (owned : List String) (T' U U' : Table) : Prop where
  ids : U'.ids = U.ids
  find? : ∀ i, U'.find? i = if i ∈ owned then T'.find? i else U.find? i

theorem Local.quiet {owned : List String} {T U : Table}
    (h : ∀ i ∈ owned, U.find? i = T.find? i) : Local owned T U U := by
  refine ⟨rfl, fun i => ?_⟩
  split
  · rename_i hi
    exact h i hi
  · rfl

theorem Local.update {owned : List String} {T U : Table} {i : String} (u : OutboxUpdate)
    (hi : i ∈ owned) (h : ∀ i ∈ owned, U.find? i = T.find? i) :
    Local owned (T.update i u) U (U.update i u) := by
  refine ⟨U.ids_updateWhere _ _, fun j => ?_⟩
  rw [Table.find?_update, Table.find?_update]
  by_cases hj : j ∈ owned
  · rw [if_pos hj, h j hj]
  · have hne : j ≠ i := by
      intro heq
      exact hj (heq ▸ hi)
    rw [if_neg hj, if_neg hne]

/-- **A step looks at its own rows only**: from another table that agrees on them, the
tick makes the same step, to the same program point and with the same effect on them. -/
theorem Phase.Step.locally {locked locked' : List String} {T T' U : Table} {ph ph' : Phase}
    {a : TickAction} (h : ph.Step H locked T a T' ph') (hsel : a.isSelect = false)
    (hids : U.ids = T.ids) (hrows : ∀ i ∈ ph.busy, U.find? i = T.find? i)
    (hfree : ∀ i, ph.writing = some i → i ∉ locked') :
    ∃ U', ph.step? H locked' U a = some (U', ph') ∧ Local ph.busy T' U U' := by
  cases h with
  | select => cases hsel
  | @commit now ids order hord =>
      have hrows : ∀ i ∈ ids, U.find? i = T.find? i := hrows
      refine ⟨(claimRows ids order U).1, ?_, ?_, fun i => ?_⟩
      · rw [Phase.step?, if_pos (hids ▸ hord), claimRows_congr order hrows]
      · exact ids_claimRows ids order U
      · rw [claimRows_find?, claimRows_find?]
        by_cases hi : i ∈ ids
        · rw [if_pos hi, if_pos (show i ∈ (Phase.claiming now ids).busy from hi), if_pos hi,
            hrows i hi]
        · rw [if_neg hi, if_neg (show i ∉ (Phase.claiming now ids).busy from hi)]
  | applyDone hf =>
      exact ⟨_, if_neg (hfree _ rfl), Local.update _ List.mem_cons_self hrows⟩
  | applyFailed hf =>
      exact ⟨_, if_neg (hfree _ rfl), Local.update _ List.mem_cons_self hrows⟩
  | handlerReturned hH => exact ⟨U, if_pos hH, .quiet hrows⟩
  | handlerThrew hH => exact ⟨U, if_pos hH, .quiet hrows⟩
  | @doneRejected e issued applied rest now message =>
      cases applied <;> exact ⟨U, rfl, .quiet hrows⟩
  | @failedRejected e issued error applied rest now message =>
      cases applied <;> exact ⟨U, rfl, .quiet hrows⟩
  | pollAbort | claimAbort | claimReturned | claimRejected | nextDone | nextEvent
  | doneReturned | failedReturned => exact ⟨U, rfl, .quiet hrows⟩

/-! ### Two ticks -/

/-- The ids of a table never change by a step of a tick. -/
theorem Phase.Step.ids {locked : List String} {T T' : Table} {ph ph' : Phase} {a : TickAction}
    (h : ph.Step H locked T a T' ph') : T'.ids = T.ids := by
  cases h with
  | commit => exact ids_claimRows ..
  | applyDone | applyFailed => exact T.ids_updateWhere _ _
  | _ => rfl

/-- Tick `i` makes a step that is not the `SELECT` of its claim. -/
def Free (i : ℕ) (a : Action) : Prop := ∃ b, a = .tick i b ∧ b.isSelect = false

/-- The two orders lead to the same table. -/
theorem Local.comm {owned₁ owned₂ : List String} {T T₁ T₂ U₁ U₂ : Table}
    (h₁ : Local owned₂ T₂ T₁ U₁) (h₂ : Local owned₁ T₁ T₂ U₂)
    (hids : T₁.ids = T.ids ∧ T₂.ids = T.ids)
    (hframe₁ : ∀ i, i ∉ owned₁ → T₁.find? i = T.find? i)
    (hframe₂ : ∀ i, i ∉ owned₂ → T₂.find? i = T.find? i)
    (hdisj : ∀ i ∈ owned₁, i ∉ owned₂) : U₁ = U₂ := by
  refine Table.ext_find? ?_ fun i => ?_
  · rw [h₁.ids, h₂.ids, hids.1, hids.2]
  · rw [h₁.find?, h₂.find?]
    by_cases hi₁ : i ∈ owned₁
    · rw [if_neg (hdisj i hi₁), if_pos hi₁]
    · rw [if_neg hi₁]
      by_cases hi₂ : i ∈ owned₂
      · rw [if_pos hi₂]
      · rw [if_neg hi₂, hframe₁ i hi₁, hframe₂ i hi₂]

theorem step_tick {s : State} {i : ℕ} {a : TickAction} {t : Tick} {T : Table} {ph : Phase}
    (hi : s.ticks[i]? = some t) (halive : s.procs t.proc = .exited → a.byDatabase = true)
    (h : t.phase.step? H s.locked s.table a = some (T, ph)) :
    (worker H).step s (.tick i a) =
      some { s with table := T, ticks := s.ticks.set i ⟨t.proc, ph⟩ } := by
  have hno : ¬ (s.procs t.proc = .exited ∧ a.byDatabase = false) := by
    intro hex
    rw [halive hex.1] at hex
    cases hex.2
  simp only [worker, State.step?, hi, if_neg hno, h, Option.map_some]

/-- **Two ticks are independent**, but for the `SELECT` of their claims. -/
theorem ticks_diamond {i j : ℕ} (hij : i ≠ j) :
    (worker H).Diamond State.Ok (Free i) (Free j) := by
  rintro s _ _ t u hok ⟨a, rfl, ha⟩ ⟨b, rfl, hb⟩ ht hu
  have htok := hok.step? ht
  have huok := hok.step? hu
  have hst : State.Step H s (.tick i a) t := State.step_of_step? ht
  have hsu : State.Step H s (.tick j b) u := State.step_of_step? hu
  cases hst with
  | @tick _ _ ti T₁ ph₁ hi halive₁ hstep₁ =>
      cases hsu with
      | @tick _ _ tj T₂ ph₂ hj halive₂ hstep₂ =>
          have hjt : (s.ticks.set i ⟨ti.proc, ph₁⟩)[j]? = some tj :=
            (List.getElem?_set_ne hij).trans hj
          have hiu : (s.ticks.set j ⟨tj.proc, ph₂⟩)[i]? = some ti :=
            (List.getElem?_set_ne hij.symm).trans hi
          obtain ⟨U₁, hU₁, hlocal₁⟩ := hstep₂.locally hb hstep₁.ids
            (hok.frame hi hstep₁ hj hij) fun k hk => htok.write_free hjt hk
          obtain ⟨U₂, hU₂, hlocal₂⟩ := hstep₁.locally ha hstep₂.ids
            (hok.frame hj hstep₂ hi hij.symm) fun k hk => huok.write_free hiu hk
          obtain rfl := hlocal₁.comm hlocal₂ ⟨hstep₁.ids, hstep₂.ids⟩
            (hok.effect hi hstep₁).frame (hok.effect hj hstep₂).frame
            fun k hk hk' => hij (owner_unique hok.exclusive hi hj hk hk')
          let t' : State := { s with table := T₁, ticks := s.ticks.set i ⟨ti.proc, ph₁⟩ }
          let u' : State := { s with table := T₂, ticks := s.ticks.set j ⟨tj.proc, ph₂⟩ }
          refine ⟨_, step_tick (s := t') hjt halive₂ hU₁,
            (step_tick (s := u') hiu halive₁ hU₂).trans ?_⟩
          rw [List.set_comm _ _ hij]

/-- **The order of two ticks does not matter.** From every reachable state: what two ticks
can each do on their own, the `SELECT` of a claim apart, they can do one after the other,
and both orders end in the same state. -/
theorem ticks_commute {h : List (State × Action)} {s t u : State}
    (hr : (worker H).Run .init h s) {i j : ℕ} (hij : i ≠ j) {as bs : List TickAction}
    (has : ∀ a ∈ as, a.isSelect = false) (hbs : ∀ b ∈ bs, b.isSelect = false)
    (ht : (as.map (Action.tick i)).foldlM (worker H).step s = some t)
    (hu : (bs.map (Action.tick j)).foldlM (worker H).step s = some u) :
    ∃ v, (bs.map (Action.tick j)).foldlM (worker H).step t = some v ∧
      (as.map (Action.tick i)).foldlM (worker H).step u = some v := by
  refine (ticks_diamond hij).lists (fun _ _ _ hok hs => hok.step? hs) (run_ok hr) ?_ ?_ ht hu
  · intro a ha
    obtain ⟨b, hb, rfl⟩ := List.mem_map.mp ha
    exact ⟨b, rfl, has b hb⟩
  · intro a ha
    obtain ⟨b, hb, rfl⟩ := List.mem_map.mp ha
    exact ⟨b, rfl, hbs b hb⟩

/-- Both ticks of `overlappingTicks` have their rows; the first records a failure, the
second a success. -/
theorem overlappingTicks_commute :
    ∃ h s t u, (worker anyOutcome).Run .init h s ∧
      ([.writeReturned, .next].map (Action.tick 0)).foldlM (worker anyOutcome).step s = some t ∧
      ([.handlerReturned 9, .applyWrite].map (Action.tick 1)).foldlM
        (worker anyOutcome).step s = some u ∧
      ∃ v, ([.handlerReturned 9, .applyWrite].map (Action.tick 1)).foldlM
          (worker anyOutcome).step t = some v ∧
        ([.writeReturned, .next].map (Action.tick 0)).foldlM
          (worker anyOutcome).step u = some v := by
  obtain ⟨h, s, hr, hp⟩ := (worker anyOutcome).exists_run_of_exec overlappingTicks
    (fun _ s =>
      (([.writeReturned, .next].map (Action.tick 0)).foldlM (worker anyOutcome).step s).isSome &&
      (([.handlerReturned 9, .applyWrite].map (Action.tick 1)).foldlM
        (worker anyOutcome).step s).isSome) (by decide)
  obtain ⟨ht, hu⟩ := Bool.and_eq_true_iff.mp hp
  obtain ⟨t, ht⟩ := Option.isSome_iff_exists.mp ht
  obtain ⟨u, hu⟩ := Option.isSome_iff_exists.mp hu
  exact ⟨h, s, t, u, hr, ht, hu,
    ticks_commute hr (by decide) (by decide) (by decide) ht hu⟩

end LoopzToken.Worker
