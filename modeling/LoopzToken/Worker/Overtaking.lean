import Mathlib.Algebra.Order.BigOperators.Group.List
import Mathlib.Algebra.Order.Group.Nat
import LoopzToken.Worker.Order
import LoopzToken.Worker.Retry
import LoopzToken.Worker.Diamond

/-!
# LoopzToken.Worker.Overtaking

No event starves. A tick that finds a row free and does not take it has taken a full batch
of rows that are at least as old, for the query sorts by `created_at` before it cuts at
`BATCH_SIZE`. Each row is claimed at most `MAX_ATTEMPTS` times, so a row is passed over a
bounded number of times, however many younger rows arrive (`overtaken_le`). Only full
batches that are never committed do not count against the bound: those that were rolled
back, and those of the claims that are still open.
-/

namespace LoopzToken.Worker

open Lib Machine

variable {H : Handlers}

/-! ### Passing over -/

/-- The step `p` passes over row `i`: its query finds the row free, behind a full batch. -/
def passesOver (i : String) (p : State × Action) : Bool :=
  match p.2 with
  | .tick _ (.select now order) =>
      (((freeSorted order now p.1.locked p.1.table).drop batchSize).map (·.id)).contains i
  | _ => false

/-- The rows that are as old as `c`. -/
def Table.older (T : Table) (c : DateTime) : List String :=
  T.ids.filter fun i => (T.find? i).any fun r => r.createdAt ≤ c

/-- The tick has locked a full batch of rows that are as old as `c`. -/
def Phase.fullBatch (T : Table) (c : DateTime) : Phase → Bool
  | .claiming _ ids => ids.length = batchSize && ids.all fun i => (T.older c).contains i
  | _ => false

/-- The open claims of full batches. -/
def State.openBatches (s : State) (c : DateTime) : ℕ :=
  s.ticks.countP fun t => t.phase.fullBatch s.table c

/-- The step `p` rolls a full batch back. -/
def abortsBatch (c : DateTime) (p : State × Action) : Bool :=
  match p.2 with
  | .tick k .abort => (p.1.ticks[k]?).any fun t => t.phase.fullBatch p.1.table c
  | _ => false

/-- How often the rows that are as old as `c` have been claimed. -/
def claimsOlder (T : Table) (c : DateTime) (h : List (State × Action)) : ℕ :=
  ((T.older c).map fun i => h.countP (claims i)).sum

/-! ### The age of a row -/

/-- A step of a tick changes no age. -/
theorem Phase.Step.older {locked : List String} {T T' : Table} {ph ph' : Phase}
    {a : TickAction} (h : ph.Step H locked T a T' ph') (hok : ph.Ok T) (c : DateTime) :
    T'.older c = T.older c := by
  rw [Table.older, Table.older, h.ids]
  refine List.filter_congr fun i hi => ?_
  obtain ⟨r, hr⟩ := Table.mem_ids_iff.mp hi
  have hrow := h.row hok i
  rw [hr] at hrow
  obtain ⟨q, hq, hage⟩ := hrow.createdAt
  rw [hr, hq, Option.any_some, Option.any_some, hage]

/-! ### One step of a tick -/

theorem freeSorted_pairwise (order : List String) (now : DateTime) (locked : List String)
    (T : Table) :
    (freeSorted order now locked T).Pairwise fun a b => a.createdAt ≤ b.createdAt :=
  (dueSorted_pairwise order now T).filter _

/-- A row that is passed over stands behind a full batch of rows as old as itself. -/
theorem fullBatch_of_drop {order : List String} {now : DateTime} {locked : List String}
    {T : Table} {r : OutboxEvent} (hr : r ∈ (freeSorted order now locked T).drop batchSize) :
    (Phase.claiming now (((freeSorted order now locked T).take batchSize).map (·.id))).fullBatch
      T r.createdAt = true := by
  have hpair := freeSorted_pairwise order now locked T
  rw [← List.take_append_drop batchSize (freeSorted order now locked T),
    List.pairwise_append] at hpair
  have hlen : batchSize < (freeSorted order now locked T).length := by
    by_contra hle
    rw [List.drop_eq_nil_of_le (Nat.le_of_not_lt hle)] at hr
    cases hr
  simp only [Phase.fullBatch, Bool.and_eq_true, decide_eq_true_eq, List.all_eq_true,
    List.length_map, List.length_take, List.contains_iff_mem]
  refine ⟨by omega, fun i hi => ?_⟩
  obtain ⟨q, hq, rfl⟩ := List.mem_map.mp hi
  have hfind := mem_batch hq
  refine List.mem_filter.mpr ⟨Table.mem_ids_iff.mpr ⟨q, hfind⟩, ?_⟩
  rw [hfind]
  exact decide_eq_true (hpair.2.2 q hq r hr)

/-- A commit of a full batch claims as many of the older rows. -/
theorem batchSize_le_of_fullBatch {T : Table} {now c : DateTime} {ids : List String}
    (hnd : ids.Nodup) (h : (Phase.claiming now ids).fullBatch T c = true) :
    batchSize ≤ (T.older c).countP fun i => decide (i ∈ ids) := by
  simp only [Phase.fullBatch, Bool.and_eq_true, decide_eq_true_eq, List.all_eq_true,
    List.contains_iff_mem] at h
  obtain ⟨hlen, hall⟩ := h
  rw [List.countP_eq_length_filter, ← hlen]
  refine (List.subperm_of_subset hnd fun i hi => ?_).length_le
  exact List.mem_filter.mpr ⟨hall i hi, decide_eq_true hi⟩

theorem claims_commit {s : State} {k : ℕ} {t : Tick} {now : DateTime} {ids order : List String}
    (hk : s.ticks[k]? = some t) (hph : t.phase = .claiming now ids) (i : String) :
    claims i (s, .tick k (.commit order)) = decide (i ∈ ids) := by
  rw [claims, rowEvent_tick hk, hph, Phase.rowEvent]
  by_cases hi : i ∈ ids <;> simp [hi, RowEvent.isClaimed]

/-- **One step.** Passing over costs a full batch: it is open afterwards, or rolled back, or
its rows are claimed. -/
theorem Phase.Step.overtakes {s : State} {k : ℕ} {t : Tick} {a : TickAction} {T : Table}
    {ph : Phase} (hok : s.Ok) (hk : s.ticks[k]? = some t)
    (h : t.phase.Step H s.locked s.table a T ph) {i : String} {c : DateTime}
    (hc : ∀ r, s.table.find? i = some r → r.createdAt = c) :
    batchSize * ((passesOver i (s, .tick k a)).toNat + (t.phase.fullBatch s.table c).toNat) ≤
      batchSize * ((abortsBatch c (s, .tick k a)).toNat + (ph.fullBatch s.table c).toNat) +
        (s.table.older c).countP fun j => claims j (s, .tick k a) := by
  have hokt := hok.phases t (List.mem_of_getElem? hk)
  have hnd := owns_nodup hok.exclusive (List.mem_of_getElem? hk)
  generalize hph : t.phase = ph₀ at h hokt hnd
  cases h with
  | @select now order ids hord hq =>
      rw [claimQuery_run_mapped] at hq
      obtain rfl := Except.ok.inj hq
      cases hp : passesOver i (s, .tick k (.select now order)) with
      | false => simp [Phase.fullBatch]
      | true =>
          obtain ⟨r, hr, hri⟩ := List.mem_map.mp (List.contains_iff_mem.mp hp)
          have hrow : s.table.find? r.id = some r :=
            (mem_dueSorted.mp (List.mem_filter.mp (List.mem_of_mem_drop hr)).1).2.1
          have hfull := fullBatch_of_drop hr
          rw [hc r (hri ▸ hrow)] at hfull
          have hbatch : (Phase.claiming now (((freeSorted order now s.locked s.table).take
              batchSize).map (·.id))).fullBatch s.table c = true := hfull
          simp only [freeSorted] at hbatch
          rw [hbatch]
          exact (Nat.le_mul_of_pos_right _ (Nat.succ_pos _)).trans (Nat.le_add_right _ _)
  | @commit now ids order hord =>
      simp only [claims_commit hk hph]
      cases hfull : (Phase.claiming now ids).fullBatch s.table c with
      | false => simp [passesOver]
      | true =>
          have hnd : ids.Nodup := hnd
          have hle := batchSize_le_of_fullBatch hnd hfull
          simp only [passesOver, Bool.toNat_false, Bool.toNat_true]
          omega
  | @claimAbort now ids =>
      have haborts : abortsBatch c (s, .tick k .abort) =
          (Phase.claiming now ids).fullBatch s.table c := by
        simp only [abortsBatch, hk, Option.any_some, hph]
      have hended : Phase.ended.fullBatch s.table c = false := rfl
      rw [haborts, hended]
      simp [passesOver]
  | _ => simp [passesOver, Phase.fullBatch]

/-! ### Whole runs -/

/-- The bound, along a run. -/
def Overtaken (i : String) (c : DateTime) (h : List (State × Action)) (s : State) : Prop :=
  batchSize * h.countP (passesOver i) ≤
    batchSize * (h.countP (abortsBatch c) + s.openBatches c) + claimsOlder s.table c h

theorem Phase.fullBatch_congr {T T' : Table} {c : DateTime} (h : T'.older c = T.older c)
    (ph : Phase) : ph.fullBatch T' c = ph.fullBatch T c := by
  cases ph with
  | claiming now ids => rw [Phase.fullBatch, Phase.fullBatch, h]
  | _ => rfl

theorem claimsOlder_cons (T : Table) (c : DateTime) (p : State × Action)
    (h : List (State × Action)) :
    claimsOlder T c (p :: h) = claimsOlder T c h + (T.older c).countP fun i => claims i p :=
  sum_countP_cons claims (T.older c) p h

theorem Overtaken.tick {i : String} {c : DateTime} {h : List (State × Action)} {s s' : State}
    {k : ℕ} {a : TickAction} (hok : s.Ok) (hs : State.Step H s (.tick k a) s')
    (hc : ∀ r, s.table.find? i = some r → r.createdAt = c) (ho : Overtaken i c h s) :
    Overtaken i c ((s, .tick k a) :: h) s' := by
  cases hs with
  | @tick k a t T ph hk halive hstep =>
      have hbound := hstep.overtakes hok hk hc
      have hold := hstep.older (hok.phases t (List.mem_of_getElem? hk)) c
      have hopen := countP_set_toNat (b := (⟨t.proc, ph⟩ : Tick))
        (fun t : Tick => t.phase.fullBatch s.table c) hk
      have hopen' : State.openBatches { s with table := T, ticks := s.ticks.set k ⟨t.proc, ph⟩ } c =
          (s.ticks.set k ⟨t.proc, ph⟩).countP fun t => t.phase.fullBatch s.table c := by
        simp only [State.openBatches, Phase.fullBatch_congr hold]
      have hclaims : claimsOlder T c ((s, .tick k a) :: h) = claimsOlder s.table c h +
          (s.table.older c).countP fun i => claims i (s, .tick k a) := by
        rw [← claimsOlder_cons, claimsOlder, claimsOlder, hold]
      simp only [Overtaken, countP_cons_toNat, hopen', hclaims, batchSize] at ho hbound hopen ⊢
      simp only [State.openBatches] at ho
      omega

/-- Steps that are not of a tick neither claim nor pass over. -/
theorem Overtaken.other {i : String} {c : DateTime} {h : List (State × Action)} {s s' : State}
    {a : Action} (hother : ∀ k b, a ≠ .tick k b) (ho : Overtaken i c h s)
    (hopen : s.openBatches c ≤ s'.openBatches c)
    (hold : (s.table.older c).Sublist (s'.table.older c)) :
    Overtaken i c ((s, a) :: h) s' := by
  have hpasses : passesOver i (s, a) = false := by
    cases a with
    | tick k b => exact absurd rfl (hother k b)
    | _ => rfl
  have hclaims : claimsOlder s.table c h ≤ claimsOlder s'.table c ((s, a) :: h) := by
    rw [claimsOlder_cons]
    exact ((hold.map _).sum_le_sum fun _ _ => Nat.zero_le _).trans (Nat.le_add_right _ _)
  simp only [Overtaken, countP_cons_toNat, hpasses, Bool.toNat_false, batchSize] at ho ⊢
  omega

/-- An insertion adds at most one old row. -/
theorem older_insert {T T' : Table} {row : OutboxEvent} (h : T.insert row = some T')
    (c : DateTime) : (T.older c).Sublist (T'.older c) := by
  have hfind := (Table.insert_inv h).2
  have hids : row.id ∉ T.ids ∧ T'.ids = row.id :: T.ids := by
    unfold Table.insert at h
    split at h
    · cases h
    · rename_i hnew
      obtain rfl := Option.some.inj h
      exact ⟨hnew, rfl⟩
  have hsame : T.older c = T.ids.filter fun i => (T'.find? i).any fun r => r.createdAt ≤ c := by
    refine List.filter_congr fun i hi => ?_
    have hne : i ≠ row.id := by
      intro heq
      exact hids.1 (heq ▸ hi)
    rw [hfind, if_neg hne]
  rw [hsame, Table.older, hids.2]
  exact (List.sublist_cons_self ..).filter _

theorem openBatches_le {s : State} {T' : Table} {c : DateTime}
    (h : (s.table.older c).Sublist (T'.older c)) :
    s.openBatches c ≤ State.openBatches { s with table := T' } c := by
  refine List.countP_mono_left fun t _ hfull => ?_
  cases hph : t.phase with
  | claiming now ids =>
      simp only [hph, Phase.fullBatch, Bool.and_eq_true, decide_eq_true_eq, List.all_eq_true,
        List.contains_iff_mem] at hfull ⊢
      exact ⟨hfull.1, fun i hi => h.subset (hfull.2 i hi)⟩
  | _ =>
      rw [hph] at hfull
      cases hfull

theorem run_overtaken {h : List (State × Action)} {s : State} (hr : (worker H).Run .init h s)
    {i : String} {c : DateTime} (hc : ∀ r, s.table.find? i = some r → r.createdAt = c) :
    Overtaken i c h s := by
  induction hr with
  | refl => exact Nat.zero_le _
  | @step h t u a hr hs ih =>
      have hok := run_ok hr
      have hstep : State.Step H t a u := State.step_of_step? hs
      have hct : ∀ r, t.table.find? i = some r → r.createdAt = c := by
        intro r hrow
        have hevent := hok.row hstep i
        rw [hrow] at hevent
        obtain ⟨q, hq, hage⟩ := hevent.createdAt
        exact hage.symm.trans (hc q hq)
      have hbefore := ih hct
      cases hstep with
      | tick hk halive hph => exact hbefore.tick hok (.tick hk halive hph) hct
      | insert hnew hins =>
          have hold := older_insert hins c
          exact hbefore.other (fun _ _ => Action.noConfusion) (openBatches_le hold) hold
      | start hp =>
          refine hbefore.other (fun _ _ => Action.noConfusion) ?_ (List.Sublist.refl _)
          exact (List.sublist_append_left _ _).countP_le
      | signal | exit =>
          exact hbefore.other (fun _ _ => Action.noConfusion) (Nat.le_refl _) (List.Sublist.refl _)

/-- **No event starves.** Along every run in which rows are inserted with no attempts, a row
is passed over at most once for each full batch of rows as old as itself that is open or was
rolled back, and else at most `MAX_ATTEMPTS / BATCH_SIZE` times for each such row. -/
theorem overtaken_le {h : List (State × Action)} {s : State} (hr : (worker H).Run .init h s)
    (hfresh : FreshInserts h) {i : String} {r : OutboxEvent} (hi : s.table.find? i = some r) :
    batchSize * h.countP (passesOver i) ≤
      batchSize * (h.countP (abortsBatch r.createdAt) + s.openBatches r.createdAt) +
        maxAttempts * (s.table.older r.createdAt).length := by
  have hbound : Overtaken i r.createdAt h s := run_overtaken hr fun q hq => by
    rw [Option.some.inj (hq.symm.trans hi)]
  have hclaims : claimsOlder s.table r.createdAt h ≤
      maxAttempts * (s.table.older r.createdAt).length := by
    rw [Nat.mul_comm, ← List.length_map (f := fun i => h.countP (claims i))]
    refine List.sum_le_card_nsmul _ _ fun n hn => ?_
    obtain ⟨j, -, rfl⟩ := List.mem_map.mp hn
    exact (run_claimCount hr hfresh j).le
  exact hbound.trans (Nat.add_le_add_left hclaims _)

/-- One row more than a batch holds. -/
def crowd : List String := (List.range 21).map fun n => String.ofList (List.replicate n 'a')

/-- A tick that has to leave one row behind. -/
def crowdedTick : List Action :=
  crowd.map (fun i => .insert (freshRow i)) ++ [.start 0, .tick 0 (.select 5 crowd)]

theorem crowdedTick_overtaken :
    ∃ h s i r, (worker anyOutcome).Run .init h s ∧ s.table.find? i = some r ∧
      h.countP (passesOver i) = 1 ∧ batchSize * h.countP (passesOver i) ≤
        batchSize * (h.countP (abortsBatch r.createdAt) + s.openBatches r.createdAt) +
          maxAttempts * (s.table.older r.createdAt).length := by
  obtain ⟨h, s, hr, hp⟩ := (worker anyOutcome).exists_run_of_exec crowdedTick
    (fun h s => freshInserts h && (s.table.find? "aaaaaaaaaaaaaaaaaaaa").isSome &&
      h.countP (passesOver "aaaaaaaaaaaaaaaaaaaa") = 1) (by decide +kernel)
  simp only [Bool.and_eq_true, decide_eq_true_eq] at hp
  obtain ⟨r, hi⟩ := Option.isSome_iff_exists.mp hp.1.2
  exact ⟨h, s, _, r, hr, hi, hp.2, overtaken_le hr (freshInserts_iff hp.1.1) hi⟩

end LoopzToken.Worker
